import OptimistOS.Foundation.Masks
import OptimistOS.Paging.InitPaging
import OptimistOS.Paging.MapRuns

/-!
# The mappings at boot

What the loops of `initPaging` map, for a memory map without entries from 4 GB
on: 2 MB pages that send the first 4 GB to themselves, 2 MB pages of the direct
map, and 4 KB pages of the kernel image. `BootCalls` is the invariant of the
loops. The three sets of pages share no 2 MB region, so every address that one
of them covers is translated by it (`initPaging_translates`).
-/

namespace OptimistOS

open ByteMemory ByteMemory.Code

theorem toNat_roundDown_4KB (n : Word) :
    (roundDown n pageSize4KB).toNat = n.toNat / 4096 * 4096 :=
  toNat_and_not_mask n 12

theorem toNat_roundUp_4KB {n : Word} (h : n.toNat + 4095 < 2 ^ 64) :
    (roundUp n pageSize4KB).toNat = (n.toNat + 4095) / 4096 * 4096 := by
  have hmask := toNat_and_not_mask (n + pageSize4KB - 1) 12
  have hsum : (n + pageSize4KB - 1).toNat = n.toNat + 4095 := by
    have hsize : pageSize4KB.toNat = 4096 := by decide
    have hone : (1 : Word).toNat = 1 := by decide
    rw [BitVec.toNat_sub, BitVec.toNat_add, hsize, hone]
    omega
  rw [hsum] at hmask
  exact hmask

theorem roundDown_4KB_of_mod {n : Word} (h : n.toNat % 4096 = 0) :
    roundDown n pageSize4KB = n := by
  apply BitVec.eq_of_toNat_eq
  rw [toNat_roundDown_4KB]
  omega

theorem mappedTo_of_delta {calls : List PageMapping} {v : Word} (delta : Word)
    (hcover : ∃ c ∈ calls, c.Covers v)
    (hdelta : ∀ c ∈ calls, c.Covers v →
      c.physicalAddr - c.virtualAddr = delta) :
    mappedTo calls v = some (v + delta) := by
  cases hlast : lastCovering calls v with
  | none =>
      obtain ⟨c, hc, hv⟩ := hcover
      rw [lastCovering, List.getLast?_eq_none_iff] at hlast
      exact absurd hlast (List.ne_nil_of_mem
        (List.mem_filter.2 ⟨hc, decide_eq_true hv⟩))
  | some c =>
      obtain ⟨hmem, hv⟩ := mem_of_lastCovering hlast
      rw [mappedTo, hlast, Option.map_some, ← hdelta c hmem hv]
      congr 1
      ring

def BootResponses.pages (r : BootResponses) : ℕ :=
  (r.KERNEL_BLOB_SIZE.toNat + 4095) / 4096

/-- A direct map in the upper half for the first 4 GB, and a kernel image in the
upper half that shares no 2 MB region with it. -/
structure BootLayout (r : BootResponses) : Prop where
  direct_aligned : r.hhdmOffset.toNat % 2 ^ 21 = 0
  direct_upper : upperHalf.toNat ≤ r.hhdmOffset.toNat
  direct_fits : r.hhdmOffset.toNat + 2 ^ 32 ≤ 2 ^ 64
  virtualBase_eq : r.virtualBase = r.KERNEL_BLOB_BEGIN
  virtual_aligned : r.virtualBase.toNat % 4096 = 0
  virtual_upper : upperHalf.toNat ≤ r.virtualBase.toNat
  virtual_fits : r.virtualBase.toNat + 4096 * r.pages < 2 ^ 64
  physical_aligned : r.physicalBase.toNat % 4096 = 0
  physical_fits : r.physicalBase.toNat + 4096 * r.pages ≤ 2 ^ 52
  apart : ∀ v ∈ region r.virtualBase r.KERNEL_BLOB_SIZE.toNat,
    ∀ w ∈ region r.hhdmOffset (2 ^ 32),
      v.toNat / 2 ^ 21 ≠ w.toNat / 2 ^ 21

structure IdentityPage (c : PageMapping) : Prop where
  large : c.large = true
  physicalAddr : c.physicalAddr = c.virtualAddr
  lt : c.virtualAddr.toNat < 2 ^ 32

structure DirectPage (r : BootResponses) (c : PageMapping) : Prop where
  large : c.large = true
  virtualAddr : c.virtualAddr = c.physicalAddr + r.hhdmOffset
  lt : c.physicalAddr.toNat < 2 ^ 32

structure ImagePage (r : BootResponses) (k : ℕ) (c : PageMapping) : Prop where
  small : c.large = false
  page : ∃ i < k, c.virtualAddr =
    r.virtualBase + BitVec.ofNat 64 i * pageSize4KB
  physicalAddr : c.physicalAddr =
    c.virtualAddr - r.virtualBase + r.physicalBase

/-- The calls so far: pages of the three kinds, among them the first `j` of the
identity map and of the direct map and the first `k` of the image. -/
structure BootCalls (r : BootResponses) (calls : List PageMapping)
    (j k : ℕ) : Prop where
  kind : ∀ c ∈ calls, IdentityPage c ∨ DirectPage r c ∨ ImagePage r k c
  identity : ∀ i < j, ∃ c ∈ calls, IdentityPage c ∧
    c.virtualAddr = BitVec.ofNat 64 i * _2MB
  direct : ∀ i < j, ∃ c ∈ calls, DirectPage r c ∧
    c.physicalAddr = BitVec.ofNat 64 i * _2MB
  image : ∀ i < k, ∃ c ∈ calls, ImagePage r k c ∧
    c.virtualAddr = r.virtualBase + BitVec.ofNat 64 i * pageSize4KB

theorem bootCalls_nil (r : BootResponses) : BootCalls r [] 0 0 :=
  ⟨by simp, by simp, by simp, by simp⟩

theorem toNat_mul_2MB {i : ℕ} (hi : i ≤ 2048) :
    (BitVec.ofNat 64 i * _2MB).toNat = i * 2 ^ 21 := by
  have hsize : _2MB.toNat = 2 ^ 21 := by decide
  rw [BitVec.toNat_mul, BitVec.toNat_ofNat, hsize]
  omega

theorem toNat_mul_4KB {i : ℕ} (hi : 4096 * i < 2 ^ 64) :
    (BitVec.ofNat 64 i * pageSize4KB).toNat = 4096 * i := by
  have hsize : pageSize4KB.toNat = 4096 := by decide
  rw [BitVec.toNat_mul, BitVec.toNat_ofNat, hsize]
  omega

theorem kernelFlags_present : kernelFlags.getLsbD 0 = true := by decide

theorem kernelFlags_mask : kernelFlags &&& addressMask = 0 := by decide

theorem kernelFlags_largerPages : kernelFlags.getLsbD 7 = false := by decide

def identityCall (i : ℕ) (hi : i < 2048) : PageMapping where
  large := true
  physicalAddr := BitVec.ofNat 64 i * _2MB
  virtualAddr := BitVec.ofNat 64 i * _2MB
  flags := kernelFlags ||| PageTableFlag.largerPages
  canonical := canonical_of_lt (by rw [toNat_mul_2MB hi.le]; omega)
  physical_aligned := by rw [toNat_mul_2MB hi.le]; exact Nat.mul_mod_left _ _
  virtual_aligned := by rw [toNat_mul_2MB hi.le]; exact Nat.mul_mod_left _ _
  physical_lt := by rw [toNat_mul_2MB hi.le]; omega
  present := by decide
  flags_mask := by decide
  largerPages := by decide

namespace BootLayout

variable {r : BootResponses}

theorem toNat_direct (h : BootLayout r) {p : Word} (hp : p.toNat < 2 ^ 32) :
    (p + r.hhdmOffset).toNat = p.toNat + r.hhdmOffset.toNat := by
  have hfits := h.direct_fits
  rw [BitVec.toNat_add]
  omega

theorem toNat_image (h : BootLayout r) {i : ℕ} (hi : i < r.pages) :
    (r.virtualBase + BitVec.ofNat 64 i * pageSize4KB).toNat =
      r.virtualBase.toNat + 4096 * i := by
  have hfits := h.virtual_fits
  rw [BitVec.toNat_add, toNat_mul_4KB (by omega)]
  omega

def directCall (h : BootLayout r) (i : ℕ) (hi : i < 2048) : PageMapping where
  large := true
  physicalAddr := BitVec.ofNat 64 i * _2MB
  virtualAddr := BitVec.ofNat 64 i * _2MB + r.hhdmOffset
  flags := kernelFlags ||| PageTableFlag.largerPages
  canonical := canonical_of_le (by
    have hupper := h.direct_upper
    rw [h.toNat_direct (by rw [toNat_mul_2MB hi.le]; omega)]
    omega)
  physical_aligned := by rw [toNat_mul_2MB hi.le]; exact Nat.mul_mod_left _ _
  virtual_aligned := by
    have haligned := h.direct_aligned
    rw [h.toNat_direct (by rw [toNat_mul_2MB hi.le]; omega),
      toNat_mul_2MB hi.le, if_pos rfl]
    omega
  physical_lt := by rw [toNat_mul_2MB hi.le]; omega
  present := by decide
  flags_mask := by decide
  largerPages := by decide

theorem image_mem (h : BootLayout r) {i : ℕ} (hi : i < r.pages) :
    r.virtualBase + BitVec.ofNat 64 i * pageSize4KB ∈
      region r.virtualBase r.KERNEL_BLOB_SIZE.toNat := by
  have hfits := h.virtual_fits
  rw [mem_region, BitVec.toNat_sub, h.toNat_image hi]
  rw [BootResponses.pages] at hi hfits
  omega

theorem toNat_physical (h : BootLayout r) {i : ℕ} (hi : i < r.pages) :
    (r.virtualBase + BitVec.ofNat 64 i * pageSize4KB - r.virtualBase +
      r.physicalBase).toNat = r.physicalBase.toNat + 4096 * i := by
  have hfits := h.virtual_fits
  have hfits' := h.physical_fits
  rw [BitVec.add_comm r.virtualBase, BitVec.add_sub_cancel, BitVec.toNat_add,
    toNat_mul_4KB (by omega)]
  omega

def imageCall (h : BootLayout r) (i : ℕ) (hi : i < r.pages) : PageMapping where
  large := false
  physicalAddr := r.virtualBase + BitVec.ofNat 64 i * pageSize4KB -
    r.virtualBase + r.physicalBase
  virtualAddr := r.virtualBase + BitVec.ofNat 64 i * pageSize4KB
  flags := kernelFlags
  canonical := canonical_of_le (by
    have hupper := h.virtual_upper
    rw [h.toNat_image hi]
    omega)
  physical_aligned := by
    have haligned := h.physical_aligned
    rw [h.toNat_physical hi]
    simp only [Bool.false_eq_true, if_false]
    omega
  virtual_aligned := by
    have haligned := h.virtual_aligned
    rw [h.toNat_image hi]
    simp only [Bool.false_eq_true, if_false]
    omega
  physical_lt := by
    have hfits := h.physical_fits
    rw [h.toNat_physical hi]
    omega
  present := kernelFlags_present
  flags_mask := kernelFlags_mask
  largerPages := kernelFlags_largerPages

end BootLayout

namespace BootCalls

variable {r : BootResponses} {calls : List PageMapping} {j k : ℕ}

theorem large (hb : BootCalls r calls j 0) : ∀ c ∈ calls, c.large = true := by
  intro c hc
  rcases hb.kind c hc with hc | hc | hc
  · exact hc.large
  · exact hc.large
  · obtain ⟨i, hi, -⟩ := hc.page
    omega

theorem snoc_large (hb : BootCalls r calls j 0) (h : BootLayout r)
    (hj : j < 2048) :
    BootCalls r (calls ++ [identityCall j hj] ++ [h.directCall j hj]) (j + 1)
      0 := by
  have hidentity : IdentityPage (identityCall j hj) :=
    ⟨rfl, rfl, (toNat_mul_2MB hj.le).trans_lt (by omega)⟩
  have hdirect : DirectPage r (h.directCall j hj) :=
    ⟨rfl, rfl, (toNat_mul_2MB hj.le).trans_lt (by omega)⟩
  refine ⟨fun c hc => ?_, fun i hi => ?_, fun i hi => ?_, by simp⟩
  · rcases List.mem_append.1 hc with hc | hc
    · rcases List.mem_append.1 hc with hc | hc
      · exact hb.kind c hc
      · exact Or.inl (List.mem_singleton.1 hc ▸ hidentity)
    · exact Or.inr (Or.inl (List.mem_singleton.1 hc ▸ hdirect))
  · rcases Nat.lt_succ_iff_lt_or_eq.1 hi with hlt | rfl
    · obtain ⟨c, hc, hc'⟩ := hb.identity i hlt
      exact ⟨c, by simp [hc], hc'⟩
    · exact ⟨identityCall i hj, by simp, hidentity, rfl⟩
  · rcases Nat.lt_succ_iff_lt_or_eq.1 hi with hlt | rfl
    · obtain ⟨c, hc, hc'⟩ := hb.direct i hlt
      exact ⟨c, by simp [hc], hc'⟩
    · exact ⟨h.directCall i hj, by simp, hdirect, rfl⟩

theorem snoc_image (hb : BootCalls r calls j k) (h : BootLayout r)
    (hk : k < r.pages) :
    BootCalls r (calls ++ [h.imageCall k hk]) j (k + 1) := by
  have himage : ImagePage r (k + 1) (h.imageCall k hk) :=
    ⟨rfl, ⟨k, Nat.lt_succ_self k, rfl⟩, rfl⟩
  have hmono : ∀ c, ImagePage r k c → ImagePage r (k + 1) c := by
    rintro c ⟨hsmall, ⟨i, hi, hc⟩, hphysical⟩
    exact ⟨hsmall, ⟨i, by omega, hc⟩, hphysical⟩
  refine ⟨fun c hc => ?_, fun i hi => ?_, fun i hi => ?_, fun i hi => ?_⟩
  · rcases List.mem_append.1 hc with hc | hc
    · exact (hb.kind c hc).imp_right (Or.imp_right (hmono c))
    · exact Or.inr (Or.inr (List.mem_singleton.1 hc ▸ himage))
  · obtain ⟨c, hc, hc'⟩ := hb.identity i hi
    exact ⟨c, List.mem_append_left _ hc, hc'⟩
  · obtain ⟨c, hc, hc'⟩ := hb.direct i hi
    exact ⟨c, List.mem_append_left _ hc, hc'⟩
  · rcases Nat.lt_succ_iff_lt_or_eq.1 hi with hlt | rfl
    · obtain ⟨c, hc, hc', hv⟩ := hb.image i hlt
      exact ⟨c, List.mem_append_left _ hc, hmono c hc', hv⟩
    · exact ⟨h.imageCall i hk, by simp, himage, rfl⟩

theorem large_eq_of_image (hb : BootCalls r calls j k) (h : BootLayout r)
    (hk : k < r.pages) : ∀ d ∈ calls,
      (h.imageCall k hk).virtualAddr.toNat / 2 ^ 21 =
        d.virtualAddr.toNat / 2 ^ 21 →
      (h.imageCall k hk).large = d.large := by
  intro d hd heq
  have hnat : (h.imageCall k hk).virtualAddr.toNat =
      r.virtualBase.toNat + 4096 * k := h.toNat_image hk
  have hupper : upperHalf.toNat ≤ r.virtualBase.toNat := h.virtual_upper
  have hhalf : upperHalf.toNat = 2 ^ 64 - 2 ^ 47 := by decide
  rcases hb.kind d hd with hd | hd | hd
  · have hlt := hd.lt
    omega
  · refine absurd heq (h.apart _ (h.image_mem hk) _ ?_)
    rw [hd.virtualAddr, mem_region, BitVec.add_sub_cancel]
    exact hd.lt
  · exact hd.small.symm

end BootCalls

section

variable {α : Type} {A : FrameAllocator α} {r : BootResponses}
  {S : FrameSource A r.hhdmOffset} {root : Word} {n fuel : ℕ}
  {s : Machine 64 (PagingGlobals α)} {calls : List PageMapping}

/-- The state after the calls of `BootCalls`. -/
def BootMapped (S : FrameSource A r.hhdmOffset) (root : Word) (n : ℕ)
    (s₀ s : Machine 64 (PagingGlobals α)) (j k : ℕ) : Prop :=
  ∃ calls, MapsCalls S root n s calls ∧ BootCalls r calls j k ∧
    SameGlobals s₀ s

theorem returns_mapFirst4GB (h : BootLayout r) (hfuel : 2048 ≤ fuel)
    (hmaps : MapsCalls S root n s []) :
    (mapFirst4GB A fuel r.hhdmOffset).Returns s (n < 6 * 2048) fun _ t =>
      BootMapped S root (n - 6 * 2048) s t 2048 0 := by
  have hzero : ∀ j : ℕ, (0 : Word) + BitVec.ofNat 64 j * _2MB =
      BitVec.ofNat 64 j * _2MB := fun j => BitVec.zero_add _
  refine returns_forLoop (fun j t => BootMapped S root (n - 6 * j) s t j 0)
    (fun j hj => ?_) (by decide) (fun j hj t ht => ?_) hfuel
    ⟨[], hmaps, bootCalls_nil r, rfl⟩
  · have hsize : _4GB.toNat = 2 ^ 32 := by decide
    rw [hzero, BitVec.lt_def, toNat_mul_2MB hj.le, hsize]
    omega
  · obtain ⟨calls, hmaps, hb, hglobals⟩ := ht
    rw [hzero]
    refine Returns.bind ((returns_map (c := identityCall j hj) hmaps
      fun d hd _ => (hb.large d hd).symm).mono (by omega) fun _ _ => id) ?_
    rintro b t₁ ⟨-, hglobals₁, hmaps₁⟩
    refine Returns.bind ((returns_map (c := h.directCall j hj) hmaps₁ ?_).mono
      (by omega) fun _ _ => id) ?_
    · intro d hd _
      rcases List.mem_append.1 hd with hd | hd
      · exact (hb.large d hd).symm
      · rw [List.mem_singleton.1 hd]
        rfl
    · rintro b t₂ ⟨-, hglobals₂, hmaps₂⟩
      have hcount : n - 6 * j - 3 - 3 = n - 6 * (j + 1) := by omega
      rw [hcount] at hmaps₂
      exact .of_ok rfl ⟨_, hmaps₂, hb.snoc_large h hj,
        (hglobals.trans hglobals₁).trans hglobals₂⟩

theorem run_mapMemmap_of_lt (hmemmap : ∀ e ∈ r.memmap, e.base < _4GB) :
    (mapMemmap A fuel r.hhdmOffset r.memmap).run s = .ok () s := by
  generalize r.memmap = entries at hmemmap
  induction entries with
  | nil => rfl
  | cons e entries ih =>
      have hbase : e.start < _4GB := by
        have hlt := BitVec.lt_def.1 (hmemmap e List.mem_cons_self)
        rw [BitVec.lt_def, MemmapEntry.start, toNat_roundDown_4KB]
        omega
      have hentry : (mapEntry A fuel r.hhdmOffset e).run s = .ok () s := by
        rw [mapEntry_of_lt A hbase]
        rfl
      rw [mapMemmap, run_bind_of_ok hentry]
      exact ih fun e he => hmemmap e (List.mem_cons_of_mem _ he)

/-- The loop over the kernel image, with an invariant for its pages. -/
theorem returns_imagePages {excuse : Prop}
    {I : ℕ → Machine 64 (PagingGlobals α) → Prop} (h : BootLayout r)
    (hfuel : r.pages ≤ fuel)
    (hpage : ∀ k (hk : k < r.pages) t, I k t →
      (map A (h.imageCall k hk).physicalAddr (h.imageCall k hk).virtualAddr
        (h.imageCall k hk).flags).Returns t excuse fun _ => I (k + 1))
    (hs : I 0 s) : (mapKernel A fuel r).Returns s excuse fun _ => I r.pages := by
  have hfits := h.virtual_fits
  have hstart : roundDown r.KERNEL_BLOB_BEGIN pageSize4KB = r.virtualBase := by
    rw [← h.virtualBase_eq]
    exact roundDown_4KB_of_mod h.virtual_aligned
  have hend : (r.virtualBase + roundUp (r.KERNEL_BLOB_SIZE +
      (r.KERNEL_BLOB_BEGIN - r.virtualBase)) pageSize4KB).toNat =
        r.virtualBase.toNat + 4096 * r.pages := by
    have hsize : r.KERNEL_BLOB_SIZE + (r.KERNEL_BLOB_BEGIN - r.virtualBase) =
        r.KERNEL_BLOB_SIZE := by
      rw [h.virtualBase_eq, BitVec.sub_self]
      exact BitVec.add_zero _
    rw [BootResponses.pages] at hfits ⊢
    rw [hsize, BitVec.toNat_add, toNat_roundUp_4KB (by omega)]
    omega
  rw [mapKernel, hstart]
  refine returns_forLoop I (fun k hk => ?_) ?_ (fun k hk t ht => ?_) hfuel hs
  · rw [BitVec.lt_def, h.toNat_image hk, hend]
    omega
  · have hnat : (r.virtualBase + BitVec.ofNat 64 r.pages *
        pageSize4KB).toNat = r.virtualBase.toNat + 4096 * r.pages := by
      rw [BitVec.toNat_add, toNat_mul_4KB (by omega)]
      omega
    rw [BitVec.lt_def, hnat, hend]
    omega
  · exact Returns.bind (hpage k hk t ht) fun _ _ ht₁ => .of_ok rfl ht₁

theorem returns_mapKernel {s₀ : Machine 64 (PagingGlobals α)}
    (h : BootLayout r) (hfuel : r.pages ≤ fuel) {j : ℕ}
    (hs : BootMapped S root n s₀ s j 0) :
    (mapKernel A fuel r).Returns s (n < 3 * r.pages) fun _ t =>
      BootMapped S root (n - 3 * r.pages) s₀ t j r.pages := by
  refine returns_imagePages (I := fun k t =>
    BootMapped S root (n - 3 * k) s₀ t j k) h hfuel (fun k hk t ht => ?_) hs
  obtain ⟨calls, hmaps, hb, hglobals⟩ := ht
  refine (returns_map (c := h.imageCall k hk) hmaps
    (hb.large_eq_of_image h hk)).mono (by omega) ?_
  rintro b t₁ ⟨-, hglobals₁, hmaps₁⟩
  have hcount : n - 3 * k - 3 = n - 3 * (k + 1) := by omega
  rw [hcount] at hmaps₁
  exact ⟨_, hmaps₁, hb.snoc_image h hk, hglobals.trans hglobals₁⟩

theorem returns_init {frames : List Word}
    (hready : S.Ready n ⟨s.mem, s.globals.frames⟩ frames) :
    (init A).Returns s (n < 1) fun _ t =>
      MapsCalls S t.globals.PML4 (n - 1) t [] ∧
        (s.globals.kernelPML4 = 0 → t.globals.kernelPML4 = t.globals.PML4) := by
  rcases S.allocateFrame n _ frames hready with
    ⟨f, u, hrun, hfresh, hready'⟩ | ⟨hn, e, u, hrun⟩
  · let t : Machine 64 (PagingGlobals α) :=
      ⟨u.mem, { s.globals with
        PML4 := f
        kernelPML4 :=
          if s.globals.kernelPML4 = 0 then f else s.globals.kernelPML4
        frames := u.globals }⟩
    refine .of_ok (a := ()) (t := t) ?_ ⟨mapsCalls_nil hready'
      List.mem_cons_self hfresh.zero, fun hzero => if_pos hzero⟩
    rw [init, run_bind_of_ok (run_callFrames_ok hrun), EStateM.run_bind,
      run_modifyGlobals]
    dsimp only
    rw [EStateM.run_bind, EStateM.run_get]
    by_cases hzero : s.globals.kernelPML4 = 0
    · simp only [if_pos hzero, run_modifyGlobals, t]
    · simp only [if_neg hzero, EStateM.run_pure, t]
  · exact Or.inr ⟨by omega, e, _,
      run_bind_of_error (run_callFrames_error hrun)⟩

/-- The number of frames that `initPaging` needs at most. -/
def BootResponses.frames (r : BootResponses) : ℕ :=
  1 + 6 * 2048 + 3 * r.pages

structure BootTables (S : FrameSource A r.hhdmOffset) (n : ℕ)
    (s : Machine 64 (PagingGlobals α)) : Prop where
  maps : ∃ calls, MapsCalls S s.globals.PML4 n s calls ∧
    BootCalls r calls 2048 r.pages

theorem MapsCalls.setOffset {root : Word} {calls : List PageMapping}
    (h : MapsCalls S root n s calls) (offset : Word) :
    MapsCalls S root n ⟨s.mem, { s.globals with hhdmOffset := offset }⟩
      calls := by
  obtain ⟨⟨frames, owner, hready, htables⟩, hroot, hviews, htop⟩ := h
  exact ⟨⟨frames, owner, hready, htables⟩, hroot, hviews, htop⟩

theorem returns_initTables (h : BootLayout r)
    (hmemmap : ∀ e ∈ r.memmap, e.base < _4GB) (hfuel : 2048 ≤ fuel)
    (hpages : r.pages ≤ fuel) {frames : List Word}
    (hready : S.Ready n ⟨s.mem, s.globals.frames⟩ frames) :
    (initTables A fuel r).Returns s (n < r.frames) fun _ t =>
      BootTables S (n - r.frames) t ∧
        (s.globals.kernelPML4 = 0 → t.globals.kernelPML4 = t.globals.PML4) := by
  rw [initTables]
  refine Returns.bind ((returns_init hready).mono
    (by rw [BootResponses.frames]; omega) fun _ _ => id) ?_
  rintro _ t₁ ⟨hmaps₁, hkernel⟩
  have hmaps₂ := hmaps₁.setOffset r.hhdmOffset
  refine Returns.bind_of_ok (t := ⟨t₁.mem, _⟩) rfl ?_
  refine Returns.bind ((returns_mapFirst4GB h hfuel hmaps₂).mono
    (by rw [BootResponses.frames]; omega) fun _ _ => id) ?_
  intro _ t₃ h₃
  refine Returns.bind_of_ok (run_mapMemmap_of_lt hmemmap) ?_
  refine (returns_mapKernel h hpages h₃).mono
    (by rw [BootResponses.frames]; omega) ?_
  rintro _ t₄ ⟨calls, hmaps, hcalls, hglobals⟩
  have hcount : n - 1 - 6 * 2048 - 3 * r.pages = n - r.frames := by
    rw [BootResponses.frames]
    omega
  have hPML4 : t₄.globals.PML4 = t₁.globals.PML4 := hmaps.PML4
  have hkernel₄ : t₄.globals.kernelPML4 = t₁.globals.kernelPML4 := by
    rw [hglobals]
  rw [hcount] at hmaps
  exact ⟨⟨calls, hPML4.symm ▸ hmaps, hcalls⟩, fun hzero => by
    rw [hkernel₄, hPML4, hkernel hzero]⟩

/-- The translations that the kernel relies on. -/
structure BootTranslates (r : BootResponses) (s : Machine 64 (InitGlobals α)) :
    Prop where
  cr3 : s.globals.cr3 = s.globals.paging.PML4
  identity : ∀ p : Word, p.toNat < 2 ^ 32 →
    translate s.mem r.hhdmOffset s.globals.paging.PML4 p = some p
  direct : ∀ p : Word, p.toNat < 2 ^ 32 →
    translate s.mem r.hhdmOffset s.globals.paging.PML4 (p + r.hhdmOffset) =
      some p
  image : ∀ v ∈ region r.virtualBase r.KERNEL_BLOB_SIZE.toNat,
    translate s.mem r.hhdmOffset s.globals.paging.PML4 v =
      some (v - r.virtualBase + r.physicalBase)

namespace BootCalls

variable {calls : List PageMapping} {v : Word} {c : PageMapping}

theorem div_eq_of_covers (hc : c.Covers v) :
    v.toNat / 2 ^ 21 = c.virtualAddr.toNat / 2 ^ 21 :=
  samePage_iff_div.1 ((c.covers_iff.1 hc).mono c.bits_cases.2)

theorem covers_large_of_div (hlarge : c.large = true)
    (h : v.toNat / 2 ^ 21 = c.virtualAddr.toNat / 2 ^ 21) : c.Covers v := by
  rw [c.covers_iff, PageMapping.bits, if_pos hlarge]
  exact samePage_iff_div.2 h

theorem mappedTo_identity (hb : BootCalls r calls 2048 r.pages)
    (h : BootLayout r) (hv : v.toNat < 2 ^ 32) : mappedTo calls v = some v := by
  have hhalf : upperHalf.toNat = 2 ^ 64 - 2 ^ 47 := by decide
  have hupper := h.direct_upper
  have hupper' := h.virtual_upper
  obtain ⟨c, hc, hpage, haddr⟩ := hb.identity (v.toNat / 2 ^ 21) (by omega)
  have hcover : c.Covers v := covers_large_of_div hpage.large (by
    rw [haddr, toNat_mul_2MB (by omega)]
    omega)
  rw [mappedTo_of_delta 0 ⟨c, hc, hcover⟩ fun d hd hdv => ?_]
  · exact congrArg some (BitVec.add_zero v)
  · have hdiv := div_eq_of_covers hdv
    rcases hb.kind d hd with hd | hd | hd
    · rw [hd.physicalAddr]
      exact BitVec.sub_self _
    · rw [hd.virtualAddr, h.toNat_direct hd.lt] at hdiv
      omega
    · obtain ⟨i, hi, haddr⟩ := hd.page
      rw [haddr, h.toNat_image hi] at hdiv
      omega

theorem mappedTo_direct (hb : BootCalls r calls 2048 r.pages)
    (h : BootLayout r) (hv : v.toNat < 2 ^ 32) :
    mappedTo calls (v + r.hhdmOffset) = some v := by
  have hhalf : upperHalf.toNat = 2 ^ 64 - 2 ^ 47 := by decide
  have hupper := h.direct_upper
  have haligned := h.direct_aligned
  have hnat := h.toNat_direct hv
  obtain ⟨c, hc, hpage, haddr⟩ := hb.direct (v.toNat / 2 ^ 21) (by omega)
  have hcover : c.Covers (v + r.hhdmOffset) := covers_large_of_div hpage.large
    (by
      rw [hpage.virtualAddr, h.toNat_direct hpage.lt, hnat, haddr,
        toNat_mul_2MB (by omega)]
      omega)
  rw [mappedTo_of_delta (-r.hhdmOffset) ⟨c, hc, hcover⟩
    fun d hd hdv => ?_]
  · rw [← BitVec.sub_eq_add_neg, BitVec.add_sub_cancel]
  · have hdiv := div_eq_of_covers hdv
    rw [hnat] at hdiv
    rcases hb.kind d hd with hd | hd | hd
    · have hlt := hd.lt
      omega
    · rw [hd.virtualAddr]
      ring
    · obtain ⟨i, hi, haddr⟩ := hd.page
      have hwindow : v + r.hhdmOffset ∈ region r.hhdmOffset (2 ^ 32) := by
        rw [mem_region, BitVec.add_sub_cancel]
        exact hv
      have hne := h.apart _ (h.image_mem hi) _ hwindow
      rw [hnat, ← haddr] at hne
      exact absurd hdiv.symm hne

theorem mappedTo_image (hb : BootCalls r calls 2048 r.pages)
    (h : BootLayout r)
    (hv : v ∈ region r.virtualBase r.KERNEL_BLOB_SIZE.toNat) :
    mappedTo calls v = some (v - r.virtualBase + r.physicalBase) := by
  have hhalf : upperHalf.toNat = 2 ^ 64 - 2 ^ 47 := by decide
  have hupper := h.virtual_upper
  have haligned := h.virtual_aligned
  have hfits := h.virtual_fits
  have hoffset := hv
  rw [mem_region, BitVec.toNat_sub] at hoffset
  have hlt := v.isLt
  have hpages : r.pages = (r.KERNEL_BLOB_SIZE.toNat + 4095) / 4096 := rfl
  have hnat : r.virtualBase.toNat ≤ v.toNat ∧
      v.toNat - r.virtualBase.toNat < r.KERNEL_BLOB_SIZE.toNat := by omega
  obtain ⟨c, hc, hpage, haddr⟩ :=
    hb.image ((v.toNat - r.virtualBase.toNat) / 4096) (by omega)
  have hcover : c.Covers v := by
    rw [c.covers_iff, PageMapping.bits, hpage.small, samePage_iff_div, haddr,
      h.toNat_image (by omega)]
    simp only [Bool.false_eq_true, if_false]
    omega
  rw [mappedTo_of_delta (r.physicalBase - r.virtualBase)
    ⟨c, hc, hcover⟩ fun d hd hdv => ?_]
  · congr 1
    ring
  · have hdiv := div_eq_of_covers hdv
    rcases hb.kind d hd with hd | hd | hd
    · have hlt' := hd.lt
      omega
    · have hwindow : d.virtualAddr ∈ region r.hhdmOffset (2 ^ 32) := by
        rw [hd.virtualAddr, mem_region, BitVec.add_sub_cancel]
        exact hd.lt
      exact absurd hdiv (h.apart v hv _ hwindow)
    · rw [hd.physicalAddr]
      ring

end BootCalls

theorem BootTables.translates {s : Machine 64 (InitGlobals α)}
    (h : BootLayout r)
    (htables : BootTables S n ⟨s.mem, s.globals.paging⟩)
    (hcr3 : s.globals.cr3 = s.globals.paging.PML4) : BootTranslates r s := by
  obtain ⟨calls, hmaps, hcalls⟩ := htables
  have htranslate := translate_of_viewsCalls hmaps.views
  refine ⟨hcr3, fun p hp => ?_, fun p hp => ?_, fun v hv => ?_⟩
  · exact (htranslate p).trans (hcalls.mappedTo_identity h hp)
  · exact (htranslate _).trans (hcalls.mappedTo_direct h hp)
  · exact (htranslate v).trans (hcalls.mappedTo_image h hv)

theorem returns_initPaging_of {excuse : Prop}
    {Q : Machine 64 (PagingGlobals α) → Prop} {s : Machine 64 (InitGlobals α)}
    (hmutex : s.globals.mutex = 0)
    (htables : (initTables A fuel r).Returns ⟨s.mem, s.globals.paging⟩ excuse
      fun _ t => Q t ∧ t.globals.PML4 ≠ 0) :
    (initPaging A fuel r).Returns s excuse fun _ t =>
      Q ⟨t.mem, t.globals.paging⟩ ∧
        t.globals.cr3 = t.globals.paging.PML4 := by
  rw [initPaging]
  refine Returns.bind_of_ok (run_lock_of_free hmutex) ?_
  refine Returns.bind (Q := fun _ t => Q ⟨t.mem, t.globals.paging⟩ ∧
    t.globals.paging.PML4 ≠ 0) ?_ ?_
  · rw [callPaging]
    refine Returns.mono (Returns.zoom htables) id ?_
    rintro _ _ ⟨t, ht, rfl⟩
    exact ht
  · rintro _ t ⟨ht, hne⟩
    refine Returns.bind_of_ok (t := t) (a := t) rfl ?_
    rw [if_neg hne]
    exact .of_ok rfl ⟨ht, rfl⟩

theorem MapsCalls.root_ne_zero {hhdmOffset : Word} {S : FrameSource A hhdmOffset}
    (h : MapsCalls S root n s calls) : s.globals.PML4 ≠ 0 := by
  obtain ⟨⟨frames, owner, hmapped⟩, hroot, -, -⟩ := h
  rw [hroot]
  exact (hmapped.tables.frame _ hmapped.tables.root_mem).ne_zero

/-- `initPaging` returns, unless the allocator runs out of frames, and the
processor then translates the first 4 GB, their direct map and the kernel
image. -/
theorem initPaging_translates (S : FrameSource A r.hhdmOffset)
    (h : BootLayout r) (hmemmap : ∀ e ∈ r.memmap, e.base < _4GB)
    (hfuel : 2048 ≤ fuel) (hpages : r.pages ≤ fuel)
    {s : Machine 64 (InitGlobals α)} {frames : List Word}
    (hmutex : s.globals.mutex = 0)
    (hready : S.Ready n ⟨s.mem, s.globals.paging.frames⟩ frames) :
    (initPaging A fuel r).Returns s (n < r.frames) fun _ t =>
      BootTranslates r t := by
  have htables := returns_initTables (s := ⟨s.mem, s.globals.paging⟩) h hmemmap
    hfuel hpages hready
  refine (returns_initPaging_of (Q := BootTables S (n - r.frames)) hmutex
    (htables.mono id fun _ t ht => ?_)).mono id fun _ t ht =>
      BootTables.translates h ht.1 ht.2
  obtain ⟨calls, hmaps, -⟩ := ht.1.maps
  exact ⟨ht.1, hmaps.root_ne_zero⟩

end

def bootRegion : UsableRegion where
  start := 0x100000
  length := 0x4000000
  hhdmOffset := 0xffff800000000000
  start_ne := smallRegion.start_ne
  start_aligned := smallRegion.start_aligned
  length_aligned := by decide
  physical := by decide
  base_ne := smallRegion.base_ne
  window := by decide

/-- A machine with this region and a kernel image of five pages behind it. -/
def bootResponses : BootResponses where
  hhdmOffset := 0xffff800000000000
  memmap := [⟨0x100000, 0x4000000⟩, ⟨0x4100000, 0x5000⟩]
  physicalBase := 0x4100000
  virtualBase := 0xffffffff80000000
  KERNEL_BLOB_BEGIN := 0xffffffff80000000
  KERNEL_BLOB_SIZE := 0x4800

theorem bootLayout_bootResponses : BootLayout bootResponses where
  direct_aligned := by decide
  direct_upper := by decide
  direct_fits := by decide
  virtualBase_eq := rfl
  virtual_aligned := by decide
  virtual_upper := by decide
  virtual_fits := by decide
  physical_aligned := by decide
  physical_fits := by decide
  apart := by
    intro v hv w hw
    have hbase : (0xffffffff80000000 : Word).toNat = 0xffffffff80000000 := rfl
    have hoffset : (0xffff800000000000 : Word).toNat = 0xffff800000000000 := rfl
    have hsize : (0x4800 : Word).toNat = 0x4800 := rfl
    rw [mem_region, BitVec.toNat_sub] at hv hw
    simp only [bootResponses, hbase, hoffset, hsize] at hv hw
    have hv' := v.isLt
    have hw' := w.isLt
    omega

def bootKernel : Machine 64 (InitGlobals (FrameGlobals HashTable)) where
  mem _ := 0
  globals :=
    { mutex := 0
      cr3 := 0
      paging :=
        { PML4 := 0
          kernelPML4 := 0
          hhdmOffset := 0
          frames := (bootMachine bootRegion (fun _ => 0)
            HashTable.zero).globals } }

theorem ready_bootKernel {n : ℕ} (h : 4096 * n ≤ bootRegion.length.toNat) :
    (kernelSource addressSizeTable 0 bootRegion (by decide)).Ready n
      ⟨bootKernel.mem, bootKernel.globals.paging.frames⟩ [] :=
  ⟨fun _ => 0, HashTable.zero, 0, Or.inl ⟨rfl, rfl⟩, rfl,
    by rwa [Nat.zero_add], by simp [PagesBelow]⟩

theorem below_bootResponses : ∀ e ∈ bootResponses.memmap, e.base < _4GB := by
  simp only [bootResponses, List.forall_mem_cons]
  decide

theorem exists_run_initTables {k : ℕ}
    (h : 4096 * (bootResponses.frames + k) ≤ bootRegion.length.toNat) :
    ∃ t, (initTables (kernelAllocator addressSizeTable 0) 2048
        bootResponses).run ⟨bootKernel.mem, bootKernel.globals.paging⟩ =
          .ok () t ∧
      BootTables (r := bootResponses)
        (kernelSource addressSizeTable 0 bootRegion (by decide)) k t := by
  obtain ⟨_, t, hrun, ht, -⟩ := (returns_initTables (r := bootResponses)
    (S := kernelSource addressSizeTable 0 bootRegion (by decide))
    (s := ⟨bootKernel.mem, bootKernel.globals.paging⟩)
    bootLayout_bootResponses below_bootResponses le_rfl (by decide)
    (ready_bootKernel h)).exists_run (by omega)
  rw [Nat.add_sub_cancel_left] at ht
  exact ⟨t, hrun, ht⟩

theorem initPaging_translates_bootKernel :
    ∃ s, (initPaging (kernelAllocator addressSizeTable 0) 2048
        bootResponses).run bootKernel = .ok () s ∧
      BootTranslates bootResponses s := by
  obtain ⟨_, s, hrun, hs⟩ := (initPaging_translates (r := bootResponses)
    (kernelSource addressSizeTable 0 bootRegion (by decide))
    bootLayout_bootResponses below_bootResponses le_rfl (by decide) rfl
    (ready_bootKernel (by decide))).exists_run (lt_irrefl _)
  exact ⟨s, hrun, hs⟩

end OptimistOS
