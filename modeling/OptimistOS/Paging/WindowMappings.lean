import OptimistOS.Paging.BootMappings

/-!
# The direct map of a memory map

`initPaging` maps the entries of the memory map from 4 GB on into the direct
map: with 2 MB pages if an entry has 1 GB or more, whatever its base is, and
with 4 KB pages otherwise. Entries that begin below 4 GB are skipped, also the
part of them above. When the large entries are aligned and no 4 KB page falls
into the 2 MB region of a larger page, the direct map is complete if and only
if no entry reaches over 4 GB (`initPaging_directMap_iff`).
-/

namespace OptimistOS

open ByteMemory ByteMemory.Code

namespace MemmapEntry

def stop (e : MemmapEntry) : ℕ := e.base.toNat + e.length.toNat

def Contains (e : MemmapEntry) (p : ℕ) : Prop :=
  e.base.toNat ≤ p ∧ p < e.stop

def Above (e : MemmapEntry) : Prop := 2 ^ 32 ≤ e.base.toNat

instance (e : MemmapEntry) : Decidable e.Above :=
  inferInstanceAs (Decidable (_ ≤ _))

/-- An entry that is mapped with 2 MB pages. -/
def Large (e : MemmapEntry) : Prop := 2 ^ 30 ≤ e.length.toNat

instance (e : MemmapEntry) : Decidable e.Large :=
  inferInstanceAs (Decidable (_ ≤ _))

def bits (e : MemmapEntry) : ℕ := if e.Large then 21 else 12

def Pages (e : MemmapEntry) (j p : ℕ) : Prop :=
  e.base.toNat ≤ p ∧ p < e.base.toNat + j * 2 ^ e.bits

def pages (e : MemmapEntry) : ℕ :=
  if e.Above then (e.length.toNat + (2 ^ e.bits - 1)) / 2 ^ e.bits else 0

end MemmapEntry

namespace BootResponses

/-- The addresses that the direct map is for. -/
def InMemory (r : BootResponses) (p : ℕ) : Prop :=
  p < 2 ^ 32 ∨ ∃ e ∈ r.memmap, e.Contains p

/-- The 2 MB region with the number `q` is mapped with a 2 MB page. -/
def LargeRegion (r : BootResponses) (q : ℕ) : Prop :=
  q < 2048 ∨ ∃ e ∈ r.memmap, e.Above ∧ e.Large ∧
    e.base.toNat / 2 ^ 21 ≤ q ∧ q * 2 ^ 21 < e.stop

/-- The number of frames that `initPaging` needs at most. -/
def windowFrames (r : BootResponses) : ℕ :=
  1 + 6 * 2048 + 3 * (r.memmap.map MemmapEntry.pages).sum + 3 * r.pages

end BootResponses

/-- A memory map with page aligned entries in order, a direct map in the upper
half, and a kernel image in the upper half that does not meet it. -/
structure WindowLayout (r : BootResponses) : Prop where
  entry_aligned : ∀ e ∈ r.memmap,
    e.base.toNat % 4096 = 0 ∧ e.length.toNat % 4096 = 0
  entry_fits : ∀ e ∈ r.memmap, e.stop ≤ 2 ^ 52
  sorted : r.memmap.Pairwise fun e e' => e.stop ≤ e'.base.toNat
  window_aligned : r.hhdmOffset.toNat % 2 ^ 21 = 0
  window_upper : upperHalf.toNat ≤ r.hhdmOffset.toNat
  window_fits : ∀ p, r.InMemory p → p + r.hhdmOffset.toNat < 2 ^ 64
  virtualBase_eq : r.virtualBase = r.KERNEL_BLOB_BEGIN
  virtual_aligned : r.virtualBase.toNat % 4096 = 0
  virtual_upper : upperHalf.toNat ≤ r.virtualBase.toNat
  virtual_fits : r.virtualBase.toNat + 4096 * r.pages < 2 ^ 64
  physical_aligned : r.physicalBase.toNat % 4096 = 0
  physical_fits : r.physicalBase.toNat + 4096 * r.pages ≤ 2 ^ 52
  apart : ∀ v ∈ region r.virtualBase r.KERNEL_BLOB_SIZE.toNat,
    ∀ p, r.InMemory p → v.toNat ≠ p + r.hhdmOffset.toNat

/-- The base of a large entry is a multiple of 2 MB, and no 4 KB page, of an
entry or of the image, lies in the 2 MB region of a larger page. -/
structure PageSizesFit (r : BootResponses) : Prop where
  aligned : ∀ e ∈ r.memmap, e.Above → e.Large → e.base.toNat % 2 ^ 21 = 0
  entry : ∀ e ∈ r.memmap, e.Above → ¬ e.Large → ∀ p, e.Contains p →
    ¬ r.LargeRegion (p / 2 ^ 21)
  image : ∀ v ∈ region r.virtualBase r.KERNEL_BLOB_SIZE.toNat, ∀ q,
    r.LargeRegion q → v.toNat / 2 ^ 21 ≠ q + r.hhdmOffset.toNat / 2 ^ 21

/-- No entry reaches over 4 GB. -/
def NoneStraddles (r : BootResponses) : Prop :=
  ∀ e ∈ r.memmap, ¬ e.Above → e.stop ≤ 2 ^ 32

/-- The direct map leads to the whole memory. -/
def DirectMap {α : Type} (r : BootResponses) (s : Machine 64 (InitGlobals α)) :
    Prop :=
  ∀ p : Word, r.InMemory p.toNat →
    translate s.mem r.hhdmOffset s.globals.paging.PML4 (p + r.hhdmOffset) =
      some p

structure WindowPage (r : BootResponses) (c : PageMapping) : Prop where
  virtualAddr : c.virtualAddr.toNat =
    c.physicalAddr.toNat + r.hhdmOffset.toNat
  size : c.large = true ∧ r.LargeRegion (c.physicalAddr.toNat / 2 ^ 21) ∨
    c.large = false ∧ ∃ e ∈ r.memmap, e.Above ∧ ¬ e.Large ∧
      e.Contains c.physicalAddr.toNat

inductive BootPage (r : BootResponses) (c : PageMapping) : Prop
  | identity (h : IdentityPage c)
  | window (h : WindowPage r c)
  | image (h : ImagePage r r.pages c)

/-- The calls so far, with the addresses that the direct map leads to. -/
structure WindowCalls (r : BootResponses) (calls : List PageMapping)
    (P : ℕ → Prop) : Prop where
  kind : ∀ c ∈ calls, BootPage r c
  covered : ∀ p : Word, P p.toNat → ∃ c ∈ calls, c.Covers (p + r.hhdmOffset)

namespace WindowLayout

variable {r : BootResponses}

theorem bootLayout (h : WindowLayout r) : BootLayout r where
  direct_aligned := h.window_aligned
  direct_upper := h.window_upper
  direct_fits := by
    have hlast := h.window_fits (2 ^ 32 - 1) (Or.inl (by omega))
    omega
  virtualBase_eq := h.virtualBase_eq
  virtual_aligned := h.virtual_aligned
  virtual_upper := h.virtual_upper
  virtual_fits := h.virtual_fits
  physical_aligned := h.physical_aligned
  physical_fits := h.physical_fits
  apart := by
    intro v hv w hw heq
    have haligned := h.window_aligned
    have hlast := h.window_fits (2 ^ 32 - 1) (Or.inl (by omega))
    rw [mem_region, BitVec.toNat_sub] at hw
    have hlt := w.isLt
    refine h.apart v hv (v.toNat - r.hhdmOffset.toNat) (Or.inl ?_) ?_ <;> omega

theorem toNat_window (h : WindowLayout r) {p : Word} (hp : r.InMemory p.toNat) :
    (p + r.hhdmOffset).toNat = p.toNat + r.hhdmOffset.toNat := by
  have hfits := h.window_fits _ hp
  rw [BitVec.toNat_add]
  omega

theorem inMemory_page (h : WindowLayout r) {p : ℕ} (hp : r.InMemory p) :
    r.InMemory (p / 4096 * 4096) := by
  rcases hp with hp | ⟨e, he, hlow, hhigh⟩
  · exact Or.inl (by omega)
  · obtain ⟨hbase, hlength⟩ := h.entry_aligned e he
    rw [MemmapEntry.stop] at hhigh
    exact Or.inr ⟨e, he, by omega, by rw [MemmapEntry.stop]; omega⟩

theorem not_covers_image (h : WindowLayout r) {c : PageMapping}
    (hc : ImagePage r r.pages c) {p : Word} (hp : r.InMemory p.toNat) :
    ¬ c.Covers (p + r.hhdmOffset) := by
  intro hcover
  obtain ⟨i, hi, haddr⟩ := hc.page
  have haligned := h.window_aligned
  have hpage := h.inMemory_page hp
  rw [c.covers_iff, PageMapping.bits, hc.small, samePage_iff_div,
    h.toNat_window hp, haddr, h.bootLayout.toNat_image hi] at hcover
  have hvirtual := h.virtual_aligned
  refine h.apart _ (h.bootLayout.image_mem hi) _ hpage ?_
  rw [h.bootLayout.toNat_image hi]
  simp only [Bool.false_eq_true, if_false] at hcover
  omega

end WindowLayout

section

variable {r : BootResponses} {c d : PageMapping}

theorem WindowPage.upper (hc : WindowPage r c) (h : WindowLayout r) :
    2 ^ 63 ≤ c.virtualAddr.toNat := by
  have hupper := h.window_upper
  have hhalf : upperHalf.toNat = 2 ^ 64 - 2 ^ 47 := by decide
  have haddr := hc.virtualAddr
  omega

theorem ImagePage.upper (hc : ImagePage r r.pages c) (h : WindowLayout r) :
    2 ^ 63 ≤ c.virtualAddr.toNat := by
  have hupper := h.virtual_upper
  have hhalf : upperHalf.toNat = 2 ^ 64 - 2 ^ 47 := by decide
  obtain ⟨i, hi, haddr⟩ := hc.page
  rw [haddr, h.bootLayout.toNat_image hi]
  omega

theorem WindowPage.div_virtualAddr (hc : WindowPage r c) (h : WindowLayout r) :
    c.virtualAddr.toNat / 2 ^ 21 =
      c.physicalAddr.toNat / 2 ^ 21 + r.hhdmOffset.toNat / 2 ^ 21 := by
  have haligned := h.window_aligned
  have haddr := hc.virtualAddr
  omega

/-- A page of the direct map is large if its 2 MB region is one of the large
ones. -/
theorem WindowPage.large_iff (hc : WindowPage r c) (hfit : PageSizesFit r) :
    c.large = true ↔ r.LargeRegion (c.physicalAddr.toNat / 2 ^ 21) := by
  rcases hc.size with ⟨hlarge, hregion⟩ | ⟨hsmall, e, he, habove, hlength, hp⟩
  · exact iff_of_true hlarge hregion
  · exact iff_of_false (by simp [hsmall])
      (hfit.entry e he habove hlength _ hp)

/-- Pages in the same 2 MB region have the same size. -/
theorem BootPage.large_eq (hc : BootPage r c) (hd : BootPage r d)
    (h : WindowLayout r) (hfit : PageSizesFit r)
    (heq : c.virtualAddr.toNat / 2 ^ 21 = d.virtualAddr.toNat / 2 ^ 21) :
    c.large = d.large := by
  have hmixed : ∀ {x y : PageMapping}, WindowPage r x → ImagePage r r.pages y →
      x.virtualAddr.toNat / 2 ^ 21 = y.virtualAddr.toNat / 2 ^ 21 →
      x.large = y.large := by
    intro x y hx hy heq
    obtain ⟨i, hi, haddr⟩ := hy.page
    have hne := hfit.image _ (h.bootLayout.image_mem hi)
      (x.physicalAddr.toNat / 2 ^ 21)
    rw [← haddr, ← heq, hx.div_virtualAddr h, ← hx.large_iff hfit] at hne
    rw [hy.small, Bool.eq_false_iff]
    exact fun hlarge => hne hlarge rfl
  cases hc with
  | identity hc =>
      have hlow := hc.lt
      cases hd with
      | identity hd => rw [hc.large, hd.large]
      | window hd =>
          have hhigh := hd.upper h
          omega
      | image hd =>
          have hhigh := hd.upper h
          omega
  | window hc =>
      have hhigh := hc.upper h
      cases hd with
      | identity hd =>
          have hlow := hd.lt
          omega
      | window hd =>
          rw [hc.div_virtualAddr h, hd.div_virtualAddr h] at heq
          rw [Bool.eq_iff_iff, hc.large_iff hfit, hd.large_iff hfit,
            Nat.add_right_cancel heq]
      | image hd => exact hmixed hc hd heq
  | image hc =>
      have hhigh := hc.upper h
      cases hd with
      | identity hd =>
          have hlow := hd.lt
          omega
      | window hd => exact (hmixed hd hc heq.symm).symm
      | image hd => rw [hc.small, hd.small]

theorem BootPage.window_of_covers (hc : BootPage r c) (h : WindowLayout r)
    {p : Word} (hp : r.InMemory p.toNat) (hcover : c.Covers (p + r.hhdmOffset)) :
    WindowPage r c := by
  cases hc with
  | identity hc =>
      have hlow := hc.lt
      have hupper := h.window_upper
      have hhalf : upperHalf.toNat = 2 ^ 64 - 2 ^ 47 := by decide
      have hdiv := BootCalls.div_eq_of_covers hcover
      rw [h.toNat_window hp] at hdiv
      omega
  | window hc => exact hc
  | image hc => exact absurd hcover (h.not_covers_image hc hp)

end

namespace MemmapEntry

variable {e : MemmapEntry} {j : ℕ}

theorem bits_cases (e : MemmapEntry) :
    e.Large ∧ e.bits = 21 ∨ ¬ e.Large ∧ e.bits = 12 := by
  by_cases h : e.Large
  · exact Or.inl ⟨h, if_pos h⟩
  · exact Or.inr ⟨h, if_neg h⟩

theorem pages_of_above (h : e.Above) :
    e.pages = (e.length.toNat + (2 ^ e.bits - 1)) / 2 ^ e.bits :=
  if_pos h

theorem contains_page (h : e.Above) (hj : j < e.pages) :
    e.Contains (e.base.toNat + j * 2 ^ e.bits) := by
  rw [pages_of_above h] at hj
  refine ⟨Nat.le_add_right _ _, ?_⟩
  rw [stop]
  rcases e.bits_cases with ⟨-, hbits⟩ | ⟨-, hbits⟩ <;> rw [hbits] at hj ⊢ <;>
    omega

end MemmapEntry

namespace WindowLayout

variable {r : BootResponses} {e : MemmapEntry} {j : ℕ}

theorem start_eq (h : WindowLayout r) (he : e ∈ r.memmap) : e.start = e.base :=
  roundDown_4KB_of_mod (h.entry_aligned e he).1

theorem toNat_size (h : WindowLayout r) (he : e ∈ r.memmap) :
    e.size.toNat = e.length.toNat := by
  obtain ⟨hbase, hlength⟩ := h.entry_aligned e he
  have hfits := h.entry_fits e he
  rw [MemmapEntry.stop] at hfits
  have hsum : (e.base + e.length).toNat = e.base.toNat + e.length.toNat := by
    rw [BitVec.toNat_add]
    omega
  have hround := toNat_roundUp_4KB (n := e.base + e.length) (by omega)
  rw [MemmapEntry.size, h.start_eq he, BitVec.toNat_sub, hround, hsum]
  omega

theorem requiredSize_size (h : WindowLayout r) (he : e ∈ r.memmap) :
    requiredSize e.size = (BitVec.ofNat 64 (2 ^ e.bits),
      if e.Large then PageTableFlag.largerPages else 0) := by
  have hsize := h.toNat_size he
  have hlimit : (BitVec.ofNat 64 _1GB).toNat = 2 ^ 30 := by decide
  have hiff : BitVec.ofNat 64 _1GB ≤ e.size ↔ e.Large := by
    rw [BitVec.le_def, hlimit, hsize, MemmapEntry.Large]
  rw [requiredSize, ite_self]
  rcases e.bits_cases with ⟨hlarge, hbits⟩ | ⟨hsmall, hbits⟩
  · rw [if_pos (hiff.2 hlarge), if_pos hlarge, hbits]
    rfl
  · rw [if_neg (mt hiff.1 hsmall), if_neg hsmall, hbits]
    rfl

theorem toNat_page (h : WindowLayout r) (he : e ∈ r.memmap) (habove : e.Above)
    (hj : j ≤ e.pages) :
    (e.base + BitVec.ofNat 64 j * BitVec.ofNat 64 (2 ^ e.bits)).toNat =
      e.base.toNat + j * 2 ^ e.bits := by
  have hfits := h.entry_fits e he
  rw [MemmapEntry.stop] at hfits
  rw [MemmapEntry.pages_of_above habove] at hj
  rw [BitVec.toNat_add, BitVec.toNat_mul, BitVec.toNat_ofNat,
    BitVec.toNat_ofNat]
  rcases e.bits_cases with ⟨-, hbits⟩ | ⟨-, hbits⟩ <;> rw [hbits] at hj ⊢ <;>
    omega

theorem lt_of_inMemory (h : WindowLayout r) {p : ℕ} (hp : r.InMemory p) :
    p < 2 ^ 52 := by
  rcases hp with hp | ⟨e, he, -, hhigh⟩
  · omega
  · exact hhigh.trans_le (h.entry_fits e he)

theorem inMemory_entry (h : WindowLayout r) (he : e ∈ r.memmap)
    (habove : e.Above) (hj : j < e.pages) :
    r.InMemory (e.base + BitVec.ofNat 64 j *
      BitVec.ofNat 64 (2 ^ e.bits)).toNat := by
  rw [h.toNat_page he habove hj.le]
  exact Or.inr ⟨e, he, MemmapEntry.contains_page habove hj⟩

theorem page_aligned (h : WindowLayout r) (hfit : PageSizesFit r)
    (he : e ∈ r.memmap) (habove : e.Above) (hj : j < e.pages) :
    (e.base + BitVec.ofNat 64 j * BitVec.ofNat 64 (2 ^ e.bits)).toNat %
      2 ^ e.bits = 0 := by
  rw [h.toNat_page he habove hj.le, Nat.add_mul_mod_self_right]
  rcases e.bits_cases with ⟨hlarge, hbits⟩ | ⟨-, hbits⟩
  · rw [hbits]
    exact hfit.aligned e he habove hlarge
  · rw [hbits]
    exact (h.entry_aligned e he).1

def entryCall (h : WindowLayout r) (hfit : PageSizesFit r) (he : e ∈ r.memmap)
    (habove : e.Above) (hj : j < e.pages) : PageMapping where
  large := decide e.Large
  physicalAddr := e.base + BitVec.ofNat 64 j * BitVec.ofNat 64 (2 ^ e.bits)
  virtualAddr := e.base + BitVec.ofNat 64 j * BitVec.ofNat 64 (2 ^ e.bits) +
    r.hhdmOffset
  flags := kernelFlags ||| if e.Large then PageTableFlag.largerPages else 0
  canonical := canonical_of_le (by
    rw [h.toNat_window (h.inMemory_entry he habove hj)]
    exact h.window_upper.trans (Nat.le_add_left _ _))
  physical_aligned := by
    have haligned := h.page_aligned hfit he habove hj
    simp only [decide_eq_true_eq]
    exact haligned
  virtual_aligned := by
    have haligned := h.page_aligned hfit he habove hj
    have hwindow := h.window_aligned
    rw [h.toNat_window (h.inMemory_entry he habove hj)]
    simp only [decide_eq_true_eq]
    rcases e.bits_cases with ⟨hlarge, hbits⟩ | ⟨hsmall, hbits⟩
    · rw [if_pos hlarge]
      rw [hbits] at haligned ⊢
      omega
    · rw [if_neg hsmall]
      rw [hbits] at haligned ⊢
      omega
  physical_lt := h.lt_of_inMemory (h.inMemory_entry he habove hj)
  present := by
    split_ifs <;> decide
  flags_mask := by
    split_ifs <;> decide
  largerPages := by
    by_cases hlarge : e.Large
    · rw [if_pos hlarge, decide_eq_true hlarge]
      decide
    · rw [if_neg hlarge, decide_eq_false hlarge]
      decide

theorem windowPage_entryCall (h : WindowLayout r) (hfit : PageSizesFit r)
    (he : e ∈ r.memmap) (habove : e.Above) (hj : j < e.pages) :
    WindowPage r (h.entryCall hfit he habove hj) := by
  have hcontains := MemmapEntry.contains_page habove hj
  have haddr : (h.entryCall hfit he habove hj).physicalAddr.toNat =
      e.base.toNat + j * 2 ^ e.bits := h.toNat_page he habove hj.le
  refine ⟨h.toNat_window (h.inMemory_entry he habove hj), ?_⟩
  rw [haddr]
  rcases e.bits_cases with ⟨hlarge, hbits⟩ | ⟨hsmall, hbits⟩
  · refine Or.inl ⟨decide_eq_true hlarge, Or.inr ⟨e, he, habove, hlarge, ?_⟩⟩
    have haligned := hfit.aligned e he habove hlarge
    rw [MemmapEntry.Contains, hbits] at hcontains
    rw [hbits]
    omega
  · exact Or.inr ⟨decide_eq_false hsmall, e, he, habove, hsmall, hcontains⟩

end WindowLayout

section

variable {α : Type} {A : FrameAllocator α} {r : BootResponses}
  {S : FrameSource A r.hhdmOffset} {root : Word} {n fuel : ℕ}
  {s : Machine 64 (PagingGlobals α)} {P Q : ℕ → Prop} {e : MemmapEntry}

/-- The state after the calls of `WindowCalls`. -/
def WindowMapped (S : FrameSource A r.hhdmOffset) (root : Word) (n : ℕ)
    (s : Machine 64 (PagingGlobals α)) (P : ℕ → Prop) : Prop :=
  ∃ calls, MapsCalls S root n s calls ∧ WindowCalls r calls P

theorem WindowMapped.mono (hs : WindowMapped S root n s P)
    (hQ : ∀ p, Q p → P p) : WindowMapped S root n s Q := by
  obtain ⟨calls, hmaps, hcalls⟩ := hs
  exact ⟨calls, hmaps, hcalls.kind, fun p hp => hcalls.covered p (hQ _ hp)⟩

theorem returns_bootPage {c : PageMapping} (h : WindowLayout r)
    (hfit : PageSizesFit r) (hc : BootPage r c)
    (hs : WindowMapped S root n s P) (hQ : ∀ p : Word, Q p.toNat →
      P p.toNat ∨ c.Covers (p + r.hhdmOffset)) :
    (map A c.physicalAddr c.virtualAddr c.flags).Returns s (n < 3)
      fun b t => b = true ∧ WindowMapped S root (n - 3) t Q := by
  obtain ⟨calls, hmaps, hkind, hcovered⟩ := hs
  refine (returns_map hmaps fun d hd heq =>
    hc.large_eq (hkind d hd) h hfit heq).mono id ?_
  rintro b t ⟨hb, -, hmaps'⟩
  refine ⟨hb, _, hmaps', fun d hd => ?_, fun p hp => ?_⟩
  · rcases List.mem_append.1 hd with hd | hd
    · exact hkind d hd
    · exact List.mem_singleton.1 hd ▸ hc
  · rcases hQ p hp with hp | hcover
    · obtain ⟨d, hd, hcover⟩ := hcovered p hp
      exact ⟨d, List.mem_append_left _ hd, hcover⟩
    · exact ⟨c, by simp, hcover⟩

theorem returns_entryPage {j : ℕ} (h : WindowLayout r) (hfit : PageSizesFit r)
    (he : e ∈ r.memmap) (habove : e.Above) (hj : j < e.pages)
    (hs : WindowMapped S root n s fun p => P p ∨ e.Pages j p) :
    (map A (e.base + BitVec.ofNat 64 j * BitVec.ofNat 64 (2 ^ e.bits))
        (e.base + BitVec.ofNat 64 j * BitVec.ofNat 64 (2 ^ e.bits) +
          r.hhdmOffset)
        (kernelFlags ||| if e.Large then PageTableFlag.largerPages
          else 0)).Returns s (n < 3) fun b t => b = true ∧
      WindowMapped S root (n - 3) t fun p => P p ∨ e.Pages (j + 1) p := by
  have hbits : (h.entryCall hfit he habove hj).bits = e.bits := by
    rw [PageMapping.bits, MemmapEntry.bits]
    exact if_congr decide_eq_true_iff rfl rfl
  refine returns_bootPage (c := h.entryCall hfit he habove hj) h hfit
    (.window (h.windowPage_entryCall hfit he habove hj)) hs ?_
  rintro p (hp | ⟨hlow, hhigh⟩)
  · exact Or.inl (Or.inl hp)
  · rcases Nat.lt_or_ge p.toNat (e.base.toNat + j * 2 ^ e.bits) with hlt | hle
    · exact Or.inl (Or.inr ⟨hlow, hlt⟩)
    · have haddr := h.toNat_page he habove hj.le
      have hlt := p.isLt
      right
      rw [PageMapping.Covers, hbits]
      change p + r.hhdmOffset ∈ region (e.base + BitVec.ofNat 64 j *
        BitVec.ofNat 64 (2 ^ e.bits) + r.hhdmOffset) (2 ^ e.bits)
      rw [mem_region, add_sub_add_right_eq_sub, BitVec.toNat_sub, haddr]
      rw [Nat.add_mul, Nat.one_mul] at hhigh
      omega

theorem WindowLayout.toNat_whole (h : WindowLayout r) (he : e ∈ r.memmap) :
    (roundDown e.size (BitVec.ofNat 64 (2 ^ e.bits))).toNat =
      e.length.toNat / 2 ^ e.bits * 2 ^ e.bits := by
  rw [← h.toNat_size he]
  rcases e.bits_cases with ⟨-, hbits⟩ | ⟨-, hbits⟩
  · rw [hbits]
    exact toNat_and_not_mask e.size 21
  · rw [hbits]
    exact toNat_and_not_mask e.size 12

theorem WindowLayout.whole_le (h : WindowLayout r) (he : e ∈ r.memmap)
    (habove : e.Above) :
    e.length.toNat / 2 ^ e.bits ≤ e.pages ∧
      e.pages ≤ e.length.toNat / 2 ^ e.bits + 1 ∧
      e.base + roundDown e.size (BitVec.ofNat 64 (2 ^ e.bits)) =
        e.base + BitVec.ofNat 64 (e.length.toNat / 2 ^ e.bits) *
          BitVec.ofNat 64 (2 ^ e.bits) := by
  have hpages := MemmapEntry.pages_of_above habove
  have hle : e.length.toNat / 2 ^ e.bits ≤ e.pages := by
    rw [hpages]
    exact Nat.div_le_div_right (Nat.le_add_right _ _)
  have hnat := h.toNat_page he habove hle
  have hwhole := h.toNat_whole he
  have hfits := h.entry_fits e he
  rw [MemmapEntry.stop] at hfits
  refine ⟨hle, ?_, BitVec.eq_of_toNat_eq ?_⟩
  · rw [hpages]
    rcases e.bits_cases with ⟨-, hbits⟩ | ⟨-, hbits⟩ <;> rw [hbits] <;> omega
  · rw [hnat, BitVec.toNat_add, hwhole]
    rcases e.bits_cases with ⟨-, hbits⟩ | ⟨-, hbits⟩ <;> rw [hbits] <;> omega

/-- The loop over the whole pages of an entry. -/
theorem returns_mapWhole (h : WindowLayout r) (hfit : PageSizesFit r)
    (he : e ∈ r.memmap) (habove : e.Above) (hfuel : e.pages ≤ fuel)
    (hs : WindowMapped S root n s P) :
    (mapWhole A fuel r.hhdmOffset e.base
        (roundDown e.size (BitVec.ofNat 64 (2 ^ e.bits)))
        (BitVec.ofNat 64 (2 ^ e.bits))
        (if e.Large then PageTableFlag.largerPages else 0)).Returns s
      (n < 3 * e.pages) fun _ t =>
        WindowMapped S root (n - 3 * (e.length.toNat / 2 ^ e.bits)) t fun p =>
          P p ∨ e.Pages (e.length.toNat / 2 ^ e.bits) p := by
  obtain ⟨hle, -, hbound⟩ := h.whole_le he habove
  have hend := h.toNat_page he habove hle
  rw [mapWhole, hbound]
  refine returns_forLoop (fun j t => WindowMapped S root (n - 3 * j) t fun p =>
    P p ∨ e.Pages j p) (fun j hj => ?_) (BitVec.lt_irrefl _)
    (fun j hj t ht => ?_) (hle.trans hfuel) ?_
  · rw [BitVec.lt_def, hend, h.toNat_page he habove (hj.le.trans hle)]
    have hmul := Nat.mul_lt_mul_of_pos_right hj (Nat.two_pow_pos e.bits)
    omega
  · have hnat := h.toNat_page he habove (hj.le.trans hle)
    have hsize : _4GB.toNat = 2 ^ 32 := by decide
    have hskip : ¬ e.base + BitVec.ofNat 64 j * BitVec.ofNat 64 (2 ^ e.bits) <
        _4GB := by
      rw [BitVec.lt_def, hnat, hsize]
      have habove' : 2 ^ 32 ≤ e.base.toNat := habove
      omega
    simp only [if_neg hskip]
    refine Returns.bind ((returns_entryPage h hfit he habove
      (hj.trans_le hle) ht).mono (by omega) fun _ _ => id) ?_
    rintro b t₁ ⟨-, ht₁⟩
    have hcount : n - 3 * j - 3 = n - 3 * (j + 1) := by omega
    rw [hcount] at ht₁
    exact .of_ok rfl ht₁
  · refine hs.mono fun p hp => ?_
    rcases hp with hp | ⟨hlow, hhigh⟩
    · exact hp
    · omega

/-- The loop over the rest of an entry. -/
theorem returns_mapRest (h : WindowLayout r) (hfit : PageSizesFit r)
    (he : e ∈ r.memmap) (habove : e.Above) (hfuel : e.pages ≤ fuel)
    (hs : WindowMapped S root (n - 3 * (e.length.toNat / 2 ^ e.bits)) s fun p =>
      P p ∨ e.Pages (e.length.toNat / 2 ^ e.bits) p) :
    (mapRest A fuel r.hhdmOffset
        (e.base + roundDown e.size (BitVec.ofNat 64 (2 ^ e.bits)))
        (e.size - roundDown e.size (BitVec.ofNat 64 (2 ^ e.bits)))
        (BitVec.ofNat 64 (2 ^ e.bits))
        (if e.Large then PageTableFlag.largerPages else 0)).Returns s
      (n < 3 * e.pages) fun _ t =>
        WindowMapped S root (n - 3 * e.pages) t fun p =>
          P p ∨ e.Pages e.pages p := by
  obtain ⟨hle, -, hbound⟩ := h.whole_le he habove
  set k := e.length.toNat / 2 ^ e.bits with hk
  have hpage : ∀ j, e.base + BitVec.ofNat 64 k * BitVec.ofNat 64 (2 ^ e.bits) +
      BitVec.ofNat 64 j * BitVec.ofNat 64 (2 ^ e.bits) =
        e.base + BitVec.ofNat 64 (k + j) * BitVec.ofNat 64 (2 ^ e.bits) := by
    intro j
    rw [BitVec.ofNat_add, BitVec.add_mul, BitVec.add_assoc]
  have hlast : k + (e.pages - k) = e.pages := by omega
  have hend : (e.base + BitVec.ofNat 64 k * BitVec.ofNat 64 (2 ^ e.bits) +
      (e.size - roundDown e.size (BitVec.ofNat 64 (2 ^ e.bits)))).toNat =
        e.stop := by
    have hfits := h.entry_fits e he
    have hwhole := h.toNat_whole he
    have hnat := h.toNat_page he habove hle
    have hsize := h.toNat_size he
    have hmul := Nat.div_mul_le_self e.length.toNat (2 ^ e.bits)
    rw [← hk] at hwhole hmul
    rw [MemmapEntry.stop] at hfits ⊢
    rw [BitVec.toNat_add, BitVec.toNat_sub, hwhole, hsize, hnat]
    omega
  rw [mapRest, hbound]
  refine Returns.mono (returns_forLoop
    (fun j t => WindowMapped S root (n - 3 * (k + j)) t fun p =>
      P p ∨ e.Pages (k + j) p) (k := e.pages - k)
    (fun j hj => ?_) ?_ (fun j hj t ht => ?_)
    ((Nat.sub_le _ _).trans hfuel) hs) id fun _ t ht => ?_
  rotate_left 3
  · rwa [hlast] at ht
  · rw [hpage, BitVec.lt_def, h.toNat_page he habove (by omega), hend]
    exact (MemmapEntry.contains_page habove (by omega)).2
  · rw [hpage, hlast, BitVec.lt_def, h.toNat_page he habove le_rfl, hend,
      MemmapEntry.stop, MemmapEntry.pages_of_above habove]
    rcases e.bits_cases with ⟨-, hbits⟩ | ⟨-, hbits⟩ <;> rw [hbits] <;> omega
  · rw [hpage]
    refine Returns.bind ((returns_entryPage h hfit he habove (by omega)
      ht).mono (by omega) fun _ _ => id) ?_
    rintro b t₁ ⟨rfl, ht₁⟩
    have hcount : n - 3 * (k + j) - 3 = n - 3 * (k + (j + 1)) := by omega
    rw [hcount] at ht₁
    exact .of_ok rfl ht₁

theorem returns_mapEntry (h : WindowLayout r) (hfit : PageSizesFit r)
    (he : e ∈ r.memmap) (hfuel : e.pages ≤ fuel)
    (hs : WindowMapped S root n s P) :
    (mapEntry A fuel r.hhdmOffset e).Returns s (n < 3 * e.pages) fun _ t =>
      WindowMapped S root (n - 3 * e.pages) t fun p =>
        P p ∨ e.Above ∧ e.Contains p := by
  have hiff : e.start < _4GB ↔ ¬ e.Above := by
    have hsize : _4GB.toNat = 2 ^ 32 := by decide
    rw [h.start_eq he, BitVec.lt_def, hsize, MemmapEntry.Above, not_le]
  by_cases habove : e.Above
  · rw [mapEntry_of_le A (fun hlt => hiff.1 hlt habove), h.start_eq he,
      h.requiredSize_size he]
    refine Returns.bind (returns_mapWhole h hfit he habove hfuel hs) ?_
    intro _ t ht
    refine (returns_mapRest h hfit he habove hfuel ht).mono id fun _ u hu =>
      hu.mono fun p hp => ?_
    rcases hp with hp | ⟨-, hlow, hhigh⟩
    · exact Or.inl hp
    · refine Or.inr ⟨hlow, hhigh.trans_le ?_⟩
      rw [MemmapEntry.stop, MemmapEntry.pages_of_above habove]
      rcases e.bits_cases with ⟨-, hbits⟩ | ⟨-, hbits⟩ <;> rw [hbits] <;> omega
  · rw [mapEntry_of_lt A (hiff.2 habove)]
    have hpages : e.pages = 0 := if_neg habove
    rw [hpages]
    exact .of_ok rfl (hs.mono fun p hp => hp.resolve_right fun hp =>
      habove hp.1)

theorem returns_mapMemmap (h : WindowLayout r) (hfit : PageSizesFit r)
    {entries : List MemmapEntry} (hsub : ∀ e ∈ entries, e ∈ r.memmap)
    (hfuel : ∀ e ∈ entries, e.pages ≤ fuel)
    (hs : WindowMapped S root n s P) :
    (mapMemmap A fuel r.hhdmOffset entries).Returns s
      (n < 3 * (entries.map MemmapEntry.pages).sum) fun _ t =>
        WindowMapped S root (n - 3 * (entries.map MemmapEntry.pages).sum) t
          fun p => P p ∨ ∃ e ∈ entries, e.Above ∧ e.Contains p := by
  induction entries generalizing n s P with
  | nil => exact .of_ok rfl (hs.mono fun p hp => hp.resolve_right (by simp))
  | cons e entries ih =>
      rw [List.map_cons, List.sum_cons]
      obtain ⟨he, hsub⟩ := List.forall_mem_cons.1 hsub
      obtain ⟨hpages, hfuel⟩ := List.forall_mem_cons.1 hfuel
      refine Returns.bind ((returns_mapEntry h hfit he hpages hs).mono
        (by omega) fun _ _ => id) fun _ t ht => ?_
      refine (ih hsub hfuel ht).mono (by omega) fun _ u hu => ?_
      have hcount : n - 3 * e.pages - 3 * (entries.map MemmapEntry.pages).sum =
          n - 3 * (e.pages + (entries.map MemmapEntry.pages).sum) := by omega
      rw [hcount] at hu
      refine hu.mono fun p hp => ?_
      rcases hp with hp | ⟨d, hd, hp⟩
      · exact Or.inl (Or.inl hp)
      · rcases List.mem_cons.1 hd with rfl | hd
        · exact Or.inl (Or.inr hp)
        · exact Or.inr ⟨d, hd, hp⟩

theorem BootMapped.windowMapped {s₀ : Machine 64 (PagingGlobals α)}
    (h : WindowLayout r) (hs : BootMapped S root n s₀ s 2048 0) :
    WindowMapped S root n s fun p => p < 2 ^ 32 := by
  obtain ⟨calls, hmaps, hb, -⟩ := hs
  refine ⟨calls, hmaps, fun c hc => ?_, fun p hp => ?_⟩
  · rcases hb.kind c hc with hc | hc | hc
    · exact .identity hc
    · have hlt := hc.lt
      refine .window ⟨?_, Or.inl ⟨hc.large, Or.inl (by omega)⟩⟩
      rw [hc.virtualAddr]
      exact h.toNat_window (Or.inl hlt)
    · obtain ⟨i, hi, -⟩ := hc.page
      omega
  · have haligned := h.window_aligned
    obtain ⟨c, hc, hpage, haddr⟩ := hb.direct (p.toNat / 2 ^ 21) (by omega)
    refine ⟨c, hc, BootCalls.covers_large_of_div hpage.large ?_⟩
    rw [hpage.virtualAddr, h.toNat_window (Or.inl hpage.lt),
      h.toNat_window (Or.inl hp), haddr, toNat_mul_2MB (by omega)]
    omega

theorem returns_imagePages_window (h : WindowLayout r) (hfit : PageSizesFit r)
    (hfuel : r.pages ≤ fuel) (hs : WindowMapped S root n s P) :
    (mapKernel A fuel r).Returns s (n < 3 * r.pages) fun _ t =>
      WindowMapped S root (n - 3 * r.pages) t P := by
  refine returns_imagePages (I := fun k t =>
    WindowMapped S root (n - 3 * k) t P) h.bootLayout hfuel
    (fun k hk t ht => ?_) hs
  have hkind : BootPage r (h.bootLayout.imageCall k hk) :=
    .image ⟨rfl, ⟨k, hk, rfl⟩, rfl⟩
  refine (returns_bootPage h hfit hkind ht fun p hp => Or.inl hp).mono
    (by omega) ?_
  rintro b t₁ ⟨-, ht₁⟩
  rwa [show n - 3 * k - 3 = n - 3 * (k + 1) by omega] at ht₁

/-- The addresses that the direct map is set up for. -/
def BootResponses.Served (r : BootResponses) (p : ℕ) : Prop :=
  p < 2 ^ 32 ∨ ∃ e ∈ r.memmap, e.Above ∧ e.Contains p

theorem returns_initTables_window (h : WindowLayout r) (hfit : PageSizesFit r)
    (hfuel : 2048 ≤ fuel) (hpages : r.pages ≤ fuel)
    (hentries : ∀ e ∈ r.memmap, e.pages ≤ fuel) {frames : List Word}
    (hready : S.Ready n ⟨s.mem, s.globals.frames⟩ frames) :
    (initTables A fuel r).Returns s (n < r.windowFrames) fun _ t =>
      WindowMapped S t.globals.PML4 (n - r.windowFrames) t r.Served := by
  rw [initTables]
  refine Returns.bind ((returns_init hready).mono
    (by rw [BootResponses.windowFrames]; omega) fun _ _ => id) ?_
  rintro _ t₁ ⟨hmaps₁, -⟩
  have hmaps₂ := hmaps₁.setOffset r.hhdmOffset
  refine Returns.bind_of_ok (t := ⟨t₁.mem, _⟩) rfl ?_
  refine Returns.bind ((returns_mapFirst4GB h.bootLayout hfuel hmaps₂).mono
    (by rw [BootResponses.windowFrames]; omega) fun _ _ => id) ?_
  intro _ t₃ ht₃
  refine Returns.bind ((returns_mapMemmap h hfit (fun _ => id) hentries
    (ht₃.windowMapped h)).mono (by rw [BootResponses.windowFrames]; omega)
    fun _ _ => id) ?_
  intro _ t₄ ht₄
  refine (returns_imagePages_window h hfit hpages ht₄).mono
    (by rw [BootResponses.windowFrames]; omega) ?_
  rintro _ t₅ ⟨calls, hmaps, hcalls⟩
  have hcount : n - 1 - 6 * 2048 - 3 * (r.memmap.map MemmapEntry.pages).sum -
      3 * r.pages = n - r.windowFrames := by
    rw [BootResponses.windowFrames]
    omega
  rw [hcount] at hmaps
  exact ⟨calls, hmaps.PML4.symm ▸ hmaps, hcalls⟩

end

/-- Below 4 GB, and in entries that do not reach over 4 GB, the addresses are
served. -/
theorem NoneStraddles.served {r : BootResponses} (h : NoneStraddles r) {p : ℕ}
    (hp : r.InMemory p) : r.Served p := by
  rcases hp with hp | ⟨e, he, hlow, hhigh⟩
  · exact Or.inl hp
  · by_cases habove : e.Above
    · exact Or.inr ⟨e, he, habove, hlow, hhigh⟩
    · exact Or.inl (hhigh.trans_le (h e he habove))

section

variable {r : BootResponses} {calls : List PageMapping} {P : ℕ → Prop}

theorem WindowCalls.mappedTo_window (hcalls : WindowCalls r calls P)
    (h : WindowLayout r) {p : Word} (hp : r.InMemory p.toNat)
    (hserved : P p.toNat) : mappedTo calls (p + r.hhdmOffset) = some p := by
  rw [mappedTo_of_delta (-r.hhdmOffset) (hcalls.covered p hserved)
    fun c hc hcover => ?_]
  · rw [← BitVec.sub_eq_add_neg, BitVec.add_sub_cancel]
  · have hpage := (hcalls.kind c hc).window_of_covers h hp hcover
    have haddr : c.virtualAddr = c.physicalAddr + r.hhdmOffset := by
      refine BitVec.eq_of_toNat_eq (hpage.virtualAddr.trans ?_)
      have hlt := c.virtualAddr.isLt
      have hnat := hpage.virtualAddr
      rw [BitVec.toNat_add]
      omega
    rw [haddr]
    ring

theorem WindowLayout.eq_of_contains (h : WindowLayout r) {e e' : MemmapEntry}
    (he : e ∈ r.memmap) (he' : e' ∈ r.memmap) {p : ℕ} (hp : e.Contains p)
    (hp' : e'.Contains p) : e = e' := by
  have hsame : ∀ x ∈ r.memmap, ∀ y ∈ r.memmap,
      x.Contains p → y.Contains p → x = y := by
    refine List.Pairwise.forall_of_forall_of_flip (fun _ _ _ _ => rfl)
      (h.sorted.imp ?_) (h.sorted.imp ?_)
    all_goals
      rintro x y hle ⟨hlow, hhigh⟩ ⟨hlow', hhigh'⟩
      omega
  exact hsame e he e' he' hp hp'

/-- No page covers the address at 4 GB if an entry reaches over it. -/
theorem WindowCalls.not_covers (hcalls : WindowCalls r calls P)
    (h : WindowLayout r) (hfit : PageSizesFit r) {e : MemmapEntry}
    (he : e ∈ r.memmap) (hbelow : ¬ e.Above) (hover : 2 ^ 32 < e.stop)
    {c : PageMapping} (hc : c ∈ calls) :
    ¬ c.Covers (_4GB + r.hhdmOffset) := by
  intro hcover
  have hsize : _4GB.toNat = 2 ^ 32 := by decide
  have hlow : ¬ 2 ^ 32 ≤ e.base.toNat := hbelow
  have hcontains : e.Contains _4GB.toNat := by
    rw [hsize]
    exact ⟨by omega, hover⟩
  have hmem : r.InMemory _4GB.toNat := Or.inr ⟨e, he, hcontains⟩
  have hpage := (hcalls.kind c hc).window_of_covers h hmem hcover
  have haligned := h.window_aligned
  have haddr := hpage.virtualAddr
  have hnot : ∀ e' ∈ r.memmap, e'.Above → ¬ e'.Contains _4GB.toNat :=
    fun e' he' habove hcontains' =>
      hbelow (h.eq_of_contains he he' hcontains hcontains' ▸ habove)
  rw [c.covers_iff, PageMapping.bits, samePage_iff_div, h.toNat_window hmem,
    haddr, hsize] at hcover
  rcases hpage.size with ⟨hlarge, hregion⟩ | ⟨hsmall, e', he', habove, -, hin⟩
  · rw [if_pos hlarge] at hcover
    rcases hregion with hlt | ⟨e', he', habove, hbig, hbase, hstop⟩
    · omega
    · refine hnot e' he' habove ?_
      have halign := hfit.aligned e' he' habove hbig
      have habove' : 2 ^ 32 ≤ e'.base.toNat := habove
      rw [hsize]
      exact ⟨by omega, by omega⟩
  · rw [hsmall] at hcover
    refine hnot e' he' habove ?_
    have hphysical := c.physical_aligned
    rw [hsmall] at hphysical
    simp only [Bool.false_eq_true, if_false] at hcover hphysical
    rw [show _4GB.toNat = c.physicalAddr.toNat by omega]
    exact hin

end

section

variable {α : Type} {A : FrameAllocator α} {r : BootResponses} {n fuel : ℕ}

/-- When the page sizes fit, the direct map is complete if and only if no entry
reaches over 4 GB. -/
theorem WindowMapped.directMap_iff {S : FrameSource A r.hhdmOffset}
    {s : Machine 64 (InitGlobals α)} (h : WindowLayout r)
    (hfit : PageSizesFit r) (hs : WindowMapped S s.globals.paging.PML4 n
      ⟨s.mem, s.globals.paging⟩ r.Served) :
    DirectMap r s ↔ NoneStraddles r := by
  obtain ⟨calls, hmaps, hcalls⟩ := hs
  have htranslate := translate_of_viewsCalls hmaps.views
  constructor
  · intro hdirect e he hbelow
    by_contra hover
    have hsize : _4GB.toNat = 2 ^ 32 := by decide
    have hlow : ¬ 2 ^ 32 ≤ e.base.toNat := hbelow
    have hmem : r.InMemory _4GB.toNat := by
      rw [hsize]
      exact Or.inr ⟨e, he, by omega, by omega⟩
    have hmapped := (htranslate _).symm.trans (hdirect _ hmem)
    rw [mappedTo, Option.map_eq_some_iff] at hmapped
    obtain ⟨c, hlast, -⟩ := hmapped
    obtain ⟨hc, hcover⟩ := mem_of_lastCovering hlast
    exact hcalls.not_covers h hfit he hbelow (by omega) hc hcover
  · intro hnone p hp
    exact (htranslate _).trans (hcalls.mappedTo_window h hp (hnone.served hp))

theorem returns_initPaging_window (S : FrameSource A r.hhdmOffset)
    (h : WindowLayout r) (hfit : PageSizesFit r) (hfuel : 2048 ≤ fuel)
    (hpages : r.pages ≤ fuel) (hentries : ∀ e ∈ r.memmap, e.pages ≤ fuel)
    {s : Machine 64 (InitGlobals α)} {frames : List Word}
    (hmutex : s.globals.mutex = 0)
    (hready : S.Ready n ⟨s.mem, s.globals.paging.frames⟩ frames) :
    (initPaging A fuel r).Returns s (n < r.windowFrames) fun _ t =>
      WindowMapped S t.globals.paging.PML4 (n - r.windowFrames)
        ⟨t.mem, t.globals.paging⟩ r.Served := by
  have htables := returns_initTables_window (s := ⟨s.mem, s.globals.paging⟩) h
    hfit hfuel hpages hentries hready
  refine (returns_initPaging_of (Q := fun t => WindowMapped S t.globals.PML4
    (n - r.windowFrames) t r.Served) hmutex (htables.mono id fun _ t ht =>
      ⟨ht, ?_⟩)).mono id fun _ t ht => ht.1
  obtain ⟨calls, hmaps, -⟩ := ht
  exact hmaps.root_ne_zero

/-- `initPaging` returns, unless the allocator runs out of frames. When the page
sizes fit, the direct map is then complete if and only if no entry of the memory
map reaches over 4 GB. -/
theorem initPaging_directMap_iff (S : FrameSource A r.hhdmOffset)
    (h : WindowLayout r) (hfit : PageSizesFit r) (hfuel : 2048 ≤ fuel)
    (hpages : r.pages ≤ fuel) (hentries : ∀ e ∈ r.memmap, e.pages ≤ fuel)
    {s : Machine 64 (InitGlobals α)} {frames : List Word}
    (hmutex : s.globals.mutex = 0)
    (hready : S.Ready n ⟨s.mem, s.globals.paging.frames⟩ frames) :
    (initPaging A fuel r).Returns s (n < r.windowFrames) fun _ t =>
      DirectMap r t ↔ NoneStraddles r :=
  (returns_initPaging_window S h hfit hfuel hpages hentries hmutex hready).mono
    id fun _ _ ht => ht.directMap_iff h hfit

end

def responsesWith (memmap : List MemmapEntry) : BootResponses :=
  { bootResponses with memmap := memmap }

theorem windowLayout_responsesWith {memmap : List MemmapEntry}
    (haligned : ∀ e ∈ memmap,
      e.base.toNat % 4096 = 0 ∧ e.length.toNat % 4096 = 0)
    (hstop : ∀ e ∈ memmap, e.stop ≤ 2 ^ 33)
    (hsorted : memmap.Pairwise fun e e' => e.stop ≤ e'.base.toNat) :
    WindowLayout (responsesWith memmap) := by
  have hoffset : (responsesWith memmap).hhdmOffset.toNat = 2 ^ 64 - 2 ^ 47 :=
    rfl
  have hbase : (responsesWith memmap).virtualBase.toNat = 2 ^ 64 - 2 ^ 31 := rfl
  have hsize : (responsesWith memmap).KERNEL_BLOB_SIZE.toNat = 0x4800 := rfl
  have hmem : ∀ p, (responsesWith memmap).InMemory p → p < 2 ^ 33 := by
    rintro p (hp | ⟨e, he, -, hhigh⟩)
    · omega
    · exact hhigh.trans_le (hstop e he)
  have hboot := bootLayout_bootResponses
  refine ⟨haligned, fun e he => (hstop e he).trans (by decide), hsorted,
    hboot.direct_aligned, hboot.direct_upper, fun p hp => ?_, rfl,
    hboot.virtual_aligned, hboot.virtual_upper, hboot.virtual_fits,
    hboot.physical_aligned, hboot.physical_fits, fun v hv p hp => ?_⟩
  · have hlt := hmem p hp
    omega
  · have hlt := hmem p hp
    rw [mem_region, BitVec.toNat_sub, hbase, hsize] at hv
    have hlt' := v.isLt
    omega

theorem image_ne_region {memmap : List MemmapEntry} {v : Addr} {q : ℕ}
    (hv : v ∈ region (responsesWith memmap).virtualBase
      (responsesWith memmap).KERNEL_BLOB_SIZE.toNat) (hq : q < 4096) :
    v.toNat / 2 ^ 21 ≠ q + (responsesWith memmap).hhdmOffset.toNat / 2 ^ 21 := by
  have hoffset : (responsesWith memmap).hhdmOffset.toNat = 2 ^ 64 - 2 ^ 47 :=
    rfl
  have hbase : (responsesWith memmap).virtualBase.toNat = 2 ^ 64 - 2 ^ 31 := rfl
  have hsize : (responsesWith memmap).KERNEL_BLOB_SIZE.toNat = 0x4800 := rfl
  rw [mem_region, BitVec.toNat_sub, hbase, hsize] at hv
  have hlt := v.isLt
  omega

theorem ready_responsesWith {memmap : List MemmapEntry}
    (h : (memmap.map MemmapEntry.pages).sum ≤ 1024) :
    (kernelSource addressSizeTable 0 bootRegion (by decide)).Ready
      (responsesWith memmap).windowFrames
      ⟨bootKernel.mem, bootKernel.globals.paging.frames⟩ [] := by
  refine ready_bootKernel ?_
  have hpages : (responsesWith memmap).pages = 5 :=
    (by decide : bootResponses.pages = 5)
  have hlength : bootRegion.length.toNat = 0x4000000 := rfl
  change 4096 * (1 + 6 * 2048 + 3 * (memmap.map MemmapEntry.pages).sum +
    3 * (responsesWith memmap).pages) ≤ bootRegion.length.toNat
  omega

/-- Usable memory below 4 GB, and more than 1 GB from 4 GB on. -/
def largeMemmap : List MemmapEntry :=
  [⟨0x100000, 0x4000000⟩, ⟨0x100000000, 0x40001000⟩, ⟨0x140400000, 0x3000⟩]

/-- An entry that reaches over 4 GB. -/
def straddlingMemmap : List MemmapEntry :=
  [⟨0x100000, 0x4000000⟩, ⟨0xfffff000, 0x2000⟩]

theorem pageSizesFit_largeMemmap : PageSizesFit (responsesWith largeMemmap) := by
  have hregion : ∀ q, (responsesWith largeMemmap).LargeRegion q → q < 2561 := by
    rintro q (hq | ⟨e, he, habove, hlarge, -, hstop⟩)
    · omega
    · have hcases : ∀ e ∈ largeMemmap, e.Above → e.Large →
          e.stop ≤ 2561 * 2 ^ 21 := by decide
      have hle := hcases e he habove hlarge
      omega
  refine ⟨by decide, fun e he habove hsmall p hp hq => ?_,
    fun v hv q hq heq => ?_⟩
  · have hcases : ∀ e ∈ largeMemmap, e.Above → ¬ e.Large →
        2561 * 2 ^ 21 ≤ e.base.toNat := by decide
    have hle := hcases e he habove hsmall
    have hlow := hp.1
    have hlt := hregion _ hq
    omega
  · have hlt := hregion q hq
    exact image_ne_region hv (by omega) heq

/-- More than 1 GB from 4 GB on. -/
theorem initPaging_directMap_iff_largeMemmap :
    ∃ s, (initPaging (kernelAllocator addressSizeTable 0) 2048
        (responsesWith largeMemmap)).run bootKernel = .ok () s ∧
      DirectMap (responsesWith largeMemmap) s := by
  have hlayout : WindowLayout (responsesWith largeMemmap) :=
    windowLayout_responsesWith (by decide) (by decide) (by decide)
  obtain ⟨_, s, hrun, hs⟩ := (initPaging_directMap_iff
    (kernelSource addressSizeTable 0 bootRegion (by decide)) hlayout
    pageSizesFit_largeMemmap le_rfl (by decide : _ ≤ 2048) (by decide) rfl
    (ready_responsesWith (by decide))).exists_run (lt_irrefl _)
  exact ⟨s, hrun, hs.2 (by decide : ∀ e ∈ largeMemmap, ¬ e.Above →
    e.stop ≤ 2 ^ 32)⟩

/-- The part above 4 GB of an entry that reaches over it is not mapped. -/
theorem exists_not_directMap :
    WindowLayout (responsesWith straddlingMemmap) ∧
      ∃ s, (initPaging (kernelAllocator addressSizeTable 0) 2048
          (responsesWith straddlingMemmap)).run bootKernel = .ok () s ∧
        ¬ DirectMap (responsesWith straddlingMemmap) s := by
  have hlayout : WindowLayout (responsesWith straddlingMemmap) :=
    windowLayout_responsesWith (by decide) (by decide) (by decide)
  have hnone : ∀ e ∈ straddlingMemmap, ¬ e.Above := by decide
  have hfit : PageSizesFit (responsesWith straddlingMemmap) := by
    refine ⟨fun e he habove => absurd habove (hnone e he),
      fun e he habove => absurd habove (hnone e he), fun v hv q hq heq => ?_⟩
    have hlt : q < 2048 := hq.resolve_right fun ⟨e, he, habove, _⟩ =>
      hnone e he habove
    exact image_ne_region hv (by omega) heq
  obtain ⟨_, s, hrun, hs⟩ := (returns_initPaging_window
    (kernelSource addressSizeTable 0 bootRegion (by decide)) hlayout hfit le_rfl
    (by decide : _ ≤ 2048) (by decide) rfl (ready_responsesWith (by decide))).exists_run
      (lt_irrefl _)
  refine ⟨hlayout, s, hrun, fun hdirect => ?_⟩
  have hstraddles : ¬ ∀ e ∈ straddlingMemmap, ¬ e.Above → e.stop ≤ 2 ^ 32 := by
    decide
  exact hstraddles ((hs.directMap_iff hlayout hfit).1 hdirect)

end OptimistOS
