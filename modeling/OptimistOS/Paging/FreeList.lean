import OptimistOS.Boot.BootInfo
import OptimistOS.Foundation.Chain
import OptimistOS.Foundation.Layout

/-!
# Free blocks

The header `fBlock` (`freeList.hpp`) that the frame allocator keeps in the first
bytes of every free block, and the null-terminated list of blocks that starts at
a pointer. A block covers the `size` bytes from its header on, header included.
-/

namespace OptimistOS

open ByteMemory

/-- The members of `fBlock`. -/
inductive FBlock
  | size
  | next
  | previous
  | inUse
  | prevSize
  deriving DecidableEq, Repr

def fBlock : Layout 64 FBlock where
  offset
    | .size => 0
    | .next => 8
    | .previous => 16
    | .inUse => 24
    | .prevSize => 32
  width
    | .inUse => 1
    | _ => 8
  sizeof := 40
  fits f := by cases f <;> decide
  apart f g h := by cases f <;> cases g <;> simp at h ⊢
  sizeof_le := by decide

inductive BlockList (m : Bytes) : Addr → List Addr → Prop
  | nil : BlockList m 0 []
  | cons {p : Addr} {ps : List Addr} (hp : p ≠ 0)
      (hps : BlockList m (fBlock.get m p .next) ps) : BlockList m p (p :: ps)

def blockRegion (m : Bytes) (p : Addr) : Set Addr :=
  region p (fBlock.get m p .size).toNat

theorem blockList_iff_chain {m : Bytes} {p : Addr} {ps : List Addr} :
    BlockList m p ps ↔
      LinkedList.Chain 0 (fun q => fBlock.get m q .next) p ps := by
  constructor
  · intro h
    induction h with
    | nil => rfl
    | cons hp _ ih => exact ⟨rfl, hp, ih⟩
  · intro h
    induction ps generalizing p with
    | nil => exact h ▸ .nil
    | cons q qs ih =>
        obtain ⟨rfl, hp, h⟩ := h
        exact .cons hp (ih h)

namespace BlockList

variable {m m' : Bytes} {p q : Addr} {ps qs : List Addr}

theorem unique (hp : BlockList m p ps) (hq : BlockList m p qs) : ps = qs :=
  (blockList_iff_chain.1 hp).unique (blockList_iff_chain.1 hq)

theorem nodup (h : BlockList m p ps) : ps.Nodup :=
  (blockList_iff_chain.1 h).nodup

theorem drop (h : BlockList m p (ps ++ q :: qs)) : BlockList m q (q :: qs) :=
  blockList_iff_chain.2 (blockList_iff_chain.1 h).drop

theorem congr (h : BlockList m p ps)
    (hnext : ∀ q ∈ ps, fBlock.get m' q .next = fBlock.get m q .next) :
    BlockList m' p ps :=
  blockList_iff_chain.2 ((blockList_iff_chain.1 h).congr hnext)

theorem ne_zero (h : BlockList m p ps) : ∀ q ∈ ps, q ≠ 0 :=
  fun _ => (blockList_iff_chain.1 h).ne_null

theorem head_ne_zero (h : BlockList m p ps) (hq : q ∈ ps) : p ≠ 0 := by
  cases h with
  | nil => exact absurd hq (by simp)
  | cons hp _ => exact hp

theorem tail (h : BlockList m p (q :: qs)) :
    p = q ∧ BlockList m (fBlock.get m p .next) qs := by
  cases h with
  | cons _ h => exact ⟨rfl, h⟩

theorem start_eq (h : BlockList m p ps) : p = ps.headD 0 := by
  cases h <;> rfl

theorem prefix_of_cut (h : BlockList m p ps) (h' : BlockList m' p qs)
    (hcut : ∀ q ∈ ps, fBlock.get m' q .next = 0 ∨
      fBlock.get m' q .next = fBlock.get m q .next) : qs <+: ps := by
  induction h generalizing qs with
  | nil => rw [h'.unique .nil]
  | @cons p ps hp hps ih =>
      cases h' with
      | nil => exact absurd rfl hp
      | @cons _ qs _ hqs =>
          rw [List.cons_prefix_cons]
          refine ⟨rfl, ?_⟩
          rcases hcut p (by simp) with hzero | hsame
          · rw [hzero] at hqs
            rw [hqs.unique .nil]
            exact List.nil_prefix
          · rw [hsame] at hqs
            exact ih hqs fun q hq => hcut q (List.mem_cons_of_mem _ hq)

theorem next_eq (h : BlockList m p ps) (h' : BlockList m' p ps) :
    ∀ q ∈ ps, fBlock.get m' q .next = fBlock.get m q .next := by
  induction h with
  | nil => simp
  | @cons p ps _ hps ih =>
      have hstart : fBlock.get m' p .next = fBlock.get m p .next :=
        h'.tail.2.start_eq.trans hps.start_eq.symm
      intro q hq
      rcases List.mem_cons.1 hq with rfl | hq
      · exact hstart
      · exact ih (hstart ▸ h'.tail.2) q hq

end BlockList

theorem blockList_singleton {m : Bytes} {p : Addr} (hp : p ≠ 0)
    (hnext : fBlock.get m p .next = 0) : BlockList m p [p] :=
  .cons hp (hnext ▸ .nil)

@[simp] theorem fBlock_get_set_self (m : Bytes) (p v : Addr) (f : FBlock)
    (h : f ≠ .inUse) : fBlock.get (fBlock.set m p f v) p f = v := by
  refine fBlock.get_set_self m p f ?_
  cases f <;> first | exact absurd rfl h | exact v.isLt

end OptimistOS
