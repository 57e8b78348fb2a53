import OptimistOS.Foundation.Machine

/-!
# Boot information

The part of `bootInfo` (`boot.h`) that the memory code reads: where the usable
region chosen at boot starts, how much of it is still free, and the offset of
the higher-half direct map through which physical memory is addressed.
-/

namespace OptimistOS

open ByteMemory

/-- `uint64_t`, `size_t` and `uintptr_t`. -/
abbrev Word := BitVec 64

/-- A pointer of the kernel. -/
abbrev Addr := BitVec 64

/-- The memory of the machine, addressed by kernel pointers. -/
abbrev Bytes := Mem 64

structure Memory where
  freeMemStart : Word
  freeMemSize : Word
  hhdmOffset : Word
  deriving DecidableEq, Repr

structure BootInfo where
  memory : Memory
  deriving DecidableEq, Repr

def BootInfo.zero : BootInfo := ⟨⟨0, 0, 0⟩⟩

/-- `_1GB` of `paging.hpp`. -/
def _1GB : ℕ := 0x40000000

/-- `_1MB` of `paging.hpp`. -/
def _1MB : ℕ := 0x100000

/-- `_4KB` of `paging.hpp`, the `PAGESIZE` of the frame allocator. -/
def _4KB : ℕ := 0x1000

/-- `memoryset` (`string.cpp`): the loop stores `value` at `start`,
`start + 1`, and so on, `num` times. -/
def memoryset (m : Bytes) (start : Addr) (value : BitVec 8) : ℕ → Bytes
  | 0 => m
  | num + 1 =>
      store (memoryset m start value num) (start + BitVec.ofNat 64 num) 1
        value.toNat

theorem store_one_apply (m : Bytes) (a x : Addr) (b : BitVec 8) :
    store m a 1 b.toNat x = if x = a then b else m x := by
  by_cases h : x = a
  · subst h
    simp [store]
  · have hne : (x - a).toNat ≠ 0 := by
      intro h0
      have hx := base_add_offset a x
      rw [h0] at hx
      exact h (by simpa using hx.symm)
    rw [if_neg h, store, if_neg (by omega)]

theorem memoryset_eq_fill (m : Bytes) (start : Addr) (value : BitVec 8)
    {num : ℕ} (h : num ≤ 2 ^ 64) :
    memoryset m start value num = fill m start num value := by
  induction num with
  | zero =>
      funext x
      simp [memoryset, fill]
  | succ num ih =>
      funext x
      have hx := base_add_offset start x
      rw [memoryset, store_one_apply, ih (by omega), fill, fill]
      by_cases hlast : x = start + BitVec.ofNat 64 num
      · rw [if_pos hlast, hlast, offset_of_add start (by omega),
          if_pos (Nat.lt_succ_self num)]
      · have hne : (x - start).toNat ≠ num := by
          rintro rfl
          exact hlast hx.symm
        rw [if_neg hlast]
        exact if_congr (by omega) rfl rfl

end OptimistOS
