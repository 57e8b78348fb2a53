import OptimistOS.Boot.BootInfo

/-!
# Spin locks

`lock.cpp`. A lock is a global variable, given by the function that reads it and
the one that writes it. Code that finds the lock taken spins; nobody else runs,
so it spins without end.
-/

namespace OptimistOS

open ByteMemory ByteMemory.Code

def lock {γ : Type} (read : γ → BitVec 32) (write : BitVec 32 → γ → γ) :
    Code 64 γ Unit := do
  if read (← get).globals = 0 then
    modifyGlobals (write 1)
  else
    throw .fuel

def unlock {γ : Type} (write : BitVec 32 → γ → γ) : Code 64 γ Unit :=
  modifyGlobals (write 0)

theorem run_lock_of_free {γ : Type} {read : γ → BitVec 32}
    {write : BitVec 32 → γ → γ} {s : Machine 64 γ} (h : read s.globals = 0) :
    (lock read write).run s =
      .ok () { s with globals := write 1 s.globals } := by
  rw [lock, EStateM.run_bind, EStateM.run_get]
  simp only [if_pos h, run_modifyGlobals]

theorem run_lock_eq_ok {γ : Type} {read : γ → BitVec 32}
    {write : BitVec 32 → γ → γ} {s s' : Machine 64 γ} {u : Unit} :
    (lock read write).run s = .ok u s' ↔
      read s.globals = 0 ∧ s' = { s with globals := write 1 s.globals } := by
  by_cases h : read s.globals = 0
  · rw [run_lock_of_free h]
    simp [h, eq_comm]
  · rw [lock, EStateM.run_bind, EStateM.run_get]
    simp only [if_neg h, run_throw]
    exact ⟨fun hok => absurd hok (by simp), fun hfree => absurd hfree.1 h⟩

@[simp] theorem run_unlock {γ : Type} (write : BitVec 32 → γ → γ)
    (s : Machine 64 γ) :
    (unlock write).run s = .ok () { s with globals := write 0 s.globals } := rfl

end OptimistOS
