import OptimistOS.Interrupts.IsrStub

/-!
# The context switch

`contextSwitch.asm` takes the address of a `cpuRegs` record and continues where
the record says: it uses the record as a stack, pops the general registers,
drops `core`, `int_no` and `err`, and returns through `iretq`. What it loads
depends on the record alone, not on the registers it starts with or on the
memory around the record.
-/

namespace OptimistOS

open ByteMemory

/-- The values of the members of a `cpuRegs` record. -/
abbrev Regs := CpuRegs → Word

def contextSwitch : List Instr :=
  .movRspRdi :: (popAll.map .pop ++ [.addRsp 24, .iretq])

def frameContext (regs : Regs) : CpuContext :=
  ⟨fun r => regs (.reg r), regs .rip, (regs .cs).setWidth 16, regs .eFlags,
    regs .rsp, (regs .ss).setWidth 16⟩

/-- The first argument of the routine that `c` enters points at a record that
holds `regs`. -/
def PassesRegs (c : Cpu) (regs : Regs) : Prop :=
  ∀ f, cpuRegs.get c.mem (c.gpr .rdi) f = regs f

theorem contextSwitch_context {c : Cpu} {regs : Regs} (h : PassesRegs c regs) :
    (runInstrs contextSwitch c).toCpuContext = frameContext regs := by
  have hwords : WordsAt c.mem (c.gpr .rdi)
      (popAll.map (fun r => regs (.reg r)) ++ [regs .core, regs .int_no,
        regs .err, regs .rip, regs .cs, regs .eFlags, regs .rsp, regs .ss]) :=
    wordsAt_of_get_ofWords (by decide) h
  exact runInstrs_isrCommonExit (c := { c with rsp := c.gpr .rdi }) hwords

theorem exists_passesRegs (regs : Regs) : ∃ c, PassesRegs c regs := by
  have hnil : WordsAt (fun _ => 0 : Bytes) 0 [] := trivial
  have hpush := wordsAt_pushValues (CpuRegs.members.map regs).reverse
    (c := ⟨⟨fun _ => 0, 0, 0, 0, 0, 0⟩, fun _ => 0⟩) hnil
    (by simp [CpuRegs.members])
  rw [List.reverse_reverse] at hpush
  set c := Cpu.pushValues ⟨⟨fun _ => 0, 0, 0, 0, 0, 0⟩, fun _ => 0⟩
    (CpuRegs.members.map regs).reverse
  refine ⟨{ c with gpr := fun _ => c.rsp }, fun f => ?_⟩
  exact hpush.get_ofWords f

end OptimistOS
