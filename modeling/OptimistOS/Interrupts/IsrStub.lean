import OptimistOS.Interrupts.Cpu

/-!
# The interrupt stubs

The stubs of `isr.asm`, the record `cpuRegs` through which `isrHandler` sees the
stack, and the way back through `iretq`. `isrHandler` itself is a parameter: any
code that returns to the stub.

The record has a member `core` that no stub pushes, so every member from
`int_no` on is read one word too high, and the final `add rsp, 24` drops `rip`
together with the vector and the error code.
-/

namespace OptimistOS

open ByteMemory

inductive CpuRegs
  | reg (r : Gpr)
  | core
  | int_no
  | err
  | rip
  | cs
  | eFlags
  | rsp
  | ss
  deriving DecidableEq, Repr

def CpuRegs.members : List CpuRegs :=
  [.reg .r15, .reg .r14, .reg .r13, .reg .r12, .reg .r11, .reg .r10, .reg .r9,
    .reg .r8, .reg .rbp, .reg .rdi, .reg .rsi, .reg .rdx, .reg .rcx, .reg .rbx,
    .reg .rax, .core, .int_no, .err, .rip, .cs, .eFlags, .rsp, .ss]

theorem CpuRegs.mem_members (f : CpuRegs) : f ∈ CpuRegs.members := by
  rcases f with (r | _) <;> first | decide | (cases r <;> decide)

def cpuRegs : Layout 64 CpuRegs :=
  .ofWords CpuRegs.members CpuRegs.mem_members (by decide)

def pushAll : List Gpr :=
  [.rax, .rbx, .rcx, .rdx, .rsi, .rdi, .rbp, .r8, .r9, .r10, .r11, .r12, .r13,
    .r14, .r15]

/-- The macro `POPALL`. -/
def popAll : List Gpr :=
  [.r15, .r14, .r13, .r12, .r11, .r10, .r9, .r8, .rbp, .rdi, .rsi, .rdx, .rcx,
    .rbx, .rax]

theorem mem_popAll (r : Gpr) : r ∈ popAll := by
  cases r <;> decide

def isr (n : BitVec 8) : List Instr :=
  (if ¬ (n = 8 ∨ (10 ≤ n ∧ n ≤ 14) ∨ n = 17 ∨ n = 21 ∨ n = 29 ∨ n = 30) then
    [.pushImm 0] else []) ++ [.cli, .pushImm (n.setWidth 64)]

def isrCommonEntry : List Instr :=
  pushAll.map .push ++ [.cld, .movRdiRsp]

def isrCommonExit : List Instr :=
  popAll.map .pop ++ [.addRsp 24, .iretq]

/-- The processor when `isrHandler` is entered: interrupt `n` was delivered, the
stub has run, and the call has pushed `returnAddress`. -/
def isrHandlerEntry (n : BitVec 8) (errorCode : Word) (rsp0 : Option Addr)
    (returnAddress : Word) (c : Cpu) : Cpu :=
  (runInstrs (isr n ++ isrCommonEntry) (deliver n errorCode rsp0 c)).pushValue
    returnAddress

def isrHandlerReturn (c : Cpu) : Cpu :=
  runInstrs isrCommonExit { c with rsp := c.rsp + 8 }

/-- The code `isrHandler` returns with the stack pointer it was entered with and
leaves the record its argument points at unchanged. -/
structure LeavesFrame (isrHandler : Cpu → Cpu) (c : Cpu) : Prop where
  rsp : (isrHandler c).rsp = c.rsp
  frame : ∀ x ∈ cpuRegs.recordRegion (c.gpr .rdi),
    (isrHandler c).mem x = c.mem x

def errorCodeOf (n : BitVec 8) (errorCode : Word) : Word :=
  if pushesErrorCode n then errorCode else 0

/-- `isrHandler` sees interrupt `n` of the context `c`: its argument points at a
record that holds the vector, the error code and the interrupted registers. -/
structure SeesInterrupt (n : BitVec 8) (errorCode : Word) (c : CpuContext)
    (h : Cpu) : Prop where
  int_no : cpuRegs.get h.mem (h.gpr .rdi) .int_no = n.setWidth 64
  err : cpuRegs.get h.mem (h.gpr .rdi) .err = errorCodeOf n errorCode
  rip : cpuRegs.get h.mem (h.gpr .rdi) .rip = c.rip
  cs : cpuRegs.get h.mem (h.gpr .rdi) .cs = c.cs.setWidth 64
  eFlags : cpuRegs.get h.mem (h.gpr .rdi) .eFlags = c.rflags
  rsp : cpuRegs.get h.mem (h.gpr .rdi) .rsp = c.rsp
  ss : cpuRegs.get h.mem (h.gpr .rdi) .ss = c.ss.setWidth 64
  gpr : ∀ r, cpuRegs.get h.mem (h.gpr .rdi) (.reg r) = c.gpr r

/-- `isrHandler` sees the interrupt, and if it leaves the record alone, the
interrupted context is restored. -/
def IsrRoundTrip (n : BitVec 8) (errorCode : Word) (rsp0 : Option Addr)
    (returnAddress : Word) (isrHandler : Cpu → Cpu) (c : Cpu) : Prop :=
  SeesInterrupt n errorCode c.toCpuContext
      (isrHandlerEntry n errorCode rsp0 returnAddress c) ∧
    (LeavesFrame isrHandler
        (isrHandlerEntry n errorCode rsp0 returnAddress c) →
      (isrHandlerReturn (isrHandler
        (isrHandlerEntry n errorCode rsp0 returnAddress c))).toCpuContext =
          c.toCpuContext)

def wordAbove (rsp0 : Option Addr) (c : Cpu) : Word :=
  word c.mem ((rsp0.getD c.rsp) &&& ~~~15)

def seenRegs (n : BitVec 8) (errorCode : Word) (rsp0 : Option Addr) (c : Cpu) :
    CpuRegs → Word
  | .reg r => c.gpr r
  | .core => n.setWidth 64
  | .int_no => errorCodeOf n errorCode
  | .err => c.rip
  | .rip => c.cs.setWidth 64
  | .cs => c.rflags
  | .eFlags => c.rsp
  | .rsp => c.ss.setWidth 64
  | .ss => wordAbove rsp0 c

theorem pushesErrorCode_iff (n : BitVec 8) :
    pushesErrorCode n ↔
      (n = 8 ∨ (10 ≤ n ∧ n ≤ 14) ∨ n = 17 ∨ n = 21 ∨ n = 29 ∨ n = 30) := by
  revert n
  decide

theorem wordsAt_deliver (n : BitVec 8) (errorCode : Word)
    (rsp0 : Option Addr) (c : Cpu) :
    WordsAt (deliver n errorCode rsp0 c).mem (deliver n errorCode rsp0 c).rsp
        ((if pushesErrorCode n then [errorCode] else []) ++
          [c.rip, c.cs.setWidth 64, c.rflags, c.rsp, c.ss.setWidth 64,
            wordAbove rsp0 c]) ∧
      (deliver n errorCode rsp0 c).gpr = c.gpr := by
  have htop : WordsAt c.mem ((rsp0.getD c.rsp) &&& ~~~15)
      [wordAbove rsp0 c] := ⟨rfl, trivial⟩
  have hpush := wordsAt_pushValues
    ([c.ss.setWidth 64, c.rsp, c.rflags, c.cs.setWidth 64, c.rip] ++
      if pushesErrorCode n then [errorCode] else [])
    (c := { c with
      rsp := (rsp0.getD c.rsp) &&& ~~~15
      ss := if rsp0.isSome then 0 else c.ss }) htop
    (by split_ifs <;> simp)
  refine ⟨?_, by simp [deliver]⟩
  rw [deliver]
  convert hpush using 1
  split_ifs <;> rfl

theorem wordsAt_isr (n : BitVec 8) (errorCode : Word) (rsp0 : Option Addr)
    (c : Cpu) :
    WordsAt (runInstrs (isr n) (deliver n errorCode rsp0 c)).mem
        (runInstrs (isr n) (deliver n errorCode rsp0 c)).rsp
        [n.setWidth 64, errorCodeOf n errorCode, c.rip, c.cs.setWidth 64,
          c.rflags, c.rsp, c.ss.setWidth 64, wordAbove rsp0 c] ∧
      (runInstrs (isr n) (deliver n errorCode rsp0 c)).gpr = c.gpr := by
  obtain ⟨hwords, hgpr⟩ := wordsAt_deliver n errorCode rsp0 c
  generalize deliver n errorCode rsp0 c = d at hwords hgpr ⊢
  by_cases h : pushesErrorCode n
  · rw [if_pos h] at hwords
    rw [isr, if_neg (not_not.2 ((pushesErrorCode_iff n).1 h)), errorCodeOf,
      if_pos h]
    exact ⟨hwords.push (by simp) (n.setWidth 64), hgpr⟩
  · rw [if_neg h] at hwords
    rw [isr, if_pos (mt (pushesErrorCode_iff n).2 h), errorCodeOf, if_neg h]
    exact ⟨(hwords.push (by simp) 0).push (by simp) (n.setWidth 64), hgpr⟩

theorem wordsAt_isrHandlerEntry (n : BitVec 8) (errorCode : Word)
    (rsp0 : Option Addr) (returnAddress : Word) (c : Cpu) :
    WordsAt (isrHandlerEntry n errorCode rsp0 returnAddress c).mem
        ((isrHandlerEntry n errorCode rsp0 returnAddress c).rsp + 8)
        (CpuRegs.members.map (seenRegs n errorCode rsp0 c)) ∧
      (isrHandlerEntry n errorCode rsp0 returnAddress c).gpr .rdi =
        (isrHandlerEntry n errorCode rsp0 returnAddress c).rsp + 8 := by
  obtain ⟨hisr, hgpr⟩ := wordsAt_isr n errorCode rsp0 c
  have hpush := wordsAt_pushValues (pushAll.map c.gpr) hisr (by simp [pushAll])
  have hcall := hpush.push (by simp [pushAll]) returnAddress
  have hrun : isrHandlerEntry n errorCode rsp0 returnAddress c =
      (runInstrs [.cld, .movRdiRsp] (Cpu.pushValues
        (runInstrs (isr n) (deliver n errorCode rsp0 c))
          (pushAll.map c.gpr))).pushValue returnAddress := by
    rw [isrHandlerEntry, isrCommonEntry, runInstrs_append, runInstrs_append,
      runInstrs_push, hgpr]
  rw [hrun]
  generalize Cpu.pushValues _ _ = d at hcall ⊢
  refine ⟨hcall.tail, ?_⟩
  simp only [runInstrs_cons, runInstrs_nil, Instr.exec, Cpu.pushValue,
    Function.update_self]
  exact (BitVec.sub_add_cancel _ 8).symm

theorem get_isrHandlerEntry (n : BitVec 8) (errorCode : Word)
    (rsp0 : Option Addr) (returnAddress : Word) (c : Cpu) (f : CpuRegs) :
    cpuRegs.get (isrHandlerEntry n errorCode rsp0 returnAddress c).mem
        ((isrHandlerEntry n errorCode rsp0 returnAddress c).gpr .rdi) f =
      seenRegs n errorCode rsp0 c f := by
  obtain ⟨hwords, hrdi⟩ :=
    wordsAt_isrHandlerEntry n errorCode rsp0 returnAddress c
  rw [← List.append_nil (List.map _ _)] at hwords
  rw [hrdi]
  exact hwords.get_ofWords f

theorem runInstrs_isrCommonExit {c : Cpu} {g : Gpr → Word}
    {core int_no err rip cs rflags rsp ss : Word} {ws : List Word}
    (h : WordsAt c.mem c.rsp (popAll.map g ++
      (core :: int_no :: err :: rip :: cs :: rflags :: rsp :: ss :: ws))) :
    (runInstrs isrCommonExit c).toCpuContext =
      ⟨g, rip, cs.setWidth 16, rflags, rsp, ss.setWidth 16⟩ := by
  obtain ⟨hpop, hin, -⟩ := wordsAt_pop popAll g h
  set d := runInstrs (popAll.map .pop) c
  have hgpr : d.gpr = g := funext fun r => hin r (mem_popAll r)
  have hadd : WordsAt (Instr.exec (.addRsp 24) d).mem
      (Instr.exec (.addRsp 24) d).rsp
      (rip :: cs :: rflags :: rsp :: ss :: ws) := by
    have hdrop := hpop.tail.tail.tail
    rw [exec_addRsp_mem]
    rwa [BitVec.add_assoc, BitVec.add_assoc] at hdrop
  rw [isrCommonExit, runInstrs_append, runInstrs_cons, runInstrs_cons,
    runInstrs_nil, exec_iretq hadd, exec_addRsp_gpr, hgpr]

theorem isrHandlerReturn_context {n : BitVec 8} {errorCode : Word}
    {rsp0 : Option Addr} {returnAddress : Word} {isrHandler : Cpu → Cpu}
    {c : Cpu} (h : LeavesFrame isrHandler
      (isrHandlerEntry n errorCode rsp0 returnAddress c)) :
    (isrHandlerReturn (isrHandler
        (isrHandlerEntry n errorCode rsp0 returnAddress c))).toCpuContext =
      ⟨c.gpr, c.cs.setWidth 64, c.rflags.setWidth 16, c.rsp,
        c.ss.setWidth 64, (wordAbove rsp0 c).setWidth 16⟩ := by
  obtain ⟨hwords, hrdi⟩ :=
    wordsAt_isrHandlerEntry n errorCode rsp0 returnAddress c
  set e := isrHandlerEntry n errorCode rsp0 returnAddress c
  have hframe : ∀ x ∈ region (e.rsp + 8) (8 * 23),
      e.mem x = (isrHandler e).mem x := by
    rw [← hrdi]
    exact fun x hx => (h.frame x hx).symm
  have hback := hwords.congr (by simp [CpuRegs.members]) hframe
  rw [← h.rsp] at hback
  exact runInstrs_isrCommonExit
    (c := { isrHandler e with rsp := (isrHandler e).rsp + 8 }) hback

/-- The vector, the error code, the words that the processor pushes and the word
above them are all the same. -/
structure FlatFrame (n : BitVec 8) (errorCode : Word) (rsp0 : Option Addr)
    (c : Cpu) : Prop where
  errorCode : errorCodeOf n errorCode = n.setWidth 64
  rip : c.rip = n.setWidth 64
  cs : c.cs.setWidth 64 = n.setWidth 64
  rflags : c.rflags = n.setWidth 64
  rsp : c.rsp = n.setWidth 64
  ss : c.ss.setWidth 64 = n.setWidth 64
  above : wordAbove rsp0 c = n.setWidth 64

theorem seesInterrupt_iff (n : BitVec 8) (errorCode : Word)
    (rsp0 : Option Addr) (returnAddress : Word) (c : Cpu) :
    SeesInterrupt n errorCode c.toCpuContext
        (isrHandlerEntry n errorCode rsp0 returnAddress c) ↔
      FlatFrame n errorCode rsp0 c := by
  have hget := get_isrHandlerEntry n errorCode rsp0 returnAddress c
  constructor
  · rintro ⟨hint, herr, hrip, hcs, hflags, hrsp, hss, -⟩
    rw [hget] at hint herr hrip hcs hflags hrsp hss
    simp only [seenRegs] at hint herr hrip hcs hflags hrsp hss
    have hrip' : c.rip = n.setWidth 64 := herr.trans hint
    have hcs' := hrip.trans hrip'
    have hflags' := hcs.trans hcs'
    have hrsp' := hflags.trans hflags'
    have hss' := hrsp.trans hrsp'
    exact ⟨hint, hrip', hcs', hflags', hrsp', hss', hss.trans hss'⟩
  · rintro ⟨herr, hrip, hcs, hflags, hrsp, hss, habove⟩
    constructor <;> intros <;> rw [hget] <;>
      simp only [seenRegs, herr, hrip, hcs, hflags, hrsp, hss, habove]

/-- The processor keeps bit 1 of `rflags` set and bit 3 clear, so no interrupt
of a running kernel is seen as it happened. -/
theorem not_seesInterrupt (n : BitVec 8) (errorCode : Word)
    (rsp0 : Option Addr) (returnAddress : Word) (c : Cpu)
    (hone : c.rflags.getLsbD 1 = true) (hthree : c.rflags.getLsbD 3 = false) :
    ¬ SeesInterrupt n errorCode c.toCpuContext
      (isrHandlerEntry n errorCode rsp0 returnAddress c) := by
  intro h
  have hflat := (seesInterrupt_iff _ _ _ _ _).1 h
  have herr := hflat.errorCode
  rw [hflat.rflags] at hone hthree
  have hpushes : pushesErrorCode n := by
    by_contra hno
    rw [errorCodeOf, if_neg hno] at herr
    rw [← herr] at hone
    exact absurd hone (by decide)
  clear herr hflat h
  revert n
  decide

/-- The stub gives and takes back the interrupted context exactly when the frame
is flat. -/
theorem isrRoundTrip_iff (n : BitVec 8) (errorCode : Word)
    (rsp0 : Option Addr) (returnAddress : Word) (isrHandler : Cpu → Cpu)
    (c : Cpu) :
    IsrRoundTrip n errorCode rsp0 returnAddress isrHandler c ↔
      FlatFrame n errorCode rsp0 c := by
  refine ⟨fun h => (seesInterrupt_iff _ _ _ _ _).1 h.1, fun h =>
    ⟨(seesInterrupt_iff _ _ _ _ _).2 h, fun hleaves => ?_⟩⟩
  rw [isrHandlerReturn_context hleaves]
  have hcs : c.rflags.setWidth 16 = c.cs := by
    rw [h.rflags, ← h.cs, BitVec.setWidth_setWidth_of_le _ (by decide),
      BitVec.setWidth_eq]
  have hss : (wordAbove rsp0 c).setWidth 16 = c.ss := by
    rw [h.above, ← h.ss, BitVec.setWidth_setWidth_of_le _ (by decide),
      BitVec.setWidth_eq]
  rw [hcs, hss, h.cs, ← h.rip]
  exact congrArg₂ (fun a b => CpuContext.mk c.gpr c.rip c.cs a b c.ss)
    (h.rsp.trans h.rflags.symm) (h.ss.trans h.rsp.symm)

/-- Kernel code at `0xffffffff80001000`, interrupted with interrupts enabled. -/
def kernelContext : Cpu where
  gpr _ := 0
  rip := 0xffffffff80001000
  cs := 0x28
  rflags := 0x202
  rsp := 0xffff800000200000
  ss := 0x30
  mem _ := 0

/-- Interrupt 33 in `kernelContext`, with a handler that does nothing. -/
theorem not_isrRoundTrip_kernelContext :
    ¬ IsrRoundTrip 33 0 none 0xffffffff80002000 id kernelContext := by
  intro h
  exact not_seesInterrupt 33 0 none 0xffffffff80002000 kernelContext
    (by decide) (by decide) h.1

end OptimistOS
