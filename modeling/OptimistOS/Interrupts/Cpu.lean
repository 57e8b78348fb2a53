import OptimistOS.Boot.BootInfo
import OptimistOS.Foundation.Layout
import OptimistOS.Foundation.Stack

/-!
# The processor under interrupts

What `isr.asm` and `contextSwitch.asm` use of the processor: the registers, the
instructions between an interrupt and its `iretq`, and the frame the processor
itself pushes. The whole kernel runs from the code segment `0x28`, the selector
of every interrupt gate.
-/

namespace OptimistOS

open ByteMemory

/-- The general registers that are saved one by one. -/
inductive Gpr
  | rax | rbx | rcx | rdx | rsi | rdi | rbp
  | r8 | r9 | r10 | r11 | r12 | r13 | r14 | r15
  deriving DecidableEq, Repr

/-- The registers that belong to the interrupted code. -/
structure CpuContext where
  gpr : Gpr → Word
  rip : Word
  cs : BitVec 16
  rflags : Word
  rsp : Addr
  ss : BitVec 16

/-- The processor and its memory. -/
structure Cpu extends CpuContext where
  mem : Bytes

inductive Instr
  | push (r : Gpr)
  | pushImm (v : Word)
  | pop (r : Gpr)
  | cli
  | cld
  /-- `mov rdi, rsp`. -/
  | movRdiRsp
  /-- `mov rsp, rdi`. -/
  | movRspRdi
  /-- `add rsp, v`. -/
  | addRsp (v : Word)
  | iretq

def withFlag (rflags : Word) (i : ℕ) (b : Bool) : Word :=
  if b then rflags ||| 1#64 <<< i else rflags &&& ~~~(1#64 <<< i)

def addFlags (rflags a b : Word) : Word :=
  let s := a + b
  let low := s.setWidth 8
  let parity := (low.cpop).toNat % 2 == 0
  let f := withFlag rflags 0 (decide (2 ^ 64 ≤ a.toNat + b.toNat))
  let f := withFlag f 2 parity
  let f := withFlag f 4 (decide (16 ≤ a.toNat % 16 + b.toNat % 16))
  let f := withFlag f 6 (s == 0)
  let f := withFlag f 7 s.msb
  withFlag f 11 (a.msb == b.msb && s.msb != a.msb)

def Cpu.pushValue (c : Cpu) (v : Word) : Cpu :=
  { c with mem := pushWord c.mem c.rsp v, rsp := c.rsp - 8 }

def Cpu.pushValues (c : Cpu) (vs : List Word) : Cpu :=
  vs.foldl Cpu.pushValue c

def Instr.exec : Instr → Cpu → Cpu
  | .push r, c => c.pushValue (c.gpr r)
  | .pushImm v, c => c.pushValue v
  | .pop r, c =>
      { c with
        gpr := Function.update c.gpr r (word c.mem c.rsp)
        rsp := c.rsp + 8 }
  | .cli, c => { c with rflags := withFlag c.rflags 9 false }
  | .cld, c => { c with rflags := withFlag c.rflags 10 false }
  | .movRdiRsp, c => { c with gpr := Function.update c.gpr .rdi c.rsp }
  | .movRspRdi, c => { c with rsp := c.gpr .rdi }
  | .addRsp v, c =>
      { c with rsp := c.rsp + v, rflags := addFlags c.rflags c.rsp v }
  | .iretq, c =>
      { c with
        rip := word c.mem c.rsp
        cs := (word c.mem (c.rsp + 8)).setWidth 16
        rflags := word c.mem (c.rsp + 8 + 8)
        rsp := word c.mem (c.rsp + 8 + 8 + 8)
        ss := (word c.mem (c.rsp + 8 + 8 + 8 + 8)).setWidth 16 }

@[simp] theorem exec_pop_gpr (r : Gpr) (c : Cpu) :
    (Instr.exec (.pop r) c).gpr =
      Function.update c.gpr r (word c.mem c.rsp) := rfl

@[simp] theorem exec_addRsp_gpr (v : Word) (c : Cpu) :
    (Instr.exec (.addRsp v) c).gpr = c.gpr := rfl

@[simp] theorem exec_addRsp_mem (v : Word) (c : Cpu) :
    (Instr.exec (.addRsp v) c).mem = c.mem := rfl

def runInstrs (is : List Instr) (c : Cpu) : Cpu :=
  is.foldl (fun c i => i.exec c) c

@[simp] theorem runInstrs_nil (c : Cpu) : runInstrs [] c = c := rfl

@[simp] theorem runInstrs_cons (i : Instr) (is : List Instr) (c : Cpu) :
    runInstrs (i :: is) c = runInstrs is (i.exec c) := rfl

theorem runInstrs_append (is js : List Instr) (c : Cpu) :
    runInstrs (is ++ js) c = runInstrs js (runInstrs is c) :=
  List.foldl_append

theorem wordsAt_pushValues (vs : List Word) {c : Cpu} {ws : List Word}
    (h : WordsAt c.mem c.rsp ws) (hlen : 8 * (ws.length + vs.length) ≤ 2 ^ 64) :
    WordsAt (c.pushValues vs).mem (c.pushValues vs).rsp (vs.reverse ++ ws) := by
  induction vs generalizing c ws with
  | nil => exact h
  | cons v vs ih =>
      rw [List.length_cons] at hlen
      have hpush : WordsAt (c.pushValue v).mem (c.pushValue v).rsp (v :: ws) :=
        h.push (by omega) v
      rw [List.reverse_cons, List.append_assoc]
      have hrest := ih hpush (by rw [List.length_cons]; omega)
      exact hrest

@[simp] theorem pushValues_gpr (vs : List Word) (c : Cpu) :
    (c.pushValues vs).gpr = c.gpr := by
  induction vs generalizing c with
  | nil => rfl
  | cons v vs ih => exact ih (c.pushValue v)

theorem runInstrs_push (rs : List Gpr) (c : Cpu) :
    runInstrs (rs.map .push) c = c.pushValues (rs.map c.gpr) := by
  induction rs generalizing c with
  | nil => rfl
  | cons r rs ih => exact ih (c.pushValue (c.gpr r))

theorem wordsAt_pop (rs : List Gpr) (g : Gpr → Word) {c : Cpu}
    {ws : List Word} (h : WordsAt c.mem c.rsp (rs.map g ++ ws)) :
    WordsAt (runInstrs (rs.map .pop) c).mem (runInstrs (rs.map .pop) c).rsp
        ws ∧
      (∀ r ∈ rs, (runInstrs (rs.map .pop) c).gpr r = g r) ∧
      (∀ r ∉ rs, (runInstrs (rs.map .pop) c).gpr r = c.gpr r) := by
  induction rs generalizing c with
  | nil => exact ⟨h, by simp, fun _ _ => rfl⟩
  | cons r rs ih =>
      rw [List.map_cons, List.cons_append, wordsAt_cons] at h
      obtain ⟨hr, hrs⟩ := h
      rw [List.map_cons, runInstrs_cons]
      obtain ⟨hws, hin, hout⟩ := ih (c := Instr.exec (.pop r) c) hrs
      refine ⟨hws, fun q hq => ?_, fun q hq => ?_⟩
      · by_cases hmem : q ∈ rs
        · exact hin q hmem
        · obtain rfl := (List.mem_cons.1 hq).resolve_right hmem
          rw [hout q hmem, exec_pop_gpr, Function.update_self, hr]
      · rw [List.mem_cons, not_or] at hq
        rw [hout q hq.2, exec_pop_gpr, Function.update_of_ne hq.1]

theorem exec_iretq {c : Cpu} {rip cs rflags rsp ss : Word} {ws : List Word}
    (h : WordsAt c.mem c.rsp (rip :: cs :: rflags :: rsp :: ss :: ws)) :
    (Instr.exec .iretq c).toCpuContext =
      ⟨c.gpr, rip, cs.setWidth 16, rflags, rsp, ss.setWidth 16⟩ := by
  obtain ⟨h1, h2, h3, h4, h5, -⟩ := h
  simp only [Instr.exec, ← h1, ← h2, ← h3, ← h4, ← h5]
  rfl

def pushesErrorCode (n : BitVec 8) : Prop :=
  n ∈ [(8 : BitVec 8), 10, 11, 12, 13, 14, 17, 21, 29, 30]

instance (n : BitVec 8) : Decidable (pushesErrorCode n) := by
  unfold pushesErrorCode
  infer_instance

/-- The delivery of interrupt `n` through a gate with selector `0x28`. `rsp0` is
the stack of the task state segment when the interrupted code is less
privileged than the kernel. -/
def deliver (n : BitVec 8) (errorCode : Word) (rsp0 : Option Addr) (c : Cpu) :
    Cpu :=
  let f := Cpu.pushValues
    { c with
      rsp := (rsp0.getD c.rsp) &&& ~~~15
      ss := if rsp0.isSome then 0 else c.ss }
    ([c.ss.setWidth 64, c.rsp, c.rflags, c.cs.setWidth 64, c.rip] ++
      if pushesErrorCode n then [errorCode] else [])
  { f with
    cs := 0x28
    rflags := withFlag (withFlag (withFlag (withFlag c.rflags 8 false) 9 false)
      14 false) 16 false }

end OptimistOS
