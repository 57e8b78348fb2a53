import OptimistOS.Interrupts.Idt
import OptimistOS.Printutils.E9Printf

/-!
# The interrupt handler

`isrHandler` (`isr.cpp`) looks at the members `int_no` and `rip` of its record,
which hold the error code and the code segment of the interrupt. So the vector
plays no part in what it does (`isrHandler_of_run`): an interrupt without an error
code is reported as a division by zero and stops the processor, and the handlers
that were registered for the vectors 13 and 32 are not found by their vectors.
-/

namespace OptimistOS

open ByteMemory CString Transition

/-- `exception_messages`. The array has 32 places, and the last one is not
initialised. -/
def exceptionMessages : List String :=
  ["Division by Zero", "Debug", "Non-Maskable Interrupt", "Breakpoint",
    "Overflow", "Out of Bounds", "Invalid Opcode", "No Coprocessor",
    "Double Fault", "Coprocessor Segment Overrun", "Bat TSS",
    "Segment not Present", "Stack Fault", "General Protection Fault",
    "Page Fault", "Unknown Interrupt", "Coprocessor Fault", "Alignment Check",
    "Reserved", "Reserved", "Reserved", "Reserved", "Reserved", "Reserved",
    "Reserved", "Reserved", "Reserved", "Reserved", "Reserved", "Reserved",
    "Reserved"]

def chars (s : String) : List Byte :=
  s.toList.map ascii

/-- `exception_messages[i]`. A null pointer leads to `null`. -/
def exceptionMessage (null : ℤ → Byte) (i : ℕ) : ℤ → Byte :=
  match exceptionMessages[i]? with
  | some s => literal (chars s)
  | none => null

/-- How `isrHandler` ends: at a `hlt`, with the interrupts disabled, or with a
return, after it has called `handler` and has written the end of interrupt to the
ports of `outs`. -/
inductive IsrEnd
  | halts
  | returns (handler : Option Word) (outs : List (BitVec 16 × BitVec 8))

/-- What `isrHandler` finds in its surroundings: what `e9_printf` finds on the
stack, the name of the source file, what is at the null pointer, the handlers, and
what follows them in memory. -/
structure IsrSurroundings where
  stack : ℤ → ℤ → Byte
  file : ℤ → Byte
  null : ℤ → Byte
  handlers : BitVec 8 → Word
  behind : Word → Word

namespace IsrSurroundings

def print (E : IsrSurroundings) (fuel : ℕ) (format : String)
    (args : List Argument) (k : Console) : Option Console :=
  (e9Printf E.stack (literal (chars format)) fuel 0 args k).map Prod.fst

def haltAndCatchFire (E : IsrSurroundings) (fuel : ℕ) (lineNo : Word)
    (k : Console) : Option Console := do
  let k ← E.print fuel "\nERROR at %s:%d\n" [.str E.file, .num lineNo] k
  E.print fuel "Halting and catching fire!!\n" [] k

def handler (E : IsrSurroundings) (int_no : Word) : Word :=
  if int_no < 256 then E.handlers (int_no.setWidth 8) else E.behind int_no

def isrHandler (E : IsrSurroundings) (fuel : ℕ) (mem : Bytes) (rsp : Addr)
    (k : Console) : Option (Console × IsrEnd) :=
  let int_no := cpuRegs.get mem rsp .int_no
  if int_no < 32 then do
    let k ← E.print fuel "Exception: %s\n"
      [.str (exceptionMessage E.null int_no.toNat)] k
    let k ← E.print fuel "RIP: %x\n" [.num (cpuRegs.get mem rsp .rip)] k
    let k ← E.haltAndCatchFire fuel 64 k
    return (k, .halts)
  else
    let handler := if E.handler int_no = 0 then none else some (E.handler int_no)
    some (k, .returns handler (if 0x20 ≤ int_no then [(0x20, 0x20)] else []))

end IsrSurroundings

/-- What is printed about an exception with the message `message`, in a file of the
name `file`. -/
def exceptionReport (message file : List Byte) (rip : Word) : List Byte :=
  chars "Exception: " ++ message ++ chars "\n" ++
    chars "RIP: " ++ chars "0x" ++ numeral 16 rip.toNat ++ chars "\n" ++
    chars "\nERROR at " ++ file ++ chars ":" ++ numeral 10 64 ++ chars "\n" ++
    chars "Halting and catching fire!!\n"

structure StandsFor (text : List Byte) (args : List Argument) (out : List Byte) :
    Prop where
  formats : Formats text args out
  complete : Complete text
  ne_zero : ∀ c ∈ text, c ≠ 0

namespace StandsFor

variable {text out rest : List Byte} {args args' : List Argument} {c : Byte}

theorem nil (args : List Argument) : StandsFor [] args [] :=
  ⟨.nil args, trivial, by simp⟩

theorem append {s : List Byte} (hs : ∀ c ∈ s, c ≠ ascii '%' ∧ c ≠ 0)
    (h : StandsFor text args out) : StandsFor (s ++ text) args (s ++ out) := by
  induction s with
  | nil => exact h
  | cons c s ih =>
      obtain ⟨hformats, hcomplete, hne⟩ :=
        ih fun d hd => hs d (List.mem_cons_of_mem c hd)
      obtain ⟨hc, hzero⟩ := hs c List.mem_cons_self
      refine ⟨.char hc hformats, (complete_cons hc).2 hcomplete, ?_⟩
      rintro d (_ | ⟨_, hd⟩)
      · exact hzero
      · exact hne d hd

theorem conversion (hc : Converts c args out args') (hzero : c ≠ 0)
    (h : StandsFor text args' rest) :
    StandsFor (ascii '%' :: c :: text) args (out ++ rest) := by
  refine ⟨.conversion hc h.formats, complete_percent.2 h.complete, ?_⟩
  rintro d (_ | ⟨_, _ | ⟨_, hd⟩⟩)
  · decide
  · exact hzero
  · exact h.ne_zero d hd

theorem exists_print {format : String} (E : IsrSurroundings)
    (htext : chars format = text) (h : StandsFor text args out) :
    ∃ n, ∀ fuel, n ≤ fuel → ∀ k, E.print fuel format args k = some (k.write out) := by
  obtain ⟨n, hn⟩ := h.formats.prints h.complete (stringAt_literal h.ne_zero) E.stack
  refine ⟨n, fun fuel hfuel k => ?_⟩
  obtain ⟨reads, hrun, -⟩ := hn fuel hfuel k
  rw [IsrSurroundings.print, htext, hrun, Option.map_some]

end StandsFor

namespace IsrSurroundings

variable {E : IsrSurroundings} {file message : List Byte}

theorem exists_print_exception {msg : ℤ → Byte} (hmsg : StringAt msg 0 message) :
    ∃ n, ∀ fuel, n ≤ fuel → ∀ k, E.print fuel "Exception: %s\n" [.str msg] k =
      some (k.write (chars "Exception: " ++ (message ++ (chars "\n" ++ [])))) := by
  have htext : chars "Exception: %s\n" =
      chars "Exception: " ++ ascii '%' :: ascii 's' :: (chars "\n" ++ []) := by
    decide
  apply StandsFor.exists_print E htext
  apply StandsFor.append (by decide)
  apply StandsFor.conversion (.str hmsg []) (by decide)
  exact .append (by decide) (.nil [])

theorem exists_print_rip (rip : Word) :
    ∃ n, ∀ fuel, n ≤ fuel → ∀ k, E.print fuel "RIP: %x\n" [.num rip] k =
      some (k.write (chars "RIP: " ++
        ((chars "0x" ++ numeral 16 rip.toNat) ++
          (chars "\n" ++ [])))) := by
  have htext : chars "RIP: %x\n" =
      chars "RIP: " ++ ascii '%' :: ascii 'x' :: (chars "\n" ++ []) := by
    decide
  apply StandsFor.exists_print E htext
  apply StandsFor.append (by decide)
  apply StandsFor.conversion (.hex rip []) (by decide)
  exact .append (by decide) (.nil [])

theorem exists_haltAndCatchFire (hfile : StringAt E.file 0 file) (lineNo : Word) :
    ∃ n, ∀ fuel, n ≤ fuel → ∀ k, E.haltAndCatchFire fuel lineNo k =
      some (k.write (chars "\nERROR at " ++ (file ++ (chars ":" ++
        (numeral 10 lineNo.toNat ++ (chars "\n" ++ [])))) ++
          (chars "Halting and catching fire!!\n" ++ []))) := by
  obtain ⟨n, hn⟩ : ∃ n, ∀ fuel, n ≤ fuel → ∀ k,
      E.print fuel "\nERROR at %s:%d\n" [.str E.file, .num lineNo] k =
        some (k.write (chars "\nERROR at " ++ (file ++ (chars ":" ++
          (numeral 10 lineNo.toNat ++ (chars "\n" ++ [])))))) := by
    have htext : chars "\nERROR at %s:%d\n" = chars "\nERROR at " ++
        ascii '%' :: ascii 's' :: (chars ":" ++
          ascii '%' :: ascii 'd' :: (chars "\n" ++ [])) := by
      decide
    apply StandsFor.exists_print E htext
    apply StandsFor.append (by decide)
    apply StandsFor.conversion (.str hfile [.num lineNo]) (by decide)
    apply StandsFor.append (by decide)
    apply StandsFor.conversion (.dec lineNo []) (by decide)
    exact .append (by decide) (.nil [])
  obtain ⟨m, hm⟩ : ∃ n, ∀ fuel, n ≤ fuel → ∀ k,
      E.print fuel "Halting and catching fire!!\n" [] k =
        some (k.write (chars "Halting and catching fire!!\n" ++ [])) := by
    apply StandsFor.exists_print E (List.append_nil _).symm
    exact .append (by decide) (.nil [])
  refine ⟨max n m, fun fuel hfuel k => ?_⟩
  rw [haltAndCatchFire, hn fuel (le_of_max_le_left hfuel)]
  simp only [Option.bind_eq_bind, Option.bind_some]
  rw [hm fuel (le_of_max_le_right hfuel), ← Console.write_append]

/-- A record with a member `int_no` below 32 is reported and stops the
processor. -/
theorem exists_isrHandler_halts {mem : Bytes} {rsp : Addr}
    (hint : cpuRegs.get mem rsp .int_no < 32) (hfile : StringAt E.file 0 file)
    (hmessage : StringAt (exceptionMessage E.null
      (cpuRegs.get mem rsp .int_no).toNat) 0 message) :
    ∃ n, ∀ fuel, n ≤ fuel → ∀ k, E.isrHandler fuel mem rsp k =
      some (k.write (exceptionReport message file (cpuRegs.get mem rsp .rip)),
        .halts) := by
  obtain ⟨n, hn⟩ := exists_print_exception (E := E) hmessage
  obtain ⟨m, hm⟩ := exists_print_rip (E := E) (cpuRegs.get mem rsp .rip)
  obtain ⟨l, hl⟩ := exists_haltAndCatchFire hfile 64
  refine ⟨max n (max m l), fun fuel hfuel k => ?_⟩
  rw [isrHandler, if_pos hint, hn fuel (by omega)]
  simp only [Option.bind_eq_bind, Option.bind_some]
  rw [hm fuel (by omega)]
  simp only [Option.bind_some]
  rw [hl fuel (by omega)]
  simp only [Option.bind_some, Option.pure_def, ← Console.write_append,
    exceptionReport, List.append_assoc, List.append_nil]
  rfl

theorem isrHandler_returns {mem : Bytes} {rsp : Addr}
    (hint : 32 ≤ cpuRegs.get mem rsp .int_no) (fuel : ℕ) (k : Console) :
    E.isrHandler fuel mem rsp k = some (k, .returns
      (if E.handler (cpuRegs.get mem rsp .int_no) = 0 then none
        else some (E.handler (cpuRegs.get mem rsp .int_no))) [(0x20, 0x20)]) := by
  rw [isrHandler, if_neg (BitVec.not_lt.2 hint)]
  simp only [if_pos hint]

end IsrSurroundings

theorem stringAt_exceptionMessage (null : ℤ → Byte) {i : ℕ} {s : String}
    (hs : exceptionMessages[i]? = some s) :
    StringAt (exceptionMessage null i) 0 (chars s) := by
  have hchars : ∀ s ∈ exceptionMessages, ∀ c ∈ chars s, c ≠ 0 := by
    simp [exceptionMessages, chars, ascii]
  rw [exceptionMessage, hs]
  exact stringAt_literal (hchars s (List.mem_of_getElem? hs))

def IdtEvent.registers (L : IdtSymbols) : IdtEvent → BitVec 8 → Option Word
  | .isrInstall, n => if n = 13 then some L.isr13 else none
  | .pitInit, n => if n = 32 then some L.pitHandler else none
  | .unregisterIRQ vec, n => if n = vec then some 0 else none
  | _, _ => none

theorem IdtState.handlers_isrInstall (L : IdtSymbols) (s : IdtState) :
    (s.isrInstall L).handlers = Function.update s.handlers 13 L.isr13 := by
  cases hinit : s.wasInit <;>
    simp only [IdtState.isrInstall, IdtState.idtInit, IdtState.idtInitAgain,
      hinit, if_true, if_false, Bool.false_eq_true]

theorem IdtStep.handlers {L : IdtSymbols} {s s' : IdtState} {e : IdtEvent}
    (h : IdtStep L s e s') (n : BitVec 8) :
    s'.handlers n = (e.registers L n).getD (s.handlers n) := by
  have hupdate : ∀ (vec : BitVec 8) (handler : Word),
      Function.update s.handlers vec handler n =
        (if n = vec then some handler else none).getD (s.handlers n) := by
    intro vec handler
    rw [Function.update_apply]
    split_ifs <;> rfl
  cases h with
  | setIDTGate | elsewhere => rfl
  | pitInit => exact hupdate 32 L.pitHandler
  | unregisterIRQ vec => exact hupdate vec 0
  | isrInstall =>
      rw [IdtState.handlers_isrInstall]
      exact hupdate 13 L.isr13

theorem handlers_of_run {L : IdtSymbols} {s₀ s : IdtState} {es : List IdtEvent}
    (hrun : Run (IdtStep L) s₀ es s) (n : BitVec 8) :
    s.handlers n = (lastSet (IdtEvent.registers L) es n).getD (s₀.handlers n) :=
  (hrun.lastSet Set.univ (IdtEvent.registers L) IdtState.handlers (fun _ => True)
    trivial fun _ _ _ _ hstep => ⟨trivial, fun n _ => hstep.handlers n⟩).2 n trivial

/-- A handler of a vector from 32 on is `pitHandler`, which only `pitInit`
registers. -/
theorem eq_pitHandler_of_lastSet {L : IdtSymbols} {es : List IdtEvent}
    {n : BitVec 8} {handler : Word} (hn : 32 ≤ n) (hhandler : handler ≠ 0)
    (h : lastSet (IdtEvent.registers L) es n = some handler) :
    n = 32 ∧ handler = L.pitHandler ∧ .pitInit ∈ es := by
  obtain ⟨e, he, heq⟩ := List.mem_filterMap.1 (List.mem_of_getLast? h)
  cases e with
  | setIDTGate | elsewhere => simp [IdtEvent.registers] at heq
  | isrInstall =>
      rw [IdtEvent.registers] at heq
      split_ifs at heq with hvec
      rw [hvec] at hn
      exact absurd hn (by decide)
  | unregisterIRQ vec =>
      rw [IdtEvent.registers] at heq
      split_ifs at heq with hvec
      exact absurd (Option.some.inj heq).symm hhandler
  | pitInit =>
      rw [IdtEvent.registers] at heq
      split_ifs at heq with hvec
      exact ⟨hvec, (Option.some.inj heq).symm, he⟩

/-- What `isrHandler` calls for the error code `errorCode`, after the calls `es`:
`pitHandler` for the code 32 while it is registered for vector 32. -/
def calledHandler (L : IdtSymbols) (es : List IdtEvent)
    (errorCode : Word) : Option Word :=
  if errorCode = 32 ∧ L.pitHandler ≠ 0 ∧
      lastSet (IdtEvent.registers L) es 32 = some L.pitHandler then
    some L.pitHandler
  else
    none

theorem ite_eq_calledHandler {L : IdtSymbols} {es : List IdtEvent}
    {code handler : Word} (hle : 32 ≤ code) (hlt : code < 256)
    (hhandler : handler =
      (lastSet (IdtEvent.registers L) es (code.setWidth 8)).getD 0) :
    (if handler = 0 then none else some handler) = calledHandler L es code := by
  have hle' : 32 ≤ code.toNat := hle
  have hvec : (code.setWidth 8).toNat = code.toNat := by
    rw [BitVec.toNat_setWidth]
    exact Nat.mod_eq_of_lt hlt
  have hvec_le : 32 ≤ code.setWidth 8 := by
    rw [BitVec.le_def, hvec]
    exact hle'
  rw [calledHandler]
  by_cases hzero : handler = 0
  · rw [if_pos hzero, if_neg]
    rintro ⟨rfl, hne, hlast⟩
    change handler = (lastSet (IdtEvent.registers L) es 32).getD 0 at hhandler
    rw [hlast] at hhandler
    exact hne (hhandler.symm.trans hzero)
  · have hlast : lastSet (IdtEvent.registers L) es (code.setWidth 8) =
        some handler := by
      cases h : lastSet (IdtEvent.registers L) es (code.setWidth 8) with
      | none => exact absurd (by rw [hhandler, h]; rfl) hzero
      | some w => rw [hhandler, h, Option.getD_some]
    obtain ⟨hn, rfl, -⟩ := eq_pitHandler_of_lastSet hvec_le hzero hlast
    rw [hn] at hvec hlast
    rw [if_neg hzero, if_pos ⟨BitVec.eq_of_toNat_eq hvec.symm, hzero, hlast⟩]

/-- Whatever has been installed and registered, `isrHandler` treats interrupt `n`
by its error code. Below 31 it reports the exception of this number, with the code
segment in the place of the instruction pointer, and stops the processor. From 32
on it calls no handler, unless the error code is 32 and `pitInit` has registered
`pitHandler`, and then it ends the interrupt at the first controller. -/
theorem isrHandler_of_run {L : IdtSymbols} {s₀ s : IdtState}
    {es : List IdtEvent} (hhandlers : ∀ vec, s₀.handlers vec = 0)
    (hrun : Run (IdtStep L) s₀ es s) {E : IsrSurroundings} {file : List Byte}
    (hE : E.handlers = s.handlers) (hfile : StringAt E.file 0 file)
    (n : BitVec 8) (errorCode : Word) (rsp0 : Option Addr)
    (returnAddress : Word) (c : Cpu) (k : Console) :
    (∀ message, exceptionMessages[(errorCodeOf n errorCode).toNat]? = some message →
      ∃ fuel, E.isrHandler fuel
          (isrHandlerEntry n errorCode rsp0 returnAddress c).mem
          ((isrHandlerEntry n errorCode rsp0 returnAddress c).gpr .rdi) k =
        some (k.write (exceptionReport (chars message) file (c.cs.setWidth 64)),
          .halts)) ∧
      (32 ≤ errorCodeOf n errorCode → errorCodeOf n errorCode < 256 →
        E.isrHandler 0
            (isrHandlerEntry n errorCode rsp0 returnAddress c).mem
            ((isrHandlerEntry n errorCode rsp0 returnAddress c).gpr .rdi) k =
          some (k, .returns (calledHandler L es (errorCodeOf n errorCode))
            [(0x20, 0x20)])) ∧
      (∀ handler, calledHandler L es (errorCodeOf n errorCode) = some handler →
        errorCodeOf n errorCode = 32 ∧ handler = L.pitHandler ∧ .pitInit ∈ es) := by
  have hget := get_isrHandlerEntry n errorCode rsp0 returnAddress c
  have hint := hget .int_no
  have hrip := hget .rip
  simp only [seenRegs] at hint hrip
  refine ⟨fun message hmessage => ?_, fun hle hlt => ?_, fun handler => ?_⟩
  · have hlt : (errorCodeOf n errorCode).toNat < 31 :=
      (List.getElem?_eq_some_iff.1 hmessage).1
    have hmsg := stringAt_exceptionMessage E.null hmessage
    rw [← hint] at hmsg hlt
    obtain ⟨fuel, hfuel⟩ := IsrSurroundings.exists_isrHandler_halts
      (BitVec.lt_def.2 (by change _ < 32; omega)) hfile hmsg
    refine ⟨fuel, ?_⟩
    rw [hfuel fuel le_rfl, hrip]
  · rw [IsrSurroundings.isrHandler_returns (hint ▸ hle) 0 k, hint]
    have hhandler : E.handler (errorCodeOf n errorCode) =
        (lastSet (IdtEvent.registers L) es
          ((errorCodeOf n errorCode).setWidth 8)).getD 0 := by
      rw [IsrSurroundings.handler, if_pos hlt, hE, handlers_of_run hrun, hhandlers]
    rw [ite_eq_calledHandler hle hlt hhandler]
  · intro hcalled
    rw [calledHandler] at hcalled
    split_ifs at hcalled with h
    obtain ⟨hcode, hne, hlast⟩ := h
    have hmem := (eq_pitHandler_of_lastSet (by decide) hne hlast).2.2
    exact ⟨hcode, (Option.some.inj hcalled).symm, hmem⟩

/-- In `kernelContext`, interrupt 33 is reported as a division by zero at the
address `0x28`, and a general protection fault with the error code 32 calls
`pitHandler`. -/
theorem isrHandler_of_run_bootIdt :
    ∃ (s : IdtState) (E : IsrSurroundings) (fuel : ℕ),
      Run (IdtStep kernelSymbols) bootIdt [.isrInstall, .pitInit] s ∧
      E.handlers = s.handlers ∧
      E.isrHandler fuel
          (isrHandlerEntry 33 0 none 0xffffffff80002000 kernelContext).mem
          ((isrHandlerEntry 33 0 none 0xffffffff80002000 kernelContext).gpr .rdi)
          portOnly =
        some (portOnly.write (exceptionReport (chars "Division by Zero")
          (chars "idt/isr.cpp") 0x28), .halts) ∧
      E.isrHandler 0
          (isrHandlerEntry 13 32 none 0xffffffff80002000 kernelContext).mem
          ((isrHandlerEntry 13 32 none 0xffffffff80002000 kernelContext).gpr .rdi)
          portOnly =
        some (portOnly, .returns (some kernelSymbols.pitHandler)
          [(0x20, 0x20)]) := by
  obtain ⟨s, hrun⟩ : ∃ s, Run (IdtStep kernelSymbols) bootIdt
      [.isrInstall, .pitInit] s :=
    ⟨_, (Run.single (.isrInstall bootIdt)).snoc (.pitInit _)⟩
  let E : IsrSurroundings := ⟨fun _ _ => 0, literal (chars "idt/isr.cpp"),
    fun _ => 0, s.handlers, fun _ => 0⟩
  have hfile : StringAt E.file 0 (chars "idt/isr.cpp") :=
    stringAt_literal (by simp [chars, ascii])
  obtain ⟨hhalts, -, -⟩ := isrHandler_of_run (fun _ => rfl) hrun (E := E) rfl hfile
    33 0 none 0xffffffff80002000 kernelContext portOnly
  obtain ⟨-, hreturns, -⟩ := isrHandler_of_run (fun _ => rfl) hrun (E := E) rfl
    hfile 13 32 none 0xffffffff80002000 kernelContext portOnly
  obtain ⟨fuel, hfuel⟩ := hhalts "Division by Zero" rfl
  exact ⟨s, E, fuel, hrun, rfl, hfuel, hreturns (by decide) (by decide)⟩

end OptimistOS
