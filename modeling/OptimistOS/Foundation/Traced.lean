import Mathlib.Data.List.Basic
import OptimistOS.Foundation.Machine

/-!
# Code with a trace

Code that also records events (`emit`) in the order in which they happen.
`Erases x y` says that `x` without its trace is `y`. A partial automaton over the
events is a discipline: `Follows` says that code which starts in one state of the
automaton returns in another, and that no event on the way is refused.
-/

namespace ByteMemory

/-- Global variables together with the events so far. -/
structure Traced (γ ε : Type) where
  globals : γ
  trace : List ε

namespace Code

variable {w : ℕ} {γ ε σ α β : Type}

/-- Record an event. -/
def emit (e : ε) : Code w (Traced γ ε) Unit :=
  modifyGlobals fun g => { g with trace := g.trace ++ [e] }

def silent (x : Code w γ α) : Code w (Traced γ ε) α :=
  zoom (fun g => g.globals) (fun g a => { g with globals := a }) x

theorem run_silent_of_ok {x : Code w γ α} {s : Machine w (Traced γ ε)} {a : α}
    {t : Machine w γ} (h : x.run ⟨s.mem, s.globals.globals⟩ = .ok a t) :
    (silent x).run s = .ok a ⟨t.mem, ⟨t.globals, s.globals.trace⟩⟩ :=
  run_zoom_of_ok h

theorem run_silent_of_error {x : Code w γ α} {s : Machine w (Traced γ ε)}
    {e : Stop} {t : Machine w γ}
    (h : x.run ⟨s.mem, s.globals.globals⟩ = .error e t) :
    (silent x).run s = .error e ⟨t.mem, ⟨t.globals, s.globals.trace⟩⟩ :=
  run_zoom_of_error h

def Erases (x : Code w (Traced γ ε) α) (y : Code w γ α) : Prop :=
  ∀ m g l, match x.run ⟨m, ⟨g, l⟩⟩ with
    | .ok a t => y.run ⟨m, g⟩ = .ok a ⟨t.mem, t.globals.globals⟩
    | .error e _ => ∃ t, y.run ⟨m, g⟩ = .error e t

namespace Erases

variable {x : Code w (Traced γ ε) α} {y : Code w γ α}

theorem pure (a : α) : Erases (Pure.pure a : Code w (Traced γ ε) α)
    (Pure.pure a) :=
  fun _ _ _ => rfl

theorem throw (e : Stop) :
    Erases (MonadExcept.throw e : Code w (Traced γ ε) α)
      (MonadExcept.throw e) :=
  fun m g _ => ⟨⟨m, g⟩, rfl⟩

theorem silent (y : Code w γ α) : Erases (ε := ε) (Code.silent y) y := by
  intro m g l
  cases h : y.run ⟨m, g⟩ with
  | ok a t => rw [run_silent_of_ok (s := ⟨m, ⟨g, l⟩⟩) h]
  | error e t =>
      rw [run_silent_of_error (s := ⟨m, ⟨g, l⟩⟩) h]
      exact ⟨t, rfl⟩

theorem bind {f : α → Code w (Traced γ ε) β} {k : α → Code w γ β}
    (h : Erases x y) (hf : ∀ a, Erases (f a) (k a)) :
    Erases (x >>= f) (y >>= k) := by
  intro m g l
  have hx := h m g l
  cases hrun : x.run ⟨m, ⟨g, l⟩⟩ with
  | ok a t =>
      rw [hrun] at hx
      rw [run_bind_of_ok hrun, run_bind_of_ok hx]
      exact hf a t.mem t.globals.globals t.globals.trace
  | error e t =>
      rw [hrun] at hx
      obtain ⟨t', ht'⟩ := hx
      rw [run_bind_of_error hrun]
      exact ⟨t', run_bind_of_error ht'⟩

theorem emit_bind (e : ε) (h : Erases x y) :
    Erases (Code.emit e >>= fun _ => x) y :=
  fun m g l => h m g (l ++ [e])

theorem get_bind {f : Machine w (Traced γ ε) → Code w (Traced γ ε) β}
    {k : Machine w γ → Code w γ β}
    (h : ∀ m g l, Erases (f ⟨m, ⟨g, l⟩⟩) (k ⟨m, g⟩)) :
    Erases (get >>= f) (get >>= k) :=
  fun m g l => h m g l m g l

theorem modifyMem (f : Mem w → Mem w) :
    Erases (Code.modifyMem f : Code w (Traced γ ε) Unit) (Code.modifyMem f) :=
  fun _ _ _ => rfl

theorem ite {x' : Code w (Traced γ ε) α} {y' : Code w γ α} {p : Prop}
    [Decidable p] (h : Erases x y) (h' : Erases x' y') :
    Erases (if p then x else x') (if p then y else y') := by
  split_ifs
  · exact h
  · exact h'

end Erases

section

variable (step : σ → ε → Option σ) (q₀ : σ)

/-- The code returns with a trace that leads to `q`; when it stops, the trace is
one that the automaton accepts. -/
def Reaches (q : σ) (x : Code w (Traced γ ε) α) (s : Machine w (Traced γ ε)) :
    Prop :=
  match x.run s with
  | .ok _ t => t.globals.trace.foldlM step q₀ = some q
  | .error _ t => t.globals.trace.foldlM step q₀ ≠ none

def Follows (q q' : σ) (x : Code w (Traced γ ε) α) : Prop :=
  ∀ s : Machine w (Traced γ ε), s.globals.trace.foldlM step q₀ = some q →
    Reaches step q₀ q' x s

variable {step q₀} {q q' q'' : σ} {x : Code w (Traced γ ε) α}

theorem reaches_of_ok {s t : Machine w (Traced γ ε)} {a : α}
    (h : x.run s = .ok a t) :
    Reaches step q₀ q x s ↔ t.globals.trace.foldlM step q₀ = some q := by
  rw [Reaches, h]

theorem reaches_of_error {s t : Machine w (Traced γ ε)} {e : Stop}
    (h : x.run s = .error e t) :
    Reaches step q₀ q x s ↔ t.globals.trace.foldlM step q₀ ≠ none := by
  rw [Reaches, h]

theorem reaches_bind_of_ok {f : α → Code w (Traced γ ε) β}
    {s t : Machine w (Traced γ ε)} {a : α} (h : x.run s = .ok a t) :
    Reaches step q₀ q (x >>= f) s ↔ Reaches step q₀ q (f a) t := by
  rw [Reaches, Reaches, run_bind_of_ok h]

theorem reaches_bind_of_error {f : α → Code w (Traced γ ε) β}
    {s t : Machine w (Traced γ ε)} {e : Stop} (h : x.run s = .error e t) :
    Reaches step q₀ q (x >>= f) s ↔
      t.globals.trace.foldlM step q₀ ≠ none := by
  rw [Reaches, run_bind_of_error h]

namespace Follows

theorem pure (a : α) :
    Follows step q₀ q q (Pure.pure a : Code w (Traced γ ε) α) :=
  fun _ h => h

theorem throw (e : Stop) :
    Follows step q₀ q q' (MonadExcept.throw e : Code w (Traced γ ε) α) := by
  intro s h
  change s.globals.trace.foldlM step q₀ ≠ none
  rw [h]
  exact Option.some_ne_none q

theorem emit {e : ε} (h : step q e = some q') :
    Follows step q₀ q q' (Code.emit e : Code w (Traced γ ε) Unit) := by
  intro s hs
  change (s.globals.trace ++ [e]).foldlM step q₀ = some q'
  rw [List.foldlM_append, hs]
  change (step q e >>= Pure.pure) = some q'
  rw [h]
  rfl

theorem silent (y : Code w γ α) :
    Follows (ε := ε) step q₀ q q (Code.silent y) := by
  intro s hs
  cases h : y.run ⟨s.mem, s.globals.globals⟩ with
  | ok a t => exact (reaches_of_ok (run_silent_of_ok h)).2 hs
  | error e t =>
      refine (reaches_of_error (run_silent_of_error h)).2 ?_
      change s.globals.trace.foldlM step q₀ ≠ none
      rw [hs]
      exact Option.some_ne_none q

theorem bind {f : α → Code w (Traced γ ε) β} (h : Follows step q₀ q q' x)
    (hf : ∀ a, Follows step q₀ q' q'' (f a)) :
    Follows step q₀ q q'' (x >>= f) := by
  intro s hs
  cases hrun : x.run s with
  | ok a t =>
      exact (reaches_bind_of_ok hrun).2 (hf a t ((reaches_of_ok hrun).1 (h s hs)))
  | error e t =>
      exact (reaches_bind_of_error hrun).2 ((reaches_of_error hrun).1 (h s hs))

theorem get :
    Follows step q₀ q q (MonadState.get : Code w (Traced γ ε) _) :=
  fun _ h => h

theorem modifyMem (f : Mem w → Mem w) :
    Follows step q₀ q q (Code.modifyMem f : Code w (Traced γ ε) Unit) :=
  fun _ h => h

theorem ite {y : Code w (Traced γ ε) α} {p : Prop} [Decidable p]
    (h : Follows step q₀ q q' x) (h' : Follows step q₀ q q' y) :
    Follows step q₀ q q' (if p then x else y) := by
  split_ifs
  · exact h
  · exact h'

end Follows

end

end Code

end ByteMemory
