import OptimistOS.Foundation.Loop

/-!
# Code that keeps an invariant

`x.Keeps I` says that `I` still holds when the code `x` returns. It follows the
structure of the code, so no run has to be taken apart.
-/

namespace ByteMemory

namespace Code

variable {w : ℕ} {γ δ α β : Type} {I : Machine w γ → Prop} {x : Code w γ α}

def Keeps (I : Machine w γ → Prop) (x : Code w γ α) : Prop :=
  ∀ s a t, I s → x.run s = .ok a t → I t

namespace Keeps

theorem pure (a : α) : Keeps I (Pure.pure a) := by
  intro s b t hs h
  rw [EStateM.run_pure, EStateM.Result.ok.injEq] at h
  exact h.2 ▸ hs

theorem bind {f : α → Code w γ β} (hx : Keeps I x) (hf : ∀ a, Keeps I (f a)) :
    Keeps I (x >>= f) := by
  intro s b u hs h
  obtain ⟨a, t, ht, hu⟩ := run_bind_eq_ok.1 h
  exact hf a t b u (hx s a t hs ht) hu

theorem get : Keeps I (MonadState.get : Code w γ (Machine w γ)) := by
  intro s a t hs h
  rw [EStateM.run_get, EStateM.Result.ok.injEq] at h
  exact h.2 ▸ hs

theorem throw (e : Stop) : Keeps I (MonadExcept.throw e : Code w γ α) :=
  fun _ _ _ _ h => absurd h (by simp)

theorem modifyGlobals {f : γ → γ} (hf : ∀ m g, I ⟨m, g⟩ → I ⟨m, f g⟩) :
    Keeps I (Code.modifyGlobals (w := w) f) := by
  intro s a t hs h
  rw [run_modifyGlobals, EStateM.Result.ok.injEq] at h
  exact h.2 ▸ hf s.mem s.globals hs

theorem ite {y : Code w γ α} {p : Prop} [Decidable p] (hx : Keeps I x)
    (hy : Keeps I y) : Keeps I (if p then x else y) := by
  split_ifs
  · exact hx
  · exact hy

theorem zoom {part : δ → γ} {put : δ → γ → δ} (hput : ∀ g a, part (put g a) = a)
    (hx : Keeps I x) :
    Keeps (fun s => I ⟨s.mem, part s.globals⟩) (Code.zoom part put x) := by
  intro s a t hs h
  obtain ⟨u, hu, rfl⟩ := run_zoom_eq_ok.1 h
  have hI := hx _ a u hs hu
  change I ⟨u.mem, part (put s.globals u.globals)⟩
  rwa [hput]

theorem forLoop {n : ℕ} {body : BitVec n → Code w γ Unit} {bound step : BitVec n}
    (hbody : ∀ i, Keeps I (body i)) (fuel : ℕ) (i : BitVec n) :
    Keeps I (Code.forLoop body bound step fuel i) :=
  fun _ _ _ hs h => forLoop_invariant I
    (fun i s t _ hs h => hbody i s () t hs h) hs h

end Keeps

end Code

end ByteMemory
