import OptimistOS.Foundation.Bytes

/-!
# Code over a machine

A `Machine w γ` is a byte memory together with the global variables `γ` of the
code that runs on it. `Code w γ α` is such code: it returns a value in a new
machine, or it stops for one of four reasons and keeps the machine it stopped
in. `zoom` runs code that knows only a part of the globals. The lemmas take a
finished run of a sequence apart into finished runs of its steps, and put such
runs together (`Returns`). `final` is the machine at the end of any run.
-/

namespace ByteMemory

/-- Why code stopped without returning. -/
inductive Stop
  /-- The processor was halted. -/
  | halt
  /-- A null pointer was dereferenced. -/
  | null
  /-- The processor refused an access to memory. -/
  | fault
  /-- A loop used up the number of iterations it was given. -/
  | fuel
  deriving DecidableEq, Repr

/-- A memory and the global variables of the code that runs on it. -/
structure Machine (w : ℕ) (γ : Type) where
  mem : Mem w
  globals : γ

abbrev Code (w : ℕ) (γ : Type) (α : Type) := EStateM Stop (Machine w γ) α

namespace Code

def modifyGlobals {w : ℕ} {γ : Type} (f : γ → γ) : Code w γ Unit :=
  modify fun s => { s with globals := f s.globals }

def modifyMem {w : ℕ} {γ : Type} (f : Mem w → Mem w) : Code w γ Unit :=
  modify fun s => { s with mem := f s.mem }

def zoom {w : ℕ} {γ δ α : Type} (part : δ → γ) (put : δ → γ → δ)
    (x : Code w γ α) : Code w δ α := fun s =>
  match x ⟨s.mem, part s.globals⟩ with
  | .ok a t => .ok a ⟨t.mem, put s.globals t.globals⟩
  | .error e t => .error e ⟨t.mem, put s.globals t.globals⟩

@[simp] theorem run_modifyGlobals {w : ℕ} {γ : Type} (f : γ → γ)
    (s : Machine w γ) :
    (modifyGlobals f).run s = .ok () { s with globals := f s.globals } := rfl

@[simp] theorem run_modifyMem {w : ℕ} {γ : Type} (f : Mem w → Mem w)
    (s : Machine w γ) :
    (modifyMem f).run s = .ok () { s with mem := f s.mem } := rfl

@[simp] theorem run_throw {w : ℕ} {γ α : Type} (e : Stop) (s : Machine w γ) :
    (throw e : Code w γ α).run s = .error e s := rfl

theorem run_bind_of_ok {w : ℕ} {γ α β : Type} {x : Code w γ α}
    {f : α → Code w γ β} {s t : Machine w γ} {a : α} (h : x.run s = .ok a t) :
    (x >>= f).run s = (f a).run t := by
  rw [EStateM.run_bind, h]

theorem run_bind_of_error {w : ℕ} {γ α β : Type} {x : Code w γ α}
    {f : α → Code w γ β} {s t : Machine w γ} {e : Stop}
    (h : x.run s = .error e t) : (x >>= f).run s = .error e t := by
  rw [EStateM.run_bind, h]

/-- A sequence returns exactly when its first part returns and its second part
returns from there. -/
theorem run_bind_eq_ok {w : ℕ} {γ α β : Type} {x : Code w γ α}
    {f : α → Code w γ β} {s u : Machine w γ} {b : β} :
    (x >>= f).run s = .ok b u ↔
      ∃ a t, x.run s = .ok a t ∧ (f a).run t = .ok b u := by
  rw [EStateM.run_bind]
  cases h : x.run s with
  | ok a t => simp
  | error e t => simp

theorem run_zoom_of_ok {w : ℕ} {γ δ α : Type} {part : δ → γ} {put : δ → γ → δ}
    {x : Code w γ α} {s : Machine w δ} {a : α} {t : Machine w γ}
    (h : x.run ⟨s.mem, part s.globals⟩ = .ok a t) :
    (zoom part put x).run s = .ok a ⟨t.mem, put s.globals t.globals⟩ := by
  change x ⟨s.mem, part s.globals⟩ = _ at h
  change (match x ⟨s.mem, part s.globals⟩ with
    | .ok a t => _
    | .error e t => _) = _
  rw [h]

theorem run_zoom_of_error {w : ℕ} {γ δ α : Type} {part : δ → γ}
    {put : δ → γ → δ} {x : Code w γ α} {s : Machine w δ} {e : Stop}
    {t : Machine w γ} (h : x.run ⟨s.mem, part s.globals⟩ = .error e t) :
    (zoom part put x).run s = .error e ⟨t.mem, put s.globals t.globals⟩ := by
  change x ⟨s.mem, part s.globals⟩ = _ at h
  change (match x ⟨s.mem, part s.globals⟩ with
    | .ok a t => _
    | .error e t => _) = _
  rw [h]

theorem run_zoom_eq_ok {w : ℕ} {γ δ α : Type} {part : δ → γ} {put : δ → γ → δ}
    {x : Code w γ α} {s u : Machine w δ} {a : α} :
    (zoom part put x).run s = .ok a u ↔
      ∃ t, x.run ⟨s.mem, part s.globals⟩ = .ok a t ∧
        u = ⟨t.mem, put s.globals t.globals⟩ := by
  constructor
  · intro h
    change (match x ⟨s.mem, part s.globals⟩ with
      | .ok a t => _
      | .error e t => _) = _ at h
    cases hx : x ⟨s.mem, part s.globals⟩ with
    | ok b t =>
        rw [hx] at h
        simp only [EStateM.Result.ok.injEq] at h
        obtain ⟨rfl, rfl⟩ := h
        exact ⟨t, hx, rfl⟩
    | error e t =>
        rw [hx] at h
        exact absurd h (by simp)
  · rintro ⟨t, h, rfl⟩
    exact run_zoom_of_ok h

/-- The machine in which a run ends, by a return or by a stop. -/
def final {w : ℕ} {γ α : Type} (x : Code w γ α) (s : Machine w γ) :
    Machine w γ :=
  match x.run s with
  | .ok _ t => t
  | .error _ t => t

theorem final_of_ok {w : ℕ} {γ α : Type} {x : Code w γ α} {s t : Machine w γ}
    {a : α} (h : x.run s = .ok a t) : x.final s = t := by
  rw [final, h]

theorem final_of_error {w : ℕ} {γ α : Type} {x : Code w γ α}
    {s t : Machine w γ} {e : Stop} (h : x.run s = .error e t) :
    x.final s = t := by
  rw [final, h]

theorem final_bind_of_ok {w : ℕ} {γ α β : Type} {x : Code w γ α}
    {f : α → Code w γ β} {s t : Machine w γ} {a : α} (h : x.run s = .ok a t) :
    (x >>= f).final s = (f a).final t := by
  rw [final, final, run_bind_of_ok h]

theorem final_bind_of_error {w : ℕ} {γ α β : Type} {x : Code w γ α}
    {f : α → Code w γ β} {s t : Machine w γ} {e : Stop}
    (h : x.run s = .error e t) : (x >>= f).final s = t :=
  final_of_error (run_bind_of_error h)

/-- Started in `s`, the code returns a value and a machine that are related by
`Q`, unless `excuse` holds and it stops. -/
def Returns {w : ℕ} {γ α : Type} (x : Code w γ α) (s : Machine w γ)
    (excuse : Prop) (Q : α → Machine w γ → Prop) : Prop :=
  (∃ a t, x.run s = .ok a t ∧ Q a t) ∨ excuse ∧ ∃ e t, x.run s = .error e t

namespace Returns

variable {w : ℕ} {γ α β : Type} {x : Code w γ α} {s : Machine w γ}
  {excuse excuse' : Prop} {Q : α → Machine w γ → Prop}

theorem of_ok {a : α} {t : Machine w γ} (h : x.run s = .ok a t) (hQ : Q a t) :
    x.Returns s excuse Q :=
  Or.inl ⟨a, t, h, hQ⟩

theorem mono {Q' : α → Machine w γ → Prop} (h : x.Returns s excuse Q)
    (hexcuse : excuse → excuse') (hQ : ∀ a t, Q a t → Q' a t) :
    x.Returns s excuse' Q' := by
  rcases h with ⟨a, t, hrun, ha⟩ | ⟨he, e, t, hrun⟩
  · exact Or.inl ⟨a, t, hrun, hQ a t ha⟩
  · exact Or.inr ⟨hexcuse he, e, t, hrun⟩

theorem bind {f : α → Code w γ β} {R : β → Machine w γ → Prop}
    (h : x.Returns s excuse Q)
    (hf : ∀ a t, Q a t → (f a).Returns t excuse R) :
    (x >>= f).Returns s excuse R := by
  rcases h with ⟨a, t, hrun, ha⟩ | ⟨he, e, t, hrun⟩
  · have hfa := hf a t ha
    rwa [Returns, run_bind_of_ok hrun]
  · exact Or.inr ⟨he, e, t, run_bind_of_error hrun⟩

theorem bind_of_ok {f : α → Code w γ β} {R : β → Machine w γ → Prop} {a : α}
    {t : Machine w γ} (h : x.run s = .ok a t)
    (hf : (f a).Returns t excuse R) : (x >>= f).Returns s excuse R := by
  rwa [Returns, run_bind_of_ok h]

theorem zoom {δ : Type} {part : δ → γ} {put : δ → γ → δ} {s : Machine w δ}
    (h : x.Returns ⟨s.mem, part s.globals⟩ excuse Q) :
    (Code.zoom part put x).Returns s excuse fun a t =>
      ∃ u, Q a u ∧ t = ⟨u.mem, put s.globals u.globals⟩ := by
  rcases h with ⟨a, u, hrun, hQ⟩ | ⟨he, e, u, hrun⟩
  · exact Or.inl ⟨a, _, run_zoom_of_ok hrun, u, hQ, rfl⟩
  · exact Or.inr ⟨he, e, _, run_zoom_of_error hrun⟩

theorem of_run {a : α} {t : Machine w γ} (h : x.Returns s excuse Q)
    (hrun : x.run s = .ok a t) : Q a t := by
  rcases h with ⟨b, u, hok, hQ⟩ | ⟨-, e, u, herror⟩
  · rw [hrun, EStateM.Result.ok.injEq] at hok
    obtain ⟨rfl, rfl⟩ := hok
    exact hQ
  · rw [hrun] at herror
    exact absurd herror (by simp)

theorem exists_run (h : x.Returns s excuse Q) (hnot : ¬ excuse) :
    ∃ a t, x.run s = .ok a t ∧ Q a t :=
  h.resolve_right fun hexcuse => hnot hexcuse.1

end Returns

end Code

end ByteMemory
