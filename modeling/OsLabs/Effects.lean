import Mathlib.Logic.Basic

/-!
# OsLabs.Effects

**Code that calls an environment, and may leave by an exit.** A function that consists of
calls of other code is a `Code`: it has a state, and ends with a value or by an exit, the
`goto` to a label. `Triple P x Q E` says that from a state where `P` holds `x` ends with a
value and in a state that `Q` allows, or with an exit and in a state that `E` allows.

The code that is called is an `Environment` with a state that only it knows. A `Machine`
holds that state, the memory of the caller, and the history of the calls with their
results. A `Protocol` says in which state of its own it allows which call; so that a
function keeps a protocol is a property of its history (`At`), and has one rule for each
call (`Triple.call_at`), whatever the environment answers.
-/

namespace OsLabs.Effects

universe u

/-- Code with the state `σ` that ends with a value, or by an exit. -/
abbrev Code (ε σ α : Type u) := ExceptT ε (StateM σ) α

variable {ε σ α β : Type u}

/-- What the code does with a state. -/
def Code.exec (x : Code ε σ α) (s : σ) : Except ε α × σ := x.run.run s

/-- From where `P` holds, the code ends where `Q` holds, or by an exit where `E` holds. -/
def Triple (P : σ → Prop) (x : Code ε σ α) (Q : α → σ → Prop) (E : ε → σ → Prop) : Prop :=
  ∀ s, P s → match x.exec s with
    | (.ok a, s') => Q a s'
    | (.error e, s') => E e s'

section
variable {P P' : σ → Prop} {Q Q' : α → σ → Prop} {E E' : ε → σ → Prop} {R : β → σ → Prop}
variable {R' : σ → σ → Prop}
variable {x : Code ε σ α} {f : α → Code ε σ β} {s s' : σ} {a : α} {e : ε}

/-- What the code ended with. -/
theorem Triple.ok (h : Triple P x Q E) (hs : P s) (hx : x.exec s = (.ok a, s')) : Q a s' := by
  have := h s hs
  rwa [hx] at this

theorem Triple.error (h : Triple P x Q E) (hs : P s) (hx : x.exec s = (.error e, s')) :
    E e s' := by
  have := h s hs
  rwa [hx] at this

/-- Code that leaves by no exit ends with a value. -/
theorem Triple.total (h : Triple P x Q fun _ _ => False) (hs : P s) :
    ∃ a s', x.exec s = (.ok a, s') ∧ Q a s' := by
  have hx := h s hs
  rcases hr : x.exec s with ⟨r, s'⟩
  rw [hr] at hx
  cases r with
  | ok a => exact ⟨a, s', rfl, hx⟩
  | error e => exact absurd hx id

theorem Triple.weaken (h : Triple P x Q E) (hP : ∀ s, P' s → P s) (hQ : ∀ a s, Q a s → Q' a s)
    (hE : ∀ e s, E e s → E' e s) : Triple P' x Q' E' := by
  intro s hs
  have hx := h s (hP s hs)
  rcases hr : x.exec s with ⟨r, s'⟩
  rw [hr] at hx
  cases r with
  | ok a => exact hQ a s' hx
  | error e => exact hE e s' hx

/-- A part of the precondition that is not about the state. -/
theorem Triple.pull {φ : Prop} (h : φ → Triple P x Q E) : Triple (fun s => P s ∧ φ) x Q E := by
  rintro s ⟨hs, hφ⟩
  exact h hφ s hs

/-- What is known of some value, whichever it is. -/
theorem Triple.of_exists {ι : Sort*} {P : ι → σ → Prop} (h : ∀ i, Triple (P i) x Q E) :
    Triple (fun s => ∃ i, P i s) x Q E := by
  rintro s ⟨i, hi⟩
  exact h i s hi

theorem Triple.pure (h : ∀ s, P s → Q a s) : Triple P (Pure.pure a : Code ε σ α) Q E := h

theorem Triple.throw (h : ∀ s, P s → E e s) : Triple P (throw e : Code ε σ α) Q E := h

theorem Code.exec_bind : Code.exec (x >>= f) s = match Code.exec x s with
    | (.ok a, s') => Code.exec (f a) s'
    | (.error e, s') => (.error e, s') := by
  rcases hr : Code.exec x s with ⟨r, s'⟩
  change x s = (r, s') at hr
  show ExceptT.bind x f s = _
  simp only [ExceptT.bind, ExceptT.mk, bind, StateT.bind, hr]
  cases r <;> rfl

theorem Code.exec_tryCatch {y : ε → Code ε σ α} :
    Code.exec (tryCatch x y) s = match Code.exec x s with
      | (.ok a, s') => (.ok a, s')
      | (.error e, s') => Code.exec (y e) s' := by
  rcases hr : Code.exec x s with ⟨r, s'⟩
  change x s = (r, s') at hr
  show ExceptT.tryCatch x y s = _
  simp only [ExceptT.tryCatch, ExceptT.mk, bind, StateT.bind, hr]
  cases r <;> rfl

theorem Triple.get (h : ∀ s, P s → R' s s) : Triple P (get : Code ε σ σ) R' E := h

theorem Triple.modify {g : σ → σ} {R : PUnit.{u + 1} → σ → Prop}
    (h : ∀ s, P s → R ⟨⟩ (g s)) : Triple P (modify g : Code ε σ PUnit) R E := h

/-- One after the other. -/
theorem Triple.bind (hx : Triple P x Q E) (hf : ∀ a, Triple (Q a) (f a) R E) :
    Triple P (x >>= f) R E := by
  intro s hs
  have h := hx s hs
  rw [Code.exec_bind]
  rcases hr : x.exec s with ⟨r, s'⟩
  rw [hr] at h
  cases r with
  | ok a => exact hf a s' h
  | error e => exact h

/-- Code that is run if there is a value for it. -/
theorem Triple.forM {o : Option β} {g : β → Code ε σ PUnit} {R : PUnit.{u + 1} → σ → Prop}
    (hnone : o = none → ∀ s, P s → R ⟨⟩ s) (hsome : ∀ b, o = some b → Triple P (g b) R E) :
    Triple P (o.forM g) R E := by
  cases o with
  | none => exact Triple.pure (hnone rfl)
  | some b => exact hsome b rfl

/-- The code at the label of the exits. -/
theorem Triple.catch {y : ε → Code ε σ α} (hx : Triple P x Q E')
    (hy : ∀ e, Triple (E' e) (y e) Q E) : Triple P (tryCatch x y) Q E := by
  intro s hs
  have h := hx s hs
  rw [Code.exec_tryCatch]
  rcases hr : x.exec s with ⟨r, s'⟩
  rw [hr] at h
  cases r with
  | ok a => exact h
  | error e => exact hy e s' h

theorem Triple.ite {c : Prop} [Decidable c] {y : Code ε σ α}
    (hx : c → Triple P x Q E) (hy : ¬ c → Triple P y Q E) :
    Triple P (if c then x else y) Q E := by
  split
  · next hc => exact hx hc
  · next hc => exact hy hc

end

/-! ### The environment -/

variable {Op : Type u} {Result : Op → Type u} {μ : Type u}

/-- Code that is called: it answers an operation, and changes its own state. -/
abbrev Environment (Result : Op → Type u) (σ : Type u) := (op : Op) → σ → Result op × σ

/-- A call that was made. -/
structure Event (Result : Op → Type u) where
  op : Op
  result : Result op

/-- The state of the environment, the memory of the caller, and the calls so far. -/
structure Machine (Result : Op → Type u) (σ μ : Type u) where
  env : σ
  mem : μ
  history : List (Event Result)

/-- The machine after a call. -/
def Machine.answered (k : Environment Result σ) (op : Op) (m : Machine Result σ μ) :
    Machine Result σ μ :=
  { env := (k op m.env).2, mem := m.mem, history := m.history ++ [⟨op, (k op m.env).1⟩] }

/-- Call the environment. -/
def call (k : Environment Result σ) (op : Op) : Code ε (Machine Result σ μ) (Result op) :=
  fun m => (.ok (k op m.env).1, m.answered k op)

/-- A protocol: where a call with a result leads from a state of it, if it is allowed. -/
abbrev Protocol (Result : Op → Type u) (St : Type u) := St → (op : Op) → Result op → Option St

section
variable {St : Type u} (step : Protocol Result St)

/-- Where a history leads. -/
def Protocol.follow (start : St) (history : List (Event Result)) : Option St :=
  history.foldlM (fun st e => step st e.op e.result) start

/-- The history is allowed, and leads to `st`. -/
def At (start st : St) (m : Machine Result σ μ) : Prop :=
  Protocol.follow step start m.history = some st

variable {step} {k : Environment Result σ} {op : Op} {start st : St} {m : Machine Result σ μ}

theorem At.answered {st' : St} (h : At step start st m)
    (hs : step st op (k op m.env).1 = some st') : At step start st' (m.answered k op) := by
  rw [At, Protocol.follow] at h ⊢
  rw [Machine.answered, List.foldlM_append, h]
  simpa using hs

theorem Triple.call {P : Machine Result σ μ → Prop} {Q : Result op → Machine Result σ μ → Prop}
    {E : ε → Machine Result σ μ → Prop}
    (h : ∀ m, P m → Q (k op m.env).1 (m.answered k op)) : Triple P (call k op) Q E := h

end

end OsLabs.Effects
