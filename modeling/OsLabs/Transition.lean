import Mathlib.Logic.Basic

/-!
# OsLabs.Transition

**Labelled transition systems and their guarded runs.** Every concurrent or
stack-switching program of this development is given a semantics as a
`System`: a set of initial states and a labelled step relation. The label says
who moves, or what the environment chose (a random draw, the next thread).

A run is *guarded* by a predicate on the steps it takes. Reachability is the
run with the trivial guard; a run whose guard excludes the steps that reach a
defect is the natural shape of "the code is right as long as …". Both come with
the one induction everything else uses, `Run.invariant`: what holds initially
and survives every guarded step holds in every state of a guarded run.
-/

namespace OsLabs

universe u v

/-- A labelled transition system: initial states and labelled steps. -/
structure System (State : Type u) (Label : Type v) where
  /-- The states a run may start in. -/
  init : State → Prop
  /-- `step s l s'`: from `s`, the choice `l` leads to `s'`. -/
  step : State → Label → State → Prop

namespace System

variable {State : Type u} {Label : Type v}

/-- The states of a run all of whose steps meet the guard `ok`. -/
inductive Run (M : System State Label) (ok : State → Label → Prop) : State → Prop
  /-- An initial state. -/
  | init {s : State} : M.init s → Run M ok s
  /-- One more step, taken where the guard allows it. -/
  | step {s : State} {l : Label} {s' : State} :
      Run M ok s → ok s l → M.step s l s' → Run M ok s'

/-- Reachability: a run with no guard. -/
def Reachable (M : System State Label) (s : State) : Prop :=
  M.Run (fun _ _ => True) s

/-- `I` holds initially and survives every step that meets the guard. -/
structure Invariant (M : System State Label) (ok : State → Label → Prop)
    (I : State → Prop) : Prop where
  /-- The invariant holds where a run starts. -/
  init : ∀ s, M.init s → I s
  /-- A guarded step keeps the invariant. -/
  step : ∀ s l s', I s → ok s l → M.step s l s' → I s'

variable {M : System State Label} {ok : State → Label → Prop} {s s' : State} {l : Label}

/-- The invariant rule. -/
theorem Run.invariant {I : State → Prop} (hI : M.Invariant ok I) (h : M.Run ok s) : I s := by
  induction h with
  | init h0 => exact hI.init _ h0
  | step _ hok hstep ih => exact hI.step _ _ _ ih hok hstep

theorem Reachable.init (h : M.init s) : M.Reachable s := Run.init h

theorem Reachable.step (h : M.Reachable s) (hs : M.step s l s') : M.Reachable s' :=
  Run.step h trivial hs

/-- An invariant may be proved relative to one that is already known. -/
theorem Invariant.and {I J : State → Prop} (hI : M.Invariant ok I)
    (init : ∀ s, M.init s → J s)
    (step : ∀ s l s', I s → J s → ok s l → M.step s l s' → J s') :
    M.Invariant ok fun s => I s ∧ J s where
  init s h0 := ⟨hI.init s h0, init s h0⟩
  step s l s' h hok hs := ⟨hI.step s l s' h.1 hok hs, step s l s' h.1 h.2 hok hs⟩

/-- `s'` is where some steps from `s` lead. -/
inductive Steps (M : System State Label) (s : State) : State → Prop
  | refl : Steps M s s
  | step {t : State} {l : Label} {t' : State} : Steps M s t → M.step t l t' → Steps M s t'

/-- What holds where the steps start, and survives each of them, holds where they lead. -/
theorem Steps.invariant {I : State → Prop} (h : M.Steps s s') (start : I s)
    (step : ∀ t l t', I t → M.step t l t' → I t') : I s' := by
  induction h with
  | refl => exact start
  | step _ hs ih => exact step _ _ _ ih hs

/-- Where a list of labels leads, when `next` computes the steps. -/
def follow (next : State → Label → Option State) : List Label → State → Option State
  | [], s => some s
  | l :: ls, s => (next s l).bind (follow next ls)

/-- Following computed steps prolongs a run. -/
theorem Run.follow {next : State → Label → Option State}
    (hnext : ∀ s l s', next s l = some s' → ok s l ∧ M.step s l s') {ls : List Label}
    (hr : M.Run ok s) (h : System.follow next ls s = some s') : M.Run ok s' := by
  induction ls generalizing s with
  | nil =>
      obtain rfl := Option.some.inj h
      exact hr
  | cons l ls ih =>
      obtain ⟨t, ht, h⟩ := Option.bind_eq_some_iff.mp h
      obtain ⟨hok, hs⟩ := hnext s l t ht
      exact ih (hr.step hok hs) h

/-- A state no step leaves. -/
def Final (M : System State Label) (s : State) : Prop := ∀ l s', ¬ M.step s l s'

/-- When every step lowers a measure, no run goes on for ever. -/
theorem not_forever (μ : State → Nat) (hμ : ∀ s l s', M.step s l s' → μ s' < μ s)
    (run : Nat → State) : ¬ ∀ n, ∃ l, M.step (run n) l (run (n + 1)) := by
  intro h
  have hbound : ∀ n, μ (run n) + n ≤ μ (run 0) := by
    intro n
    induction n with
    | zero => exact Nat.le_refl _
    | succ n ih =>
        obtain ⟨l, hl⟩ := h n
        have := hμ _ _ _ hl
        omega
  have := hbound (μ (run 0) + 1)
  omega

end System

end OsLabs
