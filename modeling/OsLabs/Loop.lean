import Mathlib.Data.List.Basic

/-!
# OsLabs.Loop

Counting loops whose body may fail: `for (k = 0; k < n; k++) s = body(s, k)`.

An invariant is indexed by the number of rounds done. `loop_total` is the rule for a
body that does not fail, `loop_partial` the one for a loop that is known to have ended,
and `loop_simulates` the one for a loop that goes where another has gone.
-/

namespace OsLabs

universe u v

variable {σ : Type u} {body : σ → Nat → Option σ} {s s' : σ} {n : Nat} {I : Nat → σ → Prop}

/-- The state after `n` rounds; `none` where one of them fails. -/
def loop (body : σ → Nat → Option σ) : Nat → σ → Option σ
  | 0, s => some s
  | n + 1, s => (loop body n s).bind fun s => body s n

/-- When each round keeps the invariant and does not fail, the loop ends with it. -/
theorem loop_total (start : I 0 s)
    (step : ∀ k s, k < n → I k s → ∃ s', body s k = some s' ∧ I (k + 1) s') :
    ∃ s', loop body n s = some s' ∧ I n s' := by
  induction n with
  | zero => exact ⟨s, rfl, start⟩
  | succ n ih =>
      obtain ⟨t, ht, hI⟩ := ih fun k s hk => step k s (Nat.lt_succ_of_lt hk)
      obtain ⟨s', hs', hI'⟩ := step n t (Nat.lt_succ_self n) hI
      exact ⟨s', by rw [loop, ht, Option.bind_some, hs'], hI'⟩

/-- When each round that does not fail keeps the invariant, the loop ends with it if it
ends at all. -/
theorem loop_partial (start : I 0 s) (hs : loop body n s = some s')
    (step : ∀ k s s', k < n → I k s → body s k = some s' → I (k + 1) s') : I n s' := by
  induction n generalizing s' with
  | zero =>
      obtain rfl := Option.some.inj hs
      exact start
  | succ n ih =>
      obtain ⟨t, ht, hbody⟩ := Option.bind_eq_some_iff.mp hs
      have hI := ih ht fun k s s' hk => step k s s' (Nat.lt_succ_of_lt hk)
      exact step n t s' (Nat.lt_succ_self n) hI hbody

/-- When each round of a loop has its like in another, that one ends where the first
does. -/
theorem loop_simulates {τ : Type v} {body' : τ → Nat → Option τ} {t : τ}
    {I : Nat → σ → τ → Prop} (start : I 0 s t) (hs : loop body n s = some s')
    (step : ∀ k s s' t, k < n → I k s t → body s k = some s' →
      ∃ t', body' t k = some t' ∧ I (k + 1) s' t') :
    ∃ t', loop body' n t = some t' ∧ I n s' t' := by
  induction n generalizing s' with
  | zero =>
      obtain rfl := Option.some.inj hs
      exact ⟨t, rfl, start⟩
  | succ n ih =>
      obtain ⟨r, hr, hbody⟩ := Option.bind_eq_some_iff.mp hs
      obtain ⟨u, hu, hI⟩ := ih hr fun k s s' t hk => step k s s' t (Nat.lt_succ_of_lt hk)
      obtain ⟨t', ht', hI'⟩ := step n r s' u (Nat.lt_succ_self n) hI hbody
      exact ⟨t', by rw [loop, hu, Option.bind_some, ht'], hI'⟩

end OsLabs
