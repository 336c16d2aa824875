import OsLabs.Loop

/-!
# OsLabs.Fuel

Computations that may go on for ever. One is given by what it has computed with an amount
of fuel: `f fuel` is `none` where the fuel was not enough. It `Returns` a result when it has
that result with any fuel from some amount on, and `Diverges` when no amount is enough.

The rules put computations together: one after the other (`Returns.bind`), with a step more
(`Returns.succ`), and as the body of a counting loop (`Returns.loop`).
-/

namespace OsLabs

universe u v

variable {σ : Type u} {τ : Type v}

/-- With enough fuel the result is `r`. -/
def Returns (f : Nat → Option σ) (r : σ) : Prop := ∃ k, ∀ fuel, k ≤ fuel → f fuel = some r

/-- No fuel is enough. -/
def Diverges (f : Nat → Option σ) : Prop := ∀ fuel, f fuel = none

section
variable {f : Nat → Option σ} {r r' : σ}

/-- A result that is there stays there with more fuel. -/
def Steady (f : Nat → Option σ) : Prop := ∀ fuel r, f fuel = some r → f (fuel + 1) = some r

/-- Then a result with any fuel is the result. -/
theorem Returns.eq_of_steady {fuel : Nat} (hf : Steady f) (h : Returns f r)
    (hr : f fuel = some r') : r' = r := by
  obtain ⟨k, hk⟩ := h
  have hlater : ∀ m, f (fuel + m) = some r' := by
    intro m
    induction m with
    | zero => exact hr
    | succ m ih => exact hf _ _ ih
  exact Option.some.inj ((hlater k).symm.trans (hk _ (by omega)))

/-- A computation that has a result only when it is stuck afterwards. -/
theorem Diverges.bind {g : Nat → σ → Option τ} (h : ∀ fuel r, f fuel = some r → g fuel r = none) :
    Diverges fun fuel => (f fuel).bind (g fuel) := by
  intro fuel
  cases hf : f fuel with
  | none => simp only [hf, Option.bind_none]
  | some r => simp only [hf, Option.bind_some, h fuel r hf]

/-- What needs no fuel returns. -/
theorem Returns.const : Returns (fun _ => some r) r := ⟨0, fun _ _ => rfl⟩

/-- A step more. -/
theorem Returns.succ (h : Returns (fun fuel => f (fuel + 1)) r) : Returns f r := by
  obtain ⟨k, hk⟩ := h
  refine ⟨k + 1, fun fuel hle => ?_⟩
  obtain ⟨n, rfl⟩ : ∃ n, fuel = n + 1 := ⟨fuel - 1, by omega⟩
  exact hk n (by omega)

/-- One computation after another. -/
theorem Returns.bind {g : Nat → σ → Option τ} {t : τ} (h : Returns f r)
    (hg : Returns (fun fuel => g fuel r) t) : Returns (fun fuel => (f fuel).bind (g fuel)) t := by
  obtain ⟨k, hk⟩ := h
  obtain ⟨m, hm⟩ := hg
  refine ⟨max k m, fun fuel hle => ?_⟩
  simp only [hk fuel (by omega), Option.bind_some]
  exact hm fuel (by omega)

theorem Returns.map {g : σ → τ} (h : Returns f r) :
    Returns (fun fuel => (f fuel).map g) (g r) := by
  obtain ⟨k, hk⟩ := h
  refine ⟨k, fun fuel hle => ?_⟩
  simp only [hk fuel hle, Option.map_some]

end

section
variable {f : Nat → σ → Nat → Option σ} {s : σ} {n m : Nat} {I : Nat → σ → Prop}

/-- A loop returns when each round of it does, and keeps an invariant. -/
theorem Returns.loop (start : I 0 s)
    (step : ∀ k s, k < n → I k s →
      ∃ s', Returns (fun fuel => f fuel s k) s' ∧ I (k + 1) s') :
    ∃ s', Returns (fun fuel => OsLabs.loop (f fuel) n s) s' ∧ I n s' := by
  induction n with
  | zero => exact ⟨s, .const, start⟩
  | succ n ih =>
      obtain ⟨t, ht, hI⟩ := ih fun k s hk => step k s (Nat.lt_succ_of_lt hk)
      obtain ⟨s', hs', hI'⟩ := step n t (Nat.lt_succ_self n) hI
      exact ⟨s', ht.bind (g := fun fuel s => f fuel s n) hs', hI'⟩

/-- A loop does not return when a round of it does not. -/
theorem Diverges.loop (hm : m < n) (start : I 0 s)
    (step : ∀ fuel k s s', k < m → I k s → f fuel s k = some s' → I (k + 1) s')
    (stuck : ∀ s, I m s → Diverges fun fuel => f fuel s m) :
    Diverges fun fuel => OsLabs.loop (f fuel) n s := by
  intro fuel
  induction n with
  | zero => exact absurd hm (Nat.not_lt_zero m)
  | succ n ih =>
      rcases Nat.lt_succ_iff_lt_or_eq.mp hm with hlt | rfl
      · simp only [OsLabs.loop, ih hlt, Option.bind_none]
      · cases hs : OsLabs.loop (f fuel) m s with
        | none => simp only [OsLabs.loop, hs, Option.bind_none]
        | some t =>
            have hI := loop_partial start hs fun k s s' => step fuel k s s'
            simp only [OsLabs.loop, hs, Option.bind_some]
            exact stuck t hI fuel

end

end OsLabs
