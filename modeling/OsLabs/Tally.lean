import Mathlib.Data.List.Basic

/-!
# OsLabs.Tally

Totals over a list of components, one of which moves.

A system of many threads keeps the state of each in a list; an invariant about how
many are at some place, or a measure of what is left to do, is a total over the list.
What a step does to it is what it does to the summand of the thread that moves
(`tally_set`, `countP_set_add`).
-/

namespace OsLabs

universe u

variable {α : Type u} {f g : α → Nat} {q : α → Bool} {l : List α} {i : Nat} {a b : α}

/-- The total of `f` over a list. -/
def tally (f : α → Nat) : List α → Nat
  | [] => 0
  | a :: l => f a + tally f l

@[simp] theorem tally_nil : tally f [] = 0 := rfl

@[simp] theorem tally_cons : tally f (a :: l) = f a + tally f l := rfl

@[simp] theorem tally_append_singleton : tally f (l ++ [a]) = tally f l + f a := by
  induction l with
  | nil => simp
  | cons b l ih => simp [ih, Nat.add_assoc]

/-- One component moves from `a` to `b`. -/
theorem tally_set (h : l[i]? = some a) : tally f (l.set i b) + f a = tally f l + f b := by
  induction l generalizing i with
  | nil => exact absurd h (by simp)
  | cons c l ih =>
      cases i with
      | zero =>
          obtain rfl : c = a := by simpa using h
          rw [List.set_cons_zero, tally_cons, tally_cons]
          omega
      | succ i =>
          have := ih (i := i) (by simpa using h)
          rw [List.set_cons_succ, tally_cons, tally_cons]
          omega

/-- Counting is a total. -/
theorem countP_eq_tally : l.countP q = tally (fun c => (q c).toNat) l := by
  induction l with
  | nil => rfl
  | cons c l ih =>
      rw [List.countP_cons, tally_cons, ih, Nat.add_comm]
      cases q c <;> rfl

theorem countP_set_add (h : l[i]? = some a) :
    (l.set i b).countP q + (q a).toNat = l.countP q + (q b).toNat := by
  rw [countP_eq_tally, countP_eq_tally]
  exact tally_set h

/-- If as many pass a test as pass a weaker one, those that pass the weaker one pass it. -/
theorem of_countP_eq {r : α → Bool} (hqr : ∀ c ∈ l, q c = true → r c = true)
    (h : l.countP q = l.countP r) : ∀ c ∈ l, r c = true → q c = true := by
  induction l with
  | nil => simp
  | cons d l ih =>
      have hle : l.countP q ≤ l.countP r :=
        List.countP_mono_left fun c hc => hqr c (List.mem_cons_of_mem _ hc)
      have hd : (q d).toNat ≤ (r d).toNat := by
        cases hq : q d with
        | false => exact Nat.zero_le _
        | true =>
            simp [hqr d List.mem_cons_self hq]
      rw [countP_eq_tally, countP_eq_tally, tally_cons, tally_cons, ← countP_eq_tally,
        ← countP_eq_tally] at h
      intro c hc hr
      rcases List.mem_cons.mp hc with rfl | hc
      · have : (q c).toNat = (r c).toNat := by omega
        rw [hr] at this
        cases hq : q c with
        | true => rfl
        | false => simp [hq] at this
      · exact ih (fun e he => hqr e (List.mem_cons_of_mem _ he)) (by omega) c hc hr

end OsLabs
