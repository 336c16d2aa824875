import Mathlib.Data.List.Sort
import Mathlib.Order.Basic

/-!
# OsLabs.ExchangeSort

**Exchange sort by a key, largest first.** A pass of the inner loop (`sweep`)
holds one element against every later one and exchanges the two whenever the
later one has the larger key; the outer loop (`exchangeSort`) does this for every
position. The result is a permutation of the list in which the keys do not
increase.
-/

namespace OsLabs

universe u v

variable {α : Type u} {κ : Type v}

section
variable [LT κ] [DecidableLT κ] (key : α → κ)

/-- The inner loop: `p` against the list behind it. -/
def sweep (p : α) : List α → α × List α
  | [] => (p, [])
  | q :: qs =>
      if key p < key q then
        ((sweep q qs).1, p :: (sweep q qs).2)
      else
        ((sweep p qs).1, q :: (sweep p qs).2)

/-- The outer loop, `n` positions of it. -/
def exchangeLoop : Nat → List α → List α
  | 0, l => l
  | _ + 1, [] => []
  | n + 1, p :: ps => (sweep key p ps).1 :: exchangeLoop n (sweep key p ps).2

/-- Sort a list. -/
def exchangeSort (l : List α) : List α := exchangeLoop key l.length l

end

variable [LinearOrder κ] {key : α → κ} {p : α} {l : List α} {n : Nat}

theorem sweep_perm : ((sweep key p l).1 :: (sweep key p l).2).Perm (p :: l) := by
  induction l generalizing p with
  | nil => exact .refl _
  | cons q qs ih =>
      rw [sweep]
      split
      · exact (List.Perm.swap _ _ _).trans (ih.cons p)
      · exact ((List.Perm.swap _ _ _).trans (ih.cons q)).trans (List.Perm.swap _ _ _)

theorem sweep_length : (sweep key p l).2.length = l.length := by
  have h : ((sweep key p l).1 :: (sweep key p l).2).length = (p :: l).length :=
    sweep_perm.length_eq
  exact Nat.succ.inj h

/-- The element that is held at the end has the largest key. -/
theorem le_sweep : ∀ x ∈ p :: l, key x ≤ key (sweep key p l).1 := by
  induction l generalizing p with
  | nil => simp [sweep]
  | cons q qs ih =>
      intro x hx
      rw [sweep]
      split
      · next hlt =>
        have hq := ih (p := q) q List.mem_cons_self
        rcases List.mem_cons.mp hx with rfl | hx
        · exact hlt.le.trans hq
        · exact ih x hx
      · next hle =>
        have hp := ih (p := p) p List.mem_cons_self
        rcases List.mem_cons.mp hx with rfl | hx
        · exact hp
        · rcases List.mem_cons.mp hx with rfl | hx
          · exact (not_lt.mp hle).trans hp
          · exact ih x (List.mem_cons_of_mem _ hx)

theorem exchangeLoop_perm : (exchangeLoop key n l).Perm l := by
  induction n generalizing l with
  | zero => exact .refl _
  | succ n ih =>
      cases l with
      | nil => exact .refl _
      | cons p ps => exact (ih.cons _).trans sweep_perm

theorem exchangeLoop_sorted (h : l.length ≤ n) :
    (exchangeLoop key n l).Pairwise fun x y => key y ≤ key x := by
  induction n generalizing l with
  | zero =>
      obtain rfl : l = [] := List.length_eq_zero_iff.mp (Nat.le_zero.mp h)
      exact .nil
  | succ n ih =>
      cases l with
      | nil => exact .nil
      | cons p ps =>
          rw [exchangeLoop, List.pairwise_cons]
          refine ⟨?_, ?_⟩
          · intro x hx
            have hmem : x ∈ (sweep key p ps).1 :: (sweep key p ps).2 :=
              List.mem_cons_of_mem _ (exchangeLoop_perm.mem_iff.mp hx)
            exact le_sweep x (sweep_perm.mem_iff.mp hmem)
          · refine ih ?_
            rw [sweep_length]
            exact Nat.le_of_succ_le_succ h

/-- Nothing is lost or duplicated. -/
theorem exchangeSort_perm : (exchangeSort key l).Perm l := exchangeLoop_perm

/-- The keys do not increase. -/
theorem exchangeSort_sorted : (exchangeSort key l).Pairwise fun x y => key y ≤ key x :=
  exchangeLoop_sorted le_rfl

end OsLabs
