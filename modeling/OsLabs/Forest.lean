import Mathlib.Data.Set.Card
import Mathlib.Logic.Relation

/-!
# OsLabs.Forest

Forests, given by the relation `R p j` that `p` is the parent of `j`. A child has one
parent (`Relator.LeftUnique R`), and that is all: nothing is said about the order of the
children, and a node may be below itself.

Where it is not, a node has one ancestor more than its parent
(`ncard_ancestors_child`). A cycle can only be entered from above if one is on it
already (`transGen_of_below`), so as long as a node is not below itself there is a
recursion over the nodes below it (`below_induction`).
-/

namespace OsLabs

open Relation

universe u

variable {α : Type u} {R : α → α → Prop} {a p q j x : α}

/-- The nodes above `j`. -/
def ancestors (R : α → α → Prop) (j : α) : Set α := {i | TransGen R i j}

/-- No node is above itself. -/
def Acyclic (R : α → α → Prop) : Prop := ∀ a, ¬ TransGen R a a

/-- Where something grows from parent to child, there are no cycles. -/
theorem acyclic_of_rank {f : α → Nat} (h : ∀ p j, R p j → f p < f j) : Acyclic R := by
  intro a ha
  have hlt : ∀ b, TransGen R a b → f a < f b := by
    intro b hb
    induction hb with
    | single hab => exact h _ _ hab
    | tail _ hbc ih => exact Nat.lt_trans ih (h _ _ hbc)
  exact Nat.lt_irrefl _ (hlt a ha)

/-! ### Counting ancestors -/

theorem ancestors_root (h : ∀ p, ¬ R p j) : ancestors R j = ∅ := by
  refine Set.eq_empty_of_forall_notMem fun i hi => ?_
  obtain ⟨p, -, hp⟩ := TransGen.tail'_iff.mp hi
  exact h p hp

theorem ancestors_child (hR : Relator.LeftUnique R) (h : R p j) :
    ancestors R j = insert p (ancestors R p) := by
  ext i
  rw [Set.mem_insert_iff]
  refine ⟨?_, ?_⟩
  · intro hi
    obtain ⟨p', hip, hp'⟩ := TransGen.tail'_iff.mp hi
    obtain rfl := hR h hp'
    exact (reflTransGen_iff_eq_or_transGen.mp hip).imp_left Eq.symm
  · intro hi
    rcases hi with rfl | hi
    · exact .single h
    · exact TransGen.tail hi h

theorem ncard_ancestors_root (h : ∀ p, ¬ R p j) : (ancestors R j).ncard = 0 := by
  rw [ancestors_root h, Set.ncard_empty]

theorem ncard_ancestors_child (hR : Relator.LeftUnique R) (hac : Acyclic R)
    (hfin : (ancestors R p).Finite) (h : R p j) :
    (ancestors R j).ncard = (ancestors R p).ncard + 1 := by
  have hp : p ∉ ancestors R p := hac p
  rw [ancestors_child hR h, Set.ncard_insert_of_notMem hp hfin]

/-! ### Going down -/

/-- A node that is below itself has all that is above it below itself. -/
theorem transGen_of_below (hR : Relator.LeftUnique R) (hax : ReflTransGen R a x)
    (hx : TransGen R x x) : TransGen R a a := by
  induction hax with
  | refl => exact hx
  | tail _ hbc ih =>
      obtain ⟨d, hcd, hdc⟩ := TransGen.tail'_iff.mp hx
      obtain rfl := hR hbc hdc
      exact ih (TransGen.head' hbc hcd)

/-- What holds of a node if it holds of its children holds of a node that is not below
itself, when it has finitely many nodes below it. -/
theorem below_induction {P : α → Prop} (hR : Relator.LeftUnique R)
    (hfin : {y | TransGen R a y}.Finite) (ha : ¬ TransGen R a a)
    (step : ∀ x, (∀ y, R x y → P y) → P x) : P a := by
  obtain ⟨n, hn⟩ : ∃ n, {y | TransGen R a y}.ncard = n := ⟨_, rfl⟩
  induction n using Nat.strongRecOn generalizing a with
  | ind n ih =>
      refine step a fun y hay => ?_
      have hsub : {z | TransGen R y z} ⊆ {z | TransGen R a z} := fun z hyz => .head hay hyz
      have hy : ¬ TransGen R y y := fun hyy => ha (transGen_of_below hR (.single hay) hyy)
      have hlt : {z | TransGen R y z}.ncard < n := by
        rw [← hn]
        exact Set.ncard_lt_ncard ⟨hsub, fun hsup => hy (hsup (.single hay))⟩ hfin
      exact ih _ hlt (hfin.subset hsub) hy rfl

/-! ### Going up -/

/-- What holds of a node if it holds of those it is a child of holds of a node that has no
cycle above it, when it has finitely many nodes above it. -/
theorem above_induction {P : α → Prop} (hfin : (ancestors R a).Finite)
    (ha : ∀ b, ReflTransGen R b a → ¬ TransGen R b b)
    (step : ∀ x, (∀ y, R y x → P y) → P x) : P a := by
  obtain ⟨n, hn⟩ : ∃ n, (ancestors R a).ncard = n := ⟨_, rfl⟩
  induction n using Nat.strongRecOn generalizing a with
  | ind n ih =>
      refine step a fun y hya => ?_
      have hsub : ancestors R y ⊆ ancestors R a := fun z hzy => TransGen.tail hzy hya
      have hy : ¬ TransGen R y y := ha y (.single hya)
      have hlt : (ancestors R y).ncard < n := by
        rw [← hn]
        exact Set.ncard_lt_ncard ⟨hsub, fun hsup => hy (hsup (.single hya))⟩ hfin
      exact ih _ hlt (hfin.subset hsub) (fun b hb => ha b (hb.tail hya)) rfl

end OsLabs
