import OsLabs.Tree.Chains
import OsLabs.Tree.Printing

/-!
# OsLabs.Tree.Depth

The depths that the linking loops of `tree/tree.c` write, for an array in any order.

A child gets the depth of its parent plus one, as it is when the loops come to the
parent. If the parent's own parent comes later in the array, that is still the 0 of the
initialisation, and nothing corrects the child afterwards. So the depths are the numbers
of ancestors exactly when a node that has both a parent and a child comes after its
parent (`depths_iff`); a parent may come after its child if that has no children.
-/

namespace OsLabs.Tree

namespace Lib

/-- The depths at a point of the loops. Whether the parent had its own when its child got one
depends on which of the two rows came first. -/
structure Depths (lib : Lib) (i n : Nat) (mem : Lib) : Prop where
  same : lib.Same mem
  waiting : ∀ j, (∀ p, lib.Parent p j → ¬ Passed i n p j) → (mem.node j).depth = 0
  inner : ∀ q p j, lib.Parent q p → lib.Parent p j → Passed i n p j → q < p →
    (mem.node j).depth = (mem.node p).depth + 1
  outer : ∀ p j, lib.Parent p j → Passed i n p j → (∀ q, lib.Parent q p → ¬ q < p) →
    (mem.node j).depth = 1

section
variable {lib mem mem' : Lib} {i j k n p q : Nat}

/-! ### What a round does to the depths -/

theorem link_depth {fuel : Nat} (h : link fuel mem i j = some mem')
    (hkid : (mem.node j).ppid = (mem.node i).pid) :
    (mem'.node k).depth = if k = j then (mem.node i).depth + 1 else (mem.node k).depth := by
  rcases link_inv h with ⟨hne, -⟩ | ⟨-, q, g, -, rfl⟩
  · exact absurd hkid hne
  · rw [setDepth_depth, setField_depth]

theorem link_other {fuel : Nat} (h : link fuel mem i j = some mem')
    (hkid : (mem.node j).ppid ≠ (mem.node i).pid) : mem' = mem := by
  rcases link_inv h with ⟨-, rfl⟩ | ⟨heq, -⟩
  · rfl
  · exact absurd heq hkid

/-- A round for a child of the element `i`. -/
theorem Depths.link (h : lib.Depths i n mem) (hpid : lib.DistinctPids)
    (hac : Acyclic lib.Parent) (hpar : lib.Parent i n) {fuel : Nat}
    (hs : Lib.link fuel mem i n = some mem') : lib.Depths i (n + 1) mem' := by
  have hin : i ≠ n := by
    intro heq
    subst heq
    exact hac i (.single hpar)
  have hdepth : ∀ k, (mem'.node k).depth =
      if k = n then (mem.node i).depth + 1 else (mem.node k).depth :=
    fun k => link_depth hs (by rw [h.same.ppid, h.same.pid]; exact hpar.2.2)
  constructor
  case same => exact link_same h.same hs
  case waiting =>
    intro j hj
    have hjn : j ≠ n := by
      intro heq
      subst heq
      exact hj i hpar (passed_succ.mpr (.inr ⟨rfl, rfl⟩))
    rw [hdepth, if_neg hjn]
    exact h.waiting j fun p hp hpassed => hj p hp (passed_succ.mpr (.inl hpassed))
  case inner =>
    intro q p j hqp hpj hpassed hlt
    rw [hdepth, hdepth]
    by_cases hjn : j = n
    · obtain rfl := hjn
      obtain rfl := hpid.parent_unique hpar hpj
      rw [if_pos rfl, if_neg hin]
    · have hold := hpassed.of_ne hjn
      -- the parent does not get its depth only now, or `i` would come after it
      have hpn : p ≠ n := by
        intro heq
        subst heq
        obtain rfl := hpid.parent_unique hpar hqp
        simp only [Passed] at hold
        omega
      rw [if_neg hjn, if_neg hpn]
      exact h.inner q p j hqp hpj hold hlt
  case outer =>
    intro p j hpj hpassed hfirst
    rw [hdepth]
    by_cases hjn : j = n
    · obtain rfl := hjn
      obtain rfl := hpid.parent_unique hpar hpj
      -- the parent waits for a row that comes later
      have hwait : (mem.node i).depth = 0 := by
        refine h.waiting i fun q hq hpassed => ?_
        have hqi := hfirst q hq
        have hne : q ≠ i := by
          intro heq
          subst heq
          exact hac q (.single hq)
        simp only [Passed] at hpassed
        omega
      rw [if_pos rfl, hwait]
    · have hold := hpassed.of_ne hjn
      rw [if_neg hjn]
      exact h.outer p j hpj hold hfirst

/-- A round for another element. -/
theorem Depths.skip (h : lib.Depths i n mem) (hpar : ¬ lib.Parent i n) :
    lib.Depths i (n + 1) mem := by
  have hold : ∀ {p j}, lib.Parent p j → Passed i (n + 1) p j → Passed i n p j := by
    intro p j hpj hpassed
    rcases passed_succ.mp hpassed with hold | ⟨rfl, rfl⟩
    · exact hold
    · exact absurd hpj hpar
  constructor
  case same => exact h.same
  case waiting =>
    intro j hj
    exact h.waiting j fun p hp hpassed => hj p hp (passed_succ.mpr (.inl hpassed))
  case inner =>
    intro q p j hqp hpj hpassed
    exact h.inner q p j hqp hpj (hold hpj hpassed)
  case outer =>
    intro p j hpj hpassed
    exact h.outer p j hpj (hold hpj hpassed)

/-- From one row to the next. -/
theorem Depths.row (h : lib.Depths i lib.size mem) : lib.Depths (i + 1) 0 mem := by
  constructor
  case same => exact h.same
  case waiting =>
    intro j hj
    exact h.waiting j fun p hp hpassed => hj p hp ((passed_row hp.2.1).mp hpassed)
  case inner =>
    intro q p j hqp hpj hpassed
    exact h.inner q p j hqp hpj ((passed_row hpj.2.1).mpr hpassed)
  case outer =>
    intro p j hpj hpassed
    exact h.outer p j hpj ((passed_row hpj.2.1).mpr hpassed)

theorem depths_initialise : lib.Depths 0 0 lib.initialise := by
  have hnone : ∀ {p j}, ¬ Passed 0 0 p j := by simp [Passed]
  constructor
  case same => exact linked_initialise.same
  case waiting => exact fun _ _ => rfl
  case inner => exact fun _ _ _ _ _ hpassed => absurd hpassed hnone
  case outer => exact fun _ _ _ hpassed => absurd hpassed hnone

/-- The depths in the end. -/
theorem linkAll_depths (hpid : lib.DistinctPids) (hac : Acyclic lib.Parent) {fuel : Nat}
    (hs : lib.linkAll fuel = some mem) : lib.Depths lib.size 0 mem := by
  refine loop_partial (I := fun i mem => lib.Depths i 0 mem) depths_initialise hs ?_
  intro i mem mem' hi hI hrow
  refine Depths.row ?_
  refine loop_partial (I := fun n mem => lib.Depths i n mem) hI hrow ?_
  intro n mem mem' hn hI hlink
  by_cases hkid : (lib.node n).ppid = (lib.node i).pid
  · exact hI.link hpid hac ⟨hi, hn, hkid⟩ hlink
  · have hkid' : (mem.node n).ppid ≠ (mem.node i).pid := by
      rwa [hI.same.ppid, hI.same.pid]
    rw [link_other hlink hkid']
    exact hI.skip fun hpar => hkid hpar.2.2

/-! ### Depths and ancestors -/

/-- A node that has a parent and a child comes after its parent. -/
def InnerSorted (lib : Lib) : Prop := ∀ q p j, lib.Parent q p → lib.Parent p j → q < p

theorem finite_ancestors : (ancestors lib.Parent j).Finite := by
  refine (Set.finite_lt_nat lib.size).subset fun i hi => ?_
  obtain ⟨k, hik, -⟩ := Relation.TransGen.head'_iff.mp hi
  exact hik.1

theorem ncard_ancestors (hpid : lib.DistinctPids) (hac : Acyclic lib.Parent)
    (hpj : lib.Parent p j) :
    (ancestors lib.Parent j).ncard = (ancestors lib.Parent p).ncard + 1 :=
  ncard_ancestors_child hpid.parent_unique hac finite_ancestors hpj

/-- A parent that comes too early gives its children the depth 1, and they have at least two
ancestors. -/
theorem Depths.innerSorted (h : lib.Depths lib.size 0 mem) (hpid : lib.DistinctPids)
    (hac : Acyclic lib.Parent)
    (hdepth : ∀ j < lib.size, (mem.node j).depth = (ancestors lib.Parent j).ncard) :
    lib.InnerSorted := by
  intro q p j hqp hpj
  by_contra hlt
  have hfirst : ∀ r, lib.Parent r p → ¬ r < p := by
    intro r hr
    obtain rfl := hpid.parent_unique hqp hr
    exact hlt
  have hone := h.outer p j hpj (.inl hpj.1) hfirst
  have htwo := ncard_ancestors hpid hac hqp
  rw [hdepth j hpj.2.1, ncard_ancestors hpid hac hpj] at hone
  omega

/-- The induction is on the number of ancestors, from a node to its parent. -/
theorem Depths.eq_ancestors (h : lib.Depths lib.size 0 mem) (hpid : lib.DistinctPids)
    (hac : Acyclic lib.Parent) (hsorted : lib.InnerSorted) :
    (mem.node j).depth = (ancestors lib.Parent j).ncard := by
  obtain ⟨m, hm⟩ : ∃ m, (ancestors lib.Parent j).ncard = m := ⟨_, rfl⟩
  induction m generalizing j with
  | zero =>
      rw [hm]
      refine h.waiting j fun p hp => ?_
      have := ncard_ancestors hpid hac hp
      omega
  | succ m ih =>
      have hparent : ∃ p, lib.Parent p j := by
        by_contra hnone
        have := ncard_ancestors_root fun p hp => hnone ⟨p, hp⟩
        omega
      obtain ⟨p, hpj⟩ := hparent
      have hcount := ncard_ancestors hpid hac hpj
      by_cases hgrand : ∃ q, lib.Parent q p
      · obtain ⟨q, hqp⟩ := hgrand
        rw [h.inner q p j hqp hpj (.inl hpj.1) (hsorted q p j hqp hpj), hcount,
          ih (j := p) (by omega)]
      · have hroot := ncard_ancestors_root fun q hq => hgrand ⟨q, hq⟩
        rw [h.outer p j hpj (.inl hpj.1) fun q hq => absurd ⟨q, hq⟩ hgrand, hcount, hroot]

/-- The loops that give each node its number of ancestors for a depth are those that end, over
an array in which a node with a parent and a child comes after its parent. -/
theorem depths_iff (hpid : lib.DistinctPids) (hac : Acyclic lib.Parent) :
    (∃ fuel mem, lib.linkAll fuel = some mem ∧
        ∀ j < lib.size, (mem.node j).depth = (ancestors lib.Parent j).ncard) ↔
      lib.InBounds ∧ lib.InnerSorted := by
  refine ⟨?_, ?_⟩
  · intro h
    obtain ⟨fuel, mem, hs, hdepth⟩ := h
    exact ⟨(linkAll_ends_iff hpid).mp ⟨fuel, mem, hs⟩,
      (linkAll_depths hpid hac hs).innerSorted hpid hac hdepth⟩
  · intro h
    obtain ⟨hin, hsorted⟩ := h
    obtain ⟨fuel, mem, hs⟩ := (linkAll_ends_iff hpid).mpr hin
    exact ⟨fuel, mem, hs, fun j _ => (linkAll_depths hpid hac hs).eq_ancestors hpid hac hsorted⟩

end

/-- In the array of the file parents come first. -/
theorem depths_file : ∃ fuel mem, fileLib.linkAll fuel = some mem ∧
    ∀ j < fileLib.size, (mem.node j).depth = (ancestors fileLib.Parent j).ncard := by
  have h : Rooted fileLib := by decide
  exact (depths_iff h.distinctPids h.acyclic).mpr ⟨by decide, fun _ _ _ hqp _ => h.parent_lt hqp⟩

/-- A node with a parent and a child, and the parent behind it. -/
def lateParent : Lib := ofPids [(2, 1), (1, -1), (3, 2)]

/-- The third node gets the depth 1, and has two ancestors. -/
theorem not_depths_ancestors : lateParent.DistinctPids ∧ Acyclic lateParent.Parent ∧
    (∃ mem, lateParent.linkAll 4 = some mem ∧ (mem.node 2).depth = 1) ∧
    (ancestors lateParent.Parent 2).ncard = 2 ∧
    ¬ ∃ fuel mem, lateParent.linkAll fuel = some mem ∧
      ∀ j < lateParent.size, (mem.node j).depth = (ancestors lateParent.Parent j).ncard := by
  have hpid : lateParent.DistinctPids := by decide
  have hac : Acyclic lateParent.Parent := acyclic_of_ranks [1, 0, 2] (by decide)
  have hroot : (ancestors lateParent.Parent 1).ncard = 0 :=
    ncard_ancestors_root fun p hp =>
      (by decide : ∀ p < 3, ¬ lateParent.Parent p 1) p hp.1 hp
  have hchild := ncard_ancestors hpid hac (by decide : lateParent.Parent 1 0)
  have hthird := ncard_ancestors hpid hac (by decide : lateParent.Parent 0 2)
  refine ⟨hpid, hac, ?_, by omega, ?_⟩
  · exact Option.map_eq_some_iff.mp (by decide :
      (lateParent.linkAll 4).map (fun mem => (mem.node 2).depth) = some 1)
  · intro h
    obtain ⟨fuel, mem, hs, hdepth⟩ := h
    have hsorted := (linkAll_depths hpid hac hs).innerSorted hpid hac hdepth
    exact absurd (hsorted 1 0 2 (by decide) (by decide)) (by decide)

end Lib

end OsLabs.Tree
