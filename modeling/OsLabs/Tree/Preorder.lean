import Mathlib.Data.List.Nodup
import Mathlib.Data.List.Perm.Basic
import OsLabs.Forest
import OsLabs.Tree.Node

/-!
# OsLabs.Tree.Preorder

What `tree/tree.c` should print: the tree that the `ppid`s of the nodes describe, in
preorder, with the children of a node in the order of the array.

An array describes a tree when each element but the first has its parent before it
(`Rooted`); then children come after their parents, and the preorder has every element
once (`order_perm`).
-/

namespace OsLabs.Tree

namespace Lib

/-- The element `p` is the parent of the element `j`. -/
def Parent (lib : Lib) (p j : Nat) : Prop :=
  p < lib.size ∧ j < lib.size ∧ (lib.node j).ppid = (lib.node p).pid

instance (lib : Lib) (p j : Nat) : Decidable (lib.Parent p j) :=
  inferInstanceAs (Decidable (_ ∧ _))

/-- No two elements have the same pid. -/
def DistinctPids (lib : Lib) : Prop :=
  ∀ i < lib.size, ∀ j < lib.size, (lib.node i).pid = (lib.node j).pid → i = j

instance (lib : Lib) : Decidable lib.DistinctPids :=
  inferInstanceAs (Decidable (∀ i < lib.size, _))

/-- The children of the element `i` among the first `n`. -/
def kidsBelow (lib : Lib) (n i : Nat) : List Nat :=
  (List.range n).filter fun j => (lib.node j).ppid = (lib.node i).pid

/-- The children of the element `i`, in increasing index. -/
def kids (lib : Lib) (i : Nat) : List Nat := lib.kidsBelow lib.size i

/-- The line of the element `i`, at a depth. -/
def line (lib : Lib) (depth i : Nat) : Line :=
  { indent := depth, string := (lib.node i).string, pid := (lib.node i).pid }

/-- What `visit` makes of the elements of the subtree of `i`, in preorder and as far as
`fuel` levels. -/
def walk {β : Type} (lib : Lib) (visit : Nat → Nat → β) : Nat → Nat → Nat → List β
  | 0, _, _ => []
  | fuel + 1, depth, i =>
      visit depth i :: (lib.kids i).flatMap fun j => lib.walk visit fuel (depth + 1) j

/-- The whole tree in preorder; it has at most as many levels as elements. -/
def expected (lib : Lib) : List Line := lib.walk lib.line lib.size 0 0

/-- The array describes a tree, rooted at the first element. -/
structure Rooted (lib : Lib) : Prop where
  pos : 0 < lib.size
  pid_inj : ∀ i j, i < lib.size → j < lib.size → (lib.node i).pid = (lib.node j).pid → i = j
  root : ∀ i, i < lib.size → (lib.node 0).ppid ≠ (lib.node i).pid
  parent : ∀ j, 0 < j → j < lib.size → ∃ i, i < j ∧ (lib.node j).ppid = (lib.node i).pid

instance (lib : Lib) : Decidable (Rooted lib) :=
  decidable_of_iff (0 < lib.size ∧
      (∀ i < lib.size, ∀ j < lib.size, (lib.node i).pid = (lib.node j).pid → i = j) ∧
      (∀ i < lib.size, (lib.node 0).ppid ≠ (lib.node i).pid) ∧
      ∀ j < lib.size, 0 < j → ∃ i < j, (lib.node j).ppid = (lib.node i).pid) <| by
    refine ⟨?_, ?_⟩
    · intro h
      exact ⟨h.1, fun i j hi hj => h.2.1 i hi j hj, h.2.2.1, fun j h0 hj => h.2.2.2 j hj h0⟩
    · intro h
      exact ⟨h.pos, fun i hi j hj => h.pid_inj i j hi hj, h.root, fun j hj h0 => h.parent j h0 hj⟩

section
variable {lib : Lib} {n i j k : Nat}

theorem mem_kidsBelow :
    j ∈ lib.kidsBelow n i ↔ j < n ∧ (lib.node j).ppid = (lib.node i).pid := by
  simp [kidsBelow]

theorem mem_kids : j ∈ lib.kids i ↔ j < lib.size ∧ (lib.node j).ppid = (lib.node i).pid :=
  mem_kidsBelow

theorem kidsBelow_succ : lib.kidsBelow (n + 1) i =
    lib.kidsBelow n i ++ if (lib.node n).ppid = (lib.node i).pid then [n] else [] := by
  rw [kidsBelow, List.range_succ, List.filter_append, ← kidsBelow]
  by_cases h : (lib.node n).ppid = (lib.node i).pid <;> simp [h]

theorem DistinctPids.parent_unique (h : lib.DistinctPids) : Relator.LeftUnique lib.Parent := by
  intro p q j hp hq
  exact h p hp.1 q hq.1 (hp.2.2.symm.trans hq.2.2)

/-- Ranks that grow from parent to child show that there are no cycles. -/
theorem acyclic_of_ranks (ranks : List Nat)
    (h : ∀ p < lib.size, ∀ j < lib.size, lib.Parent p j → ranks.getD p 0 < ranks.getD j 0) :
    Acyclic lib.Parent :=
  acyclic_of_rank fun p j hpj => h p hpj.1 j hpj.2.1 hpj

theorem nodup_kids : (lib.kids i).Nodup := List.nodup_range.filter _

theorem pairwise_kids : (lib.kids i).Pairwise (· < ·) := List.pairwise_lt_range.filter _

theorem Rooted.lt_of_mem_kids (h : Rooted lib) (hi : i < lib.size) (hj : j ∈ lib.kids i) :
    i < j := by
  obtain ⟨hjlt, hpp⟩ := mem_kids.mp hj
  have hj0 : 0 < j := by
    rcases Nat.eq_zero_or_pos j with rfl | hj0
    · exact absurd hpp (h.root i hi)
    · exact hj0
  obtain ⟨p, hp, hpar⟩ := h.parent j hj0 hjlt
  obtain rfl := h.pid_inj i p hi (by omega) (hpp.symm.trans hpar)
  exact hp

theorem Rooted.distinctPids (h : Rooted lib) : lib.DistinctPids :=
  fun i hi j hj => h.pid_inj i j hi hj

theorem Rooted.parent_lt (h : Rooted lib) (hij : lib.Parent i j) : i < j :=
  h.lt_of_mem_kids hij.1 (mem_kids.mpr hij.2)

theorem Rooted.acyclic (h : Rooted lib) : Acyclic lib.Parent :=
  acyclic_of_rank fun _ _ => h.parent_lt

theorem lt_size_of_mem_kids (hj : j ∈ lib.kids i) : j < lib.size := (mem_kids.mp hj).1

/-- A node has one parent. -/
theorem Rooted.parent_unique (h : Rooted lib) (hi : i < lib.size) (hk : k < lib.size)
    (hji : j ∈ lib.kids i) (hjk : j ∈ lib.kids k) : i = k :=
  h.pid_inj i k hi hk ((mem_kids.mp hji).2.symm.trans (mem_kids.mp hjk).2)

/-! ### The recursion -/

section
variable {β : Type} {visit : Nat → Nat → β}

/-- Deeper than the subtree there is nothing. -/
theorem Rooted.walk_stable (h : Rooted lib) {fuel fuel' depth : Nat} (hi : i < lib.size)
    (hfuel : lib.size - i ≤ fuel) (hfuel' : lib.size - i ≤ fuel') :
    lib.walk visit fuel depth i = lib.walk visit fuel' depth i := by
  induction fuel generalizing i depth fuel' with
  | zero => omega
  | succ fuel ih =>
      obtain ⟨m, rfl⟩ : ∃ m, fuel' = m + 1 := ⟨fuel' - 1, by omega⟩
      rw [walk, walk]
      congr 1
      refine List.flatMap_congr fun j hj => ?_
      have hij := h.lt_of_mem_kids hi hj
      have hjlt := lt_size_of_mem_kids hj
      exact ih hjlt (by omega) (by omega)

/-- All of a subtree. -/
def fullWalk (lib : Lib) (visit : Nat → Nat → β) (depth i : Nat) : List β :=
  lib.walk visit (lib.size - i) depth i

theorem Rooted.fullWalk_eq (h : Rooted lib) (hi : i < lib.size) (depth : Nat) :
    lib.fullWalk visit depth i =
      visit depth i :: (lib.kids i).flatMap fun j => lib.fullWalk visit (depth + 1) j := by
  obtain ⟨m, hm⟩ : ∃ m, lib.size - i = m + 1 := ⟨lib.size - i - 1, by omega⟩
  rw [fullWalk, hm, walk]
  congr 1
  refine List.flatMap_congr fun j hj => ?_
  have hij := h.lt_of_mem_kids hi hj
  have hjlt := lt_size_of_mem_kids hj
  exact h.walk_stable hjlt (by omega) (Nat.le_refl _)

end

/-- The lines of a subtree. -/
def subtree (lib : Lib) (depth i : Nat) : List Line := lib.fullWalk lib.line depth i

/-! ### The order of the elements -/

/-- The elements of the subtree, in the order in which the preorder has them. -/
def order (lib : Lib) (fuel i : Nat) : List Nat := lib.walk (fun _ j => j) fuel 0 i

theorem walk_eq_order {fuel depth : Nat} :
    lib.walk (fun _ j => j) fuel depth i = lib.order fuel i := by
  rw [order]
  generalize 0 = depth'
  induction fuel generalizing i depth depth' with
  | zero => rfl
  | succ fuel ih =>
      rw [walk, walk]
      congr 1
      exact List.flatMap_congr fun j _ => ih _

theorem order_succ {fuel : Nat} :
    lib.order (fuel + 1) i = i :: (lib.kids i).flatMap fun j => lib.order fuel j := by
  rw [order, walk]
  congr 1
  exact List.flatMap_congr fun j _ => walk_eq_order

theorem walk_pids {fuel depth : Nat} : (lib.walk lib.line fuel depth i).map Line.pid =
    (lib.order fuel i).map fun j => (lib.node j).pid := by
  induction fuel generalizing i depth with
  | zero => rfl
  | succ fuel ih =>
      rw [walk, order_succ, List.map_cons, List.map_cons, List.map_flatMap, List.map_flatMap]
      congr 1
      exact List.flatMap_congr fun j _ => ih

theorem mem_order {fuel : Nat} (h : j ∈ lib.order fuel i) :
    j = i ∨ ∃ p ∈ lib.order fuel i, j ∈ lib.kids p := by
  induction fuel generalizing i with
  | zero => exact absurd h List.not_mem_nil
  | succ fuel ih =>
      rw [order_succ] at h ⊢
      rcases List.mem_cons.mp h with rfl | h
      · exact .inl rfl
      · obtain ⟨k, hk, hj⟩ := List.mem_flatMap.mp h
        refine .inr ?_
        rcases ih hj with rfl | hp
        · exact ⟨i, List.mem_cons_self, hk⟩
        · obtain ⟨p, hp, hjp⟩ := hp
          exact ⟨p, List.mem_cons_of_mem _ (List.mem_flatMap.mpr ⟨k, hk, hp⟩), hjp⟩

/-- A child is one level further down. -/
theorem kid_mem_order {fuel p : Nat} (h : p ∈ lib.order fuel i) (hj : j ∈ lib.kids p) :
    j ∈ lib.order (fuel + 1) i := by
  induction fuel generalizing i with
  | zero => exact absurd h List.not_mem_nil
  | succ fuel ih =>
      rw [order_succ, List.mem_cons] at h ⊢
      refine .inr (List.mem_flatMap.mpr ?_)
      rcases h with rfl | h
      · exact ⟨j, hj, List.mem_cons_self⟩
      · obtain ⟨k, hk, hp⟩ := List.mem_flatMap.mp h
        exact ⟨k, hk, ih hp⟩

theorem order_subset {fuel fuel' : Nat} (hle : fuel ≤ fuel') :
    lib.order fuel i ⊆ lib.order fuel' i := by
  induction fuel generalizing i fuel' with
  | zero => exact List.nil_subset _
  | succ fuel ih =>
      obtain ⟨m, rfl⟩ : ∃ m, fuel' = m + 1 := ⟨fuel' - 1, by omega⟩
      intro j hj
      rw [order_succ, List.mem_cons] at hj ⊢
      refine hj.imp_right fun hj => ?_
      obtain ⟨k, hk, hj⟩ := List.mem_flatMap.mp hj
      exact List.mem_flatMap.mpr ⟨k, hk, ih (by omega) hj⟩

namespace Rooted

variable (h : Rooted lib)
include h

/-- The subtree of an element lies behind it. -/
theorem le_of_mem_order {fuel : Nat} (hi : i < lib.size) (hj : j ∈ lib.order fuel i) :
    i ≤ j ∧ j < lib.size := by
  induction fuel generalizing i with
  | zero => exact absurd hj List.not_mem_nil
  | succ fuel ih =>
      rw [order_succ, List.mem_cons] at hj
      rcases hj with rfl | hj
      · exact ⟨Nat.le_refl _, hi⟩
      · obtain ⟨k, hk, hj⟩ := List.mem_flatMap.mp hj
        have hik := h.lt_of_mem_kids hi hk
        have := ih (lt_size_of_mem_kids hk) hj
        omega

/-- The subtrees of two children have nothing in common. -/
theorem kid_unique {fuel fuel' k' : Nat} (hi : i < lib.size) (hk : k ∈ lib.kids i)
    (hk' : k' ∈ lib.kids i) (hj : j ∈ lib.order fuel k) (hj' : j ∈ lib.order fuel' k') :
    k = k' := by
  induction j using Nat.strongRecOn with
  | ind j ih =>
      have hlt := lt_size_of_mem_kids hk
      have hlt' := lt_size_of_mem_kids hk'
      have hik := h.lt_of_mem_kids hi hk
      have hik' := h.lt_of_mem_kids hi hk'
      rcases mem_order hj with rfl | hp
      · rcases mem_order hj' with rfl | hp'
        · rfl
        · -- the parent of `k` is `i`, which is not behind `k'`
          obtain ⟨p', hp', hjp'⟩ := hp'
          have hle := h.le_of_mem_order hlt' hp'
          obtain rfl := h.parent_unique hle.2 hi hjp' hk
          omega
      · obtain ⟨p, hp, hjp⟩ := hp
        have hle := h.le_of_mem_order hlt hp
        rcases mem_order hj' with rfl | hp'
        · obtain rfl := h.parent_unique hle.2 hi hjp hk'
          omega
        · obtain ⟨p', hp', hjp'⟩ := hp'
          have hle' := h.le_of_mem_order hlt' hp'
          obtain rfl := h.parent_unique hle.2 hle'.2 hjp hjp'
          exact ih p (h.lt_of_mem_kids hle.2 hjp) hp hp'

theorem nodup_order {fuel : Nat} (hi : i < lib.size) : (lib.order fuel i).Nodup := by
  induction fuel generalizing i with
  | zero => exact List.nodup_nil
  | succ fuel ih =>
      rw [order_succ, List.nodup_cons, List.nodup_flatMap]
      refine ⟨?_, fun k hk => ih (lt_size_of_mem_kids hk), ?_⟩
      · intro hmem
        obtain ⟨k, hk, hmem⟩ := List.mem_flatMap.mp hmem
        have := h.lt_of_mem_kids hi hk
        have := h.le_of_mem_order (lt_size_of_mem_kids hk) hmem
        omega
      · exact nodup_kids.pairwise_of_forall_ne fun k hk k' hk' hne j hj hj' =>
          hne (h.kid_unique hi hk hk' hj hj')

theorem mem_order_root (hj : j < lib.size) : j ∈ lib.order lib.size 0 := by
  have hlevel : j ∈ lib.order (j + 1) 0 := by
    induction j using Nat.strongRecOn with
    | ind j ih =>
        rcases Nat.eq_zero_or_pos j with rfl | hj0
        · exact List.mem_cons_self
        · obtain ⟨p, hp, hpar⟩ := h.parent j hj0 hj
          have hkid := kid_mem_order (ih p hp (by omega)) (mem_kids.mpr ⟨hj, hpar⟩)
          exact order_subset (Nat.succ_le_succ hp) hkid
  exact order_subset hj hlevel

/-- The preorder has each element once. -/
theorem order_perm : (lib.order lib.size 0).Perm (List.range lib.size) := by
  refine (List.perm_ext_iff_of_nodup (h.nodup_order h.pos) List.nodup_range).mpr fun j => ?_
  rw [List.mem_range]
  exact ⟨fun hj => (h.le_of_mem_order h.pos hj).2, h.mem_order_root⟩

/-- So each node has one line. -/
theorem expected_perm : (lib.expected.map Line.pid).Perm
    ((List.range lib.size).map fun i => (lib.node i).pid) := by
  rw [expected, walk_pids]
  exact h.order_perm.map _

end Rooted

end

end Lib

end OsLabs.Tree
