import OsLabs.Tree.Linking

/-!
# OsLabs.Tree.Printing

What `buildtree` of `tree/tree.c` prints, compared with the tree that the `ppid`s
describe.

A third child is linked under the array element behind the first child. When that is
the second child and it has no children, the third and all later ones come out as if
they were children of the second: right behind it, which is where they belong, and
with the right indentation, since that is stored in the node. In every other case they
come out at a wrong place (`prints_expected_iff`).
-/

namespace OsLabs.Tree

namespace Lib

section
variable {lib mem : Lib} {i : Nat} {lines rest : List Line}

/-! ### Printing in steps -/

theorem buildtree_succ {fuel : Nat} :
    (∀ a lines, mem.buildtree fuel a = some lines → mem.buildtree (fuel + 1) a = some lines) ∧
      ∀ p lines, mem.peers fuel p = some lines → mem.peers (fuel + 1) p = some lines := by
  induction fuel with
  | zero =>
      refine ⟨?_, ?_⟩
      · intro a lines h
        exact absurd h (by simp [buildtree])
      · intro p lines h
        exact absurd h (by simp [peers])
  | succ fuel ih =>
      refine ⟨?_, ?_⟩
      · intro a lines h
        rw [buildtree] at h ⊢
        cases hnode : mem.deref a with
        | none => simp [hnode] at h
        | some node =>
            simp only [hnode] at h ⊢
            cases hchild : node.child with
            | none => simpa [hchild] using h
            | some child =>
                simp only [hchild] at h ⊢
                obtain ⟨rest, hrest, rfl⟩ := Option.map_eq_some_iff.mp h
                rw [ih.2 _ _ hrest, Option.map_some]
      · intro p lines h
        cases p with
        | none =>
            rw [peers] at h ⊢
            exact h
        | some temp =>
            rw [peers] at h ⊢
            cases hbuild : mem.buildtree fuel temp with
            | none => simp [hbuild] at h
            | some out =>
                cases hnode : mem.deref temp with
                | none => simp [hbuild, hnode] at h
                | some node =>
                    simp only [hbuild, hnode, ih.1 _ _ hbuild] at h ⊢
                    obtain ⟨rest, hrest, rfl⟩ := Option.map_eq_some_iff.mp h
                    rw [ih.2 _ _ hrest, Option.map_some]

/-- What a call prints does not depend on the fuel. -/
theorem buildtree_mono {fuel fuel' : Nat} (hle : fuel ≤ fuel') :
    (∀ a lines, mem.buildtree fuel a = some lines → mem.buildtree fuel' a = some lines) ∧
      ∀ p lines, mem.peers fuel p = some lines → mem.peers fuel' p = some lines := by
  induction hle with
  | refl => exact ⟨fun _ _ h => h, fun _ _ h => h⟩
  | step _ ih =>
      exact ⟨fun a lines h => buildtree_succ.1 a lines (ih.1 a lines h),
        fun p lines h => buildtree_succ.2 p lines (ih.2 p lines h)⟩

/-- `buildtree` returns for the node at `a`, and prints `lines`. -/
def PrintsNode (mem : Lib) (a : Nat) (lines : List Line) : Prop :=
  ∃ fuel, mem.buildtree fuel a = some lines

/-- Its loop returns from `p`, and prints `lines`. -/
def PrintsPeers (mem : Lib) (p : Option Nat) (lines : List Line) : Prop :=
  ∃ fuel, mem.peers fuel p = some lines

theorem printsNode_leaf (hi : i < mem.size) (hchild : mem.field i .child = none) :
    mem.PrintsNode (addr i) [(mem.node i).line] := by
  have hchild : (mem.node i).child = none := hchild
  exact ⟨1, by simp [buildtree, deref_addr hi, hchild]⟩

theorem printsNode_child {c : Nat} (hi : i < mem.size) (hchild : mem.field i .child = some c)
    (h : mem.PrintsPeers (some c) lines) :
    mem.PrintsNode (addr i) ((mem.node i).line :: lines) := by
  obtain ⟨fuel, h⟩ := h
  have hchild : (mem.node i).child = some c := hchild
  exact ⟨fuel + 1, by simp [buildtree, deref_addr hi, hchild, h]⟩

theorem printsPeers_none : mem.PrintsPeers none [] := ⟨1, rfl⟩

theorem printsPeers_some (hi : i < mem.size) (h : mem.PrintsNode (addr i) lines)
    (hrest : mem.PrintsPeers (mem.field i .peer) rest) :
    mem.PrintsPeers (some (addr i)) (lines ++ rest) := by
  obtain ⟨fuel, h⟩ := h
  obtain ⟨fuel', hrest⟩ := hrest
  have hrest : mem.peers fuel' (mem.node i).peer = some rest := hrest
  refine ⟨max fuel fuel' + 1, ?_⟩
  rw [peers, (buildtree_mono (Nat.le_max_left fuel fuel')).1 _ _ h, deref_addr hi]
  simp only [(buildtree_mono (Nat.le_max_right fuel fuel')).2 _ _ hrest, Option.map_some]

end

/-! ### The pointers in the end -/

/-- A list without repetitions is cut at an element in one way. -/
theorem cut_unique {l before before' after after' : List Nat} {x : Nat} (hn : l.Nodup)
    (h : l = before ++ x :: after) (h' : l = before' ++ x :: after') :
    before = before' ∧ after = after' := by
  rw [h, List.nodup_append, List.nodup_cons] at hn
  obtain ⟨-, ⟨hafter, -⟩, hdisj⟩ := hn
  have hbefore : x ∉ before := fun hx => hdisj x hx x List.mem_cons_self rfl
  obtain ⟨heq, -, heq'⟩ :=
    (List.append_cons_inj_of_notMem hbefore hafter).mp (h.symm.trans h')
  exact ⟨heq, heq'⟩

/-- The element `i` is a second child, and the third and later ones are under it. -/
def Hung (lib : Lib) (i : Nat) : Prop :=
  ∃ q j₁ j₃ rest, q < lib.size ∧ lib.kids q = j₁ :: i :: j₃ :: rest

section
variable {lib mem : Lib} {i j x : Nat} {before after : List Nat}
variable (h : Rooted lib) (hL : Linked lib (lib.stage lib.size 0) mem)

theorem stage_end (hi : i < lib.size) : lib.stage lib.size 0 i = lib.kids i := by
  rw [stage, if_pos hi]

theorem lt_of_stage_end {q : Nat} (hq : x ∈ lib.stage lib.size 0 q) : q < lib.size := by
  by_contra hlt
  rw [stage, if_neg hlt] at hq
  split at hq
  · exact absurd hq (by simp [kidsBelow])
  · exact absurd hq List.not_mem_nil

include hL in
/-- The slot of a child points to it. -/
theorem Linked.slot_eq (hi : i < lib.size) (hkids : lib.kids i = before ++ x :: after) :
    mem.field (slot i before).1 (slot i before).2 = some (addr x) :=
  (hL.field _ _ _).mpr ⟨x, ⟨i, before, after, (stage_end hi).trans hkids, rfl⟩, rfl⟩

include h hL in
/-- The `peer` of the second child and of the last one is `NULL`. -/
theorem Linked.peer_none (hi : i < lib.size) (hkids : lib.kids i = before ++ x :: after)
    (hend : after = [] ∨ before.length = 1) : mem.field x .peer = none := by
  refine hL.field_free (x, .peer) ?_
  rintro b ⟨q, before', after', hq, hslot⟩
  have hqlt : q < lib.size := lt_of_stage_end (x := b) (by simp [hq])
  rw [stage_end hqlt] at hq
  obtain ⟨pre, rfl⟩ := eq_append_of_slot hslot
  obtain rfl := h.parent_unique hqlt hi (j := x) (by simp [hq]) (by simp [hkids])
  have hq' : lib.kids q = pre ++ x :: b :: after' := by simp [hq]
  obtain ⟨rfl, rfl⟩ := cut_unique nodup_kids hkids hq'
  rcases hend with hend | hend
  · exact absurd hend (by simp)
  · obtain ⟨a, rfl⟩ := List.length_eq_one_iff.mp hend
    exact absurd hslot (by simp [slot])

include hL in
/-- The `child` of a leaf is `NULL`, unless it is a second child among others. -/
theorem Linked.child_none (hfits : ∀ q < lib.size, lib.FitsAt q) (hkids : lib.kids i = [])
    (hhung : ¬ lib.Hung i) : mem.field i .child = none := by
  refine hL.field_free (i, .child) ?_
  rintro b ⟨q, before', after', hq, hslot⟩
  have hqlt : q < lib.size := lt_of_stage_end (x := b) (by simp [hq])
  rw [stage_end hqlt] at hq
  rcases of_slot_child hslot with ⟨rfl, rfl⟩ | ⟨j₁, j₂, rfl, rfl⟩
  · exact absurd (hkids.symm.trans hq) (by simp)
  · obtain ⟨rfl, -⟩ := hfits q hqlt j₁ j₂ b after' hq
    exact hhung ⟨q, j₁, b, after', hqlt, hq⟩

omit hL in
include h in
/-- Only the second child can be one under which others hang. -/
theorem Rooted.not_hung (hi : i < lib.size) (hkids : lib.kids i = before ++ x :: after)
    (hplace : before.length ≠ 1 ∨ after = []) : ¬ lib.Hung x := by
  rintro ⟨q, j₁, j₃, rest, hq, hqkids⟩
  obtain rfl := h.parent_unique hq hi (j := x) (by simp [hqkids]) (by simp [hkids])
  have hqkids' : lib.kids q = [j₁] ++ x :: (j₃ :: rest) := hqkids
  obtain ⟨rfl, rfl⟩ := cut_unique nodup_kids hkids hqkids'
  rcases hplace with hplace | hplace
  · exact hplace rfl
  · exact absurd hplace (by simp)

/-! ### The tree is printed -/

include h hL

/-- From the third child on, the chain of the children. -/
theorem Linked.prints_chain (hi : i < lib.size) (hkids : lib.kids i = before ++ x :: after)
    (hbefore : 2 ≤ before.length)
    (ih : ∀ j ∈ lib.kids i, ¬ lib.Hung j →
      mem.PrintsNode (addr j) (lib.subtree ((mem.node i).depth + 1) j)) :
    mem.PrintsPeers (some (addr x))
      ((x :: after).flatMap fun j => lib.subtree ((mem.node i).depth + 1) j) := by
  induction after generalizing before x with
  | nil =>
      have hx : x < mem.size := by
        rw [hL.same.size]
        exact lt_size_of_mem_kids (i := i) (by simp [hkids])
      have hnode := ih x (by simp [hkids]) (h.not_hung hi hkids (.inr rfl))
      refine printsPeers_some hx hnode ?_
      rw [hL.peer_none h hi hkids (.inl rfl)]
      exact printsPeers_none
  | cons y after ihafter =>
      have hx : x < mem.size := by
        rw [hL.same.size]
        exact lt_size_of_mem_kids (i := i) (by simp [hkids])
      have hnode := ih x (by simp [hkids]) (h.not_hung hi hkids (.inl (by omega)))
      have hkids' : lib.kids i = (before ++ [x]) ++ y :: after := by simp [hkids]
      have hpeer : mem.field x .peer = some (addr y) := by
        have := hL.slot_eq hi hkids'
        rwa [slot_append hbefore] at this
      rw [List.flatMap_cons]
      refine printsPeers_some hx hnode ?_
      rw [hpeer]
      exact ihafter hkids' (by simp; omega)

/-- All children of a node. -/
theorem Linked.prints_kids (hfits : ∀ q < lib.size, lib.FitsAt q) (hi : i < lib.size)
    {l : List Nat} (hkids : lib.kids i = x :: l)
    (ih : ∀ j ∈ lib.kids i, ¬ lib.Hung j →
      mem.PrintsNode (addr j) (lib.subtree ((mem.node i).depth + 1) j)) :
    mem.PrintsPeers (some (addr x))
      ((x :: l).flatMap fun j => lib.subtree ((mem.node i).depth + 1) j) := by
  have hlt : ∀ j ∈ lib.kids i, j < mem.size := by
    intro j hj
    rw [hL.same.size]
    exact lt_size_of_mem_kids hj
  have hfirst : lib.kids i = [] ++ x :: l := hkids
  have hnode := ih x (by simp [hkids]) (h.not_hung hi hfirst (.inl (by simp)))
  rw [List.flatMap_cons]
  refine printsPeers_some (hlt x (by simp [hkids])) hnode ?_
  cases l with
  | nil =>
      rw [hL.peer_none h hi hfirst (.inl rfl)]
      exact printsPeers_none
  | cons y l =>
      have hsecond : lib.kids i = [x] ++ y :: l := hkids
      have hpeer : mem.field x .peer = some (addr y) := hL.slot_eq hi hsecond
      have hnull : mem.field y .peer = none := hL.peer_none h hi hsecond (.inr rfl)
      have hylt := hlt y (by simp [hkids])
      have hdepth : (mem.node y).depth = (mem.node i).depth + 1 :=
        hL.depth i y (by rw [stage_end hi, hkids]; simp)
      rw [hpeer]
      cases l with
      | nil =>
          have hnode' := ih y (by simp [hkids]) (h.not_hung hi hsecond (.inr rfl))
          refine printsPeers_some hylt hnode' ?_
          rw [hnull]
          exact printsPeers_none
      | cons z l =>
          -- the others are under the second, which is a leaf
          obtain ⟨rfl, hleaf⟩ := hfits i hi x y z l hkids
          have hthird : lib.kids i = [x, x + 1] ++ z :: l := hkids
          have hchild : mem.field (x + 1) .child = some (addr z) := hL.slot_eq hi hthird
          have hchain := hL.prints_chain h hi hthird (by simp) ih
          have hline : lib.subtree ((mem.node i).depth + 1) (x + 1) =
              [(mem.node (x + 1)).line] := by
            rw [subtree, h.fullWalk_eq (lt_size_of_mem_kids (i := i) (by simp [hkids])), hleaf,
              ← hdepth]
            simp [line, Node.line, hL.same.string, hL.same.pid]
          have hprint := printsPeers_some hylt (printsNode_child hylt hchild hchain)
            (hnull ▸ printsPeers_none)
          rw [List.flatMap_cons, hline]
          simpa using hprint

theorem Linked.prints_subtree (hfits : ∀ q < lib.size, lib.FitsAt q) (hi : i < lib.size)
    (hhung : ¬ lib.Hung i) : mem.PrintsNode (addr i) (lib.subtree (mem.node i).depth i) := by
  obtain ⟨m, hm⟩ : ∃ m, lib.size - i = m := ⟨_, rfl⟩
  induction m using Nat.strongRecOn generalizing i with
  | ind m ih =>
      have himem : i < mem.size := hL.same.size.symm ▸ hi
      have hline : (mem.node i).line = lib.line (mem.node i).depth i := by
        simp [line, Node.line, hL.same.string, hL.same.pid]
      rw [subtree, h.fullWalk_eq hi, ← hline]
      cases hkids : lib.kids i with
      | nil => exact printsNode_leaf himem (hL.child_none hfits hkids hhung)
      | cons x l =>
          have hfirst : lib.kids i = [] ++ x :: l := hkids
          refine printsNode_child himem (hL.slot_eq hi hfirst) ?_
          refine hL.prints_kids h hfits hi hkids fun j hj hjhung => ?_
          have hij := h.lt_of_mem_kids hi hj
          have hjlt := lt_size_of_mem_kids hj
          have := ih (lib.size - j) (by omega) hjlt hjhung rfl
          rwa [hL.depth i j (by rwa [stage_end hi])] at this

end

/-- When every third child fits, the tree is printed. -/
theorem prints_of_fits {lib : Lib} (h : Rooted lib) (hfits : ∀ q < lib.size, lib.FitsAt q) :
    Prints lib lib.expected := by
  obtain ⟨mem, hmem, hL⟩ := linkAll_total h hfits
  have hroot : ¬ lib.Hung 0 := by
    rintro ⟨q, j₁, j₃, rest, hq, hkids⟩
    exact absurd (h.lt_of_mem_kids hq (j := 0) (by simp [hkids])) (by omega)
  have hprint := hL.prints_subtree h hfits h.pos hroot
  rw [hL.root] at hprint
  exact ⟨lib.size, mem, hmem, hprint⟩

/-! ### A third child that does not fit -/

/-- Wherever `x` is in the list, `y` is next. -/
def FollowedBy (x y : Int) (l : List Int) : Prop :=
  ∀ before after, l = before ++ x :: after → ∃ rest, after = y :: rest

theorem followedBy_append {x y : Int} {l l' : List Int} (h : FollowedBy x y l)
    (h' : FollowedBy x y l') : FollowedBy x y (l ++ l') := by
  intro before after heq
  rcases List.append_eq_append_iff.mp heq with ⟨m, rfl, hm⟩ | ⟨m, rfl, hm⟩
  · exact h' m after hm
  · cases m with
    | nil => exact h' [] after hm.symm
    | cons a m =>
        obtain ⟨rfl, rfl⟩ := List.cons.inj hm
        obtain ⟨rest, rfl⟩ := h before m rfl
        exact ⟨rest ++ l', rfl⟩

theorem followedBy_cons {x y a : Int} {l : List Int} (h : FollowedBy x y l)
    (ha : a = x → ∃ rest, l = y :: rest) : FollowedBy x y (a :: l) := by
  intro before after heq
  cases before with
  | nil =>
      obtain ⟨rfl, rfl⟩ := List.cons.inj heq
      exact ha rfl
  | cons b before =>
      obtain ⟨-, rfl⟩ := List.cons.inj heq
      exact h before after rfl

section
variable {lib mem : Lib} {i j k m : Nat} {lines : List Line}

/-- The node's own line comes first. -/
theorem buildtree_head {fuel : Nat} (hk : k < mem.size)
    (h : mem.buildtree fuel (addr k) = some lines) : ∃ rest, lines = (mem.node k).line :: rest := by
  cases fuel with
  | zero => exact absurd h (by simp [buildtree])
  | succ fuel =>
      rw [buildtree, deref_addr hk] at h
      simp only at h
      split at h
      · exact ⟨[], (Option.some.inj h).symm⟩
      · obtain ⟨rest, -, rfl⟩ := Option.map_eq_some_iff.mp h
        exact ⟨rest, rfl⟩

theorem peers_head {fuel : Nat} (hk : k < mem.size)
    (h : mem.peers fuel (some (addr k)) = some lines) :
    ∃ rest, lines = (mem.node k).line :: rest := by
  cases fuel with
  | zero => exact absurd h (by simp [peers])
  | succ fuel =>
      rw [peers, deref_addr hk] at h
      cases hbuild : mem.buildtree fuel (addr k) with
      | none => simp [hbuild] at h
      | some out =>
          simp only [hbuild] at h
          obtain ⟨rest, -, rfl⟩ := Option.map_eq_some_iff.mp h
          obtain ⟨out, rfl⟩ := buildtree_head hk hbuild
          exact ⟨out ++ rest, rfl⟩

/-- Behind a node its child is printed. -/
theorem buildtree_followedBy (h : Rooted lib) (hsame : lib.Same mem) (hm : m < lib.size)
    (hk : k < lib.size) (hchild : mem.field m .child = some (addr k)) {fuel : Nat} :
    (∀ a lines, mem.buildtree fuel a = some lines →
      FollowedBy (lib.node m).pid (lib.node k).pid (lines.map Line.pid)) ∧
    ∀ p lines, mem.peers fuel p = some lines →
      FollowedBy (lib.node m).pid (lib.node k).pid (lines.map Line.pid) := by
  have hkmem : k < mem.size := hsame.size.symm ▸ hk
  induction fuel with
  | zero =>
      refine ⟨?_, ?_⟩
      · intro a lines hs
        exact absurd hs (by simp [buildtree])
      · intro p lines hs
        exact absurd hs (by simp [peers])
  | succ fuel ih =>
      refine ⟨?_, ?_⟩
      · intro a lines hs
        rw [buildtree] at hs
        split at hs
        · exact absurd hs (by simp)
        · next node hnode =>
          obtain ⟨i, rfl, hi, rfl⟩ := exists_of_deref hnode
          have hpid : (mem.node i).line.pid = (lib.node i).pid := hsame.pid i
          split at hs
          · next hnull =>
            obtain rfl := Option.some.inj hs
            refine followedBy_cons ?_ fun heq => ?_
            · intro before after hnil
              exact absurd hnil (by simp)
            · -- the node is not `m`, which has a child
              obtain rfl := h.pid_inj i m (hsame.size ▸ hi) hm (hpid.symm.trans heq)
              exact absurd (hnull.symm.trans hchild) (by simp)
          · next child hsome =>
            obtain ⟨rest, hrest, rfl⟩ := Option.map_eq_some_iff.mp hs
            refine followedBy_cons (ih.2 _ _ hrest) fun heq => ?_
            obtain rfl := h.pid_inj i m (hsame.size ▸ hi) hm (hpid.symm.trans heq)
            obtain rfl := Option.some.inj (hsome.symm.trans hchild)
            obtain ⟨out, rfl⟩ := peers_head hkmem hrest
            exact ⟨out.map Line.pid, by rw [List.map_cons]; exact congrArg (· :: _) (hsame.pid k)⟩
      · intro p lines hs
        cases p with
        | none =>
            rw [peers] at hs
            obtain rfl := Option.some.inj hs
            intro before after hnil
            exact absurd hnil (by simp)
        | some temp =>
            rw [peers] at hs
            split at hs
            · next out node hout hnode =>
              obtain ⟨rest, hrest, rfl⟩ := Option.map_eq_some_iff.mp hs
              rw [List.map_append]
              exact followedBy_append (ih.1 _ _ hout) (ih.2 _ _ hrest)
            · exact absurd hs (by simp)

/-- The elements of the whole subtree, in order. -/
def below (lib : Lib) (i : Nat) : List Nat := lib.order (lib.size - i) i

theorem below_eq (h : Rooted lib) (hi : i < lib.size) :
    lib.below i = i :: (lib.kids i).flatMap lib.below := by
  have heq : lib.fullWalk (fun _ j => j) 0 i =
      i :: (lib.kids i).flatMap fun j => lib.fullWalk (fun _ j => j) 1 j := h.fullWalk_eq hi 0
  show lib.order (lib.size - i) i =
    i :: (lib.kids i).flatMap fun j => lib.order (lib.size - j) j
  simpa [fullWalk, walk_eq_order] using heq

/-- A subtree is printed in one piece. -/
theorem below_infix (h : Rooted lib) {r : Nat} (hr : r < lib.size) (hi : i ∈ lib.below r) :
    lib.below i <:+: lib.below r := by
  obtain ⟨n, hn⟩ : ∃ n, lib.size - r = n := ⟨_, rfl⟩
  induction n using Nat.strongRecOn generalizing r with
  | ind n ih =>
      rw [below_eq h hr] at hi ⊢
      rcases List.mem_cons.mp hi with rfl | hi
      · exact below_eq h hr ▸ List.infix_refl _
      · obtain ⟨k, hk, hi⟩ := List.mem_flatMap.mp hi
        have hrk := h.lt_of_mem_kids hr hk
        have hklt := lt_size_of_mem_kids hk
        have hinfix := ih (lib.size - k) (by omega) hklt hi rfl
        obtain ⟨ks, ks', hks⟩ := List.append_of_mem hk
        refine hinfix.trans ⟨r :: ks.flatMap lib.below, ks'.flatMap lib.below, ?_⟩
        rw [hks]
        simp

/-- Only in a leaf nothing is below the node. -/
theorem leaf_of_getLast (h : Rooted lib) (hi : i < lib.size)
    (hlast : (lib.below i).getLast? = some i) : lib.kids i = [] := by
  have hn : (lib.below i).Nodup := h.nodup_order hi
  rw [below_eq h hi] at hlast hn
  cases hkids : lib.kids i with
  | nil => rfl
  | cons k l =>
      have hk : k < lib.size := lt_size_of_mem_kids (i := i) (by simp [hkids])
      rw [hkids, List.flatMap_cons, below_eq h hk] at hlast hn
      rw [List.cons_append, List.getLast?_cons_cons] at hlast
      exact absurd (List.mem_of_getLast? hlast) (List.nodup_cons.mp hn).1

/-- The preorder goes from the last element below the second child to the third child. -/
theorem below_third (h : Rooted lib) (hi : i < lib.size) {j₁ j₂ j₃ : Nat} {rest : List Nat}
    (hkids : lib.kids i = j₁ :: j₂ :: j₃ :: rest) :
    ∃ before last after, lib.below 0 = before ++ last :: j₃ :: after ∧
      (lib.below j₂).getLast? = some last := by
  have hj₂ : j₂ < lib.size := lt_size_of_mem_kids (i := i) (by simp [hkids])
  have hj₃ : j₃ < lib.size := lt_size_of_mem_kids (i := i) (by simp [hkids])
  obtain ⟨before, after, heq⟩ := below_infix h h.pos (h.mem_order_root hi)
  obtain ⟨front, last, hlast⟩ := List.eq_nil_or_concat' (lib.below j₂) |>.resolve_left
    (by rw [below_eq h hj₂]; simp)
  rw [below_eq h hi, hkids] at heq
  simp only [List.flatMap_cons, hlast, below_eq h hj₃] at heq
  refine ⟨before ++ i :: (lib.below j₁ ++ front), last,
    (lib.kids j₃).flatMap lib.below ++ rest.flatMap lib.below ++ after, ?_, by rw [hlast]; simp⟩
  rw [← heq]
  simp

end

/-- When the tree is printed, every third child fits. -/
theorem fits_of_prints {lib : Lib} (h : Rooted lib) (hp : Prints lib lib.expected) :
    ∀ i < lib.size, lib.FitsAt i := by
  obtain ⟨fuel, mem, hmem, fuel', hprint⟩ := hp
  have hsame := linkAll_same hmem
  intro i
  induction i using Nat.strongRecOn with
  | ind i ih =>
      intro hi j₁ j₂ j₃ rest hkids
      have hchild := linkAll_third h hi (fun q hq => ih q hq (by omega)) hkids hmem
      have hsorted : (lib.kids i).Pairwise (· < ·) := pairwise_kids
      rw [hkids] at hsorted
      have hj₁₂ : j₁ < j₂ := (List.pairwise_cons.mp hsorted).1 j₂ List.mem_cons_self
      have hj₂ : j₂ < lib.size := lt_size_of_mem_kids (i := i) (by simp [hkids])
      have hj₃ : j₃ < lib.size := lt_size_of_mem_kids (i := i) (by simp [hkids])
      have hm : j₁ + 1 < lib.size := by omega
      -- what is printed behind `lib[j₁ + 1]` is its child, the third
      have hfollowed := (buildtree_followedBy h hsame hm hj₃ hchild).1 _ _ hprint
      rw [expected, walk_pids] at hfollowed
      obtain ⟨front, back, hcut⟩ := List.append_of_mem (h.mem_order_root hm)
      obtain ⟨tail, htail⟩ := hfollowed (front.map fun j => (lib.node j).pid)
        (back.map fun j => (lib.node j).pid) (by rw [hcut]; simp)
      cases back with
      | nil => exact absurd htail (by simp)
      | cons b back =>
          rw [List.map_cons] at htail
          have hb : b < lib.size :=
            (h.le_of_mem_order h.pos (j := b) (by rw [hcut]; simp)).2
          obtain rfl := h.pid_inj b j₃ hb hj₃ (List.cons.inj htail).1
          -- so `lib[j₁ + 1]` is the last element below the second child
          obtain ⟨before, last, after, hthird, hlast⟩ := below_third h hi hkids
          have hcut₁ : lib.below 0 = (front ++ [j₁ + 1]) ++ b :: back := by
            rw [← List.append_cons]
            exact hcut
          have hcut₂ : lib.below 0 = (before ++ [last]) ++ b :: after := by
            rw [← List.append_cons]
            exact hthird
          have heq := (cut_unique (h.nodup_order h.pos) hcut₁ hcut₂).1
          obtain rfl : j₁ + 1 = last := by simpa using congrArg List.getLast? heq
          have hle := h.le_of_mem_order hj₂ (List.mem_of_getLast? hlast)
          obtain rfl : j₂ = j₁ + 1 := by omega
          refine ⟨rfl, leaf_of_getLast h hj₂ hlast⟩

end Lib

open Lib

/-- The tree is printed exactly when each third child has the place it is linked at to
itself: the second child is the array element behind the first, and it has no children. -/
theorem prints_expected_iff {lib : Lib} (h : Rooted lib) :
    Prints lib lib.expected ↔ ∀ i < lib.size, lib.FitsAt i :=
  ⟨fits_of_prints h, prints_of_fits h⟩

/-- An array of nodes, of which only the `pid` and the `ppid` matter. -/
def ofPids (pids : List (Int × Int)) : Lib where
  size := pids.length
  node i :=
    let p := pids.getD i (0, 0)
    { string := "", depth := 0, pid := p.1, ppid := p.2, child := none, peer := none }

/-- The array of the file. -/
def fileLib : Lib := ofPids [(0, -1), (19, 0), (29, 0), (39, 0), (992, 19), (21, 19), (32, 992)]

theorem prints_expected_file : Prints fileLib fileLib.expected :=
  (prints_expected_iff (by decide)).mpr (by decide)

/-- A root with three children, the second of which has a child. -/
def bushy : Lib := ofPids [(0, -1), (1, 0), (2, 0), (3, 0), (4, 2)]

/-- The third child is printed before the child of the second, and never in its place. -/
theorem not_prints_expected :
    Rooted bushy ∧
      (∃ lines, Prints bushy lines ∧ lines.map Line.pid = [0, 1, 2, 3, 4]) ∧
      bushy.expected.map Line.pid = [0, 1, 2, 4, 3] ∧ ¬ Prints bushy bushy.expected := by
  have h : Rooted bushy := by decide
  refine ⟨h, ?_, by decide, fun hp => ?_⟩
  · obtain ⟨lines, hlines, hpids⟩ : ∃ lines, (bushy.linkAll 5).bind
        (fun linked => linked.buildtree 9 (addr 0)) = some lines ∧
          lines.map Line.pid = [0, 1, 2, 3, 4] :=
      Option.map_eq_some_iff.mp (by decide)
    obtain ⟨linked, hlinked, hbuild⟩ := Option.bind_eq_some_iff.mp hlines
    exact ⟨lines, ⟨5, linked, hlinked, 9, hbuild⟩, hpids⟩
  · exact absurd (fits_of_prints h hp) (by decide)

end OsLabs.Tree
