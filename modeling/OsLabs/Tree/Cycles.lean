import OsLabs.Tree.Chains
import OsLabs.Tree.Printing

/-!
# OsLabs.Tree.Cycles

When `tree/tree.c` comes to an end, for any array of nodes with different pids.

`buildtree` goes down from a node to the nodes of its chain. These are its children only
in part, as a chain takes up nodes that belong elsewhere, and nothing keeps a node out of
a chain below itself: `ppid`s are not checked, and that of the first element is not even
set by `main`. But a node is in one chain only, so whatever the `ppid`s are, a cycle that
can be reached from the first element goes through it. Where there is none, the recursion
ends (`prints_iff`).

What is in the chains can be read off the `ppid`s when the element that a third child is
put below has no children that are yet to come (`RoomAt`): then the nodes above another one
are those of `Above`, and the question is whether the first element is one of its own
(`prints_iff_of_room`).
-/

namespace OsLabs.Tree

namespace Lib

open Relation

/-- The node `y` is in the chain of the element `x`. -/
def Hangs (C : Nat → List Nat) (x y : Nat) : Prop := y ∈ C x

/-- The element below which a child of the element `p` is put, when these children are before
it: its parent for the first two, and from the third on the element behind the first. -/
def seat (p : Nat) : List Nat → Nat
  | c :: _ :: _ => c + 1
  | _ => p

/-- The element `e` is the one below which the element `j` is put. -/
def Above (lib : Lib) (e j : Nat) : Prop :=
  ∃ p < lib.size, ∃ before after, lib.kids p = before ++ j :: after ∧ seat p before = e

/-- There is room for the third and the later children of the element `p`: the element behind
the first child has got its own children before, or has none. -/
def RoomAt (lib : Lib) (p : Nat) : Prop :=
  ∀ j₁ j₂ j₃ rest, lib.kids p = j₁ :: j₂ :: j₃ :: rest → j₁ + 1 ≤ p ∨ lib.kids (j₁ + 1) = []

theorem FitsAt.roomAt {lib : Lib} {p : Nat} (h : lib.FitsAt p) : lib.RoomAt p := by
  intro j₁ j₂ j₃ rest hkids
  obtain ⟨rfl, hleaf⟩ := h j₁ j₂ j₃ rest hkids
  exact .inr hleaf

section
variable {lib mem : Lib} {C : Nat → List Nat} {next : Nat → Option Nat} {i n x : Nat}
variable {lines : List Line}

/-! ### Down from a node -/

/-- The loop of `buildtree` calls it for each node of a chain, with less fuel. -/
theorem Chained.peers_call (h : lib.Chained C next mem) {o : Option Nat} {l : List Nat}
    (hlinked : OsLabs.Linked next o l none) (hlt : ∀ y ∈ l, y < mem.size) {fuel : Nat}
    (hs : mem.peers fuel (o.map addr) = some lines) :
    ∀ y ∈ l, ∃ fuel' < fuel, ∃ out, mem.buildtree fuel' (addr y) = some out := by
  induction l generalizing o fuel lines with
  | nil => exact fun y hy => absurd hy List.not_mem_nil
  | cons a l ih =>
      obtain ⟨rfl, hrest⟩ := hlinked
      cases fuel with
      | zero => exact absurd hs (by simp [peers])
      | succ fuel =>
          have ha : a < mem.size := hlt a List.mem_cons_self
          have hpeer : (mem.node a).peer = (next a).map addr := h.peer a
          rw [Option.map_some, peers, deref_addr ha] at hs
          cases hbuild : mem.buildtree fuel (addr a) with
          | none => simp [hbuild] at hs
          | some out =>
              simp only [hbuild, hpeer] at hs
              obtain ⟨rest, hs, -⟩ := Option.map_eq_some_iff.mp hs
              have hcalls := ih hrest (fun y hy => hlt y (List.mem_cons_of_mem a hy)) hs
              intro y hy
              rcases List.mem_cons.mp hy with rfl | hy
              · exact ⟨fuel, Nat.lt_succ_self fuel, out, hbuild⟩
              · obtain ⟨fuel', hfuel, hout⟩ := hcalls y hy
                exact ⟨fuel', Nat.lt_succ_of_lt hfuel, hout⟩

theorem Chained.buildtree_call (h : lib.Chained C next mem) (hP : lib.Placed i n C)
    (hx : x < lib.size) {fuel : Nat} (hs : mem.buildtree fuel (addr x) = some lines) :
    ∀ y ∈ C x, ∃ fuel' < fuel, ∃ out, mem.buildtree fuel' (addr y) = some out := by
  have hsize : mem.size = lib.size := h.same.size
  cases fuel with
  | zero => exact absurd hs (by simp [buildtree])
  | succ fuel =>
      have hchild : (mem.node x).child = (C x).head?.map addr := h.child x
      rw [buildtree, deref_addr (hsize ▸ hx)] at hs
      simp only [hchild] at hs
      cases hC : C x with
      | nil => exact fun y hy => absurd hy List.not_mem_nil
      | cons c l =>
          rw [hC, List.head?_cons, Option.map_some] at hs
          obtain ⟨rest, hs, -⟩ := Option.map_eq_some_iff.mp hs
          have hlinked := h.linked x
          rw [hC, List.head?_cons] at hlinked
          have hlt : ∀ y ∈ c :: l, y < mem.size := fun y hy => hsize ▸ hP.lt_size (hC ▸ hy)
          intro y hy
          obtain ⟨fuel', hfuel, hout⟩ := h.peers_call hlinked hlt hs y hy
          exact ⟨fuel', Nat.lt_succ_of_lt hfuel, hout⟩

/-- A call that returns is not for a node below itself: there would be a call that returns
with less fuel for the next node of the cycle. -/
theorem Chained.not_cycle (h : lib.Chained C next mem) (hP : lib.Placed i n C)
    (hx : x < lib.size) {fuel : Nat} (hs : mem.buildtree fuel (addr x) = some lines) :
    ¬ TransGen (Hangs C) x x := by
  induction fuel using Nat.strongRecOn generalizing x lines with
  | ind fuel ih =>
      intro hcycle
      obtain ⟨y, hxy, hyx⟩ := TransGen.head'_iff.mp hcycle
      obtain ⟨fuel', hfuel, out, hout⟩ := h.buildtree_call hP hx hs y hxy
      exact ih fuel' hfuel (hP.lt_size hxy) hout (TransGen.tail' hyx hxy)

/-! ### The recursion ends -/

theorem Chained.prints_chain (h : lib.Chained C next mem) {o : Option Nat} {l : List Nat}
    (hlinked : OsLabs.Linked next o l none) (hlt : ∀ y ∈ l, y < mem.size)
    (hnodes : ∀ y ∈ l, ∃ lines, mem.PrintsNode (addr y) lines) :
    ∃ lines, mem.PrintsPeers (o.map addr) lines := by
  induction l generalizing o with
  | nil =>
      rw [linked_nil] at hlinked
      exact ⟨[], hlinked ▸ printsPeers_none⟩
  | cons a l ih =>
      obtain ⟨rfl, hrest⟩ := hlinked
      obtain ⟨out, hout⟩ := hnodes a List.mem_cons_self
      obtain ⟨rest, hpeers⟩ := ih hrest (fun y hy => hlt y (List.mem_cons_of_mem a hy))
        fun y hy => hnodes y (List.mem_cons_of_mem a hy)
      rw [← h.peer] at hpeers
      exact ⟨out ++ rest, printsPeers_some (hlt a List.mem_cons_self) hout hpeers⟩

/-- A node is in one chain. -/
theorem Placed.leftUnique (h : lib.Placed i n C) : Relator.LeftUnique (Hangs C) :=
  fun p q x hp hq => h.disjoint p q x hp hq

theorem Chained.prints_node (h : lib.Chained C next mem) (hP : lib.Placed i n C)
    (hx : x < lib.size) (hcycle : ¬ TransGen (Hangs C) x x) :
    ∃ lines, mem.PrintsNode (addr x) lines := by
  have hsize : mem.size = lib.size := h.same.size
  have hfin : {y | TransGen (Hangs C) x y}.Finite := by
    refine (Set.finite_lt_nat lib.size).subset fun y hy => ?_
    obtain ⟨z, -, hzy⟩ := TransGen.tail'_iff.mp hy
    exact hP.lt_size hzy
  have hnode : x < lib.size → ∃ lines, mem.PrintsNode (addr x) lines := by
    refine below_induction (P := fun x => x < lib.size → ∃ lines, mem.PrintsNode (addr x) lines)
      hP.leftUnique hfin hcycle fun x ih hx => ?_
    have hxlt : x < mem.size := hsize ▸ hx
    have hchild := h.child x
    cases hC : C x with
    | nil =>
        rw [hC] at hchild
        exact ⟨_, printsNode_leaf hxlt hchild⟩
    | cons c l =>
        have hlt : ∀ y ∈ C x, y < mem.size := fun y hy => hsize ▸ hP.lt_size hy
        obtain ⟨rest, hrest⟩ := h.prints_chain (h.linked x) hlt
          fun y hy => ih y hy (hP.lt_size hy)
        rw [hC, List.head?_cons, Option.map_some] at hchild hrest
        exact ⟨_, printsNode_child hxlt hchild hrest⟩
  exact hnode hx

/-! ### The program -/

/-- A program that comes to an end has linked no cycle through the first element. -/
theorem chains_of_prints (hpid : lib.DistinctPids) (h : Prints lib lines) :
    0 < lib.size ∧ ∃ C, lib.chains = some C ∧ ¬ TransGen (Hangs C) 0 0 := by
  obtain ⟨fuel, mem, hlink, fuel', hbuild⟩ := h
  obtain ⟨C, hC, hP, next, hmem⟩ := linkAll_shows hpid hlink
  have hpos : 0 < lib.size := by
    by_contra hzero
    have hderef : mem.deref (addr 0) = none := by
      rw [deref, if_neg]
      simp [addr, hmem.same.size]
      omega
    cases fuel' with
    | zero => exact absurd hbuild (by simp [buildtree])
    | succ fuel' => simp [buildtree, hderef] at hbuild
  exact ⟨hpos, C, hC, hmem.not_cycle hP hpos hbuild⟩

theorem prints_of_chains (hpid : lib.DistinctPids) (hpos : 0 < lib.size)
    (hC : lib.chains = some C) (hcycle : ¬ TransGen (Hangs C) 0 0) :
    ∃ lines, Prints lib lines := by
  obtain ⟨mem, hlink, hP, next, hmem⟩ := linkAll_of_chains hpid (Nat.lt_succ_self _) hC
  obtain ⟨lines, hprints⟩ := hmem.prints_node hP hpos hcycle
  exact ⟨lines, lib.size + 1, mem, hlink, hprints⟩

/-- The loops and the recursion end exactly when no node is linked behind the array and the
first element is not below itself in the chains. -/
theorem prints_iff (hpid : lib.DistinctPids) :
    (∃ lines, Prints lib lines) ↔
      0 < lib.size ∧ ∃ C, lib.chains = some C ∧ ¬ TransGen (Hangs C) 0 0 := by
  constructor
  · intro h
    obtain ⟨lines, h⟩ := h
    exact chains_of_prints hpid h
  · intro h
    obtain ⟨hpos, C, hC, hcycle⟩ := h
    exact prints_of_chains hpid hpos hC hcycle

theorem prints_iff_of_chains (hpid : lib.DistinctPids) (hC : lib.chains = some C) :
    (∃ lines, Prints lib lines) ↔ 0 < lib.size ∧ ¬ TransGen (Hangs C) 0 0 := by
  rw [prints_iff hpid]
  refine and_congr_right fun _ => ⟨?_, ?_⟩
  · intro h
    obtain ⟨D, hD, hcycle⟩ := h
    obtain rfl := Option.some.inj (hC.symm.trans hD)
    exact hcycle
  · intro h
    exact ⟨C, hC, h⟩

/-! ### Without a parent of the first element -/

/-- Nothing is above the first element if it has no parent. -/
theorem not_cycle_of_root (hpid : lib.DistinctPids) (hroot : ∀ p, ¬ lib.Parent p 0)
    (hC : lib.chains = some C) : ¬ TransGen (Hangs C) 0 0 := by
  obtain ⟨mem, -, hP, -⟩ := linkAll_of_chains hpid (Nat.lt_succ_self _) hC
  intro hcycle
  obtain ⟨x, -, hx⟩ := TransGen.tail'_iff.mp hcycle
  obtain ⟨p, hp, -⟩ := hP.parent x 0 hx
  exact hroot p hp

/-- Then the program ends whatever the other `ppid`s are, if it stays in the array. -/
theorem prints_iff_inBounds (hpid : lib.DistinctPids) (hroot : ∀ p, ¬ lib.Parent p 0) :
    (∃ lines, Prints lib lines) ↔ 0 < lib.size ∧ lib.InBounds := by
  constructor
  · intro h
    obtain ⟨lines, h⟩ := h
    obtain ⟨hpos, C, hC, -⟩ := chains_of_prints hpid h
    exact ⟨hpos, Option.isSome_iff_exists.mpr ⟨C, hC⟩⟩
  · intro h
    obtain ⟨hpos, hin⟩ := h
    obtain ⟨C, hC⟩ := Option.isSome_iff_exists.mp hin
    exact prints_of_chains hpid hpos hC (not_cycle_of_root hpid hroot hC)

/-! ### Room for the third child -/

theorem seat_take {p : Nat} {l : List Nat} : seat p (l.take 2) = seat p l := by
  rcases l with _ | ⟨a, _ | ⟨b, l⟩⟩ <;> rfl

theorem target_eq : target C i = seat i (C i) := rfl

/-- Lists that begin alike still do when both are longer by the same element. -/
theorem take_two_append {l l' : List Nat} (h : l.take 2 = l'.take 2) (j : Nat) :
    (l ++ [j]).take 2 = (l' ++ [j]).take 2 := by
  rcases l with _ | ⟨a, _ | ⟨b, l⟩⟩ <;> rcases l' with _ | ⟨a', _ | ⟨b', l'⟩⟩ <;> simp_all

/-- What is in the chains when there is room for each third child: the children looked at so
far, each below its own element, and on the chains that are still to be looked at none but the
own children in the first two places. -/
structure Seated (lib : Lib) (i n : Nat) (C : Nat → List Nat) : Prop where
  mem : ∀ e j, j ∈ C e ↔
    ∃ p before after, lib.stage i n p = before ++ j :: after ∧ seat p before = e
  first : ∀ e, i ≤ e → lib.kids e ≠ [] → (C e).take 2 = (lib.stage i n e).take 2

theorem Seated.target_eq (h : lib.Seated i n C) (hkid : n ∈ lib.kids i) :
    target C i = seat i (lib.stage i n i) := by
  have hfirst := h.first i (Nat.le_refl i) (List.ne_nil_of_mem hkid)
  rw [Lib.target_eq, ← seat_take, hfirst, seat_take]

/-- The next child is at least the third. -/
theorem RoomAt.third {c d : Nat} {l : List Nat} (h : lib.RoomAt i) (hn : n < lib.size)
    (hkid : (lib.node n).ppid = (lib.node i).pid) (hl : lib.stage i n i = c :: d :: l) :
    c + 1 < lib.size ∧ (c + 1 ≤ i ∨ lib.kids (c + 1) = []) := by
  obtain ⟨more, hmore⟩ : lib.stage i (n + 1) i <+: lib.kids i := stage_isPrefix hn
  rw [stage_succ, if_pos hkid, Function.update_self, hl] at hmore
  obtain ⟨j, rest, hrest⟩ : ∃ j rest, l ++ [n] ++ more = j :: rest :=
    List.exists_cons_of_ne_nil (by simp)
  have hkids : lib.kids i = c :: d :: j :: rest := by rw [← hmore, ← hrest]; rfl
  have hsorted : (lib.kids i).Pairwise (· < ·) := pairwise_kids
  rw [hkids] at hsorted
  have hcd : c < d := (List.pairwise_cons.mp hsorted).1 d List.mem_cons_self
  have hd : d < lib.size := (mem_kids.mp (hkids ▸ by simp : d ∈ lib.kids i)).1
  exact ⟨by omega, h c d j rest hkids⟩

/-- A round. -/
theorem Seated.hang (h : lib.Seated i n C) (hroom : lib.RoomAt i) (hi : i < lib.size)
    (hn : n < lib.size) : ∃ C', lib.hang C i n = some C' ∧ lib.Seated i (n + 1) C' := by
  by_cases hkid : (lib.node n).ppid = (lib.node i).pid
  · have htarget := h.target_eq (mem_kids.mpr ⟨hn, hkid⟩)
    have hstage : lib.stage i (n + 1) =
        Function.update (lib.stage i n) i (lib.stage i n i ++ [n]) := by
      rw [stage_succ, if_pos hkid]
    have hlt : seat i (lib.stage i n i) < lib.size := by
      rcases hl : lib.stage i n i with _ | ⟨c, _ | ⟨d, l⟩⟩
      · exact hi
      · exact hi
      · exact (hroom.third hn hkid hl).1
    refine ⟨_, by rw [Lib.hang, if_pos hkid, htarget, if_pos hlt], ?_, ?_⟩
    · intro e j
      rw [mem_update_append, h.mem, hstage, place_update, eq_comm]
    · intro e hie hne
      rw [hstage]
      by_cases hei : e = i
      · subst hei
        rw [Function.update_self]
        by_cases hseat : e = seat e (lib.stage e n e)
        · rw [← hseat, Function.update_self]
          exact take_two_append (h.first e hie hne) n
        · rw [Function.update_of_ne hseat, h.first e hie hne]
          rcases hl : lib.stage e n e with _ | ⟨c, _ | ⟨d, l⟩⟩
          · exact absurd (by rw [hl]; rfl) hseat
          · exact absurd (by rw [hl]; rfl) hseat
          · rfl
      · rw [Function.update_of_ne hei, Function.update_of_ne, h.first e hie hne]
        -- no third child is put on a chain that is still to be looked at
        intro heq
        rcases hl : lib.stage i n i with _ | ⟨c, _ | ⟨d, l⟩⟩
        · exact hei (by rw [heq, hl]; rfl)
        · exact hei (by rw [heq, hl]; rfl)
        · rw [hl] at heq
          subst heq
          rcases (hroom.third hn hkid hl).2 with hle | hnone
          · exact hei (Nat.le_antisymm hle hie)
          · exact hne hnone
  · have hstage : lib.stage i (n + 1) = lib.stage i n := by rw [stage_succ, if_neg hkid]
    exact ⟨C, by rw [Lib.hang, if_neg hkid], hstage ▸ h.mem, hstage ▸ h.first⟩

/-- A row. -/
theorem Seated.hangRow (h : lib.Seated i 0 C) (hroom : lib.RoomAt i) (hi : i < lib.size) :
    ∃ C', lib.hangRow C i = some C' ∧ lib.Seated (i + 1) 0 C' := by
  have hrun : ∃ C', lib.hangRow C i = some C' ∧ lib.Seated i lib.size C' :=
    loop_total (I := fun n C => lib.Seated i n C) h fun n C hn hC => hC.hang hroom hi hn
  obtain ⟨C', hC', hend⟩ := hrun
  refine ⟨C', hC', ?_, fun e he => ?_⟩
  · rw [stage_zero]
    exact hend.mem
  · rw [stage_zero]
    exact hend.first e (Nat.le_of_succ_le he)

theorem chains_of_room (hroom : ∀ p < lib.size, lib.RoomAt p) :
    ∃ C, lib.chains = some C ∧ Hangs C = lib.Above := by
  have hstart : lib.Seated 0 0 fun _ => [] := by
    refine ⟨fun e j => iff_of_false List.not_mem_nil ?_, fun e _ _ => by rw [stage_start]⟩
    intro h
    obtain ⟨p, before, after, hp, -⟩ := h
    rw [stage_start] at hp
    exact absurd hp (by simp)
  have hrun : ∃ C, lib.chains = some C ∧ lib.Seated lib.size 0 C :=
    loop_total (I := fun i C => lib.Seated i 0 C) hstart fun i C hi hC => hC.hangRow (hroom i hi) hi
  obtain ⟨C, hC, hend⟩ := hrun
  refine ⟨C, hC, ?_⟩
  funext e j
  refine propext ((hend.mem e j).trans ⟨?_, ?_⟩)
  · intro h
    obtain ⟨p, before, after, hp, hseat⟩ := h
    have hlt : p < lib.size := lt_of_stage_end (x := j) (by simp [hp])
    exact ⟨p, hlt, before, after, (stage_end hlt).symm.trans hp, hseat⟩
  · intro h
    obtain ⟨p, hlt, before, after, hp, hseat⟩ := h
    exact ⟨p, before, after, (stage_end hlt).trans hp, hseat⟩

/-- Where there is room for each third child, the program ends exactly when the first element is
not above itself. -/
theorem prints_iff_of_room (hpid : lib.DistinctPids) (hroom : ∀ p < lib.size, lib.RoomAt p) :
    (∃ lines, Prints lib lines) ↔ 0 < lib.size ∧ ¬ TransGen lib.Above 0 0 := by
  obtain ⟨C, hC, habove⟩ := chains_of_room hroom
  rw [prints_iff_of_chains hpid hC, habove]

/-- Two children are put below their parent. -/
theorem above_of_pairs (hpairs : ∀ p < lib.size, (lib.kids p).length ≤ 2) :
    lib.Above = lib.Parent := by
  have hseat : ∀ {p j before after}, p < lib.size → lib.kids p = before ++ j :: after →
      seat p before = p := by
    intro p j before after hp hkids
    have hlen := hpairs p hp
    rw [hkids, List.length_append, List.length_cons] at hlen
    rcases before with _ | ⟨c, _ | ⟨d, before⟩⟩
    · rfl
    · rfl
    · simp only [List.length_cons] at hlen
      omega
  funext e j
  refine propext ⟨?_, ?_⟩
  · intro h
    obtain ⟨p, hp, before, after, hkids, rfl⟩ := h
    rw [hseat hp hkids]
    exact ⟨hp, mem_kids.mp (by simp [hkids])⟩
  · intro h
    obtain ⟨before, after, hkids⟩ := List.append_of_mem (mem_kids.mpr h.2)
    exact ⟨e, h.1, before, after, hkids, hseat h.1 hkids⟩

/-- With at most two children for each node, the program ends exactly when the first element
is not above itself by the `ppid`s. -/
theorem prints_iff_of_pairs (hpid : lib.DistinctPids)
    (hpairs : ∀ p < lib.size, (lib.kids p).length ≤ 2) :
    (∃ lines, Prints lib lines) ↔ 0 < lib.size ∧ ¬ TransGen lib.Parent 0 0 := by
  have hroom : ∀ p < lib.size, lib.RoomAt p := by
    intro p hp j₁ j₂ j₃ rest hkids
    have hlen := hpairs p hp
    rw [hkids] at hlen
    simp only [List.length_cons] at hlen
    omega
  obtain ⟨C, hC, habove⟩ := chains_of_room hroom
  rw [prints_iff_of_chains hpid hC, habove, above_of_pairs hpairs]

end

/-- The array of the file, when the `ppid` of the root is not that of a node. -/
theorem prints_file : ∃ lines, Prints fileLib lines := by
  have hpid : fileLib.DistinctPids := by decide
  have hfits : ∀ p < fileLib.size, fileLib.FitsAt p := by decide
  refine (prints_iff_of_room hpid fun p hp => (hfits p hp).roomAt).mpr ⟨by decide, fun hcycle => ?_⟩
  obtain ⟨e, -, p, hp, before, after, hkids, -⟩ := TransGen.tail'_iff.mp hcycle
  exact (by decide : ∀ p < fileLib.size, 0 ∉ fileLib.kids p) p hp (by simp [hkids])

/-- The array of the file, when it is the 0 that the memory may well hold. -/
def zeroRoot : Lib :=
  ofPids [(0, 0), (19, 0), (29, 0), (39, 0), (992, 19), (21, 19), (32, 992)]

/-- The third child of the second node is the parent of the first, and is linked to the
child of the first, which is behind the second's own first child. -/
def tangled : Lib := ofPids [(0, 5), (1, -1), (2, 1), (3, 0), (4, 1), (5, 1)]

/-- The program does not end on the array of the file, nor on one without a cycle in the
`ppid`s. -/
theorem not_prints : (zeroRoot.DistinctPids ∧ ¬ ∃ lines, Prints zeroRoot lines) ∧
    tangled.DistinctPids ∧ Acyclic tangled.Parent ∧ ¬ ∃ lines, Prints tangled lines := by
  have hzero : zeroRoot.DistinctPids := by decide
  have htangled : tangled.DistinctPids := by decide
  refine ⟨⟨hzero, ?_⟩, htangled, acyclic_of_ranks [2, 0, 1, 3, 1, 1] (by decide), ?_⟩
  · intro h
    obtain ⟨lines, h⟩ := h
    obtain ⟨-, C, hC, hcycle⟩ := chains_of_prints hzero h
    have hself : (zeroRoot.chains.map fun C => C 0) = some [0, 1] := by decide
    rw [hC, Option.map_some, Option.some.injEq] at hself
    have hstep : Hangs C 0 0 := by simp [Hangs, hself]
    exact hcycle (.single hstep)
  · intro h
    obtain ⟨lines, h⟩ := h
    obtain ⟨-, C, hC, hcycle⟩ := chains_of_prints htangled h
    have hlists : (tangled.chains.map fun C => (C 0, C 3, C 5)) = some ([3], [5], [0]) := by
      decide
    rw [hC, Option.map_some, Option.some.injEq, Prod.mk.injEq, Prod.mk.injEq] at hlists
    obtain ⟨h0, h3, h5⟩ := hlists
    have hstep₀ : Hangs C 0 3 := by simp [Hangs, h0]
    have hstep₃ : Hangs C 3 5 := by simp [Hangs, h3]
    have hstep₅ : Hangs C 5 0 := by simp [Hangs, h5]
    exact hcycle (.head hstep₀ (.head hstep₃ (.single hstep₅)))

/-- With a root, the node at the end of the array may still be linked to one whose next child
is then to be linked behind it. -/
example : ¬ (ofPids [(0, -1), (1, 0), (2, 0), (3, 2), (4, 2), (5, 0)]).InBounds := by decide

end Lib

end OsLabs.Tree
