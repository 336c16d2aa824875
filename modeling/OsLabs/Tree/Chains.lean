import OsLabs.Chain
import OsLabs.Tree.Linking

/-!
# OsLabs.Tree.Chains

What the linking loops of `tree/tree.c` make of any array, also of one that does not
describe a tree.

The `child` of an element begins a chain, which goes on along the `peer`s. A round of the
loops puts a node at the end of a chain: at the end of that of its parent as long as
there are fewer than two nodes in it, and from then on at the end of the chain of the
array element behind the first of them (`target`). So the loops compute a list for each
element (`chains`), and the memory has these lists in it (`Chained`). As a node has one
parent, it is put in a chain once; the chains have no node in common, and each call of
`findpeertail` comes to an end. The one thing that can go wrong is that the element
behind the first is none of the array (`linkAll_ends_iff`).
-/

namespace OsLabs.Tree

namespace Lib

/-! ### The chains -/

/-- The element to whose chain the next child of the element `i` is appended. -/
def target (C : Nat → List Nat) (i : Nat) : Nat :=
  match C i with
  | c :: _ :: _ => c + 1
  | _ => i

/-- A round: the element `j` goes to the end of a chain if it is a child of the element
`i`. There is no such chain behind the array. -/
def hang (lib : Lib) (C : Nat → List Nat) (i j : Nat) : Option (Nat → List Nat) :=
  if (lib.node j).ppid = (lib.node i).pid then
    if target C i < lib.size then
      some (Function.update C (target C i) (C (target C i) ++ [j]))
    else
      none
  else
    some C

/-- The children of one element. -/
def hangRow (lib : Lib) (C : Nat → List Nat) (i : Nat) : Option (Nat → List Nat) :=
  loop (fun C j => lib.hang C i j) lib.size C

/-- The chains in the end. -/
def chains (lib : Lib) : Option (Nat → List Nat) := loop lib.hangRow lib.size fun _ => []

/-- Each child has an element of the array to whose chain it is appended. -/
def InBounds (lib : Lib) : Prop := lib.chains.isSome

instance (lib : Lib) : Decidable lib.InBounds := inferInstanceAs (Decidable (_ = true))

/-- The loops, at the element `i` with the first `n` looked at as its children, have been at
`j` as a child of `p`. -/
def Passed (i n p j : Nat) : Prop := p < i ∨ (p = i ∧ j < n)

/-- What holds of the chains at that point of the loops. -/
structure Placed (lib : Lib) (i n : Nat) (C : Nat → List Nat) : Prop where
  nodup : ∀ e, (C e).Nodup
  disjoint : ∀ e e' x, x ∈ C e → x ∈ C e' → e = e'
  parent : ∀ e, ∀ x ∈ C e, ∃ p, lib.Parent p x ∧ Passed i n p x

/-- The chains, in memory: `next` is the element that `peer` points to. -/
structure Chained (lib : Lib) (C : Nat → List Nat) (next : Nat → Option Nat) (mem : Lib) :
    Prop where
  same : lib.Same mem
  child : ∀ e, mem.field e .child = (C e).head?.map addr
  peer : ∀ x, mem.field x .peer = (next x).map addr
  linked : ∀ e, OsLabs.Linked next (C e).head? (C e) none
  free : ∀ x, (∀ e, x ∉ C e) → next x = none

/-- The chains and the memory at that point of the loops. -/
def Shows (lib : Lib) (i n : Nat) (C : Nat → List Nat) (mem : Lib) : Prop :=
  lib.Placed i n C ∧ ∃ next, lib.Chained C next mem

section
variable {lib mem mem' : Lib} {C C' : Nat → List Nat} {next : Nat → Option Nat}
variable {i j n p e x : Nat}

/-! ### One more node in a chain -/

theorem passed_succ : Passed i (n + 1) p j ↔ Passed i n p j ∨ (p = i ∧ j = n) := by
  simp only [Passed]
  omega

theorem Passed.of_ne (h : Passed i (n + 1) p j) (hj : j ≠ n) : Passed i n p j := by
  rcases passed_succ.mp h with hold | ⟨-, heq⟩
  · exact hold
  · exact absurd heq hj

theorem passed_row (hj : j < n) : Passed i n p j ↔ Passed (i + 1) 0 p j := by
  simp only [Passed]
  omega

theorem mem_update_append : x ∈ Function.update C e (C e ++ [j]) i ↔
    x ∈ C i ∨ (i = e ∧ x = j) := by
  by_cases hi : i = e
  · subst hi
    simp
  · simp [hi]

/-- A node that has not been looked at is in no chain. -/
theorem Placed.fresh (h : lib.Placed i n C) (hpid : lib.DistinctPids) (hpar : lib.Parent i n) :
    n ∉ C e := by
  intro hmem
  obtain ⟨p, hp, hbefore⟩ := h.parent e n hmem
  obtain rfl := hpid.parent_unique hpar hp
  simp only [Passed] at hbefore
  omega

theorem Placed.append_nodup (h : lib.Placed i n C) (hfresh : ∀ e, j ∉ C e) (e : Nat) :
    (C e ++ [j]).Nodup := by
  rw [List.nodup_append]
  refine ⟨h.nodup e, List.nodup_singleton j, fun a ha b hb => ?_⟩
  intro heq
  subst heq
  obtain rfl := List.mem_singleton.mp hb
  exact hfresh e ha

theorem Placed.append (h : lib.Placed i n C) (hpid : lib.DistinctPids) (hpar : lib.Parent i n) :
    lib.Placed i (n + 1) (Function.update C e (C e ++ [n])) := by
  constructor
  case nodup =>
    intro e'
    by_cases he : e' = e
    · subst he
      rw [Function.update_self]
      exact h.append_nodup (fun _ => h.fresh hpid hpar) e'
    · rw [Function.update_of_ne he]
      exact h.nodup e'
  case disjoint =>
    intro e₁ e₂ x h₁ h₂
    rcases mem_update_append.mp h₁ with hx | ⟨rfl, rfl⟩
    · rcases mem_update_append.mp h₂ with hx' | ⟨-, rfl⟩
      · exact h.disjoint e₁ e₂ x hx hx'
      · exact absurd hx (h.fresh hpid hpar)
    · rcases mem_update_append.mp h₂ with hx' | ⟨rfl, -⟩
      · exact absurd hx' (h.fresh hpid hpar)
      · rfl
  case parent =>
    intro e' x hx
    rcases mem_update_append.mp hx with hx | ⟨-, rfl⟩
    · obtain ⟨p, hp, hbefore⟩ := h.parent e' x hx
      exact ⟨p, hp, passed_succ.mpr (.inl hbefore)⟩
    · exact ⟨i, hpar, passed_succ.mpr (.inr ⟨rfl, rfl⟩)⟩

/-- A node that is no child of the element `i` stays where it is. -/
theorem Placed.skip (h : lib.Placed i n C) : lib.Placed i (n + 1) C := by
  refine { h with parent := fun e x hx => ?_ }
  obtain ⟨p, hp, hbefore⟩ := h.parent e x hx
  exact ⟨p, hp, passed_succ.mpr (.inl hbefore)⟩

theorem Placed.row (h : lib.Placed i lib.size C) : lib.Placed (i + 1) 0 C := by
  refine { h with parent := fun e x hx => ?_ }
  obtain ⟨p, hp, hbefore⟩ := h.parent e x hx
  exact ⟨p, hp, (passed_row hp.2.1).mp hbefore⟩

theorem Placed.lt_size (h : lib.Placed i n C) (hx : x ∈ C e) : x < lib.size := by
  obtain ⟨p, hp, -⟩ := h.parent e x hx
  exact hp.2.1

theorem Placed.length_le (h : lib.Placed i n C) : (C e).length ≤ lib.size := by
  have hsub : C e ⊆ List.range lib.size := fun x hx => List.mem_range.mpr (h.lt_size hx)
  have hle := (List.subperm_of_subset (h.nodup e) hsub).length_le
  rwa [List.length_range] at hle

/-! ### In memory -/

/-- The pointer field at the end of the chain of the element `e`. -/
def hook (e : Nat) (l : List Nat) : Nat × Field :=
  match l.getLast? with
  | none => (e, .child)
  | some t => (t, .peer)

/-- The first node of a chain goes to the `child`, and the `peer`s stay as they are. -/
theorem Chained.append_first (h : lib.Chained C next mem) (hfresh : ∀ e, j ∉ C e)
    (hC : C e = []) (d : Nat) :
    lib.Chained (Function.update C e [j]) next
      ((mem.setField e .child (some (addr j))).setDepth j d) := by
  constructor
  case same => exact (h.same.setField _ _ _).setDepth _ _
  case child =>
    intro e'
    rw [field_setDepth, field_setField]
    by_cases he : e' = e
    · simp [he]
    · simp [he, h.child]
  case peer =>
    intro x
    rw [field_setDepth, field_setField]
    simp [h.peer]
  case linked =>
    intro e'
    by_cases he : e' = e
    · simp [he, h.free j hfresh]
    · rw [Function.update_of_ne he]
      exact h.linked e'
  case free =>
    intro x hx
    refine h.free x fun e' hmem => hx e' ?_
    by_cases he : e' = e
    · rw [he, hC] at hmem
      exact absurd hmem List.not_mem_nil
    · rwa [Function.update_of_ne he]

/-- Any other goes to the `peer` of the last. -/
theorem Chained.append_last {l : List Nat} {t : Nat} (h : lib.Chained C next mem)
    (hP : lib.Placed i n C) (hfresh : ∀ e, j ∉ C e) (hC : C e = l ++ [t]) (d : Nat) :
    lib.Chained (Function.update C e (l ++ [t, j])) (Function.update next t (some j))
      ((mem.setField t .peer (some (addr j))).setDepth j d) := by
  have ht : t ∈ C e := by simp [hC]
  constructor
  case same => exact (h.same.setField _ _ _).setDepth _ _
  case child =>
    intro e'
    rw [field_setDepth, field_setField]
    by_cases he : e' = e
    · subst he
      simp [h.child, hC]
    · simp [he, h.child]
  case peer =>
    intro x
    rw [field_setDepth, field_setField]
    by_cases hx : x = t
    · simp [hx]
    · simp [hx, h.peer]
  case linked =>
    intro e'
    by_cases he : e' = e
    · subst he
      have hlinked := h.linked e'
      have hnodup : (l ++ [t, j]).Nodup := by simpa [hC] using hP.append_nodup hfresh e'
      have hhead : (l ++ [t, j]).head? = (l ++ [t]).head? := by cases l <;> rfl
      rw [hC] at hlinked
      rw [Function.update_self, hhead]
      exact hlinked.snoc hnodup (h.free j hfresh)
    · rw [Function.update_of_ne he]
      have hne : t ∉ C e' := fun ht' => he (hP.disjoint e' e t ht' ht)
      exact (linked_update hne).mpr (h.linked e')
  case free =>
    intro x hx
    have hstays : ∀ e', x ∉ C e' := by
      intro e' hmem
      refine hx e' ?_
      by_cases he : e' = e
      · rw [he, hC] at hmem
        rw [he, Function.update_self]
        rcases List.mem_append.mp hmem with hxl | hxt
        · exact List.mem_append_left _ hxl
        · simp [List.mem_singleton.mp hxt]
      · rwa [Function.update_of_ne he]
    have hne : x ≠ t := by
      intro heq
      subst heq
      exact hstays e ht
    rw [Function.update_of_ne hne]
    exact h.free x hstays

/-- Writing the pointer at its end appends to a chain. -/
theorem Chained.append (h : lib.Chained C next mem) (hP : lib.Placed i n C)
    (hfresh : ∀ e, j ∉ C e) (e d : Nat) :
    ∃ next', lib.Chained (Function.update C e (C e ++ [j])) next'
      ((mem.setField (hook e (C e)).1 (hook e (C e)).2 (some (addr j))).setDepth j d) := by
  rcases List.eq_nil_or_concat' (C e) with hC | ⟨l, t, hC⟩
  · refine ⟨next, ?_⟩
    simpa [hC, hook] using h.append_first hfresh hC d
  · refine ⟨Function.update next t (some j), ?_⟩
    simpa [hC, hook] using h.append_last hP hfresh hC d

/-- `findpeertail` goes along a chain to its end. -/
theorem Chained.findpeertail {l : List Nat} {t : Nat} (h : lib.Chained C next mem)
    (hlinked : OsLabs.Linked next (some x) (l ++ [t]) none)
    (hlt : ∀ y ∈ l ++ [t], y < mem.size) (fuel : Nat) :
    mem.findpeertail fuel (addr x) = if l.length < fuel then some (addr t) else none := by
  induction l generalizing x fuel with
  | nil =>
      obtain ⟨hxt, hnull⟩ := hlinked
      obtain rfl := Option.some.inj hxt
      rw [linked_nil] at hnull
      cases fuel with
      | zero => rfl
      | succ fuel =>
          rw [Lib.findpeertail, load_peer (hlt x (by simp)), h.peer, hnull]
          simp
  | cons a l ih =>
      obtain ⟨hxa, hrest⟩ := hlinked
      obtain rfl := Option.some.inj hxa
      obtain ⟨y, hy⟩ : ∃ y, next x = some y := by
        cases l with
        | nil => exact ⟨t, hrest.1⟩
        | cons b l => exact ⟨b, hrest.1⟩
      cases fuel with
      | zero => rfl
      | succ fuel =>
          rw [Lib.findpeertail, load_peer (hlt x (by simp)), h.peer, hy]
          rw [hy] at hrest
          have := ih hrest (fun z hz => hlt z (List.mem_cons_of_mem x hz)) fuel
          simpa using this

/-- Behind the array there is no element. -/
theorem load_peer_peer_none (h : ¬ i + 1 < mem.size) :
    mem.load (addr i + peerOffset + peerOffset) = none := by
  have hdiv : (addr i + peerOffset + peerOffset) / sizeofNode = i + 1 := by
    simp only [addr, sizeofNode, peerOffset]
    omega
  rw [load, resolve, hdiv, if_neg h, Option.map_none]

/-- A child is linked at the end of the chain that it belongs to. It is not when that chain
would begin behind the array, or `findpeertail` has no fuel for it. -/
theorem Chained.link_eq (h : lib.Chained C next mem) (hP : lib.Placed i n C) (hi : i < lib.size)
    (hkid : (mem.node j).ppid = (mem.node i).pid) (fuel : Nat) :
    (target C i < lib.size ∧ link fuel mem i j =
      some ((mem.setField (hook (target C i) (C (target C i))).1
        (hook (target C i) (C (target C i))).2 (some (addr j))).setDepth j
          ((mem.node i).depth + 1))) ∨
      (link fuel mem i j = none ∧ (fuel ≤ lib.size ∨ ¬ target C i < lib.size)) := by
  have hsize : mem.size = lib.size := h.same.size
  have hlt : ∀ {e x}, x ∈ C e → x < mem.size := fun hx => hsize ▸ hP.lt_size hx
  have hchild : (mem.node i).child = (C i).head?.map addr := h.child i
  have hlinked := h.linked i
  rw [link, if_pos hkid, hchild]
  cases hC : C i with
  | nil => exact .inl ⟨by simpa [target, hC] using hi, by simp [target, hC, hook]⟩
  | cons c l =>
      have hc : c < mem.size := hlt (e := i) (by simp [hC])
      rw [hC, List.head?_cons, linked_cons] at hlinked
      simp only [List.head?_cons, Option.map_some, load_peer hc, h.peer]
      cases l with
      | nil =>
          have hnull : next c = none := hlinked.2
          refine .inl ⟨by simpa [target, hC] using hi, ?_⟩
          simp [hnull, target, hC, hook, store_peer hc]
      | cons d l =>
          have hnext : next c = some d := hlinked.2.1
          have htarget : target C i = c + 1 := by simp [target, hC]
          simp only [hnext, Option.map_some, htarget]
          cases fuel with
          | zero => exact .inr ⟨rfl, .inl (Nat.zero_le _)⟩
          | succ fuel =>
              rw [Lib.findpeertail]
              by_cases hbehind : c + 1 < mem.size
              · rw [load_peer_peer hbehind, h.child]
                have hlinked' := h.linked (c + 1)
                rcases List.eq_nil_or_concat' (C (c + 1)) with hC' | ⟨l', t, hC'⟩
                · -- the address of the `peer`, as a node, is that of the last
                  refine .inl ⟨hsize ▸ hbehind, ?_⟩
                  simp [hC', hook, store_peer_peer hbehind]
                · obtain ⟨y, hy⟩ : ∃ y, (C (c + 1)).head? = some y := by
                    rw [hC']
                    cases l' with
                    | nil => exact ⟨t, rfl⟩
                    | cons b l' => exact ⟨b, rfl⟩
                  have ht : t < mem.size := hlt (e := c + 1) (by simp [hC'])
                  rw [hy, hC'] at hlinked'
                  have htail := h.findpeertail hlinked' (fun z hz => hlt (hC' ▸ hz)) fuel
                  simp only [hy, Option.map_some, htail]
                  by_cases hfuel : l'.length < fuel
                  · refine .inl ⟨hsize ▸ hbehind, ?_⟩
                    simp [hfuel, hC', hook, store_peer ht]
                  · refine .inr ⟨by simp [hfuel], .inl ?_⟩
                    have hle := hP.length_le (e := c + 1)
                    rw [hC', List.length_append, List.length_singleton] at hle
                    omega
              · refine .inr ⟨by simp [load_peer_peer_none hbehind], .inr ?_⟩
                exact hsize ▸ hbehind

/-! ### The loops -/

/-- A round links a node in memory as it does in the chains. -/
theorem link_hang (hpid : lib.DistinctPids) (h : lib.Shows i n C mem) (hi : i < lib.size)
    (hn : n < lib.size) (fuel : Nat) :
    (∃ mem' C', link fuel mem i n = some mem' ∧ lib.hang C i n = some C' ∧
        lib.Shows i (n + 1) C' mem') ∨
      (link fuel mem i n = none ∧ (fuel ≤ lib.size ∨ lib.hang C i n = none)) := by
  obtain ⟨hP, next, hmem⟩ := h
  by_cases hkid : (lib.node n).ppid = (lib.node i).pid
  · have hpar : lib.Parent i n := ⟨hi, hn, hkid⟩
    have hkid' : (mem.node n).ppid = (mem.node i).pid := by
      rw [hmem.same.ppid, hmem.same.pid, hkid]
    rcases hmem.link_eq hP hi hkid' fuel with ⟨ht, hlink⟩ | ⟨hlink, hnone⟩
    · refine .inl ⟨_, _, hlink, by rw [hang, if_pos hkid, if_pos ht], ?_⟩
      exact ⟨hP.append hpid hpar, hmem.append hP (fun _ => hP.fresh hpid hpar) _ _⟩
    · exact .inr ⟨hlink, hnone.imp_right fun ht => by rw [hang, if_pos hkid, if_neg ht]⟩
  · refine .inl ⟨mem, C, ?_, by rw [hang, if_neg hkid], hP.skip, next, hmem⟩
    rw [link, if_neg]
    rwa [hmem.same.ppid, hmem.same.pid]

theorem Shows.row (h : lib.Shows i lib.size C mem) : lib.Shows (i + 1) 0 C mem :=
  ⟨h.1.row, h.2⟩

theorem shows_initialise : lib.Shows 0 0 (fun _ => []) lib.initialise := by
  refine ⟨⟨fun _ => List.nodup_nil, fun _ _ _ hx => absurd hx List.not_mem_nil,
    fun _ _ hx => absurd hx List.not_mem_nil⟩, fun _ => none, ?_⟩
  constructor
  case same => exact linked_initialise.same
  case child => exact fun _ => rfl
  case peer => exact fun _ => rfl
  case linked => exact fun _ => rfl
  case free => exact fun _ _ => rfl

/-- The inner loop in memory goes where the one over the chains goes, -/
theorem linkRow_shows (hpid : lib.DistinctPids) (hi : i < lib.size) (h : lib.Shows i 0 C mem)
    {fuel : Nat} (hs : linkRow fuel lib.size mem i = some mem') :
    ∃ C', lib.hangRow C i = some C' ∧ lib.Shows (i + 1) 0 C' mem' := by
  have hrun : ∃ C', lib.hangRow C i = some C' ∧ lib.Shows i lib.size C' mem' := by
    refine loop_simulates (I := fun n mem C => lib.Shows i n C mem) h hs ?_
    intro n mem mem' C hn hI hlink
    rcases link_hang hpid hI hi hn fuel with ⟨t, C', ht, hhang, hI'⟩ | ⟨hnone, -⟩
    · obtain rfl := Option.some.inj (hlink.symm.trans ht)
      exact ⟨C', hhang, hI'⟩
    · exact absurd (hlink.symm.trans hnone) (by simp)
  obtain ⟨C', hC', hI⟩ := hrun
  exact ⟨C', hC', hI.row⟩

/-- and the other way round. -/
theorem linkRow_of_hangRow (hpid : lib.DistinctPids) (hi : i < lib.size)
    (h : lib.Shows i 0 C mem) {fuel : Nat} (hfuel : lib.size < fuel)
    (hs : lib.hangRow C i = some C') :
    ∃ mem', linkRow fuel lib.size mem i = some mem' ∧ lib.Shows (i + 1) 0 C' mem' := by
  have hrun : ∃ mem', linkRow fuel lib.size mem i = some mem' ∧
      lib.Shows i lib.size C' mem' := by
    refine loop_simulates (I := fun n C mem => lib.Shows i n C mem) h hs ?_
    intro n C C' mem hn hI hhang
    rcases link_hang hpid hI hi hn fuel with ⟨mem', D, hlink, hD, hI'⟩ | ⟨-, hnone⟩
    · obtain rfl := Option.some.inj (hhang.symm.trans hD)
      exact ⟨mem', hlink, hI'⟩
    · rcases hnone with hle | hnone
      · omega
      · exact absurd (hhang.symm.trans hnone) (by simp)
  obtain ⟨mem', hmem', hI⟩ := hrun
  exact ⟨mem', hmem', hI.row⟩

/-- When the loops end, they have linked the chains. -/
theorem linkAll_shows (hpid : lib.DistinctPids) {fuel : Nat} (hs : lib.linkAll fuel = some mem) :
    ∃ C, lib.chains = some C ∧ lib.Shows lib.size 0 C mem := by
  refine loop_simulates (I := fun i mem C => lib.Shows i 0 C mem) shows_initialise hs ?_
  intro i mem mem' C hi hI hrow
  exact linkRow_shows hpid hi hI hrow

/-- `findpeertail` never has to go along more nodes than there are. -/
theorem linkAll_of_chains (hpid : lib.DistinctPids) {fuel : Nat} (hfuel : lib.size < fuel)
    (hs : lib.chains = some C) :
    ∃ mem, lib.linkAll fuel = some mem ∧ lib.Shows lib.size 0 C mem := by
  refine loop_simulates (I := fun i C mem => lib.Shows i 0 C mem) shows_initialise hs ?_
  intro i C C' mem hi hI hrow
  exact linkRow_of_hangRow hpid hi hI hfuel hrow

/-- The loops end exactly when no node is to be linked behind the array. -/
theorem linkAll_ends_iff (hpid : lib.DistinctPids) :
    (∃ fuel mem, lib.linkAll fuel = some mem) ↔ lib.InBounds := by
  refine ⟨?_, ?_⟩
  · intro hends
    obtain ⟨fuel, mem, hs⟩ := hends
    obtain ⟨C, hC, -⟩ := linkAll_shows hpid hs
    rw [InBounds, hC, Option.isSome_some]
  · intro hin
    obtain ⟨C, hC⟩ := Option.isSome_iff_exists.mp hin
    obtain ⟨mem, hs, -⟩ := linkAll_of_chains hpid (Nat.lt_succ_self _) hC
    exact ⟨lib.size + 1, mem, hs⟩

end

end Lib

end OsLabs.Tree
