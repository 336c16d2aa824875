import OsLabs.Tree.Preorder

/-!
# OsLabs.Tree.Linking

What the linking loops of `tree/tree.c` write.

The children of a node are linked one after the other, each at the place that the ones
before it leave for the next (`slot`): the `child` of the parent, then the `peer` of the
first child, and from the fourth on the `peer` of the last. The third does not go where
it should. `findpeertail` gets the address of the first child's `peer` for a node, and
the `peer` of that is the `child` of the array element behind the first child.

As long as no node has children of its own in a place that was taken so, the pointers
are the ones the slots say (`Linked`); each is written once, since the loops only write
where there is `NULL` (`link_keeps`).
-/

namespace OsLabs.Tree

namespace Lib

/-- Where the next child of the element `i` is linked after those of the list. -/
def slot (i : Nat) : List Nat → Nat × Field
  | [] => (i, .child)
  | [a] => (a, .peer)
  | [a, _] => (a + 1, .child)
  | _ :: _ :: c :: rest => ((c :: rest).getLast (List.cons_ne_nil c rest), .peer)

/-- The place holds the pointer to the element `b`, when the children `K` are linked. -/
def Points (K : Nat → List Nat) (place : Nat × Field) (b : Nat) : Prop :=
  ∃ i before after, K i = before ++ b :: after ∧ slot i before = place

/-- The memory in which the children `K` are linked. -/
structure Linked (lib : Lib) (K : Nat → List Nat) (mem : Lib) : Prop where
  same : lib.Same mem
  field : ∀ p f a, mem.field p f = some a ↔ ∃ b, Points K (p, f) b ∧ a = addr b
  root : (mem.node 0).depth = 0
  depth : ∀ i, ∀ j ∈ K i, (mem.node j).depth = (mem.node i).depth + 1

/-- The children linked when the loops are at the element `i`, and have looked at the first
`n` as its children. -/
def stage (lib : Lib) (i n p : Nat) : List Nat :=
  if p < i then lib.kids p else if p = i then lib.kidsBelow n p else []

/-- The third child of the element `i`, if it has one, is linked where it can be found: the
second is the array element behind the first, and it has no children. -/
def FitsAt (lib : Lib) (i : Nat) : Prop :=
  ∀ j₁ j₂ j₃ rest, lib.kids i = j₁ :: j₂ :: j₃ :: rest → j₂ = j₁ + 1 ∧ lib.kids j₂ = []

instance (lib : Lib) (i : Nat) : Decidable (lib.FitsAt i) :=
  decidable_of_iff ((lib.kids i).length < 3 ∨
      (lib.kids i)[1]? = (lib.kids i)[0]?.map (· + 1) ∧
        (lib.kids i)[1]?.map lib.kids = some []) <| by
    refine ⟨?_, ?_⟩
    · intro h j₁ j₂ j₃ rest hkids
      have hlen : ¬ rest.length + 1 + 1 + 1 < 3 := by omega
      simpa [hkids, hlen] using h
    · intro h
      rcases hkids : lib.kids i with _ | ⟨j₁, _ | ⟨j₂, _ | ⟨j₃, rest⟩⟩⟩
      · exact .inl (by simp)
      · exact .inl (by simp)
      · exact .inl (by simp)
      · exact .inr (by simpa using h j₁ j₂ j₃ rest hkids)

section
variable {lib mem mem' : Lib} {K : Nat → List Nat} {i j n p b : Nat} {f : Field}

/-! ### Nothing is overwritten -/

theorem store_inv {a : Nat} {v : Option Nat} (hnull : mem.load a = some none)
    (hs : mem.store a v = some mem') :
    ∃ q g, mem.field q g = none ∧ mem' = mem.setField q g v := by
  obtain ⟨place, hplace, rfl⟩ := Option.map_eq_some_iff.mp hs
  rw [load, hplace, Option.map_some, Option.some.injEq] at hnull
  exact ⟨place.1, place.2, hnull, rfl⟩

theorem load_of_findpeertail {fuel a t : Nat} (h : mem.findpeertail fuel a = some t) :
    mem.load (t + peerOffset) = some none := by
  induction fuel generalizing a with
  | zero => exact absurd h (by simp [findpeertail])
  | succ fuel ih =>
      rw [findpeertail] at h
      split at h
      · exact absurd h (by simp)
      · next hload =>
        obtain rfl := Option.some.inj h
        exact hload
      · exact ih h

/-- What a round of the loops does: it writes a pointer field only where there is `NULL`. -/
theorem link_inv {fuel : Nat} (h : link fuel mem i j = some mem') :
    ((mem.node j).ppid ≠ (mem.node i).pid ∧ mem' = mem) ∨
      ((mem.node j).ppid = (mem.node i).pid ∧ ∃ q g, mem.field q g = none ∧
        mem' = (mem.setField q g (some (addr j))).setDepth j ((mem.node i).depth + 1)) := by
  rw [link] at h
  split at h
  · next hkid =>
    obtain ⟨t, ht, rfl⟩ := Option.map_eq_some_iff.mp h
    refine .inr ⟨hkid, ?_⟩
    split at ht
    · next hchild =>
      obtain rfl := Option.some.inj ht
      exact ⟨i, .child, hchild, by rw [setField_depth]⟩
    · split at ht
      · exact absurd ht (by simp)
      · next hload =>
        obtain ⟨q, g, hnull, rfl⟩ := store_inv hload ht
        exact ⟨q, g, hnull, by rw [setField_depth]⟩
      · obtain ⟨temp, htemp, hstore⟩ := Option.bind_eq_some_iff.mp ht
        obtain ⟨q, g, hnull, rfl⟩ := store_inv (load_of_findpeertail htemp) hstore
        exact ⟨q, g, hnull, by rw [setField_depth]⟩
  · next hkid => exact .inl ⟨hkid, (Option.some.inj h).symm⟩

theorem link_same {fuel : Nat} (hsame : lib.Same mem) (h : link fuel mem i j = some mem') :
    lib.Same mem' := by
  rcases link_inv h with ⟨-, rfl⟩ | ⟨-, q, g, -, rfl⟩
  · exact hsame
  · exact (hsame.setField q g _).setDepth j _

theorem link_keeps {fuel a : Nat} (h : link fuel mem i j = some mem')
    (ha : mem.field p f = some a) : mem'.field p f = some a := by
  rcases link_inv h with ⟨-, rfl⟩ | ⟨-, q, g, hnull, rfl⟩
  · exact ha
  · rw [field_setDepth, field_setField, if_neg]
    · exact ha
    · rintro ⟨rfl, rfl⟩
      exact absurd (hnull.symm.trans ha) (by simp)

/-! ### The slots -/

theorem slot_append {before : List Nat} {a : Nat} (h : 2 ≤ before.length) :
    slot i (before ++ [a]) = (a, .peer) := by
  obtain ⟨x, y, rest, rfl⟩ : ∃ x y rest, before = x :: y :: rest := by
    cases before with
    | nil => exact absurd h (by simp)
    | cons x rest =>
        cases rest with
        | nil => exact absurd h (by simp)
        | cons y rest => exact ⟨x, y, rest, rfl⟩
  cases rest with
  | nil => rfl
  | cons z rest => simp [slot]

/-- A place in a list after one more is linked. -/
theorem append_eq_iff {l before after : List Nat} :
    l ++ [j] = before ++ b :: after ↔
      (after = [] ∧ before = l ∧ b = j) ∨
        ∃ rest, after = rest ++ [j] ∧ l = before ++ b :: rest := by
  refine ⟨?_, ?_⟩
  · intro h
    rcases List.eq_nil_or_concat after with rfl | ⟨rest, x, rfl⟩
    · obtain ⟨rfl, hbj⟩ := List.append_inj' h rfl
      exact .inl ⟨rfl, rfl, (List.singleton_inj.mp hbj).symm⟩
    · have h' : l ++ [j] = (before ++ b :: rest) ++ [x] := by simpa using h
      obtain ⟨rfl, hx⟩ := List.append_inj' h' rfl
      obtain rfl := List.singleton_inj.mp hx
      exact .inr ⟨rest, by simp, rfl⟩
  · rintro (⟨rfl, rfl, rfl⟩ | ⟨rest, rfl, rfl⟩)
    · rfl
    · simp

/-- One more child, of which a place is asked that depends on the children before it. -/
theorem place_update {α : Type} {f : Nat → List Nat → α} {place : α} :
    (∃ q before after, Function.update K i (K i ++ [j]) q = before ++ b :: after ∧
        f q before = place) ↔
      (∃ q before after, K q = before ++ b :: after ∧ f q before = place) ∨
        (f i (K i) = place ∧ b = j) := by
  refine ⟨?_, ?_⟩
  · rintro ⟨q, before, after, hq, hslot⟩
    by_cases hqi : q = i
    · subst hqi
      rw [Function.update_self, append_eq_iff] at hq
      rcases hq with ⟨rfl, rfl, rfl⟩ | ⟨rest, rfl, hrest⟩
      · exact .inr ⟨hslot, rfl⟩
      · exact .inl ⟨q, before, rest, hrest, hslot⟩
    · rw [Function.update_of_ne hqi] at hq
      exact .inl ⟨q, before, after, hq, hslot⟩
  · rintro (⟨q, before, after, hq, hslot⟩ | ⟨hslot, rfl⟩)
    · by_cases hqi : q = i
      · subst hqi
        exact ⟨q, before, after ++ [j], by rw [Function.update_self, hq]; simp, hslot⟩
      · exact ⟨q, before, after, by rw [Function.update_of_ne hqi, hq], hslot⟩
    · exact ⟨i, K i, [], by rw [Function.update_self], hslot⟩

/-- One more child: one more pointer. -/
theorem points_update {place : Nat × Field} :
    Points (Function.update K i (K i ++ [j])) place b ↔
      Points K place b ∨ (slot i (K i) = place ∧ b = j) := place_update

/-! ### The stages of the loops -/

theorem stage_self : lib.stage i n i = lib.kidsBelow n i := by
  rw [stage, if_neg (Nat.lt_irrefl i), if_pos rfl]

theorem stage_of_lt (h : i < p) : lib.stage i n p = [] := by
  rw [stage, if_neg (by omega), if_neg (by omega)]

theorem stage_zero : lib.stage (i + 1) 0 = lib.stage i lib.size := by
  funext p
  rcases Nat.lt_trichotomy p i with h | rfl | h
  · rw [stage, stage, if_pos (by omega), if_pos h]
  · rw [stage, if_pos (by omega), stage_self]
    rfl
  · rw [stage_of_lt h]
    by_cases hp : p = i + 1
    · rw [hp, stage_self]
      rfl
    · exact stage_of_lt (by omega)

theorem stage_start : lib.stage 0 0 = fun _ => [] := by
  funext p
  rcases Nat.eq_zero_or_pos p with rfl | h
  · rw [stage_self]
    rfl
  · exact stage_of_lt h

/-- What one round of the inner loop is about. -/
theorem stage_succ : lib.stage i (n + 1) =
    if (lib.node n).ppid = (lib.node i).pid then
      Function.update (lib.stage i n) i (lib.stage i n i ++ [n])
    else lib.stage i n := by
  funext p
  by_cases hp : p = i
  · subst hp
    rw [stage_self, kidsBelow_succ]
    by_cases h : (lib.node n).ppid = (lib.node p).pid <;> simp [h, stage_self]
  · have hother : lib.stage i (n + 1) p = lib.stage i n p := by simp [stage, hp]
    by_cases h : (lib.node n).ppid = (lib.node i).pid <;> simp [h, hp, hother]

/-- Children are linked from the first to the last. -/
theorem stage_isPrefix (hn : n ≤ lib.size) : lib.stage i n p <+: lib.kids p := by
  rw [stage]
  split
  · exact List.prefix_refl _
  · split
    · obtain ⟨m, hm⟩ := Nat.exists_eq_add_of_le hn
      rw [kids, kidsBelow, kidsBelow, hm, List.range_add]
      exact (List.prefix_append _ _).filter _
    · exact List.nil_prefix

/-- A slot in a `peer` is that of the last child. -/
theorem eq_append_of_slot {l : List Nat} {x : Nat} (h : slot i l = (x, .peer)) :
    ∃ before, l = before ++ [x] := by
  cases l with
  | nil => exact absurd h (by simp [slot])
  | cons a l =>
      cases l with
      | nil => exact ⟨[], by simpa [slot] using h⟩
      | cons c l =>
          cases l with
          | nil => exact absurd h (by simp [slot])
          | cons d l =>
              obtain rfl : (d :: l).getLast (List.cons_ne_nil d l) = x := by simpa [slot] using h
              refine ⟨a :: c :: (d :: l).dropLast, ?_⟩
              rw [List.cons_append, List.cons_append, List.dropLast_append_getLast]

/-- A slot in a `child` is that of the first child or of the third. -/
theorem of_slot_child {l : List Nat} {x : Nat} (h : slot i l = (x, .child)) :
    (l = [] ∧ x = i) ∨ ∃ j₁ j₂, l = [j₁, j₂] ∧ x = j₁ + 1 := by
  cases l with
  | nil => exact .inl ⟨rfl, by simpa [slot, eq_comm] using h⟩
  | cons a l =>
      cases l with
      | nil => exact absurd h (by simp [slot])
      | cons c l =>
          cases l with
          | nil => exact .inr ⟨a, c, rfl, by simpa [slot, eq_comm] using h⟩
          | cons d l => exact absurd h (by simp [slot])

theorem mem_kids_of_stage {q x : Nat} (hn : n < lib.size) (hx : x ∈ lib.stage i n q) :
    q ≤ i ∧ x ∈ lib.kids q := by
  refine ⟨?_, (stage_isPrefix (Nat.le_of_lt hn)).subset hx⟩
  by_contra hq
  rw [stage_of_lt (by omega)] at hx
  exact absurd hx List.not_mem_nil

section
variable (h : Rooted lib) (hi : i < lib.size) (hn : n < lib.size)
include h hi hn

/-- An element is a linked child of one node only. -/
theorem stage_unique {q x : Nat} (hx : x ∈ lib.stage i n q) (hx' : x ∈ lib.stage i n i) :
    q = i := by
  obtain ⟨hq, hx⟩ := mem_kids_of_stage hn hx
  exact h.parent_unique (by omega) hi hx (mem_kids_of_stage hn hx').2

/-- The slot of the next child is free. -/
theorem slot_free (hfits : ∀ q < i, lib.FitsAt q) (hkid : n ∈ lib.kids i) :
    ∀ b, ¬ Points (lib.stage i n) (slot i (lib.stage i n i)) b := by
  rintro b ⟨q, before, after, hq, hslot⟩
  cases hplace : slot i (lib.stage i n i) with
  | mk x f =>
      rw [hplace] at hslot
      cases f with
      | peer =>
          obtain ⟨pre, rfl⟩ := eq_append_of_slot hslot
          obtain ⟨pre', hi'⟩ := eq_append_of_slot hplace
          obtain rfl := stage_unique h hi hn (x := x) (q := q) (by simp [hq]) (by simp [hi'])
          -- `x` is the last of the children and yet before `b`
          have hlast : (b :: after).getLast? = some x := by
            have := congrArg List.getLast? (hq.symm.trans hi')
            simpa using this
          have hnodup : (pre ++ [x] ++ b :: after).Nodup :=
            hq ▸ nodup_kids.sublist (stage_isPrefix (Nat.le_of_lt hn)).sublist
          exact (List.nodup_append.mp hnodup).2.2 x (by simp) x (List.mem_of_getLast? hlast) rfl
      | child =>
          rcases of_slot_child hslot with ⟨rfl, rfl⟩ | ⟨j₁, j₂, rfl, rfl⟩
          · rcases of_slot_child hplace with ⟨hi', rfl⟩ | ⟨j₁, j₂, hi', hq1⟩
            · exact absurd (hq.symm.trans hi') (by simp)
            · obtain ⟨hxi, -⟩ := mem_kids_of_stage (i := i) hn (x := b) (q := x) (by simp [hq])
              have hj₁ := (mem_kids_of_stage (i := i) hn (x := j₁) (q := i) (by simp [hi'])).2
              have := h.lt_of_mem_kids hi hj₁
              omega
          · rcases of_slot_child hplace with ⟨hi', hx⟩ | ⟨k₁, k₂, hi', hx⟩
            · -- the third child of `q` would be where the first of `i` belongs
              obtain ⟨hqi, -⟩ := mem_kids_of_stage (i := i) hn (x := b) (q := q) (by simp [hq])
              have hne : q ≠ i := by
                rintro rfl
                exact absurd (hq.symm.trans hi') (by simp)
              obtain ⟨rest, hrest⟩ : lib.stage i n q <+: lib.kids q :=
                stage_isPrefix (Nat.le_of_lt hn)
              rw [hq] at hrest
              obtain ⟨hj₂, hleaf⟩ :=
                hfits q (by omega) j₁ j₂ b (after ++ rest) (by rw [← hrest]; simp)
              rw [hj₂, hx] at hleaf
              exact absurd (hleaf ▸ hkid) List.not_mem_nil
            · obtain rfl : j₁ = k₁ := by omega
              obtain rfl := stage_unique h hi hn (x := j₁) (q := q) (by simp [hq]) (by simp [hi'])
              exact absurd (congrArg List.length (hq.symm.trans hi')) (by simp)

end

/-- What the pointers are after one more child is linked in its slot. -/
theorem Linked.update (hL : Linked lib K mem) (hfree : ∀ b, ¬ Points K (slot i (K i)) b)
    (hj0 : j ≠ 0) (hij : i ≠ j) (hKj : K j = []) (hj : ∀ q, j ∉ K q) :
    Linked lib (Function.update K i (K i ++ [j]))
      ((mem.setField (slot i (K i)).1 (slot i (K i)).2 (some (addr j))).setDepth j
        ((mem.node i).depth + 1)) := by
  constructor
  case same => exact (hL.same.setField _ _ _).setDepth _ _
  case field =>
    intro p f a
    rw [field_setDepth, field_setField]
    by_cases hplace : p = (slot i (K i)).1 ∧ f = (slot i (K i)).2
    · obtain ⟨rfl, rfl⟩ := hplace
      rw [if_pos ⟨rfl, rfl⟩, Option.some.injEq]
      refine ⟨?_, ?_⟩
      · intro ha
        exact ⟨j, points_update.mpr (.inr ⟨rfl, rfl⟩), ha.symm⟩
      · rintro ⟨b, hb, rfl⟩
        rcases points_update.mp hb with hb | ⟨-, rfl⟩
        · exact absurd hb (hfree b)
        · rfl
    · rw [if_neg hplace, hL.field]
      refine ⟨?_, ?_⟩
      · rintro ⟨b, hb, rfl⟩
        exact ⟨b, points_update.mpr (.inl hb), rfl⟩
      · rintro ⟨b, hb, rfl⟩
        rcases points_update.mp hb with hb | ⟨hslot, -⟩
        · exact ⟨b, hb, rfl⟩
        · exact absurd ⟨by rw [hslot], by rw [hslot]⟩ hplace
  case root =>
    rw [setDepth_depth, if_neg hj0.symm, setField_depth]
    exact hL.root
  case depth =>
    intro q x hx
    simp only [setDepth_depth, setField_depth]
    by_cases hqi : q = i
    · subst hqi
      rw [Function.update_self, List.mem_append, List.mem_singleton] at hx
      rw [if_neg hij]
      rcases hx with hx | rfl
      · have hne : x ≠ j := fun heq => hj q (heq ▸ hx)
        rw [if_neg hne]
        exact hL.depth q x hx
      · rw [if_pos rfl]
    · rw [Function.update_of_ne hqi] at hx
      have hne : x ≠ j := fun heq => hj q (heq ▸ hx)
      have hqj : q ≠ j := by
        rintro rfl
        rw [hKj] at hx
        exact absurd hx List.not_mem_nil
      rw [if_neg hne, if_neg hqj]
      exact hL.depth q x hx

/-! ### What a round does -/

/-- A free place holds `NULL`. -/
theorem Linked.field_free (hL : Linked lib K mem) (place : Nat × Field)
    (hfree : ∀ b, ¬ Points K place b) : mem.field place.1 place.2 = none := by
  cases hf : mem.field place.1 place.2 with
  | none => rfl
  | some a =>
      obtain ⟨b, hb, -⟩ := (hL.field _ _ a).mp hf
      exact absurd hb (hfree b)

/-- From the third child on, `findpeertail` finds the last. -/
theorem findpeertail_chain {before after : List Nat} {x : Nat} (hL : Linked lib K mem)
    (hfree : ∀ b, ¬ Points K (slot i (K i)) b) (hlt : ∀ y ∈ K i, y < mem.size)
    (hi : K i = before ++ x :: after) (hbefore : 2 ≤ before.length) (fuel : Nat) :
    (mem.findpeertail fuel (addr x) = none ∧ fuel ≤ after.length) ∨
      ∃ y ∈ K i, slot i (K i) = (y, .peer) ∧ mem.findpeertail fuel (addr x) = some (addr y) := by
  induction after generalizing before x fuel with
  | nil =>
      cases fuel with
      | zero => exact .inl ⟨rfl, Nat.zero_le _⟩
      | succ fuel =>
          have hslot : slot i (K i) = (x, .peer) := by rw [hi, slot_append hbefore]
          have hnull : mem.field x .peer = none := hL.field_free (x, .peer) (hslot ▸ hfree)
          have hx : x ∈ K i := by simp [hi]
          refine .inr ⟨x, hx, hslot, ?_⟩
          rw [findpeertail, load_peer (hlt x hx), hnull]
  | cons y after ih =>
      cases fuel with
      | zero => exact .inl ⟨rfl, Nat.zero_le _⟩
      | succ fuel =>
          have hpeer : mem.field x .peer = some (addr y) :=
            (hL.field x .peer _).mpr
              ⟨y, ⟨i, before ++ [x], after, by simp [hi], slot_append hbefore⟩, rfl⟩
          have hx : x ∈ K i := by simp [hi]
          rw [findpeertail, load_peer (hlt x hx), hpeer]
          have hi' : K i = (before ++ [x]) ++ y :: after := by simp [hi]
          refine (ih hi' (by simp; omega) fuel).imp_left ?_
          intro hnone
          exact ⟨hnone.1, Nat.succ_le_succ hnone.2⟩

/-- A child is linked in the slot that is free for it. -/
theorem link_slot (hL : Linked lib K mem) (hfree : ∀ b, ¬ Points K (slot i (K i)) b)
    (hlt : ∀ y ∈ K i, y < mem.size) (hsorted : (K i).Pairwise (· < ·))
    (hlen : (K i).length ≤ mem.size) (hpos : 0 < mem.size)
    (hkid : (mem.node j).ppid = (mem.node i).pid) (fuel : Nat) :
    (link fuel mem i j = none ∧ fuel < mem.size) ∨
      link fuel mem i j = some ((mem.setField (slot i (K i)).1 (slot i (K i)).2
        (some (addr j))).setDepth j ((mem.node i).depth + 1)) := by
  have hnull := hL.field_free _ hfree
  have points : ∀ (before : List Nat) {after : List Nat} {b : Nat}, K i = before ++ b :: after →
      mem.field (slot i before).1 (slot i before).2 = some (addr b) := by
    intro before after b hb
    exact (hL.field _ _ _).mpr ⟨b, ⟨i, before, after, hb, rfl⟩, rfl⟩
  rw [link, if_pos hkid]
  cases hK : K i with
  | nil =>
      rw [hK] at hnull
      have hchild : (mem.node i).child = none := hnull
      exact .inr (by simp [hchild, slot])
  | cons a l =>
      have ha : a < mem.size := hlt a (by simp [hK])
      have hchild : (mem.node i).child = some (addr a) := points [] hK
      cases l with
      | nil =>
          rw [hK] at hnull
          have hpeer : mem.field a .peer = none := hnull
          refine .inr ?_
          rw [hchild]
          simp only [load_peer ha, hpeer, store_peer ha, Option.map_some, setField_depth, slot]
      | cons c l =>
          have hpeer : mem.field a .peer = some (addr c) := points [a] hK
          have hac : a + 1 < mem.size := by
            have hlt' : a < c := by
              rw [hK] at hsorted
              exact (List.pairwise_cons.mp hsorted).1 c List.mem_cons_self
            have := hlt c (by simp [hK])
            omega
          rw [hchild]
          simp only [load_peer ha, hpeer]
          cases fuel with
          | zero => exact .inl ⟨rfl, hpos⟩
          | succ fuel =>
              rw [findpeertail, load_peer_peer hac]
              cases l with
              | nil =>
                  rw [hK] at hnull
                  have hnext : mem.field (a + 1) .child = none := hnull
                  refine .inr ?_
                  simp only [hnext, Option.bind_some, store_peer_peer hac, Option.map_some,
                    setField_depth, slot]
              | cons d l =>
                  have hnext : mem.field (a + 1) .child = some (addr d) :=
                    points [a, c] hK
                  simp only [hnext]
                  have hK' : K i = [a, c] ++ d :: l := hK
                  rcases findpeertail_chain hL hfree hlt hK' (by simp) fuel with
                    hnone | ⟨y, hy, hslot, hy'⟩
                  · refine .inl ⟨by rw [hnone.1]; rfl, ?_⟩
                    rw [hK] at hlen
                    simp only [List.length_cons] at hlen
                    omega
                  · refine .inr ?_
                    rw [hK] at hslot
                    rw [hy', Option.bind_some, store_peer (hlt y hy), hslot, Option.map_some,
                      setField_depth]

/-- A round of the inner loop, as long as the nodes before `i` leave its children their
places. -/
theorem linked_round (h : Rooted lib) (hi : i < lib.size) (hn : n < lib.size)
    (hfits : ∀ q < i, lib.FitsAt q) (hL : Linked lib (lib.stage i n) mem) (fuel : Nat) :
    (link fuel mem i n = none ∧ fuel < lib.size) ∨
      ∃ mem', link fuel mem i n = some mem' ∧ Linked lib (lib.stage i (n + 1)) mem' := by
  rw [stage_succ]
  by_cases hkid : (lib.node n).ppid = (lib.node i).pid
  · have hmem : n ∈ lib.kids i := mem_kids.mpr ⟨hn, hkid⟩
    have hin := h.lt_of_mem_kids hi hmem
    have hfree := slot_free h hi hn hfits hmem
    have hstage : lib.stage i n i <+: lib.kids i := stage_isPrefix (Nat.le_of_lt hn)
    have hlt : ∀ y ∈ lib.stage i n i, y < mem.size := by
      intro y hy
      rw [hL.same.size]
      exact lt_size_of_mem_kids (hstage.subset hy)
    have hlen : (lib.stage i n i).length ≤ mem.size := by
      have hrange : (lib.stage i n i).length ≤ n := by
        rw [stage_self]
        exact Nat.le_trans (List.length_filter_le _ _) (Nat.le_of_eq List.length_range)
      rw [hL.same.size]
      omega
    rw [if_pos hkid]
    rcases link_slot hL hfree hlt (pairwise_kids.sublist hstage.sublist) hlen
      (by rw [hL.same.size]; exact h.pos) (by rw [hL.same.ppid, hL.same.pid, hkid]) fuel with
      hnone | hlink
    · exact .inl (hL.same.size ▸ hnone)
    · refine .inr ⟨_, hlink, hL.update hfree (by omega) (by omega) (stage_of_lt hin) ?_⟩
      intro q hq
      -- it is a child of `i` only, and not one of those linked yet
      obtain ⟨hqi, hqkid⟩ := mem_kids_of_stage hn hq
      obtain rfl := h.parent_unique (by omega) hi hqkid hmem
      rw [stage_self] at hq
      exact Nat.lt_irrefl _ (mem_kidsBelow.mp hq).1
  · refine .inr ⟨mem, ?_, ?_⟩
    · rw [link, if_neg]
      rwa [hL.same.ppid, hL.same.pid]
    · rw [if_neg hkid]
      exact hL

/-! ### The loops -/

theorem linked_row_total (h : Rooted lib) (hi : i < lib.size) (hfits : ∀ q < i, lib.FitsAt q)
    (hL : Linked lib (lib.stage i 0) mem) {fuel : Nat} (hfuel : lib.size ≤ fuel) :
    ∃ mem', linkRow fuel lib.size mem i = some mem' ∧ Linked lib (lib.stage (i + 1) 0) mem' := by
  rw [stage_zero]
  refine loop_total (I := fun n mem => Linked lib (lib.stage i n) mem) hL ?_
  intro n mem hn hL
  rcases linked_round h hi hn hfits hL fuel with hnone | hsome
  · exact absurd hnone.2 (by omega)
  · exact hsome

theorem linked_row_partial (h : Rooted lib) (hi : i < lib.size) (hfits : ∀ q < i, lib.FitsAt q)
    (hL : Linked lib (lib.stage i 0) mem) {fuel : Nat}
    (hs : linkRow fuel lib.size mem i = some mem') : Linked lib (lib.stage (i + 1) 0) mem' := by
  rw [stage_zero]
  refine loop_partial (I := fun n mem => Linked lib (lib.stage i n) mem) hL hs ?_
  intro n mem mem' hn hL hlink
  rcases linked_round h hi hn hfits hL fuel with hnone | ⟨t, ht, hL'⟩
  · exact absurd (hlink.symm.trans hnone.1) (by simp)
  · obtain rfl := Option.some.inj (hlink.symm.trans ht)
    exact hL'

theorem linked_initialise : Linked lib (lib.stage 0 0) lib.initialise := by
  rw [stage_start]
  constructor
  case same => exact ⟨rfl, fun _ => rfl, fun _ => rfl, fun _ => rfl⟩
  case field =>
    intro p f a
    have hnull : lib.initialise.field p f = none := by cases f <;> rfl
    rw [hnull]
    refine ⟨?_, ?_⟩
    · intro ha
      exact absurd ha (by simp)
    · rintro ⟨b, ⟨q, before, after, hq, -⟩, -⟩
      exact absurd hq (by simp)
  case root => rfl
  case depth => simp

/-- When no place is taken, the loops link all children. -/
theorem linkAll_total (h : Rooted lib) (hfits : ∀ q < lib.size, lib.FitsAt q) :
    ∃ mem, lib.linkAll lib.size = some mem ∧ Linked lib (lib.stage lib.size 0) mem := by
  refine loop_total (I := fun i mem => Linked lib (lib.stage i 0) mem) linked_initialise ?_
  intro i mem hi hL
  exact linked_row_total h hi (fun q hq => hfits q (by omega)) hL (Nat.le_refl _)

theorem linkAll_same {fuel : Nat} (hs : lib.linkAll fuel = some mem) : lib.Same mem := by
  refine loop_partial (I := fun _ mem => lib.Same mem) linked_initialise.same hs ?_
  intro i mem mem' _ hsame hrow
  refine loop_partial (I := fun _ mem => lib.Same mem) hsame hrow ?_
  intro j mem mem' _ hsame hlink
  exact link_same hsame hlink

/-- Where the nodes before `i` have left its children their places, the third child of `i`
ends up under the array element behind the first. -/
theorem linkAll_third (h : Rooted lib) (hi : i < lib.size) (hfits : ∀ q < i, lib.FitsAt q)
    {j₁ j₂ j₃ fuel : Nat} {rest : List Nat} (hkids : lib.kids i = j₁ :: j₂ :: j₃ :: rest)
    (hs : lib.linkAll fuel = some mem) : mem.field (j₁ + 1) .child = some (addr j₃) := by
  have hinv : ((lib.size ≤ i + 1 → Linked lib (lib.stage lib.size 0) mem) ∧
      (i + 1 ≤ lib.size → mem.field (j₁ + 1) .child = some (addr j₃))) := by
    refine loop_partial (I := fun k mem => (k ≤ i + 1 → Linked lib (lib.stage k 0) mem) ∧
      (i + 1 ≤ k → mem.field (j₁ + 1) .child = some (addr j₃)))
      ⟨fun _ => linked_initialise, fun hle => absurd hle (by omega)⟩ hs ?_
    intro k mem mem' hk hI hrow
    have hrow' : k ≤ i → Linked lib (lib.stage (k + 1) 0) mem' := fun hki =>
      linked_row_partial h hk (fun q hq => hfits q (by omega)) (hI.1 (by omega)) hrow
    refine ⟨fun hle => hrow' (by omega), fun hle => ?_⟩
    by_cases hki : k = i
    · subst hki
      have hstage : lib.stage (k + 1) 0 k = [j₁, j₂] ++ j₃ :: rest := by
        rw [stage_zero, stage_self]
        exact hkids
      exact ((hrow' (Nat.le_refl _)).field _ _ _).mpr ⟨j₃, ⟨k, _, _, hstage, rfl⟩, rfl⟩
    · refine loop_partial (I := fun _ mem => mem.field (j₁ + 1) .child = some (addr j₃))
        (hI.2 (by omega)) hrow ?_
      intro j mem mem' _ hfield hlink
      exact link_keeps hlink hfield
  exact hinv.2 hi

end

end Lib

end OsLabs.Tree
