import Mathlib.Data.List.Nodup
import Mathlib.Logic.Function.Basic

/-!
# OsLabs.Chain

Singly linked lists in memory. A memory is read through its links: `next a` is the
pointer stored in the cell `a`, `none` for NULL. `Linked next o l m` says that
following the links from `o` visits the cells `l`, in order, and arrives at `m`; a
list that ends in NULL is the case `m = none`.

The rules are those of a heap of cells: a write to a cell off the list is not
seen (`linked_update`), the links determine the list (`Linked.unique`), and the two
writes list code makes, one at the end and one around a cell, append and unlink
(`Linked.snoc`, `Linked.unlink`).
-/

namespace OsLabs

universe u

variable {α : Type u} {next : α → Option α} {o k m : Option α} {a b : α} {l l' : List α}

/-- Following `next` from the pointer `o` visits the cells `l` and arrives at `m`. -/
def Linked (next : α → Option α) : Option α → List α → Option α → Prop
  | o, [], m => o = m
  | o, a :: l, m => o = some a ∧ Linked next (next a) l m

@[simp] theorem linked_nil : Linked next o [] m ↔ o = m := Iff.rfl

@[simp] theorem linked_cons :
    Linked next o (a :: l) m ↔ o = some a ∧ Linked next (next a) l m := Iff.rfl

/-- A walk can be cut at any point. -/
@[simp] theorem linked_append :
    Linked next o (l ++ l') m ↔ ∃ k, Linked next o l k ∧ Linked next k l' m := by
  induction l generalizing o with
  | nil => simp
  | cons a l ih => simp [ih, and_assoc]

/-- A NULL-terminated list is determined by its links. -/
theorem Linked.unique (h : Linked next o l none) (h' : Linked next o l' none) : l = l' := by
  induction l generalizing o l' with
  | nil =>
      cases l' with
      | nil => rfl
      | cons b l' =>
          obtain rfl : o = none := h
          exact absurd h'.1 (by simp)
  | cons a l ih =>
      cases l' with
      | nil =>
          obtain rfl : o = none := h'
          exact absurd h.1 (by simp)
      | cons b l' =>
          obtain rfl : a = b := Option.some.inj (h.1.symm.trans h'.1)
          rw [ih h.2 h'.2]

/-- The pointer to a NULL-terminated list is the one to its first cell. -/
theorem Linked.eq_head? (h : Linked next o l none) : o = l.head? := by
  cases l with
  | nil => exact h
  | cons a l => exact h.1

/-- The rest of a list is behind each of its cells. -/
theorem Linked.behind (h : Linked next o (l ++ a :: l') none) :
    Linked next (next a) l' none ∧ next a = l'.head? := by
  obtain ⟨k, -, -, hrest⟩ := linked_append.mp h
  exact ⟨hrest, hrest.eq_head?⟩

/-- When each cell that is to stay has a link to the next one that is, these are a list. -/
theorem linked_filter {p : α → Bool}
    (h : ∀ before a after, l = before ++ a :: after → p a = true →
      next a = (after.filter p).head?) :
    Linked next (l.filter p).head? (l.filter p) none := by
  induction l with
  | nil => rfl
  | cons a l ih =>
      have hrest := ih fun before b after heq =>
        h (a :: before) b after (by rw [heq, List.cons_append])
      cases ha : p a with
      | false => rwa [List.filter_cons_of_neg (by simp [ha])]
      | true =>
          rw [List.filter_cons_of_pos ha, List.head?_cons, linked_cons, h [] a l rfl ha]
          exact ⟨rfl, hrest⟩

section
variable [DecidableEq α]

/-- A walk does not see a write to a cell that is not on it. -/
theorem linked_update (ha : a ∉ l) :
    Linked (Function.update next a k) o l m ↔ Linked next o l m := by
  induction l generalizing o with
  | nil => rfl
  | cons b l ih =>
      rw [List.mem_cons, not_or] at ha
      rw [linked_cons, linked_cons, ih ha.2, Function.update_of_ne (Ne.symm ha.1)]

/-- Writing the link of the last cell appends. -/
theorem Linked.snoc (h : Linked next o (l ++ [a]) none) (hn : (l ++ [a, b]).Nodup)
    (hb : next b = none) : Linked (Function.update next a (some b)) o (l ++ [a, b]) none := by
  obtain ⟨k, hl, hka, -⟩ := linked_append.mp h
  obtain ⟨-, hab, hdis⟩ := List.nodup_append.mp hn
  have hal : a ∉ l := fun hm => hdis a hm a (by simp) rfl
  have hne : b ≠ a := by
    intro heq
    simp [heq] at hab
  refine linked_append.mpr ⟨k, (linked_update hal).mpr hl, hka, ?_, ?_⟩
  · exact Function.update_self ..
  · rw [linked_nil, Function.update_of_ne hne, hb]

/-- Writing the link of a cell with the link of the next one unlinks that. -/
theorem Linked.unlink (h : Linked next o (l ++ a :: b :: l') m)
    (hn : (l ++ a :: b :: l').Nodup) :
    Linked (Function.update next a (next b)) o (l ++ a :: l') m := by
  obtain ⟨k, hl, hka, hab, hb⟩ := linked_append.mp h
  obtain ⟨-, htail, hdis⟩ := List.nodup_append.mp hn
  have hal : a ∉ l := fun hm => hdis a hm a (by simp) rfl
  have hal' : a ∉ l' := fun hm => (List.nodup_cons.mp htail).1 (List.mem_cons_of_mem b hm)
  refine linked_append.mpr ⟨k, (linked_update hal).mpr hl, hka, ?_⟩
  rw [Function.update_self]
  exact (linked_update hal').mpr hb

end

end OsLabs
