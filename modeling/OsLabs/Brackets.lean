import Mathlib.Data.List.Basic

/-!
# OsLabs.Brackets

**Bracket languages.** An alphabet with several kinds of brackets: `isOpen` says
which letters open, `close o` is the letter that closes `o`. Every other letter
counts as a closing bracket.

`unmatched w` scans a word and returns the openers that are still unmatched,
innermost first, or `none` at the first bracket that closes nothing. A word is
well nested (`Nested`) if the scan leaves nothing (`nested_of_unmatched`), and
whatever the scan accepts can be completed by closing what is open.
-/

namespace OsLabs.Brackets

universe u

variable {α : Type u} [DecidableEq α] (isOpen : α → Bool) (close : α → α)

/-- Well-nested words. -/
inductive Nested : List α → Prop
  | nil : Nested []
  | pair {o : α} {u v : List α} : isOpen o = true → Nested u → Nested v →
      Nested (o :: (u ++ close o :: v))

/-- Read one letter with the openers of the stack open, innermost first. -/
def read (st : List α) (c : α) : Option (List α) :=
  if isOpen c then
    some (c :: st)
  else
    match st with
    | [] => none
    | o :: st' => if close o = c then some st' else none

/-- The openers of a word that are still unmatched, innermost first. -/
def unmatched (w : List α) : Option (List α) := w.foldlM (read isOpen close) []

variable {isOpen close} {c o : α} {st st' u v w : List α}

theorem read_open (h : isOpen c = true) : read isOpen close st c = some (c :: st) := by
  unfold read
  rw [if_pos h]

theorem read_close (h : isOpen (close o) = false) :
    read isOpen close (o :: st) (close o) = some st := by
  unfold read
  rw [if_neg (by simp [h])]
  exact if_pos rfl

/-- Reading one letter more. -/
theorem unmatched_snoc (h : unmatched isOpen close w = some st) :
    unmatched isOpen close (w ++ [c]) = read isOpen close st c := by
  rw [unmatched] at h
  rw [unmatched, List.foldlM_append, h]
  simp

/-- A word that closes the openers of the stack, with well-nested words in between. -/
inductive Closes (isOpen : α → Bool) (close : α → α) : List α → List α → Prop
  | nil {w : List α} : Nested isOpen close w → Closes isOpen close [] w
  | cons {o : α} {st u v : List α} : Nested isOpen close u → Closes isOpen close st v →
      Closes isOpen close (o :: st) (u ++ close o :: v)

omit [DecidableEq α] in
/-- A whole pair in front changes nothing. -/
theorem Closes.pair (hc : isOpen c = true) (hu : Nested isOpen close u)
    (h : Closes isOpen close st v) : Closes isOpen close st (c :: (u ++ close c :: v)) := by
  cases h with
  | nil hv => exact .nil (.pair hc hu hv)
  | @cons o st u' v' hu' hv' =>
      have := Closes.cons (o := o) (Nested.pair hc hu hu') hv'
      simpa using this

/-- What the scan of a word takes off the stack is what the word closes. -/
theorem closes_of_foldlM (h : w.foldlM (read isOpen close) st = some []) :
    Closes isOpen close st w := by
  induction w generalizing st with
  | nil =>
      obtain rfl : st = [] := by simpa using h
      exact .nil .nil
  | cons c w ih =>
      rw [List.foldlM_cons] at h
      obtain ⟨st', hread, hw⟩ := Option.bind_eq_some_iff.mp h
      have hclose := ih hw
      unfold read at hread
      split at hread
      · next hc =>
        obtain rfl := Option.some.inj hread
        cases hclose with
        | cons hu hv => exact hv.pair hc hu
      · split at hread
        · exact absurd hread (by simp)
        · next o rest =>
          split at hread
          · next ho =>
            obtain rfl := Option.some.inj hread
            exact ho ▸ Closes.cons .nil hclose
          · exact absurd hread (by simp)

/-- A word the scan leaves nothing of is well nested. -/
theorem nested_of_unmatched (h : unmatched isOpen close w = some []) : Nested isOpen close w := by
  cases closes_of_foldlM h with
  | nil hw => exact hw

end OsLabs.Brackets
