import Mathlib.Data.List.TakeDrop

/-!
# OsLabs.CString

Strings in character arrays, and the library functions that write them.

An array is the list of its characters, and its size is the length of the list. A
function that reads or writes behind the end of an array has no result. `Holds a n t`
says that the array `a` of size `n` holds the string `t`; each function has a rule that
says from what it holds before what it holds afterwards, and for `strcat` the converse:
it has no result when the string does not fit.
-/

namespace OsLabs.CString

universe u

variable {α : Type u} [DecidableEq α] (nul : α)

/-- The string in an array: the characters before the first NUL. -/
def text (a : List α) : List α := a.takeWhile (· ≠ nul)

/-- `strlen(a)`. -/
def strlen (a : List α) : Option Nat :=
  if nul ∈ a then some (text nul a).length else none

/-- Write the characters `s` to the array, from the index `i` on. -/
def write (a : List α) (i : Nat) (s : List α) : Option (List α) :=
  if i + s.length ≤ a.length then some (a.take i ++ s ++ a.drop (i + s.length)) else none

/-- `strcpy(dst, src)`. -/
def strcpy (dst src : List α) : Option (List α) :=
  if nul ∈ src then write dst 0 (text nul src ++ [nul]) else none

/-- `strcat(dst, src)`. -/
def strcat (dst src : List α) : Option (List α) :=
  if nul ∈ dst ∧ nul ∈ src then write dst (text nul dst).length (text nul src ++ [nul]) else none

/-- The array `a` of `n` characters holds the string `t`. -/
structure Holds (a : List α) (n : Nat) (t : List α) : Prop where
  size : a.length = n
  fresh : nul ∉ t
  split : ∃ rest, a = t ++ nul :: rest

section
variable {nul} {a dst src t u : List α} {n m : Nat} {c : α}

omit [DecidableEq α] in
theorem Holds.mem (h : Holds nul a n t) : nul ∈ a := by
  obtain ⟨rest, rfl⟩ := h.split
  simp

theorem Holds.text (h : Holds nul a n t) : text nul a = t := by
  obtain ⟨rest, rfl⟩ := h.split
  have hall : ∀ x ∈ t, decide (x ≠ nul) = true := by
    intro x hx
    refine decide_eq_true ?_
    rintro rfl
    exact h.fresh hx
  rw [CString.text, List.takeWhile_append_of_pos hall, List.takeWhile_cons_of_neg (by simp),
    List.append_nil]

omit [DecidableEq α] in
/-- A string is shorter than its array. -/
theorem Holds.length_lt (h : Holds nul a n t) : t.length < n := by
  obtain ⟨rest, rfl⟩ := h.split
  rw [← h.size, List.length_append, List.length_cons]
  omega

theorem Holds.strlen (h : Holds nul a n t) : strlen nul a = some t.length := by
  rw [CString.strlen, if_pos h.mem, h.text]

/-- The string in the first `k` characters. -/
theorem Holds.text_take (h : Holds nul a n t) (k : Nat) :
    CString.text nul (a.take k) = t.take k := by
  rw [CString.text, ← List.take_takeWhile, ← CString.text, h.text]

omit [DecidableEq α] in
/-- The characters of the string are those of the array. -/
theorem Holds.getElem? (h : Holds nul a n t) {i : Nat} (hi : i < t.length) : a[i]? = t[i]? := by
  obtain ⟨rest, rfl⟩ := h.split
  exact List.getElem?_append_left hi

omit [DecidableEq α] in
/-- `memset(a, '\0', n)`. -/
theorem holds_replicate (nul : α) (n : Nat) : Holds nul (List.replicate (n + 1) nul) (n + 1) [] :=
  ⟨List.length_replicate, List.not_mem_nil, _, List.replicate_succ⟩

omit [DecidableEq α] in
/-- Writing a string with its NUL behind a part of the string that is there. -/
theorem Holds.write (h : Holds nul a n (t ++ u)) {s : List α} (hs : nul ∉ s)
    (hfit : t.length + s.length < n) :
    ∃ b, write a t.length (s ++ [nul]) = some b ∧ Holds nul b n (t ++ s) := by
  obtain ⟨rest, rfl⟩ := h.split
  have hsize := h.size
  have htake : (t ++ u ++ nul :: rest).take t.length = t := by
    rw [List.append_assoc, List.take_left]
  refine ⟨_, if_pos ?_, ?_, ?_, ?_⟩
  · rw [hsize, List.length_append, List.length_singleton]
    omega
  · rw [htake]
    simp only [List.length_append, List.length_drop, List.length_cons, List.length_nil]
      at hsize ⊢
    omega
  · intro hmem
    rcases List.mem_append.mp hmem with ht | hs'
    · exact h.fresh (List.mem_append_left _ ht)
    · exact hs hs'
  · refine ⟨(t ++ u ++ nul :: rest).drop (t.length + (s ++ [nul]).length), ?_⟩
    rw [htake]
    simp only [List.append_assoc, List.singleton_append]

/-- `strcpy`. -/
theorem Holds.strcpy (hdst : Holds nul dst n t) (hsrc : Holds nul src m u) (hfit : u.length < n) :
    ∃ b, strcpy nul dst src = some b ∧ Holds nul b n u := by
  have hdst' : Holds nul dst n ([] ++ t) := hdst
  obtain ⟨b, hb, hholds⟩ := hdst'.write hsrc.fresh (by simpa using hfit)
  refine ⟨b, ?_, hholds⟩
  rw [CString.strcpy, if_pos hsrc.mem, hsrc.text]
  exact hb

/-- `strcat`, -/
theorem Holds.strcat (hdst : Holds nul dst n t) (hsrc : Holds nul src m u)
    (hfit : t.length + u.length < n) :
    ∃ b, strcat nul dst src = some b ∧ Holds nul b n (t ++ u) := by
  have hdst' : Holds nul dst n (t ++ []) := by rwa [List.append_nil]
  obtain ⟨b, hb, hholds⟩ := hdst'.write hsrc.fresh hfit
  refine ⟨b, ?_, hholds⟩
  rw [CString.strcat, if_pos ⟨hdst.mem, hsrc.mem⟩, hdst.text, hsrc.text]
  exact hb

/-- where the two strings do not fit. -/
theorem Holds.strcat_eq_none (hdst : Holds nul dst n t) (hsrc : Holds nul src m u)
    (hfit : n ≤ t.length + u.length) : CString.strcat nul dst src = none := by
  rw [CString.strcat, if_pos ⟨hdst.mem, hsrc.mem⟩, hdst.text, hsrc.text]
  refine if_neg ?_
  rw [hdst.size, List.length_append, List.length_singleton]
  omega

omit [DecidableEq α] in
/-- Clearing the last character of a string. -/
theorem Holds.clear (h : Holds nul a n (t ++ [c])) :
    ∃ b, CString.write a t.length [nul] = some b ∧ Holds nul b n t := by
  have hlen := h.length_lt
  rw [List.length_append, List.length_singleton] at hlen
  obtain ⟨b, hb, hholds⟩ := h.write (s := []) List.not_mem_nil (by simp; omega)
  rw [List.append_nil] at hholds
  exact ⟨b, hb, hholds⟩

end

end OsLabs.CString
