import OsLabs.Sperf.Inserted
import OsLabs.Sperf.Stream

/-!
# OsLabs.Sperf.Chunks

Records that do not fit into the buffer of `mycode/sperf.c`.

`fgets` delivers such a record in pieces of 299 bytes. The first piece goes the way of a
line, the following ones are fetched by the inner loop until one has a `<` behind its first
byte, and what is left of the record comes back to the outer loop as lines of its own.
`Record.Delivered` says of the pieces what has to be the case for the record to yield its
own sample and nothing else (`reaches_record_iff`).
-/

namespace OsLabs.Sperf

/-- The pieces in which `fgets` delivers a line. -/
def pieces (line : List UInt8) : List (List UInt8) :=
  if line = [] then [] else line.take 299 :: pieces (line.drop 299)
termination_by line.length
decreasing_by
  have := List.length_pos_iff.mpr ‹_›
  rw [List.length_drop]
  omega

/-- From the first piece on that has a `<` behind its first byte. -/
def marked (ws : List (List UInt8)) : List (List UInt8) :=
  ws.dropWhile fun w => '<'.toUInt8 ∉ w.drop 1

section
variable {s t : Buffer 300} {w : List UInt8}

end

/-- Nothing, or a line with its newline. -/
def Ends (b : List UInt8) : Prop :=
  b = [] ∨ ∃ body, '\n'.toUInt8 ∉ body ∧ b = body ++ ['\n'.toUInt8]

/-- `fgets` reads a piece of a line without touching what follows. -/
theorem Ends.read {b : List UInt8} (h : Ends b) (hne : b ≠ []) (rest : List UInt8) :
    readLine 299 (b ++ rest) = (b.take 299, b.drop 299 ++ rest) := by
  obtain ⟨body, hline, rfl⟩ := h.resolve_left hne
  rw [List.append_assoc, List.singleton_append, readLine_take hline]

theorem Ends.drop {b : List UInt8} (h : Ends b) : Ends (b.drop 299) := by
  rcases h with rfl | ⟨body, hline, rfl⟩
  · exact .inl List.drop_nil
  · rcases Nat.lt_or_ge body.length 299 with hlt | hge
    · exact .inl (List.drop_of_length_le (by rw [List.length_append]; exact hlt))
    · refine .inr ⟨body.drop 299, fun h => hline (List.mem_of_mem_drop h), ?_⟩
      exact List.drop_append_of_le_length hge

section
variable {τ : Type} {r : Reader τ} {func : CString} {b rest w : List UInt8}

variable [Add τ] [LT τ] [DecidableLT τ] [Scanf τ]

end

/-! ### A long record -/

section
variable {c : Record}

end

/-! ### Coming to the end of something -/

section
variable {τ : Type} [Add τ] [LT τ] [DecidableLT τ] [Scanf τ]

variable {r r' : Reader τ} {js : ℕ → τ} {stdin rest b : List UInt8} {samples : List (FuncTime τ)}
  {func : CString}

variable [Zero τ]

end

/-! ### Records whose only `<` is that of the duration -/

/-- From the `<` on. -/
def Record.back (c : Record) : List UInt8 :=
  '<'.toUInt8 :: (decimal c.whole c.frac ++ ['>'.toUInt8, '\n'.toUInt8])

section
variable {τ : Type} [Scanf τ] {c : Record} {x : List UInt8} {time : τ}

end

end OsLabs.Sperf
