import OsLabs.Sperf.Chunks

/-!
# OsLabs.Sperf.LongRecords

Transcripts with records that do not fit into the buffer of `mycode/sperf.c`.

A transcript is a list of records of any length and of other lines (`Printed`). `YieldsOwn`
says of each long record in it that the run comes to it, and comes from it to the line that
follows with one more pair, its own. `AllDelivered` follows the buffer through the transcript:
a long record must come through in its pieces; a short one before it is only required not to
send the copy out of the buffer, because of what a skipped line has left there.
-/

namespace OsLabs.Sperf

/-- A line of a transcript: a record of any length, or a line to be skipped. -/
inductive Printed
  | record (c : Record)
  | other (l : OtherLine)

/-- The bytes that are printed. -/
def Printed.bytes : Printed → List UInt8
  | .record c => c.bytes
  | .other l => l.bytes

/-- What a record that has come through leaves in the buffer: the pieces behind the one that
was used. -/
def Record.left (c : Record) : Buffer 300 :=
  (marked (pieces c.bytes)).tail.foldl Buffer.fill (Buffer.zero 300)

section
variable {τ : Type} [Add τ] [LT τ] [DecidableLT τ] [Scanf τ]

variable {r r' : Reader τ} {es : List Printed} {e : Printed} {c : Record} {l : OtherLine}

variable [Zero τ]

variable {b w : List UInt8} {func : CString} {time : τ}

end

end OsLabs.Sperf
