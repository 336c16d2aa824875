import Mathlib.Data.List.TakeWhile
import Mathlib.Logic.Function.Iterate
import OsLabs.Sperf.FuncTime
import OsLabs.Sperf.Stdio

/-!
# OsLabs.Sperf.Reader

The loop of `mycode/sperf.c` in which the parent reads what `strace -T` prints.

Lines go through one buffer of 300 bytes. `fgets` overwrites only its front, and
the buffer is cleared only after a record that was used, so what a skipped line
leaves behind is still there when the next record is scanned: forwards for the
first `(`, and backwards from byte 299 for the `<` before the duration.

`step` is one round of a loop: of the outer one (`Pc.outer`), up to the scan for
`<`, or of the scan with the loop that fetches more while there is no `<`
(`Pc.inner`). What cannot go on in the source is a `Fault`.

The times are of any type with the operations of `double`. A transcript is a list of
`Line`s, records and lines to be skipped, whose shape is part of their type, and
`reader_appends` says what the reader makes of it when times are exact.
-/

namespace OsLabs.Sperf

/-- How the reader can fail. -/
inductive Fault
  /-- A scan or a copy leaves the buffer. -/
  | outOfBounds
  /-- `sscanf` has stored nothing, and `time` is read. -/
  | uninitialised
  /-- The assertion of `sort`. -/
  | assertFailed
  deriving DecidableEq, Repr

/-- Where the parent is. -/
inductive Pc
  /-- At the head of the outer loop. -/
  | outer
  /-- It has copied the name, and scans for `<`. -/
  | inner (func : CString)
  /-- The outer loop is over. -/
  | left
  | fault (f : Fault)
  deriving DecidableEq

/-- The parent, what is still in the pipe, and the pairs passed to `append` so far. -/
structure Reader (τ : Type) where
  s : Buffer 300
  stdin : List UInt8
  pc : Pc
  table : Table τ
  appended : List (FuncTime τ)

/-- The test that a line begins with a lower-case letter. -/
def isLower (b : UInt8) : Bool := 'a'.toUInt8 ≤ b && b ≤ 'z'.toUInt8

/-- `"exit_group"`. -/
def exitGroup : CString := "exit_group".toList.map Char.toUInt8

/-- The string that starts at the first of these bytes. -/
def cstring (bytes : List UInt8) : CString := bytes.takeWhile (· ≠ 0)

/-- The scan for `<` from a byte down to byte 1; 0 when there is none. -/
def scanBack (bytes : List UInt8) : Nat → Nat
  | 0 => 0
  | index + 1 => if bytes[index + 1]? = some '<'.toUInt8 then index + 1 else scanBack bytes index

section
variable {τ : Type} [Add τ] [LT τ] [DecidableLT τ] [Scanf τ]

/-- A round of the outer loop, up to the scan for `<`. -/
def readLineStep (r : Reader τ) : Reader τ :=
  match fgets r.s r.stdin with
  | none => { r with pc := .left }
  | some (s, stdin) =>
      let r := { r with s := s, stdin := stdin }
      if ¬ (s.bytes.head?.any isLower) then
        r
      else
        match s.bytes.findIdx? (· = '('.toUInt8) with
        | none => { r with pc := .fault .outOfBounds }
        | some index =>
            let func := cstring (s.bytes.take index)
            if func = exitGroup then r else { r with pc := .inner func }

/-- What follows when the `<` is at byte `index`. -/
def useRecord (r : Reader τ) (func : CString) (index : Nat) : Reader τ :=
  if 300 < index + 9 then
    { r with pc := .fault .outOfBounds }
  else
    match (sscanfLf (cstring ((r.s.bytes.drop (index + 1)).take 8)) : Option τ) with
    | none => { r with pc := .fault .uninitialised }
    | some time =>
        let p : FuncTime τ := { func := func, time := time }
        match r.table.record p with
        | none => { r with pc := .fault .assertFailed }
        | some table =>
            { r with
              s := Buffer.zero 300
              pc := .outer
              table := table
              appended := r.appended ++ [p] }

/-- A round of the loop that scans for `<`: use the record, or fetch more. -/
def scanStep (r : Reader τ) (func : CString) : Reader τ :=
  let index := scanBack r.s.bytes 299
  if index = 0 then
    -- `clear`, and the result of `fgets` is not looked at
    match fgets (Buffer.zero 300) r.stdin with
    | none => { r with s := Buffer.zero 300 }
    | some (s, stdin) => { r with s := s, stdin := stdin }
  else
    useRecord r func index

/-- One round of the loop the parent is in. -/
def step (r : Reader τ) : Reader τ :=
  match r.pc with
  | .outer => readLineStep r
  | .inner func => scanStep r func
  | .left | .fault _ => r

/-- Before the first line. -/
def Reader.init [Zero τ] (stdin : List UInt8) : Reader τ where
  s := Buffer.zero 300
  stdin := stdin
  pc := .outer
  table := Table.empty
  appended := []

end

/-! ### Transcripts -/

/-- A call record without its newline. -/
def recordBody (name text : CString) (whole : Fin 10) (frac : List (Fin 10)) : List UInt8 :=
  name ++ '('.toUInt8 :: (text ++ '<'.toUInt8 :: (decimal whole frac ++ ['>'.toUInt8]))

/-- A call record: `name(text<d.dddddd>`. -/
structure CallRecord where
  name : CString
  /-- Whatever is between the `(` and the `<` of the duration. -/
  text : CString
  whole : Fin 10
  frac : List (Fin 10)
  lower : name.head?.any isLower = true
  noParen : '('.toUInt8 ∉ name
  noNewline : '\n'.toUInt8 ∉ name ++ text
  noNul : 0 ∉ name ++ text
  notExit : name ≠ exitGroup
  frac_length : frac.length = 6
  short : (recordBody name text whole frac ++ ['\n'.toUInt8]).length ≤ 299

/-- A line that is skipped: it does not begin with a lower-case letter, or is the record of
`exit_group`. -/
structure SkippedLine where
  body : CString
  skipped : body.head?.any isLower = false ∨ ∃ text, body = exitGroup ++ '('.toUInt8 :: text
  noLt : '<'.toUInt8 ∉ body
  noNewline : '\n'.toUInt8 ∉ body
  noNul : 0 ∉ body
  short : (body ++ ['\n'.toUInt8]).length ≤ 299

/-- A line of the transcript. -/
inductive Line
  | call (r : CallRecord)
  | skipped (l : SkippedLine)

/-- What is printed. -/
def Line.bytes : Line → List UInt8
  | .call r => recordBody r.name r.text r.whole r.frac ++ ['\n'.toUInt8]
  | .skipped l => l.body ++ ['\n'.toUInt8]

/-- The sample a record is, its time in seconds. -/
def CallRecord.sample (r : CallRecord) : FuncTime ℚ where
  func := r.name
  time := (r.whole : ℕ) + fraction r.frac

/-- The sample a line is. -/
def Line.sample? : Line → Option (FuncTime ℚ)
  | .call r => some r.sample
  | .skipped _ => none

/-! ### Scanning a line -/

/-- The newline of a record is its last byte. -/
theorem noNewline_recordBody {name text : CString} {whole : Fin 10} {frac : List (Fin 10)}
    (h : '\n'.toUInt8 ∉ name ++ text) : '\n'.toUInt8 ∉ recordBody name text whole frac := by
  rw [List.mem_append, not_or] at h
  rw [recordBody, List.mem_append, List.mem_cons, List.mem_append, List.mem_cons, List.mem_append]
  intro hmem
  rcases hmem with hm | hm | hm | hm | hm | hm
  · exact h.1 hm
  · exact absurd hm (by decide)
  · exact h.2 hm
  · exact absurd hm (by decide)
  · exact notMem_decimal (by decide) (by decide) hm
  · exact absurd hm (by decide)

/-- What begins with a lower-case letter still does when more follows, -/
theorem head_lower {line rest : List UInt8} (h : line.head?.any isLower = true) :
    (line ++ rest).head?.any isLower = true := by
  cases line with
  | nil => exact absurd h (by simp)
  | cons c line => exact h

/-- and what does not still does not, with its newline. -/
theorem head_other {body rest : List UInt8} (h : body.head?.any isLower = false) :
    (body ++ '\n'.toUInt8 :: rest).head?.any isLower = false := by
  cases body with
  | nil => rfl
  | cons c body => exact h

theorem cstring_eq {bytes : List UInt8} (h : 0 ∉ bytes) : cstring bytes = bytes := by
  rw [cstring, List.takeWhile_eq_self_iff]
  intro c hc
  simp only [decide_eq_true_eq]
  intro heq
  subst heq
  exact h hc

/-- The forward scan stops at the first `(`. -/
theorem findIdx_paren {name rest : List UInt8} (h : '('.toUInt8 ∉ name) :
    (name ++ '('.toUInt8 :: rest).findIdx? (· = '('.toUInt8) = some name.length := by
  have hnone : name.findIdx? (· = '('.toUInt8) = none := by
    rw [List.findIdx?_eq_none_iff]
    intro c hc
    simp only [decide_eq_false_iff_not]
    intro heq
    subst heq
    exact h hc
  rw [List.findIdx?_append, hnone]
  simp [List.findIdx?_cons]

/-- The backward scan stops at the last `<`. -/
theorem scanBack_last {x y : List UInt8} (h : '<'.toUInt8 ∉ y) (hx : x ≠ []) {n : Nat}
    (hn : x.length ≤ n) : scanBack (x ++ '<'.toUInt8 :: y) n = x.length := by
  induction n with
  | zero =>
      have := List.length_pos_iff.mpr hx
      omega
  | succ n ih =>
      rw [scanBack]
      by_cases hlast : x.length = n + 1
      · rw [← hlast, if_pos (by simp)]
      · have hlt : x.length ≤ n := by omega
        rw [if_neg, ih hlt]
        -- byte `n + 1` is behind the `<`
        rw [List.getElem?_append_right hn, List.getElem?_cons, if_neg (by omega)]
        intro hmem
        exact h (List.mem_of_getElem? hmem)

/-- The eight bytes behind the `<` are the duration. -/
theorem cstring_duration {x tail : List UInt8} {whole : Fin 10} {frac : List (Fin 10)}
    (hfrac : frac.length = 6) :
    cstring (((x ++ '<'.toUInt8 :: (decimal whole frac ++ tail)).drop (x.length + 1)).take 8) =
      decimal whole frac := by
  have hdrop : (x ++ '<'.toUInt8 :: (decimal whole frac ++ tail)).drop (x.length + 1) =
      decimal whole frac ++ tail := by
    rw [← List.drop_drop, List.drop_left, List.drop_one, List.tail_cons]
  have hlen : (decimal whole frac).length = 8 := by rw [decimal_length, hfrac]
  rw [hdrop, ← hlen, List.take_left]
  exact cstring_eq (notMem_decimal (by decide) (by decide))

/-- A buffer whose last `<` is before a duration. -/
theorem scanStep_record {r : Reader ℚ} {func : CString} {x tail : List UInt8} {whole : Fin 10}
    {frac : List (Fin 10)} {table : Table ℚ}
    (hbytes : r.s.bytes = x ++ '<'.toUInt8 :: (decimal whole frac ++ tail))
    (htail : '<'.toUInt8 ∉ tail) (hx : x ≠ []) (hlen : x.length + 9 ≤ 300)
    (hfrac : frac.length = 6)
    (hrecord : r.table.record { func := func, time := (whole : ℕ) + fraction frac } =
      some table) :
    scanStep r func =
      { r with
        s := Buffer.zero 300
        pc := .outer
        table := table
        appended := r.appended ++ [{ func := func, time := (whole : ℕ) + fraction frac }] } := by
  have hnone : '<'.toUInt8 ∉ decimal whole frac ++ tail := by
    rw [List.mem_append, not_or]
    exact ⟨notMem_decimal (by decide) (by decide), htail⟩
  have hscan : scanBack r.s.bytes 299 = x.length := by
    rw [hbytes]
    exact scanBack_last hnone hx (by omega)
  unfold scanStep
  dsimp only
  rw [hscan, if_neg (fun h => hx (List.length_eq_zero_iff.mp h))]
  unfold useRecord
  rw [if_neg (by omega), hbytes, cstring_duration hfrac, sscanfLf_decimal]
  dsimp only
  rw [hrecord]

/-! ### One line -/

/-- Between lines: no `<` is left in the buffer, and the table is that of the pairs
passed to `append`. -/
structure Ready (r : Reader ℚ) : Prop where
  outer : r.pc = .outer
  noLt : '<'.toUInt8 ∉ r.s.bytes
  fold : r.appended.foldlM Table.record Table.empty = some r.table

theorem Ready.shows {r : Reader ℚ} (h : Ready r) : Shows r.appended r.table := by
  obtain ⟨t, hfold, ht⟩ := exists_shows r.appended
  rw [h.fold] at hfold
  rw [Option.some.inj hfold]
  exact ht

theorem Ready.step {r : Reader ℚ} (h : Ready r) : Sperf.step r = readLineStep r := by
  unfold Sperf.step
  rw [h.outer]

theorem ready_init (stdin : List UInt8) : Ready (Reader.init stdin) where
  outer := rfl
  noLt := by
    intro h
    exact absurd (List.eq_of_mem_replicate h) (by decide)
  fold := rfl

/-- The name is what is before the first `(`. -/
theorem name_of_line {s : Buffer 300} {name tail : List UInt8}
    (hs : s.bytes = name ++ '('.toUInt8 :: tail) (hlower : name.head?.any isLower = true)
    (hparen : '('.toUInt8 ∉ name) (hnul : 0 ∉ name) :
    s.bytes.head?.any isLower = true ∧
      s.bytes.findIdx? (· = '('.toUInt8) = some name.length ∧
      cstring (s.bytes.take name.length) = name := by
  refine ⟨?_, ?_, ?_⟩
  · rw [hs]
    exact head_lower hlower
  · rw [hs]
    exact findIdx_paren hparen
  · rw [hs, List.take_left]
    exact cstring_eq hnul

theorem readLineStep_name {r : Reader ℚ} {s : Buffer 300} {name tail rest : List UInt8}
    (hfgets : fgets r.s r.stdin = some (s, rest)) (hs : s.bytes = name ++ '('.toUInt8 :: tail)
    (hlower : name.head?.any isLower = true) (hparen : '('.toUInt8 ∉ name) (hnul : 0 ∉ name) :
    readLineStep r =
      if name = exitGroup then { r with s := s, stdin := rest }
      else { r with s := s, stdin := rest, pc := .inner name } := by
  obtain ⟨hhead, hindex, hname⟩ := name_of_line hs hlower hparen hnul
  unfold readLineStep
  rw [hfgets]
  dsimp only
  rw [if_neg (not_not.mpr hhead), hindex]
  dsimp only
  rw [hname]

/-- A line to be skipped leaves its text in the buffer, and nothing else happens. -/
theorem step_skipped {r : Reader ℚ} {l : SkippedLine} {rest : List UInt8} (hr : Ready r)
    (hin : r.stdin = (Line.skipped l).bytes ++ rest) :
    Ready (step r) ∧ (step r).stdin = rest ∧ (step r).appended = r.appended := by
  have hin' : r.stdin = l.body ++ '\n'.toUInt8 :: rest := by
    rw [hin, Line.bytes, List.append_assoc]
    rfl
  obtain ⟨s', hfgets, hs'⟩ := fgets_line r.s rest l.noNewline (by simpa using l.short)
  rw [← hin'] at hfgets
  have hlt : '<'.toUInt8 ∉ s'.bytes := by
    rw [hs', List.mem_append, List.mem_cons, List.mem_cons]
    intro hmem
    rcases hmem with h | h | h | h
    · exact l.noLt h
    · exact absurd h (by decide)
    · exact absurd h (by decide)
    · exact hr.noLt (List.mem_of_mem_drop h)
  have hstep : step r = { r with s := s', stdin := rest } := by
    rw [hr.step]
    rcases l.skipped with hhead | ⟨text, hbody⟩
    · have hhead' : s'.bytes.head?.any isLower = false := by
        rw [hs']
        exact head_other hhead
      unfold readLineStep
      rw [hfgets]
      dsimp only
      rw [if_pos (by rw [hhead']; decide)]
    · rw [hbody, List.append_assoc] at hs'
      rw [readLineStep_name hfgets hs' (by decide) (by decide) (by decide), if_pos rfl]
  rw [hstep]
  exact ⟨⟨hr.outer, hlt, hr.fold⟩, rfl, rfl⟩

/-- A record takes a round of each loop, and leaves the buffer cleared. -/
theorem step_call {r : Reader ℚ} {c : CallRecord} {rest : List UInt8} (hr : Ready r)
    (hin : r.stdin = (Line.call c).bytes ++ rest) :
    Ready (step (step r)) ∧ (step (step r)).stdin = rest ∧
      (step (step r)).appended = r.appended ++ [c.sample] := by
  have hshort := c.short
  have hin' : r.stdin = recordBody c.name c.text c.whole c.frac ++ '\n'.toUInt8 :: rest := by
    rw [hin, Line.bytes, List.append_assoc]
    rfl
  obtain ⟨s', hfgets, hs'⟩ :=
    fgets_line r.s rest (noNewline_recordBody c.noNewline) (by simpa using hshort)
  rw [← hin'] at hfgets
  -- what is behind the duration: the end of the line and what was there before
  obtain ⟨tail, htail, hbytes⟩ : ∃ tail, '<'.toUInt8 ∉ tail ∧
      s'.bytes = (c.name ++ '('.toUInt8 :: c.text) ++
        '<'.toUInt8 :: (decimal c.whole c.frac ++ tail) := by
    refine ⟨'>'.toUInt8 :: '\n'.toUInt8 :: 0 ::
      r.s.bytes.drop ((recordBody c.name c.text c.whole c.frac).length + 2), ?_, ?_⟩
    · rw [List.mem_cons, List.mem_cons, List.mem_cons]
      intro hmem
      rcases hmem with h | h | h | h
      · exact absurd h (by decide)
      · exact absurd h (by decide)
      · exact absurd h (by decide)
      · exact hr.noLt (List.mem_of_mem_drop h)
    · rw [hs', recordBody]
      simp only [List.append_assoc, List.cons_append, List.nil_append]
  have hnul := c.noNul
  rw [List.mem_append, not_or] at hnul
  have hfirst : step r = { r with s := s', stdin := rest, pc := .inner c.name } := by
    rw [hr.step, readLineStep_name hfgets (by rw [hbytes, List.append_assoc]; rfl) c.lower
      c.noParen hnul.1, if_neg c.notExit]
  obtain ⟨table, hrecord, -⟩ := hr.shows.record c.sample
  have hsecond : step (step r) =
      { s := Buffer.zero 300
        stdin := rest
        pc := .outer
        table := table
        appended := r.appended ++ [c.sample] } := by
    rw [hfirst]
    refine scanStep_record hbytes htail (by simp) ?_ c.frac_length hrecord
    rw [recordBody] at hshort
    simp only [List.length_append, List.length_cons, List.length_nil, decimal_length,
      c.frac_length] at hshort ⊢
    omega
  rw [hsecond]
  refine ⟨⟨rfl, (ready_init []).noLt, ?_⟩, rfl, rfl⟩
  show (r.appended ++ [c.sample]).foldlM Table.record Table.empty = some table
  rw [List.foldlM_append, hr.fold]
  simpa using hrecord

/-- A line of the transcript. -/
theorem iterate_line {r : Reader ℚ} {l : Line} {rest : List UInt8} (hr : Ready r)
    (hin : r.stdin = l.bytes ++ rest) :
    ∃ n, Ready (step^[n] r) ∧ (step^[n] r).stdin = rest ∧
      (step^[n] r).appended = r.appended ++ l.sample?.toList := by
  cases l with
  | call c => exact ⟨2, step_call hr hin⟩
  | skipped l =>
      obtain ⟨hready, hstdin, happended⟩ := step_skipped hr hin
      exact ⟨1, hready, hstdin, happended.trans (List.append_nil _).symm⟩

/-! ### The whole transcript -/

theorem iterate_lines {r : Reader ℚ} {lines : List Line} (hr : Ready r)
    (hin : r.stdin = lines.flatMap Line.bytes) :
    ∃ n, Ready (step^[n] r) ∧ (step^[n] r).stdin = [] ∧
      (step^[n] r).appended = r.appended ++ lines.filterMap Line.sample? := by
  induction lines generalizing r with
  | nil => exact ⟨0, hr, hin, (List.append_nil _).symm⟩
  | cons l lines ih =>
      rw [List.flatMap_cons] at hin
      obtain ⟨n, hready, hstdin, happended⟩ := iterate_line hr hin
      obtain ⟨m, hready', hstdin', happended'⟩ := ih hready hstdin
      refine ⟨m + n, ?_⟩
      rw [Function.iterate_add_apply, happended', happended, List.append_assoc]
      refine ⟨hready', hstdin', ?_⟩
      cases hl : l.sample? with
      | none => rw [List.filterMap_cons_none hl]; rfl
      | some p => rw [List.filterMap_cons_some hl]; rfl

/-- At the end of the input the loop is left. -/
theorem step_end {r : Reader ℚ} (hr : Ready r) (hin : r.stdin = []) :
    step r = { r with pc := .left } := by
  rw [hr.step]
  unfold readLineStep
  rw [hin, fgets_nil]

/-- On every transcript the reader comes to the end of its loop; it has passed to `append` the
names and the durations of the records, in order, and `total_time` is their sum. -/
theorem reader_appends (lines : List Line) :
    ∃ n, let r : Reader ℚ := step^[n] (Reader.init (lines.flatMap Line.bytes))
      r.pc = .left ∧
      r.appended = lines.filterMap Line.sample? ∧
      r.appended.foldlM Table.record Table.empty = some r.table ∧
      r.table.totalTime = (r.appended.map FuncTime.time).sum := by
  obtain ⟨n, hready, hstdin, happended⟩ :=
    iterate_lines (ready_init (lines.flatMap Line.bytes)) rfl
  refine ⟨n + 1, ?_⟩
  rw [Function.iterate_succ_apply', step_end hready hstdin]
  exact ⟨rfl, happended, hready.fold, hready.shows.totalTime⟩

end OsLabs.Sperf
