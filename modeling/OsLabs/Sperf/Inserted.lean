import OsLabs.Sperf.Records

/-!
# OsLabs.Sperf.Inserted

What a skipped line does to the records after it, in `mycode/sperf.c`.

A line that does not begin with a lower-case letter is skipped, but it stays in the
buffer. The next record overwrites the front of it, and the search for its `<` begins at
the back: what it finds there is the last `<` of the skipped line, if the line is longer
than the record and has one behind it. Two runs, with and without the line, agree exactly
when there is none, or when the number behind it happens to be the record's own
(`inserted_line_iff`).
-/

namespace OsLabs.Sperf

/-- A line of at most 299 bytes that does not begin with a lower-case letter. -/
structure OtherLine where
  body : List UInt8
  other : body.head?.any isLower = false
  noNewline : '\n'.toUInt8 ∉ body
  short : (body ++ ['\n'.toUInt8]).length ≤ 299

namespace OtherLine

variable (l : OtherLine)

/-- What is printed. -/
def bytes : List UInt8 := l.body ++ ['\n'.toUInt8]

/-- The line in a buffer that was cleared before. -/
def buffer : List UInt8 := l.bytes ++ 0 :: (Buffer.zero 300).bytes.drop (l.bytes.length + 1)

/-- The eight bytes behind the last `<` of the line. -/
def lastBytes : CString := cstring ((l.buffer.drop (scanBack l.buffer 299 + 1)).take 8)

/-- The line can be inserted in front of these records: the first of them covers every `<`
of it, or the bytes behind the last one are inside the buffer and the number that `sscanf`
reads there is the one it reads for the duration of the record. -/
def Harmless (τ : Type) [Scanf τ] : List Record → Prop
  | [] => True
  | c :: _ =>
      '<'.toUInt8 ∉ l.bytes.drop (c.bytes.length + 1) ∨
        (scanBack l.buffer 299 ≤ 291 ∧
          sscanfLf l.lastBytes = (sscanfLf (decimal c.whole c.frac) : Option τ))

instance {τ : Type} [Scanf τ] [DecidableEq τ] (cs : List Record) : Decidable (l.Harmless τ cs) :=
  match cs with
  | [] => inferInstanceAs (Decidable True)
  | _ :: _ => inferInstanceAs (Decidable (_ ∨ _))

end OtherLine

/-! ### What the search finds -/

section
variable {τ : Type} [Scanf τ] {l : OtherLine} {c : Record}

/-- A `<` behind the record in the buffer is one of the line. -/
theorem mem_buffer_drop (k : ℕ) :
    '<'.toUInt8 ∈ l.buffer.drop k ↔ '<'.toUInt8 ∈ l.bytes.drop k :=
  mem_drop_padded (notMem_zeros _) k

theorem drop_congr {b b' : List UInt8} {k m : ℕ} (h : b.drop k = b'.drop k) (hkm : k ≤ m) :
    b.drop m = b'.drop m := by
  obtain ⟨d, rfl⟩ := Nat.exists_eq_add_of_le hkm
  rw [← List.drop_drop, h, List.drop_drop]

/-- The search that stops behind byte `k` has only looked at what is behind it. -/
theorem scanBack_congr {b b' : List UInt8} {n k : ℕ} (h : b.drop (k + 1) = b'.drop (k + 1))
    (hk : k < scanBack b n) : scanBack b n = scanBack b' n := by
  have hbyte : ∀ i, k < i → b[i]? = b'[i]? := by
    intro i hi
    have hdrop := congrArg (fun t : List UInt8 => t[0]?) (drop_congr h hi)
    simpa using hdrop
  have hlt : ∀ j, k ≤ j → (j < scanBack b n ↔ j < scanBack b' n) := by
    intro j hj
    rw [lt_scanBack_iff, lt_scanBack_iff]
    refine exists_congr fun i => and_congr_right fun hi => ?_
    rw [hbyte i (Nat.lt_of_le_of_lt hj hi)]
  have hk' := (hlt k (Nat.le_refl k)).mp hk
  refine eq_of_forall_lt_iff fun j => ?_
  rcases Nat.le_total k j with hkj | hjk
  · exact hlt j hkj
  · exact iff_of_true (Nat.lt_of_le_of_lt hjk hk) (Nat.lt_of_le_of_lt hjk hk')

/-- With a `<` of the line behind the record, the search ends at the line's last one, and the
number is the one behind that. -/
theorem scanBack_left {s : Buffer 300}
    (hs : s.bytes = c.bytes ++ 0 :: l.buffer.drop (c.bytes.length + 1))
    (hstale : '<'.toUInt8 ∈ l.bytes.drop (c.bytes.length + 1)) (junk : τ) :
    0 < scanBack l.buffer 299 ∧ scanBack s.bytes 299 = scanBack l.buffer 299 ∧
      timeAt junk s (scanBack l.buffer 299) = (sscanfLf l.lastBytes).getD junk := by
  have hdrop : s.bytes.drop (c.bytes.length + 1) = l.buffer.drop (c.bytes.length + 1) := by
    have hcons : s.bytes = (c.bytes ++ [0]) ++ l.buffer.drop (c.bytes.length + 1) := by simp [hs]
    rw [hcons]
    exact List.drop_left' (by simp)
  have hlt : c.bytes.length < scanBack s.bytes 299 := by
    rw [lt_scanBack_iff_mem, hdrop, mem_buffer_drop]
    exact hstale
  have hscan := scanBack_congr hdrop hlt
  rw [hscan] at hlt
  refine ⟨by omega, hscan, ?_⟩
  rw [timeAt, drop_congr hdrop (by omega), OtherLine.lastBytes]

/-! ### The line and the record -/

variable [Add τ] [LT τ] [DecidableLT τ] {r : Reader τ} {rest : List UInt8}
  {samples : List (FuncTime τ)}

/-- The line is skipped, and left in the buffer. -/
theorem leads_other (h : Cleared r (l.bytes ++ rest) samples) :
    ∃ s : Buffer 300, s.bytes = l.buffer ∧ Leads r { r with s := s, stdin := rest } := by
  have hread : readLine 299 r.stdin = (l.bytes, rest) := by
    rw [h.stdin, OtherLine.bytes, List.append_assoc, List.singleton_append]
    refine readLine_line l.noNewline ?_
    simpa using l.short
  have hne : r.stdin ≠ [] := by
    rw [h.stdin, OtherLine.bytes]
    simp
  obtain ⟨s, hs, hround⟩ := round_line h.pc hne
  rw [hread, h.buffer] at hs
  have hhead : s.bytes.head?.any isLower = false := by
    rw [hs, OtherLine.bytes, List.append_assoc]
    exact head_other l.other
  rw [hread, afterLine_other hhead, ← h.pc] at hround
  exact ⟨s, hs, leads_round hround⟩

/-- A record behind such a line: its name is passed on, with what the line has for a number. -/
theorem leads_left_behind (h : Cleared r (l.bytes ++ (c.bytes ++ rest)) samples)
    (hshort : c.bytes.length ≤ 299)
    (hstale : '<'.toUInt8 ∈ l.bytes.drop (c.bytes.length + 1)) :
    ∃ r', Leads r r' ∧ r'.stdin = rest ∧ r'.appended = samples ∧ ∀ junk, round junk r' =
      if 300 < scanBack l.buffer 299 + 9 then { r' with pc := .fault .outOfBounds }
      else takeSample r' c.name ((sscanfLf l.lastBytes).getD junk) := by
  obtain ⟨s, hs, hother⟩ := leads_other h
  obtain ⟨s', hs', hround⟩ :=
    round_record (r := { r with s := s, stdin := c.bytes ++ rest }) h.pc rfl hshort
  rw [hs] at hs'
  refine ⟨_, hother.trans (leads_round hround), rfl, h.appended, fun junk => ?_⟩
  obtain ⟨hpos, hscan, htime⟩ := scanBack_left hs' hstale junk
  rw [round_inner rfl (by rw [hscan]; exact hpos)]
  rw [hscan, htime]

/-! ### The two runs -/

variable [Zero τ] {pre post : List Record}

/-- A harmless line changes nothing. -/
theorem OtherLine.Harmless.appends (h : l.Harmless τ post)
    (hshort : ∀ c ∈ pre ++ post, c.bytes.length ≤ 299) :
    Appends (pre.flatMap Record.bytes ++ l.bytes ++ post.flatMap Record.bytes)
      ((pre ++ post).map (Record.sample : Record → FuncTime τ)) := by
  have hpre : ∀ c ∈ pre, c.bytes.length ≤ 299 :=
    fun c hc => hshort c (List.mem_append_left post hc)
  have hpost : ∀ c ∈ post, c.bytes.length ≤ 299 :=
    fun c hc => hshort c (List.mem_append_right pre hc)
  have hinit : Cleared (Reader.init _ : Reader τ) _ [] :=
    cleared_init (pre.flatMap Record.bytes ++ (l.bytes ++ post.flatMap Record.bytes))
  obtain ⟨r, hlead, hr⟩ := leads_records hpre hinit
  rw [List.nil_append] at hr
  rw [List.append_assoc]
  cases post with
  | nil =>
      obtain ⟨s, hs, hother⟩ := leads_other hr
      have happ := appends_of_leads
        ((hlead.trans hother).trans (leads_left hr.pc rfl)) rfl
      rw [List.append_nil]
      simpa [hr.appended] using happ
  | cons c post =>
      have hhead := hpost c List.mem_cons_self
      have htail : ∀ d ∈ post, d.bytes.length ≤ 299 :=
        fun d hd => hpost d (List.mem_cons_of_mem c hd)
      rw [List.flatMap_cons] at hlead hr ⊢
      -- the record behind the line, and the rest
      obtain ⟨r', hlead', hr'⟩ : ∃ r', Leads r r' ∧
          Cleared r' (post.flatMap Record.bytes) (pre.map Record.sample ++ [c.sample]) := by
        by_cases hstale : '<'.toUInt8 ∈ l.bytes.drop (c.bytes.length + 1)
        · obtain ⟨hin, hnumber⟩ := h.resolve_left (not_not.mpr hstale)
          obtain ⟨r', hlead', hstdin, happ, hround⟩ := leads_left_behind hr hhead hstale
          refine ⟨_, hlead'.trans (leads_round fun junk => ?_),
            hstdin ▸ happ ▸ cleared_takeSample r' c.name c.sample.time⟩
          rw [hround junk, if_neg (by omega), hnumber, c.sscanfLf_duration, Option.getD_some]
        · obtain ⟨s, hs, hother⟩ := leads_other hr
          obtain ⟨r', hlead', hr'⟩ :=
            leads_record (r := { r with s := s, stdin := c.bytes ++ post.flatMap Record.bytes })
              hr.pc rfl hhead (by rw [hs, mem_buffer_drop]; exact hstale)
          exact ⟨r', hother.trans hlead', hr.appended ▸ hr'⟩
      rw [← List.append_nil (post.flatMap Record.bytes)] at hr'
      obtain ⟨r'', hlead'', hr''⟩ := leads_records htail hr'
      have happ := appends_of_leads
        (((hlead.trans hlead').trans hlead'').trans (leads_left hr''.pc hr''.stdin)) rfl
      rw [hr''.appended] at happ
      simpa using happ

/-- A line that changes nothing is harmless. -/
theorem harmless_of_appends (hshort : ∀ c ∈ pre ++ post, c.bytes.length ≤ 299)
    (h : Appends (pre.flatMap Record.bytes ++ l.bytes ++ post.flatMap Record.bytes)
      ((pre ++ post).map (Record.sample : Record → FuncTime τ))) : l.Harmless τ post := by
  have hpre : ∀ c ∈ pre, c.bytes.length ≤ 299 :=
    fun c hc => hshort c (List.mem_append_left post hc)
  cases post with
  | nil => trivial
  | cons c post =>
      refine or_iff_not_imp_left.mpr fun hstale => ?_
      have hhead := hshort c (List.mem_append_right pre List.mem_cons_self)
      rw [List.append_assoc, List.flatMap_cons] at h
      have hinit : Cleared (Reader.init _ : Reader τ) _ [] := cleared_init
        (pre.flatMap Record.bytes ++ (l.bytes ++ (c.bytes ++ post.flatMap Record.bytes)))
      obtain ⟨r, hlead, hr⟩ := leads_records hpre hinit
      rw [List.nil_append] at hr
      obtain ⟨r', hlead', -, happ, hround⟩ := leads_left_behind hr hhead (not_not.mp hstale)
      -- the round that uses the record, whatever is in `time`
      have hnext : ∀ junk, (round junk r').appended <+: (pre ++ c :: post).map Record.sample ∧
          ∀ f, (round junk r').pc ≠ .fault f := by
        intro junk
        obtain ⟨n, hn⟩ := (hlead.trans hlead') fun _ => junk
        have hspec := h.spec (fun _ => junk) (n + 1)
        rwa [rounds, hn] at hspec
      have hin : ¬ 300 < scanBack l.buffer 299 + 9 := by
        intro hout
        have hpc := (hnext 0).2 .outOfBounds
        rw [hround 0, if_pos hout] at hpc
        exact hpc rfl
      have htime : ∀ junk : τ, (sscanfLf l.lastBytes).getD junk = c.sample.time := by
        intro junk
        have hprefix := (hnext junk).1
        rw [hround junk, if_neg hin, (takeSample_spec r' c.name _).2.2.2, happ, List.map_append,
          List.prefix_append_right_inj, List.map_cons, List.cons_prefix_cons] at hprefix
        exact congrArg FuncTime.time hprefix.1
      exact ⟨by omega, (forall_getD_iff.mp htime).trans c.sscanfLf_duration.symm⟩

/-- With and without the line, the same pairs are passed to `append`: exactly when the line is
harmless to the record that follows it. -/
theorem inserted_line_iff (pre post : List Record) (l : OtherLine)
    (hshort : ∀ c ∈ pre ++ post, c.bytes.length ≤ 299) :
    (∃ samples : List (FuncTime τ), Appends ((pre ++ post).flatMap Record.bytes) samples ∧
      Appends (pre.flatMap Record.bytes ++ l.bytes ++ post.flatMap Record.bytes) samples) ↔
      l.Harmless τ post := by
  have hwithout : Appends ((pre ++ post).flatMap Record.bytes)
      ((pre ++ post).map (Record.sample : Record → FuncTime τ)) := appends_records hshort
  constructor
  · intro h
    obtain ⟨samples, hsamples, hinserted⟩ := h
    obtain rfl := hsamples.unique hwithout
    exact harmless_of_appends hshort hinserted
  · intro h
    exact ⟨_, hwithout, h.appends hshort⟩

end

/-- A line that ends like a record has that duration for its last bytes. -/
theorem OtherLine.lastBytes_of {l : OtherLine} {x tail : List UInt8} {whole : Fin 10}
    {frac : List (Fin 10)} (hbuffer : l.buffer = x ++ '<'.toUInt8 :: (decimal whole frac ++ tail))
    (htail : '<'.toUInt8 ∉ tail) (hx : x ≠ []) (hlen : x.length ≤ 299) (hfrac : frac.length = 6) :
    l.lastBytes = decimal whole frac := by
  have hnone : '<'.toUInt8 ∉ decimal whole frac ++ tail := by
    rw [List.mem_append, not_or]
    exact ⟨notMem_decimal (by decide) (by decide), htail⟩
  rw [OtherLine.lastBytes, hbuffer, scanBack_last hnone hx hlen, cstring_duration hfrac]

/-- `close(3)<0.000007>`. -/
def closeRecord : Record where
  name := "close".toList.map Char.toUInt8
  text := "3)".toList.map Char.toUInt8
  whole := 0
  frac := [0, 0, 0, 0, 0, 7]
  lower := by decide
  noParen := by decide
  noNul := by decide
  noNewline := by decide
  notExit := by decide
  frac_length := rfl

/-- `<... futex resumed>)<1.000000>`: the end of a call that was interrupted. -/
def resumedLine : OtherLine where
  body := "<... futex resumed>)<1.000000>".toList.map Char.toUInt8
  other := by decide
  noNewline := by decide
  short := by decide

/-- `+++ exited with 0 +++`. -/
def exitedLine : OtherLine where
  body := "+++ exited with 0 +++".toList.map Char.toUInt8
  other := by decide
  noNewline := by decide
  short := by decide

/-- The end of the traced program, in front of a record. -/
theorem inserted_line_iff_exited : ∃ samples : List (FuncTime ℚ),
    Appends closeRecord.bytes samples ∧
    Appends (exitedLine.bytes ++ closeRecord.bytes) samples :=
  (inserted_line_iff [] [closeRecord] exitedLine (by decide)).mpr (.inl (by decide))

/-- The duration of an interrupted call is taken for that of the next one. -/
theorem not_inserted_line :
    ¬ ∀ (pre post : List Record) (l : OtherLine), (∀ c ∈ pre ++ post, c.bytes.length ≤ 299) →
      ∃ samples : List (FuncTime ℚ), Appends ((pre ++ post).flatMap Record.bytes) samples ∧
        Appends (pre.flatMap Record.bytes ++ l.bytes ++ post.flatMap Record.bytes) samples := by
  intro h
  have hshort : ∀ c ∈ [] ++ [closeRecord], c.bytes.length ≤ 299 := by decide
  obtain ⟨samples, hsamples, hinserted⟩ := h [] [closeRecord] resumedLine hshort
  obtain rfl := hsamples.unique (appends_records hshort)
  have hbytes : resumedLine.lastBytes = decimal 1 [0, 0, 0, 0, 0, 0] := by
    have hbuffer : resumedLine.buffer = "<... futex resumed>)".toList.map Char.toUInt8 ++
        '<'.toUInt8 :: (decimal 1 [0, 0, 0, 0, 0, 0] ++
          ('>'.toUInt8 :: '\n'.toUInt8 :: 0 :: (Buffer.zero 300).bytes.drop 32)) := rfl
    exact OtherLine.lastBytes_of hbuffer (by decide) (by decide) (by decide) rfl
  rcases harmless_of_appends hshort hinserted with hcovered | ⟨-, hsame⟩
  · exact absurd hcovered (by decide)
  · have hduration : decimal closeRecord.whole closeRecord.frac =
        decimal 0 [0, 0, 0, 0, 0, 7] := rfl
    rw [hbytes, hduration, sscanfLf_decimal, sscanfLf_decimal, Option.some_inj] at hsame
    norm_num [fraction, Nat.ofDigits] at hsame

end OsLabs.Sperf
