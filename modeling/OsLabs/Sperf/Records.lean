import OsLabs.Sperf.Rounds

/-!
# OsLabs.Sperf.Records

Call records of any length, and where they lead the reader of `mycode/sperf.c`.

`Leads r r'` says that the run from `r` comes to `r'` whatever is in the uninitialised
`time`; runs are put together with it from their parts. `Appends stdin samples` is the
statement about the whole run: it ends, and `samples` is what was passed to `append`.
It determines the run at every point (`Appends.spec`), which is how a run that goes wrong
somewhere is told from it.
-/

namespace OsLabs.Sperf

/-- A call record of any length: `name(text<d.dddddd>`, and a newline. -/
structure Record where
  name : CString
  /-- Whatever is between the `(` and the `<` of the duration. -/
  text : List UInt8
  whole : Fin 10
  frac : List (Fin 10)
  lower : name.head?.any isLower = true
  noParen : '('.toUInt8 ∉ name
  noNul : 0 ∉ name
  noNewline : '\n'.toUInt8 ∉ name ++ text
  notExit : name ≠ exitGroup
  frac_length : frac.length = 6

namespace Record

/-- What is printed. -/
def bytes (c : Record) : List UInt8 := recordBody c.name c.text c.whole c.frac ++ ['\n'.toUInt8]

/-- The sample a record is: its name, and its duration as `sscanf` reads it. -/
def sample {τ : Type} [Scanf τ] (c : Record) : FuncTime τ where
  func := c.name
  time := (sscanfLf (decimal c.whole c.frac)).get (Scanf.isSome_decimal c.whole c.frac)

/-- The bytes in front of the `<` of the duration. -/
def front (c : Record) : List UInt8 := c.name ++ '('.toUInt8 :: c.text

variable (c : Record)

theorem bytes_eq : c.bytes =
    c.front ++ '<'.toUInt8 :: (decimal c.whole c.frac ++ ['>'.toUInt8, '\n'.toUInt8]) := by
  simp [bytes, recordBody, front]

theorem front_ne_nil : c.front ≠ [] := by
  simp [front]

theorem sscanfLf_duration {τ : Type} [Scanf τ] :
    sscanfLf (decimal c.whole c.frac) = some (c.sample.time : τ) := (Option.some_get _).symm

theorem length_bytes : c.bytes.length = c.front.length + 11 := by
  rw [bytes_eq, List.length_append, List.length_cons, List.length_append, decimal_length,
    c.frac_length]
  rfl

end Record

/-! ### A line in the buffer -/

/-- A line with a name and a `(` leads to the inner loop, with one exception. -/
theorem afterLine_name {s : Buffer 300} {name tail : List UInt8}
    (hs : s.bytes = name ++ '('.toUInt8 :: tail) (hlower : name.head?.any isLower = true)
    (hparen : '('.toUInt8 ∉ name) (hnul : 0 ∉ name) :
    afterLine s = if name = exitGroup then .outer else .inner name := by
  obtain ⟨hhead, hindex, hname⟩ := name_of_line hs hlower hparen hnul
  rw [afterLine, if_neg (not_not.mpr hhead), hindex]
  dsimp only
  rw [hname]

/-- If no `<` is left behind a record in the buffer, its own is found. -/
theorem scanBack_record {τ : Type} [Scanf τ] {c : Record} {s : Buffer 300} {tail : List UInt8}
    (hs : s.bytes = c.bytes ++ 0 :: tail)
    (hshort : c.bytes.length ≤ 299) (htail : '<'.toUInt8 ∉ tail) (junk : τ) :
    scanBack s.bytes 299 = c.front.length ∧
      timeAt junk s c.front.length = c.sample.time := by
  have hlen := c.length_bytes
  rw [Record.bytes_eq] at hs
  simp only [List.append_assoc, List.cons_append, List.nil_append] at hs
  refine ⟨?_, ?_⟩
  · rw [hs]
    refine scanBack_last ?_ c.front_ne_nil (by omega)
    rw [List.mem_append, List.mem_cons, List.mem_cons, List.mem_cons]
    rintro (h | h | h | h | h)
    · exact notMem_decimal (by decide) (by decide) h
    · exact absurd h (by decide)
    · exact absurd h (by decide)
    · exact absurd h (by decide)
    · exact htail h
  · rw [timeAt, hs, cstring_duration c.frac_length, c.sscanfLf_duration, Option.getD_some]

/-! ### Runs -/

section
variable {τ : Type}

/-- The reader is between two lines, with a buffer that was cleared. -/
structure Cleared (r : Reader τ) (stdin : List UInt8) (samples : List (FuncTime τ)) : Prop where
  pc : r.pc = .outer
  buffer : r.s = Buffer.zero 300
  stdin : r.stdin = stdin
  appended : r.appended = samples

theorem cleared_init [Zero τ] (stdin : List UInt8) :
    Cleared (Reader.init stdin : Reader τ) stdin [] :=
  ⟨rfl, rfl, rfl, rfl⟩

variable [Add τ] [LT τ] [DecidableLT τ]

theorem cleared_takeSample (r : Reader τ) (func : CString) (time : τ) :
    Cleared (takeSample r func time) r.stdin
      (r.appended ++ [{ func := func, time := time }]) := by
  obtain ⟨hpc, hstdin, hs, happ⟩ := takeSample_spec r func time
  exact ⟨hpc, hs, hstdin, happ⟩

variable [Scanf τ]

section
variable {r r' r'' : Reader τ} {js : ℕ → τ} {n m : ℕ} {stdin : List UInt8}
  {samples : List (FuncTime τ)}

/-- The run from `r` comes to `r'`, whatever is in `time`. -/
def Leads (r r' : Reader τ) : Prop := ∀ js : ℕ → τ, ∃ n, rounds js r n = r'

theorem Leads.refl (r : Reader τ) : Leads r r := fun _ => ⟨0, rfl⟩

theorem Leads.trans (h : Leads r r') (h' : Leads r' r'') : Leads r r'' := by
  intro js
  obtain ⟨n, hn⟩ := h js
  obtain ⟨m, hm⟩ := h' fun i => js (n + i)
  exact ⟨n + m, by rw [rounds_add, hn, hm]⟩

theorem leads_round (h : ∀ junk, round junk r = r') : Leads r r' := fun js => ⟨1, h (js 0)⟩

/-- Nothing is taken back from what was passed to `append`. -/
theorem appended_round (junk : τ) (r : Reader τ) : r.appended <+: (round junk r).appended := by
  have hmoved := moved_round junk r
  generalize round junk r = r' at hmoved ⊢
  cases hmoved with
  | halted | eof | line | stuck | more | out => exact List.prefix_refl _
  | sample func hpc hin =>
      rw [(takeSample_spec r func _).2.2.2]
      exact List.prefix_append ..

theorem appended_rounds (js : ℕ → τ) (r : Reader τ) (hle : n ≤ m) :
    (rounds js r n).appended <+: (rounds js r m).appended := by
  obtain ⟨k, rfl⟩ := Nat.exists_eq_add_of_le hle
  induction k with
  | zero => exact List.prefix_refl _
  | succ k ih => exact (ih (Nat.le_add_right n k)).trans (appended_round _ _)

/-- At the end of the input. -/
theorem leads_left (hpc : r.pc = .outer) (hnil : r.stdin = []) :
    Leads r { r with pc := .left } := leads_round fun _ => round_eof hpc hnil

variable [Zero τ]

/-- On this input the loop ends, and these are the pairs it has passed to `append`. -/
def Appends (stdin : List UInt8) (samples : List (FuncTime τ)) : Prop :=
  ∀ js : ℕ → τ, ∃ n, (rounds js (Reader.init stdin) n).pc = .left ∧
    (rounds js (Reader.init stdin) n).appended = samples

/-- At no point has the run passed anything else to `append`, or failed. -/
theorem Appends.spec (h : Appends stdin samples) (js : ℕ → τ) (n : ℕ) :
    (rounds js (Reader.init stdin) n).appended <+: samples ∧
      ∀ f, (rounds js (Reader.init stdin) n).pc ≠ .fault f := by
  obtain ⟨m, hpc, happ⟩ := h js
  rcases Nat.le_total n m with hle | hle
  · refine ⟨happ ▸ appended_rounds js _ hle, fun f hf => ?_⟩
    have hend := rounds_halted (.inr ⟨f, hf⟩) hle
    rw [hend, hf] at hpc
    exact absurd hpc (by simp)
  · have hend := rounds_halted (.inl hpc) hle
    rw [hend]
    exact ⟨happ ▸ List.prefix_refl _, fun f hf => absurd (hpc.symm.trans hf) (by simp)⟩

/-- There is one such sequence. -/
theorem Appends.unique {samples' : List (FuncTime τ)} (h : Appends stdin samples)
    (h' : Appends stdin samples') : samples = samples' := by
  obtain ⟨n, -, hn⟩ := h fun _ => 0
  obtain ⟨m, -, hm⟩ := h' fun _ => 0
  have hle := hn ▸ (h'.spec (fun _ => 0) n).1
  have hge := hm ▸ (h.spec (fun _ => 0) m).1
  exact hle.eq_of_length (Nat.le_antisymm hle.length_le hge.length_le)

theorem appends_of_leads (h : Leads (Reader.init stdin) r) (hpc : r.pc = .left) :
    Appends stdin r.appended := by
  intro js
  obtain ⟨n, hn⟩ := h js
  exact ⟨n, by rw [hn, hpc], by rw [hn]⟩

end

/-! ### A record that fits -/

section
variable {r : Reader τ} {c : Record} {rest : List UInt8} {cs : List Record}

/-- A record of at most 299 bytes is read at once, and its name copied. -/
theorem round_record (hpc : r.pc = .outer) (hin : r.stdin = c.bytes ++ rest)
    (hshort : c.bytes.length ≤ 299) :
    ∃ s, s.bytes = c.bytes ++ 0 :: r.s.bytes.drop (c.bytes.length + 1) ∧
      ∀ junk, round junk r = { r with s := s, stdin := rest, pc := .inner c.name } := by
  have hread : readLine 299 r.stdin = (c.bytes, rest) := by
    rw [hin, Record.bytes, List.append_assoc, List.singleton_append]
    refine readLine_line (noNewline_recordBody c.noNewline) ?_
    rwa [Record.bytes, List.length_append, List.length_singleton] at hshort
  have hne : r.stdin ≠ [] := by
    rw [hin, Record.bytes_eq]
    simp
  obtain ⟨s, hs, hround⟩ := round_line hpc hne
  rw [hread] at hs hround
  refine ⟨s, hs, fun junk => ?_⟩
  rw [Record.bytes_eq, Record.front] at hs
  simp only [List.append_assoc, List.cons_append] at hs
  rw [hround junk, afterLine_name hs c.lower c.noParen c.noNul, if_neg c.notExit]

/-- Such a record yields its sample, and the buffer is cleared. -/
theorem leads_record (hpc : r.pc = .outer) (hin : r.stdin = c.bytes ++ rest)
    (hshort : c.bytes.length ≤ 299)
    (hstale : '<'.toUInt8 ∉ r.s.bytes.drop (c.bytes.length + 1)) :
    ∃ r', Leads r r' ∧ Cleared r' rest (r.appended ++ [c.sample]) := by
  obtain ⟨s, hs, hfirst⟩ := round_record hpc hin hshort
  have hlen := c.length_bytes
  have hpos := List.length_pos_iff.mpr c.front_ne_nil
  refine ⟨takeSample { r with s := s, stdin := rest, pc := .inner c.name } c.name
      c.sample.time,
    (leads_round hfirst).trans (leads_round fun junk => ?_), cleared_takeSample _ _ _⟩
  obtain ⟨hscan, htime⟩ := scanBack_record hs hshort hstale junk
  rw [round_inner (r := { r with s := s, stdin := rest, pc := .inner c.name }) rfl
    (by rw [hscan]; exact hpos)]
  rw [hscan, if_neg (by omega), htime]

/-- A sequence of them. -/
theorem leads_records (hshort : ∀ c ∈ cs, c.bytes.length ≤ 299) {samples : List (FuncTime τ)}
    (h : Cleared r (cs.flatMap Record.bytes ++ rest) samples) :
    ∃ r', Leads r r' ∧ Cleared r' rest (samples ++ cs.map Record.sample) := by
  induction cs generalizing r samples with
  | nil => exact ⟨r, .refl r, by simpa using h⟩
  | cons c cs ih =>
      have hin : r.stdin = c.bytes ++ (cs.flatMap Record.bytes ++ rest) := by
        rw [h.stdin, List.flatMap_cons, List.append_assoc]
      have hstale : '<'.toUInt8 ∉ r.s.bytes.drop (c.bytes.length + 1) := by
        rw [h.buffer]
        exact fun hmem => notMem_zeros _ (List.mem_cons_of_mem _ hmem)
      obtain ⟨r', hlead, hr'⟩ :=
        leads_record h.pc hin (hshort c List.mem_cons_self) hstale
      obtain ⟨r'', hlead', hr''⟩ := ih (fun d hd => hshort d (List.mem_cons_of_mem c hd)) hr'
      refine ⟨r'', hlead.trans hlead', ?_⟩
      rw [h.appended] at hr''
      simpa using hr''

/-- A transcript of records that fit yields their samples. -/
theorem appends_records [Zero τ] (hshort : ∀ c ∈ cs, c.bytes.length ≤ 299) :
    Appends (cs.flatMap Record.bytes) (cs.map (Record.sample : Record → FuncTime τ)) := by
  have h0 : Cleared (Reader.init (cs.flatMap Record.bytes) : Reader τ)
      (cs.flatMap Record.bytes ++ []) [] := by
    rw [List.append_nil]
    exact cleared_init _
  obtain ⟨r, hlead, hr⟩ := leads_records hshort h0
  have happ := appends_of_leads (hlead.trans (leads_left hr.pc hr.stdin)) rfl
  rw [hr.appended] at happ
  simpa using happ

end

end

end OsLabs.Sperf
