import OsLabs.Sperf.Report
import OsLabs.Sperf.Rounds

/-!
# OsLabs.Sperf.Calls

The calls of `sort` and `show` that the parent of `mycode/sperf.c` makes: `sort` after each
`append`, `show` when a tenth of a second has passed since the last time, and both of them
once more behind the loop.

Each call in the loop is about the samples so far (`Told`). The two behind it are made
whatever was read, also when that was nothing, and a first record of no duration is sorted,
and perhaps shown, with a total of 0 (`calls_ok_iff`).
-/

namespace OsLabs.Sperf

/-- A call, with `head` and `total_time` when it is made. -/
inductive Call
  | sorts (head : List (FuncTime ℚ)) (totalTime : ℚ)
  | shows (head : List (FuncTime ℚ)) (totalTime : ℚ)

namespace Call

/-- `head`. -/
@[simp] def head : Call → List (FuncTime ℚ)
  | .sorts head _ | .shows head _ => head

/-- `total_time`. -/
@[simp] def totalTime : Call → ℚ
  | .sorts _ totalTime | .shows _ totalTime => totalTime

/-- There is a function on the list, and some time was spent. -/
def Ok (c : Call) : Prop := c.head ≠ [] ∧ 0 < c.totalTime

/-- The assertion holds, and `show` does not divide by zero. -/
def Safe : Call → Prop
  | .sorts head _ => head ≠ []
  | .shows head totalTime => head ≠ [] ∧ totalTime ≠ 0

theorem Ok.safe {c : Call} (h : c.Ok) : c.Safe := by
  cases c with
  | sorts head totalTime => exact h.1
  | shows head totalTime => exact ⟨h.1, h.2.ne'⟩

end Call

/-- The parent: the reader, the calls so far, newest first, and whether it is past the calls
behind the loop. -/
structure Parent where
  reader : Reader ℚ
  calls : List Call
  ended : Bool

/-- The sample that a round passes to `append`, when it comes to that. -/
def sampleOf (junk : ℚ) (r : Reader ℚ) : Option (FuncTime ℚ) :=
  match r.pc with
  | .inner func =>
      let index := scanBack r.s.bytes 299
      if index = 0 ∨ 300 < index + 9 then none
      else some { func := func, time := timeAt junk r.s index }
  | _ => none

namespace Parent

/-- The calls behind the loop; `show` is not reached when the assertion of `sort` fails. -/
def finish (p : Parent) : Parent :=
  let t := p.reader.table
  match sort t.head with
  | none => { p with calls := .sorts t.head t.totalTime :: p.calls, ended := true }
  | some head =>
      { p with
        calls := .shows head t.totalTime :: .sorts t.head t.totalTime :: p.calls
        ended := true }

/-- The calls after an `append` that returned `head`; `due` is whether the clock asks for a
report. -/
def report (due : Bool) (head : List (FuncTime ℚ)) (p : Parent) : Parent :=
  let t := p.reader.table
  let calls := Call.sorts head t.totalTime :: p.calls
  { p with calls := if due then .shows t.head t.totalTime :: calls else calls }

/-- A round. -/
def step (junk : ℚ) (due : Bool) (p : Parent) : Parent :=
  if p.ended then
    p
  else if p.reader.pc = .left then
    p.finish
  else
    match sampleOf junk p.reader with
    | none => { p with reader := round junk p.reader }
    | some sample =>
        { p with reader := round junk p.reader }.report due (append p.reader.table.head sample)

/-- The parent after so many rounds. -/
def run (junk : ℕ → ℚ) (due : ℕ → Bool) (stdin : List UInt8) : ℕ → Parent
  | 0 => { reader := Reader.init stdin, calls := [], ended := false }
  | n + 1 => step (junk n) (due n) (run junk due stdin n)

end Parent

/-! ### Samples -/

section
variable {r : Reader ℚ} {junk : ℚ} {sample : FuncTime ℚ}

theorem round_sample (h : sampleOf junk r = some sample) :
    round junk r = takeSample r sample.func sample.time := by
  rw [sampleOf] at h
  split at h
  · next func hpc =>
    dsimp only at h
    split at h
    · exact absurd h (by simp)
    · next hin =>
      obtain ⟨hne, hin⟩ := not_or.mp hin
      obtain rfl := Option.some.inj h
      rw [round_inner hpc (Nat.pos_of_ne_zero hne), if_neg hin]
  · exact absurd h (by simp)

theorem round_no_sample (h : sampleOf junk r = none) :
    (round junk r).appended = r.appended ∧ (round junk r).table = r.table := by
  cases hpc : r.pc with
  | left =>
      rw [round_halted (.inl hpc)]
      exact ⟨rfl, rfl⟩
  | fault f =>
      rw [round_halted (.inr ⟨f, hpc⟩)]
      exact ⟨rfl, rfl⟩
  | outer =>
      by_cases hnil : r.stdin = []
      · rw [round_eof hpc hnil]
        exact ⟨rfl, rfl⟩
      · obtain ⟨s, -, hround⟩ := round_line hpc hnil
        rw [hround junk]
        exact ⟨rfl, rfl⟩
  | inner func =>
      simp only [sampleOf, hpc] at h
      split at h
      · next hout =>
        by_cases hzero : scanBack r.s.bytes 299 = 0
        · rw [round_fetch hpc hzero]
          split
          · exact ⟨rfl, rfl⟩
          · exact ⟨rfl, rfl⟩
        · rw [round_inner hpc (Nat.pos_of_ne_zero hzero), if_pos (hout.resolve_left hzero)]
          exact ⟨rfl, rfl⟩
      · exact absurd h (by simp)

/-- Everything a round of the parent can do. -/
inductive Called (junk : ℚ) (due : Bool) (p : Parent) : Parent → Prop
  | ended (hended : p.ended = true) : Called junk due p p
  | finish (hended : p.ended = false) (hleft : p.reader.pc = .left) : Called junk due p p.finish
  | round (hended : p.ended = false) (hsample : sampleOf junk p.reader = none) :
      Called junk due p { p with reader := round junk p.reader }
  | sample (sample : FuncTime ℚ) (hended : p.ended = false)
      (hsample : sampleOf junk p.reader = some sample) :
      Called junk due p
        ({ p with reader := Sperf.round junk p.reader }.report due
          (append p.reader.table.head sample))

theorem called_step (junk : ℚ) (due : Bool) (p : Parent) :
    Called junk due p (p.step junk due) := by
  rw [Parent.step]
  split
  · next hended => exact .ended hended
  · next hended =>
    have hended : p.ended = false := by simpa using hended
    split
    · next hleft => exact .finish hended hleft
    · split
      · next hsample => exact .round hended hsample
      · next sample hsample => exact .sample sample hended hsample

end

/-! ### The calls of a run -/

/-- What the calls are about, at any time. -/
structure Told (p : Parent) : Prop where
  shows : Shows p.reader.appended p.reader.table
  /-- A call is about the first so many samples, and about none only behind the loop. -/
  made : ∀ c ∈ p.calls, ∃ samples, samples <+: p.reader.appended ∧
    c.totalTime = (samples.map FuncTime.time).sum ∧ (c.head = [] ↔ samples = []) ∧
    (samples = [] → p.ended = true ∧ p.reader.appended = [])
  /-- There is one about each. -/
  sorted : ∀ samples, samples ≠ [] → samples <+: p.reader.appended →
    ∃ c ∈ p.calls, c.totalTime = (samples.map FuncTime.time).sum
  ended : p.ended = true → ∃ c ∈ p.calls, c.head = p.reader.table.head
  /-- A report is about a table of the samples. -/
  report : ∀ head totalTime, .shows head totalTime ∈ p.calls → ∃ samples, samples ≠ [] ∧
    samples <+: p.reader.appended ∧ Shows samples { head, totalTime }

section
variable {p p' : Parent} {junk : ℚ} {due : Bool} {samples : List (FuncTime ℚ)} {t : Table ℚ}

theorem Shows.head_eq_nil (h : Shows samples t) : t.head = [] ↔ samples = [] := by
  refine ⟨?_, ?_⟩
  · intro hnil
    cases samples with
    | nil => rfl
    | cons q samples =>
        have := (h.aggregates.names q.func).mpr (by simp)
        rw [hnil] at this
        exact absurd this List.not_mem_nil
  · intro heq
    subst heq
    cases hhead : t.head with
    | nil => rfl
    | cons q l =>
        have := (h.aggregates.names q.func).mp (by simp [hhead])
        exact absurd this List.not_mem_nil

theorem told_init (stdin : List UInt8) :
    Told { reader := Reader.init stdin, calls := [], ended := false } where
  shows := shows_empty
  made _ hc := absurd hc List.not_mem_nil
  sorted := by
    rintro samples hne hpre
    exact absurd (List.prefix_nil.mp hpre) hne
  ended h := absurd h (by simp)
  report _ _ hc := absurd hc List.not_mem_nil

/-- A report of the samples so far. -/
theorem Told.show {head : List (FuncTime ℚ)} {totalTime : ℚ} (h : Told p)
    (hne : p.reader.appended ≠ []) (hshows : Shows p.reader.appended { head, totalTime }) :
    Told { p with calls := .shows head totalTime :: p.calls } := by
  constructor
  case shows => exact h.shows
  case made =>
    refine List.forall_mem_cons.mpr ⟨?_, h.made⟩
    exact ⟨_, List.prefix_rfl, hshows.totalTime, hshows.head_eq_nil, fun heq => absurd heq hne⟩
  case sorted =>
    intro samples hsamples hpre
    obtain ⟨c, hc, htotal⟩ := h.sorted samples hsamples hpre
    exact ⟨c, List.mem_cons_of_mem _ hc, htotal⟩
  case ended =>
    intro hended
    obtain ⟨c, hc, hhead⟩ := h.ended hended
    exact ⟨c, List.mem_cons_of_mem _ hc, hhead⟩
  case report =>
    intro head' totalTime' hc
    rcases List.mem_cons.mp hc with hc | hc
    · obtain ⟨rfl, rfl⟩ := Call.shows.inj hc
      exact ⟨_, hne, List.prefix_rfl, hshows⟩
    · exact h.report head' totalTime' hc

/-- The calls behind the loop. -/
theorem Told.finish (h : Told p) : Told p.finish := by
  have hsorted : Told { p with
      calls := .sorts p.reader.table.head p.reader.table.totalTime :: p.calls
      ended := true } := by
    constructor
    case shows => exact h.shows
    case made =>
      refine List.forall_mem_cons.mpr ⟨?_, fun c hc => ?_⟩
      · exact ⟨_, List.prefix_rfl, h.shows.totalTime, h.shows.head_eq_nil, fun heq => ⟨rfl, heq⟩⟩
      · obtain ⟨samples, hpre, htotal, hhead, hnil⟩ := h.made c hc
        refine ⟨samples, hpre, htotal, hhead, fun heq => ⟨rfl, (hnil heq).2⟩⟩
    case sorted =>
      intro samples hne hpre
      obtain ⟨c, hc, htotal⟩ := h.sorted samples hne hpre
      exact ⟨c, List.mem_cons_of_mem _ hc, htotal⟩
    case ended => exact fun _ => ⟨_, List.mem_cons_self, rfl⟩
    case report =>
      intro head totalTime hc
      rcases List.mem_cons.mp hc with hc | hc
      · exact absurd hc (by simp)
      · exact h.report head totalTime hc
  rw [Parent.finish]
  split
  · exact hsorted
  · next head hsort =>
    refine hsorted.show ?_ (h.shows.sort hsort)
    intro hnil
    rw [h.shows.head_eq_nil.mpr hnil, sort, if_pos rfl] at hsort
    exact absurd hsort (by simp)

/-- A sample that is appended and sorted. -/
theorem Told.sorts {sample : FuncTime ℚ} {head : List (FuncTime ℚ)} (h : Told p)
    (hended : p.ended = false) (reader : Reader ℚ)
    (happended : reader.appended = p.reader.appended ++ [sample])
    (hshows : Shows (p.reader.appended ++ [sample]) reader.table) (hhead : head ≠ []) :
    Told { p with reader, calls := .sorts head reader.table.totalTime :: p.calls } := by
  constructor
  case shows =>
    rw [happended]
    exact hshows
  case made =>
    rw [happended]
    refine List.forall_mem_cons.mpr ⟨?_, fun c hc => ?_⟩
    · refine ⟨_, List.prefix_rfl, hshows.totalTime, ?_, fun heq => absurd heq (by simp)⟩
      exact iff_of_false hhead (by simp)
    · obtain ⟨samples, hpre, htotal, hhead, hnil⟩ := h.made c hc
      refine ⟨samples, hpre.trans (List.prefix_append _ _), htotal, hhead, fun heq => ?_⟩
      have := (hnil heq).1
      rw [hended] at this
      exact absurd this (by simp)
  case sorted =>
    intro samples hne hpre
    rw [happended] at hpre
    rcases List.prefix_concat_iff.mp hpre with rfl | hpre
    · exact ⟨_, List.mem_cons_self, hshows.totalTime⟩
    · obtain ⟨c, hc, htotal⟩ := h.sorted samples hne hpre
      exact ⟨c, List.mem_cons_of_mem _ hc, htotal⟩
  case ended =>
    intro htrue
    rw [show p.ended = true from htrue] at hended
    exact absurd hended (by simp)
  case report =>
    intro head totalTime hc
    rw [happended]
    rcases List.mem_cons.mp hc with hc | hc
    · exact absurd hc (by simp)
    · obtain ⟨samples, hne, hpre, hreport⟩ := h.report head totalTime hc
      exact ⟨samples, hne, hpre.trans (List.prefix_append _ _), hreport⟩

/-- What a sample makes of the reader. -/
theorem Told.record {sample : FuncTime ℚ} (h : Told p)
    (hsample : sampleOf junk p.reader = some sample) :
    (round junk p.reader).appended = p.reader.appended ++ [sample] ∧
      Shows (p.reader.appended ++ [sample]) (round junk p.reader).table := by
  obtain ⟨t, hrecord, hshows⟩ := h.shows.record sample
  rw [round_sample hsample, takeSample, hrecord]
  exact ⟨rfl, hshows⟩

theorem told_of_called (h : Told p) (hc : Called junk due p p') : Told p' := by
  cases hc with
  | ended _ => exact h
  | finish _ _ => exact h.finish
  | round hended hsample =>
      obtain ⟨happended, htable⟩ := round_no_sample hsample
      obtain ⟨hshows, hmade, hsorted, htold, hreport⟩ := h
      rw [← happended, ← htable] at hshows
      simp only [← happended] at hmade hsorted hreport
      rw [← htable] at htold
      exact ⟨hshows, hmade, hsorted, htold, hreport⟩
  | sample sample hended hsample =>
      obtain ⟨happended, hshows⟩ := h.record hsample
      have htold := h.sorts hended (round junk p.reader) happended hshows
        (append_ne_nil p.reader.table.head sample)
      rw [Parent.report]
      cases due with
      | false => exact htold
      | true =>
          refine htold.show ?_ ?_
          · show (round junk p.reader).appended ≠ []
            rw [happended]
            simp
          · show Shows (round junk p.reader).appended (round junk p.reader).table
            rw [happended]
            exact hshows

theorem told_run (junk : ℕ → ℚ) (due : ℕ → Bool) (stdin : List UInt8) (n : ℕ) :
    Told (Parent.run junk due stdin n) := by
  induction n with
  | zero => exact told_init stdin
  | succ n ih => exact told_of_called ih (called_step _ _ _)

/-- All calls are in order just when all totals so far are positive and, behind the loop,
there was a sample. -/
theorem Told.ok_iff (h : Told p) : (∀ c ∈ p.calls, c.Ok) ↔
    (∀ samples, samples ≠ [] → samples <+: p.reader.appended →
      0 < (samples.map FuncTime.time).sum) ∧
    (p.ended = true → p.reader.appended ≠ []) := by
  refine ⟨?_, ?_⟩
  · intro hok
    refine ⟨?_, ?_⟩
    · intro samples hne hpre
      obtain ⟨c, hc, htotal⟩ := h.sorted samples hne hpre
      rw [← htotal]
      exact (hok c hc).2
    · intro hended hnil
      obtain ⟨c, hc, hhead⟩ := h.ended hended
      exact (hok c hc).1 (hhead.trans (h.shows.head_eq_nil.mpr hnil))
  · rintro ⟨hpos, hended⟩ c hc
    obtain ⟨samples, hpre, htotal, hhead, hnil⟩ := h.made c hc
    have hne : samples ≠ [] := fun heq => hended (hnil heq).1 (hnil heq).2
    exact ⟨fun heq => hne (hhead.mp heq), htotal ▸ hpos samples hne hpre⟩

end

/-! ### The reader under the calls -/

section
variable {junk : ℕ → ℚ} {due : ℕ → Bool} {stdin : List UInt8} {n m : ℕ} {r : Reader ℚ}
  {lines : List Line}

/-- The calls do not touch the reader, -/
theorem finish_reader (p : Parent) : p.finish.reader = p.reader ∧ p.finish.ended = true := by
  rw [Parent.finish]
  split
  · exact ⟨rfl, rfl⟩
  · exact ⟨rfl, rfl⟩

/-- and those behind the loop come when it is left. -/
theorem run_reader (junk : ℕ → ℚ) (due : ℕ → Bool) (stdin : List UInt8) (n : ℕ) :
    (Parent.run junk due stdin n).reader = rounds junk (Reader.init stdin) n ∧
      ((Parent.run junk due stdin n).ended = true →
        (Parent.run junk due stdin n).reader.pc = .left) := by
  induction n with
  | zero => exact ⟨rfl, fun h => absurd h (by simp [Parent.run])⟩
  | succ n ih =>
      obtain ⟨hreader, hleft⟩ := ih
      have hc := called_step (junk n) (due n) (Parent.run junk due stdin n)
      rw [rounds, ← hreader, Parent.run]
      generalize Parent.run junk due stdin n = p at hc hleft
      generalize p.step (junk n) (due n) = p' at hc
      cases hc with
      | ended hended => exact ⟨(round_halted (.inl (hleft hended))).symm, hleft⟩
      | finish hended hpc =>
          rw [(finish_reader p).1, round_halted (.inl hpc)]
          exact ⟨rfl, fun _ => hpc⟩
      | round hended _ => exact ⟨rfl, fun h => absurd (hended.symm.trans h) (by simp)⟩
      | sample sample hended _ => exact ⟨rfl, fun h => absurd (hended.symm.trans h) (by simp)⟩

theorem ended_of_left (h : (rounds junk (Reader.init stdin) n).pc = .left) :
    (Parent.run junk due stdin (n + 1)).ended = true := by
  have hreader := (run_reader junk due stdin n).1
  rw [Parent.run]
  generalize Parent.run junk due stdin n = p at hreader
  rw [Parent.step]
  split
  · next hended => exact hended
  · rw [if_pos (hreader ▸ h)]
    exact (finish_reader p).2

/-- Samples are only added. -/
theorem appended_prefix (hle : n ≤ m) :
    (rounds junk r n).appended <+: (rounds junk r m).appended := by
  induction m, hle using Nat.le_induction with
  | base => exact List.prefix_rfl
  | succ m _ ih =>
      rw [rounds]
      cases hs : sampleOf (junk m) (rounds junk r m) with
      | none => rwa [(round_no_sample hs).1]
      | some sample =>
          rw [round_sample hs, (takeSample_spec _ _ _).2.2.2]
          exact ih.trans (List.prefix_append _ _)

/-- As long as nothing goes wrong, what `time` holds before `sscanf` is not read. -/
theorem rounds_eq_iterate (h : ∀ f, (step^[n] r).pc ≠ .fault f) :
    rounds junk r n = step^[n] r := by
  induction n with
  | zero => rfl
  | succ n ih =>
      rw [Function.iterate_succ_apply'] at h ⊢
      have hprev : ∀ f, (step^[n] r).pc ≠ .fault f := by
        intro f hf
        have hstay : step (step^[n] r) = step^[n] r := by
          rw [step, hf]
        exact h f (hstay.symm ▸ hf)
      rw [rounds, ih hprev, round]
      split
      · exact if_neg (h _)
      · rfl

/-- The reader of a transcript comes to the end of its loop with the samples of its records. -/
theorem rounds_lines (junk : ℕ → ℚ) (lines : List Line) :
    ∃ n, (rounds junk (Reader.init (lines.flatMap Line.bytes)) n).pc = .left ∧
      (rounds junk (Reader.init (lines.flatMap Line.bytes)) n).appended =
        lines.filterMap Line.sample? := by
  obtain ⟨n, hleft, happended, -⟩ := reader_appends lines
  refine ⟨n, ?_⟩
  rw [rounds_eq_iterate]
  · exact ⟨hleft, happended⟩
  · intro f hf
    rw [hleft] at hf
    exact absurd hf (by simp)

/-- At no time are there others. -/
theorem appended_lines (junk : ℕ → ℚ) (lines : List Line) (m : ℕ) :
    (rounds junk (Reader.init (lines.flatMap Line.bytes)) m).appended <+:
      lines.filterMap Line.sample? := by
  obtain ⟨n, hleft, happended⟩ := rounds_lines junk lines
  rw [← happended]
  rcases Nat.le_total m n with hle | hle
  · exact appended_prefix hle
  · simp only [rounds_halted (.inl hleft) hle, List.prefix_rfl]

theorem sample_nonneg (lines : List Line) {sample : FuncTime ℚ}
    (h : sample ∈ lines.filterMap Line.sample?) : 0 ≤ sample.time := by
  obtain ⟨l, -, hl⟩ := List.mem_filterMap.mp h
  cases l with
  | call c =>
      obtain rfl := Option.some.inj hl
      show 0 ≤ ((c.whole : ℕ) : ℚ) + fraction c.frac
      rw [fraction]
      positivity
  | skipped l => exact absurd hl (by simp [Line.sample?])

/-- The transcript has a record, and the first has a positive duration. -/
def FirstPositive (lines : List Line) : Prop :=
  ∃ sample ∈ (lines.filterMap Line.sample?).head?, 0 < sample.time

/-- Then every total is positive. -/
theorem FirstPositive.sum_pos (h : FirstPositive lines) {samples : List (FuncTime ℚ)}
    (hne : samples ≠ []) (hpre : samples <+: lines.filterMap Line.sample?) :
    0 < (samples.map FuncTime.time).sum := by
  obtain ⟨sample, hsample, hpos⟩ := h
  cases samples with
  | nil => exact absurd rfl hne
  | cons first samples =>
      obtain ⟨rest, hsplit⟩ := hpre
      rw [← hsplit] at hsample
      obtain rfl : first = sample := by simpa using hsample
      rw [List.map_cons, List.sum_cons]
      refine add_pos_of_pos_of_nonneg hpos (List.sum_nonneg ?_)
      intro x hx
      obtain ⟨s, hs, rfl⟩ := List.mem_map.mp hx
      refine sample_nonneg lines ?_
      rw [← hsplit]
      exact List.mem_append_left _ (List.mem_cons_of_mem _ hs)

/-- When the clock always asks for a report, there is one of the samples so far each time. -/
theorem shown_run (junk : ℕ → ℚ) (stdin : List UInt8) (n : ℕ) {samples : List (FuncTime ℚ)}
    (hne : samples ≠ [])
    (hpre : samples <+: (Parent.run junk (fun _ => true) stdin n).reader.appended) :
    ∃ head, .shows head (samples.map FuncTime.time).sum ∈
      (Parent.run junk (fun _ => true) stdin n).calls := by
  induction n with
  | zero => exact absurd (List.prefix_nil.mp hpre) hne
  | succ n ih =>
      have htold := told_run junk (fun _ => true) stdin n
      have hc := called_step (junk n) true (Parent.run junk (fun _ => true) stdin n)
      rw [Parent.run] at hpre ⊢
      generalize Parent.run junk (fun _ => true) stdin n = p at hpre htold ih hc
      generalize p.step (junk n) true = p' at hpre hc
      cases hc with
      | ended _ => exact ih hpre
      | finish _ _ =>
          rw [(finish_reader p).1] at hpre
          obtain ⟨head, hhead⟩ := ih hpre
          refine ⟨head, ?_⟩
          rw [Parent.finish]
          split
          · exact List.mem_cons_of_mem _ hhead
          · exact List.mem_cons_of_mem _ (List.mem_cons_of_mem _ hhead)
      | round _ hsample => exact ih ((round_no_sample hsample).1 ▸ hpre)
      | sample sample _ hsample =>
          obtain ⟨happended, hshows⟩ := htold.record hsample
          have hpre : samples <+: (round (junk n) p.reader).appended := hpre
          rw [happended] at hpre
          rcases List.prefix_concat_iff.mp hpre with rfl | hpre
          · refine ⟨(round (junk n) p.reader).table.head, ?_⟩
            rw [← hshows.totalTime]
            exact List.mem_cons_self
          · obtain ⟨head, hhead⟩ := ih hpre
            exact ⟨head, List.mem_cons_of_mem _ (List.mem_cons_of_mem _ hhead)⟩

/-- When all calls are safe whatever the clock says, the first record has a positive
duration. -/
theorem firstPositive_of_safe (junk : ℕ → ℚ)
    (h : ∀ due n, ∀ c ∈ (Parent.run junk due (lines.flatMap Line.bytes) n).calls, c.Safe) :
    FirstPositive lines := by
  obtain ⟨n, hleft, happended⟩ := rounds_lines junk lines
  have hsafe := h (fun _ => true) (n + 1)
  have hended : (Parent.run junk (fun _ => true) (lines.flatMap Line.bytes) (n + 1)).ended = true :=
    ended_of_left hleft
  have htold := told_run junk (fun _ => true) (lines.flatMap Line.bytes) (n + 1)
  have hsamples : (Parent.run junk (fun _ => true) (lines.flatMap Line.bytes)
      (n + 1)).reader.appended = lines.filterMap Line.sample? := by
    rw [(run_reader _ _ _ _).1, rounds_halted (.inl hleft) (Nat.le_succ n), happended]
  cases hlines : lines.filterMap Line.sample? with
  | nil =>
      obtain ⟨c, hc, hhead⟩ := htold.ended hended
      have hnil := htold.shows.head_eq_nil.mpr (hsamples.trans hlines)
      have := hsafe c hc
      rw [hnil] at hhead
      cases c with
      | sorts head totalTime => exact absurd hhead this
      | shows head totalTime => exact absurd hhead this.1
  | cons sample samples =>
      have hpre : [sample] <+: lines.filterMap Line.sample? := by
        rw [hlines]
        exact ⟨samples, rfl⟩
      obtain ⟨head, hc⟩ := shown_run junk (lines.flatMap Line.bytes) (n + 1) (by simp)
        (hsamples.symm ▸ hpre)
      have hne := (hsafe _ hc).2
      rw [List.map_singleton, List.sum_singleton] at hne
      have hnonneg : 0 ≤ sample.time := sample_nonneg lines (hpre.subset List.mem_cons_self)
      refine ⟨sample, by simp [hlines], lt_of_le_of_ne hnonneg hne.symm⟩

theorem not_ok_of_not_firstPositive (junk : ℕ → ℚ) (h : ¬ FirstPositive lines) :
    (¬ ∀ due n, ∀ c ∈ (Parent.run junk due (lines.flatMap Line.bytes) n).calls, c.Ok) ∧
      ¬ ∀ due n, ∀ c ∈ (Parent.run junk due (lines.flatMap Line.bytes) n).calls, c.Safe := by
  refine ⟨?_, ?_⟩
  · intro hok
    exact h (firstPositive_of_safe junk fun due n c hc => (hok due n c hc).safe)
  · intro hsafe
    exact h (firstPositive_of_safe junk hsafe)

/-- When it has, all calls are in order. -/
theorem FirstPositive.ok (h : FirstPositive lines) (junk : ℕ → ℚ) (due : ℕ → Bool) (n : ℕ) :
    ∀ c ∈ (Parent.run junk due (lines.flatMap Line.bytes) n).calls, c.Ok := by
  have hreader := run_reader junk due (lines.flatMap Line.bytes) n
  refine (told_run junk due (lines.flatMap Line.bytes) n).ok_iff.mpr ⟨?_, ?_⟩
  · intro samples hne hpre
    rw [hreader.1] at hpre
    exact h.sum_pos hne (hpre.trans (appended_lines junk lines n))
  · intro hended hnil
    obtain ⟨m, hleft, happended⟩ := rounds_lines junk lines
    have hpc := hreader.2 hended
    rw [hreader.1] at hpc hnil
    have hsame : lines.filterMap Line.sample? = [] := by
      rw [← happended, ← hnil]
      rcases Nat.le_total n m with hle | hle
      · rw [rounds_halted (.inl hpc) hle]
      · rw [rounds_halted (.inl hleft) hle]
    obtain ⟨sample, hsample, -⟩ := h
    rw [hsame] at hsample
    exact absurd hsample (by simp)

end

/-- On any input, the calls that the parent has made have a function on the list and a
positive total just when all totals so far are positive and, behind the loop, there was a
sample. On a transcript they all do, whatever the clock says, just when there is a record
and the first has a positive duration; and the same is needed for the assertions to hold
and `show` not to divide by zero. -/
theorem calls_ok_iff (junk : ℕ → ℚ) :
    (∀ due stdin n, (∀ c ∈ (Parent.run junk due stdin n).calls, c.Ok) ↔
      (∀ samples, samples ≠ [] →
        samples <+: (Parent.run junk due stdin n).reader.appended →
        0 < (samples.map FuncTime.time).sum) ∧
      ((Parent.run junk due stdin n).ended = true →
        (Parent.run junk due stdin n).reader.appended ≠ [])) ∧
    ∀ lines : List Line,
      ((∀ due n, ∀ c ∈ (Parent.run junk due (lines.flatMap Line.bytes) n).calls, c.Ok) ↔
        FirstPositive lines) ∧
      ((∀ due n, ∀ c ∈ (Parent.run junk due (lines.flatMap Line.bytes) n).calls, c.Safe) ↔
        FirstPositive lines) := by
  refine ⟨fun due stdin n => (told_run junk due stdin n).ok_iff, fun lines => ⟨?_, ?_⟩⟩
  · refine ⟨?_, ?_⟩
    · intro h
      exact firstPositive_of_safe junk fun due n c hc => (h due n c hc).safe
    · intro h due n
      exact h.ok junk due n
  · refine ⟨?_, ?_⟩
    · exact firstPositive_of_safe junk
    · intro h due n c hc
      exact (h.ok junk due n c hc).safe

/-- `r(<0.000000>`. -/
def zeroRecord : CallRecord where
  name := ['r'.toUInt8]
  text := []
  whole := ⟨0, Nat.succ_pos 9⟩
  frac := List.replicate 6 ⟨0, Nat.succ_pos 9⟩
  lower := by decide
  noParen := by decide
  noNewline := by decide
  noNul := by decide
  notExit := by decide
  frac_length := rfl
  short := by decide

/-- On the empty transcript not all calls are in order, nor are they safe, and so on one whose
only duration is 0. -/
theorem not_calls_ok :
    ((¬ ∀ due n, ∀ c ∈ (Parent.run 0 due [] n).calls, c.Ok) ∧
      ¬ ∀ due n, ∀ c ∈ (Parent.run 0 due [] n).calls, c.Safe) ∧
    (¬ ∀ due n, ∀ c ∈ (Parent.run 0 due (Line.call zeroRecord).bytes n).calls, c.Ok) ∧
      ¬ ∀ due n, ∀ c ∈ (Parent.run 0 due (Line.call zeroRecord).bytes n).calls, c.Safe := by
  have hnone : ¬ FirstPositive [] := by
    intro h
    obtain ⟨sample, hsample, -⟩ := h
    exact absurd hsample (by simp)
  have hzero : ¬ FirstPositive [Line.call zeroRecord] := by
    intro h
    obtain ⟨sample, hsample, hpos⟩ := h
    obtain rfl : zeroRecord.sample = sample := by simpa [Line.sample?] using hsample
    exact absurd hpos (by norm_num [CallRecord.sample, zeroRecord, fraction])
  have hbytes : [Line.call zeroRecord].flatMap Line.bytes = (Line.call zeroRecord).bytes := by
    rw [List.flatMap_cons, List.flatMap_nil, List.append_nil]
  have hone := not_ok_of_not_firstPositive 0 hzero
  rw [hbytes] at hone
  exact ⟨not_ok_of_not_firstPositive 0 hnone, hone⟩

end OsLabs.Sperf
