import OsLabs.Sperf.Reader

/-!
# OsLabs.Sperf.Rounds

The rounds of the reader of `mycode/sperf.c` on any input at all.

`step` stops where `sscanf` has found no number and `time` is read without ever having
been set. The program goes on there, with whatever is in `time`: `round` is `step` with
that value as a parameter, and a statement about a run (`rounds`) is one about every
choice of these values. `Moved` lists what a round can do.
-/

namespace OsLabs.Sperf

section
variable {τ : Type} [Add τ] [LT τ] [DecidableLT τ]

/-- `append` with the name and the time, and what follows it up to the next `fgets`. -/
def takeSample (r : Reader τ) (func : CString) (time : τ) : Reader τ :=
  match r.table.record { func := func, time := time } with
  | none => { r with pc := .fault .assertFailed }
  | some table =>
      { r with
        s := Buffer.zero 300
        pc := .outer
        table := table
        appended := r.appended ++ [{ func := func, time := time }] }

theorem takeSample_spec (r : Reader τ) (func : CString) (time : τ) :
    (takeSample r func time).pc = .outer ∧ (takeSample r func time).stdin = r.stdin ∧
      (takeSample r func time).s = Buffer.zero 300 ∧
      (takeSample r func time).appended = r.appended ++ [{ func := func, time := time }] := by
  obtain ⟨t, ht⟩ := record_isSome r.table { func := func, time := time }
  rw [takeSample, ht]
  exact ⟨rfl, rfl, rfl, rfl⟩

variable [Scanf τ]

/-- One round, in which `time` is `junk` before the call of `sscanf`. -/
def round (junk : τ) (r : Reader τ) : Reader τ :=
  match r.pc with
  | .inner func =>
      if (step r).pc = .fault .uninitialised then takeSample r func junk else step r
  | _ => step r

/-- So many rounds. -/
def rounds (junk : ℕ → τ) (r : Reader τ) : ℕ → Reader τ
  | 0 => r
  | n + 1 => round (junk n) (rounds junk r n)

/-! ### What a round can do -/

/-- The backward scan stops behind `k` exactly when there is a `<` there. -/
theorem lt_scanBack_iff {bytes : List UInt8} {n k : ℕ} :
    k < scanBack bytes n ↔ ∃ i, k < i ∧ i ≤ n ∧ bytes[i]? = some '<'.toUInt8 := by
  induction n with
  | zero =>
      rw [scanBack]
      refine ⟨?_, ?_⟩
      · intro h
        exact absurd h (Nat.not_lt_zero k)
      · intro h
        obtain ⟨i, hki, hi, -⟩ := h
        omega
  | succ n ih =>
      rw [scanBack]
      split
      · next hlast =>
        refine ⟨?_, ?_⟩
        · intro h
          exact ⟨n + 1, h, Nat.le_refl _, hlast⟩
        · intro h
          obtain ⟨i, hki, hi, -⟩ := h
          omega
      · next hlast =>
        rw [ih]
        refine ⟨?_, ?_⟩
        · intro h
          obtain ⟨i, hki, hi, hbyte⟩ := h
          exact ⟨i, hki, Nat.le_succ_of_le hi, hbyte⟩
        · intro h
          obtain ⟨i, hki, hi, hbyte⟩ := h
          have hne : i ≠ n + 1 := by
            rintro rfl
            exact hlast hbyte
          exact ⟨i, hki, by omega, hbyte⟩

/-- In the buffer. -/
theorem lt_scanBack_iff_mem {n k : ℕ} (s : Buffer (n + 1)) :
    k < scanBack s.bytes n ↔ '<'.toUInt8 ∈ s.bytes.drop (k + 1) := by
  rw [lt_scanBack_iff, List.mem_iff_getElem?]
  refine ⟨?_, ?_⟩
  · intro h
    obtain ⟨i, hki, -, hbyte⟩ := h
    exact ⟨i - (k + 1), by rwa [List.getElem?_drop, show k + 1 + (i - (k + 1)) = i by omega]⟩
  · intro h
    obtain ⟨j, hj⟩ := h
    rw [List.getElem?_drop] at hj
    have hlt := (List.getElem?_eq_some_iff.mp hj).1
    rw [s.size] at hlt
    exact ⟨k + 1 + j, by omega, by omega, hj⟩

section
variable {r r' : Reader τ} {junk : τ} {func : CString} {js : ℕ → τ} {n m : ℕ}

theorem round_outer (h : r.pc = .outer) : round junk r = readLineStep r := by
  rw [round, h]
  simp only [step, h]

theorem round_of_inner (h : r.pc = .inner func) : round junk r =
    if (step r).pc = .fault .uninitialised then takeSample r func junk else step r := by
  rw [round]
  split
  · next func' h' =>
    obtain rfl := Pc.inner.inj (h'.symm.trans h)
    rfl
  · next hne => exact absurd h (hne func)

/-- The reader is out of its loop, or its behaviour is not defined any more. -/
def Halted (r : Reader τ) : Prop := r.pc = .left ∨ ∃ f, r.pc = .fault f

theorem round_halted (h : Halted r) : round junk r = r := by
  rcases h with h | ⟨f, h⟩
  · rw [round, h]
    simp only [step, h]
  · rw [round, h]
    simp only [step, h]

/-- The time that is taken from the buffer, when the `<` is at byte `index`. -/
def timeAt (junk : τ) (s : Buffer 300) (index : ℕ) : τ :=
  (sscanfLf (cstring ((s.bytes.drop (index + 1)).take 8))).getD junk

/-- What `useRecord` does when the copy leaves the buffer, -/
theorem useRecord_out {index : ℕ} (hout : 300 < index + 9) :
    useRecord r func index = { r with pc := .fault .outOfBounds } := by
  unfold useRecord
  exact if_pos hout

/-- when there is no number in it, -/
theorem useRecord_none {index : ℕ} (hin : ¬ 300 < index + 9)
    (htime : (sscanfLf (cstring ((r.s.bytes.drop (index + 1)).take 8)) : Option τ) = none) :
    useRecord r func index = { r with pc := .fault .uninitialised } := by
  unfold useRecord
  rw [if_neg hin, htime]

/-- and when there is one. -/
theorem useRecord_some {index : ℕ} {time : τ} (hin : ¬ 300 < index + 9)
    (htime : sscanfLf (cstring ((r.s.bytes.drop (index + 1)).take 8)) = some time) :
    useRecord r func index = takeSample r func time := by
  unfold useRecord
  rw [if_neg hin, htime]
  rfl

/-- The buffer has a `<`: the sample is taken, unless the copy leaves the buffer. -/
theorem round_inner (h : r.pc = .inner func) (hpos : 0 < scanBack r.s.bytes 299) :
    round junk r =
      if 300 < scanBack r.s.bytes 299 + 9 then { r with pc := .fault .outOfBounds }
      else takeSample r func (timeAt junk r.s (scanBack r.s.bytes 299)) := by
  have hstep : step r = useRecord r func (scanBack r.s.bytes 299) := by
    simp only [step, h, scanStep, Nat.ne_of_gt hpos, if_false]
  rw [round_of_inner h, hstep]
  by_cases hout : 300 < scanBack r.s.bytes 299 + 9
  · rw [useRecord_out hout, if_neg (by simp), if_pos hout]
  · rw [if_neg hout, timeAt]
    cases htime : (sscanfLf (cstring ((r.s.bytes.drop (scanBack r.s.bytes 299 + 1)).take 8)) :
        Option τ) with
    | none => rw [useRecord_none hout htime, if_pos rfl, Option.getD_none]
    | some time =>
        rw [useRecord_some hout htime, (takeSample_spec r func time).1, if_neg (by simp),
          Option.getD_some]

/-- It has none: more is fetched, if there is more. -/
theorem round_fetch (h : r.pc = .inner func) (hzero : scanBack r.s.bytes 299 = 0) :
    round junk r =
      match fgets (Buffer.zero 300) r.stdin with
      | none => { r with s := Buffer.zero 300 }
      | some (s, stdin) => { r with s := s, stdin := stdin } := by
  have hstep : step r = match fgets (Buffer.zero 300) r.stdin with
      | none => { r with s := Buffer.zero 300 }
      | some (s, stdin) => { r with s := s, stdin := stdin } := by
    simp only [step, h, scanStep, hzero]
    rfl
  have hpc : r.pc ≠ .fault .uninitialised := by
    rw [h]
    simp
  rw [round_of_inner h, hstep]
  split
  · exact if_neg hpc
  · exact if_neg hpc

/-- Where the outer loop goes once a line is in the buffer. -/
def afterLine (s : Buffer 300) : Pc :=
  if ¬ (s.bytes.head?.any isLower) then
    .outer
  else
    match s.bytes.findIdx? (· = '('.toUInt8) with
    | none => .fault .outOfBounds
    | some index =>
        if cstring (s.bytes.take index) = exitGroup then .outer
        else .inner (cstring (s.bytes.take index))

/-- The outer loop reads a line, -/
theorem round_line (h : r.pc = .outer) (hne : r.stdin ≠ []) :
    ∃ s, s.bytes = (readLine 299 r.stdin).1 ++
        0 :: r.s.bytes.drop ((readLine 299 r.stdin).1.length + 1) ∧
      ∀ junk, round junk r =
        { r with s := s, stdin := (readLine 299 r.stdin).2, pc := afterLine s } := by
  obtain ⟨s, hs, hbytes⟩ := fgets_of_ne_nil r.s hne
  refine ⟨s, hbytes, fun junk => ?_⟩
  rw [round_outer h, readLineStep, hs, afterLine]
  dsimp only
  split
  · rw [h]
  · cases s.bytes.findIdx? (· = '('.toUInt8) with
    | none => rfl
    | some index =>
        dsimp only
        split
        · rw [h]
        · rfl

/-- or is left. -/
theorem round_eof (h : r.pc = .outer) (hnil : r.stdin = []) :
    round junk r = { r with pc := .left } := by
  rw [round_outer h, readLineStep, hnil, fgets_nil]

/-- The inner loop reads a line, -/
theorem round_more (h : r.pc = .inner func) (hzero : scanBack r.s.bytes 299 = 0)
    (hne : r.stdin ≠ []) :
    ∃ s, s.bytes = (readLine 299 r.stdin).1 ++
        0 :: (Buffer.zero 300).bytes.drop ((readLine 299 r.stdin).1.length + 1) ∧
      ∀ junk, round junk r = { r with s := s, stdin := (readLine 299 r.stdin).2 } := by
  obtain ⟨s, hs, hbytes⟩ := fgets_of_ne_nil (Buffer.zero 300) hne
  exact ⟨s, hbytes, fun junk => by rw [round_fetch h hzero, hs]⟩

/-- or goes round and round. -/
theorem round_stuck (h : r.pc = .inner func) (hzero : scanBack r.s.bytes 299 = 0)
    (hnil : r.stdin = []) : round junk r = { r with s := Buffer.zero 300 } := by
  rw [round_fetch h hzero, hnil, fgets_nil]

/-- Everything a round can do. -/
inductive Moved (junk : τ) (r : Reader τ) : Reader τ → Prop
  | halted (hend : Halted r) : Moved junk r r
  | eof (hpc : r.pc = .outer) (hnil : r.stdin = []) : Moved junk r { r with pc := .left }
  | line (s : Buffer 300) (hpc : r.pc = .outer) (hne : r.stdin ≠ [])
      (hs : s.bytes = (readLine 299 r.stdin).1 ++
        0 :: r.s.bytes.drop ((readLine 299 r.stdin).1.length + 1)) :
      Moved junk r { r with s := s, stdin := (readLine 299 r.stdin).2, pc := afterLine s }
  | stuck (func : CString) (hpc : r.pc = .inner func) (hzero : scanBack r.s.bytes 299 = 0)
      (hnil : r.stdin = []) : Moved junk r { r with s := Buffer.zero 300 }
  | more (func : CString) (s : Buffer 300) (hpc : r.pc = .inner func)
      (hzero : scanBack r.s.bytes 299 = 0) (hne : r.stdin ≠ []) :
      Moved junk r { r with s := s, stdin := (readLine 299 r.stdin).2 }
  | out (func : CString) (hpc : r.pc = .inner func)
      (hout : 300 < scanBack r.s.bytes 299 + 9) :
      Moved junk r { r with pc := .fault .outOfBounds }
  | sample (func : CString) (hpc : r.pc = .inner func)
      (hin : ¬ 300 < scanBack r.s.bytes 299 + 9) :
      Moved junk r (takeSample r func (timeAt junk r.s (scanBack r.s.bytes 299)))

theorem moved_round (junk : τ) (r : Reader τ) : Moved junk r (round junk r) := by
  cases hpc : r.pc with
  | left =>
      rw [round_halted (.inl hpc)]
      exact .halted (.inl hpc)
  | fault f =>
      rw [round_halted (.inr ⟨f, hpc⟩)]
      exact .halted (.inr ⟨f, hpc⟩)
  | outer =>
      by_cases hnil : r.stdin = []
      · rw [round_eof hpc hnil]
        exact .eof hpc hnil
      · obtain ⟨s, hs, hround⟩ := round_line hpc hnil
        rw [hround junk]
        exact .line s hpc hnil hs
  | inner func =>
      by_cases hzero : scanBack r.s.bytes 299 = 0
      · by_cases hnil : r.stdin = []
        · rw [round_stuck hpc hzero hnil]
          exact .stuck func hpc hzero hnil
        · obtain ⟨s, -, hround⟩ := round_more hpc hzero hnil
          rw [hround junk]
          exact .more func s hpc hzero hnil
      · rw [round_inner hpc (Nat.pos_of_ne_zero hzero)]
        split
        · next hout => exact .out func hpc hout
        · next hin => exact .sample func hpc hin

/-- What is left of the input after a line of it. -/
theorem readLine_shorter {input : List UInt8} (h : input ≠ []) :
    (readLine 299 input).2.length < input.length := by
  have happ := congrArg List.length (readLine_append 299 input)
  have hpos : 0 < (readLine 299 input).1.length := List.length_pos_iff.mpr (readLine_ne_nil h)
  rw [List.length_append] at happ
  omega

/-! ### Runs -/

theorem rounds_add (js : ℕ → τ) (r : Reader τ) (n m : ℕ) :
    rounds js r (n + m) = rounds (fun i => js (n + i)) (rounds js r n) m := by
  induction m with
  | zero => rfl
  | succ m ih =>
      show round (js (n + m)) (rounds js r (n + m)) = _
      rw [ih]
      rfl

theorem rounds_succ (js : ℕ → τ) (r : Reader τ) (n : ℕ) :
    rounds js r (n + 1) = rounds (fun i => js (i + 1)) (round (js 0) r) n := by
  rw [Nat.add_comm n 1, rounds_add]
  simp only [Nat.add_comm 1]
  rfl

/-- A run stays where it has ended. -/
theorem rounds_halted (h : Halted (rounds js r n)) (hle : n ≤ m) :
    rounds js r m = rounds js r n := by
  induction m with
  | zero =>
      obtain rfl := Nat.le_zero.mp hle
      rfl
  | succ m ih =>
      rcases Nat.lt_or_ge m n with hlt | hge
      · obtain rfl : n = m + 1 := by omega
        rfl
      · rw [rounds, ih hge, round_halted h]

end

end

/-! ### What is in the buffer -/

theorem scanBack_zero_iff (s : Buffer 300) :
    scanBack s.bytes 299 = 0 ↔ '<'.toUInt8 ∉ s.bytes.drop 1 := by
  rw [← not_iff_not, not_not]
  exact Nat.pos_iff_ne_zero.symm.trans (lt_scanBack_iff_mem s)

/-- A `<` in the buffer is in the line, if there is none in what is behind it. -/
theorem mem_drop_padded {line pad : List UInt8} {c : UInt8} (hpad : c ∉ pad) (k : ℕ) :
    c ∈ (line ++ pad).drop k ↔ c ∈ line.drop k := by
  rw [List.drop_append, List.mem_append]
  refine ⟨?_, ?_⟩
  · intro h
    rcases h with h | h
    · exact h
    · exact absurd (List.mem_of_mem_drop h) hpad
  · intro h
    exact .inl h

theorem notMem_zeros (k : ℕ) : '<'.toUInt8 ∉ 0 :: (Buffer.zero 300).bytes.drop k := by
  intro h
  rcases List.mem_cons.mp h with h | h
  · exact absurd h (by decide)
  · exact absurd (List.eq_of_mem_replicate (List.mem_of_mem_drop h)) (by decide)

/-- A line that does not begin with a lower-case letter is skipped. -/
theorem afterLine_other {s : Buffer 300} (h : s.bytes.head?.any isLower = false) :
    afterLine s = .outer := by
  rw [afterLine, if_pos (by rw [h]; decide)]

/-- One that does, and has no `(`, is searched past the end of the buffer. -/
theorem afterLine_fault_iff {s : Buffer 300} : afterLine s = .fault .outOfBounds ↔
    s.bytes.head?.any isLower = true ∧ '('.toUInt8 ∉ s.bytes := by
  have hnone : s.bytes.findIdx? (· = '('.toUInt8) = none ↔ '('.toUInt8 ∉ s.bytes := by
    rw [List.findIdx?_eq_none_iff]
    refine ⟨?_, ?_⟩
    · intro h hmem
      exact absurd (h _ hmem) (by simp)
    · intro h c hc
      refine decide_eq_false ?_
      rintro rfl
      exact h hc
  rw [afterLine, ← hnone]
  by_cases hhead : s.bytes.head?.any isLower = true
  · rw [if_neg (not_not.mpr hhead)]
    cases s.bytes.findIdx? (· = '('.toUInt8) with
    | none => simp [hhead]
    | some index =>
        dsimp only
        split
        · simp
        · simp
  · rw [if_pos hhead]
    simp [hhead]

/-- What `fgets` leaves in the buffer when these are the bytes it has read. -/
def Buffer.fill (s : Buffer 300) (w : List UInt8) : Buffer 300 :=
  s.store (w.take 299 ++ [0]) (by simp)

section
variable {s t : Buffer 300} {w : List UInt8}

theorem fill_bytes (hw : w.length ≤ 299) :
    (s.fill w).bytes = w ++ 0 :: s.bytes.drop (w.length + 1) := by
  have htake : w.take 299 = w := List.take_of_length_le hw
  simp [Buffer.fill, Buffer.store, htake]

theorem eq_fill (hw : w.length ≤ 299) (h : t.bytes = w ++ 0 :: s.bytes.drop (w.length + 1)) :
    t = s.fill w := by
  cases t with
  | mk bytes size =>
      obtain rfl : bytes = (s.fill w).bytes := h.trans (fill_bytes hw).symm
      rfl

end

end OsLabs.Sperf
