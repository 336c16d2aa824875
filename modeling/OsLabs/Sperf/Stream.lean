import OsLabs.Sperf.Rounds

/-!
# OsLabs.Sperf.Stream

The reader of `mycode/sperf.c` on any input at all: does its loop end, and does it stay
inside the buffer?

Both are questions about the pieces in which `fgets` delivers the input (`reads`), and about
what pieces that were skipped have left behind a later one in the buffer (`behind`). The
inner loop ignores the result of `fgets`: a record whose `<` never comes is a loop that never
ends. Neither of the scans looks at the length of the piece. `Parses` puts the pieces
together to records for which all of this goes well, and there is no other way to the end of
the loop (`reader_left_iff`), or to stay inside the buffer (`reader_inside_iff`).
-/

namespace OsLabs.Sperf

/-- The pieces in which `fgets` delivers the input. -/
def reads (input : List UInt8) : List (List UInt8) :=
  if input = [] then [] else (readLine 299 input).1 :: reads (readLine 299 input).2
termination_by input.length
decreasing_by exact readLine_shorter ‹_›

/-- What these pieces, the last one first, leave in a cleared buffer from byte `k` on. -/
def behind : List (List UInt8) → ℕ → List UInt8
  | [], _ => []
  | w :: ws, k => w.drop k ++ behind ws (max k (w.length + 1))

/-- The bytes before the first `(`. -/
def nameIn (w : List UInt8) : CString := w.takeWhile fun b => b ≠ '('.toUInt8 ∧ b ≠ 0

/-- The scan for the name finds its `(`. -/
def Named (old : List (List UInt8)) (w : List UInt8) : Prop :=
  w.head?.any isLower = true ∧ '('.toUInt8 ∈ behind (w :: old) 0

/-- The pieces `ws`, when the pieces `old`, the last one first, have been skipped just before:
skipped ones, and records whose `<` is in time. `cut` says whether the last record may be
without one. -/
inductive Parses (cut : Prop) : List (List UInt8) → List (List UInt8) → Prop
  | nil {old} : Parses cut old []
  | other {old w ws} (hother : w.head?.any isLower = false) (h : Parses cut (w :: old) ws) :
      Parses cut old (w :: ws)
  | exit {old w ws} (hnamed : Named old w) (hexit : nameIn w = exitGroup)
      (h : Parses cut (w :: old) ws) : Parses cut old (w :: ws)
  /-- A record in one piece. The `<` may be one that was left behind it. -/
  | record {old w ws} (hnamed : Named old w) (hname : nameIn w ≠ exitGroup)
      (hmark : '<'.toUInt8 ∈ behind (w :: old) 1) (hin : '<'.toUInt8 ∉ behind (w :: old) 292)
      (h : Parses cut [] ws) : Parses cut old (w :: ws)
  /-- A record in several pieces, of which the last has the first `<`. -/
  | long {old w more last ws} (hnamed : Named old w) (hname : nameIn w ≠ exitGroup)
      (hmark : '<'.toUInt8 ∉ behind (w :: old) 1) (hmore : ∀ v ∈ more, '<'.toUInt8 ∉ v.drop 1)
      (hlast : '<'.toUInt8 ∈ last.drop 1) (hin : '<'.toUInt8 ∉ last.drop 292)
      (h : Parses cut [] ws) : Parses cut old (w :: (more ++ last :: ws))
  /-- A record whose `<` does not come. -/
  | cut {old w ws} (hcut : cut) (hnamed : Named old w) (hname : nameIn w ≠ exitGroup)
      (hmark : '<'.toUInt8 ∉ behind (w :: old) 1) (hmore : ∀ v ∈ ws, '<'.toUInt8 ∉ v.drop 1) :
      Parses cut old (w :: ws)

/-- The buffer after these pieces, the last one first. -/
def leave (ws : List (List UInt8)) : Buffer 300 :=
  ws.foldr (fun w s => s.fill w) (Buffer.zero 300)

/-! ### Pieces -/

theorem reads_nil : reads [] = [] := by
  rw [reads, if_pos rfl]

theorem reads_of_ne_nil {input : List UInt8} (h : input ≠ []) :
    reads input = (readLine 299 input).1 :: reads (readLine 299 input).2 := by
  rw [reads, if_neg h]

/-- There is a piece as long as there is input. -/
theorem ne_nil_of_reads {input w : List UInt8} {ws : List (List UInt8)}
    (h : reads input = w :: ws) : input ≠ [] := by
  intro hnil
  subst hnil
  rw [reads_nil] at h
  exact absurd h (by simp)

theorem eq_of_reads {input w : List UInt8} {ws : List (List UInt8)} (h : reads input = w :: ws) :
    (readLine 299 input).1 = w ∧ reads (readLine 299 input).2 = ws := by
  rw [reads_of_ne_nil (ne_nil_of_reads h)] at h
  exact List.cons.inj h

theorem eq_nil_of_reads {input : List UInt8} (h : reads input = []) : input = [] := by
  by_contra hne
  rw [reads_of_ne_nil hne] at h
  exact absurd h (by simp)

/-- A line that fits is one piece. -/
theorem reads_line {line : List UInt8} (hne : line ≠ []) (h : (readLine 299 line).2 = []) :
    reads line = [line] := by
  have hall := readLine_append 299 line
  rw [h, List.append_nil] at hall
  rw [reads_of_ne_nil hne, h, reads_nil, hall]

/-- What is in the buffer is what the pieces have left there. -/
theorem mem_leave_drop {c : UInt8} (hc : c ≠ 0) {ws : List (List UInt8)}
    (hlen : ∀ w ∈ ws, w.length ≤ 299) (k : ℕ) :
    c ∈ (leave ws).bytes.drop k ↔ c ∈ behind ws k := by
  induction ws generalizing k with
  | nil =>
      refine iff_of_false (fun h => ?_) List.not_mem_nil
      exact hc (List.eq_of_mem_replicate (List.mem_of_mem_drop h))
  | cons w ws ih =>
      obtain ⟨hw, hws⟩ := List.forall_mem_cons.mp hlen
      have hbytes : (leave (w :: ws)).bytes = w ++ 0 :: (leave ws).bytes.drop (w.length + 1) :=
        fill_bytes hw
      rw [hbytes, behind, List.drop_append, List.mem_append, List.mem_append, ← ih hws]
      refine or_congr_right ?_
      -- the terminator, and what was there before
      rcases Nat.lt_or_ge w.length k with hlt | hge
      · obtain ⟨d, rfl⟩ := Nat.exists_eq_add_of_lt hlt
        have hd : w.length + d + 1 - w.length = d + 1 := by omega
        rw [hd, List.drop_succ_cons, List.drop_drop, max_eq_left (by omega),
          Nat.add_right_comm w.length 1 d]
      · rw [Nat.sub_eq_zero_of_le hge, List.drop_zero, List.mem_cons, or_iff_right hc,
          max_eq_right (by omega)]

section
variable {τ : Type} {r : Reader τ} {old ws : List (List UInt8)} {w : List UInt8} {s : Buffer 300}

/-! ### Where the reader stands -/

/-- At the head of the outer loop. -/
structure At (r : Reader τ) (old ws : List (List UInt8)) : Prop where
  pc : r.pc = .outer
  buffer : r.s = leave old
  stdin : reads r.stdin = ws
  short : ∀ w ∈ old, w.length ≤ 299

/-- In the inner loop. -/
structure Seeks (r : Reader τ) (s : Buffer 300) (ws : List (List UInt8)) : Prop where
  pc : ∃ func, r.pc = .inner func
  buffer : r.s = s
  stdin : reads r.stdin = ws

/-- In the inner loop, and there is no `<` to come. -/
def Starved (r : Reader τ) : Prop :=
  (∃ func, r.pc = .inner func) ∧ '<'.toUInt8 ∉ r.s.bytes.drop 1 ∧
    ∀ w ∈ reads r.stdin, '<'.toUInt8 ∉ w.drop 1

theorem At.mem_iff (h : At r old (w :: ws)) {c : UInt8} (hc : c ≠ 0) (k : ℕ) :
    c ∈ (leave (w :: old)).bytes.drop k ↔ c ∈ behind (w :: old) k := by
  obtain ⟨rfl, -⟩ := eq_of_reads h.stdin
  exact mem_leave_drop hc (List.forall_mem_cons.mpr ⟨readLine_length 299 r.stdin, h.short⟩) k

theorem Seeks.starved (h : Seeks r s ws) (hmark : '<'.toUInt8 ∉ s.bytes.drop 1)
    (hmore : ∀ v ∈ ws, '<'.toUInt8 ∉ v.drop 1) : Starved r := by
  obtain ⟨hpc, rfl, rfl⟩ := h
  exact ⟨hpc, hmark, hmore⟩

/-- At the beginning. -/
theorem at_init {τ : Type} [Zero τ] (stdin : List UInt8) :
    At (Reader.init stdin : Reader τ) [] (reads stdin) :=
  ⟨rfl, rfl, rfl, fun _ hw => absurd hw List.not_mem_nil⟩

/-! ### What a piece does -/

theorem takeWhile_stop {p : UInt8 → Bool} {c : UInt8} (hc : p c = false) {t : List UInt8} :
    (w ++ c :: t).takeWhile p = w.takeWhile p := by
  induction w with
  | nil => rw [List.nil_append, List.takeWhile_cons, hc, List.takeWhile_nil]; rfl
  | cons b w ih => rw [List.cons_append, List.takeWhile_cons, List.takeWhile_cons, ih]

/-- The scan for the name stops at the first `(`, and the copy of it at a NUL. -/
theorem afterLine_named (hw : w.length ≤ 299)
    (hhead : w.head?.any isLower = true) (hparen : '('.toUInt8 ∈ (s.fill w).bytes) :
    afterLine (s.fill w) = if nameIn w = exitGroup then .outer else .inner (nameIn w) := by
  have hlower : (s.fill w).bytes.head?.any isLower = true := by
    rw [fill_bytes hw]
    exact head_lower hhead
  have hlt : (s.fill w).bytes.findIdx (· = '('.toUInt8) < (s.fill w).bytes.length :=
    List.findIdx_lt_length_of_exists ⟨_, hparen, by simp⟩
  have hfind := List.findIdx?_eq_some_iff_findIdx_eq.mpr ⟨hlt, rfl⟩
  have hname : cstring ((s.fill w).bytes.take ((s.fill w).bytes.findIdx (· = '('.toUInt8))) =
      nameIn w := by
    have htake : (s.fill w).bytes.takeWhile (fun b => !decide (b = '('.toUInt8)) =
        (s.fill w).bytes.take ((s.fill w).bytes.findIdx (· = '('.toUInt8)) := by
      rw [List.takeWhile_eq_take_findIdx_not]
      simp only [Bool.not_not]
    rw [← htake, cstring, List.takeWhile_takeWhile, fill_bytes hw, takeWhile_stop (by simp), nameIn]
    congr 1
    funext b
    simp [and_comm]
  rw [afterLine, if_neg (not_not.mpr hlower), hfind]
  dsimp only
  rw [hname]

theorem At.named (h : At r old (w :: ws)) (hnamed : Named old w) :
    afterLine (leave (w :: old)) = if nameIn w = exitGroup then .outer else .inner (nameIn w) := by
  obtain ⟨hhead, hparen⟩ := hnamed
  rw [← h.mem_iff (by decide), List.drop_zero] at hparen
  obtain ⟨rfl, -⟩ := eq_of_reads h.stdin
  exact afterLine_named (readLine_length 299 r.stdin) hhead hparen

theorem Starved.not_halted (h : Starved r) : ¬ Halted r := by
  obtain ⟨⟨func, hpc⟩, -, -⟩ := h
  intro hend
  rcases hend with h | ⟨f, h⟩
  · exact absurd (hpc.symm.trans h) (by simp)
  · exact absurd (hpc.symm.trans h) (by simp)

variable [Add τ] [LT τ] [DecidableLT τ] [Scanf τ] {junk : τ}

/-- A piece is read onto what the skipped ones have left. -/
theorem At.round (h : At r old (w :: ws)) (junk : τ) :
    w.length ≤ 299 ∧ w ≠ [] ∧ Sperf.round junk r =
      { r with
        s := leave (w :: old)
        stdin := (readLine 299 r.stdin).2
        pc := afterLine (leave (w :: old)) } := by
  have hne := ne_nil_of_reads h.stdin
  obtain ⟨rfl, -⟩ := eq_of_reads h.stdin
  have hlen := readLine_length 299 r.stdin
  obtain ⟨s, hs, hround⟩ := round_line h.pc hne
  rw [h.buffer] at hs
  obtain rfl := eq_fill hlen hs
  exact ⟨hlen, readLine_ne_nil hne, hround junk⟩

/-- After it the reader is where `afterLine` says. -/
theorem At.round_outer (h : At r old (w :: ws)) (hafter : afterLine (leave (w :: old)) = .outer) :
    At (Sperf.round junk r) (w :: old) ws := by
  obtain ⟨hlen, -, hround⟩ := h.round junk
  rw [hround]
  exact ⟨hafter, rfl, (eq_of_reads h.stdin).2, List.forall_mem_cons.mpr ⟨hlen, h.short⟩⟩

theorem At.other (h : At r old (w :: ws)) (hother : w.head?.any isLower = false) :
    At (Sperf.round junk r) (w :: old) ws := by
  obtain ⟨hlen, hne, -⟩ := h.round junk
  refine h.round_outer (afterLine_other ?_)
  rw [leave, List.foldr_cons, fill_bytes hlen, List.head?_append_of_ne_nil _ hne]
  exact hother

theorem At.exit (h : At r old (w :: ws)) (hnamed : Named old w) (hexit : nameIn w = exitGroup) :
    At (Sperf.round junk r) (w :: old) ws :=
  h.round_outer ((h.named hnamed).trans (if_pos hexit))

theorem At.seeks (h : At r old (w :: ws)) (hnamed : Named old w) (hname : nameIn w ≠ exitGroup)
    (junk : τ) :
    Seeks (Sperf.round junk r) (leave (w :: old)) ws := by
  obtain ⟨-, -, hround⟩ := h.round junk
  rw [hround]
  exact ⟨⟨_, (h.named hnamed).trans (if_neg hname)⟩, rfl, (eq_of_reads h.stdin).2⟩

theorem At.out (h : At r old (w :: ws)) (hhead : w.head?.any isLower = true)
    (hparen : '('.toUInt8 ∉ behind (w :: old) 0) :
    (Sperf.round junk r).pc = .fault .outOfBounds := by
  obtain ⟨hlen, hne, hround⟩ := h.round junk
  rw [hround]
  refine afterLine_fault_iff.mpr ⟨?_, ?_⟩
  · rw [leave, List.foldr_cons, fill_bytes hlen]
    exact head_lower hhead
  · rwa [← h.mem_iff (by decide), List.drop_zero] at hparen

theorem At.eof (h : At r old []) : (Sperf.round junk r).pc = .left := by
  rw [round_eof h.pc (eq_nil_of_reads h.stdin)]

/-- The record is used, and the buffer cleared. -/
theorem Seeks.found (h : Seeks r s ws) (hmark : '<'.toUInt8 ∈ s.bytes.drop 1)
    (hin : '<'.toUInt8 ∉ s.bytes.drop 292) (junk : τ) : At (Sperf.round junk r) [] ws := by
  obtain ⟨⟨func, hpc⟩, rfl, hstdin⟩ := h
  rw [← lt_scanBack_iff_mem] at hmark hin
  rw [round_inner hpc hmark, if_neg (by omega)]
  obtain ⟨hpc', hstdin', hs, -⟩ :=
    takeSample_spec r func (timeAt junk r.s (scanBack r.s.bytes 299))
  refine ⟨hpc', hs, ?_, ?_⟩
  · rw [hstdin', hstdin]
  · exact fun w hw => absurd hw List.not_mem_nil

theorem Seeks.out (h : Seeks r s ws) (hin : '<'.toUInt8 ∈ s.bytes.drop 292) :
    (Sperf.round junk r).pc = .fault .outOfBounds := by
  obtain ⟨⟨func, hpc⟩, rfl, -⟩ := h
  rw [← lt_scanBack_iff_mem] at hin
  rw [round_inner hpc (by omega), if_pos (by omega)]

/-- The next piece is fetched. -/
theorem Seeks.more (h : Seeks r s (w :: ws)) (hmark : '<'.toUInt8 ∉ s.bytes.drop 1) (junk : τ) :
    w.length ≤ 299 ∧ Seeks (Sperf.round junk r) (leave [w]) ws := by
  obtain ⟨⟨func, hpc⟩, rfl, hstdin⟩ := h
  have hne := ne_nil_of_reads hstdin
  obtain ⟨rfl, hrest⟩ := eq_of_reads hstdin
  have hlen := readLine_length 299 r.stdin
  obtain ⟨s, hs, hround⟩ := round_more hpc ((scanBack_zero_iff r.s).mpr hmark) hne
  obtain rfl := eq_fill hlen hs
  rw [hround]
  exact ⟨hlen, ⟨func, hpc⟩, rfl, hrest⟩

/-- Who is starved stays so, -/
theorem Starved.round (h : Starved r) : Starved (Sperf.round junk r) := by
  obtain ⟨⟨func, hpc⟩, hbuf, hrest⟩ := h
  have hzero := (scanBack_zero_iff r.s).mpr hbuf
  by_cases hnil : r.stdin = []
  · rw [round_stuck hpc hzero hnil]
    exact ⟨⟨func, hpc⟩, fun h => notMem_zeros 1 (List.mem_cons_of_mem _ h), hrest⟩
  · obtain ⟨s, hs, hround⟩ := round_more hpc hzero hnil
    rw [reads_of_ne_nil hnil, List.forall_mem_cons] at hrest
    rw [hround junk]
    refine ⟨⟨func, hpc⟩, ?_, hrest.2⟩
    rw [hs, mem_drop_padded (notMem_zeros _)]
    exact hrest.1

/-! ### Runs -/

variable {js : ℕ → τ} {cut : Prop}

theorem Starved.run (h : Starved r) (js : ℕ → τ) (n : ℕ) : Starved (rounds js r n) := by
  induction n with
  | zero => exact h
  | succ n ih => exact ih.round

/-- and never halts. -/
theorem Starved.never_halts {n : ℕ} (h : Starved (rounds js r n)) (m : ℕ) :
    ¬ Halted (rounds js r m) := by
  intro hm
  have hend := rounds_halted hm (Nat.le_add_left m n)
  have hlater := h.run (fun i => js (n + i)) m
  rw [← rounds_add] at hlater
  exact hlater.not_halted (hend ▸ hm)

/-- A run has one end. -/
theorem not_left_of_fault {n : ℕ} {f : Fault} (hn : (rounds js r n).pc = .fault f) (m : ℕ) :
    (rounds js r m).pc ≠ .left := by
  intro hm
  have hsame := rounds_halted (.inr ⟨f, hn⟩) (Nat.le_max_left n m)
  rw [rounds_halted (.inl hm) (Nat.le_max_right n m)] at hsame
  rw [hsame, hn] at hm
  exact absurd hm (by simp)

/-- Pieces without a `<` are fetched one after the other. -/
theorem Seeks.fetch {more : List (List UInt8)} (h : Seeks r s (more ++ ws))
    (hmark : '<'.toUInt8 ∉ s.bytes.drop 1) (hmore : ∀ v ∈ more, '<'.toUInt8 ∉ v.drop 1)
    (js : ℕ → τ) :
    ∃ n s', Seeks (rounds js r n) s' ws ∧ '<'.toUInt8 ∉ s'.bytes.drop 1 := by
  induction more generalizing r s js with
  | nil => exact ⟨0, s, h, hmark⟩
  | cons v more ih =>
      obtain ⟨hv, hmore⟩ := List.forall_mem_cons.mp hmore
      obtain ⟨hlen, hseeks⟩ := h.more hmark (js 0)
      have hnone : '<'.toUInt8 ∉ (leave [v]).bytes.drop 1 := by
        rw [mem_leave_drop (by decide) (by simpa using hlen)]
        simpa [behind] using hv
      obtain ⟨n, s', hn, hs'⟩ := ih hseeks hnone hmore fun i => js (i + 1)
      exact ⟨n + 1, s', by rw [rounds_succ]; exact hn, hs'⟩

/-- A record in several pieces is fetched up to its `<`. -/
theorem At.fetch {more : List (List UInt8)} {last : List UInt8}
    (h : At r old (w :: (more ++ last :: ws))) (hnamed : Named old w)
    (hname : nameIn w ≠ exitGroup) (hmark : '<'.toUInt8 ∉ behind (w :: old) 1)
    (hmore : ∀ v ∈ more, '<'.toUInt8 ∉ v.drop 1) (js : ℕ → τ) :
    ∃ n, Seeks (rounds js r n) (leave [last]) ws ∧
      ∀ k, '<'.toUInt8 ∈ (leave [last]).bytes.drop k ↔ '<'.toUInt8 ∈ last.drop k := by
  have hseeks := h.seeks hnamed hname (js 0)
  rw [← h.mem_iff (by decide)] at hmark
  obtain ⟨n, s', hn, hs'⟩ := hseeks.fetch hmark hmore fun i => js (i + 1)
  obtain ⟨hlen, hlast⟩ := hn.more hs' (js (n + 1))
  refine ⟨n + 2, ?_, fun k => ?_⟩
  · rw [rounds, rounds_succ]
    exact hlast
  · rw [mem_leave_drop (by decide) (by simpa using hlen)]
    simp [behind]

/-- Input that is read like this leads to the end of the loop, or starves a record that was
cut off. -/
theorem Parses.run (h : Parses cut old ws) (hr : At r old ws) (js : ℕ → τ) :
    ∃ n, (rounds js r n).pc = .left ∨ cut ∧ Starved (rounds js r n) := by
  induction h generalizing r js with
  | nil => exact ⟨1, .inl hr.eof⟩
  | other hother _ ih =>
      obtain ⟨n, hn⟩ := ih (hr.other hother) fun i => js (i + 1)
      exact ⟨n + 1, by rwa [rounds_succ]⟩
  | exit hnamed hexit _ ih =>
      obtain ⟨n, hn⟩ := ih (hr.exit hnamed hexit) fun i => js (i + 1)
      exact ⟨n + 1, by rwa [rounds_succ]⟩
  | record hnamed hname hmark hin _ ih =>
      rw [← hr.mem_iff (by decide)] at hmark hin
      have hseeks := hr.seeks hnamed hname (js 0)
      obtain ⟨n, hn⟩ := ih (hseeks.found hmark hin (js 1)) fun i => js (i + 2)
      exact ⟨n + 2, by rwa [rounds_succ, rounds_succ]⟩
  | long hnamed hname hmark hmore hlast hin _ ih =>
      obtain ⟨k, hseeks, hmem⟩ := hr.fetch hnamed hname hmark hmore js
      rw [← hmem] at hlast hin
      obtain ⟨n, hn⟩ := ih (hseeks.found hlast hin (js k)) fun i => js (k + 1 + i)
      exact ⟨k + 1 + n, by rwa [rounds_add]⟩
  | cut hcut hnamed hname hmark hmore =>
      rw [← hr.mem_iff (by decide)] at hmark
      have hseeks := hr.seeks hnamed hname (js 0)
      exact ⟨1, .inr ⟨hcut, hseeks.starved hmark hmore⟩⟩

/-- The first piece with a `<`, if there is one. -/
theorem split_marked (ws : List (List UInt8)) : (∀ v ∈ ws, '<'.toUInt8 ∉ v.drop 1) ∨
    ∃ more last ws', ws = more ++ last :: ws' ∧ (∀ v ∈ more, '<'.toUInt8 ∉ v.drop 1) ∧
      '<'.toUInt8 ∈ last.drop 1 := by
  induction ws with
  | nil => exact .inl fun v hv => absurd hv List.not_mem_nil
  | cons w ws ih =>
      by_cases hmark : '<'.toUInt8 ∈ w.drop 1
      · exact .inr ⟨[], w, ws, rfl, fun v hv => absurd hv List.not_mem_nil, hmark⟩
      · rcases ih with hnone | ⟨more, last, ws', rfl, hmore, hlast⟩
        · exact .inl (List.forall_mem_cons.mpr ⟨hmark, hnone⟩)
        · exact .inr ⟨w :: more, last, ws', rfl, List.forall_mem_cons.mpr ⟨hmark, hmore⟩, hlast⟩

/-- A record need not be cut off. -/
theorem Parses.mono {cut' : Prop} (h : Parses cut old ws) (hcut : cut → cut') :
    Parses cut' old ws := by
  induction h with
  | nil => exact .nil
  | other hother _ ih => exact .other hother ih
  | exit hnamed hexit _ ih => exact .exit hnamed hexit ih
  | record hnamed hname hmark hin _ ih => exact .record hnamed hname hmark hin ih
  | long hnamed hname hmark hmore hlast hin _ ih =>
      exact .long hnamed hname hmark hmore hlast hin ih
  | cut h hnamed hname hmark hmore => exact .cut (hcut h) hnamed hname hmark hmore

/-- What becomes of a run: it leaves the buffer, or a record starves, or the input was read to its
end. -/
def Fate (js : ℕ → τ) (r : Reader τ) (old ws : List (List UInt8)) : Prop :=
  (∃ n, (rounds js r n).pc = .fault .outOfBounds) ∨
    (Parses True old ws ∧ ∃ n, Starved (rounds js r n)) ∨ Parses False old ws

/-- It is decided later. -/
theorem Fate.later {k : ℕ} {old' ws' : List (List UInt8)}
    (h : Fate (fun i => js (k + i)) (rounds js r k) old' ws')
    (hparses : ∀ cut, Parses cut old' ws' → Parses cut old ws) : Fate js r old ws := by
  rcases h with ⟨n, hn⟩ | ⟨hws, n, hn⟩ | hws
  · exact .inl ⟨k + n, by rwa [rounds_add]⟩
  · exact .inr (.inl ⟨hparses True hws, k + n, by rwa [rounds_add]⟩)
  · exact .inr (.inr (hparses False hws))

/-- A record. -/
theorem At.fate_record (hr : At r old (w :: ws)) (hnamed : Named old w)
    (hname : nameIn w ≠ exitGroup) (js : ℕ → τ)
    (hnext : ∀ (r' : Reader τ) (ws' : List (List UInt8)) (js' : ℕ → τ), At r' [] ws' →
      ws'.length ≤ ws.length → Fate js' r' [] ws') : Fate js r old (w :: ws) := by
  have hseeks := hr.seeks hnamed hname (js 0)
  have hbuf := hr.mem_iff (c := '<'.toUInt8) (by decide)
  by_cases hmark : '<'.toUInt8 ∈ behind (w :: old) 1
  · by_cases hin : '<'.toUInt8 ∈ behind (w :: old) 292
    · exact .inl ⟨2, hseeks.out ((hbuf 292).mpr hin)⟩
    · have hat := hseeks.found ((hbuf 1).mpr hmark) (mt (hbuf 292).mp hin) (js 1)
      exact Fate.later (k := 2) (hnext _ _ _ hat (Nat.le_refl _))
        fun cut => .record hnamed hname hmark hin
  · -- the `<` is looked for in the pieces that follow
    rcases split_marked ws with hmore | ⟨more, last, ws', rfl, hmore, hlast⟩
    · have hparses : Parses True old (w :: ws) := .cut trivial hnamed hname hmark hmore
      exact .inr (.inl ⟨hparses, 1, hseeks.starved (mt (hbuf 1).mp hmark) hmore⟩)
    · obtain ⟨k, hlater, hmem⟩ := hr.fetch hnamed hname hmark hmore js
      by_cases hin : '<'.toUInt8 ∈ last.drop 292
      · exact .inl ⟨k + 1, hlater.out ((hmem 292).mpr hin)⟩
      · have hat := hlater.found ((hmem 1).mpr hlast) (mt (hmem 292).mp hin) (js k)
        refine Fate.later (k := k + 1) (hnext _ _ _ hat ?_)
          fun cut => .long hnamed hname hmark hmore hlast hin
        rw [List.length_append, List.length_cons]
        omega

theorem At.fate (hr : At r old ws) (js : ℕ → τ) : Fate js r old ws := by
  induction hn : ws.length using Nat.strong_induction_on generalizing r old ws js with
  | _ n ih =>
    subst hn
    cases ws with
    | nil => exact .inr (.inr .nil)
    | cons w ws =>
        have hnext : ∀ (r' : Reader τ) (old' ws' : List (List UInt8)) (js' : ℕ → τ),
            At r' old' ws' → ws'.length ≤ ws.length → Fate js' r' old' ws' :=
          fun r' old' ws' js' h hle => ih _ (Nat.lt_succ_of_le hle) h js' rfl
        by_cases hother : w.head?.any isLower = false
        · have hat : At (Sperf.round (js 0) r) (w :: old) ws := hr.other hother
          exact Fate.later (k := 1) (hnext _ _ _ _ hat (Nat.le_refl _)) fun cut => .other hother
        · have hhead : w.head?.any isLower = true := by simpa using hother
          by_cases hparen : '('.toUInt8 ∈ behind (w :: old) 0
          · by_cases hexit : nameIn w = exitGroup
            · have hat : At (Sperf.round (js 0) r) (w :: old) ws := hr.exit ⟨hhead, hparen⟩ hexit
              exact Fate.later (k := 1) (hnext _ _ _ _ hat (Nat.le_refl _))
                fun cut => .exit ⟨hhead, hparen⟩ hexit
            · exact hr.fate_record ⟨hhead, hparen⟩ hexit js fun r' => hnext r' []
          · exact .inl ⟨1, hr.out hhead hparen⟩

end

/-- The reading loop is left, whatever `time` holds before each `sscanf`, exactly when the pieces
of the input can be put together to records that all have their `<` in time. -/
theorem reader_left_iff {τ : Type} [Zero τ] [Add τ] [LT τ] [DecidableLT τ] [Scanf τ]
    (junk : ℕ → τ) (stdin : List UInt8) :
    (∃ n, (rounds junk (Reader.init stdin) n).pc = .left) ↔ Parses False [] (reads stdin) := by
  have hat := at_init (τ := τ) stdin
  constructor
  · intro h
    obtain ⟨n, hn⟩ := h
    rcases hat.fate junk with ⟨m, hm⟩ | ⟨-, m, hm⟩ | hparses
    · exact (not_left_of_fault hm n hn).elim
    · exact absurd (.inl hn) (hm.never_halts n)
    · exact hparses
  · intro h
    obtain ⟨n, hn⟩ := h.run hat junk
    exact ⟨n, hn.resolve_right fun hcut => hcut.1⟩

/-- A record that is cut off behind its `(`. -/
theorem not_reader_left : ¬ ∀ (junk : ℕ → ℚ) (stdin : List UInt8),
    ∃ n, (rounds junk (Reader.init stdin) n).pc = .left := by
  intro h
  obtain ⟨n, hn⟩ := h (fun _ => 0) ("a(\n".toList.map Char.toUInt8)
  have hat : At (Reader.init ("a(\n".toList.map Char.toUInt8) : Reader ℚ) []
      ["a(\n".toList.map Char.toUInt8] := by
    have hinit : At (Reader.init ("a(\n".toList.map Char.toUInt8) : Reader ℚ) [] _ := at_init _
    rwa [reads_line (by decide) (by decide)] at hinit
  have hseeks := hat.seeks ⟨by decide, by decide⟩ (by decide) 0
  have hstarved : Starved (rounds (fun _ => 0)
      (Reader.init ("a(\n".toList.map Char.toUInt8) : Reader ℚ) 1) := by
    refine hseeks.starved ?_ fun v hv => absurd hv List.not_mem_nil
    rw [hat.mem_iff (by decide)]
    decide
  exact hstarved.never_halts n (.inl hn)

/-- No access leaves the buffer, in the whole run, exactly when the pieces of the input can be put
together to records that have their `<` in time, but for one that is cut off at the end. -/
theorem reader_inside_iff {τ : Type} [Zero τ] [Add τ] [LT τ] [DecidableLT τ] [Scanf τ]
    (junk : ℕ → τ) (stdin : List UInt8) :
    (∀ n, (rounds junk (Reader.init stdin) n).pc ≠ .fault .outOfBounds) ↔
      Parses True [] (reads stdin) := by
  have hat := at_init (τ := τ) stdin
  constructor
  · intro h
    rcases hat.fate junk with ⟨m, hm⟩ | ⟨hparses, -⟩ | hparses
    · exact absurd hm (h m)
    · exact hparses
    · exact hparses.mono False.elim
  · intro h m hm
    obtain ⟨n, hn | ⟨-, hn⟩⟩ := h.run hat junk
    · exact not_left_of_fault hm n hn
    · exact hn.never_halts m (.inr ⟨_, hm⟩)

/-- A line of the traced program itself, without a `(`. -/
theorem not_reader_inside :
    ¬ ∀ (junk : ℕ → ℚ) (stdin : List UInt8) (n : ℕ),
      (rounds junk (Reader.init stdin) n).pc ≠ .fault .outOfBounds := by
  intro h
  have hat : At (Reader.init ("abc\n".toList.map Char.toUInt8) : Reader ℚ) []
      ["abc\n".toList.map Char.toUInt8] := by
    have hinit : At (Reader.init ("abc\n".toList.map Char.toUInt8) : Reader ℚ) [] _ := at_init _
    rwa [reads_line (by decide) (by decide)] at hinit
  exact h (fun _ => 0) _ 1 (hat.out (by decide) (by decide))

end OsLabs.Sperf
