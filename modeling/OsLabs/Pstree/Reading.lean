import OsLabs.Pstree.Printing

/-!
# OsLabs.Pstree.Reading

The output of `tree/pstree_source_code.c`, read back. In the ASCII graph a process on the
level `k` has `2 * k` characters in front of the first dash, so the lines are an outline of
the forest with the pids for labels, as long as the window is wide enough for the graph
and the pid (`map_readLine_sketch`). The lines themselves can be told apart when no name and
no command has a newline in it (`outputLines_bytes`).
-/

namespace OsLabs.Pstree

/-- Read a number as `padded` writes it. -/
def readLong (s : Text) : Int :=
  match s with
  | '-' :: digits => -(Nat.ofDigitChars 10 digits 0 : Int)
  | digits => Nat.ofDigitChars 10 digits 0

/-- The level and the pid in a line. -/
def readLine (s : Text) : Nat × Int :=
  ((s.takeWhile (· ≠ '-')).length / 2,
    readLong (((s.dropWhile (· ≠ '-')).drop 4).takeWhile (· ≠ ' ')))

/-- What is put out. -/
def Ending.bytes : Ending → Text
  | .printed init lines => init ++ lines.flatMap (· ++ ['\n'])
  | _ => []

/-- The lines of the output. -/
def outputLines (s : Text) : List Text := (s.splitOn '\n').dropLast

/-- The forest of the pids in the output, and the lines that belong to none. -/
def readForest (s : Text) : Trees Int × List (Nat × Int) :=
  Trees.read (outputLines s).length 0 ((outputLines s).map readLine)

/-- A number that fits in a `long`. -/
def IsLong (n : Int) : Prop := -9223372036854775808 ≤ n ∧ n < 9223372036854775808

instance (n : Int) : Decidable (IsLong n) := inferInstanceAs (Decidable (_ ∧ _))

/-! ### Numbers -/

/-- The digits of `padded`, with the zeros in front of them. -/
theorem mem_filled {n w : Nat} {c : Char}
    (h : c ∈ List.replicate w '0' ++ Nat.toDigits 10 n) : c.isDigit := by
  rcases List.mem_append.mp h with h | h
  · rw [List.eq_of_mem_replicate h]
    decide
  · exact Nat.isDigit_of_mem_toDigits (by decide) (by decide) h

theorem ofDigitChars_filled {n w : Nat} :
    Nat.ofDigitChars 10 (List.replicate w '0' ++ Nat.toDigits 10 n) 0 = n := by
  rw [Nat.ofDigitChars_append, Nat.ofDigitChars_replicate_zero, Nat.mul_zero,
    Nat.ofDigitChars_ten_toDigits]

theorem readLong_of_digits {s : Text} (h : ∀ c ∈ s, c.isDigit) :
    readLong s = Nat.ofDigitChars 10 s 0 := by
  rw [readLong.eq_def]
  split
  · exact absurd (h '-' List.mem_cons_self) (by decide)
  · rfl

theorem readLong_padded {n : Int} : readLong (padded n) = n := by
  rw [padded]
  split
  · next hneg =>
    rw [readLong, ofDigitChars_filled]
    omega
  · next hpos =>
    rw [readLong_of_digits fun c => mem_filled, ofDigitChars_filled]
    omega

/-- A padded number is a sign and digits. -/
theorem not_mem_padded {n : Int} {c : Char} (hdigit : ¬ c.isDigit) (hminus : c ≠ '-') :
    c ∉ padded n := by
  intro h
  rw [padded] at h
  split at h
  · rcases List.mem_cons.mp h with h | h
    · exact hminus h
    · exact hdigit (mem_filled h)
  · exact hdigit (mem_filled h)

theorem length_padded {n : Int} (h : IsLong n) : (padded n).length ≤ 20 := by
  have hdigits : (Nat.toDigits 10 n.natAbs).length ≤ 19 :=
    (Nat.length_toDigits_le_iff (by decide) (by decide)).mpr (by unfold IsLong at h; omega)
  rw [padded]
  split <;> simp only [List.length_cons, List.length_append, List.length_replicate] <;> omega

/-! ### Lines -/

/-- What is in front of a process on the level `k`. -/
def IsHead (k : Nat) (head : Text) : Prop := head.length = 2 * k - 1 ∧ '-' ∉ head

theorem isHead_nil : IsHead 0 [] := ⟨rfl, List.not_mem_nil⟩

theorem IsHead.eq_nil_iff {k : Nat} {head : Text} (h : IsHead k head) : head = [] ↔ k = 0 := by
  rw [← List.length_eq_zero_iff, h.1]
  omega

/-- The head of the next level. -/
theorem IsHead.nhead {k : Nat} {head : Text} (sister : Bool) (h : IsHead k head)
    (hk : 2 * k + 1 < maxline) : IsHead (k + 1) (nhead (Graph.chars .ascii) head sister) := by
  obtain ⟨hlen, hmem⟩ := h
  by_cases hnil : head = []
  · subst hnil
    have hk : k = 0 := by
      rw [List.length_nil] at hlen
      omega
    subst hk
    exact ⟨rfl, by simp [Pstree.nhead, snprintf, maxline]⟩
  · have hpos := List.length_pos_iff.mpr hnil
    have htake : Pstree.nhead (Graph.chars .ascii) head sister =
        head ++ (if sister then ['|'] else [' ']) ++ [' '] := by
      rw [Pstree.nhead, if_neg hnil, snprintf, List.take_of_length_le]
      · rfl
      · cases sister <;> simp [Graph.chars] <;> omega
    rw [htake]
    constructor
    · cases sister <;> simp <;> omega
    · cases sister <;> simp [hmem]

section
variable {p : Proc} {head : Text} {sister child : Bool} {k cols : Nat}

/-- The line up to the blank behind the pid. -/
def front (p : Proc) (head : Text) (sister child : Bool) : Text :=
  head ++ (if head = [] then [] else if sister then ['|'] else ['\\']) ++
    ('-' :: (if child then '+' else '-') :: (if p.pid = p.pgid then '=' else '-') ::
      ' ' :: (padded p.pid ++ [' ']))

/-- The characters in front of the first dash. -/
theorem length_front (sister : Bool) (h : IsHead k head) :
    (head ++ if head = [] then [] else if sister then ['|'] else ['\\']).length = 2 * k := by
  by_cases hnil : head = []
  · simp [hnil, h.eq_nil_iff.mp hnil]
  · have hk : k ≠ 0 := fun hk => hnil (h.eq_nil_iff.mpr hk)
    rw [if_neg hnil, List.length_append, h.1]
    cases sister <;> simp <;> omega

theorem readLine_front {rest : Text} (h : IsHead k head) :
    readLine (front p head sister child ++ rest) = (k, p.pid) := by
  have hdash : ∀ c ∈ head ++ (if head = [] then [] else if sister then ['|'] else ['\\']),
      decide (c ≠ '-') = true := by
    intro c hc
    refine decide_eq_true fun heq => ?_
    subst heq
    rcases List.mem_append.mp hc with hc | hc
    · exact h.2 hc
    · split at hc
      · exact absurd hc List.not_mem_nil
      · split at hc <;> simp at hc
  have hblank : ∀ c ∈ padded p.pid, decide (c ≠ ' ') = true := by
    intro c hc
    refine decide_eq_true fun heq => ?_
    subst heq
    exact not_mem_padded (by decide) (by decide) hc
  have hlen := length_front sister h
  have hpid : readLong ((padded p.pid ++ ' ' :: rest).takeWhile (· ≠ ' ')) = p.pid := by
    rw [List.takeWhile_append_of_pos hblank, List.takeWhile_cons_of_neg (by simp),
      List.append_nil, readLong_padded]
  rw [front, List.append_assoc, readLine, List.takeWhile_append_of_pos hdash,
    List.dropWhile_append_of_pos hdash]
  refine Prod.ext ?_ ?_
  · rw [List.cons_append, List.takeWhile_cons_of_neg (by simp), List.append_nil, hlen]
    exact Nat.mul_div_cancel_left k (by decide)
  · rw [List.cons_append, List.dropWhile_cons_of_neg (by simp)]
    simpa using hpid

/-- A window that is wide enough does not cut that off. -/
theorem readLine_line (h : IsHead k head) (hcols : cols < maxline) (hwide : 2 * k + 26 ≤ cols)
    (hpid : IsLong p.pid) :
    readLine (p.line (Graph.chars .ascii) cols head sister child) = (k, p.pid) := by
  have htext : p.text (Graph.chars .ascii) head sister child =
      front p head sister child ++ (p.name ++ [' '] ++ p.thread ++ p.cmd) := by
    cases child <;> by_cases hg : p.pid = p.pgid <;>
      simp [Proc.text, front, Graph.chars, hg]
  have hlen : (front p head sister child).length ≤ cols - 1 := by
    have := length_front sister h
    have := length_padded hpid
    rw [front, List.length_append, length_front sister h]
    simp only [List.length_cons, List.length_append, List.length_nil]
    omega
  have hmax : cols - 1 ≤ 4 * maxline - 1 := by
    simp only [maxline] at hcols ⊢
    omega
  rw [Proc.line, snprintf, List.take_take, Nat.min_eq_left hmax, htext, List.take_append,
    List.take_of_length_le hlen]
  exact readLine_front h

end

/-- The lines of a forest are its outline. -/
theorem map_readLine_sketch {P : Table} (kids : Nat → List Nat) {cols k : Nat} {head : Text}
    {f : Trees Nat} (h : IsHead k head) (hcols : cols < maxline)
    (hwide : ∀ e ∈ f.outline k, 2 * e.1 + 26 ≤ cols ∧ IsLong (P.proc e.2).pid) :
    (sketch (Graph.chars .ascii) cols P kids head f).map readLine =
      (f.map fun i => (P.proc i).pid).outline k := by
  induction f generalizing k head with
  | nil => rfl
  | tree i below sisters ihb ihs =>
      obtain ⟨hk, hpid⟩ := hwide (k, i) List.mem_cons_self
      have hk : 2 * k + 26 ≤ cols := hk
      have hhead := h.nhead (decide (sisters ≠ .nil)) (by omega)
      have hbelow := ihb hhead fun e he =>
        hwide e (List.mem_cons_of_mem _ (List.mem_append_left _ he))
      have hsisters := ihs h fun e he =>
        hwide e (List.mem_cons_of_mem _ (List.mem_append_right _ he))
      rw [sketch, List.map_cons, List.map_append, hbelow, hsisters, readLine_line h hcols hk hpid]
      rfl

/-! ### Newlines -/

section
variable {p : Proc} {head : Text} {sister child : Bool} {cols : Nat}

theorem newline_not_mem_nhead (h : '\n' ∉ head) :
    '\n' ∉ nhead (Graph.chars .ascii) head sister := by
  intro hmem
  have hmem := List.mem_of_mem_take hmem
  simp only [List.mem_append, Graph.chars] at hmem
  rcases hmem with (hmem | hmem) | hmem
  · exact h hmem
  · split at hmem
    · exact absurd hmem List.not_mem_nil
    · cases sister <;> simp at hmem
  · simp at hmem

/-- The digits of a number, and the brackets around it. -/
theorem newline_not_mem_thread : '\n' ∉ p.thread := by
  rw [Proc.thread]
  split
  · intro h
    have h := List.mem_of_mem_take h
    simp only [List.mem_append, List.mem_singleton] at h
    rcases h with (h | h) | h
    · exact absurd h (by decide)
    · exact absurd (Nat.isDigit_of_mem_toDigits (by decide) (by decide) h) (by decide)
    · exact absurd h (by decide)
  · exact List.not_mem_nil

theorem newline_not_mem_line (h : '\n' ∉ head) (hname : '\n' ∉ p.name) (hcmd : '\n' ∉ p.cmd) :
    '\n' ∉ p.line (Graph.chars .ascii) cols head sister child := by
  intro hmem
  have hmem := List.mem_of_mem_take (List.mem_of_mem_take hmem)
  have hpid : '\n' ∉ padded p.pid := not_mem_padded (by decide) (by decide)
  have hthread : '\n' ∉ p.thread := newline_not_mem_thread
  have hbar : '\n' ∉ (if head = [] then [] else if sister then ['|'] else ['\\'] : Text) := by
    split
    · exact List.not_mem_nil
    · cases sister <;> decide
  rw [Proc.text] at hmem
  simp only [Graph.chars, List.mem_append, h, hpid, hthread, hname, hcmd, hbar,
    or_false] at hmem
  cases child <;> by_cases hg : p.pid = p.pgid <;> simp [hg] at hmem

end

theorem newline_not_mem_sketch {P : Table} (kids : Nat → List Nat) {cols : Nat} {head : Text}
    {f : Trees Nat} (h : '\n' ∉ head)
    (hproc : ∀ i, '\n' ∉ (P.proc i).name ∧ '\n' ∉ (P.proc i).cmd) :
    ∀ line ∈ sketch (Graph.chars .ascii) cols P kids head f, '\n' ∉ line := by
  induction f generalizing head with
  | nil => exact fun line hline => absurd hline List.not_mem_nil
  | tree i below sisters ihb ihs =>
      intro line hline
      rw [sketch, List.mem_cons, List.mem_append] at hline
      rcases hline with rfl | hline | hline
      · exact newline_not_mem_line h (hproc i).1 (hproc i).2
      · exact ihb (newline_not_mem_nhead h) line hline
      · exact ihs h line hline

/-- The lines are read back from the output. -/
theorem outputLines_bytes {lines : List Text} (h : ∀ line ∈ lines, '\n' ∉ line) :
    outputLines (Ending.printed [] lines).bytes = lines := by
  have hsplit : (lines.flatMap (· ++ ['\n'])).splitOn '\n' = lines ++ [[]] := by
    induction lines with
    | nil => rfl
    | cons line lines ih =>
        obtain ⟨hline, h⟩ := List.forall_mem_cons.mp h
        rw [List.flatMap_cons, List.append_assoc, List.singleton_append,
          List.splitOn_append_cons_self_of_not_mem hline, ih h, List.cons_append]
  rw [outputLines, Ending.bytes, List.nil_append, hsplit, List.dropLast_concat]

/-! ### The program -/

/-- `Columns` is less than `MAXLINE`. -/
theorem columns_lt {o : Options} {window : Nat} : columns o window < maxline := by
  rw [columns]
  simp only [maxline]
  split_ifs <;> omega

/-- The forest can be read back from what the program puts out in the ASCII graph, when the
window has 26 columns and two for each level, and no name and no command has a newline in it. -/
theorem read_main (o : Options) (window : Nat) (myPid : Int) (args : List Int) (l : List Entry)
    {rootPid : Int} {start : List Nat} (hroot : (Table.ofEntries l).getRootPid = some rootPid)
    (hstart : (Table.ofEntries l).starts rootPid args = some start)
    (hterm : Table.Terminates o myPid (Table.ofEntries l))
    (hascii : o.chars = Graph.chars .ascii) (hwide : 2 * o.maxLdepth + 26 ≤ columns o window)
    (hpid : ∀ e ∈ l, IsLong e.pid) (hlines : ∀ e ∈ l, '\n' ∉ e.name ∧ '\n' ∉ e.cmd) :
    ∃ r : Ending, Returns (fun fuel => (Table.ofEntries l).main o window myPid args fuel) r ∧
      readForest r.bytes = (((Table.ofEntries l).forest o myPid start).map
        fun i => ((Table.ofEntries l).proc i).pid, []) := by
  have hlong := Table.proc_ofEntries (Q := fun p => IsLong p.pid) (by decide) hpid
  have hproc := Table.proc_ofEntries (Q := fun p => '\n' ∉ p.name ∧ '\n' ∉ p.cmd) (by decide)
    hlines
  refine ⟨_, Table.main_returns Table.fresh_ofEntries hroot hstart hterm, ?_⟩
  have houter : ∀ e ∈ ((Table.ofEntries l).forest o myPid start).outline 0,
      2 * e.1 + 26 ≤ columns o window ∧ IsLong ((Table.ofEntries l).proc e.2).pid := by
    intro e he
    obtain ⟨m, j⟩ := e
    obtain ⟨k, hk, rfl, -⟩ := Trees.mem_outline_unfold.mp he
    exact ⟨by simp only; omega, hlong j⟩
  have houtline := map_readLine_sketch (Table.shown o myPid (Table.ofEntries l)) isHead_nil
    columns_lt houter
  have hnewline : ∀ line ∈ sketch (Graph.chars .ascii) (columns o window) (Table.ofEntries l)
      (Table.shown o myPid (Table.ofEntries l)) [] ((Table.ofEntries l).forest o myPid start),
      '\n' ∉ line := newline_not_mem_sketch _ List.not_mem_nil hproc
  have hinit : o.chars.init = [] := by rw [hascii]; rfl
  rw [hinit, hascii, readForest, outputLines_bytes hnewline, ← List.length_map (f := readLine),
    houtline]
  exact Trees.read_outline

theorem read_main_threeProcs :
    ∃ r : Ending,
      Returns (fun fuel => (Table.ofEntries threeProcs).main { wide := true } 0 21 [] fuel) r ∧
        readForest r.bytes = (((Table.ofEntries threeProcs).forest { wide := true } 21 [0]).map
          fun i => ((Table.ofEntries threeProcs).proc i).pid, []) :=
  read_main { wide := true } 0 21 [] threeProcs
    (show (Table.ofEntries threeProcs).getRootPid = some 1 by decide) (by decide) (.inl rfl) rfl
    (by decide) (by decide) (by decide)

end OsLabs.Pstree
