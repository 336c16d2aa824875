import OsLabs.CString
import OsLabs.MultiThreads.Brac

/-!
# OsLabs.MultiThreads.BracBuffers

The arrays of `multi-threads/brac.c`: does everything that is written fit?

`OsLabs.MultiThreads.Brac` keeps `buff` as a string; here it is the array of 5
characters, and `test_producer` builds the string it looks for in an array of 5 of its
own. A section that leaves an array has no result, and no step; otherwise it does what
the section over strings does (`refines`), so that what is known of those runs holds of
these. `brac_after` always fits. `brac_before` evaluates `test_producer` before
`count == 4`, and when `buff` is full the longer string does not fit
(`brac_writes_fit_iff`).
-/

namespace OsLabs.MultiThreads.Brac

open OsLabs.Monitor

/-- The NUL character. -/
def nul : Char := '\x00'

/-- The globals, with `buff` as the array it is. -/
structure Memory where
  buff : List Char
  count : Int
  quota : Int
  deriving DecidableEq, Repr

/-- What `test_producer` builds in `tmp`. -/
def producerText (ch : Char) (buff : List Char) : Option (List Char) :=
  match CString.strcpy nul (List.replicate 5 nul) buff with
  | none => none
  | some tmp => CString.strcat nul tmp [ch, nul]

/-- `test_producer`: the loop over the rest of `states`. -/
def producerLoop (ch : Char) (buff : List Char) : List (List Char) → Option Bool
  | [] => some false
  | state :: rest =>
      match producerText ch buff with
      | none => none
      | some tmp => if CString.text nul tmp = state then some true else producerLoop ch buff rest

/-- `test_consumer`. -/
def consumerTest (ch : Char) (buff : List Char) : Option Bool :=
  match CString.strlen nul buff with
  | none => none
  | some len =>
      if len < 1 then
        some false
      else
        let bitNum := (CString.text nul (buff.take 4)).length - 1
        some ((buff[bitNum]? = some '(' && ch = ')') || (buff[bitNum]? = some '[' && ch = ']'))

/-- One evaluation of the loops of `brac_before`, if it stays inside the arrays. -/
def memoryBefore (ch : Char) (m : Memory) : Option (Entry Memory Cv) :=
  if ch = '[' ∨ ch = '(' then
    match producerLoop ch m.buff states with
    | none => none
    | some test =>
        if test = false ∨ m.quota ≠ 1 ∨ m.count = 4 then some (.sleep .empty)
        else some (.pass { m with quota := m.quota - 1 })
  else if ch = ')' ∨ ch = ']' then
    match consumerTest ch m.buff with
    | none => none
    | some test =>
        if test = false ∨ m.quota ≠ 1 ∨ m.count = 0 then some (.sleep .fill)
        else some (.pass { m with quota := m.quota - 1 })
  else
    some (.pass m)

/-- `brac_after`, if it stays inside the arrays. -/
def memoryAfter (ch : Char) (m : Memory) : Option (Memory × Option Cv) :=
  if ch = '[' ∨ ch = '(' then
    match CString.strcat nul m.buff [ch, nul] with
    | none => none
    | some buff => some ({ buff, count := m.count + 1, quota := m.quota + 1 }, some .fill)
  else if ch = ')' ∨ ch = ']' then
    match CString.strlen nul m.buff with
    | none | some 0 => none
    | some (last + 1) =>
        match CString.write m.buff last [nul] with
        | none => none
        | some buff => some ({ buff, count := m.count - 1, quota := m.quota + 1 }, some .empty)
  else
    some (m, none)

/-- The monitor over arrays; a run ends where a section leaves them. -/
def memoryProtocol : Protocol Memory Char Cv where
  init := { buff := List.replicate 5 nul, count := 0, quota := 1 }
  before ch m := (memoryBefore ch m).getD .assertFailed
  after ch m := (memoryAfter ch m).getD (m, none)

/-- The array holds the string. -/
structure Represents (m : Memory) (sh : Shared) : Prop where
  buff : CString.Holds nul m.buff 5 sh.buff
  count : m.count = sh.count
  quota : m.quota = sh.quota

/-! ### The sections -/

section
variable {m : Memory} {sh : Shared} {ch : Char}

theorem holds_bit (hch : ch ∈ brackets) : CString.Holds nul [ch, nul] 2 [ch] := by
  refine ⟨rfl, ?_, [], rfl⟩
  rw [List.mem_singleton]
  rintro rfl
  exact absurd hch (by decide)

/-- `tmp` holds the longer string, if there is room for it, -/
theorem producerText_of_lt (h : CString.Holds nul m.buff 5 sh.buff) (hch : ch ∈ brackets)
    (hlt : sh.buff.length < 4) :
    ∃ tmp, producerText ch m.buff = some tmp ∧ CString.text nul tmp = sh.buff ++ [ch] := by
  obtain ⟨tmp, hcpy, htmp⟩ := (CString.holds_replicate nul 4).strcpy h h.length_lt
  obtain ⟨tmp', hcat, htmp'⟩ := htmp.strcat (holds_bit hch) (by simp; omega)
  exact ⟨tmp', by rw [producerText, hcpy]; exact hcat, htmp'.text⟩

/-- and is left otherwise. -/
theorem producerText_of_full (h : CString.Holds nul m.buff 5 sh.buff) (hch : ch ∈ brackets)
    (hfull : sh.buff.length = 4) : producerText ch m.buff = none := by
  obtain ⟨tmp, hcpy, htmp⟩ := (CString.holds_replicate nul 4).strcpy h h.length_lt
  rw [producerText, hcpy]
  exact htmp.strcat_eq_none (holds_bit hch) (by simp [hfull])

theorem producerLoop_eq {tmp : List Char} (h : producerText ch m.buff = some tmp)
    (table : List (List Char)) :
    producerLoop ch m.buff table = some (table.any fun state => CString.text nul tmp = state) := by
  induction table with
  | nil => rfl
  | cons state rest ih =>
      rw [producerLoop, h]
      dsimp only
      split
      · next heq => simp [heq]
      · next hne => simp [hne, ih]

/-- `test_producer` is the test over strings. -/
theorem producerLoop_of_lt (h : CString.Holds nul m.buff 5 sh.buff) (hch : ch ∈ brackets)
    (hlt : sh.buff.length < 4) :
    producerLoop ch m.buff states = some (testProducer ch sh) := by
  obtain ⟨tmp, htmp, htext⟩ := producerText_of_lt h hch hlt
  rw [producerLoop_eq htmp, testProducer, bit_of_mem hch, htext]

/-- So is `test_consumer`. -/
theorem consumerTest_eq (h : CString.Holds nul m.buff 5 sh.buff) :
    consumerTest ch m.buff = some (testConsumer ch sh) := by
  rw [consumerTest, h.strlen, testConsumer]
  dsimp only
  split
  · rfl
  · next hlen =>
    have hbit : min sh.buff.length 4 - 1 < sh.buff.length := by omega
    rw [h.text_take, List.length_take, Nat.min_comm, h.getElem? hbit]

/-- `brac_before` is left for an opener that finds `buff` full. -/
theorem memoryBefore_of_full (h : Represents m sh) (hch : ch ∈ brackets)
    (hopen : isOpen ch = true) (hfull : sh.buff.length = 4) : memoryBefore ch m = none := by
  have hloop : producerLoop ch m.buff states = none := by
    rw [states, producerLoop, producerText_of_full h.buff hch hfull]
  rw [memoryBefore, if_pos (isOpen_iff.mp hopen), hloop]

/-- Otherwise it does what the section over strings does. -/
theorem memoryBefore_of_lt (h : Represents m sh) (hch : ch ∈ brackets)
    (hlt : isOpen ch = true → sh.buff.length < 4) :
    memoryBefore ch m = some (match bracBefore ch sh with
      | .pass sh' => .pass { m with quota := sh'.quota }
      | .sleep cv => .sleep cv
      | .assertFailed => .assertFailed) := by
  unfold memoryBefore bracBefore
  by_cases hopen : isOpen ch = true
  · have hch' := isOpen_iff.mp hopen
    rw [if_pos hch', if_pos hch', producerLoop_of_lt h.buff hch (hlt hopen)]
    dsimp only
    rw [h.quota, h.count]
    split
    · rfl
    · rfl
  · have hfalse : isOpen ch = false := by simpa using hopen
    have hch' := closer_of_mem hch hfalse
    rw [if_neg (not_open hfalse), if_neg (not_open hfalse), if_pos hch', if_pos hch',
      consumerTest_eq h.buff]
    dsimp only
    rw [h.quota, h.count]
    split
    · rfl
    · rfl

/-- `brac_before` changes the quota only. -/
theorem shared_of_pass {sh' : Shared} (h : bracBefore ch sh = .pass sh') :
    sh'.buff = sh.buff ∧ sh'.count = sh.count := by
  unfold bracBefore at h
  split at h
  · split at h
    · exact absurd h (by simp)
    · obtain rfl := Entry.pass.inj h
      exact ⟨rfl, rfl⟩
  · split at h
    · split at h
      · exact absurd h (by simp)
      · obtain rfl := Entry.pass.inj h
        exact ⟨rfl, rfl⟩
    · obtain rfl := Entry.pass.inj h
      exact ⟨rfl, rfl⟩

/-- A section that comes to a result does what the section over strings does. -/
theorem memoryBefore_eq {e : Entry Memory Cv} (h : Represents m sh) (hch : ch ∈ brackets)
    (he : memoryBefore ch m = some e) : e = match bracBefore ch sh with
      | .pass sh' => .pass { m with quota := sh'.quota }
      | .sleep cv => .sleep cv
      | .assertFailed => .assertFailed := by
  have hlt : isOpen ch = true → sh.buff.length < 4 := by
    intro hopen
    have hle := h.buff.length_lt
    by_contra hge
    rw [memoryBefore_of_full h hch hopen (by omega)] at he
    exact absurd he (by simp)
  exact Option.some.inj (he.symm.trans (memoryBefore_of_lt h hch hlt))

/-- A bracket that goes fits. -/
theorem memoryAfter_of_goes {b' : List Char} (h : Represents m sh) (hch : ch ∈ brackets)
    (hgo : Goes sh.buff ch b') :
    ∃ m', memoryAfter ch m = some (m', (bracAfter ch sh).2) ∧
      Represents m' (bracAfter ch sh).1 := by
  unfold memoryAfter bracAfter
  cases hgo with
  | push hopen hmem =>
      have hch' := isOpen_iff.mp hopen
      have hlen := Valid.length_le (.inr hmem)
      rw [List.length_append, List.length_singleton] at hlen
      obtain ⟨buff, hcat, hbuff⟩ := h.buff.strcat (holds_bit hch) (by simp; omega)
      rw [if_pos hch', if_pos hch', hcat, bit_of_mem hch]
      exact ⟨_, rfl, hbuff, by rw [h.count], by rw [h.quota]⟩
  | @pop o _ hb hopen =>
      obtain ⟨hnot, hch'⟩ := close_cases o
      have hb' : CString.Holds nul m.buff 5 (b' ++ [o]) := hb ▸ h.buff
      obtain ⟨buff, hclear, hbuff⟩ := hb'.clear
      rw [if_neg (not_open hnot), if_neg (not_open hnot), if_pos hch', if_pos hch', hb'.strlen,
        List.length_append, List.length_singleton]
      dsimp only
      rw [hclear]
      refine ⟨_, rfl, ?_, by rw [h.count], by rw [h.quota]⟩
      rw [hb, List.dropLast_concat]
      exact hbuff

end

/-! ### The runs -/

/-- A step of `brac_before` is a result it has come to. -/
theorem memoryBefore_of_before {ch : Char} {m : Memory} {e : Entry Memory Cv}
    (h : memoryProtocol.before ch m = e) (hne : e ≠ .assertFailed) :
    memoryBefore ch m = some e := by
  have h' : (memoryBefore ch m).getD .assertFailed = e := h
  cases hm : memoryBefore ch m with
  | none =>
      rw [hm] at h'
      exact absurd h'.symm hne
  | some e' =>
      rw [hm] at h'
      rw [← h', Option.getD_some]

/-- The run over arrays, as long as it lasts, is a run over strings. -/
theorem refines (played : Char → Prop) :
    Refines memoryProtocol protocol (fun ch => ch ∈ brackets ∧ played ch) (Done played)
      Represents where
  init := ⟨CString.holds_replicate nul 4, rfl, rfl⟩
  pass := by
    intro ch m m' sh hok hrel hpass
    have he : memoryBefore ch m = some (.pass m') := memoryBefore_of_before hpass (by simp)
    have heq := memoryBefore_eq hrel hok.1 he
    split at heq
    · next sh' hsh =>
      obtain ⟨hbuff, hcount⟩ := shared_of_pass hsh
      obtain rfl := Entry.pass.inj heq
      exact ⟨sh', hsh, hbuff ▸ hrel.buff, hrel.count.trans hcount.symm, rfl⟩
    · exact absurd heq (by simp)
    · exact absurd heq (by simp)
  sleep := by
    intro ch m sh cv hok hrel hsleep
    have he : memoryBefore ch m = some (.sleep cv) := memoryBefore_of_before hsleep (by simp)
    have heq := memoryBefore_eq hrel hok.1 he
    split at heq
    · exact absurd heq (by simp)
    · next cv' hcv =>
      obtain rfl := Entry.sleep.inj heq
      exact hcv
    · exact absurd heq (by simp)
  after := by
    intro ch m sh out hok hrel hdone
    obtain ⟨-, -, ⟨b', hgo⟩, -⟩ := hdone
    obtain ⟨m', hafter, hrel'⟩ := memoryAfter_of_goes hrel hok.1 hgo
    have hsome : memoryProtocol.after ch m = (m', (bracAfter ch sh).2) := by
      show (memoryAfter ch m).getD (m, none) = _
      rw [hafter, Option.getD_some]
    rw [hsome]
    exact ⟨hrel', rfl⟩

/-- The section the thread is about to run stays inside the arrays. -/
def WritesFit (ch : Char) (phase : Phase Cv) (m : Memory) : Prop :=
  match phase with
  | .testing => (memoryBefore ch m).isSome
  | .printed => (memoryAfter ch m).isSome
  | _ => True

/-- An opener is about to look whether it fits into a `buff` that is full. -/
def TestsFull (ch : Char) (phase : Phase Cv) (m : Memory) : Prop :=
  phase = .testing ∧ isOpen ch = true ∧ CString.strlen nul m.buff = some 4

section
variable {Tid : Type*} [DecidableEq Tid] {role : Tid → Char} {c : Config Tid Memory Char Cv}

/-- The run over strings beside the run over arrays. -/
theorem exists_represents (hroles : ∀ t, role t ∈ brackets)
    (h : (system memoryProtocol role).Reachable c) : ∃ sh, Represents c.shared sh ∧
      (system protocol role).Reachable { shared := sh, phase := c.phase, out := c.out } :=
  (refines fun ch => ∃ t, role t = ch).reachable (discipline _)
    (fun t => ⟨hroles t, t, rfl⟩) h

theorem writesFit_iff (hroles : ∀ t, role t ∈ brackets)
    (h : (system memoryProtocol role).Reachable c) (t : Tid) :
    WritesFit (role t) (c.phase t) c.shared ↔ ¬ TestsFull (role t) (c.phase t) c.shared := by
  obtain ⟨sh, hrel, hr⟩ := exists_represents hroles h
  have hlen := hrel.buff.length_lt
  cases hph : c.phase t with
  | testing =>
      simp only [WritesFit, TestsFull, true_and, hrel.buff.strlen, Option.some.injEq]
      by_cases hfull : isOpen (role t) = true ∧ sh.buff.length = 4
      · rw [memoryBefore_of_full hrel (hroles t) hfull.1 hfull.2]
        simp [hfull]
      · have hlt : isOpen (role t) = true → sh.buff.length < 4 := by
          intro hopen
          have hne : sh.buff.length ≠ 4 := fun heq => hfull ⟨hopen, heq⟩
          omega
        rw [memoryBefore_of_lt hrel (hroles t) hlt]
        simpa using fun hopen => Nat.ne_of_lt (hlt hopen)
  | asleep cv => simp [WritesFit, TestsFull]
  | entered => simp [WritesFit, TestsFull]
  | printed =>
      obtain ⟨⟨-, -, ⟨b', hgo⟩, -⟩, -⟩ := (owned hroles hr).of_printed hph
      obtain ⟨m', hafter, -⟩ := memoryAfter_of_goes hrel (hroles t) hgo
      simp [WritesFit, TestsFull, hafter]

/-- The globals after `k` rounds of one opener. -/
def filled (ch : Char) (k : Nat) : Memory where
  buff := List.replicate k ch ++ List.replicate (5 - k) nul
  count := k
  quota := 1

theorem filled_succ {ch : Char} (hch : ch = '[' ∨ ch = '(') {k : Nat} (hk : k < 4) :
    ∃ m, memoryProtocol.before ch (filled ch k) = .pass m ∧
      (memoryProtocol.after ch m).1 = filled ch (k + 1) := by
  rcases hch with rfl | rfl
  · rcases k with _ | _ | _ | _ | k
    · exact ⟨_, rfl, rfl⟩
    · exact ⟨_, rfl, rfl⟩
    · exact ⟨_, rfl, rfl⟩
    · exact ⟨_, rfl, rfl⟩
    · exact absurd hk (by omega)
  · rcases k with _ | _ | _ | _ | k
    · exact ⟨_, rfl, rfl⟩
    · exact ⟨_, rfl, rfl⟩
    · exact ⟨_, rfl, rfl⟩
    · exact ⟨_, rfl, rfl⟩
    · exact absurd hk (by omega)

/-- One opener alone can fill `buff`, and is then about to look whether it fits. -/
theorem exists_filled {t : Tid} (hopen : isOpen (role t) = true) {k : Nat} (hk : k ≤ 4) :
    ∃ c, (system memoryProtocol role).Reachable c ∧ c.phase t = .testing ∧
      c.shared = filled (role t) k := by
  induction k with
  | zero => exact ⟨Config.init memoryProtocol, .init rfl, rfl, rfl⟩
  | succ k ih =>
      obtain ⟨c, hr, hph, hsh⟩ := ih (Nat.le_of_succ_le hk)
      obtain ⟨m, hpass, hafter⟩ := filled_succ (isOpen_iff.mp hopen) hk
      obtain ⟨c', hr', hph', hsh'⟩ := exists_loop hr hph (hsh ▸ hpass)
      exact ⟨c', hr', hph', hsh'.trans hafter⟩

/-- In every run, a section stays inside the arrays exactly when it is not that of an
opener that tests a full `buff`; and all sections of all runs do exactly when nobody
plays an opener. -/
theorem brac_writes_fit_iff (hroles : ∀ t, role t ∈ brackets) :
    (∀ c, (system memoryProtocol role).Reachable c → ∀ t,
      (WritesFit (role t) (c.phase t) c.shared ↔ ¬ TestsFull (role t) (c.phase t) c.shared)) ∧
    ((∀ c, (system memoryProtocol role).Reachable c → ∀ t,
      WritesFit (role t) (c.phase t) c.shared) ↔ ∀ t, isOpen (role t) = false) := by
  refine ⟨fun c h t => writesFit_iff hroles h t, ?_⟩
  refine ⟨?_, ?_⟩
  · intro h t
    by_contra hopen
    have hopen : isOpen (role t) = true := by simpa using hopen
    obtain ⟨c, hr, hph, hsh⟩ := exists_filled hopen (Nat.le_refl 4)
    refine (writesFit_iff hroles hr t).mp (h c hr t) ⟨hph, hopen, ?_⟩
    rw [hsh]
    rcases isOpen_iff.mp hopen with hch | hch
    · rw [hch]
      decide
    · rw [hch]
      decide
  · intro hclose c hr t
    refine (writesFit_iff hroles hr t).mpr fun htests => ?_
    have hopen := htests.2.1
    rw [hclose t] at hopen
    exact absurd hopen (by simp)

end

theorem brac_writes_fit_iff_quartet :
    ¬ ∀ c, (system memoryProtocol quartet).Reachable c → ∀ t,
      WritesFit (quartet t) (c.phase t) c.shared := by
  have hroles : ∀ t, quartet t ∈ brackets := by decide
  intro h
  exact absurd ((brac_writes_fit_iff hroles).2.mp h 0) (by decide)

/-- A thread that plays `(` alone, after four rounds. -/
theorem not_brac_writes_fit :
    ¬ ∀ (role : Unit → Char), (∀ t, role t ∈ brackets) →
      ∀ c, (system memoryProtocol role).Reachable c → ∀ t,
        WritesFit (role t) (c.phase t) c.shared := by
  intro h
  obtain ⟨c, hc, hend⟩ : ∃ c, runActs memoryProtocol (fun _ : Unit => '(')
      (List.replicate 12 (.run ())) (Config.init memoryProtocol) = some c ∧
        (c.phase (), (memoryBefore '(' c.shared).isSome) = (.testing, false) :=
    Option.map_eq_some_iff.mp (by decide)
  obtain ⟨hph, hnone⟩ := Prod.mk.inj hend
  have hfit := h _ (fun _ => by decide) c (reachable_of_runActs (.init rfl) hc) ()
  rw [hph, WritesFit, hnone] at hfit
  exact absurd hfit (by decide)

end OsLabs.MultiThreads.Brac
