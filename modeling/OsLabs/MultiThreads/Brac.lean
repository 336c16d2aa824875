import Mathlib.Data.List.Basic
import OsLabs.Brackets
import OsLabs.Monitor

/-!
# OsLabs.MultiThreads.Brac

`multi-threads/brac.c`: threads that print `(`, `)`, `[` and `]` so that the output
is well nested.

The shared state is the string `buff` of the openers that are still unmatched, its
length `count`, and a `quota` that is 0 while a thread is between `brac_before` and
`brac_after`. Which openers may follow is a table of strings (`states`): all the
strings of at most four openers with no `[` after a `(`.

`brac_after` updates `buff` for what has been printed meanwhile, without the mutex;
`Tied` is what relates the two. Openers wait on `empty` and are signalled by closers
only, closers wait on `fill` and are signalled by openers only. What makes that
enough is that after a closer there is room for an opener of a kind that is played,
and after an opener there is something to close (`brac_no_deadlock`).
-/

namespace OsLabs.MultiThreads.Brac

open OsLabs.Monitor OsLabs.Brackets

/-- `states`. -/
def states : List (List Char) :=
  [['(', '(', '(', '('], ['[', '(', '(', '('], ['[', '[', '(', '('], ['[', '[', '[', '('],
    ['[', '[', '[', '['], ['(', '(', '('], ['[', '(', '('], ['[', '[', '('], ['[', '[', '['],
    ['(', '('], ['[', '('], ['[', '['], ['('], ['[']]

/-- The globals; `buff` is the string in the array. -/
structure Shared where
  buff : List Char
  count : Int
  quota : Int
  deriving DecidableEq, Repr

/-- The condition variables. -/
inductive Cv
  | empty
  | fill
  deriving DecidableEq, Repr

/-- The string in `bit` after `bit[0] = ch`. -/
def bit (ch : Char) : List Char := if ch = '\x00' then [] else [ch]

/-- `test_producer`. -/
def testProducer (ch : Char) (sh : Shared) : Bool :=
  states.any fun state => sh.buff ++ bit ch = state

/-- `test_consumer`. -/
def testConsumer (ch : Char) (sh : Shared) : Bool :=
  if sh.buff.length < 1 then
    false
  else
    let bitNum := min sh.buff.length 4 - 1
    (sh.buff[bitNum]? = some '(' && ch = ')') || (sh.buff[bitNum]? = some '[' && ch = ']')

/-- One evaluation of the loops of `brac_before`, with what follows them. -/
def bracBefore (ch : Char) (sh : Shared) : Entry Shared Cv :=
  if ch = '[' ∨ ch = '(' then
    if testProducer ch sh = false ∨ sh.quota ≠ 1 ∨ sh.count = 4 then
      .sleep .empty
    else
      .pass { sh with quota := sh.quota - 1 }
  else if ch = ')' ∨ ch = ']' then
    if testConsumer ch sh = false ∨ sh.quota ≠ 1 ∨ sh.count = 0 then
      .sleep .fill
    else
      .pass { sh with quota := sh.quota - 1 }
  else
    .pass sh

/-- `brac_after`. -/
def bracAfter (ch : Char) (sh : Shared) : Shared × Option Cv :=
  if ch = '[' ∨ ch = '(' then
    ({ buff := sh.buff ++ bit ch, count := sh.count + 1, quota := sh.quota + 1 }, some .fill)
  else if ch = ')' ∨ ch = ']' then
    ({ buff := sh.buff.dropLast, count := sh.count - 1, quota := sh.quota + 1 }, some .empty)
  else
    (sh, none)

/-- The monitor of `brac.c`. -/
def protocol : Protocol Shared Char Cv where
  init := { buff := [], count := 0, quota := 1 }
  before := bracBefore
  after := bracAfter

/-! ### The language -/

def isOpen (ch : Char) : Bool := ch = '(' || ch = '['

def close (ch : Char) : Char := if ch = '(' then ')' else ']'

/-- Never more than four brackets are open, and no `[` is printed while a `(` is open. -/
structure Safe (w : List Char) : Prop where
  depth : ∀ u, u <+: w → ∃ st, unmatched isOpen close u = some st ∧ st.length ≤ 4
  order : ∀ u, u ++ ['['] <+: w → ∃ st, unmatched isOpen close u = some st ∧ '(' ∉ st

/-- The words the threads may print. -/
structure Allowed (w : List Char) : Prop where
  nested : Nested isOpen close w
  safe : Safe w

theorem safe_nil : Safe [] where
  depth u hu := ⟨[], by rw [List.prefix_nil.mp hu]; rfl, by simp⟩
  order u hu := absurd (List.prefix_nil.mp hu) (by simp)

/-- One letter more. -/
theorem Safe.snoc {w st st' : List Char} {ch : Char} (h : Safe w)
    (hw : unmatched isOpen close w = some st) (hread : read isOpen close st ch = some st')
    (hlen : st'.length ≤ 4) (horder : ch = '[' → '(' ∉ st) : Safe (w ++ [ch]) where
  depth u hu := by
    rcases List.prefix_concat_iff.mp hu with rfl | hu
    · exact ⟨st', (unmatched_snoc hw).trans hread, hlen⟩
    · exact h.depth u hu
  order u hu := by
    rcases List.prefix_concat_iff.mp hu with heq | hu
    · obtain ⟨rfl, hch⟩ := List.append_inj' heq rfl
      exact ⟨st, hw, horder (List.cons.inj hch).1.symm⟩
    · exact h.order u hu

/-- What is open can be closed. -/
theorem Safe.extends {w st : List Char} (h : Safe w) (hw : unmatched isOpen close w = some st)
    (hlen : st.length ≤ 4) (hst : ∀ o ∈ st, isOpen o = true) : ∃ v, w <+: v ∧ Allowed v := by
  induction st generalizing w with
  | nil => exact ⟨w, List.prefix_refl w, nested_of_unmatched hw, h⟩
  | cons o st ih =>
      have hclosed : isOpen (close o) = false := by
        unfold close
        split
        · rfl
        · rfl
      have hread : read isOpen close (o :: st) (close o) = some st := read_close hclosed
      have hlen' : st.length ≤ 4 := by
        rw [List.length_cons] at hlen
        omega
      have hne : close o ≠ '[' := by
        intro heq
        rw [heq] at hclosed
        exact absurd hclosed (by decide)
      obtain ⟨v, hv, hall⟩ := ih (h.snoc hw hread hlen' fun heq => absurd heq hne)
        ((unmatched_snoc hw).trans hread) hlen' fun o ho => hst o (List.mem_cons_of_mem _ ho)
      exact ⟨v, (List.prefix_append w [close o]).trans hv, hall⟩

/-! ### The table -/

/-- A string `buff` may hold: nothing, or one of the table. -/
def Valid (b : List Char) : Prop := b = [] ∨ b ∈ states

theorem valid_iff {b : List Char} : Valid b ↔ b ∈ [] :: states := List.mem_cons.symm

theorem Valid.length_le {b : List Char} (h : Valid b) : b.length ≤ 4 :=
  (by decide : ∀ b ∈ [] :: states, b.length ≤ 4) b (valid_iff.mp h)

theorem Valid.isOpen {b : List Char} (h : Valid b) : ∀ o ∈ b, isOpen o = true :=
  List.all_eq_true.mp
    ((by decide : ∀ b ∈ [] :: states, b.all Brac.isOpen = true) b (valid_iff.mp h))

theorem Valid.dropLast {b : List Char} (h : Valid b) : Valid b.dropLast :=
  valid_iff.mpr
    ((by decide : ∀ b ∈ [] :: states, b.dropLast ∈ [] :: states) b (valid_iff.mp h))

/-- The order of the openers is in the table. -/
theorem not_mem_of_states {b : List Char} (h : b ++ ['['] ∈ states) : '(' ∉ b := by
  have := (by decide : ∀ s ∈ states, s.getLast? = some '[' → '(' ∉ s.dropLast) _ h (by simp)
  simpa using this

/-- Below four openers a `(` may follow, and after `[`s only a `[`. -/
theorem states_room {b : List Char} (h : Valid b) (hlen : b.length ≤ 3) :
    b ++ ['('] ∈ states ∧ ('(' ∉ b → b ++ ['['] ∈ states) :=
  (by decide : ∀ b ∈ [] :: states, b.length ≤ 3 →
    b ++ ['('] ∈ states ∧ ('(' ∉ b → b ++ ['['] ∈ states)) b (valid_iff.mp h) hlen

/-! ### The tests -/

/-- The characters the threads play. -/
def brackets : List Char := ['(', ')', '[', ']']

theorem isOpen_iff {ch : Char} : isOpen ch = true ↔ ch = '[' ∨ ch = '(' := by
  simp [isOpen, or_comm]

/-- A bracket that does not open closes. -/
theorem closer_of_mem {ch : Char} (h : ch ∈ brackets) (hc : isOpen ch = false) :
    ch = ')' ∨ ch = ']' := by
  rcases (by simpa [brackets] using h : ch = _ ∨ ch = _ ∨ ch = _ ∨ ch = _) with
    rfl | rfl | rfl | rfl
  · exact absurd hc (by decide)
  · exact .inl rfl
  · exact absurd hc (by decide)
  · exact .inr rfl

theorem bit_of_mem {ch : Char} (h : ch ∈ brackets) : bit ch = [ch] := by
  refine if_neg fun hnul => ?_
  rw [hnul] at h
  exact absurd h (by decide)

theorem testProducer_iff {ch : Char} {sh : Shared} (h : ch ∈ brackets) :
    testProducer ch sh = true ↔ sh.buff ++ [ch] ∈ states := by
  simp [testProducer, bit_of_mem h]

/-- `test_consumer` compares with the last character of `buff`. -/
theorem testConsumer_iff {ch : Char} {sh : Shared} (hlen : sh.buff.length ≤ 4)
    (hopen : ∀ o ∈ sh.buff, isOpen o = true) :
    testConsumer ch sh = true ↔ ∃ b o, sh.buff = b ++ [o] ∧ close o = ch := by
  unfold testConsumer
  rcases List.eq_nil_or_concat sh.buff with hnil | ⟨b, o, hb⟩
  · simp [hnil]
  · have hb : sh.buff = b ++ [o] := by rw [hb, List.concat_eq_append]
    have hlast : sh.buff[min sh.buff.length 4 - 1]? = some o := by
      rw [Nat.min_eq_left hlen, hb, List.length_append, List.length_singleton]
      simp
    have hpos : ¬ sh.buff.length < 1 := by rw [hb, List.length_append]; simp
    rw [if_neg hpos]
    dsimp only
    rw [hlast]
    have ho := isOpen_iff.mp (hopen o (by simp [hb]))
    refine ⟨?_, ?_⟩
    · intro h
      refine ⟨b, o, hb, ?_⟩
      rcases ho with rfl | rfl
      · simpa [close, eq_comm] using h
      · simpa [close, eq_comm] using h
    · intro h
      obtain ⟨b', o', hb', rfl⟩ := h
      obtain ⟨-, ho'⟩ := List.append_inj' (hb.symm.trans hb') rfl
      obtain rfl := (List.cons.inj ho').1
      rcases ho with rfl | rfl
      · decide
      · decide

/-- What printing `ch` is to do to the string of unmatched openers. -/
inductive Goes (b : List Char) : Char → List Char → Prop
  | push {ch : Char} : isOpen ch = true → b ++ [ch] ∈ states → Goes b ch (b ++ [ch])
  | pop {o : Char} {b' : List Char} : b = b' ++ [o] → isOpen o = true → Goes b (close o) b'

theorem close_cases (o : Char) : isOpen (close o) = false ∧ (close o = ')' ∨ close o = ']') := by
  unfold close
  split
  · exact ⟨rfl, .inl rfl⟩
  · exact ⟨rfl, .inr rfl⟩

/-- The condition variable a role waits on. -/
def queue (ch : Char) : Cv := if isOpen ch then .empty else .fill

theorem not_open {ch : Char} (h : isOpen ch = false) : ¬ (ch = '[' ∨ ch = '(') := by
  intro hch
  rw [isOpen_iff.mpr hch] at h
  exact absurd h (by simp)

/-- `brac_before` passes a bracket that goes, with the quota. -/
theorem bracBefore_of_goes {ch : Char} {sh : Shared} {b' : List Char} (hv : Valid sh.buff)
    (hcount : sh.count = sh.buff.length) (hquota : sh.quota = 1) (hch : ch ∈ brackets)
    (h : Goes sh.buff ch b') : bracBefore ch sh = .pass { sh with quota := 0 } := by
  unfold bracBefore
  cases h with
  | push hopen hmem =>
      have htest : testProducer ch sh = true := (testProducer_iff hch).mpr hmem
      have hvalid : Valid (sh.buff ++ [ch]) := .inr hmem
      have hlen := hvalid.length_le
      rw [List.length_append, List.length_singleton] at hlen
      have hne : sh.count ≠ 4 := by omega
      rw [if_pos (isOpen_iff.mp hopen), if_neg (by simp [htest, hquota, hne]), hquota]
      rfl
  | @pop o _ hb hopen =>
      have htest : testConsumer (close o) sh = true :=
        (testConsumer_iff hv.length_le hv.isOpen).mpr ⟨b', o, hb, rfl⟩
      have hne : sh.count ≠ 0 := by
        rw [hcount, hb, List.length_append, List.length_singleton]
        omega
      rw [if_neg (not_open (close_cases o).1), if_pos (close_cases o).2,
        if_neg (by simp [htest, hquota, hne]), hquota]
      rfl

/-- `brac_before` passes nothing else. -/
theorem goes_of_bracBefore {ch : Char} {sh sh' : Shared} (hv : Valid sh.buff)
    (hch : ch ∈ brackets) (h : bracBefore ch sh = .pass sh') : ∃ b', Goes sh.buff ch b' := by
  unfold bracBefore at h
  split at h
  · next hopen =>
    split at h
    · exact absurd h (by simp)
    · next htest =>
      have htest : testProducer ch sh = true := by
        by_contra hne
        exact htest (.inl (by simpa using hne))
      exact ⟨_, .push (isOpen_iff.mpr hopen) ((testProducer_iff hch).mp htest)⟩
  · next hopen =>
    split at h
    · split at h
      · exact absurd h (by simp)
      · next htest =>
        have htest : testConsumer ch sh = true := by
          by_contra hne
          exact htest (.inl (by simpa using hne))
        obtain ⟨b, o, hb, rfl⟩ := (testConsumer_iff hv.length_le hv.isOpen).mp htest
        exact ⟨b, .pop hb (hv.isOpen o (by simp [hb]))⟩
    · next hclose =>
      have hfalse : isOpen ch = false := by
        by_contra hne
        exact hopen (isOpen_iff.mp (by simpa using hne))
      exact absurd (closer_of_mem hch hfalse) hclose

/-- Without quota a bracket waits, each kind in its queue. -/
theorem bracBefore_of_quota {ch : Char} {sh : Shared} (hch : ch ∈ brackets)
    (h : sh.quota ≠ 1) : bracBefore ch sh = .sleep (queue ch) := by
  unfold bracBefore queue
  by_cases hopen : isOpen ch = true
  · rw [if_pos (isOpen_iff.mp hopen), if_pos (.inr (.inl h)), if_pos hopen]
  · have hfalse : isOpen ch = false := by simpa using hopen
    rw [if_neg (not_open hfalse), if_pos (closer_of_mem hch hfalse), if_pos (.inr (.inl h)),
      if_neg hopen]

/-- A thread sleeps in the queue of its role. -/
theorem queue_of_sleep {ch : Char} {sh : Shared} {cv : Cv} (h : bracBefore ch sh = .sleep cv) :
    cv = queue ch := by
  unfold bracBefore at h
  split at h
  · next hopen =>
    split at h
    · obtain rfl := Entry.sleep.inj h
      rw [queue, if_pos (isOpen_iff.mpr hopen)]
    · exact absurd h (by simp)
  · next hopen =>
    split at h
    · split at h
      · obtain rfl := Entry.sleep.inj h
        rw [queue, if_neg (fun hc => hopen (isOpen_iff.mp hc))]
      · exact absurd h (by simp)
    · exact absurd h (by simp)

/-- `brac_after` does to `buff` what is to be done. -/
theorem bracAfter_of_goes {ch : Char} {sh : Shared} {b' : List Char} (hch : ch ∈ brackets)
    (hcount : sh.count = sh.buff.length) (h : Goes sh.buff ch b') :
    (bracAfter ch sh).1 = { buff := b', count := b'.length, quota := sh.quota + 1 } := by
  unfold bracAfter
  cases h with
  | push hopen hmem =>
      rw [if_pos (isOpen_iff.mp hopen), bit_of_mem hch, hcount]
      simp
  | @pop o _ hb hopen =>
      rw [if_neg (not_open (close_cases o).1), if_pos (close_cases o).2, hcount, hb]
      simp

/-! ### The discipline -/

/-- The globals, when nobody is inside: `buff` is the string of the unmatched openers of
the output, and each of them was printed by a thread that is there. -/
structure Tied (played : Char → Prop) (sh : Shared) (out : List Char) : Prop where
  unmatched : unmatched isOpen close out = some sh.buff.reverse
  count : sh.count = sh.buff.length
  valid : Valid sh.buff
  safe : Safe out
  played : ∀ o ∈ sh.buff, played o

/-- Nobody is inside. -/
def Free (played : Char → Prop) (sh : Shared) (out : List Char) : Prop :=
  sh.quota = 1 ∧ Tied played sh out

/-- A thread is about to print a bracket that goes. -/
def Held (played : Char → Prop) (ch : Char) (sh : Shared) (out : List Char) : Prop :=
  sh.quota = 0 ∧ Tied played sh out ∧ ∃ b', Goes sh.buff ch b'

/-- It has printed it; `brac_after` will tie `buff` to the output again. -/
def Done (played : Char → Prop) (ch : Char) (sh : Shared) (out : List Char) : Prop :=
  sh.quota = 0 ∧ Valid sh.buff ∧ (∃ b', Goes sh.buff ch b') ∧
    Free played (bracAfter ch sh).1 out

/-- Printing a bracket that goes keeps the output safe. -/
theorem Tied.print {played : Char → Prop} {ch : Char} {sh : Shared} {out b' : List Char}
    (h : Tied played sh out) (hch : ch ∈ brackets) (hp : played ch) (hgo : Goes sh.buff ch b') :
    Tied played { buff := b', count := b'.length, quota := 1 } (out ++ [ch]) := by
  have hread : read isOpen close sh.buff.reverse ch = some b'.reverse := by
    cases hgo with
    | push hopen hmem => rw [read_open hopen, List.reverse_append]; rfl
    | @pop o _ hb hopen =>
        rw [hb, List.reverse_append, List.reverse_singleton, List.singleton_append,
          read_close (close_cases o).1]
  have hvalid : Valid b' := by
    cases hgo with
    | push hopen hmem => exact .inr hmem
    | pop hb hopen => simpa [hb] using h.valid.dropLast
  have horder : ch = '[' → '(' ∉ sh.buff.reverse := by
    intro heq
    rw [List.mem_reverse]
    cases hgo with
    | push hopen hmem => exact not_mem_of_states (heq ▸ hmem)
    | @pop o _ hb hopen =>
        have := (close_cases o).1
        rw [heq] at this
        exact absurd this (by decide)
  constructor
  case unmatched => exact (unmatched_snoc h.unmatched).trans hread
  case count => rfl
  case valid => exact hvalid
  case safe =>
    refine h.safe.snoc h.unmatched hread ?_ horder
    rw [List.length_reverse]
    exact hvalid.length_le
  case played =>
    cases hgo with
    | push hopen hmem =>
        intro o ho
        rcases List.mem_append.mp ho with ho | ho
        · exact h.played o ho
        · rw [List.mem_singleton.mp ho]
          exact hp
    | pop hb hopen => exact fun o ho => h.played o (by rw [hb]; exact List.mem_append_left _ ho)

theorem discipline (played : Char → Prop) :
    Discipline protocol (fun ch => ch ∈ brackets ∧ played ch) (Free played) (Held played)
      (Done played) where
  init := ⟨rfl,
    { unmatched := rfl
      count := rfl
      valid := .inl rfl
      safe := safe_nil
      played := fun o ho => absurd ho List.not_mem_nil }⟩
  pass := by
    intro ch sh out sh' hok hfree hpass
    obtain ⟨hquota, htied⟩ := hfree
    have hch := hok.1
    obtain ⟨b', hgo⟩ := goes_of_bracBefore htied.valid hch hpass
    have := bracBefore_of_goes htied.valid htied.count hquota hch hgo
    obtain rfl := Entry.pass.inj (this.symm.trans hpass)
    exact ⟨rfl, ⟨htied.unmatched, htied.count, htied.valid, htied.safe, htied.played⟩, b', hgo⟩
  print := by
    intro ch sh out hok hheld
    obtain ⟨hch, hp⟩ := hok
    obtain ⟨hquota, htied, b', hgo⟩ := hheld
    refine ⟨hquota, htied.valid, ⟨b', hgo⟩, ?_⟩
    rw [bracAfter_of_goes hch htied.count hgo, hquota]
    exact ⟨rfl, htied.print hch hp hgo⟩
  after := fun ch sh out _ hdone => hdone.2.2.2
  heldBlocks := by
    intro r ch sh out hok hin
    exact ⟨queue ch, bracBefore_of_quota hok.1 (by rw [hin.1]; decide)⟩
  doneBlocks := by
    intro r ch sh out hok hin
    exact ⟨queue ch, bracBefore_of_quota hok.1 (by rw [hin.1]; decide)⟩

/-- The state after the last broadcast: room for an opener, or something to close. -/
def Last (sh : Shared) : Cv → Prop
  | .empty => sh.buff.length ≤ 3
  | .fill => sh.buff ≠ []

theorem signals (played : Char → Prop) :
    Signals protocol (fun ch => ch ∈ brackets ∧ played ch) (Done played) queue Last where
  sleeps _ _ _ h := queue_of_sleep h
  init := ⟨.empty, Nat.zero_le 3⟩
  after := by
    intro ch sh out hok hdone
    obtain ⟨-, hvalid, ⟨b', hgo⟩, -⟩ := hdone
    have hch := hok.1
    show ∃ cv, (bracAfter ch sh).2 = some cv ∧ Last (bracAfter ch sh).1 cv
    unfold bracAfter
    cases hgo with
    | push hopen hmem =>
        rw [if_pos (isOpen_iff.mp hopen), bit_of_mem hch]
        exact ⟨.fill, rfl, by simp [Last]⟩
    | @pop o _ hb hopen =>
        rw [if_neg (not_open (close_cases o).1), if_pos (close_cases o).2]
        refine ⟨.empty, rfl, ?_⟩
        have hlen := hvalid.length_le
        show sh.buff.dropLast.length ≤ 3
        rw [List.length_dropLast]
        omega

/-! ### The output, and that somebody is awake -/

section
variable {Tid : Type*} [DecidableEq Tid] {role : Tid → Char} {c : Config Tid Shared Char Cv}

theorem owned (hroles : ∀ t, role t ∈ brackets) (h : (system protocol role).Reachable c) :
    Owned role (Free fun ch => ∃ t, role t = ch) (Held fun ch => ∃ t, role t = ch)
      (Done fun ch => ∃ t, role t = ch) c :=
  (discipline _).owned (fun t => ⟨hroles t, t, rfl⟩) h

theorem Tied.extends {played : Char → Prop} {sh : Shared} {out : List Char}
    (h : Tied played sh out) : ∃ w, out <+: w ∧ Allowed w := by
  refine h.safe.extends h.unmatched ?_ fun o ho => h.valid.isOpen o (List.mem_reverse.mp ho)
  rw [List.length_reverse]
  exact h.valid.length_le

/-- The output is a prefix of an allowed word; and while nobody is inside, `buff` is the
string of its unmatched openers, in order, and `count` its length. -/
theorem brac_output (hroles : ∀ t, role t ∈ brackets) (h : (system protocol role).Reachable c) :
    (∃ w, c.out <+: w ∧ Allowed w) ∧
      (c.shared.quota = 1 →
        unmatched isOpen close c.out = some c.shared.buff.reverse ∧
          c.shared.count = c.shared.buff.length) := by
  cases owned hroles h with
  | free hout hfree => exact ⟨hfree.2.extends, fun _ => ⟨hfree.2.unmatched, hfree.2.count⟩⟩
  | held t hph _ hheld =>
      refine ⟨hheld.2.1.extends, fun hq => ?_⟩
      rw [hheld.1] at hq
      exact absurd hq (by decide)
  | done t hph _ hdone =>
      refine ⟨hdone.2.2.2.2.extends, fun hq => ?_⟩
      rw [hdone.1] at hq
      exact absurd hq (by decide)

/-- One thread for each bracket. -/
def quartet (t : Fin 4) : Char := ['(', ')', '[', ']'][t]

theorem brac_output_quartet :
    ∃ c, runActs protocol quartet [.run 2, .run 1, .run 2, .run 2, .run 0, .run 0]
        (Config.init protocol) = some c ∧
      c.out = ['[', '('] ∧ (∃ w, c.out <+: w ∧ Allowed w) ∧
      (c.shared.quota = 1 →
        unmatched isOpen close c.out = some c.shared.buff.reverse ∧
          c.shared.count = c.shared.buff.length) := by
  obtain ⟨c, hc, hend⟩ : ∃ c, runActs protocol quartet
      [.run 2, .run 1, .run 2, .run 2, .run 0, .run 0] (Config.init protocol) = some c ∧
        c.out = ['[', '('] :=
    Option.map_eq_some_iff.mp (by decide)
  exact ⟨c, hc, hend, brac_output (by decide) (reachable_of_runActs (.init rfl) hc)⟩

omit [DecidableEq Tid] in
/-- In the queue that was signalled last there is a role that goes. -/
theorem exists_goes {sh : Shared} {out : List Char} {cv : Cv}
    (hopener : ∃ t, isOpen (role t) = true)
    (hcloser : ∀ t, isOpen (role t) = true → ∃ u, role u = close (role t))
    (htied : Tied (fun ch => ∃ t, role t = ch) sh out) (hlast : Last sh cv) :
    ∃ t b', queue (role t) = cv ∧ Goes sh.buff (role t) b' := by
  cases cv with
  | empty =>
      have hroom := states_room htied.valid hlast
      by_cases hpar : ∃ t, role t = '('
      · obtain ⟨t, ht⟩ := hpar
        rw [← ht] at hroom
        exact ⟨t, _, by rw [ht]; rfl, .push (by rw [ht]; rfl) hroom.1⟩
      · -- every opener is a `[`, those in `buff` too
        obtain ⟨t, ht⟩ := hopener
        have hsq : role t = '[' := by
          rcases isOpen_iff.mp ht with h | h
          · exact h
          · exact absurd ⟨t, h⟩ hpar
        have hmem := hroom.2 fun hmem => hpar (htied.played '(' hmem)
        rw [← hsq] at hmem
        exact ⟨t, _, by rw [hsq]; rfl, .push ht hmem⟩
  | fill =>
      obtain ⟨b, o, hb⟩ := (List.eq_nil_or_concat sh.buff).resolve_left hlast
      rw [List.concat_eq_append] at hb
      obtain ⟨t, rfl⟩ := htied.played o (by rw [hb]; simp)
      have hopen : isOpen (role t) = true := htied.valid.isOpen _ (by rw [hb]; simp)
      obtain ⟨u, hu⟩ := hcloser t hopen
      refine ⟨u, b, ?_, ?_⟩
      · rw [hu, queue, (close_cases _).1]
        rfl
      · rw [hu]
        exact .pop hb hopen

/-- With an opener, and a closer for every kind of opener, never all threads are asleep. -/
theorem brac_no_deadlock (hroles : ∀ t, role t ∈ brackets) (hopener : ∃ t, isOpen (role t) = true)
    (hcloser : ∀ t, isOpen (role t) = true → ∃ u, role u = close (role t))
    (h : (system protocol role).Reachable c) : ¬ ∀ t, ∃ cv, c.phase t = .asleep cv := by
  intro hall
  cases owned hroles h with
  | held t hph =>
      obtain ⟨cv, hcv⟩ := hall t
      exact absurd (hph.symm.trans hcv) (by simp)
  | done t hph =>
      obtain ⟨cv, hcv⟩ := hall t
      exact absurd (hph.symm.trans hcv) (by simp)
  | free hout hfree =>
      obtain ⟨hquota, htied⟩ := hfree
      obtain ⟨cv, hlast, htesting⟩ :=
        ((signals fun ch => ∃ t, role t = ch).woken (discipline _)
          (fun t => ⟨hroles t, t, rfl⟩) h).testing hout
      obtain ⟨t, b', hq, hgo⟩ := exists_goes hopener hcloser htied hlast
      have hpass := bracBefore_of_goes htied.valid htied.count hquota (hroles t) hgo
      obtain ⟨cv', hcv'⟩ := hall t
      exact absurd ((htesting t _ hq hpass).symm.trans hcv') (by simp)

theorem brac_no_deadlock_quartet :
    ∃ c, runActs protocol quartet [.run 2, .run 1, .run 3, .run 0, .run 2, .run 2]
        (Config.init protocol) = some c ∧
      c.phase 0 = .asleep .empty ∧ ¬ ∀ t, ∃ cv, c.phase t = .asleep cv := by
  obtain ⟨c, hc, hend⟩ : ∃ c, runActs protocol quartet
      [.run 2, .run 1, .run 3, .run 0, .run 2, .run 2] (Config.init protocol) = some c ∧
        c.phase 0 = .asleep .empty :=
    Option.map_eq_some_iff.mp (by decide)
  exact ⟨c, hc, hend, brac_no_deadlock (by decide) (by decide) (by decide)
    (reachable_of_runActs (.init rfl) hc)⟩

end

end OsLabs.MultiThreads.Brac
