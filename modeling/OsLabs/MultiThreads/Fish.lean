import Mathlib.Computability.Language
import OsLabs.Monitor

/-!
# OsLabs.MultiThreads.Fish

`multi-threads/fish.c`: threads that print `<`, `>` and `_` so that the output is
a sequence of fish, `><>_` or `<><_`.

The shared state is the state of a finite automaton (`current`, with the table
`rules`) and a `quota` that is 0 while a thread is between `fish_before` and
`fish_after`. `fish_after` computes `next(ch)` a second time; that this is the
rule `fish_before` has tested is what the quota is for.

The printed history and the automaton are tied by `Reads`: the output is a number
of whole fish and then one of the words `partials` lists for the current state.
-/

namespace OsLabs.MultiThreads.Fish

open OsLabs.Monitor
open scoped Computability

/-- `enum state`. -/
inductive FishState
  | A | B | C | D | E | F
  deriving DecidableEq, Repr

/-- `struct rule`. -/
structure Rule where
  fromState : FishState
  ch : Char
  toState : FishState

/-- `rules`. -/
def rules : List Rule :=
  [⟨.A, '>', .B⟩, ⟨.B, '<', .C⟩, ⟨.C, '>', .D⟩, ⟨.D, '_', .A⟩,
    ⟨.A, '<', .E⟩, ⟨.E, '>', .F⟩, ⟨.F, '<', .D⟩]

/-- The globals. `current` is an `enum state` that `fish_after` stores the `int` result
of `next` in; `none` is the 0 that is no state. -/
structure Shared where
  current : Option FishState
  quota : Int
  deriving DecidableEq, Repr

/-- `next`; `none` is 0. -/
def next (sh : Shared) (ch : Char) : Option FishState :=
  (rules.find? fun rule => some rule.fromState = sh.current ∧ rule.ch = ch).map Rule.toState

/-- One evaluation of the loop of `fish_before`, with what follows it. -/
def fishBefore (ch : Char) (sh : Shared) : Entry Shared Unit :=
  if next sh ch = none ∨ sh.quota = 0 then
    .sleep ()
  else if next sh ch ≠ none ∧ sh.quota = 1 then
    .pass { sh with quota := sh.quota - 1 }
  else
    .assertFailed

/-- `fish_after`, which broadcasts on the only condition variable. -/
def fishAfter (ch : Char) (sh : Shared) : Shared × Option Unit :=
  ({ current := next sh ch, quota := sh.quota + 1 }, some ())

/-- The monitor of `fish.c`. -/
def protocol : Protocol Shared Char Unit where
  init := { current := some .A, quota := 1 }
  before := fishBefore
  after := fishAfter

/-! ### The language -/

/-- `><>` or `<><`. -/
def fish : Language Char := {['>', '<', '>']} + {['<', '>', '<']}

/-- Fish, each followed by an underscore. -/
def fishes : Language Char := (fish * {['_']})∗

/-- What has been printed of the current fish. -/
def partials : FishState → List (List Char)
  | .A => [[]]
  | .B => [['>']]
  | .C => [['>', '<']]
  | .D => [['>', '<', '>'], ['<', '>', '<']]
  | .E => [['<']]
  | .F => [['<', '>']]

/-- The output is a number of fish and what the state says about the next one. -/
def Reads (out : List Char) (q : FishState) : Prop :=
  ∃ w ∈ fishes, ∃ u ∈ partials q, out = w ++ u

theorem fish_underscore {u : List Char}
    (h : u ∈ [['>', '<', '>', '_'], ['<', '>', '<', '_']]) : u ∈ fish * {['_']} := by
  rw [Language.mem_mul]
  rcases (by simpa using h : u = _ ∨ u = _) with rfl | rfl
  · exact ⟨['>', '<', '>'], .inl rfl, ['_'], rfl, rfl⟩
  · exact ⟨['<', '>', '<'], .inr rfl, ['_'], rfl, rfl⟩

/-- One more fish. -/
theorem fishes_snoc {w u : List Char} (hw : w ∈ fishes) (hu : u ∈ fish * {['_']}) :
    w ++ u ∈ fishes := by
  obtain ⟨L, rfl, hL⟩ := Language.mem_kstar.mp hw
  refine Language.mem_kstar.mpr ⟨L ++ [u], by simp, fun v hv => ?_⟩
  rcases List.mem_append.mp hv with hv | hv
  · exact hL v hv
  · rw [List.mem_singleton.mp hv]
    exact hu

/-- What a rule does to the current fish: it goes on, or it is complete. -/
theorem partials_rule : ∀ rule ∈ rules, ∀ u ∈ partials rule.fromState,
    u ++ [rule.ch] ∈ partials rule.toState ∨ rule.toState = .A ∧
      u ++ [rule.ch] ∈ [['>', '<', '>', '_'], ['<', '>', '<', '_']] := by
  decide

/-- A rule that `next` finds. -/
theorem rule_of_next {sh : Shared} {ch : Char} {q' : FishState} (h : next sh ch = some q') :
    ∃ rule ∈ rules, some rule.fromState = sh.current ∧ rule.ch = ch ∧ rule.toState = q' := by
  obtain ⟨rule, hfind, rfl⟩ := Option.map_eq_some_iff.mp h
  have hrule := List.find?_some hfind
  simp only [decide_eq_true_eq] at hrule
  exact ⟨rule, List.mem_of_find?_eq_some hfind, hrule.1, hrule.2, rfl⟩

/-- Printing a character that has a rule. -/
theorem Reads.next {out : List Char} {q q' : FishState} {sh : Shared} {ch : Char}
    (h : Reads out q) (hcur : sh.current = some q) (hnext : Fish.next sh ch = some q') :
    Reads (out ++ [ch]) q' := by
  obtain ⟨w, hw, u, hu, rfl⟩ := h
  obtain ⟨rule, hrule, hfrom, rfl, rfl⟩ := rule_of_next hnext
  obtain rfl : rule.fromState = q := Option.some.inj (hfrom.trans hcur)
  rcases partials_rule rule hrule u hu with hgo | ⟨hA, hwhole⟩
  · exact ⟨w, hw, u ++ [rule.ch], hgo, by rw [List.append_assoc]⟩
  · refine ⟨w ++ (u ++ [rule.ch]), fishes_snoc hw (fish_underscore hwhole), [], ?_, by simp⟩
    rw [hA]
    exact List.mem_singleton.mpr rfl

/-- Every fish can be finished. -/
theorem partials_complete : ∀ q, ∀ u ∈ partials q,
    ∃ v, u ++ v ∈ [['>', '<', '>', '_'], ['<', '>', '<', '_']] := by
  intro q u hu
  cases q with
  | A => exact ⟨['>', '<', '>', '_'], by simp_all [partials]⟩
  | B => exact ⟨['<', '>', '_'], by simp_all [partials]⟩
  | C => exact ⟨['>', '_'], by simp_all [partials]⟩
  | D =>
      refine ⟨['_'], ?_⟩
      rcases (by simpa [partials] using hu : u = _ ∨ u = _) with rfl | rfl
      · simp
      · simp
  | E => exact ⟨['>', '<', '_'], by simp_all [partials]⟩
  | F => exact ⟨['<', '_'], by simp_all [partials]⟩

theorem Reads.extends {out : List Char} {q : FishState} (h : Reads out q) :
    ∃ v, out ++ v ∈ fishes := by
  obtain ⟨w, hw, u, hu, rfl⟩ := h
  obtain ⟨v, hv⟩ := partials_complete q u hu
  exact ⟨v, by rw [List.append_assoc]; exact fishes_snoc hw (fish_underscore hv)⟩

/-! ### The discipline -/

/-- Nobody is inside: the output reads to `current`. -/
def Free (sh : Shared) (out : List Char) : Prop :=
  ∃ q, sh.current = some q ∧ sh.quota = 1 ∧ Reads out q

/-- A thread with the role `ch` is about to print: `ch` has a rule. -/
def Held (ch : Char) (sh : Shared) (out : List Char) : Prop :=
  ∃ q q', sh.current = some q ∧ sh.quota = 0 ∧ next sh ch = some q' ∧ Reads out q

/-- It has printed: the output reads to where the rule leads. -/
def Done (ch : Char) (sh : Shared) (out : List Char) : Prop :=
  ∃ q q', sh.current = some q ∧ sh.quota = 0 ∧ next sh ch = some q' ∧ Reads out q'

/-- Without quota everybody waits. -/
theorem fishBefore_of_quota {ch : Char} {sh : Shared} (h : sh.quota = 0) :
    fishBefore ch sh = .sleep () := by
  rw [fishBefore, if_pos (.inr h)]

/-- With quota, the test is whether there is a rule. -/
theorem fishBefore_of_rule {ch : Char} {sh : Shared} {q : FishState} (hq : sh.quota = 1)
    (hnext : next sh ch = some q) : fishBefore ch sh = .pass { sh with quota := 0 } := by
  rw [fishBefore, if_neg (by simp [hq, hnext]), if_pos (by simp [hq, hnext]), hq]
  rfl

theorem fishBefore_of_no_rule {ch : Char} {sh : Shared} (hnext : next sh ch = none) :
    fishBefore ch sh = .sleep () := by
  rw [fishBefore, if_pos (.inl hnext)]

theorem discipline : Discipline protocol (fun _ => True) Free Held Done where
  init := ⟨.A, rfl, rfl, [], Language.nil_mem_kstar _, [], List.mem_singleton.mpr rfl, rfl⟩
  pass := by
    intro ch sh out sh' _ hfree hpass
    obtain ⟨q, hcur, hquota, hreads⟩ := hfree
    cases hnext : next sh ch with
    | none =>
        have := (fishBefore_of_no_rule hnext).symm.trans hpass
        exact absurd this (by simp)
    | some q' =>
        obtain rfl := Entry.pass.inj ((fishBefore_of_rule hquota hnext).symm.trans hpass)
        exact ⟨q, q', hcur, rfl, hnext, hreads⟩
  print := by
    intro ch sh out _ hheld
    obtain ⟨q, q', hcur, hquota, hnext, hreads⟩ := hheld
    exact ⟨q, q', hcur, hquota, hnext, hreads.next hcur hnext⟩
  after := by
    intro ch sh out _ hdone
    obtain ⟨q, q', hcur, hquota, hnext, hreads⟩ := hdone
    refine ⟨q', hnext, ?_, hreads⟩
    show sh.quota + 1 = 1
    omega
  heldBlocks := by
    intro r ch sh out _ h
    obtain ⟨_, _, _, hquota, _⟩ := h
    exact ⟨(), fishBefore_of_quota hquota⟩
  doneBlocks := by
    intro r ch sh out _ h
    obtain ⟨_, _, _, hquota, _⟩ := h
    exact ⟨(), fishBefore_of_quota hquota⟩

/-- There is one condition variable, and every `fish_after` broadcasts on it. -/
theorem signals : Signals protocol (fun _ => True) Done (fun _ => ()) fun _ _ => True where
  sleeps _ _ _ _ := rfl
  init := ⟨(), trivial⟩
  after _ _ _ _ _ := ⟨(), rfl, trivial⟩

/-! ### The output, and who can move -/

section
variable {Tid : Type*} [DecidableEq Tid] {role : Tid → Char} {c : Config Tid Shared Char Unit}

theorem owned (h : (system protocol role).Reachable c) : Owned role Free Held Done c :=
  discipline.owned (fun _ => trivial) h

/-- The output is a prefix of a number of fish, the assertion in `fish_before` holds
whenever it is reached, and `current` is a state. -/
theorem fish_output (h : (system protocol role).Reachable c) :
    (∃ v, c.out ++ v ∈ fishes) ∧
      (∀ t, c.phase t = .testing → fishBefore (role t) c.shared ≠ .assertFailed) ∧
      ∃ q, c.shared.current = some q := by
  cases owned h with
  | free hout hfree =>
      obtain ⟨q, hcur, hquota, hreads⟩ := hfree
      refine ⟨hreads.extends, fun t _ => ?_, q, hcur⟩
      cases hnext : next c.shared (role t) with
      | none => simp [fishBefore_of_no_rule hnext]
      | some q' => simp [fishBefore_of_rule hquota hnext]
  | held t _ _ hheld =>
      obtain ⟨q, q', hcur, hquota, hnext, hreads⟩ := hheld
      exact ⟨hreads.extends, fun u _ => by simp [fishBefore_of_quota hquota], q, hcur⟩
  | done t _ _ hdone =>
      obtain ⟨q, q', hcur, hquota, hnext, hreads⟩ := hdone
      exact ⟨hreads.extends, fun u _ => by simp [fishBefore_of_quota hquota], q, hcur⟩

/-- One thread for each proper role. -/
def trio (t : Fin 3) : Char := ['<', '>', '_'][t]

theorem fish_output_trio :
    ∃ c, runActs protocol trio [.run 0, .run 1, .run 0, .run 0, .run 1, .run 1]
        (Config.init protocol) = some c ∧
      c.out = ['<', '>'] ∧ (∃ v, c.out ++ v ∈ fishes) ∧
      (∀ t, c.phase t = .testing → fishBefore (trio t) c.shared ≠ .assertFailed) ∧
      ∃ q, c.shared.current = some q := by
  obtain ⟨c, hc, hend⟩ : ∃ c, runActs protocol trio [.run 0, .run 1, .run 0, .run 0, .run 1, .run 1]
      (Config.init protocol) = some c ∧ c.out = ['<', '>'] :=
    Option.map_eq_some_iff.mp (by decide)
  exact ⟨c, hc, hend, fish_output (reachable_of_runActs (.init rfl) hc)⟩

/-- The roles that have a rule. -/
def proper : List Char := ['<', '>', '_']

/-- Every state has a rule with a proper role. -/
theorem exists_next {sh : Shared} {q : FishState} (h : sh.current = some q) :
    ∃ ch ∈ proper, ∃ q', next sh ch = some q' := by
  simp only [next, h]
  cases q with
  | A => exact ⟨'>', by decide, .B, rfl⟩
  | B => exact ⟨'<', by decide, .C, rfl⟩
  | C => exact ⟨'>', by decide, .D, rfl⟩
  | D => exact ⟨'_', by decide, .A, rfl⟩
  | E => exact ⟨'>', by decide, .F, rfl⟩
  | F => exact ⟨'<', by decide, .D, rfl⟩

/-- Only proper roles have rules. -/
theorem proper_of_next {sh : Shared} {ch : Char} {q : FishState} (h : next sh ch = some q) :
    ch ∈ proper := by
  obtain ⟨rule, hrule, -, rfl, -⟩ := rule_of_next h
  exact (by decide : ∀ rule ∈ rules, rule.ch ∈ proper) rule hrule

/-- While all proper roles are played, some thread with a proper role is not asleep and
can take a step. -/
theorem fish_progress (hroles : ∀ ch ∈ proper, ∃ t, role t = ch)
    (h : (system protocol role).Reachable c) :
    ∃ t, role t ∈ proper ∧ (∀ cv, c.phase t ≠ .asleep cv) ∧
      ∃ c', (system protocol role).step c (.run t) c' := by
  cases owned h with
  | free hout hfree =>
      obtain ⟨q, hcur, hquota, -⟩ := hfree
      obtain ⟨ch, hch, q', hnext⟩ := exists_next hcur
      obtain ⟨t, rfl⟩ := hroles ch hch
      -- the thread with that role is not asleep: its test passes
      have hpass := fishBefore_of_rule hquota hnext
      obtain ⟨_, _, hawake⟩ := (signals.woken discipline (fun _ => trivial) h).testing hout
      have hph : c.phase t = .testing := hawake t _ rfl hpass
      exact ⟨t, hch, fun cv => by simp [hph], exists_fire_of_pass hph hpass⟩
  | held t hph _ hheld =>
      obtain ⟨_, _, _, _, hnext, _⟩ := hheld
      exact ⟨t, proper_of_next hnext, fun cv => by simp [hph],
        exists_fire_of_inside (by rw [hph]; rfl)⟩
  | done t hph _ hdone =>
      obtain ⟨_, _, _, _, hnext, _⟩ := hdone
      exact ⟨t, proper_of_next hnext, fun cv => by simp [hph],
        exists_fire_of_inside (by rw [hph]; rfl)⟩

theorem fish_progress_trio :
    ∃ c, runActs protocol trio [.run 2, .run 1, .run 0, .run 1] (Config.init protocol) = some c ∧
      (c.phase 0, c.phase 2) = (.asleep (), .asleep ()) ∧
      ∃ t, trio t ∈ proper ∧ (∀ cv, c.phase t ≠ .asleep cv) ∧
        ∃ c', (system protocol trio).step c (.run t) c' := by
  obtain ⟨c, hc, hend⟩ : ∃ c, runActs protocol trio [.run 2, .run 1, .run 0, .run 1]
      (Config.init protocol) = some c ∧ (c.phase 0, c.phase 2) = (.asleep (), .asleep ()) :=
    Option.map_eq_some_iff.mp (by decide)
  have hroles : ∀ ch ∈ proper, ∃ t, trio t = ch :=
    List.forall_mem_cons.mpr ⟨⟨0, rfl⟩, List.forall_mem_cons.mpr ⟨⟨1, rfl⟩,
      List.forall_mem_singleton.mpr ⟨2, rfl⟩⟩⟩
  exact ⟨c, hc, hend, fish_progress hroles (reachable_of_runActs (.init rfl) hc)⟩

end

end OsLabs.MultiThreads.Fish
