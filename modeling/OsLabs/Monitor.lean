import Mathlib.Logic.Function.Basic
import OsLabs.Transition

/-!
# OsLabs.Monitor

**Threads that take turns through a monitor.** Every thread has a role and runs
`before; print; after` for ever. `before` and `after` are critical sections of
one mutex over a shared state; `before` loops around a wait on a condition
variable until its test passes, and what is printed in between is printed
without holding the mutex.

A `Protocol` gives the two sections as functions. Its semantics (`fire`) takes
one section, or one evaluation of the loop of `before`, as one step of any
thread; a sleeping thread is woken by a broadcast on its condition variable, or
spuriously.

Three rules come with it.

* `Discipline.owned`: if the sections keep a shared invariant, and a thread
  that has passed `before` blocks everybody else until its `after`, then there
  is never more than one thread between the two, and the invariant ties the
  shared state to the printed history.
* `Signals.woken`: if every `after` broadcasts on a condition variable `cv`
  in a state described by `last`, then in a state where nobody is inside, some
  `cv` has no thread asleep whose test would pass. This is what excludes a lost
  wake-up.
* `Refines.reachable`: if the sections do what those of another monitor do, on a
  shared state that is a representation of its own, the runs are runs of that one.
-/

namespace OsLabs.Monitor

universe u v w x

/-- What `before` does once it holds the mutex. -/
inductive Entry (Shared : Type u) (Cv : Type v)
  /-- The test passed: leave the loop and the section. -/
  | pass (sh : Shared)
  /-- Wait on a condition variable. -/
  | sleep (cv : Cv)
  /-- An assertion in the section failed. -/
  | assertFailed

/-- The critical sections of the monitor. -/
structure Protocol (Shared : Type u) (Role : Type v) (Cv : Type w) where
  init : Shared
  /-- One evaluation of the loop of `before`. -/
  before : Role → Shared → Entry Shared Cv
  /-- `after`, with the condition variable it broadcasts on. -/
  after : Role → Shared → Shared × Option Cv

/-- Where a thread is. -/
inductive Phase (Cv : Type w)
  /-- It is about to take the mutex in `before` and to evaluate the test. -/
  | testing
  /-- It sleeps on a condition variable. -/
  | asleep (cv : Cv)
  /-- `before` has returned. -/
  | entered
  /-- It has printed its role. -/
  | printed
  deriving DecidableEq, Repr

/-- Is the thread between `before` and `after`? -/
@[simp] def Phase.inside {Cv : Type w} : Phase Cv → Bool
  | .entered | .printed => true
  | _ => false

/-- A broadcast on the condition variable `cv`. -/
def Phase.wake {Cv : Type w} [DecidableEq Cv] (cv : Option Cv) : Phase Cv → Phase Cv
  | .asleep cv' => if cv = some cv' then .testing else .asleep cv'
  | ph => ph

/-- The state of the whole system. -/
structure Config (Tid : Type x) (Shared : Type u) (Role : Type v) (Cv : Type w) where
  shared : Shared
  phase : Tid → Phase Cv
  /-- What has been printed, in order. -/
  out : List Role

/-- Who moves. -/
inductive Act (Tid : Type x)
  | run (t : Tid)
  /-- A sleeping thread wakes up by itself. -/
  | spurious (t : Tid)

variable {Tid : Type x} {Shared : Type u} {Role : Type v} {Cv : Type w} [DecidableEq Tid]
  [DecidableEq Cv] {P : Protocol Shared Role Cv} {role : Tid → Role}

/-- One step of the system. -/
def fire (P : Protocol Shared Role Cv) (role : Tid → Role) (a : Act Tid)
    (c : Config Tid Shared Role Cv) : Option (Config Tid Shared Role Cv) :=
  match a with
  | .run t =>
      match c.phase t with
      | .testing =>
          match P.before (role t) c.shared with
          | .pass sh => some { c with shared := sh, phase := Function.update c.phase t .entered }
          | .sleep cv => some { c with phase := Function.update c.phase t (.asleep cv) }
          | .assertFailed => none
      | .asleep _ => none
      | .entered =>
          some { c with
            phase := Function.update c.phase t .printed
            out := c.out ++ [role t] }
      | .printed =>
          some { c with
            shared := (P.after (role t) c.shared).1
            phase := Function.update (fun u => (c.phase u).wake (P.after (role t) c.shared).2) t
              .testing }
  | .spurious t =>
      match c.phase t with
      | .asleep _ => some { c with phase := Function.update c.phase t .testing }
      | _ => none

/-- Every thread is about to call `before`, and nothing has been printed. -/
def Config.init (P : Protocol Shared Role Cv) : Config Tid Shared Role Cv where
  shared := P.init
  phase _ := .testing
  out := []

/-- The system of the threads with the given roles. -/
def system (P : Protocol Shared Role Cv) (role : Tid → Role) :
    System (Config Tid Shared Role Cv) (Act Tid) where
  init c := c = Config.init P
  step c a c' := fire P role a c = some c'

/-- Let the given actors move, in order. -/
def runActs (P : Protocol Shared Role Cv) (role : Tid → Role) :
    List (Act Tid) → Config Tid Shared Role Cv → Option (Config Tid Shared Role Cv)
  | [], c => some c
  | a :: as, c => (fire P role a c).bind (runActs P role as)

theorem reachable_of_runActs {as : List (Act Tid)} {c c' : Config Tid Shared Role Cv}
    (hc : (system P role).Reachable c) (h : runActs P role as c = some c') :
    (system P role).Reachable c' := by
  induction as generalizing c with
  | nil =>
      obtain rfl := Option.some.inj h
      exact hc
  | cons a as ih =>
      obtain ⟨d, hd, h⟩ := Option.bind_eq_some_iff.mp h
      exact ih (hc.step hd) h

/-! ### What a step can do -/

/-- The steps from a configuration. -/
inductive Fired (P : Protocol Shared Role Cv) (role : Tid → Role) (c : Config Tid Shared Role Cv) :
    Config Tid Shared Role Cv → Prop
  | pass (t : Tid) {sh : Shared} : c.phase t = .testing →
      P.before (role t) c.shared = .pass sh →
      Fired P role c { c with shared := sh, phase := Function.update c.phase t .entered }
  | sleep (t : Tid) {cv : Cv} : c.phase t = .testing →
      P.before (role t) c.shared = .sleep cv →
      Fired P role c { c with phase := Function.update c.phase t (.asleep cv) }
  | print (t : Tid) : c.phase t = .entered →
      Fired P role c { c with
        phase := Function.update c.phase t .printed
        out := c.out ++ [role t] }
  | after (t : Tid) : c.phase t = .printed →
      Fired P role c { c with
        shared := (P.after (role t) c.shared).1
        phase := Function.update (fun u => (c.phase u).wake (P.after (role t) c.shared).2) t
          .testing }
  | spurious (t : Tid) {cv : Cv} : c.phase t = .asleep cv →
      Fired P role c { c with phase := Function.update c.phase t .testing }

theorem fired_of_fire {a : Act Tid} {c c' : Config Tid Shared Role Cv}
    (h : fire P role a c = some c') : Fired P role c c' := by
  cases a with
  | run t =>
      simp only [fire] at h
      split at h
      · next hph =>
        split at h
        · next sh hb =>
          obtain rfl := Option.some.inj h
          exact .pass t hph hb
        · next cv hb =>
          obtain rfl := Option.some.inj h
          exact .sleep t hph hb
        · exact absurd h (by simp)
      · exact absurd h (by simp)
      · next hph =>
        obtain rfl := Option.some.inj h
        exact .print t hph
      · next hph =>
        obtain rfl := Option.some.inj h
        exact .after t hph
  | spurious t =>
      simp only [fire] at h
      split at h
      · next cv hph =>
        obtain rfl := Option.some.inj h
        exact .spurious t hph
      · exact absurd h (by simp)

/-- A thread that is inside can always take a step. -/
theorem exists_fire_of_inside {t : Tid} {c : Config Tid Shared Role Cv}
    (h : (c.phase t).inside = true) : ∃ c', fire P role (.run t) c = some c' := by
  cases hph : c.phase t with
  | testing => exact absurd h (by rw [hph]; simp)
  | asleep cv => exact absurd h (by rw [hph]; simp)
  | entered =>
      simp only [fire, hph]
      exact ⟨_, rfl⟩
  | printed =>
      simp only [fire, hph]
      exact ⟨_, rfl⟩

/-- So can a thread whose test passes. -/
theorem exists_fire_of_pass {t : Tid} {c : Config Tid Shared Role Cv} {sh : Shared}
    (hph : c.phase t = .testing) (hb : P.before (role t) c.shared = .pass sh) :
    ∃ c', fire P role (.run t) c = some c' := by
  simp only [fire, hph, hb]
  exact ⟨_, rfl⟩

/-- A thread whose test passes can go once round its loop while nobody else moves. -/
theorem exists_loop {t : Tid} {c : Config Tid Shared Role Cv} {sh : Shared}
    (h : (system P role).Reachable c) (hph : c.phase t = .testing)
    (hb : P.before (role t) c.shared = .pass sh) :
    ∃ c', (system P role).Reachable c' ∧ c'.phase t = .testing ∧
      c'.shared = (P.after (role t) sh).1 := by
  have hpass : (system P role).Reachable { c with
      shared := sh
      phase := Function.update c.phase t .entered } :=
    h.step (l := .run t) (by simp [system, fire, hph, hb])
  have hprint : (system P role).Reachable {
      shared := sh
      phase := Function.update c.phase t .printed
      out := c.out ++ [role t] } :=
    hpass.step (l := .run t) (by simp [system, fire])
  obtain ⟨c', hc', hph', hsh'⟩ : ∃ c', fire P role (.run t) {
      shared := sh
      phase := Function.update c.phase t .printed
      out := c.out ++ [role t] } = some c' ∧ c'.phase t = .testing ∧
        c'.shared = (P.after (role t) sh).1 := by
    simp only [fire, Function.update_self]
    exact ⟨_, rfl, by simp only [Function.update_self], rfl⟩
  exact ⟨c', hprint.step hc', hph', hsh'⟩

/-- A broadcast moves no thread in or out. -/
@[simp] theorem inside_wake (cv : Option Cv) (ph : Phase Cv) : (ph.wake cv).inside = ph.inside := by
  cases ph with
  | asleep cv' =>
      rw [Phase.wake]
      split
      · rfl
      · rfl
  | _ => rfl

/-- A thread that is asleep after a broadcast sleeps on another condition variable. -/
theorem asleep_of_wake {cv : Option Cv} {cv' : Cv} {ph : Phase Cv}
    (h : ph.wake cv = .asleep cv') : ph = .asleep cv' ∧ cv ≠ some cv' := by
  cases ph with
  | asleep d =>
      rw [Phase.wake] at h
      split at h
      · exact absurd h (by simp)
      · next hne =>
        obtain rfl := Phase.asleep.inj h
        exact ⟨rfl, hne⟩
  | _ => exact absurd h (by simp [Phase.wake])

/-! ### Taking turns -/

/-- The sections keep `free` when nobody is inside, `held r` when a thread with the
role `r` has passed `before`, and `done r` when it has printed; while it is inside
nobody else's test passes. -/
structure Discipline (P : Protocol Shared Role Cv) (ok : Role → Prop)
    (free : Shared → List Role → Prop) (held done : Role → Shared → List Role → Prop) : Prop where
  init : free P.init []
  pass : ∀ r sh out sh', ok r → free sh out → P.before r sh = .pass sh' → held r sh' out
  print : ∀ r sh out, ok r → held r sh out → done r sh (out ++ [r])
  after : ∀ r sh out, ok r → done r sh out → free (P.after r sh).1 out
  heldBlocks : ∀ r q sh out, ok q → held r sh out → ∃ cv, P.before q sh = .sleep cv
  doneBlocks : ∀ r q sh out, ok q → done r sh out → ∃ cv, P.before q sh = .sleep cv

/-- At most one thread is inside, and the invariant fits where it is. -/
inductive Owned (role : Tid → Role) (free : Shared → List Role → Prop)
    (held done : Role → Shared → List Role → Prop) (c : Config Tid Shared Role Cv) : Prop
  | free : (∀ t, (c.phase t).inside = false) → free c.shared c.out → Owned role free held done c
  | held (t : Tid) : c.phase t = .entered → (∀ u, (c.phase u).inside = true → u = t) →
      held (role t) c.shared c.out → Owned role free held done c
  | done (t : Tid) : c.phase t = .printed → (∀ u, (c.phase u).inside = true → u = t) →
      done (role t) c.shared c.out → Owned role free held done c

variable {ok : Role → Prop} {free : Shared → List Role → Prop}
  {held done : Role → Shared → List Role → Prop} {c c' : Config Tid Shared Role Cv}

omit [DecidableEq Tid] [DecidableEq Cv] in
/-- A thread that is about to print is the only one inside. -/
theorem Owned.of_entered (h : Owned role free held done c) {t : Tid} (ht : c.phase t = .entered) :
    held (role t) c.shared c.out ∧ ∀ u, (c.phase u).inside = true → u = t := by
  have hin : (c.phase t).inside = true := by rw [ht]; rfl
  cases h with
  | free hout => exact absurd (hin.symm.trans (hout t)) (by simp)
  | held v hv honly hheld =>
      obtain rfl := honly t hin
      exact ⟨hheld, honly⟩
  | done v hv honly =>
      obtain rfl := honly t hin
      exact absurd (hv.symm.trans ht) (by simp)

omit [DecidableEq Tid] [DecidableEq Cv] in
/-- So is one that has printed. -/
theorem Owned.of_printed (h : Owned role free held done c) {t : Tid} (ht : c.phase t = .printed) :
    done (role t) c.shared c.out ∧ ∀ u, (c.phase u).inside = true → u = t := by
  have hin : (c.phase t).inside = true := by rw [ht]; rfl
  cases h with
  | free hout => exact absurd (hin.symm.trans (hout t)) (by simp)
  | held v hv honly =>
      obtain rfl := honly t hin
      exact absurd (hv.symm.trans ht) (by simp)
  | done v hv honly hdone =>
      obtain rfl := honly t hin
      exact ⟨hdone, honly⟩

omit [DecidableEq Cv] in
/-- Moving a thread between phases outside leaves the owner where it is. -/
theorem Owned.outside (h : Owned role free held done c) {t : Tid} {ph : Phase Cv}
    (ht : (c.phase t).inside = false) (hph : ph.inside = false) :
    Owned role free held done { c with phase := Function.update c.phase t ph } := by
  have hin : ∀ u, (Function.update c.phase t ph u).inside = (c.phase u).inside := by
    intro u
    by_cases hu : u = t
    · subst hu
      rw [Function.update_self, hph, ht]
    · rw [Function.update_of_ne hu]
  have hne : ∀ u, (c.phase u).inside = true → Function.update c.phase t ph u = c.phase u := by
    intro u hu
    refine Function.update_of_ne ?_ _ _
    intro heq
    subst heq
    rw [ht] at hu
    exact absurd hu (by simp)
  cases h with
  | free hout hfree => exact .free (fun u => (hin u).trans (hout u)) hfree
  | held v hv honly hheld =>
      exact .held v ((hne v (by rw [hv]; rfl)).trans hv)
        (fun u hu => honly u ((hin u).symm.trans hu)) hheld
  | done v hv honly hdone =>
      exact .done v ((hne v (by rw [hv]; rfl)).trans hv)
        (fun u hu => honly u ((hin u).symm.trans hu)) hdone

/-- A step keeps the owner invariant. -/
theorem Discipline.owned_of_fired (D : Discipline P ok free held done) (hrole : ∀ t, ok (role t))
    (h : Owned role free held done c) (hf : Fired P role c c') : Owned role free held done c' := by
  cases hf with
  | @pass t sh hph hb =>
      cases h with
      | free hout hfree =>
          refine .held t (Function.update_self ..) (fun u hu => ?_)
            (D.pass _ _ _ _ (hrole t) hfree hb)
          by_contra hne
          simp only [Function.update_of_ne hne, hout u] at hu
          exact absurd hu (by simp)
      | held v _ _ hheld =>
          obtain ⟨cv, hs⟩ := D.heldBlocks _ _ _ _ (hrole t) hheld
          exact absurd (hs.symm.trans hb) (by simp)
      | done v _ _ hdone =>
          obtain ⟨cv, hs⟩ := D.doneBlocks _ _ _ _ (hrole t) hdone
          exact absurd (hs.symm.trans hb) (by simp)
  | @sleep t cv hph => exact h.outside (by rw [hph]; rfl) rfl
  | print t hph =>
      obtain ⟨hheld, honly⟩ := h.of_entered hph
      refine .done t (Function.update_self ..) (fun u hu => ?_) (D.print _ _ _ (hrole t) hheld)
      by_contra hne
      simp only [Function.update_of_ne hne] at hu
      exact hne (honly u hu)
  | after t hph =>
      obtain ⟨hdone, honly⟩ := h.of_printed hph
      refine .free (fun u => ?_) (D.after _ _ _ (hrole t) hdone)
      by_cases hu : u = t
      · simp only [hu, Function.update_self, Phase.inside]
      · simp only [Function.update_of_ne hu, inside_wake]
        by_contra hin
        exact hu (honly u (by simpa using hin))
  | @spurious t cv hph => exact h.outside (by rw [hph]; rfl) rfl

theorem Discipline.invariant (D : Discipline P ok free held done) (hrole : ∀ t, ok (role t)) :
    (system P role).Invariant (fun _ _ => True) (Owned role free held done) where
  init := by
    intro s hs
    subst hs
    exact .free (fun _ => rfl) D.init
  step := fun _ _ _ hown _ hs => D.owned_of_fired hrole hown (fired_of_fire hs)

/-- The owner invariant holds in every reachable configuration. -/
theorem Discipline.owned (D : Discipline P ok free held done) (hrole : ∀ t, ok (role t))
    (h : (system P role).Reachable c) : Owned role free held done c :=
  h.invariant (D.invariant hrole)

/-! ### Two monitors for one -/

/-- What the sections of `P` do, those of `Q` do as well, in states that `rel` relates; for
`after` it is enough that this is so where a thread has printed. -/
structure Refines {Shared' : Type u} (P : Protocol Shared Role Cv)
    (Q : Protocol Shared' Role Cv) (ok : Role → Prop) (done : Role → Shared' → List Role → Prop)
    (rel : Shared → Shared' → Prop) : Prop where
  init : rel P.init Q.init
  pass : ∀ r s s' t, ok r → rel s t → P.before r s = .pass s' →
    ∃ t', Q.before r t = .pass t' ∧ rel s' t'
  sleep : ∀ r s t cv, ok r → rel s t → P.before r s = .sleep cv → Q.before r t = .sleep cv
  after : ∀ r s t out, ok r → rel s t → done r t out →
    rel (P.after r s).1 (Q.after r t).1 ∧ (P.after r s).2 = (Q.after r t).2

/-- Every run of `P` is a run of `Q`, seen through `rel`. -/
theorem Refines.reachable {Shared' : Type u} {Q : Protocol Shared' Role Cv}
    {free : Shared' → List Role → Prop} {held done : Role → Shared' → List Role → Prop}
    {rel : Shared → Shared' → Prop} (R : Refines P Q ok done rel)
    (D : Discipline Q ok free held done) (hrole : ∀ t, ok (role t))
    (h : (system P role).Reachable c) : ∃ sh, rel c.shared sh ∧
      (system Q role).Reachable { shared := sh, phase := c.phase, out := c.out } := by
  have hinv : (system P role).Invariant (fun _ _ => True) fun c => ∃ sh, rel c.shared sh ∧
      (system Q role).Reachable { shared := sh, phase := c.phase, out := c.out } := by
    refine ⟨?_, ?_⟩
    · intro s hs
      subst hs
      exact ⟨Q.init, R.init, .init rfl⟩
    · intro s a s' hI _ hs
      obtain ⟨sh, hrel, hr⟩ := hI
      cases fired_of_fire hs with
      | @pass t sh' hph hb =>
          obtain ⟨t', hb', hrel'⟩ := R.pass _ _ _ _ (hrole t) hrel hb
          exact ⟨t', hrel', hr.step (l := .run t) (by simp [system, fire, hph, hb'])⟩
      | @sleep t cv hph hb =>
          have hb' := R.sleep _ _ _ _ (hrole t) hrel hb
          exact ⟨sh, hrel, hr.step (l := .run t) (by simp [system, fire, hph, hb'])⟩
      | print t hph =>
          exact ⟨sh, hrel, hr.step (l := .run t) (by simp [system, fire, hph])⟩
      | after t hph =>
          obtain ⟨hdone, -⟩ := (D.owned hrole hr).of_printed hph
          obtain ⟨hrel', hcv⟩ := R.after _ _ _ _ (hrole t) hrel hdone
          exact ⟨_, hrel', hr.step (l := .run t) (by simp [system, fire, hph, hcv])⟩
      | @spurious t cv hph =>
          exact ⟨sh, hrel, hr.step (l := .spurious t) (by simp [system, fire, hph])⟩
  have hI := h.invariant hinv
  exact hI

/-! ### Waking up -/

/-- A thread with the role `r` sleeps on `queue r`, and every `after` broadcasts on a
condition variable that `last` relates to the state it leaves. -/
structure Signals (P : Protocol Shared Role Cv) (ok : Role → Prop)
    (done : Role → Shared → List Role → Prop) (queue : Role → Cv)
    (last : Shared → Cv → Prop) : Prop where
  sleeps : ∀ r sh cv, P.before r sh = .sleep cv → cv = queue r
  init : ∃ cv, last P.init cv
  after : ∀ r sh out, ok r → done r sh out →
    ∃ cv, (P.after r sh).2 = some cv ∧ last (P.after r sh).1 cv

/-- Sleepers sleep where their role does; and while nobody is inside, the test of every
thread asleep on the last condition variable that was signalled would fail. -/
structure Woken (P : Protocol Shared Role Cv) (role : Tid → Role) (queue : Role → Cv)
    (last : Shared → Cv → Prop) (c : Config Tid Shared Role Cv) : Prop where
  queued : ∀ t cv, c.phase t = .asleep cv → cv = queue (role t)
  blocked : (∀ t, (c.phase t).inside = false) → ∃ cv, last c.shared cv ∧
    ∀ t, c.phase t = .asleep cv → ∃ cv', P.before (role t) c.shared = .sleep cv'

variable {queue : Role → Cv} {last : Shared → Cv → Prop}

omit [DecidableEq Tid] [DecidableEq Cv] in
/-- A thread whose test passes is not asleep, if it waits where the last signal went. -/
theorem Woken.testing (hW : Woken P role queue last c) (hout : ∀ t, (c.phase t).inside = false) :
    ∃ cv, last c.shared cv ∧ ∀ t sh, queue (role t) = cv →
      P.before (role t) c.shared = .pass sh → c.phase t = .testing := by
  obtain ⟨cv, hlast, hblocked⟩ := hW.blocked hout
  refine ⟨cv, hlast, fun t sh hq hpass => ?_⟩
  cases hph : c.phase t with
  | testing => rfl
  | asleep d =>
      obtain rfl : d = cv := (hW.queued t d hph).trans hq
      obtain ⟨e, he⟩ := hblocked t hph
      exact absurd (he.symm.trans hpass) (by simp)
  | entered => exact absurd (hout t) (by rw [hph]; simp)
  | printed => exact absurd (hout t) (by rw [hph]; simp)

omit [DecidableEq Cv] in
/-- A thread that goes inside ends the quiet. -/
theorem Woken.enter (hW : Woken P role queue last c) (t : Tid) {sh : Shared} {ph : Phase Cv}
    {out : List Role} (hph : ph.inside = true) :
    Woken P role queue last
      { shared := sh, phase := Function.update c.phase t ph, out := out } where
  queued u cv hu := by
    by_cases hut : u = t
    · simp only [hut, Function.update_self] at hu
      rw [hu] at hph
      exact absurd hph (by simp)
    · exact hW.queued u cv (by simpa only [Function.update_of_ne hut] using hu)
  blocked hout := by
    have := hout t
    simp only [Function.update_self, hph] at this
    exact absurd this (by simp)

omit [DecidableEq Cv] in
/-- A thread outside that stays outside and goes to sleep only if its test fails. -/
theorem Woken.outside (hW : Woken P role queue last c) {t : Tid} {ph : Phase Cv}
    (ht : (c.phase t).inside = false)
    (hsleep : ∀ cv, ph = .asleep cv →
      cv = queue (role t) ∧ P.before (role t) c.shared = .sleep cv) :
    Woken P role queue last { c with phase := Function.update c.phase t ph } where
  queued u cv hu := by
    by_cases hut : u = t
    · simp only [hut, Function.update_self] at hu
      rw [hut]
      exact (hsleep cv hu).1
    · exact hW.queued u cv (by simpa only [Function.update_of_ne hut] using hu)
  blocked hout := by
    have hout' : ∀ u, (c.phase u).inside = false := by
      intro u
      by_cases hut : u = t
      · rw [hut, ht]
      · simpa only [Function.update_of_ne hut] using hout u
    obtain ⟨cv, hlast, hcv⟩ := hW.blocked hout'
    refine ⟨cv, hlast, fun u hu => ?_⟩
    by_cases hut : u = t
    · simp only [hut, Function.update_self] at hu
      rw [hut]
      exact ⟨cv, (hsleep cv hu).2⟩
    · exact hcv u (by simpa only [Function.update_of_ne hut] using hu)

theorem Signals.woken_of_fired (S : Signals P ok done queue last) (hrole : ∀ t, ok (role t))
    (hown : Owned role free held done c) (hW : Woken P role queue last c)
    (hf : Fired P role c c') : Woken P role queue last c' := by
  cases hf with
  | pass t => exact hW.enter t rfl
  | @sleep t cv hph hb =>
      refine hW.outside (by rw [hph]; rfl) fun cv' hcv => ?_
      obtain rfl := Phase.asleep.inj hcv
      exact ⟨S.sleeps _ _ _ hb, hb⟩
  | print t => exact hW.enter t rfl
  | after t hph =>
      obtain ⟨cv, hcv, hlast⟩ := S.after _ _ _ (hrole t) (hown.of_printed hph).1
      have hasleep : ∀ u cv', Function.update
          (fun u => (c.phase u).wake (P.after (role t) c.shared).2) t .testing u = .asleep cv' →
            c.phase u = .asleep cv' ∧ cv ≠ cv' := by
        intro u cv' hu
        by_cases hut : u = t
        · rw [hut, Function.update_self] at hu
          exact absurd hu (by simp)
        · rw [Function.update_of_ne hut, hcv] at hu
          obtain ⟨hu', hne⟩ := asleep_of_wake hu
          exact ⟨hu', fun h => hne (by rw [h])⟩
      -- nobody is asleep on what was just signalled
      exact
        { queued := fun u cv' hu => hW.queued u cv' (hasleep u cv' hu).1
          blocked := fun _ => ⟨cv, hlast, fun u hu => absurd rfl (hasleep u cv hu).2⟩ }
  | @spurious t cv hph =>
      exact hW.outside (by rw [hph]; rfl) fun cv' hcv => absurd hcv (by simp)

/-- In every reachable configuration with nobody inside, some condition variable that may
have been the last one signalled has no thread asleep whose test would pass. -/
theorem Signals.woken (S : Signals P ok done queue last) (D : Discipline P ok free held done)
    (hrole : ∀ t, ok (role t)) (h : (system P role).Reachable c) :
    Woken P role queue last c := by
  have hinit : ∀ c, (system P role).init c → Woken P role queue last c := by
    intro c hc
    subst hc
    obtain ⟨cv, hcv⟩ := S.init
    exact
      { queued := fun t cv h => absurd h (by simp [Config.init])
        blocked := fun _ => ⟨cv, hcv, fun t h => absurd h (by simp [Config.init])⟩ }
  exact (h.invariant ((D.invariant hrole).and hinit fun _ _ _ hown hW _ hs =>
    S.woken_of_fired hrole hown hW (fired_of_fire hs))).2

end OsLabs.Monitor
