import OsLabs.Tally
import OsLabs.Transition

/-!
# OsLabs.MultiThreads.ProducerConsumer

`multi-threads/producer-consumer.c`: threads that print brackets between the `P` of
one semaphore and the `V` of the other, and the thread library of `threads.h` around
them.

`main` creates the producers and then the consumers, each of which runs its body
once; when `main` returns, `join_all` waits for the threads, the newest first, and
calls `over`. Nothing orders the threads but the two semaphores. What they count is
what the invariant says (`Inv`): a unit of `empty` is spent by a producer past its
`P` and given back by a consumer that is done, a unit of `fill` the other way round.
The prints lie between the two, so the output is balanced up to the capacity
(`producer_consumer_output`); and when nobody can move, the two equations leave one
outcome (`producer_consumer_end`).
-/

namespace OsLabs.MultiThreads.ProducerConsumer

/-- The two semaphores. -/
inductive Sem
  | fill
  | empty
  deriving DecidableEq, Repr

/-- What a thread runs. -/
inductive Entry
  | producer
  | consumer
  deriving DecidableEq, Repr

/-- Where a thread is in its body. -/
inductive Pc
  /-- Before its `P`. -/
  | wait
  /-- Before its `printf`. -/
  | print
  /-- Before its `V`. -/
  | post
  /-- `entry_all` has returned. -/
  | done
  deriving DecidableEq, Repr

/-- `struct thread`. -/
structure Thread where
  entry : Entry
  pc : Pc
  deriving DecidableEq, Repr

/-- Where the main thread is. -/
inductive MainPc
  /-- In its loops, with so many producers and consumers left to create. -/
  | create (producers consumers : Nat)
  /-- Before `join(over)`. -/
  | join
  /-- In `join_all`, after `main` has returned. -/
  | joinAll
  /-- `join_all` has called `over`. -/
  | overCalled
  deriving DecidableEq, Repr

/-- The state of the process. -/
structure State where
  /-- The values of the semaphores. -/
  sem : Sem → Nat
  /-- The brackets printed so far. -/
  output : List Char
  /-- The threads, in the order of their creation. -/
  created : List Thread
  /-- `threads`: those not joined yet, as positions in `created`, the newest first. -/
  threads : List Nat
  main : MainPc

namespace State

/-- Store a value in a semaphore. -/
def setSem (s : State) (x : Sem) (v : Nat) : State :=
  { s with sem := Function.update s.sem x v }

theorem setSem_self {s : State} {x : Sem} {v : Nat} : (s.setSem x v).sem x = v :=
  Function.update_self ..

theorem setSem_ne {s : State} {x y : Sem} {v : Nat} (h : x ≠ y) :
    (s.setSem x v).sem y = s.sem y :=
  Function.update_of_ne h.symm ..

/-- The thread `i`, which runs `entry`, goes to another place. -/
def setPc (s : State) (i : Nat) (entry : Entry) (pc : Pc) : State :=
  { s with created := s.created.set i { entry, pc } }

end State

/-- The body of a thread: `P(waits); printf(prints); V(posts)`. -/
def body (entry : Entry) (waits : Sem) (prints : Char) (posts : Sem) (s : State) (i : Nat) :
    Pc → Option State
  | .wait =>
      if s.sem waits = 0 then
        none
      else
        some ((s.setSem waits (s.sem waits - 1)).setPc i entry .print)
  | .print => some ({ s with output := s.output ++ [prints] }.setPc i entry .post)
  | .post => some ((s.setSem posts (s.sem posts + 1)).setPc i entry .done)
  | .done => none

/-- `producer`. -/
def producer : State → Nat → Pc → Option State := body .producer .empty '(' .fill

/-- `consumer`. -/
def consumer : State → Nat → Pc → Option State := body .consumer .fill ')' .empty

/-- `create(entry)`. -/
def create (s : State) (entry : Entry) : State :=
  { s with
    created := s.created ++ [{ entry, pc := .wait }]
    threads := s.created.length :: s.threads }

/-- A step of the thread `i`. -/
def threadStep (s : State) (i : Nat) : Option State :=
  match s.created[i]? with
  | none => none
  | some th =>
      match th.entry with
      | .producer => producer s i th.pc
      | .consumer => consumer s i th.pc

/-- A step of `main`, and then of `join_all`. -/
def mainStep (s : State) : Option State :=
  match s.main with
  | .create (p + 1) c => some { create s .producer with main := .create p c }
  | .create 0 (c + 1) => some { create s .consumer with main := .create 0 c }
  | .create 0 0 => some { s with main := .join }
  | .join => some { s with main := .joinAll }
  | .joinAll =>
      match s.threads with
      | [] => some { s with main := .overCalled }
      | i :: next =>
          -- `pthread_join` blocks until the thread has returned
          if (s.created[i]?.map Thread.pc) = some .done then
            some { s with threads := next }
          else
            none
  | .overCalled => none

/-- After `SEM_INIT(fill, 0)` and `SEM_INIT(empty, N)`. -/
def State.init (N p c : Nat) : State where
  sem x := match x with
    | .fill => 0
    | .empty => N
  output := []
  created := []
  threads := []
  main := .create p c

/-- The program with capacity `N`, `p` producers and `c` consumers; the label of a step
says which thread moves, `none` is the main thread. -/
def machine (N p c : Nat) : System State (Option Nat) where
  init s := s = State.init N p c
  step s l s' :=
    match l with
    | none => mainStep s = some s'
    | some i => threadStep s i = some s'

/-! ### The steps -/

/-- How many threads that run `entry` are at a place that passes a test. -/
def State.count (s : State) (entry : Entry) (q : Pc → Bool) : Nat :=
  s.created.countP fun th => th.entry = entry && q th.pc

/-- Past its `P`. -/
def Pc.entered : Pc → Bool
  | .wait => false
  | _ => true

/-- Past its `printf`. -/
def Pc.printed : Pc → Bool
  | .post | .done => true
  | _ => false

/-- Past its `V`. -/
def Pc.finished : Pc → Bool
  | .done => true
  | _ => false

/-- How many threads that run `entry` have returned. -/
def State.finished (s : State) (entry : Entry) : Nat := s.count entry Pc.finished

/-- The semaphore that a body waits for, -/
@[simp] def Entry.waits : Entry → Sem
  | .producer => .empty
  | .consumer => .fill

/-- the bracket it prints, -/
@[simp] def Entry.prints : Entry → Char
  | .producer => '('
  | .consumer => ')'

/-- and the semaphore it posts. -/
@[simp] def Entry.posts : Entry → Sem
  | .producer => .fill
  | .consumer => .empty

/-- The other kind of thread. -/
@[simp] def Entry.other : Entry → Entry
  | .producer => .consumer
  | .consumer => .producer

/-- What the semaphore a body waits for was initialised with. -/
@[simp] def Entry.capacity (N : Nat) : Entry → Nat
  | .producer => N
  | .consumer => 0

/-- How many threads there are of each kind. -/
@[simp] def Entry.total (p c : Nat) : Entry → Nat
  | .producer => p
  | .consumer => c

namespace Entry

variable (e d : Entry)

theorem other_ne : e ≠ e.other := by cases e <;> simp
theorem other_waits : e.other.waits = e.posts := by cases e <;> rfl
theorem other_other : e.other.other = e := by cases e <;> rfl
theorem posts_ne_waits : e.waits ≠ e.posts := by cases e <;> simp
theorem prints_ne : e.prints ≠ e.other.prints := by cases e <;> simp

theorem eq_or_other : d = e ∨ d = e.other := by cases e <;> cases d <;> simp

end Entry

/-- How many threads running `entry` are left to create. -/
@[simp] def MainPc.left : MainPc → Entry → Nat
  | .create p _, .producer => p
  | .create _ c, .consumer => c
  | _, _ => 0

/-- What a step does. -/
inductive Moved (s : State) : State → Prop
  | wait {i : Nat} {e : Entry} : s.created[i]? = some ⟨e, .wait⟩ → s.sem e.waits ≠ 0 →
      Moved s ((s.setSem e.waits (s.sem e.waits - 1)).setPc i e .print)
  | print {i : Nat} {e : Entry} : s.created[i]? = some ⟨e, .print⟩ →
      Moved s ({ s with output := s.output ++ [e.prints] }.setPc i e .post)
  | post {i : Nat} {e : Entry} : s.created[i]? = some ⟨e, .post⟩ →
      Moved s ((s.setSem e.posts (s.sem e.posts + 1)).setPc i e .done)
  | create {e : Entry} {m : MainPc} : s.main.left e = m.left e + 1 →
      (∀ d, d ≠ e → s.main.left d = m.left d) → (∃ p c, m = .create p c) →
      Moved s { create s e with main := m }
  | join : s.main = .create 0 0 → Moved s { s with main := .join }
  | joinAll : s.main = .join → Moved s { s with main := .joinAll }
  | joined {i : Nat} {next : List Nat} : s.main = .joinAll → s.threads = i :: next →
      s.created[i]?.map Thread.pc = some .done → Moved s { s with threads := next }
  | overCalled : s.main = .joinAll → s.threads = [] → Moved s { s with main := .overCalled }

theorem body_inv {s s' : State} {i : Nat} {e : Entry} {pc : Pc}
    (hi : s.created[i]? = some ⟨e, pc⟩)
    (h : body e e.waits e.prints e.posts s i pc = some s') : Moved s s' := by
  cases pc with
  | wait =>
      rw [body] at h
      split at h
      · exact absurd h (by simp)
      · next hsem =>
        obtain rfl := Option.some.inj h
        exact .wait hi hsem
  | print =>
      obtain rfl := Option.some.inj h
      exact .print hi
  | post =>
      obtain rfl := Option.some.inj h
      exact .post hi
  | done => exact absurd h (by simp [body])

theorem moved_of_threadStep {s s' : State} {i : Nat} (h : threadStep s i = some s') :
    Moved s s' := by
  rw [threadStep] at h
  split at h
  · exact absurd h (by simp)
  · next th hth =>
    obtain ⟨e, pc⟩ := th
    cases e with
    | producer => exact body_inv hth h
    | consumer => exact body_inv hth h

theorem moved_of_mainStep {s s' : State} (h : mainStep s = some s') : Moved s s' := by
  rw [mainStep] at h
  split at h
  · next p c hm =>
    obtain rfl := Option.some.inj h
    refine .create (by simp [hm]) ?_ ⟨p, c, rfl⟩
    intro d hd
    cases d with
    | producer => exact absurd rfl hd
    | consumer => simp [hm]
  · next c hm =>
    obtain rfl := Option.some.inj h
    refine .create (by simp [hm]) ?_ ⟨0, c, rfl⟩
    intro d hd
    cases d with
    | producer => simp [hm]
    | consumer => exact absurd rfl hd
  · next hm =>
    obtain rfl := Option.some.inj h
    exact .join hm
  · next hm =>
    obtain rfl := Option.some.inj h
    exact .joinAll hm
  · next hm =>
    split at h
    · next ht =>
      obtain rfl := Option.some.inj h
      exact .overCalled hm ht
    · next i next ht =>
      split at h
      · next hd =>
        obtain rfl := Option.some.inj h
        exact .joined hm ht hd
      · exact absurd h (by simp)
  · exact absurd h (by simp)

theorem moved_of_step {N p c : Nat} {s s' : State} {l : Option Nat}
    (h : (machine N p c).step s l s') : Moved s s' := by
  cases l with
  | none => exact moved_of_mainStep h
  | some i => exact moved_of_threadStep h

/-! ### Runs on given schedules -/

/-- The steps that the labels choose. -/
def runLabels (s : State) : List (Option Nat) → Option State
  | [] => some s
  | none :: labels => (mainStep s).bind fun s' => runLabels s' labels
  | some i :: labels => (threadStep s i).bind fun s' => runLabels s' labels

theorem reachable_of_runLabels {N p c : Nat} {s s' : State} {labels : List (Option Nat)}
    (h : (machine N p c).Reachable s) (hs : runLabels s labels = some s') :
    (machine N p c).Reachable s' := by
  induction labels generalizing s with
  | nil =>
      obtain rfl := Option.some.inj hs
      exact h
  | cons l labels ih =>
      cases l with
      | none =>
          obtain ⟨t, ht, hrest⟩ := Option.bind_eq_some_iff.mp hs
          exact ih (h.step (l := none) ht) hrest
      | some i =>
          obtain ⟨t, ht, hrest⟩ := Option.bind_eq_some_iff.mp hs
          exact ih (h.step (l := some i) ht) hrest

/-! ### The counts -/

section
variable {s : State} {i : Nat} {e d : Entry} {pc pc' : Pc} {q : Pc → Bool}

@[simp] theorem count_setSem (x : Sem) (v : Nat) : (s.setSem x v).count e q = s.count e q := rfl

@[simp] theorem count_output (o : List Char) : { s with output := o }.count e q = s.count e q :=
  rfl

@[simp] theorem count_create :
    (create s e).count d q = s.count d q + if e = d then (q .wait).toNat else 0 := by
  by_cases h : e = d
  · cases hq : q .wait <;> simp [State.count, create, h, hq]
  · simp [State.count, create, h]

/-- A move of a thread that runs `entry` changes the counts of that entry -/
theorem count_setPc (h : s.created[i]? = some ⟨e, pc⟩) (q : Pc → Bool) (pc' : Pc) :
    (s.setPc i e pc').count e q + (q pc).toNat = s.count e q + (q pc').toNat := by
  simpa [State.count, State.setPc] using
    countP_set_add (q := fun th : Thread => th.entry = e && q th.pc) (b := ⟨e, pc'⟩) h

/-- and of no other. -/
theorem count_setPc_ne (h : s.created[i]? = some ⟨e, pc⟩) (hne : e ≠ d) :
    (s.setPc i e pc').count d q = s.count d q := by
  simpa [State.count, State.setPc, hne] using
    countP_set_add (q := fun th : Thread => th.entry = d && q th.pc) (b := ⟨e, pc'⟩) h

end

/-- The invariant of a run with capacity `N`, `p` producers and `c` consumers. -/
structure Inv (N p c : Nat) (s : State) : Prop where
  /-- A thread past its `P` has taken a unit of a semaphore; a thread of the other kind
  that has returned has given one. -/
  balance : ∀ e : Entry,
    s.sem e.waits + s.count e Pc.entered = e.capacity N + s.count e.other Pc.finished
  output : ∀ e : Entry, s.output.count e.prints = s.count e Pc.printed
  created : ∀ e : Entry, s.count e (fun _ => true) + s.main.left e = e.total p c
  /-- A thread that is not in the list any more has returned. -/
  joined : ∀ i, i < s.created.length → i ∉ s.threads → s.created[i]?.map Thread.pc = some .done
  bound : ∀ i ∈ s.threads, i < s.created.length
  overCalled : s.main = .overCalled → s.threads = []

theorem inv_init (N p c : Nat) : Inv N p c (State.init N p c) where
  balance e := by cases e <;> simp [State.init, State.count]
  output e := by cases e <;> simp [State.init, State.count]
  created e := by cases e <;> simp [State.init, State.count]
  joined := by simp [State.init]
  bound := by simp [State.init]
  overCalled := by simp [State.init]

section
variable {N p c : Nat} {s s' : State}

/-- A thread that has not returned moves on in its body. -/
theorem inv_of_setPc {t : State} {i : Nat} {e : Entry} {pc pc' : Pc} (h : Inv N p c s)
    (hi : s.created[i]? = some ⟨e, pc⟩) (hpc : pc ≠ .done)
    (hbalance : ∀ d : Entry, t.sem d.waits + (t.setPc i e pc').count d Pc.entered =
      d.capacity N + (t.setPc i e pc').count d.other Pc.finished)
    (hout : ∀ d : Entry, t.output.count d.prints = (t.setPc i e pc').count d Pc.printed)
    (hcreated : t.created = s.created) (hthreads : t.threads = s.threads)
    (hmain : t.main = s.main) : Inv N p c (t.setPc i e pc') := by
  have hti : t.created[i]? = some ⟨e, pc⟩ := hcreated ▸ hi
  have hmem : i ∈ s.threads := by
    by_contra hnot
    obtain ⟨hlt, -⟩ := List.getElem?_eq_some_iff.mp hi
    have := h.joined i hlt hnot
    rw [hi] at this
    exact hpc (Option.some.inj this)
  constructor
  case balance => exact hbalance
  case output => exact hout
  case created =>
    intro d
    have hts : t.count d (fun _ => true) = s.count d fun _ => true := by
      rw [State.count, hcreated, State.count]
    have hd : (t.setPc i e pc').count d (fun _ => true) = t.count d fun _ => true := by
      by_cases hed : e = d
      · subst hed
        have := count_setPc hti (fun _ => true) pc'
        omega
      · exact count_setPc_ne hti hed
    rw [hd, hts, show (t.setPc i e pc').main = s.main from hmain]
    exact h.created d
  case joined =>
    intro j hj hnot
    have hj' : j < s.created.length := by simpa [State.setPc, hcreated] using hj
    have hnot' : j ∉ s.threads := by simpa [State.setPc, hthreads] using hnot
    have hne : i ≠ j := fun heq => hnot' (heq ▸ hmem)
    simpa [State.setPc, hcreated, hne] using h.joined j hj' hnot'
  case bound =>
    intro j hj
    have hj' : j ∈ s.threads := by simpa [State.setPc, hthreads] using hj
    simpa [State.setPc, hcreated] using h.bound j hj'
  case overCalled =>
    intro hm
    have := h.overCalled (hmain ▸ hm)
    simpa [State.setPc, hthreads] using this

theorem inv_of_wait {i : Nat} {e : Entry} (h : Inv N p c s)
    (hi : s.created[i]? = some ⟨e, .wait⟩) (hsem : s.sem e.waits ≠ 0) :
    Inv N p c ((s.setSem e.waits (s.sem e.waits - 1)).setPc i e .print) := by
  have hi' : (s.setSem e.waits (s.sem e.waits - 1)).created[i]? = some ⟨e, .wait⟩ := hi
  refine inv_of_setPc h hi (by simp) (fun d => ?_) (fun d => ?_) rfl rfl rfl
  · have hbal := h.balance d
    rcases Entry.eq_or_other e d with rfl | rfl
    · rw [count_setPc_ne hi' d.other_ne, count_setSem, State.setSem_self]
      have hent := count_setPc hi' Pc.entered .print
      simp only [Pc.entered, count_setSem, Bool.toNat_false, Bool.toNat_true] at hent
      omega
    · rw [Entry.other_other] at hbal ⊢
      rw [count_setPc_ne hi' e.other_ne, count_setSem, Entry.other_waits,
        State.setSem_ne e.posts_ne_waits]
      have hfin := count_setPc hi' Pc.finished .print
      simp only [Pc.finished, count_setSem, Bool.toNat_false] at hfin
      rw [Entry.other_waits] at hbal
      omega
  · have hout := h.output d
    rcases Entry.eq_or_other e d with rfl | rfl
    · have hpr := count_setPc hi' Pc.printed .print
      simp only [Pc.printed, count_setSem, Bool.toNat_false] at hpr
      show s.output.count _ = _
      omega
    · rw [count_setPc_ne hi' e.other_ne]
      exact hout

theorem inv_of_print {i : Nat} {e : Entry} (h : Inv N p c s)
    (hi : s.created[i]? = some ⟨e, .print⟩) :
    Inv N p c ({ s with output := s.output ++ [e.prints] }.setPc i e .post) := by
  have hi' : { s with output := s.output ++ [e.prints] }.created[i]? = some ⟨e, .print⟩ := hi
  refine inv_of_setPc h hi (by simp) (fun d => ?_) (fun d => ?_) rfl rfl rfl
  · have hbal := h.balance d
    rcases Entry.eq_or_other e d with rfl | rfl
    · rw [count_setPc_ne hi' d.other_ne]
      have hent := count_setPc hi' Pc.entered .post
      simp only [Pc.entered, count_output, Bool.toNat_true] at hent
      show s.sem _ + _ = _ + s.count _ _
      omega
    · rw [Entry.other_other] at hbal ⊢
      rw [count_setPc_ne hi' e.other_ne]
      have hfin := count_setPc hi' Pc.finished .post
      simp only [Pc.finished, count_output, Bool.toNat_false] at hfin
      show s.sem _ + s.count _ _ = _
      omega
  · have hout := h.output d
    rcases Entry.eq_or_other e d with rfl | rfl
    · have hpr := count_setPc hi' Pc.printed .post
      simp only [Pc.printed, count_output, Bool.toNat_false, Bool.toNat_true] at hpr
      show (s.output ++ [d.prints]).count _ = _
      rw [List.count_append, List.count_singleton_self]
      omega
    · rw [count_setPc_ne hi' e.other_ne]
      show (s.output ++ [e.prints]).count _ = s.count _ _
      rw [List.count_append, List.count_singleton, if_neg (by simpa using e.prints_ne)]
      exact hout

theorem inv_of_post {i : Nat} {e : Entry} (h : Inv N p c s)
    (hi : s.created[i]? = some ⟨e, .post⟩) :
    Inv N p c ((s.setSem e.posts (s.sem e.posts + 1)).setPc i e .done) := by
  have hi' : (s.setSem e.posts (s.sem e.posts + 1)).created[i]? = some ⟨e, .post⟩ := hi
  refine inv_of_setPc h hi (by simp) (fun d => ?_) (fun d => ?_) rfl rfl rfl
  · have hbal := h.balance d
    rcases Entry.eq_or_other e d with rfl | rfl
    · rw [count_setPc_ne hi' d.other_ne, count_setSem, State.setSem_ne d.posts_ne_waits.symm]
      have hent := count_setPc hi' Pc.entered .done
      simp only [Pc.entered, count_setSem, Bool.toNat_true] at hent
      omega
    · rw [Entry.other_other, Entry.other_waits] at hbal ⊢
      rw [count_setPc_ne hi' e.other_ne, count_setSem, State.setSem_self]
      have hfin := count_setPc hi' Pc.finished .done
      simp only [Pc.finished, count_setSem, Bool.toNat_false, Bool.toNat_true] at hfin
      omega
  · have hout := h.output d
    rcases Entry.eq_or_other e d with rfl | rfl
    · have hpr := count_setPc hi' Pc.printed .done
      simp only [Pc.printed, count_setSem, Bool.toNat_true] at hpr
      show s.output.count _ = _
      omega
    · rw [count_setPc_ne hi' e.other_ne]
      exact hout

theorem inv_of_create {e : Entry} {m : MainPc} (h : Inv N p c s)
    (hleft : s.main.left e = m.left e + 1) (hother : ∀ d, d ≠ e → s.main.left d = m.left d)
    (hm : ∃ p c, m = .create p c) : Inv N p c { create s e with main := m } := by
  have hq : ∀ d (q : Pc → Bool), q .wait = false →
      { create s e with main := m }.count d q = s.count d q := by
    intro d q hq
    show (create s e).count d q = _
    simp [hq]
  constructor
  case balance =>
    intro d
    rw [hq d _ rfl, hq d.other _ rfl]
    exact h.balance d
  case output =>
    intro d
    rw [hq d _ rfl]
    exact h.output d
  case created =>
    intro d
    have hc := h.created d
    show (create s e).count d (fun _ => true) + m.left d = _
    rw [count_create]
    by_cases hde : e = d
    · subst hde
      rw [if_pos rfl]
      show _ + 1 + _ = _
      omega
    · rw [if_neg hde, ← hother d (Ne.symm hde)]
      exact hc
  case joined =>
    intro i hi hnot
    have hnot' : i ≠ s.created.length ∧ i ∉ s.threads := by simpa [create] using hnot
    have hi' : i < s.created.length := by
      have : i < s.created.length + 1 := by simpa [create] using hi
      omega
    simpa [create, List.getElem?_append_left hi'] using h.joined i hi' hnot'.2
  case bound =>
    intro i hi
    rcases (by simpa [create] using hi : i = s.created.length ∨ i ∈ s.threads) with rfl | hi
    · simp [create]
    · have := h.bound i hi
      simp only [create, List.length_append, List.length_singleton]
      omega
  case overCalled =>
    obtain ⟨p', c', rfl⟩ := hm
    intro hm
    exact absurd hm (by simp)

/-- The main thread goes to a place with as many threads left to create. -/
theorem inv_of_main {m : MainPc} (h : Inv N p c s) (hleft : ∀ e, m.left e = s.main.left e)
    (hover : m = .overCalled → s.threads = []) : Inv N p c { s with main := m } where
  balance := h.balance
  output := h.output
  created e := by
    show s.count e (fun _ => true) + m.left e = _
    rw [hleft]
    exact h.created e
  joined := h.joined
  bound := h.bound
  overCalled := hover

theorem inv_of_moved (h : Inv N p c s) (hm : Moved s s') : Inv N p c s' := by
  cases hm with
  | wait hi hsem => exact inv_of_wait h hi hsem
  | print hi => exact inv_of_print h hi
  | post hi => exact inv_of_post h hi
  | create hleft hother hm => exact inv_of_create h hleft hother hm
  | join hm => exact inv_of_main h (fun e => by cases e <;> simp [hm]) (by simp)
  | joinAll hm => exact inv_of_main h (fun e => by cases e <;> simp [hm]) (by simp)
  | @joined i next hm ht hd =>
      refine ⟨h.balance, h.output, h.created, ?_, ?_, by simp [hm]⟩
      · intro j hj hnot
        by_cases hji : j = i
        · exact hji ▸ hd
        · exact h.joined j hj (by simp [ht, hji, hnot])
      · intro j hj
        exact h.bound j (by simp [ht, hj])
  | overCalled hm ht => exact inv_of_main h (fun e => by cases e <;> simp [hm]) fun _ => ht

theorem inv_of_reachable (h : (machine N p c).Reachable s) : Inv N p c s := by
  have hinv : (machine N p c).Invariant (fun _ _ => True) (Inv N p c) :=
    { init := by
        intro s hs
        subst hs
        exact inv_init N p c
      step := fun s l s' hI _ hs => inv_of_moved hI (moved_of_step hs) }
  exact h.invariant hinv

/-! ### The output -/

theorem count_mono {e : Entry} {q r : Pc → Bool} (h : ∀ pc, q pc = true → r pc = true) :
    s.count e q ≤ s.count e r := by
  refine List.countP_mono_left fun th _ hth => ?_
  simp only [Bool.and_eq_true] at hth ⊢
  exact ⟨hth.1, h _ hth.2⟩

theorem finished_le_printed (e : Entry) : s.count e Pc.finished ≤ s.count e Pc.printed :=
  count_mono (by intro pc; cases pc <;> simp [Pc.finished, Pc.printed])

theorem printed_le_entered (e : Entry) : s.count e Pc.printed ≤ s.count e Pc.entered :=
  count_mono (by intro pc; cases pc <;> simp [Pc.printed, Pc.entered])

/-- As many brackets are printed as threads have entered at least and are done at most. -/
theorem Inv.balanced (h : Inv N p c s) :
    s.output.count ')' ≤ s.output.count '(' ∧ s.output.count '(' ≤ s.output.count ')' + N := by
  have hp : s.output.count '(' = s.count .producer Pc.printed := h.output .producer
  have hc : s.output.count ')' = s.count .consumer Pc.printed := h.output .consumer
  have hempty : s.sem .empty + s.count .producer Pc.entered = N + s.count .consumer Pc.finished :=
    h.balance .producer
  have hfill : s.sem .fill + s.count .consumer Pc.entered = 0 + s.count .producer Pc.finished :=
    h.balance .consumer
  have h1 := finished_le_printed (s := s) .producer
  have h2 := finished_le_printed (s := s) .consumer
  have h3 := printed_le_entered (s := s) .producer
  have h4 := printed_le_entered (s := s) .consumer
  omega

/-- `"()"`, so many times. -/
def rounds (k : Nat) : List Char := (List.replicate k ['(', ')']).flatten

theorem rounds_succ (k : Nat) : rounds (k + 1) = rounds k ++ ['('] ++ [')'] := by
  simp [rounds, List.replicate_succ']

theorem count_rounds (k : Nat) : (rounds k).count '(' = k ∧ (rounds k).count ')' = k := by
  induction k with
  | zero => exact ⟨rfl, rfl⟩
  | succ k ih => simp [rounds_succ, ih]

/-- Output that alternates. -/
def Alternates (output : List Char) : Prop :=
  ∃ k, output = rounds k ∨ output = rounds k ++ ['(']

/-- With capacity 1 there is one bracket that can be printed. -/
theorem alternates_of_moved (h' : Inv 1 p c s') (ha : Alternates s.output) (hm : Moved s s') :
    Alternates s'.output := by
  have hbal := h'.balanced
  cases hm with
  | @print i e hi =>
      obtain ⟨k, ha⟩ := ha
      have hk := count_rounds k
      have hout : (s.output ++ [e.prints]).count ')' ≤ (s.output ++ [e.prints]).count '(' ∧
        (s.output ++ [e.prints]).count '(' ≤ (s.output ++ [e.prints]).count ')' + 1 := hbal
      show Alternates (s.output ++ [e.prints])
      cases e with
      | producer =>
          rcases ha with ha | ha
          · exact ⟨k, .inr (by rw [ha]; rfl)⟩
          · simp [ha, hk] at hout
      | consumer =>
          rcases ha with ha | ha
          · exact absurd hout.1 (by simp [ha, hk])
          · exact ⟨k + 1, .inl (by rw [ha, rounds_succ]; rfl)⟩
  | wait | post | create | join | joinAll | joined | overCalled => exact ha

theorem Alternates.prefix_rounds {output : List Char} (h : Alternates output) :
    ∃ k, output <+: rounds k := by
  obtain ⟨k, rfl | rfl⟩ := h
  · exact ⟨k, List.prefix_refl _⟩
  · exact ⟨k + 1, by rw [rounds_succ]; exact List.prefix_append _ _⟩

end

/-- At every moment of every run, between 0 and `N` of the brackets printed are open; with
capacity 1 the output is a beginning of `"()()()…"`. -/
theorem producer_consumer_output {N p c : Nat} {s : State} (h : (machine N p c).Reachable s) :
    (s.output.count ')' ≤ s.output.count '(' ∧ s.output.count '(' ≤ s.output.count ')' + N) ∧
      (N = 1 → ∃ k, s.output <+: rounds k) := by
  refine ⟨(inv_of_reachable h).balanced, ?_⟩
  intro hN
  subst hN
  have hinv : (machine 1 p c).Invariant (fun _ _ => True)
      fun s => Inv 1 p c s ∧ Alternates s.output :=
    { init := by
        intro s hs
        subst hs
        exact ⟨inv_init 1 p c, 0, .inl rfl⟩
      step := by
        intro s l s' hI _ hs
        have hm := moved_of_step hs
        have h' := inv_of_moved hI.1 hm
        exact ⟨h', alternates_of_moved h' hI.2 hm⟩ }
  exact (h.invariant hinv).2.prefix_rounds

/-- The program of the file after a producer, the consumer and another producer. -/
theorem producer_consumer_output_file :
    ∃ s : State, s.output = ['(', ')', '('] ∧
      (s.output.count ')' ≤ s.output.count '(' ∧ s.output.count '(' ≤ s.output.count ')' + 1) ∧
      (1 = 1 → ∃ k, s.output <+: rounds k) := by
  obtain ⟨s, hs, hout⟩ : ∃ s, runLabels (State.init 1 3 1)
      [none, none, some 0, none, some 0, none, some 0, some 3, some 3, some 3, some 1, some 1] =
        some s ∧ s.output = ['(', ')', '('] :=
    Option.map_eq_some_iff.mp (by decide)
  exact ⟨s, hout, producer_consumer_output (reachable_of_runLabels (.init rfl) hs)⟩

/-! ### The end -/

/-- The steps a thread has left. -/
def Pc.remaining : Pc → Nat
  | .wait => 3
  | .print => 2
  | .post => 1
  | .done => 0

/-- The steps the main thread has left, the joins apart; with a thread to create come its
three steps and its `pthread_join`. -/
def MainPc.remaining : MainPc → Nat
  | .create p c => 5 * (p + c) + 3
  | .join => 2
  | .joinAll => 1
  | .overCalled => 0

/-- The steps left. -/
def State.work (s : State) : Nat :=
  s.main.remaining + s.threads.length + tally (fun th => th.pc.remaining) s.created

section
variable {N p c : Nat} {s s' : State}

theorem work_setPc {i : Nat} {e : Entry} {pc pc' : Pc} (hi : s.created[i]? = some ⟨e, pc⟩)
    (hlt : pc'.remaining < pc.remaining) : (s.setPc i e pc').work < s.work := by
  have hset := tally_set (f := fun th : Thread => th.pc.remaining) (b := ⟨e, pc'⟩) hi
  have hwork : (s.setPc i e pc').work = s.main.remaining + s.threads.length +
      tally (fun th => th.pc.remaining) (s.created.set i ⟨e, pc'⟩) := rfl
  rw [hwork, State.work]
  simp only at hset
  omega

theorem work_create {e : Entry} {m : MainPc} (hleft : s.main.left e = m.left e + 1)
    (hother : ∀ d, d ≠ e → s.main.left d = m.left d) (hm : ∃ p c, m = .create p c) :
    ({ create s e with main := m } : State).work < s.work := by
  obtain ⟨p', c', rfl⟩ := hm
  have hrem : s.main.remaining = (MainPc.create p' c').remaining + 5 := by
    cases hmain : s.main with
    | create p c =>
        rw [hmain] at hleft hother
        have := hother e.other e.other_ne.symm
        cases e <;> simp at hleft this <;> simp only [MainPc.remaining] <;> omega
    | join | joinAll | overCalled => simp [hmain] at hleft
  show _ + (s.created.length :: s.threads).length + tally _ (s.created ++ [⟨e, .wait⟩]) < _ + _ + _
  rw [tally_append_singleton, hrem, List.length_cons]
  simp only [Pc.remaining]
  omega

theorem work_lt (hm : Moved s s') : s'.work < s.work := by
  cases hm with
  | wait hi hsem => exact work_setPc (s := s.setSem _ _) hi (by decide)
  | print hi => exact work_setPc (s := { s with output := _ }) hi (by decide)
  | post hi => exact work_setPc (s := s.setSem _ _) hi (by decide)
  | create hleft hother hm => exact work_create hleft hother hm
  | join hm => simp [State.work, MainPc.remaining, hm]
  | joinAll hm => simp [State.work, MainPc.remaining, hm]
  | joined hm ht hd => simp [State.work, ht]
  | overCalled hm ht => simp [State.work, MainPc.remaining, hm]

/-- When nobody can move, a thread has returned or waits for a unit. -/
theorem done_or_wait_of_final (hf : (machine N p c).Final s) {i : Nat} {th : Thread}
    (hi : s.created[i]? = some th) : th.pc = .done ∨ th.pc = .wait ∧ s.sem th.entry.waits = 0 := by
  have hstep : threadStep s i = none := by
    cases h : threadStep s i with
    | none => rfl
    | some s' => exact absurd h (hf (some i) s')
  obtain ⟨e, pc⟩ := th
  have hbody : body e e.waits e.prints e.posts s i pc = none := by
    rw [threadStep, hi] at hstep
    cases e with
    | producer => exact hstep
    | consumer => exact hstep
  cases pc with
  | wait =>
      rw [body] at hbody
      split at hbody
      · next hsem => exact .inr ⟨rfl, hsem⟩
      · exact absurd hbody (by simp)
  | print | post => exact absurd hbody (by simp [body])
  | done => exact .inl rfl

/-- The main thread has called `over`, or waits for a thread that has not returned. -/
theorem main_of_final (hf : (machine N p c).Final s) :
    s.main = .overCalled ∨ s.main = .joinAll ∧ ∃ i next, s.threads = i :: next ∧
      s.created[i]?.map Thread.pc ≠ some .done := by
  have hstep : mainStep s = none := by
    cases h : mainStep s with
    | none => rfl
    | some s' => exact absurd h (hf none s')
  rw [mainStep] at hstep
  split at hstep
  · exact absurd hstep (by simp)
  · exact absurd hstep (by simp)
  · exact absurd hstep (by simp)
  · exact absurd hstep (by simp)
  · next hm =>
    split at hstep
    · exact absurd hstep (by simp)
    · next i next ht =>
      split at hstep
      · exact absurd hstep (by simp)
      · next hd => exact .inr ⟨hm, i, next, ht, hd⟩
  · next hm => exact .inl hm

/-- All threads of a kind have returned exactly when that many have. -/
theorem finished_eq_iff {e : Entry} :
    s.finished e = s.count e (fun _ => true) ↔ ∀ th ∈ s.created, th.entry = e → th.pc = .done := by
  refine ⟨?_, ?_⟩
  · intro h th hth he
    have hpass := of_countP_eq (fun th _ h => by simp at h ⊢; exact h.1) h th hth (by simp [he])
    obtain ⟨e, pc⟩ := th
    cases pc with
    | done => rfl
    | wait | print | post => simp [Pc.finished] at hpass
  · intro h
    refine List.countP_congr fun th hth => ?_
    by_cases he : th.entry = e
    · simp [he, h th hth he, Pc.finished]
    · simp [he]

theorem entered_eq_finished (h : ∀ th ∈ s.created, th.pc = .done ∨ th.pc = .wait) (e : Entry) :
    s.count e Pc.entered = s.finished e := by
  refine List.countP_congr fun th hth => ?_
  rcases h th hth with hpc | hpc <;> simp [hpc, Pc.entered, Pc.finished]

theorem left_of_joinAll_or_over (h : s.main = .joinAll ∨ s.main = .overCalled) (e : Entry) :
    s.main.left e = 0 := by
  rcases h with h | h <;> cases e <;> simp [h]

/-- The threads that have returned when nobody can move. -/
theorem finished_of_final (hN : 1 ≤ N) (h : Inv N p c s) (hf : (machine N p c).Final s) :
    s.finished .producer = min p (c + N) ∧ s.finished .consumer = min c p := by
  have hpc : ∀ th ∈ s.created, th.pc = .done ∨ th.pc = .wait ∧ s.sem th.entry.waits = 0 := by
    intro th hth
    obtain ⟨i, hi⟩ := List.mem_iff_getElem?.mp hth
    exact done_or_wait_of_final hf hi
  have hentered := entered_eq_finished fun th hth => (hpc th hth).imp_right And.left
  have hleft := left_of_joinAll_or_over
    ((main_of_final hf).elim .inr fun hm => .inl hm.1)
  -- a kind of which not all have returned has one that waits
  have hblocked : ∀ e : Entry, s.sem e.waits = 0 ∨ s.finished e = e.total p c := by
    intro e
    by_cases hsem : s.sem e.waits = 0
    · exact .inl hsem
    · refine .inr ?_
      rw [← h.created e, hleft e, Nat.add_zero, finished_eq_iff]
      intro th hth he
      exact (hpc th hth).elim id fun hw => absurd (he ▸ hw.2) hsem
  have hle : ∀ e : Entry, s.finished e ≤ e.total p c := by
    intro e
    rw [← h.created e, hleft e, Nat.add_zero]
    exact count_mono fun _ _ => rfl
  have hempty := h.balance .producer
  have hfill := h.balance .consumer
  rw [hentered] at hempty hfill
  have hp := hblocked .producer
  have hc := hblocked .consumer
  have hlep := hle .producer
  have hlec := hle .consumer
  simp only [Entry.waits, Entry.capacity, Entry.other, Entry.total] at *
  show s.finished .producer = _ ∧ s.finished .consumer = _
  rw [← State.finished] at hempty hfill
  omega

/-- After the joins all threads have returned. -/
theorem finished_of_over (h : Inv N p c s) (hm : s.main = .overCalled) (e : Entry) :
    s.finished e = e.total p c := by
  rw [← h.created e, left_of_joinAll_or_over (.inr hm) e, Nat.add_zero, finished_eq_iff]
  intro th hth _
  obtain ⟨i, hi⟩ := List.mem_iff_getElem?.mp hth
  obtain ⟨hlt, -⟩ := List.getElem?_eq_some_iff.mp hi
  have := h.joined i hlt (by simp [h.overCalled hm])
  rw [hi] at this
  exact Option.some.inj this

theorem total_of_over (h : Inv N p c s) (hm : s.main = .overCalled) : c ≤ p ∧ p ≤ c + N := by
  have hent : ∀ e : Entry, s.finished e ≤ s.count e Pc.entered := by
    intro e
    exact Nat.le_trans (finished_le_printed e) (printed_le_entered e)
  have hentp := hent .producer
  have hentc := hent .consumer
  have hempty := h.balance .producer
  have hfill := h.balance .consumer
  have hp := finished_of_over h hm .producer
  have hc := finished_of_over h hm .consumer
  simp only [State.finished, Entry.waits, Entry.capacity, Entry.other, Entry.total] at *
  omega

/-- When nobody can move and all have returned, the main thread has called `over`. -/
theorem over_of_finished (h : Inv N p c s) (hf : (machine N p c).Final s)
    (hfin : ∀ e : Entry, s.finished e = e.total p c) : s.main = .overCalled := by
  rcases main_of_final hf with hm | ⟨hm, i, next, ht, hd⟩
  · exact hm
  · have hi := h.bound i (by simp [ht])
    obtain ⟨th, hth⟩ : ∃ th, s.created[i]? = some th := ⟨_, List.getElem?_eq_getElem hi⟩
    have hall : s.finished th.entry = s.count th.entry fun _ => true := by
      rw [hfin, ← h.created, left_of_joinAll_or_over (.inl hm), Nat.add_zero]
    have := finished_eq_iff.mp hall th (List.mem_of_getElem? hth) rfl
    exact absurd (by rw [hth, Option.map_some, this]) hd

end

/-- Every run ends, with `min p (c + N)` producers and `min c p` consumers returned, and it
has called `over` exactly when `c ≤ p ≤ c + N`. -/
theorem producer_consumer_end {N : Nat} (hN : 1 ≤ N) (p c : Nat) :
    (∀ run : Nat → State, (machine N p c).init (run 0) →
      ¬ ∀ n, ∃ l, (machine N p c).step (run n) l (run (n + 1))) ∧
    (∀ s, (machine N p c).Reachable s → (machine N p c).Final s →
      (s.finished .producer = min p (c + N) ∧ s.finished .consumer = min c p) ∧
        (s.main = .overCalled ↔ c ≤ p ∧ p ≤ c + N)) ∧
    ∀ s, (machine N p c).Reachable s → s.main = .overCalled → c ≤ p ∧ p ≤ c + N := by
  refine ⟨?_, ?_, ?_⟩
  · intro run _
    exact System.not_forever State.work (fun s l s' hs => work_lt (moved_of_step hs)) run
  · intro s hs hf
    have h := inv_of_reachable hs
    have hfin := finished_of_final hN h hf
    refine ⟨hfin, total_of_over h, ?_⟩
    intro hpc
    refine over_of_finished h hf fun e => ?_
    cases e with
    | producer => simp only [Entry.total]; omega
    | consumer => simp only [Entry.total]; omega
  · intro s hs hm
    exact total_of_over (inv_of_reachable hs) hm

/-- With the numbers of the file, a producer is left waiting and `over` is never called. -/
theorem producer_consumer_end_file :
    ¬ ∃ s : State, (machine 1 3 1).Reachable s ∧ s.main = .overCalled := by
  intro h
  obtain ⟨s, hs, hm⟩ := h
  exact absurd ((producer_consumer_end (by decide) 3 1).2.2 s hs hm) (by decide)

end OsLabs.MultiThreads.ProducerConsumer
