import Mathlib.Logic.Function.Basic
import OsLabs.Transition

/-!
# OsLabs.MultiThreads.Lock

`multi-threads/threads.h`: the lock made of `atomic_xchg`, for threads that call `lock`
and `unlock` in whatever order, except that a thread calls `unlock` only while it holds
the lock. It may call `lock` while it holds the lock, and then spins for ever.

An exchange that fails writes the 1 that is there already. So the word is 1 as long as
there is an owner (`Thread.owner`): a thread whose exchange has just returned 0, or one
between the return of `lock` and its `unlock`.
-/

namespace OsLabs.MultiThreads.Lock

/-- `atomic_xchg`: the result and what is in `*addr` afterwards. -/
def atomicXchg (addr newval : Int) : Int × Int := (addr, newval)

/-- Where a thread is. -/
inductive Pc
  /-- In its own code, outside `lock` and `unlock`. -/
  | user
  /-- `lock`: the exchange of the loop. -/
  | lock
  /-- `lock`: the exchange returned `value`, which is tested next. -/
  | test (value : Int)
  /-- `unlock`: the exchange. -/
  | unlock
  deriving DecidableEq, Repr

/-- What a thread calls. -/
inductive Call
  | lock
  | unlock
  deriving DecidableEq, Repr

/-- A thread: is it between the return of `lock` and its `unlock`, and where is it? -/
structure Thread where
  inside : Bool
  pc : Pc
  deriving DecidableEq, Repr

/-- Has its exchange just returned 0, with the test still to come? -/
@[simp] def Thread.exchanged (th : Thread) : Bool := th.pc = .test 0

/-- Has the thread the lock to itself? -/
@[simp] def Thread.owner (th : Thread) : Bool := th.inside || th.exchanged

universe u

/-- The lock word and the threads. -/
structure State (Tid : Type u) where
  locked : Int
  threads : Tid → Thread

variable {Tid : Type u} [DecidableEq Tid]

/-- Let a thread move to another place. -/
def State.move (s : State Tid) (t : Tid) (th : Thread) : State Tid :=
  { s with threads := Function.update s.threads t th }

@[simp] theorem move_locked (s : State Tid) (t : Tid) (th : Thread) :
    (s.move t th).locked = s.locked := rfl

@[simp] theorem move_self (s : State Tid) (t : Tid) (th : Thread) :
    (s.move t th).threads t = th :=
  Function.update_self ..

theorem move_ne {s : State Tid} {t u : Tid} {th : Thread} (h : u ≠ t) :
    (s.move t th).threads u = s.threads u :=
  Function.update_of_ne h ..

/-- One atomic step of the thread `t`; in its own code it makes the given call. -/
def step (t : Tid) (call : Call) (s : State Tid) : Option (State Tid) :=
  let th := s.threads t
  match th.pc with
  | .user =>
      match call with
      | .lock => some (s.move t { th with pc := .lock })
      | .unlock => if th.inside then some (s.move t { th with pc := .unlock }) else none
  | .lock =>
      let (result, locked) := atomicXchg s.locked 1
      some ({ s with locked }.move t { th with pc := .test result })
  | .test value =>
      if value = 0 then
        some (s.move t { inside := true, pc := .user })
      else
        some (s.move t { th with pc := .lock })
  | .unlock =>
      some ({ s with locked := (atomicXchg s.locked 0).2 }.move t { inside := false, pc := .user })

/-- `intptr_t locked = 0;`, with all threads in their own code. -/
def State.init : State Tid where
  locked := 0
  threads _ := { inside := false, pc := .user }

/-- The threads in any order, each calling what it likes. -/
def machine (Tid : Type u) [DecidableEq Tid] : System (State Tid) (Tid × Call) where
  init s := s = State.init
  step s l s' := step l.1 l.2 s = some s'

/-- The steps of a thread. -/
inductive Moved (s : State Tid) (t : Tid) : State Tid → Prop
  | callLock : (s.threads t).pc = .user →
      Moved s t (s.move t { s.threads t with pc := .lock })
  | callUnlock : (s.threads t).pc = .user → (s.threads t).inside = true →
      Moved s t (s.move t { s.threads t with pc := .unlock })
  | exchange : (s.threads t).pc = .lock →
      Moved s t ({ s with locked := 1 }.move t { s.threads t with pc := .test s.locked })
  | enter : (s.threads t).pc = .test 0 →
      Moved s t (s.move t { inside := true, pc := .user })
  | again {value : Int} : (s.threads t).pc = .test value → value ≠ 0 →
      Moved s t (s.move t { s.threads t with pc := .lock })
  | release : (s.threads t).pc = .unlock →
      Moved s t ({ s with locked := 0 }.move t { inside := false, pc := .user })

theorem moved_of_step {s s' : State Tid} {t : Tid} {call : Call} (h : step t call s = some s') :
    Moved s t s' := by
  unfold step at h
  dsimp only at h
  split at h
  · next hpc =>
    split at h
    · obtain rfl := Option.some.inj h
      exact .callLock hpc
    · split at h
      · next hin =>
        obtain rfl := Option.some.inj h
        exact .callUnlock hpc hin
      · exact absurd h (by simp)
  · next hpc =>
    obtain rfl := Option.some.inj h
    exact .exchange hpc
  · next value hpc =>
    split at h
    · next hzero =>
      subst hzero
      obtain rfl := Option.some.inj h
      exact .enter hpc
    · next hne =>
      obtain rfl := Option.some.inj h
      exact .again hpc hne
  · next hpc =>
    obtain rfl := Option.some.inj h
    exact .release hpc

/-- What holds whatever the threads do. -/
structure Inv (s : State Tid) : Prop where
  /-- The lock is free, and nobody owns it; or it is taken, and one thread does. -/
  owner : (s.locked = 0 ∧ ∀ t, (s.threads t).owner = false) ∨
    (s.locked = 1 ∧ ∃ t, ∀ u, (s.threads u).owner = true ↔ u = t)
  /-- A thread that calls `unlock` is inside. -/
  unlock : ∀ t, (s.threads t).pc = .unlock → (s.threads t).inside = true

section
variable {s s' : State Tid} {t : Tid} {th : Thread}

omit [DecidableEq Tid] in
/-- An owner has the lock to itself. -/
theorem Inv.taken (h : Inv s) (ht : (s.threads t).owner = true) :
    s.locked = 1 ∧ ∀ u, (s.threads u).owner = true ↔ u = t := by
  rcases h.owner with ⟨-, hall⟩ | ⟨h1, v, hv⟩
  · rw [hall t] at ht
    exact absurd ht (by simp)
  · obtain rfl : t = v := (hv t).mp ht
    exact ⟨h1, hv⟩

theorem Inv.unlock_move (h : Inv s) (hth : th.pc = .unlock → th.inside = true) (u : Tid)
    (hu : ((s.move t th).threads u).pc = .unlock) : ((s.move t th).threads u).inside = true := by
  by_cases hut : u = t
  · subst hut
    rw [move_self] at hu ⊢
    exact hth hu
  · rw [move_ne hut] at hu ⊢
    exact h.unlock u hu

/-- A move that leaves the word, and the thread as much an owner as before. -/
theorem Inv.keep (h : Inv s) (hth : th.owner = (s.threads t).owner)
    (hun : th.pc = .unlock → th.inside = true) : Inv (s.move t th) := by
  have howner : ∀ u, ((s.move t th).threads u).owner = (s.threads u).owner := by
    intro u
    by_cases hut : u = t
    · subst hut
      rw [move_self, hth]
    · rw [move_ne hut]
  constructor
  case owner =>
    simp only [howner]
    exact h.owner
  case unlock => exact h.unlock_move hun

/-- The exchange of `lock` makes an owner of the thread where the word was 0; where it was 1
nothing changes, and there the thread may be the owner itself. -/
theorem Inv.exchange (h : Inv s) (hpc : (s.threads t).pc = .lock) :
    Inv ({ s with locked := 1 }.move t { s.threads t with pc := .test s.locked }) := by
  rcases h.owner with ⟨h0, hall⟩ | ⟨h1, v, hv⟩
  · constructor
    case owner =>
      refine .inr ⟨rfl, t, fun u => ?_⟩
      by_cases hut : u = t
      · subst hut
        simp [h0]
      · rw [move_ne hut]
        show (s.threads u).owner = true ↔ u = t
        rw [hall u]
        simp [hut]
    case unlock =>
      intro u hu
      by_cases hut : u = t
      · subst hut
        simp at hu
      · rw [move_ne hut] at hu ⊢
        exact h.unlock u hu
  · have hsame : { s with locked := 1 } = s := by rw [← h1]
    rw [hsame]
    refine h.keep ?_ (by simp)
    simp [hpc, h1]

/-- The exchange of `unlock` leaves no owner. -/
theorem Inv.release (h : Inv s) (hpc : (s.threads t).pc = .unlock) :
    Inv ({ s with locked := 0 }.move t { inside := false, pc := .user }) := by
  have hin := h.unlock t hpc
  obtain ⟨-, honly⟩ := h.taken (t := t) (by simp [hin])
  constructor
  case owner =>
    refine .inl ⟨rfl, fun u => ?_⟩
    by_cases hut : u = t
    · subst hut
      simp
    · rw [move_ne hut]
      show (s.threads u).owner = false
      rw [← Bool.not_eq_true, honly u]
      exact hut
  case unlock =>
    intro u hu
    by_cases hut : u = t
    · subst hut
      simp at hu
    · rw [move_ne hut] at hu ⊢
      exact h.unlock u hu

theorem inv_of_moved (h : Inv s) (hm : Moved s t s') : Inv s' := by
  cases hm with
  | callLock hpc => exact h.keep (by simp [hpc]) (by simp)
  | callUnlock hpc hin => exact h.keep (by simp [hin]) (fun _ => hin)
  | exchange hpc => exact h.exchange hpc
  | enter hpc => exact h.keep (by simp [hpc]) (by simp)
  | again hpc hne => exact h.keep (by simp [hpc, hne]) (by simp)
  | release hpc => exact h.release hpc

omit [DecidableEq Tid] in
theorem inv_init : Inv (State.init : State Tid) where
  owner := .inl ⟨rfl, fun _ => rfl⟩
  unlock _ h := absurd h (by simp [State.init])

/-- In any run at most one thread is between `lock` and `unlock`, and the word is 1 exactly
when there is one, or one whose exchange has just succeeded; otherwise it is 0. -/
theorem lock_exclusive (h : (machine Tid).Reachable s) :
    (∀ t u, (s.threads t).inside = true → (s.threads u).inside = true → t = u) ∧
      (s.locked = 1 ↔ ∃ t, (s.threads t).inside = true ∨ (s.threads t).pc = .test 0) ∧
      (s.locked = 0 ∨ s.locked = 1) := by
  have hinv : (machine Tid).Invariant (fun _ _ => True) Inv :=
    { init := by
        intro s hs
        subst hs
        exact inv_init
      step := fun s l s' hI _ hs => inv_of_moved hI (moved_of_step hs) }
  have hI := h.invariant hinv
  have howner : ∀ t, (s.threads t).owner = true ↔
      (s.threads t).inside = true ∨ (s.threads t).pc = .test 0 := by
    intro t
    simp
  refine ⟨?_, ?_, ?_⟩
  · intro t u ht hu
    have honly := (hI.taken ((howner u).mpr (.inl hu))).2
    exact (honly t).mp ((howner t).mpr (.inl ht))
  · simp only [← howner]
    refine ⟨?_, ?_⟩
    · intro h1
      rcases hI.owner with ⟨h0, -⟩ | ⟨-, t, ht⟩
      · rw [h0] at h1
        exact absurd h1 (by decide)
      · exact ⟨t, (ht t).mpr rfl⟩
    · rintro ⟨t, ht⟩
      exact (hI.taken ht).1
  · exact hI.owner.imp And.left And.left

end

/-- Two threads: one is inside, and the exchange of the other has failed. -/
theorem lock_exclusive_two : ∃ s, (machine (Fin 2)).Reachable s ∧
    (s.threads 0).inside = true ∧ (s.threads 1).pc = .test 1 ∧ s.locked = 1 := by
  obtain ⟨s, hs, hend⟩ : ∃ s, System.follow (fun s l => step l.1 l.2 s)
      [(0, .lock), (0, .lock), (0, .lock), (1, .lock), (1, .lock)] (State.init : State (Fin 2)) =
        some s ∧ ((s.threads 0).inside, (s.threads 1).pc) = (true, .test 1) :=
    Option.map_eq_some_iff.mp (by decide)
  obtain ⟨h0, h1⟩ := Prod.mk.inj hend
  have hr : (machine (Fin 2)).Reachable s :=
    System.Run.follow (fun _ _ _ h => ⟨trivial, h⟩) (.init rfl) hs
  exact ⟨s, hr, h0, h1, (lock_exclusive hr).2.1.mpr ⟨0, .inl h0⟩⟩

end OsLabs.MultiThreads.Lock
