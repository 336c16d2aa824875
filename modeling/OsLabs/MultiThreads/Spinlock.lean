import Mathlib.Algebra.BigOperators.Ring.Finset
import Mathlib.Data.Fintype.BigOperators
import OsLabs.Transition

/-!
# OsLabs.MultiThreads.Spinlock

`multi-threads/spinlock.c`: threads that add up under a spin lock made of
`compare_and_swap`.

`compare_and_swap` returns 1 when it has swapped (`sete`), and `spin_lock` loops
*while* it returns 1. So a thread that finds the lock free takes it, tries again,
fails against itself and goes on; and a thread that finds the lock taken goes on at
once (`not_spinlock_exclusive`). The lock excludes nobody: threads exclude each
other as long as none of them calls `spin_lock` while the lock is taken
(`spinlock_exclusive`).
-/

namespace OsLabs.MultiThreads.Spinlock

/-- `compare_and_swap`: the result and what is in `*ptr` afterwards. -/
def compareAndSwap (ptr old new : Int) : Int × Int :=
  if ptr = old then (1, new) else (0, ptr)

/-- Where a thread is in `do_sum1`. -/
inductive Pc
  /-- It calls `spin_lock`: the first `compare_and_swap` of the loop. -/
  | lock
  /-- The loop goes round: a further `compare_and_swap`. -/
  | spin
  /-- `spin_lock` has returned: `sum++` loads. -/
  | load
  /-- `sum++` stores one more than `v`. -/
  | store (v : Int)
  /-- It calls `spin_unlock`. -/
  | unlock
  /-- The `for` loop is over. -/
  | done
  deriving DecidableEq, Repr

/-- Is the thread between the return of `spin_lock` and its `spin_unlock`? -/
@[simp] def Pc.inside : Pc → Bool
  | .load | .store _ | .unlock => true
  | _ => false

/-- Has the thread called `spin_lock` without having called `spin_unlock` yet? -/
@[simp] def Pc.engaged : Pc → Bool
  | .lock | .done => false
  | _ => true

/-- A thread: its loop counter and its place. -/
structure Thread where
  i : Nat
  pc : Pc
  deriving DecidableEq, Repr

/-- The test of the `for` loop, which makes `k` rounds. -/
def forLoop (k i : Nat) : Thread := if i < k then ⟨i, .lock⟩ else ⟨i, .done⟩

universe u

/-- The globals and the threads. -/
structure State (Tid : Type u) where
  /-- `lk1.locked`. -/
  locked : Int
  sum : Int
  threads : Tid → Thread

variable {Tid : Type u} [DecidableEq Tid]

/-- Let a thread move to another place. -/
def State.move (s : State Tid) (t : Tid) (th : Thread) : State Tid :=
  { s with threads := Function.update s.threads t th }

@[simp] theorem move_locked (s : State Tid) (t : Tid) (th : Thread) :
    (s.move t th).locked = s.locked := rfl

@[simp] theorem move_sum (s : State Tid) (t : Tid) (th : Thread) :
    (s.move t th).sum = s.sum := rfl

@[simp] theorem move_threads (s : State Tid) (t u : Tid) (th : Thread) :
    (s.move t th).threads u = if u = t then th else s.threads u := by
  simp [State.move, Function.update_apply]

/-- One atomic step of the thread `t`. -/
def step (k : Nat) (t : Tid) (s : State Tid) : Option (State Tid) :=
  let th := s.threads t
  match th.pc with
  | .lock | .spin =>
      let (ret, locked) := compareAndSwap s.locked 0 1
      some ({ s with locked }.move t { th with pc := if ret ≠ 0 then .spin else .load })
  | .load => some (s.move t { th with pc := .store s.sum })
  | .store v => some ({ s with sum := v + 1 }.move t { th with pc := .unlock })
  | .unlock =>
      some ({ s with locked := (compareAndSwap s.locked 1 0).2 }.move t (forLoop k (th.i + 1)))
  | .done => none

/-- After `spin_init`, before the first round. -/
def State.init (k : Nat) : State Tid where
  locked := 0
  sum := 0
  threads _ := forLoop k 0

/-- Threads that make `k` rounds each. -/
def machine (Tid : Type u) [DecidableEq Tid] (k : Nat) : System (State Tid) Tid where
  init s := s = State.init k
  step s t s' := step k t s = some s'

/-- Let the threads move in the given order, as long as the guard holds. -/
def runSchedule (k : Nat) (ok : State Tid → Tid → Prop) [∀ s t, Decidable (ok s t)] :
    List Tid → State Tid → Option (State Tid)
  | [], s => some s
  | t :: ts, s => if ok s t then (step k t s).bind (runSchedule k ok ts) else none

theorem run_of_runSchedule {k : Nat} {ok : State Tid → Tid → Prop} [∀ s t, Decidable (ok s t)]
    {ts : List Tid} {s s' : State Tid} (hs : (machine Tid k).Run ok s)
    (h : runSchedule k ok ts s = some s') : (machine Tid k).Run ok s' := by
  induction ts generalizing s with
  | nil =>
      obtain rfl := Option.some.inj h
      exact hs
  | cons t ts ih =>
      rw [runSchedule] at h
      split at h
      · next hok =>
        obtain ⟨d, hd, h⟩ := Option.bind_eq_some_iff.mp h
        exact ih (hs.step hok hd) h
      · exact absurd h (by simp)

/-- No thread calls `spin_lock` while the lock is taken. -/
def CalledFree (s : State Tid) (t : Tid) : Prop := (s.threads t).pc = .lock → s.locked = 0

instance (s : State Tid) (t : Tid) : Decidable (CalledFree s t) :=
  inferInstanceAs (Decidable (_ → _))

/-- What a thread has added to `sum` so far. -/
def added (th : Thread) : Nat := th.i + if th.pc = .unlock then 1 else 0

/-- A move of one thread changes the total by what it changes for that thread. -/
theorem sum_added_move [Fintype Tid] {s : State Tid} {t : Tid} {th : Thread} {n : Nat}
    (h : added th = added (s.threads t) + n) :
    ∑ u, added ((s.move t th).threads u) = ∑ u, added (s.threads u) + n := by
  have hu : ∀ u, added ((s.move t th).threads u) =
      added (s.threads u) + if u = t then n else 0 := by
    intro u
    by_cases hut : u = t
    · rw [move_threads, if_pos hut, if_pos hut, hut, h]
    · rw [move_threads, if_neg hut, if_neg hut, Nat.add_zero]
  simp only [hu, Finset.sum_add_distrib, Finset.sum_ite_eq', Finset.mem_univ, if_true]

/-- What holds of each thread when `sum` is `x`. -/
structure Sound (k : Nat) (x : Int) (th : Thread) : Prop where
  /-- What is about to be stored was loaded from the present `sum`. -/
  loaded : ∀ v, th.pc = .store v → v = x
  /-- A thread is done after `k` rounds. -/
  rounds : th.pc = .done → th.i = k
  bound : th.pc ≠ .done → th.i < k

/-- What holds while `spin_lock` is only called when the lock is free. -/
structure Inv [Fintype Tid] (k : Nat) (s : State Tid) : Prop where
  /-- The lock is free, and nobody is engaged; or it is taken, and one thread is. -/
  owner : (s.locked = 0 ∧ ∀ t, (s.threads t).pc.engaged = false) ∨
    (s.locked = 1 ∧ ∃ t, ∀ u, (s.threads u).pc.engaged = true ↔ u = t)
  sound : ∀ t, Sound k s.sum (s.threads t)
  total : s.sum = ∑ t, added (s.threads t)

section
variable [Fintype Tid] {k : Nat} {s s' : State Tid} {t : Tid}

omit [DecidableEq Tid] in
theorem Inv.free (h : Inv k s) (h0 : s.locked = 0) (u : Tid) :
    (s.threads u).pc.engaged = false := by
  rcases h.owner with ⟨-, hall⟩ | ⟨h1, -⟩
  · exact hall u
  · rw [h0] at h1
    exact absurd h1 (by decide)

omit [DecidableEq Tid] in
/-- An engaged thread has the lock to itself. -/
theorem Inv.engaged (h : Inv k s) (ht : (s.threads t).pc.engaged = true) :
    s.locked = 1 ∧ ∀ u, (s.threads u).pc.engaged = true ↔ u = t := by
  rcases h.owner with ⟨-, hall⟩ | ⟨h1, v, hv⟩
  · rw [hall t] at ht
    exact absurd ht (by simp)
  · obtain rfl : t = v := (hv t).mp ht
    exact ⟨h1, hv⟩

/-- The steps from a state with the invariant, when `spin_lock` is called on a free lock. -/
inductive Moved (k : Nat) (s : State Tid) (t : Tid) : State Tid → Prop
  | take : (s.threads t).pc = .lock → s.locked = 0 →
      Moved k s t ({ s with locked := 1 }.move t { s.threads t with pc := .spin })
  | goOn : (s.threads t).pc = .spin →
      Moved k s t (s.move t { s.threads t with pc := .load })
  | load : (s.threads t).pc = .load →
      Moved k s t (s.move t { s.threads t with pc := .store s.sum })
  | store {v : Int} : (s.threads t).pc = .store v →
      Moved k s t ({ s with sum := v + 1 }.move t { s.threads t with pc := .unlock })
  | unlock : (s.threads t).pc = .unlock →
      Moved k s t ({ s with locked := 0 }.move t (forLoop k ((s.threads t).i + 1)))

theorem moved_of_step (hI : Inv k s) (hg : CalledFree s t) (h : step k t s = some s') :
    Moved k s t s' := by
  unfold step at h
  dsimp only at h
  split at h
  · next hpc =>
    have h0 := hg hpc
    obtain rfl := Option.some.inj h
    simpa [compareAndSwap, h0] using Moved.take hpc h0
  · next hpc =>
    -- the thread has the lock itself, so this time the swap fails
    have h1 := (hI.engaged (t := t) (by rw [hpc]; rfl)).1
    obtain rfl := Option.some.inj h
    rw [compareAndSwap, if_neg (by rw [h1]; decide)]
    exact Moved.goOn hpc
  · next hpc =>
    obtain rfl := Option.some.inj h
    exact .load hpc
  · next v hpc =>
    obtain rfl := Option.some.inj h
    exact .store hpc
  · next hpc =>
    have h1 := (hI.engaged (t := t) (by rw [hpc]; rfl)).1
    obtain rfl := Option.some.inj h
    rw [compareAndSwap, if_pos h1]
    exact .unlock hpc
  · exact absurd h (by simp)

/-- A thread that is not engaged does not care what `sum` is. -/
theorem Sound.idle {x y : Int} {th : Thread} (h : Sound k x th) (hth : th.pc.engaged = false) :
    Sound k y th where
  loaded v hv := by
    rw [hv] at hth
    exact absurd hth (by simp)
  rounds := h.rounds
  bound := h.bound

theorem sound_forLoop {i : Nat} {x : Int} (h : i ≤ k) : Sound k x (forLoop k i) := by
  unfold forLoop
  split
  · next hlt => exact ⟨by simp, by simp, fun _ => hlt⟩
  · exact ⟨by simp, fun _ => by dsimp only; omega, by simp⟩

/-- What a move has to show: who is engaged now, that the thread is sound, and how much
it has added. -/
theorem Inv.move (h : Inv k s) {th : Thread} {l x : Int} {n : Nat}
    (howner : (l = 0 ∧ ∀ u, ((s.move t th).threads u).pc.engaged = false) ∨
      (l = 1 ∧ ∀ u, ((s.move t th).threads u).pc.engaged = true ↔ u = t))
    (hth : Sound k x th) (hothers : ∀ u, u ≠ t → Sound k x (s.threads u))
    (hadd : added th = added (s.threads t) + n) (hx : x = s.sum + n) :
    Inv k ({ s with locked := l, sum := x }.move t th) where
  owner := by
    rcases howner with ⟨hl, hu⟩ | ⟨hl, hu⟩
    · exact .inl ⟨hl, hu⟩
    · exact .inr ⟨hl, t, hu⟩
  sound u := by
    rw [move_threads]
    by_cases hut : u = t
    · rw [if_pos hut]
      exact hth
    · rw [if_neg hut]
      exact hothers u hut
  total := by
    have := sum_added_move (s := s) hadd
    show x = ∑ u, added ((s.move t th).threads u)
    rw [this, hx, h.total]
    push_cast
    rfl

/-- Moves of the thread that has the lock, up to its `spin_unlock`. -/
theorem Inv.keep (h : Inv k s) (ht : (s.threads t).pc.engaged = true) {th : Thread}
    (hth : th.pc.engaged = true) (u : Tid) :
    ((s.move t th).threads u).pc.engaged = true ↔ u = t := by
  rw [move_threads]
  by_cases hut : u = t
  · rw [if_pos hut]
    exact iff_of_true hth hut
  · rw [if_neg hut]
    exact (h.engaged ht).2 u

theorem inv_of_moved (h : Inv k s) (hm : Moved k s t s') : Inv k s' := by
  have hs := h.sound t
  cases hm with
  | take hpc h0 =>
      refine h.move (l := 1) (x := s.sum) (n := 0) (.inr ⟨rfl, fun u => ?_⟩)
        ⟨by simp, by simp, fun _ => hs.bound (by simp [hpc])⟩ (fun u _ => h.sound u)
        (by simp [added, hpc]) (by simp)
      rw [move_threads]
      by_cases hut : u = t
      · rw [if_pos hut]
        exact iff_of_true rfl hut
      · rw [if_neg hut, h.free h0 u]
        simp [hut]
  | goOn hpc =>
      have ht : (s.threads t).pc.engaged = true := by rw [hpc]; rfl
      exact h.move (l := s.locked) (x := s.sum) (n := 0) (.inr ⟨(h.engaged ht).1, h.keep ht rfl⟩)
        ⟨by simp, by simp, fun _ => hs.bound (by simp [hpc])⟩ (fun u _ => h.sound u)
        (by simp [added, hpc]) (by simp)
  | load hpc =>
      have ht : (s.threads t).pc.engaged = true := by rw [hpc]; rfl
      exact h.move (l := s.locked) (x := s.sum) (n := 0) (.inr ⟨(h.engaged ht).1, h.keep ht rfl⟩)
        ⟨by simp, by simp, fun _ => hs.bound (by simp [hpc])⟩ (fun u _ => h.sound u)
        (by simp [added, hpc]) (by simp)
  | @store v hpc =>
      have ht : (s.threads t).pc.engaged = true := by rw [hpc]; rfl
      refine h.move (l := s.locked) (x := v + 1) (n := 1)
        (.inr ⟨(h.engaged ht).1, h.keep ht rfl⟩)
        ⟨by simp, by simp, fun _ => hs.bound (by simp [hpc])⟩ (fun u hut => ?_)
        (by simp [added, hpc]) (by rw [hs.loaded v hpc]; rfl)
      -- nobody else is about to store
      refine (h.sound u).idle ?_
      by_contra hne
      exact hut (((h.engaged ht).2 u).mp (by simpa using hne))
  | unlock hpc =>
      have ht : (s.threads t).pc.engaged = true := by rw [hpc]; rfl
      have hlt := hs.bound (by simp [hpc])
      refine h.move (l := 0) (x := s.sum) (n := 0) (.inl ⟨rfl, fun u => ?_⟩)
        (sound_forLoop hlt) (fun u _ => h.sound u) ?_ (by simp)
      · rw [move_threads]
        by_cases hut : u = t
        · rw [if_pos hut, forLoop]
          split
          · rfl
          · rfl
        · rw [if_neg hut]
          by_contra hne
          exact hut (((h.engaged ht).2 u).mp (by simpa using hne))
      · unfold forLoop
        split
        · simp [added, hpc]
        · simp [added, hpc]

omit [DecidableEq Tid] in
theorem inv_init : Inv k (State.init k : State Tid) where
  owner := by
    refine .inl ⟨rfl, fun _ => ?_⟩
    show (forLoop k 0).pc.engaged = false
    unfold forLoop
    split
    · rfl
    · rfl
  sound _ := sound_forLoop (Nat.zero_le k)
  total := by
    have : added (forLoop k 0) = 0 := by
      unfold forLoop
      split
      · rfl
      · rfl
    simp [State.init, this]

/-- When nobody calls `spin_lock` while the lock is taken, at most one thread is between
`spin_lock` and `spin_unlock`, and when all are done `sum` is what they were to add. -/
theorem spinlock_exclusive (h : (machine Tid k).Run CalledFree s) :
    (∀ t u, (s.threads t).pc.inside = true → (s.threads u).pc.inside = true → t = u) ∧
      ((∀ t, (s.threads t).pc = .done) → s.sum = Fintype.card Tid * k) := by
  have hinv : (machine Tid k).Invariant CalledFree (Inv k) :=
    { init := by
        intro s hs
        subst hs
        exact inv_init
      step := fun s t s' hI hg hs => inv_of_moved hI (moved_of_step hI hg hs) }
  have hI := h.invariant hinv
  refine ⟨?_, ?_⟩
  · have hin : ∀ t, (s.threads t).pc.inside = true → (s.threads t).pc.engaged = true := by
      intro t
      cases (s.threads t).pc <;> simp
    intro t u ht hu
    exact (((hI.engaged (hin t ht)).2 u).mp (hin u hu)).symm
  · intro hdone
    have hadded : ∀ t, added (s.threads t) = k := by
      intro t
      simp [added, hdone t, (hI.sound t).rounds (hdone t)]
    rw [hI.total]
    simp [hadded]

end

/-- Two threads that take turns, one round each. -/
theorem spinlock_exclusive_turns :
    ∃ s, runSchedule 1 CalledFree [0, 0, 0, 0, 0, 1, 1, 1, 1, 1] (State.init 1 : State (Fin 2)) =
        some s ∧
      (∀ t, (s.threads t).pc = .done) ∧ s.sum = Fintype.card (Fin 2) * (1 : Nat) := by
  obtain ⟨s, hs, hend⟩ : ∃ s, runSchedule 1 CalledFree [0, 0, 0, 0, 0, 1, 1, 1, 1, 1]
      (State.init 1 : State (Fin 2)) = some s ∧ decide (∀ t, (s.threads t).pc = .done) = true :=
    Option.map_eq_some_iff.mp (by decide)
  have hdone := of_decide_eq_true hend
  exact ⟨s, hs, hdone, (spinlock_exclusive (run_of_runSchedule (.init rfl) hs)).2 hdone⟩

/-- Two threads, one round each: the second finds the lock taken and goes on, the first
finds it taken by itself; both are inside, and one addition is lost. -/
theorem not_spinlock_exclusive :
    ¬ (∀ s : State (Fin 2), (machine (Fin 2) 1).Reachable s →
        ∀ t u, (s.threads t).pc.inside = true → (s.threads u).pc.inside = true → t = u) ∧
      ¬ ∀ s : State (Fin 2), (machine (Fin 2) 1).Reachable s →
        (∀ t, (s.threads t).pc = .done) → s.sum = Fintype.card (Fin 2) * (1 : Nat) := by
  refine ⟨?_, ?_⟩
  · intro h
    obtain ⟨s, hs, hend⟩ : ∃ s, runSchedule 1 (fun _ _ => True) [0, 1, 0]
        (State.init 1 : State (Fin 2)) = some s ∧
          ((s.threads 0).pc, (s.threads 1).pc) = (.load, .load) :=
      Option.map_eq_some_iff.mp (by decide)
    obtain ⟨h0, h1⟩ := Prod.mk.inj hend
    have := h s (run_of_runSchedule (.init rfl) hs) 0 1 (by rw [h0]; rfl) (by rw [h1]; rfl)
    exact absurd this (by decide)
  · intro h
    obtain ⟨s, hs, hend⟩ : ∃ s, runSchedule 1 (fun _ _ => True) [0, 1, 0, 0, 1, 0, 1, 0, 1]
        (State.init 1 : State (Fin 2)) = some s ∧
          (decide (∀ t, (s.threads t).pc = .done), s.sum) = (true, 1) :=
      Option.map_eq_some_iff.mp (by decide)
    obtain ⟨hdone, hsum⟩ := Prod.mk.inj hend
    have := h s (run_of_runSchedule (.init rfl) hs) (of_decide_eq_true hdone)
    exact absurd (hsum.symm.trans this) (by decide)

end OsLabs.MultiThreads.Spinlock
