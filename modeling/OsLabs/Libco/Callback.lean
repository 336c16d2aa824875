import OsLabs.Libco.Starved

/-!
# OsLabs.Libco.Callback

Whom `callback` of `libco/co.c` resumes.

A coroutine that ends on its own stack returns into `callback`, which draws the next one
and jumps to it. `co_yield` looks at the status of what it has drawn: a CO_NEW coroutine
gets its stack, a CO_WAITING one becomes CO_RUNNING before the jump. `callback` does
neither (`callback_never_resumes`): the coroutine it resumes stays CO_WAITING, and the
context of one that never ran was never set.
-/

namespace OsLabs.Libco.Pool

variable {p : Program} {s s' : State} {draw : Nat} {co : Ptr}

/-- The `do … while` loop of `callback` ends with `co`. -/
def EndsWith (s : State) (draw : Nat) (co : Ptr) : Prop :=
  randChoose s draw = some co ∧ (s.heap (.co co)).name ≠ (s.heap s.current).name

/-- The coroutine that `callback` jumps to is CO_WAITING in a `co_yield` of its own that has
not returned, and runs as CO_RUNNING. -/
structure Resumes (p : Program) (s : State) (draw : Nat) (co : Ptr) : Prop where
  waiting : (s.heap (.co co)).status = .waiting
  context : ∃ ctx below, (s.heap (.co co)).context = some ctx ∧
    unwind ctx.yield (s.stackOf ctx.stack) = some below
  running : ∃ s', step p s draw = .next s' ∧ s'.current = .co co ∧
    (s'.heap (.co co)).status = .running

/-- A round of `callback` that ends the loop jumps. -/
theorem step_callbackLoop {fs : List Frame} (hfs : s.frames = .callbackLoop :: fs)
    (hco : EndsWith s draw co) : step p s draw = longjmp s co := by
  obtain ⟨hchoice, hname⟩ := hco
  have hpos : s.pool.length ≠ 0 :=
    Nat.ne_of_gt (List.length_pos_of_mem (randChoose_mem hchoice).1)
  simp only [step, hfs, hpos, if_false, hchoice, hname]

/-- `longjmp` leaves every record as it is. -/
theorem heap_of_longjmp (h : longjmp s co = .next s') : s'.heap = s.heap := by
  rw [longjmp] at h
  split at h
  · exact absurd h (by simp)
  · split at h
    · exact absurd h (by simp)
    · obtain rfl := Outcome.next.inj h
      rfl

/-! ### The records of coroutines that never ran -/

/-- Nobody has called `setjmp` for a coroutine that is CO_NEW. -/
def Fresh (s : State) : Prop :=
  ∀ r, (s.heap r).status = .new → (s.heap r).context = none

/-- A write to a record keeps this, unless the record is CO_NEW after it with a context. -/
theorem Fresh.modify {r : Ref} {f : Co → Co} (h : Fresh s)
    (hf : (f (s.heap r)).status = .new → (f (s.heap r)).context = none) :
    Fresh (s.modify r f) := by
  intro q hq
  rw [State.modify_heap] at hq ⊢
  split at hq
  · next heq =>
    rw [if_pos heq]
    exact hf hq
  · next hne =>
    rw [if_neg hne]
    exact h q hq

theorem Fresh.setStatus {r : Ref} {st : CoStatus} (h : Fresh s) (hst : st ≠ .new) :
    Fresh (s.setStatus r st) :=
  h.modify fun heq => absurd heq hst

theorem Fresh.of_heap {t : State} (h : Fresh s) (heq : t.heap = s.heap) : Fresh t := by
  intro r hr
  rw [heq] at hr ⊢
  exact h r hr

theorem Fresh.coStart (h : Fresh s) (hs : coStart p s co = .next s') : Fresh s' := by
  rw [Pool.coStart] at hs
  split at hs
  · obtain rfl := Outcome.next.inj hs
    exact (h.modify (r := .co co) (f := fun _ => ⟨false, some (p.name co), .new, none, none⟩)
      fun _ => rfl).of_heap rfl
  · exact absurd hs (by simp)

theorem Fresh.coYield (h : Fresh s) : Fresh (coYield s) :=
  (h.modify (r := s.current) (f := fun co =>
    { co with status := .waiting, context := some ⟨s.cpu, s.yields⟩ })
    fun heq => absurd heq (by simp)).of_heap rfl

theorem Fresh.coWait (h : Fresh s) : Fresh (coWait p s co) := by
  have hxchg : Fresh (currentXchg s co) := by
    have hcur : Fresh { s.setStatus s.current .waiting with current := .co co } :=
      (h.setStatus (r := s.current) (by simp)).of_heap rfl
    exact (hcur.modify (r := .co co) (f := fun record =>
      { record with waiter := some s.current }) (hcur (.co co))).setStatus (by simp)
  rw [Pool.coWait]
  split
  · exact h
  · exact (h.of_heap (t := s.setFrames (.waitYield :: s.frames)) rfl).coYield
  · exact hxchg.of_heap rfl

/-- What follows a `co_delete` starts with the same records. -/
theorem Fresh.coDelete {r : Ref} {next : State → Outcome} (h : Fresh s)
    (hs : coDelete s r next = .next s')
    (hnext : ∀ t, t.heap = s.heap → next t = .next s' → s'.heap = t.heap) : Fresh s' := by
  rw [Pool.coDelete] at hs
  split at hs
  · exact absurd hs (by simp)
  · next pool _ => exact h.of_heap (hnext { s with pool } rfl hs)

theorem Fresh.waitReturn (h : Fresh s) (hs : waitReturn s = .next s') : Fresh s' := by
  refine (h.setStatus (by simp)).coDelete hs fun t _ ht => ?_
  split at ht
  · exact absurd ht (by simp)
  · split at ht
    · obtain rfl := Outcome.next.inj ht
      rfl
    · exact absurd ht (by simp)

theorem Fresh.switchTo (h : Fresh s) (hs : switchTo p s co = .next s') : Fresh s' := by
  rw [Pool.switchTo] at hs
  split at hs
  · obtain rfl := Outcome.next.inj hs
    have hrunning : Fresh (s.setStatus (.co co) .running) := h.setStatus (by simp)
    exact hrunning.of_heap rfl
  · exact (h.setStatus (by simp)).of_heap (heap_of_longjmp hs)
  · exact absurd hs (by simp)

theorem Fresh.step (h : Fresh s) (hs : step p s draw = .next s') : Fresh s' := by
  have hframes : ∀ fs, Fresh (s.setFrames fs) := fun fs => h.of_heap rfl
  unfold Pool.step at hs
  split at hs
  case h_1 => exact absurd hs (by simp)
  case h_2 => exact absurd hs (by simp)
  case h_3 => exact (hframes _).coStart hs
  case h_4 =>
    obtain rfl := Outcome.next.inj hs
    exact (hframes _).coWait
  case h_5 =>
    obtain rfl := Outcome.next.inj hs
    exact hframes _
  case h_6 =>
    obtain rfl := Outcome.next.inj hs
    exact (hframes _).coYield
  case h_7 => exact (hframes _).waitReturn hs
  case h_8 =>
    obtain rfl := Outcome.next.inj hs
    exact hframes _
  case h_9 =>
    refine (h.setStatus (by simp)).coDelete hs fun t _ ht => ?_
    obtain rfl := Outcome.next.inj ht
    rfl
  case h_10 =>
    split at hs
    · exact absurd hs (by simp)
    · split at hs
      · obtain rfl := Outcome.next.inj hs
        exact h
      · exact h.switchTo hs
  case h_11 =>
    split at hs
    · exact absurd hs (by simp)
    · split at hs
      · obtain rfl := Outcome.next.inj hs
        exact h
      · split at hs
        · obtain rfl := Outcome.next.inj hs
          exact h
        · exact h.of_heap (heap_of_longjmp hs)

theorem fresh_of_reachable (h : (machine p).Reachable s) : Fresh s := by
  have hinv : (machine p).Invariant (fun _ _ => True) Fresh :=
    { init := by
        rintro s rfl r hr
        cases r <;> rfl
      step := fun s draw s' hI _ hs => hI.step hs }
  exact h.invariant hinv

/-! ### The coroutine that `callback` resumes -/

/-- No jump of `callback` is as it should be, whatever the client has done before: who is
resumed keeps its status, and where that is CO_NEW there is nothing to resume. -/
theorem callback_never_resumes {fs : List Frame} (hfs : s.frames = .callbackLoop :: fs)
    (hco : EndsWith s draw co) :
    ¬ Resumes p s draw co ∧
      ((machine p).Reachable s → (s.heap (.co co)).status = .new →
        step p s draw = .fault .deadContext) := by
  rw [step_callbackLoop hfs hco]
  refine ⟨?_, ?_⟩
  · intro h
    obtain ⟨s', hs, -, hrun⟩ := h.running
    rw [step_callbackLoop hfs hco] at hs
    rw [heap_of_longjmp hs, h.waiting] at hrun
    exact absurd hrun (by simp)
  · intro hr hnew
    rw [longjmp, fresh_of_reachable hr _ hnew]

/-- Three coroutines; `main` waits for the first, which yields. -/
def threeStarted : Program where
  main := [.start 0, .start 1, .start 2, .wait 0]
  name co := if co = 0 then "a" else if co = 1 then "b" else "c"
  func co := if co = 0 then 1 else 0

/-- The second is drawn in `co_yield`, and ends while the third is CO_NEW. -/
theorem reachable_callbackLoop :
    ∃ s, (machine threeStarted).Reachable s ∧ s.frames = [.callbackLoop] ∧ EndsWith s 2 2 ∧
      (s.heap (.co 2)).status = .new := by
  obtain ⟨s, hs, hend⟩ : ∃ s, System.follow (nextUnless threeStarted fun _ => false)
      [0, 0, 0, 0, 0, 1, 0, 0] (State.init threeStarted) = some s ∧
        (s.frames, randChoose s 2, (s.heap (.co 2)).name, (s.heap s.current).name,
          (s.heap (.co 2)).status) =
        ([.callbackLoop], some 2, some "c", some "b", .new) :=
    Option.map_eq_some_iff.mp (by decide)
  simp only [Prod.mk.injEq] at hend
  obtain ⟨hf, hdraw, hname, hcur, hst⟩ := hend
  refine ⟨s, ?_, hf, ⟨hdraw, ?_⟩, hst⟩
  · exact System.Run.follow (fun _ _ _ hnext => ⟨trivial, (step_of_nextUnless hnext).2⟩)
      (.init rfl) hs
  · rw [hname, hcur]
    simp

theorem callback_never_resumes_third :
    ∃ s, s.frames = [.callbackLoop] ∧ ¬ Resumes threeStarted s 2 2 ∧
      step threeStarted s 2 = .fault .deadContext := by
  obtain ⟨s, hr, hf, hco, hst⟩ := reachable_callbackLoop
  obtain ⟨hnever, hnew⟩ := callback_never_resumes hf hco
  exact ⟨s, hf, hnever, hnew hr hst⟩

/-- `callback` draws a coroutine that never ran. -/
theorem not_callback_resumes :
    ¬ ∀ (p : Program) (s : State) (fs : List Frame) (draw : Nat) (co : Ptr),
      (machine p).Reachable s → s.frames = .callbackLoop :: fs → EndsWith s draw co →
        Resumes p s draw co := by
  intro h
  obtain ⟨s, hr, hf, hco, hst⟩ := reachable_callbackLoop
  have hwaiting := (h threeStarted s [] 2 2 hr hf hco).waiting
  exact absurd (hst.symm.trans hwaiting) (by simp)

end OsLabs.Libco.Pool
