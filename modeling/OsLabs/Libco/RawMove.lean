import OsLabs.Libco.Preservation

/-!
# OsLabs.Libco.RawMove

What a step of the coroutine library can do from any state at all.

`Move` says what the steps do from a state with the invariant, as long as nothing
reads a dangling `current`. `RawMove` says it with nothing known: `current` and the
frames of the running stack need not agree, so every branch that reads `current`
names what it read.
-/

namespace OsLabs.Libco

/-- The steps from any state. -/
inductive RawMove (p : Program) (s : State) : State → Prop
  | start {t : State} {co : Ptr} : Called s (.start co) t → RawMove p s (coStart p t co)
  | yield {t : State} {cur : Ptr} : Called s .yield t → s.current = some cur →
      RawMove p s (setjmp (t.setStatus cur .waiting) cur)
  | waitDead {t : State} {co : Ptr} : Called s (.wait co) t → (s.heap co).status = .dead →
      RawMove p s (freeAndReturn ((t.record (.waitCalled co)).setCurrent (some co)) co)
  | waitNew {t : State} {co : Ptr} : Called s (.wait co) t → s.current = none →
      (s.heap co).status = .new →
      RawMove p s (callFunc p (((t.record (.waitCalled co)).setStatus co .running).setCurrent
        (some co)) co (.waitNew co))
  | waitWaiting {t : State} {co : Ptr} : Called s (.wait co) t → s.current = none →
      (s.heap co).status = .waiting →
      RawMove p s (setjmp ((((t.record (.waitCalled co)).setCurrent (some co)).setFrames
        (.waitWaiting co :: t.frames)).setStatus co .waiting) co)
  | waitRunning {t : State} {co : Ptr} : Called s (.wait co) t → s.current = none →
      (s.heap co).status = .running →
      RawMove p s ((t.record (.waitCalled co)).record (.waitReturned co))
  | waitNested {t : State} {co old : Ptr} : Called s (.wait co) t → s.current = some old →
      (s.heap co).status ≠ .dead →
      RawMove p s (callFunc p (((((t.record (.waitCalled co)).setStatus old .waiting).record
        (.parked old)).setStatus co .running).setCurrent (some co)) co (.waitNested co old))
  | ret {co : Ptr} {fs : List Frame} : s.frames = .func co [] :: fs →
      RawMove p s ((s.setFrames fs).record (.returned co))
  | waitNewReturn {co cur : Ptr} {fs : List Frame} : s.frames = .waitNew co :: fs →
      s.current = some cur →
      RawMove p s ((freeAndReturn (coDelete (((s.setStatus cur .dead).setCurrent none).setStatus co
        .dead) co) co).setFrames fs)
  | waitWaitingReturn {co : Ptr} {fs : List Frame} : s.frames = .waitWaiting co :: fs →
      RawMove p s ((freeAndReturn ((coDelete s co).setCurrent none) co).setFrames fs)
  | waitNestedReturn {co old cur : Ptr} {fs : List Frame} : s.frames = .waitNested co old :: fs →
      s.current = some cur →
      RawMove p s ((freeAndReturn (coDelete ((((s.setStatus cur .dead).setCurrent
        (some old)).setStatus old .running).setStatus co .dead) co) co).setFrames fs)
  | callback {cur : Ptr} {fs : List Frame} : s.frames = .callback :: fs → s.current = some cur →
      RawMove p s ((coDelete (s.setStatus cur .dead) cur).setFrames (.callbackLoop :: fs))
  | round {fs : List Frame} : s.frames = .callbackLoop :: fs → RawMove p s s
  | switch {n : Nat} {fs : List Frame} {cur choice : Ptr} : s.frames = .yield n :: fs →
      s.current = some cur → choice ∈ s.coList → (s.heap choice).status = .new →
      RawMove p s (stackSwitchCall p (s.setCurrent (some choice)) choice)
  | resume {cur choice : Ptr} {ctx : Context} {fs : List Frame} :
      ((∃ n fs, s.frames = .yield n :: fs) ∨ (∃ fs, s.frames = .callbackLoop :: fs)) →
      s.current = some cur → choice ∈ s.coList → (s.heap choice).status = .waiting →
      (s.heap choice).context = some ctx → unwind ctx.yield (s.stackOf ctx.stack) = some fs →
      RawMove p s (jump ((s.setStatus choice .running).setCurrent (some choice)) choice ctx fs)

section
variable {p : Program} {s s' t : State} {call : Call}

/-- Inverting a call made by client code. -/
theorem rawMove_of_doCall (hc : Called s call t) (h : doCall p t call = .next s') :
    RawMove p s s' := by
  have hheap := hc.heap
  have hcur := hc.current
  cases call with
  | start co =>
      obtain rfl := Outcome.next.inj h
      exact .start hc
  | yield =>
      rw [doCall, coYield] at h
      split at h
      · exact absurd h (by simp)
      · next cur hco =>
        obtain rfl := Outcome.next.inj h
        exact .yield hc (hcur ▸ hco)
  | wait co =>
      rw [doCall, coWait] at h
      simp only [State.record_current, State.record_heap, hheap, hcur] at h
      split at h
      · next hst =>
        obtain rfl := Outcome.next.inj h
        exact .waitDead hc hst
      · next hnone hst =>
        obtain rfl := Outcome.next.inj h
        exact .waitNew hc hnone hst
      · next hnone hst =>
        obtain rfl := Outcome.next.inj h
        exact .waitWaiting hc hnone hst
      · next hnone hst =>
        obtain rfl := Outcome.next.inj h
        exact .waitRunning hc hnone hst
      · next old hold hst =>
        obtain rfl := Outcome.next.inj h
        exact .waitNested hc hold hst

/-- Inverting the end of `co_yield` and of `callback`. -/
theorem rawMove_of_resume {cur choice : Ptr}
    (htop : (∃ n fs, s.frames = .yield n :: fs) ∨ (∃ fs, s.frames = .callbackLoop :: fs))
    (hcur : s.current = some cur) (hmem : choice ∈ s.coList)
    (hst : (s.heap choice).status = .waiting) (h : resume s choice = .next s') :
    RawMove p s s' := by
  rw [resume, longjmp] at h
  split at h
  · exact absurd h (by simp)
  · next ctx hctx =>
    split at h
    · exact absurd h (by simp)
    · next fs hu =>
      obtain rfl := Outcome.next.inj h
      exact .resume htop hcur hmem hst (by simpa using hctx) (by simpa using hu)

/-- A step is a raw move. -/
theorem rawMove_of_step {draw : Nat} (h : step p draw s = .next s') : RawMove p s s' := by
  unfold step at h
  split at h
  · exact absurd h (by simp)
  · exact absurd h (by simp)
  · next call rest fs hf => exact rawMove_of_doCall (.main hf) h
  · next co call rest fs hf => exact rawMove_of_doCall (.func hf) h
  · next co fs hf =>
    obtain rfl := Outcome.next.inj h
    exact .ret hf
  · next co fs hf =>
    rw [waitNewReturn] at h
    split at h
    · exact absurd h (by simp)
    · next cur hcur =>
      obtain rfl := Outcome.next.inj h
      exact .waitNewReturn hf hcur
  · next co fs hf =>
    obtain rfl := Outcome.next.inj h
    exact .waitWaitingReturn hf
  · next co old fs hf =>
    rw [waitNestedReturn] at h
    split at h
    · exact absurd h (by simp)
    · next cur hcur =>
      obtain rfl := Outcome.next.inj h
      exact .waitNestedReturn hf hcur
  · next n fs hf =>
    rw [coYieldSwitch] at h
    split at h
    · exact absurd h (by simp)
    · next cur hcur =>
      split at h
      · exact absurd h (by simp)
      · next choice hch =>
        have hmem := (randChoose_mem hch).1
        split at h
        · next hst =>
          obtain rfl := Outcome.next.inj h
          exact .switch hf hcur hmem hst
        · next hst => exact rawMove_of_resume (.inl ⟨n, fs, hf⟩) hcur hmem hst h
        · exact absurd h (by simp)
  · next fs hf =>
    rw [callback] at h
    split at h
    · exact absurd h (by simp)
    · next cur hcur =>
      obtain rfl := Outcome.next.inj h
      exact .callback hf hcur
  · next fs hf =>
    rw [callbackRound] at h
    split at h
    · exact absurd h (by simp)
    · next cur hcur =>
      split at h
      · exact absurd h (by simp)
      · next choice hch =>
        have hmem := (randChoose_mem hch).1
        split at h
        · obtain rfl := Outcome.next.inj h
          exact .round hf
        · split at h
          · next hst => exact rawMove_of_resume (.inr ⟨fs, hf⟩) hcur hmem hst h
          · exact absurd h (by simp)

/-- The history only grows. -/
theorem RawMove.log_subset (h : RawMove p s s') : s.log ⊆ s'.log := by
  cases h with
  | start hc | yield hc | waitDead hc | waitNew hc | waitWaiting hc | waitRunning hc
  | waitNested hc =>
      rw [← hc.log]
      intro e he
      simp [he]
  | round => exact List.Subset.refl _
  | ret | waitNewReturn | waitWaitingReturn | waitNestedReturn | callback | switch | resume =>
      intro e he
      simp [he]

end

end OsLabs.Libco
