import OsLabs.Libco.RawMove

/-!
# OsLabs.Libco.Restore

What `co_wait` leaves in `current`.

`current` is redirected by every switch that happens while `co_wait` waits, and each
branch restores it in its own way: the branches for `main` store NULL, the nested one
the `old_current` it saved. So the frame a call leaves on the stack says what the call
will restore (`Frame.restores`), and no step changes a frame that lies there
(`awaits_pushed`).

The CO_DEAD branch stores the coroutine it is about to free
(`not_wait_restores_current`), and the two other ways to go wrong follow from it:
`main`, called with `current` not NULL, takes the branch for coroutines, and a
coroutine that is itself `current` is restored after it was freed
(`wait_restores_current`).
-/

namespace OsLabs.Libco

/-- The coroutine that a frame of `co_wait` waits for. -/
def Frame.awaits : Frame → Option Ptr
  | .waitNew co | .waitWaiting co | .waitNested co _ => some co
  | _ => none

/-- What `co_wait` stores in `current` before it returns through this frame. -/
def Frame.restores : Frame → Option Ptr
  | .waitNested _ old => some old
  | _ => none

/-- `main` is on top of the running stack. -/
def mainRuns (s : State) : Bool :=
  match s.frames with
  | .main _ :: _ => true
  | _ => false

section
variable {p : Program} {s s' t : State} {call : Call} {σ : StackId} {f : Frame} {co : Ptr}

theorem Called.nextCall (h : Called s call t) : nextCall s = some call := by
  cases h with
  | main hf => exact nextCall_main hf
  | func hf => exact nextCall_func hf

theorem Called.nextWait (h : Called s (.wait co) t) : nextWait s = some co := by
  rw [Libco.nextWait, h.nextCall]

/-- The caller's frame is not one of `co_wait`. -/
theorem Called.mem_of_awaits (h : Called s call t) (hf : f.awaits = some co)
    (hm : f ∈ t.stackOf σ) : f ∈ s.stackOf σ := by
  refine h.mem_stackOf ?_ ?_ hm
  · rintro rest rfl
    exact absurd hf (by simp [Frame.awaits])
  · rintro co rest rfl
    exact absurd hf (by simp [Frame.awaits])

/-- Unwinding a stack drops frames. -/
theorem mem_of_unwind {n : Nat} {fs fs' : List Frame} (h : unwind n fs = some fs')
    (hm : f ∈ fs') : f ∈ fs := by
  induction fs with
  | nil => exact absurd h (by simp [unwind])
  | cons g fs ih =>
      rw [unwind] at h
      split at h
      · obtain rfl := Option.some.inj h
        exact List.mem_cons_of_mem _ hm
      · exact List.mem_cons_of_mem _ (ih h)

/-- A step that leaves the frames `Y` on what is left of the stack `τ`. -/
theorem mem_or_pushed {τ : StackId} {Y fs : List Frame} (hsub : f ∈ fs → f ∈ s.stackOf τ)
    (hstack : ∀ σ, s'.stackOf σ = if σ = τ then Y ++ fs else s.stackOf σ)
    (hm : f ∈ s'.stackOf σ) : f ∈ s.stackOf σ ∨ f ∈ Y := by
  rw [hstack] at hm
  split at hm
  · next hσ =>
    subst hσ
    rw [List.mem_append] at hm
    exact hm.symm.imp hsub id
  · exact .inl hm

/-- A frame of `co_wait` on any stack was there before the step, or the step is the call. -/
theorem RawMove.awaits_pushed (h : RawMove p s s') (hf : f.awaits = some co)
    (hm : f ∈ s'.stackOf σ) :
    f ∈ s.stackOf σ ∨
      nextWait s = some co ∧ f.restores = s.current ∧ (s.heap co).status ≠ .dead := by
  -- what a call pushes on the caller's frames
  have pushed : ∀ {t : State} {call : Call} {Y : List Frame}, Called s call t →
      (∀ σ, s'.stackOf σ = if σ = t.cpu then Y ++ t.frames else t.stackOf σ) →
      f ∈ s.stackOf σ ∨ f ∈ Y := by
    intro t call Y hc hstack
    rcases mem_or_pushed (s := t) id hstack hm with hm | hY
    · exact .inl (hc.mem_of_awaits hf hm)
    · exact .inr hY
  -- what is left when the top frame is popped
  have popped : ∀ {g : Frame} {Y fs : List Frame}, s.frames = g :: fs →
      (∀ σ, s'.stackOf σ = if σ = s.cpu then Y ++ fs else s.stackOf σ) →
      f ∈ s.stackOf σ ∨ f ∈ Y := by
    intro g Y fs hs hstack
    have hs' : s.stackOf s.cpu = g :: fs := hs
    exact mem_or_pushed (fun hfs => hs' ▸ List.mem_cons_of_mem _ hfs) hstack hm
  cases h with
  | start hc => exact .inl (hc.mem_of_awaits hf hm)
  | waitDead hc => exact .inl (hc.mem_of_awaits hf hm)
  | waitRunning hc => exact .inl (hc.mem_of_awaits hf hm)
  | round => exact .inl hm
  | @yield t cur hc hcur =>
      refine (pushed (Y := [.yield t.yields]) hc ?_).imp_right fun hY => ?_
      · intro σ
        by_cases hσ : σ = t.cpu <;> simp [hσ]
      · obtain rfl := List.mem_singleton.mp hY
        exact absurd hf (by simp [Frame.awaits])
  | @waitNew t d hc hcur hst =>
      refine (pushed (Y := [.func d (p.func d), .waitNew d]) hc ?_).imp_right fun hY => ?_
      · intro σ
        by_cases hσ : σ = t.cpu <;> simp [hσ]
      · rcases List.mem_pair.mp hY with rfl | rfl
        · exact absurd hf (by simp [Frame.awaits])
        · obtain rfl := Option.some.inj hf
          exact ⟨hc.nextWait, hcur.symm, by simp [hst]⟩
  | @waitWaiting t d hc hcur hst =>
      refine (pushed (Y := [.yield t.yields, .waitWaiting d]) hc ?_).imp_right fun hY => ?_
      · intro σ
        by_cases hσ : σ = t.cpu <;> simp [hσ]
      · rcases List.mem_pair.mp hY with rfl | rfl
        · exact absurd hf (by simp [Frame.awaits])
        · obtain rfl := Option.some.inj hf
          exact ⟨hc.nextWait, hcur.symm, by simp [hst]⟩
  | @waitNested t d old hc hcur hst =>
      refine (pushed (Y := [.func d (p.func d), .waitNested d old]) hc ?_).imp_right fun hY => ?_
      · intro σ
        by_cases hσ : σ = t.cpu <;> simp [hσ]
      · rcases List.mem_pair.mp hY with rfl | rfl
        · exact absurd hf (by simp [Frame.awaits])
        · obtain rfl := Option.some.inj hf
          exact ⟨hc.nextWait, hcur.symm, hst⟩
  | ret hs | waitNewReturn hs | waitWaitingReturn hs | waitNestedReturn hs =>
      refine (popped (Y := []) hs ?_).imp_right fun hY => absurd hY (by simp)
      intro σ
      by_cases hσ : σ = s.cpu <;> simp [hσ]
  | callback hs hcur =>
      refine (popped (Y := [.callbackLoop]) hs ?_).imp_right fun hY => ?_
      · intro σ
        by_cases hσ : σ = s.cpu <;> simp [hσ]
      · obtain rfl := List.mem_singleton.mp hY
        exact absurd hf (by simp [Frame.awaits])
  | @switch n fs cur choice hs hcur hmem hst =>
      have hnew : ∀ σ, (stackSwitchCall p (s.setCurrent (some choice)) choice).stackOf σ =
          if σ = .own choice then [.func choice (p.func choice), .callback] ++ []
          else s.stackOf σ := by simp
      refine (mem_or_pushed (by simp) hnew hm).imp_right fun hY => ?_
      rcases List.mem_pair.mp hY with rfl | rfl
      · exact absurd hf (by simp [Frame.awaits])
      · exact absurd hf (by simp [Frame.awaits])
  | @resume cur choice ctx fs htop hcur hmem hst hctx hu =>
      have hnew : ∀ σ,
          (jump ((s.setStatus choice .running).setCurrent (some choice)) choice ctx fs).stackOf σ =
            if σ = ctx.stack then [] ++ fs else s.stackOf σ := by simp
      exact (mem_or_pushed (mem_of_unwind hu) hnew hm).imp_right fun hY => absurd hY (by simp)

/-- A step in which `co_wait(co)` returns: the call itself, or the code after the call it
made, which restores what its frame says. -/
theorem RawMove.returned_inv (h : RawMove p s s') (hnew : .waitReturned co ∈ s'.log)
    (hold : .waitReturned co ∉ s.log) :
    (nextWait s = some co ∧ ((s.heap co).status = .dead ∧ s'.current = some co ∨
      (s.heap co).status ≠ .dead ∧ s.current = none ∧ s'.current = none)) ∨
    ∃ f fs, s.frames = f :: fs ∧ f.awaits = some co ∧ s'.current = f.restores := by
  cases h with
  | @waitDead t d hc hst =>
      obtain rfl : co = d := by simpa [hc.log, hold] using hnew
      exact .inl ⟨hc.nextWait, .inl ⟨hst, rfl⟩⟩
  | @waitRunning t d hc hcur hst =>
      obtain rfl : co = d := by simpa [hc.log, hold] using hnew
      exact .inl ⟨hc.nextWait, .inr ⟨by simp [hst], hcur, hc.current.trans hcur⟩⟩
  | @waitNewReturn d cur fs hs hcur =>
      obtain rfl : co = d := by simpa [hold] using hnew
      exact .inr ⟨_, fs, hs, rfl, rfl⟩
  | @waitWaitingReturn d fs hs =>
      obtain rfl : co = d := by simpa [hold] using hnew
      exact .inr ⟨_, fs, hs, rfl, rfl⟩
  | @waitNestedReturn d old cur fs hs hcur =>
      obtain rfl : co = d := by simpa [hold] using hnew
      exact .inr ⟨_, fs, hs, rfl, rfl⟩
  | start hc | yield hc | waitNew hc | waitWaiting hc | waitNested hc =>
      exact absurd hnew (by simp [hc.log, hold])
  | ret | callback | switch | resume => exact absurd hnew (by simp [hold])
  | round => exact absurd hnew hold

/-- The call is in the history after the step that makes it. -/
theorem RawMove.waitCalled (h : RawMove p s s') (hw : nextWait s = some co) :
    .waitCalled co ∈ s'.log := by
  cases h with
  | start hc | yield hc => exact absurd hw (by simp [nextWait, hc.nextCall])
  | waitDead hc | waitNew hc | waitWaiting hc | waitRunning hc | waitNested hc =>
      obtain rfl := Option.some.inj (hc.nextWait.symm.trans hw)
      simp
  | ret hs | waitNewReturn hs | waitWaitingReturn hs | waitNestedReturn hs | callback hs
  | round hs | switch hs =>
      exact absurd hw (by simp [nextWait, nextCall, hs])
  | resume htop =>
      rcases htop with ⟨n, fs, hs⟩ | ⟨fs, hs⟩
      · exact absurd hw (by simp [nextWait, nextCall, hs])
      · exact absurd hw (by simp [nextWait, nextCall, hs])

end

/-- A call that was made is not made again. -/
theorem nextWait_ne_of_called {p : Program} {s : State} {co : Ptr} (ha : allowed p s = true)
    (hcall : .waitCalled co ∈ s.log) : nextWait s ≠ some co := by
  intro hw
  rw [nextWait] at hw
  split at hw
  · next d hd =>
    obtain rfl := Option.some.inj hw
    exact (allowed_wait ha hd).2 hcall
  · exact absurd hw (by simp)

/-- Every frame of `co_wait(co)` is of a call that was made. -/
theorem called_of_awaits {p : Program} {s : State} (h : (machine p).Reachable s) :
    ∀ σ, ∀ f ∈ s.stackOf σ, ∀ co, f.awaits = some co → .waitCalled co ∈ s.log := by
  have hinv : (machine p).Invariant (fun _ _ => True) fun s =>
      ∀ σ, ∀ f ∈ s.stackOf σ, ∀ co, f.awaits = some co → .waitCalled co ∈ s.log :=
    { init := by
        intro s hs
        subst hs
        intro σ f hm co hf
        cases σ with
        | main =>
            obtain rfl : f = .main p.main := by simpa [State.init] using hm
            exact absurd hf (by simp [Frame.awaits])
        | own c => exact absurd hm (by simp [State.init])
      step := by
        intro s draw s' ih _ hs σ f hm co hf
        have hraw := rawMove_of_step hs.2
        rcases hraw.awaits_pushed hf hm with hm | ⟨hw, -⟩
        · exact hraw.log_subset (ih σ f hm co hf)
        · exact hraw.waitCalled hw }
  exact h.invariant hinv

/-- While `co_wait(co)`, called in the state `s`, waits: its frame says what `current`
was. -/
def Pending (s : State) (co : Ptr) (t : State) : Prop :=
  .waitCalled co ∈ t.log ∧ ∀ σ, ∀ f ∈ t.stackOf σ, f.awaits = some co →
    f.restores = s.current ∧ (s.heap co).status ≠ .dead

theorem pending_of_steps {p : Program} {s t : State} {co : Ptr} (hr : (machine p).Reachable s)
    (hw : nextWait s = some co) (h : (machine p).Steps s t) : t = s ∨ Pending s co t := by
  refine h.invariant (I := fun t => t = s ∨ Pending s co t) (.inl rfl) ?_
  intro t draw t' ih hs
  have hraw := rawMove_of_step hs.2
  rcases ih with rfl | ⟨hcall, hp⟩
  · -- the step is the call
    refine .inr ⟨hraw.waitCalled hw, fun σ f hm hf => ?_⟩
    rcases hraw.awaits_pushed hf hm with hm | ⟨-, hres⟩
    · have hold := called_of_awaits hr σ f hm co hf
      exact absurd hw (nextWait_ne_of_called hs.1 hold)
    · exact hres
  · refine .inr ⟨hraw.log_subset hcall, fun σ f hm hf => ?_⟩
    rcases hraw.awaits_pushed hf hm with hm | ⟨hw', -⟩
    · exact hp σ f hm hf
    · exact absurd hw' (nextWait_ne_of_called hs.1 hcall)

/-- What the return of `co_wait(co)` to `s'` owes the call in `s`. -/
structure RestoresCurrent (s s' : State) (co : Ptr) : Prop where
  same : s'.current = s.current
  /-- `main` runs with `current` NULL. -/
  main : mainRuns s = true → s'.current = none
  /-- The freed coroutine is not `current`. -/
  alive : s'.current ≠ some co

/-- `co_wait` is called on a coroutine that is neither dead nor `current`, and by `main`
with `current` NULL. -/
def WaitsClean (s : State) (co : Ptr) : Prop :=
  (s.heap co).status ≠ .dead ∧ s.current ≠ some co ∧ (mainRuns s = true → s.current = none)

/-- A `co_wait` that was called in `s` and returns with the step from `t` to `t'` leaves
`current` as it found it exactly when it was called cleanly. -/
theorem wait_restores_current {p : Program} {s t t' : State} {draw : Nat} {co : Ptr}
    (hr : (machine p).Reachable s) (hw : nextWait s = some co) (ht : (machine p).Steps s t)
    (hs : (machine p).step t draw t') (hold : .waitReturned co ∉ t.log)
    (hnew : .waitReturned co ∈ t'.log) : RestoresCurrent s t' co ↔ WaitsClean s co := by
  -- unless the coroutine was dead, the return stores what `current` was
  have hcur : (s.heap co).status = .dead ∧ t'.current = some co ∨
      (s.heap co).status ≠ .dead ∧ t'.current = s.current := by
    have hraw := rawMove_of_step hs.2
    rcases pending_of_steps hr hw ht with rfl | ⟨hcall, hp⟩
    · rcases hraw.returned_inv hnew hold with ⟨-, h | ⟨hst, hnone, hc⟩⟩ | ⟨f, fs, hf, hfw, -⟩
      · exact .inl h
      · exact .inr ⟨hst, hc.trans hnone.symm⟩
      · have hm : f ∈ t.stackOf t.cpu := by
          rw [show t.stackOf t.cpu = f :: fs from hf]
          exact List.mem_cons_self
        exact absurd hw (nextWait_ne_of_called hs.1 (called_of_awaits hr _ f hm co hfw))
    · rcases hraw.returned_inv hnew hold with ⟨hw', -⟩ | ⟨f, fs, hf, hfw, hc⟩
      · exact absurd hw' (nextWait_ne_of_called hs.1 hcall)
      · have hm : f ∈ t.stackOf t.cpu := by
          rw [show t.stackOf t.cpu = f :: fs from hf]
          exact List.mem_cons_self
        obtain ⟨hres, hst⟩ := hp _ f hm hfw
        exact .inr ⟨hst, hc.trans hres⟩
  rcases hcur with ⟨hst, hc⟩ | ⟨hst, hc⟩
  · refine ⟨?_, ?_⟩
    · intro h
      exact absurd hc h.alive
    · intro h
      exact absurd hst h.1
  · refine ⟨?_, ?_⟩
    · intro h
      exact ⟨hst, hc ▸ h.alive, fun hm => hc ▸ h.main hm⟩
    · intro h
      exact ⟨hc, fun hm => hc.trans (h.2.2 hm), hc ▸ h.2.1⟩

/-- `main` waits for a coroutine that finished while it waited for another one. -/
def latecomer : Program where
  main := [.start 0, .start 1, .wait 0, .wait 1]
  name co := if co = 0 then "a" else "b"
  func co := if co = 0 then [.yield] else []

/-- A call after the draws `before`, and a step after the draws `during` it. -/
theorem call_of_any (p : Program) (before during : List Nat) (q : State → State → State → Bool)
    (h : (runDraws p (fun _ _ => True) before (State.init p)).any (fun s =>
      (runDraws p (fun _ _ => True) during s).any fun t =>
        (runDraws p (fun _ _ => True) [0] t).any (q s t)) = true) :
    ∃ s t t', (machine p).Reachable s ∧ (machine p).Steps s t ∧ (machine p).step t 0 t' ∧
      q s t t' = true := by
  obtain ⟨s, hs, h⟩ := (Option.any_eq_true _ _).mp h
  obtain ⟨t, ht, h⟩ := (Option.any_eq_true _ _).mp h
  obtain ⟨t', ht', h⟩ := (Option.any_eq_true _ _).mp h
  exact ⟨s, t, t', run_of_runDraws (.init rfl) hs, steps_of_runDraws ht, step_of_runDraws ht', h⟩

/-- The first `co_wait` of `latecomer` finds its coroutine CO_NEW. -/
theorem wait_restores_current_latecomer :
    ∃ s t', nextWait s = some 0 ∧ .waitReturned 0 ∈ t'.log ∧ RestoresCurrent s t' 0 := by
  obtain ⟨s, t, t', hr, ht, hs, hq⟩ := call_of_any latecomer [0, 0] (List.replicate 7 0)
    (fun s t t' => nextWait s = some 0 && (s.heap 0).status = .new && s.current = none &&
      decide (.waitReturned 0 ∉ t.log) && decide (.waitReturned 0 ∈ t'.log)) (by decide)
  simp only [Bool.and_eq_true, decide_eq_true_eq] at hq
  obtain ⟨⟨⟨⟨hw, hnew⟩, hcur⟩, hold⟩, hret⟩ := hq
  exact ⟨s, t', hw, hret, (wait_restores_current hr hw ht hs hold hret).mpr
    ⟨by simp [hnew], by simp [hcur], fun _ => hcur⟩⟩

/-- The second one finds its coroutine dead, and leaves `current` pointing to it. -/
theorem not_wait_restores_current :
    ¬ ∀ (p : Program) (s t t' : State) (draw : Nat) (co : Ptr), (machine p).Reachable s →
      nextWait s = some co → (machine p).Steps s t → (machine p).step t draw t' →
      .waitReturned co ∉ t.log → .waitReturned co ∈ t'.log → RestoresCurrent s t' co := by
  intro h
  obtain ⟨s, t, t', hr, ht, hs, hq⟩ := call_of_any latecomer (List.replicate 10 0) []
    (fun s t t' => nextWait s = some 1 && decide (.waitReturned 1 ∉ t.log) &&
      decide (.waitReturned 1 ∈ t'.log) && t'.current = some 1) (by decide)
  simp only [Bool.and_eq_true, decide_eq_true_eq] at hq
  obtain ⟨⟨⟨hw, hold⟩, hret⟩, hcur⟩ := hq
  exact (h latecomer s t t' 0 1 hr hw ht hs hold hret).alive hcur

end OsLabs.Libco
