import OsLabs.History
import OsLabs.Libco.Enter

/-!
# OsLabs.Libco.Wait

When `co_wait(co)` returns.

The branches of `co_wait` that call `func` return when `func` has returned, and
the CO_DEAD branch finds a coroutine whose `func` returned long ago. The
CO_WAITING branch does neither: it makes `co` the current coroutine and yields,
so the `setjmp` of that `co_yield` overwrites the context in which `co` was left
half-run; when `co` is drawn again, it is `co_wait` that continues, and frees it
(`not_wait_returns_after_func`). Apart from that branch, and from a nested
`co_wait` on a coroutine that is half-run, `co_wait` waits
(`wait_returns_after_func`).
-/

namespace OsLabs.Libco

/-- `co_wait` finds its coroutine dead, or CO_NEW and not running. -/
def WaitNew (s : State) : Prop :=
  ∀ co ∈ nextWait s, (s.heap co).status ≠ .dead →
    (s.heap co).status = .new ∧ s.current ≠ some co

instance (s : State) : Decidable (WaitNew s) :=
  inferInstanceAs (Decidable (∀ co ∈ nextWait s, _))

theorem WaitNew.nested {s : State} (h : WaitNew s) : NestedWaitNew s := by
  intro co hco cur hcur hdead
  obtain ⟨hnew, hne⟩ := h co hco hdead
  refine ⟨hnew, ?_⟩
  intro heq
  subst heq
  exact hne hcur

/-- The coroutine whose `func` has just returned to the top of the stack `σ`. -/
def justReturned (σ : StackId) : List Frame → Option Ptr
  | .waitNew co :: _ => some co
  | .waitNested co _ :: _ => some co
  | .callback :: fs => owner σ (.callback :: fs)
  | _ => none

/-- `func` returns to a frame of its own coroutine. -/
theorem justReturned_ret {σ : StackId} {co d : Ptr} {rest : List Call} {fs : List Frame}
    (hok : StackOK σ (.func co rest :: fs)) (h : justReturned σ fs = some d) : d = co := by
  cases hok with
  | funcOwn => exact (Option.some.inj h).symm
  | funcNew => exact (Option.some.inj h).symm
  | funcNested => exact (Option.some.inj h).symm

/-- A return of `co_wait` comes after the return of `func`. -/
def AfterFunc : Event → List Event → Prop
  | .waitReturned co, older => .returned co ∈ older
  | _, _ => True

/-- What holds as long as `co_wait` waits. -/
structure Waits (s : State) : Prop where
  /-- No `co_wait` is in its CO_WAITING branch. -/
  unborrowed : ∀ σ co, .waitWaiting co ∉ s.stackOf σ
  back : ∀ co, justReturned s.cpu s.frames = some co → s.Returned co
  dead : ∀ co, s.Started co → (s.heap co).status = .dead → s.Returned co
  /-- A started coroutine leaves the list after its function has returned. -/
  listed : ∀ co, s.Started co → co ∉ s.coList → s.Returned co
  justified : Justified AfterFunc s.log

theorem waits_init (p : Program) : Waits (State.init p) where
  unborrowed σ := by cases σ <;> simp [State.init]
  back := by simp [State.init, State.frames, justReturned]
  dead := by simp [State.Started, State.init]
  listed := by simp [State.Started, State.init]
  justified := by simp [State.init]

/-- What a step has to show to keep `Waits`. -/
structure Settles (s s' : State) : Prop where
  started : ∀ co, s'.Started co →
    s.Started co ∨ co ∈ s'.coList ∧ (s'.heap co).status ≠ .dead := by
    simp +contextual [State.Started]
  returned : ∀ co, s.Returned co → s'.Returned co := by simp +contextual [State.Returned]
  stackOf : ∀ σ co, .waitWaiting co ∈ s'.stackOf σ → .waitWaiting co ∈ s.stackOf σ
  back : ∀ co, justReturned s'.cpu s'.frames = some co → s'.Returned co := by simp [justReturned]
  dead : ∀ co, (s'.heap co).status = .dead → (s.heap co).status = .dead ∨ s.Returned co := by
    simp +contextual
  listed : ∀ co, co ∉ s'.coList → co ∉ s.coList ∨ s.Returned co := by simp +contextual
  justified : Justified AfterFunc s.log → Justified AfterFunc s'.log := by simp [AfterFunc]

theorem Waits.settles {s s' : State} (hW : Waits s) (h : Settles s s') : Waits s' where
  unborrowed σ co hm := hW.unborrowed σ co (h.stackOf σ co hm)
  back := h.back
  dead co hst hd := by
    rcases h.started co hst with hst | ⟨-, hn⟩
    · rcases h.dead co hd with hd | hr
      · exact h.returned co (hW.dead co hst hd)
      · exact h.returned co hr
    · exact absurd hd hn
  listed co hst hl := by
    rcases h.started co hst with hst | ⟨hl', -⟩
    · rcases h.listed co hl with hl | hr
      · exact h.returned co (hW.listed co hst hl)
      · exact h.returned co hr
    · exact absurd hl' hl
  justified := h.justified hW.justified

section
variable {p : Program} {s s' t : State}

theorem stacks_cpu {fs : List Frame} (hf : s.frames = fs) : s.stackOf s.cpu = fs := hf

theorem Called.not_justReturned {call : Call} (h : Called s call t) :
    justReturned t.cpu t.frames = none := by
  rcases h.frames with ⟨_, _, hf⟩ | ⟨_, _, _, hf⟩
  · rw [hf]; rfl
  · rw [hf]; rfl

/-- `co_delete` unlinks a coroutine whose function has returned. -/
theorem Base.listed_unlinked (hb : Base p s) {co : Ptr} (hcur : s.current = some co)
    (hr : s.Returned co) (d : Ptr)
    (hd : d ∉ s.coList.eraseP fun d => decide ((s.heap d).name = (s.heap co).name)) :
    d ∉ s.coList ∨ s.Returned d := by
  rcases hb.notMem_unlinked (hb.current co hcur) hd with h | rfl
  · exact .inl h
  · exact .inr hr

theorem waits_of_move (hI : Inv p s) (hw : WaitNew s) (hW : Waits s) (hm : Move p s s') :
    Waits s' := by
  have hb := hI.base
  cases hm with
  | @start t co hcall hn hnames =>
      refine hW.settles
        { started := ?_
          returned := by simp [State.Returned, hcall.log]
          stackOf := fun _ _ => hcall.mem_stackOf (by simp) (by simp)
          back := by simp [hcall.not_justReturned]
          dead := ?_
          listed := by simp +contextual [hcall.coList]
          justified := by simp [hcall.log, AfterFunc] }
      · intro d hd
        rcases (by simpa [State.Started] using hd : d = co ∨ t.Started d) with rfl | hd
        · exact .inr (by simp)
        · exact .inl (by simpa [State.Started, hcall.log] using hd)
      · intro d hd
        by_cases h : d = co
        · simp [h] at hd
        · exact .inl (by simpa [h, hcall.heap] using hd)
  | @yield co rest fs hf =>
      refine hW.settles
        { stackOf := fun _ _ => mem_of_stack (τ := s.cpu) hf (by simp) (by simp +contextual)
          dead := by
            intro d
            by_cases hd : d = co <;> simp +contextual [hd] }
  | @waitDead t co hcall hst hdead =>
      have hr : s.Returned co :=
        hW.dead co (by simpa [State.Started, hcall.log] using hst)
          (by simpa [hcall.heap] using hdead)
      refine hW.settles
        { started := by simp +contextual [State.Started, hcall.log]
          returned := by simp [State.Returned, hcall.log]
          stackOf := fun _ _ => hcall.mem_stackOf (by simp) (by simp)
          back := by simp [hcall.not_justReturned]
          dead := by simp +contextual [hcall.heap]
          listed := by simp +contextual [hcall.coList]
          justified := ?_ }
      rw [State.Returned, ← hcall.log] at hr
      simp +contextual [AfterFunc, ← hcall.log, hr]
  | @waitNew co rest fs hf hst hfr hcur hnew =>
      refine hW.settles
        { stackOf := fun _ _ => mem_of_stack (τ := s.cpu) hf (by simp) (by simp +contextual)
          dead := by
            intro d
            by_cases hd : d = co <;> simp +contextual [hd] }
  | @waitWaiting co rest fs hf hst hfr hcur hwt =>
      have := (hw co (nextWait_main hf) (by simp [hwt])).1
      simp [hwt] at this
  | @waitRunning co rest fs hf hst hcur hrun =>
      have := (hw co (nextWait_main hf) (by simp [hrun])).1
      simp [hrun] at this
  | @waitNested co old rest fs hf hst hfr hl hcur hdead =>
      refine hW.settles
        { stackOf := fun _ _ => mem_of_stack (τ := s.cpu) hf (by simp) (by simp +contextual)
          dead := ?_ }
      · intro d
        by_cases hd : d = co
        · simp [hd]
        · by_cases hd' : d = old
          · subst hd'
            simp [hd]
          · simp +contextual [hd, hd']
  | @ret co fs hf =>
      refine hW.settles
        { stackOf := fun _ _ => mem_of_stack (τ := s.cpu) hf (by simp) (by simp +contextual)
          back := ?_ }
      · intro d hd
        obtain rfl := justReturned_ret (hb.cpu_ok hf) (by simpa using hd)
        simp [State.Returned]
  | @waitNewReturn co fs hf hl hcur =>
      have hr : s.Returned co := hW.back co (by rw [hf, justReturned])
      obtain ⟨rest, fs', rfl⟩ := (hb.cpu_ok hf).main_of_waitNew
      have hlisted := hb.listed_unlinked hcur hr
      refine hW.settles
        { stackOf := fun _ _ => mem_of_stack (τ := s.cpu) hf (by simp) (by simp +contextual)
          dead := ?_
          listed := fun d hd => hlisted d (by simpa using hd)
          justified := ?_ }
      · intro d
        by_cases hd : d = co
        · exact fun _ => .inr (hd ▸ hr)
        · simp +contextual [hd]
      · have hr' : .returned co ∈ s.log := hr
        simp +contextual [AfterFunc, hr']
  | @waitWaitingReturn co fs hf =>
      exact absurd (by rw [stacks_cpu hf]; exact List.mem_cons_self) (hW.unborrowed s.cpu co)
  | @waitNestedReturn co old fs hf hl hcur =>
      have hr : s.Returned co := hW.back co (by rw [hf, justReturned])
      obtain ⟨rest, fs', rfl⟩ := (hb.cpu_ok hf).func_of_waitNested
      have hlisted := hb.listed_unlinked hcur hr
      refine hW.settles
        { stackOf := fun _ _ => mem_of_stack (τ := s.cpu) hf (by simp) (by simp +contextual)
          dead := ?_
          listed := fun d hd => hlisted d (by simpa using hd)
          justified := ?_ }
      · intro d
        by_cases hd : d = co
        · exact fun _ => .inr (hd ▸ hr)
        · by_cases hd' : d = old
          · subst hd'
            simp [hd]
          · simp +contextual [hd, hd']
      · have hr' : .returned co ∈ s.log := hr
        simp +contextual [AfterFunc, hr']
  | @callback co hf hcpu hl hcur =>
      have hr : s.Returned co := hW.back co (by rw [hf, hcpu]; rfl)
      have hlisted := hb.listed_unlinked hcur hr
      refine hW.settles
        { stackOf := fun _ _ => mem_of_stack (τ := s.cpu) hf (by simp) (by simp +contextual)
          dead := ?_
          listed := fun d hd => hlisted d (by simpa using hd) }
      · intro d
        by_cases hd : d = co
        · exact fun _ => .inr (hd ▸ hr)
        · simp +contextual [hd]
  | round => exact hW
  | @switch n fs co choice hf hl hcur hmem hnew =>
      exact hW.settles
        { stackOf := fun _ _ =>
            mem_of_stack (τ := .own choice) rfl (by simp) (by simp +contextual) }
  | @resume choice cur ctx fs htop hl hcur hmem hwt hctx hfs =>
      refine hW.settles
        { stackOf := fun _ _ => mem_of_stack hfs (by simp +contextual) (by simp +contextual)
          back := ?_
          dead := ?_ }
      · -- what was saved is an activation of `co_yield`, under which `func` lies
        have hok : StackOK ctx.stack (.yield ctx.yield :: fs) := hfs ▸ hb.stackOf ctx.stack
        rcases hok.under_yield with ⟨_, _, _, rfl⟩ | ⟨_, _, rfl⟩
        · simp [justReturned]
        · simp [justReturned]
      · intro d
        by_cases hd : d = choice <;> simp +contextual [hd]

end

/-- In a run in which nothing reads a dangling `current` and `co_wait` is called on
CO_NEW or dead coroutines only, `co_wait(co)` returns after `co->func` has, and a
coroutine that was unlinked or freed has returned and has no activation left. -/
theorem wait_returns_after_func {p : Program} {s : State}
    (h : (machine p).Run (fun s _ => NoDangling s ∧ WaitNew s) s) :
    (∀ newer older co, s.log = newer ++ .waitReturned co :: older → .returned co ∈ older) ∧
      ∀ co, s.Started co → (co ∉ s.coList ∨ s.Freed co) →
        s.Returned co ∧ ∀ σ rest, .func co rest ∉ s.stackOf σ := by
  have hinv : (machine p).Invariant (fun s _ => NoDangling s ∧ WaitNew s)
      fun s => Inv p s ∧ Bodies s ∧ Waits s :=
    invariant_of_moves (fun _ _ hg => hg.1) ⟨bodies_init p, waits_init p⟩
      fun _ _ _ hI hJ hg hm =>
        ⟨bodies_of_move hI hg.2.nested hJ.1 hm, waits_of_move hI hg.2 hJ.2 hm⟩
  obtain ⟨hI, hB, hW⟩ := h.invariant hinv
  refine ⟨fun newer older co hlog => hW.justified newer _ older hlog, fun co hst hgone => ?_⟩
  have hoff : co ∉ s.coList := by
    rcases hgone with hl | hf
    · exact hl
    · exact fun hl => hI.base.unfreed co hl hf
  have hr : s.Returned co := hW.listed co hst hoff
  exact ⟨hr, fun σ rest hm => hB.unreturned σ co (mem_bodies.mpr ⟨rest, hm⟩) hr⟩

/-- Two coroutines that yield once; `main` waits for the first and then for the second. -/
def handover : Program where
  main := [.start 0, .start 1, .wait 0]
  name co := if co = 0 then "a" else "b"
  func _ := [.yield]

theorem wait_returns_after_func_handover :
    ∃ s, runDraws handover (fun s _ => NoDangling s ∧ WaitNew s) (List.replicate 9 0)
        (State.init handover) = some s ∧
      s.Freed 0 ∧ s.Returned 0 ∧ ∀ σ rest, .func 0 rest ∉ s.stackOf σ := by
  obtain ⟨s, hs, hend⟩ : ∃ s, runDraws handover (fun s _ => NoDangling s ∧ WaitNew s)
      (List.replicate 9 0) (State.init handover) = some s ∧
        (decide (.started 0 ∈ s.log), decide (.freed 0 ∈ s.log)) = (true, true) :=
    Option.map_eq_some_iff.mp (by decide)
  have hst : .started 0 ∈ s.log := of_decide_eq_true (Prod.mk.inj hend).1
  have hf : .freed 0 ∈ s.log := of_decide_eq_true (Prod.mk.inj hend).2
  exact ⟨s, hs, hf, (wait_returns_after_func (run_of_runDraws (.init rfl) hs)).2 0 hst (.inr hf)⟩

/-- `main` waits for a coroutine that is half-run when the one it waited for first
is done. -/
def halfRun : Program where
  main := [.start 0, .start 1, .wait 0, .wait 1]
  name co := if co = 0 then "a" else "b"
  func co := if co = 0 then [.yield] else [.yield, .yield]

/-- The second `co_wait` of `halfRun` returns, and frees its coroutine, before the
function of the coroutine has returned. -/
theorem not_wait_returns_after_func :
    ¬ ∀ (p : Program) (s : State), (machine p).Reachable s →
      ∀ newer older co, s.log = newer ++ .waitReturned co :: older → .returned co ∈ older := by
  intro h
  obtain ⟨s, hs, hend⟩ : ∃ s, runDraws halfRun (fun _ _ => True) (List.replicate 12 0)
      (State.init halfRun) = some s ∧
        (s.log.head?, decide (.returned 1 ∈ s.log)) = (some (.waitReturned 1), false) :=
    Option.map_eq_some_iff.mp (by decide)
  obtain ⟨older, hlog⟩ := List.head?_eq_some_iff.mp (Prod.mk.inj hend).1
  have hr := h halfRun s (run_of_runDraws (.init rfl) hs) [] older 1 hlog
  refine of_decide_eq_false (Prod.mk.inj hend).2 ?_
  rw [hlog]
  exact List.mem_cons_of_mem _ hr

end OsLabs.Libco
