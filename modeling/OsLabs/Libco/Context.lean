import Mathlib.Algebra.GroupWithZero.Nat
import Mathlib.Algebra.Order.BigOperators.Group.List
import Mathlib.Algebra.Order.Group.Nat
import OsLabs.Libco.Preservation

/-!
# OsLabs.Libco.Context

What `longjmp(co->context, 2)` jumps to.

`co_yield` and `callback` jump to the coroutine they draw when its status is
CO_WAITING. Three places set that status: `co_yield`, after which a context is
saved; `co_wait` called inside a coroutine, which saves none; and the CO_WAITING
branch of `co_wait`, whose `co_yield` saves the caller's context in `co`.

When `main` does not take that last branch, a coroutine on the list that is
CO_WAITING either has the context of its own latest `co_yield` (`OwnYield`) or is
parked inside a nested `co_wait` (`Parked`). A `longjmp` is right for the first
kind and wrong for the second (`longjmp_to_own_yield`).

A frame of `co_yield` has a `struct co` in it, and so more than STACK_SIZE bytes. On
the own stack of a coroutine it leaves the stack and overwrites what is below it,
other coroutines with their stacks included (`roomMachine`). As long as this has not
happened, every context that is jumped to is on the process stack.
-/

namespace OsLabs.Libco

/-- The coroutine the next step calls `longjmp` for, when `rand()` returns `draw`. -/
def longjmpTarget (s : State) (draw : Nat) : Option Ptr :=
  match s.frames, s.current with
  | .yield _ :: _, some cur =>
      (randChoose s draw cur).filter fun c => (s.heap c).status = .waiting
  | .callbackLoop :: _, some cur =>
      (randChoose s draw cur).filter fun c =>
        (s.heap c).status = .waiting ∧ (s.heap c).name ≠ (s.heap cur).name
  | _, _ => none

/-- The events that decide what the context of `co` is worth. -/
@[simp] def Event.marks (co : Ptr) : Event → Bool
  | .saved d _ => d = co
  | .resumed d => d = co
  | .parked d => d = co
  | _ => false

/-- The latest of them. -/
def State.mark (s : State) (co : Ptr) : Option Event := s.log.find? (Event.marks co)

/-- `co` is CO_WAITING because of a `co_wait` it has called: it has not called
`co_yield` since. -/
def State.Parked (s : State) (co : Ptr) : Prop := s.mark co = some (.parked co)

/-- The context of `co` was saved by the latest `co_yield` of its own body and not
resumed since; the frame is still there. -/
structure OwnYield (s : State) (co : Ptr) (σ : StackId) (n : Nat) (rest : List Call)
    (fs : List Frame) : Prop where
  context : (s.heap co).context = some ⟨σ, n⟩
  latest : s.mark co = some (.saved co n)
  frames : s.stackOf σ = .yield n :: .func co rest :: fs

/-- A CO_WAITING coroutine on the list has a context of its own, or is parked. -/
def Resumable (s : State) : Prop :=
  ∀ co ∈ s.coList, (s.heap co).status = .waiting →
    s.Parked co ∨ ∃ σ n rest fs, OwnYield s co σ n rest fs

/-- `main` does not wait for a coroutine that is CO_WAITING. -/
def Unborrowed (s : State) : Prop :=
  ∀ co ∈ nextWait s, s.current = none → (s.heap co).status ≠ .waiting

instance (s : State) : Decidable (Unborrowed s) :=
  inferInstanceAs (Decidable (∀ co ∈ nextWait s, _))

/-- Whatever a step jumps to is a CO_WAITING coroutine of the list. -/
theorem longjmpTarget_mem {s : State} {draw : Nat} {co : Ptr}
    (h : longjmpTarget s draw = some co) : co ∈ s.coList ∧ (s.heap co).status = .waiting := by
  unfold longjmpTarget at h
  split at h
  · obtain ⟨hc, hst⟩ := Option.filter_eq_some_iff.mp h
    exact ⟨(randChoose_mem hc).1, of_decide_eq_true hst⟩
  · obtain ⟨hc, hst⟩ := Option.filter_eq_some_iff.mp h
    exact ⟨(randChoose_mem hc).1, (of_decide_eq_true hst).1⟩
  · exact absurd h (by simp)

/-- The step that jumps is the end of `co_yield` or of `callback`. -/
theorem step_of_longjmpTarget {p : Program} {s : State} {draw : Nat} {co : Ptr}
    (h : longjmpTarget s draw = some co) : step p draw s = resume s co := by
  unfold longjmpTarget at h
  split at h
  · next n fs cur hf hcur =>
    obtain ⟨hc, hst⟩ := Option.filter_eq_some_iff.mp h
    have hst := of_decide_eq_true hst
    simp only [step, hf, coYieldSwitch, hcur, hc, hst]
  · next fs cur hf hcur =>
    obtain ⟨hc, hst⟩ := Option.filter_eq_some_iff.mp h
    obtain ⟨hst, hne⟩ := of_decide_eq_true hst
    simp [step, hf, callbackRound, hcur, hc, hst, hne]
  · exact absurd h (by simp)

/-- What a step has to show to keep `Resumable`: a coroutine that is CO_WAITING after
it has one of the two excuses, or its record was not touched; and no stack with an
activation of `co_yield` on it was, unless it is excused. -/
structure Suspends (s s' : State) : Prop where
  waiting : ∀ co ∈ s'.coList, (s'.heap co).status = .waiting →
    (s'.Parked co ∨ ∃ σ n rest fs, OwnYield s' co σ n rest fs) ∨
      co ∈ s.coList ∧ (s.heap co).status = .waiting ∧
        (s'.heap co).context = (s.heap co).context ∧ s'.mark co = s.mark co
  stackOf : ∀ σ n co rest fs, s.stackOf σ = .yield n :: .func co rest :: fs →
    s'.stackOf σ = s.stackOf σ ∨ (s'.heap co).status ≠ .waiting

theorem Resumable.suspends {s s' : State} (hR : Resumable s) (h : Suspends s s') :
    Resumable s' := by
  intro co hmem hst
  rcases h.waiting co hmem hst with hdone | ⟨hmem', hst', hctx, hmark⟩
  · exact hdone
  · rcases hR co hmem' hst' with hp | ⟨σ, n, rest, fs, how⟩
    · left
      rw [State.Parked, hmark]
      exact hp
    · rcases h.stackOf σ n co rest fs how.frames with hsame | hne
      · exact .inr ⟨σ, n, rest, fs,
          { context := by rw [hctx, how.context]
            latest := by rw [hmark, how.latest]
            frames := by rw [hsame, how.frames] }⟩
      · exact absurd hst hne

section
variable {p : Program} {s s' t : State}

/-- A step of the running stack leaves the suspended stacks alone. -/
theorem suspended_stackOf (htop : ∀ n fs, s.frames ≠ .yield n :: fs)
    (hrest : ∀ σ, σ ≠ s.cpu → s'.stackOf σ = s.stackOf σ) :
    ∀ σ n co rest fs, s.stackOf σ = .yield n :: .func co rest :: fs →
      s'.stackOf σ = s.stackOf σ ∨ (s'.heap co).status ≠ .waiting := by
  intro σ n co rest fs hσ
  refine .inl (hrest σ ?_)
  intro heq
  subst heq
  exact htop n _ hσ

/-- Client code is on top when a library call is made. -/
theorem Called.top {call : Call} (h : Called s call t) :
    ∀ n fs, s.frames ≠ .yield n :: fs := by
  cases h with
  | main hf => simp [hf]
  | func hf => simp [hf]

theorem resumable_of_move (hI : Inv p s) (hu : Unborrowed s) (hR : Resumable s)
    (hm : Move p s s') : Resumable s' := by
  have hb := hI.base
  cases hm with
  | @start t co hcall hn hnames =>
      refine hR.suspends
        { waiting := ?_
          stackOf := suspended_stackOf hcall.top fun σ hσ => by simp [hcall.stacks_of_ne hσ] }
      intro d hmem hst
      have hne : d ≠ co := by
        intro heq
        subst heq
        simp at hst
      right
      simpa [hne, hcall.coList, hcall.heap, hcall.log, State.mark] using And.intro hmem hst
  | @yield co rest fs hf hl hcur =>
      refine hR.suspends
        { waiting := ?_
          stackOf := suspended_stackOf (by simp [hf]) (by simp +contextual) }
      intro d hmem hst
      by_cases hd : d = co
      · left; right
        exact ⟨s.cpu, s.yields, rest, fs,
          { context := by simp [hd]
            latest := by simp [State.mark, hd]
            frames := by simp [hd] }⟩
      · right
        have hd' : co ≠ d := fun h => hd h.symm
        simpa [hd, hd', State.mark] using And.intro hmem hst
  | @waitDead t co hcall hst hdead =>
      refine hR.suspends
        { waiting := ?_
          stackOf := suspended_stackOf hcall.top fun σ hσ => by simp [hcall.stacks_of_ne hσ] }
      intro d hmem hst
      right
      simpa [hcall.coList, hcall.heap, hcall.log, State.mark] using And.intro hmem hst
  | @waitNew co rest fs hf hst hfr hcur hnew =>
      refine hR.suspends
        { waiting := ?_
          stackOf := suspended_stackOf (by simp [hf]) (by simp +contextual) }
      intro d hmem hst
      have hne : d ≠ co := by
        intro heq
        subst heq
        simp at hst
      right
      simpa [hne, State.mark] using And.intro hmem hst
  | @waitWaiting co rest fs hf hst hfr hcur hwt => exact absurd hwt (hu co (nextWait_main hf) hcur)
  | @waitRunning co rest fs hf hst hcur hrun =>
      refine hR.suspends
        { waiting := ?_
          stackOf := suspended_stackOf (by simp [hf]) (by simp +contextual) }
      intro d hmem hst
      right
      simpa [State.mark] using And.intro hmem hst
  | @waitNested co old rest fs hf hst hfr hl hcur hdead =>
      refine hR.suspends
        { waiting := ?_
          stackOf := suspended_stackOf (by simp [hf]) (by simp +contextual) }
      intro d hmem hst
      have hne : d ≠ co := by
        intro heq
        subst heq
        simp at hst
      by_cases hd : d = old
      · left; left
        simp [State.Parked, State.mark, hd]
      · right
        have hd' : old ≠ d := fun h => hd h.symm
        simpa [hne, hd, hd', State.mark] using And.intro hmem hst
  | @ret co fs hf =>
      refine hR.suspends
        { waiting := ?_
          stackOf := suspended_stackOf (by simp [hf]) (by simp +contextual) }
      intro d hmem hst
      right
      simpa [State.mark] using And.intro hmem hst
  | @waitNewReturn co fs hf hl hcur =>
      refine hR.suspends
        { waiting := ?_
          stackOf := suspended_stackOf (by simp [hf]) (by simp +contextual) }
      intro d hmem hst
      obtain ⟨hne, hmem'⟩ : d ≠ co ∧ d ∈ s.coList :=
        hb.mem_unlinked (hb.current co hcur) (by simpa using hmem)
      right
      simpa [hne, State.mark] using And.intro hmem' hst
  | @waitWaitingReturn co fs hf hl hcur =>
      refine hR.suspends
        { waiting := ?_
          stackOf := suspended_stackOf (by simp [hf]) (by simp +contextual) }
      intro d hmem hst
      have hmem' : d ∈ s.coList := (hb.mem_unlinked (hb.current co hcur) (by simpa using hmem)).2
      right
      simpa [State.mark] using And.intro hmem' hst
  | @waitNestedReturn co old fs hf hl hcur =>
      refine hR.suspends
        { waiting := ?_
          stackOf := suspended_stackOf (by simp [hf]) (by simp +contextual) }
      intro d hmem hst
      obtain ⟨hne, hmem'⟩ : d ≠ co ∧ d ∈ s.coList :=
        hb.mem_unlinked (hb.current co hcur) (by simpa using hmem)
      have hold : d ≠ old := by
        intro heq
        subst heq
        simp [hne] at hst
      right
      simpa [hne, hold, State.mark] using And.intro hmem' hst
  | @callback co hf hcpu hl hcur =>
      refine hR.suspends
        { waiting := ?_
          stackOf := suspended_stackOf (by simp [hf]) (by simp +contextual) }
      intro d hmem hst
      obtain ⟨hne, hmem'⟩ : d ≠ co ∧ d ∈ s.coList :=
        hb.mem_unlinked (hb.current co hcur) (by simpa using hmem)
      right
      simpa [hne, State.mark] using And.intro hmem' hst
  | round => exact hR
  | @switch n fs co choice hf hl hcur hmem hnew =>
      have hempty := ((hI.core hl).fresh_choice hf hcur (hb.started choice hmem) hnew).2
      refine hR.suspends
        { waiting := ?_
          stackOf := ?_ }
      · intro d hmem hst
        right
        simpa [State.mark] using And.intro hmem hst
      · intro σ n co rest fs hσ
        left
        by_cases h : σ = .own choice
        · rw [h, hempty] at hσ
          simp at hσ
        · simp [h]
  | @resume choice cur ctx fs htop hl hcur hmem hwt hctx hfs =>
      refine hR.suspends
        { waiting := ?_
          stackOf := ?_ }
      · intro d hmem hst
        have hne : d ≠ choice := by
          intro heq
          subst heq
          simp at hst
        have hne' : choice ≠ d := fun h => hne h.symm
        right
        simpa [hne, hne', State.mark] using And.intro hmem hst
      · -- a saved context on top of a stack belongs to its owner, here the one resumed
        intro σ n co rest fs' hσ
        by_cases h : σ = ctx.stack
        · right
          have hown := ((hI.core hl).contexts choice ctx hctx).2 fs hfs
          rw [h, hfs] at hσ
          obtain ⟨-, rfl⟩ := List.cons.inj hσ
          obtain rfl : co = choice := by simpa [owner] using hown
          simp
        · simp [h]

theorem resumable_init (p : Program) : Resumable (State.init p) := by
  intro co hco
  simp [State.init] at hco

end

/-- `longjmp` to the context of a coroutine's own `co_yield` continues right after it. -/
theorem longjmp_of_ownYield {p : Program} {s : State} {draw : Nat} {co : Ptr} {σ : StackId}
    {n : Nat} {rest : List Call} {fs : List Frame} (ht : longjmpTarget s draw = some co)
    (h : OwnYield s co σ n rest fs) :
    ∃ s', step p draw s = .next s' ∧ s'.cpu = σ ∧ s'.frames = .func co rest :: fs ∧
      s'.current = some co := by
  rw [step_of_longjmpTarget ht]
  refine ⟨jump ((s.setStatus co .running).setCurrent (some co)) co ⟨σ, n⟩
    (.func co rest :: fs), ?_, by simp, by simp, by simp⟩
  simp [resume, longjmp, h.context, h.frames, unwind]

/-! ### The room on a stack -/

/-- The frames of the running stack fit in it, when they take so many bytes each with what
they call. The process stack grows. -/
def Fits (bytes : Frame → Nat) (s : State) : Prop :=
  s.cpu = .main ∨ (s.frames.map bytes).sum ≤ stackSize

instance (bytes : Frame → Nat) (s : State) : Decidable (Fits bytes s) :=
  inferInstanceAs (Decidable (_ ∨ _))

/-- The library on stacks of this size. When the frames of a stack do not fit, they have
overwritten other memory, and there is nothing that can not happen next. -/
def roomMachine (p : Program) (bytes : Frame → Nat) : System State Nat where
  init := (machine p).init
  step s draw s' := Fits bytes s → (machine p).step s draw s'

section
variable {p : Program} {bytes : Frame → Nat} {ok : State → Nat → Prop} {s s' : State}

/-- As long as the frames fit, the two machines do the same. -/
theorem run_of_roomRun (h : (roomMachine p bytes).Run (fun s draw => ok s draw ∧ Fits bytes s) s) :
    (machine p).Run (fun s draw => ok s draw ∧ Fits bytes s) s := by
  induction h with
  | init h0 => exact .init h0
  | step _ hok hs ih => exact ih.step hok (hs hok.2)

theorem roomRun_of_run (h : (machine p).Run (fun s draw => ok s draw ∧ Fits bytes s) s) :
    (roomMachine p bytes).Run (fun s draw => ok s draw ∧ Fits bytes s) s := by
  induction h with
  | init h0 => exact .init h0
  | step _ hok hs ih => exact ih.step hok fun _ => hs

/-- A move leaves the stacks alone that do not run after it. -/
theorem stackOf_of_move (hm : Move p s s') {σ : StackId} (hσ : σ ≠ s'.cpu) :
    s'.stackOf σ = s.stackOf σ := by
  cases hm with
  | start hcall | waitDead hcall => exact hcall.stacks_of_ne (by simpa [hcall.cpu] using hσ)
  | round => rfl
  | switch | resume =>
      simp only [stackSwitchCall_cpu, jump_cpu] at hσ
      simp [hσ]
  | _ =>
      have hσ : σ ≠ s.cpu := by simpa using hσ
      simp [hσ]

/-- No activation of `co_yield` is left on the own stack of a coroutine. -/
def YieldsRun (s : State) : Prop := ∀ c n, .yield n ∈ s.stackOf (.own c) → s.cpu = .own c

theorem YieldsRun.not_mem (h : YieldsRun s) (hbytes : ∀ n, stackSize < bytes (.yield n))
    (hfits : Fits bytes s) (c : Ptr) (n : Nat) : .yield n ∉ s.stackOf (.own c) := by
  intro hy
  have hcpu := h c n hy
  rcases hfits with hmain | hsum
  · exact absurd (hmain.symm.trans hcpu) (by simp)
  · have hmem : bytes (.yield n) ∈ s.frames.map bytes := by
      rw [State.frames, hcpu]
      exact List.mem_map_of_mem hy
    have := List.single_le_sum (fun _ _ => Nat.zero_le _) _ hmem
    have := hbytes n
    omega

theorem yieldsRun_of_move (h : YieldsRun s) (hbytes : ∀ n, stackSize < bytes (.yield n))
    (hfits : Fits bytes s) (hm : Move p s s') : YieldsRun s' := by
  intro c n hy
  by_contra hcpu
  rw [stackOf_of_move hm (Ne.symm hcpu)] at hy
  exact h.not_mem hbytes hfits c n hy

end

/-- In a run in which the frames fit on their stacks, nothing reads a dangling `current`
and `main` does not wait for a CO_WAITING coroutine, a `longjmp` continues a coroutine
right after the latest `co_yield` of its own body if and only if the coroutine is not
parked. -/
theorem longjmp_to_own_yield {p : Program} {bytes : Frame → Nat} {s : State} {draw : Nat} {co : Ptr}
    (hbytes : ∀ n, stackSize < bytes (.yield n))
    (h : (roomMachine p bytes).Run (fun s _ => (NoDangling s ∧ Unborrowed s) ∧ Fits bytes s) s)
    (hfits : Fits bytes s) (ht : longjmpTarget s draw = some co) :
    (∃ n rest fs, OwnYield s co .main n rest fs ∧ ∃ s', step p draw s = .next s' ∧
        s'.cpu = .main ∧ s'.frames = .func co rest :: fs ∧ s'.current = some co) ↔
      ¬ s.Parked co := by
  have hinv : (machine p).Invariant (fun s _ => (NoDangling s ∧ Unborrowed s) ∧ Fits bytes s)
      fun s => Inv p s ∧ Resumable s ∧ YieldsRun s :=
    invariant_of_moves (fun _ _ hg => hg.1.1)
      ⟨resumable_init p, by simp [YieldsRun, State.init]⟩
      fun _ _ _ hI hJ hg hm =>
        ⟨resumable_of_move hI hg.1.2 hJ.1 hm, yieldsRun_of_move hJ.2 hbytes hg.2 hm⟩
  obtain ⟨-, hR, hY⟩ := (run_of_roomRun h).invariant hinv
  obtain ⟨hmem, hst⟩ := longjmpTarget_mem ht
  constructor
  · intro hown hp
    obtain ⟨n, rest, fs, how, -⟩ := hown
    -- the latest mark is a `setjmp`, not a nested `co_wait`
    rw [State.Parked, how.latest] at hp
    exact absurd hp (by simp)
  · intro hp
    rcases hR co hmem hst with hp' | ⟨σ, n, rest, fs, how⟩
    · exact absurd hp' hp
    · obtain rfl : σ = .main := by
        cases σ with
        | main => rfl
        | own c => exact absurd (by simp [how.frames]) (hY.not_mem hbytes hfits c n)
      exact ⟨n, rest, fs, how, longjmp_of_ownYield ht how⟩

/-- The bytes of the frames, where a frame other than that of `co_yield` takes 512. -/
def someBytes : Frame → Nat
  | .yield _ => stackSize + 512
  | _ => 512

/-- A coroutine that yields, and one that does not. -/
def yieldOnce : Program where
  main := [.start 0, .start 1, .wait 0]
  name co := if co = 0 then "a" else "b"
  func co := if co = 0 then [.yield] else []

theorem longjmp_to_own_yield_once :
    ∃ s, runDraws yieldOnce (fun s _ => (NoDangling s ∧ Unborrowed s) ∧ Fits someBytes s)
        [0, 0, 0, 0, 0, 0, 0] (State.init yieldOnce) = some s ∧
      ∃ n rest fs, OwnYield s 0 .main n rest fs ∧ ∃ s', step yieldOnce 0 s = .next s' ∧
        s'.cpu = .main ∧ s'.frames = .func 0 rest :: fs ∧ s'.current = some 0 := by
  obtain ⟨s, hs, hend⟩ : ∃ s, runDraws yieldOnce
      (fun s _ => (NoDangling s ∧ Unborrowed s) ∧ Fits someBytes s) [0, 0, 0, 0, 0, 0, 0]
      (State.init yieldOnce) = some s ∧
        (longjmpTarget s 0, s.mark 0, decide (Fits someBytes s)) =
          (some 0, some (.saved 0 0), true) :=
    Option.map_eq_some_iff.mp (by decide)
  obtain ⟨ht, hend⟩ := Prod.mk.inj hend
  obtain ⟨hmark, hfits⟩ := Prod.mk.inj hend
  have hp : ¬ s.Parked 0 := by
    intro h
    exact absurd (hmark.symm.trans h) (by simp)
  have hbytes : ∀ n, stackSize < someBytes (.yield n) :=
    fun _ => Nat.lt_add_of_pos_right (by decide)
  have hr := roomRun_of_run (run_of_runDraws (.init rfl) hs)
  exact ⟨s, hs, (longjmp_to_own_yield hbytes hr (of_decide_eq_true hfits) ht).mpr hp⟩

/-- A coroutine that waits for another one, which yields. -/
def parkedCaller : Program where
  main := [.start 0, .start 1, .wait 0]
  name co := if co = 0 then "a" else "b"
  func co := if co = 0 then [.wait 1] else [.yield]

/-- The `co_yield` of `parkedCaller` jumps to a context that was never saved. All of it
happens on the process stack. -/
theorem not_longjmp_to_own_yield :
    ¬ ∀ (p : Program) (s : State) (draw : Nat) (co : Ptr),
      (roomMachine p someBytes).Run (fun s _ => True ∧ Fits someBytes s) s → s.cpu = .main →
      longjmpTarget s draw = some co → ∃ σ n rest fs, OwnYield s co σ n rest fs := by
  intro h
  obtain ⟨s, hs, hend⟩ : ∃ s, runDraws parkedCaller (fun s _ => True ∧ Fits someBytes s)
      [0, 0, 0, 0, 0] (State.init parkedCaller) = some s ∧
        (longjmpTarget s 0, (s.heap 0).context, s.cpu) = (some 0, none, .main) :=
    Option.map_eq_some_iff.mp (by decide)
  obtain ⟨ht, hend⟩ := Prod.mk.inj hend
  obtain ⟨hctx, hcpu⟩ := Prod.mk.inj hend
  have hr := roomRun_of_run (run_of_runDraws (.init rfl) hs)
  obtain ⟨σ, n, rest, fs, how⟩ := h parkedCaller s 0 0 hr hcpu ht
  exact absurd (hctx.symm.trans how.context) (by simp)

end OsLabs.Libco
