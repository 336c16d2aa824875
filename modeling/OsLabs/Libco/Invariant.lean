import OsLabs.Libco.Machine
import Mathlib.Data.List.Nodup

/-!
# OsLabs.Libco.Invariant

What holds in every state of a run of the coroutine library, as long as no step
reads `current` while it points to a freed record.

The library keeps one global variable, `current`, that has to agree with a
machine it cannot see: the frames of the running stack. Three things tie the
two together.

* `StackOK` — the shapes a stack can have: which frame lies under which.
* `owner` — the coroutine a stack belongs to, read off its frames. While
  `current` is not dangling it is the owner of the running stack
  (`Core.current`), and every saved context whose frame is still there belongs
  to the coroutine it is stored in (`Core.contexts`).
* `Core.unentered` — a coroutine with status CO_NEW has not been entered,
  except the running one: `co_yield` starts a coroutine without touching its
  status.

A `co_wait` on a dead coroutine leaves `current` pointing to freed memory, and
from there on only `Base` is known. `Move` says once what a step can do from a
state with the invariant; everything after this module is a case analysis on it.
-/

namespace OsLabs.Libco

namespace State

variable (s : State)

/-- `co_start` has returned `co`. -/
def Started (co : Ptr) : Prop := .started co ∈ s.log

/-- `co->func` has been entered. -/
def Entered (co : Ptr) : Prop := ∃ σ, .entered co σ ∈ s.log

/-- `co->func` has returned. -/
def Returned (co : Ptr) : Prop := .returned co ∈ s.log

/-- `co` has been freed. -/
def Freed (co : Ptr) : Prop := .freed co ∈ s.log

/-- `current` is NULL or points to a record that has not been freed. -/
def Live : Prop := ∀ co, s.current = some co → ¬ s.Freed co

end State

/-! ### The shapes of a stack -/

/-- The frames a stack can hold. `main` is the bottom of the process stack and
`callback` that of a coroutine's own stack; `co_wait` lies on the code that
called it, `func` on the `co_wait` or the `callback` it returns to, and an
activation of `co_yield` is always the top. -/
inductive StackOK : StackId → List Frame → Prop
  | empty (co : Ptr) : StackOK (.own co) []
  | main (rest : List Call) : StackOK .main [.main rest]
  | callback (co : Ptr) : StackOK (.own co) [.callback]
  | callbackLoop (co : Ptr) : StackOK (.own co) [.callbackLoop]
  | funcOwn (co : Ptr) (rest : List Call) : StackOK (.own co) [.func co rest, .callback]
  | waitNew {σ : StackId} {rest : List Call} {fs : List Frame} (co : Ptr) :
      StackOK σ (.main rest :: fs) → StackOK σ (.waitNew co :: .main rest :: fs)
  | funcNew {σ : StackId} {co : Ptr} {fs : List Frame} (rest : List Call) :
      StackOK σ (.waitNew co :: fs) → StackOK σ (.func co rest :: .waitNew co :: fs)
  | waitWaiting {σ : StackId} {rest : List Call} {fs : List Frame} (co : Ptr) :
      StackOK σ (.main rest :: fs) → StackOK σ (.waitWaiting co :: .main rest :: fs)
  | waitNested {σ : StackId} {old : Ptr} {rest : List Call} {fs : List Frame} (co : Ptr) :
      StackOK σ (.func old rest :: fs) → StackOK σ (.waitNested co old :: .func old rest :: fs)
  | funcNested {σ : StackId} {co old : Ptr} {fs : List Frame} (rest : List Call) :
      StackOK σ (.waitNested co old :: fs) →
        StackOK σ (.func co rest :: .waitNested co old :: fs)
  | yieldFunc {σ : StackId} {co : Ptr} {rest : List Call} {fs : List Frame} (n : Nat) :
      StackOK σ (.func co rest :: fs) → StackOK σ (.yield n :: .func co rest :: fs)
  | yieldWait {σ : StackId} {co : Ptr} {fs : List Frame} (n : Nat) :
      StackOK σ (.waitWaiting co :: fs) → StackOK σ (.yield n :: .waitWaiting co :: fs)

namespace StackOK

variable {σ : StackId} {f : Frame} {fs : List Frame} {co : Ptr} {rest rest' : List Call}
  {n : Nat}

theorem setMain (h : StackOK σ (.main rest :: fs)) : StackOK σ (.main rest' :: fs) := by
  cases h
  exact .main rest'

theorem setFunc (h : StackOK σ (.func co rest :: fs)) : StackOK σ (.func co rest' :: fs) := by
  cases h with
  | funcOwn => exact .funcOwn _ _
  | funcNew _ h => exact .funcNew _ h
  | funcNested _ h => exact .funcNested _ h

/-- Popping a frame other than `main` leaves a stack. -/
theorem tail (h : StackOK σ (f :: fs)) (hf : ∀ rest, f ≠ .main rest) : StackOK σ fs := by
  cases h with
  | main rest => exact absurd rfl (hf rest)
  | callback co => exact .empty co
  | callbackLoop co => exact .empty co
  | funcOwn co _ => exact .callback co
  | waitNew _ h => exact h
  | funcNew _ h => exact h
  | waitWaiting _ h => exact h
  | waitNested _ h => exact h
  | funcNested _ h => exact h
  | yieldFunc _ h => exact h
  | yieldWait _ h => exact h

/-- `co_wait` was called by `main` in its first two branches. -/
theorem main_of_waitNew (h : StackOK σ (.waitNew co :: fs)) :
    ∃ rest fs', fs = .main rest :: fs' := by
  cases h
  exact ⟨_, _, rfl⟩

theorem main_of_waitWaiting (h : StackOK σ (.waitWaiting co :: fs)) :
    ∃ rest fs', fs = .main rest :: fs' := by
  cases h
  exact ⟨_, _, rfl⟩

/-- In the nested branch it was called by `old_current`. -/
theorem func_of_waitNested {old : Ptr} (h : StackOK σ (.waitNested co old :: fs)) :
    ∃ rest fs', fs = .func old rest :: fs' := by
  cases h
  exact ⟨_, _, rfl⟩

/-- What `func` returns to is neither inside `co_yield` nor in the loop of `callback`. -/
theorem under_func (h : StackOK σ (.func co rest :: fs)) :
    (∀ d fs', fs ≠ .waitWaiting d :: fs') ∧ (∀ fs', fs ≠ .callbackLoop :: fs') ∧
      ∀ n fs', fs ≠ .yield n :: fs' := by
  cases h <;> simp

/-- `co_yield` returns to `func` or to `co_wait`. -/
theorem under_yield (h : StackOK σ (.yield n :: fs)) :
    (∃ co rest fs', fs = .func co rest :: fs') ∨ (∃ co fs', fs = .waitWaiting co :: fs') := by
  cases h with
  | yieldFunc => exact .inl ⟨_, _, _, rfl⟩
  | yieldWait => exact .inr ⟨_, _, rfl⟩

/-- No activation of `co_yield` lies under another frame. -/
theorem yield_not_mem_tail (h : StackOK σ fs) : ∀ n, .yield n ∉ fs.tail := by
  induction h with
  | empty | main | callback | callbackLoop | funcOwn => simp
  | waitNew | funcNew | waitWaiting | waitNested | funcNested => simp_all
  | yieldFunc | yieldWait => simp_all

/-- Unwinding a stack finds an activation of `co_yield` on top or not at all. -/
theorem unwind_eq_some {fs' : List Frame} (h : StackOK σ fs) (hu : unwind n fs = some fs') :
    fs = .yield n :: fs' := by
  have hnone : ∀ {l : List Frame}, Frame.yield n ∉ l → unwind n l = none := by
    intro l hl
    induction l with
    | nil => rfl
    | cons g l ih =>
        rw [List.mem_cons, not_or] at hl
        rw [unwind, if_neg (fun hg => hl.1 hg.symm), ih hl.2]
  cases fs with
  | nil => simp [unwind] at hu
  | cons g l =>
      rw [unwind] at hu
      split at hu
      · next hg => rw [hg, Option.some.inj hu]
      · have hl : Frame.yield n ∉ l := h.yield_not_mem_tail n
        rw [hnone hl] at hu
        exact absurd hu (by simp)

end StackOK

/-- The coroutine on whose behalf a stack with these frames runs, if any. -/
def owner (σ : StackId) : List Frame → Option Ptr
  | [] => none
  | .main _ :: _ => none
  | .func co _ :: _ => some co
  | .waitNew co :: _ => some co
  | .waitWaiting co :: _ => some co
  | .waitNested co _ :: _ => some co
  | .yield _ :: fs => owner σ fs
  | .callback :: _ | .callbackLoop :: _ =>
      match σ with
      | .main => none
      | .own co => some co

/-- When `func` returns, the frame it returns to belongs to the same coroutine. -/
theorem owner_ret {σ : StackId} {co : Ptr} {rest : List Call} {fs : List Frame}
    (h : StackOK σ (.func co rest :: fs)) : owner σ fs = some co := by
  cases h <;> rfl

/-- The event that put a frame on the stack `σ`: an activation of `func` was entered
there, a frame of `co_wait` was called for its coroutine. -/
@[simp] def Frame.trace (σ : StackId) : Frame → Option Event
  | .func co _ => some (.entered co σ)
  | .waitNew co | .waitWaiting co | .waitNested co _ => some (.waitCalled co)
  | _ => none

/-- The history accounts for every frame of the stack `σ`. -/
def Traced (log : List Event) (σ : StackId) (fs : List Frame) : Prop :=
  ∀ f ∈ fs, ∀ e, f.trace σ = some e → e ∈ log

section
variable {log log' : List Event} {σ : StackId} {f : Frame} {fs : List Frame}

@[simp] theorem traced_nil : Traced log σ [] := by simp [Traced]

@[simp] theorem traced_cons :
    Traced log σ (f :: fs) ↔ (∀ e, f.trace σ = some e → e ∈ log) ∧ Traced log σ fs := by
  simp [Traced]

theorem Traced.mono (h : Traced log σ fs) (hsub : log ⊆ log') : Traced log' σ fs :=
  fun f hf e he => hsub (h f hf e he)

theorem Traced.push (h : Traced log σ fs) (e : Event) : Traced (e :: log) σ fs :=
  h.mono (List.subset_cons_self _ _)

theorem Traced.func (h : Traced log σ fs) {co : Ptr} {rest : List Call}
    (hm : .func co rest ∈ fs) : .entered co σ ∈ log :=
  h _ hm _ rfl

end

/-! ### The invariant -/

/-- What the list and the heap are, whatever `current` points to. -/
structure Base (p : Program) (s : State) : Prop where
  /-- A started coroutine carries the name its program gives it. -/
  name : ∀ co, s.Started co → (s.heap co).name = p.name co
  /-- Names are pairwise distinct. -/
  names : ∀ co d, s.Started co → s.Started d → p.name co = p.name d → co = d
  /-- Only started coroutines are on the list. -/
  started : ∀ co ∈ s.coList, s.Started co
  nodup : s.coList.Nodup
  /-- No coroutine on the list is dead. -/
  undead : ∀ co ∈ s.coList, (s.heap co).status ≠ .dead
  /-- No coroutine on the list has been freed. -/
  unfreed : ∀ co ∈ s.coList, ¬ s.Freed co
  /-- Only `co_wait` frees. -/
  waited : ∀ co, s.Freed co → .waitCalled co ∈ s.log
  /-- Only started coroutines are waited for. -/
  waitStarted : ∀ co, .waitCalled co ∈ s.log → s.Started co
  /-- `current` is NULL or was started. -/
  current : ∀ co, s.current = some co → s.Started co
  stackOf : ∀ σ, StackOK σ (s.stackOf σ)
  traced : ∀ σ, Traced s.log σ (s.stackOf σ)
  /-- Only started coroutines are entered. -/
  enteredStarted : ∀ co, s.Entered co → s.Started co
  /-- `co_wait` comes back from its `co_yield` with `current` alive. -/
  waitLive : ∀ co fs, s.frames = .waitWaiting co :: fs → s.Live

/-- What ties `current` and the statuses to the stacks, while `current` is alive. -/
structure Core (s : State) : Prop where
  /-- `current` is the owner of the running stack. -/
  current : s.current = owner s.cpu s.frames
  /-- A saved context names an earlier activation of `co_yield`; while that is on
  top of its stack, the stack belongs to the coroutine. -/
  contexts : ∀ co ctx, (s.heap co).context = some ctx →
    ctx.yield < s.yields ∧
      ∀ fs, s.stackOf ctx.stack = .yield ctx.yield :: fs → owner ctx.stack fs = some co
  /-- Only the running coroutine can have been entered and still be CO_NEW. -/
  unentered : ∀ co, s.Started co → (s.heap co).status = .new → s.Entered co →
    s.current = some co
  /-- A coroutine's own stack is empty until it is entered. -/
  ownStack : ∀ co, s.stackOf (.own co) ≠ [] → s.Entered co
  /-- In `co_yield` after its `setjmp`, the caller is CO_WAITING. -/
  yielding : ∀ n fs co, s.frames = .yield n :: fs → s.current = some co →
    (s.heap co).status = .waiting
  /-- After its `co_yield`, `co_wait` finds its coroutine past CO_NEW. -/
  waited : ∀ co fs, s.frames = .waitWaiting co :: fs → (s.heap co).status ≠ .new
  /-- In the loop of `callback`, the caller is CO_DEAD. -/
  looping : ∀ fs co, s.frames = .callbackLoop :: fs → s.current = some co →
    (s.heap co).status = .dead

/-- The invariant of the machine. -/
structure Inv (p : Program) (s : State) : Prop where
  base : Base p s
  core : s.Live → Core s

/-- Does the code the next step runs read `current`? -/
def readsCurrent (s : State) : Bool :=
  match s.frames with
  | .main (.start _ :: _) :: _ => false
  | .func _ (.start _ :: _) :: _ => false
  | .main (.wait co :: _) :: _ => (s.heap co).status ≠ .dead
  | .func _ (.wait co :: _) :: _ => (s.heap co).status ≠ .dead
  | .func _ [] :: _ => false
  | .waitWaiting _ :: _ => false
  | _ => true

/-- The next step does not read a dangling `current`. -/
def NoDangling (s : State) : Prop := readsCurrent s = true → s.Live

instance (s : State) : Decidable s.Live :=
  inferInstanceAs (Decidable (∀ co ∈ s.current, .freed co ∉ s.log))

instance (s : State) : Decidable (NoDangling s) :=
  inferInstanceAs (Decidable (readsCurrent s = true → s.Live))

/-! ### What a step can do -/

/-- The state in which the body of a library call starts: the caller's frame has
one call less to make. -/
inductive Called (s : State) (call : Call) : State → Prop
  | main {rest : List Call} {fs : List Frame} :
      s.frames = .main (call :: rest) :: fs → Called s call (s.setFrames (.main rest :: fs))
  | func {co : Ptr} {rest : List Call} {fs : List Frame} :
      s.frames = .func co (call :: rest) :: fs →
      Called s call (s.setFrames (.func co rest :: fs))

/-- The steps from a state with the invariant. -/
inductive Move (p : Program) (s : State) : State → Prop
  | start {t : State} {co : Ptr} : Called s (.start co) t → ¬ t.Started co →
      (∀ d, t.Started d → p.name d ≠ p.name co) → Move p s (coStart p t co)
  | yield {co : Ptr} {rest : List Call} {fs : List Frame} :
      s.frames = .func co (.yield :: rest) :: fs → s.Live → s.current = some co →
      Move p s (setjmp ((s.setFrames (.func co rest :: fs)).setStatus co .waiting) co)
  | waitDead {t : State} {co : Ptr} : Called s (.wait co) t → t.Started co →
      (t.heap co).status = .dead →
      Move p s (freeAndReturn ((t.record (.waitCalled co)).setCurrent (some co)) co)
  | waitNew {co : Ptr} {rest : List Call} {fs : List Frame} :
      s.frames = .main (.wait co :: rest) :: fs → s.Started co → ¬ s.Freed co →
      s.current = none → (s.heap co).status = .new →
      Move p s (callFunc p ((((s.setFrames (.main rest :: fs)).record (.waitCalled co)).setStatus
        co .running).setCurrent (some co)) co (.waitNew co))
  | waitWaiting {co : Ptr} {rest : List Call} {fs : List Frame} :
      s.frames = .main (.wait co :: rest) :: fs → s.Started co → ¬ s.Freed co →
      s.current = none → (s.heap co).status = .waiting →
      Move p s (setjmp (((((s.setFrames (.main rest :: fs)).record (.waitCalled co)).setCurrent
        (some co)).setFrames (.waitWaiting co :: .main rest :: fs)).setStatus co .waiting) co)
  | waitRunning {co : Ptr} {rest : List Call} {fs : List Frame} :
      s.frames = .main (.wait co :: rest) :: fs → s.Started co → s.current = none →
      (s.heap co).status = .running →
      Move p s (((s.setFrames (.main rest :: fs)).record (.waitCalled co)).record
        (.waitReturned co))
  | waitNested {co old : Ptr} {rest : List Call} {fs : List Frame} :
      s.frames = .func old (.wait co :: rest) :: fs → s.Started co → ¬ s.Freed co → s.Live →
      s.current = some old → (s.heap co).status ≠ .dead →
      Move p s (callFunc p ((((((s.setFrames (.func old rest :: fs)).record
        (.waitCalled co)).setStatus old .waiting).record (.parked old)).setStatus co
          .running).setCurrent (some co)) co (.waitNested co old))
  | ret {co : Ptr} {fs : List Frame} : s.frames = .func co [] :: fs →
      Move p s ((s.setFrames fs).record (.returned co))
  | waitNewReturn {co : Ptr} {fs : List Frame} : s.frames = .waitNew co :: fs → s.Live →
      s.current = some co →
      Move p s ((freeAndReturn (coDelete (((s.setStatus co .dead).setCurrent none).setStatus co
        .dead) co) co).setFrames fs)
  | waitWaitingReturn {co : Ptr} {fs : List Frame} : s.frames = .waitWaiting co :: fs → s.Live →
      s.current = some co →
      Move p s ((freeAndReturn ((coDelete s co).setCurrent none) co).setFrames fs)
  | waitNestedReturn {co old : Ptr} {fs : List Frame} : s.frames = .waitNested co old :: fs →
      s.Live → s.current = some co →
      Move p s ((freeAndReturn (coDelete ((((s.setStatus co .dead).setCurrent (some old)).setStatus
        old .running).setStatus co .dead) co) co).setFrames fs)
  | callback {co : Ptr} : s.frames = [.callback] → s.cpu = .own co → s.Live →
      s.current = some co →
      Move p s ((coDelete (s.setStatus co .dead) co).setFrames [.callbackLoop])
  | round {fs : List Frame} : s.frames = .callbackLoop :: fs → Move p s s
  | switch {n : Nat} {fs : List Frame} {co choice : Ptr} : s.frames = .yield n :: fs → s.Live →
      s.current = some co → choice ∈ s.coList → (s.heap choice).status = .new →
      Move p s (stackSwitchCall p (s.setCurrent (some choice)) choice)
  | resume {choice cur : Ptr} {ctx : Context} {fs : List Frame} :
      ((∃ n fs, s.frames = .yield n :: fs) ∨ (∃ fs, s.frames = .callbackLoop :: fs)) → s.Live →
      s.current = some cur → choice ∈ s.coList → (s.heap choice).status = .waiting →
      (s.heap choice).context = some ctx → s.stackOf ctx.stack = .yield ctx.yield :: fs →
      Move p s (jump ((s.setStatus choice .running).setCurrent (some choice)) choice ctx fs)

/-- The call of a client frame on top of the stack is the next call. -/
theorem nextCall_main {s : State} {call : Call} {rest : List Call} {fs : List Frame}
    (h : s.frames = .main (call :: rest) :: fs) : nextCall s = some call := by
  rw [nextCall, h]

theorem nextCall_func {s : State} {co : Ptr} {call : Call} {rest : List Call} {fs : List Frame}
    (h : s.frames = .func co (call :: rest) :: fs) : nextCall s = some call := by
  rw [nextCall, h]

theorem nextWait_main {s : State} {co : Ptr} {rest : List Call} {fs : List Frame}
    (h : s.frames = .main (.wait co :: rest) :: fs) : nextWait s = some co := by
  rw [nextWait, nextCall_main h]

theorem nextWait_func {s : State} {co c : Ptr} {rest : List Call} {fs : List Frame}
    (h : s.frames = .func c (.wait co :: rest) :: fs) : nextWait s = some co := by
  rw [nextWait, nextCall_func h]

/-- The contract at a `co_start`. -/
theorem allowed_start {p : Program} {s : State} {co : Ptr} (ha : allowed p s = true)
    (hc : nextCall s = some (.start co)) :
    ¬ s.Started co ∧ ∀ d, s.Started d → p.name d ≠ p.name co := by
  rw [allowed, hc] at ha
  have ha := (Bool.and_eq_true_iff.mp ha).2
  simp only [List.all_eq_true] at ha
  refine ⟨?_, ?_⟩
  · intro h
    simpa using ha _ h
  · intro d hd
    have := ha _ hd
    simp only [Bool.and_eq_true, decide_eq_true_eq] at this
    exact this.2

/-- The contract at a `co_wait`. -/
theorem allowed_wait {p : Program} {s : State} {co : Ptr} (ha : allowed p s = true)
    (hc : nextCall s = some (.wait co)) : s.Started co ∧ .waitCalled co ∉ s.log := by
  rw [allowed, hc] at ha
  simpa [State.Started] using ha

/-- A `longjmp` that succeeds pops an activation of `co_yield` off its stack. -/
theorem longjmp_inv {s s' : State} {co : Ptr} (hok : ∀ σ, StackOK σ (s.stackOf σ))
    (h : longjmp s co = .next s') :
    ∃ ctx fs, (s.heap co).context = some ctx ∧ s.stackOf ctx.stack = .yield ctx.yield :: fs ∧
      s' = jump s co ctx fs := by
  unfold longjmp at h
  split at h
  · exact absurd h (by simp)
  · next ctx hctx =>
    split at h
    · exact absurd h (by simp)
    · next fs hu =>
      refine ⟨ctx, fs, hctx, (hok _).unwind_eq_some hu, ?_⟩
      simpa using h.symm

/-- The end of `co_yield` and of `callback`. -/
theorem move_of_resume {p : Program} {s s' : State} {choice cur : Ptr} (hb : Base p s)
    (htop : (∃ n fs, s.frames = .yield n :: fs) ∨ (∃ fs, s.frames = .callbackLoop :: fs))
    (hl : s.Live) (hcur : s.current = some cur) (hmem : choice ∈ s.coList)
    (hst : (s.heap choice).status = .waiting) (h : resume s choice = .next s') :
    Move p s s' := by
  obtain ⟨ctx, fs, hctx, hfs, rfl⟩ := longjmp_inv (by simpa using hb.stackOf) h
  exact .resume htop hl hcur hmem hst (by simpa using hctx) (by simpa using hfs)

/-- Inverting `co_yield` after its `setjmp`. -/
theorem move_of_switch {p : Program} {draw n : Nat} {s s' : State} {fs : List Frame}
    (hb : Base p s) (hf : s.frames = .yield n :: fs) (hl : s.Live)
    (h : coYieldSwitch p draw s = .next s') : Move p s s' := by
  unfold coYieldSwitch at h
  split at h
  · exact absurd h (by simp)
  · next co hco =>
    split at h
    · exact absurd h (by simp)
    · next choice hch =>
      have hmem := (randChoose_mem hch).1
      split at h
      · next hst =>
        obtain rfl := Outcome.next.inj h
        exact .switch hf hl hco hmem hst
      · next hst => exact move_of_resume hb (.inl ⟨n, fs, hf⟩) hl hco hmem hst h
      · exact absurd h (by simp)

/-- Inverting a round of the loop of `callback`. -/
theorem move_of_round {p : Program} {draw : Nat} {s s' : State} {fs : List Frame}
    (hb : Base p s) (hf : s.frames = .callbackLoop :: fs) (hl : s.Live)
    (h : callbackRound draw s = .next s') : Move p s s' := by
  unfold callbackRound at h
  split at h
  · exact absurd h (by simp)
  · next co hco =>
    split at h
    · exact absurd h (by simp)
    · next choice hch =>
      have hmem := (randChoose_mem hch).1
      split at h
      · obtain rfl := Outcome.next.inj h
        exact .round hf
      · split at h
        · next hst => exact move_of_resume hb (.inr ⟨fs, hf⟩) hl hco hmem hst h
        · exact absurd h (by simp)

/-- Inverting `co_wait` called by `main`. -/
theorem move_of_waitMain {p : Program} {s s' : State} {co : Ptr} {rest : List Call}
    {fs : List Frame} (hI : Inv p s) (hd : NoDangling s) (ha : allowed p s = true)
    (hf : s.frames = .main (.wait co :: rest) :: fs)
    (h : coWait p (s.setFrames (.main rest :: fs)) co = .next s') : Move p s s' := by
  obtain ⟨hstart, hwait⟩ := allowed_wait ha (nextCall_main hf)
  have hnf : ¬ s.Freed co := fun hfr => hwait (hI.base.waited co hfr)
  -- off the dead branch `current` is alive, hence NULL: `main` owns no coroutine
  have hnone : (s.heap co).status ≠ .dead → s.current = none := by
    intro hst
    have hl : s.Live := hd (by simpa [readsCurrent, hf] using hst)
    rw [(hI.core hl).current, hf, owner]
  unfold coWait at h
  dsimp only at h
  split at h
  · next _ _ hst =>
    obtain rfl := Outcome.next.inj h
    exact .waitDead (.main hf) hstart (by simpa using hst)
  · next hc hst =>
    obtain rfl := Outcome.next.inj h
    exact .waitNew hf hstart hnf (by simpa using hc) (by simpa using hst)
  · next hc hst =>
    simp only [coYield, State.setFrames_current, State.setCurrent_current, State.record_frames,
      State.setFrames_frames, Outcome.next.injEq] at h
    subst h
    exact .waitWaiting hf hstart hnf (by simpa using hc) (by simpa using hst)
  · next hc hst =>
    obtain rfl := Outcome.next.inj h
    exact .waitRunning hf hstart (by simpa using hc) (by simpa using hst)
  · next old hc hst =>
    have hst' : (s.heap co).status ≠ .dead := hst
    have hc' : s.current = some old := hc
    rw [hnone hst'] at hc'
    exact absurd hc' (by simp)

/-- Inverting `co_wait` called by a coroutine. -/
theorem move_of_waitFunc {p : Program} {s s' : State} {co c : Ptr} {rest : List Call}
    {fs : List Frame} (hI : Inv p s) (hd : NoDangling s) (ha : allowed p s = true)
    (hf : s.frames = .func c (.wait co :: rest) :: fs)
    (h : coWait p (s.setFrames (.func c rest :: fs)) co = .next s') : Move p s s' := by
  obtain ⟨hstart, hwait⟩ := allowed_wait ha (nextCall_func hf)
  have hnf : ¬ s.Freed co := fun hfr => hwait (hI.base.waited co hfr)
  have hlive : (s.heap co).status ≠ .dead → s.Live := by
    intro hst
    exact hd (by simpa [readsCurrent, hf] using hst)
  have hcur : (s.heap co).status ≠ .dead → s.current = some c := by
    intro hst
    rw [(hI.core (hlive hst)).current, hf, owner]
  unfold coWait at h
  dsimp only at h
  split at h
  · next _ _ hst =>
    obtain rfl := Outcome.next.inj h
    exact .waitDead (.func hf) hstart (by simpa using hst)
  · next hc hst =>
    have := hcur (by simp at hst; simp [hst])
    simp [this] at hc
  · next hc hst =>
    have := hcur (by simp at hst; simp [hst])
    simp [this] at hc
  · next hc hst =>
    have := hcur (by simp at hst; simp [hst])
    simp [this] at hc
  · next old hc hst =>
    have hst' : (s.heap co).status ≠ .dead := hst
    have hc' : s.current = some old := hc
    obtain rfl : c = old := by simpa [hcur hst'] using hc'
    obtain rfl := Outcome.next.inj h
    exact .waitNested hf hstart hnf (hlive hst') hc' hst'

/-- A step from a state with the invariant that does not read a dangling `current`
is a move. -/
theorem move_of_step {p : Program} {draw : Nat} {s s' : State} (hI : Inv p s)
    (hd : NoDangling s) (ha : allowed p s = true) (h : step p draw s = .next s') :
    Move p s s' := by
  unfold step at h
  split at h
  · exact absurd h (by simp)
  · exact absurd h (by simp)
  · next call rest fs hf =>
    cases call with
    | start co =>
        obtain ⟨hn, hnames⟩ := allowed_start ha (nextCall_main hf)
        obtain rfl := Outcome.next.inj h
        exact .start (.main hf) (by simpa [State.Started] using hn)
          (by simpa [State.Started] using hnames)
    | yield =>
        have hl : s.Live := hd (by simp [readsCurrent, hf])
        have hc : s.current = none := by rw [(hI.core hl).current, hf, owner]
        simp [doCall, coYield, hc] at h
    | wait co => exact move_of_waitMain hI hd ha hf h
  · next co call rest fs hf =>
    cases call with
    | start co =>
        obtain ⟨hn, hnames⟩ := allowed_start ha (nextCall_func hf)
        obtain rfl := Outcome.next.inj h
        exact .start (.func hf) (by simpa [State.Started] using hn)
          (by simpa [State.Started] using hnames)
    | yield =>
        have hl : s.Live := hd (by simp [readsCurrent, hf])
        have hc : s.current = some co := by rw [(hI.core hl).current, hf, owner]
        simp only [doCall, coYield, State.setFrames_current, hc, Outcome.next.injEq] at h
        subst h
        exact .yield hf hl hc
    | wait co => exact move_of_waitFunc hI hd ha hf h
  · next co fs hf =>
    obtain rfl := Outcome.next.inj h
    exact .ret hf
  · next co fs hf =>
    have hl : s.Live := hd (by simp [readsCurrent, hf])
    have hc : s.current = some co := by rw [(hI.core hl).current, hf, owner]
    simp only [waitNewReturn, hc, Outcome.next.injEq] at h
    subst h
    exact .waitNewReturn hf hl hc
  · next co fs hf =>
    have hl : s.Live := hI.base.waitLive co fs hf
    have hc : s.current = some co := by rw [(hI.core hl).current, hf, owner]
    obtain rfl := Outcome.next.inj h
    exact .waitWaitingReturn hf hl hc
  · next co old fs hf =>
    have hl : s.Live := hd (by simp [readsCurrent, hf])
    have hc : s.current = some co := by rw [(hI.core hl).current, hf, owner]
    simp only [waitNestedReturn, hc, Outcome.next.injEq] at h
    subst h
    exact .waitNestedReturn hf hl hc
  · next n fs hf => exact move_of_switch hI.base hf (hd (by simp [readsCurrent, hf])) h
  · next fs hf =>
    have hl : s.Live := hd (by simp [readsCurrent, hf])
    have hok := hI.base.stackOf s.cpu
    have hcur := (hI.core hl).current
    change s.stackOf s.cpu = _ at hf
    rw [State.frames, hf] at hcur
    rw [hf] at hok
    generalize hcpu : s.cpu = σ at hok hcur
    cases hok with
    | callback co =>
        simp only [callback, hcur, owner, Outcome.next.injEq] at h
        subst h
        exact .callback hf hcpu hl hcur
  · next fs hf => exact move_of_round hI.base hf (hd (by simp [readsCurrent, hf])) h

end OsLabs.Libco
