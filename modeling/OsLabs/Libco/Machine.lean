import Mathlib.Logic.Function.Basic
import Mathlib.Data.List.Basic
import OsLabs.Transition

/-!
# OsLabs.Libco.Machine

The coroutine library of `libco/co-first.c` as a machine.

The client program is code the library does not see: `main` and every
coroutine's `func` are finite sequences of `co_start`, `co_yield` and
`co_wait` calls (`Program`). The machine keeps what those calls act on:

* the heap of `struct co` records, `co_list` and `current`;
* the **stacks**. There is one process stack and one `co->stack` per
  coroutine; a stack is a list of frames, top first, and `cpu` says which one
  the processor runs on. `co_wait` runs a coroutine *on the caller's stack* by
  a plain function call, `co_yield` starts it *on its own stack*
  (`stack_switch_call`), whose bottom return address is `callback`;
* `jmp_buf`s. A `setjmp` happens inside an activation of `co_yield`, so a
  saved context names a stack and the activation (`Frame.yield n`, numbered in
  order of `setjmp`). `longjmp` unwinds that stack to that activation; if the
  frame is gone, the jump is undefined behaviour (`Fault.deadContext`);
* a history (`log`, newest event first) that no function reads.

One step (`step`) runs the code of the frame on top of the running stack up to
its next call, return or switch. The only outside choice is the value of
`rand()`. Freed records stay readable: whether a step touches one is a question
asked of the history, not a branch of the machine. Stacks have no size here; what
becomes of a stack that is too small is in `OsLabs.Libco.Context`.
-/

namespace OsLabs.Libco

/-- The address of a `struct co`. -/
abbrev Ptr := Nat

/-- `STACK_SIZE`, the bytes of `co->stack`. -/
def stackSize : Nat := 1 <<< 16

/-- `enum co_status`. -/
inductive CoStatus
  | new
  | running
  | waiting
  | dead
  deriving DecidableEq, Repr

/-- A call of the library made by client code. -/
inductive Call
  /-- `co_start`; `co` is the address its `malloc` returns. -/
  | start (co : Ptr)
  /-- `co_yield`. -/
  | yield
  /-- `co_wait(co)`. -/
  | wait (co : Ptr)
  deriving DecidableEq, Repr

/-- A client: what `main` does, and the name and the body of the coroutine each
`co_start` creates. -/
structure Program where
  main : List Call
  /-- `co->name`. -/
  name : Ptr → String
  /-- `co->func`, as the calls its body makes. -/
  func : Ptr → List Call

/-- The stacks of the process. -/
inductive StackId
  /-- The process stack. -/
  | main
  /-- `co->stack`. -/
  | own (co : Ptr)
  deriving DecidableEq, Repr

/-- A stack frame, with what is left to run when control is back on top of it. -/
inductive Frame
  /-- `main`, with the calls it still has to make. -/
  | main (rest : List Call)
  /-- An activation of `co->func`, with the calls it still has to make. -/
  | func (co : Ptr) (rest : List Call)
  /-- `co_wait(co)` in its CO_NEW branch, after `current->func(current->arg)`. -/
  | waitNew (co : Ptr)
  /-- `co_wait(co)` in its CO_WAITING branch, after `co_yield()`. -/
  | waitWaiting (co : Ptr)
  /-- `co_wait(co)` called inside a coroutine, after `current->func(current->arg)`;
  `old` is `old_current`. -/
  | waitNested (co old : Ptr)
  /-- The `n`-th activation of `co_yield`, after its `setjmp`. -/
  | yield (n : Nat)
  /-- The return address at the bottom of a coroutine's own stack. -/
  | callback
  /-- `callback` in its `do … while` loop. -/
  | callbackLoop
  deriving DecidableEq, Repr

/-- A `jmp_buf`: the stack and the activation of `co_yield` its `setjmp` ran in. -/
structure Context where
  stack : StackId
  yield : Nat
  deriving DecidableEq, Repr

/-- `struct co`. The links `next` and `brother` are the lists that are built from
them, `func` is the program's, and `stack` is a stack of the machine. -/
structure Co where
  name : String
  status : CoStatus
  /-- `none` until the first `setjmp`. -/
  context : Option Context
  deriving DecidableEq, Repr

/-- What happened, for the history. -/
inductive Event
  /-- `co_start` returned `co`. -/
  | started (co : Ptr)
  /-- `co->func` was entered, on the given stack. -/
  | entered (co : Ptr) (stack : StackId)
  /-- `co->func` returned. -/
  | returned (co : Ptr)
  /-- `co_wait(co)` was called. -/
  | waitCalled (co : Ptr)
  /-- `co_wait(co)` returned to its caller. -/
  | waitReturned (co : Ptr)
  /-- `co_wait`, called inside `co`, set `co->status` to CO_WAITING. -/
  | parked (co : Ptr)
  /-- `setjmp(co->context)` in the `n`-th `co_yield`. -/
  | saved (co : Ptr) (n : Nat)
  /-- `longjmp(co->context, 2)`. -/
  | resumed (co : Ptr)
  /-- `free(co)`. -/
  | freed (co : Ptr)
  deriving DecidableEq, Repr

/-- The state of the process. -/
structure State where
  heap : Ptr → Co
  /-- The coroutines linked behind `co_list_head`, in order. -/
  coList : List Ptr
  current : Option Ptr
  /-- Every stack, top frame first. -/
  stackOf : StackId → List Frame
  /-- The stack the processor runs on. -/
  cpu : StackId
  /-- How many times `co_yield` has called `setjmp`. -/
  yields : Nat
  /-- The history, newest event first. -/
  log : List Event

/-- Before the first statement of `main`. -/
def State.init (p : Program) : State where
  heap _ := { name := "", status := .new, context := none }
  coList := []
  current := none
  stackOf := Function.update (fun _ => []) .main [.main p.main]
  cpu := .main
  yields := 0
  log := []

/-! ### Elementary updates -/

namespace State

/-- `co->status = st`. -/
def setStatus (s : State) (co : Ptr) (st : CoStatus) : State :=
  { s with heap := Function.update s.heap co { s.heap co with status := st } }

/-- Replace the frames of the stack the processor runs on. -/
def setFrames (s : State) (fs : List Frame) : State :=
  { s with stackOf := Function.update s.stackOf s.cpu fs }

/-- Add an event to the history. -/
def record (s : State) (e : Event) : State :=
  { s with log := e :: s.log }

/-- `current = co`. -/
def setCurrent (s : State) (co : Option Ptr) : State :=
  { s with current := co }

/-- The frames of the stack the processor runs on. -/
def frames (s : State) : List Frame := s.stackOf s.cpu

variable (s : State) (co d : Ptr) (st : CoStatus) (fs : List Frame) (e : Event)
  (cur : Option Ptr) (σ : StackId)

@[simp] theorem setStatus_coList : (s.setStatus co st).coList = s.coList := rfl
@[simp] theorem setStatus_current : (s.setStatus co st).current = s.current := rfl
@[simp] theorem setStatus_stackOf : (s.setStatus co st).stackOf = s.stackOf := rfl
@[simp] theorem setStatus_cpu : (s.setStatus co st).cpu = s.cpu := rfl
@[simp] theorem setStatus_yields : (s.setStatus co st).yields = s.yields := rfl
@[simp] theorem setStatus_log : (s.setStatus co st).log = s.log := rfl
@[simp] theorem setStatus_frames : (s.setStatus co st).frames = s.frames := rfl

@[simp] theorem setStatus_name :
    ((s.setStatus co st).heap d).name = (s.heap d).name := by
  by_cases h : d = co
  · subst h; simp [setStatus]
  · simp [setStatus, h]

@[simp] theorem setStatus_context :
    ((s.setStatus co st).heap d).context = (s.heap d).context := by
  by_cases h : d = co
  · subst h; simp [setStatus]
  · simp [setStatus, h]

@[simp] theorem setStatus_status :
    ((s.setStatus co st).heap d).status = if d = co then st else (s.heap d).status := by
  by_cases h : d = co
  · subst h; simp [setStatus]
  · simp [setStatus, h]

@[simp] theorem setFrames_heap : (s.setFrames fs).heap = s.heap := rfl
@[simp] theorem setFrames_coList : (s.setFrames fs).coList = s.coList := rfl
@[simp] theorem setFrames_current : (s.setFrames fs).current = s.current := rfl
@[simp] theorem setFrames_cpu : (s.setFrames fs).cpu = s.cpu := rfl
@[simp] theorem setFrames_yields : (s.setFrames fs).yields = s.yields := rfl
@[simp] theorem setFrames_log : (s.setFrames fs).log = s.log := rfl

@[simp] theorem setFrames_frames : (s.setFrames fs).frames = fs := by
  simp [setFrames, frames]

@[simp] theorem setFrames_stackOf :
    (s.setFrames fs).stackOf σ = if σ = s.cpu then fs else s.stackOf σ := by
  simp [setFrames, Function.update_apply]

@[simp] theorem record_heap : (s.record e).heap = s.heap := rfl
@[simp] theorem record_coList : (s.record e).coList = s.coList := rfl
@[simp] theorem record_current : (s.record e).current = s.current := rfl
@[simp] theorem record_stackOf : (s.record e).stackOf = s.stackOf := rfl
@[simp] theorem record_cpu : (s.record e).cpu = s.cpu := rfl
@[simp] theorem record_yields : (s.record e).yields = s.yields := rfl
@[simp] theorem record_frames : (s.record e).frames = s.frames := rfl
@[simp] theorem record_log : (s.record e).log = e :: s.log := rfl

@[simp] theorem setCurrent_heap : (s.setCurrent cur).heap = s.heap := rfl
@[simp] theorem setCurrent_coList : (s.setCurrent cur).coList = s.coList := rfl
@[simp] theorem setCurrent_current : (s.setCurrent cur).current = cur := rfl
@[simp] theorem setCurrent_stackOf : (s.setCurrent cur).stackOf = s.stackOf := rfl
@[simp] theorem setCurrent_cpu : (s.setCurrent cur).cpu = s.cpu := rfl
@[simp] theorem setCurrent_yields : (s.setCurrent cur).yields = s.yields := rfl
@[simp] theorem setCurrent_log : (s.setCurrent cur).log = s.log := rfl
@[simp] theorem setCurrent_frames : (s.setCurrent cur).frames = s.frames := rfl

end State

/-- How a run can end other than by `main` returning. -/
inductive Fault
  /-- An `assert` of the library failed. -/
  | assertFailed
  /-- `current` is NULL where it is dereferenced. -/
  | nullCurrent
  /-- `rand_choose` found no eligible coroutine and reads the NULL name of
  `rand_pool` itself. -/
  | emptyPool
  /-- `longjmp(co->context, 2)` to a context never set, or whose frame is gone. -/
  | deadContext (co : Ptr)
  deriving DecidableEq, Repr

/-- The result of one step. -/
inductive Outcome
  | next (s : State)
  | fault (f : Fault)
  /-- `main` returned. -/
  | exited

/-! ### The list and the random choice -/

/-- What is unlinked depends on the test on the list only. -/
theorem eraseP_congr {q r : Ptr → Bool} {l : List Ptr} (h : ∀ co ∈ l, q co = r co) :
    l.eraseP q = l.eraseP r := by
  induction l with
  | nil => rfl
  | cons co l ih =>
      rw [List.eraseP_cons, List.eraseP_cons, h co (by simp), ih fun d hd => h d (by simp [hd])]

/-- `co_delete`: unlink the first coroutine on `co_list` that has `node`'s name. -/
def coDelete (s : State) (node : Ptr) : State :=
  { s with coList := s.coList.eraseP fun temp => (s.heap temp).name = (s.heap node).name }

section
variable (s : State) (node : Ptr)

@[simp] theorem coDelete_coList :
    (coDelete s node).coList =
      s.coList.eraseP fun temp => decide ((s.heap temp).name = (s.heap node).name) := rfl
@[simp] theorem coDelete_heap : (coDelete s node).heap = s.heap := rfl
@[simp] theorem coDelete_current : (coDelete s node).current = s.current := rfl
@[simp] theorem coDelete_stackOf : (coDelete s node).stackOf = s.stackOf := rfl
@[simp] theorem coDelete_cpu : (coDelete s node).cpu = s.cpu := rfl
@[simp] theorem coDelete_yields : (coDelete s node).yields = s.yields := rfl
@[simp] theorem coDelete_log : (coDelete s node).log = s.log := rfl
@[simp] theorem coDelete_frames : (coDelete s node).frames = s.frames := rfl

end

/-- The test by which `rand_choose` puts a coroutine into its pool. -/
def State.eligible (s : State) (co : Ptr) : Bool :=
  (s.heap co).status = .new || (s.heap co).status = .waiting

/-- `rand_choose(co_list_head, candidate, current)`: the coroutine stored in
`candidate->brother` when `rand()` returns `draw`. The pool threaded through the
`brother` links is a list here; `none` stands for the empty pool, where
`candidate->brother` is `rand_pool` itself. -/
def randChoose (s : State) (draw : Nat) (current : Ptr) : Option Ptr :=
  let pool := s.coList.filter s.eligible
  let count := pool.length
  if count = 0 then
    none
  else
    let index := draw % count + 1
    match pool[index - 1]? with
    | none => none
    | some candidate =>
        if (s.heap candidate).name = (s.heap current).name then
          -- drawn the caller itself: take the other one of two, else a later one
          if count = 2 then
            pool[count + 1 - index - 1]?
          else
            pool[(index + 1) % count + 1 - 1]?
        else
          some candidate

/-- Whatever is drawn is an eligible coroutine of the list. -/
theorem randChoose_mem {s : State} {draw : Nat} {current co : Ptr}
    (h : randChoose s draw current = some co) : co ∈ s.coList ∧ s.eligible co = true := by
  have hpool : ∀ {i : Nat}, (s.coList.filter s.eligible)[i]? = some co →
      co ∈ s.coList ∧ s.eligible co = true := by
    intro i hi
    simpa using List.mem_of_getElem? hi
  unfold randChoose at h
  dsimp only at h
  split at h
  · exact absurd h (by simp)
  · split at h
    · exact absurd h (by simp)
    · next candidate hc =>
      split at h
      · split at h
        · exact hpool h
        · exact hpool h
      · obtain rfl := Option.some.inj h
        exact hpool hc

/-! ### Switching stacks -/

/-- `stack_switch_call`: run `co->func` on `co`'s own stack. The bytes written
there before the call are the return address `callback`. -/
def stackSwitchCall (p : Program) (s : State) (co : Ptr) : State :=
  { s with
    cpu := .own co
    stackOf := Function.update s.stackOf (.own co) [.func co (p.func co), .callback]
    log := .entered co (.own co) :: s.log }

/-- The frames below the activation `n` of `co_yield`, if it is on the stack. -/
def unwind (n : Nat) : List Frame → Option (List Frame)
  | [] => none
  | f :: fs => if f = .yield n then some fs else unwind n fs

/-- `setjmp(co->context)` returning 0: the context is the running activation of
`co_yield`, whose frame goes on the running stack. -/
def setjmp (s : State) (co : Ptr) : State :=
  { s with
    heap := Function.update s.heap co { s.heap co with context := some ⟨s.cpu, s.yields⟩ }
    stackOf := Function.update s.stackOf s.cpu (.yield s.yields :: s.frames)
    yields := s.yields + 1
    log := .saved co s.yields :: s.log }

/-- The processor is back on the stack of `ctx`, where `fs` is what is left of it. -/
def jump (s : State) (co : Ptr) (ctx : Context) (fs : List Frame) : State :=
  { s with
    cpu := ctx.stack
    stackOf := Function.update s.stackOf ctx.stack fs
    log := .resumed co :: s.log }

/-- `longjmp(co->context, 2)`: the stack pointer is back in the saved activation of
`co_yield`, which returns at once. -/
def longjmp (s : State) (co : Ptr) : Outcome :=
  match (s.heap co).context with
  | none => .fault (.deadContext co)
  | some ctx =>
      match unwind ctx.yield (s.stackOf ctx.stack) with
      | none => .fault (.deadContext co)
      | some fs => .next (jump s co ctx fs)

/-- Make `co` the running coroutine and jump to its context: the end of `co_yield`
and of `callback`. -/
def resume (s : State) (co : Ptr) : Outcome :=
  longjmp ((s.setStatus co .running).setCurrent (some co)) co

section
variable (s : State) (co d : Ptr) (ctx : Context) (fs : List Frame) (σ : StackId) (p : Program)

@[simp] theorem setjmp_coList : (setjmp s co).coList = s.coList := rfl
@[simp] theorem setjmp_current : (setjmp s co).current = s.current := rfl
@[simp] theorem setjmp_cpu : (setjmp s co).cpu = s.cpu := rfl
@[simp] theorem setjmp_yields : (setjmp s co).yields = s.yields + 1 := rfl
@[simp] theorem setjmp_log : (setjmp s co).log = .saved co s.yields :: s.log := rfl

@[simp] theorem setjmp_stackOf :
    (setjmp s co).stackOf σ = if σ = s.cpu then .yield s.yields :: s.frames else s.stackOf σ := by
  simp [setjmp, Function.update_apply]

@[simp] theorem setjmp_frames : (setjmp s co).frames = .yield s.yields :: s.frames := by
  simp [setjmp, State.frames]

@[simp] theorem setjmp_name : ((setjmp s co).heap d).name = (s.heap d).name := by
  by_cases h : d = co
  · subst h; simp [setjmp]
  · simp [setjmp, h]

@[simp] theorem setjmp_status : ((setjmp s co).heap d).status = (s.heap d).status := by
  by_cases h : d = co
  · subst h; simp [setjmp]
  · simp [setjmp, h]

@[simp] theorem setjmp_context :
    ((setjmp s co).heap d).context =
      if d = co then some ⟨s.cpu, s.yields⟩ else (s.heap d).context := by
  by_cases h : d = co
  · subst h; simp [setjmp]
  · simp [setjmp, h]

@[simp] theorem jump_heap : (jump s co ctx fs).heap = s.heap := rfl
@[simp] theorem jump_coList : (jump s co ctx fs).coList = s.coList := rfl
@[simp] theorem jump_current : (jump s co ctx fs).current = s.current := rfl
@[simp] theorem jump_cpu : (jump s co ctx fs).cpu = ctx.stack := rfl
@[simp] theorem jump_yields : (jump s co ctx fs).yields = s.yields := rfl
@[simp] theorem jump_log : (jump s co ctx fs).log = .resumed co :: s.log := rfl

@[simp] theorem jump_stackOf :
    (jump s co ctx fs).stackOf σ = if σ = ctx.stack then fs else s.stackOf σ := by
  simp [jump, Function.update_apply]

@[simp] theorem jump_frames : (jump s co ctx fs).frames = fs := by
  simp [jump, State.frames]

@[simp] theorem stackSwitchCall_heap : (stackSwitchCall p s co).heap = s.heap := rfl
@[simp] theorem stackSwitchCall_coList : (stackSwitchCall p s co).coList = s.coList := rfl
@[simp] theorem stackSwitchCall_current : (stackSwitchCall p s co).current = s.current := rfl
@[simp] theorem stackSwitchCall_cpu : (stackSwitchCall p s co).cpu = .own co := rfl
@[simp] theorem stackSwitchCall_yields : (stackSwitchCall p s co).yields = s.yields := rfl
@[simp] theorem stackSwitchCall_log :
    (stackSwitchCall p s co).log = .entered co (.own co) :: s.log := rfl

@[simp] theorem stackSwitchCall_stackOf :
    (stackSwitchCall p s co).stackOf σ =
      if σ = .own co then [.func co (p.func co), .callback] else s.stackOf σ := by
  simp [stackSwitchCall, Function.update_apply]

@[simp] theorem stackSwitchCall_frames :
    (stackSwitchCall p s co).frames = [.func co (p.func co), .callback] := by
  simp [stackSwitchCall, State.frames]

end

/-! ### The library calls -/

/-- `co_start`, with `list_append`. -/
def coStart (p : Program) (s : State) (co : Ptr) : State :=
  { s with
    heap := Function.update s.heap co { name := p.name co, status := .new, context := none }
    coList := s.coList ++ [co]
    log := .started co :: s.log }

section
variable (p : Program) (s : State) (co d : Ptr)

@[simp] theorem coStart_coList : (coStart p s co).coList = s.coList ++ [co] := rfl
@[simp] theorem coStart_current : (coStart p s co).current = s.current := rfl
@[simp] theorem coStart_stackOf : (coStart p s co).stackOf = s.stackOf := rfl
@[simp] theorem coStart_cpu : (coStart p s co).cpu = s.cpu := rfl
@[simp] theorem coStart_yields : (coStart p s co).yields = s.yields := rfl
@[simp] theorem coStart_log : (coStart p s co).log = .started co :: s.log := rfl
@[simp] theorem coStart_frames : (coStart p s co).frames = s.frames := rfl

@[simp] theorem coStart_heap :
    (coStart p s co).heap d =
      if d = co then { name := p.name co, status := .new, context := none } else s.heap d := by
  simp [coStart, Function.update_apply]

end

/-- `co_yield` up to its `setjmp`. -/
def coYield (s : State) : Outcome :=
  match s.current with
  | none => .fault .assertFailed
  | some co => .next (setjmp (s.setStatus co .waiting) co)

/-- `co_yield` after its `setjmp` returned 0. A coroutine that is started here keeps
the status CO_NEW. -/
def coYieldSwitch (p : Program) (draw : Nat) (s : State) : Outcome :=
  match s.current with
  | none => .fault .nullCurrent
  | some co =>
      match randChoose s draw co with
      | none => .fault .emptyPool
      | some choice =>
          match (s.heap choice).status with
          | .new => .next (stackSwitchCall p (s.setCurrent (some choice)) choice)
          | .waiting => resume s choice
          | _ => .fault .assertFailed

/-- Call `co->func(co->arg)` on the running stack, from the frame `caller` of
`co_wait`. -/
@[simp] def callFunc (p : Program) (s : State) (co : Ptr) (caller : Frame) : State :=
  (s.setFrames (.func co (p.func co) :: caller :: s.frames)).record (.entered co s.cpu)

/-- The end of every branch of `co_wait` that frees its coroutine. -/
@[simp] def freeAndReturn (s : State) (co : Ptr) : State :=
  (s.record (.freed co)).record (.waitReturned co)

/-- `co_wait(co)` up to the call it makes in each branch. -/
def coWait (p : Program) (s : State) (co : Ptr) : Outcome :=
  let s := s.record (.waitCalled co)
  match s.current, (s.heap co).status with
  | _, .dead => .next (freeAndReturn (s.setCurrent (some co)) co)
  | none, .new =>
      .next (callFunc p ((s.setStatus co .running).setCurrent (some co)) co (.waitNew co))
  | none, .waiting =>
      -- `co_yield` will save the caller's context as `co`'s
      coYield ((s.setCurrent (some co)).setFrames (.waitWaiting co :: s.frames))
  | none, .running => .next (s.record (.waitReturned co))
  | some old, _ =>
      .next (callFunc p
        ((((s.setStatus old .waiting).record (.parked old)).setStatus co .running).setCurrent
          (some co)) co (.waitNested co old))

/-- `co_wait(co)`, CO_NEW branch, after `func` has returned; `fs` is the caller's
part of the stack. -/
def waitNewReturn (s : State) (co : Ptr) (fs : List Frame) : Outcome :=
  match s.current with
  | none => .fault .nullCurrent
  | some cur =>
      .next (freeAndReturn
        (coDelete (((s.setStatus cur .dead).setCurrent none).setStatus co .dead) co) co
        |>.setFrames fs)

/-- `co_wait(co)`, CO_WAITING branch, after `co_yield` has returned. -/
def waitWaitingReturn (s : State) (co : Ptr) (fs : List Frame) : Outcome :=
  .next (freeAndReturn ((coDelete s co).setCurrent none) co |>.setFrames fs)

/-- `co_wait(co)` inside the coroutine `old`, after `func` has returned. -/
def waitNestedReturn (s : State) (co old : Ptr) (fs : List Frame) : Outcome :=
  match s.current with
  | none => .fault .nullCurrent
  | some cur =>
      .next (freeAndReturn
        (coDelete
          ((((s.setStatus cur .dead).setCurrent (some old)).setStatus old .running).setStatus co
            .dead) co) co
        |>.setFrames fs)

/-- `callback` up to its loop. -/
def callback (s : State) (fs : List Frame) : Outcome :=
  match s.current with
  | none => .fault .nullCurrent
  | some cur =>
      .next ((coDelete (s.setStatus cur .dead) cur).setFrames (.callbackLoop :: fs))

/-- One round of the loop of `callback`: draw again, or jump. -/
def callbackRound (draw : Nat) (s : State) : Outcome :=
  match s.current with
  | none => .fault .nullCurrent
  | some cur =>
      match randChoose s draw cur with
      | none => .fault .emptyPool
      | some choice =>
          if (s.heap choice).status = .new ∨ (s.heap choice).name = (s.heap cur).name then
            .next s
          else if (s.heap choice).status = .waiting then
            resume s choice
          else
            .fault .assertFailed

/-! ### The machine -/

/-- Run a library call made by client code. -/
def doCall (p : Program) (s : State) : Call → Outcome
  | .start co => .next (coStart p s co)
  | .yield => coYield s
  | .wait co => coWait p s co

/-- One step, with `draw` as the value of `rand()`. -/
def step (p : Program) (draw : Nat) (s : State) : Outcome :=
  match s.frames with
  | [] => .exited
  | .main [] :: _ => .exited
  | .main (call :: rest) :: fs => doCall p (s.setFrames (.main rest :: fs)) call
  | .func co (call :: rest) :: fs => doCall p (s.setFrames (.func co rest :: fs)) call
  | .func co [] :: fs => .next ((s.setFrames fs).record (.returned co))
  | .waitNew co :: fs => waitNewReturn s co fs
  | .waitWaiting co :: fs => waitWaitingReturn s co fs
  | .waitNested co old :: fs => waitNestedReturn s co old fs
  | .yield _ :: _ => coYieldSwitch p draw s
  | .callback :: fs => callback s fs
  | .callbackLoop :: _ => callbackRound draw s

/-! ### The contract of the client -/

/-- The library call the next step makes, if client code is on top. -/
def nextCall (s : State) : Option Call :=
  match s.frames with
  | .main (call :: _) :: _ => some call
  | .func _ (call :: _) :: _ => some call
  | _ => none

/-- The coroutine the next step calls `co_wait` on, if it does. -/
def nextWait (s : State) : Option Ptr :=
  match nextCall s with
  | some (.wait co) => some co
  | _ => none

/-- The size of the buffer that `co_start` copies the name to. -/
def nameSize : Nat := 32

/-- The name and its NUL fit in the buffer. -/
def NameFits (name : String) : Prop := name.utf8ByteSize < nameSize

instance (name : String) : Decidable (NameFits name) := inferInstanceAs (Decidable (_ < _))

/-- What the client promises: `malloc` returns fresh memory, a name fits in its buffer, the
names are pairwise distinct, and a coroutine is waited for after it was started and at most
once. -/
def allowed (p : Program) (s : State) : Bool :=
  match nextCall s with
  | some (.start co) =>
      NameFits (p.name co) && s.log.all fun e =>
        match e with
        | .started d => d ≠ co && p.name d ≠ p.name co
        | _ => true
  | some (.wait co) => .started co ∈ s.log && .waitCalled co ∉ s.log
  | _ => true

/-- The library under the program `p`; the label of a step is the random draw. -/
def machine (p : Program) : System State Nat where
  init s := s = State.init p
  step s draw s' := allowed p s = true ∧ step p draw s = .next s'

/-- Run the program on a list of draws; `none` when it faults, exits, leaves the
contract or fails the guard before the draws are used up. -/
def runDraws (p : Program) (ok : State → Nat → Prop) [∀ s draw, Decidable (ok s draw)] :
    List Nat → State → Option State
  | [], s => some s
  | draw :: draws, s =>
      if allowed p s ∧ ok s draw then
        match step p draw s with
        | .next s' => runDraws p ok draws s'
        | _ => none
      else
        none

/-- What survives every guarded step holds where a list of draws leads. -/
theorem closed_of_runDraws {p : Program} {ok : State → Nat → Prop}
    [∀ s draw, Decidable (ok s draw)] {P : State → Prop}
    (hP : ∀ s draw s', P s → ok s draw → (machine p).step s draw s' → P s') {draws : List Nat}
    {s s' : State} (hs : P s) (h : runDraws p ok draws s = some s') : P s' := by
  induction draws generalizing s with
  | nil =>
      obtain rfl := Option.some.inj h
      exact hs
  | cons draw draws ih =>
      rw [runDraws] at h
      split at h
      · next ha =>
        split at h
        · next s1 hs1 => exact ih (hP s draw s1 hs ha.2 ⟨ha.1, hs1⟩) h
        · exact absurd h (by simp)
      · exact absurd h (by simp)

/-- Where a list of draws leads is the end of a guarded run. -/
theorem run_of_runDraws {p : Program} {ok : State → Nat → Prop} [∀ s draw, Decidable (ok s draw)]
    {draws : List Nat} {s s' : State} (hr : (machine p).Run ok s)
    (h : runDraws p ok draws s = some s') : (machine p).Run ok s' :=
  closed_of_runDraws (fun _ _ _ hr hok hs => hr.step hok hs) hr h

/-- One draw is one step. -/
theorem step_of_runDraws {p : Program} {draw : Nat} {s s' : State}
    (h : runDraws p (fun _ _ => True) [draw] s = some s') : (machine p).step s draw s' := by
  rw [runDraws] at h
  split at h
  · next ha =>
    split at h
    · next s1 hs1 =>
      obtain rfl := Option.some.inj h
      exact ⟨ha.1, hs1⟩
    · exact absurd h (by simp)
  · exact absurd h (by simp)

/-- Where a list of draws leads can be reached. -/
theorem steps_of_runDraws {p : Program} {draws : List Nat} {s s' : State}
    (h : runDraws p (fun _ _ => True) draws s = some s') : (machine p).Steps s s' :=
  closed_of_runDraws (fun _ _ _ hr _ hs => hr.step hs) .refl h

end OsLabs.Libco
