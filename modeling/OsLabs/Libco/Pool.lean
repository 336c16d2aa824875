import OsLabs.Libco.Machine

/-!
# OsLabs.Libco.Pool

The coroutine library of `libco/co.c` as a machine, for clients in which `main` starts
and waits and the coroutines yield.

This version keeps its coroutines in an array, `pool`, and gives `main` a descriptor of
its own, `current_co`, which is not in it. The records, stacks, contexts and frames are
those of `OsLabs.Libco.Machine` as far as the two versions agree: `co_wait` runs a new
coroutine by a call on the stack of `main`, `co_yield` starts one on its own stack, at
whose bottom `callback` is the return address, and `longjmp` goes back to an activation
of `co_yield`.

The unfinished `strcpy()` of `co_start` is read as storing the name. A step runs the
code on top of the running stack up to its next call, return or switch; each round of
`rand_choose` is a step, and its `rand()` is the label. A step that dereferences `NULL`
or is undefined otherwise is a fault, with which the run ends.
-/

namespace OsLabs.Libco.Pool

/-- A pointer to a `struct co`: `&current_co`, or what `malloc` returned. -/
inductive Ref
  | currentCo
  | co (p : Ptr)
  deriving DecidableEq, Repr

/-- A call that `main` makes. -/
inductive Call
  /-- `co_start`; `co` is the address its `malloc` returns. -/
  | start (co : Ptr)
  /-- `co_wait(co)`. -/
  | wait (co : Ptr)
  deriving DecidableEq, Repr

/-- A client: what `main` does, and for each coroutine its name and how often its `func`
calls `co_yield`. -/
structure Program where
  main : List Call
  name : Ptr → String
  func : Ptr → Nat

/-- The coroutines that `main` starts, -/
def Program.starts (p : Program) : List Ptr :=
  p.main.filterMap fun call =>
    match call with
    | .start co => some co
    | .wait _ => none

/-- and those it waits for. -/
def Program.waits (p : Program) : List Ptr :=
  p.main.filterMap fun call =>
    match call with
    | .start _ => none
    | .wait co => some co

/-- The names are distinct, and a coroutine is waited for once, after it was started. -/
structure Program.Valid (p : Program) : Prop where
  names : (p.starts.map p.name).Nodup
  waits : p.waits.Nodup
  started : ∀ before co after, p.main = before ++ .wait co :: after → .start co ∈ before

/-- A stack frame, with what is left to run when control is back on top of it. -/
inductive Frame
  /-- `main`, with the calls it still has to make. -/
  | main (rest : List Call)
  /-- An activation of `co->func`, with so many `co_yield`s to call. -/
  | func (co : Ptr) (yields : Nat)
  /-- `co_wait(co)` in its first branch, after `current->func(current->arg)`. -/
  | waitCall (co : Ptr)
  /-- `co_wait` in its CO_WAITING branch, after `co_yield()`. -/
  | waitYield
  /-- The `n`-th activation of `co_yield`: in `rand_choose` when it is on top. -/
  | yield (n : Nat)
  /-- The return address at the bottom of a coroutine's own stack. -/
  | callback
  /-- `callback` in its `do … while` loop, in `rand_choose`. -/
  | callbackLoop
  deriving DecidableEq, Repr

/-- `struct co`, less `func`, `arg` and `stack`. -/
structure Co where
  tag : Bool
  /-- `none` is `NULL`. -/
  name : Option String
  status : CoStatus
  waiter : Option Ref
  /-- `none` until the first `setjmp`. -/
  context : Option Context
  deriving DecidableEq, Repr

/-- The state of the process. -/
structure State where
  heap : Ref → Co
  /-- The first `pool_member` entries of `pool`. -/
  pool : List (Option Ptr)
  current : Ref
  /-- Every stack, top frame first. -/
  stackOf : StackId → List Frame
  /-- The stack the processor runs on. -/
  cpu : StackId
  /-- How many times `co_yield` has called `setjmp`. -/
  yields : Nat

/-- Before the first statement of `main`. What is in a record before its `co_start` is not
read. -/
def State.init (p : Program) : State where
  heap r :=
    match r with
    | .currentCo =>
        { tag := true, name := none, status := .running, waiter := none, context := none }
    | .co _ => { tag := false, name := none, status := .dead, waiter := none, context := none }
  pool := []
  current := .currentCo
  stackOf := Function.update (fun _ => []) .main [.main p.main]
  cpu := .main
  yields := 0

/-- How a run can end other than by `main` returning. -/
inductive Fault
  /-- `co_start` with 128 entries in `pool`. -/
  | poolOverflow
  /-- `pool[i]->name` in `co_delete`, where `pool[i]` is `NULL`. -/
  | nullSlot
  /-- `rand() % pool_member`, where `pool_member` is 0. -/
  | divisionByZero
  /-- `longjmp` to a context never set, or whose frame is gone. -/
  | deadContext
  /-- `current->waiter` is `NULL` at the end of `co_wait`. -/
  | nullWaiter
  /-- An `assert` of the library failed. -/
  | assertFailed
  deriving DecidableEq, Repr

/-- The result of one step. -/
inductive Outcome
  | next (s : State)
  | fault (f : Fault)
  /-- `main` returned. -/
  | exited

namespace State

/-- Change the record at `r`. -/
def modify (s : State) (r : Ref) (f : Co → Co) : State :=
  { s with heap := Function.update s.heap r (f (s.heap r)) }

/-- `co->status = st`. -/
def setStatus (s : State) (r : Ref) (st : CoStatus) : State :=
  s.modify r fun co => { co with status := st }

/-- The frames of the stack the processor runs on. -/
def frames (s : State) : List Frame := s.stackOf s.cpu

/-- Replace them. -/
def setFrames (s : State) (fs : List Frame) : State :=
  { s with stackOf := Function.update s.stackOf s.cpu fs }

/-- The test of `rand_choose` on an entry of `pool`. -/
def eligible (s : State) (co : Ptr) : Bool :=
  (s.heap (.co co)).status = .new || (s.heap (.co co)).status = .waiting

/-- The entry `i` of `pool`, if it passes the test. -/
def candidate (s : State) (i : Nat) : Option Ptr :=
  match s.pool[i]? with
  | some (some co) => if s.eligible co then some co else none
  | _ => none

variable (s : State) (r q : Ref) (f : Co → Co) (st : CoStatus) (fs : List Frame) (σ : StackId)

@[simp] theorem modify_heap :
    (s.modify r f).heap q = if q = r then f (s.heap r) else s.heap q := by
  simp [modify, Function.update_apply]

@[simp] theorem modify_pool : (s.modify r f).pool = s.pool := rfl
@[simp] theorem modify_current : (s.modify r f).current = s.current := rfl
@[simp] theorem modify_stackOf : (s.modify r f).stackOf = s.stackOf := rfl
@[simp] theorem modify_cpu : (s.modify r f).cpu = s.cpu := rfl

@[simp] theorem setStatus_pool : (s.setStatus r st).pool = s.pool := rfl
@[simp] theorem setStatus_current : (s.setStatus r st).current = s.current := rfl
@[simp] theorem setStatus_stackOf : (s.setStatus r st).stackOf = s.stackOf := rfl
@[simp] theorem setStatus_cpu : (s.setStatus r st).cpu = s.cpu := rfl

@[simp] theorem setStatus_status :
    ((s.setStatus r st).heap q).status = if q = r then st else (s.heap q).status := by
  by_cases h : q = r <;> simp [setStatus, h]

@[simp] theorem setStatus_name : ((s.setStatus r st).heap q).name = (s.heap q).name := by
  by_cases h : q = r <;> simp [setStatus, h]

@[simp] theorem setStatus_context :
    ((s.setStatus r st).heap q).context = (s.heap q).context := by
  by_cases h : q = r <;> simp [setStatus, h]

@[simp] theorem setStatus_waiter :
    ((s.setStatus r st).heap q).waiter = (s.heap q).waiter := by
  by_cases h : q = r <;> simp [setStatus, h]

@[simp] theorem setFrames_heap : (s.setFrames fs).heap = s.heap := rfl
@[simp] theorem setFrames_pool : (s.setFrames fs).pool = s.pool := rfl
@[simp] theorem setFrames_current : (s.setFrames fs).current = s.current := rfl
@[simp] theorem setFrames_cpu : (s.setFrames fs).cpu = s.cpu := rfl
@[simp] theorem setFrames_yields : (s.setFrames fs).yields = s.yields := rfl

@[simp] theorem setFrames_stackOf :
    (s.setFrames fs).stackOf σ = if σ = s.cpu then fs else s.stackOf σ := by
  simp [setFrames, Function.update_apply]

end State

/-- A round of the loop of `rand_choose`, in which `rand()` returns `draw`. -/
def randChoose (s : State) (draw : Nat) : Option Ptr :=
  let index := draw % s.pool.length
  match s.candidate index with
  | some co => some co
  | none =>
      match if 1 ≤ index then s.candidate (index - 1) else none with
      | some co => some co
      | none => if index + 2 ≤ s.pool.length then s.candidate (index + 1) else none

/-- The loop of `co_delete(co)`; `name` is `co->name`. -/
def deleteLoop (heap : Ref → Co) (name : Option String) :
    List (Option Ptr) → Option (List (Option Ptr))
  | [] => some []
  | none :: _ => none
  | some q :: rest =>
      if (heap (.co q)).name = name then
        some (none :: rest)
      else
        (deleteLoop heap name rest).map fun rest => some q :: rest

/-- `co_delete(co)`, and what its caller does next. -/
def coDelete (s : State) (r : Ref) (next : State → Outcome) : Outcome :=
  match deleteLoop s.heap (s.heap r).name s.pool with
  | none => .fault .nullSlot
  | some pool => next { s with pool }

/-- `co_start`. -/
def coStart (p : Program) (s : State) (co : Ptr) : Outcome :=
  if s.pool.length < 128 then
    .next { s with
      heap := Function.update s.heap (.co co)
        { tag := false, name := some (p.name co), status := .new, waiter := none, context := none }
      pool := s.pool ++ [some co] }
  else
    .fault .poolOverflow

/-- `current_xchg(co)`. -/
def currentXchg (s : State) (co : Ptr) : State :=
  ({ (s.setStatus s.current .waiting) with current := .co co }.modify (.co co)
    fun record => { record with waiter := some s.current }).setStatus (.co co) .running

/-- `co_yield` up to its call of `rand_choose`. -/
def coYield (s : State) : State :=
  { (s.modify s.current fun co =>
      { co with status := .waiting, context := some ⟨s.cpu, s.yields⟩ }) with
    stackOf := Function.update s.stackOf s.cpu (.yield s.yields :: s.frames)
    yields := s.yields + 1 }

/-- `co_wait(co)`. -/
def coWait (p : Program) (s : State) (co : Ptr) : State :=
  match (s.heap (.co co)).status with
  | .dead => s
  | .waiting => coYield (s.setFrames (.waitYield :: s.frames))
  | _ => (currentXchg s co).setFrames (.func co (p.func co) :: .waitCall co :: s.frames)

/-- The end of `co_wait`, after `current->func` has returned. -/
def waitReturn (s : State) : Outcome :=
  coDelete (s.setStatus s.current .dead) s.current fun s =>
    match (s.heap s.current).waiter with
    | none => .fault .nullWaiter
    | some waiter =>
        if (s.heap waiter).tag then .next { s with current := waiter } else .fault .assertFailed

/-- The frames below the activation `n` of `co_yield`, if it is on the stack. -/
def unwind (n : Nat) : List Frame → Option (List Frame)
  | [] => none
  | f :: fs => if f = .yield n then some fs else unwind n fs

/-- `longjmp(co->context, 2)`, with `current` set before. -/
def longjmp (s : State) (co : Ptr) : Outcome :=
  match (s.heap (.co co)).context with
  | none => .fault .deadContext
  | some ctx =>
      match unwind ctx.yield (s.stackOf ctx.stack) with
      | none => .fault .deadContext
      | some fs => .next { s with
          current := .co co
          cpu := ctx.stack
          stackOf := Function.update s.stackOf ctx.stack fs }

/-- `co_yield` after `rand_choose` has returned `choice`. -/
def switchTo (p : Program) (s : State) (choice : Ptr) : Outcome :=
  match (s.heap (.co choice)).status with
  | .new => .next { (s.setStatus (.co choice) .running) with
      current := .co choice
      cpu := .own choice
      stackOf := Function.update s.stackOf (.own choice)
        [.func choice (p.func choice), .callback] }
  | .waiting => longjmp (s.setStatus (.co choice) .running) choice
  | _ => .fault .assertFailed

/-- One step; `draw` is what `rand()` returns, where it is called. -/
def step (p : Program) (s : State) (draw : Nat) : Outcome :=
  match s.frames with
  | [] => .exited
  | .main [] :: _ => .exited
  | .main (.start co :: rest) :: fs => coStart p (s.setFrames (.main rest :: fs)) co
  | .main (.wait co :: rest) :: fs => .next (coWait p (s.setFrames (.main rest :: fs)) co)
  | .func _ 0 :: fs => .next (s.setFrames fs)
  | .func co (n + 1) :: fs => .next (coYield (s.setFrames (.func co n :: fs)))
  | .waitCall _ :: fs => waitReturn (s.setFrames fs)
  | .waitYield :: fs => .next (s.setFrames fs)
  | .callback :: _ =>
      coDelete (s.setStatus s.current .dead) s.current fun s =>
        .next (s.setFrames [.callbackLoop])
  | .yield _ :: _ =>
      if s.pool.length = 0 then
        .fault .divisionByZero
      else
        match randChoose s draw with
        | none => .next s
        | some choice => switchTo p s choice
  | .callbackLoop :: _ =>
      if s.pool.length = 0 then
        .fault .divisionByZero
      else
        match randChoose s draw with
        | none => .next s
        | some co =>
            if (s.heap (.co co)).name = (s.heap s.current).name then
              .next s
            else
              longjmp s co

/-- The process that runs `p`; the labels are what `rand()` returns. -/
def machine (p : Program) : System State Nat where
  init s := s = State.init p
  step s draw s' := step p s draw = .next s'

end OsLabs.Libco.Pool
