import Mathlib.Data.Finset.Card
import Mathlib.Logic.Function.Basic
import OsLabs.Transition
import OsLabs.Weakest

/-!
# OsLabs.MultiThreads.SpinlockXv6

`multi-threads/spinlock-xv6.c`: the spinlocks of a kernel that runs on several CPUs, with
`pushcli` and `popcli` around them.

The procedures are lists of instructions, each of which reads or writes shared memory, or
the state of its own CPU, once. A step of the system is one instruction of one CPU, a call
by the kernel code on a CPU, or an interrupt: where interrupts are on, a handler can begin at
any point of the code, with interrupts off, and call the same procedures. The locks may be
any number, and so may the CPUs.

The call stack that `getcallerpcs` records is not part of the model; nothing reads it.
-/

namespace OsLabs.MultiThreads.SpinlockXv6

universe u v

variable {C : Type u} {L : Type v}

/-- The calls that the kernel makes. -/
inductive Call (L : Type v)
  | acquire (lk : L)
  | release (lk : L)
  | holding (lk : L)
  | pushcli
  | popcli
  deriving DecidableEq

/-- What is done in one step. -/
inductive Instr (L : Type v)
  /-- `eflags = readeflags()`. -/
  | readeflags
  /-- `cli()`. -/
  | cli
  /-- `if(mycpu()->ncli == 0) mycpu()->intena = eflags & FL_IF`. -/
  | saveIntena
  /-- `mycpu()->ncli += 1`. -/
  | incNcli
  /-- `if(readeflags()&FL_IF) panic("popcli - interruptible")`. -/
  | checkInterruptible
  /-- `--mycpu()->ncli`. -/
  | decNcli
  /-- `if(... < 0) panic("popcli")`. -/
  | checkNcli
  /-- `if(mycpu()->ncli == 0 && mycpu()->intena) sti()`. -/
  | restore
  /-- The first read of `holding`: `r = lock->locked`. -/
  | readLocked (lk : L)
  /-- The second: `r = r && lock->cpu == mycpu()`. -/
  | readCpu (lk : L)
  /-- `if(...) panic("acquire")`. -/
  | panicHeld (lk : L)
  /-- `if(!...) panic("release")`. -/
  | panicNotHeld (lk : L)
  /-- `while(xchg(&lk->locked, 1) != 0)`: one round. -/
  | xchg (lk : L)
  /-- `lk->cpu = mycpu()`. -/
  | setCpu (lk : L)
  /-- `lk->cpu = 0`. -/
  | clearCpu (lk : L)
  /-- `movl $0, lk->locked`. -/
  | unlock (lk : L)

/-- `pushcli()`. -/
def pushcli : List (Instr L) := [.readeflags, .cli, .saveIntena, .incNcli]

/-- `popcli()`. -/
def popcli : List (Instr L) := [.checkInterruptible, .decNcli, .checkNcli, .restore]

/-- `holding(lock)`. -/
def holding (lk : L) : List (Instr L) := pushcli ++ ([.readLocked lk, .readCpu lk] ++ popcli)

/-- `acquire(lk)`. -/
def acquire (lk : L) : List (Instr L) :=
  pushcli ++ (holding lk ++ [.panicHeld lk, .xchg lk, .setCpu lk])

/-- `release(lk)`. -/
def release (lk : L) : List (Instr L) :=
  holding lk ++ ([.panicNotHeld lk, .clearCpu lk, .unlock lk] ++ popcli)

/-- The code of a call. -/
def Call.code : Call L → List (Instr L)
  | .acquire lk => SpinlockXv6.acquire lk
  | .release lk => SpinlockXv6.release lk
  | .holding lk => SpinlockXv6.holding lk
  | .pushcli => SpinlockXv6.pushcli
  | .popcli => SpinlockXv6.popcli

/-- `struct spinlock`. -/
structure Spinlock (C : Type u) where
  locked : Bool
  /-- `0` is `none`. -/
  cpu : Option C

/-- `initlock(lk, name)`. -/
def initlock : Spinlock C := { locked := false, cpu := none }

/-- Code that runs on a CPU: the call, what is left of it, and its variables. -/
structure Context (L : Type v) where
  /-- The last call. -/
  call : Option (Call L)
  code : List (Instr L)
  eflags : Bool
  r : Bool
  /-- How many `pushcli` of its own the kernel code has not undone. -/
  pushes : Nat

/-- Code that has not called anything yet. -/
def Context.start : Context L :=
  { call := none, code := [], eflags := false, r := false, pushes := 0 }

/-- A CPU. -/
structure Cpu (L : Type v) where
  /-- The bit `FL_IF` of the flags: interrupts are on. -/
  interruptible : Bool
  ncli : Int
  intena : Bool
  context : Context L
  /-- The code that has been interrupted, the last one first. -/
  stack : List (Context L)
  panicked : Option String
  /-- What the kernel has last set the flag to, apart from the code of the locks. No instruction
  reads it, nor the next field. -/
  wanted : Bool
  /-- The locks that the CPU has taken. -/
  own : Finset L

/-- The locks, and the CPUs. -/
structure State (C : Type u) (L : Type v) where
  lock : L → Spinlock C
  cpu : C → Cpu L

section
variable [DecidableEq C] [DecidableEq L]

/-- Change the state of a CPU. -/
def State.setCpu (s : State C L) (c : C) (cpu : Cpu L) : State C L :=
  { s with cpu := Function.update s.cpu c cpu }

/-- Change a lock. -/
def State.setLock (s : State C L) (lk : L) (lock : Spinlock C) : State C L :=
  { s with lock := Function.update s.lock lk lock }

/-- One instruction of the CPU `c`, which is in the state `p` and has the code `rest` behind
it. -/
def exec (c : C) (s : State C L) (rest : List (Instr L)) (p : Cpu L) : Instr L → State C L
  | .readeflags =>
      let q := { p.context with code := rest, eflags := p.interruptible }
      s.setCpu c { p with context := q }
  | .cli => s.setCpu c { p with interruptible := false, context.code := rest }
  | .saveIntena =>
      let intena := if p.ncli = 0 then p.context.eflags else p.intena
      s.setCpu c { p with intena := intena, context.code := rest }
  | .incNcli => s.setCpu c { p with ncli := p.ncli + 1, context.code := rest }
  | .checkInterruptible =>
      if p.interruptible then s.setCpu c { p with panicked := some "popcli - interruptible" }
      else s.setCpu c { p with context.code := rest }
  | .decNcli => s.setCpu c { p with ncli := p.ncli - 1, context.code := rest }
  | .checkNcli =>
      if p.ncli < 0 then s.setCpu c { p with panicked := some "popcli" }
      else s.setCpu c { p with context.code := rest }
  | .restore =>
      let sti := p.ncli = 0 ∧ p.intena = true
      s.setCpu c { p with interruptible := p.interruptible || decide sti, context.code := rest }
  | .readLocked lk =>
      let q := { p.context with code := rest, r := (s.lock lk).locked }
      s.setCpu c { p with context := q }
  | .readCpu lk =>
      let q := { p.context with
        code := rest
        r := p.context.r && decide ((s.lock lk).cpu = some c) }
      s.setCpu c { p with context := q }
  | .panicHeld _ =>
      if p.context.r then s.setCpu c { p with panicked := some "acquire" }
      else s.setCpu c { p with context.code := rest }
  | .panicNotHeld _ =>
      if p.context.r then s.setCpu c { p with context.code := rest }
      else s.setCpu c { p with panicked := some "release" }
  | .xchg lk =>
      if (s.lock lk).locked then s
      else
        (s.setLock lk { s.lock lk with locked := true }).setCpu c
          { p with own := insert lk p.own, context.code := rest }
  | .setCpu lk =>
      (s.setLock lk { s.lock lk with cpu := some c }).setCpu c { p with context.code := rest }
  | .clearCpu lk =>
      (s.setLock lk { s.lock lk with cpu := none }).setCpu c { p with context.code := rest }
  | .unlock lk =>
      (s.setLock lk { s.lock lk with locked := false }).setCpu c
        { p with own := p.own.erase lk, context.code := rest }

/-- What a CPU can do. -/
inductive Act (L : Type v)
  /-- The kernel calls a procedure. -/
  | call (call : Call L)
  /-- The next instruction of the call. -/
  | run
  /-- An interrupt. -/
  | interrupt
  /-- The handler returns. -/
  | iret
  /-- The kernel turns interrupts on or off itself. -/
  | setFlag (on : Bool)

/-- The kernel's own count of its `pushcli`, at a call. -/
def count (call : Call L) (pushes : Nat) : Nat :=
  match call with
  | .pushcli => pushes + 1
  | .popcli => pushes - 1
  | _ => pushes

/-- A step of the CPU `c`. -/
def next (s : State C L) (l : C × Act L) : Option (State C L) :=
  let p := s.cpu l.1
  if p.panicked.isSome then
    none
  else
    match l.2 with
    | .run =>
        match p.context.code with
        | [] => none
        | i :: rest => some (exec l.1 s rest p i)
    | .call call =>
        if p.context.code = [] then
          let q := { p.context with
            call := some call, code := call.code, pushes := count call p.context.pushes }
          some (s.setCpu l.1 { p with context := q })
        else
          none
    | .interrupt =>
        if p.interruptible then
          some (s.setCpu l.1 { p with
            interruptible := false, wanted := false, context := .start
            stack := p.context :: p.stack })
        else
          none
    | .iret =>
        match p.stack with
        | [] => none
        | q :: stack =>
            if p.context.code = [] then
              some (s.setCpu l.1 { p with
                interruptible := true, wanted := true, context := q, stack := stack })
            else
              none
    | .setFlag on =>
        if p.context.code = [] then
          some (s.setCpu l.1 { p with interruptible := on, wanted := on })
        else
          none

/-- The state in the beginning: every lock has been initialised. -/
def Initial (s : State C L) : Prop :=
  (∀ lk, s.lock lk = initlock) ∧
    ∀ c, (s.cpu c).ncli = 0 ∧ (s.cpu c).context = .start ∧ (s.cpu c).stack = [] ∧
      (s.cpu c).panicked = none ∧ (s.cpu c).wanted = (s.cpu c).interruptible ∧ (s.cpu c).own = ∅

/-- The kernel with these locks. -/
def machine (C : Type u) (L : Type v) [DecidableEq C] [DecidableEq L] :
    System (State C L) (C × Act L) where
  init := Initial
  step s l s' := next s l = some s'

/-- What the kernel code keeps to: its `popcli` undo `pushcli` of its own, a handler has
undone all that it has done when it returns, and the flag is not turned on or off in
between. -/
def Matched (s : State C L) (l : C × Act L) : Prop :=
  match l.2 with
  | .call .popcli => 0 < (s.cpu l.1).context.pushes
  | .iret => (s.cpu l.1).ncli = 0
  | .setFlag _ => (s.cpu l.1).ncli = 0
  | _ => True

end

end OsLabs.MultiThreads.SpinlockXv6
