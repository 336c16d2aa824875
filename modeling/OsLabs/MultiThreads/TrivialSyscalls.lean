import Mathlib.Data.Nat.Digits.Defs
import OsLabs.MultiThreads.Lock
import OsLabs.MultiThreads.TrivialOs

/-!
# OsLabs.MultiThreads.TrivialSyscalls

`multi-threads/trivial-os.c`: the system while its tasks make system calls and page faults.

`proc_syscall` runs with the interrupts on, so a task can lose its CPU there and be resumed
later, and then it reads `current` again. What it prints is right nevertheless, because a
task is only ever resumed on its own CPU, and is then the current task of it. Between
`spin_lock` and `spin_unlock` the interrupts are off, so a task that has the lock also has
its CPU.

A context is where a task is in the code, and whether the interrupts are on. `os_interrupt`
saves the one that was interrupted and returns another, as in `OsLabs.MultiThreads.TrivialOs`.
What `kalloc` returns and what stands in the memory of a task may be anything.
-/

namespace OsLabs.MultiThreads.TrivialSyscalls

open TrivialOs (schedule osInit saveContext)
open Lock (atomicXchg)

abbrev Word := BitVec 64

/-- A system call of a task, and the page of the task when it was made. -/
structure Call where
  task : Nat
  gpr1 : Word
  page : Word
  deriving DecidableEq, Repr

/-- Where a context is. -/
inductive Pc
  /-- `_mpe_init`, about to yield. -/
  | boot
  /-- The program of a task. -/
  | user
  /-- `os_interrupt`: `_intr_write(1)`. -/
  | entered (call : Call)
  /-- `proc_syscall`: the computation of `pa`. -/
  | handler (call : Call)
  /-- `spin_lock`: `_intr_write(0)`. -/
  | address (call : Call) (pa : Word)
  /-- `spin_lock`: the exchange. -/
  | exchange (call : Call) (pa : Word)
  /-- The call of `printf`. -/
  | printf (call : Call) (pa : Word)
  /-- `printf`, with these characters to come; then the exchange of `spin_unlock`. -/
  | putch (call : Call) (rest : List Char)
  /-- `spin_unlock`: `_intr_write(1)`. -/
  | enable (call : Call)
  /-- `return ctx`, which leads back to the program. -/
  | leave (call : Call)
  deriving DecidableEq, Repr

/-- A context, with the task that it is of. -/
structure Frame where
  owner : Option Nat
  pc : Pc
  /-- Are the interrupts on? -/
  intr : Bool
  deriving DecidableEq, Repr

/-- A line that was printed: for which call, and the arguments of `printf`. -/
structure Line where
  call : Call
  shown : Nat
  cpu : Nat
  pa : Word
  /-- The string at `pa`. -/
  chars : List Char
  deriving DecidableEq, Repr

/-- `"[syscall@P%d on cpu-%d] puts '%s'\n"` -/
def Line.text (line : Line) : List Char :=
  "[syscall@P".toList ++ Nat.toDigits 10 line.shown ++ " on cpu-".toList ++
    Nat.toDigits 10 line.cpu ++ "] puts '".toList ++ line.chars ++ "'\n".toList

/-- The machine. -/
structure State where
  /-- `currents` and the contexts of the tasks. -/
  mem : TrivialOs.State Frame
  /-- `page` of the tasks. -/
  pages : Nat → Word
  /-- What each CPU runs. -/
  running : Nat → Frame
  /-- `lock` of `proc_syscall`. -/
  lock : Int
  /-- The characters on the console, and the lines that `printf` was called for. -/
  out : List Char
  lines : List Line

/-- Let a CPU run another context. -/
def State.setFrame (s : State) (c : Nat) (f : Frame) : State :=
  { s with running := Function.update s.running c f }

/-- The constants of the machine. -/
structure Config where
  /-- `LENGTH(tasks)` -/
  tasks : Nat
  /-- `_ncpu()` -/
  ncpu : Nat
  /-- `vm.pgsize` -/
  pgsize : Word

/-- What happens on a CPU. -/
inductive Act
  /-- The timer, or `_yield` of `_mpe_init`; the loop of `schedule` ends in time. -/
  | interrupt (fuel : Nat)
  /-- A page fault, for which `kalloc` returns a page. -/
  | pagefault (page : Word)
  /-- A system call, with `GPR1`. -/
  | syscall (gpr1 : Word)
  /-- The next step of the kernel; for `printf`, the string that stands at `pa`. -/
  | run (chars : List Char)
  deriving DecidableEq, Repr

/-- A step of the CPU `c`. -/
def step (k : Config) (s : State) (c : Nat) (act : Act) : Option State :=
  let f := s.running c
  match act, f.pc with
  | .interrupt fuel, _ =>
      if f.intr then
        (schedule k.ncpu fuel s.mem c f).map fun r => { s with mem := r.1 }.setFrame c r.2
      else
        none
  | .pagefault page, .user =>
      (s.mem.currents c).map fun t => { s with pages := Function.update s.pages t page }
  | .syscall gpr1, .user =>
      f.owner.map fun t =>
        s.setFrame c { f with pc := .entered { task := t, gpr1, page := s.pages t }, intr := false }
  | .run _, .entered call => some (s.setFrame c { f with pc := .handler call, intr := true })
  | .run _, .handler call =>
      (s.mem.currents c).map fun t =>
        s.setFrame c { f with pc := .address call (s.pages t + (call.gpr1 &&& (k.pgsize - 1))) }
  | .run _, .address call pa =>
      some (s.setFrame c { f with pc := .exchange call pa, intr := false })
  | .run _, .exchange call pa =>
      let (old, lock) := atomicXchg s.lock 1
      some ({ s with lock }.setFrame c
        { f with pc := if old ≠ 0 then .exchange call pa else .printf call pa })
  | .run chars, .printf call pa =>
      (s.mem.currents c).map fun t =>
        let line := { call, shown := t + 1, cpu := c, pa, chars }
        { s with lines := s.lines ++ [line] }.setFrame c { f with pc := .putch call line.text }
  | .run _, .putch call (ch :: rest) =>
      some ({ s with out := s.out ++ [ch] }.setFrame c { f with pc := .putch call rest })
  | .run _, .putch call [] =>
      some ({ s with lock := (atomicXchg s.lock 0).2 }.setFrame c { f with pc := .enable call })
  | .run _, .enable call => some (s.setFrame c { f with pc := .leave call, intr := true })
  | .run _, .leave _ => some (s.setFrame c { f with pc := .user, intr := true })
  | _, _ => none

/-- The machine when the CPUs come out of `_mpe_init`. -/
def State.init (k : Config) : State where
  mem := osInit k.tasks fun i => { owner := some i, pc := .user, intr := true }
  pages _ := 0
  running _ := { owner := none, pc := .boot, intr := true }
  lock := 0
  out := []
  lines := []

/-- The CPUs in any order, whatever the tasks do. -/
def machine (k : Config) : System State (Nat × Act) where
  init s := s = State.init k
  step s l s' := l.1 < k.ncpu ∧ step k s l.1 l.2 = some s'

/-! ### What a context must be -/

/-- The system call it is in. -/
def Pc.call? : Pc → Option Call
  | .boot | .user => none
  | .entered call | .handler call | .enable call | .leave call => some call
  | .address call _ | .exchange call _ | .printf call _ => some call
  | .putch call _ => some call

/-- The address it has computed. -/
def Pc.pa? : Pc → Option Word
  | .address _ pa | .exchange _ pa | .printf _ pa => some pa
  | _ => none

/-- Are the interrupts on there? -/
def Pc.intr : Pc → Bool
  | .entered _ | .exchange .. | .printf .. | .putch .. | .enable _ => false
  | _ => true

/-- Has it the lock? -/
def Pc.critical : Pc → Bool
  | .printf .. | .putch .. => true
  | _ => false

/-- What it still has to print of its line. -/
def Pc.rest : Pc → List Char
  | .putch _ rest => rest
  | _ => []

theorem Pc.intr_of_critical {pc : Pc} (h : pc.critical = true) : pc.intr = false := by
  cases pc <;> simp_all [Pc.intr, Pc.critical]

/-- The address that a call asks to print. -/
def Call.pa (k : Config) (call : Call) : Word := call.page + (call.gpr1 &&& (k.pgsize - 1))

/-- A context as it should be. -/
structure Sound (k : Config) (pages : Nat → Word) (f : Frame) : Prop where
  boot : f.owner = none ↔ f.pc = .boot
  intr : f.intr = f.pc.intr
  call : ∀ call, f.pc.call? = some call → f.owner = some call.task ∧ call.page = pages call.task
  pa : ∀ call pa, f.pc.call? = some call → f.pc.pa? = some pa → pa = call.pa k

/-- The line says which task made the call, and on which CPU, and shows its string. -/
def Line.Right (k : Config) (line : Line) : Prop :=
  line.shown = line.call.task + 1 ∧ line.cpu = line.call.task % k.ncpu ∧ line.pa = line.call.pa k

/-! ### The steps -/

/-- The steps of a CPU. -/
inductive Moved (k : Config) (s : State) (c : Nat) : State → Prop
  | interrupt {fuel : Nat} {mem : TrivialOs.State Frame} {f : Frame} :
      (s.running c).intr = true →
      schedule k.ncpu fuel s.mem c (s.running c) = some (mem, f) →
      Moved k s c ({ s with mem }.setFrame c f)
  | pagefault {page : Word} {t : Nat} : (s.running c).pc = .user → s.mem.currents c = some t →
      Moved k s c { s with pages := Function.update s.pages t page }
  | syscall {gpr1 : Word} {t : Nat} : (s.running c).pc = .user → (s.running c).owner = some t →
      Moved k s c (s.setFrame c { s.running c with
        pc := .entered { task := t, gpr1, page := s.pages t }, intr := false })
  | enter {call : Call} : (s.running c).pc = .entered call →
      Moved k s c (s.setFrame c { s.running c with pc := .handler call, intr := true })
  | compute {call : Call} {t : Nat} : (s.running c).pc = .handler call →
      s.mem.currents c = some t →
      Moved k s c (s.setFrame c { s.running c with
        pc := .address call (s.pages t + (call.gpr1 &&& (k.pgsize - 1))) })
  | disable {call : Call} {pa : Word} : (s.running c).pc = .address call pa →
      Moved k s c (s.setFrame c { s.running c with pc := .exchange call pa, intr := false })
  | spin {call : Call} {pa : Word} : (s.running c).pc = .exchange call pa → s.lock ≠ 0 →
      Moved k s c ({ s with lock := 1 }.setFrame c { s.running c with pc := .exchange call pa })
  | take {call : Call} {pa : Word} : (s.running c).pc = .exchange call pa → s.lock = 0 →
      Moved k s c ({ s with lock := 1 }.setFrame c { s.running c with pc := .printf call pa })
  | print {call : Call} {pa : Word} {line : Line} {t : Nat} :
      (s.running c).pc = .printf call pa → s.mem.currents c = some t →
      line.call = call → line.shown = t + 1 → line.cpu = c → line.pa = pa →
      Moved k s c ({ s with lines := s.lines ++ [line] }.setFrame c
        { s.running c with pc := .putch call line.text })
  | put {call : Call} {ch : Char} {rest : List Char} :
      (s.running c).pc = .putch call (ch :: rest) →
      Moved k s c ({ s with out := s.out ++ [ch] }.setFrame c
        { s.running c with pc := .putch call rest })
  | release {call : Call} : (s.running c).pc = .putch call [] →
      Moved k s c ({ s with lock := 0 }.setFrame c { s.running c with pc := .enable call })
  | enable {call : Call} : (s.running c).pc = .enable call →
      Moved k s c (s.setFrame c { s.running c with pc := .leave call, intr := true })
  | leave {call : Call} : (s.running c).pc = .leave call →
      Moved k s c (s.setFrame c { s.running c with pc := .user, intr := true })

section
variable {k : Config} {s s' : State} {c : Nat} {act : Act} {f f' : Frame}
variable {mem mem' : TrivialOs.State Frame} {pages : Nat → Word} {running : Nat → Frame}

theorem moved_of_step (h : step k s c act = some s') : Moved k s c s' := by
  unfold step at h
  dsimp only at h
  split at h
  · split at h
    · next hintr =>
      obtain ⟨⟨mem, f⟩, hs, rfl⟩ := Option.map_eq_some_iff.mp h
      exact .interrupt hintr hs
    · exact absurd h (by simp)
  · next hpc =>
    obtain ⟨t, ht, rfl⟩ := Option.map_eq_some_iff.mp h
    exact .pagefault hpc ht
  · next hpc =>
    obtain ⟨t, ht, rfl⟩ := Option.map_eq_some_iff.mp h
    exact .syscall hpc ht
  · next hpc =>
    obtain rfl := Option.some.inj h
    exact .enter hpc
  · next hpc =>
    obtain ⟨t, ht, rfl⟩ := Option.map_eq_some_iff.mp h
    exact .compute hpc ht
  · next hpc =>
    obtain rfl := Option.some.inj h
    exact .disable hpc
  · next hpc =>
    obtain rfl := Option.some.inj h
    by_cases hlock : s.lock = 0
    · have htake := Moved.take (k := k) hpc hlock
      simpa only [atomicXchg, ne_eq, hlock, not_true_eq_false, if_false] using htake
    · have hspin := Moved.spin (k := k) hpc hlock
      simpa only [atomicXchg, ne_eq, hlock, not_false_eq_true, if_true] using hspin
  · next hpc =>
    obtain ⟨t, ht, rfl⟩ := Option.map_eq_some_iff.mp h
    exact .print hpc ht rfl rfl rfl rfl
  · next hpc =>
    obtain rfl := Option.some.inj h
    exact .put hpc
  · next hpc =>
    obtain rfl := Option.some.inj h
    exact .release hpc
  · next hpc =>
    obtain rfl := Option.some.inj h
    exact .enable hpc
  · next hpc =>
    obtain rfl := Option.some.inj h
    exact .leave hpc
  · exact absurd h (by simp)

/-! ### The tasks and their contexts -/

/-- Each CPU runs a context of its current task, and each task that is nowhere current has
one that is saved, with the interrupts on. -/
structure Sched (k : Config) (mem : TrivialOs.State Frame) (pages : Nat → Word)
    (running : Nat → Frame) : Prop where
  length : mem.tasks.length = k.tasks
  sound : ∀ c, Sound k pages (running c)
  current : ∀ c, (running c).owner = mem.currents c
  place : ∀ c t, mem.currents c = some t → t < k.tasks ∧ t % k.ncpu = c
  saved : ∀ t task, mem.tasks[t]? = some task → (∀ c, mem.currents c ≠ some t) →
    Sound k pages task.context ∧ task.context.owner = some t ∧ task.context.intr = true

/-- Another context of the same task. -/
theorem Sched.update (h : Sched k mem pages running) (hf : Sound k pages f)
    (howner : f.owner = (running c).owner) :
    Sched k mem pages (Function.update running c f) := by
  constructor
  case length => exact h.length
  case place => exact h.place
  case saved => exact h.saved
  case sound =>
    intro d
    by_cases hd : d = c
    · rw [hd, Function.update_self]
      exact hf
    · rw [Function.update_of_ne hd]
      exact h.sound d
  case current =>
    intro d
    by_cases hd : d = c
    · rw [hd, Function.update_self, howner]
      exact h.current c
    · rw [Function.update_of_ne hd]
      exact h.current d

/-- A task is current on one CPU only. -/
theorem Sched.current_inj (h : Sched k mem pages running) {d t : Nat}
    (hc : mem.currents c = some t) (hd : mem.currents d = some t) : d = c :=
  (h.place d t hd).2.symm.trans (h.place c t hc).2

/-- What `schedule` does: it saves the context, and returns that of a task of the CPU. -/
theorem schedule_spec {fuel : Nat} (h : Sched k mem pages running) (hn : 0 < k.tasks)
    (hs : schedule k.ncpu fuel mem c f = some (mem', f')) :
    ∃ j task, j < k.tasks ∧ j % k.ncpu = c ∧
      mem'.currents = Function.update mem.currents c (some j) ∧
      mem'.tasks = (saveContext mem c f).tasks ∧ mem'.tasks[j]? = some task ∧
      task.context = f' := by
  have hstart : (mem.currents c).getD 0 < k.tasks := by
    cases hc : mem.currents c with
    | none => exact hn
    | some t => exact (h.place c t hc).1
  rw [schedule, TrivialOs.search_saveContext h.length hstart] at hs
  cases hseek : Rotation.seek k.tasks k.ncpu c fuel ((mem.currents c).getD 0) with
  | none =>
      rw [hseek] at hs
      exact absurd hs (by simp)
  | some j =>
      obtain ⟨hj, hjc⟩ := Rotation.seek_spec hn hseek
      rw [hseek] at hs
      simp only [Option.map_some, TrivialOs.setCurrent_self, Option.bind_some] at hs
      obtain ⟨task, htask, hret⟩ := Option.map_eq_some_iff.mp hs
      obtain ⟨rfl, rfl⟩ := Prod.mk.inj hret
      refine ⟨j, task, hj, hjc, ?_, rfl, htask, rfl⟩
      show Function.update (saveContext mem c f).currents c (some j) = _
      rw [(TrivialOs.saveContext_current mem c f).1, Function.update_idem]

/-- The contexts after one was saved. -/
theorem saveContext_tasks (t : Nat) : (saveContext mem c f).tasks[t]? =
    if mem.currents c = some t then mem.tasks[t]?.map fun task => { task with context := f }
    else mem.tasks[t]? := by
  rw [saveContext]
  cases hc : mem.currents c with
  | none =>
      rw [if_neg (by simp)]
      rfl
  | some t' =>
      show (mem.tasks.modify t' _)[t]? = _
      rw [List.getElem?_modify]
      by_cases ht : t' = t
      · simp [ht]
      · have hne : some t' ≠ some t := fun heq => ht (Option.some.inj heq)
        simp [ht]

/-- An interrupt. The context that is returned was saved for the task that is current now, or
is the one that was just interrupted. -/
theorem Sched.interrupt {fuel : Nat} (h : Sched k mem pages running) (hn : 0 < k.tasks)
    (hintr : (running c).intr = true)
    (hs : schedule k.ncpu fuel mem c (running c) = some (mem', f')) :
    Sched k mem' pages (Function.update running c f') ∧ f'.intr = true := by
  obtain ⟨j, task, hj, hjc, hcur, htasks, htask, rfl⟩ := schedule_spec h hn hs
  rw [htasks, saveContext_tasks] at htask
  have hf : Sound k pages task.context ∧ task.context.owner = some j ∧
      task.context.intr = true := by
    by_cases hc : mem.currents c = some j
    · rw [if_pos hc] at htask
      obtain ⟨old, -, rfl⟩ := Option.map_eq_some_iff.mp htask
      exact ⟨h.sound c, (h.current c).trans hc, hintr⟩
    · rw [if_neg hc] at htask
      apply h.saved j task htask
      intro d hd
      -- a task of this CPU is not current on another one
      have hdc : d = c := (h.place d j hd).2.symm.trans hjc
      exact hc (hdc ▸ hd)
  obtain ⟨hsound, howner, hon⟩ := hf
  have hother : ∀ d, d ≠ c → mem'.currents d = mem.currents d := by
    intro d hd
    rw [hcur, Function.update_of_ne hd]
  have hself : mem'.currents c = some j := by rw [hcur, Function.update_self]
  refine ⟨?_, hon⟩
  constructor
  case length => rw [htasks, (TrivialOs.saveContext_current mem c (running c)).2, h.length]
  case sound =>
    intro d
    by_cases hd : d = c
    · rw [hd, Function.update_self]
      exact hsound
    · rw [Function.update_of_ne hd]
      exact h.sound d
  case current =>
    intro d
    by_cases hd : d = c
    · rw [hd, Function.update_self, hself, howner]
    · rw [Function.update_of_ne hd, hother d hd]
      exact h.current d
  case place =>
    intro d t ht
    by_cases hd : d = c
    · subst hd
      obtain rfl : j = t := Option.some.inj (hself.symm.trans ht)
      exact ⟨hj, hjc⟩
    · rw [hother d hd] at ht
      exact h.place d t ht
  case saved =>
    intro t saved ht hnot
    rw [htasks, saveContext_tasks] at ht
    by_cases hc : mem.currents c = some t
    · rw [if_pos hc] at ht
      obtain ⟨old, -, rfl⟩ := Option.map_eq_some_iff.mp ht
      exact ⟨h.sound c, (h.current c).trans hc, hintr⟩
    · rw [if_neg hc] at ht
      apply h.saved t saved ht
      intro d hd
      by_cases hdc : d = c
      · exact hc (hdc ▸ hd)
      · exact hnot d ((hother d hdc).trans hd)

/-- Frames of other tasks do not see that a task has a new page. -/
theorem Sound.pagefault {t : Nat} {page : Word} (h : Sound k pages f)
    (hne : f.owner ≠ some t ∨ f.pc = .user) : Sound k (Function.update pages t page) f := by
  constructor
  case boot => exact h.boot
  case intr => exact h.intr
  case pa => exact h.pa
  case call =>
    intro call hcall
    obtain ⟨howner, hpage⟩ := h.call call hcall
    have htask : call.task ≠ t := by
      rintro rfl
      rcases hne with hne | hpc
      · exact hne howner
      · rw [hpc] at hcall
        exact absurd hcall (by simp [Pc.call?])
    rw [Function.update_of_ne htask]
    exact ⟨howner, hpage⟩

/-- A page fault of the program of a task. -/
theorem Sched.pagefault {t : Nat} {page : Word} (h : Sched k mem pages running)
    (hpc : (running c).pc = .user) (hc : mem.currents c = some t) :
    Sched k mem (Function.update pages t page) running := by
  constructor
  case length => exact h.length
  case current => exact h.current
  case place => exact h.place
  case sound =>
    intro d
    apply (h.sound d).pagefault
    by_cases hd : d = c
    · exact .inr (hd ▸ hpc)
    · left
      rw [h.current d]
      exact fun ht => hd (h.current_inj hc ht)
  case saved =>
    intro u task hu hnot
    obtain ⟨hsound, howner, hintr⟩ := h.saved u task hu hnot
    have hut : u ≠ t := fun heq => hnot c (heq ▸ hc)
    refine ⟨hsound.pagefault (.inl ?_), howner, hintr⟩
    rw [howner]
    exact fun heq => hut (Option.some.inj heq)

/-! ### The lock and the console -/

/-- The lock is free, or taken by one CPU; and on the console are the lines of the calls,
except for what this CPU has not printed yet. -/
structure Console (k : Config) (lock : Int) (out : List Char) (lines : List Line)
    (running : Nat → Frame) : Prop where
  lock : (lock = 0 ∧ (∀ c, (running c).pc.critical = false) ∧
      out = lines.flatMap Line.text) ∨
    (lock = 1 ∧ ∃ c, (∀ d, (running d).pc.critical = true ↔ d = c) ∧
      out ++ (running c).pc.rest = lines.flatMap Line.text)
  right : ∀ line ∈ lines, line.Right k

variable {lock : Int} {out : List Char} {lines : List Line}

/-- The CPU that has the lock. -/
theorem Console.taken (h : Console k lock out lines running)
    (hc : (running c).pc.critical = true) :
    lock = 1 ∧ (∀ d, (running d).pc.critical = true ↔ d = c) ∧
      out ++ (running c).pc.rest = lines.flatMap Line.text := by
  rcases h.lock with ⟨-, hfree, -⟩ | ⟨hlock, c', honly, hout⟩
  · rw [hfree c] at hc
    exact absurd hc (by simp)
  · obtain rfl : c = c' := (honly c).mp hc
    exact ⟨hlock, honly, hout⟩

theorem critical_update (d : Nat) : (Function.update running c f d).pc.critical =
    if d = c then f.pc.critical else (running d).pc.critical := by
  by_cases hd : d = c
  · rw [hd, Function.update_self, if_pos rfl]
  · rw [Function.update_of_ne hd, if_neg hd]

/-- Steps outside the critical section. -/
theorem Console.outside (h : Console k lock out lines running)
    (hc : (running c).pc.critical = false) (hf : f.pc.critical = false) :
    Console k lock out lines (Function.update running c f) := by
  have hsame : ∀ d, (Function.update running c f d).pc.critical = (running d).pc.critical := by
    intro d
    rw [critical_update]
    split
    · next hd => rw [hd, hf, hc]
    · rfl
  constructor
  case right => exact h.right
  case lock =>
    simp only [hsame]
    rcases h.lock with hfree | ⟨hlock, c', honly, hout⟩
    · exact .inl hfree
    · have hne : c' ≠ c := by
        rintro rfl
        rw [(honly c').mpr rfl] at hc
        exact absurd hc (by simp)
      refine .inr ⟨hlock, c', honly, ?_⟩
      rwa [Function.update_of_ne hne]

/-- The exchange that takes the lock. -/
theorem Console.take (h : Console k 0 out lines running) (hf : f.pc.critical = true)
    (hrest : f.pc.rest = []) : Console k 1 out lines (Function.update running c f) := by
  rcases h.lock with ⟨-, hfree, hout⟩ | ⟨hlock, -⟩
  · constructor
    case right => exact h.right
    case lock =>
      refine .inr ⟨rfl, c, fun d => ?_, ?_⟩
      · rw [critical_update, hfree d, hf]
        split <;> simp_all
      · rw [Function.update_self, hrest, List.append_nil]
        exact hout
  · exact absurd hlock (by decide)

/-- A step in the critical section. -/
theorem Console.inside {out' : List Char} {lines' : List Line}
    (h : Console k lock out lines running) (hc : (running c).pc.critical = true)
    (hf : f.pc.critical = true) (hlines : ∀ line ∈ lines', line.Right k)
    (hout : out ++ (running c).pc.rest = lines.flatMap Line.text →
      out' ++ f.pc.rest = lines'.flatMap Line.text) :
    Console k lock out' lines' (Function.update running c f) := by
  obtain ⟨hlock, honly, htext⟩ := h.taken hc
  constructor
  case right => exact hlines
  case lock =>
    refine .inr ⟨hlock, c, fun d => ?_, ?_⟩
    · rw [critical_update]
      split
      · next hd => exact iff_of_true hf hd
      · exact honly d
    · rw [Function.update_self]
      exact hout htext

/-- The exchange that gives it back. -/
theorem Console.release (h : Console k lock out lines running)
    (hc : (running c).pc.critical = true) (hrest : (running c).pc.rest = [])
    (hf : f.pc.critical = false) : Console k 0 out lines (Function.update running c f) := by
  obtain ⟨-, honly, htext⟩ := h.taken hc
  constructor
  case right => exact h.right
  case lock =>
    refine .inl ⟨rfl, fun d => ?_, ?_⟩
    · rw [critical_update]
      split
      · exact hf
      · next hd =>
        rw [← Bool.not_eq_true, honly d]
        exact hd
    · rwa [hrest, List.append_nil] at htext

/-! ### The invariant -/

/-- What holds whatever the tasks do. -/
structure Inv (k : Config) (s : State) : Prop where
  sched : Sched k s.mem s.pages s.running
  console : Console k s.lock s.out s.lines s.running

theorem inv_init : Inv k (State.init k) where
  sched :=
    { length := by simp [State.init, osInit]
      sound := by
        intro c
        constructor
        case boot => simp [State.init]
        case intr => rfl
        case call => simp [State.init, Pc.call?]
        case pa => simp [State.init, Pc.call?]
      current := fun _ => rfl
      place := by simp [State.init, osInit]
      saved := by
        intro t task ht _
        obtain ⟨htk, rfl⟩ : t < k.tasks ∧ task =
            { context := { owner := some t, pc := .user, intr := true } } := by
          simp only [State.init, osInit, List.getElem?_map, Option.map_eq_some_iff] at ht
          obtain ⟨i, hi, rfl⟩ := ht
          obtain ⟨hlt, rfl⟩ := List.getElem?_eq_some_iff.mp hi
          rw [List.getElem_range]
          exact ⟨by simpa using hlt, rfl⟩
        refine ⟨?_, rfl, rfl⟩
        constructor
        case boot => simp
        case intr => rfl
        case call => simp [Pc.call?]
        case pa => simp [Pc.call?] }
  console :=
    { lock := .inl ⟨rfl, fun _ => rfl, rfl⟩
      right := by simp [State.init] }

/-- The kernel goes on in the same call. -/
theorem Inv.advance {call : Call} (h : Inv k s) (howner : f.owner = (s.running c).owner)
    (hintr : f.intr = f.pc.intr) (hcall : (s.running c).pc.call? = some call)
    (hf : f.pc.call? = some call) (hpa : ∀ pa, f.pc.pa? = some pa → pa = call.pa k) :
    Sched k s.mem s.pages (Function.update s.running c f) := by
  obtain ⟨htask, hpage⟩ := (h.sched.sound c).call call hcall
  apply h.sched.update _ howner
  constructor
  case boot =>
    apply iff_of_false
    · rw [howner, htask]
      simp
    · intro hboot
      rw [hboot] at hf
      exact absurd hf (by simp [Pc.call?])
  case intr => exact hintr
  case call =>
    intro call' hcall'
    obtain rfl := Option.some.inj (hf.symm.trans hcall')
    exact ⟨howner.trans htask, hpage⟩
  case pa =>
    intro call' pa hcall' hpa'
    obtain rfl := Option.some.inj (hf.symm.trans hcall')
    exact hpa pa hpa'

/-- The task of the current call is the one that is current. -/
theorem Inv.current_call {call : Call} {t : Nat} (h : Inv k s)
    (hcall : (s.running c).pc.call? = some call) (ht : s.mem.currents c = some t) :
    call.task = t ∧ t % k.ncpu = c ∧ call.page = s.pages t := by
  obtain ⟨howner, hpage⟩ := (h.sched.sound c).call call hcall
  have htask : call.task = t := by
    rw [h.sched.current c, ht] at howner
    exact (Option.some.inj howner).symm
  exact ⟨htask, (h.sched.place c t ht).2, htask ▸ hpage⟩

theorem inv_of_moved (h : Inv k s) (hn : 0 < k.tasks) (hm : Moved k s c s') : Inv k s' := by
  have hsound := h.sched.sound c
  cases hm with
  | interrupt hintr hs =>
      obtain ⟨hsched, hon⟩ := h.sched.interrupt hn hintr hs
      have hquiet : ∀ f : Frame, f.intr = f.pc.intr → f.intr = true → f.pc.critical = false := by
        intro f hf hon
        rw [← Bool.not_eq_true]
        intro hcrit
        rw [hf, Pc.intr_of_critical hcrit] at hon
        exact absurd hon (by simp)
      -- neither context has the lock, since both have the interrupts on
      have hf := hsched.sound c
      rw [Function.update_self] at hf
      exact ⟨hsched, h.console.outside (hquiet _ hsound.intr hintr) (hquiet _ hf.intr hon)⟩
  | pagefault hpc hc => exact ⟨h.sched.pagefault hpc hc, h.console⟩
  | syscall hpc ht =>
      refine ⟨h.sched.update ?_ rfl, h.console.outside (by rw [hpc]; rfl) rfl⟩
      constructor
      case boot => simp [ht]
      case intr => rfl
      case call =>
        intro call hcall
        obtain rfl := Option.some.inj hcall
        exact ⟨ht, rfl⟩
      case pa => simp [Pc.pa?]
  | enter hpc =>
      have hcall := congrArg Pc.call? hpc
      exact ⟨h.advance rfl rfl hcall rfl (by simp [Pc.pa?]),
        h.console.outside (by rw [hpc]; rfl) rfl⟩
  | @compute call t hpc ht =>
      have hcall := congrArg Pc.call? hpc
      have hintr := hsound.intr
      rw [hpc] at hintr
      obtain ⟨-, -, hpage⟩ := h.current_call hcall ht
      refine ⟨h.advance rfl hintr hcall rfl ?_, h.console.outside (by rw [hpc]; rfl) rfl⟩
      intro pa hpa
      obtain rfl := Option.some.inj hpa
      rw [Call.pa, hpage]
  | disable hpc =>
      have hcall := congrArg Pc.call? hpc
      refine ⟨h.advance rfl rfl hcall rfl ?_, h.console.outside (by rw [hpc]; rfl) rfl⟩
      intro pa hpa
      obtain rfl := Option.some.inj hpa
      exact hsound.pa _ _ hcall (congrArg Pc.pa? hpc)
  | spin hpc hlock =>
      have hcall := congrArg Pc.call? hpc
      have hintr := hsound.intr
      rw [hpc] at hintr
      have hone : s.lock = 1 := by
        rcases h.console.lock with ⟨hzero, -⟩ | ⟨hone, -⟩
        · exact absurd hzero hlock
        · exact hone
      have hcons := h.console
      rw [hone] at hcons
      refine ⟨h.advance rfl hintr hcall rfl ?_, hcons.outside (by rw [hpc]; rfl) rfl⟩
      intro pa hpa
      obtain rfl := Option.some.inj hpa
      exact hsound.pa _ _ hcall (congrArg Pc.pa? hpc)
  | take hpc hlock =>
      have hcall := congrArg Pc.call? hpc
      have hintr := hsound.intr
      rw [hpc] at hintr
      have hcons := h.console
      rw [hlock] at hcons
      refine ⟨h.advance rfl hintr hcall rfl ?_, hcons.take rfl rfl⟩
      intro pa hpa
      obtain rfl := Option.some.inj hpa
      exact hsound.pa _ _ hcall (congrArg Pc.pa? hpc)
  | @print call pa line t hpc ht hline hshown hcpu hpa =>
      have hcall := congrArg Pc.call? hpc
      have hintr := hsound.intr
      rw [hpc] at hintr
      obtain ⟨htask, hplace, -⟩ := h.current_call hcall ht
      have hright : line.Right k := by
        refine ⟨?_, ?_, ?_⟩
        · rw [hshown, hline, htask]
        · rw [hcpu, hline, htask, hplace]
        · rw [hpa, hline]
          exact hsound.pa _ _ hcall (congrArg Pc.pa? hpc)
      refine ⟨h.advance rfl hintr hcall rfl (by simp [Pc.pa?]),
        h.console.inside (by rw [hpc]; rfl) rfl ?_ ?_⟩
      · intro l hl
        rcases List.mem_append.mp hl with hl | hl
        · exact h.console.right l hl
        · rw [List.mem_singleton.mp hl]
          exact hright
      · intro hout
        rw [hpc] at hout
        show s.out ++ line.text = (s.lines ++ [line]).flatMap Line.text
        rw [List.flatMap_append, ← hout]
        simp [Pc.rest]
  | @put call ch rest hpc =>
      have hcall := congrArg Pc.call? hpc
      have hintr := hsound.intr
      rw [hpc] at hintr
      refine ⟨h.advance rfl hintr hcall rfl (by simp [Pc.pa?]),
        h.console.inside (by rw [hpc]; rfl) rfl h.console.right fun hout => ?_⟩
      show s.out ++ [ch] ++ rest = s.lines.flatMap Line.text
      rw [← hout, hpc, List.append_assoc]
      rfl
  | release hpc =>
      have hcall := congrArg Pc.call? hpc
      have hintr := hsound.intr
      rw [hpc] at hintr
      exact ⟨h.advance rfl hintr hcall rfl (by simp [Pc.pa?]),
        h.console.release (by rw [hpc]; rfl) (by rw [hpc]; rfl) rfl⟩
  | enable hpc =>
      have hcall := congrArg Pc.call? hpc
      exact ⟨h.advance rfl rfl hcall rfl (by simp [Pc.pa?]),
        h.console.outside (by rw [hpc]; rfl) rfl⟩
  | leave hpc =>
      have hcall := congrArg Pc.call? hpc
      obtain ⟨howner, -⟩ := hsound.call _ hcall
      refine ⟨h.sched.update ?_ rfl, h.console.outside (by rw [hpc]; rfl) rfl⟩
      constructor
      case boot => simp [howner]
      case intr => rfl
      case call => simp [Pc.call?]
      case pa => simp [Pc.call?]

theorem inv_of_reachable (hn : 0 < k.tasks) (h : (machine k).Reachable s) : Inv k s := by
  have hinv : (machine k).Invariant (fun _ _ => True) (Inv k) :=
    { init := by
        intro s hs
        subst hs
        exact inv_init
      step := fun s l s' hI _ hs => inv_of_moved hI hn (moved_of_step hs.2) }
  exact h.invariant hinv

/-- The step that a label says. -/
def next (k : Config) (s : State) (l : Nat × Act) : Option State :=
  if l.1 < k.ncpu then step k s l.1 l.2 else none

theorem reachable_of_follow {acts : List (Nat × Act)}
    (hs : System.follow (next k) acts (State.init k) = some s) : (machine k).Reachable s := by
  apply System.Run.follow _ (.init rfl) hs
  intro s l s' hl
  rw [next] at hl
  split at hl
  · next hlt => exact ⟨trivial, hlt, hl⟩
  · exact absurd hl (by simp)

/-- The five tasks of the file, on two CPUs. -/
def fileConfig : Config where
  tasks := 5
  ncpu := 2
  pgsize := 4096

/-- The third task has a page fault and makes a system call; before it takes the lock, it loses
its CPU to the two others there. -/
def preempted : List (Nat × Act) :=
  [(0, .interrupt 9), (1, .interrupt 9), (0, .pagefault 0x7000), (0, .syscall 0x1010),
    (0, .run []), (0, .run []), (0, .interrupt 9), (0, .interrupt 9), (0, .interrupt 9),
    (0, .run []), (0, .run []), (0, .run ['h', 'i'])]

/-- Where this leads, with the lock taken. -/
theorem preempted_reachable : ∃ s, (machine fileConfig).Reachable s ∧
    (s.running 0).pc.critical = true ∧ s.lines.map Line.shown = [3] := by
  obtain ⟨s, hs, hend⟩ : ∃ s, System.follow (next fileConfig) preempted (State.init fileConfig) =
      some s ∧ ((s.running 0).pc.critical, s.lines.map Line.shown) = (true, [3]) :=
    Option.map_eq_some_iff.mp (by decide +kernel)
  obtain ⟨hcrit, hlines⟩ := Prod.mk.inj hend
  exact ⟨s, reachable_of_follow hs, hcrit, hlines⟩

/-- In any run each line on the console says which task made the call, and on which CPU the
task is, and shows the string at the address that the task passed, in the page that it had
then, although the task may have lost its CPU in between. The lines are there one after the
other, except for the rest of the one that is being printed by the CPU that has the lock. -/
theorem syscalls_printed (hn : 0 < k.tasks) (h : (machine k).Reachable s) :
    (∀ line ∈ s.lines, line.shown = line.call.task + 1 ∧
      line.cpu = line.call.task % k.ncpu ∧
      line.pa = line.call.page + (line.call.gpr1 &&& (k.pgsize - 1))) ∧
    ∃ rest, s.out ++ rest = s.lines.flatMap Line.text ∧
      (rest ≠ [] → ∃ c call, (s.running c).pc = .putch call rest) := by
  have hI := inv_of_reachable hn h
  refine ⟨hI.console.right, ?_⟩
  rcases hI.console.lock with ⟨-, -, hout⟩ | ⟨-, c, -, hout⟩
  · exact ⟨[], by rw [List.append_nil, hout], fun hne => absurd rfl hne⟩
  · refine ⟨_, hout, fun hne => ⟨c, ?_⟩⟩
    cases hpc : (s.running c).pc with
    | putch call rest => exact ⟨call, rfl⟩
    | _ =>
        rw [hpc] at hne
        exact absurd rfl hne

theorem syscalls_printed_preempted : ∃ s, (machine fileConfig).Reachable s ∧
    s.lines.map Line.shown = [3] ∧ ∀ line ∈ s.lines, line.cpu = line.call.task % 2 := by
  obtain ⟨s, hs, -, hlines⟩ := preempted_reachable
  exact ⟨s, hs, hlines, fun line hl => ((syscalls_printed (by decide) hs).1 line hl).2.1⟩

/-- `printf` and `spin_unlock`, by steps of the CPU alone. -/
theorem released_of_putch {call : Call} {rest : List Char} (chars : List Char)
    (hpc : (s.running c).pc = .putch call rest) :
    ∃ s', System.follow (fun s a => step k s c a)
      (List.replicate (rest.length + 1) (.run chars)) s = some s' ∧ s'.lock = 0 := by
  induction rest generalizing s with
  | nil =>
      have hs : step k s c (.run chars) = some ({ s with lock := 0 }.setFrame c
          { s.running c with pc := .enable call }) := by
        simp only [step, hpc, atomicXchg]
      refine ⟨{ s with lock := 0 }.setFrame c { s.running c with pc := .enable call }, ?_, rfl⟩
      show (step k s c (.run chars)).bind some = _
      rw [hs, Option.bind_some]
  | cons ch rest ih =>
      have hs : step k s c (.run chars) = some ({ s with out := s.out ++ [ch] }.setFrame c
          { s.running c with pc := .putch call rest }) := by
        simp only [step, hpc]
      have hpc' : (({ s with out := s.out ++ [ch] }.setFrame c
          { s.running c with pc := .putch call rest }).running c).pc = .putch call rest := by
        simp [State.setFrame]
      obtain ⟨s', hs', hzero⟩ := ih hpc'
      refine ⟨s', ?_, hzero⟩
      rw [List.length_cons, List.replicate_succ, System.follow, hs, Option.bind_some]
      exact hs'

/-- In any run the lock is taken just when a CPU is between the two exchanges, and there is
only one. The interrupts of that CPU are off, so it keeps running that task; and it needs
nobody else to come to the exchange that gives the lock back, whatever string it prints. -/
theorem lock_held (hn : 0 < k.tasks) (h : (machine k).Reachable s) :
    (∀ c d, (s.running c).pc.critical = true → (s.running d).pc.critical = true → c = d) ∧
    (s.lock ≠ 0 ↔ ∃ c, (s.running c).pc.critical = true) ∧
    ∀ c, (s.running c).pc.critical = true →
      (∀ fuel, step k s c (.interrupt fuel) = none) ∧
      ∀ chars, ∃ m s', System.follow (fun s a => step k s c a)
        (List.replicate m (.run chars)) s = some s' ∧ s'.lock = 0 := by
  have hI := inv_of_reachable hn h
  refine ⟨?_, ?_, ?_⟩
  · intro c d hc hd
    exact ((hI.console.taken hd).2.1 c).mp hc
  · constructor
    · intro hlock
      rcases hI.console.lock with ⟨hzero, -⟩ | ⟨-, c, honly, -⟩
      · exact absurd hzero hlock
      · exact ⟨c, (honly c).mpr rfl⟩
    · rintro ⟨c, hc⟩
      rw [(hI.console.taken hc).1]
      decide
  · intro c hc
    constructor
    · intro fuel
      have hoff : (s.running c).intr = false :=
        (hI.sched.sound c).intr.trans (Pc.intr_of_critical hc)
      simp [step, hoff]
    · intro chars
      cases hpc : (s.running c).pc with
      | putch call rest => exact ⟨_, released_of_putch chars hpc⟩
      | printf call pa =>
          -- the call of `printf` reads `current`, which is the task of the call
          obtain ⟨howner, -⟩ := (hI.sched.sound c).call call (congrArg Pc.call? hpc)
          rw [hI.sched.current c] at howner
          let line : Line := { call, shown := call.task + 1, cpu := c, pa, chars }
          have hs : step k s c (.run chars) = some ({ s with lines := s.lines ++ [line] }.setFrame c
              { s.running c with pc := .putch call line.text }) := by
            simp only [step, hpc, howner, Option.map_some]
            rfl
          have hpc' : (({ s with lines := s.lines ++ [line] }.setFrame c
              { s.running c with pc := .putch call line.text }).running c).pc =
                .putch call line.text := by
            simp [State.setFrame]
          obtain ⟨s', hs', hzero⟩ := released_of_putch (k := k) chars hpc'
          refine ⟨line.text.length + 1 + 1, s', ?_, hzero⟩
          rw [List.replicate_succ, System.follow, hs, Option.bind_some]
          exact hs'
      | _ =>
          rw [hpc] at hc
          exact absurd hc (by simp [Pc.critical])

theorem lock_held_preempted : ∃ s, (machine fileConfig).Reachable s ∧ s.lock ≠ 0 ∧
    ∃ m s', System.follow (fun s a => step fileConfig s 0 a)
      (List.replicate m (.run [])) s = some s' ∧ s'.lock = 0 := by
  obtain ⟨s, hs, hcrit, -⟩ := preempted_reachable
  obtain ⟨-, hiff, hgo⟩ := lock_held (by decide) hs
  exact ⟨s, hs, hiff.mpr ⟨0, hcrit⟩, (hgo 0 hcrit).2 []⟩

end

end OsLabs.MultiThreads.TrivialSyscalls
