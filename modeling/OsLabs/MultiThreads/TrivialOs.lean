import OsLabs.Rotation
import OsLabs.Transition

/-!
# OsLabs.MultiThreads.TrivialOs

`multi-threads/trivial-os.c`: the scheduler of a small operating system.

As in `thread-os-mp.c` each CPU has a `current` of its own and goes on to the next task
whose index is its own number modulo the number of CPUs. Here the tasks are not linked:
`current` is counted up, and set back to `tasks` behind the last one. Of a task the
scheduler uses only the context.
-/

namespace OsLabs.MultiThreads.TrivialOs

variable {Context : Type}

/-- `Task`; a pointer into `tasks` is an index. -/
structure Task (Context : Type) where
  context : Context

/-- The memory of the scheduler. -/
structure State (Context : Type) where
  /-- `current` of each CPU; `NULL` is `none`. -/
  currents : Nat → Option Nat
  tasks : List (Task Context)

namespace State

/-- `current = &tasks[task]`, on the CPU `cpu`. -/
def setCurrent (s : State Context) (cpu task : Nat) : State Context :=
  { s with currents := Function.update s.currents cpu (some task) }

/-- `tasks[task].context = ctx`. -/
def setContext (s : State Context) (task : Nat) (ctx : Context) : State Context :=
  { s with tasks := s.tasks.modify task fun t => { t with context := ctx } }

end State

/-- The loop of `schedule`: `do if (++current == tasks + LENGTH(tasks)) …; while (…)`. -/
def search (ncpu cpu : Nat) : Nat → State Context → Option (State Context)
  | 0, _ => none
  | fuel + 1, s =>
      match s.currents cpu with
      | none => none
      | some i =>
          let next := if i + 1 = s.tasks.length then 0 else i + 1
          if next % ncpu ≠ cpu then
            search ncpu cpu fuel (s.setCurrent cpu next)
          else
            some (s.setCurrent cpu next)

/-- What `schedule` does before its loop. -/
def saveContext (s : State Context) (cpu : Nat) (ctx : Context) : State Context :=
  match s.currents cpu with
  | none => s.setCurrent cpu 0
  | some task => s.setContext task ctx

/-- `schedule(ctx)` on the CPU `cpu`. -/
def schedule (ncpu fuel : Nat) (s : State Context) (cpu : Nat) (ctx : Context) :
    Option (State Context × Context) :=
  match search ncpu cpu fuel (saveContext s cpu ctx) with
  | none => none
  | some s' =>
      ((s'.currents cpu).bind fun i => s'.tasks[i]?).map fun task => (s', task.context)

/-- The memory that `os_init` leaves to the CPUs, with `n` tasks; `ucontext i` is what
`_ucontext` returned for the `i`-th. -/
def osInit (n : Nat) (ucontext : Nat → Context) : State Context where
  currents _ := none
  tasks := (List.range n).map fun i => { context := ucontext i }

/-! ### The interrupts -/

/-- An interrupt that came to `schedule`, as the history has it. -/
structure Event where
  cpu : Nat
  /-- The task that runs next. -/
  task : Nat
  deriving DecidableEq, Repr

/-- A state of a run: the memory, and the interrupts so far, newest first. -/
structure RunState (Context : Type) where
  mem : State Context
  log : List Event

/-- An interrupt of the CPU `cpu`, which passes `ctx`. -/
inductive Step (ncpu : Nat) (r : RunState Context) : Nat × Context → RunState Context → Prop
  | interrupt {cpu fuel task : Nat} {ctx returned : Context} {mem : State Context} :
      cpu < ncpu → schedule ncpu fuel r.mem cpu ctx = some (mem, returned) →
      mem.currents cpu = some task →
      Step ncpu r (cpu, ctx) { mem, log := { cpu, task } :: r.log }

/-- The interrupts of `ncpu` CPUs, in any order. -/
def machine (n ncpu : Nat) (ucontext : Nat → Context) :
    System (RunState Context) (Nat × Context) where
  init r := r = { mem := osInit n ucontext, log := [] }
  step := Step ncpu

/-! ### The loop goes round a ring -/

section
variable {n ncpu cpu fuel i : Nat} {s s' : State Context} {ctx returned : Context}

@[simp] theorem setCurrent_setCurrent {i j : Nat} :
    (s.setCurrent cpu i).setCurrent cpu j = s.setCurrent cpu j := by
  simp [State.setCurrent]

@[simp] theorem setCurrent_self {task : Nat} : (s.setCurrent cpu task).currents cpu = some task :=
  Function.update_self ..

theorem search_eq (hcur : s.currents cpu = some i) (hi : i < s.tasks.length) :
    search ncpu cpu fuel s =
      (Rotation.seek s.tasks.length ncpu cpu fuel i).map (s.setCurrent cpu) := by
  induction fuel generalizing s i with
  | zero => rfl
  | succ fuel ih =>
      have hnext : (if i + 1 = s.tasks.length then 0 else i + 1) = (i + 1) % s.tasks.length := by
        split
        · next hend => rw [hend, Nat.mod_self]
        · next hmid => rw [Nat.mod_eq_of_lt (by omega)]
      rw [search, hcur, Rotation.seek]
      simp only [hnext]
      split
      · have hlt : (i + 1) % s.tasks.length < s.tasks.length := Nat.mod_lt _ (by omega)
        rw [ih (s := s.setCurrent cpu ((i + 1) % s.tasks.length)) setCurrent_self hlt]
        congr 1
        funext j
        exact setCurrent_setCurrent
      · rfl

/-- Before the loop, `current` is where it was, and at the first task if it was `NULL`. -/
theorem saveContext_current (s : State Context) (cpu : Nat) (ctx : Context) :
    (saveContext s cpu ctx).currents = Function.update s.currents cpu
      (some ((s.currents cpu).getD 0)) ∧ (saveContext s cpu ctx).tasks.length = s.tasks.length := by
  rw [saveContext]
  cases hc : s.currents cpu with
  | none => exact ⟨rfl, rfl⟩
  | some i =>
      refine ⟨?_, by simp [State.setContext]⟩
      show s.currents = Function.update s.currents cpu (some i)
      rw [← hc, Function.update_eq_self]

/-- The loop of `schedule` from the task of the CPU on. -/
theorem search_saveContext (hlen : s.tasks.length = n) (hi : (s.currents cpu).getD 0 < n) :
    search ncpu cpu fuel (saveContext s cpu ctx) =
      (Rotation.seek n ncpu cpu fuel ((s.currents cpu).getD 0)).map
        ((saveContext s cpu ctx).setCurrent cpu) := by
  obtain ⟨hcur, htasks⟩ := saveContext_current s cpu ctx
  have hcur : (saveContext s cpu ctx).currents cpu = some ((s.currents cpu).getD 0) := by
    rw [hcur, Function.update_self]
  rw [search_eq hcur (by omega), htasks, hlen]

end

/-! ### The invariant -/

/-- The tasks that the CPU `c` resumed, newest first. -/
def resumed (c : Nat) (log : List Event) : List Nat :=
  (log.filter fun e => e.cpu = c).map Event.task

/-- The CPUs go round the tasks. -/
structure Inv (n ncpu : Nat) (r : RunState Context) : Prop where
  length : r.mem.tasks.length = n
  turns : Rotation.Turns n ncpu r.mem.currents fun c => resumed c r.log

section
variable {n ncpu cpu fuel : Nat} {r r' : RunState Context} {l : Nat × Context} {ctx : Context}

theorem resumed_cons {e : Event} {log : List Event} :
    (fun c => resumed c (e :: log)) =
      Function.update (fun c => resumed c log) e.cpu (e.task :: resumed e.cpu log) := by
  funext c
  by_cases hc : c = e.cpu
  · subst hc
    simp [resumed]
  · have hne : e.cpu ≠ c := fun heq => hc heq.symm
    simp [resumed, hc, hne]

theorem Inv.start (h : Inv n ncpu r) (hn : 0 < n) : (r.mem.currents cpu).getD 0 < n :=
  h.turns.getD_lt hn

theorem Inv.search (h : Inv n ncpu r) (hn : 0 < n) :
    search ncpu cpu fuel (saveContext r.mem cpu ctx) =
      (Rotation.seek n ncpu cpu fuel ((r.mem.currents cpu).getD 0)).map
        ((saveContext r.mem cpu ctx).setCurrent cpu) :=
  search_saveContext h.length (h.start hn)

theorem inv_init (n ncpu : Nat) (ucontext : Nat → Context) :
    Inv n ncpu { mem := osInit n ucontext, log := [] } where
  length := by simp [osInit]
  turns := Rotation.turns_start

theorem inv_of_step (hn : 0 < n) (h : Inv n ncpu r) (hs : Step ncpu r l r') :
    Inv n ncpu r' := by
  cases hs with
  | @interrupt cpu fuel task ctx returned mem hcpu hs hcur =>
      rw [schedule, h.search hn] at hs
      cases hseek : Rotation.seek n ncpu cpu fuel ((r.mem.currents cpu).getD 0) with
      | none => exact absurd (hseek ▸ hs) (by simp)
      | some j =>
          rw [hseek] at hs
          obtain ⟨found, -, hret⟩ := Option.map_eq_some_iff.mp hs
          obtain ⟨rfl, -⟩ := Prod.mk.inj hret
          obtain rfl : j = task := by simpa using hcur
          obtain ⟨hsave, hlen⟩ := saveContext_current r.mem cpu ctx
          constructor
          case length => exact hlen.trans h.length
          case turns =>
            have hturns := h.turns.step hseek
            rw [resumed_cons]
            show Rotation.Turns n ncpu
              (Function.update (saveContext r.mem cpu ctx).currents cpu (some j)) _
            rw [hsave, Function.update_idem]
            exact hturns

theorem inv_of_reachable (hn : 0 < n) {ucontext : Nat → Context}
    (h : (machine n ncpu ucontext).Reachable r) : Inv n ncpu r := by
  have hinv : (machine n ncpu ucontext).Invariant (fun _ _ => True) (Inv n ncpu) :=
    { init := by
        intro r hr
        subst hr
        exact inv_init n ncpu ucontext
      step := fun r l r' hI _ hs => inv_of_step hn hI hs }
  exact h.invariant hinv

/-- The loop ends on the CPUs that have a task, and on no other. -/
theorem Inv.ends_iff (h : Inv n ncpu r) (hn : 0 < n) (hcpu : cpu < ncpu) (ctx : Context) :
    (∃ fuel s, TrivialOs.search ncpu cpu fuel (saveContext r.mem cpu ctx) = some s) ↔ cpu < n :=
  Rotation.map_seek_ends_iff hcpu (h.start hn) fun _ => h.search hn

/-- There every interrupt is handled. -/
theorem Inv.handled (h : Inv n ncpu r) (hcpu : cpu < ncpu) (hn : cpu < n) (ctx : Context) :
    ∃ r', Step ncpu r (cpu, ctx) r' := by
  have hpos : 0 < n := by omega
  obtain ⟨fuel, j, hj⟩ := Rotation.seek_total hcpu hn (h.start hpos)
  have hs : TrivialOs.search ncpu cpu fuel (saveContext r.mem cpu ctx) =
      some ((saveContext r.mem cpu ctx).setCurrent cpu j) := by
    rw [h.search hpos, hj, Option.map_some]
  have hlt : j < ((saveContext r.mem cpu ctx).setCurrent cpu j).tasks.length := by
    show j < (saveContext r.mem cpu ctx).tasks.length
    rw [(saveContext_current r.mem cpu ctx).2, h.length]
    exact (Rotation.seek_spec hpos hj).1
  have hsched : schedule ncpu fuel r.mem cpu ctx =
      some ((saveContext r.mem cpu ctx).setCurrent cpu j,
        (((saveContext r.mem cpu ctx).setCurrent cpu j).tasks[j]).context) := by
    rw [schedule, hs]
    simp only [setCurrent_self, Option.bind_some, List.getElem?_eq_getElem hlt, Option.map_some]
  exact ⟨_, .interrupt hcpu hsched setCurrent_self⟩

end

end OsLabs.MultiThreads.TrivialOs
