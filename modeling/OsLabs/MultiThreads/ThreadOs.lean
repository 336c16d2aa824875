import Mathlib.Logic.Function.Basic
import OsLabs.History
import OsLabs.Transition

/-!
# OsLabs.MultiThreads.ThreadOs

`multi-threads/thread-os-mp.c`: the interrupt handler of a small multiprocessor
system, which switches each CPU among the tasks of a ring.

The tasks are shared by all CPUs and each CPU has a `current` of its own. A CPU goes
on along the ring until it is at a task whose index is its own number modulo the
number of CPUs, so the tasks of two CPUs are different ones (`Inv.owner`) and the
context of a task is written only by the CPU that runs it. A context is whatever the
interrupted CPU pushed; the handler hands it on unread, so it is a parameter here.

What was handed to whom is read off a history of the interrupts: the context field of
a task is always the one that its last preemption stored (`Inv.context`), and a task
is handed out as many times as it is preempted, once more while it runs
(`Inv.turns`).
-/

namespace OsLabs.MultiThreads.ThreadOs

variable {Context : Type}

/-- `Task`; a pointer into `tasks` is an index. -/
structure Task (Context : Type) where
  next : Nat
  context : Context

/-- The memory of the system. -/
structure State (Context : Type) where
  /-- `current` of each CPU; `NULL` is `none`. -/
  cpuLocal : Nat → Option Nat
  tasks : List (Task Context)

namespace State

/-- `current = task`, on the CPU `cpu`. -/
def setCurrent (s : State Context) (cpu task : Nat) : State Context :=
  { s with cpuLocal := Function.update s.cpuLocal cpu (some task) }

@[simp] theorem setCurrent_self {s : State Context} {cpu task : Nat} :
    (s.setCurrent cpu task).cpuLocal cpu = some task :=
  Function.update_self ..

theorem setCurrent_ne {s : State Context} {cpu cpu' task : Nat} (h : cpu' ≠ cpu) :
    (s.setCurrent cpu task).cpuLocal cpu' = s.cpuLocal cpu' :=
  Function.update_of_ne h ..

/-- `tasks[task].context = ctx`. -/
def setContext (s : State Context) (task : Nat) (ctx : Context) : State Context :=
  { s with tasks := s.tasks.modify task fun t => { t with context := ctx } }

/-- `*current`, on the CPU `cpu`. -/
def deref (s : State Context) (cpu : Nat) : Option (Task Context) :=
  (s.cpuLocal cpu).bind fun i => s.tasks[i]?

end State

/-- The loop of `on_interrupt`: `do current = current->next; while (…)`. -/
def search (ncpu cpu : Nat) : Nat → State Context → Option (State Context)
  | 0, _ => none
  | fuel + 1, s =>
      match s.deref cpu with
      | none => none
      | some task =>
          if task.next % ncpu ≠ cpu then
            search ncpu cpu fuel (s.setCurrent cpu task.next)
          else
            some (s.setCurrent cpu task.next)

/-- What `on_interrupt` does before its loop. -/
def saveContext (s : State Context) (cpu : Nat) (ctx : Context) : State Context :=
  match s.cpuLocal cpu with
  | none => s.setCurrent cpu 0
  | some task => s.setContext task ctx

/-- `on_interrupt(ev, ctx)` on the CPU `cpu`. -/
def onInterrupt (ncpu fuel : Nat) (s : State Context) (cpu : Nat) (ctx : Context) :
    Option (State Context × Context) :=
  match search ncpu cpu fuel (saveContext s cpu ctx) with
  | none => none
  | some s' => (s'.deref cpu).map fun task => (s', task.context)

/-- The memory that `main` leaves to the CPUs, with `n` tasks; `kcontext i` is what
`_kcontext` returned for the `i`-th. -/
def main (n : Nat) (kcontext : Nat → Context) : State Context where
  cpuLocal _ := none
  tasks := (List.range n).map fun i => { next := (i + 1) % n, context := kcontext i }

/-! ### The interrupts -/

/-- An interrupt, as the history has it. -/
structure Event (Context : Type) where
  cpu : Nat
  ctx : Context
  /-- The task that ran, whose context `ctx` is; the first interrupt of a CPU has none. -/
  preempted : Option Nat
  /-- The task that runs next. -/
  task : Nat
  returned : Context

/-- A state of a run: the memory, and the interrupts so far, newest first. -/
structure RunState (Context : Type) where
  mem : State Context
  log : List (Event Context)

/-- An interrupt of the CPU `cpu`, which passes `ctx`. -/
inductive Step (ncpu : Nat) (r : RunState Context) : Nat × Context → RunState Context → Prop
  | interrupt {cpu fuel task : Nat} {ctx returned : Context} {mem : State Context} :
      cpu < ncpu → onInterrupt ncpu fuel r.mem cpu ctx = some (mem, returned) →
      mem.cpuLocal cpu = some task →
      Step ncpu r (cpu, ctx) { mem, log :=
        { cpu, ctx, preempted := r.mem.cpuLocal cpu, task, returned } :: r.log }

/-- The interrupts of `ncpu` CPUs, in any order. -/
def machine (n ncpu : Nat) (kcontext : Nat → Context) :
    System (RunState Context) (Nat × Context) where
  init r := r = { mem := main n kcontext, log := [] }
  step := Step ncpu

/-! ### The loop -/

/-- The tasks are a ring of `n`. -/
structure Ring (n : Nat) (s : State Context) : Prop where
  length : s.tasks.length = n
  next : ∀ i task, s.tasks[i]? = some task → task.next = (i + 1) % n

section
variable {n ncpu cpu fuel i : Nat} {s s' : State Context} {ctx returned : Context}

theorem Ring.setCurrent (h : Ring n s) (cpu task : Nat) : Ring n (s.setCurrent cpu task) :=
  ⟨h.length, h.next⟩

theorem Ring.setContext (h : Ring n s) (task : Nat) (ctx : Context) :
    Ring n (s.setContext task ctx) where
  length := by simp [State.setContext, h.length]
  next := by
    intro i t ht
    rw [State.setContext, List.getElem?_modify] at ht
    obtain ⟨t', ht', rfl⟩ := Option.map_eq_some_iff.mp ht
    have := h.next i t' ht'
    split
    · exact this
    · exact this

theorem Ring.saveContext (h : Ring n s) (cpu : Nat) (ctx : Context) :
    Ring n (saveContext s cpu ctx) := by
  rw [ThreadOs.saveContext]
  split
  · exact h.setCurrent cpu 0
  · exact h.setContext _ ctx

@[simp] theorem setCurrent_setCurrent {i j : Nat} :
    (s.setCurrent cpu i).setCurrent cpu j = s.setCurrent cpu j := by
  simp [State.setCurrent]

theorem deref_eq (h : Ring n s) (hcur : s.cpuLocal cpu = some i) (hi : i < n) :
    ∃ task, s.deref cpu = some task ∧ task.next = (i + 1) % n := by
  have hlt : i < s.tasks.length := h.length ▸ hi
  refine ⟨s.tasks[i], ?_, h.next i _ (List.getElem?_eq_getElem hlt)⟩
  rw [State.deref, hcur, Option.bind_some, List.getElem?_eq_getElem hlt]

/-- How far along the ring of `n` it is from the task `i` to the task `cpu`, at least one. -/
def distance (n i cpu : Nat) : Nat := if i < cpu then cpu - i else cpu + n - i

theorem distance_next (hi : i < n) (hcpu : cpu < n) (hne : (i + 1) % n ≠ cpu) :
    distance n i cpu = distance n ((i + 1) % n) cpu + 1 := by
  rcases Nat.lt_or_ge (i + 1) n with hlt | hge
  · rw [Nat.mod_eq_of_lt hlt] at hne ⊢
    simp only [distance]
    split <;> split <;> omega
  · obtain rfl : n = i + 1 := by omega
    rw [Nat.mod_self] at hne ⊢
    simp only [distance]
    split <;> split <;> omega

/-- The loop ends before it is round the ring, -/
theorem search_total (h : Ring n s) (hcur : s.cpuLocal cpu = some i) (hi : i < n)
    (hcpu : cpu < ncpu) (hn : ncpu ≤ n) (hfuel : distance n i cpu ≤ fuel) :
    ∃ s', search ncpu cpu fuel s = some s' := by
  induction fuel generalizing s i with
  | zero =>
      simp only [distance] at hfuel
      split at hfuel <;> omega
  | succ fuel ih =>
      obtain ⟨task, htask, hnext⟩ := deref_eq h hcur hi
      rw [search, htask]
      simp only
      split
      · next hne =>
        have hne' : (i + 1) % n ≠ cpu := by
          intro heq
          rw [hnext, heq, Nat.mod_eq_of_lt hcpu] at hne
          exact hne rfl
        have := distance_next hi (by omega) hne'
        refine ih (i := (i + 1) % n) (h.setCurrent cpu _) ?_ (Nat.mod_lt _ (by omega)) (by omega)
        rw [State.setCurrent_self, hnext]
      · exact ⟨_, rfl⟩

/-- at a task of this CPU. -/
theorem search_spec (h : Ring n s) (hn : 0 < n) (hs : search ncpu cpu fuel s = some s') :
    ∃ task, s' = s.setCurrent cpu task ∧ task < n ∧ task % ncpu = cpu := by
  induction fuel generalizing s with
  | zero => exact absurd hs (by simp [search])
  | succ fuel ih =>
      rw [search] at hs
      split at hs
      · exact absurd hs (by simp)
      · next task htask =>
        split at hs
        · obtain ⟨j, hj, hjn, hjcpu⟩ := ih (h.setCurrent cpu _) hs
          exact ⟨j, by rw [hj, setCurrent_setCurrent], hjn, hjcpu⟩
        · next heq =>
          obtain rfl := Option.some.inj hs
          obtain ⟨i, -, hi⟩ := Option.bind_eq_some_iff.mp htask
          refine ⟨task.next, rfl, ?_, Decidable.not_not.mp heq⟩
          rw [h.next i task hi]
          exact Nat.mod_lt _ hn

/-- `on_interrupt` returns, -/
theorem onInterrupt_total (h : Ring n s) (hcur : ∀ i, s.cpuLocal cpu = some i → i < n)
    (hcpu : cpu < ncpu) (hn : ncpu ≤ n) (ctx : Context) :
    ∃ fuel s' returned, onInterrupt ncpu fuel s cpu ctx = some (s', returned) := by
  have hring := h.saveContext cpu ctx
  obtain ⟨i, hi, hin⟩ : ∃ i, (saveContext s cpu ctx).cpuLocal cpu = some i ∧ i < n := by
    rw [saveContext]
    cases hc : s.cpuLocal cpu with
    | none => exact ⟨0, State.setCurrent_self, by omega⟩
    | some i => exact ⟨i, hc, hcur i hc⟩
  obtain ⟨s', hs⟩ := search_total hring hi hin hcpu hn (Nat.le_refl _)
  obtain ⟨j, rfl, hj, -⟩ := search_spec hring (by omega) hs
  obtain ⟨task, htask, -⟩ := deref_eq (hring.setCurrent cpu j) State.setCurrent_self hj
  refine ⟨distance n i cpu, (saveContext s cpu ctx).setCurrent cpu j, task.context, ?_⟩
  rw [onInterrupt, hs]
  simp only [htask, Option.map_some]

/-- and this is what it did. -/
theorem onInterrupt_spec (h : Ring n s) (hn : 0 < n)
    (hs : onInterrupt ncpu fuel s cpu ctx = some (s', returned)) :
    ∃ task, s' = (saveContext s cpu ctx).setCurrent cpu task ∧ task < n ∧ task % ncpu = cpu ∧
      s'.tasks[task]?.map Task.context = some returned := by
  rw [onInterrupt] at hs
  split at hs
  · exact absurd hs (by simp)
  · next t ht =>
    obtain ⟨task, rfl, htn, htcpu⟩ := search_spec (h.saveContext cpu ctx) hn ht
    obtain ⟨found, hfound, hret⟩ := Option.map_eq_some_iff.mp hs
    obtain ⟨rfl, rfl⟩ := Prod.mk.inj hret
    rw [State.deref, State.setCurrent_self, Option.bind_some] at hfound
    exact ⟨task, rfl, htn, htcpu, by rw [hfound, Option.map_some]⟩

theorem saveContext_cpuLocal_ne {cpu' : Nat} (hne : cpu' ≠ cpu) :
    (saveContext s cpu ctx).cpuLocal cpu' = s.cpuLocal cpu' := by
  rw [saveContext]
  split
  · exact State.setCurrent_ne hne
  · rfl

/-- Only the context of the task that ran is stored. -/
theorem saveContext_context (i : Nat) :
    (saveContext s cpu ctx).tasks[i]?.map Task.context =
      if s.cpuLocal cpu = some i then s.tasks[i]?.map fun _ => ctx
      else s.tasks[i]?.map Task.context := by
  rw [saveContext]
  cases hc : s.cpuLocal cpu with
  | none => simp [State.setCurrent]
  | some j =>
      by_cases hji : j = i
      · subst hji
        simp [State.setContext, Function.comp_def]
      · simp [State.setContext, hji]

end

/-! ### The invariant -/

/-- The context with which the task `i` has to go on after the interrupts of `log`. -/
def due (kcontext : Nat → Context) (i : Nat) (log : List (Event Context)) : Context :=
  match log.find? fun e => e.preempted = some i with
  | none => kcontext i
  | some e => e.ctx

/-- `ctx` is what the last interrupt of `log` that preempted the task `i` passed. -/
def LastPreempted (i : Nat) (ctx : Context) (log : List (Event Context)) : Prop :=
  ∃ newer e older, log = newer ++ e :: older ∧ e.preempted = some i ∧ e.ctx = ctx ∧
    ∀ d ∈ newer, d.preempted ≠ some i

/-- The interrupt handed out the right context: that of `_kcontext` to a task that never
ran, and to any other what its last preemption stored. -/
def Rightful (kcontext : Nat → Context) (e : Event Context) (older : List (Event Context)) :
    Prop :=
  ((∀ d ∈ older, d.task ≠ e.task) → e.returned = kcontext e.task) ∧
    ((∃ d ∈ older, d.task = e.task) → LastPreempted e.task e.returned (e :: older))

/-- How often the task `i` was handed out, -/
def resumed (i : Nat) (log : List (Event Context)) : Nat := log.countP fun e => e.task = i

/-- and how often it was preempted. -/
def preempted (i : Nat) (log : List (Event Context)) : Nat :=
  log.countP fun e => e.preempted = some i

/-- The invariant of a run with `n` tasks and `ncpu` CPUs. -/
structure Inv (n ncpu : Nat) (kcontext : Nat → Context) (r : RunState Context) : Prop where
  ring : Ring n r.mem
  owner : ∀ cpu i, r.mem.cpuLocal cpu = some i → i < n ∧ i % ncpu = cpu
  seen : ∀ e ∈ r.log, r.mem.cpuLocal e.cpu ≠ none
  /-- The context field of a task is what it has to go on with, also while it runs. -/
  context : ∀ i, i < n → r.mem.tasks[i]?.map Task.context = some (due kcontext i r.log)
  turns : ∀ i, resumed i r.log =
    preempted i r.log + if r.mem.cpuLocal (i % ncpu) = some i then 1 else 0
  rightful : Justified (Rightful kcontext) r.log

section
variable {n ncpu : Nat} {kcontext : Nat → Context} {r r' : RunState Context}
  {l : Nat × Context} {log : List (Event Context)} {e : Event Context} {i : Nat}

theorem due_cons : due kcontext i (e :: log) =
    if e.preempted = some i then e.ctx else due kcontext i log := by
  by_cases h : e.preempted = some i <;> simp [due, h]

/-- A task that was never preempted has the context of `_kcontext`, -/
theorem due_of_preempted_eq_zero (h : preempted i log = 0) : due kcontext i log = kcontext i := by
  have hnone : (log.find? fun e => e.preempted = some i) = none := by
    simpa [preempted, List.countP_eq_zero] using h
  rw [due, hnone]

/-- any other that of its last preemption. -/
theorem lastPreempted_due (h : 0 < preempted i log) :
    LastPreempted i (due kcontext i log) log := by
  induction log with
  | nil => exact absurd h (by simp [preempted])
  | cons e log ih =>
      rw [due_cons]
      by_cases he : e.preempted = some i
      · rw [if_pos he]
        exact ⟨[], e, log, rfl, he, rfl, by simp⟩
      · rw [if_neg he]
        obtain ⟨newer, d, older, rfl, hd, hctx, hnewer⟩ :=
          ih (by simpa [preempted, he] using h)
        exact ⟨e :: newer, d, older, rfl, hd, hctx, List.forall_mem_cons.mpr ⟨he, hnewer⟩⟩

/-- The context that is due is the right one, where the task was handed out as many times
as it was preempted, the interrupt itself included. -/
theorem rightful_of_due (hdue : e.returned = due kcontext e.task (e :: log))
    (hturns : resumed e.task log =
      preempted e.task log + if e.preempted = some e.task then 1 else 0) :
    Rightful kcontext e log := by
  have hpreempted : preempted e.task (e :: log) = resumed e.task log := by
    simp only [hturns, preempted, List.countP_cons, decide_eq_true_eq]
  rw [Rightful, hdue]
  refine ⟨?_, ?_⟩
  · intro hnever
    refine due_of_preempted_eq_zero ?_
    simpa [hpreempted, resumed, List.countP_eq_zero] using hnever
  · intro hran
    refine lastPreempted_due ?_
    simpa [hpreempted, resumed, List.countP_pos_iff] using hran

theorem inv_main (n ncpu : Nat) (kcontext : Nat → Context) :
    Inv n ncpu kcontext { mem := main n kcontext, log := [] } where
  ring :=
    { length := by simp [main]
      next := by
        intro i task htask
        rw [main, List.getElem?_map] at htask
        obtain ⟨k, hk, rfl⟩ := Option.map_eq_some_iff.mp htask
        obtain ⟨_, rfl⟩ := List.getElem?_eq_some_iff.mp hk
        rw [List.getElem_range] }
  owner := by simp [main]
  seen := by simp
  context := by
    intro i hi
    simp [main, due, hi]
  turns := by simp [main, resumed, preempted]
  rightful := justified_nil

theorem inv_of_step (hn : ncpu ≤ n) (h : Inv n ncpu kcontext r)
    (hs : Step ncpu r l r') : Inv n ncpu kcontext r' := by
  cases hs with
  | @interrupt cpu fuel task ctx returned mem hcpu hs hcur =>
      obtain ⟨task', rfl, htn, htcpu, hret⟩ := onInterrupt_spec h.ring (by omega) hs
      obtain rfl : task' = task := by simpa using hcur
      have hcontext : ∀ i, i < n →
          ((saveContext r.mem cpu ctx).setCurrent cpu task').tasks[i]?.map Task.context =
            some (due kcontext i
              (⟨cpu, ctx, r.mem.cpuLocal cpu, task', returned⟩ :: r.log)) := by
        intro i hi
        have := h.context i hi
        show (saveContext r.mem cpu ctx).tasks[i]?.map Task.context = _
        rw [saveContext_context, due_cons]
        split
        · obtain ⟨t, ht, -⟩ := Option.map_eq_some_iff.mp this
          rw [ht, Option.map_some]
        · exact this
      constructor
      case ring => exact (h.ring.saveContext cpu ctx).setCurrent cpu task'
      case owner =>
        intro c i hc
        by_cases hcc : c = cpu
        · subst hcc
          obtain rfl : task' = i := by simpa using hc
          exact ⟨htn, htcpu⟩
        · rw [State.setCurrent_ne hcc, saveContext_cpuLocal_ne hcc] at hc
          exact h.owner c i hc
      case seen =>
        intro e he
        by_cases hcc : e.cpu = cpu
        · simp [hcc]
        · rw [State.setCurrent_ne hcc, saveContext_cpuLocal_ne hcc]
          rcases List.mem_cons.mp he with rfl | he
          · exact absurd rfl hcc
          · exact h.seen e he
      case context => exact hcontext
      case turns =>
        intro i
        have hturns := h.turns i
        rw [resumed, preempted] at hturns ⊢
        simp only [List.countP_cons, decide_eq_true_eq]
        by_cases hcc : i % ncpu = cpu
        · rw [hcc, State.setCurrent_self]
          rw [hcc] at hturns
          simp only [Option.some.injEq]
          omega
        · rw [State.setCurrent_ne hcc, saveContext_cpuLocal_ne hcc]
          have htask : task' ≠ i := fun heq => hcc (heq ▸ htcpu)
          have hcur : r.mem.cpuLocal cpu ≠ some i := fun heq => hcc (h.owner cpu i heq).2
          rw [if_neg htask, if_neg hcur]
          omega
      case rightful =>
        refine justified_cons.mpr ⟨rightful_of_due ?_ ?_, h.rightful⟩
        · exact Option.some.inj (hret.symm.trans (hcontext task' htn))
        · have hturns := h.turns task'
          rwa [htcpu] at hturns

end

/-- With no more CPUs than tasks, whatever the order of the interrupts: `on_interrupt`
returns, each CPU that had an interrupt runs a task of its own, and a task goes on with
the context that its last preemption stored. -/
theorem on_interrupt_contexts {n ncpu : Nat} {kcontext : Nat → Context} {r : RunState Context}
    (hn : ncpu ≤ n) (h : (machine n ncpu kcontext).Reachable r) :
    (∀ cpu < ncpu, ∀ ctx, ∃ fuel mem returned,
      onInterrupt ncpu fuel r.mem cpu ctx = some (mem, returned)) ∧
    (∀ e ∈ r.log, ∃ i, r.mem.cpuLocal e.cpu = some i ∧ i < n ∧ i % ncpu = e.cpu) ∧
    (∀ cpu cpu' i, r.mem.cpuLocal cpu = some i → r.mem.cpuLocal cpu' = some i → cpu = cpu') ∧
    Justified (Rightful kcontext) r.log ∧
    ∀ i, resumed i r.log =
      preempted i r.log + if r.mem.cpuLocal (i % ncpu) = some i then 1 else 0 := by
  have hinv : (machine n ncpu kcontext).Invariant (fun _ _ => True) (Inv n ncpu kcontext) :=
    { init := by
        intro r hr
        subst hr
        exact inv_main n ncpu kcontext
      step := fun r l r' hI _ hs => inv_of_step hn hI hs }
  have hI := h.invariant hinv
  refine ⟨?_, ?_, ?_, hI.rightful, hI.turns⟩
  · intro cpu hcpu ctx
    exact onInterrupt_total hI.ring (fun i hi => (hI.owner cpu i hi).1) hcpu hn ctx
  · intro e he
    obtain ⟨i, hi⟩ := Option.ne_none_iff_exists'.mp (hI.seen e he)
    exact ⟨i, hi, hI.owner e.cpu i hi⟩
  · intro cpu cpu' i hc hc'
    rw [← (hI.owner cpu i hc).2, (hI.owner cpu' i hc').2]

/-- The file's five tasks on two CPUs: the first CPU starts with `C`, is interrupted and goes
on to `E`; the second starts with `B`. -/
theorem on_interrupt_contexts_file : ∃ r, (machine 5 2 id).Reachable r ∧
    (r.mem.cpuLocal 0, r.mem.cpuLocal 1) = (some 4, some 1) ∧
    r.log.map Event.returned = [1, 4, 2] ∧ Justified (Rightful id) r.log := by
  have h0 : (machine 5 2 id).Reachable _ := .init rfl
  have h1 := h0.step (l := (0, 100))
    (.interrupt (by decide) (rfl : onInterrupt 2 5 _ 0 100 = _) rfl)
  have h2 := h1.step (l := (0, 200))
    (.interrupt (by decide) (rfl : onInterrupt 2 5 _ 0 200 = _) rfl)
  have h3 := h2.step (l := (1, 300))
    (.interrupt (by decide) (rfl : onInterrupt 2 5 _ 1 300 = _) rfl)
  exact ⟨_, h3, rfl, rfl, (on_interrupt_contexts (by decide) h3).2.2.2.1⟩

end OsLabs.MultiThreads.ThreadOs
