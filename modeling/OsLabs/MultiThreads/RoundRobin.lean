import OsLabs.MultiThreads.ThreadOs
import OsLabs.MultiThreads.TrivialOs

/-!
# OsLabs.MultiThreads.RoundRobin

The two schedulers, `on_interrupt` of `multi-threads/thread-os-mp.c` and `schedule` of
`multi-threads/trivial-os.c`, as the same walk round a ring.

Neither file asks for as many tasks as CPUs. On a CPU whose number is that of no task the
loop never ends (`search_ends_iff`). Otherwise each CPU goes round its own tasks, and the
linked ring and the counted index make no difference (`round_robin`).
-/

namespace OsLabs.MultiThreads

variable {Context : Type}

namespace ThreadOs

section
variable {n ncpu cpu fuel i : Nat} {s : State Context} {ctx : Context}

theorem search_eq (h : Ring n s) (hcur : s.cpuLocal cpu = some i) (hi : i < n) :
    search ncpu cpu fuel s = (Rotation.seek n ncpu cpu fuel i).map (s.setCurrent cpu) := by
  induction fuel generalizing s i with
  | zero => rfl
  | succ fuel ih =>
      obtain ⟨task, htask, hnext⟩ := deref_eq h hcur hi
      rw [search, htask, Rotation.seek]
      simp only [hnext]
      split
      · have hlt : (i + 1) % n < n := Nat.mod_lt _ (by omega)
        rw [ih (h.setCurrent cpu _) State.setCurrent_self hlt]
        congr 1
        funext j
        exact setCurrent_setCurrent
      · rfl

/-- Before the loop, `current` is where it was, and at the first task if it was `NULL`. -/
theorem saveContext_current (s : State Context) (cpu : Nat) (ctx : Context) :
    (saveContext s cpu ctx).cpuLocal =
      Function.update s.cpuLocal cpu (some ((s.cpuLocal cpu).getD 0)) := by
  rw [saveContext]
  cases hc : s.cpuLocal cpu with
  | none => rfl
  | some i =>
      show s.cpuLocal = Function.update s.cpuLocal cpu (some i)
      rw [← hc, Function.update_eq_self]

/-- The loop of `on_interrupt` from the task of the CPU on. -/
theorem search_saveContext (h : Ring n s) (hi : (s.cpuLocal cpu).getD 0 < n) :
    search ncpu cpu fuel (saveContext s cpu ctx) =
      (Rotation.seek n ncpu cpu fuel ((s.cpuLocal cpu).getD 0)).map
        ((saveContext s cpu ctx).setCurrent cpu) := by
  have hcur : (saveContext s cpu ctx).cpuLocal cpu = some ((s.cpuLocal cpu).getD 0) := by
    rw [saveContext_current, Function.update_self]
  exact search_eq (h.saveContext cpu ctx) hcur hi

end

/-- The tasks that the CPU `c` resumed, newest first. -/
def resumedOn (c : Nat) (log : List (Event Context)) : List Nat :=
  (log.filter fun e => e.cpu = c).map Event.task

/-- The CPUs go round the tasks. -/
structure Round (n ncpu : Nat) (r : RunState Context) : Prop where
  ring : Ring n r.mem
  turns : Rotation.Turns n ncpu r.mem.cpuLocal fun c => resumedOn c r.log

section
variable {n ncpu cpu fuel : Nat} {r r' : RunState Context} {l : Nat × Context} {ctx : Context}

theorem resumedOn_cons {e : Event Context} {log : List (Event Context)} :
    (fun c => resumedOn c (e :: log)) =
      Function.update (fun c => resumedOn c log) e.cpu (e.task :: resumedOn e.cpu log) := by
  funext c
  by_cases hc : c = e.cpu
  · subst hc
    simp [resumedOn]
  · have hne : e.cpu ≠ c := fun heq => hc heq.symm
    simp [resumedOn, hc, hne]

theorem Round.start (h : Round n ncpu r) (hn : 0 < n) : (r.mem.cpuLocal cpu).getD 0 < n :=
  h.turns.getD_lt hn

theorem Round.search (h : Round n ncpu r) (hn : 0 < n) :
    search ncpu cpu fuel (saveContext r.mem cpu ctx) =
      (Rotation.seek n ncpu cpu fuel ((r.mem.cpuLocal cpu).getD 0)).map
        ((saveContext r.mem cpu ctx).setCurrent cpu) :=
  search_saveContext h.ring (h.start hn)

theorem round_of_step (hn : 0 < n) (h : Round n ncpu r) (hs : Step ncpu r l r') :
    Round n ncpu r' := by
  cases hs with
  | @interrupt cpu fuel task ctx returned mem hcpu hs hcur =>
      rw [onInterrupt, h.search hn] at hs
      cases hseek : Rotation.seek n ncpu cpu fuel ((r.mem.cpuLocal cpu).getD 0) with
      | none => exact absurd (hseek ▸ hs) (by simp)
      | some j =>
          rw [hseek] at hs
          obtain ⟨found, -, hret⟩ := Option.map_eq_some_iff.mp hs
          obtain ⟨rfl, -⟩ := Prod.mk.inj hret
          obtain rfl : j = task := by simpa using hcur
          constructor
          case ring => exact (h.ring.saveContext cpu ctx).setCurrent cpu j
          case turns =>
            have hturns := h.turns.step hseek
            rw [resumedOn_cons]
            show Rotation.Turns n ncpu
              (Function.update (saveContext r.mem cpu ctx).cpuLocal cpu (some j)) _
            rw [saveContext_current, Function.update_idem]
            exact hturns

theorem round_of_reachable (hn : 0 < n) {kcontext : Nat → Context}
    (h : (machine n ncpu kcontext).Reachable r) : Round n ncpu r := by
  have hinv : (machine n ncpu kcontext).Invariant (fun _ _ => True) (Round n ncpu) :=
    { init := by
        intro r hr
        subst hr
        exact ⟨(inv_main n ncpu kcontext).ring, Rotation.turns_start⟩
      step := fun r l r' hI _ hs => round_of_step hn hI hs }
  exact h.invariant hinv

/-- The loop ends on the CPUs that have a task, and on no other. -/
theorem Round.ends_iff (h : Round n ncpu r) (hn : 0 < n) (hcpu : cpu < ncpu)
    (ctx : Context) :
    (∃ fuel s, ThreadOs.search ncpu cpu fuel (saveContext r.mem cpu ctx) = some s) ↔ cpu < n :=
  Rotation.map_seek_ends_iff hcpu (h.start hn) fun _ => h.search hn

/-- There every interrupt is handled. -/
theorem Round.handled (h : Round n ncpu r) (hcpu : cpu < ncpu) (hn : cpu < n) (ctx : Context) :
    ∃ r', Step ncpu r (cpu, ctx) r' := by
  have hpos : 0 < n := by omega
  obtain ⟨fuel, j, hj⟩ := Rotation.seek_total hcpu hn (h.start hpos)
  have hs : ThreadOs.search ncpu cpu fuel (saveContext r.mem cpu ctx) =
      some ((saveContext r.mem cpu ctx).setCurrent cpu j) := by
    rw [h.search hpos, hj, Option.map_some]
  have hring := (h.ring.saveContext cpu ctx).setCurrent cpu j
  obtain ⟨task, htask, -⟩ :=
    deref_eq hring State.setCurrent_self (Rotation.seek_spec hpos hj).1
  have hret : onInterrupt ncpu fuel r.mem cpu ctx =
      some ((saveContext r.mem cpu ctx).setCurrent cpu j, task.context) := by
    rw [onInterrupt, hs]
    simp only [htask, Option.map_some]
  exact ⟨_, .interrupt hcpu hret State.setCurrent_self⟩

end

end ThreadOs

namespace RoundRobin

variable {Context' : Type} {n ncpu cpu : Nat} (kcontext : Nat → Context)
  (ucontext : Nat → Context')

/-! ### Do the loops end? -/

/-- From every value of `current` that occurs on a CPU, the loop of either scheduler ends
just when the CPU has a task: when there are more tasks than its number. -/
theorem search_ends_iff (hn : 0 < n) (hcpu : cpu < ncpu) :
    (∀ r, (ThreadOs.machine n ncpu kcontext).Reachable r → ∀ ctx,
      ((∃ fuel s, ThreadOs.search ncpu cpu fuel (ThreadOs.saveContext r.mem cpu ctx) = some s) ↔
        cpu < n)) ∧
    ∀ r, (TrivialOs.machine n ncpu ucontext).Reachable r → ∀ ctx,
      ((∃ fuel s, TrivialOs.search ncpu cpu fuel (TrivialOs.saveContext r.mem cpu ctx) = some s) ↔
        cpu < n) := by
  refine ⟨?_, ?_⟩
  · intro r hr ctx
    exact (ThreadOs.round_of_reachable hn hr).ends_iff hn hcpu ctx
  · intro r hr ctx
    exact (TrivialOs.inv_of_reachable hn hr).ends_iff hn hcpu ctx

/-- Five tasks and eight CPUs, in the states before the first interrupt: the CPU 4 comes to
its task, and the CPU 5 goes round for ever. -/
theorem search_ends_iff_file :
    (∃ fuel s, ThreadOs.search 8 4 fuel (ThreadOs.saveContext (ThreadOs.main 5 id) 4 100) =
      some s) ∧
    ¬ ∃ fuel s, TrivialOs.search 8 5 fuel (TrivialOs.saveContext (TrivialOs.osInit 5 id) 5 100) =
      some s := by
  have hthread := search_ends_iff (n := 5) id id (by decide) (by decide : 4 < 8)
  have htrivial := search_ends_iff (n := 5) id id (by decide) (by decide : 5 < 8)
  refine ⟨?_, ?_⟩
  · exact (hthread.1 _ (.init rfl) 100).mpr (by decide)
  · intro h
    exact absurd ((htrivial.2 _ (.init rfl) 100).mp h) (by decide)

/-- The files admit eight CPUs for their five tasks, and there neither loop always ends. -/
theorem not_search_ends :
    ¬ (∀ cpu < 8, ∀ r, (ThreadOs.machine 5 8 id).Reachable r → ∀ ctx,
        ∃ fuel s, ThreadOs.search 8 cpu fuel (ThreadOs.saveContext r.mem cpu ctx) = some s) ∧
      ¬ ∀ cpu < 8, ∀ r, (TrivialOs.machine 5 8 id).Reachable r → ∀ ctx,
        ∃ fuel s, TrivialOs.search 8 cpu fuel (TrivialOs.saveContext r.mem cpu ctx) = some s := by
  refine ⟨?_, ?_⟩
  · intro h
    have hr : (ThreadOs.machine 5 8 id).Reachable _ := .init rfl
    have hI := ThreadOs.round_of_reachable (by decide) hr
    have := (hI.ends_iff (by decide) (by decide : 5 < 8) 100).mp
      (h 5 (by decide) _ hr 100)
    exact absurd this (by decide)
  · intro h
    have hr : (TrivialOs.machine 5 8 id).Reachable _ := .init rfl
    have hI := TrivialOs.inv_of_reachable (by decide) hr
    have := (hI.ends_iff (by decide) (by decide : 5 < 8) 100).mp
      (h 5 (by decide) _ hr 100)
    exact absurd this (by decide)

/-! ### Which tasks are resumed -/

/-- The tasks of a list, newest first, as the searches found them. -/
theorem reverse_eq_turns (hn : ncpu ≤ n) (hcpu : cpu < ncpu) {l : List Nat}
    (h : Justified (Rotation.Found n ncpu cpu) l) :
    l.reverse = (List.range l.length).map (Rotation.turn n ncpu cpu) := by
  have := congrArg List.reverse (Rotation.turns_of_justified hcpu (by omega) h)
  rwa [List.reverse_reverse] at this

theorem window_perm (hn : ncpu ≤ n) (hcpu : cpu < ncpu) {l w : List Nat}
    (h : Justified (Rotation.Found n ncpu cpu) l) (hw : w <:+: l.reverse)
    (hlen : w.length = (Rotation.places n ncpu cpu).length) :
    w.Perm (Rotation.places n ncpu cpu) := by
  rw [reverse_eq_turns hn hcpu h] at hw
  exact Rotation.window_perm hcpu (by omega) hw hlen

/-- With no more CPUs than tasks, whatever the order of the interrupts on all CPUs: in both
systems every interrupt is handled, any so many interrupts in a row on one CPU as it has
tasks resume each of them once, and after as many interrupts on it the CPU has resumed the
same tasks in the same order in one system as in the other. -/
theorem round_robin (hn : ncpu ≤ n) (hcpu : cpu < ncpu) :
    (∀ r, (ThreadOs.machine n ncpu kcontext).Reachable r →
      (∀ ctx, ∃ r', (ThreadOs.machine n ncpu kcontext).step r (cpu, ctx) r') ∧
      ∀ w, w <:+: (ThreadOs.resumedOn cpu r.log).reverse →
        w.length = (Rotation.places n ncpu cpu).length → w.Perm (Rotation.places n ncpu cpu)) ∧
    (∀ r, (TrivialOs.machine n ncpu ucontext).Reachable r →
      (∀ ctx, ∃ r', (TrivialOs.machine n ncpu ucontext).step r (cpu, ctx) r') ∧
      ∀ w, w <:+: (TrivialOs.resumed cpu r.log).reverse →
        w.length = (Rotation.places n ncpu cpu).length → w.Perm (Rotation.places n ncpu cpu)) ∧
    ∀ r r', (ThreadOs.machine n ncpu kcontext).Reachable r →
      (TrivialOs.machine n ncpu ucontext).Reachable r' →
      (ThreadOs.resumedOn cpu r.log).length = (TrivialOs.resumed cpu r'.log).length →
      (ThreadOs.resumedOn cpu r.log).reverse = (TrivialOs.resumed cpu r'.log).reverse := by
  have hpos : 0 < n := by omega
  have hlt : cpu < n := by omega
  refine ⟨?_, ?_, ?_⟩
  · intro r hr
    have hI := ThreadOs.round_of_reachable hpos hr
    exact ⟨hI.handled hcpu hlt, fun w => window_perm hn hcpu (hI.turns cpu).2⟩
  · intro r hr
    have hI := TrivialOs.inv_of_reachable hpos hr
    exact ⟨hI.handled hcpu hlt, fun w => window_perm hn hcpu (hI.turns cpu).2⟩
  · intro r r' hr hr' hlen
    rw [reverse_eq_turns hn hcpu ((ThreadOs.round_of_reachable hpos hr).turns cpu).2,
      reverse_eq_turns hn hcpu ((TrivialOs.inv_of_reachable hpos hr').turns cpu).2, hlen]

/-- The file's five tasks on two CPUs: three interrupts on the first resume `C`, `E` and `A`. -/
theorem round_robin_file : ∃ r, (ThreadOs.machine 5 2 id).Reachable r ∧
    (ThreadOs.resumedOn 0 r.log).reverse = [2, 4, 0] ∧
    (ThreadOs.resumedOn 0 r.log).reverse.Perm (Rotation.places 5 2 0) := by
  have h0 : (ThreadOs.machine 5 2 id).Reachable _ := .init rfl
  have h1 := h0.step (l := (0, 100))
    (.interrupt (by decide) (rfl : ThreadOs.onInterrupt 2 5 _ 0 100 = _) rfl)
  have h2 := h1.step (l := (0, 200))
    (.interrupt (by decide) (rfl : ThreadOs.onInterrupt 2 5 _ 0 200 = _) rfl)
  have h3 := h2.step (l := (0, 300))
    (.interrupt (by decide) (rfl : ThreadOs.onInterrupt 2 5 _ 0 300 = _) rfl)
  have hrobin := round_robin id id (by decide : 2 ≤ 5) (by decide : 0 < 2)
  exact ⟨_, h3, rfl, (hrobin.1 _ h3).2 _ (List.infix_refl _) rfl⟩

end RoundRobin

end OsLabs.MultiThreads
