import OsLabs.Libco.Restore

/-!
# OsLabs.Libco.Running

Who is running, according to `current` and to the statuses.

While the code of `co->func` is executed, `current` should point to `co`, and `co`
should be the one coroutine on the list with status CO_RUNNING. The places that
switch write the two separately. The stack switch in `co_yield` writes `current`
only: a coroutine that is started there runs with status CO_NEW until it calls
`co_yield` or `co_wait` itself (`State.Switched`), and that is the only way the law
can fail (`func_is_running`) in runs that do not let `current` go astray: no step
reads it dangling, no coroutine waits for a dead one, and no nested `co_wait` returns
to the coroutine it has freed.
-/

namespace OsLabs.Libco

/-- `co` was started by `co_yield`, on its own stack, and has called neither `co_yield`
nor `co_wait` since. -/
def State.Switched (s : State) (co : Ptr) : Prop :=
  .entered co (.own co) ∈ s.log ∧ (∀ n, .saved co n ∉ s.log) ∧ .parked co ∉ s.log

/-- The law of the running coroutine `co`. -/
structure IsRunning (s : State) (co : Ptr) : Prop where
  current : s.current = some co
  status : (s.heap co).status = .running
  /-- No other coroutine on the list is CO_RUNNING. -/
  only : ∀ d ∈ s.coList, d ≠ co → (s.heap d).status ≠ .running

/-- The step is the return of a nested `co_wait` to the coroutine it waited for. -/
def returnsToFreed (s : State) : Bool :=
  match s.frames with
  | .waitNested co old :: _ => co = old
  | _ => false

/-- A coroutine does not call `co_wait` on a dead one, and no nested `co_wait` returns to
the coroutine it waited for. -/
def KeepsCurrent (s : State) : Prop :=
  (mainRuns s = false → ∀ co ∈ nextWait s, (s.heap co).status ≠ .dead) ∧
    returnsToFreed s = false

instance (s : State) : Decidable (KeepsCurrent s) :=
  inferInstanceAs (Decidable ((_ → ∀ co ∈ nextWait s, _) ∧ _))

/-! ### What the history says about a status -/

/-- A coroutine that was half-run, or has yielded or waited, was entered; a coroutine's
own stack is used from the stack switch on. -/
structure Traces (s : State) : Prop where
  waiting : ∀ co, (s.heap co).status = .waiting → s.Entered co
  saved : ∀ co n, .saved co n ∈ s.log → s.Entered co
  parked : ∀ co, .parked co ∈ s.log → s.Entered co
  own : ∀ co, s.stackOf (.own co) ≠ [] → .entered co (.own co) ∈ s.log
  nested : ∀ σ co old, .waitNested co old ∈ s.stackOf σ → .parked old ∈ s.log

theorem traces_init (p : Program) : Traces (State.init p) where
  waiting := by simp [State.init]
  saved := by simp [State.init]
  parked := by simp [State.init]
  own := by simp [State.init]
  nested σ := by cases σ <;> simp [State.init]

/-- What a step has to show to keep `Traces`. -/
structure Leaves (s s' : State) : Prop where
  log : s.log ⊆ s'.log := by intro e he; simp [he]
  waiting : ∀ co, (s'.heap co).status = .waiting →
    (s.heap co).status = .waiting ∨ s'.Entered co := by simp +contextual
  saved : ∀ co n, .saved co n ∈ s'.log → .saved co n ∈ s.log ∨ s'.Entered co := by
    simp +contextual
  parked : ∀ co, .parked co ∈ s'.log → .parked co ∈ s.log ∨ s'.Entered co := by
    simp +contextual
  own : ∀ co, s'.stackOf (.own co) ≠ [] →
    s.stackOf (.own co) ≠ [] ∨ .entered co (.own co) ∈ s'.log
  nested : ∀ σ co old, .waitNested co old ∈ s'.stackOf σ →
    .waitNested co old ∈ s.stackOf σ ∨ .parked old ∈ s'.log

theorem Traces.leaves {s s' : State} (hT : Traces s) (h : Leaves s s') : Traces s' where
  waiting co hst := by
    rcases h.waiting co hst with hst | he
    · exact Entered.mono (hT.waiting co hst) h.log
    · exact he
  saved co n hm := by
    rcases h.saved co n hm with hm | he
    · exact Entered.mono (hT.saved co n hm) h.log
    · exact he
  parked co hm := by
    rcases h.parked co hm with hm | he
    · exact Entered.mono (hT.parked co hm) h.log
    · exact he
  own co hne := by
    rcases h.own co hne with hne | he
    · exact h.log (hT.own co hne)
    · exact he
  nested σ co old hm := by
    rcases h.nested σ co old hm with hm | hp
    · exact h.log (hT.nested σ co old hm)
    · exact hp

section
variable {p : Program} {s s' t : State}

/-- A step of the running stack uses no other stack. -/
theorem own_of_cpu (hne : s.frames ≠ []) (hrest : ∀ σ, σ ≠ s.cpu → s'.stackOf σ = s.stackOf σ)
    (co : Ptr) (h : s'.stackOf (.own co) ≠ []) :
    s.stackOf (.own co) ≠ [] ∨ .entered co (.own co) ∈ s'.log := by
  left
  by_cases hσ : StackId.own co = s.cpu
  · rw [hσ]
    exact hne
  · rwa [← hrest _ hσ]

/-- A frame of `co_wait` that is there after a step of the running stack was there before. -/
theorem nested_of_cpu {fs : List Frame} (hf : s.frames = fs)
    (htop : ∀ co old, .waitNested co old ∈ s'.stackOf s.cpu → .waitNested co old ∈ fs)
    (hrest : ∀ σ, σ ≠ s.cpu → s'.stackOf σ = s.stackOf σ) (σ : StackId) (co old : Ptr)
    (h : .waitNested co old ∈ s'.stackOf σ) :
    .waitNested co old ∈ s.stackOf σ ∨ .parked old ∈ s'.log := by
  exact .inl (mem_of_stack hf (htop co old) hrest h)

theorem traces_of_move (hI : Inv p s) (hT : Traces s) (hm : Move p s s') : Traces s' := by
  have hb := hI.base
  cases hm with
  | @start t co hcall hn hnames =>
      refine hT.leaves
        { log := by simp [hcall.log]
          waiting := ?_
          saved := by simp +contextual [hcall.log]
          parked := by simp +contextual [hcall.log]
          own := own_of_cpu hcall.frames_ne_nil fun σ hσ => hcall.stacks_of_ne hσ
          nested := fun σ c old h => .inl (hcall.mem_of_awaits rfl h) }
      intro d hst
      by_cases hd : d = co
      · simp [hd] at hst
      · exact .inl (by simpa [hd, hcall.heap] using hst)
  | @waitDead t co hcall hst hdead =>
      exact hT.leaves
        { log := by
            rw [← hcall.log]
            intro e he
            simp [he]
          waiting := by simp +contextual [hcall.heap]
          saved := by simp +contextual [hcall.log]
          parked := by simp +contextual [hcall.log]
          own := own_of_cpu hcall.frames_ne_nil fun σ hσ => hcall.stacks_of_ne hσ
          nested := fun σ c old h => .inl (hcall.mem_of_awaits rfl h) }
  | @yield co rest fs hf hl hcur =>
      have hent : ∃ σ, Event.entered co σ ∈ s.log :=
        ⟨s.cpu, (hb.cpu_traced hf).func List.mem_cons_self⟩
      refine hT.leaves
        { waiting := ?_
          saved := ?_
          own := own_of_cpu (by simp [hf]) (by simp +contextual)
          nested := nested_of_cpu hf (by simp) (by simp +contextual) }
      · intro d hst
        by_cases hd : d = co
        · exact .inr (by simpa [State.Entered, hd] using hent)
        · exact .inl (by simpa [hd] using hst)
      · intro d n hm
        by_cases hd : d = co
        · exact .inr (by simpa [State.Entered, hd] using hent)
        · exact .inl (by simpa [hd] using hm)
  | @waitNew co rest fs hf hst hfr hcur hnew =>
      refine hT.leaves
        { waiting := ?_
          own := own_of_cpu (by simp [hf]) (by simp +contextual)
          nested := nested_of_cpu hf (by simp) (by simp +contextual) }
      intro d
      by_cases hd : d = co <;> simp +contextual [hd]
  | @waitWaiting co rest fs hf hst hfr hcur hwt =>
      have hent : ∃ σ, Event.entered co σ ∈ s.log := hT.waiting co hwt
      refine hT.leaves
        { waiting := ?_
          saved := ?_
          own := own_of_cpu (by simp [hf]) (by simp +contextual)
          nested := nested_of_cpu hf (by simp) (by simp +contextual) }
      · intro d hst'
        by_cases hd : d = co
        · exact .inl (hd ▸ hwt)
        · exact .inl (by simpa [hd] using hst')
      · intro d n hm
        by_cases hd : d = co
        · exact .inr (by simpa [State.Entered, hd] using hent)
        · exact .inl (by simpa [hd] using hm)
  | @waitRunning co rest fs hf hst hcur hrun =>
      exact hT.leaves
        { own := own_of_cpu (by simp [hf]) (by simp +contextual)
          nested := nested_of_cpu hf (by simp) (by simp +contextual) }
  | @waitNested co old rest fs hf hst hfr hl hcur hdead =>
      have hent : ∃ σ, Event.entered old σ ∈ s.log :=
        ⟨s.cpu, (hb.cpu_traced hf).func List.mem_cons_self⟩
      have hent' : ∃ σ, (old = co ∧ σ = s.cpu) ∨ Event.entered old σ ∈ s.log :=
        hent.imp fun _ h => .inr h
      refine hT.leaves
        { waiting := ?_
          parked := ?_
          own := own_of_cpu (by simp [hf]) (by simp +contextual)
          nested := ?_ }
      · intro d hst'
        by_cases hd : d = co
        · simp [hd] at hst'
        · by_cases hd' : d = old
          · exact .inr (by simpa [State.Entered, hd'] using hent')
          · exact .inl (by simpa [hd, hd'] using hst')
      · intro d hm
        by_cases hd : d = old
        · exact .inr (by simpa [State.Entered, hd] using hent')
        · exact .inl (by simpa [hd] using hm)
      · intro σ c o hm
        by_cases hσ : σ = s.cpu
        · subst hσ
          rcases (by simpa using hm : (c = co ∧ o = old) ∨ .waitNested c o ∈ fs) with h | hm
          · exact .inr (by simp [h.2])
          · left
            rw [show s.stackOf s.cpu = _ from hf]
            exact List.mem_cons_of_mem _ hm
        · exact .inl (by simpa [hσ] using hm)
  | @ret co fs hf =>
      exact hT.leaves
        { own := own_of_cpu (by simp [hf]) (by simp +contextual)
          nested := nested_of_cpu hf (by simp) (by simp +contextual) }
  | @waitNewReturn co fs hf hl hcur =>
      refine hT.leaves
        { waiting := ?_
          own := own_of_cpu (by simp [hf]) (by simp +contextual)
          nested := nested_of_cpu hf (by simp) (by simp +contextual) }
      intro d
      by_cases hd : d = co <;> simp +contextual [hd]
  | @waitWaitingReturn co fs hf hl hcur =>
      exact hT.leaves
        { own := own_of_cpu (by simp [hf]) (by simp +contextual)
          nested := nested_of_cpu hf (by simp) (by simp +contextual) }
  | @waitNestedReturn co old fs hf hl hcur =>
      refine hT.leaves
        { waiting := ?_
          own := own_of_cpu (by simp [hf]) (by simp +contextual)
          nested := nested_of_cpu hf (by simp +contextual) (by simp +contextual) }
      intro d
      by_cases hd : d = co
      · simp [hd]
      · by_cases hd' : d = old
        · subst hd'
          simp [hd]
        · simp +contextual [hd, hd']
  | @callback co hf hcpu hl hcur =>
      refine hT.leaves
        { waiting := ?_
          own := own_of_cpu (by simp [hf]) (by simp +contextual)
          nested := nested_of_cpu hf (by simp) (by simp +contextual) }
      intro d
      by_cases hd : d = co <;> simp +contextual [hd]
  | round => exact hT
  | @switch n fs co choice hf hl hcur hmem hnew =>
      refine hT.leaves
        { own := ?_
          nested := ?_ }
      · intro d hne
        by_cases hd : d = choice
        · exact .inr (by simp [hd])
        · exact .inl (by simpa [hd] using hne)
      · intro σ c o hm
        by_cases hσ : σ = .own choice
        · simp [hσ] at hm
        · exact .inl (by simpa [hσ] using hm)
  | @resume choice cur ctx fs htop hl hcur hmem hwt hctx hfs =>
      refine hT.leaves
        { waiting := ?_
          own := ?_
          nested := ?_ }
      · intro d
        by_cases hd : d = choice <;> simp +contextual [hd]
      · intro d hne
        left
        by_cases hσ : StackId.own d = ctx.stack
        · rw [hσ, hfs]
          simp
        · simpa [hσ] using hne
      · intro σ c o hm
        left
        by_cases hσ : σ = ctx.stack
        · rw [hσ, hfs]
          exact List.mem_cons_of_mem _ (by simpa [hσ] using hm)
        · simpa [hσ] using hm

end

/-! ### The law -/

/-- What keeps the law: it holds for the coroutine on top, up to the status of one that
`co_yield` has started; and while `current` is alive, no other coroutine on the list is
CO_RUNNING. -/
structure Lawful (s : State) : Prop where
  func : ∀ co rest fs, s.frames = .func co rest :: fs → s.current = some co ∧
    ((s.heap co).status = .running ∨ (s.heap co).status = .new ∧ s.Switched co) ∧
      ∀ d ∈ s.coList, d ≠ co → (s.heap d).status ≠ .running
  running : s.Live → ∀ d ∈ s.coList, (s.heap d).status = .running → s.current = some d
  switched : ∀ co, s.Switched co → (s.heap co).status = .new ∨ (s.heap co).status = .dead

theorem lawful_init (p : Program) : Lawful (State.init p) where
  func := by simp [State.init, State.frames]
  running := by simp [State.init]
  switched := by simp [State.init]

section
variable {p : Program} {s s' t : State}

/-- No coroutine on the list but the living `current` is CO_RUNNING. -/
theorem Lawful.not_running (hL : Lawful s) (hl : s.Live) {d : Ptr} (hd : d ∈ s.coList)
    (hne : s.current ≠ some d) : (s.heap d).status ≠ .running :=
  fun hr => hne (hL.running hl d hd hr)

/-- A step that starts nothing on an own stack leaves the status of what `co_yield` has
started as it is, or makes it CO_DEAD. -/
theorem Lawful.switched_step (hL : Lawful s) (hlog : s.log ⊆ s'.log)
    (h : ∀ co, s'.Switched co → ((s'.heap co).status = .new ∨ (s'.heap co).status = .dead) ∨
      .entered co (.own co) ∈ s.log ∧ (s'.heap co).status = (s.heap co).status)
    (co : Ptr) (hsw : s'.Switched co) :
    (s'.heap co).status = .new ∨ (s'.heap co).status = .dead := by
  rcases h co hsw with hst | ⟨hent, hst⟩
  · exact hst
  · rw [hst]
    exact hL.switched co
      ⟨hent, fun n hm => hsw.2.1 n (hlog hm), fun hm => hsw.2.2 (hlog hm)⟩

theorem switched_of_move (hI : Inv p s) (hT : Traces s) (hL : Lawful s) (hm : Move p s s') :
    ∀ co, s'.Switched co → (s'.heap co).status = .new ∨ (s'.heap co).status = .dead := by
  have hb := hI.base
  cases hm with
  | @start t co hcall hn hnames =>
      refine hL.switched_step (by simp [hcall.log]) fun d hsw => .inr ?_
      have hent : .entered d (.own d) ∈ s.log := by simpa [hcall.log] using hsw.1
      have hne : d ≠ co := by
        intro heq
        subst heq
        exact hn (by simpa [State.Started, hcall.log] using hb.enteredStarted d ⟨_, hent⟩)
      exact ⟨hent, by simp [hne, hcall.heap]⟩
  | @waitDead t co hcall hst hdead =>
      refine hL.switched_step ?_ fun d hsw => .inr ?_
      · rw [← hcall.log]
        intro e he
        simp [he]
      · exact ⟨by simpa [hcall.log] using hsw.1, by simp [hcall.heap]⟩
  | @yield co rest fs hf hl hcur =>
      refine hL.switched_step (by simp) fun d hsw => .inr ?_
      have hne : d ≠ co := by
        intro heq
        subst heq
        exact hsw.2.1 s.yields (by simp)
      exact ⟨by simpa using hsw.1, by simp [hne]⟩
  | @waitNew co rest fs hf hst hfr hcur hnew =>
      have hc := hI.core (by simp [State.Live, hcur])
      have hfresh : ¬ s.Entered co := by
        intro hent
        have := hc.unentered co hst hnew hent
        simp [hcur] at this
      refine hL.switched_step (by intro e he; simp [he]) fun d hsw => .inr ?_
      have hne : d ≠ co := by
        intro heq
        subst heq
        rcases (by simpa using hsw.1 : StackId.own d = s.cpu ∨ .entered d (.own d) ∈ s.log)
          with hcpu | hent
        · exact hfresh (hc.entered_cpu (by simp [hf]) d hcpu.symm)
        · exact hfresh ⟨_, hent⟩
      exact ⟨by simpa [hne] using hsw.1, by simp [hne]⟩
  | @waitWaiting co rest fs hf hst hfr hcur hwt =>
      refine hL.switched_step (by intro e he; simp [he]) fun d hsw => .inr ?_
      have hne : d ≠ co := by
        intro heq
        subst heq
        exact hsw.2.1 s.yields (by simp)
      exact ⟨by simpa using hsw.1, by simp [hne]⟩
  | @waitNested co old rest fs hf hst hfr hl hcur hdead =>
      have hc := hI.core hl
      refine hL.switched_step (by intro e he; simp [he]) fun d hsw => .inr ?_
      have hold : d ≠ old := by
        intro heq
        subst heq
        exact hsw.2.2 (by simp)
      have hne : d ≠ co := by
        intro heq
        subst heq
        -- only the running coroutine was entered and is still CO_NEW
        have hent : .entered d (.own d) ∈ s.log := by
          rcases (by simpa using hsw.1 : StackId.own d = s.cpu ∨ .entered d (.own d) ∈ s.log)
            with hcpu | hent
          · refine hT.own d ?_
            rw [hcpu, show s.stackOf s.cpu = _ from hf]
            simp
          · exact hent
        have hsw' : s.Switched d :=
          ⟨hent, fun n hm => hsw.2.1 n (by simp [hm]), fun hm => hsw.2.2 (by simp [hm])⟩
        rcases hL.switched d hsw' with hnew | hd
        · have := hc.unentered d hst hnew ⟨_, hent⟩
          exact hold (Option.some.inj (this.symm.trans hcur))
        · exact hdead hd
      exact ⟨by simpa [hne] using hsw.1, by simp [hne, hold]⟩
  | @waitNewReturn co fs hf hl hcur =>
      refine hL.switched_step (by intro e he; simp [he]) fun d hsw => ?_
      by_cases hd : d = co
      · exact .inl (.inr (by simp [hd]))
      · exact .inr ⟨by simpa using hsw.1, by simp [hd]⟩
  | @waitNestedReturn co old fs hf hl hcur =>
      refine hL.switched_step (by intro e he; simp [he]) fun d hsw => ?_
      have hold : d ≠ old := by
        intro heq
        subst heq
        have hm : .waitNested co d ∈ s.stackOf s.cpu := by
          rw [show s.stackOf s.cpu = _ from hf]
          exact List.mem_cons_self
        exact hsw.2.2 (by simp [hT.nested _ _ _ hm])
      by_cases hd : d = co
      · exact .inl (.inr (by simp [hd]))
      · exact .inr ⟨by simpa using hsw.1, by simp [hd, hold]⟩
  | @callback co hf hcpu hl hcur =>
      refine hL.switched_step (by simp) fun d hsw => ?_
      by_cases hd : d = co
      · exact .inl (.inr (by simp [hd]))
      · exact .inr ⟨by simpa using hsw.1, by simp [hd]⟩
  | waitRunning | ret | waitWaitingReturn =>
      exact hL.switched_step (by intro e he; simp [he]) fun d hsw =>
        .inr ⟨by simpa using hsw.1, by simp⟩
  | round => exact hL.switched
  | @switch n fs co choice hf hl hcur hmem hnew =>
      refine hL.switched_step (by simp) fun d hsw => ?_
      by_cases hd : d = choice
      · exact .inl (.inl (by simp [hd, hnew]))
      · exact .inr ⟨by simpa [hd] using hsw.1, by simp⟩
  | @resume choice cur ctx fs htop hl hcur hmem hwt hctx hfs =>
      refine hL.switched_step (by simp) fun d hsw => .inr ?_
      have hent : .entered d (.own d) ∈ s.log := by simpa using hsw.1
      have hne : d ≠ choice := by
        intro heq
        subst heq
        have hsw' : s.Switched d :=
          ⟨hent, fun n hm => hsw.2.1 n (by simp [hm]), fun hm => hsw.2.2 (by simp [hm])⟩
        rcases hL.switched d hsw' with h | h
        · simp [hwt] at h
        · simp [hwt] at h
      exact ⟨hent, by simp [hne]⟩

theorem running_of_move (hI : Inv p s) (hL : Lawful s) (hm : Move p s s') (hl' : s'.Live) :
    ∀ d ∈ s'.coList, (s'.heap d).status = .running → s'.current = some d := by
  have hb := hI.base
  intro d hd hr
  cases hm with
  | @start t co hcall hn hnames =>
      have hl : s.Live := by
        simpa [State.Live, State.Freed, hcall.current, hcall.log] using hl'
      have hne : d ≠ co := by
        intro heq
        simp [heq] at hr
      rw [coStart_current, hcall.current]
      exact hL.running hl d (by simpa [hne, hcall.coList] using hd)
        (by simpa [hne, hcall.heap] using hr)
  | @waitDead t co hcall hst hdead =>
      exact absurd (hl' co (by simp)) (by simp [State.Freed])
  | @yield co rest fs hf hl hcur =>
      by_cases hdc : d = co
      · simp [hdc] at hr
      · exact hL.running hl d hd (by simpa [hdc] using hr)
  | @waitNew co rest fs hf hst hfr hcur hnew =>
      by_cases hdc : d = co
      · simp [hdc]
      · have := hL.running (by simp [State.Live, hcur]) d hd (by simpa [hdc] using hr)
        simp [hcur] at this
  | @waitWaiting co rest fs hf hst hfr hcur hwt =>
      by_cases hdc : d = co
      · simp [hdc]
      · have := hL.running (by simp [State.Live, hcur]) d hd (by simpa [hdc] using hr)
        simp [hcur] at this
  | @waitRunning co rest fs hf hst hcur hrun =>
      exact hL.running (by simp [State.Live, hcur]) d hd hr
  | @waitNested co old rest fs hf hst hfr hl hcur hdead =>
      by_cases hdc : d = co
      · simp [hdc]
      · by_cases hdo : d = old
        · subst hdo
          simp [hdc] at hr
        · have := hL.running hl d hd (by simpa [hdc, hdo] using hr)
          exact absurd (Option.some.inj (hcur.symm.trans this)).symm hdo
  | @ret co fs hf =>
      exact hL.running (by simpa [State.Live, State.Freed] using hl') d hd hr
  | @waitNewReturn co fs hf hl hcur =>
      obtain ⟨hne, hmem⟩ := hb.mem_unlinked (hb.current co hcur) (by simpa using hd)
      have := hL.running hl d hmem (by simpa [hne] using hr)
      exact absurd (Option.some.inj (hcur.symm.trans this)).symm hne
  | @waitWaitingReturn co fs hf hl hcur =>
      obtain ⟨hne, hmem⟩ := hb.mem_unlinked (hb.current co hcur) (by simpa using hd)
      have := hL.running hl d hmem (by simpa using hr)
      exact absurd (Option.some.inj (hcur.symm.trans this)).symm hne
  | @waitNestedReturn co old fs hf hl hcur =>
      obtain ⟨hne, hmem⟩ := hb.mem_unlinked (hb.current co hcur) (by simpa using hd)
      by_cases hdo : d = old
      · simp [hdo]
      · have := hL.running hl d hmem (by simpa [hne, hdo] using hr)
        exact absurd (Option.some.inj (hcur.symm.trans this)).symm hne
  | @callback co hf hcpu hl hcur =>
      obtain ⟨hne, hmem⟩ := hb.mem_unlinked (hb.current co hcur) (by simpa using hd)
      have := hL.running hl d hmem (by simpa [hne] using hr)
      exact absurd (Option.some.inj (hcur.symm.trans this)).symm hne
  | round => exact hL.running hl' d hd hr
  | @switch n fs co choice hf hl hcur hmem hnew =>
      have hrun : s.current = some d := hL.running hl d hd (by simpa using hr)
      have hwt := (hI.core hl).yielding n fs d hf hrun
      exact absurd (hwt.symm.trans (by simpa using hr)) (by simp)
  | @resume choice cur ctx fs htop hl hcur hmem hwt hctx hfs =>
      by_cases hdc : d = choice
      · simp [hdc]
      · have hst : (s.heap d).status = .running := by simpa [hdc] using hr
        have hrun := hL.running hl d hd hst
        rcases htop with ⟨n, fs', hf⟩ | ⟨fs', hf⟩
        · exact absurd (((hI.core hl).yielding n fs' d hf hrun).symm.trans hst) (by simp)
        · exact absurd (((hI.core hl).looping fs' d hf hrun).symm.trans hst) (by simp)

/-- `func` does not return to `func`. -/
theorem not_stackOK_func_func {σ : StackId} {c d : Ptr} {rest rest' : List Call}
    {fs : List Frame} : ¬ StackOK σ (.func c rest :: .func d rest' :: fs) := by
  intro h
  cases h

/-- The code of a `func` that a step lands in obeys the law, up to the status of a
coroutine that `co_yield` has started. -/
theorem func_of_move (hI : Inv p s) (hT : Traces s) (hk : KeepsCurrent s) (hL : Lawful s)
    (hm : Move p s s') {co : Ptr} {rest : List Call} {fs : List Frame}
    (hf' : s'.frames = .func co rest :: fs) :
    s'.current = some co ∧ ((s'.heap co).status = .running ∨
      (s'.heap co).status = .new ∧ s'.Switched co) ∧
      ∀ d ∈ s'.coList, d ≠ co → (s'.heap d).status ≠ .running := by
  have hb := hI.base
  cases hm with
  | @start t c hcall hn hnames =>
      cases hcall with
      | main hf => exact absurd hf' (by simp)
      | @func d rest' fs' hf =>
          obtain ⟨⟨rfl, -⟩, -⟩ : (d = co ∧ _) ∧ _ := by simpa using hf'
          have hne : ∀ e, s.Started e → e ≠ c := fun e he heq => hn (heq ▸ he)
          have hstart : s.Started d :=
            hb.enteredStarted d ⟨s.cpu, (hb.cpu_traced hf).func List.mem_cons_self⟩
          obtain ⟨hcur, hst, honly⟩ := hL.func d _ _ hf
          refine ⟨hcur, ?_, ?_⟩
          · simpa [hne d hstart, State.Switched] using hst
          · intro e he hed
            by_cases hec : e = c
            · simp [hec]
            · simpa [hec] using honly e (by simpa [hec] using he) hed
  | @waitDead t c hcall hst hdead =>
      cases hcall with
      | main hf => exact absurd hf' (by simp)
      | func hf => exact absurd hdead (hk.1 (by rw [mainRuns, hf]) c (nextWait_func hf))
  | @waitNew c rest' fs' hf hst hfr hcur hnew =>
      obtain ⟨⟨rfl, -⟩, -⟩ : (c = co ∧ _) ∧ _ := by simpa using hf'
      refine ⟨by simp, .inl (by simp), fun d hd hne => ?_⟩
      simpa [hne] using hL.not_running (by simp [State.Live, hcur]) hd (by simp [hcur])
  | @waitNested c old rest' fs' hf hst hfr hl hcur hdead =>
      obtain ⟨⟨rfl, -⟩, -⟩ : (c = co ∧ _) ∧ _ := by simpa using hf'
      refine ⟨by simp, .inl (by simp), fun d hd hne => ?_⟩
      by_cases hdo : d = old
      · subst hdo
        simp [hne]
      · simpa [hne, hdo] using hL.not_running hl hd (by simpa [hcur] using Ne.symm hdo)
  | @waitNestedReturn c old fs' hf hl hcur =>
      obtain ⟨rest', fs'', rfl⟩ := (hb.cpu_ok hf).func_of_waitNested
      obtain ⟨⟨rfl, -⟩, -⟩ : (old = co ∧ _) ∧ _ := by simpa using hf'
      have hco : old ≠ c := by
        intro heq
        have := hk.2
        simp [returnsToFreed, hf, heq] at this
      refine ⟨by simp, .inl (by simp [hco]), fun d hd hne => ?_⟩
      obtain ⟨hdc, hmem⟩ := hb.mem_unlinked (hb.current c hcur) (by simpa using hd)
      simpa [hne, hdc] using hL.not_running hl hmem (by simpa [hcur] using Ne.symm hdc)
  | @switch n fs' c choice hf hl hcur hmem hnew =>
      obtain ⟨⟨rfl, -⟩, -⟩ : (choice = co ∧ _) ∧ _ := by simpa using hf'
      have hfresh := ((hI.core hl).fresh_choice hf hcur (hb.started choice hmem) hnew).1
      refine ⟨by simp, .inr ⟨by simp [hnew], by simp, ?_, ?_⟩, fun d hd hne => ?_⟩
      · intro n hm
        exact hfresh (hT.saved choice n (by simpa using hm))
      · intro hm
        exact hfresh (hT.parked choice (by simpa using hm))
      · intro hr
        have hrun := hL.running hl d hd (by simpa using hr)
        have hwt := (hI.core hl).yielding n fs' d hf hrun
        exact absurd (hwt.symm.trans (by simpa using hr)) (by simp)
  | @resume choice cur ctx fs' htop hl hcur hmem hwt hctx hfs =>
      have hown : owner ctx.stack fs' = some choice :=
        ((hI.core hl).contexts choice ctx hctx).2 fs' hfs
      obtain rfl : fs' = .func co rest :: fs := by simpa using hf'
      obtain rfl : co = choice := Option.some.inj hown
      refine ⟨by simp, .inl (by simp), fun d hd hne hr => ?_⟩
      have hst : (s.heap d).status = .running := by simpa [hne] using hr
      have hrun := hL.running hl d hd hst
      rcases htop with ⟨n, fs', hf⟩ | ⟨fs', hf⟩
      · exact absurd (((hI.core hl).yielding n fs' d hf hrun).symm.trans hst) (by simp)
      · exact absurd (((hI.core hl).looping fs' d hf hrun).symm.trans hst) (by simp)
  | yield | waitWaiting | callback => exact absurd hf' (by simp)
  | waitRunning => exact absurd hf' (by simp)
  | @ret d fs' hf =>
      have hfs : fs' = .func co rest :: fs := by simpa using hf'
      exact absurd (hfs ▸ hb.cpu_ok hf) not_stackOK_func_func
  | @waitNewReturn d fs' hf =>
      obtain ⟨rest', fs'', rfl⟩ := (hb.cpu_ok hf).main_of_waitNew
      exact absurd hf' (by simp)
  | @waitWaitingReturn d fs' hf =>
      obtain ⟨rest', fs'', rfl⟩ := (hb.cpu_ok hf).main_of_waitWaiting
      exact absurd hf' (by simp)
  | round => exact hL.func _ _ _ hf'

end

/-- In a run in which nothing reads a dangling `current` and `current` is kept, the law
holds for the coroutine whose code is executed exactly when it is not one that
`co_yield` has started and that has not switched since. -/
theorem func_is_running {p : Program} {s : State} {co : Ptr} {rest : List Call}
    {fs : List Frame} (h : (machine p).Run (fun s _ => NoDangling s ∧ KeepsCurrent s) s)
    (hf : s.frames = .func co rest :: fs) : IsRunning s co ↔ ¬ s.Switched co := by
  have hinv : (machine p).Invariant (fun s _ => NoDangling s ∧ KeepsCurrent s)
      fun s => Inv p s ∧ Traces s ∧ Lawful s :=
    invariant_of_moves (fun _ _ hg => hg.1) ⟨traces_init p, lawful_init p⟩
      fun _ _ _ hI hJ hg hm =>
        ⟨traces_of_move hI hJ.1 hm,
          { func := fun _ _ _ => func_of_move hI hJ.1 hg.2 hJ.2 hm
            running := running_of_move hI hJ.2 hm
            switched := switched_of_move hI hJ.1 hJ.2 hm }⟩
  obtain ⟨-, -, hL⟩ := h.invariant hinv
  obtain ⟨hcur, hst, honly⟩ := hL.func co rest fs hf
  refine ⟨?_, ?_⟩
  · intro hr hsw
    rcases hL.switched co hsw with h | h
    · exact absurd (hr.status.symm.trans h) (by simp)
    · exact absurd (hr.status.symm.trans h) (by simp)
  · intro hsw
    exact ⟨hcur, hst.resolve_right fun h => hsw h.2, honly⟩

/-- Two coroutines that yield to each other twice. -/
def relay : Program where
  main := [.start 0, .start 1, .wait 0]
  name co := if co = 0 then "a" else "b"
  func _ := [.yield, .yield]

/-- The second one, after it has yielded once. -/
theorem func_is_running_relay :
    ∃ s, runDraws relay (fun s _ => NoDangling s ∧ KeepsCurrent s) (List.replicate 9 0)
      (State.init relay) = some s ∧ s.Entered 1 ∧ IsRunning s 1 := by
  obtain ⟨s, hs, hend⟩ : ∃ s, runDraws relay (fun s _ => NoDangling s ∧ KeepsCurrent s)
      (List.replicate 9 0) (State.init relay) = some s ∧
        (s.frames, decide (.entered 1 (.own 1) ∈ s.log), decide (.saved 1 1 ∈ s.log)) =
          ([.func 1 [.yield], .callback], true, true) :=
    Option.map_eq_some_iff.mp (by decide)
  obtain ⟨hf, hend⟩ := Prod.mk.inj hend
  have hent : .entered 1 (.own 1) ∈ s.log := of_decide_eq_true (Prod.mk.inj hend).1
  have hsaved : .saved 1 1 ∈ s.log := of_decide_eq_true (Prod.mk.inj hend).2
  exact ⟨s, hs, ⟨_, hent⟩, (func_is_running (run_of_runDraws (.init rfl) hs) hf).mpr
    fun hsw => hsw.2.1 1 hsaved⟩

/-- The second coroutine of `relay` is started by `co_yield` and runs with status CO_NEW. -/
theorem not_func_is_running :
    ¬ ∀ (p : Program) (s : State) (co : Ptr) (rest : List Call) (fs : List Frame),
      (machine p).Reachable s → s.frames = .func co rest :: fs → IsRunning s co := by
  intro h
  obtain ⟨s, hs, hend⟩ : ∃ s, runDraws relay (fun _ _ => True) (List.replicate 5 0)
      (State.init relay) = some s ∧
        (s.frames, (s.heap 1).status) = ([.func 1 [.yield, .yield], .callback], .new) :=
    Option.map_eq_some_iff.mp (by decide)
  obtain ⟨hf, hst⟩ := Prod.mk.inj hend
  have hrun := (h relay s 1 _ _ (run_of_runDraws (.init rfl) hs) hf).status
  exact absurd (hst.symm.trans hrun) (by simp)

end OsLabs.Libco
