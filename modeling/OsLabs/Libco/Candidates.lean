import OsLabs.Libco.Restore

/-!
# OsLabs.Libco.Candidates

Does `rand_choose` find a coroutine to run?

In a program in which only `main` waits, and coroutines start others and yield, one
coroutine at a time runs on the process stack: the one `main` is waiting for. All
others run on their own stacks, and get the processor only through a `co_yield`. So
whenever control is on another stack, the process stack ends in an activation of
`co_yield`, and the coroutine it belongs to, the awaited one, is on the list and
CO_WAITING (`Parked`). It is the candidate that every call of `rand_choose` finds
(`rand_choose_finds`).

Nothing here asks `current` to be alive: a `co_wait` on a dead coroutine leaves it
dangling, and the next `co_wait` of `main` takes the branch for coroutines. What is
written through it then is a record that is off the list (`Gone`).
-/

namespace OsLabs.Libco

/-! ### The list and the names -/

/-- What the list and the names are in any run that keeps the contract, as long as
`co_delete` is called on coroutines that are dead or waited for. -/
structure Listed (p : Program) (s : State) : Prop extends Enlisted p s where
  /-- What is off the list is dead, or was waited for. -/
  listed : ∀ co, s.Started co → co ∉ s.coList →
    (s.heap co).status = .dead ∨ .waitCalled co ∈ s.log

theorem listed_init (p : Program) : Listed p (State.init p) where
  name := by simp [State.Started, State.init]
  names := by simp [State.Started, State.init]
  started := by simp [State.init]
  nodup := by simp [State.init]
  undead := by simp [State.init]
  waitStarted := by simp [State.init]
  listed := by simp [State.Started, State.init]

/-- What a step other than `co_start` has to show to keep `Listed`. -/
structure Thins (s s' : State) : Prop where
  started : ∀ co, s'.Started co ↔ s.Started co := by simp [State.Started]
  name : ∀ co, (s'.heap co).name = (s.heap co).name := by simp
  coList : s'.coList.Sublist s.coList := by simp
  undead : ∀ co ∈ s'.coList, (s'.heap co).status = .dead → (s.heap co).status = .dead
  log : s.log ⊆ s'.log := by intro e he; simp [he]
  waitStarted : ∀ co, .waitCalled co ∈ s'.log → .waitCalled co ∈ s.log ∨ s.Started co := by
    simp +contextual
  listed : ∀ co, co ∉ s'.coList →
    (co ∉ s.coList ∧ ((s.heap co).status = .dead → (s'.heap co).status = .dead)) ∨
      (s'.heap co).status = .dead ∨ .waitCalled co ∈ s'.log

theorem Listed.thins {p : Program} {s s' : State} (hL : Listed p s) (h : Thins s s') :
    Listed p s' where
  name co hco := by rw [h.name co]; exact hL.name co ((h.started co).mp hco)
  names co d hco hd := hL.names co d ((h.started co).mp hco) ((h.started d).mp hd)
  started co hco := (h.started co).mpr (hL.started co (h.coList.subset hco))
  nodup := h.coList.nodup hL.nodup
  undead co hco hdead := hL.undead co (h.coList.subset hco) (h.undead co hco hdead)
  waitStarted co hco := by
    rcases h.waitStarted co hco with hw | hs
    · exact (h.started co).mpr (hL.waitStarted co hw)
    · exact (h.started co).mpr hs
  listed co hco hoff := by
    rcases h.listed co hoff with ⟨hoff', hdead⟩ | hdone
    · exact (hL.listed co ((h.started co).mp hco) hoff').imp (hdead ·) (h.log ·)
    · exact hdone

namespace Listed

variable {p : Program} {s t : State}

/-- `co_start` of a fresh address under a fresh name. -/
theorem start {co : Ptr} (hL : Listed p s) (hn : ¬ s.Started co)
    (hnames : ∀ d, s.Started d → p.name d ≠ p.name co) : Listed p (coStart p s co) := by
  refine ⟨hL.toEnlisted.start hn hnames, ?_⟩
  intro d hd hoff
  have hdc : d ≠ co := by
    intro h
    simp [h] at hoff
  have hd' : s.Started d := by simpa [State.Started, hdc] using hd
  simpa [hdc] using hL.listed d hd' (by simpa [hdc] using hoff)

end Listed

/-! ### The two kinds of stacks -/

/-- `main` starts and waits, it does not yield. -/
def MainCalls (rest : List Call) : Prop := ∀ call ∈ rest, call ≠ .yield

/-- A coroutine starts and yields, it does not wait. -/
def BodyCalls (rest : List Call) : Prop := ∀ call ∈ rest, ∀ co, call ≠ .wait co

theorem MainCalls.tail {call : Call} {rest : List Call} (h : MainCalls (call :: rest)) :
    MainCalls rest := fun c hc => h c (List.mem_cons_of_mem _ hc)

theorem BodyCalls.tail {call : Call} {rest : List Call} (h : BodyCalls (call :: rest)) :
    BodyCalls rest := fun c hc => h c (List.mem_cons_of_mem _ hc)

/-- Only `main` calls `co_wait`, and only coroutines call `co_yield`. -/
structure OnlyMainWaits (p : Program) : Prop where
  main : MainCalls p.main
  func : ∀ co, BodyCalls (p.func co)

/-- `co` was waited for and is off the list. -/
def State.Gone (s : State) (co : Ptr) : Prop := .waitCalled co ∈ s.log ∧ co ∉ s.coList

/-- What lies on the process stack under the `func` of the coroutine `w` that `main`
waits for. -/
inductive Below (s : State) (w : Ptr) : List Frame → Prop
  | waitNew {rest : List Call} : MainCalls rest → Below s w [.waitNew w, .main rest]
  /-- `main` has called `co_wait` with a dangling `current`. -/
  | waitNested {old : Ptr} {rest : List Call} : s.Gone old → MainCalls rest →
      Below s w [.waitNested w old, .main rest]

/-- What lies on the process stack under an activation of `co_yield`. -/
inductive Yielded (s : State) (w : Ptr) : List Frame → Prop
  | func {rest : List Call} {fs : List Frame} : BodyCalls rest → Below s w fs →
      Yielded s w (.func w rest :: fs)
  | waitWaiting {rest : List Call} : MainCalls rest →
      Yielded s w [.waitWaiting w, .main rest]

/-- The awaited coroutine is suspended on the process stack, where its context leads. -/
def ParkedOn (s : State) (w : Ptr) : Prop :=
  ∃ n fs, s.stackOf .main = .yield n :: fs ∧ Yielded s w fs ∧ (s.heap w).status = .waiting ∧
    (s.heap w).context = some ⟨.main, n⟩

/-- `x` is suspended on its own stack, where its context leads. -/
def Suspended (s : State) (x : Ptr) : Prop :=
  ∃ n rest, s.stackOf (.own x) = [.yield n, .func x rest, .callback] ∧ BodyCalls rest ∧
    (s.heap x).context = some ⟨.own x, n⟩

/-- What `x` is doing, while the processor is on its own stack. -/
inductive Away (s : State) (x : Ptr) : Prop
  | func {rest : List Call} : s.frames = [.func x rest, .callback] → BodyCalls rest →
      x ∈ s.coList → (s.heap x).status ≠ .waiting → Away s x
  | callback : s.frames = [.callback] → x ∈ s.coList → Away s x
  | callbackLoop : s.frames = [.callbackLoop] → s.Started x → x ∉ s.coList → Away s x
  | yield : Suspended s x → x ∈ s.coList → Away s x

/-- What the processor is doing, when `w` is the coroutine `main` waits for. -/
inductive Phase (s : State) : Option Ptr → Prop
  | main {rest : List Call} : s.cpu = .main → s.frames = [.main rest] → MainCalls rest →
      (∀ d, s.current = some d → s.Gone d) → Phase s none
  | func {w : Ptr} {rest : List Call} {fs : List Frame} : s.cpu = .main →
      s.frames = .func w rest :: fs → BodyCalls rest → Below s w fs → s.current = some w →
      Phase s (some w)
  | below {w : Ptr} : s.cpu = .main → Below s w s.frames → s.current = some w → Phase s (some w)
  | waitWaiting {w : Ptr} {rest : List Call} : s.cpu = .main →
      s.frames = [.waitWaiting w, .main rest] → MainCalls rest → s.current = some w →
      Phase s (some w)
  | yield {w : Ptr} : s.cpu = .main → ParkedOn s w → s.current = some w → Phase s (some w)
  | away {w x : Ptr} : ParkedOn s w → x ≠ w → s.cpu = .own x → s.current = some x → Away s x →
      Phase s (some w)

/-- The invariant, when `w` is the coroutine `main` waits for. -/
structure Awaiting (p : Program) (s : State) (w : Option Ptr) : Prop where
  listed : Listed p s
  phase : Phase s w
  /-- It stays on the list. -/
  member : ∀ x, w = some x → x ∈ s.coList ∧ .waitCalled x ∈ s.log
  /-- Every other CO_WAITING coroutine of the list is suspended on its own stack. -/
  others : ∀ x ∈ s.coList, (s.heap x).status = .waiting → w ≠ some x → Suspended s x

theorem awaiting_init {p : Program} (hp : OnlyMainWaits p) :
    Awaiting p (State.init p) none where
  listed := listed_init p
  phase := .main rfl (by simp [State.init, State.frames]) hp.main (by simp [State.init])
  member := by simp
  others := by simp [State.init]

section
variable {p : Program} {s s' t : State} {w x d : Ptr} {fs : List Frame}

/-- What is off the list stays off. -/
theorem State.Gone.mono (h : s.Gone d) (hlog : s.log ⊆ s'.log)
    (hlist : ∀ x ∈ s'.coList, x ∈ s.coList ∨ ¬ s.Started x) (hst : s.Started d) : s'.Gone d :=
  ⟨hlog h.1, fun hm => (hlist d hm).elim h.2 fun hn => hn hst⟩

theorem Below.mono (h : Below s w fs) (hg : ∀ d, s.Gone d → s'.Gone d) : Below s' w fs := by
  cases h with
  | waitNew hrest => exact .waitNew hrest
  | waitNested hold hrest => exact .waitNested (hg _ hold) hrest

theorem Yielded.mono (h : Yielded s w fs) (hg : ∀ d, s.Gone d → s'.Gone d) :
    Yielded s' w fs := by
  cases h with
  | func hrest hb => exact .func hrest (hb.mono hg)
  | waitWaiting hrest => exact .waitWaiting hrest

/-- A step that does not touch the process stack or the record of `w`. -/
theorem ParkedOn.mono (h : ParkedOn s w) (hg : ∀ d, s.Gone d → s'.Gone d)
    (hstack : s'.stackOf .main = s.stackOf .main)
    (hst : (s'.heap w).status = (s.heap w).status)
    (hctx : (s'.heap w).context = (s.heap w).context) : ParkedOn s' w := by
  obtain ⟨n, fs, hfs, hy, hw, hc⟩ := h
  exact ⟨n, fs, hstack.trans hfs, hy.mono hg, hst.trans hw, hctx.trans hc⟩

/-- A step that does not touch the stack or the context of `x`. -/
theorem Suspended.mono (h : Suspended s x) (hstack : s'.stackOf (.own x) = s.stackOf (.own x))
    (hctx : (s'.heap x).context = (s.heap x).context) : Suspended s' x := by
  obtain ⟨n, rest, hfs, hrest, hc⟩ := h
  exact ⟨n, rest, hstack.trans hfs, hrest, hctx.trans hc⟩

/-- A library call takes one call off the caller's frame. -/
theorem Called.eq_of_main {call : Call} {rest : List Call} (h : Called s call t)
    (hf : s.frames = .main rest :: fs) :
    ∃ rest', rest = call :: rest' ∧ t = s.setFrames (.main rest' :: fs) := by
  cases h with
  | @main rest' fs' hf' =>
      obtain ⟨hr, rfl⟩ := List.cons.inj (hf.symm.trans hf')
      exact ⟨rest', Frame.main.inj hr, rfl⟩
  | func hf' => exact absurd (hf.symm.trans hf') (by simp)

theorem Called.eq_of_func {call : Call} {rest : List Call} (h : Called s call t)
    (hf : s.frames = .func x rest :: fs) :
    ∃ rest', rest = call :: rest' ∧ t = s.setFrames (.func x rest' :: fs) := by
  cases h with
  | main hf' => exact absurd (hf.symm.trans hf') (by simp)
  | @func co rest' fs' hf' =>
      obtain ⟨hr, rfl⟩ := List.cons.inj (hf.symm.trans hf')
      obtain ⟨rfl, rfl⟩ := Frame.func.inj hr
      exact ⟨rest', rfl, rfl⟩

/-- Only the top frame changes. -/
theorem Listed.setFrames (h : Listed p s) (X : List Frame) : Listed p (s.setFrames X) :=
  h.thins { undead := by simp, listed := fun _ hoff => .inl ⟨hoff, id⟩ }

/-- The one call of `co_wait` that a step makes is of a started coroutine. -/
theorem waitStarted_of_call {co : Ptr} (hstart : s.Started co)
    (h : ∀ d, .waitCalled d ∈ s'.log → d = co ∨ .waitCalled d ∈ s.log) (d : Ptr)
    (hd : .waitCalled d ∈ s'.log) : .waitCalled d ∈ s.log ∨ s.Started d := by
  rcases h d hd with rfl | hd
  · exact .inr hstart
  · exact .inl hd

/-- A step that keeps the list, and off it every status. -/
theorem listed_of_status (hlist : s'.coList = s.coList)
    (hst : ∀ d, d ∉ s.coList → (s'.heap d).status = (s.heap d).status) (d : Ptr)
    (hoff : d ∉ s'.coList) :
    (d ∉ s.coList ∧ ((s.heap d).status = .dead → (s'.heap d).status = .dead)) ∨
      (s'.heap d).status = .dead ∨ .waitCalled d ∈ s'.log := by
  rw [hlist] at hoff
  exact .inl ⟨hoff, fun h => (hst d hoff).trans h⟩

/-- `main` makes its next call. -/
theorem awaiting_of_main {rest : List Call} (hp : OnlyMainWaits p) (hA : Awaiting p s none)
    (hcpu : s.cpu = .main) (hf : s.frames = [.main rest]) (hcalls : MainCalls rest)
    (hcur : ∀ d, s.current = some d → s.Gone d) (ha : allowed p s = true)
    (hm : RawMove p s s') : ∃ w', Awaiting p s' w' := by
  have hL := hA.listed
  have hothers : ∀ x ∈ s.coList, (s.heap x).status = .waiting → Suspended s x :=
    fun x hx hst => hA.others x hx hst (by simp)
  -- a coroutine that may be waited for is on the list, unless it is dead
  have hmember : ∀ co, nextCall s = some (.wait co) → (s.heap co).status ≠ .dead →
      co ∈ s.coList := by
    intro co hc hst
    obtain ⟨hstart, hcall⟩ := allowed_wait ha hc
    by_contra hoff
    exact (hL.listed co hstart hoff).elim hst hcall
  cases hm with
  | @start t co hc =>
      obtain ⟨hn, hnames⟩ := allowed_start ha hc.nextCall
      obtain ⟨rest', rfl, rfl⟩ := hc.eq_of_main hf
      have hne : ∀ d, s.Started d → d ≠ co := by
        intro d hd heq
        subst heq
        exact hn hd
      refine ⟨none, (hL.setFrames _).start (by simpa [State.Started] using hn)
        (by simpa [State.Started] using hnames), ?_, by simp, ?_⟩
      · refine .main (by simpa using hcpu) (by simp : State.frames _ = [.main rest']) hcalls.tail ?_
        intro d hd
        have hg := hcur d (by simpa using hd)
        refine hg.mono (by intro e he; simp [he]) (fun x hx => ?_) (hL.waitStarted d hg.1)
        rcases (by simpa using hx : x ∈ s.coList ∨ x = co) with h | rfl
        · exact .inl h
        · exact .inr hn
      · intro x hx hst _
        by_cases hxc : x = co
        · simp [hxc] at hst
        · exact (hothers x (by simpa [hxc] using hx) (by simpa [hxc] using hst)).mono
            (by simp [hcpu]) (by simp [hxc])
  | @waitDead t co hc hst =>
      obtain ⟨hstart, -⟩ := allowed_wait ha hc.nextCall
      obtain ⟨rest', rfl, rfl⟩ := hc.eq_of_main hf
      refine ⟨none, hL.thins ?_, ?_, by simp, ?_⟩
      · exact
          { undead := by simp
            waitStarted := waitStarted_of_call hstart (by simp)
            listed := listed_of_status rfl (by simp) }
      · refine .main (by simpa using hcpu) (by simp : State.frames _ = [.main rest']) hcalls.tail ?_
        intro d hd
        obtain rfl : co = d := by simpa using hd
        refine ⟨by simp, ?_⟩
        intro hmem
        exact hL.undead co (by simpa using hmem) hst
      · intro x hx hst _
        exact (hothers x (by simpa using hx) (by simpa using hst)).mono (by simp [hcpu]) (by simp)
  | @waitNew t co hc hnone hst =>
      obtain ⟨hstart, -⟩ := allowed_wait ha hc.nextCall
      have hmem := hmember co hc.nextCall (by simp [hst])
      obtain ⟨rest', rfl, rfl⟩ := hc.eq_of_main hf
      refine ⟨some co, hL.thins ?_, ?_, ?_, ?_⟩
      · have hne : ∀ d, d ∉ s.coList → d ≠ co := fun d hd heq => hd (heq ▸ hmem)
        exact
          { undead := by
              intro d _
              by_cases hd : d = co <;> simp [hd]
            waitStarted := waitStarted_of_call hstart (by simp)
            listed := listed_of_status rfl (by simp +contextual [hne]) }
      · exact .func (by simpa using hcpu) (by simp : State.frames _ = .func co (p.func co) :: _)
          (hp.func co) (.waitNew hcalls.tail) (by simp)
      · intro x hx
        obtain rfl := Option.some.inj hx
        exact ⟨by simpa using hmem, by simp⟩
      · intro x hx hst hne
        have hxc : x ≠ co := fun h => hne (by rw [h])
        exact (hothers x (by simpa using hx) (by simpa [hxc] using hst)).mono
          (by simp [hcpu]) (by simp)
  | @waitWaiting t co hc hnone hst =>
      obtain ⟨hstart, -⟩ := allowed_wait ha hc.nextCall
      have hmem := hmember co hc.nextCall (by simp [hst])
      obtain ⟨rest', rfl, rfl⟩ := hc.eq_of_main hf
      refine ⟨some co, hL.thins ?_, ?_, ?_, ?_⟩
      · have hne : ∀ d, d ∉ s.coList → d ≠ co := fun d hd heq => hd (heq ▸ hmem)
        exact
          { undead := by
              intro d _
              by_cases hd : d = co <;> simp [hd]
            waitStarted := waitStarted_of_call hstart (by simp)
            listed := listed_of_status rfl (by simp +contextual [hne]) }
      · exact .yield (by simpa using hcpu)
          ⟨s.yields, [.waitWaiting co, .main rest'], by simp [hcpu],
            .waitWaiting hcalls.tail, by simp, by simp [hcpu]⟩ (by simp)
      · intro x hx
        obtain rfl := Option.some.inj hx
        exact ⟨by simpa using hmem, by simp⟩
      · intro x hx hst hne
        have hxc : x ≠ co := fun h => hne (by rw [h])
        exact (hothers x (by simpa using hx) (by simpa [hxc] using hst)).mono
          (by simp [hcpu]) (by simp [hxc])
  | @waitRunning t co hc hnone hst =>
      obtain ⟨hstart, -⟩ := allowed_wait ha hc.nextCall
      obtain ⟨rest', rfl, rfl⟩ := hc.eq_of_main hf
      refine ⟨none, hL.thins ?_, ?_, by simp, ?_⟩
      · exact
          { undead := by simp
            waitStarted := waitStarted_of_call hstart (by simp)
            listed := listed_of_status rfl (by simp) }
      · exact .main (by simpa using hcpu) (by simp : State.frames _ = [.main rest']) hcalls.tail
          (by simp [hnone])
      · intro x hx hst _
        exact (hothers x (by simpa using hx) (by simpa using hst)).mono (by simp [hcpu]) (by simp)
  | @waitNested t co old hc hold hst =>
      obtain ⟨hstart, -⟩ := allowed_wait ha hc.nextCall
      have hmem := hmember co hc.nextCall hst
      obtain ⟨rest', rfl, rfl⟩ := hc.eq_of_main hf
      have hgone := hcur old hold
      refine ⟨some co, hL.thins ?_, ?_, ?_, ?_⟩
      · have hne : ∀ d, d ∉ s.coList → d ≠ co := fun d hd heq => hd (heq ▸ hmem)
        exact
          { undead := by
              intro d _
              by_cases hd : d = co
              · simp [hd]
              · by_cases hd' : d = old
                · subst hd'
                  simp [hd]
                · simp [hd, hd']
            waitStarted := waitStarted_of_call hstart (by simp)
            listed := by
              intro d hoff
              have hoff' : d ∉ s.coList := by simpa using hoff
              by_cases hd : d = old
              · exact .inr (.inr (by simp [hd, hgone.1]))
              · exact .inl ⟨hoff', by simp [hd, hne d hoff']⟩ }
      · refine .func (by simpa using hcpu)
          (by simp : State.frames _ = .func co (p.func co) :: _) (hp.func co)
          (.waitNested (hgone.mono ?_ ?_ (hL.waitStarted old hgone.1)) hcalls.tail) (by simp)
        · intro e he
          simp [he]
        · simp +contextual
      · intro x hx
        obtain rfl := Option.some.inj hx
        exact ⟨by simpa using hmem, by simp⟩
      · intro x hx hst hne
        have hxc : x ≠ co := fun h => hne (by rw [h])
        have hxo : x ≠ old := by
          intro h
          subst h
          exact hgone.2 (by simpa using hx)
        exact (hothers x (by simpa using hx) (by simpa [hxc, hxo] using hst)).mono
          (by simp [hcpu]) (by simp)
  | @yield t cur hc =>
      obtain ⟨rest', rfl, -⟩ := hc.eq_of_main hf
      exact absurd rfl (hcalls .yield List.mem_cons_self)
  | ret hs | waitNewReturn hs | waitWaitingReturn hs | waitNestedReturn hs | callback hs
  | round hs | switch hs => exact absurd (hf.symm.trans hs) (by simp)
  | resume htop =>
      rcases htop with ⟨n, fs, hs⟩ | ⟨fs, hs⟩
      · exact absurd (hf.symm.trans hs) (by simp)
      · exact absurd (hf.symm.trans hs) (by simp)

/-- The `func` of the awaited coroutine runs on the process stack. -/
theorem awaiting_of_func {rest : List Call} (hA : Awaiting p s (some w)) (hcpu : s.cpu = .main)
    (hf : s.frames = .func w rest :: fs) (hcalls : BodyCalls rest) (hbelow : Below s w fs)
    (hcur : s.current = some w) (ha : allowed p s = true) (hm : RawMove p s s') :
    ∃ w', Awaiting p s' w' := by
  have hL := hA.listed
  obtain ⟨hmem, hcall⟩ := hA.member w rfl
  cases hm with
  | @start t co hc =>
      obtain ⟨hn, hnames⟩ := allowed_start ha hc.nextCall
      obtain ⟨rest', rfl, rfl⟩ := hc.eq_of_func hf
      refine ⟨some w, (hL.setFrames _).start (by simpa [State.Started] using hn)
        (by simpa [State.Started] using hnames), ?_, ?_, ?_⟩
      · refine .func (by simpa using hcpu) (by simp : State.frames _ = .func w rest' :: fs)
          hcalls.tail (hbelow.mono fun d hg => ?_) (by simpa using hcur)
        refine hg.mono (by intro e he; simp [he]) (fun x hx => ?_) (hL.waitStarted d hg.1)
        rcases (by simpa using hx : x ∈ s.coList ∨ x = co) with h | rfl
        · exact .inl h
        · exact .inr hn
      · intro x hx
        obtain rfl := Option.some.inj hx
        exact ⟨by simp [hmem], by simp [hcall]⟩
      · intro x hx hst hne
        by_cases hxc : x = co
        · simp [hxc] at hst
        · exact (hA.others x (by simpa [hxc] using hx) (by simpa [hxc] using hst) hne).mono
            (by simp [hcpu]) (by simp [hxc])
  | @yield t cur hc hcur' =>
      obtain ⟨rest', rfl, rfl⟩ := hc.eq_of_func hf
      obtain rfl : w = cur := Option.some.inj (hcur.symm.trans hcur')
      refine ⟨some w, hL.thins ?_, ?_, ?_, ?_⟩
      · exact
          { undead := by
              intro d _
              by_cases hd : d = w <;> simp [hd]
            listed := listed_of_status rfl fun d hd => by
              have hne : d ≠ w := fun heq => hd (heq ▸ hmem)
              simp [hne] }
      · refine .yield (by simpa using hcpu)
          ⟨s.yields, .func w rest' :: fs, by simp [hcpu], .func hcalls.tail ?_, by simp,
            by simp [hcpu]⟩ (by simpa using hcur)
        exact hbelow.mono fun d hg => ⟨by simp [hg.1], hg.2⟩
      · intro x hx
        obtain rfl := Option.some.inj hx
        exact ⟨hmem, by simp [hcall]⟩
      · intro x hx hst hne
        have hxw : x ≠ w := fun h => hne (by rw [h])
        exact (hA.others x hx (by simpa [hxw] using hst) hne).mono (by simp [hcpu]) (by simp [hxw])
  | @ret d fs' hs =>
      obtain ⟨hw, rfl⟩ := List.cons.inj (hf.symm.trans hs)
      obtain ⟨rfl, rfl⟩ := Frame.func.inj hw
      refine ⟨some w, hL.thins ?_, ?_, ?_, ?_⟩
      · exact { undead := by simp, listed := listed_of_status rfl (by simp) }
      · refine .below (by simpa using hcpu) ?_ (by simpa using hcur)
        rw [State.record_frames, State.setFrames_frames]
        exact hbelow.mono fun d hg => ⟨by simp [hg.1], hg.2⟩
      · intro x hx
        obtain rfl := Option.some.inj hx
        exact ⟨hmem, by simp [hcall]⟩
      · intro x hx hst hne
        exact (hA.others x hx hst hne).mono (by simp [hcpu]) (by simp)
  | waitDead hc | waitNew hc | waitWaiting hc | waitRunning hc | waitNested hc =>
      obtain ⟨rest', rfl, -⟩ := hc.eq_of_func hf
      exact absurd rfl (hcalls _ List.mem_cons_self _)
  | waitNewReturn hs | waitWaitingReturn hs | waitNestedReturn hs | callback hs
  | round hs | switch hs => exact absurd (hf.symm.trans hs) (by simp)
  | resume htop =>
      rcases htop with ⟨n, fs, hs⟩ | ⟨fs, hs⟩
      · exact absurd (hf.symm.trans hs) (by simp)
      · exact absurd (hf.symm.trans hs) (by simp)

/-- `co_wait` returns: `main` goes on, without the coroutine that was waited for. -/
theorem awaiting_of_return {rest : List Call} (hA : Awaiting p s (some w))
    (hcalls : MainCalls rest) (hcpu : s'.cpu = .main) (hf : s'.frames = [.main rest])
    (hcur : ∀ d, s'.current = some d → s.Gone d)
    (hlist : s'.coList = s.coList.erase w) (hlog : s.log ⊆ s'.log)
    (hstarted : ∀ d, s'.Started d ↔ s.Started d)
    (hcalled : ∀ d, .waitCalled d ∈ s'.log → .waitCalled d ∈ s.log)
    (hname : ∀ d, (s'.heap d).name = (s.heap d).name)
    (hctx : ∀ d, (s'.heap d).context = (s.heap d).context)
    (hst : ∀ d ∈ s.coList, d ≠ w → (s'.heap d).status = (s.heap d).status)
    (hoff : ∀ d, d ∉ s.coList → (s'.heap d).status = (s.heap d).status ∨
      .waitCalled d ∈ s.log)
    (hstack : ∀ d, s'.stackOf (.own d) = s.stackOf (.own d)) : Awaiting p s' none := by
  have hL := hA.listed
  have hmem : ∀ d, d ∈ s'.coList ↔ d ≠ w ∧ d ∈ s.coList := by
    intro d
    rw [hlist]
    exact hL.nodup.mem_erase_iff
  refine ⟨hL.thins ?_, .main hcpu hf hcalls ?_, by simp, ?_⟩
  · exact
      { started := hstarted
        name := hname
        coList := by rw [hlist]; exact List.erase_sublist
        undead := by
          intro d hd hdead
          obtain ⟨hne, hd⟩ := (hmem d).mp hd
          rwa [hst d hd hne] at hdead
        log := hlog
        waitStarted := fun d hd => .inl (hcalled d hd)
        listed := by
          intro d hd
          by_cases hdw : d = w
          · exact .inr (.inr (hlog (hdw ▸ (hA.member w rfl).2)))
          · have hd' : d ∉ s.coList := fun h => hd ((hmem d).mpr ⟨hdw, h⟩)
            rcases hoff d hd' with h | h
            · exact .inl ⟨hd', fun hdead => h.trans hdead⟩
            · exact .inr (.inr (hlog h)) }
  · intro d hd
    exact ⟨hlog (hcur d hd).1, fun h => (hcur d hd).2 ((hmem d).mp h).2⟩
  · intro d hd hwt _
    obtain ⟨hne, hd⟩ := (hmem d).mp hd
    rw [hst d hd hne] at hwt
    exact (hA.others d hd hwt (by simpa using Ne.symm hne)).mono (hstack d) (hctx d)

/-- The `func` that `co_wait` has called has returned. -/
theorem awaiting_of_below {draw : Nat} (hA : Awaiting p s (some w)) (hcpu : s.cpu = .main)
    (hbelow : Below s w s.frames) (hcur : s.current = some w) (h : step p draw s = .next s') :
    Awaiting p s' none := by
  have hL := hA.listed
  obtain ⟨hmem, hcall⟩ := hA.member w rfl
  have herase := hL.toEnlisted.erase_name (hL.started w hmem)
  generalize hf : s.frames = fs at hbelow
  cases hbelow with
  | @waitNew rest hcalls =>
      simp only [step, hf, waitNewReturn, hcur, Outcome.next.injEq] at h
      subst h
      refine awaiting_of_return hA hcalls (by simpa using hcpu) (by simp) (by simp)
        (by simpa using herase) (by intro e he; simp [he]) (by simp [State.Started]) (by simp)
        (by simp) (by simp) ?_ ?_ (by simp [hcpu])
      · intro d _ hne
        simp [hne]
      · intro d hd
        have hne : d ≠ w := fun heq => hd (heq ▸ hmem)
        exact .inl (by simp [hne])
  | @waitNested old rest hgone hcalls =>
      simp only [step, hf, waitNestedReturn, hcur, Outcome.next.injEq] at h
      subst h
      refine awaiting_of_return hA hcalls (by simpa using hcpu) (by simp) ?_
        (by simpa using herase) (by intro e he; simp [he]) (by simp [State.Started]) (by simp)
        (by simp) (by simp) ?_ ?_ (by simp [hcpu])
      · intro d hd
        obtain rfl : old = d := by simpa using hd
        exact hgone
      · intro d hd hne
        have hne' : d ≠ old := fun heq => hgone.2 (heq ▸ hd)
        simp [hne, hne']
      · intro d hd
        have hne : d ≠ w := fun heq => hd (heq ▸ hmem)
        by_cases hdo : d = old
        · exact .inr (hdo ▸ hgone.1)
        · exact .inl (by simp [hne, hdo])

/-- The `co_yield` of the CO_WAITING branch of `co_wait` has returned. -/
theorem awaiting_of_waitWaiting {rest : List Call} {draw : Nat} (hA : Awaiting p s (some w))
    (hcpu : s.cpu = .main) (hf : s.frames = [.waitWaiting w, .main rest])
    (hcalls : MainCalls rest) (h : step p draw s = .next s') : Awaiting p s' none := by
  have hL := hA.listed
  have herase := hL.toEnlisted.erase_name (hL.started w (hA.member w rfl).1)
  simp only [step, hf, waitWaitingReturn, Outcome.next.injEq] at h
  subst h
  exact awaiting_of_return hA hcalls (by simpa using hcpu) (by simp) (by simp)
    (by simpa using herase) (by intro e he; simp [he]) (by simp [State.Started]) (by simp)
    (by simp) (by simp) (by simp) (by simp) (by simp [hcpu])

/-- A `longjmp` to an activation of `co_yield` that is on top of its stack. -/
theorem resume_eq {choice : Ptr} {ctx : Context} (hctx : (s.heap choice).context = some ctx)
    (hfs : s.stackOf ctx.stack = .yield ctx.yield :: fs) :
    resume s choice =
      .next (jump ((s.setStatus choice .running).setCurrent (some choice)) choice ctx fs) := by
  simp [resume, longjmp, hctx, hfs, unwind]

/-- A step that keeps the list, the statuses of what is off it, and what is started or
waited for. -/
theorem Listed.of_status (hL : Listed p s) (hlist : s'.coList = s.coList)
    (hname : ∀ d, (s'.heap d).name = (s.heap d).name)
    (hundead : ∀ d ∈ s.coList, (s'.heap d).status = .dead → (s.heap d).status = .dead)
    (hoff : ∀ d, d ∉ s.coList → (s'.heap d).status = (s.heap d).status)
    (hlog : s.log ⊆ s'.log) (hstarted : ∀ d, s'.Started d ↔ s.Started d)
    (hcalled : ∀ d, .waitCalled d ∈ s'.log → .waitCalled d ∈ s.log) : Listed p s' :=
  hL.thins
    { started := hstarted
      name := hname
      coList := by rw [hlist]
      undead := by rwa [hlist]
      log := hlog
      waitStarted := fun d hd => .inl (hcalled d hd)
      listed := listed_of_status hlist hoff }

/-- The state after a coroutine on the list was resumed. -/
theorem listed_of_jump {choice : Ptr} {ctx : Context} (hL : Listed p s)
    (hmem : choice ∈ s.coList) :
    Listed p (jump ((s.setStatus choice .running).setCurrent (some choice)) choice ctx fs) := by
  have hne : ∀ d, d ∉ s.coList → d ≠ choice := fun d hd heq => hd (heq ▸ hmem)
  refine hL.of_status rfl (by simp) ?_ ?_ (by simp) (by simp [State.Started]) (by simp)
  · intro d _
    by_cases hd : d = choice <;> simp [hd]
  · intro d hd
    simp [hne d hd]

/-- `co_yield` and `callback` resume a coroutine that is CO_WAITING. -/
theorem awaiting_of_resume {choice : Ptr} (hA : Awaiting p s (some w)) (hp : ParkedOn s w)
    (hmem : choice ∈ s.coList) (hst : (s.heap choice).status = .waiting)
    (h : resume s choice = .next s') : Awaiting p s' (some w) := by
  have hL := hA.listed
  obtain ⟨hw, hcall⟩ := hA.member w rfl
  by_cases hcw : choice = w
  · -- back on the process stack
    subst hcw
    obtain ⟨n, fs, hfs, hy, -, hctx⟩ := hp
    rw [resume_eq hctx hfs] at h
    obtain rfl := Outcome.next.inj h
    refine ⟨listed_of_jump hL hmem, ?_, ?_, ?_⟩
    · have hg : ∀ d, s.Gone d → (jump ((s.setStatus choice .running).setCurrent (some choice))
          choice ⟨.main, n⟩ fs).Gone d := fun d hg => ⟨by simp [hg.1], hg.2⟩
      cases hy with
      | func hcalls hb => exact .func rfl (by simp) hcalls (hb.mono hg) rfl
      | waitWaiting hcalls => exact .waitWaiting rfl (by simp) hcalls rfl
    · intro x hx
      obtain rfl := Option.some.inj hx
      exact ⟨hw, by simp [hcall]⟩
    · intro x hx hxst hxw
      have hxc : x ≠ choice := fun h => hxw (by rw [h])
      exact (hA.others x hx (by simpa [hxc] using hxst) hxw).mono (by simp) (by simp)
  · -- on its own stack
    obtain ⟨n, rest, hfs, hcalls, hctx⟩ := hA.others choice hmem hst (by simpa using Ne.symm hcw)
    rw [resume_eq hctx hfs] at h
    obtain rfl := Outcome.next.inj h
    refine ⟨listed_of_jump hL hmem, ?_, ?_, ?_⟩
    · refine .away (hp.mono ?_ (by simp) (by simp [Ne.symm hcw]) (by simp)) hcw rfl rfl
        (.func (by simp) hcalls hmem (by simp))
      exact fun d hg => ⟨by simp [hg.1], hg.2⟩
    · intro x hx
      obtain rfl := Option.some.inj hx
      exact ⟨hw, by simp [hcall]⟩
    · intro x hx hxst hxw
      have hxc : x ≠ choice := by
        intro heq
        simp [heq] at hxst
      exact (hA.others x hx (by simpa [hxc] using hxst) hxw).mono (by simp [hxc]) (by simp)

/-- `co_yield` starts a coroutine that is CO_NEW. -/
theorem awaiting_of_switch {choice : Ptr} (hfunc : OnlyMainWaits p) (hA : Awaiting p s (some w))
    (hp : ParkedOn s w) (hmem : choice ∈ s.coList) (hst : (s.heap choice).status = .new) :
    Awaiting p (stackSwitchCall p (s.setCurrent (some choice)) choice) (some w) := by
  have hL := hA.listed
  obtain ⟨hw, hcall⟩ := hA.member w rfl
  have hne : choice ≠ w := by
    intro heq
    subst heq
    obtain ⟨n, fs, -, -, hwt, -⟩ := hp
    simp [hst] at hwt
  refine ⟨hL.of_status rfl (by simp) (by simp) (by simp) (by simp) (by simp [State.Started])
    (by simp), ?_, ?_, ?_⟩
  · refine .away (hp.mono ?_ (by simp) (by simp) (by simp)) hne rfl rfl
      (.func (by simp) (hfunc.func choice) hmem (by simp [hst]))
    exact fun d hg => ⟨by simp [hg.1], hg.2⟩
  · intro x hx
    obtain rfl := Option.some.inj hx
    exact ⟨hw, by simp [hcall]⟩
  · intro x hx hxst hxw
    have hxc : x ≠ choice := by
      intro heq
      subst heq
      simp [hst] at hxst
    exact (hA.others x hx (by simpa using hxst) hxw).mono (by simp [hxc]) (by simp)

/-- In `co_yield` after its `setjmp`, wherever it was called. -/
theorem awaiting_of_yield {n draw : Nat} {cur : Ptr} (hfunc : OnlyMainWaits p)
    (hA : Awaiting p s (some w)) (hp : ParkedOn s w) (hf : s.frames = .yield n :: fs)
    (hcur : s.current = some cur) (h : step p draw s = .next s') : Awaiting p s' (some w) := by
  simp only [step, hf, coYieldSwitch, hcur] at h
  split at h
  · exact absurd h (by simp)
  · next choice hch =>
    have hmem := (randChoose_mem hch).1
    split at h
    · next hst =>
      obtain rfl := Outcome.next.inj h
      exact awaiting_of_switch hfunc hA hp hmem hst
    · next hst => exact awaiting_of_resume hA hp hmem hst h
    · exact absurd h (by simp)

/-- The `func` of a coroutine runs on its own stack. -/
theorem awaiting_of_away_func {rest : List Call} (hA : Awaiting p s (some w))
    (hp : ParkedOn s w) (hxw : x ≠ w) (hcpu : s.cpu = .own x) (hcur : s.current = some x)
    (hf : s.frames = [.func x rest, .callback]) (hcalls : BodyCalls rest) (hmem : x ∈ s.coList)
    (hst : (s.heap x).status ≠ .waiting) (ha : allowed p s = true) (hm : RawMove p s s') :
    Awaiting p s' (some w) := by
  have hL := hA.listed
  obtain ⟨hw, hcall⟩ := hA.member w rfl
  cases hm with
  | @start t co hc =>
      obtain ⟨hn, hnames⟩ := allowed_start ha hc.nextCall
      obtain ⟨rest', rfl, rfl⟩ := hc.eq_of_func hf
      have hne : ∀ d, s.Started d → d ≠ co := fun d hd heq => hn (heq ▸ hd)
      have hwco := hne w (hL.started w hw)
      have hxco := hne x (hL.started x hmem)
      refine ⟨(hL.setFrames _).start (by simpa [State.Started] using hn)
        (by simpa [State.Started] using hnames), ?_, ?_, ?_⟩
      · refine .away (hp.mono (fun d hg => ?_) (by simp [hcpu]) (by simp [hwco]) (by simp [hwco]))
          hxw (by simpa using hcpu) (by simpa using hcur)
          (.func (by simp : State.frames _ = [.func x rest', .callback]) hcalls.tail
            (by simp [hmem]) (by simpa [hxco] using hst))
        refine hg.mono (by intro e he; simp [he]) (fun y hy => ?_) (hL.waitStarted d hg.1)
        rcases (by simpa using hy : y ∈ s.coList ∨ y = co) with h | rfl
        · exact .inl h
        · exact .inr hn
      · intro y hy
        obtain rfl := Option.some.inj hy
        exact ⟨by simp [hw], by simp [hcall]⟩
      · intro y hy hyst hyw
        by_cases hyc : y = co
        · simp [hyc] at hyst
        · have hyx : y ≠ x := by
            intro heq
            subst heq
            exact hst (by simpa [hyc] using hyst)
          exact (hA.others y (by simpa [hyc] using hy) (by simpa [hyc] using hyst) hyw).mono
            (by simp [hcpu, hyx]) (by simp [hyc])
  | @yield t cur hc hcur' =>
      obtain ⟨rest', rfl, rfl⟩ := hc.eq_of_func hf
      obtain rfl : x = cur := Option.some.inj (hcur.symm.trans hcur')
      have hsus : Suspended (setjmp ((s.setFrames [.func x rest', .callback]).setStatus x
          .waiting) x) x :=
        ⟨s.yields, rest', by simp [hcpu], hcalls.tail, by simp [hcpu]⟩
      refine ⟨hL.of_status rfl (by simp) ?_ ?_ (by simp) (by simp [State.Started]) (by simp), ?_,
        ?_, ?_⟩
      · intro d _
        by_cases hd : d = x <;> simp [hd]
      · intro d hd
        have hne : d ≠ x := fun heq => hd (heq ▸ hmem)
        simp [hne]
      · refine .away (hp.mono ?_ (by simp [hcpu]) (by simp [Ne.symm hxw]) (by simp [Ne.symm hxw]))
          hxw (by simpa using hcpu) (by simpa using hcur) (.yield hsus hmem)
        exact fun d hg => ⟨by simp [hg.1], hg.2⟩
      · intro y hy
        obtain rfl := Option.some.inj hy
        exact ⟨hw, by simp [hcall]⟩
      · intro y hy hyst hyw
        by_cases hyx : y = x
        · exact hyx ▸ hsus
        · exact (hA.others y hy (by simpa [hyx] using hyst) hyw).mono (by simp [hcpu, hyx])
            (by simp [hyx])
  | @ret d fs' hs =>
      obtain ⟨hw', rfl⟩ := List.cons.inj (hf.symm.trans hs)
      obtain ⟨rfl, rfl⟩ := Frame.func.inj hw'
      refine ⟨hL.of_status rfl (by simp) (by simp) (by simp) (by simp) (by simp [State.Started])
        (by simp), ?_, ?_, ?_⟩
      · refine .away (hp.mono ?_ (by simp [hcpu]) (by simp) (by simp)) hxw (by simpa using hcpu)
          (by simpa using hcur) (.callback (by simp) hmem)
        exact fun d hg => ⟨by simp [hg.1], hg.2⟩
      · intro y hy
        obtain rfl := Option.some.inj hy
        exact ⟨hw, by simp [hcall]⟩
      · intro y hy hyst hyw
        have hyx : y ≠ x := by
          intro heq
          subst heq
          exact hst hyst
        exact (hA.others y hy hyst hyw).mono (by simp [hcpu, hyx]) (by simp)
  | waitDead hc | waitNew hc | waitWaiting hc | waitRunning hc | waitNested hc =>
      obtain ⟨rest', rfl, -⟩ := hc.eq_of_func hf
      exact absurd rfl (hcalls _ List.mem_cons_self _)
  | waitNewReturn hs | waitWaitingReturn hs | waitNestedReturn hs | callback hs
  | round hs | switch hs => exact absurd (hf.symm.trans hs) (by simp)
  | resume htop =>
      rcases htop with ⟨n, fs, hs⟩ | ⟨fs, hs⟩
      · exact absurd (hf.symm.trans hs) (by simp)
      · exact absurd (hf.symm.trans hs) (by simp)

/-- A coroutine that has returned on its own stack leaves the list. -/
theorem awaiting_of_callback {draw : Nat} (hA : Awaiting p s (some w)) (hp : ParkedOn s w)
    (hxw : x ≠ w) (hcpu : s.cpu = .own x) (hcur : s.current = some x)
    (hf : s.frames = [.callback]) (hmem : x ∈ s.coList) (h : step p draw s = .next s') :
    Awaiting p s' (some w) := by
  have hL := hA.listed
  obtain ⟨hw, hcall⟩ := hA.member w rfl
  simp only [step, hf, callback, hcur, Outcome.next.injEq] at h
  subst h
  have herase := hL.toEnlisted.erase_name (hL.started x hmem)
  have hlist : ((coDelete (s.setStatus x .dead) x).setFrames [.callbackLoop]).coList =
      s.coList.erase x := by
    simpa using herase
  have hmem' : ∀ d, d ∈ ((coDelete (s.setStatus x .dead) x).setFrames [.callbackLoop]).coList ↔
      d ≠ x ∧ d ∈ s.coList := by
    intro d
    rw [hlist]
    exact hL.nodup.mem_erase_iff
  refine ⟨hL.thins ?_, .away (hp.mono ?_ (by simp [hcpu]) (by simp [Ne.symm hxw]) (by simp)) hxw
    (by simpa using hcpu) (by simpa using hcur) (.callbackLoop (by simp) ?_ ?_), ?_, ?_⟩
  · exact
      { coList := by rw [hlist]; exact List.erase_sublist
        undead := by
          intro d hd
          simp [((hmem' d).mp hd).1]
        listed := by
          intro d hd
          by_cases hdx : d = x
          · exact .inr (.inl (by simp [hdx]))
          · exact .inl ⟨fun hd' => hd ((hmem' d).mpr ⟨hdx, hd'⟩), by simp [hdx]⟩ }
  · exact fun d hg => ⟨hg.1, fun hd => hg.2 ((hmem' d).mp hd).2⟩
  · simpa [State.Started] using hL.started x hmem
  · exact fun hd => ((hmem' x).mp hd).1 rfl
  · intro y hy
    obtain rfl := Option.some.inj hy
    exact ⟨(hmem' w).mpr ⟨Ne.symm hxw, hw⟩, hcall⟩
  · intro y hy hyst hyw
    obtain ⟨hyx, hy'⟩ := (hmem' y).mp hy
    exact (hA.others y hy' (by simpa [hyx] using hyst) hyw).mono (by simp [hcpu, hyx]) (by simp)

/-- A round of the loop of `callback`. -/
theorem awaiting_of_round {draw : Nat} {cur : Ptr} (hA : Awaiting p s (some w))
    (hp : ParkedOn s w) (hf : s.frames = .callbackLoop :: fs) (hcur : s.current = some cur)
    (h : step p draw s = .next s') : Awaiting p s' (some w) := by
  simp only [step, hf, callbackRound, hcur] at h
  split at h
  · exact absurd h (by simp)
  · next choice hch =>
    have hmem := (randChoose_mem hch).1
    split at h
    · obtain rfl := Outcome.next.inj h
      exact hA
    · split at h
      · next hst => exact awaiting_of_resume hA hp hmem hst h
      · exact absurd h (by simp)

/-- Every step keeps the invariant. -/
theorem awaiting_of_step {draw : Nat} (hfunc : OnlyMainWaits p) (hA : Awaiting p s w')
    (ha : allowed p s = true) (h : step p draw s = .next s') : ∃ w', Awaiting p s' w' := by
  have hm := rawMove_of_step h
  cases hA.phase with
  | main hcpu hf hcalls hcur => exact awaiting_of_main hfunc hA hcpu hf hcalls hcur ha hm
  | func hcpu hf hcalls hb hcur => exact awaiting_of_func hA hcpu hf hcalls hb hcur ha hm
  | below hcpu hb hcur => exact ⟨_, awaiting_of_below hA hcpu hb hcur h⟩
  | waitWaiting hcpu hf hcalls hcur => exact ⟨_, awaiting_of_waitWaiting hA hcpu hf hcalls h⟩
  | yield hcpu hp hcur =>
      obtain ⟨n, fs, hfs, -⟩ := id hp
      rw [← hcpu] at hfs
      exact ⟨_, awaiting_of_yield hfunc hA hp hfs hcur h⟩
  | away hp hxw hcpu hcur hx =>
      cases hx with
      | func hf hcalls hmem hst =>
          exact ⟨_, awaiting_of_away_func hA hp hxw hcpu hcur hf hcalls hmem hst ha hm⟩
      | callback hf hmem => exact ⟨_, awaiting_of_callback hA hp hxw hcpu hcur hf hmem h⟩
      | callbackLoop hf _ _ => exact ⟨_, awaiting_of_round hA hp hf hcur h⟩
      | yield hsus hmem =>
          obtain ⟨n, rest, hfs, -⟩ := hsus
          rw [← hcpu] at hfs
          exact ⟨_, awaiting_of_yield hfunc hA hp hfs hcur h⟩

end

/-! ### What the random choice finds -/

/-- If there is a candidate, `rand_choose` returns one. -/
theorem randChoose_of_mem {s : State} {co : Ptr} (hmem : co ∈ s.coList)
    (hel : s.eligible co = true) (draw : Nat) (cur : Ptr) :
    ∃ choice, randChoose s draw cur = some choice := by
  have hpool : co ∈ s.coList.filter s.eligible := List.mem_filter.mpr ⟨hmem, hel⟩
  unfold randChoose
  generalize s.coList.filter s.eligible = pool at hpool
  have hpos : 0 < pool.length := List.length_pos_of_mem hpool
  have hdraw : draw % pool.length < pool.length := Nat.mod_lt _ hpos
  simp only [Nat.add_sub_cancel, if_neg (Nat.ne_of_gt hpos), List.getElem?_eq_getElem hdraw]
  split
  · split
    · next hcount =>
      have hlt : pool.length + 1 - (draw % pool.length + 1) - 1 < pool.length := by omega
      exact ⟨_, List.getElem?_eq_getElem hlt⟩
    · exact ⟨_, List.getElem?_eq_getElem (Nat.mod_lt _ hpos)⟩
  · exact ⟨_, rfl⟩

/-- Some draw picks a given candidate that has another name than the caller. -/
theorem exists_draw {s : State} {co cur : Ptr} (hmem : co ∈ s.coList)
    (hel : s.eligible co = true) (hname : (s.heap co).name ≠ (s.heap cur).name) :
    ∃ draw, randChoose s draw cur = some co := by
  have hpool : co ∈ s.coList.filter s.eligible := List.mem_filter.mpr ⟨hmem, hel⟩
  obtain ⟨i, hi, hget⟩ := List.mem_iff_getElem.mp hpool
  refine ⟨i, ?_⟩
  unfold randChoose
  generalize s.coList.filter s.eligible = pool at hi hget
  have hpos : pool.length ≠ 0 := by omega
  simp only [Nat.add_sub_cancel, Nat.mod_eq_of_lt hi, if_neg hpos, List.getElem?_eq_getElem hi,
    hget, if_neg hname]

/-- No library call draws before its next step. -/
theorem doCall_ne_emptyPool (p : Program) (s : State) (call : Call) :
    doCall p s call ≠ .fault .emptyPool := by
  have hyield : ∀ t : State, coYield t ≠ .fault .emptyPool := by
    intro t
    rw [coYield]
    split <;> simp
  cases call with
  | start co => simp [doCall]
  | yield => exact hyield s
  | wait co =>
      rw [doCall, coWait]
      split
      · simp
      · simp
      · exact hyield _
      · simp
      · simp

theorem resume_ne_emptyPool (s : State) (co : Ptr) : resume s co ≠ .fault .emptyPool := by
  rw [resume, longjmp]
  split
  · simp
  · split <;> simp

/-- The steps that call `rand_choose` are those of `co_yield` and `callback`. -/
theorem emptyPool_inv {p : Program} {s : State} {draw : Nat}
    (h : step p draw s = .fault .emptyPool) :
    ((∃ n fs, s.frames = .yield n :: fs) ∨ ∃ fs, s.frames = .callbackLoop :: fs) ∧
      ∃ cur, s.current = some cur ∧ randChoose s draw cur = none := by
  unfold step at h
  split at h
  · exact absurd h (by simp)
  · exact absurd h (by simp)
  · exact absurd h (doCall_ne_emptyPool p _ _)
  · exact absurd h (doCall_ne_emptyPool p _ _)
  · exact absurd h (by simp)
  · rw [waitNewReturn] at h
    split at h
    · exact absurd h (by simp)
    · exact absurd h (by simp)
  · exact absurd h (by simp [waitWaitingReturn])
  · rw [waitNestedReturn] at h
    split at h
    · exact absurd h (by simp)
    · exact absurd h (by simp)
  · next n fs hf =>
    rw [coYieldSwitch] at h
    split at h
    · exact absurd h (by simp)
    · next cur hcur =>
      split at h
      · next hnone => exact ⟨.inl ⟨n, fs, hf⟩, cur, hcur, hnone⟩
      · split at h
        · exact absurd h (by simp)
        · exact absurd h (resume_ne_emptyPool s _)
        · exact absurd h (by simp)
  · rw [callback] at h
    split at h
    · exact absurd h (by simp)
    · exact absurd h (by simp)
  · next fs hf =>
    rw [callbackRound] at h
    split at h
    · exact absurd h (by simp)
    · next cur hcur =>
      split at h
      · next hnone => exact ⟨.inr ⟨fs, hf⟩, cur, hcur, hnone⟩
      · split at h
        · exact absurd h (by simp)
        · split at h
          · exact absurd h (resume_ne_emptyPool s _)
          · exact absurd h (by simp)

section
variable {p : Program} {s : State} {w : Option Ptr} {n : Nat} {fs : List Frame}

/-- While a coroutine yields, the awaited one is parked on the process stack. -/
theorem Awaiting.parked_of_yield (hA : Awaiting p s w) (hf : s.frames = .yield n :: fs) :
    ∃ x, x ∈ s.coList ∧ (s.heap x).status = .waiting := by
  cases hA.phase with
  | main hcpu hf' => exact absurd (hf.symm.trans hf') (by simp)
  | func hcpu hf' => exact absurd (hf.symm.trans hf') (by simp)
  | below hcpu hb =>
      rw [hf] at hb
      cases hb
  | waitWaiting hcpu hf' => exact absurd (hf.symm.trans hf') (by simp)
  | @yield x _ hp =>
      obtain ⟨_, _, _, _, hst, _⟩ := hp
      exact ⟨x, (hA.member x rfl).1, hst⟩
  | @away x _ hp =>
      obtain ⟨_, _, _, _, hst, _⟩ := hp
      exact ⟨x, (hA.member x rfl).1, hst⟩

/-- So it is while `callback` loops, and it is not the one that has finished. -/
theorem Awaiting.parked_of_callbackLoop (hA : Awaiting p s w)
    (hf : s.frames = .callbackLoop :: fs) :
    ∃ cur x, s.current = some cur ∧ ParkedOn s x ∧ x ∈ s.coList ∧
      (s.heap x).name ≠ (s.heap cur).name := by
  cases hA.phase with
  | main hcpu hf' => exact absurd (hf.symm.trans hf') (by simp)
  | func hcpu hf' => exact absurd (hf.symm.trans hf') (by simp)
  | below hcpu hb =>
      rw [hf] at hb
      cases hb
  | waitWaiting hcpu hf' => exact absurd (hf.symm.trans hf') (by simp)
  | yield hcpu hp =>
      obtain ⟨m, fs', hfs, -⟩ := hp
      rw [← hcpu] at hfs
      exact absurd (hf.symm.trans hfs) (by simp)
  | @away x y hp hne hcpu hcur hy =>
      have hmem := (hA.member x rfl).1
      cases hy with
      | func hf' => exact absurd (hf.symm.trans hf') (by simp)
      | callback hf' => exact absurd (hf.symm.trans hf') (by simp)
      | yield hsus =>
          obtain ⟨m, rest, hfs, -⟩ := hsus
          rw [← hcpu] at hfs
          exact absurd (hf.symm.trans hfs) (by simp)
      | callbackLoop _ hst _ =>
          exact ⟨y, x, hcur, hp, hmem,
            mt (hA.listed.toEnlisted.name_iff hst (hA.listed.started x hmem)).mp (Ne.symm hne)⟩

end

/-- Where only `main` waits: a `co_yield` finds a coroutine that is CO_NEW or CO_WAITING,
`callback` finds a CO_WAITING one with another name than the one that has finished, no
draw makes `rand_choose` read an empty pool, and some draw ends the loop of `callback`. -/
theorem rand_choose_finds {p : Program} {s : State} (hp : OnlyMainWaits p)
    (h : (machine p).Reachable s) :
    (∀ n fs, s.frames = .yield n :: fs → ∃ co ∈ s.coList, s.eligible co = true) ∧
    (∀ fs, s.frames = .callbackLoop :: fs → ∃ cur, s.current = some cur ∧
      ∃ co ∈ s.coList, (s.heap co).status = .waiting ∧
        (s.heap co).name ≠ (s.heap cur).name) ∧
    (∀ draw, step p draw s ≠ .fault .emptyPool) ∧
    ∀ fs, s.frames = .callbackLoop :: fs → ∃ draw s', step p draw s = .next s' ∧
      ∀ fs', s'.frames ≠ .callbackLoop :: fs' := by
  have hinv : (machine p).Invariant (fun _ _ => True) fun s => ∃ w, Awaiting p s w :=
    { init := by
        intro s hs
        subst hs
        exact ⟨none, awaiting_init hp⟩
      step := by
        intro s draw s' hw _ hs
        obtain ⟨w, hA⟩ := hw
        exact awaiting_of_step hp hA hs.1 hs.2 }
  obtain ⟨w, hA⟩ := h.invariant hinv
  have hyield : ∀ n fs, s.frames = .yield n :: fs → ∃ co ∈ s.coList, s.eligible co = true := by
    intro n fs hf
    obtain ⟨x, hmem, hst⟩ := hA.parked_of_yield hf
    exact ⟨x, hmem, by simp [State.eligible, hst]⟩
  have hloop : ∀ fs, s.frames = .callbackLoop :: fs → ∃ cur x, s.current = some cur ∧
      ParkedOn s x ∧ x ∈ s.coList ∧ (s.heap x).name ≠ (s.heap cur).name :=
    fun fs hf => hA.parked_of_callbackLoop hf
  refine ⟨hyield, ?_, ?_, ?_⟩
  · intro fs hf
    obtain ⟨cur, x, hcur, hpark, hmem, hname⟩ := hloop fs hf
    obtain ⟨_, _, _, _, hst, _⟩ := hpark
    exact ⟨cur, hcur, x, hmem, hst, hname⟩
  · intro draw hstep
    obtain ⟨htop, cur, hcur, hnone⟩ := emptyPool_inv hstep
    have hel : ∃ co ∈ s.coList, s.eligible co = true := by
      rcases htop with ⟨n, fs, hf⟩ | ⟨fs, hf⟩
      · exact hyield n fs hf
      · obtain ⟨_, x, -, ⟨_, _, _, _, hst, _⟩, hmem, -⟩ := hloop fs hf
        exact ⟨x, hmem, by simp [State.eligible, hst]⟩
    obtain ⟨co, hmem, hel⟩ := hel
    obtain ⟨choice, hch⟩ := randChoose_of_mem hmem hel draw cur
    exact absurd (hnone.symm.trans hch) (by simp)
  · intro fs hf
    obtain ⟨cur, x, hcur, ⟨n, fs', hfs, hy, hst, hctx⟩, hmem, hname⟩ := hloop fs hf
    obtain ⟨draw, hch⟩ := exists_draw hmem (by simp [State.eligible, hst]) hname
    have hstep : step p draw s = resume s x := by
      simp only [step, hf, callbackRound, hcur, hch]
      rw [if_neg (by simp [hst, hname]), if_pos hst]
    refine ⟨draw, _, hstep.trans (resume_eq hctx hfs), fun fs'' => ?_⟩
    rw [jump_frames]
    cases hy with
    | func => simp
    | waitWaiting => simp

theorem onlyMainWaits_latecomer : OnlyMainWaits latecomer where
  main := by simp [MainCalls, latecomer]
  func co := by
    by_cases hco : co = 0
    · simp [BodyCalls, latecomer, hco]
    · simp [BodyCalls, latecomer, hco]

/-- The coroutine that finishes on its own stack finds the one `main` waits for. -/
theorem rand_choose_finds_latecomer :
    ∃ s, runDraws latecomer (fun _ _ => True) (List.replicate 7 0) (State.init latecomer) =
        some s ∧ s.Returned 1 ∧
      ∃ draw s', step latecomer draw s = .next s' ∧ ∀ fs', s'.frames ≠ .callbackLoop :: fs' := by
  obtain ⟨s, hs, hend⟩ : ∃ s, runDraws latecomer (fun _ _ => True) (List.replicate 7 0)
      (State.init latecomer) = some s ∧
        (s.frames, decide (.returned 1 ∈ s.log)) = ([.callbackLoop], true) :=
    Option.map_eq_some_iff.mp (by decide)
  obtain ⟨hf, hend⟩ := Prod.mk.inj hend
  have hr : .returned 1 ∈ s.log := of_decide_eq_true hend
  obtain ⟨-, -, -, hround⟩ :=
    rand_choose_finds onlyMainWaits_latecomer (run_of_runDraws (.init rfl) hs)
  exact ⟨s, hs, hr, hround [] hf⟩

end OsLabs.Libco
