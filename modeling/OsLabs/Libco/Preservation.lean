import OsLabs.Libco.Invariant

/-!
# OsLabs.Libco.Preservation

Every move of the coroutine library keeps the invariant of
`OsLabs.Libco.Invariant`, so it holds in every state of a run in which no step
reads a dangling `current` (`invariant_of_moves`).

`Base` is kept by every move, alive or not. `Core` has to be kept only by moves
that end with `current` alive; these start with it alive too, because the moves
that do not read `current` leave it as it is, except a `co_wait` on a dead
coroutine, which leaves it dangling.
-/

namespace OsLabs.Libco

/-! ### The list and the heap -/

/-- The names of the started coroutines and the list, which every invariant of the
machine has. -/
structure Enlisted (p : Program) (s : State) : Prop where
  name : ∀ co, s.Started co → (s.heap co).name = p.name co
  names : ∀ co d, s.Started co → s.Started d → p.name co = p.name d → co = d
  started : ∀ co ∈ s.coList, s.Started co
  nodup : s.coList.Nodup
  undead : ∀ co ∈ s.coList, (s.heap co).status ≠ .dead
  waitStarted : ∀ co, .waitCalled co ∈ s.log → s.Started co

namespace Enlisted

variable {p : Program} {s : State} {co d : Ptr}

/-- Names identify started coroutines. -/
theorem name_iff (h : Enlisted p s) (hco : s.Started co) (hd : s.Started d) :
    (s.heap d).name = (s.heap co).name ↔ d = co := by
  rw [h.name d hd, h.name co hco]
  exact ⟨fun hn => h.names d co hd hco hn, fun hn => by rw [hn]⟩

/-- `co_delete` unlinks its argument and nothing else. -/
theorem erase_name (h : Enlisted p s) (hco : s.Started co) :
    (s.coList.eraseP fun d => decide ((s.heap d).name = (s.heap co).name)) =
      s.coList.erase co := by
  have hiff : ∀ d ∈ s.coList, (s.heap d).name = (s.heap co).name ↔ d = co :=
    fun d hd => h.name_iff hco (h.started d hd)
  rw [List.erase_eq_eraseP]
  refine eraseP_congr fun d hd => ?_
  by_cases hdc : d = co
  · simp [hdc]
  · simp [Ne.symm hdc, mt (hiff d hd).mp hdc]

/-- `co_start` of a fresh address under a fresh name. -/
theorem start (h : Enlisted p s) (hn : ¬ s.Started co)
    (hnames : ∀ d, s.Started d → p.name d ≠ p.name co) : Enlisted p (coStart p s co) := by
  have hstart : ∀ d, (coStart p s co).Started d ↔ d = co ∨ s.Started d := by
    simp [State.Started]
  have hne : ∀ d, s.Started d → d ≠ co := fun d hd heq => hn (heq ▸ hd)
  have hlist : ∀ d ∈ (coStart p s co).coList, d ∈ s.coList ∨ d = co := by simp
  have hnot : co ∉ s.coList := fun hmem => hn (h.started co hmem)
  constructor
  case name =>
    intro d hd
    rcases (hstart d).mp hd with rfl | hd
    · simp
    · simp [hne d hd, h.name d hd]
  case names =>
    intro c d hc hd hcd
    rcases (hstart c).mp hc with rfl | hc' <;> rcases (hstart d).mp hd with rfl | hd'
    · rfl
    · exact absurd hcd.symm (hnames d hd')
    · exact absurd hcd (hnames c hc')
    · exact h.names c d hc' hd' hcd
  case started =>
    intro d hd
    exact (hstart d).mpr ((hlist d hd).symm.imp id (h.started d))
  case nodup =>
    rw [coStart_coList]
    exact h.nodup.append (List.nodup_singleton co) (by simpa using hnot)
  case undead =>
    intro d hd
    rcases hlist d hd with hd | rfl
    · simpa [hne d (h.started d hd)] using h.undead d hd
    · simp
  case waitStarted =>
    intro d hd
    exact (hstart d).mpr (.inr (h.waitStarted d (by simpa using hd)))

end Enlisted

namespace Base

variable {p : Program} {s s' : State}

theorem enlisted (h : Base p s) : Enlisted p s :=
  ⟨h.name, h.names, h.started, h.nodup, h.undead, h.waitStarted⟩

/-- What is left on the list was on it, and is not what was unlinked, -/
theorem mem_unlinked (h : Base p s) {co d : Ptr} (hco : s.Started co)
    (hd : d ∈ s.coList.eraseP fun d => decide ((s.heap d).name = (s.heap co).name)) :
    d ≠ co ∧ d ∈ s.coList := by
  rw [h.enlisted.erase_name hco] at hd
  exact h.nodup.mem_erase_iff.mp hd

/-- and what is not left was unlinked or not on the list before. -/
theorem notMem_unlinked (h : Base p s) {co d : Ptr} (hco : s.Started co)
    (hd : d ∉ s.coList.eraseP fun d => decide ((s.heap d).name = (s.heap co).name)) :
    d ∉ s.coList ∨ d = co := by
  rw [h.enlisted.erase_name hco] at hd
  by_cases hdc : d = co
  · exact .inr hdc
  · exact .inl (by rwa [List.mem_erase_of_ne hdc] at hd)

end Base

/-- What a step other than `co_start` has to show to keep `Base`: nothing is started
or renamed, the list only shrinks, what stays on it neither dies nor is freed, and
one stack `τ` gets the frames `X`. Where a step does nothing to a field, the simp
lemmas of the state show it. -/
structure Shrinks (s s' : State) (τ : StackId) (X : List Frame) : Prop where
  started : ∀ co, s'.Started co ↔ s.Started co := by simp [State.Started]
  name : ∀ co, (s'.heap co).name = (s.heap co).name := by simp
  coList : s'.coList.Sublist s.coList := by simp
  undead : ∀ co ∈ s'.coList, (s'.heap co).status = .dead → (s.heap co).status = .dead
  unfreed : ∀ co ∈ s'.coList, s'.Freed co → s.Freed co := by simp [State.Freed]
  log : s.log ⊆ s'.log := by intro e he; simp [he]
  waited : ∀ co, s'.Freed co → s.Freed co ∨ .waitCalled co ∈ s'.log := by
    simp +contextual [State.Freed]
  waitStarted : ∀ co, .waitCalled co ∈ s'.log → s.Started co
  current : ∀ co, s'.current = some co → s.Started co
  stackOf : ∀ σ, s'.stackOf σ = if σ = τ then X else s.stackOf σ := by
    intro σ; split <;> simp [*]
  stackOK : StackOK τ X
  traced : Traced s'.log τ X
  enteredStarted : ∀ co, s'.Entered co → s.Started co
  waitLive : ∀ co fs, s'.frames = .waitWaiting co :: fs → s'.Live := by simp

theorem Base.shrinks {p : Program} {s s' : State} {τ : StackId} {X : List Frame}
    (hb : Base p s) (h : Shrinks s s' τ X) : Base p s' where
  name co hco := by rw [h.name co]; exact hb.name co ((h.started co).mp hco)
  names co d hco hd := hb.names co d ((h.started co).mp hco) ((h.started d).mp hd)
  started co hco := (h.started co).mpr (hb.started co (h.coList.subset hco))
  nodup := h.coList.nodup hb.nodup
  undead co hco hdead := hb.undead co (h.coList.subset hco) (h.undead co hco hdead)
  unfreed co hco hfreed := hb.unfreed co (h.coList.subset hco) (h.unfreed co hco hfreed)
  waited co hco := (h.waited co hco).elim (fun hf => h.log (hb.waited co hf)) id
  waitStarted co hco := (h.started co).mpr (h.waitStarted co hco)
  current co hco := (h.started co).mpr (h.current co hco)
  stackOf σ := by
    rw [h.stackOf σ]
    split
    · next hσ => exact hσ ▸ h.stackOK
    · exact hb.stackOf σ
  traced σ := by
    rw [h.stackOf σ]
    split
    · next hσ => exact hσ ▸ h.traced
    · exact (hb.traced σ).mono h.log
  enteredStarted co hco := (h.started co).mpr (h.enteredStarted co hco)
  waitLive := h.waitLive

/-- A frame that is there after a step that changes one stack was there before. -/
theorem mem_of_stack {s s' : State} {f : Frame} {τ σ : StackId} {fs : List Frame}
    (hf : s.stackOf τ = fs) (htop : f ∈ s'.stackOf τ → f ∈ fs)
    (hrest : ∀ σ, σ ≠ τ → s'.stackOf σ = s.stackOf σ) (hm : f ∈ s'.stackOf σ) :
    f ∈ s.stackOf σ := by
  by_cases hσ : σ = τ
  · subst hσ
    rw [hf]
    exact htop hm
  · rwa [hrest σ hσ] at hm

namespace Called

variable {p : Program} {s t : State} {call : Call}

theorem heap (h : Called s call t) : t.heap = s.heap := by cases h <;> rfl
theorem coList (h : Called s call t) : t.coList = s.coList := by cases h <;> rfl
theorem current (h : Called s call t) : t.current = s.current := by cases h <;> rfl
theorem cpu (h : Called s call t) : t.cpu = s.cpu := by cases h <;> rfl
theorem yields (h : Called s call t) : t.yields = s.yields := by cases h <;> rfl
theorem log (h : Called s call t) : t.log = s.log := by cases h <;> rfl

/-- Client code stays on top. -/
theorem frames (h : Called s call t) :
    (∃ rest fs, t.frames = .main rest :: fs) ∨ (∃ co rest fs, t.frames = .func co rest :: fs) := by
  cases h with
  | main hf => exact .inl ⟨_, _, State.setFrames_frames _ _⟩
  | func hf => exact .inr ⟨_, _, _, State.setFrames_frames _ _⟩

theorem stacks_of_ne (h : Called s call t) {σ : StackId} (hσ : σ ≠ s.cpu) :
    t.stackOf σ = s.stackOf σ := by
  cases h <;> simp [hσ]

theorem stackOf (h : Called s call t) (σ : StackId) :
    t.stackOf σ = if σ = s.cpu then t.frames else s.stackOf σ := by
  by_cases hσ : σ = s.cpu
  · rw [if_pos hσ, hσ, ← h.cpu]
    rfl
  · rw [if_neg hσ, h.stacks_of_ne hσ]

/-- A call changes the caller's frame only. -/
theorem mem_stackOf (h : Called s call t) {f : Frame} (hmain : ∀ rest, f ≠ .main rest)
    (hfunc : ∀ co rest, f ≠ .func co rest) {σ : StackId} (hm : f ∈ t.stackOf σ) :
    f ∈ s.stackOf σ := by
  by_cases hσ : σ = s.cpu
  · subst hσ
    cases h with
    | main hs =>
        have hs' : s.stackOf s.cpu = _ := hs
        rw [State.setFrames_stackOf, if_pos rfl, List.mem_cons] at hm
        rw [hs']
        exact List.mem_cons_of_mem _ (hm.resolve_left (hmain _))
    | func hs =>
        have hs' : s.stackOf s.cpu = _ := hs
        rw [State.setFrames_stackOf, if_pos rfl, List.mem_cons] at hm
        rw [hs']
        exact List.mem_cons_of_mem _ (hm.resolve_left (hfunc _ _))
  · rwa [h.stacks_of_ne hσ] at hm

theorem stackOK (hb : Base p s) (h : Called s call t) : StackOK s.cpu t.frames := by
  have hok := hb.stackOf s.cpu
  cases h with
  | main hf =>
      change s.stackOf s.cpu = _ at hf
      rw [hf] at hok
      simpa using hok.setMain
  | func hf =>
      change s.stackOf s.cpu = _ at hf
      rw [hf] at hok
      simpa using hok.setFunc

theorem traced (hb : Base p s) (h : Called s call t) : Traced s.log s.cpu t.frames := by
  have htr := hb.traced s.cpu
  cases h with
  | main hf =>
      change s.stackOf s.cpu = _ at hf
      rw [hf] at htr
      simpa using htr
  | func hf =>
      change s.stackOf s.cpu = _ at hf
      rw [hf] at htr
      simpa using htr

theorem owner_eq (h : Called s call t) (σ : StackId) : owner σ t.frames = owner σ s.frames := by
  cases h with
  | main hf => simp [hf, owner]
  | func hf => simp [hf, owner]

theorem frames_ne_nil (h : Called s call t) : s.frames ≠ [] := by
  cases h <;> simp_all

theorem not_waitWaiting (h : Called s call t) (co : Ptr) (fs : List Frame) :
    t.frames ≠ .waitWaiting co :: fs := by
  rcases h.frames with ⟨_, _, hf⟩ | ⟨_, _, _, hf⟩ <;> simp [hf]

theorem base (hb : Base p s) (h : Called s call t) : Base p t :=
  hb.shrinks
    { started := by simp [State.Started, h.log]
      name := by simp [h.heap]
      coList := by rw [h.coList]
      undead := by simp [h.heap]
      unfreed := by simp [State.Freed, h.log]
      log := by rw [h.log]; exact List.Subset.refl _
      waited := by simp +contextual [State.Freed, h.log]
      waitStarted := by simpa [h.log] using hb.waitStarted
      current := by simpa [h.current] using hb.current
      stackOf := h.stackOf
      stackOK := h.stackOK hb
      traced := by rw [h.log]; exact h.traced hb
      enteredStarted := by simpa [State.Entered, h.log] using hb.enteredStarted
      waitLive := fun co fs hf => absurd hf (h.not_waitWaiting co fs) }

end Called

/-! ### `Base` -/

section
variable {p : Program} {s s' : State}

/-- The frames a step looks at are a good stack, accounted for by the history. -/
theorem Base.cpu_ok (hb : Base p s) {fs : List Frame} (hf : s.frames = fs) :
    StackOK s.cpu fs := hf ▸ hb.stackOf s.cpu

theorem Base.cpu_traced (hb : Base p s) {fs : List Frame} (hf : s.frames = fs) :
    Traced s.log s.cpu fs := hf ▸ hb.traced s.cpu

/-- One more `co_wait`, of a started coroutine. -/
theorem Base.waitStarted_insert (hb : Base p s) {co : Ptr} (hst : s.Started co) :
    ∀ d, d = co ∨ .waitCalled d ∈ s.log → s.Started d := by
  intro d hd
  rcases hd with rfl | hd
  · exact hst
  · exact hb.waitStarted d hd

/-- One more function entered, of a started coroutine. -/
theorem Base.enteredStarted_insert (hb : Base p s) {co : Ptr} (hst : s.Started co) {σ : StackId} :
    ∀ d, (∃ τ, (d = co ∧ τ = σ) ∨ .entered d τ ∈ s.log) → s.Started d := by
  intro d hd
  obtain ⟨τ, ⟨rfl, -⟩ | hd⟩ := hd
  · exact hst
  · exact hb.enteredStarted d ⟨τ, hd⟩

theorem base_start {t : State} {co : Ptr} (hb : Base p t)
    (htop : ∀ co fs, t.frames ≠ .waitWaiting co :: fs) (hn : ¬ t.Started co)
    (hnames : ∀ d, t.Started d → p.name d ≠ p.name co) : Base p (coStart p t co) := by
  have hstart : ∀ d, (coStart p t co).Started d ↔ d = co ∨ t.Started d := by
    simp [State.Started]
  have hfreed : ∀ d, (coStart p t co).Freed d ↔ t.Freed d := by simp [State.Freed]
  have hlist : ∀ d ∈ (coStart p t co).coList, d ∈ t.coList ∨ d = co := by simp
  have he := hb.enlisted.start hn hnames
  constructor
  case name => exact he.name
  case names => exact he.names
  case started => exact he.started
  case nodup => exact he.nodup
  case undead => exact he.undead
  case waitStarted => exact he.waitStarted
  case unfreed =>
    intro d hd hf
    rcases hlist d hd with hd | rfl
    · exact hb.unfreed d hd ((hfreed d).mp hf)
    · exact hn (hb.waitStarted d (hb.waited d ((hfreed d).mp hf)))
  case waited =>
    intro d hf
    exact List.mem_cons_of_mem _ (hb.waited d ((hfreed d).mp hf))
  case current =>
    intro d hd
    exact (hstart d).mpr (.inr (hb.current d hd))
  case stackOf => exact hb.stackOf
  case traced => exact fun σ => (hb.traced σ).mono (List.subset_cons_self _ _)
  case enteredStarted =>
    intro d h
    obtain ⟨σ, hd⟩ := h
    exact (hstart d).mpr (.inr (hb.enteredStarted d ⟨σ, by simpa using hd⟩))
  case waitLive => exact fun d fs hf => absurd hf (htop d fs)

/-- A return of `co_wait(co)`: `co` is unlinked and freed, and the frames `fs` are left. -/
theorem base_free {co : Ptr} {fs : List Frame} (hb : Base p s) (hcur : s.current = some co)
    (hcall : .waitCalled co ∈ s.log)
    (hlist : s'.coList = s.coList.eraseP fun d => decide ((s.heap d).name = (s.heap co).name))
    (hlog : s'.log = .waitReturned co :: .freed co :: s.log)
    (hname : ∀ d, (s'.heap d).name = (s.heap d).name)
    (hdead : ∀ d, d ≠ co → (s'.heap d).status = .dead → (s.heap d).status = .dead)
    (hnext : ∀ d, s'.current = some d → s.Started d)
    (hstack : ∀ σ, s'.stackOf σ = if σ = s.cpu then fs else s.stackOf σ)
    (hok : StackOK s.cpu fs) (htr : Traced s.log s.cpu fs)
    (hlive : ∀ d fs, s'.frames = .waitWaiting d :: fs → s'.Live) : Base p s' := by
  have hst := hb.current co hcur
  have hfreed : ∀ d, s'.Freed d ↔ d = co ∨ s.Freed d := by simp [State.Freed, hlog]
  have hne : ∀ d ∈ s'.coList, d ≠ co := by
    intro d hd
    exact (hb.mem_unlinked hst (hlist ▸ hd)).1
  exact hb.shrinks (τ := s.cpu) (X := fs)
    { started := by simp [State.Started, hlog]
      name := hname
      coList := hlist ▸ List.eraseP_sublist
      undead := fun d hd => hdead d (hne d hd)
      unfreed := fun d hd hf => ((hfreed d).mp hf).resolve_left (hne d hd)
      log := by
        rw [hlog]
        intro e he
        simp [he]
      waited := by
        intro d hd
        rcases (hfreed d).mp hd with rfl | hd
        · exact .inr (by simpa [hlog] using hcall)
        · exact .inl hd
      waitStarted := by simpa [hlog] using hb.waitStarted
      current := hnext
      stackOf := hstack
      stackOK := hok
      traced := by
        rw [hlog]
        exact (htr.push _).push _
      enteredStarted := by simpa [State.Entered, hlog] using hb.enteredStarted
      waitLive := hlive }

/-- Every move keeps `Base`. -/
theorem base_of_move (hI : Inv p s) (hm : Move p s s') : Base p s' := by
  have hb := hI.base
  cases hm with
  | start hc hn hnames => exact base_start (hc.base hb) hc.not_waitWaiting hn hnames
  | @yield co rest fs hf hl hcur =>
      obtain ⟨hent, htr⟩ : .entered co s.cpu ∈ s.log ∧ Traced s.log s.cpu fs := by
        simpa using hb.cpu_traced hf
      exact hb.shrinks (τ := s.cpu) (X := .yield s.yields :: .func co rest :: fs)
        { undead := by
            intro d hd
            by_cases h : d = co <;> simp [h]
          waitStarted := by simpa using hb.waitStarted
          current := by simpa using hb.current
          stackOK := .yieldFunc _ (hb.cpu_ok hf).setFunc
          traced := by simpa using ⟨hent, htr.push _⟩
          enteredStarted := by simpa [State.Entered] using hb.enteredStarted }
  | @waitDead t co hc hst hdead =>
      have hbt := hc.base hb
      exact hbt.shrinks (τ := t.cpu) (X := t.frames)
        { undead := by simp
          unfreed := by
            -- a dead coroutine is not on the list
            intro d hd hfr
            have hne : d ≠ co := by
              intro heq
              subst heq
              exact hbt.undead d (by simpa using hd) hdead
            simpa [State.Freed, hne] using hfr
          log := by
            intro e he
            simp [he]
          waitStarted := by simpa using hbt.waitStarted_insert hst
          current := by simpa using hst
          stackOf := by intro σ; by_cases h : σ = t.cpu <;> simp [h, State.frames]
          stackOK := hbt.stackOf t.cpu
          traced := (hbt.traced t.cpu).mono (by intro e he; simp [he])
          enteredStarted := by simpa [State.Entered] using hbt.enteredStarted
          waitLive := fun d fs hf => absurd hf (hc.not_waitWaiting d fs) }
  | @waitNew co rest fs hf hst hfr hcur hnew =>
      have htr : Traced s.log s.cpu fs := by simpa using hb.cpu_traced hf
      exact hb.shrinks (τ := s.cpu) (X := .func co (p.func co) :: .waitNew co :: .main rest :: fs)
        { undead := by
            intro d hd
            by_cases h : d = co <;> simp [h]
          waitStarted := by simpa using hb.waitStarted_insert hst
          current := by simpa using hst
          stackOK := .funcNew _ (.waitNew _ (hb.cpu_ok hf).setMain)
          traced := by simpa using (htr.push _).push _
          enteredStarted := by simpa [State.Entered] using hb.enteredStarted_insert hst }
  | @waitWaiting co rest fs hf hst hfr hcur hwt =>
      have htr : Traced s.log s.cpu fs := by simpa using hb.cpu_traced hf
      exact hb.shrinks (τ := s.cpu) (X := .yield s.yields :: .waitWaiting co :: .main rest :: fs)
        { undead := by
            intro d hd
            by_cases h : d = co <;> simp [h]
          waitStarted := by simpa using hb.waitStarted_insert hst
          current := by simpa using hst
          stackOK := .yieldWait _ (.waitWaiting _ (hb.cpu_ok hf).setMain)
          traced := by simpa using (htr.push _).push _
          enteredStarted := by simpa [State.Entered] using hb.enteredStarted }
  | @waitRunning co rest fs hf hst hcur hrun =>
      have htr : Traced s.log s.cpu fs := by simpa using hb.cpu_traced hf
      exact hb.shrinks (τ := s.cpu) (X := .main rest :: fs)
        { undead := by simp
          waitStarted := by simpa using hb.waitStarted_insert hst
          current := by simpa using hb.current
          stackOK := (hb.cpu_ok hf).setMain
          traced := by simpa using (htr.push _).push _
          enteredStarted := by simpa [State.Entered] using hb.enteredStarted }
  | @waitNested co old rest fs hf hst hfr hl hcur hdead =>
      obtain ⟨hent, htr⟩ : .entered old s.cpu ∈ s.log ∧ Traced s.log s.cpu fs := by
        simpa using hb.cpu_traced hf
      exact hb.shrinks (τ := s.cpu)
        (X := .func co (p.func co) :: .waitNested co old :: .func old rest :: fs)
        { undead := by
            intro d hd
            simp only [callFunc, State.record_heap, State.setFrames_heap, State.setCurrent_heap,
              State.setStatus_status]
            split
            · simp
            · split
              · simp
              · exact id
          waitStarted := by simpa using hb.waitStarted_insert hst
          current := by simpa using hst
          stackOK := .funcNested _ (.waitNested _ (hb.cpu_ok hf).setFunc)
          traced := by simpa [hent] using ((htr.push _).push _).push _
          enteredStarted := by simpa [State.Entered] using hb.enteredStarted_insert hst }
  | @ret co fs hf =>
      have htr : Traced s.log s.cpu fs := (by simpa using hb.cpu_traced hf : _ ∧ _).2
      have hok := (hb.cpu_ok hf).tail (by simp)
      exact hb.shrinks (τ := s.cpu) (X := fs)
        { undead := by simp
          waitStarted := by simpa using hb.waitStarted
          current := by simpa using hb.current
          stackOK := hok
          traced := htr.push _
          enteredStarted := by simpa [State.Entered] using hb.enteredStarted
          waitLive := by
            intro d fs' hf'
            exact absurd (by simpa using hf') ((hb.cpu_ok hf).under_func.1 d fs') }
  | @waitNewReturn co fs hf hl hcur =>
      obtain ⟨hcall, htr⟩ : .waitCalled co ∈ s.log ∧ Traced s.log s.cpu fs := by
        simpa using hb.cpu_traced hf
      have hok := hb.cpu_ok hf
      obtain ⟨rest, fs', rfl⟩ := hok.main_of_waitNew
      refine base_free hb hcur hcall (by simp) (by simp) (by simp) ?_ (by simp) ?_
        (hok.tail (by simp)) htr (by simp)
      · intro d hne
        simp [hne]
      · intro σ
        by_cases hσ : σ = s.cpu <;> simp [hσ]
  | @waitWaitingReturn co fs hf hl hcur =>
      obtain ⟨hcall, htr⟩ : .waitCalled co ∈ s.log ∧ Traced s.log s.cpu fs := by
        simpa using hb.cpu_traced hf
      have hok := hb.cpu_ok hf
      obtain ⟨rest, fs', rfl⟩ := hok.main_of_waitWaiting
      refine base_free hb hcur hcall (by simp) (by simp) (by simp) (by simp) (by simp) ?_
        (hok.tail (by simp)) htr (by simp)
      intro σ
      by_cases hσ : σ = s.cpu <;> simp [hσ]
  | @waitNestedReturn co old fs hf hl hcur =>
      obtain ⟨hcall, htr⟩ : .waitCalled co ∈ s.log ∧ Traced s.log s.cpu fs := by
        simpa using hb.cpu_traced hf
      have hok := hb.cpu_ok hf
      obtain ⟨rest, fs', rfl⟩ := hok.func_of_waitNested
      refine base_free hb hcur hcall (by simp) (by simp) (by simp) ?_ ?_ ?_
        (hok.tail (by simp)) htr (by simp)
      · intro d hne
        by_cases h : d = old
        · subst h
          simp [hne]
        · simp [h, hne]
      · simpa using hb.enteredStarted old ⟨s.cpu, htr.func List.mem_cons_self⟩
      · intro σ
        by_cases hσ : σ = s.cpu <;> simp [hσ]
  | @callback co hf hcpu hl hcur =>
      have hst := hb.current co hcur
      exact hb.shrinks (τ := s.cpu) (X := [.callbackLoop])
        { coList := by simp [List.eraseP_sublist]
          undead := by
            intro d hd
            have hne : d ≠ co := (hb.mem_unlinked hst (by simpa using hd)).1
            simp [hne]
          waitStarted := by simpa using hb.waitStarted
          current := by simpa using hb.current
          stackOf := by intro σ; by_cases h : σ = s.cpu <;> simp [h]
          stackOK := hcpu ▸ .callbackLoop co
          traced := by simp
          enteredStarted := by simpa [State.Entered] using hb.enteredStarted }
  | round hf => exact hb
  | @switch n fs co choice hf hl hcur hmem hnew =>
      have hch := hb.started choice hmem
      exact hb.shrinks (τ := .own choice) (X := [.func choice (p.func choice), .callback])
        { undead := by simp
          waitStarted := by simpa using hb.waitStarted
          current := by simpa using hch
          stackOK := .funcOwn _ _
          traced := by simp
          enteredStarted := by simpa [State.Entered] using hb.enteredStarted_insert hch }
  | @resume choice cur ctx fs htop hl hcur hmem hwt hctx hfs =>
      have hok : StackOK ctx.stack fs := (hfs ▸ hb.stackOf ctx.stack).tail (by simp)
      have htr := hb.traced ctx.stack
      rw [hfs, traced_cons] at htr
      exact hb.shrinks (τ := ctx.stack) (X := fs)
        { undead := by
            intro d hd
            by_cases h : d = choice <;> simp [h]
          waitStarted := by simpa using hb.waitStarted
          current := by simpa using hb.started choice hmem
          stackOK := hok
          traced := htr.2.push _
          enteredStarted := by simpa [State.Entered] using hb.enteredStarted
          waitLive := by
            intro d fs' _
            simpa [State.Live, State.Freed] using hb.unfreed choice hmem }

end

/-! ### `Core` -/

/-- What a step that does not call `setjmp` has to show to keep `Core`: it leaves the
running stack `τ` with the frames `X`, no activation of `co_yield` on top. -/
structure Lands (s s' : State) (τ : StackId) (X : List Frame) : Prop where
  cpu : s'.cpu = τ := by simp
  stackOf : ∀ σ, s'.stackOf σ = if σ = τ then X else s.stackOf σ := by
    intro σ; split <;> simp [*]
  top : ∀ n fs, X ≠ .yield n :: fs := by simp
  current : s'.current = owner τ X
  log : s.log ⊆ s'.log := by intro e he; simp [he]
  yields : s.yields = s'.yields := by simp
  context : ∀ co ctx, (s'.heap co).context = some ctx → (s.heap co).context = some ctx := by simp
  ownStack : ∀ co, τ = .own co → s'.Entered co
  unentered : ∀ co, s'.Started co → (s'.heap co).status = .new → s'.Entered co →
    s'.current = some co
  waited : ∀ co fs, X = .waitWaiting co :: fs → (s'.heap co).status ≠ .new := by simp
  looping : ∀ fs co, X = .callbackLoop :: fs → s'.current = some co →
    (s'.heap co).status = .dead := by simp

theorem Entered.mono {s s' : State} {co : Ptr} (h : s.Entered co) (hlog : s.log ⊆ s'.log) :
    s'.Entered co :=
  h.imp fun _ hm => hlog hm

theorem Core.lands {s s' : State} {τ : StackId} {X : List Frame} (hc : Core s)
    (h : Lands s s' τ X) : Core s' := by
  have hframes : s'.frames = X := by rw [State.frames, h.cpu, h.stackOf, if_pos rfl]
  constructor
  case current => rw [h.current, h.cpu, hframes]
  case contexts =>
    intro co ctx hctx
    obtain ⟨hlt, hown⟩ := hc.contexts co ctx (h.context co ctx hctx)
    refine ⟨h.yields ▸ hlt, fun fs hfs => ?_⟩
    rw [h.stackOf] at hfs
    split at hfs
    · exact absurd hfs (h.top _ _)
    · exact hown fs hfs
  case unentered => exact h.unentered
  case ownStack =>
    intro co hne
    rw [h.stackOf] at hne
    split at hne
    · next hτ => exact h.ownStack co hτ.symm
    · exact Entered.mono (hc.ownStack co hne) h.log
  case yielding => exact fun n fs co hf => absurd (hframes.symm.trans hf) (h.top n fs)
  case waited => exact fun co fs hf => h.waited co fs (hframes.symm.trans hf)
  case looping => exact fun fs co hf => h.looping fs co (hframes.symm.trans hf)

/-- `setjmp` on behalf of `current`, called by a frame that `co_yield` can lie on: `t` is
`s` with other frames on the running stack, and perhaps another `current`. -/
theorem core_setjmp {s t : State} {co : Ptr} (hc : Core s) (hne : s.frames ≠ [])
    (hcpu : t.cpu = s.cpu) (hheap : t.heap = s.heap) (hyields : t.yields = s.yields)
    (hlog : ∀ d, t.Entered d ↔ s.Entered d)
    (hstack : ∀ σ, σ ≠ s.cpu → t.stackOf σ = s.stackOf σ)
    (hcur : t.current = some co) (hown : owner t.cpu t.frames = some co)
    (hnew : ∀ d, t.Started d → (s.heap d).status = .new → s.Entered d → d = co) :
    Core (setjmp (t.setStatus co .waiting) co) := by
  constructor
  case current => simpa [owner, hown] using hcur
  case contexts =>
    intro d ctx hd
    by_cases hdc : d = co
    · obtain rfl : ctx = ⟨t.cpu, t.yields⟩ := by simpa [hdc] using hd.symm
      refine ⟨by simp, fun fs hfs => ?_⟩
      obtain rfl : t.frames = fs := by simpa using hfs
      rw [hdc, hown]
    · obtain ⟨hlt, hfs⟩ := hc.contexts d ctx (by simpa [hdc, hheap] using hd)
      rw [← hyields] at hlt
      refine ⟨Nat.lt_succ_of_lt hlt, fun fs hst => ?_⟩
      by_cases hσ : ctx.stack = t.cpu
      · -- the activation on top is the new one
        have : t.yields = ctx.yield ∧ t.frames = fs := by simpa [hσ] using hst
        omega
      · have hst' : t.stackOf ctx.stack = .yield ctx.yield :: fs := by simpa [hσ] using hst
        rw [hstack _ (hcpu ▸ hσ)] at hst'
        exact hfs fs hst'
  case unentered =>
    intro d hd hst hent
    by_cases hdc : d = co
    · simp [hdc] at hst
    · have hent' : t.Entered d := by simpa [State.Entered] using hent
      exact absurd (hnew d (by simpa [State.Started] using hd) (by simpa [hdc, hheap] using hst)
        ((hlog d).mp hent')) hdc
  case ownStack =>
    intro d hd
    have hent : s.Entered d := by
      by_cases hσ : StackId.own d = s.cpu
      · exact hc.ownStack d (by rw [hσ]; exact hne)
      · exact hc.ownStack d (by simpa [hcpu, hσ, hstack _ hσ] using hd)
    simpa [State.Entered] using (hlog d).mpr hent
  case yielding =>
    intro n fs d hf hd
    obtain rfl : co = d := by simpa [hcur] using hd
    simp
  case waited => simp
  case looping => simp

section
variable {p : Program} {s s' t : State}

/-- The running stack of a coroutine is not empty, so it was entered. -/
theorem Core.entered_cpu (hc : Core s) (hne : s.frames ≠ []) (co : Ptr)
    (hcpu : s.cpu = .own co) : s.Entered co :=
  hc.ownStack co (hcpu ▸ hne)

theorem Core.own_running (hc : Core s) (hne : s.frames ≠ []) (hlog : s.log ⊆ s'.log) (co : Ptr)
    (hcpu : s.cpu = .own co) : s'.Entered co :=
  Entered.mono (hc.entered_cpu hne co hcpu) hlog

/-- The coroutine a running frame of client code belongs to is not CO_NEW twice:
another one with status CO_NEW has not been entered. -/
theorem Core.not_entered (hc : Core s) {cur co : Ptr} (hcur : s.current = some cur)
    (hne : co ≠ cur) (hst : s.Started co) (hnew : (s.heap co).status = .new) :
    ¬ s.Entered co := by
  intro hent
  have := (hc.unentered co hst hnew hent).symm.trans hcur
  exact hne (Option.some.inj this)

/-- A CO_NEW coroutine that `co_yield` draws has not been entered: the caller, the only
one that could have been, is CO_WAITING. Its stack is empty. -/
theorem Core.fresh_choice (hc : Core s) {n : Nat} {fs : List Frame} {co choice : Ptr}
    (hf : s.frames = .yield n :: fs) (hcur : s.current = some co) (hst : s.Started choice)
    (hnew : (s.heap choice).status = .new) :
    ¬ s.Entered choice ∧ s.stackOf (.own choice) = [] := by
  have hne : choice ≠ co := by
    intro heq
    subst heq
    have := hc.yielding n fs choice hf hcur
    simp [hnew] at this
  have hent : ¬ s.Entered choice := hc.not_entered hcur hne hst hnew
  refine ⟨hent, ?_⟩
  by_contra h
  exact hent (hc.ownStack choice h)

/-- Every move that ends with `current` alive keeps `Core`. -/
theorem core_of_move (hI : Inv p s) (hm : Move p s s') (hl' : s'.Live) : Core s' := by
  have hb := hI.base
  cases hm with
  | @start t co hcall hn hnames =>
      have hl : s.Live := by
        simpa [State.Live, State.Freed, hcall.current, hcall.log] using hl'
      have hc := hI.core hl
      have hcl := hcall.frames
      refine hc.lands (τ := s.cpu) (X := t.frames)
        { cpu := hcall.cpu
          stackOf := hcall.stackOf
          top := by rcases hcl with ⟨_, _, hf⟩ | ⟨_, _, _, hf⟩ <;> simp [hf]
          current := by rw [coStart_current, hcall.current, hcall.owner_eq, hc.current]
          log := by simp [hcall.log]
          yields := by simp [hcall.yields]
          context := by
            intro d ctx hd
            by_cases h : d = co
            · simp [h] at hd
            · simpa [h, hcall.heap] using hd
          ownStack := by
            intro d hd
            simpa [State.Entered, hcall.log] using hc.entered_cpu hcall.frames_ne_nil d hd
          unentered := by
            intro d hd hst hent
            have hent' : s.Entered d := by simpa [State.Entered, hcall.log] using hent
            have hst' : s.Started d := hb.enteredStarted d hent'
            have hne : d ≠ co := by
              intro heq
              subst heq
              exact hn (by simpa [State.Started, hcall.log] using hst')
            rw [coStart_current, hcall.current]
            exact hc.unentered d hst' (by simpa [hne, hcall.heap] using hst) hent'
          waited := by rcases hcl with ⟨_, _, hf⟩ | ⟨_, _, _, hf⟩ <;> simp [hf]
          looping := by rcases hcl with ⟨_, _, hf⟩ | ⟨_, _, _, hf⟩ <;> simp [hf] }
  | @yield co rest fs hf hl hcur =>
      have hc := hI.core hl
      refine core_setjmp hc (by simp [hf]) (by simp) (by simp) (by simp) (by simp [State.Entered])
        (by simp +contextual) (by simpa using hcur) (by simp [owner]) ?_
      intro d hd hst hent
      have := hc.unentered d hd hst hent
      exact (Option.some.inj (hcur.symm.trans this)).symm
  | @waitDead t co hcall hst hdead =>
      exact absurd (hl' co (by simp)) (by simp [State.Freed])
  | @waitNew co rest fs hf hst hfr hcur hnew =>
      have hc := hI.core (by simp [State.Live, hcur])
      refine hc.lands (τ := s.cpu) (X := .func co (p.func co) :: .waitNew co :: .main rest :: fs)
        { current := by simp [owner]
          ownStack := hc.own_running (by simp [hf]) (by intro e he; simp [he])
          unentered := by
            intro d hd hst' hent
            by_cases h : d = co
            · simp [h]
            · have hent' : s.Entered d := by simpa [State.Entered, h] using hent
              have := hc.unentered d (by simpa [State.Started] using hd)
                (by simpa [h] using hst') hent'
              simp [hcur] at this }
  | @waitWaiting co rest fs hf hst hfr hcur hwt =>
      have hc := hI.core (by simp [State.Live, hcur])
      refine core_setjmp hc (by simp [hf]) (by simp) (by simp) (by simp) (by simp [State.Entered])
        (by simp +contextual) (by simp) (by simp [owner]) ?_
      intro d hd hst hent
      have := hc.unentered d (by simpa [State.Started] using hd) hst hent
      simp [hcur] at this
  | @waitRunning co rest fs hf hst hcur hrun =>
      have hc := hI.core (by simp [State.Live, hcur])
      refine hc.lands (τ := s.cpu) (X := .main rest :: fs)
        { current := by simpa [owner] using hcur
          ownStack := hc.own_running (by simp [hf]) (by simp)
          unentered := by
            simpa [State.Started, State.Entered] using hc.unentered }
  | @waitNested co old rest fs hf hst hfr hl hcur hdead =>
      have hc := hI.core hl
      refine hc.lands (τ := s.cpu)
        (X := .func co (p.func co) :: .waitNested co old :: .func old rest :: fs)
        { current := by simp [owner]
          ownStack := hc.own_running (by simp [hf]) (by intro e he; simp [he])
          unentered := by
            intro d hd hst' hent
            by_cases h : d = co
            · simp [h]
            · by_cases h' : d = old
              · subst h'
                simp [h] at hst'
              · have hent' : s.Entered d := by simpa [State.Entered, h] using hent
                exact absurd hent' (hc.not_entered hcur h' (by simpa [State.Started] using hd)
                  (by simpa [h, h'] using hst')) }
  | @ret co fs hf =>
      have hl : s.Live := by simpa [State.Live, State.Freed] using hl'
      have hc := hI.core hl
      have hok := hb.cpu_ok hf
      refine hc.lands (τ := s.cpu) (X := fs)
        { top := hok.under_func.2.2
          current := by
            rw [State.record_current, State.setFrames_current, hc.current, hf, owner,
              owner_ret hok]
          ownStack := hc.own_running (by simp [hf]) (by simp)
          unentered := by
            simpa [State.Started, State.Entered] using hc.unentered
          waited := fun d fs' h => absurd h (hok.under_func.1 d fs')
          looping := fun fs' d h => absurd h (hok.under_func.2.1 fs') }
  | @waitNewReturn co fs hf hl hcur =>
      have hc := hI.core hl
      obtain ⟨rest, fs', rfl⟩ := (hb.cpu_ok hf).main_of_waitNew
      refine hc.lands (τ := s.cpu) (X := .main rest :: fs')
        { current := by simp [owner]
          ownStack := hc.own_running (by simp [hf]) (by simp)
          unentered := by
            intro d hd hst hent
            by_cases h : d = co
            · simp [h] at hst
            · exact absurd (by simpa [State.Entered] using hent)
                (hc.not_entered hcur h (by simpa [State.Started] using hd)
                  (by simpa [h] using hst)) }
  | @waitWaitingReturn co fs hf hl hcur =>
      have hc := hI.core hl
      obtain ⟨rest, fs', rfl⟩ := (hb.cpu_ok hf).main_of_waitWaiting
      refine hc.lands (τ := s.cpu) (X := .main rest :: fs')
        { current := by simp [owner]
          ownStack := hc.own_running (by simp [hf]) (by simp)
          unentered := by
            -- the coroutine waited for is past CO_NEW, every other one is not running
            intro d hd hst hent
            have hst' : (s.heap d).status = .new := by simpa using hst
            by_cases h : d = co
            · exact absurd (h ▸ hst') (hc.waited co _ hf)
            · exact absurd (by simpa [State.Entered] using hent)
                (hc.not_entered hcur h (by simpa [State.Started] using hd) hst') }
  | @waitNestedReturn co old fs hf hl hcur =>
      have hc := hI.core hl
      obtain ⟨rest, fs', rfl⟩ := (hb.cpu_ok hf).func_of_waitNested
      refine hc.lands (τ := s.cpu) (X := .func old rest :: fs')
        { current := by simp [owner]
          ownStack := hc.own_running (by simp [hf]) (by simp)
          unentered := by
            intro d hd hst hent
            by_cases h : d = co
            · simp [h] at hst
            · by_cases h' : d = old
              · simp [h']
              · exact absurd (by simpa [State.Entered] using hent)
                  (hc.not_entered hcur h (by simpa [State.Started] using hd)
                    (by simpa [h, h'] using hst)) }
  | @callback co hf hcpu hl hcur =>
      have hc := hI.core hl
      refine hc.lands (τ := s.cpu) (X := [.callbackLoop])
        { current := by simpa [hcpu, owner] using hcur
          stackOf := by intro σ; by_cases h : σ = s.cpu <;> simp [h]
          ownStack := hc.own_running (by simp [hf]) (by simp)
          unentered := by
            intro d hd hst hent
            by_cases h : d = co
            · simp [h] at hst
            · exact absurd (by simpa [State.Entered] using hent)
                (hc.not_entered hcur h (by simpa [State.Started] using hd) (by simpa [h] using hst))
          looping := by
            intro fs d _ hd
            obtain rfl : co = d := by simpa [hcur] using hd
            simp }
  | round hf => exact hI.core hl'
  | @switch n fs co choice hf hl hcur hmem hnew =>
      have hc := hI.core hl
      refine hc.lands (τ := .own choice) (X := [.func choice (p.func choice), .callback])
        { current := by simp [owner]
          ownStack := by
            intro d hd
            obtain rfl : choice = d := by simpa using hd
            exact ⟨.own choice, by simp⟩
          unentered := by
            intro d hd hst hent
            by_cases h : d = choice
            · simp [h]
            · have hst' : (s.heap d).status = .new := by simpa using hst
              have hne : d ≠ co := by
                intro heq
                subst heq
                simp [hc.yielding n fs d hf hcur] at hst'
              exact absurd (by simpa [State.Entered, h] using hent)
                (hc.not_entered hcur hne (by simpa [State.Started] using hd) hst') }
  | @resume choice cur ctx fs htop hl hcur hmem hwt hctx hfs =>
      have hc := hI.core hl
      have hok : StackOK ctx.stack (.yield ctx.yield :: fs) := hfs ▸ hb.stackOf ctx.stack
      have hown : owner ctx.stack fs = some choice := (hc.contexts choice ctx hctx).2 fs hfs
      -- the coroutine that leaves is CO_WAITING or CO_DEAD
      have hleave : (s.heap cur).status ≠ .new := by
        rcases htop with ⟨n, fs', hf⟩ | ⟨fs', hf⟩
        · simp [hc.yielding n fs' cur hf hcur]
        · simp [hc.looping fs' cur hf hcur]
      refine hc.lands (τ := ctx.stack) (X := fs)
        { top := by rcases hok.under_yield with ⟨_, _, _, rfl⟩ | ⟨_, _, rfl⟩ <;> simp
          current := by simp [hown]
          ownStack := by
            intro d hd
            have := hc.ownStack d (by rw [← hd, hfs]; simp)
            simpa [State.Entered] using this
          unentered := by
            intro d hd hst hent
            by_cases h : d = choice
            · simp [h]
            · have hst' : (s.heap d).status = .new := by simpa [h] using hst
              have hne : d ≠ cur := by
                intro heq
                subst heq
                exact hleave hst'
              exact absurd (by simpa [State.Entered] using hent)
                (hc.not_entered hcur hne (by simpa [State.Started] using hd) hst')
          waited := by
            intro d fs' heq
            subst heq
            obtain rfl : d = choice := by simpa [owner] using hown
            simp
          looping := by
            intro fs' d heq
            subst heq
            rcases hok.under_yield with ⟨_, _, _, h⟩ | ⟨_, _, h⟩ <;> simp at h }

theorem inv_of_move (hI : Inv p s) (hm : Move p s s') : Inv p s' :=
  ⟨base_of_move hI hm, core_of_move hI hm⟩

/-- A program starts in a state with the invariant. -/
theorem inv_init (p : Program) : Inv p (State.init p) where
  base :=
    { name := by simp [State.Started, State.init]
      names := by simp [State.Started, State.init]
      started := by simp [State.init]
      nodup := by simp [State.init]
      undead := by simp [State.init]
      unfreed := by simp [State.init]
      waited := by simp [State.Freed, State.init]
      waitStarted := by simp [State.init]
      current := by simp [State.init]
      stackOf := by
        intro σ
        cases σ with
        | main => simpa [State.init] using StackOK.main p.main
        | own co => simpa [State.init] using StackOK.empty co
      traced := by
        intro σ
        cases σ <;> simp [State.init]
      enteredStarted := by simp [State.Entered, State.init]
      waitLive := by simp [State.init, State.frames] }
  core _ :=
    { current := by simp [State.init, State.frames, owner]
      contexts := by simp [State.init]
      unentered := by simp [State.Entered, State.init]
      ownStack := by simp [State.init]
      yielding := by simp [State.init, State.frames]
      waited := by simp [State.init, State.frames]
      looping := by simp [State.init, State.frames] }

/-- The invariant rule of the library: a property of runs in which no step reads a
dangling `current` may be proved move by move, with the invariant at hand. -/
theorem invariant_of_moves {p : Program} {ok : State → Nat → Prop} {J : State → Prop}
    (hok : ∀ s draw, ok s draw → NoDangling s) (init : J (State.init p))
    (step : ∀ s draw s', Inv p s → J s → ok s draw → Move p s s' → J s') :
    (machine p).Invariant ok fun s => Inv p s ∧ J s := by
  have hinv : (machine p).Invariant ok (Inv p) :=
    { init := by
        intro s hs
        subst hs
        exact inv_init p
      step := fun s draw s' hI hg h => inv_of_move hI (move_of_step hI (hok s draw hg) h.1 h.2) }
  refine hinv.and ?_ fun s draw s' hI hJ hg h => ?_
  · intro s hs
    subst hs
    exact init
  · exact step s draw s' hI hJ hg (move_of_step hI (hok s draw hg) h.1 h.2)

end

end OsLabs.Libco
