import Mathlib.Data.List.Nodup
import OsLabs.Libco.Pool

/-!
# OsLabs.Libco.Starved

Does `rand_choose` of `libco/co.c` find a coroutine in the pool?

While `main` waits for a coroutine that `co_wait` runs by a call, that coroutine is on
the process stack, and it is in the pool: whenever control is elsewhere it is
CO_WAITING, and every call of `rand_choose` can choose it. When `main` calls `co_wait`
on a coroutine that is CO_WAITING already, `co_wait` yields instead, and what is
suspended on the process stack is `main` itself (`Phase.lost`). Its descriptor
`current_co` is not in the pool: nothing ever resumes it (`lost_forever`), and the last
coroutine to finish leaves `rand_choose` with nothing to find
(`not_rand_choose_finds_candidate`).
-/

namespace OsLabs.Libco.Pool

/-! ### The invariant -/

/-- What `main` is doing. -/
inductive Phase
  /-- It is running. -/
  | calm
  /-- It waits for a coroutine that `co_wait` has called. -/
  | awaiting (co : Ptr)
  /-- It has yielded in `co_wait`. -/
  | lost
  deriving DecidableEq

/-- The descriptor of the code on top of the process stack. -/
def Phase.top : Phase → Ref
  | .awaiting co => .co co
  | _ => .currentCo

/-- The frames of a coroutine's own stack. -/
inductive OwnFrames (co : Ptr) : List Frame → Prop
  | empty : OwnFrames co []
  | func {n : Nat} : OwnFrames co [.func co n, .callback]
  | yield {k n : Nat} : OwnFrames co [.yield k, .func co n, .callback]
  | callback : OwnFrames co [.callback]
  | callbackLoop : OwnFrames co [.callbackLoop]

/-- The frames of the process stack, above `main`. -/
inductive MainFrames (rest : List Call) : Phase → List Frame → Prop
  | main : MainFrames rest .calm [.main rest]
  | func {co : Ptr} {n : Nat} :
      MainFrames rest (.awaiting co) [.func co n, .waitCall co, .main rest]
  | yield {co : Ptr} {k n : Nat} :
      MainFrames rest (.awaiting co) [.yield k, .func co n, .waitCall co, .main rest]
  | waitCall {co : Ptr} : MainFrames rest (.awaiting co) [.waitCall co, .main rest]
  | lost {k : Nat} : MainFrames rest .lost [.yield k, .waitYield, .main rest]

/-- The code on top of the stack is in `co_yield`. -/
def Suspended (fs : List Frame) : Prop := ∃ k below, fs = .yield k :: below

/-- The record is that of a coroutine which `main` starts. -/
def Known (p : Program) (s : State) (co : Ptr) : Prop :=
  co ∈ p.starts ∧ (s.heap (.co co)).name = some (p.name co)

/-- What holds of the record of a coroutine, whoever is running. -/
structure Record (p : Program) (φ : Phase) (s : State) (co : Ptr) : Prop where
  known : some co ∈ s.pool → Known p s co
  alive : (s.heap (.co co)).status ≠ .dead → some co ∈ s.pool
  fresh : (s.heap (.co co)).status = .new → (s.heap (.co co)).context = none
  /-- A suspended coroutine is on its own stack, but for the one that `main` waits for. -/
  context : ∀ ctx, (s.heap (.co co)).status = .waiting → (s.heap (.co co)).context = some ctx →
    ctx.stack = if φ = .awaiting co then .main else .own co
  awaited : φ = .awaiting co →
    ((s.heap (.co co)).status = .running ∨ (s.heap (.co co)).status = .waiting) ∧
      (s.heap (.co co)).waiter = some .currentCo

/-- What holds of the records and the stacks. -/
structure Base (p : Program) (φ : Phase) (s : State) : Prop where
  record : ∀ co, Record p φ s co
  own : ∀ co, OwnFrames co (s.stackOf (.own co))
  main : ∃ rest, (∀ co, .start co ∈ rest → co ∈ p.starts) ∧
    MainFrames rest φ (s.stackOf .main)

/-- The coroutine is in `co_yield` on the process stack, and `longjmp` finds it there. -/
def OnProcessStack (s : State) (co : Ptr) : Prop :=
  (s.heap (.co co)).status = .waiting ∧ ∃ k below, s.stackOf .main = .yield k :: below ∧
    (s.heap (.co co)).context = some ⟨.main, k⟩

/-- Who is running, and where the coroutine that `main` waits for is otherwise. -/
structure Control (p : Program) (φ : Phase) (s : State) : Prop where
  place : (s.cpu = .main ∧ s.current = φ.top) ∨
    ∃ co, s.cpu = .own co ∧ s.current = .co co ∧ φ ≠ .awaiting co ∧ Known p s co ∧
      Suspended (s.stackOf .main) ∧
      ((s.heap (.co co)).status ≠ .dead ∨ s.stackOf (.own co) = [.callbackLoop])
  waiting : ∀ co, φ = .awaiting co → Suspended (s.stackOf .main) → OnProcessStack s co

section
variable {p : Program} {φ φ' : Phase} {s s' t : State} {co choice : Ptr} {draw : Nat}

theorem Program.Valid.name_inj (hp : p.Valid) {d : Ptr} (hco : co ∈ p.starts)
    (hd : d ∈ p.starts) (h : p.name co = p.name d) : co = d :=
  List.inj_on_of_nodup_map hp.names hco hd h

/-- A step that does not touch the record. -/
theorem Record.congr (h : Record p φ s co) (hheap : t.heap (.co co) = s.heap (.co co))
    (hpool : some co ∈ t.pool ↔ some co ∈ s.pool) (hφ : φ' = .awaiting co ↔ φ = .awaiting co) :
    Record p φ' t co where
  known hmem := by
    rw [Known, hheap]
    exact h.known (hpool.mp hmem)
  alive hst := hpool.mpr (h.alive (hheap ▸ hst))
  fresh := by
    rw [hheap]
    exact h.fresh
  context := by
    rw [hheap]
    simpa only [hφ] using h.context
  awaited := by
    rw [hheap, hφ]
    exact h.awaited

/-- Who runs on the process stack, -/
theorem Control.on_main (hC : Control p φ s) (hcpu : s.cpu = .main) : s.current = φ.top := by
  rcases hC.place with hplace | ⟨d, hd, -⟩
  · exact hplace.2
  · exact absurd (hcpu.symm.trans hd) (by simp)

/-- and on that of a coroutine. -/
theorem Control.on_own (hC : Control p φ s) (hcpu : s.cpu = .own co) :
    s.current = .co co ∧ φ ≠ .awaiting co ∧ Known p s co ∧ Suspended (s.stackOf .main) ∧
      ((s.heap (.co co)).status ≠ .dead ∨ s.stackOf (.own co) = [.callbackLoop]) := by
  rcases hC.place with ⟨hcpu', -⟩ | ⟨d, hd, hrest⟩
  · exact absurd (hcpu.symm.trans hcpu') (by simp)
  · obtain rfl : co = d := by simpa [hcpu] using hd
    exact hrest

/-- Control is back with what is on top of the process stack, -/
theorem Control.of_main (hcpu : s.cpu = .main) (hcur : s.current = φ.top)
    (hrun : ¬ Suspended (s.stackOf .main)) : Control p φ s :=
  ⟨.inl ⟨hcpu, hcur⟩, fun _ _ hsus => absurd hsus hrun⟩

/-- or with a coroutine that `main` does not wait for. -/
theorem Control.of_own (hcpu : s.cpu = .own co) (hcur : s.current = .co co)
    (hne : φ ≠ .awaiting co) (hknown : Known p s co) (hsus : Suspended (s.stackOf .main))
    (hlive : (s.heap (.co co)).status ≠ .dead ∨ s.stackOf (.own co) = [.callbackLoop])
    (hwait : ∀ d, φ = .awaiting d → d ≠ co → OnProcessStack s d) : Control p φ s :=
  ⟨.inr ⟨co, hcpu, hcur, hne, hknown, hsus, hlive⟩,
    fun d hd _ => hwait d hd fun heq => hne (heq ▸ hd)⟩

/-! ### `co_delete` -/

theorem mem_of_deleteLoop {heap : Ref → Co} {name : Option String}
    {pool pool' : List (Option Ptr)} (h : deleteLoop heap name pool = some pool') :
    (∀ q, some q ∈ pool' → some q ∈ pool) ∧
      ∀ q, some q ∈ pool → (heap (.co q)).name ≠ name → some q ∈ pool' := by
  induction pool generalizing pool' with
  | nil =>
      obtain rfl := Option.some.inj h
      exact ⟨fun _ hq => hq, fun _ hq _ => hq⟩
  | cons slot rest ih =>
      cases slot with
      | none => exact absurd h (by simp [deleteLoop])
      | some d =>
          rw [deleteLoop] at h
          split at h
          · next hname =>
            obtain rfl := Option.some.inj h
            refine ⟨?_, ?_⟩
            · intro q hq
              exact List.mem_cons_of_mem _ (by simpa using hq)
            · intro q hq hne
              rcases List.mem_cons.mp hq with heq | hq
              · obtain rfl := Option.some.inj heq
                exact absurd hname hne
              · exact List.mem_cons_of_mem _ hq
          · obtain ⟨rest', hrest, rfl⟩ := Option.map_eq_some_iff.mp h
            obtain ⟨hsub, hkeep⟩ := ih hrest
            refine ⟨?_, ?_⟩
            · intro q hq
              rcases List.mem_cons.mp hq with heq | hq
              · exact heq ▸ List.mem_cons_self
              · exact List.mem_cons_of_mem _ (hsub q hq)
            · intro q hq hne
              rcases List.mem_cons.mp hq with heq | hq
              · exact heq ▸ List.mem_cons_self
              · exact List.mem_cons_of_mem _ (hkeep q hq hne)

/-- A coroutine that is dead leaves the pool, and no other does. -/
theorem mem_pool_of_delete (hp : p.Valid) (hB : Base p φ s) (hco : Known p s co)
    {pool : List (Option Ptr)} {d : Ptr}
    (hdel : deleteLoop (s.setStatus (.co co) .dead).heap (s.heap (.co co)).name s.pool =
      some pool) (hdc : d ≠ co) : some d ∈ pool ↔ some d ∈ s.pool := by
  obtain ⟨hsub, hkeep⟩ := mem_of_deleteLoop hdel
  refine ⟨?_, ?_⟩
  · exact hsub d
  · intro hmem
    have hd := (hB.record d).known hmem
    refine hkeep d hmem fun heq => hdc ?_
    rw [State.setStatus_name, hd.2, hco.2, Option.some.injEq] at heq
    exact hp.name_inj hd.1 hco.1 heq

/-! ### Switching -/

/-- A change of the stacks only. -/
theorem Base.of_stacks (hB : Base p φ s) (hheap : t.heap = s.heap) (hpool : t.pool = s.pool)
    (hown : ∀ co, OwnFrames co (t.stackOf (.own co)))
    (hmain : ∃ rest, (∀ co, .start co ∈ rest → co ∈ p.starts) ∧
      MainFrames rest φ (t.stackOf .main)) : Base p φ t where
  record d := (hB.record d).congr (by rw [hheap]) (by rw [hpool]) .rfl
  own := hown
  main := hmain

theorem unwind_own {n : Nat} {fs below : List Frame} (h : OwnFrames co fs)
    (hu : unwind n fs = some below) : ∃ m, below = [.func co m, .callback] := by
  cases h with
  | @yield k m =>
      by_cases hk : k = n
      · exact ⟨m, by simpa [unwind, hk, eq_comm] using hu⟩
      · simp [unwind, hk] at hu
  | empty | func | callback | callbackLoop => simp [unwind] at hu

theorem unwind_main {n : Nat} {rest : List Call} {fs below : List Frame}
    (h : MainFrames rest (.awaiting co) fs) (hu : unwind n fs = some below) :
    ∃ m, below = [.func co m, .waitCall co, .main rest] := by
  cases h with
  | @yield _ k m =>
      by_cases hk : k = n
      · exact ⟨m, by simpa [unwind, hk, eq_comm] using hu⟩
      · simp [unwind, hk] at hu
  | func | waitCall => simp [unwind] at hu

/-- Back in a coroutine that was suspended. -/
theorem inv_of_longjmp (hB : Base p φ t) (hsus : Suspended (t.stackOf .main))
    (hchoice : Known p t choice) (halive : (t.heap (.co choice)).status ≠ .dead)
    (hctx : ∀ ctx, (t.heap (.co choice)).context = some ctx →
      ctx.stack = if φ = .awaiting choice then .main else .own choice)
    (hwait : ∀ co, φ = .awaiting co → co ≠ choice → OnProcessStack t co)
    (hs : longjmp t choice = .next s') : Base p φ s' ∧ Control p φ s' := by
  rw [longjmp] at hs
  split at hs
  · exact absurd hs (by simp)
  · next ctx hcontext =>
    split at hs
    · exact absurd hs (by simp)
    · next fs hfs =>
      obtain rfl := Outcome.next.inj hs
      have hstack := hctx ctx hcontext
      obtain ⟨rest, hrest, hmain⟩ := hB.main
      by_cases hφ : φ = .awaiting choice
      · -- the one that `main` waits for, on the process stack
        rw [if_pos hφ] at hstack
        subst hφ
        rw [hstack] at hfs
        obtain ⟨m, rfl⟩ := unwind_main hmain hfs
        refine ⟨hB.of_stacks rfl rfl ?_ ⟨rest, hrest, ?_⟩, .of_main hstack rfl ?_⟩
        · intro co
          simpa [hstack] using hB.own co
        · simpa [hstack] using .func
        · rintro ⟨k, below, hk⟩
          simp [hstack] at hk
      · rw [if_neg hφ] at hstack
        rw [hstack] at hfs
        obtain ⟨m, rfl⟩ := unwind_own (hB.own choice) hfs
        refine ⟨hB.of_stacks rfl rfl ?_ ⟨rest, hrest, ?_⟩,
          .of_own hstack rfl hφ hchoice ?_ (.inl halive) ?_⟩
        · intro co
          by_cases hco : co = choice
          · subst hco
            simpa [hstack] using .func
          · simpa [hstack, hco] using hB.own co
        · simpa [hstack] using hmain
        · simpa [hstack] using hsus
        · intro co hco hne
          simpa [OnProcessStack, hstack] using hwait co hco hne

theorem eligible_iff : s.eligible co = true ↔
    (s.heap (.co co)).status = .new ∨ (s.heap (.co co)).status = .waiting := by
  simp [State.eligible]

/-- What `rand_choose` returns is in the pool and passes its test. -/
theorem randChoose_mem (h : randChoose s draw = some co) :
    some co ∈ s.pool ∧ s.eligible co = true := by
  have hcand : ∀ {i : Nat} {d : Ptr}, s.candidate i = some d →
      some d ∈ s.pool ∧ s.eligible d = true := by
    intro i d hd
    rw [State.candidate] at hd
    split at hd
    · next q hq =>
      split at hd
      · next hel =>
        obtain rfl := Option.some.inj hd
        exact ⟨List.mem_of_getElem? hq, hel⟩
      · exact absurd hd (by simp)
    · exact absurd hd (by simp)
  rw [randChoose] at h
  split at h
  · next hc => exact hcand (hc.trans h)
  · split at h
    · next hc =>
      split at hc
      · exact hcand (hc.trans h)
      · exact absurd hc (by simp)
    · split at h
      · exact hcand h
      · exact absurd h (by simp)

/-- A candidate can be drawn. -/
theorem exists_draw (hmem : some co ∈ s.pool) (hel : s.eligible co = true) :
    ∃ draw, randChoose s draw = some co := by
  obtain ⟨i, hi⟩ := List.mem_iff_getElem?.mp hmem
  obtain ⟨hlt, -⟩ := List.getElem?_eq_some_iff.mp hi
  refine ⟨i, ?_⟩
  have hcand : s.candidate i = some co := by simp [State.candidate, hi, hel]
  simp [randChoose, Nat.mod_eq_of_lt hlt, hcand]

theorem Base.setRunning (hB : Base p φ s) (hmem : some choice ∈ s.pool) :
    Base p φ (s.setStatus (.co choice) .running) where
  record d := by
    by_cases hdc : d = choice
    · subst hdc
      have hd := hB.record d
      constructor
      case known =>
        intro hmem
        exact ⟨(hd.known hmem).1, by simpa using (hd.known hmem).2⟩
      case alive => exact fun _ => hmem
      case awaited =>
        intro hφ
        exact ⟨.inl (by simp), by simpa using (hd.awaited hφ).2⟩
      all_goals simp
    · exact (hB.record d).congr (by simp [State.setStatus, hdc]) .rfl .rfl
  own := hB.own
  main := hB.main

/-- `co_yield` goes on with what `rand_choose` has returned. -/
theorem inv_of_switchTo (hB : Base p φ s) (hC : Control p φ s)
    (hsus : Suspended (s.stackOf .main)) (hmem : some choice ∈ s.pool)
    (hs : switchTo p s choice = .next s') : Base p φ s' ∧ Control p φ s' := by
  have hB' := hB.setRunning hmem
  have hchoice : Known p (s.setStatus (.co choice) .running) choice :=
    (hB'.record choice).known hmem
  rw [switchTo] at hs
  split at hs
  · next hnew =>
    obtain rfl := Outcome.next.inj hs
    have hφ : φ ≠ .awaiting choice := by
      intro hφ
      rcases ((hB.record choice).awaited hφ).1 with h | h
      · exact absurd (hnew.symm.trans h) (by simp)
      · exact absurd (hnew.symm.trans h) (by simp)
    refine ⟨hB'.of_stacks rfl rfl ?_ ?_, .of_own rfl rfl hφ hchoice ?_ (.inl (by simp)) ?_⟩
    · intro co
      by_cases hco : co = choice
      · subst hco
        simpa using .func
      · simpa [hco] using hB.own co
    · simpa using hB.main
    · simpa using hsus
    · intro co hco hne
      simpa [OnProcessStack, hne] using hC.waiting co hco hsus
  · next hwaiting =>
    refine inv_of_longjmp hB' (by simpa using hsus) hchoice (by simp) ?_ ?_ hs
    · intro ctx hctx
      exact (hB.record choice).context ctx hwaiting (by simpa using hctx)
    · intro co hco hne
      simpa [OnProcessStack, hne] using hC.waiting co hco hsus
  · exact absurd hs (by simp)

/-- `co_yield` leaves a context behind. -/
theorem Base.coYield (hB : Base p φ s) (hcur : s.current = .co co)
    (halive : (s.heap (.co co)).status ≠ .dead)
    (hhome : s.cpu = if φ = .awaiting co then .main else .own co)
    (hown : ∀ d, OwnFrames d ((coYield s).stackOf (.own d)))
    (hmain : ∃ rest, (∀ co, .start co ∈ rest → co ∈ p.starts) ∧
      MainFrames rest φ ((coYield s).stackOf .main)) : Base p φ (coYield s) where
  record d := by
    by_cases hdc : d = co
    · subst hdc
      have hd := hB.record d
      constructor
      case known => simpa [Known, Pool.coYield, hcur] using hd.known
      case alive => exact fun _ => hd.alive halive
      case fresh => simp [Pool.coYield, hcur]
      case context =>
        intro ctx _ hctx
        obtain rfl : ⟨s.cpu, s.yields⟩ = ctx := by simpa [Pool.coYield, hcur] using hctx
        exact hhome
      case awaited =>
        intro hφ
        simpa [Pool.coYield, hcur] using (hd.awaited hφ).2
    · exact (hB.record d).congr (by simp [Pool.coYield, hcur, hdc]) .rfl .rfl
  own := hown
  main := hmain

/-! ### The steps of `main` -/

theorem not_suspended_main {rest : List Call} : ¬ Suspended [.main rest] := by
  rintro ⟨k, below, h⟩
  exact absurd h (by simp)

/-- The rest of `main` after a call. -/
theorem Base.next_call {rest : List Call} {call : Call} (hB : Base p .calm s)
    (hcpu : s.cpu = .main) (hmain : s.stackOf .main = [.main (call :: rest)]) :
    Base p .calm (s.setFrames [.main rest]) ∧ ∀ co, .start co ∈ call :: rest → co ∈ p.starts := by
  obtain ⟨rest', hrest, hshape⟩ := hB.main
  rw [hmain] at hshape
  cases hshape
  refine ⟨hB.of_stacks rfl rfl ?_ ⟨rest, ?_, ?_⟩, hrest⟩
  · intro co
    simpa [hcpu] using hB.own co
  · intro co hco
    exact hrest co (List.mem_cons_of_mem _ hco)
  · simpa [hcpu] using .main

theorem inv_of_coStart (hB : Base p .calm s) (hcpu : s.cpu = .main)
    (hcur : s.current = .currentCo) (hrun : ¬ Suspended (s.stackOf .main)) (hco : co ∈ p.starts)
    (hs : coStart p s co = .next s') : Base p .calm s' ∧ Control p .calm s' := by
  rw [coStart] at hs
  split at hs
  · obtain rfl := Outcome.next.inj hs
    refine ⟨⟨fun d => ?_, hB.own, hB.main⟩, .of_main hcpu hcur hrun⟩
    by_cases hdc : d = co
    · subst hdc
      constructor
      case known => exact fun _ => ⟨hco, by simp⟩
      all_goals simp
    · exact (hB.record d).congr (by simp [hdc]) (by simp [hdc]) .rfl
  · exact absurd hs (by simp)

/-- `co_wait` on a coroutine that has not run calls it. -/
theorem inv_of_currentXchg {rest : List Call} (hB : Base p .calm s) (hcpu : s.cpu = .main)
    (hcur : s.current = .currentCo) (hmain : s.stackOf .main = [.main rest])
    (halive : (s.heap (.co co)).status ≠ .dead) :
    Base p (.awaiting co)
        ((currentXchg s co).setFrames (.func co (p.func co) :: .waitCall co :: s.frames)) ∧
      Control p (.awaiting co)
        ((currentXchg s co).setFrames (.func co (p.func co) :: .waitCall co :: s.frames)) := by
  obtain ⟨rest', hrest, hshape⟩ := hB.main
  rw [hmain] at hshape
  cases hshape
  have hframes : s.frames = [.main rest] := by rw [State.frames, hcpu, hmain]
  have hxcpu : (currentXchg s co).cpu = .main := hcpu
  have hxstack : (currentXchg s co).stackOf = s.stackOf := rfl
  refine ⟨⟨fun d => ?_, fun d => ?_, rest, hrest, ?_⟩, .of_main hxcpu rfl ?_⟩
  · by_cases hdc : d = co
    · subst hdc
      have hd := hB.record d
      constructor
      case known => simpa [Known, currentXchg, hcur] using hd.known
      case alive => exact fun _ => hd.alive halive
      all_goals simp [currentXchg, hcur]
    · refine (hB.record d).congr ?_ .rfl (by simp [Ne.symm hdc])
      simp [currentXchg, State.setStatus, hcur, hdc]
  · simpa [hxcpu, hxstack] using hB.own d
  · simpa [hxcpu, hframes] using .func
  · rintro ⟨k, below, hk⟩
    simp [hxcpu] at hk

/-- `co_wait` on a coroutine that is suspended suspends `main`. -/
theorem inv_of_lost {rest : List Call} (hB : Base p .calm s) (hcpu : s.cpu = .main)
    (hcur : s.current = .currentCo) (hmain : s.stackOf .main = [.main rest]) :
    Base p .lost (coYield (s.setFrames (.waitYield :: s.frames))) ∧
      Control p .lost (coYield (s.setFrames (.waitYield :: s.frames))) := by
  obtain ⟨rest', hrest, hshape⟩ := hB.main
  rw [hmain] at hshape
  cases hshape
  refine ⟨⟨fun d => ?_, fun d => ?_, rest, hrest, ?_⟩, .inl ⟨hcpu, hcur⟩, by simp⟩
  · exact (hB.record d).congr (by simp [coYield, hcur]) .rfl (by simp)
  · simpa [coYield, hcpu] using hB.own d
  · simpa [coYield, hcpu, hmain, State.frames] using .lost

/-! ### One step -/

/-- `main` calls `co_wait` on a coroutine that is CO_WAITING. -/
def waitsOnWaiting (s : State) : Bool :=
  match s.frames with
  | .main (.wait co :: _) :: _ => (s.heap (.co co)).status = .waiting
  | _ => false

/-- `main` runs. -/
theorem inv_of_main {rest : List Call} (hB : Base p .calm s) (hC : Control p .calm s)
    (hcpu : s.cpu = .main) (hmain : s.stackOf .main = [.main rest])
    (hs : step p s draw = .next s') :
    ∃ φ', Base p φ' s' ∧ Control p φ' s' ∧ (φ' = .lost ↔ waitsOnWaiting s = true) := by
  have hcur : s.current = .currentCo := hC.on_main hcpu
  have hframes : s.frames = [.main rest] := by rw [State.frames, hcpu, hmain]
  rw [step, hframes] at hs
  cases rest with
  | nil => exact absurd hs (by simp)
  | cons call rest =>
      obtain ⟨hB', hstarts⟩ := hB.next_call hcpu hmain
      have hmain' : (s.setFrames [.main rest]).stackOf .main = [.main rest] := by simp [hcpu]
      have hrun : ¬ Suspended ((s.setFrames [.main rest]).stackOf .main) := by
        rw [hmain']
        exact not_suspended_main
      have hC' : Control p .calm (s.setFrames [.main rest]) := .of_main hcpu hcur hrun
      cases call with
      | start co =>
          obtain ⟨hB'', hC''⟩ := inv_of_coStart hB' hcpu hcur hrun (hstarts co (by simp)) hs
          exact ⟨.calm, hB'', hC'', by simp [waitsOnWaiting, hframes]⟩
      | wait co =>
          obtain rfl := Outcome.next.inj hs
          rw [coWait]
          split
          · next hst =>
            have hst' : (s.heap (.co co)).status = .dead := hst
            exact ⟨.calm, hB', hC', by simp [waitsOnWaiting, hframes, hst']⟩
          · next hst =>
            obtain ⟨hB'', hC''⟩ := inv_of_lost hB' hcpu hcur hmain'
            exact ⟨.lost, hB'', hC'', by simpa [waitsOnWaiting, hframes] using hst⟩
          · next hst hne =>
            obtain ⟨hB'', hC''⟩ := inv_of_currentXchg hB' hcpu hcur hmain' hst
            exact ⟨.awaiting co, hB'', hC'', by simpa [waitsOnWaiting, hframes] using hne⟩

/-- A round of `rand_choose` in `co_yield`. -/
theorem inv_of_yield {k : Nat} {below : List Frame} (hB : Base p φ s) (hC : Control p φ s)
    (hsus : Suspended (s.stackOf .main)) (hframes : s.frames = .yield k :: below)
    (hs : step p s draw = .next s') : Base p φ s' ∧ Control p φ s' := by
  rw [step, hframes] at hs
  simp only at hs
  split at hs
  · exact absurd hs (by simp)
  · split at hs
    · obtain rfl := Outcome.next.inj hs
      exact ⟨hB, hC⟩
    · next choice hchoice =>
      exact inv_of_switchTo hB hC hsus (randChoose_mem hchoice).1 hs

/-- A coroutine is finished. -/
theorem Base.finish {pool : List (Option Ptr)} (hp : p.Valid) (hB : Base p φ s)
    (hco : Known p s co)
    (hdel : deleteLoop (s.setStatus (.co co) .dead).heap (s.heap (.co co)).name s.pool = some pool)
    (hheap : t.heap = (s.setStatus (.co co) .dead).heap) (hpool : t.pool = pool)
    (hφ : ∀ d, d ≠ co → (φ' = .awaiting d ↔ φ = .awaiting d)) (hφco : φ' ≠ .awaiting co)
    (hown : ∀ d, OwnFrames d (t.stackOf (.own d)))
    (hmain : ∃ rest, (∀ d, .start d ∈ rest → d ∈ p.starts) ∧
      MainFrames rest φ' (t.stackOf .main)) : Base p φ' t := by
  refine ⟨fun d => ?_, hown, hmain⟩
  by_cases hdc : d = co
  · subst hdc
    constructor
    case known => exact fun _ => ⟨hco.1, by simpa [hheap] using hco.2⟩
    case awaited => exact fun h => absurd h hφco
    all_goals simp [hheap]
  · refine (hB.record d).congr ?_ ?_ (hφ d hdc)
    · simp [hheap, State.setStatus, hdc]
    · rw [hpool]
      exact mem_pool_of_delete hp hB hco hdel hdc

theorem coYield_status (hcur : s.current = .co co) :
    ((coYield s).heap (.co co)).status = .waiting := by
  simp [coYield, hcur]

/-- The coroutine that `main` waits for runs on the process stack. -/
theorem inv_of_awaited (hp : p.Valid) (hB : Base p (.awaiting co) s)
    (hC : Control p (.awaiting co) s) (hcpu : s.cpu = .main)
    (hs : step p s draw = .next s') :
    ∃ φ', Base p φ' s' ∧ Control p φ' s' ∧ φ' ≠ .lost := by
  have hcur : s.current = .co co := hC.on_main hcpu
  have halive : (s.heap (.co co)).status ≠ .dead := by
    rcases ((hB.record co).awaited rfl).1 with h | h <;> simp [h]
  have hframes : s.frames = s.stackOf .main := by rw [State.frames, hcpu]
  have hown : ∀ {fs : List Frame} d, OwnFrames d ((s.setFrames fs).stackOf (.own d)) := by
    intro fs d
    simpa [hcpu] using hB.own d
  obtain ⟨rest, hrest, hmain⟩ := hB.main
  generalize hfs : s.stackOf .main = fs at hmain
  cases hmain with
  | @func _ n =>
      rw [step, hframes, hfs] at hs
      cases n with
      | zero =>
          obtain rfl := Outcome.next.inj hs
          refine ⟨.awaiting co, hB.of_stacks rfl rfl hown ⟨rest, hrest, ?_⟩, ?_, by simp⟩
          · simpa [hcpu] using .waitCall
          · refine .of_main hcpu hcur ?_
            rintro ⟨k, below, hk⟩
            simp [hcpu] at hk
      | succ n =>
          obtain rfl := Outcome.next.inj hs
          have hB' : Base p (.awaiting co)
              (s.setFrames (.func co n :: [.waitCall co, .main rest])) :=
            hB.of_stacks rfl rfl hown ⟨rest, hrest, by simpa [hcpu] using .func⟩
          refine ⟨.awaiting co, hB'.coYield hcur halive (by simpa using hcpu) ?_ ⟨rest, hrest, ?_⟩,
            ⟨.inl ⟨hcpu, hcur⟩, ?_⟩, by simp⟩
          · intro d
            simpa [coYield, hcpu] using hB.own d
          · simpa [coYield, hcpu, State.frames] using .yield
          · intro d hd _
            obtain rfl : co = d := by simpa using hd
            refine ⟨coYield_status hcur, s.yields, [.func co n, .waitCall co, .main rest], ?_, ?_⟩
            · simp [coYield, hcpu, State.frames]
            · simp [coYield, hcur, hcpu]
  | yield =>
      obtain ⟨hB', hC'⟩ := inv_of_yield hB hC ⟨_, _, hfs⟩ (hframes.trans hfs) hs
      exact ⟨.awaiting co, hB', hC', by simp⟩
  | waitCall =>
      rw [step, hframes, hfs] at hs
      have hwaiter := ((hB.record co).awaited rfl).2
      have hknown := (hB.record co).known ((hB.record co).alive halive)
      simp only [waitReturn, coDelete, State.setFrames_current, hcur] at hs
      split at hs
      · exact absurd hs (by simp)
      · next pool hdel =>
        simp only [State.setStatus_waiter, State.setFrames_heap, hwaiter, State.setStatus_current,
          State.setFrames_current, hcur] at hs
        split at hs
        · obtain rfl := Outcome.next.inj hs
          have hdel' : deleteLoop (s.setStatus (.co co) .dead).heap (s.heap (.co co)).name s.pool =
              some pool := by
            rw [State.setStatus_name] at hdel
            exact hdel
          refine ⟨.calm, hB.finish hp hknown hdel' rfl rfl ?_ (by simp) hown ⟨rest, hrest, ?_⟩,
            .of_main hcpu rfl ?_, by simp⟩
          · intro d hd
            simp [Ne.symm hd]
          · simpa [hcpu] using .main
          · simpa [hcpu] using not_suspended_main
        · exact absurd hs (by simp)

theorem own_of_setFrames {fs : List Frame} (hown : ∀ d, OwnFrames d (s.stackOf (.own d)))
    (hcpu : s.cpu = .own co)
    (hfs : OwnFrames co fs) (d : Ptr) : OwnFrames d ((s.setFrames fs).stackOf (.own d)) := by
  by_cases hdc : d = co
  · subst hdc
    simpa [hcpu] using hfs
  · simpa [hcpu, hdc] using hown d

/-- The same coroutine goes on with other frames. -/
theorem inv_of_setFrames {fs : List Frame} (hB : Base p φ s) (hC : Control p φ s)
    (hcpu : s.cpu = .own co) (halive : (s.heap (.co co)).status ≠ .dead)
    (hfs : OwnFrames co fs) : Base p φ (s.setFrames fs) ∧ Control p φ (s.setFrames fs) := by
  have hmain : (s.setFrames fs).stackOf .main = s.stackOf .main := by simp [hcpu]
  obtain ⟨hcur, hne, hknown, hsus, -⟩ := hC.on_own hcpu
  refine ⟨hB.of_stacks rfl rfl (own_of_setFrames hB.own hcpu hfs) ?_,
    .of_own hcpu hcur hne hknown (hmain.symm ▸ hsus) (.inl halive) ?_⟩
  · rw [hmain]
    exact hB.main
  · intro d hd _
    rw [OnProcessStack, hmain]
    exact hC.waiting d hd hsus

/-- A coroutine calls `co_yield` on its own stack. -/
theorem inv_of_coYield {n : Nat} (hB : Base p φ s) (hC : Control p φ s) (hcpu : s.cpu = .own co)
    (hfs : s.stackOf (.own co) = [.func co n, .callback])
    (halive : (s.heap (.co co)).status ≠ .dead) :
    Base p φ (coYield s) ∧ Control p φ (coYield s) := by
  obtain ⟨hcur, hne, hknown, hsus, -⟩ := hC.on_own hcpu
  have hmain : (coYield s).stackOf .main = s.stackOf .main := by simp [coYield, hcpu]
  have hknown' : Known p (coYield s) co :=
    ⟨hknown.1, by simpa [coYield, hcur] using hknown.2⟩
  refine ⟨hB.coYield hcur halive (by rw [hcpu, if_neg hne]) ?_ (by simpa [hmain] using hB.main),
    .of_own hcpu hcur hne hknown' (by simpa [hmain] using hsus) (.inl ?_) ?_⟩
  · intro d
    by_cases hdc : d = co
    · subst hdc
      simpa [coYield, hcpu, hfs, State.frames] using .yield
    · simpa [coYield, hcpu, hdc] using hB.own d
  · simp [coYield_status hcur]
  · intro d hφ hdc
    simpa [OnProcessStack, coYield, hcur, hcpu, hdc] using hC.waiting d hφ hsus

/-- A coroutine has returned on its own stack. -/
theorem inv_of_callback (hp : p.Valid) (hB : Base p φ s) (hC : Control p φ s)
    (hcpu : s.cpu = .own co) (hframes : s.frames = [.callback])
    (hs : step p s draw = .next s') : Base p φ s' ∧ Control p φ s' := by
  obtain ⟨hcur, hne, hknown, hsus, -⟩ := hC.on_own hcpu
  rw [step, hframes] at hs
  simp only [coDelete, hcur] at hs
  split at hs
  · exact absurd hs (by simp)
  · next pool hdel =>
    obtain rfl := Outcome.next.inj hs
    rw [State.setStatus_name] at hdel
    refine ⟨hB.finish hp hknown hdel rfl rfl (fun _ _ => .rfl) hne ?_ ?_,
      .of_own hcpu hcur hne ?_ ?_ (.inr (by simp [hcpu])) ?_⟩
    · exact own_of_setFrames (s := { s.setStatus (.co co) .dead with pool }) hB.own hcpu
        .callbackLoop
    · simpa [hcpu] using hB.main
    · exact ⟨hknown.1, by simpa using hknown.2⟩
    · simpa [hcpu] using hsus
    · intro d hφ hdc
      simpa [OnProcessStack, hcpu, hdc] using hC.waiting d hφ hsus

/-- A round of the loop of `callback`. -/
theorem inv_of_callbackLoop (hB : Base p φ s) (hC : Control p φ s)
    (hcpu : s.cpu = .own co) (hframes : s.frames = [.callbackLoop])
    (hs : step p s draw = .next s') : Base p φ s' ∧ Control p φ s' := by
  obtain ⟨-, -, -, hsus, -⟩ := hC.on_own hcpu
  rw [step, hframes] at hs
  simp only at hs
  split at hs
  · exact absurd hs (by simp)
  · split at hs
    · obtain rfl := Outcome.next.inj hs
      exact ⟨hB, hC⟩
    · next choice hchoice =>
      split at hs
      · obtain rfl := Outcome.next.inj hs
        exact ⟨hB, hC⟩
      · obtain ⟨hmem, hel⟩ := randChoose_mem hchoice
        refine inv_of_longjmp hB hsus ((hB.record choice).known hmem) ?_ ?_ ?_ hs
        · rcases eligible_iff.mp hel with h | h <;> simp [h]
        · intro ctx hctx
          rcases eligible_iff.mp hel with h | h
          · -- `longjmp` to a coroutine that never ran
            exact absurd (((hB.record choice).fresh h).symm.trans hctx) (by simp)
          · exact (hB.record choice).context ctx h hctx
        · intro d hφ _
          exact hC.waiting d hφ hsus

/-- A coroutine runs on its own stack. -/
theorem inv_of_own (hp : p.Valid) (hB : Base p φ s) (hC : Control p φ s)
    (hcpu : s.cpu = .own co) (hs : step p s draw = .next s') :
    Base p φ s' ∧ Control p φ s' := by
  have hframes : s.frames = s.stackOf (.own co) := by rw [State.frames, hcpu]
  obtain ⟨-, -, -, hsus, hlive⟩ := hC.on_own hcpu
  have hshape := hB.own co
  generalize hfs : s.stackOf (.own co) = fs at hshape
  cases hshape with
  | empty =>
      rw [step, hframes, hfs] at hs
      exact absurd hs (by simp)
  | @func n =>
      have halive : (s.heap (.co co)).status ≠ .dead := hlive.resolve_right (by simp [hfs])
      rw [step, hframes, hfs] at hs
      cases n with
      | zero =>
          obtain rfl := Outcome.next.inj hs
          exact inv_of_setFrames hB hC hcpu halive .callback
      | succ n =>
          obtain rfl := Outcome.next.inj hs
          have hshape : OwnFrames co [.func co n, .callback] := .func
          have hfs' : (s.setFrames [.func co n, .callback]).stackOf (.own co) =
              [.func co n, .callback] := by simp [hcpu]
          obtain ⟨hB', hC'⟩ := inv_of_setFrames hB hC hcpu halive hshape
          exact inv_of_coYield hB' hC' hcpu hfs' halive
  | yield => exact inv_of_yield hB hC hsus (hframes.trans hfs) hs
  | callback => exact inv_of_callback hp hB hC hcpu (hframes.trans hfs) hs
  | callbackLoop => exact inv_of_callbackLoop hB hC hcpu (hframes.trans hfs) hs

theorem calm_of_waitsOnWaiting (hB : Base p φ s) (hw : waitsOnWaiting s = true) :
    φ = .calm ∧ s.cpu = .main := by
  rw [waitsOnWaiting] at hw
  split at hw
  · next hframes =>
    rw [State.frames] at hframes
    cases hcpu : s.cpu with
    | main =>
        obtain ⟨rest, -, hmain⟩ := hB.main
        rw [← hcpu, hframes] at hmain
        cases hmain
        exact ⟨rfl, rfl⟩
    | own co =>
        have hown := hB.own co
        rw [← hcpu, hframes] at hown
        cases hown
  · exact absurd hw (by simp)

/-- A step keeps the invariant, and only one kind of step loses `main`. -/
theorem inv_of_step (hp : p.Valid) (hB : Base p φ s) (hC : Control p φ s)
    (hs : step p s draw = .next s') :
    ∃ φ', Base p φ' s' ∧ Control p φ' s' ∧
      (φ' = .lost ↔ φ = .lost ∨ waitsOnWaiting s = true) := by
  rcases hC.place with ⟨hcpu, -⟩ | ⟨co, hcpu, -⟩
  · have hframes : s.frames = s.stackOf .main := by rw [State.frames, hcpu]
    cases φ with
    | calm =>
        obtain ⟨rest, -, hmain⟩ := hB.main
        generalize hfs : s.stackOf .main = fs at hmain
        cases hmain
        obtain ⟨φ', hB', hC', hlost⟩ := inv_of_main hB hC hcpu hfs hs
        exact ⟨φ', hB', hC', by simpa using hlost⟩
    | awaiting co =>
        obtain ⟨φ', hB', hC', hne⟩ := inv_of_awaited hp hB hC hcpu hs
        refine ⟨φ', hB', hC', iff_of_false hne ?_⟩
        rintro (h | hw)
        · exact absurd h (by simp)
        · exact absurd (calm_of_waitsOnWaiting hB hw).1 (by simp)
    | lost =>
        obtain ⟨rest, -, hmain⟩ := hB.main
        generalize hfs : s.stackOf .main = fs at hmain
        cases hmain
        obtain ⟨hB', hC'⟩ := inv_of_yield hB hC ⟨_, _, hfs⟩ (hframes.trans hfs) hs
        exact ⟨.lost, hB', hC', by simp⟩
  · obtain ⟨hB', hC'⟩ := inv_of_own hp hB hC hcpu hs
    refine ⟨φ, hB', hC', .inl, ?_⟩
    rintro (h | hw)
    · exact h
    · exact absurd (hcpu.symm.trans (calm_of_waitsOnWaiting hB hw).2) (by simp)

theorem inv_init : Base p .calm (State.init p) ∧ Control p .calm (State.init p) := by
  refine ⟨?_, .of_main rfl rfl not_suspended_main⟩
  refine ⟨fun co => ?_, fun _ => .empty, p.main, fun co hco => ?_, .main⟩
  · constructor <;> simp [State.init]
  · simpa [Program.starts] using ⟨_, hco, rfl⟩

/-! ### What `rand_choose` finds -/

/-- `rand_choose` is running. -/
def InRandChoose (s : State) : Prop :=
  ∃ f below, s.frames = f :: below ∧ (f = .callbackLoop ∨ ∃ k, f = .yield k)

/-- `rand_choose` can find this coroutine, and resume with it the call of `co_wait` that
waits for it. -/
structure Finds (p : Program) (s : State) (co : Ptr) : Prop where
  mem : some co ∈ s.pool
  eligible : s.eligible co = true
  /-- In `callback` it is not `current`, nor one of the same name. -/
  other : ∀ below, s.frames = .callbackLoop :: below →
    .co co ≠ s.current ∧ (s.heap (.co co)).name ≠ (s.heap s.current).name
  resumes : ∃ draw s', randChoose s draw = some co ∧ step p s draw = .next s' ∧
    s'.cpu = .main ∧ .waitCall co ∈ s'.frames

theorem longjmp_main {k : Nat} {below : List Frame} {rest : List Call}
    (hmain : MainFrames rest (.awaiting co) (s.stackOf .main))
    (hk : s.stackOf .main = .yield k :: below)
    (hctx : (s.heap (.co co)).context = some ⟨.main, k⟩) :
    ∃ s', longjmp s co = .next s' ∧ s'.cpu = .main ∧ .waitCall co ∈ s'.frames := by
  have hs : longjmp s co = .next { s with
      current := .co co
      cpu := .main
      stackOf := Function.update s.stackOf .main below } := by
    simp [longjmp, hctx, hk, unwind]
  rw [hk] at hmain
  cases hmain
  exact ⟨_, hs, rfl, by simp [State.frames]⟩

/-- The coroutine that `main` waits for can be found. -/
theorem finds_of_inv (hp : p.Valid) (hB : Base p φ s) (hC : Control p φ s) (hφ : φ ≠ .lost)
    (hin : InRandChoose s) : ∃ co, Finds p s co := by
  obtain ⟨f, below, hframes, hf⟩ := hin
  obtain ⟨rest, -, hmain⟩ := hB.main
  -- what is suspended on the process stack
  have hsus : Suspended (s.stackOf .main) := by
    rcases hC.place with ⟨hcpu, -⟩ | ⟨d, -, -, -, -, hsus, -⟩
    · rw [State.frames, hcpu] at hframes
      rcases hf with rfl | ⟨k, rfl⟩
      · rw [hframes] at hmain
        cases hmain
      · exact ⟨k, below, hframes⟩
    · exact hsus
  cases φ with
  | lost => exact absurd rfl hφ
  | calm =>
      obtain ⟨k, below, hk⟩ := hsus
      rw [hk] at hmain
      cases hmain
  | awaiting co =>
      obtain ⟨hst, k, onto, hk, hctx⟩ := hC.waiting co rfl hsus
      have hmem : some co ∈ s.pool := (hB.record co).alive (by simp [hst])
      have hel : s.eligible co = true := eligible_iff.mpr (.inr hst)
      have hother : ∀ below, s.frames = .callbackLoop :: below →
          .co co ≠ s.current ∧ (s.heap (.co co)).name ≠ (s.heap s.current).name := by
        intro below hloop
        rcases hC.place with ⟨hcpu, -⟩ | ⟨d, -, hcur, hne, hknown, -, -⟩
        · rw [State.frames, hcpu, hk] at hloop
          exact absurd hloop (by simp)
        · have hdc : co ≠ d := fun heq => hne (heq ▸ rfl)
          have hco := (hB.record co).known hmem
          rw [hcur, hco.2, hknown.2]
          exact ⟨by simpa using hdc, by simpa using fun h => hdc (hp.name_inj hco.1 hknown.1 h)⟩
      refine ⟨co, hmem, hel, hother, ?_⟩
      obtain ⟨draw, hdraw⟩ := exists_draw hmem hel
      have hpos : s.pool.length ≠ 0 := Nat.ne_of_gt (List.length_pos_of_mem hmem)
      rcases hf with rfl | ⟨n, rfl⟩
      · obtain ⟨s', hs', hend⟩ := longjmp_main hmain hk hctx
        refine ⟨draw, s', hdraw, ?_, hend⟩
        simpa [step, hframes, hpos, hdraw, (hother below hframes).2] using hs'
      · have hmain' : MainFrames rest (.awaiting co)
            ((s.setStatus (.co co) .running).stackOf .main) := hmain
        obtain ⟨s', hs', hend⟩ := longjmp_main hmain' hk (by simpa using hctx)
        refine ⟨draw, s', hdraw, ?_, hend⟩
        simpa [step, hframes, hpos, hdraw, switchTo, hst] using hs'

end

/-- As long as `main` does not call `co_wait` on a coroutine that is CO_WAITING,
`rand_choose` has something to find wherever it is entered, and the call of `co_wait`
that waits can be resumed. -/
theorem rand_choose_finds_candidate {p : Program} (hp : p.Valid) {s : State}
    (h : (machine p).Run (fun s _ => waitsOnWaiting s = false) s) (hin : InRandChoose s) :
    0 < s.pool.length ∧ ∃ co, Finds p s co := by
  have hinv : (machine p).Invariant (fun s _ => waitsOnWaiting s = false)
      fun s => ∃ φ, Base p φ s ∧ Control p φ s ∧ φ ≠ .lost := by
    refine ⟨?_, ?_⟩
    · rintro s rfl
      exact ⟨.calm, inv_init.1, inv_init.2, by simp⟩
    · rintro s draw s' ⟨φ, hB, hC, hφ⟩ hok hs
      obtain ⟨φ', hB', hC', hlost⟩ := inv_of_step hp hB hC hs
      exact ⟨φ', hB', hC', fun h => (hlost.mp h).elim hφ (by simp [hok])⟩
  obtain ⟨φ, hB, hC, hφ⟩ := h.invariant hinv
  obtain ⟨co, hco⟩ := finds_of_inv hp hB hC hφ hin
  exact ⟨List.length_pos_of_mem hco.mem, co, hco⟩

/-- After such a call nothing resumes `main`: it stays in `co_yield`. -/
theorem lost_forever {p : Program} (hp : p.Valid) {s t u : State} {draw : Nat}
    (hr : (machine p).Reachable s) (hw : waitsOnWaiting s = true)
    (hs : (machine p).step s draw t) (ht : (machine p).Steps t u) :
    ∃ k rest, u.stackOf .main = [.yield k, .waitYield, .main rest] := by
  have hinv : (machine p).Invariant (fun _ _ => True) fun s => ∃ φ, Base p φ s ∧ Control p φ s := by
    refine ⟨?_, ?_⟩
    · rintro s rfl
      exact ⟨.calm, inv_init⟩
    · rintro s draw s' ⟨φ, hB, hC⟩ - hs
      obtain ⟨φ', hB', hC', -⟩ := inv_of_step hp hB hC hs
      exact ⟨φ', hB', hC'⟩
  obtain ⟨φ, hB, hC⟩ := hr.invariant hinv
  have hlost : Base p .lost u ∧ Control p .lost u := by
    refine ht.invariant (I := fun v => Base p .lost v ∧ Control p .lost v) ?_ ?_
    · obtain ⟨φ', hB', hC', hφ⟩ := inv_of_step hp hB hC hs
      obtain rfl := hφ.mpr (.inr hw)
      exact ⟨hB', hC'⟩
    · rintro v draw v' ⟨hBv, hCv⟩ hv
      obtain ⟨φ', hB', hC', hφ⟩ := inv_of_step hp hBv hCv hv
      obtain rfl := hφ.mpr (.inl rfl)
      exact ⟨hB', hC'⟩
  obtain ⟨rest, -, hmain⟩ := hlost.1.main
  generalize hfs : u.stackOf .main = fs at hmain
  cases hmain with
  | @lost k => exact ⟨k, rest, rfl⟩

/-- The next state, in a run that takes no step from a state in `bad`. -/
def nextUnless (p : Program) (bad : State → Bool) (s : State) (draw : Nat) : Option State :=
  if bad s then
    none
  else
    match step p s draw with
    | .next s' => some s'
    | _ => none

theorem step_of_nextUnless {p : Program} {bad : State → Bool} {s s' : State} {draw : Nat}
    (h : nextUnless p bad s draw = some s') : bad s = false ∧ (machine p).step s draw s' := by
  rw [nextUnless] at h
  split at h
  · exact absurd h (by simp)
  · next hbad =>
    split at h
    · next hs =>
      obtain rfl := Option.some.inj h
      exact ⟨by simpa using hbad, hs⟩
    · exact absurd h (by simp)

/-- Two coroutines; `main` waits first for the one that is started last. -/
def crossed : Program where
  main := [.start 0, .start 1, .wait 1, .wait 0]
  name co := if co = 0 then "b" else "a"
  func _ := 1

theorem crossed_valid : crossed.Valid where
  names := by decide
  waits := by decide
  started before co after h := by
    rcases before with _ | ⟨_, _ | ⟨_, _ | ⟨_, _ | ⟨_, rest⟩⟩⟩⟩ <;> simp [crossed] at h <;> grind

/-- The one that `main` waits for yields. -/
theorem rand_choose_finds_candidate_crossed :
    ∃ s, System.follow (nextUnless crossed waitsOnWaiting) [0, 0, 0, 0] (State.init crossed) =
      some s ∧ InRandChoose s ∧ ∃ co, Finds crossed s co := by
  obtain ⟨s, hs, hf⟩ : ∃ s, System.follow (nextUnless crossed waitsOnWaiting) [0, 0, 0, 0]
      (State.init crossed) = some s ∧
        s.frames = [.yield 0, .func 1 0, .waitCall 1, .main [.wait 0]] :=
    Option.map_eq_some_iff.mp (by decide)
  have hin : InRandChoose s := ⟨_, _, hf, .inr ⟨0, rfl⟩⟩
  have hrun : (machine crossed).Run (fun s _ => waitsOnWaiting s = false) s :=
    System.Run.follow (fun _ _ _ => step_of_nextUnless) (.init rfl) hs
  exact ⟨s, hs, hin, (rand_choose_finds_candidate crossed_valid hrun hin).2⟩

/-- `main` waits for a coroutine that has yielded, and is lost; when the coroutine has
finished, there is nothing left to find. -/
theorem not_rand_choose_finds_candidate :
    ¬ ∀ (p : Program) (s : State), p.Valid → (machine p).Reachable s → InRandChoose s →
      ∃ co, some co ∈ s.pool ∧ s.eligible co = true := by
  intro h
  obtain ⟨s, hs, hend⟩ : ∃ s, System.follow (nextUnless crossed fun _ => false)
      [0, 0, 0, 0, 0, 0, 1, 0, 0, 0, 0, 0, 0] (State.init crossed) = some s ∧
        (s.frames, s.pool) = ([.callbackLoop], [none, none]) :=
    Option.map_eq_some_iff.mp (by decide)
  obtain ⟨hf, hpool⟩ := Prod.mk.inj hend
  have hrun : (machine crossed).Reachable s :=
    System.Run.follow (fun _ _ _ hnext => ⟨trivial, (step_of_nextUnless hnext).2⟩) (.init rfl) hs
  obtain ⟨co, hmem, -⟩ := h crossed s crossed_valid hrun ⟨_, _, hf, .inl rfl⟩
  exact absurd hmem (by simp [hpool])

end OsLabs.Libco.Pool
