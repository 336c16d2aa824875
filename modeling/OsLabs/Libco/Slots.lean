import Mathlib.Data.List.Nodup
import OsLabs.Libco.Pool

/-!
# OsLabs.Libco.Slots

The array `pool` of `libco/co.c` under any sequence of starts and completions.

Slots are given out in order and never given out again, and `co_delete` looks for its
coroutine from the first slot on, reading a name in every slot it passes. So a
completion is safe exactly when no coroutine that was started earlier has finished, and
a start exactly when fewer than 128 coroutines were started before, whatever has become
of them (`pool_slots`).
-/

namespace OsLabs.Libco.Pool

/-- A call that changes `pool`. -/
inductive SlotCall
  /-- `co_start(name, …)`; `co` is the address its `malloc` returns. -/
  | start (co : Ptr) (name : String)
  /-- The function of `co` has returned. -/
  | finish (co : Ptr)
  deriving DecidableEq, Repr

/-- `co_start(name, …)`, when its `malloc` returns `co`. -/
def startNamed (s : State) (co : Ptr) (name : String) : Outcome :=
  coStart { main := [], name := fun _ => name, func := fun _ => 0 } s co

/-- What `co_wait` and `callback` do once the function of `co` has returned:
`current->status = CO_DEAD; co_delete(current)`. -/
def coFinish (s : State) (co : Ptr) : Outcome :=
  coDelete (s.setStatus (.co co) .dead) (.co co) .next

/-- What a call does. -/
def SlotCall.run (s : State) : SlotCall → Outcome
  | .start co name => startNamed s co name
  | .finish co => coFinish s co

section
variable {s t : State} {co : Ptr} {r : Ref}

/-- What `co_start` leaves. -/
theorem startNamed_next {name : String} (h : startNamed s co name = .next t) :
    t.pool = s.pool ++ [some co] ∧
      ∀ d, (t.heap (.co d)).name = if d = co then some name else (s.heap (.co d)).name := by
  rw [startNamed, coStart] at h
  split at h
  · obtain rfl := Outcome.next.inj h
    refine ⟨rfl, fun d => ?_⟩
    by_cases hd : d = co <;> simp [hd]
  · exact absurd h (by simp)

/-- `co_delete` changes no name. -/
theorem coFinish_name (h : coFinish s co = .next t) : (t.heap r).name = (s.heap r).name := by
  rw [coFinish, coDelete] at h
  split at h
  · exact absurd h (by simp)
  · obtain rfl := Outcome.next.inj h
    exact State.setStatus_name ..

/-- The caller of `co_delete` goes on where it ends. -/
theorem coDelete_of_next (h : coDelete s r .next = .next t) (next : State → Outcome) :
    coDelete s r next = next t := by
  rw [coDelete] at h ⊢
  split at h
  · exact absurd h (by simp)
  · next pool hdel =>
    obtain rfl := Outcome.next.inj h
    rfl

/-- A coroutine ends in this way inside `co_wait`, -/
theorem waitReturn_of_coFinish (hcur : s.current = .co co) (h : coFinish s co = .next t) :
    waitReturn s =
      match (t.heap t.current).waiter with
      | none => .fault .nullWaiter
      | some waiter =>
          if (t.heap waiter).tag then .next { t with current := waiter }
          else .fault .assertFailed := by
  rw [waitReturn, hcur]
  exact coDelete_of_next h _

/-- and on its own stack. -/
theorem step_of_coFinish {p : Program} {fs : List Frame} (hfs : s.frames = .callback :: fs)
    (hcur : s.current = .co co) (h : coFinish s co = .next t) (draw : Nat) :
    step p s draw = .next (t.setFrames [.callbackLoop]) := by
  rw [step, hfs]
  simp only [hcur]
  exact coDelete_of_next h _

end

/-! ### The slots as they should be -/

/-- Empty the slot of `co`. -/
def vacate (co : Ptr) (slots : List (Option Ptr)) : List (Option Ptr) :=
  slots.map fun slot => if slot = some co then none else slot

/-- A new coroutine takes the next slot, one that finishes leaves its own. -/
def SlotCall.slots (slots : List (Option Ptr)) : SlotCall → List (Option Ptr)
  | .start co _ => slots ++ [some co]
  | .finish co => vacate co slots

/-- The process, with what has happened. -/
structure SlotState where
  state : State
  /-- The coroutines in order of their `co_start`, `none` for one that has finished. -/
  slots : List (Option Ptr)
  /-- The names used so far. -/
  names : List String

/-- The coroutines that have not finished. -/
def SlotState.unfinished (s : SlotState) : List Ptr :=
  s.slots.filterMap id

/-- The calls to expect: `malloc` returns memory no unfinished coroutine has, names are
distinct, at most 128 coroutines are unfinished at once, and one finishes once. -/
def Permitted (s : SlotState) : SlotCall → Prop
  | .start co name => some co ∉ s.slots ∧ name ∉ s.names ∧ s.unfinished.length < 128
  | .finish co => some co ∈ s.slots

/-- The call stays inside `pool`, reads no name through NULL, and leaves the slots as they
should be. -/
def Good (s : SlotState) (call : SlotCall) : Prop :=
  ∃ t : State, call.run s.state = .next t ∧ t.pool = call.slots s.slots

/-- Fewer than 128 coroutines have been started before a `co_start`, and none that was
started before `co` has finished when `co` finishes. -/
def Orderly (s : SlotState) : SlotCall → Prop
  | .start _ _ => s.slots.length < 128
  | .finish co => none ∉ s.slots.takeWhile (· ≠ some co)

instance (s : SlotState) (call : SlotCall) : Decidable (Permitted s call) :=
  match call with
  | .start _ _ => inferInstanceAs (Decidable (_ ∧ _))
  | .finish _ => inferInstanceAs (Decidable (_ ∈ _))

instance (s : SlotState) (call : SlotCall) : Decidable (Orderly s call) :=
  match call with
  | .start _ _ => inferInstanceAs (Decidable (_ < _))
  | .finish _ => inferInstanceAs (Decidable (¬ _))

/-- `pool` under the calls. -/
def slotMachine : System SlotState SlotCall where
  init s := s.state.pool = [] ∧ s.slots = [] ∧ s.names = []
  step s call s' := ∃ t : State, call.run s.state = .next t ∧
    s' = { state := t
           slots := call.slots s.slots
           names := match call with
             | .start _ name => name :: s.names
             | .finish _ => s.names }

/-! ### `co_delete` -/

section
variable {heap : Ref → Co} {co : Ptr} {name : Option String} {before after : List (Option Ptr)}

/-- The loop passes the slots of other coroutines and stops at its own, -/
theorem deleteLoop_eq (hfull : none ∉ before)
    (hne : ∀ q, some q ∈ before → (heap (.co q)).name ≠ name)
    (hco : (heap (.co co)).name = name) :
    deleteLoop heap name (before ++ some co :: after) = some (before ++ none :: after) := by
  induction before with
  | nil => simp [deleteLoop, hco]
  | cons slot before ih =>
      cases slot with
      | none => exact absurd List.mem_cons_self hfull
      | some q =>
          have hrest := ih (fun h => hfull (List.mem_cons_of_mem _ h))
            (fun d hd => hne d (List.mem_cons_of_mem _ hd))
          rw [List.cons_append, deleteLoop, if_neg (hne q List.mem_cons_self), hrest]
          rfl

/-- and it does not get past an empty one. -/
theorem deleteLoop_eq_none (hempty : none ∈ before)
    (hne : ∀ q, some q ∈ before → (heap (.co q)).name ≠ name) :
    deleteLoop heap name (before ++ after) = none := by
  induction before with
  | nil => exact absurd hempty (by simp)
  | cons slot before ih =>
      cases slot with
      | none => rfl
      | some q =>
          have hrest := ih (by simpa using hempty) (fun d hd => hne d (List.mem_cons_of_mem _ hd))
          rw [List.cons_append, deleteLoop, if_neg (hne q List.mem_cons_self), hrest]
          rfl

end

theorem vacate_of_not_mem {co : Ptr} {slots : List (Option Ptr)} (h : some co ∉ slots) :
    vacate co slots = slots := by
  refine (List.map_congr_left fun slot hslot => if_neg ?_).trans (List.map_id slots)
  rintro rfl
  exact h hslot

theorem vacate_append {co : Ptr} {before after : List (Option Ptr)} (hb : some co ∉ before)
    (ha : some co ∉ after) :
    vacate co (before ++ some co :: after) = before ++ none :: after := by
  have hsplit : vacate co (before ++ some co :: after) =
      vacate co before ++ none :: vacate co after := by simp [vacate]
  rw [hsplit, vacate_of_not_mem hb, vacate_of_not_mem ha]

/-! ### The run -/

/-- The slots are as they should be, and a name tells whose slot it is. -/
structure SlotInv (s : SlotState) : Prop where
  pool : s.state.pool = s.slots
  nodup : s.unfinished.Nodup
  known : ∀ co, some co ∈ s.slots → ∃ name ∈ s.names, (s.state.heap (.co co)).name = some name
  names : ∀ co d, some co ∈ s.slots → some d ∈ s.slots →
    (s.state.heap (.co co)).name = (s.state.heap (.co d)).name → co = d

theorem mem_unfinished {s : SlotState} {co : Ptr} : co ∈ s.unfinished ↔ some co ∈ s.slots := by
  simp [SlotState.unfinished]

section
variable {s : SlotState} {co : Ptr} {name : String}

/-- The slots around the one of a coroutine that has not finished. -/
theorem SlotInv.split (hI : SlotInv s) (hco : some co ∈ s.slots) :
    ∃ before after, s.slots = before ++ some co :: after ∧ some co ∉ before ∧
      some co ∉ after ∧ s.slots.takeWhile (· ≠ some co) = before := by
  obtain ⟨before, after, hslots, hb⟩ := List.eq_append_cons_of_mem hco
  refine ⟨before, after, hslots, hb, fun ha => ?_, ?_⟩
  · have hn := hI.nodup
    rw [SlotState.unfinished, hslots, List.filterMap_append] at hn
    have hn' : (co :: after.filterMap id).Nodup := (List.nodup_append.mp hn).2.1
    exact (List.nodup_cons.mp hn').1 (List.mem_filterMap.mpr ⟨_, ha, rfl⟩)
  · rw [hslots, List.takeWhile_append_of_pos]
    · simp
    · intro slot hslot
      refine decide_eq_true fun heq => hb (heq ▸ hslot)

/-- `co_delete` empties the slot of `co` and no other, and meets an empty one exactly when
there is one before. -/
theorem SlotInv.finish_iff (hI : SlotInv s) (hco : some co ∈ s.slots) :
    Good s (.finish co) ↔ Orderly s (.finish co) := by
  obtain ⟨before, after, hslots, hb, ha, htake⟩ := hI.split hco
  have hne : ∀ q, some q ∈ before → ((s.state.setStatus (.co co) .dead).heap (.co q)).name ≠
      ((s.state.setStatus (.co co) .dead).heap (.co co)).name := by
    intro q hq heq
    rw [State.setStatus_name, State.setStatus_name] at heq
    have hmem : some q ∈ s.slots := hslots ▸ List.mem_append_left _ hq
    exact hb (hI.names q co hmem hco heq ▸ hq)
  have hpool : (s.state.setStatus (.co co) .dead).pool = before ++ some co :: after := by
    rw [State.setStatus_pool, hI.pool, hslots]
  rw [Orderly, htake]
  refine ⟨?_, ?_⟩
  · intro hgood hempty
    obtain ⟨t, ht, -⟩ := hgood
    rw [SlotCall.run, coFinish, coDelete, hpool, deleteLoop_eq_none hempty hne] at ht
    exact absurd ht (by simp)
  · intro hfull
    refine ⟨{ s.state.setStatus (.co co) .dead with pool := before ++ none :: after }, ?_, ?_⟩
    · rw [SlotCall.run, coFinish, coDelete, hpool, deleteLoop_eq hfull hne rfl]
    · rw [SlotCall.slots, hslots, vacate_append hb ha]

/-- `co_start` needs a slot that was never given out. -/
theorem SlotInv.start_iff (hI : SlotInv s) :
    Good s (.start co name) ↔ Orderly s (.start co name) := by
  rw [Orderly, ← hI.pool]
  refine ⟨?_, ?_⟩
  · intro hgood
    obtain ⟨t, ht, -⟩ := hgood
    rw [SlotCall.run, startNamed, coStart] at ht
    split at ht
    · next hlt => exact hlt
    · exact absurd ht (by simp)
  · intro hlt
    refine ⟨_, by rw [SlotCall.run, startNamed, coStart, if_pos hlt], ?_⟩
    rw [SlotCall.slots, ← hI.pool]

theorem mem_vacate {d : Ptr} {slots : List (Option Ptr)} (h : some d ∈ vacate co slots) :
    some d ∈ slots ∧ d ≠ co := by
  obtain ⟨slot, hslot, heq⟩ := List.mem_map.mp h
  split at heq
  · exact absurd heq (by simp)
  · next hne =>
    subst heq
    exact ⟨hslot, fun hd => hne (by rw [hd])⟩

/-- A `co_start`. -/
theorem SlotInv.start {t : State} (hI : SlotInv s) (hp : Permitted s (.start co name))
    (ht : startNamed s.state co name = .next t) :
    SlotInv { state := t, slots := s.slots ++ [some co], names := name :: s.names } := by
  obtain ⟨hfresh, hname, -⟩ := hp
  obtain ⟨hpool, hheap⟩ := startNamed_next ht
  have hnew : (t.heap (.co co)).name = some name := by rw [hheap, if_pos rfl]
  have hold : ∀ d, some d ∈ s.slots → (t.heap (.co d)).name = (s.state.heap (.co d)).name := by
    intro d hd
    rw [hheap, if_neg]
    rintro rfl
    exact hfresh hd
  -- the new name is not one of those that are known
  have hother : ∀ d, some d ∈ s.slots → (s.state.heap (.co d)).name ≠ some name := by
    intro d hd heq
    obtain ⟨name', hmem, heq'⟩ := hI.known d hd
    exact hname (Option.some.inj (heq'.symm.trans heq) ▸ hmem)
  have hcases : ∀ d, some d ∈ s.slots ++ [some co] → some d ∈ s.slots ∨ d = co := by
    intro d hd
    rcases List.mem_append.mp hd with hold | hnew
    · exact .inl hold
    · exact .inr (by simpa using hnew)
  refine ⟨by rw [hpool, hI.pool], ?_, ?_, ?_⟩
  · have hn : (s.unfinished ++ [co]).Nodup :=
      hI.nodup.append (List.nodup_singleton co)
        (List.disjoint_singleton.mpr (mt mem_unfinished.mp hfresh))
    simpa [SlotState.unfinished] using hn
  · intro d hd
    rcases hcases d hd with hd | rfl
    · obtain ⟨name', hmem, heq⟩ := hI.known d hd
      exact ⟨name', List.mem_cons_of_mem _ hmem, (hold d hd).trans heq⟩
    · exact ⟨name, List.mem_cons_self, hnew⟩
  · intro d e hd he heq
    rcases hcases d hd with hd' | hd' <;> rcases hcases e he with he' | he'
    · exact hI.names d e hd' he' ((hold d hd').symm.trans (heq.trans (hold e he')))
    · subst he'
      exact absurd ((hold d hd').symm.trans (heq.trans hnew)) (hother d hd')
    · subst hd'
      exact absurd ((hold e he').symm.trans (heq.symm.trans hnew)) (hother e he')
    · rw [hd', he']

/-- A completion after which the slots are as they should be. -/
theorem SlotInv.finish {t : State} (hI : SlotInv s) (hco : some co ∈ s.slots)
    (ht : coFinish s.state co = .next t) (hpool : t.pool = vacate co s.slots) :
    SlotInv { state := t, slots := vacate co s.slots, names := s.names } := by
  refine ⟨hpool, ?_, ?_, ?_⟩
  · obtain ⟨before, after, hslots, hb, ha, -⟩ := hI.split hco
    have hn := hI.nodup
    rw [SlotState.unfinished, hslots, List.filterMap_append] at hn
    rw [SlotState.unfinished, hslots, vacate_append hb ha, List.filterMap_append]
    exact hn.sublist ((List.Sublist.refl _).append (List.sublist_cons_self co _))
  · intro d hd
    rw [coFinish_name ht]
    exact hI.known d (mem_vacate hd).1
  · intro d e hd he heq
    rw [coFinish_name ht, coFinish_name ht] at heq
    exact hI.names d e (mem_vacate hd).1 (mem_vacate he).1 heq

theorem slotInv_step {s' : SlotState} {call : SlotCall} (hI : SlotInv s) (hp : Permitted s call)
    (ho : Orderly s call) (hs : slotMachine.step s call s') : SlotInv s' := by
  obtain ⟨t, ht, rfl⟩ := hs
  cases call with
  | start co name => exact hI.start hp ht
  | finish co =>
      obtain ⟨t', ht', hpool⟩ := (hI.finish_iff hp).mpr ho
      obtain rfl := Outcome.next.inj (ht'.symm.trans ht)
      exact hI.finish hp ht hpool

end

/-- In a run of starts and completions that were all in order, the slots are as they should
be; and then the next call is good exactly when it is in order too. -/
theorem pool_slots {s : SlotState}
    (h : slotMachine.Run (fun s call => Permitted s call ∧ Orderly s call) s) :
    s.state.pool = s.slots ∧ ∀ call, Permitted s call → (Good s call ↔ Orderly s call) := by
  have hinv : slotMachine.Invariant (fun s call => Permitted s call ∧ Orderly s call) SlotInv :=
    { init := by
        intro s hs
        obtain ⟨hpool, hslots, hnames⟩ := hs
        refine ⟨by rw [hpool, hslots], ?_, ?_, ?_⟩
        · simp [SlotState.unfinished, hslots]
        · simp [hslots]
        · simp [hslots]
      step := fun s call s' hI hok hs => slotInv_step hI hok.1 hok.2 hs }
  have hI := h.invariant hinv
  refine ⟨hI.pool, fun call hp => ?_⟩
  cases call with
  | start co name => exact hI.start_iff
  | finish co => exact hI.finish_iff hp

/-- Before the first call. -/
def SlotState.empty : SlotState where
  state := State.init { main := [], name := fun _ => "", func := fun _ => 0 }
  slots := []
  names := []

/-- Where a call that meets `ok` leads, if it does not end in a fault. -/
def SlotState.next (ok : SlotState → SlotCall → Prop) [∀ s call, Decidable (ok s call)]
    (s : SlotState) (call : SlotCall) : Option SlotState :=
  if ok s call then
    match call.run s.state with
    | .next t => some
        { state := t
          slots := call.slots s.slots
          names := match call with
            | .start _ name => name :: s.names
            | .finish _ => s.names }
    | _ => none
  else
    none

/-- What `SlotState.next` computes is a run. -/
theorem run_of_next {ok : SlotState → SlotCall → Prop} [∀ s call, Decidable (ok s call)]
    {calls : List SlotCall} {s : SlotState}
    (h : System.follow (SlotState.next ok) calls .empty = some s) : slotMachine.Run ok s := by
  refine System.Run.follow (fun s call s' hs => ?_) (.init ⟨rfl, rfl, rfl⟩) h
  unfold SlotState.next at hs
  split at hs
  · next hok =>
    split at hs
    · next t ht => exact ⟨hok, t, ht, (Option.some.inj hs).symm⟩
    · exact absurd hs (by simp)
  · exact absurd hs (by simp)

/-- The younger of two coroutines finishes first. -/
theorem pool_slots_two :
    ∃ s : SlotState, s.slots = [some 0, some 1] ∧ s.state.pool = s.slots ∧ Good s (.finish 1) := by
  obtain ⟨s, hs, hslots⟩ : ∃ s : SlotState, System.follow
      (SlotState.next fun s call => Permitted s call ∧ Orderly s call)
      [.start 0 "a", .start 1 "b"] .empty = some s ∧ s.slots = [some 0, some 1] :=
    ⟨_, rfl, rfl⟩
  have hrun := pool_slots (run_of_next hs)
  refine ⟨s, hslots, hrun.1, (hrun.2 (.finish 1) ?_).mpr ?_⟩
  · simp [Permitted, hslots]
  · simp [Orderly, hslots]

/-- The first of two coroutines finishes, and then the second: `co_delete` reads the name
in the slot the first has left. -/
theorem not_pool_slots :
    ¬ ∀ s : SlotState, slotMachine.Run Permitted s → ∀ call, Permitted s call → Good s call := by
  intro h
  obtain ⟨s, hs, hslots, hfault⟩ : ∃ s : SlotState,
      System.follow (SlotState.next Permitted) [.start 0 "a", .start 1 "b", .finish 0] .empty =
        some s ∧ some 1 ∈ s.slots ∧ ∀ t, coFinish s.state 1 ≠ .next t :=
    ⟨_, rfl, by decide, by intro t ht; cases ht⟩
  obtain ⟨t, ht, -⟩ := h s (run_of_next hs) (.finish 1) hslots
  exact hfault t ht

end OsLabs.Libco.Pool
