import Mathlib.Data.List.Perm.Subperm
import OsLabs.Libco.Preservation

/-!
# OsLabs.Libco.Enter

How often the function of a coroutine is entered, and where its activation is.

There are three places that start `func`: the CO_NEW branch of `co_wait`, the
stack switch in `co_yield`, and the branch of `co_wait` for callers that are
coroutines themselves. The first two look at the status; the third tests only
that the coroutine is not dead, so a coroutine that is waited for by another one
while it is half-run is entered again, from the top (`not_entered_at_most_once`).
As long as no coroutine waits for one that is past CO_NEW, each function is
entered at most once (`entered_at_most_once`).

`Activity` is what a move does to the activations of `func`: nothing, push one,
or pop one. From it follows that an activation on a stack is the only one of its
coroutine and has not returned (`Bodies`).
-/

namespace OsLabs.Libco

/-- Is `e` an entry of `co->func`? -/
@[simp] def Event.enters (co : Ptr) : Event → Bool
  | .entered d _ => d = co
  | _ => false

/-- The coroutines whose `func` has an activation on a stack, top first. -/
@[simp] def bodies : List Frame → List Ptr
  | [] => []
  | .func co _ :: fs => co :: bodies fs
  | _ :: fs => bodies fs

theorem mem_bodies {co : Ptr} {fs : List Frame} : co ∈ bodies fs ↔ ∃ rest, .func co rest ∈ fs := by
  induction fs with
  | nil => simp
  | cons f fs ih =>
      cases f with
      | func d rest =>
          rw [bodies, List.mem_cons, ih]
          refine ⟨?_, ?_⟩
          · intro h
            rcases h with rfl | ⟨r, h⟩
            · exact ⟨rest, List.mem_cons_self⟩
            · exact ⟨r, List.mem_cons_of_mem _ h⟩
          · intro h
            obtain ⟨r, h⟩ := h
            rcases List.mem_cons.mp h with h | h
            · exact .inl (Frame.func.inj h).1
            · exact .inr ⟨r, h⟩
      | _ => simpa using ih

namespace State

variable {s s' : State} {co : Ptr} {σ τ : StackId}

/-- How many times `co->func` was entered. -/
def entries (s : State) (co : Ptr) : Nat := s.log.countP (Event.enters co)

/-- The activations of `func` on the stack `σ`. -/
def active (s : State) (σ : StackId) : List Ptr := bodies (s.stackOf σ)

theorem entries_eq_zero (h : ¬ s.Entered co) : s.entries co = 0 := by
  rw [entries, List.countP_eq_zero]
  intro e he hco
  cases e with
  | entered d σ =>
      obtain rfl : d = co := by simpa using hco
      exact h ⟨σ, he⟩
  | _ => simp at hco

theorem entries_ne_zero (h : .entered co σ ∈ s.log) : s.entries co ≠ 0 := by
  rw [entries, ← Nat.pos_iff_ne_zero, List.countP_pos_iff]
  exact ⟨_, h, by simp⟩

/-- A coroutine entered only once was entered on one stack only. -/
theorem entered_unique (h : s.entries co ≤ 1) (hσ : .entered co σ ∈ s.log)
    (hτ : .entered co τ ∈ s.log) : σ = τ := by
  by_contra hne
  have hsub : List.Subperm [.entered co σ, .entered co τ] s.log :=
    List.subperm_of_subset (by simpa using hne) (by simp [hσ, hτ])
  have htwo : 2 ≤ s.entries co := by
    simpa [entries] using List.Subperm.countP_le (Event.enters co) hsub
  omega

theorem active_frames {fs : List Frame} (hf : s.frames = fs) : s.active s.cpu = bodies fs := by
  rw [active, ← hf, frames]

end State

/-- An activation on a stack was entered there. -/
theorem Base.entered_of_active {p : Program} {s : State} (hb : Base p s) {co : Ptr} {σ : StackId}
    (h : co ∈ s.active σ) : .entered co σ ∈ s.log := by
  obtain ⟨rest, hm⟩ := mem_bodies.mp h
  exact (hb.traced σ).func hm

/-- What a step does to the activations of `func`. -/
inductive Activity (s s' : State) : Prop
  | quiet : (∀ d, s'.entries d = s.entries d) → (∀ d, s'.Returned d ↔ s.Returned d) →
      (∀ σ, s'.active σ = s.active σ) → Activity s s'
  /-- `co->func` is entered on the stack `τ`: for the first time, or by a nested `co_wait`. -/
  | enter (co : Ptr) (τ : StackId) :
      (∀ d, s'.entries d = s.entries d + if co = d then 1 else 0) →
      (∀ d, s'.Returned d ↔ s.Returned d) →
      s'.active τ = co :: s.active τ → (∀ σ, σ ≠ τ → s'.active σ = s.active σ) → s.Started co →
      (¬ s.Entered co ∨ s.Live ∧
        ∃ old, nextWait s = some co ∧ s.current = some old ∧ (s.heap co).status ≠ .dead) →
      Activity s s'
  /-- `co->func` returns, on the running stack. -/
  | leave (co : Ptr) : (∀ d, s'.entries d = s.entries d) →
      (∀ d, s'.Returned d ↔ d = co ∨ s.Returned d) →
      s.active s.cpu = co :: s'.active s.cpu → (∀ σ, σ ≠ s.cpu → s'.active σ = s.active σ) →
      Activity s s'

section
variable {p : Program} {s s' t : State}

/-- A step that changes the frames of the running stack but no activation on it. -/
theorem active_same {fs : List Frame} (hf : s.frames = fs)
    (htop : bodies (s'.stackOf s.cpu) = bodies fs)
    (hrest : ∀ σ, σ ≠ s.cpu → s'.stackOf σ = s.stackOf σ) (σ : StackId) :
    s'.active σ = s.active σ := by
  by_cases hσ : σ = s.cpu
  · rw [hσ, State.active_frames hf, State.active, htop]
  · rw [State.active, hrest σ hσ, State.active]

theorem Called.active {call : Call} (h : Called s call t) (σ : StackId) :
    t.active σ = s.active σ := by
  cases h with
  | main hf => exact active_same hf (by simp) (by simp +contextual) σ
  | func hf => exact active_same hf (by simp) (by simp +contextual) σ

theorem activity_of_move (hI : Inv p s) (hm : Move p s s') : Activity s s' := by
  cases hm with
  | @start t co hcall =>
      exact .quiet (by simp [State.entries, hcall.log]) (by simp [State.Returned, hcall.log])
        hcall.active
  | @yield co rest fs hf =>
      exact .quiet (by simp [State.entries]) (by simp [State.Returned])
        (active_same hf (by simp) (by simp +contextual))
  | waitDead hcall =>
      exact .quiet (by simp [State.entries, hcall.log]) (by simp [State.Returned, hcall.log])
        hcall.active
  | @waitNew co rest fs hf hst hfr hcur hnew =>
      refine .enter co s.cpu (by simp [State.entries, List.countP_cons]) (by simp [State.Returned])
        ?_ (by simp +contextual [State.active]) hst (.inl fun hent => ?_)
      · rw [State.active_frames hf]
        simp [State.active]
      · have hc := hI.core (by simp [State.Live, hcur])
        have := hc.unentered co hst hnew hent
        simp [hcur] at this
  | @waitWaiting co rest fs hf =>
      exact .quiet (by simp [State.entries]) (by simp [State.Returned])
        (active_same hf (by simp) (by simp +contextual))
  | @waitRunning co rest fs hf =>
      exact .quiet (by simp [State.entries]) (by simp [State.Returned])
        (active_same hf (by simp) (by simp +contextual))
  | @waitNested co old rest fs hf hst hfr hl hcur hdead =>
      refine .enter co s.cpu (by simp [State.entries, List.countP_cons]) (by simp [State.Returned])
        ?_ (by simp +contextual [State.active]) hst (.inr ⟨hl, old, nextWait_func hf, hcur, hdead⟩)
      rw [State.active_frames hf]
      simp [State.active]
  | @ret co fs hf =>
      refine .leave co (by simp [State.entries]) (by simp [State.Returned]) ?_
        (by simp +contextual [State.active])
      rw [State.active_frames hf]
      simp [State.active]
  | @waitNewReturn co fs hf =>
      exact .quiet (by simp [State.entries]) (by simp [State.Returned])
        (active_same hf (by simp) (by simp +contextual))
  | @waitWaitingReturn co fs hf =>
      exact .quiet (by simp [State.entries]) (by simp [State.Returned])
        (active_same hf (by simp) (by simp +contextual))
  | @waitNestedReturn co old fs hf =>
      exact .quiet (by simp [State.entries]) (by simp [State.Returned])
        (active_same hf (by simp) (by simp +contextual))
  | callback hf =>
      exact .quiet (by simp [State.entries]) (by simp [State.Returned])
        (active_same hf (by simp) (by simp +contextual))
  | round => exact .quiet (fun _ => rfl) (fun _ => Iff.rfl) fun _ => rfl
  | @switch n fs co choice hf hl hcur hmem hnew =>
      have hst := hI.base.started choice hmem
      obtain ⟨hent, hempty⟩ := (hI.core hl).fresh_choice hf hcur hst hnew
      exact .enter choice (.own choice) (by simp [State.entries, List.countP_cons])
        (by simp [State.Returned]) (by simp [State.active, hempty])
        (by simp +contextual [State.active]) hst (.inl hent)
  | @resume choice cur ctx fs htop hl hcur hmem hwt hctx hfs =>
      refine .quiet (by simp [State.entries]) (by simp [State.Returned]) fun σ => ?_
      by_cases hσ : σ = ctx.stack
      · simp [State.active, hσ, hfs]
      · simp [State.active, hσ]

end

/-- A coroutine that calls `co_wait` on one that is not dead calls it on one that is
CO_NEW, and not on itself. -/
def NestedWaitNew (s : State) : Prop :=
  ∀ co ∈ nextWait s, ∀ cur ∈ s.current, (s.heap co).status ≠ .dead →
    (s.heap co).status = .new ∧ co ≠ cur

instance (s : State) : Decidable (NestedWaitNew s) :=
  inferInstanceAs (Decidable (∀ co ∈ nextWait s, ∀ cur ∈ s.current, _))

/-- Every function is entered at most once, an activation is the only one of its
coroutine, and it has not returned. -/
structure Bodies (s : State) : Prop where
  once : ∀ co, s.entries co ≤ 1
  nodup : ∀ σ, (s.active σ).Nodup
  unreturned : ∀ σ, ∀ co ∈ s.active σ, ¬ s.Returned co
  /-- Only a function that was entered returns. -/
  ran : ∀ co, s.Returned co → s.entries co ≠ 0

theorem bodies_init (p : Program) : Bodies (State.init p) where
  once := by simp [State.entries, State.init]
  nodup σ := by cases σ <;> simp [State.active, State.init]
  unreturned σ := by cases σ <;> simp [State.active, State.init]
  ran := by simp [State.Returned, State.init]

section
variable {p : Program} {s s' : State}

/-- A move from a state that meets the guard keeps `Bodies`. -/
theorem bodies_of_move (hI : Inv p s) (hw : NestedWaitNew s) (hB : Bodies s)
    (hm : Move p s s') : Bodies s' := by
  have hb := hI.base
  cases activity_of_move hI hm with
  | quiet hentries hret hact =>
      exact
        { once := fun d => by rw [hentries]; exact hB.once d
          nodup := fun σ => by rw [hact]; exact hB.nodup σ
          unreturned := fun σ d hd => by
            rw [hret]
            exact hB.unreturned σ d (by rwa [← hact σ])
          ran := fun d hd => by
            rw [hentries]
            exact hB.ran d ((hret d).mp hd) }
  | enter co τ hentries hret hτ hrest hst hfresh =>
      have hnot : ¬ s.Entered co := by
        rcases hfresh with hn | ⟨hl, old, hwait, hcur, hdead⟩
        · exact hn
        · obtain ⟨hnew, hne⟩ := hw co hwait old hcur hdead
          exact (hI.core hl).not_entered hcur hne hst hnew
      have hzero := State.entries_eq_zero hnot
      constructor
      case once =>
        intro d
        rw [hentries]
        by_cases h : co = d
        · subst h
          rw [if_pos rfl]
          omega
        · rw [if_neg h]
          exact hB.once d
      case nodup =>
        intro σ
        by_cases hσ : σ = τ
        · rw [hσ, hτ, List.nodup_cons]
          exact ⟨fun hm => hnot ⟨τ, hb.entered_of_active hm⟩, hB.nodup τ⟩
        · rw [hrest σ hσ]
          exact hB.nodup σ
      case unreturned =>
        intro σ d hd
        rw [hret]
        by_cases hσ : σ = τ
        · rw [hσ, hτ] at hd
          rcases List.mem_cons.mp hd with rfl | hd
          · exact fun h => hB.ran d h hzero
          · exact hB.unreturned τ d hd
        · exact hB.unreturned σ d (by rwa [← hrest σ hσ])
      case ran =>
        intro d hd
        have := hB.ran d ((hret d).mp hd)
        rw [hentries]
        omega
  | leave co hentries hret hcpu hrest =>
      have hmem : co ∈ s.active s.cpu := by rw [hcpu]; exact List.mem_cons_self
      have hent := hb.entered_of_active hmem
      have hnd := hB.nodup s.cpu
      rw [hcpu, List.nodup_cons] at hnd
      constructor
      case once => exact fun d => by rw [hentries]; exact hB.once d
      case nodup =>
        intro σ
        by_cases hσ : σ = s.cpu
        · rw [hσ]
          exact hnd.2
        · rw [hrest σ hσ]
          exact hB.nodup σ
      case unreturned =>
        intro σ d hd
        rw [hret]
        intro hr
        rcases hr with rfl | hr
        · -- the activation that returned was the only one: on its stack, and on any other
          by_cases hσ : σ = s.cpu
          · exact hnd.1 (hσ ▸ hd)
          · rw [hrest σ hσ] at hd
            exact hσ (State.entered_unique (hB.once d) (hb.entered_of_active hd) hent)
        · by_cases hσ : σ = s.cpu
          · have hd' : d ∈ s.active s.cpu := by
              rw [hcpu]
              exact List.mem_cons_of_mem _ (hσ ▸ hd)
            exact hB.unreturned s.cpu d hd' hr
          · exact hB.unreturned σ d (by rwa [← hrest σ hσ]) hr
      case ran =>
        intro d hd
        rw [hentries]
        rcases (hret d).mp hd with rfl | hd
        · exact State.entries_ne_zero hent
        · exact hB.ran d hd

end

/-- In a run in which nothing reads a dangling `current` and coroutines wait only for
CO_NEW or dead ones, each function is entered at most once. -/
theorem entered_at_most_once {p : Program} {s : State}
    (h : (machine p).Run (fun s _ => NoDangling s ∧ NestedWaitNew s) s) (co : Ptr) :
    s.entries co ≤ 1 := by
  have hinv : (machine p).Invariant (fun s _ => NoDangling s ∧ NestedWaitNew s)
      fun s => Inv p s ∧ Bodies s :=
    invariant_of_moves (fun _ _ hg => hg.1) (bodies_init p)
      fun _ _ _ hI hB hg hm => bodies_of_move hI hg.2 hB hm
  exact (h.invariant hinv).2.once co

/-- A coroutine that waits for another one before that has run. -/
def delegate : Program where
  main := [.start 0, .start 1, .wait 0]
  name co := if co = 0 then "a" else "b"
  func co := if co = 0 then [.wait 1] else []

theorem entered_at_most_once_delegate :
    ∃ s, runDraws delegate (fun s _ => NoDangling s ∧ NestedWaitNew s) [0, 0, 0, 0, 0, 0, 0, 0]
        (State.init delegate) = some s ∧
      s.frames = [.main []] ∧ s.entries 0 = 1 ∧ s.entries 1 ≤ 1 := by
  obtain ⟨s, hs, hend⟩ : ∃ s, runDraws delegate (fun s _ => NoDangling s ∧ NestedWaitNew s)
      [0, 0, 0, 0, 0, 0, 0, 0] (State.init delegate) = some s ∧
        (s.frames, s.entries 0) = ([.main []], 1) :=
    Option.map_eq_some_iff.mp (by decide)
  exact ⟨s, hs, (Prod.mk.inj hend).1, (Prod.mk.inj hend).2,
    entered_at_most_once (run_of_runDraws (.init rfl) hs) 1⟩

/-- A coroutine that yields to another one and then waits for it. -/
def rejoin : Program where
  main := [.start 0, .start 1, .wait 0]
  name co := if co = 0 then "a" else "b"
  func co := if co = 0 then [.yield, .wait 1] else [.yield]

/-- The nested `co_wait` of `rejoin` enters the half-run coroutine again. -/
theorem not_entered_at_most_once :
    ¬ ∀ (p : Program) (s : State), (machine p).Reachable s → ∀ co, s.entries co ≤ 1 := by
  intro h
  obtain ⟨s, hs, htwice⟩ : ∃ s, runDraws rejoin (fun _ _ => True) [0, 0, 0, 0, 0, 0, 0, 0]
      (State.init rejoin) = some s ∧ s.entries 1 = 2 :=
    Option.map_eq_some_iff.mp (by decide)
  have hle := h rejoin s (run_of_runDraws (.init rfl) hs) 1
  rw [htwice] at hle
  exact absurd hle (by decide)

end OsLabs.Libco
