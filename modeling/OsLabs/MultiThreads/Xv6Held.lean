import OsLabs.MultiThreads.SpinlockXv6

/-!
# OsLabs.MultiThreads.Xv6Held

What the spinlocks of `multi-threads/spinlock-xv6.c` keep to, on any number of CPUs and with
interrupts at any time.

A CPU is described by its `View`: its own state, the locks it has taken and those that have
its name in `cpu`. What other CPUs do does not change it, so each point of the code has an
assertion about the view that stays true until the CPU goes on: its weakest precondition
(`wp`). Where interrupts are on, a view is the same as it was when they were last on, but for
the variables of the context; that is why the code that a handler has interrupted can be
resumed (`Open`, `resumed`).
-/

namespace OsLabs.MultiThreads.SpinlockXv6

universe u v

variable {C : Type u} {L : Type v} [DecidableEq C] [DecidableEq L]

/-- A CPU, as only it can change it. -/
structure View (L : Type v) where
  interruptible : Bool
  ncli : Int
  /-- `intena`, while interrupts are off. -/
  intena : Option Bool
  eflags : Bool
  r : Bool
  own : Finset L
  /-- The locks with the name of the CPU. -/
  marked : L → Prop
  pushes : Nat
  wanted : Bool

/-- The view of the CPU `c`. -/
def view (s : State C L) (c : C) : View L where
  interruptible := (s.cpu c).interruptible
  ncli := (s.cpu c).ncli
  intena := if (s.cpu c).interruptible then none else some (s.cpu c).intena
  eflags := (s.cpu c).context.eflags
  r := (s.cpu c).context.r
  own := (s.cpu c).own
  marked lk := (s.lock lk).cpu = some c
  pushes := (s.cpu c).context.pushes
  wanted := (s.cpu c).wanted

/-- The view of a CPU with interrupts on that runs some code. -/
def resumed (q : Context L) : View L where
  interruptible := true
  ncli := 0
  intena := none
  eflags := q.eflags
  r := q.r
  own := ∅
  marked _ := False
  pushes := q.pushes
  wanted := true

/-- While interrupts are on, the CPU has no lock and no `pushcli` is open. -/
structure Open (v : View L) : Prop where
  ncli : v.interruptible → v.ncli = 0
  intena : v.interruptible → v.intena = none
  own : v.interruptible → v.own = ∅
  marked : v.interruptible → ∀ lk, ¬ v.marked lk
  wanted : v.interruptible → v.wanted = true

/-- Between two calls: `ncli` counts the locks of the CPU and its open `pushcli`, and interrupts
are as the kernel wants them where that is 0, and else off. -/
structure Settled (v : View L) : Prop where
  isOpen : Open v
  ncli : v.ncli = v.own.card + v.pushes
  marked : ∀ lk, v.marked lk ↔ lk ∈ v.own
  off : 0 < v.ncli → v.interruptible = false ∧ v.intena = some v.wanted
  restored : v.ncli = 0 → v.interruptible = v.wanted

/-- What a call has done when it returns. -/
def Result (call : Option (Call L)) (v : View L) : Prop :=
  match call with
  | some (.acquire lk) => lk ∈ v.own
  | some (.release lk) => lk ∉ v.own
  | some (.holding lk) => v.r = true ↔ lk ∈ v.own
  | _ => True

omit [DecidableEq L] in
theorem Result.congr {call : Option (Call L)} {v w : View L} (h : Result call v)
    (hown : w.own = v.own) (hr : w.r = v.r) : Result call w := by
  simpa only [Result, hown, hr] using h

/-- The end of a call. -/
def Done (call : Option (Call L)) (v : View L) : Prop := Settled v ∧ Result call v

/-- The weakest precondition of an instruction. -/
def wp (call : Option (Call L)) : Instr L → (View L → Prop) → View L → Prop
  | .readeflags, Q, v => Open v ∧ Q { v with eflags := v.interruptible }
  | .cli, Q, v =>
      Open v ∧ if v.interruptible then ∀ b, Q { v with interruptible := false, intena := some b }
        else Q v
  | .saveIntena, Q, v =>
      v.interruptible = false ∧
        Q { v with intena := if v.ncli = 0 then some v.eflags else v.intena }
  | .incNcli, Q, v => v.interruptible = false ∧ Q { v with ncli := v.ncli + 1 }
  | .checkInterruptible, Q, v => v.interruptible = false ∧ Q v
  | .decNcli, Q, v => v.interruptible = false ∧ Q { v with ncli := v.ncli - 1 }
  | .checkNcli, Q, v => v.interruptible = false ∧ 0 ≤ v.ncli ∧ Q v
  | .restore, Q, v =>
      v.interruptible = false ∧ if v.ncli = 0 ∧ v.intena = some true then
        Q { v with interruptible := true, intena := none } else Q v
  | .readLocked lk, Q, v =>
      v.interruptible = false ∧ ∀ b, (lk ∈ v.own → b = true) → Q { v with r := b }
  | .readCpu lk, Q, v =>
      v.interruptible = false ∧ ∀ b, (b = true ↔ v.marked lk) → Q { v with r := v.r && b }
  | .panicHeld lk, Q, v =>
      v.interruptible = false ∧ (v.r = true → call = some (.acquire lk) ∧ lk ∈ v.own) ∧
        (v.r = false → Q v)
  | .panicNotHeld lk, Q, v =>
      Open v ∧ (v.r = true → Q v) ∧ (v.r = false → call = some (.release lk) ∧ lk ∉ v.own)
  | .xchg lk, Q, v => v.interruptible = false ∧ lk ∉ v.own ∧ Q { v with own := insert lk v.own }
  | .setCpu lk, Q, v =>
      v.interruptible = false ∧ lk ∈ v.own ∧ Q { v with marked := fun x => x = lk ∨ v.marked x }
  | .clearCpu lk, Q, v =>
      v.interruptible = false ∧ lk ∈ v.own ∧ Q { v with marked := fun x => x ≠ lk ∧ v.marked x }
  | .unlock lk, Q, v =>
      v.interruptible = false ∧ lk ∈ v.own ∧ ¬ v.marked lk ∧ Q { v with own := v.own.erase lk }

/-! ### The procedures -/

section
variable {call : Option (Call L)} {lk : L} {Q : View L → Prop} {v w : View L}

/-- A view after `pushcli`. -/
def View.push (v : View L) : View L :=
  { v with
    interruptible := false, eflags := v.interruptible
    intena := if v.ncli = 0 then some v.interruptible else v.intena, ncli := v.ncli + 1 }

theorem wps_pushcli (h : Open v) (hQ : Q v.push) : wps (wp call) pushcli Q v := by
  have hopen : Open { v with eflags := v.interruptible } :=
    ⟨h.ncli, h.intena, h.own, h.marked, h.wanted⟩
  refine ⟨h, hopen, ?_⟩
  cases hi : v.interruptible with
  | true =>
      intro b
      refine ⟨rfl, rfl, ?_⟩
      have hn := h.ncli hi
      simpa [View.push, hi, hn] using hQ
  | false =>
      refine ⟨rfl, rfl, ?_⟩
      simpa [View.push, hi] using hQ

/-- A view after `popcli`. -/
def View.pop (v : View L) : View L :=
  if v.ncli = 1 ∧ v.intena = some true then
    { v with interruptible := true, intena := none, ncli := v.ncli - 1 }
  else
    { v with ncli := v.ncli - 1 }

theorem wps_popcli (hi : v.interruptible = false) (hn : 0 < v.ncli) (hQ : Q v.pop) :
    wps (wp call) popcli Q v := by
  refine ⟨hi, hi, ⟨hi, ?_, hi, ?_⟩⟩
  · simp only
    omega
  · have hiff : v.ncli - 1 = 0 ↔ v.ncli = 1 := by omega
    rw [View.pop] at hQ
    simp only [hiff, wps_nil]
    split <;> simp_all

/-- The view is one from which `holding` can be called. -/
structure Quiet (v : View L) : Prop where
  isOpen : Open v
  ncli : 0 ≤ v.ncli
  marked : ∀ lk, v.marked lk ↔ lk ∈ v.own
  off : 0 < v.ncli → v.interruptible = false

/-- The views differ in the variables of the context only, and in an `intena` that is not in
use. -/
structure Resembles (v w : View L) : Prop where
  interruptible : w.interruptible = v.interruptible
  ncli : w.ncli = v.ncli
  intena : 0 < v.ncli → w.intena = v.intena
  unused : v.interruptible → w.intena = none
  own : w.own = v.own
  marked : w.marked = v.marked
  pushes : w.pushes = v.pushes
  wanted : w.wanted = v.wanted

omit [DecidableEq L] in
theorem Settled.quiet (h : Settled v) : Quiet v :=
  ⟨h.isOpen, by rw [h.ncli]; omega, h.marked, fun hn => (h.off hn).1⟩

omit [DecidableEq L] in
theorem Quiet.push (h : Quiet v) : Quiet v.push where
  isOpen := ⟨fun hi => absurd hi (by simp [View.push]), fun hi => absurd hi (by simp [View.push]),
    fun hi => absurd hi (by simp [View.push]), fun hi => absurd hi (by simp [View.push]),
    fun hi => absurd hi (by simp [View.push])⟩
  ncli := by
    have := h.ncli
    simp only [View.push]
    omega
  marked := h.marked
  off _ := rfl

omit [DecidableEq L] in
/-- What `pushcli` has done, `popcli` undoes. -/
theorem Quiet.resembles_pop (h : Quiet v) (b : Bool) :
    Resembles v { v.push with r := b }.pop ∧ ({ v.push with r := b } : View L).pop.r = b := by
  have hn := h.ncli
  rcases Int.lt_or_eq_of_le hn with hpos | hzero
  · have hne : v.ncli ≠ 0 := by omega
    have hne' : v.ncli + 1 ≠ 1 := by omega
    have hoff := h.off hpos
    simp only [View.pop, View.push, hne, hne', if_false, false_and]
    refine ⟨⟨hoff.symm, by simp only; omega, fun _ => rfl, ?_, rfl, rfl, rfl, rfl⟩, trivial⟩
    intro hi
    simp [hoff] at hi
  · cases hi : v.interruptible with
    | true =>
        simp only [View.pop, View.push, ← hzero, hi, if_true, Int.zero_add, and_self]
        exact ⟨⟨hi.symm, by simp [← hzero], fun hlt => absurd hlt (by omega), fun _ => rfl, rfl,
          rfl, rfl, rfl⟩, trivial⟩
    | false =>
        simp only [View.pop, View.push, ← hzero, hi, if_true, Int.zero_add, true_and,
          Option.some.injEq, Bool.false_eq_true, if_false]
        exact ⟨⟨hi.symm, by simp [← hzero], fun hlt => absurd hlt (by omega),
          fun h' => absurd h' (by simp [hi]), rfl, rfl, rfl, rfl⟩, trivial⟩

/-- `holding` says whether the CPU has the lock. The lock is read in two steps, but only this
CPU can make both of them say that it has. -/
theorem wps_holding (h : Quiet v)
    (hQ : ∀ w, Resembles v w → (w.r = true ↔ lk ∈ v.own) → Q w) :
    wps (wp call) (SpinlockXv6.holding lk) Q v := by
  rw [SpinlockXv6.holding, wps_append, wps_append]
  refine wps_pushcli h.isOpen ⟨rfl, fun b hb => ⟨rfl, fun b' hb' => ?_⟩⟩
  refine wps_popcli rfl (by have := h.push.ncli; have := h.ncli; simp only [View.push]; omega) ?_
  obtain ⟨hres, hr⟩ := h.resembles_pop (b && b')
  refine hQ _ hres ?_
  rw [hr, Bool.and_eq_true, hb']
  refine ⟨fun hand => (h.marked lk).mp hand.2, fun hmem => ⟨hb hmem, (h.marked lk).mpr hmem⟩⟩

/-! ### The calls -/

omit [DecidableEq L] in
theorem Open.of_off (h : v.interruptible = false) : Open v := by
  constructor <;> intro hi <;> simp [h] at hi

/-- The code of each call leads from between two calls to between two calls. -/
theorem wps_acquire (h : Settled v) :
    wps (wp (some (.acquire lk))) (SpinlockXv6.acquire lk) (Done (some (.acquire lk))) v := by
  rw [SpinlockXv6.acquire, wps_append, wps_append]
  refine wps_pushcli h.isOpen (wps_holding h.quiet.push fun w hw hr => ?_)
  have hoff : w.interruptible = false := hw.interruptible
  have hown : w.own = v.own := hw.own
  have hn : w.ncli = v.ncli + 1 := hw.ncli
  have hcount := h.ncli
  refine ⟨hoff, fun htrue => ⟨rfl, hown ▸ hr.mp htrue⟩, fun hfalse => ?_⟩
  have hnot : lk ∉ w.own := by
    intro hmem
    rw [hown] at hmem
    rw [hr.mpr hmem] at hfalse
    exact absurd hfalse (by simp)
  have hcard : (insert lk w.own).card = v.own.card + 1 := by
    rw [Finset.card_insert_of_notMem hnot, hown]
  refine ⟨hoff, hnot, hoff, Finset.mem_insert_self lk w.own, ?_, Finset.mem_insert_self lk w.own⟩
  constructor
  case isOpen => exact .of_off hoff
  case ncli =>
    have hpushes : w.pushes = v.pushes := hw.pushes
    simp only [hcard, hn, hpushes]
    omega
  case marked =>
    intro x
    have hmark : w.marked x ↔ x ∈ w.own := by
      rw [hw.marked, hown]
      exact h.marked x
    simp [hmark]
  case off =>
    intro _
    refine ⟨hoff, ?_⟩
    have hint : w.intena = v.push.intena := hw.intena (by simp only [View.push]; omega)
    have hwanted : w.wanted = v.wanted := hw.wanted
    rw [hint, hwanted, View.push]
    simp only
    split
    · next hzero => rw [h.restored hzero]
    · next hne => exact (h.off (by omega)).2
  case restored =>
    intro hzero
    simp only [hn] at hzero
    omega

omit [DecidableEq L] in
/-- Where one `pushcli` more has been done than is counted, `popcli` leads to between two calls. -/
theorem settled_pop (hi : v.interruptible = false) (hint : v.intena = some v.wanted)
    (hn : v.ncli = v.own.card + v.pushes + 1) (hm : ∀ lk, v.marked lk ↔ lk ∈ v.own) :
    Settled v.pop := by
  rw [View.pop]
  split
  · next hlast =>
    have hwanted : v.wanted = true := Option.some.inj (hint.symm.trans hlast.2)
    have hcard : v.own.card = 0 := by omega
    have hown : v.own = ∅ := Finset.card_eq_zero.mp hcard
    have hmark : ∀ lk, ¬ v.marked lk := fun lk hmem => by simpa [hown] using (hm lk).mp hmem
    constructor
    case isOpen =>
      exact ⟨fun _ => by simp only; omega, fun _ => rfl, fun _ => hown, fun _ => hmark,
        fun _ => hwanted⟩
    case ncli => simp only; omega
    case marked => exact hm
    case off => intro hpos; simp only at hpos; omega
    case restored => exact fun _ => hwanted.symm
  · next hlast =>
    constructor
    case isOpen => exact .of_off hi
    case ncli => simp only; omega
    case marked => exact hm
    case off => exact fun _ => ⟨hi, hint⟩
    case restored =>
      intro hzero
      have hone : v.ncli = 1 := by simp only at hzero; omega
      have hne : v.intena ≠ some true := fun htrue => hlast ⟨hone, htrue⟩
      rw [hint] at hne
      simp only [hi]
      cases hw : v.wanted with
      | true => exact absurd (by rw [hw]) hne
      | false => rfl

omit [DecidableEq L] in
theorem own_pop : v.pop.own = v.own := by
  rw [View.pop]
  split <;> rfl

omit [DecidableEq L] in
/-- Views between two calls stay such. -/
theorem Settled.resembles (h : Settled v) (hw : Resembles v w) : Settled w where
  isOpen := by
    constructor <;> intro hi
    case ncli => rw [hw.ncli]; exact h.isOpen.ncli (hw.interruptible ▸ hi)
    case intena => exact hw.unused (hw.interruptible ▸ hi)
    case own => rw [hw.own]; exact h.isOpen.own (hw.interruptible ▸ hi)
    case marked => rw [hw.marked]; exact h.isOpen.marked (hw.interruptible ▸ hi)
    case wanted => rw [hw.wanted]; exact h.isOpen.wanted (hw.interruptible ▸ hi)
  ncli := by rw [hw.ncli, hw.own, hw.pushes]; exact h.ncli
  marked lk := by rw [hw.marked, hw.own]; exact h.marked lk
  off hn := by
    rw [hw.ncli] at hn
    obtain ⟨hoff, hint⟩ := h.off hn
    exact ⟨hw.interruptible.trans hoff, by rw [hw.intena hn, hint, hw.wanted]⟩
  restored hn := by
    rw [hw.ncli] at hn
    rw [hw.interruptible, h.restored hn, hw.wanted]

theorem wps_release (h : Settled v) :
    wps (wp (some (.release lk))) (SpinlockXv6.release lk) (Done (some (.release lk))) v := by
  rw [SpinlockXv6.release, wps_append, wps_append]
  refine wps_holding h.quiet fun w hw hr => ?_
  have hcount := h.ncli
  have hown : w.own = v.own := hw.own
  have hn : w.ncli = v.ncli := hw.ncli
  have hmark : ∀ x, w.marked x ↔ x ∈ w.own := by
    intro x
    rw [hw.marked, hown]
    exact h.marked x
  refine ⟨(h.resembles hw).isOpen, fun htrue => ?_, fun hfalse => ⟨rfl, fun hmem => ?_⟩⟩
  · have hmem : lk ∈ w.own := hown ▸ hr.mp htrue
    have hpos : 0 < v.own.card := Finset.card_pos.mpr ⟨lk, hown ▸ hmem⟩
    have hcard : (w.own.erase lk).card = v.own.card - 1 := by
      rw [Finset.card_erase_of_mem hmem, hown]
    obtain ⟨hoff, hint⟩ := h.off (by omega)
    have hoff : w.interruptible = false := hw.interruptible.trans hoff
    have hint : w.intena = some w.wanted := by rw [hw.intena (by omega), hint, hw.wanted]
    have hpushes : w.pushes = v.pushes := hw.pushes
    refine ⟨hoff, hmem, hoff, hmem, fun hcleared => hcleared.1 rfl, ?_⟩
    refine wps_popcli hoff (by simp only; omega) ⟨?_, ?_⟩
    · refine settled_pop hoff hint ?_ fun x => ?_
      · simp only [hcard, hn, hpushes]
        omega
      · simp [hmark]
    · simp only [Result, own_pop]
      exact Finset.notMem_erase lk w.own
  · rw [hown] at hmem
    rw [hr.mpr hmem] at hfalse
    exact absurd hfalse (by simp)

/-- A call that the kernel makes. -/
theorem wps_call (h : Settled v) (call : Call L) (hpop : call = .popcli → 0 < v.pushes) :
    wps (wp (some call)) call.code (Done (some call))
      { v with pushes := count call v.pushes } := by
  have hcount := h.ncli
  cases call with
  | acquire lk => exact wps_acquire h
  | release lk => exact wps_release h
  | holding lk =>
      refine wps_holding h.quiet fun w hw hr => ⟨h.resembles hw, ?_⟩
      simp only [Result]
      rw [hr, hw.own]
  | pushcli =>
      have hopen : Open { v with pushes := v.pushes + 1 } :=
        ⟨h.isOpen.ncli, h.isOpen.intena, h.isOpen.own, h.isOpen.marked, h.isOpen.wanted⟩
      refine wps_pushcli hopen ⟨?_, trivial⟩
      constructor
      case isOpen => exact .of_off rfl
      case ncli => simp only [View.push, count]; omega
      case marked => exact h.marked
      case off =>
        intro _
        refine ⟨rfl, ?_⟩
        simp only [View.push]
        split
        · next hzero => rw [h.restored hzero]
        · next hne => exact (h.off (by omega)).2
      case restored =>
        intro hzero
        simp only [View.push] at hzero
        omega
  | popcli =>
      have hpos := hpop rfl
      obtain ⟨hoff, hint⟩ := h.off (by omega)
      refine wps_popcli hoff (by simp only; omega) ⟨?_, trivial⟩
      exact settled_pop hoff hint (by simp only [count]; omega) h.marked

end

/-! ### The invariant -/

/-- Why a CPU may have panicked. -/
def Reason (p : Cpu L) (msg : String) : Prop :=
  (msg = "acquire" ∧ ∃ lk, p.context.call = some (.acquire lk) ∧ lk ∈ p.own) ∨
    (msg = "release" ∧ ∃ lk, p.context.call = some (.release lk) ∧ lk ∉ p.own)

/-- What a context has in front of it. -/
def Context.Ok (q : Context L) (v : View L) : Prop := wps (wp q.call) q.code (Done q.call) v

/-- What is true of a CPU and its view. -/
structure CpuOk (p : Cpu L) (v : View L) : Prop where
  code : p.panicked = none → p.context.Ok v
  panic : ∀ msg, p.panicked = some msg → Reason p msg
  stack : ∀ q ∈ p.stack, q.Ok (resumed q)

/-- The invariant of the locks and the CPUs. -/
structure Inv (s : State C L) : Prop where
  cpu : ∀ c, CpuOk (s.cpu c) (view s c)
  owner : ∀ lk c d, lk ∈ (s.cpu c).own → lk ∈ (s.cpu d).own → c = d
  locked : ∀ lk, (s.lock lk).locked = true ↔ ∃ c, lk ∈ (s.cpu c).own
  named : ∀ lk c, (s.lock lk).cpu = some c → lk ∈ (s.cpu c).own

section
variable {s s' : State C L} {c d : C} {p : Cpu L} {lk : L} {i : Instr L} {rest : List (Instr L)}

/-- At each point of the code a view is open. -/
theorem Context.Ok.isOpen {q : Context L} {v : View L} (h : q.Ok v) : Open v := by
  rw [Context.Ok] at h
  cases hcode : q.code with
  | nil =>
      rw [hcode] at h
      exact h.1.isOpen
  | cons i rest =>
      rw [hcode] at h
      cases i with
      | readeflags => exact h.1
      | cli => exact h.1
      | panicNotHeld lk => exact h.1
      | _ => exact .of_off h.1

omit [DecidableEq C] [DecidableEq L] in
/-- With interrupts on, the view is that of the context alone. -/
theorem view_eq_resumed (h : Open (view s c)) (hi : (s.cpu c).interruptible = true) :
    view s c = resumed (s.cpu c).context := by
  have hmarked : (view s c).marked = fun _ => False := by
    funext lk
    exact eq_false (h.marked hi lk)
  have hncli := h.ncli hi
  have hown := h.own hi
  have hwanted := h.wanted hi
  simp only [view] at hmarked hncli hown hwanted
  simp only [view, resumed, hi, hmarked, hncli, hown, hwanted, if_true]

omit [DecidableEq C] [DecidableEq L] in
/-- The view of another CPU, when no lock gets or loses its name. -/
theorem view_other (hcpu : s'.cpu d = s.cpu d)
    (hname : ∀ lk, (s'.lock lk).cpu = some d ↔ (s.lock lk).cpu = some d) :
    view s' d = view s d := by
  have hmarked : (fun lk => (s'.lock lk).cpu = some d) = fun lk => (s.lock lk).cpu = some d :=
    funext fun lk => propext (hname lk)
  rw [view, view, hcpu, hmarked]

/-- A step of the CPU `c` that does not touch the locks. -/
theorem Inv.setCpu (h : Inv s) (hown : p.own = (s.cpu c).own)
    (hok : CpuOk p (view (s.setCpu c p) c)) : Inv (s.setCpu c p) := by
  have hsame : ∀ d, ((s.setCpu c p).cpu d).own = (s.cpu d).own := by
    intro d
    by_cases hd : d = c
    · subst hd
      simpa [State.setCpu] using hown
    · simp [State.setCpu, hd]
  constructor
  case cpu =>
    intro d
    by_cases hd : d = c
    · subst hd
      simpa [State.setCpu] using hok
    · have hcpu : (s.setCpu c p).cpu d = s.cpu d := by simp [State.setCpu, hd]
      rw [hcpu, view_other hcpu fun _ => Iff.rfl]
      exact h.cpu d
  case owner =>
    intro lk d e
    rw [hsame, hsame]
    exact h.owner lk d e
  case locked =>
    intro lk
    simp only [hsame]
    exact h.locked lk
  case named =>
    intro lk d
    rw [hsame]
    exact h.named lk d

/-- A step of the CPU `c` that writes to a lock that it has, or takes it. -/
theorem Inv.setLock (h : Inv s) {lock : Spinlock C} (hmine : ∀ d, lk ∈ (s.cpu d).own → d = c)
    (hown : ∀ x, x ≠ lk → (x ∈ p.own ↔ x ∈ (s.cpu c).own))
    (hlocked : lock.locked = true ↔ lk ∈ p.own)
    (hname : lock.cpu = none ∨ lock.cpu = some c ∧ lk ∈ p.own)
    (hok : CpuOk p (view ((s.setLock lk lock).setCpu c p) c)) :
    Inv ((s.setLock lk lock).setCpu c p) := by
  have hcpu : ∀ d, d ≠ c → ((s.setLock lk lock).setCpu c p).cpu d = s.cpu d := by
    intro d hd
    simp [State.setCpu, State.setLock, hd]
  have hself : ((s.setLock lk lock).setCpu c p).cpu c = p := by
    simp [State.setCpu]
  have hlk : ((s.setLock lk lock).setCpu c p).lock lk = lock := by
    simp [State.setCpu, State.setLock]
  have hother : ∀ x, x ≠ lk → ((s.setLock lk lock).setCpu c p).lock x = s.lock x := by
    intro x hx
    simp [State.setCpu, State.setLock, hx]
  have hnot : ∀ d, d ≠ c → lk ∉ (s.cpu d).own := fun d hd hmem => hd (hmine d hmem)
  -- who has which lock, from the state before
  have hmem : ∀ d x, x ∈ (((s.setLock lk lock).setCpu c p).cpu d).own →
      (d = c ∧ x = lk) ∨ (x ≠ lk ∧ x ∈ (s.cpu d).own) := by
    intro d x hx
    by_cases hxl : x = lk
    · subst hxl
      by_cases hd : d = c
      · exact .inl ⟨hd, rfl⟩
      · rw [hcpu d hd] at hx
        exact absurd hx (hnot d hd)
    · refine .inr ⟨hxl, ?_⟩
      by_cases hd : d = c
      · subst hd
        rw [hself] at hx
        exact (hown x hxl).mp hx
      · rwa [hcpu d hd] at hx
  have hkeep : ∀ d x, x ≠ lk → x ∈ (s.cpu d).own →
      x ∈ (((s.setLock lk lock).setCpu c p).cpu d).own := by
    intro d x hxl hx
    by_cases hd : d = c
    · subst hd
      rw [hself]
      exact (hown x hxl).mpr hx
    · rwa [hcpu d hd]
  constructor
  case cpu =>
    intro d
    by_cases hd : d = c
    · subst hd
      rw [hself]
      exact hok
    · rw [hcpu d hd, view_other (hcpu d hd)]
      · exact h.cpu d
      · intro x
        by_cases hx : x = lk
        · subst hx
          rw [hlk]
          refine ⟨fun heq => ?_, fun heq => absurd (h.named x d heq) (hnot d hd)⟩
          rcases hname with hnone | hsome
          · rw [hnone] at heq
            exact absurd heq (by simp)
          · rw [hsome.1] at heq
            exact absurd (Option.some.inj heq).symm hd
        · rw [hother x hx]
  case owner =>
    intro x d e hd he
    rcases hmem d x hd with ⟨rfl, rfl⟩ | ⟨hx, hd⟩
    · rcases hmem e x he with ⟨rfl, -⟩ | ⟨hx, -⟩
      · rfl
      · exact absurd rfl hx
    · rcases hmem e x he with ⟨-, rfl⟩ | ⟨-, he⟩
      · exact absurd rfl hx
      · exact h.owner x d e hd he
  case locked =>
    intro x
    by_cases hx : x = lk
    · subst hx
      rw [hlk, hlocked]
      refine ⟨fun hmine => ⟨c, by rwa [hself]⟩, fun hsome => ?_⟩
      obtain ⟨d, hd⟩ := hsome
      rcases hmem d x hd with ⟨rfl, -⟩ | ⟨hne, -⟩
      · rwa [hself] at hd
      · exact absurd rfl hne
    · rw [hother x hx, h.locked]
      refine exists_congr fun d => ⟨hkeep d x hx, fun hd => ?_⟩
      rcases hmem d x hd with ⟨-, rfl⟩ | ⟨-, hd⟩
      · exact absurd rfl hx
      · exact hd
  case named =>
    intro x d heq
    by_cases hx : x = lk
    · subst hx
      rw [hlk] at heq
      rcases hname with hnone | ⟨hsome, hmine⟩
      · rw [hnone] at heq
        exact absurd heq (by simp)
      · rw [hsome] at heq
        obtain rfl := Option.some.inj heq
        rwa [hself]
    · rw [hother x hx] at heq
      exact hkeep d x hx (h.named x d heq)

/-! ### The steps -/

theorem Inv.run (h : Inv s) (hown : p.own = (s.cpu c).own) (hnone : p.panicked = none)
    (hstack : p.stack = (s.cpu c).stack) (hok : p.context.Ok (view (s.setCpu c p) c)) :
    Inv (s.setCpu c p) := by
  refine h.setCpu hown ⟨fun _ => hok, fun msg hmsg => ?_, fun q hq => ?_⟩
  · rw [hnone] at hmsg
    exact absurd hmsg (by simp)
  · rw [hstack] at hq
    exact (h.cpu c).stack q hq

theorem Inv.fail {msg : String} (h : Inv s) (hreason : Reason (s.cpu c) msg) :
    Inv (s.setCpu c { s.cpu c with panicked := some msg }) := by
  refine h.setCpu rfl ⟨fun hnone => absurd hnone (by simp), fun m hm => ?_, (h.cpu c).stack⟩
  obtain rfl := Option.some.inj hm
  exact hreason

theorem Inv.runLock {lock : Spinlock C} (h : Inv s) (hmine : ∀ d, lk ∈ (s.cpu d).own → d = c)
    (hown : ∀ x, x ≠ lk → (x ∈ p.own ↔ x ∈ (s.cpu c).own))
    (hlocked : lock.locked = true ↔ lk ∈ p.own)
    (hname : lock.cpu = none ∨ lock.cpu = some c ∧ lk ∈ p.own)
    (hnone : p.panicked = none) (hstack : p.stack = (s.cpu c).stack)
    (hok : p.context.Ok (view ((s.setLock lk lock).setCpu c p) c)) :
    Inv ((s.setLock lk lock).setCpu c p) := by
  refine h.setLock hmine hown hlocked hname ⟨fun _ => hok, fun msg hmsg => ?_, fun q hq => ?_⟩
  · rw [hnone] at hmsg
    exact absurd hmsg (by simp)
  · rw [hstack] at hq
    exact (h.cpu c).stack q hq

/-- An instruction keeps the invariant. -/
theorem Inv.exec (h : Inv s) (hnone : (s.cpu c).panicked = none)
    (hcode : (s.cpu c).context.code = i :: rest) :
    Inv (SpinlockXv6.exec c s rest (s.cpu c) i) := by
  have hok := (h.cpu c).code hnone
  rw [Context.Ok, hcode, wps_cons] at hok
  cases i with
  | readeflags =>
      refine h.run rfl hnone rfl ?_
      simpa [Context.Ok, view, State.setCpu] using hok.2
  | cli =>
      refine h.run rfl hnone rfl ?_
      have hok := hok.2
      by_cases hi : (s.cpu c).interruptible = true
      · have hall := hok
        simp only [view, hi, if_true] at hall
        simpa [Context.Ok, view, State.setCpu] using hall (s.cpu c).intena
      · simpa [Context.Ok, view, State.setCpu, hi] using hok
  | saveIntena =>
      refine h.run rfl hnone rfl ?_
      obtain ⟨hi, hok⟩ := hok
      have hi : (s.cpu c).interruptible = false := hi
      by_cases hn : (s.cpu c).ncli = 0 <;>
        simpa [Context.Ok, view, State.setCpu, hi, hn] using hok
  | incNcli =>
      refine h.run rfl hnone rfl ?_
      simpa [Context.Ok, view, State.setCpu] using hok.2
  | checkInterruptible =>
      obtain ⟨hi, hok⟩ := hok
      have hi : (s.cpu c).interruptible = false := hi
      simp only [SpinlockXv6.exec, hi, Bool.false_eq_true, if_false]
      refine h.run rfl hnone rfl ?_
      simpa [Context.Ok, view, State.setCpu, hi] using hok
  | decNcli =>
      refine h.run rfl hnone rfl ?_
      simpa [Context.Ok, view, State.setCpu] using hok.2
  | checkNcli =>
      obtain ⟨-, hn, hok⟩ := hok
      have hn : ¬ (s.cpu c).ncli < 0 := Int.not_lt.mpr hn
      simp only [SpinlockXv6.exec, hn, if_false]
      refine h.run rfl hnone rfl ?_
      simpa [Context.Ok, view, State.setCpu] using hok
  | restore =>
      refine h.run rfl hnone rfl ?_
      obtain ⟨hi, hok⟩ := hok
      have hi : (s.cpu c).interruptible = false := hi
      by_cases hsti : (s.cpu c).ncli = 0 ∧ (s.cpu c).intena = true
      · simpa [Context.Ok, view, State.setCpu, hi, hsti] using hok
      · simp only [view, hi, Bool.false_eq_true, if_false, Option.some.injEq, hsti] at hok
        simpa [Context.Ok, view, State.setCpu, hi, hsti] using hok
  | readLocked lk =>
      refine h.run rfl hnone rfl ?_
      have hread := hok.2 (s.lock lk).locked fun hmem => (h.locked lk).mpr ⟨c, hmem⟩
      simpa [Context.Ok, view, State.setCpu] using hread
  | readCpu lk =>
      refine h.run rfl hnone rfl ?_
      have hread := hok.2 (decide ((s.lock lk).cpu = some c)) (by simp [view])
      simpa [Context.Ok, view, State.setCpu] using hread
  | panicHeld lk =>
      obtain ⟨-, htrue, hfalse⟩ := hok
      cases hr : (s.cpu c).context.r with
      | true =>
          simp only [SpinlockXv6.exec, hr, if_true]
          exact h.fail (.inl ⟨rfl, lk, htrue hr⟩)
      | false =>
          simp only [SpinlockXv6.exec, hr, Bool.false_eq_true, if_false]
          refine h.run rfl hnone rfl ?_
          simpa [Context.Ok, view, State.setCpu, hr] using hfalse hr
  | panicNotHeld lk =>
      obtain ⟨-, htrue, hfalse⟩ := hok
      cases hr : (s.cpu c).context.r with
      | true =>
          simp only [SpinlockXv6.exec, hr, if_true]
          refine h.run rfl hnone rfl ?_
          simpa [Context.Ok, view, State.setCpu, hr] using htrue hr
      | false =>
          simp only [SpinlockXv6.exec, hr, Bool.false_eq_true, if_false]
          exact h.fail (.inr ⟨rfl, lk, hfalse hr⟩)
  | xchg lk =>
      obtain ⟨-, -, hok⟩ := hok
      cases hlocked : (s.lock lk).locked with
      | true =>
          simp only [SpinlockXv6.exec, hlocked, if_true]
          exact h
      | false =>
          simp only [SpinlockXv6.exec, hlocked, Bool.false_eq_true, if_false]
          have hfree : ∀ d, lk ∉ (s.cpu d).own := fun d hmem => by
            rw [(h.locked lk).mpr ⟨d, hmem⟩] at hlocked
            exact absurd hlocked (by simp)
          have hname : (s.lock lk).cpu = none := by
            cases hcpu : (s.lock lk).cpu with
            | none => rfl
            | some d => exact absurd (h.named lk d hcpu) (hfree d)
          refine h.runLock (fun d hmem => absurd hmem (hfree d)) (fun x hx => by simp [hx])
            (by simp) (.inl hname) hnone rfl ?_
          have hview : (fun x => (Function.update s.lock lk
              { s.lock lk with locked := true } x).cpu = some c) =
                fun x => (s.lock x).cpu = some c := by
            funext x
            by_cases hx : x = lk
            · subst hx
              simp
            · simp [hx]
          simpa [Context.Ok, view, State.setCpu, State.setLock, hview] using hok
  | setCpu lk =>
      obtain ⟨-, hmem, hok⟩ := hok
      have hmem : lk ∈ (s.cpu c).own := hmem
      refine h.runLock (fun d hd => h.owner lk d c hd hmem) (fun x _ => Iff.rfl)
        ⟨fun _ => hmem, fun _ => (h.locked lk).mpr ⟨c, hmem⟩⟩ (.inr ⟨rfl, hmem⟩) hnone rfl ?_
      have hview : (fun x => (Function.update s.lock lk
          { s.lock lk with cpu := some c } x).cpu = some c) =
            fun x => x = lk ∨ (s.lock x).cpu = some c := by
        funext x
        by_cases hx : x = lk
        · subst hx
          simp
        · simp [hx]
      simpa [Context.Ok, view, State.setCpu, State.setLock, hview] using hok
  | clearCpu lk =>
      obtain ⟨-, hmem, hok⟩ := hok
      have hmem : lk ∈ (s.cpu c).own := hmem
      refine h.runLock (fun d hd => h.owner lk d c hd hmem) (fun x _ => Iff.rfl)
        ⟨fun _ => hmem, fun _ => (h.locked lk).mpr ⟨c, hmem⟩⟩ (.inl rfl) hnone rfl ?_
      have hview : (fun x => (Function.update s.lock lk
          { s.lock lk with cpu := none } x).cpu = some c) =
            fun x => x ≠ lk ∧ (s.lock x).cpu = some c := by
        funext x
        by_cases hx : x = lk
        · subst hx
          simp
        · simp [hx]
      simpa [Context.Ok, view, State.setCpu, State.setLock, hview] using hok
  | unlock lk =>
      obtain ⟨-, hmem, hmark, hok⟩ := hok
      have hmem : lk ∈ (s.cpu c).own := hmem
      have hname : (s.lock lk).cpu = none := by
        cases hcpu : (s.lock lk).cpu with
        | none => rfl
        | some d =>
            obtain rfl := h.owner lk d c (h.named lk d hcpu) hmem
            exact absurd hcpu hmark
      refine h.runLock (fun d hd => h.owner lk d c hd hmem) (fun x hx => by simp [hx])
        (by simp) (.inl hname) hnone rfl ?_
      have hview : (fun x => (Function.update s.lock lk
          { s.lock lk with locked := false } x).cpu = some c) =
            fun x => (s.lock x).cpu = some c := by
        funext x
        by_cases hx : x = lk
        · subst hx
          simp
        · simp [hx]
      simpa [Context.Ok, view, State.setCpu, State.setLock, hview] using hok

omit [DecidableEq C] in
theorem inv_initial (h : Initial s) : Inv s := by
  have hown : ∀ c, (s.cpu c).own = ∅ := fun c => (h.2 c).2.2.2.2.2
  constructor
  case cpu =>
    intro c
    obtain ⟨hn, hcontext, hstack, hpanic, hwanted, hempty⟩ := h.2 c
    refine ⟨fun _ => ?_, fun msg hmsg => ?_, fun q hq => ?_⟩
    · rw [hcontext]
      refine ⟨?_, trivial⟩
      constructor
      case isOpen =>
        refine ⟨fun _ => hn, fun hi => ?_, fun _ => hempty, fun _ lk => ?_, fun hi => ?_⟩
        · have hi : (s.cpu c).interruptible = true := hi
          simp [view, hi]
        · simp [view, h.1, initlock]
        · exact hwanted.trans hi
      case ncli => simp [view, hn, hcontext, hempty, Context.start]
      case marked => simp [view, h.1, initlock, hempty]
      case off =>
        intro hpos
        simp [view, hn] at hpos
      case restored => exact fun _ => hwanted.symm
    · rw [hpanic] at hmsg
      exact absurd hmsg (by simp)
    · rw [hstack] at hq
      exact absurd hq List.not_mem_nil
  case owner =>
    intro lk c d hmem
    rw [hown] at hmem
    exact absurd hmem (Finset.notMem_empty lk)
  case locked => simp [h.1, initlock, hown]
  case named => simp [h.1, initlock]

omit [DecidableEq C] in
/-- The settled view of a CPU between two calls. -/
theorem Inv.done (h : Inv s) (hnone : (s.cpu c).panicked = none)
    (hcode : (s.cpu c).context.code = []) : Done (s.cpu c).context.call (view s c) := by
  have hok := (h.cpu c).code hnone
  rwa [Context.Ok, hcode] at hok

/-- A step keeps the invariant. -/
theorem Inv.next {l : C × Act L} (h : Inv s) (hok : Matched s l)
    (hs : SpinlockXv6.next s l = some s') : Inv s' := by
  obtain ⟨c, act⟩ := l
  rw [SpinlockXv6.next] at hs
  split at hs
  · exact absurd hs (by simp)
  next hpanic =>
  have hnone : (s.cpu c).panicked = none := by simpa using hpanic
  cases act with
  | run =>
      cases hcode : (s.cpu c).context.code with
      | nil => simp [hcode] at hs
      | cons i rest =>
          simp only [hcode] at hs
          obtain rfl := Option.some.inj hs
          exact h.exec hnone hcode
  | call call =>
      simp only at hs
      split at hs
      · next hcode =>
        obtain rfl := Option.some.inj hs
        refine h.run rfl hnone rfl ?_
        have hcall := wps_call (h.done hnone hcode).1 call fun hpop => by
          subst hpop
          exact hok
        simpa [Context.Ok, view, State.setCpu] using hcall
      · exact absurd hs (by simp)
  | interrupt =>
      simp only at hs
      split at hs
      · next hi =>
        obtain rfl := Option.some.inj hs
        have hview := view_eq_resumed ((h.cpu c).code hnone).isOpen hi
        have hopen := ((h.cpu c).code hnone).isOpen
        refine h.setCpu rfl ⟨fun _ => ?_, fun msg hmsg => ?_, fun q hq => ?_⟩
        · have hn : (s.cpu c).ncli = 0 := hopen.ncli hi
          have hown : (s.cpu c).own = ∅ := hopen.own hi
          have hmark : ∀ lk, (s.lock lk).cpu ≠ some c := hopen.marked hi
          refine ⟨⟨.of_off ?_, ?_, ?_, ?_, ?_⟩, trivial⟩ <;>
            simp [view, State.setCpu, hn, hown, hmark, Context.start]
        · have hmsg : (s.cpu c).panicked = some msg := hmsg
          rw [hnone] at hmsg
          exact absurd hmsg (by simp)
        · rcases List.mem_cons.mp hq with rfl | hq
          · rw [← hview]
            exact (h.cpu c).code hnone
          · exact (h.cpu c).stack q hq
      · exact absurd hs (by simp)
  | iret =>
      simp only at hs
      split at hs
      · exact absurd hs (by simp)
      · next q stack hstack =>
        split at hs
        · next hcode =>
          obtain rfl := Option.some.inj hs
          have hsettled := (h.done hnone hcode).1
          have hn : (s.cpu c).ncli = 0 := hok
          have hzero : (view s c).own.card = 0 := by
            have hcount := hsettled.ncli
            have hview : (view s c).ncli = 0 := hn
            omega
          have hown : (s.cpu c).own = ∅ := Finset.card_eq_zero.mp hzero
          have hmark : ∀ lk, (s.lock lk).cpu ≠ some c := fun lk hlk => by
            have := h.named lk c hlk
            simp [hown] at this
          have hq := (h.cpu c).stack q (by simp [hstack])
          refine h.setCpu rfl ⟨fun _ => ?_, fun msg hmsg => ?_, fun q' hq' => ?_⟩
          · have hview : view (s.setCpu c { s.cpu c with
                interruptible := true, wanted := true, context := q, stack := stack }) c =
                  resumed q := by
              simp [view, resumed, State.setCpu, hn, hown, hmark]
            rw [hview]
            exact hq
          · have hmsg : (s.cpu c).panicked = some msg := hmsg
            rw [hnone] at hmsg
            exact absurd hmsg (by simp)
          · exact (h.cpu c).stack q' (by rw [hstack]; exact List.mem_cons_of_mem q hq')
        · exact absurd hs (by simp)
  | setFlag on =>
      simp only at hs
      split at hs
      · next hcode =>
        obtain rfl := Option.some.inj hs
        obtain ⟨hsettled, hresult⟩ := h.done hnone hcode
        have hn : (s.cpu c).ncli = 0 := hok
        have hcount := hsettled.ncli
        have hview : (view s c).ncli = 0 := hn
        have hzero : (view s c).own.card = 0 := by omega
        have hown : (s.cpu c).own = ∅ := Finset.card_eq_zero.mp hzero
        have hpushes : (s.cpu c).context.pushes = 0 := by
          have heq : (view s c).pushes = 0 := by omega
          exact heq
        have hmark : ∀ lk, (s.lock lk).cpu ≠ some c := fun lk hlk => by
          have := h.named lk c hlk
          simp [hown] at this
        refine h.run rfl hnone rfl ?_
        rw [Context.Ok, hcode]
        refine ⟨⟨⟨?_, ?_, ?_, ?_, ?_⟩, ?_, ?_, ?_, ?_⟩, hresult.congr ?_ ?_⟩ <;>
          simp [view, State.setCpu, hn, hown, hmark, hpushes]
      · exact absurd hs (by simp)

theorem inv_of_run (h : (machine C L).Run Matched s) : Inv s :=
  h.invariant ⟨fun _ => inv_initial, fun _ _ _ hI hok hs => hI.next hok hs⟩

/-! ### Runs that are computed -/

instance (s : State C L) (l : C × Act L) : Decidable (Matched s l) := by
  unfold Matched
  split <;> infer_instance

/-- A step that keeps to the rules. -/
def nextMatched (s : State C L) (l : C × Act L) : Option (State C L) :=
  if Matched s l then next s l else none

theorem run_follow {ls : List (C × Act L)} (h : Initial s)
    (hs : System.follow nextMatched ls s = some s') : (machine C L).Run Matched s' := by
  refine (System.Run.init h).follow ?_ hs
  intro t l t' ht
  rw [nextMatched] at ht
  split at ht
  · next hok => exact ⟨hok, ht⟩
  · exact absurd ht (by simp)

/-- Two CPUs with interrupts on, and one lock. -/
def twoCpus : State Bool Unit where
  lock _ := initlock
  cpu _ :=
    { interruptible := true, ncli := 0, intena := false, context := .start, stack := [],
      panicked := none, wanted := true, own := ∅ }

theorem twoCpus_initial : Initial twoCpus :=
  ⟨fun _ => rfl, fun _ => ⟨rfl, rfl, rfl, rfl, rfl, rfl⟩⟩

/-- The first takes the lock, and the second waits for it. -/
def contend : List (Bool × Act Unit) :=
  (false, .call (.acquire ())) :: List.replicate 17 (false, .run) ++
    (true, .call (.acquire ())) :: List.replicate 15 (true, .run)

theorem exists_contend : ∃ s, (machine Bool Unit).Run Matched s ∧ () ∈ (s.cpu false).own ∧
    (s.cpu false).panicked = none ∧ (s.cpu false).context.code = [] := by
  have hsome : ((System.follow nextMatched contend twoCpus).map fun s =>
      decide (() ∈ (s.cpu false).own) && (s.cpu false).panicked.isNone &&
        (s.cpu false).context.code.isEmpty) = some true := by decide
  obtain ⟨s, hs, hfacts⟩ := Option.map_eq_some_iff.mp hsome
  simp only [Bool.and_eq_true, decide_eq_true_eq, List.isEmpty_iff, Option.isNone_iff_eq_none]
    at hfacts
  exact ⟨s, run_follow twoCpus_initial hs, hfacts.1.1, hfacts.1.2, hfacts.2⟩

/-- A CPU takes the lock twice. -/
def again : List (Bool × Act Unit) :=
  (false, .call (.acquire ())) :: List.replicate 17 (false, .run) ++
    (false, .call (.acquire ())) :: List.replicate 15 (false, .run)

theorem exists_again : ∃ s, (machine Bool Unit).Run Matched s ∧
    (s.cpu false).panicked = some "acquire" := by
  have hsome : ((System.follow nextMatched again twoCpus).map fun s =>
      decide ((s.cpu false).panicked = some "acquire")) = some true := by decide
  obtain ⟨s, hs, hfacts⟩ := Option.map_eq_some_iff.mp hsome
  exact ⟨s, run_follow twoCpus_initial hs, of_decide_eq_true hfacts⟩

/-! ### What the locks give -/

/-- A lock is taken by one CPU at a time. When `acquire` has returned the CPU has the lock, when
`release` has it has not, and `holding` has said which of the two is the case. -/
theorem own_exclusive (h : (machine C L).Run Matched s) :
    (∀ lk c d, lk ∈ (s.cpu c).own → lk ∈ (s.cpu d).own → c = d) ∧
      ∀ c, (s.cpu c).panicked = none → (s.cpu c).context.code = [] → ∀ lk,
        ((s.cpu c).context.call = some (.acquire lk) → lk ∈ (s.cpu c).own) ∧
        ((s.cpu c).context.call = some (.release lk) → lk ∉ (s.cpu c).own) ∧
        ((s.cpu c).context.call = some (.holding lk) →
          ((s.cpu c).context.r = true ↔ lk ∈ (s.cpu c).own)) := by
  have hI := inv_of_run h
  refine ⟨hI.owner, fun c hnone hcode lk => ?_⟩
  have hresult := (hI.done hnone hcode).2
  refine ⟨fun hcall => ?_, fun hcall => ?_, fun hcall => ?_⟩ <;>
    · rw [hcall] at hresult
      exact hresult

theorem own_exclusive_contend : ∃ s, (machine Bool Unit).Run Matched s ∧
    () ∈ (s.cpu false).own ∧ () ∉ (s.cpu true).own := by
  obtain ⟨s, hs, hown, -, -⟩ := exists_contend
  refine ⟨s, hs, hown, fun hmem => ?_⟩
  exact absurd ((own_exclusive hs).1 () false true hown hmem) (by decide)

/-- Interrupts are off while the CPU has a lock, at every point of the code. Between two calls
`ncli` is the number of locks that it has and of its open `pushcli`; where that is 0, interrupts
are as the kernel has set them. -/
theorem interrupts_restored (h : (machine C L).Run Matched s) (c : C)
    (hnone : (s.cpu c).panicked = none) :
    ((s.cpu c).own ≠ ∅ → (s.cpu c).interruptible = false) ∧
      ((s.cpu c).context.code = [] →
        (s.cpu c).ncli = (s.cpu c).own.card + (s.cpu c).context.pushes ∧
          (0 < (s.cpu c).ncli → (s.cpu c).interruptible = false) ∧
            ((s.cpu c).ncli = 0 → (s.cpu c).interruptible = (s.cpu c).wanted)) := by
  have hI := inv_of_run h
  refine ⟨fun hown => ?_, fun hcode => ?_⟩
  · have hopen := ((hI.cpu c).code hnone).isOpen
    cases hi : (s.cpu c).interruptible with
    | true => exact absurd (hopen.own hi) hown
    | false => rfl
  · have hsettled := (hI.done hnone hcode).1
    exact ⟨hsettled.ncli, fun hn => (hsettled.off hn).1, hsettled.restored⟩

theorem interrupts_restored_contend : ∃ s, (machine Bool Unit).Run Matched s ∧
    (s.cpu false).ncli = (s.cpu false).own.card + (s.cpu false).context.pushes ∧
      (s.cpu false).interruptible = false := by
  obtain ⟨s, hs, hown, hnone, hcode⟩ := exists_contend
  obtain ⟨hoff, hidle⟩ := interrupts_restored hs false hnone
  exact ⟨s, hs, (hidle hcode).1, hoff (Finset.ne_empty_of_mem hown)⟩

/-- `acquire` panics exactly where the CPU has the lock already, and `release` where it has not;
there are no other panics. So a CPU never waits for a lock that it has itself. -/
theorem panics_iff (h : (machine C L).Run Matched s) (c : C) :
    (∀ msg, (s.cpu c).panicked = some msg → Reason (s.cpu c) msg) ∧
      ((s.cpu c).panicked = none → ∀ lk rest,
        ((s.cpu c).context.code = .panicHeld lk :: .xchg lk :: rest →
          ((s.cpu c).context.r = true ↔ lk ∈ (s.cpu c).own)) ∧
        ((s.cpu c).context.code = .panicNotHeld lk :: .clearCpu lk :: rest →
          ((s.cpu c).context.r = true ↔ lk ∈ (s.cpu c).own)) ∧
        ((s.cpu c).context.code = .xchg lk :: rest → lk ∉ (s.cpu c).own)) := by
  have hI := inv_of_run h
  refine ⟨(hI.cpu c).panic, fun hnone lk rest => ?_⟩
  have hok := (hI.cpu c).code hnone
  rw [Context.Ok] at hok
  refine ⟨fun hcode => ?_, fun hcode => ?_, fun hcode => ?_⟩
  · rw [hcode] at hok
    obtain ⟨-, htrue, hfalse⟩ := hok
    refine ⟨fun hr => (htrue hr).2, fun hmem => ?_⟩
    by_contra hr
    exact (hfalse (Bool.eq_false_of_not_eq_true hr)).2.1 hmem
  · rw [hcode] at hok
    obtain ⟨-, htrue, hfalse⟩ := hok
    refine ⟨fun hr => (htrue hr).2.1, fun hmem => ?_⟩
    by_contra hr
    exact (hfalse (Bool.eq_false_of_not_eq_true hr)).2 hmem
  · rw [hcode] at hok
    exact hok.2.1

theorem panics_iff_again : ∃ s, (machine Bool Unit).Run Matched s ∧
    (s.cpu false).panicked = some "acquire" ∧ Reason (s.cpu false) "acquire" := by
  obtain ⟨s, hs, hmsg⟩ := exists_again
  exact ⟨s, hs, hmsg, (panics_iff hs false).1 _ hmsg⟩

end

end OsLabs.MultiThreads.SpinlockXv6
