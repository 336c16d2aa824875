import Mathlib.Algebra.BigOperators.Group.List.Basic
import Mathlib.Algebra.GroupWithZero.Nat
import Mathlib.Data.List.Nodup
import Mathlib.Logic.Function.Basic

/-!
# OsLabs.LostUpdates

Threads that count on one shared number without a lock: an increment is a load into a
register of the thread, and later a store of one more than what was loaded. In between,
what other threads store is lost.

A run is the list of the threads that make the next operation. Whatever the order, a run of
`n` operations counts to `n / 2` at most (`run_le`); if every thread of it increments twice,
it counts to two at least (`two_le_run`). Both can happen: nothing is lost when the threads
run one after the other (`run_inTurn`), and all but two increments are when one thread holds
on to an old value (`run_worst`). So can everything in between (`exists_run_eq`).
-/

namespace OsLabs.LostUpdates

universe u

variable {τ : Type u}

/-- The shared number, and for each thread its register and how many operations it has
made. -/
structure State (τ : Type u) where
  x : Nat
  tmp : τ → Nat
  done : τ → Nat

/-- Nothing is counted yet. -/
def State.init : State τ where
  x := 0
  tmp _ := 0
  done _ := 0

variable [DecidableEq τ]

/-- The next operation of `t`: a load, or the store that goes with the last one. -/
def State.step (s : State τ) (t : τ) : State τ :=
  if s.done t % 2 = 0 then
    { s with tmp := Function.update s.tmp t s.x, done := Function.update s.done t (s.done t + 1) }
  else
    { s with x := s.tmp t + 1, done := Function.update s.done t (s.done t + 1) }

/-- The operations of the threads `ids`, in this order. -/
def run (s : State τ) (ids : List τ) : State τ := ids.foldl State.step s

section
variable {s : State τ} {t u : τ} {ids ids' : List τ} {n : Nat}

@[simp] theorem run_nil : run s [] = s := rfl

@[simp] theorem run_cons : run s (t :: ids) = run (s.step t) ids := rfl

@[simp] theorem run_append : run s (ids ++ ids') = run (run s ids) ids' := List.foldl_append

theorem step_of_even (h : s.done t % 2 = 0) : s.step t =
    { s with tmp := Function.update s.tmp t s.x
             done := Function.update s.done t (s.done t + 1) } := if_pos h

theorem step_of_odd (h : s.done t % 2 = 1) : s.step t =
    { s with x := s.tmp t + 1, done := Function.update s.done t (s.done t + 1) } :=
  if_neg (by omega)

theorem step_x_of_even (h : s.done t % 2 = 0) : (s.step t).x = s.x := by
  rw [step_of_even h]

theorem step_x_of_odd (h : s.done t % 2 = 1) : (s.step t).x = s.tmp t + 1 := by
  rw [step_of_odd h]

theorem step_tmp_of_even (h : s.done t % 2 = 0) : (s.step t).tmp t = s.x := by
  rw [step_of_even h]
  exact Function.update_self ..

theorem step_tmp_of_ne (h : u ≠ t) : (s.step t).tmp u = s.tmp u := by
  unfold State.step
  split
  · exact Function.update_of_ne h ..
  · rfl

theorem step_done : (s.step t).done = Function.update s.done t (s.done t + 1) := by
  unfold State.step
  split <;> rfl

theorem step_done_self : (s.step t).done t = s.done t + 1 := by
  rw [step_done, Function.update_self]

theorem step_done_of_ne (h : u ≠ t) : (s.step t).done u = s.done u := by
  rw [step_done, Function.update_of_ne h]

/-- A thread that is to store has loaded just now, or it has not moved. -/
theorem step_loaded (hu : (s.step t).done u % 2 = 1) :
    (s.done u % 2 = 0 ∧ (s.step t).done u = s.done u + 1 ∧ (s.step t).tmp u = s.x) ∨
      ((s.step t).done u = s.done u ∧ (s.step t).tmp u = s.tmp u) := by
  by_cases h : u = t
  · subst h
    rw [step_done_self] at hu
    have heven : s.done u % 2 = 0 := by omega
    exact .inl ⟨heven, step_done_self, step_tmp_of_even heven⟩
  · exact .inr ⟨step_done_of_ne h, step_tmp_of_ne h⟩

theorem run_done : (run s ids).done u = s.done u + ids.count u := by
  induction ids generalizing s with
  | nil => rfl
  | cons t ids ih =>
      rw [run_cons, ih]
      by_cases h : u = t
      · subst h
        rw [step_done_self, List.count_cons_self]
        omega
      · rw [step_done_of_ne h, List.count_cons_of_ne (Ne.symm h)]

/-- The others do not touch the register of a thread. -/
theorem run_tmp (h : u ∉ ids) : (run s ids).tmp u = s.tmp u := by
  induction ids generalizing s with
  | nil => rfl
  | cons t ids ih =>
      obtain ⟨hut, hu⟩ := List.ne_and_not_mem_of_not_mem_cons h
      rw [run_cons, ih hu, step_tmp_of_ne hut]

/-! ### What every order has in common -/

/-- After `n` operations `x` is at most `n / 2`, and so is what a thread is about to
store. -/
structure AtMost (s : State τ) (n : Nat) : Prop where
  x : 2 * s.x ≤ n
  tmp : ∀ t, s.done t % 2 = 1 → 2 * s.tmp t + 1 ≤ n

theorem AtMost.step (h : AtMost s n) (t : τ) : AtMost (s.step t) (n + 1) := by
  constructor
  case x =>
    rcases Nat.mod_two_eq_zero_or_one (s.done t) with heven | hodd
    · rw [step_x_of_even heven]
      exact Nat.le_succ_of_le h.x
    · have := h.tmp t hodd
      rw [step_x_of_odd hodd]
      omega
  case tmp =>
    intro u hu
    rcases step_loaded hu with ⟨-, -, htmp⟩ | ⟨hdone, htmp⟩
    · rw [htmp]
      exact Nat.succ_le_succ h.x
    · rw [htmp]
      exact Nat.le_succ_of_le (h.tmp u (hdone ▸ hu))

theorem AtMost.run (h : AtMost s n) : AtMost (run s ids) (n + ids.length) := by
  induction ids generalizing s n with
  | nil => exact h
  | cons t ids ih =>
      have := ih (h.step t)
      rwa [Nat.add_assoc, Nat.add_comm 1] at this

/-- A run counts no further than its stores. -/
theorem run_le (ids : List τ) : 2 * (run .init ids).x ≤ ids.length := by
  have hinit : AtMost (τ := τ) .init 0 :=
    ⟨Nat.le_refl 0, fun t ht => absurd ht (by simp [State.init])⟩
  have hrun : AtMost (run .init ids) (0 + ids.length) := hinit.run
  rw [Nat.zero_add] at hrun
  exact hrun.x

/-- A thread that has incremented has left something in `x`, and finds it there again. -/
structure AtLeast (s : State τ) : Prop where
  x : ∀ t, 2 ≤ s.done t → 1 ≤ s.x
  tmp : ∀ t, s.done t % 2 = 1 → 3 ≤ s.done t → 1 ≤ s.tmp t

theorem AtLeast.step (h : AtLeast s) (t : τ) : AtLeast (s.step t) := by
  constructor
  case x =>
    intro u hu
    rcases Nat.mod_two_eq_zero_or_one (s.done t) with heven | hodd
    · rw [step_x_of_even heven]
      -- a load completes no increment
      by_cases hut : u = t
      · subst hut
        rw [step_done_self] at hu
        exact h.x u (by omega)
      · exact h.x u (step_done_of_ne hut ▸ hu)
    · rw [step_x_of_odd hodd]
      exact Nat.succ_le_succ (Nat.zero_le _)
  case tmp =>
    intro u hu hthree
    rcases step_loaded hu with ⟨-, hdone, htmp⟩ | ⟨hdone, htmp⟩
    · rw [htmp]
      exact h.x u (by omega)
    · rw [htmp]
      exact h.tmp u (hdone ▸ hu) (hdone ▸ hthree)

theorem AtLeast.run (h : AtLeast s) : AtLeast (run s ids) := by
  induction ids generalizing s with
  | nil => exact h
  | cons t ids ih => exact ih (h.step t)

/-- The last store is the second of its thread at the earliest, so that thread has seen an
increment, its own or another. -/
theorem two_le_run (hne : ids ≠ []) (heven : ∀ t ∈ ids, ids.count t % 2 = 0)
    (hfour : ∀ t ∈ ids, 4 ≤ ids.count t) : 2 ≤ (run .init ids).x := by
  obtain ⟨pre, t, rfl⟩ := (List.eq_nil_or_concat' ids).resolve_left hne
  have ht : t ∈ pre ++ [t] := by simp
  have heven := heven t ht
  have hfour := hfour t ht
  rw [List.count_append, List.count_singleton_self] at heven hfour
  have hinit : AtLeast (τ := τ) .init :=
    ⟨fun t ht => absurd ht (by simp [State.init]), fun t ht => absurd ht (by simp [State.init])⟩
  have hpre : AtLeast (run .init pre) := hinit.run
  have hdone : (run .init pre).done t = pre.count t := by
    rw [run_done]
    exact Nat.zero_add _
  have hodd : (run .init pre).done t % 2 = 1 := by omega
  have htmp := hpre.tmp t hodd (by omega)
  rw [run_append, run_cons, run_nil, step_x_of_odd hodd]
  exact Nat.succ_le_succ htmp

/-! ### Two orders -/

/-- A thread that runs alone loses nothing. -/
theorem run_replicate (h : s.done t % 2 = 0) (k : Nat) :
    (run s (List.replicate (2 * k) t)).x = s.x + k := by
  induction k generalizing s with
  | zero => rfl
  | succ k ih =>
      have hodd : (s.step t).done t % 2 = 1 := by
        rw [step_done_self]
        omega
      have heven : ((s.step t).step t).done t % 2 = 0 := by
        rw [step_done_self]
        omega
      rw [Nat.mul_succ, List.replicate_succ, List.replicate_succ, run_cons, run_cons, ih heven,
        step_x_of_odd hodd, step_tmp_of_even h]
      omega

/-- One thread after the other. -/
def inTurn (k : τ → Nat) (ts : List τ) : List τ :=
  ts.flatMap fun t => List.replicate (2 * k t) t

theorem run_inTurn (h : ∀ t, s.done t % 2 = 0) (k : τ → Nat) (ts : List τ) :
    (run s (inTurn k ts)).x = s.x + (ts.map k).sum := by
  induction ts generalizing s with
  | nil => rfl
  | cons t ts ih =>
      have hnext : ∀ u, (run s (List.replicate (2 * k t) t)).done u % 2 = 0 := by
        intro u
        have := h u
        rw [run_done, List.count_replicate]
        split <;> omega
      rw [inTurn, List.flatMap_cons, run_append, ← inTurn, ih hnext, run_replicate (h t),
        List.map_cons, List.sum_cons, Nat.add_assoc]

theorem count_inTurn (k : τ → Nat) {ts : List τ} (hn : ts.Nodup) (u : τ) :
    (inTurn k ts).count u = if u ∈ ts then 2 * k u else 0 := by
  induction ts with
  | nil => rfl
  | cons t ts ih =>
      obtain ⟨ht, hn⟩ := List.nodup_cons.mp hn
      rw [inTurn, List.flatMap_cons, List.count_append, ← inTurn, ih hn, List.count_replicate]
      by_cases hut : u = t
      · subst hut
        simp [ht]
      · simp [hut, Ne.symm hut]

/-- While `a` holds on to what it has loaded, `mid` runs. -/
def hold (a : τ) (mid : List τ) : List τ := a :: (mid ++ [a])

/-- Whatever `mid` counts is lost. -/
theorem run_hold {a : τ} {mid : List τ} (ha : s.done a % 2 = 0) (hmid : a ∉ mid) :
    (run s (hold a mid)).x = s.x + 1 := by
  have hodd : (run (s.step a) mid).done a % 2 = 1 := by
    rw [run_done, List.count_eq_zero_of_not_mem hmid, step_done_self]
    omega
  rw [hold, run_cons, run_append, run_cons, run_nil, step_x_of_odd hodd, run_tmp hmid,
    step_tmp_of_even ha]

theorem count_hold (a : τ) (mid : List τ) (u : τ) :
    (hold a mid).count u = mid.count u + if a = u then 2 else 0 := by
  rw [hold, List.count_cons, List.count_append, List.count_singleton]
  by_cases h : a = u
  · simp [h]
  · simp [h]

/-- The thread `a` holds on to the first value while all others run, `b` up to its last
increment; then `b` holds on to what `a` has stored, for the other `k` increments of `a`. -/
def worst (a b : τ) (mid : List τ) (k : Nat) : List τ :=
  hold a mid ++ hold b (List.replicate (2 * k) a)

theorem run_worst {a b : τ} {mid : List τ} (hab : a ≠ b) (ha : s.done a % 2 = 0)
    (hmid : a ∉ mid) (hb : (s.done b + mid.count b) % 2 = 0) (k : Nat) :
    (run s (worst a b mid k)).x = s.x + 2 := by
  have hrest : b ∉ List.replicate (2 * k) a := by
    intro hmem
    exact hab (List.eq_of_mem_replicate hmem).symm
  have hbdone : (run s (hold a mid)).done b % 2 = 0 := by
    rw [run_done, hold, List.count_cons_of_ne hab, List.count_append,
      List.count_eq_zero_of_not_mem (mt List.mem_singleton.mp hab.symm)]
    exact hb
  rw [worst, run_append, run_hold hbdone hrest, run_hold ha hmid]

/-! ### Everything in between -/

/-- A part of the increments of each thread that makes a given sum. -/
theorem exists_part (k : τ → Nat) {ts : List τ} (hn : ts.Nodup) {m : Nat}
    (hm : m ≤ (ts.map k).sum) : ∃ r : τ → Nat, (∀ t, r t ≤ k t) ∧ (ts.map r).sum = m := by
  induction ts generalizing m with
  | nil => exact ⟨fun _ => 0, fun _ => Nat.zero_le _, (Nat.le_zero.mp hm).symm⟩
  | cons t ts ih =>
      obtain ⟨ht, hn⟩ := List.nodup_cons.mp hn
      rw [List.map_cons, List.sum_cons] at hm
      obtain ⟨r, hr, hsum⟩ := ih hn (show m - min m (k t) ≤ (ts.map k).sum by omega)
      refine ⟨Function.update r t (min m (k t)), fun u => ?_, ?_⟩
      · by_cases hut : u = t
        · rw [hut, Function.update_self]
          exact Nat.min_le_right ..
        · rw [Function.update_of_ne hut]
          exact hr u
      · have hrest : ts.map (Function.update r t (min m (k t))) = ts.map r :=
          List.map_congr_left fun u hu =>
            Function.update_of_ne (fun heq : u = t => ht (heq ▸ hu)) ..
        rw [List.map_cons, List.sum_cons, Function.update_self, hrest, hsum]
        omega

/-- What of the increments may be left for the end: all but one of `a` and one of `b`. -/
def spare (k : τ → Nat) (a b u : τ) : Nat := if u = a ∨ u = b then k u - 1 else k u

/-- The increments but for those of `r`, most of which get lost. -/
def lossy (k r : τ → Nat) (a b : τ) (ts : List τ) : List τ :=
  worst a b (inTurn (fun u => k u - r u) ts ++ List.replicate (2 * (k b - r b - 1)) b)
    (k a - r a - 1)

section
variable {k r : τ → Nat} {a b : τ} {ts : List τ}

theorem sum_spare (ha : 1 ≤ k a) (hb : 1 ≤ k b) (hn : (a :: b :: ts).Nodup) :
    ((a :: b :: ts).map (spare k a b)).sum + 2 = ((a :: b :: ts).map k).sum := by
  have hrest : ts.map (spare k a b) = ts.map k := by
    apply List.map_congr_left
    intro u hu
    have hua : u ≠ a := by
      rintro rfl
      simp [hu] at hn
    have hub : u ≠ b := by
      rintro rfl
      simp [hu] at hn
    rw [spare, if_neg (by simp [hua, hub])]
  simp only [List.map_cons, List.sum_cons, hrest]
  simp only [spare, true_or, or_true, if_true]
  omega

theorem count_lossy (ha : 1 ≤ k a) (hb : 1 ≤ k b) (hn : (a :: b :: ts).Nodup)
    (hr : ∀ u, r u ≤ spare k a b u) (u : τ) :
    (lossy k r a b ts).count u = if u ∈ a :: b :: ts then 2 * (k u - r u) else 0 := by
  have hra := hr a
  have hrb := hr b
  simp only [spare, true_or, or_true, if_true] at hra hrb
  rw [lossy, worst, List.count_append, count_hold, count_hold, List.count_append,
    List.count_replicate, List.count_replicate]
  simp only [List.nodup_cons, List.mem_cons, not_or] at hn
  obtain ⟨⟨hab, hats⟩, hbts, hts⟩ := hn
  rw [count_inTurn _ hts]
  by_cases hua : u = a
  · subst hua
    simp [hats, Ne.symm hab]
    omega
  · by_cases hub : u = b
    · subst hub
      simp [hbts, hab]
      omega
    · simp [hua, hub, Ne.symm hua, Ne.symm hub]

theorem run_lossy (hn : (a :: b :: ts).Nodup) : (run .init (lossy k r a b ts)).x = 2 := by
  simp only [List.nodup_cons, List.mem_cons, not_or] at hn
  obtain ⟨⟨hab, hats⟩, hbts, hts⟩ := hn
  have hcount : ∀ u, (inTurn (fun u => k u - r u) ts ++
      List.replicate (2 * (k b - r b - 1)) b).count u =
        (if u ∈ ts then 2 * (k u - r u) else 0) + if b = u then 2 * (k b - r b - 1) else 0 := by
    intro u
    rw [List.count_append, count_inTurn _ hts, List.count_replicate]
    simp only [beq_iff_eq]
  have ha : a ∉ inTurn (fun u => k u - r u) ts ++ List.replicate (2 * (k b - r b - 1)) b := by
    rw [← List.count_eq_zero, hcount, if_neg hats, if_neg (Ne.symm hab)]
  have hb : ((State.init : State τ).done b + (inTurn (fun u => k u - r u) ts ++
      List.replicate (2 * (k b - r b - 1)) b).count b) % 2 = 0 := by
    rw [hcount, if_neg hbts, if_pos rfl]
    show (0 + (0 + 2 * (k b - r b - 1))) % 2 = 0
    omega
  exact run_worst hab rfl ha hb _

/-- The threads `a`, `b` and `ts` can count to any number from two to all their increments:
they lose all but two of some of them, and then none of the others. -/
theorem exists_run_eq (ha : 1 ≤ k a) (hb : 1 ≤ k b) (hn : (a :: b :: ts).Nodup) {v : Nat}
    (htwo : 2 ≤ v) (hv : v ≤ ((a :: b :: ts).map k).sum) :
    ∃ ids : List τ, (∀ u, ids.count u = if u ∈ a :: b :: ts then 2 * k u else 0) ∧
      (run .init ids).x = v := by
  have hsum := sum_spare ha hb hn
  obtain ⟨r, hr, hrsum⟩ := exists_part (spare k a b) hn
    (show v - 2 ≤ ((a :: b :: ts).map (spare k a b)).sum by omega)
  have hle : ∀ u, r u ≤ k u := by
    intro u
    have := hr u
    rw [spare] at this
    split at this <;> omega
  refine ⟨lossy k r a b ts ++ inTurn r (a :: b :: ts), fun u => ?_, ?_⟩
  · have := hle u
    rw [List.count_append, count_lossy ha hb hn hr, count_inTurn _ hn]
    split <;> omega
  · have heven : ∀ u, (run (State.init : State τ) (lossy k r a b ts)).done u % 2 = 0 := by
      intro u
      rw [run_done, count_lossy ha hb hn hr]
      show (0 + if u ∈ a :: b :: ts then 2 * (k u - r u) else 0) % 2 = 0
      split <;> omega
    rw [run_append, run_inTurn heven, run_lossy hn, hrsum]
    omega

end

end

end OsLabs.LostUpdates
