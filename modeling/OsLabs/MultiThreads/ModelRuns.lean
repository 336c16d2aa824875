import Mathlib.Algebra.BigOperators.Ring.List
import OsLabs.LostUpdates
import OsLabs.MultiThreads.ModelChecker

/-!
# OsLabs.MultiThreads.ModelRuns

`multi-threads/trivial-model-checker.py`: the threads `P`, and what the script prints when
it runs each of the schedules of `OsLabs.MultiThreads.ModelChecker`.

The threads are those of `OsLabs.LostUpdates` (`exec_schedule`): each increments `x` without
a lock. So no schedule ends with less than two, or with more than the increments there
are, and the schedules are enough to find both (`final_x_bounds`).
-/

namespace OsLabs.MultiThreads.ModelChecker

/-- The names that the schedules assign to. -/
inductive Var
  | x
  | t (i : Nat)
  deriving DecidableEq, Repr

/-- The right-hand sides: `0`, `x` and `t0 + 1`. -/
inductive Expr
  | num (n : Int)
  | var (v : Var)
  | add (v : Var) (n : Int)
  deriving DecidableEq, Repr

/-- `target = value`. -/
structure Stmt where
  target : Var
  value : Expr
  deriving DecidableEq, Repr

/-- `globals()`; `none` for a name that is not defined. -/
abbrev Globals := Var → Option Int

/-- The value of an expression; `none` for a `NameError`. -/
def Expr.eval (g : Globals) : Expr → Option Int
  | .num n => some n
  | .var v => g v
  | .add v n => (g v).map fun value => value + n

def Stmt.exec (s : Stmt) (g : Globals) : Option Globals :=
  (s.value.eval g).map fun value => Function.update g s.target (some value)

/-- `exec(p)`, where `p` are the statements that are joined. -/
def exec : List Stmt → Globals → Option Globals
  | [], g => some g
  | s :: p, g => (s.exec g).bind (exec p)

/-- The variables of the threads and what they begin with. -/
def V : List (Var × Int) := [(.x, 0)]

/-- `t{t} = x` -/
def load (t : Nat) : Stmt := { target := .t t, value := .var .x }

/-- `x = t{t} + 1` -/
def store (t : Nat) : Stmt := { target := .x, value := .add (.t t) 1 }

/-- The operations of a thread, `[…] * m`. -/
def increments (t m : Nat) : List Stmt := (List.replicate m [load t, store t]).flatten

/-- The threads; `[4, 4]` in the script. -/
def P (counts : List Nat) : List (List Stmt) := counts.zipIdx.map fun p => increments p.2 p.1

/-- `p`, the statements that are run for a schedule. -/
def program (sched : List Stmt) : List Stmt :=
  V.map (fun p => { target := p.1, value := .num p.2 }) ++ sched

/-- The loop that runs the schedules, with the values it prints for the variables. -/
def outputs : List (List Stmt) → Globals → Option (List (List Int))
  | [], _ => some []
  | sched :: I, g =>
      (exec (program sched) g).bind fun g =>
        (V.mapM fun p => g p.1).bind fun vals => (outputs I g).map fun rest => vals :: rest

/-- The last value of `x`. -/
def finalX (sched : List Stmt) (g : Globals) : Option Int :=
  (exec (program sched) g).bind fun g => g .x

/-! ### The threads -/

section
variable {counts : List Nat} {t m k : Nat} {op : Stmt}

theorem increments_succ : increments t (m + 1) = load t :: store t :: increments t m := rfl

@[simp] theorem length_increments : (increments t m).length = 2 * m := by
  induction m with
  | zero => rfl
  | succ m ih =>
      rw [increments_succ, List.length_cons, List.length_cons, ih]
      omega

/-- The operation at the position `k` of the thread `t`. -/
def opAt (t k : Nat) : Stmt := if k % 2 = 0 then load t else store t

theorem eq_opAt (h : (increments t m)[k]? = some op) : op = opAt t k := by
  induction m generalizing k with
  | zero => exact absurd h (by simp [increments])
  | succ m ih =>
      rw [increments_succ] at h
      rcases k with _ | _ | k
      · exact (Option.some.inj h).symm
      · exact (Option.some.inj h).symm
      · rw [List.getElem?_cons_succ, List.getElem?_cons_succ] at h
        rw [ih h, opAt, opAt, show (k + 1 + 1) % 2 = k % 2 by omega]

theorem getD_tagged_P : (tagged (P counts)).getD t [] =
    tagOps t (increments t (counts.getD t 0)) := by
  rw [List.getD_eq_getElem?_getD, List.getD_eq_getElem?_getD, tagged, P, List.getElem?_map,
    List.getElem?_zipIdx, List.getElem?_map, List.getElem?_zipIdx]
  cases counts[t]? with
  | none => rfl
  | some m => simp

theorem sum_length_P : ((P counts).map List.length).sum = 2 * counts.sum := by
  have hlength : (P counts).map List.length = counts.map fun m => 2 * m := by
    have hfst : counts.zipIdx.map Prod.fst = counts := List.zipIdx_map_fst 0 counts
    rw [P, List.map_map]
    conv => rhs; rw [← hfst, List.map_map]
    exact List.map_congr_left fun p _ => length_increments
  rw [hlength, List.sum_map_mul_left, List.map_id']

end

/-! ### The runs -/

section
variable {counts : List Nat} {g : Globals} {s : LostUpdates.State Nat} {t : Nat}
  {w : List (Op Stmt)}

/-- The globals hold the shared number, and the registers that are to be stored. -/
structure Agrees (g : Globals) (s : LostUpdates.State Nat) : Prop where
  x : g .x = some (s.x : Int)
  t : ∀ t, s.done t % 2 = 1 → g (.t t) = some (s.tmp t : Int)

theorem Agrees.exec_load (h : Agrees g s) (heven : s.done t % 2 = 0) :
    ∃ g', (load t).exec g = some g' ∧ Agrees g' (s.step t) := by
  refine ⟨Function.update g (.t t) (some (s.x : Int)), ?_, ?_⟩
  · simp [load, Stmt.exec, Expr.eval, h.x]
  · constructor
    case x => rw [LostUpdates.step_x_of_even heven, Function.update_of_ne (by simp), h.x]
    case t =>
      intro u hu
      by_cases hut : u = t
      · subst hut
        rw [Function.update_self, LostUpdates.step_tmp_of_even heven]
      · rw [LostUpdates.step_done_of_ne hut] at hu
        rw [Function.update_of_ne (by simpa using hut), LostUpdates.step_tmp_of_ne hut, h.t u hu]

theorem Agrees.exec_store (h : Agrees g s) (hodd : s.done t % 2 = 1) :
    ∃ g', (store t).exec g = some g' ∧ Agrees g' (s.step t) := by
  refine ⟨Function.update g .x (some (s.tmp t + 1 : Int)), ?_, ?_⟩
  · simp [store, Stmt.exec, Expr.eval, h.t t hodd]
  · constructor
    case x =>
      rw [LostUpdates.step_x_of_odd hodd, Function.update_self]
      rfl
    case t =>
      intro u hu
      -- `t` is to load again
      have hut : u ≠ t := by
        intro hut
        subst hut
        rw [LostUpdates.step_done_self] at hu
        omega
      rw [LostUpdates.step_done_of_ne hut] at hu
      rw [Function.update_of_ne (by simp), LostUpdates.step_tmp_of_ne hut, h.t u hu]

theorem Agrees.exec_opAt (h : Agrees g s) (t : Nat) :
    ∃ g', (opAt t (s.done t)).exec g = some g' ∧ Agrees g' (s.step t) := by
  rcases Nat.mod_two_eq_zero_or_one (s.done t) with heven | hodd
  · rw [opAt, if_pos heven]
    exact h.exec_load heven
  · rw [opAt, if_neg (by omega)]
    exact h.exec_store hodd

/-- The operations that are left of each thread are in the schedule in their order, so the
next one is the one the thread has come to. -/
theorem Agrees.exec_schedule (hw : ∀ t, w.filter (fun op => op.thread = t) =
    (tagOps t (increments t (counts.getD t 0))).drop (s.done t)) (h : Agrees g s) :
    ∃ g', exec (w.map Op.op) g = some g' ∧
      Agrees g' (LostUpdates.run s (w.map Op.thread)) := by
  induction w generalizing g s with
  | nil => exact ⟨g, rfl, h⟩
  | cons op w ih =>
      obtain ⟨t, pos, stmt⟩ := op
      have hnext := hw t
      rw [List.filter_cons_of_pos (by simp)] at hnext
      have hget : (tagOps t (increments t (counts.getD t 0)))[s.done t]? =
          some { thread := t, pos, op := stmt } := by
        rw [← List.head?_drop, ← hnext, List.head?_cons]
      have hop : (increments t (counts.getD t 0))[s.done t]? = some stmt := by
        have hop := congrArg (Option.map Op.op) hget
        rwa [← List.getElem?_map, map_op_tagOps] at hop
      obtain ⟨g', hexec, hg'⟩ := h.exec_opAt t
      have hrest : ∀ u, w.filter (fun op => op.thread = u) =
          (tagOps u (increments u (counts.getD u 0))).drop ((s.step t).done u) := by
        intro u
        by_cases hut : u = t
        · subst hut
          rw [LostUpdates.step_done_self, ← List.tail_drop, ← hnext, List.tail_cons]
        · rw [LostUpdates.step_done_of_ne hut, ← hw u,
            List.filter_cons_of_neg (by simpa using Ne.symm hut)]
      obtain ⟨g'', hw', hg''⟩ := ih hrest hg'
      refine ⟨g'', ?_, hg''⟩
      rw [List.map_cons, exec, eq_opAt hop, hexec, Option.bind_some, hw']

/-- What the threads count in a schedule. -/
def counted (w : List (Op Stmt)) : Nat := (LostUpdates.run .init (w.map Op.thread)).x

/-- A schedule leaves that in `x`, whatever the globals are before. -/
theorem exec_interleaving (hw : Interleaving (P counts) w) (g : Globals) :
    ∃ g', exec (program (w.map Op.op)) g = some g' ∧ g' .x = some (counted w : Int) := by
  have hstart : Agrees (Function.update g .x (some 0)) LostUpdates.State.init :=
    ⟨Function.update_self .., fun t ht => absurd ht (by simp [LostUpdates.State.init])⟩
  have hdrop : ∀ t, w.filter (fun op => op.thread = t) =
      (tagOps t (increments t (counts.getD t 0))).drop (LostUpdates.State.init.done t) := by
    intro t
    rw [hw t, getD_tagged_P]
    exact List.drop_zero.symm
  obtain ⟨g', hexec, hg'⟩ := hstart.exec_schedule hdrop
  exact ⟨g', hexec, hg'.x⟩

theorem finalX_eq (hw : Interleaving (P counts) w) (g : Globals) :
    finalX (w.map Op.op) g = some (counted w : Int) := by
  obtain ⟨g', hexec, hx⟩ := exec_interleaving hw g
  rw [finalX, hexec, Option.bind_some, hx]

/-- The loop prints the last value of `x` for each schedule. -/
theorem outputs_eq {I : List (List (Op Stmt))} (hI : ∀ w ∈ I, Interleaving (P counts) w)
    (g : Globals) : outputs (I.map (List.map Op.op)) g =
      some (I.map fun w => [(counted w : Int)]) := by
  induction I generalizing g with
  | nil => rfl
  | cons w I ih =>
      obtain ⟨hw, hI⟩ := List.forall_mem_cons.mp hI
      obtain ⟨g', hexec, hx⟩ := exec_interleaving hw g
      rw [List.map_cons, outputs, hexec, Option.bind_some]
      simp [V, hx, ih hI g']

theorem count_thread (hw : Interleaving (P counts) w) (t : Nat) :
    (w.map Op.thread).count t = 2 * counts.getD t 0 := by
  have hlength := congrArg List.length (hw t)
  rw [getD_tagged_P, length_tagOps, length_increments, ← List.countP_eq_length_filter] at hlength
  rw [List.count_eq_countP, List.countP_map, ← hlength]
  exact List.countP_congr fun op _ => by simp

/-- The threads take their turns in any order. -/
theorem exists_interleaving {ids : List Nat} (h : ∀ t, ids.count t = 2 * counts.getD t 0) :
    ∃ w, Interleaving (P counts) w ∧ w.map Op.thread = ids := by
  have howner : ∀ t, ∀ op ∈ (tagged (P counts)).getD t [], op.thread = t := by
    intro t op hop
    rw [getD_tagged_P] at hop
    exact thread_of_mem_tagOps hop
  have hlength : ∀ t, ids.count t = ((tagged (P counts)).getD t []).length := by
    intro t
    rw [getD_tagged_P, length_tagOps, length_increments, h t]
  obtain ⟨w, hids, hw⟩ := exists_filter_eq howner hlength
  exact ⟨w, hw, hids⟩

/-! ### The bounds -/

theorem two_le_counted (hw : Interleaving (P counts) w) (hne : w ≠ [])
    (hcounts : ∀ m ∈ counts, 2 ≤ m) : 2 ≤ counted w := by
  have hcount : ∀ t ∈ w.map Op.thread, 2 ≤ counts.getD t 0 := by
    intro t ht
    have hpos := List.count_pos_iff.mpr ht
    rw [count_thread hw] at hpos
    have hlt : t < counts.length := by
      by_contra hge
      rw [List.getD_eq_default _ _ (Nat.le_of_not_lt hge)] at hpos
      exact absurd hpos (Nat.lt_irrefl 0)
    rw [List.getD_eq_getElem _ _ hlt]
    exact hcounts _ (List.getElem_mem hlt)
  refine LostUpdates.two_le_run (by simpa using hne) (fun t _ => ?_) (fun t ht => ?_)
  · rw [count_thread hw, Nat.mul_mod_right]
  · have := hcount t ht
    rw [count_thread hw]
    omega

/-- One thread after the other. -/
def inOrder (counts : List Nat) : List Nat :=
  LostUpdates.inTurn (fun t => counts.getD t 0) (List.range counts.length)

theorem count_inOrder (counts : List Nat) (t : Nat) :
    (inOrder counts).count t = 2 * counts.getD t 0 := by
  rw [inOrder, LostUpdates.count_inTurn _ List.nodup_range]
  split
  · rfl
  · next ht =>
    rw [List.getD_eq_default _ _ (by simpa using ht)]

/-- Then nothing is lost. -/
theorem exists_sum (counts : List Nat) :
    ∃ w, Interleaving (P counts) w ∧ counted w = counts.sum := by
  obtain ⟨w, hw, hids⟩ := exists_interleaving (count_inOrder counts)
  refine ⟨w, hw, ?_⟩
  have hsum : (List.range counts.length).map (fun t => counts.getD t 0) = counts := by
    refine List.ext_getElem (by simp) fun i hi hi' => ?_
    rw [List.getElem_map, List.getElem_range, List.getD_eq_getElem]
  rw [counted, hids, inOrder, LostUpdates.run_inTurn (fun _ => rfl), hsum]
  exact Nat.zero_add _

/-- The first two threads lose what all others count, and each of them what the other
does: while the first holds on to 0, the second leaves out its last increment. -/
theorem exists_two (m n : Nat) (rest : List Nat) :
    ∃ w, Interleaving (P ((m + 1) :: (n + 1) :: rest)) w ∧ counted w = 2 := by
  have hcount : ∀ t, (LostUpdates.worst 0 1 (inOrder (0 :: n :: rest)) m).count t =
      2 * ((m + 1) :: (n + 1) :: rest).getD t 0 := by
    intro t
    rw [LostUpdates.worst, List.count_append, LostUpdates.count_hold, LostUpdates.count_hold,
      count_inOrder, List.count_replicate]
    rcases t with _ | _ | t
    · simp
      omega
    · simp
      omega
    · simp
  obtain ⟨w, hw, hids⟩ := exists_interleaving hcount
  refine ⟨w, hw, ?_⟩
  have hzero : 0 ∉ inOrder (0 :: n :: rest) := by
    rw [← List.count_eq_zero, count_inOrder]
    rfl
  have heven : (LostUpdates.State.init.done 1 + (inOrder (0 :: n :: rest)).count 1) % 2 = 0 := by
    rw [count_inOrder]
    simp [LostUpdates.State.init]
  rw [counted, hids, LostUpdates.run_worst (by decide) rfl hzero heven]
  rfl

theorem exists_two_threads (hlen : 2 ≤ counts.length) (hcounts : ∀ m ∈ counts, 2 ≤ m) :
    ∃ m n rest, counts = (m + 1) :: (n + 1) :: rest := by
  cases counts with
  | nil => exact absurd hlen (by simp)
  | cons m counts =>
      cases counts with
      | nil => exact absurd hlen (by simp)
      | cons n rest =>
          have hm := hcounts m (by simp)
          have hn := hcounts n (by simp)
          refine ⟨m - 1, n - 1, rest, ?_⟩
          rw [Nat.sub_add_cancel (by omega), Nat.sub_add_cancel (by omega)]

/-- The schedules that the loops build, with what is counted in them. -/
theorem exists_built_bounds (hlen : 2 ≤ counts.length) (hcounts : ∀ m ∈ counts, 2 ≤ m) :
    ∃ I, Built (P counts) I ∧ (∀ w ∈ I, 2 ≤ counted w ∧ counted w ≤ counts.sum) ∧
      (∃ w ∈ I, counted w = 2) ∧ ∃ w ∈ I, counted w = counts.sum := by
  obtain ⟨m, n, rest, hsplit⟩ := exists_two_threads hlen hcounts
  obtain ⟨I, hI⟩ := exists_built (P counts)
  refine ⟨I, hI, fun w hw => ?_, ?_, ?_⟩
  · have hlength : w.length = 2 * counts.sum := (hI.length w hw).trans sum_length_P
    have hne : w ≠ [] := by
      rintro rfl
      simp [hsplit] at hlength
    have hle := LostUpdates.run_le (w.map Op.thread)
    rw [List.length_map, hlength] at hle
    exact ⟨two_le_counted ((hI.mem w).mp hw) hne hcounts, Nat.le_of_mul_le_mul_left hle (by decide)⟩
  · obtain ⟨w, hw, hx⟩ := exists_two m n rest
    rw [← hsplit] at hw
    exact ⟨w, (hI.mem w).mpr hw, hx⟩
  · obtain ⟨w, hw, hx⟩ := exists_sum counts
    exact ⟨w, (hI.mem w).mpr hw, hx⟩

end

/-- The schedules of at least two threads, each of which increments at least twice: `x` ends
with two at least and the number of increments at most, and the script finds both. -/
theorem final_x_bounds {counts : List Nat} (hlen : 2 ≤ counts.length)
    (hcounts : ∀ m ∈ counts, 2 ≤ m) :
    ∃ I, schedules (P counts) = some I ∧
      (∀ g, ∀ sched ∈ I, ∃ x, finalX sched g = some x ∧ 2 ≤ x ∧ x ≤ (counts.sum : Int)) ∧
      (∃ sched ∈ I, ∀ g, finalX sched g = some 2) ∧
      ∃ sched ∈ I, ∀ g, finalX sched g = some (counts.sum : Int) := by
  obtain ⟨I, hI, hbounds, ⟨w₂, hw₂, htwo⟩, w, hw, hsum⟩ := exists_built_bounds hlen hcounts
  refine ⟨I.map (List.map Op.op), hI.erased, fun g sched hsched => ?_, ?_, ?_⟩
  · obtain ⟨w, hw, rfl⟩ := List.mem_map.mp hsched
    have hx := hbounds w hw
    exact ⟨_, finalX_eq ((hI.mem w).mp hw) g, by omega, by omega⟩
  · refine ⟨_, List.mem_map_of_mem hw₂, fun g => ?_⟩
    rw [finalX_eq ((hI.mem w₂).mp hw₂), htwo]
    rfl
  · refine ⟨_, List.mem_map_of_mem hw, fun g => ?_⟩
    rw [finalX_eq ((hI.mem w).mp hw), hsum]

/-- The threads of the script. -/
theorem final_x_bounds_four :
    ∃ I, schedules (P [4, 4]) = some I ∧
      (∀ g, ∀ sched ∈ I, ∃ x, finalX sched g = some x ∧ 2 ≤ x ∧ x ≤ 8) ∧
      (∃ sched ∈ I, ∀ g, finalX sched g = some 2) ∧ ∃ sched ∈ I, ∀ g, finalX sched g = some 8 :=
  final_x_bounds (by decide : 2 ≤ [4, 4].length) (by decide)

/-- So the script does not fail, and prints a number in these bounds for each schedule, and
the bounds themselves. -/
theorem outputs_bounds {counts : List Nat} (hlen : 2 ≤ counts.length)
    (hcounts : ∀ m ∈ counts, 2 ≤ m) (g : Globals) :
    ∃ I outs, schedules (P counts) = some I ∧ outputs I g = some outs ∧
      outs.length = I.length ∧
      (∀ vals ∈ outs, ∃ x : Nat, vals = [(x : Int)] ∧ 2 ≤ x ∧ x ≤ counts.sum) ∧
      [2] ∈ outs ∧ [(counts.sum : Int)] ∈ outs := by
  obtain ⟨I, hI, hbounds, ⟨w₂, hw₂, htwo⟩, w, hw, hsum⟩ := exists_built_bounds hlen hcounts
  refine ⟨_, _, hI.erased, outputs_eq (fun w hw => (hI.mem w).mp hw) g, by simp, ?_, ?_, ?_⟩
  · intro vals hvals
    obtain ⟨w, hw, rfl⟩ := List.mem_map.mp hvals
    exact ⟨counted w, rfl, hbounds w hw⟩
  · exact List.mem_map.mpr ⟨w₂, hw₂, by rw [htwo]; rfl⟩
  · exact List.mem_map.mpr ⟨w, hw, by rw [hsum]⟩

end OsLabs.MultiThreads.ModelChecker
