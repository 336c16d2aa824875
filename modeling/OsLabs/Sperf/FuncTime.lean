import Mathlib.Algebra.BigOperators.Group.List.Basic
import Mathlib.Algebra.Order.Ring.Rat
import Mathlib.Data.List.Induction
import Mathlib.Tactic.Ring
import OsLabs.ExchangeSort
import OsLabs.Sperf.Stdio

/-!
# OsLabs.Sperf.FuncTime

The table of `mycode/sperf.c`: a linked list of functions with the time spent in
each, that `append` adds samples to and `sort` keeps ordered.

`sort` exchanges the payloads of the nodes, so `append` searches a list whose order
has just changed; what does not change is which names are on it. With exact times,
`Aggregates` says what the list is after any sequence of samples, and `Shows.record`
that one more `append` and `sort` keep it so.
-/

namespace OsLabs.Sperf

/-- `struct Func_Time`; `next` is the list that is built from it. `τ` is `double`. -/
structure FuncTime (τ : Type) where
  func : CString
  time : τ
  deriving DecidableEq

section
variable {τ : Type} [Add τ]

/-- `append`: add the time to the node with the name of `p`, or put `p` behind the last
node. The loop stops at the last node, which is looked at after it. -/
def append : List (FuncTime τ) → FuncTime τ → List (FuncTime τ)
  | [], p => [p]
  | [q], p =>
      if q.func = p.func then
        [{ q with time := q.time + p.time }]
      else
        [q, p]
  | q :: q' :: rest, p =>
      if q.func = p.func then
        { q with time := q.time + p.time } :: q' :: rest
      else
        q :: append (q' :: rest) p

/-- `append` adds to the first node with the name, or at the end when there is none. -/
theorem append_spec (l : List (FuncTime τ)) (p : FuncTime τ) :
    (∃ l₁ q l₂, l = l₁ ++ q :: l₂ ∧ q.func = p.func ∧
        append l p = l₁ ++ { q with time := q.time + p.time } :: l₂) ∨
      (p.func ∉ l.map FuncTime.func ∧ append l p = l ++ [p]) := by
  induction l with
  | nil => exact .inr ⟨by simp, rfl⟩
  | cons q rest ih =>
      by_cases h : q.func = p.func
      · refine .inl ⟨[], q, rest, rfl, h, ?_⟩
        cases rest with
        | nil => exact if_pos h
        | cons q' rest => exact if_pos h
      · have happend : append (q :: rest) p = q :: append rest p := by
          cases rest with
          | nil => exact if_neg h
          | cons q' rest => exact if_neg h
        rcases ih with ⟨l₁, r, l₂, rfl, hr, hl⟩ | ⟨hmem, hl⟩
        · exact .inl ⟨q :: l₁, r, l₂, rfl, hr, by rw [happend, hl]; rfl⟩
        · refine .inr ⟨?_, by rw [happend, hl]; rfl⟩
          rw [List.map_cons, List.mem_cons, not_or]
          exact ⟨fun heq => h heq.symm, hmem⟩

theorem append_ne_nil (l : List (FuncTime τ)) (p : FuncTime τ) : append l p ≠ [] := by
  rcases append_spec l p with ⟨l₁, q, l₂, -, -, h⟩ | ⟨-, h⟩
  · rw [h]
    simp
  · rw [h]
    simp

variable [LT τ] [DecidableLT τ]

/-- `sort`; `none` when its assertion `head != NULL` fails. -/
def sort (head : List (FuncTime τ)) : Option (List (FuncTime τ)) :=
  if head = [] then none else some (exchangeSort FuncTime.time head)

/-- `head` and `total_time`. -/
structure Table (τ : Type) where
  head : List (FuncTime τ)
  totalTime : τ

/-- What `main` does with one sample. -/
def Table.record (t : Table τ) (p : FuncTime τ) : Option (Table τ) :=
  (sort (append t.head p)).map fun head => { head := head, totalTime := t.totalTime + p.time }

/-- Before the first sample. -/
def Table.empty [Zero τ] : Table τ where
  head := []
  totalTime := 0

/-- There is always a sample to sort. -/
theorem record_isSome (t : Table τ) (p : FuncTime τ) : ∃ t', t.record p = some t' := by
  rw [Table.record, sort, if_neg (append_ne_nil _ _)]
  exact ⟨_, rfl⟩

end

/-! ### What the list is -/

/-- The time the samples give a function. -/
def spent (samples : List (FuncTime ℚ)) (name : CString) : ℚ :=
  ((samples.filter fun p => p.func = name).map FuncTime.time).sum

theorem spent_snoc {samples : List (FuncTime ℚ)} {p : FuncTime ℚ} {name : CString} :
    spent (samples ++ [p]) name = spent samples name + if p.func = name then p.time else 0 := by
  unfold spent
  rw [List.filter_append, List.map_append, List.sum_append]
  by_cases h : p.func = name
  · simp [h]
  · simp [h]

theorem spent_of_notMem {samples : List (FuncTime ℚ)} {name : CString}
    (h : name ∉ samples.map FuncTime.func) : spent samples name = 0 := by
  have hnil : (samples.filter fun p => p.func = name) = [] := by
    rw [List.filter_eq_nil_iff]
    intro p hp
    simp only [decide_eq_true_eq]
    intro heq
    subst heq
    exact h (List.mem_map_of_mem hp)
  rw [spent, hnil]
  rfl

/-- The list has a node for each function that was sampled, one only, with its time. -/
structure Aggregates (samples l : List (FuncTime ℚ)) : Prop where
  nodup : (l.map FuncTime.func).Nodup
  names : ∀ name, name ∈ l.map FuncTime.func ↔ name ∈ samples.map FuncTime.func
  times : ∀ q ∈ l, q.time = spent samples q.func

theorem aggregates_nil : Aggregates [] [] where
  nodup := List.nodup_nil
  names _ := Iff.rfl
  times _ hq := absurd hq List.not_mem_nil

/-- The order of the nodes does not matter. -/
theorem Aggregates.perm {samples l l' : List (FuncTime ℚ)} (h : Aggregates samples l)
    (hp : l'.Perm l) : Aggregates samples l' where
  nodup := (hp.map FuncTime.func).nodup_iff.mpr h.nodup
  names name := ((hp.map FuncTime.func).mem_iff).trans (h.names name)
  times q hq := h.times q (hp.mem_iff.mp hq)

theorem sum_append (l : List (FuncTime ℚ)) (p : FuncTime ℚ) :
    ((append l p).map FuncTime.time).sum = (l.map FuncTime.time).sum + p.time := by
  rcases append_spec l p with ⟨l₁, q, l₂, rfl, -, h⟩ | ⟨-, h⟩
  · rw [h]
    simp only [List.map_append, List.map_cons, List.sum_append, List.sum_cons]
    ring
  · rw [h]
    simp

/-- One more sample. -/
theorem Aggregates.append {samples l : List (FuncTime ℚ)} (h : Aggregates samples l)
    (p : FuncTime ℚ) : Aggregates (samples ++ [p]) (append l p) := by
  rcases append_spec l p with ⟨l₁, q, l₂, rfl, hq, happend⟩ | ⟨hmem, happend⟩
  · have hnames : (Sperf.append (l₁ ++ q :: l₂) p).map FuncTime.func =
        (l₁ ++ q :: l₂).map FuncTime.func := by
      rw [happend]
      simp
    have hnew : p.func ∈ samples.map FuncTime.func := by
      rw [← h.names, ← hq]
      simp
    have hothers : ∀ x ∈ l₁ ++ l₂, p.func ≠ x.func := by
      have hnd := h.nodup
      rw [List.map_append, List.map_cons, List.nodup_middle, List.nodup_cons, ← List.map_append]
        at hnd
      intro x hx heq
      exact hnd.1 (by rw [hq, heq]; exact List.mem_map_of_mem hx)
    constructor
    case nodup =>
      rw [hnames]
      exact h.nodup
    case names =>
      intro name
      rw [hnames, h.names, List.map_append, List.mem_append]
      refine ⟨?_, ?_⟩
      · exact .inl
      · intro hmem
        rcases hmem with hname | hname
        · exact hname
        · rw [List.mem_singleton.mp hname]
          exact hnew
    case times =>
      intro x hx
      rw [happend, List.mem_append, List.mem_cons] at hx
      rw [spent_snoc]
      rcases hx with hx | rfl | hx
      · rw [if_neg (hothers x (by simp [hx])), add_zero]
        exact h.times x (by simp [hx])
      · rw [if_pos hq.symm, h.times q (by simp)]
      · rw [if_neg (hothers x (by simp [hx])), add_zero]
        exact h.times x (by simp [hx])
  · rw [happend]
    constructor
    case nodup =>
      rw [List.map_append, List.nodup_append_comm]
      exact List.nodup_cons.mpr ⟨hmem, h.nodup⟩
    case names =>
      intro name
      rw [List.map_append, List.mem_append, List.map_append, List.mem_append, h.names]
    case times =>
      intro x hx
      rw [spent_snoc]
      rcases List.mem_append.mp hx with hx | hx
      · have hne : p.func ≠ x.func := fun heq => hmem (heq ▸ List.mem_map_of_mem hx)
        rw [if_neg hne, add_zero]
        exact h.times x hx
      · obtain rfl := List.mem_singleton.mp hx
        rw [if_pos rfl, spent_of_notMem (fun hs => hmem ((h.names _).mpr hs)), zero_add]

/-! ### After every sample -/

/-- What the table shows: the aggregate of the samples, largest time first, and the sum
of all times. -/
structure Shows (samples : List (FuncTime ℚ)) (t : Table ℚ) : Prop where
  aggregates : Aggregates samples t.head
  sorted : t.head.Pairwise fun p q => q.time ≤ p.time
  total : (t.head.map FuncTime.time).sum = t.totalTime
  totalTime : t.totalTime = (samples.map FuncTime.time).sum

theorem shows_empty : Shows [] Table.empty where
  aggregates := aggregates_nil
  sorted := .nil
  total := rfl
  totalTime := rfl

/-- `append` and `sort` take a table from one sample to the next. -/
theorem Shows.record {samples : List (FuncTime ℚ)} {t : Table ℚ} (h : Shows samples t)
    (p : FuncTime ℚ) : ∃ t', t.record p = some t' ∧ Shows (samples ++ [p]) t' := by
  refine ⟨{ head := exchangeSort FuncTime.time (append t.head p)
            totalTime := t.totalTime + p.time }, ?_, ?_⟩
  · rw [Table.record, sort, if_neg (append_ne_nil _ _)]
    rfl
  · exact
      { aggregates := (h.aggregates.append p).perm exchangeSort_perm
        sorted := exchangeSort_sorted
        total := by
          show ((exchangeSort FuncTime.time (append t.head p)).map FuncTime.time).sum = _
          have hperm : (exchangeSort FuncTime.time (append t.head p)).Perm (append t.head p) :=
            exchangeSort_perm
          rw [(hperm.map FuncTime.time).sum_eq, sum_append, h.total]
        totalTime := by rw [h.totalTime]; simp }

theorem exists_shows (samples : List (FuncTime ℚ)) :
    ∃ t, samples.foldlM Table.record Table.empty = some t ∧ Shows samples t := by
  induction samples using List.reverseRecOn with
  | nil => exact ⟨Table.empty, rfl, shows_empty⟩
  | append_singleton samples p ih =>
      obtain ⟨t, hfold, hshows⟩ := ih
      obtain ⟨t', hrecord, hshows'⟩ := hshows.record p
      refine ⟨t', ?_, hshows'⟩
      rw [List.foldlM_append, hfold]
      simpa using hrecord

/-- After any sequence of samples no assertion has failed, the list has each function once
and with the sum of its samples, in non-increasing order of time, and the times add up to
`total_time`. -/
theorem record_shows (samples : List (FuncTime ℚ)) :
    ∃ t, samples.foldlM Table.record Table.empty = some t ∧
      (t.head.map FuncTime.func).Nodup ∧
      (∀ name, name ∈ t.head.map FuncTime.func ↔ name ∈ samples.map FuncTime.func) ∧
      (∀ q ∈ t.head, q.time = spent samples q.func) ∧
      (t.head.Pairwise fun p q => q.time ≤ p.time) ∧
      (t.head.map FuncTime.time).sum = t.totalTime ∧
      t.totalTime = (samples.map FuncTime.time).sum := by
  obtain ⟨t, hfold, h⟩ := exists_shows samples
  exact ⟨t, hfold, h.aggregates.nodup, h.aggregates.names, h.aggregates.times, h.sorted, h.total,
    h.totalTime⟩

end OsLabs.Sperf
