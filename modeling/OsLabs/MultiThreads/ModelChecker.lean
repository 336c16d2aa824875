import Mathlib.Algebra.BigOperators.Group.List.Basic
import Mathlib.Data.List.GetD
import Mathlib.Data.List.Induction
import Mathlib.Data.List.Perm.Basic
import Mathlib.Tactic.Ring
import OsLabs.Merges

/-!
# OsLabs.MultiThreads.ModelChecker

`multi-threads/trivial-model-checker.py`: the list `I` of the schedules of a few
straight-line threads, which the script then runs one by one.

The script inserts one thread at a time. For each non-decreasing vector of positions
and each schedule of the threads before, it puts the operations of the thread into the
gaps of the schedule that the vector names. The vectors correspond to the merges of the
schedule with the thread (`map_place_eq_merges`), in the order in which `merges` lists
them, so the loops build the merges of all threads, each of them once
(`schedules_interleavings`).

The loops do not look at the operations; to say that no schedule is built twice, they
are told apart by their thread and their position in it (`Op`).
-/

namespace OsLabs.MultiThreads.ModelChecker

open scoped Nat

universe u v w

variable {α : Type u} {β : Type v}

/-- `combinations_with_replacement` of `itertools`. -/
def combinationsWithReplacement : List α → Nat → List (List α)
  | _, 0 => [[]]
  | [], _ + 1 => []
  | x :: xs, k + 1 =>
      (combinationsWithReplacement (x :: xs) k).map (List.cons x) ++
        combinationsWithReplacement xs (k + 1)

/-- `[op for k, op in enumerate(ops) if ins_pos[k] == j]`. -/
def opsAt (ops : List α) (insPos : List Nat) (j : Nat) : Option (List α) :=
  (ops.zipIdx.mapM fun p => insPos[p.2]?.map fun pos => if pos = j then [p.1] else []).map
    List.flatten

/-- `new_sched`, from the loop over `range(l)`. -/
def newSched (l : Nat) (ops : List α) (insPos : List Nat) (sched : List α) : Option (List α) :=
  ((List.range l).mapM fun j =>
    (opsAt ops insPos j).bind fun new =>
      if j < l - 1 then sched[j]?.map fun op => new ++ [op] else some new).map List.flatten

/-- The body of `for ops in P`. -/
def insertThread (I : List (List α)) (ops : List α) : Option (List (List α)) :=
  I[0]?.bind fun first =>
    let l := first.length + 1
    ((combinationsWithReplacement (List.range l) ops.length).mapM fun insPos =>
      I.mapM fun sched => newSched l ops insPos sched).map List.flatten

/-- `I`, after the loop over `P`. -/
def schedules (P : List (List α)) : Option (List (List α)) := P.foldlM insertThread [[]]

/-! ### The positions -/

theorem mem_of_mem_combinations {l : List α} {k : Nat} {c : List α}
    (h : c ∈ combinationsWithReplacement l k) : c.length = k ∧ ∀ x ∈ c, x ∈ l := by
  induction l, k using combinationsWithReplacement.induct generalizing c with
  | case1 l =>
      rw [combinationsWithReplacement, List.mem_singleton] at h
      simp [h]
  | case2 k =>
      rw [combinationsWithReplacement] at h
      exact absurd h List.not_mem_nil
  | case3 x xs k ihx ihxs =>
      rw [combinationsWithReplacement, List.mem_append] at h
      rcases h with h | h
      · obtain ⟨c, hc, rfl⟩ := List.mem_map.mp h
        obtain ⟨hlen, hmem⟩ := ihx hc
        exact ⟨by simp [hlen], List.forall_mem_cons.mpr ⟨List.mem_cons_self, hmem⟩⟩
      · obtain ⟨hlen, hmem⟩ := ihxs h
        exact ⟨hlen, fun y hy => List.mem_cons_of_mem _ (hmem y hy)⟩

theorem combinations_singleton (x : α) (k : Nat) :
    combinationsWithReplacement [x] k = [List.replicate k x] := by
  induction k with
  | zero => rw [combinationsWithReplacement, List.replicate_zero]
  | succ k ih =>
      rw [combinationsWithReplacement, ih, combinationsWithReplacement]
      rfl

/-! ### One schedule -/

/-- The operations that go into the gap `j`. -/
def placed (ops : List α) (insPos : List Nat) (j : Nat) : List α :=
  ((ops.zip insPos).filter fun q => q.2 = j).map Prod.fst

/-- The operations in the gaps of a schedule, from the gap `j` on. -/
def place (ops : List α) (insPos : List Nat) (j : Nat) : List α → List α
  | [] => placed ops insPos j
  | op :: sched => placed ops insPos j ++ op :: place ops insPos (j + 1) sched

section
variable {o : α} {ops : List α} {insPos : List Nat} {i j : Nat} {sched : List α}

theorem placed_cons : placed (o :: ops) (i :: insPos) j =
    if i = j then o :: placed ops insPos j else placed ops insPos j := by
  by_cases h : i = j <;> simp [placed, h]

theorem placed_eq_nil (h : ∀ i ∈ insPos, i ≠ j) : placed ops insPos j = [] := by
  rw [placed, List.map_eq_nil_iff, List.filter_eq_nil_iff]
  intro q hq
  simpa using h q.2 (List.of_mem_zip hq).2

theorem placed_replicate : placed ops (List.replicate ops.length j) j = ops := by
  induction ops with
  | nil => rfl
  | cons o ops ih => rw [List.length_cons, List.replicate_succ, placed_cons, if_pos rfl, ih]

theorem place_nil : place [] insPos j sched = sched := by
  induction sched generalizing j with
  | nil => rfl
  | cons op sched ih =>
      rw [place, ih]
      rfl

/-- An operation in an earlier gap is not placed any more, -/
theorem place_cons_of_lt (h : i < j) :
    place (o :: ops) (i :: insPos) j sched = place ops insPos j sched := by
  induction sched generalizing j with
  | nil => rw [place, place, placed_cons, if_neg (by omega)]
  | cons op sched ih => rw [place, place, ih (by omega), placed_cons, if_neg (by omega)]

/-- and one in this gap comes first. -/
theorem place_cons_self :
    place (o :: ops) (j :: insPos) j sched = o :: place ops insPos j sched := by
  cases sched with
  | nil => rw [place, place, placed_cons, if_pos rfl]
  | cons op sched =>
      rw [place, place, place_cons_of_lt (Nat.lt_succ_self j), placed_cons, if_pos rfl]
      rfl

theorem map_place (f : α → β) :
    place (ops.map f) insPos j (sched.map f) = (place ops insPos j sched).map f := by
  have hplaced : ∀ j, placed (ops.map f) insPos j = (placed ops insPos j).map f := by
    intro j
    simp [placed, List.zip_map_left, List.filter_map, Function.comp_def]
  induction sched generalizing j with
  | nil => exact hplaced j
  | cons op sched ih => simp [place, ih, hplaced]

end

/-- The vectors of positions list the merges. -/
theorem map_place_eq_merges (sched ops : List α) (j : Nat) :
    (combinationsWithReplacement (List.range' j (sched.length + 1)) ops.length).map
      (fun insPos => place ops insPos j sched) = merges sched ops := by
  induction sched, ops using merges.induct generalizing j with
  | case1 ops =>
      rw [merges_nil_left, List.length_nil, List.range'_one, combinations_singleton]
      simp [place, placed_replicate]
  | case2 a sched =>
      rw [merges_nil_right, List.length_nil, combinationsWithReplacement]
      simp [place_nil]
  | case3 a sched b ops ihops ihsched =>
      have hfirst : (combinationsWithReplacement (List.range' j ((a :: sched).length + 1))
          ops.length).map (fun insPos => place (b :: ops) (j :: insPos) j (a :: sched)) =
          (merges (a :: sched) ops).map (List.cons b) := by
        rw [← ihops j, List.map_map]
        exact List.map_congr_left fun insPos _ => place_cons_self
      have hlater : (combinationsWithReplacement (List.range' (j + 1) (sched.length + 1))
          (b :: ops).length).map (fun insPos => place (b :: ops) insPos j (a :: sched)) =
          (merges sched (b :: ops)).map (List.cons a) := by
        rw [← ihsched (j + 1), List.map_map]
        refine List.map_congr_left fun insPos hpos => ?_
        have hnone : ∀ i ∈ insPos, i ≠ j := by
          intro i hi
          have := (mem_of_mem_combinations hpos).2 i hi
          simp only [List.mem_range'_1] at this
          omega
        rw [place, placed_eq_nil hnone]
        rfl
      rw [merges_cons_cons, ← hfirst, ← hlater, List.length_cons, List.length_cons,
        List.range'_succ, combinationsWithReplacement, List.map_append, List.map_map]
      rfl

/-! ### The loops -/

/-- A loop none of whose rounds fails. -/
theorem mapM_eq_map {γ : Type w} {f : β → Option γ} {g : β → γ} {l : List β}
    (h : ∀ b ∈ l, f b = some (g b)) : l.mapM f = some (l.map g) := by
  induction l with
  | nil => rfl
  | cons b l ih =>
      obtain ⟨hb, hl⟩ := List.forall_mem_cons.mp h
      rw [List.mapM_cons, hb, ih hl]
      rfl

/-- Two nested loops the other way round. -/
theorem flatMap_map_perm {γ : Type w} (f : α → β → γ) (l : List α) (m : List β) :
    (l.flatMap fun a => m.map fun b => f a b).Perm (m.flatMap fun b => l.map fun a => f a b) := by
  induction m with
  | nil => simp
  | cons b m ih =>
      simp only [List.map_cons, List.flatMap_cons]
      exact (List.map_append_flatMap_perm l (fun a => f a b) _).symm.trans (ih.append_left _)

section
variable {ops : List α} {insPos : List Nat} {j n : Nat} {sched : List α} {I : List (List α)}

theorem opsAt_eq (h : insPos.length = ops.length) : opsAt ops insPos j = some (placed ops insPos j)
    := by
  have hget : ∀ p ∈ ops.zipIdx, (insPos[p.2]?.map fun pos => if pos = j then [p.1] else []) =
      some (if insPos.getD p.2 0 = j then [p.1] else []) := by
    intro p hp
    have hlt : p.2 < insPos.length := by
      have := (List.mem_zipIdx hp).2.1
      omega
    rw [List.getD_eq_getElem?_getD, List.getElem?_eq_getElem hlt]
    rfl
  rw [opsAt, mapM_eq_map hget, Option.map_some, Option.some.injEq]
  clear hget
  induction ops generalizing insPos with
  | nil => rfl
  | cons o ops ih =>
      cases insPos with
      | nil => exact absurd h (by simp)
      | cons i insPos =>
          have ih : (ops.zipIdx.map fun p => if insPos.getD p.2 0 = j then [p.1] else []).flatten =
              placed ops insPos j := ih (by simpa using h)
          rw [placed_cons, ← ih, List.zipIdx_cons', List.map_cons, List.map_map, List.flatten_cons]
          by_cases hij : i = j
          · simp [hij, Function.comp_def]
          · simp [hij, Function.comp_def]

/-- The loop over the gaps, from the gap `j` on. -/
theorem flatMap_range'_eq_place : (List.range' j (sched.length + 1)).flatMap
    (fun k => placed ops insPos k ++ sched[k - j]?.toList) = place ops insPos j sched := by
  induction sched generalizing j with
  | nil => simp [place]
  | cons op sched ih =>
      rw [List.length_cons, List.range'_succ, List.flatMap_cons, place, ← ih (j := j + 1)]
      have hrest : (List.range' (j + 1) (sched.length + 1)).flatMap
          (fun k => placed ops insPos k ++ (op :: sched)[k - j]?.toList) =
          (List.range' (j + 1) (sched.length + 1)).flatMap
            (fun k => placed ops insPos k ++ sched[k - (j + 1)]?.toList) := by
        refine List.flatMap_congr fun k hk => ?_
        have hk : j + 1 ≤ k := (List.mem_range'_1.mp hk).1
        rw [show k - j = k - (j + 1) + 1 by omega, List.getElem?_cons_succ]
      rw [hrest]
      simp

theorem newSched_eq (h : insPos.length = ops.length) :
    newSched (sched.length + 1) ops insPos sched = some (place ops insPos 0 sched) := by
  have hround : ∀ k ∈ List.range (sched.length + 1),
      ((opsAt ops insPos k).bind fun new =>
        if k < sched.length + 1 - 1 then sched[k]?.map fun op => new ++ [op] else some new) =
      some (placed ops insPos k ++ sched[k]?.toList) := by
    intro k hk
    rw [opsAt_eq h, Option.bind_some, Nat.add_sub_cancel]
    by_cases hlt : k < sched.length
    · simp [hlt]
    · simp [hlt]
  rw [newSched, mapM_eq_map hround, Option.map_some, ← List.flatMap_def, List.range_eq_range',
    ← flatMap_range'_eq_place]
  rfl

/-- Where all schedules have one length, `I[0]` included, the loops build them all. -/
theorem insertThread_eq (hne : I ≠ []) (hlen : ∀ sched ∈ I, sched.length = n) (ops : List α) :
    insertThread I ops = some
      ((combinationsWithReplacement (List.range (n + 1)) ops.length).flatMap fun insPos =>
        I.map fun sched => place ops insPos 0 sched) := by
  obtain ⟨first, hfirst⟩ : ∃ first, I[0]? = some first :=
    ⟨_, List.getElem?_eq_getElem (List.length_pos_iff.mpr hne)⟩
  rw [insertThread, hfirst, Option.bind_some, hlen first (List.mem_of_getElem? hfirst)]
  have hround : ∀ insPos ∈ combinationsWithReplacement (List.range (n + 1)) ops.length,
      I.mapM (fun sched => newSched (n + 1) ops insPos sched) =
        some (I.map fun sched => place ops insPos 0 sched) := by
    intro insPos hpos
    refine mapM_eq_map fun sched hsched => ?_
    rw [← hlen sched hsched]
    exact newSched_eq (mem_of_mem_combinations hpos).1
  simp only [mapM_eq_map hround, Option.map_some, ← List.flatMap_def]

/-- They are the merges of the schedules with the thread, in another order. -/
theorem insertThread_perm (hne : I ≠ []) (hlen : ∀ sched ∈ I, sched.length = n) (ops : List α) :
    ∃ I', insertThread I ops = some I' ∧ I'.Perm (I.flatMap fun sched => merges sched ops) := by
  refine ⟨_, insertThread_eq hne hlen ops, ?_⟩
  have hmerges : I.flatMap (fun sched => merges sched ops) = I.flatMap fun sched =>
      (combinationsWithReplacement (List.range (n + 1)) ops.length).map
        fun insPos => place ops insPos 0 sched := by
    refine List.flatMap_congr fun sched hsched => ?_
    rw [← map_place_eq_merges sched ops 0, hlen sched hsched, List.range_eq_range']
  rw [hmerges]
  exact flatMap_map_perm _ _ _

/-- The loops do not look at the operations. -/
theorem insertThread_map (f : α → β) (hne : I ≠ []) (hlen : ∀ sched ∈ I, sched.length = n)
    (ops : List α) : insertThread (I.map (List.map f)) (ops.map f) =
      (insertThread I ops).map (List.map (List.map f)) := by
  have hlen' : ∀ sched ∈ I.map (List.map f), sched.length = n := by
    intro sched hsched
    obtain ⟨sched, hs, rfl⟩ := List.mem_map.mp hsched
    rw [List.length_map, hlen sched hs]
  rw [insertThread_eq hne hlen, insertThread_eq (by simpa using hne) hlen', Option.map_some,
    List.length_map]
  simp [List.map_flatMap, map_place, Function.comp_def]

end

/-! ### The schedules -/

/-- An operation, with its thread and its position in it. -/
structure Op (α : Type u) where
  thread : Nat
  pos : Nat
  op : α

/-- The operations of the thread `t`. -/
def tagOps (t : Nat) (ops : List α) : List (Op α) :=
  ops.zipIdx.map fun p => { thread := t, pos := p.2, op := p.1 }

/-- The threads, with their operations told apart. -/
def tagged (P : List (List α)) : List (List (Op α)) := P.zipIdx.map fun p => tagOps p.2 p.1

/-- A schedule that keeps the operations of each thread, complete and in order. -/
def Interleaving (P : List (List α)) (sched : List (Op α)) : Prop :=
  ∀ t, sched.filter (fun op => op.thread = t) = (tagged P).getD t []

/-- What the loop has built from the threads `P`. -/
structure Built (P : List (List α)) (I : List (List (Op α))) : Prop where
  run : schedules (tagged P) = some I
  /-- The operations themselves come out where their tagged ones do. -/
  erased : schedules P = some (I.map (List.map Op.op))
  mem : ∀ sched, sched ∈ I ↔ Interleaving P sched
  length : ∀ sched ∈ I, sched.length = (P.map List.length).sum
  nodup : I.Nodup
  count : I.length * (P.map fun ops => ops.length !).prod = (P.map List.length).sum !

section
variable {P : List (List α)} {ops : List α} {I I' : List (List (Op α))} {t : Nat}
  {sched : List (Op α)}

@[simp] theorem length_tagOps : (tagOps t ops).length = ops.length := by simp [tagOps]

@[simp] theorem map_op_tagOps : (tagOps t ops).map Op.op = ops := by
  rw [tagOps, List.map_map]
  exact List.zipIdx_map_fst 0 ops

theorem thread_of_mem_tagOps {op : Op α} (h : op ∈ tagOps t ops) : op.thread = t := by
  obtain ⟨_, -, rfl⟩ := List.mem_map.mp h
  rfl

theorem tagged_append : tagged (P ++ [ops]) = tagged P ++ [tagOps P.length ops] := by
  simp [tagged, List.zipIdx_append]

@[simp] theorem length_tagged : (tagged P).length = P.length := by simp [tagged]

theorem getD_tagged_append :
    (tagged (P ++ [ops])).getD t [] =
      if t = P.length then tagOps P.length ops else (tagged P).getD t [] := by
  rw [tagged_append]
  rcases Nat.lt_trichotomy t P.length with h | h | h
  · rw [List.getD_append _ _ _ _ (by simpa using h), if_neg (by omega)]
  · subst h
    rw [List.getD_append_right _ _ _ _ (by simp)]
    simp
  · rw [if_neg (by omega), List.getD_eq_default _ _ (by simpa using Nat.succ_le_of_lt h),
      List.getD_eq_default _ _ (by simpa using h.le)]

theorem Built.ne_nil (h : Built P I) : I ≠ [] := by
  rintro rfl
  have := h.count
  simp only [List.length_nil, Nat.zero_mul] at this
  exact absurd this.symm (Nat.factorial_ne_zero _)

/-- The schedules of the threads before have no operation of the next. -/
theorem Built.thread_ne (h : Built P I) (hs : sched ∈ I) :
    ∀ op ∈ sched, decide (op.thread = P.length) = false := by
  have := (h.mem sched).mp hs P.length
  rw [List.getD_eq_default _ _ (by simp), List.filter_eq_nil_iff] at this
  simpa using this

/-- A schedule is one of the threads before, and the next thread merged into it. -/
theorem interleaving_append : Interleaving (P ++ [ops]) sched ↔
    sched.filter (fun op => op.thread = P.length) = tagOps P.length ops ∧
      Interleaving P (sched.filter fun op => !decide (op.thread = P.length)) := by
  have hsub : ∀ t, t ≠ P.length → (sched.filter fun op => !decide (op.thread = P.length)).filter
      (fun op => op.thread = t) = sched.filter fun op => op.thread = t := by
    intro t ht
    rw [List.filter_filter]
    refine List.filter_congr fun op _ => ?_
    by_cases hop : op.thread = t
    · simp [hop, ht]
    · simp [hop]
  refine ⟨?_, ?_⟩
  · intro h
    refine ⟨?_, fun t => ?_⟩
    · have := h P.length
      rwa [getD_tagged_append, if_pos rfl] at this
    · by_cases ht : t = P.length
      · subst ht
        rw [List.getD_eq_default _ _ (by simp), List.filter_eq_nil_iff]
        intro op hop
        simpa using (List.mem_filter.mp hop).2
      · have := h t
        rw [getD_tagged_append, if_neg ht] at this
        rw [hsub t ht, this]
  · intro h t
    rw [getD_tagged_append]
    by_cases ht : t = P.length
    · subst ht
      rw [if_pos rfl]
      exact h.1
    · rw [if_neg ht, ← h.2 t, hsub t ht]

theorem built_nil : Built ([] : List (List α)) [[]] where
  run := rfl
  erased := rfl
  mem sched := by
    rw [List.mem_singleton]
    refine ⟨?_, ?_⟩
    · intro h t
      simp [h, tagged]
    · intro h
      rw [List.eq_nil_iff_forall_not_mem]
      intro op hop
      have := h op.thread
      simp only [tagged, List.zipIdx_nil, List.map_nil, List.getD_nil,
        List.filter_eq_nil_iff] at this
      exact this op hop (decide_eq_true rfl)
  length := by simp
  nodup := List.nodup_singleton _
  count := by simp

/-- One round of the loop. -/
theorem Built.append (h : Built P I) (ops : List α) : ∃ I', Built (P ++ [ops]) I' := by
  have hv : ∀ op ∈ tagOps P.length ops, decide (op.thread = P.length) = true := by
    intro op hop
    simp [thread_of_mem_tagOps hop]
  obtain ⟨I', hI', hperm⟩ := insertThread_perm h.ne_nil h.length (tagOps P.length ops)
  refine ⟨I', ?_⟩
  constructor
  case run =>
    rw [schedules, tagged_append, List.foldlM_append, ← schedules, h.run]
    simpa using hI'
  case erased =>
    have hmap := insertThread_map Op.op h.ne_nil h.length (tagOps P.length ops)
    rw [map_op_tagOps, hI'] at hmap
    rw [schedules, List.foldlM_append, ← schedules, h.erased]
    simpa using hmap
  case mem =>
    intro sched
    rw [hperm.mem_iff, List.mem_flatMap, interleaving_append, ← h.mem]
    refine ⟨?_, ?_⟩
    · intro hsched
      obtain ⟨s, hs, hmerge⟩ := hsched
      obtain ⟨hnew, rfl⟩ := (mem_merges_iff (h.thread_ne hs) hv).mp hmerge
      exact ⟨hnew, hs⟩
    · intro hsched
      obtain ⟨hnew, hs⟩ := hsched
      exact ⟨_, hs, (mem_merges_iff (h.thread_ne hs) hv).mpr ⟨hnew, rfl⟩⟩
  case length =>
    intro sched hsched
    obtain ⟨s, hs, hmerge⟩ := List.mem_flatMap.mp (hperm.mem_iff.mp hsched)
    rw [length_of_mem_merges hmerge, h.length s hs]
    simp
  case nodup =>
    rw [hperm.nodup_iff, List.nodup_flatMap]
    refine ⟨fun s hs => nodup_merges (h.thread_ne hs) hv, ?_⟩
    refine h.nodup.pairwise_of_forall_ne fun s hs s' hs' hne sched hsched hsched' => hne ?_
    rw [← ((mem_merges_iff (h.thread_ne hs) hv).mp hsched).2,
      ((mem_merges_iff (h.thread_ne hs') hv).mp hsched').2]
  case count =>
    have hlength : I'.length =
        I.length * ((P.map List.length).sum + ops.length).choose (P.map List.length).sum := by
      rw [hperm.length_eq, List.length_flatMap, List.sum_eq_card_nsmul _
        (((P.map List.length).sum + ops.length).choose (P.map List.length).sum) ?_]
      · simp
      · intro x hx
        obtain ⟨s, hs, rfl⟩ := List.mem_map.mp hx
        rw [length_merges, h.length s hs, length_tagOps]
    rw [hlength, Nat.choose_symm_add]
    simp only [List.map_append, List.map_singleton, List.prod_append, List.prod_singleton,
      List.sum_append, List.sum_singleton]
    rw [← Nat.add_choose_mul_factorial_mul_factorial, ← h.count]
    ring

theorem exists_built (P : List (List α)) : ∃ I, Built P I := by
  induction P using List.reverseRecOn with
  | nil => exact ⟨_, built_nil⟩
  | append_singleton P ops ih =>
      obtain ⟨I, hI⟩ := ih
      exact hI.append ops

end

/-- The list that the loops build has the interleavings of the threads, all of them and
each once: as many as a multinomial coefficient says. -/
theorem schedules_interleavings (P : List (List α)) :
    ∃ I, schedules (tagged P) = some I ∧ schedules P = some (I.map (List.map Op.op)) ∧
      (∀ sched, sched ∈ I ↔ Interleaving P sched) ∧ I.Nodup ∧
      I.length * (P.map fun ops => ops.length !).prod = (P.map List.length).sum ! := by
  obtain ⟨I, h⟩ := exists_built P
  exact ⟨I, h.run, h.erased, h.mem, h.nodup, h.count⟩

end OsLabs.MultiThreads.ModelChecker
