import Mathlib.Data.List.Dedup
import OsLabs.Percentage
import OsLabs.Sperf.FuncTime

/-!
# OsLabs.Sperf.Report

`show` of `mycode/sperf.c`: the functions at the head of the list, as many as eight, each
with its percentage of the total.

The list is sorted and its times add up to `total_time`, so the functions that are printed
are those with the largest times, and their percentages do not increase and are together
at most 100 (`shows_reports`). This is so for the report of a sample, and for the last
one, for which the list is sorted once more.
-/

namespace OsLabs.Sperf

/-- `Max_Output_Num`. -/
def maxOutputNum : Nat := 8

/-- What `"%s (%d%%)\n"` prints. -/
structure OutputLine where
  func : CString
  percent : ℤ
  deriving DecidableEq, Repr

/-- The line of a function. -/
def FuncTime.line (totalTime : ℚ) (p : FuncTime ℚ) : OutputLine where
  func := p.func
  percent := percentage totalTime p.time

/-- The loop of `show`, from the line with the number `num` on. -/
def showLoop (totalTime : ℚ) : Nat → List (FuncTime ℚ) → List OutputLine
  | _, [] => []
  | num, p :: rest =>
      p.line totalTime :: if num = maxOutputNum then [] else showLoop totalTime (num + 1) rest

/-- `show`: the lines before the one that ends the report; `none` when its assertion
`head != NULL` fails. -/
def showList (head : List (FuncTime ℚ)) (totalTime : ℚ) : Option (List OutputLine) :=
  if head = [] then none else some (showLoop totalTime 1 head)

/-- What a report says of the samples. -/
structure Reports (samples : List (FuncTime ℚ)) (lines : List OutputLine) : Prop where
  /-- As many functions as there are, up to eight, -/
  length : lines.length = min 8 (samples.map FuncTime.func).dedup.length
  nodup : (lines.map OutputLine.func).Nodup
  sampled : ∀ line ∈ lines, line.func ∈ samples.map FuncTime.func
  /-- and none that is left out has more time than one that is printed. -/
  largest : ∀ line ∈ lines, ∀ name ∈ samples.map FuncTime.func,
    name ∉ lines.map OutputLine.func → spent samples name ≤ spent samples line.func
  percent : ∀ line ∈ lines,
    line.percent = percentage (samples.map FuncTime.time).sum (spent samples line.func)
  sorted : lines.Pairwise fun a b => b.percent ≤ a.percent
  bounds : ∀ line ∈ lines, 0 ≤ line.percent ∧ line.percent ≤ 100
  sum : (lines.map OutputLine.percent).sum ≤ 100

/-! ### The loop -/

/-- The loop breaks after the eighth line. -/
theorem showLoop_eq {totalTime : ℚ} {num : Nat} {l : List (FuncTime ℚ)} (h : num ≤ 8) :
    showLoop totalTime num l = (l.take (9 - num)).map (FuncTime.line totalTime) := by
  induction l generalizing num with
  | nil => simp [showLoop]
  | cons p rest ih =>
      have hsucc : 9 - num = 8 - num + 1 := by omega
      rw [showLoop, hsucc, List.take_succ_cons, List.map_cons]
      by_cases hlast : num = maxOutputNum
      · have hzero : 8 - num = 0 := by
          rw [hlast]
          rfl
        rw [if_pos hlast, hzero, List.take_zero, List.map_nil]
      · have hlt : num < 8 := Nat.lt_of_le_of_ne h hlast
        have hnext : 9 - (num + 1) = 8 - num := by omega
        rw [if_neg hlast, ih hlt, hnext]

theorem showList_eq {head : List (FuncTime ℚ)} (h : head ≠ []) (totalTime : ℚ) :
    showList head totalTime = some ((head.take 8).map (FuncTime.line totalTime)) := by
  rw [showList, if_neg h, showLoop_eq (by decide)]

/-! ### What is printed -/

section
variable {samples head : List (FuncTime ℚ)} {t : Table ℚ}

theorem spent_nonneg (h : ∀ p ∈ samples, 0 ≤ p.time) (name : CString) :
    0 ≤ spent samples name := by
  refine List.sum_nonneg ?_
  intro x hx
  obtain ⟨p, hp, rfl⟩ := List.mem_map.mp hx
  exact h p (List.mem_of_mem_filter hp)

/-- Sorting once more changes nothing of what the table shows. -/
theorem Shows.sort (h : Shows samples t) (hsort : sort t.head = some head) :
    Shows samples { t with head } := by
  rw [Sperf.sort] at hsort
  split at hsort
  · exact absurd hsort (by simp)
  · obtain rfl := Option.some.inj hsort
    have hperm : (exchangeSort FuncTime.time t.head).Perm t.head := exchangeSort_perm
    exact
      { aggregates := h.aggregates.perm hperm
        sorted := exchangeSort_sorted
        total := ((hperm.map FuncTime.time).sum_eq).trans h.total
        totalTime := h.totalTime }

/-- There is a node for each function. -/
theorem Shows.length (h : Shows samples t) :
    t.head.length = (samples.map FuncTime.func).dedup.length := by
  have hperm : (t.head.map FuncTime.func).Perm (samples.map FuncTime.func).dedup := by
    rw [List.perm_ext_iff_of_nodup h.aggregates.nodup (List.nodup_dedup _)]
    intro name
    rw [h.aggregates.names, List.mem_dedup]
  rw [← hperm.length_eq, List.length_map]

/-- The report of a table, when the times are not negative and not all 0. -/
theorem Shows.reports (h : Shows samples t) (htimes : ∀ p ∈ samples, 0 ≤ p.time)
    (htotal : 0 < t.totalTime) :
    ∃ lines, showList t.head t.totalTime = some lines ∧ Reports samples lines := by
  have hne : t.head ≠ [] := by
    intro hnil
    have := h.total
    rw [hnil, List.map_nil, List.sum_nil] at this
    exact htotal.ne this
  refine ⟨_, showList_eq hne t.totalTime, ?_⟩
  have hnonneg : ∀ q ∈ t.head, 0 ≤ q.time := by
    intro q hq
    rw [h.aggregates.times q hq]
    exact spent_nonneg htimes q.func
  have htake : ∀ q ∈ t.head.take 8, q ∈ t.head := fun q hq => List.mem_of_mem_take hq
  have hsum : ((t.head.take 8).map FuncTime.time).sum ≤ t.totalTime := by
    rw [← h.total]
    refine ((List.take_sublist 8 t.head).map FuncTime.time).sum_le_sum ?_
    intro x hx
    obtain ⟨q, hq, rfl⟩ := List.mem_map.mp hx
    exact hnonneg q hq
  have hnames : ((t.head.take 8).map (FuncTime.line t.totalTime)).map OutputLine.func =
      (t.head.take 8).map FuncTime.func := by
    rw [List.map_map]
    rfl
  constructor
  case length => rw [List.length_map, List.length_take, h.length]
  case nodup =>
    rw [hnames]
    exact h.aggregates.nodup.sublist ((List.take_sublist 8 t.head).map FuncTime.func)
  case sampled =>
    intro line hline
    obtain ⟨q, hq, rfl⟩ := List.mem_map.mp hline
    exact (h.aggregates.names _).mp (List.mem_map_of_mem (htake q hq))
  case largest =>
    intro line hline name hname hout
    obtain ⟨q, hq, rfl⟩ := List.mem_map.mp hline
    obtain ⟨x, hx, rfl⟩ := List.mem_map.mp ((h.aggregates.names name).mpr hname)
    have hsorted := h.sorted
    rw [← List.take_append_drop 8 t.head] at hsorted hx
    rcases List.mem_append.mp hx with hx | hx
    · rw [hnames] at hout
      exact absurd (List.mem_map_of_mem hx) hout
    · have hle := (List.pairwise_append.mp hsorted).2.2 q hq x hx
      rwa [h.aggregates.times x (List.mem_of_mem_drop hx), h.aggregates.times q (htake q hq)] at hle
  case percent =>
    intro line hline
    obtain ⟨q, hq, rfl⟩ := List.mem_map.mp hline
    show percentage t.totalTime q.time = _
    rw [h.totalTime, h.aggregates.times q (htake q hq)]
    rfl
  case sorted =>
    rw [List.pairwise_map]
    refine (h.sorted.sublist (List.take_sublist 8 t.head)).imp_of_mem ?_
    intro p q _ hq hle
    exact percentage_mono htotal (hnonneg q (htake q hq)) hle
  case bounds =>
    intro line hline
    obtain ⟨q, hq, rfl⟩ := List.mem_map.mp hline
    have hq' := hnonneg q (htake q hq)
    refine ⟨percentage_nonneg htotal hq', percentage_le htotal hq' ?_⟩
    rw [← h.total]
    refine List.single_le_sum ?_ _ (List.mem_map_of_mem (htake q hq))
    intro x hx
    obtain ⟨p, hp, rfl⟩ := List.mem_map.mp hx
    exact hnonneg p hp
  case sum =>
    have hpercent : ((t.head.take 8).map (FuncTime.line t.totalTime)).map OutputLine.percent =
        ((t.head.take 8).map FuncTime.time).map (percentage t.totalTime) := by
      rw [List.map_map, List.map_map]
      rfl
    rw [hpercent]
    refine sum_percentage_le htotal ?_ hsum
    intro x hx
    obtain ⟨q, hq, rfl⟩ := List.mem_map.mp hx
    exact hnonneg q (htake q hq)

/-- After any sequence of samples whose times are not negative and not all 0, the report that
`show` prints then, and the one that it prints when the list has been sorted once more, have
the functions with the largest times, in order, with percentages of the total. -/
theorem shows_reports (htimes : ∀ p ∈ samples, 0 ≤ p.time)
    (htotal : 0 < (samples.map FuncTime.time).sum) :
    ∃ t head, samples.foldlM Table.record Table.empty = some t ∧ sort t.head = some head ∧
      (∃ lines, showList t.head t.totalTime = some lines ∧ Reports samples lines) ∧
      ∃ lines, showList head t.totalTime = some lines ∧ Reports samples lines := by
  obtain ⟨t, hfold, h⟩ := exists_shows samples
  have htotal' : 0 < t.totalTime := h.totalTime ▸ htotal
  have hne : t.head ≠ [] := by
    intro hnil
    have := h.total
    rw [hnil, List.map_nil, List.sum_nil] at this
    exact htotal'.ne this
  have hsort : sort t.head = some (exchangeSort FuncTime.time t.head) := if_neg hne
  exact ⟨t, _, hfold, hsort, h.reports htimes htotal', (h.sort hsort).reports htimes htotal'⟩

end

/-- Three samples of two functions. -/
theorem shows_reports_two : ∃ (t : Table ℚ) (head : List (FuncTime ℚ)),
    [⟨[114], 1⟩, ⟨[119], 3⟩, ⟨[114], 1/2⟩].foldlM Table.record Table.empty = some t ∧
      sort t.head = some head ∧
      (∃ lines, showList t.head t.totalTime = some lines ∧
        Reports [⟨[114], 1⟩, ⟨[119], 3⟩, ⟨[114], 1/2⟩] lines) ∧
      ∃ lines, showList head t.totalTime = some lines ∧
        Reports [⟨[114], 1⟩, ⟨[119], 3⟩, ⟨[114], 1/2⟩] lines :=
  shows_reports (by norm_num) (by norm_num)

end OsLabs.Sperf
