import Mathlib.Algebra.Order.BigOperators.Group.List
import Mathlib.Algebra.Order.Floor.Ring
import Mathlib.Data.Rat.Floor
import Mathlib.Tactic.Ring

/-!
# OsLabs.Percentage

The conversion of a number to an integer as C does it, towards zero, and the percentages
that come of it. Parts of a whole that are not negative have percentages between 0 and 100
in the order of the parts, which together are at most 100 (`sum_percentage_le`).
-/

namespace OsLabs

/-- Convert to an integer, towards zero. -/
def truncate (x : ℚ) : ℤ := x.num.tdiv x.den

/-- `x` as a percentage of `total`. -/
def percentage (total x : ℚ) : ℤ := truncate (x / total * 100)

section
variable {x y total : ℚ} {l : List ℚ}

theorem truncate_eq_floor (h : 0 ≤ x) : truncate x = ⌊x⌋ := by
  rw [truncate, Rat.floor_def', Int.tdiv_eq_ediv_of_nonneg (Rat.num_nonneg.mpr h)]

theorem percentage_eq_floor (htotal : 0 < total) (hx : 0 ≤ x) :
    percentage total x = ⌊x / total * 100⌋ :=
  truncate_eq_floor (mul_nonneg (div_nonneg hx htotal.le) (by norm_num))

theorem percentage_nonneg (htotal : 0 < total) (hx : 0 ≤ x) : 0 ≤ percentage total x := by
  rw [percentage_eq_floor htotal hx]
  exact Int.floor_nonneg.mpr (mul_nonneg (div_nonneg hx htotal.le) (by norm_num))

theorem percentage_mono (htotal : 0 < total) (hx : 0 ≤ x) (hxy : x ≤ y) :
    percentage total x ≤ percentage total y := by
  rw [percentage_eq_floor htotal hx, percentage_eq_floor htotal (hx.trans hxy)]
  exact Int.floor_le_floor (by gcongr)

/-- Rounded down, percentages are together at most that of the sum. -/
theorem sum_percentage_le_sum (htotal : 0 < total) (hl : ∀ x ∈ l, 0 ≤ x) :
    (((l.map (percentage total)).sum : ℤ) : ℚ) ≤ l.sum / total * 100 := by
  induction l with
  | nil => simp
  | cons x l ih =>
      obtain ⟨hx, hl⟩ := List.forall_mem_cons.mp hl
      have hfloor : ((percentage total x : ℤ) : ℚ) ≤ x / total * 100 := by
        rw [percentage_eq_floor htotal hx]
        exact Int.floor_le _
      rw [List.map_cons, List.sum_cons, List.sum_cons, Int.cast_add]
      calc ((percentage total x : ℤ) : ℚ) + (((l.map (percentage total)).sum : ℤ) : ℚ)
          ≤ x / total * 100 + l.sum / total * 100 := add_le_add hfloor (ih hl)
        _ = (x + l.sum) / total * 100 := by ring

/-- Some of the parts of a whole. -/
theorem sum_percentage_le (htotal : 0 < total) (hl : ∀ x ∈ l, 0 ≤ x) (hsum : l.sum ≤ total) :
    (l.map (percentage total)).sum ≤ 100 := by
  have hle : (((l.map (percentage total)).sum : ℤ) : ℚ) ≤ 100 := by
    calc (((l.map (percentage total)).sum : ℤ) : ℚ)
        ≤ l.sum / total * 100 := sum_percentage_le_sum htotal hl
      _ ≤ total / total * 100 := by gcongr
      _ = 100 := by rw [div_self htotal.ne', one_mul]
  exact_mod_cast hle

theorem percentage_le (htotal : 0 < total) (hx : 0 ≤ x) (hle : x ≤ total) :
    percentage total x ≤ 100 := by
  have := sum_percentage_le (l := [x]) htotal (by simpa using hx) (by simpa using hle)
  simpa using this

end

end OsLabs
