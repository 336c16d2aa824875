import Mathlib.Algebra.Group.Nat.Defs
import Mathlib.Data.Nat.Basic

/-!
# OsLabs.RoundUp

Rounding up with a mask: `(a + sz - 1) & ~(sz - 1)`, on words of `w` bits.

This is the next multiple of `sz` where `sz` is a power of two (`dvd_roundup`). For other
sizes it is just some number, but never one below `a`, because the mask takes away at most
`sz - 1` (`le_up`).
-/

namespace OsLabs.RoundUp

variable {w : Nat} {a sz : BitVec w}

/-- `(a + sz - 1) & ~(sz - 1)`. -/
def roundup (a sz : BitVec w) : BitVec w := (a + sz - 1) &&& ~~~(sz - 1)

/-- The same in numbers without bound. -/
def up (a sz : Nat) : Nat := a + sz - 1 - ((a + sz - 1) &&& (sz - 1))

theorem le_up {a sz : Nat} (h : 0 < sz) : a ≤ up a sz := by
  have hmask : (a + sz - 1) &&& (sz - 1) ≤ sz - 1 := Nat.and_le_right
  rw [up]
  omega

/-- Taking a mask away is subtracting what it keeps. -/
theorem toNat_and_not (x y : BitVec w) :
    (x &&& ~~~y).toNat = x.toNat - (x.toNat &&& y.toNat) := by
  have hle : x &&& y ≤ x := by
    rw [BitVec.le_def, BitVec.toNat_and]
    exact Nat.and_le_left
  have hzero : x &&& ~~~y &&& (x &&& y) = 0#w := by
    ext i hi
    simp only [BitVec.getElem_and, BitVec.getElem_not, BitVec.getElem_zero]
    cases x[i] <;> cases y[i] <;> rfl
  have hsplit : (x &&& ~~~y) ||| (x &&& y) = x := by
    ext i hi
    simp only [BitVec.getElem_or, BitVec.getElem_and, BitVec.getElem_not]
    cases x[i] <;> cases y[i] <;> rfl
  have hsum : x &&& ~~~y = x - (x &&& y) := by
    rw [BitVec.eq_sub_iff_add_eq, BitVec.add_eq_or_of_and_eq_zero _ _ hzero, hsplit]
  rw [hsum, BitVec.toNat_sub_of_le hle, BitVec.toNat_and]

theorem toNat_pos : 0 < sz.toNat ↔ sz ≠ 0 := by
  rw [Nat.pos_iff_ne_zero, not_iff_not, BitVec.toNat_eq]
  simp

theorem toNat_sub_one (h : sz ≠ 0) : (sz - 1).toNat = sz.toNat - 1 := by
  have hpos := toNat_pos.mpr h
  have hlt := sz.isLt
  have hone : (1 : BitVec w).toNat = 1 := by
    have : 1 < 2 ^ w := by omega
    exact Nat.mod_eq_of_lt this
  rw [BitVec.toNat_sub_of_le, hone]
  rw [BitVec.le_def, hone]
  exact hpos

/-- Where nothing overflows, rounding up on words is rounding up. -/
theorem toNat_roundup (h : sz ≠ 0) (hfits : a.toNat + sz.toNat ≤ 2 ^ w) :
    (roundup a sz).toNat = up a.toNat sz.toNat := by
  have hpos := toNat_pos.mpr h
  have hone := toNat_sub_one h
  have hsum : (a + sz - 1).toNat = a.toNat + sz.toNat - 1 := by
    have hassoc : a + sz - 1 = a + (sz - 1) := by
      rw [BitVec.sub_eq_add_neg, BitVec.sub_eq_add_neg, BitVec.add_assoc]
    rw [hassoc, BitVec.toNat_add, hone, Nat.mod_eq_of_lt (by omega)]
    omega
  rw [roundup, toNat_and_not, hsum, hone, up]

/-- For a power of two the result is a multiple of it, also where the sum overflows. -/
theorem dvd_roundup {k : Nat} (h : sz.toNat = 2 ^ k) : 2 ^ k ∣ (roundup a sz).toNat := by
  have hne : sz ≠ 0 := toNat_pos.mp (h ▸ Nat.two_pow_pos k)
  rw [roundup, toNat_and_not, toNat_sub_one hne, h, Nat.and_two_pow_sub_one_eq_mod]
  exact Nat.dvd_sub_mod _

end OsLabs.RoundUp
