import Mathlib.Logic.Basic

/-!
# OsLabs.Weakest

Weakest preconditions of straight-line code. An instruction is given by its predicate
transformer: `wp i Q v` holds of the `v` from which the instruction `i` leads to where `Q`
holds. `wps` is that of a list of instructions, so it is an assertion for each point of the
code, and the code of one procedure can be put in front of that of another
(`wps_append`).
-/

namespace OsLabs

universe u v

variable {Instr : Type u} {View : Type v}

/-- The weakest precondition of a list of instructions. -/
def wps (wp : Instr → (View → Prop) → View → Prop) : List Instr → (View → Prop) → View → Prop
  | [], Q => Q
  | i :: code, Q => wp i (wps wp code Q)

section
variable {wp : Instr → (View → Prop) → View → Prop} {code code' : List Instr} {i : Instr}
variable {Q : View → Prop} {v : View}

@[simp] theorem wps_nil : wps wp [] Q v = Q v := rfl

@[simp] theorem wps_cons : wps wp (i :: code) Q v = wp i (wps wp code Q) v := rfl

theorem wps_append : wps wp (code ++ code') Q = wps wp code (wps wp code' Q) := by
  induction code with
  | nil => rfl
  | cons i code ih => rw [List.cons_append, wps, wps, ih]

end

end OsLabs
