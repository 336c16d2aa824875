import Mathlib.Data.List.Nodup
import Mathlib.Data.Nat.Choose.Basic
import Mathlib.Logic.Function.Basic

/-!
# OsLabs.Merges

The merges of two lists: the ways to shuffle them into one that keep the order of each.

`merges u v` lists them. When a test tells the elements of the two apart, the merges are
the lists whose filters are `u` and `v` (`mem_merges_iff`), and no merge is listed twice
(`nodup_merges`). Any number of lists merge in whatever order of turns is given
(`exists_filter_eq`).
-/

namespace OsLabs

universe u v

variable {α : Type u}

/-- The merges of two lists; those that begin with the second come first. -/
def merges : List α → List α → List (List α)
  | [], v => [v]
  | a :: u, [] => [a :: u]
  | a :: u, b :: v =>
      (merges (a :: u) v).map (List.cons b) ++ (merges u (b :: v)).map (List.cons a)
termination_by u v => u.length + v.length

variable {u v w : List α} {a b : α} {p : α → Bool}

@[simp] theorem merges_nil_left : merges [] v = [v] := by rw [merges]

@[simp] theorem merges_nil_right : merges u [] = [u] := by
  cases u <;> rw [merges]

theorem merges_cons_cons : merges (a :: u) (b :: v) =
    (merges (a :: u) v).map (List.cons b) ++ (merges u (b :: v)).map (List.cons a) := by
  rw [merges]

/-- A binomial coefficient counts them. -/
theorem length_merges : (merges u v).length = (u.length + v.length).choose u.length := by
  induction u, v using merges.induct with
  | case1 v => simp
  | case2 a u => simp
  | case3 a u b v ihv ihu =>
      rw [merges_cons_cons, List.length_append, List.length_map, List.length_map, ihv, ihu]
      simp only [List.length_cons]
      rw [show u.length + 1 + (v.length + 1) = (u.length + 1 + v.length) + 1 by omega,
        Nat.choose_succ_succ, show u.length + (v.length + 1) = u.length + 1 + v.length by omega,
        Nat.add_comm]

theorem length_of_mem_merges (h : w ∈ merges u v) : w.length = u.length + v.length := by
  induction u, v using merges.induct generalizing w with
  | case1 v => simp [List.mem_singleton.mp (merges_nil_left ▸ h)]
  | case2 a u => simp [List.mem_singleton.mp (merges_nil_right ▸ h)]
  | case3 a u b v ihv ihu =>
      rw [merges_cons_cons, List.mem_append] at h
      rcases h with h | h
      · obtain ⟨w, hw, rfl⟩ := List.mem_map.mp h
        have := ihv hw
        simp only [List.length_cons] at this ⊢
        omega
      · obtain ⟨w, hw, rfl⟩ := List.mem_map.mp h
        have := ihu hw
        simp only [List.length_cons] at this ⊢
        omega

section
variable (hu : ∀ a ∈ u, p a = false) (hv : ∀ b ∈ v, p b = true)
include hu hv

/-- The merges are the lists that split into the two. -/
theorem mem_merges_iff : w ∈ merges u v ↔ w.filter p = v ∧ w.filter (fun a => !p a) = u := by
  induction u, v using merges.induct generalizing w with
  | case1 v =>
      rw [merges_nil_left, List.mem_singleton]
      refine ⟨?_, ?_⟩
      · intro h
        subst h
        exact ⟨List.filter_eq_self.mpr hv, by simpa using hv⟩
      · intro h
        rw [← h.1, eq_comm, List.filter_eq_self]
        simpa using h.2
  | case2 a u =>
      rw [merges_nil_right, List.mem_singleton]
      refine ⟨?_, ?_⟩
      · intro h
        subst h
        exact ⟨by simpa using hu, List.filter_eq_self.mpr (by simpa using hu)⟩
      · intro h
        rw [← h.2, eq_comm, List.filter_eq_self]
        simpa using h.1
  | case3 a u b v ihv ihu =>
      have hau := List.forall_mem_cons.mp hu
      have hbv := List.forall_mem_cons.mp hv
      have ihv := fun w => ihv (w := w) hu hbv.2
      have ihu := fun w => ihu (w := w) hau.2 hv
      rw [merges_cons_cons, List.mem_append, List.mem_map, List.mem_map]
      cases w with
      | nil => simp
      | cons c w =>
          cases hc : p c with
          | true =>
              -- the list begins with the second one
              have hca : a ≠ c := by
                rintro rfl
                simp [hau.1] at hc
              simp [hc, ihv, hca, and_comm, and_assoc, eq_comm]
          | false =>
              have hcb : b ≠ c := by
                rintro rfl
                simp [hbv.1] at hc
              simp [hc, ihu, hcb, and_left_comm, eq_comm]

theorem nodup_merges : (merges u v).Nodup := by
  induction u, v using merges.induct with
  | case1 v => simp
  | case2 a u => simp
  | case3 a u b v ihv ihu =>
      have hau := List.forall_mem_cons.mp hu
      have hbv := List.forall_mem_cons.mp hv
      have hab : b ≠ a := by
        rintro rfl
        exact absurd (hau.1.symm.trans hbv.1) (by decide)
      rw [merges_cons_cons]
      refine ((ihv hu hbv.2).map (List.cons_injective)).append
        ((ihu hau.2 hv).map (List.cons_injective)) ?_
      intro w hw hw'
      obtain ⟨_, -, rfl⟩ := List.mem_map.mp hw
      obtain ⟨_, -, heq⟩ := List.mem_map.mp hw'
      exact hab (List.cons.inj heq).1.symm

end

/-- Lists whose elements tell their owner merge in any order of the owners that has the right
number of each. -/
theorem exists_filter_eq {τ : Type v} [DecidableEq τ] {owner : α → τ} {L : τ → List α}
    {ids : List τ} (hL : ∀ t, ∀ a ∈ L t, owner a = t) (hids : ∀ t, ids.count t = (L t).length) :
    ∃ w : List α, w.map owner = ids ∧ ∀ t, w.filter (fun a => owner a = t) = L t := by
  induction ids generalizing L with
  | nil =>
      refine ⟨[], rfl, fun t => ?_⟩
      exact (List.length_eq_zero_iff.mp (hids t).symm).symm
  | cons t ids ih =>
      have ht := hids t
      rw [List.count_cons_self] at ht
      obtain ⟨a, rest, hLt⟩ := List.exists_cons_of_length_eq_add_one ht.symm
      have ha : owner a = t := hL t a (hLt ▸ List.mem_cons_self)
      have hrest : ∀ u, ∀ b ∈ Function.update L t rest u, owner b = u := by
        intro u b hb
        by_cases hu : u = t
        · subst hu
          rw [Function.update_self] at hb
          exact hL u b (hLt ▸ List.mem_cons_of_mem a hb)
        · rw [Function.update_of_ne hu] at hb
          exact hL u b hb
      have hcount : ∀ u, ids.count u = (Function.update L t rest u).length := by
        intro u
        by_cases hu : u = t
        · subst hu
          rw [Function.update_self]
          simpa [hLt] using ht
        · rw [Function.update_of_ne hu, ← hids u, List.count_cons_of_ne (Ne.symm hu)]
      obtain ⟨w, hw, hfilter⟩ := ih hrest hcount
      refine ⟨a :: w, by rw [List.map_cons, ha, hw], fun u => ?_⟩
      by_cases hu : u = t
      · subst hu
        rw [List.filter_cons_of_pos (by simpa using ha), hfilter, Function.update_self, hLt]
      · rw [List.filter_cons_of_neg (by simpa [ha] using Ne.symm hu), hfilter,
          Function.update_of_ne hu]

end OsLabs
