import Mathlib.Data.List.Basic

/-!
# OsLabs.History

Histories: lists of events, newest first, that a model carries along and no
modelled function reads. A law about the order of events says what has to be in
the history already when an event is added (`Justified`).
-/

namespace OsLabs

universe u v

variable {α : Type u} {R : α → List α → Prop} {e : α} {log : List α}

/-- Every event of the history was justified by the older ones when it happened. -/
def Justified (R : α → List α → Prop) (log : List α) : Prop :=
  ∀ newer e older, log = newer ++ e :: older → R e older

@[simp] theorem justified_nil : Justified R [] := by
  intro newer e older h
  simp at h

@[simp] theorem justified_cons : Justified R (e :: log) ↔ R e log ∧ Justified R log := by
  refine ⟨?_, ?_⟩
  · intro h
    refine ⟨h [] e log rfl, fun newer d older hlog => ?_⟩
    exact h (e :: newer) d older (by rw [hlog, List.cons_append])
  · intro hboth newer d older h
    obtain ⟨he, hlog⟩ := hboth
    cases newer with
    | nil =>
        obtain ⟨rfl, rfl⟩ := List.cons.inj h
        exact he
    | cons f newer =>
        obtain ⟨-, h⟩ := List.cons.inj h
        exact hlog newer d older h

end OsLabs
