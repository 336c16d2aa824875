import Mathlib.Data.List.Basic

/-!
# OsLabs.MultiThreads.Threads

How `threads.h` numbers the threads it creates.

`create` gives a thread the number after that of the thread created last. `brac.c` and
`fish.c` index the string of roles with it, from 0. The copy of `threads.h` in
`os-midterm` begins with 0, that in `multi-threads`, which the two programs include,
with 1: there the first role is never played, and the last thread plays the NUL behind
the string (`roles_played_iff`).
-/

namespace OsLabs.MultiThreads.Threads

/-- `struct thread`, less `thread` and `next`; `entry` says which role is played. -/
structure Thread where
  id : Nat
  entry : Nat → Option Char

/-- `create(fn)`, on the list `threads`; `first` is the number of the first thread. -/
def createFrom (first : Nat) (threads : List Thread) (fn : Nat → Option Char) : List Thread :=
  match threads with
  | [] => [{ id := first, entry := fn }]
  | head :: _ => { id := head.id + 1, entry := fn } :: threads

/-- `create` of `multi-threads/threads.h`. -/
def create (threads : List Thread) (fn : Nat → Option Char) : List Thread :=
  createFrom 1 threads fn

/-- `create` of `os-midterm/threads.h`. -/
def midtermCreate (threads : List Thread) (fn : Nat → Option Char) : List Thread :=
  createFrom 0 threads fn

/-- What `entry_all` runs. -/
def entryAll (t : Thread) : Option Char := t.entry t.id

/-- `roles[id]`, in the array that holds `roles` and its NUL. -/
def role (roles : List Char) (id : Nat) : Option Char := (roles ++ ['\x00'])[id]?

/-- `brac_thread` and `fish_thread`, as far as the role they play. -/
def playRole (roles : List Char) (id : Nat) : Option Char := role roles id

/-- The `for` loop of `main`, with `i` rounds to go. -/
def createAll (create : List Thread → (Nat → Option Char) → List Thread)
    (fn : Nat → Option Char) : Nat → List Thread → List Thread
  | 0, threads => threads
  | i + 1, threads => createAll create fn i (create threads fn)

/-- `main`, for any string of roles. -/
def main (create : List Thread → (Nat → Option Char) → List Thread) (roles : List Char) :
    List Thread :=
  createAll create (playRole roles) roles.length []

/-- The threads and the positions of the roles are in one-to-one correspondence, every role
is played by a thread of its own, and nobody plays the NUL. -/
structure RolesPlayed (roles : List Char) (threads : List Thread) : Prop where
  ids : (threads.map Thread.id).Perm (List.range roles.length)
  roles : (threads.map entryAll).Perm (roles.map some)
  nul : ∀ t ∈ threads, entryAll t ≠ some '\x00'

section
variable {first n : Nat} {fn : Nat → Option Char} {threads : List Thread} {roles : List Char}

/-- The numbers are consecutive, the newest first. -/
theorem ids_createFrom (fn : Nat → Option Char)
    (h : threads.map Thread.id = (List.range' first n).reverse) :
    (createFrom first threads fn).map Thread.id = (List.range' first (n + 1)).reverse := by
  have hlen : threads.length = n := by
    have := congrArg List.length h
    simpa using this
  rw [List.range'_1_concat, List.reverse_append, List.reverse_singleton, ← h]
  cases threads with
  | nil =>
      obtain rfl : n = 0 := hlen.symm
      rfl
  | cons head rest =>
      obtain rfl : n = rest.length + 1 := hlen.symm
      rw [List.range'_1_concat, List.reverse_append, List.map_cons] at h
      have hid : head.id = first + rest.length := (List.cons.inj h).1
      simp [createFrom, hid, Nat.add_assoc]

theorem ids_createAll (first : Nat) (fn : Nat → Option Char) (i : Nat)
    (h : threads.map Thread.id = (List.range' first n).reverse) :
    (createAll (createFrom first) fn i threads).map Thread.id =
      (List.range' first (n + i)).reverse := by
  induction i generalizing threads n with
  | zero => exact h
  | succ i ih => rw [createAll, ih (ids_createFrom fn h), show n + 1 + i = n + (i + 1) by omega]

/-- Everybody runs the function `create` was called with. -/
theorem entry_createAll (i : Nat) (h : ∀ t ∈ threads, t.entry = fn) :
    ∀ t ∈ createAll (createFrom first) fn i threads, t.entry = fn := by
  induction i generalizing threads with
  | zero => exact h
  | succ i ih =>
      refine ih ?_
      cases threads with
      | nil => simp [createFrom]
      | cons head rest => simpa [createFrom] using h

theorem ids_main (first : Nat) (roles : List Char) :
    (main (createFrom first) roles).map Thread.id =
      (List.range' first roles.length).reverse := by
  have hnil : ([] : List Thread).map Thread.id = (List.range' first 0).reverse := rfl
  have h := ids_createAll first (playRole roles) roles.length hnil
  rwa [Nat.zero_add] at h

/-- Numbers that begin with 1 miss the position 0, unless there is no position. -/
theorem eq_nil_of_rolesPlayed (h : RolesPlayed roles (main create roles)) : roles = [] := by
  by_contra hne
  have hzero : 0 ∈ (main create roles).map Thread.id := by
    rw [h.ids.mem_iff, List.mem_range]
    exact List.length_pos_iff.mpr hne
  have hids : (main create roles).map Thread.id = (List.range' 1 roles.length).reverse :=
    ids_main 1 roles
  rw [hids, List.mem_reverse, List.mem_range'_1] at hzero
  exact absurd hzero.1 (by decide)

/-- Numbers that begin with 0 are the positions. -/
theorem rolesPlayed_midterm (hnul : '\x00' ∉ roles) :
    RolesPlayed roles (main midtermCreate roles) := by
  have hids : ((main midtermCreate roles).map Thread.id).Perm (List.range roles.length) := by
    have h : (main midtermCreate roles).map Thread.id = (List.range' 0 roles.length).reverse :=
      ids_main 0 roles
    rw [h, List.range_eq_range']
    exact List.reverse_perm _
  have hentry : (main midtermCreate roles).map entryAll =
      ((main midtermCreate roles).map Thread.id).map (playRole roles) := by
    rw [List.map_map]
    refine List.map_congr_left fun t ht => ?_
    have hfn : t.entry = playRole roles :=
      entry_createAll roles.length (fun _ h => absurd h (by simp)) t ht
    rw [entryAll, hfn, Function.comp_apply]
  have hroles : (List.range roles.length).map (playRole roles) = roles.map some := by
    refine List.ext_getElem (by simp) fun i hi _ => ?_
    have hlt : i < roles.length := by simpa using hi
    simp [playRole, role, List.getElem?_append_left hlt]
  have hplayed : ((main midtermCreate roles).map entryAll).Perm (roles.map some) := by
    rw [hentry, ← hroles]
    exact hids.map _
  refine ⟨hids, hplayed, fun t ht heq => hnul ?_⟩
  have hmem : some '\x00' ∈ roles.map some :=
    hplayed.mem_iff.mp (heq ▸ List.mem_map_of_mem ht)
  simpa using hmem

end

/-- With the `create` the programs use, the roles are played as they should be only when
there are none; with the other one they always are. -/
theorem roles_played_iff {roles : List Char} (hnul : '\x00' ∉ roles) :
    (RolesPlayed roles (main create roles) ↔ roles = []) ∧
      RolesPlayed roles (main midtermCreate roles) := by
  refine ⟨⟨eq_nil_of_rolesPlayed, ?_⟩, rolesPlayed_midterm hnul⟩
  rintro rfl
  exact ⟨.nil, .nil, fun _ h => absurd h (by simp [main, createAll])⟩

/-- The roles of `brac.c`: the first of them is not played. -/
theorem roles_played_iff_brac :
    ¬ RolesPlayed "[[]](())".toList (main create "[[]](())".toList) := by
  intro h
  exact absurd ((roles_played_iff (by decide)).1.mp h) (by decide)

/-- The last thread of `brac.c` plays the NUL. -/
theorem not_roles_played :
    ¬ ∀ roles : List Char, '\x00' ∉ roles → RolesPlayed roles (main create roles) := by
  intro h
  have hlast : (main create "[[]](())".toList).head?.map entryAll = some (some '\x00') := by decide
  obtain ⟨t, ht, hrole⟩ := Option.map_eq_some_iff.mp hlast
  exact (h "[[]](())".toList (by decide)).nul t (List.mem_of_head? ht) hrole

end OsLabs.MultiThreads.Threads
