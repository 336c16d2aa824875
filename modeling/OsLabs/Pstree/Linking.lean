import OsLabs.Chain
import OsLabs.Fuel
import OsLabs.Outline
import OsLabs.Pstree.Proc

/-!
# OsLabs.Pstree.Linking

What `MakeTree` of `tree/pstree_source_code.c` makes of a table that has just been read.

The parent of a process is the last element of the table with its `ppid` for a `pid`, when
that is not the process itself (`parentOf`). After the loop each process has its parent,
and the chain that begins in its `child` and goes on along the `sister`s has its children in
the order of the table (`makeTree_returns`). Nothing is asked of the table for that: pids
may occur twice, and processes may be their own ancestors.
-/

namespace OsLabs.Pstree

/-- A process without its links and its mark: what has been read. -/
def Proc.bare (p : Proc) : Proc :=
  { p with parent := none, child := none, sister := none, print := false }

namespace Table

variable {P mem : Table} {i j p n : Nat} {v : Option Nat} {id : Int}

/-! ### The process with a pid -/

theorem pidIndexBelow_eq_some : P.pidIndexBelow id n = some i ↔
    i < n ∧ (P.proc i).pid = id ∧ ∀ j, i < j → j < n → (P.proc j).pid ≠ id := by
  induction n with
  | zero => simp [pidIndexBelow]
  | succ n ih =>
      rw [pidIndexBelow]
      split
      · next hpid =>
        refine ⟨?_, ?_⟩
        · intro h
          obtain rfl := Option.some.inj h
          exact ⟨Nat.lt_succ_self n, hpid, fun j hlt hle => absurd hle (by omega)⟩
        · intro h
          obtain ⟨hlt, -, hlast⟩ := h
          rcases Nat.lt_succ_iff_lt_or_eq.mp hlt with hlt | rfl
          · exact absurd hpid (hlast n hlt (Nat.lt_succ_self n))
          · rfl
      · next hpid =>
        rw [ih]
        refine ⟨?_, ?_⟩
        · intro h
          refine ⟨by omega, h.2.1, fun j hlt hle => ?_⟩
          rcases Nat.lt_succ_iff_lt_or_eq.mp hle with hle | rfl
          · exact h.2.2 j hlt hle
          · exact hpid
        · intro h
          have hne : i ≠ n := by
            intro heq
            subst heq
            exact hpid h.2.1
          exact ⟨by omega, h.2.1, fun j hlt hle => h.2.2 j hlt (by omega)⟩

/-- `get_pid_index` finds the last process with the pid, -/
theorem getPidIndex_eq_some : P.getPidIndex id = some i ↔
    i < P.nproc ∧ (P.proc i).pid = id ∧ ∀ j, i < j → j < P.nproc → (P.proc j).pid ≠ id :=
  pidIndexBelow_eq_some

theorem pidIndexBelow_isSome (hi : i < n) :
    (P.pidIndexBelow (P.proc i).pid n).isSome := by
  induction n with
  | zero => exact absurd hi (Nat.not_lt_zero i)
  | succ n ih =>
      rw [pidIndexBelow]
      split
      · rfl
      · next hne =>
        rcases Nat.lt_succ_iff_lt_or_eq.mp hi with hlt | rfl
        · exact ih hlt
        · exact absurd rfl hne

/-- and there is one when a process has it. -/
theorem exists_getPidIndex (hi : i < P.nproc) :
    ∃ k, P.getPidIndex (P.proc i).pid = some k ∧ k < P.nproc ∧ (P.proc k).pid = (P.proc i).pid := by
  obtain ⟨k, hk⟩ := Option.isSome_iff_exists.mp (pidIndexBelow_isSome hi)
  have hspec := getPidIndex_eq_some.mp hk
  exact ⟨k, hk, hspec.1, hspec.2.1⟩

/-- The parent of a process, by the pids. -/
def parentOf (P : Table) (j : Nat) : Option Nat :=
  match P.getPidIndex (P.proc j).ppid with
  | none => none
  | some p => if p ≠ j then some p else none

/-- The children of a process among the first `n`. -/
def kidsBelow (P : Table) (n i : Nat) : List Nat :=
  (List.range n).filter fun j => P.parentOf j = some i

/-- The children of a process, in the order of the table. -/
def kids (P : Table) (i : Nat) : List Nat := P.kidsBelow P.nproc i

/-- The process `p` is the parent of the process `j`. -/
def Parent (P : Table) : Nat → Nat → Prop := Trees.Child P.kids

theorem mem_kidsBelow : j ∈ P.kidsBelow n i ↔ j < n ∧ P.parentOf j = some i := by
  simp [kidsBelow]

theorem parent_iff : P.Parent i j ↔ j < P.nproc ∧ P.parentOf j = some i := mem_kidsBelow

theorem parent_leftUnique : Relator.LeftUnique P.Parent := by
  intro p q j hp hq
  exact Option.some.inj ((parent_iff.mp hp).2.symm.trans (parent_iff.mp hq).2)

theorem kidsBelow_succ : P.kidsBelow (n + 1) i =
    P.kidsBelow n i ++ if P.parentOf n = some i then [n] else [] := by
  rw [kidsBelow, List.range_succ, List.filter_append, ← kidsBelow]
  by_cases h : P.parentOf n = some i <;> simp [h]

theorem nodup_kidsBelow : (P.kidsBelow n i).Nodup := List.nodup_range.filter _

theorem nodup_kids : (P.kids i).Nodup := nodup_kidsBelow

theorem parentOf_lt (h : P.parentOf j = some p) : p < P.nproc ∧ p ≠ j := by
  rw [parentOf] at h
  split at h
  · exact absurd h (by simp)
  · next q hq =>
    split at h
    · next hne =>
      obtain rfl := Option.some.inj h
      exact ⟨(getPidIndex_eq_some.mp hq).1, hne⟩
    · exact absurd h (by simp)

theorem parent_lt (h : P.Parent p j) : p < P.nproc ∧ j < P.nproc :=
  ⟨(parentOf_lt (parent_iff.mp h).2).1, (parent_iff.mp h).1⟩

/-! ### Writing to the table -/

/-- The `sister`s. -/
def next (P : Table) (j : Nat) : Option Nat := (P.proc j).sister

section
variable (P i v)

@[simp] theorem setParent_nproc : (P.setParent i v).nproc = P.nproc := rfl
@[simp] theorem setChild_nproc : (P.setChild i v).nproc = P.nproc := rfl
@[simp] theorem setSister_nproc : (P.setSister i v).nproc = P.nproc := rfl
@[simp] theorem setPrint_nproc : (P.setPrint i).nproc = P.nproc := rfl

theorem set_proc (p : Proc) : (P.set i p).proc j = if j = i then p else P.proc j := by
  by_cases h : j = i
  · subst h
    simp [set]
  · simp [set, h]

@[simp] theorem setParent_bare : ((P.setParent i v).proc j).bare = (P.proc j).bare := by
  rw [setParent, set_proc]
  split
  · next h => rw [h]; rfl
  · rfl

@[simp] theorem setChild_bare : ((P.setChild i v).proc j).bare = (P.proc j).bare := by
  rw [setChild, set_proc]
  split
  · next h => rw [h]; rfl
  · rfl

@[simp] theorem setSister_bare : ((P.setSister i v).proc j).bare = (P.proc j).bare := by
  rw [setSister, set_proc]
  split
  · next h => rw [h]; rfl
  · rfl

@[simp] theorem setPrint_bare : ((P.setPrint i).proc j).bare = (P.proc j).bare := by
  rw [setPrint, set_proc]
  split
  · next h => rw [h]; rfl
  · rfl

theorem setParent_proc : (P.setParent i v).proc j =
    { P.proc j with parent := if j = i then v else (P.proc j).parent } := by
  rw [setParent, set_proc]
  split
  · next h => rw [h]
  · rfl

theorem setChild_proc : (P.setChild i v).proc j =
    { P.proc j with child := if j = i then v else (P.proc j).child } := by
  rw [setChild, set_proc]
  split
  · next h => rw [h]
  · rfl

theorem setSister_proc : (P.setSister i v).proc j =
    { P.proc j with sister := if j = i then v else (P.proc j).sister } := by
  rw [setSister, set_proc]
  split
  · next h => rw [h]
  · rfl

theorem setPrint_proc : (P.setPrint i).proc j =
    { P.proc j with print := if j = i then true else (P.proc j).print } := by
  rw [setPrint, set_proc]
  split
  · next h => rw [h]
  · rfl

@[simp] theorem setParent_next : (P.setParent i v).next = P.next := by
  funext j
  rw [next, setParent_proc]
  rfl

@[simp] theorem setChild_next : (P.setChild i v).next = P.next := by
  funext j
  rw [next, setChild_proc]
  rfl

@[simp] theorem setPrint_next : (P.setPrint i).next = P.next := by
  funext j
  rw [next, setPrint_proc]
  rfl

@[simp] theorem setSister_next : (P.setSister i v).next = Function.update P.next i v := by
  funext j
  rw [next, setSister_proc, Function.update_apply]
  rfl

end

/-- The tables have the same processes, apart from links and marks. -/
structure Same (P mem : Table) : Prop where
  nproc : mem.nproc = P.nproc
  bare : ∀ i, (mem.proc i).bare = (P.proc i).bare

namespace Same

variable (h : Same P mem)
include h

theorem pid : (mem.proc i).pid = (P.proc i).pid := by
  have hpid := congrArg Proc.pid (h.bare i)
  exact hpid

theorem ppid : (mem.proc i).ppid = (P.proc i).ppid := by
  have hppid := congrArg Proc.ppid (h.bare i)
  exact hppid

theorem getPidIndex : mem.getPidIndex id = P.getPidIndex id := by
  rw [Table.getPidIndex, Table.getPidIndex, h.nproc]
  generalize P.nproc = n
  induction n with
  | zero => rfl
  | succ n ih => rw [pidIndexBelow, pidIndexBelow, h.pid, ih]

end Same

/-! ### The loop -/

/-- A table as it is when it has just been read. -/
def Fresh (P : Table) : Prop :=
  ∀ i, i < P.nproc → (P.proc i).parent = none ∧ (P.proc i).child = none ∧
    (P.proc i).sister = none ∧ (P.proc i).print = false

theorem fresh_ofEntries {l : List Entry} : (ofEntries l).Fresh := fun _ _ => ⟨rfl, rfl, rfl, rfl⟩

/-- The links when the loop has been at the first `n` processes. -/
structure Built (P : Table) (n : Nat) (mem : Table) : Prop where
  same : Same P mem
  print : ∀ i, (mem.proc i).print = (P.proc i).print
  parent : ∀ j, j < P.nproc → (mem.proc j).parent = if j < n then P.parentOf j else none
  child : ∀ i, i < P.nproc → (mem.proc i).child = (P.kidsBelow n i).head?
  linked : ∀ i, Linked mem.next (P.kidsBelow n i).head? (P.kidsBelow n i) none
  free : ∀ j, j < P.nproc → (∀ i, j ∉ P.kidsBelow n i) → mem.next j = none

theorem Fresh.built (h : P.Fresh) : P.Built 0 P := by
  constructor
  case same => exact ⟨rfl, fun _ => rfl⟩
  case print => exact fun _ => rfl
  case parent => exact fun j hj => (h j hj).1
  case child => exact fun i hi => (h i hi).2.1
  case linked => exact fun _ => rfl
  case free => exact fun j hj _ => (h j hj).2.2.1

/-- The search for the last sister goes along a chain to its end. -/
theorem lastSister_returns {l : List Nat} {t x : Nat}
    (h : Linked mem.next (some x) (l ++ [t]) none) :
    Returns (fun fuel => mem.lastSister fuel x) t := by
  induction l generalizing x with
  | nil =>
      obtain ⟨hxt, hnull⟩ := h
      obtain rfl := Option.some.inj hxt
      have hnull : (mem.proc x).sister = none := hnull
      refine Returns.succ ?_
      simp only [lastSister, hnull]
      exact .const
  | cons a l ih =>
      obtain ⟨hxa, hrest⟩ := h
      obtain rfl := Option.some.inj hxa
      obtain ⟨y, hy⟩ : ∃ y, mem.next x = some y := by
        cases l with
        | nil => exact ⟨t, hrest.1⟩
        | cons b l => exact ⟨b, hrest.1⟩
      rw [hy] at hrest
      have hy : (mem.proc x).sister = some y := hy
      refine Returns.succ ?_
      simp only [lastSister, hy]
      exact ih hrest

/-- The process itself is in no chain before its turn. -/
theorem not_mem_kidsBelow : n ∉ P.kidsBelow n i := fun hm =>
  absurd (mem_kidsBelow.mp hm).1 (Nat.lt_irrefl n)

theorem kidsBelow_succ_of_parent (hn : P.parentOf n = some p) (i : Nat) :
    P.kidsBelow (n + 1) i = if i = p then P.kidsBelow n p ++ [n] else P.kidsBelow n i := by
  rw [kidsBelow_succ, hn]
  by_cases hi : i = p
  · simp [hi]
  · have hne : ¬ p = i := fun heq => hi heq.symm
    simp [hi, hne]

/-- In the chains there are processes that have had their turn. -/
theorem kidsBelow_disjoint {q : Nat} (hi : j ∈ P.kidsBelow n i) (hq : j ∈ P.kidsBelow n q) :
    i = q :=
  Option.some.inj ((mem_kidsBelow.mp hi).2.symm.trans (mem_kidsBelow.mp hq).2)

theorem steady_lastSister {x : Nat} : Steady fun fuel => mem.lastSister fuel x := by
  intro fuel t h
  induction fuel generalizing x with
  | zero => exact absurd h (by simp [lastSister])
  | succ fuel ih =>
      simp only [lastSister] at h ⊢
      cases hx : (mem.proc x).sister with
      | none => simpa [hx] using h
      | some y =>
          simp only [hx] at h
          exact ih h

theorem steady_adopt : Steady fun fuel => adopt fuel mem n := by
  intro fuel t h
  simp only [adopt] at h ⊢
  cases hget : mem.getPidIndex (mem.proc n).ppid with
  | none => simpa [hget] using h
  | some p =>
      simp only [hget] at h ⊢
      split at h
      · next hne =>
        rw [if_pos hne]
        split at h
        · next hchild => simpa [hchild] using h
        · next c hchild =>
          obtain ⟨s, hs, rfl⟩ := Option.map_eq_some_iff.mp h
          simp only [steady_lastSister fuel s hs, Option.map_some]
      · next hne => rwa [if_neg hne]

namespace Built

variable (h : P.Built n mem)
include h

/-- A process that has no parent is left alone. -/
theorem skip (hn : P.parentOf n = none) : P.Built (n + 1) mem := by
  have hkids : ∀ i, P.kidsBelow (n + 1) i = P.kidsBelow n i := by
    intro i
    simp [kidsBelow_succ, hn]
  refine { h with parent := ?_, child := ?_, linked := ?_, free := ?_ }
  · intro j hj
    rw [h.parent j hj]
    rcases Nat.lt_trichotomy j n with hlt | rfl | hlt
    · rw [if_pos hlt, if_pos (by omega)]
    · rw [if_neg (by omega), if_pos (by omega), hn]
    · rw [if_neg (by omega), if_neg (by omega)]
  · intro i hi
    rw [hkids, h.child i hi]
  · intro i
    rw [hkids]
    exact h.linked i
  · intro j hj hfree
    exact h.free j hj fun i => hkids i ▸ hfree i

theorem parent_succ (hn : P.parentOf n = some p) (hj : j < P.nproc) :
    ((mem.setParent n (some p)).proc j).parent =
      if j < n + 1 then P.parentOf j else none := by
  rw [setParent_proc]
  rcases Nat.lt_trichotomy j n with hlt | rfl | hlt
  · rw [if_neg (by omega), h.parent j hj, if_pos hlt, if_pos (by omega)]
  · rw [if_pos rfl, if_pos (by omega), hn]
  · rw [if_neg (by omega), h.parent j hj, if_neg (by omega), if_neg (by omega)]

theorem child_setParent (hi : i < P.nproc) :
    ((mem.setParent n (some p)).proc i).child = (P.kidsBelow n i).head? := by
  rw [setParent_proc]
  exact h.child i hi

/-- A first child goes to the `child` of its parent, -/
theorem first (hn : P.parentOf n = some p) (hlt : n < P.nproc) (hC : P.kidsBelow n p = []) :
    P.Built (n + 1) ((mem.setParent n (some p)).setChild p (some n)) := by
  have hkids := kidsBelow_succ_of_parent hn
  constructor
  case same => exact ⟨h.same.nproc, fun j => by simp [h.same.bare]⟩
  case print =>
    intro j
    rw [setChild_proc, setParent_proc]
    exact h.print j
  case parent =>
    intro j hj
    rw [setChild_proc]
    exact h.parent_succ hn hj
  case child =>
    intro j hj
    rw [setChild_proc, hkids, h.child_setParent hj]
    by_cases hjp : j = p
    · simp [hjp, hC]
    · simp [hjp]
  case linked =>
    intro j
    rw [hkids, setChild_next, setParent_next]
    by_cases hjp : j = p
    · have hnull : mem.next n = none := h.free n hlt fun _ => not_mem_kidsBelow
      simp [hjp, hC, hnull]
    · rw [if_neg hjp]
      exact h.linked j
  case free =>
    intro j hj hfree
    rw [setChild_next, setParent_next]
    refine h.free j hj fun q hq => hfree q ?_
    exact mem_kidsBelow.mpr ⟨by have := (mem_kidsBelow.mp hq).1; omega, (mem_kidsBelow.mp hq).2⟩

/-- and a later one to the `sister` of the last. -/
theorem last {l : List Nat} {t : Nat} (hn : P.parentOf n = some p) (hlt : n < P.nproc)
    (hC : P.kidsBelow n p = l ++ [t]) :
    P.Built (n + 1) ((mem.setParent n (some p)).setSister t (some n)) := by
  have hkids := kidsBelow_succ_of_parent hn
  have ht : t ∈ P.kidsBelow n p := by simp [hC]
  constructor
  case same => exact ⟨h.same.nproc, fun j => by simp [h.same.bare]⟩
  case print =>
    intro j
    rw [setSister_proc, setParent_proc]
    exact h.print j
  case parent =>
    intro j hj
    rw [setSister_proc]
    exact h.parent_succ hn hj
  case child =>
    intro j hj
    rw [setSister_proc, hkids]
    refine (h.child_setParent hj).trans ?_
    by_cases hjp : j = p
    · subst hjp
      rw [if_pos rfl, hC]
      cases l <;> rfl
    · rw [if_neg hjp]
  case linked =>
    intro j
    rw [hkids, setSister_next, setParent_next]
    by_cases hjp : j = p
    · subst hjp
      have hlinked := h.linked j
      have hnull : mem.next n = none := h.free n hlt fun _ => not_mem_kidsBelow
      have hnodup : (l ++ [t, n]).Nodup := by
        have := nodup_kidsBelow (P := P) (n := n + 1) (i := j)
        rw [hkids, if_pos rfl, hC] at this
        simpa using this
      have hhead : (l ++ [t, n]).head? = (l ++ [t]).head? := by cases l <;> rfl
      rw [if_pos rfl, hC, List.append_assoc, List.singleton_append, hhead]
      rw [hC] at hlinked
      exact hlinked.snoc hnodup hnull
    · rw [if_neg hjp]
      have hne : t ∉ P.kidsBelow n j := fun ht' => hjp (kidsBelow_disjoint ht' ht)
      exact (linked_update hne).mpr (h.linked j)
  case free =>
    intro j hj hfree
    have hmono : ∀ q, j ∈ P.kidsBelow n q → False := by
      intro q hq
      refine hfree q (mem_kidsBelow.mpr ⟨?_, (mem_kidsBelow.mp hq).2⟩)
      have := (mem_kidsBelow.mp hq).1
      omega
    have hne : j ≠ t := by
      intro heq
      subst heq
      exact hmono p ht
    rw [setSister_next, setParent_next, Function.update_of_ne hne]
    exact h.free j hj hmono

/-- A round of the loop. -/
theorem adopt (hlt : n < P.nproc) :
    ∃ mem', Returns (fun fuel => Table.adopt fuel mem n) mem' ∧ P.Built (n + 1) mem' := by
  have hfind : mem.getPidIndex (mem.proc n).ppid = P.getPidIndex (P.proc n).ppid := by
    rw [h.same.getPidIndex, h.same.ppid]
  simp only [Table.adopt, hfind]
  cases hget : P.getPidIndex (P.proc n).ppid with
  | none => exact ⟨mem, .const, h.skip (by simp [parentOf, hget])⟩
  | some p =>
      by_cases hne : p = n
      · refine ⟨mem, ?_, h.skip (by simp [parentOf, hget, hne])⟩
        simp only [hne, ne_eq, not_true_eq_false, if_false]
        exact .const
      · have hn : P.parentOf n = some p := by simp [parentOf, hget, hne]
        have hchild := h.child_setParent (p := p) (parentOf_lt hn).1
        simp only [ne_eq, hne, not_false_eq_true, if_true, hchild]
        rcases List.eq_nil_or_concat' (P.kidsBelow n p) with hC | ⟨l, t, hC⟩
        · refine ⟨_, ?_, h.first hn hlt hC⟩
          simp only [hC, List.head?_nil]
          exact .const
        · refine ⟨_, ?_, h.last hn hlt hC⟩
          have hlinked := h.linked p
          obtain ⟨c, hc⟩ : ∃ c, (l ++ [t]).head? = some c := by
            cases l with
            | nil => exact ⟨t, rfl⟩
            | cons c l => exact ⟨c, rfl⟩
          rw [hC, hc] at hlinked
          rw [← setParent_next mem n (some p)] at hlinked
          simp only [hC, hc]
          exact (lastSister_returns hlinked).map

end Built

/-- After the loop the links are those that the pids describe. -/
structure Forest (P mem : Table) : Prop where
  same : Same P mem
  parent : ∀ j, j < P.nproc → (mem.proc j).parent = P.parentOf j
  child : ∀ i, i < P.nproc → (mem.proc i).child = (P.kids i).head?
  linked : ∀ i, Linked mem.next (P.kids i).head? (P.kids i) none
  free : ∀ j, j < P.nproc → P.parentOf j = none → mem.next j = none

theorem Built.forest (h : P.Built P.nproc mem) : P.Forest mem := by
  refine { h with parent := ?_, child := h.child, linked := h.linked, free := ?_ }
  · intro j hj
    rw [h.parent j hj, if_pos hj]
  · intro j hj hnone
    refine h.free j hj fun i hi => ?_
    have := (mem_kidsBelow.mp hi).2
    rw [hnone] at this
    exact absurd this (by simp)

/-- `MakeTree` returns for every table, and links each process to its parent and to the next
child of its parent. -/
theorem makeTree_returns (h : P.Fresh) :
    ∃ mem, Returns (fun fuel => P.makeTree fuel) mem ∧ P.Forest mem ∧
      ∀ i, (mem.proc i).print = (P.proc i).print := by
  obtain ⟨mem, hmem, hbuilt⟩ := Returns.loop (f := Table.adopt) (n := P.nproc)
    (I := fun n mem => P.Built n mem) h.built fun k mem hk hI => hI.adopt hk
  exact ⟨mem, hmem, hbuilt.forest, hbuilt.print⟩

/-- With any fuel, it has done this if it has returned. -/
theorem forest_of_makeTree {fuel : Nat} (h : P.Fresh) (hs : P.makeTree fuel = some mem) :
    P.Forest mem := by
  have hbuilt : P.Built P.nproc mem := by
    refine loop_partial (I := fun n mem => P.Built n mem) h.built hs ?_
    intro k t t' hk hI hround
    obtain ⟨u, hu, hI'⟩ := hI.adopt hk
    obtain rfl := hu.eq_of_steady steady_adopt hround
    exact hI'
  exact hbuilt.forest

theorem parentOf_eq_some : P.parentOf j = some p ↔
    p ≠ j ∧ p < P.nproc ∧ (P.proc p).pid = (P.proc j).ppid ∧
      ∀ i, p < i → i < P.nproc → (P.proc i).pid ≠ (P.proc j).ppid := by
  rw [parentOf, ← getPidIndex_eq_some]
  cases hget : P.getPidIndex (P.proc j).ppid with
  | none => simp
  | some q =>
      by_cases hq : q = j
      · subst hq
        simpa using fun hne heq => hne heq.symm
      · simp only [ne_eq, hq, not_false_eq_true, if_true, Option.some.injEq]
        refine ⟨?_, fun h => h.2⟩
        intro heq
        subst heq
        exact ⟨hq, rfl⟩

/-- The loop of `MakeTree` returns for every list of processes. The parent of a process is the
last one with its `ppid` for a `pid`, if that is not the process itself, and the chain that
begins in the `child` of a process has those whose parent it is, in the order of the table. -/
theorem makeTree_links (l : List Entry) :
    ∃ mem, Returns (fun fuel => (ofEntries l).makeTree fuel) mem ∧ mem.nproc = l.length ∧
      ∀ i, i < l.length → (mem.proc i).bare = ((ofEntries l).proc i).bare ∧
        (∀ p, (mem.proc i).parent = some p ↔ p ≠ i ∧ p < l.length ∧
          (mem.proc p).pid = (mem.proc i).ppid ∧
            ∀ q, p < q → q < l.length → (mem.proc q).pid ≠ (mem.proc i).ppid) ∧
        ∃ kids, Linked mem.next (mem.proc i).child kids none ∧ kids.Pairwise (· < ·) ∧
          ∀ j, j ∈ kids ↔ j < l.length ∧ (mem.proc j).parent = some i := by
  obtain ⟨mem, hmem, hF, -⟩ := makeTree_returns (fresh_ofEntries (l := l))
  refine ⟨mem, hmem, hF.same.nproc, fun i hi => ⟨hF.same.bare i, fun p => ?_, ?_⟩⟩
  · rw [hF.parent i hi, parentOf_eq_some]
    simp only [hF.same.pid, hF.same.ppid]
    exact Iff.rfl
  · refine ⟨(ofEntries l).kids i, ?_, List.pairwise_lt_range.filter _, fun j => ?_⟩
    · rw [hF.child i hi]
      exact hF.linked i
    · rw [kids, mem_kidsBelow]
      exact and_congr_right fun hj => by rw [hF.parent j hj]

end Table

end OsLabs.Pstree
