import OsLabs.Pstree.Marking

/-!
# OsLabs.Pstree.Dropping

What `DropProcs` of `tree/pstree_source_code.c` makes of a table whose processes have been
linked and marked: the chain of the children of a process that prints has those of them
that print, in their order.

The pass changes the links while it goes along them. It changes those of processes that
print only, and the searches end at the first of these.
-/

namespace OsLabs.Pstree.Table

variable {P mem mem' : Table} {i j p n : Nat} {l : List Nat}

/-- The process prints. -/
def printing (P : Table) (i : Nat) : Bool := (P.proc i).print

/-- The children that print. -/
def shownKids (P mem : Table) (i : Nat) : List Nat := (P.kids i).filter mem.printing

/-- The table when `DropProcs` has been at the first `n` processes of `mem`. -/
structure Dropped (P mem : Table) (n : Nat) (t : Table) : Prop where
  nproc : t.nproc = mem.nproc
  rest : ∀ i, { t.proc i with child := none, sister := none } =
    { mem.proc i with child := none, sister := none }
  child : ∀ i, i < P.nproc → (t.proc i).child =
    if i < n ∧ mem.printing i then (shownKids P mem i).head? else (P.kids i).head?
  wait : ∀ j, ¬ (j < n ∧ mem.printing j) → t.next j = mem.next j
  next : ∀ p before j after, P.kids p = before ++ j :: after → j < n → mem.printing j →
    t.next j = (after.filter mem.printing).head?

/-- The searches find the first process that prints. -/
theorem firstPrinting_returns {t : Table} {v : Option Nat} (h : Linked mem.next v l none)
    (hprint : t.printing = mem.printing)
    (hnext : ∀ j ∈ l, mem.printing j = false → t.next j = mem.next j) :
    Returns (fun fuel => t.firstPrinting fuel v) (l.filter mem.printing).head? := by
  induction l generalizing v with
  | nil =>
      obtain rfl : v = none := h
      refine Returns.succ ?_
      simp only [firstPrinting]
      exact .const
  | cons a l ih =>
      obtain ⟨rfl, hrest⟩ := h
      have ha : (t.proc a).print = mem.printing a := congrFun hprint a
      refine Returns.succ ?_
      simp only [firstPrinting, ha]
      cases hp : mem.printing a with
      | true =>
          simp only [if_true, List.filter_cons_of_pos hp, List.head?_cons]
          exact .const
      | false =>
          have hsister : (t.proc a).sister = mem.next a := hnext a List.mem_cons_self hp
          rw [List.filter_cons_of_neg (by simp [hp])]
          simp only [Bool.false_eq_true, if_false, hsister]
          exact ih hrest fun j hj => hnext j (List.mem_cons_of_mem a hj)

namespace Dropped

variable {t : Table} (h : Dropped P mem n t)
include h

theorem printing : t.printing = mem.printing := by
  funext i
  have heq := congrArg Proc.print (h.rest i)
  exact heq

/-- A process that does not print is left alone. -/
theorem skip (hn : mem.printing n = false) : Dropped P mem (n + 1) t := by
  have hiff : ∀ i, (i < n + 1 ∧ mem.printing i) ↔ (i < n ∧ mem.printing i) := by
    intro i
    refine ⟨?_, fun h => ⟨by omega, h.2⟩⟩
    intro hi
    rcases Nat.lt_succ_iff_lt_or_eq.mp hi.1 with hlt | rfl
    · exact ⟨hlt, hi.2⟩
    · simp [hn] at hi
  refine { h with child := ?_, wait := ?_, next := ?_ }
  · intro i hi
    simp only [hiff]
    exact h.child i hi
  · intro j hj
    exact h.wait j fun hlt => hj ((hiff j).mpr hlt)
  · intro p before j after heq hj hp
    exact h.next p before j after heq ((hiff j).mp ⟨hj, hp⟩).1 hp

/-- The links of a process that prints. -/
theorem links {c s : Option Nat} (hc : c = (shownKids P mem n).head?)
    (hs : ∀ p before after, P.kids p = before ++ n :: after →
      s = (after.filter mem.printing).head?) (hn : mem.printing n = true) :
    Dropped P mem (n + 1) ((t.setChild n c).setSister n s) := by
  constructor
  case nproc => exact h.nproc
  case rest =>
    intro i
    rw [setSister_proc, setChild_proc]
    exact h.rest i
  case child =>
    intro i hi
    rw [setSister_proc, setChild_proc]
    by_cases hin : i = n
    · subst hin
      simp [hc, hn]
    · have hiff : i < n + 1 ↔ i < n := by omega
      simp only [if_neg hin, hiff]
      exact h.child i hi
  case wait =>
    intro j hj
    have hjn : j ≠ n := by
      intro heq
      subst heq
      exact hj ⟨Nat.lt_succ_self j, hn⟩
    rw [setSister_next, setChild_next, Function.update_of_ne hjn]
    exact h.wait j fun hlt => hj ⟨by omega, hlt.2⟩
  case next =>
    intro p before j after heq hj hp
    rw [setSister_next, setChild_next]
    by_cases hjn : j = n
    · subst hjn
      rw [Function.update_self]
      exact hs p before after heq
    · rw [Function.update_of_ne hjn]
      exact h.next p before j after heq (by omega) hp

/-- A round of the loop. -/
theorem dropProc (hF : P.Forest mem) (hn : n < P.nproc) :
    ∃ t', Returns (fun fuel => Table.dropProc fuel t n) t' ∧ Dropped P mem (n + 1) t' := by
  have hprint : (t.proc n).print = mem.printing n := congrFun h.printing n
  cases hp : mem.printing n with
  | false =>
      refine ⟨t, ?_, h.skip hp⟩
      simp only [Table.dropProc, hprint, hp, Bool.false_eq_true, if_false]
      exact .const
  | true =>
      have hquiet : ∀ j, mem.printing j = false → t.next j = mem.next j := by
        intro j hj
        exact h.wait j fun hlt => by simp [hj] at hlt
      have hchild : (t.proc n).child = (P.kids n).head? := by
        rw [h.child n hn, if_neg]
        exact fun hlt => Nat.lt_irrefl n hlt.1
      have hfirst := firstPrinting_returns (t := t) (hF.linked n) h.printing fun j _ => hquiet j
      -- the sisters that are still to come, or none when there is no parent
      obtain ⟨later, hlater, hall⟩ : ∃ later, Linked mem.next (mem.next n) later none ∧
          ∀ p before after, P.kids p = before ++ n :: after → later = after := by
        cases hpar : P.parentOf n with
        | none =>
            refine ⟨[], hF.free n hn hpar, ?_⟩
            intro p before after heq
            have hkid : n ∈ P.kids p := by simp [heq]
            have := (mem_kidsBelow.mp hkid).2
            rw [hpar] at this
            exact absurd this (by simp)
        | some q =>
            have hkid : n ∈ P.kids q := mem_kidsBelow.mpr ⟨hn, hpar⟩
            obtain ⟨before, after, heq⟩ := List.append_of_mem hkid
            have hlinked := hF.linked q
            rw [heq] at hlinked
            refine ⟨after, hlinked.behind.1, ?_⟩
            intro p before' after' heq'
            have hkid' : n ∈ P.kids p := by simp [heq']
            obtain rfl := kidsBelow_disjoint hkid hkid'
            have hlinked' := hF.linked q
            rw [heq'] at hlinked'
            exact hlinked.behind.1.unique hlinked'.behind.1
      have hsister : ((t.setChild n (shownKids P mem n).head?).proc n).sister = mem.next n := by
        rw [setChild_proc]
        exact h.wait n fun hlt => Nat.lt_irrefl n hlt.1
      have hprint' : (t.setChild n (shownKids P mem n).head?).printing = mem.printing := by
        funext i
        rw [Table.printing, setChild_proc]
        exact congrFun h.printing i
      have hsecond := firstPrinting_returns hlater hprint'
        fun j _ hj => (congrFun (setChild_next t n _) j).trans (hquiet j hj)
      refine ⟨_, ?_, h.links rfl (s := (later.filter mem.printing).head?) ?_ hp⟩
      · simp only [Table.dropProc, hprint, hp, if_true, hchild]
        refine hfirst.bind (g := fun fuel child => ((t.setChild n child).firstPrinting fuel
          ((t.setChild n child).proc n).sister).map fun sister =>
            (t.setChild n child).setSister n sister) ?_
        rw [shownKids] at hsister hsecond
        simp only [hsister]
        exact hsecond.map
      · intro p before after heq
        rw [hall p before after heq]

end Dropped

/-- What `PrintTree` finds: the chain of each process that prints has the children that do. -/
structure Shown (P mem t : Table) : Prop where
  nproc : t.nproc = P.nproc
  bare : ∀ i, (t.proc i).bare = (P.proc i).bare
  rest : ∀ i, { t.proc i with child := none, sister := none } =
    { mem.proc i with child := none, sister := none }
  printing : t.printing = mem.printing
  child : ∀ i, i < P.nproc → mem.printing i → (t.proc i).child = (shownKids P mem i).head?
  linked : ∀ i, Linked t.next (shownKids P mem i).head? (shownKids P mem i) none

/-- `DropProcs` returns, with the chains cut down to what prints. -/
theorem dropProcs_returns (hF : P.Forest mem) :
    ∃ t, Returns (fun fuel => mem.dropProcs fuel) t ∧ P.Shown mem t := by
  have hstart : Dropped P mem 0 mem := by
    constructor
    case nproc => rfl
    case rest => exact fun _ => rfl
    case child =>
      intro i hi
      rw [hF.child i hi, if_neg]
      exact fun hlt => Nat.not_lt_zero i hlt.1
    case wait => exact fun _ _ => rfl
    case next => exact fun _ _ j _ _ hj _ => absurd hj (Nat.not_lt_zero j)
  obtain ⟨t, ht, hd⟩ := Returns.loop (f := Table.dropProc) (n := mem.nproc)
    (I := fun n t => Dropped P mem n t) hstart
    fun k t hk hI => hI.dropProc hF (hF.same.nproc ▸ hk)
  refine ⟨t, ht, ?_⟩
  rw [hF.same.nproc] at hd
  constructor
  case nproc => exact hd.nproc.trans hF.same.nproc
  case bare =>
    intro i
    have heq := congrArg Proc.bare (hd.rest i)
    exact heq.trans (hF.same.bare i)
  case rest => exact hd.rest
  case printing => exact hd.printing
  case child =>
    intro i hi hp
    rw [hd.child i hi, if_pos ⟨hi, hp⟩]
  case linked =>
    intro i
    refine linked_filter fun before j after heq hp => ?_
    have hkid : j ∈ P.kids i := by simp [heq]
    exact hd.next i before j after heq (mem_kidsBelow.mp hkid).1 hp

end OsLabs.Pstree.Table
