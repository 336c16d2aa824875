import OsLabs.Pstree.Linking

/-!
# OsLabs.Pstree.Marking

What `MarkProcs` of `tree/pstree_source_code.c` marks.

A process that matches is marked with all that is above it and all that is below it. The
loop over the parents has no end when there is a cycle at the process or above it, and
that is the only way in which `MarkProcs` does not return: below a process there is no
cycle that it is not on itself.
-/

namespace OsLabs.Pstree.Table

open Relation

variable {P mem mem' : Table} {i j p x : Nat} {S T : Set Nat}

/-! ### Marks -/

/-- The processes of `S` have been marked, and that is all. -/
structure Marked (S : Set Nat) (mem mem' : Table) : Prop where
  nproc : mem'.nproc = mem.nproc
  rest : ∀ i, { mem'.proc i with print := false } = { mem.proc i with print := false }
  print : ∀ i, (mem'.proc i).print = true ↔ (mem.proc i).print = true ∨ i ∈ S

theorem Marked.refl : Marked ∅ mem mem := ⟨rfl, fun _ => rfl, by simp⟩

theorem Marked.trans {mem'' : Table} (h : Marked S mem mem') (h' : Marked T mem' mem'') :
    Marked (S ∪ T) mem mem'' where
  nproc := h'.nproc.trans h.nproc
  rest i := (h'.rest i).trans (h.rest i)
  print i := by rw [h'.print, h.print, Set.mem_union, or_assoc]

theorem Marked.congr (h : Marked S mem mem') (hST : ∀ i, i ∈ S ↔ i ∈ T) : Marked T mem mem' := by
  rwa [← Set.ext hST]

theorem marked_setPrint : Marked {i} mem (mem.setPrint i) := by
  constructor
  case nproc => rfl
  case rest =>
    intro j
    rw [setPrint_proc]
  case print =>
    intro j
    rw [setPrint_proc, Set.mem_singleton_iff]
    by_cases h : j = i <;> simp [h]

namespace Marked

variable (h : Marked S mem mem')
include h

theorem parent : (mem'.proc i).parent = (mem.proc i).parent := by
  have heq := congrArg Proc.parent (h.rest i)
  exact heq

theorem child : (mem'.proc i).child = (mem.proc i).child := by
  have heq := congrArg Proc.child (h.rest i)
  exact heq

theorem next : mem'.next = mem.next := by
  funext i
  have heq := congrArg Proc.sister (h.rest i)
  exact heq

theorem bare : (mem'.proc i).bare = (mem.proc i).bare := by
  have heq := congrArg Proc.bare (h.rest i)
  exact heq

/-- Marks do not touch the links. -/
theorem forest (hF : P.Forest mem) : P.Forest mem' where
  same := ⟨h.nproc.trans hF.same.nproc, fun _ => h.bare.trans (hF.same.bare _)⟩
  parent j hj := h.parent.trans (hF.parent j hj)
  child i hi := h.child.trans (hF.child i hi)
  linked i := h.next ▸ hF.linked i
  free j hj hnone := h.next ▸ hF.free j hj hnone

end Marked

/-! ### Upwards -/

theorem finite_ancestors : (ancestors P.Parent x).Finite := by
  refine (Set.finite_lt_nat P.nproc).subset fun i hi => ?_
  obtain ⟨c, hic, -⟩ := TransGen.head'_iff.mp hi
  exact (parent_lt hic).1

theorem finite_below : {y | TransGen P.Parent x y}.Finite := by
  refine (Set.finite_lt_nat P.nproc).subset fun y hy => ?_
  obtain ⟨c, -, hcy⟩ := TransGen.tail'_iff.mp hy
  exact (parent_lt hcy).2

/-- There is no cycle at the process, or above it. -/
def Rooted (P : Table) (j : Nat) : Prop :=
  ∀ a, ReflTransGen P.Parent a j → ¬ TransGen P.Parent a a

theorem not_parent_of_none (h : P.parentOf x = none) : ¬ P.Parent p x := fun hp => by
  rw [(parent_iff.mp hp).2] at h
  exact absurd h (by simp)

/-- The loop over the parents marks all that is above a process, -/
theorem markParents_returns (hx : x < P.nproc) (hroot : P.Rooted x) (hF : P.Forest mem) :
    ∃ mem', Returns (fun fuel => markParents fuel mem (P.parentOf x)) mem' ∧
      Marked (ancestors P.Parent x) mem mem' := by
  refine above_induction (P := fun x => x < P.nproc → ∀ mem, P.Forest mem →
    ∃ mem', Returns (fun fuel => markParents fuel mem (P.parentOf x)) mem' ∧
      Marked (ancestors P.Parent x) mem mem') finite_ancestors hroot ?_ hx mem hF
  intro x ih hx mem hF
  cases hpar : P.parentOf x with
  | none =>
      refine ⟨mem, Returns.succ ?_, ?_⟩
      · simp only [markParents]
        exact .const
      · rw [ancestors_root fun p => not_parent_of_none hpar]
        exact .refl
  | some p =>
      have hpx : P.Parent p x := parent_iff.mpr ⟨hx, hpar⟩
      have hF' := (marked_setPrint (i := p)).forest hF
      have hp := (parent_lt hpx).1
      obtain ⟨mem', hret, hmark⟩ := ih p hpx hp _ hF'
      refine ⟨mem', Returns.succ ?_, ?_⟩
      · simp only [markParents, hF'.parent p hp]
        exact hret
      · rw [ancestors_child parent_leftUnique hpx, ← Set.singleton_union]
        exact marked_setPrint.trans hmark

/-- and has no end when there is a cycle. -/
theorem markParents_diverges (hcycle : ¬ P.Rooted x) (hF : P.Forest mem) :
    Diverges fun fuel => markParents fuel mem (P.parentOf x) := by
  intro fuel
  induction fuel generalizing x mem with
  | zero => rfl
  | succ fuel ih =>
      rw [Rooted] at hcycle
      push Not at hcycle
      obtain ⟨a, hax, ha⟩ := hcycle
      obtain ⟨p, hap, hpx⟩ := TransGen.tail'_iff.mp (TransGen.trans_left ha hax)
      have hF' := (marked_setPrint (i := p)).forest hF
      have hp : ¬ P.Rooted p := fun hroot => hroot a hap ha
      simp only [(parent_iff.mp hpx).2, markParents, hF'.parent p (parent_lt hpx).1]
      exact ih hp hF'

/-! ### Downwards -/

/-- The process and all that is below it. -/
def descendants (P : Table) (x : Nat) : Set Nat := {y | ReflTransGen P.Parent x y}

theorem markSisters_returns {l : List Nat} (hlinked : Linked mem.next l.head? l none)
    (hF : P.Forest mem)
    (ih : ∀ c ∈ l, ∀ mem, P.Forest mem → ∃ mem',
      Returns (fun fuel => markChildren fuel mem c) mem' ∧ Marked (P.descendants c) mem mem') :
    ∃ mem', Returns (fun fuel => markSisters fuel mem l.head?) mem' ∧
      Marked {y | ∃ c ∈ l, y ∈ P.descendants c} mem mem' := by
  induction l generalizing mem with
  | nil =>
      refine ⟨mem, Returns.succ ?_, ?_⟩
      · simp only [List.head?_nil, markSisters]
        exact .const
      · exact Marked.refl.congr (by simp)
  | cons c l ihl =>
      obtain ⟨t, ht, hmark⟩ := ih c List.mem_cons_self mem hF
      have hnext : mem.next c = l.head? := by
        have := hlinked.2
        cases l with
        | nil => exact this
        | cons d l => exact this.1
      have hlinked' : Linked t.next l.head? l none := by
        rw [hmark.next, ← hnext]
        exact hlinked.2
      obtain ⟨mem', hret, hmark'⟩ := ihl hlinked' (hmark.forest hF)
        fun d hd => ih d (List.mem_cons_of_mem c hd)
      have hsister : (t.proc c).sister = l.head? := (congrFun hmark.next c).trans hnext
      refine ⟨mem', Returns.succ ?_, ?_⟩
      · simp only [List.head?_cons, markSisters]
        refine ht.bind (g := fun fuel P => markSisters fuel P (P.proc c).sister) ?_
        simp only [hsister]
        exact hret
      · exact (hmark.trans hmark').congr (by simp)

/-- `MarkChildren` marks a process and all that is below it. -/
theorem markChildren_returns (hx : x < P.nproc) (hself : ¬ TransGen P.Parent x x)
    (hF : P.Forest mem) :
    ∃ mem', Returns (fun fuel => markChildren fuel mem x) mem' ∧
      Marked (P.descendants x) mem mem' := by
  refine below_induction (P := fun x => x < P.nproc → ∀ mem, P.Forest mem →
    ∃ mem', Returns (fun fuel => markChildren fuel mem x) mem' ∧
      Marked (P.descendants x) mem mem') parent_leftUnique finite_below hself ?_ hx mem hF
  intro x ih hx mem hF
  have hF' := (marked_setPrint (i := x)).forest hF
  obtain ⟨mem', hret, hmark⟩ := markSisters_returns (hF'.linked x) hF'
    fun c hc => ih c hc (parent_lt hc).2
  refine ⟨mem', Returns.succ ?_, ?_⟩
  · simp only [markChildren, hF'.child x hx]
    exact hret
  · refine (marked_setPrint.trans hmark).congr fun y => ?_
    rw [descendants, Set.mem_ofPred_eq, ReflTransGen.cases_head_iff, Set.mem_union,
      Set.mem_singleton_iff, eq_comm]
    exact Iff.rfl

/-! ### The loop -/

/-- `i` is above `j`, or below it, or it is `j` itself. -/
def Relative (P : Table) (j i : Nat) : Prop := i ∈ ancestors P.Parent j ∨ i ∈ P.descendants j

/-- The processes that `MarkProcs` marks when it has been at the first `n`. -/
def markedBelow (o : Options) (myPid : Int) (P : Table) (n : Nat) : Set Nat :=
  {i | ∃ j, j < n ∧ if o.showall then i = j else Matches o myPid (P.proc j) ∧ P.Relative j i}

/-- No process that matches is on a cycle, or below one. -/
def Terminates (o : Options) (myPid : Int) (P : Table) : Prop :=
  o.showall ∨ ∀ j, j < P.nproc → Matches o myPid (P.proc j) → P.Rooted j

section
variable {o : Options} {myPid : Int} {n : Nat}

theorem Same.matches_iff (h : P.Same mem) :
    Matches o myPid (mem.proc j) ↔ Matches o myPid (P.proc j) := by
  have hname : (mem.proc j).name = (P.proc j).name := by
    have heq := congrArg Proc.name (h.bare j)
    exact heq
  have hcmd : (mem.proc j).cmd = (P.proc j).cmd := by
    have heq := congrArg Proc.cmd (h.bare j)
    exact heq
  rw [Matches, Matches, hname, hcmd, h.pid]

/-- A round of the loop: what there is to be marked for one process. -/
theorem markProc_returns (hn : n < P.nproc) (hF : P.Forest mem)
    (hroot : o.showall ∨ (Matches o myPid (P.proc n) → P.Rooted n)) :
    ∃ mem', Returns (fun fuel => markProc o myPid fuel mem n) mem' ∧
      Marked {i | if o.showall then i = n else Matches o myPid (P.proc n) ∧ P.Relative n i}
        mem mem' := by
  by_cases hall : o.showall
  · refine ⟨mem.setPrint n, ?_, marked_setPrint.congr (by simp [hall])⟩
    simp only [markProc, hall, if_true]
    exact .const
  by_cases hmatch : Matches o myPid (P.proc n)
  · have hroot := (hroot.resolve_left hall) hmatch
    obtain ⟨t, ht, hup⟩ := markParents_returns hn hroot hF
    obtain ⟨mem', hret, hdown⟩ := markChildren_returns hn (hroot n .refl) (hup.forest hF)
    refine ⟨mem', ?_, (hup.trans hdown).congr (by simp [hall, hmatch, Relative])⟩
    simp only [markProc, hall, hF.same.matches_iff, hmatch, hF.parent n hn, if_true]
    exact ht.bind (g := fun fuel P => markChildren fuel P n) hret
  · refine ⟨mem, ?_, Marked.refl.congr (by simp [hall, hmatch])⟩
    simp only [markProc, hall, hF.same.matches_iff, hmatch, if_false]
    exact .const

theorem markProc_diverges (hall : ¬ o.showall) (hn : n < P.nproc) (hF : P.Forest mem)
    (hmatch : Matches o myPid (P.proc n)) (hcycle : ¬ P.Rooted n) :
    Diverges fun fuel => markProc o myPid fuel mem n := by
  intro fuel
  have hnone := markParents_diverges hcycle hF fuel
  simp only [markProc, hall, hF.same.matches_iff, hmatch, hF.parent n hn, if_true] at hnone ⊢
  simp [hnone]

theorem markedBelow_succ (i : Nat) : i ∈ markedBelow o myPid P (n + 1) ↔
    i ∈ markedBelow o myPid P n ∨
      if o.showall then i = n else Matches o myPid (P.proc n) ∧ P.Relative n i := by
  simp only [markedBelow, Set.mem_ofPred_eq]
  refine ⟨?_, ?_⟩
  · intro h
    obtain ⟨j, hj, hi⟩ := h
    rcases Nat.lt_succ_iff_lt_or_eq.mp hj with hlt | rfl
    · exact .inl ⟨j, hlt, hi⟩
    · exact .inr hi
  · intro h
    rcases h with ⟨j, hj, hi⟩ | hi
    · exact ⟨j, Nat.lt_succ_of_lt hj, hi⟩
    · exact ⟨n, Nat.lt_succ_self n, hi⟩

/-- What a round has done when it has returned, with any fuel. -/
theorem markParents_some {fuel : Nat} {v : Option Nat}
    (h : markParents fuel mem v = some mem') : ∃ S, Marked S mem mem' := by
  induction fuel generalizing mem v with
  | zero => exact absurd h (by simp [markParents])
  | succ fuel ih =>
      cases v with
      | none =>
          obtain rfl := Option.some.inj h
          exact ⟨∅, .refl⟩
      | some p =>
          obtain ⟨S, hS⟩ := ih h
          exact ⟨{p} ∪ S, marked_setPrint.trans hS⟩

theorem markChildren_some {fuel : Nat} :
    (∀ mem mem' x, markChildren fuel mem x = some mem' → ∃ S, Marked S mem mem') ∧
      ∀ mem mem' v, markSisters fuel mem v = some mem' → ∃ S, Marked S mem mem' := by
  induction fuel with
  | zero => exact ⟨fun _ _ _ h => absurd h (by simp [markChildren]),
      fun _ _ _ h => absurd h (by simp [markSisters])⟩
  | succ fuel ih =>
      refine ⟨?_, ?_⟩
      · intro mem mem' x h
        rw [markChildren] at h
        obtain ⟨S, hS⟩ := ih.2 _ _ _ h
        exact ⟨{x} ∪ S, marked_setPrint.trans hS⟩
      · intro mem mem' v h
        cases v with
        | none =>
            obtain rfl := Option.some.inj h
            exact ⟨∅, .refl⟩
        | some c =>
            obtain ⟨t, ht, h⟩ := Option.bind_eq_some_iff.mp h
            obtain ⟨S, hS⟩ := ih.1 _ _ _ ht
            obtain ⟨T, hT⟩ := ih.2 _ _ _ h
            exact ⟨S ∪ T, hS.trans hT⟩

theorem markProc_some {fuel : Nat} (h : markProc o myPid fuel mem n = some mem') :
    ∃ S, Marked S mem mem' := by
  rw [markProc] at h
  split at h
  · obtain rfl := Option.some.inj h
    exact ⟨{n}, marked_setPrint⟩
  · split at h
    · obtain ⟨t, ht, h⟩ := Option.bind_eq_some_iff.mp h
      obtain ⟨S, hS⟩ := markParents_some ht
      obtain ⟨T, hT⟩ := markChildren_some.1 _ _ _ h
      exact ⟨S ∪ T, hS.trans hT⟩
    · obtain rfl := Option.some.inj h
      exact ⟨∅, .refl⟩

/-- `MarkProcs` marks the processes that match, with their relatives. -/
theorem markProcs_returns (hF : P.Forest mem) (hterm : Terminates o myPid P) :
    ∃ mem', Returns (fun fuel => markProcs o myPid fuel mem) mem' ∧
      Marked (markedBelow o myPid P P.nproc) mem mem' := by
  have hrun : ∃ mem', Returns (fun fuel => loop (markProc o myPid fuel) mem.nproc mem) mem' ∧
      P.Forest mem' ∧ Marked (markedBelow o myPid P mem.nproc) mem mem' := by
    refine Returns.loop (f := markProc o myPid)
      (I := fun n t => P.Forest t ∧ Marked (markedBelow o myPid P n) mem t)
      ⟨hF, Marked.refl.congr (by simp [markedBelow])⟩ ?_
    intro k t hk hI
    rw [hF.same.nproc] at hk
    obtain ⟨t', ht', hmark⟩ := markProc_returns hk hI.1 (hterm.imp_right fun h => h k hk)
    refine ⟨t', ht', hmark.forest hI.1, (hI.2.trans hmark).congr fun i => ?_⟩
    rw [markedBelow_succ]
    exact Iff.rfl
  obtain ⟨mem', hret, -, hmark⟩ := hrun
  rw [hF.same.nproc] at hmark
  exact ⟨mem', hret, hmark⟩

/-- On a cycle, or below one, a process that matches keeps it from returning. -/
theorem markProcs_diverges (hF : P.Forest mem) (hterm : ¬ Terminates o myPid P) :
    Diverges fun fuel => markProcs o myPid fuel mem := by
  rw [Terminates, not_or] at hterm
  push Not at hterm
  obtain ⟨hall, n, hn, hmatch, hcycle⟩ := hterm
  have hlt : n < mem.nproc := hF.same.nproc ▸ hn
  refine Diverges.loop (f := markProc o myPid) (I := fun _ t => P.Forest t) hlt hF ?_ ?_
  · intro fuel k t t' _ hI hround
    obtain ⟨S, hS⟩ := markProc_some hround
    exact hS.forest hI
  · exact fun t hI => markProc_diverges hall hn hI hmatch hcycle

/-- `MarkProcs` returns as long as no process that matches is on a cycle of parents, or below
one. What it has marked then are the processes that match, what is above them and what is
below them. -/
theorem markProcs_marks (o : Options) (myPid : Int) (l : List Entry) :
    ∃ mem, Returns (fun fuel => (ofEntries l).makeTree fuel) mem ∧
      (Terminates o myPid (ofEntries l) → ∃ marked,
        Returns (fun fuel => mem.markProcs o myPid fuel) marked ∧
          ∀ i, { marked.proc i with print := false } = { mem.proc i with print := false } ∧
            (i < l.length → ((marked.proc i).print = true ↔ o.showall ∨
              ∃ j, j < l.length ∧ Matches o myPid (mem.proc j) ∧
                (ReflTransGen (ofEntries l).Parent i j ∨
                  ReflTransGen (ofEntries l).Parent j i)))) ∧
      (¬ Terminates o myPid (ofEntries l) →
        Diverges fun fuel => mem.markProcs o myPid fuel) := by
  obtain ⟨mem, hmem, hF, hprint⟩ := makeTree_returns (fresh_ofEntries (l := l))
  refine ⟨mem, hmem, fun hterm => ?_, fun hterm => markProcs_diverges hF hterm⟩
  obtain ⟨marked, hret, hmark⟩ := markProcs_returns hF hterm
  refine ⟨marked, hret, fun i => ⟨hmark.rest i, fun hi => ?_⟩⟩
  have hstart : (mem.proc i).print = false := (hprint i).trans (fresh_ofEntries i hi).2.2.2
  rw [hmark.print, hstart, markedBelow, Set.mem_ofPred_eq]
  by_cases hall : o.showall
  · have hlt : i < (ofEntries l).nproc := hi
    simpa [hall] using hlt
  · simp only [hall, Bool.false_eq_true, if_false, false_or]
    refine exists_congr fun j => and_congr_right fun hj => ?_
    rw [hF.same.matches_iff, Relative]
    refine and_congr_right fun _ => ⟨?_, ?_⟩
    · intro h
      exact h.imp TransGen.to_reflTransGen id
    · intro h
      rcases h with h | h
      · rcases reflTransGen_iff_eq_or_transGen.mp h with rfl | h
        · exact .inr .refl
        · exact .inl h
      · exact .inr h

end

end OsLabs.Pstree.Table
