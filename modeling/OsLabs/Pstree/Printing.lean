import OsLabs.Pstree.Dropping

/-!
# OsLabs.Pstree.Printing

What the program of `tree/pstree_source_code.c` prints: the forest below the processes it
begins with, as far as `maxLdepth` levels, with a line for each process (`sketch`). It is
the depth that makes `PrintTree` return; there may be a cycle among the processes.
-/

namespace OsLabs.Pstree

/-- The lines of a forest: each process with what is in front of it. -/
def sketch (C : TreeChars) (columns : Nat) (P : Table) (kids : Nat → List Nat) :
    Text → Trees Nat → List Text
  | _, .nil => []
  | head, .tree i below sisters =>
      let sister := decide (sisters ≠ .nil)
      (P.proc i).line C columns head sister (decide (kids i ≠ [])) ::
        (sketch C columns P kids (nhead C head sister) below ++
          sketch C columns P kids head sisters)

theorem Output.put_nil {out : Output} : out.put [] = out := by
  rw [put, List.append_nil]

namespace Table

variable {P mem t : Table} {o : Options} {i n cols : Nat} {l : List Nat} {out : Output}
variable {head : Text}

open scoped Classical in
/-- The children of a process that print. -/
noncomputable def shown (o : Options) (myPid : Int) (P : Table) (i : Nat) : List Nat :=
  (P.kids i).filter fun j => j ∈ markedBelow o myPid P P.nproc

section
variable {C : TreeChars} {kids : Nat → List Nat} {c : Nat}

theorem unfold_eq_nil : Trees.unfold kids (n + 1) l = .nil ↔ l = [] := by
  cases l <;> simp [Trees.unfold, Trees.ofList]

/-- The lines of a chain are those of its first tree and of the rest. -/
theorem sketch_unfold_cons : sketch C cols P kids head (Trees.unfold kids (n + 1) (c :: l)) =
    (P.proc c).line C cols head (decide (l ≠ [])) (decide (kids c ≠ [])) ::
      (sketch C cols P kids (nhead C head (decide (l ≠ []))) (Trees.unfold kids n (kids c)) ++
        sketch C cols P kids head (Trees.unfold kids (n + 1) l)) := by
  have hnil : (Trees.ofList (fun a => Trees.unfold kids n (kids a)) l ≠ .nil) ↔ l ≠ [] :=
    not_congr unfold_eq_nil
  rw [Trees.unfold, Trees.ofList, sketch]
  simp only [hnil]
  rfl

/-- In the beginning nothing is in front of a process, and its sisters do not matter. -/
theorem sketch_root : sketch C cols P kids [] (Trees.unfold kids n l) =
    l.flatMap fun c => sketch C cols P kids [] (Trees.unfold kids n [c]) := by
  cases n with
  | zero =>
      induction l with
      | nil => rfl
      | cons c l ih => rw [List.flatMap_cons, ← ih]; rfl
  | succ n =>
      induction l with
      | nil => rfl
      | cons c l ih =>
          rw [sketch_unfold_cons, List.flatMap_cons, sketch_unfold_cons, ih]
          simp [Trees.unfold, Trees.ofList, sketch, Proc.line, Proc.text, nhead]

end

/-! ### `PrintTree` -/

theorem Shown.lt (hk : i ∈ shownKids P mem n) : i < P.nproc ∧ mem.printing i :=
  ⟨(mem_kidsBelow.mp (List.mem_filter.mp hk).1).1, (List.mem_filter.mp hk).2⟩

theorem Shown.line_eq (h : P.Shown mem t) {sister child : Bool} :
    (t.proc i).line o.chars cols head sister child =
      (P.proc i).line o.chars cols head sister child := by
  have hbare : ∀ p q : Proc, p.bare = q.bare →
      p.line o.chars cols head sister child = q.line o.chars cols head sister child := by
    intro p q heq
    cases p
    cases q
    simp only [Proc.bare, Proc.mk.injEq] at heq
    simp [Proc.line, Proc.text, Proc.thread, heq]
  exact hbare _ _ (h.bare i)

/-- `PrintTree` on a process, when the chain of its children is printed. -/
theorem printTree_succ {t : Table} {idx : Nat} {lines : List Text} (cols : Nat) (head : Text)
    (hprint : (t.proc idx).print = true) (hout : out.atLdepth < o.maxLdepth)
    (hkids : ∀ out' : Output, out'.atLdepth = out.atLdepth + 1 →
      Returns (fun fuel => t.printSisters o cols fuel (t.proc idx).child
        (nhead o.chars head (t.proc idx).sister.isSome) out')
        (out'.put lines)) :
    Returns (fun fuel => t.printTree o cols fuel idx head out)
      (out.put ((t.proc idx).line o.chars cols head (t.proc idx).sister.isSome
        (t.proc idx).child.isSome :: lines)) := by
  refine Returns.succ ?_
  have hne : out.atLdepth ≠ o.maxLdepth := Nat.ne_of_lt hout
  simp only [printTree, hprint, hne, Bool.true_eq_false, and_false, if_false]
  have hret := (hkids (({ out with atLdepth := out.atLdepth + 1 } : Output).put
    [(t.proc idx).line o.chars cols head (t.proc idx).sister.isSome
      (t.proc idx).child.isSome]) rfl).map
    (g := fun out : Output => { out with atLdepth := out.atLdepth - 1 })
  simpa [Output.put] using hret

/-- Where the depth is reached, nothing is printed. -/
theorem printTree_depth {idx : Nat} (hout : out.atLdepth = o.maxLdepth) :
    Returns (fun fuel => t.printTree o cols fuel idx head out) out := by
  refine Returns.succ ?_
  simp only [printTree, hout, if_true, ite_self]
  exact .const

section
variable (h : P.Shown mem t)
include h

theorem Shown.child_isSome (hi : i < P.nproc) (hp : mem.printing i) :
    (t.proc i).child.isSome = decide (shownKids P mem i ≠ []) := by
  rw [h.child i hi hp]
  cases shownKids P mem i <;> simp

theorem Shown.print (hp : mem.printing i) : (t.proc i).print = true :=
  (congrFun h.printing i).trans hp

/-- The chain of some sisters, with all that is below them. -/
theorem Shown.printSisters_returns (hlinked : Linked t.next l.head? l none)
    (hl : ∀ c ∈ l, c < P.nproc ∧ mem.printing c) (hout : out.atLdepth + n = o.maxLdepth) :
    Returns (fun fuel => t.printSisters o cols fuel l.head? head out)
      (out.put (sketch o.chars cols P (shownKids P mem) head
        (Trees.unfold (shownKids P mem) n l))) := by
  -- the levels that are left, and on each of them the sisters
  induction n generalizing l head out with
  | zero =>
      have hnil : sketch o.chars cols P (shownKids P mem) head
          (Trees.unfold (shownKids P mem) 0 l) = [] := rfl
      rw [hnil, Output.put_nil]
      clear hnil
      induction l with
      | nil =>
          refine Returns.succ ?_
          simp only [List.head?_nil, printSisters]
          exact .const
      | cons c l ihl =>
          refine Returns.succ ?_
          have hsister : (t.proc c).sister = l.head? := hlinked.2.eq_head?
          simp only [List.head?_cons, printSisters, hsister]
          exact (printTree_depth hout).bind
            (g := fun fuel out => t.printSisters o cols fuel l.head? head out)
            (ihl (by rw [← hlinked.2.eq_head?]; exact hlinked.2)
              fun d hd => hl d (List.mem_cons_of_mem c hd))
  | succ n ihn =>
      induction l generalizing out with
      | nil =>
          refine Returns.succ ?_
          simp only [List.head?_nil, printSisters, Trees.unfold, Trees.ofList, sketch,
            Output.put_nil]
          exact .const
      | cons c l ihl =>
          obtain ⟨hc, hp⟩ := hl c List.mem_cons_self
          have hsister : (t.proc c).sister = l.head? := hlinked.2.eq_head?
          have hsome : (t.proc c).sister.isSome = decide (l ≠ []) := by
            rw [hsister]
            cases l <;> simp
          have hlt : out.atLdepth < o.maxLdepth := by omega
          have hone := printTree_succ cols head (h.print hp) hlt
            fun out' hout' => by
              rw [h.child c hc hp]
              exact ihn (h.linked c) (fun d hd => Shown.lt hd) (by omega)
          rw [h.line_eq, h.child_isSome hc hp, hsome] at hone
          have hrest := @ihl (out.put ((P.proc c).line o.chars cols head (decide (l ≠ []))
              (decide (shownKids P mem c ≠ [])) ::
                sketch o.chars cols P (shownKids P mem) (nhead o.chars head (decide (l ≠ [])))
                  (Trees.unfold (shownKids P mem) n (shownKids P mem c))))
            (by rw [← hlinked.2.eq_head?]; exact hlinked.2)
            (fun d hd => hl d (List.mem_cons_of_mem c hd)) hout
          refine Returns.succ ?_
          simp only [List.head?_cons, printSisters]
          refine hone.bind (g := fun fuel out =>
            t.printSisters o cols fuel (t.proc c).sister head out) ?_
          simp only [sketch_unfold_cons, hsister]
          simpa only [Output.put, List.append_assoc, List.cons_append] using hrest

/-- The tree of a process that prints, from the beginning of a line. -/
theorem Shown.printTree_returns (hi : i < P.nproc) (hp : mem.printing i)
    (hout : out.atLdepth + n = o.maxLdepth) :
    Returns (fun fuel => t.printTree o cols fuel i [] out)
      (out.put (sketch o.chars cols P (shownKids P mem) []
        (Trees.unfold (shownKids P mem) n [i]))) := by
  cases n with
  | zero =>
      have hnil : sketch o.chars cols P (shownKids P mem) []
          (Trees.unfold (shownKids P mem) 0 [i]) = [] := rfl
      rw [hnil, Output.put_nil]
      exact printTree_depth hout
  | succ n =>
      have hlt : out.atLdepth < o.maxLdepth := by omega
      have hone := printTree_succ cols [] (h.print hp) hlt
        fun out' hout' => by
          rw [h.child i hi hp]
          exact h.printSisters_returns (h.linked i) (fun d hd => Shown.lt hd) (n := n) (by omega)
      rw [h.line_eq, h.child_isSome hi hp] at hone
      rw [sketch_unfold_cons]
      simpa [Trees.unfold, Trees.ofList, sketch, Proc.line, Proc.text, nhead] using hone

theorem Shown.printAll_returns (o : Options) (cols : Nat) (hl : ∀ c ∈ l, c < P.nproc)
    (hout : out.atLdepth = 0) :
    Returns (fun fuel => t.printAll o cols fuel l out)
      (out.put (sketch o.chars cols P (shownKids P mem) []
        (Trees.unfold (shownKids P mem) o.maxLdepth (l.filter mem.printing)))) := by
  induction l generalizing out with
  | nil =>
      rw [sketch_root]
      simp only [printAll, List.filter_nil, List.flatMap_nil, Output.put_nil]
      exact .const
  | cons c l ih =>
      have hrest := fun c' hc' => hl c' (List.mem_cons_of_mem c hc')
      cases hp : mem.printing c with
      | false =>
          have hprint : (t.proc c).print = false := (congrFun h.printing c).trans hp
          rw [List.filter_cons_of_neg (by simp [hp])]
          simp only [printAll]
          refine Returns.bind (r := out) (g := fun fuel out => t.printAll o cols fuel l out)
            (Returns.succ ?_) (ih hrest hout)
          simp only [printTree, hprint, and_self, if_true]
          exact .const
      | true =>
          rw [List.filter_cons_of_pos hp, sketch_root, List.flatMap_cons, ← sketch_root]
          simp only [printAll]
          refine (h.printTree_returns (hl c List.mem_cons_self) hp (n := o.maxLdepth)
            (by omega)).bind (g := fun fuel out => t.printAll o cols fuel l out) ?_
          have hnext := @ih (out.put (sketch o.chars cols P (shownKids P mem) []
            (Trees.unfold (shownKids P mem) o.maxLdepth [c]))) hrest hout
          simpa [Output.put] using hnext

end

/-! ### The program -/

section
variable {myPid rootPid : Int} {args : List Int} {window : Nat} {start : List Nat}

theorem Same.starts (h : P.Same mem) : mem.starts rootPid args = P.starts rootPid args := by
  have hget : mem.getPidIndex = P.getPidIndex := funext fun _ => h.getPidIndex
  rw [Table.starts, Table.starts, hget]

theorem starts_lt (hstart : P.starts rootPid args = some start) (hi : i ∈ start) :
    i < P.nproc := by
  rw [starts] at hstart
  split at hstart
  · obtain ⟨idx, hidx, rfl⟩ := Option.map_eq_some_iff.mp hstart
    obtain rfl := List.mem_singleton.mp hi
    exact (getPidIndex_eq_some.mp hidx).1
  · obtain rfl := Option.some.inj hstart
    obtain ⟨id, -, hid⟩ := List.mem_filterMap.mp hi
    exact (getPidIndex_eq_some.mp hid).1

open scoped Classical in
/-- The processes that are to be printed, as a forest, from `start` on. -/
noncomputable def forest (o : Options) (myPid : Int) (P : Table) (start : List Nat) : Trees Nat :=
  Trees.unfold (shown o myPid P) o.maxLdepth
    (start.filter fun i => i ∈ markedBelow o myPid P P.nproc)

/-- The marks, after `MarkProcs`. -/
theorem printing_iff {marked : Table} (hfresh : P.Fresh)
    (hlinks : ∀ i, (mem.proc i).print = (P.proc i).print)
    (hmark : Marked (markedBelow o myPid P P.nproc) mem marked) (hi : i < P.nproc) :
    marked.printing i = true ↔ i ∈ markedBelow o myPid P P.nproc := by
  rw [printing, hmark.print, hlinks, (hfresh i hi).2.2.2]
  simp

theorem nproc_pos_of_root (hroot : P.getRootPid = some rootPid) : P.nproc ≠ 0 := by
  intro h
  simp [getRootPid, h] at hroot

/-- The three passes, and what is left to do. -/
theorem main_passes (hfresh : P.Fresh) (hroot : P.getRootPid = some rootPid) {r : Ending}
    (hterm : Terminates o myPid P)
    (hprint : ∀ mem marked t, (∀ i, (mem.proc i).print = (P.proc i).print) →
      Marked (markedBelow o myPid P P.nproc) mem marked → P.Shown marked t →
      Returns (fun fuel => t.printFrom o window fuel (P.starts rootPid args)) r) :
    Returns (fun fuel => P.main o window myPid args fuel) r := by
  obtain ⟨mem, hmake, hF, hlinks⟩ := makeTree_returns hfresh
  obtain ⟨marked, hmarks, hmark⟩ := markProcs_returns hF hterm
  obtain ⟨t, hdrop, hS⟩ := dropProcs_returns (hmark.forest hF)
  have hsame : P.Same t := ⟨hS.nproc, hS.bare⟩
  simp only [main, nproc_pos_of_root hroot, if_false, hroot]
  apply hmake.bind (g := fun fuel P => (P.markProcs o myPid fuel).bind fun P =>
    (P.dropProcs fuel).bind fun P => P.printFrom o window fuel (P.starts rootPid args))
  apply hmarks.bind (g := fun fuel P => (P.dropProcs fuel).bind fun P =>
    P.printFrom o window fuel (P.starts rootPid args))
  apply hdrop.bind (g := fun fuel P => P.printFrom o window fuel (P.starts rootPid args))
  rw [hsame.starts]
  exact hprint mem marked t hlinks hmark hS

/-- Without a process for the root, the program reads outside the array. -/
theorem main_outside (hfresh : P.Fresh) (hroot : P.getRootPid = some rootPid)
    (hstart : P.starts rootPid args = none) (hterm : Terminates o myPid P) :
    Returns (fun fuel => P.main o window myPid args fuel) .outside := by
  apply main_passes hfresh hroot hterm
  intro mem marked t _ _ _
  rw [hstart]
  exact .const

/-- The program prints the forest. -/
theorem main_returns (hfresh : P.Fresh) (hroot : P.getRootPid = some rootPid)
    (hstart : P.starts rootPid args = some start) (hterm : Terminates o myPid P) :
    Returns (fun fuel => P.main o window myPid args fuel)
      (.printed o.chars.init (sketch o.chars (columns o window) P (shown o myPid P) []
        (P.forest o myPid start))) := by
  classical
  apply main_passes hfresh hroot hterm
  intro mem marked t hprint hmark hS
  have hiff := fun i (hi : i < P.nproc) => printing_iff hfresh hprint hmark hi
  have hkids : shownKids P marked = shown o myPid P := by
    funext i
    rw [shownKids, shown]
    refine List.filter_congr fun j hj => ?_
    rw [Bool.eq_iff_iff, hiff j (mem_kidsBelow.mp hj).1, decide_eq_true_iff]
  have hstarts : start.filter marked.printing =
      start.filter fun i => i ∈ markedBelow o myPid P P.nproc := by
    refine List.filter_congr fun j hj => ?_
    rw [Bool.eq_iff_iff, hiff j (starts_lt hstart hj), decide_eq_true_iff]
  have hzero : ({ atLdepth := 0, lines := [] } : Output).atLdepth = 0 := rfl
  have hprinted := (hS.printAll_returns o (columns o window)
    (fun c (hc : c ∈ start) => starts_lt hstart hc) hzero).map
      (g := fun out => Ending.printed o.chars.init out.lines)
  rw [hkids, hstarts] at hprinted
  simp only [Output.put, List.nil_append] at hprinted
  simp only [hstart, printFrom]
  exact hprinted

/-- Where a process that matches is on a cycle, or below one, the program does not end. -/
theorem main_diverges (hfresh : P.Fresh) (hroot : P.getRootPid = some rootPid)
    (hterm : ¬ Terminates o myPid P) : Diverges fun fuel => P.main o window myPid args fuel := by
  simp only [main, nproc_pos_of_root hroot, if_false, hroot]
  refine Diverges.bind fun fuel mem hmem => ?_
  have hnone := markProcs_diverges (forest_of_makeTree hfresh hmem) hterm fuel
  simp only [hnone, Option.bind_none]

/-- A number that fits in an `int`. -/
def IsInt (n : Int) : Prop := -2147483648 ≤ n ∧ n < 2147483648

instance (n : Int) : Decidable (IsInt n) := inferInstanceAs (Decidable (_ ∧ _))

theorem toInt_eq {n : Int} (h : IsInt n) : toInt n = n := by
  rw [IsInt] at h
  apply Int.bmod_eq_of_le_mul_two <;> omega

/-- What holds of every entry holds of every element. -/
theorem proc_ofEntries {Q : Proc → Prop} {l : List Entry} (hdefault : Q (default : Entry).proc)
    (h : ∀ e ∈ l, Q e.proc) (i : Nat) : Q ((ofEntries l).proc i) := by
  show Q (l.getD i default).proc
  by_cases hi : i < l.length
  · have hget : l.getD i default = l[i] := by simp [hi]
    rw [hget]
    exact h _ (List.getElem_mem hi)
  · have hget : l.getD i default = default := by simp [Nat.le_of_not_lt hi]
    rw [hget]
    exact hdefault

/-- The root is the pid of some process, as an `int`. -/
theorem getRootPid_spec (hroot : P.getRootPid = some rootPid) :
    ∃ i, i < P.nproc ∧ rootPid = toInt (P.proc i).pid := by
  have hfirst : ∀ {test : Nat → Bool} {id : Int},
      ((List.range P.nproc).find? test).map (fun me => toInt (P.proc me).pid) = some id →
      ∃ i, i < P.nproc ∧ id = toInt (P.proc i).pid := by
    intro test id h
    obtain ⟨i, hi, rfl⟩ := Option.map_eq_some_iff.mp h
    exact ⟨i, List.mem_range.mp (List.mem_of_find?_eq_some hi), rfl⟩
  simp only [getRootPid, Option.orElse_eq_orElse, Option.orElse_eq_or,
    Option.or_eq_some_iff] at hroot
  rcases hroot with h | ⟨-, h | ⟨-, h | ⟨-, h⟩⟩⟩
  · exact hfirst h
  · exact hfirst h
  · exact hfirst h
  · exact hfirst h

/-- Where the pids fit in an `int`, there is a process for the root. -/
theorem exists_starts (hroot : P.getRootPid = some rootPid)
    (hpid : ∀ i, IsInt (P.proc i).pid) :
    ∃ start, P.starts rootPid args = some start := by
  obtain ⟨i, hi, rfl⟩ := getRootPid_spec hroot
  obtain ⟨k, hk, -⟩ := exists_getPidIndex hi
  rw [starts, toInt_eq (hpid i), hk]
  split
  · exact ⟨_, rfl⟩
  · exact ⟨_, rfl⟩

/-! ### The three passes and the output -/

/-- The three passes return. Then the chain of a process that prints has its children that
print, in the order of the table. -/
theorem dropProcs_keeps (l : List Entry) (hterm : Terminates o myPid (ofEntries l)) :
    ∃ mem marked t, Returns (fun fuel => (ofEntries l).makeTree fuel) mem ∧
      Returns (fun fuel => mem.markProcs o myPid fuel) marked ∧
      Returns (fun fuel => marked.dropProcs fuel) t ∧
      ∀ i, { t.proc i with child := none, sister := none } =
          { marked.proc i with child := none, sister := none } ∧
        (i < l.length → (t.proc i).print = true → ∃ kids,
          Linked t.next (t.proc i).child kids none ∧ kids.Pairwise (· < ·) ∧
            ∀ j, j ∈ kids ↔ j < l.length ∧ (t.proc j).parent = some i ∧
              (t.proc j).print = true) := by
  obtain ⟨mem, hmake, hF, -⟩ := makeTree_returns (fresh_ofEntries (l := l))
  obtain ⟨marked, hmarks, hmark⟩ := markProcs_returns hF hterm
  have hF' := hmark.forest hF
  obtain ⟨t, hdrop, hS⟩ := dropProcs_returns hF'
  refine ⟨mem, marked, t, hmake, hmarks, hdrop, fun i => ⟨hS.rest i, fun hi hp => ?_⟩⟩
  have hparent : ∀ j, (t.proc j).parent = (marked.proc j).parent := fun j => by
    have heq := congrArg Proc.parent (hS.rest j)
    exact heq
  have hprint : ∀ j, (t.proc j).print = marked.printing j := congrFun hS.printing
  refine ⟨shownKids (ofEntries l) marked i, ?_, ?_, fun j => ?_⟩
  · rw [hS.child i hi ((hprint i).symm.trans hp)]
    exact hS.linked i
  · exact (List.pairwise_lt_range.filter _).filter _
  · rw [shownKids, List.mem_filter, kids, mem_kidsBelow, hparent, hprint, and_assoc]
    refine and_congr_right fun hj => ?_
    rw [hF'.parent j hj]

theorem threeProcs_acyclic : Acyclic (ofEntries threeProcs).Parent := by
  refine acyclic_of_rank (f := id) fun p j h => ?_
  have hlt : ∀ p < 3, ∀ j < 3, j ∈ (ofEntries threeProcs).kids p → p < j := by decide
  exact hlt p (parent_lt h).1 j (parent_lt h).2 h

/-- The passes with the option `-p 20`. -/
theorem dropProcs_keeps_threeProcs :
    ∃ mem marked t, Returns (fun fuel => (ofEntries threeProcs).makeTree fuel) mem ∧
      Returns (fun fuel => mem.markProcs { showall := false, ipid := 20 } 21 fuel) marked ∧
      Returns (fun fuel => marked.dropProcs fuel) t ∧
      ∀ i, { t.proc i with child := none, sister := none } =
          { marked.proc i with child := none, sister := none } ∧
        (i < 3 → (t.proc i).print = true → ∃ kids,
          Linked t.next (t.proc i).child kids none ∧ kids.Pairwise (· < ·) ∧
            ∀ j, j ∈ kids ↔ j < 3 ∧ (t.proc j).parent = some i ∧ (t.proc j).print = true) :=
  dropProcs_keeps threeProcs (.inr fun _ _ _ _ _ => threeProcs_acyclic _)

/-- The program, for any processes and options. It gives up when there is no root. It does not
end when a process that matches is on a cycle of parents, or below one. Else, it reads outside
the array when it is to begin with the root and no process has that pid, cut to an `int`; this
does not happen when the pids fit in an `int`. And else it prints the forest of the processes
that it has marked, down to the given depth. -/
theorem main_prints (o : Options) (window : Nat) (myPid : Int) (args : List Int)
    (l : List Entry) :
    ((ofEntries l).getRootPid = none →
      Returns (fun fuel => (ofEntries l).main o window myPid args fuel) .gaveUp) ∧
    ∀ rootPid, (ofEntries l).getRootPid = some rootPid →
      (¬ Terminates o myPid (ofEntries l) →
        Diverges fun fuel => (ofEntries l).main o window myPid args fuel) ∧
      (Terminates o myPid (ofEntries l) →
        ((ofEntries l).starts rootPid args = none →
          Returns (fun fuel => (ofEntries l).main o window myPid args fuel) .outside) ∧
        ((∀ e ∈ l, IsInt e.pid) → ∃ start, (ofEntries l).starts rootPid args = some start) ∧
        ∀ start, (ofEntries l).starts rootPid args = some start →
          Returns (fun fuel => (ofEntries l).main o window myPid args fuel)
            (.printed o.chars.init (sketch o.chars (columns o window) (ofEntries l)
              (shown o myPid (ofEntries l)) [] ((ofEntries l).forest o myPid start)))) := by
  constructor
  · intro hroot
    simp only [main, hroot, ite_self]
    exact .const
  · intro rootPid hroot
    refine ⟨main_diverges fresh_ofEntries hroot, fun hterm => ⟨fun hstart => ?_, fun hpid => ?_,
      fun start hstart => ?_⟩⟩
    · exact main_outside fresh_ofEntries hroot hstart hterm
    · exact exists_starts hroot (proc_ofEntries (Q := fun p => IsInt p.pid) (by decide) hpid)
    · exact main_returns fresh_ofEntries hroot hstart hterm

end

end Table

end OsLabs.Pstree
