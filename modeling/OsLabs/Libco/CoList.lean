import OsLabs.Chain
import OsLabs.Libco.Machine

/-!
# OsLabs.Libco.CoList

`co_list` in memory: what `list_append` and `co_delete` of `libco/co-first.c` do to
the `next` links, and to the list of coroutines these links spell.

The machine of `OsLabs.Libco.Machine` keeps `co_list` as a list; here it is records
and pointers. `coDelete_refines` and `coStart_refines` connect the two: the loops
end, and the links they leave spell the machine's list.

`co_delete` walks the list with a trailing pointer and looks for `node` by name.
What it unlinks is the first coroutine on the list with that name, which is `node`
exactly when no older coroutine that is still on the list has its name
(`co_delete_unlinks_node`). Nothing in `co_start` makes names unique
(`not_co_delete_unlinks_node`). Nor does anything there look at how long a name is: one
that does not fit in its buffer is copied over what is behind it, and no more can be
said of the list.
-/

namespace OsLabs.Libco

/-- The address of `co_list`, the record the list hangs on. -/
def coListHead : Ptr := 0

/-- The fields of the `struct co` records in memory that list code reads. -/
structure Records where
  name : Ptr → String
  next : Ptr → Option Ptr

namespace Records

/-- `temp->next = t`. -/
def setNext (m : Records) (temp : Ptr) (t : Option Ptr) : Records :=
  { m with next := Function.update m.next temp t }

@[simp] theorem setNext_name (m : Records) (temp : Ptr) (t : Option Ptr) :
    (m.setNext temp t).name = m.name := rfl

@[simp] theorem setNext_next (m : Records) (temp : Ptr) (t : Option Ptr) :
    (m.setNext temp t).next = Function.update m.next temp t := rfl

/-- The loop of `list_append`, from `temp`; `none` when `fuel` rounds are not enough. -/
def listEnd (m : Records) : Nat → Ptr → Option Ptr
  | 0, _ => none
  | fuel + 1, temp =>
      match m.next temp with
      | none => some temp
      | some t => m.listEnd fuel t

/-- `list_append(head, new_co)`. -/
def listAppend (m : Records) (fuel : Nat) (head newCo : Ptr) : Option Records :=
  match m.listEnd fuel head with
  | none => none
  | some temp => some (m.setNext temp (some newCo))

/-- `co_start(name, …)`, when its `malloc` returns `co` and the name fits. -/
def coStart (m : Records) (fuel : Nat) (co : Ptr) (name : String) : Option Records :=
  listAppend
    { name := Function.update m.name co name, next := Function.update m.next co none }
    fuel coListHead co

/-- The loop of `co_delete(node)`, from `temp` and `before_temp`. -/
def deleteLoop (m : Records) (node : Ptr) : Nat → Option Ptr → Ptr → Option Records
  | 0, _, _ => none
  | _ + 1, none, _ => some m
  | fuel + 1, some temp, before =>
      if m.name temp = m.name node then
        match m.next temp with
        | none => some (m.setNext before none)
        | some next => some (m.setNext before (some next))
      else
        m.deleteLoop node fuel (m.next temp) temp

/-- `co_delete(node)`. -/
def coDelete (m : Records) (fuel : Nat) (node : Ptr) : Option Records :=
  m.deleteLoop node fuel (m.next coListHead) coListHead

/-- The coroutines linked behind `co_list_head`, in order. -/
def OnList (m : Records) (l : List Ptr) : Prop :=
  Linked m.next (m.next coListHead) l none

/-- The test of `co_delete`. -/
def sameName (m : Records) (node temp : Ptr) : Bool :=
  m.name temp = m.name node

section
variable {m m' : Records} {fuel : Nat} {node co a : Ptr} {name : String} {o : Option Ptr}
  {l pre : List Ptr}

/-- The walk from the head itself. -/
theorem onList_iff : m.OnList l ↔ Linked m.next (some coListHead) (coListHead :: l) none := by
  simp [OnList]

/-- The loop of `list_append` ends at the last cell once it may go round as often as the
list is long. -/
theorem listEnd_eq (h : Linked m.next (some a) (pre ++ [co]) none) (hf : pre.length < fuel) :
    m.listEnd fuel a = some co := by
  induction pre generalizing a fuel with
  | nil =>
      obtain ⟨fuel, rfl⟩ := Nat.exists_eq_add_of_lt hf
      obtain ⟨ha, hend⟩ := linked_cons.mp h
      obtain rfl := Option.some.inj ha
      rw [listEnd, linked_nil.mp hend]
  | cons b pre ih =>
      obtain ⟨ha, hrest⟩ := linked_cons.mp h
      obtain rfl := Option.some.inj ha
      obtain ⟨c, hc⟩ : ∃ c, m.next a = some c := by
        cases pre with
        | nil => exact ⟨co, hrest.1⟩
        | cons c pre => exact ⟨c, hrest.1⟩
      cases fuel with
      | zero => exact absurd hf (by simp)
      | succ fuel =>
          simp only [listEnd, hc]
          exact ih (hc ▸ hrest) (by simpa using hf)

/-- More fuel does not change where it ends, -/
theorem listEnd_mono {fuel' : Nat} (hle : fuel ≤ fuel') (h : m.listEnd fuel a = some co) :
    m.listEnd fuel' a = some co := by
  induction fuel generalizing fuel' a with
  | zero => exact absurd h (by simp [listEnd])
  | succ fuel ih =>
      cases fuel' with
      | zero => exact absurd hle (Nat.not_succ_le_zero fuel)
      | succ fuel' =>
          rw [listEnd] at h ⊢
          split at h
          · exact h
          · exact ih (Nat.le_of_succ_le_succ hle) h

/-- so whenever it ends, it ends there. -/
theorem eq_of_listEnd (h : Linked m.next (some a) (pre ++ [co]) none)
    (he : m.listEnd fuel a = some node) : node = co := by
  have hroom : pre.length < max fuel (pre.length + 1) := by omega
  have hmax := listEnd_mono (Nat.le_max_left fuel (pre.length + 1)) he
  exact Option.some.inj (hmax.symm.trans (listEnd_eq h hroom))

/-- The walk from the head does not see the record `co_start` fills in. -/
theorem OnList.linked_fresh (h : m.OnList l) (hco : co ∉ coListHead :: l) :
    ∃ pre a, coListHead :: l = pre ++ [a] ∧
      Linked (Function.update m.next co none) (some coListHead) (pre ++ [a]) none := by
  obtain ⟨pre, a, hpre⟩ :=
    (List.eq_nil_or_concat' (coListHead :: l)).resolve_left (List.cons_ne_nil _ _)
  refine ⟨pre, a, hpre, ?_⟩
  rw [← hpre]
  exact (linked_update hco).mpr (onList_iff.mp h)

/-- `co_start` returns, -/
theorem coStart_total (h : m.OnList l) (hco : co ∉ coListHead :: l) (name : String) :
    ∃ fuel m', m.coStart fuel co name = some m' := by
  obtain ⟨pre, a, -, hlast⟩ := h.linked_fresh hco
  have hend := listEnd_eq
    (m := { name := Function.update m.name co name, next := Function.update m.next co none })
    hlast (Nat.lt_succ_self _)
  exact ⟨pre.length + 1, _, by rw [coStart, listAppend, hend]⟩

/-- and the new coroutine is at the end of the list. -/
theorem onList_coStart (h : m.OnList l) (hn : (coListHead :: l).Nodup)
    (hco : co ∉ coListHead :: l) (hs : m.coStart fuel co name = some m') :
    m'.OnList (l ++ [co]) ∧ m'.name = Function.update m.name co name := by
  obtain ⟨pre, a, hpre, hlast⟩ := h.linked_fresh hco
  rw [coStart, listAppend] at hs
  split at hs
  · exact absurd hs (by simp)
  · next temp hend =>
    obtain rfl := eq_of_listEnd hlast hend
    obtain rfl := Option.some.inj hs
    have happ : coListHead :: (l ++ [co]) = pre ++ [temp, co] := by
      rw [← List.cons_append, hpre, List.append_assoc, List.singleton_append]
    refine ⟨?_, rfl⟩
    rw [onList_iff, happ]
    refine hlast.snoc ?_ (Function.update_self ..)
    rw [← happ, ← List.cons_append]
    exact hn.append (List.nodup_singleton co) (List.disjoint_singleton.mpr hco)

/-- `co_delete` returns once its loop may go round as often as the list is long, -/
theorem deleteLoop_total (h : Linked m.next o l none) (hf : l.length < fuel) (before : Ptr) :
    ∃ m', m.deleteLoop node fuel o before = some m' := by
  induction l generalizing fuel o before with
  | nil =>
      obtain ⟨fuel, rfl⟩ := Nat.exists_eq_add_of_lt hf
      obtain rfl := linked_nil.mp h
      exact ⟨m, by rw [deleteLoop]⟩
  | cons a l ih =>
      obtain ⟨rfl, hrest⟩ := linked_cons.mp h
      cases fuel with
      | zero => exact absurd hf (by simp)
      | succ fuel =>
          rw [deleteLoop]
          split
          · split
            · exact ⟨_, rfl⟩
            · exact ⟨_, rfl⟩
          · exact ih hrest (by simpa using hf) a

/-- and what it unlinks is the first coroutine with the name of `node`. The loop has
walked past `pre`, to `before`. -/
theorem linked_deleteLoop {before : Ptr} (h : Linked m.next o (pre ++ before :: l) none)
    (hn : (pre ++ before :: l).Nodup)
    (hs : m.deleteLoop node fuel (m.next before) before = some m') :
    Linked m'.next o (pre ++ before :: l.eraseP (m.sameName node)) none ∧ m'.name = m.name := by
  induction l generalizing pre before fuel with
  | nil =>
      have hend : m.next before = none := by
        obtain ⟨k, -, hk⟩ := linked_append.mp h
        exact hk.2
      cases fuel with
      | zero => exact absurd hs (by simp [deleteLoop])
      | succ fuel =>
          rw [hend, deleteLoop] at hs
          obtain rfl := Option.some.inj hs
          exact ⟨h, rfl⟩
  | cons a l ih =>
      have ha : m.next before = some a := by
        obtain ⟨k, -, hk⟩ := linked_append.mp h
        exact hk.2.1
      cases fuel with
      | zero => exact absurd hs (by simp [deleteLoop])
      | succ fuel =>
          rw [ha, deleteLoop] at hs
          split at hs
          · next hname =>
            -- both branches of the source store the link of the unlinked record
            obtain rfl : m.setNext before (m.next a) = m' := by
              split at hs
              · next hnext => rw [hnext]; exact Option.some.inj hs
              · next t hnext => rw [hnext]; exact Option.some.inj hs
            rw [List.eraseP_cons_of_pos (by simpa [sameName] using hname)]
            exact ⟨h.unlink hn, rfl⟩
          · next hname =>
            rw [List.eraseP_cons_of_neg (by simpa [sameName] using hname)]
            have h' : Linked m.next o ((pre ++ [before]) ++ a :: l) none := by simpa using h
            simpa using ih h' (by simpa using hn) hs

theorem coDelete_total (h : m.OnList l) (node : Ptr) :
    ∃ fuel m', m.coDelete fuel node = some m' :=
  ⟨l.length + 1, deleteLoop_total h (Nat.lt_succ_self _) _⟩

/-- What `co_delete` leaves on the list. -/
theorem onList_coDelete (h : m.OnList l) (hn : (coListHead :: l).Nodup)
    (hs : m.coDelete fuel node = some m') :
    m'.OnList (l.eraseP (m.sameName node)) ∧ m'.name = m.name := by
  have h' : Linked m.next (some coListHead) ([] ++ coListHead :: l) none := onList_iff.mp h
  obtain ⟨hl, hname⟩ := linked_deleteLoop h' hn hs
  exact ⟨onList_iff.mpr hl, hname⟩

end

/-! ### The list of the machine -/

/-- The memory `m` holds the list of the machine state `s`, and its names. -/
structure Holds (m : Records) (s : State) : Prop where
  onList : m.OnList s.coList
  nodup : (coListHead :: s.coList).Nodup
  name : ∀ co, co ≠ coListHead → m.name co = (s.heap co).name

section
variable {m : Records} {s : State} {co node : Ptr}

theorem coStart_refines (h : m.Holds s) (p : Program) (hco : co ∉ coListHead :: s.coList) :
    ∃ fuel m', m.coStart fuel co (p.name co) = some m' ∧ m'.Holds (Libco.coStart p s co) := by
  obtain ⟨fuel, m', hs⟩ := coStart_total h.onList hco (p.name co)
  obtain ⟨hl, hname⟩ := onList_coStart h.onList h.nodup hco hs
  refine ⟨fuel, m', hs, hl, ?_, ?_⟩
  · rw [Libco.coStart_coList, ← List.cons_append]
    exact h.nodup.append (List.nodup_singleton co) (List.disjoint_singleton.mpr hco)
  · intro d hd
    by_cases heq : d = co
    · simp [hname, heq]
    · simp [hname, heq, h.name d hd]

theorem coDelete_refines (h : m.Holds s) (hnode : node ≠ coListHead) :
    ∃ fuel m', m.coDelete fuel node = some m' ∧ m'.Holds (Libco.coDelete s node) := by
  obtain ⟨fuel, m', hs⟩ := coDelete_total h.onList node
  obtain ⟨hl, hname⟩ := onList_coDelete h.onList h.nodup hs
  have hsame : s.coList.eraseP (m.sameName node) = (Libco.coDelete s node).coList := by
    refine eraseP_congr fun d hd => ?_
    have hne : d ≠ coListHead := fun heq => (List.nodup_cons.mp h.nodup).1 (heq ▸ hd)
    rw [sameName, h.name d hne, h.name node hnode]
  refine ⟨fuel, m', hs, hsame ▸ hl, ?_, ?_⟩
  · exact h.nodup.sublist (List.eraseP_sublist.cons_cons _)
  · intro d hd
    rw [hname]
    exact h.name d hd

end

end Records

/-! ### Creations and deletions in any order -/

/-- A call that changes `co_list`. -/
inductive ListCall
  /-- `co_start` with this name; `co` is the address its `malloc` returns. -/
  | start (co : Ptr) (name : String)
  /-- `co_delete(node)`. -/
  | delete (node : Ptr)
  deriving DecidableEq, Repr

/-- The memory, and the coroutines started and not deleted yet, in creation order. -/
structure ListState where
  records : Records
  live : List Ptr

/-- The calls: `malloc` returns memory that no live coroutine has, and `co_delete` is
called on a coroutine then on the list. -/
inductive ListStep : ListState → ListCall → ListState → Prop
  | start {s : ListState} {co : Ptr} {name : String} {fuel : Nat} {m : Records} :
      co ∉ coListHead :: s.live → NameFits name → s.records.coStart fuel co name = some m →
      ListStep s (.start co name) { records := m, live := s.live ++ [co] }
  /-- `strcpy` leaves the buffer of the name; the memory may be anything then. -/
  | overflow {s : ListState} {co : Ptr} {name : String} {m : Records} :
      co ∉ coListHead :: s.live → ¬ NameFits name →
      ListStep s (.start co name) { records := m, live := s.live ++ [co] }
  | delete {s : ListState} {node : Ptr} {l : List Ptr} {fuel : Nat} {m : Records} :
      s.records.OnList l → node ∈ l → s.records.coDelete fuel node = some m →
      ListStep s (.delete node) { records := m, live := s.live.erase node }

/-- The library under any sequence of calls; `co_list` is a global, so all zero. -/
def listMachine : System ListState ListCall where
  init s := s.records.next coListHead = none ∧ s.live = []
  step := ListStep

/-- `node` is the first of the coroutines `l` that has its name. -/
def FirstOfName (m : Records) (l : List Ptr) (node : Ptr) : Prop :=
  l.find? (m.sameName node) = some node

instance (m : Records) (l : List Ptr) (node : Ptr) : Decidable (FirstOfName m l node) :=
  inferInstanceAs (Decidable (_ = _))

/-- The name of every `co_start` fits in its buffer, and every `co_delete` finds no older
coroutine on the list with the name of its own. -/
def DeletesFirst (s : ListState) : ListCall → Prop
  | .start _ name => NameFits name
  | .delete node => FirstOfName s.records s.live node

/-- Unlinking the first one that passes a test unlinks `a` exactly when `a` is it. -/
theorem eraseP_eq_erase_iff {q : Ptr → Bool} {l : List Ptr} {a : Ptr} (ha : a ∈ l)
    (hn : l.Nodup) (hq : q a = true) : l.eraseP q = l.erase a ↔ l.find? q = some a := by
  induction l with
  | nil => exact absurd ha (by simp)
  | cons b l ih =>
      obtain ⟨hb, hn⟩ := List.nodup_cons.mp hn
      by_cases hab : b = a
      · subst hab
        simp [hq]
      · have hal : a ∈ l := (List.mem_cons.mp ha).resolve_left (Ne.symm hab)
        rw [List.erase_cons_tail (by simpa using hab)]
        by_cases hqb : q b = true
        · rw [List.eraseP_cons_of_pos hqb, List.find?_cons_of_pos hqb]
          constructor
          · intro h
            exact absurd (h ▸ List.mem_cons_self) hb
          · intro h
            exact absurd (Option.some.inj h) hab
        · rw [List.eraseP_cons_of_neg hqb, List.find?_cons_of_neg hqb, List.cons_inj_right,
            ih hal hn]

/-- The links spell the live coroutines. -/
structure ListInv (s : ListState) : Prop where
  onList : s.records.OnList s.live
  nodup : (coListHead :: s.live).Nodup

/-- Where `node` is the first of its name, `co_delete` unlinks it; elsewhere it does not. -/
theorem ListInv.delete_iff {s : ListState} (h : ListInv s) {node : Ptr} (hnode : node ∈ s.live)
    {fuel : Nat} {m : Records} (hs : s.records.coDelete fuel node = some m) :
    m.OnList (s.live.erase node) ↔ FirstOfName s.records s.live node := by
  have hl := (Records.onList_coDelete h.onList h.nodup hs).1
  rw [FirstOfName, ← eraseP_eq_erase_iff hnode (List.nodup_cons.mp h.nodup).2
    (by simp [Records.sameName])]
  constructor
  · intro he
    exact hl.unique he
  · intro he
    exact he ▸ hl

theorem listInv_step {s s' : ListState} {c : ListCall} (h : ListInv s) (hok : DeletesFirst s c)
    (hs : ListStep s c s') : ListInv s' := by
  cases hs with
  | start hco _ hs =>
      refine ⟨(Records.onList_coStart h.onList h.nodup hco hs).1, ?_⟩
      rw [← List.cons_append]
      exact h.nodup.append (List.nodup_singleton _) (List.disjoint_singleton.mpr hco)
  | overflow _ hlong => exact absurd hok hlong
  | delete hl hm hs =>
      obtain rfl := hl.unique h.onList
      exact ⟨(h.delete_iff hm hs).mpr hok, h.nodup.sublist (List.erase_sublist.cons_cons _)⟩

/-- Where the name fits, `co_start` puts the coroutine at the end of the list; elsewhere it
may not. -/
theorem ListInv.start_iff {s : ListState} (h : ListInv s) {co : Ptr}
    (hco : co ∉ coListHead :: s.live) (name : String) :
    (∀ s', ListStep s (.start co name) s' → s'.records.OnList (s.live ++ [co])) ↔
      NameFits name := by
  constructor
  · intro hall
    by_contra hlong
    have hlist := hall { records := s.records, live := s.live ++ [co] } (.overflow hco hlong)
    have hlen := congrArg List.length (h.onList.unique hlist)
    simp at hlen
  · intro hfits s' hs
    cases hs with
    | start _ _ hs => exact (Records.onList_coStart h.onList h.nodup hco hs).1
    | overflow _ hlong => exact absurd hfits hlong

/-- In a run in which every name fits in its buffer and every `co_delete` was called on the
first coroutine of its name, the list is what was started and not deleted, in creation order;
then `co_start` adds the new coroutine, whatever it is, exactly when the name fits, and
`co_delete(node)` removes `node` and nothing else exactly when `node` is the first on the
list with its name. -/
theorem co_delete_unlinks_node {s : ListState} (h : listMachine.Run DeletesFirst s) :
    s.records.OnList s.live ∧
      (∀ co ∉ coListHead :: s.live, ∀ name,
        (∀ s', ListStep s (.start co name) s' → s'.records.OnList (s.live ++ [co])) ↔
          NameFits name) ∧
      ∀ node ∈ s.live,
        ((∃ fuel m, s.records.coDelete fuel node = some m ∧ m.OnList (s.live.erase node)) ↔
          FirstOfName s.records s.live node) := by
  have hinv : listMachine.Invariant DeletesFirst ListInv :=
    { init := by
        intro s hs
        obtain ⟨hnext, hlive⟩ := hs
        exact ⟨by simp [Records.OnList, hlive, hnext], by simp [hlive]⟩
      step := fun s c s' h hok hs => listInv_step h hok hs }
  have hI := h.invariant hinv
  refine ⟨hI.onList, fun co hco name => hI.start_iff hco name, fun node hnode => ?_⟩
  constructor
  · intro he
    obtain ⟨fuel, m, hs, hl⟩ := he
    exact (hI.delete_iff hnode hs).mp hl
  · intro hf
    obtain ⟨fuel, m, hs⟩ := Records.coDelete_total hI.onList node
    exact ⟨fuel, m, hs, (hI.delete_iff hnode hs).mpr hf⟩

/-- The memory after `co_start("a")` and `co_start(name)`, which return 1 and 2. -/
def twoStarted (name : String) : Records where
  name := Function.update (Function.update (fun _ => "") 1 "a") 2 name
  next := Function.update (Function.update (Function.update (Function.update (fun _ => none)
    1 none) 0 (some 1)) 2 none) 1 (some 2)

theorem run_twoStarted {ok : ListState → ListCall → Prop}
    (hok : ∀ s co name, NameFits name → ok s (.start co name)) (name : String)
    (hname : NameFits name) :
    listMachine.Run ok { records := twoStarted name, live := [1, 2] } := by
  have hinit : listMachine.Run ok
      { records := { name := fun _ => "", next := fun _ => none }, live := [] } :=
    .init ⟨rfl, rfl⟩
  have h1 := hinit.step (hok _ 1 "a" (by decide))
    (.start (by decide) (by decide) (rfl : Records.coStart _ 1 1 _ = _))
  exact h1.step (hok _ 2 name hname)
    (.start (by decide) hname (rfl : Records.coStart _ 2 2 _ = _))

theorem co_delete_unlinks_node_pair :
    ∃ fuel m, (twoStarted "b").coDelete fuel 2 = some m ∧ m.OnList [1] :=
  ((co_delete_unlinks_node (run_twoStarted (fun _ _ _ hname => hname) "b" (by decide))).2.2 2
    (by decide)).mpr (by decide)

/-- Two coroutines of one name: deleting the second unlinks the first. -/
theorem not_co_delete_unlinks_node :
    ¬ ∀ (s : ListState) (l : List Ptr) (node : Ptr), listMachine.Reachable s →
      s.records.OnList l → node ∈ l → ∀ fuel m, s.records.coDelete fuel node = some m →
        m.OnList (l.erase node) := by
  intro h
  have hl : (twoStarted "a").OnList [1, 2] := by
    simp [Records.OnList, twoStarted, coListHead]
  have hdel := h _ _ 2 (run_twoStarted (fun _ _ _ _ => trivial) "a" (by decide)) hl (by decide)
    1 _ rfl
  -- what is left is the coroutine that was deleted
  have hone := hdel.1
  exact absurd hone (by decide)

end OsLabs.Libco
