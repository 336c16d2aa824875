import OsLabs.Libco.RandPool

/-!
# OsLabs.Libco.PoolCalls

The pool of `libco/co-first.c` over any sequence of calls: `co_start`, `co_delete`,
`rand_choose`, and the stores to `status` that the code makes between them.

`rand_choose` threads its pool through the coroutines on `co_list`, and relies on their
`brother` links being NULL when it begins. That they are is an invariant of the library
(`Clean`): `co_start` sets the link of the new record, `co_delete` writes no `brother`
link, and `rand_choose` takes back all those it sets. So a pool never holds on to a
coroutine that is not on the list any more (`pool_of_eligible`).
-/

namespace OsLabs.Libco

namespace PoolRecords

/-- `co_start(name, …)`, when its `malloc` returns `co`. -/
def coStart (m : PoolRecords) (fuel : Nat) (co : Ptr) (name : String) : Option PoolRecords :=
  match m.toRecords.coStart fuel co name with
  | none => none
  | some records =>
      some {
        toRecords := records
        status := Function.update m.status co (some .new)
        brother := Function.update m.brother co none }

/-- `co_delete(node)`. -/
def coDelete (m : PoolRecords) (fuel : Nat) (node : Ptr) : Option PoolRecords :=
  match m.toRecords.coDelete fuel node with
  | none => none
  | some records => some { m with toRecords := records }

/-- `co->status = st`. -/
def setStatus (m : PoolRecords) (co : Ptr) (st : CoStatus) : PoolRecords :=
  { m with status := Function.update m.status co (some st) }

/-! ### More rounds -/

section
variable {m m' : PoolRecords} {fuel fuel' : Nat} {o : Option Ptr} {a co candidate current : Ptr}
  {count draw : Nat} {r : PoolRecords × Nat}

theorem randPoolAppend_mono (hle : fuel ≤ fuel') (h : m.randPoolAppend fuel a co = some m') :
    m.randPoolAppend fuel' a co = some m' := by
  rw [randPoolAppend] at h ⊢
  split at h
  · exact absurd h (by simp)
  · next temp hend =>
    rw [Records.listEnd_mono hle hend]
    exact h

theorem fillPool_mono (hle : fuel ≤ fuel') (h : m.fillPool fuel o count = some r) :
    m.fillPool fuel' o count = some r := by
  induction fuel generalizing fuel' m o count with
  | zero => exact absurd h (by simp [fillPool])
  | succ fuel ih =>
      cases fuel' with
      | zero => exact absurd hle (Nat.not_succ_le_zero fuel)
      | succ fuel' =>
          have hle := Nat.le_of_succ_le_succ hle
          cases o with
          | none => exact h
          | some temp =>
              rw [fillPool] at h ⊢
              split at h
              · next hel =>
                rw [if_pos hel]
                split at h
                · exact absurd h (by simp)
                · next m' happ =>
                  rw [randPoolAppend_mono hle happ]
                  exact ih hle h
              · next hel =>
                rw [if_neg hel]
                exact ih hle h

theorem clearPool_mono (hle : fuel ≤ fuel') (h : m.clearPool fuel a = some m') :
    m.clearPool fuel' a = some m' := by
  induction fuel generalizing fuel' m a with
  | zero => exact absurd h (by simp [clearPool])
  | succ fuel ih =>
      cases fuel' with
      | zero => exact absurd hle (Nat.not_succ_le_zero fuel)
      | succ fuel' =>
          rw [clearPool] at h ⊢
          split at h
          · exact h
          · exact ih (Nat.le_of_succ_le_succ hle) h

/-- What `rand_choose` does, it does with any number of rounds that is enough. -/
theorem randChoose_mono (hle : fuel ≤ fuel')
    (h : m.randChoose fuel candidate current draw = some m') :
    m.randChoose fuel' candidate current draw = some m' := by
  simp only [randChoose, Option.bind_eq_bind, Option.bind_eq_some_iff] at h ⊢
  obtain ⟨r, hfill, pool, hpool, same, hsame, pool', hpool', temp, htemp, hclear⟩ := h
  exact ⟨r, fillPool_mono hle hfill, pool, hpool, same, hsame, pool', hpool', temp, htemp,
    clearPool_mono hle hclear⟩

end

/-! ### One call -/

section
variable {m m' : PoolRecords} {fuel : Nat} {co node candidate current : Ptr} {name : String}
  {l : List Ptr} {draw : Nat}

theorem coStart_eq_some (h : m.coStart fuel co name = some m') :
    m.toRecords.coStart fuel co name = some m'.toRecords ∧
      m'.status = Function.update m.status co (some .new) ∧
      m'.brother = Function.update m.brother co none := by
  rw [coStart] at h
  split at h
  · exact absurd h (by simp)
  · next records hstart =>
    obtain rfl := Option.some.inj h
    exact ⟨hstart, rfl, rfl⟩

theorem coDelete_eq_some (h : m.coDelete fuel node = some m') :
    m.toRecords.coDelete fuel node = some m'.toRecords ∧ m'.status = m.status ∧
      m'.brother = m.brother := by
  rw [coDelete] at h
  split at h
  · exact absurd h (by simp)
  · next records hdelete =>
    obtain rfl := Option.some.inj h
    exact ⟨hdelete, rfl, rfl⟩

theorem Clean.nodup_list (h : m.Clean l) : (coListHead :: l).Nodup :=
  h.nodup.sublist ((List.sublist_cons_self ..).cons_cons _)

theorem not_mem_list (h : co ∉ coListHead :: randPoolHead :: l) : co ∉ coListHead :: l :=
  fun hmem => h (((List.sublist_cons_self ..).cons_cons _).subset hmem)

/-- A new coroutine goes to the end of the list, -/
theorem Clean.coStart (h : m.Clean l) (hco : co ∉ coListHead :: randPoolHead :: l)
    (hs : m.coStart fuel co name = some m') : m'.Clean (l ++ [co]) := by
  obtain ⟨hstart, hstatus, hbrother⟩ := coStart_eq_some hs
  have hhead : co ≠ coListHead := fun heq => hco (heq ▸ List.mem_cons_self)
  have hsplit : coListHead :: randPoolHead :: (l ++ [co]) =
      (coListHead :: randPoolHead :: l) ++ [co] := rfl
  constructor
  case onList =>
    exact (Records.onList_coStart h.onList h.nodup_list (not_mem_list hco) hstart).1
  case nodup =>
    rw [hsplit]
    exact h.nodup.append (List.nodup_singleton co) (List.disjoint_singleton.mpr hco)
  case head => rw [hstatus, Function.update_of_ne hhead.symm, h.head]
  case brother =>
    intro d hd
    rw [hbrother]
    by_cases heq : d = co
    · rw [heq, Function.update_self]
    · rw [hsplit, List.mem_append, List.mem_singleton] at hd
      rw [Function.update_of_ne heq]
      exact h.brother d (hd.resolve_right heq)

/-- a deleted one goes from its place, -/
theorem Clean.coDelete (h : m.Clean l) (hs : m.coDelete fuel node = some m') :
    m'.Clean (l.eraseP (m.sameName node)) := by
  obtain ⟨hdelete, hstatus, hbrother⟩ := coDelete_eq_some hs
  have herase : (coListHead :: randPoolHead :: l.eraseP (m.sameName node)).Sublist
      (coListHead :: randPoolHead :: l) :=
    (List.eraseP_sublist.cons_cons _).cons_cons _
  constructor
  case onList => exact (Records.onList_coDelete h.onList h.nodup_list hdelete).1
  case nodup => exact h.nodup.sublist herase
  case head => rw [hstatus, h.head]
  case brother =>
    intro d hd
    rw [hbrother]
    exact h.brother d (herase.subset hd)

/-- a store to the link of another record is not seen, -/
theorem Clean.setBrother (h : m.Clean l) (hcand : candidate ∉ coListHead :: randPoolHead :: l)
    (t : Option Ptr) : (m.setBrother candidate t).Clean l where
  onList := h.onList
  nodup := h.nodup
  head := h.head
  brother co hco := by
    have hne : co ≠ candidate := fun heq => hcand (heq ▸ hco)
    rw [setBrother_brother, Function.update_of_ne hne, h.brother co hco]

/-- and neither is a store to a status. -/
theorem Clean.setStatus (h : m.Clean l) (hco : co ∉ [coListHead, randPoolHead]) (st : CoStatus) :
    (m.setStatus co st).Clean l where
  onList := h.onList
  nodup := h.nodup
  head := by
    have hne : coListHead ≠ co := fun heq => hco (heq ▸ List.mem_cons_self)
    exact (Function.update_of_ne hne ..).trans h.head
  brother := h.brother

theorem Clean.coStart_total (h : m.Clean l) (hco : co ∉ coListHead :: randPoolHead :: l)
    (name : String) : ∃ fuel m', m.coStart fuel co name = some m' := by
  obtain ⟨fuel, records, hstart⟩ := Records.coStart_total h.onList (not_mem_list hco) name
  exact ⟨fuel, _, by rw [PoolRecords.coStart, hstart]⟩

theorem Clean.coDelete_total (h : m.Clean l) (node : Ptr) :
    ∃ fuel m', m.coDelete fuel node = some m' := by
  obtain ⟨fuel, records, hdelete⟩ := Records.coDelete_total h.onList node
  exact ⟨fuel, _, by rw [PoolRecords.coDelete, hdelete]⟩

/-- Whenever `rand_choose` returns, it has stored its choice and changed nothing else. -/
theorem Clean.randChoose (h : m.Clean l) (hcand : candidate ∉ coListHead :: randPoolHead :: l)
    (hcur : current ∉ [coListHead, randPoolHead]) (hel : ∃ co ∈ l, m.eligible co = true)
    (hs : m.randChoose fuel candidate current draw = some m') :
    ∃ choice ∈ l.filter m.eligible, m' = m.setBrother candidate (some choice) := by
  have hroom : 2 * l.length + 2 < max fuel (2 * l.length + 3) := by omega
  obtain ⟨choice, hdrawn, heq⟩ := randChoose_eq h hcand hcur hel draw hroom
  have hmax := randChoose_mono (Nat.le_max_left fuel (2 * l.length + 3)) hs
  exact ⟨choice, mem_of_drawn hdrawn, Option.some.inj (hmax.symm.trans heq)⟩

end

end PoolRecords

/-! ### Any sequence of calls -/

/-- A call, or a store that the code makes between two calls. -/
inductive PoolCall
  /-- `co_start` with this name; `co` is the address its `malloc` returns. -/
  | start (co : Ptr) (name : String)
  /-- `co_delete(node)`. -/
  | delete (node : Ptr)
  /-- `rand_choose(co_list_head, candidate, current)`; `rand()` returns `draw`. -/
  | choose (candidate current : Ptr) (draw : Nat)
  /-- `co->status = st`. -/
  | status (co : Ptr) (st : CoStatus)
  deriving DecidableEq, Repr

namespace PoolRecords

/-- What a call leaves in memory, if its loops end within `fuel` rounds. -/
def call (m : PoolRecords) (fuel : Nat) : PoolCall → Option PoolRecords
  | .start co name => m.coStart fuel co name
  | .delete node => m.coDelete fuel node
  | .choose candidate current draw => m.randChoose fuel candidate current draw
  | .status co st => some (m.setStatus co st)

/-- The calls the library makes: `malloc` returns new memory, a name fits in its buffer,
`candidate` is a record of its own, the static records are no coroutines, and `rand_choose`
finds one that is new or waiting. -/
def Permits (m : PoolRecords) : PoolCall → Prop
  | .start co name => NameFits name ∧ ∃ l, m.OnList l ∧ co ∉ coListHead :: randPoolHead :: l
  | .delete node => node ∉ [coListHead, randPoolHead]
  | .choose candidate current _ =>
      ∃ l, m.OnList l ∧ candidate ∉ coListHead :: randPoolHead :: l ∧
        current ∉ [coListHead, randPoolHead] ∧ ∃ co ∈ l, m.eligible co = true
  | .status co _ => co ∉ [coListHead, randPoolHead]

/-- The library under any sequence of calls; `co_list` and `rand_pool` are globals, so all
zero. -/
def poolMachine : System PoolRecords PoolCall where
  init m := ∀ p ∈ [coListHead, randPoolHead],
    m.next p = none ∧ m.status p = none ∧ m.brother p = none
  step m c m' := ∃ fuel, m.call fuel c = some m'

section
variable {m m' : PoolRecords} {l : List Ptr} {c : PoolCall}

theorem clean_init (h : poolMachine.init m) : m.Clean [] where
  onList := (h coListHead (by decide)).1
  nodup := by decide
  head := (h coListHead (by decide)).2.1
  brother co hco := (h co hco).2.2

/-- The list of which a permitted call speaks is the one in memory. -/
theorem Clean.of_permits_start (h : m.Clean l) {co : Ptr} {name : String}
    (hok : m.Permits (.start co name)) : co ∉ coListHead :: randPoolHead :: l := by
  obtain ⟨-, l', hl', hco⟩ := hok
  exact h.onList.unique hl' ▸ hco

theorem Clean.of_permits_choose (h : m.Clean l) {candidate current : Ptr} {draw : Nat}
    (hok : m.Permits (.choose candidate current draw)) :
    candidate ∉ coListHead :: randPoolHead :: l ∧ current ∉ [coListHead, randPoolHead] ∧
      ∃ co ∈ l, m.eligible co = true := by
  obtain ⟨l', hl', hchoose⟩ := hok
  exact h.onList.unique hl' ▸ hchoose

theorem clean_call (h : m.Clean l) (hok : m.Permits c) (hs : poolMachine.step m c m') :
    ∃ l', m'.Clean l' := by
  obtain ⟨fuel, hs⟩ := hs
  cases c with
  | start co name =>
      exact ⟨_, h.coStart (h.of_permits_start hok) hs⟩
  | delete node => exact ⟨_, h.coDelete hs⟩
  | choose candidate current draw =>
      obtain ⟨hcand, hcur, hel⟩ := h.of_permits_choose hok
      obtain ⟨choice, -, rfl⟩ := h.randChoose hcand hcur hel hs
      exact ⟨l, h.setBrother hcand _⟩
  | status co st =>
      obtain rfl := Option.some.inj hs
      exact ⟨l, h.setStatus hok st⟩

/-- Every call returns. -/
theorem call_total (h : m.Clean l) (hok : m.Permits c) : ∃ fuel m', m.call fuel c = some m' := by
  cases c with
  | start co name =>
      exact h.coStart_total (h.of_permits_start hok) name
  | delete node => exact h.coDelete_total node
  | choose candidate current draw =>
      obtain ⟨hcand, hcur, hel⟩ := h.of_permits_choose hok
      obtain ⟨choice, -, heq⟩ := randChoose_eq h hcand hcur hel draw (Nat.lt_succ_self _)
      exact ⟨_, _, heq⟩
  | status co st => exact ⟨0, _, rfl⟩

/-- Between two calls no link of a pool is left. -/
theorem clean_of_run (h : poolMachine.Run Permits m) : ∃ l, m.Clean l := by
  have hinv : poolMachine.Invariant Permits fun m => ∃ l, m.Clean l :=
    { init := fun m h => ⟨[], clean_init h⟩
      step := by
        intro m c m' hclean hok hs
        obtain ⟨l, hclean⟩ := hclean
        exact clean_call hclean hok hs }
  have hclean := h.invariant hinv
  exact hclean

end

/-- After any sequence of calls the `brother` links of `rand_pool` and of the coroutines
`l` on `co_list` are NULL; whatever is called next returns, and `rand_choose` builds its pool
from the new and waiting coroutines of `l`, and leaves the list, the statuses and these
links as they were. -/
theorem pool_of_eligible {m : PoolRecords} (h : poolMachine.Run Permits m) :
    ∃ l, m.OnList l ∧ (∀ co ∈ randPoolHead :: l, m.brother co = none) ∧
      (∀ c, m.Permits c → ∃ fuel m', m.call fuel c = some m') ∧
      (∀ fuel, 2 * l.length + 2 < fuel → ∃ pooled,
        m.fillPool fuel (some coListHead) 0 = some (pooled, (l.filter m.eligible).length) ∧
          m.Pooled pooled (l.filter m.eligible)) ∧
      ∀ candidate current draw, m.Permits (.choose candidate current draw) →
        ∀ fuel m', m.call fuel (.choose candidate current draw) = some m' →
          m'.toRecords = m.toRecords ∧ m'.status = m.status ∧ m'.OnList l ∧
            (∀ co ∈ randPoolHead :: l, m'.brother co = none) ∧
            ∃ choice ∈ l.filter m.eligible, m'.brother candidate = some choice := by
  obtain ⟨l, hclean⟩ := clean_of_run h
  refine ⟨l, hclean.onList, fun co hco => hclean.brother co (List.mem_cons_of_mem _ hco),
    fun c hok => call_total hclean hok, fun fuel hf => hclean.fillPool_eq hf, ?_⟩
  intro candidate current draw hok fuel m' hs
  obtain ⟨hcand, hcur, hel⟩ := hclean.of_permits_choose hok
  obtain ⟨choice, hchoice, rfl⟩ := hclean.randChoose hcand hcur hel hs
  have hafter := hclean.setBrother hcand (some choice)
  exact ⟨rfl, rfl, hafter.onList,
    fun co hco => hafter.brother co (List.mem_cons_of_mem _ hco), choice, hchoice,
    Function.update_self ..⟩

/-- A run goes on with `co_start`. -/
theorem run_coStart {m m' : PoolRecords} {l : List Ptr} {co : Ptr} {name : String} {fuel : Nat}
    (h : poolMachine.Run Permits m) (hl : m.OnList l)
    (hco : co ∉ coListHead :: randPoolHead :: l) (hname : NameFits name)
    (hs : m.coStart fuel co name = some m') : poolMachine.Run Permits m' :=
  h.step (show m.Permits (.start co name) from ⟨hname, l, hl, hco⟩) ⟨fuel, hs⟩

/-- The memory after `co_start("a")` and `co_start("b")`, which return 2 and 3. -/
def twoNew : PoolRecords where
  name := Function.update (Function.update (fun _ => "") 2 "a") 3 "b"
  next := Function.update (Function.update (Function.update (Function.update (fun _ => none)
    2 none) 0 (some 2)) 3 none) 2 (some 3)
  status := Function.update (Function.update (fun _ => none) 2 (some .new)) 3 (some .new)
  brother := Function.update (Function.update (fun _ => none) 2 none) 3 none

theorem run_twoNew : poolMachine.Run Permits twoNew := by
  have hinit : poolMachine.Run Permits
      { name := fun _ => "", next := fun _ => none, status := fun _ => none,
        brother := fun _ => none } :=
    .init fun _ _ => ⟨rfl, rfl, rfl⟩
  have hone := run_coStart hinit (l := []) rfl (by decide) (by decide)
    (rfl : PoolRecords.coStart _ 1 2 "a" = _)
  exact run_coStart hone (l := [2]) (by simp [Records.OnList, coListHead]) (by decide)
    (by decide) (rfl : PoolRecords.coStart _ 2 3 "b" = _)

theorem onList_twoNew : twoNew.OnList [2, 3] := by
  simp [Records.OnList, twoNew, coListHead]

/-- Once "a" has chosen, neither of the two has a link. -/
theorem pool_of_eligible_two :
    ∃ fuel m', twoNew.call fuel (.choose 4 2 0) = some m' ∧ m'.status = twoNew.status ∧
      m'.OnList [2, 3] ∧ m'.brother 2 = none ∧ m'.brother 3 = none := by
  obtain ⟨l, hl, -, hcalls, -, hchoose⟩ := pool_of_eligible run_twoNew
  obtain rfl := onList_twoNew.unique hl
  have hok : twoNew.Permits (.choose 4 2 0) :=
    ⟨[2, 3], hl, by decide, by decide, 2, by decide, by decide⟩
  obtain ⟨fuel, m', hs⟩ := hcalls _ hok
  obtain ⟨-, hstatus, hl', hbrother, -⟩ := hchoose 4 2 0 hok fuel m' hs
  exact ⟨fuel, m', hs, hstatus, hl', hbrother 2 (by decide), hbrother 3 (by decide)⟩

end PoolRecords

end OsLabs.Libco
