import OsLabs.Libco.CoList

/-!
# OsLabs.Libco.RandPool

`rand_choose` of `libco/co-first.c` in memory, with the temporary list it threads
through the `brother` links.

The machine of `OsLabs.Libco.Machine` draws from a list; here the pool is built by
`rand_pool_append`, walked to the drawn place, and taken apart again.
`randChoose_eq` says what is left in memory: the choice in `candidate->brother`, and
every other record as it was. `randChoose_refines` connects it to the machine, and
`rand_choose_stores_eligible` is what the callers of `rand_choose` rely on.
-/

namespace OsLabs.Libco

/-- The address of `rand_pool`, the record the pool hangs on. -/
def randPoolHead : Ptr := 1

/-- The fields of the `struct co` records in memory that `rand_choose` reads. -/
structure PoolRecords extends Records where
  /-- `none` is the 0 of a static record. -/
  status : Ptr → Option CoStatus
  brother : Ptr → Option Ptr

namespace PoolRecords

/-- The memory with `brother` for the link. -/
def byBrother (m : PoolRecords) : Records where
  name := m.name
  next := m.brother

/-- `temp->brother = t`. -/
def setBrother (m : PoolRecords) (temp : Ptr) (t : Option Ptr) : PoolRecords :=
  { m with brother := Function.update m.brother temp t }

@[simp] theorem setBrother_toRecords (m : PoolRecords) (temp : Ptr) (t : Option Ptr) :
    (m.setBrother temp t).toRecords = m.toRecords := rfl

@[simp] theorem setBrother_status (m : PoolRecords) (temp : Ptr) (t : Option Ptr) :
    (m.setBrother temp t).status = m.status := rfl

@[simp] theorem setBrother_brother (m : PoolRecords) (temp : Ptr) (t : Option Ptr) :
    (m.setBrother temp t).brother = Function.update m.brother temp t := rfl

/-- `rand_pool_append(head, new_co)`: the loop of `list_append`, along `brother`. -/
def randPoolAppend (m : PoolRecords) (fuel : Nat) (head newCo : Ptr) : Option PoolRecords :=
  match m.byBrother.listEnd fuel head with
  | none => none
  | some temp => some (m.setBrother temp (some newCo))

/-- The test by which `rand_choose` puts a coroutine into its pool. -/
def eligible (m : PoolRecords) (co : Ptr) : Bool :=
  m.status co = some .new || m.status co = some .waiting

/-- The loop of `rand_choose` that fills the pool, from `temp`. -/
def fillPool (m : PoolRecords) : Nat → Option Ptr → Nat → Option (PoolRecords × Nat)
  | 0, _, _ => none
  | _ + 1, none, count => some (m, count)
  | fuel + 1, some temp, count =>
      if m.eligible temp then
        match m.randPoolAppend fuel randPoolHead temp with
        | none => none
        | some m' => m'.fillPool fuel (m'.next temp) (count + 1)
      else
        m.fillPool fuel (m.next temp) count

/-- `index` times `pool = pool->brother`; `none` when this meets NULL, which every use
of the result dereferences or asserts against. -/
def follow (m : PoolRecords) : Nat → Ptr → Option Ptr
  | 0, pool => some pool
  | index + 1, pool =>
      match m.brother pool with
      | none => none
      | some pool' => m.follow index pool'

/-- `!strcmp(a->name, b->name)`; the two static records have no name. -/
def sameNames (m : PoolRecords) (a b : Ptr) : Option Bool :=
  if a ∈ [coListHead, randPoolHead] ∨ b ∈ [coListHead, randPoolHead] then none
  else some (m.name a = m.name b)

/-- The loop of `rand_choose` that takes the pool apart, from `temp`. -/
def clearPool (m : PoolRecords) : Nat → Ptr → Option PoolRecords
  | 0, _ => none
  | fuel + 1, temp =>
      match m.brother temp with
      | none => some m
      | some next => (m.setBrother temp none).clearPool fuel next

/-- The index the second time, when the first draw was the caller itself. -/
def indexAgain (count index : Nat) : Nat :=
  if count = 2 then count + 1 - index else (index + 1) % count + 1

/-- The branch of `rand_choose` taken when `pool`, drawn first, has the name of the
caller: the `for` loop runs again, from `rand_pool`. -/
def drawAgain (m : PoolRecords) (same : Bool) (pool : Ptr) (count index : Nat) : Option Ptr :=
  if same then m.follow (indexAgain count index) randPoolHead else some pool

/-- `rand_choose(co_list_head, candidate, current)`, when `rand()` returns `draw`;
`none` when a NULL pointer is dereferenced, an assertion fails, or `fuel` rounds are
not enough for one of the loops. -/
def randChoose (m : PoolRecords) (fuel : Nat) (candidate current : Ptr) (draw : Nat) :
    Option PoolRecords := do
  let (m, count) ← m.fillPool fuel (some coListHead) 0
  let index := if count = 0 then 0 else draw % count + 1
  let pool ← m.follow index randPoolHead
  let m := m.setBrother candidate (some pool)
  let same ← m.sameNames pool current
  let pool ← m.drawAgain same pool count index
  let m := m.setBrother candidate (some pool)
  let temp ← m.brother randPoolHead
  (m.setBrother randPoolHead none).clearPool fuel temp

end PoolRecords

/-! ### The draw -/

/-- The coroutine `rand_choose` takes from the pool, by its place in it; `same` is the
comparison of names with `current`. -/
def drawn (pool : List Ptr) (same : Ptr → Prop) [DecidablePred same] (draw : Nat) : Option Ptr :=
  let count := pool.length
  if count = 0 then
    none
  else
    let index := draw % count + 1
    match pool[index - 1]? with
    | none => none
    | some candidate =>
        if same candidate then pool[PoolRecords.indexAgain count index - 1]? else some candidate

/-- The machine draws in the same way. -/
theorem randChoose_eq_drawn (s : State) (draw : Nat) (current : Ptr) :
    Libco.randChoose s draw current =
      drawn (s.coList.filter s.eligible) (fun co => (s.heap co).name = (s.heap current).name)
        draw := by
  unfold Libco.randChoose drawn PoolRecords.indexAgain
  dsimp only
  split_ifs <;> rfl

section
variable {pool : List Ptr} {same : Ptr → Prop} [DecidablePred same] {current choice : Ptr}

/-- The second index stays inside the pool, -/
theorem indexAgain_lt {count i : Nat} (h : i < count) :
    PoolRecords.indexAgain count (i + 1) - 1 < count := by
  unfold PoolRecords.indexAgain
  split
  · omega
  · have := Nat.mod_lt (i + 1 + 1) (Nat.zero_lt_of_lt h)
    omega

/-- and leaves the place drawn first, if there is another one. -/
theorem indexAgain_ne {count i : Nat} (h : i < count) (hone : count ≠ 1) :
    PoolRecords.indexAgain count (i + 1) - 1 ≠ i := by
  unfold PoolRecords.indexAgain
  split
  · omega
  · intro heq
    have hmod : (i + 1 + 1) % count = i := by omega
    -- two places further round a circle of at least three
    rcases Nat.lt_or_ge (i + 1 + 1) count with hlt | hge
    · rw [Nat.mod_eq_of_lt hlt] at hmod
      omega
    · rw [Nat.mod_eq_sub_mod hge, Nat.mod_eq_of_lt (by omega)] at hmod
      omega

/-- A draw from a pool that is not empty finds something, -/
theorem exists_drawn (hpool : pool ≠ []) (same : Ptr → Prop) [DecidablePred same] (draw : Nat) :
    ∃ choice ∈ pool, drawn pool same draw = some choice := by
  have hpos : 0 < pool.length := List.length_pos_iff.mpr hpool
  have hlt : draw % pool.length < pool.length := Nat.mod_lt _ hpos
  have hagain := indexAgain_lt hlt
  simp only [drawn, Nat.ne_of_gt hpos, if_false, Nat.add_sub_cancel,
    List.getElem?_eq_getElem hlt, List.getElem?_eq_getElem hagain]
  split
  · exact ⟨_, List.getElem_mem _, rfl⟩
  · exact ⟨_, List.getElem_mem _, rfl⟩

theorem mem_of_drawn {draw : Nat} (h : drawn pool same draw = some choice) : choice ∈ pool := by
  have hne : pool ≠ [] := by
    rintro rfl
    exact absurd h (by simp [drawn])
  obtain ⟨choice', hmem, h'⟩ := exists_drawn hne same draw
  obtain rfl := Option.some.inj (h.symm.trans h')
  exact hmem

/-- Only the names of the pool are compared. -/
theorem drawn_congr {same' : Ptr → Prop} [DecidablePred same']
    (h : ∀ co ∈ pool, same co ↔ same' co) (draw : Nat) :
    drawn pool same draw = drawn pool same' draw := by
  unfold drawn
  dsimp only
  split
  · rfl
  · split
    · rfl
    · next candidate hc => simp only [h candidate (List.mem_of_getElem? hc)]

/-- and it is `current` only if the pool has nothing else. -/
theorem eq_current_of_drawn (hn : pool.Nodup) (hsame : ∀ co ∈ pool, same co ↔ co = current)
    {draw : Nat} (h : drawn pool same draw = some choice) (hcur : choice = current) :
    ∀ co ∈ pool, co = current := by
  subst hcur
  have hpos : 0 < pool.length := by
    cases pool with
    | nil => exact absurd h (by simp [drawn])
    | cons _ _ => simp
  have hlt : draw % pool.length < pool.length := Nat.mod_lt _ hpos
  have hagain := indexAgain_lt hlt
  simp only [drawn, Nat.ne_of_gt hpos, if_false, Nat.add_sub_cancel,
    List.getElem?_eq_getElem hlt, List.getElem?_eq_getElem hagain] at h
  split at h
  · next hs =>
    have hfirst := (hsame _ (List.getElem_mem _)).mp hs
    have hplace : PoolRecords.indexAgain pool.length (draw % pool.length + 1) - 1 =
        draw % pool.length :=
      (hn.getElem_inj_iff).mp ((Option.some.inj h).trans hfirst.symm)
    by_cases hone : pool.length = 1
    · obtain ⟨a, rfl⟩ := List.length_eq_one_iff.mp hone
      intro co hco
      have ha : choice ∈ [a] := hfirst ▸ List.getElem_mem _
      rw [List.mem_singleton.mp hco, List.mem_singleton.mp ha]
    · exact absurd hplace (indexAgain_ne hlt hone)
  · next hs =>
    exact absurd ((hsame _ (List.getElem_mem _)).mpr (Option.some.inj h)) hs

end

/-! ### The pool in memory -/

namespace PoolRecords

/-- What holds between two calls: `l` is on `co_list`, and no `brother` link of it or of
the two static records is set. -/
structure Clean (m : PoolRecords) (l : List Ptr) : Prop where
  onList : m.OnList l
  nodup : (coListHead :: randPoolHead :: l).Nodup
  head : m.status coListHead = none
  brother : ∀ co ∈ coListHead :: randPoolHead :: l, m.brother co = none

/-- `pool` is on the list that hangs on `rand_pool`. -/
def OnPool (m : PoolRecords) (pool : List Ptr) : Prop :=
  Linked m.brother (some randPoolHead) (randPoolHead :: pool) none

section
variable {m : PoolRecords} {fuel : Nat} {o : Option Ptr} {a co candidate current : Ptr}
  {l pool rest : List Ptr}

theorem randPoolAppend_eq (h : m.OnPool pool) (hn : (randPoolHead :: (pool ++ [co])).Nodup)
    (hco : m.brother co = none) (hf : pool.length < fuel) :
    ∃ b, m.randPoolAppend fuel randPoolHead co = some { m with brother := b } ∧
      Linked b (some randPoolHead) (randPoolHead :: (pool ++ [co])) none ∧
      ∀ p, p ∉ randPoolHead :: pool → b p = m.brother p := by
  obtain ⟨pre, last, hpre⟩ :=
    (List.eq_nil_or_concat' (randPoolHead :: pool)).resolve_left (List.cons_ne_nil _ _)
  have hlen : pre.length < fuel := by
    have := congrArg List.length hpre
    simp only [List.length_cons, List.length_append, List.length_nil] at this
    omega
  have hlast : Linked m.brother (some randPoolHead) (pre ++ [last]) none := hpre ▸ h
  have hend : m.byBrother.listEnd fuel randPoolHead = some last :=
    Records.listEnd_eq (m := m.byBrother) hlast hlen
  have happ : randPoolHead :: (pool ++ [co]) = pre ++ [last, co] := by
    rw [← List.cons_append, hpre, List.append_assoc, List.singleton_append]
  refine ⟨_, by rw [randPoolAppend, hend]; rfl, ?_, ?_⟩
  · rw [happ]
    exact hlast.snoc (happ ▸ hn) hco
  · intro p hp
    refine Function.update_of_ne ?_ ..
    rintro rfl
    exact hp (hpre ▸ by simp)

/-- The pool holds the eligible coroutines in the order of the list. -/
theorem fillPool_eq (h : Linked m.next o rest none) (hp : m.OnPool pool)
    (hn : (randPoolHead :: (pool ++ rest)).Nodup) (hb : ∀ co ∈ rest, m.brother co = none)
    (hf : pool.length + 2 * rest.length < fuel) :
    ∃ b, m.fillPool fuel o pool.length =
        some ({ m with brother := b }, (pool ++ rest.filter m.eligible).length) ∧
      Linked b (some randPoolHead) (randPoolHead :: (pool ++ rest.filter m.eligible)) none ∧
      ∀ p, p ∉ randPoolHead :: (pool ++ rest.filter m.eligible) → b p = m.brother p := by
  induction rest generalizing m o pool fuel with
  | nil =>
      obtain ⟨fuel, rfl⟩ := Nat.exists_eq_add_of_lt hf
      obtain rfl := linked_nil.mp h
      refine ⟨m.brother, ?_, ?_, fun p _ => rfl⟩
      · rw [fillPool, List.filter_nil, List.append_nil]
      · rw [List.filter_nil, List.append_nil]
        exact hp
  | cons a rest ih =>
      obtain ⟨rfl, hrest⟩ := linked_cons.mp h
      rw [List.length_cons] at hf
      cases fuel with
      | zero => exact absurd hf (by omega)
      | succ fuel =>
      have hnext : (pool ++ a :: rest) = pool ++ [a] ++ rest := by simp
      rw [fillPool]
      by_cases ha : m.eligible a = true
      · have hna : (randPoolHead :: (pool ++ [a])).Nodup := by
          rw [hnext, ← List.cons_append] at hn
          exact (List.nodup_append.mp hn).1
        have hroom : pool.length < fuel := by omega
        obtain ⟨b, happ, hlink, hframe⟩ :=
          randPoolAppend_eq hp hna (hb a List.mem_cons_self) hroom
        have hbrest : ∀ co ∈ rest, b co = none := by
          intro co hco
          rw [hframe co, hb co (List.mem_cons_of_mem a hco)]
          rw [← List.cons_append] at hn
          intro hmem
          exact (List.nodup_append.mp hn).2.2 co hmem co (List.mem_cons_of_mem a hco) rfl
        have hroom' : (pool ++ [a]).length + 2 * rest.length < fuel := by
          rw [List.length_append, List.length_singleton]
          omega
        obtain ⟨b', hfill, hlink', hframe'⟩ :=
          ih (m := { m with brother := b }) hrest hlink (hnext ▸ hn) hbrest hroom'
        have hpool : pool ++ (a :: rest).filter m.eligible =
            pool ++ [a] ++ rest.filter m.eligible := by
          simp [List.filter_cons_of_pos ha]
        rw [hpool]
        refine ⟨b', ?_, hlink', fun p hp' => ?_⟩
        · rw [if_pos ha, happ]
          rw [List.length_append] at hfill
          exact hfill
        · rw [hframe' p hp']
          refine hframe p fun hmem => hp' ?_
          rw [← List.cons_append, ← List.cons_append]
          exact List.mem_append_left _ (List.mem_append_left _ hmem)
      · rw [if_neg ha, List.filter_cons_of_neg ha]
        refine ih hrest hp ?_ (fun co hco => hb co (List.mem_cons_of_mem a hco)) (by omega)
        exact hn.sublist (by simp)

/-- `index` links lead to the place `index` of the pool. -/
theorem follow_eq {index : Nat} (h : Linked m.brother (some a) (a :: pool) none) :
    m.follow index a = (a :: pool)[index]? := by
  induction index generalizing a pool with
  | zero => rfl
  | succ index ih =>
      cases pool with
      | nil => simp [follow, show m.brother a = none from h.2]
      | cons b pool =>
          have hb : m.brother a = some b := h.2.1
          simp only [follow, hb, List.getElem?_cons_succ]
          exact ih (hb ▸ h.2)

/-- The last loop sets every link of the pool back to NULL, and no other. -/
theorem clearPool_eq (h : Linked m.brother (some a) (a :: pool) none) (hn : (a :: pool).Nodup)
    (hf : pool.length < fuel) :
    m.clearPool fuel a =
      some { m with brother := fun p => if p ∈ a :: pool then none else m.brother p } := by
  induction pool generalizing m a fuel with
  | nil =>
      obtain ⟨fuel, rfl⟩ := Nat.exists_eq_add_of_lt hf
      have hend : m.brother a = none := h.2
      have hsame : (fun p => if p ∈ [a] then none else m.brother p) = m.brother := by
        funext p
        by_cases hp : p = a
        · simp [hp, hend]
        · simp [hp]
      rw [clearPool, hend, hsame]
  | cons b pool ih =>
      cases fuel with
      | zero => exact absurd hf (by simp)
      | succ fuel =>
          have hb : m.brother a = some b := h.2.1
          obtain ⟨ha, hn⟩ := List.nodup_cons.mp hn
          have hrest : Linked (m.setBrother a none).brother (some b) (b :: pool) none :=
            (linked_update ha).mpr (hb ▸ h.2)
          simp only [clearPool, hb]
          rw [ih hrest hn (by simpa using hf)]
          congr 2
          funext p
          by_cases hp : p = a
          · subst hp
            simp
          · simp [hp]

/-- The last part of `rand_choose`: the record `rand_pool`, and then the loop. -/
theorem clearAll_eq (h : m.OnPool pool) (hn : (randPoolHead :: pool).Nodup) (hpool : pool ≠ [])
    (hf : pool.length ≤ fuel) :
    (m.brother randPoolHead).bind ((m.setBrother randPoolHead none).clearPool fuel) =
      some { m with
        brother := fun p => if p ∈ randPoolHead :: pool then none else m.brother p } := by
  cases pool with
  | nil => exact absurd rfl hpool
  | cons a pool =>
      have ha : m.brother randPoolHead = some a := h.2.1
      obtain ⟨hhead, hn⟩ := List.nodup_cons.mp hn
      have hrest : Linked (m.setBrother randPoolHead none).brother (some a) (a :: pool) none :=
        (linked_update hhead).mpr (ha ▸ h.2)
      rw [ha, Option.bind_some, clearPool_eq hrest hn hf]
      congr 2
      funext p
      by_cases hp : p = randPoolHead
      · subst hp
        simp
      · simp [hp]

/-- Only the two static records are without a name. -/
theorem sameNames_eq (ha : a ∉ [coListHead, randPoolHead])
    (hb : co ∉ [coListHead, randPoolHead]) :
    m.sameNames a co = some (decide (m.name a = m.name co)) := by
  rw [sameNames, if_neg (not_or.mpr ⟨ha, hb⟩)]

/-- The place of a draw, counted from `rand_pool`, is its place in the pool. -/
theorem follow_onPool (h : m.OnPool pool) {index : Nat} (hpos : 0 < index) :
    m.follow index randPoolHead = pool[index - 1]? := by
  obtain ⟨i, rfl⟩ := Nat.exists_eq_add_of_lt hpos
  rw [follow_eq h, Nat.zero_add, List.getElem?_cons_succ, Nat.add_sub_cancel]

theorem indexAgain_pos {count i : Nat} (h : i < count) : 0 < indexAgain count (i + 1) := by
  unfold indexAgain
  split <;> omega

/-- `m'` is `m` but for the links that hang `pool` on `rand_pool`. -/
structure Pooled (m m' : PoolRecords) (pool : List Ptr) : Prop where
  records : m'.toRecords = m.toRecords
  status : m'.status = m.status
  onPool : m'.OnPool pool
  frame : ∀ p, p ∉ randPoolHead :: pool → m'.brother p = m.brother p

/-- A coroutine of the list is none of the static records. -/
theorem Clean.not_static (h : m.Clean l) (hco : co ∈ l) : co ∉ [coListHead, randPoolHead] := by
  intro hbad
  rw [List.mem_cons, List.mem_singleton] at hbad
  rcases hbad with rfl | rfl
  · exact (List.nodup_cons.mp h.nodup).1 (List.mem_cons_of_mem _ hco)
  · exact (List.nodup_cons.mp (List.nodup_cons.mp h.nodup).2).1 hco

/-- The first loop, on a memory between two calls. -/
theorem Clean.fillPool_eq (h : m.Clean l) (hf : 2 * l.length + 2 < fuel) :
    ∃ m', m.fillPool fuel (some coListHead) 0 = some (m', (l.filter m.eligible).length) ∧
      m.Pooled m' (l.filter m.eligible) := by
  have hhead : (coListHead :: l).filter m.eligible = l.filter m.eligible :=
    List.filter_cons_of_neg (by simp [eligible, h.head])
  have hn : (randPoolHead :: ([] ++ coListHead :: l)).Nodup :=
    (List.Perm.swap coListHead randPoolHead l).nodup_iff.mpr h.nodup
  have hb : ∀ co ∈ coListHead :: l, m.brother co = none := by
    intro co hco
    refine h.brother co ?_
    rcases List.mem_cons.mp hco with rfl | hco
    · exact List.mem_cons_self
    · exact List.mem_cons_of_mem _ (List.mem_cons_of_mem _ hco)
  have hempty : m.OnPool [] := ⟨rfl, h.brother randPoolHead (by simp)⟩
  have hroom : ([] : List Ptr).length + 2 * (coListHead :: l).length < fuel := by
    rw [List.length_nil, List.length_cons]
    omega
  obtain ⟨b, hfill, hlink, hframe⟩ :=
    PoolRecords.fillPool_eq (Records.onList_iff.mp h.onList) hempty hn hb hroom
  rw [List.nil_append, hhead] at hfill hlink hframe
  exact ⟨_, hfill, rfl, rfl, hlink, hframe⟩

/-- Once the links of the pool are taken back, only the choice is left in memory. -/
theorem Pooled.setBrother_eq {m' : PoolRecords} (h : m.Pooled m' pool)
    (hb : ∀ co ∈ randPoolHead :: pool, m.brother co = none)
    (hcand : candidate ∉ randPoolHead :: pool) (t : Option Ptr) :
    { m'.setBrother candidate t with
        brother := fun p => if p ∈ randPoolHead :: pool then none
          else (m'.setBrother candidate t).brother p } = m.setBrother candidate t := by
  cases m with
  | mk r st br =>
  cases m' with
  | mk r' st' br' =>
  obtain rfl : r' = r := h.records
  obtain rfl : st' = st := h.status
  simp only [setBrother, mk.injEq, true_and]
  funext p
  by_cases hp : p = candidate
  · subst hp
    rw [if_neg hcand, Function.update_self, Function.update_self]
  · rw [Function.update_of_ne hp, Function.update_of_ne hp]
    split
    · next hmem => exact (hb p hmem).symm
    · next hmem => exact h.frame p hmem

/-- What `rand_choose` does to the memory: it stores its choice. -/
theorem randChoose_eq (h : m.Clean l) (hcand : candidate ∉ coListHead :: randPoolHead :: l)
    (hcur : current ∉ [coListHead, randPoolHead]) (hel : ∃ co ∈ l, m.eligible co = true)
    (draw : Nat) (hf : 2 * l.length + 2 < fuel) :
    ∃ choice, drawn (l.filter m.eligible) (fun co => m.name co = m.name current) draw =
        some choice ∧
      m.randChoose fuel candidate current draw = some (m.setBrother candidate (some choice)) := by
  obtain ⟨m', hfill, hm'⟩ := h.fillPool_eq hf
  have hsub : (randPoolHead :: l.filter m.eligible).Sublist (randPoolHead :: l) :=
    List.filter_sublist.cons_cons _
  have hne : l.filter m.eligible ≠ [] := by
    obtain ⟨co, hco, helco⟩ := hel
    exact List.ne_nil_of_mem (List.mem_filter.mpr ⟨hco, helco⟩)
  have hlen : (l.filter m.eligible).length ≤ l.length := List.length_filter_le ..
  have hmem : ∀ co ∈ l.filter m.eligible, co ∉ [coListHead, randPoolHead] :=
    fun co hco => h.not_static (List.mem_of_mem_filter hco)
  generalize l.filter m.eligible = pool at *
  have hcpool : candidate ∉ randPoolHead :: pool :=
    fun hmem => hcand (List.mem_cons_of_mem _ (hsub.subset hmem))
  -- a store into `candidate->brother` is not seen from the pool
  have hon : ∀ t, (m'.setBrother candidate t).OnPool pool :=
    fun t => (linked_update hcpool).mpr hm'.onPool
  have hpos : 0 < pool.length := List.length_pos_iff.mpr hne
  have hlt : draw % pool.length < pool.length := Nat.mod_lt _ hpos
  obtain ⟨first, hfirst⟩ : ∃ first, pool[draw % pool.length]? = some first :=
    ⟨_, List.getElem?_eq_getElem hlt⟩
  obtain ⟨choice, -, hdraw⟩ :=
    exists_drawn hne (fun co => m.name co = m.name current) draw
  have hwalk : m'.follow (draw % pool.length + 1) randPoolHead = some first := by
    rw [follow_onPool hm'.onPool (Nat.succ_pos _)]
    exact hfirst
  have hsame : (m'.setBrother candidate (some first)).sameNames first current =
      some (decide (m.name first = m.name current)) := by
    rw [sameNames_eq (hmem _ (List.mem_of_getElem? hfirst)) hcur, setBrother_toRecords,
      hm'.records]
  have hagain : (m'.setBrother candidate (some first)).drawAgain
      (decide (m.name first = m.name current)) first pool.length (draw % pool.length + 1) =
      some choice := by
    rw [drawAgain, follow_onPool (hon _) (indexAgain_pos hlt), ← hdraw]
    simp only [drawn, Nat.ne_of_gt hpos, if_false, Nat.add_sub_cancel, hfirst,
      decide_eq_true_eq]
  have htwice : (m'.setBrother candidate (some first)).setBrother candidate (some choice) =
      m'.setBrother candidate (some choice) := by
    simp [setBrother]
  refine ⟨choice, hdraw, ?_⟩
  simp only [randChoose, hfill, Option.bind_eq_bind, Option.bind_some, Nat.ne_of_gt hpos,
    if_false, hwalk, hsame, hagain, htwice]
  rw [clearAll_eq (hon (some choice)) (h.nodup.of_cons.sublist hsub) hne (by omega),
    hm'.setBrother_eq (fun co hco => h.brother co (List.mem_cons_of_mem _ (hsub.subset hco)))
      hcpool]

/-! ### The list of the machine -/

/-- The memory `m` holds the list of the machine state `s`, with names and statuses. -/
structure Holds (m : PoolRecords) (s : State) : Prop where
  clean : m.Clean s.coList
  name : ∀ co, co ∉ [coListHead, randPoolHead] → m.name co = (s.heap co).name
  status : ∀ co ∈ s.coList, m.status co = some (s.heap co).status

/-- `rand_choose` stores what the machine draws, and changes nothing else. -/
theorem randChoose_refines {s : State} (h : m.Holds s)
    (hcand : candidate ∉ coListHead :: randPoolHead :: s.coList)
    (hcur : current ∉ [coListHead, randPoolHead])
    (hel : ∃ co ∈ s.coList, s.eligible co = true) (draw : Nat) :
    ∃ choice, Libco.randChoose s draw current = some choice ∧
      ∀ fuel, 2 * s.coList.length + 2 < fuel →
        m.randChoose fuel candidate current draw = some (m.setBrother candidate (some choice)) := by
  have heligible : ∀ co ∈ s.coList, m.eligible co = s.eligible co := by
    intro co hco
    simp [eligible, State.eligible, h.status co hco]
  have hel' : ∃ co ∈ s.coList, m.eligible co = true := by
    obtain ⟨co, hco, hst⟩ := hel
    exact ⟨co, hco, (heligible co hco).trans hst⟩
  have hdrawn : drawn (s.coList.filter m.eligible) (fun co => m.name co = m.name current) draw =
      Libco.randChoose s draw current := by
    rw [randChoose_eq_drawn, List.filter_congr heligible]
    refine drawn_congr (fun co hco => ?_) draw
    rw [h.name co (h.clean.not_static (List.mem_of_mem_filter hco)), h.name current hcur]
  obtain ⟨choice, hchoice, -⟩ := randChoose_eq h.clean hcand hcur hel' draw (Nat.lt_succ_self _)
  refine ⟨choice, hdrawn ▸ hchoice, fun fuel hf => ?_⟩
  obtain ⟨choice', hchoice', hrun⟩ := randChoose_eq h.clean hcand hcur hel' draw hf
  obtain rfl := Option.some.inj (hchoice'.symm.trans hchoice)
  exact hrun

/-- `rand_choose` returns with an eligible coroutine of the list in `candidate->brother`,
and not with the caller unless nobody else is eligible. -/
theorem rand_choose_stores_eligible (h : m.Clean l)
    (hcand : candidate ∉ coListHead :: randPoolHead :: l)
    (hcur : current ∉ [coListHead, randPoolHead]) (hnames : (l.map m.name).Nodup)
    (hel : ∃ co ∈ l, m.eligible co = true) (draw : Nat) :
    ∃ choice,
      (∀ fuel, 2 * l.length + 2 < fuel → m.randChoose fuel candidate current draw =
        some (m.setBrother candidate (some choice))) ∧
      choice ∈ l ∧ (m.status choice = some .new ∨ m.status choice = some .waiting) ∧
      (choice = current → ∀ co ∈ l, m.eligible co = true → co = current) := by
  obtain ⟨choice, hdrawn, -⟩ := randChoose_eq h hcand hcur hel draw (Nat.lt_succ_self _)
  obtain ⟨hl, hst⟩ := List.mem_filter.mp (mem_of_drawn hdrawn)
  refine ⟨choice, fun fuel hf => ?_, hl, by simpa [eligible] using hst, fun hcur' => ?_⟩
  · obtain ⟨choice', hdrawn', hrun⟩ := randChoose_eq h hcand hcur hel draw hf
    obtain rfl := Option.some.inj (hdrawn'.symm.trans hdrawn)
    exact hrun
  · have hinj := List.inj_on_of_nodup_map hnames
    have hsame : ∀ co ∈ l.filter m.eligible, m.name co = m.name current ↔ co = current := by
      intro co hco
      refine ⟨?_, ?_⟩
      · intro heq
        exact hinj (List.mem_of_mem_filter hco) (hcur' ▸ hl) heq
      · intro heq
        rw [heq]
    intro co hco helco
    exact eq_current_of_drawn ((List.nodup_cons.mp
      (List.nodup_cons.mp h.nodup).2).2.filter _) hsame hdrawn hcur' co
      (List.mem_filter.mpr ⟨hco, helco⟩)

end

/-- Two waiting coroutines "a" and "b" at 2 and 3. -/
def twoWaiting : PoolRecords where
  name := Function.update (Function.update (fun _ => "") 2 "a") 3 "b"
  next := Function.update (Function.update (fun _ => none) 0 (some 2)) 2 (some 3)
  status := Function.update (Function.update (fun _ => none) 2 (some .waiting)) 3 (some .waiting)
  brother _ := none

theorem twoWaiting_clean : twoWaiting.Clean [2, 3] where
  onList := by simp [Records.OnList, twoWaiting, coListHead]
  nodup := by decide
  head := by decide
  brother := fun _ _ => rfl

/-- "a" draws itself, and takes the other one. -/
theorem rand_choose_stores_eligible_two :
    ∃ choice,
      (∀ fuel, 6 < fuel → twoWaiting.randChoose fuel 4 2 0 =
        some (twoWaiting.setBrother 4 (some choice))) ∧
      choice ∈ [2, 3] ∧
      (twoWaiting.status choice = some .new ∨ twoWaiting.status choice = some .waiting) ∧
      (choice = 2 → ∀ co ∈ [2, 3], twoWaiting.eligible co = true → co = 2) :=
  rand_choose_stores_eligible twoWaiting_clean (by decide) (by decide) (by decide)
    ⟨2, by decide⟩ 0

end PoolRecords

end OsLabs.Libco
