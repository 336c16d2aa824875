import Mathlib.Data.Finset.Card
import Mathlib.Data.Finset.Dedup
import OsLabs.Pstree.Proc

/-!
# OsLabs.Pstree.Users

`uid2user` of `tree/pstree_source_code.c`, over the calls that are made for all processes.

It keeps the names of the first 128 users in a cache, cut to 8 characters, and gives the
name to the caller with up to 31. So a long name is longer the first time than later
(`names_entries`), and with the option `-u` only the first process of such a user matches.
-/

namespace OsLabs.Pstree

/-- `struct un_`. -/
structure Un where
  uid : UInt32
  name : Text

/-- `NUMUN`. -/
def numun : Nat := 128

/-- `%d`. -/
def decimal (n : Int) : Text :=
  if n < 0 then '-' :: Nat.toDigits 10 n.natAbs else Nat.toDigits 10 n.natAbs

/-- `strncpy` to a buffer of `len` bytes, with a NUL for the last of them. -/
def strncpy (len : Nat) (s : Text) : Text := s.take (len - 1)

section
variable (getpwuid : UInt32 → Option Text)

/-- The name that is looked up. -/
def lookup (uid : UInt32) : Text :=
  match getpwuid uid with
  | some name => name
  | none => snprintf 32 ('#' :: decimal uid.toInt32.toInt)

/-- `uid2user(uid, name, len)`: the name, and the cache afterwards. -/
def uid2user (un : List Un) (uid : UInt32) (len : Nat) : Text × List Un :=
  -- the loop over the cache begins at its end
  match un.reverse.find? fun entry => entry.uid = uid with
  | some entry => (strncpy len entry.name, un)
  | none =>
      let found := lookup getpwuid uid
      (strncpy len found,
        if un.length < numun then un ++ [{ uid := uid, name := strncpy 9 found }] else un)

/-- The cache after some calls. -/
def cacheAfter (uids : List UInt32) : List Un :=
  uids.foldl (fun un uid => (uid2user getpwuid un uid 32).2) []

/-- The processes with the names of their users, as they are read one after the other. -/
def nameEntries (un : List Un) : List Entry → List Entry
  | [] => []
  | e :: l =>
      let r := uid2user getpwuid un (UInt32.ofInt e.uid) 32
      { e with name := r.1 } :: nameEntries r.2 l

end

/-- When the user was first asked for, there was room in the cache. -/
def Cached (uids : List UInt32) (u : UInt32) : Prop :=
  ∃ before after, uids = before ++ u :: after ∧ u ∉ before ∧ before.toFinset.card < numun

section
variable {getpwuid : UInt32 → Option Text} {uids : List UInt32} {u w : UInt32}

theorem Cached.mem (h : Cached uids u) : u ∈ uids := by
  obtain ⟨before, after, rfl, -, -⟩ := h
  simp

/-- Another call. -/
theorem cached_concat : Cached (uids ++ [w]) u ↔
    Cached uids u ∨ (u = w ∧ u ∉ uids ∧ uids.toFinset.card < numun) := by
  refine ⟨?_, ?_⟩
  · intro h
    obtain ⟨before, after, heq, hmem, hcard⟩ := h
    rcases List.eq_nil_or_concat' after with rfl | ⟨rest, x, rfl⟩
    · obtain ⟨rfl, huw⟩ := List.append_inj' heq rfl
      obtain rfl : w = u := List.singleton_inj.mp huw
      exact .inr ⟨rfl, hmem, hcard⟩
    · rw [← List.cons_append, ← List.append_assoc] at heq
      obtain ⟨rfl, -⟩ := List.append_inj' heq rfl
      exact .inl ⟨before, rest, rfl, hmem, hcard⟩
  · intro h
    rcases h with ⟨before, after, rfl, hmem, hcard⟩ | ⟨rfl, hmem, hcard⟩
    · exact ⟨before, after ++ [w], by simp, hmem, hcard⟩
    · exact ⟨uids, [], rfl, hmem, hcard⟩

/-- As long as there is room, each user that was asked for is in the cache. -/
theorem cached_of_room (hcard : uids.toFinset.card < numun) (hu : u ∈ uids) : Cached uids u := by
  obtain ⟨before, after, rfl, hmem⟩ := List.eq_append_cons_of_mem hu
  refine ⟨before, after, rfl, hmem, Nat.lt_of_le_of_lt (Finset.card_le_card ?_) hcard⟩
  intro x hx
  rw [List.mem_toFinset] at hx ⊢
  exact List.mem_append_left _ hx

/-- What the cache holds after some calls. -/
structure CacheOf (getpwuid : UInt32 → Option Text) (uids : List UInt32) (un : List Un) :
    Prop where
  length : un.length = min numun uids.toFinset.card
  mem : ∀ u, (∃ entry ∈ un, entry.uid = u) ↔ Cached uids u
  name : ∀ entry ∈ un, entry.name = (lookup getpwuid entry.uid).take 8

theorem card_concat : (uids ++ [w]).toFinset.card =
    if w ∈ uids then uids.toFinset.card else uids.toFinset.card + 1 := by
  have heq : (uids ++ [w]).toFinset = insert w uids.toFinset := by
    ext x
    simp
  rw [heq]
  split
  · next hw => rw [Finset.insert_eq_of_mem (List.mem_toFinset.mpr hw)]
  · next hw => rw [Finset.card_insert_of_notMem fun h => hw (List.mem_toFinset.mp h)]

/-- The search in the cache. -/
theorem find_cached {un : List Un} (h : CacheOf getpwuid uids un) :
    (∃ entry, un.reverse.find? (fun entry => entry.uid = u) = some entry ∧ Cached uids u ∧
        entry.name = (lookup getpwuid u).take 8) ∨
      (un.reverse.find? (fun entry => entry.uid = u) = none ∧ ¬ Cached uids u) := by
  cases hfind : un.reverse.find? fun entry => entry.uid = u with
  | some entry =>
      have hmem := List.mem_reverse.mp (List.mem_of_find?_eq_some hfind)
      have huid : entry.uid = u := by simpa using List.find?_some hfind
      refine .inl ⟨entry, rfl, (h.mem u).mp ⟨entry, hmem, huid⟩, ?_⟩
      rw [h.name entry hmem, huid]
  | none =>
      refine .inr ⟨rfl, fun hc => ?_⟩
      obtain ⟨entry, hmem, huid⟩ := (h.mem u).mpr hc
      have := List.find?_eq_none.mp hfind entry (List.mem_reverse.mpr hmem)
      simp [huid] at this

/-- A call keeps the cache as it should be. -/
theorem CacheOf.step {un : List Un} (h : CacheOf getpwuid uids un) :
    CacheOf getpwuid (uids ++ [w]) (uid2user getpwuid un w 32).2 := by
  rcases find_cached (u := w) h with ⟨entry, hfind, hc, -⟩ | ⟨hfind, hc⟩
  · have hw := hc.mem
    simp only [uid2user, hfind]
    refine { h with length := ?_, mem := fun u => ?_ }
    · rw [h.length, card_concat, if_pos hw]
    · rw [h.mem, cached_concat, or_iff_left]
      exact fun hu => hu.2.1 (hu.1 ▸ hw)
  · simp only [uid2user, hfind]
    split
    · next hroom =>
      have hcard : uids.toFinset.card < numun := by
        rw [h.length] at hroom
        omega
      have hw : w ∉ uids := fun hw => hc (cached_of_room hcard hw)
      constructor
      case length =>
        rw [List.length_append, List.length_singleton, h.length, card_concat, if_neg hw]
        omega
      case mem =>
        intro u
        rw [cached_concat, ← h.mem u]
        simp only [List.mem_append, List.mem_singleton]
        refine ⟨?_, ?_⟩
        · intro hu
          obtain ⟨entry, hmem | rfl, rfl⟩ := hu
          · exact .inl ⟨entry, hmem, rfl⟩
          · exact .inr ⟨rfl, hw, hcard⟩
        · intro hu
          rcases hu with ⟨entry, hmem, rfl⟩ | ⟨rfl, -, -⟩
          · exact ⟨entry, .inl hmem, rfl⟩
          · exact ⟨_, .inr rfl, rfl⟩
      case name =>
        intro entry hentry
        rcases List.mem_append.mp hentry with hmem | hmem
        · exact h.name entry hmem
        · rw [List.mem_singleton.mp hmem]
          rfl
    · next hfull =>
      have hcard : numun ≤ uids.toFinset.card := by
        rw [h.length] at hfull
        omega
      refine { h with length := ?_, mem := fun u => ?_ }
      · rw [h.length, card_concat]
        split <;> omega
      · rw [h.mem, cached_concat, or_iff_left]
        exact fun hu => Nat.not_lt.mpr hcard hu.2.2

theorem cacheOf_after (getpwuid : UInt32 → Option Text) (uids : List UInt32) :
    CacheOf getpwuid uids (cacheAfter getpwuid uids) := by
  induction uids using List.reverseRecOn with
  | nil =>
      refine ⟨rfl, fun u => ?_, fun entry h => absurd h List.not_mem_nil⟩
      refine ⟨fun h => ?_, fun h => absurd h.mem List.not_mem_nil⟩
      obtain ⟨entry, h, -⟩ := h
      exact absurd h List.not_mem_nil
  | append_singleton uids w ih =>
      rw [cacheAfter, List.foldl_append]
      exact ih.step

/-- The name that a call gives. -/
theorem uid2user_name (getpwuid : UInt32 → Option Text) (uids : List UInt32) (u : UInt32) :
    (Cached uids u → (uid2user getpwuid (cacheAfter getpwuid uids) u 32).1 =
      (lookup getpwuid u).take 8) ∧
    (¬ Cached uids u → (uid2user getpwuid (cacheAfter getpwuid uids) u 32).1 =
      (lookup getpwuid u).take 31) := by
  rcases find_cached (u := u) (cacheOf_after getpwuid uids) with
    ⟨entry, hfind, hc, hname⟩ | ⟨hfind, hc⟩
  · refine ⟨fun _ => ?_, fun hnot => absurd hc hnot⟩
    simp only [uid2user, hfind, strncpy, hname, List.take_take]
    rfl
  · refine ⟨fun hc' => absurd hc' hc, fun _ => ?_⟩
    simp only [uid2user, hfind, strncpy]

end

/-- The users of some processes. -/
def uidsOf (l : List Entry) : List UInt32 := l.map fun e => UInt32.ofInt e.uid

theorem getElem?_nameEntries (getpwuid : UInt32 → Option Text) (uids : List UInt32)
    {l : List Entry} {j : Nat} (hj : j < l.length) :
    (nameEntries getpwuid (cacheAfter getpwuid uids) l)[j]? =
      some { l[j] with name := (uid2user getpwuid
        (cacheAfter getpwuid (uids ++ uidsOf (l.take j))) (UInt32.ofInt l[j].uid) 32).1 } := by
  induction l generalizing uids j with
  | nil => exact absurd hj (Nat.not_lt_zero j)
  | cons e l ih =>
      cases j with
      | zero => simp [nameEntries, uidsOf]
      | succ j =>
          have hnext : (uid2user getpwuid (cacheAfter getpwuid uids) (UInt32.ofInt e.uid) 32).2 =
              cacheAfter getpwuid (uids ++ [UInt32.ofInt e.uid]) := by
            simp [cacheAfter, List.foldl_append]
          rw [nameEntries, List.getElem?_cons_succ, hnext, ih _ (by simpa using hj)]
          simp [uidsOf]

/-- The names of the processes, for any list of them. That of a user who had been asked for
before, when there was room in the cache, is cut to 8 characters, and else to 31. So a
process does not match the option `-u` with a longer name, unless it is the first one of
its user. -/
theorem names_entries (getpwuid : UInt32 → Option Text) (l : List Entry) (j : Nat) (e : Entry)
    (he : l[j]? = some e) :
    ∃ named, (nameEntries getpwuid [] l)[j]? = some named ∧ { named with name := e.name } = e ∧
      (¬ Cached (uidsOf (l.take j)) (UInt32.ofInt e.uid) →
        named.name = (lookup getpwuid (UInt32.ofInt e.uid)).take 31) ∧
      (Cached (uidsOf (l.take j)) (UInt32.ofInt e.uid) →
        named.name = (lookup getpwuid (UInt32.ofInt e.uid)).take 8 ∧
        ∀ (o : Options) (myPid : Int), 8 < o.name.length → o.uoption = false →
          o.soption = false → e.pid ≠ o.ipid → ¬ Table.Matches o myPid named.proc) := by
  obtain ⟨hj, rfl⟩ := List.getElem?_eq_some_iff.mp he
  have hget := getElem?_nameEntries getpwuid [] hj
  have hname := uid2user_name getpwuid (uidsOf (l.take j)) (UInt32.ofInt l[j].uid)
  refine ⟨_, hget, rfl, hname.2, fun hc => ⟨hname.1 hc, ?_⟩⟩
  intro o myPid hlong hU hs hpid hmatch
  simp only [Table.Matches, hU, hs, Bool.false_eq_true, false_and, or_false, false_or] at hmatch
  rcases hmatch with hmatch | hmatch
  · have hlen := congrArg List.length ((hname.1 hc).symm.trans hmatch)
    rw [List.length_take] at hlen
    omega
  · exact hpid hmatch

theorem names_entries_threeProcs :
    ∃ named, (nameEntries (fun _ => some ['u', 's', 'e', 'r']) [] threeProcs)[2]? = some named ∧
      { named with name := ['a'] } = threeProcs[2] ∧
      (¬ Cached (uidsOf (threeProcs.take 2)) (UInt32.ofInt 7) →
        named.name = ['u', 's', 'e', 'r'].take 31) ∧
      (Cached (uidsOf (threeProcs.take 2)) (UInt32.ofInt 7) →
        named.name = ['u', 's', 'e', 'r'].take 8 ∧
        ∀ (o : Options) (myPid : Int), 8 < o.name.length → o.uoption = false →
          o.soption = false → 21 ≠ o.ipid → ¬ Table.Matches o myPid named.proc) :=
  names_entries (fun _ => some ['u', 's', 'e', 'r']) threeProcs 2 threeProcs[2] rfl

end OsLabs.Pstree
