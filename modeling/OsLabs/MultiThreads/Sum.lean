import Mathlib.Data.List.Perm.Basic
import Mathlib.Data.List.Count
import Mathlib.Data.List.Induction
import Mathlib.Tactic.Ring
import OsLabs.LostUpdates
import OsLabs.Transition

/-!
# OsLabs.MultiThreads.Sum

`multi-threads/sum.c` and `multi-threads/sum-atomic.c`: threads that add 1 to one number so
many times each, with `create` and `join` of `threads.h`. `main` creates them while the first
ones already run; when it has returned, `join_all` waits for them, the last one first, and
then the number is printed.

An `addq` to memory reads and writes in two accesses, between which other CPUs have theirs;
with the prefix `lock` they have not. Without it the threads are those of
`OsLabs.LostUpdates`, and the number that is printed can be any from two on to the right
one, and no other (`sum_printed_iff`). With it, it is the right one (`sum_atomic_printed_iff`).
-/

namespace OsLabs.MultiThreads.Sum

open LostUpdates (inTurn)

/-- A program: how many threads and rounds, and is `PREFIX` the one of `sum-atomic.c`? -/
structure Program where
  nthreads : Nat
  rounds : Nat
  lockPrefix : Bool

/-- Where the main thread is. -/
inductive Main
  /-- `main`: so many threads were created. -/
  | create (i : Nat)
  /-- `join_all`, with the list `threads`. -/
  | joinAll (threads : List Nat)
  /-- `print` was called. -/
  | ended
  deriving DecidableEq, Repr

/-- The number with the accesses of the threads to it, and what was printed. -/
structure State where
  main : Main
  sum : LostUpdates.State Nat
  printed : Option Int

/-- Who takes a step. -/
inductive Act
  | main
  | thread (t : Nat)
  deriving DecidableEq, Repr

/-- The accesses of an instruction of the thread `t`, with nothing in between. -/
def Program.accesses (p : Program) (t : Nat) : List Nat := if p.lockPrefix then [t, t] else [t]

/-- So many threads were created. -/
def State.created (p : Program) (s : State) : Nat :=
  match s.main with
  | .create i => i
  | _ => p.nthreads

/-- `%ld` of `sum`. -/
def toLong (x : Nat) : Int := (x : Int).bmod (2 ^ 64)

/-- A step. A thread in `do_sum` has made two accesses in each round. -/
def step (p : Program) (s : State) : Act → Option State
  | .main =>
      match s.main with
      | .create i =>
          if i < p.nthreads then some { s with main := .create (i + 1) }
          else some { s with main := .joinAll (List.range p.nthreads).reverse }
      | .joinAll (t :: threads) =>
          if s.sum.done t = 2 * p.rounds then some { s with main := .joinAll threads } else none
      | .joinAll [] => some { s with main := .ended, printed := some (toLong s.sum.x) }
      | .ended => none
  | .thread t =>
      if t < s.created p ∧ s.sum.done t < 2 * p.rounds then
        some { s with sum := LostUpdates.run s.sum (p.accesses t) }
      else
        none

/-- The start of `main`. -/
def State.init : State where
  main := .create 0
  sum := .init
  printed := none

/-- The threads in any order. -/
def machine (p : Program) : System State Act where
  init s := s = State.init
  step s l s' := step p s l = some s'

/-! ### What holds in any run -/

/-- The accesses so far are `ids`. -/
structure Inv (p : Program) (s : State) (ids : List Nat) : Prop where
  sum : s.sum = LostUpdates.run .init ids
  le : ∀ t, ids.count t ≤ 2 * p.rounds
  fresh : ∀ t, s.created p ≤ t → ids.count t = 0
  created : s.created p ≤ p.nthreads
  /-- The threads that are not in the list any more have ended. -/
  joined : ∀ threads, s.main = .joinAll threads → ∀ t, t < p.nthreads → t ∉ threads →
    ids.count t = 2 * p.rounds
  ended : s.main = .ended → ∀ t, t < p.nthreads → ids.count t = 2 * p.rounds
  printed : ∀ v, s.printed = some v → s.main = .ended ∧ v = toLong s.sum.x
  /-- With the prefix nothing is lost. -/
  atomic : p.lockPrefix = true → 2 * s.sum.x = ids.length ∧ ∀ t, ids.count t % 2 = 0

section
variable {p : Program} {s s' : State} {l : Act} {ids : List Nat}

theorem done_run (t : Nat) : (LostUpdates.run .init ids).done t = ids.count t := by
  rw [LostUpdates.run_done]
  exact Nat.zero_add _

theorem count_accesses (p : Program) (t u : Nat) : (p.accesses t).count u =
    if t = u then (if p.lockPrefix then 2 else 1) else 0 := by
  rw [Program.accesses]
  by_cases h : t = u
  · subst h
    split <;> simp
  · split <;> simp [h]

/-- Both accesses of a locked instruction. -/
theorem run_pair {c : LostUpdates.State Nat} {t : Nat} (h : c.done t % 2 = 0) :
    (LostUpdates.run c [t, t]).x = c.x + 1 :=
  LostUpdates.run_replicate h 1

theorem inv_init (p : Program) : Inv p State.init [] := by
  constructor
  case sum => rfl
  case le => simp
  case fresh => simp
  case created => exact Nat.zero_le _
  case joined => simp [State.init]
  case ended => simp [State.init]
  case printed => simp [State.init]
  case atomic => simp [State.init, LostUpdates.State.init]

/-- A step of the main thread. -/
theorem Inv.main {m : Main} {printed : Option Int} (h : Inv p s ids)
    (hold : s.created p ≤ { s with main := m }.created p)
    (hle : { s with main := m }.created p ≤ p.nthreads)
    (hjoined : ∀ threads, m = .joinAll threads → ∀ t, t < p.nthreads → t ∉ threads →
      ids.count t = 2 * p.rounds)
    (hover : m = .ended → ∀ t, t < p.nthreads → ids.count t = 2 * p.rounds)
    (hprinted : ∀ v, printed = some v → m = .ended ∧ v = toLong s.sum.x) :
    Inv p { s with main := m, printed } ids := by
  constructor
  case sum => exact h.sum
  case le => exact h.le
  case fresh => exact fun t ht => h.fresh t (Nat.le_trans hold ht)
  case created => exact hle
  case joined => exact hjoined
  case ended => exact hover
  case printed => exact hprinted
  case atomic => exact h.atomic

theorem Inv.not_printed (h : Inv p s ids) (hmain : s.main ≠ .ended) (v : Int) :
    s.printed ≠ some v := fun hv => hmain (h.printed v hv).1

theorem inv_of_step (h : Inv p s ids) (hs : step p s l = some s') : ∃ ids', Inv p s' ids' := by
  cases l with
  | thread t =>
      rw [step] at hs
      split at hs
      · next hgo =>
        obtain ⟨hcreated, hdone⟩ := hgo
        obtain rfl := Option.some.inj hs
        rw [h.sum, done_run] at hdone
        have hcount : ∀ u, (ids ++ p.accesses t).count u =
            ids.count u + if t = u then (if p.lockPrefix then 2 else 1) else 0 := by
          intro u
          rw [List.count_append, count_accesses]
        refine ⟨ids ++ p.accesses t, ?_⟩
        constructor
        case sum => rw [LostUpdates.run_append, ← h.sum]
        case le =>
          intro u
          have hle := h.le u
          rw [hcount]
          split
          · next htu =>
            subst htu
            split
            · next hlock =>
              -- an even number of accesses, and not all of them
              have := (h.atomic hlock).2 t
              omega
            · omega
          · omega
        case fresh =>
          intro u hu
          have htu : t ≠ u := by
            rintro rfl
            exact absurd hcreated (Nat.not_lt.mpr hu)
          rw [hcount, if_neg htu, Nat.add_zero]
          exact h.fresh u hu
        case created => exact h.created
        case joined =>
          intro threads hmain u hu hnot
          have hall := h.joined threads hmain u hu hnot
          have htu : t ≠ u := by
            rintro rfl
            omega
          rw [hcount, if_neg htu, Nat.add_zero]
          exact hall
        case ended =>
          intro hmain u hu
          have hall := h.ended hmain u hu
          have htu : t ≠ u := by
            rintro rfl
            omega
          rw [hcount, if_neg htu, Nat.add_zero]
          exact hall
        case printed =>
          intro v hv
          obtain ⟨hmain, -⟩ := h.printed v hv
          -- no thread is left to run
          have hlt : t < p.nthreads := Nat.lt_of_lt_of_le hcreated h.created
          have := h.ended hmain t hlt
          omega
        case atomic =>
          intro hlock
          obtain ⟨hx, heven⟩ := h.atomic hlock
          have hevenDone : s.sum.done t % 2 = 0 := by
            rw [h.sum, done_run]
            exact heven t
          constructor
          · rw [List.length_append, Program.accesses, if_pos hlock, ← hx]
            show 2 * (LostUpdates.run s.sum [t, t]).x = 2 * s.sum.x + 2
            rw [run_pair hevenDone, Nat.mul_succ]
          · intro u
            have := heven u
            rw [hcount, if_pos hlock]
            split <;> omega
      · exact absurd hs (by simp)
  | main =>
      refine ⟨ids, ?_⟩
      rw [step] at hs
      split at hs
      · next i hmain =>
        have hcreated : s.created p = i := by rw [State.created, hmain]
        have hnot := h.not_printed (by simp [hmain])
        split at hs
        · next hlt =>
          obtain rfl := Option.some.inj hs
          exact h.main (hcreated ▸ Nat.le_succ i) hlt (by simp) (by simp)
            fun v hv => absurd hv (hnot v)
        · next hge =>
          obtain rfl := Option.some.inj hs
          apply h.main (m := .joinAll (List.range p.nthreads).reverse) h.created (Nat.le_refl _) _
            (by simp) fun v hv => absurd hv (hnot v)
          -- the list is that of all threads
          intro threads hthreads t ht hmem
          obtain rfl := Main.joinAll.inj hthreads
          exact absurd (by simpa using ht) hmem
      · next t threads hmain =>
        have hnot := h.not_printed (by simp [hmain])
        split at hs
        · next hdone =>
          obtain rfl := Option.some.inj hs
          apply h.main (m := .joinAll threads) h.created (Nat.le_refl _) _ (by simp)
            fun v hv => absurd hv (hnot v)
          intro threads' hthreads u hu hmem
          obtain rfl := Main.joinAll.inj hthreads
          by_cases hut : u = t
          · rw [hut, ← done_run, ← h.sum]
            exact hdone
          · exact h.joined _ hmain u hu (by simp [hut, hmem])
        · exact absurd hs (by simp)
      · next hmain =>
        obtain rfl := Option.some.inj hs
        apply h.main (m := .ended) h.created (Nat.le_refl _) (by simp)
        · intro _ t ht
          exact h.joined [] hmain t ht List.not_mem_nil
        · intro v hv
          exact ⟨rfl, (Option.some.inj hv).symm⟩
      · exact absurd hs (by simp)

theorem inv_of_reachable (h : (machine p).Reachable s) : ∃ ids, Inv p s ids := by
  have hinv : (machine p).Invariant (fun _ _ => True) fun s => ∃ ids, Inv p s ids :=
    { init := by
        intro s hs
        subst hs
        exact ⟨[], inv_init p⟩
      step := by
        rintro s l s' ⟨ids, hI⟩ - hs
        exact inv_of_step hI hs }
  exact System.Run.invariant (I := fun s => ∃ ids, Inv p s ids) hinv h

/-- The accesses of all threads, in turn. -/
theorem perm_inTurn (hcount : ∀ t, t < p.nthreads → ids.count t = 2 * p.rounds)
    (hfresh : ∀ t, p.nthreads ≤ t → ids.count t = 0) :
    ids.Perm (inTurn (fun _ => p.rounds) (List.range p.nthreads)) := by
  rw [List.perm_iff_count]
  intro t
  rw [LostUpdates.count_inTurn _ List.nodup_range]
  by_cases ht : t < p.nthreads
  · rw [if_pos (List.mem_range.mpr ht), hcount t ht]
  · rw [if_neg (by simpa using ht), hfresh t (Nat.le_of_not_lt ht)]

theorem length_inTurn (n k : Nat) :
    (inTurn (fun _ => k) (List.range n)).length = 2 * (n * k) := by
  induction n with
  | zero => simp [inTurn]
  | succ n ih =>
      rw [inTurn] at ih ⊢
      rw [List.range_succ, List.flatMap_append, List.length_append, ih]
      simp
      ring

/-- When something was printed, every thread has made all its accesses. -/
theorem Inv.finished {v : Int} (h : Inv p s ids) (hv : s.printed = some v) :
    v = toLong s.sum.x ∧ ids.length = 2 * (p.nthreads * p.rounds) ∧
      ∀ t ∈ ids, ids.count t = 2 * p.rounds := by
  obtain ⟨hmain, hval⟩ := h.printed v hv
  have hall := h.ended hmain
  have hfresh : ∀ t, p.nthreads ≤ t → ids.count t = 0 := by
    intro t ht
    apply h.fresh t
    rw [State.created, hmain]
    exact ht
  refine ⟨hval, ?_, ?_⟩
  · rw [(perm_inTurn hall hfresh).length_eq, length_inTurn]
  · intro t ht
    apply hall t
    by_contra hge
    have := List.count_pos_iff.mpr ht
    rw [hfresh t (Nat.le_of_not_lt hge)] at this
    exact absurd this (Nat.lt_irrefl 0)

/-! ### What can happen -/

/-- `main` creates the threads before the first of them runs. -/
theorem created_reachable {i : Nat} (hi : i ≤ p.nthreads) :
    (machine p).Reachable { main := .create i, sum := .init, printed := none } := by
  induction i with
  | zero => exact .init rfl
  | succ i ih =>
      have hr := ih (by omega)
      apply hr.step (l := .main)
      show step p _ _ = _
      rw [step]
      exact if_pos hi

/-- Then they run in a given order, as far as it goes. -/
theorem threads_reachable (p : Program) (acts : List Nat)
    (hle : ∀ t, (acts.flatMap p.accesses).count t ≤ 2 * p.rounds)
    (hlt : ∀ t ∈ acts, t < p.nthreads) : (machine p).Reachable
      { main := .create p.nthreads, sum := LostUpdates.run .init (acts.flatMap p.accesses),
        printed := none } := by
  induction acts using List.reverseRecOn with
  | nil => exact created_reachable (Nat.le_refl _)
  | append_singleton acts t ih =>
      have hcount : ∀ u, ((acts ++ [t]).flatMap p.accesses).count u =
          (acts.flatMap p.accesses).count u + (p.accesses t).count u := by
        intro u
        rw [List.flatMap_append, List.count_append, List.flatMap_singleton]
      have hr := ih (fun u => by have := hle u; have := hcount u; omega)
        fun u hu => hlt u (List.mem_append_left _ hu)
      apply hr.step (l := .thread t)
      have hone : 1 ≤ (p.accesses t).count t := by
        rw [count_accesses, if_pos rfl]
        split <;> decide
      have hroom : (acts.flatMap p.accesses).count t < 2 * p.rounds := by
        have := hle t
        have := hcount t
        omega
      have hgo : t < p.nthreads ∧
          (LostUpdates.run .init (acts.flatMap p.accesses)).done t < 2 * p.rounds :=
        ⟨hlt t (by simp), by rwa [done_run]⟩
      show step p _ _ = _
      rw [step, List.flatMap_append, LostUpdates.run_append, List.flatMap_singleton]
      exact if_pos hgo

/-- All threads were created. -/
theorem join_reachable {c : LostUpdates.State Nat}
    (hr : (machine p).Reachable { main := .create p.nthreads, sum := c, printed := none }) :
    (machine p).Reachable
      { main := .joinAll (List.range p.nthreads).reverse, sum := c, printed := none } := by
  apply hr.step (l := .main)
  show step p _ _ = _
  rw [step]
  exact if_neg (Nat.lt_irrefl p.nthreads)

/-- `join_all`, when all threads have ended. -/
theorem joined_reachable {c : LostUpdates.State Nat} {threads : List Nat}
    (hr : (machine p).Reachable { main := .joinAll threads, sum := c, printed := none })
    (hdone : ∀ t ∈ threads, c.done t = 2 * p.rounds) :
    (machine p).Reachable { main := .ended, sum := c, printed := some (toLong c.x) } := by
  induction threads with
  | nil => exact hr.step (l := .main) rfl
  | cons t threads ih =>
      obtain ⟨ht, hdone⟩ := List.forall_mem_cons.mp hdone
      apply ih _ hdone
      apply hr.step (l := .main)
      show step p _ _ = _
      rw [step]
      exact if_pos ht

/-- Any order in which every thread makes all its accesses leads to a print. -/
theorem printed_reachable (p : Program) (acts : List Nat)
    (hcount : ∀ t, (acts.flatMap p.accesses).count t = if t < p.nthreads then 2 * p.rounds else 0)
    (hlt : ∀ t ∈ acts, t < p.nthreads) :
    ∃ s, (machine p).Reachable s ∧
      s.printed = some (toLong (LostUpdates.run .init (acts.flatMap p.accesses)).x) := by
  have hle : ∀ t, (acts.flatMap p.accesses).count t ≤ 2 * p.rounds := by
    intro t
    rw [hcount t]
    split <;> omega
  have hjoin := join_reachable (threads_reachable p acts hle hlt)
  have hover := joined_reachable hjoin fun t ht => by
    rw [done_run, hcount, if_pos (by simpa using ht)]
  exact ⟨_, hover, rfl⟩

/-- A number that fits is printed as it is. -/
theorem toLong_eq {x : Nat} (h : x < 2 ^ 63) : toLong x = x := by
  have hfits : x < 9223372036854775808 := h
  apply Int.bmod_eq_of_le_mul_two
  · show -18446744073709551616 ≤ (x : Int) * 2
    omega
  · show (x : Int) * 2 < 18446744073709551616
    omega

end

/-- What `sum.c` prints, with at least two threads and two rounds: it may print any number from
two to the number of all increments, and it prints no other. -/
theorem sum_printed_iff {n k : Nat} (hn : 2 ≤ n) (hk : 2 ≤ k) (hfits : n * k < 2 ^ 63) (v : Int) :
    (∃ s, (machine { nthreads := n, rounds := k, lockPrefix := false }).Reachable s ∧
      s.printed = some v) ↔ 2 ≤ v ∧ v ≤ (n * k : Nat) := by
  have hlong : ∀ x : Nat, x ≤ n * k → toLong x = x :=
    fun x hx => toLong_eq (Nat.lt_of_le_of_lt hx hfits)
  clear hfits
  constructor
  · rintro ⟨s, hs, hv⟩
    obtain ⟨ids, hI⟩ := inv_of_reachable hs
    obtain ⟨hval, hlength, hall⟩ := hI.finished hv
    simp only at hlength hall
    have hpos : 0 < n * k := Nat.mul_pos (by omega) (by omega)
    have hne : ids ≠ [] := by
      rintro rfl
      rw [List.length_nil] at hlength
      omega
    have hle := LostUpdates.run_le ids
    have hge := LostUpdates.two_le_run hne (fun t ht => by rw [hall t ht]; omega)
      fun t ht => by rw [hall t ht]; omega
    rw [← hI.sum] at hle hge
    rw [hval, hlong _ (by omega)]
    omega
  · rintro ⟨htwo, hle⟩
    obtain ⟨x, rfl⟩ := Int.eq_ofNat_of_zero_le (show 0 ≤ v by omega)
    obtain ⟨m, rfl⟩ : ∃ m, n = m + 2 := ⟨n - 2, by omega⟩
    -- the first two threads, and the others
    have hrange : List.range (m + 2) = 0 :: 1 :: (List.range m).map (· + 2) := by
      rw [List.range_succ_eq_map, List.range_succ_eq_map]
      simp [Function.comp_def]
    have hsum : ((0 :: 1 :: (List.range m).map (· + 2)).map fun _ => k).sum = (m + 2) * k := by
      rw [← hrange]
      simp
    obtain ⟨ids, hcount, hx⟩ := LostUpdates.exists_run_eq (k := fun _ => k) (v := x)
      (show 1 ≤ k by omega) (show 1 ≤ k by omega) (hrange ▸ List.nodup_range) (by omega)
      (by rw [hsum]; omega)
    rw [← hrange] at hcount
    have hflat : ids.flatMap
        ({ nthreads := m + 2, rounds := k, lockPrefix := false } : Program).accesses = ids := by
      show ids.flatMap (fun t => [t]) = ids
      simp
    have hlt : ∀ t ∈ ids, t < m + 2 := by
      intro t ht
      by_contra hge
      have hpos := List.count_pos_iff.mpr ht
      rw [hcount, if_neg (by simpa using hge)] at hpos
      exact absurd hpos (Nat.lt_irrefl 0)
    obtain ⟨s, hs, hprinted⟩ := printed_reachable
      { nthreads := m + 2, rounds := k, lockPrefix := false } ids
      (by rw [hflat]; simpa using hcount) hlt
    use s, hs
    rw [hprinted, hflat, hx, hlong x (by omega)]

/-- The numbers of `sum.c`: four threads with ten million rounds each can print 2. -/
theorem sum_printed_two :
    ∃ s, (machine { nthreads := 4, rounds := 10000000, lockPrefix := false }).Reachable s ∧
      s.printed = some 2 :=
  (sum_printed_iff (by decide) (by decide) (by decide) 2).mpr (by decide)

/-- The locked accesses of the threads, one thread after the other. -/
theorem flatMap_accesses {p : Program} (hlock : p.lockPrefix = true) (k : Nat) (ts : List Nat) :
    (ts.flatMap (List.replicate k)).flatMap p.accesses = inTurn (fun _ => k) ts := by
  have hone : ∀ t, (List.replicate k t).flatMap p.accesses = List.replicate (2 * k) t := by
    intro t
    induction k with
    | zero => rfl
    | succ k ih =>
        rw [List.replicate_succ, List.flatMap_cons, ih, Program.accesses, if_pos hlock]
        rfl
  rw [List.flatMap_assoc, inTurn]
  exact List.flatMap_congr fun t _ => hone t

/-- What `sum-atomic.c` prints, for any threads and rounds: the number of all increments and
no other, as far as a `long` holds it. -/
theorem sum_atomic_printed_iff (n k : Nat) (v : Int) :
    (∃ s, (machine { nthreads := n, rounds := k, lockPrefix := true }).Reachable s ∧
      s.printed = some v) ↔ v = toLong (n * k) := by
  constructor
  · rintro ⟨s, hs, hv⟩
    obtain ⟨ids, hI⟩ := inv_of_reachable hs
    obtain ⟨hval, hlength, -⟩ := hI.finished hv
    have hx : s.sum.x = n * k := by
      have hall := (hI.atomic rfl).1
      simp only at hlength
      omega
    rw [hval, hx]
  · intro hv
    have hflat := flatMap_accesses
      (p := { nthreads := n, rounds := k, lockPrefix := true }) rfl k (List.range n)
    obtain ⟨s, hs, hprinted⟩ := printed_reachable { nthreads := n, rounds := k, lockPrefix := true }
      ((List.range n).flatMap (List.replicate k))
      (fun t => by rw [hflat, LostUpdates.count_inTurn _ List.nodup_range]; simp)
      (fun t ht => by
        obtain ⟨u, hu, htu⟩ := List.mem_flatMap.mp ht
        rw [List.eq_of_mem_replicate htu]
        exact List.mem_range.mp hu)
    use s, hs
    rw [hprinted, hflat, LostUpdates.run_inTurn (fun _ => rfl), hv]
    simp [LostUpdates.State.init]

end OsLabs.MultiThreads.Sum
