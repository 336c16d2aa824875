import Mathlib.Data.List.Nodup
import Mathlib.Data.List.Perm.Basic
import Mathlib.Data.Nat.Find
import Mathlib.Data.Nat.ModEq
import Mathlib.Logic.Function.Basic
import OsLabs.History

/-!
# OsLabs.Rotation

Going round a ring of `n` places and stopping at those of one residue class: `seek`
goes on from a place, one at a time and at least one, until the index is `c` modulo `k`.

For `c < n` the search ends, and for `n ≤ c` it does not (`seek_ends_iff`). What it finds
one search after the other, the first from the place 0, are the places of the class in
turn (`turns_of_justified`), also where `k` does not divide `n` and the search crosses
the end of the ring: any so many in a row as there are places in the class are all of
them, each once (`window_perm`).
-/

namespace OsLabs.Rotation

universe u

variable {n k c i j : Nat}

/-- From behind `i` on, the first place that is `c` modulo `k`. -/
def seek (n k c : Nat) : Nat → Nat → Option Nat
  | 0, _ => none
  | fuel + 1, i =>
      let next := (i + 1) % n
      if next % k ≠ c then seek n k c fuel next else some next

/-- The places of the class. -/
def places (n k c : Nat) : List Nat := (List.range n).filter fun i => i % k = c

/-! ### One search -/

/-- The search ends at the first place of the class. -/
theorem seek_eq {d : Nat} (hd : 0 < d) (skip : ∀ t, 0 < t → t < d → (i + t) % n % k ≠ c)
    (hit : (i + d) % n % k = c) : seek n k c d i = some ((i + d) % n) := by
  induction d generalizing i with
  | zero => exact absurd hd (Nat.lt_irrefl 0)
  | succ d ih =>
      have hmod : ∀ t, ((i + 1) % n + t) % n = (i + (t + 1)) % n := by
        intro t
        rw [Nat.mod_add_mod, Nat.add_assoc, Nat.add_comm 1 t]
      rw [seek]
      cases d with
      | zero => exact if_neg (not_not_intro hit)
      | succ d =>
          rw [if_pos (skip 1 Nat.one_pos (by omega)), ih (Nat.succ_pos d), hmod]
          · intro t ht htd
            rw [hmod]
            exact skip (t + 1) (Nat.succ_pos t) (by omega)
          · rw [hmod]
            exact hit

/-- More fuel does not change what is found. -/
theorem seek_mono {fuel fuel' : Nat} (hle : fuel ≤ fuel') (h : seek n k c fuel i = some j) :
    seek n k c fuel' i = some j := by
  induction fuel generalizing fuel' i with
  | zero => exact absurd h (by simp [seek])
  | succ fuel ih =>
      cases fuel' with
      | zero => exact absurd hle (Nat.not_succ_le_zero fuel)
      | succ fuel' =>
          rw [seek] at h ⊢
          split at h
          · next hne =>
            rw [if_pos hne]
            exact ih (Nat.le_of_succ_le_succ hle) h
          · next heq =>
            rw [if_neg heq]
            exact h

theorem seek_unique {fuel fuel' j' : Nat} (h : seek n k c fuel i = some j)
    (h' : seek n k c fuel' i = some j') : j = j' := by
  have hmax := seek_mono (Nat.le_max_left fuel fuel') h
  have hmax' := seek_mono (Nat.le_max_right fuel fuel') h'
  exact Option.some.inj (hmax.symm.trans hmax')

theorem seek_spec {fuel : Nat} (hn : 0 < n) (h : seek n k c fuel i = some j) :
    j < n ∧ j % k = c := by
  induction fuel generalizing i with
  | zero => exact absurd h (by simp [seek])
  | succ fuel ih =>
      rw [seek] at h
      split at h
      · exact ih h
      · next heq =>
        obtain rfl := Option.some.inj h
        exact ⟨Nat.mod_lt _ hn, Decidable.not_not.mp heq⟩

/-- No place of the ring is in a class that starts behind its end. -/
theorem seek_none (hn : 0 < n) (hc : c < k) (hge : n ≤ c) (fuel : Nat) :
    seek n k c fuel i = none := by
  cases hs : seek n k c fuel i with
  | none => rfl
  | some j =>
      obtain ⟨hj, hjc⟩ := seek_spec hn hs
      rw [Nat.mod_eq_of_lt (by omega)] at hjc
      omega

/-- Below `c + k`, only `c` itself is `c` modulo `k`. -/
theorem mod_ne {a t : Nat} (ha : a % k = c) (ht : 0 < t) (htk : t < k) : (a + t) % k ≠ c := by
  intro h
  have hmod : (a + t) % k = (a + 0) % k := by rw [h, Nat.add_zero, ha]
  have := Nat.ModEq.add_left_cancel' a hmod
  rw [Nat.ModEq, Nat.mod_eq_of_lt htk, Nat.zero_mod] at this
  omega

/-- The place of the class behind `i`, -/
def next (n k c i : Nat) : Nat := if i + k < n then i + k else c

/-- and the first one that is found from the place 0. -/
def first (n k c : Nat) : Nat := if c = 0 then next n k 0 0 else c

/-- From the end of the ring on, the search comes to `c`. -/
theorem seek_wrap (hc : c < k) (hcn : c < n) (hi : i < n) (hin : n ≤ i + k) (hik : i % k = c) :
    seek n k c (n - i + c) i = some c := by
  have hwrap : ∀ u, u < n → (i + (n - i + u)) % n = u := by
    intro u hu
    have : i + (n - i + u) = u + n := by omega
    rw [this, Nat.add_mod_right, Nat.mod_eq_of_lt hu]
  have h := seek_eq (n := n) (k := k) (c := c) (i := i) (d := n - i + c) (by omega) ?_ ?_
  · rw [h, hwrap c hcn]
  · intro t ht htd
    by_cases htn : i + t < n
    · rw [Nat.mod_eq_of_lt htn]
      exact mod_ne hik ht (by omega)
    · obtain ⟨u, rfl⟩ : ∃ u, t = n - i + u := ⟨t - (n - i), by omega⟩
      rw [hwrap u (by omega), Nat.mod_eq_of_lt (by omega)]
      omega
  · rw [hwrap c hcn, Nat.mod_eq_of_lt hc]

/-- From a place of the class the search comes to the next, -/
theorem seek_next (hc : c < k) (hcn : c < n) (hi : i < n) (hik : i % k = c) :
    ∃ fuel, seek n k c fuel i = some (next n k c i) := by
  rw [next]
  split
  · next hlt =>
    have h := seek_eq (n := n) (k := k) (c := c) (i := i) (d := k) (by omega) ?_ ?_
    · exact ⟨k, by rw [h, Nat.mod_eq_of_lt hlt]⟩
    · intro t ht htk
      have hin : i + t < n := by omega
      rw [Nat.mod_eq_of_lt hin]
      exact mod_ne hik ht htk
    · rw [Nat.mod_eq_of_lt hlt, Nat.add_mod_right, hik]
  · next hge => exact ⟨_, seek_wrap hc hcn hi (Nat.not_lt.mp hge) hik⟩

/-- and from the place 0 to the first. -/
theorem seek_first (hc : c < k) (hcn : c < n) : ∃ fuel, seek n k c fuel 0 = some (first n k c) := by
  rw [first]
  split
  · next hzero =>
    subst hzero
    exact seek_next hc hcn hcn (Nat.zero_mod k)
  · next hpos =>
    have h := seek_eq (n := n) (k := k) (c := c) (i := 0) (d := c) (by omega) ?_ ?_
    · exact ⟨c, by rw [h, Nat.zero_add, Nat.mod_eq_of_lt hcn]⟩
    · intro t _ htc
      have htn : t < n := by omega
      have htk : t < k := by omega
      rw [Nat.zero_add, Nat.mod_eq_of_lt htn, Nat.mod_eq_of_lt htk]
      omega
    · rw [Nat.zero_add, Nat.mod_eq_of_lt hcn, Nat.mod_eq_of_lt hc]

/-- From any place the search comes to the class that starts in the ring. -/
theorem seek_total (hc : c < k) (hcn : c < n) (hi : i < n) :
    ∃ fuel j, seek n k c fuel i = some j := by
  -- the first hit at or before the place `c` of the next round
  have hex : ∃ d, 0 < d ∧ (i + d) % n % k = c := by
    refine ⟨n - i + c, by omega, ?_⟩
    have : i + (n - i + c) = c + n := by omega
    rw [this, Nat.add_mod_right, Nat.mod_eq_of_lt hcn, Nat.mod_eq_of_lt hc]
  have hfind := Nat.find_spec hex
  refine ⟨Nat.find hex, (i + Nat.find hex) % n, seek_eq hfind.1 ?_ hfind.2⟩
  intro t ht htd heq
  exact Nat.find_min hex htd ⟨ht, heq⟩

/-- A search ends just when its class starts in the ring. -/
theorem seek_ends_iff (hc : c < k) (hi : i < n) :
    (∃ fuel j, seek n k c fuel i = some j) ↔ c < n := by
  refine ⟨?_, ?_⟩
  · rintro ⟨fuel, j, h⟩
    by_contra hge
    rw [seek_none (by omega) hc (by omega)] at h
    exact absurd h (by simp)
  · exact fun hcn => seek_total hc hcn hi

/-- And so does a loop that ends where the search does. -/
theorem map_seek_ends_iff {σ : Type u} {search : Nat → Option σ} {found : Nat → σ} (hc : c < k)
    (hi : i < n) (hsearch : ∀ fuel, search fuel = (seek n k c fuel i).map found) :
    (∃ fuel s, search fuel = some s) ↔ c < n := by
  rw [← seek_ends_iff hc hi]
  refine ⟨?_, ?_⟩
  · rintro ⟨fuel, s, hs⟩
    rw [hsearch] at hs
    obtain ⟨j, hj, -⟩ := Option.map_eq_some_iff.mp hs
    exact ⟨fuel, j, hj⟩
  · rintro ⟨fuel, j, hj⟩
    exact ⟨fuel, _, by rw [hsearch, hj, Option.map_some]⟩

/-! ### One search after the other -/

/-- How many places the class has. -/
def size (n k c : Nat) : Nat := (n - 1 - c) / k + 1

theorem lt_size (hk : 0 < k) (hcn : c < n) {a : Nat} : a < size n k c ↔ c + a * k < n := by
  rw [size, Nat.lt_succ_iff, Nat.le_div_iff_mul_le hk]
  omega

/-- The place at which the search with the number `t` ends. -/
def turn (n k c t : Nat) : Nat :=
  c + (t + if c = 0 then 1 else 0) % size n k c * k

theorem next_nth (hk : 0 < k) (hcn : c < n) (t : Nat) :
    next n k c (c + t % size n k c * k) = c + (t + 1) % size n k c * k := by
  have hpos : 0 < size n k c := Nat.succ_pos _
  have hlt := Nat.mod_lt t hpos
  have hadd : c + t % size n k c * k + k = c + (t % size n k c + 1) * k := by
    rw [Nat.add_mul, Nat.one_mul, Nat.add_assoc]
  rw [next, hadd, ← Nat.mod_add_mod t]
  by_cases hlast : t % size n k c + 1 < size n k c
  · rw [if_pos ((lt_size hk hcn).mp hlast), Nat.mod_eq_of_lt hlast]
  · have heq : t % size n k c + 1 = size n k c := by omega
    rw [if_neg fun h => hlast ((lt_size hk hcn).mpr h), heq, Nat.mod_self, Nat.zero_mul,
      Nat.add_zero]

theorem next_turn (hk : 0 < k) (hcn : c < n) (t : Nat) :
    next n k c (turn n k c t) = turn n k c (t + 1) := by
  rw [turn, next_nth hk hcn, turn, Nat.add_right_comm]

theorem first_eq_turn (hk : 0 < k) (hcn : c < n) : first n k c = turn n k c 0 := by
  rw [first, turn]
  split
  · next hzero =>
    subst hzero
    have := next_nth hk hcn 0
    rwa [Nat.zero_mod, Nat.zero_mul, Nat.add_zero] at this
  · rw [Nat.add_zero, Nat.zero_mod, Nat.zero_mul, Nat.add_zero]

theorem turn_lt (hk : 0 < k) (hcn : c < n) (t : Nat) : turn n k c t < n :=
  (lt_size hk hcn).mp (Nat.mod_lt _ (Nat.succ_pos _))

theorem turn_mod (hc : c < k) (t : Nat) : turn n k c t % k = c := by
  rw [turn, Nat.add_mul_mod_self_right, Nat.mod_eq_of_lt hc]

/-- The place was found behind the one before it, or behind 0 if it is the first. -/
def Found (n k c i : Nat) (older : List Nat) : Prop :=
  ∃ fuel, seek n k c fuel (older.head?.getD 0) = some i

/-- What is found one after the other, newest first. -/
theorem turns_of_justified (hc : c < k) (hcn : c < n) {l : List Nat}
    (h : Justified (Found n k c) l) : l = ((List.range l.length).map (turn n k c)).reverse := by
  have hk : 0 < k := by omega
  induction l with
  | nil => rfl
  | cons i l ih =>
      obtain ⟨⟨fuel, hfound⟩, hl⟩ := justified_cons.mp h
      have hl := ih hl
      have hi : i = turn n k c l.length := by
        cases hlen : l.length with
        | zero =>
            obtain rfl := List.length_eq_zero_iff.mp hlen
            obtain ⟨fuel', hfirst⟩ := seek_first hc hcn
            rw [← first_eq_turn hk hcn]
            exact seek_unique hfound hfirst
        | succ t =>
            rw [hlen, List.range_succ, List.map_append, List.reverse_append] at hl
            rw [hl] at hfound
            have hhead : ((List.map (turn n k c) [t]).reverse ++
                ((List.range t).map (turn n k c)).reverse).head?.getD 0 = turn n k c t := rfl
            rw [hhead] at hfound
            obtain ⟨fuel', hnext⟩ := seek_next hc hcn (turn_lt hk hcn t) (turn_mod hc t)
            rw [next_turn hk hcn] at hnext
            exact seek_unique hfound hnext
      rw [List.length_cons, List.range_succ, List.map_append, List.reverse_append, ← hl, hi]
      rfl

/-- The places at which several walkers are, each in the class of its own number, and those
that they found, newest first. -/
def Turns (n k : Nat) (current : Nat → Option Nat) (found : Nat → List Nat) : Prop :=
  ∀ c, current c = (found c).head? ∧ Justified (Found n k c) (found c)

theorem turns_start : Turns n k (fun _ => none) fun _ => [] :=
  fun _ => ⟨rfl, justified_nil⟩

/-- One of them goes on. -/
theorem Turns.step {current : Nat → Option Nat} {found : Nat → List Nat} {fuel : Nat}
    (h : Turns n k current found) (hs : seek n k c fuel ((current c).getD 0) = some j) :
    Turns n k (Function.update current c (some j)) (Function.update found c (j :: found c)) := by
  intro d
  by_cases hd : d = c
  · subst hd
    rw [(h d).1] at hs
    simp only [Function.update_self, List.head?_cons, true_and]
    exact justified_cons.mpr ⟨⟨fuel, hs⟩, (h d).2⟩
  · simp only [Function.update_of_ne hd]
    exact h d

theorem Turns.lt {current : Nat → Option Nat} {found : Nat → List Nat}
    (h : Turns n k current found) (hn : 0 < n) (hi : current c = some i) : i < n := by
  obtain ⟨hcur, hfound⟩ := h c
  rw [hi] at hcur
  cases hl : found c with
  | nil => exact absurd (hl ▸ hcur) (by simp)
  | cons j older =>
      rw [hl] at hcur hfound
      obtain rfl : i = j := by simpa using hcur
      obtain ⟨fuel, hs⟩ := (justified_cons.mp hfound).1
      exact (seek_spec hn hs).1

/-- The next search begins inside the ring. -/
theorem Turns.getD_lt {current : Nat → Option Nat} {found : Nat → List Nat}
    (h : Turns n k current found) (hn : 0 < n) : (current c).getD 0 < n := by
  cases hc : current c with
  | none => exact hn
  | some i => exact h.lt hn hc

/-! ### So many in a row as there are places -/

theorem mem_places : i ∈ places n k c ↔ i < n ∧ i % k = c := by
  simp [places]

theorem nodup_places : (places n k c).Nodup := List.nodup_range.filter _

/-- Turns less than a round apart are at different places. -/
theorem turn_inj (hk : 0 < k) {t t' : Nat} (hlt : t < t') (hle : t' < t + size n k c) :
    turn n k c t ≠ turn n k c t' := by
  intro h
  rw [turn, turn] at h
  have hmod := Nat.eq_of_mul_eq_mul_right hk (Nat.add_left_cancel h)
  have hmod : t ≡ t' [MOD size n k c] := Nat.ModEq.add_right_cancel' _ hmod
  have hdvd := (Nat.modEq_iff_dvd' (Nat.le_of_lt hlt)).mp hmod
  have := Nat.le_of_dvd (by omega) hdvd
  omega

theorem round_perm (hc : c < k) (hcn : c < n) (a : Nat) :
    ((List.range' a (size n k c)).map (turn n k c)).Perm (places n k c) := by
  have hk : 0 < k := by omega
  have hnodup : ((List.range' a (size n k c)).map (turn n k c)).Nodup := by
    rw [List.nodup_map_iff_inj_on (List.nodup_range')]
    intro t ht t' ht' heq
    rw [List.mem_range'_1] at ht ht'
    by_contra hne
    rcases Nat.lt_or_gt_of_ne hne with hlt | hlt
    · exact turn_inj hk hlt (by omega) heq
    · exact turn_inj hk hlt (by omega) heq.symm
  rw [List.perm_ext_iff_of_nodup hnodup nodup_places]
  intro i
  rw [mem_places, List.mem_map]
  refine ⟨?_, ?_⟩
  · rintro ⟨t, -, rfl⟩
    exact ⟨turn_lt hk hcn t, turn_mod hc t⟩
  · rintro ⟨hi, hik⟩
    have hi' : i = c + i / k * k := by
      have := Nat.mod_add_div' i k
      rw [hik] at this
      exact this.symm
    have hpos : 0 < size n k c := Nat.succ_pos _
    have hq : i / k < size n k c := (lt_size hk hcn).mpr (hi' ▸ hi)
    -- the turn at which the place `i` comes in the round from `a` on
    let b := a + if c = 0 then 1 else 0
    have hb := Nat.mod_lt b hpos
    refine ⟨a + (i / k + (size n k c - b % size n k c)) % size n k c, ?_, ?_⟩
    · have := Nat.mod_lt (i / k + (size n k c - b % size n k c)) hpos
      rw [List.mem_range'_1]
      omega
    · have hround : (a + (i / k + (size n k c - b % size n k c)) % size n k c +
          if c = 0 then 1 else 0) % size n k c = i / k := by
        have hsum : a + (i / k + (size n k c - b % size n k c)) % size n k c +
            (if c = 0 then 1 else 0) =
              b + (i / k + (size n k c - b % size n k c)) % size n k c := Nat.add_right_comm ..
        have hb' : b % size n k c + (i / k + (size n k c - b % size n k c)) =
            i / k + size n k c := by omega
        rw [hsum, Nat.add_mod_mod, ← Nat.mod_add_mod, hb', Nat.add_mod_right,
          Nat.mod_eq_of_lt hq]
      rw [turn, hround]
      exact hi'.symm

theorem length_places (hc : c < k) (hcn : c < n) : (places n k c).length = size n k c := by
  rw [← (round_perm hc hcn 0).length_eq, List.length_map, List.length_range']

/-- Any so many turns in a row as there are places are all the places. -/
theorem window_perm (hc : c < k) (hcn : c < n) {w : List Nat} {t : Nat}
    (hw : w <:+: (List.range t).map (turn n k c)) (hlen : w.length = (places n k c).length) :
    w.Perm (places n k c) := by
  obtain ⟨before, after, hsplit⟩ := hw
  have hw : w = ((List.range t).map (turn n k c) |>.drop before.length).take w.length := by
    rw [← hsplit, List.append_assoc, List.drop_left, List.take_left]
  have hlong : before.length + w.length ≤ t := by
    have := congrArg List.length hsplit
    simp only [List.length_append, List.length_map, List.length_range] at this
    omega
  rw [← List.map_drop, ← List.map_take, List.range_eq_range', List.drop_range',
    List.take_range'_of_length_ge (by omega), hlen, length_places hc hcn] at hw
  rw [hw]
  exact round_perm hc hcn _

end OsLabs.Rotation
