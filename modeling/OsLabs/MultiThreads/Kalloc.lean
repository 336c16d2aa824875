import Mathlib.Data.List.Basic
import OsLabs.RoundUp

/-!
# OsLabs.MultiThreads.Kalloc

`multi-threads/trivial-os.c`: `kalloc`, which gives out the heap in one direction and
takes nothing back. `ROUNDUP` comes from `klib-macros.h`, which is not in the repository;
it is the mask of `OsLabs.RoundUp`.

Whether blocks overlap does not depend on the sizes being powers of two, since the mask
never leads back (`blocks_disjoint`). Whether they are aligned does, and then there is the
first call, which does not round the start of the heap (`aligned_iff`).
-/

namespace OsLabs.MultiThreads.Kalloc

/-- `uintptr_t` and `size_t`. -/
abbrev Word := BitVec 64

/-- The value that `kalloc(size)` stores in `brk`. -/
def newBrk (heapStart brk size : Word) : Word :=
  if brk ≠ 0 then RoundUp.roundup brk size + size else heapStart + size

/-- `kalloc(size)`: `brk` afterwards and the result. -/
def kalloc (heapStart brk size : Word) : Word × Word :=
  let brk := newBrk heapStart brk size
  (brk, brk - size)

/-- A block that `kalloc` returned: the addresses from `start` on, `size` of them. -/
structure Block where
  start : Word
  size : Word
  deriving DecidableEq, Repr

namespace Block

/-- The first address behind the block. -/
def stop (b : Block) : Nat := b.start.toNat + b.size.toNat

/-- Is the address one of the block's? -/
def Contains (b : Block) (x : Nat) : Prop := b.start.toNat ≤ x ∧ x < b.stop

/-- No address is in both. -/
def Disjoint (a b : Block) : Prop := ∀ x, ¬ (a.Contains x ∧ b.Contains x)

/-- A block whose size is a power of two starts at a multiple of the size. -/
def Aligned (b : Block) : Prop := (∃ k, b.size.toNat = 2 ^ k) → b.size.toNat ∣ b.start.toNat

theorem disjoint_of_stop_le {a b : Block} (h : a.stop ≤ b.start.toNat) : a.Disjoint b := by
  rintro x ⟨ha, hb⟩
  have := Nat.lt_of_lt_of_le ha.2 (Nat.le_trans h hb.1)
  exact Nat.lt_irrefl x this

end Block

/-- The blocks that calls with the given sizes return, one after the other. -/
def calls (heapStart : Word) : Word → List Word → List Block
  | _, [] => []
  | brk, size :: sizes =>
      let (brk, p) := kalloc heapStart brk size
      { start := p, size } :: calls heapStart brk sizes

/-- `brk` after them. -/
def brkAfter (heapStart : Word) : Word → List Word → Word
  | brk, [] => brk
  | brk, size :: sizes => brkAfter heapStart (kalloc heapStart brk size).1 sizes

/-! ### The calls in an address space without end -/

/-- Where `kalloc` would put the block, -/
def place (heapStart brk size : Nat) : Nat :=
  if brk ≠ 0 then RoundUp.up brk size else heapStart

/-- and whether the blocks of all calls would end in the address space there is. -/
def Fits (heapStart : Nat) : Nat → List Nat → Prop
  | _, [] => True
  | brk, size :: sizes =>
      place heapStart brk size + size ≤ 2 ^ 64 ∧
        Fits heapStart (place heapStart brk size + size) sizes

instance decidableFits (heapStart : Nat) :
    (brk : Nat) → (sizes : List Nat) → Decidable (Fits heapStart brk sizes)
  | _, [] => isTrue trivial
  | brk, size :: sizes =>
      haveI := decidableFits heapStart (place heapStart brk size + size) sizes
      inferInstanceAs (Decidable (_ ∧ _))

section
variable {heapStart brk size : Word} {m : Nat} {sizes : List Word}

/-- The word holds the number, up to the end of the address space. -/
def Holds (brk : Word) (m : Nat) : Prop := m ≤ 2 ^ 64 ∧ brk.toNat = m % 2 ^ 64

theorem kalloc_snd : (kalloc heapStart brk size).2 =
    if brk ≠ 0 then RoundUp.roundup brk size else heapStart := by
  rw [kalloc, newBrk]
  split
  · exact BitVec.add_sub_cancel ..
  · exact BitVec.add_sub_cancel ..

theorem kalloc_fst : (kalloc heapStart brk size).1 = (kalloc heapStart brk size).2 + size := by
  rw [kalloc_snd, kalloc, newBrk]
  split
  · rfl
  · rfl

/-- A call whose block ends in the address space returns what it would without an end. -/
theorem kalloc_place (hsize : size ≠ 0) (hbrk : Holds brk m)
    (hfits : place heapStart.toNat m size.toNat + size.toNat ≤ 2 ^ 64) :
    (kalloc heapStart brk size).2.toNat = place heapStart.toNat m size.toNat ∧
      Holds (kalloc heapStart brk size).1 (place heapStart.toNat m size.toNat + size.toNat) := by
  have hpos := RoundUp.toNat_pos.mpr hsize
  have hp : (kalloc heapStart brk size).2.toNat = place heapStart.toNat m size.toNat := by
    rw [kalloc_snd]
    rw [place] at hfits ⊢
    by_cases hm : m = 0
    · have hzero : brk = 0 := BitVec.eq_of_toNat_eq (by rw [hbrk.2, hm]; rfl)
      rw [if_neg (not_not_intro hzero), if_neg (not_not_intro hm)]
    · rw [if_pos hm] at hfits ⊢
      have hle := RoundUp.le_up (a := m) hpos
      -- a block that ends at the end of the address space leaves no room for another
      have hlt : m < 2 ^ 64 := by omega
      have hnat : brk.toNat = m := by rw [hbrk.2, Nat.mod_eq_of_lt hlt]
      have hne : brk ≠ 0 := RoundUp.toNat_pos.mp (by omega)
      rw [if_pos hne, RoundUp.toNat_roundup hsize (by omega), hnat]
  refine ⟨hp, hfits, ?_⟩
  rw [kalloc_fst, BitVec.toNat_add, hp]

theorem le_place (hpos : 0 < size.toNat) : m ≤ place heapStart.toNat m size.toNat := by
  rw [place]
  split
  · exact RoundUp.le_up hpos
  · omega

theorem heapStart_le_place (hpos : 0 < size.toNat) (hm : m = 0 ∨ heapStart.toNat ≤ m) :
    heapStart.toNat ≤ place heapStart.toNat m size.toNat := by
  rw [place]
  split
  · next hne =>
    exact Nat.le_trans (hm.resolve_left hne) (RoundUp.le_up hpos)
  · exact Nat.le_refl _

/-- The blocks of calls that fit lie one behind the other, all of them behind `m`. -/
theorem calls_ordered (hsizes : ∀ size ∈ sizes, size ≠ 0) (hbrk : Holds brk m)
    (hm : m = 0 ∨ heapStart.toNat ≤ m)
    (hfits : Fits heapStart.toNat m (sizes.map BitVec.toNat)) :
    (calls heapStart brk sizes).Pairwise (fun a b => a.stop ≤ b.start.toNat) ∧
      ∀ b ∈ calls heapStart brk sizes, m ≤ b.start.toNat ∧ heapStart.toNat ≤ b.start.toNat := by
  induction sizes generalizing brk m with
  | nil => exact ⟨List.Pairwise.nil, by simp [calls]⟩
  | cons size sizes ih =>
      obtain ⟨hsize, hsizes⟩ := List.forall_mem_cons.mp hsizes
      obtain ⟨hend, hfits⟩ := hfits
      have hpos := RoundUp.toNat_pos.mpr hsize
      have hle : m ≤ place heapStart.toNat m size.toNat := le_place hpos
      have hheap := heapStart_le_place hpos hm
      obtain ⟨hp, hbrk'⟩ := kalloc_place hsize hbrk hend
      obtain ⟨hpair, hall⟩ := ih hsizes hbrk' (.inr (by omega)) hfits
      rw [calls]
      refine ⟨?_, ?_⟩
      · refine List.pairwise_cons.mpr ⟨fun b hb => ?_, hpair⟩
        show (kalloc heapStart brk size).2.toNat + size.toNat ≤ b.start.toNat
        rw [hp]
        exact (hall b hb).1
      · refine List.forall_mem_cons.mpr ⟨?_, fun b hb => ?_⟩
        · show m ≤ (kalloc heapStart brk size).2.toNat ∧
            heapStart.toNat ≤ (kalloc heapStart brk size).2.toNat
          rw [hp]
          exact ⟨hle, hheap⟩
        · have := hall b hb
          omega

theorem calls_size : (calls heapStart brk sizes).map Block.size = sizes := by
  induction sizes generalizing brk with
  | nil => rfl
  | cons size sizes ih => rw [calls, List.map_cons, ih]

/-- Calls with any sizes but 0 that fit in the address space return blocks of these sizes
which are disjoint, each starting at or behind the end of those before it and at or behind
the start of the heap. -/
theorem blocks_disjoint (hsizes : ∀ size ∈ sizes, size ≠ 0)
    (hfits : Fits heapStart.toNat 0 (sizes.map BitVec.toNat)) :
    (calls heapStart 0 sizes).map Block.size = sizes ∧
      (calls heapStart 0 sizes).Pairwise Block.Disjoint ∧
      (calls heapStart 0 sizes).Pairwise (fun a b => a.stop ≤ b.start.toNat) ∧
      ∀ b ∈ calls heapStart 0 sizes, heapStart.toNat ≤ b.start.toNat := by
  obtain ⟨hpair, hall⟩ :=
    calls_ordered hsizes (⟨by decide, rfl⟩ : Holds 0 0) (.inl rfl) hfits
  exact ⟨calls_size, hpair.imp Block.disjoint_of_stop_le, hpair, fun b hb => (hall b hb).2⟩

end

/-- The pointers to the tasks of three CPUs and two pages, in a heap that starts in the
middle of a page. -/
theorem blocks_disjoint_boot :
    (calls 0x100008 0 [24, 4096, 4096]).Pairwise Block.Disjoint ∧
      (calls 0x100008 0 [24, 4096, 4096]).map Block.start = [0x100008, 0x101000, 0x102000] := by
  have hsizes : ∀ size ∈ ([24, 4096, 4096] : List Word), size ≠ 0 := by simp
  have hfits : Fits (0x100008 : Word).toNat 0
      (([24, 4096, 4096] : List Word).map BitVec.toNat) := by
    decide +kernel
  exact ⟨(blocks_disjoint hsizes hfits).2.1, by decide⟩

/-! ### Alignment -/

section
variable {heapStart brk size : Word} {sizes : List Word}

/-- Is the size a power of two? -/
def PowerOfTwo (size : Word) : Prop := ∃ k, size.toNat = 2 ^ k

/-- Calls for a power of two that find `brk = 0`, of the calls that follow. -/
def FromStart (heapStart brk : Word) (sizes : List Word) : Prop :=
  ∀ before size after, sizes = before ++ size :: after → brkAfter heapStart brk before = 0 →
    PowerOfTwo size → size.toNat ∣ heapStart.toNat

theorem fromStart_cons : FromStart heapStart brk (size :: sizes) ↔
    (brk = 0 → PowerOfTwo size → size.toNat ∣ heapStart.toNat) ∧
      FromStart heapStart (kalloc heapStart brk size).1 sizes := by
  refine ⟨?_, ?_⟩
  · intro h
    refine ⟨h [] size sizes rfl, fun before later after hsplit => ?_⟩
    exact h (size :: before) later after (by rw [hsplit, List.cons_append])
  · rintro ⟨hfirst, hrest⟩ before later after hsplit
    cases before with
    | nil =>
        obtain ⟨rfl, rfl⟩ := List.cons.inj hsplit
        exact hfirst
    | cons s before =>
        obtain ⟨rfl, htail⟩ := List.cons.inj hsplit
        exact hrest before later after htail

/-- One call: only the start of the heap may be unaligned. -/
theorem kalloc_aligned_iff :
    Block.Aligned { start := (kalloc heapStart brk size).2, size } ↔
      (brk = 0 → PowerOfTwo size → size.toNat ∣ heapStart.toNat) := by
  rw [Block.Aligned, kalloc_snd]
  by_cases hbrk : brk = 0
  · rw [if_neg (not_not_intro hbrk)]
    refine ⟨?_, ?_⟩
    · exact fun h _ => h
    · exact fun h => h hbrk
  · rw [if_pos hbrk]
    refine ⟨?_, ?_⟩
    · exact fun _ hzero => absurd hzero hbrk
    · rintro - ⟨k, hk⟩
      show size.toNat ∣ (RoundUp.roundup brk size).toNat
      rw [hk]
      exact RoundUp.dvd_roundup hk

theorem calls_aligned_iff :
    (∀ b ∈ calls heapStart brk sizes, b.Aligned) ↔ FromStart heapStart brk sizes := by
  induction sizes generalizing brk with
  | nil =>
      refine iff_of_true (by simp [calls]) ?_
      intro before size after hsplit
      exact absurd hsplit (by simp)
  | cons size sizes ih =>
      rw [calls, fromStart_cons, ← kalloc_aligned_iff, ← ih]
      exact List.forall_mem_cons

/-- In calls that fit, `brk` is 0 only before the first. -/
theorem fromStart_of_fits {m : Nat} (hsizes : ∀ size ∈ sizes, size ≠ 0) (hbrk : Holds brk m)
    (hm : m ≠ 0) (hfits : Fits heapStart.toNat m (sizes.map BitVec.toNat)) :
    FromStart heapStart brk sizes := by
  induction sizes generalizing brk m with
  | nil =>
      intro before size after hsplit
      exact absurd hsplit (by simp)
  | cons size sizes ih =>
      obtain ⟨hsize, hsizes⟩ := List.forall_mem_cons.mp hsizes
      obtain ⟨hend, hfits⟩ := hfits
      have hpos := RoundUp.toNat_pos.mpr hsize
      have hle : m ≤ place heapStart.toNat m size.toNat := le_place hpos
      refine fromStart_cons.mpr ⟨fun hzero => ?_, ?_⟩
      · have := hbrk.2
        rw [hzero, Nat.mod_eq_of_lt (by omega)] at this
        exact absurd this.symm hm
      · exact ih hsizes (kalloc_place hsize hbrk hend).2 (by omega) hfits

/-- The blocks whose sizes are powers of two are aligned just when the start of the heap is a
multiple of each such size that is asked for while `brk` is 0. Where the sizes are not 0 and
the blocks fit in the address space, that is the size of the first call. -/
theorem aligned_iff (heapStart : Word) (sizes : List Word) :
    ((∀ b ∈ calls heapStart 0 sizes, b.Aligned) ↔
      ∀ before size after, sizes = before ++ size :: after →
        brkAfter heapStart 0 before = 0 → PowerOfTwo size → size.toNat ∣ heapStart.toNat) ∧
    ((∀ size ∈ sizes, size ≠ 0) → Fits heapStart.toNat 0 (sizes.map BitVec.toNat) →
      ((∀ b ∈ calls heapStart 0 sizes, b.Aligned) ↔
        ∀ size ∈ sizes.head?, PowerOfTwo size → size.toNat ∣ heapStart.toNat)) := by
  refine ⟨calls_aligned_iff, fun hsizes hfits => ?_⟩
  rw [calls_aligned_iff]
  cases sizes with
  | nil =>
      refine iff_of_true ?_ (by simp)
      intro before size after hsplit
      exact absurd hsplit (by simp)
  | cons size sizes =>
      obtain ⟨hsize, hsizes⟩ := List.forall_mem_cons.mp hsizes
      obtain ⟨hend, hfits⟩ := hfits
      have hpos := RoundUp.toNat_pos.mpr hsize
      have hbrk := (kalloc_place hsize (⟨by decide, rfl⟩ : Holds 0 0) hend).2
      have hrest := fromStart_of_fits hsizes hbrk (by omega) hfits
      rw [fromStart_cons]
      refine ⟨?_, ?_⟩
      · rintro ⟨hfirst, -⟩ s hs
        obtain rfl := Option.some.inj hs
        exact hfirst rfl
      · intro h
        exact ⟨fun _ => h size rfl, hrest⟩

end

/-- In a heap that starts with a page, a page, three pointers and a page. -/
theorem aligned_iff_page : ∀ b ∈ calls 0x100000 0 [4096, 24, 4096], b.Aligned := by
  have hsizes : ∀ size ∈ ([4096, 24, 4096] : List Word), size ≠ 0 := by simp
  have hfits : Fits (0x100000 : Word).toNat 0
      (([4096, 24, 4096] : List Word).map BitVec.toNat) := by
    decide +kernel
  refine ((aligned_iff 0x100000 [4096, 24, 4096]).2 hsizes hfits).mpr ?_
  intro size hsize _
  obtain rfl := Option.some.inj hsize
  decide

/-- The heap starts in the middle of a page, and the first call is for a page. -/
theorem not_aligned : ¬ ∀ (heapStart : Word) (sizes : List Word),
    ∀ b ∈ calls heapStart 0 sizes, b.Aligned := by
  intro h
  have hb := h 0x100008 [4096] ⟨0x100008, 4096⟩ (by decide) ⟨12, rfl⟩
  exact absurd hb (by decide)

end OsLabs.MultiThreads.Kalloc
