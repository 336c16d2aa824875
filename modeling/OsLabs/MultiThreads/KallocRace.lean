import Mathlib.Data.Fintype.Basic
import OsLabs.MultiThreads.Kalloc
import OsLabs.Transition

/-!
# OsLabs.MultiThreads.KallocRace

`multi-threads/trivial-os.c`: `kalloc` on several CPUs at once, as `proc_pagefault` calls
it. There is no lock, and a call reads `brk` to test it, reads it again for the new value,
stores that, and reads `brk` once more for the result.

The test does no harm. From the read of the value to the return, a store of another CPU
does: the CPU goes on from an old `brk`, or returns the block of the other
(`not_returned_disjoint`). As long as no CPU stores while another is there, the blocks are
disjoint (`returned_disjoint`).
-/

namespace OsLabs.MultiThreads.KallocRace

open Kalloc (Word Block)

/-- Where a CPU is. -/
inductive Pc
  /-- In no call of `kalloc`. -/
  | idle
  /-- It reads `brk` to test it. -/
  | test (size : Word)
  /-- `brk` was not 0; it reads it for `ROUNDUP`. -/
  | read (size : Word)
  /-- It stores the new `brk`, for the value it read or for the start of the heap. -/
  | store (size : Word) (base : Option Word)
  /-- It reads `brk` for the result. -/
  | ret (size : Word)
  deriving DecidableEq, Repr

namespace Pc

/-- The size of the block that is asked for. -/
@[simp] def size : Pc → Option Word
  | .idle => none
  | .test size | .read size | .store size _ | .ret size => some size

/-- Is a store to come? -/
@[simp] def storing : Pc → Bool
  | .store _ _ => true
  | _ => false

/-- Is the CPU outside the part between its read of the value and its return? -/
@[simp] def away : Pc → Bool
  | .store _ _ | .ret _ => false
  | _ => true

/-- What is about to be stored, without the end of the address space. -/
def stop (heapStart : Word) : Pc → Nat
  | .store size none => heapStart.toNat + size.toNat
  | .store size (some brk) => RoundUp.up brk.toNat size.toNat + size.toNat
  | _ => 0

end Pc

universe u

/-- The static `brk`, the CPUs, and the blocks that were returned so far, newest first. -/
structure State (Cpu : Type u) where
  brk : Word
  pcs : Cpu → Pc
  returned : List Block

variable {Cpu : Type u} [DecidableEq Cpu]

/-- Let a CPU move to another place. -/
def State.move (s : State Cpu) (c : Cpu) (pc : Pc) : State Cpu :=
  { s with pcs := Function.update s.pcs c pc }

@[simp] theorem move_brk (s : State Cpu) (c : Cpu) (pc : Pc) : (s.move c pc).brk = s.brk := rfl

@[simp] theorem move_returned (s : State Cpu) (c : Cpu) (pc : Pc) :
    (s.move c pc).returned = s.returned := rfl

@[simp] theorem move_self (s : State Cpu) (c : Cpu) (pc : Pc) : (s.move c pc).pcs c = pc :=
  Function.update_self ..

theorem move_ne {s : State Cpu} {c d : Cpu} {pc : Pc} (h : d ≠ c) :
    (s.move c pc).pcs d = s.pcs d :=
  Function.update_of_ne h ..

/-- One atomic step of the CPU `c`; outside `kalloc` it calls it, for a page of the size. -/
def step (heapStart : Word) (c : Cpu) (size : Word) (s : State Cpu) : Option (State Cpu) :=
  match s.pcs c with
  | .idle => if size ≠ 0 then some (s.move c (.test size)) else none
  | .test size => some (s.move c (if s.brk ≠ 0 then .read size else .store size none))
  | .read size => some (s.move c (.store size (some s.brk)))
  | .store size none => some ({ s with brk := heapStart + size }.move c (.ret size))
  | .store size (some brk) =>
      some ({ s with brk := RoundUp.roundup brk size + size }.move c (.ret size))
  | .ret size =>
      some ({ s with returned := { start := s.brk - size, size } :: s.returned }.move c .idle)

/-- `static uintptr_t brk = 0;`, before the first call. -/
def State.init : State Cpu where
  brk := 0
  pcs _ := .idle
  returned := []

/-- The CPUs in any order; the first calls, those of `os_init`, are calls like the others. -/
def machine (Cpu : Type u) [DecidableEq Cpu] (heapStart : Word) :
    System (State Cpu) (Cpu × Word) where
  init s := s = State.init
  step s l s' := step heapStart l.1 l.2 s = some s'

/-- No CPU stores while another is between its read of the value and its return, nor where
`brk` would go past the end of the address space. -/
def Alone (heapStart : Word) (s : State Cpu) (l : Cpu × Word) : Prop :=
  (s.pcs l.1).storing = true →
    (∀ d, d ≠ l.1 → (s.pcs d).away = true) ∧ (s.pcs l.1).stop heapStart < 2 ^ 64

instance [Fintype Cpu] (heapStart : Word) (s : State Cpu) (l : Cpu × Word) :
    Decidable (Alone heapStart s l) :=
  inferInstanceAs (Decidable (_ → _ ∧ _))

/-! ### A call that is left alone -/

section
variable {heapStart size : Word} {s : State Cpu} {c : Cpu}

/-- Where no other CPU moves, the steps are a call of `kalloc`. -/
theorem call_alone (hidle : s.pcs c = .idle) (hsize : size ≠ 0#64) :
    ∃ n, System.follow (fun s l => step heapStart l.1 l.2 s) (List.replicate n (c, size)) s =
      some { s with
        brk := (Kalloc.kalloc heapStart s.brk size).1
        returned := { start := (Kalloc.kalloc heapStart s.brk size).2, size } :: s.returned } := by
  have hpcs : Function.update s.pcs c .idle = s.pcs := by rw [← hidle, Function.update_eq_self]
  by_cases hbrk : s.brk = 0#64
  · refine ⟨4, ?_⟩
    simp [List.replicate, System.follow, step, hidle, hsize, hbrk, Kalloc.kalloc, Kalloc.newBrk,
      State.move, hpcs]
  · refine ⟨5, ?_⟩
    simp [List.replicate, System.follow, step, hidle, hsize, hbrk, Kalloc.kalloc, Kalloc.newBrk,
      State.move, hpcs]

end

/-! ### The invariant -/

/-- The steps of a CPU that meet the guard. -/
inductive Moved (heapStart : Word) (s : State Cpu) (c : Cpu) : State Cpu → Prop
  | call {size : Word} : s.pcs c = .idle → size ≠ 0 →
      Moved heapStart s c (s.move c (.test size))
  | test {size : Word} : s.pcs c = .test size →
      Moved heapStart s c (s.move c (if s.brk ≠ 0 then .read size else .store size none))
  | read {size : Word} : s.pcs c = .read size →
      Moved heapStart s c (s.move c (.store size (some s.brk)))
  | first {size : Word} : s.pcs c = .store size none →
      (∀ d, d ≠ c → (s.pcs d).away = true) → heapStart.toNat + size.toNat < 2 ^ 64 →
      Moved heapStart s c ({ s with brk := heapStart + size }.move c (.ret size))
  | later {size brk : Word} : s.pcs c = .store size (some brk) →
      (∀ d, d ≠ c → (s.pcs d).away = true) →
      RoundUp.up brk.toNat size.toNat + size.toNat < 2 ^ 64 →
      Moved heapStart s c ({ s with brk := RoundUp.roundup brk size + size }.move c (.ret size))
  | ret {size : Word} : s.pcs c = .ret size →
      Moved heapStart s c
        ({ s with returned := { start := s.brk - size, size } :: s.returned }.move c .idle)

theorem moved_of_step {heapStart size : Word} {s s' : State Cpu} {c : Cpu}
    (hg : Alone heapStart s (c, size)) (h : step heapStart c size s = some s') :
    Moved heapStart s c s' := by
  unfold step at h
  split at h
  · next hpc =>
    split at h
    · next hsize =>
      obtain rfl := Option.some.inj h
      exact .call hpc hsize
    · exact absurd h (by simp)
  · next hpc =>
    obtain rfl := Option.some.inj h
    exact .test hpc
  · next hpc =>
    obtain rfl := Option.some.inj h
    exact .read hpc
  · next hpc =>
    obtain rfl := Option.some.inj h
    obtain ⟨haway, hstop⟩ := hg (by rw [hpc]; rfl)
    rw [hpc] at hstop
    exact .first hpc haway hstop
  · next hpc =>
    obtain rfl := Option.some.inj h
    obtain ⟨haway, hstop⟩ := hg (by rw [hpc]; rfl)
    rw [hpc] at hstop
    exact .later hpc haway hstop
  · next hpc =>
    obtain rfl := Option.some.inj h
    exact .ret hpc

/-- What holds of the place of a CPU, when `brk` is what it is. -/
structure Sound (brk : Word) (pc : Pc) : Prop where
  size : ∀ size ∈ pc.size, size ≠ 0
  /-- A test that found `brk` not 0 is still right, -/
  read : ∀ size, pc = .read size → brk ≠ 0
  /-- and what was read is still in `brk`. -/
  store : ∀ size base, pc = .store size base → base = if brk ≠ 0 then some brk else none
  /-- The block is the last one below `brk`. -/
  ret : ∀ size, pc = .ret size → size.toNat ≤ brk.toNat

/-- What holds while the CPUs leave each other alone. -/
structure Inv (s : State Cpu) : Prop where
  sound : ∀ c, Sound s.brk (s.pcs c)
  /-- One CPU at most has stored and not returned, and the blocks end before its own. -/
  ret : ∀ c size, s.pcs c = .ret size → (∀ d size', s.pcs d = .ret size' → d = c) ∧
    ∀ b ∈ s.returned, b.stop + size.toNat ≤ s.brk.toNat
  stop : ∀ b ∈ s.returned, b.stop ≤ s.brk.toNat
  disjoint : s.returned.Pairwise Block.Disjoint

section
variable {heapStart size : Word} {s s' : State Cpu} {c : Cpu} {pc : Pc}

/-- A CPU that is away does not care by how much `brk` has grown. -/
theorem Sound.away {brk brk' : Word} (h : Sound brk pc) (hpc : pc.away = true) (hne : brk' ≠ 0) :
    Sound brk' pc where
  size := h.size
  read _ _ := hne
  store size base heq := by
    rw [heq] at hpc
    exact absurd hpc (by simp)
  ret size heq := by
    rw [heq] at hpc
    exact absurd hpc (by simp)

/-- A move that neither stores nor returns. -/
theorem Inv.move (h : Inv s) (hpc : Sound s.brk pc) (hret : ∀ size, pc ≠ .ret size) :
    Inv (s.move c pc) := by
  have hother : ∀ d size, (s.move c pc).pcs d = .ret size → d ≠ c ∧ s.pcs d = .ret size := by
    intro d size hd
    by_cases hdc : d = c
    · subst hdc
      rw [move_self] at hd
      exact absurd hd (hret size)
    · rw [move_ne hdc] at hd
      exact ⟨hdc, hd⟩
  constructor
  case sound =>
    intro d
    by_cases hdc : d = c
    · subst hdc
      rw [move_self]
      exact hpc
    · rw [move_ne hdc]
      exact h.sound d
  case ret =>
    intro d size hd
    obtain ⟨-, hd⟩ := hother d size hd
    obtain ⟨hone, hstop⟩ := h.ret d size hd
    exact ⟨fun e size' he => hone e size' (hother e size' he).2, hstop⟩
  case stop => exact h.stop
  case disjoint => exact h.disjoint

/-- A store of a CPU that is left alone: the block that it is about to return lies between
the old `brk` and the new. -/
theorem Inv.store {brk : Word} (h : Inv s) (haway : ∀ d, d ≠ c → (s.pcs d).away = true)
    (hsize : size ≠ 0) (hbrk : s.brk.toNat + size.toNat ≤ brk.toNat) :
    Inv ({ s with brk }.move c (.ret size)) := by
  have hpos := RoundUp.toNat_pos.mpr hsize
  have hne : brk ≠ 0 := RoundUp.toNat_pos.mp (by omega)
  have honly : ∀ d size', ({ s with brk }.move c (.ret size)).pcs d = .ret size' →
      d = c ∧ size' = size := by
    intro d size' hd
    by_cases hdc : d = c
    · subst hdc
      rw [move_self] at hd
      exact ⟨rfl, (Pc.ret.inj hd).symm⟩
    · rw [move_ne hdc] at hd
      have hpc : s.pcs d = .ret size' := hd
      have := haway d hdc
      rw [hpc] at this
      exact absurd this (by simp)
  constructor
  case sound =>
    intro d
    by_cases hdc : d = c
    · subst hdc
      rw [move_self]
      refine ⟨?_, by simp, by simp, ?_⟩
      · intro size' hsize'
        obtain rfl := Option.some.inj hsize'
        exact hsize
      · intro size' heq
        obtain rfl := Pc.ret.inj heq
        show size.toNat ≤ brk.toNat
        omega
    · rw [move_ne hdc]
      exact (h.sound d).away (haway d hdc) hne
  case ret =>
    intro d size' hd
    obtain ⟨rfl, rfl⟩ := honly d size' hd
    refine ⟨fun e size he => (honly e size he).1, fun b hb => ?_⟩
    have := h.stop b hb
    show b.stop + size'.toNat ≤ brk.toNat
    omega
  case stop =>
    intro b hb
    have := h.stop b hb
    show b.stop ≤ brk.toNat
    omega
  case disjoint => exact h.disjoint

/-- A return hands out the addresses right below `brk`. -/
theorem Inv.return (h : Inv s) (hpc : s.pcs c = .ret size) :
    Inv ({ s with returned := { start := s.brk - size, size } :: s.returned }.move c .idle) := by
  have hle := (h.sound c).ret size hpc
  obtain ⟨hone, hbelow⟩ := h.ret c size hpc
  have hstart : (s.brk - size).toNat = s.brk.toNat - size.toNat :=
    BitVec.toNat_sub_of_le (BitVec.le_def.mpr hle)
  constructor
  case sound =>
    intro d
    by_cases hdc : d = c
    · subst hdc
      rw [move_self]
      exact ⟨by simp, by simp, by simp, by simp⟩
    · rw [move_ne hdc]
      exact h.sound d
  case ret =>
    intro d size' hd
    by_cases hdc : d = c
    · subst hdc
      rw [move_self] at hd
      exact absurd hd (by simp)
    · rw [move_ne hdc] at hd
      exact absurd (hone d size' hd) hdc
  case stop =>
    refine List.forall_mem_cons.mpr ⟨?_, h.stop⟩
    show (s.brk - size).toNat + size.toNat ≤ s.brk.toNat
    omega
  case disjoint =>
    refine List.pairwise_cons.mpr ⟨fun b hb x hx => ?_, h.disjoint⟩
    refine Block.disjoint_of_stop_le ?_ x hx.symm
    have := hbelow b hb
    show b.stop ≤ (s.brk - size).toNat
    omega

theorem inv_of_moved (h : Inv s) (hm : Moved heapStart s c s') : Inv s' := by
  have hs := h.sound c
  cases hm with
  | @call size hpc hsize =>
      refine h.move ⟨?_, by simp, by simp, by simp⟩ (by simp)
      intro size' hsize'
      obtain rfl := Option.some.inj hsize'
      exact hsize
  | @test size hpc =>
      have hsize := hs.size size (by rw [hpc]; rfl)
      split
      · next hbrk =>
        refine h.move ⟨?_, fun _ _ => hbrk, by simp, by simp⟩ (by simp)
        intro size' hsize'
        obtain rfl := Option.some.inj hsize'
        exact hsize
      · next hbrk =>
        refine h.move ⟨?_, by simp, ?_, by simp⟩ (by simp)
        · intro size' hsize'
          obtain rfl := Option.some.inj hsize'
          exact hsize
        · intro size' base heq
          obtain ⟨-, rfl⟩ := Pc.store.inj heq
          rw [if_neg hbrk]
  | @read size hpc =>
      have hbrk := hs.read size hpc
      refine h.move ⟨?_, by simp, ?_, by simp⟩ (by simp)
      · intro size' hsize'
        obtain rfl := Option.some.inj hsize'
        exact hs.size size (by rw [hpc]; rfl)
      · intro size' base heq
        obtain ⟨-, rfl⟩ := Pc.store.inj heq
        rw [if_pos hbrk]
  | @first size hpc haway hfits =>
      have hsize := hs.size size (by rw [hpc]; rfl)
      have hbrk : s.brk = 0 := by
        by_contra hne
        have := hs.store size none hpc
        rw [if_pos hne] at this
        exact absurd this (by simp)
      refine h.store haway hsize ?_
      rw [hbrk, BitVec.toNat_add, Nat.mod_eq_of_lt hfits]
      simp
  | @later size brk hpc haway hfits =>
      have hsize := hs.size size (by rw [hpc]; rfl)
      have hbrk : brk = s.brk := by
        have := hs.store size (some brk) hpc
        split at this
        · exact Option.some.inj this
        · exact absurd this (by simp)
      subst hbrk
      have hle := RoundUp.le_up (a := s.brk.toNat) (RoundUp.toNat_pos.mpr hsize)
      refine h.store haway hsize ?_
      rw [BitVec.toNat_add, RoundUp.toNat_roundup hsize (by omega), Nat.mod_eq_of_lt hfits]
      omega
  | ret hpc => exact h.return hpc

omit [DecidableEq Cpu] in
theorem inv_init : Inv (State.init : State Cpu) where
  sound _ := ⟨by simp [State.init], by simp [State.init], by simp [State.init],
    by simp [State.init]⟩
  ret _ _ h := absurd h (by simp [State.init])
  stop := by simp [State.init]
  disjoint := List.Pairwise.nil

/-- In any run in which no CPU stores while another is between its read of the value and its
return, and `brk` does not go past the end of the address space, no two blocks that were
returned overlap. -/
theorem returned_disjoint (h : (machine Cpu heapStart).Run (Alone heapStart) s) :
    s.returned.Pairwise Block.Disjoint := by
  have hinv : (machine Cpu heapStart).Invariant (Alone heapStart) Inv :=
    { init := by
        intro s hs
        subst hs
        exact inv_init
      step := fun s l s' hI hg hs => inv_of_moved hI (moved_of_step hg hs) }
  exact (h.invariant hinv).disjoint

end

/-- A step that meets the guard. -/
def guarded [Fintype Cpu] (heapStart : Word) (s : State Cpu) (l : Cpu × Word) :
    Option (State Cpu) :=
  if Alone heapStart s l then step heapStart l.1 l.2 s else none

theorem of_guarded [Fintype Cpu] {heapStart : Word} {s s' : State Cpu} {l : Cpu × Word}
    (h : guarded heapStart s l = some s') :
    Alone heapStart s l ∧ (machine Cpu heapStart).step s l s' := by
  rw [guarded] at h
  split at h
  · next hg => exact ⟨hg, h⟩
  · exact absurd h (by simp)

/-- The pointers of two CPUs, then a page for each of them, one after the other; the second
tests `brk` while the first is at work. -/
theorem returned_disjoint_turns : ∃ s : State (Fin 2),
    (machine (Fin 2) 0x100000).Run (Alone 0x100000) s ∧
      s.returned.map Block.start = [0x102000, 0x101000, 0x100000] ∧
      s.returned.Pairwise Block.Disjoint := by
  obtain ⟨s, hs, hend⟩ : ∃ s, System.follow (guarded 0x100000)
      [(0, 16), (0, 16), (0, 16), (0, 16), (0, 4096), (1, 4096), (0, 4096), (1, 4096), (0, 4096),
        (0, 4096), (0, 4096), (1, 4096), (1, 4096), (1, 4096)] (State.init : State (Fin 2)) =
        some s ∧ s.returned.map Block.start = [0x102000, 0x101000, 0x100000] :=
    Option.map_eq_some_iff.mp (by decide +kernel)
  have hr := System.Run.follow (fun _ _ _ h => of_guarded h) (.init rfl) hs
  exact ⟨s, hr, hend, returned_disjoint hr⟩

/-- After the call of `os_init`, two CPUs have a page fault at once: both read the same `brk`
and return the same page. -/
theorem not_returned_disjoint : ¬ ∀ s : State (Fin 2),
    (machine (Fin 2) 0x100000).Reachable s → s.returned.Pairwise Block.Disjoint := by
  intro h
  obtain ⟨s, hs, hend⟩ : ∃ s, System.follow (fun s l => step 0x100000 l.1 l.2 s)
      [(0, 16), (0, 16), (0, 16), (0, 16), (0, 4096), (0, 4096), (0, 4096), (1, 4096), (1, 4096),
        (1, 4096), (0, 4096), (0, 4096), (1, 4096), (1, 4096)] (State.init : State (Fin 2)) =
        some s ∧ s.returned =
          [⟨0x101000, 4096⟩, ⟨0x101000, 4096⟩, ⟨0x100000, 16⟩] :=
    Option.map_eq_some_iff.mp (by decide +kernel)
  have hr : (machine (Fin 2) 0x100000).Reachable s :=
    System.Run.follow (fun _ _ _ h => ⟨trivial, h⟩) (.init rfl) hs
  have hpair := h s hr
  rw [hend] at hpair
  have := (List.pairwise_cons.mp hpair).1 ⟨0x101000, 4096⟩ (by simp) 0x101000
  exact this ⟨⟨by decide, by decide⟩, by decide, by decide⟩

end OsLabs.MultiThreads.KallocRace
