import OsLabs.Xv6.Exec

/-!
# OsLabs.Xv6.Memory

What the rest of the kernel does to the memory of a process, as far as `exec` relies on it
(`Documented`), and a small kernel that does so: it has one file, and the page directory of
one process beside that of the process that runs.
-/

namespace OsLabs.Xv6

open Effects

variable {σ I P : Type}

/-- What is to be seen of the page directories in the state of the kernel. -/
structure View (σ P : Type) where
  /-- The page directory was made, and not freed. -/
  live : σ → P → Prop
  /-- The program may access the address. -/
  user : σ → P → Nat → Prop
  byte : σ → P → ByteMem

/-- The `i`-th address from `va` on. -/
def addr (va : Uint) (i : Nat) : Nat := (va.toNat + i) % 2 ^ 32

/-- The rest of the kernel does what its comments and its manual say. -/
structure Documented (k : Kernel σ I P) (h : Headers) (v : View σ P) : Prop where
  live_of_ne : ∀ op s pgdir, op ≠ .freevm pgdir → v.live s pgdir → v.live (k op s).2 pgdir
  /-- A page directory that was made is a new one. -/
  setupkvm_new : ∀ s pgdir, (k .setupkvm s).1 = some pgdir → ¬ v.live s pgdir
  /-- "Returns new size or 0 on error." It does not shrink a program. -/
  allocuvm_size : ∀ s pgdir (oldsz newsz : Uint), (k (.allocuvm pgdir oldsz newsz) s).1 ≠ 0 →
    newsz.toNat < h.kernbase ∧
      (k (.allocuvm pgdir oldsz newsz) s).1.toNat = max oldsz.toNat newsz.toNat
  allocuvm_user : ∀ s pgdir (oldsz newsz : Uint), (k (.allocuvm pgdir oldsz newsz) s).1 ≠ 0 →
    h.pgsize.toNat ∣ oldsz.toNat → ∀ a, oldsz.toNat ≤ a → a < newsz.toNat →
      v.user (k (.allocuvm pgdir oldsz newsz) s).2 pgdir a
  /-- The page that starts at `uva` becomes inaccessible, and no other does. -/
  clearpteu_user : ∀ s pgdir (uva : Uint), h.pgsize.toNat ∣ uva.toNat → ∀ a,
    (uva.toNat ≤ a → a < uva.toNat + h.pgsize.toNat →
      ¬ v.user (k (.clearpteu pgdir uva) s).2 pgdir a) ∧
    (uva.toNat + h.pgsize.toNat ≤ a → v.user s pgdir a →
      v.user (k (.clearpteu pgdir uva) s).2 pgdir a)
  /-- `copyout` succeeds where the program may access all the addresses, -/
  copyout_iff : ∀ s pgdir (va : Uint) p, p.length < 2 ^ 32 →
    (¬ (k (.copyout pgdir va p) s).1 < 0 ↔ ∀ i, i < p.length → v.user s pgdir (addr va i))
  /-- and then writes there, and nowhere else. -/
  copyout_byte : ∀ s pgdir (va : Uint) p, p.length < 2 ^ 32 →
    ¬ (k (.copyout pgdir va p) s).1 < 0 →
    (∀ i b, p[i]? = some b → v.byte (k (.copyout pgdir va p) s).2 pgdir (addr va i) = b) ∧
      ∀ a, (∀ i, i < p.length → a ≠ addr va i) →
        v.byte (k (.copyout pgdir va p) s).2 pgdir a = v.byte s pgdir a
  copyout_user : ∀ s pgdir va p a,
    v.user (k (.copyout pgdir va p) s).2 pgdir a ↔ v.user s pgdir a
  switchuvm_byte : ∀ s pgdir pgdir', v.byte (k (.switchuvm pgdir) s).2 pgdir' = v.byte s pgdir'
  /-- Freeing a page directory leaves the memory of the others. -/
  freevm_byte : ∀ s pgdir pgdir', pgdir' ≠ pgdir →
    v.byte (k (.freevm pgdir) s).2 pgdir' = v.byte s pgdir'

/-! ### Pages -/

section
variable {h : Headers} {v : View σ P} {k : Kernel σ I P} {pgdir : P} {s : σ} {sz : Uint}

/-- A page is a multiple of 4. -/
theorem Headers.four_dvd (h : Headers) : 4 ∣ h.pgsize.toNat := by
  obtain ⟨j, hj, hpow⟩ := h.pgsize_pow
  rw [hpow]
  exact Nat.pow_dvd_pow 2 hj

theorem Headers.four_le (h : Headers) : 4 ≤ h.pgsize.toNat := by
  obtain ⟨j, hj, hpow⟩ := h.pgsize_pow
  rw [hpow]
  exact Nat.pow_le_pow_right Nat.two_pos hj

/-- Where the next page starts, and where two pages from there end. -/
theorem Headers.roundup_spec (h : Headers) (hsz : sz.toNat ≤ h.kernbase) :
    sz.toNat ≤ (h.pgroundup sz).toNat ∧ h.pgsize.toNat ∣ (h.pgroundup sz).toNat ∧
      (h.pgroundup sz + 2 * h.pgsize).toNat = (h.pgroundup sz).toNat + 2 * h.pgsize.toNat := by
  obtain ⟨j, -, hpow⟩ := h.pgsize_pow
  have h4 := h.four_le
  have hbase := h.kernbase_le
  have hne : h.pgsize ≠ 0 := RoundUp.toNat_pos.mp (by omega)
  rw [h.pgroundup_eq]
  have hround : (RoundUp.roundup sz h.pgsize).toNat = RoundUp.up sz.toNat h.pgsize.toNat :=
    RoundUp.toNat_roundup hne (by omega)
  have hup : RoundUp.up sz.toNat h.pgsize.toNat ≤ sz.toNat + h.pgsize.toNat - 1 :=
    Nat.sub_le ..
  have htwo : (2 * h.pgsize).toNat = 2 * h.pgsize.toNat := by
    rw [BitVec.toNat_mul]
    change 2 * h.pgsize.toNat % 2 ^ 32 = _
    exact Nat.mod_eq_of_lt (by omega)
  refine ⟨?_, hpow ▸ RoundUp.dvd_roundup hpow, ?_⟩
  · rw [hround]
    exact RoundUp.le_up (by omega)
  · rw [BitVec.toNat_add, htwo, Nat.mod_eq_of_lt (by omega)]

/-- The size when the two pages were allocated, and where the lower one starts. -/
theorem Documented.two_pages (D : Documented k h v) (hsz : sz.toNat ≤ h.kernbase)
    (halloc : (k (.allocuvm pgdir (h.pgroundup sz) (h.pgroundup sz + 2 * h.pgsize)) s).1 ≠ 0) :
    (k (.allocuvm pgdir (h.pgroundup sz) (h.pgroundup sz + 2 * h.pgsize)) s).1.toNat =
      (h.pgroundup sz).toNat + 2 * h.pgsize.toNat ∧
    ((k (.allocuvm pgdir (h.pgroundup sz) (h.pgroundup sz + 2 * h.pgsize)) s).1 -
      2 * h.pgsize).toNat = (h.pgroundup sz).toNat := by
  obtain ⟨-, -, hnew⟩ := h.roundup_spec hsz
  obtain ⟨hlt, hmax⟩ := D.allocuvm_size _ _ _ _ halloc
  generalize k (.allocuvm pgdir (h.pgroundup sz) (h.pgroundup sz + 2 * h.pgsize)) s = r at hmax ⊢
  have hrsz : r.1.toNat = (h.pgroundup sz).toNat + 2 * h.pgsize.toNat := by omega
  have heq : r.1 = h.pgroundup sz + 2 * h.pgsize :=
    BitVec.eq_of_toNat_eq (hrsz.trans hnew.symm)
  refine ⟨hrsz, ?_⟩
  rw [heq, BitVec.add_sub_cancel]

end

/-! ### A small kernel -/

/-- Its state. The process that runs has the page directory 0. -/
structure Small where
  live : Nat → Bool
  user : Nat → Nat → Bool
  byte : Nat → ByteMem

namespace Small

/-- Before `exec`. -/
def start : Small where
  live pgdir := pgdir = 0
  user _ _ := false
  byte _ _ := 0

/-- Write to the address `va`, and on from there. -/
def write (s : Small) (pgdir : Nat) (va : Uint) (p : List UInt8) : Small :=
  { s with byte := Function.update s.byte pgdir fun a =>
      if a < 2 ^ 32 then (p[(a + 2 ^ 32 - va.toNat) % 2 ^ 32]?).getD (s.byte pgdir a)
      else s.byte pgdir a }

/-- Which addresses of a page directory may be accessed. -/
def protect (s : Small) (pgdir : Nat) (user : Nat → Bool) : Small :=
  { s with user := Function.update s.user pgdir user }

/-- The view of its state. -/
def view : View Small Nat where
  live s pgdir := s.live pgdir
  user s pgdir a := s.user pgdir a
  byte s pgdir := s.byte pgdir

end Small

/-- The small kernel, with the contents of its file. -/
def smallKernel (h : Headers) (file : List UInt8) : Kernel Small Unit Nat
  | .beginOp, s => ((), s)
  | .endOp, s => ((), s)
  | .namei _, s => (some (), s)
  | .ilock _, s => ((), s)
  | .iunlockput _, s => ((), s)
  | .readi _ off n, s =>
      (((((file.drop off.toNat).take n.toNat).length : Nat),
        (file.drop off.toNat).take n.toNat), s)
  | .setupkvm, s =>
      if s.live 1 then (none, s) else (some 1, { s with live := Function.update s.live 1 true })
  | .allocuvm pgdir oldsz newsz, s =>
      if h.kernbase ≤ newsz.toNat then (0, s)
      else if newsz < oldsz then (oldsz, s)
      else (newsz, s.protect pgdir fun a =>
        (oldsz.toNat ≤ a && a < newsz.toNat) || s.user pgdir a)
  | .loaduvm pgdir addr _ off sz, s =>
      (0, s.write pgdir addr ((file.drop off.toNat).take sz.toNat))
  | .clearpteu pgdir uva, s =>
      ((), s.protect pgdir fun a =>
        s.user pgdir a && !(uva.toNat ≤ a && a < uva.toNat + h.pgsize.toNat))
  | .copyout pgdir va p, s =>
      if (List.range p.length).all fun i => s.user pgdir (addr va i) then (0, s.write pgdir va p)
      else (-1, s)
  | .switchuvm _, s => ((), s)
  | .freevm pgdir, s => ((), { s with live := Function.update s.live pgdir false })
  | .cprintf _, s => ((), s)

theorem smallKernel_documented (h : Headers) (file : List UInt8) :
    Documented (smallKernel h file) h Small.view := by
  constructor
  case live_of_ne =>
    intro op s pgdir hop hlive
    change s.live pgdir = true at hlive
    show ((smallKernel h file op s).2).live pgdir = true
    cases op with
    | freevm pgdir' =>
        have hne : pgdir ≠ pgdir' := fun heq => hop (heq ▸ rfl)
        show Function.update s.live pgdir' false pgdir = true
        rwa [Function.update_of_ne hne]
    | setupkvm =>
        rw [smallKernel]
        split
        · exact hlive
        · show Function.update s.live 1 true pgdir = true
          by_cases hone : pgdir = 1
          · rw [hone, Function.update_self]
          · rwa [Function.update_of_ne hone]
    | allocuvm pgdir' oldsz newsz =>
        rw [smallKernel]
        split
        · exact hlive
        · split <;> exact hlive
    | copyout pgdir' va p =>
        rw [smallKernel]
        split <;> exact hlive
    | _ => exact hlive
  case setupkvm_new =>
    intro s pgdir hmade hlive
    change s.live pgdir = true at hlive
    rw [smallKernel] at hmade
    split at hmade
    · exact absurd hmade (by simp)
    · next hfree =>
      obtain rfl := Option.some.inj hmade
      exact hfree hlive
  case allocuvm_size =>
    intro s pgdir oldsz newsz hne
    simp only [smallKernel] at hne ⊢
    split at hne
    · exact absurd rfl hne
    · next hbase =>
      simp only [hbase, if_false] at hne ⊢
      split
      · next hlt =>
        rw [BitVec.lt_def] at hlt
        exact ⟨by omega, by show oldsz.toNat = _; omega⟩
      · next hle =>
        rw [BitVec.lt_def] at hle
        exact ⟨by omega, by show newsz.toNat = _; omega⟩
  case allocuvm_user =>
    intro s pgdir oldsz newsz hne _ a ha ha'
    have hle : ¬ newsz < oldsz := by
      rw [BitVec.lt_def]
      omega
    simp only [smallKernel] at hne ⊢
    split at hne
    · exact absurd rfl hne
    · next hbase =>
      simp [hbase, hle, Small.view, Small.protect, ha, ha']
  case clearpteu_user =>
    intro s pgdir uva _ a
    refine ⟨fun ha ha' => ?_, fun ha huser => ?_⟩
    · simp [smallKernel, Small.view, Small.protect, ha, ha']
    · have hout : ¬ (uva.toNat ≤ a ∧ a < uva.toNat + h.pgsize.toNat) := by omega
      simp only [Small.view] at huser
      simp [smallKernel, Small.view, Small.protect, huser]
      omega
  case copyout_iff =>
    intro s pgdir va p _
    simp only [smallKernel]
    split
    · next hall => simpa [Small.view] using hall
    · next hall => simpa [Small.view] using hall
  case copyout_byte =>
    intro s pgdir va p hp hok
    simp only [smallKernel] at hok ⊢
    split at hok
    · next hall =>
      simp only [hall, if_true, Small.view, Small.write, Function.update_self]
      have hva := va.isLt
      refine ⟨fun i b hb => ?_, fun a ha => ?_⟩
      · have hi := (List.getElem?_eq_some_iff.mp hb).1
        have hindex : (addr va i + 2 ^ 32 - va.toNat) % 2 ^ 32 = i := by
          rw [addr]
          omega
        have hlt : addr va i < 2 ^ 32 := Nat.mod_lt _ (Nat.two_pow_pos 32)
        rw [if_pos hlt, hindex, hb, Option.getD_some]
      · split
        · next hlt =>
          -- an address that was not written is behind the end of the bytes
          have hnone : p[(a + 2 ^ 32 - va.toNat) % 2 ^ 32]? = none := by
            refine List.getElem?_eq_none (Nat.le_of_not_lt fun hi => ha _ hi ?_)
            rw [addr]
            omega
          rw [hnone, Option.getD_none]
        · rfl
    · exact absurd (show (-1 : Int) < 0 by decide) hok
  case copyout_user =>
    intro s pgdir va p a
    simp only [smallKernel]
    split <;> rfl
  case switchuvm_byte => exact fun _ _ _ => rfl
  case freevm_byte => exact fun _ _ _ _ => rfl

/-- The headers of a kernel with pages of 4096 bytes. -/
def smallHeaders : Headers where
  maxarg := 32
  pgsize := 4096
  kernbase := 0x80000000
  elfMagic := 0x464c457f
  elfProgLoad := 1
  sizeofElfhdr := 52
  elfhdr b :=
    { magic := BitVec.ofNat 32 (readLE (b.getD · 0) 0 4)
      entry := BitVec.ofNat 32 (readLE (b.getD · 0) 24 4)
      phoff := BitVec.ofNat 32 (readLE (b.getD · 0) 28 4)
      phnum := BitVec.ofNat 16 (readLE (b.getD · 0) 44 2) }
  sizeofProghdr := 32
  proghdr b :=
    { type := BitVec.ofNat 32 (readLE (b.getD · 0) 0 4)
      off := BitVec.ofNat 32 (readLE (b.getD · 0) 4 4)
      vaddr := BitVec.ofNat 32 (readLE (b.getD · 0) 8 4)
      filesz := BitVec.ofNat 32 (readLE (b.getD · 0) 16 4)
      memsz := BitVec.ofNat 32 (readLE (b.getD · 0) 20 4) }
  sizeofName := 16
  pgroundup sz := RoundUp.roundup sz 4096
  safestrcpy t n := t.take (n - 1)
  pgsize_pow := ⟨12, by decide, by decide⟩
  kernbase_le := by decide
  maxarg_le := by decide
  sizeofName_pos := by decide
  pgroundup_eq _ := rfl
  safestrcpy_eq _ _ _ := rfl

/-- An executable file: the two headers, and a word of code. -/
def smallFile : List UInt8 :=
  bytesLE 4 0x464c457f ++ List.replicate 24 0 ++ bytesLE 4 52 ++ List.replicate 12 0 ++
    bytesLE 2 1 ++ List.replicate 6 0 ++
    bytesLE 4 1 ++ bytesLE 4 84 ++ List.replicate 8 0 ++ bytesLE 4 4 ++ bytesLE 4 4096 ++
    List.replicate 8 0 ++ bytesLE 4 0xfeeb

def smallProc : Proc Nat := { name := [], pgdir := 0, sz := 0, eip := 0, esp := 0 }

/-- A string of one character. -/
def letter (c : Fin 26) : CStr where
  chars := [UInt8.ofNat (97 + c)]
  noNul := by
    revert c
    decide
  fits := by simp

end OsLabs.Xv6
