import Mathlib.Data.List.Basic
import OsLabs.Xv6.Memory

/-!
# OsLabs.Xv6.Bounds

Where the segments of a program are put. `loadSegments` takes the addresses and the sizes
from the file, which may say anything. The tests between `allocuvm` and `loaduvm` are just
the ones that are needed: `loaduvm`, which panics at an address that is not the start of a
page or that was not allocated, is never called there (`exec_inBounds`).
-/

namespace OsLabs.Xv6

open Effects

variable {σ I P : Type}

/-- The calls that are allowed when so many bytes of the new image are allocated. -/
def inBounds (h : Headers) : Protocol (Op.Result : Op I P → Type) Nat
  | size, .allocuvm _ oldsz _, sz =>
      if oldsz.toNat < size then none else if sz = 0 then some size else some sz.toNat
  | size, .loaduvm _ addr _ _ sz, _ =>
      if h.pgsize.toNat ∣ addr.toNat ∧ addr.toNat + sz.toNat ≤ size then some size else none
  | size, .clearpteu _ uva, _ =>
      if h.pgsize.toNat ∣ uva.toNat ∧ uva.toNat + 2 * h.pgsize.toNat = size then some size
      else none
  | size, _, _ => some size

section
variable {k : Kernel σ I P} {h : Headers} {v : View σ P} {pgdir : P}

/-- The calls so far were allowed, and `size` bytes are allocated. -/
def Sized (h : Headers) (size : Nat) (w : World σ I P) : Prop := At (inBounds h) 0 size w

/-- At the label, and everywhere. -/
def SomeSize (h : Headers) (w : World σ I P) : Prop := ∃ size, Sized h size w

/-- The calls that allocate nothing. -/
theorem call_sized {op : Op I P} {size : Nat} {E : Exit I P → World σ I P → Prop}
    (hop : ∀ r, inBounds h size op r = some size) :
    Triple (Sized h size) (call k op : Code (Exit I P) (World σ I P) _) (fun _ => Sized h size) E :=
  Triple.call fun _ hw => hw.answered (hop _)

theorem badIf_sized {size : Nat} {c : Prop} [Decidable c] {pgdir : Option P} {ip : Option I} :
    Triple (Sized h size) (badIf c pgdir ip : Code _ (World σ I P) _)
      (fun _ w => Sized h size w ∧ ¬ c) fun _ => SomeSize h :=
  Triple.ite (fun _ => Triple.throw fun _ hw => ⟨size, hw⟩) fun hc =>
    Triple.pure fun _ hw => ⟨hw, hc⟩

theorem store_sized {size i : Nat} {ustack : Ustack} {v : Uint} :
    Triple (Sized h size) (store ustack i v : Code (Exit I P) (World σ I P) _)
      (fun _ => Sized h size) fun _ => SomeSize h :=
  Triple.ite (fun _ => Triple.pure fun _ hw => hw) fun _ => Triple.throw fun _ hw => ⟨size, hw⟩

theorem load_sized {size n : Nat} {ustack : Ustack} :
    Triple (Sized h size) (load ustack n : Code (Exit I P) (World σ I P) _)
      (fun _ => Sized h size) fun _ => SomeSize h := by
  refine Triple.ite (fun _ => ?_) fun _ => Triple.throw fun _ hw => ⟨size, hw⟩
  split
  · exact Triple.pure fun _ hw => hw
  · exact Triple.throw fun _ hw => ⟨size, hw⟩

/-- A segment is loaded into the memory that was allocated for it. -/
theorem loadSegments_sized (D : Documented k h v) (ip : I) (rounds : Nat) (off sz : Uint)
    (hsz : sz.toNat ≤ h.kernbase) :
    Triple (Sized h sz.toNat) (loadSegments k h ip pgdir rounds off sz : Code _ (World σ I P) _)
      (fun r w => Sized h r.toNat w ∧ r.toNat ≤ h.kernbase) (fun _ => SomeSize h) := by
  induction rounds generalizing off sz with
  | zero => exact Triple.pure fun _ hw => ⟨hw, hsz⟩
  | succ rounds ih =>
      rw [loadSegments]
      refine Triple.bind (call_sized fun _ => rfl) fun read => ?_
      refine Triple.bind badIf_sized fun _ => Triple.pull fun _ => ?_
      refine Triple.ite (fun _ => ih _ _ hsz) fun _ => ?_
      refine Triple.bind badIf_sized fun _ => Triple.pull fun hfile => ?_
      refine Triple.bind badIf_sized fun _ => Triple.pull fun hwrap => ?_
      generalize h.proghdr read.2 = ph at hfile hwrap ⊢
      rw [BitVec.lt_def] at hfile hwrap
      -- the end of the segment does not wrap around
      have hend : (ph.vaddr + ph.memsz).toNat = ph.vaddr.toNat + ph.memsz.toNat := by
        have hv := ph.vaddr.isLt
        have hm := ph.memsz.isLt
        rw [BitVec.toNat_add] at hwrap ⊢
        omega
      refine Triple.bind (Q := fun r w => Sized h (if r = 0 then sz.toNat else r.toNat) w ∧
        (r ≠ 0 → ph.vaddr.toNat + ph.memsz.toNat ≤ r.toNat ∧ r.toNat ≤ h.kernbase))
        (Triple.call fun w hw => ⟨hw.answered ?_, fun hne => ?_⟩) fun r => Triple.pull fun hr => ?_
      · simp only [inBounds, Nat.lt_irrefl, if_false]
        split <;> rfl
      · have := D.allocuvm_size _ _ _ _ hne
        omega
      refine Triple.bind badIf_sized fun _ => Triple.pull fun hne => ?_
      obtain ⟨hin, hbase⟩ := hr hne
      rw [if_neg hne]
      refine Triple.bind badIf_sized fun _ => Triple.pull fun haligned => ?_
      have hdvd : h.pgsize.toNat ∣ ph.vaddr.toNat := by
        refine Nat.dvd_of_mod_eq_zero ?_
        rw [← BitVec.toNat_umod, not_not.mp haligned]
        rfl
      refine Triple.bind (call_sized fun _ => ?_) fun loaded => ?_
      · exact if_pos ⟨hdvd, by omega⟩
      refine Triple.bind badIf_sized fun _ => Triple.pull fun _ => ?_
      exact ih _ _ hbase

theorem loadProgram_sized (D : Documented k h v) (ip : I) :
    Triple (Sized h 0) (loadProgram k h ip : Code _ (World σ I P) _)
      (fun r w => Sized h r.2.1.toNat w ∧ r.2.1.toNat ≤ h.kernbase) (fun _ => SomeSize h) := by
  rw [loadProgram]
  refine Triple.bind (call_sized fun _ => rfl) fun read => ?_
  refine Triple.bind badIf_sized fun _ => Triple.pull fun _ => ?_
  refine Triple.bind badIf_sized fun _ => Triple.pull fun _ => ?_
  refine Triple.bind (call_sized fun _ => rfl) fun made => ?_
  cases made with
  | none => exact Triple.throw fun _ hw => ⟨0, hw⟩
  | some pgdir =>
      refine Triple.bind (loadSegments_sized D ip _ _ 0 (Nat.zero_le _)) fun sz => ?_
      exact Triple.pure fun _ hw => hw

/-- Pushing the arguments allocates nothing, whether it succeeds or not. -/
theorem pushArgs_sized {size : Nat} (argv : List CStr) (argc : Nat) (sp : Uint)
    (ustack : Ustack) :
    Triple (Sized h size) (pushArgs k h pgdir argv argc sp ustack : Code _ (World σ I P) _)
      (fun _ => Sized h size) (fun _ => SomeSize h) := by
  induction argv generalizing argc sp ustack with
  | nil => exact Triple.pure fun _ hw => hw
  | cons s argv ih =>
      rw [pushArgs]
      refine Triple.bind badIf_sized fun _ => Triple.pull fun _ => ?_
      refine Triple.bind (call_sized fun _ => rfl) fun copied => ?_
      refine Triple.bind badIf_sized fun _ => Triple.pull fun _ => ?_
      exact Triple.bind store_sized fun ustack => ih _ _ _

theorem pushWords_sized {size : Nat} (argc : Nat) (sp : Uint) (ustack : Ustack) :
    Triple (Sized h size) (pushWords k pgdir argc sp ustack : Code _ (World σ I P) _)
      (fun _ => Sized h size) (fun _ => SomeSize h) := by
  rw [pushWords]
  refine Triple.bind store_sized fun _ => ?_
  refine Triple.bind store_sized fun _ => ?_
  refine Triple.bind store_sized fun _ => ?_
  refine Triple.bind store_sized fun _ => ?_
  refine Triple.bind load_sized fun words => ?_
  refine Triple.bind (call_sized fun _ => rfl) fun copied => ?_
  refine Triple.bind badIf_sized fun _ => Triple.pull fun _ => ?_
  exact Triple.pure fun _ hw => hw

/-- The page that is made inaccessible is the lower one of the two. -/
theorem buildStack_sized (D : Documented k h v) (argv : List CStr) (sz : Uint)
    (hsz : sz.toNat ≤ h.kernbase) :
    Triple (Sized h sz.toNat) (buildStack k h pgdir argv sz : Code _ (World σ I P) _)
      (fun r => Sized h r.1.toNat) (fun _ => SomeSize h) := by
  obtain ⟨hle, hdvd, -⟩ := h.roundup_spec hsz
  rw [buildStack]
  refine Triple.bind (Q := fun r w => Sized h (if r = 0 then sz.toNat else r.toNat) w ∧
    (r ≠ 0 → r.toNat = (h.pgroundup sz).toNat + 2 * h.pgsize.toNat ∧
      (r - 2 * h.pgsize).toNat = (h.pgroundup sz).toNat))
    (Triple.call fun w hw => ⟨hw.answered ?_, fun hne => D.two_pages hsz hne⟩) fun r =>
      Triple.pull fun hr => ?_
  · simp only [inBounds, Nat.not_lt.mpr hle, if_false]
    split <;> rfl
  refine Triple.bind badIf_sized fun _ => Triple.pull fun hne => ?_
  obtain ⟨htop, hlow⟩ := hr hne
  rw [if_neg hne]
  refine Triple.bind (call_sized fun _ => ?_) fun _ => ?_
  · refine if_pos ⟨?_, ?_⟩
    · rw [hlow]
      exact hdvd
    · rw [hlow, htop]
  refine Triple.bind (pushArgs_sized argv 0 r _) fun pushed => ?_
  obtain ⟨argc, sp, ustack⟩ := pushed
  refine Triple.bind (pushWords_sized argc sp ustack) fun esp => ?_
  exact Triple.pure fun _ hw => hw

theorem commitImage_sized (path : CStr) (sz sp : Uint) (elf : Elfhdr) :
    Triple (Sized h sz.toNat) (commitImage k h path pgdir sz sp elf : Code _ (World σ I P) _)
      (fun r w => r = 0 ∧ Sized h w.mem.sz.toNat w) (fun _ => SomeSize h) := by
  rw [commitImage]
  refine Triple.bind (Q := fun _ => Sized h sz.toNat) (Triple.get fun _ hw => hw) fun w0 => ?_
  refine Triple.bind (Q := fun _ w => Sized h sz.toNat w ∧ w.mem.sz = sz)
    (Triple.modify fun _ hw => ⟨hw, rfl⟩) fun _ => ?_
  refine Triple.bind (Q := fun _ w => Sized h sz.toNat w ∧ w.mem.sz = sz)
    (Triple.call fun _ hw => ⟨hw.1.answered rfl, hw.2⟩) fun _ => ?_
  refine Triple.bind (Q := fun _ w => Sized h sz.toNat w ∧ w.mem.sz = sz)
    (Triple.call fun _ hw => ⟨hw.1.answered rfl, hw.2⟩) fun _ => Triple.pure ?_
  rintro w ⟨hw, rfl⟩
  exact ⟨rfl, hw⟩

/-- What was allocated in the end; the new process has it all. -/
def FinalSize (h : Headers) (r : Int) (w : World σ I P) : Prop :=
  ∃ size, Sized h size w ∧ (r = 0 → w.mem.sz.toNat = size)

theorem bad_sized (pgdir : Option P) (ip : Option I) {E : Exit I P → World σ I P → Prop} :
    Triple (SomeSize h) (bad k pgdir ip : Code _ (World σ I P) _) (FinalSize h) E := by
  refine Triple.of_exists fun size => ?_
  rw [bad]
  refine Triple.bind (Q := fun _ => Sized h size) (Triple.forM (fun _ _ hw => hw)
    fun _ _ => call_sized fun _ => rfl) fun _ => ?_
  refine Triple.bind (Q := fun _ => Sized h size) (Triple.forM (fun _ _ hw => hw)
    fun _ _ => ?_) fun _ => Triple.pure fun _ hw => ⟨size, hw, fun hr => absurd hr (by decide)⟩
  exact Triple.bind (call_sized fun _ => rfl) fun _ => call_sized fun _ => rfl

theorem execBody_sized (D : Documented k h v) (path : CStr) (argv : List CStr) :
    Triple (Sized h 0) (execBody k h path argv : Code _ (World σ I P) _) (FinalSize h)
      (fun _ => SomeSize h) := by
  rw [execBody]
  refine Triple.bind (call_sized fun _ => rfl) fun _ => ?_
  refine Triple.bind (call_sized fun _ => rfl) fun found => ?_
  cases found with
  | none =>
      refine Triple.bind (call_sized fun _ => rfl) fun _ => ?_
      refine Triple.bind (call_sized fun _ => rfl) fun _ => ?_
      exact Triple.pure fun _ hw => ⟨0, hw, fun hr => absurd hr (by decide)⟩
  | some ip =>
      refine Triple.bind (call_sized fun _ => rfl) fun _ => ?_
      refine Triple.bind (loadProgram_sized D ip) fun loaded => Triple.pull fun hsz => ?_
      obtain ⟨pgdir, sz, elf⟩ := loaded
      refine Triple.bind (call_sized fun _ => rfl) fun _ => ?_
      refine Triple.bind (call_sized fun _ => rfl) fun _ => ?_
      refine Triple.bind (buildStack_sized D argv sz hsz) fun built => ?_
      obtain ⟨sz, sp⟩ := built
      exact (commitImage_sized path sz sp elf).weaken (fun _ hw => hw)
        (fun _ _ hw => ⟨_, hw.2, fun _ => rfl⟩) fun _ _ hw => hw

end

/-- Whatever the file says, `loaduvm` is only called for the start of a page and for
addresses that were allocated; `allocuvm` is told a size that is not below what was
allocated, and `clearpteu` the lower one of the two pages allocated last. The new process
has the size that was allocated in the end. -/
theorem exec_inBounds {k : Kernel σ I P} {h : Headers} {v : View σ P} (D : Documented k h v)
    (path : CStr) (argv : List CStr) (env : σ) (proc : Proc P) (r : Except (Exit I P) Int)
    (w : World σ I P)
    (hrun : (exec k h path argv).exec { env, mem := proc, history := [] } = (r, w)) :
    ∃ size, Protocol.follow (inBounds h) 0 w.history = some size ∧
      (r.toOption = some 0 → w.mem.sz.toNat = size) := by
  have hspec : Triple (Sized h 0) (exec k h path argv : Code _ (World σ I P) _) (FinalSize h)
      fun _ => SomeSize h := by
    rw [exec]
    refine Triple.catch (execBody_sized D path argv) fun e => ?_
    cases e with
    | bad pgdir ip => exact bad_sized pgdir ip
    | fault => exact Triple.throw fun _ hw => hw
  have hstart : Sized h 0 ({ env, mem := proc, history := [] } : World σ I P) := rfl
  cases r with
  | ok r =>
      obtain ⟨size, hsize, hret⟩ := hspec.ok hstart hrun
      exact ⟨size, hsize, fun hr => hret (Option.some.inj hr)⟩
  | error e =>
      obtain ⟨size, hsize⟩ := hspec.error hstart hrun
      exact ⟨size, hsize, fun hr => absurd hr (by simp [Except.toOption])⟩

theorem exec_inBounds_small : ∃ w,
    (exec (smallKernel smallHeaders smallFile) smallHeaders (letter 2) [letter 0]).exec
      { env := Small.start, mem := smallProc, history := [] } = w ∧
    ∃ size, Protocol.follow (inBounds smallHeaders) 0 w.2.history = some size ∧
      w.2.mem.sz.toNat = size := by
  refine ⟨_, rfl, ?_⟩
  obtain ⟨size, hfollow, hsize⟩ := exec_inBounds (smallKernel_documented smallHeaders smallFile)
    (letter 2) [letter 0] Small.start smallProc _ _ rfl
  exact ⟨size, hfollow, hsize (by decide +kernel)⟩

end OsLabs.Xv6
