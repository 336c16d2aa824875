import OsLabs.LittleEndian
import OsLabs.Libco.Pool

/-!
# OsLabs.Libco.RetAddr

The return address at the bottom of a coroutine's own stack, in `libco/co.c`.

When `co_yield` starts a coroutine, `set_ret_addr` writes the address of `callback` to a
stack, and `stack_switch_call` loads the stack pointer; the machine of
`OsLabs.Libco.Pool` takes it for granted that the function then returns to `callback`.
Here the two are read byte by byte. On x86-64 the address is written four bytes above the
place it is read from; on 32-bit it is written four bytes above, and to the stack of
`current` (`set_ret_addr_iff`).
-/

namespace OsLabs.Libco.Pool

/-- The two architectures the code is written for. -/
inductive Abi
  | x86_64
  | i386
  deriving DecidableEq, Repr

/-- The bytes of an address. -/
def Abi.wordSize : Abi → Nat
  | .x86_64 => 8
  | .i386 => 4

/-- `STACK_SIZE`. -/
def stackSize : Nat := 64 * 2 ^ 10

/-- `co->stack`, of every coroutine. -/
abbrev StackBytes := Ref → ByteMem

/-- `set_ret_addr(co)`, where `callback` is the address of the function. -/
def setRetAddr (abi : Abi) (m : StackBytes) (current co : Ref) (callback : Nat) : StackBytes :=
  match abi with
  | .x86_64 => Function.update m co (writeLE (m co) (stackSize - 28) 16 callback)
  | .i386 => Function.update m current (writeLE (m current) (stackSize - 36) 4 callback)

/-- The stack pointer after `stack_switch_call(&stack[sp], …)`, as an index of `stack`. -/
def stackSwitchPointer (abi : Abi) (sp : Nat) : Nat :=
  match abi with
  | .x86_64 => sp
  | .i386 => sp - 8

/-- The word at the stack pointer with which `co_yield` starts `choice`. -/
def returnWord (abi : Abi) (m : StackBytes) (choice : Ref) : Nat :=
  readLE (m choice) (stackSwitchPointer abi (stackSize - 32)) abi.wordSize

/-- `choice` returns to `callback`, and no other stack has changed. -/
structure Returns (abi : Abi) (m m' : StackBytes) (choice : Ref) (callback : Nat) : Prop where
  word : returnWord abi m' choice = callback
  frame : ∀ r, r ≠ choice → m' r = m r

/-- When that is so, in terms of what was on the two stacks before. -/
def RetAddrFits (abi : Abi) (m : StackBytes) (current choice : Ref) (callback : Nat) : Prop :=
  match abi with
  | .x86_64 =>
      -- the low half is written behind the four bytes the word begins with
      callback % 2 ^ 32 = readLE (m choice) (stackSize - 32) 4 ∧
        callback / 2 ^ 32 = callback % 2 ^ 32
  | .i386 =>
      readLE (m choice) (stackSize - 40) 4 = callback ∧
        readLE (m current) (stackSize - 36) 4 = callback

instance (abi : Abi) (m : StackBytes) (current choice : Ref) (callback : Nat) :
    Decidable (RetAddrFits abi m current choice callback) :=
  match abi with
  | .x86_64 => inferInstanceAs (Decidable (_ ∧ _))
  | .i386 => inferInstanceAs (Decidable (_ ∧ _))

section
variable {m : StackBytes} {current choice : Ref} {callback : Nat}

/-- The word on x86-64: four old bytes, and the low half of the address. -/
theorem returnWord_x86_64 :
    returnWord .x86_64 (setRetAddr .x86_64 m current choice callback) choice =
      readLE (m choice) (stackSize - 32) 4 + 2 ^ 32 * (callback % 2 ^ 32) := by
  have hold : readLE (writeLE (m choice) (stackSize - 28) 16 callback) (stackSize - 32) 4 =
      readLE (m choice) (stackSize - 32) 4 :=
    readLE_congr fun i hi hlt => writeLE_of_outside (.inl (by simp only [stackSize] at *; omega))
  have hlow : readLE (writeLE (m choice) (stackSize - 28) 16 callback) (stackSize - 32 + 4) 4 =
      callback % 256 ^ 4 := readLE_writeLE_add (m := 4) (n := 12)
  rw [returnWord, setRetAddr, Function.update_self]
  rw [show Abi.x86_64.wordSize = 4 + 4 from rfl, stackSwitchPointer, readLE_add, hold, hlow,
    show (256 : Nat) ^ 4 = 2 ^ 32 by norm_num]

theorem returns_x86_64_iff :
    Returns .x86_64 m (setRetAddr .x86_64 m current choice callback) choice callback ↔
      RetAddrFits .x86_64 m current choice callback := by
  have hframe : ∀ r, r ≠ choice → setRetAddr .x86_64 m current choice callback r = m r :=
    fun r hr => Function.update_of_ne hr ..
  have hold := readLE_lt (m choice) (stackSize - 32) 4
  rw [RetAddrFits]
  refine ⟨?_, ?_⟩
  · intro h
    have hword := h.word
    rw [returnWord_x86_64] at hword
    omega
  · intro h
    refine ⟨?_, hframe⟩
    rw [returnWord_x86_64]
    omega

theorem returns_i386_iff (hne : choice ≠ current) (hlt : callback < 256 ^ 4) :
    Returns .i386 m (setRetAddr .i386 m current choice callback) choice callback ↔
      RetAddrFits .i386 m current choice callback := by
  have hchoice : setRetAddr .i386 m current choice callback choice = m choice :=
    Function.update_of_ne hne ..
  have hword : returnWord .i386 (setRetAddr .i386 m current choice callback) choice =
      readLE (m choice) (stackSize - 40) 4 := by
    rw [returnWord, hchoice]
    rfl
  have hstack : setRetAddr .i386 m current choice callback current = m current ↔
      readLE (m current) (stackSize - 36) 4 = callback := by
    rw [setRetAddr, Function.update_self, writeLE_eq_self_iff, Nat.mod_eq_of_lt hlt]
  rw [RetAddrFits, ← hword, ← hstack]
  refine ⟨?_, ?_⟩
  · intro h
    exact ⟨h.word, h.frame current hne.symm⟩
  · intro h
    refine ⟨h.1, fun r hr => ?_⟩
    by_cases hcur : r = current
    · rw [hcur]
      exact h.2
    · exact Function.update_of_ne hcur ..

/-- A coroutine that `co_start` has just created has a stack of zeros, and then only the
address 0 fits. -/
theorem retAddrFits_new (abi : Abi) (hnew : ∀ i, i < stackSize → m choice i = 0)
    (h : RetAddrFits abi m current choice callback) : callback = 0 := by
  have hzero : ∀ start, start + 4 ≤ stackSize → readLE (m choice) start 4 = 0 :=
    fun start hle => readLE_zero fun i _ hi => hnew i (by omega)
  cases abi with
  | x86_64 =>
      obtain ⟨hlow, hhigh⟩ := h
      rw [hzero _ (by decide)] at hlow
      omega
  | i386 =>
      obtain ⟨hword, -⟩ := h
      rw [hzero _ (by decide)] at hword
      exact hword.symm

end

/-- `choice` is started with `callback` for its return address, and no other stack is
changed, exactly when what was on the stacks before happens to fit. On the stack of zeros
that `co_start` leaves, nothing does but the address 0. -/
theorem set_ret_addr_iff (abi : Abi) (m : StackBytes) {current choice : Ref} {callback : Nat}
    (hne : choice ≠ current) (hlt : callback < 256 ^ abi.wordSize) :
    (Returns abi m (setRetAddr abi m current choice callback) choice callback ↔
      RetAddrFits abi m current choice callback) ∧
    ((∀ i, i < stackSize → m choice i = 0) → RetAddrFits abi m current choice callback →
      callback = 0) := by
  refine ⟨?_, fun hnew h => retAddrFits_new abi hnew h⟩
  cases abi with
  | x86_64 => exact returns_x86_64_iff
  | i386 => exact returns_i386_iff hne hlt

/-- A program whose `callback` is at 0x401136, and a coroutine that was just created. -/
theorem set_ret_addr_iff_new :
    ¬ Returns .x86_64 (fun _ _ => 0)
      (setRetAddr .x86_64 (fun _ _ => 0) (.co 0) (.co 1) 0x401136) (.co 1) 0x401136 := by
  have hne : Ref.co 1 ≠ .co 0 := by decide
  have hlt : 0x401136 < 256 ^ Abi.wordSize .x86_64 := by decide
  obtain ⟨hiff, hnew⟩ := set_ret_addr_iff .x86_64 (fun _ _ => 0) hne hlt
  intro h
  exact absurd (hnew (fun _ _ => rfl) (hiff.mp h)) (by decide)

/-- There the word is 0x40113600000000. -/
theorem not_set_ret_addr :
    ¬ ∀ (abi : Abi) (m : StackBytes) (current choice : Ref) (callback : Nat),
      choice ≠ current → callback < 256 ^ abi.wordSize → (∀ i, i < stackSize → m choice i = 0) →
        Returns abi m (setRetAddr abi m current choice callback) choice callback := by
  intro h
  have hword := (h .x86_64 (fun _ _ => 0) (.co 0) (.co 1) 0x401136 (by decide) (by decide)
    (fun _ _ => rfl)).word
  rw [returnWord_x86_64, readLE_zero fun _ _ _ => rfl] at hword
  exact absurd hword (by decide)

end OsLabs.Libco.Pool
