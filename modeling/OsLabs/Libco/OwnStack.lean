import OsLabs.Loop
import OsLabs.Libco.Machine
import OsLabs.Libco.RetAddr

/-!
# OsLabs.Libco.OwnStack

How `co_yield` of `libco/co-first.c` starts a coroutine on its own stack, byte by byte.

A loop writes the address of `callback` to the stack, lowest byte first, and
`stack_switch_call` loads the stack pointer; `func` returns to the word it then finds
there. The machine of `OsLabs.Libco.Machine` has that word for the bottom frame of the
stack. Here the two places agree, on either architecture
(`func_returns_to_callback`); in `libco/co.c` they do not (`OsLabs.Libco.RetAddr`).
-/

namespace OsLabs.Libco.OwnStack

open Pool (Abi)

/-- `co->stack`, of every coroutine. -/
abbrev CoStacks := Ptr → ByteMem

/-- `stack[start + i] = num % 256; num /= 256;`; `none` when the index is outside `stack`. -/
def byteRound (start : Nat) (s : ByteMem × Nat) (i : Nat) : Option (ByteMem × Nat) :=
  if start + i < stackSize then
    some (Function.update s.1 (start + i) (UInt8.ofNat (s.2 % 256)), s.2 / 256)
  else
    none

/-- The byte loop of `co_yield`, where `callback` is the address of the function. -/
def storeCallback (abi : Abi) (m : CoStacks) (current : Ptr) (callback : Nat) :
    Option CoStacks :=
  match abi with
  | .x86_64 =>
      (loop (byteRound (stackSize - 32)) 16 (m current, callback)).map fun s =>
        Function.update m current s.1
  | .i386 =>
      (loop (byteRound (stackSize - 40)) 4 (m current, callback)).map fun s =>
        Function.update m current s.1

/-- The stacks and the registers when `func` begins. -/
structure Switched where
  stack : CoStacks
  /-- `rsp` or `esp`, as an index of the stack of the coroutine. -/
  sp : Nat
  pc : Nat
  /-- Not written on 32-bit. -/
  rdi : Option Nat

/-- `stack_switch_call(&co->stack[sp], entry, arg)`; `none` when the argument would go
outside the stack. -/
def stackSwitchCall (abi : Abi) (m : CoStacks) (co : Ptr) (sp entry arg : Nat) :
    Option Switched :=
  match abi with
  | .x86_64 => some { stack := m, sp, pc := entry, rdi := some arg }
  | .i386 =>
      -- `movl %2, 4(%0)` stores four bytes behind the new stack pointer
      if sp - 8 + 4 + 4 ≤ stackSize then
        some {
          stack := Function.update m co (writeLE (m co) (sp - 8 + 4) 4 arg)
          sp := sp - 8
          pc := entry
          rdi := none }
      else
        none

/-- The word the processor pops when `func` returns. -/
def returnAddr (abi : Abi) (m : CoStacks) (co : Ptr) (sp : Nat) : Nat :=
  readLE (m co) sp abi.wordSize

/-- The argument `func` finds. -/
def argument (abi : Abi) (s : Switched) (co : Ptr) : Option Nat :=
  match abi with
  | .x86_64 => s.rdi
  | .i386 => some (readLE (s.stack co) (s.sp + 4) 4)

/-- The stack pointer with which `co_yield` starts a coroutine. -/
def bottom (abi : Abi) : Nat := Pool.stackSwitchPointer abi (stackSize - 32)

/-- `m'` differs from `m` only in the stack of `co`, at the indices from `start` up to
`stop`. -/
def ChangedWithin (m m' : CoStacks) (co : Ptr) (start stop : Nat) : Prop :=
  ∀ d i, m' d i ≠ m d i → d = co ∧ start ≤ i ∧ i < stop

section
variable {abi : Abi} {m m' : CoStacks} {stack : ByteMem} {co : Ptr}
  {start stop start' stop' n num callback entry arg : Nat}

theorem ChangedWithin.mono (h : ChangedWithin m m' co start stop) (hstart : start' ≤ start)
    (hstop : stop ≤ stop') : ChangedWithin m m' co start' stop' := by
  intro d i hne
  obtain ⟨hd, hi, hlt⟩ := h d i hne
  exact ⟨hd, hstart.trans hi, hlt.trans_le hstop⟩

theorem ChangedWithin.trans {m'' : CoStacks} (h : ChangedWithin m m' co start stop)
    (h' : ChangedWithin m' m'' co start stop) : ChangedWithin m m'' co start stop := by
  intro d i hne
  by_cases heq : m'' d i = m' d i
  · exact h d i (heq ▸ hne)
  · exact h' d i heq

/-- A word in front of the changes is still there. -/
theorem ChangedWithin.returnAddr_eq (h : ChangedWithin m m' co start stop) {sp : Nat}
    (hsp : sp + abi.wordSize ≤ start) : returnAddr abi m' co sp = returnAddr abi m co sp := by
  refine readLE_congr fun i _ hlt => ?_
  by_contra hne
  obtain ⟨-, hi, -⟩ := h co i hne
  omega

theorem changedWithin_writeLE :
    ChangedWithin m (Function.update m co (writeLE (m co) start n num)) co start (start + n) := by
  intro d i hne
  by_cases hd : d = co
  · subst hd
    rw [Function.update_self] at hne
    refine ⟨rfl, ?_⟩
    by_contra hout
    exact hne (writeLE_of_outside (by omega))
  · exact absurd (congrFun (Function.update_of_ne hd ..) i) hne

/-- Inside the array, the loop writes a number in little-endian order. -/
theorem loop_byteRound (hroom : start + n ≤ stackSize) :
    loop (byteRound start) n (stack, num) = some (writeLE stack start n num, num / 256 ^ n) := by
  induction n with
  | zero => simp [loop, writeLE]
  | succ n ih =>
      have hlt : start + n < stackSize := by omega
      rw [loop, ih (by omega), Option.bind_some, byteRound, if_pos hlt, writeLE_succ,
        Nat.div_div_eq_div_mul, ← Nat.pow_succ]

/-- The loop puts the address where the stack pointer will be. On x86-64 it writes as many
zeros again above it. -/
theorem storeCallback_eq (m : CoStacks) (co : Ptr) (hlt : callback < 256 ^ abi.wordSize) :
    ∃ m', storeCallback abi m co callback = some m' ∧
      returnAddr abi m' co (bottom abi) = callback ∧
      ChangedWithin m m' co (bottom abi) stackSize := by
  cases abi with
  | x86_64 =>
      have hloop : storeCallback .x86_64 m co callback =
          some (Function.update m co (writeLE (m co) (stackSize - 32) 16 callback)) := by
        rw [storeCallback, loop_byteRound (by decide), Option.map_some]
      have hword : readLE (writeLE (m co) (stackSize - 32) (8 + 8) callback) (stackSize - 32) 8 =
          callback := readLE_writeLE_add.trans (Nat.mod_eq_of_lt hlt)
      refine ⟨_, hloop, ?_, ?_⟩
      · rw [returnAddr, Function.update_self]
        exact hword
      · exact changedWithin_writeLE.mono (Nat.le_refl (stackSize - 32)) (by decide)
  | i386 =>
      have hloop : storeCallback .i386 m co callback =
          some (Function.update m co (writeLE (m co) (stackSize - 40) 4 callback)) := by
        rw [storeCallback, loop_byteRound (by decide), Option.map_some]
      have hword : readLE (writeLE (m co) (stackSize - 40) 4 callback) (stackSize - 40) 4 =
          callback := (readLE_writeLE ..).trans (Nat.mod_eq_of_lt hlt)
      refine ⟨_, hloop, ?_, ?_⟩
      · rw [returnAddr, Function.update_self]
        exact hword
      · exact changedWithin_writeLE.mono (Nat.le_refl (stackSize - 40)) (by decide)

/-- `stack_switch_call` passes the argument, and writes above the word at the stack
pointer only. -/
theorem stackSwitchCall_eq (m : CoStacks) (co : Ptr) (entry : Nat)
    (hlt : arg < 256 ^ abi.wordSize) :
    ∃ s, stackSwitchCall abi m co (stackSize - 32) entry arg = some s ∧
      s.sp = bottom abi ∧ s.pc = entry ∧ argument abi s co = some arg ∧
      ChangedWithin m s.stack co (bottom abi + abi.wordSize) stackSize := by
  cases abi with
  | x86_64 =>
      exact ⟨_, rfl, rfl, rfl, rfl, fun d i hne => absurd rfl hne⟩
  | i386 =>
      have hroom : stackSize - 32 - 8 + 4 + 4 ≤ stackSize := by decide
      have harg : readLE (writeLE (m co) (stackSize - 32 - 8 + 4) 4 arg) (stackSize - 32 - 8 + 4)
          4 = arg := (readLE_writeLE ..).trans (Nat.mod_eq_of_lt hlt)
      refine ⟨_, by rw [stackSwitchCall, if_pos hroom], rfl, rfl, ?_, ?_⟩
      · simp only [argument, Function.update_self, harg]
      · exact changedWithin_writeLE.mono (Nat.le_refl (stackSize - 32 - 8 + 4)) hroom

end

/-- The byte loop writes the address of `callback` to the word at the stack pointer that
`stack_switch_call` installs; the argument does not touch it, and all that is written lies
inside the stack of the coroutine. -/
theorem func_returns_to_callback (abi : Abi) (m : CoStacks) (choice : Ptr)
    (callback entry arg : Nat) (hcallback : callback < 256 ^ abi.wordSize)
    (harg : arg < 256 ^ abi.wordSize) :
    ∃ m' s, storeCallback abi m choice callback = some m' ∧
      stackSwitchCall abi m' choice (stackSize - 32) entry arg = some s ∧
      s.sp = Pool.stackSwitchPointer abi (stackSize - 32) ∧ s.pc = entry ∧
      returnAddr abi m' choice s.sp = callback ∧
      ChangedWithin m' s.stack choice (s.sp + abi.wordSize) stackSize ∧
      returnAddr abi s.stack choice s.sp = callback ∧ argument abi s choice = some arg ∧
      ChangedWithin m s.stack choice 0 stackSize := by
  obtain ⟨m', hm', hword, hwrite⟩ := storeCallback_eq m choice hcallback
  obtain ⟨s, hs, hsp, hpc, hargument, habove⟩ := stackSwitchCall_eq m' choice entry harg
  refine ⟨m', s, hm', hs, hsp, hpc, hsp ▸ hword, hsp ▸ habove, ?_, hargument, ?_⟩
  · rw [habove.returnAddr_eq (Nat.le_of_eq (by rw [hsp])), hsp, hword]
  · exact (hwrite.mono (Nat.zero_le _) (Nat.le_refl _)).trans
      (habove.mono (Nat.zero_le _) (Nat.le_refl _))

/-- A 32-bit program whose `callback` is at 0x8049196. -/
theorem func_returns_to_callback_i386 :
    ∃ m' s, storeCallback .i386 (fun _ _ => 0) 2 0x8049196 = some m' ∧
      stackSwitchCall .i386 m' 2 (stackSize - 32) 0x8049250 0x804c034 = some s ∧
      returnAddr .i386 s.stack 2 s.sp = 0x8049196 ∧ argument .i386 s 2 = some 0x804c034 := by
  obtain ⟨m', s, hm', hs, -, -, -, -, hword, harg, -⟩ :=
    func_returns_to_callback .i386 (fun _ _ => 0) 2 0x8049196 0x8049250 0x804c034 (by decide)
      (by decide)
  exact ⟨m', s, hm', hs, hword, harg⟩

end OsLabs.Libco.OwnStack
