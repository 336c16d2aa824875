import Mathlib.Logic.Function.Basic
import Mathlib.Tactic.Ring

/-!
# OsLabs.LittleEndian

Numbers in byte memory, lowest byte first.

`writeLE` is the loop `mem[at + i] = num % 256; num /= 256;`, `readLE` the number that so
many bytes stand for. A number is read back as it was written, up to what did not fit
(`readLE_writeLE`), and reading is compatible with cutting the bytes at any point
(`readLE_add`), which is how a word that is written in one place and read in another is
taken apart.
-/

namespace OsLabs

/-- Byte memory. -/
abbrev ByteMem := Nat → UInt8

/-- Write `n` bytes of `num` from the address `start` on. -/
def writeLE (mem : ByteMem) (start : Nat) : Nat → Nat → ByteMem
  | 0, _ => mem
  | n + 1, num =>
      writeLE (Function.update mem start (UInt8.ofNat (num % 256))) (start + 1) n (num / 256)

/-- The number in the `n` bytes from the address `start` on. -/
def readLE (mem : ByteMem) (start : Nat) : Nat → Nat
  | 0 => 0
  | n + 1 => (mem start).toNat + 256 * readLE mem (start + 1) n

section
variable {mem mem' : ByteMem} {start n m num i : Nat}

theorem readLE_congr (h : ∀ i, start ≤ i → i < start + n → mem i = mem' i) :
    readLE mem start n = readLE mem' start n := by
  induction n generalizing start with
  | zero => rfl
  | succ n ih =>
      rw [readLE, readLE, h start (Nat.le_refl _) (by omega),
        ih fun i hi hn => h i (by omega) (by omega)]

theorem readLE_lt (mem : ByteMem) (start n : Nat) : readLE mem start n < 256 ^ n := by
  induction n generalizing start with
  | zero => exact Nat.one_pos
  | succ n ih =>
      have hbyte := (mem start).toNat_lt
      have hrest := ih (start + 1)
      rw [readLE, Nat.pow_succ]
      omega

/-- The bytes can be cut at any point. -/
theorem readLE_add : readLE mem start (m + n) =
    readLE mem start m + 256 ^ m * readLE mem (start + m) n := by
  induction m generalizing start with
  | zero => simp [readLE]
  | succ m ih =>
      rw [Nat.succ_add, readLE, readLE, ih, Nat.pow_succ,
        show start + 1 + m = start + (m + 1) by omega]
      ring

/-- All bytes are zero when the number is. -/
theorem readLE_zero (h : ∀ i, start ≤ i → i < start + n → mem i = 0) :
    readLE mem start n = 0 := by
  induction n generalizing start with
  | zero => rfl
  | succ n ih =>
      rw [readLE, h start (Nat.le_refl _) (by omega),
        ih fun i hi hn => h i (by omega) (by omega)]
      rfl

/-- Nothing else is written. -/
theorem writeLE_of_outside (h : i < start ∨ start + n ≤ i) :
    writeLE mem start n num i = mem i := by
  induction n generalizing mem start num with
  | zero => rfl
  | succ n ih =>
      rw [writeLE, ih (by omega), Function.update_of_ne (by omega)]

/-- The byte that is written last. -/
theorem writeLE_succ (mem : ByteMem) (start n num : Nat) : writeLE mem start (n + 1) num =
    Function.update (writeLE mem start n num) (start + n)
      (UInt8.ofNat (num / 256 ^ n % 256)) := by
  induction n generalizing mem start num with
  | zero => simp [writeLE]
  | succ n ih =>
      rw [writeLE, ih, writeLE, Nat.div_div_eq_div_mul, ← Nat.pow_succ',
        show start + 1 + n = start + (n + 1) by omega]

/-- What is read is what was written, as far as it fits. -/
theorem readLE_writeLE (mem : ByteMem) (start n num : Nat) :
    readLE (writeLE mem start n num) start n = num % 256 ^ n := by
  induction n generalizing mem start num with
  | zero => simp [readLE, Nat.mod_one]
  | succ n ih =>
      have hfirst : writeLE mem start (n + 1) num start = UInt8.ofNat (num % 256) := by
        rw [writeLE, writeLE_of_outside (.inl (Nat.lt_succ_self _)), Function.update_self]
      have hbyte : (UInt8.ofNat (num % 256)).toNat = num % 256 :=
        UInt8.toNat_ofNat_of_lt (Nat.mod_lt _ (by decide))
      rw [readLE, hfirst, hbyte, writeLE, ih, Nat.pow_succ, Nat.mul_comm (256 ^ n),
        Nat.mod_mul]

/-- The first bytes of a longer write. -/
theorem readLE_writeLE_add :
    readLE (writeLE mem start (m + n) num) start m = num % 256 ^ m := by
  have hread := readLE_writeLE mem start (m + n) num
  rw [readLE_add, Nat.pow_add, Nat.mod_mul] at hread
  have hlow := readLE_lt (writeLE mem start (m + n) num) start m
  have hlow' := Nat.mod_lt num (Nat.pow_pos (n := m) (by decide : 0 < 256))
  have hmod := congrArg (· % 256 ^ m) hread
  simpa [Nat.add_mul_mod_self_left, Nat.mod_eq_of_lt hlow] using hmod

/-- A write changes nothing exactly when the number is there already. -/
theorem writeLE_eq_self_iff :
    writeLE mem start n num = mem ↔ readLE mem start n = num % 256 ^ n := by
  refine ⟨?_, ?_⟩
  · intro h
    rw [← readLE_writeLE mem start, h]
  · intro h
    induction n generalizing mem start num with
    | zero => rfl
    | succ n ih =>
        have hbyte := (mem start).toNat_lt
        rw [readLE, Nat.pow_succ, Nat.mul_comm (256 ^ n), Nat.mod_mul] at h
        have hfirst : (mem start).toNat = num % 256 := by omega
        have hrest : readLE mem (start + 1) n = num / 256 % 256 ^ n := by omega
        have hsame : UInt8.ofNat (num % 256) = mem start := by
          rw [← hfirst, UInt8.ofNat_toNat]
        rw [writeLE, hsame, Function.update_eq_self]
        exact ih hrest

end

/-! ### Lists of bytes in memory -/

/-- The `n` bytes of a number. -/
def bytesLE : Nat → Nat → List UInt8
  | 0, _ => []
  | n + 1, num => UInt8.ofNat (num % 256) :: bytesLE n (num / 256)

/-- The bytes are in memory from the address `start` on. -/
def BytesAt (mem : ByteMem) (start : Nat) (bytes : List UInt8) : Prop :=
  ∀ i b, bytes[i]? = some b → mem (start + i) = b

section
variable {mem mem' : ByteMem} {start n num : Nat} {b : UInt8} {bytes bytes' : List UInt8}

@[simp] theorem bytesLE_length : (bytesLE n num).length = n := by
  induction n generalizing num with
  | zero => rfl
  | succ n ih => rw [bytesLE, List.length_cons, ih]

theorem bytesAt_cons :
    BytesAt mem start (b :: bytes) ↔ mem start = b ∧ BytesAt mem (start + 1) bytes := by
  refine ⟨?_, ?_⟩
  · intro h
    refine ⟨h 0 b rfl, fun i c hc => ?_⟩
    rw [Nat.add_assoc, Nat.add_comm 1]
    exact h (i + 1) c hc
  · rintro ⟨hb, hrest⟩ i c hc
    cases i with
    | zero =>
        obtain rfl := Option.some.inj hc
        exact hb
    | succ i =>
        rw [Nat.add_comm i, ← Nat.add_assoc]
        exact hrest i c hc

theorem bytesAt_append : BytesAt mem start (bytes ++ bytes') ↔
    BytesAt mem start bytes ∧ BytesAt mem (start + bytes.length) bytes' := by
  induction bytes generalizing start with
  | nil => simp [BytesAt]
  | cons b bytes ih =>
      rw [List.cons_append, bytesAt_cons, bytesAt_cons, ih, List.length_cons, and_assoc,
        Nat.add_assoc, Nat.add_comm 1]

/-- Memory that is the same where the bytes are. -/
theorem BytesAt.congr (h : BytesAt mem start bytes)
    (hsame : ∀ a, start ≤ a → a < start + bytes.length → mem' a = mem a) :
    BytesAt mem' start bytes := by
  intro i b hb
  have hi := (List.getElem?_eq_some_iff.mp hb).1
  rw [hsame _ (Nat.le_add_right ..) (by omega)]
  exact h i b hb

/-- A number is read from where its bytes are. -/
theorem BytesAt.readLE (h : BytesAt mem start (bytesLE n num)) :
    readLE mem start n = num % 256 ^ n := by
  induction n generalizing start num with
  | zero => simp [OsLabs.readLE, Nat.mod_one]
  | succ n ih =>
      obtain ⟨hfirst, hrest⟩ := bytesAt_cons.mp h
      have hbyte : (UInt8.ofNat (num % 256)).toNat = num % 256 :=
        UInt8.toNat_ofNat_of_lt (Nat.mod_lt _ (by decide))
      rw [OsLabs.readLE, hfirst, hbyte, ih hrest, Nat.pow_succ, Nat.mul_comm (256 ^ n),
        Nat.mod_mul]

end

end OsLabs
