import OsLabs.Effects
import OsLabs.LittleEndian
import OsLabs.RoundUp

/-!
# OsLabs.Xv6.Exec

`xv6-exec.c`: `exec`, which replaces the program of a process.

The rest of the kernel (the file system, the page tables, the console) is not in the
repository, and neither are the headers. The kernel is an environment that answers the
calls of `exec`; its state, the inodes and the page directories are any types. The
constants, layouts and macros of the headers are `Headers`, with the string function that
writes to memory of the caller only.

`goto bad` is an exit that carries the two variables that the code at the label reads.
`ustack` is an array whose elements may have no value yet; to read such an element, or to
store behind the end of the array, is the exit `fault`.
-/

namespace OsLabs.Xv6

open Effects

/-- `uint`. -/
abbrev Uint := BitVec 32

/-- A string that is in a memory with 32-bit addresses. -/
structure CStr where
  chars : List UInt8
  noNul : 0 ∉ chars
  fits : chars.length + 1 < 2 ^ 32
  deriving DecidableEq, Repr

/-- The characters of a string and its NUL. -/
def CStr.bytes (s : CStr) : List UInt8 := s.chars ++ [0]

/-- What `exec` reads of `struct elfhdr`. -/
structure Elfhdr where
  magic : Uint
  entry : Uint
  phoff : Uint
  phnum : BitVec 16
  deriving DecidableEq, Repr

/-- What `exec` reads of `struct proghdr`. -/
structure Proghdr where
  type : Uint
  off : Uint
  vaddr : Uint
  filesz : Uint
  memsz : Uint
  deriving DecidableEq, Repr

/-- The headers: constants, and what the bytes of a structure stand for. -/
structure Headers where
  /-- `MAXARG` -/
  maxarg : Nat
  /-- `PGSIZE` -/
  pgsize : Uint
  /-- `KERNBASE` -/
  kernbase : Nat
  /-- `ELF_MAGIC` -/
  elfMagic : Uint
  /-- `ELF_PROG_LOAD` -/
  elfProgLoad : Uint
  sizeofElfhdr : Uint
  elfhdr : List UInt8 → Elfhdr
  sizeofProghdr : Uint
  proghdr : List UInt8 → Proghdr
  /-- `sizeof(curproc->name)` -/
  sizeofName : Nat
  /-- `PGROUNDUP(sz)` -/
  pgroundup : Uint → Uint
  /-- `safestrcpy(s, t, n)`: the string that is in `s` afterwards. -/
  safestrcpy : List UInt8 → Nat → List UInt8
  /-- A page has a power of two of bytes, and there is room for some above the user's memory. -/
  pgsize_pow : ∃ j, 2 ≤ j ∧ pgsize.toNat = 2 ^ j
  kernbase_le : kernbase + 3 * pgsize.toNat ≤ 2 ^ 32
  maxarg_le : 4 * (maxarg + 4) < 2 ^ 32
  sizeofName_pos : 0 < sizeofName
  /-- The macro is a mask. -/
  pgroundup_eq : ∀ sz, pgroundup sz = RoundUp.roundup sz pgsize
  /-- The copy is cut where there would be no room for its NUL. -/
  safestrcpy_eq : ∀ t n, 0 < n → safestrcpy t n = t.take (n - 1)

/-- What `exec` writes of `struct proc`; `eip` and `esp` are those of its trap frame. -/
structure Proc (P : Type) where
  name : List UInt8
  pgdir : P
  sz : Uint
  eip : Uint
  esp : Uint
  deriving DecidableEq

/-! ### The calls of the kernel -/

/-- The functions of the kernel that `exec` calls, with their arguments. -/
inductive Op (I P : Type)
  | beginOp
  | endOp
  | namei (path : CStr)
  | ilock (ip : I)
  | iunlockput (ip : I)
  | readi (ip : I) (off n : Uint)
  | setupkvm
  | allocuvm (pgdir : P) (oldsz newsz : Uint)
  | loaduvm (pgdir : P) (addr : Uint) (ip : I) (off sz : Uint)
  | clearpteu (pgdir : P) (uva : Uint)
  | copyout (pgdir : P) (va : Uint) (p : List UInt8)
  | switchuvm (pgdir : P)
  | freevm (pgdir : P)
  | cprintf (fmt : String)

/-- What they return, a null pointer being `none`. `readi` also gives what it read. -/
@[reducible] def Op.Result {I P : Type} : Op I P → Type
  | .namei _ => Option I
  | .readi .. => Int × List UInt8
  | .setupkvm => Option P
  | .allocuvm .. => Uint
  | .loaduvm .. => Int
  | .copyout .. => Int
  | _ => Unit

/-- The kernel, apart from `exec`. -/
abbrev Kernel (σ I P : Type) := Environment (Op.Result : Op I P → Type) σ

/-- The state of the kernel, the process that runs, and the calls that were made. -/
abbrev World (σ I P : Type) := Machine (Op.Result : Op I P → Type) σ (Proc P)

/-- How `exec` leaves its straight way. -/
inductive Exit (I P : Type)
  /-- `goto bad`, with the values of `pgdir` and `ip`. -/
  | bad (pgdir : Option P) (ip : Option I)
  /-- Undefined behaviour. -/
  | fault

variable {σ I P : Type}

/-- `if(c) goto bad;` -/
def badIf (c : Prop) [Decidable c] (pgdir : Option P) (ip : Option I) :
    Code (Exit I P) (World σ I P) PUnit :=
  if c then throw (.bad pgdir ip) else pure ()

/-! ### The array of the words of the stack -/

/-- `uint ustack[3+MAXARG+1]`; an element that was not stored has no value. -/
abbrev Ustack := List (Option Uint)

/-- The array at the start of the function. -/
def Ustack.fresh (h : Headers) : Ustack := List.replicate (3 + h.maxarg + 1) none

/-- `ustack[i] = v` -/
def store (ustack : Ustack) (i : Nat) (v : Uint) : Code (Exit I P) (World σ I P) Ustack :=
  if i < ustack.length then pure (ustack.set i (some v)) else throw .fault

/-- The first `n` elements. -/
def load (ustack : Ustack) (n : Nat) : Code (Exit I P) (World σ I P) (List Uint) :=
  if n ≤ ustack.length then
    match (ustack.take n).mapM id with
    | some words => pure words
    | none => throw .fault
  else
    throw .fault

/-- The bytes of a word in memory. -/
def wordBytes (v : Uint) : List UInt8 := bytesLE 4 v.toNat

/-! ### The function -/

variable (k : Kernel σ I P) (h : Headers)

/-- The loop over the program headers, with `rounds` of them to come. -/
def loadSegments (ip : I) (pgdir : P) : Nat → Uint → Uint → Code (Exit I P) (World σ I P) Uint
  | 0, _, sz => pure sz
  | rounds + 1, off, sz => do
      let read ← call k (.readi ip off h.sizeofProghdr)
      badIf (read.1 ≠ h.sizeofProghdr.toNat) (some pgdir) (some ip)
      let ph := h.proghdr read.2
      if ph.type ≠ h.elfProgLoad then
        loadSegments ip pgdir rounds (off + h.sizeofProghdr) sz
      else
        badIf (ph.memsz < ph.filesz) (some pgdir) (some ip)
        badIf (ph.vaddr + ph.memsz < ph.vaddr) (some pgdir) (some ip)
        let sz ← call k (.allocuvm pgdir sz (ph.vaddr + ph.memsz))
        badIf (sz = 0) (some pgdir) (some ip)
        badIf (ph.vaddr % h.pgsize ≠ 0) (some pgdir) (some ip)
        let loaded ← call k (.loaduvm pgdir ph.vaddr ip ph.off ph.filesz)
        badIf (loaded < 0) (some pgdir) (some ip)
        loadSegments ip pgdir rounds (off + h.sizeofProghdr) sz

/-- The code while the inode is locked: the new page directory, the size of the program in
it, and the header. -/
def loadProgram (ip : I) : Code (Exit I P) (World σ I P) (P × Uint × Elfhdr) := do
  let read ← call k (.readi ip 0 h.sizeofElfhdr)
  badIf (read.1 ≠ h.sizeofElfhdr.toNat) none (some ip)
  let elf := h.elfhdr read.2
  badIf (elf.magic ≠ h.elfMagic) none (some ip)
  match ← call k .setupkvm with
  | none => throw (.bad none (some ip))
  | some pgdir =>
      let sz ← loadSegments k h ip pgdir elf.phnum.toNat elf.phoff 0
      pure (pgdir, sz, elf)

/-- `(sp - (strlen(s) + 1)) & ~3` -/
def below (sp : Uint) (s : CStr) : Uint := (sp - BitVec.ofNat 32 (s.chars.length + 1)) &&& ~~~3

/-- The loop that pushes the argument strings. -/
def pushArgs (pgdir : P) : List CStr → Nat → Uint → Ustack →
    Code (Exit I P) (World σ I P) (Nat × Uint × Ustack)
  | [], argc, sp, ustack => pure (argc, sp, ustack)
  | s :: argv, argc, sp, ustack => do
      badIf (h.maxarg ≤ argc) (some pgdir) none
      let sp := below sp s
      let copied ← call k (.copyout pgdir sp s.bytes)
      badIf (copied < 0) (some pgdir) none
      let ustack ← store ustack (3 + argc) sp
      pushArgs pgdir argv (argc + 1) sp ustack

/-- The words below the strings. -/
def pushWords (pgdir : P) (argc : Nat) (sp : Uint) (ustack : Ustack) :
    Code (Exit I P) (World σ I P) Uint := do
  let ustack ← store ustack (3 + argc) 0
  let ustack ← store ustack 0 0xffffffff
  let ustack ← store ustack 1 (BitVec.ofNat 32 argc)
  let ustack ← store ustack 2 (sp - BitVec.ofNat 32 ((argc + 1) * 4))
  let sp := sp - BitVec.ofNat 32 ((3 + argc + 1) * 4)
  let words ← load ustack (3 + argc + 1)
  let copied ← call k (.copyout pgdir sp (words.flatMap wordBytes))
  badIf (copied < 0) (some pgdir) none
  pure sp

/-- The code between the two parts that change the process: `sz` and `sp`. -/
def buildStack (pgdir : P) (argv : List CStr) (sz : Uint) :
    Code (Exit I P) (World σ I P) (Uint × Uint) := do
  let sz := h.pgroundup sz
  let sz ← call k (.allocuvm pgdir sz (sz + 2 * h.pgsize))
  badIf (sz = 0) (some pgdir) none
  call k (.clearpteu pgdir (sz - 2 * h.pgsize))
  let (argc, sp, ustack) ← pushArgs k h pgdir argv 0 sz (Ustack.fresh h)
  let sp ← pushWords k pgdir argc sp ustack
  pure (sz, sp)

/-- `for(last=s=path; *s; s++) if(*s == '/') last = s+1;` -/
def lastName : List UInt8 → List UInt8 → List UInt8
  | [], last => last
  | c :: s, last => lastName s (if c = '/'.toUInt8 then s else last)

/-- What the assignments to `curproc` leave there. -/
def newImage (path : CStr) (pgdir : P) (sz sp : Uint) (elf : Elfhdr) : Proc P where
  name := h.safestrcpy (lastName path.chars path.chars) h.sizeofName
  pgdir := pgdir
  sz := sz
  eip := elf.entry
  esp := sp

/-- From `// Save program name` to the last `return`. -/
def commitImage (path : CStr) (pgdir : P) (sz sp : Uint) (elf : Elfhdr) :
    Code (Exit I P) (World σ I P) Int := do
  let oldpgdir := (← get).mem.pgdir
  modify fun w => { w with mem := newImage h path pgdir sz sp elf }
  call k (.switchuvm pgdir)
  call k (.freevm oldpgdir)
  pure 0

/-- The label `bad`. -/
def bad (pgdir : Option P) (ip : Option I) : Code (Exit I P) (World σ I P) Int := do
  pgdir.forM fun pgdir => call k (.freevm pgdir)
  ip.forM fun ip => do
    call k (.iunlockput ip)
    call k .endOp
  pure (-1)

/-- The function, up to the label. -/
def execBody (path : CStr) (argv : List CStr) : Code (Exit I P) (World σ I P) Int := do
  call k .beginOp
  match ← call k (.namei path) with
  | none =>
      call k .endOp
      call k (.cprintf "exec: fail\n")
      pure (-1)
  | some ip =>
      call k (.ilock ip)
      let (pgdir, sz, elf) ← loadProgram k h ip
      call k (.iunlockput ip)
      call k .endOp
      let (sz, sp) ← buildStack k h pgdir argv sz
      commitImage k h path pgdir sz sp elf

/-- `exec(path, argv)` -/
def exec (path : CStr) (argv : List CStr) : Code (Exit I P) (World σ I P) Int :=
  tryCatch (execBody k h path argv) fun e =>
    match e with
    | .bad pgdir ip => bad k pgdir ip
    | .fault => throw .fault

end OsLabs.Xv6
