import Mathlib.Data.List.Infix
import Mathlib.Logic.Function.Basic
import OsLabs.Loop

/-!
# OsLabs.Pstree.Proc

`tree/pstree_source_code.c`: the array `P` of processes, the passes over it (`MakeTree`,
`MarkProcs`, `DropProcs`) and `PrintTree`.

The links between processes are indices into `P`, `-1` for none; here they are of type
`Option Nat`. The loops along the links get fuel, and have no result when it runs out.
A string is the list of its characters before the NUL, and `snprintf` keeps of one what
fits in the buffer.
-/

namespace OsLabs.Pstree

/-- The bytes of a string. -/
abbrev Text := List Char

/-- `struct Proc`. -/
structure Proc where
  uid : Int
  pid : Int
  ppid : Int
  pgid : Int
  name : Text
  cmd : Text
  print : Bool
  /-- `-1` is `none`, here and in the next two. -/
  parent : Option Nat
  child : Option Nat
  sister : Option Nat
  thcount : Nat

/-- What is read about a process. -/
structure Entry where
  uid : Int
  pid : Int
  ppid : Int
  pgid : Int
  name : Text
  cmd : Text
  thcount : Nat
  deriving Inhabited

/-- The process as it is stored when it has been read. -/
def Entry.proc (e : Entry) : Proc :=
  { uid := e.uid, pid := e.pid, ppid := e.ppid, pgid := e.pgid, name := e.name, cmd := e.cmd,
    print := false, parent := none, child := none, sister := none, thcount := e.thcount }

/-- Three processes: `init`, a shell below it and `ps` below that. -/
def threeProcs : List Entry :=
  [{ uid := 0, pid := 1, ppid := 0, pgid := 1, name := ['r', 'o', 'o', 't'],
     cmd := ['i', 'n', 'i', 't'], thcount := 1 },
   { uid := 7, pid := 20, ppid := 1, pgid := 20, name := ['a'], cmd := ['s', 'h'], thcount := 1 },
   { uid := 7, pid := 21, ppid := 20, pgid := 20, name := ['a'], cmd := ['p', 's'], thcount := 1 }]

/-- The array `P`, of `NProc` elements. -/
structure Table where
  nproc : Nat
  proc : Nat → Proc

/-- The array when the processes have been read. -/
def Table.ofEntries (l : List Entry) : Table :=
  { nproc := l.length, proc := fun i => (l.getD i default).proc }

/-- `struct TreeChars`. -/
structure TreeChars where
  s2 : Text
  p : Text
  pgl : Text
  npgl : Text
  barc : Text
  bar : Text
  barl : Text
  sg : Text
  eg : Text
  init : Text

/-- `G_ASCII` and the others. -/
inductive Graph
  | ascii
  | pc850
  | vt100
  | utf8
  deriving DecidableEq, Repr

/-- A string given by its bytes. -/
def bytes (l : List Nat) : Text := l.map Char.ofNat

/-- The array `TreeChars`. -/
def Graph.chars : Graph → TreeChars
  | .ascii =>
      { s2 := ['-', '-'], p := ['-', '+'], pgl := ['='], npgl := ['-'], barc := ['|'],
        bar := ['|'], barl := ['\\'], sg := [], eg := [], init := [] }
  | .pc850 =>
      { s2 := bytes [0xC4, 0xC4], p := bytes [0xC4, 0xC2], pgl := bytes [0xFA],
        npgl := bytes [0xC4], barc := bytes [0xC3], bar := bytes [0xB3], barl := bytes [0xC0],
        sg := [], eg := [], init := [] }
  | .vt100 =>
      { s2 := ['q', 'q'], p := ['q', 'w'], pgl := bytes [0x60], npgl := ['q'], barc := ['t'],
        bar := ['x'], barl := ['m'], sg := bytes [0x0E], eg := bytes [0x0F],
        init := bytes [0x1B] ++ ['(', 'B'] ++ bytes [0x1B] ++ [')', '0'] }
  | .utf8 =>
      { s2 := bytes [0xE2, 0x94, 0x80, 0xE2, 0x94, 0x80],
        p := bytes [0xE2, 0x94, 0x80, 0xE2, 0x94, 0xAC], pgl := ['='],
        npgl := bytes [0xE2, 0x94, 0x80], barc := bytes [0xE2, 0x94, 0x9C],
        bar := bytes [0xE2, 0x94, 0x82], barl := bytes [0xE2, 0x94, 0x94],
        sg := [], eg := [], init := [] }

/-- What the command line has set. -/
structure Options where
  showall : Bool := true
  soption : Bool := false
  uoption : Bool := false
  name : Text := []
  str : Text := []
  ipid : Int := -1
  maxLdepth : Nat := 100
  chars : TreeChars := Graph.chars .ascii
  wide : Bool := false

/-- `MAXLINE`. -/
def maxline : Nat := 8192

/-- `Columns`, from the width of the window, which is 0 where it is not known. -/
def columns (o : Options) (window : Nat) : Nat :=
  let width := if o.wide then maxline - 1 else window
  let width := if width = 0 then maxline - 1 else width
  let width := width + o.chars.sg.length + o.chars.eg.length
  if width ≥ maxline then maxline - 1 else width

namespace Table

/-- Overwrite the element `i`. -/
def set (P : Table) (i : Nat) (p : Proc) : Table :=
  { P with proc := Function.update P.proc i p }

/-- `P[i].parent = v`. -/
def setParent (P : Table) (i : Nat) (v : Option Nat) : Table :=
  P.set i { P.proc i with parent := v }

/-- `P[i].child = v`. -/
def setChild (P : Table) (i : Nat) (v : Option Nat) : Table :=
  P.set i { P.proc i with child := v }

/-- `P[i].sister = v`. -/
def setSister (P : Table) (i : Nat) (v : Option Nat) : Table :=
  P.set i { P.proc i with sister := v }

/-- `P[i].print = TRUE`. -/
def setPrint (P : Table) (i : Nat) : Table := P.set i { P.proc i with print := true }

/-- The loop of `get_pid_index`, when it has come down to the first `n` elements. -/
def pidIndexBelow (P : Table) (pid : Int) : Nat → Option Nat
  | 0 => none
  | me + 1 => if (P.proc me).pid = pid then some me else P.pidIndexBelow pid me

/-- `get_pid_index(pid)`. -/
def getPidIndex (P : Table) (pid : Int) : Option Nat := P.pidIndexBelow pid P.nproc

/-- A `long` in a variable of type `int`. -/
def toInt (n : Int) : Int := n.bmod 4294967296

/-- `GetRootPid()`, which returns an `int`; `none` where it gives up. -/
def getRootPid (P : Table) : Option Int :=
  let first (test : Proc → Bool) : Option Int :=
    ((List.range P.nproc).find? fun me => test (P.proc me)).map fun me => toInt (P.proc me).pid
  first (fun p => p.pid = 1) <|> first (fun p => p.ppid = 0) <|> first (fun p => p.ppid = 1) <|>
    first (fun p => p.pid = p.ppid)

/-! ### `MakeTree` -/

/-- The search for the last sister. -/
def lastSister (P : Table) : Nat → Nat → Option Nat
  | 0, _ => none
  | fuel + 1, sister =>
      match (P.proc sister).sister with
      | none => some sister
      | some next => P.lastSister fuel next

/-- The body of the loop of `MakeTree`. -/
def adopt (fuel : Nat) (P : Table) (me : Nat) : Option Table :=
  match P.getPidIndex (P.proc me).ppid with
  | none => some P
  | some parent =>
      if parent ≠ me then
        let P := P.setParent me (some parent)
        match (P.proc parent).child with
        | none => some (P.setChild parent (some me))
        | some child => (P.lastSister fuel child).map fun sister => P.setSister sister (some me)
      else
        some P

/-- `MakeTree()`. -/
def makeTree (fuel : Nat) (P : Table) : Option Table := loop (adopt fuel) P.nproc P

/-! ### `MarkProcs` -/

/-- The condition for a process to be shown with its relatives. -/
def Matches (o : Options) (myPid : Int) (p : Proc) : Prop :=
  p.name = o.name ∨ (o.uoption ∧ p.name ≠ ['r', 'o', 'o', 't']) ∨ p.pid = o.ipid ∨
    (o.soption ∧ o.str <:+: p.cmd ∧ p.pid ≠ myPid)

instance (o : Options) (myPid : Int) (p : Proc) : Decidable (Matches o myPid p) :=
  inferInstanceAs (Decidable (_ ∨ (_ ∧ _) ∨ _ ∨ (_ ∧ _ ∧ _)))

/-- The loop that marks the parents. -/
def markParents : Nat → Table → Option Nat → Option Table
  | 0, _, _ => none
  | _ + 1, P, none => some P
  | fuel + 1, P, some parent =>
      markParents fuel (P.setPrint parent) ((P.setPrint parent).proc parent).parent

mutual

/-- `MarkChildren(me)`. -/
def markChildren : Nat → Table → Nat → Option Table
  | 0, _, _ => none
  | fuel + 1, P, me => markSisters fuel (P.setPrint me) ((P.setPrint me).proc me).child

/-- The loop of `MarkChildren`, from `child` on. -/
def markSisters : Nat → Table → Option Nat → Option Table
  | 0, _, _ => none
  | _ + 1, P, none => some P
  | fuel + 1, P, some child =>
      (markChildren fuel P child).bind fun P => markSisters fuel P (P.proc child).sister

end

/-- The body of the loop of `MarkProcs`. -/
def markProc (o : Options) (myPid : Int) (fuel : Nat) (P : Table) (me : Nat) : Option Table :=
  if o.showall then
    some (P.setPrint me)
  else if Matches o myPid (P.proc me) then
    (markParents fuel P (P.proc me).parent).bind fun P => markChildren fuel P me
  else
    some P

/-- `MarkProcs()`. -/
def markProcs (o : Options) (myPid : Int) (fuel : Nat) (P : Table) : Option Table :=
  loop (markProc o myPid fuel) P.nproc P

/-! ### `DropProcs` -/

/-- The loops of `DropProcs`: the first process that prints, from one on. -/
def firstPrinting (P : Table) : Nat → Option Nat → Option (Option Nat)
  | 0, _ => none
  | _ + 1, none => some none
  | fuel + 1, some i =>
      if (P.proc i).print then some (some i) else P.firstPrinting fuel (P.proc i).sister

/-- The body of the loop of `DropProcs`. -/
def dropProc (fuel : Nat) (P : Table) (me : Nat) : Option Table :=
  if (P.proc me).print then
    (P.firstPrinting fuel (P.proc me).child).bind fun child =>
      let P := P.setChild me child
      (P.firstPrinting fuel (P.proc me).sister).map fun sister => P.setSister me sister
  else
    some P

/-- `DropProcs()`. -/
def dropProcs (fuel : Nat) (P : Table) : Option Table := loop (dropProc fuel) P.nproc P

end Table

/-! ### `PrintTree` -/

/-- What is left of a string in a buffer of `size` bytes. -/
def snprintf (size : Nat) (s : Text) : Text := s.take (size - 1)

/-- `%05ld`: the digits, filled up with zeros to a width of five, sign included. -/
def padded (n : Int) : Text :=
  let digits := Nat.toDigits 10 n.natAbs
  if n < 0 then '-' :: (List.replicate (4 - digits.length) '0' ++ digits)
  else List.replicate (5 - digits.length) '0' ++ digits

/-- `thread`. -/
def Proc.thread (p : Proc) : Text :=
  if p.thcount > 1 then snprintf 16 (['['] ++ Nat.toDigits 10 p.thcount ++ [']']) else []

/-- The text that `PrintTree` puts together for a process, which has a sister, or a child, or
has not. -/
def Proc.text (C : TreeChars) (p : Proc) (head : Text) (sister child : Bool) : Text :=
  C.sg ++ head ++
    (if head = [] then [] else if sister then C.barc else C.barl) ++
    (if child then C.p else C.s2) ++
    (if p.pid = p.pgid then C.pgl else C.npgl) ++
    C.eg ++ [' '] ++ padded p.pid ++ [' '] ++ p.name ++ [' '] ++ p.thread ++ p.cmd

/-- The line that is put out. -/
def Proc.line (C : TreeChars) (columns : Nat) (p : Proc) (head : Text) (sister child : Bool) :
    Text :=
  (snprintf (4 * maxline) (p.text C head sister child)).take (columns - 1)

/-- `nhead`. -/
def nhead (C : TreeChars) (head : Text) (sister : Bool) : Text :=
  snprintf maxline
    (head ++ (if head = [] then [] else if sister then C.bar else [' ']) ++ [' '])

/-- `atLdepth`, and the lines that have been put out. -/
structure Output where
  atLdepth : Nat
  lines : List Text

/-- How `main` ends. -/
inductive Ending
  /-- `exit(1)` -/
  | gaveUp
  /-- `PrintTree(-1, "")`, which reads outside `P`. -/
  | outside
  /-- It returns. The string `init` was put out, and these lines with a newline each. -/
  | printed (init : Text) (lines : List Text)
  deriving DecidableEq, Repr

/-- Put out some lines. -/
def Output.put (out : Output) (lines : List Text) : Output :=
  { out with lines := out.lines ++ lines }

namespace Table

variable (o : Options) (columns : Nat) (P : Table)

mutual

/-- `PrintTree(idx, head)`. -/
def printTree : Nat → Nat → Text → Output → Option Output
  | 0, _, _, _ => none
  | fuel + 1, idx, head, out =>
      if head = [] ∧ (P.proc idx).print = false then
        some out
      else if out.atLdepth = o.maxLdepth then
        some out
      else
        let sister := (P.proc idx).sister.isSome
        let line := (P.proc idx).line o.chars columns head sister (P.proc idx).child.isSome
        let out := { out with atLdepth := out.atLdepth + 1 }.put [line]
        (printSisters fuel (P.proc idx).child (nhead o.chars head sister) out).map fun out =>
          { out with atLdepth := out.atLdepth - 1 }

/-- The loop of `PrintTree`, from `child` on. -/
def printSisters : Nat → Option Nat → Text → Output → Option Output
  | 0, _, _, _ => none
  | _ + 1, none, _, out => some out
  | fuel + 1, some child, nhead, out =>
      (printTree fuel child nhead out).bind fun out =>
        printSisters fuel (P.proc child).sister nhead out

end

/-- The processes to begin with: the root, or the arguments for which there is one. Without
arguments `main` does not look whether there is a root, and `none` is where there is not. -/
def starts (rootPid : Int) (args : List Int) : Option (List Nat) :=
  if args = [] then (P.getPidIndex rootPid).map fun idx => [idx]
  else some (args.filterMap P.getPidIndex)

/-- The calls of `PrintTree` in `main`. -/
def printAll (fuel : Nat) : List Nat → Output → Option Output
  | [], out => some out
  | idx :: l, out => (printTree o columns P fuel idx [] out).bind (printAll fuel l)

/-- `main`, from the calls of `PrintTree` on. -/
def printFrom (window fuel : Nat) : Option (List Nat) → Option Ending
  | none => some .outside
  | some start =>
      (P.printAll o (Pstree.columns o window) fuel start { atLdepth := 0, lines := [] }).map
        fun out => .printed o.chars.init out.lines

/-- `main`, when it has read the processes. -/
def main (window : Nat) (myPid : Int) (args : List Int) (fuel : Nat) : Option Ending :=
  if P.nproc = 0 then
    some .gaveUp
  else
    match P.getRootPid with
    | none => some .gaveUp
    | some rootPid =>
        (P.makeTree fuel).bind fun P =>
          (P.markProcs o myPid fuel).bind fun P =>
            (P.dropProcs fuel).bind fun P =>
              P.printFrom o window fuel (P.starts rootPid args)

end Table

end OsLabs.Pstree
