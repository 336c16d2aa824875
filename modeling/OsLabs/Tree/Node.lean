import Mathlib.Logic.Function.Basic
import OsLabs.Loop

/-!
# OsLabs.Tree.Node

`tree/tree.c`: the array `lib` of nodes, the loops that link them to a tree, and
`buildtree`, which prints it.

The nodes lie one after the other in memory and the code computes addresses across
them: `findpeertail` is called with the address of a `peer` field, cast to a node. So a
pointer is a byte offset from `&lib[0]`, and a field is read and written through its
address (`resolve`), with the offsets of the declared layout. An address that is not
that of a pointer field of an element is a fault, as is a pointer to nothing.
-/

namespace OsLabs.Tree

/-- `struct node`. -/
structure Node where
  string : String
  depth : Nat
  pid : Int
  ppid : Int
  /-- `NULL` is `none`. -/
  child : Option Nat
  peer : Option Nat
  deriving DecidableEq, Repr

/-- `sizeof(struct node)`: 64 bytes for `string`, three `int`s, four bytes of padding and
two pointers. -/
def sizeofNode : Nat := 96

/-- `offsetof(struct node, child)`. -/
def childOffset : Nat := 80

/-- `offsetof(struct node, peer)`. -/
def peerOffset : Nat := 88

/-- The array `lib`, of `size` elements. -/
structure Lib where
  size : Nat
  node : Nat → Node

/-- `&lib[i]`. -/
def addr (i : Nat) : Nat := sizeofNode * i

/-- A pointer field. -/
inductive Field
  | child
  | peer
  deriving DecidableEq, Repr

namespace Lib

/-- The element of `lib` and the field of it that lie at an address. -/
def resolve (lib : Lib) (a : Nat) : Option (Nat × Field) :=
  if a / sizeofNode < lib.size then
    if a % sizeofNode = childOffset then
      some (a / sizeofNode, .child)
    else if a % sizeofNode = peerOffset then
      some (a / sizeofNode, .peer)
    else
      none
  else
    none

/-- Overwrite the element `i`. -/
def set (lib : Lib) (i : Nat) (node : Node) : Lib :=
  { lib with node := Function.update lib.node i node }

/-- A pointer field of an element. -/
def field (lib : Lib) (i : Nat) : Field → Option Nat
  | .child => (lib.node i).child
  | .peer => (lib.node i).peer

/-- Store into a pointer field of an element. -/
def setField (lib : Lib) (i : Nat) (f : Field) (v : Option Nat) : Lib :=
  match f with
  | .child => lib.set i { lib.node i with child := v }
  | .peer => lib.set i { lib.node i with peer := v }

/-- `lib[i].depth = d`. -/
def setDepth (lib : Lib) (i d : Nat) : Lib := lib.set i { lib.node i with depth := d }

/-- Read the pointer at an address. -/
def load (lib : Lib) (a : Nat) : Option (Option Nat) :=
  (lib.resolve a).map fun place => lib.field place.1 place.2

/-- Write the pointer at an address. -/
def store (lib : Lib) (a : Nat) (v : Option Nat) : Option Lib :=
  (lib.resolve a).map fun place => lib.setField place.1 place.2 v

/-- `*a`, for a pointer to a node. -/
def deref (lib : Lib) (a : Nat) : Option Node :=
  if a % sizeofNode = 0 ∧ a / sizeofNode < lib.size then some (lib.node (a / sizeofNode)) else none

/-- `findpeertail(Node)`. -/
def findpeertail (lib : Lib) : Nat → Nat → Option Nat
  | 0, _ => none
  | fuel + 1, last =>
      match lib.load (last + peerOffset) with
      | none => none
      | some none => some last
      | some (some next) => lib.findpeertail fuel next

/-- The body of the linking loops: make the element `j` a child of the element `i` if it
is one. -/
def link (fuel : Nat) (lib : Lib) (i j : Nat) : Option Lib :=
  if (lib.node j).ppid = (lib.node i).pid then
    let linked : Option Lib :=
      match (lib.node i).child with
      | none => some (lib.setField i .child (some (addr j)))
      | some child =>
          match lib.load (child + peerOffset) with
          | none => none
          | some none => lib.store (child + peerOffset) (some (addr j))
          | some (some _) =>
              -- the argument is `&(lib[i].child->peer)`, not `lib[i].child->peer`
              (lib.findpeertail fuel (child + peerOffset)).bind fun temp =>
                lib.store (temp + peerOffset) (some (addr j))
    linked.map fun lib => lib.setDepth j ((lib.node i).depth + 1)
  else
    some lib

/-- The loop that initialises the elements. -/
def initialise (lib : Lib) : Lib :=
  { lib with node := fun i => { lib.node i with depth := 0, child := none, peer := none } }

/-- The inner linking loop, over `n` elements. -/
def linkRow (fuel n : Nat) (lib : Lib) (i : Nat) : Option Lib :=
  loop (fun lib j => link fuel lib i j) n lib

/-- The initialisation and the two linking loops of `main`. -/
def linkAll (fuel : Nat) (lib : Lib) : Option Lib :=
  loop (linkRow fuel lib.size) lib.size lib.initialise

end Lib

/-- What `buildtree` prints for a node: two spaces so many times, the string, and the pid
in braces. -/
structure Line where
  indent : Nat
  string : String
  pid : Int
  deriving DecidableEq, Repr

/-- The line of a node. -/
def Node.line (node : Node) : Line :=
  { indent := node.depth, string := node.string, pid := node.pid }

mutual

/-- `buildtree(Node)`: the lines it prints. -/
def Lib.buildtree (lib : Lib) : Nat → Nat → Option (List Line)
  | 0, _ => none
  | fuel + 1, a =>
      match lib.deref a with
      | none => none
      | some node =>
          match node.child with
          | none => some [node.line]
          | some child => (lib.peers fuel (some child)).map fun lines => node.line :: lines

/-- The loop of `buildtree`, from `temp_node`. -/
def Lib.peers (lib : Lib) : Nat → Option Nat → Option (List Line)
  | 0, _ => none
  | _ + 1, none => some []
  | fuel + 1, some temp =>
      match lib.buildtree fuel temp, lib.deref temp with
      | some lines, some node => (lib.peers fuel node.peer).map fun rest => lines ++ rest
      | _, _ => none

end

/-- The program: what is printed after the nodes are linked. -/
def Prints (lib : Lib) (lines : List Line) : Prop :=
  ∃ fuel linked, lib.linkAll fuel = some linked ∧
    ∃ fuel, linked.buildtree fuel (addr 0) = some lines

/-! ### Addresses -/

namespace Lib

variable {lib : Lib} {i j : Nat} {f g : Field} {v : Option Nat}

/-- Where an offset leads that stays inside the element. -/
theorem addr_add {o : Nat} (ho : o < sizeofNode) :
    (addr i + o) / sizeofNode = i ∧ (addr i + o) % sizeofNode = o := by
  simp only [addr, sizeofNode] at ho ⊢
  omega

theorem resolve_child (h : i < lib.size) :
    lib.resolve (addr i + childOffset) = some (i, .child) := by
  obtain ⟨hdiv, hmod⟩ := addr_add (i := i) (by decide : childOffset < sizeofNode)
  simp [resolve, hdiv, hmod, h]

theorem resolve_peer (h : i < lib.size) :
    lib.resolve (addr i + peerOffset) = some (i, .peer) := by
  obtain ⟨hdiv, hmod⟩ := addr_add (i := i) (by decide : peerOffset < sizeofNode)
  have hne : peerOffset ≠ childOffset := by decide
  simp [resolve, hdiv, hmod, h, hne]

/-- Where the address of a `peer` is taken for a node, its `peer` is the `child` of the next
element. -/
theorem resolve_peer_peer (h : i + 1 < lib.size) :
    lib.resolve (addr i + peerOffset + peerOffset) = some (i + 1, .child) := by
  have heq : addr i + peerOffset + peerOffset = addr (i + 1) + childOffset := by
    simp only [addr, sizeofNode, childOffset, peerOffset]
    omega
  rw [heq, resolve_child h]

theorem deref_addr (h : i < lib.size) : lib.deref (addr i) = some (lib.node i) := by
  obtain ⟨hdiv, hmod⟩ := addr_add (i := i) (by decide : 0 < sizeofNode)
  rw [Nat.add_zero] at hdiv hmod
  simp [deref, hdiv, hmod, h]

theorem exists_of_deref {a : Nat} {node : Node} (h : lib.deref a = some node) :
    ∃ i, a = addr i ∧ i < lib.size ∧ node = lib.node i := by
  rw [deref] at h
  split at h
  · next ha =>
    refine ⟨a / sizeofNode, ?_, ha.2, (Option.some.inj h).symm⟩
    simp only [addr, sizeofNode] at ha ⊢
    omega
  · exact absurd h (by simp)

/-- Reading and writing the `peer` of an element, -/
theorem load_peer (h : i < lib.size) :
    lib.load (addr i + peerOffset) = some (lib.field i .peer) := by
  rw [load, resolve_peer h, Option.map_some]

theorem store_peer (h : i < lib.size) :
    lib.store (addr i + peerOffset) v = some (lib.setField i .peer v) := by
  rw [store, resolve_peer h, Option.map_some]

/-- and the `child` of the next. -/
theorem load_peer_peer (h : i + 1 < lib.size) :
    lib.load (addr i + peerOffset + peerOffset) = some (lib.field (i + 1) .child) := by
  rw [load, resolve_peer_peer h, Option.map_some]

theorem store_peer_peer (h : i + 1 < lib.size) :
    lib.store (addr i + peerOffset + peerOffset) v = some (lib.setField (i + 1) .child v) := by
  rw [store, resolve_peer_peer h, Option.map_some]

/-! ### Fields -/

@[simp] theorem setField_size : (lib.setField i f v).size = lib.size := by
  cases f <;> rfl

@[simp] theorem setDepth_size {d : Nat} : (lib.setDepth i d).size = lib.size := rfl

theorem field_setField :
    (lib.setField i f v).field j g = if j = i ∧ g = f then v else lib.field j g := by
  cases f <;> cases g <;> by_cases h : j = i <;> simp [setField, set, field, h]

@[simp] theorem field_setDepth {d : Nat} : (lib.setDepth i d).field j f = lib.field j f := by
  cases f <;> by_cases h : j = i <;> simp [setDepth, set, field, h]

@[simp] theorem setField_depth :
    ((lib.setField i f v).node j).depth = (lib.node j).depth := by
  cases f <;> by_cases h : j = i <;> simp [setField, set, h]

theorem setDepth_depth {d : Nat} :
    ((lib.setDepth i d).node j).depth = if j = i then d else (lib.node j).depth := by
  by_cases h : j = i <;> simp [setDepth, set, h]

/-- The parts of the elements that no loop writes. -/
structure Same (lib mem : Lib) : Prop where
  size : mem.size = lib.size
  string : ∀ i, (mem.node i).string = (lib.node i).string
  pid : ∀ i, (mem.node i).pid = (lib.node i).pid
  ppid : ∀ i, (mem.node i).ppid = (lib.node i).ppid

theorem Same.setField {mem : Lib} (h : lib.Same mem) (i : Nat) (f : Field) (v : Option Nat) :
    lib.Same (mem.setField i f v) := by
  constructor
  case size => rw [setField_size, h.size]
  case string =>
    intro j
    rw [← h.string j]
    cases f <;> by_cases hj : j = i <;> simp [Lib.setField, set, hj]
  case pid =>
    intro j
    rw [← h.pid j]
    cases f <;> by_cases hj : j = i <;> simp [Lib.setField, set, hj]
  case ppid =>
    intro j
    rw [← h.ppid j]
    cases f <;> by_cases hj : j = i <;> simp [Lib.setField, set, hj]

theorem Same.setDepth {mem : Lib} (h : lib.Same mem) (i d : Nat) :
    lib.Same (mem.setDepth i d) := by
  constructor
  case size => exact h.size
  case string =>
    intro j
    rw [← h.string j]
    by_cases hj : j = i <;> simp [Lib.setDepth, set, hj]
  case pid =>
    intro j
    rw [← h.pid j]
    by_cases hj : j = i <;> simp [Lib.setDepth, set, hj]
  case ppid =>
    intro j
    rw [← h.ppid j]
    by_cases hj : j = i <;> simp [Lib.setDepth, set, hj]

end Lib

end OsLabs.Tree
