import SlateVm.Lib.Refinement
import SlateVm.Lib.SearchTree
import Mathlib.Logic.Function.Basic

/-! `BinaryTree`: a search tree of linked nodes. `none` in a slot is Nil. -/
namespace SlateVm.Collections

structure TreeNode (K V : Type) where
  key : Option K
  value : Option V
  treeParent : Option Nat
  leftChild : Option Nat
  rightChild : Option Nat

/-- The nodes, from 0 to below `used`; node 0 is the tree that was made first. -/
structure BinaryTree (K V : Type) where
  nodes : Nat → TreeNode K V
  used : Nat

namespace BinaryTree

open Refinement

variable {K V : Type}

inductive Side where
  | left
  | right
  deriving DecidableEq

def Side.other : Side → Side
  | left => right
  | right => left

def child (s : Side) (n : TreeNode K V) : Option Nat :=
  match s with
  | .left => n.leftChild
  | .right => n.rightChild

def withChild (s : Side) (n : TreeNode K V) (c : Option Nat) : TreeNode K V :=
  match s with
  | .left => { n with leftChild := c }
  | .right => { n with rightChild := c }

def setNode (bt : BinaryTree K V) (a : Nat) (n : TreeNode K V) : BinaryTree K V :=
  { bt with nodes := Function.update bt.nodes a n }

def setChild (bt : BinaryTree K V) (s : Side) (a : Nat) (c : Option Nat) : BinaryTree K V :=
  bt.setNode a (withChild s (bt.nodes a) c)

def setParent (bt : BinaryTree K V) (a : Nat) (p : Option Nat) : BinaryTree K V :=
  bt.setNode a { bt.nodes a with treeParent := p }

def new : BinaryTree K V := ⟨fun _ => ⟨none, none, none, none, none⟩, 1⟩

def isEmpty (bt : BinaryTree K V) (a : Nat) : Bool := (bt.nodes a).key.isNone

section Search

variable [LinearOrder K]

/-- `scanFor:`; a search that takes more steps than there are nodes does not end. -/
def scanFor (bt : BinaryTree K V) (key : K) : Nat → Nat → Option Nat
  | 0, _ => none
  | fuel + 1, a => match (bt.nodes a).key with
    | none => some a
    | some k =>
      if key < k then match (bt.nodes a).leftChild with
        | none => some a
        | some l => bt.scanFor key fuel l
      else if k < key then match (bt.nodes a).rightChild with
        | none => some a
        | some r => bt.scanFor key fuel r
      else some a

/-- `at:ifAbsent:` from a node: the value slot found, or none when the block runs. -/
def atIfAbsent (bt : BinaryTree K V) (a : Nat) (key : K) : Option (Option (Option V)) := do
  let child ← bt.scanFor key (bt.used + 1) a
  some (if (bt.nodes child).key = some key then some (bt.nodes child).value else none)

/-- The clone of `child` that `at:put:` of `a` makes and links to it. -/
def attach (bt : BinaryTree K V) (a child : Nat) (key : K) (value : V) :
    Option (BinaryTree K V × Nat) := do
  let newChild := bt.used
  let bt := { bt with
    nodes := Function.update bt.nodes newChild ⟨some key, some value, some a, none, none⟩
    used := bt.used + 1 }
  let childKey ← (bt.nodes child).key
  some (bt.setChild (if key < childKey then .left else .right) child newChild, newChild)

def atPut (bt : BinaryTree K V) (a : Nat) (key : K) (value : V) :
    Option (BinaryTree K V × Option Nat) :=
  if bt.isEmpty a then
    some (bt.setNode a { bt.nodes a with key := some key, value := some value }, some a)
  else do
    let child ← bt.scanFor key (bt.used + 1) a
    if (bt.nodes child).key = some key then
      some (bt.setNode child { bt.nodes child with value := some value }, none)
    else do
      let (bt, newChild) ← bt.attach a child key value
      some (bt, some newChild)

end Search

/-- `rotateLeft` for the left side, where the right child comes up, and `rotateRight` for the
right one. Whether the rotation ends: Nil has no `treeParent` to set. -/
def rotate (s : Side) (bt : BinaryTree K V) (a : Nat) : Option (BinaryTree K V × Bool) := do
  let parent ← (bt.nodes a).treeParent
  let child ← BinaryTree.child s.other (bt.nodes a)
  let grandChild := BinaryTree.child s (bt.nodes child)
  let bt := bt.setChild s child (some a)
  let bt := bt.setChild s.other a grandChild
  let bt := bt.setChild (if (bt.nodes parent).leftChild = some a then .left else .right) parent
    (some child)
  let bt := bt.setParent child (some parent)
  let bt := bt.setParent a (some child)
  match grandChild with
  | none => some (bt, false)
  | some g => some (bt.setParent g (some a), true)

def rotateLeft (bt : BinaryTree K V) (a : Nat) : Option (BinaryTree K V × Bool) :=
  rotate .left bt a

def rotateRight (bt : BinaryTree K V) (a : Nat) : Option (BinaryTree K V × Bool) :=
  rotate .right bt a

def below {β : Type} (nothing : β) (visit : Nat → Option β) : Option Nat → Option β
  | none => some nothing
  | some child => visit child

/-- The recursion of the traversals, over at most `fuel` levels. -/
def traverse {β : Type} (bt : BinaryTree K V) (nothing : β)
    (join : Option K → Option V → β → β → β) : Nat → Nat → Option β
  | 0, _ => none
  | fuel + 1, a => do
    let onLeft ← below nothing (bt.traverse nothing join fuel) (bt.nodes a).leftChild
    let onRight ← below nothing (bt.traverse nothing join fuel) (bt.nodes a).rightChild
    some (join (bt.nodes a).key (bt.nodes a).value onLeft onRight)

def size (bt : BinaryTree K V) : Nat → Nat → Option Nat :=
  bt.traverse 0 fun _ _ onLeft onRight => 1 + onLeft + onRight

def keysAndValuesDo (bt : BinaryTree K V) : Nat → Nat → Option (List (Option K × Option V)) :=
  bt.traverse [] fun key value onLeft onRight => (key, value) :: (onLeft ++ onRight)

def inOrder (bt : BinaryTree K V) : Nat → Nat → Option (List (Option K)) :=
  bt.traverse [] fun key _ onLeft onRight => onLeft ++ key :: onRight

inductive Within (bt : BinaryTree K V) (root : Nat) : Nat → Prop where
  | root : Within bt root root
  | child {a b : Nat} (s : Side) : Within bt root a → child s (bt.nodes a) = some b →
      Within bt root b

inductive Op (K V : Type) where
  | atPut (key : K) (value : V)
  | rotateLeft (a : Nat)
  | rotateRight (a : Nat)

variable [LinearOrder K]

/-- `at:put:` is sent to the tree, a rotation to a node. Whether the operation ends. -/
def perform (bt : BinaryTree K V) : Op K V → Option (BinaryTree K V × Bool)
  | .atPut key value => (bt.atPut 0 key value).map fun (bt, _) => (bt, true)
  | .rotateLeft a => bt.rotateLeft a
  | .rotateRight a => bt.rotateRight a

def Op.after (m : K → Option V) : Op K V → K → Option V
  | .atPut key value => Function.update m key (some value)
  | .rotateLeft _ | .rotateRight _ => m

def Rotatable (s : Side) (bt : BinaryTree K V) (a : Nat) : Prop :=
  Within bt 0 a ∧ a ≠ 0 ∧ (child s.other (bt.nodes a)).isSome

def Admits (bt : BinaryTree K V) : Op K V → Prop
  | .atPut _ _ => True
  | .rotateLeft a => Rotatable .left bt a
  | .rotateRight a => Rotatable .right bt a

/-- What a tree shows of the stored values, its parent links apart. -/
structure ShowsMap (bt : BinaryTree K V) (m : K → Option V) : Prop where
  atIfAbsent : ∀ key, bt.atIfAbsent 0 key = some ((m key).map some)
  inOrder : ∃ (fuel : Nat) (keys : List K), bt.inOrder fuel 0 = some (keys.map some) ∧ keys.Pairwise (· < ·)
  visits : ∃ (fuel : Nat) (entries : List (K × V)), bt.keysAndValuesDo fuel 0 =
      some (entries.map fun (k, v) => (some k, some v)) ∧
    (entries.map Prod.fst).Nodup ∧ (∀ k v, (k, v) ∈ entries ↔ m k = some v) ∧
    ∃ fuel, bt.size fuel 0 = some entries.length

def Linked (bt : BinaryTree K V) : Prop :=
  ∀ a, Within bt 0 a → ∀ s b, child s (bt.nodes a) = some b → (bt.nodes b).treeParent = some a

structure Shows (bt : BinaryTree K V) (m : K → Option V) : Prop extends ShowsMap bt m where
  linked : Linked bt

def implementation : Implementation (BinaryTree K V) (K → Option V) (Op K V) Bool where
  start bt m := bt = new ∧ m = fun _ => none
  perform := perform
  next m op _ := op.after m
  right _ _ ended := ended = true

end BinaryTree

end SlateVm.Collections
