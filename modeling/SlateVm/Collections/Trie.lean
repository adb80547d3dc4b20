import SlateVm.Collections.Dictionary

/-! `Trie`: nodes that hold an element and keep their children in an `IdentityDictionary`,
under the elements of the key sequences. A node is the index of its record; the trie itself
is the node 0. -/
namespace SlateVm.Collections

structure TrieNode (κ β : Type) where
  element : Option β
  treeParent : Option Nat
  children : Dictionary κ Nat

/-- A key sequence; `none` is a Nil among its elements. -/
abbrev KeySequence (κ : Type) := List (Option κ)

namespace Dictionary

variable {κ β : Type}

/-- `removeKey:`, which signals where `removeKey:ifAbsent:` runs its block. -/
def removeKeyFound (h : KeyHashing κ) (d : Dictionary κ β) (key : κ) :
    Option (Dictionary κ β) := do
  let (d, object) ← d.removeKey h (some key)
  object.map fun _ => d

def keysAndValuesRemove (h : KeyHashing κ) (d : Dictionary κ β) (test : κ → Option β → Bool) :
    Option (Dictionary κ β) :=
  let removals := (d.visits.filter fun (key, value) => test key value).map Prod.fst
  removals.foldlM (removeKeyFound h) d

end Dictionary

namespace Trie

variable {κ β : Type} (h : KeyHashing κ)

abbrev Nodes (κ β : Type) := List (TrieNode κ β)

def new (n : Nat) : Nodes κ β := [⟨none, none, Dictionary.new n⟩]

def childAt (nodes : Nodes κ β) (node : Nat) (each : Option κ) : Option (Option Nat) := do
  let record ← nodes[node]?
  let found ← record.children.atIfAbsent h each
  some found.join

/-- `nodeFor:`. Behind a missing node `children` is sent to Nil, which signals. -/
def nodeFor (nodes : Nodes κ β) (seq : KeySequence κ) : Option (Option Nat) :=
  seq.foldlM (fun node each => node.bind fun node => childAt h nodes node each) (some 0)

def lookAt (nodes : Nodes κ β) (s : KeySequence κ) : Option (Option β) := do
  match ← nodeFor h nodes s with
  | none => some none
  | some node => nodes[node]?.map TrieNode.element

def includes (nodes : Nodes κ β) (s : KeySequence κ) : Option Bool :=
  (lookAt h nodes s).map Option.isSome

/-- `size`, with a bound on its recursion. -/
def sizeFrom (nodes : Nodes κ β) : Nat → Nat → Option Int
  | 0, _ => none
  | depth + 1, node => do
    let record ← nodes[node]?
    let sizes ← record.children.visits.mapM fun (_, each) => each.bind (sizeFrom nodes depth)
    some (sizes.foldl (· + ·) record.children.size)

/-- The first loop of `at:put:`: the last node that is there, and the elements behind it. -/
def descend (nodes : Nodes κ β) : Nat → KeySequence κ → Option (Nat × KeySequence κ)
  | node, [] => some (node, [])
  | node, each :: rest => do
    match ← childAt h nodes node each with
    | none => some (node, each :: rest)
    | some next => descend nodes next rest

/-- One round of the second loop. `t new` clones the trie, its element included; a Nil is
refused as a key. -/
def addNode (nodes : Nodes κ β) (node : Nat) (each : Option κ) : Option (Nodes κ β × Nat) := do
  let trie ← nodes[0]?
  let record ← nodes[node]?
  let children ← record.children.atPut h (← each) (some nodes.length)
  let next : TrieNode κ β := ⟨trie.element, some node, Dictionary.new 3⟩
  some (nodes.set node { record with children := children } ++ [next], nodes.length)

def setElement (nodes : Nodes κ β) (node : Nat) (element : Option β) : Option (Nodes κ β) := do
  let record ← nodes[node]?
  some (nodes.set node { record with element := element })

def atPut (nodes : Nodes κ β) (s : KeySequence κ) (obj : Option β) : Option (Nodes κ β) := do
  let (node, rest) ← descend h nodes 0 s
  let (nodes, node) ← rest.foldlM (fun (nodes, node) each => addNode h nodes node each)
    (nodes, node)
  setElement nodes node obj

/-- One step of `s doWithIndex:` in `remove:`, on `node` and `next`. -/
def follow (nodes : Nodes κ β) (state : Nat × Option Nat) (each : Option κ) :
    Option (Nat × Option Nat) := do
  let next ← childAt h nodes state.1 each
  some (next.getD state.1, next)

/-- The search of `remove:`, with a bound on its rounds. It goes over the key until the last
element of it leads to no child. -/
def search (nodes : Nodes κ β) (s : KeySequence κ) : Nat → Nat → Option Nat
  | 0, _ => none
  | rounds + 1, node => do
    match ← s.foldlM (follow h nodes) (node, some node) with
    | (node, none) => some node
    | (node, some _) => search nodes s rounds node

/-- `temp` is taken out of the children of `node`, and loses its parent. -/
def detach (nodes : Nodes κ β) (node temp : Nat) : Option (Nodes κ β) := do
  let record ← nodes[node]?
  let children ← record.children.keysAndValuesRemove h fun _ value => value == some temp
  let nodes := nodes.set node { record with children := children }
  let record ← nodes[temp]?
  some (nodes.set temp { record with treeParent := none })

/-- The last loop of `remove:`, with a bound on its rounds. -/
def prune : Nat → Nodes κ β → Nat → Option (Nodes κ β)
  | 0, _, _ => none
  | rounds + 1, nodes, node => do
    let record ← nodes[node]?
    if record.element.isNone && record.children.size ≤ 1 then
      match record.treeParent with
      | none => some nodes
      | some parent => (detach h nodes parent node).bind fun nodes => prune rounds nodes parent
    else some nodes

def remove (nodes : Nodes κ β) (s : KeySequence κ) : Option (Nodes κ β) := do
  let node ← search h nodes s (nodes.length + 1) 0
  let nodes ← setElement nodes node none
  prune h (nodes.length + 1) nodes node

inductive Op (κ β : Type) where
  | atPut (s : KeySequence κ) (obj : Option β)
  | at (s : KeySequence κ)
  | includes (s : KeySequence κ)
  | size
  | remove (s : KeySequence κ)

inductive Answer (κ β : Type) where
  | value (obj : Option β)
  | truth (b : Bool)
  | number (n : Int)
  | key (s : KeySequence κ)

def perform (nodes : Nodes κ β) : Op κ β → Option (Nodes κ β × Answer κ β)
  | .atPut s obj => (atPut h nodes s obj).map (·, .value obj)
  | .at s => (lookAt h nodes s).map fun obj => (nodes, .value obj)
  | .includes s => (includes h nodes s).map fun b => (nodes, .truth b)
  | .size => (sizeFrom nodes nodes.length 0).map fun n => (nodes, .number n)
  | .remove s => (remove h nodes s).map (·, .key s)

end Trie

end SlateVm.Collections
