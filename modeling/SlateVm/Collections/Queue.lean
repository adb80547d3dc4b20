import SlateVm.Lib.Refinement
import SlateVm.Collections.Arrays

/-! `Queue`: an array used in a wrap-around manner, with room for at least one element more
than the queue has. The default of the element type stands for Nil. -/
namespace SlateVm.Collections

structure Queue (α : Type) where
  contents : List α
  firstIndex : Int
  lastIndex : Int

namespace Queue

variable {α : Type} [Inhabited α]

def new (n : Nat) : Queue α := ⟨List.replicate (n + 1) default, 0, 0⟩

def contentsSize (q : Queue α) : Int := q.contents.length

def isFull (q : Queue α) : Bool :=
  (q.firstIndex = 0 && q.contentsSize - 1 = q.lastIndex) || q.lastIndex + 1 = q.firstIndex

def isSplit (q : Queue α) : Bool := q.lastIndex < q.firstIndex

def gapSize (q : Queue α) : Int :=
  if q.isSplit then q.firstIndex - q.lastIndex - 1
  else q.contentsSize - q.lastIndex + q.firstIndex - 1

def capacity (q : Queue α) : Int := q.contentsSize - 1

def size (q : Queue α) : Int :=
  if q.isSplit then q.contentsSize - q.firstIndex + q.lastIndex
  else q.lastIndex - q.firstIndex

def replaceBelow (c : List α) (start stop : Int) (replacement : List α) (repStart : Int) :
    Option (List α) := replaceFrom c start (stop - 1) replacement repStart

def growSplit (q : Queue α) (newContents : List α) : Option (Queue α) := do
  let offset := newContents.length - q.contentsSize
  let newContents ← replaceFrom newContents 0 q.lastIndex q.contents 0
  let newContents ← replaceBelow newContents (q.firstIndex + offset) newContents.length q.contents
    q.firstIndex
  some { q with contents := newContents, firstIndex := q.firstIndex + offset }

def growWhole (q : Queue α) (newContents : List α) : Option (Queue α) := do
  let newContents ← replaceFrom newContents q.firstIndex q.lastIndex q.contents q.firstIndex
  some { q with contents := newContents }

/-- `growTo:`; a size that is not larger signals. -/
def growTo (q : Queue α) (n : Int) : Option (Queue α) :=
  if n ≤ q.gapSize + q.size then none
  else if q.isSplit then q.growSplit (List.replicate (n + 1).toNat default)
  else q.growWhole (List.replicate (n + 1).toNat default)

def growSize (q : Queue α) : Int := max (q.capacity * 2) 8

def roomed (q : Queue α) : Option (Queue α) := if q.isFull then q.growTo q.growSize else some q

def at? (q : Queue α) (n : Int) : Option α :=
  let index := q.firstIndex + n
  arrayAt q.contents (if index ≥ q.contentsSize then index - q.contentsSize else index)

def visited (c : List α) (start stop : Int) : Option (List α) :=
  if 0 ≤ start ∧ start ≤ stop ∧ stop ≤ c.length - 1 then (fromTo start stop).mapM (arrayAt c)
  else some []

/-- The elements that `do:` visits, in its order. -/
def elementsDo (q : Queue α) : Option (List α) :=
  if q.isSplit then do
    let upper ← visited q.contents q.firstIndex (q.contentsSize - 1)
    let lower ← visited q.contents 0 q.lastIndex
    some (upper ++ lower)
  else visited q.contents q.firstIndex q.lastIndex

/-- The elements that `reverseDo:` visits, in its order. -/
def elementsReverseDo (q : Queue α) : Option (List α) := (downTo (q.size - 1) 0).mapM q.at?

def addLast (q : Queue α) (obj : α) : Option (Queue α) := do
  let q ← q.roomed
  let contents ← arrayPut q.contents q.lastIndex obj
  some { q with contents := contents, lastIndex := (q.lastIndex + 1) % q.contentsSize }

def addFirst (q : Queue α) (obj : α) : Option (Queue α) := do
  let q ← q.roomed
  let firstIndex := (q.firstIndex - 1) % q.contentsSize
  let contents ← arrayPut q.contents firstIndex obj
  some { q with contents := contents, firstIndex := firstIndex }

def storeLast (q : Queue α) (seq : List α) (newLastIndex : Int) : Option (List α) :=
  if newLastIndex < q.lastIndex then do
    let split := q.contentsSize - q.lastIndex
    let contents ← replaceBelow q.contents q.lastIndex q.contentsSize seq 0
    replaceBelow contents 0 (seq.length - split) seq split
  else replaceBelow q.contents q.lastIndex newLastIndex seq 0

/-- The queue with room for a sequence, as `addAllLast:` makes it. -/
def roomLast (q : Queue α) (n : Nat) : Option (Queue α) :=
  if n > q.gapSize then q.growTo (q.capacity + n) else some q

/-- `addAllLast:`, with a sequence other than the queue. -/
def addAllLast (q : Queue α) (seq : List α) : Option (Queue α) := do
  let q ← q.roomLast seq.length
  let newLastIndex := (q.lastIndex + seq.length) % q.contentsSize
  let contents ← q.storeLast seq newLastIndex
  some { q with contents := contents, lastIndex := newLastIndex }

def storeFirst (q : Queue α) (seq : List α) (newFirstIndex : Int) : Option (List α) :=
  if newFirstIndex > q.firstIndex then do
    let split := seq.length - q.firstIndex
    let contents ← replaceBelow q.contents 0 q.firstIndex seq split
    replaceBelow contents newFirstIndex q.contentsSize seq 0
  else replaceBelow q.contents newFirstIndex q.firstIndex seq 0

/-- The queue with room for a sequence, as `addAllFirst:` makes it. -/
def roomFirst (q : Queue α) (n : Nat) : Option (Queue α) :=
  if n > q.gapSize then q.growTo (q.contentsSize + n) else some q

/-- `addAllFirst:`, with a sequence other than the queue. -/
def addAllFirst (q : Queue α) (seq : List α) : Option (Queue α) := do
  let q ← q.roomFirst seq.length
  let newFirstIndex := (q.firstIndex - seq.length) % q.contentsSize
  let contents ← q.storeFirst seq newFirstIndex
  some { q with contents := contents, firstIndex := newFirstIndex }

def removeLast (q : Queue α) : Option (Queue α × α) := do
  let lastIndex := (q.lastIndex - 1) % q.contentsSize
  let result ← arrayAt q.contents lastIndex
  let contents ← arrayPut q.contents lastIndex default
  some ({ q with contents := contents, lastIndex := lastIndex }, result)

def removeFirst (q : Queue α) : Option (Queue α × α) := do
  let oldIndex := q.firstIndex
  let result ← arrayAt q.contents oldIndex
  let contents ← arrayPut q.contents oldIndex default
  some ({ q with contents := contents, firstIndex := (oldIndex + 1) % q.contentsSize }, result)

/-- The loops that put Nil from `start` below `stop`. -/
def vacate (c : List α) (start stop : Int) : Option (List α) :=
  (upTo start (stop - 1)).foldlM (fun c index => arrayPut c index default) c

/-- What `removeLast:` takes out, and the contents without it. -/
def takeLast (q : Queue α) (n : Nat) (newLastIndex : Int) : Option (List α × List α) :=
  let removed := List.replicate n default
  if newLastIndex > q.lastIndex then do
    let split := n - q.lastIndex
    let removed ← replaceBelow removed split n q.contents 0
    let removed ← replaceBelow removed 0 split q.contents (q.contentsSize - split)
    let contents ← vacate q.contents 0 (n - split)
    let contents ← vacate contents newLastIndex q.contentsSize
    some (contents, removed)
  else do
    let removed ← replaceBelow removed 0 removed.length q.contents q.lastIndex
    let contents ← vacate q.contents newLastIndex q.lastIndex
    some (contents, removed)

def removeLastN (q : Queue α) (n : Nat) : Option (Queue α × List α) := do
  let newLastIndex := (q.lastIndex - n) % q.contentsSize
  let (contents, removed) ← q.takeLast n newLastIndex
  some ({ q with contents := contents, lastIndex := (q.lastIndex - n) % q.contentsSize }, removed)

/-- What `removeFirst:` takes out, and the contents without it. -/
def takeFirst (q : Queue α) (n : Nat) (newFirstIndex : Int) : Option (List α × List α) :=
  let removed := List.replicate n default
  if newFirstIndex < q.firstIndex then do
    let split := q.contentsSize - q.firstIndex
    let removed ← replaceBelow removed split n q.contents q.firstIndex
    let removed ← replaceBelow removed 0 split q.contents 0
    let contents ← vacate q.contents q.firstIndex q.contentsSize
    let contents ← vacate contents 0 newFirstIndex
    some (contents, removed)
  else do
    let removed ← replaceBelow removed 0 n q.contents q.firstIndex
    let contents ← vacate q.contents q.firstIndex (q.firstIndex + n)
    some (contents, removed)

def removeFirstN (q : Queue α) (n : Nat) : Option (Queue α × List α) := do
  let newFirstIndex := (q.firstIndex + n) % q.contentsSize
  let (contents, removed) ← q.takeFirst n newFirstIndex
  some ({ q with contents := contents, firstIndex := (q.firstIndex + n) % q.contentsSize },
    removed)

inductive Op (α : Type) where
  | addFirst (obj : α)
  | addLast (obj : α)
  | addAllLast (seq : List α)
  | addAllFirst (seq : List α)
  | removeFirst
  | removeLast
  | removeFirstN (n : Nat)
  | removeLastN (n : Nat)
  | elementsDo
  | elementsReverseDo

/-- What an operation answers or visits; `signalled` says that an error was signalled. -/
inductive Answer (α : Type) where
  | object (obj : α)
  | objects (objs : List α)
  | signalled

def perform (q : Queue α) : Op α → Option (Queue α × Answer α)
  | .addFirst obj => (q.addFirst obj).map (·, .object obj)
  | .addLast obj => (q.addLast obj).map (·, .object obj)
  | .addAllLast seq => (q.addAllLast seq).map (·, .objects seq)
  | .addAllFirst seq => (q.addAllFirst seq).map (·, .objects seq)
  | .removeFirst => q.removeFirst.map fun (q, obj) => (q, .object obj)
  | .removeLast => q.removeLast.map fun (q, obj) => (q, .object obj)
  | .removeFirstN n => (q.removeFirstN n).map fun (q, objs) => (q, .objects objs)
  | .removeLastN n => (q.removeLastN n).map fun (q, objs) => (q, .objects objs)
  | .elementsDo => q.elementsDo.map fun objs => (q, .objects objs)
  | .elementsReverseDo => q.elementsReverseDo.map fun objs => (q, .objects objs)

end Queue

end SlateVm.Collections
