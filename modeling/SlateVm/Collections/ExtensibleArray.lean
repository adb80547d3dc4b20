import SlateVm.Lib.Refinement
import SlateVm.Collections.Arrays

/-! `ExtensibleArray`: an array with free room on both ends. The default of the element type
stands for Nil, with which fresh and vacated places are filled. -/
namespace SlateVm.Collections

structure ExtensibleArray (α : Type) where
  contents : List α
  firstIndex : Int
  lastIndex : Int

namespace ExtensibleArray

variable {α : Type} [Inhabited α] {es : ExtensibleArray α}

def new (n : Nat) : ExtensibleArray α := ⟨List.replicate n default, 0, -1⟩

def size (es : ExtensibleArray α) : Int := es.lastIndex - es.firstIndex + 1

def capacity (es : ExtensibleArray α) : Nat := es.contents.length

def includesKey (es : ExtensibleArray α) (index : Int) : Bool := 0 ≤ index && index < es.size

def growSize (es : ExtensibleArray α) : Nat := max (es.capacity * 2) 8

def growth (es : ExtensibleArray α) : Option Nat → Nat
  | none => es.growSize - es.capacity
  | some growBy => max growBy (es.growSize - es.capacity)

def newContents (es : ExtensibleArray α) (enlarge : Bool) (growBy : Nat) : List α :=
  if enlarge then List.replicate (es.capacity + growBy) default else es.contents

def oldContents (es : ExtensibleArray α) (enlarge : Bool) : List α → List α :=
  if enlarge then fun _ => es.contents else id

/-- `growFirst &by:`. The loop is written over the places it stores to. -/
def growFirst (es : ExtensibleArray α) (asked : Option Nat) : Option (ExtensibleArray α) := do
  let growBy := es.growth asked
  let enlarge := decide (es.lastIndex + growBy ≥ es.capacity - 1)
  let newContents := es.newContents enlarge growBy
  let offset := newContents.length - es.lastIndex - 1
  let moved ← copyAt (es.oldContents enlarge) (-offset)
    (downTo (es.lastIndex + offset) (es.firstIndex + offset)) newContents
  some ⟨moved, es.firstIndex + offset, es.lastIndex + offset⟩

def growLast (es : ExtensibleArray α) (asked : Option Nat) : Option (ExtensibleArray α) := do
  let growBy := es.growth asked
  let enlarge := decide (es.firstIndex - growBy ≤ 0)
  let newContents := es.newContents enlarge growBy
  let moved ← copyAt (es.oldContents enlarge) es.firstIndex
    (upTo 0 (es.lastIndex - es.firstIndex)) newContents
  some ⟨moved, 0, es.lastIndex - es.firstIndex⟩

/-- The array with room for one more element at the front, as `addFirst:` makes it. -/
def roomFirst (es : ExtensibleArray α) : Option (ExtensibleArray α) :=
  if es.firstIndex = 0 then es.growFirst none else some es

/-- The array with room for one more element at the end, as `addLast:` makes it. -/
def roomLast (es : ExtensibleArray α) : Option (ExtensibleArray α) :=
  if es.lastIndex + 1 < es.capacity then some es else es.growLast none

def addFirst (es : ExtensibleArray α) (obj : α) : Option (ExtensibleArray α) := do
  let es ← es.roomFirst
  let contents ← arrayPut es.contents (es.firstIndex - 1) obj
  some { es with contents := contents, firstIndex := es.firstIndex - 1 }

def addLast (es : ExtensibleArray α) (obj : α) : Option (ExtensibleArray α) := do
  let es ← es.roomLast
  let contents ← arrayPut es.contents (es.lastIndex + 1) obj
  some { es with contents := contents, lastIndex := es.lastIndex + 1 }

def atPut (es : ExtensibleArray α) (index : Int) (value : α) : Option (ExtensibleArray α) := do
  let contents ← arrayPut es.contents (es.firstIndex + index) value
  some { es with contents := contents }

/-- `find:`, which answers an index into the contents array. -/
def find (es : ExtensibleArray α) (equals : α → α → Bool) (obj : α) : Option Int :=
  (upTo es.firstIndex es.lastIndex).find? fun index =>
    (arrayAt es.contents index).any fun each => equals each obj

def refusesGap (es : ExtensibleArray α) (index : Int) : Bool := index < 0 || es.size < index

def gapFirst (es : ExtensibleArray α) (size : Nat) : Option (ExtensibleArray α) :=
  if es.firstIndex - size < 0 then es.growFirst (some size) else some es

def gapLast (es : ExtensibleArray α) (size : Nat) : Option (ExtensibleArray α) :=
  if es.lastIndex + size ≥ es.capacity then es.growLast (some size) else some es

def slideUp (es : ExtensibleArray α) (index : Int) (size : Nat) : Option (List α) :=
  if index = es.size then some es.contents
  else moveFrom es.contents (es.firstIndex + index + size) (es.lastIndex + size)
    (es.firstIndex + index)

/-- `makeGapAt:&size:` behind its checks; the answer is where the gap starts in the array. -/
def makeGapAt (es : ExtensibleArray α) (index : Int) (size : Nat) :
    Option (ExtensibleArray α × Int) :=
  if index = 0 then do
    let es ← es.gapFirst size
    some ({ es with firstIndex := es.firstIndex - size }, es.firstIndex - size)
  else do
    let es ← es.gapLast size
    let contents ← es.slideUp index size
    some ({ es with contents := contents, lastIndex := es.lastIndex + size },
      es.firstIndex + index)

def atInsert (es : ExtensibleArray α) (index : Int) (obj : α) : Option (ExtensibleArray α) := do
  let (es, start) ← es.makeGapAt index 1
  let contents ← arrayPut es.contents start obj
  some { es with contents := contents }

/-- `at:insertAll:`, for a collection other than the array itself. -/
def atInsertAll (es : ExtensibleArray α) (index : Int) (col : List α) :
    Option (ExtensibleArray α) := do
  let (es, startOffset) ← es.makeGapAt index col.length
  let contents ← replaceFrom es.contents startOffset (startOffset + col.length - 1) col 0
  some { es with contents := contents }

/-- `remove:ifAbsent:`; `none` in the answer says that the block was run. -/
def remove (es : ExtensibleArray α) (equals : α → α → Bool) (obj : α) :
    Option (Option (ExtensibleArray α)) :=
  match (upTo es.firstIndex es.lastIndex).find? fun index =>
      (arrayAt es.contents index).any fun each => equals obj each with
  | none => some none
  | some index => do
    let contents ← moveFrom es.contents index (es.lastIndex - 1) (index + 1)
    let contents ← arrayPut contents es.lastIndex default
    some (some { es with contents := contents, lastIndex := es.lastIndex - 1 })

def keepUnless (test : α → Bool) (indices : List Int) (contents : List α) (n : Int) :
    Option (List α × Int) :=
  indices.foldlM (fun (contents, n) index => do
    let each ← arrayAt contents index
    if test each then some (contents, n)
    else do
      let contents ← arrayPut contents n each
      some (contents, n + 1)) (contents, n)

def removeAllSuchThat (es : ExtensibleArray α) (test : α → Bool) : Option (ExtensibleArray α) := do
  let (contents, n) ←
    keepUnless test (fromTo es.firstIndex es.lastIndex) es.contents es.firstIndex
  let contents ←
    (fromTo n es.lastIndex).foldlM (fun contents index => arrayPut contents index default) contents
  some { es with contents := contents, lastIndex := n - 1 }

def atRemove (es : ExtensibleArray α) (index : Int) (n : Nat) : Option (ExtensibleArray α) := do
  let localStart := index + es.firstIndex
  let contents ← moveFrom es.contents localStart (es.lastIndex - n) (localStart + n)
  some { es with contents := contents, lastIndex := es.lastIndex - n }

def removeAt (es : ExtensibleArray α) (index : Int) : Option (ExtensibleArray α × α) := do
  let removed ← arrayAt es.contents (es.firstIndex + index)
  let localIndex := index + es.firstIndex
  let contents ← moveFrom es.contents localIndex (es.lastIndex - 1) (localIndex + 1)
  let contents ← arrayPut contents es.lastIndex default
  some ({ es with contents := contents, lastIndex := es.lastIndex - 1 }, removed)

def removeFirst (es : ExtensibleArray α) : Option (ExtensibleArray α × α) := do
  let firstObj ← arrayAt es.contents es.firstIndex
  let contents ← arrayPut es.contents es.firstIndex default
  some ({ es with contents := contents, firstIndex := es.firstIndex + 1 }, firstObj)

def removeLast (es : ExtensibleArray α) : Option (ExtensibleArray α × α) := do
  let lastObj ← arrayAt es.contents es.lastIndex
  let contents ← arrayPut es.contents es.lastIndex default
  some ({ es with contents := contents, lastIndex := es.lastIndex - 1 }, lastObj)

/-- One round of the loops of `removeFirst:` and `removeLast:`: the element at `i` goes to
the place `k` of the result. -/
def extract (state : List α × List α) (i k : Int) : Option (List α × List α) := do
  let result ← arrayPut state.2 k (← arrayAt state.1 i)
  let contents ← arrayPut state.1 i default
  some (contents, result)

/-- `removeFirst:`; the result is indexed like the contents array. -/
def removeFirstN (es : ExtensibleArray α) (n : Nat) : Option (ExtensibleArray α × List α) := do
  let n : Int := if (n : Int) > es.size then es.size else n
  let (contents, result) ← (upTo es.firstIndex (es.firstIndex + n - 1)).foldlM
    (fun state i => extract state i i) (es.contents, List.replicate n.toNat default)
  some ({ es with contents := contents, firstIndex := es.firstIndex + n }, result)

def removeLastN (es : ExtensibleArray α) (n : Nat) : Option (ExtensibleArray α × List α) := do
  let n : Int := if (n : Int) > es.size then es.size else n
  let (contents, result) ← (downTo es.lastIndex (es.lastIndex - n + 1)).foldlM
    (fun state i => extract state i (n - 1 - (es.lastIndex - i)))
    (es.contents, List.replicate n.toNat default)
  some ({ es with contents := contents, lastIndex := es.lastIndex - n }, result)

def clear (es : ExtensibleArray α) : ExtensibleArray α :=
  ⟨List.replicate es.capacity default, 0, -1⟩

inductive Op (α : Type) where
  | addFirst (obj : α)
  | addLast (obj : α)
  | atPut (index : Int) (value : α)
  | atInsert (index : Int) (obj : α)
  | atInsertAll (index : Int) (col : List α)
  | addAfter (obj member : α)
  | addBefore (obj member : α)
  | remove (obj : α)
  | removeAt (index : Int)
  | removeFirst
  | removeLast
  | removeFirstN (n : Nat)
  | removeLastN (n : Nat)
  | atRemove (index : Int) (n : Nat)
  | removeAllSuchThat (test : α → Bool)
  | moveTo (obj : α) (index : Int)
  | clear

/-- What an operation answers; `self` stands for the array, and `signalled` for a condition
raised before anything was changed. -/
inductive Answer (α : Type) where
  | object (obj : α)
  | nothing
  | block
  | objects (objs : List α)
  | self
  | signalled

def perform (equals : α → α → Bool) (es : ExtensibleArray α) :
    Op α → Option (ExtensibleArray α × Answer α)
  | .addFirst obj => (es.addFirst obj).map (·, .object obj)
  | .addLast obj => (es.addLast obj).map (·, .object obj)
  | .atPut index value =>
    if es.includesKey index then (es.atPut index value).map (·, .object value)
    else some (es, .signalled)
  | .atInsert index obj =>
    if es.refusesGap index then some (es, .signalled)
    else (es.atInsert index obj).map (·, .object obj)
  | .atInsertAll index col =>
    if es.refusesGap index then some (es, .signalled)
    else (es.atInsertAll index col).map (·, .self)
  | .addAfter obj member =>
    match es.find equals member with
    | none => some (es, .nothing)
    | some index =>
      if es.refusesGap (index + 1) then some (es, .signalled)
      else (es.atInsert (index + 1) obj).map (·, .object obj)
  | .addBefore obj member =>
    match es.find equals member with
    | none => some (es, .nothing)
    | some index =>
      if es.refusesGap index then some (es, .signalled)
      else (es.atInsert index obj).map (·, .object obj)
  | .remove obj => (es.remove equals obj).map fun found =>
    match found with
    | none => (es, .block)
    | some es => (es, .object obj)
  | .removeAt index =>
    if es.includesKey index then (es.removeAt index).map fun (es, obj) => (es, .object obj)
    else some (es, .signalled)
  | .removeFirst =>
    if es.size = 0 then some (es, .signalled)
    else es.removeFirst.map fun (es, obj) => (es, .object obj)
  | .removeLast =>
    if es.size = 0 then some (es, .signalled)
    else es.removeLast.map fun (es, obj) => (es, .object obj)
  | .removeFirstN n => (es.removeFirstN n).map fun (es, objs) => (es, .objects objs)
  | .removeLastN n => (es.removeLastN n).map fun (es, objs) => (es, .objects objs)
  | .atRemove index n => (es.atRemove index n).map (·, .self)
  | .removeAllSuchThat test => (es.removeAllSuchThat test).map (·, .self)
  -- an object that is found leads to `startIndex`, which no array understands
  | .moveTo obj _ =>
    match es.find equals obj with
    | none => some (es, .signalled)
    | some _ => some (es, .signalled)
  | .clear => some (es.clear, .self)

end ExtensibleArray

end SlateVm.Collections
