import SlateVm.Lib.Refinement
import SlateVm.Lib.Slots
import SlateVm.Collections.Hashed

/-! `Dictionary`: parallel arrays of keys and values with open addressing. -/
namespace SlateVm.Collections

open Probing Slots

/-- The slots of `Dictionary`. Nil is `none`, among the keys and among the values. -/
structure Dictionary (κ β : Type) where
  tally : Int
  keys : List (Option κ)
  values : List (Option β)
deriving DecidableEq

/-- Keys as a dictionary compares them. Nil is no key, but it can be looked for. The indices of
an array are objects too, and may be keys. -/
structure KeyHashing (κ : Type) extends Hashing κ where
  nilHash : Int
  integer : Nat → κ

namespace Dictionary

variable {κ β : Type}

def new (n : Nat) : Dictionary κ β :=
  let keys := List.replicate (max n 1) none
  ⟨0, keys, List.replicate (max n keys.length) none⟩

def size (d : Dictionary κ β) : Int := d.tally

/-- The index at which `scanFor:` starts: one behind the hash. -/
def start (hash : Int) (n : Nat) : Nat := (hash % n).toNat + 1

def scanFor (h : KeyHashing κ) (d : Dictionary κ β) : Option κ → Option Nat
  | none => search d.keys.length (stored d.keys) (fun _ => false) (start h.nilHash d.keys.length)
  | some obj =>
    search d.keys.length (stored d.keys) (fun key => h.equals obj key)
      (start (h.hash obj) d.keys.length)

def noCheckAt (h : KeyHashing κ) (d : Dictionary κ β) (key : κ) (value : Option β) :
    Option (Dictionary κ β) := do
  let index ← d.scanFor h (some key)
  some ⟨d.tally + 1, d.keys.set index (some key), d.values.set index value⟩

/-- The pairs that `keysAndValuesDo:` gives to its block, in order. -/
def visits (d : Dictionary κ β) : List (κ × Option β) :=
  if d.size = 0 then []
  else (d.keys.zip d.values).filterMap fun (key, value) => key.map (·, value)

def growBy (h : KeyHashing κ) (d : Dictionary κ β) (growthAmount : Nat) :
    Option (Dictionary κ β) := do
  let tempDict ← d.visits.foldlM (fun tempDict (key, value) => tempDict.noCheckAt h key value)
    (new (d.keys.length + growthAmount))
  some { d with keys := tempDict.keys, values := tempDict.values }

def growSize (d : Dictionary κ β) : Nat := max d.keys.length 4

def grow (h : KeyHashing κ) (d : Dictionary κ β) : Option (Dictionary κ β) := d.growBy h d.growSize

def fullCheck (h : KeyHashing κ) (d : Dictionary κ β) : Option (Dictionary κ β) :=
  if (d.keys.length : Int) - d.tally < max (d.keys.length / 4 : Nat) 1 then d.grow h else some d

/-- `at:put:` with a key that is not Nil. -/
def atPut (h : KeyHashing κ) (d : Dictionary κ β) (key : κ) (obj : Option β) :
    Option (Dictionary κ β) := do
  let index ← d.scanFor h (some key)
  let d := match ← d.keys[index]? with
    | none => { d with keys := d.keys.set index (some key), tally := d.tally + 1 }
    | some _ => d
  fullCheck h { d with values := d.values.set index obj }

/-- `at:ifAbsent:`; the inner `none` says that the block was run. -/
def atIfAbsent (h : KeyHashing κ) (d : Dictionary κ β) (key : Option κ) :
    Option (Option (Option β)) := do
  let index ← d.scanFor h key
  match ← d.keys[index]? with
  | none => some none
  | some _ => d.values[index]?.map some

def swap (d : Dictionary κ β) (index1 index2 : Nat) : Dictionary κ β :=
  { d with keys := exchange d.keys index1 index2, values := exchange d.values index1 index2 }

def accessors (h : KeyHashing κ) : Accessors (Dictionary κ β) κ where
  capacity d := d.keys.length
  keyAt d index := d.keys[index]?
  scanFor d obj := d.scanFor h (some obj)
  swap := swap

/-- `fixCollisionsFrom:`; the loop ends before it has gone round twice. -/
def fixCollisionsFrom (h : KeyHashing κ) (d : Dictionary κ β) (index : Nat) :
    Option (Dictionary κ β) :=
  Collections.fixCollisionsFrom (accessors h) (2 * d.keys.length) d index

/-- `removeKey:ifAbsent:`, which answers what the array of keys held. The block is run only
when no slot at all was found. -/
def removeKey (h : KeyHashing κ) (d : Dictionary κ β) (key : Option κ) :
    Option (Dictionary κ β × Option (Option κ)) :=
  match d.scanFor h key with
  | none => some (d, none)
  | some index => do
    let value ← d.keys[index]?
    let d ← fixCollisionsFrom h
      ⟨d.tally - 1, d.keys.set index none, d.values.set index none⟩ index
    some (d, some value)

/-- `at:`, which signals for an absent key. -/
def at? (h : KeyHashing κ) (d : Dictionary κ β) (key : κ) : Option (Option β) :=
  (d.atIfAbsent h (some key)).join

/-- `includesKey:`. The `contents` of a dictionary are the dictionary itself, so the index at
which the search ends is looked up as a key. -/
def includesKey (h : KeyHashing κ) (d : Dictionary κ β) (key : Option κ) : Option Bool := do
  let index ← d.scanFor h key
  let value ← d.at? h (h.integer index)
  some value.isSome

inductive Op (κ β : Type) where
  | atPut (key : Option κ) (obj : Option β)
  | removeKey (key : Option κ)
  | at (key : Option κ)
  | includesKey (key : Option κ)
  | keysAndValuesDo
  | growBy (growthAmount : Nat)

inductive Answer (κ β : Type) where
  | done
  | nilKey
  | block
  | removed (object : Option κ)
  | value (obj : Option β)
  | truth (b : Bool)
  | visited (pairs : List (κ × Option β))

def perform (h : KeyHashing κ) (d : Dictionary κ β) :
    Op κ β → Option (Dictionary κ β × Answer κ β)
  | .atPut none _ => some (d, .nilKey)
  | .atPut (some key) obj => (d.atPut h key obj).map (·, .done)
  | .removeKey key => (d.removeKey h key).map fun (d, object) =>
    (d, match object with | none => .block | some object => .removed object)
  | .at key => (d.atIfAbsent h key).map fun value =>
    (d, match value with | none => .block | some value => .value value)
  | .includesKey key => (d.includesKey h key).map (d, .truth ·)
  | .keysAndValuesDo => some (d, .visited d.visits)
  | .growBy n => (d.growBy h n).map (·, .done)

end Dictionary

end SlateVm.Collections
