import SlateVm.Lib.Tiling
import Mathlib.Data.Finset.Sort
import Mathlib.Algebra.Group.Int.Defs

/-! Objects and the object memory. Addresses and oops are naturals, and the memory
holds one object record per address; a cell is an address together with the total
size its header gives. The header word is kept as the fields its accessors select,
and the words after it are indexed from the start of the object, as `word_t*`
arithmetic does. -/
namespace SlateVm

/-- How the machine stops: a failed `assert`, or a write past the end of a cell,
after which the memory means nothing. -/
inductive Halt where
  | assertFailed
  | wildWrite
  deriving DecidableEq, Repr

def require (holds : Bool) : Except Halt Unit :=
  if holds then .ok () else .error .assertFailed

def haltsWith {α : Type} (halt : Halt) : Except Halt α → Bool
  | .ok _ => false
  | .error e => e == halt

theorem eq_of_haltsWith {α : Type} {halt : Halt} {r : Except Halt α}
    (halts : haltsWith halt r = true) : r = .error halt := by
  cases r with
  | ok => cases halts
  | error e => exact congrArg Except.error (beq_iff_eq.mp halts)

def sizeofWord : Nat := 8
def headerSizeWords : Nat := 3
def sizeofObject : Nat := 32

def idHashReserved : Nat := 0x7FFFF0
def idHashForwarded : Nat := idHashReserved
def idHashFree : Nat := 0x7FFFFF
def idHashMax : Nat := idHashFree
def pinnedMask : Nat := 0x3F

def typeObject : Nat := 0
def typeOopArray : Nat := 1
def typeByteArray : Nat := 2

structure Object where
  markbit : Bool
  hash : Nat
  pinCount : Nat
  format : Nat
  objectSize : Nat
  payloadSize : Int
  map : Nat
  word : Nat → Nat

def oopIsSmallint (x : Nat) : Bool := x % 2 == 1

/-- Header, map and slots in words, plus the payload of an array rounded up. The source
divides unsigned words; for a negative payload that differs from rounding down by a
multiple of `2 ^ 61`, which the product with the word size below loses. -/
def objectWordSize (o : Object) : Nat :=
  if o.format = typeObject then o.objectSize
  else ((o.objectSize : Int) + (o.payloadSize + (sizeofWord - 1 : Nat)) / sizeofWord).toNat

def objectTotalSize (o : Object) : Nat := objectWordSize o * sizeofWord

def objectArraySize (o : Object) : Nat :=
  ((o.payloadSize + (sizeofWord - 1 : Nat)) % 2 ^ 64 / sizeofWord).toNat

def objectIsFree (o : Object) : Bool := decide (idHashReserved ≤ o.hash)

def objectLastOopOffset (o : Object) : Int :=
  (o.objectSize * sizeofWord : Nat) - (sizeofWord : Int) +
    if o.format = typeOopArray then o.payloadSize else 0

def oopWords (o : Object) : List Nat :=
  List.range' (headerSizeWords + 1)
    ((objectLastOopOffset o).toNat / sizeofWord - headerSizeWords)

def oopFields (o : Object) : List Nat := (oopWords o).map o.word

def Object.setWord (o : Object) (k : Nat) (v : Nat) : Object :=
  { o with word := fun i => if i = k then v else o.word i }

structure Cached where
  interpreter : Nat
  trueObject : Nat
  falseObject : Nat
  nil : Nat

structure Heap where
  mem : Nat → Object
  markColor : Bool
  memoryOld : Nat
  memoryYoung : Nat
  memoryOldSize : Nat
  memoryYoungSize : Nat
  memoryOldLimit : Nat
  specialObjectsOop : Nat
  lastHash : Nat
  nextFree : Nat
  nextOldFree : Nat
  tenuredObjects : List Nat
  markStack : List Nat
  rememberedOldObjects : Finset Nat
  doFullGCNext : Bool
  cached : Cached

def Heap.put (h : Heap) (a : Nat) (o : Object) : Heap :=
  { h with mem := fun x => if x = a then o else h.mem x }

section Access

variable (h : Heap) (a x : Nat) (o : Object)

@[simp] theorem put_mem : (h.put a o).mem x = if x = a then o else h.mem x := rfl
@[simp] theorem put_markColor : (h.put a o).markColor = h.markColor := rfl
@[simp] theorem put_memoryOld : (h.put a o).memoryOld = h.memoryOld := rfl
@[simp] theorem put_memoryYoung : (h.put a o).memoryYoung = h.memoryYoung := rfl
@[simp] theorem put_memoryOldSize : (h.put a o).memoryOldSize = h.memoryOldSize := rfl
@[simp] theorem put_memoryYoungSize : (h.put a o).memoryYoungSize = h.memoryYoungSize := rfl
@[simp] theorem put_memoryOldLimit : (h.put a o).memoryOldLimit = h.memoryOldLimit := rfl
@[simp] theorem put_specials : (h.put a o).specialObjectsOop = h.specialObjectsOop := rfl
@[simp] theorem put_remembered : (h.put a o).rememberedOldObjects = h.rememberedOldObjects := rfl
@[simp] theorem put_markStack : (h.put a o).markStack = h.markStack := rfl
@[simp] theorem put_tenured : (h.put a o).tenuredObjects = h.tenuredObjects := rfl
@[simp] theorem put_cached : (h.put a o).cached = h.cached := rfl

end Access

def objectInMemory (memory memorySize : Nat) (oop : Nat) : Bool :=
  decide (memory ≤ oop) && decide (oop < memory + memorySize)

def objectIsOld (h : Heap) (oop : Nat) : Bool := objectInMemory h.memoryOld h.memoryOldSize oop

def objectIsYoung (h : Heap) (oop : Nat) : Bool :=
  objectInMemory h.memoryYoung h.memoryYoungSize oop

def objectAfter (h : Heap) (o : Nat) : Nat := o + objectTotalSize (h.mem o)

def extent (mem : Nat → Object) (a : Nat) : Nat := objectTotalSize (mem a)

def getSpecial (h : Heap) (index : Nat) : Nat :=
  (h.mem h.specialObjectsOop).word (headerSizeWords + 1 + index)

def objectIsPinned (h : Heap) (x : Nat) : Bool := decide (0 < (h.mem x).pinCount)

def objectIsMarked (h : Heap) (x : Nat) : Bool := (h.mem x).markbit == h.markColor

def objectSetMark (h : Heap) (x : Nat) : Heap :=
  h.put x { h.mem x with markbit := h.markColor }

def objectUnmark (h : Heap) (x : Nat) : Heap :=
  h.put x { h.mem x with markbit := !h.markColor }

/-- One round: the new `lastHash`, a 64-bit word. -/
def nextLastHash (last : Nat) : Nat := (13849 + 27181 * last) % 2 ^ 64

/-- `lastHash` steps until the hash it gives is not reserved. Two rounds are
enough, because no reserved hash is followed by a reserved one. -/
def heapNewHash (h : Heap) : Nat × Heap :=
  let last := nextLastHash h.lastHash
  let last := if idHashReserved ≤ last % (idHashMax + 1) then nextLastHash last else last
  (last % (idHashMax + 1), { h with lastHash := last })

end SlateVm
