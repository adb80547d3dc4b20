import SlateVm.Number.Tagged
import SlateVm.Lib.Refinement
import SlateVm.Lib.Slices
import Mathlib.Logic.Function.Basic

/-! Areas of memory outside the heap: the handle table, and the primitives on handles. What C
leaves undefined (an index outside the table, an access outside an area, an `int` that
overflows) has no outcome. -/
namespace SlateVm.MemoryAreas

open Tagged Slices Refinement

def memsMaximum : Nat := 1024

def toCInt (i : Int) : Int := (BitVec.ofInt 32 i).toInt

def intMax : Int := 2 ^ 31 - 1

def cInt (i : Int) : Option Int := if -(2 ^ 31) ≤ i ∧ i ≤ intMax then some i else none

/-- A pointer to an area. `realloc` to no bytes may free the area and leave the pointer. -/
inductive Area where
  | null
  | live (bytes : List UInt8)
  | freed
  deriving DecidableEq, Repr

structure Heap where
  areas : Nat → Area
  sizes : Nat → Int
  numRefs : Nat → Int

def Heap.setArea (h : Heap) (k : Nat) (area : Area) : Heap :=
  { h with areas := Function.update h.areas k area }

def Heap.setSize (h : Heap) (k : Nat) (size : Int) : Heap :=
  { h with sizes := Function.update h.sizes k size }

def Heap.setRefs (h : Heap) (k : Nat) (refs : Int) : Heap :=
  { h with numRefs := Function.update h.numRefs k refs }

/-- What the allocator answers: whether it succeeds, the bytes that fresh memory holds, and
whether it frees what is resized to nothing. -/
structure Allocation where
  succeeds : Bool
  byte : Nat → UInt8
  freesEmpty : Bool

def Allocation.bytes (a : Allocation) (n : Nat) : List UInt8 := (List.range n).map a.byte

/-- A negative size is beyond what any allocator has when it is taken as a `size_t`. -/
def malloc (a : Allocation) (size : Int) : Option (List UInt8) :=
  if a.succeeds ∧ 0 ≤ size then some (a.bytes size.toNat) else none

inductive Arg where
  | smallint (i : SmallInteger)
  | object

inductive Answer where
  | nil
  | smallint (i : Int)
  | typeError
  deriving DecidableEq, Repr

def moduleInit : Heap := ⟨fun _ => .null, fun _ => 0, fun _ => 0⟩

def handleIsvalid (h : Heap) (memory : Int) : Option Bool :=
  if 0 ≤ memory ∧ memory < memsMaximum then some (h.areas memory.toNat ≠ .null) else none

def allocate (h : Heap) : Option Nat :=
  (List.range memsMaximum).find? fun memory => h.areas memory = .null

def close (h : Heap) (memory : Int) : Option Heap := do
  if ← handleIsvalid h memory then
    let m := memory.toNat
    let refs ← cInt (h.numRefs m - 1)
    let h := h.setRefs m refs
    if refs = 0 then
      match h.areas m with
      | .freed => none
      | _ => some ((h.setArea m .null).setSize m 0)
    else some h
  else some h

def addref (h : Heap) (memory : Int) : Option Heap := do
  if ← handleIsvalid h memory then
    let refs ← cInt (h.numRefs memory.toNat + 1)
    some (h.setRefs memory.toNat refs)
  else some h

def open_ (h : Heap) (size : Int) (a : Allocation) : Heap × Int :=
  match allocate h with
  | none => (h, -1)
  | some m =>
    match malloc a size with
    | none => (h, -1)
    | some bytes => (((h.setArea m (.live bytes)).setSize m size).setRefs m 1, m)

def sizeof (h : Heap) (memory : Int) : Option Int := do
  if ← handleIsvalid h memory then some (h.sizes memory.toNat) else some (-1)

def resize (h : Heap) (memory : Int) (size : Int) (a : Allocation) : Option (Heap × Int) := do
  if ← handleIsvalid h memory then
    let m := memory.toNat
    if h.numRefs m ≠ 1 then some (h, -1)
    else if h.sizes m = size then some (h, size)
    else
      match h.areas m with
      | .live bytes =>
        if size = 0 ∧ ¬ a.succeeds ∧ a.freesEmpty then
          some (h.setArea m .freed, -1)
        else
          match malloc a size with
          | none => some (h, -1)
          | some fresh =>
            let moved := bytes.take fresh.length ++ fresh.drop bytes.length
            some ((h.setArea m (.live moved)).setSize m size, size)
      | _ => none
  else some (h, -1)

/-- The first bytes of `into` are replaced by those of `source`. -/
def memcpy (into source : List UInt8) (n : Int) : Option (List UInt8) :=
  if n ≤ into.length ∧ n ≤ source.length then
    some (source.take n.toNat ++ into.drop n.toNat)
  else none

def delimited (h : Heap) (memory memStart n : Int) : Option Int := do
  let left ← cInt (h.sizes memory.toNat - memStart)
  some (if n < left then n else left)

/-- From an area into the bytes, whatever `memStart` is. -/
def write (h : Heap) (memory memStart n : Int) (bytes : List UInt8) :
    Option (List UInt8 × Int) := do
  if ← handleIsvalid h memory then
    let nDelimited ← delimited h memory memStart n
    if 0 < nDelimited then
      match h.areas memory.toNat with
      | .live area => (memcpy bytes area nDelimited).map (·, nDelimited)
      | _ => none
    else some (bytes, nDelimited)
  else some (bytes, -1)

def read (h : Heap) (memory memStart n : Int) (bytes : List UInt8) : Option (Heap × Int) := do
  if ← handleIsvalid h memory then
    let nDelimited ← delimited h memory memStart n
    if 0 < nDelimited then
      match h.areas memory.toNat with
      | .live area => (memcpy area bytes nDelimited).map fun area =>
          (h.setArea memory.toNat (.live area), nDelimited)
      | _ => none
    else some (h, nDelimited)
  else some (h, -1)

def primMemoryNew (h : Heap) (size : Arg) (a : Allocation) : Heap × Answer :=
  match size with
  | .object => (h, .nil)
  | .smallint size =>
    let (h, handle) := open_ h (toCInt size.value) a
    (h, if 0 ≤ handle then .smallint handle else .nil)

def primMemoryClose (h : Heap) (handle : Arg) : Option (Heap × Answer) :=
  match handle with
  | .object => some (h, .nil)
  | .smallint handle => (close h (toCInt handle.value)).map (·, .nil)

def primMemorySize (h : Heap) (handle : Arg) : Option (Heap × Answer) :=
  match handle with
  | .object => some (h, .nil)
  | .smallint handle => (sizeof h (toCInt handle.value)).map fun size => (h, .smallint size)

def primMemoryAddRef (h : Heap) (handle : Arg) : Option (Heap × Answer) :=
  match handle with
  | .object => some (h, .nil)
  | .smallint handle => (addref h (toCInt handle.value)).map (·, .nil)

def refused (h : Heap) (buf : List UInt8) (amount handle startingAt : Int) : Option Bool := do
  if ← handleIsvalid h (toCInt handle) then
    if buf.length < amount then some true
    else if 0 ≤ handle ∧ handle < memsMaximum then
      some (h.sizes handle.toNat ≤ startingAt + amount)
    else none
  else some true

def primMemoryRead (h : Heap) (buf : List UInt8) (amount handle startingAt : Arg) :
    Option (List UInt8 × Answer) :=
  match amount, handle, startingAt with
  | .smallint amount, .smallint handle, .smallint startingAt => do
    if ← refused h buf amount.value handle.value startingAt.value then some (buf, .smallint (-1))
    else
      let (buf, n) ← write h (toCInt handle.value) (toCInt startingAt.value)
        (toCInt amount.value) buf
      some (buf, .smallint n)
  | _, _, _ => some (buf, .typeError)

def primMemoryWrite (h : Heap) (buf : List UInt8) (amount handle startingAt : Arg) :
    Option (Heap × Answer) :=
  match amount, handle, startingAt with
  | .smallint amount, .smallint handle, .smallint startingAt => do
    if ← refused h buf amount.value handle.value startingAt.value then some (h, .smallint (-1))
    else
      let (h, n) ← read h (toCInt handle.value) (toCInt startingAt.value)
        (toCInt amount.value) buf
      some (h, .smallint n)
  | _, _, _ => some (h, .typeError)

def primMemoryResizeTo (h : Heap) (handle size : Arg) (a : Allocation) :
    Option (Heap × Answer) :=
  match handle, size with
  | .smallint handle, .smallint size =>
    (resize h (toCInt handle.value) (toCInt size.value) a).map fun (h, n) => (h, .smallint n)
  | _, _ => some (h, .nil)

inductive Op where
  | new (size : Arg) (a : Allocation)
  | addRef (handle : Arg)
  | close (handle : Arg)
  | sizeOf (handle : Arg)
  | resizeTo (handle size : Arg) (a : Allocation)
  | read (buf : List UInt8) (amount handle startingAt : Arg)
  | write (buf : List UInt8) (amount handle startingAt : Arg)

/-- The answer, and what is in the buffer of a read afterwards. -/
structure Reply where
  answer : Answer
  buffer : List UInt8

def perform (h : Heap) : Op → Option (Heap × Reply)
  | .new size a =>
    let (h, answer) := primMemoryNew h size a
    some (h, ⟨answer, []⟩)
  | .addRef handle => (primMemoryAddRef h handle).map fun (h, answer) => (h, ⟨answer, []⟩)
  | .close handle => (primMemoryClose h handle).map fun (h, answer) => (h, ⟨answer, []⟩)
  | .sizeOf handle => (primMemorySize h handle).map fun (h, answer) => (h, ⟨answer, []⟩)
  | .resizeTo handle size a =>
    (primMemoryResizeTo h handle size a).map fun (h, answer) => (h, ⟨answer, []⟩)
  | .read buf amount handle startingAt =>
    (primMemoryRead h buf amount handle startingAt).map fun (buf, answer) => (h, ⟨answer, buf⟩)
  | .write buf amount handle startingAt =>
    (primMemoryWrite h buf amount handle startingAt).map fun (h, answer) => (h, ⟨answer, []⟩)

/-- An area as a byte array with the references added and closed since it was new. -/
structure Entry where
  bytes : List UInt8
  addRefs : Nat
  closes : Nat

def Entry.valid (e : Entry) : Bool := e.closes < 1 + e.addRefs

abbrev Areas := Nat → Option Entry

namespace Areas

def entry (m : Areas) (k : Nat) : Option Entry := (m k).filter Entry.valid

def find (m : Areas) : Arg → Option Entry
  | .object => none
  | .smallint i => if 0 ≤ i.value then m.entry i.value.toNat else none

def put (m : Areas) (handle : Arg) (e : Entry) : Areas :=
  match handle with
  | .object => m
  | .smallint i => Function.update m i.value.toNat (some e)

end Areas

def Entry.Accepts (e : Entry) (startingAt amount : Int) : Prop :=
  0 ≤ startingAt ∧ 0 ≤ amount ∧ startingAt + amount ≤ e.bytes.length

instance (e : Entry) (startingAt amount : Int) : Decidable (e.Accepts startingAt amount) :=
  inferInstanceAs (Decidable (_ ∧ _))

def overwritten (bytes source : List UInt8) (place : Nat) : List UInt8 :=
  bytes.take place ++ source ++ bytes.drop (place + source.length)

def Entry.written (e : Entry) (buf : List UInt8) (amount startingAt : Int) : Entry :=
  { e with bytes := overwritten e.bytes (buf.take amount.toNat) startingAt.toNat }

def Entry.resized (e : Entry) (n : Int) (a : Allocation) : Entry :=
  { e with bytes := e.bytes.take n.toNat ++ (a.bytes n.toNat).drop e.bytes.length }

def next (m : Areas) (op : Op) (r : Reply) : Areas :=
  match op with
  | .new size a =>
    match size, r.answer with
    | .smallint n, .smallint handle =>
      Function.update m handle.toNat (some ⟨a.bytes n.value.toNat, 0, 0⟩)
    | _, _ => m
  | .addRef handle =>
    match m.find handle with
    | some e => m.put handle { e with addRefs := e.addRefs + 1 }
    | none => m
  | .close handle =>
    match m.find handle with
    | some e => m.put handle { e with closes := e.closes + 1 }
    | none => m
  | .sizeOf _ => m
  | .resizeTo handle _ a =>
    match m.find handle, r.answer with
    | some e, .smallint n => if 0 ≤ n then m.put handle (e.resized n a) else m
    | _, _ => m
  | .read _ _ _ _ => m
  | .write buf amount handle startingAt =>
    match m.find handle, amount, startingAt with
    | some e, .smallint amount, .smallint startingAt =>
      if e.Accepts startingAt.value amount.value then
        m.put handle (e.written buf amount.value startingAt.value)
      else m
    | _, _, _ => m

def Failure : Answer → Prop
  | .nil | .typeError => True
  | .smallint i => i < 0

def Full (m : Areas) : Prop := ∀ k < memsMaximum, (m.entry k).isSome

def right (m : Areas) (op : Op) (r : Reply) : Prop :=
  match op with
  | .new size a =>
    match r.answer with
    | .smallint handle => 0 ≤ handle ∧ handle < memsMaximum ∧ m.entry handle.toNat = none ∧
        a.succeeds = true ∧ ∃ n, size = .smallint n ∧ 0 ≤ n.value ∧ n.value ≤ intMax
    | .nil => a.succeeds = false ∨ Full m ∨
        ∀ n, size = .smallint n → n.value < 0 ∨ intMax < n.value
    | .typeError => False
  | .addRef _ | .close _ => r.answer = .nil
  | .sizeOf handle =>
    match m.find handle with
    | some e => r.answer = .smallint e.bytes.length
    | none => Failure r.answer
  | .resizeTo handle size a =>
    match m.find handle, size with
    | some e, .smallint n =>
      if 1 + e.addRefs = e.closes + 1 ∧ 0 ≤ n.value ∧ n.value ≤ intMax ∧
          (n.value = e.bytes.length ∨ a.succeeds) then r.answer = .smallint n.value
      else Failure r.answer
    | _, _ => Failure r.answer
  | .read buf amount handle startingAt =>
    match m.find handle, amount, startingAt with
    | some e, .smallint amount, .smallint startingAt =>
      if e.Accepts startingAt.value amount.value then
        r.answer = .smallint amount.value ∧
          r.buffer = slice e.bytes startingAt.value.toNat amount.value.toNat ++
            buf.drop amount.value.toNat
      else Failure r.answer ∧ r.buffer = buf
    | _, _, _ => Failure r.answer ∧ r.buffer = buf
  | .write _ amount handle startingAt =>
    match m.find handle, amount, startingAt with
    | some e, .smallint amount, .smallint startingAt =>
      if e.Accepts startingAt.value amount.value then r.answer = .smallint amount.value
      else Failure r.answer
    | _, _, _ => Failure r.answer

def implementation : Implementation Heap Areas Op Reply where
  start h m := h = moduleInit ∧ m = fun _ => none
  perform := perform
  next := next
  right := right

def Matches (h : Heap) (k : Nat) : Option Entry → Prop
  | none => h.areas k = .null
  | some e => h.areas k = .live e.bytes ∧ h.sizes k = e.bytes.length ∧
      h.numRefs k = 1 + e.addRefs - e.closes ∧ (e.bytes.length : Int) ≤ intMax ∧
      h.numRefs k ≤ intMax

structure Shows (h : Heap) (m : Areas) : Prop where
  entries : ∀ k < memsMaximum, Matches h k (m.entry k)
  outside : ∀ k, memsMaximum ≤ k → m.entry k = none

def HandleOk (h : Heap) (handle : Int) : Prop :=
  (0 ≤ handle ∧ handle < memsMaximum) ∨
    (0 ≤ toCInt handle ∧ toCInt handle < memsMaximum ∧
      h.areas (toCInt handle).toNat = .null)

def Valid (h : Heap) (handle : Int) : Prop :=
  0 ≤ handle ∧ handle < memsMaximum ∧ h.areas handle.toNat ≠ .null

/-- The transfers that are right: what must be refused and is, a negative amount that stays one,
and bytes that start where the area does. -/
def TransferOk (size length amount startingAt : Int) : Prop :=
  (¬ (0 ≤ startingAt ∧ 0 ≤ amount ∧ startingAt + amount ≤ size) ∧
      (length < amount ∨ size ≤ startingAt + amount)) ∨
    (amount < 0 ∧ -(2 ^ 31) ≤ amount ∧ -(2 ^ 31) ≤ size - toCInt startingAt ∧
      size - toCInt startingAt ≤ intMax) ∨
    (0 ≤ startingAt ∧ 0 ≤ amount ∧ amount ≤ length ∧ startingAt + amount < size ∧
      (startingAt = 0 ∨ amount = 0))

def Fits (i : Int) : Prop := -(2 ^ 31) ≤ i ∧ i ≤ intMax

def TransferAllowed (h : Heap) (buf : List UInt8) : Arg → Arg → Arg → Prop
  | .smallint amount, .smallint handle, .smallint startingAt => HandleOk h handle.value ∧
      (Valid h handle.value →
        TransferOk (h.sizes handle.value.toNat) buf.length amount.value startingAt.value)
  | _, _, _ => True

def Allowed (h : Heap) : Op → Prop
  | .new (.smallint n) a => Fits n.value ∨ a.succeeds = false ∨ toCInt n.value < 0
  | .addRef (.smallint handle) => HandleOk h handle.value ∧
      (Valid h handle.value → h.numRefs handle.value.toNat < intMax)
  | .close (.smallint handle) | .sizeOf (.smallint handle) => HandleOk h handle.value
  | .resizeTo (.smallint handle) (.smallint n) a => HandleOk h handle.value ∧
      (Valid h handle.value → h.numRefs handle.value.toNat = 1 →
        (Fits n.value ∨ toCInt n.value < 0) ∧
          ¬ (n.value = 0 ∧ h.sizes handle.value.toNat ≠ 0 ∧ a.succeeds = false ∧
            a.freesEmpty = true))
  | .read buf amount handle startingAt | .write buf amount handle startingAt =>
    TransferAllowed h buf amount handle startingAt
  | _ => True

end SlateVm.MemoryAreas
