import SlateVm.Heap.Object
import SlateVm.Maps.Tables
import SlateVm.Lib.Refinement
import SlateVm.Lib.Slices

/-! The slot table of a map: the names of the slots with their offsets, in bytes, from the
start of the object. -/
namespace SlateVm.Maps
open Slots Probing

structure SlotEntry (Symbol : Type) where
  name : Symbol
  offset : Nat
  deriving DecidableEq, Repr

abbrev SlotTable (Symbol : Type) := List (Option (SlotEntry Symbol))

section Operations

variable {Symbol : Type} (idHash : Symbol → Nat)

/-- The entry goes where `slot_table_entry_for_inserting_name` says. -/
def slotTableInsert (slots : SlotTable Symbol) (slot : SlotEntry Symbol) :
    Option (SlotTable Symbol) :=
  (entryForInsertingName idHash slots slot.name).map fun i => slots.set i (some slot)

def slotTableGrowExcluding [DecidableEq Symbol] (slots : SlotTable Symbol) (n : Int)
    (excluding : Option Symbol) : Option (SlotTable Symbol) :=
  growExcluding (slotTableInsert idHash) (fun slot => decide (some slot.name ≠ excluding)) slots n

def relocated (offset : Nat) (amount : Int) (slot : SlotEntry Symbol) : SlotEntry Symbol :=
  if offset ≤ slot.offset then { slot with offset := (slot.offset + amount).toNat } else slot

def slotTableRelocateBy (slots : SlotTable Symbol) (offset : Nat) (amount : Int) :
    SlotTable Symbol :=
  slots.map (Option.map (relocated offset amount))

def slotTableEntryForName [DecidableEq Symbol] (slots : SlotTable Symbol) (name : Symbol) :
    Option (SlotEntry Symbol) :=
  (entryForName idHash SlotEntry.name slots name).bind (stored slots)

end Operations

section Indexed

variable {Symbol : Type} {idHash : Symbol → Nat} {slots : SlotTable Symbol}

@[simp] theorem relocated_name (offset : Nat) (amount : Int) (slot : SlotEntry Symbol) :
    (relocated offset amount slot).name = slot.name := by
  unfold relocated
  split <;> rfl

def SlotHolds (idHash : Symbol → Nat) (slots : SlotTable Symbol)
    (entries : List (SlotEntry Symbol)) : Prop :=
  ∃ placed, Layout idHash SlotEntry.name slots placed ∧ placed.map Prod.snd = entries

theorem slot_fills : Fills (slotTableInsert idHash) (SlotHolds idHash) where
  blank n := ⟨[], layout_blank n, rfl⟩
  insert := by
    rintro slots entries ⟨placed, layout, rfl⟩ room e
    rw [List.length_map] at room
    obtain ⟨q, found, -, -, after⟩ := layout.insert room e
    refine ⟨slots.set q (some e), ?_, List.length_set, placed ++ [(q, e)], after, ?_⟩
    · rw [slotTableInsert, found]
      rfl
    · rw [List.map_append]
      rfl

/-- A table in which every search finds its way, with one entry for each name. -/
structure Indexed (idHash : Symbol → Nat) (slots : SlotTable Symbol) : Prop where
  placed : ∃ placed, Layout idHash SlotEntry.name slots placed
  names : (slots.reduceOption.map SlotEntry.name).Nodup
  capacity : IsCapacity slots.length

theorem SlotHolds.perm {entries : List (SlotEntry Symbol)} (holds : SlotHolds idHash slots entries) :
    slots.reduceOption.Perm entries := by
  obtain ⟨placed, layout, rfl⟩ := holds
  exact layout.perm

theorem SlotHolds.indexed {entries : List (SlotEntry Symbol)}
    (holds : SlotHolds idHash slots entries) (names : (entries.map SlotEntry.name).Nodup)
    (capacity : IsCapacity slots.length) : Indexed idHash slots := by
  have same := holds.perm
  obtain ⟨placed, layout, -⟩ := holds
  exact ⟨⟨placed, layout⟩, (same.map SlotEntry.name).nodup_iff.mpr names, capacity⟩

theorem Indexed.found [DecidableEq Symbol] (indexed : Indexed idHash slots) {s : Symbol}
    {e : SlotEntry Symbol} :
    slotTableEntryForName idHash slots s = some e ↔ e ∈ slots.reduceOption ∧ e.name = s := by
  obtain ⟨placed, layout⟩ := indexed.placed
  have same := layout.perm
  have names := (same.map SlotEntry.name).nodup_iff.mp indexed.names
  rw [List.map_map] at names
  rw [slotTableEntryForName, layout.entryForName, same.mem_iff]
  constructor
  · intro found
    obtain ⟨p, first, here⟩ := Option.bind_eq_some_iff.mp found
    obtain ⟨x, chosen, rfl⟩ := Option.map_eq_some_iff.mp first
    obtain ⟨member, named⟩ := List.mem_filter.mp (List.mem_of_mem_head? chosen)
    have there := (layout.slots x.1 x.2).mpr member
    cases here.symm.trans there
    exact ⟨List.mem_map.mpr ⟨x, member, rfl⟩, of_decide_eq_true named⟩
  · rintro ⟨member, named⟩
    obtain ⟨x, there, rfl⟩ := List.mem_map.mp member
    have chosen : x ∈ placed.filter fun y => decide (y.2.name = s) :=
      List.mem_filter.mpr ⟨there, decide_eq_true named⟩
    cases chain : placed.filter fun y => decide (y.2.name = s) with
    | nil => exact absurd (chain ▸ chosen) List.not_mem_nil
    | cons y rest =>
      obtain ⟨first, called⟩ := List.mem_filter.mp (chain ▸ List.mem_cons_self)
      have one : y = x := List.inj_on_of_nodup_map names first there
        ((of_decide_eq_true called).trans named.symm)
      rw [one]
      exact (layout.slots x.1 x.2).mpr there

theorem Indexed.grow [DecidableEq Symbol] (indexed : Indexed idHash slots) {n : Int} {wanted : Nat}
    {excluding : Option Symbol} (sum : (slots.reduceOption.length : Int) + n = wanted)
    (fits : (slots.reduceOption.filter fun e => decide (some e.name ≠ excluding)).length ≤ wanted)
    (starts : slots.length ≠ 0 ∨ n ≠ 1) :
    ∃ slots', slotTableGrowExcluding idHash slots n excluding = some slots' ∧
      Indexed idHash slots' ∧ wanted ≤ slots'.length ∧
      slots'.reduceOption.Perm
        (slots.reduceOption.filter fun e => decide (some e.name ≠ excluding)) := by
  obtain ⟨slots', run, held, large, capacity⟩ :=
    (@slot_fills Symbol idHash).grow sum fits starts
  refine ⟨slots', run, held.indexed ?_ (capacity indexed.capacity), large, held.perm⟩
  exact indexed.names.sublist (List.filter_sublist.map SlotEntry.name)

theorem Indexed.insert (indexed : Indexed idHash slots)
    (room : slots.reduceOption.length < slots.length) {e : SlotEntry Symbol}
    (fresh : e.name ∉ slots.reduceOption.map SlotEntry.name) :
    ∃ slots', slotTableInsert idHash slots e = some slots' ∧ Indexed idHash slots' ∧
      slots'.reduceOption.Perm (slots.reduceOption ++ [e]) := by
  obtain ⟨placed, layout⟩ := indexed.placed
  have same := layout.perm
  obtain ⟨slots', run, size, held⟩ :=
    slot_fills.insert slots _ ⟨placed, layout, rfl⟩ (by rwa [← same.length_eq]) e
  have after : (slots.reduceOption ++ [e]).Perm (placed.map Prod.snd ++ [e]) := same.append_right [e]
  have names : ((slots.reduceOption ++ [e]).map SlotEntry.name).Nodup := by
    rw [List.map_append, List.map_singleton]
    exact List.nodup_append'.mpr ⟨indexed.names, List.nodup_singleton _,
      List.disjoint_singleton.mpr fresh⟩
  refine ⟨slots', run, held.indexed ?_ (size ▸ indexed.capacity), held.perm.trans after.symm⟩
  exact (after.map SlotEntry.name).nodup_iff.mp names

theorem relocated_entries (offset : Nat) (amount : Int) :
    (slotTableRelocateBy slots offset amount).reduceOption =
      slots.reduceOption.map (relocated offset amount) := List.reduceOption_map

theorem Indexed.relocate (indexed : Indexed idHash slots) (offset : Nat) (amount : Int) :
    Indexed idHash (slotTableRelocateBy slots offset amount) := by
  have size : (slotTableRelocateBy slots offset amount).length = slots.length := List.length_map ..
  obtain ⟨placed, layout⟩ := indexed.placed
  constructor
  · refine ⟨placed.map (Prod.map id (relocated offset amount)), ?_⟩
    rw [Layout, size]
    exact layout.map _ (fun e => by rw [relocated_name]) (stored_map _)
  · rw [relocated_entries, List.map_map]
    have kept : SlotEntry.name ∘ @relocated Symbol offset amount = SlotEntry.name :=
      funext fun e => relocated_name offset amount e
    rw [kept]
    exact indexed.names
  · rw [size]
    exact indexed.capacity

variable [DecidableEq Symbol] {slots' : SlotTable Symbol}

theorem Indexed.lookup_added (indexed : Indexed idHash slots) (indexed' : Indexed idHash slots')
    {e : SlotEntry Symbol} (entries : slots'.reduceOption.Perm (slots.reduceOption ++ [e]))
    (fresh : slotTableEntryForName idHash slots e.name = none) (s : Symbol) :
    slotTableEntryForName idHash slots' s =
      if s = e.name then some e else slotTableEntryForName idHash slots s := by
  split
  · rename_i same
    subst same
    exact indexed'.found.mpr ⟨entries.mem_iff.mpr (by simp), rfl⟩
  · rename_i other
    apply Option.ext
    intro b
    rw [indexed'.found, indexed.found, entries.mem_iff, List.mem_append, List.mem_singleton]
    constructor
    · rintro ⟨old | rfl, named⟩
      · exact ⟨old, named⟩
      · exact absurd named.symm other
    · rintro ⟨old, named⟩
      exact ⟨Or.inl old, named⟩

theorem Indexed.lookup_removed (indexed : Indexed idHash slots) (indexed' : Indexed idHash slots')
    {name : Symbol} {f : SlotEntry Symbol → SlotEntry Symbol} (named : ∀ e, (f e).name = e.name)
    (entries : slots'.reduceOption.Perm
      ((slots.reduceOption.filter fun e => decide (some e.name ≠ some name)).map f)) (s : Symbol) :
    slotTableEntryForName idHash slots' s =
      if s = name then none else (slotTableEntryForName idHash slots s).map f := by
  have member : ∀ b, b ∈ slots'.reduceOption ↔
      ∃ e ∈ slots.reduceOption, e.name ≠ name ∧ f e = b := by
    intro b
    rw [entries.mem_iff, List.mem_map]
    simp only [List.mem_filter, decide_eq_true_eq, ne_eq, Option.some.injEq, and_assoc]
  apply Option.ext
  intro b
  rw [indexed'.found, member]
  split
  · rename_i same
    subst same
    constructor
    · rintro ⟨⟨e, -, away, rfl⟩, here⟩
      exact absurd ((named e).symm.trans here) away
    · intro none
      cases none
  · rename_i other
    rw [Option.map_eq_some_iff]
    constructor
    · rintro ⟨⟨e, old, -, rfl⟩, here⟩
      exact ⟨e, indexed.found.mpr ⟨old, (named e).symm.trans here⟩, rfl⟩
    · rintro ⟨e, found, rfl⟩
      obtain ⟨old, here⟩ := indexed.found.mp found
      exact ⟨⟨e, old, here ▸ other, rfl⟩, (named e).trans here⟩

end Indexed

end SlateVm.Maps

/-! Adding slots to an object and removing them: each makes a new object with a new map, and
copies the bytes around the changed slot. The new object is all that counts here, its id hash
and the allocation do not. -/
namespace SlateVm.Maps
open Slices Refinement

/-- An object with what its map says of its slots. The bytes are those from the first slot to
the end, slots and payload, rounded up to a word. -/
structure SlottedObject (Symbol Byte : Type) where
  slotTable : SlotTable Symbol
  slotCount : Nat
  format : Nat
  objectSize : Nat
  payloadSize : Nat
  bytes : List Byte

section Operations

variable {Symbol Byte : Type} [DecidableEq Symbol] (idHash : Symbol → Nat)

def firstSlotOffset : Nat := (headerSizeWords + 1) * sizeofWord

def SlottedObject.newPayloadSize (obj : SlottedObject Symbol Byte) : Nat :=
  if obj.format = typeObject then 0 else obj.payloadSize

def objectAddSlotNamedAt (obj : SlottedObject Symbol Byte) (name : Symbol)
    (value : Vector Byte sizeofWord) (offset : Nat) : Option (Option (SlottedObject Symbol Byte)) :=
  if (slotTableEntryForName idHash obj.slotTable name).isSome then some none
  else do
    let slotTable ← slotTableGrowExcluding idHash obj.slotTable 1 none
    let slotTable := slotTableRelocateBy slotTable offset sizeofWord
    let slotTable ← slotTableInsert idHash slotTable ⟨name, offset⟩
    some (some { obj with
      slotTable := slotTable
      objectSize := obj.objectSize + 1
      payloadSize := obj.newPayloadSize
      bytes := splice obj.bytes value.toList (offset - firstSlotOffset) })

def objectAddSlotNamed (obj : SlottedObject Symbol Byte) (name : Symbol)
    (value : Vector Byte sizeofWord) : Option (SlottedObject Symbol Byte) := do
  match ← objectAddSlotNamedAt idHash obj name value
      (firstSlotOffset + obj.slotCount * sizeofWord) with
  | none => some obj
  | some newObj => some { newObj with slotCount := newObj.slotCount + 1 }

def objectRemoveSlot (obj : SlottedObject Symbol Byte) (name : Symbol) :
    Option (SlottedObject Symbol Byte) :=
  match slotTableEntryForName idHash obj.slotTable name with
  | none => some obj
  | some se => do
    let slotTable ← slotTableGrowExcluding idHash obj.slotTable (-1) (some se.name)
    let before := se.offset - firstSlotOffset
    some { obj with
      slotTable := slotTableRelocateBy slotTable se.offset (-sizeofWord)
      slotCount := obj.slotCount - 1
      objectSize := obj.objectSize - 1
      payloadSize := obj.newPayloadSize
      bytes := obj.bytes.take before ++
        slice obj.bytes sizeofWord (obj.bytes.length - before - sizeofWord) }

inductive SlotOp (Symbol Byte : Type) where
  | addSlotNamed (name : Symbol) (value : Vector Byte sizeofWord)
  | removeSlot (name : Symbol)

def SlottedObject.perform (obj : SlottedObject Symbol Byte) :
    SlotOp Symbol Byte → Option (SlottedObject Symbol Byte)
  | .addSlotNamed name value => objectAddSlotNamed idHash obj name value
  | .removeSlot name => objectRemoveSlot idHash obj name

end Operations

section Contents

variable {Symbol Byte : Type} [DecidableEq Symbol]

/-- What an object is for: values under names, and elements. -/
structure Contents (Symbol Byte : Type) where
  slots : Symbol → Option (List Byte)
  payload : List Byte

def Contents.after (m : Contents Symbol Byte) : SlotOp Symbol Byte → Contents Symbol Byte
  | .addSlotNamed name value =>
    if (m.slots name).isSome then m
    else { m with slots := Function.update m.slots name (some value.toList) }
  | .removeSlot name => { m with slots := Function.update m.slots name none }

def SlottedObject.slotValueAtOffset (obj : SlottedObject Symbol Byte) (offset : Nat) : List Byte :=
  slice obj.bytes (offset - firstSlotOffset) sizeofWord

def SlottedObject.arrayStart (obj : SlottedObject Symbol Byte) : Nat :=
  obj.objectSize * sizeofWord - firstSlotOffset

def SlottedObject.contents (idHash : Symbol → Nat) (obj : SlottedObject Symbol Byte) :
    Contents Symbol Byte where
  slots s := (slotTableEntryForName idHash obj.slotTable s).map fun e =>
    obj.slotValueAtOffset e.offset
  payload := slice obj.bytes obj.arrayStart obj.newPayloadSize

/-- The slot table finds its entries, their offsets are apart and in the slot area. -/
structure Laid (idHash : Symbol → Nat) (obj : SlottedObject Symbol Byte) : Prop where
  indexed : Indexed idHash obj.slotTable
  offsets : (obj.slotTable.reduceOption.map SlotEntry.offset).Nodup
  area : ∀ e ∈ obj.slotTable.reduceOption, ∃ j < obj.slotCount,
    e.offset = firstSlotOffset + j * sizeofWord
  counted : headerSizeWords + 1 + obj.slotCount ≤ obj.objectSize
  size : obj.bytes.length = obj.arrayStart +
    (obj.newPayloadSize + sizeofWord - 1) / sizeofWord * sizeofWord

def slotImplementation (idHash : Symbol → Nat) :
    Implementation (SlottedObject Symbol Byte) (Contents Symbol Byte) (SlotOp Symbol Byte) Unit where
  start obj m := Laid idHash obj ∧ obj.contents idHash = m
  perform obj op := (obj.perform idHash op).map fun obj' => (obj', ())
  next m op _ := m.after op
  right _ _ _ := True

def SlottedObject.Used (obj : SlottedObject Symbol Byte) (offset i : Nat) : Prop :=
  (∃ e ∈ obj.slotTable.reduceOption, offset < e.offset ∧ e.offset - firstSlotOffset ≤ i ∧
    i < e.offset - firstSlotOffset + sizeofWord) ∨
  obj.arrayStart ≤ i ∧ i < obj.arrayStart + obj.newPayloadSize

/-- A table without entries takes none, and behind a removed slot there must be the bytes that
stand as far behind the first slot. -/
def SlotOp.Fits (idHash : Symbol → Nat) (obj : SlottedObject Symbol Byte) :
    SlotOp Symbol Byte → Prop
  | .addSlotNamed _ _ => obj.slotTable ≠ []
  | .removeSlot name => ∀ se ∈ slotTableEntryForName idHash obj.slotTable name,
      ∀ i, obj.Used se.offset i → obj.bytes[i - (se.offset - firstSlotOffset)]? = obj.bytes[i]?

end Contents

end SlateVm.Maps
