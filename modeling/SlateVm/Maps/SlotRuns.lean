import SlateVm.Maps.ObjectSlots

/-! What adding and removing slots makes of the values and elements of an object, in any
number of steps. -/
namespace SlateVm.Maps
open Slices Refinement

variable {Symbol Byte : Type} {idHash : Symbol → Nat}
  {obj : SlottedObject Symbol Byte}

section Layout

theorem newPayloadSize_again (slotTable : SlotTable Symbol) (slotCount objectSize : Nat)
    (bytes : List Byte) :
    (SlottedObject.mk slotTable slotCount obj.format objectSize obj.newPayloadSize
      bytes).newPayloadSize = obj.newPayloadSize := by
  unfold SlottedObject.newPayloadSize
  dsimp only
  split <;> rfl

theorem Laid.inside (laid : Laid idHash obj) {e : SlotEntry Symbol}
    (member : e ∈ obj.slotTable.reduceOption) : firstSlotOffset ≤ e.offset ∧
      e.offset + sizeofWord ≤ firstSlotOffset + obj.slotCount * sizeofWord := by
  obtain ⟨j, small, here⟩ := laid.area e member
  have := Nat.mul_le_mul_right sizeofWord (Nat.succ_le_of_lt small)
  rw [Nat.succ_mul] at this
  omega

theorem Laid.slotsEnd (laid : Laid idHash obj) :
    obj.slotCount * sizeofWord ≤ obj.arrayStart := by
  have := Nat.mul_le_mul_right sizeofWord laid.counted
  rw [Nat.add_mul] at this
  unfold SlottedObject.arrayStart firstSlotOffset
  omega

theorem Laid.sizePositive (laid : Laid idHash obj) : firstSlotOffset ≤ obj.objectSize * sizeofWord :=
  Nat.mul_le_mul_right sizeofWord (Nat.le_of_add_right_le laid.counted)

end Layout

section Cut

variable {xs : List Byte} {r w a n i : Nat}

theorem length_cut (inside : r + w ≤ xs.length) :
    (xs.take r ++ slice xs w (xs.length - r - w)).length = xs.length - w := by
  simp only [slice, List.length_append, List.length_take, List.length_drop]
  omega

theorem getElem?_cut (behind : r ≤ i) (inside : i + w < xs.length) :
    (xs.take r ++ slice xs w (xs.length - r - w))[i]? = xs[i + w - r]? := by
  have front : (xs.take r).length = r := by rw [List.length_take]; omega
  rw [List.getElem?_append_right (by omega), front, getElem?_slice (by omega)]
  congr 1
  omega

theorem slice_cut_before (before : a + n ≤ r) (inside : r ≤ xs.length) :
    slice (xs.take r ++ slice xs w (xs.length - r - w)) a n = slice xs a n := by
  apply slice_eq_iff.mpr
  intro k within
  rw [List.getElem?_append_left (by rw [List.length_take]; omega),
    List.getElem?_take_of_lt (by omega)]

theorem slice_cut_iff (behind : r + w ≤ a) (inside : a + n ≤ xs.length) :
    slice (xs.take r ++ slice xs w (xs.length - r - w)) (a - w) n = slice xs a n ↔
      ∀ i, a ≤ i ∧ i < a + n → xs[i - r]? = xs[i]? := by
  rw [slice_eq_iff]
  constructor
  · rintro same i ⟨low, high⟩
    have here := same (i - a) (by omega)
    rw [getElem?_cut (by omega) (by omega)] at here
    rwa [show a - w + (i - a) + w - r = i - r by omega, show a + (i - a) = i by omega] at here
  · intro same k within
    rw [getElem?_cut (by omega) (by omega), show a - w + k + w - r = a + k - r by omega]
    exact same (a + k) ⟨Nat.le_add_right .., by omega⟩

theorem Laid.removed_offset (laid : Laid idHash obj) {se e : SlotEntry Symbol}
    (removed : se ∈ obj.slotTable.reduceOption) (member : e ∈ obj.slotTable.reduceOption)
    (other : e.name ≠ se.name) :
    (e.offset + sizeofWord ≤ se.offset ∧ relocated se.offset (-sizeofWord) e = e) ∨
    (se.offset + sizeofWord ≤ e.offset ∧
      (relocated se.offset (-sizeofWord) e).offset = e.offset - sizeofWord) := by
  obtain ⟨i, -, here⟩ := laid.area e member
  obtain ⟨j, -, there⟩ := laid.area se removed
  have apart : e.offset ≠ se.offset := fun same =>
    other (congrArg SlotEntry.name (List.inj_on_of_nodup_map laid.offsets member removed same))
  have words : i ≠ j := fun same => apart (by rw [here, there, same])
  simp only [firstSlotOffset, sizeofWord, relocated] at *
  rcases Nat.lt_or_gt_of_ne words with before | behind
  · exact Or.inl ⟨by omega, if_neg (by omega)⟩
  · refine Or.inr ⟨by omega, ?_⟩
    rw [if_pos (by omega)]
    dsimp only
    omega

end Cut

variable [DecidableEq Symbol]

section Added

theorem Laid.added (laid : Laid idHash obj) {name : Symbol} (value : Vector Byte sizeofWord)
    (fresh : slotTableEntryForName idHash obj.slotTable name = none) (table : obj.slotTable ≠ []) :
    ∃ obj', objectAddSlotNamed idHash obj name value = some obj' ∧ Laid idHash obj' ∧
      obj'.contents idHash = (obj.contents idHash).after (.addSlotNamed name value) := by
  let offset := firstSlotOffset + obj.slotCount * sizeofWord
  have missing : name ∉ obj.slotTable.reduceOption.map SlotEntry.name := by
    intro there
    obtain ⟨e, member, named⟩ := List.mem_map.mp there
    have found := laid.indexed.found.mpr ⟨member, named⟩
    rw [fresh] at found
    cases found
  -- the new table takes the old entries, none of which has to move
  have all : obj.slotTable.reduceOption.filter (fun e => decide (some e.name ≠ none)) =
      obj.slotTable.reduceOption := by simp
  have sum : (obj.slotTable.reduceOption.length : Int) + 1 =
      ((obj.slotTable.reduceOption.length + 1 : Nat) : Int) := rfl
  have fits : (obj.slotTable.reduceOption.filter fun e => decide (some e.name ≠ none)).length ≤
      obj.slotTable.reduceOption.length + 1 := by
    rw [all]
    omega
  obtain ⟨grown, grow, indexed, large, entries⟩ := laid.indexed.grow sum fits
    (Or.inl fun none => table (List.length_eq_zero_iff.mp none))
  rw [all] at entries
  have moved : (slotTableRelocateBy grown offset sizeofWord).reduceOption = grown.reduceOption := by
    rw [relocated_entries]
    refine (List.map_congr_left fun e member => ?_).trans (List.map_id _)
    have := laid.inside (entries.mem_iff.mp member)
    exact if_neg (by simp only [offset, sizeofWord] at this ⊢; omega)
  have size : (slotTableRelocateBy grown offset sizeofWord).length = grown.length :=
    List.length_map ..
  obtain ⟨slotTable, insert, indexed', entries'⟩ :=
    (indexed.relocate offset sizeofWord).insert (e := ⟨name, offset⟩)
      (by rw [moved, size, entries.length_eq]; omega)
      (by rw [moved]; exact fun there => missing ((entries.map _).mem_iff.mp there))
  rw [moved] at entries'
  replace entries' := entries'.trans (entries.append_right _)
  have run : objectAddSlotNamed idHash obj name value = some { obj with
      slotTable := slotTable
      slotCount := obj.slotCount + 1
      objectSize := obj.objectSize + 1
      payloadSize := obj.newPayloadSize
      bytes := splice obj.bytes value.toList (offset - firstSlotOffset) } := by
    simp only [objectAddSlotNamed, objectAddSlotNamedAt, fresh, Option.isSome_none,
      Bool.false_eq_true, if_false, grow, Option.bind_eq_bind, Option.bind_some, insert, offset]
  have start : offset - firstSlotOffset = obj.slotCount * sizeofWord := Nat.add_sub_cancel_left ..
  have words := laid.slotsEnd
  have positive := laid.sizePositive
  have inside : offset - firstSlotOffset ≤ obj.bytes.length := by
    rw [laid.size]
    omega
  have word : value.toList.length = sizeofWord := Vector.length_toList ..
  refine ⟨_, run, ?_, ?_⟩
  · constructor
    · exact indexed'
    · rw [(entries'.map _).nodup_iff, List.map_append]
      refine List.nodup_append'.mpr ⟨laid.offsets, List.nodup_singleton _, ?_⟩
      refine List.disjoint_singleton.mpr fun there => ?_
      obtain ⟨e, member, here⟩ := List.mem_map.mp there
      have := laid.inside member
      simp only [offset, sizeofWord] at here this
      omega
    · intro e member
      rcases List.mem_append.mp (entries'.mem_iff.mp member) with old | new
      · obtain ⟨j, small, here⟩ := laid.area e old
        exact ⟨j, Nat.lt_succ_of_lt small, here⟩
      · cases List.mem_singleton.mp new
        exact ⟨obj.slotCount, Nat.lt_succ_self _, rfl⟩
    · exact Nat.succ_le_succ laid.counted
    · rw [newPayloadSize_again, length_splice, word, laid.size]
      simp only [SlottedObject.arrayStart, Nat.succ_mul]
      omega
  · have lookup := laid.indexed.lookup_added indexed' entries' fresh
    have absent : ((obj.contents idHash).slots name).isSome = false := by
      simp only [SlottedObject.contents, fresh, Option.map_none, Option.isSome_none]
    simp only [Contents.after, absent, Bool.false_eq_true, if_false]
    refine congrArg₂ Contents.mk (funext fun s => ?_) ?_
    · rw [lookup, Function.update_apply]
      split
      · rw [Option.map_some]
        refine congrArg some ?_
        have place := slice_splice_at (v := value.toList) inside
        rwa [word] at place
      · cases found : slotTableEntryForName idHash obj.slotTable s with
        | none => simp only [SlottedObject.contents, found, Option.map_none]
        | some e =>
          have := laid.inside (laid.indexed.found.mp found).1
          simp only [SlottedObject.contents, found, Option.map_some]
          exact congrArg some (slice_splice_before (by omega) inside)
    · rw [newPayloadSize_again]
      have shifted : (obj.objectSize + 1) * sizeofWord - firstSlotOffset =
          obj.arrayStart + value.toList.length := by
        rw [word, Nat.succ_mul, SlottedObject.arrayStart]
        omega
      rw [SlottedObject.arrayStart, shifted]
      exact slice_splice_after (by omega) inside

end Added

section Removed

variable {obj' : SlottedObject Symbol Byte} {se : SlotEntry Symbol}

structure Removed (idHash : Symbol → Nat) (obj : SlottedObject Symbol Byte) (se : SlotEntry Symbol)
    (obj' : SlottedObject Symbol Byte) : Prop where
  indexed : Indexed idHash obj'.slotTable
  entries : obj'.slotTable.reduceOption.Perm
    ((obj.slotTable.reduceOption.filter fun e => decide (some e.name ≠ some se.name)).map
      (relocated se.offset (-sizeofWord)))
  slotCount : obj'.slotCount = obj.slotCount - 1
  objectSize : obj'.objectSize = obj.objectSize - 1
  payload : obj'.newPayloadSize = obj.newPayloadSize
  bytes : obj'.bytes = obj.bytes.take (se.offset - firstSlotOffset) ++ slice obj.bytes sizeofWord
    (obj.bytes.length - (se.offset - firstSlotOffset) - sizeofWord)

theorem Laid.removeSlot (laid : Laid idHash obj) {name : Symbol}
    (found : slotTableEntryForName idHash obj.slotTable name = some se) :
    ∃ obj', objectRemoveSlot idHash obj name = some obj' ∧ Removed idHash obj se obj' := by
  obtain ⟨member, -⟩ := laid.indexed.found.mp found
  have fewer : (obj.slotTable.reduceOption.filter fun e =>
      decide (some e.name ≠ some se.name)).length < obj.slotTable.reduceOption.length :=
    List.length_filter_lt_length_iff_exists.mpr ⟨se, member, by simp⟩
  have sum : (obj.slotTable.reduceOption.length : Int) + (-1) =
      ((obj.slotTable.reduceOption.length - 1 : Nat) : Int) := by omega
  obtain ⟨grown, grow, indexed, -, entries⟩ :=
    laid.indexed.grow sum (Nat.le_sub_one_of_lt fewer) (Or.inr (by decide))
  have run : objectRemoveSlot idHash obj name = some { obj with
      slotTable := slotTableRelocateBy grown se.offset (-sizeofWord)
      slotCount := obj.slotCount - 1
      objectSize := obj.objectSize - 1
      payloadSize := obj.newPayloadSize
      bytes := obj.bytes.take (se.offset - firstSlotOffset) ++ slice obj.bytes sizeofWord
        (obj.bytes.length - (se.offset - firstSlotOffset) - sizeofWord) } := by
    simp only [objectRemoveSlot, found, grow, Option.bind_eq_bind, Option.bind_some]
  refine ⟨_, run, ?_⟩
  constructor
  · exact indexed.relocate se.offset (-sizeofWord)
  · rw [relocated_entries]
    exact entries.map _
  · rfl
  · rfl
  · exact newPayloadSize_again ..
  · rfl

theorem Removed.arrayStart (removed : Removed idHash obj se obj') (laid : Laid idHash obj)
    (member : se ∈ obj.slotTable.reduceOption) : obj'.arrayStart = obj.arrayStart - sizeofWord := by
  have words := laid.slotsEnd
  have within := laid.inside member
  rw [SlottedObject.arrayStart, removed.objectSize, Nat.sub_mul, SlottedObject.arrayStart]
  omega

theorem Removed.kept (removed : Removed idHash obj se obj') {e : SlotEntry Symbol}
    (there : e ∈ obj'.slotTable.reduceOption) : ∃ x ∈ obj.slotTable.reduceOption,
      x.name ≠ se.name ∧ relocated se.offset (-sizeofWord) x = e := by
  obtain ⟨x, chosen, moved⟩ := List.mem_map.mp (removed.entries.mem_iff.mp there)
  obtain ⟨member, other⟩ := List.mem_filter.mp chosen
  exact ⟨x, member, by simpa using other, moved⟩

theorem Removed.offsets (removed : Removed idHash obj se obj') (laid : Laid idHash obj)
    (member : se ∈ obj.slotTable.reduceOption) :
    (obj'.slotTable.reduceOption.map SlotEntry.offset).Nodup := by
  rw [(removed.entries.map _).nodup_iff, List.map_map]
  refine List.Nodup.map_on ?_ ((List.Nodup.of_map _ laid.offsets).filter _)
  intro x hx y hy same
  simp only [List.mem_filter, decide_eq_true_eq, ne_eq, Option.some.injEq] at hx hy
  refine List.inj_on_of_nodup_map laid.offsets hx.1 hy.1 ?_
  simp only [Function.comp_apply] at same
  rcases laid.removed_offset member hx.1 hx.2 with ⟨_, xstays⟩ | ⟨_, xmoves⟩ <;>
    rcases laid.removed_offset member hy.1 hy.2 with ⟨_, ystays⟩ | ⟨_, ymoves⟩
  · rwa [xstays, ystays] at same
  · rw [xstays, ymoves] at same
    omega
  · rw [xmoves, ystays] at same
    omega
  · rw [xmoves, ymoves] at same
    omega

theorem Removed.laid (removed : Removed idHash obj se obj') (laid : Laid idHash obj)
    (member : se ∈ obj.slotTable.reduceOption) : Laid idHash obj' := by
  have words := laid.slotsEnd
  have within := laid.inside member
  obtain ⟨j, small, there⟩ := laid.area se member
  constructor
  · exact removed.indexed
  · exact removed.offsets laid member
  · intro e here
    obtain ⟨x, old, other, rfl⟩ := removed.kept here
    obtain ⟨k, few, place⟩ := laid.area x old
    rw [removed.slotCount]
    rcases laid.removed_offset member old other with ⟨low, stays⟩ | ⟨high, moves⟩
    · rw [stays, place]
      simp only [sizeofWord] at low place there
      exact ⟨k, by omega, rfl⟩
    · rw [moves, place]
      simp only [sizeofWord] at high place there ⊢
      exact ⟨k - 1, by omega, by omega⟩
  · have := laid.counted
    rw [removed.slotCount, removed.objectSize]
    omega
  · rw [removed.bytes, length_cut (by rw [laid.size]; omega), removed.payload,
      removed.arrayStart laid member, laid.size]
    omega

theorem Removed.value_iff (removed : Removed idHash obj se obj') (laid : Laid idHash obj)
    (member : se ∈ obj.slotTable.reduceOption) {e : SlotEntry Symbol}
    (old : e ∈ obj.slotTable.reduceOption) (other : e.name ≠ se.name) :
    obj'.slotValueAtOffset (relocated se.offset (-sizeofWord) e).offset =
      obj.slotValueAtOffset e.offset ↔
    ∀ i, se.offset < e.offset ∧ e.offset - firstSlotOffset ≤ i ∧
        i < e.offset - firstSlotOffset + sizeofWord →
      obj.bytes[i - (se.offset - firstSlotOffset)]? = obj.bytes[i]? := by
  have words := laid.slotsEnd
  have long : obj.arrayStart ≤ obj.bytes.length := by rw [laid.size]; omega
  have removedAt := laid.inside member
  have keptAt := laid.inside old
  unfold SlottedObject.slotValueAtOffset
  rw [removed.bytes]
  rcases laid.removed_offset member old other with ⟨low, stays⟩ | ⟨high, moves⟩
  · rw [stays, slice_cut_before (by omega) (by omega)]
    simp only [true_iff]
    omega
  · rw [moves, show e.offset - sizeofWord - firstSlotOffset =
      e.offset - firstSlotOffset - sizeofWord by omega, slice_cut_iff (by omega) (by omega)]
    have behind : se.offset < e.offset := Nat.lt_of_lt_of_le (by simp [sizeofWord]) high
    simp only [behind, true_and]

theorem Removed.contents_iff (removed : Removed idHash obj se obj') (laid : Laid idHash obj)
    (member : se ∈ obj.slotTable.reduceOption) :
    obj'.contents idHash = (obj.contents idHash).after (.removeSlot se.name) ↔
      ∀ i, obj.Used se.offset i →
        obj.bytes[i - (se.offset - firstSlotOffset)]? = obj.bytes[i]? := by
  have lookup := laid.indexed.lookup_removed removed.indexed (relocated_name _ _) removed.entries
  have words := laid.slotsEnd
  have within := laid.inside member
  have long : obj.arrayStart + obj.newPayloadSize ≤ obj.bytes.length := by
    rw [laid.size, sizeofWord]
    omega
  have elements : slice obj'.bytes obj'.arrayStart obj'.newPayloadSize =
      slice obj.bytes obj.arrayStart obj.newPayloadSize ↔
      ∀ i, obj.arrayStart ≤ i ∧ i < obj.arrayStart + obj.newPayloadSize →
        obj.bytes[i - (se.offset - firstSlotOffset)]? = obj.bytes[i]? := by
    rw [removed.bytes, removed.arrayStart laid member, removed.payload,
      slice_cut_iff (by omega) long]
  constructor
  · rintro same i (⟨e, old, behind, inside⟩ | inside)
    · have other : e.name ≠ se.name := by
        intro named
        have := List.inj_on_of_nodup_map laid.indexed.names old member named
        rw [this] at behind
        exact Nat.lt_irrefl _ behind
      have there := congrFun (congrArg Contents.slots same) e.name
      have found := laid.indexed.found.mpr ⟨old, rfl⟩
      simp only [SlottedObject.contents, Contents.after, lookup, if_neg other, found,
        Option.map_some, Function.update_of_ne other, Option.some.injEq] at there
      exact (removed.value_iff laid member old other).mp there i ⟨behind, inside⟩
    · exact elements.mp (congrArg Contents.payload same) i inside
  · intro right
    refine congrArg₂ Contents.mk (funext fun s => ?_)
      (elements.mpr fun i inside => right i (Or.inr inside))
    rw [lookup, Function.update_apply]
    split
    · rfl
    · rename_i other
      cases found : slotTableEntryForName idHash obj.slotTable s with
      | none => simp only [SlottedObject.contents, found, Option.map_none]
      | some e =>
        obtain ⟨old, named⟩ := laid.indexed.found.mp found
        simp only [SlottedObject.contents, found, Option.map_some]
        refine congrArg some ((removed.value_iff laid member old (named ▸ other)).mpr ?_)
        rintro i ⟨behind, inside⟩
        exact right i (Or.inl ⟨e, old, behind, inside⟩)

end Removed

section Runs

def SlottedObject.Shows (idHash : Symbol → Nat) (obj : SlottedObject Symbol Byte)
    (m : Contents Symbol Byte) : Prop := Laid idHash obj ∧ obj.contents idHash = m

theorem Laid.add_iff (laid : Laid idHash obj) (name : Symbol) (value : Vector Byte sizeofWord) :
    Step (slotImplementation idHash) (SlottedObject.Shows idHash) obj (obj.contents idHash)
      (.addSlotNamed name value) ↔ SlotOp.Fits idHash obj (.addSlotNamed name value) := by
  simp only [Step, slotImplementation, SlottedObject.perform, SlotOp.Fits, true_and]
  cases found : slotTableEntryForName idHash obj.slotTable name with
  | some e =>
    have run : objectAddSlotNamed idHash obj name value = some obj := by
      simp only [objectAddSlotNamed, objectAddSlotNamedAt, found, Option.isSome_some, if_true,
        Option.bind_eq_bind, Option.bind_some]
    have there : ((obj.contents idHash).slots name).isSome = true := by
      simp only [SlottedObject.contents, found, Option.map_some, Option.isSome_some]
    have same : (obj.contents idHash).after (.addSlotNamed name value) = obj.contents idHash :=
      if_pos there
    rw [run, same]
    refine ⟨fun _ empty => ?_, fun _ => ⟨obj, (), rfl, laid, rfl⟩⟩
    rw [empty] at found
    cases found
  | none =>
    constructor
    · rintro ⟨obj', a, run, -⟩
      intro empty
      have grown : slotTableGrowExcluding idHash obj.slotTable 1 none = none := by
        rw [empty]
        exact growExcluding_first
      have stuck : objectAddSlotNamed idHash obj name value = none := by
        simp only [objectAddSlotNamed, objectAddSlotNamedAt, found, Option.isSome_none,
          Bool.false_eq_true, if_false, grown, Option.bind_eq_bind, Option.bind_none]
      rw [stuck] at run
      cases run
    · intro table
      obtain ⟨obj', run, laid', after⟩ := laid.added value found table
      exact ⟨obj', (), by rw [run]; rfl, laid', after⟩

theorem Laid.remove_iff (laid : Laid idHash obj) (name : Symbol) :
    Step (slotImplementation idHash) (SlottedObject.Shows idHash) obj (obj.contents idHash)
      (.removeSlot name) ↔ SlotOp.Fits idHash obj (.removeSlot name) := by
  simp only [Step, slotImplementation, SlottedObject.perform, SlotOp.Fits, true_and]
  cases found : slotTableEntryForName idHash obj.slotTable name with
  | none =>
    have run : objectRemoveSlot idHash obj name = some obj := by simp only [objectRemoveSlot, found]
    have missing : (obj.contents idHash).slots name = none := by
      simp only [SlottedObject.contents, found, Option.map_none]
    have same : (obj.contents idHash).after (.removeSlot name) = obj.contents idHash :=
      congrArg (Contents.mk · _) (Function.update_eq_self_iff.mpr missing.symm)
    rw [run, same]
    exact ⟨fun _ _ none => (nomatch none), fun _ => ⟨obj, (), rfl, laid, rfl⟩⟩
  | some se =>
    obtain ⟨member, rfl⟩ := laid.indexed.found.mp found
    obtain ⟨obj', run, removed⟩ := laid.removeSlot found
    have right_iff := removed.contents_iff laid member
    rw [run]
    constructor
    · rintro ⟨_, _, same, -, after⟩ _ chosen
      cases same
      cases chosen
      exact right_iff.mp after
    · intro right
      exact ⟨obj', (), rfl, removed.laid laid member, right_iff.mpr (right se rfl)⟩

theorem slot_step_iff (idHash : Symbol → Nat) (obj : SlottedObject Symbol Byte)
    (m : Contents Symbol Byte) (op : SlotOp Symbol Byte) (shown : obj.Shows idHash m) :
    Step (slotImplementation idHash) (SlottedObject.Shows idHash) obj m op ↔
      op.Fits idHash obj := by
  obtain ⟨laid, rfl⟩ := shown
  cases op with
  | addSlotNamed name value => exact laid.add_iff name value
  | removeSlot name => exact laid.remove_iff name

/-- Slots come and go without harm to the others and to the elements exactly in the runs in which
no slot is put into a table without entries, and in which the bytes behind each removed slot are
those that stand as far behind the first slot. -/
theorem slots_kept_iff (idHash : Symbol → Nat) (obj : SlottedObject Symbol Byte)
    (laid : Laid idHash obj) (ops : List (SlotOp Symbol Byte)) :
    Follows (slotImplementation idHash) (SlottedObject.Shows idHash) obj (obj.contents idHash) ops ↔
      Within (slotImplementation idHash) (SlotOp.Fits idHash) obj ops :=
  follows_iff (slot_step_iff idHash) ⟨laid, rfl⟩ ops

end Runs

section Samples

def threeSlots : SlottedObject Nat Nat where
  slotTable := [some ⟨0, 32⟩, some ⟨1, 40⟩, some ⟨2, 48⟩, none]
  slotCount := 3
  format := typeObject
  objectSize := 7
  payloadSize := 0
  bytes := List.replicate 8 10 ++ List.replicate 8 11 ++ List.replicate 8 12

theorem threeSlots_laid : Laid id threeSlots := by
  have held : SlotHolds id threeSlots.slotTable [⟨0, 32⟩, ⟨1, 40⟩, ⟨2, 48⟩] := by
    obtain ⟨table, run, -, held⟩ := (@slot_fills Nat id).insertAll (slot_fills.blank 4)
      [⟨0, 32⟩, ⟨1, 40⟩, ⟨2, 48⟩] (by decide)
    cases run
    exact held
  constructor
  · exact held.indexed (by decide) (Or.inr ⟨2, rfl⟩)
  · decide
  · decide
  · decide
  · decide

theorem slots_kept_iff_sample : Follows (slotImplementation id) (SlottedObject.Shows id) threeSlots
    (threeSlots.contents id) [.removeSlot 0, .addSlotNamed 4 (Vector.replicate 8 13)] := by
  refine (slots_kept_iff id threeSlots threeSlots_laid _).mpr ⟨?_, ?_⟩
  · intro se found i _
    cases found
    rfl
  · intro obj _ run
    cases run
    exact ⟨List.cons_ne_nil _ _, fun _ _ _ => trivial⟩

/-- Without the slot in the middle, the last one has its value. -/
theorem middle_slot_removed : Laid id threeSlots ∧ ¬ Follows (slotImplementation id)
    (SlottedObject.Shows id) threeSlots (threeSlots.contents id) [.removeSlot 1] := by
  refine ⟨threeSlots_laid, ?_⟩
  rintro ⟨obj, a, run, right, shown, -⟩
  have fits := (slot_step_iff id threeSlots _ (.removeSlot 1) ⟨threeSlots_laid, rfl⟩).mp
    ⟨obj, a, run, right, shown⟩
  exact absurd (fits ⟨1, 40⟩ rfl 16 (Or.inl ⟨⟨2, 48⟩, by decide, by decide⟩)) (by decide)

end Samples

end SlateVm.Maps
