import SlateVm.Heap.Redirect
import SlateVm.Interp.ObjectHeap
import SlateVm.Lib.Chained
import Mathlib.Algebra.Order.BigOperators.Group.List
import Mathlib.Algebra.Order.Ring.Nat

/-! An image that is saved and loaded again. The used objects are copied one behind the other,
a hash table of forwarding pointers leads from the old places to the new ones, and references
are first looked up there, then moved to start from 0, and at last to where the image is
loaded. -/
namespace SlateVm.Images
open Tiling Probing

/-- Why the machine stops: a failed `assert`, a read through NULL, or an image it refuses. -/
inductive Fault where
  | assertFailed
  | nullPointer
  | refused

section Table

structure ForwardPointerEntry where
  fromObj : Nat
  toObj : Nat

/-- The table has zeros at first: an entry is empty where `fromObj` is NULL. -/
abbrev ForwardPointers := Nat → Option ForwardPointerEntry

variable (table : ForwardPointers) (forwardPointerEntryCount : Nat)

def forwardPointerHashGet (fromObj : Nat) : Option Nat :=
  search forwardPointerEntryCount table (fun entry => entry.fromObj == fromObj)
    (fromObj % forwardPointerEntryCount)

def forwardPointerHashAdd (fromObj toObj : Nat) : Option ForwardPointers :=
  (forwardPointerHashGet table forwardPointerEntryCount fromObj).map fun index =>
    Function.update table index (some ⟨fromObj, toObj⟩)

/-- `forward_pointer_hash_get(..)->toObj` -/
def forwardedTo (fromObj : Nat) : Except Fault Nat :=
  match forwardPointerHashGet table forwardPointerEntryCount fromObj with
  | none => .error .nullPointer
  | some index => .ok ((table index).elim 0 ForwardPointerEntry.toObj)

end Table

section Walks

/-- A walk over the cells of a memory that does something to each object in its place. -/
def overObjects (f : Object → Except Fault Object) (memory memorySize : Nat)
    (mem : Nat → Object) : Except Fault (Nat → Object) :=
  overCellsE (objectInMemory memory memorySize)
    (fun mem o => do
      let object ← f (mem o)
      .ok (Function.update mem o object))
    (fun mem o => o + extent mem o) memorySize mem memory

def adjustField (target : Nat → Except Fault Nat) (o : Object) (k : Nat) : Except Fault Object :=
  if oopIsSmallint (o.word k) then .ok o
  else do
    let value ← target (o.word k)
    .ok (o.setWord k value)

/-- The map and all fields but small integers go where `target` says. -/
def adjustFields (target : Nat → Except Fault Nat) (o : Object) : Except Fault Object := do
  let map ← target o.map
  (oopWords o).foldlM (adjustField target) { o with map := map }

def adjustObjectFieldsWithTable (memory memorySize : Nat) (table : ForwardPointers)
    (forwardPointerEntryCount : Nat) : (Nat → Object) → Except Fault (Nat → Object) :=
  overObjects (adjustFields (forwardedTo table forwardPointerEntryCount)) memory memorySize

/-- Pointers are words, also when the shift is negative. -/
def adjustFieldsBy (shift : Nat) : Object → Except Fault Object :=
  adjustFields fun v => .ok ((v + shift) % 2 ^ 64)

def adjustOopPointersFrom (shift memory memorySize : Nat) :
    (Nat → Object) → Except Fault (Nat → Object) :=
  overObjects (fun o => if objectIsFree o then .ok o else adjustFieldsBy shift o) memory memorySize

def objectZeroPinCount (o : Object) : Object := { o with pinCount := 0 }

def heapZeroPinCountsFrom (memory memorySize : Nat) :
    (Nat → Object) → Except Fault (Nat → Object) :=
  overObjects (fun o => .ok (if objectIsFree o then o else objectZeroPinCount o)) memory memorySize

end Walks

section Saving

/-- The buffer that is written to, where the next object goes, and the table. -/
structure Copying where
  memory : Nat → Object
  writeObject : Nat
  table : ForwardPointers

/-- `copy_words_into`, and `object_after` of the copy. -/
def Copying.put (s : Copying) (object : Object) (table : ForwardPointers) : Copying :=
  let memory := Function.update s.memory s.writeObject object
  ⟨memory, s.writeObject + extent memory s.writeObject, table⟩

def copyUsedObject (forwardPointerEntryCount : Nat) (mem : Nat → Object) (s : Copying)
    (readObject : Nat) : Except Fault Copying :=
  if objectIsFree (mem readObject) then .ok s
  else
    match forwardPointerHashAdd s.table forwardPointerEntryCount readObject s.writeObject with
    | none => .error .assertFailed
    | some table => .ok (s.put (mem readObject) table)

def copyUsedObjects (forwardPointerEntryCount : Nat) (mem : Nat → Object)
    (memoryStart memorySize : Nat) (s : Copying) : Except Fault Copying :=
  overCellsE (objectInMemory memoryStart memorySize) (copyUsedObject forwardPointerEntryCount mem)
    (fun _ o => o + extent mem o) memorySize s memoryStart

/-- The header of an image file, and the objects at their offsets behind it. -/
structure SlateImage where
  magic : Nat
  size : Nat
  nextHash : Nat
  specialObjectsOop : Nat
  objects : Nat → Object

def slateImageMagic : Nat := 0xABCDEF43

def forwardPointerEntryCount (totalSize : Nat) : Nat := (totalSize / 4 + (16 - 1)) / 16

/-- `calloc` -/
def zeroObject : Object := ⟨false, 0, 0, 0, 0, 0, 0, fun _ => 0⟩

def copySpaces (count memoryStart : Nat) (h : Heap) : Except Fault Copying := do
  let s ← copyUsedObjects count h.mem h.memoryOld h.memoryOldSize
    ⟨fun _ => zeroObject, memoryStart, fun _ => none⟩
  copyUsedObjects count h.mem h.memoryYoung h.memoryYoungSize s

def writeImage (count memoryStart : Nat) (h : Heap) (s : Copying) : Except Fault SlateImage := do
  let totalSize := s.writeObject - memoryStart
  let memory ← adjustObjectFieldsWithTable memoryStart totalSize s.table count s.memory
  let memory ← adjustOopPointersFrom (2 ^ 64 - memoryStart) memoryStart totalSize memory
  let specialObjectsOop ← forwardedTo s.table count h.specialObjectsOop
  .ok {
    magic := slateImageMagic
    size := totalSize
    nextHash := (heapNewHash h).1
    specialObjectsOop := specialObjectsOop - memoryStart
    objects := fun offset => memory (memoryStart + offset) }

/-- What `prim_save_image` does after the full collection, with a buffer at `memoryStart`. -/
def saveImage (memoryStart : Nat) (h : Heap) : Except Fault SlateImage := do
  let count := forwardPointerEntryCount (h.memoryOldSize + h.memoryYoungSize)
  let s ← copySpaces count memoryStart h
  writeImage count memoryStart h s

end Saving

section Loading

def specialInterpreter : Nat := 17

def cacheSpecials (h : Heap) : Heap :=
  { h with cached := {
      interpreter := getSpecial h specialInterpreter
      trueObject := getSpecial h specialTrue
      falseObject := getSpecial h specialFalse
      nil := getSpecial h specialNil } }

/-- `main` from the image header to the start of the interpreter. -/
def loadImage (memoryLimit youngLimit : Nat) (image : SlateImage) (h : Heap) :
    Except Fault Heap := do
  if image.size = 0 ∨ image.magic ≠ slateImageMagic ∨ memoryLimit < image.size then
    .error .refused
  else
    match heapInitialize h image.size memoryLimit youngLimit image.specialObjectsOop
      image.nextHash with
    | .error _ => .error .assertFailed
    | .ok h =>
      let mem := fun a =>
        if objectInMemory h.memoryOld h.memoryOldSize a then image.objects (a - h.memoryOld)
        else h.mem a
      let mem ← adjustOopPointersFrom h.memoryOld h.memoryOld h.memoryOldSize mem
      let mem ← heapZeroPinCountsFrom h.memoryOld h.memoryOldSize mem
      .ok (cacheSpecials { h with mem := mem })

end Loading

section Rewriting

def rewritten (g : Object → Object) (cells : List Nat) (mem : Nat → Object) : Nat → Object :=
  fun a => if a ∈ cells then g (mem a) else mem a

variable {g : Object → Object} {f : Object → Except Fault Object} {mem : Nat → Object}
  {memory memorySize : Nat}

theorem extent_rewritten {cells : List Nat}
    (total : ∀ o, objectTotalSize (g o) = objectTotalSize o) :
    extent (rewritten g cells mem) = extent mem := by
  funext a
  rw [extent, rewritten]
  split
  · exact total _
  · rfl

theorem rewritten_here {cells : List Nat} {c : Nat} (member : c ∈ cells) :
    rewritten g cells mem c = g (mem c) := if_pos member

/-- A walk changes the objects of the cells it is over, and comes to its end. -/
theorem overObjects_eq {cells : List Nat}
    (t : Tiles (extent mem) memory (memory + memorySize) cells)
    (total : ∀ o, objectTotalSize (g o) = objectTotalSize o)
    (runs : ∀ c ∈ cells, f (mem c) = .ok (g (mem c))) :
    overObjects f memory memorySize mem = .ok (rewritten g cells mem) ∧
      Tiles (extent (rewritten g cells mem)) memory (memory + memorySize) cells := by
  refine ⟨?_, by rwa [extent_rewritten total]⟩
  have step : ∀ front c back, cells = front ++ c :: back →
      ∀ s, s = rewritten g front mem →
        (∃ s', (do
            let object ← f (s c)
            .ok (Function.update s c object) : Except Fault (Nat → Object)) = .ok s' ∧
          s' = rewritten g (front ++ [c]) mem ∧ c + extent s' c = c + extent mem c) ∨
        ∃ e : Fault, (do
            let object ← f (s c)
            .ok (Function.update s c object) : Except Fault (Nat → Object)) = .error e ∧ False := by
    rintro front c back split s rfl
    have unique := t.nodup
    rw [split] at unique
    have fresh : c ∉ front :=
      fun again => (List.nodup_middle.mp unique).notMem (List.mem_append_left _ again)
    have same : rewritten g front mem c = mem c := if_neg fresh
    refine .inl ⟨rewritten g (front ++ [c]) mem, ?_, rfl, by rw [extent_rewritten total]⟩
    rw [same, runs c (by simp [split])]
    refine congrArg Except.ok (funext fun a => ?_)
    by_cases here : a = c
    · subst here
      simp [rewritten]
    · simp [rewritten, here]
  rcases overCellsE_invariant (I := fun front s => s = rewritten g front mem) t
      (Nat.le_of_eq (Nat.add_sub_cancel_left ..)) (fun c lo hi => objectInMemory_iff.mpr ⟨lo, hi⟩)
      (by simp [objectInMemory]) step (s := mem) (by funext a; simp [rewritten]) with
    ⟨s, run, rfl⟩ | ⟨_, _, impossible⟩
  · exact run
  · exact impossible.elim

theorem mem_oopFields {o : Object} {k : Nat} (member : k ∈ oopWords o) :
    o.word k ∈ oopFields o := List.mem_map.mpr ⟨k, member, rfl⟩

section Fields

variable {target : Nat → Except Fault Nat} {φ : Nat → Nat}

theorem adjustField_eq {o : Object} {k : Nat}
    (resolve : oopIsSmallint (o.word k) = false → target (o.word k) = .ok (φ (o.word k))) :
    adjustField target o k = .ok (o.setWord k (renameOop φ (o.word k))) := by
  cases small : oopIsSmallint (o.word k) with
  | true => rw [adjustField, if_pos small, renameOop, if_pos small, setWord_self]
  | false =>
    rw [adjustField, if_neg (by simp [small]), resolve small, renameOop, if_neg (by simp [small])]
    rfl

theorem adjustField_words (ks : List Nat) (o : Object) (unique : ks.Nodup)
    (resolve : ∀ k ∈ ks, oopIsSmallint (o.word k) = false →
      target (o.word k) = .ok (φ (o.word k))) :
    ks.foldlM (adjustField target) o = .ok (o.renameWords φ ks) := by
  induction ks generalizing o with
  | nil =>
    simp only [List.foldlM_nil, Object.renameWords, List.not_mem_nil, if_false]
    rfl
  | cons k ks ih =>
    obtain ⟨fresh, unique⟩ := List.nodup_cons.mp unique
    have kept : ∀ j ∈ ks, (o.setWord k (renameOop φ (o.word k))).word j = o.word j := by
      intro j member
      have off : j ≠ k := fun same => fresh (same ▸ member)
      simp [Object.setWord, off]
    rw [List.foldlM_cons, adjustField_eq (resolve k List.mem_cons_self)]
    refine (ih _ unique fun j member small => ?_).trans (congrArg Except.ok ?_)
    · rw [kept j member] at small ⊢
      exact resolve j (List.mem_cons_of_mem _ member) small
    · simp only [Object.renameWords, Object.setWord, Object.mk.injEq, true_and]
      funext j
      by_cases here : j = k
      · subst here
        simp [fresh]
      · simp [here]

/-- Fields that all resolve are renamed. -/
theorem adjustFields_eq {o : Object} (map : target o.map = .ok (φ o.map))
    (fields : ∀ v ∈ oopFields o, oopIsSmallint v = false → target v = .ok (φ v)) :
    adjustFields target o = .ok (o.rename φ) := by
  rw [adjustFields, map]
  exact adjustField_words (oopWords o) { o with map := φ o.map } (oopWords_nodup o)
    fun k member small => fields _ (mem_oopFields member) small

end Fields

theorem rename_rename {φ ψ ρ : Nat → Nat} {o : Object} (map : ψ (φ o.map) = ρ o.map)
    (fields : ∀ v ∈ oopFields o, oopIsSmallint v = false →
      oopIsSmallint (φ v) = false ∧ ψ (φ v) = ρ v) : (o.rename φ).rename ψ = o.rename ρ := by
  simp only [Object.rename, Object.mk.injEq, true_and]
  refine ⟨map, funext fun k => ?_⟩
  change (if k ∈ oopWords o then renameOop ψ (if k ∈ oopWords o then _ else _) else
    if k ∈ oopWords o then _ else _) = _
  by_cases member : k ∈ oopWords o
  · simp only [if_pos member, renameOop]
    cases small : oopIsSmallint (o.word k) with
    | true => simp [small]
    | false =>
      obtain ⟨even, same⟩ := fields _ (mem_oopFields member) small
      simp [even, same]
  · simp only [if_neg member]

/-- Used objects whose references do not wrap around are moved. -/
theorem adjustOopPointersFrom_eq {cells : List Nat} {d : Nat} {φ : Nat → Nat}
    (t : Tiles (extent mem) memory (memory + memorySize) cells)
    (used : ∀ c ∈ cells, objectIsFree (mem c) = false)
    (map : ∀ c ∈ cells, ((mem c).map + d) % 2 ^ 64 = φ (mem c).map)
    (fields : ∀ c ∈ cells, ∀ v ∈ oopFields (mem c), oopIsSmallint v = false →
      (v + d) % 2 ^ 64 = φ v) :
    adjustOopPointersFrom d memory memorySize mem =
        .ok (rewritten (Object.rename φ) cells mem) ∧
      Tiles (extent (rewritten (Object.rename φ) cells mem)) memory (memory + memorySize) cells := by
  refine overObjects_eq t (fun _ => rfl) fun c member => ?_
  rw [used c member, if_neg Bool.false_ne_true]
  exact adjustFields_eq (congrArg Except.ok (map c member)) fun v field pointer =>
    congrArg Except.ok (fields c member v field pointer)

end Rewriting

section Copying

/-- Some objects have been copied: the buffer is tiled by the copies, and the table has them. -/
structure Copies (mem : Nat → Object) (start count : Nat) (used : List Nat)
    (placed : List (Nat × ForwardPointerEntry)) (s : Copying) : Prop where
  table : Placed count (fun entry => entry.fromObj % count) s.table placed
  used : placed.map (fun x => x.2.fromObj) = used
  tiles : Tiles (extent s.memory) start s.writeObject (placed.map fun x => x.2.toObj)
  copied : ∀ x ∈ placed, s.memory x.2.toObj = mem x.2.fromObj

variable {mem : Nat → Object} {start count : Nat} {used : List Nat}
  {placed : List (Nat × ForwardPointerEntry)} {s : Copying}

theorem Copies.few (copies : Copies mem start count used placed s) : used.length ≤ count := by
  have inside : placed.map Prod.fst ⊆ List.range count := by
    intro p member
    obtain ⟨x, there, rfl⟩ := List.mem_map.mp member
    exact List.mem_range.mpr (copies.table.inside x.1 x.2 there)
  have short := (copies.table.nodup.subperm inside).length_le
  rw [List.length_map, List.length_range] at short
  rw [← copies.used, List.length_map]
  exact short

theorem Copies.get_used (copies : Copies mem start count used placed s) (unique : used.Nodup)
    {x : Nat × ForwardPointerEntry} (member : x ∈ placed) :
    forwardPointerHashGet s.table count x.2.fromObj = some x.1 := by
  have inside := copies.table.inside x.1 x.2 member
  have here := (copies.table.slots x.1 x.2).mpr member
  have start_lt := Nat.mod_lt x.2.fromObj (Nat.zero_lt_of_lt inside)
  refine search_found (Nat.le_of_lt start_lt) inside here (beq_self_eq_true _) ?_ ?_
  · exact fun j hj early => copies.table.seated x.1 inside x.2 here j hj early
  · intro j _ b there same
    rw [← copies.used] at unique
    have equal := List.inj_on_of_nodup_map unique ((copies.table.slots j b).mp there) member
      (beq_iff_eq.mp same)
    exact congrArg Prod.fst equal

/-- The entry for an object that has none yet, unless the table is full. -/
theorem Copies.get_fresh (copies : Copies mem start count used placed s) (positive : 0 < count)
    {c : Nat} (fresh : c ∉ used) :
    (∃ r, forwardPointerHashGet s.table count c = some r ∧ r < count ∧ s.table r = none ∧
      ∀ j < count, after count (c % count) j < after count (c % count) r → s.table j ≠ none) ∨
      forwardPointerHashGet s.table count c = none ∧ count ≤ used.length := by
  have within := Nat.le_of_lt (Nat.mod_lt c positive)
  cases found : forwardPointerHashGet s.table count c with
  | none =>
    refine .inr ⟨rfl, Nat.le_of_not_lt fun few => ?_⟩
    rw [← copies.used, List.length_map] at few
    obtain ⟨r, inside, empty⟩ := copies.table.room few
    obtain ⟨i, ends⟩ := search_ends (fun entry => entry.fromObj == c) within inside empty
    cases found.symm.trans ends
  | some r =>
    obtain ⟨inside, stops, before⟩ := (search_eq_some within).mp found
    refine .inl ⟨r, rfl, inside, ?_, ?_⟩
    · cases here : s.table r with
      | none => rfl
      | some entry =>
        rw [here, Option.all_some, beq_iff_eq] at stops
        have member : entry.fromObj ∈ used := by
          rw [← copies.used]
          exact List.mem_map.mpr ⟨(r, entry), (copies.table.slots r entry).mp here, rfl⟩
        exact absurd (stops ▸ member) fresh
    · intro j hj early empty
      obtain ⟨entry, there, -⟩ := before j hj early
      cases empty.symm.trans there

theorem copyUsedObject_spec (copies : Copies mem start count used placed s)
    (positive : 0 < count) {c : Nat} (live : objectIsFree (mem c) = false)
    (some_size : 0 < extent mem c) (fresh : c ∉ used) :
    (∃ s' x, copyUsedObject count mem s c = .ok s' ∧
      Copies mem start count (used ++ [c]) (placed ++ [x]) s') ∨
      copyUsedObject count mem s c = .error .assertFailed ∧ count ≤ used.length := by
  rcases copies.get_fresh positive fresh with ⟨r, found, inside, empty, before⟩ | ⟨none_, full⟩
  swap
  · refine .inr ⟨?_, full⟩
    rw [copyUsedObject, if_neg (by simp [live]), forwardPointerHashAdd, none_]
    rfl
  have old : ∀ x ∈ placed, x.2.toObj ≠ s.writeObject := by
    intro x member same
    have bounds := copies.tiles.bounds _ (List.mem_map.mpr ⟨x, member, rfl⟩)
    omega
  have kept : ∀ x ∈ placed, Function.update s.memory s.writeObject (mem c) x.2.toObj =
      s.memory x.2.toObj := fun x member => Function.update_of_ne (old x member) ..
  have size : extent (Function.update s.memory s.writeObject (mem c)) s.writeObject =
      extent mem c := by rw [extent, Function.update_self]; rfl
  refine .inl ⟨s.put (mem c) (Function.update s.table r (some ⟨c, s.writeObject⟩)),
    (r, ⟨c, s.writeObject⟩), ?_, ?_, ?_, ?_, ?_⟩
  · rw [copyUsedObject, if_neg (by simp [live]), forwardPointerHashAdd, found]
    rfl
  · refine copies.table.add (Nat.mod_lt _ positive) ⟨inside, empty, ?_, ?_⟩ before
    · exact Function.update_self ..
    · exact fun j off => Function.update_of_ne off ..
  · rw [List.map_append, copies.used]
    rfl
  · rw [List.map_append]
    refine Tiles.append (copies.tiles.congr fun a member => ?_) (Tiles.single (size ▸ some_size))
    obtain ⟨x, there, rfl⟩ := List.mem_map.mp member
    exact congrArg objectTotalSize (kept x there)
  · intro x member
    rcases List.mem_append.mp member with there | new
    · exact (kept x there).trans (copies.copied x there)
    · cases List.mem_singleton.mp new
      exact Function.update_self ..

def usedObjects (mem : Nat → Object) (cells : List Nat) : List Nat :=
  cells.filter fun c => !objectIsFree (mem c)

/-- All the used objects of a space are copied, unless there are too many of them. -/
theorem copyUsedObjects_spec {memory memorySize : Nat} (t : Tiled mem memory memorySize)
    (copies : Copies mem start count used placed s) (positive : 0 < count)
    (fresh : ∀ c ∈ cellsOf mem memory memorySize, c ∉ used) :
    (∃ s' placed', copyUsedObjects count mem memory memorySize s = .ok s' ∧
      Copies mem start count (used ++ usedObjects mem (cellsOf mem memory memorySize)) placed' s') ∨
      copyUsedObjects count mem memory memorySize s = .error .assertFailed ∧
        count < (used ++ usedObjects mem (cellsOf mem memory memorySize)).length := by
  have step : ∀ front c back, cellsOf mem memory memorySize = front ++ c :: back →
      ∀ s, (∃ placed, Copies mem start count (used ++ usedObjects mem front) placed s) →
        (∃ s', copyUsedObject count mem s c = .ok s' ∧
          (∃ placed, Copies mem start count (used ++ usedObjects mem (front ++ [c])) placed s') ∧
          c + extent mem c = c + extent mem c) ∨
        ∃ e, copyUsedObject count mem s c = .error e ∧ e = .assertFailed ∧
          count < (used ++ usedObjects mem (cellsOf mem memory memorySize)).length := by
    rintro front c back split s ⟨placed, copies⟩
    have member : c ∈ cellsOf mem memory memorySize := by simp [split]
    cases free : objectIsFree (mem c) with
    | true =>
      refine .inl ⟨s, by rw [copyUsedObject, if_pos free], ⟨placed, ?_⟩, rfl⟩
      simpa [usedObjects, free] using copies
    | false =>
      have unique := t.tiles.nodup
      rw [split] at unique
      have apart : c ∉ used ++ usedObjects mem front := by
        intro again
        rcases List.mem_append.mp again with before | here
        · exact fresh c member before
        · exact (List.nodup_middle.mp unique).notMem
            (List.mem_append_left _ (List.mem_filter.mp here).1)
      rcases copyUsedObject_spec copies positive free (t.tiles.bounds c member).2.2 apart with
        ⟨s', x, run, copies'⟩ | ⟨fails, full⟩
      · refine .inl ⟨s', run, ⟨placed ++ [x], ?_⟩, rfl⟩
        simpa [usedObjects, free] using copies'
      · refine .inr ⟨_, fails, rfl, ?_⟩
        rw [split]
        simp only [usedObjects, List.filter_append, List.filter_cons, free, Bool.not_false,
          if_true, List.length_append, List.length_cons] at full ⊢
        omega
  rcases overCellsE_invariant t.tiles (Nat.le_of_eq (Nat.add_sub_cancel_left ..))
      (fun c lo hi => objectInMemory_iff.mpr ⟨lo, hi⟩) (by simp [objectInMemory]) step (s := s)
      ⟨placed, by simpa [usedObjects] using copies⟩ with
    ⟨s', run, placed', copies'⟩ | ⟨_, fails, rfl, many⟩
  · exact .inl ⟨s', placed', run, copies'⟩
  · exact .inr ⟨fails, many⟩

end Copying

section Loaded

/-- The objects of an image tile it, none is free, and they refer to each other. -/
structure SlateImage.Whole (image : SlateImage) (cells : List Nat) : Prop where
  magic : image.magic = slateImageMagic
  some : image.size ≠ 0
  tiles : Tiles (extent image.objects) 0 image.size cells
  least : ∀ c ∈ cells, minCell ≤ extent image.objects c
  used : ∀ c ∈ cells, objectIsFree (image.objects c) = false
  map : ∀ c ∈ cells, (image.objects c).map ∈ cells
  fields : ∀ c ∈ cells, ∀ v ∈ oopFields (image.objects c), oopIsSmallint v = false → v ∈ cells

/-- An image stands in the old space of a heap, and the young one is free. -/
structure Stands (k : Heap) (image : SlateImage) (cells : List Nat) (base : Nat) : Prop where
  spaces : Spaces k
  old : oldCells k = cells.map (· + base)
  young : youngCells k = [k.memoryYoung]
  free : isFree k k.memoryYoung = true
  objects : ∀ c ∈ cells, k.mem (c + base) =
    objectZeroPinCount ((image.objects c).rename (· + base))
  special : k.specialObjectsOop = image.specialObjectsOop + base
  cached : k.cached = (cacheSpecials k).cached

/-- What the operating system gives: two spaces that do not overlap, at addresses of words. -/
structure Room (h : Heap) (memoryLimit youngLimit size : Nat) : Prop where
  limit : size ≤ memoryLimit
  even : h.memoryOld % 2 = 0
  within : h.memoryOld + size ≤ 2 ^ 64
  apart : h.memoryOld + memoryLimit ≤ h.memoryYoung ∨ h.memoryYoung + youngLimit ≤ h.memoryOld
  least : minCell ≤ youngLimit
  whole : youngLimit % sizeofWord = 0

variable {image : SlateImage} {cells : List Nat} {h : Heap} {memoryLimit youngLimit : Nat}

/-- Old space is where it was, and young space is one free cell. -/
structure Initialized (h start : Heap) (size memoryLimit youngLimit specialOop : Nat) : Prop where
  memoryOld : start.memoryOld = h.memoryOld
  oldSize : start.memoryOldSize = size
  memoryYoung : start.memoryYoung = h.memoryYoung
  youngSize : start.memoryYoungSize = youngLimit
  oldLimit : start.memoryOldLimit = memoryLimit
  special : start.specialObjectsOop = h.memoryOld + specialOop
  free : objectIsFree (start.mem h.memoryYoung) = true
  extent : extent start.mem h.memoryYoung = youngLimit

theorem heapInitialize_spec {size specialOop nextHash : Nat} (least : minCell ≤ youngLimit)
    (words : youngLimit % sizeofWord = 0) : ∃ start,
      heapInitialize h size memoryLimit youngLimit specialOop nextHash = .ok start ∧
        Initialized h start size memoryLimit youngLimit specialOop := by
  simp only [minCell, headerSizeWords, sizeofWord] at least words
  have enough : headerSizeWords + 1 ≤ youngLimit / sizeofWord := by
    rw [headerSizeWords, sizeofWord]
    omega
  unfold heapInitialize
  simp only [require, decide_eq_true enough, if_true]
  refine ⟨_, rfl, rfl, rfl, rfl, rfl, rfl, rfl, ?_, ?_⟩
  · simp [heapMakeFreeSpace, objectIsFree, idHashFree, idHashReserved]
  · simp only [SlateVm.extent, heapMakeFreeSpace, put_mem, if_true, objectTotalSize,
      objectWordSize, sizeofWord]
    omega

theorem loadImage_stands (whole : image.Whole cells)
    (room : Room h memoryLimit youngLimit image.size) :
    ∃ k, loadImage memoryLimit youngLimit image h = .ok k ∧ Stands k image cells h.memoryOld := by
  obtain ⟨limit, -, within, apart, least, words⟩ := room
  have bounds := whole.tiles.bounds
  have positive : 0 < youngLimit := Nat.lt_of_lt_of_le (by decide) least
  have accepted : ¬ (image.size = 0 ∨ image.magic ≠ slateImageMagic ∨ memoryLimit < image.size) := by
    rintro (none_ | other | small)
    · exact whole.some none_
    · exact other whole.magic
    · omega
  obtain ⟨start, run, ⟨memoryOld, oldSize, memoryYoung, youngSize, oldLimit, special, free,
    young_size⟩⟩ : ∃ start, heapInitialize h image.size memoryLimit youngLimit
        image.specialObjectsOop image.nextHash = .ok start ∧
      Initialized h start image.size memoryLimit youngLimit image.specialObjectsOop :=
    heapInitialize_spec least words
  let mem := fun a => if objectInMemory start.memoryOld start.memoryOldSize a then
    image.objects (a - start.memoryOld) else start.mem a
  let at_ := cells.map (· + h.memoryOld)
  have read : ∀ c ∈ cells, mem (c + h.memoryOld) = image.objects c := by
    intro c member
    have inside := bounds c member
    have here : objectInMemory start.memoryOld start.memoryOldSize (c + h.memoryOld) = true := by
      rw [memoryOld, oldSize, objectInMemory_iff]
      omega
    simp only [mem]
    rw [if_pos here, memoryOld, Nat.add_sub_cancel]
  have tiles : Tiles (extent mem) start.memoryOld (start.memoryOld + start.memoryOldSize) at_ := by
    have same : ∀ c ∈ cells, extent mem (c + h.memoryOld) = extent image.objects c :=
      fun c member => congrArg objectTotalSize (read c member)
    have moved := whole.tiles.move (f := (· + h.memoryOld))
      (fun x n _ => Nat.add_right_comm x n h.memoryOld) same
    rw [Nat.zero_add, Nat.add_comm] at moved
    rwa [memoryOld, oldSize]
  have shifted : ∀ v ∈ cells, (v + start.memoryOld) % 2 ^ 64 = v + h.memoryOld := by
    intro v member
    have := bounds v member
    rw [memoryOld]
    exact Nat.mod_eq_of_lt (by omega)
  have each : ∀ a ∈ at_, ∃ c ∈ cells, a = c + h.memoryOld ∧ mem a = image.objects c := by
    intro a member
    obtain ⟨c, there, rfl⟩ := List.mem_map.mp member
    exact ⟨c, there, rfl, read c there⟩
  obtain ⟨adjusted, tiles_1⟩ := adjustOopPointersFrom_eq (φ := (· + h.memoryOld)) tiles
    (fun a member => by
      obtain ⟨c, there, -, same⟩ := each a member
      rw [same]
      exact whole.used c there)
    (fun a member => by
      obtain ⟨c, there, -, same⟩ := each a member
      rw [same]
      exact shifted _ (whole.map c there))
    (fun a member v field pointer => by
      obtain ⟨c, there, -, same⟩ := each a member
      rw [same] at field
      exact shifted v (whole.fields c there v field pointer))
  obtain ⟨zeroed, tiles_2⟩ := overObjects_eq (g := objectZeroPinCount)
    (f := fun o => .ok (if objectIsFree o then o else objectZeroPinCount o)) tiles_1
    (fun _ => rfl) fun a member => by
      obtain ⟨c, there, -, same⟩ := each a member
      have used : objectIsFree ((mem a).rename (· + h.memoryOld)) = false := by
        rw [same]
        exact whole.used c there
      rw [rewritten_here member, used, if_neg Bool.false_ne_true]
  have outside : h.memoryYoung ∉ at_ := by
    intro member
    obtain ⟨c, there, same, -⟩ := each _ member
    have := bounds c there
    omega
  have young_mem : mem h.memoryYoung = start.mem h.memoryYoung := by
    refine if_neg fun inside => ?_
    rw [memoryOld, oldSize, objectInMemory_iff] at inside
    omega
  let k := cacheSpecials { start with
    mem := rewritten objectZeroPinCount at_ (rewritten (Object.rename (· + h.memoryOld)) at_ mem) }
  have k_at : ∀ c ∈ cells, k.mem (c + h.memoryOld) =
      objectZeroPinCount ((image.objects c).rename (· + h.memoryOld)) := by
    intro c member
    have there : c + h.memoryOld ∈ at_ := List.mem_map.mpr ⟨c, member, rfl⟩
    refine (rewritten_here there).trans ?_
    rw [rewritten_here there, read c member]
  have k_young : k.mem start.memoryYoung = start.mem h.memoryYoung := by
    rw [memoryYoung]
    exact (if_neg outside).trans ((if_neg outside).trans young_mem)
  have young_tiles : Tiles (extent k.mem) k.memoryYoung (k.memoryYoung + k.memoryYoungSize)
      [k.memoryYoung] := by
    have size : extent k.mem k.memoryYoung = k.memoryYoungSize :=
      (congrArg objectTotalSize k_young).trans (young_size.trans youngSize.symm)
    rw [← size]
    refine .single ?_
    rw [size]
    change 0 < start.memoryYoungSize
    omega
  refine ⟨k, ?_, ⟨.of tiles_2 ?_, .of young_tiles ?_, ?_, ?_⟩, cellsOf_eq tiles_2,
    cellsOf_eq young_tiles, ?_, k_at, special.trans (Nat.add_comm ..), rfl⟩
  · rw [loadImage, if_neg accepted, run]
    change (adjustOopPointersFrom start.memoryOld start.memoryOld start.memoryOldSize mem >>= _) = _
    rw [adjusted]
    change (heapZeroPinCountsFrom start.memoryOld start.memoryOldSize _ >>= _) = _
    rw [heapZeroPinCountsFrom, zeroed]
    rfl
  · intro a member
    obtain ⟨c, there, rfl, -⟩ := each a member
    change _ ≤ objectTotalSize (k.mem _)
    rw [k_at c there]
    exact whole.least c there
  · intro c member
    cases List.mem_singleton.mp member
    change _ ≤ objectTotalSize (k.mem start.memoryYoung)
    rw [k_young]
    exact least.trans (Nat.le_of_eq young_size.symm)
  · change start.memoryOldSize ≤ start.memoryOldLimit
    rwa [oldSize, oldLimit]
  · change start.memoryOld + start.memoryOldLimit ≤ start.memoryYoung ∨
      start.memoryYoung + start.memoryYoungSize ≤ start.memoryOld
    rwa [memoryOld, oldLimit, memoryYoung, youngSize]
  · change objectIsFree (k.mem start.memoryYoung) = true
    rw [k_young]
    exact free

end Loaded

section Saved

/-- Where an object goes, by the table. -/
def Copying.place (s : Copying) (count v : Nat) : Nat :=
  match forwardedTo s.table count v with
  | .ok a => a
  | .error _ => 0

section Places

variable {mem : Nat → Object} {start count v : Nat} {used : List Nat}
  {placed : List (Nat × ForwardPointerEntry)} {s : Copying}

theorem Copies.forwarded (copies : Copies mem start count used placed s) (unique : used.Nodup)
    {x : Nat × ForwardPointerEntry} (member : x ∈ placed) :
    forwardedTo s.table count x.2.fromObj = .ok x.2.toObj := by
  rw [forwardedTo, copies.get_used unique member]
  simp only [(copies.table.slots x.1 x.2).mpr member]
  rfl

theorem Copies.forwards (copies : Copies mem start count used placed s) (unique : used.Nodup)
    (member : v ∈ used) : forwardedTo s.table count v = .ok (s.place count v) ∧
      s.memory (s.place count v) = mem v := by
  rw [← copies.used] at member
  obtain ⟨x, there, rfl⟩ := List.mem_map.mp member
  rw [Copying.place, copies.forwarded unique there]
  exact ⟨rfl, copies.copied x there⟩

theorem Copies.places (copies : Copies mem start count used placed s) (unique : used.Nodup) :
    Tiles (extent s.memory) start s.writeObject (used.map (s.place count)) := by
  have same : placed.map (fun x => x.2.toObj) = used.map (s.place count) := by
    rw [← copies.used, List.map_map]
    refine List.map_congr_left fun x member => ?_
    rw [Function.comp, Copying.place, copies.forwarded unique member]
  exact same ▸ copies.tiles

end Places

def liveObjects (h : Heap) : List Nat := usedObjects h.mem (oldCells h ++ youngCells h)

theorem mem_liveObjects {h : Heap} {a : Nat} : a ∈ liveObjects h ↔ Live h a := by
  simp [liveObjects, usedObjects, Live, isFree, or_and_right]

theorem liveObjects_nodup {h : Heap} (s : Spaces h) : (liveObjects h).Nodup := by
  refine List.Nodup.filter _ (List.nodup_append'.mpr ⟨s.old.tiles.nodup, s.young.tiles.nodup, ?_⟩)
  exact fun a old young => s.cells_apart a old young

/-- The live objects of a heap stand in an image, with offsets for references. -/
structure Saved (h : Heap) (image : SlateImage) (off : Nat → Nat) : Prop where
  whole : image.Whole ((liveObjects h).map off)
  small : image.size ≤ h.memoryOldSize + h.memoryYoungSize
  apart : ∀ a b, Live h a → Live h b → off a = off b → a = b
  even : ∀ a, Live h a → off a % 2 = 0
  objects : ∀ a, Live h a → image.objects (off a) = (h.mem a).rename off
  special : image.specialObjectsOop = off h.specialObjectsOop

variable {h : Heap} {start count : Nat}

theorem copySpaces_spec (w : WellFormed h) (positive : 0 < count) :
    (∃ s placed, copySpaces count start h = .ok s ∧
      Copies h.mem start count (liveObjects h) placed s) ∨
      copySpaces count start h = .error .assertFailed ∧ count < (liveObjects h).length := by
  have none_ : Copies h.mem start count [] [] ⟨fun _ => zeroObject, start, fun _ => none⟩ :=
    ⟨placed_nil, rfl, .nil _, fun x member => by cases member⟩
  have both : liveObjects h = [] ++ usedObjects h.mem (oldCells h) ++
    usedObjects h.mem (youngCells h) := List.filter_append ..
  rw [both, copySpaces]
  rcases copyUsedObjects_spec w.old none_ positive (fun c _ => List.not_mem_nil) with
    ⟨s, placed, run, copies⟩ | ⟨fails, many⟩
  · rw [run]
    exact copyUsedObjects_spec w.young copies positive fun c young again =>
      w.cells_apart c (List.mem_filter.mp again).1 young
  · rw [fails]
    refine .inr ⟨rfl, Nat.lt_of_lt_of_le many ?_⟩
    simp only [List.length_append]
    exact Nat.le_add_right ..

theorem Copies.size_le (s : Spaces h) {placed : List (Nat × ForwardPointerEntry)} {c : Copying}
    (copies : Copies h.mem start count (liveObjects h) placed c) :
    start ≤ c.writeObject ∧ c.writeObject ≤ start + (h.memoryOldSize + h.memoryYoungSize) := by
  refine ⟨copies.tiles.le, ?_⟩
  have total := copies.tiles.sum
  have same : (placed.map fun x => x.2.toObj).map (extent c.memory) =
      (liveObjects h).map (extent h.mem) := by
    rw [← copies.used, List.map_map, List.map_map]
    exact List.map_congr_left fun x member => congrArg objectTotalSize (copies.copied x member)
  have fewer : ((liveObjects h).map (extent h.mem)).sum ≤
      ((oldCells h ++ youngCells h).map (extent h.mem)).sum :=
    (List.filter_sublist.map _).sum_le_sum fun n _ => Nat.zero_le n
  have old := s.old.tiles.sum
  have young := s.young.tiles.sum
  rw [same] at total
  rw [List.map_append, List.sum_append] at fewer
  simp only [liveObjects, usedObjects, oldCells, youngCells] at *
  omega

theorem map_live (w : WellFormed h) {a : Nat} (live : Live h a) : Live h (h.mem a).map :=
  w.closed a live _ List.mem_cons_self

theorem field_live (w : WellFormed h) {a v : Nat} (live : Live h a) (field : v ∈ oopFields (h.mem a))
    (pointer : oopIsSmallint v = false) : Live h v :=
  w.closed a live v (List.mem_cons_of_mem _ (List.mem_filter.mpr ⟨field, by rw [pointer]; rfl⟩))

theorem field_of_rename {φ : Nat → Nat} {o : Object} {v : Nat} (field : v ∈ oopFields (o.rename φ))
    (pointer : oopIsSmallint v = false) :
    ∃ b ∈ oopFields o, oopIsSmallint b = false ∧ φ b = v := by
  rw [rename_oopFields] at field
  obtain ⟨b, old, rfl⟩ := List.mem_map.mp field
  cases small : oopIsSmallint b with
  | true =>
    rw [renameOop, if_pos small, small] at pointer
    cases pointer
  | false => exact ⟨b, old, small, by rw [renameOop, if_neg (by simp [small])]⟩

theorem writeImage_saved (w : WellFormed h) {placed : List (Nat × ForwardPointerEntry)}
    {s : Copying} (copies : Copies h.mem start count (liveObjects h) placed s)
    (aligned : start % 2 = 0)
    (inside : start + (h.memoryOldSize + h.memoryYoungSize) ≤ 2 ^ 64) :
    ∃ image, writeImage count start h s = .ok image ∧
      Saved h image fun a => s.place count a - start := by
  have unique := liveObjects_nodup w.toSpaces
  have tiles := copies.places unique
  have forwards : ∀ a, Live h a → forwardedTo s.table count a = .ok (s.place count a) ∧
      s.memory (s.place count a) = h.mem a :=
    fun a live => copies.forwards unique (mem_liveObjects.mpr live)
  obtain ⟨low, high⟩ := copies.size_le w.toSpaces
  have bounds : ∀ a, Live h a → start ≤ s.place count a ∧ s.place count a < s.writeObject := by
    intro a live
    have := tiles.bounds _ (List.mem_map.mpr ⟨a, mem_liveObjects.mpr live, rfl⟩)
    omega
  have even : ∀ a, Live h a → s.place count a % 2 = 0 := by
    intro a live
    have same := tiles.aligned (m := 2) (fun c => by
      rw [extent, objectTotalSize, sizeofWord]; omega) _
      (List.mem_map.mpr ⟨a, mem_liveObjects.mpr live, rfl⟩)
    omega
  let place := s.place count
  let cells := (liveObjects h).map place
  have is_cell : ∀ a, Live h a → place a ∈ cells :=
    fun a live => List.mem_map.mpr ⟨a, mem_liveObjects.mpr live, rfl⟩
  have at_cell : ∀ c ∈ cells, ∃ a, Live h a ∧ place a = c := by
    intro c member
    obtain ⟨a, live, same⟩ := List.mem_map.mp member
    exact ⟨a, mem_liveObjects.mp live, same⟩
  have whole_size : start + (s.writeObject - start) = s.writeObject := Nat.add_sub_cancel' low
  -- first to where the table says
  obtain ⟨first, tiles_1⟩ := overObjects_eq (g := Object.rename place)
    (f := adjustFields (forwardedTo s.table count)) (whole_size.symm ▸ tiles) (fun _ => rfl)
    fun c member => by
      obtain ⟨a, live, rfl⟩ := at_cell c member
      rw [(forwards a live).2]
      exact adjustFields_eq (forwards _ (map_live w live)).1 fun v field pointer =>
        (forwards v (field_live w live field pointer)).1
  have renamed : ∀ a, Live h a → rewritten (Object.rename place) cells s.memory (place a) =
      (h.mem a).rename place := by
    intro a live
    rw [rewritten_here (is_cell a live), (forwards a live).2]
  -- then to start from 0
  have shifted : ∀ b, Live h b → (place b + (2 ^ 64 - start)) % 2 ^ 64 = place b - start := by
    intro b live
    have := bounds b live
    simp only [place] at *
    omega
  obtain ⟨second, tiles_2⟩ := adjustOopPointersFrom_eq (d := 2 ^ 64 - start)
    (φ := (· - start)) tiles_1
    (fun c member => by
      obtain ⟨a, live, rfl⟩ := at_cell c member
      rw [renamed a live]
      exact live.2)
    (fun c member => by
      obtain ⟨a, live, rfl⟩ := at_cell c member
      rw [renamed a live]
      exact shifted _ (map_live w live))
    (fun c member v field pointer => by
      obtain ⟨a, live, rfl⟩ := at_cell c member
      rw [renamed a live] at field
      obtain ⟨b, old, small, rfl⟩ := field_of_rename field pointer
      exact shifted b (field_live w live old small))
  have special : Live h h.specialObjectsOop := ⟨.inl w.specialArray.1, w.specialArray.2⟩
  let image : SlateImage := ⟨slateImageMagic, s.writeObject - start, (heapNewHash h).1,
    place h.specialObjectsOop - start, fun offset => rewritten (Object.rename (· - start)) cells
      (rewritten (Object.rename place) cells s.memory) (start + offset)⟩
  have stands : ∀ a, Live h a → image.objects (place a - start) =
      (h.mem a).rename fun v => place v - start := by
    intro a live
    have back : start + (place a - start) = place a := Nat.add_sub_cancel' (bounds a live).1
    change rewritten _ cells _ (start + (place a - start)) = _
    rw [back, rewritten_here (is_cell a live), renamed a live]
    refine rename_rename rfl fun v field pointer => ⟨?_, rfl⟩
    have := even v (field_live w live field pointer)
    simp [oopIsSmallint, place, this]
  have each : ∀ c ∈ (liveObjects h).map (fun a => place a - start),
      ∃ a, Live h a ∧ image.objects c = (h.mem a).rename fun v => place v - start := by
    intro c member
    obtain ⟨a, live, rfl⟩ := List.mem_map.mp member
    exact ⟨a, mem_liveObjects.mp live, stands a (mem_liveObjects.mp live)⟩
  have is_offset : ∀ a, Live h a → place a - start ∈ (liveObjects h).map fun a => place a - start :=
    fun a live => List.mem_map.mpr ⟨a, mem_liveObjects.mpr live, rfl⟩
  refine ⟨image, ?_, ⟨rfl, ?_, ?_, ?_, ?_, ?_, ?_⟩, ?_, ?_, ?_, stands, rfl⟩
  · rw [writeImage]
    rw [adjustObjectFieldsWithTable, first]
    change (adjustOopPointersFrom (2 ^ 64 - start) start (s.writeObject - start) _ >>= _) = _
    rw [second]
    change (forwardedTo s.table count h.specialObjectsOop >>= _) = _
    rw [(forwards _ special).1]
    rfl
  · have := bounds _ special
    change s.writeObject - start ≠ 0
    omega
  · have same : ∀ c ∈ cells, extent image.objects (c - start) = extent
        (rewritten (Object.rename (· - start)) cells
          (rewritten (Object.rename place) cells s.memory)) c := by
      intro c member
      obtain ⟨a, live, rfl⟩ := at_cell c member
      have back : start + (place a - start) = place a := Nat.add_sub_cancel' (bounds a live).1
      exact congrArg (fun b => objectTotalSize (rewritten _ cells _ b)) back
    have moved := tiles_2.move (f := (· - start)) (fun x n after => Nat.sub_add_comm after) same
    rw [Nat.sub_self, Nat.add_sub_cancel_left, List.map_map] at moved
    exact moved
  · intro c member
    obtain ⟨a, live, same⟩ := each c member
    rw [extent, same]
    exact live.1.elim (w.old.least a) (w.young.least a)
  · intro c member
    obtain ⟨a, live, same⟩ := each c member
    rw [same]
    exact live.2
  · intro c member
    obtain ⟨a, live, same⟩ := each c member
    rw [same]
    exact is_offset _ (map_live w live)
  · intro c member v field pointer
    obtain ⟨a, live, same⟩ := each c member
    rw [same] at field
    obtain ⟨b, old, small, rfl⟩ := field_of_rename field pointer
    exact is_offset b (field_live w live old small)
  · change s.writeObject - start ≤ _
    omega
  · intro a b one other equal
    have := bounds a one
    have := bounds b other
    have place_eq : place a = place b := by
      simp only [place] at *
      omega
    exact List.inj_on_of_nodup_map tiles.nodup (mem_liveObjects.mpr one)
      (mem_liveObjects.mpr other) place_eq
  · intro a live
    have := even a live
    have := bounds a live
    change (s.place count a - start) % 2 = 0
    omega

/-- The live objects of one heap stand in another one, each with its references. -/
structure Copied (h k : Heap) (ρ : Nat → Nat) : Prop where
  spaces : Spaces k
  apart : ∀ a b, Live h a → Live h b → ρ a = ρ b → a = b
  live : ∀ x, Live k x ↔ ∃ a, Live h a ∧ x = ρ a
  objects : ∀ a, Live h a → k.mem (ρ a) = objectZeroPinCount ((h.mem a).rename ρ)
  pointers : ∀ a, Live h a → pointers k (ρ a) = (pointers h a).map ρ
  special : k.specialObjectsOop = ρ h.specialObjectsOop
  cached : k.cached = (cacheSpecials k).cached

theorem Stands.copied (w : WellFormed h) {image : SlateImage} {off : Nat → Nat} {k : Heap}
    {base : Nat} (saved : Saved h image off) (even : base % 2 = 0)
    (stands : Stands k image ((liveObjects h).map off) base) :
    Copied h k fun a => off a + base := by
  have is_cell : ∀ a, Live h a → off a ∈ (liveObjects h).map off :=
    fun a live => List.mem_map.mpr ⟨a, mem_liveObjects.mpr live, rfl⟩
  have objects : ∀ a, Live h a →
      k.mem (off a + base) = objectZeroPinCount ((h.mem a).rename fun a => off a + base) := by
    intro a live
    rw [stands.objects _ (is_cell a live), saved.objects a live]
    rw [rename_rename rfl fun v field pointer => ⟨?_, rfl⟩]
    have := saved.even v (field_live w live field pointer)
    simp [oopIsSmallint, this]
  refine ⟨stands.spaces, ?_, ?_, objects, ?_, ?_, stands.cached⟩
  · exact fun a b first second equal => saved.apart a b first second (Nat.add_right_cancel equal)
  · intro x
    rw [Live, stands.old, stands.young, List.map_map, List.mem_singleton]
    constructor
    · rintro ⟨old | young, used⟩
      · obtain ⟨a, live, rfl⟩ := List.mem_map.mp old
        exact ⟨a, mem_liveObjects.mp live, rfl⟩
      · subst young
        cases stands.free.symm.trans used
    · rintro ⟨a, live, rfl⟩
      refine ⟨.inl (List.mem_map.mpr ⟨a, mem_liveObjects.mpr live, rfl⟩), ?_⟩
      rw [isFree, objects a live]
      exact live.2
  · intro a live
    have fields : fieldPointers k (off a + base) =
        (fieldPointers h a).map fun a => off a + base := by
      have same : oopFields (k.mem (off a + base)) =
          (oopFields (h.mem a)).map (renameOop fun a => off a + base) := by
        rw [objects a live]
        exact rename_oopFields ..
      rw [fieldPointers, same, List.filter_map, fieldPointers]
      rw [List.filter_congr (q := fun v => !oopIsSmallint v)]
      · refine List.map_congr_left fun v member => ?_
        have pointer := (List.mem_filter.mp member).2
        rw [renameOop, if_neg (by simpa using pointer)]
      · intro v field
        rw [Function.comp, renameOop]
        cases small : oopIsSmallint v with
        | true => simp [small]
        | false =>
          have := saved.even v (field_live w live field small)
          have whole : (off v + base) % 2 = 0 := by omega
          simp [oopIsSmallint, whole]
    rw [pointers, fields, objects a live]
    rfl
  · rw [stands.special, saved.special]

end Saved

end SlateVm.Images
