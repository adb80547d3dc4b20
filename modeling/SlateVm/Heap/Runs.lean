import SlateVm.Heap.Clone

/-! Runs of allocations, clones, collections and forwardings: the two spaces stay tiled,
and a new cell overlaps no object. -/
namespace SlateVm
open Tiling Steps

/-- What is done to the object memory. The interpreter overwrites the words of objects in
between. -/
inductive HeapOp where
  | gcAllocate (bytes : Int)
  | gcAllocateOld (bytes : Nat)
  | heapAllocateWithPayload (words : Nat) (payloadSize : Int)
  | heapClone (proto : Nat)
  | heapCloneOopArraySized (proto : Nat) (size : Int)
  | heapCloneByteArraySized (proto : Nat) (bytes : Int)
  | heapFreeObject (obj : Nat)
  | heapForward (x y : Nat)
  | heapGc
  | heapFullGc
  | heapPinObject (x : Nat)
  | heapUnpinObject (x : Nat)
  | overwrite (o map : Nat) (word : Nat → Nat)

def overwrite (h : Heap) (o map : Nat) (word : Nat → Nat) : Heap :=
  h.put o { h.mem o with map := map, word := word }

def HeapOp.run (h : Heap) : HeapOp → Except Halt (Heap × Option Nat)
  | .gcAllocate bytes => (SlateVm.gcAllocate h bytes).map fun r => (r.1, some r.2)
  | .gcAllocateOld bytes => (SlateVm.gcAllocateOld h bytes).map fun r => (r.1, some r.2)
  | .heapAllocateWithPayload words payloadSize =>
    (SlateVm.heapAllocateWithPayload h words payloadSize).map fun r => (r.1, some r.2)
  | .heapClone proto => (SlateVm.heapClone h proto).map fun r => (r.1, some r.2)
  | .heapCloneOopArraySized proto size =>
    (SlateVm.heapCloneOopArraySized h proto size).map fun r => (r.1, some r.2)
  | .heapCloneByteArraySized proto bytes =>
    (SlateVm.heapCloneByteArraySized h proto bytes).map fun r => (r.1, some r.2)
  | .heapFreeObject obj => .ok (SlateVm.heapFreeObject h obj, none)
  | .heapForward x y => (SlateVm.heapForward h x y).map fun h => (h, none)
  | .heapGc => .ok (SlateVm.heapGc h, none)
  | .heapFullGc => (SlateVm.heapFullGc h).map fun h => (h, none)
  | .heapPinObject x => (SlateVm.heapPinObject h x).map fun h => (h, none)
  | .heapUnpinObject x => .ok (SlateVm.heapUnpinObject h x, none)
  | .overwrite o map word => .ok (SlateVm.overwrite h o map word, none)

def smallintRange (i : Int) : Prop := -2 ^ 62 ≤ i ∧ i < 2 ^ 62

def HeapOp.Called (h : Heap) : HeapOp → Prop
  | .heapClone proto => Live h proto
  | .heapCloneOopArraySized proto _ => Live h proto
  | .heapCloneByteArraySized proto bytes => Live h proto ∧ smallintRange bytes
  | _ => True

/-- The sized clones want a size whose payload is a word and not negative, unless an assert
stops them, and a prototype that the collections leave where it is. -/
def HeapOp.Fits (h : Heap) : HeapOp → Prop
  | .heapCloneOopArraySized proto size =>
    let cell := cellBytes (h.mem proto).objectSize (toWord (size * sizeofWord))
    cell < minCell ∨ (0 ≤ size ∧ size < 2 ^ 60) ∧ Steady h proto cell
  | .heapCloneByteArraySized proto bytes =>
    let cell := cellBytes (h.mem proto).objectSize bytes
    cell < minCell ∨ -sizeofWord < bytes ∧ Steady h proto cell
  | _ => True

/-- Stepping with `objectAfter` from the bottom of a space meets its cells. -/
structure SpaceTiled (h : Heap) (memory memorySize : Nat) : Prop where
  consecutive : Tiles (fun a => objectAfter h a - a) memory (memory + memorySize)
    (cellsOf h.mem memory memorySize)
  sum : ((cellsOf h.mem memory memorySize).map fun a => objectTotalSize (h.mem a)).sum = memorySize
  inside : ∀ a ∈ cellsOf h.mem memory memorySize, objectAfter h a ≤ memory + memorySize
  least : ∀ a ∈ cellsOf h.mem memory memorySize, headerSizeWords + 1 ≤ objectWordSize (h.mem a)

structure HeapTiled (h : Heap) : Prop where
  young : SpaceTiled h h.memoryYoung h.memoryYoungSize
  old : SpaceTiled h h.memoryOld h.memoryOldSize

theorem Tiled.space {h : Heap} {memory memorySize : Nat} (t : Tiled h.mem memory memorySize) :
    SpaceTiled h memory memorySize := by
  refine ⟨t.tiles.congr fun c _ => ?_, ?_, fun a ha => (t.tiles.bounds a ha).2.1, fun a ha => ?_⟩
  · simp only [objectAfter, extent]
    omega
  · have sum := t.tiles.sum
    exact Nat.add_left_cancel sum
  · have least := t.least a ha
    simp only [minCell, extent, objectTotalSize] at least
    exact Nat.le_of_mul_le_mul_right least (by decide)

theorem Sound.tiled {h : Heap} (s : Sound h) : HeapTiled h := ⟨s.young.space, s.old.space⟩

section Ops

variable {h k : Heap}

theorem Sound.outline (s : Sound h) (same : k.outline = h.outline) : Sound k :=
  s.reshape (outline_extent same) (fun a free => (outline_isFree same a).trans free)
    (outline_bounds same)
    ⟨(congrArg Heap.nextFree same :), (congrArg Heap.nextOldFree same :)⟩

theorem heapFreeObject_sound (s : Sound h) (obj : Nat) : Sound (heapFreeObject h obj) := by
  obtain ⟨remembered, shape, -⟩ := heapFreeObject_eq h obj
  rw [shape]
  refine s.reshape (funext fun a => ?_) (fun a free => ?_) rfl ⟨rfl, rfl⟩
  · by_cases here : a = obj
    · subst here
      simp [extent, heapMakeFreeSpace, objectTotalSize, objectWordSize]
    · simp [extent, heapMakeFreeSpace, here]
  · by_cases here : a = obj
    · subst here
      simp [isFree, heapMakeFreeSpace, objectIsFree, idHashFree, idHashReserved]
    · simpa [isFree, heapMakeFreeSpace, here] using free

theorem heapFreeObject_oldCells (s : Spaces h) (obj : Nat) :
    oldCells (heapFreeObject h obj) = oldCells h := by
  obtain ⟨remembered, shape, -⟩ := heapFreeObject_eq h obj
  rw [shape]
  refine cellsOf_congr s.old fun c _ => ?_
  by_cases here : c = obj
  · subst here
    simp [extent, heapMakeFreeSpace, objectTotalSize, objectWordSize]
  · simp [extent, heapMakeFreeSpace, here]

theorem heapForward_spec (s : Sound h) (x y : Nat) :
    (∃ k, heapForward h x y = .ok (heapFreeObject k x) ∧ Stored [] h k) ∨
      heapForward h x y = .error .assertFailed := by
  have stores : Stores [] h (do
      let k ← heapForwardFrom h x y h.memoryOld h.memoryOldSize
      heapForwardFrom k x y k.memoryYoung k.memoryYoungSize) :=
    .bind Stored.trans (heapForwardFrom_stores s.old x y) fun k stored =>
      heapForwardFrom_stores (s.toSpaces.outline stored.1).young x y
  have split : heapForward h x y = ((do
      let k ← heapForwardFrom h x y h.memoryOld h.memoryOldSize
      heapForwardFrom k x y k.memoryYoung k.memoryYoungSize) >>= fun k =>
        Except.ok (heapFreeObject k x)) := by
    rw [bind_assoc]
    rfl
  rw [split]
  rcases stores with ⟨k, run, stored⟩ | ⟨e, fails, rfl⟩
  · exact Or.inl ⟨k, by rw [run]; rfl, stored⟩
  · exact Or.inr (by rw [fails]; rfl)

theorem overwrite_outline (o map : Nat) (word : Nat → Nat) :
    (overwrite h o map word).outline = h.outline := put_outline rfl

theorem Allocated.made {g : Heap} {bytes : Int} {obj size : Nat} (s : Sound h)
    (room : gcMakeRoom h bytes = .ok k) (fresh : Fresh k g obj size) : Allocated h g obj :=
  have made := gcMakeRoom_ok s room
  ⟨k, size, made.2.1, fresh, made.1.guarded⟩

def Lands (h : Heap) (r : Except Halt (Heap × Option Nat)) : Prop :=
  (∃ k new, r = .ok (k, new) ∧ Sound k ∧ ∀ obj, new = some obj → Allocated h k obj) ∨
    r = .error .assertFailed

theorem Lands.allocated {r : Except Halt (Heap × Nat)}
    (run : (∃ g obj, r = .ok (g, obj) ∧ Allocated h g obj) ∨ r = .error .assertFailed) :
    Lands h (r.map fun r => (r.1, some r.2)) := by
  rcases run with ⟨g, obj, rfl, allocated⟩ | rfl
  · have sound : Sound g := by
      obtain ⟨_, _, _, fresh, _⟩ := allocated
      exact fresh.sound
    exact Or.inl ⟨g, some obj, rfl, sound, fun _ same => Option.some.inj same ▸ allocated⟩
  · exact Or.inr rfl

theorem Lands.silent {r : Except Halt Heap}
    (run : (∃ g, r = .ok g ∧ Sound g) ∨ r = .error .assertFailed) :
    Lands h (r.map fun h => (h, none)) := by
  rcases run with ⟨g, rfl, sound⟩ | rfl
  · exact Or.inl ⟨g, none, rfl, sound, fun _ impossible => by cases impossible⟩
  · exact Or.inr rfl

theorem heapCloneSized_allocated (s : Sound h) {proto type value : Nat} {payloadSize fill : Int}
    (array : type ≠ typeObject) (live : Live h proto)
    (fits : cellBytes (h.mem proto).objectSize payloadSize < minCell ∨
      (0 ≤ (payloadSize + 7) / 8 ∧ fill ≤ (payloadSize + 7) / 8) ∧
        Steady h proto (cellBytes (h.mem proto).objectSize payloadSize)) :
    (∃ g obj, heapCloneSized h proto type payloadSize fill value = .ok (g, obj) ∧
      Allocated h g obj) ∨
      heapCloneSized h proto type payloadSize fill value = .error .assertFailed := by
  rcases heapCloneSized_spec s array live fits with ⟨k, g, obj, room, run, fresh⟩ | fails
  · exact Or.inl ⟨g, obj, run, .made s room fresh⟩
  · exact Or.inr fails

theorem heapCloneOopArraySized_spec (s : Sound h) {proto : Nat} {size : Int}
    (live : Live h proto) (fits : (HeapOp.heapCloneOopArraySized proto size).Fits h) :
    (∃ g obj, heapCloneOopArraySized h proto size = .ok (g, obj) ∧ Allocated h g obj) ∨
      heapCloneOopArraySized h proto size = .error .assertFailed := by
  refine heapCloneSized_allocated s (by decide) live (fits.imp id fun both => ⟨?_, both.2⟩)
  obtain ⟨positive, below⟩ := both.1
  have payload : toWord (size * sizeofWord) = size * 8 := by
    simp only [toWord, sizeofWord, Int.bmod]
    omega
  rw [payload]
  omega

theorem heapCloneByteArraySized_spec (s : Sound h) {proto : Nat} {bytes : Int}
    (live : Live h proto) (range : smallintRange bytes)
    (fits : (HeapOp.heapCloneByteArraySized proto bytes).Fits h) :
    (∃ g obj, heapCloneByteArraySized h proto bytes = .ok (g, obj) ∧ Allocated h g obj) ∨
      heapCloneByteArraySized h proto bytes = .error .assertFailed := by
  refine heapCloneSized_allocated s (by decide) live (fits.imp id fun both => ⟨?_, both.2⟩)
  have positive := both.1
  simp only [smallintRange, sizeofWord] at range positive ⊢
  omega

theorem HeapOp.lands (s : Sound h) {op : HeapOp} (called : op.Called h) (fits : op.Fits h) :
    Lands h (op.run h) := by
  cases op with
  | gcAllocate bytes =>
    refine .allocated ?_
    rcases gcAllocate_spec s bytes with ⟨k, g, obj, room, run, fresh, -⟩ | fails
    · exact Or.inl ⟨g, obj, run, .made s room fresh⟩
    · exact Or.inr fails
  | gcAllocateOld bytes =>
    refine .allocated ?_
    rcases gcAllocateOld_fresh s h.nextFree s.nextYoung bytes with ⟨g, obj, run, fresh, -⟩ | fails
    · exact Or.inl ⟨g, obj, run, h, bytes, .here h, fresh, id⟩
    · exact Or.inr fails
  | heapAllocateWithPayload words payloadSize =>
    refine .allocated ?_
    rcases heapAllocateWithPayload_spec s words payloadSize with
      ⟨k, g, obj, room, run, fresh, -⟩ | fails
    · exact Or.inl ⟨g, obj, run, .made s room fresh⟩
    · exact Or.inr fails
  | heapClone proto => exact .allocated (heapClone_spec s called)
  | heapCloneOopArraySized proto size =>
    exact .allocated (heapCloneOopArraySized_spec s called fits)
  | heapCloneByteArraySized proto bytes =>
    exact .allocated (heapCloneByteArraySized_spec s called.1 called.2 fits)
  | heapFreeObject obj =>
    exact .silent (r := .ok (SlateVm.heapFreeObject h obj))
      (Or.inl ⟨_, rfl, heapFreeObject_sound s obj⟩)
  | heapForward x y =>
    refine .silent ?_
    rcases heapForward_spec s x y with ⟨k, run, stored⟩ | fails
    · exact Or.inl ⟨_, run, heapFreeObject_sound (s.outline stored.1) x⟩
    · exact Or.inr fails
  | heapGc =>
    exact .silent (r := .ok (SlateVm.heapGc h)) (Or.inl ⟨_, rfl, (heapGc_collected s).sound⟩)
  | heapFullGc =>
    refine .silent ?_
    rcases heapFullGc_collected s with ⟨k, run, collected⟩ | fails
    · exact Or.inl ⟨k, run, collected.sound⟩
    · exact Or.inr fails
  | heapPinObject x =>
    refine .silent ?_
    cases even : oopIsSmallint x with
    | true => exact Or.inl ⟨h, by simp [SlateVm.heapPinObject, even], s⟩
    | false =>
      rcases heapPinObject_spec (h := h) even with run | fails
      · exact Or.inl ⟨_, run, s.withPins⟩
      · exact Or.inr fails
  | heapUnpinObject x =>
    refine .silent (r := .ok (SlateVm.heapUnpinObject h x)) (Or.inl ⟨_, rfl, ?_⟩)
    cases even : oopIsSmallint x with
    | true => rwa [SlateVm.heapUnpinObject, if_pos even]
    | false =>
      rw [heapUnpinObject_eq even]
      exact s.withPins
  | overwrite o map word =>
    exact .silent (r := .ok (SlateVm.overwrite h o map word))
      (Or.inl ⟨_, rfl, s.outline (overwrite_outline o map word)⟩)

end Ops

section Start

/-- What `heap_initialize` is given: room for both spaces, and an image that is tiled. -/
structure Image (h : Heap) (size limit youngLimit : Nat) : Prop where
  tiled : Tiled h.mem h.memoryOld size
  fits : size ≤ limit
  apart : h.memoryOld + limit ≤ h.memoryYoung ∨ h.memoryYoung + youngLimit ≤ h.memoryOld
  even : h.memoryOld % 2 = 0 ∧ h.memoryYoung % 2 = 0

theorem heapInitialize_sound {h k : Heap} {size limit youngLimit specialOop nextHash : Nat}
    (image : Image h size limit youngLimit) (whole : youngLimit % sizeofWord = 0)
    (run : heapInitialize h size limit youngLimit specialOop nextHash = .ok k) : Sound k := by
  by_cases least : headerSizeWords + 1 ≤ youngLimit / sizeofWord
  swap
  · simp [heapInitialize, require, least, bind, Except.bind] at run
  simp only [heapInitialize, require, least, decide_true, if_true, bind, Except.bind,
    Except.ok.injEq] at run
  have apart := image.apart
  have fits := image.fits
  have positive : 0 < youngLimit := by
    simp only [headerSizeWords, sizeofWord] at least
    omega
  have extentYoung : extent k.mem h.memoryYoung = youngLimit := by
    subst run
    simp only [extent, heapMakeFreeSpace, put_mem, if_true, objectTotalSize, objectWordSize,
      sizeofWord] at whole ⊢
    omega
  have young : Tiles (extent k.mem) h.memoryYoung (h.memoryYoung + youngLimit)
      [h.memoryYoung] := by
    have one : Tiles (extent k.mem) h.memoryYoung (h.memoryYoung + extent k.mem h.memoryYoung)
        [h.memoryYoung] := .single (by omega)
    rwa [extentYoung] at one
  have tiledYoung : Tiled k.mem h.memoryYoung youngLimit := by
    refine .of young fun c hc => ?_
    rw [List.mem_singleton.mp hc, extentYoung]
    simp only [minCell, headerSizeWords, sizeofWord] at least ⊢
    omega
  have oldSizes : ∀ c ∈ cellsOf h.mem h.memoryOld size, extent k.mem c = extent h.mem c := by
    intro c hc
    have := image.tiled.tiles.bounds c hc
    have ne : c ≠ h.memoryYoung := by omega
    subst run
    simp [extent, heapMakeFreeSpace, ne]
  have tiledOld : Tiled k.mem h.memoryOld size := image.tiled.congr oldSizes
  have free : isFree k h.memoryYoung = true := by
    subst run
    simp [isFree, heapMakeFreeSpace, objectIsFree, idHashFree, idHashReserved]
  have cell : h.memoryYoung ∈ cellsOf k.mem h.memoryYoung youngLimit := by
    rw [cellsOf_eq young]
    exact List.mem_singleton_self _
  subst run
  exact ⟨⟨tiledOld, tiledYoung, image.fits, image.apart⟩, image.even,
    fun _ => tiledYoung.boundary_start, fun _ => tiledOld.boundary_start,
    ⟨h.memoryYoung, cell, free⟩⟩

end Start

inductive Run : Heap → Heap → Prop where
  | start (h : Heap) : Run h h
  | step {h k m : Heap} {op : HeapOp} {new : Option Nat} : Run h k → op.Called k → op.Fits k →
      op.run k = .ok (m, new) → Run h m

theorem Run.sound {h k : Heap} (s : Sound h) (run : Run h k) : Sound k := by
  induction run with
  | start => exact s
  | step _ called fits done ih =>
    rcases HeapOp.lands ih called fits with ⟨m, new, same, sound, -⟩ | fails
    · cases same.symm.trans done
      exact sound
    · rw [done] at fails; cases fails

theorem HeapTiled.whole {h : Heap} (t : HeapTiled h) : h.memoryYoungSize % sizeofWord = 0 := by
  rw [← t.young.sum]
  generalize cellsOf h.mem h.memoryYoung h.memoryYoungSize = cs
  induction cs with
  | nil => rfl
  | cons c cs ih =>
    simp only [List.map_cons, List.sum_cons, objectTotalSize, sizeofWord] at ih ⊢
    omega

/-- From a loaded image on, both spaces are tiled in every heap that is reached, and every
step keeps them so and allocates away from the objects, or stops at an assert. -/
theorem heap_tiled {h₀ h : Heap} {size limit youngLimit specialOop nextHash : Nat}
    (image : Image h₀ size limit youngLimit)
    (start : heapInitialize h₀ size limit youngLimit specialOop nextHash = .ok h) :
    (HeapTiled h ↔ youngLimit % sizeofWord = 0) ∧
      (youngLimit % sizeofWord = 0 → ∀ k, Run h k → HeapTiled k ∧
        ∀ op : HeapOp, op.Called k → op.Fits k →
          (∃ m new, op.run k = .ok (m, new) ∧ HeapTiled m ∧
            ∀ obj, new = some obj → Allocated k m obj) ∨ op.run k = .error .assertFailed) := by
  have sizes : h.memoryYoungSize = youngLimit := by
    by_cases least : headerSizeWords + 1 ≤ youngLimit / sizeofWord
    · simp only [heapInitialize, require, least, decide_true, if_true, bind, Except.bind,
        Except.ok.injEq] at start
      subst start
      rfl
    · simp [heapInitialize, require, least, bind, Except.bind] at start
  refine ⟨⟨fun tiled => sizes ▸ tiled.whole, fun whole =>
    (heapInitialize_sound image whole start).tiled⟩, fun whole k run => ?_⟩
  have sound := run.sound (heapInitialize_sound image whole start)
  refine ⟨sound.tiled, fun op called fits => ?_⟩
  rcases HeapOp.lands sound called fits with ⟨m, new, done, soundM, allocated⟩ | fails
  · exact Or.inl ⟨m, new, done, soundM.tiled, allocated⟩
  · exact Or.inr fails

def loadedSample (youngLimit : Nat) : Heap :=
  heapMakeFreeSpace { sampleHeap 1000 with
    memoryYoungSize := youngLimit, rememberedOldObjects := ∅, doFullGCNext := true
    nextFree := 4096, nextOldFree := 1024, lastHash := 0 } 4096 (youngLimit / sizeofWord)

theorem sampleImage (youngLimit : Nat) : Image (sampleHeap 1000) 216 1000 youngLimit :=
  ⟨by decide +kernel, by decide, Or.inl (by decide), by decide⟩

theorem heap_tiled_sample :
    (HeapTiled (loadedSample 128) ↔ 128 % sizeofWord = 0) ∧
      (128 % sizeofWord = 0 → ∀ k, Run (loadedSample 128) k → HeapTiled k ∧
        ∀ op : HeapOp, op.Called k → op.Fits k →
          (∃ m new, op.run k = .ok (m, new) ∧ HeapTiled m ∧
            ∀ obj, new = some obj → Allocated k m obj) ∨ op.run k = .error .assertFailed) :=
  @heap_tiled _ _ 216 1000 128 0 0 (sampleImage 128) rfl

/-- A young space that is no whole number of words ends inside a cell, and the size of an
array can get lost in the product with the word size. -/
theorem heap_tiled_fails :
    (heapInitialize (sampleHeap 1000) 216 1000 100 0 0 = .ok (loadedSample 100) ∧
      ¬HeapTiled (loadedSample 100)) ∧
    heapInitialize (sampleHeap 1000) 216 1000 128 0 0 = .ok (loadedSample 128) ∧
      (HeapOp.heapCloneOopArraySized 1192 (2 ^ 61)).Called (loadedSample 128) ∧
      (HeapOp.heapCloneOopArraySized 1192 (2 ^ 61)).run (loadedSample 128) =
        .error .wildWrite := by
  refine ⟨⟨rfl, fun tiled => absurd tiled.whole (by decide)⟩, rfl, ?_, eq_of_haltsWith ?_⟩
  · have live : Live (loadedSample 128) 1192 := by decide +kernel
    exact live
  · decide +kernel

end SlateVm
