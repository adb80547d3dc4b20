import SlateVm.Heap.Object

/-! Free and used space, the store barrier and allocation in old space. The
asserts on a size (at least a header, a map and no slots) stand where a size
comes from outside, in the allocators. -/
namespace SlateVm
open Tiling

def heapMakeFreeSpace (h : Heap) (obj : Nat) (words : Nat) : Heap :=
  h.put obj { h.mem obj with
    format := typeObject, objectSize := words, payloadSize := 0, map := 0, hash := idHashFree }

def heapMakeUsedSpace (h : Heap) (obj : Nat) (words : Nat) : Heap :=
  let x := heapMakeFreeSpace h obj words
  let (hash, x) := heapNewHash x
  x.put obj { x.mem obj with hash := hash }

/-- First fit from `obj` to the end of the space; there is no second lap. -/
def heapFindFirstFree (h : Heap) (memory memorySize bytes : Nat) : Nat → Nat → Option Nat
  | 0, _ => none
  | fuel + 1, obj =>
    if objectInMemory memory memorySize obj then
      if objectIsFree (h.mem obj) && decide (bytes ≤ objectTotalSize (h.mem obj)) then some obj
      else heapFindFirstFree h memory memorySize bytes fuel (objectAfter h obj)
    else none

def heapFindFirstYoungFree (h : Heap) (obj : Nat) (bytes : Nat) : Option Nat :=
  heapFindFirstFree h h.memoryYoung h.memoryYoungSize bytes h.memoryYoungSize obj

def heapFindFirstOldFree (h : Heap) (obj : Nat) (bytes : Nat) : Option Nat :=
  heapFindFirstFree h h.memoryOld h.memoryOldSize bytes h.memoryOldSize obj

def breakFreeSpace (h : Heap) (obj : Nat) (words : Nat) : Heap :=
  let oldsize := objectWordSize (h.mem obj)
  let h := heapMakeUsedSpace h obj words
  heapMakeFreeSpace h (objectAfter h obj) (oldsize - words)

def gcAllocateOld (h : Heap) (bytes : Nat) : Except Halt (Heap × Nat) := do
  let words := bytes / sizeofWord
  require (decide (bytes % sizeofWord = 0))
  require (decide (headerSizeWords + 1 ≤ words))
  let start :=
    if objectInMemory h.memoryOld h.memoryOldSize h.nextOldFree then h.nextOldFree
    else h.memoryOld
  match heapFindFirstOldFree h start (bytes + sizeofObject) with
  | none =>
    require (decide (h.memoryOldSize + bytes < h.memoryOldLimit))
    let obj := h.memoryOld + h.memoryOldSize
    let h := heapMakeUsedSpace { h with nextOldFree := obj } obj words
    .ok ({ h with memoryOldSize := h.memoryOldSize + bytes }, obj)
  | some obj => .ok (breakFreeSpace { h with nextOldFree := obj } obj words, obj)

def heapFreeObject (h : Heap) (obj : Nat) : Heap :=
  let h := if objectIsOld h obj then
      { h with rememberedOldObjects := h.rememberedOldObjects.erase obj }
    else h
  heapMakeFreeSpace h obj (objectWordSize (h.mem obj))

def heapRememberOldObject (h : Heap) (x : Nat) : Heap :=
  if objectIsOld h x && !oopIsSmallint x then
    { h with rememberedOldObjects := insert x h.rememberedOldObjects }
  else h

theorem heapFreeObject_eq (h : Heap) (obj : Nat) : ∃ remembered, heapFreeObject h obj =
    heapMakeFreeSpace { h with rememberedOldObjects := remembered } obj
      (objectWordSize (h.mem obj)) ∧
    ∀ o ∈ h.rememberedOldObjects, o ≠ obj → o ∈ remembered := by
  unfold heapFreeObject
  split
  · exact ⟨_, rfl, fun o member ne => Finset.mem_erase.mpr ⟨ne, member⟩⟩
  · exact ⟨_, rfl, fun o member _ => member⟩

/-- The write barrier: `dest` is about to be stored into `src`. -/
def heapStoreInto (h : Heap) (src dest : Nat) : Except Halt Heap := do
  if !oopIsSmallint dest then
    require (decide ((h.mem dest).hash < idHashReserved))
    require (decide ((h.mem src).hash < idHashReserved))
  if objectIsYoung h dest && objectIsOld h src then .ok (heapRememberOldObject h src)
  else .ok h

def objectSlotValueAtOffsetPut (h : Heap) (o : Nat) (k : Nat) (value : Nat) :
    Except Halt Heap := do
  let h ← heapStoreInto h o value
  .ok (h.put o ((h.mem o).setWord k value))

end SlateVm

/-! The collectors: a young collection that marks and sweeps the young space,
and a full one that sweeps old space and moves young survivors into it. -/
namespace SlateVm
open Tiling

def heapStartGc (h : Heap) : Heap := { h with markColor := !h.markColor, markStack := [] }

def heapMark (h : Heap) (obj : Nat) : Heap :=
  if objectIsMarked h obj then h
  else
    let h := objectSetMark h obj
    { h with markStack := obj :: h.markStack }

def heapMarkSpecials (h : Heap) (markOld : Bool) : Heap :=
  (List.range (objectArraySize (h.mem h.specialObjectsOop))).foldl (fun h i =>
    let obj := getSpecial h i
    if !markOld && objectIsOld h obj then h
    else if oopIsSmallint obj then h
    else heapMark h obj) h

/-- `Interpreter` keeps its stack in the first slot and, behind its oops, the
untagged frame pointer, code pointer, code size, stack pointer and stack size. -/
def interpreterStack (h : Heap) : Nat := (h.mem h.cached.interpreter).word 4
def interpreterStackPointer (h : Heap) : Nat := (h.mem h.cached.interpreter).word 12

def stackElement (h : Heap) (i : Nat) : Nat :=
  (h.mem (interpreterStack h)).word (headerSizeWords + 1 + i)

def heapMarkInterpreterStack (h : Heap) (markOld : Bool) : Heap :=
  (List.range (interpreterStackPointer h)).foldl (fun h i =>
    let obj := stackElement h i
    if oopIsSmallint obj then h
    else if !markOld && objectIsOld h obj then h
    else heapMark h obj) h

def heapMarkFields (h : Heap) (o : Nat) : Heap :=
  (oopWords (h.mem o)).foldl (fun h k =>
    let val := (h.mem o).word k
    if oopIsSmallint val then h else heapMark h val) (heapMark h (h.mem o).map)

def markFuel (h : Heap) : Nat := h.memoryOldSize + h.memoryYoungSize

def markLoop (markOld : Bool) : Nat → Heap → Heap
  | 0, h => h
  | fuel + 1, h =>
    match h.markStack with
    | [] => h
    | obj :: rest =>
      let h := { h with markStack := rest }
      if !markOld && objectIsOld h obj then markLoop markOld fuel h
      else markLoop markOld fuel (heapMarkFields h obj)

def heapMarkRecursively (h : Heap) (markOld : Bool) : Heap := markLoop markOld (markFuel h) h

def heapUnmarkAll (h : Heap) (memory memorySize : Nat) : Heap :=
  overCells (objectInMemory memory memorySize) objectUnmark objectAfter memorySize h memory

def heapMarkPinned (h : Heap) (memory memorySize : Nat) : Heap :=
  overCells (objectInMemory memory memorySize)
    (fun h obj =>
      if decide ((h.mem obj).hash < idHashReserved) && objectIsPinned h obj then heapMark h obj
      else h)
    objectAfter memorySize h memory

def heapMarkPinnedYoung (h : Heap) : Heap := heapMarkPinned h h.memoryYoung h.memoryYoungSize

def heapMarkPinnedOld (h : Heap) : Heap := heapMarkPinned h h.memoryOld h.memoryOldSize

def markYoungField (o : Nat) (s : Heap × Bool) (k : Nat) : Heap × Bool :=
  let val := (s.1.mem o).word k
  if !oopIsSmallint val && objectIsYoung s.1 val then (heapMark s.1 val, true) else s

def markYoungMap (h : Heap) (o : Nat) : Heap × Bool :=
  if objectIsYoung h (h.mem o).map then (heapMark h (h.mem o).map, true) else (h, false)

def markYoungPointers (h : Heap) (o : Nat) : Heap × Bool :=
  (oopWords (h.mem o)).foldl (markYoungField o) (markYoungMap h o)

def markRememberedObject (s : Heap × List Nat) (o : Nat) : Heap × List Nat :=
  let (h, foundSomething) := markYoungPointers s.1 o
  if !foundSomething || objectIsYoung h o then (h, s.2 ++ [o]) else (h, s.2)

def heapMarkRemembered (h : Heap) : Heap :=
  let (h, badRemembered) :=
    (h.rememberedOldObjects.sort (· ≤ ·)).foldl markRememberedObject (h, [])
  { h with rememberedOldObjects :=
      badRemembered.foldl (fun s o => s.erase o) h.rememberedOldObjects }

structure Sweep where
  heap : Heap
  prev : Nat
  objectCount : Nat
  freeCount : Nat

def coalesce (s : Sweep) (obj : Nat) : Sweep :=
  if objectIsFree (s.heap.mem obj) && objectIsFree (s.heap.mem s.prev) && obj != s.prev then
    let words := objectWordSize (s.heap.mem obj) + objectWordSize (s.heap.mem s.prev)
    { s with heap := heapMakeFreeSpace s.heap s.prev words }
  else { s with prev := obj }

def freeUnmarked (s : Sweep) (obj : Nat) : Sweep :=
  let s := { s with objectCount := s.objectCount + 1 }
  if !objectIsFree (s.heap.mem obj) && !objectIsMarked s.heap obj then
    { s with heap := heapFreeObject s.heap obj, freeCount := s.freeCount + 1 }
  else s

/-- In both branches of `coalesce` the walk goes on behind the cell kept last. -/
def sweepCells (body : Sweep → Nat → Sweep) (h : Heap) (memory memorySize : Nat) : Sweep :=
  overCells (objectInMemory memory memorySize) body (fun s _ => objectAfter s.heap s.prev)
    memorySize ⟨h, memory, 0, 0⟩ memory

def heapFreeAndCoalesceUnmarked (h : Heap) (memory memorySize : Nat) : Heap :=
  let s := sweepCells (fun s obj => coalesce (freeUnmarked s obj) obj) h memory memorySize
  if memory = s.heap.memoryOld ∧ (s.freeCount = 0 ∨ 2 < s.objectCount / s.freeCount) then
    { s.heap with doFullGCNext := true }
  else s.heap

def forwarded (h : Heap) : Nat → Nat → Nat
  | 0, x => x
  | fuel + 1, x =>
    if (h.mem x).hash = idHashForwarded then forwarded h fuel (h.mem x).map else x

def updateForwardedMap (h : Heap) (o : Nat) : Except Halt Heap := do
  let map := forwarded h (markFuel h) (h.mem o).map
  let h := h.put o { h.mem o with map := map }
  require (!objectIsFree (h.mem map))
  .ok h

/-- `while (val is forwarded) put(o, k, val = target)`, with its assert. -/
def updateForwardedField (o k : Nat) : Nat → Heap → Except Halt Heap
  | 0, h => .ok h
  | fuel + 1, h => do
    let val := (h.mem o).word k
    if oopIsSmallint val then .ok h
    else if (h.mem val).hash = idHashForwarded then
      let h ← objectSlotValueAtOffsetPut h o k (h.mem val).map
      updateForwardedField o k fuel h
    else do
      require (!objectIsFree (h.mem val))
      .ok h

def updateForwardedObject (h : Heap) (o : Nat) : Except Halt Heap := do
  if objectIsFree (h.mem o) then .ok h
  else do
    let fuel := markFuel h
    let h ← updateForwardedMap h o
    (oopWords (h.mem o)).foldlM (fun h k => updateForwardedField o k fuel h) h

def heapUpdateForwardedPointers (h : Heap) (memory memorySize : Nat) : Except Halt Heap :=
  overCellsE (objectInMemory memory memorySize) updateForwardedObject objectAfter
    memorySize h memory

def moveTo (h : Heap) (obj tenureStart : Nat) : Heap :=
  let h := h.put tenureStart (h.mem obj)
  let h := { h with tenuredObjects := h.tenuredObjects ++ [tenureStart] }
  h.put obj { h.mem obj with map := tenureStart, hash := idHashForwarded }

def tenureObject (h : Heap) (obj : Nat) : Except Halt Heap := do
  if objectIsFree (h.mem obj) then .ok h
  else do
    let h := if objectIsMarked h obj then h else heapFreeObject h obj
    if objectIsPinned h obj || objectIsFree (h.mem obj) then .ok h
    else do
      let (h, tenureStart) ← gcAllocateOld h (objectTotalSize (h.mem obj))
      .ok (moveTo h obj tenureStart)

def pointsToYoung (h : Heap) (o : Nat) : Bool :=
  objectIsYoung h (h.mem o).map ||
    (oopFields (h.mem o)).any fun val => !oopIsSmallint val && objectIsYoung h val

def rememberTenured (h : Heap) (o : Nat) : Heap :=
  if pointsToYoung h o then heapRememberOldObject h o else h

def heapTenure (h : Heap) : Except Halt Heap := do
  let h := { h with nextOldFree := h.memoryOld, tenuredObjects := [] }
  let h ← overCellsE (objectInMemory h.memoryYoung h.memoryYoungSize) tenureObject objectAfter
    h.memoryYoungSize h h.memoryYoung
  let h ← heapUpdateForwardedPointers h h.memoryOld h.memoryOldSize
  let h ← heapUpdateForwardedPointers h h.memoryYoung h.memoryYoungSize
  let h := h.tenuredObjects.foldl rememberTenured h
  let h := (sweepCells coalesce h h.memoryYoung h.memoryYoungSize).heap
  .ok { h with nextFree := h.memoryYoung }

def heapFullGc (h : Heap) : Except Halt Heap := do
  let h := heapStartGc h
  let h := heapUnmarkAll h h.memoryOld h.memoryOldSize
  let h := heapUnmarkAll h h.memoryYoung h.memoryYoungSize
  let h := heapMarkPinnedYoung h
  let h := heapMarkPinnedOld h
  let h := heapMarkSpecials h true
  let h := heapMarkInterpreterStack h true
  let h := heapMarkRecursively h true
  let h := heapFreeAndCoalesceUnmarked h h.memoryOld h.memoryOldSize
  let h ← heapTenure h
  .ok { h with doFullGCNext := false }

def heapGc (h : Heap) : Heap :=
  let h := heapStartGc h
  let h := heapUnmarkAll h h.memoryYoung h.memoryYoungSize
  let h := heapMarkPinnedYoung h
  let h := heapMarkSpecials h false
  let h := heapMarkInterpreterStack h false
  let h := heapMarkRemembered h
  let h := heapMarkRecursively h false
  let h := heapFreeAndCoalesceUnmarked h h.memoryYoung h.memoryYoungSize
  { h with nextFree := h.memoryYoung }

end SlateVm
