import SlateVm.Heap.Collect

/-! Allocation in young space, the clones built on it, forwarding one object to
another, and the heap before an image is read. Byte counts are signed words. -/
namespace SlateVm
open Tiling

/-- The signed 64-bit word with the low bits of `i`. -/
def toWord (i : Int) : Int := Int.bmod i (2 ^ 64)

/-- One search of `gc_allocate`, from `nextFree` when it still lies in young space. -/
def findYoung (h : Heap) (bytes : Int) : Option Nat :=
  let start :=
    if objectInMemory h.memoryYoung h.memoryYoungSize h.nextFree then h.nextFree
    else h.memoryYoung
  heapFindFirstYoungFree h start (bytes + sizeofObject).toNat

def gcScavenge (h : Heap) : Except Halt Heap := do
  let h ← if h.doFullGCNext then heapFullGc h else .ok (heapGc h)
  .ok { h with nextFree := h.memoryYoung }

/-- The rounds of `gc_allocate` in which the search fails and there is a collection left
to try: one of either kind, then a full one. -/
def gcMakeRoom (h : Heap) (bytes : Int) : Except Halt Heap :=
  if (findYoung h bytes).isSome then .ok h
  else do
    let h ← gcScavenge h
    if (findYoung h bytes).isSome then .ok h
    else do
      let h ← heapFullGc h
      .ok { h with nextFree := h.memoryYoung }

/-- For a negative request the unsigned quotient exceeds every cell, and the assert on
the size of the remainder fails. -/
def gcBreakYoung (h : Heap) (obj : Nat) (bytes : Int) : Except Halt (Heap × Nat) := do
  require (decide (0 ≤ bytes))
  let words := bytes.toNat / sizeofWord
  require (decide (headerSizeWords + 1 ≤ words))
  .ok (breakFreeSpace { h with nextFree := obj } obj words, obj)

def gcAllocate (h : Heap) (bytes : Int) : Except Halt (Heap × Nat) := do
  require (decide (bytes % sizeofWord = 0))
  let h ← gcMakeRoom h bytes
  match findYoung h bytes with
  | some obj => gcBreakYoung h obj bytes
  | none =>
    if bytes < 0 then .error .wildWrite
    else gcAllocateOld { h with nextFree := 0 } bytes.toNat

def cellBytes (words : Nat) (payloadSize : Int) : Int :=
  words * sizeofWord + (payloadSize + (sizeofWord - 1 : Nat)) / sizeofWord * sizeofWord

def heapAllocateWithPayload (h : Heap) (words : Nat) (payloadSize : Int) :
    Except Halt (Heap × Nat) := do
  let (h, o) ← gcAllocate h (cellBytes words payloadSize)
  require (decide (headerSizeWords + 1 ≤ words))
  let h := h.put o { h.mem o with
    format := typeByteArray, payloadSize := payloadSize, objectSize := words
    markbit := h.markColor, pinCount := 0 }
  require (!objectIsFree (h.mem o))
  .ok (h, o)

def heapAllocate (h : Heap) (words : Nat) : Except Halt (Heap × Nat) :=
  heapAllocateWithPayload h words 0

def heapPinObject (h : Heap) (x : Nat) : Except Halt Heap :=
  if oopIsSmallint x then .ok h
  else do
    require (decide ((h.mem x).hash < idHashReserved))
    let count := (h.mem x).pinCount
    require (decide (count ≠ pinnedMask))
    require (decide (count + 1 ≠ pinnedMask))
    .ok (h.put x { h.mem x with pinCount := count + 1 })

def heapUnpinObject (h : Heap) (x : Nat) : Heap :=
  if oopIsSmallint x then h
  else h.put x { h.mem x with pinCount := (h.mem x).pinCount - 1 }

/-- `copy_words_into` behind the headers: the words of `src` below `words` are copied. -/
def copyBehindHeader (h : Heap) (src dst words : Nat) : Except Halt Heap :=
  if objectWordSize (h.mem dst) < words then .error .wildWrite
  else .ok (h.put dst { h.mem dst with
    map := if headerSizeWords < words then (h.mem src).map else (h.mem dst).map
    word := fun k =>
      if headerSizeWords < k ∧ k < words then (h.mem src).word k else (h.mem dst).word k })

/-- `fill_words_with`: `n` words of `dst` from the word `start` on become `value`. -/
def fillWordsWith (h : Heap) (dst start : Nat) (n : Int) (value : Nat) : Except Halt Heap :=
  if n ≤ 0 then .ok h
  else if (objectWordSize (h.mem dst) : Int) < start + n then .error .wildWrite
  else .ok (h.put dst { h.mem dst with
    word := fun k => if start ≤ k ∧ (k : Int) < start + n then value else (h.mem dst).word k })

def objectSetFormat (h : Heap) (x : Nat) (type : Nat) : Heap :=
  h.put x { h.mem x with format := type }

def heapSetNewHash (h : Heap) (x : Nat) : Heap :=
  let (hash, h) := heapNewHash h
  h.put x { h.mem x with hash := hash }

def heapClone (h : Heap) (proto : Nat) : Except Halt (Heap × Nat) := do
  let h ← heapPinObject h proto
  let (h, newObj) ←
    if (h.mem proto).format = typeObject then heapAllocate h (h.mem proto).objectSize
    else heapAllocateWithPayload h (h.mem proto).objectSize (h.mem proto).payloadSize
  let h := objectSetFormat h newObj (h.mem proto).format
  let h := heapSetNewHash h newObj
  let h ← copyBehindHeader h proto newObj (objectWordSize (h.mem proto))
  .ok (heapUnpinObject h proto, newObj)

def heapCloneSized (h : Heap) (proto : Nat) (type : Nat) (payloadSize fill : Int) (value : Nat) :
    Except Halt (Heap × Nat) := do
  let (h, newObj) ← heapAllocateWithPayload h (h.mem proto).objectSize payloadSize
  let h := objectSetFormat h newObj type
  let h := heapSetNewHash h newObj
  let h ← copyBehindHeader h proto newObj (h.mem proto).objectSize
  let h ← fillWordsWith h newObj (h.mem proto).objectSize fill value
  .ok (h, newObj)

def heapCloneOopArraySized (h : Heap) (proto : Nat) (size : Int) : Except Halt (Heap × Nat) :=
  heapCloneSized h proto typeOopArray (toWord (size * sizeofWord)) size h.cached.nil

/-- `memset` takes its count as an unsigned word. -/
def heapCloneByteArraySized (h : Heap) (proto : Nat) (bytes : Int) : Except Halt (Heap × Nat) :=
  heapCloneSized h proto typeByteArray bytes
    ((bytes + (sizeofWord - 1 : Nat)) % 2 ^ 64 / sizeofWord) 0

def forwardMap (h : Heap) (o x y : Nat) : Except Halt Heap :=
  if (h.mem o).map = x then do
    let h ← heapStoreInto h o y
    .ok (h.put o { h.mem o with map := y })
  else .ok h

def objectForwardPointersTo (h : Heap) (o x y : Nat) : Except Halt Heap := do
  let h ← forwardMap h o x y
  (oopWords (h.mem o)).foldlM (fun h k =>
    if (h.mem o).word k = x then objectSlotValueAtOffsetPut h o k y else .ok h) h

def heapForwardFrom (h : Heap) (x y memory memorySize : Nat) : Except Halt Heap :=
  overCellsE (objectInMemory memory memorySize)
    (fun h o => if objectIsFree (h.mem o) then .ok h else objectForwardPointersTo h o x y)
    objectAfter memorySize h memory

def heapForward (h : Heap) (x y : Nat) : Except Halt Heap := do
  let h ← heapForwardFrom h x y h.memoryOld h.memoryOldSize
  let h ← heapForwardFrom h x y h.memoryYoung h.memoryYoungSize
  .ok (heapFreeObject h x)

/-- Both spaces have been obtained from the operating system, and the old one holds
what will be read from the image. -/
def heapInitialize (h : Heap) (size limit youngLimit specialOop nextHash : Nat) :
    Except Halt Heap := do
  let h := { h with
    memoryOldLimit := limit, memoryOldSize := size, memoryYoungSize := youngLimit
    rememberedOldObjects := ∅, doFullGCNext := true
    nextFree := h.memoryYoung, nextOldFree := h.memoryOld
    specialObjectsOop := h.memoryOld + specialOop, lastHash := nextHash
    markColor := true, markStack := [] }
  require (decide (headerSizeWords + 1 ≤ youngLimit / sizeofWord))
  .ok (heapMakeFreeSpace h h.nextFree (youngLimit / sizeofWord))

end SlateVm
