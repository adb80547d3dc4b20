import SlateVm.Heap.Collect

/-! Cells, live objects and the parts of a heap that marking leaves alone. -/
namespace SlateVm
open Tiling

theorem heapNewHash_lt (h : Heap) : (heapNewHash h).1 < idHashReserved := by
  have next : ∀ k < 16, (13849 + 27181 * (idHashReserved + k)) % (idHashMax + 1) < idHashReserved := by
    decide
  have step : ∀ last, nextLastHash last % (idHashMax + 1)
      = (13849 + 27181 * (last % (idHashMax + 1))) % (idHashMax + 1) := by
    intro last
    simp only [nextLastHash, idHashMax, idHashFree]
    omega
  simp only [heapNewHash]
  split
  · rename_i reserved
    have below : nextLastHash h.lastHash % (idHashMax + 1) < idHashMax + 1 :=
      Nat.mod_lt _ (by decide)
    have hk : nextLastHash h.lastHash % (idHashMax + 1) - idHashReserved < 16 := by
      simp only [idHashMax, idHashFree, idHashReserved] at *
      omega
    have := next _ hk
    rwa [Nat.add_sub_cancel' reserved, ← step] at this
  · omega

def cellsOf (mem : Nat → Object) (memory memorySize : Nat) : List Nat :=
  walk (extent mem) (memory + memorySize) memorySize memory

def minCell : Nat := (headerSizeWords + 1) * sizeofWord

/-- Stepping with `objectAfter` meets cells of legal size and ends at the end. -/
structure Tiled (mem : Nat → Object) (memory memorySize : Nat) : Prop where
  tiles : Tiles (extent mem) memory (memory + memorySize) (cellsOf mem memory memorySize)
  least : ∀ c ∈ cellsOf mem memory memorySize, minCell ≤ extent mem c

instance (mem : Nat → Object) (memory memorySize : Nat) :
    Decidable (Tiled mem memory memorySize) :=
  decidable_of_iff (Tiles (extent mem) memory (memory + memorySize) (cellsOf mem memory memorySize) ∧
    ∀ c ∈ cellsOf mem memory memorySize, minCell ≤ extent mem c)
    ⟨fun h => ⟨h.1, h.2⟩, fun h => ⟨h.tiles, h.least⟩⟩

theorem cellsOf_eq {mem : Nat → Object} {memory memorySize : Nat} {cs : List Nat}
    (t : Tiles (extent mem) memory (memory + memorySize) cs) :
    cellsOf mem memory memorySize = cs := walk_eq t (by omega)

theorem Tiled.of {mem : Nat → Object} {memory memorySize : Nat} {cs : List Nat}
    (t : Tiles (extent mem) memory (memory + memorySize) cs)
    (least : ∀ c ∈ cs, minCell ≤ extent mem c) : Tiled mem memory memorySize := by
  have same := cellsOf_eq t
  exact ⟨same.symm ▸ t, fun c hc => least c (same ▸ hc)⟩

theorem cellsOf_congr {mem mem' : Nat → Object} {memory memorySize : Nat}
    (t : Tiled mem memory memorySize)
    (same : ∀ c ∈ cellsOf mem memory memorySize, extent mem' c = extent mem c) :
    cellsOf mem' memory memorySize = cellsOf mem memory memorySize :=
  cellsOf_eq (t.tiles.congr same)

theorem Tiled.congr {mem mem' : Nat → Object} {memory memorySize : Nat}
    (t : Tiled mem memory memorySize)
    (same : ∀ c ∈ cellsOf mem memory memorySize, extent mem' c = extent mem c) :
    Tiled mem' memory memorySize :=
  .of (t.tiles.congr same) fun c hc => same c hc ▸ t.least c hc

def youngCells (h : Heap) : List Nat := cellsOf h.mem h.memoryYoung h.memoryYoungSize

def oldCells (h : Heap) : List Nat := cellsOf h.mem h.memoryOld h.memoryOldSize

def isFree (h : Heap) (a : Nat) : Bool := objectIsFree (h.mem a)

def Live (h : Heap) (a : Nat) : Prop :=
  (a ∈ oldCells h ∨ a ∈ youngCells h) ∧ isFree h a = false

instance (h : Heap) (a : Nat) : Decidable (Live h a) :=
  inferInstanceAs (Decidable ((a ∈ oldCells h ∨ a ∈ youngCells h) ∧ isFree h a = false))

def oops (h : Heap) (a : Nat) : List Nat := (h.mem a).map :: oopFields (h.mem a)

theorem objectInMemory_iff {memory memorySize a : Nat} :
    objectInMemory memory memorySize a = true ↔ memory ≤ a ∧ a < memory + memorySize := by
  simp [objectInMemory]

def Object.eraseMark (o : Object) : Object := { o with markbit := false }

theorem eraseMark_free {o o' : Object} (same : o'.eraseMark = o.eraseMark) :
    objectIsFree o' = objectIsFree o := (congrArg objectIsFree same :)

theorem eraseMark_extent {mem mem' : Nat → Object} {x : Nat}
    (same : (mem' x).eraseMark = (mem x).eraseMark) : extent mem' x = extent mem x :=
  (congrArg objectTotalSize same :)

def Heap.frame (h : Heap) : Heap :=
  { h with mem := fun a => (h.mem a).eraseMark, markStack := [] }

section Frame

variable {h h' : Heap}

theorem frame_mem (same : h'.frame = h.frame) (a : Nat) :
    (h'.mem a).eraseMark = (h.mem a).eraseMark := (congrFun (congrArg Heap.mem same) a :)

theorem frame_map (same : h'.frame = h.frame) (a : Nat) : (h'.mem a).map = (h.mem a).map :=
  (congrArg Object.map (frame_mem same a) :)

theorem frame_word (same : h'.frame = h.frame) (a : Nat) : (h'.mem a).word = (h.mem a).word :=
  (congrArg Object.word (frame_mem same a) :)

theorem frame_hash (same : h'.frame = h.frame) (a : Nat) : (h'.mem a).hash = (h.mem a).hash :=
  (congrArg Object.hash (frame_mem same a) :)

theorem frame_pinCount (same : h'.frame = h.frame) (a : Nat) :
    (h'.mem a).pinCount = (h.mem a).pinCount := (congrArg Object.pinCount (frame_mem same a) :)

theorem frame_oopWords (same : h'.frame = h.frame) (a : Nat) :
    oopWords (h'.mem a) = oopWords (h.mem a) := (congrArg oopWords (frame_mem same a) :)

theorem frame_extent (same : h'.frame = h.frame) : extent h'.mem = extent h.mem :=
  funext fun a => (congrArg objectTotalSize (frame_mem same a) :)

theorem frame_isOld (same : h'.frame = h.frame) (a : Nat) : objectIsOld h' a = objectIsOld h a :=
  (congrArg (fun g : Heap => objectIsOld g a) same :)

theorem frame_isYoung (same : h'.frame = h.frame) (a : Nat) :
    objectIsYoung h' a = objectIsYoung h a := (congrArg (fun g : Heap => objectIsYoung g a) same :)

theorem frame_memoryOld (same : h'.frame = h.frame) : h'.memoryOld = h.memoryOld :=
  (congrArg Heap.memoryOld same :)

theorem frame_memoryOldSize (same : h'.frame = h.frame) : h'.memoryOldSize = h.memoryOldSize :=
  (congrArg Heap.memoryOldSize same :)

theorem frame_memoryYoung (same : h'.frame = h.frame) : h'.memoryYoung = h.memoryYoung :=
  (congrArg Heap.memoryYoung same :)

theorem frame_memoryYoungSize (same : h'.frame = h.frame) :
    h'.memoryYoungSize = h.memoryYoungSize := (congrArg Heap.memoryYoungSize same :)

theorem frame_remembered (same : h'.frame = h.frame) :
    h'.rememberedOldObjects = h.rememberedOldObjects := (congrArg Heap.rememberedOldObjects same :)

theorem frame_getSpecial (same : h'.frame = h.frame) (i : Nat) : getSpecial h' i = getSpecial h i :=
  (congrArg (fun g : Heap => getSpecial g i) same :)

theorem frame_stackElement (same : h'.frame = h.frame) (i : Nat) :
    stackElement h' i = stackElement h i := (congrArg (fun g : Heap => stackElement g i) same :)

theorem frame_youngCells (same : h'.frame = h.frame) : youngCells h' = youngCells h := by
  simp only [youngCells, cellsOf, frame_extent same, frame_memoryYoung same,
    frame_memoryYoungSize same]

theorem frame_oldCells (same : h'.frame = h.frame) : oldCells h' = oldCells h := by
  simp only [oldCells, cellsOf, frame_extent same, frame_memoryOld same,
    frame_memoryOldSize same]

end Frame

end SlateVm
