import SlateVm.Heap.Young

/-! First fit finds a free cell, and breaking it keeps the tiling of the space. -/
namespace SlateVm
open Tiling

def Boundary (mem : Nat → Object) (memory memorySize obj : Nat) : Prop :=
  ∃ ds, Tiles (extent mem) obj (memory + memorySize) ds ∧ ∀ d ∈ ds, d ∈ cellsOf mem memory memorySize

section Boundary

variable {mem : Nat → Object} {memory memorySize obj : Nat}

theorem Tiled.boundary (t : Tiled mem memory memorySize)
    (here : obj ∈ cellsOf mem memory memorySize) : Boundary mem memory memorySize obj := by
  obtain ⟨front, back, split⟩ := List.append_of_mem here
  have whole := t.tiles
  rw [split] at whole
  obtain ⟨-, pos, rest⟩ := whole.cut
  refine ⟨obj :: back, .cons pos rest, fun d hd => ?_⟩
  rw [split]
  exact List.mem_append_right _ hd

theorem Tiled.boundary_start (t : Tiled mem memory memorySize) :
    Boundary mem memory memorySize memory := ⟨_, t.tiles, fun _ hd => hd⟩

end Boundary

theorem heapFindFirstFree_spec {h : Heap} {memory memorySize bytes fuel obj found : Nat}
    (start : Boundary h.mem memory memorySize obj)
    (hit : heapFindFirstFree h memory memorySize bytes fuel obj = some found) :
    found ∈ cellsOf h.mem memory memorySize ∧ isFree h found = true ∧
      bytes ≤ extent h.mem found := by
  induction fuel generalizing obj with
  | zero => cases hit
  | succ fuel ih =>
    obtain ⟨ds, tiles, sub⟩ := start
    rw [heapFindFirstFree] at hit
    split at hit
    · rename_i inside
      have inside := objectInMemory_iff.mp inside
      cases tiles with
      | nil => omega
      | @cons _ _ ds pos rest =>
        split at hit
        · rename_i fits
          simp only [Bool.and_eq_true, decide_eq_true_eq] at fits
          cases hit
          exact ⟨sub _ (List.mem_cons_self ..), fits.1, fits.2⟩
        · exact ih ⟨ds, rest, fun d hd => sub d (List.mem_cons_of_mem _ hd)⟩ hit
    · cases hit

/-- What using `bytes` at `obj` does to the cells of a space: the other objects stay
as they were, and every other cell is free or was there before. -/
structure Carved (mem mem' : Nat → Object) (memory size size' bytes obj : Nat) : Prop where
  cell : obj ∈ cellsOf mem' memory size'
  extent : extent mem' obj = bytes
  used : objectIsFree (mem' obj) = false
  fresh : (obj ∈ cellsOf mem memory size ∧ objectIsFree (mem obj) = true) ∨ obj = memory + size
  tiled : Tiled mem' memory size'
  keeps : ∀ a ∈ cellsOf mem memory size, objectIsFree (mem a) = false →
    a ∈ cellsOf mem' memory size' ∧ mem' a = mem a
  only : ∀ a ∈ cellsOf mem' memory size', a = obj ∨ objectIsFree (mem' a) = true ∨
    (a ∈ cellsOf mem memory size ∧ objectIsFree (mem a) = false)
  away : ∀ x, x < memory ∨ memory + size' ≤ x → mem' x = mem x
  headers : ∀ x, mem' x = mem x ∨ (mem' x).hash ≠ idHashForwarded
  hole : size' = size → ∃ c ∈ cellsOf mem' memory size', objectIsFree (mem' c) = true

section Make

variable {h : Heap} {obj words : Nat}

theorem heapMakeUsedSpace_mem : (heapMakeUsedSpace h obj words).mem =
    fun x => if x = obj then { h.mem obj with
      format := typeObject, objectSize := words, payloadSize := 0, map := 0
      hash := (heapNewHash (heapMakeFreeSpace h obj words)).1 } else h.mem x := by
  funext x
  by_cases here : x = obj
  · subst here; simp [heapMakeUsedSpace, heapMakeFreeSpace, heapNewHash]
  · simp [heapMakeUsedSpace, heapMakeFreeSpace, heapNewHash, here]

@[simp] theorem heapMakeUsedSpace_extent :
    extent (heapMakeUsedSpace h obj words).mem obj = words * sizeofWord := by
  simp [heapMakeUsedSpace_mem, extent, objectTotalSize, objectWordSize]

@[simp] theorem heapMakeUsedSpace_used :
    objectIsFree ((heapMakeUsedSpace h obj words).mem obj) = false := by
  have hash := heapNewHash_lt (heapMakeFreeSpace h obj words)
  simpa [heapMakeUsedSpace_mem, objectIsFree] using hash

theorem used_notForwarded {o : Object} (used : objectIsFree o = false) :
    o.hash ≠ idHashForwarded := by
  intro hash
  simp [objectIsFree, hash, idHashForwarded] at used

theorem heapMakeUsedSpace_other {x : Nat} (ne : x ≠ obj) :
    (heapMakeUsedSpace h obj words).mem x = h.mem x := by
  simp [heapMakeUsedSpace_mem, ne]

end Make

section Break

variable (h : Heap) (obj words : Nat)

theorem breakFreeSpace_eq : breakFreeSpace h obj words =
    heapMakeFreeSpace (heapMakeUsedSpace h obj words) (obj + words * sizeofWord)
      (objectWordSize (h.mem obj) - words) := by
  have after : objectAfter (heapMakeUsedSpace h obj words) obj = obj + words * sizeofWord :=
    congrArg (obj + ·) heapMakeUsedSpace_extent
  rw [breakFreeSpace, after]

theorem breakFreeSpace_others : ∃ mem hash, breakFreeSpace h obj words =
    { h with mem := mem, lastHash := hash } := ⟨_, _, rfl⟩

end Break

theorem breakFreeSpace_carved {h : Heap} {memory memorySize obj words : Nat}
    (t : Tiled h.mem memory memorySize) (here : obj ∈ cellsOf h.mem memory memorySize)
    (free : isFree h obj = true) (least : headerSizeWords + 1 ≤ words)
    (room : words * sizeofWord + sizeofObject ≤ extent h.mem obj) :
    Carved h.mem (breakFreeSpace h obj words).mem memory memorySize memorySize
      (words * sizeofWord) obj := by
  have enough : minCell ≤ words * sizeofWord := Nat.mul_le_mul_right sizeofWord least
  have whole : extent h.mem obj = objectWordSize (h.mem obj) * sizeofWord := rfl
  have cut := t.tiles.bounds obj here
  simp only [minCell, headerSizeWords, sizeofWord, sizeofObject] at enough room whole cut
  have equation := breakFreeSpace_eq h obj words
  generalize breakFreeSpace h obj words = g at equation ⊢
  let next := obj + words * sizeofWord
  have apart : obj ≠ next := by simp only [next, sizeofWord]; omega
  have first : g.mem obj = (heapMakeUsedSpace h obj words).mem obj := by
    rw [equation]; exact heapMakeFreeSpace_other apart
  have firstSize : extent g.mem obj = words * sizeofWord := by
    rw [extent, first]; exact heapMakeUsedSpace_extent
  have secondSize : extent g.mem next = extent h.mem obj - words * sizeofWord := by
    rw [equation, heapMakeFreeSpace_extent, Nat.sub_mul]; rfl
  have secondFree : objectIsFree (g.mem next) = true := by
    rw [equation]; exact heapMakeFreeSpace_free
  have others : ∀ x, x ≠ obj → x ≠ next → g.mem x = h.mem x := by
    intro x nobj nnext
    rw [equation, heapMakeFreeSpace_other nnext, heapMakeUsedSpace_other nobj]
  have distinct : ∀ c ∈ cellsOf h.mem memory memorySize, c ≠ obj → c ≠ next := by
    intro c hc ne
    have := t.tiles.apart hc here ne
    have := (t.tiles.bounds c hc).2.2
    simp only [next, sizeofWord]
    omega
  obtain ⟨front, back, split⟩ := List.append_of_mem here
  have unique := t.tiles.nodup
  rw [split] at unique
  have sub : ∀ d ∈ front ++ back, d ∈ cellsOf h.mem memory memorySize ∧ d ≠ obj := by
    intro d hd
    have hd' : d ∈ front ∨ d ∈ back := List.mem_append.mp hd
    refine ⟨?_, ?_⟩
    · rw [split]; simp only [List.mem_append, List.mem_cons]; tauto
    · rintro rfl
      exact (List.nodup_middle.mp unique).notMem hd
  have same : ∀ d ∈ front ++ back, g.mem d = h.mem d := fun d hd =>
    others d (sub d hd).2 (distinct d (sub d hd).1 (sub d hd).2)
  have tiles : Tiles (extent g.mem) memory (memory + memorySize) (front ++ obj :: next :: back) :=
    (split ▸ t.tiles).split (by simp only [sizeofWord]; omega) (by simp only [sizeofWord]; omega)
      firstSize secondSize fun d hd => congrArg objectTotalSize (same d hd)
  have cells : cellsOf g.mem memory memorySize = front ++ obj :: next :: back := cellsOf_eq tiles
  have member : ∀ d, d ∈ front ++ obj :: next :: back ↔ d = obj ∨ d = next ∨ d ∈ front ++ back := by
    intro d
    simp only [List.mem_append, List.mem_cons]
    tauto
  have secondHash : (g.mem next).hash = idHashFree := by
    rw [equation]; exact heapMakeFreeSpace_hash
  refine ⟨?_, firstSize, ?_, Or.inl ⟨here, free⟩, .of tiles ?_, ?_, ?_, ?_, ?_, ?_⟩
  · rw [cells, member]; exact Or.inl rfl
  · rw [first]; exact heapMakeUsedSpace_used
  · intro d hd
    rcases (member d).mp hd with rfl | rfl | hd
    · rw [firstSize]; simp only [minCell, headerSizeWords, sizeofWord]; omega
    · rw [secondSize]; simp only [minCell, headerSizeWords, sizeofWord]; omega
    · rw [extent, same d hd]; exact t.least d (sub d hd).1
  · intro a ha live
    have ne : a ≠ obj := by rintro rfl; rw [isFree, live] at free; cases free
    refine ⟨?_, others a ne (distinct a ha ne)⟩
    rw [cells, member]
    rw [split] at ha
    simp only [List.mem_append, List.mem_cons] at ha ⊢
    tauto
  · intro a ha
    rw [cells, member] at ha
    rcases ha with rfl | rfl | hd
    · exact Or.inl rfl
    · exact Or.inr (Or.inl secondFree)
    · rw [same a hd]
      cases f : objectIsFree (h.mem a) with
      | true => exact Or.inr (Or.inl rfl)
      | false => exact Or.inr (Or.inr ⟨(sub a hd).1, rfl⟩)
  · intro x out
    refine others x (by omega) ?_
    simp only [next, sizeofWord]
    omega
  · intro x
    by_cases at_obj : x = obj
    · subst at_obj
      rw [first]
      exact Or.inr (used_notForwarded heapMakeUsedSpace_used)
    · by_cases at_next : x = next
      · subst at_next
        rw [secondHash]
        exact Or.inr (by decide)
      · exact Or.inl (others x at_obj at_next)
  · intro _
    exact ⟨next, by rw [cells, member]; exact Or.inr (Or.inl rfl), secondFree⟩

theorem grow_carved {h : Heap} {memory memorySize words : Nat}
    (t : Tiled h.mem memory memorySize) (least : headerSizeWords + 1 ≤ words) :
    Carved h.mem (heapMakeUsedSpace h (memory + memorySize) words).mem memory memorySize
      (memorySize + words * sizeofWord) (words * sizeofWord) (memory + memorySize) := by
  have enough : minCell ≤ words * sizeofWord := Nat.mul_le_mul_right sizeofWord least
  simp only [minCell, headerSizeWords, sizeofWord] at enough
  have size : extent (heapMakeUsedSpace h (memory + memorySize) words).mem (memory + memorySize) =
      words * sizeofWord := heapMakeUsedSpace_extent
  have same : ∀ c ∈ cellsOf h.mem memory memorySize,
      (heapMakeUsedSpace h (memory + memorySize) words).mem c = h.mem c := by
    intro c hc
    have := t.tiles.bounds c hc
    exact heapMakeUsedSpace_other (by omega)
  have before : Tiles (extent (heapMakeUsedSpace h (memory + memorySize) words).mem) memory
      (memory + memorySize) (cellsOf h.mem memory memorySize) :=
    t.tiles.congr fun c hc => congrArg objectTotalSize (same c hc)
  have tiles := before.append (.single (by rw [size]; simp only [sizeofWord]; omega))
  rw [size, Nat.add_assoc] at tiles
  have cells := cellsOf_eq tiles
  refine ⟨?_, size, heapMakeUsedSpace_used, Or.inr rfl, .of tiles ?_, ?_, ?_, ?_, ?_, ?_⟩
  · rw [cells]; simp
  · intro d hd
    rcases List.mem_append.mp hd with hd | hd
    · rw [extent, same d hd]; exact t.least d hd
    · rw [List.mem_singleton.mp hd, size]; simp only [minCell, headerSizeWords, sizeofWord]; omega
  · intro a ha _
    exact ⟨by rw [cells]; exact List.mem_append_left _ ha, same a ha⟩
  · intro a ha
    rw [cells] at ha
    rcases List.mem_append.mp ha with ha | ha
    · rw [same a ha]
      cases f : objectIsFree (h.mem a) with
      | true => exact Or.inr (Or.inl rfl)
      | false => exact Or.inr (Or.inr ⟨ha, rfl⟩)
    · exact Or.inl (List.mem_singleton.mp ha)
  · intro x out
    simp only [sizeofWord] at out
    exact heapMakeUsedSpace_other (by omega)
  · intro x
    by_cases last : x = memory + memorySize
    · subst last; exact Or.inr (used_notForwarded heapMakeUsedSpace_used)
    · exact Or.inl (heapMakeUsedSpace_other last)
  · intro none
    simp only [sizeofWord] at none
    omega

theorem gcAllocateOld_spec {h : Heap} (bytes : Nat) (t : Tiled h.mem h.memoryOld h.memoryOldSize)
    (next : objectIsOld h h.nextOldFree = true →
      Boundary h.mem h.memoryOld h.memoryOldSize h.nextOldFree) :
    (∃ mem size hash obj, gcAllocateOld h bytes = .ok ({ h with
        mem := mem, memoryOldSize := size, lastHash := hash, nextOldFree := obj }, obj) ∧
      Carved h.mem mem h.memoryOld h.memoryOldSize size bytes obj ∧
      bytes % sizeofWord = 0 ∧ minCell ≤ bytes ∧
      (size = h.memoryOldSize ∨ size = h.memoryOldSize + bytes ∧ size < h.memoryOldLimit)) ∨
    gcAllocateOld h bytes = .error .assertFailed ∧
      (bytes % sizeofWord ≠ 0 ∨ bytes < minCell ∨ h.memoryOldLimit ≤ h.memoryOldSize + bytes) := by
  rw [gcAllocateOld]
  by_cases whole : bytes % sizeofWord = 0
  swap
  · exact Or.inr ⟨by simp [require, whole, bind, Except.bind], Or.inl whole⟩
  by_cases least : headerSizeWords + 1 ≤ bytes / sizeofWord
  swap
  · refine Or.inr ⟨by simp [require, whole, least, bind, Except.bind], Or.inr (Or.inl ?_)⟩
    simp only [minCell, headerSizeWords, sizeofWord] at least whole ⊢
    omega
  have exactly : bytes / sizeofWord * sizeofWord = bytes := by
    simp only [sizeofWord] at whole ⊢; omega
  have enough : minCell ≤ bytes := by
    rw [← exactly]; exact Nat.mul_le_mul_right sizeofWord least
  simp only [whole, least, require, decide_true, if_true, bind, Except.bind]
  have start : Boundary h.mem h.memoryOld h.memoryOldSize
      (if objectInMemory h.memoryOld h.memoryOldSize h.nextOldFree = true then h.nextOldFree
        else h.memoryOld) := by
    split
    · rename_i inside; exact next inside
    · exact t.boundary_start
  cases search : heapFindFirstOldFree h (if objectInMemory h.memoryOld h.memoryOldSize
      h.nextOldFree = true then h.nextOldFree else h.memoryOld) (bytes + sizeofObject) with
  | some obj =>
    obtain ⟨here, free, room⟩ := heapFindFirstFree_spec start search
    have carved := breakFreeSpace_carved (h := { h with nextOldFree := obj }) t here free least
      (by rw [exactly]; exact room)
    rw [exactly] at carved
    exact Or.inl ⟨_, _, _, _, rfl, carved, trivial, enough, Or.inl rfl⟩
  | none =>
    by_cases room : h.memoryOldSize + bytes < h.memoryOldLimit
    · have carved := grow_carved
        (h := { h with nextOldFree := h.memoryOld + h.memoryOldSize }) t least
      rw [exactly] at carved
      simp only [room, decide_true, if_true]
      exact Or.inl ⟨_, _, _, _, rfl, carved, trivial, enough, Or.inr ⟨rfl, room⟩⟩
    · refine Or.inr ⟨by simp [room], Or.inr (Or.inr (by omega))⟩

end SlateVm
