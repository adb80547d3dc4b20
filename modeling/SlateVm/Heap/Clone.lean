import SlateVm.Heap.Room

/-! The allocators that fill in what they allocate: the header of an array cell, and the
words of a clone. -/
namespace SlateVm
open Tiling

section Fill

variable {k g : Heap} {obj bytes : Nat}

theorem objectTotalSize_outline {o o' : Object} (same : o'.outline = o.outline) :
    objectTotalSize o' = objectTotalSize o := (congrArg objectTotalSize same :)

theorem objectIsFree_outline {o o' : Object} (same : o'.outline = o.outline) :
    objectIsFree o' = objectIsFree o := (congrArg objectIsFree same :)

theorem Fresh.store (f : Fresh k g obj bytes) {x : Object}
    (same : x.outline = (g.mem obj).outline) : Fresh k (g.put obj x) obj bytes :=
  f.put g.lastHash ((objectTotalSize_outline same).trans f.size)
    ((objectIsFree_outline same).trans f.live.2)

/-- The header of the new cell `obj`, ready to be filled in. -/
structure Header (g : Heap) (obj words : Nat) (payloadSize : Int) (type : Nat) : Prop where
  format : (g.mem obj).format = type
  objectSize : (g.mem obj).objectSize = words
  payloadSize : (g.mem obj).payloadSize = payloadSize

theorem Header.store {words type : Nat} {payloadSize : Int} (c : Header g obj words payloadSize type)
    {x : Object} (same : x.outline = (g.mem obj).outline) :
    Header (g.put obj x) obj words payloadSize type := by
  have format : x.format = (g.mem obj).format := (congrArg Object.format same :)
  have objectSize : x.objectSize = (g.mem obj).objectSize := (congrArg Object.objectSize same :)
  have payload : x.payloadSize = (g.mem obj).payloadSize := (congrArg Object.payloadSize same :)
  exact ⟨by simp [format, c.format], by simp [objectSize, c.objectSize],
    by simp [payload, c.payloadSize]⟩

theorem cellBytes_object (words : Nat) : cellBytes words 0 = (words * sizeofWord : Nat) := by
  simp [cellBytes, sizeofWord]

theorem objectTotalSize_array {o : Object} {words : Nat} {payloadSize : Int}
    (format : o.format ≠ typeObject) (size : o.objectSize = words)
    (payload : o.payloadSize = payloadSize) :
    objectTotalSize o = (cellBytes words payloadSize).toNat := by
  rw [objectTotalSize, objectWordSize, if_neg format, size, payload, cellBytes]
  simp only [sizeofWord]
  omega

end Fill

section Allocate

variable {h : Heap}

theorem heapAllocateWithPayload_spec (s : Sound h) (words : Nat) (payloadSize : Int) :
    (∃ k g obj, gcMakeRoom h (cellBytes words payloadSize) = .ok k ∧
      heapAllocateWithPayload h words payloadSize = .ok (g, obj) ∧
      Fresh k g obj (cellBytes words payloadSize).toNat ∧
      Header g obj words payloadSize typeByteArray ∧ minCell ≤ cellBytes words payloadSize) ∨
      heapAllocateWithPayload h words payloadSize = .error .assertFailed := by
  rw [heapAllocateWithPayload]
  rcases gcAllocate_spec s (cellBytes words payloadSize) with
    ⟨k, g, obj, room, run, fresh, least⟩ | fails
  swap
  · exact Or.inr (by rw [fails]; rfl)
  by_cases enough : headerSizeWords + 1 ≤ words
  swap
  · exact Or.inr (by simp [run, require, enough, bind, Except.bind])
  let x : Object := { g.mem obj with
    format := typeByteArray, payloadSize := payloadSize, objectSize := words
    markbit := g.markColor, pinCount := 0 }
  have used : objectIsFree x = false := fresh.live.2
  have size : objectTotalSize x = (cellBytes words payloadSize).toNat :=
    objectTotalSize_array (fun object : typeByteArray = typeObject => absurd object (by decide))
      rfl rfl
  refine Or.inl ⟨k, g.put obj x, obj, room, ?_, fresh.put g.lastHash size used, ?_, least⟩
  · have atObj : objectIsFree ((g.put obj x).mem obj) = false := by simpa using used
    have passed : require (!objectIsFree ((g.put obj x).mem obj)) = .ok () := by rw [atObj]; rfl
    simp only [run, enough, decide_true, bind, Except.bind]
    simp only [x] at passed
    simp only [passed]
    rfl
  · exact ⟨by simp [x], by simp [x], by simp [x]⟩

theorem Fresh.named {k g : Heap} {obj words : Nat} {payloadSize : Int}
    (f : Fresh k g obj (cellBytes words payloadSize).toNat)
    (c : Header g obj words payloadSize typeByteArray) (type : Nat)
    (size : type = typeObject → payloadSize = 0) :
    Fresh k (heapSetNewHash (objectSetFormat g obj type) obj) obj
      (cellBytes words payloadSize).toNat ∧
    Header (heapSetNewHash (objectSetFormat g obj type) obj) obj words payloadSize type := by
  have hash := heapNewHash_lt (objectSetFormat g obj type)
  have shape : heapSetNewHash (objectSetFormat g obj type) obj =
      { g with lastHash := (heapNewHash (objectSetFormat g obj type)).2.lastHash }.put obj
        { g.mem obj with format := type, hash := (heapNewHash (objectSetFormat g obj type)).1 } := by
    simp only [heapSetNewHash, objectSetFormat, heapNewHash, Heap.put, Heap.mk.injEq, and_true]
    funext a
    by_cases here : a = obj
    · subst here; simp
    · simp [here]
  rw [shape]
  refine ⟨f.put _ ?_ (by simpa [objectIsFree] using hash), ⟨by simp, by simp [c.objectSize],
    by simp [c.payloadSize]⟩⟩
  by_cases object : type = typeObject
  · rw [objectTotalSize, objectWordSize, if_pos object]
    simp only [c.objectSize, size object, cellBytes_object]
    rfl
  · exact objectTotalSize_array object c.objectSize c.payloadSize

theorem heapCloneSized_spec (s : Sound h) {proto type value : Nat} {payloadSize fill : Int}
    (array : type ≠ typeObject) (live : Live h proto)
    (fits : cellBytes (h.mem proto).objectSize payloadSize < minCell ∨
      (0 ≤ (payloadSize + 7) / 8 ∧ fill ≤ (payloadSize + 7) / 8) ∧
        Steady h proto (cellBytes (h.mem proto).objectSize payloadSize)) :
    (∃ k g obj, gcMakeRoom h (cellBytes (h.mem proto).objectSize payloadSize) = .ok k ∧
      heapCloneSized h proto type payloadSize fill value = .ok (g, obj) ∧
      Fresh k g obj (cellBytes (h.mem proto).objectSize payloadSize).toNat) ∨
      heapCloneSized h proto type payloadSize fill value = .error .assertFailed := by
  rw [heapCloneSized]
  rcases heapAllocateWithPayload_spec s (h.mem proto).objectSize payloadSize with
    ⟨k, g, obj, room, run, fresh, header, least⟩ | fails
  swap
  · exact Or.inr (by rw [fails]; rfl)
  obtain ⟨⟨payload, filled⟩, steady⟩ := fits.resolve_left (by omega)
  obtain ⟨fresh, header⟩ := fresh.named header type fun object => absurd object array
  simp only [run, bind, Except.bind]
  generalize heapSetNewHash (objectSetFormat g obj type) obj = g₁ at fresh header
  obtain ⟨live, same⟩ := steady.keeps s live room
  have size : (k.mem proto).objectSize = (h.mem proto).objectSize :=
    (congrArg Object.objectSize same :)
  have protoSize : (g₁.mem proto).objectSize = (h.mem proto).objectSize := by
    rw [(fresh.keeps proto live).2, size]
  have words : objectWordSize (g₁.mem obj) =
      ((h.mem proto).objectSize + (payloadSize + 7) / 8).toNat := by
    rw [objectWordSize, header.format, if_neg array, header.objectSize, header.payloadSize]
    rfl
  refine Or.inl ⟨k, ?_⟩
  have copy : ∃ x, copyBehindHeader g₁ proto obj (g₁.mem proto).objectSize = .ok (g₁.put obj x) ∧
      x.outline = (g₁.mem obj).outline := by
    refine ⟨_, if_neg ?_, rfl⟩
    rw [words, protoSize]
    omega
  obtain ⟨x, copied, same⟩ := copy
  have fresh₂ := fresh.store same
  have header₂ := header.store same
  simp only [copied]
  have sizes : ((g₁.put obj x).mem proto).objectSize = (h.mem proto).objectSize := by
    rw [← protoSize]
    simp [fresh.new live]
  rw [sizes]
  by_cases nothing : fill ≤ 0
  · exact ⟨g₁.put obj x, obj, room, by simp [fillWordsWith, nothing], fresh₂⟩
  · have bound : ¬(objectWordSize ((g₁.put obj x).mem obj) : Int) <
        (h.mem proto).objectSize + fill := by
      have whole : objectWordSize ((g₁.put obj x).mem obj) = objectWordSize (g₁.mem obj) := by
        rw [put_mem, if_pos rfl]
        exact (congrArg objectWordSize same :)
      rw [whole, words]
      omega
    let y : Object := { (g₁.put obj x).mem obj with
      word := fun k => if (h.mem proto).objectSize ≤ k ∧ (k : Int) < (h.mem proto).objectSize + fill
        then value else ((g₁.put obj x).mem obj).word k }
    have same : y.outline = ((g₁.put obj x).mem obj).outline := rfl
    refine ⟨(g₁.put obj x).put obj y, obj, room, ?_, fresh₂.store same⟩
    simp only [fillWordsWith, if_neg nothing, if_neg bound]
    rfl

end Allocate

section Pin

variable {h k g : Heap}

def withPins (h : Heap) (x n : Nat) : Heap := h.put x { h.mem x with pinCount := n }

theorem heapUnpinObject_eq {x : Nat} (even : oopIsSmallint x = false) :
    heapUnpinObject h x = withPins h x ((h.mem x).pinCount - 1) := by
  rw [heapUnpinObject, if_neg (by simp [even])]
  rfl

theorem heapPinObject_spec {x : Nat} (even : oopIsSmallint x = false) :
    heapPinObject h x = .ok (withPins h x ((h.mem x).pinCount + 1)) ∨
      heapPinObject h x = .error .assertFailed := by
  rw [heapPinObject, if_neg (by simp [even])]
  by_cases live : (h.mem x).hash < idHashReserved
  swap
  · exact Or.inr (by simp [require, live, bind, Except.bind])
  by_cases full : (h.mem x).pinCount ≠ pinnedMask
  swap
  · exact Or.inr (by simp [require, live, full, bind, Except.bind])
  by_cases last : (h.mem x).pinCount + 1 ≠ pinnedMask
  · exact Or.inl (by simp [require, live, full, last, bind, Except.bind, withPins])
  · exact Or.inr (by simp [require, live, full, last, bind, Except.bind])

variable {x n : Nat}

theorem withPins_extent : extent (withPins h x n).mem = extent h.mem := by
  funext a
  by_cases here : a = x
  · subst here; simp [withPins, extent, objectTotalSize, objectWordSize]
  · simp [withPins, extent, here]

theorem withPins_isFree (a : Nat) : isFree (withPins h x n) a = isFree h a :=
  isFree_put { h.mem x with pinCount := n } rfl a

theorem withPins_live (a : Nat) : Live (withPins h x n) a ↔ Live h a := by
  have old : oldCells (withPins h x n) = oldCells h := by
    simp only [oldCells, cellsOf, withPins_extent]; rfl
  have young : youngCells (withPins h x n) = youngCells h := by
    simp only [youngCells, cellsOf, withPins_extent]; rfl
  rw [Live, Live, old, young, withPins_isFree]

theorem Sound.withPins (s : Sound h) : Sound (withPins h x n) :=
  s.reshape withPins_extent (fun a free => (withPins_isFree a).trans free) rfl ⟨rfl, rfl⟩

theorem Guarded.withPins {ts : List Nat} (guarded : Guarded ts h) :
    Guarded ts (withPins h x n) := by
  have cells : oldCells (SlateVm.withPins h x n) = oldCells h := by
    simp only [oldCells, cellsOf, withPins_extent]; rfl
  have points : ∀ a, pointsToYoung (SlateVm.withPins h x n) a = pointsToYoung h a := by
    intro a
    by_cases here : a = x
    · subst here
      simp only [pointsToYoung, SlateVm.withPins, put_mem, if_true]
      rfl
    · simp only [pointsToYoung, SlateVm.withPins, put_mem, if_neg here]
      rfl
  refine ⟨guarded.aligned, fun a hash => ?_, fun a ha live young => ?_⟩
  · have young : ∀ v, objectIsYoung (SlateVm.withPins h x n) v = objectIsYoung h v := fun v => rfl
    rw [young]
    by_cases here : a = x
    · subst here
      simp only [SlateVm.withPins, put_mem, if_true] at hash ⊢
      exact guarded.forwards a hash
    · simp only [SlateVm.withPins, put_mem, if_neg here] at hash ⊢
      exact guarded.forwards a hash
  · rw [cells] at ha
    rw [points] at young
    exact guarded.barrier a ha ((withPins_isFree a).symm.trans live) young

theorem Fresh.withPins {obj bytes : Nat} (f : Fresh k g obj bytes) (live : Live k x) :
    Fresh (withPins k x n) (withPins g x n) obj bytes := by
  refine ⟨f.sound.withPins, (withPins_live obj).mpr f.live,
    (congrFun withPins_extent obj).trans f.size, fun a here => ?_, fun a here => ?_,
    fun a here => ?_, fun guarded => ?_, ?_⟩
  · rw [withPins_extent]
    exact f.apart a ((withPins_live a).mp here)
  · have kept := f.keeps a ((withPins_live a).mp here)
    refine ⟨(withPins_live a).mpr kept.1, ?_⟩
    simp only [SlateVm.withPins, put_mem, kept.2, (f.keeps x live).2]
  · exact (f.only a ((withPins_live a).mp here)).imp id (withPins_live a).mpr
  · have back : SlateVm.withPins (SlateVm.withPins k x n) x (k.mem x).pinCount = k := by
      simp only [SlateVm.withPins, put_put, put_mem, if_true]
      exact put_self k x
    have before : Guarded [] k := by
      have again := guarded.withPins (x := x) (n := (k.mem x).pinCount)
      rwa [back] at again
    exact (f.guarded before).withPins
  · obtain ⟨_, _, _, _, _, rfl⟩ := f.others
    exact ⟨_, _, _, _, _, rfl⟩

end Pin

/-- The allocation has made room in `h` and taken the cell `obj`. -/
def Allocated (h g : Heap) (obj : Nat) : Prop :=
  ∃ k bytes, Room h k ∧ Fresh k g obj bytes ∧ (Guarded [] h → Guarded [] k)

section Clone

variable {h : Heap}

def clonePayload (o : Object) : Int := if o.format = typeObject then 0 else o.payloadSize

theorem objectTotalSize_clone (o : Object) :
    objectTotalSize o = (cellBytes o.objectSize (clonePayload o)).toNat := by
  by_cases object : o.format = typeObject
  · rw [clonePayload, if_pos object, cellBytes_object, objectTotalSize, objectWordSize,
      if_pos object]
    rfl
  · exact objectTotalSize_array object rfl (if_neg object).symm

theorem heapClone_eq (h : Heap) (proto : Nat) :
    heapClone h proto = (heapPinObject h proto >>= fun h =>
      heapAllocateWithPayload h (h.mem proto).objectSize (clonePayload (h.mem proto)) >>= fun r =>
      let h := heapSetNewHash (objectSetFormat r.1 r.2 (r.1.mem proto).format) r.2
      copyBehindHeader h proto r.2 (objectWordSize (h.mem proto)) >>= fun h =>
      .ok (heapUnpinObject h proto, r.2)) := by
  rw [heapClone]
  refine congrArg (heapPinObject h proto >>= ·) (funext fun h => ?_)
  by_cases object : (h.mem proto).format = typeObject
  · rw [clonePayload, if_pos object, if_pos object]
    rfl
  · rw [clonePayload, if_neg object, if_neg object]

theorem heapClone_spec (s : Sound h) {proto : Nat} (live : Live h proto) :
    (∃ g obj, heapClone h proto = .ok (g, obj) ∧ Allocated h g obj) ∨
      heapClone h proto = .error .assertFailed := by
  have even := s.live_even live
  rw [heapClone_eq]
  rcases heapPinObject_spec (h := h) even with pin | fails
  swap
  · exact Or.inr (by rw [fails]; rfl)
  simp only [pin, bind, Except.bind]
  have s₁ : Sound (withPins h proto ((h.mem proto).pinCount + 1)) := s.withPins
  have live₁ : Live (withPins h proto ((h.mem proto).pinCount + 1)) proto :=
    (withPins_live proto).mpr live
  have guarded₁ : Guarded [] h → Guarded [] (withPins h proto ((h.mem proto).pinCount + 1)) :=
    fun g => g.withPins
  have pinned : Pinned (withPins h proto ((h.mem proto).pinCount + 1)) proto := by
    have hash := hash_lt_of_live live.2
    simp [Pinned, isPinnedObject, objectIsPinned, withPins, hash]
  generalize withPins h proto ((h.mem proto).pinCount + 1) = h₁ at pin s₁ live₁ guarded₁ pinned
  rcases heapAllocateWithPayload_spec s₁ (h₁.mem proto).objectSize (clonePayload (h₁.mem proto)) with
    ⟨k, g, obj, room, run, fresh, header, -⟩ | fails
  swap
  · exact Or.inr (by rw [fails])
  obtain ⟨kept, roomed, -⟩ := gcMakeRoom_ok s₁ room
  obtain ⟨liveK, sameK⟩ := kept.keeps proto live₁ pinned
  simp only [run]
  have protoG : g.mem proto = k.mem proto := (fresh.keeps proto liveK).2
  have ne := fresh.new liveK
  have format : (g.mem proto).format = (h₁.mem proto).format := by
    rw [protoG]; exact (congrArg Object.format sameK :)
  rw [format]
  obtain ⟨fresh, header⟩ := fresh.named header (h₁.mem proto).format
    fun object => if_pos object
  generalize heapSetNewHash (objectSetFormat g obj (h₁.mem proto).format) obj = g₁ at fresh header
  have protoG : g₁.mem proto = k.mem proto := (fresh.keeps proto liveK).2
  have words : objectWordSize (g₁.mem obj) = objectWordSize (g₁.mem proto) := by
    have whole : objectTotalSize (g₁.mem obj) = objectTotalSize (g₁.mem proto) := by
      rw [show objectTotalSize (g₁.mem obj) = _ from fresh.size, ← objectTotalSize_clone, protoG]
      exact (objectTotalSize_outline sameK).symm
    simp only [objectTotalSize, sizeofWord] at whole
    omega
  have copy : ∃ x, copyBehindHeader g₁ proto obj (objectWordSize (g₁.mem proto)) =
      .ok (g₁.put obj x) ∧ x.outline = (g₁.mem obj).outline :=
    ⟨_, if_neg (by rw [words]; omega), rfl⟩
  obtain ⟨x, copied, same⟩ := copy
  simp only [copied]
  have fresh₂ := fresh.store same
  have pins : ((g₁.put obj x).mem proto).pinCount = (k.mem proto).pinCount := by
    rw [(fresh₂.keeps proto liveK).2]
  have fresh₃ := fresh₂.withPins (n := (k.mem proto).pinCount - 1) liveK
  rw [← heapUnpinObject_eq even, ← pins, ← heapUnpinObject_eq even] at fresh₃
  refine Or.inl ⟨_, obj, rfl, heapUnpinObject k proto, _, .pinned pin roomed, fresh₃,
    fun guarded => ?_⟩
  rw [heapUnpinObject_eq even]
  exact (kept.guarded (guarded₁ guarded)).withPins

end Clone

end SlateVm
