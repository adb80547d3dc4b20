import SlateVm.Lib.Steps
import SlateVm.Heap.Allocate
import SlateVm.Heap.Young

/-! Stores: what they leave of a heap, and that they keep the old objects that hold
young pointers remembered. -/
namespace SlateVm
open Tiling Steps

def Object.outline (o : Object) : Object := { o with markbit := false, map := 0, word := fun _ => 0 }

def Heap.outline (h : Heap) : Heap :=
  { h with
    mem := fun a => (h.mem a).outline
    markColor := false, markStack := [], rememberedOldObjects := ∅ }

section Outline

variable {h h' : Heap}

theorem outline_mem (same : h'.outline = h.outline) (a : Nat) :
    (h'.mem a).outline = (h.mem a).outline := (congrFun (congrArg Heap.mem same) a :)

theorem outline_isFree (same : h'.outline = h.outline) (a : Nat) : isFree h' a = isFree h a :=
  (congrArg objectIsFree (outline_mem same a) :)

theorem outline_hash (same : h'.outline = h.outline) (a : Nat) :
    (h'.mem a).hash = (h.mem a).hash := (congrArg Object.hash (outline_mem same a) :)

theorem outline_extent (same : h'.outline = h.outline) : extent h'.mem = extent h.mem :=
  funext fun a => (congrArg objectTotalSize (outline_mem same a) :)

theorem outline_isYoung (same : h'.outline = h.outline) (a : Nat) :
    objectIsYoung h' a = objectIsYoung h a := (congrArg (fun g : Heap => objectIsYoung g a) same :)

theorem outline_oldCells (same : h'.outline = h.outline) : oldCells h' = oldCells h :=
  (congrArg oldCells same :)

theorem outline_youngCells (same : h'.outline = h.outline) : youngCells h' = youngCells h :=
  (congrArg youngCells same :)

theorem outline_live (same : h'.outline = h.outline) (a : Nat) : Live h' a ↔ Live h a := by
  simp only [Live, outline_oldCells same, outline_youngCells same, outline_isFree same]

def bounds (h : Heap) : Nat × Nat × Nat × Nat × Nat :=
  (h.memoryOld, h.memoryOldSize, h.memoryOldLimit, h.memoryYoung, h.memoryYoungSize)

theorem outline_bounds (same : h'.outline = h.outline) : bounds h' = bounds h :=
  (congrArg bounds same :)

theorem Spaces.outline (s : Spaces h) (same : h'.outline = h.outline) : Spaces h' := by
  have sizes := outline_bounds same
  simp only [bounds, Prod.mk.injEq] at sizes
  obtain ⟨old, oldSize, limit, young, youngSize⟩ := sizes
  constructor
  · rw [old, oldSize]
    exact s.old.congr fun c _ => congrFun (outline_extent same) c
  · rw [young, youngSize]
    exact s.young.congr fun c _ => congrFun (outline_extent same) c
  · rw [oldSize, limit]; exact s.limit
  · rw [old, limit, young, youngSize]; exact s.apart

theorem put_outline {o : Nat} {x : Object} (same : x.outline = (h.mem o).outline) :
    (h.put o x).outline = h.outline := by
  simp only [Heap.outline, Heap.put, Heap.mk.injEq, and_true]
  funext a
  by_cases here : a = o
  · subst here; simpa using same
  · simp [here]

end Outline

/-- Forwarding cells lead out of young space, old space starts at an even address, and
every old object that holds a young pointer is remembered or among the tenured `ts`. -/
structure Guarded (ts : List Nat) (h : Heap) : Prop where
  aligned : h.memoryOld % 2 = 0
  forwards : ∀ a, (h.mem a).hash = idHashForwarded → objectIsYoung h (h.mem a).map = false
  barrier : ∀ o ∈ oldCells h, isFree h o = false → pointsToYoung h o = true →
    o ∈ h.rememberedOldObjects ∨ o ∈ ts

def Stored (ts : List Nat) (h h' : Heap) : Prop :=
  h'.outline = h.outline ∧ h.rememberedOldObjects ⊆ h'.rememberedOldObjects ∧
    (Spaces h → Guarded ts h → Guarded ts h')

namespace Stored

variable {ts : List Nat}

theorem refl (h : Heap) : Stored ts h h := ⟨rfl, Finset.Subset.refl _, fun _ g => g⟩

theorem trans (a b c : Heap) (first : Stored ts a b) (second : Stored ts b c) : Stored ts a c :=
  ⟨second.1.trans first.1, first.2.1.trans second.2.1,
    fun s g => second.2.2 (s.outline first.1) (first.2.2 s g)⟩

end Stored

def Stores (ts : List Nat) (h : Heap) (r : Except Halt Heap) : Prop :=
  Keeps (Stored ts) (· = Halt.assertFailed) h r

section Store

variable {ts : List Nat} {h : Heap}

theorem stores_require (holds : Bool) (f : Except Halt Heap) (rest : Stores ts h f) :
    Stores ts h (require holds >>= fun _ => f) := by
  cases holds with
  | true => exact rest
  | false => exact .error rfl

theorem heapStoreInto_spec (h : Heap) (src dest : Nat) :
    (∃ remembered, heapStoreInto h src dest = .ok { h with rememberedOldObjects := remembered } ∧
      h.rememberedOldObjects ⊆ remembered ∧
      (oopIsSmallint dest = false → isFree h src = false) ∧
      (objectIsYoung h dest = true → objectIsOld h src = true → oopIsSmallint src = false →
        src ∈ remembered)) ∨
    heapStoreInto h src dest = .error .assertFailed := by
  have barrier : ∃ remembered, (if objectIsYoung h dest && objectIsOld h src then
        Except.ok (heapRememberOldObject h src) else .ok h : Except Halt Heap) =
      .ok { h with rememberedOldObjects := remembered } ∧
      h.rememberedOldObjects ⊆ remembered ∧
      (objectIsYoung h dest = true → objectIsOld h src = true → oopIsSmallint src = false →
        src ∈ remembered) := by
    by_cases hit : (objectIsYoung h dest && objectIsOld h src && !oopIsSmallint src) = true
    · simp only [Bool.and_eq_true, Bool.not_eq_true'] at hit
      refine ⟨insert src h.rememberedOldObjects, ?_, Finset.subset_insert .., fun _ _ _ =>
        Finset.mem_insert_self ..⟩
      simp [heapRememberOldObject, hit]
    · refine ⟨h.rememberedOldObjects, ?_, Finset.Subset.refl _, fun young old small =>
        absurd (by simp [young, old, small]) hit⟩
      cases young : objectIsYoung h dest <;> cases old : objectIsOld h src <;>
        cases small : oopIsSmallint src <;>
        simp [heapRememberOldObject, old, small]
      simp [young, old, small] at hit
  obtain ⟨remembered, run, more, known⟩ := barrier
  unfold heapStoreInto
  cases small : oopIsSmallint dest with
  | true =>
    refine Or.inl ⟨remembered, ?_, more, by simp, known⟩
    simpa [small] using run
  | false =>
    by_cases hd : (h.mem dest).hash < idHashReserved
    · by_cases hs : (h.mem src).hash < idHashReserved
      · refine Or.inl ⟨remembered, ?_, more, fun _ => by simp [isFree, objectIsFree, hs], known⟩
        simpa [require, hd, hs, bind, Except.bind] using run
      · exact Or.inr (by simp [require, hd, hs, bind, Except.bind])
    · exact Or.inr (by simp [require, hd, bind, Except.bind])

theorem Stored.put {o : Nat} {x : Object} {remembered : Finset Nat}
    (same : x.outline = (h.mem o).outline) (more : h.rememberedOldObjects ⊆ remembered)
    (forwards : (h.mem o).hash = idHashForwarded → Spaces h → Guarded ts h →
      objectIsYoung h x.map = false)
    (barrier : o ∈ oldCells h → isFree h o = false → Spaces h → Guarded ts h →
      pointsToYoung (h.put o x) o = true →
      pointsToYoung h o = true ∨ o ∈ remembered) :
    Stored ts h ({ h with rememberedOldObjects := remembered }.put o x) := by
  have outline : ({ h with rememberedOldObjects := remembered }.put o x).outline = h.outline :=
    put_outline (h := { h with rememberedOldObjects := remembered }) same
  refine ⟨outline, more, fun s g => ⟨g.aligned, fun a hash => ?_, fun a ha live points => ?_⟩⟩
  · rw [outline_hash outline] at hash
    rw [outline_isYoung outline]
    by_cases here : a = o
    · subst here
      simpa using forwards hash s g
    · simpa [here] using g.forwards a hash
  · rw [outline_oldCells outline] at ha
    rw [outline_isFree outline] at live
    by_cases here : a = o
    · subst here
      rcases barrier ha live s g points with before | known
      · exact (g.barrier a ha live before).imp (fun old => more old) id
      · exact Or.inl known
    · have before : pointsToYoung h a = true := by
        have unchanged : ({ h with rememberedOldObjects := remembered }.put o x).mem a = h.mem a := by
          simp [here]
        rw [← points]
        simp only [pointsToYoung, unchanged]
        rfl
      exact (g.barrier a ha live before).imp (fun old => more old) id

theorem pointsToYoung_setWord {o k v : Nat}
    (points : pointsToYoung (h.put o ((h.mem o).setWord k v)) o = true) :
    pointsToYoung h o = true ∨ objectIsYoung h v = true := by
  have range : ∀ a, objectIsYoung (h.put o ((h.mem o).setWord k v)) a = objectIsYoung h a :=
    fun a => rfl
  simp only [pointsToYoung, Bool.or_eq_true, List.any_eq_true, range] at points ⊢
  simp only [put_mem, if_true] at points
  rcases points with map | ⟨u, hu, young⟩
  · exact Or.inl (Or.inl map)
  · obtain ⟨j, hj, rfl⟩ := List.mem_map.mp hu
    by_cases here : j = k
    · subst here
      simp only [Object.setWord, if_true, Bool.and_eq_true] at young
      exact Or.inr young.2
    · have word : ((h.mem o).setWord k v).word j = (h.mem o).word j := by
        simp [Object.setWord, here]
      rw [word] at young
      exact Or.inl (Or.inr ⟨_, List.mem_map.mpr ⟨j, hj, rfl⟩, young⟩)

theorem objectSlotValueAtOffsetPut_stores (h : Heap) (o k value : Nat) :
    Stores ts h (objectSlotValueAtOffsetPut h o k value) := by
  unfold objectSlotValueAtOffsetPut
  rcases heapStoreInto_spec h o value with ⟨remembered, run, more, -, known⟩ | fails
  · rw [run]
    refine .ok (Stored.put rfl more (fun hash s g => g.forwards o hash) ?_)
    intro ho _ s g points
    refine (pointsToYoung_setWord points).imp id fun young => ?_
    exact known young (oldCells_isOld s.old ho) (oldCells_even s.old g.aligned ho)
  · rw [fails]
    exact .error rfl

theorem pointsToYoung_setMap {o m : Nat}
    (points : pointsToYoung (h.put o { h.mem o with map := m }) o = true) :
    pointsToYoung h o = true ∨ objectIsYoung h m = true := by
  simp only [pointsToYoung, Bool.or_eq_true] at points ⊢
  simp only [put_mem, if_true] at points
  rcases points with map | fields
  · exact Or.inr map
  · exact Or.inl (Or.inr fields)

end Store

section Update

variable {ts : List Nat} {h : Heap} {o : Nat}

theorem forwarded_notYoung (forwards : ∀ a, (h.mem a).hash = idHashForwarded →
    objectIsYoung h (h.mem a).map = false) (fuel m : Nat) :
    forwarded h fuel m = m ∨ objectIsYoung h (forwarded h fuel m) = false := by
  induction fuel generalizing m with
  | zero => exact Or.inl rfl
  | succ fuel ih =>
    rw [forwarded]
    split
    · rename_i hash
      rcases ih (h.mem m).map with same | old
      · rw [same]; exact Or.inr (forwards m hash)
      · exact Or.inr old
    · exact Or.inl rfl

theorem updateForwardedMap_stores (live : isFree h o = false) :
    Stores ts h (updateForwardedMap h o) := by
  unfold updateForwardedMap
  refine stores_require _ _ (.ok (Stored.put rfl (Finset.Subset.refl _) ?_ ?_))
  · intro hash
    simp [isFree, objectIsFree, hash, idHashForwarded] at live
  · intro _ _ _ g points
    rcases pointsToYoung_setMap points with before | young
    · exact Or.inl before
    · rcases forwarded_notYoung g.forwards (markFuel h) (h.mem o).map with same | old
      · rw [same] at young
        simp [pointsToYoung, young]
      · rw [young] at old; cases old

theorem updateForwardedField_stores (o k fuel : Nat) (h : Heap) :
    Stores ts h (updateForwardedField o k fuel h) := by
  induction fuel generalizing h with
  | zero => exact .ok (.refl h)
  | succ fuel ih =>
    rw [updateForwardedField]
    split
    · exact .ok (.refl h)
    · split
      · exact .bind Stored.trans (objectSlotValueAtOffsetPut_stores h o k _) fun h' _ => ih h'
      · exact stores_require _ _ (.ok (.refl h))

theorem updateForwardedObject_stores (h : Heap) (o : Nat) :
    Stores ts h (updateForwardedObject h o) := by
  unfold updateForwardedObject
  split
  · exact .ok (.refl h)
  · rename_i occupied
    have live : isFree h o = false := Bool.eq_false_iff.mpr occupied
    refine .bind Stored.trans (updateForwardedMap_stores live) fun h' _ => ?_
    exact .foldlM .refl Stored.trans _ h' fun k _ h'' _ =>
      updateForwardedField_stores o k (markFuel h) h''

theorem heapUpdateForwardedPointers_stores {memory memorySize : Nat}
    (t : Tiled h.mem memory memorySize) :
    Stores ts h (heapUpdateForwardedPointers h memory memorySize) :=
  .overCellsE .refl Stored.trans t.tiles (Nat.le_of_eq (Nat.add_sub_cancel_left ..))
    (fun c lo hi => objectInMemory_iff.mpr ⟨lo, hi⟩) (by simp [objectInMemory]) h
    (fun c _ h' _ => updateForwardedObject_stores h' c)
    (fun c _ h' related => congrArg (c + ·) (congrFun (outline_extent related.1) c))

end Update

section Forward

variable {ts : List Nat} {h : Heap} {o : Nat}

theorem forwardMap_stores (live : isFree h o = false) (x y : Nat) :
    Stores ts h (forwardMap h o x y) := by
  unfold forwardMap
  split
  · rcases heapStoreInto_spec h o y with ⟨remembered, run, more, -, known⟩ | fails
    · rw [run]
      refine .ok (Stored.put rfl more (fun hash => ?_) ?_)
      · simp [isFree, objectIsFree, hash, idHashForwarded] at live
      · intro ho _ s g points
        refine (pointsToYoung_setMap points).imp id fun young => ?_
        exact known young (oldCells_isOld s.old ho) (oldCells_even s.old g.aligned ho)
    · rw [fails]
      exact .error rfl
  · exact .ok (.refl h)

theorem objectForwardPointersTo_stores (live : isFree h o = false) (x y : Nat) :
    Stores ts h (objectForwardPointersTo h o x y) := by
  refine .bind Stored.trans (forwardMap_stores live x y) fun h' _ => ?_
  refine .foldlM .refl Stored.trans _ h' fun k _ h'' _ => ?_
  split
  · exact objectSlotValueAtOffsetPut_stores h'' o k y
  · exact .ok (.refl h'')

theorem heapForwardFrom_stores {memory memorySize : Nat} (t : Tiled h.mem memory memorySize)
    (x y : Nat) : Stores ts h (heapForwardFrom h x y memory memorySize) := by
  refine .overCellsE .refl Stored.trans t.tiles (Nat.le_of_eq (Nat.add_sub_cancel_left ..))
    (fun c lo hi => objectInMemory_iff.mpr ⟨lo, hi⟩) (by simp [objectInMemory]) h
    (fun c _ h' _ => ?_)
    (fun c _ h' related => congrArg (c + ·) (congrFun (outline_extent related.1) c))
  split
  · exact .ok (.refl h')
  · rename_i occupied
    exact objectForwardPointersTo_stores (Bool.eq_false_iff.mpr occupied) x y

end Forward

end SlateVm
