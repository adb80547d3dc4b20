import SlateVm.Heap.Layout
import SlateVm.Lib.Marking

/-! The marking functions of the collectors visit a list of roots and then drain
the mark stack; they change mark bits and nothing else. -/
namespace SlateVm
open Tiling

def marking (h : Heap) : Marking.State Nat := ⟨objectIsMarked h, h.markStack⟩

/-- `h'` is `h` after the objects `as` were visited. -/
structure Marks (h h' : Heap) (as : List Nat) : Prop where
  frame : h'.frame = h.frame
  visited : marking h' = Marking.visitAll (marking h) as

def rootOf (h : Heap) (markOld : Bool) (obj : Nat) : List Nat :=
  if oopIsSmallint obj || (!markOld && objectIsOld h obj) then [] else [obj]

def specialRoots (h : Heap) (markOld : Bool) : List Nat :=
  (List.range (objectArraySize (h.mem h.specialObjectsOop))).flatMap fun i =>
    rootOf h markOld (getSpecial h i)

def stackRoots (h : Heap) (markOld : Bool) : List Nat :=
  (List.range (interpreterStackPointer h)).flatMap fun i => rootOf h markOld (stackElement h i)

def isPinnedObject (h : Heap) (a : Nat) : Bool :=
  decide ((h.mem a).hash < idHashReserved) && objectIsPinned h a

def fieldPointers (h : Heap) (a : Nat) : List Nat :=
  (oopFields (h.mem a)).filter fun v => !oopIsSmallint v

def pointers (h : Heap) (a : Nat) : List Nat := (h.mem a).map :: fieldPointers h a

def followed (h : Heap) (markOld : Bool) (a : Nat) : List Nat :=
  if !markOld && objectIsOld h a then [] else pointers h a

def youngPointers (h : Heap) (a : Nat) : List Nat :=
  (if objectIsYoung h (h.mem a).map then [(h.mem a).map] else []) ++
    (oopFields (h.mem a)).filter fun v => !oopIsSmallint v && objectIsYoung h v

def badRemembered (h : Heap) (o : Nat) : Bool := !pointsToYoung h o || objectIsYoung h o

section Frame

variable {h h' : Heap}

theorem frame_specialRoots (same : h'.frame = h.frame) : specialRoots h' = specialRoots h :=
  (congrArg specialRoots same :)

theorem frame_stackRoots (same : h'.frame = h.frame) : stackRoots h' = stackRoots h :=
  (congrArg stackRoots same :)

theorem frame_isPinnedObject (same : h'.frame = h.frame) : isPinnedObject h' = isPinnedObject h :=
  (congrArg isPinnedObject same :)

theorem frame_youngPointers (same : h'.frame = h.frame) : youngPointers h' = youngPointers h :=
  (congrArg youngPointers same :)

theorem frame_followed (same : h'.frame = h.frame) : followed h' = followed h :=
  (congrArg followed same :)

theorem frame_badRemembered (same : h'.frame = h.frame) :
    badRemembered h' = badRemembered h := (congrArg badRemembered same :)

end Frame

theorem Marks.refl (h : Heap) : Marks h h [] := ⟨rfl, rfl⟩

theorem Marks.trans {h₁ h₂ h₃ : Heap} {as bs : List Nat} (first : Marks h₁ h₂ as)
    (second : Marks h₂ h₃ bs) : Marks h₁ h₃ (as ++ bs) where
  frame := second.frame.trans first.frame
  visited := by rw [Marking.visitAll_append, ← first.visited, second.visited]

theorem Marks.marked {h h' : Heap} {as : List Nat} (m : Marks h h' as) (a : Nat) (ha : a ∈ as) :
    objectIsMarked h' a = true := by
  have visited := (Marking.visitAll_marked as (marking h) a).mpr (Or.inr ha)
  rw [← m.visited] at visited
  exact visited

theorem heapMark_marks (h : Heap) (a : Nat) : Marks h (heapMark h a) [a] := by
  unfold heapMark
  split
  · rename_i already
    refine ⟨rfl, ?_⟩
    simp [Marking.visitAll, Marking.visit, marking, already]
  · rename_i fresh
    constructor
    · simp only [Heap.frame, objectSetMark, Heap.put, Heap.mk.injEq, and_true]
      funext x
      by_cases same : x = a
      · subst same; simp [Object.eraseMark]
      · simp [same]
    · have marks : objectIsMarked (objectSetMark h a) =
          Function.update (objectIsMarked h) a true := by
        funext x
        by_cases same : x = a
        · subst same; simp [objectIsMarked, objectSetMark]
        · simp [objectIsMarked, objectSetMark, same]
      simp only [marking, Marking.visitAll, List.foldl_cons, List.foldl_nil, Marking.visit, fresh]
      simp only [Bool.false_eq_true, if_false, Marking.State.mk.injEq]
      exact ⟨marks, rfl⟩

theorem marks_foldl {β : Type} (f : Heap → β → Heap) (g : β → List Nat) (h₀ : Heap)
    (step : ∀ h b, h.frame = h₀.frame → Marks h (f h b) (g b)) (bs : List β) (h : Heap)
    (start : h.frame = h₀.frame) : Marks h (bs.foldl f h) (bs.flatMap g) := by
  induction bs generalizing h with
  | nil => exact .refl h
  | cons b bs ih =>
    have one := step h b start
    exact one.trans (ih (f h b) (one.frame.trans start))

theorem heapMarkSpecials_marks (h : Heap) (markOld : Bool) :
    Marks h (heapMarkSpecials h markOld) (specialRoots h markOld) := by
  refine marks_foldl _ _ h (fun g i same => ?_) _ h rfl
  simp only [frame_getSpecial same, frame_isOld same]
  unfold rootOf
  cases old : (!markOld && objectIsOld h (getSpecial h i)) <;>
    cases small : oopIsSmallint (getSpecial h i)
  · exact heapMark_marks g _
  · exact .refl g
  · exact .refl g
  · exact .refl g

theorem heapMarkInterpreterStack_marks (h : Heap) (markOld : Bool) :
    Marks h (heapMarkInterpreterStack h markOld) (stackRoots h markOld) := by
  refine marks_foldl _ _ h (fun g i same => ?_) _ h rfl
  simp only [frame_stackElement same, frame_isOld same]
  unfold rootOf
  cases old : (!markOld && objectIsOld h (stackElement h i)) <;>
    cases small : oopIsSmallint (stackElement h i)
  · exact heapMark_marks g _
  · exact .refl g
  · exact .refl g
  · exact .refl g

theorem heapMarkFields_marks {h₀ h : Heap} (same : h.frame = h₀.frame) (o : Nat) :
    Marks h (heapMarkFields h o) (pointers h₀ o) := by
  have first := heapMark_marks h (h.mem o).map
  have rest := marks_foldl
    (fun h k => if oopIsSmallint ((h.mem o).word k) then h else heapMark h ((h.mem o).word k))
    (fun k => if oopIsSmallint ((h₀.mem o).word k) then [] else [(h₀.mem o).word k]) h₀
    (fun g k sameg => by
      rw [frame_word sameg]
      split
      · exact .refl g
      · exact heapMark_marks g _)
    (oopWords (h.mem o)) _ (first.frame.trans same)
  have listed : (oopWords (h.mem o)).flatMap
      (fun k => if oopIsSmallint ((h₀.mem o).word k) then [] else [(h₀.mem o).word k])
      = fieldPointers h₀ o := by
    rw [frame_oopWords same, fieldPointers, oopFields]
    induction oopWords (h₀.mem o) with
    | nil => rfl
    | cons k ks ih =>
      rw [List.flatMap_cons, ih, List.map_cons, List.filter_cons]
      cases oopIsSmallint ((h₀.mem o).word k) <;> rfl
  rw [listed] at rest
  rw [pointers, ← frame_map same]
  exact first.trans rest

def popped (h : Heap) : Heap := { h with markStack := h.markStack.tail }

theorem markLoop_cons {markOld : Bool} {fuel : Nat} {h : Heap} {obj : Nat}
    {rest : List Nat} (top : h.markStack = obj :: rest) :
    markLoop markOld (fuel + 1) h = markLoop markOld fuel
      (if !markOld && objectIsOld h obj then popped h else heapMarkFields (popped h) obj) := by
  have tail : ({ h with markStack := rest } : Heap) = popped h := by rw [popped, top]; rfl
  rw [markLoop, top]
  have old : objectIsOld (popped h) obj = objectIsOld h obj := rfl
  simp only [tail, old]
  split <;> rfl

theorem markLoop_drain {h₀ : Heap} (markOld : Bool) (fuel : Nat) (h : Heap)
    (same : h.frame = h₀.frame) :
    (markLoop markOld fuel h).frame = h.frame ∧
      marking (markLoop markOld fuel h) =
        Marking.drain (followed h₀ markOld) fuel (marking h) := by
  induction fuel generalizing h with
  | zero => exact ⟨rfl, rfl⟩
  | succ fuel ih =>
    cases top : h.markStack with
    | nil =>
      have idle : markLoop markOld (fuel + 1) h = h := by rw [markLoop, top]
      rw [idle, Marking.drain_nil top]
      exact ⟨rfl, rfl⟩
    | cons obj rest =>
      have same' : (popped h).frame = h₀.frame := same
      have left : marking (popped h) = { marking h with stack := rest } := by
        simp only [marking, popped, top]; rfl
      rw [markLoop_cons top, Marking.drain_cons (s := marking h) top, followed,
        frame_isOld same obj]
      split
      · obtain ⟨kept, drained⟩ := ih (popped h) same'
        rw [drained, left]
        exact ⟨kept, rfl⟩
      · have fields := heapMarkFields_marks same' obj
        obtain ⟨kept, drained⟩ := ih _ (fields.frame.trans same')
        rw [drained, fields.visited, left]
        exact ⟨kept.trans fields.frame, rfl⟩

section Walks

variable {h : Heap} {memory memorySize : Nat}

theorem heapUnmarkAll_eq (t : Tiled h.mem memory memorySize) :
    heapUnmarkAll h memory memorySize = (cellsOf h.mem memory memorySize).foldl objectUnmark h := by
  refine overCells_eq_foldl (K := fun s => extent s.mem = extent h.mem) t.tiles (by omega)
    (fun c lo hi => objectInMemory_iff.mpr ⟨lo, hi⟩) (by simp [objectInMemory]) ?_ rfl
  intro c _ s same
  have kept : extent (objectUnmark s c).mem = extent s.mem := by
    funext x
    by_cases here : x = c
    · subst here; simp [extent, objectUnmark, objectTotalSize, objectWordSize]
    · simp [extent, objectUnmark, here]
  exact ⟨kept.trans same, by simp only [objectAfter, ← same, ← kept]; rfl⟩

theorem foldl_objectUnmark (cs : List Nat) (h : Heap) :
    (cs.foldl objectUnmark h).frame = h.frame ∧
      (cs.foldl objectUnmark h).markStack = h.markStack ∧
      ∀ x, objectIsMarked (cs.foldl objectUnmark h) x = true ↔
        objectIsMarked h x = true ∧ x ∉ cs := by
  induction cs generalizing h with
  | nil => simp
  | cons c cs ih =>
    have one : (objectUnmark h c).frame = h.frame := by
      simp only [Heap.frame, objectUnmark, Heap.put, Heap.mk.injEq, and_true]
      funext x
      by_cases same : x = c
      · subst same; simp [Object.eraseMark]
      · simp [same]
    obtain ⟨frame, stack, marks⟩ := ih (objectUnmark h c)
    refine ⟨frame.trans one, stack, fun x => ?_⟩
    rw [List.foldl_cons, marks x]
    by_cases same : x = c
    · subst same; simp [objectIsMarked, objectUnmark]
    · simp [objectIsMarked, objectUnmark, same]

theorem heapUnmarkAll_spec (t : Tiled h.mem memory memorySize) :
    (heapUnmarkAll h memory memorySize).frame = h.frame ∧
      (heapUnmarkAll h memory memorySize).markStack = h.markStack ∧
      ∀ x, objectIsMarked (heapUnmarkAll h memory memorySize) x = true ↔
        objectIsMarked h x = true ∧ x ∉ cellsOf h.mem memory memorySize := by
  rw [heapUnmarkAll_eq t]
  exact foldl_objectUnmark _ h

theorem heapMarkPinned_marks (t : Tiled h.mem memory memorySize) :
    Marks h (heapMarkPinned h memory memorySize)
      ((cellsOf h.mem memory memorySize).filter (isPinnedObject h)) := by
  have step : ∀ g c, g.frame = h.frame →
      Marks g (if decide ((g.mem c).hash < idHashReserved) && objectIsPinned g c then heapMark g c
        else g) (if isPinnedObject h c then [c] else []) := by
    intro g c same
    have pinned : (decide ((g.mem c).hash < idHashReserved) && objectIsPinned g c) =
        isPinnedObject h c := by
      simp only [isPinnedObject, objectIsPinned, frame_hash same, frame_pinCount same]
    rw [pinned]
    split
    · exact heapMark_marks g c
    · exact .refl g
  have folded : heapMarkPinned h memory memorySize = _ :=
    overCells_eq_foldl (K := fun s => s.frame = h.frame) t.tiles (by omega)
      (fun c lo hi => objectInMemory_iff.mpr ⟨lo, hi⟩) (by simp [objectInMemory])
      (fun c _ s same => by
        have kept := (step s c same).frame.trans same
        exact ⟨kept, by simp only [objectAfter, ← frame_extent kept]; rfl⟩) rfl
  have all := marks_foldl _ _ h step (cellsOf h.mem memory memorySize) h rfl
  rw [folded]
  have listed : (cellsOf h.mem memory memorySize).flatMap
      (fun c => if isPinnedObject h c then [c] else []) =
      (cellsOf h.mem memory memorySize).filter (isPinnedObject h) := by
    induction cellsOf h.mem memory memorySize with
    | nil => rfl
    | cons c cs ih =>
      rw [List.flatMap_cons, ih, List.filter_cons]
      cases isPinnedObject h c <;> rfl
  rw [← listed]
  exact all

end Walks

section Remembered

variable {h₀ : Heap}

theorem pointsToYoung_iff {h : Heap} {o : Nat} :
    pointsToYoung h o = true ↔ youngPointers h o ≠ [] := by
  simp only [pointsToYoung, youngPointers, Bool.or_eq_true, List.any_eq_true, ne_eq,
    List.append_eq_nil_iff, List.filter_eq_nil_iff, not_and_or]
  by_cases young : objectIsYoung h (h.mem o).map = true <;> simp [young]

def youngField (h : Heap) (v : Nat) : Bool := !oopIsSmallint v && objectIsYoung h v

theorem markYoungFields_spec (o : Nat) (ks : List Nat) (s : Heap × Bool)
    (same : s.1.frame = h₀.frame) :
    Marks s.1 (ks.foldl (markYoungField o) s).1
        ((ks.map (h₀.mem o).word).filter (youngField h₀)) ∧
      (ks.foldl (markYoungField o) s).2 =
        (s.2 || (ks.map (h₀.mem o).word).any (youngField h₀)) := by
  induction ks generalizing s with
  | nil => exact ⟨.refl _, by simp⟩
  | cons k ks ih =>
    have young : youngField s.1 ((s.1.mem o).word k) = youngField h₀ ((h₀.mem o).word k) := by
      simp only [youngField, frame_word same, frame_isYoung same]
    have word : (s.1.mem o).word k = (h₀.mem o).word k := congrFun (frame_word same o) k
    rw [List.foldl_cons, List.map_cons, List.filter_cons, List.any_cons]
    cases hit : youngField h₀ ((h₀.mem o).word k) with
    | true =>
      have one : markYoungField o s k = (heapMark s.1 ((h₀.mem o).word k), true) := by
        rw [← word]; exact if_pos (young.trans hit)
      have marked := heapMark_marks s.1 ((h₀.mem o).word k)
      obtain ⟨marks, found⟩ := ih (heapMark s.1 _, true) (marked.frame.trans same)
      rw [one, if_pos rfl]
      exact ⟨marked.trans marks, by rw [found]; simp⟩
    | false =>
      have one : markYoungField o s k = s :=
        if_neg (Bool.eq_false_iff.mp (young.trans hit))
      rw [one]
      obtain ⟨marks, found⟩ := ih s same
      exact ⟨by simpa using marks, by rw [found]; simp⟩

theorem markYoungPointers_spec (h : Heap) (o : Nat) (same : h.frame = h₀.frame) :
    Marks h (markYoungPointers h o).1 (youngPointers h₀ o) ∧
      (markYoungPointers h o).2 = pointsToYoung h₀ o := by
  have young : objectIsYoung h (h.mem o).map = objectIsYoung h₀ (h₀.mem o).map := by
    rw [frame_map same, frame_isYoung same]
  have first : Marks h (markYoungMap h o).1
      (if objectIsYoung h₀ (h₀.mem o).map then [(h₀.mem o).map] else []) ∧
      (markYoungMap h o).2 = objectIsYoung h₀ (h₀.mem o).map := by
    rw [markYoungMap, young, frame_map same]
    split
    · rename_i hit
      exact ⟨heapMark_marks h _, hit.symm⟩
    · rename_i miss
      exact ⟨.refl h, (Bool.eq_false_iff.mpr miss).symm⟩
  obtain ⟨marks, found⟩ := markYoungFields_spec o (oopWords (h.mem o)) (markYoungMap h o)
    (first.1.frame.trans same)
  rw [frame_oopWords same] at marks found
  rw [markYoungPointers, frame_oopWords same]
  refine ⟨first.1.trans marks, ?_⟩
  rw [found, first.2]
  rfl

theorem markRememberedObject_spec (s : Heap × List Nat) (o : Nat)
    (same : s.1.frame = h₀.frame) :
    Marks s.1 (markRememberedObject s o).1 (youngPointers h₀ o) ∧
      (markRememberedObject s o).2 =
        s.2 ++ (if badRemembered h₀ o then [o] else []) := by
  obtain ⟨marks, found⟩ := markYoungPointers_spec s.1 o same
  have outcome : (!(markYoungPointers s.1 o).2 || objectIsYoung (markYoungPointers s.1 o).1 o) =
      badRemembered h₀ o := by
    rw [found, frame_isYoung (marks.frame.trans same), badRemembered]
  simp only [markRememberedObject, outcome]
  split
  · exact ⟨marks, rfl⟩
  · exact ⟨marks, (List.append_nil s.2).symm⟩

theorem markRemembered_foldl (h₀ : Heap) (os : List Nat) (s : Heap × List Nat)
    (same : s.1.frame = h₀.frame) :
    Marks s.1 (os.foldl markRememberedObject s).1 (os.flatMap (youngPointers h₀)) ∧
      (os.foldl markRememberedObject s).2 = s.2 ++ os.filter (badRemembered h₀) := by
  induction os generalizing s with
  | nil => exact ⟨.refl _, by simp⟩
  | cons o os ih =>
    obtain ⟨one, bad⟩ := markRememberedObject_spec s o same
    obtain ⟨rest, more⟩ := ih (markRememberedObject s o) (one.frame.trans same)
    rw [List.foldl_cons, List.flatMap_cons, List.filter_cons]
    refine ⟨one.trans rest, ?_⟩
    rw [more, bad]
    split <;> simp

theorem foldl_erase (os : List Nat) (s : Finset Nat) :
    os.foldl (fun s o => s.erase o) s = s.filter (· ∉ os) := by
  induction os generalizing s with
  | nil => simp
  | cons o os ih =>
    rw [List.foldl_cons, ih]
    ext x
    simp only [Finset.mem_filter, Finset.mem_erase, List.mem_cons, not_or]
    tauto

theorem heapMarkRemembered_spec (h : Heap) :
    ∃ g, Marks h g ((h.rememberedOldObjects.sort (· ≤ ·)).flatMap (youngPointers h)) ∧
      heapMarkRemembered h = { g with rememberedOldObjects :=
        (h.rememberedOldObjects.filter fun o => badRemembered h o = false) } := by
  obtain ⟨marks, bad⟩ := markRemembered_foldl h
    (h.rememberedOldObjects.sort (· ≤ ·)) (h, []) rfl
  refine ⟨_, marks, ?_⟩
  rw [heapMarkRemembered]
  simp only [bad, frame_remembered marks.frame, List.nil_append, foldl_erase]
  congr 1
  refine Finset.filter_congr fun x hx => ?_
  simp [hx]

end Remembered

end SlateVm
