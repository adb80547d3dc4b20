import SlateVm.Heap.Tenure

/-! The first half of a full collection: marking everything reachable, and sweeping
old space. -/
namespace SlateVm
open Tiling

def FullReachable (h : Heap) : Nat → Prop :=
  Marking.Reach (pointers h) fun a => a ∈ specialRoots h true ∨ a ∈ stackRoots h true ∨
    (a ∈ youngCells h ∧ isPinnedObject h a = true) ∨ (a ∈ oldCells h ∧ isPinnedObject h a = true)

theorem FullReachable.live {h : Heap} (w : WellFormed h) {a : Nat} (reached : FullReachable h a) :
    Live h a := by
  refine reached.least (C := Live h) ?_ fun b live v hv => w.closed b live v hv
  rintro r (special | stack | ⟨young, pinned⟩ | ⟨old, pinned⟩)
  · exact w.specials r special
  · exact w.stack r stack
  · exact ⟨Or.inr young, pinned_live pinned⟩
  · exact ⟨Or.inl old, pinned_live pinned⟩

def fullGcRoots (h : Heap) : List Nat :=
  (youngCells h).filter (isPinnedObject h) ++ (oldCells h).filter (isPinnedObject h) ++
    specialRoots h true ++ stackRoots h true

theorem frame_fullGcRoots {h h' : Heap} (same : h'.frame = h.frame) :
    fullGcRoots h' = fullGcRoots h := by
  simp only [fullGcRoots, frame_youngCells same, frame_oldCells same, frame_isPinnedObject same,
    frame_specialRoots same, frame_stackRoots same]

theorem fullGcRoots_reach {h : Heap} {a : Nat} :
    Marking.Reach (followed h true) (· ∈ fullGcRoots h) a ↔ FullReachable h a := by
  have follow : followed h true = pointers h := by funext x; simp [followed]
  have roots : ∀ r, r ∈ fullGcRoots h ↔ r ∈ specialRoots h true ∨ r ∈ stackRoots h true ∨
      (r ∈ youngCells h ∧ isPinnedObject h r = true) ∨
        (r ∈ oldCells h ∧ isPinnedObject h r = true) := by
    intro r
    simp only [fullGcRoots, List.mem_append, List.mem_filter]
    tauto
  rw [follow]
  exact ⟨Marking.Reach.mono fun r => (roots r).mp, Marking.Reach.mono fun r => (roots r).mpr⟩

def markFull (h : Heap) : Heap :=
  let h := heapStartGc h
  let h := heapUnmarkAll h h.memoryOld h.memoryOldSize
  let h := heapUnmarkAll h h.memoryYoung h.memoryYoungSize
  let h := heapMarkPinnedYoung h
  let h := heapMarkPinnedOld h
  let h := heapMarkSpecials h true
  let h := heapMarkInterpreterStack h true
  heapMarkRecursively h true

section Mark

variable {h : Heap}

theorem fullGcRoots_marks (old : Tiled h.mem h.memoryOld h.memoryOldSize)
    (young : Tiled h.mem h.memoryYoung h.memoryYoungSize) :
    Marks h (heapMarkInterpreterStack (heapMarkSpecials (heapMarkPinnedOld
      (heapMarkPinnedYoung h)) true) true) (fullGcRoots h) := by
  have one : Marks h (heapMarkPinnedYoung h) ((youngCells h).filter (isPinnedObject h)) :=
    heapMarkPinned_marks young
  have oldOne : Tiled (heapMarkPinnedYoung h).mem (heapMarkPinnedYoung h).memoryOld
      (heapMarkPinnedYoung h).memoryOldSize := by
    rw [frame_memoryOld one.frame, frame_memoryOldSize one.frame]
    exact old.congr fun c _ => congrFun (frame_extent one.frame) c
  have pinnedOld : Marks (heapMarkPinnedYoung h) (heapMarkPinnedOld (heapMarkPinnedYoung h))
      ((oldCells (heapMarkPinnedYoung h)).filter (isPinnedObject (heapMarkPinnedYoung h))) :=
    heapMarkPinned_marks oldOne
  rw [frame_oldCells one.frame, frame_isPinnedObject one.frame] at pinnedOld
  have two := one.trans pinnedOld
  have specials := heapMarkSpecials_marks (heapMarkPinnedOld (heapMarkPinnedYoung h)) true
  rw [frame_specialRoots two.frame] at specials
  have three := two.trans specials
  have stack := heapMarkInterpreterStack_marks
    (heapMarkSpecials (heapMarkPinnedOld (heapMarkPinnedYoung h)) true) true
  rw [frame_stackRoots three.frame] at stack
  exact three.trans stack

def staleFull (h : Heap) (a : Nat) : Prop :=
  objectIsMarked (heapStartGc h) a = true ∧ a ∉ oldCells h ∧ a ∉ youngCells h

theorem markFull_marks (s : Spaces h) : ∃ k g, k.frame = (heapStartGc h).frame ∧
    k.markStack = [] ∧ (∀ a, objectIsMarked k a = true ↔ staleFull h a) ∧
    Marks k g (fullGcRoots h) ∧ markFull h = heapMarkRecursively g true := by
  have old : Tiled (heapStartGc h).mem h.memoryOld h.memoryOldSize := s.old
  obtain ⟨frame₁, empty₁, clear₁⟩ := heapUnmarkAll_spec old
  have start : markFull h = heapMarkRecursively (heapMarkInterpreterStack (heapMarkSpecials
      (heapMarkPinnedOld (heapMarkPinnedYoung ((fun k : Heap => heapUnmarkAll k k.memoryYoung
        k.memoryYoungSize) (heapUnmarkAll (heapStartGc h) h.memoryOld h.memoryOldSize)))) true)
          true) true := rfl
  rw [start]
  generalize heapUnmarkAll (heapStartGc h) h.memoryOld h.memoryOldSize = k₁
    at frame₁ empty₁ clear₁
  have young : Tiled k₁.mem k₁.memoryYoung k₁.memoryYoungSize := by
    rw [frame_memoryYoung frame₁, frame_memoryYoungSize frame₁]
    exact s.young.congr fun c _ => congrFun (frame_extent frame₁) c
  obtain ⟨frame₂, empty₂, clear₂⟩ := heapUnmarkAll_spec young
  dsimp only
  generalize heapUnmarkAll k₁ k₁.memoryYoung k₁.memoryYoungSize = k₂ at frame₂ empty₂ clear₂
  have frame := frame₂.trans frame₁
  have marks := fullGcRoots_marks (h := k₂)
    (by
      rw [frame_memoryOld frame, frame_memoryOldSize frame]
      exact s.old.congr fun c _ => congrFun (frame_extent frame) c)
    (by
      rw [frame_memoryYoung frame, frame_memoryYoungSize frame]
      exact s.young.congr fun c _ => congrFun (frame_extent frame) c)
  rw [show fullGcRoots k₂ = fullGcRoots h from (frame_fullGcRoots frame).trans rfl] at marks
  have youngCells₁ : cellsOf k₁.mem k₁.memoryYoung k₁.memoryYoungSize = youngCells h :=
    (frame_youngCells frame₁).trans rfl
  refine ⟨k₂, _, frame, empty₂.trans empty₁, fun a => ?_, marks, rfl⟩
  rw [clear₂, clear₁, youngCells₁, and_assoc]
  rfl

theorem markFull_roots (s : Spaces h) : (markFull h).frame = (heapStartGc h).frame ∧
    ∀ r ∈ fullGcRoots h, objectIsMarked (markFull h) r = true := by
  obtain ⟨k, g, base, -, -, marks, outcome⟩ := markFull_marks s
  obtain ⟨frame, grows⟩ := heapMarkRecursively_grows g true
  rw [outcome]
  exact ⟨frame.trans (marks.frame.trans base), fun r hr => grows r (marks.marked r hr)⟩

theorem markFull_spec (w : WellFormed h) :
    (markFull h).frame = (heapStartGc h).frame ∧
      ∀ a, Live h a → (objectIsMarked (markFull h) a = true ↔ FullReachable h a) := by
  obtain ⟨k, g, base, empty, clear, marks, outcome⟩ := markFull_marks w.toSpaces
  have gframe := marks.frame.trans base
  have drained := heapMarkRecursively_spec true (staleFull h) w
    ((frame_followed gframe).trans rfl) (congrArg markFuel gframe :) marks.visited empty clear
    (fun a live stale => by
      rcases live.1 with here | here
      · exact absurd here stale.2.1
      · exact absurd here stale.2.2)
    fun r hr => FullReachable.live w (fullGcRoots_reach.mp (.root hr))
  rw [outcome]
  refine ⟨drained.1.trans gframe, fun a live => ?_⟩
  rw [drained.2 a, fullGcRoots_reach, or_iff_right]
  rintro ⟨-, notOld, notYoung⟩
  rcases live.1 with here | here
  · exact notOld here
  · exact notYoung here

end Mark

/-- Old space after the sweep of a full collection of `h` whose marking has left `g`. -/
structure FullSwept (h g k : Heap) : Prop extends Spaces k where
  marked : ∀ a, (g.mem a).eraseMark = (h.mem a).eraseMark
  cells : Swept g.mem (survives g) (oldCells h) h.memoryOld (h.memoryOld + h.memoryOldSize)
    k.mem (oldCells k)
  memoryOld : k.memoryOld = h.memoryOld ∧ k.memoryOldSize = h.memoryOldSize
  memoryYoung : k.memoryYoung = h.memoryYoung ∧ k.memoryYoungSize = h.memoryYoungSize
  next : k.nextOldFree = k.memoryOld
  tenured : k.tenuredObjects = []
  untouched : ∀ a, objectIsYoung h a = true → k.mem a = g.mem a
  color : k.markColor = g.markColor
  remembered : ∀ o, o ∈ k.rememberedOldObjects ↔ o ∈ h.rememberedOldObjects ∧
    ¬forgotten g h.memoryOld h.memoryOldSize (h.memoryOld + h.memoryOldSize) o
  others : ∃ mem color stack remembered flag next tenured, k = { h with
    mem := mem, markColor := color, markStack := stack, rememberedOldObjects := remembered
    doFullGCNext := flag, nextOldFree := next, tenuredObjects := tenured }

def sweepFull (h : Heap) : Heap :=
  let h := heapFreeAndCoalesceUnmarked h h.memoryOld h.memoryOldSize
  { h with nextOldFree := h.memoryOld, tenuredObjects := [] }

def sweptFull (h : Heap) : Heap := sweepFull (markFull h)

theorem sweepFull_swept {h g : Heap} (s : Spaces h) (frame : g.frame = (heapStartGc h).frame) :
    FullSwept h g (sweepFull g) := by
  have memOld : g.memoryOld = h.memoryOld := (congrArg Heap.memoryOld frame :)
  have memOldSize : g.memoryOldSize = h.memoryOldSize := (congrArg Heap.memoryOldSize frame :)
  have memYoung : g.memoryYoung = h.memoryYoung := (congrArg Heap.memoryYoung frame :)
  have memYoungSize : g.memoryYoungSize = h.memoryYoungSize :=
    (congrArg Heap.memoryYoungSize frame :)
  have limit : g.memoryOldLimit = h.memoryOldLimit := (congrArg Heap.memoryOldLimit frame :)
  have before : g.rememberedOldObjects = h.rememberedOldObjects :=
    (congrArg Heap.rememberedOldObjects frame :)
  have same : ∀ a, (g.mem a).eraseMark = (h.mem a).eraseMark := fun a =>
    (congrFun (congrArg Heap.mem frame) a :)
  have t : Tiled g.mem h.memoryOld h.memoryOldSize :=
    s.old.congr fun c _ => eraseMark_extent (same c)
  have oldG : cellsOf g.mem h.memoryOld h.memoryOldSize = oldCells h :=
    cellsOf_congr s.old fun c _ => eraseMark_extent (same c)
  obtain ⟨mem, remembered, flag, swept, cells, forgot⟩ := heapFreeAndCoalesceUnmarked_spec t
  have outcome : sweepFull g = { g with
      mem := mem, rememberedOldObjects := remembered, doFullGCNext := flag
      nextOldFree := h.memoryOld, tenuredObjects := [] } := by
    rw [sweepFull, memOld, memOldSize]
    simp only [swept, memOld, memOldSize]
  rw [oldG] at cells
  generalize sweepFull g = k at outcome ⊢
  have newMem : k.mem = mem := by rw [outcome]
  have newYoung : k.memoryYoung = h.memoryYoung ∧ k.memoryYoungSize = h.memoryYoungSize := by
    rw [outcome]; exact ⟨memYoung, memYoungSize⟩
  have newMemOld : k.memoryOld = h.memoryOld ∧ k.memoryOldSize = h.memoryOldSize := by
    rw [outcome]; exact ⟨memOld, memOldSize⟩
  have newLimit : k.memoryOldLimit = h.memoryOldLimit := by rw [outcome]; exact limit
  have newOld : oldCells k = cellsOf mem h.memoryOld h.memoryOldSize := by
    rw [oldCells, newMem, newMemOld.1, newMemOld.2]
  have young : ∀ a, objectIsYoung h a = true → k.mem a = g.mem a := by
    intro a young
    rw [newMem]
    exact cells.untouched a (s.young_apart young s.limit)
  constructor
  · constructor
    · rw [newMem, newMemOld.1, newMemOld.2]
      exact .of cells.tiles cells.least
    · rw [newYoung.1, newYoung.2]
      refine s.young.congr fun c hc => ?_
      rw [extent, young c (youngCells_isYoung s.young hc)]
      exact eraseMark_extent (same c)
    · rw [newMemOld.2, newLimit]; exact s.limit
    · rw [newMemOld.1, newLimit, newYoung.1, newYoung.2]; exact s.apart
  · exact same
  · rw [newOld, newMem]; exact cells
  · exact newMemOld
  · exact newYoung
  · rw [outcome]; exact memOld.symm
  · rw [outcome]
  · exact young
  · rw [outcome]
  · intro o
    have left : k.rememberedOldObjects = remembered := by rw [outcome]
    rw [left, forgot o, before]
  · rw [outcome]
    have color : g = { h with mem := g.mem, markColor := g.markColor, markStack := g.markStack } := by
      clear outcome swept
      cases g
      cases h
      simp only [Heap.frame, heapStartGc, Heap.mk.injEq] at frame ⊢
      simp [frame]
    rw [color]
    exact ⟨_, _, _, _, _, _, _, rfl⟩

/-- The heap a full collection starts to tenure from: old space is swept, and the
young objects are still where they were. -/
structure FullMarked (h g : Heap) : Prop extends Spaces g where
  memoryOld : g.memoryOld = h.memoryOld
  memoryYoung : g.memoryYoung = h.memoryYoung ∧ g.memoryYoungSize = h.memoryYoungSize
  next : g.nextOldFree = g.memoryOld
  tenured : g.tenuredObjects = []
  youngSame : ∀ a, objectIsYoung h a = true → (g.mem a).eraseMark = (h.mem a).eraseMark
  marked : ∀ a ∈ youngCells h, isFree h a = false →
    (objectIsMarked g a = true ↔ FullReachable h a)
  oldKept : ∀ a ∈ oldCells h, isFree h a = false → FullReachable h a →
    a ∈ oldCells g ∧ (g.mem a).eraseMark = (h.mem a).eraseMark
  oldOnly : ∀ a ∈ oldCells g, isFree g a = false →
    a ∈ oldCells h ∧ isFree h a = false ∧ FullReachable h a
  remembered : ∀ o, o ∈ g.rememberedOldObjects ↔ o ∈ h.rememberedOldObjects ∧ FullReachable h o
  others : ∃ mem color stack remembered flag next tenured, g = { h with
    mem := mem, markColor := color, markStack := stack, rememberedOldObjects := remembered
    doFullGCNext := flag, nextOldFree := next, tenuredObjects := tenured }

theorem sweptFull_spec {h : Heap} (w : WellFormed h) : FullMarked h (sweptFull h) := by
  obtain ⟨frame, marks⟩ := markFull_spec w
  rw [sweptFull]
  generalize markFull h = g at frame marks
  have swept := sweepFull_swept w.toSpaces frame
  generalize sweepFull g = k at swept ⊢
  have same := swept.marked
  have cells := swept.cells
  have survive : ∀ a ∈ oldCells h, survives g a = true ↔ isFree h a = false ∧ FullReachable h a := by
    intro a ha
    rw [survives, Bool.and_eq_true, Bool.not_eq_true', eraseMark_free (same a)]
    exact and_congr_right fun live => marks a ⟨Or.inl ha, live⟩
  have below : ∀ a ∈ oldCells h, a < h.memoryOld + h.memoryOldSize := by
    intro a ha
    have := w.old.tiles.bounds a ha
    omega
  constructor
  · exact swept.toSpaces
  · exact swept.memoryOld.1
  · exact swept.memoryYoung
  · exact swept.next
  · exact swept.tenured
  · intro a young
    rw [swept.untouched a young, same]
  · intro a ha live
    rw [← marks a ⟨Or.inr ha, live⟩]
    simp only [objectIsMarked, swept.untouched a (youngCells_isYoung w.young ha), swept.color]
  · intro a ha live reached
    have stay := (survive a ha).mpr ⟨live, reached⟩
    have listed := cells.stays a ha (below a ha) stay
    exact ⟨listed, by rw [cells.kept a listed stay, same]⟩
  · intro a ha live
    have origin := cells.origin a ha
    cases stay : survives g a with
    | false =>
      have free := cells.free a ha stay
      rw [isFree, free] at live
      cases live
    | true => exact ⟨origin, (survive a origin).mp stay⟩
  · intro o
    rw [swept.remembered o]
    refine and_congr_right fun ho => ?_
    obtain ⟨old, live⟩ := w.remembered o ho
    have range : objectIsOld g o = objectIsOld h o :=
      (congrArg (fun g : Heap => objectIsOld g o) frame :)
    have isOld : objectIsOld g o = true := range.trans (oldCells_isOld w.old old)
    have oldG : cellsOf g.mem h.memoryOld h.memoryOldSize = oldCells h :=
      cellsOf_congr w.old fun c _ => eraseMark_extent (same c)
    have free : objectIsFree (g.mem o) = false := (eraseMark_free (same o)).trans live
    have mark := marks o ⟨Or.inl old, live⟩
    simp only [forgotten, oldG, old, below o old, isOld, dies, free, ← mark, true_and, Bool.not_false,
      Bool.true_and, Bool.not_eq_true', Bool.not_eq_false]
  · exact swept.others

end SlateVm
