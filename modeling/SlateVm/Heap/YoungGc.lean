import SlateVm.Heap.Young

/-! The young collection as a whole. -/
namespace SlateVm
open Tiling

/-- What a young collection does to the objects `keep` it has to keep and to the
other cells. Objects are compared without their mark bits. -/
structure YoungCollected (h h' : Heap) (keep : Nat → Prop) : Prop where
  kept : ∀ a, Live h a → keep a → Live h' a ∧ (h'.mem a).eraseMark = (h.mem a).eraseMark
  freed : ∀ a ∈ youngCells h, isFree h a = false → ¬keep a →
    ∃ f ∈ youngCells h', isFree h' f = true ∧ f ≤ a ∧
      a + extent h.mem a ≤ f + extent h'.mem f
  onlyKept : ∀ a ∈ youngCells h', isFree h' a = false → keep a ∧ Live h a
  oldCells : oldCells h' = oldCells h
  oldSame : ∀ x, objectIsYoung h x = false → (h'.mem x).eraseMark = (h.mem x).eraseMark
  remembered : ∀ o, o ∈ h'.rememberedOldObjects ↔
    o ∈ h.rememberedOldObjects ∧ pointsToYoung h o = true
  tiled : Tiled h'.mem h'.memoryYoung h'.memoryYoungSize
  others : ∃ mem color stack remembered free flag, h' = { h with
    mem := mem, markColor := color, markStack := stack, rememberedOldObjects := remembered,
    nextFree := free, doFullGCNext := flag }

theorem startGc_others {h g : Heap} {remembered : Finset Nat}
    (frame : g.frame = { (heapStartGc h).frame with rememberedOldObjects := remembered }) :
    g = { h with
      mem := g.mem, markColor := g.markColor, markStack := g.markStack,
      rememberedOldObjects := g.rememberedOldObjects } := by
  cases g
  cases h
  simp only [Heap.frame, heapStartGc, Heap.mk.injEq] at frame ⊢
  simp [frame]

/-- The end of a young collection of `h` whose marking has left `g`. -/
structure YoungSwept (h g h' : Heap) : Prop where
  marked : ∀ a, (g.mem a).eraseMark = (h.mem a).eraseMark
  cells : Swept g.mem (survives g) (youngCells h) h.memoryYoung
    (h.memoryYoung + h.memoryYoungSize) h'.mem (youngCells h')
  oldCells : oldCells h' = oldCells h
  oldSame : ∀ x, objectIsYoung h x = false → (h'.mem x).eraseMark = (h.mem x).eraseMark
  remembered : ∀ o, o ∈ h'.rememberedOldObjects ↔ o ∈ goodRemembered h ∧
    ¬forgotten g h.memoryYoung h.memoryYoungSize (h.memoryYoung + h.memoryYoungSize) o
  others : ∃ mem color stack remembered flag, h' = { h with
    mem := mem, markColor := color, markStack := stack, rememberedOldObjects := remembered,
    nextFree := h.memoryYoung, doFullGCNext := flag }

def sweepYoung (h : Heap) : Heap :=
  let h := heapFreeAndCoalesceUnmarked h h.memoryYoung h.memoryYoungSize
  { h with nextFree := h.memoryYoung }

theorem heapGc_eq (h : Heap) : heapGc h = sweepYoung (markYoung h) := rfl

theorem sweepYoung_swept {h g : Heap} (s : Spaces h) (frame : g.frame =
    { (heapStartGc h).frame with rememberedOldObjects := goodRemembered h }) :
    YoungSwept h g (sweepYoung g) := by
  have same : ∀ a, (g.mem a).eraseMark = (h.mem a).eraseMark := fun a =>
    (congrFun (congrArg Heap.mem frame) a :)
  have memYoung : g.memoryYoung = h.memoryYoung := (congrArg Heap.memoryYoung frame :)
  have memYoungSize : g.memoryYoungSize = h.memoryYoungSize :=
    (congrArg Heap.memoryYoungSize frame :)
  have memOld : g.memoryOld = h.memoryOld := (congrArg Heap.memoryOld frame :)
  have memOldSize : g.memoryOldSize = h.memoryOldSize := (congrArg Heap.memoryOldSize frame :)
  have remember : g.rememberedOldObjects = goodRemembered h :=
    (congrArg Heap.rememberedOldObjects frame :)
  have young : cellsOf g.mem h.memoryYoung h.memoryYoungSize = youngCells h :=
    cellsOf_congr s.young fun c _ => eraseMark_extent (same c)
  have t : Tiled g.mem h.memoryYoung h.memoryYoungSize :=
    s.young.congr fun c _ => eraseMark_extent (same c)
  obtain ⟨mem, remembered, flag, swept, cells, forgot⟩ := heapFreeAndCoalesceUnmarked_spec t
  have outcome : sweepYoung g = { g with
      mem := mem, rememberedOldObjects := remembered, doFullGCNext := flag
      nextFree := h.memoryYoung } := by
    rw [sweepYoung, memYoung, memYoungSize]
    simp only [swept, memYoung, memYoungSize]
  rw [young] at cells
  generalize sweepYoung g = h' at outcome ⊢
  have outside : ∀ x, objectIsYoung h x = false → mem x = g.mem x := by
    intro x away
    have out := mt objectInMemory_iff.mpr (Bool.eq_false_iff.mp away)
    exact cells.untouched x (by omega)
  have newYoung : youngCells h' = cellsOf mem h.memoryYoung h.memoryYoungSize := by
    rw [outcome, youngCells, ← memYoung, ← memYoungSize]
  have newMem : h'.mem = mem := by rw [outcome]
  refine ⟨same, ?_, ?_, fun x away => ?_, fun o => ?_, ?_⟩
  · rw [newYoung, newMem]
    exact cells
  · rw [outcome]
    simp only [SlateVm.oldCells, memOld, memOldSize]
    refine cellsOf_congr s.old fun c hc => ?_
    rw [extent, outside c (s.not_both (oldCells_isOld s.old hc))]
    exact eraseMark_extent (same c)
  · rw [newMem, outside x away, same]
  · have left : h'.rememberedOldObjects = remembered := by rw [outcome]
    rw [left, forgot o, remember]
  · rw [outcome, startGc_others frame]
    exact ⟨_, _, _, _, _, rfl⟩

theorem sweepYoung_collected {h g h' : Heap} (swept : YoungSwept h g h') (w : WellFormed h)
    (barrier : Barrier h) (marks : ∀ a, objectIsMarked g a = true ↔
      staleYoung h a ∨ Marking.Reach (followed h false) (· ∈ youngGcRoots h) a) :
    YoungCollected h h' (YoungReachable h) := by
  have same := swept.marked
  have cells := swept.cells
  have survive : ∀ a ∈ youngCells h, survives g a = true ↔
      isFree h a = false ∧ YoungReachable h a := by
    intro a ha
    have reach := young_reach_iff w barrier (w.young_not_old ha)
    have mark := marks a
    simp only [staleYoung, ha, not_true_eq_false, and_false, false_or, reach] at mark
    rw [survives, Bool.and_eq_true, Bool.not_eq_true', mark, eraseMark_free (same a), isFree]
  have inOld : ∀ a ∈ oldCells h, objectIsYoung h a = false := fun a ha =>
    w.not_both (oldCells_isOld w.old ha)
  have below : ∀ a ∈ youngCells h, a < h.memoryYoung + h.memoryYoungSize := by
    intro a ha
    have := w.young.tiles.bounds a ha
    omega
  refine ⟨fun a live keep => ?_, ?_, ?_, swept.oldCells, swept.oldSame, ?_, ?_, ?_⟩
  · rcases live.1 with old | here
    · have stays := swept.oldSame a (inOld a old)
      exact ⟨⟨Or.inl (swept.oldCells.symm ▸ old), (eraseMark_free stays).trans live.2⟩, stays⟩
    · have stay := (survive a here).mpr ⟨live.2, keep⟩
      have listed := cells.stays a here (below a here) stay
      have stays : (h'.mem a).eraseMark = (h.mem a).eraseMark := by
        rw [cells.kept a listed stay, same]
      exact ⟨⟨Or.inr listed, (eraseMark_free stays).trans live.2⟩, stays⟩
  · intro a ha live lost
    have goes : survives g a = false :=
      Bool.eq_false_iff.mpr fun stays => lost ((survive a ha).mp stays).2
    obtain ⟨f, hf, kf, lo, hi⟩ := cells.goes a ha (below a ha) goes
    refine ⟨f, hf, cells.free f hf kf, lo, ?_⟩
    rw [← eraseMark_extent (same a)]
    exact hi
  · intro a ha live
    have origin := cells.origin a ha
    cases stay : survives g a with
    | false =>
      have free := cells.free a ha stay
      rw [isFree, free] at live
      cases live
    | true =>
      have both := (survive a origin).mp stay
      exact ⟨both.2, Or.inr origin, both.1⟩
  · intro o
    rw [swept.remembered o, goodRemembered, Finset.mem_filter]
    constructor
    · rintro ⟨⟨ho, bad⟩, -⟩
      simp only [badRemembered, Bool.or_eq_false_iff, Bool.not_eq_false'] at bad
      exact ⟨ho, bad.1⟩
    · rintro ⟨ho, points⟩
      have old := (w.remembered o ho).1
      have young : cellsOf g.mem h.memoryYoung h.memoryYoungSize = youngCells h :=
        cellsOf_congr w.young fun c _ => eraseMark_extent (same c)
      refine ⟨⟨ho, ?_⟩, fun gone => ?_⟩
      · simp [badRemembered, points, inOld o old]
      · have := youngCells_isYoung w.young (young ▸ gone.1)
        rw [inOld o old] at this
        cases this
  · obtain ⟨mem, color, stack, remembered, flag, eq⟩ := swept.others
    have sizes : h'.memoryYoung = h.memoryYoung ∧ h'.memoryYoungSize = h.memoryYoungSize := by
      rw [eq]; exact ⟨rfl, rfl⟩
    rw [sizes.1, sizes.2]
    exact .of cells.tiles cells.least
  · obtain ⟨mem, color, stack, remembered, flag, eq⟩ := swept.others
    exact ⟨_, _, _, _, _, _, eq⟩

/-- A young collection keeps what can be reached and frees every other young object. -/
theorem heapGc_collects (h : Heap) (w : WellFormed h) (barrier : Barrier h) :
    YoungCollected h (heapGc h) (YoungReachable h) := by
  obtain ⟨frame, marks⟩ := markYoung_spec w
  rw [heapGc_eq]
  exact sweepYoung_collected (sweepYoung_swept w.toSpaces frame) w barrier marks

/-- A small heap: the special objects, an interpreter and its stack in old space, an
object the special objects hold and a garbage object in young space. -/
def sampleObject : Nat → Object
  | 1024 => ⟨false, 1, 0, typeOopArray, 4, 24, 1024,
      fun | 4 => 1024 | 5 => 1080 | 6 => 4096 | _ => 1⟩
  | 1080 => ⟨false, 2, 0, typeByteArray, 9, 40, 1024, fun | 4 => 1192 | _ => 1⟩
  | 1192 => ⟨false, 3, 0, typeOopArray, 4, 16, 1024, fun _ => 3⟩
  | 4096 => ⟨false, 4, 0, typeObject, 5, 0, 1024, fun _ => 7⟩
  | 4136 => ⟨false, 5, 0, typeObject, 5, 0, 1024, fun _ => 4096⟩
  | 4176 => ⟨false, idHashFree, 0, typeObject, 6, 0, 0, fun _ => 0⟩
  | _ => ⟨false, 0, 0, typeObject, 0, 0, 0, fun _ => 0⟩

def sampleHeap (limit : Nat) : Heap where
  mem := sampleObject
  markColor := true
  memoryOld := 1024
  memoryYoung := 4096
  memoryOldSize := 216
  memoryYoungSize := 128
  memoryOldLimit := limit
  specialObjectsOop := 1024
  lastHash := 0
  nextFree := 4096
  nextOldFree := 1024
  tenuredObjects := []
  markStack := []
  rememberedOldObjects := {1024}
  doFullGCNext := false
  cached := ⟨1080, 1, 1, 1⟩

theorem heapGc_collects_sample : YoungCollected (sampleHeap 1000) (heapGc (sampleHeap 1000))
    (YoungReachable (sampleHeap 1000)) :=
  heapGc_collects (sampleHeap 1000) (by decide +kernel) (by decide +kernel)

end SlateVm
