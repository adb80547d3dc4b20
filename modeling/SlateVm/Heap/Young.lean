import SlateVm.Heap.Marks
import SlateVm.Heap.Sweep

/-! What a young collection keeps: everything that can be reached from the
special objects, the stack, the pinned young objects and old space. -/
namespace SlateVm
open Tiling

/-- Both spaces are tiled, and old space cannot grow into young space. -/
structure Spaces (h : Heap) : Prop where
  old : Tiled h.mem h.memoryOld h.memoryOldSize
  young : Tiled h.mem h.memoryYoung h.memoryYoungSize
  limit : h.memoryOldSize ≤ h.memoryOldLimit
  apart : h.memoryOld + h.memoryOldLimit ≤ h.memoryYoung ∨
    h.memoryYoung + h.memoryYoungSize ≤ h.memoryOld

/-- No live pointer leaves the objects, and only old objects are remembered. -/
structure WellFormed (h : Heap) : Prop extends Spaces h where
  closed : ∀ a, Live h a → ∀ v ∈ pointers h a, Live h v
  specialArray : h.specialObjectsOop ∈ oldCells h ∧ isFree h h.specialObjectsOop = false
  specials : ∀ v ∈ specialRoots h true, Live h v
  stack : ∀ v ∈ stackRoots h true, Live h v
  remembered : ∀ o ∈ h.rememberedOldObjects, o ∈ oldCells h ∧ isFree h o = false

instance (h : Heap) : Decidable (Spaces h) :=
  decidable_of_iff (Tiled h.mem h.memoryOld h.memoryOldSize ∧
    Tiled h.mem h.memoryYoung h.memoryYoungSize ∧ h.memoryOldSize ≤ h.memoryOldLimit ∧
    (h.memoryOld + h.memoryOldLimit ≤ h.memoryYoung ∨
      h.memoryYoung + h.memoryYoungSize ≤ h.memoryOld))
    ⟨fun ⟨o, y, l, a⟩ => ⟨o, y, l, a⟩, fun s => ⟨s.old, s.young, s.limit, s.apart⟩⟩

instance (h : Heap) : Decidable (WellFormed h) :=
  decidable_of_iff (Spaces h ∧
    (∀ a ∈ oldCells h ++ youngCells h, isFree h a = false → ∀ v ∈ pointers h a, Live h v) ∧
    (h.specialObjectsOop ∈ oldCells h ∧ isFree h h.specialObjectsOop = false) ∧
    (∀ v ∈ specialRoots h true, Live h v) ∧ (∀ v ∈ stackRoots h true, Live h v) ∧
    ∀ o ∈ h.rememberedOldObjects, o ∈ oldCells h ∧ isFree h o = false)
    ⟨fun ⟨s, c, a, p, k, r⟩ =>
      ⟨s, fun a live => c a (List.mem_append.mpr live.1) live.2, a, p, k, r⟩,
    fun w => ⟨w.toSpaces, fun a ha live => w.closed a ⟨List.mem_append.mp ha, live⟩,
      w.specialArray, w.specials, w.stack, w.remembered⟩⟩

def Barrier (h : Heap) : Prop :=
  ∀ o ∈ oldCells h, isFree h o = false → pointsToYoung h o = true → o ∈ h.rememberedOldObjects

instance (h : Heap) : Decidable (Barrier h) :=
  inferInstanceAs (Decidable (∀ o ∈ oldCells h, isFree h o = false → pointsToYoung h o = true →
    o ∈ h.rememberedOldObjects))

def YoungReachable (h : Heap) : Nat → Prop :=
  Marking.Reach (pointers h) fun a => a ∈ specialRoots h true ∨ a ∈ stackRoots h true ∨
    (a ∈ youngCells h ∧ isPinnedObject h a = true) ∨ (a ∈ oldCells h ∧ isFree h a = false)

section Ranges

variable {h : Heap} {a : Nat}

theorem oldCells_isOld (t : Tiled h.mem h.memoryOld h.memoryOldSize) (ha : a ∈ oldCells h) :
    objectIsOld h a = true := by
  have := t.tiles.bounds a ha
  exact objectInMemory_iff.mpr (by omega)

theorem youngCells_isYoung (t : Tiled h.mem h.memoryYoung h.memoryYoungSize)
    (ha : a ∈ youngCells h) : objectIsYoung h a = true := by
  have := t.tiles.bounds a ha
  exact objectInMemory_iff.mpr (by omega)

theorem oldCells_even (old : Tiled h.mem h.memoryOld h.memoryOldSize)
    (aligned : h.memoryOld % 2 = 0) (ha : a ∈ oldCells h) : oopIsSmallint a = false := by
  have even := old.tiles.aligned (m := 2) (fun c => by
    simp only [extent, objectTotalSize, sizeofWord]; omega) a ha
  rw [aligned] at even
  simp [oopIsSmallint, even]

theorem Spaces.not_both (w : Spaces h) (old : objectIsOld h a = true) :
    objectIsYoung h a = false := by
  have o := objectInMemory_iff.mp old
  have limit := w.limit
  have apart := w.apart
  refine Bool.eq_false_iff.mpr fun young => ?_
  have y := objectInMemory_iff.mp young
  omega

theorem Spaces.young_not_old (w : Spaces h) (ha : a ∈ youngCells h) :
    objectIsOld h a = false :=
  Bool.eq_false_iff.mpr fun old => by
    have := w.not_both old
    rw [youngCells_isYoung w.young ha] at this
    cases this

theorem Spaces.live_old (w : Spaces h) (live : Live h a)
    (old : objectIsOld h a = true) : a ∈ oldCells h := by
  rcases live.1 with here | young
  · exact here
  · rw [w.young_not_old young] at old; cases old

end Ranges

def youngGcRoots (h : Heap) : List Nat :=
  (youngCells h).filter (isPinnedObject h) ++ specialRoots h false ++ stackRoots h false ++
    (h.rememberedOldObjects.sort (· ≤ ·)).flatMap (youngPointers h)

theorem frame_youngGcRoots {h h' : Heap} (same : h'.frame = h.frame) :
    youngGcRoots h' = youngGcRoots h := by
  simp only [youngGcRoots, frame_youngCells same, frame_isPinnedObject same,
    frame_specialRoots same, frame_stackRoots same, frame_remembered same,
    frame_youngPointers same]

section Roots

variable {h : Heap} {v : Nat}

theorem rootOf_young {obj : Nat} :
    v ∈ rootOf h false obj ↔ v ∈ rootOf h true obj ∧ objectIsOld h v = false := by
  unfold rootOf
  by_cases small : oopIsSmallint obj = true <;> by_cases old : objectIsOld h obj = true <;>
    simp [small, old]
  · rintro rfl; exact old
  · rintro rfl; simpa using old

theorem specialRoots_young :
    v ∈ specialRoots h false ↔ v ∈ specialRoots h true ∧ objectIsOld h v = false := by
  simp only [specialRoots, List.mem_flatMap, rootOf_young]
  tauto

theorem stackRoots_young :
    v ∈ stackRoots h false ↔ v ∈ stackRoots h true ∧ objectIsOld h v = false := by
  simp only [stackRoots, List.mem_flatMap, rootOf_young]
  tauto

theorem mem_youngPointers {o : Nat} :
    v ∈ youngPointers h o ↔ v ∈ pointers h o ∧ objectIsYoung h v = true := by
  simp only [youngPointers, pointers, fieldPointers, List.mem_append, List.mem_cons,
    List.mem_filter, Bool.and_eq_true]
  by_cases young : objectIsYoung h (h.mem o).map = true
  · rw [if_pos young, List.mem_singleton]
    constructor
    · rintro (rfl | ⟨hv, small, here⟩)
      · exact ⟨Or.inl rfl, young⟩
      · exact ⟨Or.inr ⟨hv, small⟩, here⟩
    · rintro ⟨rfl | ⟨hv, small⟩, here⟩
      · exact Or.inl rfl
      · exact Or.inr ⟨hv, small, here⟩
  · rw [if_neg young]
    constructor
    · rintro (none | ⟨hv, small, here⟩)
      · cases none
      · exact ⟨Or.inr ⟨hv, small⟩, here⟩
    · rintro ⟨rfl | ⟨hv, small⟩, here⟩
      · exact absurd here young
      · exact Or.inr ⟨hv, small, here⟩

theorem pointsToYoung_of {o : Nat} (hv : v ∈ pointers h o) (young : objectIsYoung h v = true) :
    pointsToYoung h o = true := by
  refine pointsToYoung_iff.mpr fun none => ?_
  have := mem_youngPointers.mpr ⟨hv, young⟩
  rw [none] at this
  cases this

theorem pointsToYoung_exists {o : Nat} : pointsToYoung h o = true ↔
    ∃ v ∈ pointers h o, objectIsYoung h v = true := by
  refine ⟨fun points => ?_, fun ⟨v, hv, young⟩ => pointsToYoung_of hv young⟩
  obtain ⟨v, hv⟩ := List.exists_mem_of_ne_nil _ (pointsToYoung_iff.mp points)
  exact ⟨v, mem_youngPointers.mp hv⟩

theorem pinned_live {a : Nat} (pinned : isPinnedObject h a = true) : isFree h a = false := by
  simp only [isPinnedObject, Bool.and_eq_true, decide_eq_true_eq] at pinned
  simpa [isFree, objectIsFree] using pinned.1

end Roots

section Reachability

variable {h : Heap}

theorem YoungReachable.live (w : WellFormed h) {a : Nat} (reached : YoungReachable h a) :
    Live h a := by
  refine reached.least (C := Live h) ?_ fun b live v hv => w.closed b live v hv
  rintro r (special | stack | ⟨young, pinned⟩ | ⟨old, live⟩)
  · exact w.specials r special
  · exact w.stack r stack
  · exact ⟨Or.inr young, pinned_live pinned⟩
  · exact ⟨Or.inl old, live⟩

theorem youngGcRoots_reachable (w : WellFormed h) {r : Nat} (hr : r ∈ youngGcRoots h) :
    YoungReachable h r := by
  simp only [youngGcRoots, List.mem_append, List.mem_filter, List.mem_flatMap,
    Finset.mem_sort] at hr
  rcases hr with ((⟨young, pinned⟩ | special) | stack) | ⟨o, ho, hr⟩
  · exact .root (Or.inr (Or.inr (Or.inl ⟨young, pinned⟩)))
  · exact .root (Or.inl (specialRoots_young.mp special).1)
  · exact .root (Or.inr (Or.inl (stackRoots_young.mp stack).1))
  · exact .child (.root (Or.inr (Or.inr (Or.inr (w.remembered o ho))))) (mem_youngPointers.mp hr).1

theorem young_reach_iff (w : WellFormed h) (barrier : Barrier h) {a : Nat}
    (young : objectIsOld h a = false) :
    Marking.Reach (followed h false) (· ∈ youngGcRoots h) a ↔ YoungReachable h a := by
  constructor
  · intro reached
    refine reached.least (fun r hr => youngGcRoots_reachable w hr) fun b hb v hv => ?_
    unfold followed at hv
    split at hv
    · cases hv
    · exact .child hb hv
  · intro reached
    let C := fun a => Live h a ∧ (objectIsOld h a = false →
      Marking.Reach (followed h false) (· ∈ youngGcRoots h) a)
    have all : C a := by
      refine reached.least (C := C) ?_ ?_
      · intro r hr
        refine ⟨YoungReachable.live w (.root hr), fun here => .root ?_⟩
        simp only [youngGcRoots, List.mem_append, List.mem_filter]
        rcases hr with special | stack | pinned | ⟨old, _⟩
        · exact Or.inl (Or.inl (Or.inr (specialRoots_young.mpr ⟨special, here⟩)))
        · exact Or.inl (Or.inr (stackRoots_young.mpr ⟨stack, here⟩))
        · exact Or.inl (Or.inl (Or.inl pinned))
        · rw [oldCells_isOld w.old old] at here; cases here
      · rintro b ⟨live, reach⟩ v hv
        have vlive := w.closed b live v hv
        refine ⟨vlive, fun here => ?_⟩
        have vyoung : objectIsYoung h v = true := by
          rcases vlive.1 with old | young
          · rw [oldCells_isOld w.old old] at here; cases here
          · exact youngCells_isYoung w.young young
        by_cases bold : objectIsOld h b = true
        · have known := barrier b (w.live_old live bold) live.2 (pointsToYoung_of hv vyoung)
          refine .root (List.mem_append_right _ (List.mem_flatMap.mpr ⟨b, ?_, ?_⟩))
          · exact (Finset.mem_sort _).mpr known
          · exact mem_youngPointers.mpr ⟨hv, vyoung⟩
        · have bold := Bool.eq_false_iff.mpr bold
          refine .child (reach bold) ?_
          simpa [followed, bold] using hv
    exact all.2 young

end Reachability

section Marking

variable {h : Heap}

def objects (h : Heap) : Finset Nat :=
  (oldCells h ++ youngCells h).toFinset.filter fun a => isFree h a = false

theorem mem_objects {a : Nat} : a ∈ objects h ↔ Live h a := by
  simp [objects, Live]

theorem objects_card (w : WellFormed h) : (objects h).card ≤ markFuel h := by
  have old := w.old.tiles.length_le
  have young := w.young.tiles.length_le
  have cells : (oldCells h ++ youngCells h).length ≤ markFuel h := by
    simp only [List.length_append, oldCells, youngCells, markFuel]
    omega
  have unique := List.toFinset_card_le (oldCells h ++ youngCells h)
  exact (Finset.card_filter_le _ _).trans (unique.trans cells)

theorem youngGcRoots_marks (t : Tiled h.mem h.memoryYoung h.memoryYoungSize) :
    ∃ g, Marks h g (youngGcRoots h) ∧
      heapMarkRemembered (heapMarkInterpreterStack (heapMarkSpecials (heapMarkPinnedYoung h) false)
        false) = { g with rememberedOldObjects :=
          (h.rememberedOldObjects.filter fun o => badRemembered h o = false) } := by
  have pinned : Marks h (heapMarkPinnedYoung h) ((youngCells h).filter (isPinnedObject h)) :=
    heapMarkPinned_marks t
  have specials := heapMarkSpecials_marks (heapMarkPinnedYoung h) false
  rw [frame_specialRoots pinned.frame] at specials
  have two := pinned.trans specials
  have stack := heapMarkInterpreterStack_marks (heapMarkSpecials (heapMarkPinnedYoung h) false) false
  rw [frame_stackRoots two.frame] at stack
  have three := two.trans stack
  obtain ⟨g, marks, outcome⟩ := heapMarkRemembered_spec
    (heapMarkInterpreterStack (heapMarkSpecials (heapMarkPinnedYoung h) false) false)
  rw [frame_remembered three.frame, frame_youngPointers three.frame] at marks
  rw [frame_remembered three.frame, frame_badRemembered three.frame] at outcome
  exact ⟨g, three.trans marks, outcome⟩

theorem heapMarkRecursively_grows (g : Heap) (markOld : Bool) :
    (heapMarkRecursively g markOld).frame = g.frame ∧ ∀ a, objectIsMarked g a = true →
      objectIsMarked (heapMarkRecursively g markOld) a = true := by
  obtain ⟨frame, drained⟩ := markLoop_drain markOld (markFuel g) g rfl
  refine ⟨frame, fun a marked => ?_⟩
  have grown := Marking.drain_grows (followed g markOld) (markFuel g) (marking g) marked
  rw [← drained] at grown
  exact grown

theorem heapMarkRecursively_spec {k g : Heap} (markOld : Bool) (stale : Nat → Prop)
    {roots : List Nat} (w : WellFormed h) (follow : followed g = followed h)
    (fuel : markFuel g = markFuel h) (visited : marking g = Marking.visitAll (marking k) roots)
    (empty : k.markStack = []) (clear : ∀ a, objectIsMarked k a = true ↔ stale a)
    (quiet : ∀ a, Live h a → stale a → followed h markOld a = [])
    (rooted : ∀ r ∈ roots, Live h r) :
    (heapMarkRecursively g markOld).frame = g.frame ∧
      ∀ a, objectIsMarked (heapMarkRecursively g markOld) a = true ↔
        stale a ∨ Marking.Reach (followed h markOld) (· ∈ roots) a := by
  have inside : ∀ a ∈ objects h, ∀ v ∈ followed h markOld a, v ∈ objects h := by
    intro a ha v hv
    have live := mem_objects.mp ha
    unfold followed at hv
    split at hv
    · cases hv
    · exact mem_objects.mpr (w.closed a live v hv)
  obtain ⟨-, marks⟩ := Marking.drain_marked inside (fun a ha => quiet a (mem_objects.mp ha))
    (s := marking k) empty clear roots (fun r hr => mem_objects.mpr (rooted r hr))
    ((objects_card w).trans (Nat.le_of_eq fuel.symm))
  obtain ⟨frame, drained⟩ := markLoop_drain markOld (markFuel g) g rfl
  rw [← visited, ← follow, ← drained] at marks
  refine ⟨frame, fun a => ?_⟩
  rw [← follow]
  exact marks a

def staleYoung (h : Heap) (a : Nat) : Prop :=
  objectIsMarked (heapStartGc h) a = true ∧ a ∉ youngCells h

def markYoung (h : Heap) : Heap :=
  let h := heapStartGc h
  let h := heapUnmarkAll h h.memoryYoung h.memoryYoungSize
  let h := heapMarkPinnedYoung h
  let h := heapMarkSpecials h false
  let h := heapMarkInterpreterStack h false
  let h := heapMarkRemembered h
  heapMarkRecursively h false

def goodRemembered (h : Heap) : Finset Nat :=
  h.rememberedOldObjects.filter fun o => badRemembered h o = false

theorem markYoung_marks (s : Spaces h) : ∃ k g, k.frame = (heapStartGc h).frame ∧
    k.markStack = [] ∧ (∀ a, objectIsMarked k a = true ↔ staleYoung h a) ∧
    Marks k g (youngGcRoots h) ∧
    markYoung h = heapMarkRecursively { g with rememberedOldObjects := goodRemembered h } false := by
  have t : Tiled (heapStartGc h).mem h.memoryYoung h.memoryYoungSize := s.young
  obtain ⟨base, empty, clear⟩ := heapUnmarkAll_spec t
  have start : markYoung h = heapMarkRecursively (heapMarkRemembered (heapMarkInterpreterStack
      (heapMarkSpecials (heapMarkPinnedYoung (heapUnmarkAll (heapStartGc h) h.memoryYoung
        h.memoryYoungSize)) false) false)) false := rfl
  rw [start]
  generalize heapUnmarkAll (heapStartGc h) h.memoryYoung h.memoryYoungSize = k at base empty clear
  have tk : Tiled k.mem k.memoryYoung k.memoryYoungSize := by
    rw [frame_memoryYoung base, frame_memoryYoungSize base]
    exact t.congr fun c _ => congrFun (frame_extent base) c
  obtain ⟨g, marks, outcome⟩ := youngGcRoots_marks tk
  have roots : youngGcRoots k = youngGcRoots h := (frame_youngGcRoots base).trans rfl
  rw [roots] at marks
  refine ⟨k, g, base, empty, clear, marks, ?_⟩
  rw [outcome, frame_remembered base, frame_badRemembered base]
  rfl

theorem markYoung_frame {k g : Heap} (base : k.frame = (heapStartGc h).frame)
    (marks : Marks k g (youngGcRoots h))
    (outcome : markYoung h =
      heapMarkRecursively { g with rememberedOldObjects := goodRemembered h } false) :
    (markYoung h).frame =
      { (heapStartGc h).frame with rememberedOldObjects := goodRemembered h } := by
  rw [outcome, (heapMarkRecursively_grows _ false).1]
  exact (congrArg (fun k : Heap => { k with rememberedOldObjects := goodRemembered h })
    (marks.frame.trans base) :)

theorem markYoung_roots (s : Spaces h) :
    (markYoung h).frame = { (heapStartGc h).frame with rememberedOldObjects := goodRemembered h } ∧
      ∀ r ∈ youngGcRoots h, objectIsMarked (markYoung h) r = true := by
  obtain ⟨k, g, base, -, -, marks, outcome⟩ := markYoung_marks s
  refine ⟨markYoung_frame base marks outcome, fun r hr => ?_⟩
  rw [outcome]
  exact (heapMarkRecursively_grows _ false).2 r (marks.marked r hr)

theorem markYoung_spec (w : WellFormed h) :
    (markYoung h).frame = { (heapStartGc h).frame with rememberedOldObjects := goodRemembered h } ∧
      ∀ a, objectIsMarked (markYoung h) a = true ↔
        staleYoung h a ∨ Marking.Reach (followed h false) (· ∈ youngGcRoots h) a := by
  obtain ⟨k, g, base, empty, clear, marks, outcome⟩ := markYoung_marks w.toSpaces
  refine ⟨markYoung_frame base marks outcome, ?_⟩
  have gframe : g.frame = (heapStartGc h).frame := marks.frame.trans base
  have drained := heapMarkRecursively_spec (g := { g with rememberedOldObjects := goodRemembered h })
    false (staleYoung h) w ((frame_followed gframe).trans rfl) (congrArg markFuel gframe :)
    marks.visited empty clear
    (fun a live stale => by
      rcases live.1 with old | young
      · simp [followed, oldCells_isOld w.old old]
      · exact absurd young stale.2)
    fun r hr => YoungReachable.live w (youngGcRoots_reachable w hr)
  rw [outcome]
  exact drained.2

end Marking

end SlateVm
