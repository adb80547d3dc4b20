import SlateVm.Heap.FullCollect
import SlateVm.Heap.Collected

/-! A heap whose pointers lead to objects stays one under both collectors. -/
namespace SlateVm
open Tiling

structure Intact (h : Heap) : Prop where
  wellFormed : WellFormed h
  rooted : Rooted h
  barrier : Barrier h

/-- The object `a` of `h` is still in place in `k`, and can still be reached. -/
structure Held (h k : Heap) (a : Nat) : Prop where
  reached : FullReachable k a
  live : Live k a
  old : a ∈ oldCells h → a ∈ oldCells k
  same : (k.mem a).outline = (h.mem a).outline

theorem Held.trans {h k m : Heap} {a : Nat} (first : Held h k a) (second : Held k m a) :
    Held h m a :=
  ⟨second.reached, second.live, second.old ∘ first.old, second.same.trans first.same⟩

theorem Sound.live_even {h : Heap} (s : Sound h) {a : Nat} (live : Live h a) :
    oopIsSmallint a = false := by
  rcases live.1 with old | young
  · exact oldCells_even s.old s.even.1 old
  · have even := s.young.tiles.aligned (m := 2) (fun c => by
      simp only [extent, objectTotalSize, sizeofWord]; omega) a young
    rw [s.even.2] at even
    simp [oopIsSmallint, even]

section Same

variable {h k : Heap}

theorem rootOf_all : rootOf k true = rootOf h true := by
  funext obj
  simp [rootOf]

theorem specialRoots_congr (place : k.specialObjectsOop = h.specialObjectsOop)
    (same : (k.mem h.specialObjectsOop).eraseMark = (h.mem h.specialObjectsOop).eraseMark) :
    specialRoots k true = specialRoots h true := by
  have size : objectArraySize (k.mem h.specialObjectsOop) =
      objectArraySize (h.mem h.specialObjectsOop) := (congrArg objectArraySize same :)
  have words : (k.mem h.specialObjectsOop).word = (h.mem h.specialObjectsOop).word :=
    (congrArg Object.word same :)
  simp only [specialRoots, getSpecial, place, size, words, rootOf_all (k := k) (h := h)]

theorem stackRoots_congr (place : k.cached = h.cached)
    (interpreter : (k.mem h.cached.interpreter).eraseMark = (h.mem h.cached.interpreter).eraseMark)
    (stack : (k.mem (interpreterStack h)).eraseMark = (h.mem (interpreterStack h)).eraseMark) :
    interpreterStack k = interpreterStack h ∧
      interpreterStackPointer k = interpreterStackPointer h ∧
      stackRoots k true = stackRoots h true := by
  have fields : (k.mem h.cached.interpreter).word = (h.mem h.cached.interpreter).word :=
    (congrArg Object.word interpreter :)
  have array : interpreterStack k = interpreterStack h := by
    simp only [interpreterStack, place, fields]
  have pointer : interpreterStackPointer k = interpreterStackPointer h := by
    simp only [interpreterStackPointer, place, fields]
  have words : (k.mem (interpreterStack h)).word = (h.mem (interpreterStack h)).word :=
    (congrArg Object.word stack :)
  refine ⟨array, pointer, ?_⟩
  simp only [stackRoots, stackElement, pointer, array, words, rootOf_all (k := k) (h := h)]

theorem isPinnedObject_congr {a : Nat} (same : (k.mem a).outline = (h.mem a).outline) :
    isPinnedObject k a = isPinnedObject h a :=
  (congrArg (fun o : Object => decide (o.hash < idHashReserved) && decide (0 < o.pinCount)) same :)

theorem FullReachable.young {a : Nat} (reached : FullReachable h a) : YoungReachable h a :=
  Marking.Reach.mono (fun _ root => root.imp id (Or.imp id (Or.imp id fun old =>
    ⟨old.1, pinned_live old.2⟩))) reached

theorem Rooted.stack_reached (r : Rooted h) : FullReachable h (interpreterStack h) := by
  refine .child r.interpreter (List.mem_cons_of_mem _ (List.mem_filter.mpr ⟨?_, ?_⟩))
  · exact List.mem_map.mpr ⟨4, r.stackField, rfl⟩
  · simp [r.stackArray]

end Same

section Young

variable {h h' : Heap}

theorem YoungCollected.intact (i : Intact h) (s : Spaces h')
    (c : YoungCollected h h' (YoungReachable h)) :
    Intact h' ∧ ∀ a, FullReachable h a → FullReachable h' a := by
  obtain ⟨w, rooted, barrier⟩ := i
  have keep : ∀ a, FullReachable h a →
      Live h' a ∧ (h'.mem a).eraseMark = (h.mem a).eraseMark := fun a reached =>
    c.kept a (FullReachable.live w reached) reached.young
  have range : h'.memoryOld = h.memoryOld ∧ h'.memoryYoung = h.memoryYoung ∧
      h'.memoryYoungSize = h.memoryYoungSize ∧ h'.specialObjectsOop = h.specialObjectsOop ∧
      h'.cached = h.cached := by
    obtain ⟨_, _, _, _, _, _, rfl⟩ := c.others
    exact ⟨rfl, rfl, rfl, rfl, rfl⟩
  obtain ⟨memOld, memYoung, memYoungSize, special, cached⟩ := range
  have atSpecial := (keep _ rooted.specialArray).2
  have atInterpreter := (keep _ rooted.interpreter).2
  have atStack := (keep _ rooted.stack_reached).2
  have specials := specialRoots_congr special atSpecial
  obtain ⟨array, pointer, stack⟩ := stackRoots_congr cached atInterpreter atStack
  have origin : ∀ a, Live h' a → YoungReachable h a ∧ Live h a := by
    intro a live
    rcases live.1 with old | young
    · rw [c.oldCells] at old
      have same := c.oldSame a (w.not_both (oldCells_isOld w.old old))
      have before : isFree h a = false := (eraseMark_free same).symm.trans live.2
      exact ⟨.root (Or.inr (Or.inr (Or.inr ⟨old, before⟩))), Or.inl old, before⟩
    · exact c.onlyKept a young live.2
  have edges : ∀ a, Live h' a → pointers h' a = pointers h a := fun a live =>
    pointers_eraseMark (c.kept a (origin a live).2 (origin a live).1).2
  have reach : ∀ a, FullReachable h a → FullReachable h' a := by
    intro a reached
    have both := reached.least (C := fun a => FullReachable h a ∧ FullReachable h' a) ?_ ?_
    · exact both.2
    · intro a root
      have here : FullReachable h a := .root root
      refine ⟨here, ?_⟩
      obtain ⟨live, same⟩ := keep a here
      have pinned := isPinnedObject_congr (outline_of_eraseMark same)
      rcases root with inSpecials | onStack | ⟨_, pin⟩ | ⟨_, pin⟩
      · exact .root (Or.inl (specials ▸ inSpecials))
      · exact .root (Or.inr (Or.inl (stack ▸ onStack)))
      all_goals
        rcases live.1 with old | young
        · exact .root (Or.inr (Or.inr (Or.inr ⟨old, pinned.trans pin⟩)))
        · exact .root (Or.inr (Or.inr (Or.inl ⟨young, pinned.trans pin⟩)))
    · rintro a ⟨here, there⟩ v hv
      refine ⟨.child here hv, .child there ?_⟩
      rwa [pointers_eraseMark (keep a here).2]
  have words : ∀ a, FullReachable h a → oopWords (h'.mem a) = oopWords (h.mem a) :=
    fun a reached => (congrArg oopWords (keep a reached).2 :)
  refine ⟨⟨⟨s, fun a live v hv => ?_, ?_, fun v hv => ?_, fun v hv => ?_, fun o ho => ?_⟩, ?_, ?_⟩,
    reach⟩
  · rw [edges a live] at hv
    obtain ⟨reached, before⟩ := origin a live
    exact (c.kept v (w.closed a before v hv) (.child reached hv)).1
  · rw [special, c.oldCells]
    exact ⟨w.specialArray.1, (keep _ rooted.specialArray).1.2⟩
  · rw [specials] at hv
    exact (keep v (.root (Or.inl hv))).1
  · rw [stack] at hv
    exact (keep v (.root (Or.inr (Or.inl hv)))).1
  · obtain ⟨old, live⟩ := w.remembered o ((c.remembered o).mp ho).1
    have same := c.oldSame o (w.not_both (oldCells_isOld w.old old))
    exact ⟨c.oldCells ▸ old, (eraseMark_free same).trans live⟩
  · refine ⟨memOld ▸ rooted.aligned, special ▸ reach _ rooted.specialArray, ?_,
      cached ▸ reach _ rooted.interpreter, ?_, ?_, ?_, array ▸ rooted.stackArray, ?_⟩
    · rw [special, words _ rooted.specialArray]
      intro j hj
      have size : objectArraySize (h'.mem h.specialObjectsOop) =
          objectArraySize (h.mem h.specialObjectsOop) := (congrArg objectArraySize atSpecial :)
      exact rooted.specialFields j (size ▸ hj)
    · rw [cached, c.oldCells, isPinnedObject_congr (outline_of_eraseMark atInterpreter)]
      exact rooted.interpreterStays
    · rw [cached, words _ rooted.interpreter]
      exact rooted.stackField
    · rw [cached, words _ rooted.interpreter]
      exact rooted.stackPointerField
    · rw [pointer, array, words _ rooted.stack_reached]
      exact rooted.stackFields
  · intro o ho live points
    rw [c.oldCells] at ho
    have same := c.oldSame o (w.not_both (oldCells_isOld w.old ho))
    rw [pointsToYoung_congr same ⟨memYoung, memYoungSize⟩] at points
    exact (c.remembered o).mpr
      ⟨barrier o ho ((eraseMark_free same).symm.trans live) points, points⟩

theorem heapGc_intact (s : Sound h) (i : Intact h) :
    Intact (heapGc h) ∧ ∀ a, FullReachable h a → Held h (heapGc h) a := by
  have sound := (heapGc_collected s).sound
  obtain ⟨frame, marks⟩ := markYoung_spec i.wellFormed
  rw [heapGc_eq] at sound ⊢
  have swept := sweepYoung_swept s.toSpaces frame
  generalize sweepYoung (markYoung h) = k at sound swept ⊢
  have c := sweepYoung_collected swept i.wellFormed i.barrier marks
  obtain ⟨intact, reach⟩ := c.intact i sound.toSpaces
  refine ⟨intact, fun a reached => ?_⟩
  have kept := c.kept a (FullReachable.live i.wellFormed reached) reached.young
  exact ⟨reach a reached, kept.1, fun old => c.oldCells ▸ old, outline_of_eraseMark kept.2⟩

end Young

section Full

variable {h h' : Heap} {φ : Nat → Nat}

theorem FullCollected.intact (f : FullCollected h h' φ) (i : Intact h) (s : Sound h')
    (remembered : ∀ o ∈ h'.rememberedOldObjects, Live h' o ∧ objectIsYoung h' o = false)
    (place : h'.memoryOld = h.memoryOld ∧ h'.specialObjectsOop = h.specialObjectsOop ∧
      h'.cached = h.cached)
    (old : ∀ a, Live h' a → a ∈ oldCells h → a ∈ oldCells h') : Intact h' := by
  obtain ⟨w, rooted, -⟩ := i
  obtain ⟨memOld, special, cached⟩ := place
  have atSpecial := f.stays _ rooted.specialArray (Or.inl w.specialArray.1)
  have atInterpreter := f.stays _ rooted.interpreter rooted.interpreterStays
  have object : ∀ a, FullReachable h a → φ a = a →
      Live h' a ∧ (h'.mem a).eraseMark = (h.mem a).eraseMark.rename φ := by
    intro a reached fixed
    have moved := f.object a reached
    rwa [fixed] at moved
  have words : ∀ a, FullReachable h a → oopWords (h'.mem (φ a)) = oopWords (h.mem a) :=
    fun a reached => (congrArg oopWords (f.object a reached).2 :)
  obtain ⟨liveSpecial, sameSpecial⟩ := object _ rooted.specialArray atSpecial
  obtain ⟨liveInterpreter, sameInterpreter⟩ := object _ rooted.interpreter atInterpreter
  have reach : ∀ a, FullReachable h a → FullReachable h' (φ a) := fun a reached =>
    (f.reachable _).mpr ⟨a, reached, rfl⟩
  have field : ∀ k, (h'.mem h.cached.interpreter).word k =
      if k ∈ oopWords (h.mem h.cached.interpreter) then
        renameOop φ ((h.mem h.cached.interpreter).word k)
      else (h.mem h.cached.interpreter).word k :=
    fun k => (congrFun (congrArg Object.word sameInterpreter) k :)
  have array : interpreterStack h' = φ (interpreterStack h) := by
    have word := field 4
    have big : oopIsSmallint ((h.mem h.cached.interpreter).word 4) = false := rooted.stackArray
    rw [if_pos rooted.stackField, renameOop, big] at word
    rw [interpreterStack, cached]
    exact word
  have pointer : interpreterStackPointer h' = interpreterStackPointer h := by
    have word := field 12
    rw [if_neg rooted.stackPointerField] at word
    rw [interpreterStackPointer, cached]
    exact word
  have renamed : ∀ {roots : List Nat}, (∀ v ∈ roots, FullReachable h v) →
      ∀ v ∈ roots.map φ, Live h' v := by
    intro roots all v hv
    obtain ⟨a, ha, rfl⟩ := List.mem_map.mp hv
    exact (f.object a (all a ha)).1
  refine ⟨⟨s.toSpaces, f.closed, ?_, ?_, ?_, fun o ho => ?_⟩, ?_, f.barrier⟩
  · rw [special]
    exact ⟨old _ liveSpecial w.specialArray.1, liveSpecial.2⟩
  · rw [f.specials]
    exact renamed fun v hv => .root (Or.inl hv)
  · rw [f.stack]
    exact renamed fun v hv => .root (Or.inr (Or.inl hv))
  · obtain ⟨live, notYoung⟩ := remembered o ho
    rcases live.1 with here | young
    · exact ⟨here, live.2⟩
    · rw [youngCells_isYoung s.young young] at notYoung; cases notYoung
  · refine ⟨memOld ▸ rooted.aligned, ?_, ?_, ?_, ?_, ?_, ?_, ?_, ?_⟩
    · rw [special, ← atSpecial]
      exact reach _ rooted.specialArray
    · have fields := words _ rooted.specialArray
      have size : objectArraySize (h'.mem h.specialObjectsOop) =
          objectArraySize (h.mem h.specialObjectsOop) := (congrArg objectArraySize sameSpecial :)
      rw [atSpecial] at fields
      rw [special, size, fields]
      exact rooted.specialFields
    · rw [cached, ← atInterpreter]
      exact reach _ rooted.interpreter
    · rw [cached]
      rcases rooted.interpreterStays with inOld | pin
      · exact Or.inl (old _ liveInterpreter inOld)
      · refine Or.inr ((isPinnedObject_congr ?_).trans pin)
        exact (congrArg Object.outline sameInterpreter :)
    · have fields := words _ rooted.interpreter
      rw [atInterpreter] at fields
      rw [cached, fields]
      exact rooted.stackField
    · have fields := words _ rooted.interpreter
      rw [atInterpreter] at fields
      rw [cached, fields]
      exact rooted.stackPointerField
    · rw [array]
      exact s.live_even (f.object _ rooted.stack_reached).1
    · rw [pointer, array, words _ rooted.stack_reached]
      exact rooted.stackFields

theorem heapFullGc_intact (s : Sound h) (i : Intact h) :
    (∃ h', heapFullGc h = .ok h' ∧ Intact h' ∧ ∀ a, FullReachable h a →
      (a ∈ oldCells h ∨ isPinnedObject h a = true) → Held h h' a) ∨
      heapFullGc h = .error .assertFailed := by
  have w := i.wellFormed
  have m := sweptFull_spec w
  rcases heapFullGc_collected s with ⟨h', run, c⟩ | fails
  swap
  · exact Or.inr fails
  refine Or.inl ⟨h', run, ?_⟩
  rw [heapFullGc_eq] at run
  rcases tenureWalk_spec m.toSpaces m.next m.tenured with ⟨g, φ, walk, t⟩ | ⟨fails, -⟩
  swap
  · rw [fails] at run; cases run
  have r := t.relocated w m
  obtain ⟨k, rest, settled⟩ := r.settles
  rw [walk] at run
  cases rest.symm.trans run
  have f := settled.collected r w i.rooted i.barrier
  have place : h'.memoryOld = h.memoryOld ∧ h'.specialObjectsOop = h.specialObjectsOop ∧
      h'.cached = h.cached ∧ ∀ a, objectIsYoung h' a = objectIsYoung h a := by
    obtain ⟨_, _, _, _, rfl⟩ := settled.others
    obtain ⟨_, _, _, _, _, _, _, _, _, rfl⟩ := r.others
    exact ⟨rfl, rfl, rfl, fun a => rfl⟩
  obtain ⟨memOld, special, cached, range⟩ := place
  have notYoung : ∀ a ∈ oldCells h, objectIsYoung h' a = false := fun a ha =>
    (range a).trans (w.not_both (oldCells_isOld w.old ha))
  have old : ∀ a, Live h' a → a ∈ oldCells h → a ∈ oldCells h' := by
    intro a live ha
    rcases live.1 with here | young
    · exact here
    · have away := notYoung a ha
      rw [youngCells_isYoung c.sound.young young] at away
      cases away
  have remembered : ∀ o ∈ h'.rememberedOldObjects, Live h' o ∧ objectIsYoung h' o = false := by
    intro o ho
    rcases settled.remembered o ho with before | tenured
    · rw [t.rememberedOldObjects, m.remembered] at before
      have inOld := (w.remembered o before.1).1
      have live := (f.object o before.2).1
      rw [f.stays o before.2 (Or.inl inOld)] at live
      exact ⟨live, notYoung o inOld⟩
    · rw [t.tenured] at tenured
      obtain ⟨a, ha, rfl⟩ := List.mem_map.mp tenured
      obtain ⟨ha, go⟩ := List.mem_filter.mp ha
      obtain ⟨inOld, copy⟩ := t.copies a ha go
      have alive : objectIsFree ((sweptFull h).mem a) = false := by
        simp only [tenures, survives, Bool.and_eq_true, Bool.not_eq_true'] at go
        exact go.1.1
      have live : Live g (φ a) := ⟨Or.inl inOld, by rw [isFree, copy]; exact alive⟩
      refine ⟨(settled.live _).mpr live, settled.not_both (oldCells_isOld settled.old ?_)⟩
      rw [settled.sameOld]
      exact inOld
  refine ⟨f.intact i c.sound remembered ⟨memOld, special, cached⟩ old, fun a reached stays => ?_⟩
  have fixed := f.stays a reached stays
  obtain ⟨live, same⟩ := f.object a reached
  have reached' := (f.reachable _).mpr ⟨a, reached, rfl⟩
  rw [fixed] at live same reached'
  exact ⟨reached', live, old a live, (congrArg Object.outline same :)⟩

end Full

end SlateVm
