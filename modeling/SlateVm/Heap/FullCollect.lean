import SlateVm.Heap.FullGc
import SlateVm.Heap.YoungGc

/-! A full collection moves the reachable objects and redirects every pointer, so the
graph that can be reached is the same up to the new addresses. -/
namespace SlateVm
open Tiling

/-- The objects a collection reads its roots from are objects it keeps in place, the
roots stand among their oops, and old space starts at an even address. -/
structure Rooted (h : Heap) : Prop where
  aligned : h.memoryOld % 2 = 0
  specialArray : FullReachable h h.specialObjectsOop
  specialFields : ∀ i < objectArraySize (h.mem h.specialObjectsOop),
    headerSizeWords + 1 + i ∈ oopWords (h.mem h.specialObjectsOop)
  interpreter : FullReachable h h.cached.interpreter
  interpreterStays : h.cached.interpreter ∈ oldCells h ∨
    isPinnedObject h h.cached.interpreter = true
  stackField : 4 ∈ oopWords (h.mem h.cached.interpreter)
  stackPointerField : 12 ∉ oopWords (h.mem h.cached.interpreter)
  stackArray : oopIsSmallint (interpreterStack h) = false
  stackFields : ∀ i < interpreterStackPointer h,
    headerSizeWords + 1 + i ∈ oopWords (h.mem (interpreterStack h))

/-- What a full collection does: `φ` gives the new address of a reachable object. -/
structure FullCollected (h h' : Heap) (φ : Nat → Nat) : Prop where
  object : ∀ a, FullReachable h a →
    Live h' (φ a) ∧ (h'.mem (φ a)).eraseMark = (h.mem a).eraseMark.rename φ
  edges : ∀ a, FullReachable h a → pointers h' (φ a) = (pointers h a).map φ
  injective : ∀ a b, FullReachable h a → FullReachable h b → φ a = φ b → a = b
  stays : ∀ a, FullReachable h a → (a ∈ oldCells h ∨ isPinnedObject h a = true) → φ a = a
  moves : ∀ a, FullReachable h a → a ∈ youngCells h → isPinnedObject h a = false →
    φ a ∈ oldCells h'
  specials : specialRoots h' true = (specialRoots h true).map φ
  stack : stackRoots h' true = (stackRoots h true).map φ
  reachable : ∀ b, FullReachable h' b ↔ ∃ a, FullReachable h a ∧ b = φ a
  onlyReachable : ∀ b, Live h' b → FullReachable h' b
  closed : ∀ b, Live h' b → ∀ v ∈ pointers h' b, Live h' v
  barrier : Barrier h'

theorem rename_pointers (φ : Nat → Nat) {o : Object}
    (big : ∀ v ∈ oopFields o, oopIsSmallint v = false → oopIsSmallint (φ v) = false) :
    (oopFields (o.rename φ)).filter (fun v => !oopIsSmallint v) =
      ((oopFields o).filter fun v => !oopIsSmallint v).map φ := by
  rw [rename_oopFields]
  generalize oopFields o = vs at big ⊢
  induction vs with
  | nil => rfl
  | cons v vs ih =>
    have rest := ih fun w hw => big w (List.mem_cons_of_mem _ hw)
    rw [List.map_cons, List.filter_cons, List.filter_cons, rest]
    cases small : oopIsSmallint v with
    | true => simp [renameOop, small]
    | false => simp [renameOop, small, big v (List.mem_cons_self ..) small]

section Final

variable {h g h' : Heap} {φ : Nat → Nat}

theorem Relocated.big (r : Relocated h g φ) (w : WellFormed h) (aligned : h.memoryOld % 2 = 0)
    {a : Nat} (reached : FullReachable h a) (big : oopIsSmallint a = false) :
    oopIsSmallint (φ a) = false := by
  rcases (FullReachable.live w reached).1 with old | young
  · rw [r.stays a reached (Or.inl old)]; exact big
  · cases pin : isPinnedObject h a with
    | true => rw [r.stays a reached (Or.inr pin)]; exact big
    | false =>
      have memOld : g.memoryOld = h.memoryOld := by
        obtain ⟨_, _, _, _, _, _, _, _, _, rfl⟩ := r.others; rfl
      exact oldCells_even r.old (memOld ▸ aligned) (r.moves a reached young pin).1

theorem Settled.object_renamed (s : Settled g h' φ) (r : Relocated h g φ) {a : Nat}
    (reached : FullReachable h a) :
    Live h' (φ a) ∧ (h'.mem (φ a)).eraseMark = (h.mem a).eraseMark.rename φ := by
  obtain ⟨live, same⟩ := r.object a reached
  refine ⟨(s.live _).mpr live, ?_⟩
  rw [s.object _ live, ← same]
  rfl

theorem Settled.edges (s : Settled g h' φ) (r : Relocated h g φ) (w : WellFormed h)
    (aligned : h.memoryOld % 2 = 0) {a : Nat} (reached : FullReachable h a) :
    pointers h' (φ a) = (pointers h a).map φ := by
  have same := (s.object_renamed r reached).2
  have fields := rename_pointers φ (o := (h.mem a).eraseMark) fun v hv big =>
    r.big w aligned (.child reached (List.mem_cons_of_mem _
      (List.mem_filter.mpr ⟨hv, by simp [big]⟩))) big
  have list : pointers h' (φ a) = ((h.mem a).eraseMark.rename φ).map ::
      (oopFields ((h.mem a).eraseMark.rename φ)).filter fun v => !oopIsSmallint v :=
    (congrArg (fun o : Object => o.map :: (oopFields o).filter fun v => !oopIsSmallint v) same :)
  rw [list, fields]
  rfl

theorem rootOf_rename {obj obj' : Nat} (same : obj' = renameOop φ obj)
    (big : oopIsSmallint obj = false → oopIsSmallint (φ obj) = false) :
    rootOf h' true obj' = (rootOf h true obj).map φ := by
  subst same
  unfold rootOf renameOop
  cases small : oopIsSmallint obj with
  | true => simp [small]
  | false => simp [big small]

theorem flatMap_rootOf {n : Nat} {f f' : Nat → Nat}
    (same : ∀ i < n, rootOf h' true (f' i) = (rootOf h true (f i)).map φ) :
    ((List.range n).flatMap fun i => rootOf h' true (f' i)) =
      ((List.range n).flatMap fun i => rootOf h true (f i)).map φ := by
  rw [List.map_flatMap]
  exact List.flatMap_congr fun i hi => same i (List.mem_range.mp hi)

theorem Settled.word (s : Settled g h' φ) (r : Relocated h g φ) {a : Nat}
    (reached : FullReachable h a) (k : Nat) : (h'.mem (φ a)).word k =
      if k ∈ oopWords (h.mem a) then renameOop φ ((h.mem a).word k) else (h.mem a).word k :=
  (congrFun (congrArg Object.word (s.object_renamed r reached).2) k :)

theorem Settled.specials (s : Settled g h' φ) (r : Relocated h g φ) (w : WellFormed h)
    (rooted : Rooted h) : specialRoots h' true = (specialRoots h true).map φ := by
  have place : h'.specialObjectsOop = φ h.specialObjectsOop := by
    rw [r.stays _ rooted.specialArray (Or.inl w.specialArray.1)]
    obtain ⟨_, _, _, _, rfl⟩ := s.others
    obtain ⟨_, _, _, _, _, _, _, _, _, rfl⟩ := r.others
    rfl
  have size : objectArraySize (h'.mem h'.specialObjectsOop) =
      objectArraySize (h.mem h.specialObjectsOop) := by
    rw [place]
    exact (congrArg objectArraySize (s.object_renamed r rooted.specialArray).2 :)
  rw [specialRoots, size]
  refine flatMap_rootOf fun i hi => ?_
  have field := rooted.specialFields i hi
  have word := s.word r rooted.specialArray (headerSizeWords + 1 + i)
  rw [if_pos field, ← place] at word
  refine rootOf_rename word fun big => r.big w rooted.aligned (.root (Or.inl ?_)) big
  refine List.mem_flatMap.mpr ⟨i, List.mem_range.mpr hi, ?_⟩
  simp [rootOf, big]

theorem Settled.stack (s : Settled g h' φ) (r : Relocated h g φ) (w : WellFormed h)
    (rooted : Rooted h) : stackRoots h' true = (stackRoots h true).map φ := by
  have place : h'.cached.interpreter = φ h.cached.interpreter := by
    rw [r.stays _ rooted.interpreter rooted.interpreterStays]
    obtain ⟨_, _, _, _, rfl⟩ := s.others
    obtain ⟨_, _, _, _, _, _, _, _, _, rfl⟩ := r.others
    rfl
  have array : interpreterStack h' = φ (interpreterStack h) := by
    have word := s.word r rooted.interpreter 4
    have big : oopIsSmallint ((h.mem h.cached.interpreter).word 4) = false := rooted.stackArray
    rw [if_pos rooted.stackField, ← place, renameOop, big] at word
    exact word
  have pointer : interpreterStackPointer h' = interpreterStackPointer h := by
    have word := s.word r rooted.interpreter 12
    rw [if_neg rooted.stackPointerField, ← place] at word
    exact word
  have reached : FullReachable h (interpreterStack h) := by
    refine .child rooted.interpreter (List.mem_cons_of_mem _ (List.mem_filter.mpr ⟨?_, ?_⟩))
    · exact List.mem_map.mpr ⟨4, rooted.stackField, rfl⟩
    · simp [rooted.stackArray]
  rw [stackRoots, pointer]
  refine flatMap_rootOf fun i hi => ?_
  have word := s.word r reached (headerSizeWords + 1 + i)
  rw [if_pos (rooted.stackFields i hi), ← array] at word
  refine rootOf_rename word fun big => r.big w rooted.aligned (.root (Or.inr (Or.inl ?_))) big
  refine List.mem_flatMap.mpr ⟨i, List.mem_range.mpr hi, ?_⟩
  simp [rootOf, big]

theorem Settled.collected (s : Settled g h' φ) (r : Relocated h g φ) (w : WellFormed h)
    (rooted : Rooted h) (barrier : Barrier h) : FullCollected h h' φ := by
  have specials := s.specials r w rooted
  have stack := s.stack r w rooted
  have edges : ∀ a, FullReachable h a → pointers h' (φ a) = (pointers h a).map φ :=
    fun a reached => s.edges r w rooted.aligned reached
  have source : ∀ b, Live h' b → ∃ a, FullReachable h a ∧ b = φ a :=
    fun b live => r.source b ((s.live b).mp live)
  have pinned : ∀ a, FullReachable h a → isPinnedObject h a = true → FullReachable h' (φ a) := by
    intro a reached pin
    obtain ⟨live, same⟩ := s.object_renamed r reached
    have pin' : isPinnedObject h' (φ a) = true := by
      rw [← pin]
      exact (congrArg (fun o : Object => decide (o.hash < idHashReserved) && decide (0 < o.pinCount))
        same :)
    rcases live.1 with old | young
    · exact .root (Or.inr (Or.inr (Or.inr ⟨old, pin'⟩)))
    · exact .root (Or.inr (Or.inr (Or.inl ⟨young, pin'⟩)))
  have reach : ∀ a, FullReachable h a → FullReachable h' (φ a) := by
    intro a reached
    have both := reached.least (C := fun a => FullReachable h a ∧ FullReachable h' (φ a)) ?_ ?_
    · exact both.2
    · intro a root
      have here : FullReachable h a := .root root
      refine ⟨here, ?_⟩
      rcases root with special | onStack | ⟨_, pin⟩ | ⟨_, pin⟩
      · exact .root (Or.inl (specials ▸ List.mem_map_of_mem special))
      · exact .root (Or.inr (Or.inl (stack ▸ List.mem_map_of_mem onStack)))
      · exact pinned a here pin
      · exact pinned a here pin
    · rintro a ⟨here, there⟩ v hv
      refine ⟨.child here hv, .child there ?_⟩
      rw [edges a here]
      exact List.mem_map_of_mem hv
  have closed : ∀ b, Live h' b → ∀ v ∈ pointers h' b, Live h' v := by
    intro b live v hv
    obtain ⟨a, reached, rfl⟩ := source b live
    rw [edges a reached] at hv
    obtain ⟨u, hu, rfl⟩ := List.mem_map.mp hv
    exact (s.object_renamed r (.child reached hu)).1
  refine ⟨fun a reached => s.object_renamed r reached, edges, r.injective, r.stays, ?_, specials,
    stack, ?_, ?_, closed, ?_⟩
  · intro a reached young pin
    rw [s.sameOld]
    exact (r.moves a reached young pin).1
  · intro b
    refine ⟨fun reached => ?_, fun ⟨a, reached, eq⟩ => eq ▸ reach a reached⟩
    refine reached.least (C := fun b => ∃ a, FullReachable h a ∧ b = φ a) ?_ ?_
    · rintro b (special | onStack | ⟨young, pin⟩ | ⟨old, pin⟩)
      · rw [specials] at special
        obtain ⟨a, ha, rfl⟩ := List.mem_map.mp special
        exact ⟨a, .root (Or.inl ha), rfl⟩
      · rw [stack] at onStack
        obtain ⟨a, ha, rfl⟩ := List.mem_map.mp onStack
        exact ⟨a, .root (Or.inr (Or.inl ha)), rfl⟩
      · exact source b ⟨Or.inr young, pinned_live pin⟩
      · exact source b ⟨Or.inl old, pinned_live pin⟩
    · rintro b ⟨a, here, rfl⟩ v hv
      rw [edges a here] at hv
      obtain ⟨u, hu, rfl⟩ := List.mem_map.mp hv
      exact ⟨u, .child here hu, rfl⟩
  · intro b live
    obtain ⟨a, reached, rfl⟩ := source b live
    exact reach a reached
  · intro b hb free points
    obtain ⟨a, reached, rfl⟩ := source b ⟨Or.inl hb, free⟩
    have live := FullReachable.live w reached
    have range : ∀ x, objectIsYoung g x = objectIsYoung h x := by
      obtain ⟨_, _, _, _, _, _, _, _, _, rfl⟩ := r.others
      exact fun x => rfl
    have range' : ∀ x, objectIsYoung h' x = objectIsYoung g x := by
      obtain ⟨_, _, _, _, rfl⟩ := s.others
      exact fun x => rfl
    have notYoung : ∀ x ∈ oldCells g, objectIsYoung h x = false := fun x hx =>
      (range x).symm.trans (r.not_both (oldCells_isOld r.old hx))
    rcases live.1 with old | young
    · -- an old object already held the pinned young pointer, and was remembered
      obtain ⟨v, hv, young⟩ := pointsToYoung_exists.mp points
      rw [edges a reached] at hv
      obtain ⟨u, hu, rfl⟩ := List.mem_map.mp hv
      rw [range', range] at young
      have ureach : FullReachable h u := .child reached hu
      have still : φ u = u := by
        rcases (FullReachable.live w ureach).1 with uold | uyoung
        · exact r.stays u ureach (Or.inl uold)
        · cases pin : isPinnedObject h u with
          | true => exact r.stays u ureach (Or.inr pin)
          | false =>
            rw [notYoung _ (r.moves u ureach uyoung pin).1] at young
            cases young
      rw [still] at young
      have known := barrier a old live.2 (pointsToYoung_of hu young)
      rw [r.stays a reached (Or.inl old)]
      exact s.kept a (r.remembered a known reached)
    · -- a young object in old space has been tenured
      cases pin : isPinnedObject h a with
      | true =>
        have place := r.stays a reached (Or.inr pin)
        have away := notYoung (φ a) (s.sameOld ▸ hb)
        rw [place, youngCells_isYoung w.young young] at away
        cases away
      | false =>
        obtain ⟨_, listed⟩ := r.moves a reached young pin
        have memOld : h'.memoryOld = h.memoryOld := by
          obtain ⟨_, _, _, _, rfl⟩ := s.others
          obtain ⟨_, _, _, _, _, _, _, _, _, rfl⟩ := r.others
          rfl
        refine s.added _ listed (r.object a reached).1 ⟨points, oldCells_isOld s.old hb, ?_⟩
        exact oldCells_even s.old (memOld ▸ rooted.aligned) hb

end Final

open Classical in
noncomputable def survivorBytes (h : Heap) : Nat :=
  (((youngCells h).filter fun a => decide (isFree h a = false ∧ FullReachable h a ∧
    isPinnedObject h a = false)).map (extent h.mem)).sum

open Classical in
theorem FullMarked.tenuredBytes {h k : Heap} (m : FullMarked h k) (w : WellFormed h) :
    tenuredBytes k (youngCells k) = survivorBytes h := by
  rw [SlateVm.tenuredBytes, m.sameYoung w, survivorBytes]
  have same : (youngCells h).filter (tenures k) = (youngCells h).filter fun a =>
      decide (isFree h a = false ∧ FullReachable h a ∧ isPinnedObject h a = false) :=
    List.filter_congr fun a ha => by
      rw [Bool.eq_iff_iff, m.tenures_iff w ha, decide_eq_true_iff]
  rw [same]
  congr 1
  exact List.map_congr_left fun a ha => eraseMark_extent
    (m.youngSame a (youngCells_isYoung w.young (List.mem_filter.mp ha).1))

/-- The reachable graph after a full collection is the one before it, at new addresses;
only a full old space can stop the collection. -/
theorem heapFullGc_collects (h : Heap) (w : WellFormed h) (rooted : Rooted h)
    (barrier : Barrier h) :
    (∃ h' φ, heapFullGc h = .ok h' ∧ FullCollected h h' φ) ∨
      heapFullGc h = .error .assertFailed ∧
        h.memoryOldLimit ≤ h.memoryOldSize + survivorBytes h := by
  have m := sweptFull_spec w
  have bytes := m.tenuredBytes w
  have sizes : (sweptFull h).memoryOldLimit = h.memoryOldLimit ∧
      (sweptFull h).memoryOldSize = h.memoryOldSize := by
    obtain ⟨_, _, _, _, _, _, _, same⟩ := m.others
    rw [same]
    exact ⟨rfl, rfl⟩
  rw [heapFullGc_eq]
  rcases tenureWalk_spec m.toSpaces m.next m.tenured with ⟨g, φ, run, t⟩ | ⟨fails, limit⟩
  · have r := t.relocated w m
    obtain ⟨h', rest, s⟩ := r.settles
    rw [run]
    exact Or.inl ⟨h', _, rest, s.collected r w rooted barrier⟩
  · rw [fails]
    exact Or.inr ⟨rfl, by omega⟩

theorem Rooted.relimit {h : Heap} (r : Rooted h) (limit : Nat) :
    Rooted { h with memoryOldLimit := limit } :=
  ⟨r.aligned, r.specialArray, r.specialFields, r.interpreter, r.interpreterStays, r.stackField,
    r.stackPointerField, r.stackArray, r.stackFields⟩

theorem sampleHeap_facts : (∀ limit, Rooted (sampleHeap limit)) ∧
    (WellFormed (sampleHeap 1000) ∧ Barrier (sampleHeap 1000)) ∧
    WellFormed (sampleHeap 216) ∧ Barrier (sampleHeap 216) ∧
      (heapFullGc (sampleHeap 216)).isOk = false := by
  have rooted : Rooted (sampleHeap 0) :=
    { aligned := by decide
      specialArray := .root (Or.inl (by decide +kernel))
      specialFields := by decide +kernel
      interpreter := .root (Or.inl (by decide +kernel))
      interpreterStays := Or.inl (by decide +kernel)
      stackField := by decide +kernel
      stackPointerField := by decide +kernel
      stackArray := by decide +kernel
      stackFields := by decide +kernel }
  exact ⟨rooted.relimit, by decide +kernel, by decide +kernel⟩

theorem heapFullGc_collects_sample :
    (∃ h' φ, heapFullGc (sampleHeap 1000) = .ok h' ∧ FullCollected (sampleHeap 1000) h' φ) ∨
      heapFullGc (sampleHeap 1000) = .error .assertFailed ∧
        1000 ≤ 216 + survivorBytes (sampleHeap 1000) := by
  obtain ⟨rooted, ⟨wellFormed, barrier⟩, -⟩ := sampleHeap_facts
  exact heapFullGc_collects (sampleHeap 1000) wellFormed (rooted 1000) barrier

/-- Old space may be full to its limit, and then the first object to move stops the
collection. -/
theorem heapFullGc_old_space_full :
    WellFormed (sampleHeap 216) ∧ Rooted (sampleHeap 216) ∧ Barrier (sampleHeap 216) ∧
      ¬∃ h', heapFullGc (sampleHeap 216) = .ok h' := by
  obtain ⟨rooted, -, wellFormed, barrier, stopped⟩ := sampleHeap_facts
  refine ⟨wellFormed, rooted 216, barrier, ?_⟩
  rintro ⟨h', run⟩
  rw [run] at stopped
  cases stopped

end SlateVm
