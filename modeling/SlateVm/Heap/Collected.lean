import SlateVm.Heap.FullGc
import SlateVm.Heap.YoungGc
import SlateVm.Heap.Guard

/-! What both collectors keep of a heap whose spaces are tiled, wherever its pointers
lead. -/
namespace SlateVm
open Tiling Steps

/-- A heap to allocate in: the searches start at cells, and young space has a hole. -/
structure Sound (h : Heap) : Prop extends Spaces h where
  even : h.memoryOld % 2 = 0 ∧ h.memoryYoung % 2 = 0
  nextYoung : objectIsYoung h h.nextFree = true →
    Boundary h.mem h.memoryYoung h.memoryYoungSize h.nextFree
  nextOld : objectIsOld h h.nextOldFree = true →
    Boundary h.mem h.memoryOld h.memoryOldSize h.nextOldFree
  hole : ∃ c ∈ youngCells h, isFree h c = true

def IsRoot (h : Heap) (a : Nat) : Prop := a ∈ specialRoots h true ∨ a ∈ stackRoots h true

/-- The heap `k` comes after `h`, and what was anchored there is still in place. -/
structure Kept (h k : Heap) (anchored : Nat → Prop) : Prop where
  sound : Sound k
  limits : k.memoryOld = h.memoryOld ∧ k.memoryOldLimit = h.memoryOldLimit ∧
    k.memoryYoung = h.memoryYoung ∧ k.memoryYoungSize = h.memoryYoungSize
  keeps : ∀ a, Live h a → anchored a → Live k a ∧ (k.mem a).outline = (h.mem a).outline
  guarded : Guarded [] h → Guarded [] k
  cached : k.cached = h.cached

/-- After a collection the search for a hole starts at the bottom. -/
structure Collected (h k : Heap) (anchored : Nat → Prop) : Prop extends Kept h k anchored where
  next : k.nextFree = k.memoryYoung

theorem Boundary.congr {mem mem' : Nat → Object} {memory memorySize obj : Nat}
    (t : Tiled mem memory memorySize)
    (same : ∀ c ∈ cellsOf mem memory memorySize, extent mem' c = extent mem c)
    (b : Boundary mem memory memorySize obj) : Boundary mem' memory memorySize obj := by
  obtain ⟨ds, tiles, sub⟩ := b
  refine ⟨ds, tiles.congr fun d hd => same d (sub d hd), fun d hd => ?_⟩
  rw [cellsOf_congr t same]
  exact sub d hd

theorem outline_of_eraseMark {o o' : Object} (same : o'.eraseMark = o.eraseMark) :
    o'.outline = o.outline := (congrArg Object.outline same :)

theorem hash_of_eraseMark {o o' : Object} (same : o'.eraseMark = o.eraseMark) :
    o'.hash = o.hash := (congrArg Object.hash same :)

theorem map_of_eraseMark {o o' : Object} (same : o'.eraseMark = o.eraseMark) :
    o'.map = o.map := (congrArg Object.map same :)

theorem pointsToYoung_congr {h k : Heap} {a b : Nat}
    (same : (k.mem a).eraseMark = (h.mem b).eraseMark)
    (range : k.memoryYoung = h.memoryYoung ∧ k.memoryYoungSize = h.memoryYoungSize) :
    pointsToYoung k a = pointsToYoung h b := by
  have points := pointers_eraseMark (k := k) (h := h) same
  have young : ∀ v, objectIsYoung k v = objectIsYoung h v := by
    intro v
    simp only [objectIsYoung, range.1, range.2]
  rw [Bool.eq_iff_iff, pointsToYoung_exists, pointsToYoung_exists, points]
  simp only [young]

section Young

variable {h : Heap}

def youngAnchored (h : Heap) (a : Nat) : Prop :=
  a ∈ oldCells h ∨ isPinnedObject h a = true ∨ IsRoot h a

theorem youngAnchored_root (s : Spaces h) {a : Nat} (young : a ∈ youngCells h)
    (anchored : youngAnchored h a) : a ∈ youngGcRoots h := by
  have notOld := s.young_not_old young
  simp only [youngGcRoots, List.mem_append, List.mem_filter]
  rcases anchored with old | pinned | special | stack
  · rw [oldCells_isOld s.old old] at notOld; cases notOld
  · exact Or.inl (Or.inl (Or.inl ⟨young, pinned⟩))
  · exact Or.inl (Or.inl (Or.inr (specialRoots_young.mpr ⟨special, notOld⟩)))
  · exact Or.inl (Or.inr (stackRoots_young.mpr ⟨stack, notOld⟩))

theorem heapGc_collected (s : Sound h) : Collected h (heapGc h) (youngAnchored h) := by
  obtain ⟨frame, rooted⟩ := markYoung_roots s.toSpaces
  rw [heapGc_eq]
  generalize markYoung h = g at frame rooted
  have swept := sweepYoung_swept s.toSpaces frame
  generalize sweepYoung g = k at swept ⊢
  obtain ⟨mem, color, stack, remembered, flag, shape⟩ := swept.others
  have range : k.memoryYoung = h.memoryYoung ∧ k.memoryYoungSize = h.memoryYoungSize := by
    rw [shape]; exact ⟨rfl, rfl⟩
  have oldRange : k.memoryOld = h.memoryOld ∧ k.memoryOldSize = h.memoryOldSize ∧
      k.memoryOldLimit = h.memoryOldLimit ∧ k.nextOldFree = h.nextOldFree := by
    rw [shape]; exact ⟨rfl, rfl, rfl, rfl⟩
  have next : k.nextFree = k.memoryYoung := by rw [shape]
  have cells := swept.cells
  have inOld : ∀ a ∈ oldCells h, (k.mem a).eraseMark = (h.mem a).eraseMark := fun a ha =>
    swept.oldSame a (s.not_both (oldCells_isOld s.old ha))
  have oldSizes : ∀ a ∈ oldCells h, extent k.mem a = extent h.mem a := fun a ha =>
    eraseMark_extent (inOld a ha)
  have below : ∀ a ∈ youngCells h, a < h.memoryYoung + h.memoryYoungSize := by
    intro a ha
    have := s.young.tiles.bounds a ha
    omega
  have young : Tiled k.mem k.memoryYoung k.memoryYoungSize := by
    rw [range.1, range.2]
    exact .of cells.tiles cells.least
  have even : k.memoryOld % 2 = 0 ∧ k.memoryYoung % 2 = 0 := by
    rw [oldRange.1, range.1]; exact s.even
  refine ⟨⟨⟨⟨?_, young, ?_, ?_⟩, even, fun _ => ?_, fun old => ?_, ?_⟩, ?_, ?_, ?_, ?_⟩, next⟩
  · rw [oldRange.1, oldRange.2.1]
    exact s.old.congr oldSizes
  · rw [oldRange.2.1, oldRange.2.2.1]; exact s.limit
  · rw [oldRange.1, oldRange.2.2.1, range.1, range.2]; exact s.apart
  · rw [next]; exact young.boundary_start
  · have before := s.nextOld (by
      simpa only [objectIsOld, oldRange.1, oldRange.2.1, oldRange.2.2.2] using old)
    rw [oldRange.1, oldRange.2.1, oldRange.2.2.2]
    exact before.congr s.old oldSizes
  · obtain ⟨c, hc, free⟩ := s.hole
    have goes : survives g c = false := by
      have : objectIsFree (g.mem c) = true := (eraseMark_free (swept.marked c)).trans free
      simp [survives, this]
    obtain ⟨e, he, ke, -⟩ := cells.goes c hc (below c hc) goes
    exact ⟨e, he, cells.free e he ke⟩
  · exact ⟨oldRange.1, oldRange.2.2.1, range.1, range.2⟩
  · intro a live anchored
    rcases live.1 with old | here
    · refine ⟨⟨Or.inl (swept.oldCells.symm ▸ old), ?_⟩, outline_of_eraseMark (inOld a old)⟩
      exact (eraseMark_free (inOld a old)).trans live.2
    · have stay : survives g a = true := by
        have free : objectIsFree (g.mem a) = false :=
          (eraseMark_free (swept.marked a)).trans live.2
        simp [survives, free, rooted a (youngAnchored_root s.toSpaces here anchored)]
      have listed := cells.stays a here (below a here) stay
      have same : (k.mem a).eraseMark = (h.mem a).eraseMark := by
        rw [cells.kept a listed stay, swept.marked a]
      exact ⟨⟨Or.inr listed, (eraseMark_free same).trans live.2⟩, outline_of_eraseMark same⟩
  · intro guarded
    have isYoung : ∀ v, objectIsYoung k v = objectIsYoung h v := by
      intro v
      simp only [objectIsYoung, range.1, range.2]
    refine ⟨oldRange.1 ▸ guarded.aligned, fun a hash => ?_, fun o ho live points => Or.inl ?_⟩
    · rcases cells.headers a with same | free
      · rw [same, map_of_eraseMark (swept.marked a), isYoung]
        rw [same, hash_of_eraseMark (swept.marked a)] at hash
        exact guarded.forwards a hash
      · rw [free] at hash; cases hash
    · rw [swept.oldCells] at ho
      have same := inOld o ho
      rw [pointsToYoung_congr same range] at points
      have known := guarded.barrier o ho ((eraseMark_free same).symm.trans live) points
      have notYoung := s.not_both (oldCells_isOld s.old ho)
      refine (swept.remembered o).mpr ⟨?_, fun gone => ?_⟩
      · have member : o ∈ h.rememberedOldObjects := by simpa using known
        simp [goodRemembered, badRemembered, member, points, notYoung]
      · have same : cellsOf g.mem h.memoryYoung h.memoryYoungSize = youngCells h :=
          cellsOf_congr s.young fun c _ => eraseMark_extent (swept.marked c)
        rw [youngCells_isYoung s.young (same ▸ gone.1)] at notYoung
        cases notYoung
  · rw [shape]

end Young

section Full

variable {h : Heap}

def fullAnchored (h : Heap) (a : Nat) : Prop :=
  isPinnedObject h a = true ∨ a ∈ oldCells h ∧ IsRoot h a

theorem fullAnchored_root {a : Nat} (live : Live h a) (anchored : fullAnchored h a) :
    a ∈ fullGcRoots h := by
  simp only [fullGcRoots, List.mem_append, List.mem_filter]
  rcases anchored with pinned | ⟨old, special | stack⟩
  · rcases live.1 with old | young
    · exact Or.inl (Or.inl (Or.inr ⟨old, pinned⟩))
    · exact Or.inl (Or.inl (Or.inl ⟨young, pinned⟩))
  · exact Or.inl (Or.inr special)
  · exact Or.inr stack

structure Tenured (h g : Heap) (anchored : Nat → Prop) : Prop where
  spaces : Spaces g
  next : Boundary g.mem g.memoryOld g.memoryOldSize g.nextOldFree
  hole : ∃ c ∈ youngCells g, isFree g c = true
  limits : g.memoryOld = h.memoryOld ∧ g.memoryOldLimit = h.memoryOldLimit ∧
    g.memoryYoung = h.memoryYoung ∧ g.memoryYoungSize = h.memoryYoungSize
  keeps : ∀ a, Live h a → anchored a → Live g a ∧ (g.mem a).outline = (h.mem a).outline
  guarded : Guarded [] h → Guarded g.tenuredObjects g
  cached : g.cached = h.cached

theorem tenureWalk_tenured (s : Sound h) :
    (∃ g, tenureWalk (sweptFull h) = .ok g ∧ Tenured h g (fullAnchored h)) ∨
      tenureWalk (sweptFull h) = .error .assertFailed := by
  obtain ⟨frame, rooted⟩ := markFull_roots s.toSpaces
  rw [sweptFull]
  generalize markFull h = m at frame rooted
  have swept := sweepFull_swept s.toSpaces frame
  generalize sweepFull m = k at swept ⊢
  rcases tenureWalk_spec swept.toSpaces swept.next swept.tenured with ⟨g, φ, run, t⟩ | ⟨fails, -⟩
  swap
  · exact Or.inr fails
  refine Or.inl ⟨g, run, ?_⟩
  have spaces := t.spaces swept.toSpaces
  have cells := swept.cells
  have range : g.memoryYoung = k.memoryYoung ∧ g.memoryYoungSize = k.memoryYoungSize ∧
      g.rememberedOldObjects = k.rememberedOldObjects ∧ g.cached = k.cached := by
    obtain ⟨_, _, _, _, _, rfl⟩ := t.others; exact ⟨rfl, rfl, rfl, rfl⟩
  have before : k.memoryOldLimit = h.memoryOldLimit ∧ k.cached = h.cached := by
    obtain ⟨_, _, _, _, _, _, _, rfl⟩ := swept.others; exact ⟨rfl, rfl⟩
  have limits : g.memoryOld = h.memoryOld ∧ g.memoryOldLimit = h.memoryOldLimit ∧
      g.memoryYoung = h.memoryYoung ∧ g.memoryYoungSize = h.memoryYoungSize :=
    ⟨t.memoryOld.trans swept.memoryOld.1, t.memoryOldLimit.trans before.1,
      range.1.trans swept.memoryYoung.1, range.2.1.trans swept.memoryYoung.2⟩
  have youngK : youngCells k = youngCells h := by
    rw [youngCells, swept.memoryYoung.1, swept.memoryYoung.2]
    refine cellsOf_congr s.young fun c hc => ?_
    rw [extent, swept.untouched c (youngCells_isYoung s.young hc)]
    exact eraseMark_extent (swept.marked c)
  have youngG : youngCells g = youngCells k := t.sameYoung swept.toSpaces
  have youngK_range : ∀ v, objectIsYoung k v = objectIsYoung h v := by
    intro v
    simp only [objectIsYoung, swept.memoryYoung.1, swept.memoryYoung.2]
  have below : ∀ a ∈ oldCells h, a < h.memoryOld + h.memoryOldSize := by
    intro a ha
    have := s.old.tiles.bounds a ha
    omega
  have atYoung : ∀ a ∈ youngCells h, (k.mem a).eraseMark = (h.mem a).eraseMark := by
    intro a ha
    rw [swept.untouched a (youngCells_isYoung s.young ha), swept.marked]
  refine ⟨spaces, t.memoryOld.symm ▸ t.next, ?_, limits, ?_, ?_, range.2.2.2.trans before.2⟩
  · obtain ⟨c, hc, free⟩ := s.hole
    have freeK : objectIsFree (k.mem c) = true := (eraseMark_free (atYoung c hc)).trans free
    have same := t.same c ((youngK_range c).trans (youngCells_isYoung s.young hc)) fun _ =>
      ⟨by simp [tenures, survives, freeK], by simp [dies, freeK]⟩
    exact ⟨c, by rw [youngG, youngK]; exact hc, by rw [isFree, same]; exact freeK⟩
  · intro a live anchored
    have mark := rooted a (fullAnchored_root live anchored)
    rcases live.1 with old | young
    · have free : objectIsFree (m.mem a) = false :=
        (eraseMark_free (swept.marked a)).trans live.2
      have stay : survives m a = true := by simp [survives, free, mark]
      have listed := cells.stays a old (below a old) stay
      have same := cells.kept a listed stay
      obtain ⟨there, kept⟩ := t.keeps a listed (by rw [isFree, same]; exact free)
      have all : (g.mem a).eraseMark = (h.mem a).eraseMark := by rw [kept, same, swept.marked]
      exact ⟨⟨Or.inl there, (eraseMark_free all).trans live.2⟩, outline_of_eraseMark all⟩
    · have pinned : objectIsPinned h a = true := by
        rcases anchored with pinned | ⟨old, -⟩
        · rw [← isPinnedObject_eq live.2]; exact pinned
        · have := s.young_not_old young
          rw [oldCells_isOld s.old old] at this
          cases this
      have isYoung := youngCells_isYoung s.young young
      have pinnedK : objectIsPinned k a = true :=
        (congrArg (fun o : Object => decide (0 < o.pinCount)) (atYoung a young) :).trans pinned
      have markK : objectIsMarked k a = true := by
        simp only [objectIsMarked, swept.untouched a isYoung, swept.color]
        exact mark
      have same := t.same a ((youngK_range a).trans isYoung) fun _ =>
        ⟨by simp [tenures, pinnedK], by simp [dies, markK]⟩
      have all : (g.mem a).eraseMark = (h.mem a).eraseMark := by rw [same, atYoung a young]
      exact ⟨⟨Or.inr (by rw [youngG, youngK]; exact young), (eraseMark_free all).trans live.2⟩,
        outline_of_eraseMark all⟩
  · intro guarded
    have isYoung : ∀ v, objectIsYoung g v = objectIsYoung h v := by
      intro v
      simp only [objectIsYoung, limits.2.2.1, limits.2.2.2]
    refine ⟨limits.1 ▸ guarded.aligned, fun a hash => ?_, fun o ho live points => ?_⟩
    · rcases t.headers a hash with ⟨front, go⟩ | same
      · rw [t.leaves a front go]
        exact spaces.not_both (oldCells_isOld spaces.old (t.copies a front go).1)
      · rw [same] at hash ⊢
        rcases cells.headers a with stays | free
        · rw [stays, hash_of_eraseMark (swept.marked a)] at hash
          rw [stays, map_of_eraseMark (swept.marked a), isYoung]
          exact guarded.forwards a hash
        · rw [free] at hash; cases hash
    · rcases t.only o ho with free | ⟨here, alive⟩ | ⟨c, hc, go, rfl⟩
      · rw [live] at free; cases free
      · left
        have origin := cells.origin o here
        have stay : survives m o = true := by
          cases stay : survives m o with
          | true => rfl
          | false =>
            have free := cells.free o here stay
            rw [isFree, free] at alive
            cases alive
        have same : (g.mem o).eraseMark = (h.mem o).eraseMark := by
          rw [(t.keeps o here alive).2, cells.kept o here stay, swept.marked]
        rw [pointsToYoung_congr same ⟨limits.2.2.1, limits.2.2.2⟩] at points
        have known := guarded.barrier o origin ((eraseMark_free same).symm.trans live) points
        rw [range.2.2.1]
        refine (swept.remembered o).mpr ⟨by simpa using known, fun gone => ?_⟩
        have marked : objectIsMarked m o = true := by
          simp only [survives, Bool.and_eq_true] at stay
          exact stay.2
        simp [forgotten, dies, marked] at gone
      · right
        rw [t.tenured]
        exact List.mem_map_of_mem (List.mem_filter.mpr ⟨hc, go⟩)

theorem Tenured.finish {g k : Heap} {anchored : Nat → Prop} (s : Sound h)
    (t : Tenured h g anchored) (stored : Stored g.tenuredObjects g k) :
    Collected h { finishTenure k with doFullGCNext := false } anchored := by
  have outline := stored.1
  have spaces := t.spaces.outline outline
  have limits := outline_bounds outline
  simp only [bounds, Prod.mk.injEq] at limits
  obtain ⟨memOld, memOldSize, limit, memYoung, memYoungSize⟩ := limits
  have fixed : k.tenuredObjects = g.tenuredObjects ∧ k.nextOldFree = g.nextOldFree ∧
      k.cached = g.cached :=
    ⟨(congrArg Heap.tenuredObjects outline :), (congrArg Heap.nextOldFree outline :),
      (congrArg Heap.cached outline :)⟩
  obtain ⟨mem, remembered, finish, swept, member⟩ := finishTenure_spec spaces.young
  rw [finish]
  have outside : ∀ x, objectIsYoung k x = false → mem x = k.mem x := by
    intro x away
    have out := mt objectInMemory_iff.mpr (Bool.eq_false_iff.mp away)
    exact swept.untouched x (by omega)
  have inOld : ∀ a ∈ oldCells k, mem a = k.mem a := fun a ha =>
    outside a (spaces.not_both (oldCells_isOld spaces.old ha))
  have oldSizes : ∀ a ∈ oldCells k, extent mem a = extent k.mem a := fun a ha =>
    congrArg objectTotalSize (inOld a ha)
  have newOld : cellsOf mem k.memoryOld k.memoryOldSize = oldCells k :=
    cellsOf_congr spaces.old oldSizes
  have young : Tiled mem k.memoryYoung k.memoryYoungSize := .of swept.tiles swept.least
  have below : ∀ a ∈ youngCells k, a < k.memoryYoung + k.memoryYoungSize := by
    intro a ha
    have := spaces.young.tiles.bounds a ha
    omega
  have even : k.memoryOld % 2 = 0 ∧ k.memoryYoung % 2 = 0 := by
    rw [memOld, memYoung, t.limits.1, t.limits.2.2.1]; exact s.even
  refine ⟨⟨⟨⟨?_, young, spaces.limit, spaces.apart⟩, even, fun _ => young.boundary_start,
      fun _ => ?_, ?_⟩,
    ⟨memOld.trans t.limits.1, limit.trans t.limits.2.1, memYoung.trans t.limits.2.2.1,
      memYoungSize.trans t.limits.2.2.2⟩, ?_, fun guarded => ?_, fixed.2.2.trans t.cached⟩, rfl⟩
  · exact spaces.old.congr oldSizes
  · have next := t.next
    rw [← memOld, ← memOldSize, ← fixed.2.1] at next
    have same : ∀ c ∈ cellsOf g.mem k.memoryOld k.memoryOldSize, extent k.mem c = extent g.mem c :=
      fun c _ => congrFun (outline_extent outline) c
    have tiledG : Tiled g.mem k.memoryOld k.memoryOldSize := by
      rw [memOld, memOldSize]; exact t.spaces.old
    exact (next.congr tiledG same).congr spaces.old oldSizes
  · obtain ⟨c, hc, free⟩ := t.hole
    rw [← outline_youngCells outline] at hc
    have freeK : objectIsFree (k.mem c) = true := (outline_isFree outline c).trans free
    obtain ⟨e, he, ke, -⟩ := swept.goes c hc (below c hc) (by simp [freeK])
    exact ⟨e, he, swept.free e he ke⟩
  · intro a live anchored
    obtain ⟨liveG, same⟩ := t.keeps a live anchored
    have liveK := (outline_live outline a).mpr liveG
    have sameK : (k.mem a).outline = (h.mem a).outline := (outline_mem outline a).trans same
    rcases liveK.1 with old | here
    · have stays := inOld a old
      have listed : a ∈ cellsOf mem k.memoryOld k.memoryOldSize := newOld.symm ▸ old
      refine ⟨⟨Or.inl listed, ?_⟩, (congrArg Object.outline stays).trans sameK⟩
      exact (congrArg objectIsFree stays).trans liveK.2
    · have keep : (!objectIsFree (k.mem a)) = true := by
        rw [show objectIsFree (k.mem a) = false from liveK.2]; rfl
      have listed := swept.stays a here (below a here) keep
      have stays := swept.kept a listed keep
      exact ⟨⟨Or.inr listed, (congrArg objectIsFree stays).trans liveK.2⟩,
        (congrArg Object.outline stays).trans sameK⟩
  · have guardedK := stored.2.2 t.spaces (t.guarded guarded)
    refine ⟨guardedK.aligned, fun a hash => ?_, fun o ho live points => Or.inl ?_⟩
    · rcases swept.headers a with same | free
      · have hash : (mem a).hash = idHashForwarded := hash
        rw [same] at hash
        show objectIsYoung k (mem a).map = false
        rw [same]
        exact guardedK.forwards a hash
      · have hash : (mem a).hash = idHashForwarded := hash
        rw [free] at hash
        cases hash
    · have ho : o ∈ oldCells k := newOld ▸ ho
      have same := inOld o ho
      have live : isFree k o = false := by rw [isFree, ← same]; exact live
      have points : pointsToYoung k o = true := by
        rw [← points]
        simp only [pointsToYoung, same]
        rfl
      refine (member o).mpr ((guardedK.barrier o ho live points).imp id fun listed => ?_)
      exact ⟨fixed.1 ▸ listed, points, oldCells_isOld spaces.old ho,
        oldCells_even spaces.old guardedK.aligned ho⟩

theorem heapFullGc_collected (s : Sound h) :
    (∃ k, heapFullGc h = .ok k ∧ Collected h k (fullAnchored h)) ∨
      heapFullGc h = .error .assertFailed := by
  rw [heapFullGc_eq]
  rcases tenureWalk_tenured s with ⟨g, run, t⟩ | fails
  swap
  · exact Or.inr (by rw [fails]; rfl)
  have update : Stores g.tenuredObjects g (do
      let k ← heapUpdateForwardedPointers g g.memoryOld g.memoryOldSize
      heapUpdateForwardedPointers k k.memoryYoung k.memoryYoungSize) :=
    .bind Stored.trans (heapUpdateForwardedPointers_stores t.spaces.old) fun k stored =>
      heapUpdateForwardedPointers_stores (t.spaces.outline stored.1).young
  have split : (do
      let g ← tenureWalk (sweptFull h)
      let g ← heapUpdateForwardedPointers g g.memoryOld g.memoryOldSize
      let g ← heapUpdateForwardedPointers g g.memoryYoung g.memoryYoungSize
      .ok { finishTenure g with doFullGCNext := false }) = (do
        let k ← heapUpdateForwardedPointers g g.memoryOld g.memoryOldSize
        heapUpdateForwardedPointers k k.memoryYoung k.memoryYoungSize) >>= fun k =>
          Except.ok { finishTenure k with doFullGCNext := false } := by
    rw [run, bind_assoc]
    rfl
  rw [split]
  rcases update with ⟨k, updated, stored⟩ | ⟨e, fails, rfl⟩
  · rw [updated]
    exact Or.inl ⟨_, rfl, t.finish s stored⟩
  · rw [fails]
    exact Or.inr rfl

end Full

end SlateVm
