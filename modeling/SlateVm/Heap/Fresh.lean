import SlateVm.Heap.Collected

/-! A new cell is carved out of free space, and no object of the heap is touched. -/
namespace SlateVm
open Tiling

section Both

variable {mem mem' : Nat → Object} {m n n' m₂ n₂ bytes obj : Nat}

def liveIn (mem : Nat → Object) (m n m₂ n₂ a : Nat) : Prop :=
  (a ∈ cellsOf mem m n ∨ a ∈ cellsOf mem m₂ n₂) ∧ objectIsFree (mem a) = false

theorem Carved.fresh_ne (c : Carved mem mem' m n n' bytes obj) (t : Tiled mem m n) {a : Nat}
    (ha : a ∈ cellsOf mem m n) (live : objectIsFree (mem a) = false) : a ≠ obj := by
  rintro rfl
  rcases c.fresh with ⟨-, free⟩ | last
  · rw [live] at free; cases free
  · have := t.tiles.bounds a ha
    omega

theorem Carved.other (c : Carved mem mem' m n n' bytes obj) (t₂ : Tiled mem m₂ n₂)
    (apart : m + n' ≤ m₂ ∨ m₂ + n₂ ≤ m) :
    (∀ a ∈ cellsOf mem m₂ n₂, mem' a = mem a) ∧ cellsOf mem' m₂ n₂ = cellsOf mem m₂ n₂ := by
  have same : ∀ a ∈ cellsOf mem m₂ n₂, mem' a = mem a := by
    intro a ha
    have := t₂.tiles.bounds a ha
    exact c.away a (by omega)
  exact ⟨same, cellsOf_congr t₂ fun a ha => congrArg objectTotalSize (same a ha)⟩

theorem Carved.keeps_both (c : Carved mem mem' m n n' bytes obj) (t : Tiled mem m n)
    (t₂ : Tiled mem m₂ n₂) (apart : m + n' ≤ m₂ ∨ m₂ + n₂ ≤ m) {a : Nat}
    (live : liveIn mem m n m₂ n₂ a) :
    liveIn mem' m n' m₂ n₂ a ∧ mem' a = mem a ∧
      (a + SlateVm.extent mem a ≤ obj ∨ obj + bytes ≤ a) := by
  obtain ⟨same, cells⟩ := c.other t₂ apart
  have inside := c.tiled.tiles.bounds obj c.cell
  rw [c.extent] at inside
  obtain ⟨here | there, used⟩ := live
  · obtain ⟨member, kept⟩ := c.keeps a here used
    have size : SlateVm.extent mem' a = SlateVm.extent mem a := congrArg objectTotalSize kept
    have := c.tiled.tiles.apart member c.cell (c.fresh_ne t here used)
    rw [size, c.extent] at this
    exact ⟨⟨Or.inl member, kept ▸ used⟩, kept, this⟩
  · have kept := same a there
    have := t₂.tiles.bounds a there
    exact ⟨⟨Or.inr (cells ▸ there), kept ▸ used⟩, kept, by omega⟩

theorem Carved.only_both (c : Carved mem mem' m n n' bytes obj) (t₂ : Tiled mem m₂ n₂)
    (apart : m + n' ≤ m₂ ∨ m₂ + n₂ ≤ m) {a : Nat} (live : liveIn mem' m n' m₂ n₂ a) :
    a = obj ∨ liveIn mem m n m₂ n₂ a := by
  obtain ⟨same, cells⟩ := c.other t₂ apart
  obtain ⟨here | there, used⟩ := live
  · rcases c.only a here with new | free | ⟨member, used⟩
    · exact Or.inl new
    · rw [used] at free; cases free
    · exact Or.inr ⟨Or.inl member, used⟩
  · rw [cells] at there
    exact Or.inr ⟨Or.inr there, same a there ▸ used⟩

end Both

theorem Sound.reshape {h h' : Heap} (s : Sound h) (sizes : extent h'.mem = extent h.mem)
    (free : ∀ a, isFree h a = true → isFree h' a = true) (same : bounds h' = bounds h)
    (next : h'.nextFree = h.nextFree ∧ h'.nextOldFree = h.nextOldFree) : Sound h' := by
  simp only [bounds, Prod.mk.injEq] at same
  obtain ⟨old, oldSize, limit, young, youngSize⟩ := same
  have size : ∀ c, extent h'.mem c = extent h.mem c := congrFun sizes
  have cells : youngCells h' = youngCells h := by
    simp only [youngCells, cellsOf, sizes, young, youngSize]
  refine ⟨⟨?_, ?_, ?_, ?_⟩, by rw [old, young]; exact s.even, fun here => ?_, fun here => ?_, ?_⟩
  · rw [old, oldSize]
    exact s.old.congr fun c _ => size c
  · rw [young, youngSize]
    exact s.young.congr fun c _ => size c
  · rw [oldSize, limit]; exact s.limit
  · rw [old, limit, young, youngSize]; exact s.apart
  · rw [young, youngSize, next.1]
    refine (s.nextYoung ?_).congr s.young fun c _ => size c
    simpa only [objectIsYoung, young, youngSize, next.1] using here
  · rw [old, oldSize, next.2]
    refine (s.nextOld ?_).congr s.old fun c _ => size c
    simpa only [objectIsOld, old, oldSize, next.2] using here
  · obtain ⟨c, hc, hole⟩ := s.hole
    exact ⟨c, cells ▸ hc, free c hole⟩

/-- A cell of `bytes` bytes at `obj` has been carved out of the free space of `k`. -/
structure Fresh (k h : Heap) (obj bytes : Nat) : Prop where
  sound : Sound h
  live : Live h obj
  size : extent h.mem obj = bytes
  apart : ∀ a, Live k a → a + extent k.mem a ≤ obj ∨ obj + bytes ≤ a
  keeps : ∀ a, Live k a → Live h a ∧ h.mem a = k.mem a
  only : ∀ a, Live h a → a = obj ∨ Live k a
  guarded : Guarded [] k → Guarded [obj] h
  others : ∃ mem size hash next nextOld, h = { k with
    mem := mem, memoryOldSize := size, lastHash := hash, nextFree := next, nextOldFree := nextOld }

section Carve

variable {k : Heap} {mem : Nat → Object} {obj bytes : Nat}

theorem Carved.guarded {h : Heap} {m n n' : Nat} (c : Carved k.mem h.mem m n n' bytes obj)
    (range : k.memoryOld = h.memoryOld ∧ k.memoryYoung = h.memoryYoung ∧
      k.memoryYoungSize = h.memoryYoungSize)
    (known : k.rememberedOldObjects = h.rememberedOldObjects)
    (only : ∀ a ∈ oldCells h, isFree h a = false → a = obj ∨
      a ∈ oldCells k ∧ isFree k a = false ∧ h.mem a = k.mem a)
    (g : Guarded [] k) : Guarded [obj] h := by
  have young : ∀ a, objectIsYoung h a = objectIsYoung k a := by
    intro a
    simp only [objectIsYoung, range.2.1, range.2.2]
  refine ⟨range.1 ▸ g.aligned, fun a hash => ?_, fun a ha live points => ?_⟩
  · rw [young]
    rcases c.headers a with same | fresh
    · rw [same] at hash ⊢
      exact g.forwards a hash
    · exact absurd hash fresh
  · rcases only a ha live with new | ⟨here, used, same⟩
    · exact Or.inr (by simp [new])
    · have before : pointsToYoung k a = true := by
        rw [← pointsToYoung_congr (congrArg Object.eraseMark same)
          ⟨range.2.1.symm, range.2.2.symm⟩]
        exact points
      exact Or.inl (known ▸ by simpa using g.barrier a here used before)

theorem Fresh.young (s : Sound k) (hash : Nat)
    (c : Carved k.mem mem k.memoryYoung k.memoryYoungSize k.memoryYoungSize bytes obj) :
    Fresh k { k with mem := mem, lastHash := hash, nextFree := obj } obj bytes := by
  have apart : k.memoryYoung + k.memoryYoungSize ≤ k.memoryOld ∨
      k.memoryOld + k.memoryOldSize ≤ k.memoryYoung := by
    have := s.apart
    have := s.limit
    omega
  obtain ⟨same, cells⟩ := c.other s.old apart
  have sizes : ∀ a ∈ oldCells k, extent mem a = extent k.mem a := fun a ha =>
    congrArg objectTotalSize (same a ha)
  have both := fun a => c.keeps_both (a := a) s.young s.old apart
  have only : ∀ a, (a ∈ cellsOf mem k.memoryOld k.memoryOldSize ∨
      a ∈ cellsOf mem k.memoryYoung k.memoryYoungSize) → objectIsFree (mem a) = false →
      a = obj ∨ Live k a := fun a member used =>
    (c.only_both s.old apart ⟨member.symm, used⟩).imp id fun l => ⟨l.1.symm, l.2⟩
  refine ⟨⟨⟨s.old.congr sizes, c.tiled, s.limit, s.apart⟩, s.even, fun _ => c.tiled.boundary c.cell,
      fun here => (s.nextOld here).congr s.old sizes, c.hole rfl⟩,
    ⟨Or.inr c.cell, c.used⟩, c.extent, fun a live => (both a ⟨live.1.symm, live.2⟩).2.2,
    fun a live => ?_, fun a live => only a live.1 live.2,
    c.guarded ⟨rfl, rfl, rfl⟩ rfl fun a ha live => ?_, ⟨_, _, _, _, _, rfl⟩⟩
  · obtain ⟨l, kept, -⟩ := both a ⟨live.1.symm, live.2⟩
    exact ⟨⟨l.1.symm, l.2⟩, kept⟩
  · have ha : a ∈ cellsOf mem k.memoryOld k.memoryOldSize := ha
    rw [cells] at ha
    have kept := same a ha
    have used : objectIsFree (mem a) = false := live
    exact Or.inr ⟨ha, by rw [isFree, ← kept]; exact used, kept⟩

theorem Fresh.old (s : Sound k) (hash next : Nat) {size : Nat}
    (c : Carved k.mem mem k.memoryOld k.memoryOldSize size bytes obj)
    (limit : size ≤ k.memoryOldLimit) (start : objectIsYoung k next = true →
      Boundary k.mem k.memoryYoung k.memoryYoungSize next) :
    Fresh k { k with
      mem := mem, memoryOldSize := size, lastHash := hash, nextFree := next
      nextOldFree := obj } obj bytes := by
  have apart : k.memoryOld + size ≤ k.memoryYoung ∨
      k.memoryYoung + k.memoryYoungSize ≤ k.memoryOld := by
    have := s.apart
    omega
  obtain ⟨same, cells⟩ := c.other s.young apart
  have sizes : ∀ a ∈ youngCells k, extent mem a = extent k.mem a := fun a ha =>
    congrArg objectTotalSize (same a ha)
  have both := fun a => c.keeps_both (a := a) s.old s.young apart
  have only : ∀ a, (a ∈ cellsOf mem k.memoryOld size ∨
      a ∈ cellsOf mem k.memoryYoung k.memoryYoungSize) → objectIsFree (mem a) = false →
      a = obj ∨ Live k a := fun a member used => c.only_both s.young apart ⟨member, used⟩
  obtain ⟨hole, hhole, free⟩ := s.hole
  refine ⟨⟨⟨c.tiled, s.young.congr sizes, limit, s.apart⟩, s.even,
      fun here => (start here).congr s.young sizes, fun _ => c.tiled.boundary c.cell,
      ⟨hole, ?_, ?_⟩⟩,
    ⟨Or.inl c.cell, c.used⟩, c.extent, fun a live => (both a live).2.2, fun a live => ?_,
    fun a live => only a live.1 live.2, c.guarded ⟨rfl, rfl, rfl⟩ rfl fun a ha live => ?_,
    ⟨_, _, _, _, _, rfl⟩⟩
  · exact (cells.symm ▸ hhole : hole ∈ cellsOf mem k.memoryYoung k.memoryYoungSize)
  · have kept := same hole hhole
    exact (congrArg objectIsFree kept).trans free
  · obtain ⟨l, kept, -⟩ := both a live
    exact ⟨⟨l.1, l.2⟩, kept⟩
  · rcases only a (Or.inl ha) live with new | before
    · exact Or.inl new
    · have old : a ∈ oldCells k := by
        rcases before.1 with here | young
        · exact here
        · have inside := c.tiled.tiles.bounds a ha
          have range := s.young.tiles.bounds a young
          omega
      exact Or.inr ⟨old, before.2, (both a before).2.1⟩

end Carve

section Header

variable {k h : Heap} {obj bytes : Nat}

theorem Fresh.minCell_le (f : Fresh k h obj bytes) : minCell ≤ bytes := by
  rw [← f.size]
  rcases f.live.1 with old | young
  · exact f.sound.old.least obj old
  · exact f.sound.young.least obj young

theorem Fresh.new (f : Fresh k h obj bytes) {a : Nat} (live : Live k a) : a ≠ obj := by
  rintro rfl
  have least := f.minCell_le
  simp only [minCell, headerSizeWords, sizeofWord] at least
  have size := f.size
  have kept := (f.keeps a live).2
  rw [extent, kept] at size
  have := f.apart a live
  simp only [extent] at this
  omega

theorem Fresh.put (f : Fresh k h obj bytes) (hash : Nat) {x : Object}
    (size : objectTotalSize x = bytes) (used : objectIsFree x = false) :
    Fresh k ({ h with lastHash := hash }.put obj x) obj bytes := by
  have sizes : extent ({ h with lastHash := hash }.put obj x).mem = extent h.mem := by
    funext a
    by_cases here : a = obj
    · subst here
      rw [f.size, ← size]
      simp [extent]
    · simp [extent, here]
  have cells : ∀ memory memorySize, cellsOf ({ h with lastHash := hash }.put obj x).mem memory
      memorySize = cellsOf h.mem memory memorySize := by
    intro memory memorySize
    simp only [cellsOf, sizes]
  have free : ∀ a, isFree ({ h with lastHash := hash }.put obj x) a = isFree h a := by
    intro a
    by_cases here : a = obj
    · subst here
      have before : isFree h a = false := f.live.2
      rw [before]
      simpa [isFree] using used
    · simp [isFree, here]
  have old : oldCells ({ h with lastHash := hash }.put obj x) = oldCells h := cells _ _
  have young : youngCells ({ h with lastHash := hash }.put obj x) = youngCells h := cells _ _
  have live : ∀ a, Live ({ h with lastHash := hash }.put obj x) a ↔ Live h a := by
    intro a
    rw [Live, Live, old, young, free]
  refine ⟨f.sound.reshape sizes (fun a hole => (free a).trans hole) rfl ⟨rfl, rfl⟩,
    (live obj).mpr f.live, (congrFun sizes obj).trans f.size, f.apart, fun a here => ?_,
    fun a here => f.only a ((live a).mp here), fun g => ?_, ?_⟩
  · refine ⟨(live a).mpr (f.keeps a here).1, ?_⟩
    rw [← (f.keeps a here).2]
    simp [f.new here]
  · have before := f.guarded g
    refine ⟨before.aligned, fun a stamp => ?_, fun a ha alive points => ?_⟩
    · by_cases here : a = obj
      · subst here
        have stamp : x.hash = idHashForwarded := by simpa using stamp
        exact absurd stamp (used_notForwarded used)
      · have same : ({ h with lastHash := hash }.put obj x).mem a = h.mem a := by simp [here]
        rw [same] at stamp ⊢
        exact before.forwards a stamp
    · by_cases here : a = obj
      · exact Or.inr (by simp [here])
      · have same : ({ h with lastHash := hash }.put obj x).mem a = h.mem a := by simp [here]
        rw [pointsToYoung_congr (congrArg Object.eraseMark same) ⟨rfl, rfl⟩] at points
        rw [old] at ha
        exact before.barrier a ha (free a ▸ alive) points
  · obtain ⟨_, _, _, _, _, rfl⟩ := f.others
    exact ⟨_, _, _, _, _, rfl⟩

end Header

end SlateVm
