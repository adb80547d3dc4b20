import SlateVm.Heap.Relocate

/-! The second half of a full collection: pointers are redirected, tenured objects
remembered, and the young free cells joined. -/
namespace SlateVm
open Tiling

def finishTenure (h : Heap) : Heap :=
  let h := h.tenuredObjects.foldl rememberTenured h
  let h := (sweepCells coalesce h h.memoryYoung h.memoryYoungSize).heap
  { h with nextFree := h.memoryYoung }

theorem heapTenure_eq (h : Heap) : heapTenure h = (do
    let g ← tenureWalk { h with nextOldFree := h.memoryOld, tenuredObjects := [] }
    let g ← heapUpdateForwardedPointers g g.memoryOld g.memoryOldSize
    let g ← heapUpdateForwardedPointers g g.memoryYoung g.memoryYoungSize
    .ok (finishTenure g)) := rfl

theorem heapFullGc_eq (h : Heap) : heapFullGc h = (do
    let g ← tenureWalk (sweptFull h)
    let g ← heapUpdateForwardedPointers g g.memoryOld g.memoryOldSize
    let g ← heapUpdateForwardedPointers g g.memoryYoung g.memoryYoungSize
    .ok { finishTenure g with doFullGCNext := false }) := by
  have start : heapFullGc h = (do
      let g ← heapTenure ((fun k : Heap => heapFreeAndCoalesceUnmarked k k.memoryOld k.memoryOldSize)
        (markFull h))
      .ok { g with doFullGCNext := false }) := rfl
  rw [start, heapTenure_eq, sweptFull]
  simp only [bind_assoc]
  rfl

section Remember

variable {h : Heap}

def remembers (h : Heap) (o : Nat) : Prop :=
  pointsToYoung h o = true ∧ objectIsOld h o = true ∧ oopIsSmallint o = false

theorem rememberTenured_spec (o : Nat) : ∃ remembered,
    rememberTenured h o = { h with rememberedOldObjects := remembered } ∧
      ∀ x, x ∈ remembered ↔ x ∈ h.rememberedOldObjects ∨ (x = o ∧ remembers h o) := by
  unfold rememberTenured heapRememberOldObject remembers
  cases points : pointsToYoung h o with
  | false => exact ⟨_, rfl, by simp⟩
  | true =>
    cases fits : (objectIsOld h o && !oopIsSmallint o) with
    | false =>
      refine ⟨_, rfl, fun x => ?_⟩
      simp only [Bool.and_eq_false_iff, Bool.not_eq_false'] at fits
      rcases fits with old | small <;> simp [*]
    | true =>
      simp only [Bool.and_eq_true, Bool.not_eq_true'] at fits
      refine ⟨_, rfl, fun x => ?_⟩
      simp [fits, or_comm]

theorem rememberTenured_foldl (os : List Nat) (h : Heap) : ∃ remembered,
    os.foldl rememberTenured h = { h with rememberedOldObjects := remembered } ∧
      ∀ x, x ∈ remembered ↔ x ∈ h.rememberedOldObjects ∨ (x ∈ os ∧ remembers h x) := by
  induction os generalizing h with
  | nil => exact ⟨_, rfl, by simp⟩
  | cons o os ih =>
    obtain ⟨first, one, here⟩ := rememberTenured_spec (h := h) o
    obtain ⟨rest, run, member⟩ := ih { h with rememberedOldObjects := first }
    refine ⟨rest, by rw [List.foldl_cons, one, run], fun x => ?_⟩
    have same : remembers { h with rememberedOldObjects := first } x ↔ remembers h x := Iff.rfl
    rw [member x, here x, same, List.mem_cons]
    constructor
    · rintro ((old | ⟨rfl, this⟩) | ⟨later, this⟩)
      · exact Or.inl old
      · exact Or.inr ⟨Or.inl rfl, this⟩
      · exact Or.inr ⟨Or.inr later, this⟩
    · rintro (old | ⟨rfl | later, this⟩)
      · exact Or.inl (Or.inl old)
      · exact Or.inl (Or.inr ⟨rfl, this⟩)
      · exact Or.inr ⟨later, this⟩

end Remember

section Redirect

variable {h g : Heap} {φ : Nat → Nat}

theorem pointers_eraseMark {k : Heap} {a b : Nat} (same : (k.mem a).eraseMark = (h.mem b).eraseMark) :
    pointers k a = pointers h b :=
  (congrArg (fun o : Object => o.map :: (oopFields o).filter fun v => !oopIsSmallint v) same :)

theorem Relocated.pointers_resolve (r : Relocated h g φ) {a : Nat} (live : Live g a) :
    ∀ v ∈ pointers g a, Resolves g φ v := by
  intro v hv
  obtain ⟨b, reached, rfl⟩ := r.source a live
  rw [pointers_eraseMark (r.object b reached).2] at hv
  exact r.resolves v (.child reached hv)

theorem Relocated.redirected (r : Relocated h g φ) : ∃ mem,
    (do
      let g ← heapUpdateForwardedPointers g g.memoryOld g.memoryOldSize
      heapUpdateForwardedPointers g g.memoryYoung g.memoryYoungSize) = .ok { g with mem := mem } ∧
      (∀ a, Live g a → mem a = (g.mem a).rename φ) ∧
      (∀ a, ¬Live g a → mem a = g.mem a) ∧ extent mem = extent g.mem := by
  have old := heapUpdateForwardedPointers_spec φ r.old
    (by simp only [markFuel]; omega)
    fun a ha live => r.pointers_resolve ⟨Or.inl ha, live⟩
  let g₁ := renamed φ (oldCells g) g
  have cells : cellsOf g₁.mem g.memoryYoung g.memoryYoungSize = youngCells g := by
    show cellsOf g₁.mem g.memoryYoung g.memoryYoungSize = cellsOf g.mem _ _
    simp only [cellsOf]
    rw [show extent g₁.mem = extent g.mem from renamed_extent]
  have outside : ∀ a ∈ youngCells g, a ∉ oldCells g := by
    intro a young old
    have := r.young_not_old young
    rw [oldCells_isOld r.old old] at this
    cases this
  have young : heapUpdateForwardedPointers g₁ g.memoryYoung g.memoryYoungSize =
      .ok (renamed φ (cellsOf g₁.mem g.memoryYoung g.memoryYoungSize) g₁) :=
    heapUpdateForwardedPointers_spec φ
    (r.young.congr fun c _ => congrFun renamed_extent c)
    (by show _ ≤ g.memoryOldSize + g.memoryYoungSize; omega)
    (fun a ha live v hv => by
      rw [cells] at ha
      have same : g₁.mem a = g.mem a := renamed_other (outside a ha)
      have live' : isFree g a = false := by rw [isFree, ← same]; exact live
      refine (r.pointers_resolve (a := a) ⟨Or.inr ha, live'⟩ v ?_).renamed
      rwa [pointers_eraseMark (h := g) (b := a) (congrArg Object.eraseMark same)] at hv)
  rw [cells] at young
  refine ⟨(renamed φ (youngCells g) g₁).mem, ?_, ?_, ?_, ?_⟩
  · rw [show heapUpdateForwardedPointers g g.memoryOld g.memoryOldSize = .ok g₁ from old]
    exact young
  · rintro a ⟨here | here, live⟩
    · have ny : a ∉ youngCells g := fun young => outside a young here
      rw [renamed_other ny, renamed_mem, if_pos ⟨here, live⟩]
    · rw [renamed_mem, if_pos ⟨here, (renamed_isFree a).trans live⟩,
        renamed_other (outside a here)]
  · intro a dead
    have ny : ¬(a ∈ youngCells g ∧ isFree g₁ a = false) := by
      rintro ⟨here, live⟩
      exact dead ⟨Or.inr here, (renamed_isFree a).symm.trans live⟩
    have no : ¬(a ∈ oldCells g ∧ isFree g a = false) := by
      rintro ⟨here, live⟩
      exact dead ⟨Or.inl here, live⟩
    rw [renamed_mem, if_neg ny, renamed_mem, if_neg no]
  · exact renamed_extent.trans renamed_extent

end Redirect

theorem finishTenure_spec {k : Heap} (young : Tiled k.mem k.memoryYoung k.memoryYoungSize) :
    ∃ mem remembered, finishTenure k = { k with
        mem := mem, rememberedOldObjects := remembered, nextFree := k.memoryYoung } ∧
      Swept k.mem (fun c => !objectIsFree (k.mem c)) (youngCells k) k.memoryYoung
        (k.memoryYoung + k.memoryYoungSize) mem (cellsOf mem k.memoryYoung k.memoryYoungSize) ∧
      ∀ x, x ∈ remembered ↔
        x ∈ k.rememberedOldObjects ∨ (x ∈ k.tenuredObjects ∧ remembers k x) := by
  obtain ⟨remembered, fold, member⟩ := rememberTenured_foldl k.tenuredObjects k
  obtain ⟨mem, joined, swept⟩ := coalesce_spec { k with rememberedOldObjects := remembered } young
  refine ⟨mem, remembered, ?_, swept, member⟩
  simp only [finishTenure, fold, joined]

/-- The heap `h'` is `g` with every object renamed and the free cells joined. -/
structure Settled (g h' : Heap) (φ : Nat → Nat) : Prop extends Spaces h' where
  sameOld : oldCells h' = oldCells g
  live : ∀ b, Live h' b ↔ Live g b
  object : ∀ b, Live g b → h'.mem b = (g.mem b).rename φ
  remembered : ∀ x, x ∈ h'.rememberedOldObjects →
    x ∈ g.rememberedOldObjects ∨ x ∈ g.tenuredObjects
  kept : ∀ x ∈ g.rememberedOldObjects, x ∈ h'.rememberedOldObjects
  added : ∀ x ∈ g.tenuredObjects, Live g x → remembers h' x → x ∈ h'.rememberedOldObjects
  others : ∃ mem remembered free flag, h' = { g with
    mem := mem, rememberedOldObjects := remembered, nextFree := free, doFullGCNext := flag }

theorem Relocated.settles {h g : Heap} {φ : Nat → Nat} (r : Relocated h g φ) : ∃ h',
    (do
      let g ← heapUpdateForwardedPointers g g.memoryOld g.memoryOldSize
      let g ← heapUpdateForwardedPointers g g.memoryYoung g.memoryYoungSize
      .ok { finishTenure g with doFullGCNext := false }) = .ok h' ∧ Settled g h' φ := by
  obtain ⟨mem₁, run, objects, dead, sizes⟩ := r.redirected
  have free₁ : ∀ a, objectIsFree (mem₁ a) = isFree g a := by
    intro a
    by_cases live : Live g a
    · rw [objects a live]; rfl
    · rw [dead a live]; rfl
  have young : Tiled mem₁ g.memoryYoung g.memoryYoungSize := r.young.congr fun c _ => congrFun sizes c
  obtain ⟨mem, remembered, finish, swept, member⟩ := finishTenure_spec (k := { g with mem := mem₁ }) young
  refine ⟨{ finishTenure { g with mem := mem₁ } with doFullGCNext := false }, ?_, ?_⟩
  · rw [← bind_assoc, run]
    rfl
  rw [finish]
  have cells : youngCells { g with mem := mem₁ } = youngCells g := by
    show cellsOf mem₁ _ _ = cellsOf g.mem _ _
    simp only [cellsOf, sizes]
  rw [cells] at swept
  have outside : ∀ x, objectIsYoung g x = false → mem x = mem₁ x := by
    intro x away
    have out := mt objectInMemory_iff.mpr (Bool.eq_false_iff.mp away)
    exact swept.untouched x (by simp only; omega)
  have inOld : ∀ a ∈ oldCells g, mem a = mem₁ a := fun a ha =>
    outside a (r.not_both (oldCells_isOld r.old ha))
  have stays : ∀ a ∈ youngCells g, isFree g a = false →
      a ∈ cellsOf mem g.memoryYoung g.memoryYoungSize ∧ mem a = mem₁ a := by
    intro a ha live
    have keep : (!objectIsFree (mem₁ a)) = true := by rw [free₁, live]; rfl
    have bound := r.young.tiles.bounds a ha
    have listed := swept.stays a ha (by simp only; omega) keep
    exact ⟨listed, swept.kept a listed keep⟩
  have comes : ∀ a ∈ cellsOf mem g.memoryYoung g.memoryYoungSize, objectIsFree (mem a) = false →
      a ∈ youngCells g ∧ isFree g a = false := by
    intro a ha live
    cases keep : !objectIsFree (mem₁ a) with
    | false => rw [swept.free a ha keep] at live; cases live
    | true => exact ⟨swept.origin a ha, by rw [free₁] at keep; simpa using keep⟩
  have oldSizes : ∀ c ∈ oldCells g, extent mem c = extent g.mem c := by
    intro c hc
    rw [extent, inOld c hc]
    exact congrFun sizes c
  have newOld : cellsOf mem g.memoryOld g.memoryOldSize = oldCells g :=
    cellsOf_congr r.old oldSizes
  have live : ∀ b, (b ∈ cellsOf mem g.memoryOld g.memoryOldSize ∨
      b ∈ cellsOf mem g.memoryYoung g.memoryYoungSize) ∧ objectIsFree (mem b) = false ↔ Live g b := by
    intro b
    rw [newOld]
    constructor
    · rintro ⟨old | young, live⟩
      · exact ⟨Or.inl old, by rw [← free₁, ← inOld b old]; exact live⟩
      · exact ⟨Or.inr (comes b young live).1, (comes b young live).2⟩
    · rintro ⟨old | young, live⟩
      · exact ⟨Or.inl old, by rw [inOld b old, free₁]; exact live⟩
      · obtain ⟨listed, same⟩ := stays b young live
        exact ⟨Or.inr listed, by rw [same, free₁]; exact live⟩
  have atLive : ∀ b, Live g b → mem b = mem₁ b := by
    rintro b ⟨old | young, live⟩
    · exact inOld b old
    · exact (stays b young live).2
  constructor
  · constructor
    · exact r.old.congr oldSizes
    · exact .of swept.tiles swept.least
    · exact r.limit
    · exact r.apart
  · exact newOld
  · exact live
  · exact fun b hb => (atLive b hb).trans (objects b hb)
  · intro x hx
    exact ((member x).mp hx).imp id fun both => both.1
  · exact fun x hx => (member x).mpr (Or.inl hx)
  · intro x hx hlive points
    refine (member x).mpr (Or.inr ⟨hx, ?_⟩)
    have same : mem x = mem₁ x := atLive x hlive
    refine ⟨?_, points.2⟩
    rw [← points.1]
    simp only [pointsToYoung, same]
    rfl
  · exact ⟨_, _, _, _, rfl⟩

end SlateVm
