import SlateVm.Heap.Runs

/-! Stores into objects. A store goes with a call of the barrier; nothing is allocated
between the two, so that their order does not matter and one command stands for both. A
bare store is a place of the source that lacks the call, or makes it for another pair. -/
namespace SlateVm
open Tiling Steps

def smallintToObject (n : Nat) : Nat := 2 * n + 1

def objectToSmallint (x : Nat) : Nat := x / 2

/-- `small` writes a small integer, and `number` a field that holds no oop. -/
inductive Cmd where
  | barrier (src dest : Nat)
  | store (o k value : Nat)
  | bare (o k value : Nat)
  | small (o k n : Nat)
  | storeMap (o map : Nat)
  | bareMap (o map : Nat)
  | number (o k n : Nat)

def writable (h : Heap) (o k : Nat) (f : Except Halt Heap) : Except Halt Heap :=
  if k < objectWordSize (h.mem o) then f else .error .wildWrite

def Cmd.run (h : Heap) : Cmd → Except Halt Heap
  | .barrier src dest => heapStoreInto h src dest
  | .store o k value => writable h o k (objectSlotValueAtOffsetPut h o k value)
  | .bare o k value => writable h o k (.ok (h.put o ((h.mem o).setWord k value)))
  | .small o k n => writable h o k (.ok (h.put o ((h.mem o).setWord k (smallintToObject n))))
  | .storeMap o map => do
    let h ← heapStoreInto h o map
    .ok (h.put o { h.mem o with map := map })
  | .bareMap o map => .ok (h.put o { h.mem o with map := map })
  | .number o k n => writable h o k (.ok (h.put o ((h.mem o).setWord k n)))

def Quiet (h : Heap) (o value : Nat) : Prop :=
  objectIsOld h o = true → objectIsYoung h value = true → o ∈ h.rememberedOldObjects

instance (h : Heap) (o value : Nat) : Decidable (Quiet h o value) := by
  unfold Quiet
  infer_instance

def Cmd.Called (h : Heap) : Cmd → Prop
  | .storeMap o _ => isFree h o = false
  | .bareMap o _ => isFree h o = false
  | .number o k _ => k ∉ oopWords (h.mem o)
  | _ => True

def Cmd.Fits (h : Heap) : Cmd → Prop
  | .bare o _ value => oopIsSmallint value = true ∨ Quiet h o value
  | .bareMap o map => Quiet h o map
  | _ => True

section Words

variable {h k : Heap}

theorem writable_ok {o j : Nat} {f : Except Halt Heap} (run : writable h o j f = .ok k) :
    f = .ok k := by
  unfold writable at run
  split at run
  · exact run
  · cases run

theorem pointsToYoung_number {o k n : Nat} (outside : k ∉ oopWords (h.mem o)) :
    pointsToYoung (h.put o ((h.mem o).setWord k n)) o = pointsToYoung h o := by
  have words : oopFields ((h.mem o).setWord k n) = oopFields (h.mem o) := by
    have list : oopWords ((h.mem o).setWord k n) = oopWords (h.mem o) := rfl
    rw [oopFields, oopFields, list]
    refine List.map_congr_left fun j hj => ?_
    have ne : j ≠ k := by rintro rfl; exact outside hj
    simp [Object.setWord, ne]
  simp only [pointsToYoung, put_mem, if_true, words]
  rfl

theorem pointsToYoung_smallint {o k v : Nat} (small : oopIsSmallint v = true)
    (points : pointsToYoung (h.put o ((h.mem o).setWord k v)) o = true) :
    pointsToYoung h o = true := by
  have range : ∀ a, objectIsYoung (h.put o ((h.mem o).setWord k v)) a = objectIsYoung h a :=
    fun a => rfl
  simp only [pointsToYoung, Bool.or_eq_true, List.any_eq_true, range] at points ⊢
  simp only [put_mem, if_true] at points
  rcases points with map | ⟨u, hu, young⟩
  · exact Or.inl map
  · obtain ⟨j, hj, rfl⟩ := List.mem_map.mp hu
    by_cases here : j = k
    · subst here
      simp [Object.setWord, small] at young
    · have word : ((h.mem o).setWord k v).word j = (h.mem o).word j := by
        simp [Object.setWord, here]
      rw [word] at young
      exact Or.inr ⟨_, List.mem_map.mpr ⟨j, hj, rfl⟩, young⟩

end Words

section Run

variable {h k : Heap}

theorem Stored.bare {o j value : Nat} (fits : oopIsSmallint value = true ∨ Quiet h o value) :
    Stored [] h (h.put o ((h.mem o).setWord j value)) := by
  refine .put rfl (Finset.Subset.refl _) (fun hash _ g => g.forwards o hash) ?_
  intro ho _ s _ points
  rcases fits with small | quiet
  · exact Or.inl (pointsToYoung_smallint small points)
  · exact (pointsToYoung_setWord points).imp id (quiet (oldCells_isOld s.old ho))

theorem Stored.map {o map : Nat} {remembered : Finset Nat} (live : isFree h o = false)
    (more : h.rememberedOldObjects ⊆ remembered)
    (known : o ∈ oldCells h → Spaces h → Guarded [] h → objectIsYoung h map = true →
      o ∈ remembered) :
    Stored [] h ({ h with rememberedOldObjects := remembered }.put o
      { h.mem o with map := map }) := by
  refine .put rfl more (fun hash => ?_) fun ho _ s g points => ?_
  · simp [isFree, objectIsFree, hash, idHashForwarded] at live
  · exact (pointsToYoung_setMap points).imp id (known ho s g)

theorem Cmd.stored {c : Cmd} (called : c.Called h) (fits : c.Fits h) (run : c.run h = .ok k) :
    Stored [] h k := by
  cases c with
  | barrier src dest =>
    rcases heapStoreInto_spec h src dest with ⟨remembered, done, more, -, -⟩ | fails
    · cases done.symm.trans run
      exact ⟨rfl, more, fun _ g => ⟨g.aligned, g.forwards, fun o ho live points =>
        (g.barrier o ho live points).imp (fun known => more known) id⟩⟩
    · cases fails.symm.trans run
  | store o j value => exact (objectSlotValueAtOffsetPut_stores h o j value).result (writable_ok run)
  | bare o j value =>
    cases writable_ok run
    exact .bare fits
  | small o j n =>
    cases writable_ok run
    exact .bare (Or.inl (by simp [oopIsSmallint, smallintToObject]))
  | storeMap o map =>
    rcases heapStoreInto_spec h o map with ⟨remembered, done, more, -, known⟩ | fails
    · simp only [Cmd.run, done, bind, Except.bind] at run
      cases run
      exact .map called more fun ho s g young =>
        known young (oldCells_isOld s.old ho) (oldCells_even s.old g.aligned ho)
    · simp only [Cmd.run, fails, bind, Except.bind] at run
      cases run
  | bareMap o map =>
    cases run
    exact .map called (Finset.Subset.refl _) fun ho s _ => fits (oldCells_isOld s.old ho)
  | number o j n =>
    cases writable_ok run
    refine .put rfl (Finset.Subset.refl _) (fun hash _ g => g.forwards o hash) ?_
    intro _ _ _ _ points
    rw [pointsToYoung_number called] at points
    exact Or.inl points

theorem Cmd.keeps {c : Cmd} (s : Sound h) (g : Guarded [] h) (called : c.Called h)
    (fits : c.Fits h) (run : c.run h = .ok k) : Sound k ∧ Guarded [] k :=
  have stored := c.stored called fits run
  ⟨s.outline stored.1, stored.2.2 s.toSpaces g⟩

end Run

end SlateVm
