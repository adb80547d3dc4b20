import SlateVm.Collections.WriteStream

/-! Write streams as implementations of an overwritten sequence, and the steps on which they are
not. -/
namespace SlateVm.Collections.WriteStream

open Refinement

variable {σ α : Type} {b : Overwrite α} [Inhabited α]

section Extensible

variable {ws : WriteStream (ExtensibleArray α)}

/-- The collection holds the written elements and no others. -/
structure Extensible (ws : WriteStream (ExtensibleArray α)) (b : Overwrite α) : Prop
    extends Tracks ws b where
  writeLimit : ws.writeLimit ≤ b.elements.length
  holds : ∃ f, ws.collection.Holds f b.elements

omit [Inhabited α] in
theorem Extensible.size (extensible : Extensible ws b) :
    ws.collection.size = b.elements.length := by
  obtain ⟨f, holds⟩ := extensible.holds
  exact holds.size

theorem Extensible.nextPut (extensible : Extensible ws b) {obj : α}
    (appends : Appends ws (.nextPut obj)) :
    ∃ ws', ws.nextPut WriteStream.extensible obj = some ws' ∧ Extensible ws' (b.put obj) := by
  have position := extensible.position
  have limit := extensible.writeLimit
  have size := extensible.size
  have within := extensible.within
  obtain ⟨f, holds⟩ := extensible.holds
  simp only [Appends, size] at appends
  unfold Overwrite.Within at within
  simp only [WriteStream.nextPut]
  split
  · have atEnd : b.cursor = b.elements.length := by omega
    obtain ⟨c, f', run, added⟩ := holds.addLast obj
    refine ⟨{ ws with collection := c, writeLimit := c.size.toNat, position := ws.position + 1 },
      by simp only [WriteStream.extensible, run, Option.bind_eq_bind, Option.bind_some],
      extensible.toTracks.write [obj] rfl rfl, ?_, f', ?_⟩
    · rw [added.size, Overwrite.length_put extensible.within]
      simp only [Int.toNat_natCast, List.length_append, List.length_singleton]
      omega
    · rw [show (b.put obj).elements = b.elements ++ [obj] from Overwrite.write_end atEnd [obj]]
      exact added
  · have inside : b.cursor < b.elements.length := by omega
    obtain ⟨c, run, changed⟩ := holds.atPut inside obj
    refine ⟨{ ws with collection := c, position := ws.position + 1 }, ?_,
      extensible.toTracks.write [obj] rfl rfl, ?_, f, ?_⟩
    · have known : ws.collection.includesKey ws.position = true := by
        rw [holds.includesKey, position]
        simp [ExtensibleArray.key, inside]
      rw [position] at known
      simp only [WriteStream.extensible, position, known, if_true, run, Option.bind_eq_bind,
        Option.bind_some]
    · rw [Overwrite.length_put extensible.within]
      exact Nat.le_trans limit (Nat.le_max_left _ _)
    · simp only [Overwrite.put, if_pos inside]
      exact changed

theorem Extensible.nextPutAll (extensible : Extensible ws b) {n start : Nat} {c : List α}
    (there : start + n ≤ c.length) (appends : n = 0 ∨ ws.position = ws.collection.size) :
    ∃ ws', WriteStream.extensible.nextPutAllStartingAt ws n c start = some ws' ∧
      Extensible ws' (b.write ((c.drop start).take n)) := by
  have position := extensible.position
  have within := extensible.within
  have length : ((c.drop start).take n).length = n := by
    rw [List.length_take, List.length_drop]
    omega
  have copied : copyFrom c start (start + n) = some ((c.drop start).take n) := by
    rw [copyFrom_within (Nat.le_add_right _ _) there, Nat.add_sub_cancel_left]
  rw [extensible.size] at appends
  obtain ⟨f, holds⟩ := extensible.holds
  obtain ⟨es, f', run, inserted⟩ := holds.atInsertAll within ((c.drop start).take n)
  refine ⟨{ ws with collection := es, position := ws.position + n }, ?_,
    extensible.toTracks.write _ (by rw [length]) rfl, ?_, f', ?_⟩
  · have accepted : ws.collection.refusesGap b.cursor = false := by
      rw [holds.refusesGap]
      unfold Overwrite.Within at within
      simp [ExtensibleArray.gap, within]
    simp only [WriteStream.extensible, copied, position, insertAll, accepted, run,
      Option.bind_eq_bind, Option.bind_some]
    rfl
  · rw [Overwrite.length_write within]
    exact Nat.le_trans extensible.writeLimit (Nat.le_max_left _ _)
  · have same : (b.write ((c.drop start).take n)).elements =
        b.elements.take b.cursor ++ (c.drop start).take n ++ b.elements.drop b.cursor := by
      rcases appends with rfl | atEnd
      · rw [List.take_zero, Overwrite.write_nil, List.append_nil, List.take_append_drop]
      · have last : b.cursor = b.elements.length := by omega
        rw [Overwrite.write_end last, last, List.take_length, List.drop_length, List.append_nil]
    rw [same]
    exact inserted

theorem Extensible.copyBelow (extensible : Extensible ws b) {k : Nat}
    (within : k ≤ b.elements.length) :
    WriteStream.extensible.copyBelow ws.collection k = some (b.elements.take k) := by
  have size := extensible.size
  obtain ⟨f, holds⟩ := extensible.holds
  have length : (b.elements.take k).length = k := by
    rw [List.length_take]
    omega
  simp only [WriteStream.extensible]
  split
  · next empty => rw [List.eq_nil_of_length_eq_zero (by omega : (b.elements.take k).length = 0)]
  · have places : fromTo 0 (k - 1) = _ :=
      @fromTo_nat 0 (k - 1) 0 k rfl (by omega) (by omega)
    have visits := @mapM_range α (b.elements.take k) fun i : Nat =>
      ws.collection.at? ((0 + i : Nat) : Int)
    rw [length] at visits
    rw [places, List.mapM_map]
    apply visits
    intro i hi
    rw [Nat.zero_add, holds.at?, List.getElem?_take, if_pos hi]

theorem Extensible.step (extensible : Extensible ws b) {op : Op α} (spares : Spares ws op)
    (appends : Appends ws op) :
    ∃ ws', ws.perform WriteStream.extensible op = some ws' ∧ Extensible ws' (op.after b) := by
  cases op with
  | nextPut obj => exact extensible.nextPut appends
  | nextPutAll c =>
    have there : c.length = 0 ∨ ws.position = ws.collection.size := by
      rw [List.length_eq_zero_iff]
      exact appends
    obtain ⟨ws', run, after⟩ := @Extensible.nextPutAll _ b _ ws extensible c.length 0 c (by omega) there
    rw [List.drop_zero, List.take_length] at after
    exact ⟨ws', run, after⟩
  | nextPutAllStartingAt n c start => exact extensible.nextPutAll spares.1 appends
  | position n =>
    exact ⟨_, rfl, extensible.toTracks.setPosition spares, extensible.writeLimit, extensible.holds⟩
  | reset => exact ⟨_, rfl, extensible.toTracks.reset, extensible.writeLimit, extensible.holds⟩
  | setToEnd =>
    exact ⟨_, rfl, extensible.toTracks.setToEnd, extensible.writeLimit, extensible.holds⟩

end Extensible

section Copies

omit [Inhabited α]

variable {v : Variant σ α} {ws : WriteStream σ}

theorem Tracks.shows (tracks : Tracks ws b)
    (copies : ∀ k ≤ b.elements.length, v.copyBelow ws.collection k = some (b.elements.take k)) :
    Shows v ws b := by
  constructor
  · have copied := copies _ (Nat.le_refl _)
    rw [List.take_length, ← tracks.shown] at copied
    exact copied
  · exact tracks.position

theorem Tracks.not_shows (tracks : Tracks ws b)
    (copies : ∀ k ≤ b.elements.length, v.copyBelow ws.collection k = some (b.elements.take k))
    {op : Op α} (fits : op.Fits ws.shown) (lost : ¬ ws.Rewinds op) :
    ∃ ws', ws.perform v op = some ws' ∧ ¬ Shows v ws' (op.after b) := by
  cases op with
  | position n =>
    refine ⟨_, rfl, fun shows_ => ?_⟩
    have short := tracks.lost fits lost
    have copied : (ws.setPosition n).contents v = some (b.elements.take (ws.setPosition n).shown) :=
      copies _ (Nat.le_of_lt short)
    have same := Option.some.inj (copied.symm.trans shows_.contents)
    have length := congrArg List.length same
    rw [List.length_take] at length
    simp only [Op.after] at length
    omega
  | _ => exact absurd trivial lost

end Copies

/-- In runs of allowed operations the streams show the overwritten sequence, and an operation
that sets a position behind `readLimit` ends that. -/
def Overwrites (v : Variant σ α) (empty : σ → Prop) (allowed : WriteStream σ → Op α → Prop) : Prop :=
  Refines (implementation v empty) allowed (Shows v) ∧
    ∀ ws b, Reached (implementation v empty) allowed ws b → ∀ op : Op α, op.Fits ws.shown →
      ¬ ws.Rewinds op → ∃ ws', ws.perform v op = some ws' ∧ ¬ Shows v ws' (op.after b)

omit [Inhabited α] in
theorem overwrites_of_steps {v : Variant σ α} {empty : σ → Prop}
    (keeps : WriteStream σ → Overwrite α → Prop) {allowed : WriteStream σ → Op α → Prop}
    (first : ∀ c, empty c → keeps (on v c) ⟨[], 0⟩)
    (step : ∀ ws b op, keeps ws b → allowed ws op →
      ∃ ws', ws.perform v op = some ws' ∧ keeps ws' (op.after b))
    (tracks : ∀ ws b, keeps ws b → Tracks ws b)
    (copies : ∀ ws b, keeps ws b →
      ∀ k ≤ b.elements.length, v.copyBelow ws.collection k = some (b.elements.take k)) :
    Overwrites v empty allowed := by
  have start : ∀ ws b, (implementation v empty).start ws b → keeps ws b := by
    rintro ws b ⟨c, nothing, rfl, rfl⟩
    exact first c nothing
  have steps : ∀ ws b op, keeps ws b → allowed ws op →
      Step (implementation v empty) keeps ws b op := by
    intro ws b op kept admitted
    obtain ⟨ws', run, after⟩ := step ws b op kept admitted
    exact ⟨ws', (), by simp only [implementation, run, Option.map_some], trivial, after⟩
  constructor
  · apply Refines.of_steps keeps start steps
    intro ws b kept
    exact (tracks ws b kept).shows (copies ws b kept)
  · intro ws b reached op fits lost
    have kept : keeps ws b := by
      apply reached.invariant start
      intro ws b op ws' a kept admitted run
      obtain ⟨ws'', c, performed, _, after⟩ := steps ws b op kept admitted
      cases run.symm.trans performed
      exact after
    exact (tracks ws b kept).not_shows (copies ws b kept) fits lost

theorem fixed_overwrites : Overwrites (α := α) fixed (· = []) Spares := by
  apply overwrites_of_steps Fixed
  · rintro c rfl
    exact ⟨⟨rfl, rfl⟩, rfl, Nat.le_refl _, fun _ _ => rfl⟩
  · intro ws b op kept admitted
    exact kept.step admitted
  · intro ws b kept
    exact kept.toTracks
  · intro ws b kept k within
    exact kept.copyBelow within

def Empty (es : ExtensibleArray α) : Prop := ∃ f, es.Holds f []

def SparesExtensible (ws : WriteStream (ExtensibleArray α)) (op : Op α) : Prop :=
  Spares ws op ∧ Appends ws op

theorem extensible_overwrites : Overwrites (α := α) extensible Empty SparesExtensible := by
  apply overwrites_of_steps Extensible
  · rintro c ⟨f, holds⟩
    have none_ : (on extensible c).readLimit = 0 := by
      simp only [on, extensible, holds.size]
      rfl
    refine ⟨⟨rfl, ?_⟩, Nat.le_of_eq none_, f, holds⟩
    rw [shown, none_]
    rfl
  · intro ws b op kept admitted
    exact kept.step admitted.1 admitted.2
  · intro ws b kept
    exact kept.toTracks
  · intro ws b kept k within
    exact kept.copyBelow within

end SlateVm.Collections.WriteStream
