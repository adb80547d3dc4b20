import SlateVm.Interp.MemoryAreas

/-! Runs of the memory primitives. Allowed operations keep the handle table and the byte arrays
in agreement, and answer what the byte arrays ask for. -/
namespace SlateVm.MemoryAreas

open Tagged Slices Refinement

theorem toCInt_eq {i : Int} (fits : Fits i) : toCInt i = i := by
  unfold Fits intMax at fits
  rw [toCInt, BitVec.toInt_ofInt, Int.bmod_eq_of_le (by omega) (by omega)]

theorem cInt_eq {i : Int} (fits : Fits i) : cInt i = some i := if_pos fits

theorem fits_handle {i : Int} (low : 0 ≤ i) (high : i < memsMaximum) : Fits i := by
  unfold memsMaximum at high
  unfold Fits intMax
  omega

theorem Areas.entry_valid {m : Areas} {k : Nat} {e : Entry} (found : m.entry k = some e) :
    e.valid = true := (Option.filter_eq_some_iff.mp found).2

theorem Valid.within {h : Heap} {i : Int} (valid : Valid h i) : i.toNat < memsMaximum := by
  obtain ⟨low, high, -⟩ := valid
  omega

theorem Shows.resolve {h : Heap} {m : Areas} (shows_ : Shows h m) {i : SmallInteger}
    (ok : HandleOk h i.value) :
    (handleIsvalid h (toCInt i.value) = some false ∧ m.find (.smallint i) = none ∧
      ¬ Valid h i.value) ∨
    (toCInt i.value = i.value ∧ handleIsvalid h i.value = some true ∧
      Valid h i.value ∧ ∃ e, m.find (.smallint i) = some e ∧ e.valid = true ∧
        Matches h i.value.toNat (some e)) := by
  by_cases inside : 0 ≤ i.value ∧ i.value < memsMaximum
  · have same := toCInt_eq (fits_handle inside.1 inside.2)
    have found : m.find (.smallint i) = m.entry i.value.toNat := if_pos inside.1
    have known : handleIsvalid h i.value =
        some (decide (h.areas i.value.toNat ≠ .null)) := if_pos inside
    have matches_ := shows_.entries i.value.toNat (by omega)
    cases entry : m.entry i.value.toNat with
    | none =>
      rw [entry] at matches_
      have null : h.areas i.value.toNat = .null := matches_
      refine Or.inl ⟨?_, found.trans entry, fun valid => valid.2.2 null⟩
      rw [same, known, null]
      rfl
    | some e =>
      rw [entry] at matches_
      have live : h.areas i.value.toNat ≠ .null := by
        rw [matches_.1]
        exact fun impossible => nomatch impossible
      refine Or.inr ⟨same, ?_, ⟨inside.1, inside.2, live⟩, e, found.trans entry,
        m.entry_valid entry, matches_⟩
      rw [known, decide_eq_true live]
  · obtain ⟨low, high, null⟩ := ok.resolve_left inside
    refine Or.inl ⟨?_, ?_, fun valid => inside ⟨valid.1, valid.2.1⟩⟩
    · unfold handleIsvalid
      rw [if_pos ⟨low, high⟩, null]
      rfl
    · by_cases natural : 0 ≤ i.value
      · exact (if_pos natural).trans (shows_.outside _ (by omega))
      · exact if_neg natural

theorem filter_valid {e : Entry} (valid : e.valid = true) :
    (some e).filter Entry.valid = some e := if_pos valid

theorem Shows.update {h h' : Heap} {m : Areas} (shows_ : Shows h m) {k : Nat}
    (within : k < memsMaximum) {x : Option Entry}
    (frame : ∀ j, j ≠ k → h'.areas j = h.areas j ∧ h'.sizes j = h.sizes j ∧
      h'.numRefs j = h.numRefs j)
    (here : Matches h' k (x.filter Entry.valid)) : Shows h' (Function.update m k x) where
  entries j below := by
    unfold Areas.entry
    by_cases same : j = k
    · rw [same, Function.update_self]
      exact here
    · have kept := shows_.entries j below
      obtain ⟨areas, sizes, refs⟩ := frame j same
      unfold Areas.entry at kept
      rw [Function.update_of_ne same]
      cases entry : Option.filter Entry.valid (m j) with
      | none =>
        rw [entry] at kept
        exact areas.trans kept
      | some e =>
        rw [entry] at kept
        unfold Matches
        rw [areas, sizes, refs]
        exact kept
  outside j above := by
    unfold Areas.entry
    rw [Function.update_of_ne (by omega)]
    exact shows_.outside j above

theorem allocate_some {h : Heap} {m : Areas} (shows_ : Shows h m) {k : Nat}
    (found : allocate h = some k) : k < memsMaximum ∧ m.entry k = none := by
  have member := List.mem_of_find?_eq_some found
  have null := List.find?_some found
  have below : k < memsMaximum := List.mem_range.mp member
  have matches_ := shows_.entries k below
  refine ⟨below, ?_⟩
  cases entry : m.entry k with
  | none => rfl
  | some e =>
    rw [entry] at matches_
    have live := matches_.1
    have none := of_decide_eq_true null
    rw [live] at none
    cases none

theorem allocate_none {h : Heap} {m : Areas} (shows_ : Shows h m) (full : allocate h = none) :
    Full m := by
  intro k below
  have used := List.find?_eq_none.mp full k (List.mem_range.mpr below)
  have matches_ := shows_.entries k below
  cases entry : m.entry k with
  | none =>
    rw [entry] at matches_
    exact absurd (decide_eq_true (p := h.areas k = .null) matches_) used
  | some e => rfl

theorem open_full {h : Heap} (full : allocate h = none) (size : Int) (a : Allocation) :
    open_ h size a = (h, -1) := by
  unfold open_
  generalize allocate h = free at full ⊢
  subst full
  rfl

theorem open_eq {h : Heap} {k : Nat} (found : allocate h = some k) (size : Int)
    (a : Allocation) : open_ h size a = match malloc a size with
      | none => (h, -1)
      | some bytes => (((h.setArea k (.live bytes)).setSize k size).setRefs k 1, (k : Int)) := by
  unfold open_
  generalize allocate h = free at found ⊢
  subst found
  rfl

attribute [local simp] perform next right

theorem step_new {h : Heap} {m : Areas} (shows_ : Shows h m) {size : Arg} {a : Allocation}
    (allowed : Allowed h (.new size a)) :
    Step implementation Shows h m (.new size a) := by
  cases size with
  | object => exact ⟨h, ⟨.nil, []⟩, rfl, Or.inr (Or.inr fun _ other => nomatch other), shows_⟩
  | smallint n =>
    have failed (open_nil : open_ h (toCInt n.value) a = (h, -1))
        (excused : a.succeeds = false ∨ Full m ∨
          ∀ k, Arg.smallint n = .smallint k → k.value < 0 ∨ intMax < k.value) :
        Step implementation Shows h m (.new (.smallint n) a) := by
      refine ⟨h, ⟨.nil, []⟩, ?_, excused, shows_⟩
      simp [implementation, perform, primMemoryNew, open_nil]
    cases free : allocate h with
    | none =>
      apply failed
      · exact open_full free _ _
      · exact Or.inr (Or.inl (allocate_none shows_ free))
    | some k =>
      obtain ⟨below, unused⟩ := allocate_some shows_ free
      by_cases succeeds : a.succeeds = true ∧ 0 ≤ toCInt n.value
      · have fits : Fits n.value := by
          rcases allowed with fits | fails | negative
          · exact fits
          · rw [succeeds.1] at fails
            cases fails
          · omega
        have same := toCInt_eq fits
        rw [same] at succeeds
        have range := fits
        unfold Fits intMax at range
        have opened : open_ h (toCInt n.value) a =
            (((h.setArea k (.live (a.bytes n.value.toNat))).setSize k n.value).setRefs k 1,
              (k : Int)) := by
          rw [open_eq free, malloc, same, if_pos succeeds]
        refine ⟨((h.setArea k (.live (a.bytes n.value.toNat))).setSize k n.value).setRefs k 1,
          ⟨.smallint k, []⟩, ?_, ?_, ?_⟩
        · simp only [implementation, perform, primMemoryNew, opened, Int.natCast_nonneg, if_true]
        · refine ⟨Int.natCast_nonneg k, by omega, ?_, succeeds.1, n, rfl, succeeds.2, fits.2⟩
          rw [Int.toNat_natCast]
          exact unused
        · have length : ((a.bytes n.value.toNat).length : Int) = n.value := by
            rw [Allocation.bytes, List.length_map, List.length_range]
            exact Int.toNat_of_nonneg succeeds.2
          simp only [implementation, next, Int.toNat_natCast]
          refine shows_.update below (fun j other => ?_) ?_
          · simp only [Heap.setArea, Heap.setSize, Heap.setRefs, Function.update_of_ne other,
              and_self]
          · have valid : Entry.valid ⟨a.bytes n.value.toNat, 0, 0⟩ = true := rfl
            rw [filter_valid valid]
            refine ⟨Function.update_self .., ?_, ?_, ?_, ?_⟩
            · exact (Function.update_self ..).trans length.symm
            · exact Function.update_self ..
            · exact length.le.trans fits.2
            · simp only [Heap.setRefs, Function.update_self]
              decide
      · apply failed
        · rw [open_eq free, malloc, if_neg succeeds]
        · by_cases fails : a.succeeds = true
          · refine Or.inr (Or.inr fun k same => ?_)
            cases same
            by_cases fits : Fits n.value
            · have negative : ¬ 0 ≤ toCInt n.value := fun natural => succeeds ⟨fails, natural⟩
              rw [toCInt_eq fits] at negative
              exact Or.inl (by omega)
            · unfold Fits at fits
              omega
          · exact Or.inl (Bool.not_eq_true _ ▸ fails)

theorem close_invalid {h : Heap} {memory : Int} (invalid : handleIsvalid h memory = some false) :
    close h memory = some h := by
  simp only [close, invalid, Option.bind_eq_bind, Option.bind_some, Bool.false_eq_true, if_false]

theorem addref_invalid {h : Heap} {memory : Int}
    (invalid : handleIsvalid h memory = some false) : addref h memory = some h := by
  simp only [addref, invalid, Option.bind_eq_bind, Option.bind_some, Bool.false_eq_true, if_false]

theorem step_addRef {h : Heap} {m : Areas} (shows_ : Shows h m) {handle : Arg}
    (allowed : Allowed h (.addRef handle)) : Step implementation Shows h m (.addRef handle) := by
  cases handle with
  | object => exact ⟨h, ⟨.nil, []⟩, rfl, rfl, shows_⟩
  | smallint i =>
    obtain ⟨ok, room⟩ := allowed
    rcases shows_.resolve ok with ⟨invalid, missing, -⟩ |
      ⟨same, valid, inTable, e, found, live, areas, sizes, refs, short, few⟩
    · refine ⟨h, ⟨.nil, []⟩, ?_, rfl, ?_⟩
      · simp only [implementation, perform, primMemoryAddRef, addref_invalid invalid,
          Option.map_some]
      · simp only [implementation, next, missing]
        exact shows_
    · have more := room inTable
      have fits : Fits (h.numRefs i.value.toNat + 1) := by
        unfold Entry.valid at live
        have positive := of_decide_eq_true live
        unfold Fits intMax at *
        omega
      have added : addref h (toCInt i.value) =
          some (h.setRefs i.value.toNat (h.numRefs i.value.toNat + 1)) := by
        simp only [addref, valid, same, cInt_eq fits, Option.bind_eq_bind, Option.bind_some,
          if_true]
      refine ⟨h.setRefs i.value.toNat (h.numRefs i.value.toNat + 1), ⟨.nil, []⟩, ?_, rfl, ?_⟩
      · simp only [implementation, perform, primMemoryAddRef, added, Option.map_some]
      · have still : Entry.valid { e with addRefs := e.addRefs + 1 } = true := by
          unfold Entry.valid at live ⊢
          have positive := of_decide_eq_true live
          exact decide_eq_true (by simp only; omega)
        simp only [implementation, next, found, Areas.put]
        refine shows_.update inTable.within (fun j other => ?_) ?_
        · simp only [Heap.setRefs, Function.update_of_ne other, and_self]
        · rw [filter_valid still]
          refine ⟨areas, sizes, ?_, short, ?_⟩
          · simp only [Heap.setRefs, Function.update_self, refs]
            push_cast
            omega
          · simp only [Heap.setRefs, Function.update_self]
            omega

theorem step_close {h : Heap} {m : Areas} (shows_ : Shows h m) {handle : Arg}
    (allowed : Allowed h (.close handle)) : Step implementation Shows h m (.close handle) := by
  cases handle with
  | object => exact ⟨h, ⟨.nil, []⟩, rfl, rfl, shows_⟩
  | smallint i =>
    rcases shows_.resolve allowed with ⟨invalid, missing, -⟩ |
      ⟨same, valid, inTable, e, found, live, areas, sizes, refs, short, few⟩
    · refine ⟨h, ⟨.nil, []⟩, ?_, rfl, ?_⟩
      · simp only [implementation, perform, primMemoryClose, close_invalid invalid,
          Option.map_some]
      · simp only [implementation, next, missing]
        exact shows_
    · unfold Entry.valid at live
      have positive := of_decide_eq_true live
      have fits : Fits (h.numRefs i.value.toNat - 1) := by
        unfold Fits intMax at *
        omega
      by_cases last : h.numRefs i.value.toNat - 1 = 0
      · rw [last] at fits
        have closed : close h (toCInt i.value) =
            some (((h.setRefs i.value.toNat 0).setArea i.value.toNat .null).setSize
              i.value.toNat 0) := by
          simp only [close, same, valid, Option.bind_eq_bind, Option.bind_some, if_true,
            last, cInt_eq fits, Heap.setRefs, areas]
        refine ⟨((h.setRefs i.value.toNat 0).setArea i.value.toNat .null).setSize i.value.toNat 0,
          ⟨.nil, []⟩, ?_, rfl, ?_⟩
        · simp only [implementation, perform, primMemoryClose, closed, Option.map_some]
        · have dead : Entry.valid { e with closes := e.closes + 1 } = false :=
            decide_eq_false (by simp only; omega)
          have gone : (some { e with closes := e.closes + 1 }).filter Entry.valid = none := by
            simp only [Option.filter, dead, Bool.false_eq_true, if_false]
          simp only [implementation, next, found, Areas.put]
          refine shows_.update inTable.within (fun j other => ?_) ?_
          · simp only [Heap.setRefs, Heap.setArea, Heap.setSize, Function.update_of_ne other,
              and_self]
          · rw [gone]
            exact Function.update_self ..
      · have closed : close h (toCInt i.value) =
            some (h.setRefs i.value.toNat (h.numRefs i.value.toNat - 1)) := by
          simp only [close, same, valid, Option.bind_eq_bind, Option.bind_some, if_true,
            cInt_eq fits, if_neg last]
        refine ⟨h.setRefs i.value.toNat (h.numRefs i.value.toNat - 1), ⟨.nil, []⟩, ?_, rfl, ?_⟩
        · simp only [implementation, perform, primMemoryClose, closed, Option.map_some]
        · have still : Entry.valid { e with closes := e.closes + 1 } = true :=
            decide_eq_true (by simp only; omega)
          simp only [implementation, next, found, Areas.put]
          refine shows_.update inTable.within (fun j other => ?_) ?_
          · simp only [Heap.setRefs, Function.update_of_ne other, and_self]
          · rw [filter_valid still]
            refine ⟨areas, sizes, ?_, short, ?_⟩
            · simp only [Heap.setRefs, Function.update_self, refs]
              push_cast
              omega
            · simp only [Heap.setRefs, Function.update_self]
              omega

theorem step_sizeOf {h : Heap} {m : Areas} (shows_ : Shows h m) {handle : Arg}
    (allowed : Allowed h (.sizeOf handle)) : Step implementation Shows h m (.sizeOf handle) := by
  cases handle with
  | object => exact ⟨h, ⟨.nil, []⟩, rfl, trivial, shows_⟩
  | smallint i =>
    rcases shows_.resolve allowed with ⟨invalid, missing, -⟩ |
      ⟨same, valid, -, e, found, -, -, sizes, -⟩
    · refine ⟨h, ⟨.smallint (-1), []⟩, ?_, ?_, shows_⟩
      · simp only [implementation, perform, primMemorySize, sizeof, invalid, Option.bind_eq_bind,
          Option.bind_some, Bool.false_eq_true, if_false, Option.map_some]
      · simp only [implementation, right, missing]
        exact show (-1 : Int) < 0 by decide
    · refine ⟨h, ⟨.smallint e.bytes.length, []⟩, ?_, ?_, shows_⟩
      · simp only [implementation, perform, primMemorySize, sizeof, same, valid,
          Option.bind_eq_bind, Option.bind_some, if_true, sizes, Option.map_some]
      · simp only [implementation, right, found]

theorem resize_fails {h : Heap} {m : Areas} (shows_ : Shows h m) {i n : SmallInteger}
    {a : Allocation} {r : Int}
    (ran : resize h (toCInt i.value) (toCInt n.value) a = some (h, r)) (negative : r < 0)
    (fair : ∀ e, m.find (.smallint i) = some e → ¬ (1 + e.addRefs = e.closes + 1 ∧
      0 ≤ n.value ∧ n.value ≤ intMax ∧ (n.value = e.bytes.length ∨ a.succeeds))) :
    Step implementation Shows h m (.resizeTo (.smallint i) (.smallint n) a) := by
  refine ⟨h, ⟨.smallint r, []⟩, ?_, ?_, ?_⟩
  · simp only [implementation, perform, primMemoryResizeTo, ran, Option.map_some]
  · simp only [implementation, right]
    cases found : m.find (.smallint i) with
    | none => exact negative
    | some e =>
      simp only [if_neg (fair e found)]
      exact negative
  · have still : ¬ 0 ≤ r := by omega
    simp only [implementation, next]
    cases found : m.find (.smallint i) with
    | none => exact shows_
    | some e =>
      simp only [if_neg still]
      exact shows_

theorem resized_length {e : Entry} {n : Int} (natural : 0 ≤ n) (a : Allocation) :
    ((e.resized n a).bytes.length : Int) = n := by
  simp only [Entry.resized, Allocation.bytes, List.length_append, List.length_take,
    List.length_drop, List.length_map, List.length_range]
  omega

theorem resized_same (e : Entry) (a : Allocation) : e.resized e.bytes.length a = e := by
  have none : (a.bytes e.bytes.length).drop e.bytes.length = [] := by
    apply List.drop_eq_nil_of_le
    rw [Allocation.bytes, List.length_map, List.length_range]
  simp only [Entry.resized, Int.toNat_natCast, List.take_length, none, List.append_nil]

theorem step_resizeTo {h : Heap} {m : Areas} (shows_ : Shows h m) {handle size : Arg}
    {a : Allocation} (allowed : Allowed h (.resizeTo handle size a)) :
    Step implementation Shows h m (.resizeTo handle size a) := by
  cases handle with
  | object => exact ⟨h, ⟨.nil, []⟩, by cases size <;> rfl, by cases size <;> trivial, shows_⟩
  | smallint i =>
    cases size with
    | object =>
      refine ⟨h, ⟨.nil, []⟩, rfl, ?_, ?_⟩
      · simp only [implementation, right]
        cases m.find (.smallint i) <;> trivial
      · simp only [implementation, next]
        cases m.find (.smallint i) <;> exact shows_
    | smallint n =>
      obtain ⟨ok, may⟩ := allowed
      rcases shows_.resolve ok with ⟨invalid, missing, -⟩ |
        ⟨same, valid, inTable, e, found, live, areas, sizes, refs, short, few⟩
      · apply resize_fails shows_ (r := -1)
        · simp only [resize, invalid, Option.bind_eq_bind, Option.bind_some, Bool.false_eq_true,
            if_false]
        · decide
        · intro e found
          rw [missing] at found
          cases found
      · by_cases one : h.numRefs i.value.toNat = 1
        · obtain ⟨form, notFreed⟩ := may inTable one
          have single : 1 + e.addRefs = e.closes + 1 := by omega
          have whole : 0 ≤ toCInt n.value → toCInt n.value = n.value ∧ n.value ≤ intMax := by
            intro natural
            rcases form with fits | negative
            · exact ⟨toCInt_eq fits, fits.2⟩
            · omega
          by_cases already : (e.bytes.length : Int) = toCInt n.value
          · obtain ⟨exact_, most⟩ := whole (by omega)
            refine ⟨h, ⟨.smallint n.value, []⟩, ?_, ?_, ?_⟩
            · simp only [implementation, perform, primMemoryResizeTo, resize, same, valid,
                Option.bind_eq_bind, Option.bind_some, if_true, ne_eq, one, not_true, if_false,
                sizes, already, Option.map_some, exact_]
            · simp only [implementation, right, found]
              rw [if_pos ⟨single, by omega, most, Or.inl (by omega)⟩]
              trivial
            · have unchanged : e.resized n.value a = e := by
                have length : n.value = e.bytes.length := by omega
                rw [length]
                exact resized_same e a
              have natural : 0 ≤ n.value := by omega
              simp only [implementation, next, found, if_pos natural, unchanged, Areas.put]
              refine shows_.update inTable.within (fun _ _ => ⟨rfl, rfl, rfl⟩) ?_
              rw [filter_valid live]
              exact ⟨areas, sizes, refs, short, few⟩
          · have kept : ¬ (toCInt n.value = 0 ∧ ¬ a.succeeds = true ∧ a.freesEmpty = true) := by
              rintro ⟨zero, fails, frees⟩
              have exact_ := (whole (by omega)).1
              refine notFreed ⟨by omega, by omega, Bool.not_eq_true _ ▸ fails, frees⟩
            by_cases succeeds : a.succeeds = true ∧ 0 ≤ toCInt n.value
            · obtain ⟨exact_, most⟩ := whole succeeds.2
              have natural : 0 ≤ n.value := by omega
              have moved : e.bytes.take (a.bytes n.value.toNat).length ++
                  (a.bytes n.value.toNat).drop e.bytes.length = (e.resized n.value a).bytes := by
                simp only [Entry.resized, Allocation.bytes, List.length_map, List.length_range]
              have length := resized_length (e := e) natural a
              have ran : resize h (toCInt i.value) (toCInt n.value) a =
                  some ((h.setArea i.value.toNat (.live (e.resized n.value a).bytes)).setSize
                    i.value.toNat n.value, n.value) := by
                rw [exact_] at already kept succeeds
                simp only [resize, same, valid, Option.bind_eq_bind, Option.bind_some, if_true,
                  ne_eq, one, not_true, if_false, sizes, exact_, already, areas, if_neg kept,
                  malloc, if_pos succeeds, moved]
              refine ⟨(h.setArea i.value.toNat (.live (e.resized n.value a).bytes)).setSize
                i.value.toNat n.value, ⟨.smallint n.value, []⟩, ?_, ?_, ?_⟩
              · simp only [implementation, perform, primMemoryResizeTo, ran, Option.map_some]
              · simp only [implementation, right, found]
                rw [if_pos ⟨single, natural, most, Or.inr succeeds.1⟩]
                trivial
              · simp only [implementation, next, found, if_pos natural, Areas.put]
                refine shows_.update inTable.within (fun j other => ?_) ?_
                · simp only [Heap.setArea, Heap.setSize, Function.update_of_ne other, and_self]
                · have still : (e.resized n.value a).valid = true := live
                  rw [filter_valid still]
                  refine ⟨Function.update_self .., ?_, refs, ?_, few⟩
                  · exact (Function.update_self ..).trans length.symm
                  · exact length.le.trans most
            · apply resize_fails shows_ (r := -1)
              · simp only [resize, same, valid, Option.bind_eq_bind, Option.bind_some, if_true,
                  ne_eq, one, not_true, if_false, sizes, already, areas, if_neg kept, malloc,
                  if_neg succeeds]
              · decide
              · rintro e' found' ⟨-, natural, most, possible⟩
                rw [found] at found'
                cases found'
                have fits : Fits n.value := ⟨by omega, most⟩
                have exact_ := toCInt_eq fits
                rcases possible with equal | granted
                · omega
                · exact succeeds ⟨granted, by omega⟩
        · apply resize_fails shows_ (r := -1)
          · simp only [resize, same, valid, Option.bind_eq_bind, Option.bind_some, if_true,
              ne_eq, one, not_false_eq_true]
          · decide
          · intro e' found'
            rw [found] at found'
            cases found'
            omega

theorem refused_eq {h : Heap} {i : Int} (same : toCInt i = i)
    (valid : handleIsvalid h i = some true) (inTable : Valid h i) (buf : List UInt8)
    (amount startingAt : Int) : refused h buf amount i startingAt =
      some (decide (buf.length < amount ∨ h.sizes i.toNat ≤ startingAt + amount)) := by
  unfold refused
  rw [same, valid]
  simp only [Option.bind_eq_bind, Option.bind_some, if_true]
  by_cases short : (buf.length : Int) < amount
  · rw [if_pos short, decide_eq_true (Or.inl short)]
  · rw [if_neg short, if_pos ⟨inTable.1, inTable.2.1⟩]
    simp only [short, false_or]

def moves (size amount startingAt : Int) : Int :=
  if toCInt amount < size - toCInt startingAt then toCInt amount else size - toCInt startingAt

theorem transfer_cases {size length amount startingAt : Int}
    (ok : TransferOk size length amount startingAt) (most : size ≤ intMax) :
    (¬ (0 ≤ startingAt ∧ 0 ≤ amount ∧ startingAt + amount ≤ size) ∧
      (length < amount ∨ size ≤ startingAt + amount)) ∨
    (¬ (length < amount ∨ size ≤ startingAt + amount) ∧ Fits (size - toCInt startingAt) ∧
      ((¬ (0 ≤ startingAt ∧ 0 ≤ amount ∧ startingAt + amount ≤ size) ∧
          moves size amount startingAt < 0) ∨
        (0 ≤ startingAt ∧ 0 ≤ amount ∧ startingAt + amount < size ∧ amount ≤ length ∧
          moves size amount startingAt = amount ∧ (startingAt = 0 ∨ amount = 0)))) := by
  rcases ok with ⟨outside, refused⟩ | ⟨negative, least, low, high⟩ |
    ⟨start, amount_nonneg, held, inside, atStart⟩
  · exact Or.inl ⟨outside, refused⟩
  · by_cases refused : length < amount ∨ size ≤ startingAt + amount
    · exact Or.inl ⟨fun accepted => by omega, refused⟩
    · refine Or.inr ⟨refused, ⟨low, high⟩, Or.inl ⟨fun accepted => by omega, ?_⟩⟩
      have same : toCInt amount = amount := toCInt_eq ⟨least, by unfold intMax; omega⟩
      unfold moves
      rw [same]
      split <;> omega
  · have sameAmount : toCInt amount = amount := toCInt_eq ⟨by omega, by omega⟩
    have sameStart : toCInt startingAt = startingAt := toCInt_eq ⟨by omega, by omega⟩
    refine Or.inr ⟨by omega, ?_, Or.inr ⟨start, amount_nonneg, inside, held, ?_, atStart⟩⟩
    · rw [sameStart]
      exact ⟨by omega, by omega⟩
    · unfold moves
      rw [sameAmount, sameStart, if_pos (by omega)]

theorem delimited_eq {h : Heap} {i s n : Int} (fits : Fits (h.sizes i.toNat - toCInt s)) :
    delimited h i (toCInt s) (toCInt n) = some (moves (h.sizes i.toNat) n s) := by
  rw [delimited, cInt_eq fits]
  rfl

theorem step_read {h : Heap} {m : Areas} (shows_ : Shows h m) {buf : List UInt8}
    {amount handle startingAt : Arg}
    (allowed : Allowed h (.read buf amount handle startingAt)) :
    Step implementation Shows h m (.read buf amount handle startingAt) := by
  cases amount with
  | object =>
    refine ⟨h, ⟨.typeError, buf⟩, rfl, ?_, shows_⟩
    simp only [implementation, right]
    cases m.find handle <;> exact ⟨trivial, trivial⟩
  | smallint amount =>
    cases handle with
    | object => exact ⟨h, ⟨.typeError, buf⟩, rfl, ⟨trivial, rfl⟩, shows_⟩
    | smallint i =>
      cases startingAt with
      | object =>
        refine ⟨h, ⟨.typeError, buf⟩, rfl, ?_, shows_⟩
        simp only [implementation, right]
        cases m.find (.smallint i) <;> exact ⟨trivial, trivial⟩
      | smallint start =>
        obtain ⟨ok, may⟩ := allowed
        rcases shows_.resolve ok with ⟨invalid, missing, -⟩ |
          ⟨same, valid, inTable, e, found, live, areas, sizes, refs, short, few⟩
        · refine ⟨h, ⟨.smallint (-1), buf⟩, ?_, ?_, shows_⟩
          · simp only [implementation, perform, primMemoryRead, refused, invalid,
              Option.bind_eq_bind, Option.bind_some, Bool.false_eq_true, if_false, if_true,
              Option.map_some]
          · simp only [implementation, right, missing]
            exact ⟨show (-1 : Int) < 0 by decide, trivial⟩
        · have moved := may inTable
          rw [sizes] at moved
          have known := refused_eq same valid inTable buf amount.value start.value
          rw [sizes] at known
          rcases transfer_cases moved short with
            ⟨outside, refuse⟩ | ⟨passes, fits, ⟨outside, negative⟩ |
              ⟨natural, positive, inside, held, all, atStart⟩⟩
          · have rejects : ¬ e.Accepts start.value amount.value := outside
            refine ⟨h, ⟨.smallint (-1), buf⟩, ?_, ?_, shows_⟩
            · simp only [implementation, perform, primMemoryRead, known, decide_eq_true refuse,
                Option.bind_eq_bind, Option.bind_some, if_true, Option.map_some]
            · simp only [implementation, right, found, if_neg rejects]
              exact ⟨show (-1 : Int) < 0 by decide, trivial⟩
          · have rejects : ¬ e.Accepts start.value amount.value := outside
            have none : ¬ 0 < moves e.bytes.length amount.value start.value := by omega
            refine ⟨h, ⟨.smallint (moves e.bytes.length amount.value start.value), buf⟩,
              ?_, ?_, shows_⟩
            · simp only [implementation, perform, primMemoryRead, known, decide_eq_false passes,
                Option.bind_eq_bind, Option.bind_some, Bool.false_eq_true, if_false, write, same,
                valid, if_true, delimited_eq (sizes.symm ▸ fits), sizes, if_neg none,
                Option.map_some]
            · simp only [implementation, right, found, if_neg rejects]
              exact ⟨negative, trivial⟩
          · have accepts : e.Accepts start.value amount.value := ⟨natural, positive, by omega⟩
            have copied : write h i.value (toCInt start.value) (toCInt amount.value) buf =
                some (slice e.bytes start.value.toNat amount.value.toNat ++
                  buf.drop amount.value.toNat, amount.value) := by
              have front : slice e.bytes start.value.toNat amount.value.toNat =
                  e.bytes.take amount.value.toNat := by
                rcases atStart with zero | none
                · rw [zero]
                  rfl
                · rw [none]
                  rfl
              simp only [write, valid, Option.bind_eq_bind, Option.bind_some, if_true,
                delimited_eq (sizes.symm ▸ fits), sizes, all, areas, memcpy, front]
              by_cases some : 0 < amount.value
              · rw [if_pos some, if_pos ⟨held, by omega⟩]
                rfl
              · have zero : amount.value = 0 := by omega
                rw [if_neg some, zero]
                rfl
            refine ⟨h, ⟨.smallint amount.value, slice e.bytes start.value.toNat
              amount.value.toNat ++ buf.drop amount.value.toNat⟩, ?_, ?_, shows_⟩
            · simp only [implementation, perform, primMemoryRead, known, decide_eq_false passes,
                Option.bind_eq_bind, Option.bind_some, Bool.false_eq_true, if_false, same, copied,
                Option.map_some]
            · simp only [implementation, right, found, if_pos accepts, and_self]

theorem written_length {e : Entry} {buf : List UInt8} {amount : Int} {start : Nat}
    (inside : start + amount < e.bytes.length) (held : amount ≤ buf.length)
    (natural : 0 ≤ amount) :
    (overwritten e.bytes (buf.take amount.toNat) start).length = e.bytes.length := by
  simp only [overwritten, List.length_append, List.length_take, List.length_drop]
  omega

theorem step_write {h : Heap} {m : Areas} (shows_ : Shows h m) {buf : List UInt8}
    {amount handle startingAt : Arg}
    (allowed : Allowed h (.write buf amount handle startingAt)) :
    Step implementation Shows h m (.write buf amount handle startingAt) := by
  cases amount with
  | object =>
    refine ⟨h, ⟨.typeError, []⟩, rfl, ?_, ?_⟩
    · simp only [implementation, right]
      cases m.find handle <;> trivial
    · simp only [implementation, next]
      cases m.find handle <;> exact shows_
  | smallint amount =>
    cases handle with
    | object => exact ⟨h, ⟨.typeError, []⟩, rfl, trivial, shows_⟩
    | smallint i =>
      cases startingAt with
      | object =>
        refine ⟨h, ⟨.typeError, []⟩, rfl, ?_, ?_⟩
        · simp only [implementation, right]
          cases m.find (.smallint i) <;> trivial
        · simp only [implementation, next]
          cases m.find (.smallint i) <;> exact shows_
      | smallint start =>
        obtain ⟨ok, may⟩ := allowed
        rcases shows_.resolve ok with ⟨invalid, missing, -⟩ |
          ⟨same, valid, inTable, e, found, live, areas, sizes, refs, short, few⟩
        · refine ⟨h, ⟨.smallint (-1), []⟩, ?_, ?_, ?_⟩
          · simp only [implementation, perform, primMemoryWrite, refused, invalid,
              Option.bind_eq_bind, Option.bind_some, Bool.false_eq_true, if_false, if_true,
              Option.map_some]
          · simp only [implementation, right, missing]
            exact show (-1 : Int) < 0 by decide
          · simp only [implementation, next, missing]
            exact shows_
        · have moved := may inTable
          rw [sizes] at moved
          have known := refused_eq same valid inTable buf amount.value start.value
          rw [sizes] at known
          rcases transfer_cases moved short with
            ⟨outside, refuse⟩ | ⟨passes, fits, ⟨outside, negative⟩ |
              ⟨natural, positive, inside, held, all, atStart⟩⟩
          · have rejects : ¬ e.Accepts start.value amount.value := outside
            refine ⟨h, ⟨.smallint (-1), []⟩, ?_, ?_, ?_⟩
            · simp only [implementation, perform, primMemoryWrite, known, decide_eq_true refuse,
                Option.bind_eq_bind, Option.bind_some, if_true, Option.map_some]
            · simp only [implementation, right, found, if_neg rejects]
              exact show (-1 : Int) < 0 by decide
            · simp only [implementation, next, found, if_neg rejects]
              exact shows_
          · have rejects : ¬ e.Accepts start.value amount.value := outside
            have none : ¬ 0 < moves e.bytes.length amount.value start.value := by omega
            refine ⟨h, ⟨.smallint (moves e.bytes.length amount.value start.value), []⟩,
              ?_, ?_, ?_⟩
            · simp only [implementation, perform, primMemoryWrite, known, decide_eq_false passes,
                Option.bind_eq_bind, Option.bind_some, Bool.false_eq_true, if_false, read, same,
                valid, if_true, delimited_eq (sizes.symm ▸ fits), sizes, if_neg none,
                Option.map_some]
            · simp only [implementation, right, found, if_neg rejects]
              exact negative
            · simp only [implementation, next, found, if_neg rejects]
              exact shows_
          · have accepts : e.Accepts start.value amount.value := ⟨natural, positive, by omega⟩
            have written : (e.written buf amount.value start.value).valid = true := live
            have length : (overwritten e.bytes (buf.take amount.value.toNat)
                start.value.toNat).length = e.bytes.length :=
              written_length (by omega) held positive
            have after : Shows (h.setArea i.value.toNat
                (.live (e.written buf amount.value start.value).bytes))
                (m.put (.smallint i) (e.written buf amount.value start.value)) := by
              refine shows_.update inTable.within (fun j other => ?_) ?_
              · simp only [Heap.setArea, Function.update_of_ne other, and_self]
              · rw [filter_valid written]
                refine ⟨Function.update_self .., ?_, refs, ?_, few⟩
                · exact sizes.trans (congrArg Nat.cast length.symm)
                · exact (congrArg Nat.cast length).le.trans short
            have next_ : implementation.next m
                (.write buf (.smallint amount) (.smallint i) (.smallint start))
                ⟨.smallint amount.value, []⟩ =
                m.put (.smallint i) (e.written buf amount.value start.value) := by
              simp only [implementation, next, found, if_pos accepts]
            by_cases some_ : 0 < amount.value
            · have zero : start.value = 0 := by omega
              have source : (buf.take amount.value.toNat).length = amount.value.toNat := by
                rw [List.length_take]
                omega
              have bytes : (e.written buf amount.value start.value).bytes =
                  buf.take amount.value.toNat ++ e.bytes.drop amount.value.toNat := by
                simp only [Entry.written, overwritten, zero, Int.toNat_zero, List.take_zero,
                  List.nil_append, source, Nat.zero_add]
              have copied : read h i.value (toCInt start.value) (toCInt amount.value) buf =
                  some (h.setArea i.value.toNat
                    (.live (e.written buf amount.value start.value).bytes), amount.value) := by
                have inArea : amount.value ≤ (e.bytes.length : Int) := by omega
                simp only [read, valid, Option.bind_eq_bind, Option.bind_some, if_true,
                  delimited_eq (sizes.symm ▸ fits), sizes, all, areas, memcpy, if_pos some_,
                  if_pos (And.intro inArea held), Option.map_some, bytes]
              refine ⟨_, ⟨.smallint amount.value, []⟩, ?_, ?_, next_.symm ▸ after⟩
              · simp only [implementation, perform, primMemoryWrite, known,
                  decide_eq_false passes, Option.bind_eq_bind, Option.bind_some,
                  Bool.false_eq_true, if_false, same, copied, Option.map_some]
              · simp only [implementation, right, found, if_pos accepts]
            · have zero : amount.value = 0 := by omega
              have unchanged : e.written buf amount.value start.value = e := by
                simp only [Entry.written, overwritten, zero, Int.toNat_zero, List.take_zero,
                  List.append_nil, List.length_nil, Nat.add_zero, List.take_append_drop]
              have copied : read h i.value (toCInt start.value) (toCInt amount.value) buf =
                  some (h, amount.value) := by
                simp only [read, valid, Option.bind_eq_bind, Option.bind_some, if_true,
                  delimited_eq (sizes.symm ▸ fits), sizes, all, if_neg some_]
              have still : Shows h (m.put (.smallint i) e) := by
                refine shows_.update inTable.within (fun _ _ => ⟨rfl, rfl, rfl⟩) ?_
                rw [filter_valid live]
                exact ⟨areas, sizes, refs, short, few⟩
              rw [unchanged] at next_
              refine ⟨h, ⟨.smallint amount.value, []⟩, ?_, ?_, next_.symm ▸ still⟩
              · simp only [implementation, perform, primMemoryWrite, known,
                  decide_eq_false passes, Option.bind_eq_bind, Option.bind_some,
                  Bool.false_eq_true, if_false, same, copied, Option.map_some]
              · simp only [implementation, right, found, if_pos accepts]

theorem step {h : Heap} {m : Areas} (shows_ : Shows h m) {op : Op} (allowed : Allowed h op) :
    Step implementation Shows h m op := by
  cases op with
  | new size a => exact step_new shows_ allowed
  | addRef handle => exact step_addRef shows_ allowed
  | close handle => exact step_close shows_ allowed
  | sizeOf handle => exact step_sizeOf shows_ allowed
  | resizeTo handle size a => exact step_resizeTo shows_ allowed
  | read buf amount handle startingAt => exact step_read shows_ allowed
  | write buf amount handle startingAt => exact step_write shows_ allowed

theorem shows_moduleInit : Shows moduleInit fun _ => none where
  entries _ _ := rfl
  outside _ _ := rfl

theorem memory_areas_refine : Refines implementation Allowed Shows := by
  apply Refines.of_steps Shows
  · rintro h m ⟨rfl, rfl⟩
    exact shows_moduleInit
  · intro h m op shows_ allowed
    exact step shows_ allowed
  · intro h m shows_
    exact shows_

theorem right_read {m : Areas} {buf : List UInt8} {amount i start : SmallInteger} {e : Entry}
    {r : Reply} (found : m.find (.smallint i) = some e)
    (accepts : e.Accepts start.value amount.value)
    (answered : right m (.read buf (.smallint amount) (.smallint i) (.smallint start)) r) :
    r.buffer = slice e.bytes start.value.toNat amount.value.toNat ++
      buf.drop amount.value.toNat := by
  simp only [right, found, if_pos accepts] at answered
  exact answered.2

def zero : SmallInteger := ⟨1, by decide⟩

def one : SmallInteger := ⟨3, by decide⟩

def three : SmallInteger := ⟨7, by decide⟩

def twoWrites : List Op :=
  [.new (.smallint three) ⟨true, fun _ => 0, false⟩,
    .write [7] (.smallint one) (.smallint zero) (.smallint zero),
    .write [9] (.smallint one) (.smallint zero) (.smallint one)]

def firstRead (m : Areas) (r : Reply) : Bool :=
  match Areas.find m (.smallint zero) with
  | some e => !decide (e.Accepts zero.value one.value) || r.buffer = slice e.bytes 0 1
  | none => true

end SlateVm.MemoryAreas
