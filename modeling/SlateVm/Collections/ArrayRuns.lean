import Mathlib.Data.List.Nodup
import SlateVm.Collections.ExtensibleArray

/-! Runs of `ExtensibleArray` operations beside the plain list they work on. -/
namespace SlateVm.Collections.ExtensibleArray

open Refinement

variable {α : Type} {es : ExtensibleArray α} {xs : List α} {f : Nat}

/-- The elements `xs` stand in the contents array from `f` on. -/
structure Holds (es : ExtensibleArray α) (f : Nat) (xs : List α) : Prop where
  first : es.firstIndex = f
  last : es.lastIndex = f + xs.length - 1
  fits : f + xs.length ≤ es.contents.length
  items : ∀ i < xs.length, es.contents[f + i]? = xs[i]?

theorem Holds.size (holds : Holds es f xs) : es.size = xs.length := by
  have first := holds.first
  have last := holds.last
  unfold ExtensibleArray.size
  omega

theorem growth_pos (asked : Option Nat) : 0 < es.growth asked := by
  unfold growth growSize capacity
  cases asked <;> simp only <;> omega

theorem growth_ge (size : Nat) : size ≤ es.growth (some size) := by
  simp only [growth]
  omega

theorem Holds.copied {moved cs : List α} {g : Nat} (holds : Holds es f xs) {first last : Int}
    (copied : Copied cs moved g xs.length es.contents f) (fits : g + xs.length ≤ cs.length)
    (first_eq : first = g) (last_eq : last = g + xs.length - 1) :
    Holds ⟨moved, first, last⟩ g xs := by
  constructor
  · exact first_eq
  · exact last_eq
  · simp only [copied.length]
    exact fits
  · intro i hi
    exact (copied.inside i hi).trans (holds.items i hi)

theorem Holds.arrayAt (holds : Holds es f xs) {i : Nat} (hi : i < xs.length) :
    arrayAt es.contents (es.firstIndex + i) = some xs[i] := by
  rw [holds.first, show ((f : Int) + i) = ((f + i : Nat) : Int) by omega, arrayAt_nat,
    holds.items i hi, List.getElem?_eq_getElem hi]

theorem arrayPut_at {cs : List α} {index : Int} {i : Nat} (same : index = i)
    (inside : i < cs.length) (obj : α) : arrayPut cs index obj = some (cs.set i obj) := by
  rw [same]
  exact arrayPut_nat inside obj

variable [Inhabited α]

theorem holds_new (n : Nat) : Holds (new n : ExtensibleArray α) 0 [] := by
  constructor <;> simp [new]

theorem Holds.growFirst (holds : Holds es f xs) (asked : Option Nat) :
    ∃ es' f', es.growFirst asked = some es' ∧ Holds es' f' xs ∧ es.growth asked ≤ f' := by
  have first := holds.first
  have last := holds.last
  have fits := holds.fits
  have cap : es.capacity = es.contents.length := rfl
  have positive : 0 < es.growth asked := growth_pos asked
  simp only [ExtensibleArray.growFirst]
  generalize es.growth asked = growBy at positive ⊢
  generalize choice : decide (es.lastIndex + growBy ≥ es.capacity - 1) = enlarge
  have wide : (es.newContents enlarge growBy).length ≥ f + xs.length + growBy := by
    unfold newContents
    cases enlarge with
    | true => simp only [if_true, List.length_replicate]; omega
    | false =>
      have room := of_decide_eq_false choice
      simp only [Bool.false_eq_true, if_false]
      omega
  obtain ⟨offset, at_⟩ : ∃ offset : Nat, (offset : Int) =
      ((es.newContents enlarge growBy).length : Int) - es.lastIndex - 1 :=
    ⟨_, Int.toNat_of_nonneg (by omega)⟩
  have places : downTo (es.lastIndex + offset) (es.firstIndex + offset) = _ :=
    downTo_nat (s := f + offset) (n := xs.length) (by omega) (by omega)
  obtain ⟨moved, run, copied⟩ := @copyAt_down α (es.newContents enlarge growBy) es.contents
    (es.oldContents enlarge) (f + offset) f xs.length xs.length (-offset) (by omega)
    (Nat.le_refl _) (by omega) fits (by
      intro k _ cs' copied
      cases enlarge with
      | true => rfl
      | false => exact copied.outside _ (by omega))
  simp only [Nat.sub_self, Nat.add_zero] at copied
  refine ⟨⟨moved, es.firstIndex + offset, es.lastIndex + offset⟩, f + offset, ?_, ?_, by omega⟩
  · simp only [← at_, places, run]
    rfl
  · exact holds.copied copied (by omega) (by omega) (by omega)

theorem Holds.growLast (holds : Holds es f xs) (asked : Option Nat) :
    ∃ es', es.growLast asked = some es' ∧ Holds es' 0 xs ∧
      xs.length + es.growth asked ≤ es'.contents.length := by
  have first := holds.first
  have last := holds.last
  have fits := holds.fits
  have cap : es.capacity = es.contents.length := rfl
  simp only [ExtensibleArray.growLast]
  generalize es.growth asked = growBy
  generalize choice : decide (es.firstIndex - growBy ≤ 0) = enlarge
  have wide : (es.newContents enlarge growBy).length ≥ xs.length + growBy := by
    unfold newContents
    cases enlarge with
    | true => simp only [if_true, List.length_replicate]; omega
    | false =>
      have room := of_decide_eq_false choice
      simp only [Bool.false_eq_true, if_false]
      omega
  have places : upTo 0 (es.lastIndex - es.firstIndex) = _ :=
    upTo_nat (s := 0) (n := xs.length) rfl (by omega)
  obtain ⟨moved, run, copied⟩ := @copyAt_up α (es.newContents enlarge growBy) es.contents
    (es.oldContents enlarge) 0 f xs.length es.firstIndex (by omega) (by omega) fits (by
      intro k _ cs' copied
      cases enlarge with
      | true => rfl
      | false => exact copied.outside _ (by omega))
  refine ⟨⟨moved, 0, es.lastIndex - es.firstIndex⟩, ?_, ?_, ?_⟩
  · simp only [places, run]
    rfl
  · exact holds.copied copied (by omega) rfl (by omega)
  · simp only [copied.length]
    exact wide

theorem Holds.addFirst (holds : Holds es f xs) (obj : α) :
    ∃ es' f', es.addFirst obj = some es' ∧ Holds es' f' (obj :: xs) := by
  have grown : ∃ es₁ f₁, es.roomFirst = some es₁ ∧ Holds es₁ f₁ xs ∧ 0 < f₁ := by
    unfold roomFirst
    split
    · obtain ⟨es₁, f₁, run, grown, room⟩ := holds.growFirst none
      exact ⟨es₁, f₁, run, grown, Nat.lt_of_lt_of_le (growth_pos none) room⟩
    · have first := holds.first
      exact ⟨es, f, rfl, holds, by omega⟩
  obtain ⟨es₁, f₁, run, holds, room⟩ := grown
  have first := holds.first
  have last := holds.last
  have fits := holds.fits
  have stores : arrayPut es₁.contents (es₁.firstIndex - 1) obj = _ :=
    arrayPut_at (i := f₁ - 1) (by omega) (by omega) obj
  refine ⟨⟨es₁.contents.set (f₁ - 1) obj, es₁.firstIndex - 1, es₁.lastIndex⟩, f₁ - 1, ?_, ?_⟩
  · simp only [ExtensibleArray.addFirst, run, Option.bind_eq_bind, Option.bind_some, stores]
  · constructor
    · simp only
      omega
    · simp only [List.length_cons]
      omega
    · simp only [List.length_set, List.length_cons]
      omega
    · intro i hi
      rw [List.getElem?_set]
      cases i with
      | zero =>
        rw [if_pos (by omega), if_pos (by omega)]
        rfl
      | succ i =>
        rw [if_neg (by omega), show f₁ - 1 + (i + 1) = f₁ + i by omega, List.getElem?_cons_succ]
        exact holds.items i (by simpa using hi)

omit [Inhabited α] in
theorem Holds.append (holds : Holds es f xs) (room : f + xs.length < es.contents.length)
    (obj : α) :
    Holds ⟨es.contents.set (f + xs.length) obj, es.firstIndex, es.lastIndex + 1⟩ f
      (xs ++ [obj]) := by
  have last := holds.last
  constructor
  · exact holds.first
  · simp only [List.length_append, List.length_singleton]
    omega
  · simp only [List.length_set, List.length_append, List.length_singleton]
    omega
  · intro i hi
    simp only [List.length_append, List.length_singleton] at hi
    rw [List.getElem?_set]
    rcases Nat.lt_or_ge i xs.length with old | new
    · rw [if_neg (by omega), List.getElem?_append_left old]
      exact holds.items i old
    · have only : i = xs.length := by omega
      subst only
      rw [if_pos rfl, if_pos room]
      simp

theorem Holds.addLast (holds : Holds es f xs) (obj : α) :
    ∃ es' f', es.addLast obj = some es' ∧ Holds es' f' (xs ++ [obj]) := by
  have grown : ∃ es₁ f₁, es.roomLast = some es₁ ∧ Holds es₁ f₁ xs ∧
      f₁ + xs.length < es₁.contents.length := by
    unfold roomLast
    split
    · have last := holds.last
      have cap : es.capacity = es.contents.length := rfl
      exact ⟨es, f, rfl, holds, by omega⟩
    · obtain ⟨es₁, run, grown, room⟩ := holds.growLast none
      have positive : 0 < es.growth none := growth_pos none
      exact ⟨es₁, 0, run, grown, by omega⟩
  obtain ⟨es₁, f₁, run, holds, room⟩ := grown
  have last := holds.last
  have stores : arrayPut es₁.contents (es₁.lastIndex + 1) obj = _ :=
    arrayPut_at (i := f₁ + xs.length) (by omega) room obj
  refine ⟨_, f₁, ?_, holds.append room obj⟩
  simp only [ExtensibleArray.addLast, run, Option.bind_eq_bind, Option.bind_some, stores]

omit [Inhabited α] in
theorem Holds.atPut (holds : Holds es f xs) {k : Nat} (hk : k < xs.length) (value : α) :
    ∃ es', es.atPut k value = some es' ∧ Holds es' f (xs.set k value) := by
  have first := holds.first
  have fits := holds.fits
  have stores : arrayPut es.contents (es.firstIndex + k) value = _ :=
    arrayPut_at (i := f + k) (by omega) (by omega) value
  refine ⟨{ es with contents := es.contents.set (f + k) value }, ?_, ?_⟩
  · simp only [ExtensibleArray.atPut, stores, Option.bind_eq_bind, Option.bind_some]
  · constructor
    · exact first
    · simpa using holds.last
    · simpa using fits
    · intro i hi
      rw [List.length_set] at hi
      rw [List.getElem?_set, List.getElem?_set, ← holds.items i hi]
      rcases Decidable.em (k = i) with rfl | off
      · rw [if_pos rfl, if_pos rfl, if_pos hk, if_pos (by omega)]
      · rw [if_neg (by omega), if_neg off]

/-- A gap of `size` places in front of the element `k`. -/
structure Gap (es : ExtensibleArray α) (f : Nat) (xs : List α) (k size : Nat) : Prop where
  first : es.firstIndex = f
  last : es.lastIndex = f + (xs.length + size : Nat) - 1
  fits : f + (xs.length + size) ≤ es.contents.length
  front : ∀ i < k, es.contents[f + i]? = xs[i]?
  back : ∀ i < xs.length, k ≤ i → es.contents[f + (i + size)]? = xs[i]?

theorem Holds.gap_front (holds : Holds es f xs) (size : Nat) :
    ∃ es' f', es.makeGapAt 0 size = some (es', ((f' + 0 : Nat) : Int)) ∧ Gap es' f' xs 0 size := by
  have grown : ∃ es₁ f₁, es.gapFirst size = some es₁ ∧ Holds es₁ f₁ xs ∧ size ≤ f₁ := by
    unfold gapFirst
    split
    · obtain ⟨es₁, f₁, run, grown, room⟩ := holds.growFirst (some size)
      exact ⟨es₁, f₁, run, grown, Nat.le_trans (growth_ge size) room⟩
    · have first := holds.first
      exact ⟨es, f, rfl, holds, by omega⟩
  obtain ⟨es₁, f₁, run, holds, room⟩ := grown
  have first := holds.first
  have last := holds.last
  have fits := holds.fits
  have place : es₁.firstIndex - size = ((f₁ - size : Nat) : Int) := by omega
  refine ⟨⟨es₁.contents, (f₁ - size : Nat), es₁.lastIndex⟩, f₁ - size, ?_, ?_⟩
  · simp only [makeGapAt, if_true, run, Option.bind_eq_bind, Option.bind_some, place,
      Nat.add_zero]
  · constructor
    · rfl
    · simp only
      omega
    · simp only
      omega
    · intro i none
      omega
    · intro i hi _
      rw [← holds.items i hi]
      simp only
      congr 1
      omega

theorem Holds.gap_inside (holds : Holds es f xs) {k : Nat} (positive : 0 < k)
    (within : k ≤ xs.length) (size : Nat) :
    ∃ es' f', es.makeGapAt k size = some (es', ((f' + k : Nat) : Int)) ∧ Gap es' f' xs k size := by
  have grown : ∃ es₁ f₁, es.gapLast size = some es₁ ∧ Holds es₁ f₁ xs ∧
      f₁ + (xs.length + size) ≤ es₁.contents.length := by
    unfold gapLast
    split
    · obtain ⟨es₁, run, grown, room⟩ := holds.growLast (some size)
      have asked : size ≤ es.growth (some size) := growth_ge size
      exact ⟨es₁, 0, run, grown, by omega⟩
    · have last := holds.last
      have cap : es.capacity = es.contents.length := rfl
      exact ⟨es, f, rfl, holds, by omega⟩
  obtain ⟨es₁, f₁, run, holds, room⟩ := grown
  have first := holds.first
  have last := holds.last
  have sized := holds.size
  have slid : ∃ cs, es₁.slideUp k size = some cs ∧
      Copied es₁.contents cs (f₁ + k + size) (xs.length - k) es₁.contents (f₁ + k) := by
    unfold slideUp
    split
    · refine ⟨es₁.contents, rfl, rfl, ?_, fun _ _ => rfl⟩
      intro i none
      omega
    · exact moveFrom_copied (by omega) (by omega) (by omega) (by omega) (by omega)
  obtain ⟨cs, slides, copied⟩ := slid
  refine ⟨⟨cs, es₁.firstIndex, es₁.lastIndex + size⟩, f₁, ?_, ?_⟩
  · have off : ¬ ((k : Int) = 0) := by omega
    have place : es₁.firstIndex + k = ((f₁ + k : Nat) : Int) := by omega
    simp only [makeGapAt, if_neg off, run, slides, Option.bind_eq_bind, Option.bind_some, place]
  · constructor
    · exact first
    · simp only
      omega
    · simp only [copied.length]
      exact room
    · intro i hi
      rw [← holds.items i (by omega)]
      exact copied.outside _ (by omega)
    · intro i hi later
      rw [← holds.items i hi]
      have moved := copied.inside (i - k) (by omega)
      rw [show f₁ + k + size + (i - k) = f₁ + (i + size) by omega,
        show f₁ + k + (i - k) = f₁ + i by omega] at moved
      exact moved

theorem Holds.makeGapAt (holds : Holds es f xs) {k : Nat} (within : k ≤ xs.length) (size : Nat) :
    ∃ es' f', es.makeGapAt k size = some (es', ((f' + k : Nat) : Int)) ∧ Gap es' f' xs k size := by
  cases k with
  | zero => exact holds.gap_front size
  | succ k => exact holds.gap_inside (Nat.succ_pos k) within size

omit [Inhabited α] in
theorem Gap.filled {k : Nat} {col cs : List α} (gap : Gap es f xs k col.length)
    (within : k ≤ xs.length) (copied : Copied es.contents cs (f + k) col.length col 0) :
    Holds { es with contents := cs } f (xs.take k ++ col ++ xs.drop k) := by
  have length : (xs.take k ++ col ++ xs.drop k).length = xs.length + col.length := by
    simp only [List.length_append, List.length_take, List.length_drop]
    omega
  constructor
  · exact gap.first
  · rw [length]
    exact gap.last
  · rw [length]
    simp only [copied.length]
    exact gap.fits
  · intro i hi
    rw [length] at hi
    have front_length : (xs.take k).length = k := by
      rw [List.length_take]
      omega
    rw [List.append_assoc, List.getElem?_append, front_length]
    split
    · rename_i early
      rw [List.getElem?_take, if_pos early]
      exact (copied.outside _ (by omega)).trans (gap.front i early)
    · rw [List.getElem?_append]
      split
      · rename_i later inside
        have moved := copied.inside (i - k) inside
        rw [show f + k + (i - k) = f + i by omega, Nat.zero_add] at moved
        exact moved
      · rename_i later behind
        have kept := gap.back (i - col.length) (by omega) (by omega)
        rw [show f + (i - col.length + col.length) = f + i by omega] at kept
        rw [List.getElem?_drop, show k + (i - k - col.length) = i - col.length by omega, ← kept]
        exact copied.outside _ (by omega)

omit [Inhabited α] in
theorem Copied.one {cs : List α} {s : Nat} (inside : s < cs.length) (obj : α) :
    Copied cs (cs.set s obj) s 1 [obj] 0 := by
  constructor
  · simp
  · intro i hi
    have only : i = 0 := by omega
    subst only
    simp [inside]
  · intro i off
    rw [List.getElem?_set, if_neg (by omega)]

theorem Holds.atInsert (holds : Holds es f xs) {k : Nat} (within : k ≤ xs.length) (obj : α) :
    ∃ es' f', es.atInsert k obj = some es' ∧ Holds es' f' (xs.take k ++ obj :: xs.drop k) := by
  obtain ⟨es₁, f₁, run, gap⟩ := holds.makeGapAt within 1
  have fits := gap.fits
  have inside : f₁ + k < es₁.contents.length := by omega
  refine ⟨{ es₁ with contents := es₁.contents.set (f₁ + k) obj }, f₁, ?_, ?_⟩
  · simp only [ExtensibleArray.atInsert, run, Option.bind_eq_bind, Option.bind_some,
      arrayPut_nat inside]
  · have copied : Copied es₁.contents _ (f₁ + k) [obj].length [obj] 0 := Copied.one inside obj
    simpa using gap.filled within copied

theorem Holds.atInsertAll (holds : Holds es f xs) {k : Nat} (within : k ≤ xs.length)
    (col : List α) :
    ∃ es' f', es.atInsertAll k col = some es' ∧ Holds es' f' (xs.take k ++ col ++ xs.drop k) := by
  obtain ⟨es₁, f₁, run, gap⟩ := holds.makeGapAt within col.length
  have fits := gap.fits
  obtain ⟨cs, replaces, copied⟩ := @replaceFrom_copied α es₁.contents col _
    ((f₁ + k : Nat) + col.length - 1) 0 (f₁ + k) col.length 0 rfl rfl rfl (by omega) (by omega)
  refine ⟨{ es₁ with contents := cs }, f₁, ?_, gap.filled within copied⟩
  simp only [ExtensibleArray.atInsertAll, run, Option.bind_eq_bind, Option.bind_some, replaces]

omit [Inhabited α] in
theorem Holds.find_raw (holds : Holds es f xs) (test : α → Bool) :
    ((upTo es.firstIndex es.lastIndex).find? fun index =>
        (Collections.arrayAt es.contents index).any test) =
      (xs.findIdx? test).map fun k => ((f + k : Nat) : Int) := by
  rw [upTo_nat holds.first holds.last, List.find?_map]
  have same : ((fun index => (Collections.arrayAt es.contents index).any test) ∘
      fun k => ((f + k : Nat) : Int)) = fun k => (es.contents[f + k]?).any test := by
    funext k
    simp only [Function.comp, arrayAt_nat]
  rw [same]
  congr 1
  have items := holds.items
  cases found : xs.findIdx? test with
  | none =>
    rw [List.find?_range_eq_none]
    intro k hk
    rw [items k hk, List.getElem?_eq_getElem hk]
    have misses := List.findIdx?_eq_none_iff.mp found xs[k] (List.getElem_mem hk)
    simpa using misses
  | some k =>
    obtain ⟨hk, hits, misses⟩ := List.findIdx?_eq_some_iff_getElem.mp found
    rw [List.find?_range_eq_some]
    refine ⟨?_, List.mem_range.mpr hk, ?_⟩
    · rw [items k hk, List.getElem?_eq_getElem hk]
      simpa using hits
    · intro j hj
      rw [items j (by omega), List.getElem?_eq_getElem (by omega : j < xs.length)]
      have miss := misses j hj
      simpa using miss

theorem Holds.closed (holds : Holds es f xs) {k : Nat} (hk : k < xs.length) :
    ∃ cs, moveFrom es.contents ((f + k : Nat) : Int) (es.lastIndex - 1) ((f + k : Nat) + 1) =
        some cs ∧ arrayPut cs es.lastIndex default = some (cs.set (f + xs.length - 1) default) ∧
      Holds ⟨cs.set (f + xs.length - 1) default, es.firstIndex, es.lastIndex - 1⟩ f
        (xs.eraseIdx k) := by
  have first := holds.first
  have last := holds.last
  have fits := holds.fits
  have stop : es.lastIndex - 1 = (f + k : Nat) + (xs.length - 1 - k : Nat) - 1 := by omega
  obtain ⟨cs, run, copied⟩ := @moveFrom_copied α es.contents _ _ ((f + k : Nat) + 1) (f + k)
    (xs.length - 1 - k) (f + k + 1) rfl stop rfl (by omega) (by omega)
  have length : (xs.eraseIdx k).length = xs.length - 1 := List.length_eraseIdx_of_lt hk
  refine ⟨cs, run, arrayPut_at (by omega) (by rw [copied.length]; omega) _, ?_⟩
  constructor
  · exact first
  · rw [length]
    simp only
    omega
  · rw [length, List.length_set, copied.length]
    omega
  · intro i hi
    rw [length] at hi
    simp only
    rw [List.getElem?_set, if_neg (by omega), List.getElem?_eraseIdx]
    split
    · rename_i early
      rw [← holds.items i (by omega)]
      exact copied.outside _ (by omega)
    · have moved := copied.inside (i - k) (by omega)
      rw [show f + k + (i - k) = f + i by omega,
        show f + k + 1 + (i - k) = f + (i + 1) by omega] at moved
      rw [moved, holds.items (i + 1) (by omega)]

theorem Holds.remove (holds : Holds es f xs) (equals : α → α → Bool) (obj : α) :
    (xs.findIdx? (equals obj) = none ∧ es.remove equals obj = some none) ∨
      ∃ k es', xs.findIdx? (equals obj) = some k ∧ es.remove equals obj = some (some es') ∧
        Holds es' f (xs.eraseIdx k) := by
  have raw := holds.find_raw (equals obj)
  cases found : xs.findIdx? (equals obj) with
  | none =>
    rw [found] at raw
    exact Or.inl ⟨rfl, by simp only [ExtensibleArray.remove, raw, Option.map_none]⟩
  | some k =>
    rw [found] at raw
    obtain ⟨hk, _⟩ := List.findIdx?_eq_some_iff_getElem.mp found
    obtain ⟨cs, moves, puts, closed⟩ := holds.closed hk
    refine Or.inr ⟨k, _, rfl, ?_, closed⟩
    simp only [ExtensibleArray.remove, raw, Option.map_some, Option.bind_eq_bind, moves,
      Option.bind_some, puts]

theorem Holds.removeAt (holds : Holds es f xs) {k : Nat} (hk : k < xs.length) :
    ∃ es', es.removeAt k = some (es', xs[k]) ∧ Holds es' f (xs.eraseIdx k) := by
  obtain ⟨cs, moves, puts, closed⟩ := holds.closed hk
  have place : (k : Int) + es.firstIndex = ((f + k : Nat) : Int) := by
    have first := holds.first
    omega
  refine ⟨_, ?_, closed⟩
  simp only [ExtensibleArray.removeAt, holds.arrayAt hk, Option.bind_eq_bind, Option.bind_some,
    place, moves, puts]

theorem Holds.removeFirst {x : α} (holds : Holds es f (x :: xs)) :
    ∃ es', es.removeFirst = some (es', x) ∧ Holds es' (f + 1) xs := by
  have first := holds.first
  have last := holds.last
  have fits := holds.fits
  simp only [List.length_cons] at last fits
  have reads := holds.arrayAt (i := 0) (by simp)
  rw [Int.natCast_zero, Int.add_zero] at reads
  have puts : arrayPut es.contents es.firstIndex default = _ :=
    arrayPut_at (i := f) first (by omega) default
  refine ⟨⟨es.contents.set f default, es.firstIndex + 1, es.lastIndex⟩, ?_, ?_⟩
  · simp only [ExtensibleArray.removeFirst, reads, puts, Option.bind_eq_bind, Option.bind_some,
      List.getElem_cons_zero]
  · constructor
    · simp only
      omega
    · simp only
      omega
    · simp only [List.length_set]
      omega
    · intro i hi
      simp only
      rw [List.getElem?_set, if_neg (by omega)]
      have item := holds.items (i + 1) (by simpa using hi)
      rw [List.getElem?_cons_succ] at item
      rw [← item]
      congr 1
      omega

theorem Holds.removeLast {x : α} (holds : Holds es f (xs ++ [x])) :
    ∃ es', es.removeLast = some (es', x) ∧ Holds es' f xs := by
  have first := holds.first
  have last := holds.last
  have fits := holds.fits
  simp only [List.length_append, List.length_singleton] at last fits
  have place : es.lastIndex = ((f + xs.length : Nat) : Int) := by omega
  have reads := holds.items xs.length (by simp)
  simp only [List.getElem?_concat_length] at reads
  have puts : arrayPut es.contents es.lastIndex default = _ :=
    arrayPut_at (i := f + xs.length) place (by omega) default
  refine ⟨⟨es.contents.set (f + xs.length) default, es.firstIndex, es.lastIndex - 1⟩, ?_, ?_⟩
  · simp only [ExtensibleArray.removeLast, place, arrayAt_nat, reads, Option.bind_eq_bind,
      Option.bind_some]
    simp only [← place, puts, Option.bind_some]
  · constructor
    · exact first
    · simp only
      omega
    · simp only [List.length_set]
      omega
    · intro i hi
      simp only
      rw [List.getElem?_set, if_neg (by omega), holds.items i (by simp; omega),
        List.getElem?_append_left hi]

/-- What the loops of `removeFirst:` and `removeLast:` make of the two arrays: the places `ks`
of the result come from `d` places further on, which are vacated. -/
structure Extracted (cs r cs' r' : List α) (d : Nat) (ks : List Nat) : Prop where
  length : cs'.length = cs.length
  result_length : r'.length = r.length
  result : ∀ k ∈ ks, r'[k]? = cs[d + k]?
  result_other : ∀ k, k ∉ ks → r'[k]? = r[k]?
  other : ∀ i, (∀ k ∈ ks, i ≠ d + k) → cs'[i]? = cs[i]?

theorem extracts {d : Nat} (ks : List Nat) (once : ks.Nodup) (cs r : List α)
    (inside : ∀ k ∈ ks, k < r.length ∧ d + k < cs.length) :
    ∃ cs' r', ks.foldlM (fun state k => extract state ((d + k : Nat) : Int) (k : Int)) (cs, r) =
      some (cs', r') ∧ Extracted cs r cs' r' d ks := by
  induction ks generalizing cs r with
  | nil => exact ⟨cs, r, rfl, rfl, rfl, by simp, fun _ _ => rfl, fun _ _ => rfl⟩
  | cons k ks ih =>
    obtain ⟨unused, once⟩ := List.nodup_cons.mp once
    obtain ⟨hr, hc⟩ := inside k (List.mem_cons_self ..)
    have round : extract (cs, r) ((d + k : Nat) : Int) (k : Int) =
        some (cs.set (d + k) default, r.set k cs[d + k]) := by
      simp only [extract, arrayAt_nat, List.getElem?_eq_getElem hc, arrayPut_nat hr,
        arrayPut_nat hc, Option.bind_eq_bind, Option.bind_some]
    obtain ⟨cs', r', run, done⟩ := ih once (cs.set (d + k) default) (r.set k cs[d + k]) (by
      intro j hj
      simpa using inside j (List.mem_cons_of_mem _ hj))
    refine ⟨cs', r', ?_, ?_, ?_, ?_, ?_, ?_⟩
    · rw [List.foldlM_cons, round]
      exact run
    · simpa using done.length
    · simpa using done.result_length
    · intro j hj
      rcases List.mem_cons.mp hj with rfl | later
      · rw [done.result_other j unused, List.getElem?_set, if_pos rfl, if_pos hr,
          List.getElem?_eq_getElem hc]
      · have apart : k ≠ j := by
          rintro rfl
          exact unused later
        rw [done.result j later, List.getElem?_set, if_neg (by omega)]
    · intro j hj
      have apart : k ≠ j := by
        rintro rfl
        exact hj (List.mem_cons_self ..)
      rw [done.result_other j fun later => hj (List.mem_cons_of_mem _ later), List.getElem?_set,
        if_neg apart]
    · intro j hj
      have off := hj k (List.mem_cons_self ..)
      rw [done.other j fun i hi => hj i (List.mem_cons_of_mem _ hi), List.getElem?_set,
        if_neg (Ne.symm off)]

omit [Inhabited α] in
theorem Holds.taken (holds : Holds es f xs) (n : Nat) :
    (if (n : Int) > es.size then es.size else (n : Int)) = ((min n xs.length : Nat) : Int) := by
  rw [holds.size]
  split <;> omega

theorem Holds.removeFirstN (holds : Holds es f xs) (n : Nat)
    (spares : f = 0 ∨ min n xs.length = 0) :
    ∃ es', es.removeFirstN n = some (es', xs.take n) ∧
      Holds es' (f + min n xs.length) (xs.drop n) := by
  have first := holds.first
  have last := holds.last
  have fits := holds.fits
  obtain ⟨m, count⟩ : ∃ m, m = min n xs.length := ⟨_, rfl⟩
  have taken := holds.taken n
  rw [← count] at taken spares ⊢
  have range : upTo es.firstIndex (es.firstIndex + (m : Int) - 1) =
      (List.range m).map fun k => ((k : Nat) : Int) := by
    rw [upTo_nat (s := f) (n := m) first (by omega)]
    apply List.map_congr_left
    intro k hk
    have below := List.mem_range.mp hk
    congr 1
    omega
  obtain ⟨cs, r, run, done⟩ := extracts (d := 0) (List.range m) List.nodup_range es.contents
    (List.replicate m default) (by
      intro k hk
      have below := List.mem_range.mp hk
      rw [List.length_replicate]
      omega)
  simp only [Nat.zero_add] at run
  have result : r = xs.take n := by
    apply List.ext_getElem?
    intro i
    rcases Nat.lt_or_ge i m with early | late
    · have placed := done.result i (List.mem_range.mpr early)
      rw [placed, List.getElem?_take, if_pos (by omega), ← holds.items i (by omega)]
      congr 1
      omega
    · have long := done.result_length
      rw [List.length_replicate] at long
      rw [List.getElem?_eq_none (by omega), List.getElem?_eq_none]
      rw [List.length_take]
      omega
  refine ⟨⟨cs, es.firstIndex + (m : Int), es.lastIndex⟩, ?_, ?_⟩
  · simp only [ExtensibleArray.removeFirstN, taken, range, List.foldlM_map, Int.toNat_natCast, run,
      Option.bind_eq_bind, Option.bind_some, result]
  · have length := done.length
    constructor
    · simp only
      omega
    · simp only [List.length_drop]
      omega
    · simp only [List.length_drop]
      omega
    · intro i hi
      rw [List.length_drop] at hi
      have kept := done.other (f + m + i) (by
        intro k hk
        have below := List.mem_range.mp hk
        omega)
      rw [List.getElem?_drop, ← holds.items (n + i) (by omega)]
      simp only [kept]
      congr 1
      omega

theorem Holds.removeLastN (holds : Holds es f xs) (n : Nat) :
    ∃ es', es.removeLastN n = some (es', xs.drop (xs.length - n)) ∧
      Holds es' f (xs.take (xs.length - n)) := by
  have first := holds.first
  have last := holds.last
  have fits := holds.fits
  obtain ⟨m, count⟩ : ∃ m, m = min n xs.length := ⟨_, rfl⟩
  have taken := holds.taken n
  rw [← count] at taken
  have range : downTo es.lastIndex (es.lastIndex - (m : Int) + 1) =
      ((List.range m).map fun j => m - 1 - j).map
        fun k => ((f + (xs.length - m) + k : Nat) : Int) := by
    rw [downTo_nat (s := f + (xs.length - m)) (n := m) (by omega) (by omega), List.map_map]
    rfl
  obtain ⟨cs, r, run, done⟩ := extracts (d := f + (xs.length - m))
    ((List.range m).map fun j => m - 1 - j) (by
      apply List.Nodup.map_on _ List.nodup_range
      intro i hi j hj same
      have first := List.mem_range.mp hi
      have second := List.mem_range.mp hj
      omega) es.contents (List.replicate m default) (by
      intro k hk
      obtain ⟨j, hj, rfl⟩ := List.mem_map.mp hk
      have below := List.mem_range.mp hj
      rw [List.length_replicate]
      omega)
  have member : ∀ k, k ∈ (List.range m).map (fun j => m - 1 - j) ↔ k < m := by
    intro k
    simp only [List.mem_map, List.mem_range]
    constructor
    · rintro ⟨j, hj, rfl⟩
      omega
    · intro below
      exact ⟨m - 1 - k, by omega, by omega⟩
  have result : r = xs.drop (xs.length - n) := by
    apply List.ext_getElem?
    intro i
    rcases Nat.lt_or_ge i m with early | late
    · have placed := done.result i ((member i).mpr early)
      rw [placed, List.getElem?_drop, ← holds.items (xs.length - n + i) (by omega)]
      congr 1
      omega
    · have long := done.result_length
      rw [List.length_replicate] at long
      rw [List.getElem?_eq_none (by omega), List.getElem?_eq_none]
      rw [List.length_drop]
      omega
  have rounds : (downTo es.lastIndex (es.lastIndex - (m : Int) + 1)).foldlM
      (fun state i => extract state i ((m : Int) - 1 - (es.lastIndex - i)))
      (es.contents, List.replicate m default) = some (cs, r) := by
    have place : ∀ k : Nat, (m : Int) - 1 -
        (es.lastIndex - ((f + (xs.length - m) + k : Nat) : Int)) = k := by
      intro k
      omega
    rw [range, List.foldlM_map]
    simp only [place]
    exact run
  refine ⟨⟨cs, es.firstIndex, es.lastIndex - (m : Int)⟩, ?_, ?_⟩
  · simp only [ExtensibleArray.removeLastN, taken, Int.toNat_natCast, rounds,
      Option.bind_eq_bind, Option.bind_some, result]
  · have length := done.length
    constructor
    · exact first
    · simp only [List.length_take]
      omega
    · simp only [List.length_take]
      omega
    · intro i hi
      rw [List.length_take] at hi
      have kept := done.other (f + i) (by
        intro k hk
        have below := (member k).mp hk
        omega)
      rw [List.getElem?_take, if_pos (by omega), ← holds.items i (by omega)]
      exact kept

omit [Inhabited α] in
theorem Holds.atRemove (holds : Holds es f xs) {k n : Nat}
    (within : n = 0 ∨ k + n ≤ xs.length) :
    ∃ es', es.atRemove k n = some es' ∧ Holds es' f (xs.take k ++ xs.drop (k + n)) := by
  have first := holds.first
  have last := holds.last
  have fits := holds.fits
  have moved : ∃ cs, moveFrom es.contents (k + es.firstIndex) (es.lastIndex - n)
      (k + es.firstIndex + n) = some cs ∧
      Copied es.contents cs (f + k) (xs.length - (k + n)) es.contents (f + k + n) := by
    rcases Nat.lt_or_ge xs.length (k + n) with beyond | inside
    · have nothing : n = 0 := by omega
      refine ⟨es.contents, ?_, ?_⟩
      · have empty : upTo (k + es.firstIndex) (es.lastIndex - n) = [] := by
          unfold upTo
          rw [show (es.lastIndex - n + 1 - (k + es.firstIndex)).toNat = 0 by omega]
          rfl
        unfold moveFrom
        rw [if_neg (by omega), empty]
        rfl
      · rw [show xs.length - (k + n) = 0 by omega]
        exact .nothing _ _ _ _
    · exact moveFrom_copied (by omega) (by omega) (by omega) (by omega) (by omega)
  obtain ⟨cs, run, copied⟩ := moved
  refine ⟨⟨cs, es.firstIndex, es.lastIndex - n⟩, ?_, ?_⟩
  · simp only [ExtensibleArray.atRemove, run, Option.bind_eq_bind, Option.bind_some]
  · have length : (xs.take k ++ xs.drop (k + n)).length = xs.length - n := by
      simp only [List.length_append, List.length_take, List.length_drop]
      omega
    constructor
    · exact first
    · rw [length]
      simp only
      omega
    · rw [length]
      simp only [copied.length]
      omega
    · intro i hi
      rw [length] at hi
      rw [List.getElem?_append, List.length_take]
      split
      · rename_i early
        rw [List.getElem?_take, if_pos (by omega), ← holds.items i (by omega)]
        exact copied.outside _ (by omega)
      · rename_i late
        have place := copied.inside (i - k) (by omega)
        rw [List.getElem?_drop, ← holds.items _ (by omega)]
        rw [show f + k + (i - k) = f + i by omega] at place
        simp only [place]
        congr 1
        omega

omit [Inhabited α] in
theorem Holds.keepUnless (holds : Holds es f xs) (test : α → Bool) {k : Nat}
    (within : k ≤ xs.length) :
    ∃ cs, ExtensibleArray.keepUnless test ((List.range k).map fun k => ((f + k : Nat) : Int))
        es.contents (f : Int) =
        some (cs, ((f + ((xs.take k).filter fun x => !test x).length : Nat) : Int)) ∧
      cs.length = es.contents.length ∧
      (∀ i < ((xs.take k).filter fun x => !test x).length,
        cs[f + i]? = ((xs.take k).filter fun x => !test x)[i]?) ∧
      ∀ j, f + k ≤ j → cs[j]? = es.contents[j]? := by
  have fits := holds.fits
  induction k with
  | zero => exact ⟨es.contents, by simp [ExtensibleArray.keepUnless], rfl, by simp, fun _ _ => rfl⟩
  | succ k ih =>
    obtain ⟨cs, run, length, front, rest⟩ := ih (by omega)
    have hk : k < xs.length := by omega
    have shorter : ((xs.take k).filter fun x => !test x).length ≤ k := by
      apply Nat.le_trans (List.length_filter_le _ _)
      rw [List.length_take]
      omega
    have here : cs[f + k]? = some xs[k] := by
      rw [rest _ (by omega), holds.items k hk, List.getElem?_eq_getElem hk]
    unfold ExtensibleArray.keepUnless at run ⊢
    rw [List.range_succ, List.map_append, List.foldlM_append, run, List.take_add_one,
      List.getElem?_eq_getElem hk, List.filter_append]
    simp only [List.map_cons, List.map_nil, List.foldlM_cons, List.foldlM_nil, Option.bind_eq_bind,
      Option.bind_some, arrayAt_nat, here, Option.toList_some]
    cases tested : test xs[k] with
    | true =>
      refine ⟨cs, ?_, length, ?_, fun j later => rest j (by omega)⟩
      · simp [tested]
      · simpa [tested] using front
    | false =>
      have room : f + ((xs.take k).filter fun x => !test x).length < cs.length := by omega
      refine ⟨cs.set (f + ((xs.take k).filter fun x => !test x).length) xs[k], ?_, ?_, ?_, ?_⟩
      · simp only [tested, Bool.false_eq_true, if_false, arrayPut_nat room, Option.bind_some,
          Option.pure_def, List.filter_cons, Bool.not_false, if_true, List.filter_nil,
          List.length_append, List.length_singleton]
        rfl
      · simpa using length
      · intro i hi
        simp only [List.filter_cons, tested, Bool.not_false, if_true, List.filter_nil,
          List.length_append, List.length_singleton] at hi ⊢
        rw [List.getElem?_set, List.getElem?_append]
        rcases Nat.lt_or_ge i ((xs.take k).filter fun x => !test x).length with old | new
        · rw [if_neg (by omega), if_pos old]
          exact front i old
        · rw [if_pos (by omega), if_pos room, if_neg (by omega),
            show i - ((xs.take k).filter fun x => !test x).length = 0 by omega]
          rfl
      · intro j later
        rw [List.getElem?_set, if_neg (by omega)]
        exact rest j (by omega)

theorem Holds.removeAllSuchThat (holds : Holds es f xs) {test : α → Bool}
    (some : ∃ x ∈ xs, test x = true) :
    ∃ es', es.removeAllSuchThat test = .some es' ∧ Holds es' f (xs.filter fun x => !test x) := by
  have first := holds.first
  have last := holds.last
  have fits := holds.fits
  have shorter : (xs.filter fun x => !test x).length < xs.length := by
    apply List.length_filter_lt_length_iff_exists.mpr
    obtain ⟨x, member, passes⟩ := some
    exact ⟨x, member, by simp [passes]⟩
  obtain ⟨cs, run, length, front, _⟩ := holds.keepUnless test (Nat.le_refl xs.length)
  rw [List.take_length] at run front
  obtain ⟨m, kept⟩ : ∃ m, m = (xs.filter fun x => !test x).length := ⟨_, rfl⟩
  rw [← kept] at run front shorter
  obtain ⟨cs', fills, length', other⟩ := fill_some
    ((List.range (xs.length - m)).map fun k => f + m + k) cs (by
      intro i hi
      obtain ⟨k, hk, rfl⟩ := List.mem_map.mp hi
      have below := List.mem_range.mp hk
      omega)
  refine ⟨⟨cs', es.firstIndex, f + m - 1⟩, ?_, ?_⟩
  · have all : fromTo f es.lastIndex = _ := fromTo_nat (n := xs.length) rfl last (by omega)
    have rest : fromTo ((f + m : Nat) : Int) es.lastIndex = _ :=
      fromTo_nat (n := xs.length - m) rfl (by omega) (by omega)
    rw [List.foldlM_map] at fills
    simp only [ExtensibleArray.removeAllSuchThat, all, first, run, Option.bind_eq_bind,
      Option.bind_some, rest, List.foldlM_map, fills]
    rfl
  · constructor
    · exact first
    · rw [← kept]
    · rw [← kept]
      simp only
      omega
    · intro i hi
      rw [← kept] at hi
      rw [← front i hi]
      apply other
      intro clash
      obtain ⟨k, _, same⟩ := List.mem_map.mp clash
      omega

theorem holds_clear (es : ExtensibleArray α) : Holds es.clear 0 [] := by
  constructor <;> simp [clear]

end SlateVm.Collections.ExtensibleArray
