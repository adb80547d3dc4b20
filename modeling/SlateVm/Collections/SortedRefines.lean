import SlateVm.Collections.SortedRuns

/-! The operations of `SortedArray` keep the elements in order and lose none. -/
namespace SlateVm.Collections.SortedArray

open Refinement Segments
open ExtensibleArray (Holds)

variable {α : Type} {r : SortOrder α} {es : ExtensibleArray α} {xs : List α} {m : Multiset α}
  {obj : α} {f k : Nat}

theorem coe_brought (xs : List α) (obj : α) :
    ((obj :: xs : List α) : Multiset α) = (xs : Multiset α) + {obj} := by
  rw [Multiset.add_comm, Multiset.singleton_add, Multiset.cons_coe]

theorem Cut.mem_take (cut : Cut r xs obj k) {x : α} (member : x ∈ xs.take k) :
    r.before x obj = true := by
  obtain ⟨i, here⟩ := List.mem_iff_getElem?.mp member
  rw [List.getElem?_take] at here
  split at here
  · rename_i before
    exact cut.front i x before here
  · cases here

theorem Cut.mem_drop (cut : Cut r xs obj k) {x : α} (member : x ∈ xs.drop k) :
    r.before x obj = false := by
  obtain ⟨i, here⟩ := List.mem_iff_getElem?.mp member
  rw [List.getElem?_drop] at here
  exact cut.back (k + i) x (Nat.le_add_right k i) here

theorem after_of_not {x : α} (not_before : r.before x obj = false) : r.before obj x = true := by
  have either := r.total x obj
  simpa [not_before] using either

theorem Cut.insert (cut : Cut r xs obj k) (order : xs.Pairwise (r.before · · = true)) :
    (xs.take k ++ obj :: xs.drop k).Pairwise (r.before · · = true) := by
  rw [← List.take_append_drop k xs, List.pairwise_append] at order
  obtain ⟨front, back, across⟩ := order
  rw [List.pairwise_append, List.pairwise_cons]
  refine ⟨front, ⟨fun x member => after_of_not (cut.mem_drop member), back⟩, ?_⟩
  intro x first y second
  rcases List.mem_cons.mp second with rfl | later
  · exact cut.mem_take first
  · exact across x first y later

theorem Cut.replace {x : α} (cut : Cut r xs obj k) (order : xs.Pairwise (r.before · · = true))
    (here : xs[k]? = some x) : (xs.set k obj).Pairwise (r.before · · = true) := by
  have inside := (List.getElem?_eq_some_iff.mp here).1
  rw [List.set_eq_take_append_cons_drop, if_pos inside]
  have whole := cut.insert order
  rw [List.drop_eq_getElem_cons inside] at whole
  have shorter : (obj :: xs.drop (k + 1)).Sublist (obj :: xs[k] :: xs.drop (k + 1)) :=
    (List.sublist_cons_self _ _).cons_cons obj
  exact whole.sublist (shorter.append_left (xs.take k))

theorem Cut.count (cut : Cut r xs obj k) : xs.countP (r.before · obj) = k := by
  have inside := cut.inside
  rw [← List.take_append_drop k xs, List.countP_append]
  have front : (xs.take k).countP (r.before · obj) = (xs.take k).length := by
    rw [List.countP_eq_length]
    intro x member
    exact cut.mem_take member
  have back : (xs.drop k).countP (r.before · obj) = 0 := by
    rw [List.countP_eq_zero]
    intro x member
    simp [cut.mem_drop member]
  rw [front, back, List.length_take]
  omega

theorem holds_stretch (holds : Holds es f xs) :
    (es.contents.drop f).take xs.length = xs := by
  apply List.ext_getElem?
  intro i
  rw [List.getElem?_take]
  split
  · rename_i inside
    rw [List.getElem?_drop, holds.items i inside]
  · rw [List.getElem?_eq_none (by omega)]

variable [Inhabited α]

omit [Inhabited α] in
theorem reSort_sorts (r : SortOrder α) (holds : Holds es f xs) :
    ∃ es' xs', reSort r es = some es' ∧ Holds es' f xs' ∧
      xs'.Pairwise (r.before · · = true) ∧ xs'.Perm xs := by
  have first := holds.first
  have last := holds.last
  have fits := holds.fits
  have size := holds.size
  obtain ⟨contents, run, permuted, ordered⟩ := @sortFrom_sorts α r es.contents
    es.firstIndex.toNat es.lastIndex.toNat es.size.toNat (by omega) (by omega)
  have length := permuted.length
  have count : ((contents.drop f).take xs.length).length = xs.length := by
    rw [List.length_take, List.length_drop]
    omega
  have item : ∀ i < xs.length, ((contents.drop f).take xs.length)[i]? = contents[f + i]? := by
    intro i inside
    rw [List.getElem?_take, if_pos inside, List.getElem?_drop]
  refine ⟨{ es with contents := contents }, (contents.drop f).take xs.length, ?_, ?_, ?_, ?_⟩
  · simp only [reSort, run, Option.bind_eq_bind, Option.bind_some]
  · constructor
    · exact first
    · rw [count]
      exact last
    · rw [count]
      simp only
      omega
    · intro i inside
      rw [count] at inside
      exact (item i inside).symm
  · rw [List.pairwise_iff_getElem]
    intro i j hi hj later
    rw [count] at hi hj
    have here := (item i hi).symm.trans (List.getElem?_eq_getElem (by omega))
    have there := (item j hj).symm.trans (List.getElem?_eq_getElem (by omega))
    exact ordered (f + i) (f + j) _ _ (by omega) (by omega) (by omega) here there
  · rcases Nat.eq_zero_or_pos xs.length with none | some
    · rw [none, List.take_zero, List.length_eq_zero_iff.mp none]
    · have stretch : Permuted es.contents contents f (f + xs.length) :=
        permuted.widen (by omega) (by omega)
      have inner := stretch.inside (Nat.le_add_right f xs.length)
      rwa [Nat.add_sub_cancel_left, holds_stretch holds] at inner

theorem addLast_all (col : List α) (holds : Holds es f xs) :
    ∃ es' f', col.foldlM ExtensibleArray.addLast es = some es' ∧ Holds es' f' (xs ++ col) := by
  induction col generalizing es f xs with
  | nil => exact ⟨es, f, rfl, by simpa using holds⟩
  | cons x col ih =>
    obtain ⟨es₁, f₁, run, added⟩ := holds.addLast x
    obtain ⟨es₂, f₂, rest, all⟩ := ih added
    refine ⟨es₂, f₂, ?_, by simpa using all⟩
    rw [List.foldlM_cons, run]
    exact rest

theorem Keeps.add (keeps : Keeps r es m) (obj : α) :
    ∃ es', SortedArray.add r es obj = some es' ∧ Keeps r es' (m + {obj}) := by
  obtain ⟨f, xs, holds, order, same⟩ := keeps
  obtain ⟨k, place, cut⟩ := indexForInserting_cuts holds order obj
  obtain ⟨es', f', run, inserted⟩ := holds.atInsert cut.inside obj
  have accepted : es.refusesGap (k : Int) = false := by
    rw [holds.refusesGap]
    have inside := cut.inside
    simp only [ExtensibleArray.gap]
    rw [if_pos (by omega)]
    rfl
  refine ⟨es', ?_, f', _, inserted, cut.insert order, ?_⟩
  · simp [SortedArray.add, place, accepted, run]
  · rw [← same, ← coe_brought, Multiset.coe_eq_coe]
    simpa using @List.perm_middle α obj (xs.take k) (xs.drop k)

theorem Keeps.addAll (keeps : Keeps r es m) (col : List α) :
    ∃ es', SortedArray.addAll r es col = some es' ∧ Keeps r es' (m + col) := by
  unfold SortedArray.addAll
  split
  · obtain ⟨f, xs, holds, _, same⟩ := keeps
    obtain ⟨es₁, f₁, run, added⟩ := addLast_all col holds
    obtain ⟨es₂, ys, sorts, again, order, perm⟩ := reSort_sorts r added
    refine ⟨es₂, ?_, f₁, ys, again, order, ?_⟩
    · simp [run, sorts]
    · rw [← same, Multiset.coe_add, Multiset.coe_eq_coe]
      exact perm
  · rename_i few
    clear few
    induction col generalizing es m with
    | nil => exact ⟨es, rfl, by simpa using keeps⟩
    | cons x col ih =>
      obtain ⟨es₁, run, kept⟩ := keeps.add x
      obtain ⟨es₂, rest, all⟩ := ih kept
      refine ⟨es₂, ?_, ?_⟩
      · rw [List.foldlM_cons, run]
        exact rest
      · rwa [Multiset.add_assoc, Multiset.singleton_add, Multiset.cons_coe] at all

theorem addFirst_cases (holds : Holds es f xs) (order : xs.Pairwise (r.before · · = true))
    (obj : α) :
    (∃ es' f', addFirst r es obj = some (some es') ∧ Holds es' f' (obj :: xs) ∧
        ∀ x ∈ xs, r.before obj x = true) ∨
      addFirst r es obj = some none ∧ ∃ x ∈ xs, r.before obj x = false := by
  have size := holds.size
  obtain ⟨es', f', run, added⟩ := holds.addFirst obj
  unfold SortedArray.addFirst
  cases xs with
  | nil =>
    left
    refine ⟨es', f', ?_, added, by simp⟩
    rw [if_pos (by simpa using size), run]
    rfl
  | cons first rest =>
    have some_there : ¬ es.size = 0 := by
      simp only [List.length_cons] at size
      omega
    have reads : es.at? 0 = some first := holds.at? 0
    rw [if_neg some_there]
    cases before : r.before obj first with
    | true =>
      left
      refine ⟨es', f', by simp [reads, before, run], added, ?_⟩
      intro x member
      rcases List.mem_cons.mp member with rfl | later
      · exact before
      · exact r.trans _ _ _ before ((List.pairwise_cons.mp order).1 x later)
    | false =>
      right
      exact ⟨by simp [reads, before], first, List.mem_cons_self .., before⟩

theorem addLast_cases (holds : Holds es f xs) (order : xs.Pairwise (r.before · · = true))
    (obj : α) :
    (∃ es' f', addLast r es obj = some (some es') ∧ Holds es' f' (xs ++ [obj]) ∧
        ∀ x ∈ xs, r.before x obj = true) ∨
      addLast r es obj = some none ∧ ∃ x ∈ xs, r.before x obj = false := by
  have size := holds.size
  obtain ⟨es', f', run, added⟩ := holds.addLast obj
  unfold SortedArray.addLast
  rcases List.eq_nil_or_concat xs with rfl | ⟨front, last, rfl⟩
  · left
    refine ⟨es', f', ?_, added, by simp⟩
    rw [if_pos (by simpa using size), run]
    rfl
  · rw [List.concat_eq_append] at *
    simp only [List.length_append, List.length_singleton] at size
    have place : es.size - 1 = (front.length : Nat) := by omega
    have reads : es.at? (es.size - 1) = some last := by
      rw [place, holds.at?, List.getElem?_concat_length]
    rw [if_neg (by omega)]
    cases before : r.before last obj with
    | true =>
      left
      refine ⟨es', f', by simp [reads, before, run], added, ?_⟩
      intro x member
      rcases List.mem_append.mp member with earlier | only
      · have below := (List.pairwise_append.mp order).2.2 x earlier last (List.mem_singleton_self _)
        exact r.trans _ _ _ below before
      · rwa [List.mem_singleton.mp only]
    | false =>
      right
      exact ⟨by simp [reads, before], last, by simp, before⟩

theorem Keeps.step_addFirst (keeps : Keeps r es m) (obj : α) :
    Step (implementation r) (Keeps r) es m (.addFirst obj) := by
  obtain ⟨f, xs, holds, order, rfl⟩ := keeps
  rcases addFirst_cases holds order obj with ⟨es', f', run, added, all⟩ | ⟨run, x, member, off⟩
  · refine ⟨es', ⟨.object obj, none⟩, by simp [implementation, perform, run, stored], ?_, ?_⟩
    · exact .inl ⟨all, rfl⟩
    · exact ⟨f', _, added, List.pairwise_cons.mpr ⟨all, order⟩, coe_brought xs obj⟩
  · refine ⟨es, ⟨.signalled, none⟩, by simp [implementation, perform, run, stored], ?_, ?_⟩
    · exact .inr ⟨⟨x, member, off⟩, rfl⟩
    · exact ⟨f, xs, holds, order, rfl⟩

omit [Inhabited α] in
theorem append_order (order : xs.Pairwise (r.before · · = true))
    (all : ∀ x ∈ xs, r.before x obj = true) : (xs ++ [obj]).Pairwise (r.before · · = true) := by
  rw [List.pairwise_append]
  refine ⟨order, List.pairwise_singleton _ _, ?_⟩
  intro x member y only
  rw [List.mem_singleton.mp only]
  exact all x member

theorem Keeps.step_addLast (keeps : Keeps r es m) (obj : α) :
    Step (implementation r) (Keeps r) es m (.addLast obj) := by
  obtain ⟨f, xs, holds, order, rfl⟩ := keeps
  rcases addLast_cases holds order obj with ⟨es', f', run, added, all⟩ | ⟨run, x, member, off⟩
  · refine ⟨es', ⟨.object obj, none⟩, by simp [implementation, perform, run, stored], ?_, ?_⟩
    · exact .inl ⟨all, rfl⟩
    · exact ⟨f', _, added, append_order order all, rfl⟩
  · refine ⟨es, ⟨.signalled, none⟩, by simp [implementation, perform, run, stored], ?_, ?_⟩
    · exact .inr ⟨⟨x, member, off⟩, rfl⟩
    · exact ⟨f, xs, holds, order, rfl⟩

section Taking

variable {x : α} (inside : k < xs.length)
include inside

open Classical in
omit [Inhabited α] in
theorem coe_eraseIdx : ((xs.eraseIdx k : List α) : Multiset α) =
    (xs : Multiset α).erase xs[k] := by
  have split := List.getElem_cons_eraseIdx_perm inside
  rw [← Multiset.coe_eq_coe.mpr split, ← Multiset.cons_coe, Multiset.erase_cons_head]

open Classical in
omit [Inhabited α] in
theorem coe_set (obj : α) : ((xs.set k obj : List α) : Multiset α) =
    (xs : Multiset α).erase xs[k] + {obj} := by
  rw [← coe_eraseIdx inside, ← coe_brought, Multiset.coe_eq_coe]
  exact List.set_perm_cons_eraseIdx inside obj

end Taking

omit [Inhabited α] in
theorem removed_eq (holds : Holds es f xs) (obj : α) :
    removed r es obj = (xs.findIdx? (r.equals obj)).bind (xs[·]?) := by
  unfold removed
  rw [holds.find_raw]
  cases found : xs.findIdx? (r.equals obj) with
  | none => rfl
  | some k =>
    obtain ⟨inside, _⟩ := List.findIdx?_eq_some_iff_getElem.mp found
    have here : xs[k]? = some xs[k] := List.getElem?_eq_getElem inside
    exact (Holds.reads holds here).trans here.symm

theorem Keeps.step_remove (keeps : Keeps r es m) (obj : α) :
    Step (implementation r) (Keeps r) es m (.remove obj) := by
  obtain ⟨f, xs, holds, order, rfl⟩ := keeps
  have takes := removed_eq holds (r := r) obj
  rcases holds.remove r.equals obj with ⟨found, run⟩ | ⟨k, es', found, run, after⟩
  · refine ⟨es, ⟨.nothing, none⟩, by simp [implementation, perform, run], ?_, ?_⟩
    · right
      refine ⟨fun x member => ?_, rfl⟩
      have differs := List.findIdx?_eq_none_iff.mp found x member
      cases equal : r.equals x obj with
      | false => rfl
      | true => simp [r.symm _ _ equal] at differs
    · exact ⟨f, xs, holds, order, rfl⟩
  · obtain ⟨inside, equal, _⟩ := List.findIdx?_eq_some_iff_getElem.mp found
    have taken : removed r es obj = some xs[k] := by
      simp [takes, found, inside]
    refine ⟨es', ⟨.object obj, some xs[k]⟩, by simp [implementation, perform, run, taken], ?_, ?_⟩
    · exact .inl ⟨xs[k], List.getElem_mem inside, r.symm _ _ equal, rfl⟩
    · refine ⟨f, _, after, order.sublist (List.eraseIdx_sublist ..), ?_⟩
      simp [implementation, Op.after, Op.brings, coe_eraseIdx inside]

theorem Keeps.step_replace (keeps : Keeps r es m) (obj : α) :
    Step (implementation r) (Keeps r) es m (.replaceNextLargerWith obj) := by
  obtain ⟨f, xs, holds, order, rfl⟩ := keeps
  obtain ⟨k, place, cut⟩ := indexForInserting_cuts holds order obj
  have size := holds.size
  rcases Nat.lt_or_ge k xs.length with inside | behind
  · have here : xs[k]? = some xs[k] := List.getElem?_eq_getElem inside
    have larger := cut.back k _ (Nat.le_refl k) here
    have differs : r.equals xs[k] obj = false := by
      cases equal : r.equals xs[k] obj with
      | false => rfl
      | true => simp [r.alike _ _ equal] at larger
    have reads : es.at? (k : Int) = some xs[k] := (holds.at? k).trans here
    obtain ⟨es', puts, after⟩ := holds.atPut inside obj
    have run : replaceNextLargerWith r es obj = some (es', ⟨.index k, some xs[k]⟩) := by
      have not_last : ¬ (k : Int) > es.size - 1 := by omega
      simp only [ExtensibleArray.atPut, Option.bind_eq_bind, Option.bind_eq_some_iff] at puts
      obtain ⟨contents, stores, same⟩ := puts
      cases same
      rw [Int.add_comm] at stores
      simp only [replaceNextLargerWith, place, Option.bind_eq_bind, Option.bind_some]
      rw [if_neg not_last]
      simp [replaceAt, reads, differs, stores]
    refine ⟨es', ⟨.index k, some xs[k]⟩, run, ?_, ?_⟩
    · left
      refine ⟨xs[k], List.getElem_mem inside, larger, ?_, ?_⟩
      · intro y member later
        obtain ⟨i, there⟩ := List.mem_iff_getElem?.mp member
        apply pairwise_at order _ here there
        apply Nat.le_of_not_lt
        intro before
        simp [cut.front i y before there] at later
      · simp only [Multiset.coe_countP, Bool.decide_eq_true, cut.count]
    · exact ⟨f, _, after, cut.replace order here, coe_set inside obj⟩
  · have all : ∀ x ∈ xs, r.before x obj = true := by
      intro x member
      obtain ⟨i, there⟩ := List.mem_iff_getElem?.mp member
      have within := (List.getElem?_eq_some_iff.mp there).1
      exact cut.front i x (by omega) there
    rcases addLast_cases holds order obj with ⟨es', f', run, added, _⟩ | ⟨_, x, member, off⟩
    · have length := added.size
      simp only [List.length_append, List.length_singleton] at length
      have last : es'.size - 1 = (xs.length : Int) := by omega
      have beyond : (k : Int) > es.size - 1 := by omega
      refine ⟨es', ⟨.index xs.length, none⟩, ?_, .inr ⟨all, rfl⟩, f', _, added,
        append_order order all, rfl⟩
      simp only [implementation, perform, replaceNextLargerWith, place, Option.bind_eq_bind,
        Option.bind_some]
      rw [if_pos beyond, run]
      simp [appended, last]
    · simp [all x member] at off

theorem Keeps.step (keeps : Keeps r es m) (op : Op α) :
    Step (implementation r) (Keeps r) es m op := by
  cases op with
  | add obj =>
    obtain ⟨es', run, kept⟩ := keeps.add obj
    exact ⟨es', ⟨.object obj, none⟩, by simp [implementation, perform, run], rfl, kept⟩
  | addAll col =>
    obtain ⟨es', run, kept⟩ := keeps.addAll col
    exact ⟨es', ⟨.objects col, none⟩, by simp [implementation, perform, run], rfl, kept⟩
  | addFirst obj => exact keeps.step_addFirst obj
  | addLast obj => exact keeps.step_addLast obj
  | remove obj => exact keeps.step_remove obj
  | replaceNextLargerWith obj => exact keeps.step_replace obj

end SlateVm.Collections.SortedArray
