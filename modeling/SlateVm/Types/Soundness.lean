import Mathlib.Data.List.Perm.Subperm
import SlateVm.Types.Lattice

/-! Which operations on types are right about the objects of the types. -/
namespace SlateVm.Types

variable {O : Type} {m : Objects O}

namespace Elements

theorem includes_iff {es : Elements m} {o : O} :
    es.includes o = true ↔ ∃ e ∈ es.toList, m.equals e o = true := by
  simp only [includes, List.any_eq_true]

theorem includes_of_equal {es : Elements m} {o p : O} (equal : m.equals o p = true)
    (included : es.includes o = true) : es.includes p = true := by
  obtain ⟨e, member, same⟩ := includes_iff.1 included
  exact includes_iff.2 ⟨e, member, m.trans e o p same equal⟩

theorem includes_eq_of_equals {es fs : Elements m} (equal : es.equals fs = true) (o : O) :
    es.includes o = true ↔ fs.includes o = true := by
  simp only [Elements.equals, List.all_eq_true, Bool.decide_and,
    Bool.and_eq_true, decide_eq_true_eq] at equal
  obtain ⟨sameLength, within⟩ := equal
  constructor
  · intro included
    obtain ⟨e, member, same⟩ := includes_iff.1 included
    exact includes_of_equal same (within e member)
  · intro included
    obtain ⟨f, member, same⟩ := includes_iff.1 included
    apply includes_of_equal same
    -- No two elements are of one class, so the classes of the one set are those of the other.
    let classes : Setoid O :=
      ⟨fun a b => m.equals a b = true, fun a => m.refl a, fun h => m.symm _ _ h,
        fun h h' => m.trans _ _ _ h h'⟩
    have nodup : (es.toList.map (Quotient.mk classes)).Nodup := by
      apply List.pairwise_map.2
      refine es.distinct.imp fun apart same => ?_
      have equal : m.equals _ _ = true := Quotient.exact same
      rw [apart] at equal
      exact Bool.false_ne_true equal
    have subset : es.toList.map (Quotient.mk classes) ⊆ fs.toList.map (Quotient.mk classes) := by
      intro c inClass
      obtain ⟨e, isElement, rfl⟩ := List.mem_map.1 inClass
      obtain ⟨g, isOther, equal⟩ := includes_iff.1 (within e isElement)
      exact List.mem_map.2 ⟨g, isOther, Quotient.sound equal⟩
    have perm := (List.subperm_of_subset nodup subset).perm_of_length_le
      (by simp only [List.length_map, sameLength, Nat.le_refl])
    have inClass := perm.mem_iff.2 (List.mem_map_of_mem member)
    obtain ⟨e, isElement, equal⟩ := List.mem_map.1 inClass
    exact includes_iff.2 ⟨e, isElement, Quotient.exact equal⟩

theorem includes_copyWith {es : Elements m} {o p : O} :
    (es.copyWith o).includes p = true ↔ es.includes p = true ∨ m.equals o p = true := by
  rw [copyWith]
  split
  · simp only [includes, List.any_append, List.any_cons, List.any_nil, Bool.or_false,
      Bool.or_eq_true]
  · next included =>
    rw [Bool.not_eq_false] at included
    constructor
    · exact Or.inl
    · rintro (there | equal)
      · exact there
      · exact includes_of_equal equal included

theorem includes_foldl {es : Elements m} {objs : List O} {p : O} :
    (objs.foldl copyWith es).includes p = true ↔
      es.includes p = true ∨ ∃ o ∈ objs, m.equals o p = true := by
  induction objs generalizing es with
  | nil => simp only [List.foldl_nil, List.not_mem_nil, false_and, exists_false, or_false]
  | cons o objs ih =>
    rw [List.foldl_cons, ih, includes_copyWith, or_assoc]
    simp only [List.mem_cons, or_and_right, exists_or, exists_eq_left]

theorem includes_of {objs : List O} {p : O} :
    (of objs : Elements m).includes p = true ↔ ∃ o ∈ objs, m.equals o p = true := by
  rw [of, includes_foldl]
  simp only [includes, List.any_nil, Bool.false_eq_true, false_or]

theorem includes_union {es fs : Elements m} {p : O} :
    (es.union fs).includes p = true ↔ es.includes p = true ∨ fs.includes p = true := by
  rw [union, includes_foldl, ← includes_iff]

theorem includes_intersection {es fs : Elements m} {p : O} :
    (es.intersection fs).includes p = true ↔ es.includes p = true ∧ fs.includes p = true := by
  constructor
  · intro included
    obtain ⟨e, kept, same⟩ := includes_iff.1 included
    obtain ⟨member, within⟩ := List.mem_filter.1 kept
    exact ⟨includes_iff.2 ⟨e, member, same⟩, includes_of_equal same within⟩
  · rintro ⟨included, within⟩
    obtain ⟨e, member, same⟩ := includes_iff.1 included
    have kept := List.mem_filter.2 ⟨member, includes_of_equal (m.symm e p same) within⟩
    exact includes_iff.2 ⟨e, kept, same⟩

end Elements

namespace Ty

attribute [local simp] Contains AnyContains AllContain

theorem anyContains_iff {args : List (Ty m)} {o : O} :
    AnyContains args o ↔ ∃ a ∈ args, a.Contains o := by
  induction args with
  | nil => simp only [AnyContains, List.not_mem_nil, false_and, exists_false]
  | cons a args ih => simp only [AnyContains, ih, List.mem_cons, or_and_right, exists_or,
      exists_eq_left]

theorem allContain_iff {args : List (Ty m)} {o : O} :
    AllContain args o ↔ ∀ a ∈ args, a.Contains o := by
  induction args with
  | nil => simp only [AllContain, List.not_mem_nil, false_imp_iff, implies_true]
  | cons a args ih => simp only [AllContain, ih, List.forall_mem_cons]

theorem isAny_iff {x : Ty m} : x.isAny = true ↔ x = any := by
  cases x <;> simp [isAny]

theorem isNone_iff {x : Ty m} : x.isNone = true ↔ x = none := by
  cases x <;> simp [isNone]

theorem contains_unionAny {x y : Ty m} {o : O} (either : x.Contains o ∨ y.Contains o) :
    (x.unionAny y).Contains o := by
  rw [unionAny]
  split
  · exact trivial
  · simp only [Contains, AnyContains, or_false]
    exact either

theorem contains_intersectionAny {x y : Ty m} {o : O} :
    (x.intersectionAny y).Contains o ↔ x.Contains o ∧ y.Contains o := by
  rw [intersectionAny]
  split
  · next isAny =>
    rw [isAny_iff.1 isAny]
    simp only [Contains, true_and]
  · split
    · next isAny =>
      rw [isAny_iff.1 isAny]
      simp only [Contains, and_true]
    · simp only [Contains, AllContain, and_true]

variable [DecidableEq O]

mutual

theorem eq_of_identical : ∀ {x y : Ty m}, x.identical y = true → x = y
  | any, y, same => by cases y <;> first | rfl | cases same
  | none, y, same => by cases y <;> first | rfl | cases same
  | not a, y, same => by
    cases y with
    | not b =>
      simp only [identical] at same
      rw [eq_of_identical same]
    | _ => cases same
  | union i as, y, same => by
    cases y with
    | union j bs =>
      simp only [identical, decide_eq_true_eq] at same
      rw [same.1, eq_of_allIdentical same.2]
    | _ => cases same
  | intersection i as, y, same => by
    cases y with
    | intersection j bs =>
      simp only [identical, decide_eq_true_eq] at same
      rw [same.1, eq_of_allIdentical same.2]
    | _ => cases same
  | clone p, y, same => by
    cases y with
    | clone q =>
      simp only [identical, decide_eq_true_eq] at same
      rw [same]
    | _ => cases same
  | range t s e, y, same => by
    cases y with
    | range t' s' e' =>
      simp only [identical, decide_eq_true_eq] at same
      rw [eq_of_identical same.1, same.2.1, same.2.2]
    | _ => cases same
  | member ⟨es, _⟩, y, same => by
    cases y with
    | member fs =>
      rcases fs with ⟨fs, _⟩
      simp only [identical, decide_eq_true_eq] at same
      subst same
      rfl
    | _ => cases same
  | singleton a, y, same => by
    cases y with
    | singleton b =>
      simp only [identical, decide_eq_true_eq] at same
      rw [same]
    | _ => cases same
  | array t, y, same => by
    cases y with
    | array t' =>
      simp only [identical] at same
      rw [eq_of_identical same]
    | _ => cases same

theorem eq_of_allIdentical : ∀ {as bs : List (Ty m)}, allIdentical as bs = true → as = bs
  | [], bs, same => by
    cases bs with
    | nil => rfl
    | cons b bs => cases same
  | a :: as, bs, same => by
    cases bs with
    | nil => cases same
    | cons b bs =>
      simp only [allIdentical, decide_eq_true_eq] at same
      rw [eq_of_identical same.1, eq_of_allIdentical same.2]

end

theorem contains_of_equals {x y : Ty m} (equal : x.equals y = true) (o : O) :
    x.Contains o ↔ y.Contains o := by
  induction x, y using equals.induct generalizing o with
  | case1 => rfl
  | case2 => rfl
  | case3 a b ih =>
    simp only [equals] at equal
    simp only [Contains, ih equal o]
  | case4 i as j bs => rw [eq_of_identical equal]
  | case5 i as j bs => rw [eq_of_identical equal]
  | case6 p q =>
    simp only [equals, decide_eq_true_eq] at equal
    rw [equal]
  | case7 t s e t' s' e' ih =>
    simp only [equals, decide_eq_true_eq] at equal
    simp only [Contains, ih equal.1 o, m.less_right s s' o equal.2.1,
      m.less_left e e' o equal.2.2]
  | case8 es fs => exact Elements.includes_eq_of_equals equal o
  | case9 a b =>
    simp only [equals, decide_eq_true_eq] at equal
    rw [equal]
  | case10 t t' ih =>
    simp only [equals] at equal
    simp only [Contains, ih equal]
  | case11 x y => simp_all only [equals, Bool.false_eq_true]

end Ty

end SlateVm.Types
