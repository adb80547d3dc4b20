import SlateVm.Types.Soundness

/-! When `union:`, `intersection:` and `subsumes:` are right. -/
namespace SlateVm.Types.Ty

variable {O : Type} {m : Objects O}

attribute [local simp] unionSingleton unionWith intersectionSingleton intersectionWith subsumes


theorem within_least {s s' start o : O} (answered : least m s s' = some start)
    (within : m.less o s = some false ∨ m.less o s' = some false) :
    m.less o start = some false := by
  simp only [least, Option.bind_eq_bind, Option.bind_eq_some_iff, Option.some.injEq] at answered
  obtain ⟨isLess, compared, rfl⟩ := answered
  cases isLess with
  | true => exact within.elim id fun above => m.less_trans _ _ _ above (m.less_asymm _ _ compared)
  | false => exact within.elim (fun above => m.less_trans _ _ _ above compared) id

theorem within_greatest {e e' finish o : O} (answered : greatest m e e' = some finish)
    (within : m.less e o = some false ∨ m.less e' o = some false) :
    m.less finish o = some false := by
  simp only [greatest, Option.bind_eq_bind, Option.bind_eq_some_iff, Option.some.injEq] at answered
  obtain ⟨isLess, compared, rfl⟩ := answered
  cases isLess with
  | true => exact within.elim id fun below => m.less_trans _ _ _ (m.less_asymm _ _ compared) below
  | false => exact within.elim (fun below => m.less_trans _ _ _ compared below) id

theorem anyOne_isSome {es : Elements m} : es.anyOne.isSome = true ↔ es.toList ≠ [] := by
  rw [Elements.anyOne]
  cases es.toList <;> simp

@[simp] theorem isNone_none : (none : Ty m).isNone = true := rfl

@[simp] theorem isNone_array {t : Ty m} : (array t).isNone = false := rfl

@[simp] theorem isNone_range {t : Ty m} {s e : O} : (range t s e).isNone = false := rfl

theorem not_contains_of_isNone {x : Ty m} (isNone : x.isNone = true) (o : O) : ¬ x.Contains o := by
  rw [isNone_iff.1 isNone]
  exact id

variable [DecidableEq O]

section Conditions

def ApartFrom : Ty m → O → Prop
  | none, _ => True
  | not a, o => a.equals (singleton o) = true
  | member es, o => es.includes o = false
  | clone p, o => m.isSameAs p o = false
  | singleton a, o => a ≠ o
  | _, _ => False

def Apart : Ty m → Ty m → Prop
  | x, singleton o => x.ApartFrom o
  | singleton o, y => y.ApartFrom o
  | none, _ => True
  | not a, y => a.equals y = true
  | range t s e, range t' s' e' => t.Apart t' ∨ ∃ start finish,
    least m s s' = some start ∧ greatest m e e' = some finish ∧ m.less finish start = some true
  | member es, member fs =>
    ∀ e f, es.anyOne = some e → fs.anyOne = some f → m.isSameAs e f = false
  | array t, array t' => t.Apart t'
  | any, none => True
  | _, _ => False

/-- The bounds can be compared, and an object of both base types that lies between the outer bounds
lies between the inner ones. -/
def SameBounds (t t' : Ty m) (s e s' e' : O) : Prop :=
  ∃ start finish, least m s s' = some start ∧ greatest m e e' = some finish ∧
    (m.less finish start).isSome ∧
    ∀ o, t.Contains o → t'.Contains o →
      m.less o start = some false → m.less finish o = some false →
      (m.less o s = some false ∧ m.less e o = some false) ∧
        m.less o s' = some false ∧ m.less e' o = some false

def MeetsRight : Ty m → Ty m → Prop
  | intersection _ _, intersection _ _ => False
  | range t s e, range t' s' e' =>
    t.MeetsRight t' ∧ (t.Apart t' ∨ SameBounds t t' s e s' e')
  | member es, member fs => ∃ e f, es.anyOne = some e ∧ fs.anyOne = some f ∧
    (m.isSameAs e f = true ∨ ∀ o, ¬ (es.includes o = true ∧ fs.includes o = true))
  | array t, array t' => t.MeetsRight t' ∧ ¬ t.Apart t'
  | _, _ => True

def UnionAnswers : Ty m → Ty m → Prop
  | range t s e, range t' s' e' =>
    t.UnionAnswers t' ∧ (m.less s s').isSome ∧ (m.less e' e).isSome
  | member es, member fs => es.toList ≠ [] ∧ fs.toList ≠ []
  | member es, singleton _ => es.toList ≠ []
  | singleton _, member es => es.toList ≠ []
  | singleton a, singleton b => a = b ∨ m.isSameAs a b = true
  | array t, array t' => t.UnionAnswers t'
  | _, _ => True

mutual

def OrdersRight : Ty m → Ty m → Prop
  | union _ args, y => AllOrderRight args y
  | intersection _ args, y => AllOrderRight args y
  | x, y => x.MeetsRight y

def AllOrderRight : List (Ty m) → Ty m → Prop
  | [], _ => True
  | a :: args, y => a.OrdersRight y ∧ AllOrderRight args y

end

end Conditions

section Union

attribute [local simp] OrdersRight MeetsRight ApartFrom Apart UnionAnswers

theorem contains_unionSingleton {x r : Ty m} {o p : O} (answered : x.unionSingleton o = some r)
    (either : x.Contains p ∨ p = o) : r.Contains p := by
  cases x with
  | none =>
    cases answered
    exact either.resolve_left id
  | not a =>
    simp only [unionSingleton, Option.some.injEq] at answered
    subst answered
    split
    · trivial
    · exact contains_unionAny either
  | union i args =>
    cases answered
    simp only [Contains, anyContains_iff, List.mem_append, List.mem_singleton] at either ⊢
    rcases either with ⟨a, member, within⟩ | same
    · exact ⟨a, Or.inl member, within⟩
    · exact ⟨_, Or.inr rfl, same⟩
  | member es =>
    simp only [unionSingleton] at answered
    split at answered
    · next included =>
      cases answered
      rcases either with within | rfl
      · exact within
      · exact included
    · simp only [Option.bind_eq_bind, Option.bind_eq_some_iff] at answered
      obtain ⟨e, _, answered⟩ := answered
      split at answered
      · cases answered
        apply Elements.includes_copyWith.2
        rcases either with within | rfl
        · exact Or.inl within
        · exact Or.inr (m.refl _)
      · cases answered
        exact contains_unionAny either
  | clone q =>
    simp only [unionSingleton, Option.some.injEq] at answered
    subst answered
    split
    · next same =>
      rcases either with within | rfl
      · exact within
      · exact same
    · exact contains_unionAny either
  | singleton a =>
    simp only [unionSingleton] at answered
    split at answered
    · next same =>
      cases answered
      subst same
      exact either.elim id id
    · split at answered
      · cases answered
        apply Elements.includes_of.2
        rcases either with rfl | rfl
        · exact ⟨_, List.mem_cons_self, m.refl _⟩
        · exact ⟨_, List.mem_cons_of_mem _ List.mem_cons_self, m.refl _⟩
      · cases answered
  | any | intersection | range | array =>
    cases answered
    exact contains_unionAny either

theorem contains_unionWith {x y r : Ty m} {o : O} (answered : x.unionWith y = some r)
    (either : x.Contains o ∨ y.Contains o) : r.Contains o := by
  induction x, y using unionWith.induct generalizing r o with
  | case1 x a =>
    rw [unionWith] at answered
    exact contains_unionSingleton answered either
  | case2 a y other =>
    rw [unionWith] at answered
    · exact contains_unionSingleton answered either.symm
    · exact other
  | case3 y other =>
    rw [unionWith] at answered
    · cases answered
      exact either.resolve_left id
    · exact other
  | case4 a y other =>
    rw [unionWith] at answered
    · cases answered
      split
      · trivial
      · exact contains_unionAny either
    · exact other
  | case5 i args j args' =>
    cases answered
    simp only [Contains, anyContains_iff, List.mem_append, or_and_right, exists_or] at either ⊢
    exact either
  | case6 i args y other notUnion =>
    rw [unionWith] at answered
    · cases answered
      simp only [Contains, anyContains_iff, List.mem_append, List.mem_singleton, or_and_right,
        exists_or, exists_eq_left] at either ⊢
      exact either
    · exact other
    · exact notUnion
  | case7 t s e t' s' e' ih =>
    simp only [unionWith, Option.bind_eq_bind, Option.bind_eq_some_iff, Option.some.injEq]
      at answered
    obtain ⟨type, base, start, least, finish, greatest, rfl⟩ := answered
    rcases either with ⟨within, above, below⟩ | ⟨within, above, below⟩
    · exact ⟨ih base (Or.inl within), within_least least (Or.inl above),
        within_greatest greatest (Or.inl below)⟩
    · exact ⟨ih base (Or.inr within), within_least least (Or.inr above),
        within_greatest greatest (Or.inr below)⟩
  | case8 es fs =>
    simp only [unionWith, Option.bind_eq_bind, Option.bind_eq_some_iff, Option.some.injEq]
      at answered
    obtain ⟨e, _, f, _, rfl⟩ := answered
    split
    · exact Elements.includes_union.2 either
    · exact contains_unionAny either
  | case9 t t' ih =>
    simp only [unionWith, Option.bind_eq_bind, Option.bind_eq_some_iff, Option.some.injEq]
      at answered
    obtain ⟨type, base, rfl⟩ := answered
    rcases either with ⟨es, isArray, within⟩ | ⟨es, isArray, within⟩
    · exact ⟨es, isArray, fun e member => ih base (Or.inl (within e member))⟩
    · exact ⟨es, isArray, fun e member => ih base (Or.inr (within e member))⟩
  | case10 x y =>
    rw [unionWith] at answered
    · cases answered
      exact contains_unionAny either
    all_goals assumption

theorem unionSingleton_answers {x : Ty m} {o : O} :
    (x.unionSingleton o).isSome = true ↔ x.UnionAnswers (singleton o) := by
  cases x with
  | member es =>
    simp only [unionSingleton, UnionAnswers, ← anyOne_isSome]
    split
    · next included =>
      obtain ⟨e, member, _⟩ := Elements.includes_iff.1 included
      simp only [Option.isSome_some, anyOne_isSome, true_iff]
      exact List.ne_nil_of_mem member
    · cases es.anyOne with
      | none => simp
      | some e =>
        simp only [Option.bind_eq_bind, Option.bind_some, Option.isSome_some, iff_true]
        split <;> rfl
  | singleton a =>
    simp only [unionSingleton, UnionAnswers]
    split
    · simp [*]
    · split <;> simp [*]
  | any | none | not | union | intersection | clone | range | array =>
    simp [unionSingleton, UnionAnswers]

theorem unionWith_answers {x y : Ty m} : (x.unionWith y).isSome = true ↔ x.UnionAnswers y := by
  induction x, y using unionWith.induct with
  | case1 x a =>
    rw [unionWith]
    exact unionSingleton_answers
  | case2 a y other =>
    rw [unionWith, unionSingleton_answers]
    · cases y <;> simp_all [UnionAnswers]
    · exact other
  | case3 y other =>
    rw [unionWith]
    · simp [UnionAnswers]
    · exact other
  | case4 a y other =>
    rw [unionWith]
    · simp [UnionAnswers]
    · exact other
  | case5 i args j args' => simp [unionWith, UnionAnswers]
  | case6 i args y other notUnion =>
    rw [unionWith]
    · simp [UnionAnswers]
    · exact other
    · exact notUnion
  | case7 t s e t' s' e' ih =>
    simp only [unionWith, UnionAnswers, ← ih, least, greatest]
    cases t.unionWith t' <;> cases m.less s s' <;> cases m.less e' e <;> simp
  | case8 es fs =>
    simp only [unionWith, UnionAnswers, ← anyOne_isSome]
    cases es.anyOne <;> cases fs.anyOne <;> simp
  | case9 t t' ih =>
    simp only [unionWith, UnionAnswers, ← ih]
    cases t.unionWith t' <;> simp
  | case10 x y right left =>
    rw [unionWith, UnionAnswers]
    · simp only [Option.isSome_some]
    · assumption
    · assumption
    · intro _ o _ isSingleton
      exact right o isSingleton
    · intro o _ isSingleton _
      exact left o isSingleton
    · intro o _ isSingleton _
      exact left o isSingleton
    all_goals assumption

end Union

section Intersection

theorem contains_intersectionSingleton {x : Ty m} {o p : O} :
    (x.intersectionSingleton o).Contains p ↔ x.Contains p ∧ p = o := by
  cases x with
  | none => simp only [intersectionSingleton, Contains, false_and]
  | not a =>
    simp only [intersectionSingleton]
    split
    · next equal =>
      have same := contains_of_equals equal p
      simp only [Contains] at same ⊢
      tauto
    · exact contains_intersectionAny
  | intersection i args =>
    simp only [intersectionSingleton, Contains, allContain_iff, List.forall_mem_append,
      List.forall_mem_singleton]
  | member es =>
    simp only [intersectionSingleton]
    split
    · next included =>
      simp only [Contains, iff_and_self]
      rintro rfl
      exact included
    · next absent =>
      simp only [Contains, false_iff, not_and]
      rintro included rfl
      exact absent included
  | clone q =>
    simp only [intersectionSingleton]
    split
    · next same =>
      simp only [Contains, iff_and_self]
      rintro rfl
      exact same
    · next other =>
      simp only [Contains, false_iff, not_and]
      rintro same rfl
      exact other same
  | singleton a =>
    simp only [intersectionSingleton]
    split
    · next same =>
      subst same
      simp only [Contains, and_self]
    · next other =>
      simp only [Contains, false_iff, not_and]
      rintro rfl same
      exact other same
  | any | union | range | array => exact contains_intersectionAny

theorem isNone_intersectionSingleton {x : Ty m} {o : O} :
    (x.intersectionSingleton o).isNone = true ↔ x.ApartFrom o := by
  cases x with
  | not a =>
    simp only [intersectionSingleton, ApartFrom]
    split <;> simp [*, intersectionAny, isNone, isAny]
  | member es =>
    simp only [intersectionSingleton, ApartFrom]
    split <;> simp [*, isNone]
  | clone q =>
    simp only [intersectionSingleton, ApartFrom]
    split <;> simp [*, isNone]
  | singleton a =>
    simp only [intersectionSingleton, ApartFrom]
    split <;> simp [*, isNone]
  | any | none | union | intersection | range | array =>
    simp [intersectionSingleton, ApartFrom, intersectionAny, isNone, isAny]

theorem isNone_intersectionWith {x y r : Ty m} (answered : x.intersectionWith y = some r) :
    r.isNone = true ↔ x.Apart y := by
  induction x, y using intersectionWith.induct generalizing r with
  | case1 x a =>
    rw [intersectionWith] at answered
    cases answered
    rw [Apart]
    exact isNone_intersectionSingleton
  | case2 a y other =>
    rw [intersectionWith] at answered
    · cases answered
      rw [Apart]
      · exact isNone_intersectionSingleton
      · exact other
    · exact other
  | case3 y other =>
    rw [intersectionWith] at answered
    · cases answered
      rw [Apart]
      · simp only [isNone]
      · exact other
    · exact other
  | case4 a y other =>
    rw [intersectionWith] at answered
    · cases answered
      rw [Apart]
      · split
        · next equal => simp only [isNone, equal]
        · next unequal =>
          simp only [unequal, intersectionAny, isAny, Bool.false_eq_true, if_false, iff_false]
          split <;> simp [isNone]
      · exact other
    · exact other
  | case5 i args j args' => cases answered
  | case6 i args y other notIntersection =>
    rw [intersectionWith] at answered
    · cases answered
      simp only [isNone, Bool.false_eq_true, false_iff]
      cases y <;> simp_all [Apart]
    · exact other
    · exact notIntersection
  | case7 t s e t' s' e' ih =>
    simp only [intersectionWith, Option.bind_eq_bind, Option.bind_eq_some_iff] at answered
    obtain ⟨type, base, answered⟩ := answered
    rw [Apart, ← ih base]
    rw [rangeIntersection] at answered
    split at answered
    · next noneLeft =>
      cases answered
      simp only [isNone_none, noneLeft, true_or]
    · next notNone =>
      simp only [Option.bind_eq_bind, Option.bind_eq_some_iff, Option.some.injEq] at answered
      obtain ⟨start, least, finish, greatest, isLess, compared, rfl⟩ := answered
      simp only [notNone, least, greatest, Option.some.injEq, exists_and_left, exists_eq_left',
        compared]
      cases isLess <;> simp
  | case8 es fs =>
    simp only [intersectionWith, Option.bind_eq_bind, Option.bind_eq_some_iff, Option.some.injEq]
      at answered
    obtain ⟨e, some, f, some', rfl⟩ := answered
    simp only [Apart, some, some', Option.some.injEq]
    split <;> simp [*, isNone]
  | case9 t t' ih =>
    simp only [intersectionWith, Option.bind_eq_bind, Option.bind_eq_some_iff, Option.some.injEq]
      at answered
    obtain ⟨type, base, rfl⟩ := answered
    rw [Apart, ← ih base]
    split <;> simp [*]
  | case10 x y right left _ _ _ _ ranges members arrays =>
    rw [intersectionWith] at answered
    · cases answered
      cases x with
      | range t s e =>
        cases y with
        | range t' s' e' => exact (ranges t s e t' s' e' rfl rfl).elim
        | _ => simp_all [Apart, intersectionAny, isNone, isAny]
      | member es =>
        cases y with
        | member fs => exact (members es fs rfl rfl).elim
        | singleton o => exact (right o rfl).elim
        | _ => simp_all [Apart, intersectionAny, isNone, isAny]
      | array t =>
        cases y with
        | array t' => exact (arrays t t' rfl rfl).elim
        | _ => simp_all [Apart, intersectionAny, isNone, isAny]
      | _ => cases y <;> simp_all [Apart, intersectionAny, isNone, isAny]
    all_goals assumption

def Meets (x y : Ty m) : Prop :=
  ∃ r, x.intersectionWith y = some r ∧ ∀ o, r.Contains o ↔ x.Contains o ∧ y.Contains o

/-- The intersections that `intersection:` asks for are right. -/
def PartsMeet : Ty m → Ty m → Prop
  | range t _ _, range t' _ _ => t.MeetsRight t'
  | array t, array t' => t.MeetsRight t'
  | _, _ => True

theorem MeetsRight.parts {x y : Ty m} (right : x.MeetsRight y) : x.PartsMeet y := by
  cases x with
  | range t s e =>
    cases y with
    | range t' s' e' =>
      rw [MeetsRight] at right
      exact right.1
    | _ => trivial
  | array t =>
    cases y with
    | array t' =>
      rw [MeetsRight] at right
      exact right.1
    | _ => trivial
  | _ => trivial

theorem meets_range_iff {t t' type : Ty m} {s e s' e' : O}
    (base : t.intersectionWith t' = some type)
    (exact : ∀ o, type.Contains o ↔ t.Contains o ∧ t'.Contains o) :
    (range t s e).Meets (range t' s' e') ↔ t.Apart t' ∨ SameBounds t t' s e s' e' := by
  have apart := isNone_intersectionWith base
  have answer : (range t s e).intersectionWith (range t' s' e') =
      rangeIntersection type s e s' e' := by
    rw [intersectionWith, base]
    rfl
  simp only [Meets, answer, ← apart, rangeIntersection]
  by_cases isNone : type.isNone = true
  · simp only [isNone, if_true, Option.some.injEq, exists_eq_left', true_or, iff_true]
    intro o
    have empty := not_contains_of_isNone isNone o
    rw [exact] at empty
    simp only [Contains]
    tauto
  · simp only [isNone, Bool.false_eq_true, if_false, false_or, SameBounds,
      Option.bind_eq_bind, Option.bind_eq_some_iff,
      Option.some.injEq]
    constructor
    · rintro ⟨r, ⟨start, least, finish, greatest, isLess, compared, rfl⟩, right⟩
      refine ⟨start, finish, least, greatest, by rw [compared, Option.isSome_some], ?_⟩
      intro o within within' above below
      have contained : (range type start finish).Contains o :=
        ⟨(exact o).2 ⟨within, within'⟩, above, below⟩
      cases isLess with
      | true =>
        have reverse := m.less_trans _ _ _ below above
        rw [compared] at reverse
        cases reverse
      | false =>
        obtain ⟨left, right⟩ := (right o).1 contained
        exact ⟨left.2, right.2⟩
    · rintro ⟨start, finish, least, greatest, compared, bounds⟩
      obtain ⟨isLess, compared⟩ := Option.isSome_iff_exists.1 compared
      refine ⟨_, ⟨start, least, finish, greatest, isLess, compared, rfl⟩, fun o => ?_⟩
      have hull : (range t s e).Contains o ∧ (range t' s' e').Contains o ↔
          (range type start finish).Contains o := by
        simp only [Contains, exact]
        constructor
        · rintro ⟨⟨within, above, below⟩, within', _, _⟩
          exact ⟨⟨within, within'⟩, within_least least (Or.inl above),
            within_greatest greatest (Or.inl below)⟩
        · rintro ⟨⟨within, within'⟩, above, below⟩
          obtain ⟨left, right⟩ := bounds o within within' above below
          exact ⟨⟨within, left⟩, within', right⟩
      rw [hull]
      cases isLess with
      | true =>
        simp only [if_true, Contains, false_iff, not_and]
        intro _ above below
        have reverse := m.less_trans _ _ _ below above
        rw [compared] at reverse
        cases reverse
      | false => rfl

theorem meets_array_iff {t t' type : Ty m} (base : t.intersectionWith t' = some type)
    (exact : ∀ o, type.Contains o ↔ t.Contains o ∧ t'.Contains o) :
    (array t).Meets (array t') ↔ ¬ t.Apart t' := by
  have apart := isNone_intersectionWith base
  have answer : (array t).intersectionWith (array t') =
      some (if type.isNone then none else array type) := by
    rw [intersectionWith, base]
    rfl
  simp only [Meets, answer, ← apart, Option.some.injEq, exists_eq_left']
  by_cases isNone : type.isNone = true
  · -- The array without elements is in both types.
    simp only [isNone, if_true, not_true, iff_false, not_forall]
    refine ⟨m.empty, ?_⟩
    have within : ∀ t : Ty m, (array t).Contains m.empty := fun t =>
      ⟨[], m.elements_empty, fun e member => absurd member List.not_mem_nil⟩
    simp only [within, and_self, iff_true]
    exact id
  · simp only [isNone, Bool.false_eq_true, if_false, Contains, exact, not_false_eq_true, iff_true]
    intro o
    constructor
    · rintro ⟨es, isArray, within⟩
      exact ⟨⟨es, isArray, fun e member => (within e member).1⟩,
        ⟨es, isArray, fun e member => (within e member).2⟩⟩
    · rintro ⟨⟨es, isArray, within⟩, es', isArray', within'⟩
      rw [isArray] at isArray'
      cases isArray'
      exact ⟨es, isArray, fun e member => ⟨within e member, within' e member⟩⟩

theorem meets_member_iff {es fs : Elements m} :
    (member es).Meets (member fs) ↔ (member es).MeetsRight (member fs) := by
  simp only [Meets, intersectionWith, MeetsRight, Option.bind_eq_bind, Option.bind_eq_some_iff,
    Option.some.injEq]
  constructor
  · rintro ⟨r, ⟨e, some, f, some', rfl⟩, right⟩
    refine ⟨e, f, some, some', ?_⟩
    by_cases same : m.isSameAs e f = true
    · exact Or.inl same
    · simp only [same, Bool.false_eq_true, if_false, Contains, false_iff] at right
      exact Or.inr right
  · rintro ⟨e, f, some, some', right⟩
    refine ⟨_, ⟨e, some, f, some', rfl⟩, fun o => ?_⟩
    split
    · exact Elements.includes_intersection
    · next other =>
      have disjoint := right.resolve_left other o
      simp only [Contains, disjoint]

theorem meetsRight_of_not {x y : Ty m} (notBoth : ∀ i as j bs, x = intersection i as →
      y = intersection j bs → False)
    (ranges : ∀ t s e t' s' e', x = range t s e → y = range t' s' e' → False)
    (members : ∀ es fs, x = member es → y = member fs → False)
    (arrays : ∀ t t', x = array t → y = array t' → False) : x.MeetsRight y := by
  rw [MeetsRight]
  · trivial
  all_goals assumption

theorem meets_iff {x y : Ty m} (parts : x.PartsMeet y) : x.Meets y ↔ x.MeetsRight y := by
  induction x, y using intersectionWith.induct with
  | case1 x a =>
    apply iff_of_true
    · refine ⟨_, by rw [intersectionWith], fun o => contains_intersectionSingleton⟩
    · apply meetsRight_of_not <;> intros <;> simp_all
  | case2 a y other =>
    apply iff_of_true
    · refine ⟨_, by rw [intersectionWith]; exact other, fun o => ?_⟩
      rw [contains_intersectionSingleton, and_comm]
      rfl
    · apply meetsRight_of_not <;> intros <;> simp_all
  | case3 y other =>
    apply iff_of_true
    · refine ⟨_, by rw [intersectionWith]; exact other, fun o => ?_⟩
      simp only [Contains, false_and]
    · apply meetsRight_of_not <;> intros <;> simp_all
  | case4 a y other =>
    apply iff_of_true
    · refine ⟨_, by rw [intersectionWith]; exact other, fun o => ?_⟩
      split
      · next equal =>
        have same := contains_of_equals equal o
        simp only [Contains]
        tauto
      · exact contains_intersectionAny
    · apply meetsRight_of_not <;> intros <;> simp_all
  | case5 i args j args' =>
    simp only [Meets, intersectionWith, MeetsRight, reduceCtorEq, false_and, exists_false]
  | case6 i args y other notIntersection =>
    apply iff_of_true
    · refine ⟨_, by rw [intersectionWith] <;> assumption, fun o => ?_⟩
      simp only [Contains, allContain_iff, List.forall_mem_append, List.forall_mem_singleton]
    · apply meetsRight_of_not <;> intros <;> simp_all
  | case7 t s e t' s' e' ih =>
    rw [PartsMeet] at parts
    obtain ⟨type, base, exact⟩ := (ih parts.parts).2 parts
    rw [meets_range_iff base exact, MeetsRight, and_iff_right parts]
  | case8 es fs => exact meets_member_iff
  | case9 t t' ih =>
    rw [PartsMeet] at parts
    obtain ⟨type, base, exact⟩ := (ih parts.parts).2 parts
    rw [meets_array_iff base exact, MeetsRight, and_iff_right parts]
  | case10 x y right left notNone notNot both some ranges members arrays =>
    apply iff_of_true
    · exact ⟨_, by rw [intersectionWith] <;> assumption, fun o => contains_intersectionAny⟩
    · exact meetsRight_of_not both ranges members arrays

end Intersection

section Order

theorem contains_of_subsumesByIntersection {x y : Ty m} (meets : x.Meets y)
    (subsumed : x.subsumesByIntersection y = some true) {o : O} (within : y.Contains o) :
    x.Contains o := by
  obtain ⟨r, answered, exact⟩ := meets
  simp only [subsumesByIntersection, answered, Option.bind_eq_bind, Option.bind_some,
    Option.some.injEq] at subsumed
  exact ((exact o).1 ((contains_of_equals subsumed o).2 within)).1

theorem contains_of_subsumes {x y : Ty m} (right : x.OrdersRight y)
    (subsumed : x.subsumes y = some true) {o : O} (within : y.Contains o) : x.Contains o := by
  apply subsumes.induct
    (fun x y => x.OrdersRight y → x.subsumes y = some true → y.Contains o → x.Contains o)
    (fun args y => AllOrderRight args y → allSubsume args y = some true → y.Contains o →
      AllContain args o)
    (fun args y => AllOrderRight args y → anySubsumes args y = some true → y.Contains o →
      AnyContains args o) _ _ _ _ _ _ _ x y right subsumed within
  · intro i args y ih right subsumed within
    rw [OrdersRight] at right
    simp only [subsumes, Option.bind_eq_bind, Option.bind_eq_some_iff] at subsumed
    obtain ⟨found, searched, subsumed⟩ := subsumed
    cases found with
    | true => exact ih right searched within
    | false =>
      have meetsRight : (union i args).MeetsRight y := by
        apply meetsRight_of_not <;> intros <;> simp_all
      exact contains_of_subsumesByIntersection ((meets_iff meetsRight.parts).2 meetsRight)
        subsumed within
  · intro i args y ih right subsumed within
    rw [OrdersRight] at right
    rw [subsumes] at subsumed
    exact ih right subsumed within
  · intro x y notUnion notIntersection right subsumed within
    rw [OrdersRight] at right
    · rw [subsumes] at subsumed
      · exact contains_of_subsumesByIntersection ((meets_iff right.parts).2 right) subsumed within
      · exact notUnion
      · exact notIntersection
    · exact notUnion
    · exact notIntersection
  · intro y _ _ _
    trivial
  · intro a args y iha ih right subsumed within
    rw [AllOrderRight] at right
    simp only [allSubsume, Option.bind_eq_bind, Option.bind_eq_some_iff] at subsumed
    obtain ⟨found, first, others⟩ := subsumed
    cases found with
    | true => exact ⟨iha right.1 first within, ih right.2 others within⟩
    | false => cases others
  · intro y _ subsumed
    cases subsumed
  · intro a args y iha ih right subsumed within
    rw [AllOrderRight] at right
    simp only [anySubsumes, Option.bind_eq_bind, Option.bind_eq_some_iff] at subsumed
    obtain ⟨found, first, others⟩ := subsumed
    cases found with
    | true => exact Or.inl (iha right.1 first within)
    | false => exact Or.inr (ih right.2 others within)

end Order

/-- The operations are right about the objects of the types. -/
structure LatticeRight (x y : Ty m) : Prop where
  intersection : ∃ r, x.intersectionWith y = some r ∧
    ∀ o, r.Contains o ↔ x.Contains o ∧ y.Contains o
  union : ∃ r, x.unionWith y = some r ∧ ∀ o, x.Contains o ∨ y.Contains o → r.Contains o
  subsumes : x.subsumes y = some true → ∀ o, y.Contains o → x.Contains o

structure Fits (x y : Ty m) : Prop where
  intersection : x.MeetsRight y
  union : x.UnionAnswers y
  order : x.OrdersRight y

/-- The intersections that the operations ask for on the way are right. -/
structure PartsFit (x y : Ty m) : Prop where
  intersection : x.PartsMeet y
  unionArgs : ∀ i args, x = .union i args → AllOrderRight args y
  intersectionArgs : ∀ i args, x = .intersection i args → AllOrderRight args y

theorem union_iff {x y : Ty m} :
    (∃ r, x.unionWith y = some r ∧ ∀ o, x.Contains o ∨ y.Contains o → r.Contains o) ↔
      x.UnionAnswers y := by
  rw [← unionWith_answers, Option.isSome_iff_exists]
  constructor
  · rintro ⟨r, answered, _⟩
    exact ⟨r, answered⟩
  · rintro ⟨r, answered⟩
    exact ⟨r, answered, fun o => contains_unionWith answered⟩

theorem ordersRight_of_parts {x y : Ty m} (parts : x.PartsFit y) (right : x.MeetsRight y) :
    x.OrdersRight y := by
  cases x with
  | union i args =>
    rw [OrdersRight]
    exact parts.unionArgs i args rfl
  | intersection i args =>
    rw [OrdersRight]
    exact parts.intersectionArgs i args rfl
  | any | none | not | clone | range | member | singleton | array =>
    rw [OrdersRight]
    · exact right
    all_goals nofun

/-- Natural numbers, and an `Array` without elements. -/
def naturals : Objects (Option Nat) where
  equals a b := a = b
  isSameAs a b := a.isSome = b.isSome
  less a b := do some ((← a) < (← b))
  elements a := if a = .none then some [] else .none
  refl := by simp
  symm := by simp
  trans := by simp
  less_asymm := by
    rintro (_ | a) (_ | b) <;> simp
    omega
  less_trans := by
    rintro (_ | a) (_ | b) (_ | c) <;> simp
    omega
  less_left := by
    intro a b c same
    rw [of_decide_eq_true same]
  less_right := by
    intro a b c same
    rw [of_decide_eq_true same]
  empty := .none
  elements_empty := rfl

end SlateVm.Types.Ty
