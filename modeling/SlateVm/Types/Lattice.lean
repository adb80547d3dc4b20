import Mathlib.Data.List.Basic

/-! The types that inference works with. `none` stands for a signalled error, and for a message that
is sent again and again without an answer. -/
namespace SlateVm.Types

/-- What the types ask of objects: `=`, `isSameAs:`, `<`, which signals an error if the objects
cannot be compared, and the elements of an `Array`. -/
structure Objects (O : Type) where
  equals : O → O → Bool
  isSameAs : O → O → Bool
  less : O → O → Option Bool
  elements : O → Option (List O)
  refl : ∀ a, equals a a = true
  symm : ∀ a b, equals a b = true → equals b a = true
  trans : ∀ a b c, equals a b = true → equals b c = true → equals a c = true
  less_asymm : ∀ a b, less a b = some true → less b a = some false
  less_trans : ∀ a b c, less a b = some false → less b c = some false → less a c = some false
  less_left : ∀ a b c, equals a b = true → less a c = less b c
  less_right : ∀ a b c, equals a b = true → less c a = less c b
  empty : O
  elements_empty : elements empty = some []

section Sets

variable {O : Type} (m : Objects O)

/-- The `Set` of a Member type. -/
structure Elements where
  toList : List O
  distinct : toList.Pairwise fun a b => m.equals a b = false

namespace Elements

variable {m}

def includes (es : Elements m) (obj : O) : Bool := es.toList.any fun e => m.equals e obj

def anyOne (es : Elements m) : Option O := es.toList.head?

def filter (es : Elements m) (p : O → Bool) : Elements m :=
  ⟨es.toList.filter p, es.distinct.sublist List.filter_sublist⟩

def equals (es fs : Elements m) : Bool :=
  es.toList.length = fs.toList.length ∧ es.toList.all fs.includes

theorem distinct_append (es : Elements m) {obj : O} (absent : es.includes obj = false) :
    (es.toList ++ [obj]).Pairwise fun a b => m.equals a b = false := by
  apply List.pairwise_append.2
  refine ⟨es.distinct, List.pairwise_singleton _ _, ?_⟩
  intro e member last isLast
  rw [List.mem_singleton.1 isLast]
  simp only [includes, List.any_eq_false, Bool.not_eq_true] at absent
  exact absent e member

def copyWith (es : Elements m) (obj : O) : Elements m :=
  if absent : es.includes obj = false then ⟨es.toList ++ [obj], es.distinct_append absent⟩ else es

/-- The elements of a collection, as a `Set`. -/
def of (objs : List O) : Elements m := objs.foldl copyWith ⟨[], List.Pairwise.nil⟩

def union (es fs : Elements m) : Elements m := fs.toList.foldl copyWith es

def intersection (es fs : Elements m) : Elements m := es.filter fs.includes

end Elements

end Sets

/-- A Union or Intersection that an operation makes has no number yet. -/
inductive Ty {O : Type} (m : Objects O)
  | any
  | none
  | not (argument : Ty m)
  | union (object : Option Nat) (args : List (Ty m))
  | intersection (object : Option Nat) (args : List (Ty m))
  | clone (prototype : O)
  | range (type : Ty m) (start finish : O)
  | member (elements : Elements m)
  | singleton (identity : O)
  | array (type : Ty m)

namespace Ty

variable {O : Type} [DecidableEq O] {m : Objects O}

section Equality

mutual

/-- `==`, as far as it is asked for. -/
def identical : Ty m → Ty m → Bool
  | any, any => true
  | none, none => true
  | not a, not b => a.identical b
  | union i as, union j bs => i = j ∧ allIdentical as bs
  | intersection i as, intersection j bs => i = j ∧ allIdentical as bs
  | clone p, clone q => p = q
  | range t s e, range t' s' e' => t.identical t' ∧ s = s' ∧ e = e'
  | member es, member fs => es.toList = fs.toList
  | singleton a, singleton b => a = b
  | array t, array t' => t.identical t'
  | _, _ => false

def allIdentical : List (Ty m) → List (Ty m) → Bool
  | [], [] => true
  | a :: as, b :: bs => a.identical b ∧ allIdentical as bs
  | _, _ => false

end

/-- `=`. Unions and Intersections are equal only to themselves. -/
def equals : Ty m → Ty m → Bool
  | any, any => true
  | none, none => true
  | not a, not b => a.equals b
  | union i as, union j bs => (union i as).identical (union j bs)
  | intersection i as, intersection j bs => (intersection i as).identical (intersection j bs)
  | clone p, clone q => p = q
  | range t s e, range t' s' e' => t.equals t' ∧ m.equals s s' ∧ m.equals e e'
  | member es, member fs => es.equals fs
  | singleton a, singleton b => a = b
  | array t, array t' => t.equals t'
  | _, _ => false

end Equality

def isAny : Ty m → Bool
  | any => true
  | _ => false

def isNone : Ty m → Bool
  | none => true
  | _ => false

def least (m : Objects O) (x y : O) : Option O := do some (if ← m.less x y then x else y)

def greatest (m : Objects O) (x y : O) : Option O := do some (if ← m.less y x then x else y)

section Union

def unionAny (x y : Ty m) : Ty m :=
  if x.isAny ∨ y.isAny then any else union .none [x, y]

def unionSingleton : Ty m → O → Option (Ty m)
  | none, o => some (singleton o)
  | not a, o => some (if a.equals (singleton o) then any else (not a).unionAny (singleton o))
  | union _ args, o => some (union .none (args ++ [singleton o]))
  | member es, o =>
    if es.includes o then some (member es)
    else do
      if m.isSameAs (← es.anyOne) o then some (member (es.copyWith o))
      else some ((member es).unionAny (singleton o))
  | clone p, o => some (if m.isSameAs p o then clone p else (clone p).unionAny (singleton o))
  | singleton a, o =>
    if a = o then some (singleton a)
    else if m.isSameAs a o then some (member (.of [a, o]))
    -- The method that is next sends the message to the argument, which does the same.
    else .none
  | x, o => some (x.unionAny (singleton o))

def unionWith : Ty m → Ty m → Option (Ty m)
  | x, singleton o => x.unionSingleton o
  | singleton o, y => y.unionSingleton o
  | none, y => some y
  | not a, y => some (if a.equals y then any else (not a).unionAny y)
  | union _ args, union _ args' => some (union .none (args ++ args'))
  | union _ args, y => some (union .none (args ++ [y]))
  | range t s e, range t' s' e' => do
    some (range (← t.unionWith t') (← least m s s') (← greatest m e e'))
  | member es, member fs => do
    let e ← es.anyOne
    let f ← fs.anyOne
    some (if m.isSameAs e f then member (es.union fs) else (member es).unionAny (member fs))
  | array t, array t' => do some (array (← t.unionWith t'))
  | x, y => some (x.unionAny y)

end Union

section Intersection

def intersectionAny (x y : Ty m) : Ty m :=
  if x.isAny then y else if y.isAny then x else intersection .none [x, y]

def intersectionSingleton : Ty m → O → Ty m
  | none, _ => none
  | not a, o => if a.equals (singleton o) then none else (not a).intersectionAny (singleton o)
  | intersection _ args, o => intersection .none (args ++ [singleton o])
  | member es, o => if es.includes o then singleton o else none
  | clone p, o => if m.isSameAs p o then singleton o else none
  | singleton a, o => if a = o then singleton a else none
  | x, o => x.intersectionAny (singleton o)

def rangeIntersection (type : Ty m) (s e s' e' : O) : Option (Ty m) :=
  if type.isNone then some none
  else do
    let start ← least m s s'
    let finish ← greatest m e e'
    some (if ← m.less finish start then none else range type start finish)

def intersectionWith : Ty m → Ty m → Option (Ty m)
  | x, singleton o => some (x.intersectionSingleton o)
  | singleton o, y => some (y.intersectionSingleton o)
  | none, _ => some none
  | not a, y => some (if a.equals y then none else (not a).intersectionAny y)
  -- The method names a variable that it does not have.
  | intersection _ _, intersection _ _ => .none
  | intersection _ args, y => some (intersection .none (args ++ [y]))
  | range t s e, range t' s' e' => do rangeIntersection (← t.intersectionWith t') s e s' e'
  | member es, member fs => do
    let e ← es.anyOne
    let f ← fs.anyOne
    some (if m.isSameAs e f then member (es.intersection fs) else none)
  | array t, array t' => do
    let type ← t.intersectionWith t'
    some (if type.isNone then none else array type)
  | x, y => some (x.intersectionAny y)

end Intersection

def complement : Ty m → Ty m
  | any => none
  | none => any
  | not a => a
  | x => not x

section Order

def subsumesByIntersection (x y : Ty m) : Option Bool := do
  some ((← x.intersectionWith y).equals y)

mutual

/-- `subsumes:`. The methods for a Union or an Intersection as the argument are never reached. -/
def subsumes : Ty m → Ty m → Option Bool
  | union i args, y => do
    if ← anySubsumes args y then some true else (union i args).subsumesByIntersection y
  | intersection _ args, y => allSubsume args y
  | x, y => x.subsumesByIntersection y

def anySubsumes : List (Ty m) → Ty m → Option Bool
  | [], _ => some false
  | a :: args, y => do if ← a.subsumes y then some true else anySubsumes args y

def allSubsume : List (Ty m) → Ty m → Option Bool
  | [], _ => some true
  | a :: args, y => do if ← a.subsumes y then allSubsume args y else some false

end

end Order

mutual

def Contains : Ty m → O → Prop
  | any, _ => True
  | none, _ => False
  | not a, o => ¬ a.Contains o
  | union _ args, o => AnyContains args o
  | intersection _ args, o => AllContain args o
  | clone p, o => m.isSameAs p o = true
  | range t s e, o => t.Contains o ∧ m.less o s = some false ∧ m.less e o = some false
  | member es, o => es.includes o = true
  | singleton a, o => o = a
  | array t, o => ∃ es, m.elements o = some es ∧ ∀ e ∈ es, t.Contains e

def AnyContains : List (Ty m) → O → Prop
  | [], _ => False
  | a :: args, o => a.Contains o ∨ AnyContains args o

def AllContain : List (Ty m) → O → Prop
  | [], _ => True
  | a :: args, o => a.Contains o ∧ AllContain args o

end

end Ty

end SlateVm.Types
