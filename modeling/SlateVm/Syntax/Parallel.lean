import SlateVm.Syntax.Assignment

/-! Assignment to several targets at once, compared with stores of the elements that the right-hand
side had before any of them. -/
namespace SlateVm.Syntax

section Places

variable {Value World Other : Type}

/-- What a target stores into: a variable, or the message that gets the value last. -/
inductive Place (Other : Type)
  | var (v : Var)
  | message (selector : String) (operands : List (Node Other))

namespace Place

def assignment : Place Other → Node Other → Node Other
  | var v, val => .store v val
  | message selector operands, val => .keyword selector (operands ++ [val])

def operands : Place Other → List (Node Other)
  | var _ => []
  | message _ operands => operands

def store (m : Machine Value World Other) :
    Place Other → List Value → Value → World → Option (Value × World)
  | var v, _, x, w => some (x, m.assign w v x)
  | message selector _, vs, x, w => m.send selector (vs ++ [x]) w

end Place

variable (interned : String → Bool)

def placeOf : Node Other → Option Scope → Option (Place Other × Option Scope)
  | .load v, env => if v.kind = .binding then none else some (.var v, env)
  | .unary selector argument, none => some (.message (selector ++ ":") [argument], none)
  | .unary selector argument, some block =>
    if argument.isImplicit then do
      let (v, block) ← block.addVariableNamed selector .plain
      some (.var v, some block)
    else some (.message (selector ++ ":") [argument], some block)
  | .keyword selector arguments, env => do
    some (.message (← putSelector interned selector) arguments, env)
  | _, _ => none

def placesOf : List (Node Other) → Option Scope → Option (List (Place Other) × Option Scope)
  | [], env => some ([], env)
  | target :: targets, env => do
    let (place, env) ← placeOf interned target env
    let (places, env) ← placesOf targets env
    some (place :: places, env)

/-- Variables that may be stored into, accessors, and messages with a selector for storing. A name
that is no variable yet becomes one. -/
def Assignable (env : Option Scope) : Node Other → Prop
  | .load v => v.kind ≠ .binding
  | .unary selector argument => argument.isImplicit = true →
    ∀ block, env = some block → ∀ v ∈ block.locals, v.name = selector → v.kind = .plain
  | .keyword selector _ => (putSelector interned selector).isSome
  | _ => False

end Places

attribute [local simp] Place.assignment Node.eval evalAll

section Scopes

variable {block after : Scope} {name : String} {v : Var}

def Extends (block after : Scope) : Prop :=
  ∀ v ∈ after.locals, v ∈ block.locals ∨ v.kind = .plain

theorem addVariableNamed_spec (added : block.addVariableNamed name .plain = some (v, after)) :
    v.kind = .plain ∧ Extends block after := by
  unfold Scope.addVariableNamed at added
  split at added
  · rename_i found
    cases added
    have kind := List.find?_some found
    simp only [decide_eq_true_eq] at kind
    exact ⟨kind.2, fun u here => Or.inl here⟩
  · simp only [Scope.addVariableOf, Option.bind_eq_bind, Option.bind_eq_some_iff] at added
    obtain ⟨fresh, _, same⟩ := added
    cases same
    refine ⟨rfl, fun u here => ?_⟩
    rcases List.mem_append.mp here with before | new
    · exact Or.inl before
    · rw [List.mem_singleton.mp new]
      exact Or.inr rfl

theorem addVariableNamed_found (plain : ∀ v ∈ block.locals, v.name = name → v.kind = .plain) :
    ∃ v after, block.addVariableNamed name .plain = some (v, after) := by
  unfold Scope.addVariableNamed
  split
  · exact ⟨_, _, rfl⟩
  · rename_i missing
    have clash : block.locals.any (fun v => v.name = name) = false := by
      rw [Bool.eq_false_iff]
      intro some_local
      obtain ⟨v, here, same⟩ := List.any_eq_true.mp some_local
      have absent := List.find?_eq_none.mp missing v here
      simp only [decide_eq_true_eq] at same absent
      exact absent ⟨same, plain v here same⟩
    have kept : block.nameFor name = some name := by
      rw [Scope.nameFor, clash, if_neg Bool.false_ne_true]
    rw [Scope.addVariableOf, kept]
    exact ⟨_, _, rfl⟩

end Scopes

section Expansion

variable {Other : Type} {interned : String → Bool} {env : Option Scope}

theorem setTo_place {target : Node Other} {place : Place Other} {after : Option Scope}
    (found : placeOf interned target env = some (place, after)) (val : Node Other) :
    target.setTo interned val env = some (place.assignment val, after) := by
  cases target with
  | load v =>
    simp only [placeOf] at found
    split at found
    · cases found
    · rename_i free
      cases found
      simp only [Node.setTo, Var.storing, if_neg free, Option.bind_eq_bind, Option.bind_some,
        Place.assignment]
  | unary selector argument =>
    cases env with
    | none =>
      cases found
      rfl
    | some block =>
      simp only [placeOf] at found
      split at found
      · rename_i implicit
        simp only [Option.bind_eq_bind, Option.bind_eq_some_iff] at found
        obtain ⟨⟨v, extended⟩, added, same⟩ := found
        cases same
        have free : v.kind ≠ .binding := by
          rw [(addVariableNamed_spec added).1]
          decide
        simp only [Node.setTo, if_pos implicit, added, Var.storing, if_neg free,
          Option.bind_eq_bind, Option.bind_some, Place.assignment]
      · rename_i explicit
        cases found
        simp only [Node.setTo, if_neg explicit]
        rfl
  | keyword selector arguments =>
    simp only [placeOf, Option.bind_eq_bind, Option.bind_eq_some_iff] at found
    obtain ⟨put, known, same⟩ := found
    cases same
    simp only [Node.setTo, known, Option.bind_eq_bind, Option.bind_some, Place.assignment]
  | _ => cases found

theorem setEach_places {targets : List (Node Other)} {places : List (Place Other)}
    {after : Option Scope} (found : placesOf interned targets env = some (places, after))
    (value : Nat → Node Other) (index : Nat) : setEach interned targets value index env =
      some (places.mapIdx fun i place => place.assignment (value (index + i)), after) := by
  induction targets generalizing places env index with
  | nil =>
    obtain ⟨rfl, rfl⟩ := Prod.mk.inj (Option.some.inj found)
    rfl
  | cons target targets ih =>
    simp only [placesOf, Option.bind_eq_bind, Option.bind_eq_some_iff] at found
    obtain ⟨⟨place, env'⟩, first, ⟨others, env''⟩, rest, same⟩ := found
    obtain ⟨rfl, rfl⟩ := Prod.mk.inj (Option.some.inj same)
    simp only [setEach, setTo_place first, ih rest, Option.bind_eq_bind, Option.bind_some,
      List.mapIdx_cons]
    simp only [Nat.add_zero, Nat.add_assoc, Nat.add_comm 1]

theorem Extends.assignable {block after : Scope} (extended : Extends block after)
    {target : Node Other} (before : Assignable interned (some block) target) :
    Assignable interned (some after) target := by
  cases target with
  | unary selector argument =>
    intro implicit scope same v here name
    cases same
    rcases extended v here with old | plain
    · exact before implicit block rfl v old name
    · exact plain
  | _ => exact before

theorem place_found {target : Node Other} (assignable : Assignable interned env target) :
    ∃ place after, placeOf interned target env = some (place, after) ∧
      ∀ t : Node Other, Assignable interned env t → Assignable interned after t := by
  cases target with
  | load v => exact ⟨.var v, env, if_neg assignable, fun _ kept => kept⟩
  | unary selector argument =>
    cases env with
    | none => exact ⟨_, none, rfl, fun _ kept => kept⟩
    | some block =>
      by_cases implicit : argument.isImplicit = true
      · obtain ⟨v, extended, added⟩ := addVariableNamed_found (assignable implicit block rfl)
        have grown := (addVariableNamed_spec added).2
        refine ⟨.var v, some extended, ?_, fun t kept => grown.assignable kept⟩
        simp only [placeOf, if_pos implicit, added, Option.bind_eq_bind, Option.bind_some]
      · exact ⟨_, some block, if_neg implicit, fun _ kept => kept⟩
  | keyword selector arguments =>
    obtain ⟨put, known⟩ := Option.isSome_iff_exists.mp assignable
    refine ⟨.message put arguments, env, ?_, fun _ kept => kept⟩
    simp only [placeOf, known, Option.bind_eq_bind, Option.bind_some]
  | _ => exact assignable.elim

theorem places_found {targets : List (Node Other)}
    (assignable : ∀ t ∈ targets, Assignable interned env t) :
    ∃ places after, placesOf interned targets env = some (places, after) := by
  induction targets generalizing env with
  | nil => exact ⟨[], env, rfl⟩
  | cons target targets ih =>
    obtain ⟨place, env', first, kept⟩ := place_found (assignable target List.mem_cons_self)
    obtain ⟨places, after, rest⟩ := ih fun t here =>
      kept t (assignable t (List.mem_cons_of_mem _ here))
    refine ⟨place :: places, after, ?_⟩
    simp only [placesOf, first, rest, Option.bind_eq_bind, Option.bind_some]

inductive Shape (Other : Type)
  | nothing
  | single (place : Place Other)
  | several (tmpVar : Var) (places : List (Place Other))

def Shape.node (rhs : Node Other) : Shape Other → Node Other
  | nothing => rhs
  | single place => place.assignment (.unary "first" rhs)
  | several tmpVar places => .parenthesis [.store tmpVar rhs,
      .array (places.mapIdx fun i place => place.assignment (elementOf tmpVar i))]

def shapeOf (interned : String → Bool) (rhs : Node Other) :
    List (Node Other) → Option Scope → Option (Shape Other × Option Scope)
  | [], env => some (.nothing, env)
  | [target], env => (placeOf interned target env).map fun found => (.single found.1, found.2)
  | targets, env => do
    let (tmpVar, block) ← temporary rhs (← env)
    let (places, after) ← placesOf interned targets (some block)
    if tmpVar.kind = .binding then none else some (.several tmpVar places, after)

theorem temporary_extends {rhs : Node Other} {block after : Scope} {tmpVar : Var}
    (chosen : temporary rhs block = some (tmpVar, after)) : Extends block after := by
  have same : Extends block block := fun v here => Or.inl here
  have added (fresh : block.addVariable = some (tmpVar, after)) : Extends block after := by
    simp only [Scope.addVariable, Option.bind_eq_bind, Option.bind_eq_some_iff] at fresh
    obtain ⟨name, _, named⟩ := fresh
    exact (addVariableNamed_spec named).2
  cases rhs with
  | load v =>
    cases chosen
    exact same
  | _ => exact added chosen

theorem setTo_shape {targets : List (Node Other)} (rhs : Node Other)
    (assignable : ∀ t ∈ targets, Assignable interned env t) :
    (Node.array targets).setTo interned rhs env =
      (shapeOf interned rhs targets env).map fun found => (found.1.node rhs, found.2) := by
  match targets with
  | [] => rfl
  | [target] =>
    obtain ⟨place, after, found, _⟩ := place_found (assignable target List.mem_cons_self)
    simp only [Node.setTo, shapeOf, setTo_place found, found, Option.map_some, Shape.node]
  | first :: second :: rest =>
    cases env with
    | none => rfl
    | some block =>
      simp only [Node.setTo, shapeOf, Option.bind_eq_bind, Option.bind_some]
      cases chosen : temporary rhs block with
      | none => rfl
      | some found =>
        obtain ⟨tmpVar, extended⟩ := found
        have kept := temporary_extends chosen
        obtain ⟨places, after, placed⟩ := places_found fun t here =>
          kept.assignable (assignable t here)
        simp only [Option.bind_some, placed, setEach_places placed, Var.storing, Nat.zero_add]
        split
        · rfl
        · rfl

end Expansion

section Run

variable {Value World Other : Type} (m : Machine Value World Other)

/-- A place gets its value. The first component lists the values handed over, up to one that
signals, and the second is the outcome. -/
def handed (place : Place Other) (vs : List Value) (w : World) (value : Option Value)
    (rest : World → List (Option Value) × Option (List Value × World)) :
    List (Option Value) × Option (List Value × World) :=
  match value with
  | none => ([none], none)
  | some x =>
    match place.store m vs x w with
    | none => ([some x], none)
    | some (y, w) => (some x :: (rest w).1, (rest w).2.map fun done => (y :: done.1, done.2))

def turns (value : World → Nat → Option Value) : List (Place Other) → Nat → World →
    List (Option Value) × Option (List Value × World)
  | [], _, w => ([], some ([], w))
  | place :: places, i, w =>
    match evalAll m place.operands w with
    | none => ([], none)
    | some (vs, w) => handed m place vs w (value w i) (turns value places (i + 1))

def reading (tmpVar : Var) (w : World) (i : Nat) : Option Value :=
  m.element w (m.fetch w tmpVar) i

/-- In a run that hands over the given values, what the expansion would read at each place is the
value. -/
def Undisturbed (value : World → Nat → Option Value) (given : Nat → Option Value) :
    List (Place Other) → Nat → World → Prop
  | [], _, _ => True
  | place :: places, i, w => ∀ vs w', evalAll m place.operands w = some (vs, w') →
    value w' i = given i ∧ ∀ x y w'', given i = some x → place.store m vs x w' = some (y, w'') →
      Undisturbed value given places (i + 1) w''

theorem handed_head (place : Place Other) (vs : List Value) (w : World) (value : Option Value)
    (rest : World → List (Option Value) × Option (List Value × World)) :
    (handed m place vs w value rest).1.head? = some value := by
  cases value with
  | none => rfl
  | some x =>
    simp only [handed]
    split <;> rfl

theorem handed_eq_iff (place : Place Other) (vs : List Value) (w : World) (value : Option Value)
    (rest rest' : World → List (Option Value) × Option (List Value × World)) :
    handed m place vs w value rest = handed m place vs w value rest' ↔
      ∀ x y w', value = some x → place.store m vs x w = some (y, w') → rest w' = rest' w' := by
  cases value with
  | none => exact iff_of_true rfl fun x y w' given => nomatch given
  | some x =>
    simp only [handed]
    cases stored : place.store m vs x w with
    | none =>
      refine iff_of_true rfl fun x' y w' given here => ?_
      cases given
      rw [stored] at here
      cases here
    | some after =>
      obtain ⟨y, w'⟩ := after
      constructor
      · intro same x' y' w'' given here
        cases given
        rw [stored] at here
        cases here
        obtain ⟨values, outcome⟩ := Prod.mk.inj same
        refine Prod.ext (List.cons.inj values).2 (Option.map_injective ?_ outcome)
        intro one other equal
        obtain ⟨results, worlds⟩ := Prod.mk.inj equal
        exact Prod.ext (List.cons.inj results).2 worlds
      · intro same
        simp only [same x y w' rfl stored]

theorem turns_eq_iff (value : World → Nat → Option Value) (given : Nat → Option Value)
    (places : List (Place Other)) (i : Nat) (w : World) :
    turns m value places i w = turns m (fun _ => given) places i w ↔
      Undisturbed m value given places i w := by
  induction places generalizing i w with
  | nil => exact iff_of_true rfl trivial
  | cons place places ih =>
    simp only [turns, Undisturbed]
    cases operands : evalAll m place.operands w with
    | none => exact iff_of_true rfl fun vs w' here => nomatch here
    | some before =>
      obtain ⟨vs, w'⟩ := before
      have next := handed_eq_iff m place vs w' (given i) (turns m value places (i + 1))
        (turns m (fun _ => given) places (i + 1))
      simp only [ih] at next
      dsimp only
      constructor
      · intro same vs' w'' here
        cases here
        have heads := congrArg (fun done => done.1.head?) same
        simp only [handed_head, Option.some.injEq] at heads
        rw [heads] at same
        exact ⟨heads, next.mp same⟩
      · intro quiet
        obtain ⟨read, later⟩ := quiet vs w' rfl
        simp only [read]
        exact next.mpr later

theorem evalAll_append (nodes : List (Node Other)) (node : Node Other) (w : World) :
    evalAll m (nodes ++ [node]) w = (evalAll m nodes w).bind fun before =>
      (node.eval m before.2).map fun last => (before.1 ++ [last.1], last.2) := by
  induction nodes generalizing w with
  | nil =>
    simp only [List.nil_append, evalAll, Option.bind_eq_bind, Option.bind_some]
    cases node.eval m w <;> rfl
  | cons first nodes ih =>
    simp only [List.cons_append, evalAll, Option.bind_eq_bind, ih]
    cases first.eval m w with
    | none => rfl
    | some start =>
      simp only [Option.bind_some]
      cases evalAll m nodes start.2 with
      | none => rfl
      | some before =>
        simp only [Option.bind_some]
        cases node.eval m before.2 <;> rfl

theorem eval_place (place : Place Other) {val : Node Other}
    (computed : ∀ index, val ≠ .literal (.integer index)) (w : World) :
    (place.assignment val).eval m w = (evalAll m place.operands w).bind fun before =>
      (val.eval m before.2).bind fun done => place.store m before.1 done.1 done.2 := by
  cases place with
  | var v =>
    simp only [Place.assignment, Place.operands, Node.eval, evalAll, Option.bind_eq_bind,
      Option.bind_some]
    rfl
  | message selector operands =>
    have generic : (Node.keyword selector (operands ++ [val])).eval m w =
        (evalAll m (operands ++ [val]) w).bind fun after => m.send selector after.1 after.2 := by
      rw [Node.eval]
      · rfl
      · intro argument index _ two
        have last := congrArg List.getLast? two
        rw [List.getLast?_concat] at last
        exact computed index (Option.some.inj last)
    simp only [Place.assignment, Place.operands, generic, evalAll_append]
    cases evalAll m operands w with
    | none => rfl
    | some before =>
      simp only [Option.bind_some]
      cases val.eval m before.2 <;> rfl

theorem eval_assignment (place : Place Other) (tmpVar : Var) (i : Nat) (w : World) :
    (place.assignment (elementOf tmpVar i)).eval m w = (evalAll m place.operands w).bind fun before =>
      (reading m tmpVar before.2 i).bind fun x => place.store m before.1 x before.2 := by
  have read (w : World) : (elementOf tmpVar i : Node Other).eval m w =
      (reading m tmpVar w i).map fun x => (x, w) := by
    simp only [elementOf, Node.eval, Option.bind_eq_bind, Option.bind_some, reading]
    cases m.element w (m.fetch w tmpVar) i <;> rfl
  rw [eval_place m place (fun _ same => by cases same)]
  cases evalAll m place.operands w with
  | none => rfl
  | some before =>
    simp only [Option.bind_some, read]
    cases reading m tmpVar before.2 i <;> rfl

theorem evalAll_turns (tmpVar : Var) (places : List (Place Other)) (i : Nat) (w : World) :
    evalAll m (places.mapIdx fun j place => place.assignment (elementOf tmpVar (i + j))) w =
      (turns m (reading m tmpVar) places i w).2 := by
  induction places generalizing i w with
  | nil => rfl
  | cons place places ih =>
    have later := ih (i + 1)
    simp only [Nat.add_assoc, Nat.add_comm 1] at later
    simp only [List.mapIdx_cons, evalAll, Nat.add_zero, eval_assignment, later, turns,
      Option.bind_eq_bind]
    cases evalAll m place.operands w with
    | none => rfl
    | some before =>
      simp only [Option.bind_some, handed]
      cases reading m tmpVar before.2 i with
      | none => rfl
      | some x =>
        simp only [Option.bind_some]
        cases place.store m before.1 x before.2 with
        | none => rfl
        | some after =>
          simp only [Option.bind_some]
          cases (turns m (reading m tmpVar) places (i + 1) after.2).2 <;> rfl

/-- The expansion evaluates the right-hand side once. Each place then gets the element that the
value had before. -/
def Shape.Right (rhs : Node Other) (w : World) : Shape Other → Prop
  | .nothing => (Shape.nothing.node rhs).eval m w = rhs.eval m w
  | .single place => ((Shape.single place).node rhs).eval m w =
    (evalAll m place.operands w).bind fun before => (rhs.eval m before.2).bind fun done =>
      (m.element done.2 done.1 0).bind fun x => place.store m before.1 x done.2
  | .several tmpVar places => ((Shape.several tmpVar places).node rhs).eval m w =
    ((rhs.eval m w).bind fun done => (turns m (reading m tmpVar) places 0
      (m.assign done.2 tmpVar done.1)).2.map fun after => m.newArray after.1 after.2) ∧
    ∀ r w', rhs.eval m w = some (r, w') →
      turns m (reading m tmpVar) places 0 (m.assign w' tmpVar r) =
        turns m (fun _ => m.element w' r) places 0 (m.assign w' tmpVar r)

theorem single_right (place : Place Other) (rhs : Node Other) (w : World) :
    (Shape.single place).Right m rhs w := by
  rw [Shape.Right, Shape.node, eval_place m place (fun _ same => by cases same)]
  cases evalAll m place.operands w with
  | none => rfl
  | some before =>
    simp only [Option.bind_some, Node.eval, Option.bind_eq_bind]
    cases rhs.eval m before.2 with
    | none => rfl
    | some done =>
      simp only [Option.bind_some]
      cases m.element done.2 done.1 0 <;> rfl

theorem eval_several (tmpVar : Var) (places : List (Place Other)) (rhs : Node Other) (w : World) :
    ((Shape.several tmpVar places).node rhs).eval m w =
      (rhs.eval m w).bind fun done => (turns m (reading m tmpVar) places 0
        (m.assign done.2 tmpVar done.1)).2.map fun after => m.newArray after.1 after.2 := by
  have statements := evalAll_turns m tmpVar places 0
  simp only [Nat.zero_add] at statements
  simp only [Shape.node, Node.eval, evalAll, Option.bind_eq_bind, statements]
  cases rhs.eval m w with
  | none => rfl
  | some done =>
    simp only [Option.bind_some]
    cases (turns m (reading m tmpVar) places 0 (m.assign done.2 tmpVar done.1)).2 <;> rfl

theorem variables_undisturbed (tmpVar : Var) (r : Value) (places : List (Place Other))
    (others : ∀ place ∈ places, ∃ v, place = .var v ∧ v ≠ tmpVar) (i : Nat) (before w : World)
    (holds : m.fetch w tmpVar = r) (same : m.element w = m.element before) :
    Undisturbed m (reading m tmpVar) (m.element before r) places i w := by
  induction places generalizing i w with
  | nil => trivial
  | cons place places ih =>
    obtain ⟨v, rfl, other⟩ := others place List.mem_cons_self
    intro vs w' evaluated
    cases evaluated
    refine ⟨by rw [reading, holds, same], fun x y w'' _ stored => ?_⟩
    cases stored
    apply ih fun p here => others p (List.mem_cons_of_mem _ here)
    · rw [m.fetch_assign, if_neg other.symm, holds]
    · rw [m.element_assign, same]

def Parallel (interned : String → Bool) (env : Option Scope) (targets : List (Node Other))
    (rhs : Node Other) (w : World) : Prop :=
  ∃ shape after, shapeOf interned rhs targets env = some (shape, after) ∧
    (Node.array targets).setTo interned rhs env = some (shape.node rhs, after) ∧
    shape.Right m rhs w

theorem parallel_assignment_iff {interned : String → Bool} {env : Option Scope}
    {targets : List (Node Other)} (rhs : Node Other) (w : World)
    (assignable : ∀ t ∈ targets, Assignable interned env t) :
    Parallel m interned env targets rhs w ↔ targets.length ≤ 1 ∨
      ∃ block tmpVar extended places after, env = some block ∧
        temporary rhs block = some (tmpVar, extended) ∧ tmpVar.kind ≠ .binding ∧
        placesOf interned targets (some extended) = some (places, after) ∧
        ∀ r w', rhs.eval m w = some (r, w') →
          Undisturbed m (reading m tmpVar) (m.element w' r) places 0 (m.assign w' tmpVar r) := by
  have expands := setTo_shape rhs assignable
  constructor
  · rintro ⟨shape, after, formed, _, right⟩
    match targets with
    | [] => exact Or.inl (Nat.zero_le 1)
    | [target] => exact Or.inl (Nat.le_refl 1)
    | first :: second :: rest =>
      right
      simp only [shapeOf, Option.bind_eq_bind, Option.bind_eq_some_iff] at formed
      obtain ⟨block, inside, ⟨tmpVar, extended⟩, chosen, ⟨places, after'⟩, placed, free⟩ := formed
      split at free
      · cases free
      · rename_i kind
        cases free
        refine ⟨block, tmpVar, extended, places, after', inside, chosen, kind, placed, ?_⟩
        intro r w' value
        exact (turns_eq_iff m _ _ places 0 _).mp (right.2 r w' value)
  · intro condition
    match targets with
    | [] => exact ⟨.nothing, env, rfl, rfl, rfl⟩
    | [target] =>
      obtain ⟨place, after, found, _⟩ := place_found (assignable target List.mem_cons_self)
      have formed : shapeOf interned rhs [target] env = some (.single place, after) := by
        rw [shapeOf, found]
        rfl
      refine ⟨_, after, formed, ?_, single_right m place rhs w⟩
      rw [expands, formed]
      rfl
    | first :: second :: rest =>
      rcases condition with short | several
      · simp only [List.length_cons] at short
        omega
      · obtain ⟨block, tmpVar, extended, places, after, rfl, chosen, kind, placed, quiet⟩ := several
        have formed : shapeOf interned rhs (first :: second :: rest) (some block) =
            some (.several tmpVar places, after) := by
          simp only [shapeOf, Option.bind_eq_bind, Option.bind_some, chosen, placed, if_neg kind]
        refine ⟨_, after, formed, ?_, eval_several m tmpVar places rhs w, ?_⟩
        · rw [expands, formed]
          rfl
        · intro r w' value
          exact (turns_eq_iff m _ _ places 0 _).mpr (quiet r w' value)

end Run

section Sample

inductive SampleValue
  | number (i : Nat)
  | array (reference : Nat)
  deriving DecidableEq

structure SampleWorld where
  frame : Var → SampleValue
  arrays : List (List SampleValue)

/-- Arrays of numbers and arrays, which understand `at:put:`. -/
def sampleMachine : Machine SampleValue SampleWorld Empty where
  fetch w v := w.frame v
  assign w v x := { w with frame := fun u => if u = v then x else w.frame u }
  element w value i :=
    match value with
    | .array reference => w.arrays[reference]?.bind (·[i]?)
    | .number _ => none
  send selector values w :=
    match selector, values with
    | "at:put:", [.array reference, .number i, x] =>
      some (x, { w with arrays := w.arrays.modify reference (·.set i x) })
    | _, _ => none
  newArray values w := (.array w.arrays.length, { w with arrays := w.arrays ++ [values] })
  literal value :=
    match value with
    | .integer i => .number i
    | _ => .number 0
  context := .number 0
  nil := .number 0
  other node := nomatch node
  fetch_assign _ _ _ _ := rfl
  element_assign _ _ _ := rfl

def sampleX : Var := ⟨0, "x", .plain⟩

def sampleY : Var := ⟨1, "y", .plain⟩

def sampleScope : Scope := ⟨[sampleX, sampleY], [], 2⟩

def sampleWorld : SampleWorld := ⟨fun _ => .array 0, [[.array 1, .number 5], [.number 7, .number 8]]⟩

/-- An array of the variables in the other order is assigned to them. -/
theorem parallel_assignment_swap : Parallel sampleMachine (fun _ => true) (some sampleScope)
    [.load sampleX, .load sampleY] (.array [.load sampleY, .load sampleX]) sampleWorld := by
  have assignable : ∀ t ∈ [Node.load sampleX, Node.load sampleY],
      @Assignable Empty (fun _ => true) (some sampleScope) t := by
    intro t here
    simp only [List.mem_cons, List.not_mem_nil, or_false] at here
    rcases here with rfl | rfl
    · exact (by decide : sampleX.kind ≠ .binding)
    · exact (by decide : sampleY.kind ≠ .binding)
  apply (parallel_assignment_iff sampleMachine _ sampleWorld assignable).mpr
  right
  refine ⟨_, _, _, _, _, rfl, rfl, by decide, rfl, fun r w' value => ?_⟩
  apply variables_undisturbed
  · intro place here
    simp only [List.mem_cons, List.not_mem_nil, or_false] at here
    rcases here with rfl | rfl
    · exact ⟨sampleX, rfl, by decide⟩
    · exact ⟨sampleY, rfl, by decide⟩
  · rfl
  · rfl

/-- `{x. y} := x` and `{x at: 1. y} := x`. -/
theorem parallel_assignment_aliased :
    ¬ Parallel sampleMachine (fun _ => true) (some sampleScope)
      [.load sampleX, .load sampleY] (.load sampleX) sampleWorld ∧
    ¬ Parallel sampleMachine (fun _ => true) (some sampleScope)
      [.keyword "at:" [.load sampleX, .literal (.integer 1)], .load sampleY] (.load sampleX)
      sampleWorld := by
  constructor
  · rintro ⟨shape, after, formed, _, right⟩
    cases Option.some.inj formed
    have same := congrArg Prod.fst (right.2 _ _ rfl)
    exact absurd same (by decide)
  · rintro ⟨shape, after, formed, _, right⟩
    cases Option.some.inj formed
    have same := congrArg Prod.fst (right.2 _ _ rfl)
    exact absurd same (by decide)

end Sample

end SlateVm.Syntax
