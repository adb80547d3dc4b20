import Mathlib.Data.List.Basic

/-! The macro `:=`, which turns a target and a value into code that stores the value, and what the
nodes evaluate to. `none` stands for a signalled error. -/
namespace SlateVm.Syntax

inductive VariableKind
  | plain
  | binding
  | rest
  deriving DecidableEq

/-- The number tells apart variables that have the same name. -/
structure Var where
  number : Nat
  name : String
  kind : VariableKind
  deriving DecidableEq

inductive Literal
  | symbol (name : String)
  | string (characters : String)
  | integer (i : Nat)
  | other
  deriving DecidableEq

/-- `Other` has the nodes that are no targets and that no expansion contains. -/
inductive Node (Other : Type) where
  | load (var : Var)
  | store (var : Var) (value : Node Other)
  | literal (value : Literal)
  | unary (selector : String) (argument : Node Other)
  | keyword (selector : String) (arguments : List (Node Other))
  | array (statements : List (Node Other))
  | parenthesis (statements : List (Node Other))
  | implicitArgument
  | placeholder
  | other (node : Other)

/-- A block whose locals the macro adds to, with the names that its outer scopes have. -/
structure Scope where
  locals : List Var
  outer : List String
  next : Nat

namespace Scope

def finds (block : Scope) (name : String) : Bool :=
  block.locals.any (fun v => name = v.name) ∨ name ∈ block.outer

def uniqueVariableName (block : Scope) : Option String :=
  ((List.range 100).map fun nameIndex : Nat => "_" ++ toString nameIndex).find? fun name =>
    !block.finds name

def nameFor (block : Scope) (name : String) : Option String :=
  if block.locals.any (fun v => v.name = name) then block.uniqueVariableName else some name

def addVariableOf (block : Scope) (name : String) (varType : VariableKind) :
    Option (Var × Scope) := do
  let name ← block.nameFor name
  let var : Var := ⟨block.next, name, varType⟩
  some (var, { block with locals := block.locals ++ [var], next := block.next + 1 })

def addVariableNamed (block : Scope) (name : String) (varType : VariableKind) :
    Option (Var × Scope) :=
  match block.locals.find? (fun v => v.name = name ∧ v.kind = varType) with
  | some var => some (var, block)
  | none => block.addVariableOf name varType

def addVariable (block : Scope) : Option (Var × Scope) := do
  block.addVariableNamed (← block.uniqueVariableName) .plain

end Scope

section Macro

variable {Other : Type}

def Var.storing (var : Var) (value : Node Other) : Option (Node Other) :=
  if var.kind = .binding then none else some (.store var value)

def putSelector (interned : String → Bool) (selector : String) : Option String :=
  if selector ∈ ["atSlotNamed:", "at:", "byteAt:", "wordAt:"] then some (selector ++ "put:")
  else if interned (selector ++ "put:") then some (selector ++ "put:")
  else none

def Node.isImplicit : Node Other → Bool
  | .implicitArgument => true
  | _ => false

def temporary (vals : Node Other) (env : Scope) : Option (Var × Scope) :=
  match vals with
  | .load var => some (var, env)
  | _ => env.addVariable

def elementOf (tmpVar : Var) (index : Nat) : Node Other :=
  .keyword "at:" [.load tmpVar, .literal (.integer index)]

variable (interned : String → Bool)

mutual

def Node.setTo : Node Other → Node Other → Option Scope → Option (Node Other × Option Scope)
  | .load var, val, env => do some (← var.storing val, env)
  | .unary selector argument, val, env =>
    match env with
    | none => some (.keyword (selector ++ ":") [argument, val], env)
    | some block =>
      if argument.isImplicit then do
        let (var, block) ← block.addVariableNamed selector .plain
        some (← var.storing val, some block)
      else some (.keyword (selector ++ ":") [argument, val], env)
  | .keyword selector arguments, val, env => do
    some (.keyword (← putSelector interned selector) (arguments ++ [val]), env)
  | .literal (.symbol name), val, env =>
    some (.keyword "addSlot:valued:" [.implicitArgument, .literal (.symbol name), val], env)
  | .literal (.string name), val, env =>
    some (.keyword "addSlot:valued:" [.implicitArgument, .literal (.symbol name), val], env)
  | .literal (.integer i), val, env =>
    some (.keyword "at:put:" [.implicitArgument, .literal (.integer i), val], env)
  | .placeholder, val, env => some (val, env)
  | .parenthesis statements, val, env => do
    let (statements, env) ← setEach statements (fun _ => val) 0 env
    some (.parenthesis statements, env)
  | .array [], vals, env => some (vals, env)
  | .array [statement], vals, env => statement.setTo (.unary "first" vals) env
  | .array (statement :: statements), vals, some block => do
    let (tmpVar, block) ← temporary vals block
    let (statements, env) ← setEach (statement :: statements) (elementOf tmpVar) 0 (some block)
    some (.parenthesis [← tmpVar.storing vals, .array statements], env)
  | _, _, _ => none

def setEach : List (Node Other) → (Nat → Node Other) → Nat → Option Scope →
    Option (List (Node Other) × Option Scope)
  | [], _, _, env => some ([], env)
  | statement :: statements, value, index, env => do
    let (result, env) ← statement.setTo (value index) env
    let (results, env) ← setEach statements value (index + 1) env
    some (result :: results, env)

end

end Macro

/-- What the nodes leave to the objects. Reading an element and storing into a variable do nothing
else. -/
structure Machine (Value World Other : Type) where
  fetch : World → Var → Value
  assign : World → Var → Value → World
  element : World → Value → Nat → Option Value
  send : String → List Value → World → Option (Value × World)
  newArray : List Value → World → Value × World
  literal : Literal → Value
  context : Value
  nil : Value
  other : Other → World → Option (Value × World)
  fetch_assign : ∀ w v x u, fetch (assign w v x) u = if u = v then x else fetch w u
  element_assign : ∀ w v x, element (assign w v x) = element w

section Evaluation

variable {Value World Other : Type} (m : Machine Value World Other)

mutual

def Node.eval : Node Other → World → Option (Value × World)
  | .load var, w => some (m.fetch w var, w)
  | .store var value, w => do
    let (v, w) ← value.eval w
    some (v, m.assign w var v)
  | .literal value, w => some (m.literal value, w)
  -- `first` and `at:` with an index read an element.
  | .unary "first" argument, w => do
    let (v, w) ← argument.eval w
    some (← m.element w v 0, w)
  | .unary selector argument, w => do
    let (v, w) ← argument.eval w
    m.send selector [v] w
  | .keyword "at:" [argument, .literal (.integer index)], w => do
    let (v, w) ← argument.eval w
    some (← m.element w v index, w)
  | .keyword selector arguments, w => do
    let (vs, w) ← evalAll arguments w
    m.send selector vs w
  | .array statements, w => do
    let (vs, w) ← evalAll statements w
    some (m.newArray vs w)
  | .parenthesis statements, w => do
    let (vs, w) ← evalAll statements w
    some (vs.getLastD m.nil, w)
  | .implicitArgument, w => some (m.context, w)
  | .placeholder, _ => none
  | .other node, w => m.other node w

def evalAll : List (Node Other) → World → Option (List Value × World)
  | [], w => some ([], w)
  | node :: nodes, w => do
    let (v, w) ← node.eval w
    let (vs, w) ← evalAll nodes w
    some (v :: vs, w)

end

end Evaluation

end SlateVm.Syntax
