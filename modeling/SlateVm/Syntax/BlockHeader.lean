import SlateVm.Syntax.Assignment

/-! The header of a block, which declares its variables, and how macros add variables to a block
later. `none` stands for a signalled error. -/
namespace SlateVm.Syntax

/-- A block with its variables. The locals of the scope are its `localVariables`. -/
structure Block extends Scope where
  inputVariables : List Var
  restVariable : Option Var
  optionalKeywords : List String
  optionalVariables : List Var

inductive Token
  | beginVariables
  | selector (value : String)
  | endVariables
  | other

inductive Mark
  | plain
  | input
  | optional
  | rest
  deriving DecidableEq

def isUnarySelector (isLetter : Char → Bool) (s : String) : Bool :=
  match s.toList with
  | [] => false
  | first :: others =>
    (isLetter first ∨ first = '_') ∧ (first :: others).getLast? ≠ some ':'

def declarationOf (isLetter : Char → Bool) (value : String) : Option (Mark × String) :=
  if isUnarySelector isLetter value then some (.plain, value)
  else
    match value.toList with
    | [] => none
    | first :: others =>
      let varName := String.ofList others
      if isUnarySelector isLetter varName then
        if first = '*' then some (.rest, varName)
        else if first = ':' then some (.input, varName)
        else if first = '&' then some (.optional, varName)
        else none
      else none

namespace Block

def newVariableNamed (block : Block) (name : String) : Var × Block :=
  (⟨block.next, name, .plain⟩, { block with next := block.next + 1 })

/-- A new variable whose name is not declared yet, unless it is `_`. -/
def undeclared (block : Block) (varName : String) : Option (Var × Block) :=
  if varName ≠ "_" ∧ block.locals.any (fun v => varName = v.name) then none
  else some (block.newVariableNamed varName)

/-- The variable among the locals, if it is `_` or its name is not there. -/
def withLocal (block : Block) (var : Var) : Block :=
  if var.name = "_" ∨ ¬ block.locals.any (fun v => var.name = v.name) then
    { block with locals := block.locals ++ [var] }
  else block

end Block

structure Header where
  block : Block
  inputVariables : List Var
  optKeywords : List String
  optVariables : List Var

namespace Header

def declare (h : Header) (mark : Mark) (name : String) : Option Header :=
  match mark with
  | .plain =>
    match h.block.locals.find? (fun v => name = v.name ∧ name ≠ "_") with
    | some var => some { h with block := h.block.withLocal var }
    | none =>
      let (var, block) := h.block.newVariableNamed name
      some { h with block := block.withLocal var }
  | .rest => do
    let (var, block) ← h.block.undeclared name
    some { h with block := { block with restVariable := some var }.withLocal var }
  | .input => do
    let (var, block) ← h.block.undeclared name
    some { h with inputVariables := h.inputVariables ++ [var], block := block.withLocal var }
  | .optional => do
    let (var, block) ← h.block.undeclared name
    some { h with
      optKeywords := h.optKeywords ++ ["&" ++ name]
      optVariables := h.optVariables ++ [var]
      block := block.withLocal var }

def declareAll (isLetter : Char → Bool) (h : Header) : List Token → Option (Header × List Token)
  | .selector value :: tokens => do
    let (mark, name) ← declarationOf isLetter value
    (← h.declare mark name).declareAll isLetter tokens
  | .endVariables :: tokens => some (h, tokens)
  | _ => none

def includes (vs : List Var) (var : Var) : Bool := vs.any fun v => v.name = var.name

def finish (h : Header) : Block :=
  let inputs := h.block.inputVariables ++ h.inputVariables
  let optionals := h.block.optionalVariables ++ h.optVariables
  { h.block with
    inputVariables := inputs
    optionalKeywords := h.block.optionalKeywords ++ h.optKeywords
    optionalVariables := optionals
    locals := inputs ++ optionals ++ h.block.restVariable.toList ++
      h.block.locals.filter fun var => !includes inputs var ∧ !includes optionals var ∧
        h.block.restVariable ≠ some var }

end Header

def nextBlock (isLetter : Char → Bool) (block : Block) :
    List Token → Option (Block × List Token)
  | .beginVariables :: tokens => do
    let (h, tokens) ← Header.declareAll isLetter ⟨block, [], [], []⟩ tokens
    some (h.finish, tokens)
  | tokens => some (Header.finish ⟨block, [], [], []⟩, tokens)

inductive Extension
  | addVariable
  | addVariableNamed (name : String) (varType : VariableKind)
  | addVariableObject (var : Var)
  | addInputVariable
  | addInputVariableNamed (name : String)
  | addOptionalKeyword (key name : String)
  | reverseInputs

namespace Block

/-- `addVariable:`. A renamed variable is renamed wherever it is. -/
def addVariableObject (block : Block) (var : Var) : Option Block := do
  let name ← block.nameFor var.name
  let renamed (v : Var) : Var := if v.number = var.number then { v with name := name } else v
  some { block with
    inputVariables := block.inputVariables.map renamed
    restVariable := block.restVariable.map renamed
    optionalVariables := block.optionalVariables.map renamed
    locals := block.locals.map renamed ++ [renamed var]
    next := max block.next (var.number + 1) }

def addInputVariableNamed (block : Block) (name : String) : Option Block := do
  let (var, scope) ← block.addVariableNamed name .plain
  some { block with toScope := scope, inputVariables := block.inputVariables ++ [var] }

def addOptionalKeyword (block : Block) (key name : String) : Option Block := do
  let (var, scope) ← block.addVariableNamed name .plain
  some { block with
    toScope := scope
    optionalKeywords := block.optionalKeywords ++ [key]
    optionalVariables := block.optionalVariables ++ [var] }

/-- `reverseInputs` is what `commutatively` does to the copy of a method. -/
def extend (block : Block) : Extension → Option Block
  | .addVariable => block.addVariable.map fun added => { block with toScope := added.2 }
  | .addVariableNamed name varType =>
    (block.addVariableNamed name varType).map fun added => { block with toScope := added.2 }
  | .addVariableObject var => block.addVariableObject var
  | .addInputVariable => do block.addInputVariableNamed (← block.uniqueVariableName)
  | .addInputVariableNamed name => block.addInputVariableNamed name
  | .addOptionalKeyword key name => block.addOptionalKeyword key name
  | .reverseInputs => some { block with inputVariables := block.inputVariables.reverse }

end Block

end SlateVm.Syntax
