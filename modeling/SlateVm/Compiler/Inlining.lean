import SlateVm.Compiler.Generate

/-! The selectors with a generation of their own. Where its conditions are not met the message is
generated as any other, which is the `resend` of the source. -/
namespace SlateVm.Compiler
open Generator

inductive Inlined where
  | applyStar | applyWith | applyWithWith | applyTo
  | do_ | primitiveApplyStar | true_ | false_ | nil_ | identical | loop | isNil
  | caseOfOtherwise | caseOf
  | ifTrueIfFalse | ifTrue | ifFalse | ifNilIfNotNil | ifNil | ifNotNil | and_ | or_
  | whileTrueDo | whileFalseDo | whileTrue | whileFalse
  | primitiveDo | fillWith | fillLast
  deriving DecidableEq

def inlinedSelectors : List (String × Inlined) := [
  ("apply*", .applyStar), ("applyWith:", .applyWith), ("applyWith:with:", .applyWithWith),
  ("applyTo:", .applyTo), ("do", .do_), ("primitiveApply*", .primitiveApplyStar),
  ("True", .true_), ("False", .false_), ("Nil", .nil_), ("==", .identical), ("loop", .loop),
  ("isNil", .isNil), ("caseOf:otherwise:", .caseOfOtherwise), ("caseOf:", .caseOf),
  ("ifTrue:ifFalse:", .ifTrueIfFalse), ("ifTrue:", .ifTrue), ("ifFalse:", .ifFalse),
  ("ifNil:ifNotNil:", .ifNilIfNotNil), ("ifNil:", .ifNil), ("ifNotNil:", .ifNotNil),
  ("/\\", .and_), ("\\/", .or_), ("whileTrue:", .whileTrueDo), ("whileFalse:", .whileFalseDo),
  ("whileTrue", .whileTrue), ("whileFalse", .whileFalse), ("primitiveDo:", .primitiveDo),
  ("fill:with:", .fillWith), ("<-*", .fillLast)]

section Branches

/-- `emitBranchIfTrue:to:fromSource:` and `emitBranchIfFalse:to:fromSource:`. -/
def emitBranchIf (wanted : Bool) (condition : Operand) (label : Nat) (node : Node) : Gen Unit := do
  emit (if wanted then branchIfTrue else branchIfFalse) [.operand condition] node
  emitBranchTo label

/-- `gen emit: gen jumpTo fromSource: node` is sent with a number, and only instructions
understand that. -/
def emitJumpToLabel : Gen Unit := throw (.methodNotFound "emit:fromSource:")

/-- `ifNil: [error: 'conditional is nil: ' ; ...]` -/
def checkCondition (condition : Operand) : Gen Unit :=
  if condition = .nil then throw (.error "conditional is nil: ") else pure ()

end Branches

section Templates

/-- `isSameAs: nodes Block` of some arguments, in order until one is no literal block. -/
def literalBlocks (args : List Node) : List Nat → Gen Bool
  | [] => pure true
  | index :: rest => do
    let arg ← argument args index
    if arg.asBlock.isSome then literalBlocks args rest else pure false

variable (generate : Generate)

def inPlace {α : Type} (scope : ScopeId) (statements : Gen α) : Gen α := do
  modifyContext fun c => { c with inlined := scope :: c.inlined }
  let a ← statements
  modifyContext fun c => { c with inlined := c.inlined.tail }
  return a

def canInlineDo (args : List Node) : Gen (Option (ScopeId × List Node)) := do
  let block ← argument args 0
  let gen ← get
  return block.asBlock.filter fun (scope, _) => (gen.scopes scope).localVariables.isEmpty

def generateDo (args : List Node) (source : Source) (result : Option Operand) : Gen Operand := do
  match ← canInlineDo args with
  | none => generateSend generate "do" args source result
  | some (scope, statements) =>
    let result ← defaultRegister result
    if statements.isEmpty then
      emit loadLiteral [.operand result, .literal .nil] source.node
      return result
    else inPlace scope (generateStatements generate statements (some result))

def generateExecutionOf := generateDo

section Applications

def generateApply (method : Node) (args : List Node) (source : Source)
    (result : Option Operand) : Gen Operand := do
  let result ← defaultRegister result
  let methodReg ← generate method none
  let argRegs ← generateArguments generate args
  emit directApplyTo ([.operand methodReg, .number argRegs.length, .operand result] ++
    argRegs.map .operand) source.node
  return result

def generateApplyStar (args : List Node) (source : Source) (result : Option Operand) :
    Gen Operand := do
  generateApply generate (← argument args 0) args.tail source result

/-- `argRegs` is no variable of this method, and the compiler has no method of that name. -/
def generateApplyWith (args : List Node) (result : Option Operand) : Gen Operand := do
  let _ ← defaultRegister result
  let _ ← generate (← argument args 0) none
  let _ ← generate (← argument args 1) none
  throw (.methodNotFound "argRegs")

def generateApplyWithWith (args : List Node) (source : Source) (result : Option Operand) :
    Gen Operand := do
  generateApply generate (← argument args 0) args.tail source result

def generateApplyTo (args : List Node) (source : Source) (result : Option Operand) :
    Gen Operand := do
  match ← argument args 1 with
  | .array elements => generateApply generate (← argument args 0) elements source result
  | _ => generateSend generate "applyTo:" args source result

def generatePrimitive (args : List Node) (source : Source) (result : Option Operand) :
    Gen Operand := do
  let result ← defaultRegister result
  let indexReg ← generate (← argument args 0) none
  let statements ← orSignal (.methodNotFound "statements") (← argument args 1).statements
  let argRegs ← generateArguments generate statements
  emit primitiveDo ([.operand indexReg, .number argRegs.length, .operand result] ++
    argRegs.map .operand) source.node
  return result

def generatePrimitiveApplyStar := generatePrimitive
def generatePrimitiveDo := generatePrimitive

end Applications

def generateGlobal (selector : String) (value : Literal) (args : List Node) (source : Source)
    (result : Option Operand) : Gen Operand := do
  match ← argument args 0 with
  | .implicitArgument => registerFor value source.node result
  | _ => generateSend generate selector args source result

def generateIdentical (args : List Node) (source : Source) (result : Option Operand) :
    Gen Operand := do
  let result ← defaultRegister result
  let argRegs ← generateArguments generate args
  let x ← orSignal .indexOutOfBounds argRegs[0]?
  let y ← orSignal .indexOutOfBounds argRegs[1]?
  emit isIdenticalTo [.operand result, .operand x, .operand y] source.node
  return result

def generateIsNil (args : List Node) (source : Source) (result : Option Operand) :
    Gen Operand := do
  let result ← defaultRegister result
  let objReg ← generate (← argument args 0) none
  emit isNilOp [.operand result, .operand objReg] source.node
  return result

def generateLoop (args : List Node) (source : Source) (result : Option Operand) : Gen Operand := do
  let _ ← emitLabel
  let _ ← generateExecutionOf generate args source none
  emitJumpToLabel
  registerFor .nil source.node result

section Cases

/-- `mayInlineCaseOf:` asks the node, not the arguments. -/
def mayInlineCaseOf (source : Source) : Gen Bool := do
  match ← argument source.arguments 1 with
  | .array statements =>
    return statements.all fun assoc =>
      match assoc.asMessage with
      | some ("->", .literal (.symbol _) :: _) | some ("->", .literal (.character _) :: _)
      | some ("->", .literal (.integer _) :: _) => true
      | _ => false
  | _ => return false

/-- `(assocs collect: [| :assoc | assoc arguments first value])` -/
def caseKeys (node : Node) : List Literal :=
  (node.statements.getD []).filterMap fun assoc =>
    match assoc.asMessage with
    | some (_, .literal key :: _) => some key
    | _ => none

/-- What `buildBranchTableMapping:` signals. -/
def checkDuplicates (keys : List Literal) : Gen Unit :=
  if keys.Nodup then pure () else throw (.error "Duplicate key in caseOf:.")

/-- `emitInstruction:fromSource:` is not defined. What comes after it never runs. -/
def generateCaseOfOtherwise (args : List Node) (source : Source) (result : Option Operand) :
    Gen Operand := do
  if ← mayInlineCaseOf source then
    let cases ← argument args 1
    let _ ← (caseKeys cases).mapM fun _ => newLabelIndex
    let _ ← defaultRegister result
    checkDuplicates (caseKeys cases)
    let _ ← generate (← argument args 0) none
    throw (.methodNotFound "emitInstruction:fromSource:")
  else generateSend generate "caseOf:otherwise:" args source result

def generateCaseOf (args : List Node) (source : Source) (result : Option Operand) :
    Gen Operand := do
  if ← mayInlineCaseOf source then generateCaseOfOtherwise generate args source result
  else generateSend generate "caseOf:" args source result

end Cases

def generateConditional (selector : String) (wanted : Bool) (otherwise : Literal)
    (args : List Node) (source : Source) (result : Option Operand) : Gen Operand := do
  if ← literalBlocks args [1] then
    let falseLabel ← newLabelIndex
    let endLabel ← newLabelIndex
    let result ← defaultRegister result
    let condReg ← generate (← argument args 0) none
    checkCondition condReg
    emitBranchIf (!wanted) condReg falseLabel source.node
    let _ ← generateExecutionOf generate [← argument args 1] source (some result)
    emitJumpToLabel
    emitLabelIndex falseLabel
    let _ ← registerFor otherwise source.node (some result)
    emitLabelIndex endLabel
    return result
  else generateSend generate selector args source result

def generateIfTrue := generateConditional generate "ifTrue:" true .nil
def generateIfFalse := generateConditional generate "ifFalse:" false .nil
def generateAnd := generateConditional generate "/\\" true (.boolean false)
def generateOr := generateConditional generate "\\/" false (.boolean true)

def generateIfTrueIfFalse (args : List Node) (source : Source) (result : Option Operand) :
    Gen Operand := do
  if ← literalBlocks args [1, 2] then
    let falseLabel ← newLabelIndex
    let endLabel ← newLabelIndex
    let result ← defaultRegister result
    let condReg ← generate (← argument args 0) none
    checkCondition condReg
    emitBranchIf false condReg falseLabel source.node
    let _ ← generateExecutionOf generate [← argument args 1] source (some result)
    emitJumpToLabel
    emitLabelIndex falseLabel
    let _ ← generateExecutionOf generate [← argument args 2] source (some result)
    emitLabelIndex endLabel
    return result
  else generateSend generate "ifTrue:ifFalse:" args source result

def generateNilTest (wanted : Bool) (label : Nat) (receiver : Node) (source : Source)
    (result : Operand) : Gen Unit := do
  let lhsValueReg ← generate receiver (some result)
  let condReg ← newRegister
  emit isNilOp [.operand condReg, .operand lhsValueReg] source.node
  emitBranchIf (!wanted) condReg label source.node

def generateIfNilIfNotNil (args : List Node) (source : Source) (result : Option Operand) :
    Gen Operand := do
  if ← literalBlocks args [1, 2] then
    let falseLabel ← newLabelIndex
    let endLabel ← newLabelIndex
    let result ← defaultRegister result
    generateNilTest generate true falseLabel (← argument args 0) source result
    let _ ← generateExecutionOf generate [← argument args 1] source (some result)
    emitJumpToLabel
    emitLabelIndex falseLabel
    let _ ← generateExecutionOf generate [← argument args 2] source (some result)
    emitLabelIndex endLabel
    return result
  else generateSend generate "ifNil:ifNotNil:" args source result

def generateNilConditional (selector : String) (wanted : Bool) (args : List Node)
    (source : Source) (result : Option Operand) : Gen Operand := do
  if ← literalBlocks args [1] then
    let endLabel ← newLabelIndex
    let result ← defaultRegister result
    generateNilTest generate wanted endLabel (← argument args 0) source result
    let _ ← generateExecutionOf generate [← argument args 1] source (some result)
    emitLabelIndex endLabel
    return result
  else generateSend generate selector args source result

def generateIfNil := generateNilConditional generate "ifNil:" true
def generateIfNotNil := generateNilConditional generate "ifNotNil:" false

def generateWhileDo (selector : String) (wanted : Bool) (args : List Node) (source : Source)
    (result : Option Operand) : Gen Operand := do
  if ← literalBlocks args [0, 1] then
    let endLabel ← newLabelIndex
    let _ ← emitLabel
    let condReg ← generateExecutionOf generate [← argument args 0] source none
    checkCondition condReg
    emitBranchIf (!wanted) condReg endLabel source.node
    let _ ← generateExecutionOf generate [← argument args 1] source none
    emitJumpToLabel
    emitLabelIndex endLabel
    registerFor .nil source.node result
  else generateSend generate selector args source result

def generateWhileTrueDo := generateWhileDo generate "whileTrue:" true
def generateWhileFalseDo := generateWhileDo generate "whileFalse:" false

def generateWhile (selector : String) (wanted : Bool) (args : List Node) (source : Source)
    (result : Option Operand) : Gen Operand := do
  if ← literalBlocks args [0] then
    let label ← emitLabel
    let condReg ← generateExecutionOf generate args source none
    checkCondition condReg
    emitBranchIf wanted condReg label source.node
    registerFor .nil source.node result
  else generateSend generate selector args source result

def generateWhileTrue := generateWhile generate "whileTrue" true
def generateWhileFalse := generateWhile generate "whileFalse" false

section Filling

/-- What is stored for a value that is no literal: a new variable of the current method, which
gets the value first. -/
def fillValue (value : Node) : Gen Node := do
  match value with
  | .literal _ => return value
  | _ =>
    let tempVar ← addVariable (← currentMethod).sourceTree
    let store := Node.store tempVar value
    let _ ← generate store none
    return .load tempVar

/-- The input at the index of a literal block becomes a local that is set first. No index below
one `isPositive`, so the first input is never filled. -/
def generateFillWith (args : List Node) (source : Source) (result : Option Operand) :
    Gen Operand := do
  let block ← argument args 0
  let index ← argument args 1
  let value ← argument args 2
  match block, index with
  | .block scope statements, .literal (.integer index) =>
    let vars := (← get).scopes scope
    if 0 < index ∧ index < vars.inputVariables.length then
      let value ← fillValue generate value
      let vars := (← get).scopes scope
      let var ← orSignal .indexOutOfBounds vars.inputVariables[index.toNat]?
      modify fun gen => gen.setScope scope (vars.dropInput index.toNat var)
      generate (.block scope (.store var value :: statements)) result
    else generateSend generate "fill:with:" args source result
  | _, _ => generateSend generate "fill:with:" args source result

def generateFillLast (args : List Node) (source : Source) (result : Option Operand) :
    Gen Operand := do
  let block ← argument args 0
  match block with
  | .block scope _ =>
    let last := ((← get).scopes scope).inputVariables.length - (1 : Int)
    generateFillWith generate (args.insertIdx 1 (.literal (.integer last))) source result
  | _ => generateSend generate "<-*" args source result

end Filling

def generateInlined (inlined : Inlined) (args : List Node) (source : Source)
    (result : Option Operand) : Gen Operand :=
  match inlined with
  | .applyStar => generateApplyStar generate args source result
  | .applyWith => generateApplyWith generate args result
  | .applyWithWith => generateApplyWithWith generate args source result
  | .applyTo => generateApplyTo generate args source result
  | .do_ => generateDo generate args source result
  | .primitiveApplyStar => generatePrimitiveApplyStar generate args source result
  | .true_ => generateGlobal generate "True" (.boolean true) args source result
  | .false_ => generateGlobal generate "False" (.boolean false) args source result
  | .nil_ => generateGlobal generate "Nil" .nil args source result
  | .identical => generateIdentical generate args source result
  | .loop => generateLoop generate args source result
  | .isNil => generateIsNil generate args source result
  | .caseOfOtherwise => generateCaseOfOtherwise generate args source result
  | .caseOf => generateCaseOf generate args source result
  | .ifTrueIfFalse => generateIfTrueIfFalse generate args source result
  | .ifTrue => generateIfTrue generate args source result
  | .ifFalse => generateIfFalse generate args source result
  | .ifNilIfNotNil => generateIfNilIfNotNil generate args source result
  | .ifNil => generateIfNil generate args source result
  | .ifNotNil => generateIfNotNil generate args source result
  | .and_ => generateAnd generate args source result
  | .or_ => generateOr generate args source result
  | .whileTrueDo => generateWhileTrueDo generate args source result
  | .whileFalseDo => generateWhileFalseDo generate args source result
  | .whileTrue => generateWhileTrue generate args source result
  | .whileFalse => generateWhileFalse generate args source result
  | .primitiveDo => generatePrimitiveDo generate args source result
  | .fillWith => generateFillWith generate args source result
  | .fillLast => generateFillLast generate args source result

def generateOn (selector : String) (args : List Node) (source : Source)
    (result : Option Operand) : Gen Operand :=
  match inlinedSelectors.lookup selector with
  | some inlined => generateInlined generate inlined args source result
  | none => generateSend generate selector args source result

/-- A message is generated with the flag `&result`, whatever result was asked for. -/
def generateMessage (node : Node) (selector : String) (args : List Node) : Gen Operand :=
  generateOn generate selector args ⟨node, args, none⟩ (some .true)

/-- `generate: optionals message &result: result &optionals: optionals`: only messages and
deferred messages have that option. -/
def generateOptionals (node message : Node) (keywords : List String) (arguments : List Node)
    (result : Option Operand) : Gen Operand :=
  match message with
  | .message selector args =>
    generateOn generate selector args ⟨node, arguments, some (keywords.zip arguments)⟩ (some .true)
  | .deferred .. => throw (.methodNotFound "OptionalArguments")
  | message => generate message result

/-- The message of `RestArguments` is asked for its selector and its arguments, which are the
optional ones when it has some. The parser puts nothing else there. -/
def generateRest (message : Node) (rest : List Node) (result : Option Operand) : Gen Operand :=
  match message with
  | .message selector args | .macro_ selector args | .deferred selector args =>
    generateOn generate selector (args ++ rest) ⟨message, args, none⟩ result
  | .optionalKeywords inner keywords args => do
    let (selector, _) ← orSignal (.methodNotFound "selector") inner.asMessage
    generateOn generate selector (args ++ rest) ⟨message, args, some (keywords.zip args)⟩ result
  | _ => throw (.methodNotFound "selector")

def generateDeferred (selector : String) (args : List Node) (result : Option Operand) :
    Gen Operand := do
  let parent := (← currentMethod).sourceTree
  let block ← newBlock parent args.length
  let loads := ((← get).scopes block).inputVariables.map .load
  generate (.message "whenFulfilled:" [.array args, .block block [.message selector loads]]) result

end Templates

def generate : Nat → Node → Option Operand → Gen Operand
  | 0, _, _ => throw .exhausted
  | fuel + 1, node, result =>
    match node with
    | .literal value => registerFor value node result
    | .implicitArgument => do
      let result ← defaultRegister result
      emit loadEnvironment [.operand result] node
      return result
    | .load var => generateLoad node var result
    | .store var value => generateStore (generate fuel) node var value result
    | .message selector args => generateMessage (generate fuel) node selector args
    | .macro_ _ _ => throw (.error "Cannot support macroexpansion at code generation time because of localVariable side-effects")
    | .deferred selector args => generateDeferred (generate fuel) selector args result
    | .optionalKeywords message keywords args =>
      generateOptionals (generate fuel) node message keywords args result
    | .restArguments message rest => generateRest (generate fuel) message rest result
    | .array statements => generateArray (generate fuel) node statements result
    | .parenthesis statements => generateParenthesis (generate fuel) statements result
    | .block scope statements => generateBlock (generate fuel) scope statements node result
    | .methodDefinition _ selector roles _ =>
      generateMethodDefinition (generate fuel) node selector roles result
    | .returnClose value => generateReturnClose (generate fuel) node value result
    | .returnFar value => generateReturnFar (generate fuel) node value result
    | .returnLevel level value => generateReturnBy (generate fuel) node value level result
    | .resend => generateResend node result
    | .annotated value => generate fuel value none
    | .other => pure .nil

/-- `SSAVM Compiler new generate: block`, for a block or a method definition. -/
def compile (fuel : Nat) (scopes : ScopeId → Scope) (nextScope : ScopeId) (root : Node) :
    Except Signal (MethodId × Generator) :=
  match root with
  | .block scope statements | .methodDefinition scope _ _ statements =>
    ((generateMethod (generate fuel) scope statements root).run
      ⟨[], [], scopes, nextScope, []⟩).map fun ((method, _), gen) => (method, gen)
  | _ => .error (.error "do not call generate without a result")

end SlateVm.Compiler
