import SlateVm.Compiler.Tree
import Mathlib.Logic.Function.Basic

/-! What trees mean: every argument is evaluated to a value, from left to right, before a message
is sent. What each send answers is given, and sends leave the variables alone; only the control
structures run the blocks they get, as their methods in the library do. -/
namespace SlateVm.Compiler

inductive Datum where
  | literal (value : Literal)
  | environment
  | array (elements : List Datum)
  | closure (scope : ScopeId)

structure Sent where
  selector : String
  arguments : List Datum
  optionals : List (String × Datum)

structure Progress where
  vars : Variable → Datum
  sent : List Sent

/-- The scope that is left with a value, seen from the block that is evaluated. -/
inductive Exit where
  | close
  | far
  | level (n : Nat)
  deriving DecidableEq

inductive Stop where
  | returned (target : Exit) (value : Datum)
  | notABoolean
  | wrongInputs
  | noMeaning
  | exhausted

abbrev Evaluation := ExceptT Stop (StateM Progress)

abbrev Evaluate := Node → Evaluation Datum

section Evaluate

variable (scopes : ScopeId → Scope) (answer : Nat → Literal) (evaluate : Evaluate)

def evaluateSend (selector : String) (args : List Datum) (optionals : List (String × Datum)) :
    Evaluation Datum := do
  let number := (← get).sent.length
  modify fun progress => { progress with sent := progress.sent ++ [⟨selector, args, optionals⟩] }
  return .literal (answer number)

def evaluateStatements (statements : List Node) : Evaluation Datum := do
  let values ← statements.mapM evaluate
  return values.getLast?.getD (.literal .nil)

def leaving (body : Evaluation Datum) : Evaluation Datum :=
  tryCatch body fun
    | .returned (.level 0) value => pure value
    | .returned (.level (n + 1)) value => throw (.returned (.level n) value)
    | stop => throw stop

/-- `do` sent to the closure of a literal block, whose variables are new. -/
def evaluateDo (block : Node) : Evaluation Datum :=
  match block with
  | .block scope statements =>
    if (scopes scope).inputVariables.isEmpty then do
      modify fun progress => { progress with vars := fun var =>
        if var ∈ (scopes scope).localVariables then .literal .nil else progress.vars var }
      leaving (evaluateStatements evaluate statements)
    else throw .wrongInputs
  | _ => throw .noMeaning

def truth : Datum → Evaluation Bool
  | .literal (.boolean b) => pure b
  | _ => throw .notABoolean

def Datum.isNil : Datum → Bool
  | .literal .nil => true
  | _ => false

def association : Node → Option (Literal × Node)
  | .message "->" [.literal key, block] => some (key, block)
  | _ => none

def Datum.isLiteral (value : Literal) : Datum → Bool
  | .literal v => v == value
  | _ => false

/-- The control structures with literal blocks, by the methods for them; the loops evaluate the
message again. -/
def evaluateControl (selector : String) (args : List Node) : Evaluation Datum :=
  let again := evaluate (.message selector args)
  let run := evaluateDo scopes evaluate
  match selector, args with
  | "do", [block] => run block
  | "loop", [block] => do let _ ← run block; again
  | "ifTrue:", [receiver, block] => do
    if ← truth (← evaluate receiver) then run block else return .literal .nil
  | "ifFalse:", [receiver, block] => do
    if ← truth (← evaluate receiver) then return .literal .nil else run block
  | "ifTrue:ifFalse:", [receiver, first, second] => do
    if ← truth (← evaluate receiver) then run first else run second
  | "ifNil:", [receiver, block] => do
    let value ← evaluate receiver
    if value.isNil then run block else return value
  | "ifNotNil:", [receiver, block] => do
    let value ← evaluate receiver
    if value.isNil then return value else run block
  | "ifNil:ifNotNil:", [receiver, first, second] => do
    if (← evaluate receiver).isNil then run first else run second
  | "/\\", [receiver, block] => do
    if ← truth (← evaluate receiver) then run block else return .literal (.boolean false)
  | "\\/", [receiver, block] => do
    if ← truth (← evaluate receiver) then return .literal (.boolean true) else run block
  | "whileTrue:", [condition, block] => do
    if ← truth (← run condition) then do let _ ← run block; again else return .literal .nil
  | "whileFalse:", [condition, block] => do
    if ← truth (← run condition) then return .literal .nil else do let _ ← run block; again
  | "whileTrue", [condition] => do
    if ← truth (← run condition) then again else return .literal .nil
  | "whileFalse", [condition] => do
    if ← truth (← run condition) then return .literal .nil else again
  | "caseOf:", [key, .array cases] => do
    let key ← evaluate key
    match (cases.filterMap association).find? fun (literal, _) => key.isLiteral literal with
    | some (_, block) => run block
    | none => return .literal .nil
  | "caseOf:otherwise:", [key, .array cases, otherwise] => do
    let key ← evaluate key
    match (cases.filterMap association).find? fun (literal, _) => key.isLiteral literal with
    | some (_, block) => run block
    | none => run otherwise
  | _, _ => throw .noMeaning

def isCase (assoc : Node) : Bool := (association assoc).any fun (_, block) => block.asBlock.isSome

def isControl (selector : String) (args : List Node) : Bool :=
  match selector, args with
  | "do", [block] | "loop", [block] | "whileTrue", [block] | "whileFalse", [block]
  | "ifTrue:", [_, block] | "ifFalse:", [_, block] | "ifNil:", [_, block] | "ifNotNil:", [_, block]
  | "/\\", [_, block] | "\\/", [_, block] => block.asBlock.isSome
  | "ifTrue:ifFalse:", [_, first, second] | "ifNil:ifNotNil:", [_, first, second]
  | "whileTrue:", [first, second] | "whileFalse:", [first, second] =>
    first.asBlock.isSome && second.asBlock.isSome
  | "caseOf:", [_, .array cases] => cases.all isCase
  | "caseOf:otherwise:", [_, .array cases, otherwise] =>
    cases.all isCase && otherwise.asBlock.isSome
  | _, _ => false

def evaluateMessage (selector : String) (args : List Node) (keywords : List String)
    (optionals : List Node) : Evaluation Datum := do
  let values ← args.mapM evaluate
  let optionals ← optionals.mapM evaluate
  evaluateSend answer selector values (keywords.zip optionals)

end Evaluate

def evaluate (scopes : ScopeId → Scope) (answer : Nat → Literal) : Nat → Evaluate
  | 0, _ => throw .exhausted
  | fuel + 1, node =>
    let evaluate := evaluate scopes answer fuel
    match node with
    | .literal value => return .literal value
    | .implicitArgument => return .environment
    | .load var => return (← get).vars var
    | .store var value => do
      let value ← evaluate value
      modify fun progress => { progress with vars := Function.update progress.vars var value }
      return value
    | .message selector args =>
      if isControl selector args then evaluateControl scopes evaluate selector args
      else evaluateMessage answer evaluate selector args [] []
    | .optionalKeywords (.message selector args) keywords optionals =>
      evaluateMessage answer evaluate selector args keywords optionals
    | .restArguments (.message selector args) rest =>
      evaluateMessage answer evaluate selector (args ++ rest) [] []
    | .array statements => return .array (← statements.mapM evaluate)
    | .parenthesis statements => evaluateStatements evaluate statements
    | .block scope _ => return .closure scope
    | .returnClose value => do throw (.returned .close (← evaluate value))
    | .returnFar value => do throw (.returned .far (← evaluate value))
    | .returnLevel level value => do throw (.returned (.level level) (← evaluate value))
    | .annotated value => evaluate value
    | _ => throw .noMeaning

end SlateVm.Compiler
