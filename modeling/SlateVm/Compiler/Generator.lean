import SlateVm.Compiler.Tree

/-! The table of the instructions, and what a code array is made of. -/
namespace SlateVm.Compiler

structure Instruction where
  code : Nat
  selector : String
  name : String
  argNames : List String
  offsettingArgIndices : List Nat
  deriving DecidableEq

/-- `SSAVM Code Instruction instancesSetting:to:`; a row without a last column gets `{}`. -/
def instructions : List Instruction := [
  ⟨0, "directSendMessage", "Direct Send", ["register of result", "selector", "arity"], [2]⟩,
  ⟨3, "loadLiteral", "Load Literal", ["register of result", "index of literal"], []⟩,
  ⟨5, "sendMessageWithOptionals", "Send with Optionals",
    ["register of result", "selector", "arity", "register of optionals array"], [2]⟩,
  ⟨7, "newClosure", "New Closure", ["register of result", "block"], []⟩,
  ⟨8, "newArrayWith", "New Array With", ["register of result", "size"], [1]⟩,
  ⟨9, "resendMessage", "Resend", ["register of result", "lexical offset"], []⟩,
  ⟨10, "returnFrom", "Return From", ["register of result", "lexical offset"], []⟩,
  ⟨11, "loadEnvironment", "Load Environment", ["register of result"], []⟩,
  ⟨12, "loadVariable", "Load Variable", ["register of result"], []⟩,
  ⟨13, "storeVariable", "Store Variable", ["register of result"], []⟩,
  ⟨14, "loadFreeVariable", "Load Free Variable",
    ["register of result", "lexical offset", "index of variable"], []⟩,
  ⟨15, "storeFreeVariable", "Store Free Variable",
    ["lexical offset", "index of variable", "register of source"], []⟩,
  ⟨16, "isIdenticalTo", "Is Identical To",
    ["register of result", "register of x", "register of y"], []⟩,
  ⟨17, "branchKeyed", "Branch Keyed", ["register of key", "table"], []⟩,
  ⟨18, "jumpTo", "Jump To", ["offset"], []⟩,
  ⟨19, "moveRegister", "Move Register", ["register of source", "register of result"], []⟩,
  ⟨20, "branchIfTrue", "Branch If True", ["register of condition", "branch offset"], []⟩,
  ⟨21, "branchIfFalse", "Branch If False", ["register of condition", "branch offset"], []⟩,
  ⟨22, "returnRegister", "Return Register", ["register of value"], []⟩,
  ⟨23, "returnValue", "Return Value", ["value to return"], []⟩,
  ⟨24, "resume", "Resume", [], []⟩,
  ⟨25, "primitiveDo", "Primitive Do", ["number of primitive", "arity", "register of result"], [1]⟩,
  ⟨26, "directApplyTo", "Direct Apply To", ["method", "arity", "register of result"], [1]⟩,
  ⟨27, "isNilOp", "Is Nil", ["register of result", "register of x"], []⟩,
  ⟨28, "inlinePrimitiveCheckJump", "Inline Primitive Check Jump",
    ["register of result", "map array", "prim number(in-opcode not a register)", "arity",
      "jump offset"], [3]⟩,
  ⟨29, "inlineMethodCheckJump", "Inline Method Check Jump",
    ["map array", "arity", "jump offset"], [1]⟩,
  ⟨30, "sendMessageWithOptionalsInline", "Send with Optionals Inline",
    ["register of result", "selector", "arity", "optional count"], [2, 3]⟩]

def byCode (code : Nat) : Option Instruction := instructions.find? (·.code == code)

section Slots

def directSendMessage : Nat := 0
def loadLiteral : Nat := 3
def newClosure : Nat := 7
def newArrayWith : Nat := 8
def resendMessage : Nat := 9
def returnFrom : Nat := 10
def loadEnvironment : Nat := 11
def loadVariable : Nat := 12
def storeVariable : Nat := 13
def loadFreeVariable : Nat := 14
def storeFreeVariable : Nat := 15
def isIdenticalTo : Nat := 16
def branchKeyed : Nat := 17
def jumpTo : Nat := 18
def moveRegister : Nat := 19
def branchIfTrue : Nat := 20
def branchIfFalse : Nat := 21
def returnRegister : Nat := 22
def returnValue : Nat := 23
def primitiveDo : Nat := 25
def directApplyTo : Nat := 26
def isNilOp : Nat := 27
def sendMessageWithOptionalsInline : Nat := 30

end Slots

/-- What the `generate:` methods answer for a register. A flag `&result` passes True, an empty
parenthesis answers `#{}`, and Nil is answered where nothing is generated. -/
inductive Operand where
  | register (n : Nat)
  | nil
  | true
  | emptyArray
  deriving DecidableEq

abbrev MethodId := Nat

inductive Element where
  | instruction (i : Instruction)
  | number (n : Int)
  | operand (o : Operand)
  | literal (value : Literal)
  | keyword (s : String)
  | method (m : MethodId)
  /-- A branch table, with its keys at the even places. -/
  | table (entries : List (Option Literal))
  deriving DecidableEq

/-! The state of the compiler, and what the generation methods are made of. The stack of contexts
has its top first. The debug map is left out, since only debuggers read it. -/

/-- `SSAVM Compiler Context` -/
structure Context where
  isClosure : Bool
  method : MethodId
  /-- What the code writer has got. -/
  code : List Element
  labels : List (Option Nat)
  relocations : List (Nat × Nat)
  currentRegister : Nat
  /-- The blocks whose statements are being generated in place, the innermost first. The source
  does not keep them; statements about returns need them. -/
  inlined : List ScopeId

structure CompiledMethod where
  sourceTree : ScopeId
  environment : Nat
  inputVariables : Nat
  localVariables : List Variable
  restVariable : Bool
  optionalKeywords : List String
  registerCount : Nat
  heapAllocate : Bool
  code : List Element

/-- One call of `emit:withParameters:fromSource:`, with the methods and the blocks around it. The
source does not keep these. -/
structure Emission where
  methods : List MethodId
  scopes : List ScopeId
  code : Nat
  values : List Element
  source : Node

structure Generator where
  contexts : List Context
  methods : List CompiledMethod
  scopes : ScopeId → Scope
  nextScope : ScopeId
  emissions : List Emission

inductive Signal where
  | error (description : String)
  | methodNotFound (selector : String)
  | indexOutOfBounds
  /-- The fuel ran out. -/
  | exhausted
  deriving DecidableEq

abbrev Gen := StateT Generator (Except Signal)

def orSignal {α : Type} (signal : Signal) (value : Option α) : Gen α :=
  match value with
  | some a => pure a
  | none => throw signal

namespace Generator

variable (gen : Generator)

def currentContext : Gen Context := do orSignal .indexOutOfBounds (← get).contexts.head?

def modifyContext (f : Context → Context) : Gen Unit :=
  modify fun gen => { gen with contexts := gen.contexts.modifyHead f }

def newRegister : Gen Operand := do
  modifyContext fun c => { c with currentRegister := c.currentRegister + 1 }
  return .register (← currentContext).currentRegister

/-- ``result `defaultsTo: gen newRegister`` -/
def defaultRegister : Option Operand → Gen Operand
  | some .nil | none => newRegister
  | some result => pure result

def newLabelIndex : Gen Nat := do
  modifyContext fun c => { c with labels := c.labels ++ [none] }
  return (← currentContext).labels.length - 1

def emitLabelIndex (label : Nat) : Gen Unit :=
  modifyContext fun c => { c with labels := c.labels.set label (some c.code.length) }

def emitLabel : Gen Nat := do
  let label ← newLabelIndex
  emitLabelIndex label
  return label

def emitRelocationAgainst (label : Nat) : Gen Unit :=
  modifyContext fun c => { c with relocations := (c.code.length, label) :: c.relocations }

def emitObject (value : Element) : Gen Unit :=
  modifyContext fun c => { c with code := c.code ++ [value] }

def emitBranchTo (label : Nat) : Gen Unit := do
  emitRelocationAgainst label
  emitObject (.number 0)

def around : List ScopeId :=
  gen.contexts.flatMap fun c =>
    c.inlined ++ (gen.methods[c.method]?.map CompiledMethod.sourceTree).toList

def record (code : Nat) (values : List Element) (source : Node) : Gen Unit :=
  modify fun gen => { gen with emissions := gen.emissions ++
    [⟨gen.contexts.map Context.method, gen.around, code, values, source⟩] }

/-- `emit:withParameters:fromSource:` of a number looks up the instruction and is sent to that
again; there the object itself is put into the code. (The selector would be noted if it were
equal to the number `gen directSendMessage`, which no instruction is.) -/
def emit (code : Nat) (values : List Element) (source : Node) : Gen Unit := do
  let instruction ← orSignal (.methodNotFound "emit:withParameters:fromSource:") (byCode code)
  record code values source
  emitObject (.instruction instruction)
  values.forM emitObject

def registerFor (obj : Literal) (source : Node) (result : Option Operand) : Gen Operand := do
  let result ← defaultRegister result
  emit loadLiteral [.operand result, .literal obj] source
  return result

/-- `indexOfLastSatisfying:` counts from the top here: the answer is the lexical offset. -/
def lexOffsetWhere (test : CompiledMethod → Bool) : Option Nat :=
  gen.contexts.findIdx? fun c => gen.methods[c.method]?.any test

def isMethodDefinition (m : CompiledMethod) : Bool := (gen.scopes m.sourceTree).isMethodDefinition

def farLexOffsetWhere (test : CompiledMethod → Bool) : Option Nat :=
  (gen.contexts.reverse.findIdx? fun c => gen.methods[c.method]?.any test).map fun index =>
    gen.contexts.length - 1 - index

/-- `(gen contexts fromTop: lexOffset) method heapAllocate := True` -/
def heapAllocate (lexOffset : Nat) : Gen Unit := do
  let context ← orSignal .indexOutOfBounds (← get).contexts[lexOffset]?
  modify fun gen => { gen with
    methods := gen.methods.modify context.method fun m => { m with heapAllocate := true } }

/-- `(gen contexts top: lexOffset) do: #beClosure` -/
def beClosures (lexOffset : Nat) : Gen Unit :=
  modify fun gen => { gen with
    contexts := (gen.contexts.take lexOffset).map (fun c => { c with isClosure := true }) ++
      gen.contexts.drop lexOffset }

def reach (lexOffset : Nat) : Gen Unit := do
  heapAllocate lexOffset
  beClosures lexOffset

/-- `lexOffset isPositive ifTrue: [...]` -/
def reachPositive (lexOffset : Nat) : Gen Unit := if 0 < lexOffset then reach lexOffset else pure ()

section Variables

/-- `findVariable:`: the block and those around it. -/
def findVariable (scope : ScopeId) (name : String) : Option Variable :=
  (scope :: (gen.scopes scope).parentScopes).findSome? fun b =>
    (gen.scopes b).localVariables.find? fun var => var.name == name

def uniqueVariableName (scope : ScopeId) : Option String :=
  ((List.range 100).map fun n => "_" ++ toString n).find? fun name =>
    (gen.findVariable scope name).isNone

def setScope (id : ScopeId) (scope : Scope) : Generator :=
  { gen with scopes := fun b => if b = id then scope else gen.scopes b }

def addVariable (id : ScopeId) : Gen Variable := do
  let name ← orSignal (.error "Could not generate a unique variable name.")
    ((← get).uniqueVariableName id)
  let var : Variable := ⟨name, id⟩
  modify fun gen => gen.setScope id ((gen.scopes id).addVariable var)
  return var

def newBlock (parent : ScopeId) (inputs : Nat) : Gen ScopeId := do
  let id := (← get).nextScope
  let around := (← get).scopes parent
  modify fun gen => { gen.setScope id
    (.ofInputs (parent :: around.parentScopes) around.topLevel []) with nextScope := id + 1 }
  (List.range inputs).forM fun _ => do
    let name ← orSignal (.error "Could not generate a unique variable name.")
      ((← get).uniqueVariableName id)
    modify fun gen => gen.setScope id (.ofInputs (parent :: around.parentScopes) around.topLevel
      ((gen.scopes id).localVariables ++ [⟨name, id⟩]))
  return id

end Variables

def currentMethod : Gen CompiledMethod := do
  orSignal .indexOutOfBounds (← get).methods[(← currentContext).method]?

end Generator

end SlateVm.Compiler
