import SlateVm.Compiler.Generator

/-! The methods named `generate:` and what they send. The generation of a node inside another is
passed to them, so that each can be read, and reasoned about, by itself. A node for which the
source calls itself again with the same node runs out of fuel. -/
namespace SlateVm.Compiler
open Generator

abbrev Generate := Node → Option Operand → Gen Operand

/-- The node that a message is generated for, and what its class adds. -/
structure Source where
  node : Node
  /-- `node arguments` -/
  arguments : List Node
  /-- The keywords and arguments of an `OptionalKeywords`. -/
  optionals : Option (List (String × Node))

def argument (args : List Node) (index : Nat) : Gen Node := orSignal .indexOutOfBounds args[index]?

section Methods

variable (generate : Generate)

def generateAll (nodes : List Node) (result : Option Operand) : Gen (List Operand) := do
  let first ← nodes.dropLast.mapM fun node => generate node none
  match nodes.getLast? with
  | none => return first
  | some node => return first ++ [← generate node result]

def generateStatements (statements : List Node) (result : Option Operand) : Gen Operand := do
  let registers ← generateAll generate statements result
  orSignal .indexOutOfBounds registers.getLast?

/-- The part of `generate:` for a block that runs with the context of its method pushed. -/
def generateBody (scope : ScopeId) (statements : List Node) (block : Node) : Gen Unit := do
  let locals := ((← get).scopes scope).localVariables
  modifyContext fun c => { c with currentRegister := locals.length }
  match statements with
  | [] => emit returnValue [.literal .nil] block
  | statements =>
    let register ← generateStatements generate statements none
    emit returnRegister [.operand register] block

def newEnvironment (scope : ScopeId) : Gen Nat := do
  let gen ← get
  if gen.contexts.isEmpty then pure (gen.scopes scope).topLevel
  else pure (← currentMethod).environment

def pushMethod (scope : ScopeId) : Gen MethodId := do
  let environment ← newEnvironment scope
  let id := (← get).methods.length
  modify fun gen => { gen with
    methods := gen.methods ++ [⟨scope, environment, 0, [], false, [], 0, false, []⟩]
    contexts := ⟨false, id, [], [], [], 0, []⟩ :: gen.contexts }
  return id

/-- `code at: index put: (labels at: label) - index` -/
def resolveLabels (c : Context) : Option (List Element) :=
  c.relocations.foldlM (fun code (index, label) => do
    let position ← (← c.labels[label]?)
    return code.set index (.number (position - index))) c.code

def popMethod (scope : ScopeId) : Gen Bool := do
  let c ← currentContext
  let code ← orSignal (.methodNotFound "-") (resolveLabels c)
  let vars := (← get).scopes scope
  modify fun gen => { gen with
    contexts := gen.contexts.tail
    methods := gen.methods.modify c.method fun m => { m with
      inputVariables := vars.inputVariables.length
      localVariables := vars.localVariables
      restVariable := vars.restVariable.isSome
      registerCount := c.currentRegister + 1
      optionalKeywords := vars.optionalKeywords
      code := code } }
  return c.isClosure

def generateMethod (scope : ScopeId) (statements : List Node) (block : Node) :
    Gen (MethodId × Bool) := do
  let method ← pushMethod scope
  generateBody generate scope statements block
  return (method, ← popMethod scope)

def generateBlock (scope : ScopeId) (statements : List Node) (block : Node)
    (result : Option Operand) : Gen Operand := do
  let (method, isClosure) ← generateMethod generate scope statements block
  let result ← defaultRegister result
  emit (if isClosure then newClosure else loadLiteral) [.operand result, .method method] block
  return result

def generateMethodDefinition (definition : Node) (selector : String) (roles : List Node)
    (result : Option Operand) : Gen Operand := do
  -- `generate:result:` of the class of all nodes sends `generate:` to the definition again
  let blockRegister ← generate definition none
  let arrayRegister ← newRegister
  let selectorRegister ← registerFor (.symbol selector) definition none
  let roleRegisters ← roles.mapM fun role => generate role none
  let result ← defaultRegister result
  emit newArrayWith ([.operand arrayRegister, .number roleRegisters.length] ++
    roleRegisters.map .operand) definition
  emit directSendMessage [.operand result, .keyword "asMethod:on:", .number 3,
    .operand blockRegister, .operand selectorRegister, .operand arrayRegister] definition
  return result

section Returns

def generateResend (node : Node) (result : Option Operand) : Gen Operand := do
  let lexOffset ← orSignal (.error "resend must be used within a method definition.")
    ((← get).lexOffsetWhere (← get).isMethodDefinition)
  reachPositive lexOffset
  let result ← defaultRegister result
  emit resendMessage [.operand result, .number lexOffset] node
  return result

def generateReturnBy (node value : Node) (lexOffset : Nat) (result : Option Operand) :
    Gen Operand := do
  let result ← defaultRegister result
  reachPositive lexOffset
  let _ ← generate value (some result)
  emit returnFrom [.operand result, .number lexOffset] node
  return result

def generateReturnClose (node value : Node) (result : Option Operand) : Gen Operand := do
  let lexOffset ← orSignal (.error "^ must be used within a method definition.")
    ((← get).lexOffsetWhere (← get).isMethodDefinition)
  generateReturnBy generate node value lexOffset result

def generateReturnFar (node value : Node) (result : Option Operand) : Gen Operand := do
  let lexOffset ← orSignal (.error "^^ must be used within a method definition.")
    ((← get).farLexOffsetWhere (← get).isMethodDefinition)
  generateReturnBy generate node value lexOffset result

end Returns

section Variables

def operandOf (index : Option Nat) : Operand := index.elim .nil .register

def locate (var : Variable) : Gen (Operand × Nat) := do
  let varIndex := operandOf (((← get).scopes var.scope).indexOf var)
  let lexOffset ← orSignal (.error "Could not determine variable scope.")
    ((← get).lexOffsetWhere fun m => m.sourceTree == var.scope)
  return (varIndex, lexOffset)

def moveFrom (varIndex : Operand) (result : Operand) (node : Node) : Gen Unit :=
  if result = varIndex then pure ()
  else emit moveRegister [.operand result, .operand varIndex] node

def resultOr (result : Option Operand) (varIndex : Operand) : Operand :=
  match result with
  | some .nil | none => varIndex
  | some result => result

def generateLoad (node : Node) (var : Variable) (result : Option Operand) : Gen Operand := do
  let (varIndex, lexOffset) ← locate var
  if lexOffset = 0 then
    let result := resultOr result varIndex
    emit loadVariable [.operand varIndex] node
    moveFrom varIndex result node
    return result
  else
    let result ← defaultRegister result
    reach lexOffset
    emit loadFreeVariable [.operand result, .number lexOffset, .operand varIndex] node
    return result

/-- The value is generated with the flag `&result`, which is `&result: True`. -/
def generateStore (node : Node) (var : Variable) (value : Node) (result : Option Operand) :
    Gen Operand := do
  let (varIndex, lexOffset) ← locate var
  if lexOffset = 0 then
    let result := resultOr result varIndex
    let _ ← generate value (some varIndex)
    emit storeVariable [.operand varIndex] node
    moveFrom varIndex result node
    return result
  else
    let result ← defaultRegister result
    let _ ← generate value (some .true)
    reach lexOffset
    emit storeFreeVariable [.number lexOffset, .operand varIndex, .operand result] node
    return result

end Variables

/-- `registers ::= resend` generates the elements; the last may get the result for its register. -/
def generateArray (node : Node) (statements : List Node) (result : Option Operand) :
    Gen Operand := do
  let registers ← generateAll generate statements result
  let result ← defaultRegister result
  emit newArrayWith ([.operand result, .number statements.length] ++ registers.map .operand) node
  return result

def generateParenthesis (statements : List Node) (result : Option Operand) : Gen Operand :=
  if statements.isEmpty then pure .emptyArray else generateStatements generate statements result

def generateArguments (args : List Node) : Gen (List Operand) :=
  args.mapM fun arg => generate arg none

/-- `generate: selector on: args fromSource: node`, which no selector of its own takes. -/
def generateSend (selector : String) (args : List Node) (source : Source)
    (result : Option Operand) : Gen Operand := do
  let result ← defaultRegister result
  let argRegisters ← generateArguments generate args
  match source.optionals with
  | none =>
    emit directSendMessage ([.operand result, .keyword selector, .number args.length] ++
      argRegisters.map .operand) source.node
  | some optionals =>
    let registers ← optionals.mapM fun (key, arg) => do
      let keyRegister ← registerFor (.symbol key) source.node none
      return [keyRegister, ← generate arg none]
    emit sendMessageWithOptionalsInline ([.operand result, .keyword selector,
      .number args.length, .number registers.flatten.length] ++
      argRegisters.map .operand ++ registers.flatten.map .operand) source.node
  return result

end Methods

end SlateVm.Compiler
