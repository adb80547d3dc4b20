import SlateVm.Interp.Memory

/-! Frames: growth of the stack, the call of a method or closure, and the return. Objects
are read through the fields of the source's structures. -/
namespace SlateVm

open Vm

section Layout

def maxArity : Nat := 16
def functionFrameSize : Nat := 6

def specialNoRole : Nat := 1
def specialArrayProto : Nat := 5
def specialMethodDefProto : Nat := 9
def specialSmallIntProto : Nat := 10
def specialClosureWindow : Nat := 12
def specialPrimitiveMethodWindow : Nat := 14
def specialClosureProto : Nat := 15
def specialLexicalContextProto : Nat := 16
def specialEnsureMarker : Nat := 18
def specialOptionals : Nat := 33

/-- The fields of an interpreter; those from `framePointer` on are untagged. -/
def Interpreter.stack : Nat := 4
def Interpreter.method : Nat := 5
def Interpreter.closure : Nat := 6
def Interpreter.lexicalContext : Nat := 7
def Interpreter.ensureHandlers : Nat := 8
def Interpreter.framePointer : Nat := 9
def Interpreter.codePointer : Nat := 10
def Interpreter.codeSize : Nat := 11
def Interpreter.stackPointer : Nat := 12
def Interpreter.stackSize : Nat := 13

def CompiledMethod.method : Nat := 4
def CompiledMethod.selector : Nat := 5
def CompiledMethod.inputVariables : Nat := 6
def CompiledMethod.localVariables : Nat := 7
def CompiledMethod.restVariable : Nat := 8
def CompiledMethod.optionalKeywords : Nat := 9
def CompiledMethod.heapAllocate : Nat := 10
def CompiledMethod.environment : Nat := 11
def CompiledMethod.code : Nat := 14
def CompiledMethod.isInlined : Nat := 17
def CompiledMethod.oldCode : Nat := 18
def CompiledMethod.callCount : Nat := 19
def CompiledMethod.calleeCount : Nat := 20
def CompiledMethod.registerCount : Nat := 21
def CompiledMethod.cachedInCallers : Nat := 22
def CompiledMethod.cachedInCallersCount : Nat := 23
def CompiledMethod.nextInlineAtCallCount : Nat := 24

def Closure.method : Nat := 4
def Closure.lexicalWindow (j : Nat) : Nat := 5 + j

def LexicalContext.framePointer : Nat := 4
def LexicalContext.variables (j : Nat) : Nat := 5 + j

def Map.representative : Nat := 5
def Map.delegates : Nat := 6
def Map.slotCount : Nat := 7
def Map.slotTable : Nat := 8
def Map.roleTable : Nat := 9

def Symbol.cacheMask : Nat := 4

def MethodDefinition.method : Nat := 4
def MethodDefinition.slotAccessor : Nat := 5
def MethodDefinition.dispatchPositions : Nat := 7

def element (j : Nat) : Nat := headerSizeWords + 1 + j

def field (h : Heap) (o k : Nat) : Nat := (h.mem o).word k

def smallintField (h : Heap) (o k : Nat) : Nat := objectToSmallint (field h o k)

def arraySize (h : Heap) (o : Nat) : Nat := objectArraySize (h.mem o)

def isTrue (h : Heap) (o k : Nat) : Bool := field h o k == h.cached.trueObject

end Layout

/-- `heap_clone_oop_array_sized` of one of the special prototypes. -/
def cloneSpecialSized (special size : Nat) : Vm Nat := do
  let proto ← read (getSpecial · special)
  allocate (.heapCloneOopArraySized proto size)

/-- `copy_words_into` makes no barrier call. -/
def copyInto (o start : Nat) (values : List Nat) : List Cmd :=
  values.mapIdx fun j value => .bare o (start + j) value

def fillWith (o start n value : Nat) : List Cmd :=
  (List.range n).map fun j => .bare o (start + j) value

section Stack

variable (i : Nat)

/-- `do size *= 2 while (size < minimum)`; a positive size gets there in `minimum` rounds. -/
def growSize (minimum : Nat) : Nat → Nat → Nat
  | 0, size => 2 * size
  | rounds + 1, size => if 2 * size < minimum then growSize minimum rounds (2 * size) else 2 * size

def interpreterGrowStack (minimum : Nat) : Vm Unit := do
  let size ← read fun h => growSize minimum minimum (field h i Interpreter.stackSize)
  stores fun _ => [.number i Interpreter.stackSize size]
  let newStack ← cloneSpecialSized specialArrayProto size
  stores fun h =>
    copyInto newStack (element 0) ((List.range (field h i Interpreter.stackPointer)).map fun j =>
      field h (field h i Interpreter.stack) (element j)) ++
    [.bare i Interpreter.stack newStack]

def interpreterStackAllocate (n : Nat) : Vm Unit := do
  let pointer ← read (field · i Interpreter.stackPointer)
  if (← read (field · i Interpreter.stackSize)) < pointer + n then
    interpreterGrowStack i (pointer + n)
    assert (decide (pointer + n ≤ (← read (field · i Interpreter.stackSize))))
  stores fun _ => [.number i Interpreter.stackPointer (pointer + n)]

def interpreterStackPush (value : Nat) : Vm Unit := do
  if !oopIsSmallint value then
    assert (decide ((← read (·.mem value)).hash < idHashReserved))
  let pointer ← read (field · i Interpreter.stackPointer)
  if pointer = (← read (field · i Interpreter.stackSize)) then interpreterGrowStack i 0
  stores fun h =>
    let stack := field h i Interpreter.stack
    [.store stack (element pointer) value, .number i Interpreter.stackPointer (pointer + 1)]

end Stack

section Frames

variable (i : Nat)

def optionalIndex (h : Heap) (key : Nat) : Option Nat :=
  let keys := field h (field h i Interpreter.method) CompiledMethod.optionalKeywords
  (List.range (arraySize h keys)).find? fun j => field h keys (element j) == key

def interpreterDispatchOptionalKeyword (key value : Nat) : Vm Unit :=
  stores fun h =>
    match optionalIndex i h key with
    | none => []
    | some j =>
      let method := field h i Interpreter.method
      let variableIndex := smallintField h method CompiledMethod.inputVariables + j
      if isTrue h method CompiledMethod.heapAllocate then
        let context := field h i Interpreter.lexicalContext
        [.store context (LexicalContext.variables variableIndex) value]
      else
        let stack := field h i Interpreter.stack
        [.store stack (element (field h i Interpreter.framePointer + variableIndex)) value]

def interpreterDispatchOptionals : List Nat → Vm Unit
  | key :: value :: opts => do
    interpreterDispatchOptionalKeyword i key value
    interpreterDispatchOptionals opts
  | _ => pure ()

structure Frame where
  closure : Nat
  method : Nat
  lexicalContext : Nat
  vars : Nat
  base : Nat
  inputs : Nat
  args : List Nat
  framePointer : Nat
  beforeCallStackPointer : Nat
  resultStackPointer : Nat

def pushFrame (f : Frame) (h : Heap) : List Cmd :=
  let stack := field h i Interpreter.stack
  let slot := fun offset => element (f.framePointer - offset)
  (f.args.take f.inputs).mapIdx (fun j value => .store f.vars (f.base + j) value) ++
  [.small stack (slot 6) f.beforeCallStackPointer,
    .small stack (slot 5) f.resultStackPointer,
    .small stack (slot 4) (field h i Interpreter.codePointer),
    .store stack (slot 3) f.closure,
    .store stack (slot 2) f.lexicalContext,
    .small stack (slot 1) (field h i Interpreter.framePointer),
    .number i Interpreter.framePointer f.framePointer,
    .store i Interpreter.method f.method,
    .store i Interpreter.closure f.closure,
    .store i Interpreter.lexicalContext f.lexicalContext,
    .number i Interpreter.codeSize (arraySize h (field h f.method CompiledMethod.code)),
    .number i Interpreter.codePointer 0] ++
  fillWith f.vars (f.base + f.inputs)
    (smallintField h f.method CompiledMethod.localVariables - f.inputs) h.cached.nil

/-- The arguments beyond the inputs. Their array is stored behind a barrier call for the
lexical context, which is nil when the variables are on the stack. -/
def storeRest (f : Frame) : Vm Unit := do
  let place ← read fun h =>
    f.base + f.inputs + arraySize h (field h f.method CompiledMethod.optionalKeywords)
  if f.inputs < f.args.length then
    let restArgs ← cloneSpecialSized specialArrayProto (f.args.length - f.inputs)
    pinned restArgs (stores fun _ =>
      copyInto restArgs (element 0) (f.args.drop f.inputs) ++
      [.barrier f.lexicalContext restArgs, .bare f.vars place restArgs])
  else
    stores fun h =>
      if isTrue h f.method CompiledMethod.restVariable then
        [.bare f.vars place (getSpecial h specialArrayProto)]
      else []

def enterFrame (f : Frame) (opts : List Nat) : Vm Unit := do
  stores (pushFrame i f)
  storeRest f
  interpreterDispatchOptionals i opts

/-- Frames of compiled methods and closures. The optimizer, which is called here for hot
methods, is a step of its own, and so is the handler that wrong inputs are signalled to. -/
def interpreterApplyToArityWithOptionals (closure : Nat) (args opts : List Nat)
    (resultStackPointer : Nat) : Vm Unit := do
  let method ← read (field · closure Closure.method)
  pinned method do
    let inputs ← read (smallintField · method CompiledMethod.inputVariables)
    let locals ← read (smallintField · method CompiledMethod.localVariables)
    let registers ← read (smallintField · method CompiledMethod.registerCount)
    let rest ← read (isTrue · method CompiledMethod.restVariable)
    stores fun h => [.small method CompiledMethod.callCount
      (smallintField h method CompiledMethod.callCount + 1)]
    assert (decide (args.length ≤ maxArity))
    if decide (args.length < inputs) || (decide (inputs < args.length) && !rest) then
      let argsArray ← cloneSpecialSized specialArrayProto args.length
      stores fun _ => copyInto argsArray (element 0) args
    else do
      let before ← read (field · i Interpreter.stackPointer)
      let framePointer := before + functionFrameSize
      if ← read (isTrue · method CompiledMethod.heapAllocate) then
        let lexicalContext ← cloneSpecialSized specialLexicalContextProto locals
        pinned lexicalContext do
          stores fun _ => [.small lexicalContext LexicalContext.framePointer framePointer]
          interpreterStackAllocate i (functionFrameSize + registers)
          enterFrame i ⟨closure, method, lexicalContext, lexicalContext,
            LexicalContext.variables 0, inputs, args, framePointer, before, resultStackPointer⟩ opts
      else do
        let lexicalContext ← read (·.cached.nil)
        interpreterStackAllocate i (functionFrameSize + locals + registers)
        let stack ← read (field · i Interpreter.stack)
        enterFrame i ⟨closure, method, lexicalContext, stack, element framePointer, inputs, args,
          framePointer, before, resultStackPointer⟩ opts

/-- `heap_store_into_stack` after a primitive has left its result. -/
def storeResult (resultStackPointer value : Nat) : Vm Unit :=
  stores fun h =>
    let stack := field h i Interpreter.stack
    [.store stack (element resultStackPointer) value]

def runEnsureHandler (framePointer resultStackPointer prevCodePointer : Nat) : Vm Unit := do
  let handlers ← read (smallintField · i Interpreter.ensureHandlers)
  let stack ← read (field · i Interpreter.stack)
  let ensureHandler ← read (field · stack (element (handlers + 1)))
  pinned ensureHandler do
    let outer ← read (field · stack (element handlers))
    assert (decide (objectToSmallint outer < 0x1000000))
    stores fun _ => [.bare i Interpreter.ensureHandlers outer]
    interpreterStackPush i (smallintToObject (← read (field · i Interpreter.stackPointer)))
    interpreterStackPush i (smallintToObject resultStackPointer)
    interpreterStackPush i (smallintToObject prevCodePointer)
    interpreterStackPush i (← read (getSpecial · specialEnsureMarker))
    interpreterStackPush i (← read (·.cached.nil))
    interpreterStackPush i (smallintToObject framePointer)
    stores fun h => [.number i Interpreter.codePointer 0,
      .number i Interpreter.framePointer (field h i Interpreter.stackPointer)]
    interpreterApplyToArityWithOptionals i ensureHandler [] [] resultStackPointer

def popFrame (framePointer : Nat) (h : Heap) : List Cmd :=
  let stack := field h i Interpreter.stack
  let slot := fun frame offset => field h stack (element (frame - offset))
  let frame := objectToSmallint (slot framePointer 1)
  let lexicalContext := slot frame 2
  let closure := slot frame 3
  let method := field h closure Closure.method
  [.number i Interpreter.stackPointer (objectToSmallint (slot framePointer 6)),
    .number i Interpreter.framePointer frame,
    .number i Interpreter.codePointer (objectToSmallint (slot framePointer 4)),
    .store i Interpreter.lexicalContext lexicalContext,
    .store i Interpreter.closure closure,
    .store i Interpreter.method method,
    .number i Interpreter.codeSize (arraySize h (field h method CompiledMethod.code))]

/-- A return from the frame of the given context depth; a context that is no longer on the
stack is signalled, and the last return ends the machine. -/
def interpreterReturnResult (contextDepth : Nat) (result : Option Nat) (prevCodePointer : Nat) :
    Vm Unit := do
  let stack ← read (field · i Interpreter.stack)
  let current ← read (field · i Interpreter.framePointer)
  let target ← read fun h =>
    field h (field h i Interpreter.closure) (Closure.lexicalWindow (contextDepth - 1))
  let framePointer ← read fun h =>
    if contextDepth = 0 then current else smallintField h target LexicalContext.framePointer
  let gone ← read fun h => contextDepth != 0 &&
    (decide (field h i Interpreter.stackPointer < framePointer) ||
      target != field h stack (element (framePointer - 2)))
  if !gone then
    let place ← read fun h => objectToSmallint (field h stack (element (framePointer - 5)))
    match result with
    | some value => storeResult i place value
    | none => pure ()
    if framePointer ≤ (← read (smallintField · i Interpreter.ensureHandlers)) then
      runEnsureHandler i current place prevCodePointer
    else
      stores (popFrame i framePointer)

end Frames

end SlateVm
