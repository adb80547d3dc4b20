import SlateVm.Interp.Methods

/-! The opcodes that store. Operands are given as they are read from the code, and a
send is the steps it is made of: the lookup, the call or the primitive, and the store of
the result. -/
namespace SlateVm
open Vm

variable (i : Nat)

def registerIndex (h : Heap) (r : Nat) : Nat := element (field h i Interpreter.framePointer + r)

def register (h : Heap) (r : Nat) : Nat := field h (field h i Interpreter.stack) (registerIndex i h r)

def assertValidRegister (r : Nat) : Vm Unit := do
  let method ← read (field · i Interpreter.method)
  assert (decide (r < (← read (smallintField · method CompiledMethod.registerCount))))

def setRegister (r : Nat) (value : Heap → Nat) : Vm Unit := do
  assertValidRegister i r
  stores fun h => [.store (field h i Interpreter.stack) (registerIndex i h r) (value h)]

def opNewArrayWith (result : Nat) (registers : List Nat) : Vm Unit := do
  let array ← cloneSpecialSized specialArrayProto registers.length
  pinned array do
    stores fun h => copyInto array (element 0) (registers.map (register i h))
    setRegister i result fun _ => array

def opNewClosure (result block : Nat) : Vm Unit := pinned block do
  let closure ← read (field · i Interpreter.closure)
  let inherited ← read fun h =>
    if closure = field h i Interpreter.method then 0 else arraySize h closure
  let newClosure ← cloneSpecialSized specialClosureProto (inherited + 1)
  pinned newClosure do
    stores fun h =>
      copyInto newClosure (Closure.lexicalWindow 1)
        ((List.range inherited).map fun j => field h closure (Closure.lexicalWindow j)) ++
      [.store newClosure (Closure.lexicalWindow 0) (field h i Interpreter.lexicalContext),
        .store newClosure Closure.method block]
    setRegister i result fun _ => newClosure

def opLoadLiteral (dest literal : Nat) : Vm Unit :=
  pinned literal (setRegister i dest fun _ => literal)

def opLoadVariable (var : Nat) : Vm Unit := do
  if ← read fun h => isTrue h (field h i Interpreter.method) CompiledMethod.heapAllocate then
    assertValidRegister i var
    stores fun h =>
      let stack := field h i Interpreter.stack
      let context := field h i Interpreter.lexicalContext
      [.barrier stack context,
        .bare stack (registerIndex i h var) (field h context (LexicalContext.variables var))]

def opStoreVariable (var : Nat) : Vm Unit := do
  if ← read fun h => isTrue h (field h i Interpreter.method) CompiledMethod.heapAllocate then
    stores fun h =>
      let context := field h i Interpreter.lexicalContext
      [.barrier context (field h i Interpreter.stack),
        .bare context (LexicalContext.variables var) (register i h var)]

def lexicalContextAt (h : Heap) (lexOffset : Nat) : Nat :=
  field h (field h i Interpreter.closure) (Closure.lexicalWindow (lexOffset - 1))

def opLoadFreeVariable (dest lexOffset varIndex : Nat) : Vm Unit := do
  assertValidRegister i dest
  stores fun h =>
    let stack := field h i Interpreter.stack
    let context := lexicalContextAt i h lexOffset
    [.barrier stack context,
      .bare stack (registerIndex i h dest) (field h context (LexicalContext.variables varIndex))]

def opStoreFreeVariable (lexOffset varIndex src : Nat) : Vm Unit :=
  stores fun h =>
    let context := lexicalContextAt i h lexOffset
    [.barrier context (field h i Interpreter.stack),
      .bare context (LexicalContext.variables varIndex) (register i h src)]

def opMoveRegister (dest src : Nat) : Vm Unit := setRegister i dest fun h => register i h src

def setBoolean (result : Nat) (holds : Heap → Bool) : Vm Unit := do
  assertValidRegister i result
  stores fun h => [.bare (field h i Interpreter.stack) (registerIndex i h result)
    (if holds h then h.cached.trueObject else h.cached.falseObject)]

def opIsNil (result src : Nat) : Vm Unit :=
  setBoolean i result fun h => register i h src == h.cached.nil

def opIsIdenticalTo (result dest src : Nat) : Vm Unit :=
  setBoolean i result fun h => register i h dest == register i h src

def opLoadEnvironment (dest : Nat) : Vm Unit :=
  setRegister i dest fun h => field h (field h i Interpreter.method) CompiledMethod.environment

def opReturnRegister (reg contextDepth prevCodePointer : Nat) : Vm Unit := do
  assertValidRegister i reg
  let result ← read (register i · reg)
  pinned result (interpreterReturnResult i contextDepth (some result) prevCodePointer)

def opReturnValue (result prevCodePointer : Nat) : Vm Unit :=
  pinned result (interpreterReturnResult i 0 (some result) prevCodePointer)

def opResume (prevCodePointer : Nat) : Vm Unit :=
  interpreterReturnResult i 0 none prevCodePointer

def setCodePointer (n : Nat) : Vm Unit := stores fun _ => [.number i Interpreter.codePointer n]

def exportArguments (args : List Nat) : Vm Unit := do
  let argsArray ← cloneSpecialSized specialArrayProto args.length
  pinned argsArray (stores fun _ => copyInto argsArray (element 0) args)

end SlateVm

/-! The primitives that store. A primitive leaves its result on the stack, and the send
that called it makes the barrier call; a primitive that signals first is interrupted
between the two. -/
namespace SlateVm
open Vm

variable (i : Nat)

/-- `Nil`, `True` and `False` are not forwarded: a handler is called with the result stored
and the barrier call outstanding. -/
def primForwardTo (x y resultStackPointer : Nat) : Vm Unit := do
  let cached ← read (·.cached)
  if x = cached.nil ∨ x = cached.trueObject ∨ x = cached.falseObject then
    stores fun h => [.bare (field h i Interpreter.stack) (element resultStackPointer) y]
  else do
    storeResult i resultStackPointer y
    if !oopIsSmallint x && !oopIsSmallint y && x != y then
      let _ ← memory (.heapUnpinObject x)
      let _ ← memory (.heapForward x y)

def slotWord (h : Heap) (obj name : Nat) : Option Nat :=
  let slots := field h (h.mem obj).map Map.slotTable
  (tableEntryForName h slots name slotEntryWordSize).map fun entry =>
    smallintField h slots (SlotEntry.offset entry) / sizeofWord

def primAtSlotNamedPut (obj name value resultStackPointer : Nat) : Vm Unit := do
  match ← read (slotWord · obj name) with
  | none => pure ()
  | some word => do
    stores fun _ => [.store obj word value]
    storeResult i resultStackPointer value

def primAtPut (array index value resultStackPointer : Nat) : Vm Unit := do
  if index < (← read (arraySize · array)) then
    stores fun h => [.store array ((h.mem array).objectSize + index) value]
    storeResult i resultStackPointer value

def primClone (obj resultStackPointer : Nat) : Vm Unit := do
  if oopIsSmallint obj then storeResult i resultStackPointer obj
  else do
    let newObj ← allocate (.heapClone obj)
    storeResult i resultStackPointer newObj

def primCloneSettingSlots (obj : Nat) (slots : List (Nat × Nat)) (resultStackPointer : Nat) :
    Vm Unit := pinned obj do
  let newObj ← allocate (.heapClone obj)
  pinned newObj do
    slots.forM fun (name, value) => do
      match ← read (slotWord · obj name) with
      | none => pure ()
      | some word => stores fun _ => [.store newObj word value]
    storeResult i resultStackPointer newObj

def primArrayReplace (dest src start last repStart : Nat) (resultStackPointer : Nat) :
    Vm Unit := do
  if start ≤ last then
    let srcSize ← read (arraySize · src)
    let destSize ← read (arraySize · dest)
    if repStart + (last - start) < srcSize ∧ last < destSize then
      stores fun h => (List.range (last + 1 - start)).map fun j =>
        .store dest ((h.mem dest).objectSize + start + j)
          (field h src ((h.mem src).objectSize + repStart + j))
      storeResult i resultStackPointer dest

def primSetMap (obj map resultStackPointer : Nat) : Vm Unit := pinned obj (pinned map do
  objectChangeMap obj map
  stores fun _ => [.barrier obj map]
  storeResult i resultStackPointer map)

def primInitializeThreadOn (thread method : Nat) : Vm Unit := do
  let newStack ← cloneSpecialSized specialArrayProto 16
  pinned thread (pinned method (pinned newStack do
    stores fun _ => [.bare thread Interpreter.stack newStack,
      .number thread Interpreter.stackSize 16,
      .number thread Interpreter.framePointer 0,
      .number thread Interpreter.stackPointer 0,
      .small thread Interpreter.ensureHandlers 0,
      .number thread Interpreter.codePointer 0]
    interpreterApplyToArityWithOptionals thread method [] [] 0))

def primEnsure (body ensureHandler resultStackPointer : Nat) : Vm Unit :=
  pinned body (pinned ensureHandler do
    interpreterApplyToArityWithOptionals i body [] [] resultStackPointer
    interpreterStackPush i (← read (field · i Interpreter.ensureHandlers))
    interpreterStackPush i ensureHandler
    stores fun h => [.small i Interpreter.ensureHandlers (field h i Interpreter.stackPointer - 2)])

/-- `asMethod:on:` and `asAccessor:`; what dispatch finds is told to `method_define`. -/
def primAsMethod (method selector : Nat) (roles : List Nat) (oldDef : Option Nat)
    (flushed : List Nat) (slotAccessor : Heap → Nat) (resultStackPointer : Nat) : Vm Unit := do
  let closure ← cloneMethod method selector
  pinned closure do
    methodDefine closure selector roles oldDef flushed slotAccessor
    storeResult i resultStackPointer closure

def primRemoveFrom (method : Nat) (roles : List Nat) (definition resultStackPointer : Nat) :
    Vm Unit := pinned method do
  roles.forM fun role => do
    if !oopIsSmallint role then objectRemoveRole role definition
  storeResult i resultStackPointer method

def fillResult (array : Nat) (stored : Bool) (j value : Nat) : Vm Unit :=
  stores fun _ => [if stored then .store array (element j) value else .bare array (element j) value]

end SlateVm
