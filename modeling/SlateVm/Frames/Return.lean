import SlateVm.Frames.Machine

/-! The call of a method or closure: the frame with its record, the variables, and the errors
that are signalled in place of a call. -/
namespace SlateVm.Frames

/-- Where a callee has its variables: in its lexical context or in the cells of its frame. -/
inductive Vars
  | lexicalContext (o : Nat)
  | stack (base : Nat)

def Vars.onStack : Vars → Bool
  | .lexicalContext _ => false
  | .stack _ => true

def storeVar (vars : Vars) (j : Nat) (value : Value) (i : Interpreter) : Option Interpreter :=
  match vars with
  | .stack base => i.write (base + j : Nat) value
  | .lexicalContext o =>
    match i.heap.object o with
    | .lexicalContext framePointer held =>
      if j < held.length then
        some { i with heap := i.heap.update o (.lexicalContext framePointer (held.set j value)) }
      else none
    | _ => none

def storeVars (vars : Vars) : Nat → List Value → Interpreter → Option Interpreter
  | _, [], i => some i
  | j, value :: values, i => (storeVar vars j value i).bind (storeVars vars (j + 1) values)

section Optionals

variable (m : CompiledMethod)

/-- The variables of the current frame, whose method is `m`. -/
def currentVars (i : Interpreter) : Option Vars :=
  if m.heapAllocate then
    match i.lexicalContext with
    | .object o => some (.lexicalContext o)
    | _ => none
  else some (.stack i.framePointer)

def dispatchOptionalKeyword (key value : Value) (i : Interpreter) : Option Interpreter :=
  match m.optionalKeywords.idxOf? key with
  | none => some i
  | some optKey => (currentVars m i).bind fun vars => storeVar vars (m.inputVariables + optKey) value i

def dispatchOptionals : List Value → Interpreter → Option Interpreter
  | [], i => some i
  | key :: value :: opts, i => (dispatchOptionalKeyword m key value i).bind (dispatchOptionals opts)
  | [_], _ => none

end Optionals

def pushRecord (closure method lexicalContext : Value) (codeSize framePointer before : Nat)
    (result : Int) (i : Interpreter) : Interpreter :=
  { i with
    stack := fun k =>
      if k = framePointer - 6 then .smallint before
      else if k = framePointer - 5 then .smallint result
      else if k = framePointer - 4 then .smallint i.codePointer
      else if k = framePointer - 3 then closure
      else if k = framePointer - 2 then lexicalContext
      else if k = framePointer - 1 then .smallint i.framePointer
      else i.stack k
    framePointer := framePointer
    method := method
    closure := closure
    lexicalContext := lexicalContext
    codeSize := codeSize
    codePointer := 0 }

def CompiledMethod.frameCells (m : CompiledMethod) : Nat :=
  if m.heapAllocate then m.registerCount else m.localVariables + m.registerCount

def makeContext (m : CompiledMethod) (framePointer : Nat) (i : Interpreter) :
    Interpreter × Value × Vars :=
  if m.heapAllocate then
    let context := Obj.lexicalContext framePointer (List.replicate m.localVariables .nil)
    ({ i with heap := (i.heap.allocate context).1 }, (i.heap.allocate context).2,
      .lexicalContext i.heap.objects.length)
  else (i, .nil, .stack framePointer)

/-- The arguments beyond the inputs go to an array behind the optionals. The pointer to the
variables is older than the array: if they are on the stack and the collection for the array
moves the stack, the array is stored into cells that the stack has left. -/
def storeRest (w : World) (m : CompiledMethod) (vars : Vars) (args : List Value) (i : Interpreter) :
    Option Interpreter :=
  let place := m.inputVariables + m.optionalKeywords.length
  if m.inputVariables < args.length then
    let allocated := i.heap.allocate (.oopArray (args.drop m.inputVariables))
    if vars.onStack && w.stackMoves then some { i with heap := allocated.1 }
    else storeVar vars place allocated.2 { i with heap := allocated.1 }
  else if m.restVariable then storeVar vars place (.special .arrayProto) i
  else some i

def fillVars (w : World) (m : CompiledMethod) (vars : Vars) (args opts : List Value)
    (i : Interpreter) : Option Interpreter :=
  (storeVars vars m.inputVariables
    (List.replicate (m.localVariables - m.inputVariables) .nil) i).bind fun i =>
  (storeRest w m vars args i).bind (dispatchOptionals m opts)

def enterFrame (w : World) (closure method : Value) (m : CompiledMethod) (args opts : List Value)
    (result : Int) (i : Interpreter) : Option Interpreter :=
  let framePointer := i.stackPointer + functionFrameSize
  let (made, context, vars) := makeContext m framePointer i
  (made.stackAllocate (functionFrameSize + m.frameCells)).bind fun allocated =>
  (storeVars vars 0 (args.take m.inputVariables) allocated).bind fun stored =>
  fillVars w m vars args opts
    (pushRecord closure method context m.code.length framePointer i.stackPointer result stored)

abbrev Apply := Value → List Value → List Value → Int → Interpreter → Option Interpreter

def signal (w : World) (apply : Apply) (selector : Special) (args opts : List Value) (result : Int)
    (i : Interpreter) : Option Interpreter :=
  (w.dispatch (.special selector) args none).bind fun method => apply method args opts result i

def CompiledMethod.accepts (m : CompiledMethod) (n : Nat) : Bool :=
  decide (m.inputVariables ≤ n) && (decide (n ≤ m.inputVariables) || m.restVariable)

def applyMethod (w : World) (apply : Apply) : Apply := fun closure args opts result i =>
  (i.heap.method closure).bind fun method => (i.heap.compiledMethod method).bind fun m =>
  if maxArity < args.length then none
  else if m.accepts args.length then enterFrame w closure method m args opts result i
  else
    let array := i.heap.allocate (.oopArray args)
    signal w apply .wrongInputsTo [array.2, method] [] result { i with heap := array.1 }

/-- `interpreter_apply_to_arity_with_optionals`: an error is signalled with the result cell of
the call. -/
def applyTo (w : World) : Nat → Apply
  | 0 => fun _ _ _ _ _ => none
  | depth + 1 => fun closure args opts result i =>
    (i.heap.traitsWindow closure).bind fun window =>
    match window with
    | .compiledMethod | .closureMethod => applyMethod w (applyTo w depth) closure args opts result i
    | _ => signal w (applyTo w depth) .typeErrorOn [closure] [] result i

end SlateVm.Frames

/-! The return from a frame, with the ensure handlers that it runs on the way, and the sends. -/
namespace SlateVm.Frames

section Return

variable (w : World)

def storeResult (place : Int) : Option Value → Interpreter → Option Interpreter
  | some value, i => i.write place value
  | none, i => some i

/-- The innermost handler is taken off the chain and applied on top of a marker frame, whose
`resume` comes back to the return instruction. -/
def runEnsureHandler (place prevCodePointer : Int) (i : Interpreter) : Option Interpreter :=
  let handler := i.stack (i.ensureHandlers + 1)
  (i.stack i.ensureHandlers).index.bind fun outer =>
  if outer < 0x1000000 then
    ({ i with ensureHandlers := outer }.pushAll
      [.smallint i.stackPointer, .smallint place, .smallint prevCodePointer,
        .special .ensureMarker, .nil, .smallint i.framePointer]).bind fun marked =>
    applyTo w w.depth handler [] [] place
      { marked with codePointer := 0, framePointer := marked.stackPointer }
  else none

/-- Back to the frame below `framePointer`; the return of the first frame ends the machine. -/
def popFrame (framePointer : Nat) (i : Interpreter) : Option Interpreter :=
  (i.stack (framePointer - 6)).index.bind fun stackPointer =>
  (i.stack (framePointer - 1)).index.bind fun frame =>
  if frame < functionFrameSize then none
  else
    let closure := i.stack (frame - 3)
    (i.heap.method closure).bind fun method => (i.heap.compiledMethod method).map fun m =>
    { i with
      stackPointer := stackPointer
      framePointer := frame
      codePointer := w.word (i.stack (framePointer - 4))
      lexicalContext := i.stack (frame - 2)
      closure := closure
      method := method
      codeSize := m.code.length }

def returnTo (framePointer : Nat) (result : Option Value) (prevCodePointer : Int)
    (i : Interpreter) : Option Interpreter :=
  let place := w.word (i.stack (framePointer - 5))
  (storeResult place result i).bind fun stored =>
  if framePointer ≤ i.ensureHandlers then runEnsureHandler w place prevCodePointer stored
  else popFrame w framePointer stored

def returnsTooLate (i : Interpreter) (context framePointer : Nat) : Bool :=
  decide (i.stackPointer < framePointer) || i.stack (framePointer - 2) != .object context

def signalMayNotReturn (context framePointer : Nat) (i : Interpreter) : Option Interpreter :=
  signal w (applyTo w w.depth) .mayNotReturnTo [i.closure, .object context] []
    (w.word (i.stack (framePointer - 5))) i

def returnResult (contextDepth : Nat) (result : Option Value) (prevCodePointer : Int)
    (i : Interpreter) : Option Interpreter :=
  if contextDepth = 0 then returnTo w i.framePointer result prevCodePointer i
  else (i.heap.contextAt i.closure contextDepth).bind fun (context, framePointer, _) =>
    if returnsTooLate i context framePointer then signalMayNotReturn w context framePointer i
    else returnTo w framePointer result prevCodePointer i

end Return

section Send

variable (w : World)

abbrev Send := Value → List Value → List Value → List Value → Int → Interpreter → Option Interpreter

/-- `prim_ensure`: the handler is pushed on top of the frame that the body got. -/
def ensure (body handler : Value) (result : Int) (i : Interpreter) : Option Interpreter :=
  (applyTo w w.depth body [] [] result i).bind fun applied =>
  (applied.pushAll [.smallint applied.ensureHandlers, handler]).map fun pushed =>
  { pushed with ensureHandlers := pushed.stackPointer - 2 }

def perform (send : Send) (result : Int) (i : Interpreter) : Action → Option Interpreter
  | .answer value => i.write result value
  | .signal selector args => signal w (applyTo w w.depth) selector args [] result i
  | .applyTo closure args opts => applyTo w w.depth closure args opts result i
  | .ensure body handler => ensure w body handler result i
  | .sendTo selector args dispatchers opts => send selector args dispatchers opts result i
  | .exit => none

def signalArray (selector : Special) (first : Value) (args : List Value) (last : List Value)
    (opts : List Value) (result : Int) (i : Interpreter) : Option Interpreter :=
  let array := i.heap.allocate (.oopArray args)
  if opts = [] then
    signal w (applyTo w w.depth) selector (first :: array.2 :: last) [] result
      { i with heap := array.1 }
  else
    let nested := array.1.allocate (.oopArray opts)
    signal w (applyTo w w.depth) selector (first :: array.2 :: last)
      [.special .optionals, nested.2] result { i with heap := nested.1 }

def sendTo : Nat → Send
  | 0 => fun _ _ _ _ _ _ => none
  | depth + 1 => fun selector args dispatchers opts result i =>
    match w.dispatch selector dispatchers none with
    | none => signalArray w .notFoundOn selector dispatchers [] opts result i
    | some method =>
      (i.heap.traitsWindow method).bind fun window =>
      match window with
      | .primitiveMethod index =>
        (w.primitive index args opts).foldlM (perform w (sendTo depth) result) i
      | .compiledMethod | .closureMethod => applyTo w w.depth method args opts result i
      | .other => signalArray w .applyTo method dispatchers [] opts result i

def resenderFrame (lexicalOffset : Nat) (i : Interpreter) : Option (Nat × Value) :=
  if lexicalOffset = 0 then some (i.framePointer, i.lexicalContext)
  else (i.heap.contextAt i.closure lexicalOffset).bind fun (context, framePointer, _) =>
    if i.stack (framePointer - 2) = .object context then some (framePointer, .object context)
    else none

def resendVars (resender : CompiledMethod) (framePointer : Nat) (lexicalContext : Value)
    (i : Interpreter) : Option (List Value) :=
  let count := resender.inputVariables + resender.optionalKeywords.length
  if resender.heapAllocate then
    match lexicalContext with
    | .object o =>
      match i.heap.object o with
      | .lexicalContext _ held => if count ≤ held.length then some (held.take count) else none
      | _ => none
    | _ => none
  else some ((List.range count).map fun j => i.stack (framePointer + j))

def resendOptionals (method : Value) (keys values : List Value) (i : Interpreter) :
    Option Interpreter :=
  if i.closure = method then
    (i.heap.compiledMethod i.method).bind fun m =>
    dispatchOptionals m (((keys.zip values).filter fun entry => entry.2 != .nil).flatMap
      fun entry => [entry.1, entry.2]) i
  else some i

structure Resend where
  barrier : Value
  method : Value
  resender : CompiledMethod
  args : List Value
  values : List Value

/-- The arguments of a frame on the stack are read through a pointer into the stack, which a
collection that moves it leaves dangling. -/
def resendFrom (lexicalOffset : Nat) (i : Interpreter) : Option Resend :=
  (resenderFrame lexicalOffset i).bind fun (framePointer, lexicalContext) =>
  let barrier := i.stack (framePointer - 3)
  (i.heap.method barrier).bind fun method => (i.heap.compiledMethod method).bind fun resender =>
  (resendVars resender framePointer lexicalContext i).bind fun held =>
  if !resender.heapAllocate && w.stackMoves then none
  else some ⟨barrier, method, resender, held.take resender.inputVariables,
    held.drop resender.inputVariables⟩

def forwardMessage (result : Int) (i : Interpreter) (r : Resend) : Option Interpreter :=
  if maxArity < r.args.length then none
  else match w.dispatch r.resender.selector r.args (some r.barrier) with
  | none => signalArray w .notFoundOn r.resender.selector r.args [r.method] [] result i
  | some callee =>
    (i.heap.traitsWindow callee).bind fun window =>
    match window with
    | .primitiveMethod index =>
      (w.primitive index r.args []).foldlM (perform w (sendTo w w.depth) result) i
    | .compiledMethod | .closureMethod =>
      (applyTo w w.depth callee r.args [] result i).bind
        (resendOptionals callee r.resender.optionalKeywords r.values)
    | .other =>
      let array := i.heap.allocate (.oopArray r.args)
      signal w (applyTo w w.depth) .applyTo [callee, array.2] r.values result
        { i with heap := array.1 }

def resendMessage (lexicalOffset : Nat) (result : Int) (i : Interpreter) : Option Interpreter :=
  (resendFrom w lexicalOffset i).bind (forwardMessage w result i)

end Send

end SlateVm.Frames
