import SlateVm.Frames.Return

/-! The code of a method, and one round of the interpreter's loop. -/
namespace SlateVm.Frames

/-- An instruction with its operands, in the order of the code. -/
inductive Instr
  | send (result : Nat) (selector : Value) (args : List Nat)
  | sendMessageWithOpts (result : Nat) (selector : Value) (optsArray : Nat) (args : List Nat)
  | sendWithOptionalsInline (result : Nat) (selector : Value) (args opts : List Nat)
  | newArrayWith (result : Nat) (elements : List Nat)
  | newClosure (result : Nat) (block : Value)
  | loadLiteral (dest : Nat) (literal : Value)
  | resendMessage (result lexicalOffset : Nat)
  | loadVariable (var : Nat)
  | storeVariable (var : Nat)
  | loadFreeVariable (dest lexOffset varIndex : Nat)
  | storeFreeVariable (lexOffset varIndex src : Nat)
  | moveRegister (dest src : Nat)
  | isNil (result src : Nat)
  | isIdenticalTo (result dest src : Nat)
  | branchKeyed (key table : Nat)
  | branchIfTrue (cond : Nat) (offset : Int)
  | branchIfFalse (cond : Nat) (offset : Int)
  | jumpTo (offset : Int)
  | loadEnvironment (dest : Nat)
  | returnRegister (reg : Nat)
  | resume
  | returnFrom (reg lexicalOffset : Nat)
  | returnValue (value : Value)
  | primitiveDo (primitive : Nat) (result : Nat) (args : List Nat)
  | inlinePrimitiveCheck (result : Nat) (maps : Value) (primitive : Nat) (jump : Int) (args : List Nat)
  | inlineMethodCheck (maps : Value) (jump : Int) (args : List Nat)
  | applyTo (method result : Nat) (args : List Nat)
  deriving DecidableEq

section Decode

def Value.number : Value → Option Int
  | .smallint n => some n
  | _ => none

/-- `count` operands that name registers, and the words after them. -/
def registers (count : Nat) (words : List Value) : Option (List Nat) :=
  if count ≤ words.length then (words.take count).mapM Value.index else none

def operands : Nat → List Value → Option (Instr × Nat)
  | 0, result :: selector :: arity :: words => do
    let args ← registers (← arity.index) words
    return (.send (← result.index) selector args, 4 + args.length)
  | 3, dest :: literal :: _ => do return (.loadLiteral (← dest.index) literal, 3)
  | 5, result :: selector :: arity :: optsArray :: words => do
    let args ← registers (← arity.index) words
    return (.sendMessageWithOpts (← result.index) selector (← optsArray.index) args, 5 + args.length)
  | 7, result :: block :: _ => do return (.newClosure (← result.index) block, 3)
  | 8, result :: size :: words => do
    let elements ← registers (← size.index) words
    return (.newArrayWith (← result.index) elements, 3 + elements.length)
  | 9, result :: offset :: _ => do return (.resendMessage (← result.index) (← offset.index), 3)
  | 10, reg :: offset :: _ => do return (.returnFrom (← reg.index) (← offset.index), 3)
  | 11, dest :: _ => do return (.loadEnvironment (← dest.index), 2)
  | 12, var :: _ => do return (.loadVariable (← var.index), 2)
  | 13, var :: _ => do return (.storeVariable (← var.index), 2)
  | 14, dest :: offset :: var :: _ => do
    return (.loadFreeVariable (← dest.index) (← offset.index) (← var.index), 4)
  | 15, offset :: var :: src :: _ => do
    return (.storeFreeVariable (← offset.index) (← var.index) (← src.index), 4)
  | 16, result :: dest :: src :: _ => do
    return (.isIdenticalTo (← result.index) (← dest.index) (← src.index), 4)
  | 17, key :: table :: _ => do return (.branchKeyed (← key.index) (← table.index), 3)
  | 18, offset :: _ => do return (.jumpTo (← offset.number), 2)
  | 19, dest :: src :: _ => do return (.moveRegister (← dest.index) (← src.index), 3)
  | 20, cond :: offset :: _ => do return (.branchIfTrue (← cond.index) (← offset.number), 3)
  | 21, cond :: offset :: _ => do return (.branchIfFalse (← cond.index) (← offset.number), 3)
  | 22, reg :: _ => do return (.returnRegister (← reg.index), 2)
  | 23, value :: _ => some (.returnValue value, 2)
  | 24, _ => some (.resume, 1)
  | 25, primitive :: arity :: result :: words => do
    let args ← registers (← arity.index) words
    return (.primitiveDo (← primitive.index) (← result.index) args, 4 + args.length)
  | 26, method :: arity :: result :: words => do
    let args ← registers (← arity.index) words
    return (.applyTo (← method.index) (← result.index) args, 4 + args.length)
  | 27, result :: src :: _ => do return (.isNil (← result.index) (← src.index), 3)
  | 28, result :: maps :: primitive :: arity :: jump :: words => do
    let args ← registers (← arity.index) words
    return (.inlinePrimitiveCheck (← result.index) maps (← primitive.index) (← jump.number) args,
      6 + args.length)
  | 29, maps :: arity :: jump :: words => do
    let args ← registers (← arity.index) words
    return (.inlineMethodCheck maps (← jump.number) args, 4 + args.length)
  | 30, result :: selector :: arity :: optCount :: words => do
    let args ← registers (← arity.index) words
    let opts ← registers (← optCount.index) (words.drop args.length)
    return (.sendWithOptionalsInline (← result.index) selector args opts,
      5 + args.length + opts.length)
  | _, _ => none

def decode : List Value → Option (Instr × Nat)
  | op :: words => op.index.bind fun op => operands op words
  | [] => none

def Interpreter.fetch (i : Interpreter) : Option (CompiledMethod × Instr × Nat) :=
  (i.heap.compiledMethod i.method).bind fun m =>
  if i.codePointer < 0 then none
  else (decode (m.code.drop i.codePointer.toNat)).map fun (instr, length) => (m, instr, length)

end Decode

section Registers

variable (m : CompiledMethod) (i : Interpreter)

/-- `SSA_REGISTER`. A register that the method does not have is no part of the frame; most
opcodes assert that theirs is one. -/
def Interpreter.register (r : Nat) : Option Value :=
  if r < m.registerCount then some (i.stack (i.framePointer + r)) else none

def Interpreter.setRegister (r : Nat) (value : Value) : Option Interpreter :=
  if r < m.registerCount then i.write (i.framePointer + r : Nat) value else none

def Interpreter.readRegisters (rs : List Nat) : Option (List Value) := rs.mapM (i.register m)

def Interpreter.readArgs (rs : List Nat) : Option (List Value) :=
  if rs.length ≤ maxArity then i.readRegisters m rs else none

def Interpreter.resultCell (r : Nat) : Option Int :=
  if r < m.registerCount then some (i.framePointer + r : Nat) else none

end Registers

/-- The pairs of a key and an offset in a branch table, from the one that the hash leads to
on and then those before it. -/
def branchEntries (start : Nat) (table : List Value) : List (Value × Value) :=
  (List.range' start ((table.length - start + 1) / 2) 2 ++ List.range' 0 (start / 2) 2).map
    fun index => (table.getD index .nil, table.getD (index + 1) .nil)

/-- `interpreter_branch_keyed`: a nil offset ends the search. -/
def branchKeyed (w : World) (table : List Value) (key : Value) (i : Interpreter) : Interpreter :=
  let start := w.hash key &&& (table.length - 2)
  match (branchEntries start table).find? fun entry => entry.2 == .nil || entry.1 == key with
  | none => i
  | some (_, offset) =>
    if offset = .nil then i else { i with codePointer := i.codePointer + w.word offset }

section Execute

variable (w : World)

/-- A conditional branch. Another value than a Boolean is signalled, with the number of the
register in place of its cell, and the branch is to be executed again. -/
def branchIf (wanted : Bool) (m : CompiledMethod) (cond : Nat) (offset : Int) (i : Interpreter) :
    Option Interpreter :=
  (i.register m cond).bind fun value =>
  if value = Value.boolean wanted then some { i with codePointer := i.codePointer + (offset - 1) }
  else if value = Value.boolean !wanted then some i
  else signal w (applyTo w w.depth) .notABoolean [value] [] cond
    { i with codePointer := i.codePointer - 3 }

def newClosure (block : Value) (i : Interpreter) : Obj :=
  .closure block (i.lexicalContext ::
    if i.closure = i.method then [] else i.heap.lexicalWindow i.closure)

def mapsMatch (maps : Value) (args : List Value) (i : Interpreter) : Bool :=
  i.heap.elements maps == args.map w.map

def performPrimitive (index : Nat) (args : List Value) (result : Int) (i : Interpreter) :
    Option Interpreter :=
  (w.primitive index args []).foldlM (perform w (sendTo w w.depth) result) i

def loadVariable (m : CompiledMethod) (var : Nat) (i : Interpreter) : Option Interpreter :=
  if m.heapAllocate then
    (i.heap.contextVariable i.lexicalContext var).bind fun value => i.setRegister m var value
  else some i

def storeVariable (m : CompiledMethod) (var : Nat) (i : Interpreter) : Option Interpreter :=
  if m.heapAllocate then
    (i.register m var).bind fun value => (currentVars m i).bind fun vars => storeVar vars var value i
  else some i

def execute (m : CompiledMethod) (prevPointer : Int) (i : Interpreter) :
    Instr → Option Interpreter
  | .send result selector args => do
    let place ← i.resultCell m result
    let args ← i.readArgs m args
    sendTo w w.depth selector args args [] place i
  | .sendMessageWithOpts result selector optsArray args => do
    let place ← i.resultCell m result
    let args ← i.readArgs m args
    let opts := i.heap.elements (← i.register m optsArray)
    if opts.length ≤ maxArity then sendTo w w.depth selector args args opts place i else none
  | .sendWithOptionalsInline result selector args opts => do
    let place ← i.resultCell m result
    let args ← i.readArgs m args
    let opts ← i.readArgs m opts
    sendTo w w.depth selector args args opts place i
  | .newArrayWith result elements => do
    let array := i.heap.allocate (.oopArray (← i.readRegisters m elements))
    { i with heap := array.1 }.setRegister m result array.2
  | .newClosure result block =>
    let closure := i.heap.allocate (newClosure block i)
    { i with heap := closure.1 }.setRegister m result closure.2
  | .loadLiteral dest literal => i.setRegister m dest literal
  | .resendMessage result lexicalOffset => do
    resendMessage w lexicalOffset (← i.resultCell m result) i
  | .loadVariable var => loadVariable m var i
  | .storeVariable var => storeVariable m var i
  | .loadFreeVariable dest lexOffset varIndex => do
    let (_, _, held) ← i.heap.contextAt i.closure lexOffset
    i.setRegister m dest (← held[varIndex]?)
  | .storeFreeVariable lexOffset varIndex src => do
    let (context, _, _) ← i.heap.contextAt i.closure lexOffset
    storeVar (.lexicalContext context) varIndex (← i.register m src) i
  | .moveRegister dest src => do i.setRegister m dest (← i.register m src)
  | .isNil result src => do
    i.setRegister m result (.boolean ((← i.register m src) == .nil))
  | .isIdenticalTo result dest src => do
    i.setRegister m result (.boolean ((← i.register m dest) == (← i.register m src)))
  | .branchKeyed key table => do
    let table ← i.register m table
    return branchKeyed w (i.heap.elements table) (← i.register m key) i
  | .branchIfTrue cond offset => branchIf w true m cond offset i
  | .branchIfFalse cond offset => branchIf w false m cond offset i
  | .jumpTo offset =>
    if offset - 1 < 20000 ∧ -20000 < offset - 1 then
      some { i with codePointer := i.codePointer + (offset - 1) }
    else none
  | .loadEnvironment dest => i.setRegister m dest m.environment
  | .returnRegister reg => do returnResult w 0 (some (← i.register m reg)) prevPointer i
  | .resume => returnResult w 0 none prevPointer i
  | .returnFrom reg lexicalOffset => do
    returnResult w lexicalOffset (some (← i.register m reg)) prevPointer i
  | .returnValue value => returnResult w 0 (some value) prevPointer i
  | .primitiveDo primitive result args => do
    let place ← i.resultCell m result
    let args ← i.readArgs m args
    performPrimitive w (← (← i.register m primitive).index) args place i
  | .inlinePrimitiveCheck result maps primitive jump args => do
    let place ← i.resultCell m result
    let args ← i.readArgs m args
    if mapsMatch w maps args i then
      performPrimitive w primitive args place { i with codePointer := i.codePointer + jump }
    else some i
  | .inlineMethodCheck maps jump args => do
    let args ← i.readArgs m args
    if mapsMatch w maps args i then some i
    else some { i with codePointer := i.codePointer + jump }
  | .applyTo method result args => do
    let place ← i.resultCell m result
    let args ← i.readArgs m args
    Frames.applyTo w w.depth (← i.register m method) args [] place i

def interpret (i : Interpreter) : Option Interpreter :=
  i.fetch.bind fun (m, instr, length) =>
  execute w m i.codePointer { i with codePointer := i.codePointer + length } instr

def interrupt (i : Interpreter) : Option Interpreter :=
  signal w (applyTo w w.depth) .typeErrorOn [.nil] [] (w.word (i.stack (i.framePointer - 5))) i

end Execute

end SlateVm.Frames
