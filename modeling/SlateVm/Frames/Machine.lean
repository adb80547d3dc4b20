import SlateVm.Interp.Vm

/-! The interpreter with its stack, over objects that are named by identity. Where the memory
model follows words and collections, this one follows what the cells of the stack hold. -/
namespace SlateVm.Frames

/-- The special objects that frames are made with and errors are signalled by. -/
inductive Special
  | arrayProto | ensureMarker | optionals
  | typeErrorOn | wrongInputsTo | mayNotReturnTo | notABoolean | notFoundOn | applyTo
  deriving DecidableEq

inductive Value
  | smallint (n : Int)
  | nil
  | true
  | false
  | special (s : Special)
  | object (o : Nat)
  deriving DecidableEq

/-- `object_to_smallint` of a cell that is used as an index. -/
def Value.index : Value → Option Nat
  | .smallint n => if 0 ≤ n then some n.toNat else none
  | _ => none

@[simp] theorem Value.index_ofNat (n : Nat) : (Value.smallint n).index = some n := by
  simp [Value.index]

def Value.boolean (b : Bool) : Value := if b then .true else .false

structure CompiledMethod where
  selector : Value
  inputVariables : Nat
  localVariables : Nat
  restVariable : Bool
  optionalKeywords : List Value
  heapAllocate : Bool
  environment : Value
  code : List Value
  registerCount : Nat
  deriving DecidableEq

inductive Obj
  | compiledMethod (m : CompiledMethod)
  | closure (method : Value) (lexicalWindow : List Value)
  | lexicalContext (framePointer : Nat) (vars : List Value)
  | oopArray (elements : List Value)
  | primitiveMethod (index : Nat)
  | other

structure Heap where
  objects : List Obj

/-- The first delegate of an object's map, which tells the kinds of methods apart. -/
inductive TraitsWindow
  | compiledMethod | closureMethod | primitiveMethod (index : Nat) | other

namespace Heap

variable (h : Heap)

def object (o : Nat) : Obj := h.objects.getD o .other

def allocate (obj : Obj) : Heap × Value := (⟨h.objects ++ [obj]⟩, .object h.objects.length)

def update (o : Nat) (obj : Obj) : Heap := ⟨h.objects.set o obj⟩

/-- The image makes the marker a method whose code is `resume`. -/
def ensureMarkerMethod : CompiledMethod :=
  ⟨.nil, 0, 0, false, [], false, .nil, [.smallint 24], 0⟩

def compiledMethod : Value → Option CompiledMethod
  | .special .ensureMarker => some ensureMarkerMethod
  | .object o =>
    match h.object o with
    | .compiledMethod m => some m
    | _ => none
  | _ => none

def traitsWindow : Value → Option TraitsWindow
  | .smallint _ => none
  | .special .ensureMarker => some .compiledMethod
  | .object o =>
    match h.object o with
    | .compiledMethod _ => some .compiledMethod
    | .closure _ _ => some .closureMethod
    | .primitiveMethod index => some (.primitiveMethod index)
    | _ => some .other
  | _ => some .other

/-- `closure->method`, which a compiled method has of itself. -/
def method : Value → Option Value
  | .special .ensureMarker => some (.special .ensureMarker)
  | .object o =>
    match h.object o with
    | .compiledMethod _ => some (.object o)
    | .closure method _ => some method
    | _ => none
  | _ => none

def lexicalWindow : Value → List Value
  | .object o =>
    match h.object o with
    | .closure _ window => window
    | _ => []
  | _ => []

def contextAt (closure : Value) (offset : Nat) : Option (Nat × Nat × List Value) :=
  match (h.lexicalWindow closure)[offset - 1]? with
  | some (.object o) =>
    match h.object o with
    | .lexicalContext framePointer vars => some (o, framePointer, vars)
    | _ => none
  | _ => none

def contextVariable (context : Value) (j : Nat) : Option Value :=
  match context with
  | .object o =>
    match h.object o with
    | .lexicalContext _ held => held[j]?
    | _ => none
  | _ => none

def elements : Value → List Value
  | .object o =>
    match h.object o with
    | .oopArray elements => elements
    | _ => []
  | _ => []

end Heap

structure Interpreter where
  heap : Heap
  stack : Nat → Value
  stackSize : Nat
  stackPointer : Nat
  framePointer : Nat
  codePointer : Int
  codeSize : Nat
  method : Value
  closure : Value
  lexicalContext : Value
  ensureHandlers : Nat

/-- What a primitive does, one after the other, to the interpreter that it is given. -/
inductive Action
  | answer (value : Value)
  | signal (selector : Special) (args : List Value)
  | applyTo (closure : Value) (args opts : List Value)
  | ensure (body handler : Value)
  | sendTo (selector : Value) (args dispatchers opts : List Value)
  | exit

/-- What the rest of the virtual machine answers in one step: the method that dispatch finds
for a selector, arguments and a resender, what a primitive does with its arguments, the map and
the hash of an object, whether a collection in this step moves the stack, and the word of a cell
that holds no small integer. A step may call itself `depth` deep. -/
structure World where
  dispatch : Value → List Value → Option Value → Option Value
  primitive : Nat → List Value → List Value → List Action
  map : Value → Value
  hash : Value → Nat
  stackMoves : Bool
  address : Value → Int
  depth : Nat

def World.word (w : World) : Value → Int
  | .smallint n => n
  | v => w.address v

namespace Interpreter

variable (i : Interpreter)

def write (cell : Int) (value : Value) : Option Interpreter :=
  if 0 ≤ cell ∧ cell < i.stackSize then
    some { i with stack := Function.update i.stack cell.toNat value }
  else none

def growStack (minimum : Nat) : Interpreter :=
  { i with
    stackSize := growSize minimum minimum i.stackSize
    stack := fun k => if k < i.stackPointer then i.stack k else .nil }

def growFor (n : Nat) : Interpreter :=
  if i.stackSize < i.stackPointer + n then i.growStack (i.stackPointer + n) else i

def stackAllocate (n : Nat) : Option Interpreter :=
  if (i.growFor n).stackPointer + n ≤ (i.growFor n).stackSize then
    some { i.growFor n with stackPointer := i.stackPointer + n }
  else none

def growToPush : Interpreter := if i.stackPointer = i.stackSize then i.growStack 0 else i

def stackPush (value : Value) : Option Interpreter :=
  (i.growToPush.write i.stackPointer value).map fun written =>
    { written with stackPointer := i.stackPointer + 1 }

def pushAll (values : List Value) : Option Interpreter := values.foldlM stackPush i

end Interpreter

end SlateVm.Frames
