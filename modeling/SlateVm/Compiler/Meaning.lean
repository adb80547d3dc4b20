import SlateVm.Compiler.Boundaries
import SlateVm.Compiler.Evaluation
import SlateVm.Frames.Boot

/-! Runs of the interpreter in one frame, where the messages that are sent are answered as in an
evaluation. -/
namespace SlateVm.Compiler
open Frames (Value Instr Interpreter World)

structure Performed where
  selector : Value
  arguments : List Value
  optionals : List Value

structure FrameState where
  interpreter : Interpreter
  performed : List Performed

section Steps

variable (w : World) (answer : Nat → Value)

def sending (m : Frames.CompiledMethod) (i : Interpreter) : Instr → Option (Option (Int × Performed))
  | .send result selector args => do
    return some (← i.resultCell m result, ⟨selector, ← i.readArgs m args, []⟩)
  | .sendMessageWithOpts result selector optsArray args => do
    let opts := i.heap.elements (← i.register m optsArray)
    return some (← i.resultCell m result, ⟨selector, ← i.readArgs m args, opts⟩)
  | .sendWithOptionalsInline result selector args opts => do
    return some (← i.resultCell m result, ⟨selector, ← i.readArgs m args, ← i.readArgs m opts⟩)
  | _ => some none

def frameStep (s : FrameState) : Option FrameState := do
  let i := s.interpreter
  let (m, instr, length) ← i.fetch
  match ← sending m i instr with
  | some (cell, message) =>
    let i ← i.write cell (answer s.performed.length)
    return ⟨{ i with codePointer := i.codePointer + length }, s.performed ++ [message]⟩
  | none => return ⟨← Frames.interpret w i, s.performed⟩

def leaves (i : Interpreter) : Option (Value × Nat) := do
  let (m, instr, _) ← i.fetch
  match instr with
  | .returnRegister r => return (← i.register m r, 0)
  | .returnValue value => return (value, 0)
  | .returnFrom r level => return (← i.register m r, level)
  | _ => none

inductive FrameRun where
  /-- The code pointer has got to the place asked for. -/
  | reached (s : FrameState)
  | left (s : FrameState) (value : Value) (level : Nat)
  | going
  /-- The interpreter finds no instruction, or cannot execute it. -/
  | stopped

def frameRun (stop : Int) : Nat → FrameState → FrameRun
  | 0, _ => .going
  | rounds + 1, s =>
    if s.interpreter.codePointer = stop then .reached s
    else match leaves s.interpreter, frameStep w answer s with
      | some (value, level), _ => .left s value level
      | none, some s' => frameRun stop rounds s'
      | none, none => .stopped

theorem frameRun_stopped {stop : Int} {s : FrameState} (before : s.interpreter.codePointer ≠ stop)
    (none : s.interpreter.fetch = none) (rounds : Nat) :
    frameRun w answer stop (rounds + 1) s = .stopped := by
  rw [frameRun, if_neg before]
  simp [leaves, frameStep, none]

end Steps

section Shows

variable (p : Placement) (gen : Generator) (i : Interpreter)

/-- A value of the machine is what a value of the evaluation stands for. -/
inductive Represents : Datum → Value → Prop where
  | literal (value : Literal) : Represents (.literal value) (p.literal value)
  | environment (n : Nat) : Represents .environment (.object (p.namespace_ n))
  | array {elements : List Datum} {values : List Value} {o : Nat}
      (object : i.heap.object o = .oopArray values)
      (each : List.Forall₂ Represents elements values) : Represents (.array elements) (.object o)
  | closure {scope : ScopeId} {method : MethodId} {m : CompiledMethod} {value : Value}
      (found : gen.methods[method]? = some m) (tree : m.sourceTree = scope)
      (ofMethod : i.heap.method value = some (.object (p.method method))) :
      Represents (.closure scope) value

structure Performed.Represents (sent : Sent) (message : Performed) : Prop where
  selector : message.selector = .object (p.symbol sent.selector)
  arguments : List.Forall₂ (Compiler.Represents p gen i) sent.arguments message.arguments
  optionals : List.Forall₂ (Compiler.Represents p gen i)
    (sent.optionals.flatMap fun (key, value) => [.literal (.symbol key), value]) message.optionals

def variableOf (m : CompiledMethod) (j : Nat) : Option Value :=
  if m.heapAllocate then i.heap.contextVariable i.lexicalContext j
  else some (i.stack (i.framePointer + j))

def VariablesShow (m : CompiledMethod) (vars : Variable → Datum) : Prop :=
  ∀ j var, m.localVariables[j]? = some var →
    ∃ value, variableOf i m j = some value ∧ Represents p gen i (vars var) value

/-- The frame has performed what the evaluation has sent, and has its variables. -/
structure Shows (m : CompiledMethod) (progress : Progress) (s : FrameState) : Prop where
  sent : List.Forall₂ (Performed.Represents p gen s.interpreter) progress.sent s.performed
  vars : VariablesShow p gen s.interpreter m progress.vars

end Shows

end SlateVm.Compiler

/-! The code of a block against the meaning of its tree. -/
namespace SlateVm.Compiler
open Frames (Value Interpreter World)

section Blocks

inductive Ends (p : Placement) (gen : Generator) (i : Interpreter) :
    Except Stop Datum → Value → Nat → Prop where
  | value {d : Datum} {v : Value} : Represents p gen i d v → Ends p gen i (.ok d) v 0
  | level {d : Datum} {v : Value} (n : Nat) : Represents p gen i d v →
      Ends p gen i (.error (.returned (.level n) d)) v n
  | close {d : Datum} {v : Value} : Represents p gen i d v →
      Ends p gen i (.error (.returned .close d)) v 0
  | far {d : Datum} {v : Value} : Represents p gen i d v →
      Ends p gen i (.error (.returned .far d)) v 0

def Holds (p : Placement) (gen : Generator) (i : Interpreter) : Prop :=
  ∀ id m, gen.methods[id]? = some m → i.heap.object (p.method id) = .compiledMethod (p.compiledMethod m)

structure Entered (p : Placement) (gen : Generator) (method : MethodId) (m : CompiledMethod)
    (vars : Variable → Datum) (i : Interpreter) : Prop where
  holds : Holds p gen i
  running : i.method = .object (p.method method)
  codePointer : i.codePointer = 0
  room : i.framePointer + m.registerCount ≤ i.stackSize
  shows : VariablesShow p gen i m vars

def evaluateBlock (scopes : ScopeId → Scope) (answer : Nat → Literal) (vars : Variable → Datum)
    (fuel : Nat) (statements : List Node) : Except Stop Datum × Progress :=
  (evaluateStatements (evaluate scopes answer fuel) statements).run.run ⟨vars, []⟩

/-- The code does what the tree means: the same sends with the same arguments, the same variables
and the same value. -/
def CompiledFaithfully (scopes : ScopeId → Scope) (nextScope : ScopeId) (scope : ScopeId)
    (statements : List Node) : Prop :=
  ∃ fuel method gen m, compile fuel scopes nextScope (.block scope statements) = .ok (method, gen) ∧
    gen.methods[method]? = some m ∧
    ∀ p w vars answer i, Entered p gen method m vars i →
      ∃ rounds steps s value level outcome progress,
        frameRun w (fun n => p.literal (answer n)) m.code.length rounds ⟨i, []⟩ =
          .left s value level ∧
        evaluateBlock scopes answer vars steps statements = (outcome, progress) ∧
        Ends p gen s.interpreter outcome value level ∧ Shows p gen m progress s

def freshFrame (p : Placement) (gen : Generator) (method : MethodId) (m : CompiledMethod) :
    Interpreter where
  heap := ⟨gen.methods.map (fun m => .compiledMethod (p.compiledMethod m)) ++
    [.lexicalContext 6 (List.replicate m.localVariables.length .nil)]⟩
  stack _ := .nil
  stackSize := 6 + m.registerCount
  stackPointer := 6 + m.registerCount
  framePointer := 6
  codePointer := 0
  codeSize := m.code.length
  method := .object method
  closure := .object method
  lexicalContext := .object gen.methods.length
  ensureHandlers := 0

theorem freshFrame_method {p : Placement} {gen : Generator} {method id : MethodId}
    {m m' : CompiledMethod} (found : gen.methods[id]? = some m') :
    (freshFrame p gen method m).heap.object id = .compiledMethod (p.compiledMethod m') := by
  obtain ⟨inside, rfl⟩ := List.getElem?_eq_some_iff.mp found
  simp [Frames.Heap.object, freshFrame, List.getD, List.getElem?_append_left, inside]

theorem freshFrame_entered (gen : Generator) (method : MethodId) (m : CompiledMethod) :
    Entered samplePlacement gen method m (fun _ => .literal .nil)
      (freshFrame samplePlacement gen method m) where
  holds id m' here := freshFrame_method here
  running := rfl
  codePointer := rfl
  room := Nat.le_refl _
  shows := by
    intro j var here
    refine ⟨.nil, ?_, .literal .nil⟩
    have inside := (List.getElem?_eq_some_iff.mp here).1
    unfold variableOf
    split
    · simp [Frames.Heap.contextVariable, Frames.Heap.object, freshFrame, List.getD, inside]
    · rfl

theorem fetch_stopped {p : Placement} {i : Interpreter} {m : Frames.CompiledMethod}
    {code : List Element} {position : Nat} (running : i.heap.compiledMethod i.method = some m)
    (codePointer : i.codePointer = position) (same : m.code.drop position = code.map p.element)
    (opens : Opens code) : i.fetch = none := by
  rw [Interpreter.fetch, running, Option.bind_some, codePointer,
    if_neg (Int.not_lt.mpr (Int.natCast_nonneg position)), Int.toNat_natCast, same,
    p.decode_opens opens]
  rfl

theorem Opens.nonempty {code : List Element} (opens : Opens code) : 0 < code.length := by
  obtain ⟨i, first⟩ := opens
  cases code with
  | nil => cases first
  | cons e rest => exact Nat.succ_pos _

theorem compiled_stopped {fuel : Nat} {scopes : ScopeId → Scope} {nextScope : ScopeId} {root : Node}
    {method : MethodId} {gen : Generator} {m : CompiledMethod}
    (run : compile fuel scopes nextScope root = .ok (method, gen))
    (found : gen.methods[method]? = some m) {p : Placement} {vars : Variable → Datum}
    {i : Interpreter} (entered : Entered p gen method m vars i) (w : World) (answer : Nat → Value)
    (rounds : Nat) :
    frameRun w answer m.code.length (rounds + 1) ⟨i, []⟩ = .stopped := by
  have opens : Opens m.code := (compile_opens run).2 m (List.mem_of_getElem? found)
  have running : i.heap.compiledMethod i.method = some (p.compiledMethod m) := by
    rw [entered.running]
    simp only [Frames.Heap.compiledMethod, entered.holds method m found]
  refine frameRun_stopped w answer ?_ (@fetch_stopped p i _ m.code 0 running ?_ ?_ opens) rounds
  · rw [entered.codePointer]
    exact (Int.ofNat_lt.mpr opens.nonempty).ne
  · exact entered.codePointer
  · exact List.drop_zero

theorem compiled_never_left {fuel : Nat} {scopes : ScopeId → Scope} {nextScope : ScopeId}
    {root : Node} {method : MethodId} {gen : Generator} {m : CompiledMethod}
    (run : compile fuel scopes nextScope root = .ok (method, gen))
    (found : gen.methods[method]? = some m) {p : Placement} {vars : Variable → Datum}
    {i : Interpreter} (entered : Entered p gen method m vars i) (w : World) (answer : Nat → Value)
    (rounds : Nat) (s : FrameState) (value : Value) (level : Nat) :
    frameRun w answer m.code.length rounds ⟨i, []⟩ ≠ .left s value level := by
  intro left
  cases rounds with
  | zero => cases left
  | succ rounds =>
    rw [compiled_stopped run found entered] at left
    cases left

/-- The first opcode of each method is an object, so no tree has code that does what it means. -/
theorem block_unfaithful (scopes : ScopeId → Scope) (nextScope : ScopeId) (scope : ScopeId)
    (statements : List Node) : ¬ CompiledFaithfully scopes nextScope scope statements := by
  rintro ⟨fuel, method, gen, m, run, found, faithful⟩
  have entered := freshFrame_entered gen method m
  obtain ⟨rounds, _, s, value, level, _, _, left, _⟩ := faithful samplePlacement
    (Frames.answering .nil) (fun _ => .literal .nil) (fun _ => .nil) _ entered
  exact compiled_never_left run found entered _ _ rounds s value level left

/-- The block `[3]` evaluates to 3, and its code does not. -/
theorem literal_unfaithful :
    (evaluateBlock sampleScopes (fun _ => .nil) (fun _ => .literal .nil) 1
      [.literal (.integer 3)]).1 = .ok (.literal (.integer 3)) ∧
    ¬ CompiledFaithfully sampleScopes 1 0 [.literal (.integer 3)] := by
  refine ⟨rfl, ?_⟩
  rintro ⟨fuel, method, gen, m, run, found, faithful⟩
  have entered := freshFrame_entered gen method m
  obtain ⟨rounds, _, s, value, level, _, _, left, _⟩ := faithful samplePlacement
    (Frames.answering .nil) (fun _ => .literal .nil) (fun _ => .nil) _ entered
  exact compiled_never_left run found entered _ _ rounds s value level left

end Blocks

end SlateVm.Compiler
