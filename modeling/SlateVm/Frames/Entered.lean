import SlateVm.Frames.Chain

/-! What a call leaves: a new frame on top of untouched cells. Errors are calls too, of
the method that they are signalled to. -/
namespace SlateVm.Frames

/-- Cells below `base` and the registers of the interpreter stay as they are. -/
structure Above (base : Nat) (i i' : Interpreter) : Prop where
  cells : ∀ k < base, i'.stack k = i.stack k
  heap : i.heap.Extends i'.heap
  stackSize : i'.stackSize = i.stackSize
  stackPointer : i'.stackPointer = i.stackPointer
  framePointer : i'.framePointer = i.framePointer
  codePointer : i'.codePointer = i.codePointer
  codeSize : i'.codeSize = i.codeSize
  method : i'.method = i.method
  closure : i'.closure = i.closure
  lexicalContext : i'.lexicalContext = i.lexicalContext
  ensureHandlers : i'.ensureHandlers = i.ensureHandlers

section Above

variable {base : Nat} {i i' i'' : Interpreter}

theorem Above.refl (base : Nat) (i : Interpreter) : Above base i i :=
  ⟨fun _ _ => rfl, .refl _, rfl, rfl, rfl, rfl, rfl, rfl, rfl, rfl, rfl⟩

theorem Above.trans (first : Above base i i') (more : Above base i' i'') : Above base i i'' where
  cells k low := (more.cells k low).trans (first.cells k low)
  heap := first.heap.trans more.heap
  stackSize := more.stackSize.trans first.stackSize
  stackPointer := more.stackPointer.trans first.stackPointer
  framePointer := more.framePointer.trans first.framePointer
  codePointer := more.codePointer.trans first.codePointer
  codeSize := more.codeSize.trans first.codeSize
  method := more.method.trans first.method
  closure := more.closure.trans first.closure
  lexicalContext := more.lexicalContext.trans first.lexicalContext
  ensureHandlers := more.ensureHandlers.trans first.ensureHandlers

theorem Above.grow (base : Nat) (i : Interpreter) (obj : Obj) :
    Above base i { i with heap := (i.heap.allocate obj).1 } :=
  ⟨fun _ _ => rfl, i.heap.extends_allocate obj, rfl, rfl, rfl, rfl, rfl, rfl, rfl, rfl, rfl⟩

theorem write_above {cell : Int} {value : Value} (run : i.write cell value = some i')
    (high : (base : Int) ≤ cell) : Above base i i' := by
  unfold Interpreter.write at run
  split at run
  next bound =>
    cases run
    refine ⟨?_, .refl _, rfl, rfl, rfl, rfl, rfl, rfl, rfl, rfl, rfl⟩
    intro k low
    exact Function.update_of_ne (by omega) _ _
  next => cases run

def Vars.From (base : Nat) : Vars → Prop
  | .lexicalContext _ => True
  | .stack first => base ≤ first

theorem storeVar_above {vars : Vars} {j : Nat} {value : Value} (high : vars.From base)
    (run : storeVar vars j value i = some i') : Above base i i' := by
  cases vars with
  | stack first =>
    have low : base ≤ first := high
    exact write_above run (by omega)
  | lexicalContext o =>
    simp only [storeVar] at run
    split at run
    next framePointer held here =>
      split at run
      · cases run
        exact ⟨fun _ _ => rfl, Heap.extends_update here, rfl, rfl, rfl, rfl, rfl, rfl, rfl, rfl, rfl⟩
      · cases run
    next => cases run

theorem storeVars_above {vars : Vars} {values : List Value} {j : Nat} (high : vars.From base)
    (run : storeVars vars j values i = some i') : Above base i i' := by
  induction values generalizing j i with
  | nil =>
    cases run
    exact .refl base _
  | cons value values ih =>
    simp only [storeVars, Option.bind_eq_some_iff] at run
    obtain ⟨stored, first, more⟩ := run
    exact (storeVar_above high first).trans (ih more)

theorem storeRest_above {w : World} {m : CompiledMethod} {vars : Vars} {args : List Value}
    (high : vars.From base) (run : storeRest w m vars args i = some i') : Above base i i' := by
  simp only [storeRest] at run
  split at run
  · split at run
    · cases run
      exact .grow base i _
    · exact (Above.grow base i _).trans (storeVar_above high run)
  · split at run
    · exact storeVar_above high run
    · cases run
      exact .refl base i

theorem currentVars_from {m : CompiledMethod} {vars : Vars} (high : base ≤ i.framePointer)
    (found : currentVars m i = some vars) : vars.From base := by
  unfold currentVars at found
  split at found
  · split at found
    · cases found
      trivial
    · cases found
  · cases found
    exact high

theorem dispatchOptionalKeyword_above {m : CompiledMethod} {key value : Value}
    (high : base ≤ i.framePointer) (run : dispatchOptionalKeyword m key value i = some i') :
    Above base i i' := by
  unfold dispatchOptionalKeyword at run
  split at run
  · cases run
    exact .refl base i
  · simp only [Option.bind_eq_some_iff] at run
    obtain ⟨vars, found, stored⟩ := run
    exact storeVar_above (currentVars_from high found) stored

theorem dispatchOptionals_above {m : CompiledMethod} : ∀ (opts : List Value) {i i' : Interpreter},
    base ≤ i.framePointer → dispatchOptionals m opts i = some i' → Above base i i'
  | [], _, _, _, run => by
    cases run
    exact .refl base _
  | [_], _, _, _, run => by cases run
  | key :: value :: opts, i, i', high, run => by
    simp only [dispatchOptionals, Option.bind_eq_some_iff] at run
    obtain ⟨stored, first, more⟩ := run
    have here := dispatchOptionalKeyword_above high first
    exact here.trans (dispatchOptionals_above opts (by rw [here.framePointer]; exact high) more)

theorem fillVars_above {w : World} {m : CompiledMethod} {vars : Vars} {args opts : List Value}
    (high : vars.From base) (frame : base ≤ i.framePointer)
    (run : fillVars w m vars args opts i = some i') : Above base i i' := by
  simp only [fillVars, Option.bind_eq_some_iff] at run
  obtain ⟨nils, first, rested, second, third⟩ := run
  have one := storeVars_above high first
  have two := storeRest_above high second
  have three : Above base rested i' := dispatchOptionals_above opts
    (by rw [two.framePointer, one.framePointer]; exact frame) third
  exact (one.trans two).trans three

end Above

/-- The stack has grown by `n` cells. -/
structure Allocated (n : Nat) (i i' : Interpreter) : Prop where
  cells : ∀ k < i.stackPointer, i'.stack k = i.stack k
  stackPointer : i'.stackPointer = i.stackPointer + n
  room : i'.stackPointer ≤ i'.stackSize
  heap : i'.heap = i.heap
  framePointer : i'.framePointer = i.framePointer
  codePointer : i'.codePointer = i.codePointer
  ensureHandlers : i'.ensureHandlers = i.ensureHandlers

theorem growStack_cells {i : Interpreter} {minimum k : Nat} (low : k < i.stackPointer) :
    (i.growStack minimum).stack k = i.stack k := if_pos low

theorem growFor_cells {i : Interpreter} {n k : Nat} (low : k < i.stackPointer) :
    (i.growFor n).stack k = i.stack k := by
  unfold Interpreter.growFor
  split
  · exact growStack_cells low
  · rfl

theorem stackAllocate_allocated {i i' : Interpreter} {n : Nat}
    (run : i.stackAllocate n = some i') : Allocated n i i' := by
  unfold Interpreter.stackAllocate at run
  split at run
  next room =>
    cases run
    have fixed : (i.growFor n).stackPointer = i.stackPointer := by
      unfold Interpreter.growFor
      split <;> rfl
    refine ⟨fun k low => growFor_cells low, rfl, by simpa only [fixed] using room, ?_, ?_, ?_, ?_⟩
    all_goals
      unfold Interpreter.growFor
      split <;> rfl
  next => cases run

structure Based (i : Interpreter) (acts : List Activation) : Prop where
  chain : Chain i.heap i.stack i.stackPointer i.ensureHandlers acts
  framePointer : i.framePointer = previousPointer acts
  room : i.stackPointer ≤ i.stackSize

structure Running (i : Interpreter) (acts : List Activation) : Prop extends Based i acts where
  closure : ∀ a ∈ acts.head?, i.closure = a.closure
  lexicalContext : ∀ a ∈ acts.head?, i.lexicalContext = a.context
  method : i.heap.method i.closure = some i.method
  codeSize : ∃ m, i.heap.compiledMethod i.method = some m ∧ i.codeSize = m.code.length

/-- A call that puts its result into the cell `result` has pushed the frame `a`. -/
structure Entered (i i' : Interpreter) (result : Int) (a : Activation) : Prop where
  framePointer : a.framePointer = i.stackPointer + 6
  result : a.result = result
  codePointer : a.codePointer = i.codePointer
  handler : a.handler = none
  cells : ∀ k < i.stackPointer, i'.stack k = i.stack k
  top : i'.stackPointer = a.framePointer + a.cells
  ensureHandlers : i'.ensureHandlers = i.ensureHandlers
  heap : i.heap.Extends i'.heap

section Call

variable {i i' : Interpreter} {acts : List Activation} {w : World} {closure : Value}
  {args opts : List Value} {result : Int}

theorem Based.grow (b : Based i acts) (obj : Obj) :
    Based { i with heap := (i.heap.allocate obj).1 } acts :=
  ⟨b.chain.extend (i.heap.extends_allocate obj), b.framePointer, b.room⟩

theorem makeContext_above (m : CompiledMethod) (framePointer base : Nat) (i : Interpreter) :
    Above base i (makeContext m framePointer i).1 := by
  unfold makeContext
  split
  · exact .grow base i _
  · exact .refl base i

theorem makeContext_from (m : CompiledMethod) (framePointer : Nat) (i : Interpreter) :
    (makeContext m framePointer i).2.2.From framePointer := by
  unfold makeContext
  split
  · trivial
  · exact le_refl framePointer

theorem makeContext_context (m : CompiledMethod) (framePointer o : Nat) (i : Interpreter)
    (here : (makeContext m framePointer i).2.1 = .object o) :
    ∃ held, (makeContext m framePointer i).1.heap.object o = .lexicalContext framePointer held := by
  unfold makeContext at here ⊢
  split at here
  next heapAllocate =>
    cases here
    rw [if_pos heapAllocate]
    exact ⟨_, by rw [Heap.object_allocate, if_pos rfl]⟩
  next => cases here

theorem pushRecord_cells {method context : Value} {codeSize before base k : Nat}
    (apart : k < base ∨ base + 6 ≤ k) :
    (pushRecord closure method context codeSize (base + 6) before result i).stack k = i.stack k := by
  simp only [pushRecord]
  split_ifs
  all_goals first | omega | rfl

theorem pushRecord_recorded {method context : Value} {codeSize base cells : Nat} {a : Activation}
    (same : a = ⟨base + 6, result, i.codePointer, closure, context, cells, none⟩)
    (caller : i.framePointer = previousPointer acts) :
    Recorded (pushRecord closure method context codeSize (base + 6) base result i).stack a acts := by
  subst same
  constructor
  · intro _
    simp [pushRecord]
  all_goals simp [pushRecord, caller]

/-- A call before it writes its record: the cells are there, and the inputs are in them. -/
structure Prepared (i stored : Interpreter) (size : Nat) (context : Value) (vars : Vars) : Prop where
  cells : ∀ k < i.stackPointer, stored.stack k = i.stack k
  stackPointer : stored.stackPointer = i.stackPointer + 6 + size
  room : stored.stackPointer ≤ stored.stackSize
  heap : i.heap.Extends stored.heap
  framePointer : stored.framePointer = i.framePointer
  codePointer : stored.codePointer = i.codePointer
  ensureHandlers : stored.ensureHandlers = i.ensureHandlers
  context : ∀ o, context = .object o →
    ∃ held, stored.heap.object o = .lexicalContext (i.stackPointer + 6) held
  vars : vars.From (i.stackPointer + 6)

theorem enterFrame_prepared {method : Value} {m : CompiledMethod}
    (run : enterFrame w closure method m args opts result i = some i') :
    ∃ stored context vars, Prepared i stored m.frameCells context vars ∧
      fillVars w m vars args opts (pushRecord closure method context m.code.length
        (i.stackPointer + 6) i.stackPointer result stored) = some i' := by
  simp only [enterFrame, functionFrameSize, Option.bind_eq_some_iff] at run
  obtain ⟨allocated, allocates, stored, stores, fills⟩ := run
  have made := makeContext_above m (i.stackPointer + 6) (i.stackPointer + 6) i
  have grown := stackAllocate_allocated allocates
  have inputs := storeVars_above (makeContext_from m (i.stackPointer + 6) i) stores
  refine ⟨stored, _, _, ?_, fills⟩
  constructor
  · intro k low
    rw [inputs.cells k (by omega), grown.cells k (by rw [made.stackPointer]; exact low),
      made.cells k (by omega)]
  · rw [inputs.stackPointer, grown.stackPointer, made.stackPointer]
    omega
  · rw [inputs.stackPointer, inputs.stackSize]
    exact grown.room
  · have objects := made.heap
    rw [← grown.heap] at objects
    exact objects.trans inputs.heap
  · rw [inputs.framePointer, grown.framePointer, made.framePointer]
  · rw [inputs.codePointer, grown.codePointer, made.codePointer]
  · rw [inputs.ensureHandlers, grown.ensureHandlers, made.ensureHandlers]
  · intro o here
    have held := makeContext_context m (i.stackPointer + 6) o i here
    rw [← grown.heap] at held
    exact inputs.heap.context held
  · exact makeContext_from m (i.stackPointer + 6) i

theorem CompiledMethod.registerCount_le (m : CompiledMethod) : m.registerCount ≤ m.frameCells := by
  unfold CompiledMethod.frameCells
  split <;> omega

theorem enterFrame_running (b : Based i acts) {method : Value} {m : CompiledMethod}
    (isMethod : i.heap.method closure = some method)
    (compiled : i.heap.compiledMethod method = some m)
    (run : enterFrame w closure method m args opts result i = some i') :
    ∃ a, Entered i i' result a ∧ a.closure = closure ∧ Running i' (a :: acts) := by
  obtain ⟨stored, context, vars, prepared, fills⟩ := enterFrame_prepared run
  have filled := fillVars_above prepared.vars (le_refl _) fills
  let a : Activation :=
    ⟨i.stackPointer + 6, result, i.codePointer, closure, context, m.frameCells, none⟩
  have low : ∀ k < i.stackPointer, i'.stack k = i.stack k := by
    intro k low
    rw [filled.cells k (by omega), pushRecord_cells (.inl low), prepared.cells k low]
  have objects : i.heap.Extends i'.heap := prepared.heap.trans filled.heap
  have top : i'.stackPointer = i.stackPointer + 6 + m.frameCells := by
    rw [filled.stackPointer]
    exact prepared.stackPointer
  have handlers : i'.ensureHandlers = i.ensureHandlers := by
    rw [filled.ensureHandlers]
    exact prepared.ensureHandlers
  have recorded : Recorded i'.stack a acts := by
    have written : Recorded (pushRecord closure method context m.code.length (i.stackPointer + 6)
        i.stackPointer result stored).stack a acts :=
      pushRecord_recorded (by rw [prepared.codePointer])
        (by rw [prepared.framePointer, b.framePointer])
    constructor
    · intro above
      rw [filled.cells _ (by change i.stackPointer + 6 - 6 < _; omega)]
      exact written.before above
    all_goals rw [filled.cells _ (by change i.stackPointer + 6 - _ < _; omega)]
    · exact written.result
    · exact written.codePointer
    · exact written.closure
    · exact written.context
    · exact written.previous
  have sound : a.Sound i'.heap := by
    constructor
    · intro o here
      exact filled.heap.context (prepared.context o here)
    · exact ⟨method, m, objects.method isMethod, objects.compiledMethod compiled,
        m.registerCount_le⟩
  have chain : Chain i'.heap i'.stack i.stackPointer i.ensureHandlers acts :=
    (b.chain.extend objects).cells fun c hc k holds =>
      low k (lt_of_lt_of_le holds.lt_top (b.chain.below c hc))
  refine ⟨a, ⟨rfl, rfl, rfl, rfl, low, top, handlers, objects⟩, rfl, ?_⟩
  refine ⟨⟨⟨Nat.le_add_left 6 _, ?_, recorded, sound, i.ensureHandlers, handlers.symm, ?_⟩, ?_, ?_⟩,
    ?_, ?_, ?_, ?_⟩
  · rw [top]
    exact Nat.le_refl _
  · exact chain
  · rw [filled.framePointer]
    rfl
  · rw [filled.stackPointer, filled.stackSize]
    exact prepared.room
  · simp only [List.head?_cons, Option.mem_def, Option.some.injEq, forall_eq']
    exact filled.closure
  · simp only [List.head?_cons, Option.mem_def, Option.some.injEq, forall_eq']
    exact filled.lexicalContext
  · rw [filled.closure, filled.method]
    exact objects.method isMethod
  · refine ⟨m, ?_, filled.codeSize⟩
    rw [filled.method]
    exact objects.compiledMethod compiled

theorem Entered.before {start : Interpreter} {a : Activation} (e : Entered start i' result a)
    (same : ∀ k < i.stackPointer, start.stack k = i.stack k)
    (stackPointer : start.stackPointer = i.stackPointer)
    (codePointer : start.codePointer = i.codePointer)
    (ensureHandlers : start.ensureHandlers = i.ensureHandlers)
    (heap : i.heap.Extends start.heap) : Entered i i' result a where
  framePointer := by rw [e.framePointer, stackPointer]
  result := e.result
  codePointer := by rw [e.codePointer, codePointer]
  handler := e.handler
  cells k low := (e.cells k (by rw [stackPointer]; exact low)).trans (same k low)
  top := e.top
  ensureHandlers := by rw [e.ensureHandlers, ensureHandlers]
  heap := heap.trans e.heap

def Calls (apply : Apply) : Prop :=
  ∀ ⦃i i' : Interpreter⦄ ⦃acts : List Activation⦄ ⦃closure : Value⦄ ⦃args opts : List Value⦄
    ⦃result : Int⦄, Based i acts → apply closure args opts result i = some i' →
    ∃ a, Entered i i' result a ∧ Running i' (a :: acts)

theorem Calls.signal {apply : Apply} (calls : Calls apply) {selector : Special}
    (b : Based i acts) (run : signal w apply selector args opts result i = some i') :
    ∃ a, Entered i i' result a ∧ Running i' (a :: acts) := by
  simp only [Frames.signal, Option.bind_eq_some_iff] at run
  obtain ⟨method, _, applied⟩ := run
  exact calls b applied

theorem Calls.signal_grow {apply : Apply} (calls : Calls apply) {selector : Special} {obj : Obj}
    (b : Based i acts)
    (run : Frames.signal w apply selector args opts result
      { i with heap := (i.heap.allocate obj).1 } = some i') :
    ∃ a, Entered i i' result a ∧ Running i' (a :: acts) := by
  obtain ⟨a, entered, running⟩ := calls.signal (b.grow obj) run
  exact ⟨a, entered.before (fun _ _ => rfl) rfl rfl rfl (i.heap.extends_allocate obj), running⟩

theorem Calls.method {apply : Apply} (calls : Calls apply) (w : World) :
    Calls (applyMethod w apply) := by
  intro i i' acts closure args opts result b run
  simp only [applyMethod, Option.bind_eq_some_iff] at run
  obtain ⟨method, isMethod, m, compiled, run⟩ := run
  split at run
  · cases run
  · split at run
    · obtain ⟨a, entered, _, running⟩ := enterFrame_running b isMethod compiled run
      exact ⟨a, entered, running⟩
    · exact calls.signal_grow b run

theorem applyTo_calls (w : World) (depth : Nat) : Calls (applyTo w depth) := by
  induction depth with
  | zero =>
    intro i i' acts closure args opts result _ run
    cases run
  | succ depth ih =>
    intro i i' acts closure args opts result b run
    simp only [applyTo, Option.bind_eq_some_iff] at run
    obtain ⟨window, _, run⟩ := run
    cases window with
    | compiledMethod => exact Calls.method ih w b run
    | closureMethod => exact Calls.method ih w b run
    | primitiveMethod index => exact Calls.signal ih b run
    | other => exact Calls.signal ih b run

end Call

end SlateVm.Frames
