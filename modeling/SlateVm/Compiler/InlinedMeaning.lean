import SlateVm.Compiler.Meaning

/-! The code in place of a message against what sending the message means. -/
namespace SlateVm.Compiler
open Generator
open Frames (Value Interpreter World)

def newRelocations (c c' : Context) : List (Nat × Nat) :=
  c'.relocations.take (c'.relocations.length - c.relocations.length)

/-- A method as it may be finished, after a part of its code. -/
structure Finishes (s : Generator) (c : Context) (code : List Element) (m : CompiledMethod) :
    Prop where
  tree : ∃ m', s.methods[c.method]? = some m' ∧ m.sourceTree = m'.sourceTree ∧
    (m'.heapAllocate → m.heapAllocate)
  vars : m.localVariables = (s.scopes m.sourceTree).localVariables
  registers : c.currentRegister < m.registerCount
  code : ∃ rest, m.code = code ++ rest

structure Amid (p : Placement) (s : Generator) (m : CompiledMethod) (position : Nat)
    (vars : Variable → Datum) (i : Interpreter) : Prop where
  running : i.heap.compiledMethod i.method = some (p.compiledMethod m)
  codePointer : i.codePointer = position
  room : i.framePointer + m.registerCount ≤ i.stackSize
  shows : VariablesShow p s i m vars

def evaluateNode (scopes : ScopeId → Scope) (answer : Nat → Literal) (vars : Variable → Datum)
    (fuel : Nat) (node : Node) : Except Stop Datum × Progress :=
  (evaluate scopes answer fuel node).run.run ⟨vars, []⟩

def Achieves (p : Placement) (s : Generator) (m : CompiledMethod) (n : Nat)
    (run : Nat → FrameRun) : Except Stop Datum → Progress → Prop
  | .ok d, progress => ∃ rounds after value, run rounds = .reached after ∧
      after.interpreter.register (p.compiledMethod m) n = some value ∧
      Represents p s after.interpreter d value ∧ Shows p s m progress after
  | .error (.returned target d), progress => ∃ rounds after value level,
      run rounds = .left after value level ∧
      Ends p s after.interpreter (.error (.returned target d)) value level ∧
      Shows p s m progress after
  | .error _, _ => True

/-- Generation answers a register; its branches have got their labels; the code never stops the
interpreter, and gets the value of the message into the register, with its effects. -/
def MeansTheSend (s : Generator) (result : Option Operand) (node : Node) : Prop :=
  ∃ fuel n s' c c' code, (generate fuel node result).run s = .ok (.register n, s') ∧
    s.contexts.head? = some c ∧ s'.contexts.head? = some c' ∧
    resolveLabels { c' with relocations := newRelocations c c' } = some code ∧
    ∀ m p w vars answer i, Finishes s' c' code m → Amid p s' m c.code.length vars i →
      let run := fun rounds =>
        frameRun w (fun n => p.literal (answer n)) c'.code.length rounds ⟨i, []⟩
      (∀ rounds, run rounds ≠ .stopped) ∧
      ∀ steps, Achieves p s' m n run (evaluateNode s.scopes answer vars steps node).1
        (evaluateNode s.scopes answer vars steps node).2

theorem segment_opens {c c' : Context} {code : List Element} (grows : c.Grows c')
    (more : c.code.length < c'.code.length)
    (resolved : resolveLabels { c' with relocations := newRelocations c c' } = some code) :
    Opens (code.drop c.code.length) := by
  obtain ⟨added, same, opens⟩ := grows.code
  obtain ⟨relocations, here, behind⟩ := grows.relocations
  have new : newRelocations c c' = relocations := by
    rw [newRelocations, here, List.length_append, Nat.add_sub_cancel, List.take_left]
  have first := resolveLabels_getElem? (fun r mem => behind r (new ▸ mem)) resolved
  rcases opens with rfl | opens
  · rw [same, List.append_nil] at more
    exact absurd more (Nat.lt_irrefl _)
  · rw [opens_iff] at opens ⊢
    obtain ⟨i, starts⟩ := opens
    refine ⟨i, ?_⟩
    rw [List.getElem?_drop, Nat.add_zero, first]
    dsimp only
    rw [same, List.getElem?_append_right (Nat.le_refl _), Nat.sub_self, starts]

def frameAt (m : CompiledMethod) (position : Nat) : Interpreter where
  heap := ⟨[.compiledMethod (samplePlacement.compiledMethod m),
    .lexicalContext 6 (List.replicate m.localVariables.length .nil)]⟩
  stack _ := .nil
  stackSize := 6 + m.registerCount
  stackPointer := 6 + m.registerCount
  framePointer := 6
  codePointer := position
  codeSize := m.code.length
  method := .object 0
  closure := .object 0
  lexicalContext := .object 1
  ensureHandlers := 0

theorem frameAt_amid (s : Generator) (m : CompiledMethod) (position : Nat) :
    Amid samplePlacement s m position (fun _ => .literal .nil) (frameAt m position) where
  running := rfl
  codePointer := rfl
  room := Nat.le_refl _
  shows := by
    intro j var here
    refine ⟨.nil, ?_, .literal .nil⟩
    have inside := (List.getElem?_eq_some_iff.mp here).1
    unfold variableOf
    split
    · simp [Frames.Heap.contextVariable, Frames.Heap.object, frameAt, inside]
    · rfl

theorem Generator.Grows.head {s s' : Generator} (grows : Grows s s') {c c' : Context}
    (top : s.contexts.head? = some c) (top' : s'.contexts.head? = some c') : c.Grows c' := by
  obtain ⟨rest, inner⟩ := List.head?_eq_some_iff.mp top
  obtain ⟨rest', outer⟩ := List.head?_eq_some_iff.mp top'
  have contexts := grows.contexts
  rw [inner, outer] at contexts
  cases contexts with
  | cons here _ => exact here

theorem segment_stops {fuel n : Nat} {s s' : Generator} {node : Node} {result : Option Operand}
    {c c' : Context} {code rest : List Element} {m : CompiledMethod}
    (run : (generate fuel node result).run s = .ok (.register n, s'))
    (top : s.contexts.head? = some c) (top' : s'.contexts.head? = some c')
    (resolved : resolveLabels { c' with relocations := newRelocations c c' } = some code)
    (same : m.code = code ++ rest) (w : World) (answer : Nat → Value) :
    frameRun w answer c'.code.length 1 ⟨frameAt m c.code.length, []⟩ = .stopped := by
  have generates := generate_generates fuel node result s _ s' run
  have some : s.contexts ≠ [] := fun none => by simp [none] at top
  have more := generates.answers.resolve_right (fun outside => outside n rfl) some
  simp only [topSize, top, top', Option.map_some, Option.getD_some] at more
  have opens := segment_opens (generates.toGrows.head top top') more resolved
  have within : c.code.length ≤ code.length := by
    have := opens.nonempty
    rw [List.length_drop] at this
    omega
  refine frameRun_stopped w answer ?_ (@fetch_stopped samplePlacement _ _ _ c.code.length rfl rfl
    (?_ : _ = ((code.drop c.code.length) ++ rest).map _) (opens.append rest)) 0
  · exact (Int.ofNat_lt.mpr more).ne
  · rw [Placement.compiledMethod, same, ← List.map_drop, List.drop_append_of_le_length within]

def WithinMethod (s : Generator) : Prop :=
  ∃ c m, s.contexts.head? = some c ∧ s.methods[c.method]? = some m

theorem exists_finishes {s s' : Generator} {c c' : Context} {m : CompiledMethod}
    (grows : Grows s s') (top : s.contexts.head? = some c) (top' : s'.contexts.head? = some c')
    (found : s.methods[c.method]? = some m) (code : List Element) :
    ∃ m', m'.code = code ∧ Finishes s' c' code m' := by
  have inside := (List.getElem?_eq_some_iff.mp found).1
  rw [← (grows.head top top').method] at inside
  obtain ⟨m₀, here⟩ : ∃ m₀, s'.methods[c'.method]? = some m₀ :=
    ⟨_, List.getElem?_eq_getElem (Nat.lt_of_lt_of_le inside grows.methods)⟩
  refine ⟨{ m₀ with
    code := code
    localVariables := (s'.scopes m₀.sourceTree).localVariables
    registerCount := c'.currentRegister + 1 }, rfl, ⟨_, here, rfl, id⟩, rfl, ?_, [], ?_⟩
  · exact Nat.lt_succ_self _
  · exact (List.append_nil _).symm

/-- No message has code in its place that means sending it. -/
theorem message_never_meant {s : Generator} (within : WithinMethod s) (result : Option Operand)
    (selector : String) (args : List Node) :
    ¬ MeansTheSend s result (.message selector args) := by
  rintro ⟨fuel, n, s', c, c', code, run, top, top', resolved, means⟩
  obtain ⟨c₀, m₀, top₀, found⟩ := within
  rw [top, Option.some.injEq] at top₀
  subst top₀
  have grows := (generate_generates fuel _ result s _ s' run).toGrows
  obtain ⟨m, same, finishes⟩ := exists_finishes grows top top' found code
  have meant := means m samplePlacement (Frames.answering .nil) (fun _ => .literal .nil)
    (fun _ => .nil) (frameAt m c.code.length) finishes (frameAt_amid s' m _)
  rw [← List.append_nil code] at same
  exact meant.1 1 (segment_stops run top top' resolved same _ _)

def sampleState : Generator :=
  ⟨[⟨false, 0, [], [], [], 0, []⟩], [⟨0, 0, 0, [], false, [], 0, false, []⟩], sampleScopes, 2, []⟩

theorem do_never_meant :
    ¬ MeansTheSend sampleState none (.message "do" [.block 1 [.literal (.integer 3)]]) :=
  message_never_meant ⟨_, _, rfl, rfl⟩ none "do" [.block 1 [.literal (.integer 3)]]

section Jumps

abbrev Signals {α : Type} (m : Gen α) : Prop := Programs.Ensures (fun _ _ _ => False) m

theorem Signals.later {α β : Type} {m : Gen α} {f : α → Gen β} (next : ∀ a, Signals (f a)) :
    Signals (m >>= f) :=
  Programs.Ensures.bind (fun _ _ _ _ => trivial) next fun _ _ _ _ _ _ never => never

theorem Signals.first {α β : Type} {m : Gen α} {f : α → Gen β} (signals : Signals m) :
    Signals (m >>= f) :=
  Programs.Ensures.bind signals (fun _ _ _ _ _ => trivial) fun _ _ _ _ _ never _ => never

theorem Signals.when {α : Type} {m : Gen Bool} {f : Bool → Gen α}
    (holds : Programs.Ensures (fun _ b _ => b = true) m) (next : Signals (f true)) :
    Signals (m >>= f) := by
  intro s a s' run
  obtain ⟨b, t, here, run⟩ := Programs.run_bind_ok.mp run
  obtain rfl := holds s b t here
  exact next t a s' run

def AreBlocks (args : List Node) (indices : List Nat) : Prop :=
  ∀ index ∈ indices, ∃ arg, args[index]? = some arg ∧ arg.asBlock.isSome

theorem literalBlocks_true {args : List Node} {indices : List Nat} (blocks : AreBlocks args indices) :
    Programs.Ensures (fun _ b _ => b = true) (literalBlocks args indices) := by
  induction indices with
  | nil => exact .pure fun _ => rfl
  | cons index rest ih =>
    obtain ⟨arg, found, isBlock⟩ := blocks index (List.mem_cons_self ..)
    intro s b s' run
    obtain ⟨_, t, here, run⟩ := Programs.run_bind_ok.mp run
    rw [argument, found] at here
    cases here
    rw [if_pos isBlock] at run
    exact ih (fun i mem => blocks i (List.mem_cons_of_mem _ mem)) s b s' run

theorem emitJumpToLabel_signals : Signals emitJumpToLabel := .throw _

variable (generate : Generate) (args : List Node) (source : Source) (result : Option Operand)

theorem generateConditional_signals (selector : String) (wanted : Bool) (otherwise : Literal)
    (blocks : AreBlocks args [1]) :
    Signals (generateConditional generate selector wanted otherwise args source result) := by
  refine .when (literalBlocks_true blocks) ?_
  rw [if_pos rfl]
  refine .later fun _ => .later fun _ => .later fun _ => .later fun _ => .later fun _ => ?_
  exact .later fun _ => .later fun _ => .later fun _ => .later fun _ =>
    .first emitJumpToLabel_signals

/-- No jump can be emitted: `True ifTrue: [3]` means 3, and generation signals. -/
theorem ifTrue_not_meant :
    (evaluateNode sampleScopes (fun _ => .nil) (fun _ => .literal .nil) 2
      (.message "ifTrue:" [.literal (.boolean true), .block 1 [.literal (.integer 3)]])).1 =
        .ok (.literal (.integer 3)) ∧
    ¬ MeansTheSend sampleState none
      (.message "ifTrue:" [.literal (.boolean true), .block 1 [.literal (.integer 3)]]) := by
  refine ⟨rfl, ?_⟩
  rintro ⟨fuel, n, s', c, c', code, run, -⟩
  have blocks : AreBlocks [.literal (.boolean true), .block 1 [.literal (.integer 3)]] [1] := by
    simp [AreBlocks, Node.asBlock]
  cases fuel with
  | zero => cases run
  | succ fuel =>
    exact generateConditional_signals (SlateVm.Compiler.generate fuel) _ _ _ _ _ _ blocks _ _ _ run

end Jumps

end SlateVm.Compiler
