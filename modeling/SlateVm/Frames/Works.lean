import SlateVm.Frames.Sends

/-! What the instructions leave that do not return: they write the register that they name, and
push the frames of what they call with its cell. -/
namespace SlateVm.Frames

variable {w : World} {i i' : Interpreter} {a : Activation} {acts rest : List Activation}
  {m : CompiledMethod} {r : Int}

section Places

structure Place (i : Interpreter) (a : Activation) (rest : List Activation) (r : Int) : Prop where
  inside : a.InCells r
  harmless : Harmless (a :: rest) r
  low : r < i.stackPointer

theorem Chain.apart {h : Heap} {stack : Nat → Value} {top ensure : Nat}
    (c : Chain h stack top ensure acts) {b : Activation} (hb : b ∈ acts) (inside : b.InCells r) :
    Harmless acts r := by
  induction acts generalizing top ensure with
  | nil => cases hb
  | cons a rest ih =>
    obtain ⟨six, _, _, _, outer, _, down⟩ := c
    unfold Activation.InCells at inside
    intro d hd k holds
    have ge := holds.ge
    rcases List.mem_cons.mp hb with rfl | inner
    · rcases List.mem_cons.mp hd with rfl | hd
      · unfold Activation.Holds at holds
        omega
      · have under := lt_of_lt_of_le holds.lt_top (down.below d hd)
        omega
    · rcases List.mem_cons.mp hd with rfl | hd
      · have under := down.below b inner
        unfold Activation.top at under
        omega
      · exact ih down inner d hd k holds

theorem Running.place (running : Running i (a :: rest))
    (compiled : i.heap.compiledMethod i.method = some m) {reg : Nat} (named : reg < m.registerCount) :
    Place i a rest (i.framePointer + reg : Nat) := by
  have sound := running.chain.sound a (List.mem_cons_self ..)
  obtain ⟨method, m', isMethod, compiled', fits⟩ := sound.method
  have closure := running.closure a rfl
  rw [← closure, running.method, Option.some.injEq] at isMethod
  rw [← isMethod, compiled, Option.some.injEq] at compiled'
  subst compiled'
  have frame : i.framePointer = a.framePointer := running.framePointer
  have under := running.chain.below a (List.mem_cons_self ..)
  unfold Activation.top at under
  have inside : a.InCells (i.framePointer + reg : Nat) := by
    unfold Activation.InCells
    omega
  refine ⟨inside, running.chain.apart (List.mem_cons_self ..) inside, ?_⟩
  unfold Activation.InCells at inside
  omega

theorem resultCell_place (running : Running i (a :: rest))
    (compiled : i.heap.compiledMethod i.method = some m) {reg : Nat} {place : Int}
    (named : i.resultCell m reg = some place) :
    place = (i.framePointer + reg : Nat) ∧ Place i a rest place := by
  unfold Interpreter.resultCell at named
  split at named
  next inside =>
    cases named
    exact ⟨rfl, running.place compiled inside⟩
  next => cases named

theorem setRegister_pushes (running : Running i (a :: rest))
    (compiled : i.heap.compiledMethod i.method = some m) {reg : Nat} {value : Value}
    (run : i.setRegister m reg value = some i') :
    Pushes (i.framePointer + reg : Nat) i i' (a :: rest) [] := by
  unfold Interpreter.setRegister at run
  split at run
  next inside =>
    exact (write_touches run).pushes running (running.place compiled inside).harmless
  next => cases run

theorem Running.jump (running : Running i acts) (codePointer : Int) :
    Running { i with codePointer := codePointer } acts :=
  ⟨⟨running.chain, running.framePointer, running.room⟩, running.closure, running.lexicalContext,
    running.method, running.codeSize⟩

theorem Running.pushes_none (running : Running i acts) (stays : Stays i i')
    (same : i'.stack = i.stack) (r : Int) : Pushes r i i' acts [] :=
  ⟨running.stay stays fun _ _ _ _ => by rw [same], by simp, by simp,
    fun _ _ _ => by rw [same], stays.heap, stays.stackPointer.ge⟩

theorem Stays.jump (i : Interpreter) (codePointer : Int) :
    Stays i { i with codePointer := codePointer } :=
  ⟨.refl _, rfl, rfl, rfl, rfl, rfl, rfl, rfl, rfl⟩

theorem Running.pushes_jump (running : Running i acts) (codePointer : Int) (r : Int) :
    Pushes r i { i with codePointer := codePointer } acts [] :=
  running.pushes_none (Stays.jump i codePointer) rfl r

theorem Pushes.before {start : Interpreter} {news : List Activation}
    (p : Pushes r start i' acts news) (stack : start.stack = i.stack)
    (stackPointer : start.stackPointer = i.stackPointer) (heap : i.heap.Extends start.heap) :
    Pushes r i i' acts news :=
  ⟨p.running, p.results, by rw [← stackPointer]; exact p.high,
    by rw [← stackPointer, ← stack]; exact p.cells, heap.trans p.heap,
    by rw [← stackPointer]; exact p.stackPointer⟩

end Places

def Instr.resultRegister : Instr → Option Nat
  | .send result _ _ | .sendMessageWithOpts result _ _ _ | .sendWithOptionalsInline result _ _ _
  | .newArrayWith result _ | .newClosure result _ | .loadLiteral result _ | .resendMessage result _
  | .loadVariable result | .loadFreeVariable result _ _ | .moveRegister result _ | .isNil result _
  | .isIdenticalTo result _ _ | .loadEnvironment result | .primitiveDo _ result _
  | .inlinePrimitiveCheck result _ _ _ _ | .applyTo _ result _ => some result
  | _ => none

def Instr.place (instr : Instr) (i : Interpreter) : Int :=
  match instr.resultRegister with
  | some result => (i.framePointer + result : Nat)
  | none => -1

def Instr.returns : Instr → Bool
  | .returnRegister _ | .resume | .returnFrom _ _ | .returnValue _ => true
  | _ => false

def Instr.TestsBoolean (instr : Instr) (i : Interpreter) : Prop :=
  match instr with
  | .branchIfTrue cond _ | .branchIfFalse cond _ =>
    i.stack (i.framePointer + cond) = .true ∨ i.stack (i.framePointer + cond) = .false
  | _ => True

section Branch

theorem branchIf_boolean {wanted : Bool} {cond : Nat} {offset : Int}
    (running : Running i acts)
    (boolean : i.stack (i.framePointer + cond) = .true ∨ i.stack (i.framePointer + cond) = .false)
    (run : branchIf w wanted m cond offset i = some i') (r : Int) : Pushes r i i' acts [] := by
  simp only [branchIf, Option.bind_eq_some_iff] at run
  obtain ⟨value, here, run⟩ := run
  have cell : value = i.stack (i.framePointer + cond) := by
    unfold Interpreter.register at here
    split at here
    · exact (Option.some.inj here).symm
    · cases here
  rw [← cell] at boolean
  split at run
  · cases run
    exact running.pushes_jump _ r
  next unwanted =>
    rw [if_pos (by rcases boolean with rfl | rfl <;> cases wanted <;> simp_all [Value.boolean])] at run
    cases run
    exact running.pushes_none (Stays.refl _) rfl r

theorem branchIf_pushes {wanted : Bool} {cond : Nat} {offset : Int}
    (running : Running i acts) (run : branchIf w wanted m cond offset i = some i') :
    ∃ news, Pushes cond i i' acts news := by
  simp only [branchIf, Option.bind_eq_some_iff] at run
  obtain ⟨value, _, run⟩ := run
  split at run
  · cases run
    exact ⟨[], running.pushes_jump _ cond⟩
  · split at run
    · cases run
      exact ⟨[], running.pushes_none (Stays.refl _) rfl cond⟩
    · obtain ⟨a, entered, top⟩ := Calls.signal (applyTo_calls w w.depth)
        (running.jump _).toBased run
      exact ⟨[a], (entered.pushes top).before rfl rfl (.refl _)⟩

end Branch

section Resend

theorem dispatchOptionals_pushes {opts : List Value} {news : List Activation}
    (p : Pushes r i i' acts (a :: news)) (unguarded : a.handler = none) {m : CompiledMethod}
    {i'' : Interpreter} (run : dispatchOptionals m opts i' = some i'') :
    Pushes r i i'' acts (a :: news) := by
  have frame : i'.framePointer = a.framePointer := p.running.framePointer
  have above : Above a.framePointer i' i'' := dispatchOptionals_above opts frame.ge run
  have high := p.high a (List.mem_cons_self ..)
  have chain := p.running.chain
  obtain ⟨_, _, _, _, _, _, down⟩ := chain
  refine ⟨p.running.stay above.stays ?_, p.results, p.high, ?_, p.heap.trans above.heap, ?_⟩
  · intro b hb k holds
    refine above.cells k ?_
    rcases List.mem_cons.mp hb with rfl | hb
    · unfold Activation.Holds at holds
      rw [unguarded] at holds
      simp only [Option.isSome_none, Bool.false_eq_true, false_and, or_false] at holds
      omega
    · have := lt_of_lt_of_le holds.lt_top (down.below b hb)
      omega
  · intro k low apart
    rw [above.cells k (by omega), p.cells k low apart]
  · rw [above.stackPointer]
    exact p.stackPointer

theorem resendOptionals_pushes {method : Value} {keys values : List Value}
    (p : Pushes r i i' acts [a]) (unguarded : a.handler = none) {i'' : Interpreter}
    (run : resendOptionals method keys values i' = some i'') : Pushes r i i'' acts [a] := by
  unfold resendOptionals at run
  split at run
  · simp only [Option.bind_eq_some_iff] at run
    obtain ⟨m, _, run⟩ := run
    exact dispatchOptionals_pushes p unguarded run
  · cases run
    exact p

theorem resendMessage_sends {lexicalOffset : Nat} : Sends r (resendMessage w lexicalOffset r) := by
  intro i i' acts running harmless low run
  simp only [resendMessage, forwardMessage, Option.bind_eq_some_iff] at run
  obtain ⟨resend, _, run⟩ := run
  split at run
  · cases run
  · split at run
    · exact signalArray_sends running harmless low run
    · simp only [Option.bind_eq_some_iff] at run
      obtain ⟨window, _, run⟩ := run
      have called : ∀ {callee : Value} {keys values args : List Value},
          ((applyTo w w.depth callee args [] r i).bind
            (resendOptionals callee keys values)) = some i' →
          ∃ news, Pushes r i i' acts news := by
        intro callee keys values args run
        simp only [Option.bind_eq_some_iff] at run
        obtain ⟨applied, applies, rest⟩ := run
        obtain ⟨a, entered, top⟩ := applyTo_calls w w.depth running.toBased applies
        exact ⟨[a], resendOptionals_pushes (entered.pushes top) entered.handler rest⟩
      cases window with
      | primitiveMethod index =>
        exact Sends.foldlM _ (fun action => perform_sends action (sendTo_sends w.depth))
          running harmless low run
      | compiledMethod => exact called run
      | closureMethod => exact called run
      | other => exact signal_sends.grow _ running harmless low run

end Resend

section Execute

theorem setRegister_grow (running : Running i (a :: rest))
    (compiled : i.heap.compiledMethod i.method = some m) {reg : Nat} {value : Value} {obj : Obj}
    (run : { i with heap := (i.heap.allocate obj).1 }.setRegister m reg value = some i') :
    Pushes (i.framePointer + reg : Nat) i i' (a :: rest) [] :=
  (setRegister_pushes (running.grow obj)
    ((i.heap.extends_allocate obj).compiledMethod compiled) run).before rfl rfl
    (i.heap.extends_allocate obj)

theorem storeVar_pushes (running : Running i acts) {o j : Nat} {value : Value}
    (run : storeVar (.lexicalContext o) j value i = some i') (r : Int) : Pushes r i i' acts [] := by
  have above : Above i.stackPointer i i' := storeVar_above (show Vars.From _ (.lexicalContext o) from trivial) run
  refine ⟨running.stay above.stays ?_, by simp, by simp, fun k low _ => above.cells k low,
    above.heap, above.stackPointer.ge⟩
  intro b hb k holds
  exact above.cells k (lt_of_lt_of_le holds.lt_top (running.chain.below b hb))

theorem loadVariable_pushes (running : Running i (a :: rest))
    (compiled : i.heap.compiledMethod i.method = some m) {var : Nat}
    (run : loadVariable m var i = some i') :
    Pushes (i.framePointer + var : Nat) i i' (a :: rest) [] := by
  unfold loadVariable at run
  split at run
  · simp only [Option.bind_eq_some_iff] at run
    obtain ⟨value, _, run⟩ := run
    exact setRegister_pushes running compiled run
  · cases run
    exact running.pushes_none (Stays.refl _) rfl _

theorem storeVariable_pushes (running : Running i acts) {var : Nat}
    (run : storeVariable m var i = some i') (r : Int) : Pushes r i i' acts [] := by
  unfold storeVariable at run
  split at run
  next heapAllocate =>
    simp only [Option.bind_eq_some_iff, currentVars, if_pos heapAllocate] at run
    obtain ⟨value, _, vars, found, run⟩ := run
    split at found
    · cases found
      exact storeVar_pushes running run r
    · cases found
  next =>
    cases run
    exact running.pushes_none (Stays.refl _) rfl r

theorem branchKeyed_pushes (running : Running i acts) (table : List Value) (key : Value) (r : Int) :
    Pushes r i (branchKeyed w table key i) acts [] := by
  simp only [branchKeyed]
  split
  · exact running.pushes_none (Stays.refl _) rfl r
  · split
    · exact running.pushes_none (Stays.refl _) rfl r
    · exact running.pushes_jump _ r

theorem execute_pushes {prevPointer : Int} {instr : Instr} (running : Running i (a :: rest))
    (compiled : i.heap.compiledMethod i.method = some m) (works : instr.returns = false)
    (boolean : instr.TestsBoolean i) (run : execute w m prevPointer i instr = some i') :
    ∃ news, Pushes (instr.place i) i i' (a :: rest) news ∧
      (news = [] ∨ a.InCells (instr.place i)) := by
  cases instr with
  | returnRegister | resume | returnFrom | returnValue => cases works
  | branchIfTrue cond offset => exact ⟨[], branchIf_boolean running boolean run _, .inl rfl⟩
  | branchIfFalse cond offset => exact ⟨[], branchIf_boolean running boolean run _, .inl rfl⟩
  | loadLiteral dest literal => exact ⟨[], setRegister_pushes running compiled run, .inl rfl⟩
  | loadEnvironment dest => exact ⟨[], setRegister_pushes running compiled run, .inl rfl⟩
  | loadVariable var => exact ⟨[], loadVariable_pushes running compiled run, .inl rfl⟩
  | storeVariable var => exact ⟨[], storeVariable_pushes running run _, .inl rfl⟩
  | newClosure result block => exact ⟨[], setRegister_grow running compiled run, .inl rfl⟩
  | jumpTo offset =>
    simp only [execute] at run
    split at run
    · cases run
      exact ⟨[], running.pushes_jump _ _, .inl rfl⟩
    · cases run
  | newArrayWith result elements =>
    simp only [execute, Option.bind_eq_bind, Option.bind_eq_some_iff] at run
    obtain ⟨values, _, run⟩ := run
    exact ⟨[], setRegister_grow running compiled run, .inl rfl⟩
  | moveRegister dest src =>
    simp only [execute, Option.bind_eq_bind, Option.bind_eq_some_iff] at run
    obtain ⟨value, _, run⟩ := run
    exact ⟨[], setRegister_pushes running compiled run, .inl rfl⟩
  | isNil result src =>
    simp only [execute, Option.bind_eq_bind, Option.bind_eq_some_iff] at run
    obtain ⟨value, _, run⟩ := run
    exact ⟨[], setRegister_pushes running compiled run, .inl rfl⟩
  | isIdenticalTo result dest src =>
    simp only [execute, Option.bind_eq_bind, Option.bind_eq_some_iff] at run
    obtain ⟨left, _, right, _, run⟩ := run
    exact ⟨[], setRegister_pushes running compiled run, .inl rfl⟩
  | loadFreeVariable dest lexOffset varIndex =>
    simp only [execute, Option.bind_eq_bind, Option.bind_eq_some_iff] at run
    obtain ⟨context, _, value, _, run⟩ := run
    exact ⟨[], setRegister_pushes running compiled run, .inl rfl⟩
  | storeFreeVariable lexOffset varIndex src =>
    simp only [execute, Option.bind_eq_bind, Option.bind_eq_some_iff] at run
    obtain ⟨context, _, value, _, run⟩ := run
    exact ⟨[], storeVar_pushes running run _, .inl rfl⟩
  | branchKeyed key table =>
    simp only [execute, Option.bind_eq_bind, Option.bind_eq_some_iff] at run
    obtain ⟨value, _, other, _, run⟩ := run
    cases run
    exact ⟨[], branchKeyed_pushes running _ _ _, .inl rfl⟩
  | inlineMethodCheck maps jump args =>
    simp only [execute, Option.bind_eq_bind, Option.bind_eq_some_iff] at run
    obtain ⟨values, _, run⟩ := run
    split at run
    · cases run
      exact ⟨[], running.pushes_none (Stays.refl _) rfl _, .inl rfl⟩
    · cases run
      exact ⟨[], running.pushes_jump _ _, .inl rfl⟩
  | send result selector args =>
    simp only [execute, Option.bind_eq_bind, Option.bind_eq_some_iff] at run
    obtain ⟨place, named, values, _, run⟩ := run
    obtain ⟨rfl, here⟩ := resultCell_place running compiled named
    obtain ⟨news, p⟩ := sendTo_sends w.depth _ _ _ _ running here.harmless here.low run
    exact ⟨news, p, .inr here.inside⟩
  | sendMessageWithOpts result selector optsArray args =>
    simp only [execute, Option.bind_eq_bind, Option.bind_eq_some_iff] at run
    obtain ⟨place, named, values, _, array, _, run⟩ := run
    obtain ⟨rfl, here⟩ := resultCell_place running compiled named
    split at run
    · obtain ⟨news, p⟩ := sendTo_sends w.depth _ _ _ _ running here.harmless here.low run
      exact ⟨news, p, .inr here.inside⟩
    · cases run
  | sendWithOptionalsInline result selector args opts =>
    simp only [execute, Option.bind_eq_bind, Option.bind_eq_some_iff] at run
    obtain ⟨place, named, values, _, others, _, run⟩ := run
    obtain ⟨rfl, here⟩ := resultCell_place running compiled named
    obtain ⟨news, p⟩ := sendTo_sends w.depth _ _ _ _ running here.harmless here.low run
    exact ⟨news, p, .inr here.inside⟩
  | resendMessage result lexicalOffset =>
    simp only [execute, Option.bind_eq_bind, Option.bind_eq_some_iff] at run
    obtain ⟨place, named, run⟩ := run
    obtain ⟨rfl, here⟩ := resultCell_place running compiled named
    obtain ⟨news, p⟩ := resendMessage_sends running here.harmless here.low run
    exact ⟨news, p, .inr here.inside⟩
  | primitiveDo primitive result args =>
    simp only [execute, Option.bind_eq_bind, Option.bind_eq_some_iff] at run
    obtain ⟨place, named, values, _, number, _, index, _, run⟩ := run
    obtain ⟨rfl, here⟩ := resultCell_place running compiled named
    obtain ⟨news, p⟩ := performPrimitive_sends running here.harmless here.low run
    exact ⟨news, p, .inr here.inside⟩
  | inlinePrimitiveCheck result maps primitive jump args =>
    simp only [execute, Option.bind_eq_bind, Option.bind_eq_some_iff] at run
    obtain ⟨place, named, values, _, run⟩ := run
    obtain ⟨rfl, here⟩ := resultCell_place running compiled named
    split at run
    · obtain ⟨news, p⟩ := performPrimitive_sends (running.jump (i.codePointer + jump)) here.harmless here.low run
      exact ⟨news, p.before rfl rfl (.refl _), .inr here.inside⟩
    · cases run
      exact ⟨[], running.pushes_none (Stays.refl _) rfl _, .inl rfl⟩
  | applyTo method result args =>
    simp only [execute, Option.bind_eq_bind, Option.bind_eq_some_iff] at run
    obtain ⟨place, named, values, _, closure, _, run⟩ := run
    obtain ⟨rfl, here⟩ := resultCell_place running compiled named
    obtain ⟨news, p⟩ := (applyTo_calls w w.depth).sends running here.harmless here.low run
    exact ⟨news, p, .inr here.inside⟩

end Execute

end SlateVm.Frames
