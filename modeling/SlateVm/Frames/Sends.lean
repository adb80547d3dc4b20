import SlateVm.Frames.Entered

/-! What a send leaves: frames on top of those that were there, all with the result cell of the
send, and below them nothing else than that cell written. -/
namespace SlateVm.Frames

section Pushed

structure Pushed (values : List Value) (i i' : Interpreter) : Prop where
  cells : ∀ k < i.stackPointer, i'.stack k = i.stack k
  pushed : ∀ j v, values[j]? = some v → i'.stack (i.stackPointer + j) = v
  stackPointer : i'.stackPointer = i.stackPointer + values.length
  room : i.stackPointer ≤ i.stackSize → i'.stackPointer ≤ i'.stackSize
  heap : i'.heap = i.heap
  framePointer : i'.framePointer = i.framePointer
  codePointer : i'.codePointer = i.codePointer
  codeSize : i'.codeSize = i.codeSize
  method : i'.method = i.method
  closure : i'.closure = i.closure
  lexicalContext : i'.lexicalContext = i.lexicalContext
  ensureHandlers : i'.ensureHandlers = i.ensureHandlers

theorem growToPush_cells {i : Interpreter} {k : Nat} (low : k < i.stackPointer) :
    i.growToPush.stack k = i.stack k := by
  unfold Interpreter.growToPush
  split
  · exact growStack_cells low
  · rfl

theorem stackPush_pushed {i i' : Interpreter} {value : Value} (run : i.stackPush value = some i') :
    Pushed [value] i i' := by
  simp only [Interpreter.stackPush, Option.map_eq_some_iff] at run
  obtain ⟨written, run, rfl⟩ := run
  unfold Interpreter.write at run
  split at run
  next bound =>
    cases run
    refine ⟨?_, ?_, rfl, ?_, ?_, ?_, ?_, ?_, ?_, ?_, ?_, ?_⟩
    · intro k low
      exact (Function.update_of_ne (by simp; omega) _ _).trans (growToPush_cells low)
    · intro j v here
      match j, here with
      | 0, here =>
        simp only [List.getElem?_cons_zero, Option.some.injEq] at here
        subst here
        simp
    · intro _
      simp only [Int.ofNat_lt] at bound
      exact bound.2
    all_goals
      unfold Interpreter.growToPush
      split <;> rfl
  next => cases run

theorem pushAll_pushed {values : List Value} : ∀ {i i' : Interpreter},
    i.pushAll values = some i' → Pushed values i i' := by
  induction values with
  | nil =>
    intro i i' run
    cases run
    exact ⟨fun _ _ => rfl, by simp, rfl, id, rfl, rfl, rfl, rfl, rfl, rfl, rfl, rfl⟩
  | cons value values ih =>
    intro i i' run
    simp only [Interpreter.pushAll, List.foldlM_cons, Option.bind_eq_bind,
      Option.bind_eq_some_iff] at run
    obtain ⟨pushed, one, more⟩ := run
    have first := stackPush_pushed one
    have then' := ih more
    have up : pushed.stackPointer = i.stackPointer + 1 := first.stackPointer
    refine ⟨?_, ?_, ?_, fun room => then'.room (first.room room), ?_, ?_, ?_, ?_, ?_, ?_, ?_, ?_⟩
    · intro k low
      rw [then'.cells k (by omega), first.cells k low]
    · intro j v here
      cases j with
      | zero =>
        rw [then'.cells _ (by omega)]
        exact first.pushed 0 v (by simpa using here)
      | succ j =>
        have next := then'.pushed j v (by simpa using here)
        rwa [up, show i.stackPointer + 1 + j = i.stackPointer + (j + 1) by omega] at next
    · rw [then'.stackPointer, up, List.length_cons]
      omega
    · rw [then'.heap, first.heap]
    · rw [then'.framePointer, first.framePointer]
    · rw [then'.codePointer, first.codePointer]
    · rw [then'.codeSize, first.codeSize]
    · rw [then'.method, first.method]
    · rw [then'.closure, first.closure]
    · rw [then'.lexicalContext, first.lexicalContext]
    · rw [then'.ensureHandlers, first.ensureHandlers]

end Pushed

structure Stays (i i' : Interpreter) : Prop where
  heap : i.heap.Extends i'.heap
  stackSize : i'.stackSize = i.stackSize
  stackPointer : i'.stackPointer = i.stackPointer
  framePointer : i'.framePointer = i.framePointer
  codeSize : i'.codeSize = i.codeSize
  method : i'.method = i.method
  closure : i'.closure = i.closure
  lexicalContext : i'.lexicalContext = i.lexicalContext
  ensureHandlers : i'.ensureHandlers = i.ensureHandlers

/-- Below the stack pointer at most the cell `r` is written. -/
structure Touches (r : Int) (i i' : Interpreter) : Prop extends Stays i i' where
  cells : ∀ k < i.stackPointer, (k : Int) ≠ r → i'.stack k = i.stack k

section Touches

variable {r : Int} {i i' : Interpreter} {acts : List Activation}

theorem Above.stays {base : Nat} (above : Above base i i') : Stays i i' :=
  ⟨above.heap, above.stackSize, above.stackPointer, above.framePointer, above.codeSize,
    above.method, above.closure, above.lexicalContext, above.ensureHandlers⟩

theorem Above.touches {base : Nat} (above : Above base i i') (high : i.stackPointer ≤ base) :
    Touches r i i' := ⟨above.stays, fun k low _ => above.cells k (by omega)⟩

theorem Stays.refl (i : Interpreter) : Stays i i :=
  ⟨.refl _, rfl, rfl, rfl, rfl, rfl, rfl, rfl, rfl⟩

theorem Touches.refl (r : Int) (i : Interpreter) : Touches r i i := ⟨.refl i, fun _ _ _ => rfl⟩

theorem write_touches {value : Value} (run : i.write r value = some i') : Touches r i i' := by
  unfold Interpreter.write at run
  split at run
  next bound =>
    cases run
    refine ⟨⟨.refl _, rfl, rfl, rfl, rfl, rfl, rfl, rfl, rfl⟩, ?_⟩
    intro k _ apart
    exact Function.update_of_ne (by omega) _ _
  next => cases run

theorem Running.stay (running : Running i acts) (t : Stays i i')
    (same : ∀ a ∈ acts, ∀ k, a.Holds k → i'.stack k = i.stack k) : Running i' acts := by
  obtain ⟨m, compiled, size⟩ := running.codeSize
  refine ⟨⟨?_, ?_, ?_⟩, ?_, ?_, ?_, m, ?_, ?_⟩
  · rw [t.stackPointer, t.ensureHandlers]
    exact (running.chain.extend t.heap).cells same
  · rw [t.framePointer, running.framePointer]
  · rw [t.stackPointer, t.stackSize]
    exact running.room
  · rw [t.closure]
    exact running.closure
  · rw [t.lexicalContext]
    exact running.lexicalContext
  · rw [t.closure, t.method]
    exact t.heap.method running.method
  · rw [t.method]
    exact t.heap.compiledMethod compiled
  · rw [t.codeSize, size]

theorem Running.touch (running : Running i acts) (t : Touches r i i')
    (harmless : Harmless acts r) : Running i' acts :=
  running.stay t.toStays fun a ha k holds =>
    t.cells k (lt_of_lt_of_le holds.lt_top (running.chain.below a ha)) (harmless a ha k holds)

end Touches

/-- The frames `news` were pushed on `acts` for the result cell `r`, which may be written. -/
structure Pushes (r : Int) (i i' : Interpreter) (acts news : List Activation) : Prop where
  running : Running i' (news ++ acts)
  results : ∀ a ∈ news, a.result = r
  high : ∀ a ∈ news, i.stackPointer + 6 ≤ a.framePointer
  cells : ∀ k < i.stackPointer, (k : Int) ≠ r → i'.stack k = i.stack k
  heap : i.heap.Extends i'.heap
  stackPointer : i.stackPointer ≤ i'.stackPointer

section Pushes

variable {r : Int} {i i' i'' : Interpreter} {acts news more : List Activation}

theorem Touches.pushes (t : Touches r i i') (running : Running i acts)
    (harmless : Harmless acts r) : Pushes r i i' acts [] :=
  ⟨running.touch t harmless, by simp, by simp, t.cells, t.heap, t.stackPointer.ge⟩

theorem Entered.pushes {a : Activation} (entered : Entered i i' r a)
    (running : Running i' (a :: acts)) : Pushes r i i' acts [a] where
  running := running
  results b hb := by
    rw [List.mem_singleton.mp hb]
    exact entered.result
  high b hb := by
    rw [List.mem_singleton.mp hb]
    exact entered.framePointer.ge
  cells k low _ := entered.cells k low
  heap := entered.heap
  stackPointer := by
    have top := entered.top
    have frame := entered.framePointer
    omega

theorem Pushes.trans (first : Pushes r i i' acts news)
    (second : Pushes r i' i'' (news ++ acts) more) : Pushes r i i'' acts (more ++ news) where
  running := by
    rw [List.append_assoc]
    exact second.running
  results a ha := (List.mem_append.mp ha).elim (second.results a) (first.results a)
  high a ha := by
    have up := first.stackPointer
    rcases List.mem_append.mp ha with ha | ha
    · have := second.high a ha
      omega
    · exact first.high a ha
  cells k low apart := by
    rw [second.cells k (lt_of_lt_of_le low first.stackPointer) apart, first.cells k low apart]
  heap := first.heap.trans second.heap
  stackPointer := first.stackPointer.trans second.stackPointer

theorem Pushes.harmless (p : Pushes r i i' acts news) (harmless : Harmless acts r)
    (low : r < i.stackPointer) : Harmless (news ++ acts) r := by
  intro a ha k holds
  rcases List.mem_append.mp ha with ha | ha
  · have high := p.high a ha
    have ge := holds.ge
    omega
  · exact harmless a ha k holds

end Pushes

section Send

variable {w : World} {r : Int} {i i' : Interpreter} {acts : List Activation}

theorem Based.guard {a : Activation} {handler : Value} {pushed : Interpreter}
    (running : Running i (a :: acts)) (top : i.stackPointer = a.framePointer + a.cells)
    (unguarded : a.handler = none)
    (p : Pushed [.smallint i.ensureHandlers, handler] i pushed) :
    Running { pushed with ensureHandlers := pushed.stackPointer - 2 }
      ({ a with handler := some handler } :: acts) := by
  obtain ⟨six, under, recorded, sound, outer, handled, down⟩ := running.chain
  have same : outer = i.ensureHandlers := by
    unfold Handled at handled
    rw [unguarded] at handled
    exact handled
  have up : pushed.stackPointer = i.stackPointer + 2 := p.stackPointer
  have cells : ∀ k < i.stackPointer, pushed.stack k = i.stack k := p.cells
  have chain : Chain pushed.heap pushed.stack (a.framePointer - 6) outer acts := by
    rw [p.heap]
    exact down.cells fun c hc k holds =>
      cells k (by have := lt_of_lt_of_le holds.lt_top (down.below c hc); omega)
  have kept : Recorded pushed.stack { a with handler := some handler } acts := by
    constructor
    · intro above
      rw [cells _ (by change a.framePointer - 6 < _; omega)]
      exact recorded.before above
    all_goals rw [cells _ (by change a.framePointer - _ < _; omega)]
    · exact recorded.result
    · exact recorded.codePointer
    · exact recorded.closure
    · exact recorded.context
    · exact recorded.previous
  refine ⟨⟨⟨six, ?_, kept, ?_, outer, ?_, chain⟩, ?_, ?_⟩, ?_, ?_, ?_, ?_⟩
  · change a.framePointer + a.cells + 2 ≤ pushed.stackPointer
    omega
  · rw [p.heap]
    exact ⟨sound.context, sound.method⟩
  · have first := p.pushed 0 (.smallint i.ensureHandlers) rfl
    have second := p.pushed 1 handler rfl
    have place : pushed.stackPointer - 2 = i.stackPointer := by omega
    refine ⟨?_, ?_, ?_⟩
    · change pushed.stackPointer - 2 = a.framePointer + a.cells
      omega
    · change pushed.stack (pushed.stackPointer - 2) = _
      rw [place, same]
      exact first
    · change pushed.stack (pushed.stackPointer - 2 + 1) = _
      rw [place]
      exact second
  · change pushed.framePointer = a.framePointer
    rw [p.framePointer]
    exact running.framePointer
  · exact p.room running.room
  · simp only [List.head?_cons, Option.mem_def, Option.some.injEq, forall_eq']
    rw [p.closure]
    exact running.closure a rfl
  · simp only [List.head?_cons, Option.mem_def, Option.some.injEq, forall_eq']
    rw [p.lexicalContext]
    exact running.lexicalContext a rfl
  · change pushed.heap.method pushed.closure = some pushed.method
    rw [p.heap, p.closure, p.method]
    exact running.method
  · change ∃ m, pushed.heap.compiledMethod pushed.method = some m ∧
      pushed.codeSize = m.code.length
    rw [p.heap, p.method, p.codeSize]
    exact running.codeSize

theorem ensure_pushes {body handler : Value} (b : Based i acts)
    (run : ensure w body handler r i = some i') :
    ∃ a, a.handler = some handler ∧ Pushes r i i' acts [a] := by
  simp only [ensure, Option.bind_eq_some_iff, Option.map_eq_some_iff] at run
  obtain ⟨applied, applies, pushed, pushes, rfl⟩ := run
  obtain ⟨a, entered, running⟩ := applyTo_calls w w.depth b applies
  have p := pushAll_pushed pushes
  have guarded := Based.guard running entered.top entered.handler p
  have here := entered.pushes running
  refine ⟨{ a with handler := some handler }, rfl, guarded, ?_, ?_, ?_, ?_, ?_⟩
  · intro c hc
    rw [List.mem_singleton.mp hc]
    exact entered.result
  · intro c hc
    rw [List.mem_singleton.mp hc]
    exact entered.framePointer.ge
  · intro k low apart
    rw [← here.cells k low apart]
    exact p.cells k (lt_of_lt_of_le low here.stackPointer)
  · change i.heap.Extends pushed.heap
    rw [p.heap]
    exact here.heap
  · have up : pushed.stackPointer = applied.stackPointer + 2 := p.stackPointer
    have more := here.stackPointer
    change i.stackPointer ≤ pushed.stackPointer
    omega

def Sends (r : Int) (run : Interpreter → Option Interpreter) : Prop :=
  ∀ ⦃i i' : Interpreter⦄ ⦃acts : List Activation⦄, Running i acts → Harmless acts r →
    r < i.stackPointer → run i = some i' → ∃ news, Pushes r i i' acts news

theorem Calls.sends {apply : Apply} (calls : Calls apply) {closure : Value}
    {args opts : List Value} : Sends r (apply closure args opts r) := by
  intro i i' acts running _ _ run
  obtain ⟨a, entered, top⟩ := calls running.toBased run
  exact ⟨[a], entered.pushes top⟩

theorem signal_sends {selector : Special} {args opts : List Value} :
    Sends r (signal w (applyTo w w.depth) selector args opts r) := by
  intro i i' acts running _ _ run
  obtain ⟨a, entered, top⟩ := Calls.signal (applyTo_calls w w.depth) running.toBased run
  exact ⟨[a], entered.pushes top⟩

theorem Running.grow (running : Running i acts) (obj : Obj) :
    Running { i with heap := (i.heap.allocate obj).1 } acts := by
  have none' : Touches (-1) i { i with heap := (i.heap.allocate obj).1 } :=
    (Above.grow i.stackPointer i obj).touches (le_refl _)
  refine running.touch none' ?_
  intro a _ k _
  omega

theorem Sends.grow {run : Interpreter → Option Interpreter} (sends : Sends r run) (obj : Obj) :
    Sends r fun i => run { i with heap := (i.heap.allocate obj).1 } := by
  intro i i' acts running harmless low ran
  obtain ⟨news, p⟩ := sends (running.grow obj) harmless low ran
  exact ⟨news, p.running, p.results, p.high, p.cells,
    (i.heap.extends_allocate obj).trans p.heap, p.stackPointer⟩

theorem perform_sends {send : Send} (action : Action)
    (sends : ∀ selector args dispatchers opts, Sends r (send selector args dispatchers opts r)) :
    Sends r fun i => perform w send r i action := by
  cases action with
  | answer value =>
    intro i i' acts running harmless _ run
    exact ⟨[], (write_touches run).pushes running harmless⟩
  | signal selector args => exact signal_sends
  | applyTo closure args opts => exact (applyTo_calls w w.depth).sends
  | ensure body handler =>
    intro i i' acts running _ _ run
    obtain ⟨a, _, p⟩ := ensure_pushes running.toBased run
    exact ⟨[a], p⟩
  | sendTo selector args dispatchers opts => exact sends selector args dispatchers opts
  | exit =>
    intro i i' acts _ _ _ run
    cases run

theorem Sends.foldlM {β : Type} {f : Interpreter → β → Option Interpreter} (bs : List β)
    (sends : ∀ b, Sends r fun i => f i b) : Sends r (bs.foldlM f) := by
  induction bs with
  | nil =>
    intro i i' acts running harmless _ run
    cases run
    exact ⟨[], (Touches.refl r _).pushes running harmless⟩
  | cons b bs ih =>
    intro i i' acts running harmless low run
    simp only [List.foldlM_cons, Option.bind_eq_bind, Option.bind_eq_some_iff] at run
    obtain ⟨between, one, more⟩ := run
    obtain ⟨news, first⟩ := sends b running harmless low one
    have higher := first.stackPointer
    obtain ⟨others, second⟩ := ih first.running (first.harmless harmless low) (by omega) more
    exact ⟨others ++ news, first.trans second⟩

theorem signalArray_sends {selector : Special} {first : Value} {args last opts : List Value} :
    Sends r (signalArray w selector first args last opts r) := by
  intro i i' acts running harmless low run
  simp only [signalArray] at run
  split at run
  · exact signal_sends.grow (.oopArray args) running harmless low run
  · exact (signal_sends.grow (.oopArray opts)).grow (.oopArray args) running harmless low run

theorem sendTo_sends (depth : Nat) : ∀ (selector : Value) (args dispatchers opts : List Value),
    Sends r (sendTo w depth selector args dispatchers opts r) := by
  induction depth with
  | zero =>
    intro selector args dispatchers opts i i' acts _ _ _ run
    cases run
  | succ depth ih =>
    intro selector args dispatchers opts i i' acts running harmless low run
    simp only [sendTo] at run
    split at run
    · exact signalArray_sends running harmless low run
    · simp only [Option.bind_eq_some_iff] at run
      obtain ⟨window, _, run⟩ := run
      cases window with
      | primitiveMethod index =>
        exact Sends.foldlM _ (fun action => perform_sends action ih) running harmless low run
      | compiledMethod => exact (applyTo_calls w w.depth).sends running harmless low run
      | closureMethod => exact (applyTo_calls w w.depth).sends running harmless low run
      | other => exact signalArray_sends running harmless low run

theorem performPrimitive_sends {index : Nat} {args : List Value} :
    Sends r (performPrimitive w index args r) :=
  Sends.foldlM _ fun action => perform_sends action (sendTo_sends w.depth)

end Send

end SlateVm.Frames
