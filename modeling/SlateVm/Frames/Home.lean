import SlateVm.Frames.Careful

/-! The return from a block to the caller of the frame that created its context. -/
namespace SlateVm.Frames

/-- The home frame was left, and a cell that is not above the stack pointer still holds the
context where the record of the frame had it. -/
def StaleHome (i : Interpreter) (context framePointer : Nat) : Prop :=
  ¬ HomeActive i context ∧ framePointer ≤ i.stackPointer ∧
    i.stack (framePointer - 2) = .object context

def GoesHome (w : World) (prev : Int) (value : Value) (context : Nat) (i i' : Interpreter) : Prop :=
  ∃ above t rest, Running i (above ++ t :: rest) ∧ t.context = .object context ∧
    ((∃ handler others k,
        HandlerRuns w t.result prev i i' (above ++ t :: rest) handler others k ∧
          ∃ a ∈ above ++ [t], a.handler.isSome) ∨
      Leaves (some value) i i' above t rest)

/-- `mayNotReturnTo:` is called on top of the frames that there are. -/
def MayNotReturn (w : World) (context framePointer : Nat) (i i' : Interpreter) : Prop :=
  returnsTooLate i context framePointer ∧ signalMayNotReturn w context framePointer i = some i' ∧
    ∃ acts k, Running i acts ∧ Running i' (k :: acts)

/-- What is asked of a return to the home frame of a context. -/
structure ReturnsHome (w : World) (prev : Int) (value : Value) (context framePointer : Nat)
    (i i' : Interpreter) : Prop where
  transfers : HomeActive i context → GoesHome w prev value context i i'
  signals : ¬ HomeActive i context → MayNotReturn w context framePointer i i'

section Home

variable {w : World} {i i' : Interpreter} {acts : List Activation} {context framePointer : Nat}
  {held : List Value}

theorem Running.home (running : Running i acts) (active : acts ≠ [])
    (recorded : i.heap.object context = .lexicalContext framePointer held)
    (home : HomeActive i context) :
    ∃ t ∈ acts, t.framePointer = framePointer ∧ t.context = .object context := by
  obtain ⟨t, ht, here⟩ := (running.home_iff active context).mp home
  obtain ⟨held', same⟩ := (running.chain.sound t ht).context context here
  rw [recorded, Obj.lexicalContext.injEq] at same
  exact ⟨t, ht, same.1.symm, here⟩

theorem contextAt_object {h : Heap} {closure : Value} {n : Nat}
    (found : h.contextAt closure n = some (context, framePointer, held)) :
    h.object context = .lexicalContext framePointer held := by
  unfold Heap.contextAt at found
  split at found
  next o _ =>
    split at found
    next here =>
      cases found
      exact here
    next => cases found
  next => cases found

theorem Running.returnsTooLate_iff (running : Running i acts) (active : acts ≠ [])
    (recorded : i.heap.object context = .lexicalContext framePointer held) :
    returnsTooLate i context framePointer ↔
      ¬ HomeActive i context ∧ ¬ StaleHome i context framePointer := by
  constructor
  · intro late
    have gone : ¬ HomeActive i context := by
      intro home
      obtain ⟨t, ht, rfl, here⟩ := running.home active recorded home
      obtain ⟨rest, recorded'⟩ := running.recorded ht
      have under := running.chain.below t ht
      unfold Activation.top at under
      simp only [returnsTooLate, Bool.or_eq_true, decide_eq_true_eq, bne_iff_ne] at late
      rcases late with above | other
      · omega
      · exact other (recorded'.context.trans here)
    refine ⟨gone, ?_⟩
    rintro ⟨_, low, same⟩
    simp only [returnsTooLate, Bool.or_eq_true, decide_eq_true_eq, bne_iff_ne] at late
    rcases late with above | other
    · omega
    · exact other same
  · rintro ⟨gone, fresh⟩
    by_contra early
    simp only [returnsTooLate, Bool.or_eq_true, decide_eq_true_eq, bne_iff_ne, not_or,
      not_not] at early
    exact fresh ⟨gone, by omega, early.2⟩

theorem HomeActive.same (home : HomeActive i context) (stack : i'.stack = i.stack)
    (framePointer : i'.framePointer = i.framePointer) : HomeActive i' context := by
  obtain ⟨frame, active, here⟩ := home
  exact ⟨frame, active.same stack framePointer, by rw [stack]; exact here⟩

theorem home_jump (codePointer : Int) :
    HomeActive { i with codePointer := codePointer } context ↔ HomeActive i context :=
  ⟨fun home => home.same rfl rfl, fun home => home.same rfl rfl⟩

end Home

section Return

variable {w : World} {start i i' : Interpreter} {m : CompiledMethod} {reg offset length : Nat}
  {context framePointer : Nat} {held : List Value}

/-- In every run that delivers no result into a record, a non-local return does what is asked of
it unless the home is stale. -/
theorem non_local_return_iff (formed : WellFormed start) (reaches : Reaches Careful start i)
    (fetch : i.fetch = some (m, .returnFrom reg offset, length)) (apart : offset ≠ 0)
    (home : i.heap.contextAt i.closure offset = some (context, framePointer, held))
    (free : HomeActive i context → FreeResult i framePointer) (step : interpret w i = some i') :
    ReturnsHome w i.codePointer (i.stack (i.framePointer + reg)) context framePointer
        { i with codePointer := i.codePointer + length } i' ↔
      ¬ StaleHome i context framePointer := by
  obtain ⟨acts, active, running⟩ := formed.reaches reaches
  have recorded := contextAt_object home
  have late := running.returnsTooLate_iff active recorded
  have running' := running.jump (i.codePointer + length)
  simp only [interpret, fetch, Option.bind_some, execute, Option.bind_eq_bind,
    Option.bind_eq_some_iff] at step
  obtain ⟨value, read, step⟩ := step
  have value' : value = i.stack (i.framePointer + reg) := by
    unfold Interpreter.register at read
    split at read
    · exact (Option.some.inj read).symm
    · cases read
  subst value'
  simp only [returnResult, if_neg apart, home, Option.bind_some] at step
  have check : returnsTooLate { i with codePointer := i.codePointer + length } context framePointer =
    returnsTooLate i context framePointer := rfl
  rw [check] at step
  constructor
  · intro returns stale
    have signalled := (returns.signals fun here => stale.1 ((home_jump _).mp here)).1
    rw [check, late] at signalled
    exact signalled.2 stale
  · intro fresh
    constructor
    · intro here
      have active' := (home_jump _).mp here
      rw [if_neg fun gone => (late.mp gone).1 active'] at step
      obtain ⟨t, ht, rfl, context'⟩ := running.home active recorded active'
      obtain ⟨above, rest, split⟩ := List.append_of_mem ht
      obtain ⟨rest', record⟩ := running.recorded ht
      have harmless : Harmless acts t.result :=
        running.harmless active (free active' _ record.result)
      have returned := returnTo_returns running' split (fun _ => harmless) step
      subst split
      exact ⟨above, t, rest, running', context', returned⟩
    · intro gone
      have signalled := late.mpr ⟨fun here => gone ((home_jump _).mpr here), fresh⟩
      rw [if_pos signalled] at step
      obtain ⟨k, _, pushed⟩ := (applyTo_calls w w.depth).signal running'.toBased step
      exact ⟨check.trans signalled, step, acts, k, running', pushed⟩

def homeCaller : CompiledMethod := plainMethod 0 1
  [.smallint 3, .smallint 0, .object 1, .smallint 26, .smallint 0, .smallint 0, .smallint 0]

/-- The caller, a method that makes a block and calls it, and the block, which returns from there. -/
def homeHeap : Heap :=
  ⟨[.compiledMethod homeCaller,
    .compiledMethod { plainMethod 0 1
      [.smallint 7, .smallint 0, .object 2, .smallint 26, .smallint 0, .smallint 0, .smallint 0] with
      heapAllocate := true },
    .compiledMethod (plainMethod 0 1 [.smallint 10, .smallint 0, .smallint 1])]⟩

def beforeHome : Option Interpreter :=
  (booted homeHeap (.object 0) homeCaller).bind (rounds Interpreter.mute (answering .nil) 4)

theorem non_local_return_home :
    ∃ i i' : Interpreter, beforeHome = some i ∧ interpret (answering .nil) i = some i' ∧
      ReturnsHome (answering .nil) i.codePointer (i.stack (i.framePointer + 0)) 3 13
        { i with codePointer := i.codePointer + (3 : Nat) } i' := by
  obtain ⟨i', found⟩ : ∃ i', beforeHome.bind (interpret (answering .nil)) = some i' :=
    Option.isSome_iff_exists.mp (by decide +kernel)
  obtain ⟨i, reached, step⟩ := Option.bind_eq_some_iff.mp found
  obtain ⟨i₀, boot, run⟩ := Option.bind_eq_some_iff.mp reached
  have running := booted_running rfl rfl boot
  have fetch : i.fetch = some (plainMethod 0 1 [.smallint 10, .smallint 0, .smallint 1],
      .returnFrom 0 1, 3) := computed reached (by decide +kernel)
  have home : i.heap.contextAt i.closure 1 = some (3, 13, []) :=
    computed reached (f := fun i => i.heap.contextAt i.closure 1) (by decide +kernel)
  have within : framesWithin [20, 13, 6] i := computed reached (by decide +kernel)
  have unguarded : i.ensureHandlers = 0 := computed reached (by decide +kernel)
  have place : i.stack 8 = .smallint 6 :=
    computed reached (f := fun i => i.stack 8) (by decide +kernel)
  have top : i.stack 11 = .object 3 :=
    computed reached (f := fun i => i.stack 11) (by decide +kernel)
  have active : ActiveFrame i 13 := .caller (.current) (computed reached
    (f := fun i => i.stack (i.framePointer - 1)) (by decide +kernel)) (by decide)
  refine ⟨i, i', reached, step, (non_local_return_iff ⟨_, List.cons_ne_nil _ _, running⟩
    (Reaches.of_run (rounds_run Interpreter.mute_careful run)) fetch (by decide) home ?_ step).mpr ?_⟩
  · intro _ result here reserved
    rw [place, Value.smallint.injEq] at here
    subst here
    rcases reserved with ⟨frame, active', record⟩ | ⟨_, pending, _⟩
    · have one := active'.within within
      simp only [List.mem_cons, List.not_mem_nil, or_false] at one
      omega
    · rw [unguarded] at pending
      cases pending with
      | here nonzero => exact nonzero rfl
      | outer nonzero => exact nonzero rfl
  · intro stale
    exact stale.1 ⟨13, active, top⟩

def staleCaller : CompiledMethod := plainMethod 0 2
  [.smallint 3, .smallint 0, .object 1, .smallint 26, .smallint 0, .smallint 0, .smallint 0,
    .smallint 3, .smallint 1, .object 4, .smallint 26, .smallint 1, .smallint 1, .smallint 1, .smallint 0]

/-- The caller; a method that passes on what another one answers, and that one, which answers a
block; the block, which returns from there; a method that calls its argument, and has registers
that it does not set. -/
def staleHeap : Heap :=
  ⟨[.compiledMethod staleCaller,
    .compiledMethod (plainMethod 0 1
      [.smallint 3, .smallint 0, .object 2, .smallint 26, .smallint 0, .smallint 0, .smallint 0,
        .smallint 22, .smallint 0]),
    .compiledMethod { plainMethod 0 1
      [.smallint 7, .smallint 0, .object 3, .smallint 22, .smallint 0] with heapAllocate := true },
    .compiledMethod (plainMethod 0 1 [.smallint 10, .smallint 0, .smallint 1]),
    .compiledMethod (plainMethod 1 6 [.smallint 26, .smallint 0, .smallint 0, .smallint 1])]⟩

def beforeStale : Option Interpreter :=
  (booted staleHeap (.object 0) staleCaller).bind (rounds (fun _ => true) (answering .nil) 10)

theorem non_local_return_stale :
    ∃ start i i' : Interpreter, booted staleHeap (.object 0) staleCaller = some start ∧
      Relation.ReflTransGen (Round fun _ => True) start i ∧
      (∃ m, i.fetch = some (m, .returnFrom 0 1, 3)) ∧
      i.heap.contextAt i.closure 1 = some (5, 21, []) ∧ interpret (answering .nil) i = some i' ∧
      ¬ HomeActive i 5 ∧ i'.framePointer < i.framePointer ∧
      ¬ ReturnsHome (answering .nil) i.codePointer (i.stack (i.framePointer + 0)) 5 21
        { i with codePointer := i.codePointer + (3 : Nat) } i' := by
  obtain ⟨i', found⟩ : ∃ i', beforeStale.bind (interpret (answering .nil)) = some i' :=
    Option.isSome_iff_exists.mp (by decide +kernel)
  obtain ⟨i, reached, step⟩ := Option.bind_eq_some_iff.mp found
  obtain ⟨start, boot, run⟩ := Option.bind_eq_some_iff.mp reached
  have fetch : i.fetch = some (plainMethod 0 1 [.smallint 10, .smallint 0, .smallint 1],
      .returnFrom 0 1, 3) := computed reached (by decide +kernel)
  have home : i.heap.contextAt i.closure 1 = some (5, 21, []) :=
    computed reached (f := fun i => i.heap.contextAt i.closure 1) (by decide +kernel)
  have within : framesWithin [27, 14, 6] i := computed reached (by decide +kernel)
  have contexts : [27, 14, 6].map (fun frame => i.stack (frame - 2)) = [.nil, .nil, .smallint 0] :=
    computed reached (f := fun i => [27, 14, 6].map fun frame => i.stack (frame - 2))
      (by decide +kernel)
  have late : returnsTooLate i 5 21 = false :=
    computed reached (f := fun i => returnsTooLate i 5 21) (by decide +kernel)
  have from' : i.framePointer = 27 := computed reached (by decide +kernel)
  have to' : i'.framePointer = 14 := computed found (by decide +kernel)
  have gone : ¬ HomeActive i 5 := by
    rintro ⟨frame, active, here⟩
    have one := active.within within
    simp only [List.map_cons, List.map_nil, List.cons.injEq] at contexts
    simp only [List.mem_cons, List.not_mem_nil, or_false] at one
    rcases one with rfl | rfl | rfl <;> simp_all
  refine ⟨start, i, i', boot, rounds_run (fun _ _ => trivial) run, ⟨_, fetch⟩, home, step, gone,
    by omega, ?_⟩
  intro returns
  have signalled := (returns.signals fun here => gone ((home_jump _).mp here)).1
  exact absurd (late.symm.trans signalled) (by decide)

end Return

end SlateVm.Frames
