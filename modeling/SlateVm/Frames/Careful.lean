import SlateVm.Frames.Boot

/-! Runs that deliver no result into a record or a pending handler: the chain of frames stays well
formed, whatever else is signalled on the way. -/
namespace SlateVm.Frames

/-- The indices that the chain of handlers leads through, from `ensure` on. -/
inductive Pending (stack : Nat → Value) : Nat → Nat → Prop
  | here {ensure : Nat} : ensure ≠ 0 → Pending stack ensure ensure
  | outer {ensure outer place : Nat} : ensure ≠ 0 → stack ensure = .smallint outer →
      Pending stack outer place → Pending stack ensure place

/-- A saved word of an active frame's record or a cell of a pending handler. The stack pointer
before the first frame is not used. -/
def Reserved (i : Interpreter) (cell : Int) : Prop :=
  (∃ frame : Nat, ActiveFrame i frame ∧
    ((frame ≤ cell + 5 ∧ cell < frame) ∨ (6 < frame ∧ cell + 6 = frame))) ∨
  (∃ place : Nat, Pending i.stack i.ensureHandlers place ∧ place ≤ cell ∧ cell < place + 2)

def FreeResult (i : Interpreter) (frame : Nat) : Prop :=
  ∀ result, i.stack (frame - 5) = .smallint result → ¬ Reserved i result

/-- The result that is delivered next, if any, comes from an active frame and does not go to a
reserved cell. -/
def Careful (i : Interpreter) : Prop :=
  ∀ m instr length target, i.fetch = some (m, instr, length) → instr.delivers →
    instr.target i = some target → ActiveFrame i target ∧ FreeResult i target

def WellFormed (i : Interpreter) : Prop := ∃ acts, acts ≠ [] ∧ Running i acts

section Reserved

variable {h : Heap} {stack : Nat → Value} {top ensure : Nat} {i : Interpreter}
  {acts : List Activation} {r : Int}

theorem Chain.pending (c : Chain h stack top ensure acts) {a : Activation} (ha : a ∈ acts)
    (guarded : a.handler.isSome) : Pending stack ensure (a.framePointer + a.cells) := by
  induction acts generalizing top ensure with
  | nil => cases ha
  | cons b rest ih =>
    obtain ⟨six, _, _, _, outer, handled, down⟩ := c
    unfold Handled at handled
    cases some' : b.handler with
    | none =>
      simp only [some'] at handled
      rcases List.mem_cons.mp ha with rfl | ha
      · rw [some'] at guarded
        cases guarded
      · rw [← handled]
        exact ih down ha
    | some handler =>
      simp only [some'] at handled
      obtain ⟨place, outward, _⟩ := handled
      rcases List.mem_cons.mp ha with rfl | ha
      · rw [← place]
        exact .here (by omega)
      · exact .outer (by omega) outward (ih down ha)

theorem Running.harmless (running : Running i acts) (active : acts ≠ []) (free : ¬ Reserved i r) :
    Harmless acts r := by
  rintro a ha k holds rfl
  apply free
  have frame := (running.active_iff active _).mpr ⟨a, ha, rfl⟩
  rcases holds with record | before | ⟨guarded, handler⟩
  · exact .inl ⟨_, frame, .inl (by omega)⟩
  · exact .inl ⟨_, frame, .inr (by omega)⟩
  · exact .inr ⟨_, running.chain.pending ha guarded, by omega, by omega⟩

end Reserved

section Round

variable {w : World} {i i' : Interpreter} {acts : List Activation}

theorem execute_running {a : Activation} {rest : List Activation} {m : CompiledMethod}
    {prevPointer : Int} {instr : Instr} (running : Running i (a :: rest))
    (compiled : i.heap.compiledMethod i.method = some m) (works : instr.returns = false)
    (run : execute w m prevPointer i instr = some i') :
    ∃ news, Running i' (news ++ a :: rest) := by
  by_cases boolean : instr.TestsBoolean i
  · obtain ⟨news, p, _⟩ := execute_pushes running compiled works boolean run
    exact ⟨news, p.running⟩
  · cases instr with
    | branchIfTrue cond offset =>
      obtain ⟨news, p⟩ := branchIf_pushes running run
      exact ⟨news, p.running⟩
    | branchIfFalse cond offset =>
      obtain ⟨news, p⟩ := branchIf_pushes running run
      exact ⟨news, p.running⟩
    | _ => exact absurd trivial boolean

theorem Instr.target_current {instr : Instr} (returns : instr.returns) (mute : ¬ instr.delivers) :
    instr.target i = some i.framePointer := by
  cases instr with
  | resume => rfl
  | returnRegister | returnFrom | returnValue => exact absurd rfl mute
  | _ => cases returns

theorem FreeResult.jump {frame : Nat} (free : FreeResult i frame) (codePointer : Int) :
    FreeResult { i with codePointer := codePointer } frame := by
  intro result here reserved
  refine free result here ?_
  rcases reserved with ⟨frame', active, record⟩ | pending
  · exact .inl ⟨frame', active.same rfl rfl, record⟩
  · exact .inr pending

theorem Running.returnTo (running : Running i acts) (active : acts ≠ []) {target : Nat}
    {result : Option Value} {prev : Int} (frame : ActiveFrame i target)
    (free : result.isSome → FreeResult i target) (run : returnTo w target result prev i = some i') : WellFormed i' := by
  obtain ⟨t, ht, rfl⟩ := (running.active_iff active target).mp frame
  obtain ⟨above, rest, split⟩ := List.append_of_mem ht
  obtain ⟨rest', recorded⟩ := running.recorded ht
  have harmless : result.isSome → Harmless acts t.result := fun some' =>
    running.harmless active (free some' _ recorded.result)
  rcases returnTo_returns running split harmless run with handles | leaves
  · obtain ⟨handler, others, k, runs, _⟩ := handles
    exact ⟨_, List.cons_ne_nil _ _, runs.running⟩
  · exact ⟨rest, leaves.caller, leaves.running⟩

theorem Running.interpret (running : Running i acts) (active : acts ≠ []) (careful : Careful i)
    (run : interpret w i = some i') : WellFormed i' := by
  simp only [Frames.interpret, Option.bind_eq_some_iff] at run
  obtain ⟨⟨m, instr, length⟩, fetch, run⟩ := run
  have compiled := fetch_compiled fetch
  have running' := running.jump (i.codePointer + length)
  by_cases returns : instr.returns
  · rcases execute_returns returns run with ⟨result, target, goal, delivers, run⟩ | ⟨_, signals⟩
    · rw [Instr.target_jump] at goal
      by_cases speaks : instr.delivers
      · obtain ⟨frame, free⟩ := careful m instr length target fetch speaks goal
        exact running'.returnTo active (frame.same rfl rfl) (fun _ => free.jump _) run
      · rw [Instr.target_current returns speaks, Option.some.injEq] at goal
        subst goal
        exact running'.returnTo active (ActiveFrame.current.same rfl rfl)
          (fun some' => absurd (delivers some') speaks) run
    · obtain ⟨context, framePointer, _, run⟩ := signals
      obtain ⟨k, _, pushed⟩ := (applyTo_calls w w.depth).signal running'.toBased run
      exact ⟨_, List.cons_ne_nil _ _, pushed⟩
  · obtain ⟨a, rest, rfl⟩ := List.exists_cons_of_ne_nil active
    obtain ⟨news, pushed⟩ := execute_running running' compiled (by simpa using returns) run
    exact ⟨_, by simp, pushed⟩

theorem WellFormed.round (formed : WellFormed i) (round : Round Careful i i') : WellFormed i' := by
  obtain ⟨acts, active, running⟩ := formed
  cases round with
  | interpret w h settles careful run =>
    exact (running.settle active settles).interpret active careful run
  | interrupt w h settles run =>
    obtain ⟨k, _, pushed⟩ := (applyTo_calls w w.depth).signal
      (running.settle active settles).toBased run
    exact ⟨_, List.cons_ne_nil _ _, pushed⟩

theorem WellFormed.run (formed : WellFormed i) (run : Relation.ReflTransGen (Round Careful) i i') :
    WellFormed i' := by
  induction run with
  | refl => exact formed
  | tail _ round ih => exact ih.round round

def Interpreter.mute (i : Interpreter) : Bool :=
  match i.fetch with
  | some (_, instr, _) => !instr.delivers
  | none => true

theorem Interpreter.mute_careful (i : Interpreter) (mute : i.mute) : Careful i := by
  intro m instr length target fetch speaks
  simp [Interpreter.mute, fetch, speaks] at mute

def Reaches (ok : Interpreter → Prop) (start i : Interpreter) : Prop :=
  ∃ j, Relation.ReflTransGen (Round ok) start j ∧ ∃ h, Settles j h ∧ i = { j with heap := h }

theorem Reaches.of_run {ok : Interpreter → Prop} (run : Relation.ReflTransGen (Round ok) i i') :
    Reaches ok i i' := ⟨i', run, i'.heap, Settles.refl i', rfl⟩

theorem WellFormed.reaches (formed : WellFormed i) (reaches : Reaches Careful i i') :
    WellFormed i' := by
  obtain ⟨j, run, h, settles, rfl⟩ := reaches
  obtain ⟨acts, active, running⟩ := formed.run run
  exact ⟨acts, active, running.settle active settles⟩

end Round

end SlateVm.Frames
