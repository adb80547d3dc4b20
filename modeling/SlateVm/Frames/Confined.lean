import SlateVm.Frames.Calls

/-! Where results are written: an instruction writes below the stack pointer at most the register
that it names, and a return the cell that the record of its frame names. -/
namespace SlateVm.Frames

section Cells

variable {w : World} {i i' : Interpreter}

def Leave (apply : Apply) : Prop :=
  ∀ ⦃i i' : Interpreter⦄ ⦃closure : Value⦄ ⦃args opts : List Value⦄ ⦃result : Int⦄,
    apply closure args opts result i = some i' → ∀ k < i.stackPointer, i'.stack k = i.stack k

theorem enterFrame_cells {closure method : Value} {m : CompiledMethod} {args opts : List Value}
    {result : Int} (run : enterFrame w closure method m args opts result i = some i') :
    ∀ k < i.stackPointer, i'.stack k = i.stack k := by
  obtain ⟨stored, context, vars, prepared, fills⟩ := enterFrame_prepared run
  have filled := fillVars_above prepared.vars (le_refl _) fills
  intro k low
  rw [filled.cells k (by omega), pushRecord_cells (.inl low), prepared.cells k low]

theorem Leave.signal {apply : Apply} (leave : Leave apply) {selector : Special}
    {args opts : List Value} {result : Int}
    (run : signal w apply selector args opts result i = some i') :
    ∀ k < i.stackPointer, i'.stack k = i.stack k := by
  simp only [Frames.signal, Option.bind_eq_some_iff] at run
  obtain ⟨method, _, applied⟩ := run
  exact leave applied

theorem Leave.method {apply : Apply} (leave : Leave apply) (w : World) :
    Leave (applyMethod w apply) := by
  intro i i' closure args opts result run
  simp only [applyMethod, Option.bind_eq_some_iff] at run
  obtain ⟨method, _, m, _, run⟩ := run
  split at run
  · cases run
  · split at run
    · exact enterFrame_cells run
    · exact fun k low => leave.signal run k low

theorem applyTo_leave (w : World) (depth : Nat) : Leave (applyTo w depth) := by
  induction depth with
  | zero =>
    intro i i' closure args opts result run
    cases run
  | succ depth ih =>
    intro i i' closure args opts result run
    simp only [applyTo, Option.bind_eq_some_iff] at run
    obtain ⟨window, _, run⟩ := run
    cases window with
    | compiledMethod => exact Leave.method ih w run
    | closureMethod => exact Leave.method ih w run
    | primitiveMethod index => exact ih.signal run
    | other => exact ih.signal run

theorem runEnsureHandler_cells {place prev : Int}
    (run : runEnsureHandler w place prev i = some i') :
    ∀ k < i.stackPointer, i'.stack k = i.stack k := by
  simp only [runEnsureHandler, Option.bind_eq_some_iff] at run
  obtain ⟨outer, _, run⟩ := run
  split at run
  · simp only [Option.bind_eq_some_iff] at run
    obtain ⟨marked, pushes, applies⟩ := run
    have p := pushAll_pushed pushes
    have up : marked.stackPointer = i.stackPointer + 6 := p.stackPointer
    intro k low
    have above := applyTo_leave w w.depth applies k (by change k < marked.stackPointer; omega)
    exact above.trans (p.cells k low)
  · cases run

theorem popFrame_stack {framePointer : Nat} (run : popFrame w framePointer i = some i') :
    i'.stack = i.stack := by
  simp only [popFrame, Option.bind_eq_some_iff] at run
  obtain ⟨stackPointer, _, frame, _, run⟩ := run
  split at run
  · cases run
  · simp only [Option.bind_eq_some_iff, Option.map_eq_some_iff] at run
    obtain ⟨method, _, m, _, rfl⟩ := run
    rfl

theorem returnTo_cells {framePointer : Nat} {result : Option Value} {prev : Int}
    (run : returnTo w framePointer result prev i = some i') :
    ∀ k < i.stackPointer, (k : Int) ≠ w.word (i.stack (framePointer - 5)) →
      i'.stack k = i.stack k := by
  simp only [returnTo, Option.bind_eq_some_iff] at run
  obtain ⟨stored, stores, run⟩ := run
  have touches := (storeResult_touches stores).1
  intro k low apart
  split at run
  · rw [runEnsureHandler_cells run k (by rw [touches.stackPointer]; exact low),
      touches.cells k low apart]
  · rw [popFrame_stack run, touches.cells k low apart]

end Cells

section Confined

variable {w : World} {i i₁ i₂ : Interpreter} {a : Activation} {rest news : List Activation}
  {r : Int}

theorem Pushes.inner_works (p : Pushes r i i₁ (a :: rest) news) (running : Running i (a :: rest))
    (inside : a.InCells r) :
    Inner (· = r) (i.stackPointer < ·) i.stackPointer i₁ news (a :: rest) := by
  have under : ∀ t ∈ a :: rest, t.framePointer + t.cells ≤ i.stackPointer := by
    intro t ht
    have top := running.chain.below t ht
    unfold Activation.top at top
    omega
  have first := under a (List.mem_cons_self ..)
  unfold Activation.InCells at inside
  have none' : Aims (· = r) [] := trivial
  have aims : Aims (· = r) (news ++ []) := none'.append fun b hb => .inl (p.results b hb)
  rw [List.append_nil] at aims
  refine ⟨p.running, aims, p.high, ?_, ?_, ?_⟩
  · rintro r' rfl
    exact ⟨running.chain.apart (List.mem_cons_self ..) inside, .inl (by omega)⟩
  · intro t ht
    have := under t ht
    omega
  · intro t ht allowed
    have := under t ht
    omega

theorem Pushes.confined (p : Pushes r i i₁ (a :: rest) news) (running : Running i (a :: rest))
    (aim : news = [] ∨ a.InCells r)
    (run : Relation.ReflTransGen (WithinCall i.stackPointer) i₁ i₂) :
    ∀ k < i.stackPointer, (k : Int) ≠ r → i₂.stack k = i.stack k := by
  intro k low apart
  have here := p.cells k low apart
  rcases aim with rfl | inside
  · have frame : i₁.framePointer = a.framePointer := p.running.framePointer
    have under := running.chain.below a (List.mem_cons_self ..)
    unfold Activation.top at under
    rcases Relation.ReflTransGen.cases_head run with rfl | ⟨next, within, _⟩
    · exact here
    · have := within.1
      omega
  · obtain ⟨inner, outer, worked⟩ := (p.inner_works running inside).run run
    rw [worked.cells k low apart, here]

theorem Instr.returns_of_target {instr : Instr} {target : Nat}
    (goal : instr.target i = some target) : instr.returns := by
  cases instr
  case returnRegister | resume | returnFrom | returnValue => rfl
  all_goals cases goal

def sendMethod : CompiledMethod := plainMethod 0 1 [.smallint 0, .smallint 0, .nil, .smallint 0]

def sendHeap : Heap :=
  ⟨[.compiledMethod sendMethod, .compiledMethod (plainMethod 0 0 [.smallint 23, .smallint 7])]⟩

end Confined

end SlateVm.Frames
