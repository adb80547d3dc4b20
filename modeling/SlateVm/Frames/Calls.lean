import SlateVm.Frames.Boot

/-! A call and everything that happens until it returns: what the caller finds again, and which
cells below the call were written. -/
namespace SlateVm.Frames

/-- A round that starts above `low` and goes back to no frame at or below it. -/
def WithinCall (low : Nat) (i i' : Interpreter) : Prop :=
  low < i.framePointer ∧ Round (Disciplined (low < ·)) i i'

section Run

variable {base : Int → Prop} {low : Nat} {i i' : Interpreter}
  {inner outer inner' outer' : List Activation}

theorem Keeps.shape {acts others : List Activation} {h h' : Heap} (keeps : Keeps others h h')
    (same : others.map Activation.shape = acts.map Activation.shape) : Keeps acts h h' := by
  intro a ha
  obtain ⟨b, hb, here⟩ := mem_of_shape same ha
  have closure : b.closure = a.closure := by
    simp only [Activation.shape, Activation.mk.injEq] at here
    exact here.2.2.2.1
  rw [← closure]
  exact keeps b hb

theorem Worked.refl {ok : Nat → Prop} (n : Inner base ok low i inner outer) :
    Worked base ok low i i inner outer inner outer :=
  ⟨n, rfl, fun c hc => ⟨c, hc, rfl⟩, fun _ _ _ => rfl, .extends (.refl _)⟩

theorem Worked.trans {ok : Nat → Prop} {i'' : Interpreter} {inner'' outer'' : List Activation}
    (first : Worked base ok low i i' inner outer inner' outer')
    (more : Worked base ok low i' i'' inner' outer' inner'' outer'') :
    Worked base ok low i i'' inner outer inner'' outer'' where
  works := more.works
  same := more.same.trans first.same
  bottom c hc := by
    obtain ⟨b, hb, here⟩ := more.bottom c hc
    obtain ⟨a, ha, there⟩ := first.bottom b hb
    exact ⟨a, ha, here.trans there⟩
  cells k below unbased :=
    (more.cells k below unbased).trans (first.cells k below unbased)
  methods := first.methods.trans (more.methods.shape first.same)

theorem Inner.nonempty {ok : Nat → Prop} (n : Inner base ok low i inner outer)
    (high : low < i.framePointer) : inner ≠ [] := by
  rintro rfl
  have frame : i.framePointer = previousPointer outer := n.running.framePointer
  cases outer with
  | nil =>
    change i.framePointer = 0 at frame
    omega
  | cons t rest =>
    have lower := n.lower t (List.mem_cons_self ..)
    change i.framePointer = t.framePointer at frame
    omega

theorem Inner.step (n : Inner base (low < ·) low i inner outer) (within : WithinCall low i i') :
    ∃ inner' outer', Worked base (low < ·) low i i' inner outer inner' outer' := by
  obtain ⟨high, round⟩ := within
  rcases n.round (n.nonempty high) round with worked | ⟨above, t, rest, split, allowed, _⟩
  · exact worked
  · have lower := n.lower t (by rw [split]; simp)
    omega

theorem Inner.run (n : Inner base (low < ·) low i inner outer)
    (run : Relation.ReflTransGen (WithinCall low) i i') :
    ∃ inner' outer', Worked base (low < ·) low i i' inner outer inner' outer' := by
  induction run with
  | refl => exact ⟨inner, outer, .refl n⟩
  | tail _ within ih =>
    obtain ⟨inner₁, outer₁, first⟩ := ih
    obtain ⟨inner₂, outer₂, more⟩ := first.works.step within
    exact ⟨inner₂, outer₂, first.trans more⟩

end Run

/-- The caller goes on as it was before the call, with the value in the result cell. -/
structure Resumed (i i' : Interpreter) (result : Int) (value : Value) : Prop where
  framePointer : i'.framePointer = i.framePointer
  stackPointer : i'.stackPointer = i.stackPointer
  codePointer : i'.codePointer = i.codePointer
  method : i'.method = i.method
  closure : i'.closure = i.closure
  lexicalContext : i'.lexicalContext = i.lexicalContext
  codeSize : i'.codeSize = i.codeSize
  cells : ∀ k < i.stackPointer, (k : Int) ≠ result → i'.stack k = i.stack k
  result : 0 ≤ result ∧ i'.stack result.toNat = value

section Call

variable {w w' : World} {i i₁ i₂ i₃ : Interpreter} {acts inner outer : List Activation}
  {closure value : Value} {args opts : List Value} {result prev : Int} {depth low : Nat}
  {a : Activation}

theorem Entered.works (entered : Entered i i₁ result a) (running : Running i acts)
    (running' : Running i₁ (a :: acts)) (harmless : Harmless acts result)
    (below : result < i.stackPointer) :
    Inner (· = result) (i.stackPointer < ·) i.stackPointer i₁ [a] acts := by
  have lower : ∀ t ∈ acts, t.framePointer ≤ i.stackPointer := by
    intro t ht
    have under := running.chain.below t ht
    unfold Activation.top at under
    omega
  refine ⟨running', ⟨.inl entered.result, trivial⟩, ?_, ?_, lower, ?_⟩
  · intro b hb
    rw [List.mem_singleton.mp hb]
    exact entered.framePointer.ge
  · rintro r rfl
    exact ⟨harmless, .inl below⟩
  · intro t ht allowed
    have := lower t ht
    omega

theorem Inner.single (n : Inner (· = result) (low < ·) low i inner outer)
    (current : i.framePointer = low + 6) : ∃ c, inner = [c] ∧ c.framePointer = low + 6 := by
  have nonempty := n.nonempty (by omega)
  obtain ⟨c, rest, rfl⟩ := List.exists_cons_of_ne_nil nonempty
  have frame : i.framePointer = c.framePointer := n.running.framePointer
  refine ⟨c, ?_, by omega⟩
  cases rest with
  | nil => rfl
  | cons b rest =>
    obtain ⟨_, _, _, _, outer, _, down⟩ := n.running.chain
    have under := down.below b (List.mem_cons_self ..)
    have high := n.high b (by simp)
    unfold Activation.top at under
    omega

theorem Running.resumed {acts' : List Activation} (running : Running i acts)
    (running' : Running i₃ acts') (active : acts ≠ [])
    (same : acts'.map Activation.shape = acts.map Activation.shape)
    (keeps : Keeps acts i.heap i₃.heap) :
    i₃.framePointer = i.framePointer ∧ i₃.method = i.method ∧ i₃.closure = i.closure ∧
      i₃.lexicalContext = i.lexicalContext ∧ i₃.codeSize = i.codeSize := by
  obtain ⟨t, rest, rfl⟩ := List.exists_cons_of_ne_nil active
  cases acts' with
  | nil => cases same
  | cons t' rest' =>
    simp only [List.map_cons, List.cons.injEq] at same
    have fields := same.1
    simp only [Activation.shape, Activation.mk.injEq] at fields
    obtain ⟨frame, _, _, closure, context, _, _⟩ := fields
    have closure' : i₃.closure = i.closure := by
      rw [running'.closure t' rfl, running.closure t rfl, closure]
    have context' : i₃.lexicalContext = i.lexicalContext := by
      rw [running'.lexicalContext t' rfl, running.lexicalContext t rfl, context]
    obtain ⟨m, compiled, size⟩ := running.codeSize
    have isMethod := running.method
    rw [running.closure t rfl] at isMethod
    obtain ⟨isMethod', compiled'⟩ := keeps t (List.mem_cons_self ..) _ m isMethod compiled
    have method' : i₃.method = i.method := by
      have found := running'.method
      rw [closure', running.closure t rfl, isMethod'] at found
      exact (Option.some.inj found).symm
    obtain ⟨m', found, size'⟩ := running'.codeSize
    rw [method', compiled', Option.some.injEq] at found
    refine ⟨?_, method', closure', context', ?_⟩
    · rw [running'.framePointer, running.framePointer]
      exact frame
    · rw [size', size, found]

/-- A call whose result cell is no part of a record and no pending handler, and a run of the
callee until it returns without a handler of its own pending. -/
theorem local_return_resumes (running : Running i acts) (active : acts ≠ [])
    (harmless : Harmless acts result) (below : result < i.stackPointer)
    (applied : applyTo w depth closure args opts result i = some i₁)
    (callee : Relation.ReflTransGen (WithinCall i.stackPointer) i₁ i₂)
    (current : i₂.framePointer = i₁.framePointer)
    (unguarded : i₂.ensureHandlers < i₁.framePointer)
    (returned : returnResult w' 0 (some value) prev i₂ = some i₃) : Resumed i i₃ result value := by
  obtain ⟨a, entered, running₁⟩ := applyTo_calls w depth running.toBased applied
  have n := entered.works running running₁ harmless below
  have frame : i₁.framePointer = i.stackPointer + 6 := by
    rw [running₁.framePointer]
    exact entered.framePointer
  obtain ⟨inner, outer, worked⟩ := n.run callee
  obtain ⟨c, rfl, here⟩ := worked.works.single (by rw [current, frame])
  obtain ⟨a', ha', shape⟩ := worked.bottom c rfl
  obtain rfl : a = a' := by simpa using ha'
  simp only [Activation.shape, Activation.mk.injEq] at shape
  obtain ⟨_, place, code, _, _, _, _⟩ := shape
  have running₂ : Running i₂ ([] ++ c :: outer) := worked.works.running
  have target : i₂.framePointer = c.framePointer := running₂.framePointer
  simp only [returnResult, if_pos, target] at returned
  have free : Harmless ([c] ++ outer) c.result :=
    worked.works.free (.inl (by rw [place, entered.result]))
  rcases returnTo_returns running₂ rfl (fun _ => free) returned with handles | leaves
  · obtain ⟨_, _, _, _, guarded⟩ := handles
    have pending := running₂.chain.pending_iff.mpr guarded
    omega
  · have result' : c.result = result := by rw [place, entered.result]
    have under := running₂.chain.below c (by simp)
    unfold Activation.top at under
    have keeps : Keeps acts i.heap i₃.heap :=
      (Keeps.extends entered.heap).trans (worked.methods.trans (.extends leaves.heap))
    obtain ⟨framePointer, method, closure', context, size⟩ :=
      running.resumed leaves.running active worked.same keeps
    refine ⟨framePointer, ?_, ?_, method, closure', context, size, ?_, ?_⟩
    · rw [leaves.stackPointer, here, Nat.add_sub_cancel]
    · rw [leaves.codePointer, code, entered.codePointer]
    · intro k low apart
      rw [leaves.cells k (by omega) (by rw [result']; exact apart), worked.cells k low (by simpa using apart),
        entered.cells k low]
    · rw [← result']
      exact leaves.result value rfl

end Call

section Examples

def literalHeap : Heap :=
  ⟨[.compiledMethod (plainMethod 0 1 []),
    .compiledMethod (plainMethod 0 1 [.smallint 3, .smallint 0, .smallint 7, .smallint 22, .smallint 0])]⟩

theorem local_return_resumes_literal :
    ∃ i i₃ : Interpreter, booted literalHeap (.object 0) (plainMethod 0 1 []) = some i ∧
      Resumed i i₃ 6 (.smallint 7) := by
  have boot : booted literalHeap (.object 0) (plainMethod 0 1 []) = some _ := rfl
  have running := booted_running rfl rfl boot
  refine ⟨_, _, boot, local_return_resumes running (List.cons_ne_nil _ _) ?_ (by decide)
    (show applyTo (answering .nil) 1 (.object 1) [] [] 6 _ = some _ from rfl)
    (.single ⟨by decide, .interpret (answering .nil) literalHeap (Settles.refl _) ?_ rfl⟩) rfl
    (by decide) (show returnResult (answering .nil) 0 (some (.smallint 7)) 3 _ = some _ from rfl)⟩
  · exact running.chain.apart (List.mem_cons_self ..) ⟨by decide, by decide⟩
  · intro m instr length fetch
    cases fetch
    exact ⟨trivial, fun returns => by cases returns⟩

def branchMethod : CompiledMethod := plainMethod 0 4 [.smallint 20, .smallint 3, .smallint 5]

def branchHeap : Heap :=
  ⟨[.compiledMethod branchMethod,
    .compiledMethod (plainMethod 1 0 [.smallint 23, .object 1])]⟩

theorem local_return_overwrites_closure :
    ∃ (i i₁ i₃ : Interpreter) (acts : List Activation), Running i acts ∧ acts ≠ [] ∧
      interpret (answering (.object 1)) i = some i₁ ∧
      applyTo (answering (.object 1)) 2 (.object 1) [.nil] [] 3 i = some i₁ ∧
      i₁.ensureHandlers < i₁.framePointer ∧
      returnResult (answering (.object 1)) 0 (some (.object 1)) 0 i₁ = some i₃ ∧
      ¬ Resumed i i₃ 3 (.object 1) := by
  have boot : booted branchHeap (.object 0) branchMethod = some _ := rfl
  refine ⟨_, _, _, _, booted_running rfl rfl boot, List.cons_ne_nil _ _, rfl, rfl, ?_, rfl, ?_⟩
  · decide
  · intro resumed
    have closure := resumed.closure
    exact absurd closure (by decide)

end Examples

end SlateVm.Frames
