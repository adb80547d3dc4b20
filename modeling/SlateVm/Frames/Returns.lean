import SlateVm.Frames.Works

/-! What a return leaves: the frame below the one that is returned from, or the frame of a
handler that is to run first. -/
namespace SlateVm.Frames

def Activation.shape (a : Activation) : Activation := { a with handler := none }

def unguard : List Activation → Option (Value × List Activation)
  | [] => none
  | a :: rest =>
    match a.handler with
    | some handler => some (handler, { a with handler := none } :: rest)
    | none => (unguard rest).map fun (handler, others) => (handler, a :: others)

section Unguard

variable {acts others : List Activation} {handler : Value}

theorem unguard_shape (taken : unguard acts = some (handler, others)) :
    others.map Activation.shape = acts.map Activation.shape := by
  induction acts generalizing others with
  | nil => cases taken
  | cons a rest ih =>
    unfold unguard at taken
    split at taken
    · cases taken
      rfl
    · simp only [Option.map_eq_some_iff] at taken
      obtain ⟨⟨handler', others'⟩, found, same⟩ := taken
      cases same
      simp only [List.map_cons, ih found]

theorem unguard_append (taken : unguard acts = some (handler, others)) (more : List Activation) :
    unguard (acts ++ more) = some (handler, others ++ more) := by
  induction acts generalizing others with
  | nil => cases taken
  | cons a rest ih =>
    unfold unguard at taken
    rw [List.cons_append]
    unfold unguard
    split at taken
    · cases taken
      rfl
    · simp only [Option.map_eq_some_iff] at taken
      obtain ⟨⟨handler', others'⟩, inner, same⟩ := taken
      cases same
      simp [ih inner]

theorem unguard_cons {a : Activation} (unguarded : a.handler = none) (rest : List Activation) :
    unguard (a :: rest) = (unguard rest).map fun (handler, others) => (handler, a :: others) := by
  simp only [unguard, unguarded]

theorem unguard_skip (unguarded : ∀ a ∈ acts, a.handler = none) (more : List Activation) :
    unguard (acts ++ more) = (unguard more).map fun (handler, others) => (handler, acts ++ others) := by
  induction acts with
  | nil => simp
  | cons a rest ih =>
    rw [List.cons_append, unguard_cons (unguarded a (List.mem_cons_self ..)),
      ih fun b hb => unguarded b (List.mem_cons_of_mem _ hb), Option.map_map]
    rfl

theorem unguard_isSome (guarded : ∃ a ∈ acts, a.handler.isSome) :
    ∃ handler others, unguard acts = some (handler, others) := by
  induction acts with
  | nil =>
    obtain ⟨a, ha, _⟩ := guarded
    cases ha
  | cons a rest ih =>
    unfold unguard
    cases here : a.handler with
    | some handler => exact ⟨handler, _, rfl⟩
    | none =>
      obtain ⟨b, hb, some'⟩ := guarded
      rcases List.mem_cons.mp hb with rfl | hb
      · rw [here] at some'
        cases some'
      · obtain ⟨handler, others, found⟩ := ih ⟨b, hb, some'⟩
        exact ⟨handler, a :: others, by simp [found]⟩

end Unguard

section Handlers

variable {h : Heap} {stack : Nat → Value} {top ensure : Nat} {a t : Activation}
  {acts above rest : List Activation}

theorem Chain.ensure_low (c : Chain h stack top ensure acts) : ensure = 0 ∨ ensure + 2 ≤ top := by
  induction acts generalizing top ensure with
  | nil => exact .inl c
  | cons a rest ih =>
    obtain ⟨_, under, _, _, outer, handled, down⟩ := c
    unfold Activation.top at under
    unfold Handled at handled
    cases guarded : a.handler with
    | none =>
      simp only [guarded, Option.isSome_none, Bool.false_eq_true, if_false] at handled under
      subst handled
      rcases ih down with zero | low
      · exact .inl zero
      · exact .inr (by omega)
    | some handler =>
      simp only [guarded, Option.isSome_some, if_true] at handled under
      exact .inr (by omega)

theorem Chain.pending_iff (c : Chain h stack top ensure (above ++ t :: rest)) :
    t.framePointer ≤ ensure ↔ ∃ a ∈ above ++ [t], a.handler.isSome := by
  induction above generalizing top ensure with
  | nil =>
    obtain ⟨six, _, _, _, outer, handled, down⟩ := c
    unfold Handled at handled
    cases guarded : t.handler with
    | none =>
      simp only [guarded] at handled
      subst handled
      have low := down.ensure_low
      constructor
      · intro pending
        omega
      · rintro ⟨a, ha, some'⟩
        have here : a = t := by simpa using ha
        rw [here, guarded] at some'
        cases some'
    | some handler =>
      simp only [guarded] at handled
      constructor
      · intro _
        exact ⟨t, by simp, by rw [guarded]; rfl⟩
      · intro _
        omega
  | cons b above ih =>
    obtain ⟨_, _, _, _, outer, handled, down⟩ := c
    have lower := down.below t (by simp)
    unfold Activation.top at lower
    unfold Handled at handled
    cases guarded : b.handler with
    | none =>
      simp only [guarded] at handled
      subst handled
      rw [ih down]
      constructor
      · rintro ⟨a, ha, some'⟩
        exact ⟨a, List.mem_cons_of_mem _ ha, some'⟩
      · rintro ⟨a, ha, some'⟩
        rcases List.mem_cons.mp ha with rfl | ha
        · rw [guarded] at some'
          cases some'
        · exact ⟨a, ha, some'⟩
    | some handler =>
      simp only [guarded] at handled
      constructor
      · intro _
        exact ⟨b, by simp, by rw [guarded]; rfl⟩
      · intro _
        omega

theorem Chain.unguard (c : Chain h stack top ensure acts) (pending : ensure ≠ 0) :
    ∃ handler others, ∃ outer : Nat, unguard acts = some (handler, others) ∧
      stack ensure = .smallint outer ∧ stack (ensure + 1) = handler ∧
      previousPointer others = previousPointer acts ∧ Chain h stack top outer others := by
  induction acts generalizing top ensure with
  | nil => exact absurd c pending
  | cons a rest ih =>
    obtain ⟨six, under, recorded, sound, outer, handled, down⟩ := c
    unfold Handled at handled
    unfold Frames.unguard
    cases guarded : a.handler with
    | none =>
      simp only [guarded] at handled
      subst handled
      obtain ⟨handler, others, outer', found, outward, held, previous, chain⟩ := ih down pending
      refine ⟨handler, a :: others, outer', by simp [found], outward, held, rfl, six, under, ?_,
        sound, outer', ?_, chain⟩
      · refine ⟨recorded.before, recorded.result, recorded.codePointer, recorded.closure,
          recorded.context, ?_⟩
        rw [previous]
        exact recorded.previous
      · unfold Handled
        rw [guarded]
    | some handler =>
      simp only [guarded] at handled
      obtain ⟨_, outward, held⟩ := handled
      refine ⟨handler, { a with handler := none } :: rest, outer, rfl, outward, held, rfl, six, ?_,
        ⟨recorded.before, recorded.result, recorded.codePointer, recorded.closure,
          recorded.context, recorded.previous⟩, ⟨sound.context, sound.method⟩, outer, rfl, down⟩
      unfold Activation.top at under ⊢
      simp only [Option.isSome_none, Bool.false_eq_true, if_false]
      omega

theorem Chain.drop (c : Chain h stack top ensure (above ++ t :: rest))
    (unguarded : ∀ a ∈ above ++ [t], a.handler = none) :
    Chain h stack (t.framePointer - 6) ensure rest := by
  induction above generalizing top ensure with
  | nil =>
    obtain ⟨_, _, _, _, outer, handled, down⟩ := c
    unfold Handled at handled
    rw [unguarded t (by simp)] at handled
    simp only at handled
    exact handled ▸ down
  | cons b above ih =>
    obtain ⟨_, _, _, _, outer, handled, down⟩ := c
    unfold Handled at handled
    rw [unguarded b (by simp)] at handled
    simp only at handled
    subst handled
    exact ih down fun a ha => unguarded a (List.mem_cons_of_mem _ ha)

theorem Chain.recorded (c : Chain h stack top ensure (above ++ t :: rest)) :
    Recorded stack t rest := by
  induction above generalizing top ensure with
  | nil => exact c.2.2.1
  | cons b above ih =>
    obtain ⟨_, _, _, _, outer, _, down⟩ := c
    exact ih down

end Handlers

def markerFrame (i : Interpreter) (place prevCodePointer : Int) : Activation :=
  ⟨i.stackPointer + 6, place, prevCodePointer, .special .ensureMarker, .nil, 0, none⟩

/-- The innermost handler was taken off the chain and applied, above a marker, with `place` as
its result cell: `k` is the frame of that call. -/
structure HandlerRuns (w : World) (place prevCodePointer : Int) (i i' : Interpreter)
    (acts : List Activation) (handler : Value) (others : List Activation) (k : Activation) :
    Prop where
  taken : unguard acts = some (handler, others)
  applied : ∃ marked, applyTo w w.depth handler [] [] place marked = some i'
  running : Running i' (k :: markerFrame i place prevCodePointer :: others)
  result : k.result = place
  codePointer : k.codePointer = 0
  high : i.stackPointer + 12 ≤ k.framePointer
  cells : ∀ j < i.stackPointer, (j : Int) ≠ place → i'.stack j = i.stack j
  heap : i.heap.Extends i'.heap
  stackPointer : i.stackPointer ≤ i'.stackPointer

/-- The frames `above` and `t` were left, without a handler pending in them. -/
structure Leaves (result : Option Value) (i i' : Interpreter) (above : List Activation)
    (t : Activation) (rest : List Activation) : Prop where
  unguarded : ∀ a ∈ above ++ [t], a.handler = none
  running : Running i' rest
  caller : rest ≠ []
  stackPointer : i'.stackPointer = t.framePointer - 6
  codePointer : i'.codePointer = t.codePointer
  ensureHandlers : i'.ensureHandlers = i.ensureHandlers
  cells : ∀ j < i.stackPointer, (j : Int) ≠ t.result → i'.stack j = i.stack j
  result : ∀ value, result = some value → 0 ≤ t.result ∧ i'.stack t.result.toNat = value
  heap : i.heap.Extends i'.heap

section Return

variable {w : World} {i i' : Interpreter} {t : Activation} {acts above rest : List Activation}
  {place prevCodePointer : Int}

theorem markerFrame_sound (h : Heap) : (markerFrame i place prevCodePointer).Sound h := by
  constructor
  · intro o here
    cases here
  · exact ⟨.special .ensureMarker, Heap.ensureMarkerMethod, rfl, rfl, le_refl 0⟩

theorem runEnsureHandler_runs (b : Based i acts) (pending : i.ensureHandlers ≠ 0)
    (run : runEnsureHandler w place prevCodePointer i = some i') :
    ∃ handler others k, HandlerRuns w place prevCodePointer i i' acts handler others k := by
  obtain ⟨handler, others, outer, taken, outward, held, previous, chain⟩ := b.chain.unguard pending
  simp only [runEnsureHandler, outward, held, Value.index_ofNat, Option.bind_some] at run
  split at run
  · simp only [Option.bind_eq_some_iff] at run
    obtain ⟨marked, pushes, applies⟩ := run
    have p := pushAll_pushed pushes
    have up : marked.stackPointer = i.stackPointer + 6 := p.stackPointer
    have low : ∀ j < i.stackPointer, marked.stack j = i.stack j := p.cells
    let marker := markerFrame i place prevCodePointer
    have recorded : Recorded marked.stack marker others := by
      have cell : ∀ j v, _ → marked.stack (i.stackPointer + j) = v := p.pushed
      constructor
      · intro _
        exact cell 0 (.smallint i.stackPointer) rfl
      · exact cell 1 (.smallint place) rfl
      · exact cell 2 (.smallint prevCodePointer) rfl
      · exact cell 3 (.special .ensureMarker) rfl
      · exact cell 4 .nil rfl
      · rw [previous, ← b.framePointer]
        exact cell 5 (.smallint i.framePointer) rfl
    have handlers : marked.ensureHandlers = outer := p.ensureHandlers
    have objects : marked.heap = i.heap := p.heap
    have down : Chain marked.heap marked.stack i.stackPointer outer others := by
      rw [objects]
      exact chain.cells fun c hc j holds =>
        low j (lt_of_lt_of_le holds.lt_top (chain.below c hc))
    have based : Based { marked with codePointer := 0, framePointer := marked.stackPointer }
        (marker :: others) := by
      refine ⟨⟨Nat.le_add_left 6 _, ?_, recorded, markerFrame_sound _, outer, ?_, down⟩, up, ?_⟩
      · change i.stackPointer + 6 + 0 + 0 ≤ marked.stackPointer
        omega
      · exact handlers.symm
      · exact p.room b.room
    obtain ⟨k, entered, running⟩ := applyTo_calls w w.depth based applies
    have frame : k.framePointer = marked.stackPointer + 6 := entered.framePointer
    refine ⟨handler, others, k, taken, ⟨_, applies⟩, running, entered.result, entered.codePointer,
      by omega, ?_, ?_, ?_⟩
    · intro j under _
      rw [entered.cells j (by change j < marked.stackPointer; omega)]
      exact low j under
    · have extends' := entered.heap
      rwa [show ({ marked with codePointer := 0, framePointer := marked.stackPointer } :
        Interpreter).heap = i.heap from objects] at extends'
    · have top := entered.top
      omega
  · cases run

theorem popFrame_leaves (b : Based i acts) (split : acts = above ++ t :: rest)
    (unguarded : ∀ a ∈ above ++ [t], a.handler = none)
    (run : popFrame w t.framePointer i = some i') :
    Leaves none i i' above t rest ∧ i'.stack = i.stack := by
  subst split
  have recorded := b.chain.recorded
  have down := b.chain.drop unguarded
  have under := b.chain.below t (by simp)
  unfold Activation.top at under
  simp only [popFrame, recorded.previous, Value.index_ofNat, Option.bind_some,
    Option.bind_eq_some_iff] at run
  obtain ⟨stackPointer, before, run⟩ := run
  split at run
  · cases run
  next inner =>
    cases rest with
    | nil => exact absurd (show (0 : Nat) < functionFrameSize by decide) inner
    | cons c others =>
      simp only [Option.bind_eq_some_iff, Option.map_eq_some_iff] at run
      obtain ⟨method, isMethod, m, compiled, rfl⟩ := run
      obtain ⟨six, low, recorded', sound, rest'⟩ := down
      have place : stackPointer = t.framePointer - 6 := by
        unfold Activation.top at low
        rw [recorded.before (by omega), Value.index_ofNat] at before
        exact (Option.some.inj before).symm
      have code : w.word (i.stack (t.framePointer - 4)) = t.codePointer := by
        rw [recorded.codePointer]
        rfl
      refine ⟨⟨unguarded, ⟨⟨?_, rfl, ?_⟩, ?_, ?_, isMethod, m, compiled, rfl⟩, by simp, place, code,
        rfl, fun _ _ _ => rfl, (fun _ none' => by cases none'), .refl _⟩, rfl⟩
      · rw [place]
        exact ⟨six, low, recorded', sound, rest'⟩
      · have room := b.room
        change stackPointer ≤ i.stackSize
        omega
      · simp only [List.head?_cons, Option.mem_def, Option.some.injEq, forall_eq']
        exact recorded'.closure
      · simp only [List.head?_cons, Option.mem_def, Option.some.injEq, forall_eq']
        exact recorded'.context

theorem storeResult_touches {result : Option Value} (run : storeResult place result i = some i') :
    Touches place i i' ∧
      ∀ value, result = some value → 0 ≤ place ∧ i'.stack place.toNat = value := by
  cases result with
  | none =>
    cases run
    exact ⟨.refl place _, fun _ h => by cases h⟩
  | some value =>
    refine ⟨write_touches run, ?_⟩
    intro same here
    cases here
    simp only [storeResult, Interpreter.write] at run
    split at run
    next bound =>
      cases run
      exact ⟨bound.1, Function.update_self _ _ _⟩
    next => cases run

theorem returnTo_returns {result : Option Value} (running : Running i acts)
    (split : acts = above ++ t :: rest)
    (harmless : result.isSome → Harmless acts t.result)
    (run : returnTo w t.framePointer result prevCodePointer i = some i') :
    (∃ handler others k, HandlerRuns w t.result prevCodePointer i i' acts handler others k ∧
      ∃ a ∈ above ++ [t], a.handler.isSome) ∨ Leaves result i i' above t rest := by
  have recorded : Recorded i.stack t rest := by
    have chain := running.chain
    rw [split] at chain
    exact chain.recorded
  have place : w.word (i.stack (t.framePointer - 5)) = t.result := by
    rw [recorded.result]
    rfl
  simp only [returnTo, place, Option.bind_eq_some_iff] at run
  obtain ⟨stored, stores, run⟩ := run
  obtain ⟨touches, written⟩ := storeResult_touches stores
  have running' : Running stored acts := by
    cases result with
    | none =>
      cases stores
      exact running
    | some value => exact running.touch touches (harmless rfl)
  have pending := (split ▸ running'.chain).pending_iff
  rw [touches.ensureHandlers] at pending
  split at run
  next here =>
    left
    have nonzero : stored.ensureHandlers ≠ 0 := by
      have six := running.chain.six t (by rw [split]; simp)
      rw [touches.ensureHandlers]
      omega
    obtain ⟨handler, others, k, runs⟩ := runEnsureHandler_runs running'.toBased nonzero run
    refine ⟨handler, others, k, ⟨runs.taken, runs.applied, ?_, runs.result, runs.codePointer, ?_,
      ?_, touches.heap.trans runs.heap, ?_⟩, pending.mp here⟩
    · have same : markerFrame stored t.result prevCodePointer =
          markerFrame i t.result prevCodePointer := by
        unfold markerFrame
        rw [touches.stackPointer]
      exact same ▸ runs.running
    · rw [← touches.stackPointer]
      exact runs.high
    · intro j low apart
      rw [runs.cells j (by rw [touches.stackPointer]; exact low) apart, touches.cells j low apart]
    · rw [← touches.stackPointer]
      exact runs.stackPointer
  next gone =>
    right
    have unguarded : ∀ a ∈ above ++ [t], a.handler = none := by
      intro a ha
      by_contra some'
      exact gone (pending.mpr ⟨a, ha, Option.isSome_iff_ne_none.mpr some'⟩)
    obtain ⟨leaves, stack⟩ := popFrame_leaves running'.toBased split unguarded run
    refine ⟨unguarded, leaves.running, leaves.caller, leaves.stackPointer, leaves.codePointer, ?_,
      ?_, ?_, touches.heap.trans leaves.heap⟩
    · rw [leaves.ensureHandlers, touches.ensureHandlers]
    · intro j low apart
      rw [stack, touches.cells j low apart]
    · intro value same
      rw [stack]
      exact written value same

end Return

end SlateVm.Frames
