import Mathlib.Tactic.Ring
import SlateVm.Frames.Boot

/-! The variables of a frame: the same sequence whether they are in a lexical context or on the
stack, as long as the stack stays where it is. -/
namespace SlateVm.Frames

def Vars.read (vars : Vars) (n : Nat) (i : Interpreter) : Option (List Value) :=
  match vars with
  | .stack base => some ((List.range n).map fun j => i.stack (base + j))
  | .lexicalContext o =>
    match i.heap.object o with
    | .lexicalContext _ held => some held
    | _ => none

/-- The variables of the current frame, whose method is `m`. -/
def frameVariables (m : CompiledMethod) (i : Interpreter) : Option (List Value) :=
  (currentVars m i).bind fun vars => vars.read m.localVariables i

def CompiledMethod.layout (m : CompiledMethod) (heapAllocate : Bool) : CompiledMethod :=
  { m with heapAllocate := heapAllocate }

section Bindings

def bindOptionals (keys : List Value) : List Value → List Value → List Value
  | key :: value :: opts, held =>
    bindOptionals keys opts (match keys.idxOf? key with
      | none => held
      | some optKey => held.set optKey value)
  | _, held => held

variable (m : CompiledMethod)

def CompiledMethod.restCount : Nat := if m.restVariable then 1 else 0

def CompiledMethod.Fits : Prop :=
  m.inputVariables + m.optionalKeywords.length + m.restCount ≤ m.localVariables

def CompiledMethod.bindings (args opts : List Value) (rest : Value) : List Value :=
  args.take m.inputVariables ++
    bindOptionals m.optionalKeywords opts (List.replicate m.optionalKeywords.length .nil) ++
    (List.replicate m.restCount rest ++ List.replicate
      (m.localVariables - (m.inputVariables + m.optionalKeywords.length + m.restCount)) .nil)

def HoldsRest (args : List Value) (rest : Value) (i : Interpreter) : Prop :=
  if m.inputVariables < args.length then
    ∃ o, rest = .object o ∧ i.heap.object o = .oopArray (args.drop m.inputVariables)
  else rest = .special .arrayProto

theorem bindOptionals_length (keys : List Value) : ∀ opts held : List Value,
    (bindOptionals keys opts held).length = held.length
  | [], _ => rfl
  | [_], _ => rfl
  | key :: value :: opts, held => by
    rw [bindOptionals, bindOptionals_length keys opts]
    split
    · rfl
    · exact List.length_set

end Bindings

def Vars.Sees (vars : Vars) (held : List Value) (i : Interpreter) : Prop :=
  match vars with
  | .stack base => base + held.length ≤ i.stackSize ∧
      ∀ j (inside : j < held.length), i.stack (base + j) = held[j]
  | .lexicalContext o => ∃ framePointer, i.heap.object o = .lexicalContext framePointer held

section Sees

variable {vars : Vars} {held : List Value} {i i' : Interpreter}

theorem Vars.Sees.read (sees : vars.Sees held i) : vars.read held.length i = some held := by
  cases vars with
  | stack base =>
    obtain ⟨_, same⟩ := sees
    simp only [Vars.read, Option.some.injEq]
    apply List.ext_getElem
    · simp
    · intro j inside _
      simp only [List.getElem_map, List.getElem_range]
      exact same j (by simpa using inside)
  | lexicalContext o =>
    obtain ⟨framePointer, here⟩ := sees
    simp only [Vars.read, here]

theorem Vars.Sees.grow (sees : vars.Sees held i) (obj : Obj) :
    vars.Sees held { i with heap := (i.heap.allocate obj).1 } := by
  cases vars with
  | stack base => exact sees
  | lexicalContext o =>
    obtain ⟨framePointer, here⟩ := sees
    refine ⟨framePointer, ?_⟩
    change (i.heap.allocate obj).1.object o = _
    rw [Heap.object_allocate, if_neg ?_, here]
    rintro rfl
    rw [Heap.object_length] at here
    cases here

theorem storeVar_sees (sees : vars.Sees held i) {j : Nat} (inside : j < held.length)
    (value : Value) : ∃ i', storeVar vars j value i = some i' ∧ vars.Sees (held.set j value) i' := by
  cases vars with
  | stack base =>
    obtain ⟨room, same⟩ := sees
    refine ⟨_, if_pos ⟨by omega, by omega⟩, by simpa using room, ?_⟩
    intro k inside'
    simp only [Int.toNat_natCast, List.getElem_set]
    rw [List.length_set] at inside'
    split
    next here =>
      subst here
      exact Function.update_self _ _ _
    next apart =>
      rw [Function.update_of_ne (by omega)]
      exact same k inside'
  | lexicalContext o =>
    obtain ⟨framePointer, here⟩ := sees
    simp only [storeVar, here, if_pos inside]
    refine ⟨_, rfl, framePointer, ?_⟩
    change (i.heap.update o _).object o = _
    rw [Heap.object_update _ _ _ _ (by rw [here]; exact fun h => by cases h), if_pos rfl]

theorem storeVars_sees (values : List Value) : ∀ {i : Interpreter} {held : List Value} (j : Nat),
    vars.Sees held i → j + values.length ≤ held.length →
    ∃ i', storeVars vars j values i = some i' ∧
      vars.Sees (held.take j ++ values ++ held.drop (j + values.length)) i' := by
  induction values with
  | nil =>
    intro i held j sees _
    refine ⟨i, rfl, ?_⟩
    simpa using sees
  | cons value values ih =>
    intro i held j sees fits
    rw [List.length_cons] at fits
    obtain ⟨stored, first, seen⟩ := storeVar_sees sees (show j < held.length by omega) value
    obtain ⟨i', more, seen'⟩ := ih (j + 1) seen (by rw [List.length_set]; omega)
    refine ⟨i', by simp only [storeVars, first, Option.bind_some, more], ?_⟩
    have same : (held.set j value).take (j + 1) = held.take j ++ [value] := by
      rw [List.take_succ_eq_append_getElem (by rw [List.length_set]; omega), List.getElem_set_self,
        List.take_set_of_le (le_refl j)]
    rw [same, List.drop_set_of_lt (by omega)] at seen'
    simpa only [List.append_assoc, List.singleton_append, List.length_cons,
      show j + 1 + values.length = j + (values.length + 1) by omega] using seen'

end Sees

def KeepsArrays (i i' : Interpreter) : Prop :=
  ∀ o elements, i.heap.object o = .oopArray elements → i'.heap.object o = .oopArray elements

section Optionals

variable {vars : Vars} {held : List Value} {i i' : Interpreter} {m : CompiledMethod}

theorem storeVar_arrays {j : Nat} {value : Value} (run : storeVar vars j value i = some i') :
    KeepsArrays i i' := by
  intro o elements here
  cases vars with
  | stack base =>
    simp only [storeVar, Interpreter.write] at run
    split at run
    · cases run
      exact here
    · cases run
  | lexicalContext c =>
    simp only [storeVar] at run
    split at run
    next framePointer held context =>
      split at run
      · cases run
        change (i.heap.update c _).object o = _
        rw [Heap.object_update _ _ _ _ (by rw [context]; exact fun h => by cases h), if_neg ?_, here]
        rintro rfl
        rw [context] at here
        cases here
      · cases run
    next => cases run

theorem currentVars_above {base : Nat} (above : Above base i i') :
    currentVars m i' = currentVars m i := by
  simp only [currentVars, above.framePointer, above.lexicalContext]

theorem Vars.from_zero (vars : Vars) : vars.From 0 := by
  cases vars with
  | stack base => exact Nat.zero_le base
  | lexicalContext o => trivial

theorem dispatchOptionals_sees {pre post : List Value} (inputs : pre.length = m.inputVariables) :
    ∀ (opts : List Value) {i : Interpreter} {opt : List Value}, opts.length % 2 = 0 →
      opt.length = m.optionalKeywords.length → currentVars m i = some vars →
      vars.Sees (pre ++ opt ++ post) i →
      ∃ i', dispatchOptionals m opts i = some i' ∧ currentVars m i' = some vars ∧
        vars.Sees (pre ++ bindOptionals m.optionalKeywords opts opt ++ post) i' ∧ KeepsArrays i i'
  | [], i, opt, _, _, current, sees => ⟨i, rfl, current, sees, fun _ _ here => here⟩
  | [_], _, _, odd, _, _, _ => by cases odd
  | key :: value :: opts, i, opt, even, size, current, sees => by
    simp only [dispatchOptionals, dispatchOptionalKeyword, bindOptionals]
    have even' : opts.length % 2 = 0 := by
      simp only [List.length_cons] at even
      omega
    cases known : m.optionalKeywords.idxOf? key with
    | none => exact dispatchOptionals_sees inputs opts even' size current sees
    | some optKey =>
      have inside : optKey < opt.length := by
        obtain ⟨bound, _⟩ := List.findIdx?_eq_some_iff_getElem.mp known
        rw [size]
        exact bound
      obtain ⟨stored, first, seen⟩ := storeVar_sees sees
        (show m.inputVariables + optKey < _ by simp; omega) value
      have above := storeVar_above vars.from_zero first
      have set : (pre ++ opt ++ post).set (m.inputVariables + optKey) value =
          pre ++ opt.set optKey value ++ post := by
        rw [List.append_assoc, List.set_append_right _ _ (by omega), List.append_assoc,
          show m.inputVariables + optKey - pre.length = optKey by omega,
          List.set_append_left _ _ inside]
      rw [set] at seen
      obtain ⟨i', more, current', seen', arrays⟩ := dispatchOptionals_sees inputs opts even'
        (by rw [List.length_set]; exact size) ((currentVars_above above).trans current) seen
      refine ⟨i', ?_, current', seen', ?_⟩
      · simp only [current, Option.bind_some, first, more]
      · exact fun o elements here => arrays o elements (storeVar_arrays first o elements here)

end Optionals

section Rest

variable {vars : Vars} {i : Interpreter} {m : CompiledMethod} {w : World} {args : List Value}
  {pre opt post : List Value}

def LosesRest (w : World) (m : CompiledMethod) (args : List Value) : Prop :=
  w.stackMoves = true ∧ m.heapAllocate = false ∧ m.inputVariables < args.length

theorem storeRest_sees (inputs : pre.length = m.inputVariables)
    (optionals : opt.length = m.optionalKeywords.length)
    (accepted : m.inputVariables < args.length → m.restVariable = true)
    (layout : vars.onStack = !m.heapAllocate)
    (sees : vars.Sees (pre ++ opt ++ (List.replicate m.restCount Value.nil ++ post)) i) :
    ∃ i' rest, storeRest w m vars args i = some i' ∧
      vars.Sees (pre ++ opt ++ (List.replicate m.restCount rest ++ post)) i' ∧
      (LosesRest w m args → rest = .nil) ∧ (¬ LosesRest w m args → HoldsRest m args rest i') := by
  have place : ∀ rest : Value, m.restVariable = true →
      (pre ++ opt ++ (List.replicate m.restCount Value.nil ++ post)).set
        (m.inputVariables + m.optionalKeywords.length) rest =
      pre ++ opt ++ (List.replicate m.restCount rest ++ post) := by
    intro rest hasRest
    have one : m.restCount = 1 := if_pos hasRest
    rw [one, List.set_append_right _ _ (by simp; omega),
      show m.inputVariables + m.optionalKeywords.length - (pre ++ opt).length = 0 by simp; omega]
    rfl
  have inside : m.restVariable = true → m.inputVariables + m.optionalKeywords.length <
      (pre ++ opt ++ (List.replicate m.restCount Value.nil ++ post)).length := by
    intro hasRest
    have one : m.restCount = 1 := if_pos hasRest
    simp only [List.length_append, List.length_replicate]
    omega
  unfold storeRest
  by_cases more : m.inputVariables < args.length
  · have hasRest := accepted more
    simp only [if_pos more]
    by_cases lost : LosesRest w m args
    · rw [if_pos (by rw [layout, lost.1, lost.2.1]; rfl)]
      exact ⟨_, .nil, rfl, sees.grow _, fun _ => rfl, fun kept => absurd lost kept⟩
    · have here : ¬ (vars.onStack && w.stackMoves) = true := by
        intro both
        rw [layout, Bool.and_eq_true, Bool.not_eq_true'] at both
        exact lost ⟨both.2, both.1, more⟩
      rw [if_neg here]
      obtain ⟨i', run, seen⟩ := storeVar_sees (sees.grow (.oopArray (args.drop m.inputVariables)))
        (inside hasRest) (i.heap.allocate (.oopArray (args.drop m.inputVariables))).2
      refine ⟨i', _, run, place _ hasRest ▸ seen, fun lost' => absurd lost' lost, fun _ => ?_⟩
      rw [HoldsRest, if_pos more]
      refine ⟨i.heap.objects.length, rfl, storeVar_arrays run _ _ ?_⟩
      change (i.heap.allocate _).1.object _ = _
      rw [Heap.object_allocate, if_pos rfl]
  · simp only [if_neg more]
    have kept : ∀ rest i', rest = .special .arrayProto →
        (LosesRest w m args → rest = .nil) ∧ (¬ LosesRest w m args → HoldsRest m args rest i') := by
      intro rest i' same
      refine ⟨fun lost => absurd lost.2.2 more, fun _ => ?_⟩
      rw [HoldsRest, if_neg more]
      exact same
    split
    next hasRest =>
      obtain ⟨i', run, seen⟩ := storeVar_sees sees (inside hasRest) (.special .arrayProto)
      exact ⟨i', _, run, place _ hasRest ▸ seen, kept _ _ rfl⟩
    next none' =>
      have zero : m.restCount = 0 := if_neg none'
      refine ⟨i, .special .arrayProto, rfl, ?_, kept _ _ rfl⟩
      simpa only [zero, List.replicate_zero] using sees

end Rest

section Enter

variable {i i' : Interpreter} {m : CompiledMethod} {w : World} {args opts : List Value}

theorem growSize_ge (minimum : Nat) : ∀ rounds size : Nat, minimum ≤ 2 * size * 2 ^ rounds →
    minimum ≤ growSize minimum rounds size
  | 0, size, enough => by simpa only [growSize, pow_zero, mul_one] using enough
  | rounds + 1, size, enough => by
    unfold growSize
    split
    · apply growSize_ge minimum rounds
      calc minimum ≤ 2 * size * 2 ^ (rounds + 1) := enough
        _ = 2 * (2 * size) * 2 ^ rounds := by ring
    · omega

theorem stackAllocate_total (size : 0 < i.stackSize) (n : Nat) :
    ∃ i', i.stackAllocate n = some i' := by
  have room : (i.growFor n).stackPointer + n ≤ (i.growFor n).stackSize := by
    unfold Interpreter.growFor
    split
    · apply growSize_ge
      have power : i.stackPointer + n < 2 ^ (i.stackPointer + n) := Nat.lt_two_pow_self
      calc i.stackPointer + n ≤ 1 * 2 ^ (i.stackPointer + n) := by omega
        _ ≤ 2 * i.stackSize * 2 ^ (i.stackPointer + n) := Nat.mul_le_mul_right _ (by omega)
    · omega
  exact ⟨_, if_pos room⟩

theorem makeContext_sees (m : CompiledMethod) (i : Interpreter) {allocated : Interpreter}
    (run : (makeContext m (i.stackPointer + 6) i).1.stackAllocate
      (functionFrameSize + m.frameCells) = some allocated) :
    ∃ held : List Value, held.length = m.localVariables ∧
      (makeContext m (i.stackPointer + 6) i).2.2.Sees held allocated := by
  have grown := stackAllocate_allocated run
  have made := makeContext_above m (i.stackPointer + 6) 0 i
  unfold makeContext at grown ⊢
  split
  next heap =>
    rw [if_pos heap] at grown
    refine ⟨List.replicate m.localVariables .nil, List.length_replicate, i.stackPointer + 6, ?_⟩
    rw [grown.heap]
    change (i.heap.allocate _).1.object _ = _
    rw [Heap.object_allocate, if_pos rfl]
  next stack =>
    rw [if_neg stack] at grown
    have room := grown.room
    have top : allocated.stackPointer = i.stackPointer + (functionFrameSize + m.frameCells) :=
      grown.stackPointer
    have cells : m.localVariables ≤ m.frameCells := by
      unfold CompiledMethod.frameCells
      rw [if_neg stack]
      omega
    refine ⟨(List.range m.localVariables).map fun j => allocated.stack (i.stackPointer + 6 + j),
      by simp, ?_, ?_⟩
    · simp only [List.length_map, List.length_range]
      unfold functionFrameSize at top
      omega
    · intro j inside
      simp

theorem pushRecord_sees {vars : Vars} {held : List Value} {closure method context : Value}
    {codeSize base before : Nat} {result : Int} (sees : vars.Sees held i)
    (high : vars.From (base + 6)) :
    vars.Sees held (pushRecord closure method context codeSize (base + 6) before result i) := by
  cases vars with
  | stack first =>
    have low : base + 6 ≤ first := high
    obtain ⟨room, same⟩ := sees
    refine ⟨room, fun j inside => ?_⟩
    rw [pushRecord_cells (.inr (by omega))]
    exact same j inside
  | lexicalContext o => exact sees

theorem makeContext_current (m : CompiledMethod) (base : Nat) (i stored : Interpreter)
    {closure method : Value} {codeSize before : Nat} {result : Int} :
    currentVars m (pushRecord closure method (makeContext m base i).2.1 codeSize base before result
      stored) = some (makeContext m base i).2.2 := by
  unfold makeContext currentVars
  split
  next heap => rfl
  next stack => rfl

theorem makeContext_onStack (m : CompiledMethod) (base : Nat) (i : Interpreter) :
    (makeContext m base i).2.2.onStack = !m.heapAllocate := by
  unfold makeContext
  split
  next heap =>
    rw [heap]
    rfl
  next stack =>
    rw [Bool.not_eq_true] at stack
    rw [stack]
    rfl

theorem HoldsRest.keep {rest : Value} (holds : HoldsRest m args rest i) (arrays : KeepsArrays i i') :
    HoldsRest m args rest i' := by
  unfold HoldsRest at holds ⊢
  split
  next more =>
    rw [if_pos more] at holds
    obtain ⟨o, same, here⟩ := holds
    exact ⟨o, same, arrays o _ here⟩
  next few =>
    rw [if_neg few] at holds
    exact holds

theorem nils_split {I K R L : Nat} (fits : I + K + R ≤ L) :
    List.replicate (L - I) Value.nil =
      List.replicate K .nil ++ (List.replicate R .nil ++ List.replicate (L - (I + K + R)) .nil) := by
  rw [List.replicate_append_replicate, List.replicate_append_replicate]
  congr 1
  omega

theorem enterFrame_sees (closure method : Value) (result : Int) (fits : m.Fits)
    (enough : m.inputVariables ≤ args.length)
    (accepted : m.inputVariables < args.length → m.restVariable = true)
    (even : opts.length % 2 = 0) (size : 0 < i.stackSize) :
    ∃ j rest, enterFrame w closure method m args opts result i = some j ∧
      frameVariables m j = some (m.bindings args opts rest) ∧
      (LosesRest w m args → rest = .nil) ∧ (¬ LosesRest w m args → HoldsRest m args rest j) := by
  have fits' := fits
  unfold CompiledMethod.Fits at fits'
  let base := i.stackPointer + 6
  have made := makeContext_above m base 0 i
  have sized : 0 < (makeContext m base i).1.stackSize := by rw [made.stackSize]; exact size
  obtain ⟨allocated, allocates⟩ := stackAllocate_total sized (functionFrameSize + m.frameCells)
  obtain ⟨held, count, sees⟩ := makeContext_sees m i allocates
  let vars := (makeContext m base i).2.2
  have inputs : (args.take m.inputVariables).length = m.inputVariables := by
    rw [List.length_take]
    omega
  -- the inputs, and the nils behind them
  obtain ⟨stored, stores, seen⟩ := storeVars_sees (args.take m.inputVariables) 0 sees (by omega)
  rw [List.take_zero, List.nil_append, Nat.zero_add, inputs] at seen
  have record : vars.Sees _ (pushRecord closure method (makeContext m base i).2.1 m.code.length
      base i.stackPointer result stored) := pushRecord_sees seen (makeContext_from m base i)
  obtain ⟨filled, fills, seen'⟩ := storeVars_sees
    (List.replicate (m.localVariables - m.inputVariables) .nil) m.inputVariables record (by
      rw [List.length_append, List.length_drop, List.length_replicate]
      omega)
  have whole : (args.take m.inputVariables ++ held.drop m.inputVariables).length =
      m.localVariables := by
    rw [List.length_append, List.length_drop]
    omega
  rw [List.take_left' inputs, List.length_replicate, List.drop_eq_nil_of_le (by omega),
    List.append_nil, nils_split fits', ← List.append_assoc] at seen'
  obtain ⟨rested, rest, rests, seen'', lost, holds⟩ := storeRest_sees inputs
    List.length_replicate accepted (makeContext_onStack m base i) seen' (w := w)
  have current : currentVars m rested = some vars := by
    rw [currentVars_above (storeRest_above vars.from_zero rests),
      currentVars_above (storeVars_above vars.from_zero fills)]
    exact makeContext_current m base i stored
  obtain ⟨j, optionals, current', final, arrays⟩ := dispatchOptionals_sees inputs opts even
    List.length_replicate current seen''
  refine ⟨j, rest, ?_, ?_, lost, fun kept => (holds kept).keep arrays⟩
  · simp only [enterFrame, fillVars, Option.bind_eq_some_iff]
    exact ⟨allocated, allocates, stored, stores, filled, fills, rested, rests, optionals⟩
  · have count' : (m.bindings args opts rest).length = m.localVariables := by
      simp only [CompiledMethod.bindings, List.length_append, bindOptionals_length,
        List.length_replicate, inputs]
      omega
    rw [frameVariables, current', Option.bind_some, ← count']
    exact final.read

end Enter

def SameVariables (m : CompiledMethod) (args opts : List Value) (heapFrame stackFrame : Interpreter) :
    Prop :=
  ∃ rest rest', HoldsRest m args rest heapFrame ∧ HoldsRest m args rest' stackFrame ∧
    frameVariables (m.layout true) heapFrame = some (m.bindings args opts rest) ∧
    frameVariables (m.layout false) stackFrame = some (m.bindings args opts rest')

/-- A resend from the frame at `framePointer`, whose variables are `held`, forwards the inputs and
the optionals among them. -/
def Forwards (w : World) (offset : Nat) (m : CompiledMethod) (held : List Value) (i : Interpreter) :
    Prop :=
  ∃ r, resendFrom w offset i = some r ∧ r.args = held.take m.inputVariables ∧
    r.values = (held.drop m.inputVariables).take m.optionalKeywords.length

section Agree

variable {w : World} {m : CompiledMethod} {i j : Interpreter} {closure method : Value}
  {args opts : List Value} {result : Int} {depth : Nat}

theorem method_traits {h : Heap} (isMethod : h.method closure = some method) :
    h.traitsWindow closure = some .compiledMethod ∨ h.traitsWindow closure = some .closureMethod := by
  cases closure <;> simp only [Heap.method] at isMethod
  case special s => cases s <;> simp_all [Heap.traitsWindow]
  case object o =>
    simp only [Heap.traitsWindow]
    split at isMethod
    next here => simp [here]
    next here => simp [here]
    next => cases isMethod
  all_goals cases isMethod

theorem applyTo_method (isMethod : i.heap.method closure = some method)
    (compiled : i.heap.compiledMethod method = some m) (few : args.length ≤ maxArity) :
    applyTo w (depth + 1) closure args opts result i =
      if m.accepts args.length then enterFrame w closure method m args opts result i
      else signal w (applyTo w depth) .wrongInputsTo
        [(i.heap.allocate (.oopArray args)).2, method] [] result
        { i with heap := (i.heap.allocate (.oopArray args)).1 } := by
  rcases method_traits isMethod with window | window
  all_goals
    simp only [applyTo, window, Option.bind_some, applyMethod, isMethod, compiled,
      if_neg (Nat.not_lt.mpr few)]

theorem accepts_iff : m.accepts args.length ↔ m.inputVariables ≤ args.length ∧
    (m.inputVariables < args.length → m.restVariable = true) := by
  simp only [CompiledMethod.accepts, Bool.and_eq_true, Bool.or_eq_true, decide_eq_true_eq]
  constructor
  · rintro ⟨enough, few | rest⟩
    · exact ⟨enough, fun more => by omega⟩
    · exact ⟨enough, fun _ => rest⟩
  · rintro ⟨enough, rest⟩
    refine ⟨enough, ?_⟩
    by_cases few : args.length ≤ m.inputVariables
    · exact .inl few
    · exact .inr (rest (by omega))

theorem frameVariables_length {held : List Value} (seen : frameVariables (m.layout false) i = some held) :
    held.length = m.localVariables := by
  simp only [frameVariables, currentVars, CompiledMethod.layout, Bool.false_eq_true, if_false,
    Option.bind_some, Vars.read, Option.some.injEq] at seen
  rw [← seen]
  simp

theorem bindings_rest {rest rest' : Value} (hasRest : m.restVariable = true)
    (same : m.bindings args opts rest = m.bindings args opts rest') : rest = rest' := by
  have one : m.restCount = 1 := if_pos hasRest
  simp only [CompiledMethod.bindings, one, List.append_cancel_left_eq] at same
  exact (List.cons.inj same).1

theorem resendFrom_reads {offset framePointer : Nat} {context : Value} {held : List Value} {vars : Vars}
    (fits : m.Fits) (frame : resenderFrame offset i = some (framePointer, context))
    (isMethod : i.heap.method (i.stack (framePointer - 3)) = some method)
    (compiled : i.heap.compiledMethod method = some m)
    (place : currentVars m { i with framePointer := framePointer, lexicalContext := context } = some vars)
    (seen : vars.read m.localVariables i = some held) (whole : held.length = m.localVariables) :
    resendFrom w offset i = if !m.heapAllocate && w.stackMoves then none
      else some ⟨i.stack (framePointer - 3), method, m, held.take m.inputVariables,
        (held.drop m.inputVariables).take m.optionalKeywords.length⟩ := by
  unfold CompiledMethod.Fits at fits
  have read : resendVars m framePointer context i =
      some (held.take (m.inputVariables + m.optionalKeywords.length)) := by
    unfold currentVars at place
    unfold resendVars
    split at place
    next heap =>
      simp only [if_pos heap]
      split at place
      next o same =>
        cases place
        have same' : context = .object o := same
        subst same'
        simp only [Vars.read] at seen
        split at seen
        next fp held' here =>
          cases seen
          simp only [here]
          rw [if_pos (by omega)]
        next => cases seen
      next => cases place
    next stack =>
      cases place
      rw [if_neg stack]
      simp only [Vars.read, Option.some.injEq] at seen
      rw [← seen, ← List.map_take, List.take_range, Nat.min_eq_left (by omega)]
  simp only [resendFrom, frame, Option.bind_some, isMethod, compiled, read]
  rw [List.take_take, Nat.min_eq_left (by omega), List.drop_take, Nat.add_sub_cancel_left]

theorem calls_agree_iff {heapFrame stackFrame : Interpreter} {closure' method' : Value}
    (isMethod : heapFrame.heap.method closure = some method)
    (compiled : heapFrame.heap.compiledMethod method = some (m.layout true))
    (isMethod' : stackFrame.heap.method closure' = some method')
    (compiled' : stackFrame.heap.compiledMethod method' = some (m.layout false))
    (few : args.length ≤ maxArity) (even : opts.length % 2 = 0)
    (size : 0 < heapFrame.stackSize) (size' : 0 < stackFrame.stackSize)
    (accepted : m.accepts args.length) :
    (∃ j j', applyTo w (depth + 1) closure args opts result heapFrame = some j ∧
        applyTo w (depth + 1) closure' args opts result stackFrame = some j' ∧
        SameVariables m args opts j j') ↔
      m.Fits ∧ (w.stackMoves = true → args.length ≤ m.inputVariables) := by
  obtain ⟨enough, rest⟩ := accepts_iff.mp accepted
  rw [applyTo_method isMethod compiled few, applyTo_method isMethod' compiled' few,
    if_pos (show (m.layout true).accepts args.length from accepted),
    if_pos (show (m.layout false).accepts args.length from accepted)]
  have stackEnters := fun fits : m.Fits => enterFrame_sees (w := w) (i := stackFrame)
    (m := m.layout false) closure' method' result fits enough rest even size'
  constructor
  · rintro ⟨j, j', enters, enters', r, r', holds, holds', seen, seen'⟩
    have fits : m.Fits := by
      have count := frameVariables_length seen'
      simp only [CompiledMethod.bindings, List.length_append, bindOptionals_length,
        List.length_replicate, List.length_take] at count
      unfold CompiledMethod.Fits
      omega
    refine ⟨fits, fun moves => ?_⟩
    by_contra more
    obtain ⟨j'', r'', enters'', seen'', lost, _⟩ := stackEnters fits
    rw [enters', Option.some.injEq] at enters''
    subst enters''
    have none' := lost ⟨moves, rfl, by change m.inputVariables < _; omega⟩
    rw [seen', Option.some.injEq] at seen''
    have same := bindings_rest (rest (by omega)) seen''
    rw [HoldsRest, if_pos (by omega)] at holds'
    obtain ⟨o, object, _⟩ := holds'
    rw [same, none'] at object
    cases object
  · rintro ⟨fits, still⟩
    obtain ⟨j, r, enters, seen, _, holds⟩ := enterFrame_sees (w := w) (i := heapFrame)
      (m := m.layout true) closure method result fits enough rest even size
    obtain ⟨j', r', enters', seen', _, holds'⟩ := stackEnters fits
    refine ⟨j, j', enters, enters', r, r', holds fun lost => ?_, holds' fun lost => ?_, seen, seen'⟩
    · exact Bool.noConfusion lost.2.1
    · have more : m.inputVariables < args.length := lost.2.2
      have := still lost.1
      omega

theorem forwards_iff {offset framePointer : Nat} {context : Value} {held : List Value} {vars : Vars}
    (fits : m.Fits) (frame : resenderFrame offset i = some (framePointer, context))
    (isMethod : i.heap.method (i.stack (framePointer - 3)) = some method)
    (compiled : i.heap.compiledMethod method = some m)
    (place : currentVars m { i with framePointer := framePointer, lexicalContext := context } = some vars)
    (seen : vars.read m.localVariables i = some held) (whole : held.length = m.localVariables) :
    Forwards w offset m held i ↔ (w.stackMoves = true → m.heapAllocate = true) := by
  rw [Forwards, resendFrom_reads fits frame isMethod compiled place seen whole]
  constructor
  · rintro ⟨r, forwards, _⟩ moves
    by_contra stack
    rw [Bool.not_eq_true] at stack
    rw [stack, moves] at forwards
    cases forwards
  · intro still
    rw [if_neg ?_]
    · exact ⟨_, rfl, rfl, rfl⟩
    · intro both
      rw [Bool.and_eq_true, Bool.not_eq_true'] at both
      rw [still both.2] at both
      exact absurd both.1 (by decide)

end Agree

section Examples

def restMethod : CompiledMethod := ⟨.nil, 0, 1, true, [], false, .nil, [], 1⟩

def restHeap : Heap :=
  ⟨[.compiledMethod (plainMethod 0 1 []), .compiledMethod (restMethod.layout true),
    .compiledMethod (restMethod.layout false)]⟩

def movingWorld : World := { answering .nil with stackMoves := true }

end Examples

end SlateVm.Frames
