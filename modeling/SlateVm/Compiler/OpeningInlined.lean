import SlateVm.Compiler.Opening

/-! The selectors with a generation of their own add to the code as sends do. -/
namespace SlateVm.Compiler
open Generator Programs

variable {generate : Generate}

theorem inPlace_generates {statements : Gen Operand} (scope : ScopeId)
    (generates : Ensures Generates statements) : Ensures Generates (inPlace scope statements) := by
  refine Generates.after (modifyContext_grows fun c => .still rfl rfl rfl) fun _ => ?_
  exact Generates.before generates (modifyContext_grows fun c => .still rfl rfl rfl)

theorem canInlineDo_grows (args : List Node) : Through Grows (canInlineDo args) :=
  .bind (argument_grows args 0) fun _ => .bind .get fun _ => .pure _

theorem generateDo_generates (generating : Generating generate) (args : List Node) (source : Source)
    (result : Option Operand) : Ensures Generates (generateDo generate args source result) := by
  refine Generates.after (canInlineDo_grows args) fun inlined => ?_
  split
  · exact Emits.generates (generateSend_emits generating _ _ _ _)
  · refine Generates.after (defaultRegister_grows result) fun _ => ?_
    split
    · exact Emits.generates (.before (emit_emits _ _ _) fun _ => .pure _)
    · exact inPlace_generates _ (generateStatements_generates generating _ _)

theorem generateExecutionOf_grows (generating : Generating generate) (args : List Node)
    (source : Source) (result : Option Operand) :
    Through Grows (generateExecutionOf generate args source result) :=
  Generates.through (generateDo_generates generating args source result)

section Applications

theorem generateApply_emits (generating : Generating generate) (method : Node) (args : List Node)
    (source : Source) (result : Option Operand) :
    Through Emits (generateApply generate method args source result) := by
  refine .after (defaultRegister_grows result) fun _ => ?_
  refine .after (generating.grows method none) fun _ => ?_
  refine .after (generateArguments_grows generating args) fun _ => ?_
  exact .before (emit_emits _ _ _) fun _ => .pure _

theorem generateApplyTo_emits (generating : Generating generate) (args : List Node)
    (source : Source) (result : Option Operand) :
    Through Emits (generateApplyTo generate args source result) := by
  refine .after (argument_grows args 1) fun _ => ?_
  split
  · exact .after (argument_grows args 0) fun _ => generateApply_emits generating _ _ _ _
  · exact generateSend_emits generating _ _ _ _

theorem generatePrimitive_emits (generating : Generating generate) (args : List Node)
    (source : Source) (result : Option Operand) :
    Through Emits (generatePrimitive generate args source result) := by
  refine .after (defaultRegister_grows result) fun _ => ?_
  refine .after (argument_grows args 0) fun _ => .after (generating.grows _ none) fun _ => ?_
  refine .after (argument_grows args 1) fun _ => .after (orSignal_grows _ _) fun _ => ?_
  refine .after (generateArguments_grows generating _) fun _ => ?_
  exact .before (emit_emits _ _ _) fun _ => .pure _

end Applications

theorem generateGlobal_emits (generating : Generating generate) (selector : String)
    (value : Literal) (args : List Node) (source : Source) (result : Option Operand) :
    Through Emits (generateGlobal generate selector value args source result) := by
  refine .after (argument_grows args 0) fun _ => ?_
  split
  · exact registerFor_emits _ _ _
  · exact generateSend_emits generating _ _ _ _

theorem generateIdentical_emits (generating : Generating generate) (args : List Node)
    (source : Source) (result : Option Operand) :
    Through Emits (generateIdentical generate args source result) := by
  refine .after (defaultRegister_grows result) fun _ => ?_
  refine .after (generateArguments_grows generating args) fun _ => ?_
  refine .after (orSignal_grows _ _) fun _ => .after (orSignal_grows _ _) fun _ => ?_
  exact .before (emit_emits _ _ _) fun _ => .pure _

theorem generateIsNil_emits (generating : Generating generate) (args : List Node)
    (source : Source) (result : Option Operand) :
    Through Emits (generateIsNil generate args source result) := by
  refine .after (defaultRegister_grows result) fun _ => ?_
  refine .after (argument_grows args 0) fun _ => .after (generating.grows _ none) fun _ => ?_
  exact .before (emit_emits _ _ _) fun _ => .pure _

theorem generateLoop_emits (generating : Generating generate) (args : List Node)
    (source : Source) (result : Option Operand) :
    Through Emits (generateLoop generate args source result) := by
  refine .after emitLabel_grows fun _ => ?_
  refine .after (generateExecutionOf_grows generating _ _ _) fun _ => ?_
  exact .after (.throw _) fun _ => registerFor_emits _ _ _

section Cases

theorem mayInlineCaseOf_grows (source : Source) : Through Grows (mayInlineCaseOf source) := by
  refine .bind (argument_grows _ _) fun _ => ?_
  split
  · exact .pure _
  · exact .pure _

theorem checkDuplicates_grows (keys : List Literal) : Through Grows (checkDuplicates keys) :=
  .ite (fun _ => .pure _) fun _ => .throw _

theorem generateCaseOfOtherwise_emits (generating : Generating generate) (args : List Node)
    (source : Source) (result : Option Operand) :
    Through Emits (generateCaseOfOtherwise generate args source result) := by
  refine .after (mayInlineCaseOf_grows source) fun inlined => ?_
  split
  · refine .after (argument_grows args 1) fun cases => ?_
    refine .after (.mapM _ fun _ _ => newLabelIndex_grows) fun _ => ?_
    refine .after (defaultRegister_grows result) fun _ => ?_
    refine .after (checkDuplicates_grows _) fun _ => ?_
    refine .after (argument_grows args 0) fun _ => .after (generating.grows _ none) fun _ => ?_
    exact Ensures.throw _
  · exact generateSend_emits generating _ _ _ _

theorem generateCaseOf_emits (generating : Generating generate) (args : List Node)
    (source : Source) (result : Option Operand) :
    Through Emits (generateCaseOf generate args source result) := by
  refine .after (mayInlineCaseOf_grows source) fun inlined => ?_
  split
  · exact generateCaseOfOtherwise_emits generating _ _ _
  · exact generateSend_emits generating _ _ _ _

end Cases

section Branches

theorem literalBlocks_grows (args : List Node) (indices : List Nat) :
    Through Grows (literalBlocks args indices) := by
  induction indices with
  | nil => exact .pure _
  | cons index rest ih =>
    refine .bind (argument_grows args index) fun _ => ?_
    split
    · exact ih
    · exact .pure _

theorem checkCondition_grows (condition : Operand) : Through Grows (checkCondition condition) :=
  .ite (fun _ => .throw _) fun _ => .pure _

theorem generateConditional_emits (generating : Generating generate) (selector : String)
    (wanted : Bool) (otherwise : Literal) (args : List Node) (source : Source)
    (result : Option Operand) :
    Through Emits (generateConditional generate selector wanted otherwise args source result) := by
  refine .after (literalBlocks_grows args _) fun inlined => ?_
  split
  · refine .after newLabelIndex_grows fun _ => .after newLabelIndex_grows fun _ => ?_
    refine .after (defaultRegister_grows result) fun _ => ?_
    refine .after (argument_grows args 0) fun _ => .after (generating.grows _ none) fun _ => ?_
    refine .after (checkCondition_grows _) fun _ => ?_
    refine .before (emitBranchIf_emits _ _ _ _) fun _ => .bind (argument_grows args 1) fun _ => ?_
    refine .bind (generateExecutionOf_grows generating _ _ _) fun _ => ?_
    exact .bind (.throw _) fun _ => .bind (emitLabelIndex_grows _) fun _ =>
      .bind (registerFor_grows _ _ _) fun _ => .bind (emitLabelIndex_grows _) fun _ => .pure _
  · exact generateSend_emits generating _ _ _ _

theorem generateNilTest_emits (generating : Generating generate) (wanted : Bool) (label : Nat)
    (receiver : Node) (source : Source) (result : Operand) :
    Through Emits (generateNilTest generate wanted label receiver source result) := by
  refine .after (generating.grows _ _) fun _ => .after newRegister_grows fun _ => ?_
  exact .after (emit_grows _ _ _) fun _ => emitBranchIf_emits _ _ _ _

theorem executions_grow (generating : Generating generate) (args : List Node) (source : Source)
    (result : Operand) (falseLabel endLabel : Nat) : Through Grows (do
      let _ ← generateExecutionOf generate [← argument args 1] source (some result)
      emitJumpToLabel
      emitLabelIndex falseLabel
      let _ ← generateExecutionOf generate [← argument args 2] source (some result)
      emitLabelIndex endLabel
      return result) := by
  refine .bind (argument_grows args 1) fun _ => ?_
  refine .bind (generateExecutionOf_grows generating _ _ _) fun _ => ?_
  refine .bind (.throw _) fun _ => .bind (emitLabelIndex_grows _) fun _ => ?_
  refine .bind (argument_grows args 2) fun _ => ?_
  refine .bind (generateExecutionOf_grows generating _ _ _) fun _ => ?_
  exact .bind (emitLabelIndex_grows _) fun _ => .pure _

theorem generateIfTrueIfFalse_emits (generating : Generating generate) (args : List Node)
    (source : Source) (result : Option Operand) :
    Through Emits (generateIfTrueIfFalse generate args source result) := by
  refine .after (literalBlocks_grows args _) fun inlined => ?_
  split
  · refine .after newLabelIndex_grows fun _ => .after newLabelIndex_grows fun _ => ?_
    refine .after (defaultRegister_grows result) fun _ => ?_
    refine .after (argument_grows args 0) fun _ => .after (generating.grows _ none) fun _ => ?_
    refine .after (checkCondition_grows _) fun _ => ?_
    exact .before (emitBranchIf_emits _ _ _ _) fun _ => executions_grow generating args _ _ _ _
  · exact generateSend_emits generating _ _ _ _

theorem generateIfNilIfNotNil_emits (generating : Generating generate) (args : List Node)
    (source : Source) (result : Option Operand) :
    Through Emits (generateIfNilIfNotNil generate args source result) := by
  refine .after (literalBlocks_grows args _) fun inlined => ?_
  split
  · refine .after newLabelIndex_grows fun _ => .after newLabelIndex_grows fun _ => ?_
    refine .after (defaultRegister_grows result) fun _ => .after (argument_grows args 0) fun _ => ?_
    refine .before (generateNilTest_emits generating _ _ _ _ _) fun _ => ?_
    exact executions_grow generating args _ _ _ _
  · exact generateSend_emits generating _ _ _ _

theorem generateNilConditional_emits (generating : Generating generate) (selector : String)
    (wanted : Bool) (args : List Node) (source : Source) (result : Option Operand) :
    Through Emits (generateNilConditional generate selector wanted args source result) := by
  refine .after (literalBlocks_grows args _) fun inlined => ?_
  split
  · refine .after newLabelIndex_grows fun _ => ?_
    refine .after (defaultRegister_grows result) fun _ => .after (argument_grows args 0) fun _ => ?_
    refine .before (generateNilTest_emits generating _ _ _ _ _) fun _ => ?_
    refine .bind (argument_grows args 1) fun _ => ?_
    refine .bind (generateExecutionOf_grows generating _ _ _) fun _ => ?_
    exact .bind (emitLabelIndex_grows _) fun _ => .pure _
  · exact generateSend_emits generating _ _ _ _

theorem generateWhileDo_emits (generating : Generating generate) (selector : String)
    (wanted : Bool) (args : List Node) (source : Source) (result : Option Operand) :
    Through Emits (generateWhileDo generate selector wanted args source result) := by
  refine .after (literalBlocks_grows args _) fun inlined => ?_
  split
  · refine .after newLabelIndex_grows fun _ => .after emitLabel_grows fun _ => ?_
    refine .after (argument_grows args 0) fun _ => ?_
    refine .after (generateExecutionOf_grows generating _ _ _) fun _ => ?_
    refine .after (checkCondition_grows _) fun _ => .after (Emits.through (emitBranchIf_emits _ _ _ _)) fun _ => ?_
    refine .after (argument_grows args 1) fun _ => ?_
    refine .after (generateExecutionOf_grows generating _ _ _) fun _ => ?_
    exact .after (.throw _) fun _ => .after (emitLabelIndex_grows _) fun _ => registerFor_emits _ _ _
  · exact generateSend_emits generating _ _ _ _

theorem generateWhile_emits (generating : Generating generate) (selector : String)
    (wanted : Bool) (args : List Node) (source : Source) (result : Option Operand) :
    Through Emits (generateWhile generate selector wanted args source result) := by
  refine .after (literalBlocks_grows args _) fun inlined => ?_
  split
  · refine .after emitLabel_grows fun _ => ?_
    refine .after (generateExecutionOf_grows generating _ _ _) fun _ => ?_
    refine .after (checkCondition_grows _) fun _ => ?_
    exact .before (emitBranchIf_emits _ _ _ _) fun _ => registerFor_grows _ _ _
  · exact generateSend_emits generating _ _ _ _

end Branches

section Filling

theorem fillValue_grows (generating : Generating generate) (value : Node) :
    Through Grows (fillValue generate value) := by
  unfold fillValue
  split
  · exact .pure _
  · refine .bind currentMethod_grows fun _ => .bind (addVariable_grows _) fun _ => ?_
    exact .bind (generating.grows _ none) fun _ => .pure _

theorem generateFillWith_generates (generating : Generating generate) (args : List Node)
    (source : Source) (result : Option Operand) :
    Ensures Generates (generateFillWith generate args source result) := by
  refine Generates.after (argument_grows args 0) fun _ => ?_
  refine Generates.after (argument_grows args 1) fun _ => ?_
  refine Generates.after (argument_grows args 2) fun _ => ?_
  split
  · refine Generates.after .get fun _ => ?_
    dsimp only
    split
    · refine Generates.after (fillValue_grows generating _) fun _ => Generates.after .get fun _ => ?_
      refine Generates.after (orSignal_grows _ _) fun _ => ?_
      refine Generates.after (modifyScopes_grows (fun _ => rfl) fun _ => rfl) fun _ => ?_
      exact generating _ result
    · exact Emits.generates (generateSend_emits generating _ _ _ _)
  · exact Emits.generates (generateSend_emits generating _ _ _ _)

theorem generateFillLast_generates (generating : Generating generate) (args : List Node)
    (source : Source) (result : Option Operand) :
    Ensures Generates (generateFillLast generate args source result) := by
  refine Generates.after (argument_grows args 0) fun _ => ?_
  split
  · exact Generates.after .get fun _ => generateFillWith_generates generating _ _ _
  · exact Emits.generates (generateSend_emits generating _ _ _ _)

end Filling

theorem generateInlined_generates (generating : Generating generate) (inlined : Inlined)
    (args : List Node) (source : Source) (result : Option Operand) :
    Ensures Generates (generateInlined generate inlined args source result) := by
  cases inlined
  case applyWith =>
    refine Generates.after (defaultRegister_grows result) fun _ => ?_
    refine Generates.after (argument_grows args 0) fun _ => Generates.after (generating.grows _ none) fun _ => ?_
    refine Generates.after (argument_grows args 1) fun _ => Generates.after (generating.grows _ none) fun _ => ?_
    exact .throw _
  case do_ => exact generateDo_generates generating _ _ _
  case fillWith => exact generateFillWith_generates generating _ _ _
  case fillLast => exact generateFillLast_generates generating _ _ _
  all_goals refine Emits.generates ?_
  case applyStar | applyWithWith =>
    exact .after (argument_grows args 0) fun _ => generateApply_emits generating _ _ _ _
  case applyTo => exact generateApplyTo_emits generating _ _ _
  case primitiveApplyStar | primitiveDo => exact generatePrimitive_emits generating _ _ _
  case true_ | false_ | nil_ => exact generateGlobal_emits generating _ _ _ _ _
  case identical => exact generateIdentical_emits generating _ _ _
  case loop => exact generateLoop_emits generating _ _ _
  case isNil => exact generateIsNil_emits generating _ _ _
  case caseOfOtherwise => exact generateCaseOfOtherwise_emits generating _ _ _
  case caseOf => exact generateCaseOf_emits generating _ _ _
  case ifTrueIfFalse => exact generateIfTrueIfFalse_emits generating _ _ _
  case ifTrue | ifFalse | and_ | or_ => exact generateConditional_emits generating _ _ _ _ _ _
  case ifNilIfNotNil => exact generateIfNilIfNotNil_emits generating _ _ _
  case ifNil | ifNotNil => exact generateNilConditional_emits generating _ _ _ _ _
  case whileTrueDo | whileFalseDo => exact generateWhileDo_emits generating _ _ _ _ _
  case whileTrue | whileFalse => exact generateWhile_emits generating _ _ _ _ _

theorem generateOn_generates (generating : Generating generate) (selector : String)
    (args : List Node) (source : Source) (result : Option Operand) :
    Ensures Generates (generateOn generate selector args source result) := by
  unfold generateOn
  split
  · exact generateInlined_generates generating _ _ _ _
  · exact Emits.generates (generateSend_emits generating _ _ _ _)

theorem generateOptionals_generates (generating : Generating generate) (node message : Node)
    (keywords : List String) (arguments : List Node) (result : Option Operand) :
    Ensures Generates (generateOptionals generate node message keywords arguments result) := by
  unfold generateOptionals
  split
  · exact generateOn_generates generating _ _ _ _
  · exact .throw _
  · exact generating _ result

theorem generateRest_generates (generating : Generating generate) (message : Node)
    (rest : List Node) (result : Option Operand) :
    Ensures Generates (generateRest generate message rest result) := by
  unfold generateRest
  split
  · exact generateOn_generates generating _ _ _ _
  · exact generateOn_generates generating _ _ _ _
  · exact generateOn_generates generating _ _ _ _
  · exact Generates.after (orSignal_grows _ _) fun _ => generateOn_generates generating _ _ _ _
  · exact .throw _

theorem generateDeferred_generates (generating : Generating generate) (selector : String)
    (args : List Node) (result : Option Operand) :
    Ensures Generates (generateDeferred generate selector args result) := by
  refine Generates.after currentMethod_grows fun _ => Generates.after (newBlock_grows _ _) fun _ => ?_
  exact Generates.after .get fun _ => generating _ result

theorem generate_generates (fuel : Nat) : Generating (SlateVm.Compiler.generate fuel) := by
  induction fuel with
  | zero => exact fun _ _ => .throw _
  | succ fuel ih =>
    intro node result
    cases node with
    | literal value => exact Emits.generates (registerFor_emits _ _ _)
    | implicitArgument =>
      refine Emits.generates (.after (defaultRegister_grows result) fun _ => ?_)
      exact .before (emit_emits _ _ _) fun _ => .pure _
    | load var => exact Emits.generates (generateLoad_emits _ _ _)
    | store var value => exact Emits.generates (generateStore_emits ih _ _ _ _)
    | message selector args => exact generateOn_generates ih _ _ _ _
    | macro_ selector args => exact .throw _
    | deferred selector args => exact generateDeferred_generates ih _ _ _
    | optionalKeywords message keywords args => exact generateOptionals_generates ih _ _ _ _ _
    | restArguments message rest => exact generateRest_generates ih _ _ _
    | array statements => exact Emits.generates (generateArray_emits ih _ _ _)
    | parenthesis statements => exact generateParenthesis_generates ih _ _
    | block scope statements => exact Emits.generates (generateBlock_emits ih _ _ _ _)
    | methodDefinition scope selector roles statements =>
      exact Emits.generates (generateMethodDefinition_emits ih _ _ _ _)
    | returnClose value =>
      refine Emits.generates (.after .get fun _ => .after .get fun _ => ?_)
      exact .after (orSignal_grows _ _) fun _ => generateReturnBy_emits ih _ _ _ _
    | returnFar value =>
      refine Emits.generates (.after .get fun _ => .after .get fun _ => ?_)
      exact .after (orSignal_grows _ _) fun _ => generateReturnBy_emits ih _ _ _ _
    | returnLevel level value => exact Emits.generates (generateReturnBy_emits ih _ _ _ _)
    | resend => exact Emits.generates (generateResend_emits _ _)
    | annotated value => exact ih value none
    | other => exact pure_generates fun n same => nomatch same

theorem compiled_run {r : Except Signal ((MethodId × Bool) × Generator)} 
    {method : MethodId} {gen : Generator}
    (run : r.map (fun ((method, _), gen) => (method, gen)) = .ok (method, gen)) :
    ∃ isClosure, r = .ok ((method, isClosure), gen) := by
  cases r with
  | error e => cases run
  | ok a =>
    cases run
    exact ⟨_, rfl⟩

theorem compile_opens {fuel : Nat} {scopes : ScopeId → Scope} {nextScope : ScopeId} {root : Node}
    {method : MethodId} {gen : Generator}
    (run : compile fuel scopes nextScope root = .ok (method, gen)) :
    method < gen.methods.length ∧ ∀ m ∈ gen.methods, Opens m.code := by
  obtain ⟨scope, statements, isClosure, generated⟩ : ∃ scope statements isClosure,
      (generateMethod (SlateVm.Compiler.generate fuel) scope statements root).run
        ⟨[], [], scopes, nextScope, []⟩ = .ok ((method, isClosure), gen) := by
    unfold compile at run
    split at run
    · exact ⟨_, _, compiled_run run⟩
    · exact ⟨_, _, compiled_run run⟩
    · cases run
  obtain ⟨grows, _, inside⟩ :=
    generateMethod_grows (generate_generates fuel) scope statements root _ _ _ generated
  refine ⟨inside, fun m mem => ?_⟩
  obtain ⟨i, here⟩ := List.getElem?_of_mem mem
  refine (grows.finished (fun i m none => nomatch none) i m here).resolve_left ?_
  rintro ⟨c, mem, _⟩
  have contexts := grows.contexts
  rw [List.forall₂_nil_left_iff.mp contexts] at mem
  cases mem

end SlateVm.Compiler
