import SlateVm.Compiler.Growth

/-! Every method that is done has code which begins with an instruction. -/
namespace SlateVm.Compiler
open Generator Programs

abbrev Generating (generate : Generate) : Prop :=
  ∀ node result, Ensures Generates (generate node result)

section Methods

variable {generate : Generate}

theorem Generating.grows (generating : Generating generate) (node : Node)
    (result : Option Operand) : Through Grows (generate node result) :=
  Generates.through (generating node result)

def LastGenerates (s : Generator) (registers : List Operand) (s' : Generator) : Prop :=
  Grows s s' ∧ ∀ a, registers.getLast? = some a → Generates s a s'

theorem generateAll_generates (generating : Generating generate) (nodes : List Node)
    (result : Option Operand) : Ensures LastGenerates (generateAll generate nodes result) := by
  intro s registers s' run
  cases last : nodes.getLast? with
  | none =>
    rw [List.getLast?_eq_none_iff] at last
    subst last
    cases run
    exact ⟨refl_of Grows _, fun a none => nomatch none⟩
  | some node =>
    simp only [generateAll, last] at run
    obtain ⟨first, t, before, run⟩ := run_bind_ok.mp run
    obtain ⟨a, t', here, run⟩ := run_bind_ok.mp run
    cases run
    have grows : Grows s t :=
      Through.mapM nodes.dropLast (fun node _ => generating.grows node none) s first t before
    have generates := generating node result t a _ here
    refine ⟨trans_of Grows grows generates.toGrows, fun b isLast => ?_⟩
    rw [List.getLast?_concat, Option.some.injEq] at isLast
    exact isLast ▸ grows.generates generates

theorem generateAll_grows (generating : Generating generate) (nodes : List Node)
    (result : Option Operand) : Through Grows (generateAll generate nodes result) :=
  (generateAll_generates generating nodes result).mono fun _ _ _ last => last.1

theorem generateStatements_generates (generating : Generating generate) (statements : List Node)
    (result : Option Operand) : Ensures Generates (generateStatements generate statements result) := by
  intro s a s' run
  obtain ⟨registers, t, before, run⟩ := run_bind_ok.mp run
  have last := generateAll_generates generating statements result s registers t before
  cases h : registers.getLast? with
  | none =>
    rw [h] at run
    cases run
  | some b =>
    rw [h] at run
    cases run
    exact last.2 a h

theorem generateArguments_grows (generating : Generating generate) (args : List Node) :
    Through Grows (generateArguments generate args) :=
  .mapM args fun arg _ => generating.grows arg none

theorem generateSend_emits (generating : Generating generate) (selector : String)
    (args : List Node) (source : Source) (result : Option Operand) :
    Through Emits (generateSend generate selector args source result) := by
  refine .after (defaultRegister_grows result) fun result => ?_
  refine .after (generateArguments_grows generating args) fun registers => ?_
  split
  · exact .before (emit_emits _ _ _) fun _ => .pure _
  · refine .after (.mapM _ fun (key, arg) _ => ?_) fun registers => ?_
    · refine .bind (registerFor_grows _ _ _) fun _ => ?_
      exact .bind (generating.grows arg none) fun _ => .pure _
    · exact .before (emit_emits _ _ _) fun _ => .pure _

section Blocks

theorem generateBody_emits (generating : Generating generate) (scope : ScopeId)
    (statements : List Node) (block : Node) :
    Through Emits (generateBody generate scope statements block) := by
  refine .after .get fun _ => .after (modifyContext_grows fun c => .still rfl rfl rfl) fun _ => ?_
  split
  · exact emit_emits _ _ _
  · refine .after (Generates.through ?_) fun register => emit_emits _ _ _
    exact generateStatements_generates generating _ none

theorem resolveLabels_getElem? {c : Context} {code : List Element} {k : Nat}
    (behind : ∀ r ∈ c.relocations, k < r.1) (resolved : resolveLabels c = some code) :
    code[k]? = c.code[k]? := by
  unfold resolveLabels at resolved
  generalize c.code = start at resolved ⊢
  generalize c.relocations = relocations at resolved behind
  induction relocations generalizing start with
  | nil =>
    rw [List.foldlM_nil, Option.pure_def, Option.some.injEq] at resolved
    rw [resolved]
  | cons r rest ih =>
    rw [List.foldlM_cons, Option.bind_eq_bind, Option.bind_eq_some_iff] at resolved
    obtain ⟨next, step, resolved⟩ := resolved
    simp only [Option.bind_eq_bind, Option.bind_eq_some_iff, Option.pure_def,
      Option.some.injEq] at step
    obtain ⟨_, _, position, _, rfl⟩ := step
    rw [ih _ resolved fun r mem => behind r (List.mem_cons_of_mem _ mem),
      List.getElem?_set_ne (Nat.ne_of_gt (behind r (List.mem_cons_self ..)))]

theorem opens_iff {code : List Element} : Opens code ↔ ∃ i, code[0]? = some (.instruction i) := by
  simp only [Opens, List.head?_eq_getElem?]

theorem resolveLabels_opens {c : Context} {code : List Element}
    (positive : ∀ r ∈ c.relocations, 0 < r.1) (opens : Opens c.code)
    (resolved : resolveLabels c = some code) : Opens code := by
  rw [opens_iff] at opens ⊢
  rw [resolveLabels_getElem? positive resolved]
  exact opens

theorem orSignal_same {α : Type} (signal : Signal) (value : Option α) :
    Ensures (fun s a s' => s = s' ∧ value = some a) (orSignal signal value) := by
  cases value with
  | none => exact .throw signal
  | some a => exact .pure fun s => ⟨rfl, rfl⟩

theorem currentContext_run {s s' : Generator} {c : Context}
    (run : currentContext.run s = .ok (c, s')) : s = s' ∧ s.contexts.head? = some c := by
  obtain ⟨_, _, here, run⟩ := run_bind_ok.mp run
  cases here
  exact orSignal_same _ _ s c s' run

theorem currentMethod_run {s s' : Generator} {m : CompiledMethod}
    (run : currentMethod.run s = .ok (m, s')) :
    s = s' ∧ ∃ c, s.contexts.head? = some c ∧ s.methods[c.method]? = some m := by
  obtain ⟨_, _, here, run⟩ := run_bind_ok.mp run
  cases here
  obtain ⟨c, t, current, run⟩ := run_bind_ok.mp run
  obtain ⟨rfl, top⟩ := currentContext_run current
  obtain ⟨rfl, here⟩ := orSignal_same _ _ _ m s' run
  exact ⟨rfl, c, top, here⟩

theorem newEnvironment_run {scope : ScopeId} {s s' : Generator} {environment : Nat}
    (run : (newEnvironment scope).run s = .ok (environment, s')) : s = s' := by
  obtain ⟨_, _, here, run⟩ := run_bind_ok.mp run
  cases here
  split at run
  · cases run
    rfl
  · obtain ⟨_, _, current, run⟩ := run_bind_ok.mp run
    obtain ⟨rfl, _⟩ := currentMethod_run current
    cases run
    rfl

theorem pushMethod_run {scope : ScopeId} {s s' : Generator} {method : MethodId}
    (run : (pushMethod scope).run s = .ok (method, s')) :
    method = s.methods.length ∧ ∃ environment, s' = { s with
      methods := s.methods ++ [⟨scope, environment, 0, [], false, [], 0, false, []⟩]
      contexts := ⟨false, method, [], [], [], 0, []⟩ :: s.contexts } := by
  obtain ⟨environment, t, asked, run⟩ := run_bind_ok.mp run
  obtain rfl := newEnvironment_run asked
  obtain ⟨_, _, here, run⟩ := run_bind_ok.mp run
  cases here
  obtain ⟨_, _, pushed, run⟩ := run_bind_ok.mp run
  cases pushed
  cases run
  exact ⟨rfl, environment, rfl⟩

def CompiledMethod.filled (m : CompiledMethod) (vars : Scope) (c : Context) (code : List Element) :
    CompiledMethod :=
  { m with
    inputVariables := vars.inputVariables.length
    localVariables := vars.localVariables
    restVariable := vars.restVariable.isSome
    registerCount := c.currentRegister + 1
    optionalKeywords := vars.optionalKeywords
    code := code }

theorem popMethod_run {scope : ScopeId} {s s' : Generator} {isClosure : Bool}
    (run : (popMethod scope).run s = .ok (isClosure, s')) :
    ∃ c rest code, s.contexts = c :: rest ∧ resolveLabels c = some code ∧
      isClosure = c.isClosure ∧ s' = { s with
        contexts := rest
        methods := s.methods.modify c.method fun m => m.filled (s.scopes scope) c code } := by
  obtain ⟨c, t, current, run⟩ := run_bind_ok.mp run
  obtain ⟨rfl, top⟩ := currentContext_run current
  obtain ⟨code, t, asked, run⟩ := run_bind_ok.mp run
  obtain ⟨rfl, resolved⟩ := orSignal_same _ _ _ _ _ asked
  obtain ⟨_, _, here, run⟩ := run_bind_ok.mp run
  cases here
  obtain ⟨_, _, popped, run⟩ := run_bind_ok.mp run
  cases popped
  cases run
  cases inner : s.contexts with
  | nil =>
    rw [inner] at top
    cases top
  | cons c' rest =>
    rw [inner, List.head?_cons, Option.some.injEq] at top
    subst top
    refine ⟨c', rest, code, rfl, resolved, rfl, ?_⟩
    simp only [inner, List.tail_cons]
    rfl

theorem pushed_finished {s : Generator} (finished : s.Finished) (m : CompiledMethod) (c : Context)
    (method : c.method = s.methods.length) :
    Finished { s with methods := s.methods ++ [m], contexts := c :: s.contexts } := by
  intro i m' here
  rcases Nat.lt_or_ge i s.methods.length with inside | beyond
  · rw [List.getElem?_append_left inside] at here
    refine (finished i m' here).imp_left ?_
    rintro ⟨c', mem, same⟩
    exact ⟨c', List.mem_cons_of_mem _ mem, same⟩
  · have within := (List.getElem?_eq_some_iff.mp here).1
    rw [List.length_append, List.length_singleton] at within
    exact .inl ⟨c, List.mem_cons_self .., method.trans (Nat.le_antisymm beyond (Nat.le_of_lt_succ within))⟩

theorem popped_finished {s : Generator} {c : Context} {rest : List Context} {code : List Element}
    (finished : s.Finished) (contexts : s.contexts = c :: rest) (opens : Opens code)
    (vars : Scope) :
    Finished { s with
      contexts := rest
      methods := s.methods.modify c.method fun m => m.filled vars c code } := by
  intro i m here
  rw [List.getElem?_modify, Option.map_eq_map, Option.map_eq_some_iff] at here
  obtain ⟨m', here, rfl⟩ := here
  split
  · exact .inr opens
  · refine (finished i m' here).imp_left ?_
    rintro ⟨c', mem, same⟩
    rw [contexts] at mem
    rcases List.mem_cons.mp mem with rfl | mem
    · contradiction
    · exact ⟨c', mem, same⟩

theorem generateMethod_grows (generating : Generating generate) (scope : ScopeId)
    (statements : List Node) (block : Node) :
    Ensures (fun s a s' => Grows s s' ∧ a.1 = s.methods.length ∧ a.1 < s'.methods.length)
      (generateMethod generate scope statements block) := by
  rintro s ⟨method, isClosure⟩ s' run
  obtain ⟨id, pushed, push, run⟩ := run_bind_ok.mp run
  obtain ⟨rfl, environment, rfl⟩ := pushMethod_run push
  obtain ⟨_, body, generated, run⟩ := run_bind_ok.mp run
  obtain ⟨_, popped, pop, run⟩ := run_bind_ok.mp run
  cases run
  have emits := generateBody_emits generating scope statements block _ _ _ generated
  obtain ⟨c, rest, code, contexts, resolved, rfl, rfl⟩ := popMethod_run pop
  have stack := emits.contexts
  have more := emits.more (List.cons_ne_nil _ _)
  rw [contexts] at stack
  cases stack with
  | cons top below =>
    have methods := emits.methods
    rw [List.length_append, List.length_singleton] at methods
    refine ⟨⟨below, ?_, fun finished => popped_finished (emits.finished ?_) contexts ?_ _⟩, rfl, ?_⟩
    · exact Nat.le_trans (Nat.le_of_succ_le methods) (Nat.le_of_eq (List.length_modify ..).symm)
    · exact pushed_finished finished _ _ rfl
    · obtain ⟨relocations, here, behind⟩ := top.relocations
      have positive : ∀ r ∈ c.relocations, 0 < r.1 := by
        rw [here, List.append_nil]
        exact fun r mem => Nat.zero_lt_of_lt (behind r mem)
      refine resolveLabels_opens positive ?_ resolved
      obtain ⟨added, same, rfl | opens⟩ := top.code
      · simp [topSize, contexts, same] at more
      · rw [same]
        exact opens
    · exact Nat.lt_of_lt_of_le methods (Nat.le_of_eq (List.length_modify ..).symm)

theorem generateBlock_emits (generating : Generating generate) (scope : ScopeId)
    (statements : List Node) (block : Node) (result : Option Operand) :
    Through Emits (generateBlock generate scope statements block result) := by
  have method := generateMethod_grows generating scope statements block
  refine .after (method.mono fun _ _ _ grows => grows.1) fun _ => ?_
  refine .after (defaultRegister_grows result) fun result => ?_
  exact .before (emit_emits _ _ _) fun _ => .pure _

theorem generateMethodDefinition_emits (generating : Generating generate) (definition : Node)
    (selector : String) (roles : List Node) (result : Option Operand) :
    Through Emits (generateMethodDefinition generate definition selector roles result) := by
  refine .after (generating.grows definition none) fun _ => .after newRegister_grows fun _ => ?_
  refine .after (registerFor_grows _ _ _) fun _ => ?_
  refine .after (.mapM _ fun role _ => generating.grows role none) fun _ => ?_
  refine .after (defaultRegister_grows result) fun _ => .before (emit_emits _ _ _) fun _ => ?_
  exact .bind (Emits.through (emit_emits _ _ _)) fun _ => .pure _

end Blocks

section Returns

theorem reachPositive_grows (lexOffset : Nat) : Through Grows (reachPositive lexOffset) :=
  .ite (fun _ => reach_grows lexOffset) fun _ => .pure _

theorem generateResend_emits (node : Node) (result : Option Operand) :
    Through Emits (generateResend node result) := by
  refine .after .get fun _ => .after .get fun _ => .after (orSignal_grows _ _) fun lexOffset => ?_
  refine .after (reachPositive_grows lexOffset) fun _ => .after (defaultRegister_grows result) fun _ => ?_
  exact .before (emit_emits _ _ _) fun _ => .pure _

theorem generateReturnBy_emits (generating : Generating generate) (node value : Node)
    (lexOffset : Nat) (result : Option Operand) :
    Through Emits (generateReturnBy generate node value lexOffset result) := by
  refine .after (defaultRegister_grows result) fun _ => .after (reachPositive_grows lexOffset) fun _ => ?_
  refine .after (generating.grows value _) fun _ => ?_
  exact .before (emit_emits _ _ _) fun _ => .pure _

end Returns

section Variables

theorem locate_grows (var : Variable) : Through Grows (locate var) :=
  .bind .get fun _ => .bind .get fun _ => .bind (orSignal_grows _ _) fun _ => .pure _

theorem emit_grows (code : Nat) (values : List Element) (source : Node) :
    Through Grows (emit code values source) :=
  Emits.through (emit_emits code values source)

theorem moveFrom_grows (varIndex result : Operand) (node : Node) :
    Through Grows (moveFrom varIndex result node) :=
  .ite (fun _ => .pure _) fun _ => emit_grows _ _ _

theorem generateLoad_emits (node : Node) (var : Variable) (result : Option Operand) :
    Through Emits (generateLoad node var result) := by
  refine .after (locate_grows var) fun ⟨varIndex, lexOffset⟩ => ?_
  dsimp only
  split
  · refine .before (emit_emits _ _ _) fun _ => ?_
    exact .bind (moveFrom_grows _ _ _) fun _ => .pure _
  · refine .after (defaultRegister_grows result) fun _ => .after (reach_grows lexOffset) fun _ => ?_
    exact .before (emit_emits _ _ _) fun _ => .pure _

theorem generateStore_emits (generating : Generating generate) (node : Node) (var : Variable)
    (value : Node) (result : Option Operand) :
    Through Emits (generateStore generate node var value result) := by
  refine .after (locate_grows var) fun ⟨varIndex, lexOffset⟩ => ?_
  dsimp only
  split
  · refine .after (generating.grows value _) fun _ => .before (emit_emits _ _ _) fun _ => ?_
    exact .bind (moveFrom_grows _ _ _) fun _ => .pure _
  · refine .after (defaultRegister_grows result) fun _ => .after (generating.grows value _) fun _ => ?_
    refine .after (reach_grows lexOffset) fun _ => .before (emit_emits _ _ _) fun _ => .pure _

end Variables

theorem generateArray_emits (generating : Generating generate) (node : Node)
    (statements : List Node) (result : Option Operand) :
    Through Emits (generateArray generate node statements result) := by
  refine .after (generateAll_grows generating statements result) fun _ => ?_
  exact .after (defaultRegister_grows result) fun _ => .before (emit_emits _ _ _) fun _ => .pure _

theorem pure_generates {a : Operand} (outside : ∀ n, a ≠ .register n) :
    Ensures Generates (pure a : Gen Operand) :=
  .pure fun s => ⟨refl_of Grows s, .inr outside⟩

theorem generateParenthesis_generates (generating : Generating generate) (statements : List Node)
    (result : Option Operand) : Ensures Generates (generateParenthesis generate statements result) := by
  unfold generateParenthesis
  split
  · exact pure_generates fun n same => nomatch same
  · exact generateStatements_generates generating statements result

end Methods

end SlateVm.Compiler
