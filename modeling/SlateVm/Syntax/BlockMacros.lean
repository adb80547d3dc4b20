import SlateVm.Syntax.BlockLayout

/-! The order of a block's variables while macros add variables to the block. -/
namespace SlateVm.Syntax

def AlwaysLaidOut : Block → List Extension → Prop
  | block, [] => Layout block
  | block, e :: es => Layout block ∧ ∀ block', block.extend e = some block' →
    AlwaysLaidOut block' es

/-- The local that `addVariableNamed:` answers if there is one. -/
def Scope.localNamed (block : Scope) (name : String) : Option Var :=
  block.locals.find? fun v => v.name = name ∧ v.kind = .plain

/-- What keeps the order. An input is added right behind the inputs, or is the local there, and
nothing else stands between; an optional likewise. -/
def Extension.Allowed (block : Block) : Extension → Prop
  | .addVariable => True
  | .addVariableNamed _ _ => True
  | .addVariableObject var => var.number ∉ block.locals.map Var.number
  | .addInputVariable => block.locals = block.inputVariables
  | .addInputVariableNamed name =>
    block.optionalVariables = [] ∧ block.restVariable = none ∧
      (block.locals.drop block.inputVariables.length).head? = block.localNamed name
  | .addOptionalKeyword _ name =>
    block.restVariable = none ∧
      (block.locals.drop (block.inputVariables.length + block.optionalVariables.length)).head? =
        block.localNamed name
  | .reverseInputs => block.inputVariables.length ≤ 1

def AlwaysAllowed : Block → List Extension → Prop
  | _, [] => True
  | block, e :: es => ∀ block', block.extend e = some block' →
    e.Allowed block ∧ AlwaysAllowed block' es

section Added

theorem placed_first {α : Type} {row others : List α} {a : α} (nodup : (row ++ others).Nodup) :
    (∃ rest, row ++ others = a :: (row ++ rest)) ↔ row = [] ∧ others.head? = some a := by
  constructor
  · rintro ⟨rest, same⟩
    cases row with
    | nil =>
      simp only [List.nil_append] at same
      simp only [same, List.head?_cons, and_self]
    | cons b row =>
      simp only [List.cons_append, List.cons.injEq] at same
      simp only [List.cons_append, List.nodup_cons] at nodup
      exact absurd (same.2 ▸ List.mem_cons_self) nodup.1
  · rintro ⟨rfl, first⟩
    cases others with
    | nil => cases first
    | cons b others =>
      cases first
      exact ⟨others, rfl⟩

theorem reverse_eq_iff {α : Type} {xs : List α} (nodup : xs.Nodup) :
    xs.reverse = xs ↔ xs.length ≤ 1 := by
  constructor
  · intro same
    rcases xs with _ | ⟨a, xs⟩
    · exact Nat.zero_le 1
    · rcases List.eq_nil_or_concat xs with rfl | ⟨ys, b, rfl⟩
      · exact Nat.le_refl 1
      · rw [List.concat_eq_append] at same nodup
        simp only [List.reverse_cons, List.reverse_append, List.reverse_nil, List.nil_append,
          List.cons_append, List.cons.injEq] at same
        simp only [List.nodup_cons, List.mem_append, List.mem_singleton, same.1, or_true,
          not_true_eq_false, false_and] at nodup
  · intro short
    match xs, short with
    | [], _ => rfl
    | [a], _ => rfl

/-- The variables of a scope have different numbers, which are not used again. -/
structure Numbered (block : Scope) : Prop where
  once : (block.locals.map Var.number).Nodup
  below : ∀ v ∈ block.locals, v.number < block.next

theorem Layout.numbered {block : Block} (layout : Layout block) : Numbered block.toScope :=
  ⟨layout.once, layout.below⟩

theorem Numbered.append {block : Scope} (numbered : Numbered block) (var : Var) (next : Nat)
    (fresh : var.number ∉ block.locals.map Var.number) (within : var.number < next)
    (later : block.next ≤ next) :
    Numbered { block with locals := block.locals ++ [var], next := next } := by
  constructor
  · simp only [List.map_append, List.map_cons, List.map_nil, List.nodup_append,
      List.nodup_singleton, List.mem_singleton, true_and]
    refine ⟨numbered.once, ?_⟩
    rintro n member _ rfl rfl
    exact fresh member
  · intro v member
    rcases List.mem_append.1 member with before | added
    · exact Nat.lt_of_lt_of_le (numbered.below v before) later
    · rw [List.mem_singleton.1 added]
      exact within

theorem Numbered.next_fresh {block : Scope} (numbered : Numbered block) :
    block.next ∉ block.locals.map Var.number := by
  intro used
  obtain ⟨v, member, same⟩ := List.mem_map.1 used
  have below := numbered.below v member
  omega

theorem Scope.addVariableNamed_cases {block block' : Scope} {name : String}
    {varType : VariableKind} {var : Var}
    (run : block.addVariableNamed name varType = some (var, block')) :
    (block.locals.find? (fun v => v.name = name ∧ v.kind = varType) = some var ∧ block' = block) ∨
    (block.locals.find? (fun v => v.name = name ∧ v.kind = varType) = none ∧
      var.number = block.next ∧
      block' = { block with locals := block.locals ++ [var], next := block.next + 1 }) := by
  simp only [addVariableNamed] at run
  cases there : block.locals.find? (fun v => v.name = name ∧ v.kind = varType) with
  | some v =>
    rw [there] at run
    cases run
    exact Or.inl ⟨rfl, rfl⟩
  | none =>
    rw [there] at run
    simp only [addVariableOf, Option.bind_eq_bind, Option.bind_eq_some_iff, Option.some.injEq,
      Prod.mk.injEq] at run
    obtain ⟨unique, _, rfl, rfl⟩ := run
    exact Or.inr ⟨rfl, rfl, rfl⟩

theorem Numbered.addVariableNamed {block block' : Scope} {name : String}
    {varType : VariableKind} {var : Var} (numbered : Numbered block)
    (run : block.addVariableNamed name varType = some (var, block')) : Numbered block' := by
  rcases Scope.addVariableNamed_cases run with ⟨_, rfl⟩ | ⟨_, number, rfl⟩
  · exact numbered
  · exact numbered.append var _ (number ▸ numbered.next_fresh) (by omega) (Nat.le_succ _)

theorem insertion_iff {block block' : Scope} {name : String} {var : Var}
    (front row others : List Var) (numbered : Numbered block)
    (order : block.locals = front ++ (row ++ others))
    (run : block.addVariableNamed name .plain = some (var, block')) :
    (∃ rest, block'.locals = front ++ [var] ++ (row ++ rest)) ↔
      row = [] ∧ (block.locals.drop front.length).head? = block.localNamed name := by
  have nodup : block'.locals.Nodup := (numbered.addVariableNamed run).once.of_map
  rcases Scope.addVariableNamed_cases run with ⟨found, rfl⟩ | ⟨absent, number, rfl⟩
  · rw [Scope.localNamed, found, order, List.drop_left]
    rw [order] at nodup
    simp only [List.append_assoc, List.append_cancel_left_eq, List.singleton_append]
    rw [placed_first (List.nodup_append.1 nodup).2.1]
    constructor
    · rintro ⟨rfl, first⟩
      exact ⟨rfl, first⟩
    · rintro ⟨rfl, first⟩
      exact ⟨rfl, first⟩
  · have fresh : var ∉ block.locals := fun member =>
      numbered.next_fresh (number ▸ List.mem_map_of_mem member)
    simp only [order] at nodup fresh
    rw [Scope.localNamed, absent]
    simp only [order, List.drop_left]
    simp only [List.append_assoc, List.append_cancel_left_eq, List.singleton_append] at nodup ⊢
    rw [placed_first (List.nodup_append.1 nodup).2.1]
    constructor
    · rintro ⟨rfl, first⟩
      cases others with
      | nil => exact ⟨rfl, rfl⟩
      | cons v others =>
        cases first
        simp only [List.nil_append, List.mem_append, List.mem_cons, true_or, or_true,
          not_true_eq_false] at fresh
    · rintro ⟨rfl, first⟩
      cases others with
      | nil => exact ⟨rfl, rfl⟩
      | cons v others => cases first

end Added

section Extensions

variable {block block' : Block}

theorem layout_iff (numbered : Numbered block.toScope)
    (parallel : block.optionalKeywords.length = block.optionalVariables.length) :
    Layout block ↔ ∃ others, block.locals = block.inputVariables ++ block.optionalVariables ++
      block.restVariable.toList ++ others :=
  ⟨fun layout => layout.order, fun order => ⟨order, numbered.once, parallel, numbered.below⟩⟩

theorem Layout.addLocal (layout : Layout block) {scope : Scope} {name : String}
    {varType : VariableKind} {var : Var}
    (run : block.addVariableNamed name varType = some (var, scope)) :
    Layout { block with toScope := scope } := by
  have numbered : Numbered scope := layout.numbered.addVariableNamed run
  obtain ⟨others, order⟩ := layout.order
  rcases Scope.addVariableNamed_cases run with ⟨_, rfl⟩ | ⟨_, _, rfl⟩
  · exact ⟨⟨others, order⟩, numbered.once, layout.parallel, numbered.below⟩
  · refine ⟨⟨others ++ [var], ?_⟩, numbered.once, layout.parallel, numbered.below⟩
    simp only [order, List.append_assoc]

theorem Layout.addInput_iff (layout : Layout block) {name : String}
    (run : block.addInputVariableNamed name = some block') :
    Layout block' ↔ block.optionalVariables = [] ∧ block.restVariable = none ∧
      (block.locals.drop block.inputVariables.length).head? = block.localNamed name := by
  simp only [Block.addInputVariableNamed, Option.bind_eq_bind, Option.bind_eq_some_iff,
    Prod.exists, Option.some.injEq] at run
  obtain ⟨var, scope, run, rfl⟩ := run
  obtain ⟨others, order⟩ := layout.order
  have placed := insertion_iff block.inputVariables
    (block.optionalVariables ++ block.restVariable.toList) others layout.numbered
    (by simp only [order, List.append_assoc]) run
  refine Iff.trans (layout_iff (layout.numbered.addVariableNamed run) layout.parallel) ?_
  simp only [List.append_assoc] at placed ⊢
  rw [placed, List.append_eq_nil_iff, Option.toList_eq_nil_iff, and_assoc]

theorem Layout.addOptional_iff (layout : Layout block) {key name : String}
    (run : block.addOptionalKeyword key name = some block') :
    Layout block' ↔ block.restVariable = none ∧
      (block.locals.drop (block.inputVariables.length + block.optionalVariables.length)).head? =
        block.localNamed name := by
  simp only [Block.addOptionalKeyword, Option.bind_eq_bind, Option.bind_eq_some_iff,
    Prod.exists, Option.some.injEq] at run
  obtain ⟨var, scope, run, rfl⟩ := run
  obtain ⟨others, order⟩ := layout.order
  have placed := insertion_iff (block.inputVariables ++ block.optionalVariables)
    block.restVariable.toList others layout.numbered
    (by simp only [order, List.append_assoc]) run
  have parallel : (block.optionalKeywords ++ [key]).length =
      (block.optionalVariables ++ [var]).length := by
    simp only [List.length_append, List.length_singleton, layout.parallel]
  refine Iff.trans (layout_iff (layout.numbered.addVariableNamed run) parallel) ?_
  simp only [List.append_assoc, List.length_append] at placed ⊢
  rw [placed, Option.toList_eq_nil_iff]

theorem map_renamed {vs : List Var} {var : Var} (name : String)
    (absent : ∀ v ∈ vs, v.number ≠ var.number) :
    (vs.map fun v => if v.number = var.number then { v with name := name } else v) = vs := by
  have same : ∀ v ∈ vs, (if v.number = var.number then { v with name := name } else v) = id v := by
    intro v member
    rw [if_neg (absent v member), id]
  rw [List.map_congr_left same, List.map_id]

theorem Layout.addObject_iff (layout : Layout block) {var : Var}
    (run : block.addVariableObject var = some block') :
    Layout block' ↔ var.number ∉ block.locals.map Var.number := by
  simp only [Block.addVariableObject, Option.bind_eq_bind, Option.bind_eq_some_iff,
    Option.some.injEq] at run
  obtain ⟨name, _, rfl⟩ := run
  constructor
  · intro laidOut used
    -- The variable is there twice, whatever it is called.
    obtain ⟨v, member, same⟩ := List.mem_map.1 used
    have numbers := laidOut.once
    simp only [List.map_append, List.map_map, List.nodup_append] at numbers
    refine numbers.2.2 var.number (List.mem_map.2 ⟨v, member, ?_⟩) var.number ?_ rfl
    · simp only [Function.comp_apply, same, if_true]
    · simp only [if_true, List.map_cons, List.map_nil, List.mem_singleton]
  · intro fresh
    have absent : ∀ v ∈ block.locals, v.number ≠ var.number :=
      fun v member same => fresh (same ▸ List.mem_map_of_mem member)
    obtain ⟨others, order⟩ := layout.order
    have inputs : ∀ v ∈ block.inputVariables, v ∈ block.locals := by
      intro v member
      simp only [order, List.mem_append, member, true_or]
    have optionals : ∀ v ∈ block.optionalVariables, v ∈ block.locals := by
      intro v member
      simp only [order, List.mem_append, member, true_or, or_true]
    have rest : ∀ v ∈ block.restVariable, v ∈ block.locals := by
      intro v member
      simp only [order, List.mem_append, Option.mem_toList.2 member, true_or, or_true]
    have renamedRest : (block.restVariable.map fun v =>
        if v.number = var.number then { v with name := name } else v) = block.restVariable := by
      cases there : block.restVariable with
      | none => rfl
      | some r => rw [Option.map_some, if_neg (absent r (rest r there))]
    simp only [map_renamed name absent, map_renamed name fun v member => absent v (inputs v member),
      map_renamed name fun v member => absent v (optionals v member), renamedRest, if_true]
    have numbered := layout.numbered.append { var with name := name } (max block.next (var.number + 1))
      fresh (Nat.le_max_right _ _) (Nat.le_max_left _ _)
    refine ⟨⟨others ++ [{ var with name := name }], ?_⟩, numbered.once, layout.parallel,
      numbered.below⟩
    simp only [order, List.append_assoc]

theorem localNamed_unique {block : Scope} {name : String}
    (unique : block.uniqueVariableName = some name) : block.localNamed name = none := by
  have unfound := List.find?_some unique
  simp only [Scope.finds, Bool.not_eq_true', decide_eq_false_iff_not, not_or, any_name_iff] at unfound
  simp only [Scope.localNamed, List.find?_eq_none, decide_eq_true_eq]
  rintro v member ⟨named, _⟩
  exact unfound.1 ⟨v, member, named⟩

theorem extend_iff (layout : Layout block) {e : Extension} (run : block.extend e = some block') :
    Layout block' ↔ e.Allowed block := by
  cases e with
  | addVariable =>
    simp only [Block.extend, Scope.addVariable, Option.bind_eq_bind, Option.map_eq_some_iff,
      Option.bind_eq_some_iff, Prod.exists] at run
    obtain ⟨var, scope, ⟨name, _, run⟩, rfl⟩ := run
    exact iff_of_true (layout.addLocal run) trivial
  | addVariableNamed name varType =>
    simp only [Block.extend, Option.map_eq_some_iff, Prod.exists] at run
    obtain ⟨var, scope, run, rfl⟩ := run
    exact iff_of_true (layout.addLocal run) trivial
  | addVariableObject var => exact layout.addObject_iff run
  | addInputVariable =>
    simp only [Block.extend, Option.bind_eq_bind, Option.bind_eq_some_iff] at run
    obtain ⟨name, unique, run⟩ := run
    rw [layout.addInput_iff run, localNamed_unique unique, Extension.Allowed]
    obtain ⟨others, order⟩ := layout.order
    rw [order]
    simp only [List.append_assoc, List.drop_left, List.head?_eq_none_iff, List.append_eq_nil_iff,
      Option.toList_eq_nil_iff, List.append_right_eq_self]
    tauto
  | addInputVariableNamed name => exact layout.addInput_iff run
  | addOptionalKeyword key name => exact layout.addOptional_iff run
  | reverseInputs =>
    simp only [Block.extend, Option.some.injEq] at run
    subst run
    obtain ⟨others, order⟩ := layout.order
    have inputs : block.inputVariables.Nodup := by
      have nodup : block.locals.Nodup := layout.once.of_map
      simp only [order, List.append_assoc] at nodup
      exact (List.nodup_append.1 nodup).1
    rw [Extension.Allowed, ← reverse_eq_iff inputs]
    refine Iff.trans (layout_iff layout.numbered layout.parallel) ?_
    simp only [order, List.append_assoc]
    constructor
    · rintro ⟨others', same⟩
      exact (List.append_inj_left same (List.length_reverse).symm).symm
    · intro same
      exact ⟨others, by rw [same]⟩

theorem always_iff {block : Block} {es : List Extension} :
    AlwaysLaidOut block es ↔ Layout block ∧ AlwaysAllowed block es := by
  induction es generalizing block with
  | nil => simp only [AlwaysLaidOut, AlwaysAllowed, and_true]
  | cons e es ih =>
    simp only [AlwaysLaidOut, AlwaysAllowed]
    constructor
    · rintro ⟨layout, always⟩
      refine ⟨layout, fun block' run => ?_⟩
      obtain ⟨laidOut, allowed⟩ := ih.1 (always block' run)
      exact ⟨(extend_iff layout run).1 laidOut, allowed⟩
    · rintro ⟨layout, always⟩
      refine ⟨layout, fun block' run => ?_⟩
      obtain ⟨allowed, later⟩ := always block' run
      exact ih.2 ⟨(extend_iff layout run).2 allowed, later⟩

end Extensions

/-- After an accepted header the variables are laid out as the frame is, and no name is declared
twice, and so in every block that macros make of it, exactly if no plain declaration repeats a
name, no unnamed variable is left over beside an unnamed input or optional, the signature's keywords
have their variables, and the macros add variables at the end of their kind alone. -/
theorem block_layout_iff {isLetter : Char → Bool} {seed block : Block} {tokens rest : List Token}
    {ds : List (Mark × String)} (seeded : Seeded seed)
    (read : headerOf isLetter tokens = some ds)
    (accepted : nextBlock isLetter seed tokens = some (block, rest)) (es : List Extension) :
    (Distinct seed ds ∧ LaidOut seed ds block ∧ AlwaysLaidOut block es) ↔
      (Fresh seed ds ∧ UnnamedApart seed ds ∧
        seed.optionalKeywords.length = seed.optionalVariables.length) ∧ AlwaysAllowed block es := by
  obtain ⟨ds', h, read', rfl, run⟩ := nextBlock_eq_some accepted
  rw [read] at read'
  cases read'
  rw [← header_iff seeded run, always_iff, and_assoc]
  constructor
  · rintro ⟨distinct, laidOut, _, allowed⟩
    exact ⟨distinct, laidOut, allowed⟩
  · rintro ⟨distinct, laidOut, allowed⟩
    exact ⟨distinct, laidOut, laidOut.layout, allowed⟩

/-- A method with one input, whose header has an optional, a rest variable and two unnamed locals,
and to which a macro then adds a local. -/
theorem block_layout_mixed :
    ∃ block,
      nextBlock Char.isAlpha
          ⟨⟨[⟨0, "a", .plain⟩], [], 1⟩, [⟨0, "a", .plain⟩], none, [], []⟩
          [.beginVariables, .selector "_", .selector "*r", .selector "&b", .selector "_",
            .endVariables] =
        some (block, []) ∧
      Distinct ⟨⟨[⟨0, "a", .plain⟩], [], 1⟩, [⟨0, "a", .plain⟩], none, [], []⟩
        [(.plain, "_"), (.rest, "r"), (.optional, "b"), (.plain, "_")] ∧
      LaidOut ⟨⟨[⟨0, "a", .plain⟩], [], 1⟩, [⟨0, "a", .plain⟩], none, [], []⟩
        [(.plain, "_"), (.rest, "r"), (.optional, "b"), (.plain, "_")] block ∧
      AlwaysLaidOut block [.addVariableNamed "tmp" .plain] := by
  have seeded : Seeded ⟨⟨[⟨0, "a", .plain⟩], [], 1⟩, [⟨0, "a", .plain⟩], none, [], []⟩ :=
    ⟨rfl, rfl, by decide, by decide⟩
  have fresh : Fresh ⟨⟨[⟨0, "a", .plain⟩], [], 1⟩, [⟨0, "a", .plain⟩], none, [], []⟩
      [(.plain, "_"), (.rest, "r"), (.optional, "b"), (.plain, "_")] :=
    ⟨by decide, by decide, by decide⟩
  have apart : UnnamedApart ⟨⟨[⟨0, "a", .plain⟩], [], 1⟩, [⟨0, "a", .plain⟩], none, [], []⟩
      [(.plain, "_"), (.rest, "r"), (.optional, "b"), (.plain, "_")] := by
    rw [UnnamedApart]
    decide
  obtain ⟨block, accepted⟩ : ∃ block, nextBlock Char.isAlpha
      ⟨⟨[⟨0, "a", .plain⟩], [], 1⟩, [⟨0, "a", .plain⟩], none, [], []⟩
      [.beginVariables, .selector "_", .selector "*r", .selector "&b", .selector "_",
        .endVariables] = some (block, []) := ⟨_, rfl⟩
  have allowed : AlwaysAllowed block [.addVariableNamed "tmp" .plain] :=
    fun _ _ => ⟨trivial, trivial⟩
  exact ⟨block, accepted, (block_layout_iff seeded (by rfl) accepted _).2
    ⟨⟨fresh, apart, rfl⟩, allowed⟩⟩

/-- The header `| :a a |` is accepted. -/
theorem block_header_redeclared :
    nextBlock Char.isAlpha ⟨⟨[], [], 0⟩, [], none, [], []⟩
        [.beginVariables, .selector ":a", .selector "a", .endVariables] =
      some (⟨⟨[⟨0, "a", .plain⟩], [], 1⟩, [⟨0, "a", .plain⟩], none, [], []⟩, []) ∧
    headerOf Char.isAlpha [.beginVariables, .selector ":a", .selector "a", .endVariables] =
      some [(.input, "a"), (.plain, "a")] ∧
    ¬ Distinct ⟨⟨[], [], 0⟩, [], none, [], []⟩ [(.input, "a"), (.plain, "a")] := by
  refine ⟨rfl, rfl, ?_⟩
  intro distinct
  have named := (List.pairwise_cons.1 distinct.once).1 (.plain, "a") (List.mem_singleton_self _) rfl
  exact absurd named (by decide)

end SlateVm.Syntax
