import Mathlib.Data.List.Induction
import Mathlib.Data.List.Nodup
import Mathlib.Data.List.Pairwise
import SlateVm.Syntax.BlockHeader

/-! The order of a block's variables after its header. -/
namespace SlateVm.Syntax

def declarations (isLetter : Char → Bool) : List Token → Option (List (Mark × String))
  | .selector value :: tokens => do
    some ((← declarationOf isLetter value) :: (← declarations isLetter tokens))
  | .endVariables :: _ => some []
  | _ => none

def headerOf (isLetter : Char → Bool) : List Token → Option (List (Mark × String))
  | .beginVariables :: tokens => declarations isLetter tokens
  | _ => some []

/-- A block before its header. A method definition has the variables of its signature. -/
structure Seeded (seed : Block) : Prop where
  locals : seed.locals = seed.inputVariables
  rest : seed.restVariable = none
  below : ∀ v ∈ seed.inputVariables ++ seed.optionalVariables, v.number < seed.next
  distinct : ((seed.inputVariables ++ seed.optionalVariables).map Var.number).Nodup

def created (next : Nat) : List (Mark × String) → List (Mark × Var)
  | [] => []
  | (mark, name) :: ds => (mark, ⟨next, name, .plain⟩) :: created (next + 1) ds

def marked (mark : Mark) (vs : List (Mark × Var)) : List Var :=
  (vs.filter fun v => v.1 = mark).map Prod.snd

structure Distinct (seed : Block) (ds : List (Mark × String)) : Prop where
  once : ds.Pairwise fun d e => d.2 = e.2 → d.2 = "_"
  new : ∀ d ∈ ds, d.2 ∈ (seed.inputVariables ++ seed.optionalVariables).map Var.name → d.2 = "_"

/-- The order of variables in which the interpreter fills a frame. -/
structure Layout (block : Block) : Prop where
  order : ∃ others, block.locals = block.inputVariables ++ block.optionalVariables ++
    block.restVariable.toList ++ others
  once : (block.locals.map Var.number).Nodup
  parallel : block.optionalKeywords.length = block.optionalVariables.length
  below : ∀ v ∈ block.locals, v.number < block.next

/-- The variables that the declarations ask for, in the order of the frame. -/
structure LaidOut (seed : Block) (ds : List (Mark × String)) (block : Block) : Prop where
  layout : Layout block
  inputs : block.inputVariables = seed.inputVariables ++ marked .input (created seed.next ds)
  optionals : block.optionalVariables =
    seed.optionalVariables ++ marked .optional (created seed.next ds)
  keywords : block.optionalKeywords = seed.optionalKeywords ++
    (marked .optional (created seed.next ds)).map fun v => "&" ++ v.name
  rest : block.restVariable = (marked .rest (created seed.next ds)).getLast?
  others : block.locals = block.inputVariables ++ block.optionalVariables ++
    block.restVariable.toList ++ ((created seed.next ds).map Prod.snd).filter fun v =>
      v ∉ block.inputVariables ∧ v ∉ block.optionalVariables ∧ block.restVariable ≠ some v

/-- No plain declaration repeats a name, and none repeats that of an optional of the signature. -/
structure Fresh (seed : Block) (ds : List (Mark × String)) : Prop where
  once : ds.Pairwise fun d e => e.1 = .plain → d.2 = e.2 → d.2 = "_"
  inputs : ∀ d ∈ ds, d.1 = .plain → d.2 ∈ seed.inputVariables.map Var.name → d.2 = "_"
  optionals : ∀ d ∈ ds, d.2 ∈ seed.optionalVariables.map Var.name → d.2 = "_"

/-- If an input or an optional is `_`, then no plain variable is, and no rest variable that a
later one replaces. -/
def UnnamedApart (seed : Block) (ds : List (Mark × String)) : Prop :=
  ("_" ∈ (seed.inputVariables ++ seed.optionalVariables).map Var.name ∨
    (.input, "_") ∈ ds ∨ (.optional, "_") ∈ ds) →
  (.plain, "_") ∉ ds ∧ (.rest, "_") ∉ (ds.filter fun d => d.1 = .rest).dropLast

section Created

attribute [local simp] created

theorem created_append (next : Nat) (ds es : List (Mark × String)) :
    created next (ds ++ es) = created next ds ++ created (next + ds.length) es := by
  induction ds generalizing next with
  | nil => rfl
  | cons d ds ih =>
    simp only [List.cons_append, created, ih, List.length_cons, Nat.add_assoc, Nat.add_comm 1]

theorem created_names (next : Nat) (ds : List (Mark × String)) :
    (created next ds).map (fun v => (v.1, v.2.name)) = ds := by
  induction ds generalizing next with
  | nil => rfl
  | cons d ds ih => simp only [created, List.map_cons, ih]

theorem created_number {next : Nat} {ds : List (Mark × String)} {v : Mark × Var}
    (made : v ∈ created next ds) : next ≤ v.2.number ∧ v.2.number < next + ds.length := by
  induction ds generalizing next with
  | nil => simp only [created, List.not_mem_nil] at made
  | cons d ds ih =>
    simp only [created, List.mem_cons] at made
    rcases made with rfl | later
    · simp only [List.length_cons]
      omega
    · have range := ih later
      simp only [List.length_cons]
      omega

theorem created_nodup (next : Nat) (ds : List (Mark × String)) :
    ((created next ds).map fun v => v.2.number).Nodup := by
  induction ds generalizing next with
  | nil => exact List.nodup_nil
  | cons d ds ih =>
    simp only [created, List.map_cons, List.nodup_cons]
    constructor
    · intro again
      obtain ⟨v, made, same⟩ := List.mem_map.1 again
      have range := created_number made
      omega
    · exact ih (next + 1)

theorem created_inj {next : Nat} {ds : List (Mark × String)} {u v : Mark × Var}
    (left : u ∈ created next ds) (right : v ∈ created next ds)
    (same : u.2.number = v.2.number) : u = v :=
  List.inj_on_of_nodup_map (created_nodup next ds) left right same

theorem mem_marked {mark : Mark} {vs : List (Mark × Var)} {v : Var} :
    v ∈ marked mark vs ↔ (mark, v) ∈ vs := by
  simp only [marked, List.mem_map, List.mem_filter, decide_eq_true_eq]
  constructor
  · rintro ⟨⟨m, u⟩, ⟨member, rfl⟩, rfl⟩
    exact member
  · intro member
    exact ⟨(mark, v), ⟨member, rfl⟩, rfl⟩

theorem marked_append (mark : Mark) (us vs : List (Mark × Var)) :
    marked mark (us ++ vs) = marked mark us ++ marked mark vs := by
  simp only [marked, List.filter_append, List.map_append]

theorem marked_names (mark : Mark) (next : Nat) (ds : List (Mark × String)) :
    (marked mark (created next ds)).map (fun v => (mark, v.name)) =
      ds.filter fun d => d.1 = mark := by
  induction ds generalizing next with
  | nil => rfl
  | cons d ds ih =>
    rcases d with ⟨m, name⟩
    by_cases this : m = mark
    · have rest := ih (next + 1)
      simp only [marked] at rest
      simp only [created, marked, this, List.filter_cons_of_pos, decide_true, List.map_cons, rest]
    · have rest := ih (next + 1)
      simp only [marked] at rest
      simp only [created, marked, this, decide_false, Bool.false_eq_true, not_false_eq_true,
        List.filter_cons_of_neg, rest]

end Created

section Declarations

def Block.Takes (block : Block) (name : String) : Prop :=
  name ≠ "_" → ∀ v ∈ block.locals, v.name ≠ name

theorem any_name_iff (vs : List Var) (name : String) :
    (vs.any fun v => name = v.name) = true ↔ ∃ v ∈ vs, v.name = name := by
  simp only [List.any_eq_true, decide_eq_true_eq, eq_comm (a := name)]

theorem Block.undeclared_eq_some {block : Block} {name : String} {made : Var × Block} :
    block.undeclared name = some made ↔
      block.Takes name ∧ made = block.newVariableNamed name := by
  simp only [undeclared, any_name_iff, Takes]
  split
  · next taken =>
    rcases taken with ⟨named, v, member, same⟩
    simp only [reduceCtorEq, false_iff, not_and]
    intro takes
    exact absurd same (takes named v member)
  · next free =>
    simp only [Option.some.injEq, eq_comm (a := made), iff_and_self]
    intro _ named v member same
    exact free ⟨named, v, member, same⟩

theorem Block.Takes.withLocal {block : Block} {var : Var} (takes : block.Takes var.name) :
    block.withLocal var = { block with locals := block.locals ++ [var] } := by
  simp only [Block.withLocal, any_name_iff]
  have appended : var.name = "_" ∨ ¬ ∃ v ∈ block.locals, v.name = var.name := by
    by_cases named : var.name = "_"
    · exact Or.inl named
    · right
      rintro ⟨v, member, same⟩
      exact takes named v member same
  simp only [appended, if_true]

/-- What the loop has collected if every declaration has made a variable. -/
structure Collected (seed : Block) (ds : List (Mark × String)) (h : Header) : Prop where
  locals : h.block.locals = seed.inputVariables ++ (created seed.next ds).map Prod.snd
  next : h.block.next = seed.next + ds.length
  seedInputs : h.block.inputVariables = seed.inputVariables
  seedOptionals : h.block.optionalVariables = seed.optionalVariables
  seedKeywords : h.block.optionalKeywords = seed.optionalKeywords
  inputs : h.inputVariables = marked .input (created seed.next ds)
  optionals : h.optVariables = marked .optional (created seed.next ds)
  keywords : h.optKeywords = (marked .optional (created seed.next ds)).map fun v => "&" ++ v.name
  rest : h.block.restVariable = (marked .rest (created seed.next ds)).getLast?

def Header.making (h : Header) (mark : Mark) (name : String) : Header :=
  let var : Var := ⟨h.block.next, name, .plain⟩
  { inputVariables := h.inputVariables ++ if mark = .input then [var] else []
    optKeywords := h.optKeywords ++ if mark = .optional then ["&" ++ name] else []
    optVariables := h.optVariables ++ if mark = .optional then [var] else []
    block := { h.block with
      locals := h.block.locals ++ [var]
      next := h.block.next + 1
      restVariable := if mark = .rest then some var else h.block.restVariable } }

theorem Header.declare_eq {h : Header} {name : String} (takes : h.block.Takes name)
    (mark : Mark) : h.declare mark name = some (h.making mark name) := by
  have made := Block.undeclared_eq_some.2 ⟨takes, rfl⟩
  cases mark with
  | plain =>
    have none : h.block.locals.find? (fun v => name = v.name ∧ name ≠ "_") = none := by
      simp only [List.find?_eq_none, decide_eq_true_eq]
      rintro v member ⟨same, named⟩
      exact takes named v member same.symm
    have free : Block.Takes { h.block with next := h.block.next + 1 }
      (Var.mk h.block.next name .plain).name := takes
    simp only [declare, none, Block.newVariableNamed, free.withLocal]
    simp [making]
  | rest =>
    have free : Block.Takes
      { h.block with next := h.block.next + 1, restVariable := some ⟨h.block.next, name, .plain⟩ }
      (Var.mk h.block.next name .plain).name := takes
    simp only [declare, made, Option.bind_eq_bind, Option.bind_some, Block.newVariableNamed,
      free.withLocal]
    simp [making]
  | input | optional =>
    have free : Block.Takes { h.block with next := h.block.next + 1 }
      (Var.mk h.block.next name .plain).name := takes
    simp only [declare, made, Option.bind_eq_bind, Option.bind_some, Block.newVariableNamed,
      free.withLocal]
    simp [making]

theorem Header.takes_of_declare {h h' : Header} {mark : Mark} {name : String}
    (run : h.declare mark name = some h') (fresh : mark = .plain → h.block.Takes name) :
    h.block.Takes name := by
  cases mark with
  | plain => exact fresh rfl
  | input | optional | rest =>
    simp only [declare, Option.bind_eq_bind, Option.bind_eq_some_iff,
      Block.undeclared_eq_some] at run
    obtain ⟨_, ⟨takes, _⟩, _⟩ := run
    exact takes

theorem marked_snoc (mark m : Mark) (name : String) (next : Nat) (ds : List (Mark × String)) :
    marked mark (created next (ds ++ [(m, name)])) = marked mark (created next ds) ++
      if m = mark then [⟨next + ds.length, name, .plain⟩] else [] := by
  have last : marked mark (created (next + ds.length) [(m, name)]) =
      if m = mark then [⟨next + ds.length, name, .plain⟩] else [] := by
    simp only [marked, created, List.filter_cons, List.filter_nil, decide_eq_true_eq]
    split <;> rfl
  rw [created_append, marked_append, last]

variable {seed : Block} {ds : List (Mark × String)} {h : Header}

theorem Collected.making (collected : Collected seed ds h) (mark : Mark) (name : String) :
    Collected seed (ds ++ [(mark, name)]) (h.making mark name) := by
  constructor
  · simp only [Header.making, collected.locals, created_append, created, collected.next,
      List.map_append, List.map_cons, List.map_nil, List.append_assoc]
  · simp only [Header.making, collected.next, List.length_append, List.length_singleton,
      Nat.add_assoc]
  · exact collected.seedInputs
  · exact collected.seedOptionals
  · exact collected.seedKeywords
  · simp only [Header.making, marked_snoc, collected.inputs, collected.next]
  · simp only [Header.making, marked_snoc, collected.optionals, collected.next]
  · simp only [Header.making, marked_snoc, collected.keywords, List.map_append]
    split <;> rfl
  · simp only [Header.making, marked_snoc, collected.rest, collected.next]
    split
    · rw [List.getLast?_concat]
    · rw [List.append_nil]

theorem Seeded.collected (seeded : Seeded seed) : Collected seed [] ⟨seed, [], [], []⟩ := by
  constructor
  · simp only [seeded.locals, created, List.map_nil, List.append_nil]
  · rfl
  · rfl
  · rfl
  · rfl
  · rfl
  · rfl
  · rfl
  · exact seeded.rest

theorem Collected.takes_iff (collected : Collected seed ds h) {name : String} :
    h.block.Takes name ↔ ((∃ v ∈ seed.inputVariables, v.name = name) ∨ ∃ d ∈ ds, d.2 = name) →
      name = "_" := by
  have named : (∃ d ∈ ds, d.2 = name) ↔ ∃ v ∈ created seed.next ds, v.2.name = name := by
    conv_lhs => rw [← created_names seed.next ds]
    simp only [List.mem_map, exists_exists_and_eq_and]
  simp only [Block.Takes, collected.locals, List.mem_append, List.mem_map, named]
  constructor
  · intro takes declared
    by_contra unnamed
    rcases declared with ⟨v, member, same⟩ | ⟨v, member, same⟩
    · exact takes unnamed v (Or.inl member) same
    · exact takes unnamed v.2 (Or.inr ⟨v, member, rfl⟩) same
  · rintro fresh unnamed v (member | ⟨u, member, rfl⟩) same
    · exact unnamed (fresh (Or.inl ⟨v, member, same⟩))
    · exact unnamed (fresh (Or.inr ⟨u, member, same⟩))

theorem Fresh.snoc {d : Mark × String} (fresh : Fresh seed (ds ++ [d])) :
    Fresh seed ds ∧ (d.1 = .plain →
      ((∃ v ∈ seed.inputVariables, v.name = d.2) ∨ ∃ e ∈ ds, e.2 = d.2) → d.2 = "_") := by
  have pairs := List.pairwise_append.1 fresh.once
  constructor
  · exact ⟨pairs.1, fun e member => fresh.inputs e (List.mem_append_left _ member),
      fun e member => fresh.optionals e (List.mem_append_left _ member)⟩
  · rintro plain (⟨v, member, same⟩ | ⟨e, member, same⟩)
    · exact fresh.inputs d (List.mem_append_right _ (List.mem_singleton_self d)) plain
        (List.mem_map.2 ⟨v, member, same⟩)
    · exact same ▸ pairs.2.2 e member d (List.mem_singleton_self d) plain same

theorem Distinct.snoc {d : Mark × String} (distinct : Distinct seed ds)
    (declared : ((∃ v ∈ seed.inputVariables, v.name = d.2) ∨ ∃ e ∈ ds, e.2 = d.2) → d.2 = "_")
    (optionals : d.2 ∈ seed.optionalVariables.map Var.name → d.2 = "_") :
    Distinct seed (ds ++ [d]) := by
  constructor
  · apply List.pairwise_append.2
    refine ⟨distinct.once, List.pairwise_singleton _ _, ?_⟩
    intro e member last isLast same
    rw [List.mem_singleton.1 isLast] at same
    exact same.trans (declared (Or.inr ⟨e, member, same⟩))
  · intro e member
    rcases List.mem_append.1 member with earlier | last
    · exact distinct.new e earlier
    · rw [List.mem_singleton.1 last, List.map_append, List.mem_append]
      rintro (input | optional)
      · obtain ⟨v, isInput, same⟩ := List.mem_map.1 input
        exact declared (Or.inl ⟨v, isInput, same⟩)
      · exact optionals optional

theorem Distinct.fresh (distinct : Distinct seed ds) : Fresh seed ds := by
  constructor
  · exact distinct.once.imp fun once _ same => once same
  · intro d member _ input
    exact distinct.new d member (List.map_append ▸ List.mem_append_left _ input)
  · intro d member optional
    exact distinct.new d member (List.map_append ▸ List.mem_append_right _ optional)

theorem Fresh.collected (seeded : Seeded seed) (fresh : Fresh seed ds)
    (run : ds.foldlM (fun h d => h.declare d.1 d.2) ⟨seed, [], [], []⟩ = some h) :
    Collected seed ds h ∧ Distinct seed ds := by
  induction ds using List.reverseRecOn generalizing h with
  | nil =>
    cases run
    exact ⟨seeded.collected, List.Pairwise.nil, by simp only [List.not_mem_nil, false_imp_iff,
      implies_true]⟩
  | append_singleton ds d ih =>
    obtain ⟨earlier, plain⟩ := fresh.snoc
    simp only [List.foldlM_append, Option.bind_eq_bind, Option.bind_eq_some_iff] at run
    obtain ⟨before, run, last⟩ := run
    obtain ⟨collected, distinct⟩ := ih earlier run
    simp only [List.foldlM_cons, List.foldlM_nil, bind_pure] at last
    have takes := Header.takes_of_declare last fun isPlain =>
      collected.takes_iff.2 (plain isPlain)
    rw [Header.declare_eq takes] at last
    cases last
    exact ⟨collected.making d.1 d.2, distinct.snoc (collected.takes_iff.1 takes)
      (fresh.optionals d (List.mem_append_right _ (List.mem_singleton_self d)))⟩

theorem declareAll_eq_some {isLetter : Char → Bool} {tokens rest : List Token} {start : Header}
    (run : start.declareAll isLetter tokens = some (h, rest)) :
    ∃ ds, declarations isLetter tokens = some ds ∧
      ds.foldlM (fun h d => h.declare d.1 d.2) start = some h := by
  induction tokens generalizing start with
  | nil => cases run
  | cons token tokens ih =>
    cases token with
    | beginVariables | other => cases run
    | endVariables =>
      cases run
      exact ⟨[], rfl, rfl⟩
    | selector value =>
      simp only [Header.declareAll, Option.bind_eq_bind, Option.bind_eq_some_iff] at run
      obtain ⟨⟨mark, name⟩, declared, next, step, run⟩ := run
      obtain ⟨ds, read, steps⟩ := ih run
      refine ⟨(mark, name) :: ds, ?_, ?_⟩
      · simp only [declarations, declared, read, Option.bind_eq_bind, Option.bind_some]
      · simp only [List.foldlM_cons, step, Option.bind_eq_bind, Option.bind_some, steps]

end Declarations

section Finish

variable {seed : Block} {ds : List (Mark × String)} {h : Header}

theorem Collected.finish_inputs (collected : Collected seed ds h) :
    h.finish.inputVariables = seed.inputVariables ++ marked .input (created seed.next ds) := by
  simp only [Header.finish, collected.seedInputs, collected.inputs]

theorem Collected.finish_optionals (collected : Collected seed ds h) :
    h.finish.optionalVariables =
      seed.optionalVariables ++ marked .optional (created seed.next ds) := by
  simp only [Header.finish, collected.seedOptionals, collected.optionals]

theorem Collected.finish_keywords (collected : Collected seed ds h) :
    h.finish.optionalKeywords = seed.optionalKeywords ++
      (marked .optional (created seed.next ds)).map fun v => "&" ++ v.name := by
  simp only [Header.finish, collected.seedKeywords, collected.keywords]

theorem Collected.finish_rest (collected : Collected seed ds h) :
    h.finish.restVariable = (marked .rest (created seed.next ds)).getLast? := collected.rest

theorem Seeded.apart (seeded : Seeded seed) {v : Var} {made : Mark × Var}
    (seedVar : v ∈ seed.inputVariables ++ seed.optionalVariables)
    (member : made ∈ created seed.next ds) : v ≠ made.2 := by
  rintro rfl
  have below := seeded.below made.2 seedVar
  have range := created_number member
  omega

theorem created_mark {next : Nat} {mark m : Mark} {v : Var}
    (left : (mark, v) ∈ created next ds) (right : (m, v) ∈ created next ds) : mark = m :=
  congrArg Prod.fst (created_inj left right rfl)

theorem Collected.mem_inputs (seeded : Seeded seed) (collected : Collected seed ds h)
    {mark : Mark} {v : Var} (made : (mark, v) ∈ created seed.next ds) :
    v ∈ h.finish.inputVariables ↔ mark = .input := by
  rw [collected.finish_inputs, List.mem_append, mem_marked]
  constructor
  · rintro (seedVar | input)
    · exact absurd rfl (seeded.apart (List.mem_append_left _ seedVar) made)
    · exact created_mark made input
  · rintro rfl
    exact Or.inr made

theorem Collected.mem_optionals (seeded : Seeded seed) (collected : Collected seed ds h)
    {mark : Mark} {v : Var} (made : (mark, v) ∈ created seed.next ds) :
    v ∈ h.finish.optionalVariables ↔ mark = .optional := by
  rw [collected.finish_optionals, List.mem_append, mem_marked]
  constructor
  · rintro (seedVar | optional)
    · exact absurd rfl (seeded.apart (List.mem_append_right _ seedVar) made)
    · exact created_mark made optional
  · rintro rfl
    exact Or.inr made

theorem Collected.rest_mark (collected : Collected seed ds h) {v : Var}
    (rest : h.finish.restVariable = some v) : (.rest, v) ∈ created seed.next ds := by
  rw [collected.finish_rest] at rest
  exact mem_marked.1 (List.mem_of_getLast? rest)

theorem marked_nodup (mark : Mark) (next : Nat) (ds : List (Mark × String)) :
    (marked mark (created next ds)).Nodup := by
  have numbers : ((marked mark (created next ds)).map Var.number).Nodup := by
    rw [marked, List.map_map]
    exact (created_nodup next ds).sublist (List.filter_sublist.map _)
  exact numbers.of_map

theorem Collected.mem_dropLast_iff (collected : Collected seed ds h) {v : Var} :
    v ∈ (marked .rest (created seed.next ds)).dropLast ↔
      (.rest, v) ∈ created seed.next ds ∧ h.finish.restVariable ≠ some v := by
  rw [← mem_marked, collected.finish_rest]
  have nodup := marked_nodup .rest seed.next ds
  generalize marked .rest (created seed.next ds) = vs at nodup
  rcases List.eq_nil_or_concat vs with rfl | ⟨us, u, rfl⟩
  · simp only [List.dropLast_nil, List.not_mem_nil, false_and]
  · rw [List.concat_eq_append] at nodup ⊢
    have absent : u ∉ us := by
      have split := (List.nodup_append.1 nodup).2.2
      intro member
      exact split u member u (List.mem_singleton_self u) rfl
    simp only [List.dropLast_concat, List.getLast?_concat, List.mem_append, List.mem_singleton,
      ne_eq, Option.some.injEq]
    constructor
    · intro member
      exact ⟨Or.inl member, fun same => absent (same ▸ member)⟩
    · rintro ⟨member | rfl, other⟩
      · exact member
      · exact absurd rfl other

theorem Distinct.unnamed (distinct : Distinct seed ds) {u v : Mark × Var}
    (left : u ∈ created seed.next ds) (right : v ∈ created seed.next ds) (different : u ≠ v)
    (same : u.2.name = v.2.name) : v.2.name = "_" := by
  have pairs : (created seed.next ds).Pairwise fun a b => a.2.name = b.2.name → a.2.name = "_" := by
    have once := distinct.once
    rw [← created_names seed.next ds, List.pairwise_map] at once
    exact once
  have : Std.Symm fun a b : Mark × Var => a.2.name = b.2.name → a.2.name = "_" :=
    ⟨fun a b once equal => equal.trans (once equal.symm)⟩
  exact same.symm.trans (pairs.forall left right different same)

theorem mem_created_name (next : Nat) {mark : Mark} {name : String} :
    (mark, name) ∈ ds ↔ ∃ v, (mark, v) ∈ created next ds ∧ v.name = name := by
  conv_lhs => rw [← created_names next ds]
  simp only [List.mem_map, Prod.mk.injEq, Prod.exists]
  constructor
  · rintro ⟨m, v, made, rfl, named⟩
    exact ⟨v, made, named⟩
  · rintro ⟨v, made, named⟩
    exact ⟨mark, v, made, rfl, named⟩

theorem Collected.mem_given (collected : Collected seed ds h) {u : Var} :
    u ∈ h.finish.inputVariables ++ h.finish.optionalVariables ↔
      u ∈ seed.inputVariables ++ seed.optionalVariables ∨
        (.input, u) ∈ created seed.next ds ∨ (.optional, u) ∈ created seed.next ds := by
  rw [collected.finish_inputs, collected.finish_optionals]
  simp only [List.mem_append, mem_marked]
  tauto

theorem Collected.given_named (collected : Collected seed ds h) {name : String} :
    (∃ u ∈ h.finish.inputVariables ++ h.finish.optionalVariables, u.name = name) ↔
      name ∈ (seed.inputVariables ++ seed.optionalVariables).map Var.name ∨
        (.input, name) ∈ ds ∨ (.optional, name) ∈ ds := by
  simp only [collected.mem_given, List.mem_map, mem_created_name seed.next,
    or_and_right, exists_or]

theorem Collected.left_iff (seeded : Seeded seed) (collected : Collected seed ds h)
    (distinct : Distinct seed ds) :
    (∀ v ∈ (created seed.next ds).map Prod.snd, v ∉ h.finish.inputVariables →
      v ∉ h.finish.optionalVariables → h.finish.restVariable ≠ some v →
      ∀ u ∈ h.finish.inputVariables ++ h.finish.optionalVariables, u.name ≠ v.name) ↔
    UnnamedApart seed ds := by
  constructor
  · intro left unnamed
    obtain ⟨u, given, uNamed⟩ := collected.given_named.2 unnamed
    constructor
    · intro plain
      obtain ⟨v, made, vNamed⟩ := (mem_created_name seed.next).1 plain
      refine left v (List.mem_map.2 ⟨_, made, rfl⟩) ?_ ?_ ?_ u given (uNamed.trans vNamed.symm)
      · simp only [collected.mem_inputs seeded made, reduceCtorEq, not_false_eq_true]
      · simp only [collected.mem_optionals seeded made, reduceCtorEq, not_false_eq_true]
      · intro rest
        exact Mark.noConfusion (created_mark made (collected.rest_mark rest))
    · intro rest
      rw [← marked_names .rest seed.next ds, ← List.map_dropLast] at rest
      obtain ⟨v, replaced, vNamed⟩ := List.mem_map.1 rest
      obtain ⟨made, other⟩ := collected.mem_dropLast_iff.1 replaced
      refine left v (List.mem_map.2 ⟨_, made, rfl⟩) ?_ ?_ other u given
        (uNamed.trans (congrArg Prod.snd vNamed).symm)
      · simp only [collected.mem_inputs seeded made, reduceCtorEq, not_false_eq_true]
      · simp only [collected.mem_optionals seeded made, reduceCtorEq, not_false_eq_true]
  · intro apart v member notInput notOptional notRest u given same
    obtain ⟨⟨mark, v⟩, made, rfl⟩ := List.mem_map.1 member
    rw [collected.mem_inputs seeded made] at notInput
    rw [collected.mem_optionals seeded made] at notOptional
    have vNamed : v.name = "_" := by
      rcases collected.mem_given.1 given with seedVar | input | optional
      · exact distinct.new _ ((mem_created_name seed.next).2 ⟨v, made, rfl⟩)
          (List.mem_map.2 ⟨u, seedVar, same⟩)
      · exact distinct.unnamed input made
          (fun equal => notInput (congrArg Prod.fst equal).symm) same
      · exact distinct.unnamed optional made
          (fun equal => notOptional (congrArg Prod.fst equal).symm) same
    obtain ⟨plain, rest⟩ := apart (collected.given_named.1 ⟨u, given, same.trans vNamed⟩)
    cases mark with
    | input => exact notInput rfl
    | optional => exact notOptional rfl
    | plain => exact plain ((mem_created_name seed.next).2 ⟨v, made, vNamed⟩)
    | rest =>
      apply rest
      rw [← marked_names .rest seed.next ds, ← List.map_dropLast]
      exact List.mem_map.2 ⟨v, collected.mem_dropLast_iff.2 ⟨made, notRest⟩,
        congrArg (Prod.mk Mark.rest) vNamed⟩

theorem includes_eq_true {vs : List Var} {v : Var} :
    Header.includes vs v = true ↔ ∃ u ∈ vs, u.name = v.name := by
  simp only [Header.includes, List.any_eq_true, decide_eq_true_eq]

theorem not_includes {vs : List Var} {v : Var} :
    (!Header.includes vs v) = true ↔ ∀ u ∈ vs, u.name ≠ v.name := by
  rw [Bool.not_eq_true', ← Bool.not_eq_true, includes_eq_true, not_exists]
  simp only [not_and, ne_eq]

theorem filter_eq_iff {α : Type} {p q : α → Bool} {xs : List α}
    (stronger : ∀ x ∈ xs, p x = true → q x = true) :
    xs.filter p = xs.filter q ↔ ∀ x ∈ xs, q x = true → p x = true := by
  constructor
  · intro same x member holds
    have kept : x ∈ xs.filter p := same ▸ List.mem_filter.2 ⟨member, holds⟩
    exact (List.mem_filter.1 kept).2
  · intro weaker
    apply List.filter_congr
    intro x member
    exact Bool.eq_iff_iff.2 ⟨stronger x member, weaker x member⟩

theorem Collected.others_iff (seeded : Seeded seed) (collected : Collected seed ds h)
    (distinct : Distinct seed ds) :
    h.finish.locals = h.finish.inputVariables ++ h.finish.optionalVariables ++
      h.finish.restVariable.toList ++ (((created seed.next ds).map Prod.snd).filter fun v =>
        v ∉ h.finish.inputVariables ∧ v ∉ h.finish.optionalVariables ∧
          h.finish.restVariable ≠ some v) ↔
    UnnamedApart seed ds := by
  have locals : h.finish.locals = h.finish.inputVariables ++ h.finish.optionalVariables ++
      h.finish.restVariable.toList ++ (((created seed.next ds).map Prod.snd).filter fun v =>
        !Header.includes h.finish.inputVariables v ∧ !Header.includes h.finish.optionalVariables v ∧
          h.finish.restVariable ≠ some v) := by
    have seedInputs : seed.inputVariables.filter (fun v =>
        !Header.includes h.finish.inputVariables v ∧ !Header.includes h.finish.optionalVariables v ∧
          h.finish.restVariable ≠ some v) = [] := by
      apply List.filter_eq_nil_iff.2
      intro v member
      have included : Header.includes h.finish.inputVariables v = true :=
        includes_eq_true.2
          ⟨v, collected.finish_inputs ▸ List.mem_append_left _ member, rfl⟩
      simp only [included, Bool.not_true, Bool.false_eq_true, false_and, decide_false,
        not_false_eq_true]
    have split := congrArg (fun vs => h.finish.inputVariables ++ h.finish.optionalVariables ++
      h.finish.restVariable.toList ++ vs.filter fun v =>
        !Header.includes h.finish.inputVariables v ∧ !Header.includes h.finish.optionalVariables v ∧
          h.finish.restVariable ≠ some v) collected.locals
    simp only [List.filter_append, seedInputs, List.nil_append] at split
    exact split
  rw [locals, List.append_cancel_left_eq, filter_eq_iff]
  · rw [← collected.left_iff seeded distinct]
    simp only [decide_eq_true_eq, not_includes, List.forall_mem_append]
    constructor
    · intro kept v member notInput notOptional notRest
      obtain ⟨inputs, optionals, _⟩ := kept v member ⟨notInput, notOptional, notRest⟩
      exact ⟨inputs, optionals⟩
    · rintro left v member ⟨notInput, notOptional, notRest⟩
      obtain ⟨inputs, optionals⟩ := left v member notInput notOptional notRest
      exact ⟨inputs, optionals, notRest⟩
  · intro v _
    simp only [decide_eq_true_eq, not_includes]
    rintro ⟨inputs, optionals, notRest⟩
    exact ⟨fun input => inputs v input rfl, fun optional => optionals v optional rfl, notRest⟩

theorem Collected.given_nodup (seeded : Seeded seed) (collected : Collected seed ds h) :
    (h.finish.inputVariables ++ h.finish.optionalVariables).Nodup := by
  have seedNodup : (seed.inputVariables ++ seed.optionalVariables).Nodup :=
    seeded.distinct.of_map
  have seedSplit := List.nodup_append.1 seedNodup
  rw [collected.finish_inputs, collected.finish_optionals]
  simp only [List.nodup_append, List.mem_append, mem_marked]
  refine ⟨⟨seedSplit.1, marked_nodup _ _ _, ?_⟩, ⟨seedSplit.2.1, marked_nodup _ _ _, ?_⟩, ?_⟩
  · intro u seedVar v made
    exact seeded.apart (List.mem_append_left _ seedVar) made
  · intro u seedVar v made
    exact seeded.apart (List.mem_append_right _ seedVar) made
  · rintro u (seedInput | input) v (seedOptional | optional)
    · exact seedSplit.2.2 u seedInput v seedOptional
    · exact seeded.apart (List.mem_append_left _ seedInput) optional
    · exact (seeded.apart (List.mem_append_right _ seedOptional) input).symm
    · rintro rfl
      exact Mark.noConfusion (created_mark input optional)

theorem Seeded.numbers_nodup (seeded : Seeded seed) (ds : List (Mark × String)) :
    (((seed.inputVariables ++ seed.optionalVariables) ++
      (created seed.next ds).map Prod.snd).map Var.number).Nodup := by
  rw [List.map_append, List.nodup_append, List.map_map]
  refine ⟨seeded.distinct, created_nodup seed.next ds, ?_⟩
  simp only [List.mem_map, Function.comp_apply]
  rintro _ ⟨u, seedVar, rfl⟩ _ ⟨v, made, rfl⟩
  have below := seeded.below u seedVar
  have range := created_number made
  omega

theorem Collected.layout (seeded : Seeded seed) (collected : Collected seed ds h)
    (locals : h.finish.locals = h.finish.inputVariables ++ h.finish.optionalVariables ++
      h.finish.restVariable.toList ++ (((created seed.next ds).map Prod.snd).filter fun v =>
        v ∉ h.finish.inputVariables ∧ v ∉ h.finish.optionalVariables ∧
          h.finish.restVariable ≠ some v))
    (parallel : seed.optionalKeywords.length = seed.optionalVariables.length) :
    Layout h.finish := by
  have source : ∀ v ∈ h.finish.locals, v ∈ (seed.inputVariables ++ seed.optionalVariables) ++
      (created seed.next ds).map Prod.snd := by
    intro v member
    rw [locals, List.mem_append, List.mem_append, collected.mem_given] at member
    rw [List.mem_append]
    rcases member with ((seedVar | input | optional) | rest) | other
    · exact Or.inl seedVar
    · exact Or.inr (List.mem_map.2 ⟨_, input, rfl⟩)
    · exact Or.inr (List.mem_map.2 ⟨_, optional, rfl⟩)
    · exact Or.inr (List.mem_map.2 ⟨_, collected.rest_mark (Option.mem_toList.1 rest), rfl⟩)
    · exact Or.inr (List.mem_filter.1 other).1
  constructor
  · exact ⟨_, locals⟩
  · have nodup : h.finish.locals.Nodup := by
      rw [locals, List.nodup_append, List.nodup_append]
      refine ⟨⟨collected.given_nodup seeded, ?_, ?_⟩, ?_, ?_⟩
      · cases h.finish.restVariable with
        | none => exact List.nodup_nil
        | some r => exact List.nodup_singleton r
      · rintro u given v rest rfl
        have made := collected.rest_mark (Option.mem_toList.1 rest)
        rcases List.mem_append.1 given with input | optional
        · exact Mark.noConfusion ((collected.mem_inputs seeded made).1 input)
        · exact Mark.noConfusion ((collected.mem_optionals seeded made).1 optional)
      · exact (List.nodup_append.1 (seeded.numbers_nodup ds).of_map).2.1.filter _
      · rintro u earlier v left rfl
        simp only [List.mem_filter, decide_eq_true_eq] at left
        obtain ⟨_, notInput, notOptional, notRest⟩ := left
        rcases List.mem_append.1 earlier with given | rest
        · rcases List.mem_append.1 given with input | optional
          · exact notInput input
          · exact notOptional optional
        · exact notRest (Option.mem_toList.1 rest)
    apply nodup.map_on
    intro u uLocal v vLocal same
    exact List.inj_on_of_nodup_map (seeded.numbers_nodup ds) (source u uLocal)
      (source v vLocal) same
  · rw [collected.finish_keywords, collected.finish_optionals, List.length_append,
      List.length_append, List.length_map, parallel]
  · intro v member
    have next : h.finish.next = seed.next + ds.length := collected.next
    rw [next]
    rcases List.mem_append.1 (source v member) with seedVar | made
    · have below := seeded.below v seedVar
      omega
    · obtain ⟨_, declared, rfl⟩ := List.mem_map.1 made
      exact (created_number declared).2

theorem header_iff (seeded : Seeded seed)
    (run : ds.foldlM (fun h d => h.declare d.1 d.2) ⟨seed, [], [], []⟩ = some h) :
    Distinct seed ds ∧ LaidOut seed ds h.finish ↔
      Fresh seed ds ∧ UnnamedApart seed ds ∧
        seed.optionalKeywords.length = seed.optionalVariables.length := by
  constructor
  · rintro ⟨distinct, laidOut⟩
    obtain ⟨collected, _⟩ := distinct.fresh.collected seeded run
    have parallel := laidOut.layout.parallel
    rw [laidOut.keywords, laidOut.optionals, List.length_append, List.length_append,
      List.length_map] at parallel
    exact ⟨distinct.fresh, (collected.others_iff seeded distinct).1 laidOut.others,
      Nat.add_right_cancel parallel⟩
  · rintro ⟨fresh, apart, parallel⟩
    obtain ⟨collected, distinct⟩ := fresh.collected seeded run
    have others := (collected.others_iff seeded distinct).2 apart
    exact ⟨distinct, collected.layout seeded others parallel, collected.finish_inputs,
      collected.finish_optionals, collected.finish_keywords, collected.finish_rest, others⟩

theorem nextBlock_eq_some {isLetter : Char → Bool} {block : Block} {tokens rest : List Token}
    (run : nextBlock isLetter seed tokens = some (block, rest)) :
    ∃ (ds : List (Mark × String)) (h : Header),
      headerOf isLetter tokens = some ds ∧ block = h.finish ∧
      ds.foldlM (fun h d => h.declare d.1 d.2) ⟨seed, [], [], []⟩ = some h := by
  rcases tokens with _ | ⟨token, tokens⟩
  · cases run
    exact ⟨[], _, rfl, rfl, rfl⟩
  · cases token with
    | selector value =>
      cases run
      exact ⟨[], _, rfl, rfl, rfl⟩
    | endVariables | other =>
      cases run
      exact ⟨[], _, rfl, rfl, rfl⟩
    | beginVariables =>
      simp only [nextBlock, Option.bind_eq_bind, Option.bind_eq_some_iff, Prod.exists,
        Option.some.injEq, Prod.mk.injEq] at run
      obtain ⟨h, tokens', declared, rfl, rfl⟩ := run
      obtain ⟨ds, read, steps⟩ := declareAll_eq_some declared
      exact ⟨ds, h, read, rfl, steps⟩

end Finish

end SlateVm.Syntax
