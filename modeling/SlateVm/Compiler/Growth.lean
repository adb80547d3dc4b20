import SlateVm.Compiler.Inlining
import SlateVm.Lib.Programs
import Mathlib.Data.List.Forall2

/-! What generation adds to the code. It begins with an instruction, and where nothing is added the
answer is no register. -/
namespace SlateVm.Compiler
open Generator Programs

def Opens (code : List Element) : Prop := ∃ i, code.head? = some (.instruction i)

theorem Opens.append {code : List Element} (opens : Opens code) (rest : List Element) :
    Opens (code ++ rest) := by
  obtain ⟨i, first⟩ := opens
  exact ⟨i, List.head?_append_of_ne_nil code (by rintro rfl; cases first) ▸ first⟩

structure Context.Grows (c c' : Context) : Prop where
  method : c'.method = c.method
  code : ∃ added, c'.code = c.code ++ added ∧ (added = [] ∨ Opens added)
  relocations : ∃ added, c'.relocations = added ++ c.relocations ∧ ∀ r ∈ added, c.code.length < r.1

theorem Context.Grows.still {c c' : Context} (method : c'.method = c.method)
    (code : c'.code = c.code) (relocations : c'.relocations = c.relocations) : c.Grows c' :=
  ⟨method, ⟨[], by rw [code, List.append_nil], .inl rfl⟩, [], relocations, fun _ none => nomatch none⟩

theorem Context.Grows.size {c c' : Context} (grows : c.Grows c') :
    c.code.length ≤ c'.code.length := by
  obtain ⟨added, same, _⟩ := grows.code
  rw [same, List.length_append]
  exact Nat.le_add_right _ _

theorem Context.Grows.refl (c : Context) : c.Grows c := .still rfl rfl rfl

theorem Context.Grows.trans {a b c : Context} (before : a.Grows b) (after : b.Grows c) :
    a.Grows c where
  method := after.method.trans before.method
  code := by
    obtain ⟨first, here, opens⟩ := before.code
    obtain ⟨second, there, opens'⟩ := after.code
    refine ⟨first ++ second, by rw [there, here, List.append_assoc], ?_⟩
    rcases opens with rfl | opens
    · exact opens'
    · exact .inr (opens.append second)
  relocations := by
    obtain ⟨first, here, behind⟩ := before.relocations
    obtain ⟨second, there, behind'⟩ := after.relocations
    refine ⟨second ++ first, by rw [there, here, List.append_assoc], fun r mem => ?_⟩
    rcases List.mem_append.mp mem with mem | mem
    · exact Nat.lt_of_le_of_lt before.size (behind' r mem)
    · exact behind r mem

namespace Generator

def Finished (gen : Generator) : Prop :=
  ∀ i m, gen.methods[i]? = some m → (∃ c ∈ gen.contexts, c.method = i) ∨ Opens m.code

structure Grows (s s' : Generator) : Prop where
  contexts : List.Forall₂ Context.Grows s.contexts s'.contexts
  methods : s.methods.length ≤ s'.methods.length
  finished : s.Finished → s'.Finished

instance : Std.Refl Grows where
  refl _ := ⟨List.forall₂_same.mpr fun c _ => .refl c, Nat.le_refl _, id⟩

theorem forall₂_trans {α : Type} {R : α → α → Prop}
    (step : ∀ a b c, R a b → R b c → R a c) {xs ys zs : List α}
    (before : List.Forall₂ R xs ys) (after : List.Forall₂ R ys zs) : List.Forall₂ R xs zs := by
  induction before generalizing zs with
  | nil => exact after
  | cons here _ ih =>
    cases after with
    | cons there rest => exact .cons (step _ _ _ here there) (ih rest)

instance : IsTrans Generator Grows where
  trans _ _ _ before after :=
    ⟨forall₂_trans (fun _ _ _ here there => here.trans there) before.contexts after.contexts,
      Nat.le_trans before.methods after.methods, fun finished => after.finished (before.finished finished)⟩

def topSize (gen : Generator) : Nat := (gen.contexts.head?.map fun c => c.code.length).getD 0

theorem Grows.topSize {s s' : Generator} (grows : Grows s s') : s.topSize ≤ s'.topSize := by
  have contexts := grows.contexts
  unfold Generator.topSize
  cases inner : s.contexts with
  | nil => exact Nat.zero_le _
  | cons c rest =>
    cases outer : s'.contexts with
    | nil =>
      rw [inner, outer] at contexts
      cases contexts
    | cons c' rest' =>
      rw [inner, outer] at contexts
      cases contexts with
      | cons here _ => exact here.size

theorem Grows.nonempty {s s' : Generator} (grows : Grows s s') (some : s.contexts ≠ []) :
    s'.contexts ≠ [] := by
  intro none
  have contexts := grows.contexts
  rw [none] at contexts
  exact some (List.forall₂_nil_right_iff.mp contexts)

structure Emits (s s' : Generator) : Prop extends Grows s s' where
  more : s.contexts ≠ [] → s.topSize < s'.topSize

structure Generates (s : Generator) (a : Operand) (s' : Generator) : Prop extends Grows s s' where
  answers : (s.contexts ≠ [] → s.topSize < s'.topSize) ∨ ∀ n, a ≠ .register n

theorem Grows.generates {s t s' : Generator} {a : Operand} (before : Grows s t)
    (after : Generates t a s') : Generates s a s' :=
  ⟨trans_of Grows before after.toGrows, after.answers.imp_left fun more some =>
    Nat.lt_of_le_of_lt before.topSize (more (before.nonempty some))⟩

end Generator

section Rules

variable {α β : Type} {m : Gen α} {f : α → Gen β}

theorem Generator.Emits.after (first : Through Grows m) (next : ∀ a, Through Emits (f a)) :
    Through Emits (m >>= f) :=
  Ensures.bind first next fun _ _ _ _ _ before after =>
    ⟨trans_of Grows before after.toGrows, fun some =>
      Nat.lt_of_le_of_lt before.topSize (after.more (before.nonempty some))⟩

theorem Generator.Emits.before (first : Through Emits m) (next : ∀ a, Through Grows (f a)) :
    Through Emits (m >>= f) :=
  Ensures.bind first next fun _ _ _ _ _ before after =>
    ⟨trans_of Grows before.toGrows after, fun some =>
      Nat.lt_of_lt_of_le (before.more some) after.topSize⟩

theorem Generator.Emits.through (emits : Through Emits m) : Through Grows m :=
  emits.mono fun _ _ _ emits => emits.toGrows

theorem Generator.Emits.generates {m : Gen Operand} (emits : Through Emits m) : Ensures Generates m :=
  emits.mono fun _ _ _ emits => ⟨emits.toGrows, .inl emits.more⟩

theorem Generator.Generates.through {m : Gen Operand} (generates : Ensures Generates m) : Through Grows m :=
  generates.mono fun _ _ _ generates => generates.toGrows

theorem Generator.Generates.after {f : α → Gen Operand} (first : Through Grows m)
    (next : ∀ a, Ensures Generates (f a)) : Ensures Generates (m >>= f) :=
  Ensures.bind first next fun _ _ _ _ _ before after => before.generates after

theorem Generator.Generates.before {m : Gen Operand} {n : Gen Unit}
    (generates : Ensures Generates m) (rest : Through Grows n) :
    Ensures Generates (do let a ← m; n; pure a) := by
  intro s a s' run
  obtain ⟨b, t, first, run⟩ := run_bind_ok.mp run
  obtain ⟨_, t', next, run⟩ := run_bind_ok.mp run
  cases run
  have here := generates s a t first
  have after : Grows t s' := rest t _ s' next
  exact ⟨trans_of Grows here.toGrows after, here.answers.imp_left fun more some =>
    Nat.lt_of_lt_of_le (more some) after.topSize⟩

end Rules

section Primitives

theorem grows_modifyHead {s : Generator} {f : Context → Context}
    (grows : ∀ c : Context, c.Grows (f c)) :
    Grows s { s with contexts := s.contexts.modifyHead f } := by
  refine ⟨?_, Nat.le_refl _, ?_⟩
  · cases s.contexts with
    | nil => exact .nil
    | cons c rest => exact .cons (grows c) (List.forall₂_same.mpr fun c _ => .refl c)
  · intro finished i m here
    refine (finished i m here).imp_left ?_
    rintro ⟨c, mem, rfl⟩
    dsimp only
    cases inner : s.contexts with
    | nil => simp [inner] at mem
    | cons top rest =>
      rw [inner] at mem
      rcases List.mem_cons.mp mem with rfl | mem
      · exact ⟨f c, List.mem_cons_self .., (grows c).method⟩
      · exact ⟨c, List.mem_cons_of_mem _ mem, rfl⟩

theorem modifyContext_grows {f : Context → Context} (grows : ∀ c : Context, c.Grows (f c)) :
    Through Grows (modifyContext f) :=
  Ensures.modify fun _ => grows_modifyHead grows

theorem orSignal_grows {α : Type} (signal : Signal) (value : Option α) :
    Through Grows (orSignal signal value) := by
  cases value with
  | none => exact .throw signal
  | some a => exact .pure a

theorem argument_grows (args : List Node) (index : Nat) : Through Grows (argument args index) :=
  orSignal_grows _ _

theorem currentContext_grows : Through Grows currentContext :=
  .bind .get fun _ => orSignal_grows _ _

theorem currentMethod_grows : Through Grows currentMethod :=
  .bind .get fun _ => .bind currentContext_grows fun _ => orSignal_grows _ _

theorem newRegister_grows : Through Grows newRegister := by
  refine .bind (modifyContext_grows fun c => ?_) fun _ => .bind currentContext_grows fun _ => .pure _
  exact .still rfl rfl rfl

theorem defaultRegister_grows (result : Option Operand) : Through Grows (defaultRegister result) := by
  unfold defaultRegister
  split
  · exact newRegister_grows
  · exact newRegister_grows
  · exact .pure _

theorem newLabelIndex_grows : Through Grows newLabelIndex := by
  refine .bind (modifyContext_grows fun c => ?_) fun _ => .bind currentContext_grows fun _ => .pure _
  exact .still rfl rfl rfl

theorem emitLabelIndex_grows (label : Nat) : Through Grows (emitLabelIndex label) :=
  modifyContext_grows fun _ => .still rfl rfl rfl

theorem emitLabel_grows : Through Grows emitLabel :=
  .bind newLabelIndex_grows fun label => .bind (emitLabelIndex_grows label) fun _ => .pure _

section Adding

def Generator.adding (gen : Generator) (values : List Element) : Generator :=
  { gen with contexts := gen.contexts.modifyHead fun c => { c with code := c.code ++ values } }

theorem adding_nil (s : Generator) : s.adding [] = s := by
  cases s with
  | mk contexts methods scopes nextScope emissions =>
    cases contexts with
    | nil => rfl
    | cons c rest => simp [Generator.adding]

theorem adding_append (s : Generator) (first second : List Element) :
    s.adding (first ++ second) = (s.adding first).adding second := by
  cases s with
  | mk contexts methods scopes nextScope emissions =>
    cases contexts with
    | nil => rfl
    | cons c rest => simp [Generator.adding]

theorem emitObject_run (value : Element) (s : Generator) :
    (emitObject value).run s = .ok ((), s.adding [value]) := rfl

theorem emitObjects_run (values : List Element) (s : Generator) :
    (values.forM emitObject).run s = .ok ((), s.adding values) := by
  induction values generalizing s with
  | nil => rw [adding_nil]; rfl
  | cons v values ih =>
    show (emitObject v >>= fun _ => values.forM emitObject).run s = _
    rw [run_bind_ok]
    refine ⟨(), _, emitObject_run v s, ?_⟩
    rw [ih, ← adding_append, List.singleton_append]

def Generator.recorded (gen : Generator) (code : Nat) (values : List Element) (source : Node) :
    Generator :=
  { gen with emissions := gen.emissions ++
    [⟨gen.contexts.map Context.method, gen.around, code, values, source⟩] }

theorem emit_run {code : Nat} {values : List Element} {source : Node} {s s' : Generator} {u : Unit}
    (run : (emit code values source).run s = .ok (u, s')) :
    ∃ i, byCode code = some i ∧
      s' = (s.recorded code values source).adding (.instruction i :: values) := by
  obtain ⟨i, t, found, run⟩ := run_bind_ok.mp run
  cases here : byCode code with
  | none =>
    rw [here] at found
    cases found
  | some j =>
    rw [here] at found
    cases found
    refine ⟨i, rfl, ?_⟩
    obtain ⟨_, _, recorded, run⟩ := run_bind_ok.mp run
    cases recorded
    obtain ⟨_, _, opened, run⟩ := run_bind_ok.mp run
    cases opened
    rw [emitObjects_run] at run
    cases run
    exact (adding_append _ [.instruction i] values).symm

theorem emits_adding {s : Generator} (i : Instruction) (values : List Element) :
    Emits s (s.adding (.instruction i :: values)) := by
  refine ⟨grows_modifyHead fun c => ⟨rfl, ⟨_, rfl, .inr ⟨i, rfl⟩⟩, [], rfl, fun _ none => nomatch none⟩, fun some => ?_⟩
  cases here : s.contexts with
  | nil => exact absurd here some
  | cons c rest => simp [topSize, Generator.adding, here]

theorem recorded_grows (s : Generator) (code : Nat) (values : List Element) (source : Node) :
    Grows s (s.recorded code values source) :=
  ⟨List.forall₂_same.mpr fun c _ => .refl c, Nat.le_refl _, id⟩

theorem emit_emits (code : Nat) (values : List Element) (source : Node) :
    Through Emits (emit code values source) := by
  intro s u s' run
  obtain ⟨i, _, rfl⟩ := emit_run run
  have emits := @emits_adding (s.recorded code values source) i values
  exact ⟨trans_of Grows (recorded_grows ..) emits.toGrows, emits.more⟩

end Adding

def Context.branching (c : Context) (i : Instruction) (values : List Element) (label : Nat) :
    Context :=
  { c with
    code := c.code ++ .instruction i :: (values ++ [.number 0])
    relocations := ((c.code ++ .instruction i :: values).length, label) :: c.relocations }

theorem Context.branching_grows (c : Context) (i : Instruction) (values : List Element)
    (label : Nat) : c.Grows (c.branching i values label) where
  method := rfl
  code := ⟨_, rfl, .inr ⟨i, rfl⟩⟩
  relocations := by
    refine ⟨[_], rfl, fun r mem => ?_⟩
    rw [List.mem_singleton] at mem
    subst mem
    rw [List.length_append, List.length_cons]
    exact Nat.lt_add_of_pos_right (Nat.succ_pos _)

theorem emitBranchIf_run {wanted : Bool} {condition : Operand} {label : Nat} {node : Node}
    {s s' : Generator} {u : Unit}
    (run : (emitBranchIf wanted condition label node).run s = .ok (u, s')) :
    ∃ i, byCode (if wanted then branchIfTrue else branchIfFalse) = some i ∧
      s' = { s.recorded (if wanted then branchIfTrue else branchIfFalse) [.operand condition] node with
        contexts := s.contexts.modifyHead fun c => c.branching i [.operand condition] label } := by
  obtain ⟨_, t, first, run⟩ := run_bind_ok.mp run
  obtain ⟨i, found, rfl⟩ := emit_run first
  obtain ⟨_, _, relocated, run⟩ := run_bind_ok.mp run
  cases relocated
  rw [emitObject_run] at run
  cases run
  refine ⟨i, found, ?_⟩
  cases s with
  | mk contexts methods scopes nextScope emissions =>
    cases contexts with
    | nil => rfl
    | cons c rest =>
      simp [Generator.adding, Generator.recorded, Generator.around, Context.branching]

theorem emitBranchIf_emits (wanted : Bool) (condition : Operand) (label : Nat) (node : Node) :
    Through Emits (emitBranchIf wanted condition label node) := by
  intro s u s' run
  obtain ⟨i, _, rfl⟩ := emitBranchIf_run run
  have grows := @grows_modifyHead s _ fun c => c.branching_grows i [.operand condition] label
  refine ⟨⟨grows.contexts, Nat.le_refl _, grows.finished⟩, fun some => ?_⟩
  cases here : s.contexts with
  | nil => exact absurd here some
  | cons c rest => simp [topSize, Context.branching, here]

theorem registerFor_emits (obj : Literal) (source : Node) (result : Option Operand) :
    Through Emits (registerFor obj source result) := by
  refine .after (defaultRegister_grows result) fun result => ?_
  exact .before (emit_emits _ _ _) fun _ => .pure result

theorem registerFor_grows (obj : Literal) (source : Node) (result : Option Operand) :
    Through Grows (registerFor obj source result) :=
  Emits.through (registerFor_emits obj source result)

theorem heapAllocate_grows (lexOffset : Nat) : Through Grows (heapAllocate lexOffset) := by
  refine .bind .get fun _ => .bind (orSignal_grows _ _) fun context => Ensures.modify fun s => ?_
  refine ⟨List.forall₂_same.mpr fun c _ => .refl c, ?_, fun finished i m here => ?_⟩
  · exact Nat.le_of_eq (List.length_modify ..).symm
  rw [List.getElem?_modify, Option.map_eq_map, Option.map_eq_some_iff] at here
  obtain ⟨m', here, rfl⟩ := here
  refine (finished i m' here).imp_right fun opens => ?_
  split
  · exact opens
  · exact opens

theorem beClosures_grows (lexOffset : Nat) : Through Grows (beClosures lexOffset) := by
  refine Ensures.modify fun s => ⟨?_, Nat.le_refl _, fun finished i m here => ?_⟩
  · dsimp only
    nth_rewrite 1 [← List.take_append_drop lexOffset s.contexts]
    refine List.rel_append (List.forall₂_map_right_iff.mpr ?_) ?_
    · exact List.forall₂_same.mpr fun c _ => .still rfl rfl rfl
    · exact List.forall₂_same.mpr fun c _ => .refl c
  · refine (finished i m here).imp_left ?_
    rintro ⟨c, mem, rfl⟩
    rw [← List.take_append_drop lexOffset s.contexts] at mem
    rcases List.mem_append.mp mem with inner | outer
    · exact ⟨_, List.mem_append_left _ (List.mem_map_of_mem inner), rfl⟩
    · exact ⟨c, List.mem_append_right _ outer, rfl⟩

theorem reach_grows (lexOffset : Nat) : Through Grows (reach lexOffset) :=
  .bind (heapAllocate_grows lexOffset) fun _ => beClosures_grows lexOffset

theorem modifyScopes_grows {f : Generator → Generator}
    (contexts : ∀ s, (f s).contexts = s.contexts) (methods : ∀ s, (f s).methods = s.methods) :
    Through Grows (modify f : Gen Unit) := by
  refine Ensures.modify fun s => ⟨?_, Nat.le_of_eq (by rw [methods]), fun finished i m here => ?_⟩
  · rw [contexts]
    exact List.forall₂_same.mpr fun c _ => .refl c
  · rw [methods] at here
    rw [contexts]
    exact finished i m here

theorem addVariable_grows (id : ScopeId) : Through Grows (addVariable id) := by
  refine .bind .get fun _ => .bind (orSignal_grows _ _) fun _ => ?_
  exact .bind (modifyScopes_grows (fun _ => rfl) fun _ => rfl) fun _ => .pure _

theorem newBlock_grows (parent : ScopeId) (inputs : Nat) :
    Through Grows (newBlock parent inputs) := by
  refine .bind .get fun _ => .bind .get fun _ => ?_
  refine .bind (modifyScopes_grows (fun _ => rfl) fun _ => rfl) fun _ => ?_
  refine .bind (.forM _ fun _ _ => ?_) fun _ => .pure _
  refine .bind .get fun _ => .bind (orSignal_grows _ _) fun _ => ?_
  exact modifyScopes_grows (fun _ => rfl) fun _ => rfl

end Primitives

end SlateVm.Compiler
