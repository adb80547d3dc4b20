import Mathlib.Tactic.Common

/-! An object with operations beside the abstract object it implements. An operation of
the concrete object may fail; whether its answer is right, and what it makes of the
abstract state, the specification says. -/
namespace Refinement

variable {σ μ ω α : Type}

/-- What operations do: the concrete step, the abstract step for the answer given, and
the answers that are right in an abstract state. -/
structure Implementation (σ μ ω α : Type) where
  start : σ → μ → Prop
  perform : σ → ω → Option (σ × α)
  next : μ → ω → α → μ
  right : μ → ω → α → Prop

/-- The states after runs of operations that `allowed` admits in the state before them. -/
inductive Reached (i : Implementation σ μ ω α) (allowed : σ → ω → Prop) : σ → μ → Prop where
  | start {s : σ} {m : μ} : i.start s m → Reached i allowed s m
  | step {s s' : σ} {m : μ} {o : ω} {a : α} : Reached i allowed s m → allowed s o →
      i.perform s o = some (s', a) → Reached i allowed s' (i.next m o a)

/-- Every reached state shows what `shows` asks for, and every admitted operation on it
ends with a right answer. -/
def Refines (i : Implementation σ μ ω α) (allowed : σ → ω → Prop) (shows : σ → μ → Prop) :
    Prop :=
  ∀ s m, Reached i allowed s m → shows s m ∧
    ∀ o, allowed s o → ∃ s' a, i.perform s o = some (s', a) ∧ i.right m o a

theorem Reached.invariant {i : Implementation σ μ ω α} {allowed : σ → ω → Prop}
    {keeps : σ → μ → Prop} (first : ∀ s m, i.start s m → keeps s m)
    (step : ∀ s m o s' a, keeps s m → allowed s o → i.perform s o = some (s', a) →
      keeps s' (i.next m o a)) {s : σ} {m : μ} (reached : Reached i allowed s m) : keeps s m := by
  induction reached with
  | start here => exact first _ _ here
  | step _ admitted run ih => exact step _ _ _ _ _ ih admitted run

/-- One operation on a state that keeps the invariant. -/
def Step (i : Implementation σ μ ω α) (keeps : σ → μ → Prop) (s : σ) (m : μ) (o : ω) : Prop :=
  ∃ s' a, i.perform s o = some (s', a) ∧ i.right m o a ∧ keeps s' (i.next m o a)

theorem Refines.of_steps {i : Implementation σ μ ω α} {allowed : σ → ω → Prop}
    {shows : σ → μ → Prop} (keeps : σ → μ → Prop) (first : ∀ s m, i.start s m → keeps s m)
    (step : ∀ s m o, keeps s m → allowed s o → Step i keeps s m o)
    (visible : ∀ s m, keeps s m → shows s m) : Refines i allowed shows := by
  intro s m reached
  have kept : keeps s m := by
    apply reached.invariant first
    intro s m o s' a held admitted run
    obtain ⟨t, b, run', _, after⟩ := step s m o held admitted
    cases run.symm.trans run'
    exact after
  constructor
  · exact visible s m kept
  · intro o admitted
    obtain ⟨s', a, run, right, _⟩ := step s m o kept admitted
    exact ⟨s', a, run, right⟩

/-- Two objects that implement one abstract object, with the same operations performed on both. -/
def Implementation.both {τ : Type} (i : Implementation σ μ ω Unit) (j : Implementation τ μ ω Unit) :
    Implementation (σ × τ) μ ω Unit where
  start st m := i.start st.1 m ∧ j.start st.2 m
  perform st o := do
    let (s, _) ← i.perform st.1 o
    let (t, _) ← j.perform st.2 o
    some ((s, t), ())
  next := i.next
  right m o a := i.right m o a ∧ j.right m o a

theorem Refines.both {τ : Type} {i : Implementation σ μ ω Unit} {j : Implementation τ μ ω Unit}
    {allowedI : σ → ω → Prop} {allowedJ : τ → ω → Prop} {showsI : σ → μ → Prop}
    {showsJ : τ → μ → Prop} (first : Refines i allowedI showsI) (second : Refines j allowedJ showsJ)
    (agree : i.next = j.next) :
    Refines (i.both j) (fun st o => allowedI st.1 o ∧ allowedJ st.2 o)
      fun st m => showsI st.1 m ∧ showsJ st.2 m := by
  intro st m reached
  have parts : Reached i allowedI st.1 m ∧ Reached j allowedJ st.2 m := by
    induction reached with
    | start here => exact ⟨.start here.1, .start here.2⟩
    | step _ admitted run ih =>
      simp only [Implementation.both, Option.bind_eq_bind, Option.bind_eq_some_iff,
        Option.some.injEq, Prod.mk.injEq] at run
      obtain ⟨⟨s, _⟩, runI, ⟨t, _⟩, runJ, rfl, _⟩ := run
      refine ⟨ih.1.step admitted.1 runI, ?_⟩
      simp only [Implementation.both, agree]
      exact ih.2.step admitted.2 runJ
  obtain ⟨showsFirst, endsFirst⟩ := first st.1 m parts.1
  obtain ⟨showsSecond, endsSecond⟩ := second st.2 m parts.2
  refine ⟨⟨showsFirst, showsSecond⟩, ?_⟩
  intro o admitted
  obtain ⟨s, a, runI, rightI⟩ := endsFirst o admitted.1
  obtain ⟨t, c, runJ, rightJ⟩ := endsSecond o admitted.2
  refine ⟨(s, t), (), ?_, rightI, rightJ⟩
  simp only [Implementation.both, runI, runJ, Option.bind_eq_bind, Option.bind_some]

/-- A run of given operations, on both sides. -/
def Implementation.run (i : Implementation σ μ ω α) : σ → μ → List ω → Option (σ × μ)
  | s, m, [] => some (s, m)
  | s, m, o :: os => do
    let (s', a) ← i.perform s o
    i.run s' (i.next m o a) os

theorem Reached.run {i : Implementation σ μ ω α} {s : σ} {m : μ}
    (reached : Reached i (fun _ _ => True) s m) (os : List ω) {s' : σ} {m' : μ}
    (ran : i.run s m os = some (s', m')) : Reached i (fun _ _ => True) s' m' := by
  induction os generalizing s m with
  | nil =>
    cases ran
    exact reached
  | cons o os ih =>
    simp only [Implementation.run, Option.bind_eq_bind, Option.bind_eq_some_iff] at ran
    obtain ⟨⟨t, a⟩, here, rest⟩ := ran
    exact ih (reached.step trivial here) rest

/-- Every operation of a run ends with a right answer, in a state that shows the abstract one. -/
def Follows (i : Implementation σ μ ω α) (shows : σ → μ → Prop) : σ → μ → List ω → Prop
  | _, _, [] => True
  | s, m, o :: os => ∃ s' a, i.perform s o = some (s', a) ∧ i.right m o a ∧
      shows s' (i.next m o a) ∧ Follows i shows s' (i.next m o a) os

/-- Every operation of a run is admitted in the state before it. -/
def Within (i : Implementation σ μ ω α) (allowed : σ → ω → Prop) : σ → List ω → Prop
  | _, [] => True
  | s, o :: os => allowed s o ∧ ∀ s' a, i.perform s o = some (s', a) → Within i allowed s' os

theorem Refines.follows {i : Implementation σ μ ω α} {allowed : σ → ω → Prop}
    {shows : σ → μ → Prop} (refines : Refines i allowed shows) {s : σ} {m : μ}
    (reached : Reached i allowed s m) {os : List ω} (within : Within i allowed s os) :
    Follows i shows s m os := by
  induction os generalizing s m with
  | nil => trivial
  | cons o os ih =>
    obtain ⟨admitted, rest⟩ := within
    obtain ⟨s', a, run, right⟩ := (refines s m reached).2 o admitted
    have next := reached.step admitted run
    exact ⟨s', a, run, right, (refines s' _ next).1, ih next (rest s' a run)⟩

/-- Where single operations are right exactly when they are admitted, so are runs. -/
theorem follows_iff {i : Implementation σ μ ω α} {allowed : σ → ω → Prop} {shows : σ → μ → Prop}
    (exact : ∀ s m o, shows s m → (Step i shows s m o ↔ allowed s o)) {s : σ} {m : μ}
    (here : shows s m) (os : List ω) : Follows i shows s m os ↔ Within i allowed s os := by
  induction os generalizing s m with
  | nil => exact Iff.rfl
  | cons o os ih =>
    constructor
    · rintro ⟨s', a, run, right, shown, rest⟩
      refine ⟨(exact s m o here).mp ⟨s', a, run, right, shown⟩, fun t b run' => ?_⟩
      cases run.symm.trans run'
      exact (ih shown).mp rest
    · rintro ⟨admitted, rest⟩
      obtain ⟨s', a, run, right, shown⟩ := (exact s m o here).mpr admitted
      exact ⟨s', a, run, right, shown, (ih shown).mpr (rest s' a run)⟩

/-- Where the operations of a run keep an invariant and answer right, the run is right. -/
theorem Follows.of_steps {i : Implementation σ μ ω α} {shows : σ → μ → Prop}
    (keeps : σ → μ → Prop) (visible : ∀ s m, keeps s m → shows s m) {os : List ω}
    (step : ∀ o ∈ os, ∀ s m, keeps s m → Step i keeps s m o) {s : σ} {m : μ} (here : keeps s m) :
    Follows i shows s m os := by
  induction os generalizing s m with
  | nil => trivial
  | cons o os ih =>
    obtain ⟨s', a, run, right, kept⟩ := step o List.mem_cons_self s m here
    exact ⟨s', a, run, right, visible _ _ kept,
      ih (fun o member => step o (List.mem_cons_of_mem _ member)) kept⟩

/-- A run that ends where a consequence of the property fails shows that it is not kept. -/
theorem Refines.not_of_state {i : Implementation σ μ ω α} {shows : σ → μ → Prop} {s : σ} {m : μ}
    (begins : i.start s m) (os : List ω) (test : σ → μ → Bool)
    (seen : (i.run s m os).map (fun (s, m) => test s m) = some false)
    (needed : ∀ s m, shows s m → test s m = true) : ¬ Refines i (fun _ _ => True) shows := by
  intro refines
  obtain ⟨⟨s', m'⟩, ran, fails⟩ := Option.map_eq_some_iff.mp seen
  have held := (refines s' m' ((Reached.start begins).run os ran)).1
  exact Bool.false_ne_true (fails.symm.trans (needed s' m' held))

/-- A run after which an answer is wrong. -/
theorem Refines.not_of_answer {i : Implementation σ μ ω α} {shows : σ → μ → Prop} {s : σ} {m : μ}
    (begins : i.start s m) (os : List ω) (o : ω) (test : μ → α → Bool)
    (seen : ((i.run s m os).bind fun (s, m) => (i.perform s o).map fun (_, a) => test m a) =
      some false)
    (needed : ∀ m a, i.right m o a → test m a = true) :
    ¬ Refines i (fun _ _ => True) shows := by
  intro refines
  obtain ⟨⟨s', m'⟩, ran, last⟩ := Option.bind_eq_some_iff.mp seen
  obtain ⟨⟨t, a⟩, here, fails⟩ := Option.map_eq_some_iff.mp last
  obtain ⟨t', a', there, right⟩ :=
    (refines s' m' ((Reached.start begins).run os ran)).2 o trivial
  cases here.symm.trans there
  exact Bool.false_ne_true (fails.symm.trans (needed m' a right))

end Refinement
