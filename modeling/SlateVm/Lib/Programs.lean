import Mathlib.Tactic.Common

/-! Programs that keep a state and may fail, and what holds between the state before a run, its
answer and the state after it. -/
namespace Programs

variable {σ ε α β : Type}

/-- What every run that does not fail ensures. -/
def Ensures (R : σ → α → σ → Prop) (m : StateT σ (Except ε) α) : Prop :=
  ∀ s a s', m.run s = .ok (a, s') → R s a s'

theorem run_bind_ok {m : StateT σ (Except ε) α} {f : α → StateT σ (Except ε) β} {s s' : σ} {b : β} :
    (m >>= f).run s = .ok (b, s') ↔
      ∃ a t, m.run s = .ok (a, t) ∧ (f a).run t = .ok (b, s') := by
  rw [StateT.run_bind]
  rcases m.run s with e | ⟨a, t⟩
  · simp [bind, Except.bind]
  · simp [bind, Except.bind]

namespace Ensures

variable {R S : σ → α → σ → Prop} {m : StateT σ (Except ε) α}

theorem mono (ensures : Ensures R m) (weaker : ∀ s a s', R s a s' → S s a s') : Ensures S m :=
  fun s a s' run => weaker s a s' (ensures s a s' run)

theorem pure {a : α} (here : ∀ s, R s a s) : Ensures R (pure a : StateT σ (Except ε) α) := by
  intro s b s' run
  cases run
  exact here s

theorem throw (e : ε) : Ensures R (throw e : StateT σ (Except ε) α) := by
  intro s a s' run
  cases run

theorem get {R : σ → σ → σ → Prop} (here : ∀ s, R s s s) :
    Ensures R (get : StateT σ (Except ε) σ) := by
  intro s a s' run
  cases run
  exact here s

theorem modify {R : σ → Unit → σ → Prop} {f : σ → σ} (here : ∀ s, R s () (f s)) :
    Ensures R (modify f : StateT σ (Except ε) Unit) := by
  intro s a s' run
  cases run
  exact here s

theorem bind {T : σ → β → σ → Prop} {S : α → σ → β → σ → Prop} {f : α → StateT σ (Except ε) β}
    (first : Ensures R m) (next : ∀ a, Ensures (S a) (f a))
    (joins : ∀ s a t b s', R s a t → S a t b s' → T s b s') : Ensures T (m >>= f) := by
  intro s b s' run
  obtain ⟨a, t, before, after⟩ := run_bind_ok.mp run
  exact joins s a t b s' (first s a t before) (next a t b s' after)

end Ensures

section Through
set_option linter.unusedSectionVars false

/-- A relation between the states alone. -/
def Through (R : σ → σ → Prop) (m : StateT σ (Except ε) α) : Prop := Ensures (fun s _ s' => R s s') m

variable {R : σ → σ → Prop} [Std.Refl R] [IsTrans σ R] {m : StateT σ (Except ε) α}

theorem Through.pure (a : α) : Through R (pure a : StateT σ (Except ε) α) :=
  Ensures.pure fun s => refl_of R s

theorem Through.throw (e : ε) : Through R (throw e : StateT σ (Except ε) α) := Ensures.throw e

theorem Through.get : Through R (get : StateT σ (Except ε) σ) := Ensures.get fun s => refl_of R s

theorem Through.bind {f : α → StateT σ (Except ε) β} (first : Through R m)
    (next : ∀ a, Through R (f a)) : Through R (m >>= f) :=
  Ensures.bind first next fun _ _ _ _ _ before after => trans_of R before after

theorem Through.ite {n : StateT σ (Except ε) α} {p : Prop} [Decidable p] (yes : p → Through R m)
    (no : ¬ p → Through R n) : Through R (if p then m else n) := by
  split
  · exact yes ‹_›
  · exact no ‹_›

theorem Through.mapM {f : α → StateT σ (Except ε) β} (xs : List α)
    (each : ∀ x ∈ xs, Through R (f x)) : Through R (xs.mapM f) := by
  induction xs with
  | nil => exact .pure []
  | cons x xs ih =>
    rw [List.mapM_cons]
    refine .bind (each x (List.mem_cons_self ..)) fun b => ?_
    exact .bind (ih fun y hy => each y (List.mem_cons_of_mem x hy)) fun bs => .pure _

theorem Through.forM {f : α → StateT σ (Except ε) PUnit} (xs : List α)
    (each : ∀ x ∈ xs, Through R (f x)) : Through R (xs.forM f) := by
  induction xs with
  | nil => exact .pure _
  | cons x xs ih =>
    show Through R (f x >>= fun _ => xs.forM f)
    refine .bind (each x (List.mem_cons_self ..)) fun _ => ?_
    exact ih fun y hy => each y (List.mem_cons_of_mem x hy)

end Through

end Programs
