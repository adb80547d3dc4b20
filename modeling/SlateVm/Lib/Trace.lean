import Mathlib.Tactic.Common

/-! Programs over a state that may fail and report events while they run. What a run
keeps is put together from its parts, as long as the events are fit for it. -/
namespace Trace

structure Outcome (σ ε ω α : Type) where
  events : List ω
  state : σ
  result : Except ε α

def Program (σ ε ω α : Type) : Type := σ → Outcome σ ε ω α

variable {σ ε ω α β : Type}

def Program.andThen (x : Program σ ε ω α) (f : α → Program σ ε ω β) : Program σ ε ω β := fun s =>
  let first := x s
  match first.result with
  | .ok a =>
    let rest := f a first.state
    ⟨first.events ++ rest.events, rest.state, rest.result⟩
  | .error e => ⟨first.events, first.state, .error e⟩

instance : Monad (Program σ ε ω) where
  pure a := fun s => ⟨[], s, .ok a⟩
  bind := Program.andThen

def read (f : σ → α) : Program σ ε ω α := fun s => ⟨[], s, .ok (f s)⟩

def stop (e : ε) : Program σ ε ω α := fun s => ⟨[], s, .error e⟩

/-- A program that starts in `I` with nothing but fit events has good events only, and
when it ends it ends in `I`. -/
def Keeps (I : σ → Prop) (fit good : ω → Prop) (x : Program σ ε ω α) : Prop :=
  ∀ s, I s → (∀ e ∈ (x s).events, fit e) →
    (∀ e ∈ (x s).events, good e) ∧ ∀ a, (x s).result = .ok a → I (x s).state

section Rules

variable {I : σ → Prop} {fit good : ω → Prop}

theorem Keeps.pure (a : α) : Keeps I fit good (Pure.pure a : Program σ ε ω α) :=
  fun _ here _ => ⟨fun _ he => absurd he List.not_mem_nil, fun _ _ => here⟩

theorem Keeps.read (f : σ → α) : Keeps I fit good (Trace.read f : Program σ ε ω α) :=
  fun _ here _ => ⟨fun _ he => absurd he List.not_mem_nil, fun _ _ => here⟩

theorem Keeps.stop (e : ε) : Keeps I fit good (Trace.stop e : Program σ ε ω α) :=
  fun _ _ _ => ⟨fun _ he => absurd he List.not_mem_nil, fun _ impossible => nomatch impossible⟩

theorem Keeps.bind {x : Program σ ε ω α} {f : α → Program σ ε ω β} (first : Keeps I fit good x)
    (rest : ∀ a, Keeps I fit good (f a)) : Keeps I fit good (x >>= f) := by
  intro s here fits
  have outcome : (x >>= f) s = Program.andThen x f s := rfl
  rw [outcome] at fits ⊢
  unfold Program.andThen at fits ⊢
  cases run : (x s).result with
  | error e =>
    simp only [run] at fits ⊢
    exact ⟨(first s here fits).1, fun _ impossible => nomatch impossible⟩
  | ok a =>
    simp only [run] at fits ⊢
    obtain ⟨seen, there⟩ := first s here fun e he => fits e (List.mem_append_left _ he)
    obtain ⟨more, after⟩ := rest a (x s).state (there a run) fun e he =>
      fits e (List.mem_append_right _ he)
    exact ⟨fun e he => (List.mem_append.mp he).elim (seen e) (more e), after⟩

end Rules

/-- Wherever the program stops, its state is related to the one it started from. -/
def Relates (R : σ → σ → Prop) (x : Program σ ε ω α) : Prop := ∀ s, R s (x s).state

section Relates

variable {R : σ → σ → Prop}

theorem Relates.pure (refl : ∀ s, R s s) (a : α) :
    Relates R (Pure.pure a : Program σ ε ω α) := refl

theorem Relates.bind (trans : ∀ s t u, R s t → R t u → R s u) {x : Program σ ε ω α}
    {f : α → Program σ ε ω β} (first : Relates R x) (rest : ∀ a, Relates R (f a)) :
    Relates R (x >>= f) := by
  intro s
  have outcome : (x >>= f) s = Program.andThen x f s := rfl
  rw [outcome, Program.andThen]
  cases run : (x s).result with
  | error e => exact first s
  | ok a => exact trans _ _ _ (first s) (rest a (x s).state)

end Relates

/-- A program together with the proof that it keeps `I`. -/
structure Kept (I : σ → Prop) (fit good : ω → Prop) (ε α : Type) where
  run : Program σ ε ω α
  keeps : Keeps I fit good run

section Kept

variable {I : σ → Prop} {fit good : ω → Prop}

instance : Monad (Kept I fit good ε) where
  pure a := ⟨pure a, .pure a⟩
  bind x f := ⟨x.run >>= fun a => (f a).run, .bind x.keeps fun a => (f a).keeps⟩

def Kept.read (f : σ → α) : Kept I fit good ε α := ⟨Trace.read f, .read f⟩

def Kept.stop (e : ε) : Kept I fit good ε α := ⟨Trace.stop e, .stop e⟩

/-- The states that programs `step` lead to one after the other. -/
inductive Reaches {ι : Type} (step : ι → Kept I fit good ε Unit) : σ → σ → Prop where
  | start (s : σ) : Reaches step s s
  | next {s t : σ} (i : ι) : Reaches step s t → (∀ e ∈ ((step i).run t).events, fit e) →
      ((step i).run t).result = .ok () → Reaches step s ((step i).run t).state

theorem Reaches.keeps {ι : Type} {step : ι → Kept I fit good ε Unit} {s t : σ}
    (run : Reaches step s t) (start : I s) : I t := by
  induction run with
  | start => exact start
  | next i _ fits done ih => exact ((step i).keeps _ ih fits).2 _ done

end Kept

end Trace
