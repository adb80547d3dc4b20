import Mathlib.Data.Finset.Card
import Mathlib.Data.Finset.Filter
import Mathlib.Logic.Function.Basic
import Mathlib.Tactic.Common

/-! Marking a graph with an explicit stack. Nodes are marked when they are
pushed, so each node is pushed at most once and the loop ends. The marks found
at the start may be stale, as long as stale nodes have no children to follow. -/
namespace Marking

variable {α : Type}

structure State (α : Type) where
  marked : α → Bool
  stack : List α

section Run

variable [DecidableEq α]

/-- Mark a node and remember to look at its children, unless it is marked. -/
def visit (s : State α) (a : α) : State α :=
  if s.marked a then s else ⟨Function.update s.marked a true, a :: s.stack⟩

def visitAll (s : State α) (as : List α) : State α := as.foldl visit s

def drain (children : α → List α) : Nat → State α → State α
  | 0, s => s
  | fuel + 1, s =>
    match s.stack with
    | [] => s
    | a :: rest => drain children fuel (visitAll { s with stack := rest } (children a))

variable {children : α → List α} {fuel : Nat} {s : State α}

theorem drain_nil (top : s.stack = []) : drain children (fuel + 1) s = s := by
  rw [drain, top]

theorem drain_cons {a : α} {rest : List α} (top : s.stack = a :: rest) :
    drain children (fuel + 1) s =
      drain children fuel (visitAll { s with stack := rest } (children a)) := by
  rw [drain, top]

end Run

inductive Reach (children : α → List α) (roots : α → Prop) : α → Prop where
  | root {a : α} : roots a → Reach children roots a
  | child {a b : α} : Reach children roots a → b ∈ children a → Reach children roots b

theorem Reach.mono {children : α → List α} {P Q : α → Prop} (sub : ∀ a, P a → Q a) {a : α}
    (h : Reach children P a) : Reach children Q a := by
  induction h with
  | root h => exact .root (sub _ h)
  | child _ edge ih => exact .child ih edge

/-- A set with the roots and all children of its members contains what is reachable. -/
theorem Reach.least {children : α → List α} {roots C : α → Prop} (base : ∀ a, roots a → C a)
    (closed : ∀ a, C a → ∀ b ∈ children a, C b) {a : α} (h : Reach children roots a) : C a := by
  induction h with
  | root h => exact base _ h
  | child _ edge ih => exact closed _ ih _ edge

/-- What the loop keeps: marked nodes are stale or reachable, and a marked node is
on the stack, or pending (popped, its children being visited), or has only marked
children. -/
structure Invariant (children : α → List α) (roots stale pending : α → Prop) (U : Finset α)
    (s : State α) : Prop where
  stacked : ∀ a ∈ s.stack, a ∈ U ∧ s.marked a = true
  sound : ∀ a, s.marked a = true → stale a ∨ (a ∈ U ∧ Reach children roots a)
  kept : ∀ a, stale a → s.marked a = true
  closed : ∀ a ∈ U, s.marked a = true →
    a ∈ s.stack ∨ pending a ∨ ∀ b ∈ children a, s.marked b = true

variable {children : α → List α} {roots stale pending : α → Prop} {U : Finset α}

/-- Before any root is visited only the stale marks are there. -/
theorem Invariant.initial {s : State α} (empty : s.stack = [])
    (marks : ∀ a, s.marked a = true ↔ stale a)
    (quiet : ∀ a ∈ U, stale a → children a = []) :
    Invariant children roots stale (fun _ => False) U s where
  stacked := by simp [empty]
  sound a ha := Or.inl ((marks a).mp ha)
  kept a ha := (marks a).mpr ha
  closed a hU ha := by
    refine Or.inr (Or.inr fun b hb => ?_)
    rw [quiet a hU ((marks a).mp ha)] at hb
    cases hb

section Work

variable [DecidableEq α]

theorem visit_marked (s : State α) (a b : α) :
    (visit s a).marked b = true ↔ s.marked b = true ∨ b = a := by
  unfold visit
  split
  · rename_i already
    refine ⟨Or.inl, ?_⟩
    rintro (h | rfl)
    · exact h
    · exact already
  · by_cases same : b = a
    · simp [same]
    · simp [same]

theorem visitAll_marked (as : List α) (s : State α) (b : α) :
    (visitAll s as).marked b = true ↔ s.marked b = true ∨ b ∈ as := by
  induction as generalizing s with
  | nil => simp [visitAll]
  | cons a as ih =>
    have h := ih (visit s a)
    simp only [visitAll, List.foldl_cons] at h ⊢
    rw [h, visit_marked, List.mem_cons, or_assoc]

theorem visitAll_append (s : State α) (as bs : List α) :
    visitAll s (as ++ bs) = visitAll (visitAll s as) bs := List.foldl_append ..

theorem drain_grows (children : α → List α) (fuel : Nat) (s : State α) {b : α}
    (marked : s.marked b = true) : (drain children fuel s).marked b = true := by
  induction fuel generalizing s with
  | zero => exact marked
  | succ fuel ih =>
    cases top : s.stack with
    | nil => rwa [drain_nil top]
    | cons a rest =>
      rw [drain_cons top]
      exact ih _ ((visitAll_marked _ _ b).mpr (Or.inl marked))

/-- Stack entries still to come plus nodes still to be pushed. -/
def work (U : Finset α) (s : State α) : Nat :=
  s.stack.length + (U.filter fun a => s.marked a = false).card

theorem visit_work {U : Finset α} {s : State α} {a : α} (ha : a ∈ U) :
    work U (visit s a) = work U s := by
  unfold visit
  split
  · rfl
  · rename_i fresh
    have hm : a ∈ U.filter fun b => s.marked b = false := by
      simpa [ha] using fresh
    have remaining : (U.filter fun b => Function.update s.marked a true b = false)
        = (U.filter fun b => s.marked b = false).erase a := by
      ext b
      by_cases same : b = a
      · simp [same]
      · simp [same]
    have count := Finset.card_erase_of_mem hm
    have some := Finset.card_pos.mpr ⟨a, hm⟩
    simp only [work, remaining, List.length_cons]
    omega

theorem visitAll_work {U : Finset α} (as : List α) (s : State α) (has : ∀ a ∈ as, a ∈ U) :
    work U (visitAll s as) = work U s := by
  induction as generalizing s with
  | nil => rfl
  | cons a as ih =>
    have rest := ih (visit s a) fun b hb => has b (List.mem_cons_of_mem _ hb)
    exact rest.trans (visit_work (has a (List.mem_cons_self ..)))

theorem Invariant.visit {s : State α} (h : Invariant children roots stale pending U s) {a : α}
    (ha : a ∈ U) (reached : Reach children roots a) :
    Invariant children roots stale pending U (visit s a) := by
  by_cases already : s.marked a = true
  · have same : Marking.visit s a = s := by simp [Marking.visit, already]
    rw [same]
    exact h
  · have grown : (Marking.visit s a).stack = a :: s.stack := by simp [Marking.visit, already]
    constructor
    · intro b hb
      rw [grown] at hb
      rcases List.mem_cons.mp hb with rfl | hb
      · exact ⟨ha, (visit_marked s b b).mpr (Or.inr rfl)⟩
      · exact ⟨(h.stacked b hb).1, (visit_marked s a b).mpr (Or.inl (h.stacked b hb).2)⟩
    · intro b hb
      rcases (visit_marked s a b).mp hb with hb | rfl
      · exact h.sound b hb
      · exact Or.inr ⟨ha, reached⟩
    · exact fun b hb => (visit_marked s a b).mpr (Or.inl (h.kept b hb))
    · intro b hb marked
      rw [grown]
      rcases (visit_marked s a b).mp marked with old | rfl
      · rcases h.closed b hb old with inStack | opened | done
        · exact Or.inl (List.mem_cons_of_mem _ inStack)
        · exact Or.inr (Or.inl opened)
        · exact Or.inr (Or.inr fun d hd => (visit_marked s a d).mpr (Or.inl (done d hd)))
      · exact Or.inl (List.mem_cons_self ..)

theorem Invariant.visitAll {s : State α} (h : Invariant children roots stale pending U s)
    (as : List α) (has : ∀ a ∈ as, a ∈ U ∧ Reach children roots a) :
    Invariant children roots stale pending U (visitAll s as) := by
  induction as generalizing s with
  | nil => exact h
  | cons a as ih =>
    have here := has a (List.mem_cons_self ..)
    exact ih (h.visit here.1 here.2) fun b hb => has b (List.mem_cons_of_mem _ hb)

/-- Popping a node leaves it pending until its children have been visited. -/
theorem Invariant.pop {s : State α}
    (h : Invariant children roots stale (fun _ => False) U s)
    (inside : ∀ a ∈ U, ∀ b ∈ children a, b ∈ U)
    (quiet : ∀ a ∈ U, stale a → children a = []) {a : α} {rest : List α}
    (top : s.stack = a :: rest) :
    Invariant children roots stale (fun _ => False) U
      (Marking.visitAll { s with stack := rest } (children a)) := by
  obtain ⟨ha, marked⟩ := h.stacked a (by rw [top]; exact List.mem_cons_self ..)
  have popped : Invariant children roots stale (fun x => x = a) U { s with stack := rest } := by
    refine ⟨fun b hb => h.stacked b ?_, h.sound, h.kept, fun b hb mb => ?_⟩
    · rw [top]; exact List.mem_cons_of_mem _ hb
    · rcases h.closed b hb mb with inStack | impossible | done
      · rw [top] at inStack
        rcases List.mem_cons.mp inStack with same | later
        · exact Or.inr (Or.inl same)
        · exact Or.inl later
      · exact impossible.elim
      · exact Or.inr (Or.inr done)
  have grown := popped.visitAll (children a) fun b hb => by
    refine ⟨inside a ha b hb, ?_⟩
    rcases h.sound a marked with stuck | ⟨_, reached⟩
    · rw [quiet a ha stuck] at hb
      cases hb
    · exact .child reached hb
  refine ⟨grown.stacked, grown.sound, grown.kept, fun b hb mb => ?_⟩
  rcases grown.closed b hb mb with inStack | rfl | done
  · exact Or.inl inStack
  · exact Or.inr (Or.inr fun d hd => (visitAll_marked _ _ d).mpr (Or.inr hd))
  · exact Or.inr (Or.inr done)

theorem Invariant.drain (inside : ∀ a ∈ U, ∀ b ∈ children a, b ∈ U)
    (quiet : ∀ a ∈ U, stale a → children a = []) (fuel : Nat) {s : State α}
    (h : Invariant children roots stale (fun _ => False) U s) (enough : work U s ≤ fuel) :
    Invariant children roots stale (fun _ => False) U (drain children fuel s) ∧
      (drain children fuel s).stack = [] ∧
      ∀ a, s.marked a = true → (drain children fuel s).marked a = true := by
  induction fuel generalizing s with
  | zero =>
    have empty : s.stack = [] := List.length_eq_zero_iff.mp (by unfold work at enough; omega)
    exact ⟨h, empty, fun a ha => ha⟩
  | succ fuel ih =>
    cases top : s.stack with
    | nil =>
      rw [drain_nil top]
      exact ⟨h, top, fun a ha => ha⟩
    | cons a rest =>
      have ha := (h.stacked a (by rw [top]; exact List.mem_cons_self ..)).1
      have less : work U (Marking.visitAll { s with stack := rest } (children a)) ≤ fuel := by
        rw [visitAll_work _ _ (inside a ha)]
        unfold work at enough ⊢
        rw [top, List.length_cons] at enough
        simp only
        omega
      obtain ⟨inv, empty, kept⟩ := ih (h.pop inside quiet top) less
      rw [drain_cons top]
      refine ⟨inv, empty, fun b hb => kept b ?_⟩
      exact (visitAll_marked _ _ b).mpr (Or.inl hb)

/-- The marks at the end are the stale ones and exactly what the roots reach. -/
theorem drain_marked (inside : ∀ a ∈ U, ∀ b ∈ children a, b ∈ U)
    (quiet : ∀ a ∈ U, stale a → children a = []) {s : State α} (empty : s.stack = [])
    (marks : ∀ a, s.marked a = true ↔ stale a) (rs : List α) (rooted : ∀ r ∈ rs, r ∈ U)
    {fuel : Nat} (enough : U.card ≤ fuel) :
    (drain children fuel (visitAll s rs)).stack = [] ∧
      ∀ a, (drain children fuel (visitAll s rs)).marked a = true ↔
        stale a ∨ Reach children (· ∈ rs) a := by
  have start : Invariant children (· ∈ rs) stale (fun _ => False) U (visitAll s rs) :=
    (Invariant.initial empty marks quiet).visitAll rs fun r hr => ⟨rooted r hr, .root hr⟩
  have bound : work U (visitAll s rs) ≤ fuel := by
    rw [visitAll_work _ _ rooted]
    have := Finset.card_filter_le U fun a => s.marked a = false
    simp only [work, empty, List.length_nil]
    omega
  obtain ⟨inv, done, kept⟩ := start.drain inside quiet fuel bound
  refine ⟨done, fun a => ⟨fun ha => ?_, ?_⟩⟩
  · rcases inv.sound a ha with old | ⟨_, reached⟩
    · exact Or.inl old
    · exact Or.inr reached
  · rintro (old | reached)
    · exact inv.kept a old
    · have both : a ∈ U ∧ (drain children fuel (visitAll s rs)).marked a = true := by
        refine reached.least (C := fun a => a ∈ U ∧
          (drain children fuel (visitAll s rs)).marked a = true) ?_ ?_
        · exact fun r hr => ⟨rooted r hr, kept r ((visitAll_marked _ _ r).mpr (Or.inr hr))⟩
        · rintro b ⟨hb, mb⟩ d hd
          refine ⟨inside b hb d hd, ?_⟩
          rcases inv.closed b hb mb with inStack | impossible | all
          · rw [done] at inStack; cases inStack
          · exact impossible.elim
          · exact all d hd
      exact both.2

end Work

end Marking
