import Mathlib.Logic.Function.Basic
import Mathlib.Data.List.Basic
import Mathlib.Tactic.Common

/-! Chains of links with a pointer in either direction. -/
namespace Linked

variable {L : Type} {next previous next' previous' : L → Option L} {a b x : L} {l r : List L}

/-- From `a` the pointers lead through `l` to `b`, and back. -/
def Run (next previous : L → Option L) : L → List L → L → Prop
  | a, [], b => next a = some b ∧ previous b = some a
  | a, x :: l, b => (next a = some x ∧ previous x = some a) ∧ Run next previous x l b

theorem Run.append : Run next previous a (l ++ x :: r) b ↔
    Run next previous a l x ∧ Run next previous x r b := by
  induction l generalizing a with
  | nil => exact Iff.rfl
  | cons y l ih => simp only [List.cons_append, Run, ih, and_assoc]

/-- Only the pointers onward from `a` and the members, and those back to them, matter. -/
theorem Run.frame (run : Run next previous a l b) (onward : ∀ x ∈ a :: l, next' x = next x)
    (back : ∀ x ∈ l ++ [b], previous' x = previous x) : Run next' previous' a l b := by
  induction l generalizing a with
  | nil =>
    rw [Run, onward a List.mem_cons_self, back b List.mem_cons_self]
    exact run
  | cons y l ih =>
    constructor
    · rw [onward a List.mem_cons_self, back y List.mem_cons_self]
      exact run.1
    · apply ih run.2
      · intro x hx
        exact onward x (List.mem_cons_of_mem a hx)
      · intro x hx
        exact back x (List.mem_cons_of_mem y hx)

theorem Run.reverse (run : Run next previous a l b) : Run previous next b l.reverse a := by
  induction l generalizing a with
  | nil => exact ⟨run.2, run.1⟩
  | cons y l ih =>
    rw [List.reverse_cons]
    exact Run.append.mpr ⟨ih run.2, run.1.2, run.1.1⟩

/-- The pointer onward from the start. -/
theorem Run.first (run : Run next previous a l b) : next a = (l ++ [b]).head? := by
  cases l with
  | nil => exact run.1
  | cons y l => exact run.1.1

/-- The pointer back from the end. -/
theorem Run.last (run : Run next previous a l b) : previous b = (a :: l).getLast? := by
  have back := run.reverse.first
  rwa [← List.reverse_cons, List.head?_reverse] at back

/-- The pointers of the members and of the start come back. -/
theorem Run.onward (run : Run next previous a l b) :
    ∀ x ∈ a :: l, (next x).bind previous = some x := by
  induction l generalizing a with
  | nil =>
    intro x here
    rw [List.mem_singleton.mp here, run.1]
    exact run.2
  | cons y l ih =>
    intro x here
    rcases List.mem_cons.mp here with rfl | later
    · rw [run.1.1]
      exact run.1.2
    · exact ih run.2 x later

/-- The `i`-th member is what `i` steps onward from the first lead to. -/
theorem Run.nth (run : Run next previous a l b) {i : Nat} (hi : i < l.length) :
    Nat.repeat (fun p => p.bind next) i (next a) = l[i]? := by
  induction l generalizing a i with
  | nil => exact absurd hi (Nat.not_lt_zero i)
  | cons y l ih =>
    cases i with
    | zero => exact run.1.1
    | succ i =>
      rw [List.getElem?_cons_succ, ← ih run.2 (Nat.lt_of_succ_lt_succ hi), run.1.1]
      clear ih hi run
      induction i with
      | zero => rfl
      | succ i ih => exact congrArg (fun p => p.bind next) ih

section Insert

variable [DecidableEq L]

/-- A new link before the end of a chain: four pointers change. -/
theorem Run.insert (run : Run next previous a l b) {p : L} (before : previous b = some p)
    (members : (a :: l).Nodup) (fresh : x ∉ a :: l) (end_ : b ∉ l) (other : x ≠ b) :
    Run (Function.update (Function.update next x (some b)) p (some x))
      (Function.update (Function.update previous x (some p)) b (some x)) a (l ++ [x]) b := by
  induction l generalizing a with
  | nil =>
    have start : p = a := Option.some.inj (before.symm.trans run.2)
    subst start
    have apart : x ≠ p := fun same => fresh (same ▸ List.mem_cons_self)
    simp [Run, other, apart]
  | cons y l ih =>
    have back : (y :: l).getLast? = some p := by
      rw [← run.2.last]
      exact before
    have onward : p ∈ y :: l := List.mem_of_getLast? back
    have notFirst : a ≠ p := fun same => (List.nodup_cons.mp members).1 (same ▸ onward)
    have notNew : a ≠ x := fun same => fresh (same ▸ List.mem_cons_self)
    have notEnd : y ≠ b := fun same => end_ (same ▸ List.mem_cons_self)
    have old : y ≠ x := fun same => fresh (same ▸ List.mem_cons_of_mem a List.mem_cons_self)
    constructor
    · simpa [notFirst, notNew, notEnd, old] using run.1
    · exact ih run.2 (List.nodup_cons.mp members).2 (fun here => fresh (List.mem_cons_of_mem a here))
        (fun here => end_ (List.mem_cons_of_mem y here))

end Insert

end Linked
