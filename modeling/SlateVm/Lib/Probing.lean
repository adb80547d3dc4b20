import Mathlib.Data.List.Basic
import Mathlib.Tactic.Common

/-! Hash tables with linear probing over a ring of positions: search, insertion and the
closing of the hole that a removal leaves. Positions are read through a function; nothing
here says where the items are stored. -/
namespace Probing

variable {α : Type} {n : Nat}

/-- How far `i` lies behind `h` on the ring of `n` positions. -/
def after (n h i : Nat) : Nat := if h ≤ i then i - h else i + n - h

/-- The positions in the order in which a probe from `h` meets them. -/
def probes (n h : Nat) : List Nat := List.range' h (n - h) ++ List.range h

theorem after_cases (n h i : Nat) :
    (h ≤ i ∧ after n h i + h = i) ∨ (i < h ∧ after n h i = i + n - h) := by
  unfold after
  split <;> omega

@[simp] theorem after_self (n i : Nat) : after n i i = 0 := by simp [after]

theorem after_inj {h i j : Nat} (within : h ≤ n) (hi : i < n) (hj : j < n)
    (same : after n h i = after n h j) : i = j := by
  have first := after_cases n h i
  have second := after_cases n h j
  omega

/-- A position behind one that is met on the way is itself met on the way. -/
theorem after_chain {h p q i : Nat} (within : h ≤ n) (hp : p < n) (hi : i < n)
    (early : after n h p < after n h i) (between : after n p q < after n p i) :
    after n h q < after n h i := by
  have hp' := after_cases n h p
  have hi' := after_cases n h i
  have hq' := after_cases n h q
  have pq := after_cases n p q
  have pi := after_cases n p i
  omega

theorem find_probes {h i : Nat} (within : h ≤ n) (test : Nat → Bool) :
    (probes n h).find? test = some i ↔
      i < n ∧ test i ∧ ∀ j < n, after n h j < after n h i → test j = false := by
  unfold probes
  rw [List.find?_append, Option.or_eq_some_iff, List.find?_range'_eq_some,
    List.find?_range'_eq_none, List.find?_range_eq_some]
  simp only [List.mem_range'_1, List.mem_range, Bool.not_eq_eq_eq_not, Bool.not_true]
  constructor
  · rintro (⟨found, ⟨low, high⟩, misses⟩ | ⟨misses, found, low, early⟩)
    · refine ⟨by omega, found, fun j hj before => misses j ?_ ?_⟩
      all_goals
        have here := after_cases n h i
        have there := after_cases n h j
        omega
    · refine ⟨by omega, found, fun j hj before => ?_⟩
      have here := after_cases n h i
      have there := after_cases n h j
      by_cases behind : h ≤ j
      · exact misses j behind (by omega)
      · exact early j (by omega)
  · rintro ⟨inside, found, misses⟩
    by_cases behind : h ≤ i
    · refine Or.inl ⟨found, ⟨behind, by omega⟩, fun j low high => misses j (by omega) ?_⟩
      have here := after_cases n h i
      have there := after_cases n h j
      omega
    · refine Or.inr ⟨fun j low high => misses j (by omega) ?_, found, by omega,
        fun j early => misses j (by omega) ?_⟩
      all_goals
        have here := after_cases n h i
        have there := after_cases n h j
        omega

section Search

variable {slot : Nat → Option α} {home : α → Nat} {test : α → Bool} {h i : Nat} {a : α}

/-- The probe from `h` for an item that `test` accepts: it ends there or at an empty position. -/
def search (n : Nat) (slot : Nat → Option α) (test : α → Bool) (h : Nat) : Option Nat :=
  (probes n h).find? fun i => (slot i).all test

theorem search_eq_some (within : h ≤ n) : search n slot test h = some i ↔
    i < n ∧ (slot i).all test ∧
      ∀ j < n, after n h j < after n h i → ∃ b, slot j = some b ∧ test b = false := by
  unfold search
  rw [find_probes within]
  have same : ∀ j, (slot j).all test = false ↔ ∃ b, slot j = some b ∧ test b = false := by
    intro j
    cases slot j <;> simp
  simp only [same]

/-- Some position ends the search. -/
theorem search_ends {r : Nat} (test : α → Bool) (within : h ≤ n) (inside : r < n) (empty : slot r = none) :
    ∃ i, search n slot test h = some i := by
  cases found : search n slot test h with
  | some i => exact ⟨i, rfl⟩
  | none =>
    unfold search at found
    rw [List.find?_eq_none] at found
    have member : r ∈ probes n h := by
      simp only [probes, List.mem_append, List.mem_range'_1, List.mem_range]
      omega
    exact absurd (by simp [empty]) (found r member)

theorem search_found (within : h ≤ n) (inside : i < n) (here : slot i = some a)
    (accepted : test a = true)
    (before : ∀ j < n, after n h j < after n h i → slot j ≠ none)
    (only : ∀ j < n, ∀ b, slot j = some b → test b = true → j = i) :
    search n slot test h = some i := by
  rw [search_eq_some within]
  refine ⟨inside, by simp [here, accepted], fun j hj early => ?_⟩
  obtain ⟨b, there⟩ := Option.ne_none_iff_exists'.mp (before j hj early)
  refine ⟨b, there, ?_⟩
  cases passed : test b with
  | false => rfl
  | true =>
    rw [only j hj b there passed] at early
    exact absurd early (Nat.lt_irrefl _)

/-- The search ends at the first empty position when it meets no item it looks for. -/
theorem search_empty (within : h ≤ n) (inside : i < n) (empty : slot i = none)
    (before : ∀ j < n, after n h j < after n h i → ∃ b, slot j = some b ∧ test b = false) :
    search n slot test h = some i :=
  (search_eq_some within).mpr ⟨inside, by simp [empty], before⟩

end Search

section Tables

variable {slot slot' : Nat → Option α} {home : α → Nat}

/-- A probe for `a` passes the position `j` before it comes to `i`. -/
def Passes (n : Nat) (home : α → Nat) (a : α) (j i : Nat) : Prop :=
  after n (home a) j < after n (home a) i

instance (n : Nat) (home : α → Nat) (a : α) (j i : Nat) : Decidable (Passes n home a j i) :=
  inferInstanceAs (Decidable (_ < _))

/-- No probe for an item passes an empty position before it comes to the item. -/
def Seated (n : Nat) (home : α → Nat) (slot : Nat → Option α) : Prop :=
  ∀ i < n, ∀ a, slot i = some a → ∀ j < n, Passes n home a j i → slot j ≠ none

/-- One empty position has been filled. -/
structure Filled (n : Nat) (slot slot' : Nat → Option α) (i : Nat) (a : α) : Prop where
  inside : i < n
  empty : slot i = none
  here : slot' i = some a
  other : ∀ j, j ≠ i → slot' j = slot j

theorem Filled.seated {i : Nat} {a : α} (filled : Filled n slot slot' i a)
    (seated : Seated n home slot) (before : ∀ j < n, Passes n home a j i → slot j ≠ none) :
    Seated n home slot' := by
  have kept : ∀ j, slot j ≠ none → slot' j ≠ none := by
    intro j some
    rcases Decidable.em (j = i) with rfl | off
    · exact absurd filled.empty some
    · rwa [filled.other j off]
  intro k hk b holds j hj early
  rcases Decidable.em (k = i) with rfl | off
  · rw [filled.here] at holds
    cases holds
    exact kept j (before j hj early)
  · rw [filled.other k off] at holds
    exact kept j (seated k hk b holds j hj early)

/-- A table with a hole: items behind the hole and in front of `q` do not need it, and every
probe finds the other positions filled up to its item. -/
structure Dug (n : Nat) (home : α → Nat) (slot : Nat → Option α) (hole q : Nat) : Prop where
  inside : hole < n
  empty : slot hole = none
  reach : ∀ i < n, ∀ a, slot i = some a → ∀ j < n, j ≠ hole → Passes n home a j i →
    slot j ≠ none
  filled : ∀ i < n, i ≠ hole → after n hole i < after n hole q → slot i ≠ none
  clear : ∀ i < n, after n hole i < after n hole q → ∀ a, slot i = some a →
    ¬ Passes n home a hole i

/-- The next position, without a step over the hole. -/
structure Next (n hole q q' : Nat) : Prop where
  inside : q' < n
  step : after n hole q' = after n hole q + 1

/-- An item has been taken out of a seated table. -/
structure Emptied (n : Nat) (slot slot' : Nat → Option α) (hole : Nat) : Prop where
  inside : hole < n
  here : slot' hole = none
  other : ∀ j, j ≠ hole → slot' j = slot j

theorem Emptied.dug {hole q : Nat} (emptied : Emptied n slot slot' hole)
    (seated : Seated n home slot) (next : Next n hole hole q) : Dug n home slot' hole q := by
  have near : ∀ i < n, after n hole i < after n hole q → i = hole := by
    intro i hi close
    have step := next.step
    have self := after_self n hole
    exact after_inj (Nat.le_of_lt emptied.inside) hi emptied.inside (by omega)
  constructor
  · exact emptied.inside
  · exact emptied.here
  · intro i hi a holds j hj off early
    have moved : i ≠ hole := by
      rintro rfl
      rw [emptied.here] at holds
      cases holds
    rw [emptied.other i moved] at holds
    rw [emptied.other j off]
    exact seated i hi a holds j hj early
  · intro i hi off close
    exact absurd (near i hi close) off
  · intro i hi close a holds
    rw [near i hi close, emptied.here] at holds
    cases holds

/-- The item at `q` has been moved to the hole. -/
structure Moved (slot slot' : Nat → Option α) (hole q : Nat) : Prop where
  filled : slot' hole = slot q
  left : slot' q = none
  other : ∀ j, j ≠ hole → j ≠ q → slot' j = slot j

variable {hole q q' : Nat}

theorem Next.succ {hole q : Nat} (inside : q + 1 < n) (hole_lt : hole < n)
    (off : q + 1 ≠ hole) : Next n hole q (q + 1) := by
  constructor
  · exact inside
  · have here := after_cases n hole q
    have there := after_cases n hole (q + 1)
    omega

theorem Next.wrap {hole : Nat} (inside : hole < n) (off : hole ≠ 0) : Next n hole (n - 1) 0 := by
  constructor
  · omega
  · have here := after_cases n hole (n - 1)
    have there := after_cases n hole 0
    omega

variable (dug : Dug n home slot hole q)
include dug

/-- The next position behind the hole's cluster is empty: nothing needs the hole. -/
theorem Dug.stop (within : ∀ a, home a ≤ n) (hq : q < n) (off : q ≠ hole) (empty : slot q = none) : Seated n home slot := by
  intro i hi a holds j hj early
  rcases Decidable.em (j = hole) with rfl | other
  · exfalso
    rcases Nat.lt_trichotomy (after n j i) (after n j q) with near | level | far
    · exact dug.clear i hi near a holds early
    · have same := after_inj (Nat.le_of_lt dug.inside) hi hq level
      rw [same, empty] at holds
      cases holds
    · exact dug.reach i hi a holds q hq off (after_chain (within a) dug.inside hi early far) empty
  · exact dug.reach i hi a holds j hj other early

theorem Dug.keep {a : α} (hq : q < n) (off : q ≠ hole) (holds : slot q = some a)
    (stays : ¬ Passes n home a hole q) (next : Next n hole q q') : Dug n home slot hole q' := by
  have split : ∀ i < n, after n hole i < after n hole q' →
      i = q ∨ after n hole i < after n hole q := by
    intro i hi close
    have step := next.step
    rcases Nat.lt_or_ge (after n hole i) (after n hole q) with near | far
    · exact Or.inr near
    · exact Or.inl (after_inj (Nat.le_of_lt dug.inside) hi hq (by omega))
  constructor
  · exact dug.inside
  · exact dug.empty
  · exact dug.reach
  · intro i hi other close
    rcases split i hi close with rfl | near
    · simp [holds]
    · exact dug.filled i hi other near
  · intro i hi close b there
    rcases split i hi close with rfl | near
    · rw [holds] at there
      cases there
      exact stays
    · exact dug.clear i hi near b there

theorem Dug.move {a : α} (hq : q < n) (off : q ≠ hole)
    (holds : slot q = some a) (needs : Passes n home a hole q) (moved : Moved slot slot' hole q)
    (next : Next n q q q') : Dug n home slot' q q' := by
  have near : ∀ i < n, after n q i < after n q q' → i = q := by
    intro i hi close
    have step := next.step
    have self := after_self n q
    exact after_inj (Nat.le_of_lt hq) hi hq (by omega)
  constructor
  · exact hq
  · exact moved.left
  · intro i hi b there j hj other early
    rcases Decidable.em (j = hole) with rfl | apart
    · simp [moved.filled, holds]
    · rw [moved.other j apart other]
      rcases Decidable.em (i = q) with rfl | away
      · rw [moved.left] at there
        cases there
      · rcases Decidable.em (i = hole) with rfl | elsewhere
        · rw [moved.filled, holds] at there
          cases there
          exact dug.reach q hq a holds j hj apart (Nat.lt_trans early needs)
        · rw [moved.other i elsewhere away] at there
          exact dug.reach i hi b there j hj apart early
  · intro i hi other close
    exact absurd (near i hi close) other
  · intro i hi close b there
    rw [near i hi close, moved.left] at there
    cases there

/-- The search for the item at `q` ends at the hole when its probe passes the hole. -/
theorem Dug.search_hole (within : ∀ a, home a ≤ n) {a : α} {test : α → Bool} (hq : q < n)
    (holds : slot q = some a) (needs : Passes n home a hole q)
    (only : ∀ j < n, ∀ b, slot j = some b → test b = true → j = q) :
    search n slot test (home a) = some hole := by
  apply search_empty (within a) dug.inside dug.empty
  intro j hj early
  have apart : j ≠ hole := by
    rintro rfl
    exact Nat.lt_irrefl _ early
  have full := dug.reach q hq a holds j hj apart (Nat.lt_trans early needs)
  obtain ⟨b, there⟩ := Option.ne_none_iff_exists'.mp full
  refine ⟨b, there, ?_⟩
  cases passed : test b with
  | false => rfl
  | true =>
    rw [only j hj b there passed] at early
    exact absurd needs (Nat.lt_asymm early)

/-- It ends at `q` itself when its probe does not. -/
theorem Dug.search_self (within : ∀ a, home a ≤ n) {a : α} {test : α → Bool} (hq : q < n)
    (holds : slot q = some a) (stays : ¬ Passes n home a hole q) (accepted : test a = true)
    (only : ∀ j < n, ∀ b, slot j = some b → test b = true → j = q) :
    search n slot test (home a) = some q := by
  apply search_found (within a) hq holds accepted _ only
  intro j hj early
  apply dug.reach q hq a holds j hj _ early
  rintro rfl
  exact stays early

end Tables

end Probing
