import Mathlib.Data.List.Perm.Basic
import Mathlib.Tactic.Common

/-! Lists as arrays of slots: what a slot holds, and what storing and exchanging do to the
items that a filter picks from the slots. -/
namespace Slots

variable {σ τ : Type}

/-- What the slot `i` holds. -/
def stored (xs : List (Option σ)) (i : Nat) : Option σ := (xs[i]?).join

def exchange (xs : List (Option σ)) (i j : Nat) : List (Option σ) :=
  (xs.set i (stored xs j)).set j (stored xs i)

variable {xs : List (Option σ)} {i j : Nat}

theorem stored_of_lt (inside : i < xs.length) : stored xs i = xs[i] := by
  simp [stored, inside]

theorem getElem?_of_lt (inside : i < xs.length) : xs[i]? = some (stored xs i) := by
  simp [stored, inside]

theorem stored_set (inside : i < xs.length) (x : Option σ) (j : Nat) :
    stored (xs.set i x) j = if j = i then x else stored xs j := by
  unfold stored
  rw [List.getElem?_set]
  rcases Decidable.em (i = j) with rfl | off
  · simp [inside]
  · simp [off, Ne.symm off]

@[simp] theorem length_exchange : (exchange xs i j).length = xs.length := by simp [exchange]

theorem stored_exchange (hi : i < xs.length) (hj : j < xs.length) (p : Nat) :
    stored (exchange xs i j) p =
      if p = i then stored xs j else if p = j then stored xs i else stored xs p := by
  unfold exchange
  rw [stored_set (by simpa using hj), stored_set hi]
  rcases Decidable.em (p = j) with rfl | off
  · rcases Decidable.em (p = i) with rfl | away
    · simp
    · simp [away]
  · simp [off]

theorem exchange_perm (hi : i < xs.length) (hj : j < xs.length) :
    (exchange xs i j).Perm xs := by
  unfold exchange
  rw [stored_of_lt hi, stored_of_lt hj]
  exact List.set_set_perm hi hj

theorem mem_live {a : σ} : a ∈ xs.filterMap id ↔ ∃ i < xs.length, stored xs i = some a := by
  rw [List.mem_filterMap]
  constructor
  · rintro ⟨x, member, rfl⟩
    obtain ⟨i, inside, here⟩ := List.mem_iff_getElem.mp member
    exact ⟨i, inside, by rw [stored_of_lt inside, here]⟩
  · rintro ⟨i, inside, here⟩
    rw [stored_of_lt inside] at here
    exact ⟨some a, here ▸ List.getElem_mem inside, rfl⟩

/-- Fewer items than slots: some slot is empty. -/
theorem exists_empty (room : (xs.filterMap id).length < xs.length) :
    ∃ r < xs.length, stored xs r = none := by
  induction xs with
  | nil => simp at room
  | cons x xs ih =>
    cases x with
    | none => exact ⟨0, by simp, by simp [stored]⟩
    | some a =>
      have shorter : (xs.filterMap id).length < xs.length := by simpa using room
      obtain ⟨r, inside, empty⟩ := ih shorter
      exact ⟨r + 1, by simpa using inside, by simpa [stored] using empty⟩

section Picked

variable {ys : List σ} {f : σ → Option τ}

theorem picked_split (inside : i < ys.length) :
    (ys.filterMap f).Perm ((f ys[i]).toList ++ (ys.eraseIdx i).filterMap f) := by
  have split := (List.set_perm_cons_eraseIdx inside ys[i]).filterMap f
  rw [List.set_getElem_self] at split
  cases here : f ys[i] with
  | none => simpa [List.filterMap_cons, here] using split
  | some a => simpa [List.filterMap_cons, here] using split

theorem picked_set (inside : i < ys.length) (y : σ) :
    ((ys.set i y).filterMap f).Perm ((f y).toList ++ (ys.eraseIdx i).filterMap f) := by
  have split := (List.set_perm_cons_eraseIdx inside y).filterMap f
  cases here : f y with
  | none => simpa [List.filterMap_cons, here] using split
  | some a => simpa [List.filterMap_cons, here] using split

/-- Storing an item in a slot that held none. -/
theorem picked_fill (inside : i < ys.length) (empty : f ys[i] = none) {y : σ} {a : τ}
    (item : f y = some a) : ((ys.set i y).filterMap f).Perm (a :: ys.filterMap f) := by
  have new := picked_set (f := f) inside y
  have old := picked_split (f := f) inside
  rw [item] at new
  rw [empty] at old
  exact new.trans (List.Perm.cons a old.symm)

/-- Clearing a slot. -/
theorem picked_clear (inside : i < ys.length) {a : τ} (item : f ys[i] = some a) {y : σ}
    (empty : f y = none) : (ys.filterMap f).Perm (a :: (ys.set i y).filterMap f) := by
  have new := picked_set (f := f) inside y
  have old := picked_split (f := f) inside
  rw [empty] at new
  rw [item] at old
  exact old.trans (List.Perm.cons a new.symm)

end Picked

end Slots
