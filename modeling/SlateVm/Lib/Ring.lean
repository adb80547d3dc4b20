import Mathlib.Tactic.Common

/-! Lists in a ring of places: the elements stand one after the other from a first place on,
and behind the last place comes place 0. -/
namespace Ring

variable {α : Type} {n f : Nat} {slot slot' : Nat → Option α} {xs ys : List α}

/-- The place `i` places behind `f`. -/
def place (n f i : Nat) : Nat := if f + i < n then f + i else f + i - n

theorem place_straight {i : Nat} (below : f + i < n) : place n f i = f + i := if_pos below

theorem place_wrapped {i : Nat} (beyond : n ≤ f + i) : place n f i = f + i - n :=
  if_neg (Nat.not_lt.mpr beyond)

theorem place_lt {i : Nat} (first : f < n) (hi : i < n) : place n f i < n := by
  unfold place
  split <;> omega

theorem place_zero (first : f < n) : place n f 0 = f := place_straight first

theorem place_ne {i j : Nat} (hi : i < n) (hj : j < n) (other : i ≠ j) :
    place n f i ≠ place n f j := by
  unfold place
  split <;> split <;> omega

theorem place_place {i j : Nat} (first : f < n) (within : i + j < n) :
    place n (place n f i) j = place n f (i + j) := by
  unfold place
  split <;> split <;> split <;> omega

/-- Every place has one that lies `k` places before it. -/
theorem place_before {k : Nat} (start : f < n) (few : k < n) :
    ∃ g < n, place n g k = f := by
  rcases Nat.lt_or_ge f k with below | above
  · exact ⟨f + n - k, by omega, by rw [place_wrapped (by omega)]; omega⟩
  · exact ⟨f - k, by omega, by rw [place_straight (by omega)]; omega⟩

/-- The elements `xs` stand in the ring from `f` on. -/
structure Laid (slot : Nat → Option α) (n f : Nat) (xs : List α) : Prop where
  first : f < n
  room : xs.length ≤ n
  items : ∀ i < xs.length, slot (place n f i) = xs[i]?

theorem Laid.nil (first : f < n) : Laid slot n f [] :=
  ⟨first, Nat.zero_le n, fun i none => absurd none (Nat.not_lt_zero i)⟩

theorem Laid.frame (laid : Laid slot n f xs)
    (same : ∀ i < xs.length, slot' (place n f i) = slot (place n f i)) : Laid slot' n f xs :=
  ⟨laid.first, laid.room, fun i hi => (same i hi).trans (laid.items i hi)⟩

/-- Two lists one behind the other. -/
theorem Laid.append (laid : Laid slot n f xs) (next : Laid slot n (place n f xs.length) ys)
    (room : xs.length + ys.length ≤ n) : Laid slot n f (xs ++ ys) := by
  constructor
  · exact laid.first
  · simpa using room
  · intro i hi
    simp only [List.length_append] at hi
    rcases Nat.lt_or_ge i xs.length with old | new
    · rw [List.getElem?_append_left old]
      exact laid.items i old
    · rw [List.getElem?_append_right new, ← next.items (i - xs.length) (by omega),
        place_place laid.first (by omega)]
      congr 2
      omega

theorem Laid.left (laid : Laid slot n f (xs ++ ys)) : Laid slot n f xs := by
  have room := laid.room
  simp only [List.length_append] at room
  constructor
  · exact laid.first
  · omega
  · intro i hi
    rw [← List.getElem?_append_left hi]
    exact laid.items i (by simp; omega)

theorem Laid.right (laid : Laid slot n f (xs ++ ys)) (some : xs.length < n) :
    Laid slot n (place n f xs.length) ys := by
  have room := laid.room
  simp only [List.length_append] at room
  constructor
  · exact place_lt laid.first some
  · omega
  · intro i hi
    rw [place_place laid.first (by omega), laid.items _ (by simp; omega),
      List.getElem?_append_right (Nat.le_add_right _ _), Nat.add_sub_cancel_left]

/-- Elements that do not reach the last place. -/
theorem laid_straight (fits : f + xs.length ≤ n) (first : f < n)
    (items : ∀ i < xs.length, slot (f + i) = xs[i]?) : Laid slot n f xs := by
  constructor
  · exact first
  · omega
  · intro i hi
    rw [place_straight (by omega)]
    exact items i hi

/-- Elements that go over the last place. -/
theorem laid_wrapped (room : xs.length ≤ n) (first : f < n)
    (upper : ∀ i < n - f, slot (f + i) = xs[i]?)
    (lower : ∀ i, n - f + i < xs.length → slot i = xs[n - f + i]?) : Laid slot n f xs := by
  constructor
  · exact first
  · exact room
  · intro i hi
    unfold place
    split
    · exact upper i (by omega)
    · have turned := lower (f + i - n) (by omega)
      rw [show n - f + (f + i - n) = i by omega] at turned
      exact turned

theorem Laid.straight (laid : Laid slot n f xs) {i : Nat} (hi : i < xs.length)
    (below : f + i < n) : slot (f + i) = xs[i]? := by
  have item := laid.items i hi
  rw [place_straight below] at item
  exact item

theorem Laid.wrapped (laid : Laid slot n f xs) {i : Nat} (hi : n - f + i < xs.length) :
    slot i = xs[n - f + i]? := by
  have first := laid.first
  have item := laid.items (n - f + i) hi
  rw [place_wrapped (by omega), show f + (n - f + i) - n = i by omega] at item
  exact item

theorem laid_one {x : α} (first : f < n) (here : slot f = some x) : Laid slot n f [x] := by
  apply laid_straight first first
  intro i hi
  have only : i = 0 := by simpa using hi
  subst only
  exact here

/-- Only the `k` places from `g` on may have changed. -/
def Within (slot slot' : Nat → Option α) (n g k : Nat) : Prop :=
  ∀ p, (∀ i < k, p ≠ place n g i) → slot' p = slot p

variable {g k : Nat}

theorem within_straight (fits : g + k ≤ n)
    (same : ∀ p, p < g ∨ g + k ≤ p → slot' p = slot p) : Within slot slot' n g k := by
  intro p other
  apply same
  rcases Nat.lt_or_ge p g with before | behind
  · exact .inl before
  · rcases Nat.lt_or_ge p (g + k) with inside | past
    · have clash := other (p - g) (by omega)
      rw [place_straight (by omega)] at clash
      omega
    · exact .inr past

theorem within_wrapped (beyond : n ≤ g + k) (start : g < n)
    (same : ∀ p, g + k - n ≤ p → p < g ∨ n ≤ p → slot' p = slot p) :
    Within slot slot' n g k := by
  intro p other
  apply same
  · rcases Nat.lt_or_ge p (g + k - n) with inside | past
    · have clash := other (n - g + p) (by omega)
      rw [place_wrapped (by omega)] at clash
      omega
    · exact past
  · rcases Nat.lt_or_ge p g with before | behind
    · exact .inl before
    · rcases Nat.lt_or_ge p n with inside | past
      · have clash := other (p - g) (by omega)
        rw [place_straight (by omega)] at clash
        omega
      · exact .inr past

theorem Laid.append_within (laid : Laid slot n f xs)
    (next : Laid slot' n (place n f xs.length) ys) (room : xs.length + ys.length ≤ n)
    (within : Within slot slot' n (place n f xs.length) ys.length) :
    Laid slot' n f (xs ++ ys) := by
  apply Laid.append (laid.frame _) next room
  intro i hi
  apply within
  intro j hj
  rw [place_place laid.first (by omega)]
  exact place_ne (by omega) (by omega) (by omega)

theorem Laid.prepend_within (laid : Laid slot n (place n f ys.length) xs)
    (front : Laid slot' n f ys) (room : ys.length + xs.length ≤ n)
    (within : Within slot slot' n f ys.length) : Laid slot' n f (ys ++ xs) := by
  apply Laid.append front (laid.frame _) room
  intro i hi
  apply within
  intro j hj
  rw [place_place front.first (by omega)]
  exact place_ne (by omega) (by omega) (by omega)

theorem Laid.left_within (laid : Laid slot n f (xs ++ ys))
    (within : Within slot slot' n (place n f xs.length) ys.length) : Laid slot' n f xs := by
  have room := laid.room
  simp only [List.length_append] at room
  apply laid.left.frame
  intro i hi
  apply within
  intro j hj
  rw [place_place laid.first (by omega)]
  exact place_ne (by omega) (by omega) (by omega)

theorem Laid.right_within (laid : Laid slot n f (xs ++ ys)) (some : xs.length < n)
    (within : Within slot slot' n f xs.length) :
    Laid slot' n (place n f xs.length) ys := by
  have room := laid.room
  simp only [List.length_append] at room
  apply (laid.right some).frame
  intro i hi
  apply within
  intro j hj
  rw [place_place laid.first (by omega)]
  exact place_ne (by omega) (by omega) (by omega)

end Ring
