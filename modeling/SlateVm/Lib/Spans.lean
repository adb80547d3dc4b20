import Mathlib.Computability.Language

/-! Stretches of a word that are in a language, between two places of the word. -/

namespace Language

variable {α : Type} {l m : Language α} {s : List α} {i j k : Nat}

/-- The words of one letter that passes a test. -/
def letter (test : α → Prop) : Language α := {w | ∃ c, w = [c] ∧ test c}

theorem word_nil : ({[]} : Language α) = 1 := rfl

theorem word_mul (v w : List α) : ({v} * {w} : Language α) = {v ++ w} := by
  ext x
  constructor
  · intro mem
    obtain ⟨a, rfl, b, rfl, rfl⟩ := Language.mem_mul.mp mem
    rfl
  · rintro rfl
    exact Language.append_mem_mul rfl rfl

/-- The stretch of `s` from `i` up to `j` is in the language. -/
structure Spans (l : Language α) (s : List α) (i j : Nat) : Prop where
  order : i ≤ j
  within : j ≤ s.length
  stretch : (s.drop i).take (j - i) ∈ l

theorem spans_take : Spans l s 0 j ↔ j ≤ s.length ∧ s.take j ∈ l := by
  constructor
  · rintro ⟨_, within, stretch⟩
    exact ⟨within, by rwa [List.drop_zero, Nat.sub_zero] at stretch⟩
  · rintro ⟨within, mem⟩
    exact ⟨Nat.zero_le _, within, by rwa [List.drop_zero, Nat.sub_zero]⟩

theorem spans_whole : Spans l s 0 s.length ↔ s ∈ l := by
  rw [spans_take, List.take_length]
  exact and_iff_right (Nat.le_refl _)

theorem spans_one : Spans 1 s i j ↔ i = j ∧ j ≤ s.length := by
  constructor
  · rintro ⟨order, within, stretch⟩
    rw [Language.mem_one] at stretch
    have length := congrArg List.length stretch
    rw [List.length_take, List.length_drop, List.length_nil] at length
    omega
  · rintro ⟨rfl, within⟩
    refine ⟨Nat.le_refl _, within, ?_⟩
    rw [Nat.sub_self, List.take_zero]
    exact Language.nil_mem_one

theorem spans_top : Spans ⊤ s i j ↔ i ≤ j ∧ j ≤ s.length :=
  ⟨fun spans => ⟨spans.order, spans.within⟩, fun ⟨order, within⟩ => ⟨order, within, trivial⟩⟩

/-- Two stretches that meet are one. -/
theorem stretch_append (first : i ≤ j) (second : j ≤ k) :
    (s.drop i).take (j - i) ++ (s.drop j).take (k - j) = (s.drop i).take (k - i) := by
  rw [show j = i + (j - i) by omega, ← List.drop_drop, show i + (j - i) - i = j - i by omega,
    show k - (i + (j - i)) = (k - i) - (j - i) by omega, ← List.take_append_drop (j - i)
    ((s.drop i).take (k - i)), List.take_take, List.drop_take, Nat.min_eq_left (by omega)]

theorem spans_mul : Spans (l * m) s i k ↔ ∃ j, Spans l s i j ∧ Spans m s j k := by
  constructor
  · rintro ⟨order, within, stretch⟩
    obtain ⟨a, first, b, second, both⟩ := Language.mem_mul.mp stretch
    have length := congrArg List.length both
    rw [List.length_append, List.length_take, List.length_drop] at length
    refine ⟨i + a.length, ⟨Nat.le_add_right _ _, by omega, ?_⟩, ⟨by omega, within, ?_⟩⟩
    · have taken := congrArg (List.take a.length) both
      rw [List.take_left, List.take_take, Nat.min_eq_left (by omega)] at taken
      rwa [Nat.add_sub_cancel_left, ← taken]
    · have dropped := congrArg (List.drop a.length) both
      rw [List.drop_left, List.drop_take, List.drop_drop] at dropped
      rwa [show k - (i + a.length) = k - i - a.length by omega, ← dropped]
  · rintro ⟨j, first, second⟩
    refine ⟨Nat.le_trans first.order second.order, second.within, ?_⟩
    rw [← stretch_append first.order second.order]
    exact Language.append_mem_mul first.stretch second.stretch

theorem spans_letter {test : α → Prop} :
    Spans (letter test) s i j ↔ j = i + 1 ∧ ∃ c, s[i]? = some c ∧ test c := by
  constructor
  · rintro ⟨order, within, c, stretch, passes⟩
    have length := congrArg List.length stretch
    rw [List.length_take, List.length_drop, List.length_singleton] at length
    have here := congrArg List.head? stretch
    rw [List.head?_take, if_neg (by omega), List.head?_drop, List.head?_cons] at here
    exact ⟨by omega, c, here, passes⟩
  · rintro ⟨rfl, c, here, passes⟩
    obtain ⟨inside, rfl⟩ := List.getElem?_eq_some_iff.mp here
    refine ⟨Nat.le_succ _, inside, _, ?_, passes⟩
    rw [Nat.add_sub_cancel_left, List.drop_eq_getElem_cons inside, List.take_succ_cons,
      List.take_zero]

theorem spans_word {w : List α} : Spans {w} s i j ↔
    j = i + w.length ∧ j ≤ s.length ∧ (s.drop i).take w.length = w := by
  constructor
  · rintro ⟨order, within, stretch⟩
    have same : (s.drop i).take (j - i) = w := stretch
    have length := congrArg List.length same
    rw [List.length_take, List.length_drop] at length
    obtain rfl : j = i + w.length := by omega
    refine ⟨rfl, within, ?_⟩
    rwa [Nat.add_sub_cancel_left] at same
  · rintro ⟨rfl, within, same⟩
    refine ⟨Nat.le_add_right _ _, within, ?_⟩
    rw [Nat.add_sub_cancel_left, same]
    rfl

end Language
