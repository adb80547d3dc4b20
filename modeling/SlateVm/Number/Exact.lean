import SlateVm.Number.Arithmetic

/-! Arithmetic on canonical representations: what is exact for all integers, and where
negation and `<=>` are not. -/
namespace SlateVm

open Digits

variable {i1 i2 : BigInteger} {x y : Int}

theorem proper_sign {i : BigInteger} (proper : i.Proper) :
    i.isNegative = true ↔ i.value < 0 := by
  have nonzero := proper.signed
  unfold BigInteger.value
  cases negative : i.isNegative
  · simp
  · have := nonzero negative
    simp
    omega

section Big

theorem plus_big (one : i1.Proper) (other : i2.Proper)
    (large : (i1.value < 0 ↔ i2.value < 0) → ¬ Small (i1.value + i2.value)) :
    i1.plus i2 = some (canonical (i1.value + i2.value)) := by
  have sign1 := proper_sign one
  have sign2 := proper_sign other
  have nonzero := one.signed
  unfold BigInteger.plus
  split
  · rename_i same
    apply add_canonical one other
    · intro negative
      have := nonzero negative
      omega
    · rw [value_eq_signed, value_eq_signed, ← same]
      unfold signed
      cases i1.isNegative <;> simp
      omega
    · exact large (by rw [← sign1, ← sign2, same])
  · rename_i differ
    rw [subtract_eq one other]
    congr 2
    unfold BigInteger.value
    cases h1 : i1.isNegative <;> cases h2 : i2.isNegative <;> simp_all <;> omega

theorem minus_big (one : i1.Proper) (other : i2.Proper)
    (large : ¬ (i1.value < 0 ↔ i2.value < 0) → ¬ Small (i1.value - i2.value)) :
    i1.minus i2 = some (canonical (i1.value - i2.value)) := by
  have sign1 := proper_sign one
  have sign2 := proper_sign other
  have nonzero := one.signed
  unfold BigInteger.minus
  split
  · rename_i same
    rw [subtract_eq one other]
    congr 2
    unfold BigInteger.value
    cases h1 : i1.isNegative <;> cases h2 : i2.isNegative <;> simp_all
    omega
  · rename_i differ
    apply add_canonical one other
    · intro negative
      have := nonzero negative
      omega
    · rw [value_eq_signed, value_eq_signed]
      unfold signed
      cases h1 : i1.isNegative <;> cases h2 : i2.isNegative <;> simp_all
      omega
    · apply large
      rw [← sign1, ← sign2]
      cases h1 : i1.isNegative <;> cases h2 : i2.isNegative <;> simp_all

end Big

section Canonical

theorem canonical_small (small : Small x) : canonical x = .small x := if_pos small

theorem canonical_big (large : ¬ Small x) :
    canonical x = .big ⟨decide (x < 0), Nat.digits 256 x.natAbs⟩ := if_neg large

theorem magnitude_digits (x : Int) :
    BigInteger.magnitude ⟨decide (x < 0), Nat.digits 256 x.natAbs⟩ = x.natAbs :=
  Nat.ofDigits_digits 256 x.natAbs

theorem coerced_canonical (x : Int) :
    (canonical x).coerced.Proper ∧ (canonical x).coerced.value = x := by
  by_cases small : Small x
  · rw [canonical_small small]
    exact asBigInteger_proper x
  · rw [canonical_big small]
    have size := magnitude_digits x
    have positive : 0 < x.natAbs := by
      unfold Small minimumValue maximumValue at small
      omega
    refine ⟨⟨.of_digits (by decide) positive, fun _ => ?_⟩, ?_⟩
    · rw [SlateInteger.coerced, size]
      omega
    · rw [SlateInteger.coerced, BigInteger.value, size]
      by_cases negative : x < 0
      · rw [decide_eq_true negative, if_pos rfl]
        omega
      · rw [decide_eq_false negative, if_neg Bool.false_ne_true]
        omega

theorem dispatch_canonical {α : Type} {onSmall : Int → Int → α}
    {onBig : BigInteger → BigInteger → α} {answer : α}
    (both : Small x → Small y → onSmall x y = answer)
    (other : ¬ (Small x ∧ Small y) →
      onBig (canonical x).coerced (canonical y).coerced = answer) :
    SlateInteger.dispatch onSmall onBig (canonical x) (canonical y) = answer := by
  by_cases small1 : Small x
  · by_cases small2 : Small y
    · rw [canonical_small small1, canonical_small small2]
      exact both small1 small2
    · have large := other fun small => small2 small.2
      rw [canonical_small small1, canonical_big small2] at large ⊢
      exact large
  · have large := other fun small => small1 small.1
    rw [canonical_big small1] at large ⊢
    exact large

theorem overflowing_exact {prim : Int → Int → Option Int} {z : Int}
    {onBig : BigInteger → BigInteger → Option SlateInteger}
    (answers : prim x y = if Small z then some z else none)
    (handled : ¬ Small z → onBig (asBigInteger x) (asBigInteger y) = some (canonical z)) :
    SlateInteger.overflowing prim onBig x y = some (canonical z) := by
  unfold SlateInteger.overflowing
  rw [answers]
  by_cases fits : Small z
  · rw [if_pos fits, canonical_small fits]
  · rw [if_neg fits]
    exact handled fits

theorem plus_exact (x y : Int) :
    (canonical x).plus (canonical y) = some (canonical (x + y)) := by
  apply dispatch_canonical
  · intro small1 small2
    apply overflowing_exact (primPlus_eq small1 small2)
    intro overflows
    obtain ⟨one, value1⟩ := asBigInteger_proper x
    obtain ⟨other, value2⟩ := asBigInteger_proper y
    have answer := plus_big one other fun _ => by rwa [value1, value2]
    rwa [value1, value2] at answer
  · intro large
    obtain ⟨one, value1⟩ := coerced_canonical x
    obtain ⟨other, value2⟩ := coerced_canonical y
    have sum := plus_big one other
    rw [value1, value2] at sum
    apply sum
    unfold Small minimumValue maximumValue at *
    omega

theorem minus_exact (x y : Int) :
    (canonical x).minus (canonical y) = some (canonical (x - y)) := by
  apply dispatch_canonical
  · intro small1 small2
    apply overflowing_exact (primMinus_eq small1 small2)
    intro overflows
    obtain ⟨one, value1⟩ := asBigInteger_proper x
    obtain ⟨other, value2⟩ := asBigInteger_proper y
    have answer := minus_big one other fun _ => by rwa [value1, value2]
    rwa [value1, value2] at answer
  · intro large
    obtain ⟨one, value1⟩ := coerced_canonical x
    obtain ⟨other, value2⟩ := coerced_canonical y
    have difference := minus_big one other
    rw [value1, value2] at difference
    apply difference
    unfold Small minimumValue maximumValue at *
    omega

theorem times_exact (x y : Int) :
    (canonical x).times (canonical y) = some (canonical (x * y)) := by
  apply dispatch_canonical
  · intro _ small2
    apply overflowing_exact (primTimes_eq small2)
    intro _
    obtain ⟨one, value1⟩ := asBigInteger_proper x
    obtain ⟨other, value2⟩ := asBigInteger_proper y
    rw [times_eq one other, value1, value2]
  · intro _
    obtain ⟨one, value1⟩ := coerced_canonical x
    obtain ⟨other, value2⟩ := coerced_canonical y
    rw [times_eq one other, value1, value2]

theorem less_exact (x y : Int) :
    (canonical x).less (canonical y) = decide (x < y) := by
  apply dispatch_canonical
  · intro _ _
    rfl
  · intro _
    obtain ⟨one, value1⟩ := coerced_canonical x
    obtain ⟨other, value2⟩ := coerced_canonical y
    rw [less_eq one other, value1, value2]

theorem equal_exact (x y : Int) :
    (canonical x).equal (canonical y) = decide (x = y) := by
  apply dispatch_canonical
  · intro _ _
    rfl
  · intro _
    obtain ⟨one, value1⟩ := coerced_canonical x
    obtain ⟨other, value2⟩ := coerced_canonical y
    rw [equal_eq one other, value1, value2]

end Canonical

section Exceptions

theorem negated_exact_iff (x : Int) :
    (canonical x).negated = some (canonical (-x)) ↔ x ≠ 2 ^ 62 := by
  by_cases small : Small x
  · have zero : Small 0 := by decide
    have difference := minus_exact 0 x
    rw [canonical_small small, canonical_small zero, Int.zero_sub] at difference
    rw [canonical_small small, SlateInteger.negated]
    unfold Small minimumValue maximumValue at small
    exact iff_of_true difference (by omega)
  · rw [canonical_big small, SlateInteger.negated]
    by_cases edge : Small (-x)
    · rw [canonical_small edge]
      unfold Small minimumValue maximumValue at *
      refine iff_of_false (by simp) ?_
      omega
    · rw [canonical_big edge, Int.natAbs_neg]
      have sign : (!decide (x < 0)) = decide (-x < 0) := by
        unfold Small minimumValue maximumValue at small
        rw [← decide_not]
        exact decide_eq_decide.mpr (by omega)
      unfold Small minimumValue maximumValue at edge
      refine iff_of_true ?_ (by omega)
      rw [BigInteger.negated]
      simp only [sign]

theorem compare_big (large1 : ¬ Small x) (large2 : ¬ Small y) :
    (canonical x).compare (canonical y) = order x.natAbs y.natAbs := by
  obtain ⟨one, _⟩ := coerced_canonical x
  obtain ⟨other, _⟩ := coerced_canonical y
  rw [canonical_big large1] at one ⊢
  rw [canonical_big large2] at other ⊢
  have magnitudes := compare_eq one.numeral other.numeral
  simp only [SlateInteger.coerced, magnitude_digits] at magnitudes
  exact magnitudes

theorem compare_mixed (small : Small x ∨ Small y) :
    (canonical x).compare (canonical y) = order x y := by
  have default : (canonical x).compare (canonical y) =
      if (canonical x).less (canonical y) then -1
      else if (canonical x).equal (canonical y) then 0 else 1 := by
    by_cases small1 : Small x
    · rw [canonical_small small1]
      rfl
    · rw [canonical_big small1, canonical_small (small.resolve_left small1)]
      rfl
  rw [default, less_exact, equal_exact, order]
  simp only [decide_eq_true_eq]

theorem compare_exact_iff (x y : Int) :
    (canonical x).compare (canonical y) = order x y ↔
      Small x ∨ Small y ∨ x = y ∨ 0 < x + y := by
  by_cases small : Small x ∨ Small y
  · refine iff_of_true (compare_mixed small) ?_
    rcases small with small | small
    · exact Or.inl small
    · exact Or.inr (Or.inl small)
  · obtain ⟨large1, large2⟩ := not_or.mp small
    rw [compare_big large1 large2]
    rcases Int.lt_trichotomy x y with less | same | more
    · rw [order_lt.mpr less, order_lt]
      simp only [large1, large2, false_or]
      omega
    · subst same
      rw [order_eq.mpr rfl, order_eq.mpr rfl]
      simp
    · rw [order_gt.mpr more, order_gt]
      simp only [large1, large2, false_or]
      omega

/-- Everything about two integers that canonical representations should give back. -/
structure ExactArithmetic (x y : Int) : Prop where
  plus : (canonical x).plus (canonical y) = some (canonical (x + y))
  minus : (canonical x).minus (canonical y) = some (canonical (x - y))
  times : (canonical x).times (canonical y) = some (canonical (x * y))
  negated : (canonical x).negated = some (canonical (-x))
  less : (canonical x).less (canonical y) = decide (x < y)
  equal : (canonical x).equal (canonical y) = decide (x = y)
  compare : (canonical x).compare (canonical y) = order x y

end Exceptions

end SlateVm
