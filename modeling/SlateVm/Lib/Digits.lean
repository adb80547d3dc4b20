import Mathlib.Data.Nat.Digits.Lemmas
import Mathlib.Tactic.LinearCombination

/-! Lists of digits in a base, lowest first, as arithmetic changes and compares them. -/
namespace Digits

variable {b : Nat} {ds es : List Nat}

/-- What changes with one digit. -/
theorem ofDigits_set (i : Nat) (v : Nat) (inside : i < ds.length) :
    Nat.ofDigits b (ds.set i v) + b ^ i * ds[i] = Nat.ofDigits b ds + b ^ i * v := by
  induction ds generalizing i with
  | nil => simp at inside
  | cons d ds ih =>
    cases i with
    | zero =>
      simp [Nat.ofDigits_cons]
      ring
    | succ i =>
      have rest := ih i (by simpa using inside)
      simp only [List.set_cons_succ, Nat.ofDigits_cons, List.getElem_cons_succ, pow_succ]
      linear_combination b * rest

theorem ofDigits_take_succ {n : Nat} (inside : n < ds.length) :
    Nat.ofDigits b (ds.take (n + 1)) = Nat.ofDigits b (ds.take n) + b ^ n * ds.getD n 0 := by
  rw [List.take_add_one, Nat.ofDigits_append, List.length_take, Nat.min_eq_left inside.le,
    List.getElem?_eq_getElem inside]
  simp [List.getD, inside]

theorem ofDigits_take_lt (base : 1 < b) (digits : ∀ d ∈ ds, d < b) (n : Nat) :
    Nat.ofDigits b (ds.take n) < b ^ n := by
  have bound := Nat.ofDigits_lt_base_pow_length base
    (fun d here => digits d (List.mem_of_mem_take here) : ∀ d ∈ ds.take n, d < b)
  have short : (ds.take n).length ≤ n := List.length_take_le n ds
  exact bound.trans_le (Nat.pow_le_pow_right (by omega) short)

/-- Digits of a base without a leading zero, except for zero itself. -/
structure Numeral (b : Nat) (ds : List Nat) : Prop where
  digits : ∀ d ∈ ds, d < b
  low : ds.length = 1 ∨ b ^ (ds.length - 1) ≤ Nat.ofDigits b ds

theorem Numeral.pos (numeral : Numeral b ds) : 0 < ds.length := by
  rcases numeral.low with one | low
  · omega
  · cases ds with
    | nil => simp at low
    | cons d ds => simp

theorem Numeral.lt (base : 1 < b) (numeral : Numeral b ds) :
    Nat.ofDigits b ds < b ^ ds.length :=
  Nat.ofDigits_lt_base_pow_length base numeral.digits

/-- The longer numeral is the larger one. -/
theorem Numeral.shorter (base : 1 < b) (one : Numeral b ds) (other : Numeral b es)
    (less : ds.length < es.length) : Nat.ofDigits b ds < Nat.ofDigits b es := by
  have positive := one.pos
  rcases other.low with short | low
  · omega
  · have between : b ^ ds.length ≤ b ^ (es.length - 1) :=
      Nat.pow_le_pow_right (by omega) (by omega)
    exact (one.lt base).trans_le (between.trans low)

theorem Numeral.last (base : 1 < b) (numeral : Numeral b ds) (large : b ≤ Nat.ofDigits b ds)
    (some : ds ≠ []) : ds.getLast some ≠ 0 := by
  intro zero
  have cut : Nat.ofDigits b (ds.dropLast ++ [ds.getLast some]) = _ := Nat.ofDigits_append
  rw [List.dropLast_append_getLast, zero] at cut
  have below := Nat.ofDigits_lt_base_pow_length base
    (fun d here => numeral.digits d (List.mem_of_mem_dropLast here) : ∀ d ∈ ds.dropLast, d < b)
  rw [List.length_dropLast] at below
  simp only [Nat.ofDigits_singleton, Nat.mul_zero, Nat.add_zero] at cut
  rcases numeral.low with one | low
  · rw [one] at below
    simp at below
    omega
  · omega

/-- Above the base a numeral is the list of digits of its value. -/
theorem Numeral.eq_digits (base : 1 < b) (numeral : Numeral b ds)
    (large : b ≤ Nat.ofDigits b ds) : ds = Nat.digits b (Nat.ofDigits b ds) :=
  (Nat.digits_ofDigits b base ds numeral.digits (numeral.last base large)).symm

theorem Numeral.of_last (digits : ∀ d ∈ ds, d < b) (some : ds ≠ [])
    (last : ds.getLast some ≠ 0) : Numeral b ds := by
  refine ⟨digits, Or.inr ?_⟩
  have cut : Nat.ofDigits b (ds.dropLast ++ [ds.getLast some]) = _ := Nat.ofDigits_append
  rw [List.dropLast_append_getLast, List.length_dropLast, Nat.ofDigits_singleton] at cut
  have one : 1 ≤ ds.getLast some := Nat.one_le_iff_ne_zero.mpr last
  have part : b ^ (ds.length - 1) * 1 ≤ b ^ (ds.length - 1) * ds.getLast some :=
    Nat.mul_le_mul_left _ one
  omega

theorem Numeral.of_digits {n : Nat} (base : 1 < b) (positive : 0 < n) :
    Numeral b (Nat.digits b n) :=
  .of_last (fun _ here => Nat.digits_lt_base base here)
    (Nat.digits_ne_nil_iff_ne_zero.mpr (by omega)) (Nat.getLast_digit_ne_zero b (by omega))

section Weight

variable {f g : Nat → Nat}

/-- The first `n` digits as a number, the highest digit first. -/
def weight (b : Nat) (f : Nat → Nat) : Nat → Nat
  | 0 => 0
  | n + 1 => weight b f n * b + f n

theorem weight_congr {n : Nat} (same : ∀ i < n, f i = g i) : weight b f n = weight b g n := by
  induction n with
  | zero => rfl
  | succ n ih =>
    simp only [weight]
    rw [ih fun i inside => same i (by omega), same n (by omega)]

theorem weight_zeros {i n : Nat} (le : i ≤ n) (zeros : ∀ j, i ≤ j → f j = 0) :
    weight b f n = weight b f i * b ^ (n - i) := by
  induction n, le using Nat.le_induction with
  | base => rw [Nat.sub_self, pow_zero, mul_one]
  | succ n le ih =>
    have more : n + 1 - i = n - i + 1 := by omega
    rw [weight, ih, zeros n le, more, pow_succ, Nat.add_zero, Nat.mul_assoc]

theorem weight_lt_pow (digits : ∀ i, f i < b) (n : Nat) : weight b f n < b ^ n := by
  induction n with
  | zero => exact Nat.one_pos
  | succ n ih =>
    have last := digits n
    have bound : (weight b f n + 1) * b ≤ b ^ n * b := Nat.mul_le_mul_right b ih
    rw [Nat.succ_mul] at bound
    rw [weight, pow_succ]
    omega

/-- The digits that follow do not turn the comparison round. -/
theorem weight_lt_of_lt {m n : Nat} (le : m ≤ n) (digits : ∀ i, f i < b)
    (less : weight b f m < weight b g m) : weight b f n < weight b g n := by
  induction n, le using Nat.le_induction with
  | base => exact less
  | succ n _ ih =>
    have last := digits n
    have bound : (weight b f n + 1) * b ≤ weight b g n * b := Nat.mul_le_mul_right b ih
    rw [Nat.succ_mul] at bound
    simp only [weight]
    omega

theorem weight_inj (fDigits : ∀ i, f i < b) (gDigits : ∀ i, g i < b) {n : Nat}
    (same : weight b f n = weight b g n) : ∀ i < n, f i = g i := by
  induction n with
  | zero => exact fun i inside => absurd inside (Nat.not_lt_zero i)
  | succ n ih =>
    have above : weight b f n = weight b g n := by
      rcases Nat.lt_trichotomy (weight b f n) (weight b g n) with lower | equal | higher
      · exact absurd same (Nat.ne_of_lt (weight_lt_of_lt (Nat.le_succ n) fDigits lower))
      · exact equal
      · exact absurd same (Nat.ne_of_gt (weight_lt_of_lt (Nat.le_succ n) gDigits higher))
    intro i inside
    rcases Nat.lt_succ_iff_lt_or_eq.mp inside with before | rfl
    · exact ih above i before
    · simp only [weight, above] at same
      omega

/-- Numbers are compared at the first digit in which they differ. -/
theorem weight_lt_iff (fDigits : ∀ i, f i < b) (gDigits : ∀ i, g i < b) (n : Nat) :
    weight b f n < weight b g n ↔ ∃ m < n, (∀ i < m, f i = g i) ∧ f m < g m := by
  constructor
  · intro less
    induction n with
    | zero => exact absurd less (Nat.lt_irrefl _)
    | succ n ih =>
      rcases Nat.lt_trichotomy (weight b f n) (weight b g n) with lower | same | higher
      · obtain ⟨m, inside, agree, differ⟩ := ih lower
        exact ⟨m, by omega, agree, differ⟩
      · refine ⟨n, Nat.lt_succ_self n, weight_inj fDigits gDigits same, ?_⟩
        simp only [weight, same] at less
        omega
      · exact absurd less (Nat.lt_asymm (weight_lt_of_lt (Nat.le_succ n) gDigits higher))
  · rintro ⟨m, inside, agree, differ⟩
    refine weight_lt_of_lt (Nat.succ_le_of_lt inside) fDigits ?_
    simp only [weight, weight_congr agree]
    omega

end Weight

end Digits
