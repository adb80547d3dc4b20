import SlateVm.Number.Quotient

/-! All operations on integers and fractions, compared with the rational numbers. -/
namespace SlateVm

open SlateInteger

section Operands

variable {x y : ℚ}

theorem coerced_ofRat (q : ℚ) : (ofRat q).coerced = ⟨canonical q.num, canonical q.den⟩ := by
  unfold ofRat
  split
  · rename_i whole
    rw [SlateNumber.coerced, whole, Nat.cast_one, canonical_one]
  · rfl

theorem dispatch_ofRat {α : Type} (onIntegers : SlateInteger → SlateInteger → α)
    (onFractions : Fraction → Fraction → α) (x y : ℚ) :
    SlateNumber.dispatch onIntegers onFractions (ofRat x) (ofRat y) =
      if x.den = 1 ∧ y.den = 1 then onIntegers (canonical x.num) (canonical y.num)
      else onFractions ⟨canonical x.num, canonical x.den⟩ ⟨canonical y.num, canonical y.den⟩ := by
  rw [← coerced_ofRat x, ← coerced_ofRat y]
  by_cases whole1 : x.den = 1
  · by_cases whole2 : y.den = 1
    · rw [if_pos ⟨whole1, whole2⟩, ofRat, if_pos whole1, ofRat, if_pos whole2]
      rfl
    · rw [if_neg (fun both => whole2 both.2), ofRat, if_pos whole1, ofRat, if_neg whole2]
      rfl
  · rw [if_neg (fun both => whole1 both.1), ofRat, if_neg whole1]
    cases ofRat y <;> rfl

theorem coprime_ofRat (q : ℚ) : IsCoprime q.num q.den :=
  Int.isCoprime_iff_gcd_eq_one.mpr q.reduced

theorem den_positive (q : ℚ) : (0 : Int) < q.den := Int.natCast_pos.mpr q.pos

theorem num_div (q : ℚ) : (q.num / (q.den : Int) : ℚ) = q := by
  rw [Int.cast_natCast]
  exact Rat.num_div_den q

theorem canonical_size {n : Int} (big : (canonical n).isBig) : 2 ^ 62 ≤ n.natAbs := by
  rw [canonical_isBig_iff] at big
  unfold Small minimumValue maximumValue at big
  omega

def Lost (n d : Int) : Prop := n < 0 ∧ ¬ Small n ∧ n ∣ d

theorem cancels_canonical (n d : Int) : Cancels (canonical n) n d ↔ Lost n d := by
  rw [Cancels, Lost, canonical_isBig_iff]

theorem not_lost_one (n : Int) : ¬ Lost n 1 := by
  rintro ⟨negative, large, divides⟩
  have unit := Int.le_of_dvd one_pos (neg_dvd.mpr divides)
  apply large
  unfold Small minimumValue maximumValue
  omega

theorem coprime_keeps {n d : Int} (coprime : IsCoprime n d) : ¬ Loses n d := by
  rintro ⟨large, divides, _⟩
  apply large
  rcases Int.isUnit_iff.mp (coprime.isUnit_of_dvd' dvd_rfl divides) with one | minus
  · rw [one]
    decide
  · rw [minus]
    decide

end Operands

section Operations

variable {x y : ℚ}

theorem right_const {run : Option SlateNumber} {v : SlateNumber} {q : ℚ} (exact : run = some v)
    (represents : v.Represents q) : Right (fun _ => run) q :=
  ⟨v, ⟨0, fun _ _ => exact⟩, represents⟩

theorem integers_right {run : Option SlateInteger} {n : Int} {q : ℚ}
    (exact : run = some (canonical n)) (value : (n : ℚ) = q) :
    Right (fun _ => run.map SlateNumber.integer) q := by
  apply right_const (v := .integer (canonical n))
  · rw [exact]
    rfl
  · rw [← value]
    exact represents_integer n

theorem sum_right_iff (x y : ℚ) : Right (fun rounds => (ofRat x).plus rounds (ofRat y)) (x + y) ↔
    ¬ Lost (sumNumerator x.num x.den y.num y.den) (Int.gcd x.den y.den) := by
  simp only [SlateNumber.plus, dispatch_ofRat]
  by_cases whole : x.den = 1 ∧ y.den = 1
  · simp only [if_pos whole]
    have none : ¬ Lost (sumNumerator x.num x.den y.num y.den) (Int.gcd x.den y.den) := by
      rw [whole.1, whole.2]
      exact not_lost_one _
    refine iff_of_true (integers_right (plus_exact _ _) ?_) none
    push_cast
    rw [Rat.coe_int_num_of_den_eq_one whole.1, Rat.coe_int_num_of_den_eq_one whole.2]
  · simp only [if_neg whole]
    have sum := @plus_right_iff x.num x.den y.num y.den _ (.short rfl) (den_positive x)
      (den_positive y) (coprime_ofRat x) (coprime_ofRat y)
    rw [num_div, num_div, cancels_canonical] at sum
    exact sum

theorem difference_right_iff (x y : ℚ) :
    Right (fun rounds => (ofRat x).minus rounds (ofRat y)) (x - y) ↔
      ¬ Lost (sumNumerator x.num x.den (-y.num) y.den) (Int.gcd x.den y.den) := by
  simp only [SlateNumber.minus, dispatch_ofRat]
  by_cases whole : x.den = 1 ∧ y.den = 1
  · simp only [if_pos whole]
    have none : ¬ Lost (sumNumerator x.num x.den (-y.num) y.den) (Int.gcd x.den y.den) := by
      rw [whole.1, whole.2]
      exact not_lost_one _
    refine iff_of_true (integers_right (minus_exact _ _) ?_) none
    push_cast
    rw [Rat.coe_int_num_of_den_eq_one whole.1, Rat.coe_int_num_of_den_eq_one whole.2]
  · obtain ⟨i, run, form, _, _⟩ := negated_form y.num
    simp only [if_neg whole, Fraction.minus, Fraction.negated, run, Option.bind_eq_bind,
      Option.bind_some, newFor_positive _ (den_positive y)]
    have sum := @plus_right_iff x.num x.den (-y.num) y.den _ form (den_positive x)
      (den_positive y) (coprime_ofRat x) (coprime_ofRat y).neg_left
    have value : (x.num / (x.den : Int) + (-y.num : Int) / (y.den : Int) : ℚ) = x - y := by
      rw [Int.cast_neg, neg_div, num_div, num_div, sub_eq_add_neg]
    rw [value, cancels_canonical] at sum
    exact sum

theorem product_right_iff (x y : ℚ) :
    Right (fun rounds => (ofRat x).times rounds (ofRat y)) (x * y) ↔
      ¬ Lost x.num y.den ∧ ¬ Lost y.num x.den ∧ ¬ MinusOne x.num x.den y.num y.den := by
  simp only [SlateNumber.times, dispatch_ofRat]
  by_cases whole : x.den = 1 ∧ y.den = 1
  · simp only [if_pos whole]
    refine iff_of_true (integers_right (times_exact _ _) ?_) ?_
    · push_cast
      rw [Rat.coe_int_num_of_den_eq_one whole.1, Rat.coe_int_num_of_den_eq_one whole.2]
    · rw [whole.1, whole.2]
      exact ⟨not_lost_one _, not_lost_one _, fun product => product.2 (by decide)⟩
  · simp only [if_neg whole]
    have product := @times_right_iff x.num x.den y.num y.den _ (.short rfl) canonical_size
      (den_positive x) (den_positive y) (coprime_ofRat x) (coprime_ofRat y)
    have value : (x.num * y.num / ((x.den : Int) * (y.den : Int)) : ℚ) = x * y := by
      rw [mul_div_mul_comm, num_div, num_div]
    rw [value, cancels_canonical, cancels_canonical] at product
    exact product

theorem negated_right (x : ℚ) : Right (fun _ => (ofRat x).negated) (-x) := by
  obtain ⟨i, run, form, _, _⟩ := negated_form x.num
  by_cases whole : x.den = 1
  · apply right_const (v := .integer i)
    · rw [ofRat, if_pos whole, SlateNumber.negated, run]
      rfl
    · rw [SlateNumber.Represents, form.value, Int.cast_neg, Rat.coe_int_num_of_den_eq_one whole]
  · have positive := x.pos
    apply right_const (v := .fraction ⟨i, canonical x.den⟩)
    · rw [ofRat, if_neg whole, SlateNumber.negated, Fraction.negated, run]
      simp only [Option.bind_eq_bind, Option.bind_some, newFor_positive _ (den_positive x),
        Option.map_some]
    · have represents := represents_form form (by omega : (2 : Int) ≤ x.den)
        (coprime_ofRat x).neg_left
      rw [Int.cast_neg, neg_div, num_div] at represents
      exact represents

theorem reciprocal_right (nonzero : x ≠ 0) :
    Right (fun rounds => (ofRat x).reciprocal rounds) x⁻¹ := by
  have some : x.num ≠ 0 := Rat.num_ne_zero.mpr nonzero
  by_cases whole : x.den = 1
  · have value : ((1 : Int) / x.num : ℚ) = x⁻¹ := by
      rw [Rat.coe_int_num_of_den_eq_one whole, Int.cast_one, one_div]
    have exact := @divide_exact 1 x.num some fun loses => loses.1 small_one
    rw [value] at exact
    simp only [ofRat, if_pos whole, SlateNumber.reciprocal, canonical_isZero,
      decide_eq_false some, Bool.false_eq_true, if_false, canonical_one]
    exact ⟨_, exact, ofRat_represents _⟩
  · obtain ⟨r, _, _, _, run, _, represents, _⟩ := reciprocal_form some (den_positive x)
      (coprime_ofRat x)
    have value : ((x.den : Int) / x.num : ℚ) = x⁻¹ := by
      rw [← inv_div, num_div]
    rw [value] at represents
    refine ⟨r, ⟨0, fun rounds _ => ?_⟩, represents⟩
    show (ofRat x).reciprocal rounds = _
    rw [ofRat, if_neg whole]
    exact run

/-- What division of rational numbers asks for: for integers that the quotient does not lose its
value, and else that the product with the reciprocal does not. -/
def Divides (x y : ℚ) : Prop :=
  if x.den = 1 ∧ y.den = 1 then ¬ Loses x.num y.num
  else ¬ Lost x.num y.num ∧ ¬ (y.num < 0 ∧ ¬ Small y.den ∧ (y.den : Int) ∣ x.den) ∧
    ¬ MinusOne x.num x.den y.den y.num

theorem quotient_right_iff (nonzero : y ≠ 0) :
    Right (fun rounds => (ofRat x).divide rounds (ofRat y)) (x / y) ↔ Divides x y := by
  have some : y.num ≠ 0 := Rat.num_ne_zero.mpr nonzero
  simp only [SlateNumber.divide, dispatch_ofRat]
  unfold Divides
  by_cases whole : x.den = 1 ∧ y.den = 1
  · simp only [if_pos whole]
    have value : (x.num / y.num : ℚ) = x / y := by
      rw [Rat.coe_int_num_of_den_eq_one whole.1, Rat.coe_int_num_of_den_eq_one whole.2]
    rw [← value]
    exact ⟨fun right loses => divide_wrong some loses right,
      fun keeps => ⟨_, divide_exact some keeps, ofRat_represents _⟩⟩
  · obtain ⟨r, i, m, e, run, coerced, _, form, size, positive, magnitude, sign, big⟩ :=
      reciprocal_form some (den_positive y) (coprime_ofRat y)
    have multiply (rounds : Nat) (f : Fraction) :
        SlateNumber.times rounds (.fraction f) r = f.times rounds ⟨i, canonical e⟩ := by
      rw [← coerced]
      cases r <;> rfl
    simp only [if_neg whole, run, Option.bind_eq_bind, Option.bind_some, multiply]
    have product := @times_right_iff x.num x.den m e i form size (den_positive x) positive
      (coprime_ofRat x) (sign_coprime some (coprime_ofRat y) magnitude sign)
    have value : (x.num * m / ((x.den : Int) * e) : ℚ) = x / y := by
      have flipped : ((y.den : Int) / y.num : ℚ) = y⁻¹ := by
        rw [← inv_div, num_div]
      rw [mul_div_mul_comm, num_div, sign_quotient some magnitude sign, flipped, div_eq_mul_inv]
    have numerator : Cancels (canonical x.num) x.num e ↔ Lost x.num y.num := by
      rw [cancels_canonical, Lost, Lost, magnitude, Int.dvd_natAbs]
    have denominator : Cancels i m x.den ↔
        y.num < 0 ∧ ¬ Small y.den ∧ (y.den : Int) ∣ x.den := by
      have bottom := den_positive y
      rcases Int.lt_or_gt_of_ne some with below | above
      · have minus : m = -(y.den : Int) := by
          rw [sign, Int.sign_eq_neg_one_of_neg below, mul_neg_one]
        have negative : m < 0 := by omega
        rw [Cancels, big negative, minus, neg_dvd]
        exact and_congr_left fun _ => iff_of_true (by omega) below
      · have plus : m = y.den := by
          rw [sign, Int.sign_eq_one_of_pos above, mul_one]
        exact iff_of_false (fun cancels => absurd cancels.1 (by omega))
          (fun both => absurd both.1 (by omega))
    have opposite : MinusOne x.num x.den m e ↔ MinusOne x.num x.den y.den y.num := by
      apply and_congr_left
      intro _
      rcases Int.lt_or_gt_of_ne some with below | above
      · have minus : e = -y.num := by omega
        rw [sign, minus, Int.sign_eq_neg_one_of_neg below, mul_neg_one, mul_neg, mul_neg]
        omega
      · have plus : e = y.num := by omega
        rw [sign, plus, Int.sign_eq_one_of_pos above, mul_one]
    rw [value, numerator, denominator, opposite] at product
    exact product

end Operations

section Powers

variable {x : ℚ} {k : Int}

theorem raisedTo_reaches (i : Int) (u : Nat) :
    Reaches (fun rounds => (canonical i).raisedTo rounds (canonical u))
      (if Small i then some (canonical (i ^ u)) else none) := by
  by_cases small : Small i
  · rw [if_pos small]
    exact raisedTo_small small u
  · rw [if_neg small]
    exact ⟨0, fun rounds _ => raisedTo_large small rounds _⟩

theorem raisedToPositive_reaches (x : ℚ) (u : Nat) :
    Reaches (fun rounds => Fraction.raisedToPositive rounds
        ⟨canonical x.num, canonical x.den⟩ (canonical u))
      (if Small x.num ∧ Small x.den then some (ofRat (x ^ u)) else none) := by
  have first := raisedTo_reaches x.num u
  have second := raisedTo_reaches x.den u
  by_cases small1 : Small x.num
  · rw [if_pos small1] at first
    refine first.bind ?_
    by_cases small2 : Small x.den
    · rw [if_pos small2] at second
      rw [if_pos ⟨small1, small2⟩]
      refine second.bind ?_
      have bottom : (x.den : Int) ^ u ≠ 0 := pow_ne_zero u (den_positive x).ne'
      have keeps : ¬ Loses (x.num ^ u) ((x.den : Int) ^ u) :=
        coprime_keeps (coprime_ofRat x).pow
      have value : ((x.num ^ u : Int) / ((x.den : Int) ^ u : Int) : ℚ) = x ^ u := by
        rw [Int.cast_pow, Int.cast_pow, ← div_pow, num_div]
      rw [← value]
      exact divide_exact bottom keeps
    · rw [if_neg small2] at second
      rw [if_neg fun both => small2 both.2]
      exact second.bind_none _
  · rw [if_neg small1] at first
    rw [if_neg fun both => small1 both.1]
    exact first.bind_none _

def Powers (x : ℚ) (k : Int) : Prop :=
  Small x.num ∧ Small x.den ∨ x.den ≠ 1 ∧ k = 0

theorem Right.bind {α : Type} {run : Nat → Option α} {next : Nat → α → Option SlateNumber}
    {v : α} {q : ℚ} (first : Reaches run (some v)) (second : Right (fun rounds => next rounds v) q) :
    Right (fun rounds => (run rounds).bind (next rounds)) q := by
  obtain ⟨w, reaches, represents⟩ := second
  exact ⟨w, first.bind reaches, represents⟩

theorem power_integer_iff (whole : x.den = 1) (defined : x ≠ 0 ∨ 0 ≤ k) :
    Right (fun rounds => (ofRat x).raisedTo rounds (canonical k)) (x ^ k) ↔ Small x.num := by
  have value : (x.num : ℚ) = x := Rat.coe_int_num_of_den_eq_one whole
  simp only [ofRat, if_pos whole]
  by_cases small : Small x.num
  · refine iff_of_true ?_ small
    simp only [canonical_small small, SlateNumber.raisedTo, canonical_isNegative,
      decide_eq_true_eq]
    by_cases inverse : k < 0 ∧ x.num ≠ 0
    · obtain ⟨u, minus⟩ := Int.eq_ofNat_of_zero_le (show 0 ≤ -k by omega)
      have exponent : (canonical k).negated = some (canonical u) := by
        rw [← minus]
        exact (negated_exact_iff k).mpr (by omega)
      have power := raisedTo_reaches x.num u
      rw [if_pos small, canonical_small small] at power
      have nonzero : ((x.num ^ u : Int) : ℚ) ≠ 0 := by
        exact_mod_cast pow_ne_zero u inverse.2
      have result := reciprocal_right nonzero
      have rational : ((x.num ^ u : Int) : ℚ)⁻¹ = x ^ k := by
        rw [Int.cast_pow, value, ← zpow_natCast, ← zpow_neg]
        congr 1
        omega
      rw [rational, ofRat_integer] at result
      simp only [if_pos inverse, exponent, Option.bind_eq_bind, Option.bind_some]
      exact Right.bind power result
    · have natural : 0 ≤ k := by
        by_contra negative
        have zero : x.num = 0 := by
          by_contra some
          exact inverse ⟨by omega, some⟩
        rcases defined with nonzero | natural
        · exact nonzero (Rat.num_eq_zero.mp zero)
        · exact negative natural
      obtain ⟨u, rfl⟩ := Int.eq_ofNat_of_zero_le natural
      have power := raisedTo_reaches x.num u
      rw [if_pos small, canonical_small small] at power
      obtain ⟨rounds, run⟩ := power
      simp only [if_neg inverse]
      refine ⟨.integer (canonical (x.num ^ u)), ⟨rounds, fun more enough => ?_⟩, ?_⟩
      · simp only [run more enough, Option.map_some]
      · rw [zpow_natCast, ← value, ← Int.cast_pow, value]
        exact represents_integer _
  · refine iff_of_false (not_right ⟨0, fun rounds _ => ?_⟩) small
    have never := raisedTo_large small rounds (canonical k)
    rw [canonical_big small] at never ⊢
    simp only [SlateNumber.raisedTo, never, Option.map_none]

theorem power_right_iff (defined : x ≠ 0 ∨ 0 ≤ k) :
    Right (fun rounds => (ofRat x).raisedTo rounds (canonical k)) (x ^ k) ↔ Powers x k := by
  by_cases whole : x.den = 1
  · rw [power_integer_iff whole defined, Powers, whole, Nat.cast_one]
    exact ⟨fun small => Or.inl ⟨small, small_one⟩,
      fun powers => powers.elim And.left fun both => absurd rfl both.1⟩
  · have form : ofRat x = .fraction ⟨canonical x.num, canonical x.den⟩ := by
      rw [ofRat, if_neg whole]
    simp only [form, SlateNumber.raisedTo, canonical_isZero, canonical_zero, less_exact,
      decide_eq_true_eq]
    rcases Int.lt_trichotomy k 0 with negative | rfl | positive
    · obtain ⟨u, minus⟩ := Int.eq_ofNat_of_zero_le (show 0 ≤ -k by omega)
      have exponent : (canonical k).negated = some (canonical u) := by
        rw [← minus]
        exact (negated_exact_iff k).mpr (by omega)
      have power := raisedToPositive_reaches x u
      simp only [if_neg negative.ne, if_neg (not_lt.mpr negative.le), exponent,
        Option.bind_eq_bind, Option.bind_some]
      by_cases smalls : Small x.num ∧ Small x.den
      · rw [if_pos smalls] at power
        have nonzero : x ^ u ≠ 0 := by
          apply pow_ne_zero
          rcases defined with nonzero | natural
          · exact nonzero
          · omega
        have result := reciprocal_right nonzero
        have rational : (x ^ u)⁻¹ = x ^ k := by
          rw [← zpow_natCast, ← zpow_neg]
          congr 1
          omega
        rw [rational] at result
        exact iff_of_true (Right.bind power result) (Or.inl smalls)
      · rw [if_neg smalls] at power
        refine iff_of_false (not_right (power.bind_none _)) ?_
        rintro (both | ⟨_, zero⟩)
        · exact smalls both
        · omega
    · rw [zpow_zero]
      have one := represents_integer 1
      rw [← canonical_one, Int.cast_one] at one
      exact iff_of_true ⟨_, ⟨0, fun _ _ => if_pos rfl⟩, one⟩ (Or.inr ⟨whole, rfl⟩)
    · obtain ⟨u, rfl⟩ := Int.eq_ofNat_of_zero_le positive.le
      have power := raisedToPositive_reaches x u
      simp only [if_neg positive.ne', if_pos positive, zpow_natCast]
      by_cases smalls : Small x.num ∧ Small x.den
      · rw [if_pos smalls] at power
        exact iff_of_true ⟨_, power, ofRat_represents _⟩ (Or.inl smalls)
      · rw [if_neg smalls] at power
        refine iff_of_false (not_right power) ?_
        rintro (both | ⟨_, zero⟩)
        · exact smalls both
        · omega

end Powers

section Comparison

variable (x y : ℚ)

theorem rational_less : (ofRat x).less (ofRat y) = some (decide (x < y)) := by
  rw [SlateNumber.less, dispatch_ofRat]
  by_cases whole : x.den = 1 ∧ y.den = 1
  · rw [if_pos whole]
    simp only [less_exact, Rat.lt_iff, whole.1, whole.2, Nat.cast_one, mul_one]
  · simp only [if_neg whole, Fraction.less, times_exact, Option.bind_eq_bind, Option.bind_some,
      less_exact, Rat.lt_iff]

theorem parts_iff : x = y ↔ x.num = y.num ∧ x.den = y.den :=
  ⟨fun same => same ▸ ⟨rfl, rfl⟩, fun parts => Rat.ext parts.1 parts.2⟩

theorem rational_equal : (ofRat x).equal (ofRat y) = decide (x = y) := by
  rw [SlateNumber.equal, dispatch_ofRat]
  by_cases whole : x.den = 1 ∧ y.den = 1
  · rw [if_pos whole, equal_exact, decide_eq_decide, parts_iff]
    exact ⟨fun same => ⟨same, whole.1.trans whole.2.symm⟩, And.left⟩
  · rw [if_neg whole, Fraction.equal, equal_exact, equal_exact, decide_eq_decide, parts_iff,
      decide_eq_true_eq, decide_eq_true_eq, Int.natCast_inj]

def truncate : Int := if 0 ≤ x then ⌊x⌋ else ⌈x⌉

theorem truncate_eq : truncate x = x.num.tdiv x.den := by
  unfold truncate
  split
  · rename_i natural
    rw [Rat.floor_def', Int.tdiv_eq_ediv_of_nonneg (Rat.num_nonneg.mpr natural)]
  · rename_i negative
    have minus : 0 ≤ -x.num := by
      have below := Rat.num_neg.mpr (not_le.mp negative)
      omega
    rw [Rat.ceil_def', ← Int.tdiv_eq_ediv_of_nonneg minus, Int.neg_tdiv, neg_neg]

theorem rational_truncated : (ofRat x).truncated = some (canonical (truncate x)) := by
  rw [truncate_eq]
  by_cases whole : x.den = 1
  · rw [ofRat, if_pos whole, SlateNumber.truncated, whole, Nat.cast_one, Int.tdiv_one]
  · have apart : ¬ Opposite x.num x.den := by
      rintro ⟨opposite, _⟩
      have reduced := x.reduced
      rw [Nat.Coprime, opposite, Int.natAbs_neg, Int.natAbs_natCast, Nat.gcd_self] at reduced
      exact whole reduced
    have fits : ¬ Overflows x.num x.den := by
      rintro ⟨_, minus⟩
      have bottom := den_positive x
      omega
    rw [ofRat, if_neg whole]
    exact quo_exact (den_positive x).ne' apart fits

end Comparison

/-- The results of one pair of operands and an exponent, where the rational numbers have one. -/
structure FractionsExact (x y : ℚ) (k : Int) : Prop where
  plus : Right (fun rounds => (ofRat x).plus rounds (ofRat y)) (x + y)
  minus : Right (fun rounds => (ofRat x).minus rounds (ofRat y)) (x - y)
  times : Right (fun rounds => (ofRat x).times rounds (ofRat y)) (x * y)
  divide : y ≠ 0 → Right (fun rounds => (ofRat x).divide rounds (ofRat y)) (x / y)
  negated : Right (fun _ => (ofRat x).negated) (-x)
  reciprocal : x ≠ 0 → Right (fun rounds => (ofRat x).reciprocal rounds) x⁻¹
  raised : x ≠ 0 ∨ 0 ≤ k → Right (fun rounds => (ofRat x).raisedTo rounds (canonical k)) (x ^ k)
  less : (ofRat x).less (ofRat y) = some (decide (x < y))
  equal : (ofRat x).equal (ofRat y) = decide (x = y)
  truncated : (ofRat x).truncated = some (canonical (truncate x))

end SlateVm
