import SlateVm.Number.Rational

/-! Division of integers into fractions, and reciprocals. -/
namespace SlateVm

open SlateInteger

section Negated

variable {i : SlateInteger} {v n d : Int}

theorem negated_form (n : Int) : ∃ i, (canonical n).negated = some i ∧ Form i (-n) ∧
    (i.isBig → 2 ^ 62 ≤ n.natAbs) ∧ (0 < n → (i.isBig ↔ ¬ Small n)) := by
  by_cases edge : n = 2 ^ 62
  · have large : ¬ Small n := by
      rw [edge]
      decide
    obtain ⟨j, form, proper, value⟩ := canonical_eq_big large
    have magnitude := value_magnitude j
    have plain : j.isNegative = false := by
      rw [Bool.eq_false_iff, ne_eq, proper_sign proper]
      omega
    refine ⟨.big j.negated, by rw [form]; rfl, .long j.negated rfl ⟨proper.numeral, ?_⟩ ?_,
      fun _ => by omega, fun _ => iff_of_true rfl large⟩
    · intro _
      show j.magnitude ≠ 0
      omega
    · rw [← value, BigInteger.value, BigInteger.value, plain]
      simp only [BigInteger.negated, plain, Bool.not_false, if_true, Bool.false_eq_true, if_false]
      rfl
  · refine ⟨canonical (-n), (negated_exact_iff n).mpr edge, .short rfl, fun big => ?_, fun _ => ?_⟩
    · rw [canonical_isBig_iff] at big
      unfold Small minimumValue maximumValue at big
      omega
    · rw [canonical_isBig_iff]
      unfold Small minimumValue maximumValue
      omega

theorem Form.isZero (form : Form i v) : i.isZero = decide (v = 0) := by
  cases form with
  | short same => rw [same, canonical_isZero]
  | long j same proper value =>
    rw [same, SlateInteger.isZero, isZero_eq proper.numeral, ← value_magnitude, ← value]
    exact decide_eq_decide.mpr Int.natAbs_eq_zero

theorem Form.abs (form : Form i v) (size : i.isBig → 2 ^ 62 ≤ v.natAbs) :
    i.abs = some (canonical v.natAbs) := by
  cases form with
  | short same => rw [same, abs_exact]
  | long j same proper value =>
    subst same value
    have long := size rfl
    have sign := proper_sign proper
    have magnitude := value_magnitude j
    by_cases negative : j.value < 0
    · have flag := sign.mpr negative
      have flipped : j.negated.value = j.value.natAbs := by
        rw [magnitude, BigInteger.value]
        simp only [BigInteger.negated, flag, Bool.not_true, Bool.false_eq_true, if_false]
        rfl
      have proper' : j.negated.Proper := by
        refine ⟨proper.numeral, fun minus => ?_⟩
        simp only [BigInteger.negated, flag, Bool.not_true, Bool.false_eq_true] at minus
      have large : ¬ Small j.negated.value := by
        rw [flipped]
        unfold Small maximumValue
        omega
      rw [SlateInteger.abs, SlateInteger.isNegative, flag, if_pos rfl, SlateInteger.negated,
        ← flipped, canonical_of_large proper' large]
    · have flag : j.isNegative = false := by
        rw [Bool.eq_false_iff, ne_eq, sign]
        exact negative
      have same : (j.value.natAbs : Int) = j.value := by omega
      have large : ¬ Small j.value := by
        unfold Small maximumValue
        omega
      rw [SlateInteger.abs, SlateInteger.isNegative, flag, if_neg Bool.false_ne_true, same,
        canonical_of_large proper large]

theorem newFor_sign (n : Int) (nonzero : d ≠ 0) : ∃ i m e,
    Fraction.newFor (canonical n) (canonical d) = some ⟨i, canonical e⟩ ∧ Form i m ∧
      (i.isBig → 2 ^ 62 ≤ m.natAbs) ∧ 0 < e ∧ e = d.natAbs ∧ m = n * d.sign ∧
      (m < 0 → (i.isBig ↔ ¬ Small n)) := by
  by_cases positive : 0 < d
  · refine ⟨canonical n, n, d, newFor_positive _ positive, .short rfl, fun big => ?_, positive,
      by omega, ?_, fun _ => canonical_isBig_iff n⟩
    · rw [canonical_isBig_iff] at big
      unfold Small minimumValue maximumValue at big
      omega
    · rw [Int.sign_eq_one_of_pos positive, mul_one]
  · have negative : d < 0 := by omega
    obtain ⟨i, run, form, size, big⟩ := negated_form n
    have denominator : (canonical d).negated = some (canonical (-d)) :=
      (negated_exact_iff d).mpr (by omega)
    refine ⟨i, -n, -d, ?_, form, ?_, by omega, by omega, ?_, fun minus => big (by omega)⟩
    · rw [Fraction.newFor, canonical_isNegative, decide_eq_true negative, if_pos rfl, run,
        denominator]
      rfl
    · rwa [Int.natAbs_neg]
    · rw [Int.sign_eq_neg_one_of_neg negative]
      omega

end Negated

section Canonical

variable {n d : Int}

def ofRat (q : ℚ) : SlateNumber :=
  if q.den = 1 then .integer (canonical q.num)
  else .fraction ⟨canonical q.num, canonical q.den⟩

theorem ofRat_integer (n : Int) : ofRat n = .integer (canonical n) := by
  rw [ofRat, Rat.den_intCast, if_pos rfl, Rat.num_intCast]

theorem ofRat_lowest (large : 2 ≤ d) (coprime : Int.gcd n d = 1) :
    ofRat (n / d) = .fraction ⟨canonical n, canonical d⟩ := by
  have num := Rat.num_div_eq_of_coprime (by omega : 0 < d) coprime
  have den := Rat.den_div_eq_of_coprime (by omega : 0 < d) coprime
  rw [ofRat, if_neg (by omega), num, den]

theorem ofRat_represents (q : ℚ) : (ofRat q).Represents q := by
  unfold ofRat
  split
  · rename_i whole
    rw [SlateNumber.Represents, canonical_value]
    exact Rat.coe_int_num_of_den_eq_one whole
  · rename_i more
    have positive := q.pos
    simp only [SlateNumber.Represents, canonical_value]
    exact ⟨trivial, trivial, by omega⟩

end Canonical

section Reduced

variable {i : SlateInteger} {n d : Int}

theorem reduction_reaches (form : Form i n) (size : i.isBig → 2 ^ 62 ≤ n.natAbs) (nonzero : n ≠ 0)
    (positive : 0 < d) : Reaches (fun rounds => Fraction.reduced rounds ⟨i, canonical d⟩)
      (some (if d / Int.gcd n d = 1 then .integer (canonical (cut i n (Int.gcd n d)))
      else .fraction ⟨canonical (cut i n (Int.gcd n d)), canonical (d / Int.gcd n d)⟩)) := by
  have first := gcd_reaches (n.natAbs : Int) positive
  have same : Int.gcd (n.natAbs : Int) d = Int.gcd n d := rfl
  rw [if_neg (by omega), same] at first
  have common : (0 : Int) < Int.gcd n d := by
    exact_mod_cast Int.gcd_pos_of_ne_zero_right n positive.ne'
  have bottom : 0 < d / Int.gcd n d :=
    Int.ediv_pos_of_pos_of_dvd positive common.le (Int.gcd_dvd_right n d)
  have zero : i.isZero = false := by
    rw [form.isZero, decide_eq_false nonzero]
  simp only [Fraction.reduced, zero, Bool.false_eq_true, if_false, form.abs size,
    Option.bind_eq_bind, Option.bind_some]
  refine first.bind ⟨0, fun rounds _ => ?_⟩
  simp only [form.floorQuo common, floorQuo_positive positive.le common, canonical_one,
    equal_exact, newFor_positive _ bottom, decide_eq_true_eq, Option.bind_some, Option.map_some]
  split <;> rfl

theorem reduction_exact (form : Form i n) (size : i.isBig → 2 ^ 62 ≤ n.natAbs) (nonzero : n ≠ 0)
    (positive : 0 < d) (keeps : ¬ Cancels i n d) :
    Reaches (fun rounds => Fraction.reduced rounds ⟨i, canonical d⟩) (some (ofRat (n / d))) := by
  have reaches := reduction_reaches form size nonzero positive
  rw [cut_gcd i positive.ne' keeps] at reaches
  obtain ⟨N, D, g, positive', divisor, rfl, rfl, coprime⟩ := split_gcd (a := n) positive.ne'
  rw [divisor, Int.mul_ediv_cancel _ positive'.ne', Int.mul_ediv_cancel _ positive'.ne'] at reaches
  have bottom : 0 < D := (mul_pos_iff_of_pos_right positive').mp positive
  have value : ((N * g : Int) / (D * g : Int) : ℚ) = N / D := by
    have rational1 : (g : ℚ) ≠ 0 := by exact_mod_cast positive'.ne'
    have rational2 : (D : ℚ) ≠ 0 := by exact_mod_cast bottom.ne'
    push_cast
    field_simp
  rw [value]
  by_cases whole : D = 1
  · rw [if_pos whole] at reaches
    have rational : (N / D : ℚ) = N := by rw [whole, Int.cast_one, div_one]
    rw [rational, ofRat_integer]
    exact reaches
  · rw [if_neg whole] at reaches
    rw [ofRat_lowest (by omega) (Int.isCoprime_iff_gcd_eq_one.mp coprime)]
    exact reaches

theorem reduction_wrong (form : Form i n) (size : i.isBig → 2 ^ 62 ≤ n.natAbs) (nonzero : n ≠ 0)
    (positive : 0 < d) (cancels : Cancels i n d) :
    ¬ Right (fun rounds => Fraction.reduced rounds ⟨i, canonical d⟩) (n / d) := by
  have rational1 : (n : ℚ) ≠ 0 := by exact_mod_cast nonzero
  have rational2 : (d : ℚ) ≠ 0 := by exact_mod_cast positive.ne'
  have value : (n / d : ℚ) ≠ 0 := div_ne_zero rational1 rational2
  rw [right_iff (reduction_reaches form size nonzero positive), cut_cancels positive.ne' cancels]
  split
  · intro represents
    rw [SlateNumber.Represents, canonical_value, Int.cast_zero] at represents
    exact value represents.symm
  · exact not_represents_zero value _ (canonical_value 0)

end Reduced

section Divide

variable {n d : Int}

def Loses (n d : Int) : Prop := ¬ Small n ∧ n ∣ d ∧ n * d < 0

theorem divide_eq (rounds : Nat) (nonzero : d ≠ 0) : (canonical n).divide rounds (canonical d) =
    (canonical n).divideAll rounds (canonical d) := by
  by_cases small1 : Small n
  · rw [canonical_small small1]
    cases canonical d <;> rfl
  · by_cases small2 : Small d
    · rw [canonical_big small1, canonical_small small2]
      rfl
    · have parts := quo_fst n d (fun both => small1 both.1) nonzero
      have zero := canonical_isZero d
      rw [decide_eq_false nonzero] at zero
      rw [canonical_big small2] at zero
      rw [canonical_big small1, canonical_big small2] at parts ⊢
      rw [SlateInteger.divide, SlateInteger.divideAll, zero, if_neg Bool.false_ne_true, parts.1,
        parts.2]
      simp only [SlateInteger.quoRem]
      cases BigInteger.quoRem _ _ with
      | none => rfl
      | some qr =>
        simp only [Option.bind_eq_bind, Option.bind_some, Option.map_some]
        split <;> rfl

theorem divide_parts (nonzero : d ≠ 0) : ∃ r, (canonical n).rem (canonical d) =
      some (canonical r) ∧ (n = 0 ∨ ¬ Small n ∧ d ∣ n → r = 0) ∧ (r = 0 → d ∣ n ∧
        (canonical n).quo (canonical d) =
          some (canonical (if n = -d ∧ ¬ Small n then 1 else n.tdiv d))) := by
  by_cases small1 : Small n
  · have kept : ¬ (n = -d ∧ ¬ Small n) := fun both => both.2 small1
    rw [if_neg kept]
    by_cases small2 : Small d
    · by_cases wraps : Overflows n d
      · obtain ⟨rfl, rfl⟩ := wraps
        refine ⟨-2 ^ 63, ?_, fun some => ?_, fun zero => absurd zero (by decide)⟩
        rotate_left
        · exact absurd some (by decide)
        have wrapped : (canonical minimumValue).quo (canonical (-1)) =
            some (canonical minimumValue) := by
          rw [canonical_small (by decide), canonical_small (by decide)]
          decide
        have run : (canonical minimumValue).rem (canonical (-1)) =
            ((canonical minimumValue).quo (canonical (-1))).bind fun q =>
              (q.times (canonical (-1))).bind (canonical minimumValue).minus := by
          rw [canonical_small (by decide), canonical_small (by decide)]
          rfl
        rw [run, wrapped]
        simp only [Option.bind_some, times_exact, minus_exact]
        rfl
      · refine ⟨_, rem_small small1 small2 nonzero wraps, fun some => ?_,
          fun zero => ⟨Int.dvd_of_tmod_eq_zero zero,
            quo_exact nonzero (fun opposite => opposite.2 ⟨small1, small2⟩) wraps⟩⟩
        rcases some with rfl | ⟨large, _⟩
        · exact Int.zero_tmod d
        · exact absurd small1 large
    · refine ⟨n, ?_, fun some => ?_, ?_⟩
      · rw [canonical_small small1, canonical_big small2]
        rfl
      · rcases some with zero | ⟨large, _⟩
        · exact zero
        · exact absurd small1 large
      · rintro rfl
        refine ⟨dvd_zero d, ?_⟩
        rw [canonical_small small1, canonical_big small2, Int.zero_tdiv, ← canonical_zero]
        rfl
  · have parts := quo_fst n d (fun both => small1 both.1) nonzero
    rw [quoRem_large small1 nonzero] at parts
    by_cases shorter : n.natAbs < d.natAbs
    · rw [if_pos shorter] at parts
      refine ⟨n, parts.2, fun some => ?_, fun zero => absurd zero (nonzero_of_large small1)⟩
      rcases some with zero | ⟨_, divides⟩
      · exact zero
      · exact Int.eq_zero_of_dvd_of_natAbs_lt_natAbs divides shorter
    · rw [if_neg shorter] at parts
      by_cases same : n.natAbs = d.natAbs
      · rw [if_pos same] at parts
        refine ⟨0, parts.2, fun _ => rfl, fun _ => ⟨Int.natAbs_dvd_natAbs.mp (by rw [same]), ?_⟩⟩
        rw [parts.1]
        by_cases opposite : n = -d
        · rw [if_pos ⟨opposite, small1⟩]
          rfl
        · have equal : n = d := by omega
          rw [if_neg (fun both => opposite both.1), equal, Int.tdiv_self nonzero]
          rfl
      · rw [if_neg same] at parts
        refine ⟨_, parts.2, fun some => ?_, fun zero => ⟨?_, ?_⟩⟩
        · rcases some with zero | ⟨_, divides⟩
          · exact absurd zero (nonzero_of_large small1)
          · rw [Nat.mod_eq_zero_of_dvd (Int.natAbs_dvd_natAbs.mpr divides), signed]
            split <;> rfl
        · apply Int.natAbs_dvd_natAbs.mp
          apply Nat.dvd_of_mod_eq_zero
          unfold signed at zero
          split at zero <;> omega
        · rw [parts.1, if_neg (fun both => same (by omega))]
          rfl

theorem divide_fraction (rounds : Nat) (nonzero : d ≠ 0) {r : Int}
    (rest : (canonical n).rem (canonical d) = some (canonical r)) :
    (canonical n).divide rounds (canonical d) =
      if r = 0 then ((canonical n).quo (canonical d)).map SlateNumber.integer
      else (Fraction.newFor (canonical n) (canonical d)).bind fun x => x.reduced rounds := by
  rw [divide_eq rounds nonzero, SlateInteger.divideAll, canonical_isZero, decide_eq_false nonzero,
    if_neg Bool.false_ne_true, rest]
  simp only [Option.bind_eq_bind, Option.bind_some, canonical_isZero, decide_eq_true_eq]

theorem cancels_sign {i : SlateInteger} {m e : Int} (nonzero : d ≠ 0)
    (magnitude : e = d.natAbs) (sign : m = n * d.sign) (big : m < 0 → (i.isBig ↔ ¬ Small n)) :
    Cancels i m e ↔ Loses n d := by
  have divides : m ∣ e ↔ n ∣ d := by
    rw [magnitude, sign, Int.dvd_natAbs]
    rcases Int.lt_or_gt_of_ne nonzero with below | above
    · rw [Int.sign_eq_neg_one_of_neg below, mul_neg_one, neg_dvd]
    · rw [Int.sign_eq_one_of_pos above, mul_one]
  have negative : m < 0 ↔ n * d < 0 := by
    rw [sign]
    rcases Int.lt_or_gt_of_ne nonzero with below | above
    · rw [Int.sign_eq_neg_one_of_neg below]
      constructor
      · intro minus
        exact Int.mul_neg_of_pos_of_neg (by omega) below
      · intro product
        have positive := pos_of_mul_neg_left product below.le
        omega
    · rw [Int.sign_eq_one_of_pos above, mul_one]
      constructor
      · intro minus
        exact Int.mul_neg_of_neg_of_pos minus above
      · intro product
        exact neg_of_mul_neg_left product above.le
  unfold Cancels Loses
  rw [divides]
  constructor
  · rintro ⟨minus, long, whole⟩
    exact ⟨(big minus).mp long, whole, negative.mp minus⟩
  · rintro ⟨large, whole, product⟩
    have minus := negative.mpr product
    exact ⟨minus, (big minus).mpr large, whole⟩

theorem sign_nonzero {m : Int} (some : n ≠ 0) (nonzero : d ≠ 0) (sign : m = n * d.sign) :
    m ≠ 0 := by
  rw [sign]
  exact mul_ne_zero some (fun zero => nonzero (Int.sign_eq_zero_iff_zero.mp zero))

theorem sign_quotient {m e : Int} (nonzero : d ≠ 0) (magnitude : e = d.natAbs)
    (sign : m = n * d.sign) : (m / e : ℚ) = n / d := by
  rcases Int.lt_or_gt_of_ne nonzero with below | above
  · have flipped : e = -d := by omega
    rw [sign, flipped, Int.sign_eq_neg_one_of_neg below]
    push_cast
    rw [mul_neg_one, neg_div_neg_eq]
  · have same : e = d := by omega
    rw [sign, same, Int.sign_eq_one_of_pos above, mul_one]

theorem divide_exact (nonzero : d ≠ 0) (keeps : ¬ Loses n d) :
    Reaches (fun rounds => (canonical n).divide rounds (canonical d)) (some (ofRat (n / d))) := by
  obtain ⟨r, rest, settled, quotient⟩ := @divide_parts n d nonzero
  have rational : (d : ℚ) ≠ 0 := by exact_mod_cast nonzero
  by_cases zero : r = 0
  · obtain ⟨divides, run⟩ := quotient zero
    have apart : ¬ (n = -d ∧ ¬ Small n) := by
      rintro ⟨opposite, large⟩
      refine keeps ⟨large, ⟨-1, by omega⟩, ?_⟩
      rw [opposite, neg_mul]
      have square := mul_self_pos.mpr nonzero
      omega
    rw [if_neg apart] at run
    refine ⟨0, fun rounds _ => ?_⟩
    obtain ⟨q, rfl⟩ := divides
    have value : ((d * q : Int) / d : ℚ) = (q : Int) := by
      push_cast
      field_simp
    show (canonical (d * q)).divide rounds _ = _
    rw [divide_fraction rounds nonzero rest, if_pos zero, run, value, ofRat_integer,
      Int.mul_tdiv_cancel_left _ nonzero]
    rfl
  · obtain ⟨i, m, e, run, form, size, positive, magnitude, sign, big⟩ := newFor_sign n nonzero
    have some : n ≠ 0 := fun none => zero (settled (Or.inl none))
    have kept : ¬ Cancels i m e := fun cancels =>
      keeps ((cancels_sign nonzero magnitude sign big).mp cancels)
    have reaches := reduction_exact form size (sign_nonzero some nonzero sign) positive kept
    rw [sign_quotient nonzero magnitude sign] at reaches
    simp only [divide_fraction _ nonzero rest, if_neg zero, run, Option.bind_some]
    exact reaches

theorem divide_wrong (nonzero : d ≠ 0) (loses : Loses n d) :
    ¬ Right (fun rounds => (canonical n).divide rounds (canonical d)) (n / d) := by
  obtain ⟨r, rest, settled, quotient⟩ := @divide_parts n d nonzero
  have some : n ≠ 0 := nonzero_of_large loses.1
  by_cases zero : r = 0
  · obtain ⟨divides, run⟩ := quotient zero
    have sizes := Int.natAbs_eq_of_dvd_dvd divides loses.2.1
    have opposite : n = -d := by
      by_contra other
      have equal : n = d := by omega
      have negative := loses.2.2
      rw [equal] at negative
      have square := mul_self_nonneg d
      omega
    rw [if_pos ⟨opposite, loses.1⟩] at run
    simp only [divide_fraction _ nonzero rest, if_pos zero, run, Option.map_some]
    rw [right_iff (Reaches.const (Option.some (SlateNumber.integer (canonical 1))))]
    intro represents
    have rational : (d : ℚ) ≠ 0 := by exact_mod_cast nonzero
    rw [SlateNumber.Represents, canonical_value, opposite, Int.cast_one, Int.cast_neg, neg_div,
      div_self rational] at represents
    norm_num at represents
  · obtain ⟨i, m, e, run, form, size, positive, magnitude, sign, big⟩ := newFor_sign n nonzero
    have wrong := reduction_wrong form size (sign_nonzero some nonzero sign) positive
      ((cancels_sign nonzero magnitude sign big).mpr loses)
    rw [sign_quotient nonzero magnitude sign] at wrong
    simp only [divide_fraction _ nonzero rest, if_neg zero, run, Option.bind_some]
    exact wrong

end Divide

section Reciprocal

variable {i : SlateInteger} {c d m e : Int}

theorem represents_form (form : Form i m) (large : 2 ≤ e) (coprime : IsCoprime m e) :
    (SlateNumber.fraction ⟨i, canonical e⟩).Represents (m / e : ℚ) := by
  have lowest := Int.isCoprime_iff_gcd_eq_one.mp coprime
  have num := Rat.num_div_eq_of_coprime (by omega : 0 < e) lowest
  have den := Rat.den_div_eq_of_coprime (by omega : 0 < e) lowest
  simp only [SlateNumber.Represents, form.value, canonical_value]
  exact ⟨num.symm, den.symm, by omega⟩

theorem sign_coprime (nonzero : c ≠ 0) (lowest : IsCoprime c d) (magnitude : e = c.natAbs)
    (sign : m = d * c.sign) : IsCoprime m e := by
  apply Int.isCoprime_iff_gcd_eq_one.mpr
  have plain : Int.gcd (d * c.sign) (c.natAbs : Int) = Int.gcd d c := by
    rw [Int.gcd, Int.gcd, Int.natAbs_mul, Int.natAbs_sign_of_ne_zero nonzero, mul_one,
      Int.natAbs_natCast]
  rw [sign, magnitude, plain]
  exact Int.isCoprime_iff_gcd_eq_one.mp lowest.symm

theorem reciprocal_form (nonzero : c ≠ 0) (positive : 0 < d) (lowest : IsCoprime c d) :
    ∃ r i m e, Fraction.reciprocal ⟨canonical c, canonical d⟩ = some r ∧
      r.coerced = ⟨i, canonical e⟩ ∧ r.Represents (d / c) ∧ Form i m ∧
      (i.isBig → 2 ^ 62 ≤ m.natAbs) ∧ 0 < e ∧ e = c.natAbs ∧ m = d * c.sign ∧
      (m < 0 → (i.isBig ↔ ¬ Small d)) := by
  have minus : SlateInteger.small (-1) = canonical (-1) := (canonical_small (by decide)).symm
  simp only [Fraction.reciprocal, canonical_zero, canonical_one, minus, equal_exact,
    decide_eq_true_eq, if_neg nonzero]
  by_cases one : c = 1
  · subst one
    refine ⟨_, canonical d, d, 1, if_pos rfl, ?_, ?_, .short rfl, fun big => ?_, one_pos, rfl, ?_,
      fun _ => canonical_isBig_iff d⟩
    · rw [SlateNumber.coerced, canonical_one]
    · rw [Int.cast_one, div_one]
      exact represents_integer d
    · rw [canonical_isBig_iff] at big
      unfold Small minimumValue maximumValue at big
      omega
    · rw [Int.sign_one, mul_one]
  · rw [if_neg one]
    by_cases other : c = -1
    · subst other
      obtain ⟨i, run, form, size, big⟩ := negated_form d
      refine ⟨.integer i, i, -d, 1, ?_, ?_, ?_, form, ?_, one_pos, rfl, ?_,
        fun _ => big positive⟩
      · rw [if_pos rfl, run]
        rfl
      · rw [SlateNumber.coerced, canonical_one]
      · rw [SlateNumber.Represents, form.value]
        push_cast
        rw [div_neg, div_one]
      · rwa [Int.natAbs_neg]
      · rw [show Int.sign (-1) = -1 from rfl, mul_neg_one]
    · obtain ⟨i, m, e, run, form, size, bottom, magnitude, sign, big⟩ := newFor_sign d nonzero
      refine ⟨.fraction ⟨i, canonical e⟩, i, m, e, ?_, rfl, ?_, form, size, bottom, magnitude, sign,
        big⟩
      · rw [if_neg other, run]
        rfl
      · rw [← sign_quotient nonzero magnitude sign]
        exact represents_form form (by omega) (sign_coprime nonzero lowest magnitude sign)

end Reciprocal

end SlateVm
