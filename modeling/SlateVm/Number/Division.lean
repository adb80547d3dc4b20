import SlateVm.Number.LongDivision

/-! Division of integers of any size: `quo:` and `rem:` with their methods for each pair of
representations, and the floored division and `gcd:` that rest on them. -/
namespace SlateVm

/-- The primitive of `quo:`, which stores a quotient without a look at its form. -/
def primQuo (x y : Int) : Option Int :=
  if y = 0 then none
  else some (Tagged.objectToSmallint
    (Tagged.smallintToObject ((BitVec.ofInt 64 x).sdiv (BitVec.ofInt 64 y)))).toInt

namespace SlateInteger

def isZero : SlateInteger → Bool
  | small x => x = 0
  | big i => i.isZero

def isNegative : SlateInteger → Bool
  | small x => x < 0
  | big i => i.isNegative

def abs (x : SlateInteger) : Option SlateInteger := if x.isNegative then x.negated else some x

def quo : SlateInteger → SlateInteger → Option SlateInteger
  | small x, small y => (primQuo x y).map small
  | small _, big _ => some (small 0)
  | big i1, small y => if y = 0 then none else (i1.quoRem (asBigInteger y)).map Prod.fst
  | big i1, big i2 => (i1.quoRem i2).map Prod.fst

/-- `rem:` of two small integers is the one of all numbers. -/
def rem : SlateInteger → SlateInteger → Option SlateInteger
  | small x, small y => do
    let product ← (← quo (small x) (small y)).times (small y)
    (small x).minus product
  | small x, big _ => some (small x)
  | big i1, small y => if y = 0 then none else (i1.quoRem (asBigInteger y)).map Prod.snd
  | big i1, big i2 => (i1.quoRem i2).map Prod.snd

def quoRem : SlateInteger → SlateInteger → Option (SlateInteger × SlateInteger)
  | small x, y => do
    let q ← quo (small x) y
    let r ← rem (small x) y
    some (q, r)
  | big i1, small y => if y = 0 then none else i1.quoRem (asBigInteger y)
  | big i1, big i2 => i1.quoRem i2

def floorQuo (x y : SlateInteger) : Option SlateInteger :=
  if y.isZero then none
  else do
    let q ← x.quo y
    if x.isNegative ^^ y.isNegative then
      if (← q.times y).equal x then some q else q.minus (small 1)
    else some q

def floorRem (x y : SlateInteger) : Option SlateInteger := do
  let product ← (← x.floorQuo y).times y
  x.minus product

/-- The loop of `gcd:`, for so many rounds at most. -/
def gcdLoop : Nat → SlateInteger → SlateInteger → Option SlateInteger
  | 0, _, _ => none
  | rounds + 1, n, m =>
    if n.isZero then m.abs
    else do
      let r ← m.floorRem n
      gcdLoop rounds r n

end SlateInteger

section Quotient

variable {n d : Int}

theorem primQuo_eq (small1 : Small n) (small2 : Small d) (nonzero : d ≠ 0)
    (fits : ¬ (n = minimumValue ∧ d = -1)) : primQuo n d = some (n.tdiv d) := by
  have quotient := Tagged.small_tdiv small1 fits
  have value : ((BitVec.ofInt 64 n).sdiv (BitVec.ofInt 64 d)).toInt = n.tdiv d := by
    unfold Small minimumValue maximumValue at small1 small2 quotient
    rw [BitVec.toInt_sdiv, toInt_ofInt (by omega) (by omega), toInt_ofInt (by omega) (by omega),
      Int.bmod_eq_of_le (by omega) (by omega)]
  rw [primQuo, if_neg nonzero, Tagged.objectToSmallint_tag (value.symm ▸ quotient), value]

theorem signed_tdiv (n d : Int) :
    signed (decide (n < 0) ^^ decide (d < 0)) (n.natAbs / d.natAbs) = n.tdiv d := by
  have magnitudes (a b : Nat) : ((a / b : Nat) : Int) = (a : Int).tdiv b := rfl
  unfold signed
  rcases Int.natAbs_eq n with hn | hn <;> rcases Int.natAbs_eq d with hd | hd <;>
    generalize n.natAbs = a at * <;> generalize d.natAbs = b at * <;> subst hn <;> subst hd
  all_goals
    by_cases az : a = 0
    · subst az
      simp
    by_cases bz : b = 0
    · subst bz
      simp
    have apos : 0 < a := Nat.pos_of_ne_zero az
    have bpos : 0 < b := Nat.pos_of_ne_zero bz
    have positive : ¬ (a : Int) < 0 ∧ ¬ (b : Int) < 0 := by omega
    simp [magnitudes, apos, bpos, positive]

theorem signed_tmod (n d : Int) : signed (decide (n < 0)) (n.natAbs % d.natAbs) = n.tmod d := by
  have magnitudes (a b : Nat) : ((a % b : Nat) : Int) = (a : Int).tmod b := rfl
  unfold signed
  rcases Int.natAbs_eq n with hn | hn <;> rcases Int.natAbs_eq d with hd | hd <;>
    generalize n.natAbs = a at * <;> generalize d.natAbs = b at * <;> subst hn <;> subst hd
  all_goals
    by_cases az : a = 0
    · subst az
      simp
    have apos : 0 < a := Nat.pos_of_ne_zero az
    simp [magnitudes, apos]

theorem nonzero_of_large (large : ¬ Small n) : n ≠ 0 := by
  rintro rfl
  exact large (by decide)

theorem quoRem_big {i : BigInteger} (proper : i.Proper) (nonzero : d ≠ 0) :
    (SlateInteger.big i).quoRem (canonical d) =
      if i.value.natAbs < d.natAbs then some (canonical 0, .big i)
      else if i.value.natAbs = d.natAbs then some (canonical 1, canonical 0)
      else some (canonical (i.value.tdiv d),
        canonical (signed (decide (d < 0)) (i.value.natAbs % d.natAbs))) := by
  obtain ⟨other, value2⟩ := coerced_canonical d
  have size1 := value_magnitude i
  have size2 := value_magnitude (canonical d).coerced
  have sign1 := proper_sign proper
  have sign2 := proper_sign other
  rw [value2] at size2 sign2
  have run : (SlateInteger.big i).quoRem (canonical d) = i.quoRem (canonical d).coerced := by
    by_cases small : Small d
    · rw [canonical_small small]
      exact if_neg nonzero
    · rw [canonical_big small]
      rfl
  have compared := compare_eq proper.numeral other.numeral
  rw [run, size1, size2]
  by_cases shorter : i.magnitude < (canonical d).coerced.magnitude
  · have less := order_lt.mpr (Int.ofNat_lt.mpr shorter)
    rw [if_pos shorter, BigInteger.quoRem, compared, if_pos less]
    rfl
  · rw [if_neg shorter]
    by_cases same : i.magnitude = (canonical d).coerced.magnitude
    · have equal := order_eq.mpr (congrArg (Nat.cast : Nat → Int) same)
      rw [if_pos same, BigInteger.quoRem, compared, equal]
      rfl
    · rw [if_neg same, BigInteger.quoRem_longer proper other (by omega) (by omega), ← size1,
        ← size2, ← signed_tdiv i.value d]
      have flag1 : i.isNegative = decide (i.value < 0) := by
        rw [Bool.eq_iff_iff, sign1, decide_eq_true_eq]
      have flag2 : (canonical d).coerced.isNegative = decide (d < 0) := by
        rw [Bool.eq_iff_iff, sign2, decide_eq_true_eq]
      rw [flag1, flag2]

theorem quoRem_large (large : ¬ Small n) (nonzero : d ≠ 0) :
    (canonical n).quoRem (canonical d) =
      if n.natAbs < d.natAbs then some (canonical 0, canonical n)
      else if n.natAbs = d.natAbs then some (canonical 1, canonical 0)
      else some (canonical (n.tdiv d),
        canonical (signed (decide (d < 0)) (n.natAbs % d.natAbs))) := by
  obtain ⟨proper, value⟩ := coerced_canonical n
  have run := quoRem_big proper nonzero
  rw [value] at run
  rw [canonical_big large] at run ⊢
  exact run

def Opposite (n d : Int) : Prop := n = -d ∧ ¬ (Small n ∧ Small d)

def Overflows (n d : Int) : Prop := n = minimumValue ∧ d = -1

theorem tdiv_of_less (less : n.natAbs < d.natAbs) : n.tdiv d = 0 := by
  apply Int.natAbs_eq_zero.mp
  rw [Int.natAbs_tdiv]
  exact Nat.div_eq_of_lt less

theorem quo_fst (n d : Int) (some_big : ¬ (Small n ∧ Small d)) (nonzero : d ≠ 0) :
    (canonical n).quo (canonical d) = ((canonical n).quoRem (canonical d)).map Prod.fst ∧
    (canonical n).rem (canonical d) = ((canonical n).quoRem (canonical d)).map Prod.snd := by
  by_cases small1 : Small n
  · have large2 : ¬ Small d := fun small2 => some_big ⟨small1, small2⟩
    rw [canonical_small small1, canonical_big large2]
    exact ⟨rfl, rfl⟩
  · rw [canonical_big small1]
    by_cases small2 : Small d
    · rw [canonical_small small2]
      simp only [SlateInteger.quo, SlateInteger.rem, SlateInteger.quoRem, if_neg nonzero]
      exact ⟨trivial, trivial⟩
    · rw [canonical_big small2]
      exact ⟨rfl, rfl⟩

theorem quo_exact (nonzero : d ≠ 0) (apart : ¬ Opposite n d) (fits : ¬ Overflows n d) :
    (canonical n).quo (canonical d) = some (canonical (n.tdiv d)) := by
  by_cases both : Small n ∧ Small d
  · obtain ⟨small1, small2⟩ := both
    rw [canonical_small small1, canonical_small small2,
      canonical_small (Tagged.small_tdiv small1 fits), SlateInteger.quo,
      primQuo_eq small1 small2 nonzero fits]
    rfl
  · have other : n ≠ -d := fun opposite => apart ⟨opposite, both⟩
    by_cases small1 : Small n
    · have large2 : ¬ Small d := fun small2 => both ⟨small1, small2⟩
      have less : n.natAbs < d.natAbs := by
        unfold Small minimumValue maximumValue at small1 large2
        omega
      rw [canonical_small small1, canonical_big large2, tdiv_of_less less]
      rfl
    · rw [(quo_fst n d both nonzero).1, quoRem_large small1 nonzero]
      by_cases less : n.natAbs < d.natAbs
      · rw [if_pos less, tdiv_of_less less]
        rfl
      · rw [if_neg less]
        by_cases same : n.natAbs = d.natAbs
        · have equal : n = d := by omega
          rw [if_pos same, equal, Int.tdiv_self nonzero]
          rfl
        · rw [if_neg same]
          rfl

end Quotient

section Floor

variable {n d : Int}

theorem canonical_isNegative (x : Int) : (canonical x).isNegative = decide (x < 0) := by
  by_cases small : Small x
  · rw [canonical_small small]
    rfl
  · rw [canonical_big small]
    rfl

theorem canonical_isZero (x : Int) : (canonical x).isZero = decide (x = 0) := by
  by_cases small : Small x
  · rw [canonical_small small]
    rfl
  · obtain ⟨proper, value⟩ := coerced_canonical x
    have size := value_magnitude (canonical x).coerced
    rw [value] at size
    have zero := isZero_eq proper.numeral
    rw [canonical_big small] at zero size ⊢
    rw [SlateInteger.isZero]
    refine zero.trans ?_
    rw [decide_eq_decide, ← size]
    exact Int.natAbs_eq_zero

theorem small_one : Small 1 := by decide

theorem fdiv_cases (nonzero : d ≠ 0) : n.fdiv d =
    if (decide (n < 0) ^^ decide (d < 0)) = true then
      if n.tdiv d * d = n then n.tdiv d else n.tdiv d - 1
    else n.tdiv d := by
  have whole : n.tdiv d * d = n ↔ d ∣ n := by
    constructor
    · intro product
      exact Dvd.intro_left _ product
    · exact Int.tdiv_mul_cancel
  have sign_neg (below : d < 0) : d.sign = -1 := Int.sign_eq_neg_one_of_neg below
  have sign_pos (above : 0 < d) : d.sign = 1 := Int.sign_eq_one_of_pos above
  rw [Int.fdiv_eq_tdiv]
  by_cases divides : d ∣ n
  · rw [if_pos divides, if_pos (whole.mpr divides), Int.sub_zero]
    split <;> rfl
  · rw [if_neg divides, if_neg (fun product => divides (whole.mp product))]
    rcases Int.lt_or_gt_of_ne nonzero with below | above
    · by_cases negative : n < 0
      · simp [negative, below, Int.not_le.mpr negative, Int.not_le.mpr below, sign_neg below]
      · simp [negative, below, Int.not_lt.mp negative, Int.not_le.mpr below]
    · by_cases negative : n < 0
      · simp [negative, above.le, Int.not_lt.mpr above.le, Int.not_le.mpr negative, sign_pos above]
      · simp [negative, Int.not_lt.mp negative, above.le, Int.not_lt.mpr above.le]

theorem floorQuo_of_quo (nonzero : d ≠ 0)
    (quotient : (canonical n).quo (canonical d) = some (canonical (n.tdiv d))) :
    (canonical n).floorQuo (canonical d) = some (canonical (n.fdiv d)) := by
  have one : SlateInteger.small 1 = canonical 1 := (canonical_small small_one).symm
  rw [SlateInteger.floorQuo, canonical_isZero, decide_eq_false nonzero, if_neg Bool.false_ne_true,
    quotient, canonical_isNegative, canonical_isNegative, fdiv_cases nonzero, one]
  simp only [Option.bind_eq_bind, Option.bind_some, times_exact, equal_exact, minus_exact,
    decide_eq_true_eq]
  split
  · split <;> rfl
  · rfl

theorem floorQuo_exact (nonzero : d ≠ 0) (apart : ¬ Opposite n d) (fits : ¬ Overflows n d) :
    (canonical n).floorQuo (canonical d) = some (canonical (n.fdiv d)) :=
  floorQuo_of_quo nonzero (quo_exact nonzero apart fits)

theorem floorRem_of_quo (nonzero : d ≠ 0)
    (quotient : (canonical n).quo (canonical d) = some (canonical (n.tdiv d))) :
    (canonical n).floorRem (canonical d) = some (canonical (n.fmod d)) := by
  have rest : n.fmod d = n - n.fdiv d * d := by
    rw [Int.fmod_def, Int.mul_comm]
  rw [SlateInteger.floorRem, floorQuo_of_quo nonzero quotient, rest]
  simp only [Option.bind_eq_bind, Option.bind_some, times_exact, minus_exact]

theorem floorRem_exact (nonzero : d ≠ 0) (apart : ¬ Opposite n d) (fits : ¬ Overflows n d) :
    (canonical n).floorRem (canonical d) = some (canonical (n.fmod d)) :=
  floorRem_of_quo nonzero (quo_exact nonzero apart fits)

theorem abs_exact (x : Int) : (canonical x).abs = some (canonical x.natAbs) := by
  rw [SlateInteger.abs, canonical_isNegative]
  by_cases negative : x < 0
  · have flipped : (x.natAbs : Int) = -x := by omega
    rw [if_pos (decide_eq_true negative), flipped]
    exact (negated_exact_iff x).mpr (by omega)
  · have same : (x.natAbs : Int) = x := by omega
    rw [decide_eq_false negative, if_neg Bool.false_ne_true, same]

end Floor

section Gcd

variable {n m : Int}

def Answers (n m : SlateInteger) (g : SlateInteger) : Prop :=
  ∃ rounds, ∀ more ≥ rounds, SlateInteger.gcdLoop more n m = some g

theorem Answers.zero (m : Int) : Answers (canonical 0) (canonical m) (canonical m.natAbs) := by
  refine ⟨1, fun more enough => ?_⟩
  obtain ⟨rounds, rfl⟩ : ∃ k, more = k + 1 := ⟨more - 1, by omega⟩
  rw [SlateInteger.gcdLoop, canonical_isZero, decide_eq_true rfl, if_pos rfl, abs_exact]

theorem Answers.step {r : SlateInteger} {g : SlateInteger} (nonzero : n ≠ 0)
    (rest : (canonical m).floorRem (canonical n) = some r) (answers : Answers r (canonical n) g) :
    Answers (canonical n) (canonical m) g := by
  obtain ⟨rounds, run⟩ := answers
  refine ⟨rounds + 1, fun more enough => ?_⟩
  obtain ⟨k, rfl⟩ : ∃ k, more = k + 1 := ⟨more - 1, by omega⟩
  rw [SlateInteger.gcdLoop, canonical_isZero, decide_eq_false nonzero, if_neg Bool.false_ne_true,
    rest]
  exact run k (by omega)

theorem fmod_sign (nonzero : n ≠ 0) : (m.fmod n).natAbs < n.natAbs ∧
    (m.fmod n = 0 ∨ (m.fmod n < 0 ↔ n < 0)) := by
  rcases Int.lt_or_gt_of_ne nonzero with below | above
  · have least := Int.fmod_nonneg_of_pos (-m) (Int.neg_pos.mpr below)
    have most := Int.fmod_lt_of_pos (-m) (Int.neg_pos.mpr below)
    have flipped : (-m).fmod (-n) = -(m.fmod n) := by
      rw [Int.fmod_def, Int.fmod_def, Int.neg_fdiv_neg]
      ring
    rw [flipped] at least most
    omega
  · have least := Int.fmod_nonneg_of_pos m above
    have most := Int.fmod_lt_of_pos m above
    omega

theorem gcd_fmod (n m : Int) : Int.gcd (m.fmod n) n = Int.gcd n m := by
  rw [Int.fmod_def, Int.gcd_sub_mul_left_left, Int.gcd_comm]

theorem gcdLoop_wrapped :
    Answers (canonical (-1)) (canonical minimumValue) (canonical (Int.gcd (-1) minimumValue)) := by
  have wrapped : (canonical minimumValue).quo (canonical (-1)) = some (canonical minimumValue) := by
    rw [canonical_small (by decide), canonical_small (by decide)]
    decide
  have wrong : (canonical minimumValue).floorRem (canonical (-1)) = some (canonical (-2 ^ 63)) := by
    have product := times_exact minimumValue (-1)
    have difference := minus_exact minimumValue (minimumValue * -1)
    have value : minimumValue - minimumValue * -1 = -2 ^ 63 := by decide
    rw [value] at difference
    rw [SlateInteger.floorRem, SlateInteger.floorQuo, canonical_isZero, canonical_isNegative,
      canonical_isNegative, wrapped]
    simp only [Option.bind_eq_bind, Option.bind_some]
    rw [if_neg (by decide), if_neg (by decide)]
    simp only [Option.bind_some, product, difference]
  have second := @floorRem_exact (-1) (-2 ^ 63) (by decide) (by unfold Opposite; decide)
    (by unfold Overflows; decide)
  have third := @floorRem_exact (-2 ^ 63) (-1) (by decide) (by unfold Opposite; decide)
    (by unfold Overflows; decide)
  have units : Int.gcd (-1) minimumValue = (-1 : Int).natAbs := by decide
  rw [units]
  apply Answers.step (by decide) wrong
  apply Answers.step (by decide) second
  apply Answers.step (by decide) third
  exact Answers.zero (-1)

theorem gcdLoop_eq (n m : Int) (signs : n = 0 ∨ (n < 0 ↔ m < 0)) :
    Answers (canonical n) (canonical m) (canonical (Int.gcd n m)) := by
  induction size : n.natAbs using Nat.strongRecOn generalizing n m with
  | ind k ih =>
    by_cases zero : n = 0
    · subst zero
      rw [Int.gcd_zero_left]
      exact Answers.zero m
    · obtain ⟨less, sign⟩ := @fmod_sign n m zero
      by_cases wraps : Overflows m n
      · obtain ⟨rfl, rfl⟩ := wraps
        exact gcdLoop_wrapped
      · have apart : ¬ Opposite m n := by
          rintro ⟨opposite, _⟩
          omega
        apply Answers.step zero (floorRem_exact zero apart wraps)
        rw [← gcd_fmod]
        exact ih _ (size ▸ less) _ _ sign rfl

end Gcd

section Exact

variable {n d q r : Int}

/-- Everything a division by `d` should give back. -/
structure DivisionExact (n d q r : Int) : Prop where
  whole : n = q * d + r
  less : r.natAbs < d.natAbs
  sign : r = 0 ∨ (r < 0 ↔ n < 0)
  quoRem : (canonical n).quoRem (canonical d) = some (canonical q, canonical r)
  quo : (canonical n).quo (canonical d) = some (canonical q)
  rem : (canonical n).rem (canonical d) = some (canonical r)
  floorQuo : (canonical n).floorQuo (canonical d) = some (canonical (n.fdiv d))
  floorRem : (canonical n).floorRem (canonical d) = some (canonical (n.fmod d))
  gcd : Answers (canonical n) (canonical d) (canonical (Int.gcd n d))

theorem canonical_injective {x y : Int} (same : canonical x = canonical y) : x = y := by
  have equal := equal_exact x y
  rw [same, equal_exact y y, decide_eq_true rfl] at equal
  exact of_decide_eq_true equal.symm

theorem tmod_sign (n d : Int) : n.tmod d = 0 ∨ (n.tmod d < 0 ↔ n < 0) := by
  have value := signed_tmod n d
  unfold signed at value
  by_cases negative : n < 0
  · rw [decide_eq_true negative, if_pos rfl] at value
    omega
  · rw [decide_eq_false negative, if_neg Bool.false_ne_true] at value
    omega

theorem tmod_less (n : Int) (nonzero : d ≠ 0) : (n.tmod d).natAbs < d.natAbs := by
  rw [Int.natAbs_tmod]
  exact Nat.mod_lt _ (Int.natAbs_pos.mpr nonzero)

theorem tmod_of_less (less : n.natAbs < d.natAbs) : n.tmod d = n := by
  rw [← signed_tmod, Nat.mod_eq_of_lt less]
  unfold signed
  by_cases negative : n < 0
  · rw [decide_eq_true negative, if_pos rfl]
    omega
  · rw [decide_eq_false negative, if_neg Bool.false_ne_true]
    omega

theorem less_of_small (some_big : ¬ (Small n ∧ Small d)) (apart : n ≠ -d) (small : Small n) :
    n.natAbs < d.natAbs := by
  have large : ¬ Small d := fun small' => some_big ⟨small, small'⟩
  unfold Small minimumValue maximumValue at small large
  omega

theorem quoRem_exact (nonzero : d ≠ 0) (some_big : ¬ (Small n ∧ Small d)) (apart : n ≠ -d)
    (signs : n.natAbs < d.natAbs ∨ (n < 0 ↔ d < 0) ∨ d ∣ n) :
    (canonical n).quoRem (canonical d) = some (canonical (n.tdiv d), canonical (n.tmod d)) := by
  by_cases small : Small n
  · have less := less_of_small some_big apart small
    have large : ¬ Small d := fun small' => some_big ⟨small, small'⟩
    rw [tdiv_of_less less, tmod_of_less less, canonical_small small, canonical_big large]
    rfl
  · rw [quoRem_large small nonzero]
    by_cases less : n.natAbs < d.natAbs
    · rw [if_pos less, tdiv_of_less less, tmod_of_less less]
    · rw [if_neg less]
      by_cases same : n.natAbs = d.natAbs
      · obtain rfl : n = d := by omega
        rw [if_pos same, Int.tdiv_self nonzero, Int.tmod_self]
      · rw [if_neg same]
        congr 2
        rcases signs with less' | agree | divides
        · exact absurd less' less
        · rw [← signed_tmod, decide_eq_decide.mpr agree]
        · have none : n.natAbs % d.natAbs = 0 := Nat.mod_eq_zero_of_dvd (Int.natAbs_dvd_natAbs.mpr divides)
          rw [none, Int.tmod_eq_zero_of_dvd divides]
          simp [signed]

theorem rem_flipped (nonzero : d ≠ 0) (large : ¬ Small n) (longer : d.natAbs < n.natAbs)
    (signs : ¬ (n < 0 ↔ d < 0)) (rest : ¬ d ∣ n) (exact_nd : DivisionExact n d q r) : False := by
  have run := exact_nd.quoRem
  rw [quoRem_large large nonzero, if_neg (by omega), if_neg (by omega)] at run
  have same := canonical_injective (Prod.mk.inj (Option.some.inj run)).2
  have some_rest : n.natAbs % d.natAbs ≠ 0 := fun none =>
    rest (Int.natAbs_dvd_natAbs.mp (Nat.dvd_of_mod_eq_zero none))
  have sign := exact_nd.sign
  rw [← same] at sign
  unfold signed at sign
  by_cases negative : d < 0
  · rw [decide_eq_true negative, if_pos rfl] at sign
    omega
  · rw [decide_eq_false negative, if_neg Bool.false_ne_true] at sign
    omega

theorem quo_opposite (nonzero : d ≠ 0) (some_big : ¬ (Small n ∧ Small d)) (opposite : n = -d)
    (exact_nd : DivisionExact n d q r) : False := by
  have run := exact_nd.quoRem
  have whole := exact_nd.whole
  have less := exact_nd.less
  by_cases small : Small n
  · have large : ¬ Small d := fun small' => some_big ⟨small, small'⟩
    have quotient := exact_nd.quo
    rw [canonical_small small, canonical_big large] at quotient
    have zero : canonical 0 = canonical q := Option.some.inj quotient
    rw [← canonical_injective zero] at whole
    omega
  · rw [quoRem_large small nonzero, if_neg (by omega), if_pos (by omega)] at run
    have one := canonical_injective (Prod.mk.inj (Option.some.inj run)).1
    rw [← one] at whole
    omega

/-- Division is exact but where the numbers are opposite, or their signs differ and a remainder is
left. -/
theorem division_exact_iff (nonzero : d ≠ 0) (some_big : ¬ (Small n ∧ Small d)) :
    (∃ q r, DivisionExact n d q r) ↔
      n ≠ -d ∧ (n.natAbs < d.natAbs ∨ (n < 0 ↔ d < 0) ∨ d ∣ n) := by
  constructor
  · rintro ⟨q, r, exact_nd⟩
    have apart : n ≠ -d := fun opposite => quo_opposite nonzero some_big opposite exact_nd
    refine ⟨apart, ?_⟩
    by_contra others
    obtain ⟨longer, signs, rest⟩ : ¬ n.natAbs < d.natAbs ∧ ¬ (n < 0 ↔ d < 0) ∧ ¬ d ∣ n := by
      tauto
    have large : ¬ Small n := fun small => longer (less_of_small some_big apart small)
    exact rem_flipped nonzero large (by omega) signs rest exact_nd
  · rintro ⟨apart, signs⟩
    have run := quoRem_exact nonzero some_big apart signs
    obtain ⟨first, second⟩ := quo_fst n d some_big nonzero
    have kept : ¬ Opposite n d := fun opposite => apart opposite.1
    have fits : ¬ Overflows n d := by
      rintro ⟨rfl, rfl⟩
      exact some_big ⟨by decide, by decide⟩
    refine ⟨n.tdiv d, n.tmod d, ?_⟩
    constructor
    · rw [Int.mul_comm]
      exact (Int.mul_tdiv_add_tmod n d).symm
    · exact tmod_less n nonzero
    · exact tmod_sign n d
    · exact run
    · rw [first, run]
      rfl
    · rw [second, run]
      rfl
    · exact floorQuo_exact nonzero kept fits
    · exact floorRem_exact nonzero kept fits
    · by_cases zero : n = 0
      · subst zero
        rw [Int.gcd_zero_left]
        exact Answers.zero d
      · have first_step := @floorRem_exact d n zero
          (fun opposite => apart (by rw [opposite.1, Int.neg_neg]))
          (fun overflows => some_big
            ⟨by rw [overflows.2]; decide, by rw [overflows.1]; decide⟩)
        apply Answers.step zero first_step
        rw [← gcd_fmod]
        exact gcdLoop_eq _ _ (fmod_sign zero).2

/-- A big integer by a small one. -/
theorem division_exact_mixed : ∃ q r, DivisionExact (-(2 ^ 70)) (-3) q r :=
  (division_exact_iff (by decide) (by decide)).mpr ⟨by decide, Or.inr (Or.inl (by decide))⟩

/-- 2^64 by its negation, and -2^64 - 1 by 2^63. -/
theorem division_not_exact : (¬ ∃ q r, DivisionExact (2 ^ 64) (-(2 ^ 64)) q r) ∧
    ¬ ∃ q r, DivisionExact (-(2 ^ 64) - 1) (2 ^ 63) q r := by
  constructor
  · rintro ⟨q, r, exact_nd⟩
    exact quo_opposite (by decide) (by decide) (by decide) exact_nd
  · rintro ⟨q, r, exact_nd⟩
    exact rem_flipped (by decide) (by decide) (by decide) (by decide) (by decide) exact_nd

end Exact

end SlateVm
