import SlateVm.Number.Fraction

/-! Division by a common divisor. It goes wrong for one kind of number: a negative big integer
that is divided by its own magnitude. -/
namespace SlateVm

open SlateInteger

section Reaches

variable {α β : Type}

def Reaches (run : Nat → Option α) (outcome : Option α) : Prop :=
  ∃ rounds, ∀ more ≥ rounds, run more = outcome

theorem Reaches.const (outcome : Option α) : Reaches (fun _ => outcome) outcome :=
  ⟨0, fun _ _ => rfl⟩

theorem Reaches.unique {run : Nat → Option α} {one other : Option α} (first : Reaches run one)
    (second : Reaches run other) : one = other := by
  obtain ⟨rounds1, run1⟩ := first
  obtain ⟨rounds2, run2⟩ := second
  rw [← run1 (max rounds1 rounds2) (le_max_left _ _),
    ← run2 (max rounds1 rounds2) (le_max_right _ _)]

theorem Reaches.bind {run : Nat → Option α} {next : Nat → α → Option β} {a : α}
    {outcome : Option β} (first : Reaches run (some a))
    (second : Reaches (fun rounds => next rounds a) outcome) :
    Reaches (fun rounds => (run rounds).bind (next rounds)) outcome := by
  obtain ⟨rounds1, run1⟩ := first
  obtain ⟨rounds2, run2⟩ := second
  refine ⟨max rounds1 rounds2, fun more enough => ?_⟩
  show (run more).bind _ = _
  rw [run1 more ((le_max_left _ _).trans enough), Option.bind_some]
  exact run2 more ((le_max_right _ _).trans enough)

theorem Reaches.bind_none {run : Nat → Option α} (next : Nat → α → Option β)
    (first : Reaches run none) : Reaches (fun rounds => (run rounds).bind (next rounds)) none := by
  obtain ⟨rounds, never⟩ := first
  refine ⟨rounds, fun more enough => ?_⟩
  show (run more).bind _ = _
  rw [never more enough, Option.bind_none]

end Reaches

section Forms

variable {a : SlateInteger} {v d x : Int}

/-- A representation of the integer, which may be longer than it should be. -/
inductive Form (a : SlateInteger) (v : Int) : Prop
  | short (same : a = canonical v)
  | long (i : BigInteger) (same : a = .big i) (proper : i.Proper) (value : i.value = v)

def SlateInteger.isBig : SlateInteger → Bool
  | small _ => false
  | big _ => true

theorem canonical_isBig (x : Int) : (canonical x).isBig = decide (¬ Small x) := by
  by_cases small : Small x
  · rw [canonical_small small, decide_eq_false (not_not.mpr small)]
    rfl
  · rw [canonical_big small, decide_eq_true small]
    rfl

theorem Form.times (form : Form a v) (x : Int) :
    a.times (canonical x) = some (canonical (v * x)) := by
  cases form with
  | short same =>
    rw [same]
    exact times_exact v x
  | long i same proper value =>
    obtain ⟨other, value'⟩ := coerced_canonical x
    have product := times_eq proper other
    rw [value, value'] at product
    rw [← product, same]
    cases canonical x <;> rfl

theorem Form.times_right (form : Form a v) (x : Int) :
    (canonical x).times a = some (canonical (x * v)) := by
  cases form with
  | short same =>
    rw [same]
    exact times_exact x v
  | long i same proper value =>
    obtain ⟨other, value'⟩ := coerced_canonical x
    have product := times_eq other proper
    rw [value, value'] at product
    rw [← product, same]
    cases canonical x <;> rfl

theorem Form.equal_right (form : Form a v) (x : Int) :
    (canonical x).equal a = decide (x = v) := by
  cases form with
  | short same =>
    rw [same]
    exact equal_exact x v
  | long i same proper value =>
    obtain ⟨other, value'⟩ := coerced_canonical x
    have equal := equal_eq other proper
    rw [value, value'] at equal
    rw [← equal, same]
    cases canonical x <;> rfl

theorem Form.isNegative (form : Form a v) : a.isNegative = decide (v < 0) := by
  cases form with
  | short same =>
    rw [same]
    exact canonical_isNegative v
  | long i same proper value =>
    rw [same, SlateInteger.isNegative, Bool.eq_iff_iff, proper_sign proper, decide_eq_true_eq,
      value]

theorem Form.floorQuo_of_quo (form : Form a v) (positive : 0 < d) {q : Int}
    (quotient : a.quo (canonical d) = some (canonical q)) :
    a.floorQuo (canonical d) =
      some (canonical (if v < 0 then if q * d = v then q else q - 1 else q)) := by
  rw [SlateInteger.floorQuo, canonical_isZero, decide_eq_false positive.ne',
    if_neg Bool.false_ne_true, quotient, form.isNegative, canonical_isNegative,
    decide_eq_false (not_lt.mpr positive.le), Bool.xor_false, canonical_one]
  simp only [Option.bind_eq_bind, Option.bind_some, times_exact, form.equal_right, minus_exact,
    decide_eq_true_eq]
  split
  · split <;> rfl
  · rfl

def cut (a : SlateInteger) (v d : Int) : Int := if v = -d ∧ a.isBig then 0 else v / d

theorem ediv_of_tdiv (positive : 0 < d) :
    (if v < 0 then if v.tdiv d * d = v then v.tdiv d else v.tdiv d - 1 else v.tdiv d) = v / d := by
  have cases := fdiv_cases (n := v) positive.ne'
  rw [decide_eq_false (not_lt.mpr positive.le), Bool.xor_false,
    Int.fdiv_eq_ediv_of_nonneg v positive.le] at cases
  simp only [decide_eq_true_eq] at cases
  exact cases.symm

theorem Form.floorQuo (form : Form a v) (positive : 0 < d) :
    a.floorQuo (canonical d) = some (canonical (cut a v d)) := by
  have wrong : v = -d → (if v < 0 then if 1 * d = v then 1 else 1 - 1 else 1) = (0 : Int) := by
    intro opposite
    rw [if_pos (by omega), if_neg (by omega)]
    rfl
  unfold cut
  cases form with
  | short same =>
    subst same
    have form : Form (canonical v) v := .short rfl
    rw [canonical_isBig]
    by_cases small : Small v
    · rw [if_neg (by simp [small])]
      by_cases opposite : Opposite v d
      · -- the least small integer by its magnitude: zero is one too much
        have large : ¬ Small d := fun small' => opposite.2 ⟨small, small'⟩
        have quotient : (canonical v).quo (canonical d) = some (canonical 0) := by
          rw [canonical_small small, canonical_big large, canonical_small (by decide)]
          rfl
        rw [form.floorQuo_of_quo positive quotient, opposite.1, if_pos (by omega),
          if_neg (by omega), Int.neg_ediv_of_dvd dvd_rfl, Int.ediv_self positive.ne']
        rfl
      · rw [form.floorQuo_of_quo positive (quo_exact positive.ne' opposite fun overflows =>
          absurd overflows.2 (by omega)), ediv_of_tdiv positive]
    · by_cases opposite : v = -d
      · have quotient : (canonical v).quo (canonical d) = some (canonical 1) := by
          rw [(quo_fst v d (fun both => small both.1) positive.ne').1,
            quoRem_large small positive.ne', if_neg (by omega), if_pos (by omega)]
          rfl
        rw [form.floorQuo_of_quo positive quotient, wrong opposite,
          if_pos ⟨opposite, decide_eq_true small⟩]
      · rw [if_neg (fun both => opposite both.1), form.floorQuo_of_quo positive
          (quo_exact positive.ne' (fun both => opposite both.1) fun overflows =>
            absurd overflows.2 (by omega)), ediv_of_tdiv positive]
  | long i same proper value =>
    subst same value
    have form : Form (.big i) i.value := .long i rfl proper rfl
    have first : (SlateInteger.big i).quo (canonical d) =
        ((SlateInteger.big i).quoRem (canonical d)).map Prod.fst := by
      by_cases small : Small d
      · rw [canonical_small small]
        simp only [SlateInteger.quo, SlateInteger.quoRem, if_neg positive.ne']
      · rw [canonical_big small]
        rfl
    have run := quoRem_big proper positive.ne'
    by_cases opposite : i.value = -d
    · rw [if_neg (by omega), if_pos (by omega)] at run
      rw [run] at first
      rw [@Form.floorQuo_of_quo _ _ _ form positive 1 first, wrong opposite, if_pos ⟨opposite, rfl⟩]
    · have quotient : (SlateInteger.big i).quo (canonical d) = some (canonical (i.value.tdiv d)) := by
        rw [first, run]
        by_cases less : i.value.natAbs < d.natAbs
        · rw [if_pos less, tdiv_of_less less]
          rfl
        · rw [if_neg less]
          by_cases same : i.value.natAbs = d.natAbs
          · have equal : i.value = d := by omega
            rw [if_pos same, equal, Int.tdiv_self positive.ne']
            rfl
          · rw [if_neg same]
            rfl
      rw [if_neg (fun both => opposite both.1), form.floorQuo_of_quo positive quotient,
        ediv_of_tdiv positive]

end Forms

section Gcd

variable {a : SlateInteger} {v w : Int}

theorem minus_zero {i : BigInteger} (proper : i.Proper) (large : 2 ^ 62 ≤ i.value.natAbs) :
    ∃ b : BigInteger, (SlateInteger.big i).minus (canonical 0) = some (.big b) ∧ b.Proper ∧
      b.value = i.value := by
  obtain ⟨zero, none⟩ := asBigInteger_proper 0
  have run : (SlateInteger.big i).minus (canonical 0) = i.minus (asBigInteger 0) := by
    rw [canonical_small (by decide)]
    rfl
  rw [run]
  by_cases negative : i.value < 0
  · have sign := (proper_sign proper).mpr negative
    have plain : (asBigInteger 0).isNegative = false := by
      rw [Bool.eq_false_iff, ne_eq, proper_sign zero, none]
      decide
    have nothing : (asBigInteger 0).magnitude = 0 := by
      rw [← value_magnitude, none]
      rfl
    obtain ⟨numeral, magnitude, kept⟩ := add_eq proper.numeral zero.numeral
    rw [nothing, Nat.add_zero] at magnitude
    refine ⟨i.add (asBigInteger 0), ?_, ⟨numeral, ?_⟩, ?_⟩
    · rw [BigInteger.minus, sign, plain]
      rfl
    · rw [magnitude]
      intro _
      exact proper.signed sign
    · rw [BigInteger.value, BigInteger.value, kept, magnitude]
  · have big : ¬ Small i.value := by
      unfold Small maximumValue
      omega
    obtain ⟨proper', value'⟩ := coerced_canonical i.value
    have difference := minus_big proper zero fun differ => by
      rw [none] at differ
      omega
    rw [none, Int.sub_zero] at difference
    rw [canonical_big big] at difference proper' value'
    exact ⟨_, difference, proper', value'⟩

theorem floorRem_opposite {i j : BigInteger} (one : i.Proper) (other : j.Proper)
    (opposite : j.value = -i.value) (large : 2 ^ 62 ≤ i.value.natAbs) :
    ∃ b : BigInteger, (SlateInteger.big i).floorRem (.big j) = some (.big b) ∧ b.Proper ∧
      b.value = i.value := by
  obtain ⟨b, run, proper, value⟩ := minus_zero one large
  refine ⟨b, ?_, proper, value⟩
  have form : Form (.big j) j.value := .long j rfl other rfl
  have whole : Form (.big i) i.value := .long i rfl one rfl
  have compared := compare_eq one.numeral other.numeral
  have size1 := value_magnitude i
  have size2 := value_magnitude j
  have equal : order i.magnitude j.magnitude = 0 := order_eq.mpr (by omega)
  have quotient : (SlateInteger.big i).quo (.big j) = some (canonical 1) := by
    rw [SlateInteger.quo, BigInteger.quoRem, compared, equal]
    rfl
  have zero : (SlateInteger.big j).isZero = false := by
    rw [SlateInteger.isZero, isZero_eq other.numeral]
    exact decide_eq_false (by omega)
  have signs : (decide (i.value < 0) ^^ decide (j.value < 0)) = true := by
    by_cases negative : i.value < 0
    · rw [decide_eq_true negative, decide_eq_false (by omega)]
      rfl
    · rw [decide_eq_false negative, decide_eq_true (by omega)]
      rfl
  have floor : (SlateInteger.big i).floorQuo (.big j) = some (canonical 0) := by
    rw [SlateInteger.floorQuo, zero, if_neg Bool.false_ne_true, quotient, whole.isNegative,
      form.isNegative, signs, canonical_one]
    simp only [Option.bind_eq_bind, Option.bind_some, form.times_right, whole.equal_right,
      minus_exact, if_true]
    rw [decide_eq_false (by omega), if_neg Bool.false_ne_true]
    rfl
  rw [SlateInteger.floorRem, floor]
  simp only [Option.bind_eq_bind, Option.bind_some, form.times_right, Int.zero_mul]
  exact run

theorem gcdLoop_opposite (rounds : Nat) {i j : BigInteger} (one : i.Proper) (other : j.Proper)
    (opposite : j.value = -i.value) (large : 2 ^ 62 ≤ i.value.natAbs) :
    gcdLoop rounds (.big j) (.big i) = none := by
  induction rounds generalizing i j with
  | zero => rfl
  | succ rounds ih =>
    obtain ⟨b, run, proper, value⟩ := floorRem_opposite one other opposite large
    have zero : (SlateInteger.big j).isZero = false := by
      rw [SlateInteger.isZero, isZero_eq other.numeral, ← value_magnitude]
      exact decide_eq_false (by omega)
    rw [gcdLoop, zero, if_neg Bool.false_ne_true, run]
    exact ih other proper (by omega) (by omega)

theorem canonical_eq_big {v : Int} (large : ¬ Small v) :
    ∃ i : BigInteger, canonical v = .big i ∧ i.Proper ∧ i.value = v := by
  obtain ⟨proper, value⟩ := coerced_canonical v
  rw [canonical_big large] at proper value ⊢
  exact ⟨_, rfl, proper, value⟩

theorem gcd_reaches (v : Int) (positive : 0 < w) :
    Reaches (fun rounds => gcd rounds (canonical v) (canonical w))
      (if v = -w ∧ ¬ Small v then none else some (canonical (Int.gcd v w))) := by
  by_cases natural : 0 ≤ v
  · rw [if_neg (by omega)]
    exact gcdLoop_eq v w (by omega)
  · by_cases opposite : Opposite w v
    · obtain ⟨minus, big⟩ := opposite
      have large : ¬ Small w := by
        unfold Small minimumValue maximumValue at *
        omega
      by_cases small : Small v
      · -- the least small integer and its magnitude come to zero one round later
        rw [if_neg fun both => both.2 small]
        have quotient : (canonical w).quo (canonical v) = some (canonical 1) := by
          rw [(quo_fst w v big (by omega)).1, quoRem_large large (by omega), if_neg (by omega),
            if_pos (by omega)]
          rfl
        have floor : (canonical w).floorQuo (canonical v) = some (canonical 0) := by
          have signs : (decide (w < 0) ^^ decide (v < 0)) = true := by
            rw [decide_eq_false (by omega), decide_eq_true (by omega)]
            rfl
          rw [SlateInteger.floorQuo, canonical_isZero, decide_eq_false (by omega),
            if_neg Bool.false_ne_true, quotient, canonical_isNegative, canonical_isNegative, signs,
            canonical_one]
          simp only [Option.bind_eq_bind, Option.bind_some, times_exact, equal_exact, minus_exact,
            if_true]
          rw [decide_eq_false (by omega), if_neg Bool.false_ne_true]
          rfl
        have first : (canonical w).floorRem (canonical v) = some (canonical w) := by
          rw [SlateInteger.floorRem, floor]
          simp only [Option.bind_eq_bind, Option.bind_some, times_exact, Int.zero_mul, minus_exact,
            Int.sub_zero]
        have whole : v / w = -1 := by
          rw [show v = -w by omega, Int.neg_ediv_of_dvd dvd_rfl, Int.ediv_self positive.ne']
        have second : (canonical v).floorRem (canonical w) = some (canonical 0) := by
          have short : cut (canonical v) v w = -1 := by
            rw [cut, canonical_isBig, if_neg (by simp [small]), whole]
          rw [SlateInteger.floorRem, Form.floorQuo (.short rfl) positive, short]
          simp only [Option.bind_eq_bind, Option.bind_some, times_exact, minus_exact]
          congr 2
          omega
        have divisor : (Int.gcd v w : Int) = w.natAbs := by
          rw [show v = -w by omega, Int.neg_gcd, Int.gcd_self]
        rw [divisor]
        apply Answers.step (by omega) first
        apply Answers.step positive.ne' second
        exact Answers.zero w
      · rw [if_pos ⟨by omega, small⟩]
        obtain ⟨i, form, proper, value⟩ := canonical_eq_big large
        obtain ⟨j, form', proper', value'⟩ := canonical_eq_big small
        refine ⟨0, fun rounds _ => ?_⟩
        show gcdLoop rounds _ _ = none
        rw [form, form']
        apply gcdLoop_opposite rounds proper proper' (by omega)
        unfold Small minimumValue maximumValue at *
        omega
    · rw [if_neg fun both => opposite ⟨by omega, fun smalls => both.2 smalls.2⟩]
      obtain ⟨_, sign⟩ := @fmod_sign v w (by omega)
      apply Answers.step (by omega) (floorRem_exact (by omega) opposite fun overflows => by
        have minus := overflows.1
        unfold minimumValue at minus
        omega)
      rw [← gcd_fmod]
      exact gcdLoop_eq _ _ sign

theorem Form.floorRem (form : Form a v) (positive : 0 < w) (apart : ¬ (v = -w ∧ a.isBig)) :
    a.floorRem (canonical w) = some (canonical (v % w)) := by
  have rest : v % w = v - v / w * w := by
    have whole := Int.mul_ediv_add_emod v w
    linarith
  rw [SlateInteger.floorRem, form.floorQuo positive, cut, if_neg apart, rest]
  simp only [Option.bind_eq_bind, Option.bind_some, times_exact]
  cases form with
  | short same => rw [same, minus_exact]
  | long i same proper value =>
    obtain ⟨other, value'⟩ := coerced_canonical (v / w * w)
    have difference := minus_big proper other fun differ => by
      rw [value, value'] at differ
      have least := Int.emod_nonneg v positive.ne'
      have most := Int.emod_lt_of_pos v positive
      exfalso
      apply differ
      constructor
      · intro negative
        omega
      · intro negative
        by_contra natural
        have quotient := Int.ediv_nonneg (Int.not_lt.mp natural) positive.le
        have product := Int.mul_nonneg quotient positive.le
        omega
    rw [value, value'] at difference
    rw [same, ← difference]
    cases canonical (v / w * w) <;> rfl

theorem Form.gcd_reaches (form : Form a v) (positive : 0 < w)
    (size : a.isBig → 2 ^ 62 ≤ v.natAbs) :
    Reaches (fun rounds => gcd rounds (canonical w) a)
      (if v = -w ∧ a.isBig then none else some (canonical (Int.gcd w v))) := by
  by_cases opposite : v = -w ∧ a.isBig
  · rw [if_pos opposite]
    have large : ¬ Small w := by
      have long := size opposite.2
      unfold Small maximumValue
      omega
    obtain ⟨j, form', proper', value'⟩ := canonical_eq_big large
    have whole : ∃ i : BigInteger, a = .big i ∧ i.Proper ∧ i.value = v := by
      cases form with
      | short same =>
        rw [same] at opposite ⊢
        apply canonical_eq_big
        rw [canonical_isBig] at opposite
        exact of_decide_eq_true opposite.2
      | long i same proper value => exact ⟨i, same, proper, value⟩
    obtain ⟨i, same, proper, value⟩ := whole
    refine ⟨0, fun rounds _ => ?_⟩
    show gcdLoop rounds _ _ = none
    rw [form', same]
    exact gcdLoop_opposite rounds proper proper' (by omega) (by have long := size opposite.2; omega)
  · rw [if_neg opposite]
    have least := Int.emod_nonneg v positive.ne'
    obtain ⟨rounds, run⟩ := gcdLoop_eq (v % w) w (by omega)
    have divisor : Int.gcd (v % w) w = Int.gcd w v := by
      rw [← Int.fmod_eq_emod_of_nonneg v positive.le]
      exact gcd_fmod w v
    refine ⟨rounds + 1, fun more enough => ?_⟩
    obtain ⟨k, rfl⟩ : ∃ k, more = k + 1 := ⟨more - 1, by omega⟩
    show gcdLoop (k + 1) _ _ = _
    rw [gcdLoop, canonical_isZero, decide_eq_false positive.ne', if_neg Bool.false_ne_true,
      form.floorRem positive opposite, ← divisor]
    exact run k (by omega)

end Gcd

end SlateVm
