import Mathlib.Data.Rat.Lemmas
import Mathlib.Data.Rat.Floor
import Mathlib.RingTheory.Coprime.Lemmas
import Mathlib.RingTheory.Int.Basic
import Mathlib.Tactic.FieldSimp
import SlateVm.Number.Cancelling

/-! What the operations of fractions are to answer, as rational numbers, and which cancelling
makes them answer something else. -/
namespace SlateVm

open SlateInteger

section Values

variable {a : SlateInteger} {v n d : Int} {q : ℚ}

def SlateInteger.value : SlateInteger → Int
  | small x => x
  | big i => i.value

theorem canonical_value (x : Int) : (canonical x).value = x := by
  by_cases small : Small x
  · rw [canonical_small small]
    rfl
  · obtain ⟨i, form, _, value⟩ := canonical_eq_big small
    rw [form]
    exact value

theorem Form.value (form : Form a v) : a.value = v := by
  cases form with
  | short same => rw [same, canonical_value]
  | long i same proper value => rw [same, ← value, SlateInteger.value]

/-- An integer stands for itself, and a fraction for a number that is no integer, in lowest
terms. -/
def SlateNumber.Represents : SlateNumber → ℚ → Prop
  | .integer i, q => (i.value : ℚ) = q
  | .fraction f, q => f.numerator.value = q.num ∧ f.denominator.value = q.den ∧ 2 ≤ q.den

def Right (run : Nat → Option SlateNumber) (q : ℚ) : Prop :=
  ∃ v, Reaches run (some v) ∧ v.Represents q

theorem right_iff {run : Nat → Option SlateNumber} {outcome : SlateNumber}
    (reaches : Reaches run (some outcome)) : Right run q ↔ outcome.Represents q := by
  constructor
  · rintro ⟨v, settles, represents⟩
    rw [Option.some.inj (reaches.unique settles)]
    exact represents
  · exact fun represents => ⟨outcome, reaches, represents⟩

theorem not_right {run : Nat → Option SlateNumber} (never : Reaches run none) : ¬ Right run q := by
  rintro ⟨v, settles, _⟩
  nomatch never.unique settles

theorem represents_integer (n : Int) : (SlateNumber.integer (canonical n)).Represents n := by
  rw [SlateNumber.Represents, canonical_value]

theorem represents_lowest (large : 2 ≤ d) (coprime : Int.gcd n d = 1) :
    (SlateNumber.fraction ⟨canonical n, canonical d⟩).Represents (n / d : ℚ) := by
  have num := Rat.num_div_eq_of_coprime (by omega : 0 < d) coprime
  have den := Rat.den_div_eq_of_coprime (by omega : 0 < d) coprime
  simp only [SlateNumber.Represents, canonical_value]
  exact ⟨num.symm, den.symm, by omega⟩

theorem not_represents_zero (nonzero : q ≠ 0) (f : Fraction) (zero : f.numerator.value = 0) :
    ¬ (SlateNumber.fraction f).Represents q := by
  rintro ⟨num, _⟩
  rw [zero] at num
  exact nonzero (Rat.num_eq_zero.mp num.symm)

end Values

section Parts

variable {a b c d g : Int}

theorem newFor_positive (n : SlateInteger) (positive : 0 < d) :
    Fraction.newFor n (canonical d) = some ⟨n, canonical d⟩ := by
  rw [Fraction.newFor, canonical_isNegative, decide_eq_false (by omega), if_neg Bool.false_ne_true]

theorem floorQuo_positive (natural : 0 ≤ a) (positive : 0 < d) :
    (canonical a).floorQuo (canonical d) = some (canonical (a / d)) := by
  rw [Form.floorQuo (.short rfl) positive, cut, if_neg (by omega)]

theorem cut_natural (i : SlateInteger) (natural : 0 ≤ a) (positive : 0 < d) :
    cut i a d = a / d := by
  rw [cut, if_neg (by omega)]

theorem minus_gcd_iff (nonzero : d ≠ 0) : a = -(Int.gcd a d : Int) ↔ a < 0 ∧ a ∣ d := by
  have positive : 0 < Int.gcd a d := Int.gcd_pos_of_ne_zero_right a nonzero
  constructor
  · intro own
    refine ⟨by omega, ?_⟩
    rw [own, Int.neg_dvd]
    exact Int.gcd_dvd_right a d
  · rintro ⟨negative, divides⟩
    have magnitude : Int.gcd a d = a.natAbs :=
      Nat.gcd_eq_left (Int.natAbs_dvd_natAbs.mpr divides)
    omega

def Cancels (i : SlateInteger) (n d : Int) : Prop := n < 0 ∧ i.isBig ∧ n ∣ d

theorem cut_gcd (i : SlateInteger) (nonzero : d ≠ 0) (cancels : ¬ Cancels i a d) :
    cut i a (Int.gcd a d) = a / Int.gcd a d := by
  rw [cut, if_neg]
  rintro ⟨own, big⟩
  obtain ⟨negative, divides⟩ := (minus_gcd_iff nonzero).mp own
  exact cancels ⟨negative, big, divides⟩

theorem cut_cancels {i : SlateInteger} (nonzero : d ≠ 0) (cancels : Cancels i a d) :
    cut i a (Int.gcd a d) = 0 := by
  obtain ⟨negative, big, divides⟩ := cancels
  rw [cut, if_pos ⟨(minus_gcd_iff nonzero).mpr ⟨negative, divides⟩, big⟩]

theorem split_gcd (nonzero : d ≠ 0) : ∃ m n g : Int, 0 < g ∧ (Int.gcd a d : Int) = g ∧
    a = m * g ∧ d = n * g ∧ IsCoprime m n := by
  have positive : 0 < Int.gcd a d := Int.gcd_pos_of_ne_zero_right a nonzero
  obtain ⟨m, n, lowest, split1, split2⟩ := Int.exists_gcd_one positive
  exact ⟨m, n, Int.gcd a d, by exact_mod_cast positive, rfl, split1, split2,
    Int.isCoprime_iff_gcd_eq_one.mpr lowest⟩

end Parts

section Times

variable {a b c d : Int} {c' : SlateInteger}

theorem times_reaches (form : Form c' c) (size : c'.isBig → 2 ^ 62 ≤ c.natAbs) (one : 0 < b)
    (other : 0 < d) (ends1 : ¬ (a = -d ∧ ¬ Small a)) (ends2 : ¬ (c = -b ∧ c'.isBig)) :
    Reaches (fun rounds => Fraction.times rounds ⟨canonical a, canonical b⟩ ⟨c', canonical d⟩)
      (some (if (Int.gcd b c : Int) = b ∧ (Int.gcd a d : Int) = d then
        .integer (canonical (cut (canonical (cut (canonical a) a (Int.gcd a d) * c))
          (cut (canonical a) a (Int.gcd a d) * c) (Int.gcd b c)))
      else .fraction ⟨canonical (cut (canonical a) a (Int.gcd a d) * cut c' c (Int.gcd b c)),
        canonical (b / Int.gcd b c * (d / Int.gcd a d))⟩)) := by
  have first := gcd_reaches a other
  have second := form.gcd_reaches one size
  rw [if_neg ends1] at first
  rw [if_neg ends2] at second
  have divisor1 : (0 : Int) < Int.gcd a d := by
    exact_mod_cast Int.gcd_pos_of_ne_zero_right a other.ne'
  have divisor2 : (0 : Int) < Int.gcd b c := by
    exact_mod_cast Int.gcd_pos_of_ne_zero_left c one.ne'
  have bottom : 0 < b / Int.gcd b c * (d / Int.gcd a d) := by
    apply mul_pos
    · exact Int.ediv_pos_of_pos_of_dvd one divisor2.le (Int.gcd_dvd_left b c)
    · exact Int.ediv_pos_of_pos_of_dvd other divisor1.le (Int.gcd_dvd_right a d)
  refine first.bind (second.bind ?_)
  refine ⟨0, fun rounds _ => ?_⟩
  simp only [equal_exact, decide_eq_true_eq, form.floorQuo divisor2, form.times_right,
    Form.floorQuo (.short rfl) divisor1, Form.floorQuo (.short rfl) divisor2,
    cut_natural _ one.le divisor2, cut_natural _ other.le divisor1, times_exact,
    newFor_positive _ bottom, Option.bind_eq_bind, Option.bind_some, Option.map_some]
  split <;> rfl

theorem canonical_isBig_iff (n : Int) : (canonical n).isBig ↔ ¬ Small n := by
  rw [canonical_isBig, decide_eq_true_eq]

theorem Form.isBig_of_large {a : SlateInteger} {v : Int} (form : Form a v) (large : ¬ Small v) :
    a.isBig := by
  cases form with
  | short same =>
    rw [same]
    exact (canonical_isBig_iff v).mpr large
  | long i same _ _ =>
    rw [same]
    rfl

def MinusOne (a b c d : Int) : Prop := a * c = -(b * d) ∧ ¬ Small (-b)

theorem magnitudes_of_minus_one (lowest1 : IsCoprime a b) (lowest2 : IsCoprime c d)
    (product : a * c = -(b * d)) : a.natAbs = d.natAbs ∧ c.natAbs = b.natAbs := by
  have divides1 : a ∣ d := by
    apply lowest1.dvd_of_dvd_mul_left
    exact ⟨-c, by linarith⟩
  have divides2 : d ∣ a := by
    apply lowest2.symm.dvd_of_dvd_mul_right
    exact ⟨-b, by linarith⟩
  have divides3 : c ∣ b := by
    apply lowest2.dvd_of_dvd_mul_right
    exact ⟨-a, by linarith⟩
  have divides4 : b ∣ c := by
    apply lowest1.symm.dvd_of_dvd_mul_left
    exact ⟨-d, by linarith⟩
  exact ⟨Int.natAbs_eq_of_dvd_dvd divides1 divides2, Int.natAbs_eq_of_dvd_dvd divides3 divides4⟩

theorem times_right (form : Form c' c) (size : c'.isBig → 2 ^ 62 ≤ c.natAbs) (one : 0 < b)
    (other : 0 < d) (lowest1 : IsCoprime a b) (lowest2 : IsCoprime c d)
    (keeps1 : ¬ Cancels (canonical a) a d) (keeps2 : ¬ Cancels c' c b)
    (apart : ¬ MinusOne a b c d) :
    Right (fun rounds => Fraction.times rounds ⟨canonical a, canonical b⟩ ⟨c', canonical d⟩)
      (a * c / (b * d)) := by
  have ends1 : ¬ (a = -d ∧ ¬ Small a) := by
    rintro ⟨opposite, large⟩
    exact keeps1 ⟨by omega, (canonical_isBig_iff a).mpr large, ⟨-1, by omega⟩⟩
  have ends2 : ¬ (c = -b ∧ c'.isBig) := by
    rintro ⟨opposite, large⟩
    exact keeps2 ⟨by omega, large, ⟨-1, by omega⟩⟩
  have reaches := times_reaches form size one other ends1 ends2
  rw [right_iff reaches, Int.gcd_comm b c, cut_gcd _ other.ne' keeps1, cut_gcd _ one.ne' keeps2]
  obtain ⟨A, D, g1, positive1, divisor1, rfl, rfl, coprime1⟩ := split_gcd (a := a) other.ne'
  obtain ⟨C, B, g2, positive2, divisor2, rfl, rfl, coprime2⟩ := split_gcd (a := c) one.ne'
  rw [divisor1, divisor2, Int.mul_ediv_cancel _ positive1.ne', Int.mul_ediv_cancel _ positive1.ne',
    Int.mul_ediv_cancel _ positive2.ne', Int.mul_ediv_cancel _ positive2.ne']
  have bottom1 : 0 < B := (mul_pos_iff_of_pos_right positive2).mp one
  have bottom2 : 0 < D := (mul_pos_iff_of_pos_right positive1).mp other
  have rational1 : (g1 : ℚ) ≠ 0 := by exact_mod_cast positive1.ne'
  have rational2 : (g2 : ℚ) ≠ 0 := by exact_mod_cast positive2.ne'
  have rational3 : (B : ℚ) ≠ 0 := by exact_mod_cast bottom1.ne'
  have rational4 : (D : ℚ) ≠ 0 := by exact_mod_cast bottom2.ne'
  have value : (A * g1 : Int) * (C * g2 : Int) / ((B * g2 : Int) * (D * g1 : Int)) =
      ((A * C : Int) / (B * D : Int) : ℚ) := by
    push_cast
    field_simp
  rw [value]
  by_cases whole : g2 = B * g2 ∧ g1 = D * g1
  · have unit1 : B = 1 := by
      have factor := whole.1
      nlinarith
    have unit2 : D = 1 := by
      have factor := whole.2
      nlinarith
    subst unit1 unit2
    have kept : ¬ (A * (C * g2) = -g2 ∧ (canonical (A * (C * g2))).isBig) := by
      rintro ⟨opposite, large⟩
      apply apart
      rw [opposite, canonical_isBig_iff] at large
      refine ⟨?_, by rwa [one_mul]⟩
      calc A * g1 * (C * g2) = A * (C * g2) * g1 := by ring
        _ = -g2 * g1 := by rw [opposite]
        _ = -(1 * g2 * (1 * g1)) := by ring
    rw [if_pos whole, cut, if_neg kept, ← mul_assoc, Int.mul_ediv_cancel _ positive2.ne', one_mul,
      Int.cast_one, div_one]
    exact represents_integer (A * C)
  · rw [if_neg whole]
    apply represents_lowest
    · have large : B * D ≠ 1 := by
        intro unit
        have unit1 : B = 1 := Int.eq_one_of_mul_eq_one_right bottom1.le unit
        subst unit1
        rw [one_mul] at unit
        subst unit
        exact whole ⟨(one_mul g2).symm, (one_mul g1).symm⟩
      have positive := mul_pos bottom1 bottom2
      omega
    · apply Int.isCoprime_iff_gcd_eq_one.mp
      have parts1 : IsCoprime A B :=
        (lowest1.of_isCoprime_of_dvd_left ⟨g1, rfl⟩).of_isCoprime_of_dvd_right ⟨g2, rfl⟩
      have parts2 : IsCoprime C D :=
        (lowest2.of_isCoprime_of_dvd_left ⟨g2, rfl⟩).of_isCoprime_of_dvd_right ⟨g1, rfl⟩
      exact (parts1.mul_right coprime1).mul_left (coprime2.mul_right parts2)

theorem times_wrong (form : Form c' c) (size : c'.isBig → 2 ^ 62 ≤ c.natAbs) (one : 0 < b)
    (other : 0 < d) (lowest1 : IsCoprime a b) (lowest2 : IsCoprime c d)
    (some : Cancels (canonical a) a d ∨ Cancels c' c b ∨ MinusOne a b c d) :
    ¬ Right (fun rounds => Fraction.times rounds ⟨canonical a, canonical b⟩ ⟨c', canonical d⟩)
      (a * c / (b * d)) := by
  by_cases ends1 : a = -d ∧ ¬ Small a
  · apply not_right
    have never := gcd_reaches a other
    rw [if_pos ends1] at never
    exact never.bind_none _
  by_cases ends2 : c = -b ∧ c'.isBig
  · apply not_right
    have first := gcd_reaches a other
    rw [if_neg ends1] at first
    have never := form.gcd_reaches one size
    rw [if_pos ends2] at never
    exact first.bind (never.bind_none _)
  have reaches := times_reaches form size one other ends1 ends2
  have nonzero : a ≠ 0 ∧ c ≠ 0 := by
    rcases some with ⟨negative, large, divides⟩ | ⟨negative, large, divides⟩ | ⟨product, _⟩
    · refine ⟨negative.ne, ?_⟩
      rintro rfl
      have unit := Int.isUnit_iff.mp (isCoprime_zero_left.mp lowest2)
      have bound := Int.le_of_dvd other ((neg_dvd (a := a)).mpr divides)
      rw [canonical_isBig_iff] at large
      unfold Small minimumValue maximumValue at large
      omega
    · refine ⟨?_, negative.ne⟩
      rintro rfl
      have unit := Int.isUnit_iff.mp (isCoprime_zero_left.mp lowest1)
      have bound := Int.le_of_dvd one ((neg_dvd (a := c)).mpr divides)
      have long := size large
      omega
    · have positive := mul_pos one other
      constructor
      · rintro rfl
        omega
      · rintro rfl
        omega
  have value : (a * c / (b * d) : ℚ) ≠ 0 := by
    have rational1 : (a : ℚ) ≠ 0 := by exact_mod_cast nonzero.1
    have rational2 : (b : ℚ) ≠ 0 := by exact_mod_cast one.ne'
    have rational3 : (c : ℚ) ≠ 0 := by exact_mod_cast nonzero.2
    have rational4 : (d : ℚ) ≠ 0 := by exact_mod_cast other.ne'
    positivity
  have divisor : (0 : Int) < Int.gcd b c := by
    exact_mod_cast Int.gcd_pos_of_ne_zero_left c one.ne'
  have not_zero (g : Int) : ¬ (SlateNumber.integer (canonical (cut (canonical 0) 0 g))).Represents
      (a * c / (b * d)) := by
    intro represents
    have nothing : cut (canonical 0) 0 g = 0 := by
      rw [cut, Int.zero_ediv, ite_self]
    rw [SlateNumber.Represents, canonical_value, nothing, Int.cast_zero] at represents
    exact value represents.symm
  rw [right_iff reaches]
  by_cases cancels1 : Cancels (canonical a) a d
  · rw [cut_cancels other.ne' cancels1]
    split
    · rw [Int.zero_mul]
      exact not_zero _
    · apply not_represents_zero value
      rw [Int.zero_mul]
      exact canonical_value 0
  · by_cases cancels2 : Cancels c' c b
    · have partly : ¬ ((Int.gcd b c : Int) = b ∧ (Int.gcd a d : Int) = d) := by
        rintro ⟨whole, _⟩
        rw [Int.gcd_comm] at whole
        have own := (minus_gcd_iff one.ne').mpr ⟨cancels2.1, cancels2.2.2⟩
        exact ends2 ⟨by omega, cancels2.2.1⟩
      rw [if_neg partly, Int.gcd_comm b c, cut_cancels one.ne' cancels2]
      apply not_represents_zero value
      rw [Int.mul_zero]
      exact canonical_value 0
    · obtain ⟨product, large⟩ : MinusOne a b c d := by tauto
      have same : c = b := by
        have sizes := (magnitudes_of_minus_one lowest1 lowest2 product).2
        by_contra other
        have opposite : c = -b := by omega
        exact ends2 ⟨opposite, form.isBig_of_large (by rwa [opposite])⟩
      subst same
      have opposite : a = -d := by
        apply Int.eq_of_mul_eq_mul_right one.ne'
        linarith
      have small : Small a := by
        by_contra large'
        exact ends1 ⟨opposite, large'⟩
      have divisor1 : (Int.gcd a d : Int) = d := by
        rw [opposite, Int.neg_gcd, Int.gcd_self]
        omega
      have divisor2 : (Int.gcd c c : Int) = c := by
        rw [Int.gcd_self]
        omega
      have first : cut (canonical a) a d = -1 := by
        rw [cut, canonical_isBig, if_neg (by simp [small]), opposite, Int.neg_ediv_of_dvd dvd_rfl,
          Int.ediv_self other.ne']
      have second : cut (canonical (-1 * c)) (-1 * c) c = 0 := by
        have minus : -1 * c = -c := by omega
        rw [minus, cut, if_pos ⟨rfl, (canonical_isBig_iff _).mpr large⟩]
      have none := not_zero c
      rw [cut, Int.zero_ediv, ite_self] at none
      rw [if_pos ⟨divisor2, divisor1⟩, divisor1, divisor2, first, second]
      exact none

theorem times_right_iff (form : Form c' c) (size : c'.isBig → 2 ^ 62 ≤ c.natAbs) (one : 0 < b)
    (other : 0 < d) (lowest1 : IsCoprime a b) (lowest2 : IsCoprime c d) :
    Right (fun rounds => Fraction.times rounds ⟨canonical a, canonical b⟩ ⟨c', canonical d⟩)
      (a * c / (b * d)) ↔
    ¬ Cancels (canonical a) a d ∧ ¬ Cancels c' c b ∧ ¬ MinusOne a b c d := by
  constructor
  · intro right
    have wrong := fun some => times_wrong form size one other lowest1 lowest2 some right
    tauto
  · rintro ⟨keeps1, keeps2, apart⟩
    exact times_right form size one other lowest1 lowest2 keeps1 keeps2 apart

end Times

section Plus

variable {a b c d : Int} {c' : SlateInteger}

def sumNumerator (a b c d : Int) : Int := a * (d / Int.gcd b d) + c * (b / Int.gcd b d)

theorem plus_reaches (form : Form c' c) (one : 0 < b) (other : 0 < d) {n g : Int}
    (sum : n = sumNumerator a b c d) (divisor : (Int.gcd b d : Int) = g)
    (ends : ¬ (n = -g ∧ ¬ Small n)) :
    Reaches (fun rounds => Fraction.plus rounds ⟨canonical a, canonical b⟩ ⟨c', canonical d⟩)
      (some (if d / g * (b / g) * (g / Int.gcd n g) = 1 then
        .integer (canonical (cut (canonical n) n (Int.gcd n g)))
      else .fraction ⟨canonical (cut (canonical n) n (Int.gcd n g)),
        canonical (d / g * (b / g) * (g / Int.gcd n g))⟩)) := by
  have positive : 0 < g := by
    rw [← divisor]
    exact_mod_cast Int.gcd_pos_of_ne_zero_left d one.ne'
  have first := gcd_reaches b other
  have second := gcd_reaches n positive
  rw [if_neg (by omega), divisor] at first
  rw [if_neg ends] at second
  have common : (0 : Int) < Int.gcd n g := by
    exact_mod_cast Int.gcd_pos_of_ne_zero_right n positive.ne'
  have part1 : 0 < d / g :=
    Int.ediv_pos_of_pos_of_dvd other positive.le (divisor ▸ Int.gcd_dvd_right b d)
  have part2 : 0 < b / g :=
    Int.ediv_pos_of_pos_of_dvd one positive.le (divisor ▸ Int.gcd_dvd_left b d)
  have part3 : 0 < g / Int.gcd n g :=
    Int.ediv_pos_of_pos_of_dvd positive common.le (Int.gcd_dvd_right n g)
  have bottom : 0 < d / g * (b / g) * (g / Int.gcd n g) := mul_pos (mul_pos part1 part2) part3
  have total : a * (d / g) + c * (b / g) = n := by
    rw [sum, sumNumerator, divisor]
  refine first.bind ?_
  simp only [floorQuo_positive one.le positive, floorQuo_positive other.le positive, times_exact,
    plus_exact, form.times, total, Option.bind_eq_bind, Option.bind_some]
  refine second.bind ⟨0, fun rounds _ => ?_⟩
  simp only [Form.floorQuo (.short rfl) common, cut_natural _ positive.le common, times_exact,
    newFor_positive _ bottom, canonical_one, equal_exact, decide_eq_true_eq, Option.bind_some,
    Option.map_some]
  split <;> rfl

theorem plus_right (form : Form c' c) (one : 0 < b) (other : 0 < d) (lowest1 : IsCoprime a b)
    (lowest2 : IsCoprime c d)
    (keeps : ¬ Cancels (canonical (sumNumerator a b c d)) (sumNumerator a b c d) (Int.gcd b d)) :
    Right (fun rounds => Fraction.plus rounds ⟨canonical a, canonical b⟩ ⟨c', canonical d⟩)
      (a / b + c / d) := by
  obtain ⟨B, D, g, positive, divisor, rfl, rfl, coprime⟩ := split_gcd (a := b) other.ne'
  have numerator : sumNumerator a (B * g) c (D * g) = a * D + c * B := by
    rw [sumNumerator, divisor, Int.mul_ediv_cancel _ positive.ne',
      Int.mul_ediv_cancel _ positive.ne']
  rw [numerator, divisor] at keeps
  have ends : ¬ (a * D + c * B = -g ∧ ¬ Small (a * D + c * B)) := by
    rintro ⟨opposite, large⟩
    exact keeps ⟨by omega, (canonical_isBig_iff _).mpr large, ⟨-1, by omega⟩⟩
  have reaches := plus_reaches form one other numerator.symm divisor ends
  rw [right_iff reaches, cut_gcd _ positive.ne' keeps]
  obtain ⟨N, G, h, positive', divisor', split1, split2, coprime'⟩ :=
    split_gcd (a := a * D + c * B) positive.ne'
  have bottom1 : 0 < B := (mul_pos_iff_of_pos_right positive).mp one
  have bottom2 : 0 < D := (mul_pos_iff_of_pos_right positive).mp other
  have bottom3 : 0 < G := (mul_pos_iff_of_pos_right positive').mp (split2 ▸ positive)
  have quotient1 : (a * D + c * B) / h = N := by
    rw [split1, Int.mul_ediv_cancel _ positive'.ne']
  have quotient2 : g / h = G := by
    rw [split2, Int.mul_ediv_cancel _ positive'.ne']
  rw [divisor', quotient1, quotient2, Int.mul_ediv_cancel _ positive.ne',
    Int.mul_ediv_cancel _ positive.ne']
  have lowest : IsCoprime N (D * B * G) := by
    have parts1 : IsCoprime (a * D + c * B) D := by
      have free := (lowest2.of_isCoprime_of_dvd_right ⟨g, rfl⟩).mul_left coprime
      rw [add_comm]
      exact IsCoprime.add_mul_right_left_iff.mpr free
    have parts2 : IsCoprime (a * D + c * B) B :=
      IsCoprime.add_mul_right_left_iff.mpr
        ((lowest1.of_isCoprime_of_dvd_right ⟨g, rfl⟩).mul_left coprime.symm)
    have both := parts1.mul_right parts2
    rw [split1] at both
    exact (both.of_isCoprime_of_dvd_left ⟨h, rfl⟩).mul_right coprime'
  have value : (a / (B * g : Int) + c / (D * g : Int) : ℚ) = N / (D * B * G : Int) := by
    have rational1 : (B : ℚ) ≠ 0 := by exact_mod_cast bottom1.ne'
    have rational2 : (D : ℚ) ≠ 0 := by exact_mod_cast bottom2.ne'
    have rational3 : (G : ℚ) ≠ 0 := by exact_mod_cast bottom3.ne'
    have rational4 : (g : ℚ) ≠ 0 := by exact_mod_cast positive.ne'
    have rational5 : (h : ℚ) ≠ 0 := by exact_mod_cast positive'.ne'
    have total : (a * D + c * B : ℚ) = N * h := by exact_mod_cast split1
    have common : (g : ℚ) = G * h := by exact_mod_cast split2
    push_cast
    rw [common]
    field_simp
    linear_combination total
  rw [value]
  split
  · rename_i whole
    rw [whole, Int.cast_one, div_one]
    exact represents_integer N
  · rename_i more
    apply represents_lowest
    · have bottom := mul_pos (mul_pos bottom2 bottom1) bottom3
      omega
    · exact Int.isCoprime_iff_gcd_eq_one.mp lowest

theorem plus_wrong (form : Form c' c) (one : 0 < b) (other : 0 < d)
    (cancels : Cancels (canonical (sumNumerator a b c d)) (sumNumerator a b c d) (Int.gcd b d)) :
    ¬ Right (fun rounds => Fraction.plus rounds ⟨canonical a, canonical b⟩ ⟨c', canonical d⟩)
      (a / b + c / d) := by
  have divisor : (0 : Int) < Int.gcd b d := by
    exact_mod_cast Int.gcd_pos_of_ne_zero_left d one.ne'
  have value : (a / b + c / d : ℚ) ≠ 0 := by
    intro zero
    have rational1 : (b : ℚ) ≠ 0 := by exact_mod_cast one.ne'
    have rational2 : (d : ℚ) ≠ 0 := by exact_mod_cast other.ne'
    field_simp at zero
    have whole : a * d + c * b = 0 := by
      have cast : ((a * d + c * b : Int) : ℚ) = 0 := by
        push_cast
        linear_combination zero
      exact_mod_cast cast
    have scaled : sumNumerator a b c d * Int.gcd b d = a * d + c * b := by
      rw [sumNumerator, add_mul, mul_assoc, mul_assoc,
        Int.ediv_mul_cancel (Int.gcd_dvd_right b d), Int.ediv_mul_cancel (Int.gcd_dvd_left b d)]
    rw [whole] at scaled
    have negative := mul_neg_of_neg_of_pos cancels.1 divisor
    omega
  generalize numerator : sumNumerator a b c d = n at *
  generalize common : (Int.gcd b d : Int) = g at *
  by_cases ends : n = -g ∧ ¬ Small n
  · apply not_right
    have first := gcd_reaches b other
    have never := gcd_reaches n divisor
    rw [if_neg (by omega), common] at first
    rw [if_pos ends] at never
    refine first.bind ?_
    have total : a * (d / g) + c * (b / g) = n := by
      rw [← numerator, sumNumerator, common]
    simp only [floorQuo_positive one.le divisor, floorQuo_positive other.le divisor, times_exact,
      plus_exact, form.times, total, Option.bind_eq_bind, Option.bind_some]
    exact never.bind_none _
  · have reaches := plus_reaches form one other numerator.symm common ends
    rw [right_iff reaches, cut_cancels divisor.ne' cancels]
    split
    · intro represents
      rw [SlateNumber.Represents, canonical_value, Int.cast_zero] at represents
      exact value represents.symm
    · exact not_represents_zero value _ (canonical_value 0)

theorem plus_right_iff (form : Form c' c) (one : 0 < b) (other : 0 < d) (lowest1 : IsCoprime a b)
    (lowest2 : IsCoprime c d) :
    Right (fun rounds => Fraction.plus rounds ⟨canonical a, canonical b⟩ ⟨c', canonical d⟩)
      (a / b + c / d) ↔
    ¬ Cancels (canonical (sumNumerator a b c d)) (sumNumerator a b c d) (Int.gcd b d) :=
  ⟨fun right cancels => plus_wrong form one other cancels right,
    plus_right form one other lowest1 lowest2⟩

end Plus

end SlateVm
