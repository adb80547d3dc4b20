import Mathlib.Data.Int.ModEq
import SlateVm.Number.Division

/-! `raisedTo:` and `raisedTo:mod:`, which square and multiply along the bits of the exponent. -/
namespace SlateVm

namespace SlateInteger

def isEven (x : SlateInteger) : Option Bool := (x.rem (small 2)).map isZero

def isOdd (x : SlateInteger) : Option Bool := x.isEven.map not

def reduced (z n : SlateInteger) : Option SlateInteger :=
  if z.less n then some z else z.floorRem n

/-- What is known of a computation after so many rounds of each of its loops. -/
inductive Progress (α : Type)
  | running
  | error
  | answer (result : α)

namespace Progress

instance : Monad Progress where
  pure := answer
  bind p f :=
    match p with
    | running => running
    | error => error
    | answer result => f result

def ofOption {α : Type} : Option α → Progress α
  | none => error
  | some result => answer result

end Progress

def raisedToModRound (n s t u : SlateInteger) :
    Option (SlateInteger × SlateInteger × SlateInteger) := do
  let s ← if ← u.isOdd then reduced (← s.times t) n else some s
  let t ← reduced (← t.times t) n
  let u ← u.bitShift (-1)
  some (s, t, u)

def raisedToModLoop (n : SlateInteger) :
    Nat → SlateInteger → SlateInteger → SlateInteger → Progress SlateInteger
  | 0, _, _, _ => .running
  | rounds + 1, s, t, u =>
    if u.isZero then .answer s
    else
      match raisedToModRound n s t u with
      | none => .error
      | some (s, t, u) => raisedToModLoop n rounds s t u

/-- `raisedTo:mod:`, as it is loaded last. -/
def raisedToMod (rounds : Nat) (x y n : SlateInteger) : Progress SlateInteger :=
  raisedToModLoop n rounds (small 1) x y

/-- The loop of `raisedTo:` that looks for a power of two not below the exponent. -/
def countLoop (y : SlateInteger) : Nat → SlateInteger → Option SlateInteger
  | 0, _ => none
  | rounds + 1, count => do
    let count ← count.bitShift 1
    if count.less y then countLoop y rounds count else some count

def powerLoop (x y : SlateInteger) : Nat → SlateInteger → SlateInteger → Option SlateInteger
  | 0, _, _ => none
  | rounds + 1, result, count =>
    if (small 0).less count then do
      let result ← result.times result
      let bit ← y.logical .bitAnd count
      let result ← if bit.isZero then some result else result.times x
      let count ← count.bitShift (-1)
      powerLoop x y rounds result count
    else some result

/-- `raisedTo:` of all numbers, with an exponent that is not negative. -/
def raisedToNumber (rounds : Nat) (x y : SlateInteger) : Option SlateInteger :=
  if y.isZero then some (small 1)
  else if x.isZero ∨ y.equal (small 1) then some x
  else if (small 0).less y then do
    let count ← countLoop y rounds (small 1)
    powerLoop x y rounds (small 1) count
  else none

/-- The traits of a big integer have those of the coercible numbers before those of all numbers,
so that its `raisedTo:` is the one that coerces both and sends again. -/
def raisedTo : Nat → SlateInteger → SlateInteger → Option SlateInteger
  | rounds, small x, y => raisedToNumber rounds (small x) y
  | 0, big _, _ => none
  | rounds + 1, big x, y => raisedTo rounds (big x) (big y.coerced)

end SlateInteger

open SlateInteger

section Parity

variable {n : Int}

theorem canonical_two : SlateInteger.small 2 = canonical 2 := (canonical_small (by decide)).symm

theorem canonical_one : SlateInteger.small 1 = canonical 1 := (canonical_small small_one).symm

theorem canonical_zero : SlateInteger.small 0 = canonical 0 := (canonical_small (by decide)).symm

theorem rem_small {x d : Int} (small1 : Small x) (small2 : Small d) (nonzero : d ≠ 0)
    (fits : ¬ Overflows x d) : (canonical x).rem (canonical d) = some (canonical (x.tmod d)) := by
  have quotient := quo_exact nonzero (fun opposite => opposite.2 ⟨small1, small2⟩) fits
  have rest : x.tmod d = x - x.tdiv d * d := by
    have whole := Int.mul_tdiv_add_tmod x d
    linarith
  have run : (canonical x).rem (canonical d) = ((canonical x).quo (canonical d)).bind fun q =>
      (q.times (canonical d)).bind fun product => (canonical x).minus product := by
    rw [canonical_small small1, canonical_small small2]
    rfl
  rw [run, rest, quotient]
  simp only [Option.bind_some, times_exact, minus_exact]

theorem rem_two (x : Int) : ∃ r, (canonical x).rem (.small 2) = some (canonical r) ∧
    (r = 0 ↔ 2 ∣ x) := by
  by_cases small : Small x
  · rw [canonical_two]
    exact ⟨_, rem_small small (by decide) (by decide) fun overflows =>
      absurd overflows.2 (by decide), Int.dvd_iff_tmod_eq_zero.symm⟩
  · have run := (quo_fst x 2 (fun both => small both.1) (by decide)).2
    rw [canonical_two, run, quoRem_large small (by decide)]
    have size : 2 < x.natAbs := by
      unfold Small minimumValue maximumValue at small
      omega
    have two : (2 : Int).natAbs = 2 := rfl
    rw [if_neg (by omega), if_neg (by omega)]
    refine ⟨_, rfl, ?_⟩
    have sign : decide ((2 : Int) < 0) = false := by decide
    rw [sign, two, signed, if_neg Bool.false_ne_true]
    omega

theorem isOdd_exact (x : Int) : (canonical x).isOdd = some (decide (¬ 2 ∣ x)) := by
  obtain ⟨r, run, zero⟩ := rem_two x
  rw [SlateInteger.isOdd, SlateInteger.isEven, run]
  simp only [Option.map_some, canonical_isZero, zero, decide_not]

theorem fmod_eq_emod (positive : 0 < n) (z : Int) : z.fmod n = z % n :=
  Int.fmod_eq_emod_of_nonneg z positive.le

def reduce (n z : Int) : Int := if z < n then z else z % n

theorem reduced_exact (positive : 0 < n) (z : Int) :
    (canonical z).reduced (canonical n) = some (canonical (reduce n z)) := by
  rw [SlateInteger.reduced, less_exact, reduce]
  by_cases below : z < n
  · rw [if_pos (decide_eq_true below), if_pos below]
  · rw [decide_eq_false below, if_neg Bool.false_ne_true, if_neg below, ← fmod_eq_emod positive]
    apply floorRem_exact positive.ne'
    · rintro ⟨opposite, _⟩
      omega
    · rintro ⟨_, minus⟩
      omega

theorem reduce_lt (positive : 0 < n) (z : Int) : reduce n z < n := by
  unfold reduce
  split
  · assumption
  · exact Int.emod_lt_of_pos z positive

theorem reduce_modEq (n z : Int) : reduce n z ≡ z [ZMOD n] := by
  unfold reduce
  split
  · rfl
  · exact Int.mod_modEq z n

theorem reduce_natural {z : Int} (natural : 0 ≤ z) : reduce n z = z % n := by
  unfold reduce
  split
  · rename_i below
    exact (Int.emod_eq_of_lt natural below).symm
  · rfl

theorem bitShift_half (natural : 0 ≤ n) :
    (canonical n).bitShift (-1) = some (canonical (n / 2)) := by
  have floor := (bitShift_floor_iff n (-1)).mpr fun left => by
    have below := left.1
    unfold minimumValue at below
    omega
  rw [floor]
  rfl

end Parity

section Loop

variable {n : Int}

theorem round_exact (positive : 0 < n) (s t : Int) {u : Int} (natural : 0 ≤ u) :
    raisedToModRound (canonical n) (canonical s) (canonical t) (canonical u) =
      some (canonical (if 2 ∣ u then s else reduce n (s * t)), canonical (reduce n (t * t)),
        canonical (u / 2)) := by
  rw [raisedToModRound, isOdd_exact]
  simp only [Option.bind_eq_bind, Option.bind_some, times_exact, reduced_exact positive,
    bitShift_half natural]
  by_cases even : 2 ∣ u <;> simp [even]

def Comes (n s t u : SlateInteger) (outcome : Progress SlateInteger) : Prop :=
  ∃ rounds, ∀ more ≥ rounds, raisedToModLoop n more s t u = outcome

theorem Comes.zero (n s t : SlateInteger) : Comes n s t (canonical 0) (.answer s) := by
  refine ⟨1, fun more enough => ?_⟩
  obtain ⟨rounds, rfl⟩ : ∃ k, more = k + 1 := ⟨more - 1, by omega⟩
  rw [raisedToModLoop, canonical_isZero, decide_eq_true rfl, if_pos rfl]

theorem Comes.round (positive : 0 < n) {s t u : Int} {outcome : Progress SlateInteger}
    (more : 0 < u) (comes : Comes (canonical n) (canonical (if 2 ∣ u then s else reduce n (s * t)))
      (canonical (reduce n (t * t))) (canonical (u / 2)) outcome) :
    Comes (canonical n) (canonical s) (canonical t) (canonical u) outcome := by
  obtain ⟨rounds, run⟩ := comes
  refine ⟨rounds + 1, fun later enough => ?_⟩
  obtain ⟨k, rfl⟩ : ∃ k, later = k + 1 := ⟨later - 1, by omega⟩
  rw [raisedToModLoop, canonical_isZero, decide_eq_false more.ne', if_neg Bool.false_ne_true,
    round_exact positive s t more.le]
  exact run k (by omega)

def powerMod (n s t : Int) (u : Nat) : Int :=
  if u = 0 then s
  else powerMod n (if 2 ∣ u then s else reduce n (s * t)) (reduce n (t * t)) (u / 2)
termination_by u

theorem comes_powerMod (positive : 0 < n) (s t : Int) (u : Nat) :
    Comes (canonical n) (canonical s) (canonical t) (canonical u)
      (.answer (canonical (powerMod n s t u))) := by
  induction u using Nat.strongRecOn generalizing s t with
  | ind u ih =>
    rw [powerMod]
    by_cases zero : u = 0
    · rw [if_pos zero, zero]
      exact Comes.zero _ _ _
    · rw [if_neg zero]
      apply Comes.round positive (Int.natCast_pos.mpr (Nat.pos_of_ne_zero zero))
      have even : ((2 : Int) ∣ u) = (2 ∣ u) := propext (Int.natCast_dvd_natCast (m := 2))
      simp only [even]
      exact ih (u / 2) (by omega) _ _

theorem powerMod_modEq (n s t : Int) (u : Nat) : powerMod n s t u ≡ s * t ^ u [ZMOD n] := by
  induction u using Nat.strongRecOn generalizing s t with
  | ind u ih =>
    rw [powerMod]
    by_cases zero : u = 0
    · rw [if_pos zero, zero, pow_zero, mul_one]
    · rw [if_neg zero]
      have rest := ih (u / 2) (by omega) (if 2 ∣ u then s else reduce n (s * t))
        (reduce n (t * t))
      have squared : reduce n (t * t) ^ (u / 2) ≡ t ^ (2 * (u / 2)) [ZMOD n] := by
        rw [pow_mul, pow_two]
        exact (reduce_modEq n (t * t)).pow (u / 2)
      by_cases even : 2 ∣ u
      · rw [if_pos even] at rest ⊢
        rw [Nat.mul_div_cancel' even] at squared
        exact rest.trans (squared.mul_left s)
      · rw [if_neg even] at rest ⊢
        have odd : t ^ u = t * t ^ (2 * (u / 2)) := by
          rw [← pow_succ']
          congr 1
          omega
        rw [odd, ← mul_assoc]
        exact rest.trans ((reduce_modEq n (s * t)).mul squared)

theorem powerMod_lt (positive : 0 < n) (s t : Int) {u : Nat} (some : s < n ∨ 0 < u) :
    powerMod n s t u < n := by
  induction u using Nat.strongRecOn generalizing s t with
  | ind u ih =>
    rw [powerMod]
    by_cases zero : u = 0
    · rw [if_pos zero]
      omega
    · rw [if_neg zero]
      apply ih (u / 2) (by omega)
      by_cases even : 2 ∣ u
      · right
        omega
      · left
        rw [if_neg even]
        exact reduce_lt positive _

theorem powerMod_nonneg (positive : 0 < n) {s t : Int} (natural1 : 0 ≤ s) (natural2 : 0 ≤ t)
    (u : Nat) : 0 ≤ powerMod n s t u := by
  have natural {z : Int} (natural : 0 ≤ z) : 0 ≤ reduce n z := by
    rw [reduce_natural natural]
    exact Int.emod_nonneg z positive.ne'
  induction u using Nat.strongRecOn generalizing s t with
  | ind u ih =>
    rw [powerMod]
    by_cases zero : u = 0
    · rw [if_pos zero]
      exact natural1
    · rw [if_neg zero]
      apply ih (u / 2) (by omega) _ (natural (mul_self_nonneg t))
      split
      · exact natural1
      · exact natural (Int.mul_nonneg natural1 natural2)

theorem powerMod_negative {s t : Int} (negative : s < 0) (natural : 0 ≤ t) (below : t < n)
    {u : Nat} (some : u ≠ 0) : 0 ≤ powerMod n s t u ↔ n ∣ t ^ 2 ^ u.log2 := by
  have positive : 0 < n := natural.trans_lt below
  induction u using Nat.strongRecOn generalizing s t with
  | ind u ih =>
    have square := reduce_natural (n := n) (mul_self_nonneg t)
    have least := Int.emod_nonneg (t * t) positive.ne'
    have most := Int.emod_lt_of_pos (t * t) positive
    have halved (more : u / 2 ≠ 0) :
        (n ∣ (t * t % n) ^ 2 ^ (u / 2).log2 ↔ n ∣ t ^ 2 ^ u.log2) := by
      have log : u.log2 = (u / 2).log2 + 1 := by
        rw [Nat.log2_def, if_pos (by omega)]
      rw [log, pow_succ' 2, pow_mul, pow_two]
      have same : (t * t % n) ^ 2 ^ (u / 2).log2 ≡ (t * t) ^ 2 ^ (u / 2).log2 [ZMOD n] :=
        (Int.mod_modEq (t * t) n).pow _
      exact same.dvd_iff
    rw [powerMod, if_neg some, square]
    by_cases even : 2 ∣ u
    · have more : u / 2 ≠ 0 := by omega
      rw [if_pos even]
      exact (ih (u / 2) (by omega) negative least most more).trans (halved more)
    · rw [if_neg even]
      rcases natural.eq_or_lt with zero | nonzero
      · subst zero
        rw [mul_zero, reduce_natural le_rfl, Int.zero_emod, zero_pow (by positivity)]
        exact iff_of_true (powerMod_nonneg positive le_rfl least _) (dvd_zero n)
      · have product : s * t < 0 := Int.mul_neg_of_neg_of_pos negative nonzero
        have kept : reduce n (s * t) = s * t := if_pos (product.trans positive)
        rw [kept]
        by_cases last : u / 2 = 0
        · have one : u = 1 := by omega
          subst one
          rw [powerMod, if_pos last, show Nat.log2 1 = 0 from rfl, pow_zero, pow_one]
          apply iff_of_false (by omega)
          intro divides
          have large := Int.le_of_dvd nonzero divides
          omega
        · exact (ih (u / 2) (by omega) product least most last).trans (halved last)

end Loop

section Endless

/-- A negative number of either kind, also a big integer that a small one would do for. -/
inductive Negative : SlateInteger → Prop
  | small (v : Int) (kept : Small v) (negative : v < 0) : Negative (.small v)
  | big (i : BigInteger) (proper : i.Proper) (negative : i.value < 0) : Negative (.big i)

theorem Negative.canonical {v : Int} (negative : v < 0) : Negative (canonical v) := by
  by_cases kept : Small v
  · rw [canonical_small kept]
    exact .small v kept negative
  · obtain ⟨proper, value⟩ := coerced_canonical v
    rw [canonical_big kept] at proper value ⊢
    exact .big _ proper (value.symm ▸ negative)

theorem Negative.isZero {u : SlateInteger} (negative : Negative u) : u.isZero = false := by
  cases negative with
  | small v kept negative => exact decide_eq_false negative.ne
  | big i proper negative =>
    rw [SlateInteger.isZero, isZero_eq proper.numeral, ← value_magnitude]
    exact decide_eq_false (by omega)

theorem Negative.bitShift {u : SlateInteger} (negative : Negative u) :
    ∃ v, u.bitShift (-1) = some v ∧ Negative v := by
  have half {v : Int} (negative : v < 0) : TwosComplement.bitShift v (-1) < 0 := by
    have floor : TwosComplement.bitShift v (-1) = v / 2 := rfl
    omega
  cases negative with
  | small v kept negative =>
    rw [← canonical_small kept]
    exact ⟨_, bitShift_small kept, Negative.canonical (half negative)⟩
  | big i proper negative =>
    have nonzero : i.magnitude ≠ 0 := by
      rw [← value_magnitude]
      omega
    have sign : i.isNegative = true := (proper_sign proper).mpr negative
    by_cases divides : 2 ^ (-(-1 : Int)).toNat ∣ i.magnitude
    · exact ⟨_, bitShift_kept proper nonzero (by decide) fun _ => Or.inr divides,
        Negative.canonical (half negative)⟩
    · obtain ⟨b, run, proper', value⟩ := bitShift_lost proper sign (by decide) divides
      exact ⟨_, run, .big b proper' (value.symm ▸ half negative)⟩

theorem Negative.isOdd {u : SlateInteger} (negative : Negative u) :
    ∃ odd, u.isOdd = some odd := by
  cases negative with
  | small v kept negative =>
    rw [← canonical_small kept]
    exact ⟨_, isOdd_exact v⟩
  | big i proper negative =>
    obtain ⟨two, value⟩ := asBigInteger_proper 2
    have large := value_magnitude (asBigInteger 2)
    rw [value] at large
    have divided : ∃ qr, i.quoRem (asBigInteger 2) = some qr := by
      have compared := compare_eq proper.numeral two.numeral
      rcases Nat.lt_trichotomy i.magnitude (asBigInteger 2).magnitude with shorter | same | longer
      · have less := order_lt.mpr (Int.ofNat_lt.mpr shorter)
        rw [BigInteger.quoRem, compared, if_pos less]
        exact ⟨_, rfl⟩
      · have equal := order_eq.mpr (congrArg (Nat.cast : Nat → Int) same)
        rw [BigInteger.quoRem, compared, equal]
        exact ⟨_, rfl⟩
      · exact ⟨_, BigInteger.quoRem_longer proper two (by omega) longer⟩
    obtain ⟨qr, run⟩ := divided
    rw [SlateInteger.isOdd, SlateInteger.isEven, SlateInteger.rem, if_neg (by decide), run]
    exact ⟨_, rfl⟩

theorem raisedToModLoop_negative {n : Int} (positive : 0 < n) (rounds : Nat) (s t : Int)
    {u : SlateInteger} (negative : Negative u) :
    raisedToModLoop (canonical n) rounds (canonical s) (canonical t) u = .running := by
  induction rounds generalizing s t u with
  | zero => rfl
  | succ rounds ih =>
    obtain ⟨odd, parity⟩ := negative.isOdd
    obtain ⟨half, run, negative'⟩ := negative.bitShift
    rw [raisedToModLoop, negative.isZero, if_neg Bool.false_ne_true, raisedToModRound, parity]
    simp only [Option.bind_eq_bind, Option.bind_some, times_exact, reduced_exact positive, run]
    cases odd with
    | false => exact ih s (reduce n (t * t)) negative'
    | true => exact ih (reduce n (s * t)) (reduce n (t * t)) negative'

end Endless

section Power

theorem bitShift_double (x : Int) : (canonical x).bitShift 1 = some (canonical (x * 2)) :=
  (bitShift_floor_iff x 1).mpr fun left => absurd left.2.1 (by decide)

theorem countLoop_eq {y : Int} {m rounds k : Nat} (many : y ≤ 2 ^ (k + (m + 1)))
    (enough : m < rounds) :
    ∃ i ≤ k + (m + 1), countLoop (canonical y) rounds (canonical (2 ^ k)) =
      some (canonical (2 ^ i)) ∧ y ≤ 2 ^ i := by
  induction m generalizing rounds k with
  | zero =>
    obtain ⟨rest, rfl⟩ : ∃ rest, rounds = rest + 1 := ⟨rounds - 1, by omega⟩
    rw [countLoop, bitShift_double, ← pow_succ]
    simp only [Option.bind_eq_bind, Option.bind_some, less_exact]
    rw [decide_eq_false (Int.not_lt.mpr many), if_neg Bool.false_ne_true]
    exact ⟨k + 1, le_rfl, rfl, many⟩
  | succ m ih =>
    obtain ⟨rest, rfl⟩ : ∃ rest, rounds = rest + 1 := ⟨rounds - 1, by omega⟩
    rw [countLoop, bitShift_double, ← pow_succ]
    simp only [Option.bind_eq_bind, Option.bind_some, less_exact]
    by_cases more : (2 : Int) ^ (k + 1) < y
    · rw [if_pos (decide_eq_true more)]
      have shifted : k + 1 + (m + 1) = k + (m + 1 + 1) := by omega
      rw [← shifted] at many ⊢
      exact ih many (by omega)
    · rw [decide_eq_false more, if_neg Bool.false_ne_true]
      exact ⟨k + 1, by omega, rfl, Int.not_lt.mp more⟩

theorem bit_isZero (y i : Nat) : ∃ z, (canonical y).logical .bitAnd (canonical (2 ^ i)) =
    some (canonical z) ∧ (z = 0 ↔ y.testBit i = false) := by
  obtain ⟨z, run, bits⟩ := logical_eq .bitAnd y (2 ^ i)
  refine ⟨z, run, ?_⟩
  have power : (2 : Int) ^ i = ((2 ^ i : Nat) : Int) := by norm_cast
  have whole : z = ((y &&& 2 ^ i : Nat) : Int) := by
    simp only [LogicOp.bit, Int.bitwise_and, power] at bits
    rcases bits with inOrder | swapped
    · exact inOrder
    · rw [Nat.and_comm]
      exact swapped
  rw [whole, Nat.and_two_pow]
  cases y.testBit i with
  | false => exact iff_of_true (by simp) rfl
  | true => exact iff_of_false (by simp) (by decide)

theorem powerLoop_eq (x : Int) (y i more : Nat) :
    powerLoop (canonical x) (canonical y) (i + 2 + more) (canonical (x ^ (y / 2 ^ (i + 1))))
      (canonical (2 ^ i)) = some (canonical (x ^ y)) := by
  have step (i rounds : Nat) :
      powerLoop (canonical x) (canonical y) (rounds + 1) (canonical (x ^ (y / 2 ^ (i + 1))))
        (canonical (2 ^ i)) =
      powerLoop (canonical x) (canonical y) rounds (canonical (x ^ (y / 2 ^ i)))
        (canonical (2 ^ i / 2)) := by
    obtain ⟨z, run, set⟩ := bit_isZero y i
    have split : y / 2 ^ i = y / 2 ^ (i + 1) + y / 2 ^ (i + 1) + (y.testBit i).toNat := by
      have bit := Nat.toNat_testBit y i
      have halves : y / 2 ^ (i + 1) = y / 2 ^ i / 2 := by
        rw [pow_succ, Nat.div_div_eq_div_mul]
      omega
    have positive : (0 : Int) < 2 ^ i := by positivity
    rw [powerLoop, canonical_zero, less_exact, if_pos (decide_eq_true positive), split, pow_add x,
      pow_add x]
    simp only [Option.bind_eq_bind, Option.bind_some, times_exact, run, canonical_isZero, set,
      bitShift_half positive.le]
    cases y.testBit i with
    | false => simp only [decide_true, if_true, Bool.toNat_false, pow_zero, mul_one]
    | true =>
      simp only [Bool.true_eq_false, decide_false, Bool.false_eq_true, if_false, Bool.toNat_true,
        pow_one]
  induction i with
  | zero =>
    have last : (2 : Int) ^ 0 / 2 = 0 := rfl
    rw [show 0 + 2 + more = more + 1 + 1 by omega, step 0, last, powerLoop, canonical_zero,
      less_exact, if_neg (by decide), pow_zero, Nat.div_one]
  | succ i ih =>
    have half : (2 : Int) ^ (i + 1) / 2 = 2 ^ i := by
      rw [pow_succ, Int.mul_ediv_cancel _ (by decide)]
    rw [show i + 1 + 2 + more = i + 2 + more + 1 by omega, step (i + 1), half]
    exact ih

theorem raisedToNumber_eq (x : Int) (y : Nat) : ∃ rounds, ∀ more ≥ rounds,
    raisedToNumber more (canonical x) (canonical y) = some (canonical (x ^ y)) := by
  by_cases none : y = 0
  · refine ⟨0, fun more _ => ?_⟩
    rw [raisedToNumber, canonical_isZero, none, if_pos (by decide), canonical_one, pow_zero]
  · have some : (y : Int) ≠ 0 := by omega
    by_cases same : x = 0 ∨ y = 1
    · refine ⟨0, fun more _ => ?_⟩
      rw [raisedToNumber, canonical_isZero, canonical_isZero, decide_eq_false some,
        if_neg Bool.false_ne_true, canonical_one, equal_exact, if_pos]
      · rcases same with zero | one
        · rw [zero, zero_pow none]
        · rw [one, pow_one]
      · simpa using same
    · have apart : ¬ ((canonical x).isZero = true ∨
          (canonical (y : Int)).equal (.small 1) = true) := by
        rw [canonical_isZero, canonical_one, equal_exact]
        simpa using same
      have positive : (0 : Int) < y := by omega
      refine ⟨y + 3, fun more enough => ?_⟩
      have below : (y : Int) ≤ 2 ^ (0 + (y + 1)) := by
        have power : y < 2 ^ (0 + (y + 1)) :=
          Nat.lt_two_pow_self.trans_le (Nat.pow_le_pow_right (by decide) (by omega))
        exact_mod_cast power.le
      obtain ⟨i, few, counted, above⟩ := @countLoop_eq y y more 0 below (by omega)
      have start : x ^ (y / 2 ^ (i + 1)) = 1 := by
        have whole : y < 2 ^ (i + 1) := by
          rw [pow_succ]
          have cast : y ≤ 2 ^ i := by exact_mod_cast above
          omega
        rw [Nat.div_eq_of_lt whole, pow_zero]
      obtain ⟨rest, rfl⟩ : ∃ rest, more = i + 2 + rest := ⟨more - (i + 2), by omega⟩
      have run := powerLoop_eq x y i rest
      rw [start] at run
      rw [pow_zero] at counted
      rw [raisedToNumber, canonical_isZero, decide_eq_false some, if_neg Bool.false_ne_true,
        if_neg apart, canonical_zero, less_exact, if_pos (decide_eq_true positive), canonical_one,
        counted]
      exact run

theorem raisedTo_small {x : Int} (small : Small x) (y : Nat) : ∃ rounds, ∀ more ≥ rounds,
    raisedTo more (canonical x) (canonical y) = some (canonical (x ^ y)) := by
  obtain ⟨rounds, run⟩ := raisedToNumber_eq x y
  refine ⟨rounds, fun more enough => ?_⟩
  rw [← run more enough, canonical_small small, raisedTo]

theorem raisedTo_large {x : Int} (large : ¬ Small x) (rounds : Nat) (y : SlateInteger) :
    raisedTo rounds (canonical x) y = none := by
  rw [canonical_big large]
  induction rounds generalizing y with
  | zero => rfl
  | succ rounds ih => exact ih (.big y.coerced)

end Power

section Whole

variable {x y n : Int}

/-- The loop of `raisedTo:mod:` comes to an end with the outcome. -/
def Ends (x y n : Int) (outcome : Progress SlateInteger) : Prop :=
  ∃ rounds, ∀ more ≥ rounds,
    raisedToMod more (canonical x) (canonical y) (canonical n) = outcome

/-- What `raisedTo:mod:` and `raisedTo:` should answer. -/
structure PowersExact (x y n : Int) : Prop where
  residue : 0 ≤ y → ∃ r, Ends x y n (.answer (canonical r)) ∧ 0 ≤ r ∧ r < n ∧
    r ≡ x ^ y.toNat [ZMOD n]
  inverse : y < 0 → (∃ r, Ends x y n (.answer (canonical r)) ∧ 0 ≤ r ∧ r < n ∧
      r * x ^ (-y).toNat ≡ 1 [ZMOD n]) ∨
    (Ends x y n .error ∧ ¬ ∃ r, r * x ^ (-y).toNat ≡ 1 [ZMOD n])
  power : 0 ≤ y → ∃ rounds, ∀ more ≥ rounds,
    raisedTo more (canonical x) (canonical y) = some (canonical (x ^ y.toNat))

theorem Ends.unique {one other : Progress SlateInteger} (first : Ends x y n one)
    (second : Ends x y n other) : one = other := by
  obtain ⟨rounds1, run1⟩ := first
  obtain ⟨rounds2, run2⟩ := second
  rw [← run1 (max rounds1 rounds2) (le_max_left _ _),
    ← run2 (max rounds1 rounds2) (le_max_right _ _)]

theorem ends_powerMod (positive : 0 < n) (x : Int) (u : Nat) :
    Ends x u n (.answer (canonical (powerMod n 1 x u))) := by
  obtain ⟨rounds, run⟩ := comes_powerMod positive 1 x u
  refine ⟨rounds, fun more enough => ?_⟩
  rw [raisedToMod, canonical_one]
  exact run more enough

theorem ends_negative (positive : 0 < n) (x : Int) (negative : y < 0) : Ends x y n .running := by
  refine ⟨0, fun more _ => ?_⟩
  rw [raisedToMod, canonical_one]
  exact raisedToModLoop_negative positive more 1 x (Negative.canonical negative)

theorem powerMod_sign (positive : 0 < n) (x : Int) (u : Nat) : 0 ≤ powerMod n 1 x u ↔
    (x < 0 → ¬ 2 ∣ u → 1 < u ∧ n ∣ x ^ 2 ^ u.log2) := by
  by_cases negative : x < 0
  · have least := Int.emod_nonneg (x * x) positive.ne'
    have most := Int.emod_lt_of_pos (x * x) positive
    have square := reduce_natural (n := n) (mul_self_nonneg x)
    by_cases even : 2 ∣ u
    · refine iff_of_true ?_ fun _ odd => absurd even odd
      rw [powerMod]
      split
      · decide
      · rw [square]
        exact powerMod_nonneg positive (by decide) least _
    · have some : u ≠ 0 := fun zero => even (zero ▸ dvd_zero 2)
      have kept : reduce n (1 * x) = x := by
        rw [one_mul]
        exact if_pos (negative.trans positive)
      have log : 1 < u → u.log2 = (u / 2).log2 + 1 := fun more => by
        rw [Nat.log2_def, if_pos (by omega)]
      rw [powerMod, if_neg some, if_neg even, kept, square]
      by_cases last : u / 2 = 0
      · rw [powerMod, if_pos last]
        exact iff_of_false (by omega) fun holds => absurd (holds negative even).1 (by omega)
      · have same : (x * x % n) ^ 2 ^ (u / 2).log2 ≡ (x * x) ^ 2 ^ (u / 2).log2 [ZMOD n] :=
          (Int.mod_modEq (x * x) n).pow _
        rw [powerMod_negative negative least most last, same.dvd_iff, log (by omega), pow_succ' 2,
          pow_mul, pow_two]
        exact ⟨fun divides _ _ => ⟨by omega, divides⟩, fun holds => (holds negative even).2⟩
  · exact iff_of_true (powerMod_nonneg positive (by decide) (Int.not_lt.mp negative) u)
      fun negative' => absurd negative' negative

end Whole

end SlateVm
