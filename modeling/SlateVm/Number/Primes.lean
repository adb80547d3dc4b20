import Mathlib.FieldTheory.Finite.Basic
import Mathlib.RingTheory.Int.Basic
import SlateVm.Number.Modular

/-! `isPrime`, which tries the probabilistic test with 25 random bases, and `primesDo:`. -/
namespace SlateVm

namespace SlateInteger

open Progress

def isUnit (x : SlateInteger) : Bool := x.equal (small 1)

/-- `atRandom`, with what the stream of random numbers answers next. Only small integers have
such a stream. -/
def atRandom (next : Int) : SlateInteger → Option SlateInteger
  | small i => (small next).rem (small i)
  | big _ => none

/-- One round of the loop of `isProbablyPrimeWithK:andQ:`, which answers or goes on with the next
square. -/
def isProbablyPrimeRound (m k j y : SlateInteger) :
    Option (Bool ⊕ SlateInteger × SlateInteger) := do
  if j.isZero ∧ y.isUnit then some (.inl true)
  else if (← y.plus (small 1)).equal m then some (.inl true)
  else if (small 0).less j ∧ y.isUnit then some (.inl false)
  else
    let j ← j.plus (small 1)
    if j.less k then
      let y ← (← y.times y).floorRem m
      some (.inr (j, y))
    else some (.inl false)

def isProbablyPrimeLoop (m k : SlateInteger) : Nat → SlateInteger → SlateInteger → Progress Bool
  | 0, _, _ => .running
  | rounds + 1, j, y => do
    match ← ofOption (isProbablyPrimeRound m k j y) with
    | .inl result => .answer result
    | .inr (j, y) => isProbablyPrimeLoop m k rounds j y

def isProbablyPrime (rounds : Nat) (next : Int) (m k q : SlateInteger) : Progress Bool := do
  let i ← ofOption (m.minus (small 2))
  let x ← ofOption (i.atRandom next)
  let x ← ofOption (x.plus (small 1))
  let y ← raisedToMod rounds x q m
  isProbablyPrimeLoop m k rounds (small 0) y

/-- The loop of `isPrime` that takes the factors of two off. -/
def oddPartLoop : Nat → SlateInteger → SlateInteger → Progress (SlateInteger × SlateInteger)
  | 0, _, _ => .running
  | rounds + 1, k, q => do
    if ← ofOption q.isOdd then .answer (k, q)
    else
      let q ← ofOption (q.bitShift (-1))
      let k ← ofOption (k.plus (small 1))
      oddPartLoop rounds k q

def isPrimeTests (rounds : Nat) (next : Nat → Int) (m k q : SlateInteger) : Nat → Progress Bool
  | 0 => .answer true
  | times + 1 => do
    if ← isProbablyPrime rounds (next times) m k q then isPrimeTests rounds next m k q times
    else .answer false

def isPrime (rounds : Nat) (next : Nat → Int) (m : SlateInteger) : Progress Bool := do
  if ← ofOption m.isEven then .answer (m.equal (small 2))
  else
    let q ← ofOption (m.minus (small 1))
    let q ← ofOption (q.bitShift (-1))
    let (k, q) ← oddPartLoop rounds (small 1) q
    isPrimeTests rounds next m k q 25

/-- The inner loop of `primesDo:`, with the values that the block has been applied to. -/
def divideLoop (div : SlateInteger) :
    Nat → SlateInteger → List SlateInteger → Progress (SlateInteger × List SlateInteger)
  | 0, _, _ => .running
  | rounds + 1, remaining, applied => do
    let rest ← ofOption (remaining.floorRem div)
    if rest.isZero then
      let remaining ← ofOption (remaining.floorQuo div)
      divideLoop div rounds remaining (applied ++ [div])
    else .answer (remaining, applied)

def primesDoLoop (rounds : Nat) : Nat → SlateInteger → SlateInteger → SlateInteger →
    List SlateInteger → Progress (List SlateInteger)
  | 0, _, _, _, _ => .running
  | outer + 1, div, next, remaining, applied => do
    let (remaining, applied) ← divideLoop div rounds remaining applied
    if remaining.equal (small 1) then .answer applied
    else primesDoLoop rounds outer next (← ofOption (next.plus (small 2))) remaining applied

def primesDo (rounds : Nat) (n : SlateInteger) : Progress (List SlateInteger) :=
  primesDoLoop rounds rounds (small 2) (small 3) n []

end SlateInteger

open SlateInteger Progress

section Choices

variable {m : Int}

theorem answer_bind {α β : Type} (z : α) (f : α → Progress β) :
    (Progress.answer z >>= f) = f z := rfl

theorem error_bind {α β : Type} (f : α → Progress β) :
    (Progress.error >>= f) = .error := rfl

theorem running_bind {α β : Type} (f : α → Progress β) :
    (Progress.running >>= f) = .running := rfl

theorem canonical_three : SlateInteger.small 3 = canonical 3 := (canonical_small (by decide)).symm

theorem isUnit_exact (y : Int) : (canonical y).isUnit = decide (y = 1) := by
  rw [SlateInteger.isUnit, canonical_one, equal_exact]

theorem floorRem_natural (positive : 0 < m) {z : Int} (natural : 0 ≤ z) :
    (canonical z).floorRem (canonical m) = some (canonical (z % m)) := by
  rw [← fmod_eq_emod positive]
  apply floorRem_exact positive.ne'
  · rintro ⟨opposite, _⟩
    omega
  · rintro ⟨_, minus⟩
    omega

theorem floorQuo_natural (positive : 0 < m) {z : Int} (natural : 0 ≤ z) :
    (canonical z).floorQuo (canonical m) = some (canonical (z / m)) := by
  rw [← Int.fdiv_eq_ediv_of_nonneg z positive.le]
  apply floorQuo_exact positive.ne'
  · rintro ⟨opposite, _⟩
    omega
  · rintro ⟨_, minus⟩
    omega

def Choice (next : Int) : Prop := 0 ≤ next ∧ Small next

theorem atRandom_small {i next : Int} (choice : Choice next) (small : Small i) (positive : 0 < i) :
    ∃ x, (canonical i).atRandom next = some (canonical x) ∧ 0 ≤ x ∧ x < i := by
  refine ⟨next.tmod i, ?_, Int.tmod_nonneg _ choice.1, Int.tmod_lt_of_pos _ positive⟩
  have rest := rem_small choice.2 small positive.ne' fun overflows => by
    have minus := overflows.2
    omega
  rw [canonical_small choice.2, canonical_small small] at rest
  rw [canonical_small small]
  exact rest

theorem atRandom_large {i next : Int} (large : ¬ Small i) :
    (canonical i).atRandom next = none := by
  rw [canonical_big large]
  rfl

end Choices

section Test

variable {m : Int}

theorem isProbablyPrimeRound_exact (positive : 0 < m) (k j y : Int) :
    isProbablyPrimeRound (canonical m) (canonical k) (canonical j) (canonical y) = some
      (if j = 0 ∧ y = 1 ∨ y + 1 = m then .inl true
      else if 0 < j ∧ y = 1 then .inl false
      else if j + 1 < k then .inr (canonical (j + 1), canonical (y * y % m))
      else .inl false) := by
  rw [isProbablyPrimeRound, canonical_one, canonical_zero]
  simp only [canonical_isZero, isUnit_exact, less_exact, plus_exact, equal_exact, times_exact,
    floorRem_natural positive (mul_self_nonneg y), Option.bind_eq_bind, Option.bind_some,
    decide_eq_true_eq]
  split_ifs <;> first | rfl | simp_all

theorem sqrt_one (prime : Prime m) {y : Int} (natural : 0 ≤ y) (below : y < m)
    (square : y * y ≡ 1 [ZMOD m]) : y = 1 ∨ y + 1 = m := by
  have product : m ∣ (y - 1) * (y + 1) := by
    have divides := square.symm.dvd
    have factored : (y - 1) * (y + 1) = y * y - 1 := by ring
    rw [factored]
    exact divides
  have other : m ≠ 1 := prime.ne_one
  rcases prime.dvd_or_dvd product with lower | upper
  · left
    have zero := Int.eq_zero_of_abs_lt_dvd lower (abs_lt.mpr ⟨by omega, by omega⟩)
    omega
  · right
    have large := Int.le_of_dvd (by omega) upper
    omega

theorem isProbablyPrimeLoop_step (positive : 0 < m) (k j y : Int) (rounds : Nat) :
    isProbablyPrimeLoop (canonical m) (canonical k) (rounds + 1) (canonical j) (canonical y) =
      if j = 0 ∧ y = 1 ∨ y + 1 = m then .answer true
      else if 0 < j ∧ y = 1 then .answer false
      else if j + 1 < k then
        isProbablyPrimeLoop (canonical m) (canonical k) rounds (canonical (j + 1))
          (canonical (y * y % m))
      else .answer false := by
  rw [isProbablyPrimeLoop, isProbablyPrimeRound_exact positive]
  split_ifs <;> rfl

theorem isProbablyPrimeLoop_answers (positive : 0 < m) {d : Nat} {k j y : Int}
    (last : k = j + d + 1) (started : 0 ≤ j) (natural : 0 ≤ y) (below : y < m) : ∃ result,
      (∀ rounds > d, isProbablyPrimeLoop (canonical m) (canonical k) rounds (canonical j)
        (canonical y) = .answer result) ∧
      (Prime m → y ^ 2 ^ (d + 1) ≡ 1 [ZMOD m] → (j ≠ 0 → y ≠ 1) → result = true) := by
  induction d generalizing j y with
  | zero =>
    refine ⟨decide (j = 0 ∧ y = 1 ∨ y + 1 = m), fun rounds enough => ?_, fun prime root apart => ?_⟩
    · obtain ⟨rest, rfl⟩ : ∃ rest, rounds = rest + 1 := ⟨rounds - 1, by omega⟩
      rw [isProbablyPrimeLoop_step positive]
      by_cases yes : j = 0 ∧ y = 1 ∨ y + 1 = m
      · rw [if_pos yes, decide_eq_true yes]
      · rw [if_neg yes, decide_eq_false yes, if_neg (by omega : ¬ j + 1 < k), ite_self]
    · rw [zero_add, pow_one, pow_two] at root
      have unit := sqrt_one prime natural below root
      apply decide_eq_true
      by_cases first : j = 0
      · omega
      · have other := apart first
        omega
  | succ d ih =>
    have step (rounds : Nat) (enough : rounds > d + 1) :
        ∃ rest > d, isProbablyPrimeLoop (canonical m) (canonical k) rounds (canonical j)
          (canonical y) = if j = 0 ∧ y = 1 ∨ y + 1 = m then .answer true
          else if 0 < j ∧ y = 1 then .answer false
          else isProbablyPrimeLoop (canonical m) (canonical k) rest (canonical (j + 1))
            (canonical (y * y % m)) := by
      obtain ⟨rest, rfl⟩ : ∃ rest, rounds = rest + 1 := ⟨rounds - 1, by omega⟩
      refine ⟨rest, by omega, ?_⟩
      rw [isProbablyPrimeLoop_step positive, if_pos (by omega : j + 1 < k)]
    by_cases yes : j = 0 ∧ y = 1 ∨ y + 1 = m
    · refine ⟨true, fun rounds enough => ?_, fun _ _ _ => rfl⟩
      obtain ⟨_, _, run⟩ := step rounds enough
      rw [run, if_pos yes]
    · by_cases no : 0 < j ∧ y = 1
      · refine ⟨false, fun rounds enough => ?_, fun _ _ apart => absurd no.2 (apart (by omega))⟩
        obtain ⟨_, _, run⟩ := step rounds enough
        rw [run, if_neg yes, if_pos no]
      · obtain ⟨result, answers, right⟩ := @ih (j + 1) (y * y % m) (by omega) (by omega)
          (Int.emod_nonneg _ positive.ne') (Int.emod_lt_of_pos _ positive)
        refine ⟨result, fun rounds enough => ?_, fun prime root _ => right prime ?_ fun _ one => ?_⟩
        · obtain ⟨rest, more, run⟩ := step rounds enough
          rw [run, if_neg yes, if_neg no]
          exact answers rest more
        · rw [pow_succ' 2, pow_mul, pow_two] at root
          exact ((Int.mod_modEq (y * y) m).pow _).trans root
        · have square : y * y ≡ 1 [ZMOD m] := by
            have kept := Int.mod_modEq (y * y) m
            rw [one] at kept
            exact kept.symm
          rcases sqrt_one prime natural below square with unit | minus <;> omega

end Test

section Settles

variable {α β : Type}

def Settles (run : Nat → Progress α) (result : α) : Prop :=
  ∃ rounds, ∀ more ≥ rounds, run more = .answer result

theorem Settles.bind {run : Nat → Progress α} {next : α → Nat → Progress β} {result : α}
    {outcome : β} (first : Settles run result) (second : Settles (next result) outcome) :
    Settles (fun rounds => run rounds >>= fun z => next z rounds) outcome := by
  obtain ⟨rounds1, run1⟩ := first
  obtain ⟨rounds2, run2⟩ := second
  refine ⟨max rounds1 rounds2, fun more enough => ?_⟩
  show run more >>= _ = _
  rw [run1 more ((le_max_left _ _).trans enough), answer_bind]
  exact run2 more ((le_max_right _ _).trans enough)

theorem Settles.answer (result : α) : Settles (fun _ => .answer result) result :=
  ⟨0, fun _ _ => rfl⟩

end Settles

section IsPrime

variable {m : Int}

theorem isProbablyPrime_settles (odd : 3 ≤ m) (small : Small (m - 2)) {next : Int}
    (choice : Choice next) {k : Nat} {q : Nat} (split : m - 1 = 2 ^ (k + 1) * q) : ∃ result,
      Settles (fun rounds => isProbablyPrime rounds next (canonical m) (canonical (k + 1))
        (canonical q)) result ∧ (Prime m → result = true) := by
  obtain ⟨r, drawn, least, most⟩ := atRandom_small choice small (by omega : 0 < m - 2)
  have some : 0 < q := by
    by_contra none
    have zero : q = 0 := by omega
    rw [zero] at split
    omega
  have positive : 0 < m := by omega
  obtain ⟨rounds, run⟩ := ends_powerMod positive (r + 1) q
  obtain ⟨result, answers, right⟩ := @isProbablyPrimeLoop_answers m positive k (k + 1) 0
    (powerMod m 1 (r + 1) q) (by omega) le_rfl (powerMod_nonneg positive (by decide) (by omega) q)
    (powerMod_lt positive 1 (r + 1) (Or.inr some))
  refine ⟨result, ⟨max rounds (k + 1), fun more enough => ?_⟩, fun prime => right prime ?_ ?_⟩
  · show isProbablyPrime more next _ _ _ = _
    rw [isProbablyPrime, canonical_two, minus_exact]
    simp only [ofOption, answer_bind, drawn, canonical_one, plus_exact, canonical_zero]
    rw [run more (by omega), answer_bind]
    exact answers more (by omega)
  · -- the last square is the power that Fermat's theorem is about
    have power := (powerMod_modEq m 1 (r + 1) q).pow (2 ^ (k + 1))
    obtain ⟨p, rfl⟩ := Int.eq_ofNat_of_zero_le positive.le
    have whole : p - 1 = q * 2 ^ (k + 1) := by
      have split' : ((p - 1 : Nat) : Int) = (q * 2 ^ (k + 1) : Nat) := by
        rw [Nat.cast_sub (by omega)]
        rw [Nat.cast_mul, Nat.cast_pow, Nat.cast_one, Nat.cast_ofNat, mul_comm]
        exact split
      exact Int.natCast_inj.mp split'
    have coprime : IsCoprime (r + 1) (p : Int) := by
      rw [isCoprime_comm, Prime.coprime_iff_not_dvd prime]
      intro divides
      have large := Int.le_of_dvd (by omega) divides
      omega
    rw [one_mul, ← pow_mul, ← whole] at power
    exact power.trans (Int.ModEq.pow_card_sub_one_eq_one (Nat.prime_iff_prime_int.mpr prime) coprime)
  · exact fun other => absurd rfl other

theorem oddPartLoop_settles {q : Nat} (some : 0 < q) (k : Nat) : ∃ i o : Nat, q = 2 ^ i * o ∧
    ∀ rounds ≥ q, oddPartLoop rounds (canonical k) (canonical q) =
      .answer (canonical (k + i : Nat), canonical o) := by
  induction q using Nat.strongRecOn generalizing k with
  | ind q ih =>
    by_cases even : 2 ∣ q
    · obtain ⟨i, o, split, run⟩ := ih (q / 2) (by omega) (by omega) (k + 1)
      refine ⟨i + 1, o, ?_, fun rounds enough => ?_⟩
      · rw [pow_succ', mul_assoc, ← split]
        omega
      · obtain ⟨rest, rfl⟩ : ∃ rest, rounds = rest + 1 := ⟨rounds - 1, by omega⟩
        have parity : ¬ ¬ (2 : Int) ∣ q := fun odd => odd (Int.natCast_dvd_natCast.mpr even)
        rw [oddPartLoop, isOdd_exact, decide_eq_false parity, canonical_one,
          bitShift_half (Int.natCast_nonneg q), plus_exact]
        simp only [ofOption, answer_bind, Bool.false_eq_true, if_false]
        have later := run rest (by omega)
        rw [show k + 1 + i = k + (i + 1) by omega] at later
        exact later
    · refine ⟨0, q, by rw [pow_zero, one_mul], fun rounds enough => ?_⟩
      obtain ⟨rest, rfl⟩ : ∃ rest, rounds = rest + 1 := ⟨rounds - 1, by omega⟩
      have parity : ¬ (2 : Int) ∣ q := fun divides => even (Int.natCast_dvd_natCast.mp divides)
      rw [oddPartLoop, isOdd_exact, decide_eq_true parity]
      rfl

theorem oddPartLoop_zero (rounds : Nat) (k : Int) :
    oddPartLoop rounds (canonical k) (canonical 0) = .running := by
  induction rounds generalizing k with
  | zero => rfl
  | succ rounds ih =>
    rw [oddPartLoop, isOdd_exact, canonical_one, bitShift_half le_rfl, plus_exact]
    exact ih (k + 1)

theorem isPrimeTests_settles (odd : 3 ≤ m) (small : Small (m - 2)) {next : Nat → Int}
    (choices : ∀ i, Choice (next i)) {k q : Nat} (split : m - 1 = 2 ^ (k + 1) * q) (times : Nat) :
    ∃ result, Settles (fun rounds => isPrimeTests rounds next (canonical m) (canonical (k + 1))
      (canonical q) times) result ∧ (Prime m → result = true) := by
  induction times with
  | zero => exact ⟨true, Settles.answer true, fun _ => rfl⟩
  | succ times ih =>
    obtain ⟨result, settles, right⟩ := isProbablyPrime_settles odd small (choices times) split
    obtain ⟨rest, later, right'⟩ := ih
    cases result with
    | false => exact ⟨false, settles.bind (Settles.answer false), right⟩
    | true => exact ⟨rest, settles.bind later, right'⟩

def IsPrimeExact (m : Int) : Prop :=
  ∀ next : Nat → Int, (∀ i, Choice (next i)) → ∃ result,
    Settles (fun rounds => isPrime rounds next (canonical m)) result ∧
    (m.natAbs.Prime → result = true) ∧ (result = false → ¬ m.natAbs.Prime)

theorem isEven_exact (x : Int) : (canonical x).isEven = some (decide (2 ∣ x)) := by
  obtain ⟨r, run, zero⟩ := rem_two x
  rw [SlateInteger.isEven, run]
  simp only [Option.map_some, canonical_isZero, zero]

theorem isPrime_even (even : 2 ∣ m) (rounds : Nat) (next : Nat → Int) :
    isPrime rounds next (canonical m) = .answer (decide (m = 2)) := by
  rw [isPrime, isEven_exact, decide_eq_true even, canonical_two, equal_exact]
  rfl

theorem isPrime_odd (odd : ¬ 2 ∣ m) (rounds : Nat) (next : Nat → Int) :
    isPrime rounds next (canonical m) =
      oddPartLoop rounds (canonical 1) (canonical (TwosComplement.bitShift (m - 1) (-1))) >>=
        fun kq => isPrimeTests rounds next (canonical m) kq.1 kq.2 25 := by
  have exact : ¬ LeftBig (m - 1) (-1) := fun left => left.2.2.1 (by
    show 2 ^ 1 ∣ m - 1
    omega)
  rw [isPrime, isEven_exact, decide_eq_false odd, canonical_one, minus_exact]
  simp only [ofOption, answer_bind, Bool.false_eq_true, if_false,
    (bitShift_floor_iff (m - 1) (-1)).mpr exact]

theorem oddPart_settles (odd : ¬ 2 ∣ m) (large : 3 ≤ m) : ∃ i o : Nat,
    m - 1 = 2 ^ (i + 1) * o ∧ Settles (fun rounds => oddPartLoop rounds (canonical 1)
      (canonical (TwosComplement.bitShift (m - 1) (-1)))) (canonical (i + 1), canonical o) := by
  obtain ⟨q, half⟩ := Int.eq_ofNat_of_zero_le (show 0 ≤ (m - 1) / 2 by omega)
  obtain ⟨i, o, split, run⟩ := @oddPartLoop_settles q (by omega) 1
  refine ⟨i, o, ?_, q, fun rounds enough => ?_⟩
  · have whole : ((2 ^ i * o : Nat) : Int) = (m - 1) / 2 := by rw [half, split]
    rw [Nat.cast_mul, Nat.cast_pow, Nat.cast_ofNat] at whole
    rw [pow_succ', mul_assoc, whole]
    omega
  · have floor : TwosComplement.bitShift (m - 1) (-1) = q := half
    have place : ((1 + i : Nat) : Int) = i + 1 := by omega
    have later := run rounds enough
    rw [place] at later
    rw [floor]
    exact later

theorem isPrime_settles (odd : ¬ 2 ∣ m) (large : 3 ≤ m) (small : Small (m - 2))
    {next : Nat → Int} (choices : ∀ i, Choice (next i)) : ∃ result,
      Settles (fun rounds => isPrime rounds next (canonical m)) result ∧
      (Prime m → result = true) := by
  obtain ⟨i, o, split, parts⟩ := oddPart_settles odd large
  obtain ⟨result, tests, right⟩ := isPrimeTests_settles large small choices split 25
  refine ⟨result, ?_, right⟩
  simp only [isPrime_odd odd]
  generalize canonical (i + 1) = k at *
  generalize canonical o = q at *
  exact parts.bind tests

theorem isPrime_large (odd : ¬ 2 ∣ m) (large : 3 ≤ m) (big : ¬ Small (m - 2)) (next : Nat → Int)
    (result : Bool) : ¬ Settles (fun rounds => isPrime rounds next (canonical m)) result := by
  rintro ⟨rounds, run⟩
  obtain ⟨i, o, _, enough, parts⟩ := oddPart_settles odd large
  have answers := run (max rounds enough) (le_max_left _ _)
  simp only [isPrime_odd odd, parts _ (le_max_right _ _), answer_bind] at answers
  rw [isPrimeTests, isProbablyPrime, canonical_two, minus_exact] at answers
  simp only [ofOption, answer_bind, atRandom_large big, error_bind] at answers
  cases answers

theorem isPrime_one (next : Nat → Int) (result : Bool) :
    ¬ Settles (fun rounds => isPrime rounds next (canonical 1)) result := by
  rintro ⟨rounds, run⟩
  have answers := run rounds le_rfl
  have floor : TwosComplement.bitShift (1 - 1) (-1) = 0 := by decide
  simp only [isPrime_odd (m := 1) (by decide), floor, oddPartLoop_zero, running_bind] at answers
  nomatch answers

theorem isPrime_exact_iff (positive : 1 ≤ m) :
    IsPrimeExact m ↔ 2 ∣ m ∨ 3 ≤ m ∧ m ≤ maximumValue + 2 := by
  by_cases even : 2 ∣ m
  · refine iff_of_true (fun next _ => ?_) (Or.inl even)
    refine ⟨decide (m = 2), ⟨0, fun rounds _ => isPrime_even even rounds next⟩, ?_⟩
    have prime : m.natAbs.Prime → m = 2 := by
      intro prime
      have two := (Nat.prime_dvd_prime_iff_eq Nat.prime_two prime).mp
        (Int.natCast_dvd_natCast.mp (by rw [Int.dvd_natAbs]; exact even))
      omega
    exact ⟨fun is => decide_eq_true (prime is), fun no is => of_decide_eq_false no (prime is)⟩
  · by_cases large : 3 ≤ m
    · by_cases small : Small (m - 2)
      · refine iff_of_true (fun next choices => ?_) (Or.inr ⟨large, by linarith [small.2]⟩)
        obtain ⟨result, settles, right⟩ := isPrime_settles even large small choices
        have yes (prime : m.natAbs.Prime) := right (Int.prime_iff_natAbs_prime.mpr prime)
        refine ⟨result, settles, yes, fun no prime => ?_⟩
        rw [yes prime] at no
        nomatch no
      · apply iff_of_false
        · intro exact
          obtain ⟨result, settles, _⟩ := exact (fun _ => 0) fun _ => ⟨le_rfl, by decide⟩
          exact isPrime_large even large small _ result settles
        · rintro (even' | ⟨_, bound⟩)
          · exact even even'
          · apply small
            unfold Small minimumValue at *
            omega
    · have one : m = 1 := by omega
      subst one
      apply iff_of_false
      · intro exact
        obtain ⟨result, settles, _⟩ := exact (fun _ => 0) fun _ => ⟨le_rfl, by decide⟩
        exact isPrime_one _ result settles
      · decide

end IsPrime

section PrimesDo

def FactorsFrom (d r : Nat) : Prop := ∀ p, p.Prime → p ∣ r → d ≤ p

theorem FactorsFrom.prime {d r : Nat} (factors : FactorsFrom d r) (large : 2 ≤ d)
    (divides : d ∣ r) : d.Prime := by
  have least := factors d.minFac (Nat.minFac_prime (by omega)) ((Nat.minFac_dvd d).trans divides)
  have same := le_antisymm (Nat.minFac_le (by omega)) least
  rw [← same]
  exact Nat.minFac_prime (by omega)

theorem FactorsFrom.of_dvd {d r s : Nat} (factors : FactorsFrom d r) (divides : s ∣ r) :
    FactorsFrom d s := fun p prime part => factors p prime (part.trans divides)

def After (d e : Nat) : Prop := d = 2 ∧ e = 3 ∨ ¬ 2 ∣ d ∧ 3 ≤ d ∧ e = d + 2

theorem After.next {d e : Nat} (after : After d e) : After e (e + 2) := by
  rcases after with ⟨_, rfl⟩ | ⟨_, _, rfl⟩ <;> right <;> omega

theorem FactorsFrom.after {d e r : Nat} (after : After d e) (factors : FactorsFrom d r)
    (none : ¬ d ∣ r) : FactorsFrom e r := by
  intro p prime part
  have least := factors p prime part
  have other : p ≠ d := fun same => none (same ▸ part)
  rcases after with ⟨rfl, rfl⟩ | ⟨odd, large, rfl⟩
  · omega
  · rcases prime.eq_two_or_odd' with two | odd'
    · omega
    · obtain ⟨c, rfl⟩ := odd'
      omega

theorem divideLoop_settles {d r : Nat} (large : 2 ≤ d) (some : 0 < r)
    (applied : List SlateInteger) : ∃ i s : Nat, r = d ^ i * s ∧ ¬ d ∣ s ∧
      ∀ rounds > r, divideLoop (canonical d) rounds (canonical r) applied =
        .answer (canonical s, applied ++ List.replicate i (canonical d)) := by
  induction r using Nat.strongRecOn generalizing applied with
  | ind r ih =>
    have step (rest : Nat) : divideLoop (canonical d) (rest + 1) (canonical r) applied =
        if d ∣ r then divideLoop (canonical d) rest (canonical (r / d : Nat))
          (applied ++ [canonical d])
        else .answer (canonical r, applied) := by
      rw [divideLoop, floorRem_natural (by omega) (Int.natCast_nonneg r),
        floorQuo_natural (by omega) (Int.natCast_nonneg r)]
      have zero : (r : Int) % d = 0 ↔ d ∣ r := by
        rw [← Int.dvd_iff_emod_eq_zero, Int.natCast_dvd_natCast]
      simp only [ofOption, answer_bind, canonical_isZero, zero, decide_eq_true_eq, Int.natCast_ediv]
    by_cases divides : d ∣ r
    · have less : r / d < r := Nat.div_lt_self some large
      have whole : d * (r / d) = r := Nat.mul_div_cancel' divides
      have positive : 0 < r / d := by
        by_contra none
        rw [Nat.eq_zero_of_not_pos none, mul_zero] at whole
        omega
      obtain ⟨i, s, split, last, run⟩ := ih (r / d) less positive (applied ++ [canonical d])
      refine ⟨i + 1, s, by rw [pow_succ', mul_assoc, ← split, whole], last,
        fun rounds enough => ?_⟩
      obtain ⟨rest, rfl⟩ : ∃ rest, rounds = rest + 1 := ⟨rounds - 1, by omega⟩
      rw [step, if_pos divides, run rest (by omega), List.append_assoc, List.replicate_succ]
      rfl
    · refine ⟨0, r, by rw [pow_zero, one_mul], divides, fun rounds enough => ?_⟩
      obtain ⟨rest, rfl⟩ : ∃ rest, rounds = rest + 1 := ⟨rounds - 1, by omega⟩
      rw [step, if_neg divides, List.replicate_zero, List.append_nil]

theorem FactorsFrom.le {d s : Nat} (factors : FactorsFrom d s) (some : 0 < s) (more : s ≠ 1) :
    d ≤ s :=
  (factors s.minFac (Nat.minFac_prime more) (Nat.minFac_dvd s)).trans (Nat.minFac_le some)

theorem primesDoLoop_step {d e r i s : Nat} {applied : List SlateInteger} {rounds : Nat}
    (divided : divideLoop (canonical d) rounds (canonical r) applied =
      .answer (canonical s, applied ++ List.replicate i (canonical d))) (outer : Nat) :
    primesDoLoop rounds (outer + 1) (canonical d) (canonical e) (canonical r) applied =
      if s = 1 then .answer (applied ++ List.replicate i (canonical d))
      else primesDoLoop rounds outer (canonical e) (canonical (e + 2 : Nat)) (canonical s)
        (applied ++ List.replicate i (canonical d)) := by
  have one : (s : Int) = 1 ↔ s = 1 := by omega
  rw [primesDoLoop, divided, canonical_one, canonical_two]
  simp only [ofOption, answer_bind, equal_exact, plus_exact, decide_eq_true_eq, one, Nat.cast_add,
    Nat.cast_ofNat]

theorem primesDoLoop_settles {g d e r : Nat} (after : After d e) (some : 0 < r)
    (factors : FactorsFrom d r) (bound : r ≤ d + g) (applied : List SlateInteger) :
    ∃ ps : List Nat, (∀ rounds > r, ∀ outer > g, primesDoLoop rounds outer (canonical d)
        (canonical e) (canonical r) applied =
          .answer (applied ++ ps.map fun p : Nat => canonical p)) ∧
      ps.Pairwise (· ≤ ·) ∧ (∀ p ∈ ps, p.Prime) ∧ ps.prod = r ∧ ∀ p ∈ ps, d ≤ p := by
  induction g using Nat.strongRecOn generalizing d e r applied with
  | ind g ih =>
    have large : 2 ≤ d := by
      rcases after with ⟨two, _⟩ | ⟨_, three, _⟩ <;> omega
    have greater : d < e := by
      rcases after with ⟨_, three⟩ | ⟨_, _, next⟩ <;> omega
    obtain ⟨i, s, split, none, divided⟩ := divideLoop_settles large some applied
    have prime : ∀ p ∈ List.replicate i d, p = d ∧ p.Prime := by
      intro p here
      obtain ⟨count, same⟩ := List.mem_replicate.mp here
      have divides : d ∣ r := by
        rw [split]
        exact (dvd_pow_self d count).mul_right s
      exact ⟨same, same ▸ factors.prime large divides⟩
    have sorted : (List.replicate i d).Pairwise (· ≤ ·) := by
      apply List.pairwise_replicate.mpr
      exact Or.inr le_rfl
    have part : s ∣ r := ⟨d ^ i, by rw [split, mul_comm]⟩
    by_cases last : s = 1
    · refine ⟨List.replicate i d, fun rounds enough outer deep => ?_, sorted,
        fun p here => (prime p here).2, ?_, fun p here => (prime p here).1.ge⟩
      · obtain ⟨rest, rfl⟩ : ∃ rest, outer = rest + 1 := ⟨outer - 1, by omega⟩
        rw [primesDoLoop_step (divided rounds enough), if_pos last, List.map_replicate]
      · rw [List.prod_replicate, split, last, mul_one]
    · have positive : 0 < s := Nat.pos_of_dvd_of_pos part some
      have rest := (factors.of_dvd part).after after none
      have least := rest.le positive last
      have most := Nat.le_of_dvd some part
      obtain ⟨ps, run, sorted', primes, product, from_e⟩ := ih (g - 1) (by omega) after.next
        positive rest (by omega) (applied ++ List.replicate i (canonical d))
      refine ⟨List.replicate i d ++ ps, fun rounds enough outer deep => ?_, ?_, ?_, ?_, ?_⟩
      · obtain ⟨later, rfl⟩ : ∃ later, outer = later + 1 := ⟨outer - 1, by omega⟩
        rw [primesDoLoop_step (divided rounds enough), if_neg last,
          run rounds (by omega) later (by omega), List.map_append, List.map_replicate,
          List.append_assoc]
      · apply List.pairwise_append.mpr
        refine ⟨sorted, sorted', fun p here p' there => ?_⟩
        rw [(prime p here).1]
        exact greater.le.trans (from_e p' there)
      · intro p here
        rcases List.mem_append.mp here with first | later
        · exact (prime p first).2
        · exact primes p later
      · rw [List.prod_append, List.prod_replicate, product, split]
      · intro p here
        rcases List.mem_append.mp here with first | later
        · exact (prime p first).1.ge
        · exact greater.le.trans (from_e p later)

/-- `primesDo:` applies its block to the prime factors in order. -/
def PrimesDoExact (n : Nat) : Prop :=
  ∃ ps : List Nat, Settles (fun rounds => primesDo rounds (canonical n))
      (ps.map fun p : Nat => canonical p) ∧
    ps.Pairwise (· ≤ ·) ∧ (∀ p ∈ ps, p.Prime) ∧ ps.prod = n

theorem primesDo_exact {n : Nat} (positive : 1 ≤ n) : PrimesDoExact n := by
  obtain ⟨ps, run, sorted, primes, product, _⟩ := primesDoLoop_settles (Or.inl ⟨rfl, rfl⟩) positive
    (fun p prime _ => prime.two_le) (by omega : n ≤ 2 + n) []
  refine ⟨ps, ⟨n + 1, fun more enough => ?_⟩, sorted, primes, product⟩
  have answers := run more (by omega) more (by omega)
  show primesDo more _ = _
  rw [primesDo, canonical_two, canonical_three]
  exact answers

end PrimesDo

end SlateVm
