import SlateVm.Lib.Digits
import SlateVm.Number.BigInteger

/-! The integer a representation stands for, and the operations that go from one
representation to another: coercion, comparison and shrinking. -/
namespace SlateVm

open Digits

def order (x y : Int) : Int := if x < y then -1 else if x = y then 0 else 1

namespace BigInteger

def magnitude (i : BigInteger) : Nat := Nat.ofDigits 256 i.digits

def value (i : BigInteger) : Int := if i.isNegative then -(i.magnitude : Int) else i.magnitude

structure Proper (i : BigInteger) : Prop where
  numeral : Numeral 256 i.digits
  signed : i.isNegative = true → i.magnitude ≠ 0

end BigInteger

def canonical (x : Int) : SlateInteger :=
  if Small x then .small x else .big ⟨decide (x < 0), Nat.digits 256 x.natAbs⟩

section HighBit

theorem highBitLoop_eq (n bit : Nat) : highBitLoop n bit = bit + Nat.log 2 n := by
  induction n using Nat.strongRecOn generalizing bit with
  | ind n ih =>
    rw [highBitLoop]
    split
    · rename_i more
      have half : Nat.log 2 n = Nat.log 2 (n / 2) + 1 := Nat.log_of_one_lt_of_le (by decide) more
      rw [Nat.shiftRight_eq_div_pow, ih _ (by omega), half, Nat.pow_one]
      omega
    · rename_i few
      rw [Nat.log_of_lt (by omega)]
      rfl

theorem smallHighBit_eq {x : Int} : smallHighBit x = Nat.log 2 x.natAbs := by
  unfold smallHighBit
  split
  · rename_i least
    have below : Nat.log 2 (-x - 1).natAbs = 61 := by
      rw [least]
      exact (Nat.log_eq_iff (Or.inl (by decide))).mpr (by decide)
    have here : Nat.log 2 x.natAbs = 62 := by
      rw [least]
      exact (Nat.log_eq_iff (Or.inl (by decide))).mpr (by decide)
    rw [highBitLoop_eq, below, here]
  · rw [highBitLoop_eq, Nat.zero_add]

theorem pow_bytes (n : Nat) : 2 ^ (8 * n) = 256 ^ n := by
  rw [Nat.pow_mul]

theorem bytes_of_high_bit (n : Nat) : n < 256 ^ (Nat.log 2 n / 8 + 1) ∧
    (Nat.log 2 n / 8 + 1 = 1 ∨ 256 ^ (Nat.log 2 n / 8) ≤ n) := by
  constructor
  · have bound : n < 2 ^ (Nat.log 2 n + 1) := Nat.lt_pow_succ_log_self (by decide) n
    rw [← pow_bytes]
    exact bound.trans_le (Nat.pow_le_pow_right (by decide) (by omega))
  · by_cases zero : n = 0
    · subst zero
      exact Or.inl rfl
    · right
      rw [← pow_bytes]
      exact (Nat.pow_le_pow_right (by decide) (Nat.mul_div_le _ 8)).trans
        (Nat.pow_log_le_self 2 zero)

end HighBit

section Coerce

theorem intoByte_range (i : Int) : 0 ≤ intoByte i ∧ intoByte i < 256 := by
  rw [intoByte_eq]
  omega

theorem plainBytes_length (n : Nat) (x : Int) : (plainBytes n x).length = n := by
  induction n generalizing x with
  | zero => rfl
  | succ n ih => simp [plainBytes, ih]

theorem plainBytes_digits (n : Nat) (x : Int) : ∀ d ∈ plainBytes n x, d < 256 := by
  induction n generalizing x with
  | zero => simp [plainBytes]
  | succ n ih =>
    have first := intoByte_range x
    simp only [plainBytes, List.forall_mem_cons]
    exact ⟨by omega, ih _⟩

theorem emod_byte (t m p : Int) (positive : 0 < p) :
    (t % 256 + 256 * m) % (256 * p) = t % 256 + 256 * (m % p) := by
  have low : 0 ≤ t % 256 ∧ t % 256 < 256 := by omega
  have part := Int.emod_nonneg m positive.ne'
  have under := Int.emod_lt_of_pos m positive
  have split : t % 256 + 256 * m = t % 256 + 256 * (m % p) + 256 * p * (m / p) := by
    have whole := Int.emod_add_mul_ediv m p
    linear_combination (-256) * whole
  rw [split, Int.add_mul_emod_self_left, Int.emod_eq_of_lt]
  · omega
  · omega

theorem plainBytes_value (n : Nat) (x : Int) :
    ((Nat.ofDigits 256 (plainBytes n x) : Nat) : Int) = x % 256 ^ n := by
  induction n generalizing x with
  | zero => simp [plainBytes]
  | succ n ih =>
    have first := intoByte_eq x
    have power : (256 : Int) ^ (n + 1) = 256 * 256 ^ n := by ring
    have parts : x = x % 256 + 256 * (x / 256) := by omega
    have bounded := emod_byte x (x / 256) (256 ^ n) (by positivity)
    rw [← parts] at bounded
    simp only [plainBytes, Nat.ofDigits_cons, Nat.cast_add, Nat.cast_mul, ih, power,
      shift_right_byte, bounded, first]
    rw [Int.toNat_of_nonneg (by omega)]
    rfl

theorem complementBytes_length (n : Nat) (x carry : Int) :
    (complementBytes n x carry).length = n := by
  induction n generalizing x carry with
  | zero => rfl
  | succ n ih => simp [complementBytes, ih]

theorem complementBytes_digits (n : Nat) (x carry : Int) :
    ∀ d ∈ complementBytes n x carry, d < 256 := by
  induction n generalizing x carry with
  | zero => simp [complementBytes]
  | succ n ih =>
    have first := intoByte_range ((carry >>> (8 : Nat)) + intoByte (primBitxor x 0xFF))
    simp only [complementBytes, List.forall_mem_cons]
    exact ⟨by omega, ih _ _⟩

theorem complementBytes_value (n : Nat) (x carry : Int) :
    ((Nat.ofDigits 256 (complementBytes n x carry) : Nat) : Int) =
      (carry / 256 - 1 - x) % 256 ^ n := by
  induction n generalizing x carry with
  | zero => simp [complementBytes]
  | succ n ih =>
    have power : (256 : Int) ^ (n + 1) = 256 * 256 ^ n := by ring
    simp only [complementBytes, Nat.ofDigits_cons, Nat.cast_add, Nat.cast_mul, ih, power,
      shift_right_byte, intoByte_complement]
    rw [intoByte_eq, Int.toNat_of_nonneg (by omega)]
    have parts : carry / 256 - 1 - x = (carry / 256 + (255 - x % 256)) % 256 +
        256 * ((carry / 256 + (255 - x % 256)) / 256 - 1 - x / 256) := by omega
    rw [parts, emod_byte _ _ _ (by positivity)]
    rfl

theorem asBigInteger_magnitude {x : Int} :
    Nat.ofDigits 256 (asBigInteger x).digits = x.natAbs := by
  have bytes := (bytes_of_high_bit x.natAbs).1
  rw [← smallHighBit_eq] at bytes
  have bound : (x.natAbs : Int) < 256 ^ (smallHighBit x / 8 + 1) := by exact_mod_cast bytes
  unfold asBigInteger
  split
  · have whole := complementBytes_value (smallHighBit x / 8 + 1) x 0x100
    rw [Int.emod_eq_of_lt (by omega) (by omega)] at whole
    simp only
    omega
  · have whole := plainBytes_value (smallHighBit x / 8 + 1) x
    rw [Int.emod_eq_of_lt (by omega) (by omega)] at whole
    simp only
    omega

theorem asBigInteger_numeral (x : Int) : Numeral 256 (asBigInteger x).digits := by
  have length : (asBigInteger x).digits.length = Nat.log 2 x.natAbs / 8 + 1 := by
    rw [← smallHighBit_eq]
    unfold asBigInteger
    split
    · exact complementBytes_length _ _ _
    · exact plainBytes_length _ _
  constructor
  · unfold asBigInteger
    split
    · exact complementBytes_digits _ _ _
    · exact plainBytes_digits _ _
  · rw [asBigInteger_magnitude, length]
    exact (bytes_of_high_bit x.natAbs).2

theorem asBigInteger_negative (x : Int) : (asBigInteger x).isNegative = decide (x < 0) := by
  unfold asBigInteger
  split <;> simp_all

theorem asBigInteger_proper (x : Int) :
    (asBigInteger x).Proper ∧ (asBigInteger x).value = x := by
  have size := @asBigInteger_magnitude x
  refine ⟨⟨asBigInteger_numeral x, ?_⟩, ?_⟩
  · rw [asBigInteger_negative, BigInteger.magnitude, size, decide_eq_true_eq]
    omega
  · rw [BigInteger.value, BigInteger.magnitude, size, asBigInteger_negative]
    by_cases negative : x < 0
    · rw [decide_eq_true negative, if_pos rfl]
      omega
    · rw [decide_eq_false negative, if_neg Bool.false_ne_true]
      omega

end Coerce

section Compare

variable {i1 i2 : BigInteger}

theorem compareDigits_eq {ds es : List Nat} (one : ∀ d ∈ ds, d < 256) (other : ∀ d ∈ es, d < 256)
    {n : Nat} (first : n ≤ ds.length) (second : n ≤ es.length) :
    BigInteger.compareDigits ds es n =
      order (Nat.ofDigits 256 (ds.take n) : Nat) (Nat.ofDigits 256 (es.take n) : Nat) := by
  induction n with
  | zero => simp [BigInteger.compareDigits, order]
  | succ n ih =>
    have here := ofDigits_take_lt (by decide) one n
    have there := ofDigits_take_lt (by decide) other n
    unfold BigInteger.compareDigits
    rw [ofDigits_take_succ first, ofDigits_take_succ second, ih (by omega) (by omega)]
    generalize Nat.ofDigits 256 (ds.take n) = v at *
    generalize Nat.ofDigits 256 (es.take n) = w at *
    generalize 256 ^ n = p at *
    rcases Nat.lt_trichotomy (ds.getD n 0) (es.getD n 0) with less | same | more
    · have step : p * ds.getD n 0 + p ≤ p * es.getD n 0 := by
        rw [← Nat.mul_succ]
        exact Nat.mul_le_mul_left p less
      rw [if_neg (by omega), if_pos less, order, if_pos (by omega)]
    · rw [if_pos same.symm, same]
      unfold order
      split <;> split <;> (try split) <;> omega
    · have step : p * es.getD n 0 + p ≤ p * ds.getD n 0 := by
        rw [← Nat.mul_succ]
        exact Nat.mul_le_mul_left p more
      rw [if_neg (by omega), if_neg (by omega), order, if_neg (by omega), if_neg (by omega)]

theorem compare_eq (one : Numeral 256 i1.digits) (other : Numeral 256 i2.digits) :
    i1.compare i2 = order i1.magnitude i2.magnitude := by
  unfold BigInteger.compare BigInteger.size BigInteger.magnitude
  split
  · rename_i shorter
    have less := one.shorter (by decide) other shorter
    rw [order, if_pos (by omega)]
  · split
    · rename_i longer
      have more := other.shorter (by decide) one longer
      rw [order, if_neg (by omega), if_neg (by omega)]
    · rw [compareDigits_eq one.digits other.digits le_rfl (by omega), List.take_length,
        List.take_of_length_le (by omega)]

theorem order_lt {x y : Int} : order x y = -1 ↔ x < y := by
  unfold order
  split
  · simp [*]
  · split <;> simp [*]

theorem order_eq {x y : Int} : order x y = 0 ↔ x = y := by
  unfold order
  split
  · simp
    omega
  · split <;> simp [*]

theorem order_gt {x y : Int} : order x y = 1 ↔ y < x := by
  unfold order
  split
  · simp
    omega
  · split
    · simp
      omega
    · simp
      omega

theorem less_eq (one : i1.Proper) (other : i2.Proper) :
    i1.less i2 = decide (i1.value < i2.value) := by
  have sign1 := one.signed
  have sign2 := other.signed
  unfold BigInteger.less BigInteger.value
  rw [compare_eq one.numeral other.numeral]
  cases h1 : i1.isNegative <;> cases h2 : i2.isNegative
  · simp [order_lt]
  · simp
  · have nonzero := sign1 h1
    simp
    omega
  · simp [order_gt]

theorem equal_eq (one : i1.Proper) (other : i2.Proper) :
    i1.equal i2 = decide (i1.value = i2.value) := by
  have sign1 := one.signed
  have sign2 := other.signed
  unfold BigInteger.equal BigInteger.value
  rw [compare_eq one.numeral other.numeral]
  cases h1 : i1.isNegative <;> cases h2 : i2.isNegative
  · simp [order_eq]
  · have nonzero := sign2 h2
    simp
    omega
  · have nonzero := sign1 h1
    simp
    omega
  · simp [order_eq]

end Compare

section Shrink

variable {i : BigInteger}

theorem canBeASmallInteger_eq (proper : i.Proper) :
    i.canBeASmallInteger = decide (Small i.value) := by
  have least := asBigInteger_proper minimumValue
  have most := asBigInteger_proper maximumValue
  unfold BigInteger.canBeASmallInteger
  rw [less_eq proper least.1, less_eq most.1 proper, least.2, most.2, Bool.eq_iff_iff,
    decide_eq_true_iff]
  simp [Small]

def signed (sign : Bool) (n : Nat) : Int := if sign then -(n : Int) else n

theorem small_parts {sign : Bool} {x y z : Nat} (fits : Small (signed sign (x + y + z))) :
    Small (signed sign x) ∧ Small (signed sign y) ∧ Small (signed sign x + signed sign y) := by
  unfold Small minimumValue maximumValue signed at *
  cases sign <;> simp at * <;> omega

theorem small_of_le {sign : Bool} {x y : Nat} (le : x ≤ y) (fits : Small (signed sign y)) :
    Small (signed sign x) := by
  unfold Small minimumValue maximumValue signed at *
  cases sign <;> simp at * <;> omega

theorem smallFrom_eq {digits : List Nat} {shift n : Nat} {sign : Bool}
    (short : shift + digits.length ≤ 8)
    (fits : Small (signed sign (n + Nat.ofDigits 256 digits * 256 ^ shift))) :
    BigInteger.smallFrom sign digits shift (signed sign n) =
      some (signed sign (n + Nat.ofDigits 256 digits * 256 ^ shift)) := by
  induction digits generalizing shift n with
  | nil => simp [BigInteger.smallFrom]
  | cons d ds ih =>
    have whole : n + Nat.ofDigits 256 (d :: ds) * 256 ^ shift =
        n + d * 256 ^ shift + Nat.ofDigits 256 ds * 256 ^ (shift + 1) := by
      rw [Nat.ofDigits_cons, pow_succ]
      ring
    rw [whole] at fits ⊢
    obtain ⟨before, part, sum⟩ := small_parts fits
    have scaled : signed sign d * 2 ^ (shift * 8) = signed sign (d * 256 ^ shift) := by
      have power : (2 : Int) ^ (shift * 8) = 256 ^ shift := by
        rw [Nat.mul_comm, pow_mul]
        rfl
      unfold signed
      rw [power]
      cases sign <;> simp
    have digit : Small (signed sign d) :=
      small_of_le (Nat.le_mul_of_pos_right d (Nat.pow_pos (by decide))) part
    have shifted : primBitshift (signed sign d) (shift * 8 : Nat) =
        some (signed sign (d * 256 ^ shift)) := by
      rw [List.length_cons] at short
      rw [primBitshift_left (by omega) digit (by rwa [scaled]), scaled]
    have added : signed sign n + signed sign (d * 256 ^ shift) =
        signed sign (n + d * 256 ^ shift) := by
      unfold signed
      cases sign <;> simp
      ring
    rw [BigInteger.smallFrom]
    change (primBitshift (signed sign d) _ >>= _) = _
    rw [shifted, Option.bind_eq_bind, Option.bind_some, primPlus_eq before part, if_pos sum,
      added, Option.bind_some]
    rw [List.length_cons] at short
    exact ih (by omega) fits

theorem value_eq_signed : i.value = signed i.isNegative i.magnitude := rfl

theorem asSmallInteger_eq (proper : i.Proper) (fits : Small i.value) :
    i.asSmallInteger = some i.value := by
  have short : i.digits.length ≤ 8 := by
    have bound : i.magnitude < 256 ^ 8 := by
      unfold Small minimumValue maximumValue BigInteger.value at fits
      split at fits <;> omega
    rcases proper.numeral.low with one | low
    · omega
    · have power := (Nat.pow_lt_pow_iff_right (by decide)).mp (low.trans_lt bound)
      omega
  have digits := @smallFrom_eq i.digits 0 0 i.isNegative (by omega)
  simp only [Nat.zero_add, pow_zero, Nat.mul_one] at digits
  have start : signed i.isNegative 0 = 0 := by
    unfold signed
    simp
  rw [start] at digits
  unfold BigInteger.asSmallInteger
  rw [canBeASmallInteger_eq proper, if_pos (decide_eq_true fits)]
  exact digits fits

theorem lastNonZero_none {ds : List Nat} {n : Nat} (inside : n ≤ ds.length)
    (none : BigInteger.lastNonZero ds n = none) : Nat.ofDigits 256 (ds.take n) = 0 := by
  induction n with
  | zero => simp
  | succ n ih =>
    unfold BigInteger.lastNonZero at none
    split at none
    · cases none
    · rename_i zero
      rw [ofDigits_take_succ inside, ih (by omega) none, not_not.mp zero]
      simp

theorem lastNonZero_some {ds : List Nat} {n k : Nat} (inside : n ≤ ds.length)
    (found : BigInteger.lastNonZero ds n = some k) : k < n ∧ ds.getD k 0 ≠ 0 ∧
      Nat.ofDigits 256 (ds.take n) = Nat.ofDigits 256 (ds.take (k + 1)) := by
  induction n with
  | zero => cases found
  | succ n ih =>
    unfold BigInteger.lastNonZero at found
    split at found
    · rename_i here
      cases found
      exact ⟨Nat.lt_succ_self _, here, rfl⟩
    · rename_i zero
      obtain ⟨below, nonzero, same⟩ := ih (by omega) found
      refine ⟨by omega, nonzero, ?_⟩
      rw [ofDigits_take_succ inside, not_not.mp zero, Nat.mul_zero, Nat.add_zero, same]

theorem canonical_of_large (proper : i.Proper) (large : ¬ Small i.value) :
    canonical i.value = .big i := by
  have above : 256 ≤ Nat.ofDigits 256 i.digits := by
    unfold Small minimumValue maximumValue BigInteger.value BigInteger.magnitude at large
    split at large <;> omega
  have size : i.value.natAbs = Nat.ofDigits 256 i.digits := by
    unfold BigInteger.value BigInteger.magnitude
    split <;> omega
  have sign : decide (i.value < 0) = i.isNegative := by
    have some := proper.signed
    unfold BigInteger.value
    cases negative : i.isNegative
    · simp
    · have nonzero := some negative
      simp
      omega
  rw [canonical, if_neg large, size, sign, ← proper.numeral.eq_digits (by decide) above]

theorem shrunkToFit_eq (bytes : ∀ d ∈ i.digits, d < 256) :
    i.shrunkToFit = some (canonical i.value) := by
  unfold BigInteger.shrunkToFit
  cases found : BigInteger.lastNonZero i.digits i.size with
  | none =>
    have zero := lastNonZero_none le_rfl found
    rw [List.take_length] at zero
    have nothing : i.value = 0 := by
      unfold BigInteger.value BigInteger.magnitude
      simp [zero]
    rw [nothing]
    rfl
  | some k =>
    have length : i.size = i.digits.length := rfl
    obtain ⟨below, nonzero, same⟩ := lastNonZero_some le_rfl found
    rw [List.take_length] at same
    have cut : (if k + 1 = i.size then i else i.grownTo (k + 1)) =
        { i with digits := i.digits.take (k + 1) } := by
      split
      · rename_i all
        rw [all, length, List.take_length]
      · have full : k + 1 - i.size = 0 := Nat.sub_eq_zero_of_le below
        rw [BigInteger.grownTo, full, List.replicate_zero, List.append_nil]
    have kept : ({ i with digits := i.digits.take (k + 1) } : BigInteger).value = i.value := by
      unfold BigInteger.value BigInteger.magnitude
      rw [same]
    have ending : (i.digits.take (k + 1)).getLast? = some (i.digits.getD k 0) := by
      rw [List.getLast?_take, if_neg (Nat.succ_ne_zero k), Nat.add_sub_cancel]
      simp [List.getD, List.getElem?_eq_getElem (length ▸ below)]
    have some : i.digits.take (k + 1) ≠ [] := by
      intro empty
      rw [empty] at ending
      cases ending
    have last : (i.digits.take (k + 1)).getLast some = i.digits.getD k 0 := by
      rw [List.getLast?_eq_some_getLast some] at ending
      exact Option.some.inj ending
    have numeral : Numeral 256 (i.digits.take (k + 1)) :=
      .of_last (fun d here => bytes d (List.mem_of_mem_take here)) some (by rwa [last])
    have positive : Nat.ofDigits 256 (i.digits.take (k + 1)) ≠ 0 := by
      rw [ofDigits_take_succ below]
      have := Nat.mul_pos (Nat.pow_pos (by decide) : 0 < 256 ^ k) (Nat.pos_of_ne_zero nonzero)
      omega
    have proper : ({ i with digits := i.digits.take (k + 1) } : BigInteger).Proper :=
      ⟨numeral, fun _ => positive⟩
    simp only [cut]
    rw [canBeASmallInteger_eq proper, kept]
    by_cases fits : Small i.value
    · rw [if_pos (decide_eq_true fits), asSmallInteger_eq proper (by rwa [kept]), kept, canonical,
        if_pos fits]
      rfl
    · rw [decide_eq_false fits, if_neg Bool.false_ne_true, ← kept,
        canonical_of_large proper (by rwa [kept])]

end Shrink

end SlateVm
