import SlateVm.Number.Convert

/-! The loops of addition, subtraction and multiplication give the digits of the results. -/
namespace SlateVm

open Digits

section Add

theorem addDigits_length (smaller bigger : List Nat) (carry : Int) :
    (BigInteger.addDigits smaller bigger carry).1.length = bigger.length := by
  fun_induction BigInteger.addDigits smaller bigger carry with
  | case1 => rfl
  | case2 _ _ _ _ _ _ same ih => simpa [same] using ih
  | case3 _ _ _ _ _ _ _ _ same ih => simpa [same] using ih

theorem addDigits_bytes (smaller bigger : List Nat) (carry : Int) :
    ∀ d ∈ (BigInteger.addDigits smaller bigger carry).1, d < 256 := by
  fun_induction BigInteger.addDigits smaller bigger carry with
  | case1 => simp
  | case2 b bigger carry carry' sum last same ih =>
    have first := intoByte_range carry'
    rw [same] at ih
    simp only [List.forall_mem_cons]
    exact ⟨by omega, ih⟩
  | case3 s smaller b bigger carry carry' sum last same ih =>
    have first := intoByte_range carry'
    rw [same] at ih
    simp only [List.forall_mem_cons]
    exact ⟨by omega, ih⟩

theorem addDigits_value {smaller bigger : List Nat} {carry : Int}
    (one : ∀ d ∈ smaller, d < 256) (other : ∀ d ∈ bigger, d < 256)
    (sizes : smaller.length ≤ bigger.length) (range : 0 ≤ carry ∧ carry < 512) :
    0 ≤ (BigInteger.addDigits smaller bigger carry).2 ∧
      (BigInteger.addDigits smaller bigger carry).2 < 512 ∧
    ((Nat.ofDigits 256 (BigInteger.addDigits smaller bigger carry).1 : Nat) : Int) +
        256 ^ bigger.length * ((BigInteger.addDigits smaller bigger carry).2 / 256) =
      (Nat.ofDigits 256 smaller : Nat) + (Nat.ofDigits 256 bigger : Nat) + carry / 256 := by
  fun_induction BigInteger.addDigits smaller bigger carry with
  | case1 smaller carry =>
    have empty : smaller = [] := List.length_eq_zero_iff.mp (by simpa using sizes)
    subst empty
    simpa using range
  | case2 b bigger carry carry' sum last same ih =>
    have byte := other b List.mem_cons_self
    have shifted : carry' = carry / 256 + b := by rw [← shift_right_byte]
    obtain ⟨least, most, rest⟩ := ih one (fun d here => other d (List.mem_cons_of_mem b here))
      (Nat.zero_le _) (by omega)
    rw [same] at least most rest
    refine ⟨least, most, ?_⟩
    have first : ((intoByte carry').toNat : Int) = carry' % 256 := by
      rw [intoByte_eq, Int.toNat_of_nonneg (by omega)]
    have whole := Int.emod_add_mul_ediv carry' 256
    simp only [Nat.ofDigits_cons, Nat.ofDigits_nil, Nat.cast_add, Nat.cast_mul, List.length_cons,
      pow_succ, first] at rest ⊢
    push_cast at rest ⊢
    linear_combination 256 * rest + whole + shifted
  | case3 s smaller b bigger carry carry' sum last same ih =>
    have byte := other b List.mem_cons_self
    have byte' := one s List.mem_cons_self
    have shifted : carry' = carry / 256 + s + b := by rw [← shift_right_byte]
    obtain ⟨least, most, rest⟩ := ih (fun d here => one d (List.mem_cons_of_mem s here))
      (fun d here => other d (List.mem_cons_of_mem b here)) (by simpa using sizes) (by omega)
    rw [same] at least most rest
    refine ⟨least, most, ?_⟩
    have first : ((intoByte carry').toNat : Int) = carry' % 256 := by
      rw [intoByte_eq, Int.toNat_of_nonneg (by omega)]
    have whole := Int.emod_add_mul_ediv carry' 256
    simp only [Nat.ofDigits_cons, Nat.cast_add, Nat.cast_mul, List.length_cons, pow_succ, first]
    push_cast at rest ⊢
    linear_combination 256 * rest + whole + shifted

variable {i1 i2 : BigInteger}

theorem sum_numeral {smaller bigger : List Nat} (one : Numeral 256 smaller)
    (other : Numeral 256 bigger) (sizes : smaller.length ≤ bigger.length) {sum : List Nat}
    {carry : Int} (loops : BigInteger.addDigits smaller bigger 0 = (sum, carry)) :
    Numeral 256 (if carry > 0xFF then sum ++ [1] else sum) ∧
      Nat.ofDigits 256 (if carry > 0xFF then sum ++ [1] else sum) =
        Nat.ofDigits 256 smaller + Nat.ofDigits 256 bigger := by
  have length := addDigits_length smaller bigger 0
  have bytes := addDigits_bytes smaller bigger 0
  obtain ⟨least, most, value⟩ := addDigits_value one.digits other.digits sizes
    (show (0 : Int) ≤ 0 ∧ (0 : Int) < 512 by decide)
  rw [loops] at length bytes least most value
  simp only at length bytes least most value
  split
  · rename_i overflows
    have top : carry / 256 = 1 := by omega
    constructor
    · apply Numeral.of_last _ (by simp)
      · simp
      · intro d here
        rcases List.mem_append.mp here with here | here
        · exact bytes d here
        · rw [List.mem_singleton.mp here]
          decide
    · rw [Nat.ofDigits_append, Nat.ofDigits_singleton, length]
      rw [top] at value
      push_cast at value
      zify
      linear_combination value
  · rename_i fits
    have top : carry / 256 = 0 := by omega
    have same : Nat.ofDigits 256 sum = Nat.ofDigits 256 smaller + Nat.ofDigits 256 bigger := by
      rw [top] at value
      omega
    refine ⟨⟨bytes, ?_⟩, same⟩
    rw [length, same]
    exact other.low.imp id fun low => low.trans (Nat.le_add_left _ _)

theorem add_eq (one : Numeral 256 i1.digits) (other : Numeral 256 i2.digits) :
    Numeral 256 (i1.add i2).digits ∧
      (i1.add i2).magnitude = i1.magnitude + i2.magnitude ∧
      (i1.add i2).isNegative = i1.isNegative := by
  unfold BigInteger.add
  split
  rename_i smaller bigger chosen
  cases loops : BigInteger.addDigits smaller.digits bigger.digits 0 with
  | mk sum carry =>
    unfold BigInteger.size at chosen
    split at chosen
    · rename_i shorter
      cases chosen
      have digits := sum_numeral one other shorter.le loops
      exact ⟨digits.1, digits.2, rfl⟩
    · rename_i longer
      cases chosen
      have digits := sum_numeral other one (by omega) loops
      exact ⟨digits.1, digits.2.trans (Nat.add_comm _ _), rfl⟩

theorem add_canonical (one : i1.Proper) (other : i2.Proper)
    (signed : i1.isNegative = true → i1.magnitude + i2.magnitude ≠ 0) {v : Int}
    (value : v = SlateVm.signed i1.isNegative (i1.magnitude + i2.magnitude))
    (large : ¬ Small v) : some (.big (i1.add i2)) = some (canonical v) := by
  obtain ⟨numeral, sum, sign⟩ := add_eq one.numeral other.numeral
  have same : (i1.add i2).value = v := by
    rw [value, value_eq_signed, sum, sign]
  have proper : (i1.add i2).Proper := ⟨numeral, by rwa [sum, sign]⟩
  rw [← same, canonical_of_large proper (by rwa [same])]

end Add

section Subtract

variable {i1 i2 : BigInteger}

theorem subtractDigits_bytes (smaller bigger : List Nat) (borrow : Int) :
    ∀ d ∈ BigInteger.subtractDigits smaller bigger borrow, d < 256 := by
  fun_induction BigInteger.subtractDigits smaller bigger borrow with
  | case1 => simp
  | case2 b bigger borrow borrow' ih =>
    have first := intoByte_range borrow'
    simp only [List.forall_mem_cons]
    exact ⟨by omega, ih⟩
  | case3 s smaller b bigger borrow borrow' ih =>
    have first := intoByte_range borrow'
    simp only [List.forall_mem_cons]
    exact ⟨by omega, ih⟩

theorem digit_step (t m : Int) (n : Nat) :
    ((intoByte t).toNat : Int) + 256 * ((m + t / 256) % 256 ^ n) =
      (t + 256 * m) % 256 ^ (n + 1) := by
  have first : ((intoByte t).toNat : Int) = t % 256 := by
    rw [intoByte_eq, Int.toNat_of_nonneg (by omega)]
  have power : (256 : Int) ^ (n + 1) = 256 * 256 ^ n := by ring
  have parts : t + 256 * m = t % 256 + 256 * (m + t / 256) := by omega
  rw [first, power, parts, emod_byte _ _ _ (by positivity)]

theorem subtractDigits_value {smaller bigger : List Nat} {borrow : Int}
    (sizes : smaller.length ≤ bigger.length) :
    ((Nat.ofDigits 256 (BigInteger.subtractDigits smaller bigger borrow) : Nat) : Int) =
      ((Nat.ofDigits 256 bigger : Nat) - (Nat.ofDigits 256 smaller : Nat) + borrow / 256) %
        256 ^ bigger.length := by
  fun_induction BigInteger.subtractDigits smaller bigger borrow with
  | case1 smaller borrow => simp
  | case2 b bigger borrow borrow' ih =>
    have rest := ih (Nat.zero_le _)
    have step := digit_step borrow' (Nat.ofDigits 256 bigger : Nat) bigger.length
    have shifted : borrow' = borrow / 256 + b := by rw [← shift_right_byte]
    have whole : ((Nat.ofDigits 256 (b :: bigger) : Nat) : Int) - (Nat.ofDigits 256 [] : Nat) +
        borrow / 256 = borrow' + 256 * (Nat.ofDigits 256 bigger : Nat) := by
      rw [Nat.ofDigits_cons, Nat.ofDigits_nil]
      omega
    rw [whole, List.length_cons, ← step, Nat.ofDigits_cons, Nat.cast_add, Nat.cast_mul, rest]
    simp
  | case3 s smaller b bigger borrow borrow' ih =>
    have rest := ih (by simpa using sizes)
    have step := digit_step borrow'
      ((Nat.ofDigits 256 bigger : Nat) - (Nat.ofDigits 256 smaller : Nat)) bigger.length
    have shifted : borrow' = borrow / 256 + b - s := by rw [← shift_right_byte]
    have whole : ((Nat.ofDigits 256 (b :: bigger) : Nat) : Int) -
        (Nat.ofDigits 256 (s :: smaller) : Nat) + borrow / 256 =
        borrow' + 256 * ((Nat.ofDigits 256 bigger : Nat) - (Nat.ofDigits 256 smaller : Nat)) := by
      rw [Nat.ofDigits_cons, Nat.ofDigits_cons]
      omega
    rw [whole, List.length_cons, ← step, Nat.ofDigits_cons, Nat.cast_add, Nat.cast_mul, rest]
    simp

theorem difference_magnitude {smaller bigger : List Nat} (other : ∀ d ∈ bigger, d < 256)
    (sizes : smaller.length ≤ bigger.length)
    (less : Nat.ofDigits 256 smaller ≤ Nat.ofDigits 256 bigger) :
    Nat.ofDigits 256 (BigInteger.subtractDigits smaller bigger 0) =
      Nat.ofDigits 256 bigger - Nat.ofDigits 256 smaller := by
  have value := @subtractDigits_value smaller bigger 0 sizes
  have bound := Nat.ofDigits_lt_base_pow_length (by decide) other
  have bound' : ((Nat.ofDigits 256 bigger : Nat) : Int) < 256 ^ bigger.length := by
    exact_mod_cast bound
  rw [Int.emod_eq_of_lt (by omega) (by omega)] at value
  omega

theorem subtract_eq (one : i1.Proper) (other : i2.Proper) :
    i1.subtract i2 = some (canonical (if i1.isNegative then
      (i2.magnitude : Int) - i1.magnitude else i1.magnitude - i2.magnitude)) := by
  unfold BigInteger.subtract
  rw [compare_eq one.numeral other.numeral]
  by_cases less : i1.magnitude < i2.magnitude
  · have sign : decide (order i1.magnitude i2.magnitude = -1) = true := by
      rw [decide_eq_true_eq, order_lt]
      omega
    have sizes : i1.digits.length ≤ i2.digits.length := by
      by_contra longer
      have more := other.numeral.shorter (by decide) one.numeral (by omega)
      unfold BigInteger.magnitude at less
      omega
    have digits := difference_magnitude other.numeral.digits sizes less.le
    simp only [sign, if_true]
    rw [shrunkToFit_eq (subtractDigits_bytes _ _ _)]
    congr 2
    unfold BigInteger.value BigInteger.magnitude at *
    rw [digits]
    cases i1.isNegative <;> simp <;> omega
  · have sign : decide (order i1.magnitude i2.magnitude = -1) = false := by
      rw [decide_eq_false_iff_not, order_lt]
      omega
    have sizes : i2.digits.length ≤ i1.digits.length := by
      by_contra longer
      have more := one.numeral.shorter (by decide) other.numeral (by omega)
      unfold BigInteger.magnitude at less
      omega
    have digits := difference_magnitude one.numeral.digits sizes (Nat.not_lt.mp less)
    simp only [sign, Bool.false_eq_true, if_false]
    rw [shrunkToFit_eq (subtractDigits_bytes _ _ _)]
    congr 2
    unfold BigInteger.value BigInteger.magnitude at *
    rw [digits]
    cases i1.isNegative <;> simp <;> omega

end Subtract

section Times

structure Bytes (capacity : Nat) (result : List Nat) : Prop where
  size : result.length = capacity
  bytes : ∀ d ∈ result, d < 256

theorem atPut_byte {capacity index : Nat} {result : List Nat} {v : Int}
    (array : Bytes capacity result) (inside : index < capacity) (byte : 0 ≤ v ∧ v < 256) :
    ∃ after, atPut result index v = some after ∧ Bytes capacity after ∧
      ((Nat.ofDigits 256 after : Nat) : Int) + 256 ^ index * (result.getD index 0 : Nat) =
        (Nat.ofDigits 256 result : Nat) + 256 ^ index * v ∧
      ∀ j, j ≠ index → after.getD j 0 = result.getD j 0 := by
  have within : index < result.length := by
    rw [array.size]
    exact inside
  refine ⟨_, if_pos within, ⟨by rw [List.length_set, array.size], ?_⟩, ?_, ?_⟩
  · intro d here
    rcases List.mem_or_eq_of_mem_set here with here | rfl
    · exact array.bytes d here
    · omega
  · have change := @ofDigits_set 256 result index (v % 256).toNat within
    have kept : ((v % 256).toNat : Int) = v := by omega
    have old : result.getD index 0 = result[index] := by simp [List.getD, within]
    have cast := congrArg (Nat.cast : Nat → Int) change
    simp only [Nat.cast_add, Nat.cast_mul, Nat.cast_pow, Nat.cast_ofNat, kept] at cast
    rw [old, cast]
  · intro j other
    simp [List.getD, List.getElem?_set_ne (Ne.symm other)]

theorem timesRow_eq {each1 capacity : Nat} {i2 : List Nat} {index : Nat} {carry : Int}
    {result : List Nat} (digit : each1 < 256) (bytes : ∀ d ∈ i2, d < 256)
    (array : Bytes capacity result) (inside : index + i2.length ≤ capacity)
    (range : 0 ≤ carry ∧ carry < 65536) :
    ∃ after last, BigInteger.timesRow each1 i2 index carry result = some (after, last) ∧
      Bytes capacity after ∧ (0 ≤ last ∧ last < 65536) ∧
      ((Nat.ofDigits 256 after : Nat) : Int) + 256 ^ (index + i2.length) * (last / 256) =
        (Nat.ofDigits 256 result : Nat) +
          256 ^ index * (each1 * (Nat.ofDigits 256 i2 : Nat) + carry / 256) ∧
      ∀ j, index + i2.length ≤ j → after.getD j 0 = result.getD j 0 := by
  induction i2 generalizing index carry result with
  | nil => exact ⟨result, carry, rfl, array, range, by simp, fun _ _ => rfl⟩
  | cons each2 i2 ih =>
    rw [List.length_cons] at inside
    have within : index < result.length := by
      rw [array.size]
      omega
    have here : result[index]? = some (result.getD index 0) := by
      simp [List.getD, within]
    have old : result.getD index 0 < 256 := by
      rw [List.getD, here]
      exact array.bytes _ (List.mem_of_getElem? here)
    have byte2 : each2 < 256 := bytes each2 List.mem_cons_self
    have product : each2 * each1 ≤ 255 * 255 := Nat.mul_le_mul (by omega) (by omega)
    have product' : (each2 : Int) * each1 ≤ 65025 := by exact_mod_cast product
    have product'' : (0 : Int) ≤ each2 * each1 := by positivity
    generalize total : (carry >>> (8 : Nat)) + (each2 : Int) * each1 + (result.getD index 0 : Nat) = carry'
    rw [shift_right_byte] at total
    obtain ⟨put, written, array', changed, others⟩ :=
      @atPut_byte capacity index result (intoByte carry') array (by omega) (intoByte_range carry')
    obtain ⟨after, last, run, array2, range', value, above⟩ :=
      @ih (index + 1) carry' put (fun d later => bytes d (List.mem_cons_of_mem each2 later))
        array' (by omega) (by omega)
    refine ⟨after, last, ?_, array2, range', ?_, ?_⟩
    · simp only [BigInteger.timesRow, here, Option.bind_eq_bind, Option.bind_some,
        shift_right_byte, total, written, run]
    · have whole := Int.emod_add_mul_ediv carry' 256
      rw [intoByte_eq] at changed
      have power : index + (each2 :: i2).length = index + 1 + i2.length := by
        rw [List.length_cons]
        omega
      rw [power, Nat.ofDigits_cons]
      rw [pow_succ] at value
      simp only [Nat.cast_add, Nat.cast_mul, Nat.cast_ofNat]
      linear_combination value + changed + 256 ^ index * whole - 256 ^ index * total
    · intro j far
      rw [List.length_cons] at far
      rw [above j (by omega), others j (by omega)]

theorem timesRows_eq {capacity : Nat} {i2 i1 : List Nat} {index1 : Nat} {result : List Nat}
    (bytes2 : ∀ d ∈ i2, d < 256) (bytes1 : ∀ d ∈ i1, d < 256) (array : Bytes capacity result)
    (room : index1 + i1.length + i2.length ≤ capacity + 1)
    (clear : ∀ j, index1 + i2.length ≤ j → result.getD j 0 = 0)
    (bound : ((Nat.ofDigits 256 result : Nat) : Int) +
      256 ^ index1 * ((Nat.ofDigits 256 i1 : Nat) * (Nat.ofDigits 256 i2 : Nat)) <
        256 ^ capacity) :
    ∃ after, BigInteger.timesRows i2 i1 index1 result = some after ∧ Bytes capacity after ∧
      ((Nat.ofDigits 256 after : Nat) : Int) = (Nat.ofDigits 256 result : Nat) +
        256 ^ index1 * ((Nat.ofDigits 256 i1 : Nat) * (Nat.ofDigits 256 i2 : Nat)) := by
  induction i1 generalizing index1 result with
  | nil => exact ⟨result, rfl, array, by simp⟩
  | cons each1 i1 ih =>
    rw [List.length_cons] at room
    obtain ⟨row, carry, run, array1, range, value, above⟩ :=
      @timesRow_eq each1 capacity i2 index1 0 result (bytes1 each1 List.mem_cons_self) bytes2 array
        (by omega) (by decide)
    simp only [Nat.ofDigits_cons, Nat.cast_add, Nat.cast_mul, Nat.cast_ofNat] at bound ⊢
    rw [Int.zero_ediv, add_zero] at value
    have later : ((Nat.ofDigits 256 result : Nat) : Int) +
        256 ^ index1 * (each1 * (Nat.ofDigits 256 i2 : Nat)) ≤ (Nat.ofDigits 256 result : Nat) +
          256 ^ index1 * ((each1 + 256 * (Nat.ofDigits 256 i1 : Nat)) *
            (Nat.ofDigits 256 i2 : Nat)) := by
      have more : (0 : Int) ≤ 256 ^ index1 * (256 * (Nat.ofDigits 256 i1 : Nat) *
        (Nat.ofDigits 256 i2 : Nat)) := by positivity
      linarith
    -- the row with its carry, and what the later rows add
    have next : ∃ put, BigInteger.putCarry row (index1 + i2.length) carry = some put ∧
        Bytes capacity put ∧
        ((Nat.ofDigits 256 put : Nat) : Int) = (Nat.ofDigits 256 result : Nat) +
          256 ^ index1 * (each1 * (Nat.ofDigits 256 i2 : Nat)) ∧
        ∀ j, index1 + 1 + i2.length ≤ j → put.getD j 0 = 0 := by
      unfold BigInteger.putCarry
      split
      · have inside : index1 + i2.length < capacity := by
          by_contra outside
          have power : (256 : Int) ^ capacity ≤ 256 ^ (index1 + i2.length) :=
            pow_le_pow_right₀ (by decide) (by omega)
          have top : 256 ^ (index1 + i2.length) * 1 ≤ (256 : Int) ^ (index1 + i2.length) *
            (carry / 256) := by
            apply mul_le_mul_of_nonneg_left _ (by positivity)
            omega
          have row_value : (0 : Int) ≤ (Nat.ofDigits 256 row : Nat) := Int.natCast_nonneg _
          linarith
        obtain ⟨put, written, array2, changed, others⟩ :=
          @atPut_byte capacity (index1 + i2.length) row (carry / 256) array1 inside (by omega)
        have was : row.getD (index1 + i2.length) 0 = 0 := by
          rw [above _ le_rfl, clear _ le_rfl]
        rw [was] at changed
        refine ⟨put, by rw [shift_right_byte, written], array2, ?_, ?_⟩
        · rw [Nat.cast_zero, mul_zero, add_zero] at changed
          rw [changed, value]
        · intro j far
          rw [others j (by omega), above j (by omega), clear j (by omega)]
      · have none : carry / 256 = 0 := by omega
        refine ⟨row, rfl, array1, ?_, ?_⟩
        · simpa [none] using value
        · intro j far
          rw [above j (by omega), clear j (by omega)]
    obtain ⟨put, written, array2, sum, clear2⟩ := next
    have total : ((Nat.ofDigits 256 put : Nat) : Int) + 256 ^ (index1 + 1) *
        ((Nat.ofDigits 256 i1 : Nat) * (Nat.ofDigits 256 i2 : Nat)) =
        (Nat.ofDigits 256 result : Nat) + 256 ^ index1 *
          ((each1 + 256 * (Nat.ofDigits 256 i1 : Nat)) * (Nat.ofDigits 256 i2 : Nat)) := by
      rw [sum, pow_succ]
      ring
    obtain ⟨after, rows, array3, final⟩ := @ih (index1 + 1) put
      (fun d in_rest => bytes1 d (List.mem_cons_of_mem each1 in_rest)) array2 (by omega) clear2
      (by rwa [total])
    refine ⟨after, ?_, array3, final.trans total⟩
    simp only [BigInteger.timesRows, run, Option.bind_eq_bind, Option.bind_some, written, rows]

variable {i1 i2 : BigInteger}

theorem magnitude_lt_highBit (numeral : Numeral 256 i1.digits) :
    i1.magnitude < 2 ^ (i1.highBit + 1) ∧ (i1.size - 1) * 8 ≤ i1.highBit := by
  have positive : 0 < i1.size := numeral.pos
  have length : i1.size = i1.digits.length := rfl
  constructor
  · have cut := @ofDigits_take_succ 256 i1.digits (i1.size - 1) (by omega)
    rw [List.take_of_length_le (by omega)] at cut
    have below := ofDigits_take_lt (by decide) numeral.digits (i1.size - 1)
    have top : i1.lastDigit < 2 ^ (Nat.log 2 i1.lastDigit + 1) :=
      Nat.lt_pow_succ_log_self (by decide) _
    have scaled := Nat.mul_le_mul_left (256 ^ (i1.size - 1)) top
    have power : 256 ^ (i1.size - 1) * 2 ^ (Nat.log 2 i1.lastDigit + 1) =
        2 ^ (i1.highBit + 1) := by
      rw [← pow_bytes, ← pow_add, BigInteger.highBit, smallHighBit_eq, Int.natAbs_natCast]
      congr 1
      omega
    rw [power, Nat.mul_succ] at scaled
    change Nat.ofDigits 256 i1.digits < _
    rw [cut]
    exact (Nat.add_lt_add_right below _).trans_le ((Nat.add_comm _ _).trans_le scaled)
  · rw [BigInteger.highBit]
    omega

theorem times_eq (one : i1.Proper) (other : i2.Proper) :
    i1.times i2 = some (canonical (i1.value * i2.value)) := by
  have length1 : i1.size = i1.digits.length := rfl
  have length2 : i2.size = i2.digits.length := rfl
  have zero_value {i : BigInteger} (zero : i.isZero = true) : i.value = 0 := by
    obtain ⟨single, last⟩ := decide_eq_true_iff.mp zero
    have digits : i.digits = [0] := by
      obtain ⟨d, list⟩ := List.length_eq_one_iff.mp single
      rw [list]
      rw [BigInteger.lastDigit, single, list] at last
      exact congrArg (fun d => [d]) last
    unfold BigInteger.value BigInteger.magnitude
    simp [digits]
  unfold BigInteger.times
  split
  · rename_i zero
    have product : i1.value * i2.value = 0 := by
      rcases zero with zero | zero
      · rw [zero_value zero, zero_mul]
      · rw [zero_value zero, mul_zero]
    rw [product]
    rfl
  · obtain ⟨bound1, size1⟩ := magnitude_lt_highBit one.numeral
    obtain ⟨bound2, size2⟩ := magnitude_lt_highBit other.numeral
    have positive1 := one.numeral.pos
    have positive2 := other.numeral.pos
    generalize capacity : (i1.highBit + i2.highBit + 1) / 8 + 1 = n
    have fits : i1.magnitude * i2.magnitude < 256 ^ n := by
      have product := Nat.mul_lt_mul'' bound1 bound2
      rw [← pow_add] at product
      rw [← pow_bytes]
      exact product.trans_le (Nat.pow_le_pow_right (by decide) (by omega))
    have empty : Nat.ofDigits 256 (List.replicate n 0) = 0 := Nat.ofDigits_replicate_zero
    have fresh : Bytes n (List.replicate n 0) := by
      constructor
      · exact List.length_replicate
      · intro d here
        rw [List.eq_of_mem_replicate here]
        decide
    have clear : ∀ j, 0 + i2.digits.length ≤ j → (List.replicate n 0).getD j 0 = 0 := by
      intro j _
      rw [List.getD, List.getElem?_replicate]
      split <;> rfl
    have bound : ((Nat.ofDigits 256 (List.replicate n 0) : Nat) : Int) + 256 ^ 0 *
        ((Nat.ofDigits 256 i1.digits : Nat) * (Nat.ofDigits 256 i2.digits : Nat)) < 256 ^ n := by
      rw [empty, Nat.cast_zero, zero_add, pow_zero, one_mul]
      exact_mod_cast fits
    obtain ⟨result, rows, array, value⟩ := timesRows_eq other.numeral.digits one.numeral.digits
      fresh (by omega) clear bound
    rw [empty] at value
    simp only [rows, Option.bind_eq_bind, Option.bind_some]
    rw [shrunkToFit_eq array.bytes]
    congr 2
    have magnitudes : ((Nat.ofDigits 256 result : Nat) : Int) = i1.magnitude * i2.magnitude := by
      rw [value, Nat.cast_zero, zero_add, pow_zero, one_mul]
      rfl
    unfold BigInteger.value
    rw [show BigInteger.magnitude ⟨i1.isNegative ^^ i2.isNegative, result⟩ =
      Nat.ofDigits 256 result from rfl, magnitudes]
    cases i1.isNegative <;> cases i2.isNegative <;> simp

end Times

end SlateVm
