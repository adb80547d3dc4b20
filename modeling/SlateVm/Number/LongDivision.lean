import SlateVm.Number.Shift

/-! Long division of big integers: both numbers are shifted until the highest bit of the divisor
is set, multiples of the two's complement of the divisor are added in place, and the array is left
with the digits of the quotient above those of the remainder. -/
namespace SlateVm

open Digits

namespace BigInteger

/-- The second loop of `add:scaledBy:at:`, over the `n` places from `offset` on. -/
def carryLoop : Nat → Nat → Int → List Nat → Option (List Nat)
  | 0, _, carry, i1 => if carry > 0xFF then none else some i1
  | n + 1, offset, carry, i1 =>
    if carry > 0xFF then do
      let carry := (carry >>> (8 : Nat)) + (← i1[offset]?)
      let i1 ← atPut i1 offset (intoByte carry)
      carryLoop n (offset + 1) carry i1
    else some i1

/-- `add:scaledBy:at:`. Its first loop is the inner loop of `*`. -/
def addScaledBy (i1 i2 : List Nat) (q offset : Nat) : Option (List Nat) := do
  let (i1, carry) ← timesRow q i2 offset 0 i1
  carryLoop (i1.length - (offset + i2.length)) (offset + i2.length) carry i1

def subtractLoop : List Nat → Nat → Int → List Nat → Option (List Nat × Int)
  | [], _, borrow, i1 => some (i1, borrow)
  | digit :: i2, offset, borrow, i1 => do
    let borrow := (borrow >>> (8 : Nat)) + (← i1[offset]?) - digit
    let i1 ← atPut i1 offset (intoByte borrow)
    subtractLoop i2 (offset + 1) borrow i1

def subtractAt (i1 i2 : List Nat) (offset : Nat) : Option (List Nat) := do
  let (i1, borrow) ← subtractLoop i2 offset 0 i1
  if borrow < 0 then
    let borrow := (borrow >>> (8 : Nat)) + (← i1[offset + i2.length]?)
    atPut i1 (offset + i2.length) (intoByte borrow)
  else some i1

def twosComplement : List Nat → Int → List Nat
  | [], _ => []
  | digit :: digits, carry =>
    let carry := (carry >>> (8 : Nat)) + primBitxor digit 0xFF
    (intoByte carry).toNat :: twosComplement digits carry

def correct (d : List Nat) (index : Nat) : Nat → List Nat → Option (List Nat)
  | 0, quoRem => do
    if (← quoRem[index]?) = 0 then some quoRem else none
  | q + 1, quoRem => do
    if (← quoRem[index]?) = q + 1 then some quoRem
    else correct d index q (← subtractAt quoRem d (index - d.length))

def estimate (q next lastD : Nat) : Option Nat :=
  if q = lastD then some 0xFF
  else if lastD = 0 then none
  else some ((q * 256 + next) / lastD)

def quotientDigits (d : List Nat) (lastD : Nat) : Nat → List Nat → Option (List Nat)
  | 0, quoRem => some quoRem
  | n + 1, quoRem => do
    let index := d.length + n
    let q ← estimate (← quoRem[index]?) (← quoRem[index - 1]?) lastD
    let quoRem ← addScaledBy quoRem d q (index - d.length)
    let quoRem ← correct d index q quoRem
    quotientDigits d lastD n quoRem

def quoRem (i1 i2 : BigInteger) : Option (SlateInteger × SlateInteger) :=
  if i1.compare i2 = -1 then some (.small 0, .big i1)
  else if i1.compare i2 = 0 then some (.small 1, .small 0)
  else do
    let shift := 7 - i2.highBit % 8
    let digits ← i1.bitShiftInto shift (List.replicate (i1.size + 2) 0)
    let d ← i2.bitShiftInto shift (List.replicate i2.size 0)
    let lastD := d.getD (d.length - 1) 0
    let d := twosComplement d 0x100
    let digits ← quotientDigits d lastD (digits.length - 1 - d.length) digits
    let quo ← bitShiftInto ⟨i1.isNegative, digits⟩ (d.length * -8)
      (List.replicate (digits.length - d.length) 0)
    let digits ← atPut digits d.length 0
    let rem ← bitShiftInto ⟨i1.isNegative, digits⟩ (-shift : Int) (List.replicate i2.size 0)
    let quo ← shrunkToFit ⟨i1.isNegative ^^ i2.isNegative, quo⟩
    let rem ← shrunkToFit ⟨i2.isNegative, rem⟩
    some (quo, rem)

section Places

variable {r k : Nat} {before after : List Nat}

theorem drop_of_getD (one : before.length = r) (other : after.length = r)
    (same : ∀ j, k ≤ j → after.getD j 0 = before.getD j 0) : after.drop k = before.drop k := by
  apply List.ext_getElem (by simp only [List.length_drop, one, other])
  intro j here there
  rw [List.length_drop] at here there
  have place := same (k + j) (by omega)
  rw [List.getD_eq_getElem _ _ (by omega), List.getD_eq_getElem _ _ (by omega)] at place
  simpa only [List.getElem_drop] using place

theorem take_of_drop (same : after.drop k = before.drop k) {x : Int}
    (value : ((Nat.ofDigits 256 after : Nat) : Int) = (Nat.ofDigits 256 before : Nat) + x) :
    ((Nat.ofDigits 256 (after.take k) : Nat) : Int) =
      (Nat.ofDigits 256 (before.take k) : Nat) + x := by
  have one := congrArg (Nat.cast : Nat → Int) (ofDigits_take_drop before k)
  have other := congrArg (Nat.cast : Nat → Int) (ofDigits_take_drop after k)
  rw [same] at other
  simp only [Nat.cast_add] at one other
  omega

end Places

section Add

variable {r offset q : Nat} {i1 d : List Nat}

theorem getElem?_place {array : List Nat} {j : Nat} (bytes : Bytes r array) (inside : j < r) :
    array[j]? = some (array.getD j 0) ∧ array.getD j 0 < 256 := by
  have within : j < array.length := by
    rw [bytes.size]
    exact inside
  rw [List.getD_eq_getElem _ _ within]
  exact ⟨List.getElem?_eq_getElem within, bytes.bytes _ (List.getElem_mem within)⟩

theorem carryLoop_eq {place : Nat} {carry : Int} (array : Bytes r i1) (inside : place < r)
    (range : 0 ≤ carry ∧ carry < 65536) (fits : carry / 256 + (i1.getD place 0 : Nat) < 256) :
    ∃ after, carryLoop (r - place) place carry i1 = some after ∧ Bytes r after ∧
      ((Nat.ofDigits 256 after : Nat) : Int) =
        (Nat.ofDigits 256 i1 : Nat) + 256 ^ place * (carry / 256) ∧
      ∀ j, j ≠ place → after.getD j 0 = i1.getD j 0 := by
  obtain ⟨n, count⟩ : ∃ n, r - place = n + 1 := ⟨r - place - 1, by omega⟩
  rw [count, carryLoop]
  by_cases top : carry > 0xFF
  · have last : carry / 256 + (i1.getD place 0 : Nat) = intoByte (carry / 256 + (i1.getD place 0 : Nat)) := by
      rw [intoByte_eq]
      omega
    obtain ⟨after, written, array', changed, others⟩ :=
      @atPut_byte r place i1 (intoByte (carry / 256 + (i1.getD place 0 : Nat))) array inside
        (intoByte_range _)
    refine ⟨after, ?_, array', ?_, others⟩
    · rw [if_pos top, (getElem?_place array inside).1]
      simp only [Option.bind_eq_bind, Option.bind_some, shift_right_byte, written]
      cases n with
      | zero => rw [carryLoop, if_neg (by omega)]
      | succ n => rw [carryLoop, if_neg (by omega)]
    · rw [← last] at changed
      linear_combination changed
  · have none : carry / 256 = 0 := by omega
    exact ⟨i1, if_neg top, array, by rw [none, mul_zero, add_zero], fun _ _ => rfl⟩

theorem addScaledBy_eq (digit : q < 256) (bytes : ∀ e ∈ d, e < 256) (array : Bytes r i1)
    (inside : offset + d.length < r)
    (bound : ((Nat.ofDigits 256 (i1.take (offset + d.length + 1)) : Nat) : Int) +
      256 ^ offset * (q * (Nat.ofDigits 256 d : Nat)) < 256 ^ (offset + d.length + 1)) :
    ∃ after, addScaledBy i1 d q offset = some after ∧ Bytes r after ∧
      ((Nat.ofDigits 256 after : Nat) : Int) =
        (Nat.ofDigits 256 i1 : Nat) + 256 ^ offset * (q * (Nat.ofDigits 256 d : Nat)) ∧
      after.drop (offset + d.length + 1) = i1.drop (offset + d.length + 1) := by
  obtain ⟨row, last, run, array1, range, value, above⟩ :=
    @timesRow_eq q r d offset 0 i1 digit bytes array inside.le (by decide)
  rw [Int.zero_ediv, add_zero] at value
  have kept := above _ le_rfl
  have room : last / 256 + (row.getD (offset + d.length) 0 : Nat) < 256 := by
    have drop := drop_of_getD array.size array1.size above
    have low := take_of_drop drop
      (x := 256 ^ offset * (q * (Nat.ofDigits 256 d : Nat)) - 256 ^ (offset + d.length) * (last / 256))
      (by linear_combination value)
    have cut := @ofDigits_take_succ 256 i1 (offset + d.length) (by rw [array.size]; exact inside)
    rw [cut] at bound
    rw [kept]
    have natural : (0 : Int) ≤ (Nat.ofDigits 256 (row.take (offset + d.length)) : Nat) :=
      Int.natCast_nonneg _
    have scaled : 256 ^ (offset + d.length) *
        (last / 256 + (i1.getD (offset + d.length) 0 : Nat)) < 256 ^ (offset + d.length) * 256 := by
      rw [pow_succ] at bound
      push_cast at bound
      push_cast at low natural
      linarith
    exact lt_of_mul_lt_mul_left scaled (by positivity)
  obtain ⟨after, more, array2, changed, others⟩ := carryLoop_eq array1 inside range room
  refine ⟨after, ?_, array2, ?_, ?_⟩
  · simp only [addScaledBy, run, Option.bind_eq_bind, Option.bind_some, array1.size, more]
  · linear_combination changed + value
  · apply drop_of_getD array.size array2.size
    intro j far
    rw [others j (by omega), above j (by omega)]

end Add

section Subtract

variable {r : Nat} {d : List Nat}

theorem subtractLoop_eq {offset : Nat} {i1 : List Nat} {borrow : Int} (bytes : ∀ e ∈ d, e < 256)
    (array : Bytes r i1) (inside : offset + d.length ≤ r) (range : -256 ≤ borrow ∧ borrow < 256) :
    ∃ after last, subtractLoop d offset borrow i1 = some (after, last) ∧ Bytes r after ∧
      (-256 ≤ last ∧ last < 256) ∧
      ((Nat.ofDigits 256 after : Nat) : Int) + 256 ^ (offset + d.length) * (last / 256) =
        (Nat.ofDigits 256 i1 : Nat) + 256 ^ offset * (borrow / 256 - (Nat.ofDigits 256 d : Nat)) ∧
      ∀ j, offset + d.length ≤ j → after.getD j 0 = i1.getD j 0 := by
  induction d generalizing offset borrow i1 with
  | nil => exact ⟨i1, borrow, rfl, array, range, by simp, fun _ _ => rfl⟩
  | cons digit d ih =>
    rw [List.length_cons] at inside
    have byte := bytes digit List.mem_cons_self
    obtain ⟨here, old⟩ := @getElem?_place r i1 offset array (by omega)
    generalize total : (borrow >>> (8 : Nat)) + ((i1.getD offset 0 : Nat) : Int) - digit = borrow'
    rw [shift_right_byte] at total
    obtain ⟨put, written, array', changed, others⟩ :=
      @atPut_byte r offset i1 (intoByte borrow') array (by omega) (intoByte_range borrow')
    obtain ⟨after, last, run, array2, range', value, above⟩ :=
      @ih (offset + 1) put borrow' (fun e later => bytes e (List.mem_cons_of_mem digit later))
        array' (by omega) (by omega)
    refine ⟨after, last, ?_, array2, range', ?_, ?_⟩
    · simp only [subtractLoop, here, Option.bind_eq_bind, Option.bind_some, shift_right_byte,
        total, written, run]
    · have whole := Int.emod_add_mul_ediv borrow' 256
      rw [intoByte_eq] at changed
      have power : offset + (digit :: d).length = offset + 1 + d.length := by
        rw [List.length_cons]
        omega
      rw [power, Nat.ofDigits_cons]
      rw [pow_succ] at value
      simp only [Nat.cast_add, Nat.cast_mul, Nat.cast_ofNat]
      linear_combination value + changed + 256 ^ offset * whole - 256 ^ offset * total
    · intro j far
      rw [List.length_cons] at far
      rw [above j (by omega), others j (by omega)]

theorem subtractAt_eq {offset : Nat} {i1 : List Nat} (bytes : ∀ e ∈ d, e < 256)
    (array : Bytes r i1) (inside : offset + d.length < r)
    (bound : 256 ^ offset * (Nat.ofDigits 256 d : Nat) ≤
      ((Nat.ofDigits 256 (i1.take (offset + d.length + 1)) : Nat) : Int)) :
    ∃ after, subtractAt i1 d offset = some after ∧ Bytes r after ∧
      ((Nat.ofDigits 256 after : Nat) : Int) =
        (Nat.ofDigits 256 i1 : Nat) - 256 ^ offset * (Nat.ofDigits 256 d : Nat) ∧
      after.drop (offset + d.length + 1) = i1.drop (offset + d.length + 1) := by
  obtain ⟨row, last, run, array1, range, value, above⟩ :=
    subtractLoop_eq bytes array inside.le (show (-256 : Int) ≤ 0 ∧ (0 : Int) < 256 by decide)
  rw [Int.zero_ediv, zero_sub] at value
  have kept := above _ le_rfl
  obtain ⟨here, old⟩ := getElem?_place array1 inside
  have room : 0 ≤ last / 256 + ((row.getD (offset + d.length) 0 : Nat) : Int) := by
    have drop := drop_of_getD array.size array1.size above
    have low := take_of_drop drop
      (x := -(256 ^ offset * (Nat.ofDigits 256 d : Nat)) - 256 ^ (offset + d.length) * (last / 256))
      (by linear_combination value)
    have cut := @ofDigits_take_succ 256 i1 (offset + d.length) (by rw [array.size]; exact inside)
    rw [cut] at bound
    rw [kept]
    have least := ofDigits_take_lt (by decide) array1.bytes (offset + d.length)
    have least' : ((Nat.ofDigits 256 (row.take (offset + d.length)) : Nat) : Int) <
        256 ^ (offset + d.length) := by exact_mod_cast least
    have scaled : 256 ^ (offset + d.length) * (-1) <
        256 ^ (offset + d.length) * (last / 256 + ((i1.getD (offset + d.length) 0 : Nat) : Int)) := by
      push_cast at bound
      push_cast at low least'
      linarith
    have above_one := lt_of_mul_lt_mul_left scaled (by positivity)
    omega
  have finish : ∃ after, (if last < 0 then
        atPut row (offset + d.length) (intoByte (last / 256 + (row.getD (offset + d.length) 0 : Nat)))
      else some row) = some after ∧ Bytes r after ∧
      ((Nat.ofDigits 256 after : Nat) : Int) =
        (Nat.ofDigits 256 row : Nat) + 256 ^ (offset + d.length) * (last / 256) ∧
      ∀ j, j ≠ offset + d.length → after.getD j 0 = row.getD j 0 := by
    by_cases borrowed : last < 0
    · have byte : intoByte (last / 256 + ((row.getD (offset + d.length) 0 : Nat) : Int)) =
          last / 256 + ((row.getD (offset + d.length) 0 : Nat) : Int) := by
        rw [intoByte_eq]
        omega
      obtain ⟨after, written, array2, changed, others⟩ := @atPut_byte r (offset + d.length) row
        (intoByte (last / 256 + (row.getD (offset + d.length) 0 : Nat))) array1 inside
        (intoByte_range _)
      refine ⟨after, by rw [if_pos borrowed, written], array2, ?_, others⟩
      rw [byte] at changed
      linear_combination changed
    · have none : last / 256 = 0 := by omega
      exact ⟨row, if_neg borrowed, array1, by rw [none, mul_zero, add_zero], fun _ _ => rfl⟩
  obtain ⟨after, written, array2, changed, others⟩ := finish
  refine ⟨after, ?_, array2, ?_, ?_⟩
  · simp only [subtractAt, run, Option.bind_eq_bind, Option.bind_some, here, shift_right_byte]
    exact written
  · linear_combination changed + value
  · apply drop_of_getD array.size array2.size
    intro j far
    rw [others j (by omega), above j (by omega)]

theorem twosComplement_length (digits : List Nat) (carry : Int) :
    (twosComplement digits carry).length = digits.length := by
  induction digits generalizing carry with
  | nil => rfl
  | cons digit digits ih => simp only [twosComplement, List.length_cons, ih]

theorem twosComplement_bytes (digits : List Nat) (carry : Int) :
    ∀ e ∈ twosComplement digits carry, e < 256 := by
  induction digits generalizing carry with
  | nil => simp [twosComplement]
  | cons digit digits ih =>
    have first := intoByte_range ((carry >>> (8 : Nat)) + primBitxor digit 0xFF)
    simp only [twosComplement, List.forall_mem_cons]
    exact ⟨by omega, ih _⟩

theorem twosComplement_value {digits : List Nat} {carry : Int} (bytes : ∀ e ∈ digits, e < 256)
    (range : 0 ≤ carry ∧ carry < 512) :
    ((Nat.ofDigits 256 (twosComplement digits carry) : Nat) : Int) =
      (carry / 256 - 1 - (Nat.ofDigits 256 digits : Nat)) % 256 ^ digits.length := by
  induction digits generalizing carry with
  | nil => simp [twosComplement]
  | cons digit digits ih =>
    have byte : 0 ≤ (digit : Int) ∧ (digit : Int) < 256 :=
      ⟨by omega, by exact_mod_cast bytes digit List.mem_cons_self⟩
    have rest := @ih ((carry >>> (8 : Nat)) + primBitxor digit 0xFF)
      (fun e later => bytes e (List.mem_cons_of_mem digit later))
    rw [shift_right_byte, primBitxor_byte byte] at rest
    have value := rest (by omega)
    have step := digit_step (carry / 256 + (255 - digit)) (-1 - (Nat.ofDigits 256 digits : Nat))
      digits.length
    have parts : carry / 256 - 1 - ((Nat.ofDigits 256 (digit :: digits) : Nat) : Int) =
        carry / 256 + (255 - digit) + 256 * (-1 - (Nat.ofDigits 256 digits : Nat)) := by
      rw [Nat.ofDigits_cons]
      push_cast
      ring
    have order : (carry / 256 + (255 - (digit : Int))) / 256 - 1 - (Nat.ofDigits 256 digits : Nat) =
        -1 - (Nat.ofDigits 256 digits : Nat) + (carry / 256 + (255 - digit)) / 256 := by ring
    rw [List.length_cons, parts, ← step, ← order, ← value]
    simp only [twosComplement, shift_right_byte, primBitxor_byte byte, Nat.ofDigits_cons,
      Nat.cast_add, Nat.cast_mul]
    rfl

end Subtract

section Quotient

variable {r n : Nat} {d : List Nat} {divisor rem : Int}

theorem digit_of_take {array : List Nat} {k : Nat} {low : Int} {t : Nat} (bytes : Bytes r array)
    (inside : k < r) (range : 0 ≤ low ∧ low < 256 ^ k)
    (value : ((Nat.ofDigits 256 (array.take (k + 1)) : Nat) : Int) = low + 256 ^ k * t) :
    array.getD k 0 = t ∧ ((Nat.ofDigits 256 (array.take k) : Nat) : Int) = low := by
  have cut := @ofDigits_take_succ 256 array k (by rw [bytes.size]; exact inside)
  have below := ofDigits_take_lt (by decide) bytes.bytes k
  have below' : ((Nat.ofDigits 256 (array.take k) : Nat) : Int) < 256 ^ k := by exact_mod_cast below
  have natural : (0 : Int) ≤ (Nat.ofDigits 256 (array.take k) : Nat) := Int.natCast_nonneg _
  generalize Nat.ofDigits 256 (array.take k) = v at *
  have whole := congrArg (Nat.cast : Nat → Int) cut
  simp only [Nat.cast_add, Nat.cast_mul, Nat.cast_pow, Nat.cast_ofNat] at whole
  have same : ((array.getD k 0 : Nat) : Int) = t := by
    have one : ((v : Int) + 256 ^ k * ((array.getD k 0 : Nat) : Int)) / 256 ^ k =
        ((array.getD k 0 : Nat) : Int) := by
      rw [Int.add_mul_ediv_left _ _ (by positivity), Int.ediv_eq_zero_of_lt natural below', zero_add]
    have other : (low + 256 ^ k * (t : Int)) / 256 ^ k = t := by
      rw [Int.add_mul_ediv_left _ _ (by positivity), Int.ediv_eq_zero_of_lt range.1 range.2, zero_add]
    rw [← one, ← whole, value, other]
  refine ⟨by exact_mod_cast same, ?_⟩
  rw [same] at whole
  linarith

theorem correct_eq {q : Nat} {array : List Nat} (bytes : ∀ e ∈ d, e < 256)
    (complement : ((Nat.ofDigits 256 d : Nat) : Int) = 256 ^ d.length - divisor)
    (bytes' : Bytes r array) (inside : d.length + n < r) (natural : 0 ≤ rem)
    (tried : rem < 256 ^ n * (divisor * (q + 1)))
    (value : ((Nat.ofDigits 256 (array.take (d.length + n + 1)) : Nat) : Int) =
      rem + 256 ^ n * (q * (256 ^ d.length - divisor))) :
    ∃ (after : List Nat) (t : Nat), correct d (d.length + n) q array = some after ∧
      Bytes r after ∧ after.drop (d.length + n + 1) = array.drop (d.length + n + 1) ∧
      (0 ≤ rem - 256 ^ n * (t * divisor) ∧ rem - 256 ^ n * (t * divisor) < 256 ^ n * divisor) ∧
      ((Nat.ofDigits 256 (after.take (d.length + n + 1)) : Nat) : Int) =
        rem - 256 ^ n * (t * divisor) + 256 ^ (d.length + n) * t := by
  have positive : (0 : Int) ≤ (Nat.ofDigits 256 d : Nat) := Int.natCast_nonneg _
  have below : 256 ^ n * divisor ≤ 256 ^ (d.length + n) := by
    rw [pow_add, mul_comm (256 ^ d.length : Int)]
    exact mul_le_mul_of_nonneg_left (by linarith) (by positivity)
  induction q generalizing array with
  | zero =>
    have whole : ((Nat.ofDigits 256 (array.take (d.length + n + 1)) : Nat) : Int) =
        rem + 256 ^ (d.length + n) * (0 : Nat) := by
      rw [value]
      push_cast
      ring
    have small : rem < 256 ^ n * divisor := by simpa using tried
    obtain ⟨digit, _⟩ := digit_of_take bytes' inside ⟨natural, small.trans_le below⟩ whole
    refine ⟨array, 0, ?_, bytes', rfl, ?_, ?_⟩
    · simp only [correct, (getElem?_place bytes' inside).1, digit, Option.bind_eq_bind,
        Option.bind_some, if_true]
    · simpa using ⟨natural, small⟩
    · rw [whole]
      push_cast
      ring
  | succ q ih =>
    have whole : ((Nat.ofDigits 256 (array.take (d.length + n + 1)) : Nat) : Int) =
        rem - 256 ^ n * ((q + 1 : Nat) * divisor) + 256 ^ (d.length + n) * (q + 1 : Nat) := by
      rw [value, pow_add]
      push_cast
      ring
    have above : rem - 256 ^ n * ((q + 1 : Nat) * divisor) < 256 ^ n * divisor := by
      push_cast at tried ⊢
      linarith
    simp only [correct, (getElem?_place bytes' inside).1, Option.bind_eq_bind, Option.bind_some]
    by_cases enough : 0 ≤ rem - 256 ^ n * ((q + 1 : Nat) * divisor)
    · obtain ⟨digit, _⟩ := digit_of_take bytes' inside ⟨enough, above.trans_le below⟩ whole
      exact ⟨array, q + 1, by rw [digit, if_pos rfl], bytes', rfl, ⟨enough, above⟩, whole⟩
    · have other : array.getD (d.length + n) 0 ≠ q + 1 := by
        intro digit
        have cut := @ofDigits_take_succ 256 array (d.length + n) (by rw [bytes'.size]; exact inside)
        have least : (0 : Int) ≤ (Nat.ofDigits 256 (array.take (d.length + n)) : Nat) :=
          Int.natCast_nonneg _
        rw [digit] at cut
        have split := congrArg (Nat.cast : Nat → Int) cut
        simp only [Nat.cast_add, Nat.cast_mul, Nat.cast_pow, Nat.cast_ofNat] at split
        push_cast at whole split least enough
        linarith
      have bound : 256 ^ n * ((Nat.ofDigits 256 d : Nat) : Int) ≤
          ((Nat.ofDigits 256 (array.take (n + d.length + 1)) : Nat) : Int) := by
        rw [Nat.add_comm n, value, complement]
        have more : (0 : Int) ≤ 256 ^ n * (q * (256 ^ d.length - divisor)) :=
          mul_nonneg (by positivity) (mul_nonneg (by positivity) (by linarith))
        push_cast
        linarith
      obtain ⟨next, run, array', changed, drop⟩ :=
        subtractAt_eq bytes bytes' (by omega) bound
      rw [Nat.add_comm n] at drop
      have low := take_of_drop drop (x := -(256 ^ n * (Nat.ofDigits 256 d : Nat)))
        (by linear_combination changed)
      obtain ⟨after, t, more, array2, drop2, range, final⟩ := @ih next array'
        (by push_cast at tried enough ⊢; linarith)
        (by rw [low, value, complement]; push_cast; ring)
      refine ⟨after, t, ?_, array2, drop2.trans drop, range, final⟩
      have offset : d.length + n - d.length = n := by omega
      rw [if_neg other, offset, run]
      exact more

theorem estimate_eq {lastD q0 next : Nat} {low : Int} {k : Nat} (top : 0 < lastD)
    (least : 256 ^ k * (lastD : Int) ≤ divisor) (most : divisor < 256 ^ k * (lastD + 1))
    (natural : 0 ≤ low) (below : low < 256 ^ (k + n))
    (value : rem = low + 256 ^ (k + n) * next + 256 ^ (k + n) * 256 * q0) (next_byte : next < 256)
    (small : rem < 256 ^ n * 256 * divisor) :
    ∃ q, estimate q0 next lastD = some q ∧ q < 256 ∧ rem < 256 ^ n * (divisor * (q + 1)) := by
  have positive : (0 : Int) < 256 ^ (k + n) := by positivity
  have scaled : (256 : Int) ^ (k + n) = 256 ^ k * 256 ^ n := pow_add _ _ _
  unfold estimate
  by_cases same : q0 = lastD
  · refine ⟨255, if_pos same, by decide, ?_⟩
    push_cast
    linarith
  · have less : q0 < lastD := by
      have bound : 256 ^ (k + n) * 256 * (q0 : Int) < 256 ^ (k + n) * 256 * (lastD + 1) := by
        have far : (256 : Int) ^ n * 256 * divisor < 256 ^ n * 256 * (256 ^ k * (lastD + 1)) :=
          mul_lt_mul_of_pos_left most (by positivity)
        have more : 0 ≤ (256 : Int) ^ (k + n) * next := by positivity
        rw [scaled] at more value ⊢
        linarith
      have close := lt_of_mul_lt_mul_left bound (by positivity)
      omega
    refine ⟨(q0 * 256 + next) / lastD, by rw [if_neg same, if_neg top.ne'], ?_, ?_⟩
    · rw [Nat.div_lt_iff_lt_mul top]
      have room := Nat.mul_le_mul_right 256 (Nat.succ_le_of_lt less)
      omega
    · have upper := Nat.lt_mul_div_succ (q0 * 256 + next) top
      have upper' : (q0 : Int) * 256 + next + 1 ≤ lastD * (((q0 * 256 + next) / lastD : Nat) + 1) := by
        exact_mod_cast upper
      have one := mul_le_mul_of_nonneg_left upper' positive.le
      have other : (256 : Int) ^ n * (256 ^ k * lastD * (((q0 * 256 + next) / lastD : Nat) + 1)) ≤
          256 ^ n * (divisor * (((q0 * 256 + next) / lastD : Nat) + 1)) :=
        mul_le_mul_of_nonneg_left (mul_le_mul_of_nonneg_right least (by positivity)) (by positivity)
      rw [scaled] at one value below
      linarith

theorem quotientDigits_eq {lastD : Nat} {array : List Nat} (bytes : ∀ e ∈ d, e < 256)
    (some_digits : d ≠ [])
    (complement : ((Nat.ofDigits 256 d : Nat) : Int) = 256 ^ d.length - divisor)
    (top : 0 < lastD)
    (least : 256 ^ (d.length - 1) * (lastD : Int) ≤ divisor)
    (most : divisor < 256 ^ (d.length - 1) * (lastD + 1))
    (bytes' : Bytes r array) (inside : d.length + n ≤ r)
    (value : ((Nat.ofDigits 256 (array.take (d.length + n)) : Nat) : Int) = rem)
    (small : rem < 256 ^ n * divisor) :
    ∃ (after : List Nat) (q : Nat) (rest : Int), quotientDigits d lastD n array = some after ∧
      Bytes r after ∧ after.drop (d.length + n) = array.drop (d.length + n) ∧
      rem = q * divisor + rest ∧ (0 ≤ rest ∧ rest < divisor) ∧
      ((Nat.ofDigits 256 (after.take (d.length + n)) : Nat) : Int) = rest + 256 ^ d.length * q := by
  induction n generalizing array rem with
  | zero =>
    refine ⟨array, 0, rem, rfl, bytes', rfl, by simp, ⟨?_, by simpa using small⟩, by simpa using value⟩
    rw [← value]
    exact Int.natCast_nonneg _
  | succ n ih =>
    have length : 0 < d.length := List.length_pos_iff.mpr some_digits
    have natural : 0 ≤ rem := by
      rw [← value]
      exact Int.natCast_nonneg _
    obtain ⟨here, _⟩ := @getElem?_place r array (d.length + n) bytes' (by omega)
    obtain ⟨before, next_byte⟩ := @getElem?_place r array (d.length + n - 1) bytes' (by omega)
    have cut := @ofDigits_take_succ 256 array (d.length + n) (by rw [bytes'.size]; omega)
    have cut' := @ofDigits_take_succ 256 array (d.length + n - 1) (by rw [bytes'.size]; omega)
    have last : d.length + n - 1 + 1 = d.length + n := by omega
    have place : d.length + n - 1 = d.length - 1 + n := by omega
    rw [last] at cut'
    have below := ofDigits_take_lt (by decide) bytes'.bytes (d.length + n - 1)
    rw [place] at below cut' before next_byte
    have below' : ((Nat.ofDigits 256 (array.take (d.length - 1 + n)) : Nat) : Int) <
        256 ^ (d.length - 1 + n) := by exact_mod_cast below
    have power : (256 : Int) ^ (d.length + n) = 256 ^ (d.length - 1 + n) * 256 := by
      rw [← pow_succ]
      congr 1
      omega
    have parts : rem = ((Nat.ofDigits 256 (array.take (d.length - 1 + n)) : Nat) : Int) +
        256 ^ (d.length - 1 + n) * (array.getD (d.length - 1 + n) 0 : Nat) +
        256 ^ (d.length - 1 + n) * 256 * (array.getD (d.length + n) 0 : Nat) := by
      have whole := congrArg (Nat.cast : Nat → Int) cut
      have whole' := congrArg (Nat.cast : Nat → Int) cut'
      simp only [Nat.cast_add, Nat.cast_mul, Nat.cast_pow, Nat.cast_ofNat] at whole whole'
      rw [← value, ← power]
      have order : d.length + (n + 1) = d.length + n + 1 := rfl
      rw [order, whole, whole']
    obtain ⟨q, tried, digit, enough⟩ := estimate_eq top least most (Int.natCast_nonneg _) below'
      parts next_byte (by rw [pow_succ] at small; linarith)
    have positive : 0 < divisor := lt_of_lt_of_le (by positivity) least
    have whole_nonneg : (0 : Int) ≤ (Nat.ofDigits 256 d : Nat) := Int.natCast_nonneg _
    have offset : d.length + n - d.length = n := by omega
    -- the multiple leaves the digit that is tried in the place above the divisor
    have bound : ((Nat.ofDigits 256 (array.take (n + d.length + 1)) : Nat) : Int) +
        256 ^ n * (q * (Nat.ofDigits 256 d : Nat)) < 256 ^ (n + d.length + 1) := by
      have room : 256 ^ n * divisor ≤ 256 ^ n * 256 ^ d.length :=
        mul_le_mul_of_nonneg_left (by linarith) (by positivity)
      have digits : (256 : Int) ^ n * 256 ^ d.length * (q + 1) ≤ 256 ^ n * 256 ^ d.length * 256 :=
        mul_le_mul_of_nonneg_left (by omega) (by positivity)
      have order : n + d.length + 1 = d.length + (n + 1) := by omega
      rw [order, value, complement, ← order, pow_succ, pow_add]
      linarith
    obtain ⟨added, run, array1, changed, drop⟩ :=
      addScaledBy_eq digit bytes bytes' (by omega) bound
    rw [Nat.add_comm n] at drop
    have low := take_of_drop drop changed
    rw [complement] at low
    have value' : ((Nat.ofDigits 256 (array.take (d.length + n + 1)) : Nat) : Int) = rem := value
    rw [value'] at low
    obtain ⟨corrected, t, settle, array2, drop', range, split⟩ :=
      correct_eq bytes complement array1 (by omega) natural enough low
    have room : 256 ^ n * divisor ≤ 256 ^ (d.length + n) := by
      rw [pow_add, mul_comm (256 ^ d.length : Int)]
      exact mul_le_mul_of_nonneg_left (by linarith) (by positivity)
    obtain ⟨digit', rest'⟩ := digit_of_take array2 (by omega)
      ⟨range.1, range.2.trans_le room⟩ split
    obtain ⟨after, q', rest, more, array3, drop2, division, rest_range, final⟩ :=
      ih array2 (by omega) rest' range.2
    refine ⟨after, q' + 256 ^ n * t, rest, ?_, array3, ?_, ?_, rest_range, ?_⟩
    · simp only [quotientDigits, here, place, before, tried, offset, run, settle, more,
        Option.bind_eq_bind, Option.bind_some]
    · have up : d.length + (n + 1) = d.length + n + 1 := rfl
      rw [up, ← List.drop_drop, drop2, List.drop_drop, drop', drop]
    · push_cast
      linear_combination division
    · have kept : after.getD (d.length + n) 0 = t := by
        rw [← digit']
        have one := congrArg (fun xs : List Nat => xs.getD 0 0) drop2
        simpa only [List.getD_eq_getElem?_getD, List.getElem?_drop, Nat.add_zero] using one
      have cut3 := @ofDigits_take_succ 256 after (d.length + n) (by rw [array3.size]; omega)
      have whole := congrArg (Nat.cast : Nat → Int) cut3
      simp only [Nat.cast_add, Nat.cast_mul, Nat.cast_pow, Nat.cast_ofNat] at whole
      have up : d.length + (n + 1) = d.length + n + 1 := rfl
      rw [up, whole, kept, final, pow_add]
      push_cast
      ring

end Quotient

section Whole

theorem bitShift_left (x : Int) (k : Nat) : TwosComplement.bitShift x k = x * 2 ^ k := by
  rw [TwosComplement.bitShift, if_pos (Int.natCast_nonneg k), Int.toNat_natCast]

theorem bitShift_right (x : Int) (k : Nat) : TwosComplement.bitShift x (-(k : Int)) = x / 2 ^ k := by
  by_cases zero : k = 0
  · subst zero
    simp [TwosComplement.bitShift]
  · rw [TwosComplement.bitShift, if_neg (by omega), Int.neg_neg, Int.toNat_natCast]

theorem bitShift_digits (x : Int) (k : Nat) :
    TwosComplement.bitShift x ((k : Int) * -8) = x / 256 ^ k := by
  have count : (k : Int) * -8 = -((8 * k : Nat) : Int) := by
    push_cast
    ring
  rw [count, bitShift_right, pow_mul]
  rfl

variable {i1 i2 : BigInteger}

theorem read_out {r s shift q : Nat} {rest : Int} {array : List Nat} (isNegative : Bool)
    (bytes : Bytes r array) (inside : s < r) (few : shift ≤ 7)
    (range : 0 ≤ rest ∧ rest < 256 ^ s)
    (value : ((Nat.ofDigits 256 array : Nat) : Int) = rest + 256 ^ s * q) :
    (∃ quo, bitShiftInto ⟨isNegative, array⟩ ((s : Int) * -8) (List.replicate (r - s) 0) = some quo ∧
      (∀ e ∈ quo, e < 256) ∧ Nat.ofDigits 256 quo = q) ∧
    ∃ cleared rem, atPut array s 0 = some cleared ∧
      bitShiftInto ⟨isNegative, cleared⟩ (-(shift : Int)) (List.replicate s 0) = some rem ∧
      (∀ e ∈ rem, e < 256) ∧ ((Nat.ofDigits 256 rem : Nat) : Int) = rest / 2 ^ shift := by
  have natural : (0 : Int) ≤ q := Int.natCast_nonneg q
  constructor
  · obtain ⟨quo, run, array', digits⟩ :=
      @bitShiftInto_eq ⟨isNegative, array⟩ bytes.bytes ((s : Int) * -8) (r - s)
    refine ⟨quo, run, array'.bytes, ?_⟩
    have bound := Nat.ofDigits_lt_base_pow_length (by decide) bytes.bytes
    have bound' : ((Nat.ofDigits 256 array : Nat) : Int) < 256 ^ s * 256 ^ (r - s) := by
      rw [← pow_add]
      have whole : s + (r - s) = array.length := by
        rw [bytes.size]
        omega
      rw [whole]
      exact_mod_cast bound
    have fits : (q : Int) < 256 ^ (r - s) := by
      have scaled : 256 ^ s * (q : Int) < 256 ^ s * 256 ^ (r - s) := by linarith
      exact lt_of_mul_lt_mul_left scaled (by positivity)
    rw [bitShift_digits, BigInteger.magnitude, value, Int.add_mul_ediv_left _ _ (by positivity),
      Int.ediv_eq_zero_of_lt range.1 range.2, zero_add, Int.emod_eq_of_lt natural fits] at digits
    exact_mod_cast digits
  · obtain ⟨cleared, written, array', changed, _⟩ := @atPut_byte r s array 0 bytes inside (by decide)
    -- what is left above the remainder
    obtain ⟨h, above⟩ : ∃ h : Int, ((Nat.ofDigits 256 cleared : Nat) : Int) = rest + 256 ^ (s + 1) * h := by
      refine ⟨(Nat.ofDigits 256 (array.drop (s + 1)) : Nat), ?_⟩
      have cut := ofDigits_take_drop array (s + 1)
      have digit := @ofDigits_take_succ 256 array s (by rw [bytes.size]; exact inside)
      have below := ofDigits_take_lt (by decide) bytes.bytes s
      have below' : ((Nat.ofDigits 256 (array.take s) : Nat) : Int) < 256 ^ s := by exact_mod_cast below
      have least : (0 : Int) ≤ (Nat.ofDigits 256 (array.take s) : Nat) := Int.natCast_nonneg _
      rw [digit] at cut
      have whole := congrArg (Nat.cast : Nat → Int) cut
      simp only [Nat.cast_add, Nat.cast_mul, Nat.cast_pow, Nat.cast_ofNat] at whole
      generalize ((Nat.ofDigits 256 (array.take s) : Nat) : Int) = low at *
      have same : low = rest := by
        have one : (rest + 256 ^ s * (q : Int)) % 256 ^ s = rest := by
          rw [Int.add_mul_emod_self_left, Int.emod_eq_of_lt range.1 range.2]
        have order : low + 256 ^ s * ((array.getD s 0 : Nat) : Int) + 256 ^ (s + 1) *
            ((Nat.ofDigits 256 (array.drop (s + 1)) : Nat) : Int) = low + 256 ^ s *
            (((array.getD s 0 : Nat) : Int) + 256 * ((Nat.ofDigits 256 (array.drop (s + 1)) : Nat) : Int)) := by
          rw [pow_succ]
          ring
        rw [← value, whole, order, Int.add_mul_emod_self_left, Int.emod_eq_of_lt least below'] at one
        exact one
      rw [same] at whole
      linear_combination changed + whole
    obtain ⟨rem, run, array2, digits⟩ :=
      @bitShiftInto_eq ⟨isNegative, cleared⟩ array'.bytes (-(shift : Int)) s
    refine ⟨cleared, rem, written, run, array2.bytes, ?_⟩
    have power : (256 : Int) ^ (s + 1) = 2 ^ shift * (256 ^ s * 2 ^ (8 - shift)) := by
      have word : (256 : Int) = 2 ^ shift * 2 ^ (8 - shift) := by
        rw [← pow_add]
        have eight : shift + (8 - shift) = 8 := by omega
        rw [eight]
        rfl
      rw [pow_succ]
      linear_combination (256 : Int) ^ s * word
    have half : rest / 2 ^ shift ≤ rest := Int.ediv_le_self _ range.1
    rw [bitShift_right, BigInteger.magnitude, above, power, mul_assoc (2 ^ shift : Int),
      Int.add_mul_ediv_left _ _ (by positivity), mul_assoc (256 ^ s : Int),
      Int.add_mul_emod_self_left, Int.emod_eq_of_lt (Int.ediv_nonneg range.1 (by positivity))
        (half.trans_lt range.2)] at digits
    exact digits

theorem shifted_divisor (numeral : Numeral 256 i2.digits) (nonzero : i2.magnitude ≠ 0) :
    i2.magnitude * 2 ^ (7 - i2.highBit % 8) < 256 ^ i2.size ∧
      128 * 256 ^ (i2.size - 1) ≤ i2.magnitude * 2 ^ (7 - i2.highBit % 8) := by
  have length : i2.size = i2.digits.length := rfl
  have positive : 0 < i2.size := numeral.pos
  have high := highBit_eq numeral nonzero
  have last : i2.lastDigit < 256 := by
    unfold BigInteger.lastDigit
    rw [List.getD_eq_getElem _ _ (by omega)]
    exact numeral.digits _ (List.getElem_mem _)
  have log : smallHighBit i2.lastDigit < 8 := by
    rw [smallHighBit_eq, Int.natAbs_natCast]
    exact Nat.log_lt_of_lt_pow' (by decide) last
  have place : i2.highBit = (i2.size - 1) * 8 + smallHighBit i2.lastDigit := rfl
  have bits : i2.highBit + (7 - i2.highBit % 8) = 7 + 8 * (i2.size - 1) := by omega
  have whole : 2 ^ i2.highBit * 2 ^ (7 - i2.highBit % 8) = 128 * 256 ^ (i2.size - 1) := by
    rw [← pow_add, bits, pow_add, pow_bytes]
    rfl
  constructor
  · have below : i2.magnitude < 2 ^ i2.highBit * 2 := by
      rw [← pow_succ, high]
      exact Nat.lt_pow_succ_log_self (by decide) _
    have scaled := Nat.mul_lt_mul_of_pos_right below (Nat.two_pow_pos (7 - i2.highBit % 8))
    have power : 256 ^ i2.size = 256 * 256 ^ (i2.size - 1) := by
      rw [← pow_succ']
      congr 1
      omega
    rw [Nat.mul_right_comm, whole] at scaled
    omega
  · rw [← whole, high]
    exact Nat.mul_le_mul_right _ (Nat.pow_log_le_self 2 nonzero)

theorem divisor_digits {s : Nat} {d : List Nat} {divisor : Int} (positive : 0 < s)
    (bytes : Bytes s d) (value : ((Nat.ofDigits 256 d : Nat) : Int) = divisor)
    (fills : divisor < 256 ^ s) (full : 128 * (256 : Int) ^ (s - 1) ≤ divisor) :
    0 < d.getD (s - 1) 0 ∧ 256 ^ (s - 1) * ((d.getD (s - 1) 0 : Nat) : Int) ≤ divisor ∧
      divisor < 256 ^ (s - 1) * ((d.getD (s - 1) 0 : Nat) + 1) ∧
      ((Nat.ofDigits 256 (twosComplement d 0x100) : Nat) : Int) = 256 ^ s - divisor := by
  have cut := @ofDigits_take_succ 256 d (s - 1) (by rw [bytes.size]; omega)
  rw [List.take_of_length_le (by rw [bytes.size]; omega)] at cut
  have below := ofDigits_take_lt (by decide) bytes.bytes (s - 1)
  have below' : ((Nat.ofDigits 256 (d.take (s - 1)) : Nat) : Int) < 256 ^ (s - 1) := by
    exact_mod_cast below
  have natural : (0 : Int) ≤ (Nat.ofDigits 256 (d.take (s - 1)) : Nat) := Int.natCast_nonneg _
  have whole := congrArg (Nat.cast : Nat → Int) cut
  simp only [Nat.cast_add, Nat.cast_mul, Nat.cast_pow, Nat.cast_ofNat, value] at whole
  have power : (0 : Int) < 256 ^ (s - 1) := by positivity
  refine ⟨?_, by linarith, by linarith, ?_⟩
  · by_contra none
    obtain zero : d.getD (s - 1) 0 = 0 := by omega
    rw [zero, Nat.cast_zero] at whole
    linarith
  · have turn : (0x100 : Int) / 256 - 1 - divisor = -divisor := by omega
    rw [twosComplement_value bytes.bytes (by decide), value, bytes.size, turn,
      Int.neg_emod_eq_sub_emod, Int.emod_eq_of_lt (by linarith) (by linarith)]

theorem dividend_digits {s : Nat} {digits : List Nat}
    (small : ((Nat.ofDigits 256 digits : Nat) : Int) < 128 * 256 ^ s) :
    Nat.ofDigits 256 (digits.drop (s + 1)) = 0 ∧
      Nat.ofDigits 256 digits = Nat.ofDigits 256 (digits.take (s + 1)) := by
  have upper := ofDigits_take_drop digits (s + 1)
  have split := congrArg (Nat.cast : Nat → Int) upper
  simp only [Nat.cast_add, Nat.cast_mul, Nat.cast_pow, Nat.cast_ofNat] at split
  have empty : Nat.ofDigits 256 (digits.drop (s + 1)) = 0 := by
    by_contra some_digit
    have above : (1 : Int) ≤ (Nat.ofDigits 256 (digits.drop (s + 1)) : Nat) := by omega
    have scaled := mul_le_mul_of_nonneg_left above (show (0 : Int) ≤ 256 ^ (s + 1) by positivity)
    have least : (0 : Int) ≤ (Nat.ofDigits 256 (digits.take (s + 1)) : Nat) := Int.natCast_nonneg _
    have power : (0 : Int) < 256 ^ s := by positivity
    rw [pow_succ] at scaled split
    linarith
  rw [empty, Nat.mul_zero, Nat.add_zero] at upper
  exact ⟨empty, upper⟩

theorem unshifted {m1 m2 q shift : Nat} {rest : Int}
    (division : (m1 : Int) * 2 ^ shift = q * (m2 * 2 ^ shift) + rest)
    (range : 0 ≤ rest ∧ rest < m2 * 2 ^ shift) :
    m1 / m2 = q ∧ ((m1 % m2 : Nat) : Int) = rest / 2 ^ shift := by
  have shifted : rest = 2 ^ shift * ((m1 : Int) - q * m2) := by linear_combination -division
  obtain ⟨least, most⟩ := range
  rw [shifted] at least most
  rw [mul_comm (m2 : Int)] at most
  have natural : 0 ≤ (m1 : Int) - q * m2 := nonneg_of_mul_nonneg_right least (by positivity)
  have less : (m1 : Int) - q * m2 < m2 := lt_of_mul_lt_mul_left most (by positivity)
  rw [shifted, Int.mul_ediv_cancel_left _ (by positivity)]
  obtain ⟨m, rest_eq⟩ := Int.eq_ofNat_of_zero_le natural
  rw [rest_eq] at less ⊢
  have whole : m1 = m2 * q + m := by
    zify
    linear_combination rest_eq
  have small : m < m2 := by omega
  constructor
  · rw [whole, Nat.mul_add_div (by omega), Nat.div_eq_of_lt small, Nat.add_zero]
  · rw [whole, Nat.mul_add_mod, Nat.mod_eq_of_lt small]

theorem quoRem_longer (one : i1.Proper) (other : i2.Proper) (nonzero : i2.magnitude ≠ 0)
    (longer : i2.magnitude < i1.magnitude) : i1.quoRem i2 =
      some (canonical (signed (i1.isNegative ^^ i2.isNegative) (i1.magnitude / i2.magnitude)),
        canonical (signed i2.isNegative (i1.magnitude % i2.magnitude))) := by
  have greater : i1.compare i2 = 1 := by
    rw [compare_eq one.numeral other.numeral, order_gt]
    exact_mod_cast longer
  have positive : 0 < i2.size := other.numeral.pos
  have sizes : i2.size ≤ i1.size := by
    by_contra shorter
    have less := one.numeral.shorter (by decide) other.numeral (Nat.not_le.mp shorter)
    unfold BigInteger.magnitude at longer
    omega
  obtain ⟨fills, full⟩ := shifted_divisor other.numeral nonzero
  generalize shifts : 7 - i2.highBit % 8 = shift at *
  have few : shift ≤ 7 := by omega
  obtain ⟨digits, run1, array1, value1⟩ := bitShiftInto_eq one.numeral.digits shift (i1.size + 2)
  obtain ⟨d, run2, array2, value2⟩ := bitShiftInto_eq other.numeral.digits shift i2.size
  rw [bitShift_left] at value1 value2
  -- nothing is cut off by the shifts
  have dividend : (i1.magnitude : Int) * 2 ^ shift < 128 * 256 ^ i1.size := by
    have below : i1.magnitude < 256 ^ i1.size := one.numeral.lt (by decide)
    have power : 2 ^ shift ≤ 2 ^ 7 := Nat.pow_le_pow_right (by decide) few
    have product := Nat.mul_le_mul_left i1.magnitude power
    have whole : i1.magnitude * 2 ^ shift < 128 * 256 ^ i1.size := by omega
    exact_mod_cast whole
  have fills' : (i2.magnitude : Int) * 2 ^ shift < 256 ^ i2.size := by exact_mod_cast fills
  have full' : 128 * (256 : Int) ^ (i2.size - 1) ≤ i2.magnitude * 2 ^ shift := by
    exact_mod_cast full
  have power : (256 : Int) ^ (i1.size + 2) = 256 ^ i1.size * 65536 := by
    rw [pow_add]
    rfl
  have power_pos : (0 : Int) < 256 ^ i1.size := by positivity
  rw [Int.emod_eq_of_lt (by positivity) (by omega)] at value1
  rw [Int.emod_eq_of_lt (by positivity) fills'] at value2
  obtain ⟨top, least, most, complement⟩ := divisor_digits positive array2 value2 fills' full'
  generalize last : d.getD (i2.size - 1) 0 = lastD at *
  have size : (twosComplement d 0x100).length = i2.size := by
    rw [twosComplement_length, array2.size]
  have digits_some : twosComplement d 0x100 ≠ [] := by
    intro empty
    rw [empty] at size
    simp at size
    omega
  obtain ⟨empty, upper⟩ := dividend_digits (by rw [value1]; exact dividend)
  have small : ((Nat.ofDigits 256 digits : Nat) : Int) <
      256 ^ (i1.size + 1 - i2.size) * (i2.magnitude * 2 ^ shift) := by
    have split : (256 : Int) ^ i1.size = 256 ^ (i1.size + 1 - i2.size) * 256 ^ (i2.size - 1) := by
      rw [← pow_add]
      congr 1
      omega
    have scaled := mul_le_mul_of_nonneg_left full'
      (show (0 : Int) ≤ 256 ^ (i1.size + 1 - i2.size) by positivity)
    rw [value1]
    rw [split] at dividend
    linarith
  have count : i2.size + (i1.size + 1 - i2.size) = i1.size + 1 := by omega
  obtain ⟨after, q, rest, divided, array3, drop, division, range, final⟩ :=
    @quotientDigits_eq (i1.size + 2) (i1.size + 1 - i2.size) (twosComplement d 0x100) _
      (Nat.ofDigits 256 digits : Nat) lastD digits (twosComplement_bytes _ _) digits_some
      (by rw [size]; exact complement) top (by rw [size]; exact least) (by rw [size]; exact most)
      array1 (by rw [size]; omega) (by rw [size, count, ← upper]) small
  rw [size, count] at drop final
  have whole : ((Nat.ofDigits 256 after : Nat) : Int) = rest + 256 ^ i2.size * q := by
    have cut := ofDigits_take_drop after (i1.size + 1)
    rw [drop, empty, Nat.mul_zero, Nat.add_zero] at cut
    rw [cut, final]
  obtain ⟨⟨quo, run_quo, bytes_quo, value_quo⟩, cleared, rem, written, run_rem, bytes_rem,
    value_rem⟩ := read_out i1.isNegative array3 (by omega) few ⟨range.1, range.2.trans fills'⟩ whole
  rw [value1] at division
  obtain ⟨quotient, remainder⟩ := unshifted division range
  rw [← value_rem] at remainder
  have shrunk_rem := shrunkToFit_eq (i := ⟨i2.isNegative, rem⟩) bytes_rem
  have shrunk_quo := shrunkToFit_eq (i := ⟨i1.isNegative ^^ i2.isNegative, quo⟩) bytes_quo
  rw [value_eq_signed, BigInteger.magnitude] at shrunk_rem shrunk_quo
  simp only [value_quo] at shrunk_rem shrunk_quo
  have rows : i1.size + 2 - 1 - i2.size = i1.size + 1 - i2.size := by omega
  rw [quotient, Nat.cast_inj.mp remainder]
  unfold quoRem
  rw [greater, if_neg (by decide), if_neg (by decide), shifts]
  simp only [run1, run2, array1.size, array2.size, array3.size, twosComplement_length, rows, last,
    divided, run_quo, written, run_rem, shrunk_quo, shrunk_rem, Option.bind_eq_bind,
    Option.bind_some]

end Whole

end BigInteger

end SlateVm
