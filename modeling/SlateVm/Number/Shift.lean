import SlateVm.Number.Bitwise
import SlateVm.Number.Tagged

/-! `bitShift:` on integers of any size: the primitive, its overflow handler, and the digits of
big integers shifted by whole digits and by bits. -/
namespace SlateVm

namespace BigInteger

/-- The loop of `bitShift:into:` over the digits that are shifted into the result, the first of
them to `place`. -/
def shiftDigits (offset : Nat) : List Nat → Nat → Int → List Nat → Option (List Nat × Int)
  | [], _, carry, result => some (result, carry)
  | digit :: digits, place, carry, result => do
    let carry := (carry >>> (8 : Nat)) + (digit <<< offset : Nat)
    let result ← atPut result place (intoByte carry)
    shiftDigits offset digits (place + 1) carry result

def bitShiftInto (i : BigInteger) (n : Int) (result : List Nat) : Option (List Nat) := do
  let source := n / 8
  let offset := (n % 8).toNat
  let carry : Int := if n < 0 ∧ 0 < offset ∧ -1 - source < i.size then
    (i.digits.getD (-1 - source).toNat 0 <<< offset : Nat) else 0
  let limit := min (i.size : Int) (result.length - source)
  let start := max (-source) 0
  let (result, carry) ← shiftDigits offset ((i.digits.take limit.toNat).drop start.toNat)
    (start + source).toNat carry result
  if carry > 0xFF ∧ limit + source < result.length then
    atPut result (limit + source).toNat (carry >>> (8 : Nat))
  else some result

def digitLowBit (digit : Nat) : Nat := smallHighBit (primBitxor digit ((digit : Int) - 1))

/-- The loop of `lowBit`, which stops at a digit that is not zero. -/
def lowBitLoop : List Nat → Nat → Option Nat
  | [], _ => none
  | digit :: digits, index =>
    if digit = 0 then lowBitLoop digits (index + 1) else some (digitLowBit digit + 8 * index)

def lowBit (i : BigInteger) : Option Nat := if i.isZero then some 0 else lowBitLoop i.digits 0

def bitShift (i : BigInteger) (n : Int) : Option SlateInteger :=
  if i.isZero ∨ n = 0 then some (.big i)
  else do
    let capacity := (max ((i.highBit + n) / 8) 0 + 1).toNat
    let digits ← i.bitShiftInto n (List.replicate capacity 0)
    let result : BigInteger := ⟨i.isNegative, digits⟩
    if i.isNegative then
      if ((← i.lowBit) : Int) < -n then (SlateInteger.big result).minus (.small 1)
      else result.shrunkToFit
    else result.shrunkToFit

end BigInteger

def SlateInteger.bitShift (x : SlateInteger) (n : Int) : Option SlateInteger :=
  match x with
  | small x =>
    match primBitshift x n with
    | some z => some (small z)
    | none => (asBigInteger x).bitShift n
  | big x => x.bitShift n

open Digits TwosComplement

section Digits

namespace BigInteger

theorem shiftDigits_eq {capacity offset : Nat} {digits : List Nat} {place : Nat} {carry : Int}
    {result : List Nat} (few : offset < 8) (bytes : ∀ d ∈ digits, d < 256)
    (array : Bytes capacity result) (inside : place + digits.length ≤ capacity)
    (range : 0 ≤ carry ∧ carry < 65536) (clear : ∀ j, place ≤ j → result.getD j 0 = 0) :
    ∃ after last, shiftDigits offset digits place carry result = some (after, last) ∧
      Bytes capacity after ∧ (0 ≤ last ∧ last < 65536) ∧
      ((Nat.ofDigits 256 after : Nat) : Int) + 256 ^ (place + digits.length) * (last / 256) =
        (Nat.ofDigits 256 result : Nat) +
          256 ^ place * (2 ^ offset * (Nat.ofDigits 256 digits : Nat) + carry / 256) ∧
      ∀ j, place + digits.length ≤ j → after.getD j 0 = 0 := by
  induction digits generalizing place carry result with
  | nil => exact ⟨result, carry, rfl, array, range, by simp, clear⟩
  | cons digit digits ih =>
    rw [List.length_cons] at inside
    have byte : digit < 256 := bytes digit List.mem_cons_self
    have power : 2 ^ offset ≤ 2 ^ 7 := Nat.pow_le_pow_right (by decide) (by omega)
    have product : digit * 2 ^ offset ≤ 255 * 2 ^ 7 := Nat.mul_le_mul (by omega) power
    have shifted : ((digit <<< offset : Nat) : Int) = 2 ^ offset * digit := by
      rw [Nat.shiftLeft_eq]
      push_cast
      ring
    have bound : ((digit <<< offset : Nat) : Int) ≤ 255 * 2 ^ 7 := by
      rw [Nat.shiftLeft_eq]
      exact_mod_cast product
    generalize total : (carry >>> (8 : Nat)) + ((digit <<< offset : Nat) : Int) = carry'
    rw [shift_right_byte] at total
    obtain ⟨put, written, array', changed, others⟩ :=
      @atPut_byte capacity place result (intoByte carry') array (by omega) (intoByte_range carry')
    rw [clear place le_rfl, Nat.cast_zero, mul_zero, add_zero] at changed
    obtain ⟨after, last, run, array2, range', value, above⟩ :=
      @ih (place + 1) carry' put (fun d later => bytes d (List.mem_cons_of_mem digit later))
        array' (by omega) (by omega)
        (fun j far => by rw [others j (by omega), clear j (by omega)])
    refine ⟨after, last, ?_, array2, range', ?_, ?_⟩
    · simp only [shiftDigits, shift_right_byte, total, written, Option.bind_eq_bind,
        Option.bind_some, run]
    · have whole := Int.emod_add_mul_ediv carry' 256
      rw [intoByte_eq] at changed
      have length : place + (digit :: digits).length = place + 1 + digits.length := by
        rw [List.length_cons]
        omega
      rw [length, Nat.ofDigits_cons]
      rw [pow_succ] at value
      rw [shifted] at total
      simp only [Nat.cast_add, Nat.cast_mul, Nat.cast_ofNat]
      linear_combination value + changed + 256 ^ place * whole - 256 ^ place * total
    · intro j far
      rw [List.length_cons] at far
      exact above j (by omega)

theorem ofDigits_zeros (n : Nat) : Nat.ofDigits 256 (List.replicate n 0) = 0 := by
  induction n with
  | zero => rfl
  | succ n ih => rw [List.replicate_succ, Nat.ofDigits_cons, ih]

theorem bytes_zeros (n : Nat) : Bytes n (List.replicate n 0) :=
  ⟨List.length_replicate, fun d here => by rw [List.eq_of_mem_replicate here]; decide⟩

theorem getD_zeros (n j : Nat) : (List.replicate n 0).getD j 0 = 0 := by
  rw [List.getD, List.getElem?_replicate]
  split <;> rfl

theorem carry_below {ds : List Nat} (bytes : ∀ d ∈ ds, d < 256) {k offset : Nat} (few : offset < 8) :
    ((Nat.ofDigits 256 (ds.take (k + 1)) : Nat) : Int) * 2 ^ offset / 256 ^ (k + 1) =
      ((ds.getD k 0 <<< offset : Nat) : Int) / 256 := by
  have low := ofDigits_take_lt (by decide) bytes k
  have low' : ((Nat.ofDigits 256 (ds.take k) : Nat) : Int) < 256 ^ k := by exact_mod_cast low
  have cut : Nat.ofDigits 256 (ds.take (k + 1)) =
      Nat.ofDigits 256 (ds.take k) + 256 ^ k * ds.getD k 0 := by
    by_cases inside : k < ds.length
    · exact ofDigits_take_succ inside
    · rw [List.take_of_length_le (by omega), List.take_of_length_le (by omega), List.getD,
        List.getElem?_eq_none (by omega)]
      rfl
  have power : (256 : Int) ^ (k + 1) = 256 ^ k * (2 ^ offset * 2 ^ (8 - offset)) := by
    rw [← pow_add, pow_succ]
    congr 1
    have eight : offset + (8 - offset) = 8 := by omega
    rw [eight]
    rfl
  have word : (256 : Int) = 2 ^ offset * 2 ^ (8 - offset) := by
    rw [← pow_add]
    have eight : offset + (8 - offset) = 8 := by omega
    rw [eight]
    rfl
  have shifted : ((ds.getD k 0 <<< offset : Nat) : Int) = 2 ^ offset * (ds.getD k 0 : Nat) := by
    rw [Nat.shiftLeft_eq]
    push_cast
    ring
  have unshifted : 2 ^ offset * ((ds.getD k 0 : Nat) : Int) / 256 =
      (ds.getD k 0 : Nat) / 2 ^ (8 - offset) := by
    conv_lhs => rw [word]
    exact Int.mul_ediv_mul_of_pos _ _ (by positivity)
  have whole : (256 : Int) ^ k * (2 ^ offset * 2 ^ (8 - offset)) =
      2 ^ offset * (256 ^ k * 2 ^ (8 - offset)) := by ring
  rw [shifted, unshifted, cut, power, whole, mul_comm _ (2 ^ offset : Int),
    Int.mul_ediv_mul_of_pos _ _ (by positivity), ← Int.ediv_ediv_of_nonneg (by positivity)]
  push_cast at low' ⊢
  rw [Int.add_mul_ediv_left _ _ (by positivity), Int.ediv_eq_zero_of_lt _ low', zero_add]
  exact_mod_cast Nat.zero_le _

theorem ofDigits_take_drop (ds : List Nat) (k : Nat) :
    Nat.ofDigits 256 ds = Nat.ofDigits 256 (ds.take k) + 256 ^ k * Nat.ofDigits 256 (ds.drop k) := by
  by_cases inside : k ≤ ds.length
  · conv_lhs => rw [← List.take_append_drop k ds]
    rw [Nat.ofDigits_append, List.length_take, Nat.min_eq_left inside]
  · rw [List.take_of_length_le (by omega), List.drop_of_length_le (by omega), Nat.ofDigits_nil,
      Nat.mul_zero, Nat.add_zero]

theorem bitShift_parts (m n : Int) : TwosComplement.bitShift m n =
    m * 2 ^ (n % 8).toNat * 256 ^ (n / 8).toNat / 256 ^ (-(n / 8)).toNat := by
  unfold TwosComplement.bitShift
  split
  · have none : (-(n / 8)).toNat = 0 := by omega
    have count : n.toNat = (n % 8).toNat + 8 * (n / 8).toNat := by omega
    have power : (2 : Int) ^ n.toNat = 2 ^ (n % 8).toNat * 256 ^ (n / 8).toNat := by
      rw [count, pow_add, pow_mul]
      rfl
    rw [none, pow_zero, Int.ediv_one, power, mul_assoc]
  · have none : (n / 8).toNat = 0 := by omega
    have count : 8 * (-(n / 8)).toNat = (-n).toNat + (n % 8).toNat := by omega
    have power : (256 : Int) ^ (-(n / 8)).toNat = 2 ^ (-n).toNat * 2 ^ (n % 8).toNat := by
      rw [← pow_add, ← count, pow_mul]
      rfl
    rw [none, pow_zero, mul_one, power]
    exact (Int.mul_ediv_mul_of_pos_left _ _ (by positivity)).symm

theorem shifted_split (ds : List Nat) {start limit place : Nat} (offset : Nat)
    (one : start = 0 ∨ place = 0) (order : start ≤ limit) :
    ((Nat.ofDigits 256 ds : Nat) : Int) * 2 ^ offset * 256 ^ place / 256 ^ start =
      256 ^ place * (((Nat.ofDigits 256 (ds.take start) : Nat) : Int) * 2 ^ offset / 256 ^ start +
        2 ^ offset * (Nat.ofDigits 256 ((ds.take limit).drop start) : Nat)) +
      256 ^ (place + (limit - start)) * (2 ^ offset * (Nat.ofDigits 256 (ds.drop limit) : Nat)) := by
  have lower := ofDigits_take_drop ds start
  have upper := ofDigits_take_drop (ds.drop start) (limit - start)
  have segment : (ds.drop start).take (limit - start) = (ds.take limit).drop start :=
    List.drop_take.symm
  have rest : start + (limit - start) = limit := by omega
  rw [List.drop_drop, segment, rest] at upper
  rw [upper] at lower
  have whole := congrArg (Nat.cast : Nat → Int) lower
  simp only [Nat.cast_add, Nat.cast_mul, Nat.cast_pow, Nat.cast_ofNat] at whole
  rw [whole, pow_add]
  rcases one with rfl | rfl
  · simp only [pow_zero, Int.ediv_one, one_mul]
    ring
  · simp only [pow_zero, mul_one, one_mul]
    have parts (a b c p q s : Int) : (a + s * (b + q * c)) * p = a * p + s * (p * b + q * (p * c)) := by
      ring
    rw [parts, Int.add_mul_ediv_left _ _ (by positivity)]
    ring

theorem mod_of_bytes {r : Nat} {after : List Nat} {t q : Int} (array : Bytes r after)
    (whole : t = (Nat.ofDigits 256 after : Nat) + 256 ^ r * q) :
    ((Nat.ofDigits 256 after : Nat) : Int) = t % 256 ^ r := by
  have bound := Nat.ofDigits_lt_base_pow_length (by decide) array.bytes
  rw [array.size] at bound
  have bound' : ((Nat.ofDigits 256 after : Nat) : Int) < 256 ^ r := by exact_mod_cast bound
  rw [whole, Int.add_mul_emod_self_left, Int.emod_eq_of_lt (Int.natCast_nonneg _) bound']

theorem carried_in {i : BigInteger} (bytes : ∀ d ∈ i.digits, d < 256) {n : Int} {start : Nat}
    (started : (-(n / 8)).toNat = start) {carry : Int}
    (carried : (if n < 0 ∧ 0 < (n % 8).toNat ∧ -1 - n / 8 < i.size then
      ((i.digits.getD (-1 - n / 8).toNat 0 <<< (n % 8).toNat : Nat) : Int) else 0) = carry) :
    (0 ≤ carry ∧ carry < 65536) ∧ (start = 0 ∨ i.size < start → carry = 0) ∧
    ((Nat.ofDigits 256 (i.digits.take start) : Nat) : Int) * 2 ^ (n % 8).toNat / 256 ^ start =
      carry / 256 := by
  have few : (n % 8).toNat < 8 := by omega
  have size : i.size = i.digits.length := rfl
  cases start with
  | zero =>
    have left : ¬ n < 0 := by omega
    rw [if_neg (fun all => left all.1)] at carried
    subst carried
    simp
  | succ k =>
    have index : (-1 - n / 8).toNat = k := by omega
    have below := @carry_below i.digits bytes k _ few
    rw [index] at carried
    rw [below]
    by_cases lost : 0 < (n % 8).toNat ∧ k < i.size
    · rw [if_pos ⟨by omega, lost.1, by omega⟩] at carried
      have byte : i.digits.getD k 0 < 256 := by
        rw [List.getD_eq_getElem _ _ (by omega)]
        exact bytes _ (List.getElem_mem _)
      have power : 2 ^ (n % 8).toNat ≤ 2 ^ 7 := Nat.pow_le_pow_right (by decide) (by omega)
      have product : i.digits.getD k 0 * 2 ^ (n % 8).toNat ≤ 255 * 2 ^ 7 :=
        Nat.mul_le_mul (by omega) power
      have bound : ((i.digits.getD k 0 <<< (n % 8).toNat : Nat) : Int) ≤ 255 * 2 ^ 7 := by
        rw [Nat.shiftLeft_eq]
        exact_mod_cast product
      rw [carried] at bound ⊢
      exact ⟨by omega, by omega, rfl⟩
    · have skipped : ¬ (n < 0 ∧ 0 < (n % 8).toNat ∧ -1 - n / 8 < i.size) := by omega
      rw [if_neg skipped] at carried
      subst carried
      refine ⟨by decide, fun _ => rfl, ?_⟩
      by_cases inside : k < i.size
      · have none : (n % 8).toNat = 0 := by omega
        have byte : i.digits.getD k 0 < 256 := by
          rw [List.getD_eq_getElem _ _ (by omega)]
          exact bytes _ (List.getElem_mem _)
        rw [none, Nat.shiftLeft_zero]
        omega
      · rw [List.getD_eq_default _ _ (by omega), Nat.zero_shiftLeft]
        rfl

theorem bitShiftInto_eq {i : BigInteger} (bytes : ∀ d ∈ i.digits, d < 256) (n : Int) (r : Nat) :
    ∃ after, i.bitShiftInto n (List.replicate r 0) = some after ∧ Bytes r after ∧
      ((Nat.ofDigits 256 after : Nat) : Int) =
        TwosComplement.bitShift i.magnitude n % 256 ^ r := by
  have few : (n % 8).toNat < 8 := by omega
  have size : i.size = i.digits.length := rfl
  rw [bitShift_parts]
  unfold bitShiftInto BigInteger.magnitude
  simp only [List.length_replicate]
  generalize carried : (if n < 0 ∧ 0 < (n % 8).toNat ∧ -1 - n / 8 < i.size then
    ((i.digits.getD (-1 - n / 8).toNat 0 <<< (n % 8).toNat : Nat) : Int) else 0) = carry
  generalize started : (-(n / 8)).toNat = start
  generalize placed : (n / 8).toNat = place
  have first : (max (-(n / 8)) 0).toNat = start := by omega
  have into : (max (-(n / 8)) 0 + n / 8).toNat = place := by omega
  have one : start = 0 ∨ place = 0 := by omega
  obtain ⟨range, none, below⟩ := carried_in bytes started carried
  rw [first, into]
  generalize bounded : (min (i.size : Int) (r - n / 8)) = limit
  by_cases outside : r < place
  · have empty : limit.toNat = 0 := by omega
    have start_zero : start = 0 := by omega
    have zero := none (Or.inl start_zero)
    subst zero
    refine ⟨List.replicate r 0, ?_, bytes_zeros r, ?_⟩
    · simp [empty, shiftDigits]
    · have above : place = r + (place - r) := by omega
      rw [ofDigits_zeros, start_zero, above, pow_add, pow_zero, Int.ediv_one]
      have multiple (a b c : Int) : a * (b * c) = b * (a * c) := by ring
      rw [multiple, Int.mul_emod_right]
      rfl
  · obtain ⟨cut, order, segment, length, room, upper, ending⟩ : ∃ cut, start ≤ cut ∧
        (i.digits.take limit.toNat).drop start = (i.digits.take cut).drop start ∧
        ((i.digits.take cut).drop start).length = cut - start ∧ place + (cut - start) ≤ r ∧
        (place + (cut - start) = r ∨ i.digits.drop cut = []) ∧
        (start ≤ i.size → limit + n / 8 = (place + (cut - start) : Nat)) := by
      by_cases short : i.size < start
      · refine ⟨start, le_rfl, ?_, by simp, by omega, Or.inr ?_, by omega⟩
        · rw [List.drop_of_length_le (by rw [List.length_take]; omega),
            List.drop_of_length_le (by rw [List.length_take]; omega)]
        · exact List.drop_of_length_le (by omega)
      · refine ⟨limit.toNat, by omega, rfl, ?_, by omega, ?_, by omega⟩
        · rw [List.length_drop, List.length_take]
          omega
        · by_cases all : limit = i.size
          · exact Or.inr (List.drop_of_length_le (by omega))
          · exact Or.inl (by omega)
    rw [segment]
    have bytes' : ∀ d ∈ (i.digits.take cut).drop start, d < 256 := fun d here =>
      bytes d (List.mem_of_mem_take (List.mem_of_mem_drop here))
    obtain ⟨row, last, run, array, range', value, clear⟩ :=
      shiftDigits_eq few bytes' (bytes_zeros r) (by rw [length]; exact room) range
        fun j _ => getD_zeros r j
    have whole := shifted_split i.digits (n % 8).toNat one order
    rw [below] at whole
    rw [length] at value clear
    rw [ofDigits_zeros, Nat.cast_zero, zero_add] at value
    simp only [run, Option.bind_eq_bind, Option.bind_some, array.size]
    by_cases top : last > 0xFF ∧ limit + n / 8 < r
    · have started' : start ≤ i.size := by
        by_contra short
        have zero := none (Or.inr (by omega))
        have empty : (i.digits.take cut).drop start = [] :=
          List.drop_of_length_le (by rw [List.length_take]; omega)
        rw [empty] at run
        simp only [shiftDigits, Option.some.injEq, Prod.mk.injEq] at run
        omega
      have index := ending started'
      have inside : place + (cut - start) < r := by omega
      have above : i.digits.drop cut = [] := upper.resolve_left (by omega)
      obtain ⟨put, written, array', changed, _⟩ :=
        @atPut_byte r (place + (cut - start)) row (last / 256) array inside (by omega)
      rw [clear _ le_rfl, Nat.cast_zero, mul_zero, add_zero] at changed
      refine ⟨put, ?_, array', ?_⟩
      · rw [if_pos top, index, Int.toNat_natCast, shift_right_byte, written]
      · apply mod_of_bytes array' (q := 0)
        rw [whole, above, changed, Nat.ofDigits_nil, Nat.cast_zero]
        linear_combination -value
    · refine ⟨row, if_neg top, array, ?_⟩
      rcases upper with full | above
      · apply mod_of_bytes array
          (q := last / 256 + 2 ^ (n % 8).toNat * (Nat.ofDigits 256 (i.digits.drop cut) : Nat))
        rw [whole, full]
        rw [full] at value
        linear_combination -value
      · by_cases full : place + (cut - start) = r
        · apply mod_of_bytes array (q := last / 256)
          rw [whole, full, above, Nat.ofDigits_nil, Nat.cast_zero]
          rw [full] at value
          linear_combination -value
        · have few' : last / 256 = 0 := by
            by_cases started' : start ≤ i.size
            · have index := ending started'
              omega
            · have zero := none (Or.inr (by omega))
              have empty : (i.digits.take cut).drop start = [] :=
                List.drop_of_length_le (by rw [List.length_take]; omega)
              rw [empty] at run
              simp only [shiftDigits, Option.some.injEq, Prod.mk.injEq] at run
              omega
          apply mod_of_bytes array (q := 0)
          rw [whole, above, Nat.ofDigits_nil, Nat.cast_zero]
          rw [few'] at value
          linear_combination -value

end BigInteger

end Digits

section LowBit

theorem digitLowBit_eq {d : Nat} (byte : d < 256) (nonzero : d ≠ 0) :
    2 ^ BigInteger.digitLowBit d ∣ d ∧ ¬ 2 ^ (BigInteger.digitLowBit d + 1) ∣ d := by
  have all : ∀ d < 256, d ≠ 0 →
      2 ^ Nat.log 2 (primBitxor (d : Nat) ((d : Int) - 1)).natAbs ∣ d ∧
        ¬ 2 ^ (Nat.log 2 (primBitxor (d : Nat) ((d : Int) - 1)).natAbs + 1) ∣ d := by
    decide +kernel
  unfold BigInteger.digitLowBit
  rw [smallHighBit_eq]
  exact all d byte nonzero

theorem lowBitLoop_eq {digits : List Nat} (bytes : ∀ d ∈ digits, d < 256)
    (nonzero : Nat.ofDigits 256 digits ≠ 0) (index : Nat) :
    ∃ l, BigInteger.lowBitLoop digits index = some (l + 8 * index) ∧
      2 ^ l ∣ Nat.ofDigits 256 digits ∧ ¬ 2 ^ (l + 1) ∣ Nat.ofDigits 256 digits := by
  induction digits generalizing index with
  | nil => exact absurd rfl nonzero
  | cons digit digits ih =>
    have byte := bytes digit List.mem_cons_self
    by_cases zero : digit = 0
    · subst zero
      rw [Nat.ofDigits_cons, Nat.zero_add] at nonzero ⊢
      obtain ⟨l, run, divides, not⟩ := ih (fun d later => bytes d (List.mem_cons_of_mem 0 later))
        (fun none => nonzero (by rw [none])) (index + 1)
      refine ⟨l + 8, ?_, ?_, ?_⟩
      · rw [BigInteger.lowBitLoop, if_pos rfl, run]
        congr 1
        omega
      · rw [pow_add, Nat.mul_comm]
        exact Nat.mul_dvd_mul_left 256 divides
      · have power : 2 ^ (l + 8 + 1) = 256 * 2 ^ (l + 1) := by
          rw [Nat.add_right_comm, pow_add, Nat.mul_comm]
          rfl
        rw [power]
        exact fun all => not (Nat.dvd_of_mul_dvd_mul_left (by decide) all)
    · obtain ⟨divides, not⟩ := digitLowBit_eq byte zero
      have few : BigInteger.digitLowBit digit < 8 := by
        by_contra many
        have power : 2 ^ 8 ≤ 2 ^ BigInteger.digitLowBit digit :=
          Nat.pow_le_pow_right (by decide) (by omega)
        have below := Nat.le_of_dvd (Nat.pos_of_ne_zero zero) divides
        omega
      have higher (k : Nat) (low : k ≤ 8) : 2 ^ k ∣ 256 * Nat.ofDigits 256 digits :=
        Dvd.dvd.mul_right (Nat.pow_dvd_pow 2 low) _
      refine ⟨BigInteger.digitLowBit digit, by rw [BigInteger.lowBitLoop, if_neg zero], ?_, ?_⟩
      · exact (Nat.dvd_add_iff_left (higher _ few.le)).mp divides
      · exact fun all => not ((Nat.dvd_add_iff_left (higher _ few)).mpr all)

variable {i : BigInteger}

theorem isZero_eq (numeral : Numeral 256 i.digits) : i.isZero = decide (i.magnitude = 0) := by
  have length : i.size = i.digits.length := rfl
  unfold BigInteger.isZero BigInteger.lastDigit
  rw [decide_eq_decide]
  constructor
  · rintro ⟨one, zero⟩
    obtain ⟨d, single⟩ := List.length_eq_one_iff.mp (length ▸ one)
    rw [one, single] at zero
    rw [BigInteger.magnitude, single, Nat.ofDigits_singleton]
    exact zero
  · intro zero
    have one : i.digits.length = 1 := by
      rcases numeral.low with one | low
      · exact one
      · have power : 0 < 256 ^ (i.digits.length - 1) := Nat.pow_pos (by decide)
        unfold BigInteger.magnitude at zero
        omega
    obtain ⟨d, single⟩ := List.length_eq_one_iff.mp one
    rw [BigInteger.magnitude, single, Nat.ofDigits_singleton] at zero
    refine ⟨one, ?_⟩
    rw [length, one, single]
    exact zero

theorem lowBit_eq (numeral : Numeral 256 i.digits) (nonzero : i.magnitude ≠ 0) :
    ∃ l, i.lowBit = some l ∧ ∀ k, l < k ↔ ¬ 2 ^ k ∣ i.magnitude := by
  obtain ⟨l, run, divides, not⟩ := lowBitLoop_eq numeral.digits nonzero 0
  refine ⟨l, ?_, fun k => ⟨fun past all => not ?_, fun lost => ?_⟩⟩
  · rw [BigInteger.lowBit, isZero_eq numeral, decide_eq_false nonzero]
    exact run
  · exact (Nat.pow_dvd_pow 2 past).trans all
  · by_contra within
    exact lost ((Nat.pow_dvd_pow 2 (Nat.not_lt.mp within)).trans divides)

theorem highBit_eq (numeral : Numeral 256 i.digits) (nonzero : i.magnitude ≠ 0) :
    i.highBit = Nat.log 2 i.magnitude := by
  have length : i.size = i.digits.length := rfl
  have positive : 0 < i.size := numeral.pos
  have cut := @ofDigits_take_succ 256 i.digits (i.size - 1) (by omega)
  rw [List.take_of_length_le (by omega)] at cut
  have below := ofDigits_take_lt (by decide) numeral.digits (i.size - 1)
  have last : i.lastDigit ≠ 0 := by
    intro zero
    unfold BigInteger.lastDigit at zero
    rw [zero, Nat.mul_zero, Nat.add_zero] at cut
    rcases numeral.low with one | low
    · rw [length, one] at cut
      exact nonzero cut
    · rw [← length] at low
      omega
  have least := Nat.mul_le_mul_left (256 ^ (i.size - 1)) (Nat.pow_log_le_self 2 last)
  have power : 256 ^ (i.size - 1) * 2 ^ Nat.log 2 i.lastDigit = 2 ^ i.highBit := by
    rw [← pow_bytes, ← pow_add, BigInteger.highBit, smallHighBit_eq, Int.natAbs_natCast]
    congr 1
    omega
  rw [power] at least
  have low : 2 ^ i.highBit ≤ i.magnitude :=
    least.trans ((Nat.le_add_left _ _).trans_eq cut.symm)
  exact ((Nat.log_eq_iff (Or.inr ⟨by decide, nonzero⟩)).mpr
    ⟨low, (magnitude_lt_highBit numeral).1⟩).symm

end LowBit

section Floor

variable {i : BigInteger} {n : Int}

theorem bitShift_natural (m : Nat) (n : Int) :
    ∃ q : Nat, (q : Int) = TwosComplement.bitShift m n ∧
      ∀ h : Nat, 2 ^ h ≤ m → m < 2 ^ (h + 1) →
        (0 ≤ h + n → 2 ^ (h + n).toNat ≤ q ∧ q < 2 ^ ((h + n).toNat + 1)) ∧
        (h + n < 0 → q = 0) := by
  by_cases left : 0 ≤ n
  · obtain ⟨k, rfl⟩ := Int.eq_ofNat_of_zero_le left
    refine ⟨m * 2 ^ k, ?_, fun h low high => ⟨fun _ => ?_, fun below => by omega⟩⟩
    · rw [TwosComplement.bitShift, if_pos left, Int.toNat_natCast]
      push_cast
      rfl
    · have count : ((h : Int) + (k : Int)).toNat = h + k := by omega
      rw [count, Nat.add_right_comm, pow_add, pow_add]
      exact ⟨Nat.mul_le_mul_right _ low, Nat.mul_lt_mul_of_pos_right high (by positivity)⟩
  · obtain ⟨k, rfl⟩ : ∃ k : Nat, n = -k := ⟨(-n).toNat, by omega⟩
    refine ⟨m / 2 ^ k, ?_, fun h low high => ⟨fun within => ?_, fun below => ?_⟩⟩
    · rw [TwosComplement.bitShift, if_neg left, Int.neg_neg, Int.toNat_natCast]
      push_cast
      rfl
    · have count : ((h : Int) + -(k : Int)).toNat = h - k := by omega
      have split : h = (h - k) + k := by omega
      rw [split, pow_add] at low
      rw [split, Nat.add_right_comm, pow_add] at high
      rw [count]
      exact ⟨(Nat.le_div_iff_mul_le (by positivity)).mpr low,
        (Nat.div_lt_iff_lt_mul (by positivity)).mpr high⟩
    · exact Nat.div_eq_of_lt (high.trans_le (Nat.pow_le_pow_right (by decide) (by omega)))

theorem shifted_numeral (numeral : Numeral 256 i.digits) (nonzero : i.magnitude ≠ 0) (n : Int) :
    ∃ digits, i.bitShiftInto n
        (List.replicate (max (((i.highBit : Int) + n) / 8) 0 + 1).toNat 0) = some digits ∧
      Numeral 256 digits ∧
      ((Nat.ofDigits 256 digits : Nat) : Int) = TwosComplement.bitShift i.magnitude n := by
  obtain ⟨q, shifted, bounds⟩ := bitShift_natural i.magnitude n
  have high := highBit_eq numeral nonzero
  obtain ⟨above, below⟩ := bounds i.highBit (by rw [high]; exact Nat.pow_log_le_self 2 nonzero)
    (by rw [high]; exact Nat.lt_pow_succ_log_self (by decide) _)
  obtain ⟨digits, run, array, value⟩ := BigInteger.bitShiftInto_eq numeral.digits n
    (max (((i.highBit : Int) + n) / 8) 0 + 1).toNat
  refine ⟨digits, run, ?_⟩
  have room : q < 256 ^ (max (((i.highBit : Int) + n) / 8) 0 + 1).toNat ∧
      ((max (((i.highBit : Int) + n) / 8) 0 + 1).toNat = 1 ∨
        256 ^ ((max (((i.highBit : Int) + n) / 8) 0 + 1).toNat - 1) ≤ q) := by
    by_cases within : 0 ≤ (i.highBit : Int) + n
    · have bits := above within
      have log : Nat.log 2 q = ((i.highBit : Int) + n).toNat :=
        (Nat.log_eq_iff (Or.inr ⟨by decide, by have := Nat.two_pow_pos (i.highBit + n).toNat; omega⟩)).mpr
          bits
      have capacity : (max (((i.highBit : Int) + n) / 8) 0 + 1).toNat = Nat.log 2 q / 8 + 1 := by
        rw [log]
        omega
      rw [capacity]
      obtain ⟨fits, full⟩ := bytes_of_high_bit q
      exact ⟨fits, full⟩
    · have none := below (by omega)
      have capacity : (max (((i.highBit : Int) + n) / 8) 0 + 1).toNat = 1 := by omega
      rw [capacity, none]
      exact ⟨by decide, Or.inl rfl⟩
  have fits : (q : Int) < 256 ^ (max (((i.highBit : Int) + n) / 8) 0 + 1).toNat := by
    exact_mod_cast room.1
  rw [← shifted, Int.emod_eq_of_lt (Int.natCast_nonneg q) fits] at value
  have same : Nat.ofDigits 256 digits = q := by exact_mod_cast value
  refine ⟨⟨array.bytes, ?_⟩, by rw [same, shifted]⟩
  rw [array.size, same]
  exact room.2

theorem bitShift_signed (m : Nat) (n : Int) :
    (0 ≤ n ∨ 2 ^ (-n).toNat ∣ m →
      TwosComplement.bitShift (-(m : Int)) n = -TwosComplement.bitShift m n) ∧
    (n < 0 → ¬ 2 ^ (-n).toNat ∣ m →
      TwosComplement.bitShift (-(m : Int)) n = -TwosComplement.bitShift m n - 1) := by
  have cast : ((2 ^ (-n).toNat : Nat) : Int) = 2 ^ (-n).toNat := by push_cast; rfl
  have positive : (0 : Int) < 2 ^ (-n).toNat := by positivity
  unfold TwosComplement.bitShift
  constructor
  · intro kept
    by_cases left : 0 ≤ n
    · rw [if_pos left, if_pos left, Int.neg_mul]
    · rw [if_neg left, if_neg left]
      have divides : (2 : Int) ^ (-n).toNat ∣ m := by
        rw [← cast]
        exact Int.natCast_dvd_natCast.mpr (kept.resolve_left left)
      exact Int.neg_ediv_of_dvd divides
  · intro right lost
    have rest : (m : Int) % 2 ^ (-n).toNat ≠ 0 := by
      intro zero
      rw [← cast] at zero
      exact lost (Int.natCast_dvd_natCast.mp (Int.dvd_of_emod_eq_zero zero))
    have least := Int.emod_nonneg (m : Int) positive.ne'
    have most := Int.emod_lt_of_pos (m : Int) positive
    have whole := Int.mul_ediv_add_emod (m : Int) (2 ^ (-n).toNat)
    have some := lt_of_le_of_ne least rest.symm
    rw [if_neg (by omega), if_neg (by omega), Int.ediv_eq_iff_of_pos positive]
    constructor
    · linarith
    · linarith

theorem bitShift_kept (proper : i.Proper) (nonzero : i.magnitude ≠ 0) (shifts : n ≠ 0)
    (kept : i.isNegative = true → 0 ≤ n ∨ 2 ^ (-n).toNat ∣ i.magnitude) :
    i.bitShift n = some (canonical (TwosComplement.bitShift i.value n)) := by
  obtain ⟨digits, run, numeral, shifted⟩ := shifted_numeral proper.numeral nonzero n
  have shrunk : BigInteger.shrunkToFit ⟨i.isNegative, digits⟩ =
      some (canonical (TwosComplement.bitShift i.value n)) := by
    rw [shrunkToFit_eq numeral.digits]
    congr 2
    rw [BigInteger.value, BigInteger.magnitude, shifted, BigInteger.value]
    cases negative : i.isNegative with
    | false => rfl
    | true => exact ((bitShift_signed i.magnitude n).1 (kept negative)).symm
  obtain ⟨l, low, lost⟩ := lowBit_eq proper.numeral nonzero
  unfold BigInteger.bitShift
  rw [isZero_eq proper.numeral, decide_eq_false nonzero, if_neg (by simpa using shifts)]
  simp only [run, low, Option.bind_eq_bind, Option.bind_some]
  cases negative : i.isNegative with
  | false => simpa [negative] using shrunk
  | true =>
    rw [negative] at shrunk
    have within : ¬ (l : Int) < -n := by
      intro past
      rcases kept negative with left | divides
      · omega
      · exact (lost (-n).toNat).mp (by omega) divides
    rw [if_pos rfl, if_neg within, shrunk]

theorem bitShift_lost (proper : i.Proper) (negative : i.isNegative = true) (right : n < 0)
    (lost : ¬ 2 ^ (-n).toNat ∣ i.magnitude) :
    ∃ b : BigInteger, i.bitShift n = some (.big b) ∧ b.Proper ∧
      b.value = TwosComplement.bitShift i.value n := by
  have nonzero : i.magnitude ≠ 0 := fun zero => lost (zero ▸ Nat.dvd_zero _)
  obtain ⟨digits, run, numeral, shifted⟩ := shifted_numeral proper.numeral nonzero n
  obtain ⟨l, low, past⟩ := lowBit_eq proper.numeral nonzero
  have below : (l : Int) < -n := by
    have := (past (-n).toNat).mpr lost
    omega
  have unit : asBigInteger 1 = ⟨false, [1]⟩ := by
    have bit : smallHighBit 1 = 0 := by
      rw [smallHighBit_eq]
      rfl
    unfold asBigInteger
    rw [bit]
    decide
  have single : Numeral 256 [1] := ⟨by decide, Or.inl rfl⟩
  obtain ⟨sum, magnitude, sign⟩ := @add_eq ⟨true, digits⟩ ⟨false, [1]⟩ numeral single
  refine ⟨BigInteger.add ⟨true, digits⟩ ⟨false, [1]⟩, ?_, ⟨sum, fun _ => ?_⟩, ?_⟩
  · unfold BigInteger.bitShift
    rw [isZero_eq proper.numeral, decide_eq_false nonzero, if_neg (by simpa using right.ne)]
    simp only [run, low, Option.bind_eq_bind, Option.bind_some]
    rw [if_pos negative, if_pos below, negative]
    simp only [SlateInteger.minus, SlateInteger.dispatch, SlateInteger.coerced, unit,
      BigInteger.minus]
    rfl
  · rw [magnitude]
    exact Nat.succ_ne_zero _
  · have floor := (bitShift_signed i.magnitude n).2 right lost
    have whole : i.value = -(i.magnitude : Int) := by
      rw [BigInteger.value, if_pos negative]
    rw [BigInteger.value, sign, magnitude, if_pos rfl, whole, floor, ← shifted]
    simp only [BigInteger.magnitude, Nat.ofDigits_singleton, Nat.cast_add, Nat.cast_one]
    ring

end Floor

section Canonical

variable {x n : Int}

theorem value_magnitude (i : BigInteger) : i.value.natAbs = i.magnitude := by
  unfold BigInteger.value
  split <;> omega

theorem bitShift_zero (x : Int) : TwosComplement.bitShift x 0 = x := by
  simp [TwosComplement.bitShift]

/-- The numbers that `bitShift:` gives back in another form than it should. -/
def LeftBig (x n : Int) : Prop :=
  x < minimumValue ∧ n < 0 ∧ ¬ 2 ^ (-n).toNat ∣ x ∧ Small (TwosComplement.bitShift x n)

theorem bitShift_small (small : Small x) : (canonical x).bitShift n =
    some (canonical (TwosComplement.bitShift x n)) := by
  rw [canonical_small small, SlateInteger.bitShift, Tagged.primBitshift_eq small]
  by_cases fits : Small (TwosComplement.bitShift x n)
  · rw [if_pos fits, canonical_small fits]
  · obtain ⟨proper, value⟩ := asBigInteger_proper x
    have left : 0 ≤ n := by
      by_contra right
      rw [TwosComplement.bitShift, if_neg right] at fits
      exact fits (Tagged.small_ediv small (Tagged.two_pow_pos _))
    have shifts : n ≠ 0 := by
      rintro rfl
      rw [bitShift_zero] at fits
      exact fits small
    have nonzero : (asBigInteger x).magnitude ≠ 0 := by
      rw [← value_magnitude, value]
      intro zero
      have none : x = 0 := by omega
      subst none
      rw [TwosComplement.bitShift, if_pos left, Int.zero_mul] at fits
      exact fits small
    rw [if_neg fits]
    have result := bitShift_kept proper nonzero shifts fun _ => Or.inl left
    rwa [value] at result

theorem bitShift_floor_iff (x n : Int) :
    (canonical x).bitShift n = some (canonical (TwosComplement.bitShift x n)) ↔ ¬ LeftBig x n := by
  by_cases small : Small x
  · refine iff_of_true (bitShift_small small) ?_
    rintro ⟨below, _⟩
    exact absurd small.1 (Int.not_le.mpr below)
  · obtain ⟨proper, value⟩ := coerced_canonical x
    have size := value_magnitude (canonical x).coerced
    have sign := proper_sign proper
    rw [value] at size sign
    have form := canonical_big small
    have big : (canonical x).bitShift n = (canonical x).coerced.bitShift n := by
      rw [form]
      rfl
    have nonzero : (canonical x).coerced.magnitude ≠ 0 := by
      unfold Small minimumValue maximumValue at small
      omega
    have cast : ((2 ^ (-n).toNat : Nat) : Int) = 2 ^ (-n).toNat := by push_cast; rfl
    have divides : 2 ^ (-n).toNat ∣ (canonical x).coerced.magnitude ↔ (2 : Int) ^ (-n).toNat ∣ x := by
      rw [← size, ← cast]
      exact Int.natCast_dvd.symm
    by_cases shifts : n = 0
    · subst shifts
      refine iff_of_true ?_ fun left => absurd left.2.1 (by decide)
      rw [bitShift_zero, form]
      simp [SlateInteger.bitShift, BigInteger.bitShift]
    · rw [big]
      by_cases lost : x < 0 ∧ n < 0 ∧ ¬ (2 : Int) ^ (-n).toNat ∣ x
      · obtain ⟨negative, right, lost⟩ := lost
        obtain ⟨b, run, proper', floor⟩ := bitShift_lost proper (sign.mpr negative) right
          (fun all => lost (divides.mp all))
        have below : x < minimumValue := by
          unfold Small minimumValue maximumValue at *
          omega
        rw [value] at floor
        rw [run]
        by_cases fits : Small (TwosComplement.bitShift x n)
        · refine iff_of_false ?_ (fun not => not ⟨below, right, lost, fits⟩)
          rw [canonical_small fits]
          simp
        · refine iff_of_true ?_ (fun left => fits left.2.2.2)
          rw [← floor] at fits ⊢
          rw [canonical_of_large proper' fits]
      · have result := bitShift_kept proper nonzero shifts fun negative => by
          by_contra moved
          obtain ⟨right, lost'⟩ := not_or.mp moved
          exact lost ⟨sign.mp negative, by omega, fun all => lost' (divides.mpr all)⟩
        rw [value] at result
        refine iff_of_true result ?_
        rintro ⟨below, right, lost', _⟩
        refine lost ⟨?_, right, lost'⟩
        unfold minimumValue at below
        omega

/-- A shift is the floor of a multiplication, and back again for a shift to the left. -/
structure ShiftExact (x n : Int) : Prop where
  floor : (canonical x).bitShift n = some (canonical (TwosComplement.bitShift x n))
  back : 0 ≤ n → ((canonical x).bitShift n >>= fun y => y.bitShift (-n)) = some (canonical x)

theorem bitShift_back (left : 0 ≤ n) :
    ((canonical x).bitShift n >>= fun y => y.bitShift (-n)) = some (canonical x) := by
  have forth := (bitShift_floor_iff x n).mpr fun moved => absurd moved.2.1 (by omega)
  have whole : TwosComplement.bitShift (TwosComplement.bitShift x n) (-n) = x := by
    by_cases shifts : n = 0
    · subst shifts
      exact (bitShift_zero _).trans (bitShift_zero x)
    · have count : (- -n).toNat = n.toNat := by omega
      rw [TwosComplement.bitShift, if_neg (by omega), TwosComplement.bitShift, if_pos left, count]
      exact Int.mul_ediv_cancel _ (by positivity)
  have exact_back : ¬ LeftBig (TwosComplement.bitShift x n) (-n) := by
    rintro ⟨_, _, lost, _⟩
    apply lost
    have count : (- -n).toNat = n.toNat := by omega
    rw [count, TwosComplement.bitShift, if_pos left]
    exact Dvd.intro_left x rfl
  have again := (bitShift_floor_iff _ _).mpr exact_back
  rw [whole] at again
  rw [forth]
  exact again

/-- Shifting is exact but for negative big integers that lose bits and become small. -/
theorem shift_exact_iff (x n : Int) : ShiftExact x n ↔ ¬ LeftBig x n := by
  rw [← bitShift_floor_iff]
  exact ⟨fun shift => shift.floor, fun floor => ⟨floor, bitShift_back⟩⟩

/-- The least big integer that is negative, shifted by one to the right. -/
theorem shift_left_big : ¬ ShiftExact (minimumValue - 1) (-1) := by
  rw [shift_exact_iff, not_not]
  refine ⟨by decide, by decide, by decide, ?_⟩
  decide

end Canonical

end SlateVm
