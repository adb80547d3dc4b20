import SlateVm.Lib.TwosComplement
import SlateVm.Number.Exact

/-! The logical operations on integers of any size. The digits of two big integers go into two's
complement one by one, are combined, and come out as sign and magnitude again. -/
namespace SlateVm

inductive LogicOp
  | bitAnd
  | bitOr
  | bitXor
  deriving DecidableEq

def primBitor (x y : Int) : Int := (BitVec.ofInt 64 x ||| BitVec.ofInt 64 y).toInt

namespace LogicOp

def applyWith : LogicOp → Int → Int → Int
  | bitAnd => primBitand
  | bitOr => primBitor
  | bitXor => primBitxor

def bit : LogicOp → Bool → Bool → Bool
  | bitAnd => and
  | bitOr => or
  | bitXor => xor

end LogicOp

namespace BigInteger

def complemented (isNegative : Bool) (carry digit : Int) : Int × Int :=
  if isNegative then
    let carry := (carry >>> (8 : Nat)) + primBitxor digit 0xFF
    (carry, intoByte carry)
  else (carry, digit)

/-- The loop of `logicallyCombineWith:by:` over the digits of the bigger number, with the three
carries. It answers the digits of the result and the carry of the result. -/
def combineDigits (logicOp : LogicOp) (smallerNegative biggerNegative resultNegative : Bool) :
    List Nat → List Nat → Int → Int → Int → List Nat × Int
  | _, [], _, _, c => ([], c)
  | smaller, y :: bigger, a, b, c =>
    let (a, x) := complemented smallerNegative a (smaller.headD 0)
    let (b, y) := complemented biggerNegative b y
    let (c, z) := complemented resultNegative c (logicOp.applyWith x y)
    let (digits, last) := combineDigits logicOp smallerNegative biggerNegative resultNegative
      smaller.tail bigger a b c
    ((z % 256).toNat :: digits, last)

def signFlag (isNegative : Bool) : Int := if isNegative then 1 else 0

def signDigit (isNegative : Bool) : Int := if isNegative then 0xFF else 0

def logicallyCombineWith (i1 i2 : BigInteger) (logicOp : LogicOp) : Option SlateInteger :=
  let (smaller, bigger) := if i1.size < i2.size then (i1, i2) else (i2, i1)
  let isNegative : Bool :=
    logicOp.applyWith (signFlag smaller.isNegative) (signFlag bigger.isNegative) = 1
  let (digits, c) := combineDigits logicOp smaller.isNegative bigger.isNegative isNegative
    smaller.digits bigger.digits 0x100 0x100 0x100
  let z := logicOp.applyWith (signDigit smaller.isNegative) (signDigit bigger.isNegative)
  let (_, z) := complemented isNegative c z
  shrunkToFit ⟨isNegative, digits ++ [(z % 256).toNat]⟩

end BigInteger

def SlateInteger.logical (logicOp : LogicOp) : SlateInteger → SlateInteger → Option SlateInteger :=
  dispatch (fun x y => some (small (logicOp.applyWith x y)))
    fun i1 i2 => i1.logicallyCombineWith i2 logicOp

section Primitives

open TwosComplement

theorem fits_of_small {x : Int} (small : Small x) : Fits 62 x := by
  unfold Small minimumValue maximumValue at small
  exact ⟨small.1, by omega⟩

theorem small_of_fits {x : Int} (fits : Fits 62 x) : Small x := by
  unfold Fits at fits
  unfold Small minimumValue maximumValue
  omega

theorem toInt_of_fits {x : Int} (fits : Fits 62 x) : (BitVec.ofInt 64 x).toInt = x := by
  unfold Fits at fits
  exact toInt_ofInt (by omega) (by omega)

theorem applyWith_eq (logicOp : LogicOp) {x y : Int} (hx : Small x) (hy : Small y) :
    logicOp.applyWith x y = Int.bitwise logicOp.bit x y ∧ Small (logicOp.applyWith x y) := by
  have fits1 := fits_of_small hx
  have fits2 := fits_of_small hy
  cases logicOp with
  | bitAnd =>
    have word : primBitand x y = Int.land x y := by
      unfold primBitand
      rw [← ofInt_land, toInt_of_fits (fits_land fits1 fits2)]
    simp only [LogicOp.applyWith, LogicOp.bit, word]
    exact ⟨congrFun (congrFun Int.bitwise_and x) y |>.symm, small_of_fits (fits_land fits1 fits2)⟩
  | bitOr =>
    have word : primBitor x y = Int.lor x y := by
      unfold primBitor
      rw [← ofInt_lor, toInt_of_fits (fits_lor fits1 fits2)]
    simp only [LogicOp.applyWith, LogicOp.bit, word]
    exact ⟨congrFun (congrFun Int.bitwise_or x) y |>.symm, small_of_fits (fits_lor fits1 fits2)⟩
  | bitXor =>
    have word : primBitxor x y = Int.xor x y := by
      unfold primBitxor
      rw [← ofInt_xor, toInt_of_fits (fits_xor fits1 fits2)]
    simp only [LogicOp.applyWith, LogicOp.bit, word]
    exact ⟨congrFun (congrFun Int.bitwise_xor x) y |>.symm, small_of_fits (fits_xor fits1 fits2)⟩

theorem primBitxor_byte {d : Int} (byte : 0 ≤ d ∧ d < 256) : primBitxor d 0xFF = 255 - d := by
  have flip : ∀ m < 256, primBitxor (m : Nat) 0xFF = 255 - (m : Nat) := by decide +kernel
  have same := flip d.toNat (by omega)
  rwa [Int.toNat_of_nonneg byte.1] at same

end Primitives

section Bytes

variable {f : Bool → Bool → Bool}

theorem bitwise_split (none : f false false = false) (k : Nat) {x y : Int} (X Y : Int)
    (hx : 0 ≤ x ∧ x < 2 ^ k) (hy : 0 ≤ y ∧ y < 2 ^ k) :
    Int.bitwise f (x + 2 ^ k * X) (y + 2 ^ k * Y) =
      Int.bitwise f x y + 2 ^ k * Int.bitwise f X Y ∧
    0 ≤ Int.bitwise f x y ∧ Int.bitwise f x y < 2 ^ k := by
  induction k generalizing x y with
  | zero =>
    obtain rfl : x = 0 := by omega
    obtain rfl : y = 0 := by omega
    have zero : Int.bitwise f 0 0 = 0 := by
      change Int.natBitwise f 0 0 = 0
      simp [Int.natBitwise, none]
    simp [zero]
  | succ k ih =>
    have power : (2 : Int) ^ (k + 1) = 2 * 2 ^ k := by ring
    rw [power] at hx hy ⊢
    have low (z : Int) : z = Int.bit (Int.bodd z) (Int.div2 z) := (Int.bit_decomp z).symm
    have half (z : Int) : Int.div2 z = z / 2 := Int.div2_val z
    have above (z Z : Int) : z + 2 * 2 ^ k * Z = Int.bit (Int.bodd z) (Int.div2 z + 2 ^ k * Z) := by
      have whole := Int.bodd_add_div2 z
      rw [Int.bit_val]
      cases bit : Int.bodd z <;> rw [bit] at whole <;> simp only [cond_true, cond_false] at *
      · linear_combination -whole
      · linear_combination -whole
    obtain ⟨sum, least, most⟩ := @ih (Int.div2 x) (Int.div2 y)
      (by rw [half]; omega) (by rw [half]; omega)
    have here : Int.bitwise f x y = Int.bit (f (Int.bodd x) (Int.bodd y))
        (Int.bitwise f (Int.div2 x) (Int.div2 y)) := by
      conv_lhs => rw [low x, low y]
      exact Int.bitwise_bit f _ _ _ _
    rw [above x X, above y Y, Int.bitwise_bit, sum, here, Int.bit_val, Int.bit_val]
    cases f (Int.bodd x) (Int.bodd y) <;> simp only [cond_true, cond_false]
    · exact ⟨by ring, by omega, by omega⟩
    · exact ⟨by ring, by omega, by omega⟩

theorem bit_none (logicOp : LogicOp) : logicOp.bit false false = false := by
  cases logicOp <;> rfl

theorem bitwise_byte (logicOp : LogicOp) {x y : Int} (X Y : Int) (hx : 0 ≤ x ∧ x < 256)
    (hy : 0 ≤ y ∧ y < 256) :
    Int.bitwise logicOp.bit (x + 256 * X) (y + 256 * Y) =
      logicOp.applyWith x y + 256 * Int.bitwise logicOp.bit X Y ∧
    0 ≤ logicOp.applyWith x y ∧ logicOp.applyWith x y < 256 := by
  have small {z : Int} (byte : 0 ≤ z ∧ z < 256) : Small z := by
    unfold Small minimumValue maximumValue
    omega
  rw [(applyWith_eq logicOp (small hx) (small hy)).1]
  exact bitwise_split (bit_none logicOp) 8 X Y hx hy

end Bytes

section Loop

namespace BigInteger

def turned (isNegative : Bool) (carry rest : Int) : Int :=
  if isNegative then carry / 256 - 1 - rest else rest

theorem complemented_step {isNegative : Bool} {carry digit : Int} (rest : Int)
    (range : 0 ≤ carry ∧ carry < 512) (byte : 0 ≤ digit ∧ digit < 256) :
    (0 ≤ (complemented isNegative carry digit).1 ∧ (complemented isNegative carry digit).1 < 512) ∧
    (0 ≤ (complemented isNegative carry digit).2 ∧ (complemented isNegative carry digit).2 < 256) ∧
    turned isNegative carry (digit + 256 * rest) = (complemented isNegative carry digit).2 +
      256 * turned isNegative (complemented isNegative carry digit).1 rest := by
  unfold complemented turned
  cases isNegative with
  | false => exact ⟨range, byte, rfl⟩
  | true =>
    simp only [if_true, shift_right_byte, primBitxor_byte byte, intoByte_eq]
    omega

theorem ofDigits_head (ds : List Nat) :
    ((Nat.ofDigits 256 ds : Nat) : Int) = ds.headD 0 + 256 * (Nat.ofDigits 256 ds.tail : Nat) := by
  cases ds with
  | nil => simp
  | cons d ds => simp [Nat.ofDigits_cons]

theorem combineDigits_length (logicOp : LogicOp) (s t r : Bool) (smaller bigger : List Nat)
    (a b c : Int) : (combineDigits logicOp s t r smaller bigger a b c).1.length = bigger.length := by
  induction bigger generalizing smaller a b c with
  | nil => simp [combineDigits]
  | cons y bigger ih =>
    simp only [combineDigits, List.length_cons]
    rw [ih]

theorem combineDigits_bytes (logicOp : LogicOp) (s t r : Bool) (smaller bigger : List Nat)
    (a b c : Int) : ∀ d ∈ (combineDigits logicOp s t r smaller bigger a b c).1, d < 256 := by
  induction bigger generalizing smaller a b c with
  | nil => simp [combineDigits]
  | cons y bigger ih =>
    simp only [combineDigits, List.forall_mem_cons]
    exact ⟨by omega, ih _ _ _ _⟩

theorem combineDigits_value (logicOp : LogicOp) {s t r : Bool} {smaller bigger : List Nat}
    {a b c : Int} (one : ∀ d ∈ smaller, d < 256) (other : ∀ d ∈ bigger, d < 256)
    (rangeA : 0 ≤ a ∧ a < 512) (rangeB : 0 ≤ b ∧ b < 512) (rangeC : 0 ≤ c ∧ c < 512) {x y : Int}
    (first : x = turned s a (Nat.ofDigits 256 smaller : Nat))
    (second : y = turned t b (Nat.ofDigits 256 bigger : Nat)) :
    (0 ≤ (combineDigits logicOp s t r smaller bigger a b c).2 ∧
      (combineDigits logicOp s t r smaller bigger a b c).2 < 512) ∧
    ((Nat.ofDigits 256 (combineDigits logicOp s t r smaller bigger a b c).1 : Nat) : Int) +
        256 ^ bigger.length * turned r (combineDigits logicOp s t r smaller bigger a b c).2
          (Int.bitwise logicOp.bit (x / 256 ^ bigger.length) (y / 256 ^ bigger.length)) =
      turned r c (Int.bitwise logicOp.bit x y) := by
  induction bigger generalizing smaller a b c x y with
  | nil => simpa [combineDigits] using rangeC
  | cons d bigger ih =>
    have byte1 : 0 ≤ ((smaller.headD 0 : Nat) : Int) ∧ ((smaller.headD 0 : Nat) : Int) < 256 := by
      cases smaller with
      | nil => simp
      | cons e smaller => exact ⟨by omega, by exact_mod_cast one e List.mem_cons_self⟩
    have byte2 : 0 ≤ (d : Int) ∧ (d : Int) < 256 :=
      ⟨by omega, by exact_mod_cast other d List.mem_cons_self⟩
    obtain ⟨rangeA', digit1, step1⟩ :=
      @complemented_step s a _ (Nat.ofDigits 256 smaller.tail : Nat) rangeA byte1
    obtain ⟨rangeB', digit2, step2⟩ :=
      @complemented_step t b _ (Nat.ofDigits 256 bigger : Nat) rangeB byte2
    rw [ofDigits_head, step1] at first
    rw [ofDigits_head, List.headD_cons, List.tail_cons, step2] at second
    simp only [combineDigits]
    generalize complemented s a (smaller.headD 0) = p at *
    generalize complemented t b d = q at *
    obtain ⟨a', x'⟩ := p
    obtain ⟨b', y'⟩ := q
    simp only at *
    generalize restX : turned s a' (Nat.ofDigits 256 smaller.tail : Nat) = X at *
    generalize restY : turned t b' (Nat.ofDigits 256 bigger : Nat) = Y at *
    obtain ⟨together, digit⟩ := bitwise_byte logicOp X Y digit1 digit2
    obtain ⟨rangeC', digit3, step3⟩ :=
      @complemented_step r c _ (Int.bitwise logicOp.bit X Y) rangeC digit
    generalize complemented r c (logicOp.applyWith x' y') = w at *
    obtain ⟨c', z⟩ := w
    simp only at *
    obtain ⟨range, rest⟩ := ih (fun e here => one e (List.mem_of_mem_tail here))
      (fun e here => other e (List.mem_cons_of_mem d here)) rangeA' rangeB' rangeC' restX.symm
      restY.symm
    refine ⟨range, ?_⟩
    have down (v V : Int) (byte : 0 ≤ v ∧ v < 256) :
        (v + 256 * V) / 256 ^ (bigger.length + 1) = V / 256 ^ bigger.length := by
      rw [pow_succ', ← Int.ediv_ediv_of_nonneg (by decide)]
      congr 1
      omega
    have kept : ((z % 256).toNat : Int) = z := by omega
    rw [List.length_cons, first, second, together, step3, down _ _ digit1, down _ _ digit2,
      ← rest, Nat.ofDigits_cons, pow_succ']
    push_cast
    rw [kept]
    ring

end BigInteger

end Loop

section Exact

theorem turned_start (isNegative : Bool) (magnitude : Nat) :
    BigInteger.turned isNegative 0x100 magnitude = signed isNegative magnitude := by
  cases isNegative <;> simp [BigInteger.turned, signed]

theorem signed_ediv {isNegative : Bool} {magnitude n : Nat} (bound : magnitude < 256 ^ n)
    (nonzero : isNegative = true → magnitude ≠ 0) :
    signed isNegative magnitude / 256 ^ n = if isNegative then -1 else 0 := by
  have bound' : (magnitude : Int) < 256 ^ n := by exact_mod_cast bound
  cases isNegative with
  | false => exact Int.ediv_eq_zero_of_lt (by simp [signed]) (by simpa [signed] using bound')
  | true =>
    have positive := nonzero rfl
    simp only [signed, if_true]
    rw [Int.ediv_eq_iff_of_pos (by positivity)]
    omega

theorem sign_fill (logicOp : LogicOp) (s t : Bool) :
    Int.bitwise logicOp.bit (if s then -1 else 0) (if t then -1 else 0) =
      (if logicOp.applyWith (BigInteger.signFlag s) (BigInteger.signFlag t) = 1 then -1 else 0) ∧
    logicOp.applyWith (BigInteger.signDigit s) (BigInteger.signDigit t) =
      if logicOp.applyWith (BigInteger.signFlag s) (BigInteger.signFlag t) = 1 then 255 else 0 := by
  cases logicOp <;> cases s <;> cases t <;> decide +kernel

theorem logicallyCombineWith_of {smaller bigger : BigInteger} (logicOp : LogicOp)
    (one : smaller.Proper) (other : bigger.Proper) (sizes : smaller.size ≤ bigger.size) {r : Bool}
    (sign : r = decide (logicOp.applyWith (BigInteger.signFlag smaller.isNegative)
      (BigInteger.signFlag bigger.isNegative) = 1)) :
    BigInteger.shrunkToFit ⟨r, (BigInteger.combineDigits logicOp smaller.isNegative
      bigger.isNegative r smaller.digits bigger.digits 0x100 0x100 0x100).1 ++
        [((BigInteger.complemented r (BigInteger.combineDigits logicOp smaller.isNegative
          bigger.isNegative r smaller.digits bigger.digits 0x100 0x100 0x100).2
          (logicOp.applyWith (BigInteger.signDigit smaller.isNegative)
            (BigInteger.signDigit bigger.isNegative))).2 % 256).toNat]⟩ =
      some (canonical (Int.bitwise logicOp.bit smaller.value bigger.value)) := by
  obtain ⟨fillFlag, fillDigit⟩ := sign_fill logicOp smaller.isNegative bigger.isNegative
  obtain ⟨range, value⟩ := @BigInteger.combineDigits_value logicOp smaller.isNegative
    bigger.isNegative r smaller.digits bigger.digits 0x100 0x100 0x100 one.numeral.digits
    other.numeral.digits (by decide) (by decide) (by decide) smaller.value bigger.value
    (turned_start _ _).symm (turned_start _ _).symm
  have length := BigInteger.combineDigits_length logicOp smaller.isNegative bigger.isNegative r
    smaller.digits bigger.digits 0x100 0x100 0x100
  have bytes := BigInteger.combineDigits_bytes logicOp smaller.isNegative bigger.isNegative r
    smaller.digits bigger.digits 0x100 0x100 0x100
  generalize BigInteger.combineDigits logicOp smaller.isNegative bigger.isNegative r
    smaller.digits bigger.digits 0x100 0x100 0x100 = loop at *
  obtain ⟨digits, last⟩ := loop
  simp only at *
  have bound1 : smaller.magnitude < 256 ^ bigger.digits.length :=
    (one.numeral.lt (by decide)).trans_le (Nat.pow_le_pow_right (by decide) sizes)
  have bound2 : bigger.magnitude < 256 ^ bigger.digits.length := other.numeral.lt (by decide)
  rw [value_eq_signed, value_eq_signed, signed_ediv bound1 one.signed,
    signed_ediv bound2 other.signed, fillFlag] at value
  rw [fillDigit, shrunkToFit_eq]
  · congr 2
    rw [BigInteger.value, BigInteger.magnitude, Nat.ofDigits_append, length,
      Nat.ofDigits_singleton, value_eq_signed, value_eq_signed]
    by_cases negative : logicOp.applyWith (BigInteger.signFlag smaller.isNegative)
      (BigInteger.signFlag bigger.isNegative) = 1
    · rw [decide_eq_true negative] at sign
      subst sign
      simp only [negative, if_true, BigInteger.turned, BigInteger.complemented, shift_right_byte,
        primBitxor_byte (d := 255) (by decide), intoByte_eq] at value ⊢
      have kept : (((last / 256 + (255 - 255)) % 256 % 256).toNat : Int) = last / 256 := by omega
      have unit : (256 : Int) / 256 = 1 := by decide
      rw [unit] at value
      simp only [Nat.cast_add, Nat.cast_mul, Nat.cast_pow, Nat.cast_ofNat, kept]
      linear_combination -value
    · rw [decide_eq_false negative] at sign
      subst sign
      simp only [negative, if_false, BigInteger.turned, BigInteger.complemented,
        Bool.false_eq_true] at value ⊢
      simpa using value
  · intro d here
    rcases List.mem_append.mp here with here | here
    · exact bytes d here
    · rw [List.mem_singleton.mp here]
      omega

theorem bit_comm (logicOp : LogicOp) (p q : Bool) : logicOp.bit p q = logicOp.bit q p := by
  cases logicOp <;> cases p <;> cases q <;> rfl

theorem logicallyCombineWith_eq {i1 i2 : BigInteger} (logicOp : LogicOp) (one : i1.Proper)
    (other : i2.Proper) : ∃ z, i1.logicallyCombineWith i2 logicOp = some (canonical z) ∧
      (z = Int.bitwise logicOp.bit i1.value i2.value ∨
        z = Int.bitwise logicOp.bit i2.value i1.value) := by
  unfold BigInteger.logicallyCombineWith
  by_cases shorter : i1.size < i2.size
  · simp only [shorter, if_true]
    exact ⟨_, logicallyCombineWith_of logicOp one other shorter.le rfl, Or.inl rfl⟩
  · simp only [shorter, if_false]
    exact ⟨_, logicallyCombineWith_of logicOp other one (Nat.not_lt.mp shorter) rfl, Or.inr rfl⟩

theorem logical_eq (logicOp : LogicOp) (x y : Int) :
    ∃ z, (canonical x).logical logicOp (canonical y) = some (canonical z) ∧
      (z = Int.bitwise logicOp.bit x y ∨ z = Int.bitwise logicOp.bit y x) := by
  by_cases both : Small x ∧ Small y
  · obtain ⟨small1, small2⟩ := both
    obtain ⟨bits, small⟩ := applyWith_eq logicOp small1 small2
    refine ⟨logicOp.applyWith x y, ?_, Or.inl bits⟩
    rw [canonical_small small1, canonical_small small2, canonical_small small]
    rfl
  · obtain ⟨one, value1⟩ := coerced_canonical x
    obtain ⟨other, value2⟩ := coerced_canonical y
    obtain ⟨z, result, bits⟩ := logicallyCombineWith_eq logicOp one other
    rw [value1, value2] at bits
    refine ⟨z, ?_, bits⟩
    rw [← result]
    by_cases small : Small x
    · rw [canonical_small small, canonical_big fun small' => both ⟨small, small'⟩]
      rfl
    · rw [canonical_big small]
      rfl

/-- `bitAnd:`, `bitOr:` and `bitXor:` are those of infinite two's complement. -/
theorem logical_exact (logicOp : LogicOp) (x y : Int) :
    ∃ z, (canonical x).logical logicOp (canonical y) = some (canonical z) ∧
      ∀ k, z.testBit k = logicOp.bit (x.testBit k) (y.testBit k) := by
  obtain ⟨z, result, inOrder | swapped⟩ := logical_eq logicOp x y
  · exact ⟨z, result, fun k => by rw [inOrder, Int.testBit_bitwise]⟩
  · exact ⟨z, result, fun k => by rw [swapped, Int.testBit_bitwise, bit_comm]⟩

end Exact

end SlateVm
