import SlateVm.Number.SmallInteger
import SlateVm.Lib.TwosComplement
import Mathlib.Algebra.Order.Ring.Int

/-! The small integer primitives on the words that stand for objects: what each stores on the
stack or which handler it calls, compared with the integers themselves. -/
namespace SlateVm.Tagged

open TwosComplement

def objectIsSmallint (o : Word) : Bool := (o &&& 1) == 1

def objectToSmallint (o : Word) : Word := o.sshiftRight 1

def smallintToObject (i : Word) : Word := (i <<< 1) ||| 1

inductive Special where
  | addOverflow
  | subtractOverflow
  | multiplyOverflow
  | bitShiftOverflow
  | divideByZero
  | typeErrorOn
  deriving DecidableEq, Repr

/-- A primitive leaves an object at the result stack pointer or calls a special handler. -/
inductive Outcome where
  | stores (o : Word)
  | signals (handler : Special) (arguments : List Word)
  deriving DecidableEq, Repr

def assureSmallintArg (arg : Word) (body : Outcome) : Outcome :=
  if objectIsSmallint arg then body else .signals .typeErrorOn [arg]

def primBitand (x y : Word) : Outcome :=
  assureSmallintArg x (assureSmallintArg y (.stores (x &&& y)))

def primBitor (x y : Word) : Outcome :=
  assureSmallintArg x (assureSmallintArg y (.stores (x ||| y)))

def primBitxor (x y : Word) : Outcome :=
  assureSmallintArg x (assureSmallintArg y (.stores ((x ^^^ y) ||| 1)))

def primBitnot (x : Word) : Outcome := assureSmallintArg x (.stores (~~~x ||| 1))

def primPlus (x y : Word) : Outcome :=
  let z := objectToSmallint x + objectToSmallint y
  assureSmallintArg x (assureSmallintArg y
    (if smallintFitsObject z then .stores (smallintToObject z)
    else .signals .addOverflow [x, y]))

def primMinus (x y : Word) : Outcome :=
  let z := objectToSmallint x - objectToSmallint y
  assureSmallintArg x (assureSmallintArg y
    (if smallintFitsObject z then .stores (smallintToObject z)
    else .signals .subtractOverflow [x, y]))

def primTimes (x y : Word) : Outcome :=
  let i := objectToSmallint x
  let j := objectToSmallint y
  let z := i * j
  assureSmallintArg x (assureSmallintArg y
    (if j ≠ 0 ∧ (z.sdiv j ≠ i ∨ ¬ smallintFitsObject z) then .signals .multiplyOverflow [x, y]
    else .stores (smallintToObject z)))

def primQuo (x y : Word) : Outcome :=
  assureSmallintArg x (assureSmallintArg y
    (if objectToSmallint y = 0 then .signals .divideByZero [x, y]
    else .stores (smallintToObject ((objectToSmallint x).sdiv (objectToSmallint y)))))

def primBitshift (x y : Word) : Outcome :=
  let bits := objectToSmallint x
  let shift := (objectToSmallint y).toInt
  assureSmallintArg x (assureSmallintArg y
    (if 0 ≤ shift then
      if 64 ≤ shift ∧ bits ≠ 0 then .signals .bitShiftOverflow [x, y]
      else
        -- zero stays zero, however the machine takes a count past the word
        let z := bits <<< shift.toNat
        if ¬ smallintFitsObject z ∨ z.sshiftRight shift.toNat ≠ bits then
          .signals .bitShiftOverflow [x, y]
        else .stores (smallintToObject z)
    else if shift ≤ -64 then .stores (smallintToObject (bits.sshiftRight 63))
    else .stores (smallintToObject (bits.sshiftRight (-shift).toNat))))

abbrev SmallInteger := { o : Word // objectIsSmallint o = true }

def SmallInteger.value (x : SmallInteger) : Int := (objectToSmallint x.1).toInt

inductive Operation where
  | plus
  | minus
  | times
  | quo
  | bitShift
  | bitAnd
  | bitOr
  | bitXor
  | bitNot
  deriving DecidableEq, Repr

def perform : Operation → Word → Word → Outcome
  | .plus, x, y => primPlus x y
  | .minus, x, y => primMinus x y
  | .times, x, y => primTimes x y
  | .quo, x, y => primQuo x y
  | .bitShift, x, y => primBitshift x y
  | .bitAnd, x, y => primBitand x y
  | .bitOr, x, y => primBitor x y
  | .bitXor, x, y => primBitxor x y
  | .bitNot, x, _ => primBitnot x

def Operation.result : Operation → Int → Int → Int
  | .plus, x, y => x + y
  | .minus, x, y => x - y
  | .times, x, y => x * y
  | .quo, x, y => x.tdiv y
  | .bitShift, x, y => TwosComplement.bitShift x y
  | .bitAnd, x, y => Int.land x y
  | .bitOr, x, y => Int.lor x y
  | .bitXor, x, y => Int.xor x y
  | .bitNot, x, _ => -x - 1

def Operation.overflow : Operation → Option Special
  | .plus => some .addOverflow
  | .minus => some .subtractOverflow
  | .times => some .multiplyOverflow
  | .bitShift => some .bitShiftOverflow
  | .quo | .bitAnd | .bitOr | .bitXor | .bitNot => none

def Operation.Divides (op : Operation) (y : Int) : Prop := op = .quo → y ≠ 0

def Exact (op : Operation) (x y : SmallInteger) : Prop :=
  match perform op x.1 y.1 with
  | .stores o => op.Divides y.value ∧ objectIsSmallint o = true ∧
      (objectToSmallint o).toInt = op.result x.value y.value
  | .signals handler arguments => arguments = [x.1, y.1] ∧
      ((¬ op.Divides y.value ∧ handler = .divideByZero) ∨
        (op.Divides y.value ∧ ¬ Small (op.result x.value y.value) ∧
          ∀ special ∈ op.overflow, handler = special))

theorem smallintToObject_eq (i : Word) :
    smallintToObject i = BitVec.ofInt 64 (2 * i.toInt + 1) := by
  have free : (i <<< 1) &&& 1 = (0 : Word) := by
    apply BitVec.eq_of_getLsbD_eq
    intro k inWord
    by_cases first : k = 0
    · subst first
      simp
    · simp [first]
  have double : i <<< 1 = i * BitVec.ofInt 64 2 := by
    rw [BitVec.shiftLeft_eq_mul_twoPow]
    rfl
  unfold smallintToObject
  rw [← BitVec.add_eq_or_of_and_eq_zero _ _ free, double, BitVec.ofInt_add, BitVec.ofInt_mul,
    BitVec.ofInt_toInt, BitVec.mul_comm]
  rfl

theorem objectIsSmallint_tag (i : Word) : objectIsSmallint (smallintToObject i) = true := by
  have low : (smallintToObject i) &&& 1 = 1 := by
    apply BitVec.eq_of_getLsbD_eq
    intro k inWord
    by_cases first : k = 0
    · subst first
      simp [smallintToObject]
    · simp [first]
  unfold objectIsSmallint
  rw [low]
  rfl

theorem objectToSmallint_tag {i : Word} (fits : Small i.toInt) :
    (objectToSmallint (smallintToObject i)).toInt = i.toInt := by
  unfold Small minimumValue maximumValue at fits
  unfold objectToSmallint
  rw [BitVec.toInt_sshiftRight, smallintToObject_eq, toInt_ofInt (by omega) (by omega),
    Int.shiftRight_eq_div_pow]
  omega

theorem SmallInteger.value_small (x : SmallInteger) : Small x.value := by
  have low := BitVec.le_toInt x.1
  have high := BitVec.toInt_lt (x := x.1)
  unfold SmallInteger.value objectToSmallint Small minimumValue maximumValue
  rw [BitVec.toInt_sshiftRight, Int.shiftRight_eq_div_pow]
  omega

theorem SmallInteger.tagged (x : SmallInteger) : objectIsSmallint x.1 = true := x.2

theorem SmallInteger.word (x : SmallInteger) :
    objectToSmallint x.1 = BitVec.ofInt 64 x.value := (BitVec.ofInt_toInt).symm

theorem assured (x : SmallInteger) (body : Outcome) : assureSmallintArg x.1 body = body := by
  simp only [assureSmallintArg, x.tagged, if_true]

def answered (handler : Special) (x y : Word) : Option Int → Outcome
  | some z => .stores (smallintToObject (BitVec.ofInt 64 z))
  | none => .signals handler [x, y]

theorem stored_exact {op : Operation} {x y : SmallInteger} {z : Word}
    (divides : op.Divides y.value) (fits : Small z.toInt)
    (stored : perform op x.1 y.1 = .stores (smallintToObject z))
    (same : z.toInt = op.result x.value y.value) : Exact op x y := by
  unfold Exact
  rw [stored]
  exact ⟨divides, objectIsSmallint_tag z, (objectToSmallint_tag fits).trans same⟩

theorem answered_exact {op : Operation} {x y : SmallInteger} {answer : Option Int}
    {handler : Special} (divides : op.Divides y.value) (special : op.overflow = some handler)
    (performed : perform op x.1 y.1 = answered handler x.1 y.1 answer)
    (right : answer = if Small (op.result x.value y.value) then
      some (op.result x.value y.value) else none) : Exact op x y := by
  by_cases fits : Small (op.result x.value y.value)
  · rw [if_pos fits] at right
    subst right
    have range := fits
    unfold Small minimumValue maximumValue at range
    have word := toInt_ofInt (z := op.result x.value y.value) (by omega) (by omega)
    exact stored_exact divides (word.symm ▸ fits) performed word
  · rw [if_neg fits] at right
    subst right
    unfold Exact
    rw [performed]
    refine ⟨rfl, Or.inr ⟨divides, fits, ?_⟩⟩
    intro other found
    rw [special] at found
    exact Option.some.inj found

theorem plus_exact (x y : SmallInteger) : Exact .plus x y := by
  have performed : perform .plus x.1 y.1 =
      answered .addOverflow x.1 y.1 (SlateVm.primPlus x.value y.value) := by
    simp only [perform, primPlus, assured, SlateVm.primPlus, x.word, y.word]
    split <;> simp only [answered, BitVec.ofInt_toInt]
  exact answered_exact (fun quo => nomatch quo) rfl performed
    (primPlus_eq x.value_small y.value_small)

theorem minus_exact (x y : SmallInteger) : Exact .minus x y := by
  have performed : perform .minus x.1 y.1 =
      answered .subtractOverflow x.1 y.1 (SlateVm.primMinus x.value y.value) := by
    simp only [perform, primMinus, assured, SlateVm.primMinus, x.word, y.word]
    split <;> simp only [answered, BitVec.ofInt_toInt]
  exact answered_exact (fun quo => nomatch quo) rfl performed
    (primMinus_eq x.value_small y.value_small)

theorem SmallInteger.word_eq_iff (x : SmallInteger) (w : Word) :
    w = BitVec.ofInt 64 x.value ↔ w.toInt = x.value := by
  have range := x.value_small
  unfold Small minimumValue maximumValue at range
  have word := toInt_ofInt (z := x.value) (by omega) (by omega)
  constructor
  · intro same
    rw [same, word]
  · intro same
    rw [← same, BitVec.ofInt_toInt]

theorem SmallInteger.word_eq_zero (x : SmallInteger) :
    BitVec.ofInt 64 x.value = 0 ↔ x.value = 0 := by
  have zero := x.word_eq_iff 0
  rw [eq_comm, zero, eq_comm]
  rfl

theorem quotient_eq_iff (z : Word) (x y : SmallInteger) :
    z.sdiv (BitVec.ofInt 64 y.value) = BitVec.ofInt 64 x.value ↔
      z.toInt.tdiv y.value = x.value := by
  have word := (y.word_eq_iff _).mp rfl
  have range := x.value_small
  unfold Small minimumValue maximumValue at range
  have low := BitVec.le_toInt z
  have high := BitVec.toInt_lt (x := z)
  have size : (z.toInt.tdiv y.value).natAbs ≤ z.toInt.natAbs := by
    rw [Int.natAbs_tdiv]
    exact Nat.div_le_self _ _
  rw [x.word_eq_iff, BitVec.toInt_sdiv, word]
  by_cases top : z.toInt.tdiv y.value = 2 ^ 63
  · rw [top]
    have wrapped : Int.bmod (2 ^ 63) (2 ^ 64) = -(2 ^ 63) := by decide
    rw [wrapped]
    omega
  · rw [Int.bmod_eq_of_le (by omega) (by omega)]

theorem times_exact (x y : SmallInteger) : Exact .times x y := by
  have performed : perform .times x.1 y.1 =
      answered .multiplyOverflow x.1 y.1 (SlateVm.primTimes x.value y.value) := by
    simp only [perform, primTimes, assured, SlateVm.primTimes, x.word, y.word, ne_eq,
      y.word_eq_zero, quotient_eq_iff]
    split <;> simp only [answered, BitVec.ofInt_toInt]
  exact answered_exact (fun quo => nomatch quo) rfl performed (primTimes_eq y.value_small)

theorem small_ediv {x : Int} (small : Small x) {p : Int} (positive : 0 < p) : Small (x / p) := by
  unfold Small minimumValue maximumValue at small ⊢
  have low : -(2 ^ 62) ≤ x / p := by
    rw [Int.le_ediv_iff_mul_le positive]
    have least : -(2 ^ 62) * p ≤ -(2 ^ 62) * 1 := Int.mul_le_mul_of_nonpos_left (by decide) positive
    omega
  have high : x / p < 2 ^ 62 := by
    rw [Int.ediv_lt_iff_lt_mul positive]
    have most : 2 ^ 62 * 1 ≤ 2 ^ 62 * p := Int.mul_le_mul_of_nonneg_left positive (by decide)
    omega
  omega

theorem two_pow_pos (k : Nat) : (0 : Int) < 2 ^ k := pow_pos (by decide) k

theorem ediv_sign {x : Int} (small : Small x) {k : Nat} (wide : 62 ≤ k) :
    x / 2 ^ k = if x < 0 then -1 else 0 := by
  unfold Small minimumValue maximumValue at small
  have power : (2 : Int) ^ 62 ≤ 2 ^ k := pow_le_pow_right₀ (by decide) wide
  split
  · rename_i negative
    exact Int.ediv_eq_neg_one_of_neg_of_le negative (by omega)
  · rename_i natural
    exact Int.ediv_eq_zero_of_lt (by omega) (by omega)

theorem shifted_back {bits : Int} {k : Nat} (inWord : k < 64) (small : Small bits)
    (back : (BitVec.ofInt 64 bits <<< k).sshiftRight k = BitVec.ofInt 64 bits) :
    (BitVec.ofInt 64 bits <<< k).toInt = bits * 2 ^ k := by
  have power : (2 : Int) ^ k < 2 ^ 64 := pow_lt_pow_right₀ (by decide) inWord
  have shifted : BitVec.ofInt 64 bits <<< k = BitVec.ofInt 64 (bits * 2 ^ k) := by
    rw [BitVec.shiftLeft_eq_mul_twoPow, BitVec.ofInt_mul]
    congr 1
    apply BitVec.eq_of_toNat_eq
    have cast : (2 : Int) ^ k = ((2 ^ k : Nat) : Int) := by push_cast; rfl
    rw [BitVec.toNat_twoPow, cast, BitVec.ofInt_natCast, BitVec.toNat_ofNat]
  have wrapped : (BitVec.ofInt 64 bits <<< k).toInt = (bits * 2 ^ k).bmod (2 ^ 64) := by
    rw [shifted, BitVec.toInt_ofInt]
  have lost := Int.bmod_add_bdiv (bits * 2 ^ k) (2 ^ 64)
  have quotient := congrArg BitVec.toInt back
  unfold Small minimumValue maximumValue at small
  rw [BitVec.toInt_sshiftRight, toInt_ofInt (by omega) (by omega), Int.shiftRight_eq_div_pow]
    at quotient
  push_cast at quotient
  have parts := Int.mul_ediv_add_emod (BitVec.ofInt 64 bits <<< k).toInt (2 ^ k)
  have remainder := Int.emod_lt_of_pos (BitVec.ofInt 64 bits <<< k).toInt (two_pow_pos k)
  have natural := Int.emod_nonneg (BitVec.ofInt 64 bits <<< k).toInt (two_pow_pos k).ne'
  rw [quotient, Int.mul_comm] at parts
  rw [← wrapped] at lost
  omega

theorem not_small_wide {bits : Int} (nonzero : bits ≠ 0) {k : Nat} (wide : 64 ≤ k) :
    ¬ Small (bits * 2 ^ k) := by
  have power : (2 : Int) ^ 64 ≤ 2 ^ k := pow_le_pow_right₀ (by decide) wide
  unfold Small minimumValue maximumValue
  rcases Int.lt_or_gt_of_ne nonzero with negative | positive
  · have below : bits * 2 ^ k ≤ -1 * 2 ^ k :=
      Int.mul_le_mul_of_nonneg_right (by omega) (by omega)
    omega
  · have above : 1 * 2 ^ k ≤ bits * 2 ^ k :=
      Int.mul_le_mul_of_nonneg_right (by omega) (by omega)
    omega

theorem primBitshift_eq {bits shift : Int} (small : Small bits) :
    SlateVm.primBitshift bits shift =
      if Small (TwosComplement.bitShift bits shift) then
        some (TwosComplement.bitShift bits shift) else none := by
  by_cases left : 0 ≤ shift
  · obtain ⟨k, rfl⟩ := Int.eq_ofNat_of_zero_le left
    have result : TwosComplement.bitShift bits (k : Int) = bits * 2 ^ k := by
      rw [TwosComplement.bitShift, if_pos left, Int.toNat_natCast]
    rw [result]
    by_cases fits : Small (bits * 2 ^ k)
    · rw [if_pos fits]
      by_cases inWord : k < 64
      · exact primBitshift_left inWord small fits
      · have zero : bits = 0 := by
          by_contra nonzero
          exact not_small_wide nonzero (by omega) fits
        subst zero
        have still : BitVec.ofInt 64 0 <<< k = (0 : Word) := BitVec.zero_shiftLeft k
        have back : (0 : Word).sshiftRight k = 0 := BitVec.zero_sshiftRight
        unfold SlateVm.primBitshift
        simp only [left, if_true, ne_eq, not_true, and_false, if_false, Int.toNat_natCast, still,
          back, fits_iff]
        simp [Small, minimumValue, maximumValue]
    · rw [if_neg fits]
      unfold SlateVm.primBitshift
      rw [if_pos left]
      by_cases wide : (64 : Int) ≤ (k : Int) ∧ bits ≠ 0
      · rw [if_pos wide]
      · rw [if_neg wide]
        have inWord : k < 64 := by
          by_contra outside
          have zero : bits = 0 := by
            by_contra nonzero
            exact wide ⟨by omega, nonzero⟩
          subst zero
          simp [Small, minimumValue, maximumValue] at fits
        apply if_pos
        by_contra kept
        push Not at kept
        rw [Int.toNat_natCast] at kept
        have value := shifted_back inWord small kept.2
        exact fits (value ▸ (fits_iff _).mp kept.1)
  · have result : TwosComplement.bitShift bits shift = bits / 2 ^ (-shift).toNat := by
      rw [TwosComplement.bitShift, if_neg left]
    rw [result, if_pos (small_ediv small (two_pow_pos _))]
    unfold SlateVm.primBitshift
    rw [if_neg left]
    by_cases wide : shift ≤ -64
    · rw [if_pos wide, Int.shiftRight_eq_div_pow, ediv_sign small (k := (-shift).toNat) (by omega)]
      exact congrArg some (ediv_sign small (k := 63) (by omega))
    · rw [if_neg wide, Int.shiftRight_eq_div_pow]
      rfl

theorem bitShift_exact (x y : SmallInteger) : Exact .bitShift x y := by
  have performed : perform .bitShift x.1 y.1 =
      answered .bitShiftOverflow x.1 y.1 (SlateVm.primBitshift x.value y.value) := by
    have count : (objectToSmallint y.1).toInt = y.value := rfl
    have right (k : Nat) : (BitVec.ofInt 64 x.value).sshiftRight k =
        BitVec.ofInt 64 (x.value >>> k) := by
      have range := small_ediv x.value_small (two_pow_pos k)
      unfold Small minimumValue maximumValue at range
      apply BitVec.eq_of_toInt_eq
      rw [BitVec.toInt_sshiftRight, (x.word_eq_iff _).mp rfl, Int.shiftRight_eq_div_pow]
      push_cast
      exact (toInt_ofInt (by omega) (by omega)).symm
    simp only [perform, primBitshift, assured, SlateVm.primBitshift, x.word, count, ne_eq,
      x.word_eq_zero, right]
    split
    · split
      · rfl
      · split <;> simp only [answered, BitVec.ofInt_toInt]
    · split <;> rfl
  exact answered_exact (fun quo => nomatch quo) rfl performed (primBitshift_eq x.value_small)

theorem small_tdiv {x y : Int} (hx : Small x) (other : ¬ (x = minimumValue ∧ y = -1)) :
    Small (x.tdiv y) := by
  have size : (x.tdiv y).natAbs ≤ x.natAbs := by
    rw [Int.natAbs_tdiv]
    exact Nat.div_le_self _ _
  unfold Small minimumValue maximumValue at hx ⊢
  unfold minimumValue at other
  by_cases least : x = -(2 ^ 62)
  · have unlike : y ≠ -1 := fun same => other ⟨least, same⟩
    have less : x.tdiv y ≠ 2 ^ 62 := by
      intro top
      have halved : 2 ≤ y.natAbs → (x.tdiv y).natAbs ≤ 2 ^ 61 := by
        intro large
        rw [Int.natAbs_tdiv, least]
        exact Nat.div_le_div_left large (by decide)
      have units : y = 0 ∨ y = 1 ∨ 2 ≤ y.natAbs := by omega
      rcases units with rfl | rfl | large
      · simp at top
      · rw [Int.tdiv_one] at top
        omega
      · have small := halved large
        rw [top] at small
        exact absurd small (by decide)
    omega
  · omega

theorem quo_exact (x y : SmallInteger) :
    Exact .quo x y ↔ ¬ (x.value = minimumValue ∧ y.value = -1) := by
  have small := x.value_small
  have performed : perform .quo x.1 y.1 = if y.value = 0 then .signals .divideByZero [x.1, y.1]
      else .stores (smallintToObject
        ((BitVec.ofInt 64 x.value).sdiv (BitVec.ofInt 64 y.value))) := by
    simp only [perform, primQuo, assured, x.word, y.word, y.word_eq_zero]
  constructor
  · rintro exact ⟨least, minus⟩
    have nonzero : y.value ≠ 0 := by omega
    rw [if_neg nonzero, least, minus] at performed
    unfold Exact at exact
    rw [performed, least, minus] at exact
    exact absurd exact.2.2 (by decide)
  · intro other
    by_cases zero : y.value = 0
    · rw [if_pos zero] at performed
      unfold Exact
      rw [performed]
      exact ⟨rfl, Or.inl ⟨fun divides => divides rfl zero, rfl⟩⟩
    · rw [if_neg zero] at performed
      have fits := small_tdiv small other
      have range := fits
      unfold Small minimumValue maximumValue at range
      have value : ((BitVec.ofInt 64 x.value).sdiv (BitVec.ofInt 64 y.value)).toInt =
          x.value.tdiv y.value := by
        rw [BitVec.toInt_sdiv, (x.word_eq_iff _).mp rfl, (y.word_eq_iff _).mp rfl,
          Int.bmod_eq_of_le (by omega) (by omega)]
      exact stored_exact (fun _ => zero) (value.symm ▸ fits) performed value

theorem getLsbD_tag (i : Word) {k : Nat} (inWord : k < 64) :
    (smallintToObject i).getLsbD k = (decide (k = 0) || i.getLsbD (k - 1)) := by
  unfold smallintToObject
  by_cases first : k = 0
  · subst first
    simp
  · have above : ¬ k < 1 := by omega
    have inside : k - 1 < 64 := by omega
    rw [BitVec.getLsbD_or, BitVec.getLsbD_shiftLeft, BitVec.getLsbD_eq_getElem inside]
    simp [first, inWord, above]

theorem SmallInteger.retagged (x : SmallInteger) :
    smallintToObject (objectToSmallint x.1) = x.1 := by
  apply BitVec.eq_of_getLsbD_eq
  intro k inWord
  rw [getLsbD_tag _ inWord]
  by_cases first : k = 0
  · have low : x.1 &&& 1 = 1 := by simpa [objectIsSmallint] using x.tagged
    have bit := congrArg (BitVec.getLsbD · 0) low
    subst first
    simpa using bit.symm
  · have back : 1 + (k - 1) = k := by omega
    have inside : ¬ 64 ≤ k - 1 := by omega
    unfold objectToSmallint
    rw [BitVec.getLsbD_sshiftRight, back]
    simp [first, inside, inWord]

theorem tag_and (i j : Word) :
    smallintToObject i &&& smallintToObject j = smallintToObject (i &&& j) := by
  apply BitVec.eq_of_getLsbD_eq
  intro k inWord
  simp only [BitVec.getLsbD_and, getLsbD_tag _ inWord]
  cases decide (k = 0) <;> rfl

theorem tag_or (i j : Word) :
    smallintToObject i ||| smallintToObject j = smallintToObject (i ||| j) := by
  apply BitVec.eq_of_getLsbD_eq
  intro k inWord
  simp only [BitVec.getLsbD_or, getLsbD_tag _ inWord]
  cases decide (k = 0) <;> rfl

theorem tag_xor (i j : Word) :
    smallintToObject i ^^^ smallintToObject j ||| 1 = smallintToObject (i ^^^ j) := by
  apply BitVec.eq_of_getLsbD_eq
  intro k inWord
  simp only [BitVec.getLsbD_or, BitVec.getLsbD_xor, getLsbD_tag _ inWord]
  by_cases first : k = 0 <;> simp [first]

theorem tag_not (i : Word) : ~~~smallintToObject i ||| 1 = smallintToObject (~~~i) := by
  apply BitVec.eq_of_getLsbD_eq
  intro k inWord
  simp only [BitVec.getLsbD_or, BitVec.getLsbD_not, getLsbD_tag _ inWord]
  by_cases first : k = 0
  · simp [first]
  · have inside : k - 1 < 64 := by omega
    simp [first, inWord, inside]

theorem small_iff_fits (z : Int) : Small z ↔ Fits 62 z := by
  unfold Small Fits minimumValue maximumValue
  omega

theorem bits_exact {op : Operation} {x y : SmallInteger} {z : Int} (total : op ≠ .quo)
    (result : op.result x.value y.value = z) (fits : Fits 62 z)
    (stored : perform op x.1 y.1 = .stores (smallintToObject (BitVec.ofInt 64 z))) :
    Exact op x y := by
  have value : (BitVec.ofInt 64 z).toInt = z := by
    unfold Fits at fits
    exact toInt_ofInt (by omega) (by omega)
  have small : Small (BitVec.ofInt 64 z).toInt := by
    rw [value]
    exact (small_iff_fits z).mpr fits
  exact stored_exact (fun quo => absurd quo total) small stored (value.trans result.symm)

theorem bitAnd_exact (x y : SmallInteger) : Exact .bitAnd x y := by
  have fits := fits_land ((small_iff_fits _).mp x.value_small) ((small_iff_fits _).mp y.value_small)
  have word : x.1 &&& y.1 = smallintToObject (BitVec.ofInt 64 (Int.land x.value y.value)) := by
    rw [ofInt_land, ← x.word, ← y.word, ← tag_and, x.retagged, y.retagged]
  exact bits_exact (fun quo => nomatch quo) rfl fits
    (by simp only [perform, primBitand, assured, word]; rfl)

theorem bitOr_exact (x y : SmallInteger) : Exact .bitOr x y := by
  have fits := fits_lor ((small_iff_fits _).mp x.value_small) ((small_iff_fits _).mp y.value_small)
  have word : x.1 ||| y.1 = smallintToObject (BitVec.ofInt 64 (Int.lor x.value y.value)) := by
    rw [ofInt_lor, ← x.word, ← y.word, ← tag_or, x.retagged, y.retagged]
  exact bits_exact (fun quo => nomatch quo) rfl fits
    (by simp only [perform, primBitor, assured, word]; rfl)

theorem bitXor_exact (x y : SmallInteger) : Exact .bitXor x y := by
  have fits := fits_xor ((small_iff_fits _).mp x.value_small) ((small_iff_fits _).mp y.value_small)
  have word : x.1 ^^^ y.1 ||| 1 =
      smallintToObject (BitVec.ofInt 64 (Int.xor x.value y.value)) := by
    rw [ofInt_xor, ← x.word, ← y.word, ← tag_xor, x.retagged, y.retagged]
  exact bits_exact (fun quo => nomatch quo) rfl fits
    (by simp only [perform, primBitxor, assured, word]; rfl)

theorem bitNot_exact (x y : SmallInteger) : Exact .bitNot x y := by
  have fits : Fits 62 (-x.value - 1) := by
    have small := (small_iff_fits _).mp x.value_small
    unfold Fits at small ⊢
    omega
  have word : ~~~x.1 ||| 1 = smallintToObject (BitVec.ofInt 64 (-x.value - 1)) := by
    rw [ofInt_not, ← x.word, ← tag_not, x.retagged]
  exact bits_exact (fun quo => nomatch quo) rfl fits
    (by simp only [perform, primBitnot, assured, word]; rfl)

end SlateVm.Tagged
