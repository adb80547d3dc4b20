import SlateVm.Number.SmallInteger
import Mathlib.Data.Nat.Digits.Lemmas

/-! Integers of any size as a sign and bytes, lowest byte first, and the arithmetic that goes
over from small integers and back. `none` stands for a signalled error. -/
namespace SlateVm

structure BigInteger where
  isNegative : Bool
  digits : List Nat
  deriving Repr, DecidableEq

inductive SlateInteger
  | small (value : Int)
  | big (value : BigInteger)
  deriving Repr, DecidableEq

def highBitLoop (n bit : Nat) : Nat :=
  if n > 1 then highBitLoop (n >>> 1) (bit + 1) else bit
termination_by n
decreasing_by
  rw [Nat.shiftRight_eq_div_pow]
  omega

def smallHighBit (i : Int) : Nat :=
  if i = minimumValue then highBitLoop (-i - 1).natAbs 0 + 1 else highBitLoop i.natAbs 0

def complementBytes : Nat → Int → Int → List Nat
  | 0, _, _ => []
  | n + 1, x, carry =>
    let carry := (carry >>> (8 : Nat)) + intoByte (primBitxor x 0xFF)
    (intoByte carry).toNat :: complementBytes n (x >>> (8 : Nat)) carry

def plainBytes : Nat → Int → List Nat
  | 0, _ => []
  | n + 1, x => (intoByte x).toNat :: plainBytes n (x >>> (8 : Nat))

def asBigInteger (x : Int) : BigInteger :=
  let size := smallHighBit x / 8 + 1
  if x < 0 then ⟨true, complementBytes size x 0x100⟩
  else ⟨false, plainBytes size x⟩

/-- `at:put:` keeps a byte of the value, and signals outside of the array. -/
def atPut (digits : List Nat) (index : Nat) (value : Int) : Option (List Nat) :=
  if index < digits.length then some (digits.set index (value % 256).toNat) else none

namespace BigInteger

def size (i : BigInteger) : Nat := i.digits.length

def lastDigit (i : BigInteger) : Nat := i.digits.getD (i.size - 1) 0

def isZero (i : BigInteger) : Bool := i.size = 1 ∧ i.lastDigit = 0

def highBit (i : BigInteger) : Nat := (i.size - 1) * 8 + smallHighBit i.lastDigit

/-- The loop of `<=>` over the indexes below `n`, from the highest. -/
def compareDigits (i1 i2 : List Nat) : Nat → Int
  | 0 => 0
  | n + 1 =>
    if i2.getD n 0 = i1.getD n 0 then compareDigits i1 i2 n
    else if i1.getD n 0 < i2.getD n 0 then -1 else 1

/-- `<=>`, which never looks at the signs. -/
def compare (i1 i2 : BigInteger) : Int :=
  if i1.size < i2.size then -1
  else if i2.size < i1.size then 1
  else compareDigits i1.digits i2.digits i1.size

def less (i1 i2 : BigInteger) : Bool :=
  if i1.isNegative = i2.isNegative then
    i1.compare i2 = (if i1.isNegative then 1 else -1)
  else i1.isNegative

def equal (i1 i2 : BigInteger) : Bool :=
  i1.isNegative = i2.isNegative ∧ i1.compare i2 = 0

def negated (i : BigInteger) : BigInteger := { i with isNegative := !i.isNegative }

def grownTo (i : BigInteger) (newSize : Nat) : BigInteger :=
  { i with digits := i.digits.take newSize ++ List.replicate (newSize - i.size) 0 }

def canBeASmallInteger (x : BigInteger) : Bool :=
  !(x.less (asBigInteger minimumValue)) && !((asBigInteger maximumValue).less x)

def smallFrom (isNegative : Bool) : List Nat → Nat → Int → Option Int
  | [], _, n => some n
  | digit :: digits, shift, n => do
    let part ← primBitshift (if isNegative then -(digit : Int) else digit) (shift * 8 : Nat)
    let n ← primPlus n part
    smallFrom isNegative digits (shift + 1) n

def asSmallInteger (x : BigInteger) : Option Int :=
  if x.canBeASmallInteger then smallFrom x.isNegative x.digits 0 0 else none

/-- `indexOfLastSatisfying:` for digits that are not zero, below `n`. -/
def lastNonZero (digits : List Nat) : Nat → Option Nat
  | 0 => none
  | n + 1 => if digits.getD n 0 ≠ 0 then some n else lastNonZero digits n

def shrunkToFit (i : BigInteger) : Option SlateInteger :=
  match lastNonZero i.digits i.size with
  | none => some (.small 0)
  | some nonZero =>
    let result := if nonZero + 1 = i.size then i else i.grownTo (nonZero + 1)
    if result.canBeASmallInteger then result.asSmallInteger.map .small
    else some (.big result)

/-- Both loops of `add:`, over the digits of the smaller and then over the rest of the
bigger one. They answer the digits of the sum and the last carry. -/
def addDigits : List Nat → List Nat → Int → List Nat × Int
  | _, [], carry => ([], carry)
  | [], b :: bigger, carry =>
    let carry := (carry >>> (8 : Nat)) + b
    let (sum, last) := addDigits [] bigger carry
    ((intoByte carry).toNat :: sum, last)
  | s :: smaller, b :: bigger, carry =>
    let carry := (carry >>> (8 : Nat)) + s + b
    let (sum, last) := addDigits smaller bigger carry
    ((intoByte carry).toNat :: sum, last)

def add (i1 i2 : BigInteger) : BigInteger :=
  let (smaller, bigger) := if i1.size < i2.size then (i1, i2) else (i2, i1)
  let (sum, carry) := addDigits smaller.digits bigger.digits 0
  ⟨i1.isNegative, if carry > 0xFF then sum ++ [1] else sum⟩

def subtractDigits : List Nat → List Nat → Int → List Nat
  | _, [], _ => []
  | [], b :: bigger, borrow =>
    let borrow := (borrow >>> (8 : Nat)) + b
    (intoByte borrow).toNat :: subtractDigits [] bigger borrow
  | s :: smaller, b :: bigger, borrow =>
    let borrow := (borrow >>> (8 : Nat)) + b - s
    (intoByte borrow).toNat :: subtractDigits smaller bigger borrow

/- With two equal magnitudes `smaller` is `i2`; that it is also `i1` where both are the same
object only changes the sign of zero. -/
def subtract (i1 i2 : BigInteger) : Option SlateInteger :=
  let swapped : Bool := i1.compare i2 = -1
  let (smaller, bigger) := if swapped then (i1, i2) else (i2, i1)
  shrunkToFit ⟨i1.isNegative ^^ swapped, subtractDigits smaller.digits bigger.digits 0⟩

def plus (i1 i2 : BigInteger) : Option SlateInteger :=
  if i1.isNegative = i2.isNegative then some (.big (i1.add i2)) else i1.subtract i2

def minus (i1 i2 : BigInteger) : Option SlateInteger :=
  if i1.isNegative = i2.isNegative then i1.subtract i2 else some (.big (i1.add i2))

/-- The inner loop of `*`, for one digit of the first factor. -/
def timesRow (each1 : Nat) : List Nat → Nat → Int → List Nat → Option (List Nat × Int)
  | [], _, carry, result => some (result, carry)
  | each2 :: i2, index, carry, result => do
    let carry := (carry >>> (8 : Nat)) + each2 * each1 + (← result[index]?)
    let result ← atPut result index (intoByte carry)
    timesRow each1 i2 (index + 1) carry result

def putCarry (result : List Nat) (index : Nat) (carry : Int) : Option (List Nat) :=
  if carry > 0xFF then atPut result index (carry >>> (8 : Nat)) else some result

def timesRows (i2 : List Nat) : List Nat → Nat → List Nat → Option (List Nat)
  | [], _, result => some result
  | each1 :: i1, index1, result => do
    let (result, carry) ← timesRow each1 i2 index1 0 result
    let result ← putCarry result (index1 + i2.length) carry
    timesRows i2 i1 (index1 + 1) result

def times (i1 i2 : BigInteger) : Option SlateInteger :=
  if i1.isZero ∨ i2.isZero then some (.small 0)
  else do
    let capacity := (i1.highBit + i2.highBit + 1) / 8 + 1
    let result ← timesRows i2.digits i1.digits 0 (List.replicate capacity 0)
    shrunkToFit ⟨i1.isNegative ^^ i2.isNegative, result⟩

end BigInteger

namespace SlateInteger

def coerced : SlateInteger → BigInteger
  | small x => asBigInteger x
  | big x => x

/-- An operation has a method for two small integers and one for two big ones. Otherwise the
smaller kind is coerced first. -/
def dispatch {α : Type} (onSmall : Int → Int → α) (onBig : BigInteger → BigInteger → α) :
    SlateInteger → SlateInteger → α
  | small x, small y => onSmall x y
  | x, y => onBig x.coerced y.coerced

def overflowing (prim : Int → Int → Option Int)
    (onBig : BigInteger → BigInteger → Option SlateInteger) (x y : Int) : Option SlateInteger :=
  match prim x y with
  | some z => some (small z)
  | none => onBig (asBigInteger x) (asBigInteger y)

def plus : SlateInteger → SlateInteger → Option SlateInteger :=
  dispatch (overflowing primPlus BigInteger.plus) BigInteger.plus

def minus : SlateInteger → SlateInteger → Option SlateInteger :=
  dispatch (overflowing primMinus BigInteger.minus) BigInteger.minus

def times : SlateInteger → SlateInteger → Option SlateInteger :=
  dispatch (overflowing primTimes BigInteger.times) BigInteger.times

def less : SlateInteger → SlateInteger → Bool := dispatch (fun x y => x < y) BigInteger.less

def equal : SlateInteger → SlateInteger → Bool := dispatch (fun x y => x = y) BigInteger.equal

/-- `<=>` of `Comparable`, unless both are big. -/
def compare : SlateInteger → SlateInteger → Int
  | big x, big y => x.compare y
  | x, y => if x.less y then -1 else if x.equal y then 0 else 1

def negated : SlateInteger → Option SlateInteger
  | small x => (small 0).minus (small x)
  | big x => some (big x.negated)

end SlateInteger

end SlateVm
