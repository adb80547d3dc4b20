import SlateVm.Number.Modular

/-! Fractions, which cancel common divisors in each operation, and the arithmetic that goes over
from integers to fractions and back. `none` stands for a signalled error or a loop without end. -/
namespace SlateVm

structure Fraction where
  numerator : SlateInteger
  denominator : SlateInteger
  deriving DecidableEq

inductive SlateNumber
  | integer (i : SlateInteger)
  | fraction (f : Fraction)
  deriving DecidableEq

namespace SlateInteger

def gcd (rounds : Nat) (x y : SlateInteger) : Option SlateInteger := gcdLoop rounds x y

end SlateInteger

namespace Fraction

open SlateInteger SlateNumber

def newFor (numer denom : SlateInteger) : Option Fraction :=
  if denom.isNegative then do
    let n ← numer.negated
    let d ← denom.negated
    some ⟨n, d⟩
  else some ⟨numer, denom⟩

def truncated (x : Fraction) : Option SlateInteger := x.numerator.quo x.denominator

def times (rounds : Nat) (x y : Fraction) : Option SlateNumber := do
  let d1 ← gcd rounds x.numerator y.denominator
  let d2 ← gcd rounds x.denominator y.numerator
  if d2.equal x.denominator ∧ d1.equal y.denominator then
    let n ← (← x.numerator.floorQuo d1).times y.numerator
    (n.floorQuo d2).map integer
  else
    let n ← (← x.numerator.floorQuo d1).times (← y.numerator.floorQuo d2)
    let d ← (← x.denominator.floorQuo d2).times (← y.denominator.floorQuo d1)
    (newFor n d).map fraction

def plus (rounds : Nat) (x y : Fraction) : Option SlateNumber := do
  let d ← gcd rounds x.denominator y.denominator
  let d1 ← y.denominator.floorQuo d
  let d2 ← x.denominator.floorQuo d
  let n ← (← x.numerator.times d1).plus (← y.numerator.times d2)
  let d1 ← d1.times d2
  let d2 ← gcd rounds n d
  let n ← n.floorQuo d2
  let d ← d1.times (← d.floorQuo d2)
  if d.equal (small 1) then some (integer n)
  else (newFor n d).map fraction

def negated (x : Fraction) : Option Fraction := do
  newFor (← x.numerator.negated) x.denominator

def minus (rounds : Nat) (x y : Fraction) : Option SlateNumber := do
  plus rounds x (← y.negated)

def reduced (rounds : Nat) (x : Fraction) : Option SlateNumber :=
  if x.numerator.isZero then some (integer (small 0))
  else do
    let g ← gcd rounds (← x.numerator.abs) x.denominator
    let numer ← x.numerator.floorQuo g
    let denom ← x.denominator.floorQuo g
    if denom.equal (small 1) then some (integer numer)
    else (newFor numer denom).map fraction

def reciprocal (x : Fraction) : Option SlateNumber :=
  if x.numerator.equal (small 0) then none
  else if x.numerator.equal (small 1) then some (integer x.denominator)
  else if x.numerator.equal (small (-1)) then x.denominator.negated.map integer
  else (newFor x.denominator x.numerator).map fraction

def less (x y : Fraction) : Option Bool := do
  let left ← x.numerator.times y.denominator
  let right ← y.numerator.times x.denominator
  some (left.less right)

def equal (x y : Fraction) : Bool :=
  x.numerator.equal y.numerator ∧ x.denominator.equal y.denominator

end Fraction

namespace SlateInteger

open SlateNumber

/-- `/` of all integers. -/
def divideAll (rounds : Nat) (x y : SlateInteger) : Option SlateNumber :=
  if y.isZero then none
  else do
    let r ← x.rem y
    if r.isZero then (x.quo y).map integer
    else (← Fraction.newFor x y).reduced rounds

/-- `/`. Two big integers have a method of their own first. -/
def divide (rounds : Nat) : SlateInteger → SlateInteger → Option SlateNumber
  | big i1, big i2 => do
    let (q, r) ← i1.quoRem i2
    if r.isZero then some (integer q) else divideAll rounds (big i1) (big i2)
  | x, y => divideAll rounds x y

end SlateInteger

def Fraction.raisedToPositive (rounds : Nat) (f : Fraction) (n : SlateInteger) :
    Option SlateNumber := do
  let p ← f.numerator.raisedTo rounds n
  let q ← f.denominator.raisedTo rounds n
  p.divide rounds q

namespace SlateNumber

def coerced : SlateNumber → Fraction
  | integer i => ⟨i, .small 1⟩
  | fraction f => f

/-- An operation has a method for two integers and one for two fractions. Otherwise the integer
is coerced first. -/
def dispatch {α : Type} (onIntegers : SlateInteger → SlateInteger → α)
    (onFractions : Fraction → Fraction → α) : SlateNumber → SlateNumber → α
  | integer x, integer y => onIntegers x y
  | x, y => onFractions x.coerced y.coerced

def plus (rounds : Nat) : SlateNumber → SlateNumber → Option SlateNumber :=
  dispatch (fun x y => (x.plus y).map integer) (Fraction.plus rounds)

def minus (rounds : Nat) : SlateNumber → SlateNumber → Option SlateNumber :=
  dispatch (fun x y => (x.minus y).map integer) (Fraction.minus rounds)

def times (rounds : Nat) : SlateNumber → SlateNumber → Option SlateNumber :=
  dispatch (fun x y => (x.times y).map integer) (Fraction.times rounds)

def negated : SlateNumber → Option SlateNumber
  | integer i => i.negated.map integer
  | fraction f => f.negated.map fraction

def reciprocal (rounds : Nat) : SlateNumber → Option SlateNumber
  | integer i => if i.isZero then none else (SlateInteger.small 1).divide rounds i
  | fraction f => f.reciprocal

def divide (rounds : Nat) : SlateNumber → SlateNumber → Option SlateNumber :=
  dispatch (SlateInteger.divide rounds) fun x y => do
    times rounds (fraction x) (← y.reciprocal)

def less : SlateNumber → SlateNumber → Option Bool :=
  dispatch (fun x y => some (x.less y)) Fraction.less

def equal : SlateNumber → SlateNumber → Bool := dispatch SlateInteger.equal Fraction.equal

def truncated : SlateNumber → Option SlateInteger
  | integer i => some i
  | fraction f => f.truncated

/-- `raisedTo:` an integer. The negated exponent of the last branches is positive. -/
def raisedTo (rounds : Nat) : SlateNumber → SlateInteger → Option SlateNumber
  | integer (.small i), n =>
    if n.isNegative ∧ i ≠ 0 then do
      let power ← (SlateInteger.small i).raisedTo rounds (← n.negated)
      reciprocal rounds (integer power)
    else ((SlateInteger.small i).raisedTo rounds n).map integer
  | integer (.big i), n => ((SlateInteger.big i).raisedTo rounds n).map integer
  | fraction f, n =>
    if n.isZero then some (integer (.small 1))
    else if (SlateInteger.small 0).less n then f.raisedToPositive rounds n
    else do reciprocal rounds (← f.raisedToPositive rounds (← n.negated))

end SlateNumber

end SlateVm
