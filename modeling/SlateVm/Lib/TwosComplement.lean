import Mathlib.Data.Int.Bitwise
import Mathlib.Tactic.Common

/-! Integers of unbounded size in two's complement, and their low words. -/
namespace TwosComplement

/-- Shifting to the left, and for a negative count to the right. -/
def bitShift (x n : Int) : Int := if 0 ≤ n then x * 2 ^ n.toNat else x / 2 ^ (-n).toNat

theorem getLsbD_ofInt (w : Nat) (x : Int) {i : Nat} (hi : i < w) :
    (BitVec.ofInt w x).getLsbD i = x.testBit i := by
  cases x with
  | ofNat m =>
    rw [Int.ofNat_eq_natCast, BitVec.ofInt_natCast, BitVec.getLsbD_ofNat]
    simp [hi, Int.testBit]
  | negSucc m =>
    rw [BitVec.ofInt_negSucc_eq_not_ofNat, BitVec.getLsbD_not, BitVec.getLsbD_ofNat]
    simp [hi, Int.testBit]

theorem ofInt_land (w : Nat) (x y : Int) :
    BitVec.ofInt w (Int.land x y) = BitVec.ofInt w x &&& BitVec.ofInt w y := by
  apply BitVec.eq_of_getLsbD_eq
  intro i hi
  simp only [BitVec.getLsbD_and, getLsbD_ofInt w _ hi, Int.testBit_land]

theorem ofInt_lor (w : Nat) (x y : Int) :
    BitVec.ofInt w (Int.lor x y) = BitVec.ofInt w x ||| BitVec.ofInt w y := by
  apply BitVec.eq_of_getLsbD_eq
  intro i hi
  simp only [BitVec.getLsbD_or, getLsbD_ofInt w _ hi, Int.testBit_lor]

theorem ofInt_xor (w : Nat) (x y : Int) :
    BitVec.ofInt w (Int.xor x y) = BitVec.ofInt w x ^^^ BitVec.ofInt w y := by
  apply BitVec.eq_of_getLsbD_eq
  intro i hi
  simp only [BitVec.getLsbD_xor, getLsbD_ofInt w _ hi, Int.testBit_lxor]

/-- The complement is one less than the negation. -/
theorem ofInt_not (w : Nat) (x : Int) : BitVec.ofInt w (-x - 1) = ~~~BitVec.ofInt w x := by
  apply BitVec.eq_of_getLsbD_eq
  intro i hi
  have complement : Int.lnot x = -x - 1 := by
    cases x with
    | ofNat m => simp only [Int.lnot, Int.negSucc_eq, Int.ofNat_eq_natCast]; omega
    | negSucc m => simp only [Int.lnot, Int.negSucc_eq]; omega
  rw [BitVec.getLsbD_not, getLsbD_ofInt w _ hi, getLsbD_ofInt w _ hi, ← complement,
    Int.testBit_lnot]
  simp [hi]

/-- The integers that `w` bits hold beside the sign. -/
def Fits (w : Nat) (x : Int) : Prop := -(2 ^ w) ≤ x ∧ x < 2 ^ w

theorem fits_ofNat {w m : Nat} : Fits w (m : Int) ↔ m < 2 ^ w := by
  unfold Fits
  have cast : (2 : Int) ^ w = ((2 ^ w : Nat) : Int) := by push_cast; rfl
  rw [cast]
  omega

theorem fits_negSucc {w m : Nat} : Fits w (Int.negSucc m) ↔ m < 2 ^ w := by
  unfold Fits
  have cast : (2 : Int) ^ w = ((2 ^ w : Nat) : Int) := by push_cast; rfl
  rw [cast, Int.negSucc_eq]
  omega

theorem fits_land {w : Nat} {x y : Int} (hx : Fits w x) (hy : Fits w y) :
    Fits w (Int.land x y) := by
  cases x <;> cases y <;>
    simp only [Int.land, Int.ofNat_eq_natCast, fits_ofNat, fits_negSucc] at hx hy ⊢
  all_goals exact Nat.bitwise_lt_two_pow (by assumption) (by assumption)

theorem fits_lor {w : Nat} {x y : Int} (hx : Fits w x) (hy : Fits w y) :
    Fits w (Int.lor x y) := by
  cases x <;> cases y <;>
    simp only [Int.lor, Int.ofNat_eq_natCast, fits_ofNat, fits_negSucc] at hx hy ⊢
  all_goals exact Nat.bitwise_lt_two_pow (by assumption) (by assumption)

theorem fits_xor {w : Nat} {x y : Int} (hx : Fits w x) (hy : Fits w y) :
    Fits w (Int.xor x y) := by
  cases x <;> cases y <;>
    simp only [Int.xor, Int.ofNat_eq_natCast, fits_ofNat, fits_negSucc] at hx hy ⊢
  all_goals exact Nat.bitwise_lt_two_pow (by assumption) (by assumption)

/-- Masking with `2 ^ w - 1` gives the low word. -/
theorem land_low (w : Nat) (x : Int) :
    Int.land x ((2 ^ w - 1 : Nat) : Int) = ((BitVec.ofInt w x).toNat : Int) := by
  cases x with
  | ofNat m =>
    rw [Int.ofNat_eq_natCast, BitVec.ofInt_natCast, BitVec.toNat_ofNat]
    exact congrArg Int.ofNat (Nat.and_two_pow_sub_one_eq_mod m w)
  | negSucc m =>
    rw [BitVec.ofInt_negSucc_eq_not_ofNat]
    apply congrArg Int.ofNat
    apply Nat.eq_of_testBit_eq
    intro i
    rw [Nat.testBit_ldiff, Nat.testBit_two_pow_sub_one, BitVec.testBit_toNat, BitVec.getLsbD_not,
      BitVec.getLsbD_ofNat]
    by_cases below : i < w <;> simp [below]

/-- Two shifts in opposite directions, combined, rotate a word. -/
theorem ofInt_rotate {w : Nat} (x : BitVec w) {c : Nat} (few : c < w) :
    BitVec.ofInt w (Int.lor (bitShift x.toNat c) (bitShift x.toNat (-(w - c : Int)))) =
      x.rotateLeft c := by
  have right : ¬ (0 : Int) ≤ -(w - c : Int) := by omega
  have count : (- -(w - c : Int)).toNat = w - c := by omega
  rw [ofInt_lor, BitVec.rotateLeft_def, Nat.mod_eq_of_lt few, bitShift, if_pos (Int.natCast_nonneg c),
    bitShift, if_neg right, count, Int.toNat_natCast]
  congr 1
  · apply BitVec.eq_of_toNat_eq
    rw [BitVec.toNat_shiftLeft, Nat.shiftLeft_eq]
    norm_cast
  · apply BitVec.eq_of_toNat_eq
    rw [BitVec.toNat_ushiftRight, Nat.shiftRight_eq_div_pow]
    norm_cast
    rw [BitVec.ofInt_natCast, BitVec.toNat_ofNat]
    exact Nat.mod_eq_of_lt (Nat.lt_of_le_of_lt (Nat.div_le_self _ _) x.isLt)

end TwosComplement
