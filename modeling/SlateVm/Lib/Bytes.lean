import Mathlib.Data.Nat.Digits.Lemmas
import Mathlib.Tactic.Linarith
import Mathlib.Tactic.Ring

/-! Integers in a fixed number of bytes, in both orders, and words that follow one another. -/
namespace Bytes

variable {α : Type}

def byteAt (i : Int) (k : Nat) : Nat := (i / 256 ^ k % 256).toNat

/-- The lowest `n` bytes of an integer, lowest first or highest first. -/
def encode (little : Bool) (n : Nat) (i : Int) : List Nat :=
  let bytes := (List.range n).map (byteAt i)
  if little then bytes else bytes.reverse

def value (little : Bool) (bytes : List Nat) : Nat :=
  Nat.ofDigits 256 (if little then bytes else bytes.reverse)

@[simp] theorem length_encode (little : Bool) (n : Nat) (i : Int) :
    (encode little n i).length = n := by
  cases little <;> simp [encode]

/-- The byte at `n` and the bytes below it. -/
theorem emod_pow_succ (i : Int) (n : Nat) :
    i % 256 ^ (n + 1) = i % 256 ^ n + 256 ^ n * (i / 256 ^ n % 256) := by
  have positive : (0 : Int) < 256 ^ n := by positivity
  have low := Int.emod_nonneg i (Int.ne_of_gt positive)
  have low_lt := Int.emod_lt_of_pos i positive
  have byte := Int.emod_nonneg (i / 256 ^ n) (by decide : (256 : Int) ≠ 0)
  have byte_lt := Int.emod_lt_of_pos (i / 256 ^ n) (by decide : (0 : Int) < 256)
  have whole : i = i % 256 ^ n + 256 ^ n * (i / 256 ^ n % 256) +
      256 ^ (n + 1) * (i / 256 ^ n / 256) := by
    have outer := Int.mul_ediv_add_emod i (256 ^ n)
    have inner := Int.mul_ediv_add_emod (i / 256 ^ n) 256
    have scaled := congrArg (256 ^ n * ·) inner
    simp only [mul_add] at scaled
    rw [pow_succ]
    linarith
  conv_lhs => rw [whole]
  rw [Int.add_mul_emod_self_left]
  apply Int.emod_eq_of_lt
  · positivity
  · have bound : 256 ^ n * (i / 256 ^ n % 256) ≤ 256 ^ n * 255 :=
      Int.mul_le_mul_of_nonneg_left (by omega) (Int.le_of_lt positive)
    rw [pow_succ]
    linarith

theorem ofDigits_bytes (i : Int) (n : Nat) :
    ((Nat.ofDigits 256 ((List.range n).map (byteAt i)) : Nat) : Int) = i % 256 ^ n := by
  induction n with
  | zero => simp
  | succ n ih =>
    rw [List.range_succ, List.map_append, Nat.ofDigits_append, List.length_map, List.length_range,
      emod_pow_succ]
    rw [Int.natCast_add, Int.natCast_mul, ih, Int.natCast_pow]
    have byte : ((byteAt i n : Nat) : Int) = i / 256 ^ n % 256 :=
      Int.toNat_of_nonneg (Int.emod_nonneg _ (by decide))
    simp [byte]

theorem value_encode (little : Bool) (n : Nat) (i : Int) :
    ((value little (encode little n i) : Nat) : Int) = i % 256 ^ n := by
  cases little with
  | true => exact ofDigits_bytes i n
  | false => simpa [value, encode] using ofDigits_bytes i n

/-- Words of one length that follow one another. -/
theorem flatten_word {b : Nat} (words : List (List α)) (sized : ∀ word ∈ words, word.length = b)
    (rest : List α) (k : Nat) (word : List α) (here : words[k]? = some word) :
    ((words.flatten ++ rest).drop (k * b)).take b = word := by
  induction words generalizing k with
  | nil => cases here
  | cons first words ih =>
    have length := sized first List.mem_cons_self
    rw [List.flatten_cons, List.append_assoc]
    cases k with
    | zero =>
      cases here
      rw [Nat.zero_mul, List.drop_zero, ← length, List.take_left]
    | succ k =>
      rw [Nat.succ_mul, Nat.add_comm, ← List.drop_drop, ← length, List.drop_left, length]
      exact ih (fun word member => sized word (List.mem_cons_of_mem _ member)) k here

theorem length_flatten {b : Nat} (words : List (List α)) (sized : ∀ word ∈ words, word.length = b) :
    words.flatten.length = words.length * b := by
  induction words with
  | nil => simp
  | cons first words ih =>
    rw [List.flatten_cons, List.length_append, sized first List.mem_cons_self,
      ih fun word member => sized word (List.mem_cons_of_mem _ member), List.length_cons,
      Nat.succ_mul, Nat.add_comm]

end Bytes
