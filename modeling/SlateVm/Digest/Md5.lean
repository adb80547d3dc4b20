import Mathlib.Data.Nat.Digits.Defs
import Mathlib.Tactic.Ring
import SlateVm.Lib.TwosComplement
import SlateVm.Collections.Arrays

/-! The MD5 message digest, in the terms of RFC 1321. -/
namespace SlateVm.Digest.Rfc1321

abbrev Byte := BitVec 8

abbrev Word := BitVec 32

/-- A single 1 bit, then 0 bits until the length is 448 modulo 512 bits, then the low-order
64 bits of the length in bits, low-order byte first. -/
def pad (message : List Byte) : List Byte :=
  let zeros := (119 - message.length % 64) % 64
  let bits := message.length * 8
  message ++ 0x80 :: List.replicate zeros 0 ++
    (List.range 8).map fun i => BitVec.ofNat 8 (bits / 2 ^ (8 * i))

/-- Word `n` of a message, low-order byte first. -/
def word (message : List Byte) (n : Nat) : Word :=
  BitVec.ofNat 32 (Nat.ofDigits 256 (((message.drop (4 * n)).take 4).map BitVec.toNat))

def F (X Y Z : Word) : Word := (X &&& Y) ||| (~~~X &&& Z)

def G (X Y Z : Word) : Word := (X &&& Z) ||| (Y &&& ~~~Z)

def H (X Y Z : Word) : Word := X ^^^ Y ^^^ Z

def I (X Y Z : Word) : Word := Y ^^^ (X ||| ~~~Z)

def T : List Word :=
  [0xd76aa478, 0xe8c7b756, 0x242070db, 0xc1bdceee, 0xf57c0faf, 0x4787c62a, 0xa8304613, 0xfd469501,
   0x698098d8, 0x8b44f7af, 0xffff5bb1, 0x895cd7be, 0x6b901122, 0xfd987193, 0xa679438e, 0x49b40821,
   0xf61e2562, 0xc040b340, 0x265e5a51, 0xe9b6c7aa, 0xd62f105d, 0x02441453, 0xd8a1e681, 0xe7d3fbc8,
   0x21e1cde6, 0xc33707d6, 0xf4d50d87, 0x455a14ed, 0xa9e3e905, 0xfcefa3f8, 0x676f02d9, 0x8d2a4c8a,
   0xfffa3942, 0x8771f681, 0x6d9d6122, 0xfde5380c, 0xa4beea44, 0x4bdecfa9, 0xf6bb4b60, 0xbebfbc70,
   0x289b7ec6, 0xeaa127fa, 0xd4ef3085, 0x04881d05, 0xd9d4d039, 0xe6db99e5, 0x1fa27cf8, 0xc4ac5665,
   0xf4292244, 0x432aff97, 0xab9423a7, 0xfc93a039, 0x655b59c3, 0x8f0ccc92, 0xffeff47d, 0x85845dd1,
   0x6fa87e4f, 0xfe2ce6e0, 0xa3014314, 0x4e0811a1, 0xf7537e82, 0xbd3af235, 0x2ad7d2bb, 0xeb86d391]

def order : List Nat :=
  [0, 1, 2, 3, 4, 5, 6, 7, 8, 9, 10, 11, 12, 13, 14, 15,
   1, 6, 11, 0, 5, 10, 15, 4, 9, 14, 3, 8, 13, 2, 7, 12,
   5, 8, 11, 14, 1, 4, 7, 10, 13, 0, 3, 6, 9, 12, 15, 2,
   0, 7, 14, 5, 12, 3, 10, 1, 8, 15, 6, 13, 4, 11, 2, 9]

def shifts : List (List Nat) := [[7, 12, 17, 22], [5, 9, 14, 20], [4, 11, 16, 23], [6, 10, 15, 21]]

def auxiliary (i : Nat) : Word → Word → Word → Word :=
  if i < 16 then F else if i < 32 then G else if i < 48 then H else I

structure Buffer where
  A : Word
  B : Word
  C : Word
  D : Word

def initial : Buffer := ⟨0x67452301, 0xefcdab89, 0x98badcfe, 0x10325476⟩

/-- Operation `i` on the block `X`; the registers exchange their parts for the next one. -/
def operation (X : Nat → Word) (b : Buffer) (i : Nat) : Buffer :=
  let sum := b.A + auxiliary i b.B b.C b.D + X (order.getD i 0) + T.getD i 0
  let s := (shifts.getD (i / 16) []).getD (i % 4) 0
  ⟨b.D, b.B + sum.rotateLeft s, b.B, b.C⟩

def process (b : Buffer) (X : Nat → Word) : Buffer :=
  let r := (List.range 64).foldl (operation X) b
  ⟨b.A + r.A, b.B + r.B, b.C + r.C, b.D + r.D⟩

def blocks (message : List Byte) : List (Nat → Word) :=
  (List.range (message.length / 64)).map fun j k => word message (16 * j + k)

def bytesOf (w : Word) : List Byte := (List.range 4).map fun i => BitVec.ofNat 8 (w.toNat / 2 ^ (8 * i))

def digest (message : List Byte) : List Byte :=
  let b := (blocks (pad message)).foldl process initial
  bytesOf b.A ++ bytesOf b.B ++ bytesOf b.C ++ bytesOf b.D

def value (bytes : List Byte) : Nat := Nat.ofDigits 256 (bytes.map BitVec.toNat)

theorem order_lt : ∀ i < 64, order.getD i 0 < 16 := by decide

theorem pad_length (message : List Byte) :
    (pad message).length = 64 * ((message.length + 8) / 64 + 1) := by
  simp [pad]
  omega

theorem value_append (xs ys : List Byte) :
    value (xs ++ ys) = value xs + 256 ^ xs.length * value ys := by
  simp [value, Nat.ofDigits_append]

theorem value_bytesOf (w : Word) : value (bytesOf w) = w.toNat := by
  have small := w.isLt
  simp [value, bytesOf, List.range_succ, Nat.ofDigits_cons]
  omega

theorem length_bytesOf (w : Word) : (bytesOf w).length = 4 := rfl

end SlateVm.Digest.Rfc1321

/-! `Md5Sum` of a byte array. -/
namespace SlateVm.Digest.Md5Sum

open SlateVm.Collections TwosComplement
open Rfc1321 (Byte)

def shiftAmounts : List Nat :=
  [7, 12, 17, 22, 7, 12, 17, 22, 7, 12, 17, 22, 7, 12, 17, 22,
   5, 9, 14, 20, 5, 9, 14, 20, 5, 9, 14, 20, 5, 9, 14, 20,
   4, 11, 16, 23, 4, 11, 16, 23, 4, 11, 16, 23, 4, 11, 16, 23,
   6, 10, 15, 21, 6, 10, 15, 21, 6, 10, 15, 21, 6, 10, 15, 21]

def k : List Int :=
  [-680876936, -389564586, 606105819, -1044525330, -176418897, 1200080426, -1473231341, -45705983,
   1770035416, -1958414417, -42063, -1990404162, 1804603682, -40341101, -1502002290, 1236535329,
   -165796510, -1069501632, 643717713, -373897302, -701558691, 38016083, -660478335, -405537848,
   568446438, -1019803690, -187363961, 1163531501, -1444681467, -51403784, 1735328473, -1926607734,
   -378558, -2022574463, 1839030562, -35309556, -1530992060, 1272893353, -155497632, -1094730640,
   681279174, -358537222, -722521979, 76029189, -640364487, -421815835, 530742520, -995338651,
   -198630844, 1126891415, -1416354905, -57434055, 1700485571, -1894986606, -1051523, -2054922799,
   1873313359, -30611744, -1560198380, 1309151649, -145523070, -1120210379, 718787259, -343485551]

def leftRotate (x : Int) (c : Nat) : Int := Int.lor (bitShift x c) (bitShift x (-(32 - c)))

def mask (x : Int) : Int := Int.land x 0xFFFFFFFF

/-- `int32At:` in little-endian order; an index outside the array signals. -/
def int32At (a : List Byte) (offset : Nat) : Option Int := do
  let byte0 ← a[offset * 4]?
  let byte1 ← a[offset * 4 + 1]?
  let byte2 ← a[offset * 4 + 2]?
  let byte3 ← a[offset * 4 + 3]?
  some (byte0.toNat + bitShift byte1.toNat 8 + bitShift byte2.toNat 16 + bitShift byte3.toNat 24)

/-- The bytes that `next: n putInteger: val &littleEndian: True` puts. -/
def putInteger (n : Nat) (val : Int) : List Byte :=
  (List.range n).map fun byteIndex : Nat => BitVec.ofInt 8 (bitShift val (-(byteIndex * 8)))

def bitsToAdd (array : List Byte) : Int := 448 - ((array.length * 8 : Int) + 1) % 448

def newArray (array : List Byte) : Option (List Byte) := do
  let padding ← arrayPut (List.replicate ((bitsToAdd array + 7) / 8).toNat 0) 0 128
  some (array ++ padding ++ putInteger 8 (array.length * 8))

structure Registers where
  a : Int
  b : Int
  c : Int
  d : Int

def f (r : Registers) (i : Nat) : Int :=
  if i ≤ 15 then Int.xor r.d (Int.land r.b (Int.xor r.c r.d))
  else if i ≤ 31 then Int.xor r.c (Int.land r.d (Int.xor r.b r.c))
  else if i ≤ 47 then Int.xor (Int.xor r.b r.c) r.d
  else Int.xor r.c (Int.lor r.b (-r.d - 1))

def g (i : Nat) : Nat :=
  if i ≤ 15 then i
  else if i ≤ 31 then (5 * i + 1) % 16
  else if i ≤ 47 then (3 * i + 5) % 16
  else 7 * i % 16

def round (newArray : List Byte) (chunkStart : Nat) (r : Registers) (i : Nat) :
    Option Registers := do
  let constant ← k[i]?
  let amount ← shiftAmounts[i]?
  let word ← int32At newArray (chunkStart / 4 + g i)
  let temp := mask r.d
  let sum := mask (r.a + mask (f r i) + mask constant + mask word)
  some ⟨temp, mask (r.b + mask (leftRotate sum amount)), mask r.b, mask r.c⟩

/-- The body of `0 below: newArray size by: 64 do:` on `h0` to `h3`. -/
def chunk (newArray : List Byte) (h : Registers) (chunkStart : Nat) : Option Registers := do
  let r ← (List.range 64).foldlM (round newArray chunkStart) h
  some ⟨mask (h.a + r.a), mask (h.b + r.b), mask (h.c + r.c), mask (h.d + r.d)⟩

def initial : Registers := ⟨1732584193, mask (-271733879), mask (-1732584194), 271733878⟩

def chunkStarts (size : Nat) : List Nat := (List.range ((size + 63) / 64)).map (64 * ·)

def of (array : List Byte) : Option Int := do
  let newArray ← newArray array
  let h ← (chunkStarts newArray.length).foldlM (chunk newArray) initial
  some (Int.lor h.a (Int.lor (bitShift h.b 32) (Int.lor (bitShift h.c 64) (bitShift h.d 96))))

end SlateVm.Digest.Md5Sum

/-! `Md5Sum` beside RFC 1321: the rounds agree on every block, the padding on some lengths. -/
namespace SlateVm.Digest.Md5Sum

open SlateVm.Collections TwosComplement Rfc1321

section Loops

variable {α β σ : Type}

theorem foldlM_shown {body : σ → α → Option σ} {shown : β → σ} {step : β → α → β} (xs : List α)
    (b : β) (follows : ∀ x ∈ xs, ∀ b, body (shown b) x = some (shown (step b x))) :
    xs.foldlM body (shown b) = some (shown (xs.foldl step b)) := by
  induction xs generalizing b with
  | nil => rfl
  | cons x xs ih =>
    rw [List.foldlM_cons, follows x List.mem_cons_self]
    exact ih _ fun y hy => follows y (List.mem_cons_of_mem x hy)

theorem foldlM_none {body : σ → α → Option σ} {xs : List α} {x : α} (here : x ∈ xs)
    (signals : ∀ s, body s x = none) (s : σ) : xs.foldlM body s = none := by
  induction xs generalizing s with
  | nil => exact absurd here List.not_mem_nil
  | cons y xs ih =>
    rw [List.foldlM_cons]
    rcases List.mem_cons.mp here with rfl | later
    · rw [signals]
      rfl
    · cases body s y with
      | none => rfl
      | some t => exact ih later t

end Loops

def registers (b : Buffer) : Registers := ⟨b.A.toNat, b.B.toNat, b.C.toNat, b.D.toNat⟩

theorem mask_eq (x : Int) : mask x = ((BitVec.ofInt 32 x).toNat : Int) := land_low 32 x

theorem ofInt_toNat (w : Word) : BitVec.ofInt 32 (w.toNat : Int) = w := by
  rw [BitVec.ofInt_natCast, BitVec.ofNat_toNat, BitVec.setWidth_eq]

@[simp] theorem ofInt_mask (x : Int) : BitVec.ofInt 32 (mask x) = BitVec.ofInt 32 x := by
  rw [mask_eq, ofInt_toNat]

theorem choose_eq (x y z : Word) : z ^^^ (x &&& (y ^^^ z)) = F x y z := by
  apply BitVec.eq_of_getLsbD_eq
  intro i hi
  simp only [F, BitVec.getLsbD_xor, BitVec.getLsbD_and, BitVec.getLsbD_or, BitVec.getLsbD_not, hi]
  cases x.getLsbD i <;> cases y.getLsbD i <;> cases z.getLsbD i <;> rfl

theorem choose_other (x y z : Word) : y ^^^ (z &&& (x ^^^ y)) = G x y z := by
  apply BitVec.eq_of_getLsbD_eq
  intro i hi
  simp only [G, BitVec.getLsbD_xor, BitVec.getLsbD_and, BitVec.getLsbD_or, BitVec.getLsbD_not, hi]
  cases x.getLsbD i <;> cases y.getLsbD i <;> cases z.getLsbD i <;> rfl

theorem f_low (b : Buffer) (i : Nat) :
    BitVec.ofInt 32 (f (registers b) i) = auxiliary i b.B b.C b.D := by
  unfold f auxiliary registers
  by_cases first : i ≤ 15
  · rw [if_pos first, if_pos (show i < 16 by omega), ← choose_eq]
    simp only [ofInt_xor, ofInt_land, ofInt_toNat]
  rw [if_neg first, if_neg (show ¬ i < 16 by omega)]
  by_cases second : i ≤ 31
  · rw [if_pos second, if_pos (show i < 32 by omega), ← choose_other]
    simp only [ofInt_xor, ofInt_land, ofInt_toNat]
  rw [if_neg second, if_neg (show ¬ i < 32 by omega)]
  by_cases third : i ≤ 47
  · rw [if_pos third, if_pos (show i < 48 by omega), H]
    simp only [ofInt_xor, ofInt_toNat]
  · rw [if_neg third, if_neg (show ¬ i < 48 by omega), I]
    simp only [ofInt_xor, ofInt_lor, ofInt_not, ofInt_toNat]

theorem tables_low : ∀ i < 64, BitVec.ofInt 32 (k.getD i 0) = T.getD i 0 ∧
    (∃ s, shiftAmounts[i]? = some s ∧ s = (shifts.getD (i / 16) []).getD (i % 4) 0 ∧ s < 32) ∧
    g i = order.getD i 0 := by
  decide +kernel

theorem k_low : ∀ i < 64, ∃ c, k[i]? = some c ∧ BitVec.ofInt 32 c = T.getD i 0 := by
  intro i hi
  have inside : i < k.length := hi
  refine ⟨k[i], List.getElem?_eq_getElem inside, ?_⟩
  rw [← (tables_low i hi).1, List.getD_eq_getElem?_getD, List.getElem?_eq_getElem inside,
    Option.getD_some]

theorem shiftAmounts_eq : ∀ i < 64, ∃ s, shiftAmounts[i]? = some s ∧
    s = (shifts.getD (i / 16) []).getD (i % 4) 0 ∧ s < 32 :=
  fun i hi => (tables_low i hi).2.1

theorem g_eq : ∀ i < 64, g i = order.getD i 0 := fun i hi => (tables_low i hi).2.2

section Words

variable {a : List Byte}

theorem int32At_within {n : Nat} (within : 4 * n + 4 ≤ a.length) :
    int32At a n = some ((word a n).toNat : Int) := by
  have small0 := (a[n * 4]).isLt
  have small1 := (a[n * 4 + 1]).isLt
  have small2 := (a[n * 4 + 2]).isLt
  have small3 := (a[n * 4 + 3]).isLt
  have bytes : (a.drop (4 * n)).take 4 = [a[n * 4], a[n * 4 + 1], a[n * 4 + 2], a[n * 4 + 3]] := by
    rw [Nat.mul_comm 4 n, List.drop_eq_getElem_cons (by omega), List.drop_eq_getElem_cons (by omega),
      List.drop_eq_getElem_cons (by omega), List.drop_eq_getElem_cons (by omega)]
    rfl
  rw [word, bytes]
  simp [int32At, bitShift, show n * 4 < a.length by omega,
    show n * 4 + 1 < a.length by omega, show n * 4 + 2 < a.length by omega,
    show n * 4 + 3 < a.length by omega, Nat.ofDigits_cons]
  omega

theorem int32At_beyond {n : Nat} (beyond : a.length ≤ n * 4 + 3) : int32At a n = none := by
  simp [int32At, List.getElem?_eq_none beyond]

end Words

theorem leftRotate_low (w : Word) {s : Nat} (few : s < 32) :
    BitVec.ofInt 32 (leftRotate w.toNat s) = w.rotateLeft s := ofInt_rotate w few

theorem round_operation {newArray : List Byte} {chunkStart : Nat} {X : Nat → Word}
    (words : ∀ n < 16, int32At newArray (chunkStart / 4 + n) = some ((X n).toNat : Int))
    {i : Nat} (hi : i < 64) (b : Buffer) :
    round newArray chunkStart (registers b) i = some (registers (operation X b i)) := by
  obtain ⟨c, constant, table⟩ := k_low i hi
  obtain ⟨s, amount, shift, few⟩ := shiftAmounts_eq i hi
  have word := words (order.getD i 0) (order_lt i hi)
  have sum : mask ((registers b).a + mask (f (registers b) i) + mask c +
      mask ((X (order.getD i 0)).toNat : Int)) =
      ((b.A + auxiliary i b.B b.C b.D + X (order.getD i 0) + T.getD i 0).toNat : Int) := by
    rw [mask_eq]
    simp only [BitVec.ofInt_add, ofInt_mask, f_low, table, ofInt_toNat]
    rw [show (registers b).a = (b.A.toNat : Int) from rfl, ofInt_toNat]
    rw [BitVec.add_assoc (b.A + _), BitVec.add_comm (T.getD i 0), ← BitVec.add_assoc]
  simp only [round, constant, amount, g_eq i hi, word, Option.bind_eq_bind, Option.bind_some, sum]
  simp only [operation, registers, mask_eq, BitVec.ofInt_add, ofInt_toNat, ← shift,
    leftRotate_low _ few]

theorem chunk_process {newArray : List Byte} {chunkStart : Nat} {X : Nat → Word}
    (words : ∀ n < 16, int32At newArray (chunkStart / 4 + n) = some ((X n).toNat : Int))
    (b : Buffer) : chunk newArray (registers b) chunkStart = some (registers (process b X)) := by
  have rounds := @foldlM_shown _ _ _ _ registers _ (List.range 64) b fun i hi b =>
    round_operation words (List.mem_range.mp hi) b
  simp only [chunk, rounds, Option.bind_eq_bind, Option.bind_some]
  simp only [process, registers, mask_eq, BitVec.ofInt_add, ofInt_toNat]

theorem chunks_process {newArray : List Byte} {n : Nat} (whole : newArray.length = 64 * n)
    (b : Buffer) :
    (chunkStarts newArray.length).foldlM (chunk newArray) (registers b) =
      some (registers ((blocks newArray).foldl process b)) := by
  have count : (newArray.length + 63) / 64 = n ∧ newArray.length / 64 = n := by omega
  rw [chunkStarts, blocks, count.1, count.2, List.foldlM_map, List.foldl_map]
  apply foldlM_shown
  intro j hj b
  have inside := List.mem_range.mp hj
  apply chunk_process
  intro m hm
  rw [show 64 * j / 4 + m = 16 * j + m by omega]
  exact int32At_within (by omega)

theorem bitShift_nat (x n : Nat) : bitShift x n = ((x * 2 ^ n : Nat) : Int) := by
  rw [bitShift, if_pos (Int.natCast_nonneg n), Int.toNat_natCast]
  norm_cast

theorem or_high {x n : Nat} (low : x < 2 ^ n) (y : Nat) : x ||| y * 2 ^ n = x + y * 2 ^ n := by
  rw [Nat.lor_comm, Nat.mul_comm, ← Nat.two_pow_add_eq_or_of_lt low, Nat.add_comm]

theorem or_shifted (x y n : Nat) : x * 2 ^ n ||| y * 2 ^ n = (x ||| y) * 2 ^ n := by
  simp only [← Nat.shiftLeft_eq, Nat.shiftLeft_or_distrib]

theorem words_value (b : Buffer) :
    Int.lor (registers b).a (Int.lor (bitShift (registers b).b 32)
      (Int.lor (bitShift (registers b).c 64) (bitShift (registers b).d 96))) =
      (value (bytesOf b.A ++ bytesOf b.B ++ bytesOf b.C ++ bytesOf b.D) : Int) := by
  have lowA := b.A.isLt
  have lowB := b.B.isLt
  have lowC := b.C.isLt
  have upper : b.C.toNat * 2 ^ 64 ||| b.D.toNat * 2 ^ 96 =
      (b.C.toNat + b.D.toNat * 2 ^ 32) * 2 ^ 64 := by
    rw [← or_high lowC, ← or_shifted, Nat.mul_assoc, ← Nat.pow_add]
  have middle : b.B.toNat * 2 ^ 32 ||| (b.C.toNat + b.D.toNat * 2 ^ 32) * 2 ^ 64 =
      (b.B.toNat + (b.C.toNat + b.D.toNat * 2 ^ 32) * 2 ^ 32) * 2 ^ 32 := by
    rw [← or_high lowB, ← or_shifted, Nat.mul_assoc (b.C.toNat + _), ← Nat.pow_add]
  have all : b.A.toNat ||| (b.B.toNat * 2 ^ 32 ||| (b.C.toNat * 2 ^ 64 ||| b.D.toNat * 2 ^ 96)) =
      value (bytesOf b.A ++ bytesOf b.B ++ bytesOf b.C ++ bytesOf b.D) := by
    rw [upper, middle, or_high lowA]
    simp only [value_append, value_bytesOf, List.length_append, length_bytesOf]
    ring
  rw [← all, registers, show (32 : Int) = ((32 : Nat) : Int) from rfl,
    show (64 : Int) = ((64 : Nat) : Int) from rfl, show (96 : Int) = ((96 : Nat) : Int) from rfl,
    bitShift_nat, bitShift_nat, bitShift_nat]
  rfl

theorem initial_eq : initial = registers Rfc1321.initial := by
  rw [initial, mask_eq, mask_eq]
  rfl

theorem of_padded {array : List Byte} (padded : newArray array = some (pad array)) :
    of array = some (value (digest array) : Int) := by
  simp only [of, padded, Option.bind_eq_bind, Option.bind_some, initial_eq,
    chunks_process (pad_length array), words_value]
  rfl

theorem padding_size (array : List Byte) :
    ((bitsToAdd array + 7) / 8).toNat = (55 - array.length % 56) + 1 := by
  unfold bitsToAdd
  omega

theorem putInteger_eq (n : Nat) :
    putInteger 8 (n * 8 : Int) = (List.range 8).map fun i => BitVec.ofNat 8 (n * 8 / 2 ^ (8 * i)) := by
  rw [putInteger]
  apply List.map_congr_left
  intro i _
  have count : (- -((i : Int) * 8)).toNat = 8 * i := by omega
  cases i with
  | zero =>
    have start : bitShift (n * 8 : Int) (-(((0 : Nat) : Int) * 8)) = ((n * 8 : Nat) : Int) := by
      simp [bitShift]
    rw [start, BitVec.ofInt_natCast, Nat.mul_zero, Nat.pow_zero, Nat.div_one]
  | succ i =>
    rw [bitShift, if_neg (by omega), count]
    norm_cast

theorem newArray_eq (array : List Byte) : newArray array =
    some (array ++ 0x80 :: List.replicate (55 - array.length % 56) 0 ++
      putInteger 8 (array.length * 8)) := by
  have stores : arrayPut (List.replicate (55 - array.length % 56 + 1) (0 : Byte)) 0 128 = _ :=
    arrayPut_nat (i := 0) (by simp) 128
  simp only [newArray, padding_size, stores, Option.bind_eq_bind, Option.bind_some]
  rfl

theorem newArray_pad {array : List Byte} (short : array.length % 448 < 56) :
    newArray array = some (pad array) := by
  rw [newArray_eq, putInteger_eq, pad, show (119 - array.length % 64) % 64 =
    55 - array.length % 56 by omega]

theorem of_signals {array : List Byte} (long : 56 ≤ array.length % 448) : of array = none := by
  have size : ∀ a, newArray array = some a → a.length = 64 + array.length / 56 * 56 := by
    intro a made
    rw [newArray_eq] at made
    cases made
    simp [putInteger]
    omega
  simp only [of, Option.bind_eq_bind, Option.bind_eq_none_iff]
  intro a made h run
  have length := size a made
  have open_ : a.length % 64 ≠ 0 := by
    have rest : array.length / 56 % 8 ≠ 0 := by omega
    omega
  have last : 64 * (a.length / 64) ∈ chunkStarts a.length := by
    apply List.mem_map_of_mem
    rw [List.mem_range]
    omega
  have word : int32At a (64 * (a.length / 64) / 4 + g 15) = none :=
    int32At_beyond (by rw [show g 15 = 15 from rfl]; omega)
  have stops : ∀ h, chunk a h (64 * (a.length / 64)) = none := by
    intro h
    have rounds := @foldlM_none _ _ (round a (64 * (a.length / 64))) _ _
      (List.mem_range.mpr (show 15 < 64 by decide)) (fun r => by simp [round, word]) h
    rw [chunk, rounds]
    rfl
  rw [foldlM_none last stops] at run
  exact nomatch run

/-- What `of:` has to do: the digest, of the message with its padding. -/
structure Correct (array : List Byte) : Prop where
  digest : of array = some (value (Rfc1321.digest array) : Int)
  whole : ∃ rest, newArray array = some (array ++ 0x80 :: rest) ∧
    64 ∣ (array ++ 0x80 :: rest).length

/-- `Md5Sum of:` is right on the lengths that leave a remainder below 56 modulo 448. -/
theorem of_correct_iff (array : List Byte) : Correct array ↔ array.length % 448 < 56 := by
  constructor
  · intro correct
    by_contra long
    have signals := of_signals (Nat.le_of_not_lt long)
    exact Option.some_ne_none _ (correct.digest.symm.trans signals)
  · intro short
    have padded := newArray_pad short
    refine ⟨of_padded padded, _, padded.trans (congrArg some (List.append_assoc _ _ _)), ?_⟩
    have length := pad_length array
    rw [pad, List.append_assoc] at length
    exact ⟨_, length⟩

/-- 56 bytes are padded to 120. -/
theorem of_fails_at_56 : ¬ ∀ array, Correct array := by
  intro correct
  have short := (of_correct_iff (List.replicate 56 0)).mp (correct _)
  exact absurd short (by decide)

end SlateVm.Digest.Md5Sum
