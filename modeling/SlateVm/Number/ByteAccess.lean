import SlateVm.Lib.Bytes
import SlateVm.Collections.WriteStream
import SlateVm.Number.Rational

/-! Integers in byte arrays: the accessors of 16, 32 and 64 bits in both byte orders, and the bytes
that a stream puts. `none` stands for a signalled error. -/
namespace SlateVm

open Collections (arrayPut copyFrom WriteStream)

namespace SlateInteger

def intoByte (i : SlateInteger) : Option SlateInteger := i.logical .bitAnd (small 0xFF)

def byteShift (i : SlateInteger) (n : Int) : Option SlateInteger := i.bitShift (n * 8)

def endianByteAt (i : SlateInteger) (n : Int) : Option SlateInteger := do
  (← i.byteShift (-n)).intoByte

/-- What `byteAt:put:` stores of a SmallInteger. It takes no other argument. -/
def stored : SlateInteger → Option Nat
  | small i => some (i % 256).toNat
  | big _ => none

end SlateInteger

namespace ByteArrays

def byteAt (a : List Nat) (i : Nat) : Option SlateInteger :=
  a[i]?.map fun byte : Nat => .small byte

def byteAtPut (a : List Nat) (i : Nat) (value : SlateInteger) : Option (List Nat) := do
  arrayPut a i (← value.stored)

def placed (a : List Nat) (index place : Nat) : Option SlateInteger :=
  if place = 0 then byteAt a index
  else do (← byteAt a index).byteShift place

/-- The sum of the bytes behind `offset`, each given by its index and its place. -/
def assembled (a : List Nat) (offset : Nat) : List (Nat × Nat) → Option SlateInteger
  | [] => none
  | (index, place) :: terms => do
    let first ← placed a (offset + index) place
    terms.foldlM (fun sum (index, place) => do sum.plus (← placed a (offset + index) place)) first

def lowered (word : SlateInteger) (place : Nat) : Option SlateInteger :=
  if place = 0 then some word else word.bitShift (-(8 * place : Nat))

/-- The bytes of a word put behind `offset`. A BigInteger is a byte array too, but the methods for
integers come first. -/
def spread (word : SlateInteger) (offset : Nat) : List (Nat × Nat) → List Nat → Option (List Nat)
  | [], a => some a
  | (index, place) :: terms, a => do
    let shifted ← lowered word place
    spread word offset terms (← byteAtPut a (offset + index) (← shifted.intoByte))

def bigEndianInt16At (a : List Nat) (offset : Nat) : Option SlateInteger :=
  assembled a (offset * 2) [(0, 1), (1, 0)]

def bigEndianInt32At (a : List Nat) (offset : Nat) : Option SlateInteger :=
  assembled a (offset * 4) [(0, 3), (1, 2), (2, 1), (3, 0)]

def bigEndianInt64At (a : List Nat) (offset : Nat) : Option SlateInteger :=
  assembled a (offset * 8) [(0, 7), (1, 6), (2, 5), (3, 4), (4, 3), (5, 2), (6, 1), (7, 0)]

def bigEndianInt16AtPut (a : List Nat) (offset : Nat) (word : SlateInteger) : Option (List Nat) :=
  spread word (offset * 2) [(0, 1), (1, 0)] a

def bigEndianInt32AtPut (a : List Nat) (offset : Nat) (word : SlateInteger) : Option (List Nat) :=
  spread word (offset * 4) [(0, 3), (1, 2), (2, 1), (3, 0)] a

def bigEndianInt64AtPut (a : List Nat) (offset : Nat) (word : SlateInteger) : Option (List Nat) :=
  spread word (offset * 8) [(0, 7), (1, 6), (2, 5), (3, 4), (4, 3), (5, 2), (6, 1), (7, 0)] a

def littleEndianInt16At (a : List Nat) (offset : Nat) : Option SlateInteger :=
  assembled a (offset * 2) [(0, 0), (1, 1)]

def littleEndianInt32At (a : List Nat) (offset : Nat) : Option SlateInteger :=
  assembled a (offset * 4) [(0, 0), (1, 1), (2, 2), (3, 3)]

def littleEndianInt64At (a : List Nat) (offset : Nat) : Option SlateInteger :=
  assembled a (offset * 8) [(0, 0), (1, 1), (2, 2), (3, 3), (4, 4), (5, 5), (6, 6), (7, 7)]

def littleEndianInt16AtPut (a : List Nat) (offset : Nat) (word : SlateInteger) :
    Option (List Nat) :=
  spread word (offset * 2) [(0, 0), (1, 1)] a

def littleEndianInt32AtPut (a : List Nat) (offset : Nat) (word : SlateInteger) :
    Option (List Nat) :=
  spread word (offset * 4) [(0, 0), (1, 1), (2, 2), (3, 3)] a

def littleEndianInt64AtPut (a : List Nat) (offset : Nat) (word : SlateInteger) :
    Option (List Nat) :=
  spread word (offset * 8) [(0, 0), (1, 1), (2, 2), (3, 3), (4, 4), (5, 5), (6, 6), (7, 7)] a

section Platform

-- The bytes of -1.0 tell which order the platform has.
variable (isLittleEndian : Bool)

def int16At (a : List Nat) (offset : Nat) : Option SlateInteger :=
  if isLittleEndian then littleEndianInt16At a offset else bigEndianInt16At a offset

def int32At (a : List Nat) (offset : Nat) : Option SlateInteger :=
  if isLittleEndian then littleEndianInt32At a offset else bigEndianInt32At a offset

def int64At (a : List Nat) (offset : Nat) : Option SlateInteger :=
  if isLittleEndian then littleEndianInt64At a offset else bigEndianInt64At a offset

def int16AtPut (a : List Nat) (offset : Nat) (value : SlateInteger) : Option (List Nat) :=
  if isLittleEndian then littleEndianInt16AtPut a offset value
  else bigEndianInt16AtPut a offset value

def int32AtPut (a : List Nat) (offset : Nat) (value : SlateInteger) : Option (List Nat) :=
  if isLittleEndian then littleEndianInt32AtPut a offset value
  else bigEndianInt32AtPut a offset value

def int64AtPut (a : List Nat) (offset : Nat) (value : SlateInteger) : Option (List Nat) :=
  if isLittleEndian then littleEndianInt64AtPut a offset value
  else bigEndianInt64AtPut a offset value

end Platform

/-- One byte of `next:putInteger:`. The element type is asked of the contents so far, and an
integer stays as it is. -/
def putByte (val : SlateInteger) (s : WriteStream (List Nat)) (byteIndex : Nat) :
    Option (WriteStream (List Nat)) := do
  let byte ← val.endianByteAt byteIndex
  let _ ← s.contents WriteStream.fixed
  s.size.nextPut WriteStream.fixed (← byte.stored)

def nextPutInteger (s : WriteStream (List Nat)) (n : Nat) (val : SlateInteger)
    (littleEndian : Bool) : Option (WriteStream (List Nat)) :=
  if 0 < n then
    if littleEndian then (List.range n).foldlM (putByte val) s
    else (List.range n).reverse.foldlM (putByte val) s
  else some s

/-- `writer &position:`. -/
def writerAt (a : List Nat) (position : Nat) : WriteStream (List Nat) :=
  { WriteStream.on WriteStream.fixed a with position := position }

def asIntegerLoop : List Nat → SlateInteger → SlateInteger → Option SlateInteger
  | [], result, _ => some result
  | byte :: bytes, result, position => do
    let result ← (← (SlateInteger.small byte).times position).plus result
    asIntegerLoop bytes result (← position.times (.small 256))

def asInteger (array : List Nat) (bigEndian : Bool) : Option SlateInteger :=
  asIntegerLoop (if bigEndian then array.reverse else array) (.small 0) (.small 1)

end ByteArrays

section Words

variable {word : SlateInteger} {x : Int}

theorem and_zero (X : Int) : Int.bitwise and X 0 = 0 ∧ Int.bitwise and 0 X = 0 := by
  cases X <;> simp [Int.bitwise, Int.natBitwise]

theorem and_byte (x : Int) :
    Int.bitwise and x 0xFF = x % 256 ∧ Int.bitwise and 0xFF x = x % 256 := by
  have least := Int.emod_nonneg x (show (256 : Int) ≠ 0 by decide)
  have most := Int.emod_lt_of_pos x (show (0 : Int) < 256 by decide)
  have whole : x = x % 256 + 256 * (x / 256) := by omega
  have mask : primBitand (x % 256) 0xFF = x % 256 := by
    have byte := intoByte_eq (x % 256)
    rw [Int.emod_emod] at byte
    exact byte
  have swapped : primBitand 0xFF (x % 256) = primBitand (x % 256) 0xFF := by
    rw [primBitand, primBitand, BitVec.and_comm]
  constructor
  · have split := (@bitwise_byte .bitAnd (x % 256) 0xFF (x / 256) 0 ⟨least, most⟩ (by decide)).1
    rw [← whole] at split
    simp only [LogicOp.bit, LogicOp.applyWith, (and_zero _).1, mask, mul_zero, add_zero] at split
    omega
  · have split := (@bitwise_byte .bitAnd 0xFF (x % 256) 0 (x / 256) (by decide) ⟨least, most⟩).1
    rw [← whole] at split
    simp only [LogicOp.bit, LogicOp.applyWith, (and_zero _).2, swapped, mask, mul_zero, add_zero] at split
    omega

theorem Form.intoByte (form : Form word x) : word.intoByte = some (canonical (x % 256)) := by
  have mask : canonical 0xFF = .small 0xFF := canonical_small (by decide)
  have low {z : Int} (masked : z = Int.bitwise and x 0xFF ∨ z = Int.bitwise and 0xFF x) :
      z = x % 256 := by
    rcases masked with inOrder | swapped
    · rw [inOrder, (and_byte x).1]
    · rw [swapped, (and_byte x).2]
  cases form with
  | short same =>
    obtain ⟨z, result, masked⟩ := logical_eq .bitAnd x 0xFF
    rw [same, SlateInteger.intoByte, ← mask, result, low masked]
  | long i same proper value =>
    obtain ⟨full, ones⟩ := asBigInteger_proper 0xFF
    obtain ⟨z, result, masked⟩ := logicallyCombineWith_eq .bitAnd proper full
    rw [value, ones] at masked
    rw [same, ← low masked, ← result]
    rfl

theorem Form.bitShift (form : Form word x) (n : Int) :
    ∃ w, word.bitShift n = some w ∧ Form w (TwosComplement.bitShift x n) := by
  have proper_shift {i : BigInteger} (proper : i.Proper) (value : i.value = x) :
      ∃ w, i.bitShift n = some w ∧ Form w (TwosComplement.bitShift x n) := by
    by_cases trivial : i.magnitude = 0 ∨ n = 0
    · have kept : i.bitShift n = some (.big i) := by
        rw [BigInteger.bitShift, isZero_eq proper.numeral, if_pos]
        simpa using trivial
      have same : TwosComplement.bitShift x n = x := by
        rcases trivial with none | none
        · have zero : x = 0 := by
            have size := value_magnitude i
            omega
          rw [zero, TwosComplement.bitShift]
          split
          · exact Int.zero_mul _
          · exact Int.zero_ediv _
        · rw [none, bitShift_zero]
      exact ⟨.big i, kept, .long i rfl proper (value.trans same.symm)⟩
    · rw [not_or] at trivial
      by_cases kept : i.isNegative = true → 0 ≤ n ∨ 2 ^ (-n).toNat ∣ i.magnitude
      · have run := bitShift_kept proper trivial.1 trivial.2 kept
        rw [value] at run
        exact ⟨_, run, .short rfl⟩
      · simp only [Classical.not_imp, not_or] at kept
        obtain ⟨b, run, sound, shifted⟩ := bitShift_lost proper kept.1 (by omega) kept.2.2
        rw [value] at shifted
        exact ⟨_, run, .long b rfl sound shifted⟩
  cases form with
  | short same =>
    by_cases small : Small x
    · rw [same]
      exact ⟨_, bitShift_small small, .short rfl⟩
    · obtain ⟨i, big, proper, value⟩ := canonical_eq_big small
      rw [same, big]
      exact proper_shift proper value
  | long i same proper value =>
    rw [same]
    exact proper_shift proper value

theorem byte_lt (x : Int) (k : Nat) : Bytes.byteAt x k < 256 := by
  have below := Int.emod_lt_of_pos (x / 256 ^ k) (show (0 : Int) < 256 by decide)
  unfold Bytes.byteAt
  omega

theorem bitShift_bytes (x : Int) (k : Nat) :
    TwosComplement.bitShift x (-(8 * k : Nat)) % 256 = (Bytes.byteAt x k : Nat) := by
  have power : (2 : Int) ^ (8 * k) = 256 ^ k := by
    rw [pow_mul]
    norm_num
  have shifted : TwosComplement.bitShift x (-(8 * k : Nat)) = x / 256 ^ k := by
    unfold TwosComplement.bitShift
    split
    · have none : k = 0 := by omega
      subst none
      simp
    · rw [neg_neg, Int.toNat_natCast, power]
  rw [shifted, Bytes.byteAt, Int.toNat_of_nonneg (Int.emod_nonneg _ (by decide))]

end Words

namespace ByteArrays

section Put

variable {word : SlateInteger} {x : Int} {a : List Nat}

theorem stored_byte {shifted : SlateInteger} {k : Nat}
    (form : Form shifted (TwosComplement.bitShift x (-(8 * k : Nat)))) :
    ∃ byte, shifted.intoByte = some byte ∧ byte.stored = some (Bytes.byteAt x k) := by
  have low := form.intoByte
  rw [bitShift_bytes] at low
  have byte := byte_lt x k
  have small : Small (Bytes.byteAt x k) := by
    unfold Small minimumValue maximumValue
    omega
  refine ⟨_, low, ?_⟩
  rw [canonical_small small, SlateInteger.stored]
  congr 1
  omega

theorem lowered_run (form : Form word x) (k : Nat) :
    ∃ shifted, lowered word k = some shifted ∧
      Form shifted (TwosComplement.bitShift x (-(8 * k : Nat))) := by
  by_cases lowest : k = 0
  · subst lowest
    have same : TwosComplement.bitShift x (-(8 * 0 : Nat)) = x := bitShift_zero x
    rw [same]
    exact ⟨word, if_pos rfl, form⟩
  · rw [lowered, if_neg lowest]
    exact form.bitShift _

theorem set_split {i : Nat} (inside : i < a.length) (b n : Nat) :
    (a.set i b).take (i + 1) = a.take i ++ [b] ∧
      (a.set i b).drop (i + 1 + n) = a.drop (i + 1 + n) := by
  constructor
  · rw [List.take_succ_eq_append_getElem (by simpa using inside), List.take_set_of_le le_rfl,
      List.getElem_set_self]
  · exact List.drop_set_of_lt (by omega)

theorem spread_run (form : Form word x) (start : Nat) (places : List Nat) (j : Nat) {a : List Nat}
    (within : start + j + places.length ≤ a.length) :
    spread word start ((List.range' j places.length).zip places) a =
      some (a.take (start + j) ++ places.map (Bytes.byteAt x) ++
        a.drop (start + j + places.length)) := by
  induction places generalizing j a with
  | nil => simp [spread]
  | cons k places ih =>
    rw [List.length_cons] at within
    have inside : start + j < a.length := by omega
    obtain ⟨shifted, shift, shiftedForm⟩ := lowered_run form k
    obtain ⟨byte, low, stored⟩ := stored_byte shiftedForm
    have put : byteAtPut a (start + j) byte = some (a.set (start + j) (Bytes.byteAt x k)) := by
      rw [byteAtPut, stored]
      exact Collections.arrayPut_nat inside _
    obtain ⟨before, after⟩ := set_split inside (Bytes.byteAt x k) places.length
    have rest := ih (j + 1) (a := a.set (start + j) (Bytes.byteAt x k))
      (by rw [List.length_set]; omega)
    rw [← add_assoc, before, after] at rest
    simp only [List.length_cons, List.range'_succ, List.zip_cons_cons, spread, shift, low, put,
      Option.bind_eq_bind, Option.bind_some, rest, List.map_cons, List.append_assoc,
      List.singleton_append]
    rw [show start + j + (places.length + 1) = start + j + 1 + places.length by omega]

end Put

section Get

variable {a : List Nat}

def weigh : List Nat → List Nat → Nat
  | k :: places, byte :: bytes => byte * 256 ^ k + weigh places bytes
  | _, _ => 0

attribute [local simp] weigh

theorem weigh_take (places bytes : List Nat) :
    weigh places (bytes.take places.length) = weigh places bytes := by
  induction places generalizing bytes with
  | nil => simp [weigh]
  | cons k places ih =>
    cases bytes with
    | nil => rfl
    | cons byte bytes => rw [List.length_cons, List.take_succ_cons, weigh, weigh, ih]

theorem weigh_upward (bytes : List Nat) (k : Nat) :
    weigh (List.range' k bytes.length) bytes = 256 ^ k * Nat.ofDigits 256 bytes := by
  induction bytes generalizing k with
  | nil => simp [weigh]
  | cons byte bytes ih =>
    rw [List.length_cons, List.range'_succ, weigh, ih, Nat.ofDigits_cons, pow_succ]
    ring

theorem weigh_downward (bytes : List Nat) :
    weigh (List.range bytes.length).reverse bytes = Nat.ofDigits 256 bytes.reverse := by
  induction bytes with
  | nil => rfl
  | cons byte bytes ih =>
    rw [List.length_cons, List.range_succ, List.reverse_append, List.reverse_singleton,
      List.singleton_append, weigh, ih, List.reverse_cons, Nat.ofDigits_append,
      List.length_reverse, Nat.ofDigits_singleton]
    ring

theorem placed_run (bytes : ∀ byte ∈ a, byte < 256) {index : Nat} (inside : index < a.length)
    (place : Nat) : placed a index place = some (canonical (a[index] * 256 ^ place : Nat)) := by
  have byte := bytes a[index] (List.getElem_mem inside)
  have small : Small a[index] := by
    unfold Small minimumValue maximumValue
    omega
  have here : byteAt a index = some (canonical a[index]) := by
    rw [byteAt, List.getElem?_eq_getElem inside, canonical_small small]
    rfl
  unfold placed
  split
  · rename_i lowest
    rw [here, lowest, pow_zero, mul_one]
  · rw [here, Option.bind_eq_bind, Option.bind_some, SlateInteger.byteShift, bitShift_small small]
    have left : (0 : Int) ≤ place * 8 := by omega
    have power : (2 : Int) ^ ((place : Int) * 8).toNat = 256 ^ place := by
      rw [show ((place : Int) * 8).toNat = 8 * place by omega, pow_mul]
      norm_num
    rw [TwosComplement.bitShift, if_pos left, power]
    push_cast
    rfl

theorem assembled_run (bytes : ∀ byte ∈ a, byte < 256) (start : Nat) (places : List Nat) (j : Nat)
    (sum : Nat) (within : start + j + places.length ≤ a.length) :
    ((List.range' j places.length).zip places).foldlM
      (fun sum (index, place) => do
        SlateInteger.plus sum (← placed a (start + index) place)) (canonical sum) =
      some (canonical (sum + weigh places (a.drop (start + j)) : Nat)) := by
  induction places generalizing j sum with
  | nil => simp [weigh]
  | cons k places ih =>
    rw [List.length_cons] at within
    have inside : start + j < a.length := by omega
    have rest := ih (j + 1) (sum + a[start + j] * 256 ^ k) (by omega)
    rw [← add_assoc] at rest
    rw [List.length_cons, List.range'_succ, List.zip_cons_cons, List.foldlM_cons,
      List.drop_eq_getElem_cons inside, weigh]
    simp only [placed_run bytes inside, Option.bind_eq_bind, Option.bind_some, plus_exact]
    rw [← Nat.cast_add, ← add_assoc]
    exact rest

def places (little : Bool) (width : Nat) : List Nat :=
  if little then List.range width else (List.range width).reverse

theorem length_places (little : Bool) (width : Nat) : (places little width).length = width := by
  cases little <;> simp [places]

theorem weigh_places (little : Bool) (bytes : List Nat) :
    weigh (places little bytes.length) bytes = Bytes.value little bytes := by
  cases little with
  | false => exact weigh_downward bytes
  | true =>
    have upward := weigh_upward bytes 0
    rw [pow_zero, one_mul, ← List.range_eq_range'] at upward
    exact upward

theorem map_places (little : Bool) (width : Nat) (x : Int) :
    (places little width).map (Bytes.byteAt x) = Bytes.encode little width x := by
  cases little with
  | false => exact List.map_reverse
  | true => rfl

end Get

section Accessors

variable {word : SlateInteger} {x : Int} {a : List Nat}

def terms (little : Bool) (width : Nat) : List (Nat × Nat) :=
  (List.range' 0 width).zip (places little width)

/-- The bytes with those of an integer written behind `start`. -/
def written (a : List Nat) (start : Nat) (little : Bool) (width : Nat) (x : Int) : List Nat :=
  a.take start ++ Bytes.encode little width x ++ a.drop (start + width)

theorem spread_terms (form : Form word x) (little : Bool) {start width : Nat}
    (within : start + width ≤ a.length) : spread word start (terms little width) a =
      some (written a start little width x) := by
  have run := spread_run form start (places little width) 0 (a := a)
    (by rw [length_places]; exact within)
  rw [length_places, map_places] at run
  exact run

theorem assembled_terms (bytes : ∀ byte ∈ a, byte < 256) (little : Bool) {start width : Nat}
    (some_width : 0 < width) (within : start + width ≤ a.length) :
    assembled a start (terms little width) =
      some (canonical (Bytes.value little ((a.drop start).take width))) := by
  have length := length_places little width
  have sliced : ((a.drop start).take width).length = width := by
    rw [List.length_take, List.length_drop]
    omega
  have value := weigh_places little ((a.drop start).take width)
  rw [sliced] at value
  rw [← value, terms]
  cases order : places little width with
  | nil =>
    rw [order] at length
    exact absurd length some_width.ne
  | cons k rest =>
    rw [order, List.length_cons] at length
    have inside : start < a.length := by omega
    have run := assembled_run bytes start rest 1 (a[start] * 256 ^ k) (by omega)
    have slice := weigh_take (k :: rest) (a.drop start)
    rw [List.length_cons, length] at slice
    rw [slice, List.drop_eq_getElem_cons inside, weigh, ← length, List.range'_succ,
      List.zip_cons_cons]
    simp only [assembled, add_zero, placed_run bytes inside, Option.bind_eq_bind,
      Option.bind_some]
    exact run

end Accessors

section Streams

variable {word : SlateInteger} {x : Int}

theorem putByte_run (form : Form word x) (k : Nat) {a : List Nat} {position : Nat}
    (inside : position < a.length) :
    putByte word ⟨a, position, a.length, a.length⟩ k =
      some ⟨a.set position (Bytes.byteAt x k), position + 1, a.length, a.length⟩ := by
  obtain ⟨shifted, shift, shiftedForm⟩ := form.bitShift (-(8 * k : Nat))
  obtain ⟨byte, low, stored⟩ := stored_byte shiftedForm
  have index : -(k : Int) * 8 = -(8 * k : Nat) := by
    push_cast
    ring
  have run : word.endianByteAt k = some byte := by
    rw [SlateInteger.endianByteAt, SlateInteger.byteShift, index, shift]
    exact low
  have limit : max a.length position = a.length := by omega
  have contents : WriteStream.contents WriteStream.fixed
      (⟨a, position, a.length, a.length⟩ : WriteStream (List Nat)) =
      some ((a.drop 0).take (a.length - 0)) := by
    rw [WriteStream.contents, limit]
    exact Collections.copyFrom_within (Nat.zero_le _) le_rfl
  simp only [putByte, run, contents, stored, Option.bind_eq_bind, Option.bind_some,
    WriteStream.size, limit, WriteStream.nextPut, if_neg (Nat.not_le.mpr inside)]
  change (arrayPut a (position : Int) (Bytes.byteAt x k)).bind _ = _
  rw [Collections.arrayPut_nat inside]
  rfl

theorem putBytes_run (form : Form word x) (places : List Nat) {a : List Nat} (position : Nat)
    (within : position + places.length ≤ a.length) :
    places.foldlM (putByte word) ⟨a, position, a.length, a.length⟩ =
      some ⟨a.take position ++ places.map (Bytes.byteAt x) ++ a.drop (position + places.length),
        position + places.length, a.length, a.length⟩ := by
  induction places generalizing a position with
  | nil => simp
  | cons k places ih =>
    rw [List.length_cons] at within
    have inside : position < a.length := by omega
    obtain ⟨before, after⟩ := set_split inside (Bytes.byteAt x k) places.length
    have rest := ih (a := a.set position (Bytes.byteAt x k)) (position + 1)
      (by rw [List.length_set]; omega)
    rw [before, after, List.length_set] at rest
    rw [List.foldlM_cons, putByte_run form k inside, Option.bind_eq_bind, Option.bind_some, rest,
      List.length_cons, List.map_cons, List.append_assoc, List.append_assoc,
      List.append_assoc, List.singleton_append, List.cons_append,
      show position + (places.length + 1) = position + 1 + places.length by omega]

theorem nextPutInteger_run (form : Form word x) (little : Bool) {a : List Nat}
    {position width : Nat} (within : position + width ≤ a.length) :
    nextPutInteger (writerAt a position) width word little =
      some ⟨written a position little width x, position + width, a.length, a.length⟩ := by
  have length := length_places little width
  have run := putBytes_run form (places little width) position (a := a) (by omega)
  rw [length, map_places] at run
  rw [written, ← run]
  unfold nextPutInteger
  split
  · cases little <;> rfl
  · rename_i empty
    obtain rfl : width = 0 := by omega
    cases little <;> rfl

theorem asIntegerLoop_run {bytes : List Nat} (small : ∀ byte ∈ bytes, byte < 256)
    (result position : Nat) :
    asIntegerLoop bytes (canonical result) (canonical position) =
      some (canonical (result + position * Nat.ofDigits 256 bytes : Nat)) := by
  induction bytes generalizing result position with
  | nil => rfl
  | cons byte bytes ih =>
    have below := small byte List.mem_cons_self
    have one : SlateInteger.small byte = canonical byte := by
      rw [canonical_small]
      unfold Small minimumValue maximumValue
      omega
    have radix : SlateInteger.small 256 = canonical (256 : Nat) := by
      rw [canonical_small]
      · rfl
      · decide
    have rest := ih (fun b here => small b (List.mem_cons_of_mem _ here))
      (byte * position + result) (position * 256)
    simp only [asIntegerLoop, one, radix, times_exact, plus_exact, Option.bind_eq_bind,
      Option.bind_some]
    rw [Nat.ofDigits_cons]
    push_cast at rest ⊢
    rw [rest]
    congr 2
    ring

theorem asInteger_run {bytes : List Nat} (small : ∀ byte ∈ bytes, byte < 256) (little : Bool) :
    asInteger bytes (!little) = some (canonical (Bytes.value little bytes)) := by
  have zero : SlateInteger.small 0 = canonical (0 : Nat) := canonical_zero.symm
  have one : SlateInteger.small 1 = canonical (1 : Nat) := canonical_one.symm
  cases little with
  | false =>
    have run := asIntegerLoop_run (fun b here => small b (List.mem_reverse.mp here)) 0 1
    rw [zero_add, one_mul] at run
    rw [asInteger, zero, one]
    exact run
  | true =>
    have run := asIntegerLoop_run small 0 1
    rw [zero_add, one_mul] at run
    rw [asInteger, zero, one]
    exact run

end Streams

section RoundTrip

inductive Width
  | int16
  | int32
  | int64

namespace Width

def bytes : Width → Nat
  | int16 => 2
  | int32 => 4
  | int64 => 8

def littleEndianAt : Width → List Nat → Nat → Option SlateInteger
  | int16 => littleEndianInt16At
  | int32 => littleEndianInt32At
  | int64 => littleEndianInt64At

def bigEndianAt : Width → List Nat → Nat → Option SlateInteger
  | int16 => bigEndianInt16At
  | int32 => bigEndianInt32At
  | int64 => bigEndianInt64At

def littleEndianAtPut : Width → List Nat → Nat → SlateInteger → Option (List Nat)
  | int16 => littleEndianInt16AtPut
  | int32 => littleEndianInt32AtPut
  | int64 => littleEndianInt64AtPut

def bigEndianAtPut : Width → List Nat → Nat → SlateInteger → Option (List Nat)
  | int16 => bigEndianInt16AtPut
  | int32 => bigEndianInt32AtPut
  | int64 => bigEndianInt64AtPut

def platformAt (isLittleEndian : Bool) : Width → List Nat → Nat → Option SlateInteger
  | int16 => int16At isLittleEndian
  | int32 => int32At isLittleEndian
  | int64 => int64At isLittleEndian

def platformAtPut (isLittleEndian : Bool) :
    Width → List Nat → Nat → SlateInteger → Option (List Nat)
  | int16 => int16AtPut isLittleEndian
  | int32 => int32AtPut isLittleEndian
  | int64 => int64AtPut isLittleEndian

theorem get_eq (width : Width) (little : Bool) (a : List Nat) (offset : Nat) :
    width.platformAt little a offset =
      assembled a (offset * width.bytes) (terms little width.bytes) := by
  cases width <;> cases little <;> rfl

theorem put_eq (width : Width) (little : Bool) (a : List Nat) (offset : Nat)
    (word : SlateInteger) : width.platformAtPut little a offset word =
      spread word (offset * width.bytes) (terms little width.bytes) a := by
  cases width <;> cases little <;> rfl

theorem positive (width : Width) : 0 < width.bytes := by
  cases width <;> decide

end Width

/-- Putting an integer changes only the addressed bytes, and reading them answers it modulo the
width. -/
def Returns (put : Option (List Nat)) (get : List Nat → Option SlateInteger) (a : List Nat)
    (start width : Nat) (x : Int) : Prop :=
  ∃ after, put = some after ∧ get after = some (canonical (x % 2 ^ (8 * width))) ∧
    after.length = a.length ∧ ∀ i, i < start ∨ start + width ≤ i → after[i]? = a[i]?

def Reversed (one other : Option (List Nat)) (start width : Nat) : Prop :=
  ∃ low high, one = some low ∧ other = some high ∧
    (low.drop start).take width = ((high.drop start).take width).reverse

variable {word : SlateInteger} {x : Int} {a : List Nat} {start width : Nat}

theorem length_written (within : start + width ≤ a.length) (little : Bool) (x : Int) :
    (written a start little width x).length = a.length := by
  rw [written, List.length_append, List.length_append, Bytes.length_encode, List.length_take,
    List.length_drop]
  omega

theorem slice_written (within : start + width ≤ a.length) (little : Bool) (x : Int) :
    ((written a start little width x).drop start).take width = Bytes.encode little width x := by
  have length : (a.take start).length = start := by
    rw [List.length_take]
    omega
  rw [written, List.append_assoc, List.drop_left' length,
    List.take_left' (Bytes.length_encode little width x)]

theorem written_outside (within : start + width ≤ a.length) (little : Bool) (x : Int) {i : Nat}
    (outside : i < start ∨ start + width ≤ i) :
    (written a start little width x)[i]? = a[i]? := by
  have length : (a.take start).length = start := by
    rw [List.length_take]
    omega
  rw [written]
  rcases outside with before | after
  · rw [List.append_assoc, List.getElem?_append_left (by omega), List.getElem?_take_of_lt before]
  · have size : (a.take start ++ Bytes.encode little width x).length = start + width := by
      rw [List.length_append, length, Bytes.length_encode]
    rw [List.getElem?_append_right (by omega), List.getElem?_drop, size]
    congr 1
    omega

theorem encode_lt (little : Bool) (width : Nat) (x : Int) :
    ∀ byte ∈ Bytes.encode little width x, byte < 256 := by
  intro byte here
  have listed : byte ∈ (List.range width).map (Bytes.byteAt x) := by
    cases little with
    | false => exact List.mem_reverse.mp here
    | true => exact here
  obtain ⟨k, _, rfl⟩ := List.mem_map.mp listed
  exact byte_lt x k

theorem written_lt (bytes : ∀ byte ∈ a, byte < 256) (little : Bool) :
    ∀ byte ∈ written a start little width x, byte < 256 := by
  intro byte here
  rw [written, List.mem_append, List.mem_append] at here
  rcases here with (before | inside) | after
  · exact bytes byte (List.mem_of_mem_take before)
  · exact encode_lt little width x byte inside
  · exact bytes byte (List.mem_of_mem_drop after)

theorem returns_of {put : Option (List Nat)} {get : List Nat → Option SlateInteger}
    (bytes : ∀ byte ∈ a, byte < 256) (within : start + width ≤ a.length) (little : Bool)
    (stored : put = some (written a start little width x))
    (read : ∀ after : List Nat, (∀ byte ∈ after, byte < 256) → after.length = a.length →
      get after = some (canonical (Bytes.value little ((after.drop start).take width)))) :
    Returns put get a start width x := by
  have length := length_written within little x
  refine ⟨_, stored, ?_, length, fun i outside => written_outside within little x outside⟩
  rw [read _ (written_lt bytes little) length, slice_written within, Bytes.value_encode, pow_mul]
  norm_num

theorem reversed_of {one other : Option (List Nat)} (within : start + width ≤ a.length)
    (low : one = some (written a start true width x))
    (high : other = some (written a start false width x)) : Reversed one other start width := by
  refine ⟨_, _, low, high, ?_⟩
  rw [slice_written within, slice_written within]
  exact (List.reverse_reverse _).symm

end RoundTrip

end ByteArrays

end SlateVm
