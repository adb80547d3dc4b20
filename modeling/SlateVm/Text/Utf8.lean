import Mathlib.Data.Nat.Bitwise
import SlateVm.Text.Stream

/-! `UTF8 Encoder nextPut:` and `UTF8 Decoder next`, against the standard encoding of a
scalar value. -/
namespace SlateVm

/-- The loop of `nextPut:`. It puts the bytes of a character from the low end. -/
def utf8Loop (rest : Nat) (sixthBitOn : Bool)
    (forbiddenForLeadingOctet increment counterBit counterIncrement : Nat)
    (byteStream : List Nat) : List Nat :=
  if rest ≠ 0 ∨ sixthBitOn then
    if rest < 0x100 ∧ rest &&& forbiddenForLeadingOctet = 0 then
      byteStream ++ [(rest &&& 0x3F) ||| counterBit]
    else
      utf8Loop (rest >>> 6) (rest &&& 0x20 != 0) (forbiddenForLeadingOctet ||| increment)
        (increment >>> 1) (counterBit ||| counterIncrement) (counterIncrement >>> 1)
        (byteStream ++ [(rest &&& 0x3F) ||| 0x80])
  else byteStream
termination_by rest + sixthBitOn.toNat
decreasing_by
  have positive : rest ≠ 0 := by
    rintro rfl
    simp_all
  have bit : (rest &&& 0x20 != 0).toNat ≤ 1 := Bool.toNat_le _
  have small : rest < 32 → (rest &&& 0x20 != 0) = false := by
    intro low
    have none : ∀ x < 32, x &&& 0x20 = 0 := by decide
    simp [none rest low]
  have shifted : rest >>> 6 = rest / 64 := by simp [Nat.shiftRight_eq_div_pow]
  rw [shifted]
  by_cases low : rest < 32
  · rw [small low, Bool.toNat_false]
    omega
  · omega

def utf8Bytes (codePoint : Nat) : List Nat :=
  if codePoint < 0x80 then [codePoint]
  else (utf8Loop codePoint false 0xC0 0x20 0x80 0x40 []).reverse

def putBytes : List Nat → Streaming Unit
  | [] => pure ()
  | byte :: bytes => do
    writerNextPut (← asciiCharacter byte)
    putBytes bytes

/- `isNonCharacter` is false for every character. -/
def utf8NextPut (codePoint : Nat) : Streaming Unit := putBytes (utf8Bytes codePoint)

def nextOrMalformed : Streaming Nat := do
  match ← readerNext with
  | some character => character.code
  | none => throw .utf8Malformed

def utf8ThreeBytes (value1 : Nat) : Streaming (Option Nat) :=
  if value1 &&& 0xF0 = 224 then do
    let value2 ← nextOrMalformed
    let value3 ← nextOrMalformed
    return some (((value1 &&& 15) <<< 12) + ((value2 &&& 63) <<< 6) + (value3 &&& 63))
  else return none

def utf8FourBytes (value1 : Nat) (unicode : Option Nat) : Streaming (Option Nat) :=
  if value1 &&& 0xF8 = 240 then do
    let value2 ← nextOrMalformed
    let value3 ← nextOrMalformed
    let value4 ← nextOrMalformed
    return some (((value1 &&& 7) <<< 18) + ((value2 &&& 63) <<< 12) + ((value3 &&& 63) <<< 6)
      + (value4 &&& 63))
  else return unicode

/- The two byte case answers from inside, the three and four byte cases set `unicode`. -/
def utf8NextCode : Streaming (Option Nat) := do
  match ← readerNext with
  | none => return none
  | some character1 =>
    let value1 ← character1.code
    if value1 ≤ 127 then
      return some value1
    else if value1 &&& 0xE0 = 192 then
      let value2 ← nextOrMalformed
      return some (((value1 &&& 31) <<< 6) + (value2 &&& 63))
    else
      let unicode ← utf8ThreeBytes value1
      let unicode ← utf8FourBytes value1 unicode
      return some (unicode.getD 0)

def utf8Next : Streaming Nat := do
  match ← utf8NextCode with
  | some code => return code
  | none => throw .conversionNotFound

section Bits

theorem and_63 (n : Nat) : n &&& 63 = n % 64 := Nat.and_two_pow_sub_one_eq_mod n 6

theorem and_31 (n : Nat) : n &&& 31 = n % 32 := Nat.and_two_pow_sub_one_eq_mod n 5

theorem and_15 (n : Nat) : n &&& 15 = n % 16 := Nat.and_two_pow_sub_one_eq_mod n 4

theorem and_7 (n : Nat) : n &&& 7 = n % 8 := Nat.and_two_pow_sub_one_eq_mod n 3

theorem sixth_bit (n : Nat) : (n &&& 0x20 != 0) = decide (n / 32 % 2 = 1) := by
  have bit : n &&& 2 ^ 5 = 2 ^ 5 * (n.testBit 5).toNat := by
    rw [Nat.and_two_pow, Nat.mul_comm]
  have low : (n.testBit 5).toNat = if n / 32 % 2 = 1 then 1 else 0 := by
    rw [Nat.testBit_eq_decide_div_mod_eq]
    by_cases odd : n / 2 ^ 5 % 2 = 1 <;> simp_all
  change (n &&& 2 ^ 5 != 0) = _
  rw [bit, low]
  by_cases odd : n / 32 % 2 = 1 <;> simp [odd]

end Bits

section Loop

variable {rest forbidden increment counterBit counterIncrement : Nat} {sixthBitOn : Bool}
  {byteStream : List Nat}

theorem utf8Loop_done : utf8Loop 0 false forbidden increment counterBit counterIncrement
    byteStream = byteStream := by
  rw [utf8Loop]
  simp

theorem utf8Loop_lead (going : rest ≠ 0 ∨ sixthBitOn = true) (small : rest < 0x100)
    (free : rest &&& forbidden = 0) :
    utf8Loop rest sixthBitOn forbidden increment counterBit counterIncrement byteStream =
      byteStream ++ [(rest % 64) ||| counterBit] := by
  rw [utf8Loop, if_pos going, if_pos ⟨small, free⟩, and_63]

theorem utf8Loop_more (positive : rest ≠ 0) (large : ¬ (rest < 0x100 ∧ rest &&& forbidden = 0)) :
    utf8Loop rest sixthBitOn forbidden increment counterBit counterIncrement byteStream =
      utf8Loop (rest / 64) (decide (rest / 32 % 2 = 1)) (forbidden ||| increment)
        (increment >>> 1) (counterBit ||| counterIncrement) (counterIncrement >>> 1)
        (byteStream ++ [rest % 64 + 0x80]) := by
  have continuation : ∀ x < 64, x ||| 0x80 = x + 0x80 := by decide
  rw [utf8Loop, if_pos (Or.inl positive), if_neg large, and_63, sixth_bit,
    continuation _ (Nat.mod_lt _ (by omega)), Nat.shiftRight_eq_div_pow rest 6]

end Loop

section Encode

theorem free_high : ∀ k < 9, ∀ x < 256, x &&& (256 - 2 ^ k) = 0 ↔ x < 2 ^ k := by decide +kernel

theorem free_c0 : ∀ x < 256, x &&& 0xC0 = 0 ↔ x < 64 := free_high 6 (by decide)

theorem free_e0 : ∀ x < 256, x &&& 0xE0 = 0 ↔ x < 32 := free_high 5 (by decide)

theorem free_f0 : ∀ x < 256, x &&& 0xF0 = 0 ↔ x < 16 := free_high 4 (by decide)

theorem free_f8 : ∀ x < 256, x &&& 0xF8 = 0 ↔ x < 8 := free_high 3 (by decide)

theorem lead_c0 : ∀ x < 32, x ||| 0xC0 = x + 0xC0 := by decide

theorem lead_e0 : ∀ x < 16, x ||| 0xE0 = x + 0xE0 := by decide

theorem lead_f0 : ∀ x < 8, x ||| 0xF0 = x + 0xF0 := by decide

variable {codePoint : Nat}

theorem first_round (low : 0x80 ≤ codePoint) :
    utf8Loop codePoint false 0xC0 0x20 0x80 0x40 [] =
      utf8Loop (codePoint / 64) (decide (codePoint / 32 % 2 = 1)) 0xE0 0x10 0xC0 0x20
        [codePoint % 64 + 0x80] := by
  apply utf8Loop_more (by omega)
  rintro ⟨small, free⟩
  have := (free_c0 _ small).mp free
  omega

theorem second_round (low : 0x800 ≤ codePoint) :
    utf8Loop codePoint false 0xC0 0x20 0x80 0x40 [] =
      utf8Loop (codePoint / 4096) (decide (codePoint / 2048 % 2 = 1)) 0xF0 0x08 0xE0 0x10
        [codePoint % 64 + 0x80, codePoint / 64 % 64 + 0x80] := by
  have more : ¬ (codePoint / 64 < 0x100 ∧ (codePoint / 64) &&& 0xE0 = 0) := by
    rintro ⟨small, free⟩
    have := (free_e0 _ small).mp free
    omega
  have round := @utf8Loop_more (codePoint / 64) 0xE0 0x10 0xC0 0x20
    (decide (codePoint / 32 % 2 = 1)) [codePoint % 64 + 0x80] (by omega) more
  rw [Nat.div_div_eq_div_mul, Nat.div_div_eq_div_mul] at round
  exact (first_round (by omega)).trans round

theorem third_round (low : 0x10000 ≤ codePoint) :
    utf8Loop codePoint false 0xC0 0x20 0x80 0x40 [] =
      utf8Loop (codePoint / 262144) (decide (codePoint / 131072 % 2 = 1)) 0xF8 0x04 0xF0 0x08
        [codePoint % 64 + 0x80, codePoint / 64 % 64 + 0x80, codePoint / 4096 % 64 + 0x80] := by
  have more : ¬ (codePoint / 4096 < 0x100 ∧ (codePoint / 4096) &&& 0xF0 = 0) := by
    rintro ⟨small, free⟩
    have := (free_f0 _ small).mp free
    omega
  have round := @utf8Loop_more (codePoint / 4096) 0xF0 0x08 0xE0 0x10
    (decide (codePoint / 2048 % 2 = 1)) [codePoint % 64 + 0x80, codePoint / 64 % 64 + 0x80]
    (by omega) more
  rw [Nat.div_div_eq_div_mul, Nat.div_div_eq_div_mul] at round
  exact (second_round (by omega)).trans round

theorem utf8Bytes_two (low : 0x80 ≤ codePoint) (high : codePoint < 0x800) :
    utf8Bytes codePoint = [codePoint / 64 + 0xC0, codePoint % 64 + 0x80] := by
  have free : (codePoint / 64) &&& 0xE0 = 0 := (free_e0 _ (by omega)).mpr (by omega)
  have lead := lead_c0 (codePoint / 64) (by omega)
  have whole : codePoint / 64 % 64 = codePoint / 64 := Nat.mod_eq_of_lt (by omega)
  rw [utf8Bytes, if_neg (by omega), first_round low,
    utf8Loop_lead (Or.inl (by omega)) (by omega) free, whole, lead]
  rfl

theorem utf8Bytes_three (low : 0x800 ≤ codePoint) (high : codePoint < 0x10000) :
    utf8Bytes codePoint =
      [codePoint / 4096 + 0xE0, codePoint / 64 % 64 + 0x80, codePoint % 64 + 0x80] := by
  have going : codePoint / 4096 ≠ 0 ∨ decide (codePoint / 2048 % 2 = 1) = true := by
    rw [decide_eq_true_eq]
    omega
  have free : (codePoint / 4096) &&& 0xF0 = 0 := (free_f0 _ (by omega)).mpr (by omega)
  have lead := lead_e0 (codePoint / 4096) (by omega)
  have whole : codePoint / 4096 % 64 = codePoint / 4096 := Nat.mod_eq_of_lt (by omega)
  rw [utf8Bytes, if_neg (by omega), second_round low, utf8Loop_lead going (by omega) free, whole,
    lead]
  rfl

theorem utf8Bytes_four (low : 0x20000 ≤ codePoint) (high : codePoint < 0x110000) :
    utf8Bytes codePoint = [codePoint / 262144 + 0xF0, codePoint / 4096 % 64 + 0x80,
      codePoint / 64 % 64 + 0x80, codePoint % 64 + 0x80] := by
  have going : codePoint / 262144 ≠ 0 ∨ decide (codePoint / 131072 % 2 = 1) = true := by
    rw [decide_eq_true_eq]
    omega
  have free : (codePoint / 262144) &&& 0xF8 = 0 := (free_f8 _ (by omega)).mpr (by omega)
  have lead := lead_f0 (codePoint / 262144) (by omega)
  have whole : codePoint / 262144 % 64 = codePoint / 262144 := Nat.mod_eq_of_lt (by omega)
  rw [utf8Bytes, if_neg (by omega), third_round (by omega),
    utf8Loop_lead going (by omega) free, whole, lead]
  rfl

theorem utf8Bytes_headless (low : 0x10000 ≤ codePoint) (high : codePoint < 0x20000) :
    utf8Bytes codePoint = [codePoint / 4096 % 64 + 0x80, codePoint / 64 % 64 + 0x80,
      codePoint % 64 + 0x80] := by
  have none : codePoint / 262144 = 0 := by omega
  have off : decide (codePoint / 131072 % 2 = 1) = false := by
    rw [decide_eq_false_iff_not]
    omega
  rw [utf8Bytes, if_neg (by omega), third_round low, none, off, utf8Loop_done]
  rfl

theorem putBytes_all {bytes : List Nat} (octets : ∀ b ∈ bytes, b < 256) (written : List UInt8) :
    putBytes bytes written = .ok () (written ++ bytes.map UInt8.ofNat) := by
  induction bytes generalizing written with
  | nil => simp [putBytes, pure, EStateM.pure]
  | cons b bs ih =>
    have first : b < 256 := octets b List.mem_cons_self
    have rest := ih (fun b' inside => octets b' (List.mem_cons_of_mem b inside))
      (written ++ [UInt8.ofNat b])
    simp [putBytes, asciiCharacter, writerNextPut, first, bind, EStateM.bind, pure, EStateM.pure,
      rest]

def Headless (c : Char) : Prop := 0x10000 ≤ c.toNat ∧ c.toNat < 0x20000

instance (c : Char) : Decidable (Headless c) := inferInstanceAs (Decidable (_ ∧ _))

def utf8Put (c : Char) : List UInt8 :=
  if Headless c then (String.utf8EncodeChar c).tail else String.utf8EncodeChar c

theorem toNat_lt (c : Char) : c.toNat < 0x110000 := by
  have := c.valid
  unfold UInt32.isValidChar Nat.isValidChar at this
  change c.val.toNat < _
  omega

theorem standard_one {c : Char} (high : c.toNat < 0x80) :
    String.utf8EncodeChar c = [UInt8.ofNat c.toNat] := by
  unfold String.utf8EncodeChar
  change (if c.toNat ≤ 0x7f then _ else _) = _
  rw [if_pos (by omega)]
  rfl

theorem standard_two {c : Char} (low : 0x80 ≤ c.toNat) (high : c.toNat < 0x800) :
    String.utf8EncodeChar c =
      [c.toNat / 64 + 0xC0, c.toNat % 64 + 0x80].map UInt8.ofNat := by
  have whole : c.toNat / 64 % 32 = c.toNat / 64 := Nat.mod_eq_of_lt (by omega)
  unfold String.utf8EncodeChar
  change (if c.toNat ≤ 0x7f then _ else if c.toNat ≤ 0x7ff then _ else _) = _
  rw [if_neg (by omega), if_pos (by omega)]
  change [UInt8.ofNat (c.toNat / 64 % 32 + 0xC0), _] = _
  rw [whole]
  rfl

theorem standard_three {c : Char} (low : 0x800 ≤ c.toNat) (high : c.toNat < 0x10000) :
    String.utf8EncodeChar c =
      [c.toNat / 4096 + 0xE0, c.toNat / 64 % 64 + 0x80, c.toNat % 64 + 0x80].map
        UInt8.ofNat := by
  have whole : c.toNat / 4096 % 16 = c.toNat / 4096 := Nat.mod_eq_of_lt (by omega)
  unfold String.utf8EncodeChar
  change (if c.toNat ≤ 0x7f then _ else if c.toNat ≤ 0x7ff then _ else
    if c.toNat ≤ 0xffff then _ else _) = _
  rw [if_neg (by omega), if_neg (by omega), if_pos (by omega)]
  change [UInt8.ofNat (c.toNat / 4096 % 16 + 0xE0), _, _] = _
  rw [whole]
  rfl

theorem standard_four {c : Char} (low : 0x10000 ≤ c.toNat) :
    String.utf8EncodeChar c =
      [c.toNat / 262144 + 0xF0, c.toNat / 4096 % 64 + 0x80, c.toNat / 64 % 64 + 0x80,
        c.toNat % 64 + 0x80].map UInt8.ofNat := by
  have bound := toNat_lt c
  have whole : c.toNat / 262144 % 8 = c.toNat / 262144 := Nat.mod_eq_of_lt (by omega)
  unfold String.utf8EncodeChar
  change (if c.toNat ≤ 0x7f then _ else if c.toNat ≤ 0x7ff then _ else
    if c.toNat ≤ 0xffff then _ else _) = _
  rw [if_neg (by omega), if_neg (by omega), if_neg (by omega)]
  change [UInt8.ofNat (c.toNat / 262144 % 8 + 0xF0), _, _, _] = _
  rw [whole]
  rfl

theorem utf8NextPut_writes (c : Char) (written : List UInt8) :
    utf8NextPut c.toNat written = .ok () (written ++ utf8Put c) := by
  have bound := toNat_lt c
  have puts {bytes : List Nat} (put : utf8Bytes c.toNat = bytes) (octets : ∀ b ∈ bytes, b < 256)
      (same : utf8Put c = bytes.map UInt8.ofNat) :
      utf8NextPut c.toNat written = .ok () (written ++ utf8Put c) := by
    rw [utf8NextPut, put, putBytes_all octets, same]
  have headed (outside : ¬ Headless c) : utf8Put c = String.utf8EncodeChar c := if_neg outside
  unfold Headless at headed
  rcases Nat.lt_or_ge c.toNat 0x80 with one | low
  · apply puts (if_pos one)
    · simp only [List.forall_mem_singleton]
      omega
    · exact (headed (by omega)).trans (standard_one one)
  rcases Nat.lt_or_ge c.toNat 0x800 with two | low
  · apply puts (utf8Bytes_two low two)
    · simp only [List.forall_mem_cons, List.not_mem_nil, false_imp_iff, implies_true, and_true]
      omega
    · exact (headed (by omega)).trans (standard_two low two)
  rcases Nat.lt_or_ge c.toNat 0x10000 with three | low
  · apply puts (utf8Bytes_three low three)
    · simp only [List.forall_mem_cons, List.not_mem_nil, false_imp_iff, implies_true, and_true]
      omega
    · exact (headed (by omega)).trans (standard_three low three)
  rcases Nat.lt_or_ge c.toNat 0x20000 with headless | four
  · apply puts (utf8Bytes_headless low headless)
    · simp only [List.forall_mem_cons, List.not_mem_nil, false_imp_iff, implies_true, and_true]
      omega
    · rw [utf8Put, if_pos ⟨low, headless⟩, standard_four low]
      rfl
  · apply puts (utf8Bytes_four four bound)
    · simp only [List.forall_mem_cons, List.not_mem_nil, false_imp_iff, implies_true, and_true]
      omega
    · exact (headed (by omega)).trans (standard_four low)

end Encode

section Decode

variable {b1 b2 b3 b4 : UInt8} {rest : List UInt8}

theorem lead_high : ∀ k < 8, ∀ x < 256, x &&& (256 - 2 ^ k) = 256 - 2 ^ (k + 1) ↔
    256 - 2 ^ (k + 1) ≤ x ∧ x < 256 - 2 ^ k := by decide +kernel

theorem two_lead : ∀ x < 256, x &&& 0xE0 = 192 ↔ 192 ≤ x ∧ x < 224 := lead_high 5 (by decide)

theorem three_lead : ∀ x < 256, x &&& 0xF0 = 224 ↔ 224 ≤ x ∧ x < 240 := lead_high 4 (by decide)

theorem four_lead : ∀ x < 256, x &&& 0xF8 = 240 ↔ 240 ≤ x ∧ x < 248 := lead_high 3 (by decide)

theorem utf8Next_one (lead : b1.toNat < 128) : utf8Next (b1 :: rest) = .ok b1.toNat rest := by
  simp [utf8Next, utf8NextCode, readerNext, Element.code, bind, EStateM.bind, pure, EStateM.pure,
    show b1.toNat ≤ 127 by omega]

theorem utf8Next_two (low : 192 ≤ b1.toNat) (high : b1.toNat < 224) :
    utf8Next (b1 :: b2 :: rest) = .ok (b1.toNat % 32 * 64 + b2.toNat % 64) rest := by
  have lead := (two_lead b1.toNat (by omega)).mpr ⟨low, high⟩
  simp [utf8Next, utf8NextCode, nextOrMalformed, readerNext, Element.code, bind, EStateM.bind,
    pure, EStateM.pure, show ¬ b1.toNat ≤ 127 by omega, lead, and_63, and_31, Nat.shiftLeft_eq]

theorem utf8Next_three (low : 224 ≤ b1.toNat) (high : b1.toNat < 240) :
    utf8Next (b1 :: b2 :: b3 :: rest) =
      .ok (b1.toNat % 16 * 4096 + b2.toNat % 64 * 64 + b3.toNat % 64) rest := by
  have lead := (three_lead b1.toNat (by omega)).mpr ⟨low, high⟩
  have two : ¬ b1.toNat &&& 0xE0 = 192 := by
    intro h
    have := (two_lead b1.toNat (by omega)).mp h
    omega
  have four : ¬ b1.toNat &&& 0xF8 = 240 := by
    intro h
    have := (four_lead b1.toNat (by omega)).mp h
    omega
  simp [utf8Next, utf8NextCode, utf8ThreeBytes, utf8FourBytes, nextOrMalformed, readerNext,
    Element.code, bind, EStateM.bind, pure, EStateM.pure, show ¬ b1.toNat ≤ 127 by omega, lead, two, four, and_63, and_15,
    Nat.shiftLeft_eq]

theorem utf8Next_four (low : 240 ≤ b1.toNat) (high : b1.toNat < 248) :
    utf8Next (b1 :: b2 :: b3 :: b4 :: rest) =
      .ok (b1.toNat % 8 * 262144 + b2.toNat % 64 * 4096 + b3.toNat % 64 * 64 + b4.toNat % 64)
        rest := by
  have lead := (four_lead b1.toNat (by omega)).mpr ⟨low, high⟩
  have two : ¬ b1.toNat &&& 0xE0 = 192 := by
    intro h
    have := (two_lead b1.toNat (by omega)).mp h
    omega
  have three : ¬ b1.toNat &&& 0xF0 = 224 := by
    intro h
    have := (three_lead b1.toNat (by omega)).mp h
    omega
  simp [utf8Next, utf8NextCode, utf8ThreeBytes, utf8FourBytes, nextOrMalformed, readerNext,
    Element.code, bind, EStateM.bind, pure, EStateM.pure, show ¬ b1.toNat ≤ 127 by omega, lead, two, three, and_63, and_7,
    Nat.shiftLeft_eq]

theorem utf8Next_nil : utf8Next [] = .error .exhaustion [] := rfl

theorem utf8Next_standard (c : Char) (rest : List UInt8) :
    utf8Next (String.utf8EncodeChar c ++ rest) = .ok c.toNat rest := by
  have bound := toNat_lt c
  rcases Nat.lt_or_ge c.toNat 0x80 with one | low
  · have octet : (UInt8.ofNat c.toNat).toNat = c.toNat :=
      UInt8.toNat_ofNat_of_lt (one.trans (by decide))
    rw [standard_one one, List.singleton_append, utf8Next_one (by omega), octet]
  rcases Nat.lt_or_ge c.toNat 0x800 with two | low
  · rw [standard_two low two]
    simp only [List.map_cons, List.map_nil, List.cons_append, List.nil_append]
    rw [utf8Next_two] <;> simp only [UInt8.toNat_ofNat'] <;> try omega
    congr 1
    omega
  rcases Nat.lt_or_ge c.toNat 0x10000 with three | low
  · rw [standard_three low three]
    simp only [List.map_cons, List.map_nil, List.cons_append, List.nil_append]
    rw [utf8Next_three] <;> simp only [UInt8.toNat_ofNat'] <;> try omega
    congr 1
    omega
  · rw [standard_four low]
    simp only [List.map_cons, List.map_nil, List.cons_append, List.nil_append]
    rw [utf8Next_four] <;> simp only [UInt8.toNat_ofNat'] <;> try omega
    congr 1
    omega

end Decode

end SlateVm

/-! What holds of whole texts in UTF-8: which of them survive the encoder and the decoder,
and on which bytes the decoder does what a strict one does. -/
namespace SlateVm

/-- The encoder puts the standard bytes of a text and the decoder reads the text from them. -/
structure Utf8RoundTrip (text : List Char) : Prop where
  encodes : nextPutAll utf8NextPut (text.map Char.toNat) [] =
    .ok () (text.flatMap String.utf8EncodeChar)
  decodes : Reads utf8Next (text.flatMap String.utf8EncodeChar) (text.map Char.toNat)
    .exhaustion []

theorem utf8_decodes (text : List Char) :
    Reads utf8Next (text.flatMap String.utf8EncodeChar) (text.map Char.toNat) .exhaustion [] := by
  have each : ∀ c ∈ text, ∀ rest, utf8Next (String.utf8EncodeChar c ++ rest) = .ok c.toNat rest :=
    fun c _ rest => utf8Next_standard c rest
  have reads := Reads.flatMap each utf8Next_nil
  rwa [List.append_nil] at reads

theorem utf8_encodes (text : List Char) :
    nextPutAll utf8NextPut (text.map Char.toNat) [] = .ok () (text.flatMap utf8Put) :=
  nextPutAll_flatMap (fun c _ written => utf8NextPut_writes c written) []

theorem utf8Put_length (c : Char) :
    (utf8Put c).length + (if Headless c then 1 else 0) = (String.utf8EncodeChar c).length := by
  have some : 0 < (String.utf8EncodeChar c).length := List.length_pos_iff.mpr
    String.utf8EncodeChar_ne_nil
  unfold utf8Put
  split
  · rw [List.length_tail]
    omega
  · rfl

theorem utf8Put_total (text : List Char) :
    (text.flatMap utf8Put).length + text.countP (Headless ·) =
      (text.flatMap String.utf8EncodeChar).length := by
  induction text with
  | nil => rfl
  | cons c cs ih =>
    have here := utf8Put_length c
    simp only [List.flatMap_cons, List.length_append, List.countP_cons, decide_eq_true_eq]
    omega

theorem utf8_round_trip_iff (text : List Char) :
    Utf8RoundTrip text ↔ ∀ c ∈ text, ¬ (0x10000 ≤ c.toNat ∧ c.toNat < 0x20000) := by
  constructor
  · intro trip
    have bytes := trip.encodes
    rw [utf8_encodes] at bytes
    have same : text.flatMap utf8Put = text.flatMap String.utf8EncodeChar := by
      simpa using bytes
    have total := utf8Put_total text
    rw [same] at total
    have none : text.countP (Headless ·) = 0 := by omega
    intro c inside headless
    exact List.countP_eq_zero.mp none c inside (decide_eq_true headless)
  · intro headed
    constructor
    · rw [utf8_encodes]
      congr 1
      exact congrArg List.flatten (List.map_congr_left fun c inside => if_neg (headed c inside))
    · exact utf8_decodes text

/-- The first code point after the basic plane loses its leading byte. -/
theorem utf8_round_trip_fails : ¬ Utf8RoundTrip [Char.ofNat 0x10000] := by
  intro trip
  have bytes := trip.encodes
  rw [utf8_encodes] at bytes
  have put : utf8Put (Char.ofNat 0x10000) = [0x90, 0x80, 0x80] := by decide
  have standard : String.utf8EncodeChar (Char.ofNat 0x10000) = [0xF0, 0x90, 0x80, 0x80] := by
    decide
  simp [put, standard] at bytes

section Strict

def Utf8WellFormed (bytes : List UInt8) : Prop :=
  ∃ text : List Char, bytes = text.flatMap String.utf8EncodeChar

def Utf8Continues (bytes : List UInt8) : Prop := ∃ more, Utf8WellFormed (bytes ++ more)

/-- With `rest` unread, the input has just stopped being the start of a well formed one: at
the last byte that was read, or because it ends inside a character. -/
inductive StopsAt : List UInt8 → List UInt8 → Prop
  | stray {start b rest} : Utf8Continues start → ¬ Utf8Continues (start ++ [b]) →
      StopsAt (start ++ b :: rest) rest
  | truncated {bytes} : Utf8Continues bytes → ¬ Utf8WellFormed bytes → StopsAt bytes []

/-- What reading `bytes` to the end gives in a strict decoder. -/
inductive StrictEnd (bytes : List UInt8) : List Nat → Condition → List UInt8 → Prop
  | whole {text : List Char} : bytes = text.flatMap String.utf8EncodeChar →
      StrictEnd bytes (text.map Char.toNat) .exhaustion []
  | malformed {text : List Char} {left rest} :
      bytes = text.flatMap String.utf8EncodeChar ++ left → StopsAt bytes rest →
      StrictEnd bytes (text.map Char.toNat) .utf8Malformed rest

def Utf8Strict (bytes : List UInt8) : Prop :=
  ∃ codes c rest, Reads utf8Next bytes codes c rest ∧ StrictEnd bytes codes c rest

theorem nextOrMalformed_signals : Signals .exhaustion (fun _ => True) nextOrMalformed := by
  apply Signals.bind readerNext_signals
  rintro _ ⟨code, rfl⟩
  exact Signals.pure trivial

theorem utf8ThreeBytes_signals (value1 : Nat) :
    Signals .exhaustion (fun _ => True) (utf8ThreeBytes value1) := by
  apply Signals.ite
  · apply Signals.and_then nextOrMalformed_signals
    intro value2
    apply Signals.and_then nextOrMalformed_signals
    intro value3
    exact Signals.pure trivial
  · exact Signals.pure trivial

theorem utf8FourBytes_signals (value1 : Nat) (unicode : Option Nat) :
    Signals .exhaustion (fun _ => True) (utf8FourBytes value1 unicode) := by
  apply Signals.ite
  · apply Signals.and_then nextOrMalformed_signals
    intro value2
    apply Signals.and_then nextOrMalformed_signals
    intro value3
    apply Signals.and_then nextOrMalformed_signals
    intro value4
    exact Signals.pure trivial
  · exact Signals.pure trivial

theorem utf8NextCode_signals :
    Signals .exhaustion (fun r => ∃ code, r = some code) utf8NextCode := by
  apply Signals.bind readerNext_signals
  rintro _ ⟨code, rfl⟩
  apply Signals.and_then (Signals.pure trivial)
  intro value1
  apply Signals.ite (Signals.pure ⟨_, rfl⟩)
  apply Signals.ite
  · apply Signals.and_then nextOrMalformed_signals
    intro value2
    exact Signals.pure ⟨_, rfl⟩
  · apply Signals.and_then (utf8ThreeBytes_signals value1)
    intro unicode
    apply Signals.and_then (utf8FourBytes_signals value1 unicode)
    intro unicode
    exact Signals.pure ⟨_, rfl⟩

theorem utf8Next_signals : Signals .exhaustion (fun _ => True) utf8Next := by
  apply Signals.bind utf8NextCode_signals
  rintro _ ⟨code, rfl⟩
  exact Signals.pure trivial

theorem utf8_strict_iff (bytes : List UInt8) : Utf8Strict bytes ↔ Utf8WellFormed bytes := by
  constructor
  · rintro ⟨codes, c, rest, reads, ending⟩
    have exhausted := reads.condition utf8Next_signals
    cases ending with
    | whole same => exact ⟨_, same⟩
    | malformed _ _ => exact absurd exhausted (by decide)
  · rintro ⟨text, rfl⟩
    exact ⟨_, _, _, utf8_decodes text, .whole rfl⟩

/-- A lone continuation byte is read as the code point zero. -/
theorem utf8_strict_fails : ¬ Utf8Strict [0x80] := by
  rintro ⟨codes, c, rest, reads, ending⟩
  have zero : Reads utf8Next [0x80] [0] .exhaustion [] := .answers rfl (.ends rfl)
  obtain ⟨rfl, rfl, rfl⟩ := zero.unique reads
  generalize read : [0] = codes at ending
  cases ending with
  | @whole text same =>
    cases text with
    | nil => cases read
    | cons c cs =>
      have null : c = Char.ofNat 0 := by
        have code : c.toNat = 0 := by simpa using (List.cons.inj read).1.symm
        rw [← Char.ofNat_toNat c, code]
      have first : String.utf8EncodeChar (Char.ofNat 0) = [0] := by decide
      rw [null, List.flatMap_cons, first] at same
      simp at same

end Strict

end SlateVm
