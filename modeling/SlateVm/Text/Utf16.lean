import SlateVm.Text.Utf8

/-! The 16-bit streams and the UTF-16 codecs over them, with and without a byte order mark. -/
namespace SlateVm

inductive ByteOrder
  | little
  | big
  deriving Repr, DecidableEq

/-- What a codec is made on: a stream, which is its own reader, or a collection, on which
every reader starts from the first element. -/
inductive SourceKind
  | stream
  | collection
  deriving Repr, DecidableEq

def Element.asInteger : Element → Nat
  | .character code => code
  | .integer value => value

def nextAsInteger : Streaming Nat := do
  match ← readerNext with
  | some element => return element.asInteger
  | none => throw .conversionNotFound

/-- `Int16ReadStream next` answers an integer and never `Nil`. -/
def int16Next (order : ByteOrder) : Streaming (Option Nat) := do
  let byte1 ← nextAsInteger
  let byte2 ← nextAsInteger
  match order with
  | .little => return some ((byte2 <<< 8) ||| byte1)
  | .big => return some ((byte1 <<< 8) ||| byte2)

def int16NextPut (order : ByteOrder) (char : Nat) : Streaming Unit := do
  match order with
  | .little =>
    writerNextPut (← asciiCharacter (char &&& 0x00FF))
    writerNextPut (← asciiCharacter (char >>> 8))
  | .big =>
    writerNextPut (← asciiCharacter (char >>> 8))
    writerNextPut (← asciiCharacter (char &&& 0x00FF))

/- `u Malformed` is sent to the decoder, and the name is defined in its namespace only. -/
def utf16NextCode (order : ByteOrder) : Streaming (Option Nat) := do
  match ← int16Next order with
  | none => return none
  | some character1 =>
    if character1 < 0xD800 ∨ character1 > 0xDFFF then
      return some (← (Element.integer character1).code)
    else if ¬ (0xD800 ≤ character1 ∧ character1 ≤ 0xDBFF) then
      throw .methodNotFound
    else
      match ← int16Next order with
      | none => return none
      | some character2 =>
        if ¬ (0xDC00 ≤ character2 ∧ character2 ≤ 0xDFFF) then
          throw .methodNotFound
        else
          return some ((((character1 &&& 0x3FF) <<< 10) ||| (character2 &&& 0x3FF)) + 0x10000)

def utf16Next (order : ByteOrder) : Streaming Nat := do
  match ← utf16NextCode order with
  | some code => return code
  | none => throw .conversionNotFound

def utf16NextPut (order : ByteOrder) (codePoint : Nat) : Streaming Unit :=
  if codePoint < 0x10000 then
    int16NextPut order codePoint
  else do
    let U2 := codePoint - 0x10000
    let half1 := 0xD800 ||| (U2 >>> 10)
    let half2 := 0xDC00 ||| (U2 &&& 0x3FF)
    int16NextPut order half1
    int16NextPut order half2

def utf16EncoderNewOn (order : ByteOrder) : Streaming Unit := utf16NextPut order 0xFEFF

/-- `UTF16 Decoder newOn:` takes the byte order from the mark. For the little endian one it
makes a decoder on `source` again, and not on the stream that has read the mark. -/
def utf16DecoderNewOn (kind : SourceKind) : Streaming ByteOrder := do
  let source ← get
  match ← int16Next .big with
  | some 0xFEFF => return .big
  | some 0xFFFE =>
    match kind with
    | .stream => return .little
    | .collection =>
      set source
      return .little
  | _ => throw .noByteOrderMark

section Units

variable {order : ByteOrder} {n : Nat}

def int16Bytes (order : ByteOrder) (n : Nat) : List UInt8 :=
  match order with
  | .little => [UInt8.ofNat (n % 256), UInt8.ofNat (n / 256)]
  | .big => [UInt8.ofNat (n / 256), UInt8.ofNat (n % 256)]

theorem int16NextPut_writes (fits : n < 0x10000) (written : List UInt8) :
    int16NextPut order n written = .ok () (written ++ int16Bytes order n) := by
  have low : n &&& 0x00FF = n % 256 := Nat.and_two_pow_sub_one_eq_mod n 8
  have high : n >>> 8 = n / 256 := Nat.shiftRight_eq_div_pow n 8
  have below : n / 256 < 256 := by omega
  have under : n % 256 < 256 := Nat.mod_lt _ (by omega)
  cases order <;> simp [int16NextPut, int16Bytes, low, high, asciiCharacter, below, under,
    writerNextPut, bind, EStateM.bind, pure, EStateM.pure]

theorem int16Next_reads (fits : n < 0x10000) (rest : List UInt8) :
    int16Next order (int16Bytes order n ++ rest) = .ok (some n) rest := by
  have whole : (n / 256) <<< 8 ||| n % 256 = n := by
    rw [← Nat.shiftLeft_add_eq_or_of_lt (by omega), Nat.shiftLeft_eq]
    omega
  have low : (UInt8.ofNat (n % 256)).toNat = n % 256 :=
    UInt8.toNat_ofNat_of_lt (Nat.mod_lt _ (by decide))
  have high : (UInt8.ofNat (n / 256)).toNat = n / 256 :=
    UInt8.toNat_ofNat_of_lt (show n / 256 < 256 by omega)
  cases order <;> simp [int16Next, int16Bytes, nextAsInteger, readerNext, Element.asInteger, low,
    high, whole, bind, EStateM.bind, pure, EStateM.pure]

end Units

section Pairs

variable {order : ByteOrder} {c : Char}

def utf16Put (order : ByteOrder) (c : Char) : List UInt8 :=
  if c.toNat < 0x10000 then int16Bytes order c.toNat
  else int16Bytes order (0xD800 + (c.toNat - 0x10000) / 1024) ++
    int16Bytes order (0xDC00 + (c.toNat - 0x10000) % 1024)

theorem utf16NextPut_writes (c : Char) (written : List UInt8) :
    utf16NextPut order c.toNat written = .ok () (written ++ utf16Put order c) := by
  have bound := toNat_lt c
  unfold utf16NextPut utf16Put
  split
  · exact int16NextPut_writes ‹_› written
  · have top : (c.toNat - 0x10000) >>> 10 = (c.toNat - 0x10000) / 1024 :=
      Nat.shiftRight_eq_div_pow _ 10
    have bottom : (c.toNat - 0x10000) &&& 0x3FF = (c.toNat - 0x10000) % 1024 :=
      Nat.and_two_pow_sub_one_eq_mod _ 10
    have half1 : 0xD800 ||| (c.toNat - 0x10000) / 1024 = 0xD800 + (c.toNat - 0x10000) / 1024 :=
      (Nat.shiftLeft_add_eq_or_of_lt (i := 10) (by omega) 54).symm
    have half2 : 0xDC00 ||| (c.toNat - 0x10000) % 1024 = 0xDC00 + (c.toNat - 0x10000) % 1024 :=
      (Nat.shiftLeft_add_eq_or_of_lt (i := 10) (by omega) 55).symm
    simp only [top, bottom, half1, half2]
    rw [bind_ok (int16NextPut_writes (by omega) written), int16NextPut_writes (by omega),
      List.append_assoc]

theorem utf16Next_wide (wide : 0x10000 ≤ c.toNat) (rest : List UInt8) :
    utf16Next order (utf16Put order c ++ rest) = .ok c.toNat rest := by
  have bound := toNat_lt c
  have first := @int16Next_reads order (0xD800 + (c.toNat - 0x10000) / 1024) (by omega)
  have second := @int16Next_reads order (0xDC00 + (c.toNat - 0x10000) % 1024) (by omega) rest
  have joined : ((0xD800 + (c.toNat - 0x10000) / 1024) &&& 0x3FF) <<< 10 |||
      ((0xDC00 + (c.toNat - 0x10000) % 1024) &&& 0x3FF) = c.toNat - 0x10000 := by
    have top : (0xD800 + (c.toNat - 0x10000) / 1024) &&& 0x3FF = (c.toNat - 0x10000) / 1024 :=
      (Nat.and_two_pow_sub_one_eq_mod _ 10).trans (by omega)
    have bottom : (0xDC00 + (c.toNat - 0x10000) % 1024) &&& 0x3FF = (c.toNat - 0x10000) % 1024 :=
      (Nat.and_two_pow_sub_one_eq_mod _ 10).trans (by omega)
    rw [top, bottom, ← Nat.shiftLeft_add_eq_or_of_lt (by omega), Nat.shiftLeft_eq]
    omega
  rw [utf16Put, if_neg (by omega), List.append_assoc]
  have code : utf16NextCode order (int16Bytes order (0xD800 + (c.toNat - 0x10000) / 1024) ++
      (int16Bytes order (0xDC00 + (c.toNat - 0x10000) % 1024) ++ rest)) =
      .ok (some c.toNat) rest := by
    rw [utf16NextCode, bind_ok (first _)]
    simp only
    rw [if_neg (by omega), if_neg (by omega), bind_ok second]
    simp only
    rw [if_neg (by omega), joined, Nat.sub_add_cancel wide]
    rfl
  exact bind_ok code

theorem utf16Next_narrow (narrow : c.toNat < 0x10000) (rest : List UInt8) :
    utf16Next order (utf16Put order c ++ rest) = .error .methodNotFound rest := by
  have scalar : c.toNat < 0xD800 ∨ c.toNat > 0xDFFF := by
    have := c.valid
    unfold UInt32.isValidChar Nat.isValidChar at this
    change c.val.toNat < 0xD800 ∨ c.val.toNat > 0xDFFF
    omega
  have unit := @int16Next_reads order _ narrow rest
  rw [utf16Put, if_pos narrow]
  have code : utf16NextCode order (int16Bytes order c.toNat ++ rest) =
      .error .methodNotFound rest := by
    rw [utf16NextCode, bind_ok unit]
    simp only
    rw [if_pos scalar]
    rfl
  exact bind_error code

theorem utf16Next_nil : utf16Next order [] = .error .exhaustion [] := rfl

end Pairs

end SlateVm

/-! What holds of whole texts in UTF-16: which of them come back from the codecs, with and
without a byte order mark. -/
namespace SlateVm

def Utf16RoundTrip (order : ByteOrder) (text : List Char) : Prop :=
  ∃ bytes, nextPutAll (utf16NextPut order) (text.map Char.toNat) [] = .ok () bytes ∧
    Reads (utf16Next order) bytes (text.map Char.toNat) .exhaustion []

def MarkedRoundTrip (order : ByteOrder) (kind : SourceKind) (text : List Char) : Prop :=
  ∃ bytes order' left,
    (do utf16EncoderNewOn order; nextPutAll (utf16NextPut order) (text.map Char.toNat)) [] =
      .ok () bytes ∧
    utf16DecoderNewOn kind bytes = .ok order' left ∧
    Reads (utf16Next order') left (text.map Char.toNat) .exhaustion []

variable {order : ByteOrder} {kind : SourceKind} {text : List Char}

theorem utf16_encodes (order : ByteOrder) (text : List Char) (written : List UInt8) :
    nextPutAll (utf16NextPut order) (text.map Char.toNat) written =
      .ok () (written ++ text.flatMap (utf16Put order)) :=
  nextPutAll_flatMap (fun c _ written => utf16NextPut_writes c written) written

theorem utf16_decodes (wide : ∀ c ∈ text, 0x10000 ≤ c.toNat) :
    Reads (utf16Next order) (text.flatMap (utf16Put order)) (text.map Char.toNat)
      .exhaustion [] := by
  have each : ∀ c ∈ text, ∀ rest, utf16Next order (utf16Put order c ++ rest) = .ok c.toNat rest :=
    fun c inside rest => utf16Next_wide (wide c inside) rest
  have reads := Reads.flatMap each utf16Next_nil
  rwa [List.append_nil] at reads

theorem utf16_stops (narrow : ∃ c ∈ text, c.toNat < 0x10000) :
    ∃ codes rest, Reads (utf16Next order) (text.flatMap (utf16Put order)) codes
      .methodNotFound rest := by
  induction text with
  | nil => simp at narrow
  | cons c cs ih =>
    rw [List.flatMap_cons]
    rcases Nat.lt_or_ge c.toNat 0x10000 with here | wide
    · exact ⟨_, _, .ends (utf16Next_narrow here _)⟩
    · have later : ∃ c ∈ cs, c.toNat < 0x10000 := by
        obtain ⟨c', inside, low⟩ := narrow
        rcases List.mem_cons.mp inside with rfl | inside
        · omega
        · exact ⟨c', inside, low⟩
      obtain ⟨codes, rest, reads⟩ := ih later
      exact ⟨_, _, .answers (utf16Next_wide wide _) reads⟩

theorem utf16_reads_iff :
    Reads (utf16Next order) (text.flatMap (utf16Put order)) (text.map Char.toNat)
      .exhaustion [] ↔ ∀ c ∈ text, 0x10000 ≤ c.toNat := by
  constructor
  · intro reads
    by_contra other
    simp only [not_forall, Nat.not_le, exists_prop] at other
    obtain ⟨codes, rest, stops⟩ := @utf16_stops order text other
    exact absurd (reads.unique stops).2.1 (by decide)
  · exact utf16_decodes

def markBytes (order : ByteOrder) : List UInt8 :=
  match order with
  | .little => [0xFF, 0xFE]
  | .big => [0xFE, 0xFF]

theorem marked_encodes (order : ByteOrder) (text : List Char) :
    (do utf16EncoderNewOn order; nextPutAll (utf16NextPut order) (text.map Char.toNat)) [] =
      .ok () (markBytes order ++ text.flatMap (utf16Put order)) := by
  have mark : utf16EncoderNewOn order [] = .ok () (markBytes order) := by
    cases order <;> rfl
  rw [bind_ok mark, utf16_encodes]

theorem decoder_after_mark (bytes : List UInt8) :
    utf16DecoderNewOn kind (markBytes order ++ bytes) =
      .ok order (if order = .little ∧ kind = .collection then markBytes order ++ bytes
        else bytes) := by
  cases order <;> cases kind <;> rfl

theorem mark_read_again (bytes : List UInt8) :
    utf16Next .little (markBytes .little ++ bytes) = .error .methodNotFound bytes := rfl

theorem utf16_round_trip_iff (order : ByteOrder) (kind : SourceKind) (text : List Char) :
    (Utf16RoundTrip order text ↔ ∀ c ∈ text, 0x10000 ≤ c.toNat) ∧
    (MarkedRoundTrip order kind text ↔
      (∀ c ∈ text, 0x10000 ≤ c.toNat) ∧ (order = .little → kind = .stream)) := by
  constructor
  · constructor
    · rintro ⟨bytes, puts, reads⟩
      rw [utf16_encodes] at puts
      cases puts
      exact utf16_reads_iff.mp reads
    · intro wide
      exact ⟨_, utf16_encodes order text [], utf16_decodes wide⟩
  · constructor
    · rintro ⟨bytes, order', left, puts, made, reads⟩
      rw [marked_encodes] at puts
      cases puts
      rw [decoder_after_mark] at made
      cases made
      split at reads
      · rename_i again
        obtain ⟨rfl, rfl⟩ := again
        have stops := Reads.ends (mark_read_again (text.flatMap (utf16Put .little)))
        exact absurd (reads.unique stops).2.1 (by decide)
      · rename_i once
        refine ⟨utf16_reads_iff.mp reads, fun little => ?_⟩
        cases kind with
        | stream => rfl
        | collection => exact absurd ⟨little, rfl⟩ once
    · rintro ⟨wide, streamed⟩
      have once : ¬ (order = .little ∧ kind = .collection) := by
        rintro ⟨little, rfl⟩
        cases streamed little
      refine ⟨_, order, _, marked_encodes order text, decoder_after_mark _, ?_⟩
      rw [if_neg once]
      exact utf16_decodes wide

/-- The letter A, written in big endian after a mark. -/
theorem utf16_round_trip_fails : ¬ MarkedRoundTrip .big .stream ['A'] := by
  rintro ⟨bytes, order', left, puts, made, reads⟩
  rw [marked_encodes] at puts
  cases puts
  rw [decoder_after_mark] at made
  cases made
  have stops : Reads (utf16Next .big) (['A'].flatMap (utf16Put .big)) [] .methodNotFound [] :=
    .ends rfl
  exact absurd (reads.unique stops).2.1 (by decide)

end SlateVm
