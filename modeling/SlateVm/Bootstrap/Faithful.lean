import SlateVm.Bootstrap.Image

/-! When the machine reads back from an image what its chunks hold. -/
namespace SlateVm.Bootstrap

section Header

def headerValue (little : Bool) (hash format : Nat) : Nat :=
  if little then 1 + 2 * (hash % 2 ^ 23) + format * 2 ^ 30
  else 2 ^ 31 + (hash % 2 ^ 23) * 256 + format

theorem ofDigits_zeros (n : Nat) : Nat.ofDigits 256 ((List.range n).map (Bytes.byteAt 0)) = 0 := by
  have value := Bytes.ofDigits_bytes 0 n
  rw [Int.zero_emod] at value
  exact_mod_cast value

theorem intoByte_shiftRight (i n : Nat) : Generator.intoByte (i >>> n) = i / 2 ^ n % 256 := by
  rw [Nat.shiftRight_eq_div_pow]
  exact Nat.and_two_pow_sub_one_eq_mod _ 8

theorem lowByte_eq (hash : Nat) : 0b00000001 ||| (hash &&& 0x7F) <<< 1 = 1 + 2 * (hash % 128) := by
  have seven : hash &&& 0x7F = hash % 128 := Nat.and_two_pow_sub_one_eq_mod hash 7
  rw [seven, Nat.or_comm, ← Nat.shiftLeft_add_eq_or_of_lt (by decide), Nat.shiftLeft_eq]
  omega

theorem highByte_eq (hash : Nat) :
    0b10000000 ||| (hash >>> 16 &&& 0x7F) = 128 + hash / 65536 % 128 := by
  have seven : hash >>> 16 &&& 0x7F = hash / 65536 % 128 := by
    rw [Nat.shiftRight_eq_div_pow]
    exact Nat.and_two_pow_sub_one_eq_mod _ 7
  have fits : hash / 65536 % 128 < 2 ^ 7 := Nat.mod_lt _ (by decide)
  rw [seven]
  exact (Nat.shiftLeft_add_eq_or_of_lt fits 1).symm

theorem headerWord_value (gen : Generator) (hash format : Nat) :
    Bytes.value gen.littleEndian (gen.headerWord hash format) =
      headerValue gen.littleEndian hash format := by
  have zeros := ofDigits_zeros (gen.bytesPerWord - 4)
  have last : Generator.intoByte hash = hash % 256 := Nat.and_two_pow_sub_one_eq_mod hash 8
  unfold Generator.headerWord headerValue Bytes.value Generator.emitInteger Bytes.encode
  rw [lowByte_eq, highByte_eq, intoByte_shiftRight, intoByte_shiftRight, intoByte_shiftRight, last,
    Nat.shiftLeft_eq]
  cases gen.littleEndian with
  | true =>
    simp only [if_true, Nat.ofDigits_append, zeros, Nat.ofDigits_cons, Nat.ofDigits_nil]
    omega
  | false =>
    simp only [if_neg Bool.false_ne_true, List.reverse_append, List.reverse_reverse,
      zeros, List.reverse_cons, List.reverse_nil, List.nil_append, List.cons_append,
      Nat.ofDigits_cons]
    omega

theorem objectHash_eq (header : Nat) : objectHash header = header / 2 % 2 ^ 23 := by
  rw [objectHash, Nat.shiftRight_eq_div_pow, pow_one]
  exact Nat.and_two_pow_sub_one_eq_mod _ 23

theorem objectType_eq (header : Nat) : objectType header = header / 2 ^ 30 % 2 ^ 2 := by
  rw [objectType, Nat.shiftRight_eq_div_pow]
  exact Nat.and_two_pow_sub_one_eq_mod _ 2

def Mirrored (hash format : Nat) : Prop := format = typeByteArray ∧ hash = 0x204081

theorem mirrored_hash (hash : Nat) (small : hash < 2 ^ 23) :
    (128 * hash + 1) % 2 ^ 23 = hash ↔ hash = 0x204081 := by
  constructor
  · intro same
    have whole := Nat.div_add_mod (128 * hash + 1) (2 ^ 23)
    rw [same] at whole
    omega
  · rintro rfl
    rfl

theorem header_reads (little : Bool) (hash format : Nat) (small : format ≤ 2) :
    (objectHash (headerValue little hash format) = hash ∧
      objectType (headerValue little hash format) = format) ↔
      hash ≤ idHashMax ∧ (little = true ∨ Mirrored hash format) := by
  rw [objectHash_eq, objectType_eq]
  unfold headerValue Mirrored idHashMax idHashFree typeByteArray
  cases little with
  | true =>
    simp only [if_true, true_or, and_true]
    omega
  | false =>
    simp only [Bool.false_eq_true, if_false, false_or]
    have within : hash % 2 ^ 23 < 2 ^ 23 := Nat.mod_lt _ (by decide)
    constructor
    · rintro ⟨hash_eq, type_eq⟩
      have two : format = 2 := by omega
      subst two
      have fits : hash < 2 ^ 23 := by omega
      have halved : (2 ^ 31 + hash * 256 + 2) / 2 = 2 ^ 23 * 128 + (128 * hash + 1) := by omega
      rw [Nat.mod_eq_of_lt fits, halved, Nat.mul_add_mod] at hash_eq
      exact ⟨by omega, rfl, (mirrored_hash hash fits).mp hash_eq⟩
    · rintro ⟨-, rfl, rfl⟩
      decide

end Header

section Values

variable (gen : Generator)

def wordBound : Nat := 256 ^ gen.bytesPerWord

def Value.Decodes (word : Nat) : Value → Prop
  | .nil => oopIsSmallint word = false ∧ gen.oopOf (gen.objects .nilObject) = some word
  | .small i => oopIsSmallint word = true ∧ smallintOf gen.bytesPerWord word = i
  | .chunk c => oopIsSmallint word = false ∧ gen.oopOf c = some word

def Value.Fits : Value → Prop
  | .nil => ∀ oop ∈ gen.oopOf (gen.objects .nilObject), oop < wordBound gen
  | .small i => -(wordBound gen / 4 : Int) ≤ i ∧ i < wordBound gen / 4
  | .chunk c => ∀ oop ∈ gen.oopOf c, oop < wordBound gen

variable {gen}

theorem emitWord_value (val : Int) :
    ((Bytes.value gen.littleEndian (gen.emitWord val) : Nat) : Int) = val % wordBound gen := by
  rw [wordBound, Int.natCast_pow]
  exact Bytes.value_encode ..

theorem emitWord_nat (n : Nat) :
    Bytes.value gen.littleEndian (gen.emitWord n) = n % wordBound gen := by
  exact_mod_cast (@emitWord_value gen n)

theorem emitWord_reads (n : Nat) :
    Bytes.value gen.littleEndian (gen.emitWord n) = n ↔ n < wordBound gen := by
  have positive : 0 < wordBound gen := Nat.pow_pos (by decide)
  rw [emitWord_nat]
  constructor
  · intro same
    rw [← same]
    exact Nat.mod_lt n positive
  · exact Nat.mod_eq_of_lt

theorem wordBound_cases (gen : Generator) :
    (gen.bytesPerWord = 4 ∧ wordBound gen = 2 ^ 32) ∨
      (gen.bytesPerWord = 8 ∧ wordBound gen = 2 ^ 64) := by
  unfold wordBound
  rcases bytesPerWord_cases gen with four | eight
  · rw [four]
    exact .inl ⟨rfl, by norm_num⟩
  · rw [eight]
    exact .inr ⟨rfl, by norm_num⟩

theorem assignOops_aligned (b start : Nat) (chunks : List Chunk) (aligned : b ∣ start) :
    ∀ oop ∈ (assignOops b start chunks).1, b ∣ oop := by
  induction chunks generalizing start with
  | nil => exact fun oop member => by cases member
  | cons first chunks ih =>
    intro oop member
    rw [assignOops_cons] at member
    rcases List.mem_cons.mp member with rfl | later
    · exact aligned
    · exact ih _ (Nat.dvd_add aligned (Nat.dvd_mul_left ..)) oop later

theorem oopOf_even {c oop : Nat} (here : gen.oopOf c = some oop) : oop % 2 = 0 := by
  have aligned := assignOops_aligned gen.bytesPerWord 0 gen.chunks (Nat.dvd_zero _) oop
    (List.mem_of_getElem? here)
  rcases bytesPerWord_cases gen with four | eight
  · rw [four] at aligned
    omega
  · rw [eight] at aligned
    omega

theorem small_decodes (i : Int) :
    (Value.small i).Decodes gen (Bytes.value gen.littleEndian (gen.emitWord (2 * i + 1))) ↔
      (Value.small i).Fits gen := by
  have word := @emitWord_value gen (2 * i + 1)
  generalize Bytes.value gen.littleEndian (gen.emitWord (2 * i + 1)) = w at word
  unfold Value.Decodes Value.Fits oopIsSmallint smallintOf
  rw [beq_iff_eq]
  rcases wordBound_cases gen with ⟨bytes, bound⟩ | ⟨bytes, bound⟩
  · rw [bound] at word ⊢
    rw [bytes]
    norm_num at word ⊢
    split <;> omega
  · rw [bound] at word ⊢
    rw [bytes]
    norm_num at word ⊢
    split <;> omega

theorem oop_decodes {c oop : Nat} (here : gen.oopOf c = some oop) :
    (oopIsSmallint (Bytes.value gen.littleEndian (gen.emitWord oop)) = false ∧
      gen.oopOf c = some (Bytes.value gen.littleEndian (gen.emitWord oop))) ↔
      ∀ oop ∈ gen.oopOf c, oop < wordBound gen := by
  have even := oopOf_even here
  rw [here]
  simp only [Option.mem_some_iff, forall_eq', Option.some.injEq]
  rw [eq_comm (a := oop), emitWord_reads]
  constructor
  · exact And.right
  · intro fits
    rw [(emitWord_reads oop).mpr fits]
    exact ⟨by simp [oopIsSmallint, even], fits⟩

theorem decodes_iff {value : Value} {bytes : List Nat} (emits : gen.emitOopOf value = some bytes) :
    value.Decodes gen (Bytes.value gen.littleEndian bytes) ↔ value.Fits gen := by
  cases value with
  | nil =>
    obtain ⟨oop, here, rfl⟩ := Option.map_eq_some_iff.mp emits
    exact oop_decodes here
  | small i =>
    cases emits
    exact small_decodes i
  | chunk c =>
    obtain ⟨oop, here, rfl⟩ := Option.map_eq_some_iff.mp emits
    exact oop_decodes here

end Values

section Chunks

variable (gen : Generator) (image : List Nat) (pos : Nat) (chunk : Chunk)

def wordOf (k : Nat) : Nat :=
  wordAt gen.littleEndian gen.bytesPerWord image (pos + k * gen.bytesPerWord)

/-- The accessors of the machine give back what a chunk holds. -/
structure ReadsBack : Prop where
  hash : objectHash (wordOf gen image pos 0) = chunk.idHash
  format : objectType (wordOf gen image pos 0) = chunk.payload.format
  size : wordOf gen image pos 1 = chunk.wordSizeSansPayload
  payload : wordOf gen image pos 2 = chunk.payload.size gen.bytesPerWord
  map : gen.mapOop chunk = some (wordOf gen image pos 3)
  values : ∀ (j : Nat) (value : Value), chunk.values[j]? = some value →
    value.Decodes gen (wordOf gen image pos (headerWords + j))
  bytes : ∀ elements, chunk.payload = .byteArray elements →
    (image.drop (pos + chunk.wordSizeSansPayload * gen.bytesPerWord)).take elements.length =
      elements.map UInt8.toNat

structure Chunk.Fits : Prop where
  hash : chunk.idHash ≤ idHashMax
  size : chunk.wordSizeSansPayload < wordBound gen
  payload : chunk.payload.size gen.bytesPerWord < wordBound gen
  map : ∀ oop ∈ gen.mapOop chunk, oop < wordBound gen
  values : ∀ value ∈ chunk.values, value.Fits gen

variable {gen image pos chunk}

theorem format_small (payload : Payload) : payload.format ≤ 2 := by
  cases payload <;> simp [Payload.format, typeObject, typeOopArray, typeByteArray]

theorem wordOf_eq {words : List (List Nat)} {rest : List Nat}
    (sized : ∀ word ∈ words, word.length = gen.bytesPerWord)
    (place : image.drop pos = words.flatten ++ rest) {k : Nat} {word : List Nat}
    (here : words[k]? = some word) :
    wordOf gen image pos k = Bytes.value gen.littleEndian word := by
  rw [wordOf, wordAt, ← List.drop_drop, place, Bytes.flatten_word words sized rest k word here]

theorem value_word {oop : Nat} {values : List (List Nat)} {rest : List Nat}
    (related : List.Forall₂ (fun value bytes => gen.emitOopOf value = some bytes) chunk.values values)
    (place : image.drop pos =
      (gen.fixedWords chunk oop ++ values).flatten ++ (chunk.tail gen.bytesPerWord ++ rest))
    {j : Nat} {value : Value} (here : chunk.values[j]? = some value) :
    ∃ bytes, gen.emitOopOf value = some bytes ∧
      wordOf gen image pos (headerWords + j) = Bytes.value gen.littleEndian bytes := by
  obtain ⟨inside, at_j⟩ := List.getElem?_eq_some_iff.mp here
  have inside' := inside
  rw [related.length_eq] at inside'
  have pair := (List.forall₂_iff_get.mp related).2 j inside inside'
  simp only [List.get_eq_getElem, at_j] at pair
  refine ⟨_, pair, wordOf_eq (@words_sized gen chunk oop _ related) place ?_⟩
  refine (List.getElem?_append_right (Nat.le_add_right ..)).trans ?_
  rw [Nat.add_sub_cancel_left, List.getElem?_eq_getElem inside']

theorem readsBack_iff {oop : Nat} {values : List (List Nat)} {rest : List Nat}
    (map : gen.mapOop chunk = some oop)
    (related : List.Forall₂ (fun value bytes => gen.emitOopOf value = some bytes) chunk.values values)
    (place : image.drop pos =
      (gen.fixedWords chunk oop ++ values).flatten ++ (chunk.tail gen.bytesPerWord ++ rest)) :
    ReadsBack gen image pos chunk ↔
      chunk.Fits gen ∧ (gen.littleEndian = true ∨ Mirrored chunk.idHash chunk.payload.format) := by
  have sized := @words_sized gen chunk oop _ related
  have fixed : ∀ k word, (gen.fixedWords chunk oop)[k]? = some word →
      wordOf gen image pos k = Bytes.value gen.littleEndian word := by
    intro k word here
    have within := (List.getElem?_eq_some_iff.mp here).1
    exact wordOf_eq sized place ((List.getElem?_append_left within).trans here)
  have header : wordOf gen image pos 0 =
      headerValue gen.littleEndian chunk.idHash chunk.payload.format :=
    (fixed 0 _ rfl).trans (headerWord_value ..)
  have word_1 := fixed 1 _ rfl
  have word_2 := fixed 2 _ rfl
  have word_3 := fixed 3 _ rfl
  have reference : ∀ j value, chunk.values[j]? = some value → ∃ bytes,
      gen.emitOopOf value = some bytes ∧
        wordOf gen image pos (headerWords + j) = Bytes.value gen.littleEndian bytes :=
    fun j value here => value_word related place here
  have head := header_reads gen.littleEndian chunk.idHash chunk.payload.format (format_small _)
  rw [← header] at head
  constructor
  · intro reads
    obtain ⟨small, order⟩ := head.mp ⟨reads.hash, reads.format⟩
    refine ⟨⟨small, ?_, ?_, ?_, ?_⟩, order⟩
    · exact (emitWord_reads _).mp (word_1.symm.trans reads.size)
    · exact (emitWord_reads _).mp (word_2.symm.trans reads.payload)
    · intro oop' there
      rw [map] at there
      cases there
      have same := reads.map
      rw [map, word_3] at same
      exact (emitWord_reads _).mp (Option.some.inj same).symm
    · intro value member
      obtain ⟨j, here⟩ := List.mem_iff_getElem?.mp member
      obtain ⟨bytes, emits, word⟩ := reference j value here
      have decodes := reads.values j value here
      rw [word] at decodes
      exact (decodes_iff emits).mp decodes
  · rintro ⟨fits, order⟩
    obtain ⟨hash, format⟩ := head.mpr ⟨fits.hash, order⟩
    refine ⟨hash, format, ?_, ?_, ?_, ?_, ?_⟩
    · exact word_1.trans ((emitWord_reads _).mpr fits.size)
    · exact word_2.trans ((emitWord_reads _).mpr fits.payload)
    · rw [map, word_3, (emitWord_reads _).mpr (fits.map oop (by rw [map]; rfl))]
    · intro j value here
      obtain ⟨bytes, emits, word⟩ := reference j value here
      rw [word]
      exact (decodes_iff emits).mpr (fits.values value (List.mem_of_getElem? here))
    · intro elements shape
      have length : (gen.fixedWords chunk oop ++ values).flatten.length =
          chunk.wordSizeSansPayload * gen.bytesPerWord := by
        rw [Bytes.length_flatten _ sized, List.length_append, ← related.length_eq]
        simp [Generator.fixedWords, Chunk.values, shape, Chunk.wordSizeSansPayload, headerWords]
      rw [← List.drop_drop, place, ← length, List.drop_left, Chunk.tail, shape]
      simp only [List.append_assoc]
      rw [← List.length_map (f := UInt8.toNat), List.take_left]

end Chunks

section Images

variable (gen : Generator)

/-- The chunks tile the image behind its header, and each is read back from its place. -/
structure Faithful (image : List Nat) : Prop where
  whole : image.length = gen.headerSize + gen.imageSize
  first : (gen.oopOf 0).getD gen.imageSize = 0
  tiles : ∀ (c : Nat) (chunk : Chunk) (oop : Nat), gen.chunks[c]? = some chunk →
    gen.oopOf c = some oop →
    (gen.oopOf (c + 1)).getD gen.imageSize =
        oop + chunk.wordSize gen.bytesPerWord * gen.bytesPerWord ∧
      ∃ body, gen.emit chunk = some body ∧
        body.length = chunk.wordSize gen.bytesPerWord * gen.bytesPerWord ∧
        (image.drop (gen.headerSize + oop)).take body.length = body
  reads : ∀ (c : Nat) (chunk : Chunk) (oop : Nat), gen.chunks[c]? = some chunk →
    gen.oopOf c = some oop → ReadsBack gen image (gen.headerSize + oop) chunk

theorem emitHeader_some : ∃ header, gen.emitHeader = some header ∧ header.length = gen.headerSize := by
  have inside : gen.objects .specialOops < gen.oops.length := by
    rw [Generator.oops, length_assignOops]
    exact gen.named .specialOops
  refine ⟨_, by simp [Generator.emitHeader, Generator.oopOf, List.getElem?_eq_getElem inside]; rfl, ?_⟩
  simp only [List.length_append, length_emitWord, Generator.headerSize]
  omega

theorem emitOn_places (refers : ∀ chunk ∈ gen.chunks, chunk.Refers gen) :
    ∃ image, gen.emitOn = some image ∧ image.length = gen.headerSize + gen.imageSize ∧
      ∀ (c : Nat) (chunk : Chunk) (oop : Nat), gen.chunks[c]? = some chunk →
        gen.oopOf c = some oop →
        ∃ body rest, gen.emit chunk = some body ∧
          image.drop (gen.headerSize + oop) = body ++ rest := by
  obtain ⟨header, run, header_length⟩ := emitHeader_some gen
  obtain ⟨bodies, run', total, places⟩ := emit_places gen.chunks 0 refers
  refine ⟨header ++ bodies.flatten, by simp [Generator.emitOn, run, run'], ?_, ?_⟩
  · rw [List.length_append, header_length, Generator.imageSize, ← total, Nat.zero_add]
  · intro c chunk oop here at_
    obtain ⟨body, rest, emits, -, place⟩ := places c chunk oop here at_
    refine ⟨body, rest, emits, ?_⟩
    rw [← List.drop_drop, ← header_length, List.drop_left, ← place, Nat.sub_zero]

/-- Emission always tiles the image; its chunks are read back if they fit and the machine is
little endian, or if their headers are the ones that do not depend on the layout. -/
theorem emission_faithful (refers : ∀ chunk ∈ gen.chunks, chunk.Refers gen) :
    ∃ image, gen.emitOn = some image ∧
      (Faithful gen image ↔ (∀ chunk ∈ gen.chunks, chunk.Fits gen) ∧
        (gen.littleEndian = true ∨
          ∀ chunk ∈ gen.chunks, Mirrored chunk.idHash chunk.payload.format)) := by
  obtain ⟨image, run, whole, place⟩ := emitOn_places gen refers
  have each : ∀ (c : Nat) (chunk : Chunk) (oop : Nat), gen.chunks[c]? = some chunk →
      gen.oopOf c = some oop → (ReadsBack gen image (gen.headerSize + oop) chunk ↔
        chunk.Fits gen ∧ (gen.littleEndian = true ∨ Mirrored chunk.idHash chunk.payload.format)) := by
    intro c chunk oop here at_
    obtain ⟨body, rest, emits, place⟩ := place c chunk oop here at_
    obtain ⟨map, values, map_eq, related, emits'⟩ := emit_words (refers chunk (List.mem_of_getElem? here))
    rw [emits'] at emits
    cases emits
    rw [List.append_assoc] at place
    exact readsBack_iff map_eq related place
  have some_oop : ∀ (c : Nat) (chunk : Chunk), gen.chunks[c]? = some chunk →
      ∃ oop, gen.oopOf c = some oop := by
    intro c chunk here
    have inside := (List.getElem?_eq_some_iff.mp here).1
    rw [← length_assignOops gen.bytesPerWord 0] at inside
    exact ⟨_, List.getElem?_eq_getElem inside⟩
  refine ⟨image, run, ?_, ?_⟩
  · intro faithful
    have both : ∀ chunk ∈ gen.chunks, chunk.Fits gen ∧
        (gen.littleEndian = true ∨ Mirrored chunk.idHash chunk.payload.format) := by
      intro chunk member
      obtain ⟨c, here⟩ := List.mem_iff_getElem?.mp member
      obtain ⟨oop, at_⟩ := some_oop c chunk here
      exact (each c chunk oop here at_).mp (faithful.reads c chunk oop here at_)
    refine ⟨fun chunk member => (both chunk member).1, ?_⟩
    cases order : gen.littleEndian with
    | true => exact .inl rfl
    | false =>
      refine .inr fun chunk member => ?_
      rcases (both chunk member).2 with little | mirrored
      · rw [order] at little
        cases little
      · exact mirrored
  · rintro ⟨fits, order⟩
    constructor
    · exact whole
    · exact assignOops_first gen.bytesPerWord 0 gen.chunks
    · intro c chunk oop here at_
      obtain ⟨body, rest, emits, place⟩ := place c chunk oop here at_
      obtain ⟨body', emits', length⟩ := emit_length (refers chunk (List.mem_of_getElem? here))
      rw [emits] at emits'
      cases emits'
      refine ⟨assignOops_next gen.bytesPerWord 0 c gen.chunks chunk oop here at_, body, emits, length, ?_⟩
      rw [place, List.take_left]
    · intro c chunk oop here at_
      have member := List.mem_of_getElem? here
      refine (each c chunk oop here at_).mpr ⟨fits chunk member, ?_⟩
      exact order.imp id fun all => all chunk member

end Images

theorem sample_refers (littleEndian : Bool) :
    ∀ chunk ∈ (sampleGenerator littleEndian).chunks, chunk.Refers (sampleGenerator littleEndian) := by
  intro chunk member
  have oops : (sampleGenerator littleEndian).oops = [0, 32] := rfl
  simp only [sampleGenerator, List.mem_cons, List.not_mem_nil, or_false] at member
  rcases member with rfl | rfl
  · exact ⟨⟨32, rfl⟩, nofun⟩
  · refine ⟨⟨32, rfl⟩, fun value member => ?_⟩
    simp only [Chunk.values, List.mem_cons, List.not_mem_nil, or_false] at member
    rcases member with rfl | rfl
    · exact ⟨_, rfl⟩
    · exact ⟨_, rfl⟩

theorem sample_emission : ∃ image, (sampleGenerator true).emitOn = some image ∧
    (Faithful (sampleGenerator true) image ↔
      (∀ chunk ∈ (sampleGenerator true).chunks, chunk.Fits (sampleGenerator true)) ∧
        ((sampleGenerator true).littleEndian = true ∨
          ∀ chunk ∈ (sampleGenerator true).chunks, Mirrored chunk.idHash chunk.payload.format)) :=
  emission_faithful (sampleGenerator true) (sample_refers true)

/-- In a big-endian image the machine takes Nil for a byte array. -/
theorem big_endian_unreadable : ¬ ∃ image, (sampleGenerator false).emitOn = some image ∧
    Faithful (sampleGenerator false) image := by
  rintro ⟨image, run, faithful⟩
  have reads := (faithful.reads 0 ⟨0, 0, [], .object⟩ 0 rfl rfl).format
  have type : (sampleGenerator false).emitOn.map (fun image =>
      objectType (wordOf (sampleGenerator false) image (sampleGenerator false).headerSize 0)) =
      some typeByteArray := by decide +kernel
  rw [run] at type
  cases (Option.some.inj type).symm.trans reads

end SlateVm.Bootstrap
