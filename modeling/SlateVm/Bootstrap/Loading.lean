import SlateVm.Bootstrap.Faithful
import SlateVm.Bootstrap.Lookup
import SlateVm.Interp.SavedImage

/-! A generated image in the machine that loads it. -/
namespace SlateVm.Bootstrap
open Tiling Images Addition

section Reading

variable (gen : Generator) (image : List Nat)

def objectAt (offset : Nat) : Object where
  markbit := wordOf gen image (gen.headerSize + offset) 0 % 2 == 1
  hash := objectHash (wordOf gen image (gen.headerSize + offset) 0)
  pinCount := wordOf gen image (gen.headerSize + offset) 0 >>> 24 &&& pinnedMask
  format := objectType (wordOf gen image (gen.headerSize + offset) 0)
  objectSize := wordOf gen image (gen.headerSize + offset) 1
  payloadSize := wordOf gen image (gen.headerSize + offset) 2
  map := wordOf gen image (gen.headerSize + offset) 3
  word k := wordOf gen image (gen.headerSize + offset) k

/-- What `main` reads of the file, in the words of the machine. -/
def readImage : SlateImage where
  magic := wordOf gen image 0 0
  size := wordOf gen image 0 1
  nextHash := wordOf gen image 0 2
  specialObjectsOop := wordOf gen image 0 3
  objects := objectAt gen image

def addressOf (base c : Nat) : Nat := (gen.oopOf c).getD 0 + base

end Reading

section Oops

theorem headerWords_le (chunk : Chunk) (b : Nat) : headerWords ≤ chunk.wordSize b := by
  have header : headerWords ≤ chunk.wordSizeSansPayload := Nat.le_add_right ..
  unfold Chunk.wordSize
  cases chunk.payload with
  | object => exact header
  | oopArray elements => exact Nat.le_add_right_of_le header
  | byteArray elements => exact Nat.le_add_right_of_le header

theorem assignOops_tiles {size : Nat → Nat} (b start : Nat) (chunks : List Chunk)
    (sizes : ∀ (c : Nat) (chunk : Chunk) (oop : Nat), chunks[c]? = some chunk →
      (assignOops b start chunks).1[c]? = some oop → size oop = chunk.wordSize b * b)
    (positive : 0 < b) :
    Tiles size start (assignOops b start chunks).2 (assignOops b start chunks).1 := by
  induction chunks generalizing start with
  | nil => exact .nil _
  | cons chunk chunks ih =>
    have here := sizes 0 chunk start rfl rfl
    have words : 0 < chunk.wordSize b := Nat.lt_of_lt_of_le (by decide) (headerWords_le chunk b)
    refine .cons (here ▸ Nat.mul_pos words positive) ?_
    rw [here]
    exact ih _ fun c chunk oop at_ there => sizes (c + 1) chunk oop at_ there

variable {gen : Generator} {c oop base : Nat}

theorem oopOf_some (within : c < gen.chunks.length) : ∃ oop, gen.oopOf c = some oop := by
  rw [← length_assignOops gen.bytesPerWord 0] at within
  exact ⟨_, List.getElem?_eq_getElem within⟩

theorem chunk_of_oop (member : oop ∈ gen.oops) :
    ∃ c chunk, gen.chunks[c]? = some chunk ∧ gen.oopOf c = some oop := by
  obtain ⟨c, here⟩ := List.mem_iff_getElem?.mp member
  have within := (List.getElem?_eq_some_iff.mp here).1
  rw [Generator.oops, length_assignOops] at within
  exact ⟨c, _, List.getElem?_eq_getElem within, here⟩

theorem addressOf_eq (here : gen.oopOf c = some oop) : addressOf gen base c = oop + base := by
  rw [addressOf, here]
  rfl

end Oops

section Chunks

variable {gen : Generator} {image : List Nat} {chunk : Chunk} {oop : Nat}

theorem objectAt_header (reads : ReadsBack gen image (gen.headerSize + oop) chunk) :
    (objectAt gen image oop).format = chunk.payload.format ∧
      (objectAt gen image oop).objectSize = chunk.wordSizeSansPayload ∧
      (objectAt gen image oop).payloadSize = chunk.payload.size gen.bytesPerWord :=
  ⟨reads.format, reads.size, congrArg Nat.cast reads.payload⟩

theorem bytes_of_words (words : gen.wordSize = .bits64) : gen.bytesPerWord = 8 := by
  rw [Generator.bytesPerWord, words]
  rfl

theorem objectAt_wordSize (words : gen.wordSize = .bits64)
    (reads : ReadsBack gen image (gen.headerSize + oop) chunk) :
    objectWordSize (objectAt gen image oop) = chunk.wordSize gen.bytesPerWord := by
  obtain ⟨format, size, payload⟩ := objectAt_header reads
  rw [objectWordSize, format, size, payload, Chunk.wordSize, bytes_of_words words]
  cases chunk.payload with
  | object => rfl
  | oopArray elements =>
    simp only [Payload.format, Payload.size, typeOopArray, typeObject, sizeofWord, Nat.one_ne_zero,
      if_false]
    omega
  | byteArray elements =>
    simp only [Payload.format, Payload.size, typeByteArray, typeObject, sizeofWord,
      OfNat.ofNat_ne_zero, if_false]
    omega

theorem objectAt_oopWords (words : gen.wordSize = .bits64)
    (reads : ReadsBack gen image (gen.headerSize + oop) chunk) :
    oopWords (objectAt gen image oop) = List.range' headerWords chunk.values.length := by
  obtain ⟨format, size, payload⟩ := objectAt_header reads
  have last : (objectLastOopOffset (objectAt gen image oop)).toNat =
      (headerSizeWords + chunk.values.length) * sizeofWord := by
    rw [objectLastOopOffset, format, size, payload, Chunk.values, Chunk.wordSizeSansPayload,
      bytes_of_words words]
    cases chunk.payload with
    | object =>
      simp only [Payload.format, typeOopArray, typeObject, Nat.zero_ne_one, if_false, headerWords,
        headerSizeWords, sizeofWord]
      omega
    | oopArray elements =>
      simp only [Payload.format, Payload.size, if_true, headerWords, headerSizeWords, sizeofWord,
        List.length_append]
      omega
    | byteArray elements =>
      simp only [Payload.format, typeOopArray, typeByteArray, OfNat.ofNat_ne_one, if_false,
        headerWords, headerSizeWords, sizeofWord]
      omega
  rw [oopWords, last, Nat.mul_div_cancel _ (by decide), Nat.add_sub_cancel_left]
  rfl

/-- A field that is no small integer is the oop of a chunk. -/
theorem objectAt_field (words : gen.wordSize = .bits64)
    (reads : ReadsBack gen image (gen.headerSize + oop) chunk) {v : Nat}
    (field : v ∈ oopFields (objectAt gen image oop)) (pointer : oopIsSmallint v = false) :
    v ∈ gen.oops := by
  rw [oopFields, objectAt_oopWords words reads] at field
  obtain ⟨k, member, rfl⟩ := List.mem_map.mp field
  obtain ⟨low, high⟩ := List.mem_range'_1.mp member
  have inside : k - headerWords < chunk.values.length := by omega
  have decodes := reads.values (k - headerWords) _ (List.getElem?_eq_getElem inside)
  rw [Nat.add_sub_cancel' low] at decodes
  generalize chunk.values[k - headerWords] = value at decodes
  cases value with
  | nil => exact List.mem_of_getElem? decodes.2
  | chunk c => exact List.mem_of_getElem? decodes.2
  | small i => cases pointer.symm.trans decodes.1

end Chunks

section Images

variable {gen : Generator} {image : List Nat}

theorem emitted_reads (little : gen.littleEndian = true)
    (refers : ∀ chunk ∈ gen.chunks, chunk.Refers gen) (fits : ∀ chunk ∈ gen.chunks, chunk.Fits gen)
    (run : gen.emitOn = some image) {c oop : Nat} {chunk : Chunk}
    (here : gen.chunks[c]? = some chunk) (there : gen.oopOf c = some oop) :
    ReadsBack gen image (gen.headerSize + oop) chunk ∧
      ∀ (j : Nat) (value : Value), chunk.values[j]? = some value → ∃ bytes,
        gen.emitOopOf value = some bytes ∧ wordOf gen image (gen.headerSize + oop) (headerWords + j) =
          Bytes.value gen.littleEndian bytes := by
  obtain ⟨image', run', -, places⟩ := emitOn_places gen refers
  cases run.symm.trans run'
  have member := List.mem_of_getElem? here
  obtain ⟨body, rest, emits, place⟩ := places c chunk oop here there
  obtain ⟨map, values, map_eq, related, emits'⟩ := emit_words (refers chunk member)
  cases emits.symm.trans emits'
  rw [List.append_assoc] at place
  exact ⟨(readsBack_iff map_eq related place).mpr ⟨fits chunk member, .inl little⟩,
    fun j value at_j => value_word related place at_j⟩

/-- The words of the header. -/
theorem emitted_header (run : gen.emitOn = some image) : ∃ special,
    gen.oopOf (gen.objects .specialOops) = some special ∧
      ∀ (k : Nat) (val : Int), [0xABCDEF43, (gen.imageSize : Int), gen.nextHash, special, 0][k]? =
        some val → wordOf gen image 0 k = Bytes.value gen.littleEndian (gen.emitWord val) := by
  obtain ⟨special, here⟩ := oopOf_some (gen.named .specialOops)
  refine ⟨special, here, fun k val at_k => ?_⟩
  obtain ⟨header, headed, bodies⟩ := Option.bind_eq_some_iff.mp run
  obtain ⟨chunks, emitted, whole⟩ := Option.bind_eq_some_iff.mp bodies
  have header_eq : header = (List.map gen.emitWord
      [0xABCDEF43, (gen.imageSize : Int), gen.nextHash, special, 0]).flatten := by
    rw [Generator.emitHeader, here] at headed
    cases headed
    simp
  have place : image.drop 0 = (List.map gen.emitWord
      [0xABCDEF43, (gen.imageSize : Int), gen.nextHash, special, 0]).flatten ++ chunks.flatten := by
    rw [← header_eq, List.drop_zero]
    exact (Option.some.inj whole).symm
  refine wordOf_eq (fun word member => ?_) place (by rw [List.getElem?_map, at_k]; rfl)
  obtain ⟨val, -, rfl⟩ := List.mem_map.mp member
  exact length_emitWord gen val

/-- A generator for a machine of little-endian 64-bit words: the special objects are in place,
and what the words are to hold fits. No object has a hash that means it is free. -/
structure Ready (gen : Generator) : Prop where
  words : gen.wordSize = .bits64
  little : gen.littleEndian = true
  refers : ∀ chunk ∈ gen.chunks, chunk.Refers gen
  fits : ∀ chunk ∈ gen.chunks, chunk.Fits gen
  hashes : ∀ chunk ∈ gen.chunks, chunk.idHash < idHashReserved
  size : gen.imageSize < 2 ^ 64
  special : ∃ elements, IsArray gen (gen.objects .specialOops) elements ∧
    elements[specialNil]? = some .nil

variable (ready : Ready gen) (run : gen.emitOn = some image)

include ready

theorem Ready.bound : wordBound gen = 2 ^ 64 := by
  rw [wordBound, bytes_of_words ready.words]
  rfl

include run

theorem Ready.reads {c oop : Nat} {chunk : Chunk} (here : gen.chunks[c]? = some chunk)
    (there : gen.oopOf c = some oop) : ReadsBack gen image (gen.headerSize + oop) chunk :=
  (emitted_reads ready.little ready.refers ready.fits run here there).1

theorem readImage_whole : (readImage gen image).Whole gen.oops ∧
    (readImage gen image).size = gen.imageSize ∧
    gen.oopOf (gen.objects .specialOops) = some (readImage gen image).specialObjectsOop := by
  have sizes : ∀ (c : Nat) (chunk : Chunk) (oop : Nat), gen.chunks[c]? = some chunk →
      gen.oopOf c = some oop →
      extent (objectAt gen image) oop = chunk.wordSize gen.bytesPerWord * gen.bytesPerWord := by
    intro c chunk oop here there
    rw [extent, objectTotalSize, objectAt_wordSize ready.words (ready.reads run here there), bytes_of_words ready.words]
    rfl
  have tiles : Tiles (extent (objectAt gen image)) 0 gen.imageSize gen.oops :=
    assignOops_tiles gen.bytesPerWord 0 gen.chunks sizes (by rw [bytes_of_words ready.words]; decide)
  obtain ⟨special, special_eq, header⟩ := emitted_header run
  have bounds := tiles.bounds special (List.mem_of_getElem? special_eq)
  have small := ready.size
  have fixed : ∀ (k val : Nat), [0xABCDEF43, (gen.imageSize : Int), gen.nextHash, special, 0][k]? =
      some (val : Int) → val < 2 ^ 64 → wordOf gen image 0 k = val := by
    intro k val at_k less
    rw [header k val at_k]
    exact (emitWord_reads val).mpr (by rwa [ready.bound])
  have size : (readImage gen image).size = gen.imageSize := fixed 1 _ rfl small
  have special_oop : (readImage gen image).specialObjectsOop = special :=
    fixed 3 _ rfl (by omega)
  refine ⟨⟨fixed 0 _ rfl (by decide), by rw [size]; omega, by rw [size]; exact tiles, ?_, ?_, ?_, ?_⟩,
    size, by rw [special_oop, special_eq]⟩
  · intro oop member
    obtain ⟨c, chunk, here, there⟩ := chunk_of_oop member
    change _ ≤ extent (objectAt gen image) oop
    rw [sizes c chunk oop here there, bytes_of_words ready.words]
    exact Nat.mul_le_mul_right 8 (headerWords_le chunk 8)
  · intro oop member
    obtain ⟨c, chunk, here, there⟩ := chunk_of_oop member
    change objectIsFree (objectAt gen image oop) = false
    have hash := ready.hashes chunk (List.mem_of_getElem? here)
    rw [← (ready.reads run here there).hash] at hash
    exact decide_eq_false (Nat.not_le_of_lt hash)
  · intro oop member
    obtain ⟨c, chunk, here, there⟩ := chunk_of_oop member
    obtain ⟨m, -, found⟩ := Option.bind_eq_some_iff.mp (ready.reads run here there).map
    exact List.mem_of_getElem? found
  · intro oop member v field pointer
    obtain ⟨c, chunk, here, there⟩ := chunk_of_oop member
    exact objectAt_field ready.words (ready.reads run here there) field pointer

variable {k : Heap} {base : Nat}

/-- A reference of a chunk in memory is what the lookups expect there. -/
theorem loaded_field (stands : Stands k (readImage gen image) gen.oops base)
    {c oop j : Nat} {chunk : Chunk} {value : Value} (here : gen.chunks[c]? = some chunk)
    (there : gen.oopOf c = some oop) (at_j : chunk.values[j]? = some value) :
    field k (oop + base) (headerWords + j) = encode gen (addressOf gen base) value := by
  obtain ⟨reads, words⟩ := emitted_reads ready.little ready.refers ready.fits run here there
  obtain ⟨bytes, emits, word⟩ := words j value at_j
  have inside := (List.getElem?_eq_some_iff.mp at_j).1
  have member : headerWords + j ∈ oopWords (objectAt gen image oop) := by
    rw [objectAt_oopWords ready.words reads, List.mem_range'_1]
    omega
  have moved : field k (oop + base) (headerWords + j) =
      renameOop (· + base) (wordOf gen image (gen.headerSize + oop) (headerWords + j)) := by
    rw [field, stands.objects oop (List.mem_of_getElem? there)]
    exact if_pos member
  have decodes := reads.values j value at_j
  rw [moved]
  cases value with
  | nil =>
    obtain ⟨pointer, found⟩ := decodes
    rw [renameOop, if_neg (by simp [pointer]), encode, addressOf_eq found]
  | chunk d =>
    obtain ⟨pointer, found⟩ := decodes
    rw [renameOop, if_neg (by simp [pointer]), encode, addressOf_eq found]
  | small i =>
    rw [renameOop, if_pos decodes.1, encode, word]
    cases emits
    have value := @emitWord_value gen (2 * i + 1)
    rw [ready.bound] at value
    have cast : (((2 : Nat) ^ 64 : Nat) : Int) = (2 : Int) ^ 64 := by norm_num
    rw [cast] at value
    rw [← value, Int.toNat_natCast]

theorem stands_loaded (even : base % 2 = 0) (stands : Stands k (readImage gen image) gen.oops base)
    (special : gen.oopOf (gen.objects .specialOops) = some (readImage gen image).specialObjectsOop)
    (tiles : Tiles (extent (objectAt gen image)) 0 gen.imageSize gen.oops) :
    Loaded k gen (addressOf gen base) := by
  have value := @loaded_field gen image ready run k base stands
  constructor
  · intro b c hb hc same
    obtain ⟨oop, here⟩ := oopOf_some hb
    obtain ⟨oop', there⟩ := oopOf_some hc
    rw [addressOf_eq here, addressOf_eq there] at same
    have equal := Nat.add_right_cancel same
    have length : gen.oops.length = gen.chunks.length := length_assignOops ..
    exact (List.getElem?_inj (length ▸ hb) tiles.nodup).mp (here.trans (equal ▸ there.symm))
  · obtain ⟨oop, here⟩ := oopOf_some (gen.named .nilObject)
    have aligned := oopOf_even here
    rw [addressOf_eq here]
    omega
  · obtain ⟨elements, ⟨chunk, here, plain, shape⟩, third⟩ := ready.special
    have values : chunk.values = elements := by rw [Chunk.values, plain, shape]; rfl
    rw [stands.cached]
    change field k k.specialObjectsOop (headerWords + specialNil) = _
    rw [stands.special]
    exact value here special (values ▸ third)
  · intro c chunk here
    obtain ⟨oop, there⟩ := oopOf_some (List.getElem?_eq_some_iff.mp here).1
    have reads := ready.reads run here there
    rw [addressOf_eq there, stands.objects oop (List.mem_of_getElem? there)]
    exact reads.hash
  · rintro obj elements ⟨chunk, here, plain, shape⟩
    obtain ⟨oop, there⟩ := oopOf_some (List.getElem?_eq_some_iff.mp here).1
    have reads := ready.reads run here there
    have values : chunk.values = elements := by rw [Chunk.values, plain, shape]; rfl
    have payload : chunk.payload.size gen.bytesPerWord = elements.length * 8 := by
      rw [shape, bytes_of_words ready.words]
      rfl
    have small := (ready.fits chunk (List.mem_of_getElem? here)).payload
    rw [payload, ready.bound] at small
    rw [addressOf_eq there]
    constructor
    · rw [arraySize, stands.objects oop (List.mem_of_getElem? there), objectArraySize]
      change (((wordOf gen image (gen.headerSize + oop) 2 : Nat) + (sizeofWord - 1 : Nat) : Int) %
        2 ^ 64 / sizeofWord).toNat = _
      rw [reads.payload, payload, sizeofWord]
      omega
    · intro j element at_j
      exact value here there (values ▸ at_j)

end Images

section Sample

/-- Nil, the map of all objects and the array of special objects. -/
def sampleReady : Generator where
  littleEndian := true
  wordSize := .bits64
  nextHash := 3
  chunks := [⟨0, 0, [], .object⟩, ⟨1, 0, [.small (-3), .nil], .object⟩,
    ⟨2, 0, [], .oopArray [.small 0, .small 1, .nil]⟩]
  objects := fun
    | .specialOops => 2
    | _ => 0
  symbols := []
  translations := [(.map 0, 1)]
  named name := by cases name <;> decide
  plain := fun chunk here => by cases here; rfl
  interned := (sampleGenerator true).interned.grow _ (by decide)
  translated := (sampleGenerator true).translated.grow _ (by decide)

theorem sampleReady_ready : Ready sampleReady := by
  have oops : sampleReady.oops = [0, 32, 80] := rfl
  have bound : wordBound sampleReady = 2 ^ 64 := rfl
  have map : ∀ chunk ∈ sampleReady.chunks, sampleReady.mapOop chunk = some 32 := by
    intro chunk member
    simp only [sampleReady, List.mem_cons, List.not_mem_nil, or_false] at member
    rcases member with rfl | rfl | rfl <;> rfl
  have values : ∀ chunk ∈ sampleReady.chunks, ∀ value ∈ chunk.values,
      value = .nil ∨ value = .small (-3) ∨ value = .small 0 ∨ value = .small 1 := by
    decide
  refine ⟨rfl, rfl, fun chunk member => ⟨⟨32, map chunk member⟩, ?_⟩, fun chunk member => ?_,
    by decide, by decide, [.small 0, .small 1, .nil], ⟨_, rfl, rfl, rfl⟩, rfl⟩
  · intro value inside
    rcases values chunk member value inside with rfl | rfl | rfl | rfl <;> exact ⟨_, rfl⟩
  · constructor
    · revert chunk
      decide
    · revert chunk
      rw [bound]
      decide
    · revert chunk
      rw [bound]
      decide
    · intro oop here
      rw [map chunk member] at here
      cases here
      decide
    · intro value inside
      rcases values chunk member value inside with rfl | rfl | rfl | rfl
      · intro oop here
        cases here
        decide
      all_goals exact ⟨by rw [bound]; decide, by rw [bound]; decide⟩

end Sample

end SlateVm.Bootstrap
