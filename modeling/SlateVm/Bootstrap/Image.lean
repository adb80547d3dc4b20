import SlateVm.Bootstrap.Chunks
import SlateVm.Heap.Object
import SlateVm.Lib.Bytes

/-! The emission of the chunks of a generator as an image, and the words of an image as the
machine reads them. A reference to no chunk, or a map without a translation, is `none`. -/
namespace SlateVm.Bootstrap

def headerWords : Nat := 4

namespace Chunk

variable (chunk : Chunk)

def wordSizeSansPayload : Nat := headerWords + chunk.slotValues.length

def wordSize (bytesPerWord : Nat) : Nat :=
  match chunk.payload with
  | .object => chunk.wordSizeSansPayload
  | .oopArray elements => chunk.wordSizeSansPayload + elements.length
  | .byteArray elements =>
    chunk.wordSizeSansPayload + (elements.length + bytesPerWord - 1) / bytesPerWord

def nextOop (bytesPerWord oop : Nat) : Nat := oop + chunk.wordSize bytesPerWord * bytesPerWord

end Chunk

def assignOops (bytesPerWord : Nat) : Nat → List Chunk → List Nat × Nat
  | oop, [] => ([], oop)
  | oop, chunk :: chunks =>
    let rest := assignOops bytesPerWord (chunk.nextOop bytesPerWord oop) chunks
    (oop :: rest.1, rest.2)

namespace Generator

variable (gen : Generator)

def oops : List Nat := (assignOops gen.bytesPerWord 0 gen.chunks).1

def imageSize : Nat := (assignOops gen.bytesPerWord 0 gen.chunks).2

def oopOf (c : Nat) : Option Nat := gen.oops[c]?

def emitInteger (val : Int) (byteSize : Nat) : List Nat := Bytes.encode gen.littleEndian byteSize val

def emitWord (val : Int) : List Nat := gen.emitInteger val gen.bytesPerWord

/-- A small integer is `i << 1 bitOr: 1`. -/
def emitOopOf : Value → Option (List Nat)
  | .nil => (gen.oopOf (gen.objects .nilObject)).map fun oop : Nat => gen.emitWord oop
  | .small i => some (gen.emitWord (2 * i + 1))
  | .chunk c => (gen.oopOf c).map fun oop : Nat => gen.emitWord oop

def intoByte (i : Nat) : Nat := i &&& 0xFF

def emitHeaderOf (hash size payload format : Nat) : List Nat :=
  (if gen.littleEndian then
    [0b00000001 ||| (hash &&& 0x7F) <<< 1, intoByte (hash >>> 7), intoByte (hash >>> 15),
      format <<< 6] ++ gen.emitInteger 0 (gen.bytesPerWord - 4)
  else
    gen.emitInteger 0 (gen.bytesPerWord - 4) ++
      [0b10000000 ||| (hash >>> 16 &&& 0x7F), intoByte (hash >>> 8), intoByte hash, format]) ++
    gen.emitWord size ++ gen.emitWord payload

def mapOop (chunk : Chunk) : Option Nat :=
  (gen.translations.lookup (.map chunk.bmap)).bind gen.oopOf

def emit (chunk : Chunk) : Option (List Nat) := do
  let size := chunk.wordSizeSansPayload
  let oop : Nat ← gen.mapOop chunk
  match chunk.payload with
  | .object =>
    let slots ← chunk.slotValues.mapM gen.emitOopOf
    some (gen.emitHeaderOf chunk.idHash (chunk.wordSize gen.bytesPerWord) 0 0b00 ++
      gen.emitWord oop ++ slots.flatten)
  | .oopArray elements =>
    let values ← (chunk.slotValues ++ elements).mapM gen.emitOopOf
    some (gen.emitHeaderOf chunk.idHash size (elements.length * gen.bytesPerWord) 0b01 ++
      gen.emitWord oop ++ values.flatten)
  | .byteArray elements =>
    let slots ← chunk.slotValues.mapM gen.emitOopOf
    let padding := (((gen.bytesPerWord : Int) - elements.length) % gen.bytesPerWord).toNat
    some (gen.emitHeaderOf chunk.idHash size elements.length 0b10 ++
      gen.emitWord oop ++ slots.flatten ++ elements.map UInt8.toNat ++ List.replicate padding 0)

def emitHeader : Option (List Nat) := do
  let specialOops : Nat ← gen.oopOf (gen.objects .specialOops)
  some (gen.emitWord 0xABCDEF43 ++ gen.emitWord gen.imageSize ++ gen.emitWord gen.nextHash ++
    gen.emitWord specialOops ++ gen.emitWord 0)

def emitOn : Option (List Nat) := do
  let header ← gen.emitHeader
  let bodies ← gen.chunks.mapM gen.emit
  some (header ++ bodies.flatten)

/-- The words of the header of an image: `struct slate_image_header`. -/
def headerSize : Nat := 5 * gen.bytesPerWord

end Generator

section Reading

def wordAt (little : Bool) (bytesPerWord : Nat) (image : List Nat) (pos : Nat) : Nat :=
  Bytes.value little ((image.drop pos).take bytesPerWord)

def objectHash (header : Nat) : Nat := header >>> 1 &&& idHashMax

def objectType (header : Nat) : Nat := header >>> 30 &&& 0x3

def smallintOf (bytesPerWord word : Nat) : Int :=
  (if word < 2 ^ (8 * bytesPerWord - 1) then (word : Int) else word - 2 ^ (8 * bytesPerWord)) / 2

end Reading

end SlateVm.Bootstrap

/-! The bytes of a chunk as words, and where they stand in the image. -/
namespace SlateVm.Bootstrap

section Words

variable (gen : Generator) (chunk : Chunk)

def Payload.format : Payload → Nat
  | .object => typeObject
  | .oopArray _ => typeOopArray
  | .byteArray _ => typeByteArray

def Payload.size (bytesPerWord : Nat) : Payload → Nat
  | .object => 0
  | .oopArray elements => elements.length * bytesPerWord
  | .byteArray elements => elements.length

def Chunk.values : List Value :=
  match chunk.payload with
  | .oopArray elements => chunk.slotValues ++ elements
  | _ => chunk.slotValues

def Chunk.tail (bytesPerWord : Nat) : List Nat :=
  match chunk.payload with
  | .byteArray elements => elements.map UInt8.toNat ++
    List.replicate (((bytesPerWord : Int) - elements.length) % bytesPerWord).toNat 0
  | _ => []

namespace Generator

def headerWord (hash format : Nat) : List Nat :=
  if gen.littleEndian then
    [0b00000001 ||| (hash &&& 0x7F) <<< 1, intoByte (hash >>> 7), intoByte (hash >>> 15),
      format <<< 6] ++ gen.emitInteger 0 (gen.bytesPerWord - 4)
  else
    gen.emitInteger 0 (gen.bytesPerWord - 4) ++
      [0b10000000 ||| (hash >>> 16 &&& 0x7F), intoByte (hash >>> 8), intoByte hash, format]

def fixedWords (oop : Nat) : List (List Nat) :=
  [gen.headerWord chunk.idHash chunk.payload.format, gen.emitWord chunk.wordSizeSansPayload,
    gen.emitWord (chunk.payload.size gen.bytesPerWord), gen.emitWord oop]

end Generator

/-- Every reference is to a chunk of the image, and every map has a translation there. -/
structure Chunk.Refers : Prop where
  map : ∃ oop, gen.mapOop chunk = some oop
  values : ∀ value ∈ chunk.values, ∃ bytes, gen.emitOopOf value = some bytes

end Words

variable {gen : Generator} {chunk : Chunk}

theorem mapM_some {α β : Type} {f : α → Option β} {xs : List α}
    (all : ∀ x ∈ xs, ∃ y, f x = some y) :
    ∃ ys, xs.mapM f = some ys ∧ List.Forall₂ (fun x y => f x = some y) xs ys := by
  induction xs with
  | nil => exact ⟨[], rfl, .nil⟩
  | cons x xs ih =>
    obtain ⟨y, here⟩ := all x List.mem_cons_self
    obtain ⟨ys, rest, related⟩ := ih fun x member => all x (List.mem_cons_of_mem _ member)
    exact ⟨y :: ys, by simp [List.mapM_cons, here, rest], .cons here related⟩

theorem bytesPerWord_cases (gen : Generator) : gen.bytesPerWord = 4 ∨ gen.bytesPerWord = 8 := by
  unfold Generator.bytesPerWord
  cases gen.wordSize with
  | bits32 => exact .inl rfl
  | bits64 => exact .inr rfl

@[simp] theorem length_emitWord (gen : Generator) (val : Int) :
    (gen.emitWord val).length = gen.bytesPerWord := Bytes.length_encode ..

theorem length_emitOopOf {value : Value} {bytes : List Nat}
    (emits : gen.emitOopOf value = some bytes) : bytes.length = gen.bytesPerWord := by
  cases value with
  | small i =>
    cases emits
    exact length_emitWord gen _
  | nil =>
    obtain ⟨oop, -, rfl⟩ := Option.map_eq_some_iff.mp emits
    exact length_emitWord gen _
  | chunk c =>
    obtain ⟨oop, -, rfl⟩ := Option.map_eq_some_iff.mp emits
    exact length_emitWord gen _

theorem length_headerWord (gen : Generator) (hash format : Nat) :
    (gen.headerWord hash format).length = gen.bytesPerWord := by
  have large := bytesPerWord_cases gen
  have zeros : (gen.emitInteger 0 (gen.bytesPerWord - 4)).length = gen.bytesPerWord - 4 :=
    Bytes.length_encode ..
  unfold Generator.headerWord
  split
  · rw [List.length_append, zeros]
    simp only [List.length_cons, List.length_nil]
    omega
  · rw [List.length_append, zeros]
    simp only [List.length_cons, List.length_nil]
    omega

theorem emit_words (refers : chunk.Refers gen) :
    ∃ (oop : Nat) (values : List (List Nat)), gen.mapOop chunk = some oop ∧
      List.Forall₂ (fun value bytes => gen.emitOopOf value = some bytes) chunk.values values ∧
      gen.emit chunk =
        some ((gen.fixedWords chunk oop ++ values).flatten ++ chunk.tail gen.bytesPerWord) := by
  obtain ⟨oop, map⟩ := refers.map
  obtain ⟨values, run, related⟩ := mapM_some refers.values
  refine ⟨oop, values, map, related, ?_⟩
  unfold Generator.emit
  cases shape : chunk.payload with
  | object =>
    simp only [Chunk.values, shape] at run
    simp [map, run, Chunk.tail, shape, Generator.fixedWords, Generator.emitHeaderOf,
      Generator.headerWord, Payload.format, Payload.size, Chunk.wordSize, typeObject]
  | oopArray elements =>
    simp only [Chunk.values, shape] at run
    simp [map, run, Chunk.tail, shape, Generator.fixedWords, Generator.emitHeaderOf,
      Generator.headerWord, Payload.format, Payload.size, typeOopArray]
  | byteArray elements =>
    simp only [Chunk.values, shape] at run
    simp [map, run, Chunk.tail, shape, Generator.fixedWords, Generator.emitHeaderOf,
      Generator.headerWord, Payload.format, Payload.size, typeByteArray]

section Lengths

theorem words_sized {oop : Nat} {values : List (List Nat)}
    (related : List.Forall₂ (fun value bytes => gen.emitOopOf value = some bytes) chunk.values values) :
    ∀ word ∈ gen.fixedWords chunk oop ++ values, word.length = gen.bytesPerWord := by
  intro word member
  rcases List.mem_append.mp member with fixed | reference
  · simp only [Generator.fixedWords, List.mem_cons, List.not_mem_nil, or_false] at fixed
    rcases fixed with rfl | rfl | rfl | rfl
    · exact length_headerWord gen _ _
    all_goals exact length_emitWord gen _
  · clear member
    generalize chunk.values = refs at related
    induction related with
    | nil => cases reference
    | cons here _ ih =>
      rcases List.mem_cons.mp reference with rfl | later
      · exact length_emitOopOf here
      · exact ih later

theorem padded (b n : Nat) (positive : 0 < b) :
    n + (((b : Int) - n) % b).toNat = (n + b - 1) / b * b := by
  have whole := Nat.div_add_mod (n + b - 1) b
  have part := Nat.mod_lt (n + b - 1) positive
  have behind : ((b : Int) - n) % b = b - 1 - ((n + b - 1) % b : Nat) := by
    have split : ((b : Int) - n) = (b - 1 - ((n + b - 1) % b : Nat)) +
        b * (1 - ((n + b - 1) / b : Nat)) := by
      have cast : ((b * ((n + b - 1) / b) + (n + b - 1) % b : Nat) : Int) = n + b - 1 := by
        rw [whole]
        omega
      push_cast at cast
      push_cast
      linarith
    rw [split, Int.add_mul_emod_self_left]
    apply Int.emod_eq_of_lt
    · omega
    · omega
  rw [behind, Nat.mul_comm]
  omega

theorem length_words {oop : Nat} {values : List (List Nat)}
    (related : List.Forall₂ (fun value bytes => gen.emitOopOf value = some bytes) chunk.values values) :
    ((gen.fixedWords chunk oop ++ values).flatten ++ chunk.tail gen.bytesPerWord).length =
      chunk.wordSize gen.bytesPerWord * gen.bytesPerWord := by
  have positive : 0 < gen.bytesPerWord := by
    have := bytesPerWord_cases gen
    omega
  have count : (gen.fixedWords chunk oop ++ values).length = headerWords + chunk.values.length := by
    rw [List.length_append, related.length_eq]
    rfl
  rw [List.length_append, Bytes.length_flatten _ (words_sized related), count]
  unfold Chunk.wordSize Chunk.values Chunk.tail Chunk.wordSizeSansPayload
  cases chunk.payload with
  | object => simp
  | oopArray elements => simp [Nat.add_assoc]
  | byteArray elements =>
    have pad := padded gen.bytesPerWord elements.length positive
    simp only [List.length_append, List.length_map, List.length_replicate]
    rw [pad, ← Nat.add_mul]

theorem emit_length (refers : chunk.Refers gen) : ∃ body, gen.emit chunk = some body ∧
    body.length = chunk.wordSize gen.bytesPerWord * gen.bytesPerWord := by
  obtain ⟨oop, values, -, related, emits⟩ := emit_words refers
  exact ⟨_, emits, length_words related⟩

end Lengths

section Places

theorem assignOops_cons (b start : Nat) (chunk : Chunk) (chunks : List Chunk) :
    assignOops b start (chunk :: chunks) =
      (start :: (assignOops b (chunk.nextOop b start) chunks).1,
        (assignOops b (chunk.nextOop b start) chunks).2) := rfl

theorem assignOops_first (b start : Nat) (chunks : List Chunk) :
    ((assignOops b start chunks).1[0]?).getD (assignOops b start chunks).2 = start := by
  cases chunks <;> rfl

theorem assignOops_next (b start c : Nat) (chunks : List Chunk) (chunk : Chunk) (oop : Nat)
    (here : chunks[c]? = some chunk) (at_ : (assignOops b start chunks).1[c]? = some oop) :
    ((assignOops b start chunks).1[c + 1]?).getD (assignOops b start chunks).2 =
      oop + chunk.wordSize b * b := by
  induction chunks generalizing start c with
  | nil => cases here
  | cons first chunks ih =>
    rw [assignOops_cons] at at_ ⊢
    cases c with
    | zero =>
      cases here
      cases at_
      exact assignOops_first b _ chunks
    | succ c => exact ih _ c here at_

theorem length_assignOops (b start : Nat) (chunks : List Chunk) :
    (assignOops b start chunks).1.length = chunks.length := by
  induction chunks generalizing start with
  | nil => rfl
  | cons first chunks ih =>
    rw [assignOops_cons, List.length_cons, ih]
    rfl

theorem emit_places (chunks : List Chunk) (start : Nat)
    (refer : ∀ chunk ∈ chunks, chunk.Refers gen) :
    ∃ bodies, chunks.mapM gen.emit = some bodies ∧
      start + bodies.flatten.length = (assignOops gen.bytesPerWord start chunks).2 ∧
      ∀ (c : Nat) (chunk : Chunk) (oop : Nat), chunks[c]? = some chunk →
        (assignOops gen.bytesPerWord start chunks).1[c]? = some oop →
        ∃ body rest, gen.emit chunk = some body ∧ start ≤ oop ∧
          bodies.flatten.drop (oop - start) = body ++ rest := by
  induction chunks generalizing start with
  | nil => exact ⟨[], rfl, rfl, fun c chunk oop here => by cases here⟩
  | cons first chunks ih =>
    obtain ⟨body, emits, length⟩ := emit_length (refer first List.mem_cons_self)
    obtain ⟨bodies, run, total, places⟩ := ih (first.nextOop gen.bytesPerWord start)
      fun chunk member => refer chunk (List.mem_cons_of_mem _ member)
    refine ⟨body :: bodies, by simp [List.mapM_cons, emits, run], ?_, ?_⟩
    · rw [assignOops_cons, List.flatten_cons, List.length_append, length]
      simp only [Chunk.nextOop] at total
      simp only [Chunk.nextOop]
      omega
    · intro c chunk oop here at_
      rw [assignOops_cons] at at_
      cases c with
      | zero =>
        cases here
        cases at_
        refine ⟨body, bodies.flatten, emits, Nat.le_refl _, ?_⟩
        rw [Nat.sub_self, List.drop_zero, List.flatten_cons]
      | succ c =>
        obtain ⟨body', rest, emits', behind, place⟩ := places c chunk oop here at_
        have next : first.nextOop gen.bytesPerWord start = start + body.length := by
          rw [Chunk.nextOop, length]
        rw [next] at behind place
        refine ⟨body', rest, emits', by omega, ?_⟩
        have split : oop - start = body.length + (oop - (start + body.length)) := by omega
        rw [split, List.flatten_cons, ← List.drop_drop, List.drop_left, place]

end Places

end SlateVm.Bootstrap
