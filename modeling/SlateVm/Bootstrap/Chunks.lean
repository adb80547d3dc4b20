import Mathlib.Data.List.Basic
import Mathlib.Tactic.Common

/-! The chunks of a bootstrap image and the generator that collects them. -/
namespace SlateVm.Bootstrap

structure Symbol where
  name : List UInt8
  deriving DecidableEq

/-- What a slot or an element refers to. A chunk is given by its place among the chunks. -/
inductive Value where
  | nil
  | small (i : Int)
  | chunk (c : Nat)
  deriving DecidableEq

def Value.isNil : Value → Bool
  | .nil => true
  | _ => false

/-- The three layouts, with the elements of the two kinds of array. -/
inductive Payload where
  | object
  | oopArray (elements : List Value)
  | byteArray (elements : List UInt8)

structure Chunk where
  idHash : Nat
  bmap : Nat
  slotValues : List Value
  payload : Payload

inductive ObjectName where
  | nilObject
  | arrayProto
  | symbolProto
  | methodDefinitionProto
  | specialOops
  deriving DecidableEq

/-- The keys of `translations`. -/
inductive Key where
  | map (m : Nat)
  | definition (d : Nat)
  deriving DecidableEq

/-- What `at:ifAbsentPut:` keeps: every key has a chunk of its own, and not that of Nil. -/
structure Memo {κ : Type} [DecidableEq κ] (table : List (κ × Nat)) (size nil : Nat) : Prop where
  within : ∀ key c, table.lookup key = some c → c < size
  apart : ∀ key key' c, table.lookup key = some c → table.lookup key' = some c → key = key'
  other : ∀ key c, table.lookup key = some c → c ≠ nil

inductive WordSize where
  | bits32
  | bits64
  deriving DecidableEq

def WordSize.bytes : WordSize → Nat
  | .bits32 => 4
  | .bits64 => 8

structure Generator where
  littleEndian : Bool
  wordSize : WordSize
  nextHash : Nat
  chunks : List Chunk
  objects : ObjectName → Nat
  symbols : List (Symbol × Nat)
  translations : List (Key × Nat)
  named : ∀ name, objects name < chunks.length
  plain : ∀ chunk, chunks[objects .arrayProto]? = some chunk → chunk.slotValues = []
  interned : Memo symbols chunks.length (objects .nilObject)
  translated : Memo translations chunks.length (objects .nilObject)

section Memo

variable {κ : Type} [DecidableEq κ] {table : List (κ × Nat)} {size nil : Nat}

theorem Memo.grow (memo : Memo table size nil) (size' : Nat) (larger : size ≤ size') :
    Memo table size' nil := by
  constructor
  · intro key c here
    exact Nat.lt_of_lt_of_le (memo.within key c here) larger
  · exact memo.apart
  · exact memo.other

theorem lookup_cons_cases {key key' : κ} {c c' : Nat}
    (here : ((key, c) :: table).lookup key' = some c') :
    (key' = key ∧ c' = c) ∨ (key' ≠ key ∧ table.lookup key' = some c') := by
  rw [List.lookup_cons] at here
  rcases Decidable.em (key' = key) with rfl | off
  · rw [beq_self_eq_true] at here
    exact .inl ⟨rfl, (Option.some.inj here).symm⟩
  · rw [beq_false_of_ne off] at here
    exact .inr ⟨off, here⟩

theorem Memo.cons (memo : Memo table size nil) (key : κ) (named : nil < size) :
    Memo ((key, size) :: table) (size + 1) nil := by
  constructor
  · intro key' c here
    rcases lookup_cons_cases here with ⟨-, rfl⟩ | ⟨-, old⟩
    · omega
    · have := memo.within key' c old
      omega
  · intro key' key'' c here there
    rcases lookup_cons_cases here with ⟨rfl, rfl⟩ | ⟨-, old⟩ <;>
      rcases lookup_cons_cases there with ⟨rfl, same⟩ | ⟨-, old'⟩
    · rfl
    · exact absurd (memo.within key'' _ old') (Nat.lt_irrefl _)
    · subst same
      exact absurd (memo.within key' _ old) (Nat.lt_irrefl _)
    · exact memo.apart key' key'' c old old'
  · intro key' c here
    rcases lookup_cons_cases here with ⟨-, rfl⟩ | ⟨-, old⟩
    · omega
    · exact memo.other key' c old

end Memo

namespace Generator

variable (gen : Generator)

def bytesPerWord : Nat := gen.wordSize.bytes

def objectsAt (name : ObjectName) : Chunk := gen.chunks.get ⟨gen.objects name, gen.named name⟩

theorem objectsAt_here (name : ObjectName) :
    gen.chunks[gen.objects name]? = some (gen.objectsAt name) :=
  List.getElem?_eq_getElem (gen.named name)

theorem plain_append {more : List Chunk} (chunk : Chunk)
    (here : (gen.chunks ++ more)[gen.objects .arrayProto]? = some chunk) :
    chunk.slotValues = [] := by
  rw [List.getElem?_append_left (gen.named .arrayProto)] at here
  exact gen.plain chunk here

def cloneOf (name : ObjectName) (payload : Payload) : Generator × Nat :=
  let copy := { gen.objectsAt name with idHash := gen.nextHash, payload := payload }
  ({ gen with
      nextHash := gen.nextHash + 1
      chunks := gen.chunks ++ [copy]
      named := fun name => by
        rw [List.length_append]
        exact Nat.lt_of_lt_of_le (gen.named name) (Nat.le_add_right ..)
      plain := gen.plain_append
      interned := gen.interned.grow _ (by simp)
      translated := gen.translated.grow _ (by simp) },
    gen.chunks.length)

def newArrayOf (elements : List Value) : Generator × Nat :=
  gen.cloneOf .arrayProto (.oopArray elements)

def putElements (obj : Nat) (elements : List Value) : Generator :=
  { gen with
    chunks := gen.chunks.modify obj fun chunk => { chunk with payload := .oopArray elements }
    named := fun name => by rw [List.length_modify]; exact gen.named name
    plain := fun chunk here => by
      rw [List.getElem?_modify, gen.objectsAt_here] at here
      cases here
      have plain := gen.plain _ (gen.objectsAt_here .arrayProto)
      split <;> exact plain
    interned := by rw [List.length_modify]; exact gen.interned
    translated := by rw [List.length_modify]; exact gen.translated }

/-- The literal of a symbol: `gen symbols at: s ifAbsentPut: [...]`. -/
def generateLiteral (s : Symbol) : Generator × Nat :=
  match gen.symbols.lookup s with
  | some c => (gen, c)
  | none =>
    let copy := gen.cloneOf .symbolProto (.byteArray s.name)
    ({ copy.1 with
        symbols := (s, copy.2) :: gen.symbols
        interned := by
          have kept := gen.interned.cons s (gen.named .nilObject)
          simpa [copy, cloneOf] using kept },
      copy.2)

/-- `gen translations at: def ifAbsentPut: [...]`; the slots that are filled in the copy and
the cache mask of the selector are read by no function here. -/
def generateMethodDef (d : Nat) : Generator × Nat :=
  match gen.translations.lookup (.definition d) with
  | some c => (gen, c)
  | none =>
    let copy := gen.cloneOf .methodDefinitionProto (gen.objectsAt .methodDefinitionProto).payload
    ({ copy.1 with
        translations := (.definition d, copy.2) :: gen.translations
        translated := by
          have kept := gen.translated.cons (.definition d) (gen.named .nilObject)
          simpa [copy, cloneOf] using kept },
      copy.2)

def idHash (c : Nat) : Option Nat := gen.chunks[c]?.map Chunk.idHash

end Generator

def sampleGenerator (littleEndian : Bool) : Generator where
  littleEndian := littleEndian
  wordSize := .bits64
  nextHash := 2
  chunks := [⟨0, 0, [], .object⟩, ⟨1, 0, [.small (-3), .nil], .object⟩]
  objects := fun _ => 0
  symbols := []
  translations := [(.map 0, 1)]
  named := fun _ => by decide
  plain := fun chunk here => by cases here; rfl
  interned := ⟨nofun, nofun, nofun⟩
  translated := by
    constructor <;> intro key
    · intro c here
      rcases lookup_cons_cases here with ⟨-, rfl⟩ | ⟨-, ⟨⟩⟩
      decide
    · intro key' c here there
      rcases lookup_cons_cases here with ⟨rfl, -⟩ | ⟨-, ⟨⟩⟩
      rcases lookup_cons_cases there with ⟨rfl, -⟩ | ⟨-, ⟨⟩⟩
      rfl
    · intro c here
      rcases lookup_cons_cases here with ⟨-, rfl⟩ | ⟨-, ⟨⟩⟩
      decide

end SlateVm.Bootstrap
