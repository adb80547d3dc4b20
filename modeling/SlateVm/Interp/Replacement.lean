import SlateVm.Number.Tagged
import SlateVm.Lib.BlockMove

/-! The primitives behind `replaceFrom:to:with:startingAt:`, for arrays of objects and of bytes. -/
namespace SlateVm.Replacement

open Tagged BlockMove

inductive ObjectType where
  | object
  | oopArray
  | byteArray
  deriving DecidableEq, Repr

/-- What the primitives see of an object: its type, and the elements behind its header. -/
structure Memory (α : Type) where
  objectType : Word → ObjectType
  elements : Word → List α

variable {α : Type}

def Memory.size (m : Memory α) (o : Word) : Int := ((m.elements o).length : Int)

inductive Signal where
  | keyNotFoundOn (key on : Word)
  | typeErrorOn (arg : Word)
  deriving DecidableEq, Repr

/-- An access outside an object, or a block copied onto itself by `memcpy`. -/
inductive Fault where
  | outside
  | overlap
  deriving DecidableEq, Repr

/-- The memory left, the handler called if any, and the object stored as the answer. An empty
range of an array stores none. -/
inductive Outcome (α : Type) where
  | undefined (fault : Fault)
  | returns (m : Memory α) (signal : Option Signal) (answer : Option Word)

def assureTypeArg (m : Memory α) (arg : Word) (type : ObjectType) (body : Outcome α) :
    Outcome α :=
  if m.objectType arg = type then body else .returns m (some (.typeErrorOn arg)) none

def assureSmallintArg (m : Memory α) (arg : Word) (body : Outcome α) : Outcome α :=
  if objectIsSmallint arg then body else .returns m (some (.typeErrorOn arg)) none

def Memory.finish (m : Memory α) (dest : Word) : Option (Word → List α) → Outcome α
  | none => .undefined .outside
  | some elements => .returns { m with elements } none (some dest)

def overlapping (dest src : Word) (start repStart : Int) (amt : Int) : Bool :=
  dest = src ∧ start < repStart + amt ∧ repStart < start + amt

def memcpy (m : Memory α) (dest : Word) (start : Int) (src : Word) (repStart : Int) (amt : Int) :
    Outcome α :=
  if overlapping dest src start repStart amt then .undefined .overlap
  else m.finish dest
    (copyUp dest src (fun i => i + (repStart - start)) amt.toNat start m.elements)

/-- The part of `prim_array_replaceFromToWithStartingAt` past the first test of its receiver. -/
def arrayBody (m : Memory α) (dest start end_ src repStart : Word) : Outcome α :=
  let first := Tagged.objectToSmallint start
  let last := Tagged.objectToSmallint end_
  let repOff := Tagged.objectToSmallint repStart - first
  assureTypeArg m dest .oopArray <| assureSmallintArg m start <| assureSmallintArg m end_ <|
  assureTypeArg m src .oopArray <| assureSmallintArg m repStart <|
  if last.toInt < first.toInt then .returns m none none
  else if m.size src ≤ (repOff + last).toInt then
    .returns m (some (.keyNotFoundOn (Tagged.smallintToObject (repOff + last)) src)) (some src)
  else if m.size dest ≤ last.toInt then
    .returns m (some (.keyNotFoundOn (Tagged.smallintToObject last) dest)) (some dest)
  else
    let count := (last.toInt - first.toInt + 1).toNat
    let shift (i : Int) := (BitVec.ofInt 64 i + repOff).toInt
    m.finish dest
      (if dest = src ∧ (Tagged.objectToSmallint repStart).toInt < first.toInt then
        copyDown dest src shift count last.toInt m.elements
      else copyUp dest src shift count first.toInt m.elements)

def bytearrayBody (m : Memory α) (dest start end_ src repStart : Word) : Outcome α :=
  let first := Tagged.objectToSmallint start
  let rep := Tagged.objectToSmallint repStart
  let amt := Tagged.objectToSmallint end_ - first + 1
  assureTypeArg m dest .byteArray <| assureSmallintArg m start <| assureSmallintArg m end_ <|
  assureTypeArg m src .byteArray <| assureSmallintArg m repStart <|
  if m.size src < (rep + amt).toInt then
    .returns m (some (.keyNotFoundOn (Tagged.smallintToObject (rep + amt)) src)) (some src)
  else if m.size dest < (first + amt).toInt then
    .returns m (some (.keyNotFoundOn (Tagged.smallintToObject (first + amt)) dest)) (some dest)
  else if 0 < amt.toInt then memcpy m dest first.toInt src rep.toInt amt.toInt
  else .returns m none (some dest)

def primArrayReplaceFromToWithStartingAt (m : Memory α) (dest start end_ src repStart : Word) :
    Outcome α :=
  if m.objectType dest = .byteArray then bytearrayBody m dest start end_ src repStart
  else arrayBody m dest start end_ src repStart

def primBytearrayReplaceFromToWithStartingAt (m : Memory α)
    (dest start end_ src repStart : Word) : Outcome α :=
  if m.objectType dest = .oopArray then arrayBody m dest start end_ src repStart
  else bytearrayBody m dest start end_ src repStart

inductive Primitive where
  | array
  | bytearray
  deriving DecidableEq, Repr

def perform : Primitive → Memory α → Word → Word → Word → Word → Word → Outcome α
  | .array => primArrayReplaceFromToWithStartingAt
  | .bytearray => primBytearrayReplaceFromToWithStartingAt

/-- A call on two arrays, of objects or of bytes, with small integers as the indices. -/
structure Call (α : Type) where
  m : Memory α
  dest : Word
  src : Word
  start : SmallInteger
  end_ : SmallInteger
  repStart : SmallInteger
  destArray : m.objectType dest ≠ .object
  srcArray : m.objectType src ≠ .object

def wrapped (z : Int) : Int := (BitVec.ofInt 64 z).toInt

namespace Call

def outcome (c : Call α) (p : Primitive) : Outcome α :=
  perform p c.m c.dest c.start.1 c.end_.1 c.src c.repStart.1

def Empty (c : Call α) : Prop := c.end_.value < c.start.value

def count (c : Call α) : Nat := (c.end_.value - c.start.value + 1).toNat

def Inside (c : Call α) : Prop :=
  0 ≤ c.start.value ∧ c.end_.value < c.m.size c.dest ∧ 0 ≤ c.repStart.value ∧
    c.repStart.value + (c.end_.value - c.start.value) < c.m.size c.src

def Correct (c : Call α) (p : Primitive) : Prop :=
  (c.Empty ∨ c.Inside → ∃ elements answer,
    c.outcome p = .returns { c.m with elements } none answer ∧
      Moved c.dest c.src (fun i => i + (c.repStart.value - c.start.value)) c.m.elements
        c.start.value (c.end_.value + 1) elements) ∧
  (¬ (c.Empty ∨ c.Inside) → ∃ key on answer,
    c.outcome p = .returns c.m (some (.keyNotFoundOn key on)) answer)

def shift (c : Call α) (i : Int) : Int := wrapped (i + (c.repStart.value - c.start.value))

def RefusedArray (c : Call α) : Prop :=
  c.m.size c.src ≤ wrapped (c.repStart.value + (c.end_.value - c.start.value)) ∨
    c.m.size c.dest ≤ c.end_.value

def RefusedBytes (c : Call α) : Prop :=
  c.m.size c.src < wrapped (c.repStart.value + (c.end_.value - c.start.value + 1)) ∨
    c.m.size c.dest ≤ c.end_.value

def MeetsArray (c : Call α) : Prop :=
  c.Empty ∨ c.RefusedArray ∨ (0 ≤ c.start.value ∧ 0 ≤ c.repStart.value)

def Overlaps (c : Call α) : Prop :=
  c.dest = c.src ∧ c.start.value ≤ c.repStart.value + (c.end_.value - c.start.value) ∧
    c.repStart.value ≤ c.end_.value

def MeetsBytes (c : Call α) : Prop :=
  (c.Empty ∧ ¬ c.RefusedBytes) ∨
    (¬ c.Empty ∧ (c.RefusedBytes ∨
      (0 ≤ c.start.value ∧ 0 ≤ c.repStart.value ∧ ¬ c.Overlaps)))

def Meets (c : Call α) : Prop :=
  c.m.objectType c.dest = c.m.objectType c.src ∧
    (c.m.objectType c.dest = .oopArray → c.MeetsArray) ∧
    (c.m.objectType c.dest = .byteArray → c.MeetsBytes)

end Call

theorem ofInt_sub (x y : Int) :
    BitVec.ofInt 64 (x - y) = BitVec.ofInt 64 x - BitVec.ofInt 64 y := by
  apply BitVec.eq_of_toInt_eq
  simp

theorem wrapped_eq {z : Int} (low : -(2 ^ 63) ≤ z) (high : z < 2 ^ 63) : wrapped z = z :=
  toInt_ofInt low high

namespace Call

variable {c : Call α}

theorem ranges (c : Call α) : (-(2 ^ 62) ≤ c.start.value ∧ c.start.value < 2 ^ 62) ∧
    (-(2 ^ 62) ≤ c.end_.value ∧ c.end_.value < 2 ^ 62) ∧
    (-(2 ^ 62) ≤ c.repStart.value ∧ c.repStart.value < 2 ^ 62) := by
  have start := c.start.value_small
  have stop := c.end_.value_small
  have rep := c.repStart.value_small
  unfold Small minimumValue maximumValue at start stop rep
  omega

theorem assured_smallint (m : Memory α) (x : SmallInteger) (body : Outcome α) :
    assureSmallintArg m x.1 body = body := by
  simp only [assureSmallintArg, x.tagged, if_true]

theorem finish_signals_none {m m' : Memory α} {dest : Word} {copied : Option (Word → List α)}
    {signal : Option Signal} {answer : Option Word}
    (finished : m.finish dest copied = .returns m' signal answer) : signal = none := by
  cases copied with
  | none => cases finished
  | some elements =>
    cases finished
    rfl

theorem not_correct_of_silent {p : Primitive} (refusable : ¬ (c.Empty ∨ c.Inside))
    (silent : ∀ m signal answer, c.outcome p = .returns m signal answer → signal = none) :
    ¬ c.Correct p := by
  intro correct
  obtain ⟨key, on, answer, signals⟩ := correct.2 refusable
  cases silent _ _ _ signals

theorem not_correct_of_signal {p : Primitive} {m : Memory α} {signal : Signal}
    {answer : Option Word} (fine : c.Empty ∨ c.Inside)
    (signals : c.outcome p = .returns m (some signal) answer) : ¬ c.Correct p := by
  intro correct
  obtain ⟨elements, answer', returns, -⟩ := correct.1 fine
  rw [signals] at returns
  cases returns

theorem correct_of_signal {p : Primitive} {key on : Word} {answer : Option Word}
    (refusable : ¬ (c.Empty ∨ c.Inside))
    (signals : c.outcome p = .returns c.m (some (.keyNotFoundOn key on)) answer) :
    c.Correct p :=
  ⟨fun fine => absurd fine refusable, fun _ => ⟨key, on, answer, signals⟩⟩

theorem correct_of_moved {p : Primitive} {elements : Word → List α} {answer : Option Word}
    (fine : c.Empty ∨ c.Inside)
    (returns : c.outcome p = .returns { c.m with elements } none answer)
    (moved : Moved c.dest c.src (fun i => i + (c.repStart.value - c.start.value)) c.m.elements
      c.start.value (c.end_.value + 1) elements) : c.Correct p :=
  ⟨fun _ => ⟨elements, answer, returns, moved⟩, fun refusable => absurd fine refusable⟩

theorem outcome_array (p : Primitive) (array : c.m.objectType c.dest = .oopArray) :
    c.outcome p = arrayBody c.m c.dest c.start.1 c.end_.1 c.src c.repStart.1 := by
  cases p <;> simp [outcome, perform, primArrayReplaceFromToWithStartingAt,
    primBytearrayReplaceFromToWithStartingAt, array]

theorem outcome_bytes (p : Primitive) (bytes : c.m.objectType c.dest = .byteArray) :
    c.outcome p = bytearrayBody c.m c.dest c.start.1 c.end_.1 c.src c.repStart.1 := by
  cases p <;> simp [outcome, perform, primArrayReplaceFromToWithStartingAt,
    primBytearrayReplaceFromToWithStartingAt, bytes]

theorem not_correct_of_mixed {p : Primitive}
    (mixed : c.m.objectType c.dest ≠ c.m.objectType c.src) : ¬ c.Correct p := by
  have signals : c.outcome p = .returns c.m (some (.typeErrorOn c.src)) none := by
    cases type : c.m.objectType c.dest with
    | object => exact absurd type c.destArray
    | oopArray =>
      have other : c.m.objectType c.src ≠ .oopArray := type ▸ mixed.symm
      rw [outcome_array p type]
      simp only [arrayBody, assureTypeArg, assured_smallint, type, if_true, if_neg other]
    | byteArray =>
      have other : c.m.objectType c.src ≠ .byteArray := type ▸ mixed.symm
      rw [outcome_bytes p type]
      simp only [bytearrayBody, assureTypeArg, assured_smallint, type, if_true, if_neg other]
  intro correct
  by_cases fine : c.Empty ∨ c.Inside
  · exact not_correct_of_signal fine signals correct
  · obtain ⟨key, on, answer, other⟩ := correct.2 fine
    rw [signals] at other
    cases other

theorem array_outcome (p : Primitive) (array : c.m.objectType c.dest = .oopArray)
    (same : c.m.objectType c.src = .oopArray) : ∃ key₁ key₂, c.outcome p =
    if c.end_.value < c.start.value then .returns c.m none none
    else if c.m.size c.src ≤ wrapped (c.repStart.value + (c.end_.value - c.start.value)) then
      .returns c.m (some (.keyNotFoundOn key₁ c.src)) (some c.src)
    else if c.m.size c.dest ≤ c.end_.value then
      .returns c.m (some (.keyNotFoundOn key₂ c.dest)) (some c.dest)
    else c.m.finish c.dest
      (if c.dest = c.src ∧ c.repStart.value < c.start.value then
        copyDown c.dest c.src c.shift c.count c.end_.value c.m.elements
      else copyUp c.dest c.src c.shift c.count c.start.value c.m.elements) := by
  have offset : Tagged.objectToSmallint c.repStart.1 - Tagged.objectToSmallint c.start.1 =
      BitVec.ofInt 64 (c.repStart.value - c.start.value) := by
    rw [ofInt_sub, ← c.repStart.word, ← c.start.word]
  have total : BitVec.ofInt 64 (c.repStart.value - c.start.value) + Tagged.objectToSmallint c.end_.1 =
      BitVec.ofInt 64 (c.repStart.value + (c.end_.value - c.start.value)) := by
    rw [c.end_.word, ← BitVec.ofInt_add]
    congr 1
    omega
  rw [outcome_array p array]
  simp only [arrayBody, assureTypeArg, assured_smallint, array, same, if_true, offset, total,
    ← BitVec.ofInt_add]
  exact ⟨_, _, rfl⟩

theorem bytes_outcome (p : Primitive) (bytes : c.m.objectType c.dest = .byteArray)
    (same : c.m.objectType c.src = .byteArray) : ∃ key₁ key₂, c.outcome p =
    let amt := wrapped (c.end_.value - c.start.value + 1)
    if c.m.size c.src < wrapped (c.repStart.value + (c.end_.value - c.start.value + 1)) then
      .returns c.m (some (.keyNotFoundOn key₁ c.src)) (some c.src)
    else if c.m.size c.dest ≤ c.end_.value then
      .returns c.m (some (.keyNotFoundOn key₂ c.dest)) (some c.dest)
    else if 0 < amt then memcpy c.m c.dest c.start.value c.src c.repStart.value amt
    else .returns c.m none (some c.dest) := by
  have ranges := c.ranges
  have amount : Tagged.objectToSmallint c.end_.1 - Tagged.objectToSmallint c.start.1 + 1 =
      BitVec.ofInt 64 (c.end_.value - c.start.value + 1) := by
    rw [BitVec.ofInt_add, ofInt_sub, ← c.end_.word, ← c.start.word]
    rfl
  have source : Tagged.objectToSmallint c.repStart.1 +
      BitVec.ofInt 64 (c.end_.value - c.start.value + 1) =
      BitVec.ofInt 64 (c.repStart.value + (c.end_.value - c.start.value + 1)) := by
    rw [c.repStart.word, ← BitVec.ofInt_add]
  have target : Tagged.objectToSmallint c.start.1 +
      BitVec.ofInt 64 (c.end_.value - c.start.value + 1) = BitVec.ofInt 64 (c.end_.value + 1) := by
    rw [c.start.word, ← BitVec.ofInt_add]
    congr 1
    omega
  have stop : c.m.size c.dest < (BitVec.ofInt 64 (c.end_.value + 1)).toInt ↔
      c.m.size c.dest ≤ c.end_.value := by
    rw [toInt_ofInt (by omega) (by omega)]
    omega
  rw [outcome_bytes p bytes]
  simp only [bytearrayBody, assureTypeArg, assured_smallint, bytes, same, if_true, amount, source,
    target, stop]
  exact ⟨_, _, rfl⟩

theorem shift_eq {k : Int} (start : 0 ≤ c.start.value) (rep : 0 ≤ c.repStart.value)
    (low : c.start.value ≤ k) (high : k < c.end_.value + 1) :
    c.shift k = k + (c.repStart.value - c.start.value) := by
  have ranges := c.ranges
  exact wrapped_eq (by omega) (by omega)

theorem count_eq (nonempty : ¬ c.Empty) :
    (c.count : Int) = c.end_.value - c.start.value + 1 := by
  unfold Empty at nonempty
  exact Int.toNat_of_nonneg (by omega)

theorem array_moved (inside : c.Inside) (nonempty : ¬ c.Empty) :
    ∃ elements, (if c.dest = c.src ∧ c.repStart.value < c.start.value then
        copyDown c.dest c.src c.shift c.count c.end_.value c.m.elements
      else copyUp c.dest c.src c.shift c.count c.start.value c.m.elements) = some elements ∧
      Moved c.dest c.src (fun i => i + (c.repStart.value - c.start.value)) c.m.elements
        c.start.value (c.end_.value + 1) elements := by
  obtain ⟨start, target, rep, source⟩ := inside
  have count := count_eq nonempty
  unfold Empty at nonempty
  unfold Memory.size at target source
  by_cases down : c.dest = c.src ∧ c.repStart.value < c.start.value
  · rw [if_pos down]
    have run : ∃ elements, copyDown c.dest c.src c.shift c.count c.end_.value c.m.elements =
        some elements ∧ Moved c.dest c.src c.shift c.m.elements (c.end_.value + 1 - c.count)
          (c.end_.value + 1) elements := by
      apply copyDown_moved (by omega) (Moved.start Int.le_rfl)
      · intro k low high
        omega
      · intro k low high
        rw [shift_eq start rep (by omega) (by omega)]
        omega
      · intro k low high same
        rw [shift_eq start rep (by omega) (by omega)]
        omega
    obtain ⟨elements, copied, moved⟩ := run
    have first : c.end_.value + 1 - (c.count : Int) = c.start.value := by omega
    rw [first] at moved
    exact ⟨elements, copied, moved.congr fun k low high => shift_eq start rep low high⟩
  · rw [if_neg down]
    have run : ∃ elements, copyUp c.dest c.src c.shift c.count c.start.value c.m.elements =
        some elements ∧ Moved c.dest c.src c.shift c.m.elements c.start.value
          (c.start.value + c.count) elements := by
      apply copyUp_moved Int.le_rfl (Moved.start Int.le_rfl)
      · intro k low high
        omega
      · intro k low high
        rw [shift_eq start rep low (by omega)]
        omega
      · intro k low high same
        have notBelow : ¬ c.repStart.value < c.start.value := fun below => down ⟨same.symm, below⟩
        rw [shift_eq start rep low (by omega)]
        omega
    obtain ⟨elements, copied, moved⟩ := run
    have last : c.start.value + (c.count : Int) = c.end_.value + 1 := by omega
    rw [last] at moved
    exact ⟨elements, copied, moved.congr fun k low high => shift_eq start rep low high⟩

theorem array_correct_iff (p : Primitive) (array : c.m.objectType c.dest = .oopArray)
    (same : c.m.objectType c.src = .oopArray) : c.Correct p ↔ c.MeetsArray := by
  have ranges := c.ranges
  obtain ⟨key₁, key₂, outcome⟩ := array_outcome p array same
  by_cases empty : c.Empty
  · have returns := outcome.trans (if_pos empty)
    refine iff_of_true ?_ (Or.inl empty)
    unfold Empty at empty
    exact correct_of_moved (Or.inl empty) returns (Moved.start (by omega))
  have nonempty := empty
  unfold Empty at nonempty
  rw [if_neg nonempty] at outcome
  by_cases source :
      c.m.size c.src ≤ wrapped (c.repStart.value + (c.end_.value - c.start.value))
  · refine iff_of_true ?_ (Or.inr (Or.inl (Or.inl source)))
    rw [if_pos source] at outcome
    refine correct_of_signal ?_ outcome
    rintro (none | ⟨start, -, rep, below⟩)
    · exact empty none
    · rw [wrapped_eq (by omega) (by omega)] at source
      omega
  rw [if_neg source] at outcome
  by_cases target : c.m.size c.dest ≤ c.end_.value
  · refine iff_of_true ?_ (Or.inr (Or.inl (Or.inr target)))
    rw [if_pos target] at outcome
    refine correct_of_signal ?_ outcome
    rintro (none | ⟨-, below, -⟩)
    · exact empty none
    · omega
  rw [if_neg target] at outcome
  by_cases natural : 0 ≤ c.start.value ∧ 0 ≤ c.repStart.value
  · refine iff_of_true ?_ (Or.inr (Or.inr natural))
    rw [wrapped_eq (by omega) (by omega)] at source
    have inside : c.Inside := ⟨natural.1, by omega, natural.2, by omega⟩
    obtain ⟨elements, copied, moved⟩ := array_moved inside empty
    simp only [copied, Memory.finish] at outcome
    exact correct_of_moved (Or.inr inside) outcome moved
  · refine iff_of_false ?_ ?_
    · refine not_correct_of_silent ?_ ?_
      · rintro (none | ⟨start, -, rep, -⟩)
        · exact empty none
        · exact natural ⟨start, rep⟩
      · intro m signal answer returns
        rw [outcome] at returns
        exact finish_signals_none returns
    · rintro (none | (refused | refused) | both)
      · exact empty none
      · exact source refused
      · exact target refused
      · exact natural both

theorem bytes_moved (inside : c.Inside) (nonempty : ¬ c.Empty) (apart : ¬ c.Overlaps) :
    ∃ elements, memcpy c.m c.dest c.start.value c.src c.repStart.value
        (c.end_.value - c.start.value + 1) = .returns { c.m with elements } none (some c.dest) ∧
      Moved c.dest c.src (fun i => i + (c.repStart.value - c.start.value)) c.m.elements
        c.start.value (c.end_.value + 1) elements := by
  obtain ⟨start, target, rep, source⟩ := inside
  have length := count_eq nonempty
  unfold Empty at nonempty
  unfold Memory.size at target source
  have separate : overlapping c.dest c.src c.start.value c.repStart.value
      (c.end_.value - c.start.value + 1) = false := by
    unfold overlapping
    apply decide_eq_false
    rintro ⟨same, low, high⟩
    exact apart ⟨same, by omega, by omega⟩
  have run : ∃ elements, copyUp c.dest c.src
      (fun i => i + (c.repStart.value - c.start.value)) c.count c.start.value c.m.elements =
      some elements ∧ Moved c.dest c.src (fun i => i + (c.repStart.value - c.start.value))
        c.m.elements c.start.value (c.start.value + c.count) elements := by
    apply copyUp_moved Int.le_rfl (Moved.start Int.le_rfl)
    · intro k low high
      omega
    · intro k low high
      omega
    · rintro k low high same ⟨after, before⟩
      exact apart ⟨same.symm, by omega, by omega⟩
  obtain ⟨elements, copied, moved⟩ := run
  have last : c.start.value + (c.count : Int) = c.end_.value + 1 := by omega
  rw [last] at moved
  refine ⟨elements, ?_, moved⟩
  unfold Call.count at copied
  rw [memcpy, separate, if_neg (by decide), copied]
  rfl

theorem memcpy_signals_none {m m' : Memory α} {dest src : Word} {start repStart amt : Int}
    {signal : Option Signal} {answer : Option Word}
    (returns : memcpy m dest start src repStart amt = .returns m' signal answer) :
    signal = none := by
  unfold memcpy at returns
  split at returns
  · cases returns
  · exact finish_signals_none returns

theorem bytes_correct_iff (p : Primitive) (bytes : c.m.objectType c.dest = .byteArray)
    (same : c.m.objectType c.src = .byteArray) : c.Correct p ↔ c.MeetsBytes := by
  have ranges := c.ranges
  obtain ⟨key₁, key₂, outcome⟩ := bytes_outcome p bytes same
  by_cases refused : c.RefusedBytes
  · have signals : ∃ key on answer,
        c.outcome p = .returns c.m (some (.keyNotFoundOn key on)) answer := by
      by_cases source : c.m.size c.src <
          wrapped (c.repStart.value + (c.end_.value - c.start.value + 1))
      · exact ⟨_, _, _, outcome.trans (if_pos source)⟩
      · have target := refused.resolve_left source
        exact ⟨_, _, _, outcome.trans ((if_neg source).trans (if_pos target))⟩
    obtain ⟨key, on, answer, signals⟩ := signals
    by_cases empty : c.Empty
    · refine iff_of_false (not_correct_of_signal (Or.inl empty) signals) ?_
      rintro (⟨-, other⟩ | ⟨nonempty, -⟩)
      · exact other refused
      · exact nonempty empty
    · refine iff_of_true (correct_of_signal ?_ signals) (Or.inr ⟨empty, Or.inl refused⟩)
      rintro (none | ⟨start, target, rep, source⟩)
      · exact empty none
      · unfold Empty at empty
        unfold RefusedBytes at refused
        rw [wrapped_eq (by omega) (by omega)] at refused
        omega
  have accepted := refused
  unfold RefusedBytes at accepted
  rw [if_neg fun source => accepted (Or.inl source),
    if_neg fun target => accepted (Or.inr target)] at outcome
  by_cases empty : c.Empty
  · refine iff_of_true ?_ (Or.inl ⟨empty, refused⟩)
    have none := empty
    unfold Empty at none
    have amount : ¬ 0 < wrapped (c.end_.value - c.start.value + 1) := by
      rw [wrapped_eq (by omega) (by omega)]
      omega
    rw [if_neg amount] at outcome
    exact correct_of_moved (Or.inl empty) outcome (Moved.start (by omega))
  have nonempty := empty
  unfold Empty at nonempty
  by_cases natural : 0 ≤ c.start.value ∧ 0 ≤ c.repStart.value
  · rw [wrapped_eq (by omega) (by omega)] at accepted
    have inside : c.Inside := ⟨natural.1, by omega, natural.2, by omega⟩
    rw [wrapped_eq (by omega) (by omega), if_pos (by omega)] at outcome
    by_cases onto : c.Overlaps
    · refine iff_of_false ?_ ?_
      · have undefined : c.outcome p = .undefined .overlap := by
          have meets : overlapping c.dest c.src c.start.value c.repStart.value
              (c.end_.value - c.start.value + 1) = true := by
            obtain ⟨self, low, high⟩ := onto
            exact decide_eq_true ⟨self, by omega, by omega⟩
          rw [outcome, memcpy, meets, if_pos rfl]
        intro correct
        obtain ⟨elements, answer, returns, -⟩ := correct.1 (Or.inr inside)
        rw [undefined] at returns
        cases returns
      · rintro (⟨none, -⟩ | ⟨-, other | ⟨-, -, apart⟩⟩)
        · exact empty none
        · exact refused other
        · exact apart onto
    · refine iff_of_true ?_ (Or.inr ⟨empty, Or.inr ⟨natural.1, natural.2, onto⟩⟩)
      obtain ⟨elements, copied, moved⟩ := bytes_moved inside empty onto
      exact correct_of_moved (Or.inr inside) (outcome.trans copied) moved
  · refine iff_of_false ?_ ?_
    · refine not_correct_of_silent ?_ ?_
      · rintro (none | ⟨start, -, rep, -⟩)
        · exact empty none
        · exact natural ⟨start, rep⟩
      · intro m signal answer returns
        rw [outcome] at returns
        split at returns
        · exact memcpy_signals_none returns
        · cases returns
          rfl
    · rintro (⟨none, -⟩ | ⟨-, other | ⟨start, rep, -⟩⟩)
      · exact empty none
      · exact refused other
      · exact natural ⟨start, rep⟩

end Call

/-- A block is replaced as it should, or refused, exactly where the indices are not below the
objects unless the upper ends refuse them, an empty range of bytes is not past an end, bytes are
not copied onto themselves, and the two arrays are of one type. -/
theorem replacement_correct_iff (p : Primitive) (c : Call α) : c.Correct p ↔ c.Meets := by
  unfold Call.Meets
  by_cases same : c.m.objectType c.dest = c.m.objectType c.src
  · cases type : c.m.objectType c.dest with
    | object => exact absurd type c.destArray
    | oopArray =>
      rw [Call.array_correct_iff p type (same ▸ type)]
      simp [← same, type]
    | byteArray =>
      rw [Call.bytes_correct_iff p type (same ▸ type)]
      simp [← same, type]
  · exact iff_of_false (Call.not_correct_of_mixed same) fun meets => same meets.1

theorem objectIsSmallint_one : objectIsSmallint 1 = true := by decide

def beforeFirst : Call Nat where
  m := { objectType := fun _ => .oopArray, elements := fun _ => [10, 20, 30] }
  dest := 0
  src := 8
  start := ⟨BitVec.ofInt 64 (-1), by decide⟩
  end_ := ⟨1, objectIsSmallint_one⟩
  repStart := ⟨1, objectIsSmallint_one⟩
  destArray := by intro same; cases same
  srcArray := by intro same; cases same

/-- The range is not refused, and the word before the first element is written. -/
theorem negative_start : ¬ ∀ (p : Primitive) (c : Call Nat), c.Correct p := by
  intro correct
  have stopped : beforeFirst.outcome .array = .undefined .outside := rfl
  have outside : ¬ (beforeFirst.Empty ∨ beforeFirst.Inside) := by
    unfold Call.Empty Call.Inside
    decide
  obtain ⟨key, on, answer, signals⟩ := (correct .array beforeFirst).2 outside
  rw [stopped] at signals
  cases signals

end SlateVm.Replacement
