import SlateVm.Number.Tagged
import Mathlib.Logic.Function.Basic

/-! The arguments of a foreign call as words, and the call itself. -/
namespace SlateVm.Marshal

open Tagged

/-- What is read outside the function: three objects, the memory, the fresh buffers of C strings
and the conversions of floating point numbers. -/
structure Vm where
  nil : Word
  trueObject : Word
  falseObject : Word
  payloadSize : Word → Nat
  objectArrayElements : Word → Word
  memory : Word → Word
  buffer : Nat → Word
  smallintToFloat : Word → Word
  float : Word → Word
  smallintToDouble : Word → Word × Word
  floatToDouble : Word → Word × Word

inductive ArgFormat where
  | int
  | float
  | pointer
  | bytes
  | boolean
  | cstring
  | structValue
  | double
  deriving DecidableEq, Repr

def argFormat (w : Word) : Option ArgFormat :=
  if w = (1 <<< 1) ||| 1 then some .int
  else if w = (5 <<< 1) ||| 1 then some .boolean
  else if w = (2 <<< 1) ||| 1 then some .float
  else if w = (8 <<< 1) ||| 1 then some .double
  else if w = (3 <<< 1) ||| 1 then some .pointer
  else if w = (6 <<< 1) ||| 1 then some .cstring
  else if w = (4 <<< 1) ||| 1 then some .bytes
  else if w = (7 <<< 1) ||| 1 then some .structValue
  else none

def callFormatC : Word := (0 <<< 1) ||| 1

def callFormatStd : Word := (1 <<< 1) ||| 1

def maxArgCount : Nat := 16

structure Call where
  vm : Vm
  argsFormat : List Word
  argsArr : List Word
  callFormat : Word

namespace Call

def argCount (c : Call) : Nat := c.argsArr.length

def format (c : Call) (arg : Nat) : Option ArgFormat := argFormat (c.argsFormat.getD arg 0)

def element (c : Call) (arg : Nat) : Word := c.argsArr.getD arg 0

def structLength (c : Call) (arg : Nat) : Nat := c.vm.payloadSize (c.element arg) / 8

end Call

/-- The local array, which starts out with whatever is on the stack, and the two counters. -/
structure State where
  args : Nat → Word
  outArgIndex : Nat
  outArgCount : Int

/-- How the loop is left early: with Nil, past the array, or by a failed assertion. -/
inductive Exit where
  | nil
  | overrun
  | aborted
  deriving DecidableEq, Repr

def put (w : Word) (s : State) : Except Exit State :=
  if s.outArgIndex < maxArgCount then
    .ok { s with args := Function.update s.args s.outArgIndex w, outArgIndex := s.outArgIndex + 1 }
  else .error .overrun

def putAll : List Word → State → Except Exit State
  | [], s => .ok s
  | w :: ws, s => do
    let s ← put w s
    putAll ws s

def extractBigInteger (c : Call) (element : Word) : Except Exit Word :=
  if 8 ≤ c.vm.payloadSize element then .ok (c.vm.memory (c.vm.objectArrayElements element))
  else .error .aborted

def marshalOne (c : Call) (arg : Nat) (s : State) : Except Exit State :=
  let element := c.element arg
  match c.format arg with
  | some .int =>
    if objectIsSmallint element then put (Tagged.objectToSmallint element) s
    else do
      let w ← extractBigInteger c element
      put w s
  | some .boolean =>
    if element = c.vm.trueObject then put 1 s
    else if element = c.vm.falseObject then put 0 s
    else put (-1) s
  | some .float =>
    if objectIsSmallint element then put (c.vm.smallintToFloat (Tagged.objectToSmallint element)) s
    else put (c.vm.float (c.vm.memory (c.vm.objectArrayElements element))) s
  | some .double => do
    let u := if objectIsSmallint element then c.vm.smallintToDouble (Tagged.objectToSmallint element)
      else c.vm.floatToDouble (c.vm.memory (c.vm.objectArrayElements element))
    let s ← put u.1 s
    let s ← put u.2 s
    .ok { s with outArgCount := s.outArgCount + 1 }
  | some .pointer =>
    if element = c.vm.nil then put 0 s
    else put (c.vm.memory (c.vm.objectArrayElements element)) s
  | some .cstring => if element = c.vm.nil then put 0 s else put (c.vm.buffer arg) s
  | some .bytes =>
    if element = c.vm.nil then put 0 s else put (c.vm.objectArrayElements element) s
  | some .structValue =>
    let length := c.structLength arg
    -- the room is measured by the index of the argument, not by that of its first word
    if (maxArgCount : Int) < c.argCount - arg + length then .error .nil
    else do
      let source := c.vm.objectArrayElements element
      let s ← putAll
        ((List.range length).map fun i => c.vm.memory (source + 8 * BitVec.ofNat 64 i)) s
      .ok { s with outArgCount := s.outArgCount + (length - 1) }
  | none => .error .nil

def marshal (c : Call) : Nat → Nat → State → Except Exit State
  | 0, _, s => .ok s
  | n + 1, arg, s => do
    let s ← marshalOne c arg s
    marshal c n (arg + 1) s

inductive Outcome where
  | nil
  | overrun
  | aborted
  | calls (arguments : List (List Word))
  deriving DecidableEq, Repr

def firstArgs (args : Nat → Word) (n : Nat) : List Word := (List.range n).map args

def callC (s : State) : Outcome :=
  if 0 ≤ s.outArgCount ∧ s.outArgCount ≤ 16 then
    .calls [firstArgs s.args s.outArgCount.toNat]
  else .nil

def callStd (s : State) : Outcome :=
  match s.outArgCount with
  | 13 => .calls [firstArgs s.args 13, firstArgs s.args 14, firstArgs s.args 15,
      firstArgs s.args 16]
  | 14 => .calls [firstArgs s.args 14, firstArgs s.args 15, firstArgs s.args 16]
  | 15 => .calls [firstArgs s.args 15, firstArgs s.args 16]
  | n => if 0 ≤ n ∧ n ≤ 16 then .calls [firstArgs s.args n.toNat] else .nil

def applyExternalLibraryPrimitive (c : Call) (stack : Nat → Word) : Outcome :=
  if maxArgCount < c.argCount ∨ c.argCount ≠ c.argsFormat.length then .nil
  else
    match marshal c c.argCount 0 ⟨stack, 0, c.argCount⟩ with
    | .error .nil => .nil
    | .error .overrun => .overrun
    | .error .aborted => .aborted
    | .ok s =>
      if c.callFormat = callFormatC then callC s
      else if c.callFormat = callFormatStd then callStd s
      else .nil

namespace Call

def words (c : Call) (arg : Nat) : List Word :=
  let element := c.element arg
  let value := c.vm.memory (c.vm.objectArrayElements element)
  match c.format arg with
  | some .int => [if objectIsSmallint element then Tagged.objectToSmallint element else value]
  | some .boolean =>
    [if element = c.vm.trueObject then 1 else if element = c.vm.falseObject then 0 else -1]
  | some .float =>
    [if objectIsSmallint element then c.vm.smallintToFloat (Tagged.objectToSmallint element)
      else c.vm.float value]
  | some .double =>
    let u := if objectIsSmallint element then c.vm.smallintToDouble (Tagged.objectToSmallint element)
      else c.vm.floatToDouble value
    [u.1, u.2]
  | some .pointer => [if element = c.vm.nil then 0 else value]
  | some .cstring => [if element = c.vm.nil then 0 else c.vm.buffer arg]
  | some .bytes => [if element = c.vm.nil then 0 else c.vm.objectArrayElements element]
  | some .structValue => (List.range (c.structLength arg)).map fun i =>
      c.vm.memory (c.vm.objectArrayElements element + 8 * BitVec.ofNat 64 i)
  | none => []

def wordsBefore (c : Call) (arg : Nat) : List Word := (List.range arg).flatMap c.words

def Correct (c : Call) (o : Outcome) : Prop :=
  o = .nil ∨ o = .calls [c.wordsBefore c.argCount]

def Stops (c : Call) (arg : Nat) : Prop :=
  c.format arg = none ∨
    (c.format arg = some .structValue ∧ 16 < c.argCount - arg + c.structLength arg)

def Aborts (c : Call) (arg : Nat) : Prop :=
  c.format arg = some .int ∧ objectIsSmallint (c.element arg) = false ∧
    c.vm.payloadSize (c.element arg) < 8

def Accepted (c : Call) : Prop := c.argCount ≤ 16 ∧ c.argCount = c.argsFormat.length

def Reaches (c : Call) (arg : Nat) : Prop := ∀ k ≤ arg, ¬ c.Stops k

/-- As long as Nil is not answered, the words fit and the integers are long enough; and the
function is not called by the cases that run on. -/
def Meets (c : Call) : Prop :=
  c.Accepted →
    (∀ arg < c.argCount, c.Reaches arg →
      ¬ c.Aborts arg ∧ (c.wordsBefore (arg + 1)).length ≤ 16) ∧
    ((∀ arg < c.argCount, ¬ c.Stops arg) → c.callFormat = callFormatStd →
      ¬ (13 ≤ (c.wordsBefore c.argCount).length ∧ (c.wordsBefore c.argCount).length ≤ 15))

end Call

theorem putAll_singleton (w : Word) (s : State) : putAll [w] s = put w s := by
  unfold putAll put
  split <;> rfl

theorem putAll_eq (ws : List Word) (s : State) (inside : s.outArgIndex ≤ 16) :
    (s.outArgIndex + ws.length ≤ 16 → ∃ args,
      putAll ws s = .ok { s with args, outArgIndex := s.outArgIndex + ws.length } ∧
      (∀ i < s.outArgIndex, args i = s.args i) ∧
      ∀ i, ∀ w ∈ ws[i]?, args (s.outArgIndex + i) = w) ∧
    (16 < s.outArgIndex + ws.length → putAll ws s = .error .overrun) := by
  induction ws generalizing s with
  | nil =>
    refine ⟨fun _ => ⟨s.args, rfl, fun _ _ => rfl, ?_⟩, fun beyond => ?_⟩
    · intro i w found
      simp at found
    · simp only [List.length_nil] at beyond
      omega
  | cons w ws ih =>
    simp only [List.length_cons]
    by_cases room : s.outArgIndex < 16
    · have first : put w s = .ok { s with
          args := Function.update s.args s.outArgIndex w, outArgIndex := s.outArgIndex + 1 } :=
        if_pos room
      obtain ⟨fits, beyond⟩ := ih _ (show
        ({ s with args := Function.update s.args s.outArgIndex w,
                  outArgIndex := s.outArgIndex + 1 } : State).outArgIndex ≤ 16 from room)
      have rest : putAll (w :: ws) s = putAll ws { s with
          args := Function.update s.args s.outArgIndex w, outArgIndex := s.outArgIndex + 1 } := by
        rw [putAll, first]
        rfl
      constructor
      · intro short
        obtain ⟨args, put, before, written⟩ := fits (by simp only; omega)
        simp only at put before written
        refine ⟨args, ?_, ?_, ?_⟩
        · rw [rest, put]
          congr 2
          omega
        · intro i below
          rw [before i (by omega), Function.update_of_ne (by omega)]
        · intro i x found
          cases i with
          | zero =>
            rw [List.getElem?_cons_zero, Option.mem_some_iff] at found
            rw [Nat.add_zero, before _ (Nat.lt_succ_self _), Function.update_self, found]
          | succ i =>
            rw [List.getElem?_cons_succ] at found
            have place : s.outArgIndex + (i + 1) = s.outArgIndex + 1 + i := by omega
            rw [place, written i x found]
      · intro long
        rw [rest]
        exact beyond (by simp only; omega)
    · constructor
      · intro short
        omega
      · intro _
        have full : put w s = .error .overrun := if_neg room
        rw [putAll, full]
        rfl

def putCounted (ws : List Word) (s : State) : Except Exit State := do
  let s ← putAll ws s
  .ok { s with outArgCount := s.outArgCount + ((ws.length : Int) - 1) }

theorem putCounted_singleton (w : Word) (s : State) : putCounted [w] s = put w s := by
  rw [putCounted, putAll_singleton, put]
  split
  · simp [bind, Except.bind]
  · rfl

theorem putCounted_pair (u : Word × Word) (s : State) : putCounted [u.1, u.2] s = (do
    let s ← put u.1 s
    let s ← put u.2 s
    .ok { s with outArgCount := s.outArgCount + 1 }) := by
  rw [putCounted, putAll]
  cases put u.1 s with
  | error e => rfl
  | ok s₁ =>
    simp only [bind, Except.bind]
    rw [putAll_singleton]
    cases put u.2 s₁ with
    | error e => rfl
    | ok s₂ => rfl

def Marshals (c : Call) (arg : Nat) (s : State) : Prop :=
  (c.Stops arg → marshalOne c arg s = .error .nil) ∧
  (¬ c.Stops arg → c.Aborts arg → marshalOne c arg s = .error .aborted) ∧
  (¬ c.Stops arg → ¬ c.Aborts arg → marshalOne c arg s = putCounted (c.words arg) s)

theorem Marshals.plain {c : Call} {arg : Nat} {s : State} {f : ArgFormat}
    (format : c.format arg = some f) (noInt : f ≠ .int) (noStruct : f ≠ .structValue)
    (put : marshalOne c arg s = putCounted (c.words arg) s) : Marshals c arg s := by
  have runs : ¬ c.Stops arg := by
    rintro (unknown | ⟨struct, -⟩)
    · rw [format] at unknown
      cases unknown
    · rw [format] at struct
      exact noStruct (Option.some.inj struct)
  have lives : ¬ c.Aborts arg := by
    rintro ⟨int, -⟩
    rw [format] at int
    exact noInt (Option.some.inj int)
  exact ⟨fun stops => absurd stops runs, fun _ aborts => absurd aborts lives, fun _ _ => put⟩

theorem marshals_int {c : Call} {arg : Nat} (format : c.format arg = some .int) (s : State) :
    Marshals c arg s := by
  have runs : ¬ c.Stops arg := by
    rintro (unknown | ⟨struct, -⟩)
    · rw [format] at unknown
      cases unknown
    · rw [format] at struct
      cases struct
  refine ⟨fun stops => absurd stops runs, fun _ aborts => ?_, fun _ lives => ?_⟩
  · obtain ⟨-, object, short⟩ := aborts
    have tooShort : ¬ 8 ≤ c.vm.payloadSize (c.element arg) := by omega
    simp only [marshalOne, format, object, extractBigInteger, if_neg tooShort]
    rfl
  · by_cases small : objectIsSmallint (c.element arg) = true
    · simp only [marshalOne, format, Call.words, putCounted_singleton, small, if_true]
    · have long : 8 ≤ c.vm.payloadSize (c.element arg) := by
        by_contra short
        exact lives ⟨format, Bool.not_eq_true _ ▸ small, by omega⟩
      simp only [marshalOne, format, Call.words, putCounted_singleton, small, extractBigInteger,
        if_pos long]
      rfl

theorem marshals_struct {c : Call} {arg : Nat} (format : c.format arg = some .structValue)
    (within : arg < c.argCount) (s : State) : Marshals c arg s := by
  have room : (maxArgCount : Int) < c.argCount - arg + c.structLength arg ↔ c.Stops arg := by
    unfold Call.Stops maxArgCount
    simp only [format]
    constructor
    · intro full
      exact Or.inr ⟨trivial, by omega⟩
    · rintro (unknown | ⟨-, full⟩)
      · cases unknown
      · omega
  refine ⟨fun stops => ?_, fun _ aborts => ?_, fun runs _ => ?_⟩
  · simp only [marshalOne, format, if_pos (room.mpr stops)]
  · obtain ⟨int, -⟩ := aborts
    rw [format] at int
    cases int
  · have fits := mt room.mp runs
    simp only [marshalOne, format, if_neg fits, Call.words, putCounted, List.length_map,
      List.length_range]

theorem marshals (c : Call) (arg : Nat) (s : State) (within : arg < c.argCount) :
    Marshals c arg s := by
  cases format : c.format arg with
  | none =>
    refine ⟨fun _ => ?_, fun runs => absurd (Or.inl format) runs,
      fun runs => absurd (Or.inl format) runs⟩
    simp only [marshalOne, format]
  | some f =>
    cases f with
    | int => exact marshals_int format s
    | structValue => exact marshals_struct format within s
    | double =>
      apply Marshals.plain format (by decide) (by decide)
      simp only [marshalOne, format, Call.words, putCounted_pair]
    | boolean =>
      apply Marshals.plain format (by decide) (by decide)
      simp only [marshalOne, format, Call.words, putCounted_singleton]
      split
      · rfl
      · split <;> rfl
    | float | pointer | cstring | bytes =>
      apply Marshals.plain format (by decide) (by decide)
      simp only [marshalOne, format, Call.words, putCounted_singleton]
      split <;> rfl

/-- The state before an argument: the words of the earlier ones are in the array. -/
structure Holds (c : Call) (arg : Nat) (s : State) : Prop where
  index : s.outArgIndex = (c.wordsBefore arg).length
  inside : s.outArgIndex ≤ 16
  count : s.outArgCount = c.argCount + s.outArgIndex - arg
  written : ∀ i, ∀ w ∈ (c.wordsBefore arg)[i]?, s.args i = w

theorem Call.wordsBefore_succ (c : Call) (arg : Nat) :
    c.wordsBefore (arg + 1) = c.wordsBefore arg ++ c.words arg := by
  simp only [Call.wordsBefore, List.range_succ, List.flatMap_append, List.flatMap_cons,
    List.flatMap_nil, List.append_nil]

theorem Holds.put {c : Call} {arg : Nat} {s : State} (holds : Holds c arg s) :
    ((c.wordsBefore (arg + 1)).length ≤ 16 →
      ∃ s', putCounted (c.words arg) s = .ok s' ∧ Holds c (arg + 1) s') ∧
    (16 < (c.wordsBefore (arg + 1)).length → putCounted (c.words arg) s = .error .overrun) := by
  have index := holds.index
  have count := holds.count
  obtain ⟨fits, past⟩ := putAll_eq (c.words arg) s holds.inside
  rw [Call.wordsBefore_succ, List.length_append]
  constructor
  · intro short
    obtain ⟨args, put, before, written⟩ := fits (by omega)
    refine ⟨_, by rw [putCounted, put]; rfl, ?_⟩
    constructor
    · simp only [Call.wordsBefore_succ, List.length_append]
      omega
    · simp only
      omega
    · simp only
      omega
    · intro i w found
      rw [Call.wordsBefore_succ, List.getElem?_append, ← index] at found
      split at found
      · rename_i below
        simp only
        rw [before i below]
        exact holds.written i w found
      · have place : s.outArgIndex + (i - s.outArgIndex) = i := by omega
        have here := written _ w found
        rw [place] at here
        exact here
  · intro long
    rw [putCounted, past (by omega)]
    rfl

def Good (c : Call) (arg : Nat) : Prop :=
  ¬ c.Stops arg ∧ ¬ c.Aborts arg ∧ (c.wordsBefore (arg + 1)).length ≤ 16

theorem marshal_cases (c : Call) {n arg : Nat} {s : State} (holds : Holds c arg s)
    (total : arg + n = c.argCount) :
    ((∀ k, arg ≤ k → k < c.argCount → Good c k) ∧
      ∃ s', marshal c n arg s = .ok s' ∧ Holds c c.argCount s') ∨
    ∃ k, arg ≤ k ∧ k < c.argCount ∧ (∀ j, arg ≤ j → j < k → Good c j) ∧
      ((c.Stops k ∧ marshal c n arg s = .error .nil) ∨
        (¬ c.Stops k ∧ ¬ Good c k ∧ ∃ e ≠ Exit.nil, marshal c n arg s = .error e)) := by
  induction n generalizing arg s with
  | zero =>
    refine Or.inl ⟨fun k low high => absurd high (by omega), s, rfl, ?_⟩
    have last : arg = c.argCount := by omega
    exact last ▸ holds
  | succ n ih =>
    have within : arg < c.argCount := by omega
    have leaves {e : Exit} (left : marshalOne c arg s = .error e) :
        marshal c (n + 1) arg s = .error e := by
      rw [marshal, left]
      rfl
    have none (j : Nat) (low : arg ≤ j) (high : j < arg) : Good c j := absurd high (by omega)
    obtain ⟨stop, abort, put⟩ := marshals c arg s within
    by_cases stops : c.Stops arg
    · exact Or.inr ⟨arg, le_rfl, within, none, Or.inl ⟨stops, leaves (stop stops)⟩⟩
    by_cases aborts : c.Aborts arg
    · exact Or.inr ⟨arg, le_rfl, within, none, Or.inr ⟨stops, fun good => good.2.1 aborts,
        .aborted, by decide, leaves (abort stops aborts)⟩⟩
    have putting := put stops aborts
    obtain ⟨fits, past⟩ := holds.put
    by_cases short : (c.wordsBefore (arg + 1)).length ≤ 16
    · obtain ⟨s', added, holds'⟩ := fits short
      have rest : marshal c (n + 1) arg s = marshal c n (arg + 1) s' := by
        rw [marshal, putting, added]
        rfl
      have good : Good c arg := ⟨stops, aborts, short⟩
      have from_ (j : Nat) (low : arg ≤ j) (later : arg + 1 ≤ j → Good c j) : Good c j := by
        rcases Nat.eq_or_lt_of_le low with rfl | above
        · exact good
        · exact later above
      rw [rest]
      rcases ih holds' (by omega) with ⟨all, ended⟩ | ⟨k, low, high, before, left⟩
      · exact Or.inl ⟨fun k low high => from_ k low fun above => all k above high, ended⟩
      · exact Or.inr ⟨k, by omega, high,
          fun j low high => from_ j low fun above => before j above high, left⟩
    · exact Or.inr ⟨arg, le_rfl, within, none, Or.inr ⟨stops, fun good => short good.2.2,
        .overrun, by decide, leaves (putting.trans (past (by omega)))⟩⟩

theorem holds_start (c : Call) (stack : Nat → Word) : Holds c 0 ⟨stack, 0, c.argCount⟩ where
  index := rfl
  inside := Nat.zero_le _
  count := by simp
  written i w found := by simp [Call.wordsBefore] at found

theorem Holds.firstArgs {c : Call} {arg : Nat} {s : State} (holds : Holds c arg s) :
    firstArgs s.args (c.wordsBefore arg).length = c.wordsBefore arg := by
  apply List.ext_getElem?
  intro i
  rw [Marshal.firstArgs, List.getElem?_map]
  by_cases below : i < (c.wordsBefore arg).length
  · have found := List.getElem?_eq_getElem below
    rw [List.getElem?_range below, found, Option.map_some]
    exact congrArg some (holds.written i _ found)
  · rw [List.getElem?_eq_none (by rw [List.length_range]; omega),
      List.getElem?_eq_none (by omega)]
    rfl

theorem called_correct_iff {c : Call} {s : State} (holds : Holds c c.argCount s) :
    c.Correct (if c.callFormat = callFormatC then callC s
      else if c.callFormat = callFormatStd then callStd s else .nil) ↔
    (c.callFormat = callFormatStd →
      ¬ (13 ≤ (c.wordsBefore c.argCount).length ∧ (c.wordsBefore c.argCount).length ≤ 15)) := by
  have index := holds.index
  have inside := holds.inside
  have all := holds.firstArgs
  have count : s.outArgCount = ((c.wordsBefore c.argCount).length : Int) := by
    have count := holds.count
    omega
  by_cases plain : c.callFormat = callFormatC
  · have other : c.callFormat ≠ callFormatStd := by
      rw [plain]
      decide
    rw [if_pos plain]
    refine iff_of_true (Or.inr ?_) fun std => absurd std other
    rw [callC, if_pos (by omega), count, Int.toNat_natCast, all]
  rw [if_neg plain]
  by_cases std : c.callFormat = callFormatStd
  · rw [if_pos std]
    generalize (c.wordsBefore c.argCount).length = total at all count index
    have short : total ≤ 16 := by omega
    have several (first : List Word) (second : List Word) (rest : List (List Word)) :
        ¬ c.Correct (.calls (first :: second :: rest)) := by
      rintro (nil | once)
      · cases nil
      · cases once
    unfold callStd
    rw [count]
    split
    · refine iff_of_false (several _ _ _) fun meets => meets std ?_
      omega
    · refine iff_of_false (several _ _ _) fun meets => meets std ?_
      omega
    · refine iff_of_false (several _ _ _) fun meets => meets std ?_
      omega
    · rename_i not13 not14 not15
      have apart : ¬ (13 ≤ total ∧ total ≤ 15) := by
        rintro ⟨low, high⟩
        have cases : total = 13 ∨ total = 14 ∨ total = 15 := by omega
        rcases cases with rfl | rfl | rfl
        · exact not13 rfl
        · exact not14 rfl
        · exact not15 rfl
      refine iff_of_true (Or.inr ?_) fun _ => apart
      rw [if_pos (by omega), Int.toNat_natCast, all]
  · rw [if_neg std]
    exact iff_of_true (Or.inl rfl) fun other => absurd other std

def nineDoubles : Call where
  vm := ⟨0, 8, 16, fun _ => 0, id, fun _ => 0, fun _ => 0, id, id, fun _ => (0, 0), fun _ => (0, 0)⟩
  argsFormat := List.replicate 9 17
  argsArr := List.replicate 9 1
  callFormat := callFormatC

end SlateVm.Marshal
