import SlateVm.Collections.ReadStream
import SlateVm.Lib.Spans

/-! Glob patterns: reading a mask into its components, and matching a string with them. What
signals an error is `none`. -/
namespace SlateVm.Glob

open Collections

/-- What the ranges of a `PatternRange` are: characters, and associations of two of them. -/
inductive Range where
  | character (c : Char)
  | association (key value : Char)
deriving DecidableEq, Repr

structure PatternRange where
  ranges : List Range
  negate : Bool
deriving DecidableEq, Repr

inductive PatternComponent where
  | literal (string : List Char)
  | range (r : PatternRange)
  | any
  | anyOne
deriving DecidableEq, Repr

/-- What a match answers: `PatternFailure` or a position. -/
inductive Match where
  | failure
  | position (pos : Nat)
deriving DecidableEq, Repr

section Reading

def reader (s : List Char) : ReadStream Char := ReadStream.onFromTo s false 0 s.length

/-- The loop of `readRange:`, on the ranges that it has added. -/
def readRanges : Nat → ReadStream Char → List Range → Option (List Range)
  | 0, _, _ => none
  | fuel + 1, s, ranges =>
    if s.isAtEnd then some ranges
    else do
      let (char, s) ← s.next
      let char2 ← s.peek
      if char2 = '-' then do
        let (_, s) ← s.next
        let (last, s) ← s.next
        readRanges fuel s (ranges ++ [.association char last])
      else readRanges fuel s (ranges ++ [.character char])

def readRange (str : List Char) : Option PatternRange := do
  let s := reader str
  let char2 ← s.peek
  let ranges ← readRanges (str.length + 1) s []
  some ⟨ranges, "^!".toList.contains char2⟩

def putLiteral (matcher : List PatternComponent) (prev : List Char) : List PatternComponent :=
  if prev.isEmpty then matcher else matcher ++ [.literal prev]

/-- The loop of `readFrom:`, on what the writers `prev` and `matcher` have. -/
def readComponents :
    Nat → ReadStream Char → List Char → List PatternComponent → Option (List PatternComponent)
  | 0, _, _, _ => none
  | fuel + 1, s, prev, matcher =>
    if s.isAtEnd then some (putLiteral matcher prev)
    else do
      let (token, s) ← s.next
      match token with
      | '*' => readComponents fuel s [] (putLiteral matcher prev ++ [.any])
      | '?' => readComponents fuel s [] (putLiteral matcher prev ++ [.anyOne])
      | '[' => do
        let (str, s) ← s.upTo (· == ·) ']'
        let r ← readRange str
        readComponents fuel s [] (putLiteral matcher prev ++ [.range r])
      | token => readComponents fuel s (prev ++ [token]) matcher

/-- `newOn:`, the components it gives the pattern. -/
def newOn (mask : List Char) : Option (List PatternComponent) :=
  readComponents (mask.length + 1) (reader mask) [] []

end Reading

section Matching

/-- The block of `matches:` on a range. Characters have no `key`. -/
def Range.holds (c : Char) : Range → Option Bool
  | .character d => if d = c then some true else none
  | .association key _ => some (decide (key.toNat ≤ c.toNat ∧ c.toNat ≤ c.toNat))

/-- `matches:` of a `PatternRange`, which is `detect:`. -/
def detect (c : Char) : List Range → Option (Option Range)
  | [] => some none
  | range :: ranges => do
    if ← range.holds c then some (some range) else detect c ranges

/-- The values of the condition in `match:from:` of a `PatternRange`. -/
inductive Condition where
  | boolean (b : Bool)
  | detected (range : Option Range)

def Condition.truth : Condition → Option Bool
  | .boolean b => some b
  | .detected _ => none

def PatternRange.condition (r : PatternRange) (str : List Char) (pos : Nat) : Option Condition :=
  if pos ≥ str.length then some (.boolean true)
  else do
    let c ← str[pos]?
    (detect c r.ranges).map .detected

def matchRange (r : PatternRange) (str : List Char) (pos : Nat) : Option Match := do
  let condition ← r.condition str pos
  if ← condition.truth then some .failure else some (.position (pos + 1))

def matchAnyOne (str : List Char) (pos : Nat) : Option Match :=
  some (if pos ≥ str.length then .failure else .position (pos + 1))

def matchLiteral (string str : List Char) (pos : Nat) : Option Match :=
  if pos + string.length > str.length then some .failure
  else do
    let part ← copyFrom str pos (pos + string.length)
    some (if part = string then .position (pos + string.length) else .failure)

def Match.after (rest : Nat → Option Match) : Match → Option Match
  | .failure => some .failure
  | .position pos => rest pos

/-- `match:from:` of a `PatternMatcher`, on what its reader has left. -/
def matchFrom (str : List Char) : List PatternComponent → Nat → Option Match
  | [], pos => some (.position pos)
  | .any :: reader, pos => do
    let reached ← (downTo str.length pos).anyM fun start => do
      let result ← matchFrom str reader start.toNat
      some (result = .position str.length)
    if reached then some (.position str.length) else matchFrom str reader pos
  | .literal string :: reader, pos => do
    (← matchLiteral string str pos).after (matchFrom str reader)
  | .range r :: reader, pos => do (← matchRange r str pos).after (matchFrom str reader)
  | .anyOne :: reader, pos => do (← matchAnyOne str pos).after (matchFrom str reader)

def patternMatches (components : List PatternComponent) (str : List Char) : Option Bool := do
  let result ← matchFrom str components 0
  some (result ≠ .failure ∧ result = .position str.length)

end Matching

def answer (mask str : List Char) : Option Bool := do
  let components ← newOn mask
  patternMatches components str

end SlateVm.Glob

/-! Masks and their languages. -/
namespace SlateVm.Glob

open Language

/-- A part of a mask; a range is what stands between its brackets. -/
inductive Part where
  | literal (c : Char)
  | any
  | anyOne
  | range (inside : List Char)
deriving DecidableEq

/-- What stands in a range: `c-d` is a pair, another character stands for itself. -/
def itemsOf : List Char → List Range
  | [] => []
  | c :: '-' :: d :: rest => .association c d :: itemsOf rest
  | c :: rest => .character c :: itemsOf rest

def Range.Includes (c : Char) : Range → Prop
  | .character d => c = d
  | .association low high => low.toNat ≤ c.toNat ∧ c.toNat ≤ high.toNat

def Inside (c : Char) : List Char → Prop
  | '^' :: inside | '!' :: inside => ¬ ∃ item ∈ itemsOf inside, item.Includes c
  | inside => ∃ item ∈ itemsOf inside, item.Includes c

namespace Part

def WellFormed : Part → Prop
  | .literal c => c ≠ '*' ∧ c ≠ '?' ∧ c ≠ '['
  | .range inside => ']' ∉ inside
  | _ => True

def text : Part → List Char
  | .literal c => [c]
  | .any => ['*']
  | .anyOne => ['?']
  | .range inside => '[' :: inside ++ [']']

def language : Part → Language Char
  | .literal c => {[c]}
  | .any => ⊤
  | .anyOne => letter fun _ => True
  | .range inside => letter (Inside · inside)

def EndsInPair : Part → Prop
  | .range inside => ∃ items key value, itemsOf inside = items ++ [.association key value]
  | _ => True

def IsRange : Part → Prop
  | .range _ => True
  | _ => False

end Part

structure Mask where
  parts : List Part
  wellFormed : ∀ part ∈ parts, part.WellFormed

def languageOf (parts : List Part) : Language Char := (parts.map Part.language).prod

namespace Mask

def text (mask : Mask) : List Char := mask.parts.flatMap Part.text

def language (mask : Mask) : Language Char := languageOf mask.parts

/-- The program finds the answer for a mask and a string: ranges end in a pair, and none comes
to be tried on a character, as no proper beginning of the string is in the language of what
stands before the first range. -/
def Spares (mask : Mask) (str : List Char) : Prop :=
  (∀ part ∈ mask.parts, part.EndsInPair) ∧
    ∀ before inside rest, mask.parts = before ++ .range inside :: rest →
      (∀ part ∈ before, ¬ part.IsRange) →
        ∀ p < str.length, str.take p ∉ languageOf before

end Mask

end SlateVm.Glob

/-! Reading the text of a mask. -/
namespace SlateVm.Glob

open Collections Language

variable {s : ReadStream Char} {before m past prev : List Char} {parts rest : List Part}
  {matcher : List PatternComponent}

instance : Inhabited Range := ⟨.character default⟩

def endsWell : List Range → Bool
  | [] => true
  | [.association _ _] => true
  | [.character _] => false
  | _ :: items => endsWell items

theorem endsWell_cons (item : Range) {items : List Range} (more : items ≠ []) :
    endsWell (item :: items) = endsWell items := by
  cases items with
  | nil => exact absurd rfl more
  | cons next items => cases item <;> rfl

theorem endsWell_iff {items : List Range} (some_ : items ≠ []) :
    endsWell items = true ↔ ∃ first key value, items = first ++ [.association key value] := by
  induction items with
  | nil => exact absurd rfl some_
  | cons item items ih =>
    cases items with
    | nil =>
      constructor
      · intro ends
        cases item with
        | character c => simp [endsWell] at ends
        | association key value => exact ⟨[], key, value, rfl⟩
      · rintro ⟨first, key, value, same⟩
        have last := congrArg List.getLast? same
        rw [List.getLast?_singleton, List.getLast?_append, List.getLast?_singleton] at last
        cases last
        rfl
    | cons next items =>
      have more : next :: items ≠ [] := List.cons_ne_nil _ _
      rw [endsWell_cons item more, ih more]
      constructor
      · rintro ⟨first, key, value, same⟩
        exact ⟨item :: first, key, value, by rw [same, List.cons_append]⟩
      · rintro ⟨first, key, value, same⟩
        cases first with
        | nil => simp at same
        | cons _ first =>
          rw [List.cons_append, List.cons.injEq] at same
          exact ⟨first, key, value, same.2⟩

theorem itemsOf_ne_nil {c : Char} {m : List Char} : itemsOf (c :: m) ≠ [] := by
  rw [itemsOf.eq_def]
  split <;> simp_all

theorem itemsOf_pair (c d : Char) (m : List Char) :
    itemsOf (c :: '-' :: d :: m) = .association c d :: itemsOf m := by rw [itemsOf]

theorem itemsOf_other (c : Char) {d : Char} (other : d ≠ '-') (m : List Char) :
    itemsOf (c :: d :: m) = .character c :: itemsOf (d :: m) := by
  rw [itemsOf]
  intro e rest same
  rw [List.cons.injEq] at same
  exact other same.1

theorem readRanges_items {fuel : Nat} (holds : s.Holds before m []) (enough : m.length < fuel)
    (ranges : List Range) : readRanges fuel s ranges =
      if endsWell (itemsOf m) then some (ranges ++ itemsOf m) else none := by
  induction fuel generalizing s before m ranges with
  | zero => omega
  | succ fuel ih =>
    have peeks {s : ReadStream Char} {before m : List Char} (holds : s.Holds before m []) :
        s.peek = m.head? := by
      rw [ReadStream.peek, holds.getElem, List.append_nil]
    rw [readRanges, holds.isAtEnd]
    match m with
    | [] => simp [itemsOf, endsWell]
    | char :: m =>
      have next := holds.next
      have after := holds.advance (k := 1) (Nat.succ_pos _) rfl
      rw [List.length_cons] at enough
      simp only [List.isEmpty_cons, Bool.false_eq_true, if_false, next, List.head?_cons,
        Option.map_some, Option.bind_eq_bind, Option.bind_some, peeks after, List.drop_one,
        List.tail_cons]
      match m with
      | [] => rfl
      | char2 :: m =>
        rw [List.length_cons] at enough
        simp only [List.head?_cons, Option.bind_some]
        rcases Decidable.em (char2 = '-') with rfl | other
        · have skip := after.next
          have behind := after.advance (k := 1) (Nat.succ_pos _) rfl
          simp only [List.drop_one, List.tail_cons, List.head?_cons, Option.map_some] at skip behind
          simp only [if_true, skip, Option.bind_some, behind.next]
          match m with
          | [] => rfl
          | last :: m =>
            rw [List.length_cons] at enough
            have past := behind.advance (k := 1) (Nat.succ_pos _) rfl
            simp only [List.drop_one, List.tail_cons] at past
            simp only [List.head?_cons, Option.map_some, Option.bind_some]
            rw [ih past (by omega), itemsOf_pair, List.append_assoc]
            cases m with
            | nil => rfl
            | cons c m => rw [endsWell_cons _ itemsOf_ne_nil, List.singleton_append]
        · rw [if_neg other, ih after (by simp only [List.drop_one, List.tail_cons, List.length_cons]; omega)]
          simp only [List.drop_one, List.tail_cons]
          rw [itemsOf_other char other, endsWell_cons _ itemsOf_ne_nil, List.append_assoc,
            List.singleton_append]

theorem reader_holds (str : List Char) : (reader str).Holds [] str [] :=
  ⟨by rw [List.nil_append, List.append_nil]; rfl, rfl, by simp [reader, ReadStream.onFromTo]⟩

theorem readRange_iff (inside : List Char) :
    (readRange inside).isSome ↔ (Part.range inside).EndsInPair := by
  have holds := reader_holds inside
  have peek : (reader inside).peek = inside.head? := by
    rw [ReadStream.peek, holds.getElem, List.append_nil]
  rw [readRange, peek, readRanges_items holds (Nat.lt_succ_self _)]
  cases inside with
  | nil => simp [Part.EndsInPair, itemsOf]
  | cons c inside =>
    rw [Part.EndsInPair, ← endsWell_iff itemsOf_ne_nil]
    cases endsWell (itemsOf (c :: inside)) <;> simp

/-- The components that the parts stand for behind the characters `prev`. -/
def componentsOf : List Part → List Char → Option (List PatternComponent)
  | [], prev => some (putLiteral [] prev)
  | .literal c :: parts, prev => componentsOf parts (prev ++ [c])
  | .any :: parts, prev => (componentsOf parts []).map (putLiteral [] prev ++ .any :: ·)
  | .anyOne :: parts, prev => (componentsOf parts []).map (putLiteral [] prev ++ .anyOne :: ·)
  | .range inside :: parts, prev => do
    let r ← readRange inside
    (componentsOf parts []).map (putLiteral [] prev ++ .range r :: ·)

theorem putLiteral_append (matcher : List PatternComponent) (prev : List Char) :
    putLiteral matcher prev = matcher ++ putLiteral [] prev := by
  unfold putLiteral
  split
  · rw [List.append_nil]
  · rw [List.nil_append]

theorem upTo_bracket {inside m : List Char} (holds : s.Holds before (inside ++ ']' :: m) [])
    (clear : ']' ∉ inside) : ∃ s', s.upTo (· == ·) ']' = some (inside, s') ∧
      s'.Holds (before ++ (inside ++ [']'])) m [] := by
  have found : (inside ++ ']' :: m).findIdx? (fun each => each == ']') = some inside.length := by
    rw [List.findIdx?_append, List.findIdx?_eq_none_iff.mpr, Option.none_or]
    · rw [List.findIdx?_cons, if_pos (beq_self_eq_true _), Option.map_some, Nat.zero_add]
    · intro c mem
      rw [beq_eq_false_iff_ne]
      rintro rfl
      exact clear mem
  have run := @ReadStream.Holds.upTo _ _ _ _ _ (· == ·) _ holds ']'
  rw [List.append_nil, found] at run
  simp only [List.take_left] at run
  refine ⟨_, run, ?_⟩
  · have moved := holds.advance (k := inside.length + 1) (by simp) rfl
    have split : inside ++ ']' :: m = (inside ++ [']']) ++ m := by
      rw [List.append_assoc, List.singleton_append]
    rw [split, List.take_left' (by simp), List.drop_left' (by simp)] at moved
    exact moved

theorem readComponents_parts {fuel : Nat} (wellFormed : ∀ part ∈ parts, part.WellFormed)
    (holds : s.Holds before (parts.flatMap Part.text) [])
    (enough : (parts.flatMap Part.text).length < fuel) : readComponents fuel s prev matcher =
      (componentsOf parts prev).map (matcher ++ ·) := by
  induction parts generalizing fuel s before prev matcher with
  | nil =>
    obtain ⟨fuel, rfl⟩ : ∃ n, fuel = n + 1 := ⟨fuel - 1, by omega⟩
    rw [readComponents, holds.isAtEnd, componentsOf, putLiteral_append]
    rfl
  | cons part parts ih =>
    have others : ∀ part ∈ parts, part.WellFormed := fun other mem =>
      wellFormed other (List.mem_cons_of_mem part mem)
    obtain ⟨fuel, rfl⟩ : ∃ n, fuel = n + 1 := ⟨fuel - 1, by omega⟩
    rw [List.flatMap_cons] at holds enough
    rw [readComponents, holds.isAtEnd]
    have step (c : Char) (more : List Char) (begins : part.text = c :: more) :
        s.next = some (c, { s with position := before.length + 1 }) ∧
          ({ s with position := before.length + 1 } : ReadStream Char).Holds (before ++ [c])
            (more ++ parts.flatMap Part.text) [] := by
      rw [begins, List.cons_append] at holds
      exact ⟨holds.next, holds.advance (k := 1) (Nat.succ_pos _) rfl⟩
    cases part with
    | literal c =>
      obtain ⟨next, after⟩ := step c [] rfl
      obtain ⟨star, mark, bracket⟩ := wellFormed (.literal c) List.mem_cons_self
      simp only [Part.text, List.singleton_append, List.isEmpty_cons, Bool.false_eq_true, if_false,
        next, Option.bind_eq_bind, Option.bind_some]
      simp only [Part.text, List.singleton_append, List.length_cons] at enough
      rw [componentsOf]
      exact ih others after (by omega)
    | any =>
      obtain ⟨next, after⟩ := step '*' [] rfl
      simp only [Part.text, List.singleton_append, List.length_cons] at enough
      simp only [Part.text, List.singleton_append, List.isEmpty_cons, Bool.false_eq_true, if_false,
        next, Option.bind_eq_bind, Option.bind_some, componentsOf, Option.map_map]
      rw [ih others after (by omega), putLiteral_append matcher]
      congr 1
      funext more
      simp
    | anyOne =>
      obtain ⟨next, after⟩ := step '?' [] rfl
      simp only [Part.text, List.singleton_append, List.length_cons] at enough
      simp only [Part.text, List.singleton_append, List.isEmpty_cons, Bool.false_eq_true, if_false,
        next, Option.bind_eq_bind, Option.bind_some, componentsOf, Option.map_map]
      rw [ih others after (by omega), putLiteral_append matcher]
      congr 1
      funext more
      simp
    | range inside =>
      obtain ⟨next, after⟩ := step '[' (inside ++ [']']) rfl
      have clear : ']' ∉ inside := wellFormed (.range inside) List.mem_cons_self
      rw [List.append_assoc, List.singleton_append] at after
      obtain ⟨s', run, holds'⟩ := upTo_bracket after clear
      simp only [Part.text, List.cons_append, List.length_cons, List.length_append] at enough
      simp only [Part.text, List.cons_append, List.isEmpty_cons, Bool.false_eq_true, if_false,
        next, Option.bind_eq_bind, Option.bind_some, componentsOf, run]
      cases readRange inside with
      | none => rfl
      | some r =>
        simp only [Option.bind_some, Option.map_map]
        rw [ih others holds' (by omega), putLiteral_append matcher]
        congr 1
        funext more
        simp

theorem newOn_parts (mask : Mask) : newOn mask.text = componentsOf mask.parts [] := by
  rw [newOn, Mask.text, readComponents_parts mask.wellFormed (reader_holds _) (Nat.lt_succ_self _)]
  simp

end SlateVm.Glob
