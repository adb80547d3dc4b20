import Mathlib.Data.List.TakeWhile
import SlateVm.Number.Printing

/-! Strings, characters and symbols as literals: what is printed, and whether the lexer reads it
back. -/

namespace SlateVm.Literals

open Lexer

section Model

def isPrintable (ch : Char) : Bool := decide (' '.toNat ≤ ch.toNat ∧ ch.toNat ≤ '~'.toNat)

def isUppercase (ch : Char) : Bool := decide ('A'.toNat ≤ ch.toNat ∧ ch.toNat ≤ 'Z'.toNat)

def isLowercase (ch : Char) : Bool := decide ('a'.toNat ≤ ch.toNat ∧ ch.toNat ≤ 'z'.toNat)

def isAlphanumeric (ch : Char) : Bool := isUppercase ch || isLowercase ch || isDigit ch 10

def stringEscapes : List (Char × Char) :=
  [('\x27', '\x27'), ('\t', 't'), ('\n', 'n'), ('\x0b', 'v'), ('\x0c', 'f'), ('\r', 'r'),
    ('\x08', 'b'), ('\x07', 'a'), ('\x1b', 'e'), ('\x00', '0')]

def characterEscapes : List (Char × Char) :=
  [('\x27', '\x27'), ('\x22', '\x22'), ('\t', 't'), ('\n', 'n'), ('\x0b', 'v'), (' ', 's'),
    ('\x0c', 'f'), ('\r', 'r'), ('\x08', 'b'), ('\x07', 'a'), ('\x1b', 'e'), ('\x00', '0')]

def escapedEscapes : List (Char × Char) :=
  [('\x27', '\x27'), ('\t', 't'), ('\n', 'n'), ('\x0b', 'v'), ('\x0c', 'f'), ('\r', 'r'),
    ('\x08', 'b'), ('\x07', 'a'), ('\x1b', 'e'), ('\x00', '0'), (' ', ' ')]

def printCases (table : List (Char × Char)) (unprintable : Nat → Option (List Char)) (c : Char) :
    Option (List Char) :=
  match table.lookup c with
  | some letter => some ['\x5c', letter]
  | none => if isPrintable c then some [c] else unprintable c.toNat

def numericEscape (code : Nat) : Option (List Char) := do
  let high ← Integers.printOn 10 (code / 16 : Nat) { radix := some 16 }
  let low ← Integers.printOn 10 (code % 16 : Nat) { radix := some 16 }
  return '\x5c' :: 'x' :: (high ++ low)

def printCharacter (c : Char) : Option (List Char) :=
  (printCases characterEscapes numericEscape c).map ('$' :: ·)

/-- The loop of `String printOn:`, and the closing quote. -/
def printBody (stringLimit : Option Nat) (index : Nat) : List Char → Option (List Char)
  | [] => some ['\x27']
  | c :: cs =>
    if stringLimit.any (· ≤ index) then some ['.', '.', '.', '\x27']
    else do
      let text ← printCases stringEscapes numericEscape c
      let rest ← printBody stringLimit (index + 1) cs
      return text ++ rest

def printString (stringLimit : Option Nat) (s : List Char) : Option (List Char) :=
  (printBody stringLimit 0 s).map ('\x27' :: ·)

def printSymbol (stringLimit : Option Nat) (name : List Char) : Option (List Char) :=
  if name = [] then some ['#', '\x27', '\x27']
  else if name.all fun c => isAlphanumeric c || [':', '&', '_'].contains c then
    some ('#' :: name)
  else (printString stringLimit name).map ('#' :: ·)

/-- `escaped`. Its stream is no printer: the digits of a code are sent `printOn:` for any object,
which sends itself again without end. -/
def escaped : List Char → Option (List Char)
  | [] => some []
  | c :: cs => do
    let text ← printCases escapedEscapes (fun _ => none) c
    let rest ← escaped cs
    return text ++ rest

/-- `unescaped`: a string literal read from the text between two quotes. -/
def unescaped (s : List Char) : Except String (List Char) :=
  (nextSegmentUntil '\x27' (s ++ ['\x27'])).map Prod.fst

end Model

section Segments

def prepend (d : Char) : Except String (List Char × List Char) →
    Except String (List Char × List Char)
  | .ok (result, left) => .ok (d :: result, left)
  | .error description => .error description

variable {terminator c d : Char} {rest left : List Char}

theorem segment_end : nextSegmentUntil terminator (terminator :: rest) = .ok ([], rest) := by
  rw [nextSegmentUntil, if_pos rfl]

theorem segment_cons (other : c ≠ terminator) (read : characterFor c rest = .ok (d, left)) :
    nextSegmentUntil terminator (c :: rest) = prepend d (nextSegmentUntil terminator left) := by
  rw [nextSegmentUntil, if_neg other]
  split
  · next failed => exact absurd (read.symm.trans failed) (by simp)
  · next d' left' run =>
    cases read.symm.trans run
    cases nextSegmentUntil terminator left <;> rfl

theorem segment_error {description : String} (other : c ≠ terminator)
    (read : characterFor c rest = .error description) :
    nextSegmentUntil terminator (c :: rest) = .error description := by
  rw [nextSegmentUntil, if_neg other]
  split
  · next failed =>
    cases read.symm.trans failed
    rfl
  · next run => exact absurd (read.symm.trans run) (by simp)

theorem characterFor_plain (plain : c ≠ '\x5c') : characterFor c rest = .ok (c, rest) :=
  if_neg (by rw [isEscape, beq_iff_eq]; exact plain)

theorem characterFor_escape : characterFor '\x5c' rest = readEscapedCharacter rest :=
  rfl

theorem segment_escape (read : readEscapedCharacter rest = .ok (d, left)) :
    nextSegmentUntil '\x27' ('\x5c' :: rest) = prepend d (nextSegmentUntil '\x27' left) :=
  segment_cons (by decide) read

theorem segment_escape_error {description : String}
    (read : readEscapedCharacter rest = .error description) :
    nextSegmentUntil '\x27' ('\x5c' :: rest) = .error description :=
  segment_error (by decide) read

theorem segment_plain (quote : c ≠ '\x27') (plain : c ≠ '\x5c') :
    nextSegmentUntil '\x27' (c :: rest) = prepend c (nextSegmentUntil '\x27' rest) :=
  segment_cons quote (characterFor_plain plain)

theorem prepend_eq_ok {r : Except String (List Char × List Char)} {result : List Char} :
    prepend d r = .ok (c :: result, left) ↔ d = c ∧ r = .ok (result, left) := by
  cases r with
  | error description => simp [prepend]
  | ok both => simp [prepend, Prod.ext_iff, and_assoc]

theorem prepend_eq_nil {r : Except String (List Char × List Char)} :
    prepend d r ≠ .ok ([], left) := by
  cases r with
  | error description => exact fun same => nomatch same
  | ok both => exact fun same => nomatch same

end Segments

section Encoding

/-- What `printCases` prints for a character of a string of bytes. -/
def encoding (table : List (Char × Char)) (c : Char) : List Char :=
  match table.lookup c with
  | some letter => ['\x5c', letter]
  | none =>
    if isPrintable c then [c]
    else ['\x5c', 'x', Integers.digitCharacter (c.toNat / 16),
      Integers.digitCharacter (c.toNat % 16)]

theorem printOn_hex {d : Nat} (less : d < 16) :
    Integers.printOn 10 d { radix := some 16 } = some [Integers.digitCharacter d] := by
  have natural : ¬ (d : Int) < 0 := by omega
  have plain := @Integers.printUnsigned_plain 16 (by omega) d (some 16)
  have one : Integers.numeral 16 d = [d] := by
    unfold Integers.numeral
    split
    · next zero => rw [zero]
    · next some => rw [Nat.digits_of_lt 16 d some less, List.reverse_singleton]
  rw [one] at plain
  simpa [Integers.printOn, natural] using plain

theorem printCases_byte (table : List (Char × Char)) {c : Char} (byte : c.toNat < 256) :
    printCases table numericEscape c = some (encoding table c) := by
  unfold printCases encoding
  split
  · rfl
  split
  · rfl
  · simp only [numericEscape, printOn_hex (d := c.toNat / 16) (by omega),
      printOn_hex (d := c.toNat % 16) (by omega)]
    rfl

theorem toDigit_hex {d : Nat} (less : d < 16) :
    toDigit (Integers.digitCharacter d) 16 = some d :=
  Integers.toDigit_digitCharacter less (by omega)

theorem readEscaped_numeric {c : Char} (byte : c.toNat < 256) (rest : List Char) :
    readEscapedCharacter ('x' :: Integers.digitCharacter (c.toNat / 16) ::
      Integers.digitCharacter (c.toNat % 16) :: rest) = .ok (c, rest) := by
  have none : escapes.lookup 'x' = none := rfl
  have code : c.toNat / 16 * 16 + c.toNat % 16 = c.toNat := Nat.div_add_mod' c.toNat 16
  simp only [readEscapedCharacter, nextCharacter, bind, Except.bind, none, readHexDigit,
    toDigit_hex (d := c.toNat / 16) (by omega), toDigit_hex (d := c.toNat % 16) (by omega),
    pure, Except.pure, code, Char.ofNat_toNat, if_true]

theorem mem_of_lookup {table : List (Char × Char)} {c letter : Char}
    (found : table.lookup c = some letter) : (c, letter) ∈ table := by
  induction table with
  | nil => cases found
  | cons entry table ih =>
    rw [List.lookup_cons] at found
    split at found
    · next same =>
      cases found
      rw [beq_iff_eq.mp same]
      exact List.mem_cons_self
    · exact List.mem_cons_of_mem _ (ih found)

def weight (table : List (Char × Char)) (c : Char) : Nat :=
  (encoding table c).length + if c = '\x5c' then 1 else 0

/-- The lexer undoes the cases of the table, the quote is among them, and of the other characters
that are printable at most the space; letters are printable; what an escape with one letter stands
for is not printed with more than two characters. -/
structure Table (table : List (Char × Char)) : Prop where
  undone : ∀ e ∈ table, escapes.lookup e.2 = some e.1 ∨
    escapes.lookup e.2 = none ∧ e.2 ≠ 'x' ∧ e.2 = e.1
  quote : table.lookup '\x27' = some '\x27'
  printable : ∀ e ∈ table, isPrintable e.1 = true → e.1 = '\x27' ∨ e.1 = ' '
  letters : ∀ e ∈ table, isPrintable e.2 = true ∧ e.2 ≠ '\x5c' ∧
    (e.2 = e.1 → e.1 = '\x27' ∨ e.1 = ' ')
  escapes : ∀ e ∈ escapes, weight table e.2 ≤ 2

theorem table_string : Table stringEscapes := by
  constructor <;> decide

theorem table_escaped : Table escapedEscapes := by
  constructor <;> decide

section Tables

variable {table : List (Char × Char)} {c d letter : Char} {cs rest left : List Char}

theorem readEscaped_letter {letter c : Char} (undone : escapes.lookup letter = some c ∨
    escapes.lookup letter = none ∧ letter ≠ 'x' ∧ letter = c) (rest : List Char) :
    readEscapedCharacter (letter :: rest) = .ok (c, rest) := by
  rcases undone with found | ⟨none, other, rfl⟩
  · simp only [readEscapedCharacter, nextCharacter, bind, Except.bind, found]
    rfl
  · simp only [readEscapedCharacter, nextCharacter, bind, Except.bind, none, if_neg other]
    rfl

theorem readEscaped_cases (run : readEscapedCharacter cs = .ok (d, left)) :
    (∃ letter, cs = letter :: left ∧ (escapes.lookup letter = some d ∨
        escapes.lookup letter = none ∧ letter ≠ 'x' ∧ letter = d)) ∨
      ∃ high low digit, cs = 'x' :: high :: low :: left ∧ toDigit low 16 = some digit := by
  cases cs with
  | nil => cases run
  | cons letter cs =>
    simp only [readEscapedCharacter, nextCharacter, bind, Except.bind] at run
    split at run
    · next found =>
      cases run
      exact Or.inl ⟨letter, rfl, Or.inl found⟩
    next none =>
    split at run
    · next same =>
      subst same
      right
      cases cs with
      | nil => cases run
      | cons high cs =>
        simp only [readHexDigit, nextCharacter, bind, Except.bind] at run
        cases first : toDigit high 16 with
        | none =>
          simp only [first] at run
          cases run
        | some one =>
          simp only [first, pure, Except.pure] at run
          cases cs with
          | nil => cases run
          | cons low cs =>
            cases second : toDigit low 16 with
            | none =>
              simp only [second] at run
              cases run
            | some two =>
              simp only [second] at run
              cases run
              exact ⟨high, low, two, rfl, second⟩
    · next other =>
      cases run
      exact Or.inl ⟨d, rfl, Or.inr ⟨none, other, rfl⟩⟩

theorem encoding_cases (table : List (Char × Char)) (c : Char) :
    (∃ letter, table.lookup c = some letter ∧ encoding table c = ['\x5c', letter]) ∨
      (table.lookup c = none ∧ isPrintable c = true ∧ encoding table c = [c]) ∨
      (table.lookup c = none ∧ isPrintable c = false ∧ encoding table c =
        ['\x5c', 'x', Integers.digitCharacter (c.toNat / 16),
          Integers.digitCharacter (c.toNat % 16)]) := by
  unfold encoding
  split
  · next letter found => exact Or.inl ⟨letter, found, rfl⟩
  · next none =>
    by_cases printable : isPrintable c = true
    · exact Or.inr (Or.inl ⟨none, printable, if_pos printable⟩)
    · exact Or.inr (Or.inr ⟨none, Bool.eq_false_iff.mpr printable, if_neg printable⟩)

theorem weight_pos : 0 < weight table c := by
  unfold weight
  rcases encoding_cases table c with ⟨letter, -, same⟩ | ⟨-, -, same⟩ | ⟨-, -, same⟩ <;>
    simp only [same, List.length_cons] <;> omega

theorem Table.backslash (t : Table table) : table.lookup '\x5c' = none := by
  cases found : table.lookup '\x5c' with
  | none => rfl
  | some letter =>
    have visible : isPrintable '\x5c' = true := rfl
    rcases t.printable _ (mem_of_lookup found) visible with same | same <;> cases same

theorem Table.weight_backslash (t : Table table) : weight table '\x5c' = 2 := by
  have plain : encoding table '\x5c' = ['\x5c'] := by
    unfold encoding
    rw [t.backslash]
    rfl
  rw [weight, plain]
  rfl

theorem weight_other (other : c ≠ '\x5c') : weight table c = (encoding table c).length := by
  rw [weight, if_neg other, Nat.add_zero]

theorem Table.weight_le (t : Table table) (c : Char) : weight table c ≤ 4 := by
  by_cases backslash : c = '\x5c'
  · rw [backslash, t.weight_backslash]
    omega
  · rw [weight_other backslash]
    rcases encoding_cases table c with ⟨letter, -, same⟩ | ⟨-, -, same⟩ | ⟨-, -, same⟩ <;>
      simp [same]

theorem Table.weight_printable (t : Table table) (printable : isPrintable c = true) :
    weight table c ≤ 2 := by
  by_cases backslash : c = '\x5c'
  · rw [backslash, t.weight_backslash]
  · rw [weight_other backslash]
    rcases encoding_cases table c with ⟨letter, -, same⟩ | ⟨-, -, same⟩ | ⟨-, not, -⟩
    · simp [same]
    · simp [same]
    · rw [printable] at not
      cases not

theorem Table.lookup_plain (t : Table table) (printable : isPrintable c = true)
    (quote : c ≠ '\x27') (space : c ≠ ' ') : table.lookup c = none := by
  cases found : table.lookup c with
  | none => rfl
  | some letter =>
    rcases t.printable _ (mem_of_lookup found) printable with same | same
    · exact absurd same quote
    · exact absurd same space

theorem Table.weight_plain (t : Table table) (printable : isPrintable c = true)
    (quote : c ≠ '\x27') (backslash : c ≠ '\x5c') (space : c = ' ' → table.lookup ' ' = none) :
    weight table c = 1 := by
  have none : table.lookup c = none := by
    by_cases here : c = ' '
    · rw [here]
      exact space here
    · exact t.lookup_plain printable quote here
  rw [weight_other backslash]
  rcases encoding_cases table c with ⟨letter, found, -⟩ | ⟨-, -, same⟩ | ⟨-, not, -⟩
  · rw [none] at found
    cases found
  · rw [same]
    rfl
  · rw [printable] at not
    cases not

theorem Table.segment_encoded (t : Table table) (byte : c.toNat < 256) (plain : c ≠ '\x5c')
    (rest : List Char) :
    nextSegmentUntil '\x27' (encoding table c ++ rest) =
      prepend c (nextSegmentUntil '\x27' rest) := by
  rcases encoding_cases table c with ⟨letter, found, same⟩ | ⟨none, -, same⟩ | ⟨-, -, same⟩
  · rw [same]
    exact segment_cons (by decide) (readEscaped_letter (t.undone _ (mem_of_lookup found)) rest)
  · rw [same]
    refine segment_cons ?_ (characterFor_plain plain)
    rintro rfl
    rw [t.quote] at none
    cases none
  · rw [same]
    exact segment_cons (by decide) (readEscaped_numeric byte rest)

theorem Table.segment_iff (t : Table table) {s result : List Char}
    (bytes : ∀ c ∈ s, c.toNat < 256) (plain : '\x5c' ∉ s) (rest : List Char) :
    nextSegmentUntil '\x27' (s.flatMap (encoding table) ++ rest) = .ok (s ++ result, left) ↔
      nextSegmentUntil '\x27' rest = .ok (result, left) := by
  induction s with
  | nil => exact Iff.rfl
  | cons c s ih =>
    have other := List.ne_of_not_mem_cons plain
    rw [List.flatMap_cons, List.append_assoc,
      t.segment_encoded (bytes c List.mem_cons_self) other.symm, List.cons_append,
      prepend_eq_ok, ih (fun c member => bytes c (List.mem_cons_of_mem _ member))
        (List.not_mem_of_not_mem_cons plain)]
    exact and_iff_right rfl

def Spaced : Char → List Char → Prop
  | _, [] => True
  | previous, c :: cs => (c = ' ' → previous = '\x5c') ∧ Spaced c cs

def pairs : List Char → Nat
  | [] => 0
  | c :: cs => (if c = '\x5c' ∧ cs.head? = some ' ' then 1 else 0) + pairs cs

def slack (table : List (Char × Char)) (previous : Char) (result : List Char) : Nat :=
  if table.lookup ' ' = none then 0
  else (if previous = '\x5c' ∧ result.head? = some ' ' then 1 else 0) + pairs result

def total (table : List (Char × Char)) (s : List Char) : Nat := (s.map (weight table)).sum

theorem slack_cons {letter d previous : Char} {result : List Char}
    (link : letter = '\x5c' → d = '\x5c') :
    slack table letter result ≤ slack table previous (d :: result) := by
  unfold slack
  split
  · exact Nat.le_refl 0
  · rw [pairs]
    by_cases here : letter = '\x5c' ∧ result.head? = some ' '
    · have counted : (if d = '\x5c' ∧ result.head? = some ' ' then 1 else 0) = 1 :=
        if_pos ⟨link here.1, here.2⟩
      rw [if_pos here, counted]
      omega
    · rw [if_neg here]
      omega

theorem slack_space {previous : Char} (escapes : table.lookup ' ' ≠ none)
    (behind : previous = '\x5c') (result : List Char) :
    slack table ' ' result + 1 ≤ slack table previous (' ' :: result) := by
  unfold slack
  rw [if_neg escapes, if_neg escapes, if_neg fun both => absurd both.1 (by decide),
    if_pos ⟨behind, rfl⟩, pairs, if_neg fun both => absurd both.1 (by decide)]
  omega

theorem toDigit_backslash : toDigit '\x5c' 16 = none := rfl

theorem Table.read_bound (t : Table table) {text result : List Char} {previous : Char}
    (printable : ∀ c ∈ text, isPrintable c = true)
    (spaced : table.lookup ' ' ≠ none → Spaced previous text)
    (run : nextSegmentUntil '\x27' text = .ok (result, left)) :
    total table result + 1 + left.length ≤ text.length + slack table previous result := by
  induction size : text.length using Nat.strong_induction_on generalizing text result previous with
  | _ n ih =>
  cases text with
  | nil =>
    rw [nextSegmentUntil] at run
    cases run
  | cons c rest =>
    by_cases quote : c = '\x27'
    · subst quote
      rw [segment_end] at run
      cases run
      rw [← size, List.length_cons]
      simp only [total, List.map_nil, List.sum_nil]
      omega
    cases read : characterFor c rest with
    | error description =>
      rw [segment_error quote read] at run
      cases run
    | ok both =>
      obtain ⟨d, behind⟩ := both
      rw [segment_cons quote read] at run
      cases result with
      | nil => exact absurd run prepend_eq_nil
      | cons d' result =>
        obtain ⟨rfl, after⟩ := prepend_eq_ok.mp run
        have fewer : behind.length < n := size ▸ characterFor_shorter read
        rw [← size]
        by_cases escape : c = '\x5c'
        · subst escape
          rw [characterFor_escape] at read
          rcases readEscaped_cases read with ⟨letter, rfl, stands⟩ | ⟨high, low, digit, rfl, hex⟩
          · have light : weight table d ≤ 2 := by
              rcases stands with found | ⟨-, -, rfl⟩
              · exact t.escapes _ (mem_of_lookup found)
              · exact t.weight_printable (printable letter
                  (List.mem_cons_of_mem _ List.mem_cons_self))
            have later := @ih _ fewer behind result letter
              (fun c member => printable c
                (List.mem_cons_of_mem _ (List.mem_cons_of_mem _ member)))
              (fun escapes => (spaced escapes).2.2) after rfl
            have more := @slack_cons table letter d previous result fun same => by
              rcases stands with found | ⟨-, -, rfl⟩
              · rw [same] at found
                cases found
              · exact same
            simp only [total, List.map_cons, List.sum_cons, List.length_cons] at later ⊢
            omega
          · have later := @ih _ fewer behind result low
              (fun c member => printable c
                (List.mem_cons_of_mem _ (List.mem_cons_of_mem _ (List.mem_cons_of_mem _
                  (List.mem_cons_of_mem _ member)))))
              (fun escapes => (spaced escapes).2.2.2.2) after rfl
            have heavy := t.weight_le d
            have more := @slack_cons table low d previous result fun same => by
              rw [same, toDigit_backslash] at hex
              cases hex
            simp only [total, List.map_cons, List.sum_cons, List.length_cons] at later ⊢
            omega
        · rw [characterFor_plain escape] at read
          cases read
          have later := @ih _ fewer rest result c
            (fun c member => printable c (List.mem_cons_of_mem _ member))
            (fun escapes => (spaced escapes).2) after rfl
          have visible := printable c List.mem_cons_self
          have more := @slack_cons table c c previous result fun same => same
          simp only [total, List.map_cons, List.sum_cons, List.length_cons] at later ⊢
          by_cases space : c = ' ' ∧ table.lookup ' ' ≠ none
          · obtain ⟨rfl, escapes⟩ := space
            have heavy := t.weight_printable visible
            have gains := slack_space escapes ((spaced escapes).1 rfl) result
            omega
          · have light := t.weight_plain visible quote escape fun here =>
              not_not.mp fun escapes => space ⟨here, escapes⟩
            omega

theorem total_eq (s : List Char) :
    total table s = (s.flatMap (encoding table)).length + s.count '\x5c' := by
  induction s with
  | nil => rfl
  | cons c s ih =>
    simp only [total, List.map_cons, List.sum_cons, List.flatMap_cons, List.length_append,
      List.count_cons, beq_iff_eq] at ih ⊢
    rw [ih, weight]
    omega

theorem total_append (s result : List Char) :
    total table (s ++ result) = total table s + total table result := by
  rw [total, List.map_append, List.sum_append]
  rfl

theorem total_pos {s : List Char} (some_ : s ≠ []) : 0 < total table s := by
  cases s with
  | nil => exact absurd rfl some_
  | cons c s =>
    have pos := @weight_pos table c
    simp only [total, List.map_cons, List.sum_cons]
    omega

theorem Table.printable_encoding (t : Table table) (byte : c.toNat < 256) :
    ∀ d ∈ encoding table c, isPrintable d = true := by
  have hex : ∀ d < 16, isPrintable (Integers.digitCharacter d) = true := by decide
  intro d member
  rcases encoding_cases table c with ⟨letter, found, same⟩ | ⟨-, printable, same⟩ | ⟨-, -, same⟩
  · simp only [same, List.mem_cons, List.not_mem_nil, or_false] at member
    rcases member with rfl | rfl
    · rfl
    · exact (t.letters _ (mem_of_lookup found)).1
  · rw [same, List.mem_singleton] at member
    exact member ▸ printable
  · simp only [same, List.mem_cons, List.not_mem_nil, or_false] at member
    rcases member with rfl | rfl | rfl | rfl
    · rfl
    · rfl
    · exact hex _ (by omega)
    · exact hex _ (by omega)

theorem Table.printable_text (t : Table table) {s tail : List Char}
    (bytes : ∀ c ∈ s, c.toNat < 256) (printable : ∀ d ∈ tail, isPrintable d = true) :
    ∀ d ∈ s.flatMap (encoding table) ++ tail, isPrintable d = true := by
  intro d member
  rcases List.mem_append.mp member with inside | behind
  · obtain ⟨c, among, here⟩ := List.mem_flatMap.mp inside
    exact t.printable_encoding (bytes c among) d here
  · exact printable d behind

end Tables

end Encoding

section Strings

variable {s q r left : List Char}

def dots : List Char := ['.', '.', '.']

theorem printable_quote : ∀ d ∈ ['\x27'], isPrintable d = true :=
  List.all_eq_true.mp rfl

theorem printable_dots : ∀ d ∈ dots ++ ['\x27'], isPrintable d = true :=
  List.all_eq_true.mp rfl

theorem bytes_of_all (all : s.all (fun c => decide (c.toNat < 256)) = true) :
    ∀ c ∈ s, c.toNat < 256 :=
  fun c member => of_decide_eq_true (List.all_eq_true.mp all c member)

theorem string_bound {text result : List Char} (printable : ∀ c ∈ text, isPrintable c = true)
    (run : nextSegmentUntil '\x27' text = .ok (result, left)) :
    total stringEscapes result + 1 + left.length ≤ text.length :=
  @Table.read_bound stringEscapes left table_string text result 'x' printable
    (fun escapes => absurd rfl escapes) run

theorem string_plain (bytes : ∀ c ∈ s, c.toNat < 256)
    (run : nextSegmentUntil '\x27' (s.flatMap (encoding stringEscapes) ++ ['\x27']) =
      .ok (s, left)) : '\x5c' ∉ s := by
  have bound := string_bound (table_string.printable_text bytes printable_quote) run
  rw [total_eq, List.length_append, List.length_singleton] at bound
  exact List.count_eq_zero.mp (by omega)

theorem segment_dots :
    nextSegmentUntil '\x27' (dots ++ ['\x27']) = .ok (dots, []) := by
  have read := (@Table.segment_iff stringEscapes [] table_string dots [] (bytes_of_all rfl) (by decide)
    ['\x27']).mpr segment_end
  exact read

theorem desync (bytes : ∀ c ∈ q, c.toNat < 256) (some_ : r ≠ []) :
    nextSegmentUntil '\x27'
        ('\x5c' :: (q.flatMap (encoding stringEscapes) ++ (dots ++ ['\x27']))) ≠
      .ok ('\x5c' :: (q ++ r), left) := by
  intro run
  have t := table_string
  have pos := @total_pos stringEscapes r some_
  cases q with
  | nil =>
    have read : readEscapedCharacter (dots ++ ['\x27']) = .ok ('.', ['.', '.', '\x27']) :=
      readEscaped_letter (Or.inr ⟨rfl, by decide, rfl⟩) _
    exact absurd (prepend_eq_ok.mp ((segment_escape read).symm.trans run)).1 (by decide)
  | cons c q =>
    have byte := bytes c List.mem_cons_self
    have others : ∀ d ∈ q, d.toNat < 256 := fun d member => bytes d (List.mem_cons_of_mem c member)
    have visible := @Table.printable_text stringEscapes t q (dots ++ ['\x27']) others printable_dots
    rw [List.flatMap_cons] at run
    have double : ∀ rest, readEscapedCharacter ('\x5c' :: rest) = .ok ('\x5c', rest) :=
      readEscaped_letter (Or.inr ⟨rfl, by decide, rfl⟩)
    rcases encoding_cases stringEscapes c with
      ⟨letter, found, same⟩ | ⟨none, printable, same⟩ | ⟨-, hidden, same⟩
    · -- the letter of an escape, read for itself
      rw [same] at run
      have after := (prepend_eq_ok.mp ((segment_escape (double _)).symm.trans run)).2
      obtain ⟨-, other, itself⟩ := t.letters _ (mem_of_lookup found)
      by_cases quote : letter = '\x27'
      · subst quote
        cases segment_end.symm.trans after
      · have reads := (segment_plain quote other).symm.trans after
        rcases itself (prepend_eq_ok.mp reads).1 with here | here
        · exact quote ((prepend_eq_ok.mp reads).1.trans here)
        · rw [show c = ' ' from here] at found
          cases found
    · rw [same] at run
      by_cases backslash : c = '\x5c'
      · -- two backslashes, read as one
        subst backslash
        have after := (prepend_eq_ok.mp ((segment_escape (double _)).symm.trans run)).2
        have bound := string_bound visible after
        have heavy := t.weight_backslash
        rw [List.cons_append, total, List.map_cons, List.sum_cons, heavy] at bound
        change 2 + total stringEscapes (q ++ r) + 1 + left.length ≤ _ at bound
        rw [total_append, total_eq q, List.length_append] at bound
        have size : (dots ++ ['\x27']).length = 4 := rfl
        have plain : '\x5c' ∉ q := List.count_eq_zero.mp (by omega)
        have whole := (t.segment_iff others plain (dots ++ ['\x27'])).mpr segment_dots
        have same : '\x5c' :: (q ++ r) = q ++ dots :=
          congrArg Prod.fst (Except.ok.inj (after.symm.trans whole))
        have member : '\x5c' ∈ q ++ dots := by
          rw [← same]
          exact List.mem_cons_self
        rcases List.mem_append.mp member with inside | behind
        · exact plain inside
        · exact absurd behind (by decide)
      · cases read : readEscapedCharacter
            (c :: (q.flatMap (encoding stringEscapes) ++ (dots ++ ['\x27']))) with
        | error description =>
          exact nomatch (segment_escape_error read).symm.trans run
        | ok both =>
          obtain ⟨d, behind⟩ := both
          obtain ⟨rfl, after⟩ := prepend_eq_ok.mp ((segment_escape read).symm.trans run)
          rcases readEscaped_cases read with ⟨letter, split, stands⟩ | ⟨high, low, _, split, -⟩
          · obtain ⟨rfl, -⟩ := List.cons.inj split
            rcases stands with found | ⟨-, -, here⟩
            · have never : ∀ e ∈ escapes, e.2 ≠ '\x5c' := by decide
              exact never _ (mem_of_lookup found) rfl
            · exact backslash here
          · -- the backslash was read from its code
            obtain ⟨-, split⟩ := List.cons.inj split
            rw [split] at visible
            have bound := string_bound (fun d member => visible d
              (List.mem_cons_of_mem _ (List.mem_cons_of_mem _ member))) after
            have size := congrArg List.length split
            have heavy := @weight_pos stringEscapes c
            rw [List.cons_append, total, List.map_cons, List.sum_cons] at bound
            change weight stringEscapes c + total stringEscapes (q ++ r) + 1 + left.length ≤ _
              at bound
            rw [total_append, total_eq q] at bound
            simp only [List.length_append, List.length_cons, dots, List.length_nil] at size
            omega
    · -- a numeric escape without its backslash
      rw [same] at run
      have after := (prepend_eq_ok.mp ((segment_escape (double _)).symm.trans run)).2
      have reads := (@segment_plain 'x' _ (by decide) (by decide)).symm.trans after
      rw [← (prepend_eq_ok.mp reads).1] at hidden
      cases hidden

theorem long_read_iff (bytes : ∀ c ∈ s, c.toNat < 256) (some_ : r ≠ []) :
    nextSegmentUntil '\x27'
        (s.flatMap (encoding stringEscapes) ++ (dots ++ ['\x27'])) = .ok (s ++ r, []) ↔
      '\x5c' ∉ s ∧ r = dots := by
  constructor
  · intro run
    by_cases member : '\x5c' ∈ s
    · obtain ⟨p, q, rfl, first⟩ := List.eq_append_cons_of_mem member
      have front : ∀ c ∈ p, c.toNat < 256 := fun c here => bytes c (List.mem_append_left _ here)
      have behind : ∀ c ∈ q, c.toNat < 256 := fun c here =>
        bytes c (List.mem_append_right _ (List.mem_cons_of_mem _ here))
      rw [List.flatMap_append, List.append_assoc, List.append_assoc,
        table_string.segment_iff front first] at run
      exact absurd run (desync behind some_)
    · rw [table_string.segment_iff bytes member] at run
      have same : dots = r := congrArg Prod.fst (Except.ok.inj (segment_dots.symm.trans run))
      exact ⟨member, same.symm⟩
  · rintro ⟨plain, rfl⟩
    exact (table_string.segment_iff bytes plain _).mpr segment_dots

def shown (stringLimit : Option Nat) (index : Nat) (s : List Char) : List Char :=
  match stringLimit with
  | some limit => s.take (limit - index)
  | none => s

def hidden (stringLimit : Option Nat) (index : Nat) (s : List Char) : List Char :=
  match stringLimit with
  | some limit => s.drop (limit - index)
  | none => []

theorem shown_hidden (stringLimit : Option Nat) (index : Nat) (s : List Char) :
    shown stringLimit index s ++ hidden stringLimit index s = s := by
  cases stringLimit with
  | none => exact List.append_nil s
  | some limit => exact List.take_append_drop _ s

theorem printBody_eq (stringLimit : Option Nat) (index : Nat) (bytes : ∀ c ∈ s, c.toNat < 256) :
    printBody stringLimit index s =
      some ((shown stringLimit index s).flatMap (encoding stringEscapes) ++
        ((if hidden stringLimit index s = [] then [] else dots) ++ ['\x27'])) := by
  induction s generalizing index with
  | nil => cases stringLimit <;> simp [printBody, shown, hidden]
  | cons c s ih =>
    have later := ih (index + 1) fun c member => bytes c (List.mem_cons_of_mem _ member)
    have one := printCases_byte stringEscapes (bytes c List.mem_cons_self)
    rw [printBody]
    cases stringLimit with
    | none =>
      simp only [Option.any_none, Bool.false_eq_true, if_false, one, later, shown, hidden,
        List.flatMap_cons, List.append_assoc]
      rfl
    | some limit =>
      rcases Nat.lt_or_ge index limit with inside | over_
      · have next : limit - index = limit - (index + 1) + 1 := by omega
        have within : (some limit).any (· ≤ index) = false := decide_eq_false (by omega)
        simp only [within, Bool.false_eq_true, if_false, one, later, shown, hidden, next,
          List.take_succ_cons, List.drop_succ_cons, List.flatMap_cons, List.append_assoc]
        rfl
      · have past : limit - index = 0 := by omega
        have beyond : (some limit).any (· ≤ index) = true := decide_eq_true over_
        rw [if_pos beyond]
        simp only [shown, hidden, past, List.take_zero, List.drop_zero, reduceCtorEq, if_false]
        rfl

def Readable (stringLimit : Option Nat) (s : List Char) : Prop :=
  '\x5c' ∉ shown stringLimit 0 s ∧
    (hidden stringLimit 0 s = [] ∨ hidden stringLimit 0 s = dots)

theorem body_read_iff (stringLimit : Option Nat) (bytes : ∀ c ∈ s, c.toNat < 256) :
    (∃ body, printBody stringLimit 0 s = some body ∧
      nextSegmentUntil '\x27' body = .ok (s, [])) ↔ Readable stringLimit s := by
  have whole := shown_hidden stringLimit 0 s
  have front : ∀ c ∈ shown stringLimit 0 s, c.toNat < 256 := fun c member =>
    bytes c (whole ▸ List.mem_append_left _ member)
  simp only [printBody_eq stringLimit 0 bytes, Option.some.injEq, exists_eq_left', Readable]
  by_cases all : hidden stringLimit 0 s = []
  · rw [all, List.append_nil] at whole
    rw [all, if_pos rfl, List.nil_append, whole]
    constructor
    · intro run
      exact ⟨string_plain bytes run, Or.inl rfl⟩
    · rintro ⟨plain, -⟩
      have read := (table_string.segment_iff bytes plain ['\x27']).mpr segment_end
      rw [List.append_nil] at read
      exact read
  · rw [if_neg all, or_iff_right all]
    have long := long_read_iff front all
    rw [whole] at long
    exact long

end Strings

section Escaped

variable {s : List Char}

def Escapable (c : Char) : Prop := isPrintable c = true ∨ escapedEscapes.lookup c ≠ none

def Followed : List Char → Prop
  | [] => True
  | c :: cs => (c = '\x5c' → cs.head? = some ' ') ∧ Followed cs

theorem printCases_escaped (c : Char) :
    (Escapable c → printCases escapedEscapes (fun _ => none) c =
        some (encoding escapedEscapes c)) ∧
      (¬ Escapable c → printCases escapedEscapes (fun _ => none) c = none) := by
  unfold printCases
  rcases encoding_cases escapedEscapes c with
    ⟨letter, found, same⟩ | ⟨none, printable, same⟩ | ⟨none, hidden, same⟩
  · rw [found, same]
    exact ⟨fun _ => rfl, fun not => absurd (Or.inr (found ▸ Option.some_ne_none letter)) not⟩
  · rw [none, same]
    exact ⟨fun _ => if_pos printable, fun not => absurd (Or.inl printable) not⟩
  · rw [none]
    refine ⟨?_, fun _ => if_neg (Bool.eq_false_iff.mp hidden)⟩
    rintro (printable | found)
    · rw [hidden] at printable
      cases printable
    · exact absurd none found

theorem escaped_eq (s : List Char) :
    ((∀ c ∈ s, Escapable c) → escaped s = some (s.flatMap (encoding escapedEscapes))) ∧
      (¬ (∀ c ∈ s, Escapable c) → escaped s = none) := by
  induction s with
  | nil => exact ⟨fun _ => rfl, fun not => absurd (fun _ none => absurd none List.not_mem_nil) not⟩
  | cons c s ih =>
    obtain ⟨prints, fails⟩ := printCases_escaped c
    constructor
    · intro all
      have one := prints (all c List.mem_cons_self)
      have rest := ih.1 fun d member => all d (List.mem_cons_of_mem _ member)
      simp only [escaped, one, rest, List.flatMap_cons]
      rfl
    · intro not
      by_cases first : Escapable c
      · have rest := ih.2 fun all => not fun d member =>
          (List.mem_cons.mp member).elim (fun same => same ▸ first) (all d)
        simp only [escaped, prints first, rest]
        rfl
      · simp only [escaped, fails first]
        rfl

theorem spaced_encoding {c : Char} (byte : c.toNat < 256) {rest : List Char}
    (spaced : ∀ previous, Spaced previous rest) (previous : Char) :
    Spaced previous (encoding escapedEscapes c ++ rest) := by
  have hex : ∀ d < 16, Integers.digitCharacter d ≠ ' ' := by decide
  rcases encoding_cases escapedEscapes c with
    ⟨letter, -, same⟩ | ⟨none, -, same⟩ | ⟨-, -, same⟩
  · rw [same]
    exact ⟨fun space => absurd space (by decide), fun _ => rfl, spaced _⟩
  · rw [same]
    refine ⟨?_, spaced _⟩
    rintro rfl
    cases none
  · rw [same]
    exact ⟨fun space => absurd space (by decide), fun space => absurd space (by decide),
      fun space => absurd space (hex _ (by omega)), fun space => absurd space (hex _ (by omega)),
      spaced _⟩

theorem spaced_text (bytes : ∀ c ∈ s, c.toNat < 256) (previous : Char) :
    Spaced previous (s.flatMap (encoding escapedEscapes) ++ ['\x27']) := by
  induction s generalizing previous with
  | nil => exact ⟨fun space => absurd space (by decide), trivial⟩
  | cons c s ih =>
    rw [List.flatMap_cons, List.append_assoc]
    exact spaced_encoding (bytes c List.mem_cons_self)
      (ih fun d member => bytes d (List.mem_cons_of_mem _ member)) previous

theorem pairs_le (s : List Char) : pairs s ≤ s.count '\x5c' := by
  induction s with
  | nil => exact Nat.le_refl 0
  | cons c s ih =>
    simp only [pairs, List.count_cons, beq_iff_eq]
    by_cases here : c = '\x5c'
    · rw [if_pos here]
      split <;> omega
    · rw [if_neg here, if_neg fun both => here both.1]
      omega

theorem followed_iff (s : List Char) : s.count '\x5c' ≤ pairs s ↔ Followed s := by
  induction s with
  | nil => exact iff_of_true (Nat.le_refl 0) trivial
  | cons c s ih =>
    have most := pairs_le s
    rw [Followed, ← ih]
    simp only [pairs, List.count_cons, beq_iff_eq]
    by_cases here : c = '\x5c'
    · rw [if_pos here]
      by_cases space : s.head? = some ' '
      · rw [if_pos ⟨here, space⟩]
        constructor
        · intro few
          exact ⟨fun _ => space, by omega⟩
        · rintro ⟨-, few⟩
          omega
      · rw [if_neg fun both => space both.2]
        refine iff_of_false (by omega) fun both => space (both.1 here)
    · rw [if_neg here, if_neg fun both => here both.1]
      constructor
      · intro few
        exact ⟨fun same => absurd same here, by omega⟩
      · rintro ⟨-, few⟩
        omega

theorem followed_read (bytes : ∀ c ∈ s, c.toNat < 256) (followed : Followed s) :
    nextSegmentUntil '\x27' (s.flatMap (encoding escapedEscapes) ++ ['\x27']) = .ok (s, []) := by
  induction s with
  | nil => exact segment_end
  | cons c s ih =>
    have later := ih (fun d member => bytes d (List.mem_cons_of_mem _ member)) followed.2
    by_cases here : c = '\x5c'
    · subst here
      have space := followed.1 rfl
      cases s with
      | nil => cases space
      | cons d s =>
        cases space
        have double : ∀ rest, readEscapedCharacter ('\x5c' :: rest) = .ok ('\x5c', rest) :=
          readEscaped_letter (Or.inr ⟨rfl, by decide, rfl⟩)
        have blank : ∀ rest, readEscapedCharacter (' ' :: rest) = .ok (' ', rest) :=
          readEscaped_letter (Or.inr ⟨rfl, by decide, rfl⟩)
        have rest := (prepend_eq_ok.mp ((segment_escape (blank _)).symm.trans later)).2
        have raw := (@segment_plain ' ' _ (by decide) (by decide)).trans
          (prepend_eq_ok.mpr ⟨rfl, rest⟩)
        exact (segment_escape (double _)).trans (prepend_eq_ok.mpr ⟨rfl, raw⟩)
    · rw [List.flatMap_cons, List.append_assoc,
        table_escaped.segment_encoded (bytes c List.mem_cons_self) here, later]
      rfl

theorem unescaped_iff (bytes : ∀ c ∈ s, c.toNat < 256) :
    (∃ text, escaped s = some text ∧ unescaped text = .ok s) ↔
      (∀ c ∈ s, Escapable c) ∧ Followed s := by
  obtain ⟨answers, fails⟩ := escaped_eq s
  constructor
  · rintro ⟨text, printed, read⟩
    by_cases all : ∀ c ∈ s, Escapable c
    · cases (answers all).symm.trans printed
      refine ⟨all, (followed_iff s).mp ?_⟩
      unfold unescaped at read
      cases run : nextSegmentUntil '\x27'
          (s.flatMap (encoding escapedEscapes) ++ ['\x27']) with
      | error description =>
        rw [run] at read
        cases read
      | ok both =>
        obtain ⟨result, left⟩ := both
        rw [run] at read
        have same : result = s := Except.ok.inj read
        rw [same] at run
        have printable := table_escaped.printable_text bytes printable_quote
        have bound := table_escaped.read_bound printable
          (fun _ => spaced_text bytes 'x') run
        have loose : slack escapedEscapes 'x' s = pairs s := by
          rw [slack, if_neg (by decide), if_neg fun both => absurd both.1 (by decide),
            Nat.zero_add]
        rw [total_eq, List.length_append, List.length_singleton, loose] at bound
        omega
    · cases (fails all).symm.trans printed
  · rintro ⟨all, followed⟩
    refine ⟨_, answers all, ?_⟩
    rw [unescaped, followed_read bytes followed]
    rfl

end Escaped

/-- A character of an `ASCIIString`, and such a string. -/
abbrev ASCIICharacter : Type := { c : Char // c.toNat < 256 }

abbrev ASCIIString : Type := { s : List Char // ∀ c ∈ s, c.toNat < 256 }

inductive Subject where
  | string (s : ASCIIString)
  | character (c : ASCIICharacter)
  | symbol (name : ASCIIString)
  | escaped (s : ASCIIString)

section Subjects

variable {R : Type} (f : Floats R) (stringLimit : Option Nat)

def Subject.ReadsBack : Subject → Prop
  | .string s => ∃ text, printString stringLimit s.1 = some text ∧
      readToken f text = .ok (.literal (.string s.1), [])
  | .character c => ∃ text, printCharacter c.1 = some text ∧
      readToken f text = .ok (.literal (.character c.1), [])
  | .symbol name => ∃ text, printSymbol stringLimit name.1 = some text ∧
      readToken f text = .ok (.literal (.symbol name.1), [])
  | .escaped s => ∃ text, Literals.escaped s.1 = some text ∧ unescaped text = .ok s.1

def Unquoted (name : List Char) : Prop :=
  ∀ c ∈ name, (isAlphanumeric c || [':', '&', '_'].contains c) = true

def Subject.Meets : Subject → Prop
  | .string s => Readable stringLimit s.1
  | .character c => c.1 ≠ '\x5c'
  | .symbol name => Unquoted name.1 ∨ Readable stringLimit name.1
  | .escaped s => (∀ c ∈ s.1, Escapable c) ∧ Followed s.1

variable {f stringLimit} {s : List Char}

theorem readString_iff (body : List Char) (s : List Char) :
    (readString body : Except String (Token R × List Char)) = .ok (.literal (.string s), []) ↔
      nextSegmentUntil '\x27' body = .ok (s, []) := by
  simp only [readString, bind, Except.bind]
  cases nextSegmentUntil '\x27' body with
  | error description => simp
  | ok both => simp [pure, Except.pure, Prod.ext_iff]

theorem string_readsBack_iff (bytes : ∀ c ∈ s, c.toNat < 256) :
    (∃ text, printString stringLimit s = some text ∧
      readToken f text = .ok (.literal (.string s), [])) ↔ Readable stringLimit s := by
  have token : ∀ body, readToken f ('\x27' :: body) = readString body := by
    intro body
    rw [readToken, skipWhitespace_visible rfl]
    rfl
  rw [← body_read_iff stringLimit bytes, printString]
  simp only [Option.map_eq_some_iff, exists_exists_and_eq_and, token, readString_iff]

theorem symbol_quoted_iff (bytes : ∀ c ∈ s, c.toNat < 256) :
    (∃ text, (printString stringLimit s).map ('#' :: ·) = some text ∧
      readToken f text = .ok (.literal (.symbol s), [])) ↔ Readable stringLimit s := by
  have token : ∀ body, readToken f ('#' :: '\x27' :: body) =
      .ok (.literal (.symbol s), []) ↔ nextSegmentUntil '\x27' body = .ok (s, []) := by
    intro body
    rw [readToken, skipWhitespace_visible rfl]
    change readLiteralPastHash ('\x27' :: body) = _ ↔ _
    simp only [readLiteralPastHash, bind, Except.bind]
    cases nextSegmentUntil '\x27' body with
    | error description => simp
    | ok both => simp [pure, Except.pure, Prod.ext_iff]
  rw [← body_read_iff stringLimit bytes, printString]
  simp only [Option.map_eq_some_iff, exists_exists_and_eq_and, token]

theorem readToken_hash (rest : List Char) :
    readToken f ('#' :: rest) = readLiteralPastHash rest := by
  rw [readToken, skipWhitespace_visible rfl]
  rfl

theorem unquoted_read (unquoted : Unquoted s) (some_ : s ≠ []) :
    readToken f ('#' :: s) = .ok (.literal (.symbol s), []) := by
  have never : ∀ c ∈ [' ', '\t', '\n', '\x0b', '\x0c', '\r', '\x00'] ++ wordTerminatingTokens,
      (!(isAlphanumeric c || [':', '&', '_'].contains c)) = true :=
    List.all_eq_true.mp rfl
  have inWord : ∀ c ∈ s, (!isWhitespace c && !wordTerminatingTokens.contains c) = true := by
    intro c member
    have visible := unquoted c member
    rw [Bool.and_eq_true, Bool.not_eq_true', Bool.not_eq_true']
    constructor
    · rw [isWhitespace, List.contains_eq_mem, decide_eq_false_iff_not]
      intro here
      have no := never c (List.mem_append_left _ here)
      rw [visible] at no
      cases no
    · rw [List.contains_eq_mem, decide_eq_false_iff_not]
      intro here
      have no := never c (List.mem_append_right _ here)
      rw [visible] at no
      cases no
  have word : nextWordCharacters s = (s, []) := by
    rw [nextWordCharacters, List.span_eq_takeWhile_dropWhile,
      List.takeWhile_eq_self_iff.mpr inWord, List.dropWhile_eq_nil_iff.mpr inWord]
  cases s with
  | nil => exact absurd rfl some_
  | cons c s =>
    have visible := unquoted c List.mem_cons_self
    rw [readToken_hash]
    unfold readLiteralPastHash
    split
    · next same => rw [(List.cons.inj same).1] at visible; cases visible
    · next same => rw [(List.cons.inj same).1] at visible; cases visible
    · next same => rw [(List.cons.inj same).1] at visible; cases visible
    · next same => rw [(List.cons.inj same).1] at visible; cases visible
    · next same => rw [(List.cons.inj same).1] at visible; cases visible
    · rw [word]

theorem symbol_readsBack_iff (bytes : ∀ c ∈ s, c.toNat < 256) :
    (∃ text, printSymbol stringLimit s = some text ∧
      readToken f text = .ok (.literal (.symbol s), [])) ↔
        Unquoted s ∨ Readable stringLimit s := by
  have quoted := @symbol_quoted_iff R f stringLimit s bytes
  by_cases empty : s = []
  · subst empty
    have read : readToken f ['#', '\x27', '\x27'] = .ok (.literal (.symbol []), []) := by
      rw [readToken_hash]
      simp only [readLiteralPastHash, segment_end]
      rfl
    refine iff_of_true ⟨_, if_pos rfl, read⟩ (Or.inl fun c none => absurd none List.not_mem_nil)
  · rw [printSymbol, if_neg empty]
    by_cases unquoted : s.all fun c => isAlphanumeric c || [':', '&', '_'].contains c
    · have word : Unquoted s := List.all_eq_true.mp unquoted
      rw [if_pos unquoted]
      exact iff_of_true ⟨_, rfl, unquoted_read word empty⟩ (Or.inl word)
    · rw [if_neg unquoted, quoted]
      have other : ¬ Unquoted s := fun word => unquoted (List.all_eq_true.mpr word)
      exact (or_iff_right other).symm

theorem character_readsBack_iff {c : Char} (byte : c.toNat < 256) :
    (∃ text, printCharacter c = some text ∧
      readToken f text = .ok (.literal (.character c), [])) ↔ c ≠ '\x5c' := by
  have token : ∀ rest, readToken f ('$' :: rest) = readCharacter rest := by
    intro rest
    rw [readToken, skipWhitespace_visible rfl]
    rfl
  have undone : ∀ e ∈ characterEscapes, escapes.lookup e.2 = some e.1 ∨
      escapes.lookup e.2 = none ∧ e.2 ≠ 'x' ∧ e.2 = e.1 := by
    decide
  have printed : printCharacter c = some ('$' :: encoding characterEscapes c) := by
    rw [printCharacter, printCases_byte characterEscapes byte, Option.map_some]
  simp only [printed, Option.some.injEq, exists_eq_left', token]
  have escape : ∀ rest : List Char, (readEscapedCharacter rest = .ok (c, [])) →
      (readCharacter ('\x5c' :: rest) : Except String (Token R × List Char)) =
        .ok (.literal (.character c), []) := by
    intro rest read
    simp only [readCharacter, nextCharacter, bind, Except.bind, characterFor_escape, read]
    rfl
  by_cases backslash : c = '\x5c'
  · subst backslash
    exact iff_of_false (by intro same; cases same) fun not => not rfl
  · refine iff_of_true ?_ backslash
    rcases encoding_cases characterEscapes c with
      ⟨letter, found, same⟩ | ⟨-, -, same⟩ | ⟨-, -, same⟩
    · rw [same]
      exact escape _ (readEscaped_letter (undone _ (mem_of_lookup found)) [])
    · rw [same]
      simp only [readCharacter, nextCharacter, bind, Except.bind, characterFor_plain backslash]
      rfl
    · rw [same]
      exact escape _ (readEscaped_numeric byte [])

/-- Each literal reads back exactly where its condition holds. -/
theorem literal_reads_back_iff {R : Type} (f : Floats R) (stringLimit : Option Nat)
    (subject : Subject) : subject.ReadsBack f stringLimit ↔ subject.Meets stringLimit := by
  cases subject with
  | string s => exact string_readsBack_iff s.2
  | character c => exact character_readsBack_iff c.2
  | symbol name => exact symbol_readsBack_iff name.2
  | escaped s => exact unescaped_iff s.2

end Subjects

/-- The backslash as a character, and in a string before an n. -/
theorem backslash_lost :
    (¬ ∃ (R : Type) (f : Floats R),
      (Subject.character ⟨'\x5c', by decide⟩).ReadsBack f (some 200)) ∧
    (¬ ∃ (R : Type) (f : Floats R),
      (Subject.string ⟨['\x5c', 'n'], bytes_of_all rfl⟩).ReadsBack f (some 200)) ∧
    ¬ ∃ (R : Type) (f : Floats R),
      (Subject.escaped ⟨['\x5c', 'n'], bytes_of_all rfl⟩).ReadsBack f (some 200) := by
  constructor
  · rintro ⟨R, f, text, printed, read⟩
    cases printed
    cases read
  constructor
  · rintro ⟨R, f, reads⟩
    have readable := (string_readsBack_iff (bytes_of_all rfl)).mp reads
    exact readable.1 List.mem_cons_self
  · rintro ⟨R, f, reads⟩
    have followed := ((unescaped_iff (bytes_of_all rfl)).mp reads).2
    exact absurd (followed.1 rfl) (by decide)

end SlateVm.Literals
