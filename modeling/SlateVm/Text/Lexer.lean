import Mathlib.Data.List.Basic
import Mathlib.Tactic.Common

/-! The lexer of the syntax (src/syntax/lexer.slate). The input is what is left of the characters,
those put back included; an error is its description without the line number. -/

namespace SlateVm

section Characters

def isDigit (ch : Char) (radix : Nat) : Bool :=
  let value := ch.toNat
  if '0'.toNat ≤ value ∧ value ≤ '9'.toNat then decide (value - '0'.toNat < radix)
  else if 'A'.toNat ≤ value ∧ value ≤ 'Z'.toNat then decide (value - 'A'.toNat < radix - 10)
  else if 'a'.toNat ≤ value ∧ value ≤ 'z'.toNat then decide (value - 'a'.toNat < radix - 10)
  else false

def toDigit (ch : Char) (radix : Nat) : Option Nat :=
  let value := ch.toNat
  if isDigit ch radix then
    if 'a'.toNat ≤ value then some (value - 'a'.toNat + 10)
    else if 'A'.toNat ≤ value then some (value - 'A'.toNat + 10)
    else if '0'.toNat ≤ value then some (value - '0'.toNat)
    else none
  else none

def isWhitespace (ch : Char) : Bool :=
  [' ', '\t', '\n', '\x0b', '\x0c', '\r', '\x00'].contains ch

end Characters

namespace Lexer

structure Floats (R : Type) where
  ofInteger : Int → R
  add : R → R → R
  mul : R → R → R
  div : R → R → R
  raisedTo : R → Int → R
  negated : R → R

inductive Number (R : Type) where
  | integer (n : Int)
  | float (x : R)
deriving DecidableEq, Repr

inductive Literal (R : Type) where
  | number (n : Number R)
  | string (s : List Char)
  | symbol (name : List Char)
  | character (c : Char)
deriving DecidableEq, Repr

inductive Token (R : Type) where
  | literal (value : Literal R)
  | comment (value : List Char)
  | selector (value : List Char)
  | macroSelector (value : List Char)
  | deferredSelector (value : List Char)
  | quoteMacro (value selector flags : List Char)
  | beginParenthesis | endParenthesis | beginArray | endArray | beginBlock | endBlock
  | beginPattern | beginLiteralArray | beginLiteralBlock | beginLiteralParenthesis
  | atSign | endStatement | comma | beginVariables | type | quote | eventually
  | endLine | endStream
deriving DecidableEq, Repr

abbrev Reads (α : Type) := List Char → Except String (α × List Char)

def nextCharacter : Reads Char
  | [] => .error "Unexpected end of stream"
  | c :: rest => .ok (c, rest)

section Numbers

variable {R : Type} (f : Floats R)

def Number.negated : Number R → Number R
  | .integer n => .integer (-n)
  | .float x => .float (f.negated x)

def Number.asFloat : Number R → R
  | .integer n => f.ofInteger n
  | .float x => x

def readInteger (radix : Nat) (number : Nat) : List Char → Nat × List Char
  | [] => (number, [])
  | c :: rest =>
    if isDigit c radix || c == '_' then
      readInteger radix (((toDigit c radix).map (number * radix + ·)).getD number) rest
    else (number, c :: rest)

def mantissaDigits (radix : Nat) (number place : Nat) : List Char → (Nat × Nat) × List Char
  | [] => ((number, place), [])
  | c :: rest =>
    if isDigit c radix || c == '_' then
      match toDigit c radix with
      | some digit => mantissaDigits radix (number * radix + digit) (place * radix) rest
      | none => mantissaDigits radix number place rest
    else ((number, place), c :: rest)

def readMantissa (radix : Nat) (cs : List Char) : R × List Char :=
  let ((number, place), rest) := mantissaDigits radix 0 1 cs
  (f.div (f.ofInteger number) (f.ofInteger place), rest)

def readExponent (radix : Nat) : Reads Int := fun cs => do
  let (c, rest) ← nextCharacter cs
  if c = '-' then
    let (exponent, rest) := readInteger radix 0 rest
    return (-exponent, rest)
  else
    let (exponent, rest) := readInteger radix 0 (if c = '+' then rest else c :: rest)
    return (exponent, rest)

def numberToken (isNegative : Bool) (number : Number R) : Token R :=
  .literal (.number (if isNegative then number.negated f else number))

/-- `readNumber` from the test for an exponent, at the character `c`. -/
def readScaled (isNegative : Bool) (radix : Nat) (number : Number R) (c : Char) :
    Reads (Token R) := fun rest =>
  if c = 'e' ∨ c = 'E' then do
    let (exponent, rest) ← readExponent 10 rest
    let scale := f.raisedTo (f.ofInteger radix) exponent
    return (numberToken f isNegative (.float (f.mul (number.asFloat f) scale)), rest)
  else .ok (numberToken f isNegative number, c :: rest)

/-- `readNumber` from the test for a decimal point, at the character `c`. -/
def readFraction (isNegative : Bool) (radix : Nat) (number : Nat) (c : Char) :
    Reads (Token R) := fun rest =>
  if c = '.' ∧ (rest.head?.any fun next => isDigit next radix) then
    let (mantissa, rest) := readMantissa f radix rest
    let number := Number.float (f.add (f.ofInteger number) mantissa)
    match rest with
    | [] => .ok (numberToken f isNegative number, [])
    | c :: rest => readScaled f isNegative radix number c rest
  else readScaled f isNegative radix (.integer number) c rest

def readNumber : Reads (Token R) := fun cs => do
  let (c, rest) ← nextCharacter cs
  let isNegative := decide (c = '-')
  let (number, cs) := readInteger 10 0 (if c = '-' ∨ c = '+' then rest else c :: rest)
  match cs with
  | [] => return (numberToken f isNegative (.integer number), [])
  | c :: rest =>
    if c = 'r' ∨ c = 'R' then
      if 2 ≤ number ∧ number ≤ 36 then
        let radix := number
        let (number, cs) := readInteger radix 0 rest
        match cs with
        | [] => return (numberToken f isNegative (.integer number), [])
        | c :: rest => readFraction f isNegative radix number c rest
      else .error "Number radix must be between 2 and 36."
    else readFraction f isNegative 10 number c rest

end Numbers

section Texts

def escapes : List (Char × Char) :=
  [('n', '\n'), ('t', '\t'), ('r', '\r'), ('b', '\x08'), ('s', ' '), ('a', '\x07'),
    ('v', '\x0b'), ('f', '\x0c'), ('e', '\x1b'), ('0', '\x00')]

def readHexDigit : Reads Nat := fun cs => do
  let (c, rest) ← nextCharacter cs
  match toDigit c 16 with
  | some digit => return (digit, rest)
  | none => .error "Unexpected numeric-escape Character syntax. Expected $\\xNN"

def readEscapedCharacter : Reads Char := fun cs => do
  let (c, rest) ← nextCharacter cs
  match escapes.lookup c with
  | some d => return (d, rest)
  | none =>
    if c = 'x' then
      let (high, rest) ← readHexDigit rest
      let (low, rest) ← readHexDigit rest
      return (Char.ofNat (high * 16 + low), rest)
    else return (c, rest)

def isEscape (c : Char) : Bool := c == '\x5c'

def characterFor (c : Char) : Reads Char := fun rest =>
  if isEscape c then readEscapedCharacter rest else .ok (c, rest)

theorem readHexDigit_shorter {cs rest : List Char} {digit : Nat}
    (run : readHexDigit cs = .ok (digit, rest)) : cs.length = rest.length + 1 := by
  cases cs with
  | nil => cases run
  | cons c cs =>
    simp only [readHexDigit, nextCharacter, bind, Except.bind] at run
    split at run
    · cases run
      rfl
    · cases run

theorem readEscapedCharacter_shorter {cs rest : List Char} {c : Char}
    (run : readEscapedCharacter cs = .ok (c, rest)) : rest.length < cs.length := by
  cases cs with
  | nil => cases run
  | cons d cs =>
    simp only [readEscapedCharacter, nextCharacter, bind, Except.bind] at run
    split at run
    · cases run
      exact Nat.lt_succ_self _
    split at run
    · split at run
      · cases run
      next first =>
      split at run
      · cases run
      next second =>
      cases run
      have one := readHexDigit_shorter first
      have two := readHexDigit_shorter second
      rw [List.length_cons]
      omega
    · cases run
      exact Nat.lt_succ_self _

theorem characterFor_shorter {c d : Char} {cs rest : List Char}
    (run : characterFor c cs = .ok (d, rest)) : rest.length < (c :: cs).length := by
  unfold characterFor at run
  split at run
  · exact Nat.lt_succ_of_lt (readEscapedCharacter_shorter run)
  · cases run
    exact Nat.lt_succ_self _

def nextSegmentUntil (terminator : Char) (cs : List Char) :
    Except String (List Char × List Char) :=
  match cs with
  | [] => .error "Unexpected end of stream"
  | c :: rest =>
    if c = terminator then .ok ([], rest)
    else
      match _run : characterFor c rest with
      | .error description => .error description
      | .ok (d, left) =>
        match nextSegmentUntil terminator left with
        | .error description => .error description
        | .ok (result, left) => .ok (d :: result, left)
termination_by cs.length
decreasing_by exact characterFor_shorter _run

def wordTerminatingTokens : List Char :=
  ['(', ')', '[', ']', '\x7b', '\x7d', '@', ',', '.', '|', '!', '#', '$', '\x60', '\x22', '\x27',
    '%']

def quoteMacroChars : List (Char × Char) :=
  [('\x27', '\x27'), ('\x22', '\x22'), ('\x7b', '\x7d'), ('(', ')'), ('[', ']')]

def nextWordCharacters (cs : List Char) : List Char × List Char :=
  cs.span fun c => !isWhitespace c && !wordTerminatingTokens.contains c

/-- `read:` of a `Selector`, which is Nil for an empty one. -/
def readSelector (cs : List Char) : Option (List Char) × List Char :=
  if cs.head?.any fun c => isDigit c 10 then (none, cs)
  else
    let (word, rest) := nextWordCharacters cs
    (if word = [] then none else some word, rest)

variable {R : Type}

def readString : Reads (Token R) := fun cs => do
  let (value, rest) ← nextSegmentUntil '\x27' cs
  return (.literal (.string value), rest)

def readComment : Reads (Token R) := fun cs => do
  let (value, rest) ← nextSegmentUntil '\x22' cs
  return (.comment value, rest)

def readCharacter : Reads (Token R) := fun cs => do
  let (c, rest) ← nextCharacter cs
  let (d, rest) ← characterFor c rest
  return (.literal (.character d), rest)

def readLiteralPastHash : Reads (Token R) := fun cs =>
  match cs with
  | '(' :: rest => .ok (.beginPattern, rest)
  | '\x7b' :: rest => .ok (.beginLiteralArray, rest)
  | '[' :: rest => .ok (.beginLiteralBlock, rest)
  | '\x27' :: rest => do
    let (name, rest) ← nextSegmentUntil '\x27' rest
    return (.literal (.symbol name), rest)
  | '#' :: rest => do
    let (c, rest) ← nextCharacter rest
    if c = '(' then return (.beginLiteralParenthesis, rest)
    else .error "Expected ( after ##"
  | cs =>
    let (name, rest) := nextWordCharacters cs
    .ok (.literal (.symbol name), rest)

def nextQuoteMacroNamed (selector : List Char) : Reads (Token R) := fun cs => do
  let (c, rest) ← nextCharacter cs
  let terminator := (quoteMacroChars.lookup c).getD '\n'
  let (value, rest) ← nextSegmentUntil terminator rest
  let (flags, rest) := nextWordCharacters rest
  return (.quoteMacro value selector flags, rest)

def readSelectorToken : Reads (Token R) := fun cs =>
  match readSelector cs with
  | (none, _) => .error "Message selector must not be empty."
  | (some sel, rest) =>
    if rest.head?.any fun c => (quoteMacroChars.lookup c).isSome then
      nextQuoteMacroNamed sel rest
    else .ok (.selector sel, rest)

def skipWhitespace : List Char → List Char
  | c :: next :: rest =>
    if isWhitespace c && c != '\n' then skipWhitespace (next :: rest) else c :: next :: rest
  | cs => cs

theorem skipWhitespace_visible {c : Char} (visible : isWhitespace c = false) (rest : List Char) :
    skipWhitespace (c :: rest) = c :: rest := by
  cases rest with
  | nil => rfl
  | cons next rest =>
    rw [skipWhitespace, visible, Bool.false_and]
    rfl

def singles : List (Char × Token R) :=
  [('(', .beginParenthesis), (')', .endParenthesis), ('\x7b', .beginArray), ('\x7d', .endArray),
    ('[', .beginBlock), (']', .endBlock), ('@', .atSign), ('.', .endStatement), (',', .comma),
    ('|', .beginVariables), ('!', .type), ('\n', .endLine)]

/-- The case of `readToken` for other characters than those that it lists. -/
def readOther (f : Floats R) (c : Char) : Reads (Token R) := fun rest => do
  if isDigit c 10 then readNumber f (c :: rest)
  else if c = '+' ∨ c = '-' then
    let (next, _) ← nextCharacter rest
    if isDigit next 10 then readNumber f (c :: rest) else readSelectorToken (c :: rest)
  else readSelectorToken (c :: rest)

def readToken (f : Floats R) : Reads (Token R) := fun cs =>
  match skipWhitespace cs with
  | [] => .ok (.endStream, [])
  | '\x27' :: rest => readString rest
  | '\x22' :: rest => readComment rest
  | '$' :: rest => readCharacter rest
  | '#' :: rest => readLiteralPastHash rest
  | '\x60' :: rest =>
    match readSelector rest with
    | (some sel, rest) => .ok (.macroSelector sel, rest)
    | (none, rest) => .ok (.quote, rest)
  | '%' :: rest =>
    match readSelector rest with
    | (some sel, rest) => .ok (.deferredSelector sel, rest)
    | (none, rest) => .ok (.eventually, rest)
  | c :: rest =>
    match singles.lookup c with
    | some token => .ok (token, rest)
    | none => readOther f c rest

end Texts

end Lexer

end SlateVm
