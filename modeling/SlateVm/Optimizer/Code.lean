import SlateVm.Frames.Code

/-! The code vectors of the optimizer: what an opcode takes, where it jumps, and the two
operations that splice a vector and repair its relative jumps. -/
namespace SlateVm.Optimizer
open Frames (Value)

inductive Opcode where
  | send
  | loadLiteral
  | sendMessageWithOpts
  | newClosure
  | newArrayWith
  | resendMessage
  | returnFrom
  | loadEnvironment
  | loadVariable
  | storeVariable
  | loadFreeVariable
  | storeFreeVariable
  | isIdenticalTo
  | branchKeyed
  | jumpTo
  | moveRegister
  | branchIfTrue
  | branchIfFalse
  | returnRegister
  | returnValue
  | resume
  | primitiveDo
  | applyTo
  | isNil
  | inlinePrimitiveCheck
  | inlineMethodCheck
  | sendWithOptionalsInline
  | internalSend
  deriving DecidableEq

def Opcode.word : Opcode → Value
  | .send => .smallint 0
  | .loadLiteral => .smallint 3
  | .sendMessageWithOpts => .smallint 5
  | .newClosure => .smallint 7
  | .newArrayWith => .smallint 8
  | .resendMessage => .smallint 9
  | .returnFrom => .smallint 10
  | .loadEnvironment => .smallint 11
  | .loadVariable => .smallint 12
  | .storeVariable => .smallint 13
  | .loadFreeVariable => .smallint 14
  | .storeFreeVariable => .smallint 15
  | .isIdenticalTo => .smallint 16
  | .branchKeyed => .smallint 17
  | .jumpTo => .smallint 18
  | .moveRegister => .smallint 19
  | .branchIfTrue => .smallint 20
  | .branchIfFalse => .smallint 21
  | .returnRegister => .smallint 22
  | .returnValue => .smallint 23
  | .resume => .smallint 24
  | .primitiveDo => .smallint 25
  | .applyTo => .smallint 26
  | .isNil => .smallint 27
  | .inlinePrimitiveCheck => .smallint 28
  | .inlineMethodCheck => .smallint 29
  | .sendWithOptionalsInline => .smallint 30
  | .internalSend => .smallint 100

def Opcode.all : List Opcode := [.send, .loadLiteral, .sendMessageWithOpts, .newClosure,
  .newArrayWith, .resendMessage, .returnFrom, .loadEnvironment, .loadVariable, .storeVariable,
  .loadFreeVariable, .storeFreeVariable, .isIdenticalTo, .branchKeyed, .jumpTo, .moveRegister,
  .branchIfTrue, .branchIfFalse, .returnRegister, .returnValue, .resume, .primitiveDo, .applyTo,
  .isNil, .inlinePrimitiveCheck, .inlineMethodCheck, .sendWithOptionalsInline, .internalSend]

def opcodeOf (rawop : Value) : Option Opcode := Opcode.all.find? (·.word == rawop)

abbrev Code := List Value

def numberAt (code : Code) (i : Nat) : Option Int := code[i]?.bind Value.number

def opcodeArgLength (code : Code) (start : Nat) : Option Int :=
  code[start]?.bind fun op =>
  match opcodeOf op with
  | some .send | some .internalSend => numberAt code (start + 1 + 2)
  | some .sendMessageWithOpts => numberAt code (start + 1 + 2)
  | some .sendWithOptionalsInline => do
    return (← numberAt code (start + 1 + 2)) + (← numberAt code (start + 1 + 3))
  | some .newArrayWith => numberAt code (start + 1 + 1)
  | some .primitiveDo => numberAt code (start + 1 + 1)
  | some .applyTo => numberAt code (start + 1 + 1)
  | some .inlinePrimitiveCheck => numberAt code (start + 1 + 3)
  | some .inlineMethodCheck => numberAt code (start + 1 + 1)
  | _ => some 0

def opcodeBaseLength (rawop : Value) : Nat :=
  match opcodeOf rawop with
  | some .send | some .internalSend => 3
  | some .loadLiteral => 2
  | some .sendMessageWithOpts => 4
  | some .sendWithOptionalsInline => 4
  | some .newClosure => 2
  | some .newArrayWith => 2
  | some .resendMessage => 2
  | some .returnFrom => 2
  | some .loadEnvironment => 1
  | some .loadVariable => 1
  | some .storeVariable => 1
  | some .loadFreeVariable => 3
  | some .storeFreeVariable => 3
  | some .isIdenticalTo => 3
  | some .branchKeyed => 2
  | some .jumpTo => 1
  | some .moveRegister => 2
  | some .branchIfTrue => 2
  | some .branchIfFalse => 2
  | some .returnRegister => 1
  | some .returnValue => 1
  | some .resume => 0
  | some .primitiveDo => 3
  | some .applyTo => 3
  | some .isNil => 2
  | some .inlinePrimitiveCheck => 5
  | some .inlineMethodCheck => 3
  | none => 0

def opcodeLength (code : Code) (start : Nat) : Option Int := do
  return 1 + opcodeBaseLength (← code[start]?) + (← opcodeArgLength code start)

def opcodeJumpOffset (rawop : Value) : Nat :=
  match opcodeOf rawop with
  | some .jumpTo => 1
  | some .branchIfFalse | some .branchIfTrue => 2
  | some .inlinePrimitiveCheck => 5
  | some .inlineMethodCheck => 3
  | _ => 0

def opcodeJumpAdjustment (rawop : Value) : Int :=
  match opcodeOf rawop with
  | some .jumpTo | some .branchIfFalse | some .branchIfTrue => -1
  | some .inlinePrimitiveCheck | some .inlineMethodCheck => 0
  | _ => -1

def opcodeCanJump (rawop : Value) : Bool :=
  match opcodeOf rawop with
  | some .jumpTo | some .branchIfFalse | some .branchIfTrue => true
  | some .inlinePrimitiveCheck | some .inlineMethodCheck => true
  | _ => false

def offsetValue (code : Code) (pos : Nat) (offset : Int) : Option Code :=
  (numberAt code pos).map fun n => code.set pos (.smallint (n + offset))

section Loops

/-- `for (size_t i = start; i < stop; i += opcode_length(code, i))` with the code as its body
leaves it. A step below zero wraps around and ends the loop. -/
def forOps (stop : Code → Nat) (body : Code → Nat → Option Code) : Nat → Code → Nat → Option Code
  | 0, _, _ => none
  | fuel + 1, code, i =>
    if i < stop code then do
      let code ← body code i
      let next := i + (← opcodeLength code i)
      if 0 ≤ next then forOps stop body fuel code next.toNat else some code
    else some code

/-- One round of the four loops: a jump is offset if it aims where `jumps` tells. -/
def offsetJump (jumps : Int → Bool) (amount : Int) (code : Code) (i : Nat) : Option Code := do
  let op ← code[i]?
  if opcodeCanJump op then
    let codeJumpParameter := opcodeJumpOffset op
    let jumpOffset := (← numberAt code (i + codeJumpParameter)) + opcodeJumpAdjustment op
    if jumps (i + (← opcodeLength code i) + jumpOffset) then
      offsetValue code (i + codeJumpParameter) amount
    else some code
  else some code

def isPast (offset : Nat) (aim : Int) : Bool := aim < 0 || offset < aim

def isBefore (offset : Nat) (aim : Int) : Bool := 0 ≤ aim && aim < offset

def insertCode (code : Code) (offset : Nat) (newCode : Code) : Option Code :=
  if offset ≤ code.length then do
    let code ← forOps (fun _ => offset) (offsetJump (isPast offset) newCode.length)
      (code.length + 1) code 0
    let code ← forOps List.length (offsetJump (isBefore offset) (-newCode.length))
      (code.length + 1) code offset
    return code.take offset ++ newCode ++ code.drop offset
  else none

def deleteCode (code : Code) (offset : Nat) (amount : Int) : Option Code :=
  if offset < code.length ∧ 0 < amount then do
    let code ← forOps (fun _ => offset) (offsetJump (isPast offset) (-amount))
      (code.length + 1) code 0
    let code ← forOps List.length (offsetJump (fun aim => !isPast offset aim) amount)
      (code.length + 1) code offset
    if offset + amount ≤ code.length then
      return code.take offset ++ code.drop (offset + amount.toNat)
    else none
  else none

end Loops

def jumpTarget (code : Code) (i : Nat) : Option Int := do
  let op ← code[i]?
  if opcodeCanJump op then
    return i + (← opcodeLength code i) + ((← numberAt code (i + opcodeJumpOffset op)) +
      opcodeJumpAdjustment op)
  else none

end SlateVm.Optimizer
