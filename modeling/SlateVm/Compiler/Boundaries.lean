import SlateVm.Compiler.OpeningInlined
import SlateVm.Frames.Code

/-! The methods of the compiler as objects of the virtual machine. -/
namespace SlateVm.Compiler

structure Placement where
  instruction : Instruction → Nat
  symbol : String → Nat
  character : Char → Nat
  object : Nat → Nat
  method : MethodId → Nat
  table : List (Option Literal) → Nat
  emptyArray : Nat
  namespace_ : Nat → Nat

namespace Placement

variable (p : Placement)

def literal : Literal → Frames.Value
  | .nil => .nil
  | .boolean b => .boolean b
  | .integer n => .smallint n
  | .symbol s => .object (p.symbol s)
  | .character c => .object (p.character c)
  | .object o => .object (p.object o)

def operand : Operand → Frames.Value
  | .register n => .smallint n
  | .nil => .nil
  | .true => .true
  | .emptyArray => .object p.emptyArray

def element : Element → Frames.Value
  | .instruction i => .object (p.instruction i)
  | .number n => .smallint n
  | .operand o => p.operand o
  | .literal value => p.literal value
  | .keyword s => .object (p.symbol s)
  | .method m => .object (p.method m)
  | .table entries => .object (p.table entries)

def compiledMethod (m : CompiledMethod) : Frames.CompiledMethod where
  selector := .nil
  inputVariables := m.inputVariables
  localVariables := m.localVariables.length
  restVariable := m.restVariable
  optionalKeywords := m.optionalKeywords.map fun s => .object (p.symbol s)
  heapAllocate := m.heapAllocate
  environment := .object (p.namespace_ m.environment)
  code := m.code.map p.element
  registerCount := m.registerCount

theorem decode_opens {code : List Element} (opens : Opens code) :
    Frames.decode (code.map p.element) = none := by
  obtain ⟨i, first⟩ := opens
  cases code with
  | nil => cases first
  | cons e rest =>
    rw [List.head?_cons, Option.some.injEq] at first
    subst first
    rfl

end Placement

end SlateVm.Compiler

/-! Where instructions begin and which of their operands are registers, for the interpreter, the
optimizer and the disassembler. -/
namespace SlateVm.Compiler
open Frames (Value Instr decode operands)

section Tables

def internalSend : Nat := 100

/-- `opcode_base_length` of the number of an opcode. Another word is reported and has no
operands. -/
def opcodeBaseLength : Option Nat → Nat
  | some 0 | some 100 | some 14 | some 15 | some 16 | some 25 | some 26 | some 29 => 3
  | some 3 | some 7 | some 8 | some 9 | some 10 | some 17 | some 19 | some 20 | some 21
  | some 27 => 2
  | some 5 | some 30 => 4
  | some 11 | some 12 | some 13 | some 18 | some 22 | some 23 => 1
  | some 28 => 5
  | _ => 0

/-- `object_to_smallint(code[i])` -/
def operandAt (code : List Value) (i : Nat) : Option Nat := code[i]?.bind Value.index

def opcodeArgLength (code : List Value) (start : Nat) : Option Nat := do
  let i := start + 1
  match (← code[start]?).index with
  | some 0 | some 100 | some 5 => operandAt code (i + 2)
  | some 30 => return (← operandAt code (i + 2)) + (← operandAt code (i + 3))
  | some 8 | some 25 | some 26 | some 29 => operandAt code (i + 1)
  | some 28 => operandAt code (i + 3)
  | _ => return 0

def opcodeLength (code : List Value) (start : Nat) : Option Nat := do
  return 1 + opcodeBaseLength (← code[start]?).index + (← opcodeArgLength code start)

/-- `opcode_register_locations`, a bit for each of the operands. -/
def opcodeRegisterLocations : Option Nat → Nat
  | some 5 => 1 + 8
  | some 15 => 4
  | some 16 => 1 + 2 + 4
  | some 17 | some 19 | some 27 => 1 + 2
  | some 25 | some 26 => 1 + 4
  | some 0 | some 100 | some 3 | some 30 | some 7 | some 8 | some 9 | some 10 | some 11 | some 12
  | some 13 | some 14 | some 20 | some 21 | some 22 | some 28 => 1
  | _ => 0

def optimizerRegisters (code : List Value) (start : Nat) : Option (List Nat) := do
  let op := (← code[start]?).index
  return ((List.range 6).filter fun bit => (opcodeRegisterLocations op).testBit bit).map
    (start + 1 + ·) ++
    List.range' (start + 1 + opcodeBaseLength op) (← opcodeArgLength code start)

/-- `printInstructionAt:on:` finds the next start from the table, or signals. -/
def disassembledLength (code : List Value) (start : Nat) : Option Nat := do
  let instr ← byCode (← (← code[start]?).index)
  instr.offsettingArgIndices.foldlM (fun sum offset => do
    return sum + (← operandAt code (start + 1 + offset))) (1 + instr.argNames.length)

def interpretedLength (code : List Value) (start : Nat) : Option Nat :=
  (decode (code.drop start)).map fun (_, length) => length

def registerPlaces (start : Nat) : Instr → List Nat
  | .send _ _ args => (start + 1) :: List.range' (start + 4) args.length
  | .sendMessageWithOpts _ _ _ args =>
    [start + 1, start + 4] ++ List.range' (start + 5) args.length
  | .sendWithOptionalsInline _ _ args opts =>
    (start + 1) :: List.range' (start + 5) (args.length + opts.length)
  | .newArrayWith _ elements => (start + 1) :: List.range' (start + 3) elements.length
  | .newClosure .. | .loadLiteral .. | .resendMessage .. | .returnFrom .. | .loadEnvironment ..
  | .loadVariable .. | .storeVariable .. | .loadFreeVariable .. | .branchIfTrue ..
  | .branchIfFalse .. | .returnRegister .. => [start + 1]
  | .storeFreeVariable .. => [start + 3]
  | .isIdenticalTo .. => [start + 1, start + 2, start + 3]
  | .branchKeyed .. | .moveRegister .. | .isNil .. => [start + 1, start + 2]
  | .jumpTo .. | .returnValue .. | .resume => []
  | .primitiveDo _ _ args | .applyTo _ _ args =>
    [start + 1, start + 3] ++ List.range' (start + 4) args.length
  | .inlinePrimitiveCheck _ _ _ _ args => (start + 1) :: List.range' (start + 6) args.length
  | .inlineMethodCheck _ _ args => List.range' (start + 4) args.length

end Tables

section Formats

/-- How many operands there are, which of them are registers, and which of them say how many
more registers follow. -/
structure Format where
  base : Nat
  registers : List Nat
  counts : List Nat
  deriving DecidableEq

def format : Nat → Option Format
  | 0 => some ⟨3, [0], [2]⟩
  | 3 | 7 | 9 | 10 | 20 | 21 => some ⟨2, [0], []⟩
  | 5 => some ⟨4, [0, 3], [2]⟩
  | 8 => some ⟨2, [0], [1]⟩
  | 11 | 12 | 13 | 22 => some ⟨1, [0], []⟩
  | 14 => some ⟨3, [0], []⟩
  | 15 => some ⟨3, [2], []⟩
  | 16 => some ⟨3, [0, 1, 2], []⟩
  | 17 | 19 | 27 => some ⟨2, [0, 1], []⟩
  | 18 | 23 => some ⟨1, [], []⟩
  | 24 => some ⟨0, [], []⟩
  | 25 | 26 => some ⟨3, [0, 2], [1]⟩
  | 28 => some ⟨5, [0], [3]⟩
  | 29 => some ⟨3, [], [1]⟩
  | 30 => some ⟨4, [0], [2, 3]⟩
  | _ => none

namespace Format

variable (f : Format)

def following (words : List Value) : Option Nat :=
  (f.counts.mapM fun k => operandAt words k).map List.sum

def places (start following : Nat) : List Nat :=
  f.registers.map (start + 1 + ·) ++ List.range' (start + 1 + f.base) following

end Format

theorem mapM_length {α β : Type} {f : α → Option β} {xs : List α} {ys : List β}
    (mapped : xs.mapM f = some ys) : ys.length = xs.length := by
  induction xs generalizing ys with
  | nil =>
    cases mapped
    rfl
  | cons x xs ih =>
    rw [List.mapM_cons] at mapped
    simp only [Option.bind_eq_bind, Option.bind_eq_some_iff, Option.pure_def,
      Option.some.injEq] at mapped
    obtain ⟨y, _, ys, rest, rfl⟩ := mapped
    rw [List.length_cons, List.length_cons, ih rest]

theorem registers_length {count : Nat} {words : List Value} {args : List Nat}
    (read : Frames.registers count words = some args) : args.length = count := by
  unfold Frames.registers at read
  split at read
  · rw [mapM_length read, List.length_take_of_le ‹_›]
  · cases read

theorem operands_format {n : Nat} {words : List Value} {instr : Instr} {length : Nat}
    (read : operands n words = some (instr, length)) (start : Nat) :
    ∃ f k, format n = some f ∧ f.following words = some k ∧ length = 1 + f.base + k ∧
      registerPlaces start instr = f.places start k := by
  unfold operands at read
  split at read
  all_goals simp only [Option.bind_eq_bind, Option.bind_eq_some_iff, Option.pure_def,
    Option.some.injEq, Prod.mk.injEq, reduceCtorEq] at read
  -- instructions of a fixed length, by how many operands are numbers
  case h_20 | h_21 =>
    obtain ⟨rfl, rfl⟩ := read
    exact ⟨_, 0, rfl, rfl, rfl, rfl⟩
  case h_2 | h_4 | h_8 | h_9 | h_10 | h_15 | h_19 =>
    obtain ⟨_, _, rfl, rfl⟩ := read
    exact ⟨_, 0, rfl, rfl, rfl, rfl⟩
  case h_6 | h_7 | h_14 | h_16 | h_17 | h_18 | h_24 =>
    obtain ⟨_, _, _, _, rfl, rfl⟩ := read
    exact ⟨_, 0, rfl, rfl, rfl, rfl⟩
  case h_11 | h_12 | h_13 =>
    obtain ⟨_, _, _, _, _, _, rfl, rfl⟩ := read
    exact ⟨_, 0, rfl, rfl, rfl, rfl⟩
  -- instructions with an arity
  case h_26 =>
    obtain ⟨count, arity, args, regs, _, _, rfl, rfl⟩ := read
    rw [← registers_length regs] at arity
    exact ⟨_, args.length, rfl, by simp [Format.following, operandAt, arity], rfl, rfl⟩
  case h_1 | h_5 =>
    obtain ⟨count, arity, args, regs, _, _, rfl, rfl⟩ := read
    rw [← registers_length regs] at arity
    exact ⟨_, args.length, rfl, by simp [Format.following, operandAt, arity], rfl, rfl⟩
  case h_3 | h_22 | h_23 =>
    obtain ⟨count, arity, args, regs, _, _, _, _, rfl, rfl⟩ := read
    rw [← registers_length regs] at arity
    exact ⟨_, args.length, rfl, by simp [Format.following, operandAt, arity], rfl, rfl⟩
  case h_25 =>
    obtain ⟨count, arity, args, regs, _, _, _, _, _, _, rfl, rfl⟩ := read
    rw [← registers_length regs] at arity
    exact ⟨_, args.length, rfl, by simp [Format.following, operandAt, arity], rfl, rfl⟩
  case h_27 =>
    obtain ⟨count, arity, args, regs, count', optCount, opts, regs', _, _, rfl, rfl⟩ := read
    rw [← registers_length regs] at arity
    rw [← registers_length regs'] at optCount
    refine ⟨_, args.length + opts.length, rfl, ?_, Nat.add_assoc _ _ _, rfl⟩
    simp [Format.following, operandAt, arity, optCount]

section Agreement

variable {code words : List Value} {start n : Nat} {op : Value} {f : Format}

theorem operandAt_drop (dropped : code.drop start = op :: words) (k : Nat) :
    operandAt code (start + 1 + k) = operandAt words k := by
  unfold operandAt
  rw [Nat.add_assoc, ← List.getElem?_drop, dropped, Nat.add_comm, List.getElem?_cons_succ]

theorem getElem?_drop_zero (dropped : code.drop start = op :: words) : code[start]? = some op := by
  rw [← Nat.add_zero start, ← List.getElem?_drop, dropped]
  rfl

theorem opcodeBaseLength_format (known : format n = some f) : opcodeBaseLength n = f.base := by
  unfold format at known
  split at known <;> cases known <;> rfl

theorem registerLocations_format (known : format n = some f) :
    ((List.range 6).filter fun bit => (opcodeRegisterLocations n).testBit bit) = f.registers := by
  unfold format at known
  split at known <;> cases known <;> decide

theorem opcodeArgLength_format (dropped : code.drop start = op :: words)
    (number : op.index = some n) (known : format n = some f) :
    opcodeArgLength code start = f.following words := by
  have later := operandAt_drop dropped
  unfold opcodeArgLength
  rw [getElem?_drop_zero dropped]
  simp only [Option.bind_eq_bind, Option.bind_some, number, later]
  unfold format at known
  split at known <;> cases known <;>
    simp [Format.following]
  cases operandAt words 2 <;> cases operandAt words 3 <;> rfl

theorem byCode_format (known : format n = some f) :
    ∃ instr, byCode n = some instr ∧ instr.argNames.length = f.base ∧
      instr.offsettingArgIndices = f.counts := by
  unfold format at known
  split at known <;> cases known <;> exact ⟨_, rfl, rfl, rfl⟩

theorem foldlM_sum (g : Nat → Option Nat) (counts : List Nat) (a : Nat) :
    counts.foldlM (fun sum offset => (g offset).bind fun n => some (sum + n)) a =
      ((counts.mapM g).map List.sum).map (a + ·) := by
  induction counts generalizing a with
  | nil => rfl
  | cons k counts ih =>
    rw [List.foldlM_cons, List.mapM_cons]
    cases g k with
    | none => rfl
    | some n =>
      simp only [Option.bind_eq_bind, Option.bind_some, ih]
      cases counts.mapM g with
      | none => rfl
      | some rest => simp [Nat.add_assoc]

theorem lengths_agree {instr : Instr} {length : Nat}
    (decoded : decode (code.drop start) = some (instr, length)) :
    opcodeLength code start = some length ∧ disassembledLength code start = some length ∧
      optimizerRegisters code start = some (registerPlaces start instr) := by
  cases dropped : code.drop start with
  | nil =>
    rw [dropped] at decoded
    cases decoded
  | cons op words =>
    rw [dropped, decode, Option.bind_eq_some_iff] at decoded
    obtain ⟨n, number, read⟩ := decoded
    obtain ⟨f, k, known, following, rfl, places⟩ := operands_format read start
    have first := getElem?_drop_zero dropped
    have args := opcodeArgLength_format dropped number known
    rw [following] at args
    refine ⟨?_, ?_, ?_⟩
    · simp [opcodeLength, first, number, args, opcodeBaseLength_format known]
    · obtain ⟨row, found, size, counts⟩ := byCode_format known
      simp only [disassembledLength, first, number, found, Option.bind_eq_bind, Option.bind_some,
        Option.pure_def, counts, size, operandAt_drop dropped]
      rw [foldlM_sum]
      exact congrArg (Option.map (1 + f.base + ·)) following
    · simp [optimizerRegisters, first, number, args, opcodeBaseLength_format known,
        registerLocations_format known, places, Format.places]

end Agreement

end Formats

section Walks

def starts (length : List Value → Nat → Option Nat) (code : List Value) : Nat → Nat →
    Option (List Nat)
  | 0, _ => none
  | fuel + 1, pos =>
    if pos = code.length then some []
    else (length code pos).bind fun n => (starts length code fuel (pos + n)).map (pos :: ·)

def walk (length : List Value → Nat → Option Nat) (code : List Value) : Option (List Nat) :=
  starts length code (code.length + 1) 0

/-- The three visit the same starts, and there the optimizer has the registers of the
interpreter. -/
def BoundariesAgree (code : List Value) : Prop :=
  ∃ positions, walk interpretedLength code = some positions ∧
    walk opcodeLength code = some positions ∧ walk disassembledLength code = some positions ∧
    ∀ pos ∈ positions, ∃ instr length, decode (code.drop pos) = some (instr, length) ∧
      optimizerRegisters code pos = some (registerPlaces pos instr)

theorem starts_agree {code : List Value} {fuel pos : Nat} {positions : List Nat}
    (walked : starts interpretedLength code fuel pos = some positions) :
    starts opcodeLength code fuel pos = some positions ∧
      starts disassembledLength code fuel pos = some positions ∧
      ∀ pos ∈ positions, ∃ instr length, decode (code.drop pos) = some (instr, length) ∧
        optimizerRegisters code pos = some (registerPlaces pos instr) := by
  induction fuel generalizing pos positions with
  | zero => cases walked
  | succ fuel ih =>
    rw [starts] at walked
    by_cases done : pos = code.length
    · rw [if_pos done, Option.some.injEq] at walked
      subst walked
      simp only [starts, if_pos done, List.not_mem_nil, false_implies, implies_true, and_self]
    · rw [if_neg done, Option.bind_eq_some_iff] at walked
      obtain ⟨n, here, further⟩ := walked
      obtain ⟨positions, rest, rfl⟩ := Option.map_eq_some_iff.mp further
      obtain ⟨⟨instr, length⟩, decoded, rfl⟩ := Option.map_eq_some_iff.mp here
      obtain ⟨optimizer, disassembler, registers⟩ := lengths_agree decoded
      obtain ⟨ihOptimizer, ihDisassembler, ihRegisters⟩ := ih rest
      refine ⟨?_, ?_, ?_⟩
      · rw [starts, if_neg done, optimizer, Option.bind_some, ihOptimizer, Option.map_some]
      · rw [starts, if_neg done, disassembler, Option.bind_some, ihDisassembler, Option.map_some]
      · intro pos' mem
        rcases List.mem_cons.mp mem with rfl | mem
        · exact ⟨instr, length, decoded, registers⟩
        · exact ihRegisters pos' mem

theorem boundariesAgree_iff (code : List Value) :
    BoundariesAgree code ↔ (walk interpretedLength code).isSome := by
  constructor
  · rintro ⟨positions, walked, _⟩
    rw [walked]
    rfl
  · intro some
    obtain ⟨positions, walked⟩ := Option.isSome_iff_exists.mp some
    exact ⟨positions, walked, starts_agree walked⟩

theorem walk_opens (p : Placement) {code : List Element} (opens : Opens code) :
    walk interpretedLength (code.map p.element) = none := by
  have nonempty : 0 ≠ (code.map p.element).length := by
    obtain ⟨i, first⟩ := opens
    cases code with
    | nil => cases first
    | cons e rest => exact (Nat.succ_ne_zero _).symm
  rw [walk, starts, if_neg nonempty, interpretedLength, List.drop_zero, p.decode_opens opens]
  rfl

/-- The code arrays of the compiler have an object for their first opcode. -/
theorem compiled_boundaries (p : Placement) {fuel : Nat} {scopes : ScopeId → Scope}
    {nextScope : ScopeId} {root : Node} {method : MethodId} {gen : Generator}
    (run : compile fuel scopes nextScope root = .ok (method, gen)) :
    method < gen.methods.length ∧
      ∀ m ∈ gen.methods, ¬ BoundariesAgree (p.compiledMethod m).code := by
  obtain ⟨inside, opens⟩ := compile_opens run
  refine ⟨inside, fun m mem => ?_⟩
  rw [boundariesAgree_iff, Placement.compiledMethod, walk_opens p (opens m mem)]
  exact Bool.false_ne_true

def emptyBlock : Node := .block 0 []

def sampleScopes (_ : ScopeId) : Scope := .ofInputs [] 0 []

def samplePlacement : Placement :=
  ⟨Instruction.code, String.length, Char.toNat, id, id, List.length, 0, id⟩

theorem emptyBlock_boundaries : ∃ method gen,
    compile 1 sampleScopes 1 emptyBlock = .ok (method, gen) ∧ method < gen.methods.length ∧
      ∀ m ∈ gen.methods, ¬ BoundariesAgree (samplePlacement.compiledMethod m).code :=
  ⟨_, _, rfl, @compiled_boundaries samplePlacement 1 sampleScopes 1 emptyBlock _ _ rfl⟩

/-- The code of `[]` is Return Value of Nil, with the instruction in place of its number. -/
theorem returnValue_unwalkable : ∃ instruction, byCode returnValue = some instruction ∧
    (compile 1 sampleScopes 1 emptyBlock).toOption.map
      (fun (_, gen) => gen.methods.map CompiledMethod.code) =
        some [[.instruction instruction, .literal .nil]] ∧
    ¬ BoundariesAgree
      ([Element.instruction instruction, .literal .nil].map samplePlacement.element) := by
  refine ⟨_, rfl, rfl, ?_⟩
  rintro ⟨positions, walked, _⟩
  cases walked

end Walks

end SlateVm.Compiler
