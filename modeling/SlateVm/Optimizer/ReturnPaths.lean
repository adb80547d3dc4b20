import SlateVm.Lib.Simulation
import SlateVm.Optimizer.Replaced

/-! The paths through code before and after its returns are replaced. -/
namespace SlateVm.Optimizer
open Frames (Value)
open Relation

inductive Outcome where
  | falls
  | jumps
  /-- A branch on another value than a Boolean is executed again after its signal. -/
  | again

/-- What instructions do. Only those that the replacement is made of have a meaning of their own;
the others may do anything, with their words except the jump. -/
structure Machine (σ : Type) where
  read : Value → σ → Value
  write : Value → Value → σ → σ
  does : List Value → σ → σ → Prop
  branches : List Value → σ → Outcome → σ → Prop

def isOther (op : Value) : Bool :=
  !opcodeCanJump op && !isReturn op && op != Opcode.moveRegister.word &&
    op != Opcode.loadLiteral.word && op != Opcode.branchKeyed.word

section Semantics

variable {σ : Type} (m : Machine σ)

inductive Executes : List Value → σ → Outcome → σ → Prop where
  | moveRegister {dest src : Value} {s : σ} :
      Executes [Opcode.moveRegister.word, dest, src] s .falls (m.write dest (m.read src s) s)
  | loadLiteral {dest literal : Value} {s : σ} :
      Executes [Opcode.loadLiteral.word, dest, literal] s .falls (m.write dest literal s)
  | jumpTo {s : σ} : Executes [Opcode.jumpTo.word, .nil] s .jumps s
  | branch {op : Value} {operands : List Value} {outcome : Outcome} {s s' : σ} :
      opcodeCanJump op → op ≠ Opcode.jumpTo.word →
      m.branches (op :: operands) s outcome s' → Executes (op :: operands) s outcome s'
  | other {op : Value} {operands : List Value} {s s' : σ} :
      isOther op → m.does (op :: operands) s s' → Executes (op :: operands) s .falls s'

/-- The words of the instruction at `pc`, without its jump. -/
def wordsAt (code : Code) (pc n : Nat) : List Value :=
  let words := (code.drop pc).take n
  match words with
  | [] => []
  | op :: _ => if opcodeCanJump op then words.set (opcodeJumpOffset op) .nil else words

inductive Step (code : Code) : Nat × σ → Nat × σ → Prop where
  | falls {pc n : Nat} {s s' : σ} : opcodeLength code pc = some (n : Int) →
      Executes m (wordsAt code pc n) s .falls s' → Step code (pc, s) (pc + n, s')
  | jumps {pc n t : Nat} {s s' : σ} : opcodeLength code pc = some (n : Int) →
      Executes m (wordsAt code pc n) s .jumps s' → jumpTarget code pc = some (t : Int) →
      Step code (pc, s) (t, s')
  | again {pc n : Nat} {s s' : σ} : opcodeLength code pc = some (n : Int) →
      Executes m (wordsAt code pc n) s .again s' → Step code (pc, s) (pc, s')

def Path (code : Code) : Nat × σ → Nat × σ → Prop := ReflTransGen (Step m code)

/-- The instruction at `pc` returns `value`. -/
inductive Returns (code : Code) (pc : Nat) (s : σ) : Value → Prop where
  | register {reg : Value} : code[pc]? = some Opcode.returnRegister.word →
      code[pc + 1]? = some reg → Returns code pc s (m.read reg s)
  | value {literal : Value} : code[pc]? = some Opcode.returnValue.word →
      code[pc + 1]? = some literal → Returns code pc s literal

end Semantics

def starts (code : Code) : List Nat :=
  Tiling.walk (fun i => ((opcodeLength code i).getD 1).toNat) code.length code.length 0

def returnsOf (code : Code) : List Nat :=
  (starts code).filter fun i => code[i]?.any isReturn

/-- Where the word at `p` goes when each return before it is replaced with five words. -/
def moved (code : Code) (p : Nat) : Nat := shifted (returnsOf code) p

/-- The code has become `code'`, where a return stores its value and goes on at a distance past
the end, and nothing else is changed: all jumps reach what they reached, or what stands for it. -/
structure Eliminated (code code' : Code) (resultReg : Int) (distance : Nat) : Prop where
  jumps : ∀ j t : Nat, Boundary code j → jumpTarget code j = some (t : Int) →
    jumpTarget code' (moved code j) = some (moved code t : Int)
  unchanged : ∀ {σ : Type} (m : Machine σ) (p q : Nat) (s s' : σ), Boundary code p →
    Boundary code q →
    (Path m code' (moved code p, s) (moved code q, s') ↔ Path m code (p, s) (q, s'))
  returned : ∀ {σ : Type} (m : Machine σ) (p : Nat) (s s'' : σ), Boundary code p →
    (Path m code' (moved code p, s) (code'.length + distance, s'') ↔
      ∃ r s' value, Path m code (p, s) (r, s') ∧ Returns m code r s' value ∧
        s'' = m.write (.smallint resultReg) value s')

def Undiverted (code : Code) : Prop :=
  ∀ j t r : Nat, Boundary code j → jumpTarget code j = some (t : Int) → Boundary code r →
    code[r]?.any isReturn → ¬ (j < r ∧ t = r + 2) ∧ ¬ (r < j ∧ t = r)

section Instructions

variable {σ : Type} {m : Machine σ} {code : Code} {x : Aimed} {p q : Nat} {s s' : σ}
  {pre post : Code} {outcome : Outcome}

def Instruction.hole (x : Instruction) : List Value :=
  if opcodeCanJump x.op then x.words.set (opcodeJumpOffset x.op) .nil else x.words

theorem wordsAt_words (x : Aimed) (post : Code) (place : pre.length = p) :
    wordsAt (pre ++ (x.words p ++ post)) p x.length = x.instruction.hole := by
  have taken : ((pre ++ (x.words p ++ post)).drop p).take x.length = x.words p := by
    rw [List.drop_left' place, List.take_left' (x.length_words p)]
  obtain ⟨op, rest, words⟩ : ∃ op rest, x.words p = op :: rest :=
    List.exists_cons_of_length_pos (by rw [x.length_words]; exact x.length_pos)
  have head : op = x.instruction.op := by
    have first : (x.words p)[0]? = some x.instruction.op := Instruction.head_aimed
    rw [words] at first
    exact Option.some.inj first
  rw [wordsAt, taken, words, head, Instruction.hole]
  simp only [← head]
  by_cases jump : x.canJump
  · have jump' : opcodeCanJump op := by rw [head]; exact jump
    rw [if_pos jump', if_pos jump', ← words, words_jump jump, head, List.set_set]
  · have still : ¬ opcodeCanJump op := by rw [head]; exact jump
    rw [if_neg still, if_neg still, ← words, words_still jump]

def Aimed.Moves (m : Machine σ) (x : Aimed) (p : Nat) (s : σ) (q : Nat) (s' : σ) : Prop :=
  (Executes m x.instruction.hole s .falls s' ∧ q = p + x.length) ∨
    (Executes m x.instruction.hole s .jumps s' ∧ x.canJump ∧ x.target = q) ∨
    (Executes m x.instruction.hole s .again s' ∧ q = p)

theorem step_words (x : Aimed) (post : Code) (place : pre.length = p) :
    Step m (pre ++ (x.words p ++ post)) (p, s) (q, s') ↔ x.Moves m p s q s' := by
  have length := (read_words x post place).2
  have words := wordsAt_words x post place
  have target := jumpTarget_words x post place
  constructor
  · intro step
    cases step with
    | falls long runs =>
      cases Int.ofNat_inj.mp (Option.some.inj (length.symm.trans long))
      rw [words] at runs
      exact .inl ⟨runs, rfl⟩
    | jumps long runs jump =>
      cases Int.ofNat_inj.mp (Option.some.inj (length.symm.trans long))
      rw [words] at runs
      rw [target] at jump
      split at jump
      case isTrue jumps => exact .inr (.inl ⟨runs, jumps, Option.some.inj jump⟩)
      case isFalse => cases jump
    | again long runs =>
      cases Int.ofNat_inj.mp (Option.some.inj (length.symm.trans long))
      rw [words] at runs
      exact .inr (.inr ⟨runs, rfl⟩)
  · rintro (⟨runs, rfl⟩ | ⟨runs, jumps, aim⟩ | ⟨runs, rfl⟩)
    · exact .falls length (by rwa [words])
    · exact .jumps length (by rwa [words]) (by rw [target, if_pos jumps, aim])
    · exact .again length (by rwa [words])

theorem no_step (beyond : code.length ≤ p) : ¬ Step m code (p, s) (q, s') := by
  have nothing : opcodeLength code p = none := by
    rw [opcodeLength, List.getElem?_eq_none beyond]
    rfl
  intro step
  cases step with
  | falls long => cases nothing.symm.trans long
  | jumps long => cases nothing.symm.trans long
  | again long => cases nothing.symm.trans long

theorem hole_still {x : Instruction} (still : ¬ opcodeCanJump x.op) : x.hole = x.words :=
  if_neg still

theorem hole_return (returns : x.isReturn) (p : Nat) (result : Int) :
    ∃ value, x.words p = [x.instruction.op, value] ∧
      x.instruction.hole = [x.instruction.op, value] ∧
      (x.instruction.stored result).hole = [storeOf x.instruction.op, .smallint result, value] := by
  obtain ⟨value, words, operands⟩ := words_return returns p
  refine ⟨value, words, ?_, ?_⟩
  · rw [hole_still (canJump_return returns), Instruction.words, operands]
  · have operand : x.instruction.operands.headD .nil = value := by rw [operands]; rfl
    rw [hole_still canJump_storeOf, ← operand]
    rfl

theorem no_return (returns : x.isReturn) : ¬ Executes m x.instruction.hole s outcome s' := by
  obtain ⟨value, _, hole, _⟩ := hole_return returns 0 0
  have stays : Optimizer.isReturn x.instruction.op = true := returns
  rw [hole]
  generalize x.instruction.op = op at stays
  intro runs
  cases runs with
  | jumpTo => exact absurd stays (by decide)
  | branch jumps => exact canJump_isReturn stays jumps
  | other other => simp [isOther, stays] at other

def returned (m : Machine σ) (op value : Value) (s : σ) : Value :=
  if op = Opcode.returnRegister.word then m.read value s else value

theorem executes_store {op dest value : Value} (returns : isReturn op) :
    Executes m [storeOf op, dest, value] s outcome s' ↔
      outcome = .falls ∧ s' = m.write dest (returned m op value s) s := by
  constructor
  · intro runs
    rcases isReturn_cases returns with rfl | rfl
    · cases runs with
      | moveRegister => exact ⟨rfl, rfl⟩
      | branch jumps => exact absurd jumps (by decide)
      | other other => exact absurd other (by decide)
    · cases runs with
      | loadLiteral => exact ⟨rfl, rfl⟩
      | branch jumps => exact absurd jumps (by decide)
      | other other => exact absurd other (by decide)
  · rintro ⟨rfl, rfl⟩
    rcases isReturn_cases returns with rfl | rfl
    · exact .moveRegister
    · exact .loadLiteral

theorem executes_jumpOut : Executes m jumpOut.hole s outcome s' ↔ outcome = .jumps ∧ s' = s := by
  constructor
  · intro runs
    have hole : jumpOut.hole = [Opcode.jumpTo.word, .nil] := rfl
    rw [hole] at runs
    cases runs with
    | jumpTo => exact ⟨rfl, rfl⟩
    | branch _ apart => exact absurd rfl apart
    | other other => exact absurd other (by decide)
  · rintro ⟨rfl, rfl⟩
    exact .jumpTo

theorem returns_words (returns : x.isReturn) {value v : Value}
    (words : x.words p = [x.instruction.op, value]) (place : pre.length = p) :
    Returns m (pre ++ (x.words p ++ post)) p s v ↔ v = returned m x.instruction.op value s := by
  have here := (read_words x post place).1
  have operand : (pre ++ (x.words p ++ post))[p + 1]? = some value := by
    rw [words, ← place, List.getElem?_append_right (Nat.le_add_right _ _), Nat.add_sub_cancel_left]
    rfl
  constructor
  · intro gives
    cases gives with
    | register op reg =>
      have same := Option.some.inj (here.symm.trans op)
      rw [returned, if_pos same, Option.some.inj (operand.symm.trans reg)]
    | value op literal =>
      have same := Option.some.inj (here.symm.trans op)
      rw [returned, if_neg (by rw [same]; decide), Option.some.inj (operand.symm.trans literal)]
  · rintro rfl
    rcases isReturn_cases returns with same | same
    · rw [returned, if_pos same]
      exact .register (by rw [here, same]) operand
    · rw [returned, if_neg (by rw [same]; decide)]
      exact .value (by rw [here, same]) operand

end Instructions

end SlateVm.Optimizer
