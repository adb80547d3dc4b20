import SlateVm.Optimizer.Jumps

/-! The returns of an inlined method become jumps out of its code. -/
namespace SlateVm.Optimizer
open Frames (Value)

/-- The body of the loop in `optimizer_change_returns_to_jumps`. -/
def changeReturn (resultReg jumpOutDistance : Int) (code : Code) (i : Nat) : Option Code := do
  let op ← code[i]?
  if op = Opcode.returnRegister.word then
    let reg ← code[i + 1]?
    let codeToInsert := [Opcode.moveRegister.word, .smallint resultReg, reg, Opcode.jumpTo.word,
      .smallint (code.length - i - 2 + jumpOutDistance + 1)]
    let code ← deleteCode code i 2
    insertCode code i codeToInsert
  else if op = Opcode.returnValue.word then
    let literal ← code[i + 1]?
    let codeToInsert := [Opcode.loadLiteral.word, .smallint resultReg, literal, Opcode.jumpTo.word,
      .smallint (code.length - i - 2 + jumpOutDistance + 1)]
    let code ← deleteCode code i 2
    insertCode code i codeToInsert
  else some code

/-- `optimizer_change_returns_to_jumps`: a replaced return is two rounds of the loop. -/
def changeReturnsToJumps (code : Code) (resultReg jumpOutDistance : Int) : Option Code :=
  forOps List.length (changeReturn resultReg jumpOutDistance) (2 * code.length + 1) code 0

def storeOf (op : Value) : Value :=
  if op = Opcode.returnRegister.word then Opcode.moveRegister.word else Opcode.loadLiteral.word

theorem canJump_storeOf {op : Value} : ¬ opcodeCanJump (storeOf op) := by
  unfold storeOf
  split <;> decide

def isReturn (op : Value) : Bool :=
  op = Opcode.returnRegister.word || op = Opcode.returnValue.word

section Replacement

variable {x : Aimed} {r : Nat} {result finish : Int}

def Aimed.isReturn (x : Aimed) : Bool := Optimizer.isReturn x.instruction.op

def Instruction.stored (x : Instruction) (result : Int) : Instruction where
  op := storeOf x.op
  operands := [.smallint result, x.operands.headD .nil]
  long := by
    unfold storeOf
    split <;> exact Nat.le_refl 2
  whole := by
    unfold storeOf
    split <;> rfl
  jumps := by
    unfold storeOf
    split <;> nofun

def jumpOut : Instruction where
  op := Opcode.jumpTo.word
  operands := [.smallint 0]
  long := Nat.le_refl 1
  whole := rfl
  jumps := fun _ => ⟨0, rfl⟩

theorem jumpOut_stays : ¬ Optimizer.isReturn jumpOut.op := by decide

/-- What a return is replaced with: its store, and a jump to `finish`. -/
def Aimed.replacement (x : Aimed) (result finish : Int) : List Aimed :=
  [⟨x.instruction.stored result, 0⟩, ⟨jumpOut, finish⟩]

theorem extent_replacement : extent (x.replacement result finish) = 5 := rfl

theorem isReturn_cases {op : Value} (returns : isReturn op) :
    op = Opcode.returnRegister.word ∨ op = Opcode.returnValue.word := by
  simpa [isReturn] using returns

theorem canJump_isReturn {op : Value} (returns : isReturn op) : ¬ opcodeCanJump op := by
  rcases isReturn_cases returns with same | same <;> rw [same] <;> decide

theorem canJump_return (returns : x.isReturn) : ¬ x.canJump := canJump_isReturn returns

theorem words_return (returns : x.isReturn) (p : Nat) :
    ∃ value, x.words p = [x.instruction.op, value] ∧ x.instruction.operands = [value] := by
  have whole := x.instruction.whole
  have one : x.instruction.operands.length = 1 := by
    rcases isReturn_cases returns with same | same <;> rw [same] at whole <;>
    · have length : (2 : Int) = (x.instruction.operands.length + 1 : Nat) := Option.some.inj whole
      omega
  obtain ⟨value, same⟩ := List.length_eq_one_iff.mp one
  refine ⟨value, ?_, same⟩
  rw [words_still (canJump_return returns), Instruction.words, same]

theorem length_return (returns : x.isReturn) : x.length = 2 := by
  obtain ⟨value, _, same⟩ := words_return returns 0
  rw [Aimed.length, Instruction.length, same]
  rfl

/-- The aims of the jumps before a return at `r` when it has been replaced. -/
def changedBefore (r : Nat) (t : Int) : Int := adjust (isPast r) 5 (adjust (isPast r) (-2) t)

def changedAfter (r : Nat) (t : Int) : Int := insertedAfter r 5 (deletedAfter r 2 t)

theorem map_retarget (f g : Int → Int) (xs : List Aimed) :
    (xs.map (Aimed.retarget f)).map (Aimed.retarget g) = xs.map (Aimed.retarget (g ∘ f)) :=
  List.map_map

theorem render_replacement (value : Value) (same : x.instruction.operands = [value]) (size d : Int) :
    render r (x.replacement result (size + 3 + d)) =
      [storeOf x.instruction.op, .smallint result, value, Opcode.jumpTo.word,
        .smallint (size - r - 2 + d + 1)] := by
  have store : (x.instruction.stored result).words =
      [storeOf x.instruction.op, .smallint result, value] := by
    have operand : x.instruction.operands.headD .nil = value := by rw [same]; rfl
    rw [← operand]
    rfl
  have jump : jumpOut.aimed ((r : Nat) + 3 + 2) (size + 3 + d) =
      [Opcode.jumpTo.word, .smallint (size - r - 2 + d + 1)] := by
    have offset : size + 3 + d - ((r : Nat) + 3 + 2) - -1 = size - r - 2 + d + 1 := by ring
    rw [← offset]
    rfl
  have words : (⟨x.instruction.stored result, 0⟩ : Aimed).words r =
      (x.instruction.stored result).words :=
    words_still canJump_storeOf
  rw [Aimed.replacement, render, words, store]
  exact congrArg _ jump

theorem replaceReturn_render (xs ys : List Aimed) (finish : Int) (returns : x.isReturn)
    (newCode : Code) (new : newCode = render (extent xs) (x.replacement result finish)) :
    (deleteCode (render 0 (xs ++ x :: ys)) (extent xs) 2 >>= fun code =>
        insertCode code (extent xs) newCode) =
      some (render 0 (xs.map (Aimed.retarget (changedBefore (extent xs))) ++
        (x.replacement result finish ++
          ys.map (Aimed.retarget (changedAfter (extent xs)))))) := by
  have length : newCode.length = 5 := by rw [new, length_render, extent_replacement]
  have deleted := deleteCode_render xs ys x
  rw [length_return returns] at deleted
  have inserted := insertCode_render (xs.map (Aimed.retarget (adjust (isPast (extent xs)) (-2))))
    (ys.map (Aimed.retarget (deletedAfter (extent xs) 2))) newCode
  rw [extent_retarget, map_retarget, map_retarget, length] at inserted
  refine (congrArg (· >>= fun code => insertCode code (extent xs) newCode) deleted).trans ?_
  rw [Option.bind_eq_bind, Option.bind_some]
  refine inserted.trans (congrArg some ?_)
  rw [render_append, render_append, extent_retarget, Nat.zero_add, extent_replacement, new,
    List.append_assoc]
  rfl

theorem changeReturn_render (xs ys : List Aimed) (d : Int) (returns : x.isReturn) :
    changeReturn result d (render 0 (xs ++ x :: ys)) (extent xs) =
      some (render 0 (xs.map (Aimed.retarget (changedBefore (extent xs))) ++
        (x.replacement result ((extent (xs ++ x :: ys) : Nat) + 3 + d) ++
          ys.map (Aimed.retarget (changedAfter (extent xs)))))) := by
  obtain ⟨value, words, same⟩ := words_return returns (extent xs)
  have code : render 0 (xs ++ x :: ys) = render 0 xs ++ (x.words (extent xs) ++
      render (extent xs + x.length) ys) := by rw [render_at, Nat.zero_add]
  have here : (render 0 (xs ++ x :: ys))[extent xs]? = some x.instruction.op := by
    rw [code]
    exact (read_words x _ length_render).1
  have operand : (render 0 (xs ++ x :: ys))[extent xs + 1]? = some value := by
    rw [code, words, List.getElem?_append_right (by simp)]
    simp
  have new := @render_replacement x (extent xs) result value same
    (extent (xs ++ x :: ys) : Nat) d
  have run := replaceReturn_render xs ys _ returns _ new.symm
  have size : (render 0 (xs ++ x :: ys)).length = extent (xs ++ x :: ys) := length_render
  rw [changeReturn, here, operand, size, Option.bind_eq_bind, Option.bind_some, Option.bind_eq_bind,
    Option.bind_some]
  rcases isReturn_cases returns with register | literal
  · rw [if_pos register]
    rw [register] at run
    exact run
  · rw [literal] at run ⊢
    exact run

end Replacement

end SlateVm.Optimizer
