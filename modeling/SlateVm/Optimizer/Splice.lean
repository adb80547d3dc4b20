import Mathlib.Tactic.Ring
import SlateVm.Optimizer.Code

/-! Code as a list of instructions that know where their jumps land. The two splicing
operations keep what they do not insert or delete, and move the aims. -/
namespace SlateVm.Optimizer
open Frames (Value)

variable {code code' : Code} {op : Value} {i p start start' offset : Nat}

theorem numberAt_congr (same : code'[start']? = code[start]?) :
    numberAt code' start' = numberAt code start := by
  rw [numberAt, numberAt, same]

theorem opcodeArgLength_congr (here : code[start]? = some op)
    (same : ∀ k ≤ opcodeBaseLength op, (opcodeCanJump op → k ≠ opcodeJumpOffset op) →
      code'[start' + k]? = code[start + k]?) :
    opcodeArgLength code' start' = opcodeArgLength code start := by
  have read (k : Nat) (inside : 1 + k ≤ opcodeBaseLength op)
      (apart : opcodeCanJump op → 1 + k ≠ opcodeJumpOffset op) :
      numberAt code' (start' + 1 + k) = numberAt code (start + 1 + k) := by
    rw [Nat.add_assoc, Nat.add_assoc]
    exact numberAt_congr (same (1 + k) inside apart)
  have here' : code'[start']? = some op := by
    rw [← here]
    refine same 0 (Nat.zero_le _) ?_
    unfold opcodeCanJump opcodeJumpOffset
    split <;> simp
  unfold opcodeBaseLength opcodeCanJump opcodeJumpOffset at read
  unfold opcodeArgLength
  rw [here, here', Option.bind_some, Option.bind_some]
  split <;> simp_all

theorem opcodeLength_congr (here : code[start]? = some op)
    (same : ∀ k ≤ opcodeBaseLength op, (opcodeCanJump op → k ≠ opcodeJumpOffset op) →
      code'[start' + k]? = code[start + k]?) :
    opcodeLength code' start' = opcodeLength code start := by
  have here' : code'[start']? = some op := by
    rw [← here]
    refine same 0 (Nat.zero_le _) ?_
    unfold opcodeCanJump opcodeJumpOffset
    split <;> simp
  rw [opcodeLength, opcodeLength, here, here', opcodeArgLength_congr here same]

theorem opcodeJumpOffset_bounds (jumps : opcodeCanJump op) :
    0 < opcodeJumpOffset op ∧ opcodeJumpOffset op ≤ opcodeBaseLength op := by
  unfold opcodeCanJump at jumps
  unfold opcodeJumpOffset opcodeBaseLength
  split at jumps <;> simp_all

structure Instruction where
  op : Value
  operands : List Value
  long : opcodeBaseLength op ≤ operands.length
  whole : opcodeLength (op :: operands) 0 = some ((operands.length + 1 : Nat) : Int)
  jumps : opcodeCanJump op → ∃ n, numberAt (op :: operands) (opcodeJumpOffset op) = some n

namespace Instruction

variable (x : Instruction)

def words : List Value := x.op :: x.operands

def length : Nat := x.operands.length + 1

theorem length_words : x.words.length = x.length := rfl

/-- The words with a jump to `target`, when the instruction ends at `finish`. -/
def aimed (finish target : Int) : List Value :=
  if opcodeCanJump x.op then
    x.words.set (opcodeJumpOffset x.op) (.smallint (target - finish - opcodeJumpAdjustment x.op))
  else x.words

variable {x} {finish target : Int}

@[simp] theorem length_aimed : (x.aimed finish target).length = x.length := by
  unfold aimed
  split
  · rw [List.length_set, length_words]
  · rw [length_words]

theorem aimed_congr (same : target - finish = target' - finish') :
    x.aimed finish target = x.aimed finish' target' := by
  rw [aimed, aimed, same]

theorem getElem?_aimed {k : Nat} (apart : opcodeCanJump x.op → k ≠ opcodeJumpOffset x.op) :
    (x.aimed finish target)[k]? = x.words[k]? := by
  unfold aimed
  split
  case isTrue jumps => rw [List.getElem?_set_ne (apart jumps).symm]
  case isFalse => rfl

theorem head_aimed : (x.aimed finish target)[0]? = some x.op := by
  refine getElem?_aimed fun jumps => ?_
  have := opcodeJumpOffset_bounds jumps
  omega

theorem read_aimed {pre post : Code} (place : pre.length = p) :
    (pre ++ (x.aimed finish target ++ post))[p]? = some x.op ∧
      opcodeLength (pre ++ (x.aimed finish target ++ post)) p = some (x.length : Int) := by
  have inside (k : Nat) (below : k < x.length) :
      (pre ++ (x.aimed finish target ++ post))[p + k]? = (x.aimed finish target)[k]? := by
    rw [← place, List.getElem?_append_right (Nat.le_add_right _ _), Nat.add_sub_cancel_left,
      List.getElem?_append_left (by rwa [length_aimed])]
  have long := x.long
  constructor
  · rw [← @head_aimed x finish target]
    exact inside 0 (Nat.succ_pos _)
  · have whole : opcodeLength x.words 0 = some (x.length : Int) := by
      rw [words, x.whole]
      rfl
    rw [← whole]
    refine @opcodeLength_congr x.words _ x.op 0 p rfl fun k within apart => ?_
    rw [inside k (by rw [length]; omega), getElem?_aimed apart, Nat.zero_add]

theorem number_aimed {pre post : Code} (place : pre.length = p) (jumps : opcodeCanJump x.op) :
    numberAt (pre ++ (x.aimed finish target ++ post)) (p + opcodeJumpOffset x.op) =
      some (target - finish - opcodeJumpAdjustment x.op) := by
  have inside := (opcodeJumpOffset_bounds jumps).2.trans x.long
  have below : opcodeJumpOffset x.op < x.words.length := Nat.lt_succ_of_le inside
  rw [numberAt, ← place, List.getElem?_append_right (Nat.le_add_right _ _),
    Nat.add_sub_cancel_left, List.getElem?_append_left (by rwa [length_aimed]), aimed,
    if_pos jumps, List.getElem?_set_self below]
  rfl

end Instruction

structure Aimed where
  instruction : Instruction
  target : Int

namespace Aimed

def length (x : Aimed) : Nat := x.instruction.length

def words (x : Aimed) (p : Nat) : List Value :=
  x.instruction.aimed (p + x.length : Nat) x.target

def retarget (f : Int → Int) (x : Aimed) : Aimed := { x with target := f x.target }

def canJump (x : Aimed) : Bool := opcodeCanJump x.instruction.op

@[simp] theorem length_words (x : Aimed) (p : Nat) : (x.words p).length = x.length :=
  Instruction.length_aimed

@[simp] theorem length_retarget (f : Int → Int) (x : Aimed) : (x.retarget f).length = x.length :=
  rfl

@[simp] theorem target_retarget (f : Int → Int) (x : Aimed) :
    (x.retarget f).target = f x.target := rfl

theorem length_pos (x : Aimed) : 0 < x.length := Nat.succ_pos _

end Aimed

def extent (xs : List Aimed) : Nat := (xs.map Aimed.length).sum

def render : Nat → List Aimed → Code
  | _, [] => []
  | p, x :: xs => x.words p ++ render (p + x.length) xs

section Render

attribute [local simp] render

variable {x : Aimed} {xs ys : List Aimed} {n : Nat} {f g : Int → Int}

@[simp] theorem extent_nil : extent [] = 0 := rfl

@[simp] theorem extent_cons : extent (x :: xs) = x.length + extent xs := rfl

@[simp] theorem extent_append : extent (xs ++ ys) = extent xs + extent ys := by
  rw [extent, List.map_append, List.sum_append]
  rfl

@[simp] theorem extent_retarget : extent (xs.map (Aimed.retarget f)) = extent xs := by
  rw [extent, List.map_map]
  rfl

@[simp] theorem length_render : (render p xs).length = extent xs := by
  induction xs generalizing p with
  | nil => rfl
  | cons x xs ih => rw [render, List.length_append, x.length_words, ih, extent_cons]

theorem render_append : render p (xs ++ ys) = render p xs ++ render (p + extent xs) ys := by
  induction xs generalizing p with
  | nil => rfl
  | cons x xs ih =>
    rw [List.cons_append, render, render, ih, List.append_assoc, extent_cons, Nat.add_assoc]

theorem render_shift (shifted : ∀ x ∈ xs, x.canJump → f x.target = g x.target + n) :
    render (p + n) (xs.map (Aimed.retarget f)) = render p (xs.map (Aimed.retarget g)) := by
  induction xs generalizing p with
  | nil => rfl
  | cons x xs ih =>
    have rest := @ih (p + x.length) fun y mem => shifted y (List.mem_cons_of_mem x mem)
    rw [List.map_cons, List.map_cons, render, render, Aimed.length_retarget,
      Aimed.length_retarget, Nat.add_right_comm, rest]
    congr 1
    by_cases jumps : x.canJump
    · have here := shifted x List.mem_cons_self jumps
      refine Instruction.aimed_congr ?_
      rw [Aimed.length_retarget, Aimed.length_retarget, Aimed.target_retarget,
        Aimed.target_retarget, here]
      push_cast
      ring
    · have stays (h : Int → Int) (q : Nat) : (x.retarget h).words q = x.instruction.words := by
        exact if_neg jumps
      rw [stays, stays]

end Render

section Loops

variable {x : Aimed} {xs ys : List Aimed} {pre post : Code} {jumps : Int → Bool} {amount : Int}

def adjust (jumps : Int → Bool) (amount : Int) (aim : Int) : Int :=
  if jumps aim then aim + amount else aim

theorem read_words (x : Aimed) (post : Code) (place : pre.length = p) :
    (pre ++ (x.words p ++ post))[p]? = some x.instruction.op ∧
      opcodeLength (pre ++ (x.words p ++ post)) p = some (x.length : Int) :=
  Instruction.read_aimed place

theorem number_words (x : Aimed) (post : Code) (place : pre.length = p) (jump : x.canJump) :
    numberAt (pre ++ (x.words p ++ post)) (p + opcodeJumpOffset x.instruction.op) =
      some (x.target - (p + x.length : Nat) - opcodeJumpAdjustment x.instruction.op) :=
  Instruction.number_aimed place jump

theorem words_still (still : ¬ x.canJump) : x.words p = x.instruction.words := if_neg still

theorem words_jump (jump : x.canJump) : x.words p = x.instruction.words.set
    (opcodeJumpOffset x.instruction.op)
    (.smallint (x.target - (p + x.length : Nat) - opcodeJumpAdjustment x.instruction.op)) :=
  if_pos jump

theorem aim_words (x : Aimed) : (p : Int) + x.length + (x.target - (p + x.length : Nat) -
    opcodeJumpAdjustment x.instruction.op + opcodeJumpAdjustment x.instruction.op) = x.target := by
  push_cast
  ring

theorem jumpTarget_words (x : Aimed) (post : Code) (place : pre.length = p) :
    jumpTarget (pre ++ (x.words p ++ post)) p = if x.canJump then some x.target else none := by
  obtain ⟨here, length⟩ := read_words x post place
  rw [jumpTarget, here, Option.bind_eq_bind, Option.bind_some]
  by_cases jump : x.canJump
  · have jump' : opcodeCanJump x.instruction.op := jump
    rw [if_pos jump', if_pos jump, length, number_words x post place jump]
    exact congrArg some (aim_words x)
  · have still : ¬ opcodeCanJump x.instruction.op := jump
    rw [if_neg still, if_neg jump]

theorem offsetJump_words (x : Aimed) (post : Code) (place : pre.length = p) :
    offsetJump jumps amount (pre ++ (x.words p ++ post)) p =
      some (pre ++ ((x.retarget (adjust jumps amount)).words p ++ post)) := by
  obtain ⟨here, length⟩ := read_words x post place
  rw [offsetJump, here, Option.bind_eq_bind, Option.bind_some]
  by_cases jump : x.canJump
  · have number := number_words x post place jump
    have jump' : opcodeCanJump x.instruction.op := jump
    have inside : opcodeJumpOffset x.instruction.op < (x.words p).length := by
      rw [x.length_words]
      exact Nat.lt_succ_of_le ((opcodeJumpOffset_bounds jump).2.trans x.instruction.long)
    simp only [if_pos jump', length, number, Option.bind_eq_bind, Option.bind_some, aim_words]
    split
    case isTrue aimed =>
      have moved : (x.retarget (adjust jumps amount)).target = x.target + amount := if_pos aimed
      have value : x.target - (p + x.length : Nat) - opcodeJumpAdjustment x.instruction.op +
          amount = x.target + amount - (p + x.length : Nat) -
            opcodeJumpAdjustment x.instruction.op := by ring
      have words : (x.retarget (adjust jumps amount)).words p = _ := words_jump jump
      rw [offsetValue, number, Option.map_some, ← place,
        List.set_append_right _ _ (Nat.le_add_right _ _), Nat.add_sub_cancel_left,
        List.set_append_left _ _ (by rwa [place]), place, words_jump jump, List.set_set,
        value, words, moved]
      rfl
    case isFalse spared =>
      have stays : (x.retarget (adjust jumps amount)).target = x.target := if_neg spared
      have words : (x.retarget (adjust jumps amount)).words p = _ := words_jump jump
      rw [words_jump jump, words, stays]
      rfl
  · have still : ¬ opcodeCanJump x.instruction.op := jump
    have words : (x.retarget (adjust jumps amount)).words p = _ := words_still jump
    rw [if_neg still, words_still jump, words]
    rfl

theorem length_le_extent : xs.length ≤ extent xs := by
  induction xs with
  | nil => exact Nat.le_refl _
  | cons x xs ih =>
    have := x.length_pos
    rw [List.length_cons, extent_cons]
    omega

theorem forOps_render {stop : Code → Nat} {fuel : Nat} (place : pre.length = p)
    (stops : ∀ code : Code, code.length = p + extent xs + post.length → stop code = p + extent xs)
    (enough : xs.length < fuel) :
    forOps stop (offsetJump jumps amount) fuel (pre ++ (render p xs ++ post)) p =
      some (pre ++ (render p (xs.map (Aimed.retarget (adjust jumps amount))) ++ post)) := by
  induction xs generalizing pre p fuel with
  | nil =>
    obtain ⟨fuel, rfl⟩ := Nat.exists_eq_succ_of_ne_zero (Nat.ne_of_gt enough)
    have finish := stops (pre ++ (render p [] ++ post)) (by simp [render, place])
    rw [forOps, if_neg (by rw [finish]; exact Nat.lt_irrefl p)]
    rfl
  | cons x xs ih =>
    obtain ⟨fuel, rfl⟩ := Nat.exists_eq_succ_of_ne_zero (Nat.ne_of_gt (Nat.zero_lt_of_lt enough))
    have positive := x.length_pos
    have finish := stops (pre ++ (render p (x :: xs) ++ post)) (by simp [place, Nat.add_assoc])
    rw [extent_cons] at finish
    obtain ⟨_, length⟩ := read_words (x.retarget (adjust jumps amount))
      (render (p + x.length) xs ++ post) place
    have next : (p : Int) + x.length = (p + x.length : Nat) := rfl
    have rest := @ih (p + x.length) (pre ++ (x.retarget (adjust jumps amount)).words p) fuel
      (by simp [place]) (by
        intro code same
        rw [stops code (by rw [extent_cons]; omega), extent_cons, Nat.add_assoc])
      (Nat.lt_of_succ_lt_succ enough)
    rw [forOps, if_pos (by omega), render, List.append_assoc, offsetJump_words x _ place,
      Option.bind_eq_bind, Option.bind_some, length, Option.bind_eq_bind, Option.bind_some,
      Aimed.length_retarget, next, if_pos (Int.natCast_nonneg _), Int.toNat_natCast,
      ← List.append_assoc, rest, List.map_cons, render, Aimed.length_retarget,
      List.append_assoc, List.append_assoc]

theorem forOps_before {fuel : Nat} (enough : extent (xs ++ ys) < fuel) :
    forOps (fun _ => extent xs) (offsetJump jumps amount) fuel (render 0 (xs ++ ys)) 0 =
      some (render 0 (xs.map (Aimed.retarget (adjust jumps amount))) ++ render (extent xs) ys) := by
  have few := @length_le_extent xs
  rw [extent_append] at enough
  rw [render_append, Nat.zero_add]
  exact @forOps_render 0 xs [] _ jumps amount _ fuel rfl (fun _ _ => (Nat.zero_add _).symm) (by omega)

theorem forOps_after {fuel : Nat} (place : pre.length = p) (enough : extent ys < fuel) :
    forOps List.length (offsetJump jumps amount) fuel (pre ++ render p ys) p =
      some (pre ++ render p (ys.map (Aimed.retarget (adjust jumps amount)))) := by
  have few := @length_le_extent ys
  have run := @forOps_render _ ys pre [] jumps amount List.length fuel place
    (fun _ same => same.trans (Nat.add_zero _)) (by omega)
  rwa [List.append_nil, List.append_nil] at run

def insertedAfter (offset n : Nat) (aim : Int) : Int := adjust (isBefore offset) (-n) aim + n

theorem insertCode_render (xs ys : List Aimed) (newCode : Code) :
    insertCode (render 0 (xs ++ ys)) (extent xs) newCode = some
      (render 0 (xs.map (Aimed.retarget (adjust (isPast (extent xs)) newCode.length))) ++ newCode ++
        render (extent xs + newCode.length)
          (ys.map (Aimed.retarget (insertedAfter (extent xs) newCode.length)))) := by
  have moved := @render_shift (extent xs) ys newCode.length
    (insertedAfter (extent xs) newCode.length) (adjust (isBefore (extent xs)) (-newCode.length))
    fun _ _ _ => rfl
  rw [insertCode, if_pos (by simp), forOps_before (by simp), Option.bind_eq_bind, Option.bind_some,
    forOps_after (by simp) (by rw [List.length_append, length_render, length_render]; omega),
    Option.bind_some, List.take_left' (by simp), List.drop_left' (by simp), moved]
  rfl

def deletedAfter (offset n : Nat) (aim : Int) : Int :=
  adjust (fun aim => !isPast offset aim) n aim - n

theorem deleteCode_render (xs ys : List Aimed) (z : Aimed) :
    deleteCode (render 0 (xs ++ z :: ys)) (extent xs) z.length = some
      (render 0 (xs.map (Aimed.retarget (adjust (isPast (extent xs)) (-z.length))) ++
        ys.map (Aimed.retarget (deletedAfter (extent xs) z.length)))) := by
  have positive := z.length_pos
  have moved := @render_shift (extent xs) ys z.length
    (adjust (fun aim => !isPast (extent xs) aim) z.length) (deletedAfter (extent xs) z.length)
    fun _ _ _ => (Int.sub_add_cancel _ _).symm
  rw [deleteCode, if_pos (by constructor <;> simp [positive]), forOps_before (by simp),
    Option.bind_eq_bind, Option.bind_some,
    forOps_after (by simp) (by rw [List.length_append, length_render, length_render]; omega),
    Option.bind_some, if_pos (by simp), List.take_left' (by simp), Int.toNat_natCast, ← List.drop_drop,
    List.drop_left' (by simp), List.map_cons, render, Aimed.length_retarget, List.drop_left' (by simp), moved,
    render_append, extent_retarget, Nat.zero_add]
  rfl

end Loops

end SlateVm.Optimizer
