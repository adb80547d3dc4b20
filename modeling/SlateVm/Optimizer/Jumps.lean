import SlateVm.Optimizer.Splice

/-! Splicing keeps the jumps of well-formed code. -/
namespace SlateVm.Optimizer
open Frames (Value)

variable {code code' : Code} {op : Value} {i p t n offset : Nat}

/-- The starts of the instructions, and the end of the code. -/
inductive Boundary (code : Code) : Nat → Prop where
  | start : Boundary code 0
  | next {i n : Nat} : Boundary code i → i < code.length → opcodeLength code i = some (n : Int) →
      Boundary code (i + n)

def Whole (code : Code) (i : Nat) : Prop :=
  ∃ op, ∃ args : Nat, code[i]? = some op ∧ opcodeArgLength code i = some (args : Int) ∧
    i + (1 + opcodeBaseLength op + args) ≤ code.length

/-- Instructions follow one another to the end, and each jump lands at one or at the end. -/
structure WellFormed (code : Code) : Prop where
  whole : ∀ i, Boundary code i → i < code.length → Whole code i
  lands : ∀ i op, Boundary code i → code[i]? = some op → opcodeCanJump op →
    ∃ t : Nat, jumpTarget code i = some (t : Int) ∧ Boundary code t

theorem numberAt_some {n : Int} : numberAt code i = some n ↔ code[i]? = some (.smallint n) := by
  rw [numberAt, Option.bind_eq_some_iff]
  constructor
  · rintro ⟨value, here, number⟩
    cases value <;> cases number
    exact here
  · intro here
    exact ⟨_, here, rfl⟩

theorem set_number {n : Int} (number : numberAt code i = some n) :
    code.set i (.smallint n) = code := by
  obtain ⟨inside, here⟩ := List.getElem?_eq_some_iff.mp (numberAt_some.mp number)
  rw [← here]
  exact List.set_getElem_self inside

theorem jumpTarget_some {t : Int} (jump : jumpTarget code i = some t) :
    ∃ op n, code[i]? = some op ∧ opcodeCanJump op ∧
      numberAt code (i + opcodeJumpOffset op) = some n := by
  rw [jumpTarget, Option.bind_eq_bind, Option.bind_eq_some_iff] at jump
  obtain ⟨op, here, jump⟩ := jump
  split at jump
  case isFalse => cases jump
  case isTrue jumps =>
    simp only [Option.bind_eq_bind, Option.bind_eq_some_iff] at jump
    obtain ⟨_, _, n, number, _⟩ := jump
    exact ⟨op, n, here, jumps, number⟩

theorem jumpTarget_number {length number : Int} (here : code[i]? = some op)
    (jumps : opcodeCanJump op) (long : opcodeLength code i = some length)
    (operand : numberAt code (i + opcodeJumpOffset op) = some number) :
    jumpTarget code i = some (i + length + (number + opcodeJumpAdjustment op)) := by
  rw [jumpTarget, here, long, Option.bind_eq_bind, Option.bind_some, if_pos jumps, operand]
  rfl

section Interpreted

def landing : Frames.Instr → Option Int
  | .jumpTo offset => some (offset - 1)
  | .branchIfTrue _ offset => some (offset - 1)
  | .branchIfFalse _ offset => some (offset - 1)
  | .inlinePrimitiveCheck _ _ _ jump _ => some jump
  | .inlineMethodCheck _ jump _ => some jump
  | _ => none

end Interpreted
theorem WellFormed.first (wf : WellFormed code) (boundary : Boundary code i)
    (inside : i < code.length) : ∃ x : Aimed, code[i]? = some x.instruction.op ∧
      code.drop i = x.words i ++ code.drop (i + x.length) ∧
      opcodeLength code i = some (x.length : Int) ∧
      (x.canJump → jumpTarget code i = some x.target) := by
  obtain ⟨op, args, here, arg, within⟩ := wf.whole i boundary inside
  have length : opcodeLength code i = some ((1 + opcodeBaseLength op + args : Nat) : Int) := by
    rw [opcodeLength, here, arg]
    push_cast
    rfl
  have split : code.drop i = op :: code.drop (i + 1) := by
    rw [List.drop_eq_getElem_cons inside]
    rw [List.getElem?_eq_getElem inside] at here
    rw [Option.some.inj here]
  let operands := (code.drop (i + 1)).take (opcodeBaseLength op + args)
  have count : operands.length = opcodeBaseLength op + args := by simp [operands]; omega
  have read (k : Nat) (below : k ≤ opcodeBaseLength op) : (op :: operands)[k]? = code[i + k]? := by
    rw [← List.getElem?_drop, split]
    cases k with
    | zero => rfl
    | succ k =>
      rw [List.getElem?_cons_succ, List.getElem?_cons_succ, List.getElem?_take_of_lt]
      omega
  have jumps (jump : opcodeCanJump op) : ∃ n : Int,
      numberAt (op :: operands) (opcodeJumpOffset op) = some n ∧
        jumpTarget code i = some (i + (1 + opcodeBaseLength op + args : Nat) +
          (n + opcodeJumpAdjustment op)) := by
    obtain ⟨t, target, _⟩ := wf.lands i op boundary here jump
    obtain ⟨_, n, here', _, number⟩ := jumpTarget_some target
    cases here.symm.trans here'
    exact ⟨n, by rw [numberAt, read _ (opcodeJumpOffset_bounds jump).2]; exact number,
      jumpTarget_number here jump length number⟩
  let instruction : Instruction :=
    { op := op, operands := operands, long := by omega,
      whole := by
        have same := @opcodeLength_congr code (op :: operands) op i 0 here fun k within _ => by
          rw [Nat.zero_add]
          exact read k within
        rw [same, length, count]
        congr 2
        omega
      jumps := fun jump => (jumps jump).imp fun _ number => number.1 }
  have long : instruction.length = 1 + opcodeBaseLength op + args := by
    simp only [instruction, Instruction.length]
    omega
  refine ⟨⟨instruction, (jumpTarget code i).getD 0⟩, here, ?_, ?_, ?_⟩
  · have words : code.drop i = instruction.words ++ code.drop (i + instruction.length) := by
      have rest : operands ++ code.drop (i + instruction.length) = code.drop (i + 1) := by
        rw [long, show i + (1 + opcodeBaseLength op + args) =
          i + 1 + (opcodeBaseLength op + args) by omega, ← List.drop_drop, List.take_append_drop]
      rw [split, ← rest]
      rfl
    rw [words]
    congr 1
    by_cases jump : opcodeCanJump op
    · obtain ⟨n, number, target⟩ := jumps jump
      have aim : (i : Int) + (1 + opcodeBaseLength op + args : Nat) + (n + opcodeJumpAdjustment op) -
          (i + instruction.length : Nat) - opcodeJumpAdjustment op = n := by
        rw [long]
        push_cast
        ring
      have same : instruction.words.set (opcodeJumpOffset op) (.smallint n) = instruction.words :=
        set_number number
      rw [← same, ← aim, target, Option.getD_some]
      exact (if_pos jump).symm
    · exact (if_neg jump).symm
  · rw [length, ← long]
    rfl
  · intro jump
    obtain ⟨n, _, target⟩ := jumps jump
    rw [target, Option.getD_some]

def Lands (code : Code) (zs : List Aimed) : Prop :=
  ∀ z ∈ zs, z.canJump → ∃ t : Nat, z.target = t ∧ Boundary code t

theorem WellFormed.rest (wf : WellFormed code) (boundary : Boundary code i) :
    ∃ zs, code.drop i = render i zs ∧ Lands code zs := by
  induction left : code.length - i using Nat.strong_induction_on generalizing i with
  | _ k ih =>
    by_cases inside : i < code.length
    · obtain ⟨x, here, split, length, jumps⟩ := wf.first boundary inside
      have positive := x.length_pos
      obtain ⟨zs, rest, lands⟩ := ih _ (by omega) (boundary.next inside length) rfl
      refine ⟨x :: zs, by rw [split, rest, render], ?_⟩
      intro z mem jump
      rcases List.mem_cons.mp mem with rfl | mem
      · obtain ⟨t, target, landing⟩ := wf.lands i _ boundary here jump
        exact ⟨t, Option.some.inj ((jumps jump).symm.trans target), landing⟩
      · exact lands z mem jump
    · exact ⟨[], List.drop_eq_nil_of_le (by omega), fun _ mem => (nomatch mem)⟩

theorem WellFormed.rendered (wf : WellFormed code) :
    ∃ zs, code = render 0 zs ∧ Lands code zs := wf.rest .start

section Places

variable {zs xs ys : List Aimed} {x : Aimed} {f : Int → Int}

theorem render_at : render p (xs ++ x :: ys) = render p xs ++ (x.words (p + extent xs) ++
    render (p + extent xs + x.length) ys) := by
  rw [render_append, render]

theorem boundary_render :
    Boundary (render 0 zs) i ↔ ∃ xs ys, zs = xs ++ ys ∧ i = extent xs := by
  constructor
  · intro boundary
    induction boundary with
    | start => exact ⟨[], zs, rfl, rfl⟩
    | @next i n boundary inside length ih =>
      obtain ⟨xs, ys, rfl, rfl⟩ := ih
      cases ys with
      | nil => simp at inside
      | cons x ys =>
        have read := (read_words x (render (extent xs + x.length) ys) (@length_render 0 xs)).2
        rw [render_at, Nat.zero_add, read] at length
        refine ⟨xs ++ [x], ys, by simp, ?_⟩
        have same : (x.length : Int) = n := Option.some.inj length
        simp only [extent_append, extent_cons, extent_nil]
        omega
  · rintro ⟨xs, ys, rfl, rfl⟩
    induction xs using List.reverseRecOn generalizing ys with
    | nil => exact .start
    | append_singleton xs x ih =>
      have read := (read_words x (render (extent xs + x.length) ys) (@length_render 0 xs)).2
      have positive := x.length_pos
      have before := ih (x :: ys)
      rw [List.append_assoc, List.singleton_append, extent_append, extent_cons, extent_nil]
      refine before.next (by simp; omega) ?_
      rw [render_at, Nat.zero_add, read, Nat.add_zero]

theorem jump_render {t : Int} (boundary : Boundary (render 0 zs) i)
    (jump : jumpTarget (render 0 zs) i = some t) :
    ∃ xs x ys, zs = xs ++ x :: ys ∧ i = extent xs ∧ x.canJump ∧ x.target = t := by
  obtain ⟨xs, ys, rfl, rfl⟩ := boundary_render.mp boundary
  cases ys with
  | nil =>
    obtain ⟨_, _, here, _⟩ := jumpTarget_some jump
    rw [List.append_nil, List.getElem?_eq_none (by simp)] at here
    cases here
  | cons x ys =>
    rw [render_at, Nat.zero_add, jumpTarget_words x _ length_render] at jump
    split at jump
    case isTrue jumps => exact ⟨xs, x, ys, rfl, rfl, jumps, Option.some.inj jump⟩
    case isFalse => cases jump

theorem jumpTarget_retarget {pre : Code} (post : Code) (f : Int → Int) (jumps : x.canJump)
    (place : pre.length = p) :
    jumpTarget (pre ++ (render p ((xs ++ x :: ys).map (Aimed.retarget f)) ++ post))
      (p + extent xs) = some (f x.target) := by
  have there : (pre ++ render p (xs.map (Aimed.retarget f))).length = p + extent xs := by
    simp [place]
  rw [List.map_append, List.map_cons, render_at, extent_retarget, List.append_assoc,
    List.append_assoc, ← List.append_assoc pre, jumpTarget_words _ _ there]
  exact if_pos jumps

theorem render_kept {q k : Nat} (kept : ∀ as x bs, xs = as ++ x :: bs → x.canJump →
      k ≠ extent as + opcodeJumpOffset x.instruction.op) :
    (render q (xs.map (Aimed.retarget f)))[k]? = (render p xs)[k]? := by
  induction xs generalizing p q k with
  | nil => rfl
  | cons x xs ih =>
    rw [List.map_cons, render, render]
    have length : ((x.retarget f).words q).length = (x.words p).length := by simp
    by_cases inside : k < (x.words p).length
    · rw [List.getElem?_append_left (by rwa [length]), List.getElem?_append_left inside,
        Aimed.words, Aimed.words, Instruction.getElem?_aimed, Instruction.getElem?_aimed]
      · rfl
      all_goals
        intro jumps
        have apart := kept [] x xs rfl jumps
        rwa [extent_nil, Nat.zero_add] at apart
    · rw [List.getElem?_append_right (by omega), List.getElem?_append_right (by omega), length]
      refine ih fun as y bs split jumps => ?_
      have apart := kept (x :: as) y bs (by rw [split]; rfl) jumps
      rw [extent_cons] at apart
      rw [x.length_words] at inside ⊢
      omega

end Places

def JumpOperand (code : Code) (p : Nat) : Prop :=
  ∃ i op, Boundary code i ∧ code[i]? = some op ∧ opcodeCanJump op ∧ p = i + opcodeJumpOffset op

theorem operand_render {zs as bs : List Aimed} {x : Aimed} (split : zs = as ++ x :: bs)
    (jumps : x.canJump) :
    JumpOperand (render 0 zs) (extent as + opcodeJumpOffset x.instruction.op) := by
  subst split
  refine ⟨_, x.instruction.op, boundary_render.mpr ⟨as, x :: bs, rfl, rfl⟩, ?_, jumps, rfl⟩
  rw [render_at, Nat.zero_add]
  exact (read_words x _ length_render).1

def insertedPlace (offset n p : Nat) : Nat := if p < offset then p else p + n

/-- The old words stand around the new ones, and a jump lands at the word where it landed. One
from before the new code to their place lands at the new code. -/
structure Inserted (code newCode : Code) (offset : Nat) (code' : Code) : Prop where
  length : code'.length = code.length + newCode.length
  inside : ∀ k < newCode.length, code'[offset + k]? = newCode[k]?
  kept : ∀ p < code.length, ¬ JumpOperand code p →
    code'[insertedPlace offset newCode.length p]? = code[p]?
  jumps : ∀ i t : Nat, Boundary code i → jumpTarget code i = some (t : Int) →
    jumpTarget code' (insertedPlace offset newCode.length i) =
      some ((if i < offset ∧ t = offset then offset
        else insertedPlace offset newCode.length t : Nat) : Int)

theorem adjust_past : adjust (isPast offset) (n : Int) (t : Int) =
    (if t = offset then offset else insertedPlace offset n t : Nat) := by
  unfold adjust isPast insertedPlace
  simp only [Bool.or_eq_true, decide_eq_true_eq]
  split <;> split <;> (try split) <;> push_cast <;> omega

theorem insertedAfter_place :
    insertedAfter offset n (t : Int) = (insertedPlace offset n t : Int) := by
  unfold insertedAfter adjust isBefore insertedPlace
  simp only [Bool.and_eq_true, decide_eq_true_eq]
  split <;> split <;> push_cast <;> omega

theorem split_cases {α : Type} {xs ys as bs : List α} {x : α} (split : xs ++ ys = as ++ x :: bs) :
    (∃ cs, xs = as ++ x :: cs ∧ bs = cs ++ ys) ∨ (∃ cs, as = xs ++ cs ∧ ys = cs ++ x :: bs) := by
  rcases List.append_eq_append_iff.mp split with ⟨cs, before, after⟩ | ⟨cs, before, after⟩
  · exact .inr ⟨cs, before, after⟩
  · cases cs with
    | nil => exact .inr ⟨[], by simpa using before.symm, after.symm⟩
    | cons y cs =>
      cases after
      exact .inl ⟨cs, before, rfl⟩

theorem insertCode_inserted {zs xs ys : List Aimed} (split : zs = xs ++ ys) (newCode : Code) :
    ∃ code', insertCode (render 0 zs) (extent xs) newCode = some code' ∧
      Inserted (render 0 zs) newCode (extent xs) code' := by
  refine ⟨_, by rw [split]; exact insertCode_render xs ys newCode, ?_⟩
  subst split
  constructor
  · simp only [List.length_append, length_render, extent_retarget, extent_append]
    omega
  · intro k below
    rw [List.getElem?_append_left (by simp; omega), List.getElem?_append_right (by simp)]
    simp
  · intro p within operand
    unfold insertedPlace
    rw [render_append, Nat.zero_add]
    split
    case isTrue before =>
      rw [List.getElem?_append_left (by simp; omega), List.getElem?_append_left (by simpa),
        List.getElem?_append_left (by simpa)]
      refine render_kept fun as x bs split jumps same => operand ?_
      rw [same]
      exact operand_render (by rw [split, List.append_assoc]; rfl) jumps
    case isFalse after =>
      rw [List.getElem?_append_right (by simp; omega), List.getElem?_append_right (by simp; omega)]
      simp only [List.length_append, length_render, extent_retarget]
      rw [show p + newCode.length - (extent xs + newCode.length) = p - extent xs by omega]
      refine render_kept fun as x bs split jumps same => operand ?_
      have found := @operand_render (xs ++ ys) (xs ++ as) bs x (by rw [split, List.append_assoc]) jumps
      rw [extent_append] at found
      rwa [show p = extent xs + extent as + opcodeJumpOffset x.instruction.op by omega]
  · intro i t boundary jump
    obtain ⟨as, x, bs, split, rfl, jumps, target⟩ := jump_render boundary jump
    rcases split_cases split with ⟨cs, rfl, rfl⟩ | ⟨cs, rfl, rfl⟩
    · have positive := x.length_pos
      have before : extent as < extent (as ++ x :: cs) := by simp; omega
      rw [insertedPlace, if_pos before, List.append_assoc]
      have found := @jumpTarget_retarget 0 as cs x [] (newCode ++
        render (extent (as ++ x :: cs) + newCode.length) (ys.map (Aimed.retarget
          (insertedAfter (extent (as ++ x :: cs)) newCode.length))))
        (adjust (isPast (extent (as ++ x :: cs))) newCode.length) jumps rfl
      rw [Nat.zero_add, target, adjust_past] at found
      simpa only [before, true_and, List.nil_append] using found
    · have after : ¬ extent (xs ++ cs) < extent xs := by simp
      have found := @jumpTarget_retarget (extent xs + newCode.length) cs bs x
        (render 0 (xs.map (Aimed.retarget (adjust (isPast (extent xs)) newCode.length))) ++ newCode)
        [] (insertedAfter (extent xs) newCode.length) jumps (by simp)
      rw [List.append_nil, target, insertedAfter_place, Nat.add_right_comm, ← extent_append] at found
      rw [insertedPlace, if_neg after]
      simpa only [after, false_and, if_false] using found

/-- Where a word goes when the `n` words at the offset are deleted. -/
def deletedPlace (offset n p : Nat) : Nat := if p < offset then p else p - n

/-- The other words stay, and a jump lands at the word where it landed, or at the one after the
deleted words if it landed at these. -/
structure Deleted (code : Code) (offset n : Nat) (code' : Code) : Prop where
  length : code'.length + n = code.length
  kept : ∀ p < code.length, p < offset ∨ offset + n ≤ p → ¬ JumpOperand code p →
    code'[deletedPlace offset n p]? = code[p]?
  jumps : ∀ i t : Nat, Boundary code i → jumpTarget code i = some (t : Int) →
    jumpTarget code' (deletedPlace offset n i) =
      some ((deletedPlace offset n (if t = offset then offset + n else t) : Nat) : Int)

theorem adjust_deleted (outside : t ≤ offset ∨ offset + n ≤ t) :
    adjust (isPast offset) (-n) (t : Int) =
      (deletedPlace offset n (if t = offset then offset + n else t) : Nat) := by
  unfold adjust isPast deletedPlace
  simp only [Bool.or_eq_true, decide_eq_true_eq]
  split <;> split <;> split <;> omega

theorem deletedAfter_place (outside : t ≤ offset ∨ offset + n ≤ t) : deletedAfter offset n (t : Int) =
    (deletedPlace offset n (if t = offset then offset + n else t) : Nat) := by
  rw [← adjust_deleted outside]
  unfold deletedAfter adjust
  by_cases past : isPast offset (t : Int) <;> simp [past, Int.sub_eq_add_neg]

theorem boundary_outside {xs ys : List Aimed} {z : Aimed}
    (boundary : Boundary (render 0 (xs ++ z :: ys)) t) :
    t ≤ extent xs ∨ extent xs + z.length ≤ t := by
  obtain ⟨as, bs, split, rfl⟩ := boundary_render.mp boundary
  rcases split_cases split.symm with ⟨cs, rfl, _⟩ | ⟨cs, rfl, _⟩
  · right
    simp only [extent_append, extent_cons]
    omega
  · left
    simp

theorem deleteCode_deleted {zs xs ys : List Aimed} {z : Aimed} (split : zs = xs ++ z :: ys)
    (lands : Lands (render 0 zs) zs) (still : ¬ z.canJump) :
    ∃ code', deleteCode (render 0 zs) (extent xs) z.length = some code' ∧
      Deleted (render 0 zs) (extent xs) z.length code' := by
  refine ⟨_, by rw [split]; exact deleteCode_render xs ys z, ?_⟩
  subst split
  constructor
  · simp only [length_render, extent_append, extent_retarget, extent_cons]
    omega
  · intro p within outside operand
    unfold deletedPlace
    rw [render_append, render_append, extent_retarget, Nat.zero_add, render]
    split
    case isTrue before =>
      rw [List.getElem?_append_left (by simpa), List.getElem?_append_left (by simpa)]
      refine render_kept fun as x bs split jumps same => operand ?_
      rw [same]
      exact operand_render (by rw [split, List.append_assoc]; rfl) jumps
    case isFalse after =>
      have positive := z.length_pos
      rw [List.getElem?_append_right (by simp; omega), List.getElem?_append_right (by simp; omega),
        List.getElem?_append_right (by simp; omega)]
      simp only [length_render, extent_retarget, Aimed.length_words]
      rw [show p - z.length - extent xs = p - extent xs - z.length by omega]
      refine render_kept fun as x bs split jumps same => operand ?_
      have found := @operand_render (xs ++ z :: ys) (xs ++ z :: as) bs x
        (by rw [split, List.append_assoc]; rfl) jumps
      rw [extent_append, extent_cons] at found
      rwa [show p = extent xs + (z.length + extent as) +
        opcodeJumpOffset x.instruction.op by omega]
  · intro i t boundary jump
    obtain ⟨as, x, bs, split, rfl, jumps, target⟩ := jump_render boundary jump
    obtain ⟨t', target', landing⟩ := lands x (by rw [split]; simp) jumps
    have same : t' = t := Int.ofNat_inj.mp (target'.symm.trans target)
    have outside := boundary_outside (same ▸ landing)
    rcases split_cases split with ⟨cs, rfl, rfl⟩ | ⟨cs, rfl, rest⟩
    · have positive := x.length_pos
      have before : extent as < extent (as ++ x :: cs) := by simp; omega
      rw [deletedPlace, if_pos before, render_append]
      have found := @jumpTarget_retarget 0 as cs x [] (render (extent (as ++ x :: cs))
        (ys.map (Aimed.retarget (deletedAfter (extent (as ++ x :: cs)) z.length))))
        (adjust (isPast (extent (as ++ x :: cs))) (-z.length)) jumps rfl
      rw [Nat.zero_add, target, adjust_deleted outside] at found
      simpa only [List.nil_append, extent_retarget, Nat.zero_add] using found
    · cases cs with
      | nil =>
        cases rest
        exact absurd jumps still
      | cons c cs =>
        cases rest
        have after : ¬ extent (xs ++ z :: cs) < extent xs := by simp
        have place : extent (xs ++ z :: cs) - z.length = extent xs + extent cs := by simp; omega
        have found := @jumpTarget_retarget (extent xs) cs bs x
          (render 0 (xs.map (Aimed.retarget (adjust (isPast (extent xs)) (-z.length)))))
          [] (deletedAfter (extent xs) z.length) jumps (by simp)
        rw [List.append_nil, target, deletedAfter_place outside, ← place] at found
        rw [deletedPlace, if_neg after, render_append]
        simpa only [extent_retarget, Nat.zero_add, List.append_eq] using found

/-- Inserting code at a boundary and deleting an instruction that is no jump keep what every
jump of well-formed code lands at. -/
theorem splicing_preserves_jumps (wf : WellFormed code) (boundary : Boundary code offset) :
    (∀ newCode, ∃ code', insertCode code offset newCode = some code' ∧
      Inserted code newCode offset code') ∧
    (∀ op n, code[offset]? = some op → ¬ opcodeCanJump op →
      opcodeLength code offset = some ((n : Nat) : Int) →
      ∃ code', deleteCode code offset n = some code' ∧ Deleted code offset n code') := by
  obtain ⟨zs, rfl, lands⟩ := wf.rendered
  obtain ⟨xs, ys, split, rfl⟩ := boundary_render.mp boundary
  refine ⟨fun newCode => insertCode_inserted split newCode, ?_⟩
  intro op n here still length
  cases ys with
  | nil =>
    rw [split, List.append_nil, List.getElem?_eq_none (by simp)] at here
    cases here
  | cons z ys =>
    have read := read_words z (render (extent xs + z.length) ys) (@length_render 0 xs)
    have code : render 0 zs = render 0 xs ++ (z.words (extent xs) ++
        render (extent xs + z.length) ys) := by rw [split, render_at, Nat.zero_add]
    rw [← code] at read
    have same : z.length = n := Int.ofNat_inj.mp (Option.some.inj (read.2.symm.trans length))
    have same' : z.instruction.op = op := Option.some.inj (read.1.symm.trans here)
    rw [← same]
    rw [← same'] at still
    exact deleteCode_deleted split lands still

def skipsReturn : Code := [Opcode.branchIfTrue.word, .smallint 0, .smallint 3,
  Opcode.returnRegister.word, .smallint 0, Opcode.returnRegister.word, .smallint 1]

theorem skipsReturn_boundary (boundary : Boundary skipsReturn i) : i ∈ [0, 3, 5, 7] := by
  induction boundary with
  | start => decide
  | @next i n _ inside length ih =>
    have lengths : ∀ i ∈ [0, 3, 5, 7], i < skipsReturn.length →
        opcodeLength skipsReturn i = some (if i = 0 then 3 else 2) := by decide
    have same : (if i = 0 then 3 else 2 : Int) = n :=
      Option.some.inj ((lengths i ih inside).symm.trans length)
    have below : i < 7 := inside
    simp only [List.mem_cons, List.not_mem_nil, or_false] at ih ⊢
    split at same <;> omega

theorem skipsReturn_wellFormed : WellFormed skipsReturn where
  whole := by
    intro i boundary inside
    have below : i < 7 := inside
    have place := skipsReturn_boundary boundary
    simp only [List.mem_cons, List.not_mem_nil, or_false] at place
    rcases place with rfl | rfl | rfl | rfl
    · exact ⟨_, 0, rfl, rfl, by decide⟩
    · exact ⟨_, 0, rfl, rfl, by decide⟩
    · exact ⟨_, 0, rfl, rfl, by decide⟩
    · omega
  lands := by
    intro i op boundary here jumps
    have place := skipsReturn_boundary boundary
    simp only [List.mem_cons, List.not_mem_nil, or_false] at place
    rcases place with rfl | rfl | rfl | rfl
    · exact ⟨5, by decide, .next (.next .start (by decide) (n := 3) rfl) (by decide) (n := 2) rfl⟩
    · cases here
      exact absurd jumps (by decide)
    · cases here
      exact absurd jumps (by decide)
    · cases here

theorem skipsReturn_spliced : (∀ newCode, ∃ code', insertCode skipsReturn 3 newCode = some code' ∧
      Inserted skipsReturn newCode 3 code') ∧
    (∀ op n, skipsReturn[3]? = some op → ¬ opcodeCanJump op →
      opcodeLength skipsReturn 3 = some ((n : Nat) : Int) →
      ∃ code', deleteCode skipsReturn 3 n = some code' ∧ Deleted skipsReturn 3 n code') :=
  splicing_preserves_jumps skipsReturn_wellFormed (.next .start (by decide) (n := 3) rfl)

end SlateVm.Optimizer
