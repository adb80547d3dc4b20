import SlateVm.Collections.SubSequences

/-! `shiftFrom:by:count:`, `rotate` and `rotated`: moving elements within a sequence. -/
namespace SlateVm.Collections

variable {α : Type}

section Model

variable [Inhabited α]

def copyBelow (cs : List α) (start stop : Int) : Option (List α) :=
  if stop - 1 < start ∨ cs = [] then some []
  else replaceFrom (List.replicate (stop - start).toNat default) 0 (stop - 1 - start) cs start

def shiftStep (items : Int) (state : List α × Int) : Option (List α × Int) := do
  let obj ← arrayAt state.1 (state.2 + items)
  let cs ← arrayPut state.1 state.2 obj
  some (cs, state.2 + items.sign)

/-- `timesRepeat:` around it. -/
def shiftSteps (items : Int) : Nat → List α × Int → Option (List α × Int)
  | 0, state => some state
  | steps + 1, state => (shiftStep items state).bind (shiftSteps items steps)

def replaceAllFrom (cs : List α) (start : Int) (replacement : List α) : Option (List α) :=
  replaceFrom cs start (start + (replacement.length - 1)) replacement 0

/-- `shiftFrom:by:count:` behind the test for negative steps. -/
def shiftBlock (cs : List α) (index : Int) (steps : Nat) (items : Int) (elems : List α) :
    Option (List α) := do
  let (cs, index) ← shiftSteps items steps (cs, index)
  replaceAllFrom cs (if items < 0 then index + (items + 1) else index) elems

def shiftFrom (cs : List α) (index steps items : Int) : Option (List α) := do
  let items : Int := items.natAbs
  let elems ← copyBelow cs index (index + items)
  if steps < 0 then shiftBlock cs (index + (items - 1)) steps.natAbs (-items) elems
  else shiftBlock cs index steps.toNat items elems

/-- `rotate &times:`; `mod:` is the remainder with the sign of the dividend, and fails for
zero. -/
def rotate (cs : List α) (count : Int) : Option (List α) :=
  if cs.length = 0 then none
  else
    let count := count.tmod cs.length
    if 0 < count then shiftFrom cs (cs.length - count) (count - cs.length) count
    else shiftFrom cs 0 (cs.length + count) count

def sliceFrom (cs : List α) (start : Int) : Option (List α) :=
  if start ≤ cs.length then some (cs.drop start.toNat) else none

def rotated (cs : List α) (count : Int) : Option (List α) :=
  if cs.length = 0 ∨ count = 0 then some cs
  else do
    let count := count.tmod cs.length
    let index := (cs.length - count).tmod cs.length
    let slice ← sliceFrom cs index
    let result ← replaceAllFrom (List.replicate cs.length default) 0 slice
    replaceAllFrom result (cs.length - index) cs

end Model

structure Rotated (cs cs' : List α) (k : Int) : Prop where
  size : cs'.length = cs.length
  moves : ∀ i : Nat, i < cs.length → cs'[((i + k) % cs.length).toNat]? = cs[i]?

def Shifted (cs cs' : List α) (index steps count : Int) : Prop :=
  ∃ front block passed back, block.length = count.natAbs ∧ passed.length = steps.natAbs ∧
    (0 ≤ steps ∧ index = front.length ∧ cs = front ++ (block ++ (passed ++ back)) ∧
        cs' = front ++ (passed ++ (block ++ back)) ∨
      steps < 0 ∧ index + steps = front.length ∧ cs = front ++ (passed ++ (block ++ back)) ∧
        cs' = front ++ (block ++ (passed ++ back)))

def ShiftsInside (cs : List α) (index steps count : Int) : Prop :=
  0 ≤ index ∧ index + count.natAbs ≤ cs.length ∧ 0 ≤ index + steps ∧
    index + steps + count.natAbs ≤ cs.length

section Shifting

attribute [local simp] shiftSteps

variable {cs front block passed back : List α}

theorem shiftSteps_up (passed front junk back : List α) (m : Int) (size : m = junk.length)
    (some_ : 0 < m) :
    ∃ junk', junk'.length = junk.length ∧
      shiftSteps m passed.length (front ++ (junk ++ (passed ++ back)), front.length) =
        some (front ++ (passed ++ (junk' ++ back)),
          ((front.length + passed.length : Nat) : Int)) := by
  induction passed generalizing front junk with
  | nil => exact ⟨junk, rfl, by simp [shiftSteps]⟩
  | cons p passed ih =>
    obtain ⟨j, js, rfl⟩ : ∃ j js, junk = j :: js := List.exists_cons_of_length_pos (by omega)
    have read : arrayAt (front ++ (j :: js ++ (p :: passed ++ back))) (front.length + m) =
        some p := by
      rw [show ((front.length : Int) + m) = ((front.length + (j :: js).length : Nat) : Int) by
        omega, arrayAt_nat, List.getElem?_append_right (Nat.le_add_right ..),
        Nat.add_sub_cancel_left, List.getElem?_append_right (Nat.le_refl _), Nat.sub_self]
      rfl
    have write : arrayPut (front ++ (j :: js ++ (p :: passed ++ back))) front.length p =
        some ((front ++ [p]) ++ ((js ++ [p]) ++ (passed ++ back))) := by
      rw [arrayPut_nat (by simp)]
      simp
    have sign : m.sign = 1 := Int.sign_eq_one_of_pos some_
    obtain ⟨junk', same, run⟩ := ih (front ++ [p]) (js ++ [p]) (by
      rw [size]
      simp)
    refine ⟨junk', by simpa using same, ?_⟩
    rw [List.length_cons, shiftSteps, shiftStep]
    simp only [read, write, sign, Option.bind_eq_bind, Option.bind_some]
    simp only [List.length_append, List.length_singleton, Int.natCast_add, Int.natCast_one] at run
    rw [run]
    simp only [List.append_assoc, List.cons_append, List.nil_append]
    congr 2
    omega

theorem shiftSteps_down (front passed junk back : List α) (m : Int) (size : m = junk.length)
    (some_ : 0 < m) :
    ∃ junk', junk'.length = junk.length ∧
      shiftSteps (-m) passed.length (front ++ (passed ++ (junk ++ back)),
          front.length + passed.length + (m - 1)) =
        some (front ++ (junk' ++ (passed ++ back)), front.length + (m - 1)) := by
  induction passed using List.reverseRecOn generalizing junk back with
  | nil => exact ⟨junk, rfl, by simp [shiftSteps]⟩
  | append_singleton passed p ih =>
    obtain ⟨js, j, rfl⟩ : ∃ js j, junk = js ++ [j] := by
      have nonempty : junk ≠ [] := List.length_pos_iff.mp (by omega)
      exact ⟨junk.dropLast, junk.getLast nonempty, (List.dropLast_append_getLast nonempty).symm⟩
    rw [List.length_append, List.length_singleton] at size
    have from_ : ((front.length : Int) + (passed ++ [p]).length + (m - 1) + -m) =
        ((front.length + passed.length : Nat) : Int) := by
      rw [List.length_append, List.length_singleton]
      omega
    have to_ : ((front.length : Int) + (passed ++ [p]).length + (m - 1)) =
        ((front ++ (passed ++ ([p] ++ js))).length : Nat) := by
      simp only [List.length_append, List.length_singleton]
      omega
    have read : arrayAt (front ++ (passed ++ [p] ++ (js ++ [j] ++ back)))
        ((front.length : Int) + (passed ++ [p]).length + (m - 1) + -m) = some p := by
      rw [from_, arrayAt_nat, List.getElem?_append_right (Nat.le_add_right ..),
        Nat.add_sub_cancel_left, List.append_assoc, List.getElem?_append_right (Nat.le_refl _),
        Nat.sub_self]
      rfl
    have write : arrayPut (front ++ (passed ++ [p] ++ (js ++ [j] ++ back)))
        ((front.length : Int) + (passed ++ [p]).length + (m - 1)) p =
          some (front ++ (passed ++ ((p :: js) ++ ([p] ++ back)))) := by
      have whole : front ++ (passed ++ [p] ++ (js ++ [j] ++ back)) =
          (front ++ (passed ++ ([p] ++ js))) ++ j :: back := by simp
      rw [to_, whole, arrayPut_nat (by simp),
        List.set_append_right _ _ (Nat.le_refl _), Nat.sub_self]
      simp
    have sign : (-m).sign = -1 := by
      rw [Int.sign_neg, Int.sign_eq_one_of_pos some_]
    obtain ⟨junk', same, run⟩ := ih (p :: js) ([p] ++ back) (by
      rw [size, List.length_cons])
    refine ⟨junk', by simpa using same, ?_⟩
    rw [show (passed ++ [p]).length = passed.length + 1 by simp, shiftSteps, shiftStep]
    rw [show (passed ++ [p]).length = passed.length + 1 by simp] at read write
    simp only [read, write, sign, Option.bind_eq_bind, Option.bind_some]
    rw [show ((front.length : Int) + ((passed.length + 1 : Nat) : Int) + (m - 1) + -1) =
      front.length + passed.length + (m - 1) by omega, run]
    simp

theorem replaceAllFrom_middle {old source : List α} {start : Int} (first : start = front.length)
    (same : old.length = source.length) :
    replaceAllFrom (front ++ (old ++ back)) start source = some (front ++ (source ++ back)) := by
  have placed := @replaceFrom_middle α front old back [] source [] start
    (start + (source.length - 1)) 0 first (by omega) rfl same
  simp only [List.nil_append, List.append_nil] at placed
  exact placed

theorem replaceAllFrom_nothing (cs : List α) (start : Int) :
    replaceAllFrom cs start [] = some cs := by
  unfold replaceAllFrom replaceFrom
  rw [upTo_none (by simp only [List.length_nil]; omega)]
  rfl

theorem shiftSteps_still {index : Int} (steps : Nat) (inside : 0 < steps → 0 ≤ index ∧
    index < cs.length) : shiftSteps 0 steps (cs, index) = some (cs, index) := by
  induction steps with
  | zero => rfl
  | succ steps ih =>
    obtain ⟨low, high⟩ := inside (Nat.succ_pos steps)
    obtain ⟨i, rfl⟩ := Int.eq_ofNat_of_zero_le low
    have within : i < cs.length := by omega
    have there : cs[i]? = some cs[i] := List.getElem?_eq_getElem within
    have again : cs.set i cs[i] = cs := List.set_getElem_self within
    rw [shiftSteps, shiftStep]
    simp only [Int.add_zero, arrayAt_nat, there, arrayPut_nat within, again, Int.sign_zero,
      Option.bind_eq_bind, Option.bind_some]
    exact ih fun _ => ⟨low, high⟩

theorem copyBelow_block [Inhabited α] {start stop : Int} (first : start = front.length)
    (last : stop = front.length + block.length) :
    copyBelow (front ++ (block ++ back)) start stop = some block := by
  unfold copyBelow
  split
  · next nothing =>
    have none_ : block = [] := by
      rcases nothing with turned | empty
      · exact List.eq_nil_of_length_eq_zero (by omega)
      · simp only [List.append_eq_nil_iff] at empty
        exact empty.2.1
    rw [none_]
  · have placed := @replaceFrom_middle α [] (List.replicate (stop - start).toNat default) [] front
      block back 0 (stop - 1 - start) start rfl (by simp only [List.length_nil]; omega) first
      (by rw [List.length_replicate]; omega)
    simpa only [List.nil_append, List.append_nil] using placed

theorem shiftBlock_up : shiftBlock (front ++ (block ++ (passed ++ back))) front.length
    passed.length block.length block = some (front ++ (passed ++ (block ++ back))) := by
  have up : ¬ (block.length : Int) < 0 := by omega
  unfold shiftBlock
  rcases Nat.eq_zero_or_pos block.length with none_ | some_
  · obtain rfl : block = [] := List.eq_nil_of_length_eq_zero none_
    have still := @shiftSteps_still α (front ++ (passed ++ back)) front.length passed.length
      fun more => by simp only [List.length_append]; omega
    simp only [List.length_nil, Int.natCast_zero, List.nil_append, still,
      Option.bind_eq_bind, Option.bind_some, replaceAllFrom_nothing, Int.lt_irrefl, if_false]
  · obtain ⟨junk, same, run⟩ := shiftSteps_up passed front block back block.length rfl (by omega)
    have whole : front ++ (passed ++ (junk ++ back)) = (front ++ passed) ++ (junk ++ back) := by
      rw [List.append_assoc]
    simp only [run, if_neg up, Option.bind_eq_bind, Option.bind_some]
    rw [whole, replaceAllFrom_middle (by rw [List.length_append]) same, List.append_assoc]

theorem shiftBlock_down (some_ : 0 < passed.length) :
    shiftBlock (front ++ (passed ++ (block ++ back)))
        (front.length + passed.length + (block.length - 1)) passed.length (-block.length) block =
      some (front ++ (block ++ (passed ++ back))) := by
  unfold shiftBlock
  rcases Nat.eq_zero_or_pos block.length with none_ | long
  · obtain rfl : block = [] := List.eq_nil_of_length_eq_zero none_
    have still := @shiftSteps_still α (front ++ (passed ++ back))
      (front.length + passed.length + (0 - 1)) passed.length
      fun more => by simp only [List.length_append]; omega
    simp only [List.length_nil, Int.natCast_zero, List.nil_append, Int.neg_zero, still,
      Option.bind_eq_bind, Option.bind_some, replaceAllFrom_nothing, Int.lt_irrefl, if_false]
  · obtain ⟨junk, same, run⟩ :=
      shiftSteps_down front passed block back block.length rfl (by omega)
    have down : -(block.length : Int) < 0 := by omega
    simp only [run, if_pos down, Option.bind_eq_bind, Option.bind_some]
    exact replaceAllFrom_middle (by omega) same

end Shifting

section Exact

variable {cs : List α}

theorem four_parts (a b d : Nat) (fits : a + b + d ≤ cs.length) :
    ∃ w x y z, cs = w ++ (x ++ (y ++ z)) ∧ w.length = a ∧ x.length = b ∧ y.length = d := by
  refine ⟨cs.take a, (cs.drop a).take b, ((cs.drop a).drop b).take d, ((cs.drop a).drop b).drop d,
    ?_, ?_, ?_, ?_⟩
  · rw [List.take_append_drop, List.take_append_drop, List.take_append_drop]
  · rw [List.length_take]
    omega
  · rw [List.length_take, List.length_drop]
    omega
  · rw [List.length_take, List.length_drop, List.length_drop]
    omega

variable [Inhabited α] {front block passed back : List α} {index steps count : Int}

theorem shiftFrom_up (right : 0 ≤ steps) (first : index = front.length)
    (size : block.length = count.natAbs) (far : passed.length = steps.natAbs) :
    shiftFrom (front ++ (block ++ (passed ++ back))) index steps count =
      some (front ++ (passed ++ (block ++ back))) := by
  have copied := @copyBelow_block α front block (passed ++ back) _ index
    (index + count.natAbs) first (by omega)
  have shifts := @shiftBlock_up α front block passed back
  rw [size, far] at shifts
  unfold shiftFrom
  simp only [copied, if_neg (Int.not_lt.mpr right), Option.bind_eq_bind, Option.bind_some]
  rw [show steps.toNat = steps.natAbs by omega, first]
  exact shifts

theorem shiftFrom_down (left : steps < 0) (first : index = front.length + passed.length)
    (size : block.length = count.natAbs) (far : passed.length = steps.natAbs) :
    shiftFrom (front ++ (passed ++ (block ++ back))) index steps count =
      some (front ++ (block ++ (passed ++ back))) := by
  have copied := @copyBelow_block α (front ++ passed) block back _ index
    (index + count.natAbs) (by rw [List.length_append]; omega)
    (by rw [List.length_append]; omega)
  have shifts := @shiftBlock_down α front block passed back (by omega)
  rw [List.append_assoc] at copied
  rw [size, far] at shifts
  unfold shiftFrom
  simp only [copied, if_pos left, Option.bind_eq_bind, Option.bind_some]
  rw [show index + ((count.natAbs : Int) - 1) =
    front.length + (steps.natAbs : Int) + (count.natAbs - 1) by omega]
  exact shifts

theorem shiftFrom_shifts (inside : ShiftsInside cs index steps count) :
    ∃ cs', shiftFrom cs index steps count = some cs' ∧ Shifted cs cs' index steps count := by
  obtain ⟨low, high, low', high'⟩ := inside
  rcases Int.lt_or_le steps 0 with left | right
  · obtain ⟨front, passed, block, back, rfl, first, second, third⟩ :=
      @four_parts α cs (index + steps).toNat steps.natAbs count.natAbs (by omega)
    exact ⟨_, shiftFrom_down left (by omega) third second, front, block, passed, back, third,
      second, .inr ⟨left, by omega, rfl, rfl⟩⟩
  · obtain ⟨front, block, passed, back, rfl, first, second, third⟩ :=
      @four_parts α cs index.toNat count.natAbs steps.natAbs (by omega)
    exact ⟨_, shiftFrom_up right (by omega) second third, front, block, passed, back, second,
      third, .inl ⟨right, by omega, rfl, rfl⟩⟩

omit [Inhabited α] in
theorem rotated_swap (a b : List α) (k q : Int)
    (rounds : k = b.length + ((a ++ b).length : Int) * q) : Rotated (a ++ b) (b ++ a) k := by
  constructor
  · rw [List.length_append, List.length_append, Nat.add_comm]
  · intro i inside
    have place : ((i : Int) + k) % (a ++ b).length =
        ((i : Int) + b.length) % (a ++ b).length := by
      rw [rounds, ← Int.add_assoc, Int.add_mul_emod_self_left]
    rw [place]
    rw [List.length_append] at inside ⊢
    rcases Nat.lt_or_ge i a.length with front | behind
    · rw [Int.emod_eq_of_lt (by omega) (by omega), show ((i : Int) + b.length).toNat =
        b.length + i by omega, List.getElem?_append_right (by omega), Nat.add_sub_cancel_left,
        List.getElem?_append_left front]
    · rw [show ((i : Int) + b.length) = ((i : Int) - a.length) + ((a.length + b.length : Nat) : Int)
        by omega, Int.add_emod_right, Int.emod_eq_of_lt (by omega) (by omega),
        List.getElem?_append_right behind, List.getElem?_append_left (by omega)]
      congr 1
      omega

omit [Inhabited α] in
theorem two_parts {n : Nat} (fits : n ≤ cs.length) : ∃ a b, cs = a ++ b ∧ a.length = n := by
  refine ⟨cs.take n, cs.drop n, (List.take_append_drop n cs).symm, ?_⟩
  rw [List.length_take]
  omega

theorem rotate_rotates (some_ : cs ≠ []) (k : Int) :
    ∃ cs', rotate cs k = some cs' ∧ Rotated cs cs' k := by
  have long := List.length_pos_iff.mpr some_
  have whole := Int.mul_tdiv_add_tmod k cs.length
  have above := Int.tmod_lt_of_pos k (show (0 : Int) < cs.length by omega)
  have below := Int.tmod_lt_of_pos (-k) (show (0 : Int) < cs.length by omega)
  rw [Int.neg_tmod] at below
  unfold rotate
  rw [if_neg (by omega)]
  simp only
  generalize k.tmod cs.length = count at whole above below
  generalize k.tdiv cs.length = q at whole
  split
  · next right =>
    obtain ⟨a, b, rfl, first⟩ := @two_parts α cs (cs.length - count.toNat) (by omega)
    have size := @List.length_append _ a b
    have shifts := @shiftFrom_down α _ [] b a [] ((a ++ b).length - count)
      (count - (a ++ b).length) count (by omega) (by simp only [List.length_nil]; omega) (by omega)
      (by omega)
    simp only [List.nil_append, List.append_nil] at shifts
    exact ⟨b ++ a, shifts, rotated_swap a b k q (by omega)⟩
  · next left =>
    obtain ⟨a, b, rfl, first⟩ := @two_parts α cs (-count).toNat (by omega)
    have size := @List.length_append _ a b
    have shifts := @shiftFrom_up α _ [] a b [] 0 ((a ++ b).length + count) count (by omega) rfl
      (by omega) (by omega)
    simp only [List.nil_append, List.append_nil] at shifts
    refine ⟨b ++ a, shifts, rotated_swap a b k (q - 1) ?_⟩
    rw [Int.mul_sub, Int.mul_one]
    omega

omit [Inhabited α] in
theorem copyAt_behind (source : List α) (offset : Int) (indices : List Int) (cs : List α)
    (behind : ∃ i ∈ indices, (cs.length : Int) ≤ i) :
    copyAt (fun _ => source) offset indices cs = none := by
  induction indices generalizing cs with
  | nil =>
    obtain ⟨i, member, _⟩ := behind
    cases member
  | cons index indices ih =>
    unfold copyAt at ih ⊢
    rw [List.foldlM_cons]
    cases arrayAt source (offset + index) with
    | none => rfl
    | some obj =>
      simp only [Option.bind_eq_bind, Option.bind_some]
      unfold arrayPut
      split
      · rfl
      · next inside =>
        rw [Option.bind_some]
        apply ih
        obtain ⟨i, member, far⟩ := behind
        rcases List.mem_cons.mp member with rfl | later
        · omega
        · exact ⟨i, later, by simpa using far⟩

omit [Inhabited α] in
theorem copyAt_length {source : List α} {offset : Int} {indices : List Int} {cs cs' : List α}
    (run : copyAt (fun _ => source) offset indices cs = some cs') : cs'.length = cs.length := by
  induction indices generalizing cs with
  | nil =>
    cases run
    rfl
  | cons index indices ih =>
    unfold copyAt at ih run
    rw [List.foldlM_cons] at run
    simp only [Option.bind_eq_bind, Option.bind_eq_some_iff] at run
    obtain ⟨next, ⟨obj, _, put⟩, rest⟩ := run
    rw [ih rest]
    unfold arrayPut at put
    split at put
    · cases put
    · cases put
      exact List.length_set

theorem rotated_right_iff (cs : List α) (k : Int) :
    (∃ cs', rotated cs k = some cs' ∧ Rotated cs cs' k) ↔ cs = [] ∨ k = 0 := by
  unfold rotated
  constructor
  · rintro ⟨cs', run, _⟩
    split at run
    · next still =>
      rcases still with none_ | zero
      · exact .inl (List.eq_nil_of_length_eq_zero none_)
      · exact .inr zero
    · exfalso
      next moves =>
      have long : (0 : Int) < cs.length := by omega
      have above := Int.tmod_lt_of_pos (cs.length - k.tmod cs.length) long
      simp only [Option.bind_eq_bind, Option.bind_eq_some_iff] at run
      obtain ⟨slice, _, result, first, second⟩ := run
      have size := copyAt_length first
      rw [List.length_replicate] at size
      have fails := copyAt_behind cs (0 - (cs.length - (cs.length - k.tmod cs.length).tmod cs.length))
        (upTo (cs.length - (cs.length - k.tmod cs.length).tmod cs.length)
          (cs.length - (cs.length - k.tmod cs.length).tmod cs.length + (cs.length - 1))) result
        ⟨cs.length - (cs.length - k.tmod cs.length).tmod cs.length + (cs.length - 1),
          mem_upTo.mpr (by omega), by omega⟩
      unfold replaceAllFrom replaceFrom at second
      rw [fails] at second
      cases second
  · intro still
    rw [if_pos (by simpa using still)]
    refine ⟨cs, rfl, rfl, ?_⟩
    intro i inside
    rcases still with rfl | rfl
    · cases inside
    · rw [Int.add_zero, Int.emod_eq_of_lt (by omega) (by omega), Int.toNat_natCast]

/-- Rotating in place fails for the empty sequence, and the copy for all others. -/
theorem rotation_right_iff (cs : List α) (k index steps count : Int) :
    ((∃ cs', rotated cs k = some cs' ∧ Rotated cs cs' k) ∧
      (∃ cs', rotate cs k = some cs' ∧ Rotated cs cs' k) ∧
      (ShiftsInside cs index steps count →
        ∃ cs', shiftFrom cs index steps count = some cs' ∧ Shifted cs cs' index steps count)) ↔
      cs ≠ [] ∧ k = 0 := by
  rw [rotated_right_iff]
  constructor
  · rintro ⟨still, ⟨cs', run, _⟩, _⟩
    have some_ : cs ≠ [] := by
      rintro rfl
      simp [rotate] at run
    exact ⟨some_, still.resolve_left some_⟩
  · rintro ⟨some_, still⟩
    exact ⟨.inr still, rotate_rotates some_ k, shiftFrom_shifts⟩

theorem rotated_two : rotated [1, 2] 1 = none ∧ rotate ([] : List Nat) 1 = none := by
  decide

end Exact

end SlateVm.Collections
