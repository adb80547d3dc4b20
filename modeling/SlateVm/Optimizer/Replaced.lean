import SlateVm.Optimizer.Returns

/-! What is left of the jumps when all returns have been replaced. Places and aims are told in
the terms of the code before. -/
namespace SlateVm.Optimizer
open Frames (Value)

variable {rs : List Nat} {j p q r t u : Nat} {result finish d : Int}

/-- Where a word has gone when the returns at `rs` have been replaced. -/
def shifted (rs : List Nat) (p : Nat) : Nat := p + 3 * rs.countP (· < p)

/-- What becomes of a jump from `j` when the return at `r` is replaced: from before, a jump past
the return lands at the replacement, and from after, one to the return lands past it. -/
def diverted (j t r : Nat) : Nat :=
  if j < r ∧ t = r + 2 then r else if r < j ∧ t = r then r + 2 else t

/-- Where a jump from `j` to `t` aims when the returns at `rs` have been replaced. -/
def aim (rs : List Nat) (j t : Nat) : Nat := rs.foldl (diverted j) t

theorem aim_snoc : aim (rs ++ [r]) j t = diverted j (aim rs j t) r := List.foldl_concat ..

theorem aim_past (later : ∀ q ∈ rs, r + 2 ≤ q) (past : r < t) : r < aim rs j t := by
  induction rs using List.reverseRecOn with
  | nil => exact past
  | append_singleton rs q ih =>
    have here := later q (by simp)
    have before := ih fun q mem => later q (by simp [mem])
    rw [aim_snoc, diverted]
    split
    · omega
    · split
      · omega
      · exact before

theorem aim_later (later : ∀ q ∈ rs, r + 2 ≤ q) (before : j < r) : aim rs j r = r := by
  induction rs using List.reverseRecOn with
  | nil => rfl
  | append_singleton rs q ih =>
    have here := later q (by simp)
    rw [aim_snoc, ih fun q mem => later q (by simp [mem]), diverted, if_neg (by omega),
      if_neg (by omega)]

theorem aim_eq_iff (sorted : rs.Pairwise (· + 2 ≤ ·)) : aim rs j t = t ↔
    ∀ r ∈ rs, ¬ (j < r ∧ t = r + 2) ∧ ¬ (r < j ∧ t = r) := by
  induction rs with
  | nil => exact iff_of_true rfl nofun
  | cons r rs ih =>
    obtain ⟨later, sorted⟩ := List.pairwise_cons.mp sorted
    have step : aim (r :: rs) j t = aim rs j (diverted j t r) := rfl
    rw [step, List.forall_mem_cons, ← ih sorted]
    by_cases first : j < r ∧ t = r + 2
    · rw [diverted, if_pos first, aim_later later first.1]
      exact iff_of_false (by omega) fun ⟨spared, _⟩ => spared.1 first
    · by_cases second : r < j ∧ t = r
      · have past := @aim_past rs j r (r + 2) later (by omega)
        rw [diverted, if_neg first, if_pos second]
        exact iff_of_false (by omega) fun ⟨spared, _⟩ => spared.2 second
      · rw [diverted, if_neg first, if_neg second]
        exact ⟨fun same => ⟨⟨first, second⟩, same⟩, fun both => both.2⟩

theorem shifted_snoc : shifted (rs ++ [r]) p = shifted rs p + if r < p then 3 else 0 := by
  rw [shifted, shifted, List.countP_append, List.countP_singleton]
  split <;> simp_all <;> omega

theorem count_mono (rs : List Nat) (le : p ≤ q) : rs.countP (· < p) ≤ rs.countP (· < q) :=
  List.countP_mono_left fun _ _ below =>
    decide_eq_true ((of_decide_eq_true below).trans_le le)

theorem shifted_mono (rs : List Nat) (le : p ≤ q) : shifted rs p ≤ shifted rs q := by
  have := count_mono rs le
  rw [shifted, shifted]
  omega

theorem shifted_strict (rs : List Nat) (lt : p < q) : shifted rs p < shifted rs q := by
  have := count_mono rs (Nat.le_of_lt lt)
  rw [shifted, shifted]
  omega

theorem shifted_inj (same : shifted rs p = shifted rs q) : p = q := by
  rcases Nat.lt_trichotomy p q with lt | eq | gt
  · exact absurd same (Nat.ne_of_lt (shifted_strict rs lt))
  · exact eq
  · exact absurd same (Nat.ne_of_gt (shifted_strict rs gt))

theorem shifted_past (past : ∀ q ∈ rs, q < p) : shifted rs p = p + 3 * rs.length := by
  rw [shifted, List.countP_eq_length.mpr fun q mem => decide_eq_true (past q mem)]

theorem diverted_other (first : ¬ (j < r ∧ t = r + 2)) (second : ¬ (r < j ∧ t = r)) :
    diverted j t r = t := by
  rw [diverted, if_neg first, if_neg second]

section Adjusted

theorem changedBefore_low (le : t ≤ r) : changedBefore r t = t := by
  have past : isPast r (t : Int) = false := by
    simp only [isPast, Bool.or_eq_false_iff, decide_eq_false_iff_not]
    omega
  simp only [changedBefore, adjust, past, Bool.false_eq_true, if_false]

theorem changedBefore_next : changedBefore r ((r + 2 : Nat) : Int) = r := by
  have back : ((r + 2 : Nat) : Int) + -2 = r := by omega
  have past : isPast r ((r + 2 : Nat) : Int) = true := by
    simp only [isPast, Bool.or_eq_true, decide_eq_true_eq]
    omega
  have here : isPast r (r : Int) = false := by
    simp only [isPast, Bool.or_eq_false_iff, decide_eq_false_iff_not]
    omega
  simp only [changedBefore, adjust, past, if_true, back, here, Bool.false_eq_true, if_false]

theorem changedBefore_high (lt : (r : Int) + 2 < finish) :
    changedBefore r finish = finish + 3 := by
  have past (n : Int) (lt : r < n) : isPast r n = true := by
    simp only [isPast, Bool.or_eq_true, decide_eq_true_eq]
    exact .inr lt
  simp only [changedBefore, adjust, past finish (by omega), if_true, past (finish + -2) (by omega)]
  omega

theorem changedAfter_cases (outside : t ≤ r ∨ r + 2 ≤ t) :
    changedAfter r t = ((if t < r then t else if t = r then r + 5 else t + 3 : Nat) : Int) := by
  have deleted := deletedAfter_place (n := 2) outside
  rw [changedAfter, deleted, insertedAfter_place]
  unfold insertedPlace deletedPlace
  congr 1
  by_cases here : t = r
  · simp [here]
  · by_cases before : t < r
    · simp [here, before]
    · rw [if_neg here, if_neg before, if_neg (by omega), if_neg before, if_neg here]
      omega

end Adjusted

theorem changedBefore_shifted (past : ∀ q ∈ rs, q < r) (outside : u ≤ r ∨ r + 2 ≤ u)
    (before : j < r) :
    changedBefore (shifted rs r) (shifted rs u) = shifted (rs ++ [r]) (diverted j u r) := by
  have place := shifted_past past
  rcases outside with le | le
  · rw [changedBefore_low (shifted_mono rs le), diverted_other (by omega) (by omega), shifted_snoc,
      if_neg (by omega), Nat.add_zero]
  · have far : shifted rs u = u + 3 * rs.length := shifted_past fun q mem =>
      Nat.lt_of_lt_of_le (past q mem) (by omega)
    by_cases next : u = r + 2
    · have there : shifted rs u = shifted rs r + 2 := by omega
      rw [there, changedBefore_next, diverted, if_pos ⟨before, next⟩, shifted_snoc,
        if_neg (Nat.lt_irrefl r), Nat.add_zero]
    · rw [changedBefore_high (by omega), diverted_other (by omega) (by omega), shifted_snoc,
        if_pos (by omega)]
      rfl

theorem changedAfter_shifted (past : ∀ q ∈ rs, q < r) (outside : u ≤ r ∨ r + 2 ≤ u)
    (after : r < j) :
    changedAfter (shifted rs r) (shifted rs u) = shifted (rs ++ [r]) (diverted j u r) := by
  have place := shifted_past past
  have far (u : Nat) (le : r + 2 ≤ u) : shifted rs u = u + 3 * rs.length := shifted_past fun q mem =>
    Nat.lt_of_lt_of_le (past q mem) (by omega)
  rcases Nat.lt_trichotomy u r with lt | rfl | gt
  · have low := shifted_strict rs lt
    rw [changedAfter_cases (by omega), if_pos low, diverted_other (by omega) (by omega),
      shifted_snoc, if_neg (by omega), Nat.add_zero]
  · have next := far (u + 2) (Nat.le_refl _)
    rw [changedAfter_cases (by omega), if_neg (Nat.lt_irrefl _), if_pos rfl, diverted,
      if_neg (by omega), if_pos ⟨after, rfl⟩, shifted_snoc, if_pos (by omega)]
    congr 1
    omega
  · have high := far u (by omega)
    rw [changedAfter_cases (by omega), if_neg (by omega), if_neg (by omega),
      diverted_other (by omega) (by omega), shifted_snoc, if_pos (by omega)]

/-- The places of the returns in instructions that start at `p`. -/
def returnsFrom : Nat → List Aimed → List Nat
  | _, [] => []
  | p, x :: xs =>
    if x.isReturn then p :: returnsFrom (p + x.length) xs else returnsFrom (p + x.length) xs

/-- The aim of a jump from `j` as it stands in the code when the returns at `rs` are replaced. -/
def goal (rs : List Nat) (j : Nat) (t : Int) : Int := shifted rs (aim rs j t.toNat)

/-- Instructions that started at `p`, with their aims when the returns at `rs` are replaced. Those
that have been passed stand with their returns changed. -/
def layout (result finish : Int) (rs : List Nat) (changed : Bool) : Nat → List Aimed → List Aimed
  | _, [] => []
  | p, x :: xs =>
    (if changed && x.isReturn then x.replacement result finish else [x.retarget (goal rs p)]) ++
      layout result finish rs changed (p + x.length) xs

section Layout

attribute [local simp] layout returnsFrom

variable {changed : Bool} {x : Aimed} {xs ys os : List Aimed}

theorem mem_returnsFrom (mem : r ∈ returnsFrom p xs) :
    ∃ as x bs, xs = as ++ x :: bs ∧ x.isReturn ∧ r = p + extent as := by
  induction xs generalizing p with
  | nil => cases mem
  | cons x xs ih =>
    have further (mem : r ∈ returnsFrom (p + x.length) xs) :
        ∃ as y bs, x :: xs = as ++ y :: bs ∧ y.isReturn ∧ r = p + extent as := by
      obtain ⟨as, y, bs, rfl, returns, rfl⟩ := ih mem
      exact ⟨x :: as, y, bs, rfl, returns, by rw [extent_cons, Nat.add_assoc]⟩
    rw [returnsFrom] at mem
    split at mem
    case isTrue returns =>
      rcases List.mem_cons.mp mem with rfl | mem
      · exact ⟨[], x, xs, rfl, returns, rfl⟩
      · exact further mem
    case isFalse => exact further mem

theorem returnsFrom_lt (mem : r ∈ returnsFrom p xs) : r < p + extent xs := by
  obtain ⟨as, x, bs, rfl, _, rfl⟩ := mem_returnsFrom mem
  have := x.length_pos
  rw [extent_append, extent_cons]
  omega

theorem returnsFrom_ge (mem : r ∈ returnsFrom p xs) : p ≤ r := by
  obtain ⟨_, _, _, _, _, rfl⟩ := mem_returnsFrom mem
  exact Nat.le_add_right _ _

theorem returnsFrom_sorted : (returnsFrom p xs).Pairwise (· + 2 ≤ ·) := by
  induction xs generalizing p with
  | nil => exact .nil
  | cons x xs ih =>
    rw [returnsFrom]
    split
    case isTrue returns =>
      refine List.pairwise_cons.mpr ⟨fun r mem => ?_, ih⟩
      have later := returnsFrom_ge mem
      rwa [length_return returns] at later
    case isFalse => exact ih

theorem returnsFrom_append :
    returnsFrom p (xs ++ ys) = returnsFrom p xs ++ returnsFrom (p + extent xs) ys := by
  induction xs generalizing p with
  | nil => rfl
  | cons x xs ih =>
    rw [List.cons_append, returnsFrom, returnsFrom, ih, extent_cons, Nat.add_assoc]
    split <;> rfl

theorem layout_append : layout result finish rs changed p (xs ++ ys) =
    layout result finish rs changed p xs ++
      layout result finish rs changed (p + extent xs) ys := by
  induction xs generalizing p with
  | nil => rfl
  | cons x xs ih =>
    rw [List.cons_append, layout, layout, ih, extent_cons, Nat.add_assoc, List.append_assoc]

theorem extent_layout : extent (layout result finish rs true p xs) =
    extent xs + 3 * (returnsFrom p xs).length := by
  induction xs generalizing p with
  | nil => rfl
  | cons x xs ih =>
    rw [layout, returnsFrom, extent_append, ih, extent_cons, Bool.true_and]
    split
    case isTrue returns =>
      have length := length_return returns
      rw [extent_replacement, List.length_cons]
      omega
    case isFalse =>
      rw [extent_cons, extent_nil, Aimed.length_retarget]
      omega

theorem extent_layout_rest : extent (layout result finish rs false p xs) = extent xs := by
  induction xs generalizing p with
  | nil => rfl
  | cons x xs ih =>
    rw [layout, extent_append, ih, extent_cons, Bool.false_and, if_neg Bool.false_ne_true,
      extent_cons, extent_nil, Aimed.length_retarget, Nat.add_zero]

theorem layout_rest {finish' : Int} : layout result finish rs false p xs =
    layout result finish' rs false p xs := by
  induction xs generalizing p with
  | nil => rfl
  | cons x xs ih =>
    rw [layout, layout, ih, Bool.false_and, if_neg Bool.false_ne_true, if_neg Bool.false_ne_true]

theorem shifted_returns (past : extent xs ≤ p) :
    shifted (returnsFrom 0 xs) p = p + 3 * (returnsFrom 0 xs).length :=
  shifted_past fun r mem => by
    have := returnsFrom_lt mem
    omega

theorem returnsFrom_snoc (returns : x.isReturn) :
    returnsFrom 0 (xs ++ [x]) = returnsFrom 0 xs ++ [extent xs] := by
  rw [returnsFrom_append, returnsFrom, if_pos returns, returnsFrom, Nat.zero_add]

theorem extent_layout_shifted :
    extent (layout result finish (returnsFrom 0 xs) true 0 xs) =
      shifted (returnsFrom 0 xs) (extent xs) := by
  rw [extent_layout, shifted_returns (Nat.le_refl _)]

theorem words_aim {x y : Aimed} (same : x.instruction = y.instruction)
    (jumps : x.canJump → x.target = y.target) : x.words p = y.words p := by
  obtain ⟨instruction, target⟩ := x
  obtain ⟨_, target'⟩ := y
  cases same
  by_cases jump : opcodeCanJump instruction.op
  · have aims : target = target' := jumps jump
    rw [aims]
  · exact (if_neg jump).trans (if_neg jump).symm

theorem render_layout {rs' : List Nat} {finish' : Int} {f : Int → Int}
    (last : f finish = finish')
    (jumps : ∀ as x bs, xs = as ++ x :: bs → x.canJump →
      f (goal rs (p + extent as) x.target) = goal rs' (p + extent as) x.target) :
    render q ((layout result finish rs changed p xs).map (Aimed.retarget f)) =
      render q (layout result finish' rs' changed p xs) := by
  induction xs generalizing p q with
  | nil => rfl
  | cons x xs ih =>
    have rest (q : Nat) := @ih (p + x.length) q fun as y bs split jump => by
      have here := jumps (x :: as) y bs (by rw [split]; rfl) jump
      rwa [extent_cons, ← Nat.add_assoc] at here
    rw [layout, layout, List.map_append, render_append, render_append, extent_retarget]
    split
    case isTrue returns =>
      have same : render q ((x.replacement result finish).map (Aimed.retarget f)) =
          render q (x.replacement result finish') := by
        have store : ((⟨x.instruction.stored result, 0⟩ : Aimed).retarget f).words q =
            (⟨x.instruction.stored result, 0⟩ : Aimed).words q :=
          words_aim rfl fun jump => absurd jump canJump_storeOf
        rw [Aimed.replacement, Aimed.replacement, List.map_cons, render, render, store, ← last]
        rfl
      rw [rest, same]
      rfl
    case isFalse =>
      have same : render q ([x.retarget (goal rs p)].map (Aimed.retarget f)) =
          render q [x.retarget (goal rs' p)] := by
        have words : ((x.retarget (goal rs p)).retarget f).words q =
            (x.retarget (goal rs' p)).words q :=
          words_aim rfl fun jump => jumps [] x xs rfl jump
        rw [List.map_cons, List.map_nil, render, render, words]
        rfl
      rw [rest, same]
      rfl

theorem changeReturn_other {code : Code} {op : Value} {i : Nat} (here : code[i]? = some op)
    (other : ¬ isReturn op) : changeReturn result d code i = some code := by
  have apart : op ≠ Opcode.returnRegister.word ∧ op ≠ Opcode.returnValue.word := by
    simpa [isReturn] using other
  rw [changeReturn, here, Option.bind_eq_bind, Option.bind_some, if_neg apart.1, if_neg apart.2]

theorem forOps_other {fuel : Nat} (other : ¬ x.isReturn) :
    forOps List.length (changeReturn result d) (fuel + 1) (render 0 (xs ++ x :: ys)) (extent xs) =
      forOps List.length (changeReturn result d) fuel (render 0 (xs ++ x :: ys))
        (extent (xs ++ [x])) := by
  obtain ⟨here, length⟩ := read_words x (render (extent xs + x.length) ys) (@length_render 0 xs)
  have code : render 0 xs ++ (x.words (extent xs) ++ render (extent xs + x.length) ys) =
      render 0 (xs ++ x :: ys) := by rw [render_at, Nat.zero_add]
  rw [code] at here length
  have positive := x.length_pos
  have next : (extent xs : Int) + x.length = (extent (xs ++ [x]) : Nat) := by simp
  rw [forOps, if_pos (by simp; omega), changeReturn_other here other, Option.bind_eq_bind,
    Option.bind_some, length, Option.bind_eq_bind, Option.bind_some, next,
    if_pos (Int.natCast_nonneg _), Int.toNat_natCast]

theorem forOps_return {fuel : Nat} (returns : x.isReturn) :
    forOps List.length (changeReturn result d) (fuel + 2) (render 0 (xs ++ x :: ys)) (extent xs) =
      forOps List.length (changeReturn result d) fuel
        (render 0 (xs.map (Aimed.retarget (changedBefore (extent xs))) ++
          (x.replacement result ((extent (xs ++ x :: ys) : Nat) + 3 + d) ++
            ys.map (Aimed.retarget (changedAfter (extent xs)))))) (extent xs + 5) := by
  let finish : Int := (extent (xs ++ x :: ys) : Nat) + 3 + d
  let before := xs.map (Aimed.retarget (changedBefore (extent xs)))
  let after := ys.map (Aimed.retarget (changedAfter (extent xs)))
  let store : Aimed := ⟨x.instruction.stored result, 0⟩
  have place : extent before = extent xs := extent_retarget
  have positive := x.length_pos
  have read := (read_words store (render (extent before + 3) (⟨jumpOut, finish⟩ :: after))
    (@length_render 0 before)).2
  have code : render 0 before ++ (store.words (extent before) ++
      render (extent before + 3) (⟨jumpOut, finish⟩ :: after)) =
      render 0 (before ++ (x.replacement result finish ++ after)) := by
    rw [Aimed.replacement, List.cons_append, render_at, Nat.zero_add]
    rfl
  have next : (extent xs : Int) + store.length = (extent xs + 3 : Nat) := rfl
  rw [code, place] at read
  rw [forOps, if_pos (by simp; omega), changeReturn_render xs ys d returns, Option.bind_eq_bind,
    Option.bind_some, read, Option.bind_eq_bind, Option.bind_some, next,
    if_pos (Int.natCast_nonneg _), Int.toNat_natCast]
  have second := @forOps_other result d ⟨jumpOut, finish⟩ (before ++ [store]) after fuel
    jumpOut_stays
  rw [List.append_assoc, List.singleton_append, extent_append, extent_append, extent_append,
    place] at second
  exact second

end Layout

theorem aim_boundary {code : Code} (ends : ∀ r ∈ rs, Boundary code r ∧ Boundary code (r + 2))
    (boundary : Boundary code t) : Boundary code (aim rs j t) := by
  induction rs using List.reverseRecOn with
  | nil => exact boundary
  | append_singleton rs r ih =>
    have here := ends r (by simp)
    have rest := ih fun q mem => ends q (by simp [mem])
    rw [aim_snoc, diverted]
    split
    · exact here.1
    · split
      · exact here.2
      · exact rest

theorem returns_boundary {os done rest : List Aimed} (split : os = done ++ rest) :
    ∀ r ∈ returnsFrom 0 done, Boundary (render 0 os) r ∧ Boundary (render 0 os) (r + 2) := by
  intro r mem
  obtain ⟨as, x, bs, rfl, returns, rfl⟩ := mem_returnsFrom mem
  rw [Nat.zero_add]
  constructor
  · exact boundary_render.mpr ⟨as, x :: (bs ++ rest), by rw [split]; simp, rfl⟩
  · refine boundary_render.mpr ⟨as ++ [x], bs ++ rest, by rw [split]; simp, ?_⟩
    rw [extent_append, extent_cons, extent_nil, length_return returns]

theorem goal_snoc {os done rest : List Aimed} {x z : Aimed} (split : os = done ++ z :: rest)
    (lands : Lands (render 0 os) os) (returns : z.isReturn) (mem : x ∈ os) (jump : x.canJump) :
    (j < extent done → changedBefore (shifted (returnsFrom 0 done) (extent done))
        (goal (returnsFrom 0 done) j x.target) =
      goal (returnsFrom 0 done ++ [extent done]) j x.target) ∧
    (extent done < j → changedAfter (shifted (returnsFrom 0 done) (extent done))
        (goal (returnsFrom 0 done) j x.target) =
      goal (returnsFrom 0 done ++ [extent done]) j x.target) := by
  obtain ⟨t, target, boundary⟩ := lands x mem jump
  have past (q : Nat) (mem : q ∈ returnsFrom 0 done) : q < extent done := by
    simpa using returnsFrom_lt mem
  have there := @aim_boundary _ j _ _ (returns_boundary split) boundary
  rw [split] at there
  have outside := boundary_outside there
  rw [length_return returns] at outside
  rw [goal, goal, target, Int.toNat_natCast, aim_snoc]
  exact ⟨fun before => changedBefore_shifted past outside before,
    fun after => changedAfter_shifted past outside after⟩

theorem changed_layout {os done rest : List Aimed} {z : Aimed} (split : os = done ++ z :: rest)
    (lands : Lands (render 0 os) os) (positive : 0 < d) (returns : z.isReturn) :
    let rs := returnsFrom 0 done
    let rs' := returnsFrom 0 (done ++ [z])
    let place := shifted rs (extent done)
    render 0 ((layout result (shifted rs (extent os) + d) rs true 0 done).map
        (Aimed.retarget (changedBefore place)) ++
      (z.replacement result (shifted rs' (extent os) + d) ++
        (layout result (shifted rs (extent os) + d) rs false (extent done + 2) rest).map
          (Aimed.retarget (changedAfter place)))) =
    render 0 (layout result (shifted rs' (extent os) + d) rs' true 0 (done ++ [z]) ++
      layout result (shifted rs' (extent os) + d) rs' false (extent (done ++ [z])) rest) := by
  intro rs rs' place
  have length := length_return returns
  have more : rs' = rs ++ [extent done] := returnsFrom_snoc returns
  have size : extent os = extent done + 2 + extent rest := by
    rw [split, extent_append, extent_cons, length]
    omega
  have far : shifted rs (extent os) = extent os + 3 * rs.length := shifted_returns (by omega)
  have here : place = extent done + 3 * rs.length := shifted_returns (Nat.le_refl _)
  have first : changedBefore place (shifted rs (extent os) + d) = shifted rs' (extent os) + d := by
    rw [changedBefore_high (by omega), more, shifted_snoc, if_pos (by omega)]
    push_cast
    ring
  have before := @render_layout rs 0 0 result (shifted rs (extent os) + d) true done rs' _ _ first
    fun as x bs found jump => by
      have inside : extent as < extent done := by
        have := x.length_pos
        rw [found, extent_append, extent_cons]
        omega
      rw [Nat.zero_add, more]
      exact (goal_snoc split lands returns (by rw [split, found]; simp) jump).1 inside
  have after (q : Nat) := @render_layout rs (extent done + 2) q result (shifted rs (extent os) + d)
    false rest rs' _ (changedAfter place) rfl fun as x bs found jump => by
      rw [more]
      exact (goal_snoc split lands returns (by rw [split, found]; simp) jump).2 (by omega)
  have plain : layout result (changedAfter place (shifted rs (extent os) + d)) rs' false
      (extent done + 2) rest = layout result (shifted rs' (extent os) + d) rs' false
        (extent done + 2) rest := layout_rest
  have same : extent (done ++ [z]) = extent done + 2 := by
    rw [extent_append, extent_cons, extent_nil, length]
  rw [render_append, before, render_append, after, layout_append, render_append, render_append,
    layout, layout, returns, Bool.true_and, if_pos rfl, List.append_nil, List.append_assoc, same,
    extent_retarget, extent_append, extent_layout, extent_layout, plain, Nat.add_assoc]

theorem changeReturns_layout {os done rest : List Aimed} {fuel : Nat} (split : os = done ++ rest)
    (lands : Lands (render 0 os) os) (positive : 0 < d) (enough : 2 * rest.length < fuel) :
    forOps List.length (changeReturn result d) fuel
      (render 0 (layout result (shifted (returnsFrom 0 done) (extent os) + d) (returnsFrom 0 done)
          true 0 done ++
        layout result (shifted (returnsFrom 0 done) (extent os) + d) (returnsFrom 0 done)
          false (extent done) rest))
      (shifted (returnsFrom 0 done) (extent done)) =
      some (render 0 (layout result (shifted (returnsFrom 0 os) (extent os) + d) (returnsFrom 0 os)
        true 0 os)) := by
  induction rest generalizing done fuel with
  | nil =>
    obtain ⟨fuel, rfl⟩ := Nat.exists_eq_succ_of_ne_zero (Nat.ne_of_gt enough)
    rw [List.append_nil] at split
    subst split
    rw [layout, List.append_nil, forOps, if_neg]
    rw [length_render, extent_layout_shifted]
    exact Nat.lt_irrefl _
  | cons z rest ih =>
    rw [List.length_cons] at enough
    have split' : os = (done ++ [z]) ++ rest := by rw [split]; simp
    let finish : Int := shifted (returnsFrom 0 done) (extent os) + d
    have place : extent (layout result finish (returnsFrom 0 done) true 0 done) =
        shifted (returnsFrom 0 done) (extent done) := extent_layout_shifted
    have head : layout result finish (returnsFrom 0 done) false (extent done) (z :: rest) =
        z.retarget (goal (returnsFrom 0 done) (extent done)) ::
          layout result finish (returnsFrom 0 done) false (extent done + z.length) rest := by
      rw [layout, Bool.false_and, if_neg Bool.false_ne_true]
      rfl
    rw [← place, head]
    by_cases returns : z.isReturn
    · obtain ⟨fuel, rfl⟩ := Nat.exists_eq_add_of_le' (show 2 ≤ fuel by omega)
      have returns' : (z.retarget (goal (returnsFrom 0 done) (extent done))).isReturn := returns
      have changed := @changed_layout result d os done rest z split lands positive returns
      have length := length_return returns
      have size : extent os = extent done + 2 + extent rest := by
        rw [split, extent_append, extent_cons, length, Nat.add_assoc]
      have here := @shifted_returns (extent done) done (Nat.le_refl _)
      have total : ((extent (layout result finish (returnsFrom 0 done) true 0 done ++
          z.retarget (goal (returnsFrom 0 done) (extent done)) ::
            layout result finish (returnsFrom 0 done) false (extent done + z.length) rest) : Nat) :
              Int) + 3 + d = shifted (returnsFrom 0 (done ++ [z])) (extent os) + d := by
        have far := @shifted_returns (extent os) done (by omega)
        rw [extent_append, place, extent_cons, Aimed.length_retarget, length, extent_layout_rest,
          returnsFrom_snoc returns, shifted_snoc, if_pos (by omega)]
        omega
      have next : shifted (returnsFrom 0 done) (extent done) + 5 =
          shifted (returnsFrom 0 (done ++ [z])) (extent (done ++ [z])) := by
        have far := @shifted_returns (extent done + 2) done (by omega)
        have ends : extent (done ++ [z]) = extent done + 2 := by
          rw [extent_append, extent_cons, extent_nil, length]
        rw [returnsFrom_snoc returns, ends, shifted_snoc, if_pos (by omega)]
        omega
      rw [forOps_return returns', total, place, next, length]
      refine Eq.trans (congrArg (fun code => forOps _ _ fuel code _) changed) ?_
      exact ih split' (by omega)
    · obtain ⟨fuel, rfl⟩ := Nat.exists_eq_succ_of_ne_zero (Nat.ne_of_gt (Nat.zero_lt_of_lt enough))
      have same : returnsFrom 0 (done ++ [z]) = returnsFrom 0 done := by
        rw [returnsFrom_append, returnsFrom, if_neg returns, returnsFrom, List.append_nil]
      have further := @ih (done ++ [z]) fuel split' (by omega)
      have passed : layout result finish (returnsFrom 0 done) true 0 (done ++ [z]) =
          layout result finish (returnsFrom 0 done) true 0 done ++
            [z.retarget (goal (returnsFrom 0 done) (extent done))] := by
        rw [layout_append, layout, Bool.true_and, if_neg returns, layout, Nat.zero_add,
          List.append_nil]
      have place' := @extent_layout_shifted result finish (done ++ [z])
      rw [same, passed] at place'
      rw [same, ← place', passed, List.append_assoc, extent_append, extent_cons, extent_nil] at further
      have stays : ¬ (z.retarget (goal (returnsFrom 0 done) (extent done))).isReturn := returns
      rw [forOps_other stays]
      exact further

theorem render_layout_nil {code : Code} {os : List Aimed} (lands : Lands code os) :
    render q (layout result finish [] false p os) = render q os := by
  induction os generalizing p q with
  | nil => rfl
  | cons x os ih =>
    have rest (q : Nat) := @ih (p + x.length) q fun y mem => lands y (List.mem_cons_of_mem x mem)
    have words : (x.retarget (goal [] p)).words q = x.words q :=
      words_aim rfl fun jump => by
        obtain ⟨t, target, _⟩ := lands x List.mem_cons_self jump
        rw [Aimed.target_retarget, target]
        rfl
    rw [layout, Bool.false_and, if_neg Bool.false_ne_true, List.singleton_append, render, render,
      rest, words]
    rfl

theorem changeReturnsToJumps_layout {os : List Aimed} (lands : Lands (render 0 os) os)
    (positive : 0 < d) : changeReturnsToJumps (render 0 os) result d =
      some (render 0 (layout result (shifted (returnsFrom 0 os) (extent os) + d) (returnsFrom 0 os)
        true 0 os)) := by
  have few := @length_le_extent os
  have run := @changeReturns_layout result d os [] os (2 * (render 0 os).length + 1) rfl lands
    positive (by rw [length_render]; omega)
  rw [returnsFrom, layout, List.nil_append, extent_nil, render_layout_nil lands] at run
  exact run

end SlateVm.Optimizer
