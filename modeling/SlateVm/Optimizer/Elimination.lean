import SlateVm.Optimizer.ReturnPaths

/-! Replacing the returns keeps all paths when no jump is diverted, and only then. -/
namespace SlateVm.Optimizer
open Frames (Value)
open Relation Simulation

variable {σ : Type} {m : Machine σ} {os as bs : List Aimed} {x : Aimed} {result finish : Int}
  {p q r t d : Nat} {s s' : σ}

theorem mem_returns (split : os = as ++ x :: bs) (returns : x.isReturn) :
    extent as ∈ returnsFrom 0 os := by
  rw [split, returnsFrom_append, returnsFrom, if_pos returns, Nat.zero_add]
  exact List.mem_append_right _ List.mem_cons_self

theorem shifted_split (split : os = as ++ bs) :
    shifted (returnsFrom 0 os) (extent as) = extent as + 3 * (returnsFrom 0 as).length := by
  have before : (returnsFrom 0 as).countP (· < extent as) = (returnsFrom 0 as).length :=
    List.countP_eq_length.mpr fun r mem => decide_eq_true (by simpa using returnsFrom_lt mem)
  have after : (returnsFrom (extent as) bs).countP (· < extent as) = 0 :=
    List.countP_eq_zero.mpr fun r mem => by simpa using returnsFrom_ge mem
  rw [split, shifted, returnsFrom_append, Nat.zero_add, List.countP_append, before, after]
  rfl

theorem shifted_next (split : os = as ++ x :: bs) :
    shifted (returnsFrom 0 os) (extent as + x.length) =
      shifted (returnsFrom 0 os) (extent as) + (if x.isReturn then 5 else x.length) := by
  have next := @shifted_split os (as ++ [x]) bs (by rw [split]; simp)
  have here := shifted_split split
  have same : extent (as ++ [x]) = extent as + x.length := by simp
  rw [same, returnsFrom_append, returnsFrom, Nat.zero_add] at next
  rw [next, here]
  split
  case isTrue returns =>
    rw [length_return returns, returnsFrom, List.length_append, List.length_singleton]
    omega
  case isFalse =>
    rw [returnsFrom, List.append_nil]
    omega

theorem layout_split (split : os = as ++ x :: bs) :
    ∃ pre post, pre.length = shifted (returnsFrom 0 os) (extent as) ∧
      render 0 (layout result finish (returnsFrom 0 os) true 0 os) =
        pre ++ (render (shifted (returnsFrom 0 os) (extent as))
          (if x.isReturn then x.replacement result finish
            else [x.retarget (goal (returnsFrom 0 os) (extent as))]) ++ post) := by
  have place : extent (layout result finish (returnsFrom 0 os) true 0 as) =
      shifted (returnsFrom 0 os) (extent as) := by
    rw [extent_layout, shifted_split split]
  have laid (rs : List Nat) : layout result finish rs true 0 os =
      layout result finish rs true 0 as ++
        ((if x.isReturn then x.replacement result finish else [x.retarget (goal rs (extent as))]) ++
          layout result finish rs true (extent as + x.length) bs) := by
    rw [split, layout_append, layout, Bool.true_and, Nat.zero_add]
  have whole := congrArg (render 0) (laid (returnsFrom 0 os))
  rw [render_append, render_append, Nat.zero_add, place] at whole
  exact ⟨_, _, by rw [length_render, place], whole⟩

theorem filter_walk {code pre : Code} {xs : List Aimed} {fuel : Nat} (place : pre.length = p)
    (whole : code = pre ++ render p xs) (enough : xs.length ≤ fuel) :
    (Tiling.walk (fun i => ((opcodeLength code i).getD 1).toNat) code.length fuel p).filter
      (fun i => code[i]?.any isReturn) = returnsFrom p xs := by
  induction fuel generalizing p pre xs with
  | zero =>
    cases List.length_eq_zero_iff.mp (Nat.le_zero.mp enough)
    rfl
  | succ fuel ih =>
    cases xs with
    | nil =>
      have finish : code.length = p := by rw [whole]; simp [render, place]
      rw [Tiling.walk, finish, if_neg (Nat.lt_irrefl p)]
      rfl
    | cons x xs =>
      have positive := x.length_pos
      have inside : p < code.length := by
        rw [whole]
        simp
        omega
      have read := read_words x (render (p + x.length) xs) place
      have whole' : code = pre ++ (x.words p ++ render (p + x.length) xs) := by rw [whole, render]
      rw [← whole'] at read
      have rest := @ih (p + x.length) (pre ++ x.words p) xs (by simp [place])
        (by rw [whole', List.append_assoc]) (Nat.le_of_succ_le_succ enough)
      rw [Tiling.walk, if_pos inside, read.2, Option.getD_some, Int.toNat_natCast,
        List.filter_cons, rest, read.1, returnsFrom]
      rfl

theorem returnsOf_render : returnsOf (render 0 os) = returnsFrom 0 os := by
  have few := @length_le_extent os
  exact @filter_walk 0 (render 0 os) [] os _ rfl rfl (by rwa [length_render])

theorem moved_render : moved (render 0 os) p = shifted (returnsFrom 0 os) p := by
  rw [moved, returnsOf_render]

theorem jumps_layout {j : Nat} (boundary : Boundary (render 0 os) j)
    (jump : jumpTarget (render 0 os) j = some (t : Int)) :
    jumpTarget (render 0 (layout result finish (returnsFrom 0 os) true 0 os))
      (shifted (returnsFrom 0 os) j) =
        some (shifted (returnsFrom 0 os) (aim (returnsFrom 0 os) j t) : Int) := by
  obtain ⟨as, x, bs, split, rfl, jumps, target⟩ := jump_render boundary jump
  obtain ⟨pre, post, place, code⟩ := @layout_split os as bs x result finish split
  have stays : ¬ x.isReturn := fun returns => canJump_return returns jumps
  rw [if_neg stays, render, render, List.append_nil] at code
  have jumps' : (x.retarget (goal (returnsFrom 0 os) (extent as))).canJump := jumps
  rw [code, jumpTarget_words _ _ place, if_pos jumps', Aimed.target_retarget, target]
  rfl

section Embedding

def leaves (m : Machine σ) (code : Code) (rs : List Nat) (result : Int) (finish : Nat)
    (a c : Nat × σ) : Prop :=
  ∃ value, Returns m code a.1 a.2 value ∧ c.2 = m.write (.smallint result) value a.2 ∧
    (c.1 = shifted rs a.1 + 3 ∨ c.1 = finish)

theorem boundary_cases (boundary : Boundary (render 0 os) p) :
    p = extent os ∨ ∃ as x bs, os = as ++ x :: bs ∧ p = extent as := by
  obtain ⟨as, bs, split, rfl⟩ := boundary_render.mp boundary
  cases bs with
  | nil => exact .inl (by rw [split, List.append_nil])
  | cons x bs => exact .inr ⟨as, x, bs, split, rfl⟩

theorem step_old (split : os = as ++ x :: bs) :
    Step m (render 0 os) (extent as, s) (q, s') ↔ x.Moves m (extent as) s q s' := by
  rw [split, render_at, Nat.zero_add]
  exact step_words x _ length_render

theorem step_new (split : os = as ++ x :: bs) (stays : ¬ x.isReturn) :
    Step m (render 0 (layout result finish (returnsFrom 0 os) true 0 os))
        (shifted (returnsFrom 0 os) (extent as), s) (q, s') ↔
      (x.retarget (goal (returnsFrom 0 os) (extent as))).Moves m
        (shifted (returnsFrom 0 os) (extent as)) s q s' := by
  obtain ⟨pre, post, place, code⟩ := @layout_split os as bs x result finish split
  rw [if_neg stays, render, render, List.append_nil] at code
  rw [code]
  exact step_words _ _ place

theorem moves_boundary (lands : Lands (render 0 os) os) (split : os = as ++ x :: bs)
    (moves : x.Moves m (extent as) s q s') : Boundary (render 0 os) q := by
  rcases moves with ⟨_, rfl⟩ | ⟨_, jumps, target⟩ | ⟨_, rfl⟩
  · exact boundary_render.mpr ⟨as ++ [x], bs, by rw [split]; simp, by simp⟩
  · obtain ⟨t, target', boundary⟩ := lands x (by rw [split]; simp) jumps
    rwa [← Int.ofNat_inj.mp (target'.symm.trans target)]
  · exact boundary_render.mpr ⟨as, x :: bs, split, rfl⟩

theorem moves_iff (split : os = as ++ x :: bs) (lands : Lands (render 0 os) os)
    (spared : ∀ t : Nat, x.canJump → x.target = t →
      aim (returnsFrom 0 os) (extent as) t = t) (stays : ¬ x.isReturn) :
    (x.retarget (goal (returnsFrom 0 os) (extent as))).Moves m
        (shifted (returnsFrom 0 os) (extent as)) s q s' ↔
      ∃ p, x.Moves m (extent as) s p s' ∧ shifted (returnsFrom 0 os) p = q := by
  have next := shifted_next split
  rw [if_neg stays] at next
  constructor
  · rintro (⟨runs, rfl⟩ | ⟨runs, jumps, target⟩ | ⟨runs, rfl⟩)
    · exact ⟨_, .inl ⟨runs, rfl⟩, next⟩
    · obtain ⟨t, target', _⟩ := lands x (by rw [split]; simp) jumps
      refine ⟨t, .inr (.inl ⟨runs, jumps, target'⟩), ?_⟩
      have goal : goal (returnsFrom 0 os) (extent as) x.target = shifted (returnsFrom 0 os) t := by
        rw [goal, target', Int.toNat_natCast, spared t jumps target']
      exact Int.ofNat_inj.mp (goal.symm.trans target)
    · exact ⟨_, .inr (.inr ⟨runs, rfl⟩), rfl⟩
  · rintro ⟨p, ⟨runs, rfl⟩ | ⟨runs, jumps, target⟩ | ⟨runs, rfl⟩, rfl⟩
    · exact .inl ⟨runs, next⟩
    · refine .inr (.inl ⟨runs, jumps, ?_⟩)
      rw [Aimed.target_retarget, goal, target, Int.toNat_natCast, spared p jumps target]
    · exact .inr (.inr ⟨runs, rfl⟩)

theorem step_store (split : os = as ++ x :: bs) (returns : x.isReturn) :
    Step m (render 0 (layout result finish (returnsFrom 0 os) true 0 os))
        (shifted (returnsFrom 0 os) (extent as), s) (q, s') ↔
      q = shifted (returnsFrom 0 os) (extent as) + 3 ∧ ∃ value,
        Returns m (render 0 os) (extent as) s value ∧ s' = m.write (.smallint result) value s := by
  obtain ⟨pre, post, place, code⟩ := @layout_split os as bs x result finish split
  rw [if_pos returns, Aimed.replacement, render, List.append_assoc] at code
  obtain ⟨value, words, _, hole⟩ := hole_return returns (extent as) result
  have gives (v : Value) : Returns m (render 0 os) (extent as) s v ↔
      v = returned m x.instruction.op value s := by
    rw [split, render_at, Nat.zero_add]
    exact returns_words returns words length_render
  simp only [gives, exists_eq_left]
  rw [code, step_words _ _ place, Aimed.Moves, hole, executes_store returns,
    executes_store returns, executes_store returns]
  constructor
  · rintro (⟨⟨_, same⟩, rfl⟩ | ⟨⟨wrong, _⟩, _⟩ | ⟨⟨wrong, _⟩, _⟩)
    · exact ⟨rfl, same⟩
    · cases wrong
    · cases wrong
  · rintro ⟨rfl, same⟩
    exact .inl ⟨⟨rfl, same⟩, rfl⟩

theorem step_out {finish : Nat} (split : os = as ++ x :: bs) (returns : x.isReturn) :
    Step m (render 0 (layout result finish (returnsFrom 0 os) true 0 os))
        (shifted (returnsFrom 0 os) (extent as) + 3, s) (q, s') ↔ q = finish ∧ s' = s := by
  obtain ⟨pre, post, place, code⟩ := @layout_split os as bs x result finish split
  let store : Aimed := ⟨x.instruction.stored result, 0⟩
  have place' : (pre ++ store.words (shifted (returnsFrom 0 os) (extent as))).length =
      shifted (returnsFrom 0 os) (extent as) + 3 := by
    rw [List.length_append, place, Aimed.length_words]
    rfl
  rw [if_pos returns, Aimed.replacement, render, render, List.append_assoc, ← List.append_assoc,
    List.append_assoc _ _ post] at code
  rw [code]
  refine (step_words ⟨jumpOut, finish⟩ _ place').trans ?_
  rw [Aimed.Moves, executes_jumpOut, executes_jumpOut, executes_jumpOut]
  constructor
  · rintro (⟨⟨wrong, _⟩, _⟩ | ⟨⟨_, same⟩, _, there⟩ | ⟨⟨wrong, _⟩, _⟩)
    · cases wrong
    · exact ⟨(Int.ofNat_inj.mp there).symm, same⟩
    · cases wrong
  · rintro ⟨rfl, same⟩
    exact .inr (.inl ⟨⟨rfl, same⟩, rfl, rfl⟩)

theorem returns_split {value : Value} (boundary : Boundary (render 0 os) p)
    (gives : Returns m (render 0 os) p s value) :
    ∃ as x bs, os = as ++ x :: bs ∧ p = extent as ∧ x.isReturn := by
  have op : ∃ op, (render 0 os)[p]? = some op ∧ isReturn op := by
    cases gives with
    | register here => exact ⟨_, here, by decide⟩
    | value here => exact ⟨_, here, by decide⟩
  obtain ⟨op, here, returns⟩ := op
  rcases boundary_cases boundary with rfl | ⟨as, x, bs, split, rfl⟩
  · rw [List.getElem?_eq_none (by simp)] at here
    cases here
  · refine ⟨as, x, bs, split, rfl, ?_⟩
    rw [split, render_at, Nat.zero_add, (read_words x _ length_render).1] at here
    rwa [← Option.some.inj here] at returns

theorem embeds {finish : Nat} (lands : Lands (render 0 os) os)
    (beyond : shifted (returnsFrom 0 os) (extent os) ≤ finish)
    (spared : ∀ j t : Nat, Boundary (render 0 os) j → jumpTarget (render 0 os) j = some (t : Int) →
      aim (returnsFrom 0 os) j t = t) :
    Embeds (Step m (render 0 os)) (Step m (render 0 (layout result finish (returnsFrom 0 os) true 0 os)))
      (fun a => Boundary (render 0 os) a.1) (fun a => (shifted (returnsFrom 0 os) a.1, a.2))
      (leaves m (render 0 os) (returnsFrom 0 os) result finish) := by
  have spared' (as : List Aimed) (x : Aimed) (bs : List Aimed) (split : os = as ++ x :: bs) (t : Nat)
      (jumps : x.canJump) (target : x.target = t) : aim (returnsFrom 0 os) (extent as) t = t := by
    refine spared _ t (boundary_render.mpr ⟨as, x :: bs, split, rfl⟩) ?_
    rw [split, render_at, Nat.zero_add, jumpTarget_words x _ length_render, if_pos jumps, target]
  have size : (render 0 (layout result finish (returnsFrom 0 os) true 0 os)).length =
      shifted (returnsFrom 0 os) (extent os) := by rw [length_render, extent_layout_shifted]
  constructor
  · rintro ⟨p, s⟩ ⟨q, s'⟩ boundary step
    rcases boundary_cases boundary with rfl | ⟨as, x, bs, split, rfl⟩
    · exact absurd step (no_step (by rw [length_render]))
    · exact moves_boundary lands split ((step_old split).mp step)
  · rintro ⟨p, s⟩ ⟨q, s'⟩ boundary step
    rcases boundary_cases boundary with rfl | ⟨as, x, bs, split, rfl⟩
    · exact absurd step (no_step (by rw [length_render]))
    · have moves := (step_old split).mp step
      have stays : ¬ x.isReturn := fun returns => by
        rcases moves with ⟨runs, _⟩ | ⟨runs, _⟩ | ⟨runs, _⟩ <;> exact no_return returns runs
      exact (step_new split stays).mpr
        ((moves_iff split lands (spared' as x bs split) stays).mpr ⟨q, moves, rfl⟩)
  · rintro ⟨p, s⟩ ⟨q, s'⟩ boundary step
    rcases boundary_cases boundary with rfl | ⟨as, x, bs, split, rfl⟩
    · exact absurd step (no_step (by rw [size]))
    · by_cases returns : x.isReturn
      · obtain ⟨same, value, gives, after⟩ := (step_store split returns).mp step
        exact .inr ⟨value, gives, after, .inl same⟩
      · obtain ⟨p, moves, same⟩ := (moves_iff split lands (spared' as x bs split) returns).mp
          ((step_new split returns).mp step)
        exact .inl ⟨(p, s'), (step_old split).mpr moves, by rw [same]⟩
  · rintro ⟨p, s⟩ ⟨q, s'⟩ ⟨q', s''⟩ boundary ⟨value, gives, after, place⟩ step
    obtain ⟨as, x, bs, split, rfl, returns⟩ := returns_split boundary gives
    rcases place with same | same
    · rw [show q = _ from same] at step
      obtain ⟨there, same'⟩ := (step_out split returns).mp step
      exact ⟨value, gives, same'.trans after, .inr there⟩
    · rw [show q = _ from same] at step
      exact absurd step (no_step (by rw [size]; exact beyond))

end Embedding

theorem leaves_apart {finish : Nat} {b : Nat × σ} (kept : Boundary (render 0 os) b.1)
    (boundary : Boundary (render 0 os) q) (beyond : shifted (returnsFrom 0 os) (extent os) < finish) :
    ¬ leaves m (render 0 os) (returnsFrom 0 os) result finish b
      (shifted (returnsFrom 0 os) q, s') := by
  rintro ⟨value, gives, _, place⟩
  obtain ⟨as, x, bs, split, start, returns⟩ := returns_split kept gives
  have le : q ≤ extent os := by
    obtain ⟨as, bs, rfl, rfl⟩ := boundary_render.mp boundary
    simp
  have inside := shifted_mono (returnsFrom 0 os) le
  have next := shifted_next split
  rw [if_pos returns, length_return returns] at next
  rcases place with same | same
  · have same' : shifted (returnsFrom 0 os) q = shifted (returnsFrom 0 os) (extent as) + 3 :=
      same.trans (by rw [start])
    rw [split] at boundary
    have outside := boundary_outside boundary
    rw [length_return returns] at outside
    rcases outside with before | after
    · have := shifted_mono (returnsFrom 0 os) before
      omega
    · have := shifted_mono (returnsFrom 0 os) after
      omega
  · have same' : shifted (returnsFrom 0 os) q = finish := same
    omega

theorem eliminated_layout {code' : Code} (lands : Lands (render 0 os) os) (positive : 0 < d)
    (made : code' = render 0 (layout result (shifted (returnsFrom 0 os) (extent os) + d : Nat)
      (returnsFrom 0 os) true 0 os))
    (spared : ∀ j t : Nat, Boundary (render 0 os) j → jumpTarget (render 0 os) j = some (t : Int) →
      aim (returnsFrom 0 os) j t = t) : Eliminated (render 0 os) code' result d := by
  have size : code'.length = shifted (returnsFrom 0 os) (extent os) := by
    rw [made, length_render, extent_layout_shifted]
  have inside {σ : Type} (m : Machine σ) := @embeds σ m os result
    (shifted (returnsFrom 0 os) (extent os) + d) lands (Nat.le_add_right _ _) spared
  rw [← made] at inside
  constructor
  · intro j t boundary jump
    rw [moved_render, moved_render, made, jumps_layout boundary jump, spared j t boundary jump]
  · intro σ m p q s s' first last
    rw [moved_render, moved_render]
    refine (inside m).path_iff (a := (p, s)) (b := (q, s')) first ?_ ?_
    · intro b kept
      exact leaves_apart kept last (by omega)
    · rintro ⟨b, t⟩ _ same
      obtain ⟨place, state⟩ := Prod.mk.inj same
      exact Prod.ext (shifted_inj place) state
  · intro σ m p s s'' first
    rw [moved_render, size]
    constructor
    · intro path
      obtain ⟨⟨r, s'⟩, path', same | ⟨value, gives, after, _⟩⟩ :=
        (inside m).path_backward (a := (p, s)) first path
      · have le : r ≤ extent os := by
          have kept := (inside m).keeps_path (a := (p, s)) first path'
          obtain ⟨as, bs, split, same⟩ := boundary_render.mp kept
          have same : r = extent as := same
          rw [split, same]
          simp
        have place := congrArg Prod.fst same
        have bound := shifted_mono (returnsFrom 0 os) le
        simp only at place
        omega
      · exact ⟨r, s', value, path', gives, after⟩
    · rintro ⟨r, s', value, path, gives, rfl⟩
      have kept := (inside m).keeps_path (a := (p, s)) first path
      obtain ⟨as, x, bs, split, start, returns⟩ := returns_split kept gives
      have start : r = extent as := start
      subst start
      have path' := (inside m).path_forward (a := (p, s)) first path
      rw [made] at path' ⊢
      exact (path'.tail ((step_store split returns).mpr ⟨rfl, value, gives, rfl⟩)).tail
        ((step_out split returns).mpr ⟨rfl, rfl⟩)

/-- The returns of well-formed code are eliminated exactly if none of its jumps is diverted. -/
theorem returns_eliminated_iff {code : Code} (wf : WellFormed code) (resultReg : Int)
    (positive : 0 < d) :
    (∃ code', changeReturnsToJumps code resultReg d = some code' ∧
      Eliminated code code' resultReg d) ↔ Undiverted code := by
  obtain ⟨os, rfl, lands⟩ := wf.rendered
  have run := @changeReturnsToJumps_layout resultReg d os lands (Int.natCast_pos.mpr positive)
  have sorted : (returnsFrom 0 os).Pairwise (· + 2 ≤ ·) := returnsFrom_sorted
  constructor
  · rintro ⟨code', made, eliminated⟩ j t r boundary jump place returns
    have aims := @jumps_layout os resultReg (shifted (returnsFrom 0 os) (extent os) + d) t j
      boundary jump
    have lands' := eliminated.jumps j t boundary jump
    rw [run] at made
    rw [← Option.some.inj made, moved_render, moved_render, aims] at lands'
    have same := shifted_inj (Int.ofNat_inj.mp (Option.some.inj lands'))
    refine (aim_eq_iff sorted).mp same r ?_
    rcases boundary_cases place with rfl | ⟨as, x, bs, split, rfl⟩
    · rw [List.getElem?_eq_none (by simp)] at returns
      cases returns
    · refine mem_returns split ?_
      rw [split, render_at, Nat.zero_add, (read_words x _ length_render).1] at returns
      exact returns
  · intro undiverted
    refine ⟨_, run, eliminated_layout lands positive rfl ?_⟩
    intro j t boundary jump
    refine (aim_eq_iff sorted).mpr fun r mem => ?_
    obtain ⟨as, x, bs, split, returns, rfl⟩ := mem_returnsFrom mem
    rw [Nat.zero_add]
    refine undiverted j t _ boundary jump (boundary_render.mpr ⟨as, x :: bs, split, rfl⟩) ?_
    rw [split, render_at, Nat.zero_add, (read_words x _ length_render).1]
    exact returns

theorem skipsReturn_eliminated_iff : (∃ code', changeReturnsToJumps skipsReturn 7 (4 : Nat) = some code' ∧
    Eliminated skipsReturn code' 7 4) ↔ Undiverted skipsReturn :=
  returns_eliminated_iff skipsReturn_wellFormed 7 (by decide)

/-- The branch over the first return comes to its replacement. -/
theorem skipped_return_reached : WellFormed skipsReturn ∧
    ¬ ∃ code', changeReturnsToJumps skipsReturn 7 (4 : Nat) = some code' ∧
      Eliminated skipsReturn code' 7 4 := by
  refine ⟨skipsReturn_wellFormed, ?_⟩
  rintro ⟨code', made, eliminated⟩
  have run : changeReturnsToJumps skipsReturn 7 (4 : Nat) = some [Opcode.branchIfTrue.word,
      .smallint 0, .smallint 1, Opcode.moveRegister.word, .smallint 7, .smallint 0,
      Opcode.jumpTo.word, .smallint 10, Opcode.moveRegister.word, .smallint 7, .smallint 1,
      Opcode.jumpTo.word, .smallint 5] := by decide
  cases made.symm.trans run
  have lands := eliminated.jumps 0 5 .start (by decide)
  exact absurd lands (by decide)

end SlateVm.Optimizer
