import SlateVm.Collections.TreeMap

/-! `BinaryTree` as an implementation of a finite map, and the steps on which it is not one. -/
namespace SlateVm.Collections.BinaryTree

open Refinement

variable {K V : Type} [LinearOrder K] {bt bt' : BinaryTree K V} {t : SearchTree Nat K V}
variable {a b c : Nat} {s : Side} {key : K} {value : V} {m : K → Option V} {op : Op K V}

/-- The operations that keep the map: a rotated node is one that its `treeParent` holds, and
there is an inner grandchild. -/
def Sound (bt : BinaryTree K V) : Op K V → Prop
  | .atPut _ _ => True
  | .rotateLeft a => Rotatable .left bt a ∧ ∃ p c g, Turns .left bt a p c g
  | .rotateRight a => Rotatable .right bt a ∧ ∃ p c g, Turns .right bt a p c g

/-- The operations that keep the links too: a new key finds the root as the node to hang on.
There is nothing to rotate in the trees these make. -/
def Level (bt : BinaryTree K V) : Op K V → Prop
  | .atPut key _ => bt.isEmpty 0 = true ∨ bt.scanFor key (bt.used + 1) 0 = some 0 ∨
      ∃ v, bt.atIfAbsent 0 key = some (some v)
  | .rotateLeft _ | .rotateRight _ => False

def Represents (bt : BinaryTree K V) (m : K → Option V) : Prop :=
  (bt = new ∧ m = fun _ => none) ∨ ∃ t, Holds bt t ∧ m = fun key => t.find? key

theorem Represents.shows (represents : Represents bt m) :
    ShowsMap bt m ↔ bt.isEmpty 0 = false := by
  rcases represents with ⟨rfl, rfl⟩ | ⟨t, holds, rfl⟩
  · exact iff_of_false (new_shows_not _) Bool.noConfusion
  · exact iff_of_true holds.shows holds.nonempty

def Works (bt : BinaryTree K V) (m : K → Option V) (op : Op K V) : Prop :=
  ∃ bt' t', bt.perform op = some (bt', true) ∧ Holds bt' t' ∧
    (op.after m) = fun key => t'.find? key

theorem Represents.atPut (represents : Represents bt m) (key : K) (value : V) :
    Works bt m (.atPut key value) := by
  rcases represents with ⟨rfl, rfl⟩ | ⟨t, holds, rfl⟩
  · obtain ⟨run, holds⟩ := atPut_new key value
    refine ⟨_, _, by rw [perform, run]; rfl, holds, ?_⟩
    funext other
    have stored := @SearchTree.find?_put Nat K V _ .nil 0 key value List.Pairwise.nil other
    rw [Op.after, Function.update_apply]
    exact stored.symm
  · obtain ⟨bt', node, run, holds'⟩ := holds.atPut key value
    exact ⟨bt', _, by rw [perform, run]; rfl, holds', (holds.after_put key value).symm⟩

omit [LinearOrder K] in
theorem Turns.nonempty {p g : Nat} (turns : Turns s (new : BinaryTree K V) a p c g) : False :=
  nomatch turns.parent

theorem Represents.rotate (represents : Represents bt m) {p g : Nat} (turns : Turns s bt a p c g) :
    ∃ bt' t', BinaryTree.rotate s bt a = some (bt', true) ∧ Holds bt' t' ∧
      m = fun key => t'.find? key := by
  rcases represents with ⟨rfl, rfl⟩ | ⟨t, holds, rfl⟩
  · exact turns.nonempty.elim
  · obtain ⟨bt', t', run, holds', same⟩ := holds.rotate turns
    exact ⟨bt', t', run, holds', (funext same).symm⟩

theorem Represents.step (represents : Represents bt m) (sound : Sound bt op) : Works bt m op := by
  cases op with
  | atPut key value => exact represents.atPut key value
  | rotateLeft a =>
    obtain ⟨_, p, c, g, turns⟩ := sound
    exact represents.rotate turns
  | rotateRight a =>
    obtain ⟨_, p, c, g, turns⟩ := sound
    exact represents.rotate turns

theorem represents_of_sound (reached : Reached implementation Sound bt m) : Represents bt m := by
  apply reached.invariant
  · intro bt m start
    exact .inl start
  · intro bt m op bt' ended represents sound run
    obtain ⟨bt'', t', run', holds, after⟩ := represents.step sound
    cases run.symm.trans run'
    exact .inr ⟨t', holds, after⟩

section Level

def Flat (bt : BinaryTree K V) : Prop :=
  ∀ s b, child s (bt.nodes 0) = some b →
    (bt.nodes b).treeParent = some 0 ∧ ∀ s', child s' (bt.nodes b) = none

omit [LinearOrder K] in
theorem Flat.within (flat : Flat bt) (within : Within bt 0 a) :
    a = 0 ∨ ∃ s, child s (bt.nodes 0) = some a := by
  induction within with
  | root => exact .inl rfl
  | child s' _ link ih =>
    rcases ih with rfl | ⟨s, held⟩
    · exact .inr ⟨s', link⟩
    · exact nomatch link.symm.trans ((flat s _ held).2 s')

omit [LinearOrder K] in
theorem Flat.linked (flat : Flat bt) : Linked bt := by
  intro a within s b link
  rcases flat.within within with rfl | ⟨s', held⟩
  · exact (flat s b link).1
  · exact nomatch link.symm.trans ((flat s' a held).2 s)

omit [LinearOrder K] in
theorem Flat.not_rotatable (flat : Flat bt) : ¬ Rotatable s bt a := by
  rintro ⟨within, notRoot, has⟩
  rcases flat.within within with root | ⟨s', held⟩
  · exact notRoot root
  · rw [(flat s' a held).2] at has
    exact Bool.false_ne_true has

omit [LinearOrder K] in
theorem Flat.setValue (flat : Flat bt) (c : Nat) (v : Option V) :
    Flat (bt.setNode c { bt.nodes c with value := v }) := by
  have same : ∀ x s, child s ((bt.setNode c { bt.nodes c with value := v }).nodes x) =
      child s (bt.nodes x) ∧
      ((bt.setNode c { bt.nodes c with value := v }).nodes x).treeParent = (bt.nodes x).treeParent := by
    intro x s
    rw [nodes_setNode]
    split
    · next here =>
      subst here
      exact ⟨child_value _, rfl⟩
    · exact ⟨rfl, rfl⟩
  intro s b link
  rw [(same 0 s).1] at link
  rw [(same b s).2]
  exact ⟨(flat s b link).1, fun s' => (same b s').1.trans ((flat s b link).2 s')⟩

omit [LinearOrder K] in
theorem Flat.withNew (flat : Flat bt) (some_ : 0 < bt.used)
    (made : ∀ s b, child s (bt.nodes 0) = some b → b < bt.used ∧ b ≠ 0) :
    Flat (bt.withNew 0 s key value) := by
  intro s' b link
  rw [nodes_withNew some_, if_pos rfl, child_withChild] at link
  rw [nodes_withNew some_]
  split at link
  · cases link
    rw [if_neg (Nat.ne_of_gt some_), if_pos rfl]
    exact ⟨rfl, fun s' => by cases s' <;> rfl⟩
  · obtain ⟨older, notRoot⟩ := made s' b link
    rw [if_neg notRoot, if_neg (Nat.ne_of_lt older)]
    exact flat s' b link

omit [LinearOrder K] in
theorem not_linked_withNew (older : c < bt.used) (notRoot : c ≠ 0)
    (within : Within (bt.withNew c s key value) 0 c) : ¬ Linked (bt.withNew c s key value) := by
  intro linked
  have held : child s ((bt.withNew c s key value).nodes c) = some bt.used := by
    rw [nodes_withNew older, if_pos rfl, child_withChild, if_pos rfl]
  have parent := linked c within s bt.used held
  rw [nodes_withNew older, if_neg (Nat.ne_of_gt older), if_pos rfl] at parent
  exact notRoot (Option.some.inj parent).symm

theorem level_added (holds : Holds bt t) {k : K} (scan : bt.scanFor key (bt.used + 1) 0 = some c)
    (keyed : (bt.nodes c).key = some k) (differs : key ≠ k) :
    Level bt (.atPut key value) ↔ c = 0 := by
  have other : (bt.nodes c).key ≠ some key := by
    rw [keyed]
    exact fun same => differs (Option.some.inj same).symm
  have absent : bt.atIfAbsent 0 key = some none := by
    simp only [BinaryTree.atIfAbsent, scan, if_neg other, Option.bind_eq_bind, Option.bind_some]
  constructor
  · rintro (empty | root | ⟨v, stored⟩)
    · exact Bool.noConfusion (holds.nonempty.symm.trans empty)
    · exact Option.some.inj (scan.symm.trans root)
    · cases absent.symm.trans stored
  · rintro rfl
    exact .inr (.inl scan)

theorem flat_atPut (represents : Represents bt m) (flat : Flat bt)
    (run : bt.perform (.atPut key value) = some (bt', true)) :
    (Level bt (.atPut key value) → Flat bt') ∧ (¬ Level bt (.atPut key value) → ¬ Linked bt') := by
  rcases represents with ⟨rfl, rfl⟩ | ⟨t, holds, rfl⟩
  · rw [perform, (atPut_new key value).1] at run
    cases run
    refine ⟨fun _ s b link => ?_, fun steep => (steep (.inl rfl)).elim⟩
    cases s <;> exact nomatch link
  · obtain ⟨c, member, k, scan, keyed, _⟩ := holds.finds key
    by_cases same : key = k
    · subst same
      have level : Level bt (.atPut key value) := by
        refine .inr (.inr ⟨(bt.nodes c).value, ?_⟩)
        simp only [BinaryTree.atIfAbsent, scan, keyed, Option.bind_eq_bind, Option.bind_some,
          if_true]
      rw [perform, (holds.atPut_stored scan keyed value).1] at run
      cases run
      exact ⟨fun _ => flat.setValue c _, fun steep => (steep level).elim⟩
    · obtain ⟨made, holds'⟩ := holds.atPut_added scan keyed same value
      rw [perform, made] at run
      cases run
      have level := @level_added K V _ bt t c key value holds k scan keyed same
      constructor
      · intro steps
        cases level.mp steps
        apply flat.withNew (holds.made 0 holds.root)
        intro s b link
        have below := holds.shape.descendants_ne holds.distinct holds.root link
        exact ⟨holds.made b (holds.shape.child_mem holds.root link), Ne.symm below.1⟩
      · intro steep
        apply not_linked_withNew (holds.made c member) fun root => steep (level.mpr root)
        rw [holds'.within, (SearchTree.labels_put t).mem_iff]
        split
        · exact member
        · exact List.mem_cons_of_mem _ member

theorem flat_of_level (reached : Reached implementation Level bt m) :
    Represents bt m ∧ Flat bt := by
  apply @Reached.invariant _ _ _ _ implementation Level fun bt m => Represents bt m ∧ Flat bt
  · rintro bt m ⟨rfl, rfl⟩
    exact ⟨.inl ⟨rfl, rfl⟩, fun s b link => by cases s <;> exact nomatch link⟩
  · intro bt m op bt' ended kept level run
    obtain ⟨represents, flat⟩ := kept
    cases op with
    | rotateLeft a => exact level.elim
    | rotateRight a => exact level.elim
    | atPut key value =>
      obtain ⟨bt'', t', run', holds, after⟩ := represents.atPut key value
      cases run.symm.trans run'
      exact ⟨.inr ⟨t', holds, after⟩, (flat_atPut represents flat run').1 level⟩
  · exact reached

end Level

/-- The links are lost with the first new key that does not hang on the root, the map only with
a rotation that meets a wrong or missing link. -/
theorem tree_refines :
    (∀ (bt : BinaryTree K V) (m : K → Option V), Reached implementation Level bt m →
      (Shows bt m ↔ bt.isEmpty 0 = false) ∧
      ∀ op, Admits bt op → ∃ bt', bt.perform op = some (bt', true) ∧
        (Shows bt' (op.after m) ↔ Level bt op)) ∧
    ∀ (bt : BinaryTree K V) (m : K → Option V), Reached implementation Sound bt m →
      (ShowsMap bt m ↔ bt.isEmpty 0 = false) ∧
      ∀ op, Sound bt op → ∃ bt', bt.perform op = some (bt', true) ∧ ShowsMap bt' (op.after m) := by
  constructor
  · intro bt m reached
    obtain ⟨represents, flat⟩ := flat_of_level reached
    refine ⟨⟨fun shown => represents.shows.mp shown.toShowsMap,
      fun stored => ⟨represents.shows.mpr stored, flat.linked⟩⟩, ?_⟩
    intro op admitted
    cases op with
    | rotateLeft a => exact absurd admitted flat.not_rotatable
    | rotateRight a => exact absurd admitted flat.not_rotatable
    | atPut key value =>
      obtain ⟨bt', t', run, holds, after⟩ := represents.atPut key value
      obtain ⟨kept, lost⟩ := flat_atPut represents flat run
      refine ⟨bt', run, ?_, ?_⟩
      · intro shown
        by_contra steep
        exact lost steep shown.linked
      · intro level
        rw [after]
        exact ⟨holds.shows, (kept level).linked⟩
  · intro bt m reached
    have represents := represents_of_sound reached
    refine ⟨represents.shows, ?_⟩
    intro op sound
    obtain ⟨bt', t', run, holds, after⟩ := represents.step sound
    rw [after]
    exact ⟨bt', run, holds.shows⟩

/-- Three keys in a row: the third node hangs on the second, its `treeParent` is the root. -/
theorem tree_unlinked : ¬ ∀ (bt : BinaryTree Nat Nat) m, Reached implementation Admits bt m →
    Shows bt m := by
  intro claimed
  have start : Reached implementation Admits (new : BinaryTree Nat Nat) fun _ => none :=
    .start ⟨rfl, rfl⟩
  have one := start.step (show Admits _ (.atPut 1 1) from trivial) rfl
  have two := one.step (show Admits _ (.atPut 2 2) from trivial) rfl
  have three := two.step (show Admits _ (.atPut 3 3) from trivial) rfl
  have linked := (claimed _ _ three).linked
  have second := linked 1 (.child .right .root rfl) .right 2 rfl
  exact absurd second (by decide)

end SlateVm.Collections.BinaryTree
