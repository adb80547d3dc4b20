import SlateVm.Dispatch.Walk
import SlateVm.Lib.Digits

/-! The rank of a definition says how early each of its positions is found, and a dispatch ends
with a definition of the highest rank among those found at all their positions. -/

namespace SlateVm.Dispatch
open Maps Digits

/-- A role with the bit of the position, met at an object of a walk. -/
structure Event (ω δ : Type) where
  position : Nat
  depth : Nat
  object : ω
  definition : δ

section Specification

variable {ω μ σ δ κ : Type} [DecidableEq σ] [DecidableEq δ] (w : World ω μ σ δ κ) (name : σ)

def foundAt (i : Nat) (objs : List ω) (d : δ) : Option Nat :=
  objs.findIdx? fun obj => (rolesNamed w (w.mapAt obj).roleTable name).any fun role =>
    role.rolePositions.testBit i && decide (role.methodDefinition = d)

def depthOf (walks : List (List ω)) (d : δ) (i : Nat) : Option Nat :=
  walks[i]?.bind fun objs => foundAt w name i objs d

/-- An earlier find counts more, and a find at an earlier position counts more than all later
ones. -/
def digitOf (walks : List (List ω)) (d : δ) (i : Nat) : Nat :=
  (depthOf w name walks d i).elim 0 fun depth => 31 - depth

def rankOf (walks : List (List ω)) (d : δ) : Nat := weight 32 (digitOf w name walks d) 6

def Applicable (walks : List (List ω)) (d : δ) : Prop :=
  (∃ i, (depthOf w name walks d i).isSome) ∧
    ∀ i, (w.definition d).dispatchPositions.testBit i = (depthOf w name walks d i).isSome

def Above (walks : List (List ω)) (d d' : δ) : Prop :=
  ∃ i < 6, (∀ j < i, digitOf w name walks d' j = digitOf w name walks d j) ∧
    digitOf w name walks d' i < digitOf w name walks d i

def Best (walks : List (List ω)) : Option δ → Prop
  | none => ∀ d, ¬ Applicable w name walks d
  | some d => Applicable w name walks d ∧
      ∀ d', Applicable w name walks d' → ¬ Above w name walks d' d

def RolesFit : Prop :=
  ∀ m, ∀ role ∈ rolesNamed w (w.map m).roleTable name, ∀ i, role.rolePositions.testBit i = true →
    (w.definition role.methodDefinition).dispatchPositions.testBit i = true

theorem digitOf_lt (walks : List (List ω)) (d : δ) (i : Nat) : digitOf w name walks d i < 32 := by
  unfold digitOf
  cases depthOf w name walks d i with
  | none => exact Nat.zero_lt_succ 31
  | some depth => exact Nat.lt_succ_of_le (Nat.sub_le 31 depth)

theorem above_iff (walks : List (List ω)) (d d' : δ) :
    Above w name walks d d' ↔ rankOf w name walks d' < rankOf w name walks d :=
  (weight_lt_iff (digitOf_lt w name walks d') (digitOf_lt w name walks d) 6).symm

end Specification

section Events

variable {ω δ : Type} {es : List (Event ω δ)} {e : Event ω δ} {d : δ}

def Occurs (es : List (Event ω δ)) (d : δ) : Prop := ∃ e ∈ es, e.definition = d

/-- Positions ascend, and depths within a position; there are six positions and 32 depths. -/
structure Ordered (es : List (Event ω δ)) : Prop where
  ascends : es.Pairwise fun e f => e.position < f.position ∨
    e.position = f.position ∧ e.depth ≤ f.depth
  positions : ∀ e ∈ es, e.position < 6
  depths : ∀ e ∈ es, e.depth ≤ 31

theorem Ordered.left {fs : List (Event ω δ)} (ordered : Ordered (es ++ fs)) : Ordered es where
  ascends := (List.pairwise_append.mp ordered.ascends).1
  positions e member := ordered.positions e (List.mem_append_left _ member)
  depths e member := ordered.depths e (List.mem_append_left _ member)

variable [DecidableEq δ]

def depthIn (es : List (Event ω δ)) (d : δ) (i : Nat) : Option Nat :=
  (es.find? fun e => decide (e.position = i ∧ e.definition = d)).map Event.depth

def digitIn (es : List (Event ω δ)) (d : δ) (i : Nat) : Nat :=
  (depthIn es d i).elim 0 fun depth => 31 - depth

def rankIn (es : List (Event ω δ)) (d : δ) : Nat := weight 32 (digitIn es d) 6

theorem digitIn_lt (es : List (Event ω δ)) (d : δ) (i : Nat) : digitIn es d i < 32 := by
  unfold digitIn
  cases depthIn es d i with
  | none => exact Nat.zero_lt_succ 31
  | some depth => exact Nat.lt_succ_of_le (Nat.sub_le 31 depth)

theorem depthIn_append (es fs : List (Event ω δ)) (d : δ) (i : Nat) :
    depthIn (es ++ fs) d i = (depthIn es d i).or (depthIn fs d i) := by
  unfold depthIn
  rw [List.find?_append, Option.map_or]

theorem depthIn_singleton (e : Event ω δ) (d : δ) (i : Nat) :
    depthIn [e] d i = if e.position = i ∧ e.definition = d then some e.depth else none := by
  unfold depthIn
  rw [List.find?_singleton]
  by_cases here : e.position = i ∧ e.definition = d
  · simp [here]
  · simp [here]

theorem depthIn_eq_some {depth : Nat} (found : depthIn es d i = some depth) :
    ∃ e ∈ es, e.position = i ∧ e.definition = d ∧ e.depth = depth := by
  obtain ⟨e, first, rfl⟩ := Option.map_eq_some_iff.mp found
  have same := List.find?_some first
  exact ⟨e, List.mem_of_find?_eq_some first, (of_decide_eq_true same).1,
    (of_decide_eq_true same).2, rfl⟩

theorem depthIn_isSome : (depthIn es d i).isSome ↔
    ∃ e ∈ es, e.position = i ∧ e.definition = d := by
  unfold depthIn
  rw [Option.isSome_map, List.find?_isSome]
  simp

theorem Ordered.none_above (ordered : Ordered (es ++ [e])) {d : δ} {j : Nat}
    (above : e.position < j) : depthIn es d j = none := by
  rw [← Option.not_isSome_iff_eq_none, depthIn_isSome]
  rintro ⟨f, member, rfl, -⟩
  have before := (List.pairwise_append.mp ordered.ascends).2.2 f member e (List.mem_singleton_self e)
  omega

theorem rank_find (ordered : Ordered (es ++ [e])) (new : depthIn es e.definition e.position = none) :
    rankIn es e.definition ||| (31 - e.depth) <<< ((5 - e.position) * 5) =
      rankIn (es ++ [e]) e.definition := by
  have inside : e.position < 6 := ordered.positions e (List.mem_append_right _ (List.mem_singleton_self e))
  have clear : ∀ j, e.position ≤ j → digitIn es e.definition j = 0 := by
    intro j le
    rcases Nat.lt_or_eq_of_le le with above | rfl
    · rw [digitIn, ordered.none_above above]
      rfl
    · rw [digitIn, new]
      rfl
  have kept : ∀ j < e.position, digitIn (es ++ [e]) e.definition j = digitIn es e.definition j := by
    intro j below
    rw [digitIn, digitIn, depthIn_append, depthIn_singleton, if_neg (by omega), Option.or_none]
  have set : digitIn (es ++ [e]) e.definition e.position = 31 - e.depth := by
    rw [digitIn, depthIn_append, depthIn_singleton, if_pos ⟨rfl, rfl⟩, new]
    rfl
  have beyond : ∀ j, e.position + 1 ≤ j → digitIn (es ++ [e]) e.definition j = 0 := by
    intro j above
    rw [digitIn, depthIn_append, depthIn_singleton, if_neg (by omega), Option.or_none,
      ordered.none_above (by omega)]
    rfl
  rw [rankIn, rankIn, weight_zeros inside.le clear, weight_zeros inside beyond, weight, set,
    weight_congr kept]
  generalize weight 32 (digitIn es e.definition) e.position = high
  have bits : (32 : Nat) = 2 ^ 5 := rfl
  have one : 6 - e.position = 5 - e.position + 1 := by omega
  have next : 6 - (e.position + 1) = 5 - e.position := by omega
  rw [one, next, bits, ← pow_mul, ← pow_mul, Nat.mul_comm 5, Nat.mul_comm 5]
  generalize 5 - e.position = k
  have low : (31 - e.depth) <<< (k * 5) < 2 ^ ((k + 1) * 5) := by
    rw [Nat.shiftLeft_eq, Nat.succ_mul, pow_add, Nat.mul_comm (2 ^ (k * 5))]
    exact Nat.mul_lt_mul_of_pos_right (by omega) (Nat.two_pow_pos _)
  rw [← Nat.shiftLeft_eq high, ← Nat.shiftLeft_add_eq_or_of_lt low, Nat.shiftLeft_eq, Nat.shiftLeft_eq,
    Nat.succ_mul k, pow_add, Nat.add_mul, Nat.mul_assoc, Nat.mul_comm (2 ^ 5)]

end Events

/-! A dispatch that is no resend answers the definition of the highest rank. -/

section Choice

variable {ω μ σ δ κ : Type} {w : World ω μ σ δ κ}

def Takes (w : World ω μ σ δ κ) (s : Search ω μ δ) (d : δ) : Prop :=
  s.marks.foundPositions d = (w.definition d).dispatchPositions ∧
    (∀ c, s.dispatch = some c → (s.marks.definitions c).dispatchRank < s.marks.dispatchRank d) ∧
    s.marks.dispatchRank d ≤ s.resendRank

theorem takes_iff (s : Search ω μ δ) (d : δ) :
    (s.marks.foundPositions d = (w.definition d).dispatchPositions ∧
      (s.chosenRank.all fun chosen => decide (chosen < s.marks.dispatchRank d)) = true ∧
      s.marks.dispatchRank d ≤ s.resendRank) ↔ Takes w s d := by
  unfold Takes Search.chosenRank
  cases s.dispatch with
  | none => simp
  | some c => simp

end Choice

section Steps

variable {ω μ σ δ κ : Type} [DecidableEq δ] {w : World ω μ σ δ κ} {es : List (Event ω δ)}

def CompleteIn (w : World ω μ σ δ κ) (es : List (Event ω δ)) (d : δ) : Prop :=
  ∀ i, (w.definition d).dispatchPositions.testBit i = (depthIn es d i).isSome

def TakenAt (w : World ω μ σ δ κ) (es : List (Event ω δ)) (e : Event ω δ) : Prop :=
  ∃ es₁ es₂, es = es₁ ++ e :: es₂ ∧ depthIn es₁ e.definition e.position = none ∧
    CompleteIn w (es₁ ++ [e]) e.definition ∧
    ∀ d, Occurs es₁ d → CompleteIn w es₁ d → rankIn es₁ d < rankIn (es₁ ++ [e]) e.definition

theorem TakenAt.append {e : Event ω δ} (taken : TakenAt w es e) (fs : List (Event ω δ)) :
    TakenAt w (es ++ fs) e := by
  obtain ⟨es₁, es₂, rfl, taken⟩ := taken
  exact ⟨es₁, es₂ ++ fs, by rw [List.append_assoc, List.cons_append], taken⟩

structure Knows (w : World ω μ σ δ κ) (es : List (Event ω δ)) (s : Search ω μ δ) : Prop where
  positions : ∀ d i, (s.marks.foundPositions d).testBit i = (depthIn es d i).isSome
  ranks : ∀ d, s.marks.dispatchRank d = rankIn es d
  stamped : ∀ d, Occurs es d → (s.marks.definitions d).dispatchID = s.marks.current
  limit : s.resendRank = wordMax
  waiting : s.dispatch = none → ∀ d, Occurs es d → ¬ CompleteIn w es d
  chosen : ∀ d, s.dispatch = some d → Occurs es d ∧ CompleteIn w es d ∧
    ∀ d', Occurs es d' → CompleteIn w es d' → rankIn es d' ≤ rankIn es d
  bound : ∀ d, Occurs es d → rankIn es d ≤ s.bestRank
  best : ∀ b, s.bestDef = some b → s.dispatch = some b ∧ rankIn es b = s.bestRank ∧
    ∀ d, Occurs es d → d ≠ b → rankIn es d < s.bestRank
  positive : ∀ b, s.bestDef = some b → 0 < s.bestRank
  taken : ∀ d, s.dispatch = some d →
    ∃ e, e.definition = d ∧ s.slotLocation = some e.object ∧ TakenAt w es e

theorem rankIn_lt (es : List (Event ω δ)) (d : δ) : rankIn es d < wordMax := by
  have bound := weight_lt_pow (digitIn_lt es d) 6
  exact Nat.lt_trans bound (by decide)

variable {e : Event ω δ}

omit [DecidableEq δ] in
theorem occurs_snoc {d : δ} : Occurs (es ++ [e]) d ↔ Occurs es d ∨ d = e.definition := by
  unfold Occurs
  simp only [List.mem_append, List.mem_singleton]
  constructor
  · rintro ⟨f, member | rfl, rfl⟩
    · exact Or.inl ⟨f, member, rfl⟩
    · exact Or.inr rfl
  · rintro (⟨f, member, rfl⟩ | rfl)
    · exact ⟨f, Or.inl member, rfl⟩
    · exact ⟨e, Or.inr rfl, rfl⟩

theorem depthIn_snoc_of_ne {d : δ} (other : d ≠ e.definition) (i : Nat) :
    depthIn (es ++ [e]) d i = depthIn es d i := by
  rw [depthIn_append, depthIn_singleton, if_neg fun same => other same.2.symm, Option.or_none]

theorem depthIn_snoc_known {depth : Nat} (known : depthIn es e.definition e.position = some depth)
    (d : δ) (i : Nat) : depthIn (es ++ [e]) d i = depthIn es d i := by
  rw [depthIn_append, depthIn_singleton]
  split
  · rename_i same
    obtain ⟨rfl, rfl⟩ := same
    rw [known]
    rfl
  · exact Option.or_none

theorem rankIn_snoc_of_ne {d : δ} (other : d ≠ e.definition) :
    rankIn (es ++ [e]) d = rankIn es d := by
  apply weight_congr
  intro i _
  rw [digitIn, digitIn, depthIn_snoc_of_ne other]

theorem completeIn_snoc_of_ne {d : δ} (other : d ≠ e.definition) :
    CompleteIn w (es ++ [e]) d ↔ CompleteIn w es d := by
  simp only [CompleteIn, depthIn_snoc_of_ne other]

theorem Knows.repeated {s : Search ω μ δ} (knows : Knows w es s) {depth : Nat}
    (known : depthIn es e.definition e.position = some depth) : Knows w (es ++ [e]) s := by
  have depths := depthIn_snoc_known known
  have rank : ∀ d, rankIn (es ++ [e]) d = rankIn es d := by
    intro d
    apply weight_congr
    intro i _
    rw [digitIn, digitIn, depths]
  have complete : ∀ d, CompleteIn w (es ++ [e]) d ↔ CompleteIn w es d := by
    intro d
    simp only [CompleteIn, depths]
  have occurs : ∀ d, Occurs (es ++ [e]) d ↔ Occurs es d := by
    intro d
    rw [occurs_snoc]
    constructor
    · rintro (before | rfl)
      · exact before
      · obtain ⟨f, member, -, same, -⟩ := depthIn_eq_some known
        exact ⟨f, member, same⟩
    · exact Or.inl
  constructor
  · simpa only [depths] using knows.positions
  · simpa only [rank] using knows.ranks
  · simpa only [occurs] using knows.stamped
  · exact knows.limit
  · simpa only [occurs, complete] using knows.waiting
  · simpa only [occurs, complete, rank] using knows.chosen
  · simpa only [occurs, rank] using knows.bound
  · simpa only [occurs, rank] using knows.best
  · exact knows.positive
  · intro d chosen
    obtain ⟨f, same, slot, at_⟩ := knows.taken d chosen
    exact ⟨f, same, slot, at_.append [e]⟩

variable [DecidableEq κ] {s : Search ω μ δ} {d : δ} (obj : ω) (before : List (RoleEntry σ δ))

theorem consider_highest (takes : Takes w s d) (higher : s.bestRank < s.marks.dispatchRank d) :
    s.consider w obj before d (none : Option κ) =
      { s with
        dispatch := some d, slotLocation := some obj, bestRank := s.marks.dispatchRank d,
        bestDef := some d } := by
  have taken := (takes_iff s d).mpr takes
  simp only [Search.consider, reduceCtorEq, if_false, if_pos taken, Search.choose, if_pos higher,
    ne_eq, not_true, and_false]

theorem consider_taken (takes : Takes w s d) (lower : s.marks.dispatchRank d ≤ s.bestRank)
    (open_ : s.bestDef = none) : s.consider w obj before d (none : Option κ) =
      { s with dispatch := some d, slotLocation := some obj } := by
  have taken := (takes_iff s d).mpr takes
  simp only [Search.consider, reduceCtorEq, if_false, if_pos taken, Search.choose,
    if_neg (Nat.not_lt_of_le lower)]
  split
  · rename_i equal
    rw [← Nat.le_antisymm equal.1 lower, ← open_]
  · rfl

theorem consider_passed (passes : ¬ Takes w s d) (other : s.bestDef ≠ some d) :
    s.consider w obj before d (none : Option κ) =
      if s.bestRank ≤ s.marks.dispatchRank d then
        { s with bestRank := s.marks.dispatchRank d, bestDef := none }
      else s := by
  have left := mt (takes_iff s d).mp passes
  simp only [Search.consider, reduceCtorEq, if_false, if_neg left, ne_eq, other, not_false_eq_true,
    and_true]

end Steps

section Found

variable {ω μ σ δ κ : Type} [DecidableEq δ] {w : World ω μ σ δ κ} {es : List (Event ω δ)}
  {e : Event ω δ}

theorem find_positions (marks : Marks μ δ) (d d' : δ) (i depth j : Nat) :
    ((marks.find d i depth).foundPositions d').testBit j =
      ((marks.foundPositions d').testBit j || decide (d' = d ∧ i = j)) := by
  by_cases same : d' = d
  · subst same
    simp only [Marks.find, Marks.foundPositions, Function.update_self, if_true, true_and]
    exact testBit_or_shift _ i j
  · simp only [Marks.find, Marks.foundPositions, Function.update_of_ne same, same, false_and,
      decide_false, Bool.or_false]

theorem find_rank_self (marks : Marks μ δ) (d : δ) (i depth : Nat) :
    (marks.find d i depth).dispatchRank d =
      marks.dispatchRank d ||| (31 - depth) <<< ((5 - i) * 5) := by
  simp only [Marks.find, Marks.dispatchRank, Function.update_self, if_true]

theorem find_definition_of_ne (marks : Marks μ δ) {d d' : δ} (other : d' ≠ d) (i depth : Nat) :
    (marks.find d i depth).definitions d' = marks.definitions d' := by
  simp only [Marks.find, Function.update_of_ne other]

theorem find_rank_of_ne (marks : Marks μ δ) {d d' : δ} (other : d' ≠ d) (i depth : Nat) :
    (marks.find d i depth).dispatchRank d' = marks.dispatchRank d' := by
  simp only [Marks.dispatchRank, find_definition_of_ne marks other]
  rfl

theorem completeIn_iff {marks : Marks μ δ} {d : δ}
    (positions : ∀ i, (marks.foundPositions d).testBit i = (depthIn es d i).isSome) :
    CompleteIn w es d ↔ marks.foundPositions d = (w.definition d).dispatchPositions := by
  constructor
  · intro complete
    apply Nat.eq_of_testBit_eq
    intro i
    rw [positions, complete]
  · intro same i
    rw [← same, positions]

theorem Knows.mark {s : Search ω μ δ} (knows : Knows w es s) (ordered : Ordered (es ++ [e]))
    (new : depthIn es e.definition e.position = none) :
    (∀ d i, ((s.marks.find e.definition e.position e.depth).foundPositions d).testBit i =
      (depthIn (es ++ [e]) d i).isSome) ∧
    (∀ d, (s.marks.find e.definition e.position e.depth).dispatchRank d = rankIn (es ++ [e]) d) ∧
    ∀ d, Occurs (es ++ [e]) d →
      ((s.marks.find e.definition e.position e.depth).definitions d).dispatchID =
        s.marks.current := by
  refine ⟨?_, ?_, ?_⟩
  · intro d i
    rw [find_positions, knows.positions, depthIn_append, depthIn_singleton, Option.isSome_or]
    by_cases here : e.position = i ∧ e.definition = d
    · simp [here]
    · rw [if_neg here, decide_eq_false fun same => here ⟨same.2, same.1.symm⟩]
      rfl
  · intro d
    by_cases same : d = e.definition
    · subst same
      rw [find_rank_self, knows.ranks, rank_find ordered new]
    · rw [find_rank_of_ne _ same, knows.ranks, rankIn_snoc_of_ne same]
  · intro d occurs
    by_cases same : d = e.definition
    · subst same
      simp only [Marks.find, Function.update_self]
    · rw [find_definition_of_ne _ same]
      exact knows.stamped d ((occurs_snoc.mp occurs).resolve_right same)

variable [DecidableEq κ]

theorem Knows.found {s : Search ω μ δ} (knows : Knows w es s) (ordered : Ordered (es ++ [e]))
    (fits : (w.definition e.definition).dispatchPositions.testBit e.position = true)
    (new : depthIn es e.definition e.position = none) (before : List (RoleEntry σ δ)) :
    Knows w (es ++ [e]) (({ s with marks := s.marks.find e.definition e.position e.depth }).consider
      w e.object before e.definition (none : Option κ)) := by
  obtain ⟨positions, ranks, stamped⟩ := knows.mark ordered new
  -- The definition was not complete before, so it is neither chosen nor the best one.
  have unfinished : ¬ CompleteIn w es e.definition := by
    intro complete
    have bit := complete e.position
    rw [fits, new] at bit
    cases bit
  have notChosen : s.dispatch ≠ some e.definition :=
    fun chosen => unfinished (knows.chosen _ chosen).2.1
  have notBest : s.bestDef ≠ some e.definition := fun best => notChosen (knows.best _ best).1
  have same : ∀ d, Occurs (es ++ [e]) d → d ≠ e.definition → Occurs es d ∧
      rankIn (es ++ [e]) d = rankIn es d ∧ (CompleteIn w (es ++ [e]) d ↔ CompleteIn w es d) :=
    fun d occurs other => ⟨(occurs_snoc.mp occurs).resolve_right other, rankIn_snoc_of_ne other,
      completeIn_snoc_of_ne other⟩
  have here : Occurs (es ++ [e]) e.definition := occurs_snoc.mpr (Or.inr rfl)
  have still : ∀ c, s.dispatch = some c → Occurs (es ++ [e]) c ∧ c ≠ e.definition := by
    intro c chosen
    refine ⟨occurs_snoc.mpr (Or.inl (knows.chosen c chosen).1), ?_⟩
    rintro rfl
    exact notChosen chosen
  have raw : ∀ c, s.dispatch = some c →
      ((s.marks.find e.definition e.position e.depth).definitions c).dispatchRank =
        rankIn (es ++ [e]) c := by
    intro c chosen
    rw [← ranks c, Marks.dispatchRank, if_pos]
    exact stamped c (still c chosen).1
  have takes : Takes w { s with marks := s.marks.find e.definition e.position e.depth } e.definition ↔
      CompleteIn w (es ++ [e]) e.definition ∧
        ∀ c, s.dispatch = some c → rankIn (es ++ [e]) c < rankIn (es ++ [e]) e.definition := by
    unfold Takes
    rw [completeIn_iff (positions e.definition), ranks, knows.limit]
    refine and_congr_right fun _ => ⟨fun h c chosen => ?_, fun h => ⟨fun c chosen => ?_, ?_⟩⟩
    · rw [← raw c chosen]
      exact h.1 c chosen
    · rw [raw c chosen]
      exact h c chosen
    · exact (rankIn_lt _ _).le
  have keeps : ∀ c, s.dispatch = some c → ∃ f, f.definition = c ∧
      s.slotLocation = some f.object ∧ TakenAt w (es ++ [e]) f := by
    intro c chosen
    obtain ⟨f, same, slot, at_⟩ := knows.taken c chosen
    exact ⟨f, same, slot, at_.append [e]⟩
  have bounds : ∀ limit, s.bestRank ≤ limit → rankIn (es ++ [e]) e.definition ≤ limit →
      ∀ d, Occurs (es ++ [e]) d → rankIn (es ++ [e]) d ≤ limit := by
    intro limit old new d occurs
    by_cases other : d = e.definition
    · rw [other]
      exact new
    · obtain ⟨before, rank, -⟩ := same d occurs other
      rw [rank]
      exact (knows.bound d before).trans old
  by_cases taken : Takes w { s with marks := s.marks.find e.definition e.position e.depth } e.definition
  · obtain ⟨complete, above⟩ := takes.mp taken
    have outranks : ∀ d, Occurs es d → CompleteIn w es d →
        rankIn es d < rankIn (es ++ [e]) e.definition := by
      intro d occurs finished
      cases chosen : s.dispatch with
      | none => exact absurd finished (knows.waiting chosen d occurs)
      | some c =>
        have less := above c chosen
        rw [rankIn_snoc_of_ne (still c chosen).2] at less
        exact Nat.lt_of_le_of_lt ((knows.chosen c chosen).2.2 d occurs finished) less
    have now : ∀ d, some e.definition = some d → ∃ f, f.definition = d ∧
        some e.object = some f.object ∧ TakenAt w (es ++ [e]) f := by
      rintro d ⟨⟩
      exact ⟨e, rfl, rfl, es, [], rfl, new, complete, outranks⟩
    have highest : ∀ d, some e.definition = some d → Occurs (es ++ [e]) d ∧
        CompleteIn w (es ++ [e]) d ∧ ∀ d', Occurs (es ++ [e]) d' → CompleteIn w (es ++ [e]) d' →
          rankIn (es ++ [e]) d' ≤ rankIn (es ++ [e]) d := by
      rintro d ⟨⟩
      refine ⟨here, complete, fun d occurs finished => ?_⟩
      by_cases other : d = e.definition
      · rw [other]
      · obtain ⟨before, rank, completes⟩ := same d occurs other
        rw [rank]
        exact (outranks d before (completes.mp finished)).le
    have chosen_ : ∀ d, some e.definition = none → Occurs (es ++ [e]) d →
        ¬ CompleteIn w (es ++ [e]) d := by
      intro d none_
      cases none_
    rcases Nat.lt_or_ge s.bestRank (rankIn (es ++ [e]) e.definition) with higher | lower
    · rw [consider_highest _ _ taken (by rw [ranks]; exact higher)]
      simp only [ranks]
      refine ⟨positions, ranks, stamped, knows.limit, fun none_ d => chosen_ d none_, highest,
        bounds _ higher.le le_rfl, ?_, fun b _ => Nat.zero_lt_of_lt higher, now⟩
      rintro b ⟨⟩
      refine ⟨rfl, rfl, fun d occurs other => ?_⟩
      obtain ⟨before, rank, -⟩ := same d occurs other
      rw [rank]
      exact Nat.lt_of_le_of_lt (knows.bound d before) higher
    · -- A best definition would be the chosen one, and rank lower.
      have none_ : s.bestDef = none := by
        cases best : s.bestDef with
        | none => rfl
        | some b =>
          obtain ⟨chosen, rank, -⟩ := knows.best b best
          have less := above b chosen
          rw [rankIn_snoc_of_ne (still b chosen).2] at less
          omega
      rw [consider_taken _ _ taken (by rw [ranks]; exact lower) none_]
      refine ⟨positions, ranks, stamped, knows.limit, fun none_ d => chosen_ d none_, highest,
        bounds _ le_rfl lower, fun b best => ?_, knows.positive, now⟩
      cases none_.symm.trans best
  · have waits : s.dispatch = none → ∀ d, Occurs (es ++ [e]) d → ¬ CompleteIn w (es ++ [e]) d := by
      intro chosen d occurs finished
      by_cases other : d = e.definition
      · subst other
        refine taken (takes.mpr ⟨finished, fun c some_ => ?_⟩)
        cases chosen.symm.trans some_
      · obtain ⟨before, -, completes⟩ := same d occurs other
        exact knows.waiting chosen d before (completes.mp finished)
    have kept : ∀ c, s.dispatch = some c → Occurs (es ++ [e]) c ∧ CompleteIn w (es ++ [e]) c ∧
        ∀ d, Occurs (es ++ [e]) d → CompleteIn w (es ++ [e]) d →
          rankIn (es ++ [e]) d ≤ rankIn (es ++ [e]) c := by
      intro c chosen
      obtain ⟨-, complete, most⟩ := knows.chosen c chosen
      obtain ⟨there, differs⟩ := still c chosen
      refine ⟨there, (same c there differs).2.2.mpr complete, fun d occurs finished => ?_⟩
      by_cases other : d = e.definition
      · subst other
        by_contra above
        refine taken (takes.mpr ⟨finished, fun c' chosen' => ?_⟩)
        cases chosen.symm.trans chosen'
        omega
      · obtain ⟨before, rank, completes⟩ := same d occurs other
        rw [rank, (same c there differs).2.1]
        exact most d before (completes.mp finished)
    rw [consider_passed _ _ taken notBest]
    simp only [ranks]
    split
    · rename_i lower
      refine ⟨positions, ranks, stamped, knows.limit, waits, kept, bounds _ lower le_rfl,
        fun b none_ => ?_, fun b none_ => ?_, keeps⟩
      · cases none_
      · cases none_
    · rename_i higher
      have less := Nat.lt_of_not_le higher
      refine ⟨positions, ranks, stamped, knows.limit, waits, kept, bounds _ le_rfl less.le,
        fun b best => ?_, knows.positive, keeps⟩
      obtain ⟨chosen, rank, strict⟩ := knows.best b best
      obtain ⟨there, differs⟩ := still b chosen
      refine ⟨chosen, (same b there differs).2.1.trans rank, fun d occurs other => ?_⟩
      by_cases mine : d = e.definition
      · rw [mine]
        exact less
      · obtain ⟨before, rank', -⟩ := same d occurs mine
        rw [rank']
        exact strict d before other

end Found

section Answers

variable {ω μ σ δ κ : Type} [DecidableEq δ] {w : World ω μ σ δ κ} {es fs : List (Event ω δ)} {d d' : δ}

def Fitting (w : World ω μ σ δ κ) (es : List (Event ω δ)) : Prop :=
  ∀ e ∈ es, (w.definition e.definition).dispatchPositions.testBit e.position = true

theorem CompleteIn.stays (complete : CompleteIn w es d) (fits : Fitting w fs) (i : Nat) :
    depthIn (es ++ fs) d i = depthIn es d i := by
  rw [depthIn_append]
  cases first : depthIn es d i with
  | some depth => rfl
  | none =>
    rw [Option.none_or, ← Option.not_isSome_iff_eq_none, depthIn_isSome]
    rintro ⟨f, member, rfl, rfl⟩
    have bit := complete f.position
    rw [fits f member, first] at bit
    cases bit

theorem CompleteIn.append (complete : CompleteIn w es d) (fits : Fitting w fs) :
    CompleteIn w (es ++ fs) d := by
  intro i
  rw [complete i, complete.stays fits]

theorem CompleteIn.rank (complete : CompleteIn w es d) (fits : Fitting w fs) :
    rankIn (es ++ fs) d = rankIn es d := by
  apply weight_congr
  intro i _
  rw [digitIn, digitIn, complete.stays fits]

/-- The event that completes, as the first one, a definition of the highest rank. -/
structure Chosen (w : World ω μ σ δ κ) (es : List (Event ω δ)) (e : Event ω δ) : Prop where
  complete : CompleteIn w es e.definition
  most : ∀ d, Occurs es d → CompleteIn w es d → rankIn es d ≤ rankIn es e.definition
  taken : TakenAt w es e

theorem Chosen.member {e : Event ω δ} (chosen : Chosen w es e) : e ∈ es := by
  obtain ⟨es₁, es₂, rfl, -⟩ := chosen.taken
  exact List.mem_append_right _ List.mem_cons_self

structure Answered (w : World ω μ σ δ κ) (es : List (Event ω δ)) (choice : Option δ)
    (slot : Option ω) : Prop where
  waiting : choice = none → ∀ d, Occurs es d → ¬ CompleteIn w es d
  chosen : ∀ d, choice = some d → ∃ e, e.definition = d ∧ slot = some e.object ∧ Chosen w es e

theorem Knows.answered {s : Search ω μ δ} (knows : Knows w es s) :
    Answered w es s.dispatch s.slotLocation := by
  refine ⟨knows.waiting, fun d chosen => ?_⟩
  obtain ⟨-, complete, most⟩ := knows.chosen d chosen
  obtain ⟨e, rfl, slot, taken⟩ := knows.taken d chosen
  exact ⟨e, rfl, slot, complete, most, taken⟩

theorem rank_of_later {es₁ es₂ es₃ : List (Event ω δ)} {e e' : Event ω δ}
    (fits : Fitting w (es₁ ++ e :: (es₂ ++ e' :: es₃))) (complete : CompleteIn w (es₁ ++ [e]) e.definition)
    (complete' : CompleteIn w (es₁ ++ e :: es₂ ++ [e']) e'.definition)
    (above : ∀ d, Occurs (es₁ ++ e :: es₂) d → CompleteIn w (es₁ ++ e :: es₂) d →
      rankIn (es₁ ++ e :: es₂) d < rankIn (es₁ ++ e :: es₂ ++ [e']) e'.definition) :
    rankIn (es₁ ++ e :: (es₂ ++ e' :: es₃)) e.definition <
      rankIn (es₁ ++ e :: (es₂ ++ e' :: es₃)) e'.definition := by
  have between : Fitting w es₂ := fun f member => fits f (by simp [member])
  have rest : Fitting w (e' :: es₃) := fun f member =>
    fits f (List.mem_append_right _ (List.mem_cons_of_mem _ (List.mem_append_right _ member)))
  have last : Fitting w es₃ := fun f member => rest f (List.mem_cons_of_mem _ member)
  have here : Occurs (es₁ ++ e :: es₂) e.definition :=
    ⟨e, List.mem_append_right _ List.mem_cons_self, rfl⟩
  have split : es₁ ++ e :: es₂ = es₁ ++ [e] ++ es₂ := by simp
  have whole : es₁ ++ e :: (es₂ ++ e' :: es₃) = es₁ ++ e :: es₂ ++ [e'] ++ es₃ := by simp
  have whole' : es₁ ++ e :: (es₂ ++ e' :: es₃) = es₁ ++ e :: es₂ ++ e' :: es₃ := by simp
  have completes : CompleteIn w (es₁ ++ e :: es₂) e.definition := by
    rw [split]
    exact complete.append between
  have less := above e.definition here completes
  rw [← completes.rank rest, ← complete'.rank last] at less
  rw [← whole, ← whole'] at less
  exact less

theorem TakenAt.unique (fits : Fitting w es) {e e' : Event ω δ} (taken : TakenAt w es e)
    (taken' : TakenAt w es e') (equal : rankIn es e.definition = rankIn es e'.definition) :
    e = e' := by
  obtain ⟨es₁, es₂, rfl, -, complete, above⟩ := taken
  obtain ⟨es₁', es₂', split, -, complete', above'⟩ := taken'
  rcases List.append_eq_append_iff.mp split with ⟨between, rfl, next⟩ | ⟨between, rfl, next⟩
  · cases between with
    | nil =>
      cases next
      rfl
    | cons f between =>
      rw [List.cons_append] at next
      cases next
      exact absurd equal (rank_of_later fits complete complete' above').ne
  · cases between with
    | nil =>
      cases next
      rfl
    | cons f between =>
      rw [List.cons_append] at next
      cases next
      rw [List.append_assoc, List.cons_append] at fits equal
      exact absurd equal (rank_of_later fits complete' complete above).ne'

theorem Chosen.occurs {e : Event ω δ} (chosen : Chosen w es e) : Occurs es e.definition :=
  ⟨e, chosen.member, rfl⟩

theorem Chosen.unique (fits : Fitting w es) {e e' : Event ω δ} (chosen : Chosen w es e)
    (chosen' : Chosen w es e') : e = e' := by
  have equal := Nat.le_antisymm (chosen'.most _ chosen.occurs chosen.complete)
    (chosen.most _ chosen'.occurs chosen'.complete)
  exact chosen.taken.unique fits chosen'.taken equal

theorem Answered.unique (fits : Fitting w es) {choice choice' : Option δ} {slot slot' : Option ω}
    (answered : Answered w es choice slot) (answered' : Answered w es choice' slot') :
    choice = choice' ∧ (choice.isSome → slot = slot') := by
  cases choice with
  | none =>
    cases choice' with
    | none =>
      refine ⟨rfl, fun some_ => ?_⟩
      cases some_
    | some d' =>
      obtain ⟨e', rfl, -, chosen'⟩ := answered'.chosen d' rfl
      exact absurd chosen'.complete (answered.waiting rfl _ chosen'.occurs)
  | some d =>
    obtain ⟨e, rfl, rfl, chosen⟩ := answered.chosen d rfl
    cases choice' with
    | none => exact absurd chosen.complete (answered'.waiting rfl _ chosen.occurs)
    | some d' =>
      obtain ⟨e', rfl, rfl, chosen'⟩ := answered'.chosen d' rfl
      cases chosen.unique fits chosen'
      exact ⟨rfl, fun _ => rfl⟩

end Answers

section Events

variable {ω μ σ δ κ : Type} [DecidableEq σ] (w : World ω μ σ δ κ) (name : σ)

def eventsAt (i depth : Nat) (obj : ω) : List (Event ω δ) :=
  ((rolesNamed w (w.mapAt obj).roleTable name).filter fun role => role.rolePositions.testBit i).map
    fun role => ⟨i, depth, obj, role.methodDefinition⟩

def eventsOf (i : Nat) : Nat → List ω → List (Event ω δ)
  | _, [] => []
  | depth, obj :: objs => eventsAt w name i depth obj ++ eventsOf i (depth + 1) objs

def eventsFrom : Nat → List (List ω) → List (Event ω δ)
  | _, [] => []
  | i, objs :: walks => eventsOf w name i 0 objs ++ eventsFrom (i + 1) walks

variable {w name}

theorem mem_eventsAt {i depth : Nat} {obj : ω} {e : Event ω δ} (member : e ∈ eventsAt w name i depth obj) :
    e.position = i ∧ e.depth = depth ∧ e.object = obj ∧
      ∃ role ∈ rolesNamed w (w.mapAt obj).roleTable name,
        role.rolePositions.testBit i = true ∧ role.methodDefinition = e.definition := by
  obtain ⟨role, chosen, rfl⟩ := List.mem_map.mp member
  obtain ⟨there, bit⟩ := List.mem_filter.mp chosen
  exact ⟨rfl, rfl, rfl, role, there, bit, rfl⟩

theorem mem_eventsOf {i depth : Nat} {objs : List ω} {e : Event ω δ}
    (member : e ∈ eventsOf w name i depth objs) : e.position = i ∧ depth ≤ e.depth ∧
      e.depth < depth + objs.length ∧ e ∈ eventsAt w name i e.depth e.object := by
  induction objs generalizing depth with
  | nil => cases member
  | cons obj objs ih =>
    rw [List.length_cons]
    rcases List.mem_append.mp member with here | later
    · obtain ⟨position, at_, same, -⟩ := mem_eventsAt here
      subst at_ same
      exact ⟨position, le_rfl, by omega, here⟩
    · obtain ⟨position, low, high, event⟩ := ih later
      exact ⟨position, by omega, by omega, event⟩

theorem mem_eventsFrom {i : Nat} {walks : List (List ω)} {e : Event ω δ}
    (member : e ∈ eventsFrom w name i walks) : i ≤ e.position ∧ e.position < i + walks.length ∧
      ∃ objs ∈ walks, e ∈ eventsOf w name e.position 0 objs := by
  induction walks generalizing i with
  | nil => cases member
  | cons objs walks ih =>
    rw [List.length_cons]
    rcases List.mem_append.mp member with here | later
    · obtain ⟨position, -⟩ := mem_eventsOf here
      subst position
      exact ⟨le_rfl, by omega, objs, List.mem_cons_self, here⟩
    · obtain ⟨low, high, objs', there, event⟩ := ih later
      exact ⟨by omega, by omega, objs', List.mem_cons_of_mem _ there, event⟩

theorem role_of_event {i : Nat} {walks : List (List ω)} {e : Event ω δ}
    (member : e ∈ eventsFrom w name i walks) :
    ∃ role ∈ rolesNamed w (w.mapAt e.object).roleTable name,
      role.rolePositions.testBit e.position = true ∧ role.methodDefinition = e.definition := by
  obtain ⟨-, -, objs, -, met⟩ := mem_eventsFrom member
  obtain ⟨-, -, -, event⟩ := mem_eventsOf met
  obtain ⟨-, -, -, role⟩ := mem_eventsAt event
  exact role

theorem eventsOf_pairwise (i depth : Nat) (objs : List ω) :
    (eventsOf w name i depth objs).Pairwise fun e f => e.position < f.position ∨
      e.position = f.position ∧ e.depth ≤ f.depth := by
  induction objs generalizing depth with
  | nil => exact List.Pairwise.nil
  | cons obj objs ih =>
    refine List.pairwise_append.mpr ⟨?_, ih (depth + 1), ?_⟩
    · refine List.Pairwise.imp_of_mem ?_ (List.pairwise_of_forall fun _ _ => True.intro)
      intro e f there there' _
      obtain ⟨position, at_, -⟩ := mem_eventsAt there
      obtain ⟨position', at', -⟩ := mem_eventsAt there'
      exact Or.inr ⟨by omega, by omega⟩
    · intro e there f there'
      obtain ⟨position, at_, -⟩ := mem_eventsAt there
      obtain ⟨position', low, -⟩ := mem_eventsOf there'
      exact Or.inr ⟨by omega, by omega⟩

theorem eventsFrom_ordered {walks : List (List ω)} (six : walks.length ≤ 6)
    (shallow : ∀ objs ∈ walks, objs.length ≤ 32) : Ordered (eventsFrom (δ := δ) w name 0 walks) where
  ascends := by
    generalize 0 = i
    clear six shallow
    induction walks generalizing i with
    | nil => exact List.Pairwise.nil
    | cons objs walks ih =>
      refine List.pairwise_append.mpr ⟨eventsOf_pairwise i 0 objs, ih (i + 1), ?_⟩
      intro e there f there'
      obtain ⟨position, -⟩ := mem_eventsOf there
      obtain ⟨low, -⟩ := mem_eventsFrom there'
      exact Or.inl (by omega)
  positions e member := by
    obtain ⟨-, high, -⟩ := mem_eventsFrom member
    omega
  depths e member := by
    obtain ⟨-, -, objs, there, event⟩ := mem_eventsFrom member
    obtain ⟨-, -, high, -⟩ := mem_eventsOf event
    have few := shallow objs there
    omega

theorem RolesFit.eventsAt (fit : RolesFit w name) {i depth : Nat} {obj : ω} {e : Event ω δ}
    (member : e ∈ Dispatch.eventsAt w name i depth obj) :
    (w.definition e.definition).dispatchPositions.testBit i = true := by
  obtain ⟨-, -, -, role, there, bit, same⟩ := mem_eventsAt member
  rw [← same]
  exact fit _ role there i bit

theorem RolesFit.eventsFrom (fit : RolesFit w name) (i : Nat) (walks : List (List ω)) :
    Fitting w (eventsFrom w name i walks) := by
  intro e member
  obtain ⟨role, there, bit, same⟩ := role_of_event member
  rw [← same]
  exact fit _ role there _ bit

variable [DecidableEq δ]

theorem depthIn_none {es : List (Event ω δ)} {d : δ} {i : Nat} (others : ∀ e ∈ es, e.position ≠ i) :
    depthIn es d i = none := by
  rw [← Option.not_isSome_iff_eq_none, depthIn_isSome]
  rintro ⟨e, member, position, -⟩
  exact others e member position

theorem depthIn_eventsAt (i depth : Nat) (obj : ω) (d : δ) :
    depthIn (eventsAt w name i depth obj) d i =
      if (rolesNamed w (w.mapAt obj).roleTable name).any (fun role =>
        role.rolePositions.testBit i && decide (role.methodDefinition = d)) = true
      then some depth else none := by
  split
  · rename_i has
    obtain ⟨role, there, bit⟩ := List.any_eq_true.mp has
    rw [Bool.and_eq_true, decide_eq_true_eq] at bit
    have found : (depthIn (eventsAt w name i depth obj) d i).isSome := by
      rw [depthIn_isSome]
      exact ⟨_, List.mem_map_of_mem (List.mem_filter.mpr ⟨there, bit.1⟩), rfl, bit.2⟩
    obtain ⟨at_, first⟩ := Option.isSome_iff_exists.mp found
    obtain ⟨e, member, -, -, same⟩ := depthIn_eq_some first
    rw [first, ← same, (mem_eventsAt member).2.1]
  · rename_i hasNot
    rw [← Option.not_isSome_iff_eq_none, depthIn_isSome]
    rintro ⟨e, member, -, same⟩
    obtain ⟨-, -, -, role, there, bit, defines⟩ := mem_eventsAt member
    refine hasNot (List.any_eq_true.mpr ⟨role, there, ?_⟩)
    rw [bit, defines, same, decide_eq_true rfl]
    rfl

theorem depthIn_eventsOf (i depth : Nat) (objs : List ω) (d : δ) :
    depthIn (eventsOf w name i depth objs) d i =
      (foundAt w name i objs d).map fun k => k + depth := by
  induction objs generalizing depth with
  | nil => rfl
  | cons obj objs ih =>
    rw [eventsOf, depthIn_append, depthIn_eventsAt, ih, foundAt, foundAt, List.findIdx?_cons]
    split
    · rw [Option.map_some, Nat.zero_add]
      rfl
    · rw [Option.map_map, Option.none_or]
      apply Option.map_congr
      intro k _
      simp only [Function.comp_apply]
      omega

theorem depthIn_eventsFrom (i : Nat) (walks : List (List ω)) (d : δ) (j : Nat) :
    depthIn (eventsFrom w name i walks) d (i + j) = walks[j]?.bind fun objs =>
      foundAt w name (i + j) objs d := by
  induction walks generalizing i j with
  | nil => rfl
  | cons objs walks ih =>
    rw [eventsFrom, depthIn_append]
    cases j with
    | zero =>
      have later : depthIn (eventsFrom w name (i + 1) walks) d (i + 0) = none := by
        apply depthIn_none
        intro e member
        obtain ⟨low, -⟩ := mem_eventsFrom member
        omega
      rw [later, Option.or_none, Nat.add_zero, depthIn_eventsOf]
      simp
    | succ j =>
      have before : depthIn (eventsOf w name i 0 objs) d (i + (j + 1)) = none := by
        apply depthIn_none
        intro e member
        obtain ⟨position, -⟩ := mem_eventsOf member
        omega
      have one : i + (j + 1) = i + 1 + j := by omega
      rw [before, Option.none_or, one, ih]
      rfl

end Events

end SlateVm.Dispatch
