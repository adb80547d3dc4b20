import SlateVm.Dispatch.Best

/-! Whole searches: what the walks of all arguments leave known, and why a search may end before
them. -/

namespace SlateVm.Dispatch
open Maps Digits

section Looks

variable {ω μ σ δ κ : Type} [DecidableEq δ] [DecidableEq κ] {w : World ω μ σ δ κ} {name : σ}
  {es : List (Event ω δ)}

theorem consider_best (s : Search ω μ δ) (obj : ω) (before : List (RoleEntry σ δ)) (d b : δ)
    (best : (s.consider w obj before d (none : Option κ)).bestDef = some b) :
    s.bestDef = some b ∨ b = d := by
  have kept : ∀ t : Search ω μ δ,
      (if t.bestRank ≤ s.marks.dispatchRank d ∧ t.bestDef ≠ some d then
        { t with bestRank := s.marks.dispatchRank d, bestDef := none } else t).bestDef = some b →
      t.bestDef = some b := by
    intro t cleared
    split at cleared
    · cases cleared
    · exact cleared
  simp only [Search.consider, reduceCtorEq, if_false] at best
  have picked := kept _ best
  split at picked
  · unfold Search.choose at picked
    dsimp only at picked
    split at picked
    · exact Or.inr (Option.some.inj picked).symm
    · exact Or.inl picked
  · exact Or.inl picked

theorem meetAll_best (i depth : Nat) (obj : ω) (before roles : List (RoleEntry σ δ))
    (s : Search ω μ δ) {b : δ}
    (best : (Search.meetAll w i depth obj (none : Option κ) before roles s).bestDef = some b) :
    s.bestDef = some b ∨ ∃ role ∈ roles.filter fun role => role.rolePositions.testBit i,
      role.methodDefinition = b := by
  induction roles generalizing before s with
  | nil => exact Or.inl best
  | cons role roles ih =>
    rcases ih _ _ best with now | ⟨role', later, same⟩
    · unfold Search.meet at now
      dsimp only at now
      split at now
      · rename_i new
        rcases consider_best _ _ _ _ _ now with before | rfl
        · exact Or.inl before
        · exact Or.inr ⟨role, List.mem_filter.mpr ⟨List.mem_cons_self, new.1⟩, rfl⟩
      · exact Or.inl now
    · obtain ⟨there, bit⟩ := List.mem_filter.mp later
      exact Or.inr ⟨role', List.mem_filter.mpr ⟨List.mem_cons_of_mem _ there, bit⟩, same⟩

theorem Knows.meetAll {s : Search ω μ δ} (knows : Knows w es s) (i depth : Nat) (obj : ω)
    (before roles : List (RoleEntry σ δ))
    (ordered : Ordered (es ++ ((roles.filter fun role => role.rolePositions.testBit i).map
      fun role => (⟨i, depth, obj, role.methodDefinition⟩ : Event ω δ))))
    (fits : ∀ role ∈ roles, role.rolePositions.testBit i = true →
      (w.definition role.methodDefinition).dispatchPositions.testBit i = true) :
    Knows w (es ++ ((roles.filter fun role => role.rolePositions.testBit i).map
      fun role => (⟨i, depth, obj, role.methodDefinition⟩ : Event ω δ)))
      (Search.meetAll w i depth obj (none : Option κ) before roles s) := by
  induction roles generalizing es before s with
  | nil =>
    rw [List.filter_nil, List.map_nil, List.append_nil]
    exact knows
  | cons role roles ih =>
    have rest : ∀ role' ∈ roles, role'.rolePositions.testBit i = true →
        (w.definition role'.methodDefinition).dispatchPositions.testBit i = true :=
      fun role' there => fits role' (List.mem_cons_of_mem _ there)
    cases bit : role.rolePositions.testBit i with
    | false =>
      rw [List.filter_cons, if_neg (ne_true_of_eq_false bit)] at ordered ⊢
      have same : s.meet w i depth obj before role (none : Option κ) = s := by
        simp only [Search.meet, bit, Bool.false_eq_true, false_and, if_false]
      rw [Search.meetAll, same]
      exact ih knows _ ordered rest
    | true =>
      rw [List.filter_cons, if_pos bit, List.map_cons, List.append_cons] at ordered ⊢
      have now : Knows w (es ++ [(⟨i, depth, obj, role.methodDefinition⟩ : Event ω δ)])
          (s.meet w i depth obj before role (none : Option κ)) := by
        cases known : depthIn es role.methodDefinition i with
        | none =>
          have new : (s.marks.foundPositions role.methodDefinition).testBit i = false := by
            rw [knows.positions, known]
            rfl
          simp only [Search.meet, bit, new, true_and, if_true]
          exact knows.found (e := ⟨i, depth, obj, role.methodDefinition⟩) ordered.left
            (fits role List.mem_cons_self bit) known before
        | some at_ =>
          have old : (s.marks.foundPositions role.methodDefinition).testBit i = true := by
            rw [knows.positions, known]
            rfl
          simp only [Search.meet, old, reduceCtorEq, and_false, if_false]
          exact knows.repeated (e := ⟨i, depth, obj, role.methodDefinition⟩) known
      exact ih now _ ordered rest

variable [DecidableEq μ] [DecidableEq σ]

theorem Knows.look {s : Search ω μ δ} (knows : Knows w es s) (fit : RolesFit w name) (i depth : Nat)
    (obj : ω) (ordered : Ordered (es ++ eventsAt w name i depth obj)) :
    Knows w (es ++ eventsAt w name i depth obj)
      (s.look w name i depth obj (none : Option κ)) := by
  have visited : Knows w es { s with marks := s.marks.visit (w.mapOf obj) i } := by
    constructor
    · exact knows.positions
    · exact knows.ranks
    · exact knows.stamped
    · exact knows.limit
    · exact knows.waiting
    · exact knows.chosen
    · exact knows.bound
    · exact knows.best
    · exact knows.positive
    · exact knows.taken
  exact visited.meetAll i depth obj [] _ ordered
    fun role there => fit _ role there i

theorem look_best {s : Search ω μ δ} (unset : s.bestDef = none) {i depth : Nat} {obj : ω} {b : δ}
    (best : (s.look w name i depth obj (none : Option κ)).bestDef = some b) :
    ∃ e ∈ eventsAt w name i depth obj, e.definition = b := by
  rcases meetAll_best i depth obj [] _ _ best with before | ⟨role, there, same⟩
  · cases unset.symm.trans before
  · exact ⟨_, List.mem_map_of_mem there, same⟩

end Looks

section Early

variable {ω μ σ δ κ : Type} [DecidableEq δ] {w : World ω μ σ δ κ} {es fs : List (Event ω δ)}

theorem rankIn_high {i : Nat} (six : i < 6) (low : ∀ e ∈ es, e.position ≤ i) (d : δ) :
    rankIn es d = weight 32 (digitIn es d) (i + 1) * 32 ^ (6 - (i + 1)) := by
  apply weight_zeros (Nat.succ_le_of_lt six)
  intro j above
  rw [digitIn, depthIn_none fun e member => by have := low e member; omega]
  rfl

theorem Knows.decided {s : Search ω μ δ} (knows : Knows w es s) {b : δ}
    (best : s.bestDef = some b) (ordered : Ordered (es ++ fs))
    (fits : Fitting w fs) {i depth : Nat} (six : i < 6) (low : ∀ e ∈ es, e.position ≤ i)
    (later : ∀ f ∈ fs, i < f.position ∨ i = f.position ∧ depth < f.depth)
    {at_ : Nat} (here : depthIn es b i = some at_) (early : at_ ≤ depth) :
    Answered w (es ++ fs) s.dispatch s.slotLocation := by
  obtain ⟨chosen, rank, strict⟩ := knows.best b best
  obtain ⟨-, complete, -⟩ := knows.chosen b chosen
  have highest : ∀ d, d ≠ b → rankIn (es ++ fs) d < rankIn (es ++ fs) b := by
    intro d other
    have lower : rankIn es d < rankIn es b := by
      by_cases before : Occurs es d
      · rw [rank]
        exact strict d before other
      · have none_ : ∀ j, depthIn es d j = none := by
          intro j
          rw [← Option.not_isSome_iff_eq_none, depthIn_isSome]
          rintro ⟨e, member, -, same⟩
          exact before ⟨e, member, same⟩
        have zero : rankIn es d = weight 32 (fun _ => 0) 6 := by
          apply weight_congr
          intro j _
          rw [digitIn, none_]
          rfl
        have positive := knows.positive b best
        rw [zero, rank]
        exact positive
    rw [rankIn_high six low, rankIn_high six low] at lower
    have prefixes := Nat.lt_of_mul_lt_mul_right lower
    rw [complete.rank fits]
    refine weight_lt_of_lt (m := i + 1) six (digitIn_lt _ d) ?_
    have kept : ∀ j < i, digitIn (es ++ fs) d j = digitIn es d j := by
      intro j below
      have missing : depthIn fs d j = none := by
        apply depthIn_none
        intro f member
        have := later f member
        omega
      rw [digitIn, digitIn, depthIn_append, missing, Option.or_none]
    simp only [weight] at prefixes ⊢
    rw [weight_congr kept]
    have top : 31 - depth ≤ digitIn es b i := by
      rw [digitIn, here]
      exact Nat.sub_le_sub_left early 31
    have digit : digitIn (es ++ fs) d i = digitIn es d i ∨
        digitIn es d i = 0 ∧ digitIn (es ++ fs) d i < 31 - depth := by
      rw [digitIn, digitIn, depthIn_append]
      cases first : depthIn es d i with
      | some at' => exact Or.inl rfl
      | none =>
        rw [Option.none_or]
        cases second : depthIn fs d i with
        | none => exact Or.inl rfl
        | some at' =>
          obtain ⟨f, member, position, -, deep⟩ := depthIn_eq_some second
          have after := later f member
          have bound := ordered.depths f (List.mem_append_right _ member)
          refine Or.inr ⟨rfl, ?_⟩
          simp only [Option.elim_some]
          omega
    have bDigit := digitIn_lt es b i
    rcases digit with same | ⟨zero, small⟩
    · rw [same]
      exact prefixes
    · omega
  constructor
  · intro none_
    cases chosen.symm.trans none_
  · intro d same
    cases chosen.symm.trans same
    obtain ⟨e, rfl, slot, taken⟩ := knows.taken b chosen
    refine ⟨e, rfl, slot, complete.append fits, fun d _ _ => ?_, taken.append fs⟩
    by_cases same : d = e.definition
    · rw [same]
    · exact (highest d same).le

theorem Knows.unset {s : Search ω μ δ} (knows : Knows w es s) (goes : s.settled = false) :
    s.bestDef = none := by
  cases best : s.bestDef with
  | none => rfl
  | some b =>
    have chosen := (knows.best b best).1
    simp only [Search.settled, best, chosen, Option.isSome_some, decide_true, Bool.and_self,
      Bool.true_eq_false] at goes

end Early

section Searches

variable {ω μ σ δ κ : Type} [DecidableEq μ] [DecidableEq σ] [DecidableEq δ] [DecidableEq κ]
  {w : World ω μ σ δ κ} {name : σ} {es rest : List (Event ω δ)}

def lookAll (w : World ω μ σ δ κ) (name : σ) (i : Nat) :
    Nat → List ω → Search ω μ δ → Search ω μ δ
  | _, [], s => s
  | depth, obj :: objs, s =>
    lookAll w name i (depth + 1) objs (s.look w name i depth obj (none : Option κ))

def lookThrough (w : World ω μ σ δ κ) (name : σ) :
    Nat → List (List ω) → Search ω μ δ → Search ω μ δ
  | _, [], s => s
  | i, objs :: walks, s => lookThrough w name (i + 1) walks (lookAll w name i 0 objs s)

theorem Knows.lookAll {s : Search ω μ δ} (knows : Knows w es s) (fit : RolesFit w name) (i depth : Nat)
    (objs : List ω) (ordered : Ordered (es ++ eventsOf w name i depth objs)) :
    Knows w (es ++ eventsOf w name i depth objs) (Dispatch.lookAll w name i depth objs s) := by
  induction objs generalizing es depth s with
  | nil =>
    rw [eventsOf, List.append_nil]
    exact knows
  | cons obj objs ih =>
    rw [eventsOf, ← List.append_assoc] at ordered ⊢
    exact ih (knows.look fit i depth obj ordered.left) (depth + 1) ordered

theorem Knows.lookThrough {s : Search ω μ δ} (knows : Knows w es s) (fit : RolesFit w name) (i : Nat)
    (walks : List (List ω)) (ordered : Ordered (es ++ eventsFrom w name i walks)) :
    Knows w (es ++ eventsFrom w name i walks) (Dispatch.lookThrough w name i walks s) := by
  induction walks generalizing es i s with
  | nil =>
    rw [eventsFrom, List.append_nil]
    exact knows
  | cons objs walks ih =>
    rw [eventsFrom, ← List.append_assoc] at ordered ⊢
    exact ih (knows.lookAll fit i 0 objs ordered.left) (i + 1) ordered

theorem Knows.settled {s : Search ω μ δ} (knows : Knows w es s) (unset : s.bestDef = none)
    (fit : RolesFit w name) {i depth : Nat} (six : i < 6) {obj : ω} (objs : List ω)
    (ordered : Ordered (es ++ eventsAt w name i depth obj ++
      (eventsOf w name i (depth + 1) objs ++ rest)))
    (fits : Fitting w rest) (above : ∀ f ∈ rest, i < f.position)
    (stops : (s.look w name i depth obj (none : Option κ)).settled = true) :
    Answered w (es ++ eventsAt w name i depth obj ++ (eventsOf w name i (depth + 1) objs ++ rest))
      (s.look w name i depth obj (none : Option κ)).dispatch
      (s.look w name i depth obj (none : Option κ)).slotLocation := by
  have known := knows.look fit i depth obj ordered.left
  simp only [Search.settled, Bool.and_eq_true, decide_eq_true_eq] at stops
  obtain ⟨b, chosen⟩ := Option.isSome_iff_exists.mp stops.1
  have best := stops.2.trans chosen
  obtain ⟨e, met, same⟩ := look_best unset best
  obtain ⟨position, deep, -⟩ := mem_eventsAt met
  have before : ∀ f ∈ es, f.position < i ∨ f.position = i ∧ f.depth ≤ depth := by
    intro f member
    have order := (List.pairwise_append.mp ordered.left.ascends).2.2 f member e met
    rwa [position, deep] at order
  have found : (depthIn (es ++ eventsAt w name i depth obj) b i).isSome :=
    depthIn_isSome.mpr ⟨e, List.mem_append_right _ met, position, same⟩
  obtain ⟨at_, here⟩ := Option.isSome_iff_exists.mp found
  have fitting : Fitting w (eventsOf w name i (depth + 1) objs ++ rest) := by
    intro f member
    rcases List.mem_append.mp member with next | after
    · obtain ⟨position', -, -, event⟩ := mem_eventsOf next
      rw [position']
      exact fit.eventsAt event
    · exact fits f after
  have low : ∀ f ∈ es ++ eventsAt w name i depth obj, f.position ≤ i := by
    intro f member
    rcases List.mem_append.mp member with past | now
    · have order := before f past
      omega
    · exact (mem_eventsAt now).1.le
  have later : ∀ f ∈ eventsOf w name i (depth + 1) objs ++ rest,
      i < f.position ∨ i = f.position ∧ depth < f.depth := by
    intro f member
    rcases List.mem_append.mp member with next | after
    · obtain ⟨position', low, -⟩ := mem_eventsOf next
      exact Or.inr ⟨position'.symm, low⟩
    · exact Or.inl (above f after)
  have early : at_ ≤ depth := by
    obtain ⟨f, member, position', -, rfl⟩ := depthIn_eq_some here
    rcases List.mem_append.mp member with past | now
    · have order := before f past
      omega
    · exact (mem_eventsAt now).2.1.le
  exact known.decided best ordered fitting six low later here early

theorem searchObjects_decides (fit : RolesFit w name) {i : Nat} (six : i < 6) (objs : List ω)
    {depth : Nat} {s : Search ω μ δ} (knows : Knows w es s) (unset : s.bestDef = none)
    (ordered : Ordered (es ++ eventsOf w name i depth objs ++ rest))
    (fits : Fitting w rest) (above : ∀ f ∈ rest, i < f.position) :
    (∃ s', searchObjects w name (none : Option κ) i depth objs s = (true, s') ∧
      Answered w (es ++ eventsOf w name i depth objs ++ rest) s'.dispatch s'.slotLocation) ∨
    (searchObjects w name (none : Option κ) i depth objs s = (false, lookAll w name i depth objs s) ∧
      (lookAll w name i depth objs s).bestDef = none) := by
  induction objs generalizing es depth s with
  | nil => exact Or.inr ⟨rfl, unset⟩
  | cons obj objs ih =>
    rw [eventsOf, ← List.append_assoc es, List.append_assoc] at ordered ⊢
    unfold searchObjects
    dsimp only
    cases stops : (s.look w name i depth obj (none : Option κ)).settled with
    | true => exact Or.inl ⟨_, rfl, knows.settled unset fit six objs ordered fits above stops⟩
    | false =>
      have known := knows.look fit i depth obj ordered.left
      rw [← List.append_assoc] at ordered ⊢
      exact ih known (known.unset stops) ordered

theorem lookAll_visited (i depth : Nat) (objs : List ω) (s : Search ω μ δ) (m : μ) {j : Nat}
    (other : i ≠ j) : ((lookAll w name i depth objs s).marks.visitedPositions m).testBit j =
      (s.marks.visitedPositions m).testBit j := by
  induction objs generalizing depth s with
  | nil => rfl
  | cons obj objs ih =>
    rw [lookAll, ih, look_visited, decide_eq_false fun same => other same.2, Bool.or_false]

variable [DecidableEq ω]

theorem searchAll_decides (fit : RolesFit w name) {i : Nat} {arguments : List (Oop ω)}
    {walks : List (List ω)}
    (walked : List.Forall₂ (fun arg objs => order w arg = some (.ok objs)) arguments walks)
    (six : i + walks.length ≤ 6) {s : Search ω μ δ} (knows : Knows w es s)
    (unset : s.bestDef = none) (ordered : Ordered (es ++ eventsFrom w name i walks))
    (clear : ∀ m j, i ≤ j → (s.marks.visitedPositions m).testBit j = false) :
    ∃ early s', searchAll w name (none : Option κ) i arguments s = some (.ok (early, s')) ∧
      Answered w (es ++ eventsFrom w name i walks) s'.dispatch s'.slotLocation := by
  induction walked generalizing es i s with
  | nil =>
    rw [eventsFrom, List.append_nil]
    exact ⟨false, s, rfl, knows.answered⟩
  | @cons arg objs arguments walks first _ ih =>
    simp only [List.length_cons] at six
    rw [eventsFrom, ← List.append_assoc] at ordered ⊢
    have run : searchPosition w name (none : Option κ) i arg walkLimit 0 arg [] none s =
        some (.ok (searchObjects w name (none : Option κ) i 0 objs s)) :=
      searchPosition_eq (show walk w arg walkLimit [] arg [] none = some (.ok ([] ++ objs)) from first)
        fun m => clear m i le_rfl
    rw [searchAll, run]
    have fits : Fitting w (eventsFrom w name (i + 1) walks) := fit.eventsFrom (i + 1) walks
    have above : ∀ f ∈ eventsFrom w name (i + 1) walks, i < f.position := by
      intro f member
      exact (mem_eventsFrom member).1
    rcases searchObjects_decides fit (by omega) objs knows unset ordered fits above with
      ⟨s', ends, decided⟩ | ⟨goes, open_⟩
    · rw [ends]
      exact ⟨true, s', rfl, decided⟩
    · rw [goes]
      apply ih (by omega) (knows.lookAll fit i 0 objs ordered.left) open_ ordered
      intro m j later
      rw [lookAll_visited i 0 objs s m (by omega)]
      exact clear m j (by omega)

end Searches

section Stamps

variable {ω μ σ δ κ : Type} [DecidableEq μ] [DecidableEq σ] [DecidableEq δ] [DecidableEq κ]
  {w : World ω μ σ δ κ}

def Marks.Stamped (marks : Marks μ δ) : Prop :=
  (∀ m, (marks.maps m).dispatchID ≤ marks.current) ∧
    ∀ d, (marks.definitions d).dispatchID ≤ marks.current

omit [DecidableEq δ] in
theorem Marks.Stamped.visit {marks : Marks μ δ} (stamped : marks.Stamped) (m : μ) (i : Nat) :
    (marks.visit m i).Stamped := by
  refine ⟨fun m' => ?_, stamped.2⟩
  by_cases same : m' = m
  · subst same
    simp only [Marks.visit, Function.update_self, le_refl]
  · simp only [Marks.visit, Function.update_of_ne same]
    exact stamped.1 m'

omit [DecidableEq μ] in
theorem Marks.Stamped.find {marks : Marks μ δ} (stamped : marks.Stamped) (d : δ) (i depth : Nat) :
    (marks.find d i depth).Stamped := by
  refine ⟨stamped.1, fun d' => ?_⟩
  by_cases same : d' = d
  · subst same
    simp only [Marks.find, Function.update_self, le_refl]
  · simp only [Marks.find, Function.update_of_ne same]
    exact stamped.2 d'

omit [DecidableEq μ] [DecidableEq σ] in
theorem meetAll_stamped (i depth : Nat) (obj : ω) (resendMethod : Option κ)
    (before roles : List (RoleEntry σ δ)) {s : Search ω μ δ} (stamped : s.marks.Stamped) :
    (Search.meetAll w i depth obj resendMethod before roles s).marks.Stamped := by
  induction roles generalizing before s with
  | nil => exact stamped
  | cons role roles ih =>
    apply ih
    unfold Search.meet
    dsimp only
    split
    · rw [consider_marks]
      exact stamped.find _ i depth
    · exact stamped

variable [DecidableEq ω]

theorem searchPosition_stamped {name : σ} {resendMethod : Option κ} {i : Nat} {first : Oop ω}
    {fuel depth : Nat} {arg : Oop ω} {stack : List (Oop ω)} {restricted : Option Nat}
    {s s' : Search ω μ δ} {ended : Bool} (stamped : s.marks.Stamped)
    (run : searchPosition w name resendMethod i first fuel depth arg stack restricted s =
      some (.ok (ended, s'))) : s'.marks.Stamped := by
  induction fuel generalizing depth arg stack restricted s with
  | zero => cases run
  | succ fuel ih =>
    have looked : (s.look w name i depth (w.target arg) resendMethod).marks.Stamped :=
      meetAll_stamped i depth _ resendMethod [] _ (stamped.visit _ i)
    unfold searchPosition at run
    dsimp only at run
    split at run
    · cases stack with
      | nil =>
        cases run
        exact stamped
      | cons top stack => exact ih stamped run
    · split at run
      · cases run
      · split at run
        · cases run
          exact looked
        · split at run
          · cases run
          · split at run
            · cases run
              exact looked
            · exact ih looked run

theorem searchAll_stamped {name : σ} {resendMethod : Option κ} {i : Nat} {arguments : List (Oop ω)}
    {s s' : Search ω μ δ} (stamped : s.marks.Stamped)
    {early : Bool} (run : searchAll w name resendMethod i arguments s = some (.ok (early, s'))) :
    s'.marks.Stamped := by
  induction arguments generalizing i s with
  | nil =>
    cases run
    exact stamped
  | cons arg arguments ih =>
    unfold searchAll at run
    split at run
    · cases run
    · cases run
    · rename_i ends
      cases run
      exact searchPosition_stamped stamped ends
    · rename_i goes
      exact ih (searchPosition_stamped stamped goes) run

theorem Marks.Stamped.dispatch {marks marks' : Marks μ δ} (stamped : marks.Stamped) {name : σ}
    {arguments : List (Oop ω)} {resendMethod : Option κ} {found : Found ω δ}
    (run : methodDispatchOn w marks name arguments resendMethod = some (.ok (marks', found))) :
    marks'.Stamped := by
  have fresh : (startSearch (ω := ω) marks resendMethod.isSome).marks.Stamped :=
    ⟨fun m => (stamped.1 m).trans (Nat.le_succ _), fun d => (stamped.2 d).trans (Nat.le_succ _)⟩
  unfold methodDispatchOn at run
  split at run
  · cases run
  · cases run
  · rename_i s' ends
    cases run
    exact searchAll_stamped fresh ends

end Stamps

/-- The marks after any dispatches, resends included, of a heap that changes in between. -/
inductive Marked (ω σ κ : Type) {μ δ : Type} [DecidableEq ω] [DecidableEq μ] [DecidableEq σ]
    [DecidableEq δ] [DecidableEq κ] : Marks μ δ → Prop where
  | start {marks : Marks μ δ} : marks.Stamped → Marked ω σ κ marks
  | dispatch {marks marks' : Marks μ δ} (w : World ω μ σ δ κ) (name : σ) (arguments : List (Oop ω))
      (resendMethod : Option κ) {found : Found ω δ} : Marked ω σ κ marks →
      methodDispatchOn w marks name arguments resendMethod = some (.ok (marks', found)) →
      Marked ω σ κ marks'

section Start

variable {ω μ σ δ κ : Type} {marks : Marks μ δ}

theorem clear_start (stamped : marks.Stamped) (m : μ) (j : Nat) :
    ((startSearch (ω := ω) marks false).marks.visitedPositions m).testBit j = false := by
  have old : (marks.maps m).dispatchID ≠ marks.current + 1 := by
    have := stamped.1 m
    omega
  have none_ : (startSearch (ω := ω) marks false).marks.visitedPositions m = 0 := if_neg old
  rw [none_, Nat.zero_testBit]

variable [DecidableEq δ] {w : World ω μ σ δ κ}

theorem knows_start (stamped : marks.Stamped) :
    Knows w [] (startSearch (ω := ω) marks false) := by
  have old : ∀ d, (marks.definitions d).dispatchID ≠ marks.current + 1 := by
    intro d
    have := stamped.2 d
    omega
  have zero : ∀ d, rankIn ([] : List (Event ω δ)) d = 0 := by
    intro d
    simp only [rankIn, weight, digitIn, depthIn, List.find?_nil, Option.map_none, Option.elim_none]
  have nowhere : ∀ d, ¬ Occurs ([] : List (Event ω δ)) d := by
    rintro d ⟨e, member, -⟩
    cases member
  constructor
  · intro d i
    have none_ : (startSearch (ω := ω) marks false).marks.foundPositions d = 0 := if_neg (old d)
    rw [none_, Nat.zero_testBit]
    rfl
  · intro d
    rw [zero]
    exact if_neg (old d)
  · exact fun d occurs => absurd occurs (nowhere d)
  · simp only [startSearch, Bool.false_eq_true, if_false]
  · exact fun _ d occurs => absurd occurs (nowhere d)
  · rintro d ⟨⟩
  · exact fun d occurs => absurd occurs (nowhere d)
  · rintro b ⟨⟩
  · rintro b ⟨⟩
  · rintro d ⟨⟩

end Start

section Bridge

variable {ω μ σ δ κ : Type} [DecidableEq σ] [DecidableEq δ] {w : World ω μ σ δ κ} {name : σ}

theorem depthIn_eq (walks : List (List ω)) (d : δ) :
    depthIn (eventsFrom w name 0 walks) d = depthOf w name walks d := by
  funext i
  have same := @depthIn_eventsFrom _ _ _ _ _ _ w name _ 0 walks d i
  rwa [Nat.zero_add] at same

theorem rankIn_eq (walks : List (List ω)) (d : δ) :
    rankIn (eventsFrom w name 0 walks) d = rankOf w name walks d := by
  apply weight_congr
  intro i _
  rw [digitIn, digitOf, depthIn_eq]

theorem applicable_iff (walks : List (List ω)) (d : δ) : Applicable w name walks d ↔
    Occurs (eventsFrom w name 0 walks) d ∧ CompleteIn w (eventsFrom w name 0 walks) d := by
  have occurs : Occurs (eventsFrom w name 0 walks) d ↔ ∃ i, (depthOf w name walks d i).isSome := by
    simp only [← depthIn_eq, depthIn_isSome]
    constructor
    · rintro ⟨e, member, same⟩
      exact ⟨e.position, e, member, rfl, same⟩
    · rintro ⟨i, e, member, -, same⟩
      exact ⟨e, member, same⟩
  rw [occurs, CompleteIn, depthIn_eq]
  rfl

theorem Answered.best {walks : List (List ω)} {choice : Option δ} {slot : Option ω}
    (answered : Answered w (eventsFrom w name 0 walks) choice slot) : Best w name walks choice := by
  cases choice with
  | none =>
    intro d applicable
    obtain ⟨occurs, complete⟩ := (applicable_iff walks d).mp applicable
    exact answered.waiting rfl d occurs complete
  | some c =>
    obtain ⟨e, rfl, -, chosen⟩ := answered.chosen c rfl
    refine ⟨(applicable_iff walks _).mpr ⟨chosen.occurs, chosen.complete⟩, fun d applicable => ?_⟩
    obtain ⟨occurs, complete⟩ := (applicable_iff walks d).mp applicable
    rw [above_iff, not_lt, ← rankIn_eq, ← rankIn_eq]
    exact chosen.most d occurs complete

end Bridge

section Example

def noMarks : Marks (Fin 3) (Fin 2) := ⟨0, fun _ => ⟨0, 0⟩, fun _ => ⟨0, 0, 0⟩⟩

theorem noMarks_stamped : noMarks.Stamped := ⟨fun _ => le_rfl, fun _ => le_rfl⟩

theorem twoMaps_fit (name : Unit) : RolesFit twoMaps name := by
  have within : ∀ m, ∀ role ∈ rolesNamed twoMaps (twoMaps.map m).roleTable (),
      role.rolePositions ||| (twoMaps.definition role.methodDefinition).dispatchPositions =
        (twoMaps.definition role.methodDefinition).dispatchPositions := by decide
  intro m role member i bit
  rw [← within m role member, Nat.testBit_or, bit]
  rfl

end Example

section Answers

variable {ω μ σ δ κ : Type} [DecidableEq ω] [DecidableEq μ] [DecidableEq σ] [DecidableEq δ]
  [DecidableEq κ] {w : World ω μ σ δ κ} {name : σ}

theorem Marked.stamped {marks : Marks μ δ} (marked : Marked ω σ κ marks) : marks.Stamped := by
  induction marked with
  | start stamped => exact stamped
  | dispatch w name arguments resendMethod _ run ih => exact ih.dispatch run

def Walked (w : World ω μ σ δ κ) (arguments : List (Oop ω)) (walks : List (List ω)) : Prop :=
  List.Forall₂ (fun arg objs => order w arg = some (.ok objs)) arguments walks

omit [DecidableEq δ] [DecidableEq κ] in
theorem Walked.ordered {arguments : List (Oop ω)} {walks : List (List ω)}
    (walked : Walked w arguments walks) (six : arguments.length ≤ 6) :
    Ordered (eventsFrom (δ := δ) w name 0 walks) := by
  apply eventsFrom_ordered
  · rw [← List.Forall₂.length_eq walked]
    exact six
  · intro objs member
    obtain ⟨i, inside, rfl⟩ := List.getElem_of_mem member
    have same := List.Forall₂.length_eq walked
    exact length_order (walked.get (by omega) inside)

omit [DecidableEq ω] [DecidableEq μ] [DecidableEq σ] [DecidableEq δ] [DecidableEq κ] in
theorem twoMaps_walked : Walked twoMaps [.object 2, .small 5] [[2, 1], [1]] := by
  have first : order twoMaps (.object 2) = some (.ok [2, 1]) := rfl
  have second : order twoMaps (.small 5) = some (.ok [1]) := rfl
  exact .cons first (.cons second .nil)

theorem searchAll_answers (fit : RolesFit w name) {arguments : List (Oop ω)}
    (six : arguments.length ≤ 6) {walks : List (List ω)} (walked : Walked w arguments walks)
    {marks : Marks μ δ} (stamped : marks.Stamped) : ∃ early s,
      searchAll w name (none : Option κ) 0 arguments (startSearch marks false) =
        some (.ok (early, s)) ∧
      Answered w (eventsFrom w name 0 walks) s.dispatch s.slotLocation := by
  have few : 0 + walks.length ≤ 6 := by
    rw [Nat.zero_add, ← List.Forall₂.length_eq walked]
    exact six
  exact searchAll_decides fit walked few (knows_start stamped) rfl (walked.ordered six)
    fun m j _ => clear_start stamped m j

omit [DecidableEq μ] [DecidableEq σ] [DecidableEq δ] [DecidableEq κ] [DecidableEq ω] in
theorem found_congr {s s' : Search ω μ δ} (same : s.dispatch = s'.dispatch ∧
    (s.dispatch.isSome → s.slotLocation = s'.slotLocation)) (arguments : List (Oop ω)) :
    s.found w arguments = s'.found w arguments := by
  obtain ⟨same, slots⟩ := same
  cases chosen : s.dispatch with
  | none => simp only [Search.found, ← same, chosen]
  | some d =>
    rw [chosen] at slots
    simp only [Search.found, ← same, chosen, slots rfl]

end Answers

end SlateVm.Dispatch
