import SlateVm.Dispatch.Runs

/-! What a dispatch depends on: the maps met for the positions at which its selector has roles. A
dispatch on the object where an accessor was found finds the accessor again. -/

namespace SlateVm.Dispatch
open Maps Digits

section SameMaps

variable {ω μ σ δ κ : Type} [DecidableEq ω] [DecidableEq μ] {w : World ω μ σ δ κ}

omit [DecidableEq ω] in
theorem visited_same {visited visited' : List ω} (same : visited.map w.mapOf = visited'.map w.mapOf)
    (m : μ) : (visited.any fun o => decide (w.mapOf o = m)) =
      visited'.any fun o => decide (w.mapOf o = m) := by
  have shared : ∀ objs : List ω, (objs.any fun o => decide (w.mapOf o = m)) =
      (objs.map w.mapOf).any fun m' => decide (m' = m) := by
    intro objs
    rw [List.any_map]
    rfl
  rw [shared, shared, same]

theorem walk_same {first first' : Oop ω} {fuel : Nat} {visited visited' : List ω} {arg : Oop ω}
    {stack : List (Oop ω)} {restricted : Option Nat}
    (same : visited.map w.mapOf = visited'.map w.mapOf)
    (met : w.mapOf (w.target first) ∈ visited.map w.mapOf)
    (met' : w.mapOf (w.target first') ∈ visited.map w.mapOf) :
    (walk w first fuel visited arg stack restricted).map (Except.map (List.map w.mapOf)) =
      (walk w first' fuel visited' arg stack restricted).map (Except.map (List.map w.mapOf)) := by
  induction fuel generalizing visited visited' arg stack restricted with
  | zero => rfl
  | succ fuel ih =>
    have count : visited.length = visited'.length := by
      simpa only [List.length_map] using congrArg List.length same
    unfold walk
    dsimp only
    rw [← visited_same same]
    split
    · cases stack with
      | nil => exact congrArg (fun ms => some (Except.ok ms)) same
      | cons top stack => exact ih same met met'
    · rename_i new
      have other : ∀ f : Oop ω, w.mapOf (w.target f) ∈ visited.map w.mapOf → arg ≠ f := by
        rintro f there rfl
        obtain ⟨o, member, equal⟩ := List.mem_map.mp there
        exact new (List.any_eq_true.mpr ⟨o, member, decide_eq_true equal⟩)
      have restrict : restrictedAt (w.mapAt (w.target arg)) first arg stack restricted =
          restrictedAt (w.mapAt (w.target arg)) first' arg stack restricted := by
        unfold restrictedAt
        rw [decide_eq_true (other first met), decide_eq_true (other first' met')]
      rw [restrict, count]
      have more : (visited ++ [w.target arg]).map w.mapOf =
          (visited' ++ [w.target arg]).map w.mapOf := by
        rw [List.map_append, List.map_append, same]
      have kept : ∀ {m : μ}, m ∈ visited.map w.mapOf →
          m ∈ (visited ++ [w.target arg]).map w.mapOf := by
        intro m there
        rw [List.map_append]
        exact List.mem_append_left _ there
      split
      · rfl
      · split
        · rfl
        · split
          · exact congrArg (fun ms => some (Except.ok ms)) more
          · exact ih more (kept met) (kept met')

theorem order_same {arg arg' : Oop ω} (same : w.mapOf (w.target arg) = w.mapOf (w.target arg')) :
    (order w arg).map (Except.map (List.map w.mapOf)) =
      (order w arg').map (Except.map (List.map w.mapOf)) := by
  have start : ∀ o : Oop ω, restrictedAt (w.mapAt (w.target o)) o o [] none = none := by
    intro o
    rw [restrictedAt, decide_eq_false (not_not_intro rfl), Bool.and_false, if_neg Bool.false_ne_true]
  have once : ∀ o : Oop ω, w.mapOf (w.target o) ∈ [w.target o].map w.mapOf :=
    fun o => List.mem_singleton_self _
  have alike : w.mapAt (w.target arg) = w.mapAt (w.target arg') := congrArg w.map same
  have first : [w.target arg].map w.mapOf = [w.target arg'].map w.mapOf := by
    rw [List.map_singleton, List.map_singleton, same]
  have enough : walkLimit = 33 * (delegationStackSize + 1) + 1 := rfl
  rw [order, order, enough]
  unfold walk
  dsimp only
  rw [start, start, alike]
  split
  · rename_i none_
    cases none_
  · split
    · rfl
    · split
      · rfl
      · split
        · exact congrArg (fun ms => some (Except.ok ms)) first
        · exact walk_same first (once arg) (first ▸ once arg')

theorem order_head {arg : Oop ω} {objs : List ω} (run : order w arg = some (.ok objs)) :
    ∃ rest, objs = w.target arg :: rest := by
  have enough : walkLimit = 33 * (delegationStackSize + 1) + 1 := rfl
  rw [order, enough] at run
  unfold walk at run
  dsimp only at run
  split at run
  · rename_i none_
    cases none_
  · split at run
    · cases run
    · split at run
      · cases run
      · split at run
        · cases run
          exact ⟨[], rfl⟩
        · obtain ⟨rest, rfl⟩ := walk_extends run
          exact ⟨rest, rfl⟩

end SameMaps

section SameFinds

variable {ω μ σ δ κ : Type}

def Event.find (e : Event ω δ) : Nat × Nat × δ := (e.position, e.depth, e.definition)

variable {es es' : List (Event ω δ)}

theorem occurs_find (d : δ) : Occurs es d ↔ ∃ f ∈ es.map Event.find, f.2.2 = d := by
  constructor
  · rintro ⟨e, member, same⟩
    exact ⟨e.find, List.mem_map_of_mem member, same⟩
  · rintro ⟨f, member, same⟩
    obtain ⟨e, there, rfl⟩ := List.mem_map.mp member
    exact ⟨e, there, same⟩

variable [DecidableEq δ]

theorem depthIn_find (es : List (Event ω δ)) (d : δ) (i : Nat) : depthIn es d i =
    ((es.map Event.find).find? fun f => decide (f.1 = i ∧ f.2.2 = d)).map fun f => f.2.1 := by
  rw [depthIn, List.find?_map, Option.map_map]
  rfl

theorem depthIn_alike (alike : es.map Event.find = es'.map Event.find) :
    depthIn es = depthIn es' := by
  funext d i
  rw [depthIn_find, depthIn_find, alike]

theorem rankIn_alike (alike : es.map Event.find = es'.map Event.find) : rankIn es = rankIn es' := by
  funext d
  unfold rankIn digitIn
  rw [depthIn_alike alike]

variable {w : World ω μ σ δ κ}

theorem completeIn_alike (alike : es.map Event.find = es'.map Event.find) (d : δ) :
    CompleteIn w es d ↔ CompleteIn w es' d := by
  unfold CompleteIn
  rw [depthIn_alike alike]

theorem Chosen.alike {e : Event ω δ} (chosen : Chosen w es e)
    (alike : es.map Event.find = es'.map Event.find) : ∃ e', e'.find = e.find ∧ Chosen w es' e' := by
  obtain ⟨complete, most, es₁, es₂, rfl, new, completes, above⟩ := chosen
  have split := alike.symm
  rw [List.map_append, List.map_cons] at split
  obtain ⟨es₁', rest, rfl, same₁, same⟩ := List.map_eq_append_iff.mp split
  obtain ⟨e', es₂', rfl, find, same₂⟩ := List.map_eq_cons_iff.mp same
  have position : e'.position = e.position := congrArg Prod.fst find
  have definition : e'.definition = e.definition := congrArg (fun f => f.2.2) find
  have one : (es₁ ++ [e]).map Event.find = (es₁' ++ [e']).map Event.find := by
    rw [List.map_append, List.map_append, same₁, List.map_singleton, List.map_singleton, find]
  refine ⟨e', find, ?_, ?_, es₁', es₂', rfl, ?_, ?_, ?_⟩
  · rw [definition]
    exact (completeIn_alike alike _).mp complete
  · intro d occurs finished
    rw [definition, ← rankIn_alike alike]
    refine most d ?_ ((completeIn_alike alike d).mpr finished)
    rwa [occurs_find, alike, ← occurs_find]
  · rw [definition, position, ← depthIn_alike same₁.symm]
    exact new
  · rw [definition]
    exact (completeIn_alike one _).mp completes
  · intro d occurs finished
    rw [definition, ← rankIn_alike one, ← rankIn_alike same₁.symm]
    refine above d ?_ ((completeIn_alike same₁.symm d).mpr finished)
    rwa [occurs_find, ← same₁, ← occurs_find]

variable [DecidableEq σ] {name : σ}

def CoveredBy (w : World ω μ σ δ κ) (name : σ) (mask : Nat) : Prop :=
  ∀ m, ∀ role ∈ rolesNamed w (w.map m).roleTable name, ∀ i, role.rolePositions.testBit i = true →
    mask.testBit i = true

omit [DecidableEq δ] in
theorem CoveredBy.eventsOf {mask : Nat} (covered : CoveredBy w name mask) {i : Nat}
    (outside : mask.testBit i = false) (depth : Nat) (objs : List ω) :
    eventsOf w name i depth objs = [] := by
  rw [List.eq_nil_iff_forall_not_mem]
  intro e member
  obtain ⟨-, -, -, event⟩ := mem_eventsOf member
  obtain ⟨-, -, -, role, there, bit, -⟩ := mem_eventsAt event
  rw [covered _ role there i bit] at outside
  cases outside

omit [DecidableEq δ] in
theorem eventsOf_same (i depth : Nat) {objs objs' : List ω}
    (same : objs.map w.mapOf = objs'.map w.mapOf) :
    (eventsOf w name i depth objs).map Event.find = (eventsOf w name i depth objs').map Event.find := by
  induction objs generalizing depth objs' with
  | nil =>
    cases List.map_eq_nil_iff.mp same.symm
    rfl
  | cons obj objs ih =>
    obtain ⟨obj', rest, rfl, first, others⟩ := List.map_eq_cons_iff.mp same.symm
    have here : (eventsAt w name i depth obj).map Event.find =
        (eventsAt w name i depth obj').map Event.find := by
      unfold eventsAt World.mapAt
      rw [List.map_map, List.map_map, first]
      rfl
    rw [Dispatch.eventsOf, Dispatch.eventsOf, List.map_append, List.map_append, here,
      ih (depth + 1) others.symm]

omit [DecidableEq δ] in
theorem CoveredBy.eventsFrom {mask : Nat} (covered : CoveredBy w name mask) (i : Nat)
    {walks : List (List ω)} (outside : ∀ j, mask.testBit (i + j) = true → walks[j]? = none) :
    eventsFrom w name i walks = [] := by
  induction walks generalizing i with
  | nil => rfl
  | cons objs walks ih =>
    have here : mask.testBit i = false := by
      rw [← Bool.not_eq_true]
      intro bit
      cases outside 0 bit
    rw [Dispatch.eventsFrom, covered.eventsOf here, List.nil_append]
    apply ih
    intro j bit
    exact outside (j + 1) (by rwa [← Nat.add_assoc, Nat.add_right_comm])

omit [DecidableEq δ] in
theorem eventsFrom_same {mask : Nat} (covered : CoveredBy w name mask) (i : Nat)
    {walks walks' : List (List ω)} (same : ∀ j, mask.testBit (i + j) = true →
      (walks[j]?).map (List.map w.mapOf) = (walks'[j]?).map (List.map w.mapOf)) :
    (eventsFrom w name i walks).map Event.find = (eventsFrom w name i walks').map Event.find := by
  induction walks generalizing i walks' with
  | nil =>
    have nothing : eventsFrom w name i walks' = [] := by
      apply covered.eventsFrom
      intro j bit
      exact Option.map_eq_none_iff.mp (same j bit).symm
    rw [nothing]
    rfl
  | cons objs walks ih =>
    cases walks' with
    | nil =>
      have nothing : eventsFrom w name i (objs :: walks) = [] := by
        apply covered.eventsFrom
        intro j bit
        exact Option.map_eq_none_iff.mp (same j bit)
      rw [nothing]
      rfl
    | cons objs' walks' =>
      have here : (eventsOf w name i 0 objs).map Event.find =
          (eventsOf w name i 0 objs').map Event.find := by
        cases bit : mask.testBit i with
        | true => exact eventsOf_same i 0 (Option.some.inj (same 0 bit))
        | false => rw [covered.eventsOf bit, covered.eventsOf bit]
      have later : ∀ j, mask.testBit (i + 1 + j) = true →
          (walks[j]?).map (List.map w.mapOf) = (walks'[j]?).map (List.map w.mapOf) := by
        intro j bit
        exact same (j + 1) (by rwa [← Nat.add_assoc, Nat.add_right_comm])
      rw [eventsFrom, eventsFrom, List.map_append, List.map_append, here, ih (i + 1) later]

end SameFinds

section Restart

variable {ω μ σ δ κ : Type} [DecidableEq σ] {w : World ω μ σ δ κ} {name : σ}

theorem first_split {α : Type} {xs ys xs' ys' : List α} {x : α}
    (split : xs ++ x :: ys = xs' ++ x :: ys') (new : x ∉ xs) (new' : x ∉ xs') : xs = xs' := by
  rcases List.append_eq_append_iff.mp split with ⟨between, rfl, next⟩ | ⟨between, rfl, next⟩
  · cases between with
    | nil => exact (List.append_nil xs).symm
    | cons y between =>
      cases next
      exact absurd (List.mem_append_right _ List.mem_cons_self) new'
  · cases between with
    | nil => exact List.append_nil xs'
    | cons y between =>
      cases next
      exact absurd (List.mem_append_right _ List.mem_cons_self) new

theorem eventsOf_split {i depth : Nat} {objs : List ω} {e : Event ω δ}
    (member : e ∈ eventsOf w name i depth objs) : ∃ before after,
      eventsOf w name i depth objs = before ++ (eventsAt w name i e.depth e.object ++ after) ∧
      ∀ f ∈ before, f.depth < e.depth := by
  induction objs generalizing depth with
  | nil => cases member
  | cons obj objs ih =>
    rcases List.mem_append.mp member with here | later
    · obtain ⟨role, -, rfl⟩ := List.mem_map.mp here
      refine ⟨[], eventsOf w name i (depth + 1) objs, rfl, fun f none_ => ?_⟩
      cases none_
    · obtain ⟨before, after, split, shallow⟩ := ih later
      obtain ⟨-, low, -⟩ := mem_eventsOf later
      refine ⟨eventsAt w name i depth obj ++ before, after, ?_, fun f there => ?_⟩
      · rw [Dispatch.eventsOf, split, List.append_assoc]
      · rcases List.mem_append.mp there with now | after
        · rw [(mem_eventsAt now).2.1]
          omega
        · exact shallow f after

variable [DecidableEq δ]

theorem depthIn_later (objs : List ω) (walks : List (List ω)) (d : δ) {j : Nat} (later : 0 < j) :
    depthIn (eventsFrom w name 0 (objs :: walks)) d j = depthIn (eventsFrom w name 1 walks) d j := by
  have none_ : depthIn (eventsOf w name 0 0 objs) d j = none := by
    apply depthIn_none
    intro e member
    obtain ⟨position, -⟩ := mem_eventsOf member
    omega
  rw [Dispatch.eventsFrom, depthIn_append, none_, Option.none_or]

theorem depthIn_first (objs : List ω) (walks : List (List ω)) (d : δ) :
    depthIn (eventsFrom w name 0 (objs :: walks)) d 0 = depthIn (eventsOf w name 0 0 objs) d 0 := by
  have none_ : depthIn (eventsFrom w name 1 walks) d 0 = none := by
    apply depthIn_none
    intro e member
    obtain ⟨low, -⟩ := mem_eventsFrom member
    omega
  rw [Dispatch.eventsFrom, depthIn_append, none_, Option.or_none]

theorem rankIn_first {es : List (Event ω δ)} {d : δ} (only : ∀ j, 0 < j → depthIn es d j = none) :
    rankIn es d = digitIn es d 0 * 32 ^ 5 := by
  have zeros : ∀ j, 1 ≤ j → digitIn es d j = 0 := by
    intro j later
    rw [digitIn, only j later]
    rfl
  rw [rankIn, weight_zeros (show 1 ≤ 6 by omega) zeros, weight, weight, Nat.zero_mul, Nat.zero_add]

theorem depthIn_of_first {es₁ es₂ : List (Event ω δ)} {e : Event ω δ} {i : Nat}
    (new : depthIn es₁ e.definition i = none) (position : e.position = i) :
    depthIn (es₁ ++ e :: es₂) e.definition i = some e.depth := by
  rw [List.append_cons, depthIn_append, depthIn_append, depthIn_singleton, new,
    if_pos ⟨position, rfl⟩]
  rfl

theorem testBit_one (j : Nat) : Nat.testBit 1 j = decide (0 = j) := Nat.testBit_two_pow (n := 0)

omit [DecidableEq σ] in
theorem CompleteIn.only {es : List (Event ω δ)} {d : δ} (complete : CompleteIn w es d)
    (one : (w.definition d).dispatchPositions = 1) {j : Nat} (later : 0 < j) :
    depthIn es d j = none := by
  have bit := complete j
  rw [one, testBit_one, decide_eq_false (by omega)] at bit
  exact Option.not_isSome_iff_eq_none.mp (ne_true_of_eq_false bit.symm)

omit [DecidableEq σ] in
theorem completeIn_one {es : List (Event ω δ)} {d : δ}
    (one : (w.definition d).dispatchPositions = 1) (there : (depthIn es d 0).isSome)
    (only : ∀ j, 0 < j → depthIn es d j = none) : CompleteIn w es d := by
  intro j
  rw [one, testBit_one]
  by_cases first : j = 0
  · rw [first, there]
    rfl
  · rw [decide_eq_false (Ne.symm first), only j (Nat.pos_of_ne_zero first)]
    rfl

theorem Chosen.roles {objs : List ω} {walks : List (List ω)} {e : Event ω δ}
    (chosen : Chosen w (eventsFrom w name 0 (objs :: walks)) e) (first : e.position = 0)
    (ordered : Ordered (eventsFrom (δ := δ) w name 0 (objs :: walks)))
    (only : (w.definition e.definition).dispatchPositions = 1) : ∃ before r₁ r r₂ after,
      (rolesNamed w (w.mapAt e.object).roleTable name).filter (fun role =>
        role.rolePositions.testBit 0) = r₁ ++ r :: r₂ ∧
      r.methodDefinition = e.definition ∧ (∀ x ∈ r₁, x.methodDefinition ≠ e.definition) ∧
      eventsFrom w name 0 (objs :: walks) =
        before ++ (eventsAt w name 0 e.depth e.object ++ after) ∧
      (∀ f ∈ before, f.depth < e.depth) ∧ depthIn before e.definition 0 = none ∧
      ∀ x ∈ r₁, (w.definition x.methodDefinition).dispatchPositions ≠ 1 := by
  have member := chosen.member
  obtain ⟨-, -, es₁, es₂, split, new, completes, above⟩ := chosen
  rw [first] at new
  have inside : e ∈ eventsOf w name 0 0 objs := by
    rcases List.mem_append.mp member with here | later
    · exact here
    · obtain ⟨low, -⟩ := mem_eventsFrom later
      omega
  obtain ⟨before, after, events, shallow⟩ := eventsOf_split inside
  have whole : eventsFrom w name 0 (objs :: walks) =
      before ++ (eventsAt w name 0 e.depth e.object ++ (after ++ eventsFrom w name 1 walks)) := by
    rw [eventsFrom, events]
    simp only [List.append_assoc]
  -- Its own role is the first one of the definition in the chain.
  obtain ⟨-, -, -, own⟩ := mem_eventsOf inside
  obtain ⟨now, others, here, first_⟩ := List.eq_append_cons_of_mem own
  have splits : es₁ ++ e :: es₂ =
      before ++ now ++ e :: (others ++ (after ++ eventsFrom w name 1 walks)) := by
    rw [← split, whole, here]
    simp only [List.append_assoc, List.cons_append]
  have past : es₁ = before ++ now := by
    refine first_split splits (fun again => ?_) fun again => ?_
    · have known : (depthIn es₁ e.definition 0).isSome := depthIn_isSome.mpr ⟨e, again, first, rfl⟩
      rw [new] at known
      cases known
    · rcases List.mem_append.mp again with earlier | again
      · exact absurd (shallow e earlier) (Nat.lt_irrefl _)
      · exact first_ again
  obtain ⟨r₁, later, roles, earlier, shape⟩ := List.map_eq_append_iff.mp here
  obtain ⟨r, r₂, rfl, mine, -⟩ := List.map_eq_cons_iff.mp shape
  have of_role : ∀ x ∈ r₁, (⟨0, e.depth, e.object, x.methodDefinition⟩ : Event ω δ) ∈ es₁ := by
    intro x there
    rw [past, ← earlier]
    exact List.mem_append_right _ (List.mem_map_of_mem there)
  have early : depthIn before e.definition 0 = none := by
    rw [past, depthIn_append, Option.or_eq_none_iff] at new
    exact new.1
  refine ⟨before, r₁, r, r₂, _, roles, congrArg Event.definition mine, fun x there same => ?_, whole,
    shallow, early, fun x there one => ?_⟩
  · have known : (depthIn es₁ e.definition 0).isSome :=
      depthIn_isSome.mpr ⟨_, of_role x there, rfl, same⟩
    rw [new] at known
    cases known
  -- A role before it would complete its definition earlier, and rank no lower.
  have event := of_role x there
  have none_ : ∀ j, 0 < j → depthIn es₁ x.methodDefinition j = none := by
    intro j later
    apply depthIn_none
    intro f past
    rw [split] at ordered
    have order := (List.pairwise_append.mp ordered.ascends).2.2 f past e List.mem_cons_self
    omega
  have known : (depthIn es₁ x.methodDefinition 0).isSome := depthIn_isSome.mpr ⟨_, event, rfl, rfl⟩
  have less := above _ ⟨_, event, rfl⟩ (completeIn_one one known none_)
  rw [rankIn_first none_, rankIn_first fun j later => completes.only only later] at less
  have digits := Nat.lt_of_mul_lt_mul_right less
  obtain ⟨depth, deep⟩ := Option.isSome_iff_exists.mp known
  obtain ⟨f, seen, -, -, rfl⟩ := depthIn_eq_some deep
  have low : f.depth ≤ e.depth := by
    rw [past, ← earlier] at seen
    rcases List.mem_append.mp seen with before | now
    · exact (shallow f before).le
    · obtain ⟨role, -, rfl⟩ := List.mem_map.mp now
      exact le_rfl
  rw [digitIn, digitIn, deep, depthIn_of_first new first] at digits
  simp only [Option.elim_some] at digits
  omega

def HasRole (w : World ω μ σ δ κ) (name : σ) (obj : ω) (d : δ) : Prop :=
  ∃ role ∈ rolesNamed w (w.mapAt obj).roleTable name,
    role.rolePositions.testBit 0 = true ∧ role.methodDefinition = d

theorem HasRole.depthIn {obj : ω} {d : δ} (has : HasRole w name obj d) (depth : Nat) :
    depthIn (eventsAt w name 0 depth obj) d 0 = some depth := by
  obtain ⟨role, there, bit, same⟩ := has
  rw [depthIn_eventsAt, if_pos]
  refine List.any_eq_true.mpr ⟨role, there, ?_⟩
  rw [bit, same, decide_eq_true rfl]
  rfl

omit [DecidableEq δ] in
theorem hasRole_of_event {depth : Nat} {obj : ω} {e : Event ω δ}
    (member : e ∈ eventsAt w name 0 depth obj) : HasRole w name obj e.definition := by
  obtain ⟨-, -, -, role, there, bit, same⟩ := mem_eventsAt member
  exact ⟨role, there, bit, same⟩

theorem depthIn_zero {obj : ω} {rest : List ω} {walks : List (List ω)} {d : δ} :
    depthIn (eventsFrom w name 0 ((obj :: rest) :: walks)) d 0 = some 0 ↔ HasRole w name obj d := by
  rw [depthIn_first, Dispatch.eventsOf, depthIn_append]
  constructor
  · intro found
    cases now : depthIn (eventsAt w name 0 0 obj) d 0 with
    | some depth =>
      obtain ⟨e, member, -, rfl, -⟩ := depthIn_eq_some now
      exact hasRole_of_event member
    | none =>
      rw [now, Option.none_or] at found
      obtain ⟨e, member, -, -, zero⟩ := depthIn_eq_some found
      obtain ⟨-, low, -⟩ := mem_eventsOf member
      omega
  · intro has
    rw [has.depthIn]
    rfl

omit [DecidableEq δ] in
theorem object_of_zero {obj : ω} {rest : List ω} {walks : List (List ω)} {e : Event ω δ}
    (member : e ∈ eventsFrom w name 0 ((obj :: rest) :: walks)) (first : e.position = 0)
    (zero : e.depth = 0) : e.object = obj := by
  rcases List.mem_append.mp member with here | later
  · rcases List.mem_append.mp here with now | deeper
    · obtain ⟨role, -, rfl⟩ := List.mem_map.mp now
      rfl
    · obtain ⟨-, low, -⟩ := mem_eventsOf deeper
      omega
  · obtain ⟨low, -⟩ := mem_eventsFrom later
    omega

theorem restart_most (rest : List ω) {objs : List ω} {walks : List (List ω)} {e : Event ω δ}
    (chosen : Chosen w (eventsFrom w name 0 (objs :: walks)) e)
    (only : (w.definition e.definition).dispatchPositions = 1)
    (has : HasRole w name e.object e.definition) {before after : List (Event ω δ)}
    (whole : eventsFrom w name 0 (objs :: walks) =
      before ++ (eventsAt w name 0 e.depth e.object ++ after))
    (shallow : ∀ f ∈ before, f.depth < e.depth) (early : depthIn before e.definition 0 = none)
    {x : δ} (finished : CompleteIn w (eventsFrom w name 0 ((e.object :: rest) :: walks)) x) :
    rankIn (eventsFrom w name 0 ((e.object :: rest) :: walks)) x ≤
      rankIn (eventsFrom w name 0 ((e.object :: rest) :: walks)) e.definition := by
  by_contra above
  obtain ⟨m, six, agree, differ⟩ :=
    (weight_lt_iff (digitIn_lt _ _) (digitIn_lt _ _) 6).mp (Nat.lt_of_not_le above)
  have same : ∀ (d : δ) (j : Nat), 0 < j →
      digitIn (eventsFrom w name 0 ((e.object :: rest) :: walks)) d j =
        digitIn (eventsFrom w name 0 (objs :: walks)) d j := by
    intro d j later
    rw [digitIn, digitIn, depthIn_later _ _ d later, depthIn_later _ _ d later]
  have zero : ∀ j, 0 < j → digitIn (eventsFrom w name 0 (objs :: walks)) e.definition j = 0 := by
    intro j later
    rw [digitIn, chosen.complete.only only later]
    rfl
  have top : digitIn (eventsFrom w name 0 ((e.object :: rest) :: walks)) e.definition 0 = 31 := by
    rw [digitIn, depthIn_zero.mpr has]
    rfl
  have positive : 0 < m := by
    rcases Nat.eq_zero_or_pos m with rfl | positive
    · have bound := digitIn_lt (eventsFrom w name 0 ((e.object :: rest) :: walks)) x 0
      omega
    · exact positive
  -- What ranks higher has a role at the object as well.
  have topX := (agree 0 positive).symm.trans top
  have hasX : HasRole w name e.object x := by
    rw [digitIn] at topX
    cases found : depthIn (eventsFrom w name 0 ((e.object :: rest) :: walks)) x 0 with
    | none =>
      rw [found] at topX
      cases topX
    | some depth =>
      rw [found, Option.elim_some] at topX
      have none_ : depth = 0 := by omega
      rw [none_] at found
      exact depthIn_zero.mp found
  have oldX : ∃ depth ≤ e.depth, depthIn (eventsFrom w name 0 (objs :: walks)) x 0 = some depth := by
    rw [whole, depthIn_append, depthIn_append, hasX.depthIn]
    cases found : depthIn before x 0 with
    | none => exact ⟨e.depth, le_rfl, rfl⟩
    | some depth =>
      obtain ⟨f, there, -, -, rfl⟩ := depthIn_eq_some found
      exact ⟨f.depth, (shallow f there).le, rfl⟩
  have oldDepth : depthIn (eventsFrom w name 0 (objs :: walks)) e.definition 0 = some e.depth := by
    rw [whole, depthIn_append, depthIn_append, has.depthIn, early]
    rfl
  obtain ⟨depth, low, found⟩ := oldX
  have occursX : Occurs (eventsFrom w name 0 (objs :: walks)) x := by
    obtain ⟨f, there, -, same, -⟩ := depthIn_eq_some found
    exact ⟨f, there, same⟩
  have completeX : CompleteIn w (eventsFrom w name 0 (objs :: walks)) x := by
    intro j
    rw [finished j]
    rcases Nat.eq_zero_or_pos j with rfl | later
    · rw [depthIn_zero.mpr hasX, found]
      rfl
    · rw [depthIn_later _ _ x later, depthIn_later _ _ x later]
  have lower := chosen.most x occursX completeX
  have digit : digitIn (eventsFrom w name 0 (objs :: walks)) e.definition 0 ≤
      digitIn (eventsFrom w name 0 (objs :: walks)) x 0 := by
    rw [digitIn, digitIn, oldDepth, found]
    exact Nat.sub_le_sub_left low 31
  refine absurd lower (Nat.not_le_of_lt ?_)
  refine (weight_lt_iff (digitIn_lt _ _) (digitIn_lt _ _) 6).mpr ?_
  rcases Nat.lt_or_eq_of_le digit with less | equal
  · exact ⟨0, by omega, fun i none_ => absurd none_ (Nat.not_lt_zero i), less⟩
  · refine ⟨m, six, fun i below => ?_, ?_⟩
    · rcases Nat.eq_zero_or_pos i with rfl | later
      · exact equal
      · rw [← same _ i later, ← same _ i later]
        exact agree i below
    · rw [← same _ m positive, ← same _ m positive]
      exact differ

theorem Chosen.restart (fit : RolesFit w name) (rest : List ω) {objs : List ω} {walks : List (List ω)}
    {e : Event ω δ} (chosen : Chosen w (eventsFrom w name 0 (objs :: walks)) e)
    (ordered : Ordered (eventsFrom (δ := δ) w name 0 (objs :: walks)))
    (only : (w.definition e.definition).dispatchPositions = 1) :
    ∃ e', e'.definition = e.definition ∧ e'.position = 0 ∧ e'.depth = 0 ∧
      Chosen w (eventsFrom w name 0 ((e.object :: rest) :: walks)) e' := by
  have first : e.position = 0 := by
    have bit := fit.eventsFrom 0 _ e chosen.member
    rw [only, testBit_one] at bit
    exact (of_decide_eq_true bit).symm
  obtain ⟨before, r₁, r, r₂, after, roles, mine, others, whole, shallow, early, none_⟩ :=
    chosen.roles first ordered only
  have has : HasRole w name e.object e.definition := by
    have chain : r ∈ (rolesNamed w (w.mapAt e.object).roleTable name).filter fun role =>
        role.rolePositions.testBit 0 := by
      rw [roles]
      exact List.mem_append_right _ List.mem_cons_self
    obtain ⟨there, bit⟩ := List.mem_filter.mp chain
    exact ⟨r, there, bit, mine⟩
  have fits := fit.eventsFrom 0 ((e.object :: rest) :: walks)
  have most := fun x => @restart_most _ _ _ _ _ _ w name _ rest _ _ _ chosen only has _ _ whole shallow
    early x
  obtain ⟨es₁, es₁Roles⟩ : ∃ es₁, es₁ = r₁.map fun role =>
    (⟨0, 0, e.object, role.methodDefinition⟩ : Event ω δ) := ⟨_, rfl⟩
  have split : eventsFrom w name 0 ((e.object :: rest) :: walks) =
      es₁ ++ ⟨0, 0, e.object, r.methodDefinition⟩ ::
        (r₂.map (fun role => ⟨0, 0, e.object, role.methodDefinition⟩) ++
          (eventsOf w name 0 1 rest ++ eventsFrom w name 1 walks)) := by
    rw [eventsFrom, eventsOf, eventsAt, roles, List.map_append, List.map_cons, es₁Roles]
    simp only [List.append_assoc, List.cons_append]
  have before₁ : ∀ f ∈ es₁, f.position = 0 ∧ ∃ role ∈ r₁, role.methodDefinition = f.definition := by
    intro f past
    rw [es₁Roles] at past
    obtain ⟨role, there, rfl⟩ := List.mem_map.mp past
    exact ⟨rfl, role, there, rfl⟩
  have later : ∀ (d : δ) (j : Nat), 0 < j → depthIn es₁ d j = none := by
    intro d j positive
    apply depthIn_none
    intro f past
    have position := (before₁ f past).1
    omega
  have new : depthIn es₁ r.methodDefinition 0 = none := by
    rw [← Option.not_isSome_iff_eq_none, depthIn_isSome]
    rintro ⟨f, past, -, same⟩
    obtain ⟨-, role, there, defines⟩ := before₁ f past
    exact others role there ((defines.trans same).trans mine)
  have completes : CompleteIn w (es₁ ++ [⟨0, 0, e.object, r.methodDefinition⟩]) r.methodDefinition := by
    refine completeIn_one (mine ▸ only) ?_ fun j positive => ?_
    · exact depthIn_isSome.mpr ⟨_, List.mem_append_right _ (List.mem_singleton_self _), rfl, rfl⟩
    · rw [depthIn_append, later _ j positive, depthIn_singleton, if_neg fun same => by
        have zero : 0 = j := same.1
        omega]
      rfl
  refine ⟨⟨0, 0, e.object, r.methodDefinition⟩, mine, rfl, rfl, ?_, ?_, es₁, _, split, new,
    completes, ?_⟩
  · rw [split, List.append_cons] at fits ⊢
    exact completes.append fun f there => fits f (List.mem_append_right _ there)
  · intro x _ finished
    exact mine ▸ most x finished
  · rintro x ⟨f, past, rfl⟩ finished
    obtain ⟨position, role, there, defines⟩ := before₁ f past
    refine absurd ?_ (none_ role there)
    apply Nat.eq_of_testBit_eq
    intro j
    rw [testBit_one, defines, finished j]
    rcases Nat.eq_zero_or_pos j with rfl | positive
    · exact depthIn_isSome.mpr ⟨f, past, position, rfl⟩
    · rw [later _ j positive, decide_eq_false (by omega)]
      rfl

end Restart

end SlateVm.Dispatch
