import SlateVm.Dispatch.Restart

/-! The method cache: what it keeps of a dispatch, when it answers instead of one, and how it is
flushed. -/

namespace SlateVm.Dispatch
open Maps Digits

structure Image (ω μ σ δ κ : Type) extends World ω μ σ δ κ where
  address : σ → Nat
  mapHash : μ → Nat
  cacheMask : σ → Nat

/-- An entry filled with zeros, or without its selector, is `none` there. -/
structure MethodCacheEntry (μ σ δ : Type) where
  method : Option δ
  selector : Option σ
  maps : Nat → Option μ

def methodCacheSize : Nat := 1024 * 64

def methodCacheArity : Nat := 6

section Cache

variable {ω μ σ δ κ : Type}

def emptyCache : Nat → MethodCacheEntry μ σ δ := fun _ => ⟨none, none, fun _ => none⟩

def Image.objectGetMap (v : Image ω μ σ δ κ) (o : Oop ω) : μ := v.mapOf (v.target o)

def hashSelector (v : Image ω μ σ δ κ) (name : Nat) (arguments : List (Oop ω)) : Nat :=
  arguments.foldl (fun hash arg => hash ^^^ v.mapHash (v.objectGetMap arg)) name

def cacheIndex (v : Image ω μ σ δ κ) (name : σ) (arguments : List (Oop ω)) : Nat :=
  hashSelector v (v.address name) arguments &&& (methodCacheSize - 1)

def methodSaveCache (v : Image ω μ σ δ κ) (cache : Nat → MethodCacheEntry μ σ δ) (d : δ) (name : σ)
    (arguments : List (Oop ω)) : Nat → MethodCacheEntry μ σ δ :=
  let index := cacheIndex v name arguments
  Function.update cache index
    ⟨some d, some name, fun i => ((arguments[i]?).map v.objectGetMap).or ((cache index).maps i)⟩

variable [DecidableEq μ] [DecidableEq σ]

def unlessDiffers (cacheMask : Nat) (differs : Nat → Bool) (method : Option δ) : Option δ :=
  match cacheMask with
  | 1 => if differs 0 then none else method
  | 2 => if differs 1 then none else method
  | 4 => if differs 2 then none else method
  | 3 => if differs 0 || differs 1 then none else method
  | 5 => if differs 0 || differs 2 then none else method
  | 6 => if differs 1 || differs 2 then none else method
  | 7 => if differs 0 || differs 1 || differs 2 then none else method
  | _ => method

def methodCheckCache (v : Image ω μ σ δ κ) (cache : Nat → MethodCacheEntry μ σ δ) (name : σ)
    (arguments : List (Oop ω)) (beyond : Nat → Oop ω) : Option δ :=
  let entry := cache (cacheIndex v name arguments)
  if entry.selector ≠ some name then none
  else if 1 <<< arguments.length < v.cacheMask name then none
  else
    unlessDiffers (v.cacheMask name)
      (fun i => decide (some (v.objectGetMap ((arguments[i]?).getD (beyond i))) ≠ entry.maps i))
      entry.method

def methodFlushCache (cache : Nat → MethodCacheEntry μ σ δ) :
    Option σ → Nat → MethodCacheEntry μ σ δ
  | none => emptyCache
  | some name => fun i =>
    if (cache i).selector = some name then { cache i with selector := none } else cache i

variable [DecidableEq ω] [DecidableEq δ] [DecidableEq κ]

def savesAnswer (early : Bool) (arity : Nat) : Bool :=
  if early then decide (arity ≤ methodCacheArity) else decide (arity < methodCacheArity)

/-- `method_dispatch_on` -/
def methodDispatchOnCached (v : Image ω μ σ δ κ) (marks : Marks μ δ)
    (cache : Nat → MethodCacheEntry μ σ δ) (name : σ) (arguments : List (Oop ω))
    (resendMethod : Option κ) (beyond : Nat → Oop ω) :
    Option (Except Halt (Marks μ δ × (Nat → MethodCacheEntry μ σ δ) × Found ω δ)) :=
  let cached :=
    if resendMethod = none ∧ arguments.length ≤ methodCacheArity then
      methodCheckCache v cache name arguments beyond
    else none
  match cached with
  | some d => some (.ok (marks, cache, ⟨some d, arguments⟩))
  | none =>
    match searchAll v.toWorld name resendMethod 0 arguments
      (startSearch marks resendMethod.isSome) with
    | none => none
    | some (.error halt) => some (.error halt)
    | some (.ok (early, s)) =>
      let found := s.found v.toWorld arguments
      match found.definition with
      | none => some (.ok (s.marks, cache, found))
      | some d =>
        if resendMethod = none ∧ savesAnswer early arguments.length = true then
          some (.ok (s.marks, methodSaveCache v cache d name found.arguments, found))
        else some (.ok (s.marks, cache, found))

end Cache

section Entries

variable {ω μ σ δ κ : Type} [DecidableEq ω] [DecidableEq μ] [DecidableEq σ] [DecidableEq δ]
  {v : Image ω μ σ δ κ}

def Matches (v : Image ω μ σ δ κ) (entry : MethodCacheEntry μ σ δ) (name : σ)
    (arguments : List (Oop ω)) : Prop :=
  entry.selector = some name ∧ ∀ i, (v.cacheMask name).testBit i = true →
    ∃ arg, arguments[i]? = some arg ∧ entry.maps i = some (v.objectGetMap arg)

theorem inside_of_bit {mask n i : Nat} (fits : mask < 2 ^ n) (bit : mask.testBit i = true) : i < n := by
  by_contra beyond
  have le := Nat.pow_le_pow_right (show 0 < 2 by omega) (Nat.le_of_not_lt beyond)
  have clear := Nat.testBit_lt_two_pow (Nat.lt_of_lt_of_le fits le)
  rw [bit] at clear
  cases clear

omit [DecidableEq ω] [DecidableEq μ] [DecidableEq σ] [DecidableEq δ] in
theorem unlessDiffers_eq {mask : Nat} (few : mask < 8) (differs : Nat → Bool) (method : Option δ) :
    unlessDiffers mask differs method =
      if (mask.testBit 0 && differs 0 || mask.testBit 1 && differs 1 ||
        mask.testBit 2 && differs 2) = true then none else method := by
  interval_cases mask <;> simp [unlessDiffers, Nat.testBit]

omit [DecidableEq ω] [DecidableEq μ] [DecidableEq σ] [DecidableEq δ] in
theorem unlessDiffers_some {mask : Nat} (few : mask < 8) {differs : Nat → Bool} {method : Option δ}
    {d : δ} (hit : unlessDiffers mask differs method = some d) :
    method = some d ∧ ∀ i < 3, mask.testBit i = true → differs i = false := by
  rw [unlessDiffers_eq few] at hit
  split at hit
  · cases hit
  · rename_i agree
    simp only [Bool.or_eq_true, Bool.and_eq_true, not_or, not_and, Bool.not_eq_true] at agree
    obtain ⟨⟨zero, one⟩, two⟩ := agree
    refine ⟨hit, fun i inside => ?_⟩
    interval_cases i
    · exact zero
    · exact one
    · exact two

omit [DecidableEq δ] [DecidableEq ω] in
theorem check_matches {cache : Nat → MethodCacheEntry μ σ δ} {name : σ} {arguments : List (Oop ω)}
    {beyond : Nat → Oop ω} {d : δ} (few : v.cacheMask name < 8)
    (fits : v.cacheMask name < 2 ^ arguments.length)
    (hit : methodCheckCache v cache name arguments beyond = some d) :
    Matches v (cache (cacheIndex v name arguments)) name arguments ∧
      (cache (cacheIndex v name arguments)).method = some d := by
  unfold methodCheckCache at hit
  dsimp only at hit
  split at hit
  · cases hit
  · rename_i selector
    split at hit
    · cases hit
    · obtain ⟨method, agree⟩ := unlessDiffers_some few hit
      refine ⟨⟨of_not_not selector, fun i bit => ?_⟩, method⟩
      have inside := inside_of_bit fits bit
      have same := agree i (inside_of_bit few bit) bit
      rw [List.getElem?_eq_getElem inside] at same ⊢
      exact ⟨_, rfl, (of_not_not (of_decide_eq_false same)).symm⟩

/-- What keeps the entries right: masks cover all roles, and an accessor is on its first argument
alone. -/
structure Image.Sound (v : Image ω μ σ δ κ) : Prop where
  fit : ∀ name, RolesFit v.toWorld name
  covered : ∀ name, CoveredBy v.toWorld name (v.cacheMask name)
  accessors : ∀ name m, ∀ role ∈ rolesNamed v.toWorld (v.map m).roleTable name,
    (v.definition role.methodDefinition).isAccessor = true →
      (v.definition role.methodDefinition).dispatchPositions = 1

def Valid (v : Image ω μ σ δ κ) (entry : MethodCacheEntry μ σ δ) : Prop :=
  ∀ name arguments walks, Matches v entry name arguments → Walked v.toWorld arguments walks →
    ∃ e, entry.method = some e.definition ∧ Chosen v.toWorld (eventsFrom v.toWorld name 0 walks) e ∧
      ((v.definition e.definition).isAccessor = true →
        ∃ arg rest, arguments = arg :: rest ∧ e.object = v.target arg)

omit [DecidableEq σ] [DecidableEq δ] in
theorem walked_get {w : World ω μ σ δ κ} {arguments : List (Oop ω)} {walks : List (List ω)}
    (walked : Walked w arguments walks) {i : Nat} {arg : Oop ω} (there : arguments[i]? = some arg) :
    ∃ objs, walks[i]? = some objs ∧ order w arg = some (.ok objs) := by
  obtain ⟨inside, rfl⟩ := List.getElem?_eq_some_iff.mp there
  have same := List.Forall₂.length_eq walked
  exact ⟨walks[i], List.getElem?_eq_getElem (by omega), walked.get inside (by omega)⟩

omit [DecidableEq σ] [DecidableEq δ] in
theorem walks_same {w : World ω μ σ δ κ} {arguments arguments' : List (Oop ω)}
    {walks walks' : List (List ω)} (walked : Walked w arguments walks)
    (walked' : Walked w arguments' walks') {i : Nat} {arg arg' : Oop ω}
    (there : arguments[i]? = some arg) (there' : arguments'[i]? = some arg')
    (same : w.mapOf (w.target arg) = w.mapOf (w.target arg')) :
    (walks[i]?).map (List.map w.mapOf) = (walks'[i]?).map (List.map w.mapOf) := by
  obtain ⟨objs, at_, run⟩ := walked_get walked there
  obtain ⟨objs', at', run'⟩ := walked_get walked' there'
  have maps := order_same same
  rw [run, run'] at maps
  rw [at_, at', Option.map_some, Option.map_some]
  exact congrArg some (Except.ok.inj (Option.some.inj maps))

def leftArguments (v : Image ω μ σ δ κ) (e : Event ω δ) (arguments : List (Oop ω)) : List (Oop ω) :=
  if (v.definition e.definition).isAccessor then arguments.set 0 (.object e.object) else arguments

omit [DecidableEq ω] [DecidableEq μ] [DecidableEq σ] [DecidableEq δ] in
theorem found_arguments {s : Search ω μ δ} {e : Event ω δ} (choice : s.dispatch = some e.definition)
    (slot : s.slotLocation = some e.object) (arguments : List (Oop ω)) :
    (s.found v.toWorld arguments).arguments = leftArguments v e arguments := by
  simp only [Search.found, choice, slot, leftArguments]

omit [DecidableEq ω] [DecidableEq μ] [DecidableEq σ] [DecidableEq δ] in
theorem length_leftArguments (e : Event ω δ) (arguments : List (Oop ω)) :
    (leftArguments v e arguments).length = arguments.length := by
  unfold leftArguments
  split
  · exact List.length_set
  · rfl

omit [DecidableEq ω] [DecidableEq μ] [DecidableEq σ] [DecidableEq δ] in
theorem leftArguments_same {e : Event ω δ} {arguments : List (Oop ω)}
    (object : (v.definition e.definition).isAccessor = true →
      ∃ arg rest, arguments = arg :: rest ∧ e.object = v.target arg)
    (noSmall : ∀ value rest, arguments ≠ .small value :: rest) :
    leftArguments v e arguments = arguments := by
  unfold leftArguments
  split
  · rename_i accessor
    obtain ⟨arg, rest, rfl, there⟩ := object accessor
    cases arg with
    | small value => exact absurd rfl (noSmall value rest)
    | object o =>
      rw [List.set_cons_zero, there]
      rfl
  · rfl

omit [DecidableEq ω] [DecidableEq μ] [DecidableEq σ] in
theorem Chosen.answers {es : List (Event ω δ)} (fits : Fitting v.toWorld es) {e : Event ω δ}
    (chosen : Chosen v.toWorld es e) {choice : Option δ} {slot : Option ω}
    (answered : Answered v.toWorld es choice slot) :
    choice = some e.definition ∧ slot = some e.object := by
  have now : Answered v.toWorld es (some e.definition) (some e.object) := by
    refine ⟨fun none_ => ?_, fun d same => ?_⟩
    · cases none_
    · cases same
      exact ⟨e, rfl, rfl, chosen⟩
  obtain ⟨choice, slots⟩ := now.unique fits answered
  exact ⟨choice.symm, (slots rfl).symm⟩

theorem Chosen.again (sound : v.Sound) {name : σ} {arguments : List (Oop ω)}
    (six : arguments.length ≤ 6) {walks : List (List ω)} (walked : Walked v.toWorld arguments walks)
    {e : Event ω δ} (chosen : Chosen v.toWorld (eventsFrom v.toWorld name 0 walks) e)
    {arguments' : List (Oop ω)} {walks' : List (List ω)}
    (walked' : Walked v.toWorld arguments' walks')
    (same : ∀ i, (v.cacheMask name).testBit i = true → ∃ arg arg',
      (leftArguments v e arguments)[i]? = some arg ∧ arguments'[i]? = some arg' ∧
      v.objectGetMap arg = v.objectGetMap arg') :
    ∃ e', e'.definition = e.definition ∧
      Chosen v.toWorld (eventsFrom v.toWorld name 0 walks') e' ∧
      ((v.definition e.definition).isAccessor = true →
        ∃ arg rest, arguments' = arg :: rest ∧ e'.object = v.target arg) := by
  unfold leftArguments at same
  cases accessor : (v.definition e.definition).isAccessor with
  | false =>
    rw [accessor, if_neg Bool.false_ne_true] at same
    have maps : ∀ j, (v.cacheMask name).testBit (0 + j) = true →
        (walks[j]?).map (List.map v.mapOf) = (walks'[j]?).map (List.map v.mapOf) := by
      intro j bit
      rw [Nat.zero_add] at bit
      obtain ⟨arg, arg', there, there', equal⟩ := same j bit
      exact walks_same walked walked' there there' equal
    obtain ⟨e', find, chosen'⟩ := chosen.alike (eventsFrom_same (sound.covered name) 0 maps)
    refine ⟨e', congrArg (fun f => f.2.2) find, chosen', fun yes => ?_⟩
    cases yes
  | true =>
    rw [accessor, if_pos rfl] at same
    obtain ⟨role, there, bit, mine⟩ := role_of_event chosen.member
    have only : (v.definition e.definition).dispatchPositions = 1 := by
      have one := sound.accessors name _ role there
      rw [mine] at one
      exact one accessor
    have covers : (v.cacheMask name).testBit 0 = true := by
      have position := (sound.fit name).eventsFrom 0 walks e chosen.member
      rw [only, testBit_one] at position
      rw [of_decide_eq_true position]
      exact sound.covered name _ role there _ bit
    cases walked with
    | nil => exact absurd chosen.member List.not_mem_nil
    | @cons arg objs arguments walks run walked =>
      obtain ⟨first, arg', here, there', equal⟩ := same 0 covers
      cases here
      cases walked' with
      | nil => cases there'
      | @cons arg'' objs' arguments' walks' run' walked' =>
        cases there'
        obtain ⟨rest', rfl⟩ := order_head run'
        obtain ⟨e₁, definition₁, position₁, depth₁, chosen₁⟩ :=
          chosen.restart (sound.fit name) rest' (Walked.ordered (.cons run walked) six) only
        have maps : ∀ j, (v.cacheMask name).testBit (0 + j) = true →
            (((e.object :: rest') :: walks)[j]?).map (List.map v.mapOf) =
              (((v.target arg' :: rest') :: walks')[j]?).map (List.map v.mapOf) := by
          intro j bit
          rw [Nat.zero_add] at bit
          cases j with
          | zero =>
            have object : v.mapOf e.object = v.mapOf (v.target arg') := equal
            simp only [List.getElem?_cons_zero, Option.map_some, List.map_cons, object]
          | succ j =>
            obtain ⟨other, other', there, there', equal⟩ := same (j + 1) bit
            exact walks_same walked walked' there there' equal
        obtain ⟨e₂, find, chosen₂⟩ := chosen₁.alike (eventsFrom_same (sound.covered name) 0 maps)
        have position : e₂.position = 0 := (congrArg Prod.fst find).trans position₁
        have depth : e₂.depth = 0 := (congrArg (fun f => f.2.1) find).trans depth₁
        exact ⟨e₂, (congrArg (fun f => f.2.2) find).trans definition₁, chosen₂,
          fun _ => ⟨arg', arguments', rfl, object_of_zero chosen₂.member position depth⟩⟩

/-- What a dispatch answers makes an entry that stays right. -/
theorem Chosen.valid (sound : v.Sound) {name : σ} {arguments : List (Oop ω)}
    (six : arguments.length ≤ 6) (fits : v.cacheMask name < 2 ^ arguments.length)
    {walks : List (List ω)} (walked : Walked v.toWorld arguments walks) {e : Event ω δ}
    (chosen : Chosen v.toWorld (eventsFrom v.toWorld name 0 walks) e)
    {entry : MethodCacheEntry μ σ δ} (method : entry.method = some e.definition)
    (selector : entry.selector = some name) (maps : ∀ i < arguments.length,
      entry.maps i = ((leftArguments v e arguments)[i]?).map v.objectGetMap) : Valid v entry := by
  rintro name' arguments' walks' ⟨named, maps'⟩ walked'
  cases selector.symm.trans named
  have same : ∀ i, (v.cacheMask name).testBit i = true → ∃ arg arg',
      (leftArguments v e arguments)[i]? = some arg ∧ arguments'[i]? = some arg' ∧
      v.objectGetMap arg = v.objectGetMap arg' := by
    intro i bit
    obtain ⟨arg', there', equal⟩ := maps' i bit
    have inside := inside_of_bit fits bit
    rw [maps i inside] at equal
    obtain ⟨arg, there, equal⟩ := Option.map_eq_some_iff.mp equal
    exact ⟨arg, arg', there, there', equal⟩
  obtain ⟨e', definition, chosen', object⟩ := chosen.again sound six walked walked' same
  refine ⟨e', method.trans (congrArg some definition.symm), chosen', fun accessor => ?_⟩
  rw [definition] at accessor
  exact object accessor

theorem Valid.save (sound : v.Sound) {cache : Nat → MethodCacheEntry μ σ δ} {name : σ}
    {arguments : List (Oop ω)} (six : arguments.length ≤ 6)
    (fits : v.cacheMask name < 2 ^ arguments.length) {walks : List (List ω)}
    (walked : Walked v.toWorld arguments walks) {s : Search ω μ δ}
    (answered : Answered v.toWorld (eventsFrom v.toWorld name 0 walks) s.dispatch s.slotLocation)
    {d : δ} (choice : s.dispatch = some d) (valid : ∀ i, Valid v (cache i)) (i : Nat) :
    Valid v (methodSaveCache v cache d name (s.found v.toWorld arguments).arguments i) := by
  obtain ⟨e, rfl, slot, chosen⟩ := answered.chosen d choice
  rw [found_arguments choice slot]
  unfold methodSaveCache
  by_cases here : i = cacheIndex v name (leftArguments v e arguments)
  · subst here
    rw [Function.update_self]
    refine chosen.valid sound six fits walked rfl rfl fun j inside => ?_
    rw [← length_leftArguments e arguments] at inside
    dsimp only
    rw [List.getElem?_eq_getElem inside, Option.map_some, Option.some_or]
  · rw [Function.update_of_ne here]
    exact valid i

end Entries

section Apart

variable {ω μ σ δ κ : Type}

/-- All that changes is the roles of one name and the definitions that only they have. Objects get
other maps, but none that an object of another map has. -/
structure AgreeApart [DecidableEq σ] (name : σ) (w w' : World ω μ σ δ κ) : Prop where
  sameMap : ∀ o o', w'.mapOf o = w'.mapOf o' ↔ w.mapOf o = w.mapOf o'
  proto : w'.smallIntProto = w.smallIntProto
  nil : w'.nil = w.nil
  delegates : ∀ o, (w'.mapAt o).delegates = (w.mapAt o).delegates
  restricts : ∀ o, (w'.mapAt o).restrictDelegation = (w.mapAt o).restrictDelegation
  roles : ∀ other, other ≠ name → ∀ o,
    rolesNamed w' (w'.mapAt o).roleTable other = rolesNamed w (w.mapAt o).roleTable other
  definitions : ∀ other, other ≠ name → ∀ o, ∀ role ∈ rolesNamed w (w.mapAt o).roleTable other,
    w'.definition role.methodDefinition = w.definition role.methodDefinition

variable [DecidableEq σ] {name other : σ} {w w' : World ω μ σ δ κ}

theorem AgreeApart.target (apart : AgreeApart name w w') (o : Oop ω) : w'.target o = w.target o := by
  cases o with
  | small value => exact apart.proto
  | object o => rfl

theorem AgreeApart.walk [DecidableEq ω] [DecidableEq μ] (apart : AgreeApart name w w') (first : Oop ω)
    (fuel : Nat) (visited : List ω) (arg : Oop ω) (stack : List (Oop ω)) (restricted : Option Nat) :
    walk w' first fuel visited arg stack restricted =
      walk w first fuel visited arg stack restricted := by
  have restrict : ∀ (o : ω) (arg : Oop ω) (stack : List (Oop ω)) (restricted : Option Nat),
      restrictedAt (w'.mapAt o) first arg stack restricted =
        restrictedAt (w.mapAt o) first arg stack restricted := by
    intro o arg stack restricted
    rw [restrictedAt, restrictedAt, apart.restricts]
  have push : ∀ (o : ω) (stack : List (Oop ω)) (restricted : Option Nat),
      pushDelegates w' (w'.mapAt o) stack restricted =
        pushDelegates w (w.mapAt o) stack restricted := by
    intro o stack restricted
    rw [pushDelegates, pushDelegates, apart.delegates, apart.nil]
  induction fuel generalizing visited arg stack restricted with
  | zero => rfl
  | succ fuel ih =>
    unfold Dispatch.walk
    simp only [apart.target, apart.sameMap, restrict, push, ih]

theorem AgreeApart.eventsAt (apart : AgreeApart name w w') (differs : other ≠ name) (i depth : Nat)
    (obj : ω) : eventsAt w' other i depth obj = eventsAt w other i depth obj := by
  rw [Dispatch.eventsAt, Dispatch.eventsAt, apart.roles other differs]

theorem AgreeApart.eventsFrom (apart : AgreeApart name w w') (differs : other ≠ name) (i : Nat)
    (walks : List (List ω)) : eventsFrom w' other i walks = eventsFrom w other i walks := by
  have one : ∀ (depth : Nat) (i : Nat) (objs : List ω),
      eventsOf w' other i depth objs = eventsOf w other i depth objs := by
    intro depth i objs
    induction objs generalizing depth with
    | nil => rfl
    | cons obj objs ih => rw [eventsOf, eventsOf, apart.eventsAt differs, ih]
  induction walks generalizing i with
  | nil => rfl
  | cons objs walks ih => rw [Dispatch.eventsFrom, Dispatch.eventsFrom, one, ih]

theorem AgreeApart.definition (apart : AgreeApart name w w') (differs : other ≠ name) {i : Nat}
    {walks : List (List ω)} {d : δ} (occurs : Occurs (Dispatch.eventsFrom w other i walks) d) :
    w'.definition d = w.definition d := by
  obtain ⟨e, member, rfl⟩ := occurs
  obtain ⟨role, there, -, same⟩ := role_of_event member
  rw [← same]
  exact apart.definitions other differs _ role there

omit [DecidableEq σ] in
theorem Chosen.transfer [DecidableEq δ] {es : List (Event ω δ)} {e : Event ω δ}
    (chosen : Chosen w es e) (same : ∀ d, Occurs es d → w'.definition d = w.definition d) :
    Chosen w' es e := by
  have agree : ∀ (fs : List (Event ω δ)) (d : δ), Occurs es d →
      (CompleteIn w' fs d ↔ CompleteIn w fs d) := by
    intro fs d occurs
    unfold CompleteIn
    rw [same d occurs]
  have here := chosen.occurs
  obtain ⟨complete, most, es₁, es₂, rfl, new, completes, above⟩ := chosen
  refine ⟨(agree _ _ here).mpr complete, fun d occurs finished => ?_, es₁, es₂, rfl, new,
    (agree _ _ here).mpr completes, fun d occurs finished => ?_⟩
  · exact most d occurs ((agree _ d occurs).mp finished)
  · have whole : Occurs (es₁ ++ e :: es₂) d := by
      obtain ⟨f, member, defines⟩ := occurs
      exact ⟨f, List.mem_append_left _ member, defines⟩
    exact above d occurs ((agree _ d whole).mp finished)

end Apart

section Running

variable {ω μ σ δ κ : Type} [DecidableEq ω] [DecidableEq μ] [DecidableEq σ] [DecidableEq δ]

theorem valid_unselected {v : Image ω μ σ δ κ} {entry : MethodCacheEntry μ σ δ}
    (none_ : entry.selector = none) : Valid v entry := by
  rintro name arguments walks ⟨selector, -⟩
  cases none_.symm.trans selector

theorem Valid.define {v v' : Image ω μ σ δ κ} {name : σ} (apart : AgreeApart name v.toWorld v'.toWorld)
    (masks : ∀ other, other ≠ name → v'.cacheMask other = v.cacheMask other)
    {entry : MethodCacheEntry μ σ δ}
    (fresh : ∀ o i, v'.mapOf o = v.mapOf o ∨ entry.maps i ≠ some (v'.mapOf o))
    (valid : Valid v entry) (differs : entry.selector ≠ some name) : Valid v' entry := by
  rintro other arguments walks ⟨selector, maps⟩ walked
  have apartFrom : other ≠ name := by
    rintro rfl
    exact differs selector
  have old : Walked v.toWorld arguments walks := by
    refine walked.imp fun arg objs run => ?_
    rw [order] at run ⊢
    rwa [apart.walk] at run
  have matches_ : Matches v entry other arguments := by
    refine ⟨selector, fun i bit => ?_⟩
    rw [← masks other apartFrom] at bit
    obtain ⟨arg, there, same⟩ := maps i bit
    rw [Image.objectGetMap, apart.target] at same
    have kept := (fresh (v.target arg) i).resolve_right fun new => new same
    exact ⟨arg, there, by rw [Image.objectGetMap, ← kept, same]⟩
  obtain ⟨e, method, chosen, object⟩ := valid other arguments walks matches_ old
  have same : ∀ d, Occurs (eventsFrom v.toWorld other 0 walks) d →
      v'.definition d = v.definition d := fun d occurs => apart.definition apartFrom occurs
  refine ⟨e, method, ?_, fun accessor => ?_⟩
  · rw [apart.eventsFrom apartFrom]
    exact chosen.transfer same
  · rw [same _ chosen.occurs] at accessor
    obtain ⟨arg, rest, shape, there⟩ := object accessor
    exact ⟨arg, rest, shape, there.trans (apart.target arg).symm⟩

variable [DecidableEq κ]

/-- A heap whose marks and cache have come about through dispatches, definitions with the flush of
their selector, and collections, which may change everything and empty the cache. The messages have
the arguments that their selectors are defined on. A definition is on objects that share their maps
with no others, and gives them maps that no entry has. -/
inductive Running : Image ω μ σ δ κ → Marks μ δ → (Nat → MethodCacheEntry μ σ δ) → Prop where
  | start {v : Image ω μ σ δ κ} {marks : Marks μ δ} : v.Sound → marks.Stamped →
      Running v marks emptyCache
  | dispatch {v : Image ω μ σ δ κ} {marks marks' : Marks μ δ}
      {cache cache' : Nat → MethodCacheEntry μ σ δ} {found : Found ω δ} (name : σ)
      (arguments : List (Oop ω)) (resendMethod : Option κ) (beyond : Nat → Oop ω) :
      Running v marks cache →
      (resendMethod = none → arguments.length ≤ methodCacheArity →
        v.cacheMask name < 2 ^ arguments.length ∧ ∃ walks, Walked v.toWorld arguments walks) →
      methodDispatchOnCached v marks cache name arguments resendMethod beyond =
        some (.ok (marks', cache', found)) →
      Running v marks' cache'
  | define {v v' : Image ω μ σ δ κ} {marks marks' : Marks μ δ}
      {cache : Nat → MethodCacheEntry μ σ δ} (name : σ) : Running v marks cache →
      AgreeApart name v.toWorld v'.toWorld →
      (∀ other, other ≠ name → v'.cacheMask other = v.cacheMask other) →
      (∀ o i j, v'.mapOf o = v.mapOf o ∨ (cache i).maps j ≠ some (v'.mapOf o)) → v'.Sound →
      marks'.Stamped → Running v' marks' (methodFlushCache cache (some name))
  | collect {v v' : Image ω μ σ δ κ} {marks marks' : Marks μ δ}
      {cache : Nat → MethodCacheEntry μ σ δ} : Running v marks cache → v'.Sound →
      marks'.Stamped → Running v' marks' (methodFlushCache cache none)

theorem Running.valid {v : Image ω μ σ δ κ} {marks : Marks μ δ}
    {cache : Nat → MethodCacheEntry μ σ δ} (running : Running v marks cache) :
    v.Sound ∧ marks.Stamped ∧ ∀ i, Valid v (cache i) := by
  induction running with
  | start sound stamped => exact ⟨sound, stamped, fun i => valid_unselected rfl⟩
  | @dispatch v marks marks' cache cache' found name arguments resendMethod beyond _ message run ih =>
    obtain ⟨sound, stamped, valid⟩ := ih
    have fresh : (startSearch (ω := ω) marks resendMethod.isSome).marks.Stamped :=
      ⟨fun m => (stamped.1 m).trans (Nat.le_succ _), fun d => (stamped.2 d).trans (Nat.le_succ _)⟩
    unfold methodDispatchOnCached at run
    dsimp only at run
    split at run
    · cases run
      exact ⟨sound, stamped, valid⟩
    · split at run
      · cases run
      · cases run
      · rename_i early s ends
        have after := searchAll_stamped fresh ends
        split at run
        · cases run
          exact ⟨sound, after, valid⟩
        · rename_i d choice
          split at run
          · rename_i saves
            cases run
            obtain ⟨rfl, few⟩ := saves
            have six : arguments.length ≤ methodCacheArity := by
              unfold savesAnswer at few
              split at few
              · exact of_decide_eq_true few
              · exact (of_decide_eq_true few).le
            obtain ⟨fits, walks, walked⟩ := message rfl six
            obtain ⟨early', s', ends', answered⟩ :=
              searchAll_answers (sound.fit name) six walked stamped
            cases ends.symm.trans ends'
            exact ⟨sound, after, Valid.save sound six fits walked answered choice valid⟩
          · cases run
            exact ⟨sound, after, valid⟩
  | @define v v' marks marks' cache name _ apart masks fresh sound stamped ih =>
    obtain ⟨-, -, valid⟩ := ih
    refine ⟨sound, stamped, fun i => ?_⟩
    rw [methodFlushCache]
    dsimp only
    split
    · exact valid_unselected rfl
    · rename_i differs
      exact (valid i).define apart masks (fun o j => fresh o i j) differs
  | collect _ sound stamped _ => exact ⟨sound, stamped, fun i => valid_unselected rfl⟩

def twoImage : Image (Fin 3) (Fin 3) Unit (Fin 2) (Fin 2) where
  toWorld := twoMaps
  address _ := 8
  mapHash m := m
  cacheMask _ := 3

theorem twoImage_sound : twoImage.Sound where
  fit := twoMaps_fit
  covered := by
    have within : ∀ m, ∀ role ∈ rolesNamed twoMaps (twoMaps.map m).roleTable (),
        role.rolePositions ||| 3 = 3 := by decide
    intro name m role member i bit
    have three : (3 : Nat).testBit i = true := by
      rw [← within m role member, Nat.testBit_or, bit]
      rfl
    exact three
  accessors := by
    have none_ : ∀ d, (twoMaps.definition d).isAccessor = false := by decide
    intro name m role member accessor
    cases (none_ _).symm.trans accessor

end Running

end SlateVm.Dispatch
