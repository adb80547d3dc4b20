import SlateVm.Lib.Refinement
import SlateVm.Maps.RoleTable

/-! Roles that are added to an object and removed: what the walks along the links of its role
table find. -/
namespace SlateVm.Maps
open Slots Probing Refinement

variable {Symbol Method : Type} {idHash : Symbol → Nat} {roles roles' : RoleTable Symbol Method}
  {placed : List (Nat × RoleEntry Symbol Method)}

section Attached

def RoleEntry.pair (role : RoleEntry Symbol Method) : (Symbol × Method) × Nat :=
  ((role.name, role.methodDefinition), role.rolePositions)

def attached (roles : RoleTable Symbol Method) : List ((Symbol × Method) × Nat) :=
  roles.reduceOption.map RoleEntry.pair

theorem filter_attached_none : (attached roles).filter (fun x => decide (some x.1.2 ≠ none)) =
    attached roles := by simp

variable [DecidableEq Symbol]

def RoleHolds (idHash : Symbol → Nat) (roles : RoleTable Symbol Method)
    (entries : List (RoleEntry Symbol Method)) : Prop :=
  ∃ placed, Roles idHash roles placed ∧ placed.map Prod.snd = entries.map RoleEntry.bare

theorem role_fills : Fills (@roleTableAdd Symbol Method _ idHash) (RoleHolds idHash) where
  blank n := ⟨[], roles_blank n, rfl⟩
  insert := by
    rintro roles entries ⟨placed, table, same⟩ room role
    have count : placed.length = entries.length := by
      simpa only [List.length_map] using congrArg List.length same
    obtain ⟨roles', q, run, size, after⟩ := table.add (by omega) role
    refine ⟨roles', run, size, _, after, ?_⟩
    rw [List.map_append, same, List.map_append]
    rfl

theorem Roles.attached_perm (table : Roles idHash roles placed) :
    (attached roles).Perm (placed.map fun x => x.2.pair) := by
  have same := table.layout.perm.map RoleEntry.pair
  rwa [reduceOption_bareTable, List.map_map, List.map_map] at same

/-- A table whose links follow the order of its roles, each definition once for a selector. -/
structure Sound (idHash : Symbol → Nat) (roles : RoleTable Symbol Method) : Prop where
  placed : ∃ placed, Roles idHash roles placed
  once : ((attached roles).map Prod.fst).Nodup
  capacity : IsCapacity roles.length

theorem RoleHolds.sound {entries : List (RoleEntry Symbol Method)}
    (holds : RoleHolds idHash roles entries)
    (once : (entries.map fun role => role.pair.1).Nodup) (capacity : IsCapacity roles.length) :
    (attached roles).Perm (entries.map RoleEntry.pair) ∧ Sound idHash roles := by
  obtain ⟨placed, table, same⟩ := holds
  have all : (attached roles).Perm (entries.map RoleEntry.pair) := by
    have perm := table.attached_perm
    rw [show (placed.map fun x => x.2.pair) = (placed.map Prod.snd).map RoleEntry.pair by
      rw [List.map_map]; rfl, same, List.map_map] at perm
    exact perm
  refine ⟨all, ⟨placed, table⟩, ?_, capacity⟩
  rw [(all.map Prod.fst).nodup_iff, List.map_map]
  exact once

theorem Sound.grow [DecidableEq Method] (sound : Sound idHash roles) {n : Int} {wanted : Nat}
    {method : Option Method} (sum : ((attached roles).length : Int) + n = wanted)
    (fits : ((attached roles).filter fun x => decide (some x.1.2 ≠ method)).length ≤ wanted)
    (starts : roles.length ≠ 0 ∨ n ≠ 1) :
    ∃ grown, roleTableGrowExcluding idHash roles n method = some grown ∧ Sound idHash grown ∧
      wanted ≤ grown.length ∧
      (attached grown).Perm ((attached roles).filter fun x => decide (some x.1.2 ≠ method)) := by
  have kept : (attached roles).filter (fun x => decide (some x.1.2 ≠ method)) =
      (roles.reduceOption.filter fun role =>
        decide (some role.methodDefinition ≠ method)).map RoleEntry.pair := List.filter_map ..
  rw [attached, List.length_map] at sum
  rw [kept, List.length_map] at fits
  obtain ⟨grown, run, held, large, capacity⟩ := (@role_fills Symbol Method idHash _).grow sum fits
    starts
  have once : ((roles.reduceOption.filter fun role =>
      decide (some role.methodDefinition ≠ method)).map fun role => role.pair.1).Nodup := by
    have all := sound.once
    rw [attached, List.map_map] at all
    exact all.sublist (List.filter_sublist.map _)
  obtain ⟨same, sound'⟩ := held.sound once (capacity sound.capacity)
  exact ⟨grown, run, sound', large, kept ▸ same⟩

theorem Sound.added (sound : Sound idHash roles) (room : (attached roles).length < roles.length)
    (role : RoleEntry Symbol Method) (fresh : role.pair.1 ∉ (attached roles).map Prod.fst) :
    ∃ roles', roleTableAdd idHash roles role = some roles' ∧ Sound idHash roles' ∧
      (attached roles').Perm (attached roles ++ [role.pair]) := by
  obtain ⟨placed, table⟩ := sound.placed
  have same := table.attached_perm
  obtain ⟨roles', q, run, size, after⟩ :=
    table.add (by rwa [same.length_eq, List.length_map] at room) role
  have all : (attached roles').Perm (attached roles ++ [role.pair]) := by
    refine after.attached_perm.trans ?_
    rw [List.map_append]
    exact same.symm.append_right _
  refine ⟨roles', run, ⟨⟨_, after⟩, ?_, size ▸ sound.capacity⟩, all⟩
  rw [(all.map Prod.fst).nodup_iff, List.map_append, List.map_singleton]
  exact List.nodup_append'.mpr ⟨sound.once, List.nodup_singleton _,
    List.disjoint_singleton.mpr fresh⟩

theorem Sound.morePositions [DecidableEq Method] (sound : Sound idHash roles) {i : Nat}
    {role : RoleEntry Symbol Method} (here : stored roles i = some role) (position : Nat) :
    Sound idHash (addPositions roles i position) ∧
      (attached (addPositions roles i position)).Perm ((attached roles).map fun x =>
        if x.1 = role.pair.1 then (x.1, x.2 ||| position) else x) := by
  obtain ⟨placed, table⟩ := sound.placed
  let f (e : RoleEntry Symbol Method) : RoleEntry Symbol Method :=
    if e.pair.1 = role.pair.1 then { e with rolePositions := e.rolePositions ||| position } else e
  have named : ∀ e, (f e).name = e.name := by
    intro e
    simp only [f]
    split <;> rfl
  have once := sound.once
  rw [(table.attached_perm.map Prod.fst).nodup_iff, List.map_map] at once
  have there : (i, role.bare) ∈ placed := by
    rw [← table.layout.slots, stored_bareTable, here]
    rfl
  -- no other role has the selector and the definition
  have slots : ∀ p, stored (bareTable (addPositions roles i position)) p =
      (stored (bareTable roles) p).map f := by
    intro p
    rw [stored_bareTable, stored_bareTable, addPositions, stored_modify]
    split
    · rename_i same
      subst same
      rw [here]
      exact congrArg some (if_pos rfl).symm
    · rename_i other
      cases found : stored roles p with
      | none => rfl
      | some e =>
        have member : (p, e.bare) ∈ placed := by
          rw [← table.layout.slots, stored_bareTable, found]
          rfl
        have apart : e.pair.1 ≠ role.pair.1 := fun same =>
          other (congrArg Prod.fst (List.inj_on_of_nodup_map once member there same))
        exact congrArg some (if_neg apart).symm
  have size : (addPositions roles i position).length = roles.length := List.length_modify ..
  have next : nextRole (addPositions roles i position) = nextRole roles := by
    funext p
    rw [nextRole, addPositions, stored_modify, nextRole]
    split
    · cases stored roles p <;> rfl
    · rfl
  have moved : Roles idHash (addPositions roles i position)
      (placed.map (Prod.map id f)) := by
    constructor
    · rw [Layout, length_bareTable, size, ← length_bareTable]
      exact table.layout.map f (fun e => by rw [named]) slots
    · intro s
      have chain : chainOf (placed.map (Prod.map id f)) s = chainOf placed s := by
        simp only [chainOf, List.filter_map, List.map_map, Function.comp_def, Prod.map, named, id]
      rw [chain, next]
      exact table.linked s
  have all : (attached (addPositions roles i position)).Perm ((attached roles).map fun x =>
      if x.1 = role.pair.1 then (x.1, x.2 ||| position) else x) := by
    refine moved.attached_perm.trans ?_
    refine List.Perm.trans ?_ (table.attached_perm.symm.map _)
    rw [List.map_map, List.map_map]
    refine List.Perm.of_eq (List.map_congr_left fun x _ => ?_)
    simp only [Function.comp_apply, Prod.map, f]
    split <;> rfl
  refine ⟨⟨⟨_, moved⟩, ?_, size ▸ sound.capacity⟩, all⟩
  rw [(all.map Prod.fst).nodup_iff, List.map_map]
  have keys : (Prod.fst ∘ fun x : (Symbol × Method) × Nat =>
      if x.1 = role.pair.1 then (x.1, x.2 ||| position) else x) = Prod.fst := by
    funext x
    simp only [Function.comp_apply]
    split <;> rfl
  rw [keys]
  exact sound.once

end Attached

section Walks

theorem roleOfMethod_linked [DecidableEq Method] {method : Method} {ps : List Nat}
    (linked : Linked (nextRole roles) ps) (filled : ∀ p ∈ ps, (stored roles p).isSome)
    (fuel : Nat) (enough : ps.length < fuel) : roleOfMethod roles method fuel ps.head? =
      some (ps.find? fun p => (stored roles p).any fun role =>
        decide (role.methodDefinition = method)) := by
  induction ps generalizing fuel with
  | nil => cases fuel <;> rfl
  | cons p ps ih =>
    cases fuel with
    | zero => exact absurd enough (Nat.not_lt_zero _)
    | succ fuel =>
      obtain ⟨role, here⟩ := Option.isSome_iff_exists.mp (filled p List.mem_cons_self)
      have next : role.nextRole = ps.head? ∧ Linked (nextRole roles) ps := by
        have read : nextRole roles p = role.nextRole := by rw [nextRole, here]; rfl
        cases ps with
        | nil => exact ⟨read.symm.trans linked, trivial⟩
        | cons q ps => exact ⟨read.symm.trans linked.1, linked.2⟩
      rw [List.head?_cons, roleOfMethod, here, List.find?_cons, here]
      simp only [Option.any_some]
      by_cases found : role.methodDefinition = method
      · rw [if_pos found, decide_eq_true found]
      · rw [if_neg found, decide_eq_false found, next.1]
        exact ih next.2 (fun q member => filled q (List.mem_cons_of_mem p member)) fuel
          (Nat.lt_of_succ_lt_succ enough)

variable [DecidableEq Symbol]

theorem Roles.length_le (table : Roles idHash roles placed) : placed.length ≤ roles.length := by
  have same := table.layout.perm.length_eq
  rw [List.length_map] at same
  rw [← same, ← length_bareTable]
  exact List.reduceOption_length_le _

theorem Roles.chain_le (table : Roles idHash roles placed) (s : Symbol) :
    (chainOf placed s).length ≤ roles.length := by
  rw [chainOf, List.length_map]
  exact (List.length_filter_le ..).trans table.length_le

theorem Roles.found [DecidableEq Method] (table : Roles idHash roles placed) (s : Symbol)
    (method : Method) : roleOfMethod roles method (roles.length + 1)
      (entryForName idHash RoleEntry.name roles s) =
      some ((chainOf placed s).find? fun p => (stored roles p).any fun role =>
        decide (role.methodDefinition = method)) := by
  rw [table.first]
  refine roleOfMethod_linked (table.linked s) (fun p member => ?_) _
    (Nat.lt_succ_of_le (table.chain_le s))
  obtain ⟨role, here, -⟩ := table.filled member
  rw [here]
  rfl

def rolesNamed (idHash : Symbol → Nat) (roles : RoleTable Symbol Method) (s : Symbol) :
    List (Method × Nat) :=
  match entryForName idHash RoleEntry.name roles s with
  | none => []
  | some i => (trail (nextRole roles) roles.length i).filterMap fun i =>
      (stored roles i).map fun role => (role.methodDefinition, role.rolePositions)

theorem Roles.named (table : Roles idHash roles placed) (s : Symbol) : rolesNamed idHash roles s =
    (placed.filter fun x => decide (x.2.name = s)).map
      fun x => (x.2.methodDefinition, x.2.rolePositions) := by
  have walked : rolesNamed idHash roles s = (chainOf placed s).filterMap fun i =>
      (stored roles i).map fun role => (role.methodDefinition, role.rolePositions) := by
    have linked := table.linked s
    have short := table.chain_le s
    rw [rolesNamed, table.first]
    cases chain : chainOf placed s with
    | nil => rfl
    | cons p ps =>
      rw [chain] at linked short
      simp only [List.head?_cons]
      rw [linked.trail roles.length short]
  rw [walked, chainOf, List.filterMap_map, ← List.filterMap_eq_map]
  refine List.filterMap_congr fun x member => ?_
  obtain ⟨role, here, -, there⟩ := table.filled (List.mem_map_of_mem member)
  have same : role.bare = x.2 := by
    have slot := (table.layout.slots x.1 x.2).mpr (List.mem_of_mem_filter member)
    rw [stored_bareTable, here] at slot
    exact Option.some.inj slot
  rw [Function.comp_apply, here]
  simp only [Function.comp_apply, ← same]
  rfl

theorem Roles.ends (table : Roles idHash roles placed) {i : Nat} (filled : (stored roles i).isSome) :
    (follow (nextRole roles) roles.length i).isSome := by
  obtain ⟨role, here⟩ := Option.isSome_iff_exists.mp filled
  have there : (i, role.bare) ∈ placed := by
    rw [← table.layout.slots, stored_bareTable, here]
    rfl
  have member : i ∈ chainOf placed role.name := List.mem_map.mpr
    ⟨(i, role.bare), List.mem_filter.mpr ⟨there, decide_eq_true rfl⟩, rfl⟩
  obtain ⟨before, behind, split⟩ := List.append_of_mem member
  have linked := table.linked role.name
  have short := table.chain_le role.name
  rw [split] at linked short
  rw [List.length_append, List.length_cons] at short
  obtain ⟨ps, l, whole⟩ := List.eq_nil_or_concat (i :: behind) |>.resolve_left (by simp)
  rw [List.concat_eq_append] at whole
  have rest := linked.suffix
  rw [whole] at rest
  have size := congrArg List.length whole
  rw [List.length_cons, List.length_append, List.length_singleton] at size
  rw [rest.follow roles.length (by omega) (by rw [← whole]; rfl)]
  rfl

theorem Roles.seated (table : Roles idHash roles placed) :
    Seated roles.length (fun role => home idHash roles.length role.name) (stored roles) := by
  intro i hi role here j hj early hole
  have bare : stored (bareTable roles) i = some role.bare := by rw [stored_bareTable, here]; rfl
  have seated := table.layout.seated
  rw [length_bareTable] at seated
  refine seated i hi role.bare bare j hj early ?_
  rw [stored_bareTable, hole]
  rfl

end Walks

section Shown

variable [DecidableEq Symbol] {m : Symbol → Method → Option Nat}

theorem nodup_of_fibers {l : List (RoleEntry Symbol Method)}
    (each : ∀ s, ((l.filter fun role => decide (role.name = s)).map
      RoleEntry.methodDefinition).Nodup) : (l.map fun role => role.pair.1).Nodup := by
  induction l with
  | nil => exact List.nodup_nil
  | cons role l ih =>
    have head := each role.name
    rw [List.filter_cons_of_pos (by simp), List.map_cons, List.nodup_cons] at head
    rw [List.map_cons, List.nodup_cons]
    constructor
    · intro again
      obtain ⟨other, member, same⟩ := List.mem_map.mp again
      obtain ⟨named, defined⟩ := Prod.mk.inj same
      exact head.1 (List.mem_map.mpr
        ⟨other, List.mem_filter.mpr ⟨member, decide_eq_true named⟩, defined⟩)
    · refine ih fun s => (each s).sublist (List.Sublist.map _ ?_)
      exact (List.sublist_cons_self role l).filter _

/-- Walking the links from the first role of a selector enumerates its definitions with their
positions, each once; the links end, no hole comes before a role on its probe, and the capacity
is a power of two or zero. -/
structure RolesShown (idHash : Symbol → Nat) (roles : RoleTable Symbol Method)
    (m : Symbol → Method → Option Nat) : Prop where
  placed : ∃ placed, Roles idHash roles placed
  once : ∀ s, ((rolesNamed idHash roles s).map Prod.fst).Nodup
  enumerates : ∀ s d n, (d, n) ∈ rolesNamed idHash roles s ↔ m s d = some n
  ends : ∀ i, (stored roles i).isSome → (follow (nextRole roles) roles.length i).isSome
  seated : Seated roles.length (fun role => home idHash roles.length role.name) (stored roles)
  capacity : IsCapacity roles.length

theorem Roles.mem_named (table : Roles idHash roles placed) {s : Symbol} {d : Method} {n : Nat} :
    (d, n) ∈ rolesNamed idHash roles s ↔ ((s, d), n) ∈ attached roles := by
  rw [table.named, table.attached_perm.mem_iff]
  constructor
  · intro member
    obtain ⟨x, chosen, same⟩ := List.mem_map.mp member
    obtain ⟨there, named⟩ := List.mem_filter.mp chosen
    obtain ⟨rfl, rfl⟩ := Prod.mk.inj same
    exact List.mem_map.mpr ⟨x, there, by rw [RoleEntry.pair, of_decide_eq_true named]⟩
  · intro member
    obtain ⟨x, there, same⟩ := List.mem_map.mp member
    obtain ⟨⟨named, defined⟩, positions⟩ := Prod.mk.inj same |>.imp_left Prod.mk.inj
    exact List.mem_map.mpr ⟨x, List.mem_filter.mpr ⟨there, decide_eq_true named⟩,
      by rw [show x.2.methodDefinition = d from defined, show x.2.rolePositions = n from positions]⟩

theorem Sound.shown (sound : Sound idHash roles)
    (same : ∀ s d n, ((s, d), n) ∈ attached roles ↔ m s d = some n) :
    RolesShown idHash roles m := by
  obtain ⟨placed, table⟩ := sound.placed
  constructor
  · exact ⟨placed, table⟩
  · intro s
    have all := sound.once
    rw [(table.attached_perm.map Prod.fst).nodup_iff, List.map_map] at all
    rw [table.named, List.map_map]
    refine List.Nodup.map_on ?_ ((List.Nodup.of_map _ all).filter _)
    intro x hx y hy defined
    obtain ⟨xin, xnamed⟩ := List.mem_filter.mp hx
    obtain ⟨yin, ynamed⟩ := List.mem_filter.mp hy
    have named : x.2.name = y.2.name :=
      (of_decide_eq_true xnamed).trans (of_decide_eq_true ynamed).symm
    exact List.inj_on_of_nodup_map all xin yin (Prod.ext named defined)
  · intro s d n
    rw [table.mem_named, same]
  · exact fun i filled => table.ends filled
  · exact table.seated
  · exact sound.capacity

theorem RolesShown.sound (shown : RolesShown idHash roles m) : Sound idHash roles := by
  obtain ⟨placed, table⟩ := shown.placed
  refine ⟨⟨placed, table⟩, ?_, shown.capacity⟩
  rw [(table.attached_perm.map Prod.fst).nodup_iff, List.map_map]
  have each := nodup_of_fibers (l := placed.map Prod.snd) fun s => by
    have once := shown.once s
    rw [table.named, List.map_map] at once
    rw [List.filter_map, List.map_map]
    exact once
  rwa [List.map_map] at each

theorem RolesShown.mem_attached (shown : RolesShown idHash roles m) {s : Symbol} {d : Method} {n : Nat} :
    ((s, d), n) ∈ attached roles ↔ m s d = some n := by
  obtain ⟨placed, table⟩ := shown.placed
  rw [← table.mem_named, shown.enumerates]

end Shown

section Steps

variable [DecidableEq Symbol] [DecidableEq Method] {m : Symbol → Method → Option Nat}

inductive RoleOp (Symbol Method : Type) where
  | addRoleAt (selector : Symbol) (position : Nat) (method : Method)
  | removeRole (selector : Symbol) (method : Method)

def performRole (idHash : Symbol → Nat) (roles : RoleTable Symbol Method) :
    RoleOp Symbol Method → Option (RoleTable Symbol Method)
  | .addRoleAt selector position method => objectAddRoleAt idHash roles selector position method
  | .removeRole selector method => objectRemoveRole idHash roles selector method

def RoleOp.after (m : Symbol → Method → Option Nat) :
    RoleOp Symbol Method → Symbol → Method → Option Nat
  | .addRoleAt selector position method => fun s d =>
    if s = selector ∧ d = method then
      some ((m s d).elim position fun positions => positions ||| position)
    else m s d
  | .removeRole selector method => fun s d => if s = selector ∧ d = method then none else m s d

def roleImplementation (idHash : Symbol → Nat) :
    Implementation (RoleTable Symbol Method) (Symbol → Method → Option Nat) (RoleOp Symbol Method)
      Unit where
  start roles m := RolesShown idHash roles m
  perform roles op := (performRole idHash roles op).map fun roles' => (roles', ())
  next m op _ := op.after m
  right _ _ _ := True

def RoleOp.Fits (roles : RoleTable Symbol Method) : RoleOp Symbol Method → Prop
  | .addRoleAt _ _ _ => roles ≠ []
  | .removeRole selector method =>
    ∀ role ∈ roles.reduceOption, role.methodDefinition = method → role.name = selector

theorem Sound.walk (sound : Sound idHash roles) {s : Symbol} {method : Method} {n : Nat}
    (there : ((s, method), n) ∈ attached roles) : ∃ i role,
      roleOfMethod roles method (roles.length + 1)
        (entryForName idHash RoleEntry.name roles s) = some (some i) ∧
      stored roles i = some role ∧ role.pair.1 = (s, method) := by
  obtain ⟨placed, table⟩ := sound.placed
  rw [table.found]
  obtain ⟨x, member, same⟩ := List.mem_map.mp (table.attached_perm.mem_iff.mp there)
  obtain ⟨⟨named, defined⟩, -⟩ := Prod.mk.inj same |>.imp_left Prod.mk.inj
  have onChain : x.1 ∈ chainOf placed s :=
    List.mem_map.mpr ⟨x, List.mem_filter.mpr ⟨member, decide_eq_true named⟩, rfl⟩
  cases found : (chainOf placed s).find? fun p => (stored roles p).any fun role =>
      decide (role.methodDefinition = method) with
  | none =>
    have slot := (table.layout.slots x.1 x.2).mpr member
    rw [stored_bareTable, Option.map_eq_some_iff] at slot
    obtain ⟨role, here, bare⟩ := slot
    have missed := List.find?_eq_none.mp found x.1 onChain
    have same : role.methodDefinition = method := by
      rw [← show x.2.methodDefinition = method from defined, ← bare]
      rfl
    rw [here, Option.any_some, decide_eq_true same] at missed
    exact absurd rfl missed
  | some i =>
    obtain ⟨role, here, named, -⟩ := table.filled (List.mem_of_find?_eq_some found)
    have hit := List.find?_some found
    rw [here, Option.any_some, decide_eq_true_eq] at hit
    exact ⟨i, role, rfl, here, Prod.ext named hit⟩

theorem Sound.walk_none (sound : Sound idHash roles) {s : Symbol} {method : Method}
    (absent : ∀ n, ((s, method), n) ∉ attached roles) :
    roleOfMethod roles method (roles.length + 1)
      (entryForName idHash RoleEntry.name roles s) = some none := by
  obtain ⟨placed, table⟩ := sound.placed
  rw [table.found, Option.some.injEq, List.find?_eq_none]
  intro p member hit
  obtain ⟨role, here, named, there⟩ := table.filled member
  rw [here, Option.any_some, decide_eq_true_eq] at hit
  refine absent role.rolePositions (table.attached_perm.mem_iff.mpr (List.mem_map.mpr
    ⟨_, there, ?_⟩))
  rw [← named, ← hit]
  rfl

theorem Sound.addRoleAt_known (sound : Sound idHash roles) {selector : Symbol} {method : Method}
    (position : Nat) {n : Nat} (there : ((selector, method), n) ∈ attached roles) :
    ∃ roles', objectAddRoleAt idHash roles selector position method = some roles' ∧
      Sound idHash roles' ∧ (attached roles').Perm ((attached roles).map fun x =>
        if x.1 = (selector, method) then (x.1, x.2 ||| position) else x) := by
  obtain ⟨i, role, walk, -, -⟩ := sound.walk there
  have sum : ((attached roles).length : Int) + 0 = (attached roles).length := Int.add_zero _
  obtain ⟨grown, grow, sound', -, same⟩ := sound.grow sum (List.length_filter_le ..)
    (Or.inr (by decide))
  rw [filter_attached_none] at same
  obtain ⟨j, role', walk', here, key⟩ := sound'.walk (same.mem_iff.mpr there)
  obtain ⟨after, all⟩ := sound'.morePositions here position
  rw [key] at all
  refine ⟨addPositions grown j position, ?_, after, all.trans (same.map _)⟩
  simp only [objectAddRoleAt, walk, grow, walk', Option.bind_eq_bind, Option.bind_some]

theorem Sound.addRoleAt_new (sound : Sound idHash roles) {selector : Symbol} {method : Method}
    (position : Nat) (absent : ∀ n, ((selector, method), n) ∉ attached roles)
    (table : roles ≠ []) :
    ∃ roles', objectAddRoleAt idHash roles selector position method = some roles' ∧
      Sound idHash roles' ∧
      (attached roles').Perm (attached roles ++ [((selector, method), position)]) := by
  have sum : ((attached roles).length : Int) + 1 = ((attached roles).length + 1 : Nat) := rfl
  obtain ⟨grown, grow, sound', large, same⟩ := sound.grow sum
    ((List.length_filter_le ..).trans (Nat.le_succ _))
    (Or.inl fun none => table (List.length_eq_zero_iff.mp none))
  rw [filter_attached_none] at same
  have fresh : (selector, method) ∉ (attached grown).map Prod.fst := by
    intro again
    obtain ⟨⟨_, n⟩, member, rfl⟩ := List.mem_map.mp again
    exact absent n (same.mem_iff.mp member)
  obtain ⟨roles', run, after, all⟩ := sound'.added (by rw [same.length_eq]; exact large)
    ⟨selector, position, method, none⟩ fresh
  refine ⟨roles', ?_, after, all.trans (same.append_right _)⟩
  simp only [objectAddRoleAt, sound.walk_none absent, grow, Option.bind_eq_bind, Option.bind_some]
  exact run

theorem RolesShown.add_iff (shown : RolesShown idHash roles m) (selector : Symbol) (position : Nat)
    (method : Method) : Step (roleImplementation idHash) (RolesShown idHash) roles m
      (.addRoleAt selector position method) ↔ roles ≠ [] := by
  constructor
  · rintro ⟨roles', a, run, -⟩ rfl
    have stuck : objectAddRoleAt idHash [] selector position method = none := by
      have grown : roleTableGrowExcluding idHash ([] : RoleTable Symbol Method) 1 none = none :=
        growExcluding_first
      have walk := shown.sound.walk_none
        fun n (there : ((selector, method), n) ∈ attached []) => List.not_mem_nil there
      simp only [objectAddRoleAt, walk, grown, Option.bind_eq_bind, Option.bind_some,
        Option.bind_none]
    simp only [roleImplementation, performRole, stuck, Option.map_none] at run
    cases run
  · intro table
    have performed : ∀ roles', objectAddRoleAt idHash roles selector position method = some roles' →
        Sound idHash roles' →
        (∀ s d n, ((s, d), n) ∈ attached roles' ↔
          RoleOp.after m (.addRoleAt selector position method) s d = some n) →
        Step (roleImplementation idHash) (RolesShown idHash) roles m
          (.addRoleAt selector position method) := by
      intro roles' run sound same
      refine ⟨roles', (), ?_, trivial, sound.shown same⟩
      simp only [roleImplementation, performRole, run, Option.map_some]
    by_cases known : ∃ n, ((selector, method), n) ∈ attached roles
    · obtain ⟨n, there⟩ := known
      obtain ⟨roles', run, sound, all⟩ := shown.sound.addRoleAt_known position there
      refine performed roles' run sound fun s d k => ?_
      have had := shown.mem_attached.mp there
      rw [all.mem_iff, List.mem_map]
      simp only [RoleOp.after]
      constructor
      · rintro ⟨⟨⟨s', d'⟩, k'⟩, member, same⟩
        have here := shown.mem_attached.mp member
        split at same
        · rename_i equal
          obtain ⟨rfl, rfl⟩ := Prod.mk.inj equal
          obtain ⟨⟨rfl, rfl⟩, rfl⟩ := Prod.mk.inj same |>.imp_left Prod.mk.inj
          rw [if_pos ⟨rfl, rfl⟩, here]
          rfl
        · rename_i other
          cases same
          rw [if_neg fun equal => other (Prod.ext equal.1 equal.2), here]
      · intro after
        split at after
        · rename_i equal
          obtain ⟨rfl, rfl⟩ := equal
          rw [had] at after
          cases after
          exact ⟨_, there, if_pos rfl⟩
        · rename_i other
          refine ⟨((s, d), k), shown.mem_attached.mpr after, if_neg fun equal => other ?_⟩
          exact Prod.mk.inj equal
    · have absent : ∀ n, ((selector, method), n) ∉ attached roles := fun n there => known ⟨n, there⟩
      obtain ⟨roles', run, sound, all⟩ := shown.sound.addRoleAt_new position absent table
      refine performed roles' run sound fun s d k => ?_
      have missing : m selector method = none := by
        cases had : m selector method with
        | none => rfl
        | some n => exact absurd (shown.mem_attached.mpr had) (absent n)
      rw [all.mem_iff, List.mem_append, List.mem_singleton, shown.mem_attached]
      simp only [RoleOp.after]
      split
      · rename_i equal
        obtain ⟨rfl, rfl⟩ := equal
        rw [missing]
        simp [eq_comm]
      · rename_i other
        constructor
        · rintro (old | new)
          · exact old
          · exact absurd (Prod.mk.inj (Prod.mk.inj new).1) other
        · exact Or.inl

theorem Sound.removeRole (sound : Sound idHash roles) (selector : Symbol) (method : Method) :
    ∃ roles', objectRemoveRole idHash roles selector method = some roles' ∧ Sound idHash roles' ∧
      (attached roles').Perm
        ((attached roles).filter fun x => decide (some x.1.2 ≠ some method)) := by
  let hits := roles.reduceOption.countP fun role => decide (role.methodDefinition = method)
  by_cases none : hits = 0
  · have all : (attached roles).filter (fun x => decide (some x.1.2 ≠ some method)) =
        attached roles := by
      refine List.filter_eq_self.mpr fun x member => ?_
      obtain ⟨role, there, rfl⟩ := List.mem_map.mp member
      have other := List.countP_eq_zero.mp none role there
      simpa [RoleEntry.pair] using other
    refine ⟨roles, if_pos none, sound, ?_⟩
    rw [all]
  · have sum : ((attached roles).length : Int) + hits = ((attached roles).length + hits : Nat) := rfl
    obtain ⟨grown, grow, after, -, same⟩ := sound.grow sum
      ((List.length_filter_le ..).trans (Nat.le_add_right ..))
      (Or.inl fun empty => none (by
        simp only [hits, List.length_eq_zero_iff.mp empty]
        rfl))
    exact ⟨grown, (if_neg none).trans grow, after, same⟩

theorem RolesShown.remove_iff (shown : RolesShown idHash roles m) (selector : Symbol)
    (method : Method) : Step (roleImplementation idHash) (RolesShown idHash) roles m
      (.removeRole selector method) ↔
      ∀ role ∈ roles.reduceOption, role.methodDefinition = method → role.name = selector := by
  obtain ⟨roles', run, sound, all⟩ := shown.sound.removeRole selector method
  have left : ∀ s d n, ((s, d), n) ∈ attached roles' ↔ m s d = some n ∧ d ≠ method := by
    intro s d n
    rw [all.mem_iff, List.mem_filter, shown.mem_attached]
    simp
  constructor
  · rintro ⟨again, a, run', -, shown'⟩ role member defined
    simp only [roleImplementation, performRole, run, Option.map_some, Option.some.injEq,
      Prod.mk.injEq] at run'
    obtain ⟨rfl, -⟩ := run'
    by_contra other
    have had := shown.mem_attached.mp (List.mem_map_of_mem (f := RoleEntry.pair) member)
    have kept : RoleOp.after m (.removeRole selector method) role.name role.methodDefinition =
        some role.rolePositions := (if_neg fun ⟨named, _⟩ => other named).trans had
    exact ((left _ _ _).mp (shown'.mem_attached.mpr kept)).2 defined
  · intro only
    refine ⟨roles', (), ?_, trivial, sound.shown fun s d n => ?_⟩
    · simp only [roleImplementation, performRole, run, Option.map_some]
    · rw [left]
      simp only [roleImplementation, RoleOp.after]
      split
      · rename_i equal
        obtain ⟨rfl, rfl⟩ := equal
        simp
      · rename_i other
        refine ⟨And.left, fun had => ⟨had, ?_⟩⟩
        rintro rfl
        obtain ⟨role, member, same⟩ := List.mem_map.mp (shown.mem_attached.mpr had)
        obtain ⟨⟨named, defined⟩, -⟩ := Prod.mk.inj same |>.imp_left Prod.mk.inj
        exact other ⟨named.symm.trans (only role member defined), rfl⟩

theorem role_step_iff (idHash : Symbol → Nat) (roles : RoleTable Symbol Method)
    (m : Symbol → Method → Option Nat) (op : RoleOp Symbol Method)
    (shown : RolesShown idHash roles m) :
    Step (roleImplementation idHash) (RolesShown idHash) roles m op ↔ op.Fits roles := by
  cases op with
  | addRoleAt selector position method => exact shown.add_iff selector position method
  | removeRole selector method => exact shown.remove_iff selector method

/-- The walks find what was added and not removed exactly in the runs in which no role goes into
a table without entries, and no definition is removed while another selector has it. -/
theorem roles_found_iff (idHash : Symbol → Nat) (roles : RoleTable Symbol Method)
    (m : Symbol → Method → Option Nat) (shown : RolesShown idHash roles m)
    (ops : List (RoleOp Symbol Method)) :
    Follows (roleImplementation idHash) (RolesShown idHash) roles m ops ↔
      Within (roleImplementation idHash) (fun roles op => op.Fits roles) roles ops :=
  follows_iff (role_step_iff idHash) shown ops

end Steps

section Samples

theorem blank_shown (k : Nat) :
    RolesShown id (List.replicate (2 ^ k) none) (fun (_ _ : Nat) => none) := by
  have sound : Sound id (List.replicate (2 ^ k) (none : Option (RoleEntry Nat Nat))) :=
    ⟨⟨[], roles_blank _⟩, by rw [attached, List.reduceOption_replicate_none]; exact List.nodup_nil,
      Or.inr ⟨k, by rw [List.length_replicate]⟩⟩
  refine sound.shown fun s d n => ?_
  rw [attached, List.reduceOption_replicate_none]
  simp

theorem roles_found_iff_sample : Follows (roleImplementation id) (RolesShown id) [none]
    (fun (_ _ : Nat) => none) [.addRoleAt 3 1 7, .addRoleAt 3 2 8, .addRoleAt 3 2 7] := by
  have first : (roleImplementation id).perform [none] (.addRoleAt 3 1 7) =
      some ([some ⟨3, 1, 7, none⟩], ()) := rfl
  have second : (roleImplementation id).perform [some ⟨3, 1, 7, none⟩] (.addRoleAt 3 2 8) =
      some ([some ⟨3, 2, 8, none⟩, some ⟨3, 1, 7, some 0⟩], ()) := rfl
  refine (roles_found_iff id _ _ (blank_shown 0) _).mpr ⟨List.cons_ne_nil _ _, ?_⟩
  intro roles _ run
  cases first.symm.trans run
  refine ⟨List.cons_ne_nil _ _, ?_⟩
  intro roles _ run
  cases second.symm.trans run
  exact ⟨List.cons_ne_nil _ _, fun _ _ _ => trivial⟩

theorem empty_shown : RolesShown id [] (fun (_ _ : Nat) => none) := by
  have sound : Sound id ([] : RoleTable Nat Nat) := ⟨⟨[], roles_blank 0⟩, List.nodup_nil, Or.inl rfl⟩
  exact sound.shown fun s d n => ⟨fun there => (nomatch there), fun none => (nomatch none)⟩

/-- The first role of an object without any, and the removal of a definition under one of its
two selectors. -/
theorem roles_not_found :
    (RolesShown id [] (fun (_ _ : Nat) => none) ∧ ¬ Follows (roleImplementation id) (RolesShown id)
      [] (fun (_ _ : Nat) => none) [.addRoleAt 3 1 7]) ∧
    RolesShown id [none] (fun (_ _ : Nat) => none) ∧ ¬ Follows (roleImplementation id)
      (RolesShown id) [none] (fun (_ _ : Nat) => none)
      [.addRoleAt 3 1 7, .addRoleAt 4 1 7, .removeRole 3 7] := by
  have first : (roleImplementation id).perform [none] (.addRoleAt 3 1 7) =
      some ([some ⟨3, 1, 7, none⟩], ()) := rfl
  have second : (roleImplementation id).perform [some ⟨3, 1, 7, none⟩] (.addRoleAt 4 1 7) =
      some ([some ⟨4, 1, 7, none⟩, some ⟨3, 1, 7, none⟩], ()) := rfl
  refine ⟨⟨empty_shown, ?_⟩, blank_shown 0, ?_⟩
  · rintro ⟨roles, a, run, right, shown, -⟩
    exact (role_step_iff id _ _ _ empty_shown).mp ⟨roles, a, run, right, shown⟩ rfl
  · rintro ⟨one, _, run, -, -, two, _, run', -, shown, three, a, run'', right, last, -⟩
    have fits := (role_step_iff id _ _ _ shown).mp ⟨three, a, run'', right, last⟩
    cases first.symm.trans run
    cases second.symm.trans run'
    exact absurd (fits ⟨4, 1, 7, none⟩ (by decide) rfl) (by decide)

end Samples

end SlateVm.Maps
