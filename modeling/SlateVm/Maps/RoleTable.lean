import SlateVm.Maps.Tables

/-! The role table of a map: its entries of one name are linked to a list through the indices
of the table, in the order in which they were put in. -/
namespace SlateVm.Maps
open Slots Probing

structure RoleEntry (Symbol Method : Type) where
  name : Symbol
  rolePositions : Nat
  methodDefinition : Method
  nextRole : Option Nat
  deriving DecidableEq, Repr

abbrev RoleTable (Symbol Method : Type) := List (Option (RoleEntry Symbol Method))

section Operations

variable {Symbol Method : Type} [DecidableEq Symbol] [DecidableEq Method] (idHash : Symbol → Nat)

def nextRole (roles : RoleTable Symbol Method) (i : Nat) : Option Nat :=
  (stored roles i).bind RoleEntry.nextRole

def setNextRole (roles : RoleTable Symbol Method) (i next : Nat) : RoleTable Symbol Method :=
  roles.modify i (Option.map fun role => { role with nextRole := some next })

def roleTableInsert (roles : RoleTable Symbol Method) (name : Symbol) :
    Option (RoleTable Symbol Method × Nat) := do
  let role ← entryForInsertingName idHash roles name
  match entryForName idHash RoleEntry.name roles name with
  | none => some (roles, role)
  | some chain => do
    let last ← follow (nextRole roles) roles.length chain
    some (setNextRole roles last role, role)

def roleTableAdd (roles : RoleTable Symbol Method) (role : RoleEntry Symbol Method) :
    Option (RoleTable Symbol Method) := do
  let (roles, i) ← roleTableInsert idHash roles role.name
  some (roles.set i (some { role with nextRole := none }))

def roleTableGrowExcluding (roles : RoleTable Symbol Method) (n : Int) (method : Option Method) :
    Option (RoleTable Symbol Method) :=
  growExcluding (roleTableAdd idHash) (fun role => decide (some role.methodDefinition ≠ method))
    roles n

def roleOfMethod (roles : RoleTable Symbol Method) (method : Method) :
    Nat → Option Nat → Option (Option Nat)
  | _, none => some none
  | 0, some _ => none
  | fuel + 1, some i =>
    match stored roles i with
    | none => some none
    | some role =>
      if role.methodDefinition = method then some (some i)
      else roleOfMethod roles method fuel role.nextRole

def addPositions (roles : RoleTable Symbol Method) (i position : Nat) : RoleTable Symbol Method :=
  roles.modify i (Option.map fun role =>
    { role with rolePositions := role.rolePositions ||| position })

/-- The object's role table afterwards. A definition that the old table has under the selector is
found in the new table as well. -/
def objectAddRoleAt (roles : RoleTable Symbol Method) (selector : Symbol) (position : Nat)
    (method : Method) : Option (RoleTable Symbol Method) := do
  match ← roleOfMethod roles method (roles.length + 1)
      (entryForName idHash RoleEntry.name roles selector) with
  | some _ => do
    let grown ← roleTableGrowExcluding idHash roles 0 none
    let found ← roleOfMethod grown method (grown.length + 1)
      (entryForName idHash RoleEntry.name grown selector)
    let entry ← found
    some (addPositions grown entry position)
  | none => do
    let grown ← roleTableGrowExcluding idHash roles 1 none
    roleTableAdd idHash grown ⟨selector, position, method, none⟩

def objectRemoveRole (roles : RoleTable Symbol Method) (_selector : Symbol) (method : Method) :
    Option (RoleTable Symbol Method) :=
  let hits := roles.reduceOption.countP fun role => decide (role.methodDefinition = method)
  if hits = 0 then some roles else roleTableGrowExcluding idHash roles hits (some method)

end Operations

section Chains

variable {Symbol Method : Type} {roles : RoleTable Symbol Method}

def RoleEntry.bare (role : RoleEntry Symbol Method) : RoleEntry Symbol Method :=
  { role with nextRole := none }

def bareTable (roles : RoleTable Symbol Method) : RoleTable Symbol Method :=
  roles.map (Option.map RoleEntry.bare)

@[simp] theorem length_bareTable : (bareTable roles).length = roles.length := List.length_map ..

theorem stored_bareTable (i : Nat) :
    stored (bareTable roles) i = (stored roles i).map RoleEntry.bare := stored_map ..

theorem bareTable_set (i : Nat) (role : RoleEntry Symbol Method) :
    bareTable (roles.set i (some role)) = (bareTable roles).set i (some role.bare) := List.map_set

theorem reduceOption_bareTable :
    (bareTable roles).reduceOption = roles.reduceOption.map RoleEntry.bare := List.reduceOption_map

theorem stored_modify (f : RoleEntry Symbol Method → RoleEntry Symbol Method) (i j : Nat) :
    stored (roles.modify i (Option.map f)) j =
      if j = i then (stored roles j).map f else stored roles j := by
  rw [stored, List.getElem?_modify, stored]
  rcases Decidable.em (j = i) with rfl | off
  · rw [if_pos rfl]
    cases roles[j]? <;> simp
  · rw [if_neg off]
    cases roles[j]? <;> simp [Ne.symm off]

theorem bareTable_setNextRole (i n : Nat) : bareTable (setNextRole roles i n) = bareTable roles := by
  apply List.ext_getElem?
  intro j
  rw [bareTable, setNextRole, List.getElem?_map, List.getElem?_modify, bareTable, List.getElem?_map]
  split
  · rw [Option.map_eq_map, Option.map_map]
    congr 1
    funext role
    cases role <;> rfl
  · rw [Option.map_eq_map, Option.map_id_fun', id]

theorem nextRole_set {i : Nat} (inside : i < roles.length) (role : RoleEntry Symbol Method) (j : Nat) :
    nextRole (roles.set i (some role)) j = if j = i then role.nextRole else nextRole roles j := by
  rw [nextRole, stored_set inside]
  split <;> rfl

theorem nextRole_setNextRole {i n : Nat} (filled : (stored roles i).isSome) (j : Nat) :
    nextRole (setNextRole roles i n) j = if j = i then some n else nextRole roles j := by
  rw [nextRole, setNextRole, stored_modify]
  split
  · rename_i same
    subst same
    obtain ⟨role, here⟩ := Option.isSome_iff_exists.mp filled
    rw [here]
    rfl
  · rfl

def chainOf [DecidableEq Symbol] (placed : List (Nat × RoleEntry Symbol Method)) (s : Symbol) :
    List Nat :=
  (placed.filter fun x => decide (x.2.name = s)).map Prod.fst

/-- The roles without their links, in the order they came, and the links that follow it. -/
structure Roles [DecidableEq Symbol] (idHash : Symbol → Nat) (roles : RoleTable Symbol Method)
    (placed : List (Nat × RoleEntry Symbol Method)) : Prop where
  layout : Layout idHash RoleEntry.name (bareTable roles) placed
  linked : ∀ s, Linked (nextRole roles) (chainOf placed s)

variable [DecidableEq Symbol] {idHash : Symbol → Nat}
  {placed : List (Nat × RoleEntry Symbol Method)}

theorem Roles.first (table : Roles idHash roles placed) (s : Symbol) :
    entryForName idHash RoleEntry.name roles s = (chainOf placed s).head? := by
  have named : ∀ role : RoleEntry Symbol Method, role.bare.name = role.name := fun _ => rfl
  have bare := table.layout.entryForName s
  rwa [bareTable, entryForName_map named, ← List.head?_map] at bare

theorem Roles.filled (table : Roles idHash roles placed) {p : Nat} {s : Symbol}
    (member : p ∈ chainOf placed s) : ∃ role, stored roles p = some role ∧ role.name = s ∧
      (p, role.bare) ∈ placed := by
  obtain ⟨⟨q, bare⟩, chosen, rfl⟩ := List.mem_map.mp member
  obtain ⟨there, named⟩ := List.mem_filter.mp chosen
  have here := (table.layout.slots q bare).mpr there
  rw [stored_bareTable, Option.map_eq_some_iff] at here
  obtain ⟨role, here, rfl⟩ := here
  exact ⟨role, here, of_decide_eq_true named, there⟩

theorem Roles.chainOf_nodup (table : Roles idHash roles placed) (s : Symbol) :
    (chainOf placed s).Nodup :=
  table.layout.nodup.sublist (List.filter_sublist.map Prod.fst)

theorem roles_blank (n : Nat) : @Roles Symbol Method _ idHash (List.replicate n none) [] := by
  constructor
  · rw [bareTable, List.map_replicate]
    exact layout_blank n
  · exact fun _ => trivial

theorem chainOf_snoc (q : Nat) (role : RoleEntry Symbol Method) (s : Symbol) :
    chainOf (placed ++ [(q, role)]) s =
      if role.name = s then chainOf placed s ++ [q] else chainOf placed s := by
  rw [chainOf, List.filter_append]
  split
  · rename_i same
    rw [List.filter_cons_of_pos (by simpa using same), List.map_append]
    rfl
  · rename_i other
    rw [List.filter_cons_of_neg (by simpa using other), List.filter_nil, List.append_nil]
    rfl

theorem Roles.add (table : Roles idHash roles placed) (room : placed.length < roles.length)
    (role : RoleEntry Symbol Method) : ∃ roles' q, roleTableAdd idHash roles role = some roles' ∧
      roles'.length = roles.length ∧ Roles idHash roles' (placed ++ [(q, role.bare)]) := by
  obtain ⟨q, free, inside, hole, after⟩ :=
    table.layout.insert (by rwa [length_bareTable]) role.bare
  rw [length_bareTable] at inside
  rw [stored_bareTable, Option.map_eq_none_iff] at hole
  replace free : entryForInsertingName idHash roles role.name = some q := by
    rwa [bareTable, entryForInsertingName_map] at free
  have unlinked : ∀ s, q ∉ chainOf placed s := by
    intro s member
    obtain ⟨taken, here, -⟩ := table.filled member
    rw [hole] at here
    cases here
  have first := table.first role.name
  rcases List.eq_nil_or_concat (chainOf placed role.name) with none | ⟨ps, l, chain⟩
  · rw [none, List.head?_nil] at first
    refine ⟨roles.set q (some role.bare), q, ?_, List.length_set, ?_, fun s => ?_⟩
    · simp only [roleTableAdd, roleTableInsert, free, first, Option.bind_eq_bind, Option.bind_some]
      rfl
    · rw [bareTable_set]
      exact after
    · have away : ∀ p ∈ chainOf placed s,
          nextRole (roles.set q (some role.bare)) p = nextRole roles p := by
        intro p member
        rw [nextRole_set inside, if_neg (ne_of_mem_of_not_mem member (unlinked s))]
      rw [chainOf_snoc]
      split
      · rename_i same
        rw [← show role.name = s from same, none]
        exact (nextRole_set inside role.bare q).trans (if_pos rfl)
      · exact (table.linked s).congr away
  · rw [List.concat_eq_append] at chain
    have lastIn : l ∈ chainOf placed role.name := by
      rw [chain]
      exact List.mem_append_right _ (List.mem_singleton_self l)
    obtain ⟨last, there, named, -⟩ := table.filled lastIn
    have filled : (stored roles l).isSome := by rw [there]; rfl
    have apart : l ≠ q := fun same => unlinked _ (same ▸ lastIn)
    have linked := table.linked role.name
    rw [chain] at first linked
    obtain ⟨p, starts⟩ : ∃ p, (ps ++ [l]).head? = some p := by
      cases ps with
      | nil => exact ⟨l, rfl⟩
      | cons p ps => exact ⟨p, rfl⟩
    rw [starts] at first
    have short : ps.length < roles.length := by
      have parts : (chainOf placed role.name).length ≤ placed.length := by
        rw [chainOf, List.length_map]
        exact List.length_filter_le ..
      rw [chain, List.length_append, List.length_singleton] at parts
      omega
    have reached := linked.follow roles.length short starts
    have next : ∀ j, nextRole ((setNextRole roles l q).set q (some role.bare)) j =
        if j = q then Option.none else if j = l then some q else nextRole roles j := by
      intro j
      rw [nextRole_set (by rwa [setNextRole, List.length_modify]), nextRole_setNextRole filled]
      rfl
    refine ⟨(setNextRole roles l q).set q (some role.bare), q, ?_, ?_, ?_, fun s => ?_⟩
    · simp only [roleTableAdd, roleTableInsert, free, first, reached, Option.bind_eq_bind,
        Option.bind_some]
      rfl
    · rw [List.length_set, setNextRole, List.length_modify]
    · rw [bareTable_set, bareTable_setNextRole]
      exact after
    · rw [chainOf_snoc]
      split
      · rename_i same
        rw [← show role.name = s from same, chain, List.append_assoc]
        refine linked.snoc ?_ ?_ fun p member => ?_
        · rw [next, if_neg apart, if_pos rfl]
        · rw [next, if_pos rfl]
        · have there : p ∈ chainOf placed role.name := chain ▸ List.mem_append_left _ member
          have once := table.chainOf_nodup role.name
          rw [chain] at once
          have other : p ≠ l :=
            ne_of_mem_of_not_mem member (List.disjoint_singleton.mp (List.nodup_append'.mp once).2.2)
          rw [next, if_neg (ne_of_mem_of_not_mem there (unlinked _)), if_neg other]
      · rename_i other
        refine (table.linked s).congr fun p member => ?_
        have away : p ≠ l := by
          rintro rfl
          obtain ⟨role', here, called, -⟩ := table.filled member
          cases here.symm.trans there
          exact other (named.symm.trans called)
        rw [next, if_neg (ne_of_mem_of_not_mem member (unlinked s)), if_neg away]

end Chains

end SlateVm.Maps
