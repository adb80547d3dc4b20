import SlateVm.Bootstrap.RoleTables
import SlateVm.Interp.Methods
import Mathlib.Data.List.Find

/-! The lookups of the machine in the tables of a generated image. -/
namespace SlateVm.Bootstrap
open Probing

section Loading

/-- The word of a reference in a memory where the chunks stand at `oop`. -/
def encode (gen : Generator) (oop : Nat → Nat) : Value → Nat
  | .nil => oop (gen.objects .nilObject)
  | .small i => ((2 * i + 1) % 2 ^ 64).toNat
  | .chunk c => oop c

/-- The chunks of a generator stand in a memory, as far as tables and names need it. -/
structure Loaded (h : Heap) (gen : Generator) (oop : Nat → Nat) : Prop where
  apart : ∀ b c, b < gen.chunks.length → c < gen.chunks.length → oop b = oop c → b = c
  aligned : oop (gen.objects .nilObject) % 2 = 0
  nil : h.cached.nil = oop (gen.objects .nilObject)
  hash : ∀ (c : Nat) (chunk : Chunk), gen.chunks[c]? = some chunk → (h.mem (oop c)).hash = chunk.idHash
  array : ∀ obj elements, IsArray gen obj elements → arraySize h (oop obj) = elements.length ∧
    ∀ (j : Nat) (value : Value), elements[j]? = some value →
      field h (oop obj) (element j) = encode gen oop value

variable {h : Heap} {gen : Generator} {oop : Nat → Nat}

theorem Loaded.short (loaded : Loaded h gen oop) {obj : Nat} {elements : List Value}
    (array : IsArray gen obj elements) : elements.length < 2 ^ 61 := by
  rw [← (loaded.array obj elements array).1, arraySize, objectArraySize, sizeofWord]
  omega

theorem encode_nat {n : Nat} (small : n < 2 ^ 62) : encode gen oop (.small (n : Nat)) = 2 * n + 1 := by
  change ((2 * (n : Int) + 1) % 2 ^ 64).toNat = _
  omega

end Loading

section Entries

variable {h : Heap} {gen : Generator} {oop : Nat → Nat} {α : Type} {stride capacity obj : Nat}
  {elements : List Value} {slot : Nat → Option α} {selector : α → Nat}
  {placed : List (Nat × α)}

theorem tableEntryForName_head (loaded : Loaded h gen oop) (array : IsArray gen obj elements)
    (keyed : Keyed stride capacity elements slot selector) (positive : 0 < stride)
    (room : 0 < capacity)
    (table : Placed capacity (fun a => home gen capacity (selector a)) slot placed)
    (named : ∀ p a, (p, a) ∈ placed →
      selector a < gen.chunks.length ∧ selector a ≠ gen.objects .nilObject)
    {name : Nat} (symbol : name ≠ h.cached.nil) :
    tableEntryForName h (oop obj) name stride =
      ((placed.filter fun x => oop (selector x.2) == name).head?).map Prod.fst := by
  obtain ⟨size, words⟩ := loaded.array obj elements array
  have capacity_eq : tableCapacity h (oop obj) stride = capacity := by
    rw [tableCapacity, size, keyed.length, Nat.mul_div_cancel _ positive]
  have start_lt : (h.mem name).hash &&& capacity - 1 < capacity := by
    have mask : (h.mem name).hash &&& capacity - 1 ≤ capacity - 1 := Nat.and_le_right
    omega
  let test : α → Bool := fun a => oop (selector a) == name
  have read : ∀ i < capacity, field h (oop obj) (element (stride * i)) =
      encode gen oop ((slot i).elim .nil fun a => .chunk (selector a)) := by
    intro i hi
    rw [Nat.mul_comm]
    exact words _ _ (keyed.key i hi)
  have matches_ : ∀ i < capacity,
      (field h (oop obj) (element (stride * i)) == name) = (slot i).any test := by
    intro i hi
    rw [read i hi]
    cases here : slot i with
    | none =>
      rw [Option.elim_none, encode, ← loaded.nil]
      exact beq_false_of_ne symbol.symm
    | some a => rfl
  have empties : ∀ i < capacity,
      (field h (oop obj) (element (stride * i)) == h.cached.nil) = (slot i).isNone := by
    intro i hi
    rw [read i hi, loaded.nil]
    cases here : slot i with
    | none => exact beq_self_eq_true _
    | some a =>
      obtain ⟨within, off⟩ := named i a ((table.slots i a).mp here)
      exact beq_false_of_ne fun same => off (loaded.apart _ _ within (gen.named .nilObject) same)
  have members : ∀ i ∈ Probing.probes capacity ((h.mem name).hash &&& capacity - 1), i < capacity := by
    intro i member
    simp only [Probing.probes, List.mem_append, List.mem_range'_1, List.mem_range] at member
    omega
  have members' : ∀ i, Probing.search capacity slot test ((h.mem name).hash &&& capacity - 1) =
      some i → i < capacity := fun i found => members i (List.mem_of_find?_eq_some found)
  have homed : ∀ p a, (p, a) ∈ placed → test a = true →
      home gen capacity (selector a) = (h.mem name).hash &&& capacity - 1 := by
    intro p a member same
    have within := (named p a member).1
    have chunk_hash := loaded.hash (selector a) _ (List.getElem?_eq_getElem within)
    rw [beq_iff_eq.mp same] at chunk_hash
    rw [home_eq (Option.map_eq_some_iff.mpr ⟨_, List.getElem?_eq_getElem within, rfl⟩), chunk_hash]
  have searched : (probes h (oop obj) name stride).find? (fun index =>
      field h (oop obj) (element (stride * index)) == name ||
        field h (oop obj) (element (stride * index)) == h.cached.nil) =
      search capacity slot test ((h.mem name).hash &&& capacity - 1) := by
    simp only [probes, capacity_eq]
    apply List.find?_congr
    intro i member
    have within := members i member
    rw [matches_ i within, empties i within]
    cases slot i <;> simp [test]
  rw [tableEntryForName, searched, ← table.search (Nat.le_of_lt start_lt) homed]
  cases found : search capacity slot test ((h.mem name).hash &&& capacity - 1) with
  | none => rfl
  | some i => simp only [Option.filter_some, matches_ i (members' i found), test]

end Entries

section Readable

variable (h : Heap) (gen : Generator) (oop : Nat → Nat)

def NamedAt (name : Symbol) (a : Nat) : Prop := (gen.symbols.lookup name).map oop = some a

instance (name : Symbol) (a : Nat) : Decidable (NamedAt gen oop name a) :=
  inferInstanceAs (Decidable (_ = _))

/-- A slot table gives each name its offset, and no other one an entry. -/
structure SlotsReadable (table : Nat) (slots : List SlotEntry) : Prop where
  found : ∀ se ∈ slots, ∃ name, NamedAt gen oop se.name name ∧
    ∃ index, tableEntryForName h table name slotEntryWordSize = some index ∧
      field h table (SlateVm.SlotEntry.offset index) = encode gen oop (.small se.offset)
  missing : ∀ name, name ≠ h.cached.nil → (∀ se ∈ slots, ¬ NamedAt gen oop se.name name) →
    tableEntryForName h table name slotEntryWordSize = none

/-- The entry at an index of a role table is that of a role. -/
structure RoleAt (table index : Nat) (re : RoleEntry) : Prop where
  positions : field h table (SlateVm.RoleEntry.rolePositions index) =
    encode gen oop (.small re.rolePositions)
  definition : (gen.translations.lookup (.definition re.methodDefinition)).map oop =
    some (field h table (SlateVm.RoleEntry.methodDefinition index))

/-- The chain of a name has its roles one after another, each at an entry of its own, and ends
with Nil. -/
structure RolesReadable (table : Nat) (roles : List RoleEntry) : Prop where
  roles : ∀ name, name ≠ h.cached.nil → List.Forall₂ (RoleAt h gen oop table)
    (rolesNamed h table name) (roles.filter fun re => decide (NamedAt gen oop re.name name))
  once : ∀ name, name ≠ h.cached.nil → (rolesNamed h table name).Nodup
  ends : ∀ name, name ≠ h.cached.nil → ∀ last ∈ (rolesNamed h table name).getLast?,
    field h table (SlateVm.RoleEntry.nextRole last) = h.cached.nil

variable {h gen oop} {capacity obj : Nat} {elements : List Value}

theorem namedAt_iff {name : Symbol} {c : Nat} (named : gen.symbols.lookup name = some c) (a : Nat) :
    NamedAt gen oop name a ↔ oop c = a := by
  rw [NamedAt, named, Option.map_some, Option.some.injEq]

theorem symbol_not_nil (loaded : Loaded h gen oop) {name : Symbol} {c : Nat}
    (named : gen.symbols.lookup name = some c) : oop c ≠ h.cached.nil := by
  rw [loaded.nil]
  intro same
  have within := gen.interned.within name c named
  exact gen.interned.other name c named (loaded.apart _ _ within (gen.named .nilObject) same)

theorem selectors_nodup {placed : List (Nat × SlotRecord)} {done : List SlotEntry}
    (entries : List.Forall₂ (fun (x : Nat × SlotRecord) (se : SlotEntry) =>
      gen.symbols.lookup se.name = some x.2.selector ∧ x.2.offset = se.offset) placed done)
    (distinct : (done.map SlotEntry.name).Nodup) :
    (placed.map fun x => x.2.selector).Nodup := by
  induction entries with
  | nil => exact .nil
  | cons here rest ih =>
    rw [List.map_cons, List.nodup_cons] at distinct ⊢
    refine ⟨fun member => ?_, ih distinct.2⟩
    obtain ⟨x, later, same⟩ := List.mem_map.mp member
    obtain ⟨se, there, named, -⟩ := forall₂_left rest later
    rw [same] at named
    rw [gen.interned.apart _ _ _ here.1 named] at distinct
    exact distinct.1 (List.mem_map_of_mem there)

theorem slots_readable (loaded : Loaded h gen oop) (array : IsArray gen obj elements)
    (room : 0 < capacity) {slot : Nat → Option SlotRecord} {placed : List (Nat × SlotRecord)}
    {done : List SlotEntry} (layout : SlotLayout gen capacity elements slot placed done)
    (distinct : (done.map SlotEntry.name).Nodup) :
    SlotsReadable h gen oop (oop obj) done := by
  have named : ∀ p a, (p, a) ∈ placed →
      a.selector < gen.chunks.length ∧ a.selector ≠ gen.objects .nilObject := by
    intro p a member
    obtain ⟨se, -, here, -⟩ := forall₂_left layout.entries member
    exact ⟨gen.interned.within _ _ here, gen.interned.other _ _ here⟩
  have head := fun name => @tableEntryForName_head _ _ _ _ _ _ _ _ _ SlotRecord.selector _ loaded
    array layout.keyed (by decide) room layout.table named name
  constructor
  · intro se member
    obtain ⟨⟨p, r⟩, placed_at, here, offset⟩ := forall₂_right layout.entries member
    refine ⟨oop r.selector, (namedAt_iff here _).mpr rfl, p, ?_, ?_⟩
    · rw [slotEntryWordSize, head _ (symbol_not_nil loaded here)]
      have found : (p, r) ∈ placed.filter fun x => oop x.2.selector == oop r.selector := by
        simp [placed_at]
      cases first : placed.filter fun x => oop x.2.selector == oop r.selector with
      | nil =>
        rw [first] at found
        cases found
      | cons x rest =>
        obtain ⟨old, same⟩ := List.mem_filter.mp (first ▸ List.mem_cons_self)
        have selector := loaded.apart _ _ (named x.1 x.2 old).1 (named p r placed_at).1
          (beq_iff_eq.mp same)
        have equal := List.inj_on_of_nodup_map (selectors_nodup layout.entries distinct) old placed_at
          selector
        rw [List.head?_cons, Option.map_some, equal]
    · have inside := layout.table.inside p r placed_at
      have word := layout.offset p inside r ((layout.table.slots p r).mpr placed_at)
      rw [SlateVm.SlotEntry.offset, Nat.mul_comm, (loaded.array obj elements array).2 _ _ word, ← offset]
  · intro name symbol absent
    rw [slotEntryWordSize, head name symbol, Option.map_eq_none_iff, List.head?_eq_none_iff,
      List.filter_eq_nil_iff]
    intro x member same
    obtain ⟨se, there, here, -⟩ := forall₂_left layout.entries member
    exact absent se there ((namedAt_iff here name).mpr (beq_iff_eq.mp same))

section Roles

variable {slot : Nat → Option RoleRecord} {next : Nat → Option Nat}
  {placed : List (Nat × RoleRecord)} {done : List RoleEntry}

theorem nextRole_eq (loaded : Loaded h gen oop) (array : IsArray gen obj elements)
    (layout : RoleLayout gen capacity elements slot next placed done) {i : Nat} (hi : i < capacity) :
    field h (oop obj) (SlateVm.RoleEntry.nextRole i) =
      (next i).elim h.cached.nil fun q => 2 * q + 1 := by
  have word := (loaded.array obj elements array).2 _ _ (layout.links i hi)
  have short := loaded.short array
  rw [layout.keyed.length] at short
  rw [SlateVm.RoleEntry.nextRole, Nat.mul_comm, word]
  cases here : next i with
  | none => exact loaded.nil.symm
  | some q =>
    have bound := layout.bounded i q here
    exact encode_nat (by omega)

theorem roleChain_trail (loaded : Loaded h gen oop) (array : IsArray gen obj elements)
    (layout : RoleLayout gen capacity elements slot next placed done) (fuel i : Nat)
    (hi : i < capacity) : roleChain h (oop obj) fuel i = trail next fuel i := by
  induction fuel generalizing i with
  | zero => rfl
  | succ fuel ih =>
    have link := nextRole_eq loaded array layout hi
    rw [roleChain, trail]
    cases here : next i with
    | none =>
      rw [here, Option.elim_none] at link
      rw [if_pos link]
    | some q =>
      rw [here, Option.elim_some] at link
      have aligned := loaded.aligned
      have apart : 2 * q + 1 ≠ h.cached.nil := by
        rw [loaded.nil]
        omega
      have back : objectToSmallint (2 * q + 1) = q := by
        rw [objectToSmallint]
        omega
      simp only [link, if_neg apart, back]
      rw [ih q (layout.bounded i q here)]

theorem rolesNamed_eq (loaded : Loaded h gen oop) (array : IsArray gen obj elements)
    (room : 0 < capacity) (layout : RoleLayout gen capacity elements slot next placed done)
    {name : Nat} (symbol : name ≠ h.cached.nil) :
    rolesNamed h (oop obj) name =
        (placed.filter fun x => oop x.2.selector == name).map Prod.fst ∧
      Linked next (rolesNamed h (oop obj) name) := by
  have named : ∀ p a, (p, a) ∈ placed →
      a.selector < gen.chunks.length ∧ a.selector ≠ gen.objects .nilObject := by
    intro p a member
    obtain ⟨re, -, here, -⟩ := forall₂_left layout.entries member
    exact ⟨gen.interned.within _ _ here, gen.interned.other _ _ here⟩
  have head := @tableEntryForName_head _ _ _ _ _ _ _ _ _ RoleRecord.selector _ loaded
    array layout.keyed (by decide) room layout.table named name symbol
  unfold rolesNamed
  rw [roleEntryWordSize, head]
  cases first : placed.filter fun x => oop x.2.selector == name with
  | nil => exact ⟨rfl, trivial⟩
  | cons x rest =>
    obtain ⟨p, r⟩ := x
    obtain ⟨member, same⟩ := List.mem_filter.mp (first ▸ List.mem_cons_self)
    have at_ : oop r.selector = name := beq_iff_eq.mp same
    have chain_eq : chain placed r.selector = p :: rest.map Prod.fst := by
      rw [chain, ← List.map_cons (f := Prod.fst) (a := (p, r)), ← first]
      congr 1
      apply List.filter_congr
      rintro ⟨q, b⟩ there
      rw [← at_, Bool.eq_iff_iff, beq_iff_eq, beq_iff_eq]
      constructor
      · exact congrArg oop
      · exact loaded.apart _ _ (named q b there).1 (named p r member).1
    have linked := layout.linked r.selector
    rw [chain_eq] at linked
    have size : tableCapacity h (oop obj) 4 = capacity := by
      rw [tableCapacity, (loaded.array obj elements array).1, layout.keyed.length,
        Nat.mul_div_cancel _ (by decide)]
    have few : (rest.map Prod.fst).length < capacity := by
      have all := (layout.chain_nodup r.selector).subperm
        (fun i there => List.mem_range.mpr ?_ : chain placed r.selector ⊆ List.range capacity)
      · have short := all.length_le
        rw [chain_eq, List.length_cons, List.length_range] at short
        omega
      · obtain ⟨b, here, -⟩ := RoleLayout.mem_chain.mp there
        exact layout.table.inside i b here
    have run : roleChain h (oop obj) capacity p = p :: rest.map Prod.fst := by
      rw [roleChain_trail loaded array layout _ _ (layout.table.inside p r member)]
      exact linked.trail capacity few
    simp only [List.head?_cons, Option.map_some, size, run]
    exact ⟨rfl, linked⟩

theorem roles_readable (loaded : Loaded h gen oop) (array : IsArray gen obj elements)
    (room : 0 < capacity) (layout : RoleLayout gen capacity elements slot next placed done) :
    RolesReadable h gen oop (oop obj) done := by
  constructor
  · intro name symbol
    rw [(rolesNamed_eq loaded array room layout symbol).1, List.forall₂_map_left_iff]
    have entries := (List.forall₂_and_left (p := fun x => x ∈ placed) _ _).mpr
      ⟨fun x member => member, layout.entries⟩
    have filtered := List.rel_filter (p := fun x : Nat × RoleRecord => oop x.2.selector == name)
      (q := fun re => decide (NamedAt gen oop re.name name)) (fun x re related => by
        change (oop x.2.selector == name) = true ↔ decide (NamedAt gen oop re.name name) = true
        rw [beq_iff_eq, decide_eq_true_eq, namedAt_iff related.2.1]) entries
    apply filtered.imp
    rintro ⟨p, r⟩ re ⟨member, named, positions, defined⟩
    have hp := layout.table.inside p r member
    obtain ⟨word_1, word_2⟩ := layout.words p hp r ((layout.table.slots p r).mpr member)
    have words := (loaded.array obj elements array).2
    constructor
    · rw [SlateVm.RoleEntry.rolePositions, Nat.mul_comm, words _ _ word_1, positions]
    · rw [SlateVm.RoleEntry.methodDefinition, Nat.mul_comm, words _ _ word_2, defined]
      rfl
  · intro name symbol
    rw [(rolesNamed_eq loaded array room layout symbol).1]
    exact layout.table.nodup.sublist (List.filter_sublist.map _)
  · intro name symbol last here
    obtain ⟨eq, linked⟩ := rolesNamed_eq loaded array room layout symbol
    have member := List.mem_of_getLast? here
    rw [eq] at member
    obtain ⟨⟨p, r⟩, there, rfl⟩ := List.mem_map.mp member
    have hp := layout.table.inside p r (List.mem_filter.mp there).1
    rw [nextRole_eq loaded array layout hp, linked.last here]
    rfl

end Roles

end Readable

section Built

/-- What is added to the map of an object: a slot, or a method that has the object at some
positions of its roles. -/
inductive Addition where
  | slot (name : Symbol) (offset : Int)
  | method (name : Symbol) (definition : Nat) (positions : List Nat)

namespace Addition

def apply (map : Map) : Addition → Map
  | slot name offset => map.addSlotNamed name offset
  | method name definition positions => map.addMethodNamed name definition positions

def slotsOf (additions : List Addition) : List SlotEntry :=
  additions.filterMap fun
    | slot name offset => some ⟨name, offset⟩
    | method .. => none

def rolesOf (additions : List Addition) : List RoleEntry :=
  additions.filterMap fun
    | slot .. => none
    | method _ _ [] => none
    | method name definition positions =>
      some ⟨name, positions.foldl (fun bits position => bits ||| 1 <<< position) 0, definition⟩

/-- Each method has a definition of its own, which `addMethodNamed:on:` makes for it. -/
def definitionsOf (additions : List Addition) : List Nat :=
  additions.filterMap fun
    | slot .. => none
    | method _ definition _ => some definition

end Addition

open Addition

variable {name : Symbol} {definition : Nat}

theorem addRole_new (position : Nat) (roles : List RoleEntry)
    (fresh : definition ∉ roles.map RoleEntry.methodDefinition) :
    Map.addRole name position definition roles = roles ++ [⟨name, 1 <<< position, definition⟩] := by
  induction roles with
  | nil => rfl
  | cons role rest ih =>
    rw [List.map_cons, List.mem_cons, not_or] at fresh
    rw [Map.addRole, if_neg (Ne.symm fresh.1), ih fresh.2]
    rfl

theorem addRole_last (position bits : Nat) (roles : List RoleEntry)
    (fresh : definition ∉ roles.map RoleEntry.methodDefinition) :
    Map.addRole name position definition (roles ++ [⟨name, bits, definition⟩]) =
      roles ++ [⟨name, bits ||| 1 <<< position, definition⟩] := by
  induction roles with
  | nil => exact if_pos rfl
  | cons role rest ih =>
    rw [List.map_cons, List.mem_cons, not_or] at fresh
    rw [List.cons_append, Map.addRole, if_neg (Ne.symm fresh.1), ih fresh.2]
    rfl

theorem addMethodNamed_more (map : Map) (positions : List Nat) (bits : Nat)
    (roles : List RoleEntry) (shape : map.roleTable = roles ++ [⟨name, bits, definition⟩])
    (fresh : definition ∉ roles.map RoleEntry.methodDefinition) :
    map.addMethodNamed name definition positions = { map with
      roleTable := roles ++
        [⟨name, positions.foldl (fun bits position => bits ||| 1 <<< position) bits, definition⟩] } := by
  induction positions generalizing map bits with
  | nil =>
    rw [List.foldl_nil, ← shape]
    rfl
  | cons position positions ih =>
    have next : (map.addRoleNamed name position definition).roleTable =
        roles ++ [⟨name, bits ||| 1 <<< position, definition⟩] := by
      rw [Map.addRoleNamed, shape]
      exact addRole_last position bits roles fresh
    exact ih _ _ next

theorem build_roles (additions : List Addition) (map : Map)
    (fresh : (map.roleTable.map RoleEntry.methodDefinition ++ definitionsOf additions).Nodup) :
    (additions.foldl apply map).roleTable = map.roleTable ++ rolesOf additions := by
  induction additions generalizing map with
  | nil => exact (List.append_nil _).symm
  | cons addition additions ih =>
    cases addition with
    | slot name offset => exact ih (apply map (.slot name offset)) fresh
    | method name definition positions =>
      have split := List.nodup_append.mp fresh
      have new : definition ∉ map.roleTable.map RoleEntry.methodDefinition := by
        intro old
        exact split.2.2 definition old definition List.mem_cons_self rfl
      cases positions with
      | nil => exact ih map (fresh.sublist (List.Sublist.append_left (List.sublist_cons_self ..) _))
      | cons position positions =>
        have first : (map.addRoleNamed name position definition).roleTable =
            map.roleTable ++ [⟨name, 1 <<< position, definition⟩] := addRole_new position _ new
        have whole := addMethodNamed_more _ positions _ _ first new
        have step : apply map (.method name definition (position :: positions)) = _ := whole
        rw [List.foldl_cons, step, ih]
        · rw [List.append_assoc]
          change _ = map.roleTable ++ (⟨name, (position :: positions).foldl _ 0, definition⟩ ::
            rolesOf additions)
          rw [List.foldl_cons, Nat.zero_or]
          rfl
        · rw [List.map_append, List.append_assoc]
          exact fresh

theorem addMethodNamed_slots (map : Map) (positions : List Nat) :
    (map.addMethodNamed name definition positions).slotTable = map.slotTable := by
  induction positions generalizing map with
  | nil => rfl
  | cons position positions ih => exact ih (map.addRoleNamed name position definition)

theorem build_slots (additions : List Addition) (map : Map) :
    (additions.foldl apply map).slotTable = map.slotTable ++ slotsOf additions := by
  induction additions generalizing map with
  | nil => exact (List.append_nil _).symm
  | cons addition additions ih =>
    rw [List.foldl_cons, ih]
    cases addition with
    | slot name offset => exact List.append_assoc ..
    | method name definition positions =>
      rw [apply, addMethodNamed_slots]
      rfl

/-- The tables generated for a map are readable in every memory the image is loaded into, and
the roles of the map are those added to it. -/
theorem tables_readable (gen : Generator) (additions : List Addition)
    (names : ((slotsOf additions).map SlotEntry.name).Nodup) :
    ∃ gen₁ gen₂ slots roles,
      generateSlotTableFor gen (additions.foldl apply .empty) = some (gen₁, slots) ∧
      generateRoleTableFor gen₁ (additions.foldl apply .empty) = some (gen₂, roles) ∧
      (∀ (h : Heap) (oop : Nat → Nat), Loaded h gen₂ oop →
        SlotsReadable h gen₂ oop (oop slots) (slotsOf additions) ∧
        RolesReadable h gen₂ oop (oop roles) (additions.foldl apply .empty).roleTable) ∧
      ((definitionsOf additions).Nodup →
        (additions.foldl apply .empty).roleTable = rolesOf additions) := by
  have shape : (additions.foldl apply .empty).slotTable = slotsOf additions :=
    build_slots additions .empty
  obtain ⟨gen₁, slots, capacity₁, elements₁, slot₁, placed₁, run₁, -, array₁, room₁, layout₁⟩ :=
    generateSlotTableFor_layout gen (additions.foldl apply .empty)
  obtain ⟨gen₂, roles, capacity₂, elements₂, slot₂, next₂, placed₂, run₂, grows, array₂, room₂,
    layout₂⟩ := generateRoleTableFor_layout gen₁ (additions.foldl apply .empty)
  refine ⟨gen₁, gen₂, slots, roles, run₁, run₂, ?_, fun fresh => build_roles additions .empty fresh⟩
  intro h oop loaded
  rw [shape] at layout₁
  exact ⟨slots_readable loaded (grows.isArray array₁) room₁ (layout₁.grow grows) names,
    roles_readable loaded array₂ room₂ layout₂⟩

def sampleAdditions : List Addition :=
  [.slot ⟨[120]⟩ 4, .method ⟨[97, 116, 58]⟩ 0 [0, 1], .slot ⟨[121]⟩ 5,
    .method ⟨[97, 116, 58]⟩ 1 [1]]

theorem sample_tables :
    ∃ gen₁ gen₂ slots roles,
      generateSlotTableFor (sampleGenerator true) (sampleAdditions.foldl apply .empty) =
        some (gen₁, slots) ∧
      generateRoleTableFor gen₁ (sampleAdditions.foldl apply .empty) = some (gen₂, roles) ∧
      (∀ (h : Heap) (oop : Nat → Nat), Loaded h gen₂ oop →
        SlotsReadable h gen₂ oop (oop slots) (slotsOf sampleAdditions) ∧
        RolesReadable h gen₂ oop (oop roles) (sampleAdditions.foldl apply .empty).roleTable) ∧
      ((definitionsOf sampleAdditions).Nodup →
        (sampleAdditions.foldl apply .empty).roleTable = rolesOf sampleAdditions) :=
  tables_readable (sampleGenerator true) sampleAdditions (by decide)

end Built

end SlateVm.Bootstrap
