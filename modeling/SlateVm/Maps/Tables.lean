import SlateVm.Lib.Chained
import SlateVm.Lib.Slots
import Mathlib.Data.List.ReduceOption
import Mathlib.Data.List.Nodup
import Mathlib.Algebra.Group.Nat.Defs

/-! The slot and role tables of maps: arrays of entries with open addressing, which are made
anew whenever an entry comes or goes. An entry whose name is nil is `none`, a loop that does not
end or a failed assert gives no result, and capacities stay below the range of a word. -/
namespace SlateVm.Maps
open Probing Slots

section Accommodate

/-- `while (tableSize > requested) tableSize >>= 1` -/
def shrinkTo (requested : Nat) : Nat → Nat → Nat
  | 0, tableSize => tableSize
  | rounds + 1, tableSize =>
    if requested < tableSize then shrinkTo requested rounds (tableSize >>> 1) else tableSize

/-- `while (tableSize < requested) tableSize <<= 1`, which turns for ever on zero. -/
def growTo (requested : Nat) : Nat → Nat → Option Nat
  | 0, tableSize => if tableSize < requested then none else some tableSize
  | rounds + 1, tableSize =>
    if tableSize < requested then growTo requested rounds (tableSize <<< 1) else some tableSize

/-- `slot_table_accommodate` and `role_table_accommodate`. A positive size is doubled often
enough in `requested` rounds. -/
def accommodate (tableSize : Nat) (n : Int) : Option Nat :=
  if (tableSize : Int) + n < 0 then none
  else
    let requested := (tableSize + n).toNat
    let size := shrinkTo requested tableSize tableSize
    growTo requested requested (if size = 0 ∧ 1 < requested then 1 else size)

attribute [local simp] shrinkTo growTo

def IsCapacity (n : Nat) : Prop := n = 0 ∨ ∃ k, n = 2 ^ k

theorem IsCapacity.half {n : Nat} (c : IsCapacity n) : IsCapacity (n >>> 1) := by
  rw [Nat.shiftRight_eq_div_pow, Nat.pow_one]
  rcases c with rfl | ⟨k, rfl⟩
  · exact Or.inl rfl
  · cases k with
    | zero => exact Or.inl rfl
    | succ k => exact Or.inr ⟨k, by rw [Nat.pow_succ]; omega⟩

theorem IsCapacity.double {n : Nat} (c : IsCapacity n) : IsCapacity (n <<< 1) := by
  rw [Nat.shiftLeft_eq, Nat.pow_one]
  rcases c with rfl | ⟨k, rfl⟩
  · exact Or.inl rfl
  · exact Or.inr ⟨k + 1, (Nat.pow_succ ..).symm⟩

theorem shrinkTo_capacity (requested : Nat) {rounds tableSize : Nat} (c : IsCapacity tableSize) :
    IsCapacity (shrinkTo requested rounds tableSize) := by
  induction rounds generalizing tableSize with
  | zero => exact c
  | succ rounds ih =>
    rw [shrinkTo]
    split
    · exact ih c.half
    · exact c

theorem shrinkTo_pos {requested rounds tableSize : Nat} (some : 0 < requested)
    (positive : 0 < tableSize) : 0 < shrinkTo requested rounds tableSize := by
  induction rounds generalizing tableSize with
  | zero => exact positive
  | succ rounds ih =>
    rw [shrinkTo]
    split
    · exact ih (by rw [Nat.shiftRight_eq_div_pow]; omega)
    · exact positive

theorem shrinkTo_nothing {rounds tableSize : Nat} (enough : tableSize ≤ rounds) :
    shrinkTo 0 rounds tableSize = 0 := by
  induction rounds generalizing tableSize with
  | zero => exact Nat.le_zero.mp enough
  | succ rounds ih =>
    rw [shrinkTo]
    split
    · exact ih (by rw [Nat.shiftRight_eq_div_pow]; omega)
    · omega

theorem growTo_reaches {requested rounds tableSize : Nat}
    (enough : requested ≤ tableSize * 2 ^ rounds) :
    ∃ size, growTo requested rounds tableSize = some size ∧ requested ≤ size ∧
      (IsCapacity tableSize → IsCapacity size) := by
  induction rounds generalizing tableSize with
  | zero =>
    rw [growTo, if_neg (by omega)]
    exact ⟨tableSize, rfl, by omega, id⟩
  | succ rounds ih =>
    rw [growTo]
    split
    · obtain ⟨size, run, large, capacity⟩ := @ih (tableSize <<< 1) (by
        rw [Nat.shiftLeft_eq, Nat.pow_one, Nat.mul_assoc, ← Nat.pow_succ']
        exact enough)
      exact ⟨size, run, large, fun c => capacity c.double⟩
    · exact ⟨tableSize, rfl, by omega, id⟩

theorem growTo_zero (requested : Nat) {rounds : Nat} (some : 0 < requested) :
    growTo requested rounds 0 = none := by
  induction rounds with
  | zero => rw [growTo, if_pos some]
  | succ rounds ih =>
    rw [growTo, if_pos some]
    exact ih

theorem accommodate_spec {tableSize requested : Nat} {n : Int}
    (sum : (tableSize : Int) + n = requested) (starts : tableSize ≠ 0 ∨ requested ≠ 1) :
    ∃ size, accommodate tableSize n = some size ∧ requested ≤ size ∧
      (IsCapacity tableSize → IsCapacity size) := by
  rw [accommodate, if_neg (by omega), sum, Int.toNat_natCast]
  dsimp only
  have shrunk := @shrinkTo_capacity requested tableSize tableSize
  have power := Nat.lt_two_pow_self (n := requested)
  by_cases none : requested = 0
  · subst none
    rw [shrinkTo_nothing (Nat.le_refl _), if_neg (by omega)]
    exact ⟨0, rfl, Nat.le_refl _, fun _ => Or.inl rfl⟩
  rcases Nat.eq_zero_or_pos (shrinkTo requested tableSize tableSize) with gone | stays
  · have empty : tableSize = 0 := by
      rcases Nat.eq_zero_or_pos tableSize with empty | positive
      · exact empty
      · have := @shrinkTo_pos requested tableSize tableSize (by omega) positive
        omega
    rw [if_pos ⟨gone, by omega⟩]
    obtain ⟨size, run, large, capacity⟩ := @growTo_reaches requested requested 1 (by omega)
    exact ⟨size, run, large, fun _ => capacity (Or.inr ⟨0, rfl⟩)⟩
  · rw [if_neg (by omega)]
    obtain ⟨size, run, large, capacity⟩ := @growTo_reaches requested requested
      (shrinkTo requested tableSize tableSize) (by
        calc requested ≤ 1 * 2 ^ requested := by omega
          _ ≤ shrinkTo requested tableSize tableSize * 2 ^ requested :=
            Nat.mul_le_mul_right _ stays)
    exact ⟨size, run, large, fun c => capacity (shrunk c)⟩

theorem accommodate_first : accommodate 0 1 = none := by decide

end Accommodate

section Search

variable {Symbol Entry : Type} (idHash : Symbol → Nat) (name : Entry → Symbol)

/-- `object_hash(name) & (tableSize - 1)` -/
def home (tableSize : Nat) (s : Symbol) : Nat := idHash s &&& tableSize - 1

/-- `slot_table_entry_for_name` and `role_table_entry_for_name`: the first entry of the name, if
it comes before the first hole. -/
def entryForName [DecidableEq Symbol] (table : List (Option Entry)) (s : Symbol) : Option Nat :=
  if table.length = 0 then none
  else (search table.length (stored table) (fun e => decide (name e = s))
    (home idHash table.length s)).filter
      fun i => (stored table i).any fun e => decide (name e = s)

/-- `slot_table_entry_for_inserting_name` and `role_table_entry_for_inserting_name` -/
def entryForInsertingName (table : List (Option Entry)) (s : Symbol) : Option Nat :=
  if table.length = 0 then none
  else (Probing.probes table.length (home idHash table.length s)).find? fun i => (stored table i).isNone

def emptySpace (table : List (Option Entry)) : Nat := table.countP Option.isNone

abbrev Layout (table : List (Option Entry)) (placed : List (Nat × Entry)) : Prop :=
  Placed table.length (fun e => home idHash table.length (name e)) (stored table) placed

variable {idHash name} {table : List (Option Entry)} {placed : List (Nat × Entry)}

theorem home_lt {tableSize : Nat} (positive : 0 < tableSize) (s : Symbol) :
    home idHash tableSize s < tableSize := by
  have mask : home idHash tableSize s ≤ tableSize - 1 := Nat.and_le_right
  omega

theorem layout_blank (n : Nat) : Layout idHash name (List.replicate n none) [] := by
  have blank : stored (List.replicate n (none : Option Entry)) = fun _ => none := by
    funext i
    unfold stored
    rw [List.getElem?_replicate]
    split <;> rfl
  rw [Layout, blank]
  exact placed_nil

theorem Layout.entryForName [DecidableEq Symbol] (layout : Layout idHash name table placed)
    (s : Symbol) :
    Maps.entryForName idHash name table s =
      ((placed.filter fun x => decide (name x.2 = s)).head?).map Prod.fst := by
  unfold Maps.entryForName
  split
  · rename_i empty
    have none : placed = [] := by
      apply List.eq_nil_iff_forall_not_mem.mpr
      rintro ⟨p, e⟩ member
      have := layout.inside p e member
      omega
    rw [none]
    rfl
  · rename_i positive
    apply layout.search (Nat.le_of_lt (home_lt (Nat.pos_of_ne_zero positive) s))
    intro p e _ same
    simp only [decide_eq_true_eq] at same
    rw [same]

theorem Layout.insert (layout : Layout idHash name table placed)
    (room : placed.length < table.length) (e : Entry) :
    ∃ q, entryForInsertingName idHash table (name e) = some q ∧ q < table.length ∧
      stored table q = none ∧ Layout idHash name (table.set q (some e)) (placed ++ [(q, e)]) := by
  have positive : 0 < table.length := by omega
  have start := @home_lt Symbol idHash _ positive (name e)
  obtain ⟨r, inside, empty⟩ := layout.room room
  obtain ⟨q, found⟩ := @search_ends Entry table.length (stored table)
    (home idHash table.length (name e)) r (fun _ => false) (Nat.le_of_lt start) inside empty
  have same : entryForInsertingName idHash table (name e) = some q := by
    rw [entryForInsertingName, if_neg (by omega), ← found, search]
    congr 1
  obtain ⟨hq, stops, before⟩ := (search_eq_some (Nat.le_of_lt start)).mp found
  have hole : stored table q = none := by
    cases here : stored table q with
    | none => rfl
    | some b => simp [here] at stops
  refine ⟨q, same, hq, hole, ?_⟩
  rw [Layout, List.length_set]
  have filled : Filled table.length (stored table) (stored (table.set q (some e))) q e := by
    constructor
    · exact hq
    · exact hole
    · rw [stored_set hq, if_pos rfl]
    · intro j off
      rw [stored_set hq, if_neg off]
  apply layout.add start filled
  intro j hj early
  obtain ⟨b, there, -⟩ := before j hj early
  simp [there]

theorem Layout.perm (layout : Layout idHash name table placed) :
    table.reduceOption.Perm (placed.map Prod.snd) := by
  let indexed := (List.range table.length).filterMap fun p => (stored table p).map fun e => (p, e)
  have values : indexed.map Prod.snd = table.reduceOption := by
    have read : table = (List.range table.length).map (stored table) := by
      apply List.ext_getElem
      · simp
      · intro i inside _
        simp [stored_of_lt inside]
    conv_rhs => rw [read, List.reduceOption, List.filterMap_map]
    rw [List.map_filterMap]
    congr 1
    funext p
    simp only [Function.comp_apply, id, Option.map_map]
    exact Option.map_id' ..
  have unique : indexed.Nodup := by
    refine List.Nodup.filterMap ?_ List.nodup_range
    intro p q x hp hq
    simp only [Option.mem_def, Option.map_eq_some_iff] at hp hq
    obtain ⟨_, _, rfl⟩ := hp
    obtain ⟨_, _, same⟩ := hq
    exact (congrArg Prod.fst same).symm
  have same : indexed.Perm placed := by
    refine (List.perm_ext_iff_of_nodup unique (List.Nodup.of_map _ layout.nodup)).mpr ?_
    rintro ⟨p, e⟩
    simp only [indexed, List.mem_filterMap, List.mem_range, Option.map_eq_some_iff, Prod.mk.injEq]
    constructor
    · rintro ⟨p', _, e', here, rfl, rfl⟩
      exact (layout.slots _ _).mp here
    · intro member
      exact ⟨p, layout.inside p e member, e, (layout.slots p e).mpr member, rfl, rfl⟩
  rw [← values]
  exact same.map Prod.snd

theorem stored_map (f : Entry → Entry) (i : Nat) :
    stored (table.map (Option.map f)) i = (stored table i).map f := by
  rw [stored, List.getElem?_map, stored]
  cases table[i]? <;> rfl

theorem entryForName_map [DecidableEq Symbol] {f : Entry → Entry} (named : ∀ e, name (f e) = name e)
    (s : Symbol) : Maps.entryForName idHash name (table.map (Option.map f)) s =
      Maps.entryForName idHash name table s := by
  have test : ∀ i, (stored (table.map (Option.map f)) i).all (fun e => decide (name e = s)) =
      (stored table i).all fun e => decide (name e = s) := by
    intro i
    rw [stored_map]
    cases stored table i with
    | none => rfl
    | some e => simp only [Option.map_some, Option.all_some, named]
  have hit : ∀ i, (stored (table.map (Option.map f)) i).any (fun e => decide (name e = s)) =
      (stored table i).any fun e => decide (name e = s) := by
    intro i
    rw [stored_map]
    cases stored table i with
    | none => rfl
    | some e => simp only [Option.map_some, Option.any_some, named]
  simp only [Maps.entryForName, search, List.length_map, test, hit]

theorem entryForInsertingName_map (f : Entry → Entry) (s : Symbol) :
    entryForInsertingName idHash (table.map (Option.map f)) s =
      entryForInsertingName idHash table s := by
  have empty : ∀ i, (stored (table.map (Option.map f)) i).isNone = (stored table i).isNone := by
    intro i
    rw [stored_map, Option.isNone_map]
  simp only [entryForInsertingName, List.length_map, empty]

theorem filled_add_empty (table : List (Option Entry)) :
    table.reduceOption.length + emptySpace table = table.length := by
  rw [emptySpace, List.countP_eq_length_filter]
  exact List.length_eq_reduceOption_length_add_filter_none.symm

end Search

section Rebuild

variable {Entry : Type} (insert : List (Option Entry) → Entry → Option (List (Option Entry)))

/-- `slot_table_grow_excluding` and `role_table_grow_excluding`: the entries to keep go into a
new table in the order of the old one. -/
def growExcluding (keep : Entry → Bool) (table : List (Option Entry)) (n : Int) :
    Option (List (Option Entry)) := do
  let newSize ← accommodate table.length ((table.length / 3 : Nat) - (emptySpace table : Int) + n)
  (table.reduceOption.filter keep).foldlM insert (List.replicate newSize none)

/-- Insertions into a table with room keep the entries in the order they came. -/
structure Fills (holds : List (Option Entry) → List Entry → Prop) : Prop where
  blank : ∀ n, holds (List.replicate n none) []
  insert : ∀ table entries, holds table entries → entries.length < table.length → ∀ e,
    ∃ table', insert table e = some table' ∧ table'.length = table.length ∧
      holds table' (entries ++ [e])

variable {insert} {holds : List (Option Entry) → List Entry → Prop} {keep : Entry → Bool}
  {table : List (Option Entry)}

theorem Fills.insertAll (fills : Fills insert holds) {entries : List Entry}
    (here : holds table entries) (es : List Entry)
    (room : entries.length + es.length ≤ table.length) :
    ∃ table', es.foldlM insert table = some table' ∧ table'.length = table.length ∧
      holds table' (entries ++ es) := by
  induction es generalizing table entries with
  | nil => exact ⟨table, rfl, rfl, by rwa [List.append_nil]⟩
  | cons e es ih =>
    rw [List.length_cons] at room
    obtain ⟨first, run, size, held⟩ := fills.insert table entries here (by omega) e
    obtain ⟨last, runs, sizes, all⟩ := ih held (by
      rw [List.length_append, List.length_singleton, size]
      omega)
    refine ⟨last, ?_, sizes.trans size, by rwa [List.append_assoc] at all⟩
    rw [List.foldlM_cons, run]
    exact runs

theorem Fills.grow (fills : Fills insert holds) {n : Int} {wanted : Nat}
    (sum : (table.reduceOption.length : Int) + n = wanted)
    (fits : (table.reduceOption.filter keep).length ≤ wanted)
    (starts : table.length ≠ 0 ∨ n ≠ 1) :
    ∃ table', growExcluding insert keep table n = some table' ∧
      holds table' (table.reduceOption.filter keep) ∧ wanted ≤ table'.length ∧
      (IsCapacity table.length → IsCapacity table'.length) := by
  have parts := filled_add_empty table
  obtain ⟨size, run, large, capacity⟩ := @accommodate_spec table.length
    (table.length / 3 + wanted) ((table.length / 3 : Nat) - (emptySpace table : Int) + n)
    (by omega) (by omega)
  obtain ⟨table', fill, same, held⟩ := fills.insertAll (fills.blank size)
    (table.reduceOption.filter keep) (by rw [List.length_replicate, List.length_nil]; omega)
  rw [List.length_replicate] at same
  refine ⟨table', ?_, held, by omega, fun c => same ▸ capacity c⟩
  rw [growExcluding, run]
  exact fill

theorem growExcluding_first : growExcluding insert keep [] 1 = none := by
  simp [growExcluding, emptySpace, accommodate_first]

end Rebuild

section Growth

variable {Entry : Type}

/-- What the callers ask of `role_table_grow_excluding` and `slot_table_grow_excluding`: `n` and
the number of entries that they then add. -/
inductive Asks (keep : Entry → Bool) (table : List (Option Entry)) : Int → Nat → Prop where
  /-- `object_add_role_at` for a new role, `object_add_slot_named_at` -/
  | add (all : ∀ e ∈ table.reduceOption, keep e = true) : Asks keep table 1 1
  /-- `object_add_role_at` for a method that is there: the roles are only copied -/
  | again (all : ∀ e ∈ table.reduceOption, keep e = true) : Asks keep table 0 0
  /-- `object_remove_role`: the number of the roles of the method -/
  | removeRole (hit : 0 < table.reduceOption.countP (fun e => !keep e)) :
      Asks keep table (table.reduceOption.countP (fun e => !keep e)) 0
  /-- `object_remove_slot` -/
  | removeSlot (one : table.reduceOption.countP (fun e => !keep e) = 1) : Asks keep table (-1) 0

/-- A call of one of the two with a table of a capacity that occurs. -/
structure Growth (Entry : Type) where
  table : List (Option Entry)
  keep : Entry → Bool
  n : Int
  added : Nat
  capacity : IsCapacity table.length
  asks : Asks keep table n added

theorem Asks.enough {keep : Entry → Bool} {table : List (Option Entry)} {n : Int} {added : Nat}
    (asked : Asks keep table n added) :
    ((table.reduceOption.filter keep).length : Int) + added ≤ table.reduceOption.length + n := by
  have kept := List.length_filter_le keep table.reduceOption
  have parts : table.reduceOption.length = (table.reduceOption.filter keep).length +
      table.reduceOption.countP (fun e => !keep e) := by
    rw [← List.countP_eq_length_filter, List.length_eq_countP_add_countP keep]
    simp only [Bool.not_eq_true, Bool.decide_eq_false]
  cases asked with
  | add all => omega
  | again all => omega
  | removeRole hit => omega
  | removeSlot one => omega

namespace Growth

variable (g : Growth Entry)

def wanted : Nat := (g.table.reduceOption.filter g.keep).length + g.added

def newSize : Option Nat :=
  accommodate g.table.length ((g.table.length / 3 : Nat) - (emptySpace g.table : Int) + g.n)

theorem newSize_first (empty : g.table = []) (one : g.n = 1) : g.newSize = none := by
  simp [newSize, empty, one, emptySpace, accommodate_first]

/-- `accommodate` ends with room for all entries, except where the first entry is to come into a
table of no capacity. -/
theorem table_fits_iff : (∃ size, g.newSize = some size ∧ IsCapacity size ∧ g.wanted ≤ size) ↔
    ¬ (g.table = [] ∧ g.n = 1) := by
  have parts := filled_add_empty g.table
  have enough := g.asks.enough
  constructor
  · rintro ⟨size, run, -, -⟩ ⟨empty, one⟩
    exact absurd ((g.newSize_first empty one).symm.trans run) nofun
  · intro starts
    have first : g.table.length ≠ 0 ∨ g.n ≠ 1 := by
      by_contra none
      simp only [not_or, not_not] at none
      exact starts ⟨List.length_eq_zero_iff.mp none.1, none.2⟩
    obtain ⟨size, run, large, capacity⟩ := @accommodate_spec g.table.length
      (g.table.length / 3 + (g.table.reduceOption.length + g.n).toNat)
      ((g.table.length / 3 : Nat) - (emptySpace g.table : Int) + g.n) (by omega) (by omega)
    refine ⟨size, run, capacity g.capacity, ?_⟩
    simp only [wanted]
    omega

end Growth

/-- The first slot of an object whose table has no entries: however long the doubling goes on,
the size stays zero. -/
theorem first_slot_does_not_fit :
    (∃ g : Growth Nat, g.table = [] ∧ g.n = 1 ∧
      ¬ ∃ size, g.newSize = some size ∧ IsCapacity size ∧ g.wanted ≤ size) ∧
    ∀ rounds, growTo 1 rounds 0 = none := by
  constructor
  · let g : Growth Nat := ⟨[], fun _ => true, 1, 1, Or.inl rfl, .add fun _ _ => rfl⟩
    refine ⟨g, rfl, rfl, ?_⟩
    rintro ⟨size, run, -⟩
    exact absurd ((g.newSize_first rfl rfl).symm.trans run) nofun
  · intro rounds
    exact growTo_zero 1 Nat.one_pos

end Growth

end SlateVm.Maps
