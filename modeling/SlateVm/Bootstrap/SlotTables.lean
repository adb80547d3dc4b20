import SlateVm.Bootstrap.Tables

/-! The slot table as it is filled, entry by entry. -/
namespace SlateVm.Bootstrap
open Probing

variable {gen gen' : Generator} {capacity : Nat} {elements : List Value}

def home (gen : Generator) (capacity c : Nat) : Nat := (gen.idHash c).getD 0 &&& capacity - 1

theorem home_lt (gen : Generator) (positive : 0 < capacity) (c : Nat) :
    home gen capacity c < capacity := by
  have mask : home gen capacity c ≤ capacity - 1 := Nat.and_le_right
  omega

theorem home_eq {c hash : Nat} (here : gen.idHash c = some hash) :
    home gen capacity c = hash &&& capacity - 1 := by
  rw [home, here, Option.getD_some]

theorem Grows.home (grows : Grows gen gen') {c : Nat} (within : c < gen.chunks.length) :
    Bootstrap.home gen' capacity c = Bootstrap.home gen capacity c := by
  obtain ⟨hash, here⟩ := idHash_within within
  rw [home_eq here, home_eq (grows.idHash here)]

theorem getElem?_atPut {i : Nat} (inside : i < elements.length) (value : Value) (k : Nat) :
    (elements.set i value)[k]? = if k = i then some value else elements[k]? := by
  rw [List.getElem?_set]
  rcases Decidable.em (k = i) with rfl | off
  · rw [if_pos rfl, if_pos inside, if_pos rfl]
  · rw [if_neg (Ne.symm off), if_neg off]

theorem Keyed.fill {α : Type} {slot : Nat → Option α} {selector : α → Nat} {stride : Nat}
    {elements' : List Value} (keyed : Keyed stride capacity elements slot selector)
    (length : elements'.length = elements.length) {q : Nat} {a : α}
    (here : elements'[q * stride]? = some (.chunk (selector a)))
    (kept : ∀ i < capacity, i ≠ q → elements'[i * stride]? = elements[i * stride]?) :
    Keyed stride capacity elements' (Function.update slot q (some a)) selector := by
  constructor
  · rw [length, keyed.length]
  · intro i hi
    rcases Decidable.em (i = q) with rfl | off
    · rw [here, Function.update_self]
      rfl
    · rw [kept i hi off, keyed.key i hi, Function.update_of_ne off]

theorem filled_update {α : Type} {n q : Nat} {slot : Nat → Option α} (inside : q < n)
    (empty : slot q = none) (a : α) : Filled n slot (Function.update slot q (some a)) q a := by
  constructor
  · exact inside
  · exact empty
  · exact Function.update_self q (some a) slot
  · exact fun j off => Function.update_of_ne off (some a) slot

theorem isNil_elim {α : Type} {o : Option α} {selector : α → Nat} :
    (o.elim Value.nil fun a => .chunk (selector a)).isNil = o.isNone := by
  cases o <;> rfl

theorem forall₂_left {α β : Type} {R : α → β → Prop} {xs : List α} {ys : List β}
    (related : List.Forall₂ R xs ys) {x : α} (member : x ∈ xs) : ∃ y ∈ ys, R x y := by
  induction related with
  | nil => cases member
  | cons here _ ih =>
    rcases List.mem_cons.mp member with rfl | later
    · exact ⟨_, List.mem_cons_self, here⟩
    · obtain ⟨y, there, holds⟩ := ih later
      exact ⟨y, List.mem_cons_of_mem _ there, holds⟩

theorem forall₂_right {α β : Type} {R : α → β → Prop} {xs : List α} {ys : List β}
    (related : List.Forall₂ R xs ys) {y : β} (member : y ∈ ys) : ∃ x ∈ xs, R x y :=
  forall₂_left related.flip member

structure SlotRecord where
  selector : Nat
  offset : Int

structure SlotLayout (gen : Generator) (capacity : Nat) (elements : List Value)
    (slot : Nat → Option SlotRecord) (placed : List (Nat × SlotRecord)) (done : List SlotEntry) :
    Prop where
  keyed : Keyed 2 capacity elements slot SlotRecord.selector
  offset : ∀ i < capacity, ∀ a, slot i = some a → elements[i * 2 + 1]? = some (.small a.offset)
  table : Placed capacity (fun a => home gen capacity a.selector) slot placed
  entries : List.Forall₂ (fun (x : Nat × SlotRecord) (se : SlotEntry) =>
    gen.symbols.lookup se.name = some x.2.selector ∧ x.2.offset = se.offset) placed done

theorem slotLayout_nil (gen : Generator) (capacity : Nat) :
    SlotLayout gen capacity (List.replicate (2 * capacity) .nil) (fun _ => none) [] [] := by
  constructor
  · constructor
    · rw [List.length_replicate, Nat.mul_comm]
    · intro i hi
      exact List.getElem?_replicate_of_lt (by omega)
  · intro i _ a here
    cases here
  · exact placed_nil
  · exact .nil

variable {slot : Nat → Option SlotRecord} {placed : List (Nat × SlotRecord)}
  {done : List SlotEntry}

namespace SlotLayout

theorem grow (layout : SlotLayout gen capacity elements slot placed done)
    (grows : Grows gen gen') : SlotLayout gen' capacity elements slot placed done := by
  constructor
  · exact layout.keyed
  · exact layout.offset
  · apply layout.table.rehome
    intro p a member
    obtain ⟨se, -, named, -⟩ := forall₂_left layout.entries member
    exact grows.home (gen.interned.within se.name a.selector named)
  · exact layout.entries.imp fun x se same => ⟨grows.symbols _ _ same.1, same.2⟩

theorem place (layout : SlotLayout gen capacity elements slot placed done)
    (room : done.length < capacity) (se : SlotEntry) :
    ∃ gen' elements' slot' placed', placeSlot capacity (gen, elements) se = some (gen', elements') ∧
      Grows gen gen' ∧ SlotLayout gen' capacity elements' slot' placed' (done ++ [se]) := by
  obtain ⟨grows, named⟩ := generateLiteral_spec gen se.name
  generalize literal : gen.generateLiteral se.name = made at grows named
  obtain ⟨gen', selector⟩ := made
  simp only at grows named
  have layout := layout.grow grows
  obtain ⟨hash, here⟩ := idHash_within (gen'.interned.within se.name selector named)
  have start := home_lt gen' (Nat.lt_of_le_of_lt (Nat.zero_le _) room) selector
  obtain ⟨r, inside, empty⟩ := layout.table.room (by rwa [layout.entries.length_eq])
  obtain ⟨q, run, hq, stops, before⟩ := @Keyed.probe _ _ Value.isNil _ _ _ _ layout.keyed _ r start
    inside (by rw [isNil_elim, empty]; rfl)
  rw [isNil_elim, Option.isNone_iff_eq_none] at stops
  rw [home_eq here] at run
  have length := layout.keyed.length
  let a : SlotRecord := ⟨selector, se.offset⟩
  let elements' := (elements.set (q * 2) (.chunk selector)).set (q * 2 + 1) (.small se.offset)
  have reads : ∀ k, elements'[k]? = if k = q * 2 + 1 then some (.small se.offset)
      else if k = q * 2 then some (.chunk selector) else elements[k]? := by
    intro k
    rw [getElem?_atPut (by rw [List.length_set]; omega), getElem?_atPut (by omega)]
  have done' : placeSlot capacity (gen, elements) se = some (gen', elements') := by
    simp only [placeSlot, literal, here, run, Option.bind_eq_bind, Option.bind_some]
    rw [atPut_some (by omega), Option.bind_some, atPut_some (by rw [List.length_set]; omega)]
    rfl
  refine ⟨gen', elements', Function.update slot q (some a), placed ++ [(q, a)], done', grows, ?_⟩
  constructor
  · apply layout.keyed.fill (by simp [elements'])
    · rw [reads, if_neg (by omega), if_pos rfl]
    · intro i hi off
      rw [reads, if_neg (by omega), if_neg (by omega)]
  · intro i hi b there
    rcases Decidable.em (i = q) with rfl | off
    · rw [Function.update_self] at there
      cases there
      rw [reads, if_pos rfl]
    · rw [Function.update_of_ne off] at there
      rw [reads, if_neg (by omega), if_neg (by omega)]
      exact layout.offset i hi b there
  · apply layout.table.add start (filled_update hq stops a)
    intro j hj early empty
    have full := before j hj early
    rw [isNil_elim, empty] at full
    cases full
  · exact List.rel_append layout.entries (.cons ⟨named, rfl⟩ .nil)

theorem putElements (layout : SlotLayout gen capacity elements slot placed done) (obj : Nat) :
    SlotLayout (gen.putElements obj elements) capacity elements slot placed done := by
  constructor
  · exact layout.keyed
  · exact layout.offset
  · simp only [Bootstrap.home, idHash_putElements]
    exact layout.table
  · exact layout.entries

end SlotLayout

def IsArray (gen : Generator) (obj : Nat) (elements : List Value) : Prop :=
  ∃ chunk, gen.chunks[obj]? = some chunk ∧ chunk.slotValues = [] ∧
    chunk.payload = .oopArray elements

theorem Grows.isArray (grows : Grows gen gen') {obj : Nat} (array : IsArray gen obj elements) :
    IsArray gen' obj elements := by
  obtain ⟨chunk, here, shape⟩ := array
  exact ⟨chunk, grows.chunks obj chunk here, shape⟩

theorem isArray_putElements {blank : List Value}
    (grows : Grows (gen.newArrayOf blank).1 gen') (elements : List Value) :
    IsArray (gen'.putElements gen.chunks.length elements) gen.chunks.length elements := by
  obtain ⟨chunk, here, plain⟩ := newArrayOf_chunk gen blank
  have there := grows.chunks _ chunk here
  refine ⟨{ chunk with payload := .oopArray elements }, ?_, plain, rfl⟩
  simp [Generator.putElements, there]

theorem generateSlotTableFor_layout (gen : Generator) (map : Map) :
    ∃ gen' obj capacity elements slot placed, generateSlotTableFor gen map = some (gen', obj) ∧
      Grows gen gen' ∧ IsArray gen' obj elements ∧ 0 < capacity ∧
      SlotLayout gen' capacity elements slot placed map.slotTable := by
  obtain ⟨capacity, size, large, room⟩ := capacityForTable_holds map.slotTable.length
  let blank := List.replicate (2 * capacity) Value.nil
  have grows := cloneOf_grows gen .arrayProto (.oopArray blank)
  have empty := slotLayout_nil (gen.newArrayOf blank).1 capacity
  obtain ⟨⟨gen', elements⟩, run, grows', slot, placed, layout⟩ :=
    @foldlM_places _ _ (placeSlot capacity)
      (fun s done => Grows (gen.newArrayOf blank).1 s.1 ∧
        ∃ slot placed, SlotLayout s.1 capacity s.2 slot placed done) capacity
      (by
        rintro ⟨gen₁, elements₁⟩ done se ⟨grown, slot, placed, layout⟩ room
        obtain ⟨gen₂, elements₂, slot', placed', one, grows, layout⟩ := layout.place room se
        exact ⟨(gen₂, elements₂), one, grown.trans grows, slot', placed', layout⟩)
      map.slotTable ((gen.newArrayOf blank).1, blank) [] ⟨Grows.refl _, _, _, empty⟩ large
  refine ⟨gen'.putElements gen.chunks.length elements, gen.chunks.length, capacity, elements, slot,
    placed, ?_, putElements_grows gen (grows.trans grows') elements,
    isArray_putElements grows' elements, room, layout.putElements _⟩
  simp only [generateSlotTableFor, size, Option.bind_eq_bind, Option.bind_some]
  rw [run]
  rfl

end SlateVm.Bootstrap
