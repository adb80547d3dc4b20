import SlateVm.Bootstrap.Chunks
import SlateVm.Lib.Chained

/-! The slot and role tables of a map as the generator lays them out in arrays. A loop that
does not end, or an index out of bounds, is `none`. -/
namespace SlateVm.Bootstrap

structure SlotEntry where
  name : Symbol
  offset : Int

structure RoleEntry where
  name : Symbol
  rolePositions : Nat
  methodDefinition : Nat
  deriving DecidableEq

structure Map where
  slotTable : List SlotEntry
  roleTable : List RoleEntry

namespace Map

def empty : Map := ⟨[], []⟩

def addSlotNamed (map : Map) (name : Symbol) (offset : Int) : Map :=
  { map with slotTable := map.slotTable ++ [⟨name, offset⟩] }

def addRole (name : Symbol) (position definition : Nat) : List RoleEntry → List RoleEntry
  | [] => [⟨name, 1 <<< position, definition⟩]
  | role :: rest =>
    if role.methodDefinition = definition then
      ⟨name, role.rolePositions ||| 1 <<< position, definition⟩ :: rest
    else role :: addRole name position definition rest

def addRoleNamed (map : Map) (name : Symbol) (position definition : Nat) : Map :=
  { map with roleTable := addRole name position definition map.roleTable }

/-- `addMethodNamed:on:` as one map sees it, which stands at `positions` of the roles. -/
def addMethodNamed (map : Map) (name : Symbol) (definition : Nat) (positions : List Nat) : Map :=
  positions.foldl (fun map position => map.addRoleNamed name position definition) map

end Map

/-- `[power < i] whileTrue: [power := power << 1]` -/
def raise (i : Nat) : Nat → Nat → Option Nat
  | 0, _ => none
  | fuel + 1, power => if power < i then raise i fuel (power <<< 1) else some power

def leastGreaterPowerOfTwo (i : Nat) : Option Nat := raise i (i + 1) 1

def capacityForTable (size : Nat) : Option Nat := leastGreaterPowerOfTwo (size * 5 / 4)

/-- `[stop] whileFalse: [hash := (hash + stride) \\ size]` on the element at `hash`. -/
def probe (elements : List Value) (stop : Value → Bool) (stride size : Nat) :
    Nat → Nat → Option Nat
  | 0, _ => none
  | fuel + 1, hash => do
    if stop (← elements[hash]?) then some hash
    else probe elements stop stride size fuel ((hash + stride) % size)

/-- `[(obj elements at: hash + 3) isNil] whileFalse: [hash := (obj elements at: hash + 3) * 4]` -/
def lastRole (elements : List Value) : Nat → Nat → Option Nat
  | 0, _ => none
  | fuel + 1, hash =>
    match elements[hash + 3]? with
    | some .nil => some hash
    | some (.small (.ofNat next)) => lastRole elements fuel (next * 4)
    | _ => none

def atPut (elements : List Value) (i : Nat) (value : Value) : Option (List Value) :=
  if i < elements.length then some (elements.set i value) else none

variable (capacity : Nat)

def placeSlot (state : Generator × List Value) (se : SlotEntry) :
    Option (Generator × List Value) := do
  let (gen, elements) := state
  let (gen, selector) := gen.generateLiteral se.name
  let idHash ← gen.idHash selector
  let hash ← probe elements Value.isNil 2 (capacity * 2) capacity ((idHash &&& capacity - 1) * 2)
  let elements ← atPut elements hash (.chunk selector)
  let elements ← atPut elements (hash + 1) (.small se.offset)
  some (gen, elements)

def placeRole (state : Generator × List Value) (re : RoleEntry) :
    Option (Generator × List Value) := do
  let (gen, elements) := state
  let (gen, selector) := gen.generateLiteral re.name
  let idHash ← gen.idHash selector
  let hash ← probe elements (fun found => found.isNil || found == .chunk selector) 4
    (capacity * 4) capacity ((idHash &&& capacity - 1) * 4)
  let insert ← probe elements Value.isNil 4 (capacity * 4) capacity hash
  let elements ← atPut elements insert (.chunk selector)
  let elements ← atPut elements (insert + 1) (.small re.rolePositions)
  let (gen, definition) := gen.generateMethodDef re.methodDefinition
  let elements ← atPut elements (insert + 2) (.chunk definition)
  if insert = hash then some (gen, elements)
  else do
    let last ← lastRole elements capacity hash
    let elements ← atPut elements (last + 3) (.small (insert / 4 : Nat))
    some (gen, elements)

variable (gen : Generator) (map : Map)

def generateSlotTableFor : Option (Generator × Nat) := do
  let capacity ← capacityForTable map.slotTable.length
  let blank := List.replicate (2 * capacity) Value.nil
  let (gen, obj) := gen.newArrayOf blank
  let (gen, elements) ← map.slotTable.foldlM (placeSlot capacity) (gen, blank)
  some (gen.putElements obj elements, obj)

def generateRoleTableFor : Option (Generator × Nat) := do
  let capacity ← capacityForTable map.roleTable.length
  let blank := List.replicate (4 * capacity) Value.nil
  let (gen, obj) := gen.newArrayOf blank
  let (gen, elements) ← map.roleTable.foldlM (placeRole capacity) (gen, blank)
  some (gen.putElements obj elements, obj)

end SlateVm.Bootstrap

/-! What the generation of a table keeps: the generator only grows, and every entry laid out so
far stands where a probe for its name finds it. -/
namespace SlateVm.Bootstrap
open Probing

section Capacity

theorem raise_reaches (i : Nat) (fuel power : Nat) (positive : 0 < power)
    (enough : i - power < fuel) : ∃ p, raise i fuel power = some p ∧ i ≤ p ∧ 0 < p := by
  induction fuel generalizing power with
  | zero => omega
  | succ fuel ih =>
    unfold raise
    split
    · have doubled : power <<< 1 = 2 * power := by rw [Nat.shiftLeft_eq]; omega
      exact ih (power <<< 1) (by omega) (by omega)
    · exact ⟨power, rfl, by omega, positive⟩

theorem capacityForTable_holds (size : Nat) :
    ∃ capacity, capacityForTable size = some capacity ∧ size ≤ capacity ∧ 0 < capacity := by
  obtain ⟨p, run, large, positive⟩ := raise_reaches (size * 5 / 4) (size * 5 / 4 + 1) 1
    Nat.one_pos (by omega)
  exact ⟨p, run, by omega, positive⟩

end Capacity

section Grows

/-- Chunks and translations are added, and nothing changes. -/
structure Grows (gen gen' : Generator) : Prop where
  chunks : ∀ (c : Nat) (chunk : Chunk), gen.chunks[c]? = some chunk → gen'.chunks[c]? = some chunk
  objects : gen'.objects = gen.objects
  symbols : ∀ s c, gen.symbols.lookup s = some c → gen'.symbols.lookup s = some c
  translations : ∀ key c, gen.translations.lookup key = some c →
    gen'.translations.lookup key = some c

variable {gen gen' gen'' : Generator}

theorem Grows.refl (gen : Generator) : Grows gen gen :=
  ⟨fun _ _ here => here, rfl, fun _ _ here => here, fun _ _ here => here⟩

theorem Grows.trans (first : Grows gen gen') (second : Grows gen' gen'') : Grows gen gen'' := by
  constructor
  · intro c chunk here
    exact second.chunks c chunk (first.chunks c chunk here)
  · exact second.objects.trans first.objects
  · intro s c here
    exact second.symbols s c (first.symbols s c here)
  · intro key c here
    exact second.translations key c (first.translations key c here)

theorem Grows.idHash (grows : Grows gen gen') {c hash : Nat} (here : gen.idHash c = some hash) :
    gen'.idHash c = some hash := by
  obtain ⟨chunk, there, rfl⟩ := Option.map_eq_some_iff.mp here
  exact Option.map_eq_some_iff.mpr ⟨chunk, grows.chunks c chunk there, rfl⟩

theorem idHash_within {c : Nat} (within : c < gen.chunks.length) :
    ∃ hash, gen.idHash c = some hash :=
  ⟨_, Option.map_eq_some_iff.mpr ⟨_, List.getElem?_eq_getElem within, rfl⟩⟩

theorem cloneOf_grows (gen : Generator) (name : ObjectName) (payload : Payload) :
    Grows gen (gen.cloneOf name payload).1 := by
  constructor
  · intro c chunk here
    have within := (List.getElem?_eq_some_iff.mp here).1
    exact (List.getElem?_append_left within).trans here
  · rfl
  · exact fun _ _ here => here
  · exact fun _ _ here => here

theorem putElements_grows (gen : Generator) (grows : Grows gen gen') (elements : List Value) :
    Grows gen (gen'.putElements gen.chunks.length elements) := by
  constructor
  · intro c chunk here
    have within := (List.getElem?_eq_some_iff.mp here).1
    have apart : gen.chunks.length ≠ c := by omega
    simp [Generator.putElements, grows.chunks c chunk here, apart]
  · exact grows.objects
  · exact grows.symbols
  · exact grows.translations

theorem idHash_putElements (gen : Generator) (obj : Nat) (elements : List Value) (c : Nat) :
    (gen.putElements obj elements).idHash c = gen.idHash c := by
  simp only [Generator.idHash, Generator.putElements, List.getElem?_modify]
  cases gen.chunks[c]? with
  | none => rfl
  | some chunk =>
    simp only [Option.map_eq_map, Option.map_some]
    split <;> rfl

theorem newArrayOf_chunk (gen : Generator) (elements : List Value) :
    ∃ chunk, (gen.newArrayOf elements).1.chunks[gen.chunks.length]? = some chunk ∧
      chunk.slotValues = [] := by
  have plain := gen.plain _ (gen.objectsAt_here .arrayProto)
  exact ⟨_, List.getElem?_concat_length .., plain⟩

theorem lookup_cons_new {κ : Type} [DecidableEq κ] {table : List (κ × Nat)} {key : κ}
    (absent : table.lookup key = none) (c : Nat) {key' : κ} {c' : Nat}
    (here : table.lookup key' = some c') : ((key, c) :: table).lookup key' = some c' := by
  have off : key' ≠ key := by
    rintro rfl
    rw [absent] at here
    cases here
  rw [List.lookup_cons, beq_false_of_ne off]
  exact here

theorem generateLiteral_spec (gen : Generator) (s : Symbol) :
    Grows gen (gen.generateLiteral s).1 ∧
      (gen.generateLiteral s).1.symbols.lookup s = some (gen.generateLiteral s).2 := by
  unfold Generator.generateLiteral
  split
  · rename_i c here
    exact ⟨Grows.refl gen, here⟩
  · rename_i absent
    have grows := cloneOf_grows gen .symbolProto (.byteArray s.name)
    exact ⟨⟨grows.chunks, rfl, fun _ _ => lookup_cons_new absent _, grows.translations⟩,
      List.lookup_cons_self⟩

theorem generateMethodDef_spec (gen : Generator) (d : Nat) :
    Grows gen (gen.generateMethodDef d).1 ∧
      (gen.generateMethodDef d).1.translations.lookup (.definition d) =
        some (gen.generateMethodDef d).2 := by
  unfold Generator.generateMethodDef
  split
  · rename_i c here
    exact ⟨Grows.refl gen, here⟩
  · rename_i absent
    have grows := cloneOf_grows gen .methodDefinitionProto
      (gen.objectsAt .methodDefinitionProto).payload
    exact ⟨⟨grows.chunks, rfl, grows.symbols, fun _ _ => lookup_cons_new absent _⟩,
      List.lookup_cons_self⟩

end Grows

section Runs

variable {σ β : Type} {f : σ → β → Option σ} {P : σ → List β → Prop} {capacity : Nat}

theorem foldlM_places (step : ∀ s done x, P s done → done.length < capacity →
      ∃ s', f s x = some s' ∧ P s' (done ++ [x]))
    (rest : List β) (s : σ) (done : List β) (holds : P s done)
    (room : (done ++ rest).length ≤ capacity) :
    ∃ s', rest.foldlM f s = some s' ∧ P s' (done ++ rest) := by
  induction rest generalizing s done with
  | nil =>
    rw [List.append_nil]
    exact ⟨s, rfl, holds⟩
  | cons x rest ih =>
    have room' : done.length < capacity := by
      rw [List.length_append, List.length_cons] at room
      omega
    obtain ⟨s₁, one, holds⟩ := step s done x holds room'
    rw [List.append_cons] at room ⊢
    obtain ⟨s₂, more, holds⟩ := ih s₁ (done ++ [x]) holds room
    refine ⟨s₂, ?_, holds⟩
    rw [List.foldlM_cons, one]
    exact more

end Runs

section Probes

variable {α : Type} {elements : List Value} {stop : Value → Bool} {stride capacity : Nat}
  {slot : Nat → Option α} {selector : α → Nat}

structure Keyed (stride capacity : Nat) (elements : List Value) (slot : Nat → Option α)
    (selector : α → Nat) : Prop where
  length : elements.length = capacity * stride
  key : ∀ i < capacity, elements[i * stride]? =
    some ((slot i).elim .nil fun a => .chunk (selector a))

theorem probe_spin (inside : ∀ i < capacity, ∃ word, elements[i * stride]? = some word)
    (fuel i : Nat) (within : i < capacity) :
    probe elements stop stride (capacity * stride) fuel (i * stride) =
      (spin capacity (fun i => elements[i * stride]?.any stop) fuel i).map (· * stride) := by
  induction fuel generalizing i with
  | zero => rfl
  | succ fuel ih =>
    obtain ⟨word, here⟩ := inside i within
    have next : (i * stride + stride) % (capacity * stride) = (i + 1) % capacity * stride := by
      rw [← Nat.succ_mul, Nat.mul_mod_mul_right]
    have rest := ih ((i + 1) % capacity) (Nat.mod_lt _ (by omega))
    rw [probe, spin, here]
    simp only [Option.bind_eq_bind, Option.bind_some, Option.any_some]
    split
    · rfl
    · rw [next, rest]

theorem Keyed.probe (keyed : Keyed stride capacity elements slot selector) {h r : Nat}
    (within : h < capacity) (inside : r < capacity)
    (stops : stop ((slot r).elim .nil fun a => .chunk (selector a)) = true) :
    ∃ i, Bootstrap.probe elements stop stride (capacity * stride) capacity (h * stride) =
        some (i * stride) ∧ i < capacity ∧
      stop ((slot i).elim .nil fun a => .chunk (selector a)) = true ∧
      ∀ j < capacity, after capacity h j < after capacity h i →
        stop ((slot j).elim .nil fun a => .chunk (selector a)) = false := by
  have words : ∀ i < capacity, elements[i * stride]?.any stop =
      stop ((slot i).elim .nil fun a => .chunk (selector a)) := by
    intro i hi
    rw [keyed.key i hi]
    rfl
  have some_word : ∀ i < capacity, ∃ word, elements[i * stride]? = some word :=
    fun i hi => ⟨_, keyed.key i hi⟩
  have ends := @spin_stops capacity (fun i => elements[i * stride]?.any stop) r inside
    ((words r inside).trans stops) capacity h within (after_lt within inside)
  obtain ⟨i, run, hi, here, before⟩ := ends
  refine ⟨i, ?_, hi, (words i hi).symm.trans here, fun j hj early => ?_⟩
  · rw [probe_spin some_word capacity h within, run]
    rfl
  · exact (words j hj).symm.trans (before j hj early)

theorem atPut_some {i : Nat} (inside : i < elements.length) (value : Value) :
    atPut elements i value = some (elements.set i value) := if_pos inside

end Probes

end SlateVm.Bootstrap
