import SlateVm.Lib.OrderedMap
import SlateVm.Collections.ArrayRefines

/-! `OrderedDictionary`: parallel extensible arrays of keys and values. -/
namespace SlateVm.Collections

open Refinement ExtensibleArray

/-- The slots of an `OrderedDictionary`. Nil is `none` among the keys. -/
structure OrderedDictionary (κ β : Type) where
  keys : ExtensibleArray (Option κ)
  values : ExtensibleArray β

namespace OrderedDictionary

variable {κ β : Type} [DecidableEq κ] [Inhabited β]

def new (n : Nat) : OrderedDictionary κ β := ⟨ExtensibleArray.new n, ExtensibleArray.new n⟩

def size (d : OrderedDictionary κ β) : Int := d.keys.size

/-- `scanFor:`, which is `indexOf:`. -/
def scanFor (d : OrderedDictionary κ β) (key : Option κ) : Option Nat :=
  (List.range d.keys.size.toNat).find? fun index => d.keys.at? index == some key

def putAt (d : OrderedDictionary κ β) (index : Nat) (obj : β) : Option (OrderedDictionary κ β) :=
  if d.values.includesKey index then do
    let values ← d.values.atPut index obj
    some { d with values := values }
  else none

def atPut (d : OrderedDictionary κ β) (key : Option κ) (obj : β) :
    Option (OrderedDictionary κ β) :=
  match d.scanFor key with
  | none => do
    let keys ← d.keys.addLast key
    let values ← d.values.addLast obj
    some ⟨keys, values⟩
  | some index => d.putAt index obj

/-- `removeAt:`, which signals for an index that is no key. -/
def removeAt {α : Type} [Inhabited α] (es : ExtensibleArray α) (index : Nat) :
    Option (ExtensibleArray α × α) :=
  if es.includesKey index then es.removeAt index else none

/-- `removeKey:ifAbsent:`; the answer `none` says that the block was run. -/
def removeKey (d : OrderedDictionary κ β) (key : Option κ) :
    Option (OrderedDictionary κ β × Option β) :=
  match d.scanFor key with
  | none => some (d, none)
  | some index => do
    let (keys, _) ← removeAt d.keys index
    let (values, removed) ← removeAt d.values index
    some (⟨keys, values⟩, some removed)

/-- `at:ifAbsent:`. The key is read at what `scanFor:` answers, so an absent one signals. The inner
`none` says that the block was run. -/
def atIfAbsent (d : OrderedDictionary κ β) (key : Option κ) : Option (Option β) := do
  let index ← d.scanFor key
  match ← d.keys.at? index with
  | none => some none
  | some _ => (d.values.at? index).map some

/-- `do:` of an extensible array: the elements that it visits. -/
def visited {α : Type} (es : ExtensibleArray α) : Option (List α) :=
  (upTo es.firstIndex es.lastIndex).mapM (arrayAt es.contents)

def keysDo (d : OrderedDictionary κ β) : Option (List (Option κ)) := visited d.keys

def valuesDo (d : OrderedDictionary κ β) : Option (List β) := visited d.values

/-- `keysAndValuesDo:`, which is `with:do:`. -/
def keysAndValuesDo (d : OrderedDictionary κ β) : Option (List (Option κ × β)) :=
  (List.range (min d.keys.size d.values.size).toNat).mapM fun index : Nat => do
    let key ← d.keys.at? index
    let value ← d.values.at? index
    some (key, value)

/-- `at:`, of `Mapping`. -/
def at? (d : OrderedDictionary κ β) (key : Option κ) : Option β := (d.atIfAbsent key).join

/-- `do:`. The method of `Sequence` comes before that of `Mapping`, and takes what is found at the
indices below the size. -/
def elementsDo (integer : Nat → κ) (d : OrderedDictionary κ β) : Option (List β) :=
  if d.size = 0 then some []
  else (List.range d.size.toNat).mapM fun index => d.at? (some (integer index))

inductive Op (κ β : Type) where
  | atPut (key : Option κ) (obj : β)
  | removeKey (key : Option κ)
  | atIfAbsent (key : Option κ)
  | keysDo
  | valuesDo
  | keysAndValuesDo
  | elementsDo

inductive Answer (κ β : Type) where
  | object (obj : β)
  | block
  | keys (visited : List (Option κ))
  | values (visited : List β)
  | pairs (visited : List (Option κ × β))

def Answer.ofFound : Option β → Answer κ β
  | none => .block
  | some obj => .object obj

def perform (integer : Nat → κ) (d : OrderedDictionary κ β) :
    Op κ β → Option (OrderedDictionary κ β × Answer κ β)
  | .atPut key obj => (d.atPut key obj).map (·, .object obj)
  | .removeKey key => (d.removeKey key).map fun (d, found) => (d, .ofFound found)
  | .atIfAbsent key => (d.atIfAbsent key).map fun found => (d, .ofFound found)
  | .keysDo => d.keysDo.map fun keys => (d, .keys keys)
  | .valuesDo => d.valuesDo.map fun values => (d, .values values)
  | .keysAndValuesDo => d.keysAndValuesDo.map fun pairs => (d, .pairs pairs)
  | .elementsDo => (d.elementsDo integer).map fun values => (d, .values values)

def Op.after (m : OrderedMap (Option κ) β) : Op κ β → OrderedMap (Option κ) β
  | .atPut key obj => m.put key obj
  | .removeKey key => m.remove key
  | _ => m

def Op.answer (m : OrderedMap (Option κ) β) : Op κ β → Answer κ β
  | .atPut _ obj => .object obj
  | .removeKey key | .atIfAbsent key => .ofFound (m.map key)
  | .keysDo => .keys m.order
  | .valuesDo | .elementsDo => .values m.values
  | .keysAndValuesDo => .pairs m.pairs

def implementation (integer : Nat → κ) :
    Implementation (OrderedDictionary κ β) (OrderedMap (Option κ) β) (Op κ β) (Answer κ β) where
  start d m := ∃ n, d = new n ∧ m = ⟨fun _ => none, []⟩
  perform := perform integer
  next m op _ := op.after m
  right m op a := a = op.answer m

def Shows (d : OrderedDictionary κ β) (m : OrderedMap (Option κ) β) : Prop :=
  d.size = m.order.length ∧ m.order.Nodup ∧ ∀ key, key ∈ m.order ↔ (m.map key).isSome

/-- The steps that do not run into a defect: a key that is looked up is there and not Nil, and
`do:` finds, under each index below the size, the value that stands there. -/
def Spares (integer : Nat → κ) (d : OrderedDictionary κ β) : Op κ β → Prop
  | .atIfAbsent key => key ≠ none ∧ d.scanFor key ≠ none
  | .elementsDo => ∀ i : Nat, i < d.size → ∃ j, d.scanFor (some (integer i)) = some j ∧
      d.values.at? j = d.values.at? i
  | _ => True

end OrderedDictionary

end SlateVm.Collections

/-! `OrderedDictionary` as an implementation of a finite map with the order of its keys. -/
namespace SlateVm.Collections.OrderedDictionary

open Refinement ExtensibleArray OrderedMap

variable {κ β : Type} {d : OrderedDictionary κ β} {m : OrderedMap (Option κ) β}
  {ks : List (Option κ)} {vs : List β} {f g : Nat} {integer : Nat → κ}

structure Holds (d : OrderedDictionary κ β) (m : OrderedMap (Option κ) β) (f g : Nat)
    (ks : List (Option κ)) (vs : List β) : Prop where
  keys : ExtensibleArray.Holds d.keys f ks
  values : ExtensibleArray.Holds d.values g vs
  listed : Listed m ks vs

theorem visited_all {α : Type} {es : ExtensibleArray α} {xs : List α}
    (holds : ExtensibleArray.Holds es f xs) : visited es = some xs := by
  rw [visited, upTo_nat holds.first (n := xs.length) holds.last, List.mapM_map]
  apply mapM_range
  intro i inside
  rw [Function.comp_apply, arrayAt_nat]
  exact holds.items i inside

theorem Holds.keysAndValuesDo (holds : Holds d m f g ks vs) :
    d.keysAndValuesDo = some m.pairs := by
  have length := holds.listed.length
  have number : (min d.keys.size d.values.size).toNat = (ks.zip vs).length := by
    rw [holds.keys.size, holds.values.size, List.length_zip]
    omega
  rw [OrderedDictionary.keysAndValuesDo, holds.listed.pairs, number]
  apply mapM_range
  intro i inside
  rw [List.length_zip] at inside
  rw [holds.keys.at?, holds.values.at?, List.getElem?_eq_getElem (by omega),
    List.getElem?_eq_getElem (by omega), List.getElem?_eq_getElem (by rw [List.length_zip]; omega),
    List.getElem_zip]
  rfl

variable [DecidableEq κ]

theorem Holds.scanFor_some (holds : Holds d m f g ks vs) {key : Option κ} {i : Nat}
    (found : d.scanFor key = some i) : ks[i]? = some key := by
  have here := List.find?_some found
  rw [holds.keys.at?] at here
  exact beq_iff_eq.mp here

theorem Holds.scanFor_none (holds : Holds d m f g ks vs) {key : Option κ}
    (found : d.scanFor key = none) : key ∉ ks := by
  intro mem
  obtain ⟨i, here⟩ := List.mem_iff_getElem?.mp mem
  obtain ⟨inside, _⟩ := List.getElem?_eq_some_iff.mp here
  rw [scanFor, List.find?_eq_none] at found
  have size := holds.keys.size
  apply found i (List.mem_range.mpr (by omega))
  rw [holds.keys.at?, here]
  exact beq_self_eq_true _

theorem Holds.atIfAbsent (holds : Holds d m f g ks vs) (key : Option κ) :
    d.atIfAbsent key = match d.scanFor key, key with
      | none, _ => none
      | some _, none => some none
      | some _, some _ => some (m.map key) := by
  rw [OrderedDictionary.atIfAbsent]
  cases found : d.scanFor key with
  | none => rfl
  | some i =>
    have here := holds.scanFor_some found
    obtain ⟨inside, _⟩ := List.getElem?_eq_some_iff.mp here
    have length := holds.listed.length
    have value : m.map key = some vs[i] := by
      rw [holds.listed.there i key here, List.getElem?_eq_getElem]
    simp only [Option.bind_eq_bind, Option.bind_some, holds.keys.at?, here, holds.values.at?,
      value, List.getElem?_eq_getElem (show i < vs.length by omega)]
    cases key <;> rfl

variable [Inhabited β]

theorem Holds.atPut (holds : Holds d m f g ks vs) (key : Option κ) (obj : β) :
    ∃ d' f' g' ks' vs', d.atPut key obj = some d' ∧ Holds d' (m.put key obj) f' g' ks' vs' := by
  rw [OrderedDictionary.atPut]
  cases found : d.scanFor key with
  | none =>
    obtain ⟨keys, f', runKeys, keysHold⟩ := holds.keys.addLast key
    obtain ⟨values, g', runValues, valuesHold⟩ := holds.values.addLast obj
    refine ⟨⟨keys, values⟩, f', g', _, _, ?_, keysHold, valuesHold,
      holds.listed.put_new (holds.scanFor_none found) obj⟩
    simp only [runKeys, runValues, Option.bind_eq_bind, Option.bind_some]
  | some i =>
    have here := holds.scanFor_some found
    obtain ⟨inside, _⟩ := List.getElem?_eq_some_iff.mp here
    have length := holds.listed.length
    obtain ⟨values, run, valuesHold⟩ := holds.values.atPut (k := i) (by omega) obj
    refine ⟨⟨d.keys, values⟩, f, g, _, _, ?_, holds.keys, valuesHold,
      holds.listed.put_old here obj⟩
    have known : d.values.includesKey i = true := by
      rw [ExtensibleArray.includesKey, holds.values.size]
      simp only [Bool.and_eq_true, decide_eq_true_eq]
      omega
    simp only [putAt, known, if_true, run, Option.bind_eq_bind, Option.bind_some]

omit [DecidableEq κ] in
theorem removeAt_run {α : Type} [Inhabited α] {es : ExtensibleArray α} {xs : List α}
    (holds : ExtensibleArray.Holds es f xs) {i : Nat} (inside : i < xs.length) :
    ∃ es', removeAt es i = some (es', xs[i]) ∧
      ExtensibleArray.Holds es' f (xs.eraseIdx i) := by
  have known : es.includesKey i = true := by
    rw [ExtensibleArray.includesKey, holds.size]
    simp only [Bool.and_eq_true, decide_eq_true_eq]
    omega
  rw [removeAt, if_pos known]
  exact holds.removeAt inside

theorem Holds.removeKey (holds : Holds d m f g ks vs) (key : Option κ) :
    ∃ d' ks' vs', d.removeKey key = some (d', m.map key) ∧
      Holds d' (m.remove key) f g ks' vs' := by
  rw [OrderedDictionary.removeKey]
  cases found : d.scanFor key with
  | none =>
    have missing := holds.scanFor_none found
    refine ⟨d, ks, vs, by rw [holds.listed.absent key missing], holds.keys, holds.values, ?_⟩
    rw [holds.listed.remove_absent missing]
    exact holds.listed
  | some i =>
    have here := holds.scanFor_some found
    obtain ⟨inside, _⟩ := List.getElem?_eq_some_iff.mp here
    have length := holds.listed.length
    obtain ⟨keys, runKeys, keysHold⟩ := removeAt_run holds.keys inside
    obtain ⟨values, runValues, valuesHold⟩ :=
      removeAt_run holds.values (show i < vs.length by omega)
    refine ⟨⟨keys, values⟩, _, _, ?_, keysHold, valuesHold, holds.listed.remove here⟩
    rw [holds.listed.there i key here, List.getElem?_eq_getElem (by omega)]
    simp only [runKeys, runValues, Option.bind_eq_bind, Option.bind_some]

omit [Inhabited β] in
theorem Holds.at? (holds : Holds d m f g ks vs) (i : κ) :
    d.at? (some i) = (d.scanFor (some i)).bind fun j => d.values.at? j := by
  rw [OrderedDictionary.at?, holds.atIfAbsent]
  cases found : d.scanFor (some i) with
  | none => rfl
  | some j =>
    rw [Option.bind_some, holds.values.at?]
    exact holds.listed.there j _ (holds.scanFor_some found)

omit [Inhabited β] in
theorem Holds.elementsDo (holds : Holds d m f g ks vs) :
    d.elementsDo integer = some m.values ↔ Spares integer d (.elementsDo : Op κ β) := by
  have length := holds.listed.length
  have size : d.size = vs.length := by
    rw [OrderedDictionary.size, holds.keys.size, length]
  have all : d.elementsDo integer =
      (List.range vs.length).mapM fun index => d.at? (some (integer index)) := by
    rw [OrderedDictionary.elementsDo, size, Int.toNat_natCast]
    split
    · next none_ =>
      rw [show vs.length = 0 by omega]
      rfl
    · rfl
  rw [all, holds.listed.values, Spares, size]
  constructor
  · intro visits i inside
    rw [Int.ofNat_lt] at inside
    have read := reads_range visits i inside
    rw [holds.at?, List.getElem?_eq_getElem inside, Option.bind_eq_some_iff] at read
    obtain ⟨j, found, value⟩ := read
    exact ⟨j, found, by rw [value, holds.values.at?, List.getElem?_eq_getElem inside]⟩
  · intro spares
    apply mapM_range
    intro i inside
    obtain ⟨j, found, same⟩ := spares i (Int.ofNat_lt.mpr inside)
    rw [holds.at?, found, Option.bind_some, same, holds.values.at?]

def Represents (d : OrderedDictionary κ β) (m : OrderedMap (Option κ) β) : Prop :=
  ∃ f g ks vs, Holds d m f g ks vs

omit [DecidableEq κ] [Inhabited β] in
theorem Holds.shows (holds : Holds d m f g ks vs) : Shows d m := by
  have order := holds.listed.order
  refine ⟨?_, ?_, ?_⟩
  · rw [order]
    exact holds.keys.size
  · rw [order]
    exact holds.listed.once
  · intro key
    rw [order]
    exact holds.listed.isSome.symm

theorem Represents.step (represents : Represents d m) (op : Op κ β) :
    Step (implementation integer) Represents d m op ↔ Spares integer d op := by
  obtain ⟨f, g, ks, vs, holds⟩ := represents
  cases op with
  | atPut key obj =>
    obtain ⟨d', f', g', ks', vs', run, after⟩ := holds.atPut key obj
    refine iff_of_true ⟨d', _, ?_, rfl, f', g', ks', vs', after⟩ trivial
    simp only [implementation, perform, run, Option.map_some]
    rfl
  | removeKey key =>
    obtain ⟨d', ks', vs', run, after⟩ := holds.removeKey key
    refine iff_of_true ⟨d', _, ?_, rfl, f, g, ks', vs', after⟩ trivial
    simp only [implementation, perform, run, Option.map_some]
    rfl
  | atIfAbsent key =>
    have lookup := holds.atIfAbsent key
    cases found : d.scanFor key with
    | none =>
      rw [found] at lookup
      refine iff_of_false ?_ fun spares => spares.2 found
      rintro ⟨d', a, run, _⟩
      simp only [implementation, perform, lookup] at run
      cases run
    | some i =>
      have here := holds.scanFor_some found
      rw [found] at lookup
      cases key with
      | none =>
        refine iff_of_false ?_ fun spares => spares.1 rfl
        rintro ⟨d', a, run, right, _⟩
        simp only [implementation, perform, lookup, Option.map_some, Option.some.injEq,
          Prod.mk.injEq] at run
        obtain ⟨_, rfl⟩ := run
        have there := holds.listed.isSome.mpr (List.mem_of_getElem? here)
        obtain ⟨obj, value⟩ := Option.isSome_iff_exists.mp there
        simp only [implementation, Op.answer, value] at right
        cases right
      | some key =>
        refine iff_of_true ⟨d, _, ?_, rfl, f, g, ks, vs, holds⟩ ⟨nofun, by rw [found]; nofun⟩
        simp only [implementation, perform, lookup, Option.map_some]
        rfl
  | keysDo =>
    refine iff_of_true ⟨d, _, ?_, rfl, f, g, ks, vs, holds⟩ trivial
    simp only [implementation, perform, OrderedDictionary.keysDo, visited_all holds.keys,
      Option.map_some]
    rw [← holds.listed.order]
    rfl
  | valuesDo =>
    refine iff_of_true ⟨d, _, ?_, rfl, f, g, ks, vs, holds⟩ trivial
    simp only [implementation, perform, OrderedDictionary.valuesDo, visited_all holds.values,
      Option.map_some]
    rw [← holds.listed.values]
    rfl
  | keysAndValuesDo =>
    refine iff_of_true ⟨d, _, ?_, rfl, f, g, ks, vs, holds⟩ trivial
    simp only [implementation, perform, holds.keysAndValuesDo, Option.map_some]
    rfl
  | elementsDo =>
    rw [← holds.elementsDo]
    constructor
    · rintro ⟨d', a, run, rfl, _⟩
      simp only [implementation, perform, Option.map_eq_some_iff] at run
      obtain ⟨values, visits, same⟩ := run
      cases same
      exact visits
    · intro visits
      refine ⟨d, _, ?_, rfl, f, g, ks, vs, holds⟩
      simp only [implementation, perform, visits, Option.map_some]
      rfl

theorem Represents.spares (represents : Represents d m) {op : Op κ β} {d' : OrderedDictionary κ β}
    {a : Answer κ β} (run : perform integer d op = some (d', a)) (right : a = op.answer m) :
    Spares integer d op := by
  cases op with
  | atIfAbsent key =>
    refine (represents.step _).mp ⟨d', a, run, right, ?_⟩
    simp only [perform, Option.map_eq_some_iff, Prod.mk.injEq] at run
    obtain ⟨_, _, rfl, _⟩ := run
    exact represents
  | elementsDo =>
    refine (represents.step _).mp ⟨d', a, run, right, ?_⟩
    simp only [perform, Option.map_eq_some_iff, Prod.mk.injEq] at run
    obtain ⟨_, _, rfl, _⟩ := run
    exact represents
  | _ => trivial

omit [DecidableEq κ] in
theorem represents_new (n : Nat) :
    Represents (new n : OrderedDictionary κ β) ⟨fun _ => none, []⟩ :=
  ⟨0, 0, [], [], holds_new n, holds_new n, listed_empty⟩

/-- An `OrderedDictionary` is the map with the order of its keys, on the runs whose steps spare the
defects; another step on a state of such a run does not end right. -/
theorem ordered_dictionary_refines (integer : Nat → κ) :
    Refines (implementation integer) (Spares integer) (@Shows κ β) ∧
      ∀ d m, Reached (implementation integer) (Spares integer) d m → ∀ (op : Op κ β) d' a,
        perform integer d op = some (d', a) → a = op.answer m → Spares integer d op := by
  have first : ∀ (d : OrderedDictionary κ β) m, (implementation integer).start d m →
      Represents d m := by
    rintro d m ⟨n, rfl, rfl⟩
    exact represents_new n
  constructor
  · apply Refines.of_steps Represents first
    · intro d m op represents spares
      exact (represents.step op).mpr spares
    · rintro d m ⟨f, g, ks, vs, holds⟩
      exact holds.shows
  · intro d m reached op d' a run right
    have represents : Represents d m := by
      apply reached.invariant first
      intro d m op d' a represents spares run
      obtain ⟨t, b, run', _, after⟩ := (represents.step op).mpr spares
      cases run.symm.trans run'
      exact after
    exact represents.spares run right

/-- A lookup of a key that is not there signals, as it is looked up at Nil. -/
theorem absent_lookup_signals : ¬ ∀ (κ β : Type) [DecidableEq κ] [Inhabited β] (integer : Nat → κ),
    Refines (implementation integer) (fun _ _ => True) (@Shows κ β) := by
  intro refines
  obtain ⟨d', a, run, _⟩ := (refines Nat Nat id (new 0) ⟨fun _ => none, []⟩
    (.start ⟨0, rfl, rfl⟩)).2 (.atIfAbsent (some 1)) trivial
  have signals : perform id (new 0 : OrderedDictionary Nat Nat) (.atIfAbsent (some 1)) = none := rfl
  cases signals.symm.trans run

end SlateVm.Collections.OrderedDictionary
