import SlateVm.Lib.Refinement
import SlateVm.Collections.Keyed

/-! `Set`: an array of elements with open addressing, and a flag for Nil. -/
namespace SlateVm.Collections

open Probing Slots

/-- The slots of `Set`; Nil in the array is `none`. -/
structure HashedSet (κ : Type) where
  tally : Int
  contents : List (Option κ)
  containsNil : Bool
deriving DecidableEq

namespace HashedSet

variable {κ : Type}

/-- `new &capacity:`, on the prototype, which does not contain Nil. -/
def new (n : Nat) : HashedSet κ := ⟨0, List.replicate (max n 1) none, false⟩

def size (c : HashedSet κ) : Int := c.tally + if c.containsNil then 1 else 0

/-- The index at which `scanFor:` starts. -/
def home (h : Hashing κ) (n : Nat) (obj : κ) : Nat := (h.hash obj % n).toNat

def scanFor (h : Hashing κ) (c : HashedSet κ) (obj : κ) : Option Nat :=
  search c.contents.length (stored c.contents) (fun element => h.equals element obj)
    (home h c.contents.length obj)

def noCheckAdd (h : Hashing κ) (c : HashedSet κ) : Option κ → Option (HashedSet κ)
  | none => some { c with containsNil := true }
  | some obj => do
    let index ← c.scanFor h obj
    some { c with contents := c.contents.set index (some obj), tally := c.tally + 1 }

def growBy (h : Hashing κ) (c : HashedSet κ) (growthAmount : Nat) : Option (HashedSet κ) :=
  c.contents.foldlM
    (fun c each => match each with
      | none => some c
      | some obj => c.noCheckAdd h (some obj))
    { c with contents := List.replicate (c.contents.length + growthAmount) none, tally := 0 }

def growSize (c : HashedSet κ) : Nat := max c.contents.length 4

def grow (h : Hashing κ) (c : HashedSet κ) : Option (HashedSet κ) := c.growBy h c.growSize

def fullCheck (h : Hashing κ) (c : HashedSet κ) : Option (HashedSet κ) :=
  if (c.contents.length : Int) - c.tally < max (c.contents.length / 4 : Nat) 1 then c.grow h
  else some c

def atNewIndex (h : Hashing κ) (c : HashedSet κ) (index : Nat) (obj : κ) :
    Option (HashedSet κ) :=
  fullCheck h { c with contents := c.contents.set index (some obj), tally := c.tally + 1 }

/-- `include:`, which `add:` calls. -/
def includeObj (h : Hashing κ) (c : HashedSet κ) : Option κ → Option (HashedSet κ)
  | none => some { c with containsNil := true }
  | some obj => do
    let index ← c.scanFor h obj
    match ← c.contents[index]? with
    | none => c.atNewIndex h index obj
    | some _ => some c

def swap (c : HashedSet κ) (index1 index2 : Nat) : HashedSet κ :=
  { c with contents := exchange c.contents index1 index2 }

def accessors (h : Hashing κ) : Accessors (HashedSet κ) κ where
  capacity c := c.contents.length
  keyAt c index := c.contents[index]?
  scanFor c := c.scanFor h
  swap := swap

/-- `fixCollisionsFrom:`; the loop ends before it has gone round twice. -/
def fixCollisionsFrom (h : Hashing κ) (c : HashedSet κ) (index : Nat) : Option (HashedSet κ) :=
  Collections.fixCollisionsFrom (accessors h) (2 * c.contents.length) c index

/-- `remove:ifAbsent:`; the answer tells whether the block was not run. -/
def remove (h : Hashing κ) (c : HashedSet κ) : Option κ → Option (HashedSet κ × Bool)
  | none =>
    if c.containsNil then some ({ c with containsNil := false }, true) else some (c, false)
  | some obj => do
    let index ← c.scanFor h obj
    match ← c.contents[index]? with
    | none => some (c, false)
    | some _ =>
      let c ← fixCollisionsFrom h
        { c with contents := c.contents.set index none, tally := c.tally - 1 } index
      some (c, true)

def includes (h : Hashing κ) (c : HashedSet κ) : Option κ → Option Bool
  | none => some c.containsNil
  | some obj =>
    match c.scanFor h obj with
    | none => some false
    | some index => (c.contents[index]?).map Option.isSome

/-- The elements that `do:` gives to its block, in order. -/
def visits (c : HashedSet κ) : List (Option κ) :=
  (if c.containsNil then [none] else []) ++
    if c.tally = 0 then [] else (c.contents.filterMap id).map some

inductive Op (κ : Type) where
  | includeObj (obj : Option κ)
  | remove (obj : Option κ)
  | includes (obj : Option κ)
  | doEach
  | growBy (growthAmount : Nat)

inductive Answer (κ : Type) where
  | done
  | removed (present : Bool)
  | truth (b : Bool)
  | visited (elements : List (Option κ))

def perform (h : Hashing κ) (c : HashedSet κ) : Op κ → Option (HashedSet κ × Answer κ)
  | .includeObj obj => (c.includeObj h obj).map (·, .done)
  | .remove obj => (c.remove h obj).map fun (c, present) => (c, .removed present)
  | .includes obj => (c.includes h obj).map (c, .truth ·)
  | .doEach => some (c, .visited c.visits)
  | .growBy n => (c.growBy h n).map (·, .done)

end HashedSet

end SlateVm.Collections

/-! Runs of `Set` operations beside the mathematical set they build. -/
namespace SlateVm.Collections.HashedSet

open Probing Slots Refinement

variable {κ : Type} {h : Hashing κ} {c : HashedSet κ} {p : κ → Prop} {m : Option κ → Bool}

def same (h : Hashing κ) : Option κ → Option κ → Bool
  | none, none => true
  | some a, some b => h.equals a b
  | _, _ => false

/-- The elements of `m`, each once. -/
def Enumerates (h : Hashing κ) (m : Option κ → Bool) (elements : List (Option κ)) : Prop :=
  (elements.Pairwise fun a b => same h a b = false) ∧
    ∀ o, m o = true ↔ ∃ e ∈ elements, same h e o = true

def Op.after (h : Hashing κ) (m : Option κ → Bool) : Op κ → Option κ → Bool
  | .includeObj obj => fun o => m o || same h obj o
  | .remove obj => fun o => m o && !same h obj o
  | .includes _ | .doEach | .growBy _ => m

def Right (h : Hashing κ) (m : Option κ → Bool) : Op κ → Answer κ → Prop
  | .remove obj, .removed present => present = m obj
  | .includes obj, .truth b => b = m obj
  | .doEach, .visited elements => Enumerates h m elements
  | .includeObj _, .done | .growBy _, .done => True
  | _, _ => False

/-- What a reached `Set` shows of the set it stands for. -/
structure Shows (h : Hashing κ) (c : HashedSet κ) (m : Option κ → Bool) : Prop where
  enumerates : Enumerates h m c.visits
  size : c.size = c.visits.length
  tally : c.tally = (c.visits.filterMap id).length
  absent : ∀ o, m o = false → c.perform h (.remove o) = some (c, .removed false)

def Spares (h : Hashing κ) (c : HashedSet κ) (op : Op κ) : Prop :=
  ∀ obj index element, op = .remove (some obj) → c.scanFor h obj = some index →
    stored c.contents index = some element →
    ¬ Strands c.contents.length (home h c.contents.length) (stored c.contents) index

def implementation (h : Hashing κ) : Implementation (HashedSet κ) (Option κ → Bool) (Op κ)
    (Answer κ) where
  start c m := ∃ n, c = new n ∧ m = fun _ => false
  perform := perform h
  next m op _ := op.after h m
  right := Right h

/-- The array holds the elements of `p`, and the tally counts them. -/
structure Packed (h : Hashing κ) (c : HashedSet κ) (p : κ → Prop) : Prop where
  keyed : Keyed h (home h c.contents.length) c.contents p
  tally : c.tally = (c.contents.filterMap id).length

/-- The state between operations, a quarter of the array free. -/
structure Represents (h : Hashing κ) (c : HashedSet κ) (m : Option κ → Bool) : Prop where
  packed : Packed h c fun a => m (some a) = true
  nil : m none = c.containsNil
  room : c.tally + max (c.contents.length / 4 : Nat) 1 ≤ c.contents.length

theorem homes {n : Nat} (positive : 0 < n) : Homes h n (home h n) := by
  constructor
  · intro a
    have low := Int.emod_nonneg (h.hash a) (b := n) (by omega)
    have high := Int.emod_lt_of_pos (h.hash a) (b := n) (by omega)
    unfold home
    omega
  · intro a b equal
    simp only [home, h.hash_eq a b equal]

theorem scanFor_eq (obj : κ) :
    c.scanFor h obj = scan h (home h c.contents.length) c.contents obj := by
  have test : (fun element => h.equals element obj) = h.equals obj := funext fun b => h.comm b obj
  simp only [scanFor, scan, test]

/-- What `noCheckAdd:` and the growth of the array leave as it was. -/
structure Extended (h : Hashing κ) (c c' : HashedSet κ) (p : κ → Prop) (length added : Nat) :
    Prop where
  packed : Packed h c' p
  length : c'.contents.length = length
  containsNil : c'.containsNil = c.containsNil
  tally : c'.tally = c.tally + added

theorem Packed.mono {q : κ → Prop} (packed : Packed h c p) (iff : ∀ a, p a ↔ q a) :
    Packed h c q := by
  have same : p = q := funext fun a => propext (iff a)
  exact same ▸ packed

theorem Packed.flag (packed : Packed h c p) (containsNil : Bool) :
    Packed h { c with containsNil := containsNil } p := ⟨packed.keyed, packed.tally⟩

theorem Packed.store (packed : Packed h c p) {obj : κ} {index : Nat} (missing : ¬ p obj)
    (found : scan h (home h c.contents.length) c.contents obj = some index)
    (empty : stored c.contents index = none) :
    Extended h c { c with contents := c.contents.set index (some obj), tally := c.tally + 1 }
      (fun a => p a ∨ h.equals obj a = true) c.contents.length 1 := by
  have facts := (search_eq_some (packed.keyed.homes.within obj)).mp found
  have vacant := (stored_of_lt facts.1).symm.trans empty
  have perm := picked_fill (f := id) facts.1 vacant (y := some obj) rfl
  constructor
  · constructor
    · simpa using packed.keyed.store missing found empty
    · have counted := perm.length_eq
      simp only [List.length_cons] at counted
      rw [packed.tally, counted]
      rfl
  · simp
  · rfl
  · rfl

theorem Packed.noCheckAdd (packed : Packed h c p) {obj : κ} (missing : ¬ p obj)
    (room : c.tally < c.contents.length) :
    ∃ c', c.noCheckAdd h (some obj) = some c' ∧
      Extended h c c' (fun a => p a ∨ h.equals obj a = true) c.contents.length 1 := by
  have counted := packed.tally
  obtain ⟨index, _, found, empty⟩ := packed.keyed.scan_absent obj missing (by omega)
  refine ⟨_, ?_, packed.store missing found empty⟩
  simp [HashedSet.noCheckAdd, scanFor_eq, found]

theorem Packed.addAll (packed : Packed h c p) (es : List (Option κ))
    (distinct : Distinct h (es.filterMap id)) (fresh : ∀ a ∈ es.filterMap id, ¬ p a)
    (room : c.tally + (es.filterMap id).length < c.contents.length) :
    ∃ c', es.foldlM (fun c each => match each with
        | none => some c
        | some obj => c.noCheckAdd h (some obj)) c = some c' ∧
      Extended h c c' (fun a => p a ∨ ∃ b ∈ es.filterMap id, h.equals b a = true)
        c.contents.length (es.filterMap id).length := by
  induction es generalizing c p with
  | nil => exact ⟨c, rfl, packed.mono (by simp), rfl, rfl, by simp⟩
  | cons e es ih =>
    cases e with
    | none =>
      obtain ⟨c', run, done⟩ := ih packed (by simpa using distinct) (by simpa using fresh)
        (by simpa using room)
      exact ⟨c', by simpa using run, by simpa using done⟩
    | some obj =>
      have items : (some obj :: es).filterMap id = obj :: es.filterMap id := rfl
      rw [items] at distinct fresh room
      have apart := List.pairwise_cons.mp distinct
      simp only [List.length_cons] at room
      obtain ⟨c₁, first, one⟩ := packed.noCheckAdd (fresh obj (List.mem_cons_self ..)) (by omega)
      have others : ∀ a ∈ es.filterMap id, ¬ (p a ∨ h.equals obj a = true) := by
        rintro a member (old | equal)
        · exact fresh a (List.mem_cons_of_mem _ member) old
        · rw [apart.1 a member] at equal
          cases equal
      obtain ⟨c', run, done⟩ := ih one.packed apart.2 others
        (by rw [one.tally, one.length]; omega)
      refine ⟨c', by simpa [first] using run, ?_⟩
      constructor
      · apply done.packed.mono
        intro a
        simp only [items, List.mem_cons, exists_eq_or_imp, or_assoc]
      · exact done.length.trans one.length
      · exact done.containsNil.trans one.containsNil
      · rw [done.tally, one.tally, items, List.length_cons]
        omega

theorem Packed.growBy (packed : Packed h c p) {n : Nat}
    (room : c.tally < (c.contents.length + n : Nat)) :
    ∃ c', c.growBy h n = some c' ∧ Extended h c c' p (c.contents.length + n) 0 := by
  have counted := packed.tally
  have positive : 0 < c.contents.length + n := by omega
  let blank : HashedSet κ :=
    { c with contents := List.replicate (c.contents.length + n) none, tally := 0 }
  have length : blank.contents.length = c.contents.length + n := by simp [blank]
  have start : Packed h blank fun _ => False := by
    constructor
    · rw [length]
      exact keyed_empty (homes positive)
    · simp [blank]
  obtain ⟨c', run, done⟩ := start.addAll c.contents packed.keyed.distinct (by simp)
    (by rw [length]; simp only [blank]; omega)
  refine ⟨c', run, ?_⟩
  constructor
  · apply done.packed.mono
    intro a
    simp only [false_or, packed.keyed.member]
  · exact done.length.trans length
  · exact done.containsNil
  · rw [done.tally, counted]
    simp [blank]

theorem represents_new (n : Nat) : Represents h (new n : HashedSet κ) fun _ => false := by
  have length : (new n : HashedSet κ).contents.length = max n 1 := by simp [new]
  constructor
  · constructor
    · rw [length]
      simpa [new] using keyed_empty (homes (h := h) (n := max n 1) (by omega))
    · simp [new]
  · rfl
  · rw [length]
    simp only [new]
    omega

theorem Packed.fullCheck (packed : Packed h c p) (fits : c.tally ≤ c.contents.length)
    (positive : 0 < c.contents.length) :
    ∃ c', c.fullCheck h = some c' ∧ Packed h c' p ∧ c'.containsNil = c.containsNil ∧
      c'.tally + max (c'.contents.length / 4 : Nat) 1 ≤ c'.contents.length := by
  unfold HashedSet.fullCheck
  split
  · obtain ⟨c', run, done⟩ := packed.growBy (n := c.growSize) (by simp only [growSize]; omega)
    refine ⟨c', run, done.packed, done.containsNil, ?_⟩
    rw [done.tally, done.length]
    simp only [growSize]
    omega
  · exact ⟨c, rfl, packed, rfl, by omega⟩

namespace Represents

variable (r : Represents h c m)
include r

theorem positive : 0 < c.contents.length := by
  have room := r.room
  have counted := r.packed.tally
  omega

theorem spare : (c.contents.filterMap id).length < c.contents.length := by
  have room := r.room
  have counted := r.packed.tally
  omega

theorem found (obj : κ) : ∃ i < c.contents.length, c.scanFor h obj = some i ∧
    (stored c.contents i).isSome = m (some obj) ∧
    ∀ b, stored c.contents i = some b → h.equals b obj = true := by
  rw [scanFor_eq]
  cases member : m (some obj) with
  | true =>
    obtain ⟨i, inside, b, found, here, equal⟩ := r.packed.keyed.scan_present obj member
    exact ⟨i, inside, found, by simp [here], fun b' there => by
      cases here.symm.trans there
      exact equal⟩
  | false =>
    obtain ⟨i, inside, found, here⟩ :=
      r.packed.keyed.scan_absent obj (by simp [member]) r.spare
    exact ⟨i, inside, found, by simp [here], by simp [here]⟩

theorem includes (obj : Option κ) : c.includes h obj = some (m obj) := by
  cases obj with
  | none => simp [HashedSet.includes, r.nil]
  | some obj =>
    obtain ⟨i, inside, scanned, present, _⟩ := r.found obj
    simp [HashedSet.includes, scanned, getElem?_of_lt inside, present]

theorem includeObj (obj : Option κ) :
    ∃ c', c.includeObj h obj = some c' ∧ Represents h c' fun o => m o || same h obj o := by
  cases obj with
  | none =>
    refine ⟨_, rfl, ?_, ?_, r.room⟩
    · apply (r.packed.flag true).mono
      simp [same]
    · simp [same]
  | some obj =>
    obtain ⟨i, inside, scanned, present, equal⟩ := r.found obj
    have slot := getElem?_of_lt inside
    cases here : stored c.contents i with
    | some b =>
      rw [here] at slot
      refine ⟨c, by simp [HashedSet.includeObj, scanned, slot], ?_, ?_, r.room⟩
      · apply r.packed.mono
        intro a
        simp only [same, Bool.or_eq_true, iff_self_or]
        intro also
        rw [r.packed.keyed.member]
        exact ⟨b, mem_live.mpr ⟨i, inside, here⟩, h.trans b obj a (equal b here) also⟩
      · simp [same, r.nil]
    | none =>
      have missing : ¬ m (some obj) = true := by simp [← present, here]
      rw [here] at slot
      rw [scanFor_eq] at scanned
      have more := r.packed.store missing scanned here
      have room := r.room
      obtain ⟨c', run, packed, nil, free⟩ := more.packed.fullCheck
        (by rw [more.tally, more.length]; omega) (by rw [more.length]; exact r.positive)
      refine ⟨c', ?_, ?_, ?_, free⟩
      · rw [← scanFor_eq] at scanned
        simpa [HashedSet.includeObj, scanned, slot, atNewIndex] using run
      · simpa [same] using packed
      · simp [same, r.nil, nil]

theorem growBy (n : Nat) : ∃ c', c.growBy h n = some c' ∧ Represents h c' m := by
  have room := r.room
  obtain ⟨c', run, done⟩ := r.packed.growBy (n := n) (by omega)
  refine ⟨c', run, done.packed, r.nil.trans done.containsNil.symm, ?_⟩
  rw [done.tally, done.length]
  omega

theorem remove_absent {obj : Option κ} (missing : m obj = false) :
    c.remove h obj = some (c, false) := by
  cases obj with
  | none => simp [HashedSet.remove, ← r.nil, missing]
  | some obj =>
    obtain ⟨i, inside, scanned, present, _⟩ := r.found obj
    have slot := getElem?_of_lt inside
    have empty : stored c.contents i = none := by simpa [missing] using present
    rw [empty] at slot
    simp [HashedSet.remove, scanned, slot]

end Represents

theorem lawful {n : Nat} (positive : 0 < n) :
    (accessors h).Lawful n h (home h n) (fun c : HashedSet κ => stored c.contents)
      fun c => c.contents.length = n := by
  constructor
  · exact (homes positive).within
  · intro c fits
    exact fits
  · intro c i fits inside
    exact getElem?_of_lt (by omega)
  · intro c a fits
    subst fits
    exact scanFor_eq a
  · intro c i j fits _ _
    simp [accessors, swap, fits]
  · intro c i j q fits hi hj
    exact stored_exchange (by omega) (by omega) q

def Kept (ks : List κ) (tally : Int) (containsNil : Bool) (c : HashedSet κ) : Prop :=
  (c.contents.filterMap id).Perm ks ∧ c.tally = tally ∧ c.containsNil = containsNil

theorem Kept.swap {ks : List κ} {tally : Int} {containsNil : Bool}
    (kept : Kept ks tally containsNil c) {i j : Nat} (hi : i < c.contents.length)
    (hj : j < c.contents.length) : Kept ks tally containsNil (c.swap i j) :=
  ⟨((exchange_perm hi hj).filterMap id).trans kept.1, kept.2⟩

theorem Represents.remove_present (r : Represents h c m) {obj : κ} (member : m (some obj) = true)
    (spares : Spares h c (.remove (some obj))) :
    ∃ c', c.remove h (some obj) = some (c', true) ∧
      Represents h c' fun o => m o && !same h (some obj) o := by
  obtain ⟨index, inside, scanned, present, equal⟩ := r.found obj
  obtain ⟨b, here⟩ := Option.isSome_iff_exists.mp (present.trans member)
  have slot := getElem?_of_lt inside
  rw [here] at slot
  have taken := (stored_of_lt inside).symm.trans here
  have perm := picked_clear (f := id) inside taken (y := none) rfl
  let cleared : HashedSet κ :=
    { c with contents := c.contents.set index none, tally := c.tally - 1 }
  have length : cleared.contents.length = c.contents.length := by simp [cleared]
  have emptied : Emptied c.contents.length (stored c.contents) (stored cleared.contents) index := by
    constructor
    · exact inside
    · simp [cleared, stored_set inside]
    · intro j off
      simp [cleared, stored_set inside, off]
  obtain ⟨e, he, empty⟩ := exists_empty r.spare
  have other : e ≠ index := fun clash => by simp [clash, here] at empty
  obtain ⟨c', run, closed⟩ := fix_removed
    (Kept (cleared.contents.filterMap id) cleared.tally cleared.containsNil)
    (lawful r.positive) (t := cleared)
    (fun t i j fits kept hi hj => kept.swap (by omega) (by omega)) length
    ⟨List.Perm.refl _, rfl, rfl⟩ r.packed.keyed.seated r.packed.keyed.lone emptied he other empty
    (spares obj index b rfl scanned here)
  obtain ⟨same_items, tally, flag⟩ := closed.kept
  have fits : c'.contents.length = c.contents.length := closed.fits
  have all := perm.trans (List.Perm.cons b same_items.symm)
  have counted := all.length_eq
  have before := r.packed.tally
  have room := r.room
  simp only [List.length_cons] at counted
  refine ⟨c', ?_, ⟨⟨?_, ?_, ?_, ?_⟩, ?_⟩, ?_, ?_⟩
  · have walk : fixCollisionsFrom h
        { c with contents := c.contents.set index none, tally := c.tally - 1 } index =
        some c' := by
      unfold fixCollisionsFrom
      simpa using run
    simp [HashedSet.remove, scanned, slot, walk]
  · rw [fits]
    exact homes r.positive
  · rw [fits]
    exact closed.seated
  · rw [fits]
    exact closed.lone
  · intro a
    rw [← r.packed.keyed.without (equal b here) all a]
    simp [same]
  · rw [tally]
    simp only [cleared]
    omega
  · rw [flag]
    simp [same, r.nil, cleared]
  · rw [tally, fits]
    simp only [cleared]
    omega

theorem Represents.remove_nil (r : Represents h c m) (member : m none = true) :
    ∃ c', c.remove h none = some (c', true) ∧
      Represents h c' fun o => m o && !same h none o := by
  have flagged : c.containsNil = true := r.nil.symm.trans member
  refine ⟨{ c with containsNil := false }, by simp [HashedSet.remove, flagged], ?_, ?_, r.room⟩
  · apply (r.packed.flag false).mono
    simp [same]
  · simp [same]

theorem Represents.visits (r : Represents h c m) :
    c.visits = (if c.containsNil then [none] else []) ++ (c.contents.filterMap id).map some := by
  unfold HashedSet.visits
  rcases Decidable.em (c.tally = 0) with zero | live
  · have none_left : c.contents.filterMap id = [] := by
      apply List.eq_nil_of_length_eq_zero
      have counted := r.packed.tally
      omega
    rw [if_pos zero, none_left, List.map_nil]
  · rw [if_neg live]

theorem Represents.visited (r : Represents h c m) :
    c.visits.filterMap id = c.contents.filterMap id := by
  rw [r.visits, List.filterMap_append, List.filterMap_map]
  split <;> simp

theorem Represents.enumerates (r : Represents h c m) : Enumerates h m c.visits := by
  rw [r.visits]
  constructor
  · rw [List.pairwise_append]
    refine ⟨by split <;> simp, ?_, ?_⟩
    · rw [List.pairwise_map]
      exact r.packed.keyed.distinct
    · intro a first b second
      obtain ⟨b', _, rfl⟩ := List.mem_map.mp second
      split at first
      · simp only [List.mem_singleton] at first
        subst first
        rfl
      · cases first
  · intro o
    cases o with
    | none =>
      rw [r.nil]
      cases c.containsNil <;> simp [same]
    | some a =>
      rw [r.packed.keyed.member]
      cases c.containsNil <;> simp [same]

theorem Represents.shows (r : Represents h c m) : Shows h c m := by
  have counted := r.packed.tally
  constructor
  · exact r.enumerates
  · rw [r.visits, size, counted]
    cases c.containsNil <;> simp [Int.add_comm]
  · rw [r.visited, counted]
  · intro o missing
    simp [perform, r.remove_absent missing]

theorem Op.after_absent {o : Option κ} (resp : ∀ a b, same h a b = true → m a = m b)
    (missing : m o = false) : (Op.remove o).after h m = m := by
  funext x
  cases equal : same h o x with
  | false => simp [Op.after, equal]
  | true => simp [Op.after, equal, ← resp o x equal, missing]

theorem Represents.respects (r : Represents h c m) (a b : Option κ) (equal : same h a b = true) :
    m a = m b := by
  cases a with
  | none =>
    cases b with
    | none => rfl
    | some b => cases equal
  | some a =>
    cases b with
    | none => cases equal
    | some b =>
      have both : m (some a) = true ↔ m (some b) = true := by
        rw [r.packed.keyed.member, r.packed.keyed.member]
        constructor
        · rintro ⟨e, live, first⟩
          exact ⟨e, live, h.trans e a b first equal⟩
        · rintro ⟨e, live, first⟩
          exact ⟨e, live, h.trans e b a first (h.symm a b equal)⟩
      exact Bool.eq_iff_iff.mpr both

theorem Represents.step (r : Represents h c m) (op : Op κ) (spares : Spares h c op) :
    Step (implementation h) (Represents h) c m op := by
  cases op with
  | includeObj obj =>
    obtain ⟨c', run, after⟩ := r.includeObj obj
    exact ⟨c', .done, by simp [implementation, perform, run], trivial, after⟩
  | remove obj =>
    cases member : m obj with
    | false =>
      have gone := r.remove_absent member
      refine ⟨c, .removed false, by simp [implementation, perform, gone], member.symm, ?_⟩
      simp only [implementation, Op.after_absent r.respects member]
      exact r
    | true =>
      have removed : ∃ c', c.remove h obj = some (c', true) ∧
          Represents h c' fun o => m o && !same h obj o := by
        cases obj with
        | none => exact r.remove_nil member
        | some obj => exact r.remove_present member spares
      obtain ⟨c', run, after⟩ := removed
      exact ⟨c', .removed true, by simp [implementation, perform, run], member.symm, after⟩
  | includes obj =>
    exact ⟨c, .truth (m obj), by simp [implementation, perform, r.includes obj], rfl, r⟩
  | doEach => exact ⟨c, .visited c.visits, rfl, r.enumerates, r⟩
  | growBy n =>
    obtain ⟨c', run, after⟩ := r.growBy n
    exact ⟨c', .done, by simp [implementation, perform, run], trivial, after⟩

/-- A `Set` is the mathematical set that its operations build, as long as no removal strands
the element at index 0. -/
theorem set_refines (h : Hashing κ) : Refines (implementation h) (Spares h) (Shows h) := by
  apply Refines.of_steps (Represents h)
  · rintro c m ⟨n, rfl, rfl⟩
    exact represents_new n
  · intro c m op r spares
    exact r.step op spares
  · intro c m r
    exact r.shows

/-- 9 and 19 have the last of ten slots as their home, so 19 lies at index 0; the walk after
the removal of 9 goes on at index 1, and 19 is not found any more. -/
theorem removal_hides_element :
    ¬ ∀ (κ : Type) (h : Hashing κ), Refines (implementation h) (fun _ _ => True) (Shows h) := by
  intro refines
  apply Refines.not_of_answer (i := implementation numbers) (s := new 10) (m := fun _ => false)
    ⟨10, rfl, rfl⟩ [.includeObj (some 9), .includeObj (some 19), .remove (some 9)]
    (.includes (some 19)) (fun m a => match a with | .truth b => b == m (some 19) | _ => false)
    (by decide +kernel) _ (refines Nat numbers)
  intro m a right
  cases a with
  | truth b => exact beq_iff_eq.mpr right
  | done | removed | visited => cases right

end SlateVm.Collections.HashedSet
