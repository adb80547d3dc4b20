import SlateVm.Collections.ArrayRefines
import SlateVm.Collections.Sorting

/-! `SortedArray`: an `ExtensibleArray` that keeps its elements in the order of a sort block
and finds places in it by bisection. -/
namespace SlateVm.Collections.SortedArray

variable {α : Type} (r : SortOrder α)

section Bisection

variable (obj : α) (contents : List α)

/-- The loop of `indexForInserting:`, with a bound on its rounds. -/
def insertionFrom : Nat → Int → Int → Option Int
  | rounds, low, high =>
    if low > high then some low
    else match rounds with
      | 0 => none
      | rounds + 1 => do
        let index := (high + low) / 2
        let each ← arrayAt contents index
        if r.before each obj then insertionFrom rounds (index + 1) high
        else insertionFrom rounds low (index - 1)

/-- The loop of `indexOf:startingAt:ifAbsent:`, which answers an index into the contents
array; an inner `none` says that the block was run. -/
def searchFrom : Nat → Int → Int → Option (Option Int)
  | rounds, low, high =>
    if low > high then some none
    else match rounds with
      | 0 => none
      | rounds + 1 => do
        let index := (high + low) / 2
        let each ← arrayAt contents index
        if r.equals each obj then some (some index)
        else if r.before each obj then searchFrom rounds (index + 1) high
        else searchFrom rounds low (index - 1)

end Bisection

def indexForInserting (es : ExtensibleArray α) (obj : α) : Option Int := do
  let low ← insertionFrom r obj es.contents es.size.toNat es.firstIndex es.lastIndex
  some (low - es.firstIndex)

def indexOfStartingAt (es : ExtensibleArray α) (obj : α) (start : Int) : Option (Option Int) :=
  searchFrom r obj es.contents es.size.toNat (es.firstIndex + start) es.lastIndex

def indexOf (es : ExtensibleArray α) (obj : α) : Option (Option Int) := indexOfStartingAt r es obj 0

def includes (es : ExtensibleArray α) (obj : α) : Option Bool := do
  match ← indexOf r es obj with
  | none => some false
  | some index => some (decide (0 < index))

variable [Inhabited α]

/-- `at:insert:` of `ExtensibleArray`, at the index for inserting. -/
def add (es : ExtensibleArray α) (obj : α) : Option (ExtensibleArray α) := do
  let index ← indexForInserting r es obj
  if es.refusesGap index then none else es.atInsert index obj

/-- `addLast:`; an inner `none` stands for a sort violation. -/
def addLast (es : ExtensibleArray α) (obj : α) : Option (Option (ExtensibleArray α)) :=
  if es.size = 0 then (es.addLast obj).map some
  else do
    let last ← es.at? (es.size - 1)
    if r.before last obj then (es.addLast obj).map some else some none

def addFirst (es : ExtensibleArray α) (obj : α) : Option (Option (ExtensibleArray α)) :=
  if es.size = 0 then (es.addFirst obj).map some
  else do
    let first ← es.at? 0
    if r.before obj first then (es.addFirst obj).map some else some none

def reSort (es : ExtensibleArray α) : Option (ExtensibleArray α) := do
  let contents ←
    sortFrom r.before es.size.toNat es.contents es.firstIndex.toNat es.lastIndex.toNat
  some { es with contents := contents }

/-- `addAll:`, for a collection other than the array itself. -/
def addAll (es : ExtensibleArray α) (col : List α) : Option (ExtensibleArray α) :=
  if (col.length : Int) > es.size / 3 then do
    let es ← col.foldlM ExtensibleArray.addLast es
    reSort r es
  else col.foldlM (add r) es

inductive Reply (α : Type) where
  | object (obj : α)
  | objects (objs : List α)
  | index (index : Int)
  | nothing
  | signalled

structure Answer (α : Type) where
  reply : Reply α
  took : Option α

def removed (es : ExtensibleArray α) (obj : α) : Option α :=
  ((upTo es.firstIndex es.lastIndex).find? fun index =>
    (arrayAt es.contents index).any fun each => r.equals obj each).bind (arrayAt es.contents)

/-- `addFirst:` and `addLast:` either store their argument or leave the array as it is. -/
def stored (es : ExtensibleArray α) (obj : α) (added : Option (ExtensibleArray α)) :
    ExtensibleArray α × Answer α :=
  match added with
  | none => (es, ⟨.signalled, none⟩)
  | some es => (es, ⟨.object obj, none⟩)

/-- `replaceNextLargerWith:` at an index behind the last one. -/
def appended (es : ExtensibleArray α) (added : Option (ExtensibleArray α)) :
    ExtensibleArray α × Answer α :=
  match added with
  | none => (es, ⟨.signalled, none⟩)
  | some es => (es, ⟨.index (es.size - 1), none⟩)

def replaceAt (es : ExtensibleArray α) (obj : α) (index : Int) :
    Option (ExtensibleArray α × Answer α) := do
  let old ← es.at? index
  if r.equals old obj then some (es, ⟨.nothing, none⟩)
  else do
    let contents ← arrayPut es.contents (index + es.firstIndex) obj
    some ({ es with contents := contents }, ⟨.index index, some old⟩)

def replaceNextLargerWith (es : ExtensibleArray α) (obj : α) :
    Option (ExtensibleArray α × Answer α) := do
  let index ← indexForInserting r es obj
  if index > es.size - 1 then (addLast r es obj).map (appended es)
  else replaceAt r es obj index

inductive Op (α : Type) where
  | add (obj : α)
  | addAll (col : List α)
  | addFirst (obj : α)
  | addLast (obj : α)
  | remove (obj : α)
  | replaceNextLargerWith (obj : α)

def perform (es : ExtensibleArray α) : Op α → Option (ExtensibleArray α × Answer α)
  | .add obj => (add r es obj).map (·, ⟨.object obj, none⟩)
  | .addAll col => (addAll r es col).map (·, ⟨.objects col, none⟩)
  | .addFirst obj => (addFirst r es obj).map (stored es obj)
  | .addLast obj => (addLast r es obj).map (stored es obj)
  | .remove obj => (es.remove r.equals obj).map fun found =>
    match found with
    | none => (es, ⟨.nothing, none⟩)
    | some shorter => (shorter, ⟨.object obj, removed r es obj⟩)
  | .replaceNextLargerWith obj => replaceNextLargerWith r es obj

end SlateVm.Collections.SortedArray

/-! The two bisections of `SortedArray` on elements that are in order. -/
namespace SlateVm.Collections.SortedArray

open ExtensibleArray (Holds)

variable {α : Type} {r : SortOrder α} {es : ExtensibleArray α} {xs : List α} {obj : α} {f : Nat}

/-- The places before `k` hold the elements that come before an object, those from there on
the elements that do not. -/
structure Cut (r : SortOrder α) (xs : List α) (obj : α) (k : Nat) : Prop where
  inside : k ≤ xs.length
  front : ∀ i x, i < k → xs[i]? = some x → r.before x obj = true
  back : ∀ i x, k ≤ i → xs[i]? = some x → r.before x obj = false

/-- The places that halving the places from `lo` to below `hi` goes through before it comes
to the place `k`. -/
def halvings (k lo hi : Nat) : List Nat :=
  if lo < hi then
    let mid := (lo + hi - 1) / 2
    if mid < k then mid :: halvings k (mid + 1) hi
    else if k < mid then mid :: halvings k lo mid
    else []
  else []
termination_by hi - lo

/-- Nothing on the way to the place `k` is equal to the object or, behind `k`, comes before
it. -/
def Open (r : SortOrder α) (xs : List α) (obj : α) (k lo hi : Nat) : Prop :=
  ∀ mid ∈ halvings k lo hi, ∀ x, xs[mid]? = some x →
    r.equals x obj = false ∧ (k < mid → r.before x obj = false)

theorem pairwise_at {i j : Nat} {x y : α} (sorted : xs.Pairwise (r.before · · = true))
    (later : i ≤ j) (first : xs[i]? = some x) (second : xs[j]? = some y) :
    r.before x y = true := by
  obtain ⟨hi, rfl⟩ := List.getElem?_eq_some_iff.mp first
  obtain ⟨hj, rfl⟩ := List.getElem?_eq_some_iff.mp second
  rcases Nat.eq_or_lt_of_le later with rfl | strict
  · exact r.alike _ _ (r.refl _)
  · exact List.pairwise_iff_getElem.mp sorted i j hi hj strict

theorem middle {lo hi : Nat} {low high : Int} (first : low = f + lo) (last : high = f + hi - 1)
    (more : lo < hi) : (high + low) / 2 = ((f + (lo + hi - 1) / 2 : Nat) : Int) := by
  subst first last
  omega

theorem Holds.reads (holds : Holds es f xs) {i : Nat} {x : α} (here : xs[i]? = some x) :
    arrayAt es.contents ((f + i : Nat) : Int) = some x := by
  have inside := (List.getElem?_eq_some_iff.mp here).1
  rw [arrayAt_nat, holds.items i inside, here]

theorem insertionFrom_cuts (holds : Holds es f xs) (sorted : xs.Pairwise (r.before · · = true))
    {rounds lo hi : Nat} {low high : Int} (first : low = f + lo) (last : high = f + hi - 1)
    (forward : lo ≤ hi) (within : hi ≤ xs.length) (enough : hi ≤ lo + rounds)
    (front : ∀ i x, i < lo → xs[i]? = some x → r.before x obj = true)
    (back : ∀ i x, hi ≤ i → xs[i]? = some x → r.before x obj = false) :
    ∃ k, insertionFrom r obj es.contents rounds low high = some ((f + k : Nat) : Int) ∧
      Cut r xs obj k := by
  induction rounds generalizing lo hi low high with
  | zero =>
    have met : lo = hi := by omega
    subst met
    refine ⟨lo, ?_, within, front, back⟩
    unfold insertionFrom
    rw [if_pos (by omega), first]
    rfl
  | succ rounds ih =>
    unfold insertionFrom
    rcases Nat.eq_or_lt_of_le forward with rfl | open_
    · refine ⟨lo, ?_, within, front, back⟩
      rw [if_pos (by omega), first]
      rfl
    · rw [if_neg (by omega)]
      have half := middle first last open_
      generalize place : (lo + hi - 1) / 2 = mid at half
      have inside : mid < xs.length := by omega
      have here : xs[mid]? = some xs[mid] := List.getElem?_eq_getElem inside
      simp only [half, Holds.reads holds here, Option.bind_eq_bind, Option.bind_some]
      cases earlier : r.before xs[mid] obj with
      | true =>
        apply @ih (mid + 1) hi _ _ (by omega) last (by omega) within (by omega) _ back
        intro i x before there
        exact r.trans _ _ _ (pairwise_at sorted (by omega) there here) earlier
      | false =>
        apply @ih lo mid _ _ first (by omega) (by omega) (by omega) (by omega) front
        intro i x behind there
        cases later : r.before x obj with
        | false => rfl
        | true =>
          have above := pairwise_at sorted behind here there
          exact absurd (r.trans _ _ _ above later) (by simp [earlier])

theorem indexForInserting_cuts (holds : Holds es f xs)
    (sorted : xs.Pairwise (r.before · · = true)) (obj : α) :
    ∃ k : Nat, indexForInserting r es obj = some (k : Int) ∧ Cut r xs obj k := by
  have size := holds.size
  have firstIndex := holds.first
  obtain ⟨k, run, cut⟩ := @insertionFrom_cuts α r es xs obj f holds sorted es.size.toNat 0 xs.length
    es.firstIndex es.lastIndex (by omega) holds.last (Nat.zero_le _) (Nat.le_refl _) (by omega)
    (by omega) (by
      intro i x behind there
      have inside := (List.getElem?_eq_some_iff.mp there).1
      omega)
  refine ⟨k, ?_, cut⟩
  simp only [indexForInserting, run, Option.bind_eq_bind, Option.bind_some]
  congr 1
  omega

section Open

variable {k mid lo hi : Nat} (more : lo < hi) (half : (lo + hi - 1) / 2 = mid)
include more half

theorem open_here : Open r xs obj mid lo hi := by
  intro place way
  rw [halvings, if_pos more] at way
  simp [half] at way

theorem open_up {x : α} (before : mid < k) (here : xs[mid]? = some x) :
    Open r xs obj k lo hi ↔ r.equals x obj = false ∧ Open r xs obj k (mid + 1) hi := by
  unfold Open
  rw [halvings, if_pos more]
  simp only [half, if_pos before, List.mem_cons, forall_eq_or_imp]
  constructor
  · rintro ⟨first, rest⟩
    exact ⟨(first x here).1, rest⟩
  · rintro ⟨differs, rest⟩
    refine ⟨fun y there => ?_, rest⟩
    cases here.symm.trans there
    exact ⟨differs, fun behind => by omega⟩

theorem open_down {x : α} (behind : k < mid) (here : xs[mid]? = some x) :
    Open r xs obj k lo hi ↔
      (r.equals x obj = false ∧ r.before x obj = false) ∧ Open r xs obj k lo mid := by
  unfold Open
  rw [halvings, if_pos more]
  simp only [half, if_neg (Nat.not_lt_of_gt behind), if_pos behind, List.mem_cons,
    forall_eq_or_imp]
  constructor
  · rintro ⟨first, rest⟩
    obtain ⟨differs, later⟩ := first x here
    exact ⟨⟨differs, later behind⟩, rest⟩
  · rintro ⟨⟨differs, later⟩, rest⟩
    refine ⟨fun y there => ?_, rest⟩
    cases here.symm.trans there
    exact ⟨differs, fun _ => later⟩

end Open

theorem searchFrom_finds (holds : Holds es f xs) (sorted : xs.Pairwise (r.before · · = true))
    {rounds lo hi : Nat} {low high : Int} (first : low = f + lo) (last : high = f + hi - 1)
    (forward : lo ≤ hi) (within : hi ≤ xs.length) (enough : hi ≤ lo + rounds) :
    ∃ found : Option Nat, searchFrom r obj es.contents rounds low high =
        some (found.map fun k => ((f + k : Nat) : Int)) ∧
      ∀ k, found = some k ↔ (lo ≤ k ∧ k < hi) ∧
        (∃ x, xs[k]? = some x ∧ r.equals x obj = true) ∧ Open r xs obj k lo hi := by
  induction rounds generalizing lo hi low high with
  | zero =>
    refine ⟨none, ?_, ?_⟩
    · unfold searchFrom
      rw [if_pos (by omega)]
      rfl
    · intro k
      simp only [reduceCtorEq, false_iff]
      omega
  | succ rounds ih =>
    unfold searchFrom
    rcases Nat.eq_or_lt_of_le forward with rfl | open_
    · refine ⟨none, ?_, ?_⟩
      · rw [if_pos (by omega)]
        rfl
      · intro k
        simp only [reduceCtorEq, false_iff]
        omega
    · rw [if_neg (by omega)]
      have half := middle first last open_
      generalize place : (lo + hi - 1) / 2 = mid at half
      have inside : mid < xs.length := by omega
      have here : xs[mid]? = some xs[mid] := List.getElem?_eq_getElem inside
      simp only [half, Holds.reads holds here, Option.bind_eq_bind, Option.bind_some]
      cases same : r.equals xs[mid] obj with
      | true =>
        refine ⟨some mid, rfl, fun k => ?_⟩
        constructor
        · intro found
          cases found
          exact ⟨⟨by omega, by omega⟩, ⟨_, here, same⟩, open_here open_ place⟩
        · rintro ⟨_, _, way⟩
          rcases Nat.lt_trichotomy mid k with up | rfl | down
          · simp [((open_up open_ place up here).mp way).1] at same
          · rfl
          · simp [((open_down open_ place down here).mp way).1.1] at same
      | false =>
        cases earlier : r.before xs[mid] obj with
        | true =>
          obtain ⟨found, run, spec⟩ :=
            @ih (mid + 1) hi (((f + mid : Nat) : Int) + 1) high (by omega) last (by omega) within
              (by omega)
          refine ⟨found, run, fun k => (spec k).trans ?_⟩
          constructor
          · rintro ⟨⟨up, below⟩, hit, way⟩
            exact ⟨⟨by omega, below⟩, hit, (open_up open_ place up here).mpr ⟨same, way⟩⟩
          · rintro ⟨⟨_, below⟩, ⟨x, there, equal⟩, way⟩
            rcases Nat.lt_trichotomy mid k with up | rfl | down
            · exact ⟨⟨up, below⟩, ⟨x, there, equal⟩, ((open_up open_ place up here).mp way).2⟩
            · cases here.symm.trans there
              simp [same] at equal
            · simp [((open_down open_ place down here).mp way).1.2] at earlier
        | false =>
          obtain ⟨found, run, spec⟩ :=
            @ih lo mid low (((f + mid : Nat) : Int) - 1) first (by omega) (by omega) (by omega)
              (by omega)
          refine ⟨found, run, fun k => (spec k).trans ?_⟩
          constructor
          · rintro ⟨⟨above, down⟩, hit, way⟩
            exact ⟨⟨above, by omega⟩, hit,
              (open_down open_ place down here).mpr ⟨⟨same, earlier⟩, way⟩⟩
          · rintro ⟨⟨above, below⟩, ⟨x, there, equal⟩, way⟩
            rcases Nat.lt_trichotomy mid k with up | rfl | down
            · have order := pairwise_at sorted (Nat.le_of_lt up) here there
              exact absurd (r.trans _ _ _ order (r.alike _ _ equal)) (by simp [earlier])
            · cases here.symm.trans there
              simp [same] at equal
            · exact ⟨⟨above, down⟩, ⟨x, there, equal⟩, ((open_down open_ place down here).mp way).2⟩

theorem indexOf_finds (holds : Holds es f xs) (sorted : xs.Pairwise (r.before · · = true))
    (obj : α) :
    ∃ found : Option Nat, indexOf r es obj = some (found.map fun k => ((f + k : Nat) : Int)) ∧
      ∀ k, found = some k ↔
        (∃ x, xs[k]? = some x ∧ r.equals x obj = true) ∧ Open r xs obj k 0 xs.length := by
  have size := holds.size
  have first := holds.first
  obtain ⟨found, run, spec⟩ := @searchFrom_finds α r es xs obj f holds sorted es.size.toNat 0
    xs.length (es.firstIndex + 0) es.lastIndex (by omega) holds.last (Nat.zero_le _)
    (Nat.le_refl _) (by omega)
  refine ⟨found, run, fun k => (spec k).trans ?_⟩
  constructor
  · rintro ⟨_, hit, way⟩
    exact ⟨hit, way⟩
  · rintro ⟨⟨x, there, equal⟩, way⟩
    have inside := (List.getElem?_eq_some_iff.mp there).1
    exact ⟨⟨Nat.zero_le _, inside⟩, ⟨x, there, equal⟩, way⟩

end SlateVm.Collections.SortedArray
