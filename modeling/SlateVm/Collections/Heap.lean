import SlateVm.Collections.ArrayRefines
import SlateVm.Collections.Sorting

/-! `Heap`: an `ExtensibleArray` whose elements are kept in heap order by sifting them up
and down. -/
namespace SlateVm.Collections.Heap

open Refinement
open ExtensibleArray (Holds)

variable {α : Type} [Inhabited α] {r : SortOrder α}

abbrev Outcome (α : Type) (β : Type) := Except (ExtensibleArray α) β

def access {β : Type} (h : ExtensibleArray α) (found : Option β) : Outcome α β :=
  match found with
  | none => .error h
  | some b => .ok b

def contentsAt (h : ExtensibleArray α) (index : Int) : Outcome α α :=
  access h (arrayAt h.contents index)

def contentsPut (h : ExtensibleArray α) (index : Int) (obj : α) :
    Outcome α (ExtensibleArray α) := do
  let contents ← access h (arrayPut h.contents index obj)
  return { h with contents := contents }

/-- `h sorts: a before: b` with the elements at two places. -/
def sortsPlaces (r : SortOrder α) (h : ExtensibleArray α) (a b : Int) : Outcome α Bool := do
  return r.before (← contentsAt h a) (← contentsAt h b)

/-- The first test of `checkUpFrom:`'s loop, for an index above the first one. -/
def belowParent (r : SortOrder α) (h : ExtensibleArray α) (k : Int) : Outcome α Bool :=
  if k > 1 then sortsPlaces r h k (k / 2) else .ok false

/-- `checkUpFrom:`. Both the body of the loop and the line behind it send `array`, which
nothing defines. -/
def checkUpFrom (r : SortOrder α) (h : ExtensibleArray α) (index : Int) :
    Outcome α (ExtensibleArray α) :=
  if index ≤ h.firstIndex then .ok h
  else do
    let _ ← contentsAt h index
    let _ ← belowParent r h index
    .error h

def child (r : SortOrder α) (h : ExtensibleArray α) (k : Int) : Outcome α Int :=
  let j := k + k
  if j < h.lastIndex then do
    return if ← sortsPlaces r h (j + 1) j then j + 1 else j
  else .ok j

/-- The loop of `checkDownSingle:`, with a bound on its rounds. -/
def sink (r : SortOrder α) (h : ExtensibleArray α) (n : Int) :
    Nat → Int → Outcome α (ExtensibleArray α × Int)
  | 0, _ => .error h
  | rounds + 1, k =>
    if k ≤ n then do
      let j ← child r h k
      let h ← contentsPut h k (← contentsAt h j)
      sink r h n rounds j
    else .ok (h, k)

def checkDownSingle (r : SortOrder α) (h : ExtensibleArray α) (index : Int) :
    Outcome α (ExtensibleArray α) :=
  if index ≤ h.firstIndex then .ok h
  else do
    let value ← contentsAt h index
    let (h, k) ← sink r h (h.lastIndex / 2) (h.lastIndex.toNat + 1) index
    let h ← contentsPut h k value
    checkUpFrom r h k

def settle (r : SortOrder α) (h : ExtensibleArray α) (index : Int) :
    Outcome α (ExtensibleArray α) :=
  if index > h.lastIndex then .ok h else checkDownSingle r h index

def removeAt (r : SortOrder α) (h : ExtensibleArray α) (index : Int) :
    Outcome α (ExtensibleArray α × α) := do
  let removed ← contentsAt h index
  let h ← contentsPut h index (← contentsAt h h.lastIndex)
  let h ← contentsPut h h.lastIndex default
  let h ← settle r { h with lastIndex := h.lastIndex - 1 } index
  return (h, removed)

def roomed (h : ExtensibleArray α) : Outcome α (ExtensibleArray α) :=
  if h.size ≥ h.capacity then access h (h.growLast none) else .ok h

/-- `add:`. The element is stored before it is compared with its parents. -/
def add (r : SortOrder α) (h : ExtensibleArray α) (obj : α) : Outcome α (ExtensibleArray α) := do
  let h ← roomed h
  let h ← contentsPut { h with lastIndex := h.lastIndex + 1 } (h.lastIndex + 1) obj
  checkUpFrom r h h.lastIndex

def removeFirst (r : SortOrder α) (h : ExtensibleArray α) : Outcome α (ExtensibleArray α × α) :=
  removeAt r h 0

/-- `remove:ifAbsent:`; `none` says that the block was run. -/
def remove (r : SortOrder α) (h : ExtensibleArray α) (obj : α) :
    Outcome α (Option (ExtensibleArray α × α)) :=
  if h.size = 0 then .ok none
  else
    match (fromTo h.firstIndex h.lastIndex).find? fun index =>
        (arrayAt h.contents index).any fun each => r.equals each obj with
    | none => .ok none
    | some index => (removeAt r h index).map some

inductive Op (α : Type) where
  | add (obj : α)
  | removeFirst
  | remove (obj : α)

inductive Answer (α : Type) where
  | object (obj : α)
  | block
  | signalled

def perform (r : SortOrder α) (h : ExtensibleArray α) : Op α → ExtensibleArray α × Answer α
  | .add obj =>
    match add r h obj with
    | .error h => (h, .signalled)
    | .ok h => (h, .object obj)
  | .removeFirst =>
    match removeFirst r h with
    | .error h => (h, .signalled)
    | .ok (h, obj) => (h, .object obj)
  | .remove obj =>
    match remove r h obj with
    | .error h => (h, .signalled)
    | .ok none => (h, .block)
    | .ok (some (h, obj)) => (h, .object obj)

def Op.after [DecidableEq α] (xs : List α) : Op α → Answer α → List α
  | .add obj, _ => obj :: xs
  | .removeFirst, .object x | .remove _, .object x => xs.erase x
  | _, _ => xs

/-- The answers of a priority queue with the elements `xs`. -/
def Op.right (r : SortOrder α) (xs : List α) : Op α → Answer α → Prop
  | .add obj, a => a = .object obj
  | .removeFirst, .object x => x ∈ xs ∧ ∀ y ∈ xs, r.before x y = true
  | .removeFirst, a => xs = [] ∧ a = .signalled
  | .remove obj, .object x => x ∈ xs ∧ r.equals x obj = true
  | .remove obj, a => (∀ x ∈ xs, r.equals x obj = false) ∧ a = .block

structure Shows (r : SortOrder α) (h : ExtensibleArray α) (xs : List α) : Prop where
  size : h.size = xs.length
  elements : ((List.range xs.length).filterMap fun i : Nat => h.at? i).Perm xs
  order : ∀ i j : Nat, j = 2 * i + 1 ∨ j = 2 * i + 2 → ∀ a b,
    h.at? i = some a → h.at? j = some b → r.before a b = true

def Spares (h : ExtensibleArray α) : Op α → Prop
  | .add _ => h.size = 0
  | _ => True

def implementation [DecidableEq α] (r : SortOrder α) :
    Implementation (ExtensibleArray α) (List α) (Op α) (Answer α) where
  start h xs := ∃ n, h = ExtensibleArray.new n ∧ xs = []
  perform h op := some (perform r h op)
  next xs op a := op.after xs a
  right xs op a := op.right r xs a

variable {h : ExtensibleArray α} {xs : List α}

omit [Inhabited α] in
theorem contentsAt_nat {i : Nat} {x : α} (there : h.contents[i]? = some x) :
    contentsAt h i = .ok x := by
  simp [contentsAt, access, arrayAt_nat, there]

omit [Inhabited α] in
theorem contentsPut_nat {i : Nat} (inside : i < h.contents.length) (obj : α) :
    contentsPut h i obj = .ok { h with contents := h.contents.set i obj } := by
  rw [contentsPut, arrayPut_nat inside]
  rfl

omit [Inhabited α] in
theorem contentsAt_cases (h : ExtensibleArray α) (index : Int) :
    contentsAt h index = .error h ∨ ∃ x, contentsAt h index = .ok x := by
  unfold contentsAt access
  cases arrayAt h.contents index with
  | none => exact .inl rfl
  | some x => exact .inr ⟨x, rfl⟩

omit [Inhabited α] in
theorem belowParent_cases (r : SortOrder α) (h : ExtensibleArray α) (k : Int) :
    belowParent r h k = .error h ∨ ∃ b, belowParent r h k = .ok b := by
  unfold belowParent sortsPlaces
  split
  · obtain first | ⟨a, first⟩ := contentsAt_cases h k
    · exact .inl (by simp [first, bind, Except.bind])
    · obtain second | ⟨b, second⟩ := contentsAt_cases h (k / 2)
      · exact .inl (by simp [first, second, bind, Except.bind])
      · exact .inr ⟨r.before a b, by simp [first, second, bind, Except.bind, pure, Except.pure]⟩
  · exact .inr ⟨false, rfl⟩

omit [Inhabited α] in
theorem checkUpFrom_fails (r : SortOrder α) {index : Int} (later : h.firstIndex < index) :
    checkUpFrom r h index = .error h := by
  unfold checkUpFrom
  rw [if_neg (by omega)]
  obtain first | ⟨x, first⟩ := contentsAt_cases h index
  · simp [first, bind, Except.bind]
  · obtain second | ⟨b, second⟩ := belowParent_cases r h index
    · simp [first, second, bind, Except.bind]
    · simp [first, second, bind, Except.bind]

theorem roomed_holds (holds : Holds h 0 xs) :
    ∃ h', roomed h = .ok h' ∧ Holds h' 0 xs ∧ xs.length < h'.contents.length := by
  have size := holds.size
  unfold roomed
  split
  · obtain ⟨h', run, grown, room⟩ := holds.growLast none
    have positive : 0 < h.growth none := ExtensibleArray.growth_pos none
    exact ⟨h', by simp [access, run], grown, by omega⟩
  · have cap : h.capacity = h.contents.length := rfl
    exact ⟨h, rfl, holds, by omega⟩

theorem add_stores (r : SortOrder α) (holds : Holds h 0 xs) (obj : α) :
    ∃ h', add r h obj = checkUpFrom r h' h'.lastIndex ∧ Holds h' 0 (xs ++ [obj]) := by
  obtain ⟨h₁, run, grown, room⟩ := roomed_holds holds
  have last := grown.last
  have place : h₁.lastIndex + 1 = (xs.length : Nat) := by omega
  have inside : 0 + xs.length < h₁.contents.length := by omega
  refine ⟨_, ?_, grown.append inside obj⟩
  have stores : contentsPut ⟨h₁.contents, h₁.firstIndex, h₁.lastIndex + 1⟩ (h₁.lastIndex + 1) obj =
      .ok ⟨h₁.contents.set (0 + xs.length) obj, h₁.firstIndex, h₁.lastIndex + 1⟩ := by
    simpa [place] using contentsPut_nat (h := ⟨h₁.contents, h₁.firstIndex, xs.length⟩) room obj
  unfold add
  simp only [run, bind, Except.bind, stores]

theorem add_fails (r : SortOrder α) (holds : Holds h 0 xs) (some : xs ≠ []) (obj : α) :
    ∃ h', add r h obj = .error h' := by
  obtain ⟨h', run, stored⟩ := add_stores r holds obj
  have first := stored.first
  have last := stored.last
  have positive := List.length_pos_of_ne_nil some
  simp only [List.length_append, List.length_singleton] at last
  exact ⟨h', run.trans (checkUpFrom_fails r (by omega))⟩

theorem add_first (r : SortOrder α) (holds : Holds h 0 []) (obj : α) :
    ∃ h', add r h obj = .ok h' ∧ Holds h' 0 [obj] := by
  obtain ⟨h', run, stored⟩ := add_stores r holds obj
  have first := stored.first
  have last := stored.last
  simp only [List.nil_append, List.length_singleton] at last
  refine ⟨h', run.trans ?_, stored⟩
  unfold checkUpFrom
  rw [if_pos (by omega)]

theorem removeAt_empty (r : SortOrder α) (holds : Holds h 0 []) :
    removeAt r h 0 = .error h := by
  have last := holds.last
  simp only [List.length_nil] at last
  have none_there : contentsAt h h.lastIndex = .error h := by
    simp [contentsAt, access, arrayAt, show h.lastIndex = -1 by omega]
  unfold removeAt
  obtain first | ⟨x, first⟩ := contentsAt_cases h 0
  · simp [first, bind, Except.bind]
  · simp [first, none_there, bind, Except.bind]

theorem removeAt_only (r : SortOrder α) {x : α} (holds : Holds h 0 [x]) :
    ∃ h', removeAt r h 0 = .ok (h', x) ∧ Holds h' 0 [] := by
  have last := holds.last
  have fits := holds.fits
  have item := holds.items 0 (by simp)
  simp only [List.length_singleton, Nat.zero_add, List.getElem?_cons_zero] at last fits item
  have place : h.lastIndex = 0 := by omega
  have reads : contentsAt h 0 = .ok x := contentsAt_nat (i := 0) item
  have puts : contentsPut h 0 x = .ok _ := contentsPut_nat (i := 0) (by omega) x
  have vacates : contentsPut ⟨h.contents.set 0 x, h.firstIndex, 0⟩ 0 default = .ok _ :=
    contentsPut_nat (i := 0) (by simp only [List.length_set]; omega) default
  refine ⟨⟨(h.contents.set 0 x).set 0 default, h.firstIndex, -1⟩, ?_, ?_⟩
  · unfold removeAt settle
    simp [reads, puts, vacates, place, bind, Except.bind, pure, Except.pure]
  · constructor
    · exact holds.first
    · rfl
    · simp
    · simp

omit [Inhabited α] in
theorem find_only (r : SortOrder α) {x : α} (holds : Holds h 0 [x]) (obj : α) :
    ((fromTo h.firstIndex h.lastIndex).find? fun index =>
      (arrayAt h.contents index).any fun each => r.equals each obj) =
      if r.equals x obj then some 0 else none := by
  have first := holds.first
  have last := holds.last
  have item := holds.items 0 (by simp)
  simp only [List.length_singleton, Nat.zero_add, List.getElem?_cons_zero] at last item
  have places : fromTo h.firstIndex h.lastIndex = [0] := by
    rw [fromTo_nat (s := 0) (n := 1) (by omega) (by omega) (by omega)]
    rfl
  rw [places]
  have reads : arrayAt h.contents 0 = some x := (arrayAt_nat h.contents 0).trans item
  cases same : r.equals x obj <;> simp [reads, same]

/-- The invariant of the runs that spare the defect: there is at most one element. -/
structure Represents (h : ExtensibleArray α) (xs : List α) : Prop where
  holds : Holds h 0 xs
  few : xs.length ≤ 1

omit [Inhabited α] in
theorem Represents.cases (kept : Represents h xs) : xs = [] ∨ ∃ x, xs = [x] := by
  have few := kept.few
  match xs, few with
  | [], _ => exact .inl rfl
  | [x], _ => exact .inr ⟨x, rfl⟩

omit [Inhabited α] in
theorem Represents.shows (kept : Represents h xs) : Shows r h xs := by
  have only : ∀ i : Nat, h.at? i = xs[i]? := kept.holds.at?
  constructor
  · exact kept.holds.size
  · obtain rfl | ⟨x, rfl⟩ := kept.cases
    · simp
    · simp [List.range_succ, only]
  · intro i j below a b _ there
    rw [only, List.getElem?_eq_none (by have few := kept.few; omega)] at there
    cases there

variable [DecidableEq α]

theorem Represents.step (kept : Represents h xs) (op : Op α) (spares : Spares h op) :
    Step (implementation r) Represents h xs op := by
  have holds := kept.holds
  cases op with
  | add obj =>
    have none_there : xs = [] := by
      have size := holds.size
      simp only [Spares] at spares
      exact List.length_eq_zero_iff.mp (by omega)
    subst none_there
    obtain ⟨h', run, added⟩ := add_first r holds obj
    exact ⟨h', .object obj, by simp [implementation, perform, run], rfl, added, Nat.le_refl 1⟩
  | removeFirst =>
    obtain rfl | ⟨x, rfl⟩ := kept.cases
    · refine ⟨h, .signalled, ?_, ⟨rfl, rfl⟩, kept⟩
      simp [implementation, perform, removeFirst, removeAt_empty r holds]
    · obtain ⟨h', run, removed⟩ := removeAt_only r holds
      refine ⟨h', .object x, by simp [implementation, perform, removeFirst, run], ?_, ?_⟩
      · simpa [implementation, Op.right] using r.total x x
      · simpa [implementation, Op.after] using Represents.mk removed (by simp)
  | remove obj =>
    obtain rfl | ⟨x, rfl⟩ := kept.cases
    · have size : h.size = 0 := by simpa using holds.size
      refine ⟨h, .block, by simp [implementation, perform, remove, size], ?_, kept⟩
      simp [implementation, Op.right]
    · have size : h.size = 1 := by simpa using holds.size
      have found := find_only r holds obj
      cases same : r.equals x obj with
      | false =>
        refine ⟨h, .block, ?_, ?_, kept⟩
        · simp [implementation, perform, remove, size, found, same]
        · simp [implementation, Op.right, same]
      | true =>
        obtain ⟨h', run, removed⟩ := removeAt_only r holds
        refine ⟨h', .object x, ?_, ?_, ?_⟩
        · simp [implementation, perform, remove, size, found, same, run, Except.map]
        · simp [implementation, Op.right, same]
        · simpa [implementation, Op.after] using Represents.mk removed (by simp)

/-- A `Heap` is a priority queue as long as elements are only added when it is empty, and an
addition to a heap that has elements always signals. -/
theorem heap_refines (r : SortOrder α) :
    Refines (implementation r) Spares (Shows r) ∧
      ∀ h xs, Reached (implementation r) Spares h xs → ∀ obj, ¬ Spares h (.add obj) →
        (perform r h (.add obj)).2 = .signalled := by
  have first : ∀ h xs, (implementation r).start h xs → Represents h xs := by
    rintro h xs ⟨n, rfl, rfl⟩
    exact ⟨ExtensibleArray.holds_new n, by simp⟩
  constructor
  · apply Refines.of_steps Represents first
    · intro h xs op kept spares
      exact kept.step op spares
    · intro h xs kept
      exact kept.shows
  · intro h xs reached obj defect
    have kept : Represents h xs := by
      apply reached.invariant first
      intro h xs op h' a kept spares run
      obtain ⟨t, b, run', _, after⟩ := kept.step op spares
      cases run.symm.trans run'
      exact after
    have some : xs ≠ [] := by
      rintro rfl
      exact defect (by simpa [Spares] using kept.holds.size)
    obtain ⟨h', failed⟩ := add_fails r kept.holds some obj
    simp [perform, failed]

/-- Adding 1 and then 2 signals: the check of the second element sends `array`. -/
theorem second_addition_signals :
    ¬ ∀ (α : Type) [Inhabited α] [DecidableEq α] (r : SortOrder α),
      Refines (implementation r) (fun _ _ => True) (Shows r) := by
  intro refines
  apply Refines.not_of_answer (i := implementation ascending) (s := ExtensibleArray.new 4)
    (m := []) ⟨4, rfl, rfl⟩ [.add 1] (.add 2)
    (fun _ a => match a with | .signalled => false | _ => true) (by decide +kernel) _
    (refines Nat ascending)
  rintro xs a rfl
  rfl

end SlateVm.Collections.Heap
