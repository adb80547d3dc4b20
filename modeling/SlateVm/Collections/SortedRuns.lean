import Mathlib.Data.Multiset.AddSub
import Mathlib.Data.Multiset.Count
import SlateVm.Collections.SortedArray

/-! `SortedArray` beside the multiset of its elements. -/
namespace SlateVm.Collections.SortedArray

open Refinement
open ExtensibleArray (Holds)

variable {α : Type} {r : SortOrder α} {es : ExtensibleArray α} {xs : List α} {m : Multiset α}
  {obj : α} {f k : Nat}

def Op.brings : Op α → Multiset α
  | .add obj | .addFirst obj | .addLast obj | .replaceNextLargerWith obj => {obj}
  | .addAll col => col
  | .remove _ => 0

open Classical in
noncomputable def Op.after (m : Multiset α) (op : Op α) (a : Answer α) : Multiset α :=
  match a with
  | ⟨.signalled, _⟩ | ⟨.nothing, _⟩ => m
  | ⟨_, none⟩ => m + op.brings
  | ⟨_, some x⟩ => m.erase x + op.brings

def Op.right (r : SortOrder α) (m : Multiset α) : Op α → Answer α → Prop
  | .add obj, a => a = ⟨.object obj, none⟩
  | .addAll col, a => a = ⟨.objects col, none⟩
  | .addFirst obj, a =>
    (∀ x ∈ m, r.before obj x = true) ∧ a = ⟨.object obj, none⟩ ∨
      (∃ x ∈ m, r.before obj x = false) ∧ a = ⟨.signalled, none⟩
  | .addLast obj, a =>
    (∀ x ∈ m, r.before x obj = true) ∧ a = ⟨.object obj, none⟩ ∨
      (∃ x ∈ m, r.before x obj = false) ∧ a = ⟨.signalled, none⟩
  | .remove obj, a =>
    (∃ x ∈ m, r.equals x obj = true ∧ a = ⟨.object obj, some x⟩) ∨
      (∀ x ∈ m, r.equals x obj = false) ∧ a = ⟨.nothing, none⟩
  | .replaceNextLargerWith obj, a =>
    (∃ x ∈ m, r.before x obj = false ∧
      (∀ y ∈ m, r.before y obj = false → r.before x y = true) ∧
      a = ⟨.index (m.countP (r.before · obj = true)), some x⟩) ∨
      (∀ x ∈ m, r.before x obj = true) ∧ a = ⟨.index m.card, none⟩

def IncludesRight (r : SortOrder α) (es : ExtensibleArray α) (xs : List α) (obj : α) : Prop :=
  includes r es obj = some (xs.any (r.equals · obj))

def IndexOfRight (r : SortOrder α) (es : ExtensibleArray α) (xs : List α) (obj : α) : Prop :=
  indexOf r es obj = some ((xs.findIdx? (r.equals · obj)).map fun k : Nat => (k : Int))

/-- The elements of an array, their order and their number. -/
structure Elements (r : SortOrder α) (es : ExtensibleArray α) (m : Multiset α) (xs : List α) :
    Prop where
  shows : ExtensibleArray.Shows es xs
  order : xs.Pairwise (r.before · · = true)
  same : (xs : Multiset α) = m

def Claimed (r : SortOrder α) (es : ExtensibleArray α) (m : Multiset α) : Prop :=
  ∃ xs, Elements r es m xs ∧ ∀ obj, IncludesRight r es xs obj ∧ IndexOfRight r es xs obj

/-- The order and the elements are right, and the searches exactly where the bisection comes
to an equal element before it is turned away from it: for `includes:` that element may not
stand at the first place of the contents; for `indexOf:` the elements must start there, and
the element must be the first of those that are equal. -/
def Shows (r : SortOrder α) (es : ExtensibleArray α) (m : Multiset α) : Prop :=
  ∃ xs, Elements r es m xs ∧ ∀ obj,
    (IncludesRight r es xs obj ↔ (∀ x ∈ xs, r.equals x obj = false) ∨
      ∃ (k : Nat) (x : α), xs[k]? = some x ∧ r.equals x obj = true ∧
        Open r xs obj k 0 xs.length ∧ 0 < es.firstIndex + k) ∧
    (IndexOfRight r es xs obj ↔ (∀ x ∈ xs, r.equals x obj = false) ∨
      es.firstIndex = 0 ∧ ∃ k, xs.findIdx? (r.equals · obj) = some k ∧
        Open r xs obj k 0 xs.length)

noncomputable def implementation [Inhabited α] (r : SortOrder α) :
    Implementation (ExtensibleArray α) (Multiset α) (Op α) (Answer α) where
  start es m := ∃ n, es = ExtensibleArray.new n ∧ m = 0
  perform := perform r
  next m op a := op.after m a
  right m op a := op.right r m a

/-- The elements of the multiset stand in the contents, in order. -/
structure Represents (r : SortOrder α) (es : ExtensibleArray α) (m : Multiset α) (f : Nat)
    (xs : List α) : Prop where
  holds : Holds es f xs
  order : xs.Pairwise (r.before · · = true)
  same : (xs : Multiset α) = m

def Keeps (r : SortOrder α) (es : ExtensibleArray α) (m : Multiset α) : Prop :=
  ∃ f xs, Represents r es m f xs

section Searches

variable (holds : Holds es f xs) (order : xs.Pairwise (r.before · · = true)) (obj : α)
include holds order

theorem includes_iff : IncludesRight r es xs obj ↔ (∀ x ∈ xs, r.equals x obj = false) ∨
    ∃ (k : Nat) (x : α), xs[k]? = some x ∧ r.equals x obj = true ∧
      Open r xs obj k 0 xs.length ∧ 0 < es.firstIndex + k := by
  obtain ⟨found, run, spec⟩ := indexOf_finds holds order obj
  have first := holds.first
  have answers : includes r es obj =
      some (found.any fun k => decide (0 < es.firstIndex + k)) := by
    unfold includes
    simp only [run, Option.bind_eq_bind, Option.bind_some]
    cases found with
    | none => rfl
    | some k =>
      simp only [Option.map_some, first]
      congr 2
  unfold IncludesRight
  rw [answers, Option.some_inj]
  cases present : xs.any (r.equals · obj) with
  | false =>
    have absent : ∀ x ∈ xs, r.equals x obj = false := by simpa using present
    cases found with
    | none => exact iff_of_true rfl (.inl absent)
    | some k =>
      obtain ⟨⟨x, there, equal⟩, _⟩ := (spec k).mp rfl
      simp [absent x (List.mem_of_getElem? there)] at equal
  | true =>
    obtain ⟨x, member, equal⟩ := List.any_eq_true.mp present
    constructor
    · intro answer
      cases found with
      | none => cases answer
      | some k =>
        obtain ⟨⟨y, there, hit⟩, way⟩ := (spec k).mp rfl
        exact .inr ⟨k, y, there, hit, way, by simpa using answer⟩
    · rintro (absent | ⟨k, y, there, hit, way, positive⟩)
      · simp [absent x member] at equal
      · rw [(spec k).mpr ⟨⟨y, there, hit⟩, way⟩]
        simpa using positive

theorem indexOf_iff : IndexOfRight r es xs obj ↔ (∀ x ∈ xs, r.equals x obj = false) ∨
    es.firstIndex = 0 ∧ ∃ k, xs.findIdx? (r.equals · obj) = some k ∧
      Open r xs obj k 0 xs.length := by
  obtain ⟨found, run, spec⟩ := indexOf_finds holds order obj
  have first := holds.first
  unfold IndexOfRight
  rw [run, Option.some_inj]
  cases linear : xs.findIdx? (r.equals · obj) with
  | none =>
    have absent : ∀ x ∈ xs, r.equals x obj = false := by simpa using linear
    cases found with
    | none => exact iff_of_true rfl (.inl absent)
    | some k =>
      obtain ⟨⟨x, there, equal⟩, _⟩ := (spec k).mp rfl
      simp [absent x (List.mem_of_getElem? there)] at equal
  | some j =>
    obtain ⟨inside, hit, misses⟩ := List.findIdx?_eq_some_iff_getElem.mp linear
    have here : xs[j]? = some xs[j] := List.getElem?_eq_getElem inside
    constructor
    · intro answer
      cases found with
      | none => cases answer
      | some k =>
        obtain ⟨⟨y, there, equal⟩, way⟩ := (spec k).mp rfl
        simp only [Option.map_some, Option.some.injEq] at answer
        have later : j ≤ k := by
          apply Nat.le_of_not_lt
          intro before
          obtain ⟨_, rfl⟩ := List.getElem?_eq_some_iff.mp there
          exact misses k before equal
        have same : k = j := by omega
        subst same
        exact .inr ⟨by omega, k, rfl, way⟩
    · rintro (absent | ⟨start, k, found_, way⟩)
      · simp [absent _ (List.getElem_mem inside)] at hit
      · cases found_
        rw [(spec j).mpr ⟨⟨_, here, hit⟩, way⟩]
        simp only [Option.map_some, Option.some.injEq]
        omega

end Searches

theorem Keeps.shows (keeps : Keeps r es m) : Shows r es m := by
  obtain ⟨f, xs, represents⟩ := keeps
  refine ⟨xs, ⟨represents.holds.shows, represents.order, represents.same⟩, fun obj => ⟨?_, ?_⟩⟩
  · exact includes_iff represents.holds represents.order obj
  · exact indexOf_iff represents.holds represents.order obj

end SlateVm.Collections.SortedArray
