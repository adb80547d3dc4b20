import SlateVm.Collections.HashedSet
import SlateVm.Lib.Slices

/-! `Set ReadStream`: a walk beyond the array of a set, beside the members that are left. -/
namespace SlateVm.Collections.HashedSet

open Refinement Slices

variable {κ : Type} {h : Hashing κ} {c : HashedSet κ} {m : Option κ → Bool}

def indexOfFirstSatisfying {α : Type} (block : α → Bool) (xs : List α) (start : Nat) :
    Option Nat :=
  ((xs.drop start).findIdx? block).map (start + ·)

/-- The slots of `Set ReadStream`. -/
structure Reader (κ : Type) where
  collection : HashedSet κ
  position : Nat
  index : Nat

namespace Reader

def on (c : HashedSet κ) : Reader κ := ⟨c, 0, 0⟩

def nextIndex (i : Reader κ) : Option Nat :=
  indexOfFirstSatisfying Option.isSome i.collection.contents i.index

def past (i : Reader κ) (nextIndex : Nat) : Reader κ :=
  { i with index := nextIndex + 1, position := i.position + 1 }

/-- `next:putInto:startingAt:`, which does not look at the number it is given. An index outside of
the target ends it with no number. -/
def putInto : Nat → Reader κ → List (Option κ) → Nat → Nat →
    Reader κ × Option (Nat × List (Option κ))
  | 0, i, seq, _, numRead => (i, some (numRead, seq))
  | rounds + 1, i, seq, seqIndex, numRead =>
    match i.nextIndex with
    | none => (i, some (numRead, seq))
    | some nextIndex =>
      if seqIndex < seq.length then
        putInto rounds (i.past nextIndex)
          (seq.set seqIndex (i.collection.contents[nextIndex]?.join)) (seqIndex + 1) (numRead + 1)
      else (i.past nextIndex, none)

def isAtEnd (i : Reader κ) : Bool :=
  decide ((i.position : Int) = i.collection.size) ||
    decide ((i.index : Int) = (i.collection.contents.length : Int) - 1)

inductive Op (κ : Type) where
  | next
  | read (n : Nat) (seq : List (Option κ)) (start : Nat) (room : start + n ≤ seq.length)
  | isAtEnd

inductive Answer (κ : Type) where
  | element (x : Option κ)
  | exhausted
  | read (numRead : Nat) (seq : List (Option κ))
  | outOfBounds
  | truth (b : Bool)

def perform (i : Reader κ) : Op κ → Reader κ × Answer κ
  | .next =>
    match i.nextIndex with
    | none => (i, .exhausted)
    | some nextIndex => (i.past nextIndex, .element (i.collection.contents[nextIndex]?.join))
  | .read _ seq start _ =>
    match putInto (i.collection.contents.length + 1) i seq start 0 with
    | (i, some (numRead, seq)) => (i, .read numRead seq)
    | (i, none) => (i, .outOfBounds)
  | .isAtEnd => (i, .truth i.isAtEnd)

def delivered : Op κ → Answer κ → List (Option κ)
  | .next, .element x => [x]
  | .read _ _ start _, .read numRead seq => slice seq start numRead
  | _, _ => []

def All (h : Hashing κ) (m : Option κ → Bool) (d : List (Option κ)) : Prop :=
  ∀ o, m o = true → ∃ e ∈ d, same h e o = true

/-- Members of `m` that have not been delivered, each once. -/
def Fresh (h : Hashing κ) (m : Option κ → Bool) (d es : List (Option κ)) : Prop :=
  ((d ++ es).Pairwise fun a b => same h a b = false) ∧ ∀ e ∈ es, m e = true

/-- The answers that are right after `d`; less than was asked for comes at the end only. -/
def Right (h : Hashing κ) (m : Option κ → Bool) (d : List (Option κ)) : Op κ → Answer κ → Prop
  | .next, .element x => Fresh h m d [x]
  | .next, .exhausted => All h m d
  | .read n seq start _, .read numRead result => numRead ≤ n ∧ ∃ es, es.length = numRead ∧
      Fresh h m d es ∧ result = written seq es start ∧
      (numRead < n → All h m (d ++ es))
  | .isAtEnd, .truth b => b = true ↔ All h m d
  | _, _ => False

def remaining (i : Reader κ) : List κ := (i.collection.contents.drop i.index).filterMap id

/-- What has been delivered and what is left are the elements of the array. -/
structure Delivers (h : Hashing κ) (m : Option κ → Bool) (i : Reader κ) (d : List (Option κ)) :
    Prop where
  represents : Represents h i.collection m
  elements : d ++ i.remaining.map some = (i.collection.contents.filterMap id).map some
  position : i.position = d.length

def implementation (h : Hashing κ) (m : Option κ → Bool) :
    Implementation (Reader κ) (List (Option κ)) (Op κ) (Answer κ) where
  start i d := Represents h i.collection m ∧ i = on i.collection ∧ d = []
  perform i op := some (i.perform op)
  next d op answer := d ++ delivered op answer
  right := Right h m

/-- Where a call is right: Nil is never delivered, a bulk read takes all that is left, and the
last index counts as the end. -/
def Meets (i : Reader κ) : Op κ → Prop
  | .next => i.remaining ≠ [] ∨ i.collection.containsNil = false
  | .read n _ _ _ => i.remaining.length ≤ n ∧
      (i.remaining.length < n → i.collection.containsNil = false)
  | .isAtEnd => i.index + 1 = i.collection.contents.length →
      i.remaining = [] ∧ i.collection.containsNil = false

theorem nextIndex_cases (i : Reader κ) : (i.nextIndex = none ∧ i.remaining = []) ∨
    ∃ j x, i.nextIndex = some j ∧ i.index ≤ j ∧ j < i.collection.contents.length ∧
      i.collection.contents[j]?.join = some x ∧ i.remaining = x :: (i.past j).remaining := by
  obtain ⟨⟨tally, xs, containsNil⟩, position, start⟩ := i
  simp only [nextIndex, indexOfFirstSatisfying, remaining, past]
  cases first : (xs.drop start).findIdx? Option.isSome with
  | none =>
    left
    rw [List.findIdx?_eq_none_iff] at first
    refine ⟨rfl, List.filterMap_eq_nil_iff.mpr fun o member => ?_⟩
    exact Option.not_isSome_iff_eq_none.mp (Bool.eq_false_iff.mp (first o member))
  | some k =>
    right
    obtain ⟨inside, filled, before⟩ := List.findIdx?_eq_some_iff_getElem.mp first
    obtain ⟨x, here⟩ := Option.isSome_iff_exists.mp filled
    have short := List.length_drop (i := start) (l := xs)
    rw [List.getElem_drop] at here
    have there : xs[start + k]? = some (some x) := by
      rw [List.getElem?_eq_getElem (by omega), here]
    refine ⟨start + k, x, rfl, by omega, by omega, by rw [there]; rfl, ?_⟩
    have skipped : ((xs.drop start).take k).filterMap id = [] := by
      apply List.filterMap_eq_nil_iff.mpr
      intro o member
      obtain ⟨j, low, rfl⟩ := List.getElem_of_mem member
      rw [List.length_take] at low
      rw [List.getElem_take]
      exact Option.not_isSome_iff_eq_none.mp (before j (by omega))
    conv_lhs => rw [← List.take_append_drop k (xs.drop start), List.filterMap_append, skipped]
    rw [List.drop_drop, List.nil_append, List.drop_eq_getElem_cons (by omega), here]
    rfl

theorem putInto_spec {rounds : Nat} {i : Reader κ} {seq : List (Option κ)} {seqIndex : Nat}
    (numRead : Nat) (enough : i.collection.contents.length < rounds + i.index)
    (inside : seqIndex ≤ seq.length) :
    (seqIndex + i.remaining.length ≤ seq.length → ∃ i', putInto rounds i seq seqIndex numRead =
        (i', some (numRead + i.remaining.length, written seq (i.remaining.map some) seqIndex)) ∧
      i'.collection = i.collection ∧ i'.remaining = [] ∧
      i'.position = i.position + i.remaining.length) ∧
    (seq.length < seqIndex + i.remaining.length →
      ∃ i', putInto rounds i seq seqIndex numRead = (i', none)) := by
  induction rounds generalizing i seq seqIndex numRead with
  | zero =>
    have gone : i.remaining = [] := by
      rw [remaining, List.drop_eq_nil_of_le (by omega)]
      rfl
    simp only [gone, List.length_nil, Nat.add_zero, List.map_nil, written_nil]
    exact ⟨fun _ => ⟨i, rfl, rfl, gone, rfl⟩, fun beyond => absurd beyond (by omega)⟩
  | succ rounds ih =>
    rcases i.nextIndex_cases with ⟨last, gone⟩ | ⟨j, x, found, low, high, here, split⟩
    · simp only [putInto, last, gone, List.length_nil, Nat.add_zero, List.map_nil, written_nil]
      exact ⟨fun _ => ⟨i, rfl, rfl, gone, rfl⟩, fun beyond => absurd beyond (by omega)⟩
    · simp only [putInto, found, here, split, List.length_cons, List.map_cons]
      by_cases room : seqIndex < seq.length
      · rw [if_pos room]
        have further : (i.past j).collection.contents.length < rounds + (i.past j).index := by
          simp only [past]
          omega
        obtain ⟨fits, beyond⟩ := @ih (i.past j) (seq.set seqIndex (some x)) (seqIndex + 1)
          (numRead + 1) further (by rw [List.length_set]; omega)
        rw [List.length_set] at fits beyond
        constructor
        · intro short
          obtain ⟨i', run, kept, gone, count⟩ := fits (by omega)
          refine ⟨i', ?_, kept, gone, ?_⟩
          · rw [run, written_cons room, Nat.add_right_comm numRead, Nat.add_assoc]
          · rw [count]
            simp only [past]
            omega
        · intro long
          exact beyond (by omega)
      · rw [if_neg room]
        exact ⟨fun short => absurd short (by omega), fun _ => ⟨_, rfl⟩⟩

variable {i : Reader κ} {d : List (Option κ)}

theorem delivers_on (r : Represents h c m) : Delivers h m (on c) [] where
  represents := r
  elements := rfl
  position := rfl

namespace Delivers

variable (v : Delivers h m i d)
include v

theorem distinct : (d ++ i.remaining.map some).Pairwise fun a b => same h a b = false := by
  rw [v.elements, List.pairwise_map]
  exact v.represents.packed.keyed.distinct

theorem member {e : Option κ} (there : e ∈ d ++ i.remaining.map some) :
    ∃ a ∈ i.collection.contents.filterMap id, e = some a ∧ m (some a) = true := by
  rw [v.elements] at there
  obtain ⟨a, present, rfl⟩ := List.mem_map.mp there
  exact ⟨a, present, rfl, (v.represents.packed.keyed.member a).mpr ⟨a, present, h.refl a⟩⟩

theorem fresh {es rest : List (Option κ)} (next : i.remaining.map some = es ++ rest) :
    Fresh h m d es := by
  have distinct := v.distinct
  rw [next, ← List.append_assoc] at distinct
  refine ⟨(List.pairwise_append.mp distinct).1, fun e here => ?_⟩
  obtain ⟨a, -, rfl, present⟩ := v.member (e := e) (by
    rw [next]
    exact List.mem_append_right _ (List.mem_append_left _ here))
  exact present

theorem all_iff : All h m d ↔ i.remaining = [] ∧ i.collection.containsNil = false := by
  constructor
  · intro all
    constructor
    · cases left : i.remaining with
      | nil => rfl
      | cons x rest =>
        obtain ⟨-, members⟩ := @fresh _ _ _ _ _ v (i.remaining.map some) [] (by simp)
        rw [left, List.map_cons] at members
        obtain ⟨e, here, equal⟩ := all (some x) (members _ List.mem_cons_self)
        have distinct := v.distinct
        rw [left, List.map_cons] at distinct
        have apart := (List.pairwise_append.mp distinct).2.2 e here _ List.mem_cons_self
        exact absurd equal (Bool.eq_false_iff.mp apart)
    · cases nil : i.collection.containsNil with
      | false => rfl
      | true =>
        obtain ⟨e, here, equal⟩ := all none (v.represents.nil.trans nil)
        obtain ⟨a, -, rfl, -⟩ := v.member (List.mem_append_left _ here)
        cases equal
  · rintro ⟨gone, nil⟩ o present
    have elements := v.elements
    rw [gone, List.map_nil, List.append_nil] at elements
    cases o with
    | none => exact absurd (v.represents.nil.symm.trans present) (Bool.eq_false_iff.mp nil)
    | some a =>
      obtain ⟨b, there, equal⟩ := (v.represents.packed.keyed.member a).mp present
      exact ⟨some b, by rw [elements]; exact List.mem_map_of_mem there, equal⟩

theorem pass {i' : Reader κ} {es : List κ} (kept : i'.collection = i.collection)
    (next : i.remaining = es ++ i'.remaining) (count : i'.position = i.position + es.length) :
    Delivers h m i' (d ++ es.map some) where
  represents := kept ▸ v.represents
  elements := by
    rw [kept, ← v.elements, next, List.map_append, List.append_assoc]
  position := by
    rw [count, v.position, List.length_append, List.length_map]

theorem size : i.collection.size =
    d.length + i.remaining.length + if i.collection.containsNil then 1 else 0 := by
  have count := congrArg List.length v.elements
  simp only [List.length_append, List.length_map] at count
  rw [HashedSet.size, v.represents.packed.tally, ← count, Int.natCast_add]

theorem isAtEnd_right_iff : (i.isAtEnd = true ↔ All h m d) ↔
    (i.index + 1 = i.collection.contents.length →
      i.remaining = [] ∧ i.collection.containsNil = false) := by
  have size := v.size
  have counted : (i.position : Int) = i.collection.size ↔
      i.remaining = [] ∧ i.collection.containsNil = false := by
    rw [size, v.position, ← List.length_eq_zero_iff]
    cases i.collection.containsNil with
    | false => simp only [Bool.false_eq_true, if_false, and_true]; omega
    | true => simp only [if_true, Bool.true_eq_false, and_false, iff_false]; omega
  have last : (i.index : Int) = (i.collection.contents.length : Int) - 1 ↔
      i.index + 1 = i.collection.contents.length := by omega
  rw [v.all_iff, isAtEnd, Bool.or_eq_true, decide_eq_true_eq, decide_eq_true_eq, counted, last]
  constructor
  · intro right there
    exact right.mp (Or.inr there)
  · intro meets
    exact ⟨fun ends => ends.elim id meets, Or.inl⟩

end Delivers

theorem step_iff (v : Delivers h m i d) (op : Op κ) :
    Step (implementation h m) (Delivers h m) i d op ↔ Meets i op := by
  cases op with
  | next =>
    have all := v.all_iff
    rcases i.nextIndex_cases with ⟨last, gone⟩ | ⟨j, x, found, -, -, here, split⟩
    · have run : i.perform .next = (i, .exhausted) := by simp only [perform, last]
      constructor
      · rintro ⟨_, _, run', right, -⟩
        cases (congrArg some run).symm.trans run'
        exact Or.inr (all.mp right).2
      · intro meets
        have nil := meets.resolve_left fun left => left gone
        refine ⟨i, .exhausted, congrArg some run, all.mpr ⟨gone, nil⟩, ?_⟩
        simp only [implementation, delivered, List.append_nil]
        exact v
    · have run : i.perform .next = (i.past j, .element (some x)) := by
        simp only [perform, found, here]
      have next : i.remaining.map some = [some x] ++ (i.past j).remaining.map some := by
        rw [split]
        rfl
      constructor
      · intro _
        exact Or.inl (by rw [split]; exact List.cons_ne_nil _ _)
      · intro _
        exact ⟨_, _, congrArg some run, v.fresh next, @Delivers.pass κ h m i d v _ [x] rfl split rfl⟩
  | read n seq start room =>
    have all := v.all_iff
    obtain ⟨fits, beyond⟩ := @putInto_spec κ (i.collection.contents.length + 1) i seq start 0
      (by omega) (by omega)
    simp only [Nat.zero_add] at fits
    constructor
    · rintro ⟨_, _, run, right, after⟩
      rcases Nat.lt_or_ge seq.length (start + i.remaining.length) with long | short
      · obtain ⟨i', ran⟩ := beyond long
        simp only [implementation, perform, ran] at run
        cases run
        exact right.elim
      · obtain ⟨i', ran, kept, gone, count⟩ := fits short
        simp only [implementation, perform, ran] at run
        cases run
        obtain ⟨few, es, size, -, result, ends⟩ := right
        refine ⟨few, fun less => ?_⟩
        have whole := @Delivers.pass κ h m i d v _ i.remaining kept
          (by rw [gone, List.append_nil]) count
        have same := written_inj (by omega) ((List.length_map _).trans size.symm) result
        rw [← same] at ends
        exact kept ▸ (whole.all_iff.mp (ends less)).2
    · rintro ⟨few, nil⟩
      obtain ⟨i', ran, kept, gone, count⟩ := fits (by omega)
      have whole := @Delivers.pass κ h m i d v _ i.remaining kept
          (by rw [gone, List.append_nil]) count
      have taken : slice (written seq (i.remaining.map some) start) start i.remaining.length =
          i.remaining.map some := slice_written (by omega) (List.length_map _)
      refine ⟨i', .read _ _, ?_, ⟨few, i.remaining.map some, List.length_map _, ?_, rfl, ?_⟩, ?_⟩
      · simp only [implementation, perform, ran]
      · exact v.fresh (List.append_nil _).symm
      · intro less
        exact whole.all_iff.mpr ⟨gone, kept ▸ nil less⟩
      · simp only [implementation, delivered, taken]
        exact whole
  | isAtEnd =>
    constructor
    · rintro ⟨_, _, run, right, -⟩
      cases run
      exact v.isAtEnd_right_iff.mp right
    · intro meets
      refine ⟨i, .truth i.isAtEnd, rfl, v.isAtEnd_right_iff.mpr meets, ?_⟩
      simp only [implementation, delivered, List.append_nil]
      exact v

end Reader

end SlateVm.Collections.HashedSet
