import Mathlib.Data.List.Forall2
import SlateVm.Collections.Arrays

/-! `indexOfSubSeq:startingAt:` and `copyReplaceAll:with:`: where a pattern occurs in a
sequence, and replacing it there. -/
namespace SlateVm.Collections

variable {α : Type}

/-- A loop over indices that returns the first one to pass a test, or else goes on to the
block that answers Nil. -/
def firstIndex (test : Int → Option Bool) : List Int → Option (Option Int)
  | [] => some none
  | index :: indices => do
    let passes ← test index
    if passes then some (some index) else firstIndex test indices

section Search

variable (equals : α → α → Bool) (c subSeq : List α)

def indexOf (obj : α) (start : Int) : Option (Option Int) :=
  firstIndex (fun index => (arrayAt c index).map (equals · obj)) (upTo start (c.length - 1))

/-- The inner loop of `indexOfSubSeq:startingAt:`, with a bound on its rounds. -/
def compareFrom (startIndex : Int) : Nat → Nat → Option Bool
  | 0, _ => none
  | rounds + 1, index => do
    let each ← arrayAt c (startIndex + index)
    let obj ← subSeq[index]?
    if equals each obj then
      if index + 1 = subSeq.length then some true else compareFrom startIndex rounds (index + 1)
    else some false

def startsAt (first : α) (startIndex : Int) : Option Bool := do
  let each ← arrayAt c startIndex
  if equals each first then compareFrom equals c subSeq startIndex subSeq.length 1 else some false

def indexOfSubSeq (start : Int) : Option (Option Int) :=
  if subSeq = [] then some (some start)
  else if subSeq.length = 1 then do
    let first ← subSeq.head?
    indexOf equals c first start
  else do
    let first ← subSeq.head?
    firstIndex (startsAt equals c subSeq first) (upTo start (c.length - subSeq.length))

end Search

section Replacing

variable [Inhabited α]

def newArray (size : Int) : Option (List α) :=
  if size < 0 then none else some (List.replicate size.toNat default)

def replaceWhen (test : Bool) (result : List α) (start stop : Int) (replacement : List α)
    (repStart : Int) : Option (List α) :=
  if test then replaceFrom result start stop replacement repStart else some result

def copyReplaceFrom (c : List α) (start stop : Int) (d : List α) : Option (List α) := do
  let resultSize : Int := c.length + d.length - (stop - start + 1)
  let endReplace : Int := start - 1 + d.length
  let result ← newArray resultSize
  let result ← replaceWhen (0 < start) result 0 (start - 1) c 0
  let result ← replaceWhen (start ≤ endReplace) result start endReplace d 0
  replaceWhen (endReplace < resultSize) result (endReplace + 1) (resultSize - 1) c (stop + 1)

/-- The loop of `copyReplaceAll:with:`, with a bound on its rounds. -/
def replaceLoop (equals : α → α → Bool) (seq replacement : List α) :
    Nat → List α → Int → Option (List α)
  | 0, _, _ => none
  | rounds + 1, result, start =>
    match indexOfSubSeq equals result seq start with
    | none => none
    | some none => some result
    | some (some currentIndex) => do
      let stop := currentIndex + (seq.length - 1)
      let result ← copyReplaceFrom result currentIndex stop replacement
      replaceLoop equals seq replacement rounds result (currentIndex + replacement.length)

def copyReplaceAll (equals : α → α → Bool) (rounds : Nat) (c seq replacement : List α) :
    Option (List α) :=
  replaceLoop equals seq replacement rounds c 0

end Replacing

section Purpose

variable (equals : α → α → Bool)

def OccursAt (c subSeq : List α) (i : Int) : Prop :=
  ∃ front found rest, c = front ++ (found ++ rest) ∧ i = front.length ∧
    List.Forall₂ (equals · · = true) found subSeq

/-- A sequence with the leftmost occurrences of a pattern replaced that do not overlap. -/
inductive Replaced (seq replacement : List α) : List α → List α → Prop
  | none_ {c : List α} (absent : ∀ i, ¬ OccursAt equals c seq i) : Replaced seq replacement c c
  | first {front found rest rest' : List α}
      (here : List.Forall₂ (equals · · = true) found seq)
      (leftmost : ∀ i, OccursAt equals (front ++ (found ++ rest)) seq i → front.length ≤ i)
      (others : Replaced seq replacement rest rest') :
      Replaced seq replacement (front ++ (found ++ rest)) (front ++ (replacement ++ rest'))

/-- The answer is the least index from `start` on at which the pattern occurs. -/
def Least (c subSeq : List α) (start : Int) : Option Int → Prop
  | some i => start ≤ i ∧ OccursAt equals c subSeq i ∧
      ∀ j, start ≤ j → OccursAt equals c subSeq j → i ≤ j
  | none => ∀ j, start ≤ j → ¬ OccursAt equals c subSeq j

end Purpose

section Finding

variable {equals : α → α → Bool} {c subSeq front found rest : List α}

theorem OccursAt.within {i : Int} (occurs : OccursAt equals c subSeq i) :
    0 ≤ i ∧ i + subSeq.length ≤ c.length := by
  obtain ⟨front, found, rest, rfl, rfl, same⟩ := occurs
  have length := same.length_eq
  simp only [List.length_append]
  omega

theorem OccursAt.shift {i : Int} (front : List α) (occurs : OccursAt equals c subSeq i) :
    OccursAt equals (front ++ c) subSeq (front.length + i) := by
  obtain ⟨front', found, rest, rfl, rfl, same⟩ := occurs
  refine ⟨front ++ front', found, rest, by rw [List.append_assoc], ?_, same⟩
  rw [List.length_append, Int.natCast_add]

theorem compareFrom_rest {rounds index : Nat} (many : found.length = subSeq.length)
    (more : index < subSeq.length) (enough : subSeq.length ≤ rounds + index) :
    ∃ same, compareFrom equals (front ++ (found ++ rest)) subSeq front.length rounds index =
        some same ∧
      (same = true ↔ List.Forall₂ (equals · · = true) (found.drop index) (subSeq.drop index)) := by
  induction rounds generalizing index with
  | zero => omega
  | succ rounds ih =>
    have inside : index < found.length := by omega
    have each : arrayAt (front ++ (found ++ rest)) (front.length + index) =
        some (found.get ⟨index, inside⟩) := by
      rw [show ((front.length : Int) + index) = ((front.length + index : Nat) : Int) by omega,
        arrayAt_nat, List.getElem?_append_right (Nat.le_add_right ..), Nat.add_sub_cancel_left,
        List.getElem?_append_left inside]
      exact List.getElem?_eq_getElem inside
    have obj : subSeq[index]? = some subSeq[index] := List.getElem?_eq_getElem more
    rw [List.drop_eq_getElem_cons inside, List.drop_eq_getElem_cons more, List.forall₂_cons]
    unfold compareFrom
    simp only [each, obj, Option.bind_eq_bind, Option.bind_some, List.get_eq_getElem]
    split
    · next equal =>
      split
      · next last =>
        refine ⟨true, rfl, ?_⟩
        rw [List.drop_of_length_le (by omega), List.drop_of_length_le (by omega)]
        simp [equal]
      · next further =>
        obtain ⟨same, run, rest_⟩ := @ih (index + 1) (by omega) (by omega)
        refine ⟨same, run, ?_⟩
        simpa [equal] using rest_
    · next apart => exact ⟨false, rfl, by simp [apart]⟩

theorem room_for {i : Int} (low : 0 ≤ i) (high : i + subSeq.length ≤ c.length) :
    ∃ front found rest, c = front ++ (found ++ rest) ∧ i = front.length ∧
      found.length = subSeq.length := by
  refine ⟨c.take i.toNat, (c.drop i.toNat).take subSeq.length,
    (c.drop i.toNat).drop subSeq.length, ?_, ?_, ?_⟩
  · rw [List.take_append_drop, List.take_append_drop]
  · rw [List.length_take]
    omega
  · rw [List.length_take, List.length_drop]
    omega

theorem occursAt_front (many : found.length = subSeq.length) :
    OccursAt equals (front ++ (found ++ rest)) subSeq front.length ↔
      List.Forall₂ (equals · · = true) found subSeq := by
  constructor
  · rintro ⟨front', found', rest', split, at_, same⟩
    have length := same.length_eq
    obtain ⟨rfl, behind⟩ := List.append_inj split (by omega)
    obtain ⟨rfl, _⟩ := List.append_inj behind (by omega)
    exact same
  · intro same
    exact ⟨front, found, rest, rfl, rfl, same⟩

theorem startsAt_occurs {first : α} {i : Int} (head : subSeq.head? = some first)
    (long : subSeq.length ≠ 1) (low : 0 ≤ i) (high : i + subSeq.length ≤ c.length) :
    ∃ passes, startsAt equals c subSeq first i = some passes ∧
      (passes = true ↔ OccursAt equals c subSeq i) := by
  obtain ⟨front, found, rest, rfl, rfl, many⟩ := room_for low high
  obtain ⟨more, rfl⟩ : ∃ more, subSeq = first :: more := by
    cases subSeq with
    | nil => cases head
    | cons f more =>
      cases head
      exact ⟨more, rfl⟩
  obtain ⟨x, xs, rfl⟩ : ∃ x xs, found = x :: xs := List.exists_cons_of_length_pos (by
    rw [many]
    exact Nat.succ_pos _)
  have each : arrayAt (front ++ (x :: xs ++ rest)) front.length = some x := by
    simp [arrayAt_nat]
  simp only [List.length_cons] at long
  rw [occursAt_front many, List.forall₂_cons]
  unfold startsAt
  simp only [each, Option.bind_eq_bind, Option.bind_some]
  split
  · next equal =>
    obtain ⟨same, run, rest_⟩ := @compareFrom_rest α equals (first :: more) front (x :: xs) rest
      (first :: more).length 1 many (by simp only [List.length_cons]; omega) (by omega)
    refine ⟨same, run, ?_⟩
    simpa [equal] using rest_
  · next apart => exact ⟨false, rfl, by simp [apart]⟩

theorem occursAt_single {obj : α} {i : Int} (low : 0 ≤ i) (high : i + 1 ≤ c.length) :
    ∃ passes, (arrayAt c i).map (equals · obj) = some passes ∧
      (passes = true ↔ OccursAt equals c [obj] i) := by
  obtain ⟨front, found, rest, rfl, rfl, many⟩ := @room_for α c [obj] i low high
  obtain ⟨x, rfl⟩ := List.length_eq_one_iff.mp many
  rw [occursAt_front many]
  refine ⟨equals x obj, ?_, by simp⟩
  simp [arrayAt_nat]

theorem firstIndex_least {test : Int → Option Bool} (n : Nat) {start stop : Int}
    (size : start + n = stop + 1) (last : stop = c.length - subSeq.length)
    (tests : ∀ i, start ≤ i → i + subSeq.length ≤ c.length →
      ∃ passes, test i = some passes ∧ (passes = true ↔ OccursAt equals c subSeq i)) :
    ∃ answer, firstIndex test (upTo start stop) = some answer ∧
      Least equals c subSeq start answer := by
  induction n generalizing start with
  | zero =>
    rw [upTo_none (by omega)]
    refine ⟨none, rfl, ?_⟩
    intro j from_ occurs
    have room := occurs.within.2
    omega
  | succ n ih =>
    obtain ⟨passes, run, here⟩ := tests start (Int.le_refl _) (by omega)
    rw [upTo_first (by omega)]
    unfold firstIndex
    simp only [run, Option.bind_eq_bind, Option.bind_some]
    cases passes with
    | true =>
      exact ⟨some start, rfl, Int.le_refl _, here.mp rfl, fun j from_ _ => from_⟩
    | false =>
      obtain ⟨answer, rest, least⟩ := @ih (start + 1) (by omega) fun i from_ =>
        tests i (by omega)
      refine ⟨answer, rest, ?_⟩
      have absent : ¬ OccursAt equals c subSeq start := fun occurs => by
        cases here.mpr occurs
      cases answer with
      | none =>
        intro j from_ occurs
        rcases Int.lt_or_eq_of_le from_ with later | rfl
        · exact least j later occurs
        · exact absent occurs
      | some i =>
        obtain ⟨up, occurs, first⟩ := least
        refine ⟨by omega, occurs, ?_⟩
        intro j from_ other
        rcases Int.lt_or_eq_of_le from_ with later | rfl
        · exact first j later other
        · exact absurd other absent

theorem indexOfSubSeq_search (some_ : subSeq ≠ []) (start : Int) :
    ∃ test, indexOfSubSeq equals c subSeq start =
        firstIndex test (upTo start (c.length - subSeq.length)) ∧
      (∀ i : Int, 0 ≤ i → i + subSeq.length ≤ c.length →
        ∃ passes, test i = some passes ∧ (passes = true ↔ OccursAt equals c subSeq i)) ∧
      ∀ i : Int, i < 0 → test i = none := by
  obtain ⟨first, more, rfl⟩ := List.exists_cons_of_ne_nil some_
  unfold indexOfSubSeq
  rw [if_neg some_]
  split
  · next one =>
    obtain rfl : more = [] := by simpa using one
    refine ⟨_, rfl, fun i => occursAt_single, ?_⟩
    intro i below
    simp only [arrayAt, if_pos below, Option.map_none]
  · next long =>
    refine ⟨_, rfl, fun i => startsAt_occurs rfl long, ?_⟩
    intro i below
    simp only [startsAt, arrayAt, if_pos below, Option.bind_eq_bind, Option.bind_none]

theorem indexOfSubSeq_least_iff (some_ : subSeq ≠ []) (start : Int) :
    (∃ answer, indexOfSubSeq equals c subSeq start = some answer ∧
      Least equals c subSeq start answer) ↔
      0 ≤ start ∨ (c.length : Int) < start + subSeq.length := by
  obtain ⟨test, search, tests, outside⟩ :=
    @indexOfSubSeq_search α equals c subSeq some_ start
  rw [search]
  rcases Int.lt_or_le (c.length : Int) (start + subSeq.length) with full | room
  · rw [upTo_none (by omega)]
    refine ⟨fun _ => .inr full, fun _ => ⟨none, rfl, ?_⟩⟩
    intro j from_ occurs
    have high := occurs.within.2
    omega
  · constructor
    · rintro ⟨answer, run, _⟩
      rcases Int.lt_or_le start 0 with below | inside
      · rw [upTo_first (by omega)] at run
        simp only [firstIndex, outside start below, Option.bind_eq_bind, Option.bind_none] at run
        cases run
      · exact .inl inside
    · intro valid
      exact firstIndex_least ((c.length : Int) - subSeq.length + 1 - start).toNat (by omega) rfl
        fun i from_ => tests i (by omega)

end Finding

section Replaces

variable {equals : α → α → Bool} {front found old back pre source post d : List α}

theorem replaceWhen_middle {test : Bool} {start stop repStart : Int}
    (needed : source ≠ [] → test = true) (first : start = front.length)
    (last : stop = front.length + source.length - 1) (from_ : repStart = pre.length)
    (same : old.length = source.length) :
    replaceWhen test (front ++ (old ++ back)) start stop (pre ++ (source ++ post)) repStart =
      some (front ++ (source ++ back)) := by
  unfold replaceWhen
  split
  · exact replaceFrom_middle first last from_ same
  · next off =>
    obtain rfl : source = [] := by
      by_contra some_
      exact off (needed some_)
    obtain rfl : old = [] := List.eq_nil_of_length_eq_zero same
    rfl

variable [Inhabited α]

theorem copyReplaceFrom_middle {start stop : Int} (first : start = front.length)
    (last : stop = front.length + found.length - 1) :
    copyReplaceFrom (front ++ (found ++ back)) start stop d = some (front ++ (d ++ back)) := by
  have size : ((front ++ (found ++ back)).length : Int) + d.length - (stop - start + 1) =
      (front.length + (d.length + back.length) : Nat) := by
    simp only [List.length_append]
    omega
  have fresh : newArray ((front.length + (d.length + back.length) : Nat) : Int) =
      some (List.replicate front.length (default : α) ++
        (List.replicate d.length default ++ List.replicate back.length default)) := by
    rw [newArray, if_neg (by omega), Int.toNat_natCast]
    simp
  have begins : replaceWhen (0 < start) ([] ++ (List.replicate front.length default ++
        (List.replicate d.length default ++ List.replicate back.length default))) 0 (start - 1)
      ([] ++ (front ++ (found ++ back))) 0 =
        some ([] ++ (front ++ (List.replicate d.length default ++
          List.replicate back.length default))) := by
    apply replaceWhen_middle
    · intro some_
      have long := List.length_pos_iff.mpr some_
      simpa [first] using long
    · rfl
    · simp only [List.length_nil]
      omega
    · rfl
    · exact List.length_replicate
  have middle : replaceWhen (start ≤ start - 1 + d.length)
      (front ++ (List.replicate d.length default ++ List.replicate back.length default)) start
      (start - 1 + d.length) ([] ++ (d ++ [])) 0 =
        some (front ++ (d ++ List.replicate back.length default)) := by
    apply replaceWhen_middle
    · intro some_
      have long := List.length_pos_iff.mpr some_
      simp only [decide_eq_true_eq]
      omega
    · exact first
    · omega
    · rfl
    · exact List.length_replicate
  have ends : replaceWhen (start - 1 + d.length < ((front.length + (d.length + back.length) :
        Nat) : Int))
      ((front ++ d) ++ (List.replicate back.length default ++ [])) (start - 1 + d.length + 1)
      (((front.length + (d.length + back.length) : Nat) : Int) - 1)
      ((front ++ found) ++ (back ++ [])) (stop + 1) = some ((front ++ d) ++ (back ++ [])) := by
    apply replaceWhen_middle
    · intro some_
      have long := List.length_pos_iff.mpr some_
      simp only [decide_eq_true_eq]
      omega
    · simp only [List.length_append]
      omega
    · simp only [List.length_append]
      omega
    · simp only [List.length_append]
      omega
    · exact List.length_replicate
  simp only [List.nil_append, List.append_nil, List.append_assoc] at begins middle ends
  unfold copyReplaceFrom
  simp only [size, fresh, begins, middle, ends, Option.bind_eq_bind, Option.bind_some]

theorem replaceLoop_replaced {seq replacement : List α} (some_ : seq ≠ []) (n : Nat)
    (front rest : List α) (most : rest.length ≤ n) :
    ∃ rest', Replaced equals seq replacement rest rest' ∧ ∀ rounds, n < rounds →
      replaceLoop equals seq replacement rounds (front ++ rest) front.length =
        some (front ++ rest') := by
  induction n using Nat.strongRecOn generalizing front rest with
  | ind n ih =>
    obtain ⟨answer, search, least⟩ :=
      (@indexOfSubSeq_least_iff α equals (front ++ rest) seq some_ front.length).mpr
        (.inl (Int.natCast_nonneg _))
    cases answer with
    | none =>
      refine ⟨rest, .none_ ?_, ?_⟩
      · intro i occurs
        have low := occurs.within.1
        exact least (front.length + i) (by omega) (occurs.shift front)
      · intro rounds enough
        obtain ⟨rounds, rfl⟩ : ∃ k, rounds = k + 1 := ⟨rounds - 1, by omega⟩
        simp only [replaceLoop, search]
    | some i =>
      obtain ⟨from_, ⟨front₁, found, rest₁, whole, rfl, same⟩, first⟩ := least
      -- The occurrence starts behind a gap.
      obtain ⟨gap, rfl, rfl⟩ : ∃ gap, front₁ = front ++ gap ∧ rest = gap ++ (found ++ rest₁) := by
        rcases List.append_eq_append_iff.mp whole with ⟨gap, one, two⟩ | ⟨gap, one, two⟩
        · exact ⟨gap, one, two⟩
        · have nothing : gap = [] := by
            have length := congrArg List.length one
            rw [List.length_append] at length
            exact List.eq_nil_of_length_eq_zero (by omega)
          subst nothing
          exact ⟨[], by simpa using one.symm, by simpa using two.symm⟩
      have length := same.length_eq
      have pos := List.length_pos_iff.mpr some_
      rw [List.length_append, List.length_append] at most
      obtain ⟨rest', replaced, run⟩ := ih rest₁.length (by omega)
        (front ++ gap ++ replacement) rest₁ (Nat.le_refl _)
      refine ⟨gap ++ (replacement ++ rest'), .first same ?_ replaced, ?_⟩
      · intro j occurs
        have low := occurs.within.1
        have later := first (front.length + j) (by omega) (occurs.shift front)
        rw [List.length_append] at later
        omega
      · intro rounds enough
        obtain ⟨rounds, rfl⟩ : ∃ k, rounds = k + 1 := ⟨rounds - 1, by omega⟩
        have copies := @copyReplaceFrom_middle α (front ++ gap) found rest₁ replacement _
          ((front ++ gap).length) ((front ++ gap).length + (seq.length - 1)) rfl (by omega)
        have next := run rounds (by omega)
        rw [@List.length_append _ (front ++ gap) replacement, Int.natCast_add] at next
        simp only [replaceLoop, search]
        rw [whole, copies]
        simpa using next

theorem replaceLoop_endless (replacement : List α) (rounds : Nat) (result : List α)
    (start : Int) : replaceLoop equals [] replacement rounds result start = none := by
  induction rounds generalizing result start with
  | zero => rfl
  | succ rounds ih =>
    simp only [replaceLoop, indexOfSubSeq, if_pos, ih]
    cases copyReplaceFrom result start (start + (([] : List α).length - 1)) replacement <;> rfl

/-- Replacing is right for each pattern that is not empty, and does not end for the empty one;
the search is right as well if it starts inside, or leaves no room for the pattern. -/
theorem copyReplaceAll_right_iff (equals : α → α → Bool) (c seq replacement : List α)
    (start : Int) :
    ((∃ result, (∃ least, ∀ rounds, least < rounds →
          copyReplaceAll equals rounds c seq replacement = some result) ∧
        Replaced equals seq replacement c result) ∧
      ∃ answer, indexOfSubSeq equals c seq start = some answer ∧
        Least equals c seq start answer) ↔
      seq ≠ [] ∧ (0 ≤ start ∨ (c.length : Int) < start + seq.length) := by
  constructor
  · rintro ⟨⟨result, ⟨least, run⟩, _⟩, search⟩
    have some_ : seq ≠ [] := by
      rintro rfl
      have ends := run (least + 1) (Nat.lt_succ_self _)
      rw [copyReplaceAll, replaceLoop_endless] at ends
      cases ends
    exact ⟨some_, (indexOfSubSeq_least_iff some_ start).mp search⟩
  · rintro ⟨some_, valid⟩
    obtain ⟨result, replaced, run⟩ :=
      @replaceLoop_replaced α equals _ seq replacement some_ c.length [] c (Nat.le_refl _)
    exact ⟨⟨result, ⟨c.length, run⟩, replaced⟩, (indexOfSubSeq_least_iff some_ start).mpr valid⟩

theorem copyReplaceAll_empty_pattern :
    ¬ ∃ rounds, (copyReplaceAll (· == ·) rounds [1, 2] ([] : List Nat) [3]).isSome := by
  rintro ⟨rounds, ends⟩
  rw [copyReplaceAll, replaceLoop_endless] at ends
  cases ends

end Replaces

end SlateVm.Collections
