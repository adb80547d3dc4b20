import SlateVm.Collections.ArrayRuns

/-! `ExtensibleArray` refines a plain list. -/
namespace SlateVm.Collections.ExtensibleArray

open Refinement

variable {α : Type}

/-- The place of an index that a sequence of `n` elements has as a key. -/
def key (n : Nat) (index : Int) : Option Nat :=
  if 0 ≤ index ∧ index < n then some index.toNat else none

def gap (n : Nat) (index : Int) : Option Nat :=
  if 0 ≤ index ∧ index ≤ n then some index.toNat else none

def Op.after (equals : α → α → Bool) (xs : List α) : Op α → List α
  | .addFirst obj => obj :: xs
  | .addLast obj => xs ++ [obj]
  | .atPut index value => match key xs.length index with
    | none => xs
    | some k => xs.set k value
  | .atInsert index obj => match gap xs.length index with
    | none => xs
    | some k => xs.take k ++ obj :: xs.drop k
  | .atInsertAll index col => match gap xs.length index with
    | none => xs
    | some k => xs.take k ++ col ++ xs.drop k
  | .addAfter obj member => match xs.findIdx? (equals · member) with
    | none => xs
    | some k => xs.take (k + 1) ++ obj :: xs.drop (k + 1)
  | .addBefore obj member => match xs.findIdx? (equals · member) with
    | none => xs
    | some k => xs.take k ++ obj :: xs.drop k
  | .remove obj => match xs.findIdx? (equals obj) with
    | none => xs
    | some k => xs.eraseIdx k
  | .removeAt index => match key xs.length index with
    | none => xs
    | some k => xs.eraseIdx k
  | .removeFirst => xs.tail
  | .removeLast => xs.dropLast
  | .removeFirstN n => xs.drop n
  | .removeLastN n => xs.take (xs.length - n)
  | .atRemove index n => if index < 0 then xs
    else xs.take index.toNat ++ xs.drop (index.toNat + n)
  | .removeAllSuchThat test => xs.filter fun x => !test x
  | .moveTo obj index => match xs.findIdx? (equals · obj), key xs.length index with
    | some k, some i => (xs.eraseIdx k).take i ++ obj :: (xs.eraseIdx k).drop i
    | _, _ => xs
  | .clear => []

def Op.answer (equals : α → α → Bool) (xs : List α) : Op α → Answer α
  | .addFirst obj | .addLast obj => .object obj
  | .atPut index value => match key xs.length index with
    | none => .signalled
    | some _ => .object value
  | .atInsert index obj => match gap xs.length index with
    | none => .signalled
    | some _ => .object obj
  | .atInsertAll index _ => match gap xs.length index with
    | none => .signalled
    | some _ => .self
  | .addAfter obj member | .addBefore obj member =>
    match xs.findIdx? (equals · member) with
    | none => .nothing
    | some _ => .object obj
  | .remove obj => match xs.findIdx? (equals obj) with
    | none => .block
    | some _ => .object obj
  | .removeAt index => match (key xs.length index).bind (xs[·]?) with
    | none => .signalled
    | some obj => .object obj
  | .removeFirst => match xs.head? with
    | none => .signalled
    | some obj => .object obj
  | .removeLast => match xs.getLast? with
    | none => .signalled
    | some obj => .object obj
  | .removeFirstN n => .objects (xs.take n)
  | .removeLastN n => .objects (xs.drop (xs.length - n))
  | .atRemove index _ => if index < 0 then .signalled else .self
  | .removeAllSuchThat _ => .self
  | .moveTo obj index => match xs.findIdx? (equals · obj), key xs.length index with
    | some _, some _ => .self
    | _, _ => .signalled
  | .clear => .self

def at? (es : ExtensibleArray α) (index : Int) : Option α :=
  if es.includesKey index then arrayAt es.contents (es.firstIndex + index) else none

structure Shows (es : ExtensibleArray α) (xs : List α) : Prop where
  size : es.size = xs.length
  elements : ∀ i : Nat, es.at? i = xs[i]?
  first : 0 ≤ es.firstIndex
  last : es.lastIndex < es.capacity

def Spares (equals : α → α → Bool) (es : ExtensibleArray α) : Op α → Prop
  | .addAfter _ member | .addBefore _ member =>
    es.firstIndex = 0 ∨ es.find equals member = none
  | .removeFirstN n => es.firstIndex = 0 ∨ n = 0 ∨ es.size = 0
  | .atRemove index n => 0 ≤ index ∧ (n = 0 ∨ index + n ≤ es.size)
  | .removeAllSuchThat test => ∃ i : Nat, (es.at? i).any test = true
  | .moveTo obj index => es.find equals obj = none ∨ index < 0 ∨ es.size ≤ index
  | _ => True

def implementation [Inhabited α] (equals : α → α → Bool) :
    Implementation (ExtensibleArray α) (List α) (Op α) (Answer α) where
  start es xs := ∃ n, es = new n ∧ xs = []
  perform := perform equals
  next xs op _ := op.after equals xs
  right xs op answer := answer = op.answer equals xs

variable {es : ExtensibleArray α} {xs : List α} {f : Nat} {equals : α → α → Bool}

theorem key_some {n k : Nat} {index : Int} (found : key n index = some k) :
    k < n ∧ index = k := by
  unfold key at found
  split at found
  · cases found
    omega
  · cases found

theorem gap_some {n k : Nat} {index : Int} (found : gap n index = some k) :
    k ≤ n ∧ index = k := by
  unfold gap at found
  split at found
  · cases found
    omega
  · cases found

theorem Holds.includesKey (holds : Holds es f xs) (index : Int) :
    es.includesKey index = (key xs.length index).isSome := by
  unfold ExtensibleArray.includesKey key
  rw [holds.size]
  split <;> simp <;> omega

theorem Holds.refusesGap (holds : Holds es f xs) (index : Int) :
    es.refusesGap index = (gap xs.length index).isNone := by
  unfold ExtensibleArray.refusesGap gap
  rw [holds.size]
  split <;> simp <;> omega

theorem Holds.at? (holds : Holds es f xs) (i : Nat) : es.at? i = xs[i]? := by
  unfold ExtensibleArray.at?
  rw [holds.includesKey]
  rcases Nat.lt_or_ge i xs.length with inside | outside
  · have found : key xs.length i = some i := by simp [key, inside]
    rw [found, holds.arrayAt inside, List.getElem?_eq_getElem inside]
    rfl
  · have missing : key xs.length i = none := by simp [key, outside]
    rw [missing, List.getElem?_eq_none outside]
    rfl

theorem Holds.shows (holds : Holds es f xs) : Shows es xs := by
  have first := holds.first
  have last := holds.last
  have fits := holds.fits
  constructor
  · exact holds.size
  · exact holds.at?
  · omega
  · simp only [capacity]
    omega

theorem Holds.find (equals : α → α → Bool) (holds : Holds es f xs) (member : α) :
    es.find equals member =
      (xs.findIdx? (equals · member)).map fun k => ((f + k : Nat) : Int) :=
  holds.find_raw (equals · member)

variable [Inhabited α]

def Represents (es : ExtensibleArray α) (xs : List α) : Prop := ∃ f, Holds es f xs

attribute [local simp] perform Op.after Op.answer

theorem step_some {op : Op α} {t : ExtensibleArray α} {g : Nat}
    (run : perform equals es op = some (t, op.answer equals xs))
    (holds : Holds t g (op.after equals xs)) :
    Step (implementation equals) Represents es xs op :=
  ⟨t, op.answer equals xs, run, rfl, g, holds⟩

theorem Holds.step_insert (holds : Holds es f xs) (index : Int) (obj : α) :
    Step (implementation equals) Represents es xs (.atInsert index obj) := by
  have refused := holds.refusesGap index
  cases found : gap xs.length index with
  | none =>
    rw [found] at refused
    apply step_some (t := es) (g := f)
    · simp [perform, refused, Op.answer, found]
    · simpa [Op.after, found] using holds
  | some k =>
    obtain ⟨within, rfl⟩ := gap_some found
    rw [found] at refused
    obtain ⟨es', f', run, after⟩ := holds.atInsert within obj
    apply step_some (t := es') (g := f')
    · simp [perform, refused, run, Op.answer, found]
    · simpa [Op.after, found] using after

theorem Holds.step_insertAll (holds : Holds es f xs) (index : Int) (col : List α) :
    Step (implementation equals) Represents es xs (.atInsertAll index col) := by
  have refused := holds.refusesGap index
  cases found : gap xs.length index with
  | none =>
    rw [found] at refused
    apply step_some (t := es) (g := f)
    · simp [perform, refused, Op.answer, found]
    · simpa [Op.after, found] using holds
  | some k =>
    obtain ⟨within, rfl⟩ := gap_some found
    rw [found] at refused
    obtain ⟨es', f', run, after⟩ := holds.atInsertAll within col
    apply step_some (t := es') (g := f')
    · simp [perform, refused, run, Op.answer, found]
    · simpa [Op.after, found] using after

theorem Holds.step_put (holds : Holds es f xs) (index : Int) (value : α) :
    Step (implementation equals) Represents es xs (.atPut index value) := by
  have known := holds.includesKey index
  cases found : key xs.length index with
  | none =>
    rw [found] at known
    apply step_some (t := es) (g := f)
    · simp [perform, known, Op.answer, found]
    · simpa [Op.after, found] using holds
  | some k =>
    obtain ⟨within, rfl⟩ := key_some found
    rw [found] at known
    obtain ⟨es', run, after⟩ := holds.atPut within value
    apply step_some (t := es') (g := f)
    · simp [perform, known, run, Op.answer, found]
    · simpa [Op.after, found] using after

theorem Holds.step_removeAt (holds : Holds es f xs) (index : Int) :
    Step (implementation equals) Represents es xs (.removeAt index) := by
  have known := holds.includesKey index
  cases found : key xs.length index with
  | none =>
    rw [found] at known
    apply step_some (t := es) (g := f)
    · simp [perform, known, Op.answer, found]
    · simpa [Op.after, found] using holds
  | some k =>
    obtain ⟨within, rfl⟩ := key_some found
    rw [found] at known
    obtain ⟨es', run, after⟩ := holds.removeAt within
    apply step_some (t := es') (g := f)
    · simp [perform, known, run, Op.answer, found, within]
    · simpa [Op.after, found] using after

theorem Holds.step_after (holds : Holds es f xs) {obj member : α}
    (spares : es.firstIndex = 0 ∨ es.find equals member = none) :
    Step (implementation equals) Represents es xs (.addAfter obj member) := by
  have raw := holds.find equals member
  cases found : xs.findIdx? (equals · member) with
  | none =>
    rw [found, Option.map_none] at raw
    apply step_some (t := es) (g := f)
    · simp [perform, raw, Op.answer, found]
    · simpa [Op.after, found] using holds
  | some k =>
    rw [found, Option.map_some] at raw
    have zero : f = 0 := by
      rcases spares with first | missing
      · have start := holds.first
        omega
      · simp [raw] at missing
    subst zero
    obtain ⟨inside, _⟩ := List.findIdx?_eq_some_iff_getElem.mp found
    have place : ((0 + k : Nat) : Int) + 1 = ((k + 1 : Nat) : Int) := by omega
    have accepted : es.refusesGap ((k + 1 : Nat) : Int) = false := by
      rw [holds.refusesGap]
      simp only [gap]
      rw [if_pos (by omega)]
      rfl
    obtain ⟨es', f', run, after⟩ := holds.atInsert (k := k + 1) inside obj
    apply step_some (t := es') (g := f')
    · simp only [perform, raw, place, accepted, run, Op.answer, found]
      rfl
    · simpa [Op.after, found] using after

theorem Holds.step_before (holds : Holds es f xs) {obj member : α}
    (spares : es.firstIndex = 0 ∨ es.find equals member = none) :
    Step (implementation equals) Represents es xs (.addBefore obj member) := by
  have raw := holds.find equals member
  cases found : xs.findIdx? (equals · member) with
  | none =>
    rw [found, Option.map_none] at raw
    apply step_some (t := es) (g := f)
    · simp [perform, raw, Op.answer, found]
    · simpa [Op.after, found] using holds
  | some k =>
    rw [found, Option.map_some] at raw
    have zero : f = 0 := by
      rcases spares with first | missing
      · have start := holds.first
        omega
      · simp [raw] at missing
    subst zero
    obtain ⟨inside, _⟩ := List.findIdx?_eq_some_iff_getElem.mp found
    have place : ((0 + k : Nat) : Int) = (k : Int) := by omega
    have accepted : es.refusesGap (k : Int) = false := by
      rw [holds.refusesGap]
      simp only [gap]
      rw [if_pos (by omega)]
      rfl
    obtain ⟨es', f', run, after⟩ := holds.atInsert (k := k) (Nat.le_of_lt inside) obj
    apply step_some (t := es') (g := f')
    · simp only [perform, raw, place, accepted, run, Op.answer, found]
      rfl
    · simpa [Op.after, found] using after

theorem Holds.step_remove (holds : Holds es f xs) (obj : α) :
    Step (implementation equals) Represents es xs (.remove obj) := by
  rcases holds.remove equals obj with ⟨found, run⟩ | ⟨k, es', found, run, after⟩
  · apply step_some (t := es) (g := f)
    · simp [perform, run, Op.answer, found]
    · simpa [Op.after, found] using holds
  · apply step_some (t := es') (g := f)
    · simp [perform, run, Op.answer, found]
    · simpa [Op.after, found] using after

theorem Holds.step_removeFirst (holds : Holds es f xs) :
    Step (implementation equals) Represents es xs .removeFirst := by
  have size := holds.size
  cases xs with
  | nil =>
    apply step_some (t := es) (g := f)
    · simp [perform, size, Op.answer]
    · exact holds
  | cons x xs =>
    obtain ⟨es', run, after⟩ := holds.removeFirst
    have some : ¬ es.size = 0 := by
      simp only [List.length_cons] at size
      omega
    apply step_some (t := es') (g := f + 1)
    · simp [perform, some, run, Op.answer]
    · exact after

theorem Holds.step_removeLast (holds : Holds es f xs) :
    Step (implementation equals) Represents es xs .removeLast := by
  have size := holds.size
  rcases List.eq_nil_or_concat xs with rfl | ⟨front, x, rfl⟩
  · apply step_some (t := es) (g := f)
    · simp [perform, size, Op.answer]
    · exact holds
  · rw [List.concat_eq_append] at holds size ⊢
    obtain ⟨es', run, after⟩ := holds.removeLast
    have some : ¬ es.size = 0 := by
      simp only [List.length_append, List.length_singleton] at size
      omega
    apply step_some (t := es') (g := f)
    · simp [perform, some, run, Op.answer]
    · simpa [Op.after] using after

theorem Holds.step_atRemove (holds : Holds es f xs) {index : Int} {n : Nat}
    (spares : 0 ≤ index ∧ (n = 0 ∨ index + n ≤ es.size)) :
    Step (implementation equals) Represents es xs (.atRemove index n) := by
  obtain ⟨low, within⟩ := spares
  obtain ⟨k, rfl⟩ := Int.eq_ofNat_of_zero_le low
  rw [holds.size] at within
  obtain ⟨es', run, after⟩ := holds.atRemove (k := k) (n := n) (by omega)
  have positive : ¬ (k : Int) < 0 := by omega
  apply step_some (t := es') (g := f)
  · simp only [perform, run, Op.answer, if_neg positive]
    rfl
  · simpa [Op.after, positive] using after

theorem Holds.step_suchThat (holds : Holds es f xs) {test : α → Bool}
    (spares : ∃ i : Nat, (es.at? i).any test = true) :
    Step (implementation equals) Represents es xs (.removeAllSuchThat test) := by
  obtain ⟨i, passes⟩ := spares
  rw [holds.at?] at passes
  have member : ∃ x ∈ xs, test x = true := by
    cases here : xs[i]? with
    | none => simp [here] at passes
    | some x => exact ⟨x, List.mem_of_getElem? here, by simpa [here] using passes⟩
  obtain ⟨es', run, after⟩ := holds.removeAllSuchThat member
  apply step_some (t := es') (g := f)
  · simp [perform, run, Op.answer]
  · exact after

theorem Holds.step_move (holds : Holds es f xs) {obj : α} {index : Int}
    (spares : es.find equals obj = none ∨ index < 0 ∨ es.size ≤ index) :
    Step (implementation equals) Represents es xs (.moveTo obj index) := by
  have raw := holds.find equals obj
  have refused : xs.findIdx? (equals · obj) = none ∨ key xs.length index = none := by
    rcases spares with missing | outside
    · rw [missing] at raw
      exact Or.inl (Option.map_eq_none_iff.mp raw.symm)
    · rw [holds.size] at outside
      right
      unfold key
      rw [if_neg (by omega)]
  have signals : perform equals es (.moveTo obj index) = some (es, .signalled) := by
    simp only [perform]
    split <;> rfl
  have answer : (Op.moveTo obj index).answer equals xs = .signalled := by
    rcases refused with missing | outside
    · simp [Op.answer, missing]
    · simp [Op.answer, outside]
  have after : (Op.moveTo obj index).after equals xs = xs := by
    rcases refused with missing | outside
    · simp [Op.after, missing]
    · simp [Op.after, outside]
  apply step_some (t := es) (g := f)
  · rw [signals, answer]
  · rw [after]
    exact holds

theorem Holds.step (holds : Holds es f xs) (op : Op α) (spares : Spares equals es op) :
    Step (implementation equals) Represents es xs op := by
  have size := holds.size
  have first := holds.first
  cases op with
  | addFirst obj =>
    obtain ⟨es', f', run, after⟩ := holds.addFirst obj
    exact step_some (by simp [perform, run, Op.answer]) after
  | addLast obj =>
    obtain ⟨es', f', run, after⟩ := holds.addLast obj
    exact step_some (by simp [perform, run, Op.answer]) after
  | atPut index value => exact holds.step_put index value
  | atInsert index obj => exact holds.step_insert index obj
  | atInsertAll index col => exact holds.step_insertAll index col
  | addAfter obj member => exact holds.step_after spares
  | addBefore obj member => exact holds.step_before spares
  | remove obj => exact holds.step_remove obj
  | removeAt index => exact holds.step_removeAt index
  | removeFirst => exact holds.step_removeFirst
  | removeLast => exact holds.step_removeLast
  | removeFirstN n =>
    obtain ⟨es', run, after⟩ := holds.removeFirstN n (by
      simp only [Spares] at spares
      omega)
    exact step_some (by simp [perform, run, Op.answer]) after
  | removeLastN n =>
    obtain ⟨es', run, after⟩ := holds.removeLastN n
    exact step_some (by simp [perform, run, Op.answer]) after
  | atRemove index n => exact holds.step_atRemove spares
  | removeAllSuchThat test => exact holds.step_suchThat spares
  | moveTo obj index => exact holds.step_move spares
  | clear => exact step_some rfl (holds_clear es)

end SlateVm.Collections.ExtensibleArray
