import SlateVm.Collections.QueueRuns

/-! `Queue` as an implementation of the list on which the same operations are performed, and
the steps on which it is not one. -/
namespace SlateVm.Collections.Queue

open Refinement Ring

variable {α : Type} {q : Queue α} {xs ys : List α} {f : Nat}

def Op.after (xs : List α) : Op α → List α
  | .addFirst obj => obj :: xs
  | .addLast obj => xs ++ [obj]
  | .addAllLast seq => xs ++ seq
  | .addAllFirst seq => seq ++ xs
  | .removeFirst => xs.tail
  | .removeLast => xs.dropLast
  | .removeFirstN n => if n ≤ xs.length then xs.drop n else xs
  | .removeLastN n => if n ≤ xs.length then xs.take (xs.length - n) else xs
  | .elementsDo | .elementsReverseDo => xs

def Op.answer (xs : List α) : Op α → Answer α
  | .addFirst obj | .addLast obj => .object obj
  | .addAllLast seq | .addAllFirst seq => .objects seq
  | .removeFirst => match xs.head? with
    | none => .signalled
    | some obj => .object obj
  | .removeLast => match xs.getLast? with
    | none => .signalled
    | some obj => .object obj
  | .removeFirstN n => if n ≤ xs.length then .objects (xs.take n) else .signalled
  | .removeLastN n => if n ≤ xs.length then .objects (xs.drop (xs.length - n)) else .signalled
  | .elementsDo => .objects xs
  | .elementsReverseDo => .objects xs.reverse

structure Shows (q : Queue α) (xs : List α) : Prop where
  size : q.size = xs.length
  isEmpty : q.lastIndex = q.firstIndex ↔ xs = []
  elements : ∀ i < xs.length, q.at? i = xs[i]?

def Spares (q : Queue α) : Op α → Prop
  | .removeFirst | .removeLast => q.size ≠ 0
  | .removeFirstN n => n ≤ q.size ∧ q.firstIndex + n < q.contentsSize
  | .removeLastN n => n ≤ q.size ∧ (n = 0 ∨ q.lastIndex < n)
  | .elementsDo => False
  | _ => True

def implementation [Inhabited α] : Implementation (Queue α) (List α) (Op α) (Answer α) where
  start q xs := ∃ n, q = new n ∧ xs = []
  perform := perform
  next xs op _ := op.after xs
  right xs op a := a = op.answer xs

theorem Holds.at? (holds : Holds q f xs) {i : Nat} (hi : i < xs.length) : q.at? i = xs[i]? := by
  have start := holds.laid.first
  have few := holds.few
  have item := holds.laid.items i hi
  unfold Queue.at? contentsSize
  rw [holds.first, ← item]
  simp only
  rcases Nat.lt_or_ge (f + i) q.contents.length with below | beyond
  · rw [place_straight below, if_neg (by omega)]
    exact arrayAt_nat q.contents (f + i)
  · rw [place_wrapped beyond, if_pos (by omega),
      show (f : Int) + i - q.contents.length = (f + i - q.contents.length : Nat) by omega]
    exact arrayAt_nat q.contents _

theorem Holds.shows (holds : Holds q f xs) : Shows q xs := by
  obtain ⟨l, last, ends⟩ := holds.ends
  have first := holds.first
  have few := holds.few
  have start := holds.laid.first
  constructor
  · exact holds.size
  · rw [← List.length_eq_zero_iff]
    omega
  · intro i hi
    exact holds.at? hi

variable [Inhabited α]

theorem holds_new (n : Nat) : Holds (new n : Queue α) 0 [] := by
  constructor
  · rfl
  · simp [new, place]
  · simp [new]
  · exact Laid.nil (by simp [new])

theorem vacate_changed {cs : List α} {start stop : Int} {s n : Nat} (first : start = s)
    (last : stop = s + n) (fits : s + n ≤ cs.length) : ∃ cs', vacate cs start stop = some cs' ∧
      cs'.length = cs.length ∧ ∀ p, p < s ∨ s + n ≤ p → cs'[p]? = cs[p]? := by
  obtain ⟨cs', fills, length, other⟩ := fill_some ((List.range n).map fun k => s + k) cs (by
    intro i hi
    obtain ⟨k, hk, rfl⟩ := List.mem_map.mp hi
    have below := List.mem_range.mp hk
    omega)
  refine ⟨cs', ?_, length, ?_⟩
  · unfold vacate
    rw [upTo_nat first (n := n) (by omega), List.foldlM_map]
    rw [List.foldlM_map] at fills
    exact fills
  · intro p outside
    apply other
    intro clash
    obtain ⟨k, hk, same⟩ := List.mem_map.mp clash
    have below := List.mem_range.mp hk
    omega

theorem Holds.removeFirst {x : α} (holds : Holds q f (x :: xs)) :
    ∃ q' f', q.removeFirst = some (q', x) ∧ Holds q' f' xs := by
  have start := holds.laid.first
  have few := holds.few
  simp only [List.length_cons] at few
  have item : q.contents[f]? = some x := by
    simpa using holds.laid.straight (i := 0) (by simp) (by omega)
  have turn : (q.firstIndex + 1) % q.contentsSize = place q.contents.length f 1 := by
    rw [holds.first]
    exact emod_forward (k := 1) start (by omega)
  refine ⟨⟨q.contents.set f default, (q.firstIndex + 1) % q.contentsSize, q.lastIndex⟩,
    place q.contents.length f 1, ?_, ?_⟩
  · unfold Queue.removeFirst
    simp only [holds.first, arrayAt_nat, item, arrayPut_nat start, Option.bind_eq_bind,
      Option.bind_some]
  · exact @Holds.withoutFirst α q [x] xs f _ _ holds (changed_set start default) turn

theorem Holds.removeLast {x : α} (holds : Holds q f (xs ++ [x])) :
    ∃ q', q.removeLast = some (q', x) ∧ Holds q' f xs := by
  have start := holds.laid.first
  have few := holds.few
  have last := holds.last
  simp only [List.length_append, List.length_singleton] at few last
  have inside := place_lt start (i := xs.length) (by omega)
  have turn : (q.lastIndex - 1) % q.contentsSize = place q.contents.length f xs.length := by
    rw [last, ← place_place start few]
    exact emod_back (k := 1) inside (by omega)
  have item : q.contents[place q.contents.length f xs.length]? = some x := by
    simpa using holds.laid.items xs.length (by simp)
  refine ⟨⟨q.contents.set (place q.contents.length f xs.length) default, q.firstIndex,
    (q.lastIndex - 1) % q.contentsSize⟩, ?_, ?_⟩
  · unfold Queue.removeLast
    simp only [turn, arrayAt_nat, item, arrayPut_nat inside, Option.bind_eq_bind,
      Option.bind_some]
  · exact @Holds.withoutLast α q xs [x] f _ _ holds (changed_set inside default) turn

theorem Holds.removeFirstN (holds : Holds q f (xs ++ ys))
    (below : f + xs.length < q.contents.length) :
    ∃ q' f', q.removeFirstN xs.length = some (q', xs) ∧ Holds q' f' ys := by
  have turn : (q.firstIndex + xs.length) % q.contentsSize =
      place q.contents.length f xs.length := by
    rw [holds.first]
    exact emod_forward holds.laid.first (by omega)
  obtain ⟨removed, copies, copied⟩ := @replaceBelow_copied α (List.replicate xs.length default)
    q.contents 0 xs.length q.firstIndex 0 xs.length f rfl (by omega) holds.first (by simp)
    (by omega)
  obtain ⟨cs, vacates, length, other⟩ := @vacate_changed α _ q.contents q.firstIndex
    (q.firstIndex + xs.length) f xs.length holds.first (by rw [holds.first]) (by omega)
  have all : removed = xs := by
    apply List.ext_getElem?
    intro i
    rcases Nat.lt_or_ge i xs.length with inside | outside
    · rw [← Nat.zero_add i, copied.inside i inside,
        holds.laid.straight (by simp; omega) (by omega), Nat.zero_add,
        List.getElem?_append_left inside]
    · rw [List.getElem?_eq_none (by rw [copied.length]; simpa using outside),
        List.getElem?_eq_none outside]
  subst all
  refine ⟨⟨cs, (q.firstIndex + removed.length) % q.contentsSize, q.lastIndex⟩,
    place q.contents.length f removed.length, ?_, ?_⟩
  · have first := holds.first
    unfold Queue.removeFirstN takeFirst
    simp only
    rw [if_neg (by rw [turn, place_straight below]; omega)]
    simp only [copies, vacates, Option.bind_eq_bind, Option.bind_some]
  · apply Holds.withoutFirst holds _ turn
    exact ⟨length, within_straight (by omega) other⟩

theorem Holds.removeLast_none (holds : Holds q f xs) :
    ∃ q', q.removeLastN 0 = some (q', []) ∧ Holds q' f xs := by
  have last := holds.last
  have inside := place_lt holds.laid.first holds.few
  have turn : (q.lastIndex - (0 : Nat)) % q.contentsSize = q.lastIndex := by
    rw [last]
    have same := emod_back (k := 0) inside (by omega)
    rw [place_zero inside] at same
    exact same
  obtain ⟨removed, copies, copied⟩ := @replaceBelow_copied α [] q.contents 0 0 q.lastIndex 0 0
    (place q.contents.length f xs.length) rfl rfl last (by simp) (by omega)
  have none_there : removed = [] := List.length_eq_zero_iff.mp copied.length
  subst none_there
  obtain ⟨cs, vacates, length, other⟩ := @vacate_changed α _ q.contents q.lastIndex q.lastIndex
    (place q.contents.length f xs.length) 0 last (by omega) (by omega)
  refine ⟨⟨cs, q.firstIndex, q.lastIndex⟩, ?_, ?_⟩
  · unfold Queue.removeLastN takeLast
    simp only [turn]
    rw [if_neg (by omega)]
    simp [copies, vacates]
  · apply @Holds.withoutLast α q xs [] f _ _ (by simpa using holds) _ last
    exact ⟨length, within_straight (by simp; omega) fun p _ => other p (by omega)⟩

theorem Holds.removeLastN (holds : Holds q f (xs ++ ys)) (beyond : q.lastIndex < ys.length) :
    ∃ q', q.removeLastN ys.length = some (q', ys) ∧ Holds q' f xs := by
  obtain ⟨l, last, ends⟩ := holds.ends
  have start := holds.laid.first
  have few := holds.few
  simp only [List.length_append] at few ends
  have below : f + xs.length < q.contents.length := by omega
  have from_ : place q.contents.length f xs.length = f + xs.length := place_straight below
  have turn : (q.lastIndex - ys.length) % q.contentsSize = (f + xs.length : Nat) := by
    have back := emod_back (k := ys.length) below (by omega)
    rw [place_wrapped (by omega)] at back
    rw [← back, last]
    congr 2
    omega
  obtain ⟨r₁, copies₁, lower⟩ := @replaceBelow_copied α (List.replicate ys.length default)
    q.contents (ys.length - q.lastIndex) ys.length 0 (ys.length - l) l 0 (by omega) (by omega) rfl
    (by simp; omega) (by omega)
  obtain ⟨r₂, copies₂, upper⟩ := @replaceBelow_copied α r₁ q.contents 0
    (ys.length - q.lastIndex) (q.contentsSize - (ys.length - q.lastIndex)) 0 (ys.length - l)
    (f + xs.length) rfl (by omega) (by unfold contentsSize; omega)
    (by rw [lower.length]; simp) (by omega)
  obtain ⟨c₁, vacates₁, length₁, other₁⟩ := @vacate_changed α _ q.contents 0
    (ys.length - (ys.length - q.lastIndex)) 0 l rfl (by omega) (by omega)
  obtain ⟨c₂, vacates₂, length₂, other₂⟩ := @vacate_changed α _ c₁ (f + xs.length : Nat)
    q.contentsSize (f + xs.length) (q.contents.length - (f + xs.length)) rfl
    (by unfold contentsSize; omega) (by omega)
  have count : r₂.length = ys.length := by
    rw [upper.length, lower.length, List.length_replicate]
  have all : r₂ = ys := by
    apply List.ext_getElem?
    intro i
    rcases Nat.lt_or_ge i (ys.length - l) with front | back
    · rw [← Nat.zero_add i, upper.inside i front, Nat.zero_add, Nat.add_assoc,
        holds.laid.straight (by simp; omega) (by omega),
        List.getElem?_append_right (by omega), Nat.add_sub_cancel_left]
    · rcases Nat.lt_or_ge i ys.length with inside | outside
      · rw [upper.outside i (by omega), show i = ys.length - l + (i - (ys.length - l)) by omega,
          lower.inside _ (by omega), Nat.zero_add,
          holds.laid.wrapped (by simp; omega), List.getElem?_append_right (by omega)]
        congr 1
        omega
      · rw [List.getElem?_eq_none (by omega), List.getElem?_eq_none outside]
  subst all
  refine ⟨⟨c₂, q.firstIndex, (f + xs.length : Nat)⟩, ?_, ?_⟩
  · unfold Queue.removeLastN takeLast
    simp only [turn]
    rw [if_pos (by omega)]
    simp only [copies₁, copies₂, vacates₁, vacates₂, Option.bind_eq_bind, Option.bind_some]
  · apply Holds.withoutLast holds _ (congrArg _ from_.symm)
    rw [from_]
    refine ⟨length₂.trans length₁, within_wrapped (by omega) below fun p behind outside => ?_⟩
    rw [other₂ p (by omega), other₁ p (by omega)]

omit [Inhabited α] in
theorem Holds.elementsReverseDo (holds : Holds q f xs) :
    q.elementsReverseDo = some xs.reverse := by
  have size := holds.size
  have places : downTo (q.size - 1) 0 = _ :=
    downTo_nat (s := 0) (n := xs.length) (by omega) rfl
  unfold Queue.elementsReverseDo
  rw [places, List.mapM_map]
  have visits := @mapM_range α xs.reverse fun k : Nat => q.at? (xs.length - 1 - k : Nat)
  rw [List.length_reverse] at visits
  simp only [Nat.zero_add]
  apply visits
  intro i hi
  rw [holds.at? (by omega), List.getElem?_reverse hi]

omit [Inhabited α] in
theorem visited_length {cs objs : List α} {start stop : Int} {s n : Nat} (first : start = s)
    (last : stop = s + n) (inside : s + n < cs.length) (visits : visited cs start stop = some objs) :
    objs.length = n + 1 := by
  unfold visited at visits
  rw [if_pos (by omega), fromTo_nat (n := n + 1) first (by omega) (by omega)] at visits
  simpa using mapM_length visits

omit [Inhabited α] in
theorem Holds.elementsDo (holds : Holds q f xs) {objs : List α}
    (visits : q.elementsDo = some objs) : objs.length = xs.length + 1 := by
  obtain ⟨l, last, ends⟩ := holds.ends
  have first := holds.first
  have start := holds.laid.first
  have few := holds.few
  unfold Queue.elementsDo at visits
  rw [holds.isSplit] at visits
  rcases ends with ⟨straight, end_⟩ | ⟨wrapped, end_⟩
  · rw [if_neg (by simpa using straight)] at visits
    exact visited_length first (by omega) straight visits
  · rw [if_pos (by simpa using wrapped)] at visits
    simp only [Option.bind_eq_bind, Option.bind_eq_some_iff] at visits
    obtain ⟨upper, visits₁, lower, visits₂, all⟩ := visits
    have above := visited_length (n := q.contents.length - 1 - f) first
      (by unfold contentsSize; omega) (by omega) visits₁
    have below := visited_length (s := 0) (n := l) rfl (by omega) (by omega) visits₂
    cases all
    rw [List.length_append]
    omega

def Represents (q : Queue α) (xs : List α) : Prop := ∃ f, Holds q f xs

omit [Inhabited α] in
theorem Holds.not_empty (holds : Holds q f xs) (some : q.size ≠ 0) : xs ≠ [] := by
  rintro rfl
  exact some holds.size

theorem step_some {op : Op α} {t : Queue α} {g : Nat}
    (run : perform q op = some (t, op.answer xs)) (holds : Holds t g (op.after xs)) :
    Step implementation Represents q xs op :=
  ⟨t, op.answer xs, run, rfl, g, holds⟩

theorem Holds.step (holds : Holds q f xs) (op : Op α) (spares : Spares q op) :
    Step implementation Represents q xs op := by
  have size := holds.size
  have first := holds.first
  cases op with
  | addFirst obj =>
    obtain ⟨q', f', run, after⟩ := holds.addFirst obj
    exact step_some (by simp [perform, run, Op.answer]) after
  | addLast obj =>
    obtain ⟨q', f', run, after⟩ := holds.addLast obj
    exact step_some (by simp [perform, run, Op.answer]) after
  | addAllLast seq =>
    obtain ⟨q', f', run, after⟩ := holds.addAllLast seq
    exact step_some (by simp [perform, run, Op.answer]) after
  | addAllFirst seq =>
    obtain ⟨q', f', run, after⟩ := holds.addAllFirst seq
    exact step_some (by simp [perform, run, Op.answer]) after
  | removeFirst =>
    obtain ⟨x, xs, rfl⟩ := List.exists_cons_of_ne_nil (holds.not_empty spares)
    obtain ⟨q', f', run, after⟩ := holds.removeFirst
    exact step_some (by simp [perform, run, Op.answer]) after
  | removeLast =>
    have some := holds.not_empty spares
    rw [← List.dropLast_concat_getLast some] at holds
    obtain ⟨q', run, after⟩ := holds.removeLast
    exact step_some (by simp [perform, run, Op.answer, List.getLast?_eq_some_getLast some]) after
  | removeFirstN n =>
    obtain ⟨few, below⟩ := spares
    have within : n ≤ xs.length := by omega
    have count : (xs.take n).length = n := List.length_take_of_le within
    obtain ⟨q', f', run, after⟩ := @Holds.removeFirstN α q (xs.take n) (xs.drop n) f _
      (by simpa using holds) (by unfold contentsSize at below; omega)
    rw [count] at run
    apply step_some (t := q') (g := f')
    · simp [perform, run, Op.answer, within]
    · simpa [Op.after, within] using after
  | removeLastN n =>
    obtain ⟨few, beyond⟩ := spares
    have within : n ≤ xs.length := by omega
    have count : (xs.drop (xs.length - n)).length = n := by simp; omega
    obtain ⟨q', run, after⟩ : ∃ q', q.removeLastN n = some (q', xs.drop (xs.length - n)) ∧
        Holds q' f (xs.take (xs.length - n)) := by
      rcases beyond with rfl | beyond
      · simpa using holds.removeLast_none
      · have taken := @Holds.removeLastN α q (xs.take (xs.length - n)) (xs.drop (xs.length - n)) f _
          (by simpa using holds) (by omega)
        rwa [count] at taken
    apply step_some (t := q') (g := f)
    · simp [perform, run, Op.answer, within]
    · simpa [Op.after, within] using after
  | elementsDo => exact absurd spares id
  | elementsReverseDo =>
    exact step_some (by simp [perform, holds.elementsReverseDo, Op.answer]) holds

/-- A `Queue` is the double-ended list on which the same operations are performed, as long as
the steps spare the defects; `do:` visits something else than the list in every state. -/
theorem queue_refines : Refines (implementation (α := α)) Spares Shows ∧
    ∀ q xs, Reached (implementation (α := α)) Spares q xs →
      ∀ q' a, perform q .elementsDo = some (q', a) → a ≠ Op.elementsDo.answer xs := by
  have first : ∀ (q : Queue α) xs, implementation.start q xs → Represents q xs := by
    rintro q xs ⟨n, rfl, rfl⟩
    exact ⟨0, holds_new n⟩
  constructor
  · apply Refines.of_steps Represents first
    · rintro q xs op ⟨f, holds⟩ spares
      exact holds.step op spares
    · rintro q xs ⟨f, holds⟩
      exact holds.shows
  · intro q xs reached q' a run answer
    obtain ⟨f, holds⟩ : Represents q xs := by
      apply reached.invariant first
      rintro q xs op q' a ⟨f, holds⟩ spares run
      obtain ⟨t, b, run', _, after⟩ := holds.step op spares
      cases run.symm.trans run'
      exact after
    simp only [perform, Option.map_eq_some_iff] at run
    obtain ⟨objs, visits, same⟩ := run
    cases same
    cases answer
    have more := holds.elementsDo visits
    omega

/-- On an empty queue `removeFirst` answers Nil and moves its cursor instead of signalling. -/
theorem empty_removal_answers : ¬ ∀ (α : Type) [Inhabited α],
    Refines (implementation (α := α)) (fun _ _ => True) Shows := by
  intro refines
  apply Refines.not_of_answer (i := implementation (α := Nat)) (s := new 3) (m := [])
    ⟨3, rfl, rfl⟩ [] .removeFirst
    (fun xs a => match a with | .signalled => true | _ => !xs.isEmpty) (by decide +kernel) _
    (refines Nat)
  rintro xs a rfl
  cases xs <;> rfl

end SlateVm.Collections.Queue
