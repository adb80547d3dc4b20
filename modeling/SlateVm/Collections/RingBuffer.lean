import SlateVm.Collections.QueueRefines

/-! `RingBuffer`: a `Queue` that does not grow, and overwrites what is at the other end. -/
namespace SlateVm.Collections.RingBuffer

open Refinement Ring Queue

variable {α : Type} [Inhabited α]

/-- `sliceFrom:`, of which the elements are read. -/
def sliceFrom (seq : List α) (start : Int) : List α := seq.drop start.toNat

def added (r : Queue α) (seq : List α) : List α :=
  if seq.length > r.capacity then sliceFrom seq (seq.length - r.capacity) else seq

def addLast (r : Queue α) (obj : α) : Option (Queue α) := do
  let contents ← arrayPut r.contents r.lastIndex obj
  let firstIndex := if r.isFull then (r.firstIndex + 1) % r.contentsSize else r.firstIndex
  some ⟨contents, firstIndex, (r.lastIndex + 1) % r.contentsSize⟩

def addFirst (r : Queue α) (obj : α) : Option (Queue α) := do
  let lastIndex := if r.isFull then (r.lastIndex - 1) % r.contentsSize else r.lastIndex
  let firstIndex := (r.firstIndex - 1) % r.contentsSize
  let contents ← arrayPut r.contents firstIndex obj
  some ⟨contents, firstIndex, lastIndex⟩

/-- `addAllLast:`, with a sequence other than the buffer. -/
def addAllLast (r : Queue α) (seq : List α) : Option (Queue α × List α) := do
  let seq := added r seq
  let newLastIndex := (r.lastIndex + seq.length) % r.contentsSize
  let firstIndex :=
    if seq.length > r.gapSize then (r.firstIndex + (seq.length - r.gapSize)) % r.contentsSize
    else r.firstIndex
  let contents ← r.storeLast seq newLastIndex
  some (⟨contents, firstIndex, newLastIndex⟩, seq)

/-- `addAllFirst:`, with a sequence other than the buffer. -/
def addAllFirst (r : Queue α) (seq : List α) : Option (Queue α × List α) := do
  let seq := added r seq
  let newFirstIndex := (r.firstIndex - seq.length) % r.contentsSize
  let lastIndex :=
    if seq.length > r.gapSize then (r.lastIndex - (seq.length - r.gapSize)) % r.contentsSize
    else r.lastIndex
  let contents ← r.storeFirst seq newFirstIndex
  some (⟨contents, newFirstIndex, lastIndex⟩, seq)

/-- The operations of the runs; removals are those of `Queue`. -/
inductive Op (α : Type) where
  | addLast (obj : α)
  | addFirst (obj : α)
  | addAllLast (seq : List α)
  | addAllFirst (seq : List α)
  | removeFirst
  | removeLast

def perform (r : Queue α) : Op α → Option (Queue α × Answer α)
  | .addLast obj => (addLast r obj).map (·, .object obj)
  | .addFirst obj => (addFirst r obj).map (·, .object obj)
  | .addAllLast seq => (addAllLast r seq).map fun (r, seq) => (r, .objects seq)
  | .addAllFirst seq => (addAllFirst r seq).map fun (r, seq) => (r, .objects seq)
  | .removeFirst => r.removeFirst.map fun (r, obj) => (r, .object obj)
  | .removeLast => r.removeLast.map fun (r, obj) => (r, .object obj)

/-- A list that keeps no more than `capacity` elements. -/
structure Bounded (α : Type) where
  capacity : Nat
  elements : List α

def Bounded.append (b : Bounded α) (seq : List α) : Bounded α :=
  { b with elements := (b.elements ++ seq).drop (b.elements.length + seq.length - b.capacity) }

def Bounded.prepend (b : Bounded α) (seq : List α) : Bounded α :=
  { b with elements := (seq ++ b.elements).take b.capacity }

def Op.after (b : Bounded α) : Op α → Bounded α
  | .addLast obj => b.append [obj]
  | .addFirst obj => b.prepend [obj]
  | .addAllLast seq => b.append seq
  | .addAllFirst seq => b.prepend seq
  | .removeFirst => { b with elements := b.elements.tail }
  | .removeLast => { b with elements := b.elements.dropLast }

def Op.Right (b : Bounded α) : Op α → Answer α → Prop
  | .removeFirst, a => a = Queue.Op.answer b.elements .removeFirst
  | .removeLast, a => a = Queue.Op.answer b.elements .removeLast
  | _, _ => True

def implementation : Implementation (Queue α) (Bounded α) (Op α) (Answer α) where
  start r b := 0 < b.capacity ∧ r = new b.capacity ∧ b.elements = []
  perform := perform
  next b op _ := op.after b
  right b op a := op.Right b a

structure Shows (r : Queue α) (b : Bounded α) : Prop where
  elements : Queue.Shows r b.elements
  capacity : r.capacity = b.capacity
  bounded : b.elements.length ≤ b.capacity

/-- The steps that do not run into a defect: nothing is removed from an empty buffer, and of a
sequence too long to be added at the front the first elements are the last ones. -/
def Spares (r : Queue α) : Op α → Prop
  | .addAllFirst seq => seq.length ≤ r.capacity ∨
      seq.take r.capacity.toNat = seq.drop (seq.length - r.capacity.toNat)
  | .removeFirst | .removeLast => r.size ≠ 0
  | _ => True

end SlateVm.Collections.RingBuffer

/-! `RingBuffer` as an implementation of the list that drops elements when it exceeds its
capacity. An overwriting addition first forgets elements at the other end, by its cursor. -/
namespace SlateVm.Collections.RingBuffer

open Refinement Ring Queue

variable {α : Type} {r : Queue α} {b : Bounded α} {xs ys : List α} {f : Nat}

theorem changed_refl (cs : List α) (g k : Nat) : Changed cs cs g k := ⟨rfl, fun _ _ => rfl⟩

theorem Holds.forgetFirst (holds : Holds r f xs) {k : Nat} (within : k ≤ xs.length) :
    Holds ⟨r.contents, place r.contents.length f k, r.lastIndex⟩ (place r.contents.length f k)
      (xs.drop k) := by
  have count : (xs.take k).length = k := List.length_take_of_le within
  have gone := @Holds.withoutFirst α r (xs.take k) (xs.drop k) f r.contents
    (place r.contents.length f (xs.take k).length) (by rwa [List.take_append_drop])
    (changed_refl _ _ _) rfl
  rwa [count] at gone

theorem Holds.forgetLast (holds : Holds r f xs) (k : Nat) :
    Holds ⟨r.contents, r.firstIndex, place r.contents.length f (xs.length - k)⟩ f
      (xs.take (xs.length - k)) := by
  have count : (xs.take (xs.length - k)).length = xs.length - k :=
    List.length_take_of_le (Nat.sub_le _ _)
  have gone := @Holds.withoutLast α r (xs.take (xs.length - k)) (xs.drop (xs.length - k)) f
    r.contents (place r.contents.length f (xs.take (xs.length - k)).length)
    (by rwa [List.take_append_drop]) (changed_refl _ _ _) rfl
  rwa [count] at gone

theorem last_back (holds : Holds r f xs) {k : Nat} (within : k ≤ xs.length) :
    (r.lastIndex - k) % r.contentsSize = place r.contents.length f (xs.length - k) := by
  have few := holds.few
  have inside := place_lt (i := xs.length - k) holds.laid.first (by omega)
  have there : place r.contents.length (place r.contents.length f (xs.length - k)) k =
      place r.contents.length f xs.length := by
    rw [place_place holds.laid.first (by omega)]
    congr 1
    omega
  rw [holds.last, ← there]
  exact emod_back inside (by omega)

theorem Holds.overwriteLast (holds : Holds r f xs) (few : ys.length < r.contents.length)
    {cs : List α}
    (changed : Changed r.contents cs (place r.contents.length f xs.length) ys.length)
    (laid : Laid (cs[·]?) r.contents.length (place r.contents.length f xs.length) ys) {k : Nat}
    (forgets : k = xs.length + ys.length - (r.contents.length - 1)) :
    Holds ⟨cs, place r.contents.length f k,
        place r.contents.length (place r.contents.length f xs.length) ys.length⟩
      (place r.contents.length f k) ((xs ++ ys).drop k) := by
  have room := holds.few
  have gone := Holds.forgetFirst holds (k := k) (by omega)
  have from_ : place r.contents.length (place r.contents.length f k) (xs.drop k).length =
      place r.contents.length f xs.length := by
    rw [List.length_drop, place_place holds.laid.first (by omega)]
    congr 1
    omega
  rw [List.drop_append_of_le_length (by omega)]
  refine gone.behind (by rwa [from_]) (by rwa [from_]) ?_ ?_
  · rw [List.length_drop]
    simp only
    omega
  · rw [← from_, place_place (place_lt holds.laid.first (by omega))]
    rw [List.length_drop]
    omega

theorem Holds.overwriteFirst (holds : Holds r f xs) (few : ys.length < r.contents.length)
    {cs : List α} {g : Nat} (changed : Changed r.contents cs g ys.length)
    (laid : Laid (cs[·]?) r.contents.length g ys) (next : place r.contents.length g ys.length = f)
    {k : Nat} (forgets : k = xs.length + ys.length - (r.contents.length - 1)) :
    Holds ⟨cs, g, place r.contents.length f (xs.length - k)⟩ g
      ((ys ++ xs).take (r.contents.length - 1)) := by
  have room := holds.few
  have gone := Holds.forgetLast holds k
  have kept : (ys ++ xs).take (r.contents.length - 1) = ys ++ xs.take (xs.length - k) := by
    rw [List.take_append, List.take_of_length_le (by omega)]
    rcases Nat.eq_zero_or_pos k with rfl | some
    · rw [List.take_of_length_le (by omega), List.take_of_length_le (by omega)]
    · congr 2
      omega
  rw [kept]
  refine gone.before changed laid ?_ next
  rw [List.length_take]
  simp only
  omega

/-- The buffer has an array with a place more than the list can have elements, and holds the
list in it. -/
structure Represents (r : Queue α) (b : Bounded α) : Prop where
  positive : 0 < b.capacity
  size : r.contents.length = b.capacity + 1
  holds : ∃ f, Holds r f b.elements

theorem first_overwritten (holds : Holds r f xs) {n : Nat} (few : n < r.contents.length) :
    (if n > r.gapSize then (r.firstIndex + (n - r.gapSize)) % r.contentsSize
      else r.firstIndex) =
      place r.contents.length f (xs.length + n - (r.contents.length - 1)) := by
  have room := holds.few
  rw [holds.gapSize, holds.first]
  split
  · have excess : (n : Int) - (r.contents.length - 1 - xs.length) =
        (xs.length + n - (r.contents.length - 1) : Nat) := by omega
    rw [excess]
    exact emod_forward holds.laid.first (by omega)
  · rw [show xs.length + n - (r.contents.length - 1) = 0 by omega, place_zero holds.laid.first]

theorem last_overwritten (holds : Holds r f xs) {n : Nat} (few : n < r.contents.length) :
    (if n > r.gapSize then (r.lastIndex - (n - r.gapSize)) % r.contentsSize else r.lastIndex) =
      place r.contents.length f
        (xs.length - (xs.length + n - (r.contents.length - 1))) := by
  have room := holds.few
  rw [holds.gapSize]
  split
  · have excess : (n : Int) - (r.contents.length - 1 - xs.length) =
        (xs.length + n - (r.contents.length - 1) : Nat) := by omega
    rw [excess]
    exact last_back holds (by omega)
  · rw [show xs.length + n - (r.contents.length - 1) = 0 by omega, Nat.sub_zero, holds.last]

theorem isFull_excess (holds : Holds r f xs) (moved : Int → Int) (kept : Int) :
    (if r.isFull then moved 1 else kept) =
      if [()].length > r.gapSize
      then moved ([()].length - r.gapSize) else kept := by
  have few := holds.few
  have gap := holds.gapSize
  rw [holds.isFull]
  split
  · next full =>
    rw [decide_eq_true_iff] at full
    rw [List.length_singleton, if_pos (by omega), show ((1 : Nat) : Int) - r.gapSize = 1 by omega]
  · next free =>
    rw [decide_eq_true_iff] at free
    rw [List.length_singleton, if_neg (by omega)]

theorem Represents.overwriteLast (represents : Represents r b) {seq cs : List α}
    (few : seq.length ≤ b.capacity) {l : Nat} (last : r.lastIndex = l)
    (changed : Changed r.contents cs l seq.length) (laid : Laid (cs[·]?) r.contents.length l seq) :
    Represents ⟨cs, if seq.length > r.gapSize
        then (r.firstIndex + (seq.length - r.gapSize)) % r.contentsSize else r.firstIndex,
      (r.lastIndex + seq.length) % r.contentsSize⟩ (b.append seq) := by
  obtain ⟨f, holds⟩ := represents.holds
  have size := represents.size
  have there : l = place r.contents.length f b.elements.length := by
    have same := last.symm.trans holds.last
    omega
  have turn : (r.lastIndex + seq.length) % r.contentsSize =
      place r.contents.length (place r.contents.length f b.elements.length) seq.length := by
    rw [holds.last]
    exact emod_forward (place_lt holds.laid.first holds.few) (by omega)
  subst there
  refine ⟨represents.positive, changed.length.trans size, ?_⟩
  rw [first_overwritten holds (by omega), turn, Bounded.append,
    show b.capacity = r.contents.length - 1 by omega]
  exact ⟨_, Holds.overwriteLast holds (by omega) changed laid rfl⟩

theorem Represents.overwriteFirst (represents : Represents r b) {seq cs : List α}
    (few : seq.length ≤ b.capacity) {g : Nat} (changed : Changed r.contents cs g seq.length)
    (laid : Laid (cs[·]?) r.contents.length g seq)
    (next : r.firstIndex = place r.contents.length g seq.length) :
    Represents ⟨cs, g, if seq.length > r.gapSize
        then (r.lastIndex - (seq.length - r.gapSize)) % r.contentsSize else r.lastIndex⟩
      (b.prepend seq) := by
  obtain ⟨f, holds⟩ := represents.holds
  have size := represents.size
  have there : place r.contents.length g seq.length = f := by
    have same := next.symm.trans holds.first
    omega
  refine ⟨represents.positive, changed.length.trans size, ?_⟩
  rw [last_overwritten holds (by omega), Bounded.prepend,
    show b.capacity = r.contents.length - 1 by omega]
  exact ⟨_, Holds.overwriteFirst holds (by omega) changed laid there rfl⟩

theorem Represents.addLast (represents : Represents r b) (obj : α) :
    ∃ r', addLast r obj = some r' ∧ Represents r' (b.append [obj]) := by
  obtain ⟨f, holds⟩ := represents.holds
  have inside := place_lt holds.laid.first holds.few
  refine ⟨_, ?_, represents.overwriteLast represents.positive holds.last
    (changed_set inside obj) (laid_one inside (List.getElem?_set_self inside))⟩
  have first := isFull_excess holds (fun k => (r.firstIndex + k) % r.contentsSize) r.firstIndex
  rw [RingBuffer.addLast, first, holds.last, arrayPut_nat inside]
  rfl

theorem Represents.addFirst (represents : Represents r b) (obj : α) :
    ∃ r', addFirst r obj = some r' ∧ Represents r' (b.prepend [obj]) := by
  obtain ⟨f, holds⟩ := represents.holds
  have size := represents.size
  have positive := represents.positive
  obtain ⟨g, inside, next⟩ := place_before (k := 1) holds.laid.first (by omega)
  have turn : (r.firstIndex - 1) % r.contentsSize = g := by
    rw [holds.first, ← next]
    exact emod_back (k := 1) inside (by omega)
  have room : [obj].length ≤ b.capacity := represents.positive
  refine ⟨_, ?_, represents.overwriteFirst room
    (changed_set inside obj) (laid_one inside (List.getElem?_set_self inside))
    (by rw [holds.first, List.length_singleton, next])⟩
  have last := isFull_excess holds (fun k => (r.lastIndex - k) % r.contentsSize) r.lastIndex
  simp only [RingBuffer.addFirst, last, turn, arrayPut_nat inside]
  rfl

theorem added_last (represents : Represents r b) (seq : List α) :
    added r seq = seq.drop (seq.length - b.capacity) ∧ (added r seq).length ≤ b.capacity := by
  have size := represents.size
  have same : added r seq = seq.drop (seq.length - b.capacity) := by
    unfold added sliceFrom capacity contentsSize
    split
    · congr 1
      omega
    · rw [show seq.length - b.capacity = 0 by omega, List.drop_zero]
  refine ⟨same, ?_⟩
  rw [same, List.length_drop]
  omega

theorem append_added (b : Bounded α) (seq : List α) :
    b.append (seq.drop (seq.length - b.capacity)) = b.append seq := by
  unfold Bounded.append
  congr 1
  rcases Nat.le_total seq.length b.capacity with few | many
  · rw [Nat.sub_eq_zero_of_le few, List.drop_zero]
  · rw [List.length_drop, List.drop_append, List.drop_append,
      List.drop_of_length_le (l := b.elements) (by omega),
      List.drop_of_length_le (l := b.elements) (by omega), List.drop_drop]
    congr 2
    omega

theorem Represents.addAllLast (represents : Represents r b) (seq : List α) :
    ∃ r' seq', addAllLast r seq = some (r', seq') ∧ Represents r' (b.append seq) := by
  obtain ⟨f, holds⟩ := represents.holds
  have size := represents.size
  obtain ⟨same, few⟩ := added_last represents seq
  have inside := place_lt holds.laid.first holds.few
  have turn : (r.lastIndex + (added r seq).length) % r.contentsSize =
      place r.contents.length (place r.contents.length f b.elements.length)
        (added r seq).length := by
    rw [holds.last]
    exact emod_forward inside (by omega)
  obtain ⟨cs, stores, changed, laid⟩ :=
    @storeLast_stores α r (added r seq) _ holds.last inside (by omega)
  have after := represents.overwriteLast few holds.last changed laid
  rw [← append_added, ← same]
  refine ⟨_, added r seq, ?_, after⟩
  simp only [RingBuffer.addAllLast, turn, stores, Option.bind_eq_bind, Option.bind_some]

theorem prepend_added (b : Bounded α) {seq : List α} (fits : seq.length ≤ b.capacity ∨
      seq.take b.capacity = seq.drop (seq.length - b.capacity)) :
    b.prepend (seq.drop (seq.length - b.capacity)) = b.prepend seq := by
  unfold Bounded.prepend
  congr 1
  rcases Nat.le_total seq.length b.capacity with few | many
  · rw [Nat.sub_eq_zero_of_le few, List.drop_zero]
  · rcases fits with few | same
    · rw [Nat.sub_eq_zero_of_le few, List.drop_zero]
    · rw [← same, List.take_append_of_le_length (by rw [List.length_take]; omega),
        List.take_append_of_le_length many, List.take_take, Nat.min_self]

theorem Represents.addAllFirst (represents : Represents r b) {seq : List α}
    (fits : seq.length ≤ b.capacity ∨
      seq.take b.capacity = seq.drop (seq.length - b.capacity)) :
    ∃ r' seq', addAllFirst r seq = some (r', seq') ∧ Represents r' (b.prepend seq) := by
  obtain ⟨f, holds⟩ := represents.holds
  have size := represents.size
  obtain ⟨same, few⟩ := added_last represents seq
  obtain ⟨g, inside, next⟩ := place_before (k := (added r seq).length) holds.laid.first (by omega)
  have first := holds.first
  rw [← next] at first
  have turn : (r.firstIndex - (added r seq).length) % r.contentsSize = g := by
    rw [first]
    exact emod_back inside (by omega)
  obtain ⟨cs, stores, changed, laid⟩ := storeFirst_stores inside (by omega) first
  have after := represents.overwriteFirst few changed laid first
  rw [← prepend_added b fits, ← same]
  refine ⟨_, added r seq, ?_, after⟩
  simp only [RingBuffer.addAllFirst, turn, stores, Option.bind_eq_bind, Option.bind_some]

variable [Inhabited α]

theorem represents_new {r : Queue α} (start : implementation.start r b) : Represents r b := by
  obtain ⟨positive, rfl, empty⟩ := start
  refine ⟨positive, by simp [new], 0, ?_⟩
  rw [empty]
  exact holds_new b.capacity

omit [Inhabited α] in
theorem Represents.shows (represents : Represents r b) : Shows r b := by
  obtain ⟨f, holds⟩ := represents.holds
  have size := represents.size
  have few := holds.few
  refine ⟨holds.shows, ?_, by omega⟩
  unfold capacity contentsSize
  omega

omit [Inhabited α] in
theorem arrayPut_length {cs cs' : List α} {index : Int} {obj : α}
    (put : arrayPut cs index obj = some cs') : cs'.length = cs.length := by
  unfold arrayPut at put
  split at put
  · cases put
  · cases put
    exact List.length_set

theorem removeFirst_length {r' : Queue α} {x : α} (run : r.removeFirst = some (r', x)) :
    r'.contents.length = r.contents.length := by
  simp only [Queue.removeFirst, Option.bind_eq_bind, Option.bind_eq_some_iff, Option.some.injEq,
    Prod.mk.injEq] at run
  obtain ⟨_, _, contents, put, rfl, _⟩ := run
  exact arrayPut_length put

theorem removeLast_length {r' : Queue α} {x : α} (run : r.removeLast = some (r', x)) :
    r'.contents.length = r.contents.length := by
  simp only [Queue.removeLast, Option.bind_eq_bind, Option.bind_eq_some_iff, Option.some.injEq,
    Prod.mk.injEq] at run
  obtain ⟨_, _, contents, put, rfl, _⟩ := run
  exact arrayPut_length put

theorem Represents.step (represents : Represents r b) (op : Op α) (spares : Spares r op) :
    Step implementation Represents r b op := by
  have size := represents.size
  have positive := represents.positive
  obtain ⟨f, holds⟩ := represents.holds
  cases op with
  | addLast obj =>
    obtain ⟨r', run, after⟩ := represents.addLast obj
    exact ⟨r', _, by simp only [implementation, perform, run]; rfl, trivial, after⟩
  | addFirst obj =>
    obtain ⟨r', run, after⟩ := represents.addFirst obj
    exact ⟨r', _, by simp only [implementation, perform, run]; rfl, trivial, after⟩
  | addAllLast seq =>
    obtain ⟨r', seq', run, after⟩ := represents.addAllLast seq
    exact ⟨r', _, by simp only [implementation, perform, run]; rfl, trivial, after⟩
  | addAllFirst seq =>
    have same : r.capacity = b.capacity := represents.shows.capacity
    simp only [Spares, same, Int.toNat_natCast, Int.ofNat_le] at spares
    obtain ⟨r', seq', run, after⟩ := represents.addAllFirst spares
    exact ⟨r', _, by simp only [implementation, perform, run]; rfl, trivial, after⟩
  | removeFirst =>
    obtain ⟨x, xs, same⟩ := List.exists_cons_of_ne_nil (holds.not_empty spares)
    rw [same] at holds
    obtain ⟨r', g, run, after⟩ := holds.removeFirst
    refine ⟨r', .object x, by simp only [implementation, perform, run]; rfl, ?_, positive, ?_, g, ?_⟩
    · simp only [implementation, Op.Right, same]
      rfl
    · exact (removeFirst_length run).trans size
    · simpa only [implementation, Op.after, same, List.tail_cons] using after
  | removeLast =>
    have some := holds.not_empty spares
    have split := (List.dropLast_concat_getLast some).symm
    rw [split] at holds
    obtain ⟨r', run, after⟩ := holds.removeLast
    refine ⟨r', .object _, by simp only [implementation, perform, run]; rfl, ?_, positive, ?_, f, ?_⟩
    · simp only [implementation, Op.Right, Queue.Op.answer, List.getLast?_eq_some_getLast some]
    · exact (removeLast_length run).trans size
    · exact after

/-- A `RingBuffer` keeps the newest elements, as long as the steps spare the defects. -/
theorem ring_buffer_refines : Refines (implementation (α := α)) Spares Shows :=
  Refines.of_steps Represents (fun _ _ start => represents_new start)
    (fun _ _ op represents spares => represents.step op spares)
    fun _ _ represents => represents.shows

/-- `addAllFirst:` of a sequence longer than the capacity keeps its end, not its beginning. -/
theorem end_kept : ¬ ∀ (α : Type) [Inhabited α],
    Refines (implementation (α := α)) (fun _ _ => True) Shows := by
  intro refines
  apply Refines.not_of_state (i := implementation (α := Nat)) (s := new 2) (m := ⟨2, []⟩)
    ⟨Nat.succ_pos _, rfl, rfl⟩ [.addAllFirst [1, 2, 3]]
    (fun r b => r.at? 0 == b.elements[0]? || b.elements.isEmpty) (by decide +kernel) _
    (refines Nat)
  intro r b shows_
  cases same : b.elements with
  | nil => rw [List.isEmpty_nil, Bool.or_true]
  | cons x xs =>
    have first := shows_.elements.elements 0 (by rw [same]; exact Nat.succ_pos _)
    rw [same] at first
    rw [show ((0 : Nat) : Int) = 0 from rfl] at first
    rw [first, beq_self_eq_true, Bool.true_or]

end SlateVm.Collections.RingBuffer
