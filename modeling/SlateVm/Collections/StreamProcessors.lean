import SlateVm.Lib.Refinement
import SlateVm.Lib.Slices
import SlateVm.Collections.Arrays

/-! `FilterStream`, `CollectStream` and `InjectStream`: bulk reads of what a source delivers,
filtered, mapped and accumulated. -/
namespace SlateVm.StreamProcessors

open Refinement Slices

variable {α : Type}

/-- A bulk read: `next: n putInto: seq startingAt: start` with room for `n` elements, where `seq`
may be a sequence that can be extended. -/
structure Request (α : Type) where
  n : Nat
  seq : List α
  start : Nat
  extensible : Bool
  room : start + n ≤ seq.length

inductive Answer (α : Type) where
  | read (numRead : Nat) (seq : List α)
  | signalled

/-- The answers that are right where `pending` is to be delivered: as many elements as are asked for
and left, in their places, and nothing else changed. -/
def Right (pending : List α) (r : Request α) : Answer α → Prop
  | .read numRead seq => numRead = min r.n pending.length ∧
      seq = written r.seq (pending.take r.n) r.start
  | .signalled => False

def implementation {σ : Type} (perform : σ → Request α → σ × Answer α) :
    Implementation σ (List α) (Request α) (Answer α) where
  start _ _ := True
  perform s r := some (perform s r)
  next pending r _ := pending.drop r.n
  right := Right

section Filter

variable (block : α → Bool)

def skipUntil : List α → List α
  | [] => []
  | x :: left => if block x then x :: left else skipUntil left

/-- `nextPut:` of the writer on `seq`. Past its end a sequence of fixed size is left to a larger
copy that the writer makes for itself. -/
def nextPut (extensible : Bool) (seq : List α) (position : Nat) (obj : α) : List α :=
  if position < seq.length then seq.set position obj
  else if extensible then seq ++ [obj] else seq

def copyWhile (extensible : Bool) (start : Nat) :
    List α → List α → Nat → List α × List α × Nat
  | [], seq, numWritten => ([], seq, numWritten)
  | x :: left, seq, numWritten =>
    if numWritten < seq.length ∧ block x = true then
      copyWhile extensible start left (nextPut extensible seq (start + numWritten) x)
        (numWritten + 1)
    else (x :: left, seq, numWritten)

def filterLoop (extensible : Bool) (start : Nat) :
    Nat → List α → List α → Nat → List α × List α × Nat
  | 0, left, seq, numWritten => (left, seq, numWritten)
  | rounds + 1, left, seq, numWritten =>
    if left = [] ∨ seq.length ≤ numWritten then (left, seq, numWritten)
    else
      let (left, seq, numWritten) :=
        copyWhile block extensible start (skipUntil block left) seq numWritten
      filterLoop extensible start rounds left seq numWritten

/-- `FilterStream next:putInto:startingAt:`, which stops at the size of `seq`, not at `n`. -/
def filterRead (left : List α) (r : Request α) : List α × Answer α :=
  match filterLoop block r.extensible r.start (left.length + 1) left r.seq 0 with
  | (left, seq, numWritten) => (left, .read numWritten seq)

end Filter

/-- A source with what it has left. Its `collectionType` may change what is stored into a new
collection of its kind, or refuse it, but not its own elements. -/
structure Source (store : α → Option α) where
  left : List α
  fits : ∀ x ∈ left, store x = some x

/-- The source after `next: n putInto: buffer startingAt: 0`; the buffer then begins with the
elements before. -/
def Source.past {store : α → Option α} (source : Source store) (n : Nat) : Source store :=
  ⟨source.left.drop n, fun x member => source.fits x (List.mem_of_mem_drop member)⟩

def storeEach (block : α → α) : List α → Nat → List α → Option (List α)
  | [], _, seq => some seq
  | x :: buffer, index, seq =>
    if index < seq.length then storeEach block buffer (index + 1) (seq.set index (block x))
    else none

def collectRead {store : α → Option α} (block : α → α) (source : Source store) (r : Request α) :
    Source store × Answer α :=
  let buffer := source.left.take r.n
  match storeEach block buffer r.start r.seq with
  | some seq => (source.past r.n, .read buffer.length seq)
  | none => (source.past r.n, .signalled)

/-- The slots of `InjectStream`. -/
structure Inject (store : α → Option α) where
  source : Source store
  currentValue : α

/-- The loop of `InjectStream`, which puts the values back into the buffer. -/
def injectLoop (store : α → Option α) (accumulator : α → α → α) :
    List α → α → α × Option (List α)
  | [], currentValue => (currentValue, some [])
  | x :: buffer, currentValue =>
    let value := accumulator currentValue x
    match store value with
    | none => (value, none)
    | some stored =>
      let (currentValue, values) := injectLoop store accumulator buffer value
      (currentValue, values.map (stored :: ·))

/-- `InjectStream next:putInto:startingAt:`. What the buffer has behind the values is not read. -/
def injectRead {store : α → Option α} (accumulator : α → α → α) (s : Inject store)
    (r : Request α) : Inject store × Answer α :=
  match injectLoop store accumulator (s.source.left.take r.n) s.currentValue with
  | (currentValue, some buffer) =>
    match Collections.replaceFrom r.seq r.start (r.start + buffer.length - 1) buffer 0 with
    | some seq => (⟨s.source.past r.n, currentValue⟩, .read buffer.length seq)
    | none => (⟨s.source.past r.n, currentValue⟩, .signalled)
  | (currentValue, none) => (⟨s.source.past r.n, currentValue⟩, .signalled)

def accumulated (accumulator : α → α → α) : List α → α → List α
  | [], _ => []
  | x :: left, value =>
    accumulator value x :: accumulated accumulator left (accumulator value x)

section Filtering

variable {block : α → Bool} {extensible : Bool} {start : Nat}

attribute [local simp] skipUntil copyWhile filterLoop storeEach injectLoop accumulated nextPut

/-- Both loops in one: an element after the other while there is room in `seq`. -/
def walk (block : α → Bool) (extensible : Bool) (start : Nat) :
    List α → List α → Nat → List α × List α × Nat
  | [], seq, numWritten => ([], seq, numWritten)
  | x :: left, seq, numWritten =>
    if seq.length ≤ numWritten then (x :: left, seq, numWritten)
    else if block x then
      walk block extensible start left (nextPut extensible seq (start + numWritten) x)
        (numWritten + 1)
    else walk block extensible start left seq numWritten

theorem walk_skip (left seq : List α) {numWritten : Nat} (room : numWritten < seq.length) :
    walk block extensible start (skipUntil block left) seq numWritten =
      walk block extensible start left seq numWritten := by
  induction left with
  | nil => rfl
  | cons x left ih =>
    rw [skipUntil]
    split
    · rfl
    · rename_i other
      rw [ih, walk, if_neg (Nat.not_le_of_lt room), if_neg other]

theorem walk_copy (left seq : List α) (numWritten : Nat) :
    (let copied := copyWhile block extensible start left seq numWritten
     walk block extensible start copied.1 copied.2.1 copied.2.2) =
      walk block extensible start left seq numWritten := by
  induction left generalizing seq numWritten with
  | nil => rfl
  | cons x left ih =>
    rw [copyWhile]
    split
    · rename_i put
      rw [ih, walk, if_neg (Nat.not_le_of_lt put.1), if_pos put.2]
    · rfl

theorem skipUntil_length (left : List α) : (skipUntil block left).length ≤ left.length := by
  induction left with
  | nil => exact Nat.le_refl _
  | cons x left ih =>
    rw [skipUntil]
    split
    · exact Nat.le_refl _
    · exact Nat.le_succ_of_le ih

theorem copyWhile_length (left seq : List α) (numWritten : Nat) :
    (copyWhile block extensible start left seq numWritten).1.length ≤ left.length := by
  induction left generalizing seq numWritten with
  | nil => exact Nat.le_refl _
  | cons x left ih =>
    rw [copyWhile]
    split
    · exact Nat.le_succ_of_le (ih _ _)
    · exact Nat.le_refl _

theorem round_shorter (left seq : List α) {numWritten : Nat} (more : left ≠ [])
    (room : numWritten < seq.length) :
    (copyWhile block extensible start (skipUntil block left) seq numWritten).1.length <
      left.length := by
  induction left with
  | nil => exact absurd rfl more
  | cons x left ih =>
    rw [skipUntil]
    split
    · rename_i here
      rw [copyWhile, if_pos ⟨room, here⟩]
      exact Nat.lt_succ_of_le (copyWhile_length _ _ _)
    · exact Nat.lt_succ_of_le (Nat.le_trans (copyWhile_length _ _ _) (skipUntil_length _))

theorem filterLoop_eq (left seq : List α) (numWritten : Nat) {rounds : Nat}
    (enough : left.length < rounds) :
    filterLoop block extensible start rounds left seq numWritten =
      walk block extensible start left seq numWritten := by
  induction rounds generalizing left seq numWritten with
  | zero => exact absurd enough (Nat.not_lt_zero _)
  | succ rounds ih =>
    rw [filterLoop]
    split
    · rename_i ends
      cases left with
      | nil => rfl
      | cons x left => rw [walk, if_pos (ends.resolve_left (List.cons_ne_nil _ _))]
    · rename_i goes
      obtain ⟨more, room⟩ := not_or.mp goes
      have inside := Nat.lt_of_not_le room
      have shorter := @round_shorter α block extensible start left seq numWritten more inside
      rw [← walk_skip left seq inside, ← walk_copy]
      exact ih _ _ _ (by omega)

theorem nextPut_inside {seq : List α} {position : Nat} (inside : position < seq.length) (obj : α) :
    nextPut extensible seq position obj = seq.set position obj := if_pos inside

theorem nextPut_length (seq : List α) (position : Nat) (obj : α) :
    seq.length ≤ (nextPut extensible seq position obj).length := by
  unfold nextPut
  split
  · exact Nat.le_of_eq List.length_set.symm
  · split
    · rw [List.length_append]
      omega
    · exact Nat.le_refl _

theorem walk_fits {left seq : List α} {numWritten k : Nat}
    (count : k = min (left.filter block).length (seq.length - numWritten))
    (room : start + numWritten + k ≤ seq.length) :
    ∃ left', walk block extensible start left seq numWritten =
        (left', written seq ((left.filter block).take k) (start + numWritten), numWritten + k) ∧
      left'.filter block = (left.filter block).drop k := by
  induction left generalizing seq numWritten k with
  | nil =>
    refine ⟨[], ?_, by simp⟩
    subst count
    simp [walk]
  | cons x left ih =>
    rw [walk]
    split
    · rename_i full
      have none : k = 0 := by omega
      refine ⟨x :: left, ?_, ?_⟩ <;> rw [none]
      · rw [List.take_zero, written_nil, Nat.add_zero]
      · rw [List.drop_zero]
    split
    · rename_i open' here
      rw [List.filter_cons_of_pos here] at count ⊢
      rw [List.length_cons] at count
      obtain ⟨j, rfl⟩ : ∃ j, k = j + 1 := ⟨k - 1, by omega⟩
      have inside : start + numWritten < seq.length := by omega
      rw [nextPut_inside inside]
      obtain ⟨left', run, rest⟩ := @ih (seq.set (start + numWritten) x) (numWritten + 1) j
        (by rw [List.length_set]; omega) (by rw [List.length_set]; omega)
      refine ⟨left', ?_, rest⟩
      rw [run, ← Nat.add_assoc start, written_cons inside, List.take_succ_cons, Nat.add_right_comm,
        Nat.add_assoc]
    · rename_i open' other
      rw [List.filter_cons_of_neg other] at count ⊢
      exact ih count room

theorem walk_count (left seq : List α) (numWritten : Nat) :
    numWritten + min (left.filter block).length (seq.length - numWritten) ≤
      (walk block extensible start left seq numWritten).2.2 := by
  induction left generalizing seq numWritten with
  | nil => simp [walk]
  | cons x left ih =>
    rw [walk]
    split
    · rename_i full
      dsimp only
      omega
    split
    · rename_i open' here
      have more := @nextPut_length α extensible seq (start + numWritten) x
      have next := ih (nextPut extensible seq (start + numWritten) x) (numWritten + 1)
      rw [List.filter_cons_of_pos here, List.length_cons]
      omega
    · rename_i open' other
      rw [List.filter_cons_of_neg other]
      exact ih seq numWritten

theorem filterRead_eq (left : List α) (r : Request α) : filterRead block left r =
    ((walk block r.extensible r.start left r.seq 0).1,
      .read (walk block r.extensible r.start left r.seq 0).2.2
        (walk block r.extensible r.start left r.seq 0).2.1) := by
  rw [filterRead, filterLoop_eq left r.seq 0 (Nat.lt_succ_self _)]

/-- A read is right where at most as many elements as it asks for are left, or where it asks for as
many as `seq` has. -/
def Few (block : α → Bool) (left : List α) (r : Request α) : Prop :=
  (left.filter block).length ≤ r.n ∨ r.n = r.seq.length

theorem filter_step_iff {left pending : List α} (shows : pending = left.filter block)
    (r : Request α) : Step (implementation (filterRead block))
      (fun left pending => pending = left.filter block) left pending r ↔ Few block left r := by
  subst shows
  have room := r.room
  constructor
  · rintro ⟨_, _, run, right, -⟩
    simp only [implementation, filterRead_eq, Option.some.injEq, Prod.mk.injEq] at run
    obtain ⟨rfl, rfl⟩ := run
    have count := @walk_count α block r.extensible r.start left r.seq 0
    have exact' := right.1
    unfold Few
    omega
  · intro few
    obtain ⟨k, asked⟩ : ∃ k, k = min r.n (left.filter block).length := ⟨_, rfl⟩
    have full : k = min (left.filter block).length (r.seq.length - 0) := by
      unfold Few at few
      omega
    obtain ⟨left', run, rest⟩ := @walk_fits α block r.extensible r.start left r.seq 0 k full
      (by omega)
    have taken : (left.filter block).take k = (left.filter block).take r.n := by
      rw [asked, ← List.take_eq_take_min]
    have dropped : (left.filter block).drop k = (left.filter block).drop r.n := by
      rw [asked, ← List.drop_eq_drop_min]
    refine ⟨left', .read k (written r.seq ((left.filter block).take r.n) r.start), ?_,
      ⟨asked, rfl⟩, ?_⟩
    · simp only [implementation, filterRead_eq, run, taken, Nat.zero_add, Nat.add_zero]
    · exact (rest.trans dropped).symm

end Filtering

section Collecting

variable {store : α → Option α} {block : α → α}

theorem storeEach_eq (block : α → α) {buffer seq : List α} {index : Nat}
    (room : index + buffer.length ≤ seq.length) :
    storeEach block buffer index seq = some (written seq (buffer.map block) index) := by
  induction buffer generalizing seq index with
  | nil => rw [storeEach, List.map_nil, written_nil]
  | cons x buffer ih =>
    rw [List.length_cons] at room
    have inside : index < seq.length := by omega
    rw [storeEach, if_pos inside, ih (by rw [List.length_set]; omega), written_cons inside,
      List.map_cons]

theorem collect_step {source : Source store} {pending : List α}
    (shows : pending = source.left.map block) (r : Request α) :
    Step (implementation (collectRead block))
      (fun source pending => pending = source.left.map block) source pending r := by
  subst shows
  have room := r.room
  have few := List.length_take_le r.n source.left
  refine ⟨source.past r.n, .read (source.left.take r.n).length
    (written r.seq ((source.left.take r.n).map block) r.start), ?_, ⟨?_, ?_⟩, ?_⟩
  · simp only [implementation, collectRead, storeEach_eq block
      (show r.start + (source.left.take r.n).length ≤ r.seq.length by omega)]
  · rw [List.length_take, List.length_map]
  · rw [List.map_take]
  · exact List.map_drop.symm

end Collecting

section Injecting

variable {store : α → Option α} {accumulator : α → α → α}

theorem accumulated_length (left : List α) (value : α) :
    (accumulated accumulator left value).length = left.length := by
  induction left generalizing value with
  | nil => rfl
  | cons x left ih => exact congrArg (· + 1) (ih _)

theorem accumulated_take (left : List α) (value : α) (n : Nat) :
    accumulated accumulator (left.take n) value = (accumulated accumulator left value).take n := by
  induction left generalizing value n with
  | nil => rw [List.take_nil, accumulated, List.take_nil]
  | cons x left ih =>
    cases n with
    | zero => rfl
    | succ n => rw [List.take_succ_cons, accumulated, accumulated, List.take_succ_cons, ih]

theorem accumulated_drop (left : List α) (value : α) (n : Nat) :
    accumulated accumulator (left.drop n) ((left.take n).foldl accumulator value) =
      (accumulated accumulator left value).drop n := by
  induction left generalizing value n with
  | nil => rw [List.drop_nil, accumulated, accumulated, List.drop_nil]
  | cons x left ih =>
    cases n with
    | zero => rfl
    | succ n =>
      rw [List.drop_succ_cons, List.take_succ_cons, List.foldl_cons, ih]
      rfl

theorem injectLoop_eq (buffer : List α) (value : α) {currentValue : α} {stored : List α}
    (run : injectLoop store accumulator buffer value = (currentValue, some stored)) :
    currentValue = buffer.foldl accumulator value ∧
      (accumulated accumulator buffer value).map store = stored.map some := by
  induction buffer generalizing value stored with
  | nil =>
    cases run
    exact ⟨rfl, rfl⟩
  | cons x buffer ih =>
    rw [injectLoop] at run
    cases put : store (accumulator value x) with
    | none =>
      simp only [put, Prod.mk.injEq, reduceCtorEq, and_false] at run
    | some first =>
      simp only [put, Prod.mk.injEq, Option.map_eq_some_iff] at run
      obtain ⟨last, rest, more, rfl⟩ := run
      obtain ⟨kept, rests⟩ := ih (accumulator value x) (Prod.ext last more)
      refine ⟨kept, ?_⟩
      rw [accumulated, List.map_cons, put, rests, List.map_cons]

theorem injectLoop_fits (buffer : List α) (value : α)
    (fits : ∀ v ∈ accumulated accumulator buffer value, store v = some v) :
    injectLoop store accumulator buffer value = (buffer.foldl accumulator value,
      some (accumulated accumulator buffer value)) := by
  induction buffer generalizing value with
  | nil => rfl
  | cons x buffer ih =>
    rw [accumulated] at fits
    have rest := ih (accumulator value x) fun v member => fits v (List.mem_cons_of_mem _ member)
    simp only [injectLoop, fits _ List.mem_cons_self, rest]
    rfl

theorem replaceFrom_written {seq buffer : List α} {start : Nat}
    (room : start + buffer.length ≤ seq.length) :
    Collections.replaceFrom seq start (start + buffer.length - 1) buffer 0 =
      some (written seq buffer start) := by
  have parts : seq = seq.take start ++
      ((seq.drop start).take buffer.length ++ seq.drop (start + buffer.length)) := by
    rw [← List.drop_drop, List.take_append_drop, List.take_append_drop]
  have front : (seq.take start).length = start := by
    rw [List.length_take]
    omega
  have middle := @Collections.replaceFrom_middle α (seq.take start)
    ((seq.drop start).take buffer.length) (seq.drop (start + buffer.length)) [] buffer []
    start (start + buffer.length - 1) 0 (by rw [front]) (by rw [front]) rfl
    (by rw [List.length_take, List.length_drop]; omega)
  rw [← parts, List.append_nil, List.nil_append] at middle
  rw [middle, written, List.append_assoc]

def Fits (accumulator : α → α → α) (s : Inject store) (r : Request α) : Prop :=
  ∀ v ∈ (accumulated accumulator s.source.left s.currentValue).take r.n, store v = some v

theorem inject_step_iff {s : Inject store} {pending : List α}
    (shows : pending = accumulated accumulator s.source.left s.currentValue) (r : Request α) :
    Step (implementation (injectRead accumulator))
      (fun s pending => pending = accumulated accumulator s.source.left s.currentValue)
      s pending r ↔ Fits accumulator s r := by
  subst shows
  have room := r.room
  have size := @accumulated_length α accumulator (s.source.left.take r.n)
    s.currentValue
  have few := List.length_take_le r.n s.source.left
  have taken := @accumulated_take α accumulator s.source.left s.currentValue r.n
  constructor
  · rintro ⟨_, _, run, right, -⟩
    cases loop : injectLoop store accumulator (s.source.left.take r.n) s.currentValue with
    | mk currentValue out =>
      cases out with
      | none =>
        simp only [implementation, injectRead, loop, Option.some.injEq, Prod.mk.injEq] at run
        obtain ⟨-, rfl⟩ := run
        exact right.elim
      | some stored =>
        obtain ⟨-, stores⟩ := injectLoop_eq _ _ loop
        have length := congrArg List.length stores
        rw [List.length_map, List.length_map, size] at length
        simp only [implementation, injectRead, loop, Option.some.injEq, Prod.mk.injEq,
          replaceFrom_written (show r.start + stored.length ≤ r.seq.length by omega)] at run
        obtain ⟨-, rfl⟩ := run
        have same := written_inj (by omega) (by rw [← taken, size, length]) right.2
        rw [same, ← taken] at stores
        rw [Fits, ← taken]
        exact List.map_inj_left.mp stores
  · intro fits
    rw [Fits, ← taken] at fits
    have loop := injectLoop_fits _ _ fits
    generalize accumulated accumulator (s.source.left.take r.n) s.currentValue = values
      at size taken loop
    refine ⟨⟨s.source.past r.n, (s.source.left.take r.n).foldl accumulator s.currentValue⟩,
      .read values.length (written r.seq values r.start), ?_, ⟨?_, ?_⟩, ?_⟩
    · simp only [implementation, injectRead, loop,
        replaceFrom_written (show r.start + values.length ≤ r.seq.length by omega)]
    · rw [size, List.length_take, accumulated_length]
    · rw [taken]
    · exact (accumulated_drop _ _ _).symm

end Injecting

def inString : Int ⊕ Char → Option (Int ⊕ Char)
  | .inl code => some (.inr (Char.ofNat (code % 256).toNat))
  | .inr char => some (.inr char)

end SlateVm.StreamProcessors
