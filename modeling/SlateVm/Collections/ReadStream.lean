import SlateVm.Collections.WriteStreamRefines

/-! `Sequence ReadStream`: a limited reader of a sequence. -/
namespace SlateVm.Collections

open Refinement

/-- The slots of a `ReadStream`, and whether the collection is of a growing kind, of which a new
one has no elements yet. -/
structure ReadStream (α : Type) where
  collection : List α
  growing : Bool
  position : Nat
  readLimit : Nat

namespace ReadStream

variable {α : Type} [Inhabited α]

def onFromTo (c : List α) (growing : Bool) (start stop : Nat) : ReadStream α :=
  ⟨c, growing, start, min stop c.length⟩

def isAtEnd (rs : ReadStream α) : Bool := decide (rs.position ≥ rs.readLimit)

/-- `next`, which signals at the end. -/
def next (rs : ReadStream α) : Option (α × ReadStream α) :=
  if rs.position < rs.readLimit then
    (rs.collection[rs.position]?).map (·, { rs with position := rs.position + 1 })
  else none

def nextN (rs : ReadStream α) (n : Nat) : Option (List α × ReadStream α) := do
  let stop := min (rs.position + n) rs.readLimit
  let result ← copyFrom rs.collection rs.position stop
  some (result, { rs with position := stop })

/-- `next:putInto:startingAt:`: the collection with the elements, and their number. -/
def nextPutInto (rs : ReadStream α) (n : Nat) (c : List α) (start : Nat) :
    Option ((List α × Int) × ReadStream α) := do
  let max : Int := min (rs.readLimit - rs.position : Int) n
  let c ← replaceFrom c start (start + max - 1) rs.collection rs.position
  some ((c, max), { rs with position := (rs.position + max).toNat })

/-- `peek`, which asks the collection. -/
def peek (rs : ReadStream α) : Option α := rs.collection[rs.position]?

def peekN (rs : ReadStream α) (n : Nat) : Option (List α) := (rs.nextN n).map Prod.fst

def indexOf (c : List α) (test : α → Bool) (start : Nat) : Option Nat :=
  ((c.drop start).findIdx? test).map (start + ·)

def upTo (equals : α → α → Bool) (rs : ReadStream α) (obj : α) :
    Option (List α × ReadStream α) :=
  match indexOf rs.collection (fun each => equals each obj) rs.position with
  | none => do
    let result ← copyFrom rs.collection rs.position rs.collection.length
    some (result, { rs with position := rs.collection.length })
  | some stop => do
    let result ← copyFrom rs.collection rs.position stop
    some (result, { rs with position := stop + 1 })

def upToEnd (rs : ReadStream α) : Option (List α × ReadStream α) := do
  let result ← copyFrom rs.collection rs.position rs.collection.length
  some (result, { rs with position := rs.collection.length })

def upToSatisfying (test : α → Bool) : Nat → ReadStream α → Option (List α × ReadStream α)
  | 0, _ => none
  | fuel + 1, rs =>
    if rs.isAtEnd then some ([], rs)
    else do
      let (elem, rs) ← rs.next
      if test elem then some ([], rs)
      else do
        let (result, rs) ← upToSatisfying test fuel rs
        some (elem :: result, rs)

/-- `upToAnyOf:`, a method of `ReadStream`, which comes before that of `PositionableStream`. -/
def upToAnyOf (rs : ReadStream α) (includes : α → Bool) : Option (List α × ReadStream α) :=
  upToSatisfying includes (rs.readLimit - rs.position + 1) rs

def sameElements (equals : α → α → Bool) (c d : List α) : Bool :=
  c.length == d.length && (List.zipWith equals c d).all id

def scanFor (equals : α → α → Bool) (pattern : List α) : Nat → ReadStream α → Option (Option Nat)
  | 0, _ => none
  | fuel + 1, rs =>
    if (rs.readLimit - rs.position : Int) < pattern.length then some none
    else do
      let peeked ← rs.peekN pattern.length
      if sameElements equals peeked pattern then some (some rs.position)
      else scanFor equals pattern fuel { rs with position := rs.position + 1 }

def upToAll (equals : α → α → Bool) (rs : ReadStream α) (pattern : List α) :
    Option (List α × ReadStream α) := do
  match ← scanFor equals pattern (rs.readLimit + 2) rs with
  | some stop => rs.nextN (stop - rs.position)
  | none => rs.upToEnd

/-- The contents of a writer on `c` after some `nextPutAll:`. -/
def written {σ : Type} (v : WriteStream.Variant σ α) (c : σ) (parts : List (List α)) :
    Option (List α) := do
  let ws ← parts.foldlM (fun ws part => ws.nextPutAll v part) (WriteStream.on v c)
  ws.contents v

def copyOf (rs : ReadStream α) (parts : List (List α)) : Option (List α) :=
  if rs.growing then written WriteStream.extensible (ExtensibleArray.new 40) parts
  else written WriteStream.fixed (List.replicate 40 default) parts

def restOf (rs : ReadStream α) (n : Nat) : Option (List (List α) × ReadStream α) :=
  if rs.isAtEnd then some ([], rs) else (rs.nextN n).map fun (rest, rs) => ([rest], rs)

def throughAll (equals : α → α → Bool) (rs : ReadStream α) (pattern : List α) :
    Option (List α × ReadStream α) := do
  let (first, rs) ← rs.upToAll equals pattern
  let (rest, rs) ← rs.restOf pattern.length
  let contents ← rs.copyOf (first :: rest)
  some (contents, rs)

inductive Op (α : Type) where
  | next
  | nextN (n : Nat)
  | nextPutInto (n : Nat) (c : List α) (start : Nat)
  | peek
  | upTo (obj : α)
  | upToEnd
  | upToAnyOf (includes : α → Bool)
  | upToAll (pattern : List α)
  | throughAll (pattern : List α)
  | isAtEnd

inductive Answer (α : Type) where
  | object (obj : α)
  | objects (objs : List α)
  | stored (c : List α) (max : Int)
  | truth (b : Bool)
  | signalled

def Answer.ofObject : Option α → Answer α
  | none => .signalled
  | some obj => .object obj

def perform (equals : α → α → Bool) (rs : ReadStream α) : Op α → Option (ReadStream α × Answer α)
  | .next => match rs.next with
    | none => some (rs, .signalled)
    | some (obj, rs) => some (rs, .object obj)
  | .nextN n => (rs.nextN n).map fun (objs, rs) => (rs, .objects objs)
  | .nextPutInto n c start =>
    (rs.nextPutInto n c start).map fun ((c, max), rs) => (rs, .stored c max)
  | .peek => some (rs, .ofObject rs.peek)
  | .upTo obj => (rs.upTo equals obj).map fun (objs, rs) => (rs, .objects objs)
  | .upToEnd => rs.upToEnd.map fun (objs, rs) => (rs, .objects objs)
  | .upToAnyOf includes => (rs.upToAnyOf includes).map fun (objs, rs) => (rs, .objects objs)
  | .upToAll pattern => (rs.upToAll equals pattern).map fun (objs, rs) => (rs, .objects objs)
  | .throughAll pattern => (rs.throughAll equals pattern).map fun (objs, rs) => (rs, .objects objs)
  | .isAtEnd => some (rs, .truth rs.isAtEnd)

section Abstract

variable (equals : α → α → Bool)

def occurrence (pattern m : List α) : Option Nat :=
  (List.range (m.length + 1 - pattern.length)).find? fun e =>
    sameElements equals ((m.drop e).take pattern.length) pattern

/-- Up to a place, or everything: how many elements are delivered, and how many are used up when
`behind` of them are skipped. -/
def upToPlace (m : List α) (behind : Nat) : Option Nat → Nat × Nat
  | none => (m.length, m.length)
  | some e => (e, e + behind)

def Op.reach (m : List α) : Op α → Nat × Nat
  | .next => (min 1 m.length, min 1 m.length)
  | .nextN n | .nextPutInto n _ _ => (min n m.length, min n m.length)
  | .peek => (min 1 m.length, 0)
  | .upTo obj => upToPlace m 1 (m.findIdx? fun each => equals each obj)
  | .upToEnd => (m.length, m.length)
  | .upToAnyOf includes => upToPlace m 1 (m.findIdx? includes)
  | .upToAll pattern => upToPlace m 0 (occurrence equals pattern m)
  | .throughAll pattern =>
    upToPlace m 0 ((occurrence equals pattern m).map (· + pattern.length))
  | .isAtEnd => (0, 0)

def Op.delivered (m : List α) (op : Op α) : List α := m.take (op.reach equals m).1

def Op.after (m : List α) (op : Op α) : List α := m.drop (op.reach equals m).2

def Op.answer (m : List α) : Op α → Answer α
  | .next | .peek => .ofObject m.head?
  | .nextPutInto n c start =>
    .stored (c.take start ++ m.take n ++ c.drop (start + min n m.length)) (min n m.length : Nat)
  | .isAtEnd => .truth m.isEmpty
  | op => .objects (op.delivered equals m)

end Abstract

def left (rs : ReadStream α) : List α := (rs.collection.take rs.readLimit).drop rs.position

/-- The stream is at a place of its slice, and `m` is left of it. -/
structure Shows (rs : ReadStream α) (m : List α) : Prop where
  position : rs.position ≤ rs.readLimit
  left : rs.left = m

def Op.Fits (rs : ReadStream α) : Op α → Prop
  | .nextPutInto n c start => start + min n rs.left.length ≤ c.length
  | _ => True

/-- The steps that do not run into a defect: none is at the limit of a stream that ends before its
collection, or would have to find its object behind it, and what `throughAll:` delivers fills
the collection that it makes. -/
def Spares (equals : α → α → Bool) (rs : ReadStream α) : Op α → Prop
  | .peek => rs.position < rs.readLimit ∨ rs.readLimit = rs.collection.length
  | .upTo obj => rs.readLimit = rs.collection.length ∨
      ∃ each ∈ rs.left, equals each obj = true
  | .upToEnd => rs.readLimit = rs.collection.length
  | .upToAll pattern => rs.readLimit = rs.collection.length ∨
      (occurrence equals pattern rs.left).isSome
  | .throughAll pattern => (rs.readLimit = rs.collection.length ∨
      (occurrence equals pattern rs.left).isSome) ∧
      (rs.growing ∨ 40 ≤ ((Op.throughAll pattern).delivered equals rs.left).length)
  | _ => True

def implementation (equals : α → α → Bool) :
    Implementation (ReadStream α) (List α) (Op α) (Answer α) where
  start rs m := ∃ c growing start stop, start ≤ stop ∧ start ≤ c.length ∧
    rs = onFromTo c growing start stop ∧ m = (c.take stop).drop start
  perform := perform equals
  next m op _ := op.after equals m
  right m op a := a = op.answer equals m

end ReadStream

end SlateVm.Collections

/-! What each operation of a read stream does, on a slice with elements before and behind it. -/
namespace SlateVm.Collections.ReadStream

open Refinement

variable {α : Type} {rs rs' : ReadStream α} {before m past : List α} {equals : α → α → Bool}

/-- The collection is made of what is before the position, what is left of the slice and what is
behind its end. -/
structure Holds (rs : ReadStream α) (before m past : List α) : Prop where
  collection : rs.collection = before ++ (m ++ past)
  position : rs.position = before.length
  readLimit : rs.readLimit = before.length + m.length

theorem Holds.size (holds : Holds rs before m past) :
    rs.collection.length = rs.readLimit + past.length := by
  rw [holds.collection, holds.readLimit, List.length_append, List.length_append]
  omega

theorem Holds.left (holds : Holds rs before m past) : rs.left = m := by
  rw [ReadStream.left, holds.collection, holds.position, holds.readLimit, ← List.append_assoc,
    List.take_append_of_le_length (Nat.le_of_eq List.length_append.symm), ← List.length_append,
    List.take_length, List.drop_left]

theorem Holds.shows (holds : Holds rs before m past) : Shows rs m where
  position := by
    rw [holds.position, holds.readLimit]
    exact Nat.le_add_right _ _
  left := holds.left

theorem Holds.advance (holds : Holds rs before m past) {k : Nat} (within : k ≤ m.length) {p : Nat}
    (there : p = before.length + k) :
    Holds { rs with position := p } (before ++ m.take k) (m.drop k) past := by
  constructor
  · rw [holds.collection, List.append_assoc, ← List.append_assoc (m.take k), List.take_append_drop]
  · simp only [there, List.length_append, List.length_take]
    omega
  · simp only [holds.readLimit, List.length_append, List.length_take, List.length_drop]
    omega

theorem Holds.getElem (holds : Holds rs before m past) :
    rs.collection[rs.position]? = (m ++ past).head? := by
  rw [holds.collection, holds.position, List.getElem?_append_right (Nat.le_refl _), Nat.sub_self,
    List.head?_eq_getElem?]

theorem Holds.isAtEnd (holds : Holds rs before m past) : rs.isAtEnd = m.isEmpty := by
  rw [ReadStream.isAtEnd, holds.position, holds.readLimit]
  cases m with
  | nil => simp
  | cons x m => simp

theorem Holds.next (holds : Holds rs before m past) : rs.next =
    m.head?.map fun obj => (obj, { rs with position := before.length + 1 }) := by
  have here := holds.getElem
  rw [ReadStream.next, holds.readLimit, holds.position]
  rw [holds.position] at here
  cases m with
  | nil => rw [if_neg (by simp)]; rfl
  | cons x m =>
    rw [if_pos (by simp), here]
    rfl

theorem upToPlace_succ (x : α) (m : List α) (behind : Nat) (o : Option Nat) :
    upToPlace (x :: m) behind (o.map (· + 1)) =
      ((upToPlace m behind o).1 + 1, (upToPlace m behind o).2 + 1) := by
  cases o with
  | none => rfl
  | some e =>
    simp only [upToPlace, Option.map_some, Prod.mk.injEq, true_and]
    omega

variable [Inhabited α]

theorem Holds.copyFrom (holds : Holds rs before m past) {k p : Nat}
    (within : k ≤ (m ++ past).length) (there : p = before.length + k) :
    copyFrom rs.collection rs.position p = some ((m ++ past).take k) := by
  rw [copyFrom_within (by rw [holds.position]; omega)
    (by rw [holds.collection, List.length_append]; omega), holds.collection, holds.position,
    List.drop_left]
  congr 2
  omega

theorem Holds.nextN (holds : Holds rs before m past) (n : Nat) : rs.nextN n =
    some (m.take n, { rs with position := before.length + min n m.length }) := by
  have there : min (rs.position + n) rs.readLimit = before.length + min n m.length := by
    rw [holds.position, holds.readLimit]
    omega
  have copied := holds.copyFrom (k := min n m.length) (by rw [List.length_append]; omega) rfl
  rw [List.take_append_of_le_length (Nat.min_le_right _ _)] at copied
  simp only [ReadStream.nextN, there, copied, Option.bind_eq_bind, Option.bind_some]
  rcases Nat.le_total n m.length with few | many
  · rw [Nat.min_eq_left few]
  · rw [Nat.min_eq_right many, List.take_length, List.take_of_length_le many]

omit [Inhabited α] in
theorem Holds.nextPutInto (holds : Holds rs before m past) {n start : Nat} {c : List α}
    (room : start + min n m.length ≤ c.length) : rs.nextPutInto n c start =
      some ((c.take start ++ m.take n ++ c.drop (start + min n m.length),
        ((min n m.length : Nat) : Int)),
        { rs with position := before.length + min n m.length }) := by
  have count : min (rs.readLimit - rs.position : Int) n = ((min n m.length : Nat) : Int) := by
    rw [holds.position, holds.readLimit]
    omega
  have size := holds.size
  have limit := holds.readLimit
  obtain ⟨c', run, copied⟩ := @replaceFrom_copied α c rs.collection start
    (start + ((min n m.length : Nat) : Int) - 1) rs.position start (min n m.length) rs.position
    rfl rfl rfl room (by rw [holds.position]; omega)
  have stored : c' = c.take start ++ m.take n ++ c.drop (start + min n m.length) := by
    have front : (c.take start).length = start := by
      rw [List.length_take]
      omega
    have middle : (c.take start ++ m.take n).length = start + min n m.length := by
      rw [List.length_append, front, List.length_take]
    apply List.ext_getElem?
    intro i
    rcases Nat.lt_or_ge i start with first | later
    · rw [copied.outside i (.inl first), List.append_assoc,
        List.getElem?_append_left (by omega), List.getElem?_take, if_pos first]
    · rcases Nat.lt_or_ge i (start + min n m.length) with inside | behind
      · have there := copied.inside (i - start) (by omega)
        rw [show start + (i - start) = i by omega] at there
        rw [there, List.getElem?_append_left (by omega), List.getElem?_append_right (by omega), front,
          List.getElem?_take, if_pos (by omega), holds.collection, holds.position,
          List.getElem?_append_right (by omega), List.getElem?_append_left (by omega)]
        congr 1
        omega
      · rw [copied.outside i (.inr behind), List.getElem?_append_right (by omega), middle,
          List.getElem?_drop]
        congr 1
        omega
  simp only [ReadStream.nextPutInto, count, run, stored, Option.bind_eq_bind, Option.bind_some]
  rw [holds.position, ← Int.natCast_add, Int.toNat_natCast]

theorem Holds.upToEnd (holds : Holds rs before m past) : rs.upToEnd =
    some (m ++ past, { rs with position := rs.collection.length }) := by
  have size := holds.size
  have limit := holds.readLimit
  have copied := holds.copyFrom (k := (m ++ past).length) (p := rs.collection.length)
    (Nat.le_refl _) (by rw [List.length_append]; omega)
  simp only [ReadStream.upToEnd, copied, List.take_length, Option.bind_eq_bind, Option.bind_some]

theorem Holds.upTo (holds : Holds rs before m past) (obj : α) : rs.upTo equals obj =
    match (m ++ past).findIdx? fun each => equals each obj with
    | none => some (m ++ past, { rs with position := rs.collection.length })
    | some e => some ((m ++ past).take e, { rs with position := before.length + (e + 1) }) := by
  have searched : indexOf rs.collection (fun each => equals each obj) rs.position =
      ((m ++ past).findIdx? fun each => equals each obj).map (before.length + ·) := by
    rw [indexOf, holds.collection, holds.position, List.drop_left]
  rw [ReadStream.upTo, searched]
  cases found : (m ++ past).findIdx? fun each => equals each obj with
  | none => exact holds.upToEnd
  | some e =>
    have inside := (List.findIdx?_eq_some_iff_getElem.mp found).1
    have copied := holds.copyFrom (k := e) (Nat.le_of_lt inside) rfl
    simp only [Option.map_some, copied, Option.bind_eq_bind, Option.bind_some]
    rfl

omit [Inhabited α] in
theorem Holds.upToSatisfying (holds : Holds rs before m past) (test : α → Bool) {fuel : Nat}
    (enough : m.length < fuel) : ReadStream.upToSatisfying test fuel rs =
      some (m.take (upToPlace m 1 (m.findIdx? test)).1,
        { rs with position := before.length + (upToPlace m 1 (m.findIdx? test)).2 }) := by
  induction m generalizing rs before fuel with
  | nil =>
    cases fuel with
    | zero => exact absurd enough (Nat.not_lt_zero _)
    | succ fuel =>
      have ended : rs.isAtEnd = true := holds.isAtEnd
      rw [ReadStream.upToSatisfying, if_pos ended]
      simp only [List.findIdx?_nil, upToPlace, List.length_nil, List.take_nil, Nat.add_zero,
        ← holds.position]
  | cons x m ih =>
    cases fuel with
    | zero => exact absurd enough (Nat.not_lt_zero _)
    | succ fuel =>
      have going : ¬ rs.isAtEnd = true := by
        rw [holds.isAtEnd]
        exact Bool.false_ne_true
      have step := holds.advance (k := 1) (by simp) rfl
      rw [ReadStream.upToSatisfying, if_neg going, holds.next, List.findIdx?_cons]
      simp only [List.head?_cons, Option.map_some, Option.bind_eq_bind, Option.bind_some]
      split
      · rfl
      · have rest := ih step (Nat.lt_of_succ_lt_succ enough)
        simp only [rest, Option.bind_some, upToPlace_succ, List.take_succ_cons, List.take_zero,
          List.length_append, List.length_singleton, Nat.add_assoc, Nat.add_comm 1]

theorem Holds.scanFor (holds : Holds rs before m past) (pattern : List α) {k fuel : Nat}
    (enough : m.length + 1 - k < fuel) :
    ReadStream.scanFor equals pattern fuel { rs with position := before.length + k } =
      some (((List.range' k (m.length + 1 - pattern.length - k)).find? fun e =>
        sameElements equals ((m.drop e).take pattern.length) pattern).map (before.length + ·)) := by
  induction fuel generalizing k with
  | zero => exact absurd enough (Nat.not_lt_zero _)
  | succ fuel ih =>
    have limit := holds.readLimit
    rw [ReadStream.scanFor]
    split
    · next short =>
      simp only [holds.readLimit] at short
      rw [show m.length + 1 - pattern.length - k = 0 by omega]
      rfl
    · next room =>
      simp only [holds.readLimit] at room
      have inside : k ≤ m.length := by omega
      have peeked := (holds.advance inside rfl).nextN pattern.length
      rw [show m.length + 1 - pattern.length - k = m.length + 1 - pattern.length - (k + 1) + 1 by omega,
        List.range'_succ, List.find?_cons]
      simp only [peekN, peeked, Option.map_some, Option.bind_eq_bind, Option.bind_some]
      cases sameElements equals ((m.drop k).take pattern.length) pattern with
      | true => rfl
      | false =>
        rw [if_neg Bool.false_ne_true, Nat.add_assoc]
        exact ih (by omega)

theorem Holds.upToAll (holds : Holds rs before m past) (pattern : List α) :
    rs.upToAll equals pattern = match occurrence equals pattern m with
      | none => some (m ++ past, { rs with position := rs.collection.length })
      | some e => some (m.take e, { rs with position := before.length + e }) := by
  have limit := holds.readLimit
  have scanned := @Holds.scanFor α rs before m past equals _ holds pattern 0 (rs.readLimit + 2)
    (by omega)
  have start : ({ rs with position := before.length + 0 } : ReadStream α) = rs := by
    rw [Nat.add_zero, ← holds.position]
  rw [start, Nat.sub_zero, ← List.range_eq_range'] at scanned
  simp only [ReadStream.upToAll, scanned, Option.bind_eq_bind, Option.bind_some, occurrence]
  cases found : (List.range (m.length + 1 - pattern.length)).find? fun e =>
      sameElements equals ((m.drop e).take pattern.length) pattern with
  | none => exact holds.upToEnd
  | some e =>
    have inside := List.mem_range.mp (List.mem_of_find?_eq_some found)
    have few : min e m.length = e := by omega
    simp only [Option.map_some, holds.position, Nat.add_sub_cancel_left, holds.nextN, few]

end SlateVm.Collections.ReadStream
