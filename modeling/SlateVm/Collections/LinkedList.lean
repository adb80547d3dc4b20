import SlateVm.Lib.Refinement
import SlateVm.Lib.Linked

/-! `LinkedList`: a ring of links through the list object itself. `none` in a slot is Nil. -/
namespace SlateVm.Collections

structure LinkedList (L : Type) where
  list : L
  next : L → Option L
  previous : L → Option L

namespace LinkedList

open Refinement Linked

variable {L : Type} [DecidableEq L]

def setNext (ll : LinkedList L) (link : L) (other : Option L) : LinkedList L :=
  { ll with next := Function.update ll.next link other }

def setPrevious (ll : LinkedList L) (link : L) (other : Option L) : LinkedList L :=
  { ll with previous := Function.update ll.previous link other }

def clear (ll : LinkedList L) : LinkedList L :=
  (ll.setNext ll.list ll.list).setPrevious ll.list ll.list

/-- The loops of `do:` and `reverseDo:`: the links met until the list object comes up. Nil
has no link to follow. -/
def visit (list : L) (follow : L → Option L) : Nat → Option L → Option (List L)
  | 0, _ | _ + 1, none => none
  | fuel + 1, some link =>
    if link = list then some [] else (visit list follow fuel (follow link)).map (link :: ·)

def elementsDo (ll : LinkedList L) (fuel : Nat) : Option (List L) :=
  visit ll.list ll.next fuel (ll.next ll.list)

def elementsReverseDo (ll : LinkedList L) (fuel : Nat) : Option (List L) :=
  visit ll.list ll.previous fuel (ll.previous ll.list)

def first (ll : LinkedList L) : Option L := ll.next ll.list

def last (ll : LinkedList L) : Option L := ll.previous ll.list

def at? (ll : LinkedList L) (index : Nat) : Option L :=
  Nat.repeat (fun position => position.bind ll.next) index (ll.next ll.list)

/-- `after:`, which answers Nil before the list object. -/
def after (ll : LinkedList L) (link : L) : Option L :=
  if ll.next link = ll.list then none else ll.next link

def before (ll : LinkedList L) (link : L) : Option L :=
  if ll.previous link = ll.list then none else ll.previous link

/-- `add:before:`, where Nil as the old object or before it signals. -/
def addBefore (ll : LinkedList L) (newObject : L) (oldObject : Option L) :
    Option (LinkedList L) := do
  let oldObject ← oldObject
  let ll := ll.setNext newObject oldObject
  let ll := ll.setPrevious newObject (ll.previous oldObject)
  let ll := ll.setPrevious oldObject newObject
  let link ← ll.previous newObject
  some (ll.setNext link newObject)

def addAfter (ll : LinkedList L) (newObject : L) (oldObject : Option L) :
    Option (LinkedList L) := do
  let oldObject ← oldObject
  ll.addBefore newObject (ll.next oldObject)

def addFirst (ll : LinkedList L) (newObject : L) : Option (LinkedList L) :=
  ll.addBefore newObject ll.first

def addLast (ll : LinkedList L) (newObject : L) : Option (LinkedList L) :=
  ll.addAfter newObject ll.last

def add (ll : LinkedList L) (newObject : L) : Option (LinkedList L) := ll.addLast newObject

inductive Op (L : Type) where
  | add (newObject : L)
  | addFirst (newObject : L)
  | addLast (newObject : L)
  | addAfter (newObject oldObject : L)
  | addBefore (newObject oldObject : L)
  | clear

def perform (ll : LinkedList L) : Op L → Option (LinkedList L × L)
  | .add new => (ll.add new).map (·, new)
  | .addFirst new => (ll.addFirst new).map (·, new)
  | .addLast new => (ll.addLast new).map (·, new)
  | .addAfter new old => (ll.addAfter new old).map (·, new)
  | .addBefore new old => (ll.addBefore new old).map (·, new)
  | .clear => some (ll.clear, ll.list)

def Op.after (xs : List L) : Op L → List L
  | .add new | .addLast new => xs ++ [new]
  | .addFirst new => new :: xs
  | .addAfter new old => xs.takeWhile (· ≠ old) ++ old :: new :: (xs.dropWhile (· ≠ old)).tail
  | .addBefore new old => xs.takeWhile (· ≠ old) ++ new :: xs.dropWhile (· ≠ old)
  | .clear => []

def Op.added : Op L → Option L
  | .add new | .addFirst new | .addLast new | .addAfter new _ | .addBefore new _ => some new
  | .clear => none

def Op.position : Op L → Option L
  | .addAfter _ old | .addBefore _ old => some old
  | .add _ | .addFirst _ | .addLast _ | .clear => none

def Member (ll : LinkedList L) (link : L) : Prop :=
  ∃ fuel xs, ll.elementsDo fuel = some xs ∧ link ∈ xs

def Admits (ll : LinkedList L) (op : Op L) : Prop :=
  (∀ new ∈ op.added, ¬ ll.Member new) ∧ ∀ old ∈ op.position, ll.Member old

/-- What a linked list shows of the plain list `xs`. -/
structure Shows (ll : LinkedList L) (xs : List L) : Prop where
  elementsDo : ∃ fuel, ll.elementsDo fuel = some xs
  elementsReverseDo : ∃ fuel, ll.elementsReverseDo fuel = some xs.reverse
  inverse : ∀ link ∈ ll.list :: xs,
    (ll.next link).bind ll.previous = some link ∧ (ll.previous link).bind ll.next = some link
  at? : ∀ i < xs.length, ll.at? i = xs[i]?
  after : ∀ i link, xs[i]? = some link → ll.after link = xs[i + 1]?
  before : ∀ i link, xs[i]? = some link → ll.before link = if i = 0 then none else xs[i - 1]?

def implementation : Implementation (LinkedList L) (List L) (Op L) L where
  start ll xs := (∃ old : LinkedList L, ll = old.clear) ∧ xs = []
  perform := perform
  next xs op _ := op.after xs
  right _ op answer := ∀ new ∈ op.added, answer = new

end LinkedList

end SlateVm.Collections

/-! A `LinkedList` refines a plain list. -/
namespace SlateVm.Collections.LinkedList

open Refinement Linked

variable {L : Type} [DecidableEq L] {ll : LinkedList L} {xs l r : List L} {old x p a list : L}
variable {follow back : L → Option L}

omit [DecidableEq L] in
/-- The ring runs through the list object and the elements, which are all different. -/
structure Holds (ll : LinkedList L) (xs : List L) : Prop where
  ring : Run ll.next ll.previous ll.list xs ll.list
  members : (ll.list :: xs).Nodup

theorem holds_clear (ll : LinkedList L) : Holds ll.clear [] :=
  ⟨by simp [Run, clear, setNext, setPrevious], by simp⟩

theorem visit_run (run : Run follow back a l list) (outside : list ∉ l) :
    visit list follow (l.length + 1) (follow a) = some l := by
  induction l generalizing a with
  | nil => simp [visit, run.1]
  | cons y l ih =>
    have other : y ≠ list := fun same => outside (same ▸ List.mem_cons_self)
    rw [run.1.1, List.length_cons, visit, if_neg other,
      ih run.2 fun here => outside (List.mem_cons_of_mem y here), Option.map_some]

theorem visit_unique (run : Run follow back a l list) (outside : list ∉ l) {fuel : Nat}
    (visits : visit list follow fuel (follow a) = some xs) : xs = l := by
  induction l generalizing a fuel xs with
  | nil =>
    cases fuel with
    | zero => exact nomatch visits
    | succ fuel =>
      rw [run.1, visit, if_pos rfl] at visits
      exact (Option.some.inj visits).symm
  | cons y l ih =>
    have other : y ≠ list := fun same => outside (same ▸ List.mem_cons_self)
    cases fuel with
    | zero => exact nomatch visits
    | succ fuel =>
      rw [run.1.1, visit, if_neg other] at visits
      obtain ⟨ys, rest, rfl⟩ := Option.map_eq_some_iff.mp visits
      rw [ih run.2 (fun here => outside (List.mem_cons_of_mem y here)) rest]

theorem takeWhile_ne (before : old ∉ l) : (l ++ old :: r).takeWhile (· ≠ old) = l := by
  rw [List.takeWhile_append_of_pos]
  · simp
  · intro y here
    simpa using fun same : y = old => before (same ▸ here)

theorem dropWhile_ne (before : old ∉ l) : (l ++ old :: r).dropWhile (· ≠ old) = old :: r := by
  rw [List.dropWhile_append_of_pos]
  · simp
  · intro y here
    simpa using fun same : y = old => before (same ▸ here)

omit [DecidableEq L] in
theorem Holds.outside (holds : Holds ll xs) : ll.list ∉ xs := (List.nodup_cons.mp holds.members).1

theorem Holds.member (holds : Holds ll xs) {link : L} : ll.Member link ↔ link ∈ xs := by
  constructor
  · rintro ⟨fuel, ys, visits, here⟩
    rwa [visit_unique holds.ring holds.outside visits] at here
  · intro here
    exact ⟨_, xs, visit_run holds.ring holds.outside, here⟩

theorem addBefore_eq (before : ll.previous old = some p) (other : x ≠ old) :
    ll.addBefore x old = some ⟨ll.list, Function.update (Function.update ll.next x old) p x,
      Function.update (Function.update ll.previous x p) old x⟩ := by
  simp [addBefore, setNext, setPrevious, before, other]

theorem Holds.insert (holds : Holds ll (l ++ r)) (fresh : x ∉ ll.list :: (l ++ r))
    (position : (r ++ [ll.list]).head? = some old) :
    ∃ ll', ll.addBefore x old = some ll' ∧ ll'.list = ll.list ∧ Holds ll' (l ++ x :: r) := by
  have members : (ll.list :: (l ++ x :: r)).Nodup := by
    have apart := List.nodup_cons.mpr ⟨fresh, holds.members⟩
    refine (List.Perm.nodup_iff ?_).mp apart
    exact (List.Perm.swap _ _ _).trans (List.Perm.cons _ List.perm_middle.symm)
  have onStart : x ∉ ll.list :: l := fun here => fresh (List.mem_cons.mpr
    ((List.mem_cons.mp here).imp id (List.mem_append_left r)))
  have start : (ll.list :: l).Nodup :=
    holds.members.sublist (List.Sublist.cons_cons _ (List.sublist_append_left l r))
  cases r with
  | nil =>
    cases position
    have ring : Run ll.next ll.previous ll.list l ll.list := by simpa using holds.ring
    have before := ring.last
    rw [List.getLast?_cons] at before
    refine ⟨_, addBefore_eq before (List.ne_of_not_mem_cons fresh), rfl, ?_, members⟩
    exact ring.insert before start onStart (List.nodup_cons.mp start).1
      (List.ne_of_not_mem_cons fresh)
  | cons y r =>
    cases position
    obtain ⟨ring, rest⟩ := Run.append.mp holds.ring
    have before := ring.last
    rw [List.getLast?_cons] at before
    have onward := List.mem_of_getLast? (before.symm.trans ring.last).symm
    have apart := holds.members
    rw [← List.cons_append, List.nodup_append] at apart
    obtain ⟨_, later, disjoint⟩ := apart
    have other : x ≠ old := by
      rintro rfl
      exact fresh (List.mem_cons_of_mem _ (List.mem_append_right l List.mem_cons_self))
    refine ⟨_, addBefore_eq before other, rfl, ?_, members⟩
    have inserted := ring.insert before start onStart
      (fun here => disjoint _ (List.mem_cons_of_mem _ here) _ List.mem_cons_self rfl) other
    rw [show l ++ x :: old :: r = (l ++ [x]) ++ old :: r by simp]
    refine Run.append.mpr ⟨inserted, rest.frame ?_ ?_⟩
    · intro z here
      have notNew : z ≠ x := by
        rintro rfl
        exact fresh (List.mem_cons_of_mem _ (List.mem_append_right l here))
      simp [Ne.symm (disjoint _ onward z here), notNew]
    · intro z here
      have notOld : z ≠ old := by
        rintro rfl
        rcases List.mem_append.mp here with within | atEnd
        · exact (List.nodup_cons.mp later).1 within
        · exact disjoint _ List.mem_cons_self _ List.mem_cons_self (List.mem_singleton.mp atEnd).symm
      have notNew : z ≠ x := by
        rintro rfl
        rcases List.mem_append.mp here with within | atEnd
        · exact fresh (List.mem_cons_of_mem _ (List.mem_append_right l (List.mem_cons_of_mem _ within)))
        · exact fresh (List.mem_singleton.mp atEnd ▸ List.mem_cons_self)
      simp [notOld, notNew]

theorem Holds.clear (_ : Holds ll xs) : Holds ll.clear [] := holds_clear ll

theorem Holds.addFirst (holds : Holds ll xs) (fresh : x ∉ ll.list :: xs) :
    ∃ ll', ll.addFirst x = some ll' ∧ ll'.list = ll.list ∧ Holds ll' (x :: xs) := by
  obtain ⟨old, first⟩ : ∃ old, (xs ++ [ll.list]).head? = some old := by
    cases xs with
    | nil => exact ⟨_, rfl⟩
    | cons y xs => exact ⟨_, rfl⟩
  rw [LinkedList.addFirst, LinkedList.first, holds.ring.first, first]
  exact @Holds.insert L _ ll [] xs old x holds fresh first

theorem Holds.addLast (holds : Holds ll xs) (fresh : x ∉ ll.list :: xs) :
    ∃ ll', ll.addLast x = some ll' ∧ ll'.list = ll.list ∧ Holds ll' (xs ++ [x]) := by
  have last := holds.ring.last
  rw [List.getLast?_cons] at last
  have onward := holds.ring.reverse.onward ll.list List.mem_cons_self
  rw [last, Option.bind_some] at onward
  rw [LinkedList.addLast, LinkedList.addAfter, LinkedList.last, last, Option.bind_eq_bind,
    Option.bind_some, onward]
  exact @Holds.insert L _ ll xs [] _ x (by simpa using holds) (by simpa using fresh) rfl

theorem Holds.addBefore (holds : Holds ll (l ++ old :: r))
    (fresh : x ∉ ll.list :: (l ++ old :: r)) :
    ∃ ll', ll.addBefore x old = some ll' ∧ ll'.list = ll.list ∧
      Holds ll' (l ++ x :: old :: r) :=
  holds.insert fresh rfl

theorem Holds.addAfter (holds : Holds ll (l ++ old :: r))
    (fresh : x ∉ ll.list :: (l ++ old :: r)) :
    ∃ ll', ll.addAfter x old = some ll' ∧ ll'.list = ll.list ∧
      Holds ll' (l ++ old :: x :: r) := by
  obtain ⟨next, position⟩ : ∃ next, (r ++ [ll.list]).head? = some next := by
    cases r with
    | nil => exact ⟨_, rfl⟩
    | cons y r => exact ⟨_, rfl⟩
  have ring := (Run.append.mp holds.ring).2.first
  rw [LinkedList.addAfter, Option.bind_eq_bind, Option.bind_some, ring, position]
  have inserted := @Holds.insert L _ ll (l ++ [old]) r next x (by simpa using holds)
    (by simpa using fresh) position
  simpa using inserted

omit [DecidableEq L] in
theorem Holds.neighbours (holds : Holds ll (l ++ old :: r)) :
    ll.next old = (r ++ [ll.list]).head? ∧ ll.previous old = (ll.list :: l).getLast? :=
  have ring := Run.append.mp holds.ring
  ⟨ring.2.first, ring.1.last⟩

omit [DecidableEq L] in
theorem Holds.split (_ : Holds ll xs) {i : Nat} (here : xs[i]? = some old) :
    xs = xs.take i ++ old :: xs.drop (i + 1) := by
  obtain ⟨inside, rfl⟩ := List.getElem?_eq_some_iff.mp here
  rw [← List.drop_eq_getElem_cons inside, List.take_append_drop]

theorem Holds.after (holds : Holds ll xs) {i : Nat} (here : xs[i]? = some old) :
    ll.after old = xs[i + 1]? := by
  have inside := (List.getElem?_eq_some_iff.mp here).1
  have next := (holds.split here ▸ holds : Holds ll _).neighbours.1
  rw [LinkedList.after, next]
  rcases Nat.lt_or_ge (i + 1) xs.length with more | end_
  · have later := List.drop_eq_getElem_cons more
    rw [later, List.cons_append, List.head?_cons, List.getElem?_eq_getElem more, if_neg]
    intro same
    exact holds.outside (Option.some.inj same ▸ List.getElem_mem more)
  · rw [List.drop_eq_nil_of_le end_, List.getElem?_eq_none end_]
    exact if_pos rfl

theorem Holds.before (holds : Holds ll xs) {i : Nat} (here : xs[i]? = some old) :
    ll.before old = if i = 0 then none else xs[i - 1]? := by
  have inside := (List.getElem?_eq_some_iff.mp here).1
  have previous := (holds.split here ▸ holds : Holds ll _).neighbours.2
  rw [LinkedList.before, previous]
  cases i with
  | zero => exact if_pos rfl
  | succ i =>
    have last : (ll.list :: xs.take (i + 1)).getLast? = xs[i]? := by
      rw [List.getLast?_cons, List.getLast?_take]
      simp [List.getElem?_eq_getElem (show i < xs.length by omega)]
    rw [last, List.getElem?_eq_getElem (by omega), if_neg]
    · simp [List.getElem?_eq_getElem (show i < xs.length by omega)]
    · intro same
      exact holds.outside (Option.some.inj same ▸ List.getElem_mem _)

theorem Holds.shows (holds : Holds ll xs) : Shows ll xs where
  elementsDo := ⟨_, visit_run holds.ring holds.outside⟩
  elementsReverseDo := by
    have outside : ll.list ∉ xs.reverse := fun here => holds.outside (List.mem_reverse.mp here)
    exact ⟨_, visit_run holds.ring.reverse outside⟩
  inverse := by
    intro link here
    constructor
    · exact holds.ring.onward link here
    · apply holds.ring.reverse.onward link
      rcases List.mem_cons.mp here with rfl | member
      · exact List.mem_cons_self
      · exact List.mem_cons_of_mem _ (List.mem_reverse.mpr member)
  at? _ hi := holds.ring.nth hi
  after _ _ here := holds.after here
  before _ _ here := holds.before here

def Apart (ll : LinkedList L) (op : Op L) : Prop :=
  ll.Admits op ∧ ∀ new ∈ op.added, new ≠ ll.list

theorem Holds.fresh (holds : Holds ll xs) {op : Op L} (apart : ll.Apart op)
    (adds : op.added = some x) : x ∉ ll.list :: xs := by
  intro here
  rcases List.mem_cons.mp here with same | member
  · exact apart.2 x adds same
  · exact apart.1.1 x adds (holds.member.mpr member)

theorem step_added {op : Op L} {ll' : LinkedList L} (adds : op.added = some x)
    (run : perform ll op = some (ll', x)) (holds : Holds ll' (op.after xs)) :
    Step implementation Holds ll xs op := by
  refine ⟨ll', x, run, ?_, holds⟩
  intro new added
  exact Option.some.inj (adds.symm.trans added)

theorem Holds.step (holds : Holds ll xs) (op : Op L) (apart : ll.Apart op) :
    Step implementation Holds ll xs op := by
  cases op with
  | add new | addLast new =>
    obtain ⟨ll', run, _, after⟩ := holds.addLast (holds.fresh apart rfl)
    exact step_added rfl (by simp [perform, add, run]) after
  | addFirst new =>
    obtain ⟨ll', run, _, after⟩ := holds.addFirst (holds.fresh apart rfl)
    exact step_added rfl (by simp [perform, run]) after
  | addAfter new old =>
    have member : old ∈ xs := holds.member.mp (apart.1.2 old rfl)
    obtain ⟨l, r, rfl, before⟩ := List.eq_append_cons_of_mem member
    obtain ⟨ll', run, _, after⟩ := holds.addAfter (holds.fresh apart rfl)
    have ran : perform ll (.addAfter new old) = some (ll', new) := by simp [perform, run]
    apply step_added rfl ran
    rwa [Op.after, takeWhile_ne before, dropWhile_ne before]
  | addBefore new old =>
    have member : old ∈ xs := holds.member.mp (apart.1.2 old rfl)
    obtain ⟨l, r, rfl, before⟩ := List.eq_append_cons_of_mem member
    obtain ⟨ll', run, _, after⟩ := holds.addBefore (holds.fresh apart rfl)
    have ran : perform ll (.addBefore new old) = some (ll', new) := by simp [perform, run]
    apply step_added rfl ran
    rwa [Op.after, takeWhile_ne before, dropWhile_ne before]
  | clear =>
    refine ⟨ll.clear, ll.list, rfl, ?_, holds.clear⟩
    intro new added
    exact nomatch added

/-- A `LinkedList` is the plain list on which the same operations are performed, as long as it
is not added to itself. -/
theorem list_refines : Refines (implementation (L := L)) Apart Shows := by
  apply Refines.of_steps Holds
  · rintro ll xs ⟨⟨old, rfl⟩, rfl⟩
    exact holds_clear old
  · intro ll xs op holds apart
    exact holds.step op apart
  · intro ll xs holds
    exact holds.shows

/-- A list added to itself is the empty ring that it was before. -/
theorem list_added_to_itself :
    ¬ ∀ (L : Type) [DecidableEq L], Refines (implementation (L := L)) Admits Shows := by
  intro refines
  have empty := holds_clear (⟨0, fun _ => none, fun _ => none⟩ : LinkedList Nat)
  have admits : Admits (clear ⟨0, fun _ => none, fun _ => none⟩) (.addFirst 0) :=
    ⟨fun new _ member => List.not_mem_nil (empty.member.mp member), by simp [Op.position]⟩
  have reached := Reached.step (i := implementation) (Reached.start ⟨⟨_, rfl⟩, rfl⟩) admits rfl
  obtain ⟨fuel, visits⟩ := (refines Nat _ _ reached).1.elementsDo
  refine List.cons_ne_nil 0 [] (@visit_unique Nat _ _ _ _ _ _ (fun _ => some 0) ?_
    List.not_mem_nil fuel visits)
  exact ⟨rfl, rfl⟩

end SlateVm.Collections.LinkedList
