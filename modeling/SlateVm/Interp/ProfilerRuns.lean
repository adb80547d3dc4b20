import SlateVm.Lib.Refinement
import SlateVm.Lib.Tally

/-! The profiler: statistics of methods kept by address, while the collector moves and frees
the methods. -/
namespace SlateVm.Profiler

open Tally Refinement

/-- The profiling fields of the heap; the top of the call stack comes first, with the time at
which each call started. -/
structure Profile (α : Type) where
  lastTime : Int
  profiledMethods : α → Bool
  callCounts : Counts α
  selfTime : Counts α
  childCallCount : Pairs α
  childCallTime : Pairs α
  callStack : List (α × Int)

section Code

variable {α : Type} [DecidableEq α]

def start (time : Int) : Profile α where
  lastTime := time
  profiledMethods _ := false
  callCounts _ := none
  selfTime _ := none
  childCallCount _ := none
  childCallTime _ := none
  callStack := []

/-- The loop that pops calls up to the one that returns. It fails where the code pops an empty
stack or reads the last element of one. -/
def unwind (fromMethod : α) (time : Int) :
    List (α × Int) → Pairs α → Pairs α → Option (List (α × Int) × Pairs α × Pairs α)
  | [], _, _ => none
  | [_], _, _ => none
  | (callMethod, callStartTime) :: (parent, parentTime) :: rest, counts, times =>
    let times := addPair times parent callMethod (time - callStartTime)
    let counts := addPair counts parent callMethod 1
    -- the parent is still on the stack, so the loop goes on exactly for another method
    if callMethod = fromMethod then some ((parent, parentTime) :: rest, counts, times)
    else unwind fromMethod time ((parent, parentTime) :: rest) counts times

def enterMethod (p : Profile α) (fromMethod toMethod : α) (time : Int) (push : Bool) :
    Option (Profile α) :=
  let timeDiff := time - p.lastTime
  let p := { p with
    profiledMethods := Function.update p.profiledMethods toMethod true
    selfTime := add p.selfTime fromMethod timeDiff }
  if push then
    some { p with
      callCounts := add p.callCounts toMethod 1
      callStack := (toMethod, time) :: p.callStack
      lastTime := time }
  else do
    let (callStack, counts, times) ←
      unwind fromMethod time p.callStack p.childCallCount p.childCallTime
    some { p with
      callStack := callStack
      childCallCount := counts
      childCallTime := times
      lastTime := time }

def replaced (method other : α) (stack : List (α × Int)) : List (α × Int) :=
  stack.map fun (m, time) => (if m = method then other else m, time)

def noticeForwardedObject (p : Profile α) (source target : α) : Profile α :=
  if p.profiledMethods source then
    { p with
      profiledMethods :=
        Function.update (Function.update p.profiledMethods source false) target true
      selfTime := move p.selfTime source target
      callCounts := move p.callCounts source target
      childCallCount := movePair p.childCallCount source target
      childCallTime := movePair p.childCallTime source target
      callStack := replaced source target p.callStack }
  else p

def deleteMethod (nil : α) (p : Profile α) (method : α) : Profile α :=
  { p with
    profiledMethods := Function.update p.profiledMethods method false
    selfTime := erase p.selfTime method
    callCounts := erase p.callCounts method
    childCallCount := erasePair p.childCallCount method
    childCallTime := erasePair p.childCallTime method
    callStack := replaced method nil p.callStack }

end Code

section Runs

variable {ι α : Type} [DecidableEq ι] [DecidableEq α]

inductive Home (α : Type) where
  | unborn
  | at (address : α)
  | dead
  deriving DecidableEq

/-- What happens while profiling, told by the objects and not by their addresses. -/
inductive Event (ι α : Type) where
  | enter (fromMethod toMethod : ι) (time : Int)
  | leave (fromMethod toMethod : ι) (time : Int)
  | allocate (object : ι) (address : α)
  | forward (object : ι) (address : α)
  | delete (object : ι)

structure World (ι α : Type) where
  home : ι → Home α
  profile : Profile α

def World.address (w : World ι α) (x : ι) : Option α :=
  match w.home x with
  | .at a => some a
  | _ => none

def perform (nil : α) (w : World ι α) : Event ι α → Option (World ι α)
  | .enter f t time => do
    let p ← enterMethod w.profile (← w.address f) (← w.address t) time true
    some { w with profile := p }
  | .leave f t time => do
    let p ← enterMethod w.profile (← w.address f) (← w.address t) time false
    some { w with profile := p }
  | .allocate x a => some { w with home := Function.update w.home x (.at a) }
  | .forward x b => do
    let a ← w.address x
    some ⟨Function.update w.home x (.at b), noticeForwardedObject w.profile a b⟩
  | .delete x => do
    let a ← w.address x
    some ⟨Function.update w.home x .dead, deleteMethod nil w.profile a⟩

def renamed (nil : ι) (q : Profile ι) : Event ι α → Profile ι
  | .enter f t time => (enterMethod q f t time true).getD q
  | .leave f t time => (enterMethod q f t time false).getD q
  | .allocate _ _ => q
  | .forward _ _ => q
  | .delete x => deleteMethod nil q x

def Injective (home : ι → Home α) : Prop := ∀ x y a, home x = .at a → home y = .at a → x = y

def implementation (nil : ι) (nilAddress : α) :
    Implementation (World ι α) (Profile ι) (Event ι α) Unit where
  start w q := ∃ time, w.profile = start time ∧ q = start time ∧ Injective w.home ∧
    w.home nil = .at nilAddress
  perform w e := (perform nilAddress w e).map (·, ())
  next q e _ := renamed nil q e
  right _ _ _ := True

/-- What the machine and the collector can do: methods that are called are there, an object comes
to a free address, and Nil stays. -/
def Possible (nil : ι) (w : World ι α) : Event ι α → Prop
  | .enter f t _ => (∃ a, w.home f = .at a) ∧ ∃ b, w.home t = .at b
  | .leave f t _ => (∃ a, w.home f = .at a) ∧ ∃ b, w.home t = .at b
  | .allocate x b => w.home x = .unborn ∧ ∀ y, w.home y ≠ .at b
  | .forward x b => x ≠ nil ∧ (∃ a, w.home x = .at a) ∧ ∀ y, w.home y ≠ .at b
  | .delete x => x ≠ nil ∧ ∃ a, w.home x = .at a

def Childless (p : Profile α) (a : α) : Prop :=
  ∀ b, pair p.childCallCount a b = none ∧ pair p.childCallTime a b = none

/-- A return comes from a method on the stack, above its bottom; an object that moves has called
none that is recorded and has time only as a profiled method; and an object comes to an address
whose last object has left no calls. -/
def Spares (w : World ι α) : Event ι α → Prop
  | .enter _ _ _ => True
  | .leave f _ _ => ∀ a, w.home f = .at a → a ∈ (w.profile.callStack.map Prod.fst).dropLast
  | .allocate _ b => Childless w.profile b
  | .forward x b => Childless w.profile b ∧ ∀ a, w.home x = .at a → Childless w.profile a ∧
      (w.profile.profiledMethods a = true ∨ count w.profile.selfTime a = 0)
  | .delete _ => True

structure Shows (w : World ι α) (q : Profile ι) : Prop where
  profiled : ∀ x a, w.home x = .at a → w.profile.profiledMethods a = q.profiledMethods x
  calls : ∀ x a, w.home x = .at a → count w.profile.callCounts a = count q.callCounts x
  self : ∀ x a, w.home x = .at a → count w.profile.selfTime a = count q.selfTime x
  childCounts : ∀ x a y b, w.home x = .at a → w.home y = .at b →
    (pair w.profile.childCallCount a b).getD 0 = (pair q.childCallCount x y).getD 0
  childTimes : ∀ x a y b, w.home x = .at a → w.home y = .at b →
    (pair w.profile.childCallTime a b).getD 0 = (pair q.childCallTime x y).getD 0

end Runs

end SlateVm.Profiler

/-! Runs of the profiler beside a profile of objects that never move. -/
namespace SlateVm.Profiler

open Tally Refinement

section Invariant

variable {ι α : Type} {home home' : ι → Home α} {nil : ι} {nilAddress : α}
  {profiled profiled' : α → Bool} {x : ι} {a b : α}

def Here (home : ι → Home α) (x : ι) (a : α) : Prop := home x = .at a

theorem naming (apart : Injective home) : Naming (Here home) := by
  constructor
  · intro x y a hx hy
    exact apart x y a hx hy
  · intro x a b ha hb
    exact Home.at.inj (Eq.trans (Eq.symm ha) hb)

theorem injective (naming : Naming (Here home)) : Injective home :=
  fun _ _ _ hx hy => naming.apart hx hy

/-- Counts of calls between methods. Only profiled methods and Nil have been called, and objects
that are not there yet have no counts. -/
structure Nested (home : ι → Home α) (nilAddress : α) (profiled : α → Bool) (m : Pairs α)
    (m' : Pairs ι) : Prop where
  same : SamePairs (Here home) m m'
  absent : ∀ a, profiled a = false → a ≠ nilAddress → ∀ p, pair m p a = none
  unborn : ∀ x, home x = .unborn → ∀ y, (pair m' x y).getD 0 = 0 ∧ (pair m' y x).getD 0 = 0

/-- Counts of single methods; `bare` says at which addresses there are none. -/
structure Single (home : ι → Home α) (bare : α → Prop) (m : Counts α) (m' : Counts ι) : Prop where
  same : Same (Here home) m m'
  absent : ∀ a, bare a → count m a = 0
  unborn : ∀ x, home x = .unborn → count m' x = 0

def Called (nilAddress : α) (profiled : α → Bool) (stack : List (α × Int)) : Prop :=
  ∀ c ∈ stack, c.1 = nilAddress ∨ profiled c.1 = true

def Calls (home : ι → Home α) : List (α × Int) → List (ι × Int) → Prop :=
  List.Forall₂ fun c d => home d.1 = .at c.1 ∧ c.2 = d.2

def Vacant (home : ι → Home α) (a : α) : Prop := ∀ x, home x ≠ .at a

structure Known (home : ι → Home α) (m : α → Bool) (m' : ι → Bool) : Prop where
  same : ∀ x a, home x = .at a → m a = m' x
  vacant : ∀ a, Vacant home a → m a = false
  unborn : ∀ x, home x = .unborn → m' x = false

structure Keeps (nil : ι) (nilAddress : α) (w : World ι α) (q : Profile ι) : Prop where
  apart : Injective w.home
  nilHere : w.home nil = .at nilAddress
  level : w.profile.lastTime = q.lastTime
  known : Known w.home w.profile.profiledMethods q.profiledMethods
  calls : Single w.home (fun a => w.profile.profiledMethods a = false ∧ a ≠ nilAddress)
    w.profile.callCounts q.callCounts
  self : Single w.home (Vacant w.home) w.profile.selfTime q.selfTime
  childCounts : Nested w.home nilAddress w.profile.profiledMethods w.profile.childCallCount
    q.childCallCount
  childTimes : Nested w.home nilAddress w.profile.profiledMethods w.profile.childCallTime
    q.childCallTime
  stack : Calls w.home w.profile.callStack q.callStack
  called : Called nilAddress w.profile.profiledMethods w.profile.callStack

theorem Keeps.shows {w : World ι α} {q : Profile ι} (keeps : Keeps nil nilAddress w q) :
    Shows w q where
  profiled := keeps.known.same
  calls := keeps.calls.same
  self := keeps.self.same
  childCounts := keeps.childCounts.same
  childTimes := keeps.childTimes.same

theorem Vacant.ne (vacant : Vacant home b) (here : home x = .at a) : a ≠ b := by
  rintro rfl
  exact vacant x here

theorem Home.at_born (a : α) : Home.at a ≠ .unborn := by
  intro same
  cases same

theorem Home.dead_born : (Home.dead : Home α) ≠ .unborn := by
  intro same
  cases same

theorem unborn_ne {y : ι} (unborn : home y = .unborn) (here : home x = .at a) : y ≠ x := by
  rintro rfl
  rw [here] at unborn
  cases unborn

theorem Nested.mono {n : Pairs α} {n' : Pairs ι}
    (nested : Nested home nilAddress profiled n n')
    (more : ∀ a, profiled' a = false → profiled a = false) :
    Nested home nilAddress profiled' n n' :=
  ⟨nested.same, fun a none => nested.absent a (more a none), nested.unborn⟩

section Entering

variable [DecidableEq ι] [DecidableEq α] {m : Counts α} {m' : Counts ι} {n : Pairs α}
  {n' : Pairs ι}

theorem Single.add {bare : α → Prop} (single : Single home bare m m') (apart : Injective home)
    (here : home x = .at a) {bare' : α → Prop} (fewer : ∀ c, bare' c → bare c ∧ c ≠ a) (d : Int) :
    Single home bare' (Tally.add m a d) (Tally.add m' x d) := by
  constructor
  · exact single.same.add (naming apart) here d
  · intro c none
    obtain ⟨old, off⟩ := fewer c none
    rw [count_add, if_neg off]
    exact single.absent c old
  · intro y unborn
    rw [count_add, if_neg (unborn_ne unborn here)]
    exact single.unborn y unborn

theorem Nested.add (nested : Nested home nilAddress profiled n n') (apart : Injective home)
    {p : ι} (parent : home p = .at a) (child : home x = .at b)
    (called : b = nilAddress ∨ profiled b = true) (d : Int) :
    Nested home nilAddress profiled (addPair n a b d) (addPair n' p x d) := by
  constructor
  · exact nested.same.add (naming apart) parent child d
  · intro c none off p
    have other : c ≠ b := by
      rintro rfl
      rcases called with same | some
      · exact off same
      · rw [none] at some
        cases some
    rw [pair_addPair, if_neg (fun target => other target.2)]
    exact nested.absent c none off p
  · intro y unborn z
    rw [pair_addPair, pair_addPair, if_neg (fun target => unborn_ne unborn parent target.1),
      if_neg (fun target => unborn_ne unborn child target.2)]
    exact nested.unborn y unborn z

theorem unwind_keeps (apart : Injective home) {f : ι} (here : home f = .at a) (time : Int)
    {stack : List (α × Int)} {stack' : List (ι × Int)} {t : Pairs α} {t' : Pairs ι}
    (calls : Calls home stack stack') (called : Called nilAddress profiled stack)
    (found : a ∈ (stack.map Prod.fst).dropLast)
    (counts : Nested home nilAddress profiled n n') (times : Nested home nilAddress profiled t t') :
    ∃ rest rest' n₁ n₁' t₁ t₁', unwind a time stack n t = some (rest, n₁, t₁) ∧
      unwind f time stack' n' t' = some (rest', n₁', t₁') ∧ Calls home rest rest' ∧
      Called nilAddress profiled rest ∧ Nested home nilAddress profiled n₁ n₁' ∧
      Nested home nilAddress profiled t₁ t₁' := by
  induction calls generalizing n n' t t' with
  | nil => cases found
  | @cons c d cs ds first others ih =>
    cases others with
    | nil => cases found
    | @cons p q ps qs second rest =>
      have below : Called nilAddress profiled (p :: ps) := fun e member =>
        called e (List.mem_cons_of_mem _ member)
      have method := called c (List.mem_cons_self ..)
      have counts' := counts.add apart second.1 first.1 method 1
      have times' := times.add apart second.1 first.1 method (time - c.2)
      have alike : c.1 = a ↔ d.1 = f := (naming apart).eq_iff here first.1
      have callTime : d.2 = c.2 := first.2.symm
      simp only [unwind, callTime]
      by_cases last : c.1 = a
      · rw [if_pos last, if_pos (alike.mp last)]
        exact ⟨_, _, _, _, _, _, rfl, rfl, .cons second rest, below, counts', times'⟩
      · rw [if_neg last, if_neg (mt alike.mpr last)]
        apply ih below _ counts' times'
        simp only [List.map_cons, List.dropLast_cons_cons, List.mem_cons] at found ⊢
        rcases found with same | later
        · exact absurd same.symm last
        · exact later

theorem Known.mark {m : α → Bool} {m' : ι → Bool} (known : Known home m m')
    (apart : Injective home) (here : home x = .at a) :
    Known home (Function.update m a true) (Function.update m' x true) := by
  constructor
  · intro y c hy
    rw [Function.update_apply, Function.update_apply, known.same y c hy]
    simp only [(naming apart).eq_iff here hy]
  · intro c vacant
    rw [Function.update_of_ne (Ne.symm (vacant.ne here))]
    exact known.vacant c vacant
  · intro y unborn
    rw [Function.update_of_ne (unborn_ne unborn here)]
    exact known.unborn y unborn

theorem update_false {m : α → Bool} {c : α} (none : Function.update m b true c = false) :
    m c = false ∧ c ≠ b := by
  rw [Function.update_apply] at none
  by_cases same : c = b
  · rw [if_pos same] at none
    cases none
  · rw [if_neg same] at none
    exact ⟨none, same⟩

def Profile.entered (p : Profile α) (fromMethod toMethod : α) (time : Int) : Profile α :=
  { p with
    lastTime := time
    profiledMethods := Function.update p.profiledMethods toMethod true
    selfTime := Tally.add p.selfTime fromMethod (time - p.lastTime)
    callCounts := Tally.add p.callCounts toMethod 1
    callStack := (toMethod, time) :: p.callStack }

def Profile.left (p : Profile α) (fromMethod toMethod : α) (time : Int)
    (rest : List (α × Int) × Pairs α × Pairs α) : Profile α :=
  { p with
    lastTime := time
    profiledMethods := Function.update p.profiledMethods toMethod true
    selfTime := Tally.add p.selfTime fromMethod (time - p.lastTime)
    callStack := rest.1
    childCallCount := rest.2.1
    childCallTime := rest.2.2 }

theorem enterMethod_push (p : Profile α) (f t : α) (time : Int) :
    enterMethod p f t time true = some (p.entered f t time) := rfl

theorem enterMethod_return {p : Profile α} {f t : α} {time : Int}
    {rest : List (α × Int) × Pairs α × Pairs α}
    (run : unwind f time p.callStack p.childCallCount p.childCallTime = some rest) :
    enterMethod p f t time false = some (p.left f t time rest) := by
  simp only [enterMethod, run, Bool.false_eq_true, if_false, Option.bind_eq_bind,
    Option.bind_some]
  rfl

variable {w : World ι α} {q : Profile ι} {f t : ι}

theorem perform_enter (hf : w.home f = .at a) (ht : w.home t = .at b) (time : Int) :
    perform nilAddress w (.enter f t time) =
      (enterMethod w.profile a b time true).map fun p => { w with profile := p } := by
  simp only [perform, World.address, hf, ht, Option.bind_eq_bind, Option.bind_some]
  cases enterMethod w.profile a b time true <;> rfl

theorem perform_leave (hf : w.home f = .at a) (ht : w.home t = .at b) (time : Int) :
    perform nilAddress w (.leave f t time) =
      (enterMethod w.profile a b time false).map fun p => { w with profile := p } := by
  simp only [perform, World.address, hf, ht, Option.bind_eq_bind, Option.bind_some]
  cases enterMethod w.profile a b time false <;> rfl

theorem Keeps.charge (keeps : Keeps nil nilAddress w q) (hf : w.home f = .at a) (time : Int) :
    Single w.home (Vacant w.home)
      (Tally.add w.profile.selfTime a (time - w.profile.lastTime))
      (Tally.add q.selfTime f (time - q.lastTime)) := by
  rw [← keeps.level]
  exact keeps.self.add keeps.apart hf (fun c vacant => ⟨vacant, Ne.symm (vacant.ne hf)⟩) _

theorem Keeps.enter (keeps : Keeps nil nilAddress w q) (time : Int) (hf : w.home f = .at a)
    (ht : w.home t = .at b) :
    Keeps nil nilAddress { w with profile := w.profile.entered a b time } (q.entered f t time) := by
  have fewer : ∀ c, Function.update w.profile.profiledMethods b true c = false →
      w.profile.profiledMethods c = false := fun c none => (update_false none).1
  constructor
  · exact keeps.apart
  · exact keeps.nilHere
  · rfl
  · exact keeps.known.mark keeps.apart ht
  · exact keeps.calls.add keeps.apart ht
      (fun c none => ⟨⟨fewer c none.1, none.2⟩, (update_false none.1).2⟩) 1
  · exact keeps.charge hf time
  · exact keeps.childCounts.mono fewer
  · exact keeps.childTimes.mono fewer
  · exact .cons ⟨ht, rfl⟩ keeps.stack
  · intro c member
    simp only [Profile.entered, Function.update_apply]
    rcases List.mem_cons.mp member with rfl | later
    · exact Or.inr (if_pos rfl)
    · split
      · exact Or.inr rfl
      · exact keeps.called c later

theorem step_enter (keeps : Keeps nil nilAddress w q) (time : Int) (hf : w.home f = .at a)
    (ht : w.home t = .at b) :
    Step (implementation nil nilAddress) (Keeps nil nilAddress) w q (.enter f t time) := by
  refine ⟨{ w with profile := w.profile.entered a b time }, (), ?_, trivial, ?_⟩
  · simp only [implementation, perform_enter hf ht, enterMethod_push, Option.map_some]
  · simp only [implementation, renamed, enterMethod_push, Option.getD_some]
    exact keeps.enter time hf ht

theorem Keeps.leave (keeps : Keeps nil nilAddress w q) (time : Int) (hf : w.home f = .at a)
    (ht : w.home t = .at b) (found : a ∈ (w.profile.callStack.map Prod.fst).dropLast) :
    ∃ rest rest',
      enterMethod w.profile a b time false = some (w.profile.left a b time rest) ∧
      enterMethod q f t time false = some (q.left f t time rest') ∧
      Keeps nil nilAddress { w with profile := w.profile.left a b time rest }
        (q.left f t time rest') := by
  have fewer : ∀ c, Function.update w.profile.profiledMethods b true c = false →
      w.profile.profiledMethods c = false := fun c none => (update_false none).1
  obtain ⟨rest, rest', n₁, n₁', t₁, t₁', run, run', calls, called, counts, times⟩ :=
    unwind_keeps keeps.apart hf time keeps.stack keeps.called found keeps.childCounts
      keeps.childTimes
  refine ⟨_, _, enterMethod_return run, enterMethod_return run', ?_⟩
  constructor
  · exact keeps.apart
  · exact keeps.nilHere
  · rfl
  · exact keeps.known.mark keeps.apart ht
  · exact ⟨keeps.calls.same, fun c none => keeps.calls.absent c ⟨fewer c none.1, none.2⟩,
      keeps.calls.unborn⟩
  · exact keeps.charge hf time
  · exact counts.mono fewer
  · exact times.mono fewer
  · exact calls
  · intro c member
    simp only [Profile.left, Function.update_apply]
    split
    · exact Or.inr rfl
    · exact called c member

theorem step_leave (keeps : Keeps nil nilAddress w q) (time : Int) (hf : w.home f = .at a)
    (ht : w.home t = .at b) (found : a ∈ (w.profile.callStack.map Prod.fst).dropLast) :
    Step (implementation nil nilAddress) (Keeps nil nilAddress) w q (.leave f t time) := by
  obtain ⟨rest, rest', run, run', kept⟩ := keeps.leave time hf ht found
  refine ⟨{ w with profile := w.profile.left a b time rest }, (), ?_, trivial, ?_⟩
  · simp only [implementation, perform_leave hf ht, run, Option.map_some]
  · simp only [implementation, renamed, run', Option.getD_some]
    exact kept

end Entering

section Placing

variable {m : Counts α} {m' : Counts ι} {n : Pairs α} {n' : Pairs ι} {bare bare' : α → Prop}

theorem Single.place (single : Single home bare m m') (places : Places (Here home) (Here home') x b)
    (level : count m b = count m' x) (fewer : ∀ c, bare' c → bare c)
    (still : ∀ y, home' y = .unborn → home y = .unborn) : Single home' bare' m m' :=
  ⟨single.same.place places level, fun c none => single.absent c (fewer c none),
    fun y unborn => single.unborn y (still y unborn)⟩

theorem Known.place {m : α → Bool} {m' : ι → Bool} (known : Known home m m')
    (places : Places (Here home) (Here home') x b) (level : m b = m' x)
    (fewer : ∀ c, Vacant home' c → m c = false)
    (still : ∀ y, home' y = .unborn → home y = .unborn) : Known home' m m' := by
  constructor
  · intro y c hy
    rcases (places.new y c).mp hy with ⟨rfl, rfl⟩ | ⟨_, old⟩
    · exact level
    · exact known.same y c old
  · exact fewer
  · intro y unborn
    exact known.unborn y (still y unborn)

theorem Nested.place (nested : Nested home nilAddress profiled n n')
    (places : Places (Here home) (Here home') x b) (unborn : home x = .unborn)
    (unprofiled : profiled b = false) (off : b ≠ nilAddress) (childless : ∀ k, pair n b k = none)
    (still : ∀ y, home' y = .unborn → home y = .unborn) :
    Nested home' nilAddress profiled n n' := by
  constructor
  · apply nested.same.place places childless (nested.absent b unprofiled off)
    intro y c _
    exact nested.unborn x unborn y
  · exact nested.absent
  · intro y here
    exact nested.unborn y (still y here)

theorem Nested.stay (nested : Nested home nilAddress profiled n n')
    (renames : Renames (Here home) (Here home') x a b)
    (unprofiled : profiled a = false ∧ profiled b = false) (off : a ≠ nilAddress ∧ b ≠ nilAddress)
    (childless : ∀ k, pair n a k = none ∧ pair n b k = none)
    (still : ∀ y, home' y = .unborn → home y = .unborn) :
    Nested home' nilAddress profiled n n' := by
  constructor
  · apply nested.same.stay renames childless
    intro p
    exact ⟨nested.absent a unprofiled.1 off.1 p, nested.absent b unprofiled.2 off.2 p⟩
  · exact nested.absent
  · intro y here
    exact nested.unborn y (still y here)

theorem Calls.rehome {stack : List (α × Int)} {stack' : List (ι × Int)}
    (calls : Calls home stack stack')
    (moved : ∀ c ∈ stack, ∀ y, home y = .at c.1 → home' y = .at c.1) :
    Calls home' stack stack' := by
  induction calls with
  | nil => exact .nil
  | @cons c d cs ds first rest ih =>
    refine .cons ⟨moved c (List.mem_cons_self ..) d.1 first.1, first.2⟩ (ih ?_)
    exact fun e member => moved e (List.mem_cons_of_mem _ member)

section Moving

variable [DecidableEq α]

theorem Known.move {m : α → Bool} {m' : ι → Bool} (known : Known home m m')
    (apart : Injective home) (renames : Renames (Here home) (Here home') x a b)
    (some : m a = true) (fewer : ∀ c, Vacant home' c → c ≠ b ∧ (c ≠ a → Vacant home c))
    (still : ∀ y, home' y = .unborn → home y = .unborn) :
    Known home' (Function.update (Function.update m a false) b true) m' := by
  constructor
  · intro y c hy
    rcases (renames.new y c).mp hy with ⟨rfl, rfl⟩ | ⟨away, old⟩
    · rw [Function.update_self, ← some]
      exact known.same y a renames.old
    · obtain ⟨new, gone⟩ := renames.other (naming apart) away old
      rw [Function.update_of_ne new, Function.update_of_ne gone]
      exact known.same y c old
  · intro c empty
    obtain ⟨new, old⟩ := fewer c empty
    rw [Function.update_of_ne new, Function.update_apply]
    split
    · rfl
    · rename_i gone
      exact known.vacant c (old gone)
  · intro y unborn
    exact known.unborn y (still y unborn)

theorem Nested.move (nested : Nested home nilAddress profiled n n') (apart : Injective home)
    (renames : Renames (Here home) (Here home') x a b) (vacant : profiled b = false)
    (off : b ≠ nilAddress) (childless : ∀ k, pair n a k = none ∧ pair n b k = none)
    (still : ∀ y, home' y = .unborn → home y = .unborn) :
    Nested home' nilAddress
      (Function.update (Function.update profiled a false) b true) (movePair n a b) n' := by
  have free := nested.absent b vacant off
  constructor
  · exact nested.same.move (naming apart) renames free (fun k => (childless k).1)
      (fun k => (childless k).2)
  · intro c none away p
    obtain ⟨none, new⟩ := update_false none
    rw [pair_movePair n renames.ne (free p), if_neg new]
    by_cases old : c = a
    · rw [if_pos old]
    · rw [if_neg old]
      rw [Function.update_of_ne old] at none
      exact nested.absent c none away p
  · intro y unborn
    exact nested.unborn y (still y unborn)

end Moving

variable {w : World ι α} {q : Profile ι}

theorem Keeps.free (keeps : Keeps nil nilAddress w q) (vacant : Vacant w.home b) :
    w.profile.profiledMethods b = false ∧ b ≠ nilAddress :=
  ⟨keeps.known.vacant b vacant, Ne.symm (vacant.ne keeps.nilHere)⟩

theorem keeps_start (time : Int) (apart : Injective w.home) (nilHere : w.home nil = .at nilAddress)
    (started : w.profile = start time) : Keeps nil nilAddress w (start time) := by
  have single : ∀ bare, Single w.home bare (fun _ => none) (fun _ => none) := fun bare =>
    ⟨fun _ _ _ => rfl, fun _ _ => rfl, fun _ _ => rfl⟩
  have nested : Nested w.home nilAddress w.profile.profiledMethods (fun _ => none)
      (fun _ => none) :=
    ⟨fun _ _ _ _ _ _ => rfl, fun _ _ _ _ => rfl, fun _ _ _ => ⟨rfl, rfl⟩⟩
  constructor
  · exact apart
  · exact nilHere
  · rw [started]
    rfl
  · rw [started]
    exact ⟨fun _ _ _ => rfl, fun _ _ => rfl, fun _ _ => rfl⟩
  · rw [started]
    exact single _
  · rw [started]
    exact single _
  · rw [started] at nested ⊢
    exact nested
  · rw [started] at nested ⊢
    exact nested
  · rw [started]
    exact .nil
  · rw [started]
    intro c member
    cases member

variable [DecidableEq ι]

theorem places (vacant : Vacant home b) :
    Places (Here home) (Here (Function.update home x (.at b))) x b := by
  constructor
  · exact vacant
  · intro y c
    unfold Here
    rw [Function.update_apply]
    by_cases same : y = x
    · rw [if_pos same]
      constructor
      · intro here
        exact Or.inl ⟨same, (Home.at.inj here).symm⟩
      · rintro (⟨_, rfl⟩ | ⟨off, _⟩)
        · rfl
        · exact absurd same off
    · rw [if_neg same]
      constructor
      · exact fun here => Or.inr ⟨same, here⟩
      · rintro (⟨rfl, _⟩ | ⟨_, here⟩)
        · exact absurd rfl same
        · exact here

theorem renames (here : home x = .at a) (vacant : Vacant home b) :
    Renames (Here home) (Here (Function.update home x (.at b))) x a b :=
  ⟨places vacant, here⟩

theorem still_unborn {y : ι} {place : Home α} (born : place ≠ .unborn)
    (unborn : Function.update home x place y = .unborn) : home y = .unborn := by
  rw [Function.update_apply] at unborn
  by_cases same : y = x
  · rw [if_pos same] at unborn
    exact absurd unborn born
  · rwa [if_neg same] at unborn

theorem vacant_before {place : Home α} {c : α} (vacant : Vacant (Function.update home x place) c)
    (off : home x ≠ .at c) : Vacant home c := by
  intro y here
  have other : y ≠ x := by
    rintro rfl
    exact off here
  apply vacant y
  rwa [Function.update_of_ne other]

variable [DecidableEq α]

theorem step_allocate (keeps : Keeps nil nilAddress w q) (unborn : w.home x = .unborn)
    (vacant : Vacant w.home b) (childless : Childless w.profile b) :
    Step (implementation nil nilAddress) (Keeps nil nilAddress) w q (.allocate x b) := by
  have placed := places (x := x) vacant
  have free := keeps.free vacant
  have still : ∀ y, Function.update w.home x (.at b) y = .unborn → w.home y = .unborn :=
    fun y => still_unborn (Home.at_born b)
  have fewer : ∀ c, Vacant (Function.update w.home x (.at b)) c → Vacant w.home c := by
    intro c none
    apply vacant_before none
    rw [unborn]
    exact Ne.symm (Home.at_born c)
  refine ⟨{ w with home := Function.update w.home x (.at b) }, (), rfl, trivial, ?_⟩
  constructor
  · exact injective ((naming keeps.apart).places placed)
  · have other : nil ≠ x := by
      rintro rfl
      have here := keeps.nilHere
      rw [unborn] at here
      cases here
    simp only [Function.update_of_ne other]
    exact keeps.nilHere
  · exact keeps.level
  · exact keeps.known.place placed (free.1.trans (keeps.known.unborn x unborn).symm)
      (fun c none => keeps.known.vacant c (fewer c none)) still
  · exact keeps.calls.place placed
      ((keeps.calls.absent b free).trans (keeps.calls.unborn x unborn).symm) (fun _ none => none)
      still
  · exact keeps.self.place placed
      ((keeps.self.absent b vacant).trans (keeps.self.unborn x unborn).symm) fewer still
  · exact keeps.childCounts.place placed unborn free.1 free.2 (fun k => (childless k).1) still
  · exact keeps.childTimes.place placed unborn free.1 free.2 (fun k => (childless k).2) still
  · apply keeps.stack.rehome
    intro c _ y here
    simp only [Function.update_of_ne (Ne.symm (unborn_ne unborn here))]
    exact here
  · exact keeps.called

theorem Keeps.forward_unprofiled (keeps : Keeps nil nilAddress w q) (here : w.home x = .at a)
    (vacant : Vacant w.home b) (off : a ≠ nilAddress)
    (none : w.profile.profiledMethods a = false) (timeless : count w.profile.selfTime a = 0)
    (leaf : Childless w.profile a) (target : Childless w.profile b) :
    Keeps nil nilAddress { w with home := Function.update w.home x (.at b) } q := by
  have moved := renames here vacant
  have free := keeps.free vacant
  have still : ∀ y, Function.update w.home x (.at b) y = .unborn → w.home y = .unborn :=
    fun y => still_unborn (Home.at_born b)
  have fewer : ∀ c, Vacant (Function.update w.home x (.at b)) c → c = a ∨ Vacant w.home c := by
    intro c empty
    by_cases old : c = a
    · exact Or.inl old
    · apply Or.inr
      apply vacant_before empty
      rw [here]
      exact fun same => old (Home.at.inj same).symm
  have other : nil ≠ x := by
    rintro rfl
    exact off (Home.at.inj (here.symm.trans keeps.nilHere))
  constructor
  · exact injective ((naming keeps.apart).places moved.toPlaces)
  · simp only [Function.update_of_ne other]
    exact keeps.nilHere
  · exact keeps.level
  · apply keeps.known.place moved.toPlaces
    · rw [free.1, ← none]
      exact keeps.known.same x a here
    · intro c empty
      rcases fewer c empty with rfl | old
      · exact none
      · exact keeps.known.vacant c old
    · exact still
  · apply keeps.calls.place moved.toPlaces
    · rw [keeps.calls.absent b free, ← keeps.calls.absent a ⟨none, off⟩]
      exact keeps.calls.same x a here
    · exact fun _ bare => bare
    · exact still
  · refine ⟨keeps.self.same.place moved.toPlaces ?_, ?_, fun y unborn =>
      keeps.self.unborn y (still y unborn)⟩
    · rw [keeps.self.absent b vacant, ← timeless]
      exact keeps.self.same x a here
    · intro c empty
      rcases fewer c empty with rfl | old
      · exact timeless
      · exact keeps.self.absent c old
  · exact keeps.childCounts.stay moved ⟨none, free.1⟩ ⟨off, free.2⟩
      (fun k => ⟨(leaf k).1, (target k).1⟩) still
  · exact keeps.childTimes.stay moved ⟨none, free.1⟩ ⟨off, free.2⟩
      (fun k => ⟨(leaf k).2, (target k).2⟩) still
  · apply keeps.stack.rehome
    intro c member y there
    have apart : y ≠ x := by
      rintro rfl
      have same : c.1 = a := Home.at.inj (there.symm.trans here)
      rcases keeps.called c member with gone | some
      · exact off (same ▸ gone)
      · rw [same, none] at some
        cases some
    simp only [Function.update_of_ne apart]
    exact there
  · exact keeps.called

theorem Calls.move {stack : List (α × Int)} {stack' : List (ι × Int)} (apart : Injective home)
    (here : home x = .at a) (calls : Calls home stack stack') :
    Calls (Function.update home x (.at b)) (replaced a b stack) stack' := by
  induction calls with
  | nil => exact .nil
  | @cons c d cs ds first rest ih =>
    refine .cons ⟨?_, first.2⟩ ih
    simp only [Function.update_apply, (naming apart).eq_iff here first.1]
    by_cases same : d.1 = x
    · rw [if_pos same, if_pos same]
    · rw [if_neg same, if_neg same]
      exact first.1

theorem Keeps.forward (keeps : Keeps nil nilAddress w q) (here : w.home x = .at a)
    (vacant : Vacant w.home b) (off : a ≠ nilAddress)
    (some : w.profile.profiledMethods a = true)
    (leaf : Childless w.profile a) (target : Childless w.profile b) :
    Keeps nil nilAddress ⟨Function.update w.home x (.at b),
      noticeForwardedObject w.profile a b⟩ q := by
  have moved := renames here vacant
  have free := keeps.free vacant
  have still : ∀ y, Function.update w.home x (.at b) y = .unborn → w.home y = .unborn :=
    fun y => still_unborn (Home.at_born b)
  have fewer : ∀ c, Vacant (Function.update w.home x (.at b)) c →
      c ≠ b ∧ (c ≠ a → Vacant w.home c) := by
    intro c empty
    constructor
    · rintro rfl
      exact empty x (Function.update_self ..)
    · intro old
      apply vacant_before empty
      rw [here]
      exact fun same => old (Home.at.inj same).symm
  have other : nil ≠ x := by
    rintro rfl
    exact off (Home.at.inj (here.symm.trans keeps.nilHere))
  have childless : ∀ k, pair w.profile.childCallCount a k = none ∧
      pair w.profile.childCallCount b k = none := fun k => ⟨(leaf k).1, (target k).1⟩
  have timeless : ∀ k, pair w.profile.childCallTime a k = none ∧
      pair w.profile.childCallTime b k = none := fun k => ⟨(leaf k).2, (target k).2⟩
  simp only [noticeForwardedObject, some, if_true]
  constructor
  · exact injective ((naming keeps.apart).places moved.toPlaces)
  · simp only [Function.update_of_ne other]
    exact keeps.nilHere
  · exact keeps.level
  · exact keeps.known.move keeps.apart moved some (fun c empty => (fewer c empty)) still
  · refine ⟨keeps.calls.same.move (naming keeps.apart) moved, ?_, fun y unborn =>
      keeps.calls.unborn y (still y unborn)⟩
    rintro c ⟨none, away⟩
    obtain ⟨none, new⟩ := update_false none
    rw [count_move _ moved.ne, if_neg new]
    by_cases old : c = a
    · rw [if_pos old]
    · rw [if_neg old]
      rw [Function.update_of_ne old] at none
      exact keeps.calls.absent c ⟨none, away⟩
  · refine ⟨keeps.self.same.move (naming keeps.apart) moved, ?_, fun y unborn =>
      keeps.self.unborn y (still y unborn)⟩
    intro c empty
    obtain ⟨new, old⟩ := fewer c empty
    rw [count_move _ moved.ne, if_neg new]
    by_cases gone : c = a
    · rw [if_pos gone]
    · rw [if_neg gone]
      exact keeps.self.absent c (old gone)
  · exact keeps.childCounts.move keeps.apart moved free.1 free.2 childless still
  · exact keeps.childTimes.move keeps.apart moved free.1 free.2 timeless still
  · exact keeps.stack.move keeps.apart here
  · intro c member
    obtain ⟨e, listed, rfl⟩ := List.mem_map.mp member
    by_cases same : e.1 = a
    · simp only [if_pos same, Function.update_self]
      exact Or.inr trivial
    · simp only [if_neg same, Function.update_apply]
      rcases keeps.called e listed with gone | held
      · exact Or.inl gone
      · refine Or.inr ?_
        split
        · rfl
        · exact held

theorem step_forward (keeps : Keeps nil nilAddress w q) (off : x ≠ nil) (here : w.home x = .at a)
    (vacant : Vacant w.home b) (leaf : Childless w.profile a) (target : Childless w.profile b)
    (known : w.profile.profiledMethods a = true ∨ count w.profile.selfTime a = 0) :
    Step (implementation nil nilAddress) (Keeps nil nilAddress) w q (.forward x b) := by
  have away : a ≠ nilAddress := by
    rintro rfl
    exact off (keeps.apart x nil a here keeps.nilHere)
  refine ⟨⟨Function.update w.home x (.at b), noticeForwardedObject w.profile a b⟩, (), ?_, trivial,
    ?_⟩
  · simp only [implementation, perform, World.address, here, Option.bind_eq_bind, Option.bind_some,
      Option.map_some]
  · cases some : w.profile.profiledMethods a with
    | true => exact keeps.forward here vacant away some leaf target
    | false =>
      have timeless : count w.profile.selfTime a = 0 := by
        rcases known with held | none
        · rw [some] at held
          cases held
        · exact none
      simp only [noticeForwardedObject, some, Bool.false_eq_true, if_false]
      exact keeps.forward_unprofiled here vacant away some timeless leaf target

theorem Nested.delete (nested : Nested home nilAddress profiled n n') (apart : Injective home)
    (here : home x = .at a) (fewer : ∀ y c, Here home' y c → Here home y c)
    (still : ∀ y, home' y = .unborn → home y = .unborn) :
    Nested home' nilAddress (Function.update profiled a false) (erasePair n a)
      (erasePair n' x) := by
  constructor
  · exact nested.same.erase (naming apart) here fewer
  · intro c none away p
    rw [pair_erasePair]
    by_cases same : c = a
    · rw [if_pos same]
    · rw [if_neg same]
      rw [Function.update_of_ne same] at none
      exact nested.absent c none away p
  · intro y unborn z
    obtain ⟨first, second⟩ := nested.unborn y (still y unborn) z
    rw [pair_erasePair, pair_erasePair]
    constructor
    · split
      · rfl
      · exact first
    · split
      · rfl
      · exact second

theorem Calls.delete {stack : List (α × Int)} {stack' : List (ι × Int)} (apart : Injective home)
    (here : home x = .at a) (nilHere : home nil = .at nilAddress) (off : nil ≠ x)
    (calls : Calls home stack stack') :
    Calls (Function.update home x .dead) (replaced a nilAddress stack)
      (replaced x nil stack') := by
  induction calls with
  | nil => exact .nil
  | @cons c d cs ds first rest ih =>
    refine .cons ⟨?_, first.2⟩ ih
    simp only [(naming apart).eq_iff here first.1]
    by_cases same : d.1 = x
    · rw [if_pos same, if_pos same, Function.update_of_ne off]
      exact nilHere
    · rw [if_neg same, if_neg same, Function.update_of_ne same]
      exact first.1

theorem Keeps.delete (keeps : Keeps nil nilAddress w q) (off : x ≠ nil) (here : w.home x = .at a) :
    Keeps nil nilAddress ⟨Function.update w.home x .dead, deleteMethod nilAddress w.profile a⟩
      (deleteMethod nil q x) := by
  have there : ∀ y c, Here (Function.update w.home x .dead) y c → y ≠ x ∧ Here w.home y c := by
    intro y c hy
    unfold Here at hy
    rw [Function.update_apply] at hy
    by_cases same : y = x
    · rw [if_pos same] at hy
      cases hy
    · rw [if_neg same] at hy
      exact ⟨same, hy⟩
  have fewer : ∀ y c, Here (Function.update w.home x .dead) y c → Here w.home y c :=
    fun y c hy => (there y c hy).2
  have still : ∀ y, Function.update w.home x .dead y = .unborn → w.home y = .unborn :=
    fun y => still_unborn Home.dead_born
  have empty : ∀ c, Vacant (Function.update w.home x .dead) c → c ≠ a → Vacant w.home c := by
    intro c vacant old
    apply vacant_before vacant
    rw [here]
    exact fun same => old (Home.at.inj same).symm
  constructor
  · intro y z c hy hz
    exact keeps.apart y z c (fewer y c hy) (fewer z c hz)
  · simp only [Function.update_of_ne (Ne.symm off)]
    exact keeps.nilHere
  · exact keeps.level
  · constructor
    · intro y c hy
      simp only [deleteMethod, Function.update_apply,
        (naming keeps.apart).eq_iff here (fewer y c hy), keeps.known.same y c (fewer y c hy)]
    · intro c vacant
      simp only [deleteMethod, Function.update_apply]
      split
      · rfl
      · rename_i old
        exact keeps.known.vacant c (empty c vacant old)
    · intro y unborn
      simp only [deleteMethod, Function.update_apply]
      split
      · rfl
      · exact keeps.known.unborn y (still y unborn)
  · refine ⟨keeps.calls.same.erase (naming keeps.apart) here fewer, ?_, ?_⟩
    · rintro c ⟨none, away⟩
      simp only [deleteMethod, count_erase]
      by_cases same : c = a
      · rw [if_pos same]
      · rw [if_neg same]
        simp only [deleteMethod, Function.update_of_ne same] at none
        exact keeps.calls.absent c ⟨none, away⟩
    · intro y unborn
      simp only [deleteMethod, count_erase]
      split
      · rfl
      · exact keeps.calls.unborn y (still y unborn)
  · refine ⟨keeps.self.same.erase (naming keeps.apart) here fewer, ?_, ?_⟩
    · intro c vacant
      simp only [deleteMethod, count_erase]
      by_cases same : c = a
      · rw [if_pos same]
      · rw [if_neg same]
        exact keeps.self.absent c (empty c vacant same)
    · intro y unborn
      simp only [deleteMethod, count_erase]
      split
      · rfl
      · exact keeps.self.unborn y (still y unborn)
  · exact keeps.childCounts.delete keeps.apart here fewer still
  · exact keeps.childTimes.delete keeps.apart here fewer still
  · exact keeps.stack.delete keeps.apart here keeps.nilHere (Ne.symm off)
  · intro c member
    obtain ⟨e, listed, rfl⟩ := List.mem_map.mp member
    by_cases same : e.1 = a
    · simp only [if_pos same]
      exact Or.inl trivial
    · simp only [if_neg same, deleteMethod, Function.update_of_ne same]
      exact keeps.called e listed

theorem step_delete (keeps : Keeps nil nilAddress w q) (off : x ≠ nil) (here : w.home x = .at a) :
    Step (implementation nil nilAddress) (Keeps nil nilAddress) w q (.delete x) := by
  refine ⟨⟨Function.update w.home x .dead, deleteMethod nilAddress w.profile a⟩, (), ?_, trivial,
    keeps.delete off here⟩
  simp only [implementation, perform, World.address, here, Option.bind_eq_bind, Option.bind_some,
    Option.map_some]

/-- In every run whose steps spare the defects the statistics are those of the objects, wherever
they are, and no return pops an empty stack. -/
theorem profile_refines (nil : ι) (nilAddress : α) :
    Refines (implementation nil nilAddress) (fun w e => Possible nil w e ∧ Spares w e) Shows := by
  apply Refines.of_steps (Keeps nil nilAddress)
  · rintro w q ⟨time, started, rfl, apart, nilHere⟩
    exact keeps_start time apart nilHere started
  · rintro w q e keeps ⟨possible, spares⟩
    cases e with
    | enter f t time =>
      obtain ⟨⟨a, hf⟩, b, ht⟩ := possible
      exact step_enter keeps time hf ht
    | leave f t time =>
      obtain ⟨⟨a, hf⟩, b, ht⟩ := possible
      exact step_leave keeps time hf ht (spares a hf)
    | allocate x b => exact step_allocate keeps possible.1 possible.2 spares
    | forward x b =>
      obtain ⟨off, ⟨a, here⟩, vacant⟩ := possible
      obtain ⟨leaf, known⟩ := spares.2 a here
      exact step_forward keeps off here vacant leaf spares.1 known
    | delete x =>
      obtain ⟨off, a, here⟩ := possible
      exact step_delete keeps off here
  · exact fun w q keeps => keeps.shows

/-- A return while nothing has been entered pops an empty stack. -/
example : enterMethod (start 0) 1 2 5 false = none := rfl

def threeMethods : World Nat Nat := ⟨fun x => if x < 4 then .at x else .unborn, start 0⟩

theorem injective_below (n : Nat) :
    Injective fun x => if x < n then Home.at x else Home.unborn := by
  intro x y a hx hy
  by_cases low : x < n
  · by_cases low' : y < n
    · simp only [if_pos low] at hx
      simp only [if_pos low'] at hy
      exact (Home.at.inj hx).trans (Home.at.inj hy).symm
    · simp only [if_neg low'] at hy
      cases hy
  · simp only [if_neg low] at hx
    cases hx

/-- A method calls another, gets the control back and is moved; its call is then recorded for
nothing. -/
theorem moved_parent_forgotten : ¬ ∀ (ι α : Type) [DecidableEq ι] [DecidableEq α] (nil : ι)
    (nilAddress : α), Refines (implementation nil nilAddress) (Possible nil) Shows := by
  intro refines
  have begins : Reached (implementation 0 0) (Possible 0) threeMethods (start 0) :=
    .start ⟨0, rfl, rfl, injective_below 4, rfl⟩
  have called := begins.step (o := .enter 3 1 1) (by exact ⟨⟨3, rfl⟩, 1, rfl⟩) rfl
  have nested := called.step (o := .enter 1 2 2) (by exact ⟨⟨1, rfl⟩, 2, rfl⟩) rfl
  have returned := nested.step (o := .leave 2 1 3) (by exact ⟨⟨2, rfl⟩, 1, rfl⟩) rfl
  have vacant : ∀ y, threeMethods.home y ≠ .at 9 := by
    intro y here
    simp only [threeMethods] at here
    split at here
    · cases here
      omega
    · cases here
  have moved := returned.step (o := .forward 1 9) (by exact ⟨by decide, ⟨1, rfl⟩, vacant⟩) rfl
  have shown := (refines Nat Nat 0 0 _ _ moved).1.childCounts 1 9 2 2 rfl rfl
  revert shown
  decide

end Placing

end Invariant

end SlateVm.Profiler
