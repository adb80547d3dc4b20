import SlateVm.Maps.RoleTable
import Mathlib.Logic.Relation

/-! The dispatch of a message to a method definition: the marks it makes on maps and definitions,
the walk along the delegates of each argument, and the roles met on the way. -/

namespace SlateVm.Dispatch
open Maps Slots Probing

/-- A small integer has no header and is looked up in its prototype. -/
inductive Oop (ω : Type) where
  | small (value : Int)
  | object (o : ω)
  deriving DecidableEq

structure Map (ω σ δ : Type) where
  delegates : List (Oop ω)
  restrictDelegation : Bool
  roleTable : RoleTable σ δ

structure Definition (κ : Type) where
  method : κ
  isAccessor : Bool
  dispatchPositions : Nat

structure World (ω μ σ δ κ : Type) where
  mapOf : ω → μ
  map : μ → Map ω σ δ
  definition : δ → Definition κ
  idHash : σ → Nat
  smallIntProto : ω
  nil : ω

/-- What keeps a dispatch from an answer: a write past the delegation stack, or an assertion. -/
inductive Halt where
  | stackOverflow
  | tooDeep
  deriving DecidableEq

def delegationStackSize : Nat := 256

section Walk

variable {ω μ σ δ κ : Type} [DecidableEq ω] [DecidableEq μ] [DecidableEq σ]
  (w : World ω μ σ δ κ)

def World.target : Oop ω → ω
  | .small _ => w.smallIntProto
  | .object o => o

def World.mapAt (o : ω) : Map ω σ δ := w.map (w.mapOf o)

def rolesNamed (roles : RoleTable σ δ) (name : σ) : List (RoleEntry σ δ) :=
  match entryForName w.idHash Maps.RoleEntry.name roles name with
  | none => []
  | some first => (trail (nextRole roles) roles.length first).filterMap (stored roles)

def restrictedAt (m : Map ω σ δ) (first arg : Oop ω) (stack : List (Oop ω))
    (restricted : Option Nat) : Option Nat :=
  if m.restrictDelegation && decide (arg ≠ first) then some stack.length else restricted

/-- The stack, its top first. `none` stands for the largest word. -/
def pushDelegates (m : Map ω σ δ) (stack : List (Oop ω)) (restricted : Option Nat) :
    List (Oop ω) :=
  if restricted.all fun r => decide (stack.length ≤ r) then
    (m.delegates.filter fun d => decide (d ≠ .object w.nil)).reverse ++ stack
  else stack

def unrestrict (restricted : Option Nat) (delegationCount : Nat) : Option Nat :=
  restricted.filter fun r => decide (r ≤ delegationCount)

/-- The objects at which a walk looks at roles, in their order: the first one of each map. The
number of those before an object is its depth. -/
def walk (first : Oop ω) : Nat → List ω → Oop ω → List (Oop ω) → Option Nat →
    Option (Except Halt (List ω))
  | 0, _, _, _, _ => none
  | fuel + 1, visited, arg, stack, restricted =>
    let obj := w.target arg
    if visited.any fun o => decide (w.mapOf o = w.mapOf obj) then
      match stack with
      | [] => some (.ok visited)
      | top :: stack => walk first fuel visited top stack (unrestrict restricted stack.length)
    else
      let restricted := restrictedAt (w.mapAt obj) first arg stack restricted
      if 31 < visited.length then some (.error .tooDeep)
      else
        let stack := pushDelegates w (w.mapAt obj) stack restricted
        if delegationStackSize < stack.length then some (.error .stackOverflow)
        else
          match stack with
          | [] => some (.ok (visited ++ [obj]))
          | top :: stack =>
            walk first fuel (visited ++ [obj]) top stack (unrestrict restricted stack.length)

/-- No walk goes on longer: it ends within 33 objects of different maps, and each of them leaves
no more than a full stack. -/
def walkLimit : Nat := 33 * (delegationStackSize + 1) + 1

def order (arg : Oop ω) : Option (Except Halt (List ω)) := walk w arg walkLimit [] arg [] none

end Walk

section Marks

structure MapMark where
  dispatchID : Nat
  visitedPositions : Nat

structure DefinitionMark where
  dispatchID : Nat
  foundPositions : Nat
  dispatchRank : Nat

/-- What dispatches leave behind on maps and definitions, and the number of the last one. -/
structure Marks (μ δ : Type) where
  current : Nat
  maps : μ → MapMark
  definitions : δ → DefinitionMark

variable {μ δ : Type} [DecidableEq μ] [DecidableEq δ]

namespace Marks

def visitedPositions (marks : Marks μ δ) (m : μ) : Nat :=
  if (marks.maps m).dispatchID = marks.current then (marks.maps m).visitedPositions else 0

def foundPositions (marks : Marks μ δ) (d : δ) : Nat :=
  if (marks.definitions d).dispatchID = marks.current then (marks.definitions d).foundPositions
  else 0

def dispatchRank (marks : Marks μ δ) (d : δ) : Nat :=
  if (marks.definitions d).dispatchID = marks.current then (marks.definitions d).dispatchRank
  else 0

def visit (marks : Marks μ δ) (m : μ) (i : Nat) : Marks μ δ :=
  { marks with
    maps := Function.update marks.maps m ⟨marks.current, marks.visitedPositions m ||| 1 <<< i⟩ }

def find (marks : Marks μ δ) (d : δ) (i depth : Nat) : Marks μ δ :=
  { marks with
    definitions := Function.update marks.definitions d
      ⟨marks.current, marks.foundPositions d ||| 1 <<< i,
        marks.dispatchRank d ||| (31 - depth) <<< ((5 - i) * 5)⟩ }

end Marks

end Marks

structure Search (ω μ δ : Type) where
  marks : Marks μ δ
  dispatch : Option δ
  slotLocation : Option ω
  bestRank : Nat
  bestDef : Option δ
  resendRank : Nat

section Dispatch

variable {ω μ σ δ κ : Type} [DecidableEq ω] [DecidableEq μ] [DecidableEq σ] [DecidableEq δ]
  [DecidableEq κ] (w : World ω μ σ δ κ)

namespace Search

def choose (s : Search ω μ δ) (obj : ω) (d : δ) (rank : Nat) : Search ω μ δ :=
  let s := { s with dispatch := some d, slotLocation := some obj }
  if s.bestRank < rank then { s with bestRank := rank, bestDef := some d } else s

/-- A role before the resent one. Its definition's marks are read as they stand, those of another
dispatch as well. -/
def rescan (s : Search ω μ δ) (obj : ω) (role : RoleEntry σ δ) : Search ω μ δ :=
  let redef := role.methodDefinition
  let mark := s.marks.definitions redef
  if mark.foundPositions = (w.definition redef).dispatchPositions ∧
      (s.dispatch = none ∨ mark.dispatchRank ≤ s.resendRank) then
    s.choose obj redef mark.dispatchRank
  else s

def chosenRank (s : Search ω μ δ) : Option Nat :=
  s.dispatch.map fun d => (s.marks.definitions d).dispatchRank

def consider (s : Search ω μ δ) (obj : ω) (before : List (RoleEntry σ δ)) (d : δ)
    (resendMethod : Option κ) : Search ω μ δ :=
  let rank := s.marks.dispatchRank d
  let s :=
    if some (w.definition d).method = resendMethod then
      before.foldl (fun s role => s.rescan w obj role) { s with resendRank := rank }
    else if s.marks.foundPositions d = (w.definition d).dispatchPositions ∧
        (s.chosenRank.all fun chosen => decide (chosen < rank)) = true ∧ rank ≤ s.resendRank then
      s.choose obj d rank
    else s
  if s.bestRank ≤ rank ∧ s.bestDef ≠ some d then { s with bestRank := rank, bestDef := none }
  else s

def meet (s : Search ω μ δ) (i depth : Nat) (obj : ω) (before : List (RoleEntry σ δ))
    (role : RoleEntry σ δ) (resendMethod : Option κ) : Search ω μ δ :=
  let d := role.methodDefinition
  if role.rolePositions.testBit i ∧ (s.marks.foundPositions d).testBit i = false then
    ({ s with marks := s.marks.find d i depth }).consider w obj before d resendMethod
  else s

/-- The loop over the chain of roles; `before` are those already met. -/
def meetAll (i depth : Nat) (obj : ω) (resendMethod : Option κ) :
    List (RoleEntry σ δ) → List (RoleEntry σ δ) → Search ω μ δ → Search ω μ δ
  | _, [], s => s
  | before, role :: roles, s =>
    meetAll i depth obj resendMethod (before ++ [role]) roles
      (s.meet w i depth obj before role resendMethod)

def look (s : Search ω μ δ) (name : σ) (i depth : Nat) (obj : ω) (resendMethod : Option κ) :
    Search ω μ δ :=
  meetAll w i depth obj resendMethod [] (rolesNamed w (w.mapAt obj).roleTable name)
    { s with marks := s.marks.visit (w.mapOf obj) i }

def settled (s : Search ω μ δ) : Bool := s.dispatch.isSome && decide (s.bestDef = s.dispatch)

end Search

/-- The walk for the position `i`, and whether it returned from the whole dispatch. -/
def searchPosition (name : σ) (resendMethod : Option κ) (i : Nat) (first : Oop ω) :
    Nat → Nat → Oop ω → List (Oop ω) → Option Nat → Search ω μ δ →
      Option (Except Halt (Bool × Search ω μ δ))
  | 0, _, _, _, _, _ => none
  | fuel + 1, depth, arg, stack, restricted, s =>
    let obj := w.target arg
    if (s.marks.visitedPositions (w.mapOf obj)).testBit i then
      match stack with
      | [] => some (.ok (false, s))
      | top :: stack =>
        searchPosition name resendMethod i first fuel depth top stack
          (unrestrict restricted stack.length) s
    else
      let restricted := restrictedAt (w.mapAt obj) first arg stack restricted
      let s := s.look w name i depth obj resendMethod
      if 31 < depth then some (.error .tooDeep)
      else if s.settled then some (.ok (true, s))
      else
        let stack := pushDelegates w (w.mapAt obj) stack restricted
        if delegationStackSize < stack.length then some (.error .stackOverflow)
        else
          match stack with
          | [] => some (.ok (false, s))
          | top :: stack =>
            searchPosition name resendMethod i first fuel (depth + 1) top stack
              (unrestrict restricted stack.length) s

def searchAll (name : σ) (resendMethod : Option κ) :
    Nat → List (Oop ω) → Search ω μ δ → Option (Except Halt (Bool × Search ω μ δ))
  | _, [], s => some (.ok (false, s))
  | i, arg :: arguments, s =>
    match searchPosition w name resendMethod i arg walkLimit 0 arg [] none s with
    | none => none
    | some (.error halt) => some (.error halt)
    | some (.ok (true, s)) => some (.ok (true, s))
    | some (.ok (false, s)) => searchAll name resendMethod (i + 1) arguments s

def wordMax : Nat := 2 ^ 63 - 1

def startSearch (marks : Marks μ δ) (resend : Bool) : Search ω μ δ where
  marks := { marks with current := marks.current + 1 }
  dispatch := none
  slotLocation := none
  bestRank := 0
  bestDef := none
  resendRank := if resend then 0 else wordMax

/-- The definition found, and the arguments: an accessor gets the object that has the slot. -/
structure Found (ω δ : Type) where
  definition : Option δ
  arguments : List (Oop ω)

def Search.found (s : Search ω μ δ) (arguments : List (Oop ω)) : Found ω δ where
  definition := s.dispatch
  arguments :=
    match s.dispatch, s.slotLocation with
    | some d, some obj =>
      if (w.definition d).isAccessor then arguments.set 0 (.object obj) else arguments
    | _, _ => arguments

/-- `method_dispatch_on` without the method cache. -/
def methodDispatchOn (marks : Marks μ δ) (name : σ) (arguments : List (Oop ω))
    (resendMethod : Option κ) : Option (Except Halt (Marks μ δ × Found ω δ)) :=
  match searchAll w name resendMethod 0 arguments (startSearch marks resendMethod.isSome) with
  | none => none
  | some (.error halt) => some (.error halt)
  | some (.ok (_, s)) => some (.ok (s.marks, s.found w arguments))

end Dispatch

section Ends

variable {ω : Type}

def left (depth : Nat) (stack : List (Oop ω)) : Nat :=
  (33 - depth) * (delegationStackSize + 1) + stack.length

theorem left_pop (depth : Nat) (top : Oop ω) (stack : List (Oop ω)) :
    left depth stack < left depth (top :: stack) := by
  simp only [left, List.length_cons]
  omega

theorem left_look {depth : Nat} (shallow : depth ≤ 31) (before : List (Oop ω)) {top : Oop ω}
    {stack : List (Oop ω)} (room : (top :: stack).length ≤ delegationStackSize) :
    left (depth + 1) stack < left depth before := by
  have one : 33 - depth = 33 - (depth + 1) + 1 := by omega
  simp only [left, one, Nat.succ_mul]
  simp only [List.length_cons] at room
  omega

variable {μ σ δ κ : Type} [DecidableEq ω] [DecidableEq μ] [DecidableEq σ] [DecidableEq δ]
  [DecidableEq κ] (w : World ω μ σ δ κ)

theorem searchPosition_ends (name : σ) (resendMethod : Option κ) (i : Nat) (first : Oop ω)
    {fuel depth : Nat} (arg : Oop ω) {stack : List (Oop ω)} (restricted : Option Nat)
    (s : Search ω μ δ) (enough : left depth stack < fuel) :
    searchPosition w name resendMethod i first fuel depth arg stack restricted s ≠ none := by
  induction fuel generalizing depth arg stack restricted s with
  | zero => omega
  | succ fuel ih =>
    unfold searchPosition
    dsimp only
    split
    · cases stack with
      | nil => exact Option.some_ne_none _
      | cons top stack =>
        have less := left_pop depth top stack
        exact ih top _ s (by omega)
    · split
      · exact Option.some_ne_none _
      · rename_i deep
        split
        · exact Option.some_ne_none _
        · split
          · exact Option.some_ne_none _
          · rename_i room
            split
            · exact Option.some_ne_none _
            · rename_i top rest pushed
              rw [pushed, not_lt] at room
              have less := left_look (by omega : depth ≤ 31) stack room
              exact ih top _ _ (by omega)

theorem searchAll_ends (name : σ) (resendMethod : Option κ) (i : Nat)
    (arguments : List (Oop ω)) (s : Search ω μ δ) :
    searchAll w name resendMethod i arguments s ≠ none := by
  induction arguments generalizing i s with
  | nil => exact Option.some_ne_none _
  | cons arg arguments ih =>
    have ends : searchPosition w name resendMethod i arg walkLimit 0 arg [] none s ≠ none :=
      searchPosition_ends w name resendMethod i arg arg none s (Nat.lt_succ_self _)
    unfold searchAll
    split
    · exact absurd ‹_› ends
    · exact Option.some_ne_none _
    · exact Option.some_ne_none _
    · exact ih (i + 1) _

end Ends

section Extends

variable {ω μ σ δ κ : Type} [DecidableEq ω] [DecidableEq μ] {w : World ω μ σ δ κ}

theorem walk_extends {first : Oop ω} {fuel : Nat} {visited : List ω} {arg : Oop ω}
    {stack : List (Oop ω)} {restricted : Option Nat} {objs : List ω}
    (run : walk w first fuel visited arg stack restricted = some (.ok objs)) :
    ∃ rest, objs = visited ++ rest := by
  induction fuel generalizing visited arg stack restricted with
  | zero => cases run
  | succ fuel ih =>
    unfold walk at run
    dsimp only at run
    split at run
    · split at run
      · cases run
        exact ⟨[], (List.append_nil _).symm⟩
      · exact ih run
    · split at run
      · cases run
      · split at run
        · cases run
        · split at run
          · cases run
            exact ⟨_, rfl⟩
          · obtain ⟨rest, same⟩ := ih run
            exact ⟨_ :: rest, by rw [same, List.append_assoc, List.singleton_append]⟩

theorem length_walk {first : Oop ω} {fuel : Nat} {visited : List ω} {arg : Oop ω}
    {stack : List (Oop ω)} {restricted : Option Nat} {objs : List ω} (few : visited.length ≤ 32)
    (run : walk w first fuel visited arg stack restricted = some (.ok objs)) : objs.length ≤ 32 := by
  induction fuel generalizing visited arg stack restricted with
  | zero => cases run
  | succ fuel ih =>
    unfold walk at run
    dsimp only at run
    split at run
    · split at run
      · cases run
        exact few
      · exact ih few run
    · split at run
      · cases run
      · rename_i shallow
        have more : (visited ++ [w.target arg]).length ≤ 32 := by
          rw [List.length_append, List.length_singleton]
          omega
        split at run
        · cases run
        · split at run
          · cases run
            exact more
          · exact ih more run

theorem length_order {arg : Oop ω} {objs : List ω} (run : order w arg = some (.ok objs)) :
    objs.length ≤ 32 :=
  length_walk (show ([] : List ω).length ≤ 32 from Nat.zero_le 32) run

def Delegates (w : World ω μ σ δ κ) (m m' : μ) : Prop :=
  ∃ d ∈ (w.map m).delegates, d ≠ .object w.nil ∧ w.mapOf (w.target d) = m'

omit [DecidableEq μ] in
theorem mem_pushDelegates {m : Map ω σ δ} {stack : List (Oop ω)} {d : Oop ω} :
    d ∈ pushDelegates w m stack none ↔ d ∈ m.delegates ∧ d ≠ .object w.nil ∨ d ∈ stack := by
  simp only [pushDelegates, Option.all_none, if_true, List.mem_append, List.mem_reverse,
    List.mem_filter, decide_eq_true_eq]

/-- What a walk that has visited some objects and goes on with `ds` makes of them. -/
structure Covers (w : World ω μ σ δ κ) (visited : List ω) (ds : List (Oop ω)) (objs : List ω) :
    Prop where
  keeps : ∀ o ∈ visited, o ∈ objs
  covers : ∀ d ∈ ds, w.mapOf (w.target d) ∈ objs.map w.mapOf
  sound : ∀ o ∈ objs, o ∈ visited ∨
    (∃ d ∈ ds, Relation.ReflTransGen (Delegates w) (w.mapOf (w.target d)) (w.mapOf o)) ∧
    ∀ m, Delegates w (w.mapOf o) m → m ∈ objs.map w.mapOf
  nodup : (visited.map w.mapOf).Nodup → (objs.map w.mapOf).Nodup

omit [DecidableEq ω] [DecidableEq μ] in
theorem Covers.known {visited objs : List ω} {ds : List (Oop ω)} {arg : Oop ω}
    (covers : Covers w visited ds objs) (known : w.mapOf (w.target arg) ∈ visited.map w.mapOf) :
    Covers w visited (arg :: ds) objs := by
  refine ⟨covers.keeps, fun d member => ?_, fun o member => ?_, covers.nodup⟩
  · rcases List.mem_cons.mp member with rfl | member
    · obtain ⟨o, old, same⟩ := List.mem_map.mp known
      exact List.mem_map.mpr ⟨o, covers.keeps o old, same⟩
    · exact covers.covers d member
  · rcases covers.sound o member with old | ⟨⟨d, from_, leads⟩, closed⟩
    · exact Or.inl old
    · exact Or.inr ⟨⟨d, List.mem_cons_of_mem _ from_, leads⟩, closed⟩

omit [DecidableEq μ] in
/-- The delegates of the object just looked at are among what is looked at next. -/
theorem Covers.new {visited objs : List ω} {stack : List (Oop ω)} {arg : Oop ω}
    (covers : Covers w (visited ++ [w.target arg])
      (pushDelegates w (w.mapAt (w.target arg)) stack none) objs)
    (fresh : w.mapOf (w.target arg) ∉ visited.map w.mapOf) : Covers w visited (arg :: stack) objs := by
  refine ⟨fun o old => covers.keeps o (List.mem_append_left _ old), fun d member => ?_,
    fun o member => ?_, fun nodup => covers.nodup ?_⟩
  · rcases List.mem_cons.mp member with rfl | member
    · exact List.mem_map_of_mem
        (covers.keeps _ (List.mem_append_right _ (List.mem_singleton_self _)))
    · exact covers.covers d (mem_pushDelegates.mpr (Or.inr member))
  · rcases covers.sound o member with here | ⟨⟨d, from_, leads⟩, closed⟩
    · rcases List.mem_append.mp here with old | now
      · exact Or.inl old
      · cases List.mem_singleton.mp now
        refine Or.inr ⟨⟨arg, List.mem_cons_self, Relation.ReflTransGen.refl⟩, ?_⟩
        rintro m ⟨d, delegate, notNil, rfl⟩
        exact covers.covers d (mem_pushDelegates.mpr (Or.inl ⟨delegate, notNil⟩))
    · refine Or.inr ⟨?_, closed⟩
      rcases mem_pushDelegates.mp from_ with ⟨delegate, notNil⟩ | below
      · exact ⟨arg, List.mem_cons_self,
          Relation.ReflTransGen.head ⟨d, delegate, notNil, rfl⟩ leads⟩
      · exact ⟨d, List.mem_cons_of_mem _ below, leads⟩
  · rw [List.map_append, List.map_singleton, ← List.concat_eq_append]
    exact nodup.concat fresh

omit [DecidableEq ω] [DecidableEq μ] in
theorem Covers.done (objs : List ω) : Covers w objs [] objs :=
  ⟨fun _ member => member, fun _ none_ => absurd none_ List.not_mem_nil,
    fun _ member => Or.inl member, id⟩

omit [DecidableEq ω] in
theorem any_known {visited : List ω} {m : μ} :
    (visited.any fun o => decide (w.mapOf o = m)) = true ↔ m ∈ visited.map w.mapOf := by
  simp only [List.any_eq_true, decide_eq_true_eq, List.mem_map]

theorem walk_covers (free : ∀ m, (w.map m).restrictDelegation = false) {first : Oop ω} {fuel : Nat}
    {visited : List ω} {arg : Oop ω} {stack : List (Oop ω)} {objs : List ω}
    (run : walk w first fuel visited arg stack none = some (.ok objs)) :
    Covers w visited (arg :: stack) objs := by
  induction fuel generalizing visited arg stack with
  | zero => cases run
  | succ fuel ih =>
    unfold walk at run
    dsimp only at run
    split at run
    · rename_i known
      rw [any_known] at known
      cases stack with
      | nil =>
        cases run
        exact (Covers.done _).known known
      | cons top stack => exact (ih run).known known
    · rename_i new
      rw [any_known] at new
      have unrestricted : restrictedAt (w.mapAt (w.target arg)) first arg stack none = none := by
        rw [restrictedAt, World.mapAt, free, Bool.false_and, if_neg Bool.false_ne_true]
      rw [unrestricted] at run
      refine Covers.new ?_ new
      split at run
      · cases run
      · split at run
        · cases run
        · split at run
          · rename_i empty
            cases run
            rw [empty]
            exact .done _
          · rename_i top below pushed
            rw [pushed]
            exact ih run

/-- The order of a walk without restrictions: each map that the argument leads to, once. -/
theorem order_reaches (free : ∀ m, (w.map m).restrictDelegation = false) {arg : Oop ω}
    {objs : List ω} (run : order w arg = some (.ok objs)) : (objs.map w.mapOf).Nodup ∧
      ∀ m, m ∈ objs.map w.mapOf ↔
        Relation.ReflTransGen (Delegates w) (w.mapOf (w.target arg)) m := by
  obtain ⟨-, covers, sound, nodup⟩ := walk_covers free run
  refine ⟨nodup List.nodup_nil, fun m => ⟨fun member => ?_, fun leads => ?_⟩⟩
  · obtain ⟨o, there, rfl⟩ := List.mem_map.mp member
    rcases sound o there with none_ | ⟨⟨d, from_, leads⟩, -⟩
    · cases none_
    · cases List.mem_singleton.mp from_
      exact leads
  · induction leads with
    | refl => exact covers arg List.mem_cons_self
    | tail _ step ih =>
      obtain ⟨o, there, same⟩ := List.mem_map.mp ih
      rcases sound o there with none_ | ⟨-, closed⟩
      · cases none_
      · rw [← same] at step
        exact closed _ step

end Extends

/-- An object that delegates to the prototype of small integers. One definition is on the prototype,
the other one on the object and, as its second argument, on the prototype. -/
def twoMaps : World (Fin 3) (Fin 3) Unit (Fin 2) (Fin 2) where
  mapOf o := o
  map
    | 0 => ⟨[], false, []⟩
    | 1 => ⟨[.object 0], false, [some ⟨(), 1, 0, some 1⟩, some ⟨(), 2, 1, none⟩]⟩
    | 2 => ⟨[.object 1], false, [some ⟨(), 1, 1, none⟩, none]⟩
  definition
    | 0 => ⟨0, false, 1⟩
    | 1 => ⟨1, false, 3⟩
  idHash _ := 0
  smallIntProto := 1
  nil := 0

theorem order_reaches_two : ([2, 1].map twoMaps.mapOf).Nodup ∧ ∀ m, m ∈ [2, 1].map twoMaps.mapOf ↔
    Relation.ReflTransGen (Delegates twoMaps) (twoMaps.mapOf (twoMaps.target (.object 2))) m :=
  order_reaches (by decide) (show order twoMaps (.object 2) = some (.ok [2, 1]) from rfl)

section Folding

variable {ω μ σ δ κ : Type} {w : World ω μ σ δ κ}

theorem rescan_marks (s : Search ω μ δ) (obj : ω) (role : RoleEntry σ δ) :
    (s.rescan w obj role).marks = s.marks := by
  unfold Search.rescan Search.choose
  dsimp only
  split
  · split <;> rfl
  · rfl

theorem rescanAll_marks (obj : ω) (before : List (RoleEntry σ δ)) (s : Search ω μ δ) :
    (before.foldl (fun s role => s.rescan w obj role) s).marks = s.marks := by
  induction before generalizing s with
  | nil => rfl
  | cons role before ih => exact (ih _).trans (rescan_marks s obj role)

variable [DecidableEq δ] [DecidableEq κ]

theorem consider_marks (s : Search ω μ δ) (obj : ω) (before : List (RoleEntry σ δ)) (d : δ)
    (resendMethod : Option κ) : (s.consider w obj before d resendMethod).marks = s.marks := by
  unfold Search.consider Search.choose
  dsimp only
  split
  · split
    · exact rescanAll_marks obj before _
    · exact rescanAll_marks obj before _
  · split
    · split
      · split <;> rfl
      · split <;> rfl
    · split <;> rfl

theorem meetAll_maps (i depth : Nat) (obj : ω) (resendMethod : Option κ)
    (before roles : List (RoleEntry σ δ)) (s : Search ω μ δ) :
    (Search.meetAll w i depth obj resendMethod before roles s).marks.maps = s.marks.maps ∧
      (Search.meetAll w i depth obj resendMethod before roles s).marks.current =
        s.marks.current := by
  induction roles generalizing before s with
  | nil => exact ⟨rfl, rfl⟩
  | cons role roles ih =>
    obtain ⟨maps, current⟩ := ih (before ++ [role]) (s.meet w i depth obj before role resendMethod)
    have same : (s.meet w i depth obj before role resendMethod).marks.maps = s.marks.maps ∧
        (s.meet w i depth obj before role resendMethod).marks.current = s.marks.current := by
      unfold Search.meet
      dsimp only
      split
      · rw [consider_marks]
        exact ⟨rfl, rfl⟩
      · exact ⟨rfl, rfl⟩
    exact ⟨maps.trans same.1, current.trans same.2⟩

variable [DecidableEq μ] [DecidableEq σ]

def searchObjects (w : World ω μ σ δ κ) (name : σ) (resendMethod : Option κ) (i : Nat) :
    Nat → List ω → Search ω μ δ → Bool × Search ω μ δ
  | _, [], s => (false, s)
  | depth, obj :: objs, s =>
    let s := s.look w name i depth obj resendMethod
    if s.settled then (true, s) else searchObjects w name resendMethod i (depth + 1) objs s

theorem testBit_or_shift (x i j : Nat) : (x ||| 1 <<< i).testBit j = (x.testBit j || decide (i = j)) := by
  rw [Nat.testBit_or, Nat.one_shiftLeft, Nat.testBit_two_pow]

theorem look_visited (s : Search ω μ δ) (name : σ) (i depth : Nat) (obj : ω)
    (resendMethod : Option κ) (m : μ) (j : Nat) :
    ((s.look w name i depth obj resendMethod).marks.visitedPositions m).testBit j =
      ((s.marks.visitedPositions m).testBit j || decide (w.mapOf obj = m ∧ i = j)) := by
  obtain ⟨maps, current⟩ := meetAll_maps (w := w) i depth obj resendMethod []
    (rolesNamed w (w.mapAt obj).roleTable name) { s with marks := s.marks.visit (w.mapOf obj) i }
  unfold Marks.visitedPositions at *
  rw [Search.look, maps, current]
  by_cases same : w.mapOf obj = m
  · subst same
    simp only [Marks.visit, Function.update_self, if_true, true_and]
    exact testBit_or_shift _ i j
  · simp only [Marks.visit, Function.update_of_ne (Ne.symm same), same, false_and, decide_false,
      Bool.or_false]

variable [DecidableEq ω]

theorem searchPosition_eq {name : σ} {resendMethod : Option κ} {i : Nat} {first : Oop ω} {fuel : Nat}
    {visited rest : List ω} {arg : Oop ω} {stack : List (Oop ω)} {restricted : Option Nat}
    (run : walk w first fuel visited arg stack restricted = some (.ok (visited ++ rest)))
    {s : Search ω μ δ}
    (seen : ∀ m, (s.marks.visitedPositions m).testBit i =
      visited.any fun o => decide (w.mapOf o = m)) :
    searchPosition w name resendMethod i first fuel visited.length arg stack restricted s =
      some (.ok (searchObjects w name resendMethod i visited.length rest s)) := by
  induction fuel generalizing visited rest arg stack restricted s with
  | zero => cases run
  | succ fuel ih =>
    unfold walk at run
    unfold searchPosition
    dsimp only at run ⊢
    rw [seen]
    split at run
    · rename_i known
      rw [if_pos known]
      cases stack with
      | nil =>
        cases List.self_eq_append_right.mp (Except.ok.inj (Option.some.inj run))
        rfl
      | cons top stack => exact ih run seen
    · rename_i new
      rw [if_neg new]
      split at run
      · cases run
      · rename_i shallow
        rw [if_neg shallow]
        have after : ∀ m, ((s.look w name i visited.length (w.target arg) resendMethod).marks.visitedPositions
            m).testBit i = (visited ++ [w.target arg]).any fun o => decide (w.mapOf o = m) := by
          intro m
          rw [look_visited, seen, List.any_append]
          simp
        split at run
        · cases run
        · rename_i room
          have next : rest = w.target arg :: rest.tail := by
            have longer : ∃ more, visited ++ rest = visited ++ [w.target arg] ++ more := by
              split at run
              · exact ⟨[], by rw [List.append_nil]; exact (Except.ok.inj (Option.some.inj run)).symm⟩
              · exact walk_extends run
            obtain ⟨more, same⟩ := longer
            rw [List.append_assoc, List.append_cancel_left_eq] at same
            rw [same]
            rfl
          rw [next]
          unfold searchObjects
          dsimp only
          split
          · rfl
          · split at run
            · have done : rest = [w.target arg] :=
                (List.append_cancel_left (Except.ok.inj (Option.some.inj run))).symm
              rw [done]
              rfl
            · have moved : visited ++ rest = (visited ++ [w.target arg]) ++ rest.tail := by
                rw [List.append_assoc, List.singleton_append, ← next]
              rw [moved] at run
              have again := ih run after
              rw [List.length_append, List.length_singleton] at again
              exact again

end Folding

end SlateVm.Dispatch
