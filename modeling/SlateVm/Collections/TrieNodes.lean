import SlateVm.Lib.Walks
import SlateVm.Collections.DictionaryRuns
import SlateVm.Collections.Trie

/-! The nodes of a `Trie` as a tree, and what the single updates make of it. -/
namespace SlateVm.Collections.Trie

open Walks

variable {κ β : Type} {h : KeyHashing κ} {nodes : Nodes κ β}

def same (equals : κ → κ → Bool) : Option κ → Option κ → Prop
  | some a, some b => equals a b = true
  | none, none => True
  | _, _ => False

def kid (h : KeyHashing κ) (nodes : Nodes κ β) (node : Nat) (each : Option κ) : Option Nat :=
  (childAt h nodes node each).join

def parentOf (nodes : Nodes κ β) (node : Nat) : Option Nat := nodes[node]?.bind TrieNode.treeParent

def elementOf (nodes : Nodes κ β) (node : Nat) : Option β := nodes[node]?.bind TrieNode.element

def valueAt (h : KeyHashing κ) (nodes : Nodes κ β) (s : KeySequence κ) : Option β :=
  (walk (kid h nodes) 0 s).bind (elementOf nodes)

/-- The children of each node are a map, and the nodes are a tree below the node 0. -/
structure Formed (h : KeyHashing κ) (nodes : Nodes κ β) : Prop where
  trie : 0 < nodes.length
  dicts : ∀ i (record : TrieNode κ β), nodes[i]? = some record →
    record.children.Represents h fun k => (kid h nodes i (some k)).map some
  rooted : Walks.Rooted (kid h nodes) (same h.equals) 0 (parentOf nodes)
  ascends : ∀ i e c, kid h nodes i e = some c → i < c ∧ c < nodes.length

theorem same_equivalence (h : KeyHashing κ) : Equivalence (same h.equals) := by
  constructor
  · intro e
    cases e with
    | none => trivial
    | some a => exact h.refl a
  · intro e e' alike
    cases e <;> cases e' <;> first | exact h.symm _ _ alike | exact alike
  · intro e e' e'' alike alike'
    cases e <;> cases e' <;> cases e'' <;>
      first | exact h.trans _ _ _ alike alike' | trivial

theorem childAt_of {i : Nat} {record : TrieNode κ β} {m : κ → Option (Option Nat)}
    (here : nodes[i]? = some record) (represents : record.children.Represents h m)
    (e : Option κ) : childAt h nodes i e = some (e.bind m).join := by
  simp only [childAt, here, represents.at_eq, Option.bind_eq_bind, Option.bind_some]
  rfl

theorem kid_of {i : Nat} {record : TrieNode κ β} {m : κ → Option (Option Nat)}
    (here : nodes[i]? = some record) (represents : record.children.Represents h m)
    (e : Option κ) : kid h nodes i e = (e.bind m).join := by
  rw [kid, childAt_of here represents]
  rfl

theorem kid_congr {nodes' : Nodes κ β} {i : Nat}
    (kept : nodes'[i]?.map TrieNode.children = nodes[i]?.map TrieNode.children)
    (e : Option κ) : kid h nodes' i e = kid h nodes i e := by
  have through : ∀ ns : Nodes κ β, kid h ns i e =
      ((ns[i]?.map TrieNode.children).bind fun d =>
        (d.atIfAbsent h e).bind fun found => some found.join).join := by
    intro ns
    unfold kid childAt
    cases ns[i]? <;> rfl
  rw [through, through, kept]

theorem kid_beyond {i : Nat} (beyond : nodes.length ≤ i) (e : Option κ) :
    kid h nodes i e = none := by
  unfold kid childAt
  rw [List.getElem?_eq_none beyond]
  rfl

namespace Formed

variable (formed : Formed h nodes)
include formed

omit formed in
theorem record {i : Nat} (inside : i < nodes.length) : ∃ record, nodes[i]? = some record :=
  ⟨nodes[i], List.getElem?_eq_getElem inside⟩

theorem childAt_eq {i : Nat} (inside : i < nodes.length) (e : Option κ) :
    childAt h nodes i e = some (kid h nodes i e) := by
  obtain ⟨record, here⟩ := record inside
  have represents := formed.dicts i record here
  rw [kid_of here represents, childAt_of here represents]

theorem kid_nil (i : Nat) : kid h nodes i none = none := by
  rcases Nat.lt_or_ge i nodes.length with inside | beyond
  · obtain ⟨record, here⟩ := record inside
    exact kid_of here (formed.dicts i record here) none
  · exact kid_beyond beyond none

theorem walk_inside {i c : Nat} {s : KeySequence κ} (inside : i < nodes.length)
    (walked : walk (kid h nodes) i s = some c) : i ≤ c ∧ c < nodes.length := by
  apply walk_keeps (P := fun c => i ≤ c ∧ c < nodes.length) _ ⟨Nat.le_refl i, inside⟩ walked
  rintro n e c ⟨low, _⟩ step
  obtain ⟨up, within⟩ := formed.ascends n e c step
  exact ⟨by omega, within⟩

theorem childless {i : Nat} {record : TrieNode κ β} (here : nodes[i]? = some record)
    (none_left : record.children.size = 0) (e : Option κ) : kid h nodes i e = none := by
  have represents := formed.dicts i record here
  have tally := represents.tally
  have none_there : record.children.entries = [] := by
    apply List.length_eq_zero_iff.mp
    have size : record.children.size = record.children.tally := rfl
    omega
  cases e with
  | none => exact formed.kid_nil i
  | some k =>
    cases found : kid h nodes i (some k) with
    | none => rfl
    | some c =>
      obtain ⟨b, member, _⟩ := (represents.packed.lists.content k (some c)).mp (by
        simp [found])
      rw [none_there] at member
      cases member

end Formed

/-! Setting an element. -/

section Element

variable {i : Nat} {record : TrieNode κ β} (here : nodes[i]? = some record) (element : Option β)
include here

theorem kid_setElement (j : Nat) (e : Option κ) :
    kid h (nodes.set i { record with element := element }) j e = kid h nodes j e := by
  apply kid_congr
  rw [List.getElem?_set]
  split
  · rename_i at_
    subst at_
    rw [if_pos (List.getElem?_eq_some_iff.mp here).1, here]
    rfl
  · rfl

theorem parentOf_setElement (j : Nat) :
    parentOf (nodes.set i { record with element := element }) j = parentOf nodes j := by
  unfold parentOf
  rw [List.getElem?_set]
  split
  · rename_i at_
    subst at_
    rw [if_pos (List.getElem?_eq_some_iff.mp here).1, here]
    rfl
  · rfl

theorem elementOf_setElement (j : Nat) :
    elementOf (nodes.set i { record with element := element }) j =
      if j = i then element else elementOf nodes j := by
  unfold elementOf
  rw [List.getElem?_set]
  rcases Decidable.em (j = i) with rfl | off
  · rw [if_pos rfl, if_pos rfl, if_pos (List.getElem?_eq_some_iff.mp here).1]
    rfl
  · rw [if_neg (Ne.symm off), if_neg off]

theorem Formed.setElement (formed : Formed h nodes) :
    Formed h (nodes.set i { record with element := element }) := by
  have kids : kid h (nodes.set i { record with element := element }) = kid h nodes := by
    funext j e
    exact kid_setElement here element j e
  have parents : parentOf (nodes.set i { record with element := element }) = parentOf nodes := by
    funext j
    exact parentOf_setElement here element j
  constructor
  · simpa using formed.trie
  · intro j r there
    rw [kids]
    rw [List.getElem?_set] at there
    split at there
    · rename_i at_
      subst at_
      rw [if_pos (List.getElem?_eq_some_iff.mp here).1] at there
      cases there
      exact formed.dicts i record here
    · exact formed.dicts j r there
  · rw [kids, parents]
    exact formed.rooted
  · intro j e c step
    rw [kids] at step
    simpa using formed.ascends j e c step

theorem valueAt_setElement (formed : Formed h nodes) {s : KeySequence κ}
    (at_ : walk (kid h nodes) 0 s = some i) (t : KeySequence κ) :
    (List.Forall₂ (same h.equals) s t →
        valueAt h (nodes.set i { record with element := element }) t = element) ∧
      (¬ List.Forall₂ (same h.equals) s t →
        valueAt h (nodes.set i { record with element := element }) t = valueAt h nodes t) := by
  have kids : kid h (nodes.set i { record with element := element }) = kid h nodes := by
    funext j e
    exact kid_setElement here element j e
  unfold valueAt
  rw [kids]
  constructor
  · intro alike
    rw [(formed.rooted.walk_iff at_).mpr alike, Option.bind_some, elementOf_setElement here,
      if_pos rfl]
  · intro off
    cases to_j : walk (kid h nodes) 0 t with
    | none => rfl
    | some j =>
      rw [Option.bind_some, Option.bind_some, elementOf_setElement here, if_neg]
      rintro rfl
      exact off ((formed.rooted.walk_iff at_).mp to_j)

end Element

/-! Adding a node. -/

section Adding

variable {i : Nat} {record next : TrieNode κ β} (here : nodes[i]? = some record)
  (children : Dictionary κ Nat)
include here

theorem getElem?_added (j : Nat) :
    (nodes.set i { record with children := children } ++ [next])[j]? =
      if j = i then some { record with children := children }
      else if j = nodes.length then some next else nodes[j]? := by
  have inside := (List.getElem?_eq_some_iff.mp here).1
  rw [List.getElem?_append, List.length_set]
  split
  · rename_i within
    rw [List.getElem?_set]
    rcases Decidable.em (j = i) with rfl | off
    · rw [if_pos rfl, if_pos rfl, if_pos inside]
    · rw [if_neg (Ne.symm off), if_neg off, if_neg (by omega)]
  · rename_i behind
    rw [if_neg (by omega)]
    split
    · rename_i last
      subst last
      simp
    · rename_i off
      have past : nodes.length < j := by omega
      rw [List.getElem?_eq_none (Nat.le_of_lt past), List.getElem?_eq_none]
      rw [List.length_singleton]
      omega

theorem elementOf_added (j : Nat) :
    elementOf (nodes.set i { record with children := children } ++ [next]) j =
      if j = nodes.length then next.element else elementOf nodes j := by
  have inside := (List.getElem?_eq_some_iff.mp here).1
  unfold elementOf
  rw [getElem?_added here]
  split
  · rename_i at_
    subst at_
    rw [if_neg (by omega), here]
    rfl
  · split
    · rfl
    · rfl

theorem parentOf_added (j : Nat) :
    parentOf (nodes.set i { record with children := children } ++ [next]) j =
      if j = nodes.length then next.treeParent else parentOf nodes j := by
  have inside := (List.getElem?_eq_some_iff.mp here).1
  unfold parentOf
  rw [getElem?_added here]
  split
  · rename_i at_
    subst at_
    rw [if_neg (by omega), here]
    rfl
  · split
    · rfl
    · rfl

end Adding

theorem Formed.addNode (formed : Formed h nodes) {i : Nat} {k : κ} (inside : i < nodes.length)
    (missing : kid h nodes i (some k) = none) :
    ∃ nodes', Trie.addNode h nodes i (some k) = some (nodes', nodes.length) ∧ Formed h nodes' ∧
      Grafted (kid h nodes) (kid h nodes') (same h.equals) i (some k) nodes.length ∧
      ∀ j, elementOf nodes' j = if j = nodes.length then elementOf nodes 0 else elementOf nodes j := by
  obtain ⟨record, here⟩ := record inside
  obtain ⟨trie, first⟩ := Formed.record formed.trie
  obtain ⟨children, puts, represents⟩ := (formed.dicts i record here).atPut k (some nodes.length)
  let next : TrieNode κ β := ⟨trie.element, some i, Dictionary.new 3⟩
  have run : Trie.addNode h nodes i (some k) =
      some (nodes.set i { record with children := children } ++ [next], nodes.length) := by
    simp only [Trie.addNode, first, here, puts, Option.bind_eq_bind, Option.bind_some]
    rfl
  have added := @getElem?_added κ β nodes i record next here children
  have parents := @parentOf_added κ β nodes i record next here children
  have elements := @elementOf_added κ β nodes i record next here children
  have length : (nodes.set i { record with children := children } ++ [next]).length =
      nodes.length + 1 := by simp
  generalize nodes.set i { record with children := children } ++ [next] = nodes' at *
  have fresh : nodes'[nodes.length]? = some next := by
    rw [added, if_neg (by omega), if_pos rfl]
  have changed : nodes'[i]? = some { record with children := children } := by
    rw [added, if_pos rfl]
  have blank : next.children.Represents h fun _ => none := Dictionary.represents_new 3
  have grafted : Grafted (kid h nodes) (kid h nodes') (same h.equals) i (some k) nodes.length := by
    constructor
    · exact missing
    · intro e alike
      rw [kid_of changed represents]
      cases e with
      | none => exact alike.elim
      | some k' =>
        have equal : h.equals k k' = true := alike
        simp [put, equal]
    · intro e off
      rw [kid_of changed represents]
      cases e with
      | none => exact (formed.kid_nil i).symm
      | some k' =>
        have differs : ¬ h.equals k k' = true := off
        simp only [Option.bind_some, put, differs, Bool.false_eq_true, if_false]
        cases kid h nodes i (some k') <;> rfl
    · intro e
      rw [kid_of fresh blank]
      cases e <;> rfl
    · intro j e off old
      apply kid_congr
      rw [added, if_neg off, if_neg old]
    · intro j e clash
      have within := (formed.ascends j e _ clash).2
      omega
    · exact kid_beyond (Nat.le_refl _)
  have rooted : Walks.Rooted (kid h nodes') (same h.equals) 0 (parentOf nodes') := by
    apply rooted_grafted formed.rooted grafted _ _ _ _ (same_equivalence h)
    · have trie := formed.trie
      omega
    · rw [parents, if_pos rfl]
    · intro j off
      rw [parents, if_neg off]
    · omega
  have steps : ∀ j e c, kid h nodes' j e = some c →
      (j = i ∧ c = nodes.length) ∨ kid h nodes j e = some c := by
    intro j e c step
    rcases Decidable.em (j = i) with rfl | off
    · rcases Classical.em (same h.equals (some k) e) with alike | apart
      · rw [grafted.edge e alike] at step
        exact .inl ⟨rfl, (Option.some.inj step).symm⟩
      · exact .inr ((grafted.other e apart).symm.trans step)
    · rcases Decidable.em (j = nodes.length) with rfl | old
      · rw [grafted.leaf e] at step
        cases step
      · exact .inr ((grafted.rest j e off old).symm.trans step)
  refine ⟨nodes', run, ⟨by omega, ?_, rooted, ?_⟩, grafted, ?_⟩
  · intro j r there
    have given := there
    rw [added] at there
    rcases Decidable.em (j = i) with rfl | off
    · rw [if_pos rfl] at there
      cases there
      have map : (fun k' => (kid h nodes' j (some k')).map some) =
          put h.toHashing (fun k' => (kid h nodes j (some k')).map some) k
            (some nodes.length) := by
        funext k'
        unfold put
        split
        · rename_i equal
          rw [grafted.edge (some k') equal]
          rfl
        · rename_i differs
          rw [grafted.other (some k') differs]
      rw [map]
      exact represents
    · rw [if_neg off] at there
      rcases Decidable.em (j = nodes.length) with rfl | old
      · rw [if_pos rfl] at there
        cases there
        simp only [grafted.leaf]
        exact blank
      · rw [if_neg old] at there
        simp only [grafted.rest j _ off old]
        exact formed.dicts j r there
  · intro j e c step
    rcases steps j e c step with ⟨rfl, rfl⟩ | old
    · omega
    · have before := formed.ascends j e c old
      omega
  · intro j
    have copied : next.element = elementOf nodes 0 := by simp [elementOf, first, next]
    rw [elements, copied]

/-! Detaching a node. -/

theorem only_pair {h : KeyHashing κ} {d : Dictionary κ Nat} {m : κ → Option (Option Nat)}
    (represents : d.Represents h m) {k : κ} {x : Nat} (there : m k = some (some x))
    (alone : ∀ k', m k' = some (some x) → h.equals k k' = true) :
    ∃ b, h.equals b k = true ∧
      ((d.visits.filter fun (_, value) => value == some x).map Prod.fst) = [b] := by
  have lists := represents.shows.lists
  obtain ⟨b, member, equal⟩ := (lists.content k (some x)).mp there
  have all : ∀ pair ∈ d.visits.filter (fun (_, value) => value == some x),
      h.equals k pair.1 = true := by
    rintro ⟨c, v⟩ inside
    obtain ⟨listed, value⟩ := List.mem_filter.mp inside
    apply alone
    rw [lists.content]
    have same_value : v = some x := by simpa using value
    exact ⟨c, same_value ▸ listed, h.refl c⟩
  have distinct : Distinct h.toHashing
      ((d.visits.filter fun (_, value) => value == some x).map Prod.fst) :=
    lists.distinct.sublist (List.filter_sublist.map _)
  have found : (b, some x) ∈ d.visits.filter (fun (_, value) => value == some x) :=
    List.mem_filter.mpr ⟨member, by simp⟩
  generalize d.visits.filter (fun (_, value) => value == some x) = pairs at all distinct found ⊢
  match pairs, all, distinct, found with
  | [pair], _, _, found =>
    cases List.mem_singleton.mp found
    exact ⟨b, equal, rfl⟩
  | first :: second :: rest, all, distinct, _ =>
    have apart := (List.pairwise_cons.mp distinct).1 second.1 (by simp)
    have meet := h.trans _ _ _ (h.symm _ _ (all first (by simp))) (all second (by simp))
    exact absurd meet (by simp [apart])

theorem Formed.detach (formed : Formed h nodes) {parent node : Nat} {k : κ}
    {above : TrieNode κ β} (here : nodes[parent]? = some above)
    (edge : kid h nodes parent (some k) = some node) (leaf : ∀ e, kid h nodes node e = none)
    (spares : ∀ k', kid h nodes parent (some k') = some node →
      Dictionary.Spares h above.children (.removeKey (some k'))) :
    ∃ nodes' children, Trie.detach h nodes parent node = some nodes' ∧ Formed h nodes' ∧
      Cut (kid h nodes) (kid h nodes') (same h.equals) parent (some k) node ∧
      (∀ j, elementOf nodes' j = elementOf nodes j) ∧ nodes'.length = nodes.length ∧
      nodes'[parent]? = some { above with children := children } ∧
      children.size = above.children.size - 1 ∧
      ∀ j, j ≠ parent → j ≠ node → nodes'[j]? = nodes[j]? := by
  obtain ⟨up, within⟩ := formed.ascends parent _ node edge
  obtain ⟨record, at_⟩ := Formed.record within
  have dict := formed.dicts parent above here
  obtain ⟨b, equal, removals⟩ := only_pair dict (k := k) (x := node) (by rw [edge]; rfl) (by
    intro k' there
    exact formed.rooted.label parent (some k) (some k') node edge (by simpa using there))
  have under : kid h nodes parent (some b) = some node := by
    rw [formed.rooted.respects parent (some b) (some k) equal]
    exact edge
  obtain ⟨children, object, k', key, _, takes, represents, tally⟩ := dict.removeKey (spares b under)
  cases key
  have removes : above.children.keysAndValuesRemove h (fun _ value => value == some node) =
      some children := by
    simp only [Dictionary.keysAndValuesRemove, removals, List.foldlM_cons, List.foldlM_nil,
      Dictionary.removeKeyFound, takes, Option.bind_eq_bind, Option.bind_some, Option.map_some]
    rfl
  let changed : TrieNode κ β := { above with children := children }
  let freed : TrieNode κ β := { record with treeParent := none }
  have parent_in := (List.getElem?_eq_some_iff.mp here).1
  have still : (nodes.set parent changed)[node]? = some record := by
    rw [List.getElem?_set, if_neg (by omega), at_]
  have run : Trie.detach h nodes parent node =
      some ((nodes.set parent changed).set node freed) := by
    simp only [Trie.detach, here, removes, Option.bind_eq_bind, Option.bind_some]
    rw [still]
    rfl
  have length : ((nodes.set parent changed).set node freed).length = nodes.length := by simp
  have reads : ∀ j, ((nodes.set parent changed).set node freed)[j]? =
      if j = node then some freed else if j = parent then some changed else nodes[j]? := by
    intro j
    rw [List.getElem?_set, List.getElem?_set, List.length_set]
    rcases Decidable.em (j = node) with rfl | off
    · rw [if_pos rfl, if_pos rfl, if_pos within]
    · rw [if_neg (Ne.symm off), if_neg off]
      rcases Decidable.em (j = parent) with rfl | off'
      · rw [if_pos rfl, if_pos rfl, if_pos parent_in]
      · rw [if_neg (Ne.symm off'), if_neg off']
  generalize (nodes.set parent changed).set node freed = nodes' at *
  have at_parent : nodes'[parent]? = some changed := by
    rw [reads, if_neg (by omega), if_pos rfl]
  have frame : ∀ j, j ≠ parent → nodes'[j]?.map TrieNode.children =
      nodes[j]?.map TrieNode.children := by
    intro j off
    rw [reads]
    rcases Decidable.em (j = node) with rfl | off'
    · rw [if_pos rfl, at_]
      rfl
    · rw [if_neg off', if_neg off]
  have cut : Cut (kid h nodes) (kid h nodes') (same h.equals) parent (some k) node := by
    constructor
    · exact edge
    · intro e alike
      rw [kid_of at_parent represents]
      cases e with
      | none => rfl
      | some k'' =>
        have gone : h.equals b k'' = true := h.trans _ _ _ equal alike
        simp [Collections.erase, gone]
    · intro e off
      rw [kid_of at_parent represents]
      cases e with
      | none => exact (formed.kid_nil parent).symm
      | some k'' =>
        have differs : ¬ h.equals b k'' = true := fun gone =>
          off (h.trans _ _ _ (h.symm _ _ equal) gone)
        simp only [Option.bind_some, Collections.erase, differs, Bool.false_eq_true, if_false]
        cases kid h nodes parent (some k'') <;> rfl
    · intro j e off
      exact kid_congr (frame j off) e
    · exact leaf
  have parents : ∀ j, parentOf nodes' j = if j = node then none else parentOf nodes j := by
    intro j
    unfold parentOf
    rw [reads]
    split
    · rfl
    · split
      · rename_i at_j
        rw [at_j, here]
        rfl
      · rfl
  have rooted : Walks.Rooted (kid h nodes') (same h.equals) 0 (parentOf nodes') := by
    apply rooted_cut formed.rooted cut
    · rw [parents, if_neg (by omega)]
      exact formed.rooted.top
    · intro j off
      rw [parents, if_neg off]
  refine ⟨nodes', children, run, ⟨?_, ?_, rooted, ?_⟩, cut, ?_, length, at_parent, tally, ?_⟩
  · have trie := formed.trie
    omega
  · intro j r there
    rcases Decidable.em (j = parent) with rfl | off
    · cases there.symm.trans at_parent
      have map : (fun k' => (kid h nodes' j (some k')).map some) =
          Collections.erase h.toHashing (fun k' => (kid h nodes j (some k')).map some) b := by
        funext k'
        unfold Collections.erase
        split
        · rename_i gone
          rw [cut.gone (some k') (h.trans _ _ _ (h.symm _ _ equal) gone)]
          rfl
        · rename_i stays
          rw [cut.other (some k')]
          exact fun alike => stays (h.trans _ _ _ equal alike)
      rw [map]
      exact represents
    · have kids : (fun k' => (kid h nodes' j (some k')).map some) =
          fun k' => (kid h nodes j (some k')).map some := by
        funext k'
        rw [cut.rest j (some k') off]
      rw [kids]
      rw [reads] at there
      rcases Decidable.em (j = node) with rfl | off'
      · rw [if_pos rfl] at there
        cases there
        exact formed.dicts j record at_
      · rw [if_neg off', if_neg off] at there
        exact formed.dicts j r there
  · intro j e c step
    rw [length]
    rcases Classical.em (kid h nodes j e = some node) with gone | stays
    · rw [(kid_cut formed.rooted cut j e).1 gone] at step
      cases step
    · rw [(kid_cut formed.rooted cut j e).2 stays] at step
      exact formed.ascends j e c step
  · intro j
    unfold elementOf
    rw [reads]
    split
    · rename_i at_j
      rw [at_j, at_]
      rfl
    · split
      · rename_i at_j
        rw [at_j, here]
        rfl
      · rfl
  · intro j off off'
    rw [reads, if_neg off', if_neg off]

end SlateVm.Collections.Trie
