import SlateVm.Collections.TreeShape
import Mathlib.Data.List.Perm.Subperm
import Mathlib.Data.List.Range

/-! A `BinaryTree` as a finite map, and the runs that keep its parent links. -/
namespace SlateVm.Collections.BinaryTree

open Refinement

variable {K V : Type} [LinearOrder K] {bt bt' : BinaryTree K V} {t : SearchTree Nat K V}
variable {a b c : Nat} {s : Side} {key : K} {value : V} {m : K → Option V}

structure Holds (bt : BinaryTree K V) (t : SearchTree Nat K V) : Prop where
  shape : Shape bt (some 0) t
  distinct : t.labels.Nodup
  made : ∀ a ∈ t.labels, a < bt.used
  ordered : t.Ordered

section Traversals

omit [LinearOrder K]

theorem Shape.traversed {β : Type} (join : Option K → Option V → β → β → β)
    (whole : SearchTree Nat K V → β) {nothing : β} (atNil : whole .nil = nothing)
    (atNode : ∀ a k v l r, whole (.node a k v l r) = join (some k) (some v) (whole l) (whole r))
    {q : Option Nat} (shape : Shape bt q t) {fuel : Nat} (deep : t.labels.length ≤ fuel) :
    below nothing (bt.traverse nothing join fuel) q = some (whole t) := by
  induction t generalizing q fuel with
  | nil =>
    cases shape
    rw [atNil]
    rfl
  | node x k v l r left right =>
    obtain ⟨here, atKey, atValue, onLeft, onRight⟩ := shape
    cases here
    cases fuel with
    | zero => exact absurd deep (Nat.not_succ_le_zero _)
    | succ fuel =>
      simp only [SearchTree.labels, List.length_cons, List.length_append] at deep
      have leftPart := left onLeft (by omega : l.labels.length ≤ fuel)
      have rightPart := right onRight (by omega : r.labels.length ≤ fuel)
      simp only [child] at leftPart rightPart
      rw [below, traverse, leftPart, rightPart, atKey, atValue, atNode]
      rfl

end Traversals

theorem Holds.short (holds : Holds bt t) : t.labels.length ≤ bt.used := by
  have within : t.labels ⊆ List.range bt.used :=
    fun a ha => List.mem_range.mpr (holds.made a ha)
  have fewer := (List.subperm_of_subset holds.distinct within).length_le
  rwa [List.length_range] at fewer

theorem Holds.nonempty (holds : Holds bt t) : bt.isEmpty 0 = false := by
  have shape := holds.shape
  cases t with
  | nil => exact nomatch shape
  | node a k v l r =>
    cases shape.1
    simp [isEmpty, shape.2.1]

theorem Holds.finds (holds : Holds bt t) (key : K) : Finds bt 0 t key (bt.used + 1) :=
  holds.shape.finds holds.distinct (Nat.le_succ_of_le holds.short)

theorem Holds.atIfAbsent (holds : Holds bt t) (key : K) :
    bt.atIfAbsent 0 key = some ((t.find? key).map some) := by
  obtain ⟨c, _, k, scan, keyed, finds, _⟩ := holds.finds key
  have valued : ∃ v, (bt.nodes c).value = some v := by
    obtain ⟨_, v, _, _, sub, _⟩ := holds.shape.subtree ‹_›
    exact ⟨v, sub.2.2.1⟩
  obtain ⟨v, valued⟩ := valued
  simp only [BinaryTree.atIfAbsent, scan, keyed, Option.bind_eq_bind, Option.bind_some, finds]
  by_cases same : key = k
  · simp [same, valued]
  · simp [same, Ne.symm same]

theorem Holds.inOrder (holds : Holds bt t) :
    bt.inOrder bt.used 0 = some ((t.toList.map Prod.fst).map some) := by
  refine Shape.traversed (fun key _ onLeft onRight => onLeft ++ key :: onRight)
    (fun t => (t.toList.map Prod.fst).map some) rfl ?_ holds.shape holds.short
  intro a k v l r
  simp [SearchTree.toList]

theorem Holds.keysAndValuesDo (holds : Holds bt t) :
    bt.keysAndValuesDo bt.used 0 = some (t.preorder.map fun (k, v) => (some k, some v)) := by
  refine Shape.traversed (fun key value onLeft onRight => (key, value) :: (onLeft ++ onRight))
    (fun t => t.preorder.map fun (p : K × V) => (some p.1, some p.2)) rfl ?_ holds.shape holds.short
  intro a k v l r
  simp [SearchTree.preorder]

theorem Holds.size (holds : Holds bt t) : bt.size bt.used 0 = some t.preorder.length := by
  refine Shape.traversed (fun _ _ onLeft onRight => 1 + onLeft + onRight)
    (fun t => t.preorder.length) rfl ?_ holds.shape holds.short
  intro a k v l r
  simp only [SearchTree.preorder, List.length_cons, List.length_append]
  omega

theorem Holds.shows (holds : Holds bt t) : ShowsMap bt fun key => t.find? key where
  atIfAbsent := holds.atIfAbsent
  inOrder := by
    refine ⟨_, _, holds.inOrder, ?_⟩
    rw [List.pairwise_map]
    exact holds.ordered
  visits := by
    have perm := t.preorder_perm
    refine ⟨_, _, holds.keysAndValuesDo, ?_, ?_, _, holds.size⟩
    · exact (perm.map Prod.fst).nodup_iff.mpr holds.ordered.nodup
    · intro k v
      rw [perm.mem_iff]
      exact (SearchTree.find?_eq_some holds.ordered).symm

theorem new_shows_not (m : K → Option V) : ¬ ShowsMap (new : BinaryTree K V) m := by
  intro shows_
  obtain ⟨fuel, keys, visits, _⟩ := shows_.inOrder
  cases fuel with
  | zero => exact nomatch visits
  | succ fuel =>
    have lone : [none] = keys.map some := Option.some.inj visits
    cases keys with
    | nil => exact nomatch lone
    | cons k keys => exact nomatch (List.cons.inj lone).1

section Put

theorem Holds.root (holds : Holds bt t) : 0 ∈ t.labels := holds.shape.root_mem

theorem Holds.within (holds : Holds bt t) : Within bt 0 a ↔ a ∈ t.labels := holds.shape.within

theorem atPut_new (key : K) (value : V) :
    (new : BinaryTree K V).atPut 0 key value =
        some (new.setNode 0 ⟨some key, some value, none, none, none⟩, some 0) ∧
      Holds ((new : BinaryTree K V).setNode 0 ⟨some key, some value, none, none, none⟩)
        (.node 0 key value .nil .nil) := by
  refine ⟨rfl, Shape.leaf (Alike.refl _), ?_, ?_, ?_⟩
  · exact List.nodup_cons.mpr ⟨List.not_mem_nil, List.nodup_nil⟩
  · intro a member
    cases List.mem_singleton.mp member
    exact Nat.zero_lt_one
  · exact List.pairwise_singleton _ _

theorem Holds.atPut_stored (holds : Holds bt t) (scan : bt.scanFor key (bt.used + 1) 0 = some c)
    (keyed : (bt.nodes c).key = some key) (value : V) :
    bt.atPut 0 key value = some (bt.setNode c { bt.nodes c with value := some value }, none) ∧
      Holds (bt.setNode c { bt.nodes c with value := some value })
        (t.put bt.used key value) := by
  constructor
  · simp only [atPut, holds.nonempty, scan, keyed, Option.bind_eq_bind, Option.bind_some]
    rfl
  · obtain ⟨c', member, k, scan', keyed', finds, stores⟩ := holds.finds key
    cases scan.symm.trans scan'
    cases keyed.symm.trans keyed'
    obtain ⟨_, v, _, _, sub, _⟩ := holds.shape.subtree member
    have found : (t.find? key).isSome := by
      rw [finds, if_pos rfl, sub.2.2.1]
      rfl
    have labels := @SearchTree.labels_put Nat K V _ bt.used key value t
    rw [if_pos found] at labels
    refine ⟨?_, labels.nodup_iff.mpr holds.distinct, ?_, holds.ordered.put⟩
    · apply stores
      · intro x _ other
        rw [nodes_setNode, if_neg other]
        exact Alike.refl _
      · rw [Stored, if_pos rfl, nodes_setNode, if_pos rfl]
        exact Alike.refl _
    · intro a ha
      exact holds.made a (labels.mem_iff.mp ha)

/-- The tree with a new node below `c`, whose `treeParent` is the root. -/
def withNew (bt : BinaryTree K V) (c : Nat) (s : Side) (key : K) (value : V) : BinaryTree K V :=
  setChild ⟨Function.update bt.nodes bt.used ⟨some key, some value, some 0, none, none⟩,
    bt.used + 1⟩ s c (some bt.used)

omit [LinearOrder K] in
theorem nodes_withNew (older : c < bt.used) (x : Nat) : (bt.withNew c s key value).nodes x =
    if x = c then withChild s (bt.nodes c) (some bt.used)
    else if x = bt.used then ⟨some key, some value, some 0, none, none⟩ else bt.nodes x := by
  rw [withNew, nodes_setChild]
  split
  · simp [Nat.ne_of_lt older]
  · exact Function.update_apply _ _ _ _

theorem Holds.atPut_added (holds : Holds bt t) {k : K}
    (scan : bt.scanFor key (bt.used + 1) 0 = some c) (keyed : (bt.nodes c).key = some k)
    (differs : key ≠ k) (value : V) :
    let bt' := bt.withNew c (if key < k then .left else .right) key value
    bt.atPut 0 key value = some (bt', some bt.used) ∧ Holds bt' (t.put bt.used key value) := by
  obtain ⟨c', member, k', scan', keyed', finds, stores⟩ := holds.finds key
  cases scan.symm.trans scan'
  cases keyed.symm.trans keyed'
  have older := holds.made c member
  constructor
  · have other : (bt.nodes c).key ≠ some key := by
      rw [keyed]
      exact fun same => differs (Option.some.inj same).symm
    have kept : (Function.update bt.nodes bt.used
        ⟨some key, some value, some 0, none, none⟩ c).key = some k := by
      rw [Function.update_of_ne (Nat.ne_of_lt older), keyed]
    simp only [atPut, holds.nonempty, scan, if_neg other, attach, kept, Option.bind_eq_bind,
      Option.bind_some]
    rfl
  · have missing : ¬ (t.find? key).isSome := by
      rw [finds, if_neg differs]
      exact Bool.false_ne_true
    have labels := @SearchTree.labels_put Nat K V _ bt.used key value t
    rw [if_neg missing] at labels
    have fresh : bt.used ∉ t.labels := fun old => Nat.lt_irrefl _ (holds.made _ old)
    refine ⟨?_, labels.nodup_iff.mpr (List.nodup_cons.mpr ⟨fresh, holds.distinct⟩), ?_,
      holds.ordered.put⟩
    · apply stores
      · intro x hx other
        rw [nodes_withNew older, if_neg other, if_neg (Nat.ne_of_lt (holds.made x hx))]
        exact Alike.refl _
      · rw [Stored, if_neg differs, nodes_withNew older, if_pos rfl, nodes_withNew older,
          if_neg (Nat.ne_of_gt older), if_pos rfl]
        exact ⟨Alike.refl _, rfl, rfl, fun s => by cases s <;> rfl⟩
    · intro a ha
      rcases List.mem_cons.mp (labels.mem_iff.mp ha) with rfl | old
      · exact Nat.lt_succ_self _
      · exact Nat.lt_succ_of_lt (holds.made a old)

theorem Holds.atPut (holds : Holds bt t) (key : K) (value : V) : ∃ bt' node,
    bt.atPut 0 key value = some (bt', node) ∧ Holds bt' (t.put bt.used key value) := by
  obtain ⟨c, _, k, scan, keyed, _⟩ := holds.finds key
  by_cases same : key = k
  · subst same
    exact ⟨_, _, holds.atPut_stored scan keyed value⟩
  · exact ⟨_, _, holds.atPut_added scan keyed same value⟩

theorem Holds.after_put (holds : Holds bt t) (key : K) (value : V) :
    (fun other => (t.put bt.used key value).find? other) =
      Op.after (fun other => t.find? other) (.atPut key value) := by
  funext other
  rw [SearchTree.find?_put holds.ordered, Op.after, Function.update_apply]

end Put

section Rotate

/-- A rotation of a node that its `treeParent` holds, with an inner grandchild. -/
structure Turns {K V : Type} (s : Side) (bt : BinaryTree K V) (a p c g : Nat) : Prop where
  parent : (bt.nodes a).treeParent = some p
  within : Within bt 0 p
  held : ∃ sd, child sd (bt.nodes p) = some a
  link : child s.other (bt.nodes a) = some c
  inner : child s (bt.nodes c) = some g

omit [LinearOrder K] in
theorem toList_turn (s : Side) (t : SearchTree Nat K V) : (turn s t).toList = t.toList := by
  cases s with
  | left => exact SearchTree.toList_rotateLeft t
  | right => exact SearchTree.toList_rotateRight t

omit [LinearOrder K] in
theorem labels_turn (s : Side) (t : SearchTree Nat K V) : (turn s t).labels.Perm t.labels := by
  cases s with
  | left => exact SearchTree.labels_rotateLeft t
  | right => exact SearchTree.labels_rotateRight t

theorem find?_congr {t' : SearchTree Nat K V} (ordered : t.Ordered)
    (same : t'.toList = t.toList) (key : K) : t'.find? key = t.find? key := by
  have ordered' : t'.Ordered := by
    rw [SearchTree.Ordered, same]
    exact ordered
  apply Option.ext
  intro v
  rw [SearchTree.find?_eq_some ordered', SearchTree.find?_eq_some ordered, same]

theorem Holds.rotate (holds : Holds bt t) {p g : Nat} (turns : Turns s bt a p c g) :
    ∃ bt' t', rotate s bt a = some (bt', true) ∧ Holds bt' t' ∧
      ∀ key, t'.find? key = t.find? key := by
  obtain ⟨sd, held⟩ := turns.held
  have memberP := holds.within.mp turns.within
  have memberA := holds.shape.child_mem memberP held
  have belowP := holds.shape.descendants_ne holds.distinct memberP held
  have belowA := holds.shape.descendants_ne holds.distinct memberA turns.link
  have notPC : p ≠ c := fun same => belowP.2 s.other (same ▸ turns.link)
  obtain ⟨sd', bt', held', run, rotated, used⟩ :=
    rotate_run turns.parent turns.held turns.link belowP.1 notPC belowA.1
  rw [turns.inner] at run
  have list := @SearchTree.toList_rotateAt Nat K V _ (turn s) a (toList_turn s) t
  have labels := @SearchTree.labels_rotateAt Nat K V _ (turn s) a (labels_turn s) t
  refine ⟨bt', _, run, ⟨holds.shape.rotatedAt holds.distinct memberP held' turns.link rotated,
    labels.nodup_iff.mpr holds.distinct, ?_, ?_⟩, find?_congr holds.ordered list⟩
  · intro x hx
    rw [used]
    exact holds.made x (labels.mem_iff.mp hx)
  · rw [SearchTree.Ordered, list]
    exact holds.ordered

end Rotate

end SlateVm.Collections.BinaryTree
