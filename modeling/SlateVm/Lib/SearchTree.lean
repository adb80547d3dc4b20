import Mathlib.Data.List.Pairwise
import Mathlib.Tactic.Common
import Mathlib.Order.Lattice

/-! Binary search trees whose nodes carry labels: insertion, lookup and rotations. -/

inductive SearchTree (A K V : Type) where
  | nil
  | node (label : A) (key : K) (value : V) (left right : SearchTree A K V)

namespace SearchTree

variable {A K V : Type}

/-- The entries from left to right. -/
def toList : SearchTree A K V → List (K × V)
  | nil => []
  | node _ k v l r => l.toList ++ (k, v) :: r.toList

/-- The entries, each node before its subtrees. -/
def preorder : SearchTree A K V → List (K × V)
  | nil => []
  | node _ k v l r => (k, v) :: (l.preorder ++ r.preorder)

def labels : SearchTree A K V → List A
  | nil => []
  | node a _ _ l r => a :: (l.labels ++ r.labels)

attribute [local simp] toList preorder labels

theorem preorder_perm (t : SearchTree A K V) : t.preorder.Perm t.toList := by
  induction t with
  | nil => exact List.Perm.refl _
  | node a k v l r left right =>
    exact ((left.append right).cons _).trans List.perm_middle.symm

section Rotate

/-- The right child of the root becomes the root. -/
def rotateLeft : SearchTree A K V → SearchTree A K V
  | node a k v l (node c kc vc g r) => node c kc vc (node a k v l g) r
  | t => t

/-- The left child of the root becomes the root. -/
def rotateRight : SearchTree A K V → SearchTree A K V
  | node a k v (node c kc vc l g) r => node c kc vc l (node a k v g r)
  | t => t

theorem toList_rotateLeft (t : SearchTree A K V) : t.rotateLeft.toList = t.toList := by
  unfold rotateLeft
  split <;> simp [toList]

theorem toList_rotateRight (t : SearchTree A K V) : t.rotateRight.toList = t.toList := by
  unfold rotateRight
  split <;> simp [toList]

theorem labels_rotateLeft (t : SearchTree A K V) : t.rotateLeft.labels.Perm t.labels := by
  unfold rotateLeft
  split
  · next a k v l c kc vc g r =>
    simp only [labels, List.cons_append, List.append_assoc]
    exact (List.Perm.swap _ _ _).trans (List.Perm.cons _ List.perm_middle.symm)
  · exact List.Perm.refl _

theorem labels_rotateRight (t : SearchTree A K V) : t.rotateRight.labels.Perm t.labels := by
  unfold rotateRight
  split
  · next a k v c kc vc l g r =>
    simp only [labels, List.cons_append, List.append_assoc]
    exact (List.Perm.cons _ List.perm_middle).trans (List.Perm.swap _ _ _)
  · exact List.Perm.refl _

variable [DecidableEq A]

/-- A rotation of the subtree whose root is labelled `a`. -/
def rotateAt (rotate : SearchTree A K V → SearchTree A K V) (a : A) :
    SearchTree A K V → SearchTree A K V
  | nil => nil
  | node b k v l r =>
    if b = a then rotate (node b k v l r)
    else node b k v (rotateAt rotate a l) (rotateAt rotate a r)

variable {rotate : SearchTree A K V → SearchTree A K V} {a : A}

theorem rotateAt_absent {t : SearchTree A K V} (absent : a ∉ t.labels) : t.rotateAt rotate a = t := by
  induction t with
  | nil => rfl
  | node b k v l r left right =>
    simp only [labels, List.mem_cons, List.mem_append, not_or] at absent
    rw [rotateAt, if_neg (Ne.symm absent.1), left absent.2.1, right absent.2.2]

theorem toList_rotateAt (same : ∀ t : SearchTree A K V, (rotate t).toList = t.toList)
    (t : SearchTree A K V) : (t.rotateAt rotate a).toList = t.toList := by
  induction t with
  | nil => rfl
  | node b k v l r left right =>
    rw [rotateAt]
    split
    · exact same _
    · simp only [toList, left, right]

theorem labels_rotateAt (same : ∀ t : SearchTree A K V, (rotate t).labels.Perm t.labels)
    (t : SearchTree A K V) : (t.rotateAt rotate a).labels.Perm t.labels := by
  induction t with
  | nil => exact List.Perm.refl _
  | node b k v l r left right =>
    rw [rotateAt]
    split
    · exact same _
    · exact (left.append right).cons b

end Rotate

section Ordered

variable [LinearOrder K] {t l r : SearchTree A K V} {a new : A} {k key : K} {v value : V}

/-- The keys increase from left to right. -/
def Ordered (t : SearchTree A K V) : Prop := t.toList.Pairwise fun p q => p.1 < q.1

theorem ordered_node : (node a k v l r).Ordered ↔
    l.Ordered ∧ r.Ordered ∧ (∀ p ∈ l.toList, p.1 < k) ∧ ∀ q ∈ r.toList, k < q.1 := by
  unfold Ordered
  rw [toList, List.pairwise_append, List.pairwise_cons]
  constructor
  · rintro ⟨left, ⟨above, right⟩, across⟩
    exact ⟨left, right, fun p hp => across p hp _ List.mem_cons_self, above⟩
  · rintro ⟨left, right, below, above⟩
    refine ⟨left, ⟨above, right⟩, ?_⟩
    intro p hp q hq
    rcases List.mem_cons.mp hq with rfl | later
    · exact below p hp
    · exact lt_trans (below p hp) (above q later)

/-- The value at a key. -/
def find? (key : K) : SearchTree A K V → Option V
  | nil => none
  | node _ k v l r => if key < k then l.find? key else if k < key then r.find? key else some v

/-- The value stored at a key, in a new node where there was none. -/
def put (new : A) (key : K) (value : V) : SearchTree A K V → SearchTree A K V
  | nil => node new key value nil nil
  | node a k v l r =>
    if key < k then node a k v (l.put new key value) r
    else if k < key then node a k v l (r.put new key value)
    else node a k value l r

theorem find?_eq_some (ordered : t.Ordered) : t.find? key = some value ↔ (key, value) ∈ t.toList := by
  induction t with
  | nil => simp [find?, toList]
  | node a k v l r left right =>
    obtain ⟨onLeft, onRight, below, above⟩ := ordered_node.mp ordered
    rw [find?, toList, List.mem_append, List.mem_cons]
    have atLeft : (key, value) ∈ l.toList → key < k := below _
    have atRight : (key, value) ∈ r.toList → k < key := above _
    rcases lt_trichotomy key k with smaller | rfl | larger
    · rw [if_pos smaller, left onLeft]
      grind
    · rw [if_neg (lt_irrefl key), if_neg (lt_irrefl key)]
      grind
    · rw [if_neg (lt_asymm larger), if_pos larger, right onRight]
      grind

theorem mem_put {p : K × V} (ordered : t.Ordered) : p ∈ (t.put new key value).toList ↔
    p = (key, value) ∨ p.1 ≠ key ∧ p ∈ t.toList := by
  induction t with
  | nil => simp [put, toList]
  | node a k v l r left right =>
    obtain ⟨onLeft, onRight, below, above⟩ := ordered_node.mp ordered
    have atLeft : p ∈ l.toList → p.1 < k := below _
    have atRight : p ∈ r.toList → k < p.1 := above _
    rw [put]
    rcases lt_trichotomy key k with smaller | rfl | larger
    · rw [if_pos smaller, toList, toList, List.mem_append, List.mem_append, left onLeft]
      grind
    · rw [if_neg (lt_irrefl key), if_neg (lt_irrefl key), toList, toList, List.mem_append,
        List.mem_append]
      grind
    · rw [if_neg (lt_asymm larger), if_pos larger, toList, toList, List.mem_append,
        List.mem_append, List.mem_cons, List.mem_cons, right onRight]
      grind

theorem Ordered.put (ordered : t.Ordered) : (t.put new key value).Ordered := by
  induction t with
  | nil => simp [SearchTree.put, Ordered, toList]
  | node a k v l r left right =>
    obtain ⟨onLeft, onRight, below, above⟩ := ordered_node.mp ordered
    rw [SearchTree.put]
    rcases lt_trichotomy key k with smaller | rfl | larger
    · rw [if_pos smaller]
      refine ordered_node.mpr ⟨left onLeft, onRight, ?_, above⟩
      intro p hp
      rcases (mem_put onLeft).mp hp with rfl | ⟨_, old⟩
      · exact smaller
      · exact below p old
    · rw [if_neg (lt_irrefl key), if_neg (lt_irrefl key)]
      exact ordered_node.mpr ⟨onLeft, onRight, below, above⟩
    · rw [if_neg (lt_asymm larger), if_pos larger]
      refine ordered_node.mpr ⟨onLeft, right onRight, below, ?_⟩
      intro p hp
      rcases (mem_put onRight).mp hp with rfl | ⟨_, old⟩
      · exact larger
      · exact above p old

theorem find?_put (ordered : t.Ordered) (other : K) : (t.put new key value).find? other =
    if other = key then some value else t.find? other := by
  apply Option.ext
  intro v
  rw [find?_eq_some ordered.put, mem_put ordered]
  split
  · next same => simp [same, eq_comm]
  · next differs => simp [differs, find?_eq_some ordered]

theorem labels_put (t : SearchTree A K V) :
    (t.put new key value).labels.Perm (if (t.find? key).isSome then t.labels else new :: t.labels) := by
  induction t with
  | nil => exact List.Perm.refl _
  | node a k v l r left right =>
    rw [SearchTree.put, find?]
    rcases lt_trichotomy key k with smaller | rfl | larger
    · simp only [if_pos smaller, labels]
      refine ((left.append_right _).cons a).trans ?_
      split
      · exact List.Perm.refl _
      · exact List.Perm.swap _ _ _
    · rw [if_neg (lt_irrefl key), if_neg (lt_irrefl key), if_neg (lt_irrefl key),
        if_neg (lt_irrefl key)]
      exact List.Perm.refl _
    · simp only [if_neg (lt_asymm larger), if_pos larger, labels]
      refine ((right.append_left _).cons a).trans ?_
      split
      · exact List.Perm.refl _
      · exact (List.perm_middle.cons a).trans (List.Perm.swap _ _ _)

theorem Ordered.nodup (ordered : t.Ordered) : (t.toList.map Prod.fst).Nodup := by
  rw [List.Nodup, List.pairwise_map]
  exact List.Pairwise.imp (fun below => ne_of_lt below) ordered

end Ordered

end SearchTree
