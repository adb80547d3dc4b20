import SlateVm.Collections.BinaryTree

/-! The shape that the links of a `BinaryTree` have, and what the operations make of it. -/
namespace SlateVm.Collections.BinaryTree

variable {K V : Type} {bt bt' : BinaryTree K V} {t l r : SearchTree Nat K V} {p q g : Option Nat}
variable {a b c x root : Nat} {s s' : Side}

section Fields

variable (n : TreeNode K V)

theorem child_withChild : child s' (withChild s n p) = if s' = s then p else child s' n := by
  cases s <;> cases s' <;> rfl

@[simp] theorem key_withChild : (withChild s n p).key = n.key := by cases s <;> rfl

@[simp] theorem value_withChild : (withChild s n p).value = n.value := by cases s <;> rfl

@[simp] theorem child_value {v : Option V} : child s { n with value := v } = child s n := by
  cases s <;> rfl

theorem nodes_setNode : (bt.setNode a n).nodes x = if x = a then n else bt.nodes x := by
  by_cases same : x = a
  · subst same
    simp [setNode]
  · simp [setNode, same]

end Fields

structure Alike (n n' : TreeNode K V) : Prop where
  key : n'.key = n.key
  value : n'.value = n.value
  child : ∀ s, BinaryTree.child s n' = BinaryTree.child s n

theorem Alike.refl (n : TreeNode K V) : Alike n n := ⟨rfl, rfl, fun _ => rfl⟩

def Shape (bt : BinaryTree K V) : Option Nat → SearchTree Nat K V → Prop
  | p, .nil => p = none
  | p, .node a k v l r => p = some a ∧ (bt.nodes a).key = some k ∧ (bt.nodes a).value = some v ∧
      Shape bt (child .left (bt.nodes a)) l ∧ Shape bt (child .right (bt.nodes a)) r

theorem Shape.frame (shape : Shape bt p t) (same : ∀ a ∈ t.labels, Alike (bt.nodes a) (bt'.nodes a)) :
    Shape bt' p t := by
  induction t generalizing p with
  | nil => exact shape
  | node a k v l r left right =>
    obtain ⟨here, key, value, onLeft, onRight⟩ := shape
    have alike := same a List.mem_cons_self
    refine ⟨here, alike.key.trans key, alike.value.trans value, ?_, ?_⟩
    · rw [alike.child]
      exact left onLeft fun a ha => same a (List.mem_cons_of_mem _ (List.mem_append_left _ ha))
    · rw [alike.child]
      exact right onRight fun a ha => same a (List.mem_cons_of_mem _ (List.mem_append_right _ ha))

theorem Shape.child_mem (shape : Shape bt p t) (member : a ∈ t.labels)
    (link : child s (bt.nodes a) = some b) : b ∈ t.labels := by
  induction t generalizing p with
  | nil => exact absurd member List.not_mem_nil
  | node x k v l r left right =>
    obtain ⟨_, _, _, onLeft, onRight⟩ := shape
    rcases List.mem_cons.mp member with rfl | below
    · apply List.mem_cons_of_mem
      cases s with
      | left =>
        cases l with
        | nil => exact nomatch link.symm.trans onLeft
        | node y k v l' r' =>
          cases link.symm.trans onLeft.1
          exact List.mem_append_left _ List.mem_cons_self
      | right =>
        cases r with
        | nil => exact nomatch link.symm.trans onRight
        | node y k v l' r' =>
          cases link.symm.trans onRight.1
          exact List.mem_append_right _ List.mem_cons_self
    · apply List.mem_cons_of_mem
      rcases List.mem_append.mp below with inLeft | inRight
      · exact List.mem_append_left _ (left onLeft inLeft)
      · exact List.mem_append_right _ (right onRight inRight)

theorem Shape.root_mem (shape : Shape bt (some a) t) : a ∈ t.labels := by
  cases t with
  | nil => exact nomatch shape
  | node x k v l r =>
    cases shape.1
    exact List.mem_cons_self

theorem Shape.within (shape : Shape bt (some root) t) : Within bt root a ↔ a ∈ t.labels := by
  constructor
  · intro within
    induction within with
    | root => exact shape.root_mem
    | child s _ link ih => exact shape.child_mem ih link
  · have start : ∀ b, some root = some b → Within bt root b := by
      intro b same
      cases same
      exact .root
    revert start shape
    generalize some root = p
    intro shape reached member
    induction t generalizing p with
    | nil => exact absurd member List.not_mem_nil
    | node x k v l r left right =>
      obtain ⟨here, _, _, onLeft, onRight⟩ := shape
      have within := reached x here
      rcases List.mem_cons.mp member with rfl | below
      · exact within
      · rcases List.mem_append.mp below with inLeft | inRight
        · exact left _ onLeft (fun b link => within.child .left link) inLeft
        · exact right _ onRight (fun b link => within.child .right link) inRight

theorem Shape.subtree (shape : Shape bt p t) (member : a ∈ t.labels) :
    ∃ k v l r, Shape bt (some a) (.node a k v l r) ∧
      (SearchTree.node a k v l r).labels.Sublist t.labels := by
  induction t generalizing p with
  | nil => exact absurd member List.not_mem_nil
  | node x k v l r left right =>
    obtain ⟨here, key, value, onLeft, onRight⟩ := shape
    rcases List.mem_cons.mp member with rfl | below
    · exact ⟨k, v, l, r, ⟨rfl, key, value, onLeft, onRight⟩, List.Sublist.refl _⟩
    · rcases List.mem_append.mp below with inLeft | inRight
      · obtain ⟨k, v, l', r', sub, part⟩ := left onLeft inLeft
        exact ⟨k, v, l', r', sub, (part.trans (List.sublist_append_left _ _)).cons x⟩
      · obtain ⟨k, v, l', r', sub, part⟩ := right onRight inRight
        exact ⟨k, v, l', r', sub, (part.trans (List.sublist_append_right _ _)).cons x⟩

theorem Shape.descendants_ne (shape : Shape bt p t) (distinct : t.labels.Nodup)
    (member : a ∈ t.labels) (link : child s (bt.nodes a) = some b) :
    a ≠ b ∧ ∀ s', child s' (bt.nodes b) ≠ some a := by
  obtain ⟨k, v, l, r, ⟨_, _, _, onLeft, onRight⟩, part⟩ := shape.subtree member
  have apart := (List.nodup_cons.mp (distinct.sublist part)).1
  have below : ∃ u, (∀ y ∈ u.labels, y ≠ a) ∧ Shape bt (some b) u := by
    cases s with
    | left =>
      refine ⟨l, fun y hy same => apart (same ▸ List.mem_append_left _ hy), ?_⟩
      rwa [link] at onLeft
    | right =>
      refine ⟨r, fun y hy same => apart (same ▸ List.mem_append_right _ hy), ?_⟩
      rwa [link] at onRight
  obtain ⟨u, others, sub⟩ := below
  exact ⟨Ne.symm (others b sub.root_mem), fun s' back => others a (sub.child_mem sub.root_mem back) rfl⟩

section Put

variable [LinearOrder K] {key : K} {value : V} {new : Nat}

/-- What storing makes of the node that the search found, whose key is `k`: its value changes
when it has the key, else it gets a new child. -/
def Stored (key : K) (value : V) (new : Nat) (k : K) (n n' child : TreeNode K V) : Prop :=
  if key = k then Alike { n with value := some value } n'
  else Alike (withChild (if key < k then .left else .right) n (some new)) n' ∧
    Alike ⟨some key, some value, none, none, none⟩ child

/-- The search ends at a member, which has the key if any node has it, and storing there is
storing in the tree. -/
def Finds (bt : BinaryTree K V) (a : Nat) (t : SearchTree Nat K V) (key : K) (fuel : Nat) : Prop :=
  ∃ c ∈ t.labels, ∃ k, bt.scanFor key fuel a = some c ∧ (bt.nodes c).key = some k ∧
    t.find? key = (if key = k then (bt.nodes c).value else none) ∧
    ∀ (bt' : BinaryTree K V) (new : Nat) (value : V),
      (∀ x ∈ t.labels, x ≠ c → Alike (bt.nodes x) (bt'.nodes x)) →
      Stored key value new k (bt.nodes c) (bt'.nodes c) (bt'.nodes new) →
      Shape bt' (some a) (t.put new key value)

omit [LinearOrder K] in
theorem Shape.leaf {bt' : BinaryTree K V}
    (alike : Alike ⟨some key, some value, none, none, none⟩ (bt'.nodes new)) :
    Shape bt' (some new) (.node new key value .nil .nil) :=
  ⟨rfl, alike.key, alike.value, alike.child .left, alike.child .right⟩

theorem Shape.finds (shape : Shape bt (some a) t) (distinct : t.labels.Nodup) {fuel : Nat}
    (deep : t.labels.length ≤ fuel) : Finds bt a t key fuel := by
  induction t generalizing a fuel with
  | nil => exact nomatch shape
  | node x k w l r left right =>
    obtain ⟨here, atKey, atValue, onLeft, onRight⟩ := shape
    cases here
    cases fuel with
    | zero => exact absurd deep (Nat.not_succ_le_zero _)
    | succ fuel =>
      simp only [SearchTree.labels, List.length_cons, List.length_append] at deep
      obtain ⟨apart, inside⟩ := List.nodup_cons.mp distinct
      obtain ⟨inLeft, inRight, across⟩ := List.nodup_append.mp inside
      have ofLeft : ∀ z ∈ l.labels, z ∈ (SearchTree.node x k w l r).labels :=
        fun z hz => List.mem_cons_of_mem _ (List.mem_append_left _ hz)
      have ofRight : ∀ z ∈ r.labels, z ∈ (SearchTree.node x k w l r).labels :=
        fun z hz => List.mem_cons_of_mem _ (List.mem_append_right _ hz)
      have notLeft : ∀ z ∈ l.labels, z ≠ x := fun z hz eq => apart (eq ▸ List.mem_append_left _ hz)
      have notRight : ∀ z ∈ r.labels, z ≠ x := fun z hz eq => apart (eq ▸ List.mem_append_right _ hz)
      rcases lt_trichotomy key k with smaller | rfl | larger
      · have shallow : l.labels.length ≤ fuel := by omega
        cases l with
        | nil =>
          refine ⟨x, List.mem_cons_self, k, ?_, atKey, ?_, ?_⟩
          · simp only [scanFor, atKey, if_pos smaller]
            rw [show (bt.nodes x).leftChild = none from onLeft]
          · rw [SearchTree.find?, if_pos smaller, if_neg (ne_of_lt smaller)]
            rfl
          · intro bt' new value same stored
            rw [Stored, if_neg (ne_of_lt smaller), if_pos smaller] at stored
            obtain ⟨changed, added⟩ := stored
            rw [SearchTree.put, if_pos smaller]
            refine ⟨rfl, changed.key.trans atKey, changed.value.trans atValue, ?_, ?_⟩
            · rw [changed.child]
              exact Shape.leaf added
            · rw [changed.child]
              exact onRight.frame fun z hz => same z (ofRight z hz) (notRight z hz)
        | node y ky vy ll lr =>
          have link := onLeft.1
          rw [link] at onLeft
          obtain ⟨c, member, ck, scan, keyed, finds, stores⟩ := left onLeft inLeft shallow
          refine ⟨c, ofLeft c member, ck, ?_, keyed, ?_, ?_⟩
          · simp only [scanFor, atKey, if_pos smaller]
            rw [show (bt.nodes x).leftChild = some y from link]
            exact scan
          · rw [SearchTree.find?, if_pos smaller, finds]
          · intro bt' new value same stored
            have alike := same x List.mem_cons_self (Ne.symm (notLeft c member))
            rw [SearchTree.put, if_pos smaller]
            refine ⟨rfl, alike.key.trans atKey, alike.value.trans atValue, ?_, ?_⟩
            · rw [alike.child, link]
              exact stores bt' new value (fun z hz => same z (ofLeft z hz)) stored
            · rw [alike.child]
              exact onRight.frame fun z hz =>
                same z (ofRight z hz) (Ne.symm (across c member z hz))
      · refine ⟨x, List.mem_cons_self, key, ?_, atKey, ?_, ?_⟩
        · simp only [scanFor, atKey, if_neg (lt_irrefl key)]
        · rw [SearchTree.find?, if_neg (lt_irrefl key), if_neg (lt_irrefl key), if_pos rfl, atValue]
        · intro bt' new value same stored
          rw [Stored, if_pos rfl] at stored
          rw [SearchTree.put, if_neg (lt_irrefl key), if_neg (lt_irrefl key)]
          refine ⟨rfl, stored.key.trans atKey, stored.value, ?_, ?_⟩
          · rw [stored.child, child_value]
            exact onLeft.frame fun z hz => same z (ofLeft z hz) (notLeft z hz)
          · rw [stored.child, child_value]
            exact onRight.frame fun z hz => same z (ofRight z hz) (notRight z hz)
      · have shallow : r.labels.length ≤ fuel := by omega
        cases r with
        | nil =>
          refine ⟨x, List.mem_cons_self, k, ?_, atKey, ?_, ?_⟩
          · simp only [scanFor, atKey, if_neg (lt_asymm larger), if_pos larger]
            rw [show (bt.nodes x).rightChild = none from onRight]
          · rw [SearchTree.find?, if_neg (lt_asymm larger), if_pos larger, if_neg (ne_of_gt larger)]
            rfl
          · intro bt' new value same stored
            rw [Stored, if_neg (ne_of_gt larger), if_neg (lt_asymm larger)] at stored
            obtain ⟨changed, added⟩ := stored
            rw [SearchTree.put, if_neg (lt_asymm larger), if_pos larger]
            refine ⟨rfl, (by simpa using changed.key.trans (by simpa using atKey)),
              (by simpa using changed.value.trans (by simpa using atValue)), ?_, ?_⟩
            · rw [changed.child]
              exact onLeft.frame fun z hz => same z (ofLeft z hz) (notLeft z hz)
            · rw [changed.child]
              exact Shape.leaf added
        | node y ky vy rl rr =>
          have link := onRight.1
          rw [link] at onRight
          obtain ⟨c, member, ck, scan, keyed, finds, stores⟩ := right onRight inRight shallow
          refine ⟨c, ofRight c member, ck, ?_, keyed, ?_, ?_⟩
          · simp only [scanFor, atKey, if_neg (lt_asymm larger), if_pos larger]
            rw [show (bt.nodes x).rightChild = some y from link]
            exact scan
          · rw [SearchTree.find?, if_neg (lt_asymm larger), if_pos larger, finds]
          · intro bt' new value same stored
            have alike := same x List.mem_cons_self (Ne.symm (notRight c member))
            rw [SearchTree.put, if_neg (lt_asymm larger), if_pos larger]
            refine ⟨rfl, alike.key.trans atKey, alike.value.trans atValue, ?_, ?_⟩
            · rw [alike.child]
              exact onLeft.frame fun z hz => same z (ofLeft z hz) (across z hz c member)
            · rw [alike.child, link]
              exact stores bt' new value (fun z hz => same z (ofRight z hz)) stored

end Put

section Rotate

/-- What a rotation makes of the links: `c` comes up from below `a` to the place that `p` had
for `a`, and its former child `g` goes to `a`. -/
structure Rotated (s : Side) (bt bt' : BinaryTree K V) (sd : Side) (p a c : Nat) : Prop where
  parent : Alike (withChild sd (bt.nodes p) (some c)) (bt'.nodes p)
  down : Alike (withChild s.other (bt.nodes a) (child s (bt.nodes c))) (bt'.nodes a)
  up : Alike (withChild s (bt.nodes c) (some a)) (bt'.nodes c)
  others : ∀ x, x ≠ p → x ≠ a → x ≠ c → Alike (bt.nodes x) (bt'.nodes x)

def turn : Side → SearchTree Nat K V → SearchTree Nat K V
  | .left => SearchTree.rotateLeft
  | .right => SearchTree.rotateRight

variable {sd : Side} {p : Nat}

theorem Shape.turned (shape : Shape bt (some a) t) (distinct : t.labels.Nodup)
    (link : child s.other (bt.nodes a) = some c) (apart : p ∉ t.labels)
    (rotated : Rotated s bt bt' sd p a c) : Shape bt' (some c) (turn s t) := by
  have stays : ∀ u : SearchTree Nat K V, ∀ q, Shape bt q u →
      (∀ x ∈ u.labels, x ∈ t.labels ∧ x ≠ a ∧ x ≠ c) → Shape bt' q u := by
    intro u q sub others
    refine sub.frame fun x hx => ?_
    obtain ⟨member, notA, notC⟩ := others x hx
    exact rotated.others x (fun same => apart (same ▸ member)) notA notC
  cases t with
  | nil => exact nomatch shape
  | node x k v l r =>
    obtain ⟨here, atKey, atValue, onLeft, onRight⟩ := shape
    cases here
    obtain ⟨root, inside⟩ := List.nodup_cons.mp distinct
    obtain ⟨inLeft, inRight, across⟩ := List.nodup_append.mp inside
    cases s with
    | left =>
      cases r with
      | nil => exact nomatch link.symm.trans onRight
      | node y kc vc g r =>
        obtain ⟨same, keyC, valueC, onG, onR⟩ := onRight
        cases link.symm.trans same
        obtain ⟨notC, below⟩ := List.nodup_cons.mp inRight
        have down := rotated.down
        have up := rotated.up
        refine ⟨rfl, up.key.trans keyC, up.value.trans valueC, ?_, ?_⟩
        · rw [up.child]
          refine ⟨rfl, down.key.trans atKey, down.value.trans atValue, ?_, ?_⟩
          · rw [down.child]
            exact stays l _ onLeft (by simp [SearchTree.labels] at *; grind)
          · rw [down.child]
            exact stays g _ onG (by simp [SearchTree.labels] at *; grind)
        · rw [up.child]
          exact stays r _ onR (by simp [SearchTree.labels] at *; grind)
    | right =>
      cases l with
      | nil => exact nomatch link.symm.trans onLeft
      | node y kc vc l g =>
        obtain ⟨same, keyC, valueC, onL, onG⟩ := onLeft
        cases link.symm.trans same
        obtain ⟨notC, below⟩ := List.nodup_cons.mp inLeft
        have down := rotated.down
        have up := rotated.up
        refine ⟨rfl, up.key.trans keyC, up.value.trans valueC, ?_, ?_⟩
        · rw [up.child]
          exact stays l _ onL (by simp [SearchTree.labels] at *; grind)
        · rw [up.child]
          refine ⟨rfl, down.key.trans atKey, down.value.trans atValue, ?_, ?_⟩
          · rw [down.child]
            exact stays g _ onG (by simp [SearchTree.labels] at *; grind)
          · rw [down.child]
            exact stays r _ onRight (by simp [SearchTree.labels] at *; grind)

theorem Shape.rotatedAt (shape : Shape bt q t) (distinct : t.labels.Nodup) (member : p ∈ t.labels)
    (holds : child sd (bt.nodes p) = some a) (link : child s.other (bt.nodes a) = some c)
    (rotated : Rotated s bt bt' sd p a c) : Shape bt' q (t.rotateAt (turn s) a) := by
  have frame : ∀ u q, Shape bt q u → p ∉ u.labels → a ∉ u.labels → c ∉ u.labels →
      Shape bt' q (u.rotateAt (turn s) a) := by
    intro u q sub noP noA noC
    rw [SearchTree.rotateAt_absent noA]
    exact sub.frame fun x hx => rotated.others x (fun same => noP (same ▸ hx))
      (fun same => noA (same ▸ hx)) (fun same => noC (same ▸ hx))
  induction t generalizing q with
  | nil => exact absurd member List.not_mem_nil
  | node x k v l r left right =>
    obtain ⟨here, atKey, atValue, onLeft, onRight⟩ := shape
    obtain ⟨apart, inside⟩ := List.nodup_cons.mp distinct
    obtain ⟨inLeft, inRight, across⟩ := List.nodup_append.mp inside
    have notLeft : x ∉ l.labels := fun hx => apart (List.mem_append_left _ hx)
    have notRight : x ∉ r.labels := fun hx => apart (List.mem_append_right _ hx)
    have onlyLeft : ∀ z ∈ l.labels, z ∉ r.labels := fun z hl hr => across z hl z hr rfl
    have onlyRight : ∀ z ∈ r.labels, z ∉ l.labels := fun z hr hl => across z hl z hr rfl
    rcases List.mem_cons.mp member with rfl | below
    · have parent := rotated.parent
      cases sd with
      | left =>
        rw [holds] at onLeft
        have inA := onLeft.root_mem
        have inC := onLeft.child_mem inA link
        have other : p ≠ a := fun same => notLeft (same ▸ inA)
        rw [SearchTree.rotateAt, if_neg other]
        refine ⟨here, parent.key.trans atKey, parent.value.trans atValue, ?_, ?_⟩
        · rw [parent.child]
          have root : l.rotateAt (turn s) a = turn s l := by
            cases l with
            | nil => cases onLeft
            | node y ky vy ll lr =>
              cases onLeft.1
              rw [SearchTree.rotateAt, if_pos rfl]
          rw [root]
          exact onLeft.turned inLeft link notLeft rotated
        · rw [parent.child]
          exact frame r _ onRight notRight (onlyLeft a inA) (onlyLeft c inC)
      | right =>
        rw [holds] at onRight
        have inA := onRight.root_mem
        have inC := onRight.child_mem inA link
        have other : p ≠ a := fun same => notRight (same ▸ inA)
        rw [SearchTree.rotateAt, if_neg other]
        refine ⟨here, parent.key.trans atKey, parent.value.trans atValue, ?_, ?_⟩
        · rw [parent.child]
          exact frame l _ onLeft notLeft (onlyRight a inA) (onlyRight c inC)
        · rw [parent.child]
          have root : r.rotateAt (turn s) a = turn s r := by
            cases r with
            | nil => cases onRight
            | node y ky vy rl rr =>
              cases onRight.1
              rw [SearchTree.rotateAt, if_pos rfl]
          rw [root]
          exact onRight.turned inRight link notRight rotated
    · have notP : x ≠ p := fun same => apart (same ▸ below)
      rcases List.mem_append.mp below with inP | inP
      · have inA := onLeft.child_mem inP holds
        have inC := onLeft.child_mem inA link
        have alike := rotated.others x notP (fun same => notLeft (same ▸ inA))
          (fun same => notLeft (same ▸ inC))
        rw [SearchTree.rotateAt, if_neg fun same : x = a => notLeft (same ▸ inA)]
        refine ⟨here, alike.key.trans atKey, alike.value.trans atValue, ?_, ?_⟩
        · rw [alike.child]
          exact left onLeft inLeft inP
        · rw [alike.child]
          exact frame r _ onRight (onlyLeft p inP) (onlyLeft a inA) (onlyLeft c inC)
      · have inA := onRight.child_mem inP holds
        have inC := onRight.child_mem inA link
        have alike := rotated.others x notP (fun same => notRight (same ▸ inA))
          (fun same => notRight (same ▸ inC))
        rw [SearchTree.rotateAt, if_neg fun same : x = a => notRight (same ▸ inA)]
        refine ⟨here, alike.key.trans atKey, alike.value.trans atValue, ?_, ?_⟩
        · rw [alike.child]
          exact frame l _ onLeft (onlyRight p inP) (onlyRight a inA) (onlyRight c inC)
        · rw [alike.child]
          exact right onRight inRight inP

theorem nodes_setParent : (bt.setParent a q).nodes x =
    if x = a then { bt.nodes a with treeParent := q } else bt.nodes x := nodes_setNode _

theorem nodes_setChild : (bt.setChild s a q).nodes x =
    if x = a then withChild s (bt.nodes a) q else bt.nodes x := nodes_setNode _

theorem alike_setParent (bt : BinaryTree K V) (a : Nat) (q : Option Nat) (x : Nat) :
    Alike (bt.nodes x) ((bt.setParent a q).nodes x) := by
  rw [nodes_setParent]
  split
  · next same =>
    subst same
    exact ⟨rfl, rfl, fun s => by cases s <;> rfl⟩
  · exact Alike.refl _

theorem Alike.trans {n n' n'' : TreeNode K V} (first : Alike n n') (second : Alike n' n'') :
    Alike n n'' :=
  ⟨second.key.trans first.key, second.value.trans first.value,
    fun s => (second.child s).trans (first.child s)⟩

theorem Rotated.alike {bt'' : BinaryTree K V} (rotated : Rotated s bt bt' sd p a c)
    (same : ∀ x, Alike (bt'.nodes x) (bt''.nodes x)) : Rotated s bt bt'' sd p a c :=
  ⟨rotated.parent.trans (same p), rotated.down.trans (same a), rotated.up.trans (same c),
    fun x notP notA notC => (rotated.others x notP notA notC).trans (same x)⟩

theorem rotated_children (notPA : p ≠ a) (notPC : p ≠ c) (notAC : a ≠ c) :
    Rotated s bt (((bt.setChild s c (some a)).setChild s.other a (child s (bt.nodes c))).setChild sd p
      (some c)) sd p a c := by
  constructor
  · rw [nodes_setChild, if_pos rfl, nodes_setChild, if_neg notPA, nodes_setChild, if_neg notPC]
    exact Alike.refl _
  · rw [nodes_setChild, if_neg (Ne.symm notPA), nodes_setChild, if_pos rfl, nodes_setChild,
      if_neg notAC]
    exact Alike.refl _
  · rw [nodes_setChild, if_neg (Ne.symm notPC), nodes_setChild, if_neg (Ne.symm notAC),
      nodes_setChild, if_pos rfl]
    exact Alike.refl _
  · intro x notP notA notC
    rw [nodes_setChild, if_neg notP, nodes_setChild, if_neg notA, nodes_setChild, if_neg notC]
    exact Alike.refl _

theorem rotate_run (parent : (bt.nodes a).treeParent = some p)
    (held : ∃ sd, child sd (bt.nodes p) = some a) (link : child s.other (bt.nodes a) = some c)
    (notPA : p ≠ a) (notPC : p ≠ c) (notAC : a ≠ c) :
    ∃ sd bt', child sd (bt.nodes p) = some a ∧
      rotate s bt a = some (bt', (child s (bt.nodes c)).isSome) ∧ Rotated s bt bt' sd p a c ∧
      bt'.used = bt.used := by
  have side : child (if (bt.nodes p).leftChild = some a then .left else .right) (bt.nodes p) =
      some a := by
    split
    · next left => exact left
    · next notLeft =>
      obtain ⟨sd, holds⟩ := held
      cases sd with
      | left => exact absurd holds notLeft
      | right => exact holds
  have unchanged : (((bt.setChild s c (some a)).setChild s.other a
      (child s (bt.nodes c))).nodes p).leftChild = (bt.nodes p).leftChild := by
    rw [nodes_setChild, if_neg notPA, nodes_setChild, if_neg notPC]
  have children := @rotated_children K V bt a c s
    (if (bt.nodes p).leftChild = some a then .left else .right) p notPA notPC notAC
  have parents := (children.alike (alike_setParent _ c (some p))).alike
    (alike_setParent _ a (some c))
  simp only [rotate, parent, link, Option.bind_eq_bind, Option.bind_some, unchanged]
  cases inner : child s (bt.nodes c) with
  | none =>
    rw [inner] at parents
    exact ⟨_, _, side, rfl, parents, rfl⟩
  | some g =>
    rw [inner] at parents
    exact ⟨_, _, side, rfl, parents.alike (alike_setParent _ g (some a)), rfl⟩

end Rotate

end SlateVm.Collections.BinaryTree
