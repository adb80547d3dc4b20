import SlateVm.Collections.TrieNodes

/-! `Trie` beside the finite map on key sequences. -/
namespace SlateVm.Collections.Trie

open Walks Refinement

variable {κ β : Type} {h : KeyHashing κ} {equals : κ → κ → Bool} {nodes : Nodes κ β}
  {m : KeySequence κ → Option β} {s t : KeySequence κ}

def Alike (equals : κ → κ → Bool) (s t : KeySequence κ) : Prop := List.Forall₂ (same equals) s t

open Classical in
noncomputable def store (equals : κ → κ → Bool) (m : KeySequence κ → Option β)
    (s : KeySequence κ) (obj : Option β) : KeySequence κ → Option β :=
  fun t => if Alike equals s t then obj else m t

noncomputable def Op.after (equals : κ → κ → Bool) (m : KeySequence κ → Option β) :
    Op κ β → KeySequence κ → Option β
  | .atPut s obj => store equals m s obj
  | .remove s => store equals m s none
  | _ => m

/-- The answers that are right for the map `m`; of the number that `size` answers nothing is
asked. -/
def Op.right (m : KeySequence κ → Option β) : Op κ β → Answer κ β → Prop
  | .atPut _ obj, a => a = .value obj
  | .at s, a => a = .value (m s)
  | .includes s, a => a = .truth (m s).isSome
  | .size, a => ∃ n, a = .number n
  | .remove s, a => a = .key s

/-- What a reached trie shows: the values, and the parents of the children. -/
structure Shows (h : KeyHashing κ) (nodes : Nodes κ β) (m : KeySequence κ → Option β) : Prop where
  values : ∀ s, valueAt h nodes s = m s
  parents : ∀ node each child, kid h nodes node each = some child →
    parentOf nodes child = some node

/-- Where a pass over a key comes from a node, skipping the elements under which there is no
child. -/
def drift (kid : Nat → Option κ → Option Nat) (node : Nat) (s : KeySequence κ) : Nat :=
  s.foldl (fun node each => (kid node each).getD node) node

/-- Passes over a key, one after the other, end at a node when its last element leads from
there to no child. -/
inductive Ends (kid : Nat → Option κ → Option Nat) (front : KeySequence κ) (last : Option κ) :
    Nat → Nat → Prop where
  | stops {node : Nat} : kid (drift kid node front) last = none →
      Ends kid front last node (drift kid node front)
  | again {node child end_ : Nat} : kid (drift kid node front) last = some child →
      Ends kid front last child end_ → Ends kid front last node end_

/-- Going up from a node, with the number of children that are left to it, only childless
nodes are cut off, by removals that strand no other key. -/
inductive Harmless (h : KeyHashing κ) (nodes : Nodes κ β) : Nat → Int → Prop where
  | stays {node : Nat} {left : Int} {record : TrieNode κ β} : nodes[node]? = some record →
      record.element.isSome = true ∨ 1 < left ∨ record.treeParent = none →
      Harmless h nodes node left
  | goes {node parent : Nat} {record above : TrieNode κ β} : nodes[node]? = some record →
      record.treeParent = some parent → nodes[parent]? = some above →
      (∀ k, kid h nodes parent (some k) = some node →
        Dictionary.Spares h above.children (.removeKey (some k))) →
      Harmless h nodes parent (above.children.size - 1) → Harmless h nodes node 0

def Plain (h : KeyHashing κ) (equals : κ → κ → Bool) (s : KeySequence κ) : Prop :=
  ∀ k, some k ∈ s → ∀ b, equals k b = h.equals k b

def Spares (h : KeyHashing κ) (equals : κ → κ → Bool) (nodes : Nodes κ β) : Op κ β → Prop
  | .atPut s _ => Plain h equals s ∧ none ∉ s ∧
    (elementOf nodes 0 = none ∨ (walk (kid h nodes) 0 s.dropLast).isSome = true)
  | .at s | .includes s => (walk (kid h nodes) 0 s.dropLast).isSome = true
  | .size => True
  | .remove s => Plain h equals s ∧ ∃ front last, s = front ++ [last] ∧
    ∀ node record, Ends (kid h nodes) front last 0 node → nodes[node]? = some record →
      (walk (kid h nodes) 0 s = some node ∨ record.element = none ∧ valueAt h nodes s = none) ∧
      Harmless h (nodes.set node { record with element := none }) node record.children.size

noncomputable def implementation (h : KeyHashing κ) (equals : κ → κ → Bool) :
    Implementation (Nodes κ β) (KeySequence κ → Option β) (Op κ β) (Answer κ β) where
  start nodes m := ∃ n, nodes = new n ∧ m = fun _ => none
  perform := perform h
  next m op _ := op.after equals m
  right m op a := op.right m a

structure Keeps (h : KeyHashing κ) (nodes : Nodes κ β) (m : KeySequence κ → Option β) : Prop where
  formed : Formed h nodes
  values : ∀ s, valueAt h nodes s = m s

theorem Plain.alike (plain : Plain h equals s) (t : KeySequence κ) :
    Alike equals s t ↔ Alike h.equals s t := by
  induction s generalizing t with
  | nil => cases t <;> simp [Alike]
  | cons e s ih =>
    have rest : Plain h equals s := fun k member => plain k (List.mem_cons_of_mem _ member)
    cases t with
    | nil => simp [Alike]
    | cons e' t =>
      have tails := ih rest t
      have heads : same equals e e' ↔ same h.equals e e' := by
        cases e with
        | none => cases e' <;> exact Iff.rfl
        | some k =>
          cases e' with
          | none => exact Iff.rfl
          | some k' =>
            simp only [same]
            rw [plain k (List.mem_cons_self ..) k']
      simp only [Alike, List.forall₂_cons] at tails ⊢
      rw [heads, tails]

theorem Plain.store (plain : Plain h equals s) {obj : Option β} {v : KeySequence κ → Option β}
    (set_ : ∀ t, Alike h.equals s t → v t = obj) (kept : ∀ t, ¬ Alike h.equals s t → v t = m t)
    (t : KeySequence κ) : v t = store equals m s obj t := by
  unfold Trie.store
  split
  · rename_i alike
    exact set_ t ((plain.alike t).mp alike)
  · rename_i off
    exact kept t fun alike => off ((plain.alike t).mpr alike)

theorem represents_blank (n : Nat) :
    (Dictionary.new n : Dictionary κ Nat).Represents h fun _ => none :=
  Dictionary.represents_new n

theorem kid_new (n i : Nat) (e : Option κ) : kid h (new n : Nodes κ β) i e = none := by
  cases i with
  | zero =>
    have root : (new n : Nodes κ β)[0]? = some ⟨none, none, Dictionary.new n⟩ := rfl
    rw [kid_of root (represents_blank n)]
    cases e <;> rfl
  | succ i => exact kid_beyond (by simp [new]) e

theorem formed_new (n : Nat) : Formed h (new n : Nodes κ β) := by
  constructor
  · simp [new]
  · intro i record there
    simp only [kid_new]
    cases i with
    | zero =>
      cases there
      exact represents_blank n
    | succ i => simp [new] at there
  · constructor
    · rfl
    · simp [kid_new]
    · simp [kid_new]
    · simp [kid_new]
  · simp [kid_new]

section Looking

variable (formed : Formed h nodes)
include formed

theorem nodeFor_walks {i : Nat} (inside : i < nodes.length)
    (reaches : (walk (kid h nodes) i s.dropLast).isSome = true) :
    s.foldlM (fun node each => node.bind fun node => childAt h nodes node each) (some i) =
      some (walk (kid h nodes) i s) := by
  induction s generalizing i with
  | nil => rfl
  | cons e s ih =>
    rw [List.foldlM_cons, Option.bind_some, formed.childAt_eq inside, walk_cons]
    cases s with
    | nil =>
      simp only [Option.bind_eq_bind, Option.bind_some, List.foldlM_nil]
      cases kid h nodes i e <;> rfl
    | cons e' s =>
      rw [List.dropLast_cons_cons, walk_cons] at reaches
      cases step : kid h nodes i e with
      | none => simp [step] at reaches
      | some c =>
        rw [step, Option.bind_some] at reaches
        exact ih (formed.ascends i e c step).2 reaches

theorem lookAt_eq (reaches : (walk (kid h nodes) 0 s.dropLast).isSome = true) :
    lookAt h nodes s = some (valueAt h nodes s) := by
  have found : nodeFor h nodes s = some (walk (kid h nodes) 0 s) :=
    nodeFor_walks formed formed.trie reaches
  unfold lookAt valueAt
  simp only [found, Option.bind_eq_bind, Option.bind_some]
  cases walked : walk (kid h nodes) 0 s with
  | none => rfl
  | some c =>
    have within := (formed.walk_inside formed.trie walked).2
    simp [elementOf, List.getElem?_eq_getElem within]

theorem sizeFrom_ends (depth : Nat) {i : Nat} (inside : i < nodes.length)
    (enough : nodes.length ≤ depth + i) : ∃ n, sizeFrom nodes depth i = some n := by
  induction depth generalizing i with
  | zero => omega
  | succ depth ih =>
    obtain ⟨record, here⟩ := Formed.record inside
    have lists := (formed.dicts i record here).shows.lists
    have each : ∀ pair ∈ record.children.visits,
        ∃ n, pair.2.bind (sizeFrom nodes depth) = some n := by
      rintro ⟨b, v⟩ member
      have there := (lists.content b v).mpr ⟨b, member, h.refl b⟩
      obtain ⟨c, step, rfl⟩ := Option.map_eq_some_iff.mp there
      obtain ⟨up, within⟩ := formed.ascends i (some b) c step
      exact ih within (by omega)
    have all : ∃ sizes, record.children.visits.mapM
        (fun pair => pair.2.bind (sizeFrom nodes depth)) = some sizes := by
      generalize record.children.visits = pairs at each
      clear lists
      induction pairs with
      | nil => exact ⟨[], rfl⟩
      | cons pair pairs more =>
        obtain ⟨n, first⟩ := each pair (List.mem_cons_self ..)
        obtain ⟨sizes, rest⟩ := more fun p member => each p (List.mem_cons_of_mem _ member)
        refine ⟨n :: sizes, ?_⟩
        rw [List.mapM_cons]
        simp only [first, rest, Option.bind_eq_bind, Option.bind_some]
        rfl
    obtain ⟨sizes, all⟩ := all
    refine ⟨sizes.foldl (· + ·) record.children.size, ?_⟩
    simp only [sizeFrom, here, Option.bind_eq_bind, Option.bind_some]
    exact Option.bind_eq_some_iff.mpr ⟨sizes, all, rfl⟩

theorem descend_walks {i : Nat} (inside : i < nodes.length) (s : KeySequence κ) :
    ∃ pre rest node, descend h nodes i s = some (node, rest) ∧ s = pre ++ rest ∧
      walk (kid h nodes) i pre = some node ∧
      ∀ e more, rest = e :: more → kid h nodes node e = none := by
  induction s generalizing i with
  | nil => exact ⟨[], [], i, rfl, rfl, rfl, by simp⟩
  | cons e s ih =>
    have found := formed.childAt_eq inside e
    cases step : kid h nodes i e with
    | none =>
      refine ⟨[], e :: s, i, ?_, rfl, rfl, ?_⟩
      · simp only [descend, found, step, Option.bind_eq_bind, Option.bind_some]
      · intro e' more first
        cases first
        exact step
    | some c =>
      obtain ⟨pre, rest, node, run, rfl, walked, missing⟩ := ih (formed.ascends i e c step).2
      refine ⟨e :: pre, rest, node, ?_, rfl, ?_, missing⟩
      · simp only [descend, found, step, Option.bind_eq_bind, Option.bind_some, run]
      · rw [walk_cons, step]
        exact walked

end Looking

theorem addNodes (formed : Formed h nodes) {node : Nat} {pre rest : KeySequence κ}
    (walked : walk (kid h nodes) 0 pre = some node)
    (missing : ∀ e more, rest = e :: more → kid h nodes node e = none) (keys : none ∉ rest) :
    ∃ nodes' last, rest.foldlM (fun (nodes, node) each => addNode h nodes node each)
        (nodes, node) = some (nodes', last) ∧ Formed h nodes' ∧
      walk (kid h nodes') 0 (pre ++ rest) = some last ∧
      elementOf nodes' 0 = elementOf nodes 0 ∧
      (elementOf nodes 0 = none ∨ rest.length ≤ 1 →
        ∀ t, ¬ Alike h.equals (pre ++ rest) t → valueAt h nodes' t = valueAt h nodes t) := by
  induction rest generalizing nodes node pre with
  | nil =>
    refine ⟨nodes, node, rfl, formed, by simpa using walked, rfl, fun _ _ _ => rfl⟩
  | cons e rest ih =>
    obtain ⟨k, rfl⟩ : ∃ k, e = some k := by
      cases e with
      | none => exact absurd (List.mem_cons_self ..) keys
      | some k => exact ⟨k, rfl⟩
    have trie := formed.trie
    have within := (formed.walk_inside trie walked).2
    obtain ⟨nodes₁, run, formed₁, grafted, elements⟩ :=
      formed.addNode within (missing (some k) rest rfl)
    have walks := walk_grafted formed.rooted grafted walked (by omega)
    have to_new : walk (kid h nodes₁) 0 (pre ++ [some k]) = some nodes.length :=
      (walks _).1 (List.forall₂_same.mpr fun e _ => (same_equivalence h).refl e)
    obtain ⟨nodes₂, last, runs, formed₂, walked₂, root, values⟩ := ih formed₁ to_new
      (fun e more _ => grafted.leaf e) fun member => keys (List.mem_cons_of_mem _ member)
    have root₁ : elementOf nodes₁ 0 = elementOf nodes 0 := by
      rw [elements, if_neg (by omega)]
    refine ⟨nodes₂, last, ?_, formed₂, by simpa using walked₂, root.trans root₁, ?_⟩
    · rw [List.foldlM_cons]
      simp only [run, Option.bind_eq_bind, Option.bind_some]
      exact runs
    · intro few t off
      rw [values (by
        rcases few with bare | short
        · exact .inl (root₁.trans bare)
        · rw [List.length_cons] at short
          exact .inr (by omega)) t (by simpa using off)]
      unfold valueAt
      rcases Classical.em (List.Forall₂ (same h.equals) (pre ++ [some k]) t) with new | old
      · have before : walk (kid h nodes) 0 t = none := by
          rw [← formed.rooted.walk_same new, walk_concat, walked]
          exact grafted.missing
        have more : rest ≠ [] := by
          rintro rfl
          exact off new
        have bare : elementOf nodes 0 = none := by
          rcases few with bare | short
          · exact bare
          · have positive := List.length_pos_of_ne_nil more
            rw [List.length_cons] at short
            omega
        rw [(walks t).1 new, before, Option.bind_some, elements, if_pos rfl, bare]
        rfl
      · rw [(walks t).2 old]
        cases to_j : walk (kid h nodes) 0 t with
        | none => rfl
        | some j =>
          have inside := (formed.walk_inside trie to_j).2
          rw [Option.bind_some, Option.bind_some, elements, if_neg (by omega)]

end SlateVm.Collections.Trie
