import Mathlib.Data.Finset.Sort
import Mathlib.Logic.Function.Basic

/-! The merging of a node's transitions in a keyed digraph (src/lib/digraph.slate). -/

namespace SlateVm.KeyedDigraph

variable {Edge Node Key : Type} [DecidableEq Edge] [DecidableEq Node] [LinearOrder Key]

def union (keys keys2 : List Key) : List Key :=
  (keys.toFinset ∪ keys2.toFinset).sort (· ≤ ·)

/-- What the merging changes: the node's `transitions`, the `keys` slots of the edges and the
dictionary `targetMap`. An edge is an object; its `target` stays. -/
structure State (Edge Node Key : Type) where
  transitions : List Edge
  keys : Edge → List Key
  targetMap : Node → Option Edge

variable (target : Edge → Node)

def equals (keys : Edge → List Key) (edge edge2 : Edge) : Bool :=
  decide (target edge = target edge2 ∧ keys edge = keys edge2)

def mergeWith (keys : Edge → List Key) (edge edge2 : Edge) : Edge → List Key :=
  Function.update keys edge (union (keys edge) (keys edge2))

/-- The block that `mergeKeyTransitions` applies to each element of the copy. `remove:` takes out
the first transition that is equal to its argument. -/
def State.visit (s : State Edge Node Key) (each : Edge) : State Edge Node Key :=
  match s.targetMap (target each) with
  | some edge =>
    let keys := mergeWith s.keys edge each
    { s with keys, transitions := s.transitions.eraseP (equals target keys each) }
  | none => { s with targetMap := Function.update s.targetMap (target each) (some each) }

def mergeKeyTransitions (transitions : List Edge) (keys : Edge → List Key) :
    State Edge Node Key :=
  transitions.foldl (State.visit target) ⟨transitions, keys, fun _ => none⟩

def edgesTo (transitions : List Edge) (node : Node) : List Edge :=
  transitions.filter fun edge => target edge = node

def Leads (transitions : List Edge) (keys : Edge → List Key) (key : Key) (node : Node) : Prop :=
  ∃ edge ∈ edgesTo target transitions node, key ∈ keys edge

/-- The merging leaves one transition for each target and the same automaton. -/
structure Preserves (transitions : List Edge) (keys : Edge → List Key) : Prop where
  one : ∀ node, (edgesTo target (mergeKeyTransitions target transitions keys).transitions
    node).length ≤ 1
  leads : ∀ key node, Leads target (mergeKeyTransitions target transitions keys).transitions
    (mergeKeyTransitions target transitions keys).keys key node ↔
      Leads target transitions keys key node

def keysOf (keys : Edge → List Key) (edges : List Edge) : Finset Key :=
  (edges.flatMap keys).toFinset

/-- Among the edges to one target: an edge other than the first has exactly the keys of all edges
up to itself, and a later one, met before the first edge is met again, has a key more. -/
def Loses (keys : Edge → List Key) : List Edge → Prop
  | [] => False
  | first :: rest => ∃ before edge between later behind,
    rest = before ++ edge :: between ++ later :: behind ∧ edge ≠ first ∧ first ∉ between ∧
      keys edge = (keysOf keys (first :: (before ++ [edge]))).sort (· ≤ ·) ∧
        ¬ keys later ⊆ keys edge

section Survivor

variable (keys : Edge → List Key) (first : Edge)

/-- The keys of an edge to the target after the edges `met` behind the first, newest first. -/
def now (met : List Edge) (edge : Edge) : List Key :=
  if edge = first ∧ met ≠ [] then (keysOf keys (first :: met)).sort (· ≤ ·) else keys edge

def survivor : List Edge → Edge
  | [] => first
  | edge :: met =>
    if now keys first (edge :: met) edge = now keys first (edge :: met) (survivor met) then edge
    else survivor met

end Survivor

variable {target} {keys : Edge → List Key} {first : Edge} {met : List Edge}

attribute [local simp] State.visit survivor edgesTo keysOf equals mergeWith

omit [DecidableEq Edge] in
theorem mem_keysOf {edges : List Edge} {key : Key} :
    key ∈ keysOf keys edges ↔ ∃ edge ∈ edges, key ∈ keys edge := by
  rw [keysOf, List.mem_toFinset, List.mem_flatMap]

theorem now_first (edge : Edge) (met : List Edge) :
    now keys first (edge :: met) first = (keysOf keys (first :: edge :: met)).sort (· ≤ ·) :=
  if_pos ⟨rfl, List.cons_ne_nil _ _⟩

theorem now_other {edge : Edge} (other : edge ≠ first) (met : List Edge) :
    now keys first met edge = keys edge :=
  if_neg fun same => other same.1

def Replaced (keys : Edge → List Key) (first : Edge) (met : List Edge) : Prop :=
  survivor keys first met ≠ first ∧
    keys (survivor keys first met) = (keysOf keys (first :: met)).sort (· ≤ ·)

def Lost (keys : Edge → List Key) (first : Edge) (met : List Edge) : Prop :=
  survivor keys first met ≠ first ∧
    ∃ key ∈ keysOf keys (first :: met), key ∉ keys (survivor keys first met)

omit [DecidableEq Edge] in
theorem keysOf_grows (edge : Edge) :
    keysOf keys (first :: met) ⊆ keysOf keys (first :: edge :: met) := by
  intro key member
  obtain ⟨e, among, has⟩ := mem_keysOf.mp member
  refine mem_keysOf.mpr ⟨e, ?_, has⟩
  rcases List.mem_cons.mp among with same | among
  · exact List.mem_cons.mpr (Or.inl same)
  · exact List.mem_cons.mpr (Or.inr (List.mem_cons_of_mem _ among))

omit [DecidableEq Edge] in
theorem keysOf_same {edge : Edge} (within : ∀ key ∈ keys edge, key ∈ keysOf keys (first :: met)) :
    keysOf keys (first :: edge :: met) = keysOf keys (first :: met) := by
  apply Finset.Subset.antisymm
  · intro key member
    obtain ⟨e, among, has⟩ := mem_keysOf.mp member
    simp only [List.mem_cons] at among
    rcases among with same | same | among
    · exact mem_keysOf.mpr ⟨e, List.mem_cons.mpr (Or.inl same), has⟩
    · exact within key (same ▸ has)
    · exact mem_keysOf.mpr ⟨e, List.mem_cons_of_mem _ among, has⟩
  · exact keysOf_grows edge

theorem Lost.cons (lost : Lost keys first met) (edge : Edge) : Lost keys first (edge :: met) := by
  obtain ⟨other, key, member, missing⟩ := lost
  have member' := keysOf_grows edge member
  rw [Lost, survivor, now_other other]
  by_cases same : now keys first (edge :: met) edge = keys (survivor keys first met)
  · rw [if_pos same]
    have differs : edge ≠ first := by
      rintro rfl
      rw [now_first] at same
      exact missing (same ▸ (Finset.mem_sort _).mpr member')
    rw [now_other differs] at same
    exact ⟨differs, key, member', same ▸ missing⟩
  · rw [if_neg same]
    exact ⟨other, key, member', missing⟩

theorem survivor_replaces {edge : Edge} (kept : survivor keys first met = first)
    (differs : edge ≠ first)
    (all : keys edge = (keysOf keys (first :: edge :: met)).sort (· ≤ ·)) :
    survivor keys first (edge :: met) = edge := by
  rw [survivor, kept, now_first, now_other differs, if_pos all]

theorem Replaced.cons (replaced : Replaced keys first met) {edge : Edge} (differs : edge ≠ first) :
    keys (survivor keys first (edge :: met)) = keys (survivor keys first met) ∧
      survivor keys first (edge :: met) ≠ first := by
  rw [survivor, now_other replaced.1, now_other differs]
  by_cases same : keys edge = keys (survivor keys first met)
  · rw [if_pos same]
    exact ⟨same, differs⟩
  · rw [if_neg same]
    exact ⟨rfl, replaced.1⟩

theorem Replaced.cases_cons (replaced : Replaced keys first met) {edge : Edge}
    (differs : edge ≠ first) :
    Replaced keys first (edge :: met) ∧ keys edge ⊆ keys (survivor keys first met) ∨
      Lost keys first (edge :: met) ∧ ¬ keys edge ⊆ keys (survivor keys first met) := by
  obtain ⟨same, other⟩ := replaced.cons differs
  by_cases within : keys edge ⊆ keys (survivor keys first met)
  · refine Or.inl ⟨⟨other, ?_⟩, within⟩
    rw [same, replaced.2, keysOf_same]
    intro key has
    have member := within has
    rw [replaced.2, Finset.mem_sort] at member
    exact member
  · refine Or.inr ⟨⟨other, ?_⟩, within⟩
    have ⟨key, has, missing⟩ : ∃ key ∈ keys edge, key ∉ keys (survivor keys first met) := by
      simpa only [List.subset_def, not_forall, exists_prop] using within
    refine ⟨key, mem_keysOf.mpr ⟨edge, ?_, has⟩, same ▸ missing⟩
    exact List.mem_cons_of_mem _ List.mem_cons_self

theorem Replaced.cons_first (replaced : Replaced keys first met) :
    survivor keys first (first :: met) = first := by
  rw [survivor, now_first, now_other replaced.1, replaced.2, keysOf_same, if_pos rfl]
  intro key has
  exact mem_keysOf.mpr ⟨first, List.mem_cons_self, has⟩

theorem kept_cons (kept : survivor keys first met = first) (edge : Edge) :
    survivor keys first (edge :: met) = first ∨
      edge ≠ first ∧ survivor keys first (edge :: met) = edge ∧
        keys edge = (keysOf keys (first :: edge :: met)).sort (· ≤ ·) := by
  by_cases differs : edge = first
  · left
    rw [survivor, kept, differs, ite_self]
  by_cases all : keys edge = (keysOf keys (first :: edge :: met)).sort (· ≤ ·)
  · exact Or.inr ⟨differs, survivor_replaces kept differs all, all⟩
  · left
    rw [survivor, kept, now_first, now_other differs, if_neg all]

theorem survivor_cases (keys : Edge → List Key) (first : Edge) (met : List Edge) :
    survivor keys first met = first ∨ Replaced keys first met ∨ Lost keys first met := by
  induction met with
  | nil => exact Or.inl rfl
  | cons edge met ih =>
    rcases ih with kept | replaced | lost
    · rcases kept_cons kept edge with kept | ⟨differs, takes, all⟩
      · exact Or.inl kept
      · exact Or.inr (Or.inl ⟨takes.symm ▸ differs, (congrArg keys takes).trans all⟩)
    · by_cases differs : edge = first
      · exact Or.inl (differs ▸ replaced.cons_first)
      · exact Or.inr ((replaced.cases_cons differs).imp And.left And.left)
    · exact Or.inr (Or.inr (lost.cons edge))

theorem Lost.not_replaced (lost : Lost keys first met) : ¬ Replaced keys first met := by
  intro replaced
  obtain ⟨-, key, member, missing⟩ := lost
  rw [replaced.2, Finset.mem_sort] at missing
  exact missing member

theorem Replaced.traced (replaced : Replaced keys first met) :
    ∃ between edge before, met = between ++ edge :: before ∧ edge ≠ first ∧ first ∉ between ∧
      keys edge = (keysOf keys (first :: edge :: before)).sort (· ≤ ·) ∧
        keys (survivor keys first met) = keys edge := by
  induction met with
  | nil => exact absurd rfl replaced.1
  | cons edge met ih =>
    rcases survivor_cases keys first met with kept | earlier | lost
    · rcases kept_cons kept edge with kept | ⟨differs, takes, all⟩
      · exact absurd kept replaced.1
      · exact ⟨[], edge, met, rfl, differs, List.not_mem_nil, all, congrArg keys takes⟩
    · by_cases differs : edge = first
      · exact absurd (differs ▸ earlier.cons_first) replaced.1
      · obtain ⟨between, e, before, split, other, apart, all, same⟩ := ih earlier
        refine ⟨edge :: between, e, before, congrArg (edge :: ·) split, other, ?_, all, ?_⟩
        · exact List.not_mem_cons_of_ne_of_not_mem (Ne.symm differs) apart
        · exact (earlier.cons differs).1.trans same
    · exact absurd replaced (lost.cons edge).not_replaced

def LosesBack (keys : Edge → List Key) (first : Edge) (met : List Edge) : Prop :=
  ∃ behind later between edge before,
    met = behind ++ later :: (between ++ edge :: before) ∧ edge ≠ first ∧ first ∉ between ∧
      keys edge = (keysOf keys (first :: edge :: before)).sort (· ≤ ·) ∧
        ¬ keys later ⊆ keys edge

theorem Lost.losesBack (lost : Lost keys first met) : LosesBack keys first met := by
  induction met with
  | nil => exact absurd rfl lost.1
  | cons later met ih =>
    rcases survivor_cases keys first met with kept | replaced | earlier
    · rcases kept_cons kept later with kept | ⟨differs, takes, all⟩
      · exact absurd kept lost.1
      · exact absurd ⟨takes.symm ▸ differs, (congrArg keys takes).trans all⟩ lost.not_replaced
    · by_cases differs : later = first
      · exact absurd (differs ▸ replaced.cons_first) lost.1
      rcases replaced.cases_cons differs with ⟨still, -⟩ | ⟨-, more⟩
      · exact absurd still lost.not_replaced
      · obtain ⟨between, edge, before, split, other, apart, all, same⟩ := replaced.traced
        exact ⟨[], later, between, edge, before, congrArg (later :: ·) split, other, apart, all,
          same ▸ more⟩
    · obtain ⟨behind, e, between, edge, before, split, rest⟩ := ih earlier
      exact ⟨later :: behind, e, between, edge, before, congrArg (later :: ·) split, rest⟩

theorem Lost.append (lost : Lost keys first met) (behind : List Edge) :
    Lost keys first (behind ++ met) := by
  induction behind with
  | nil => exact lost
  | cons edge behind ih => exact ih.cons edge

theorem held_between {before : List Edge} {edge : Edge} (differs : edge ≠ first)
    (all : keys edge = (keysOf keys (first :: edge :: before)).sort (· ≤ ·))
    {between : List Edge} (apart : first ∉ between) :
    Replaced keys first (between ++ edge :: before) ∧
        keys (survivor keys first (between ++ edge :: before)) = keys edge ∨
      Lost keys first (between ++ edge :: before) := by
  induction between with
  | nil =>
    rcases survivor_cases keys first before with kept | replaced | lost
    · have takes := survivor_replaces kept differs all
      exact Or.inl ⟨⟨takes.symm ▸ differs, takes.symm ▸ all⟩, congrArg keys takes⟩
    · rcases replaced.cases_cons differs with ⟨still, -⟩ | ⟨lost, -⟩
      · exact Or.inl ⟨still, still.2.trans all.symm⟩
      · exact Or.inr lost
    · exact Or.inr (lost.cons edge)
  | cons e between ih =>
    have other := List.ne_of_not_mem_cons apart
    rcases ih (List.not_mem_of_not_mem_cons apart) with ⟨replaced, same⟩ | lost
    · rcases replaced.cases_cons other.symm with ⟨still, -⟩ | ⟨lost, -⟩
      · exact Or.inl ⟨still, (replaced.cons other.symm).1.trans same⟩
      · exact Or.inr lost
    · exact Or.inr (lost.cons e)

theorem LosesBack.lost (loses : LosesBack keys first met) : Lost keys first met := by
  obtain ⟨behind, later, between, edge, before, rfl, differs, apart, all, more⟩ := loses
  apply Lost.append
  rcases held_between differs all apart with ⟨replaced, same⟩ | lost
  · have other : later ≠ first := by
      rintro rfl
      apply more
      intro key has
      rw [all, Finset.mem_sort]
      exact mem_keysOf.mpr ⟨later, List.mem_cons_self, has⟩
    rcases replaced.cases_cons other with ⟨-, within⟩ | ⟨lost, -⟩
    · exact absurd (same ▸ within) more
    · exact lost
  · exact lost.cons later

omit [DecidableEq Edge] in
theorem keysOf_behind (before : List Edge) (edge : Edge) :
    keysOf keys (first :: (before ++ [edge])) = keysOf keys (first :: edge :: before.reverse) := by
  apply Finset.ext
  intro key
  simp only [mem_keysOf, List.mem_cons, List.mem_append, List.mem_reverse, List.not_mem_nil,
    or_false, or_comm (b := _ ∈ before)]

theorem lost_iff (first : Edge) (rest : List Edge) :
    Lost keys first rest.reverse ↔ Loses keys (first :: rest) := by
  constructor
  · intro lost
    obtain ⟨behind, later, between, edge, before, split, differs, apart, all, more⟩ :=
      lost.losesBack
    refine ⟨before.reverse, edge, between.reverse, later, behind.reverse, ?_, differs, ?_, ?_,
      more⟩
    · rw [← List.reverse_reverse rest, split]
      simp only [List.reverse_append, List.reverse_cons, List.append_assoc, List.cons_append,
        List.nil_append]
    · rw [List.mem_reverse]
      exact apart
    · rw [keysOf_behind, List.reverse_reverse]
      exact all
  · rintro ⟨before, edge, between, later, behind, rfl, differs, apart, all, more⟩
    rw [keysOf_behind] at all
    apply LosesBack.lost
    refine ⟨behind.reverse, later, between.reverse, edge, before.reverse, ?_, differs, ?_, all,
      more⟩
    · simp only [List.reverse_append, List.reverse_cons, List.append_assoc, List.cons_append,
        List.nil_append]
    · rw [List.mem_reverse]
      exact apart

theorem mem_now_first (met : List Edge) (key : Key) :
    key ∈ now keys first met first ↔ key ∈ keysOf keys (first :: met) := by
  cases met with
  | nil =>
    rw [now, if_neg fun both => both.2 rfl, mem_keysOf]
    simp only [List.mem_singleton, exists_eq_left]
  | cons edge met => rw [now_first, Finset.mem_sort]

theorem union_now (each : Edge) (met : List Edge) :
    union (now keys first met first) (now keys first met each) =
      now keys first (each :: met) first := by
  rw [now_first, union]
  apply congrArg (Finset.sort · (· ≤ ·))
  apply Finset.ext
  intro key
  rw [Finset.mem_union, List.mem_toFinset, List.mem_toFinset, mem_now_first]
  by_cases same : each = first
  · subst each
    rw [mem_now_first, or_self]
    simp only [mem_keysOf, List.mem_cons, or_self_left]
  · rw [now_other same]
    simp only [mem_keysOf, List.mem_cons, or_and_right, exists_or, exists_eq_left]
    exact or_right_comm.trans or_assoc

theorem filter_eraseP {α : Type} {p q : α → Bool} (within : ∀ e, p e = true → q e = true)
    (l : List α) : (l.eraseP p).filter q = (l.filter q).eraseP p := by
  have same : (fun e => p e && q e) = p := by
    funext e
    cases holds : p e with
    | false => rfl
    | true => exact within e holds
  rw [List.eraseP_filter, same]

theorem filter_eraseP_apart {α : Type} {p q : α → Bool}
    (apart : ∀ e, p e = true → q e = false) (l : List α) : (l.eraseP p).filter q = l.filter q := by
  induction l with
  | nil => rfl
  | cons e l ih =>
    cases holds : p e with
    | false =>
      rw [List.eraseP_cons_of_neg (by simp [holds]), List.filter_cons, ih, List.filter_cons]
    | true =>
      rw [List.eraseP_cons_of_pos holds, List.filter_cons_of_neg]
      simp [apart e holds]

variable {node : Node} {s : State Edge Node Key} {left : List Edge}

def WellTargeted (target : Edge → Node) (s : State Edge Node Key) : Prop :=
  ∀ node edge, s.targetMap node = some edge → target edge = node

theorem WellTargeted.visit (well : WellTargeted target s) (each : Edge) :
    WellTargeted target (s.visit target each) := by
  intro node edge found
  unfold State.visit at found
  split at found
  · exact well node edge found
  · have found : Function.update s.targetMap (target each) (some each) node = some edge := found
    by_cases here : node = target each
    · subst node
      rw [Function.update_self] at found
      exact congrArg target (Option.some.inj found).symm
    · rw [Function.update_of_ne here] at found
      exact well node edge found

omit [DecidableEq Edge] in
theorem edgesTo_here {each : Edge} (here : target each = node) (left : List Edge) :
    edgesTo target (each :: left) node = each :: edgesTo target left node :=
  List.filter_cons_of_pos (decide_eq_true here)

omit [DecidableEq Edge] in
theorem edgesTo_apart {each : Edge} (apart : target each ≠ node) (left : List Edge) :
    edgesTo target (each :: left) node = edgesTo target left node :=
  List.filter_cons_of_neg (by rw [decide_eq_true_eq]; exact apart)

structure Untouched (target : Edge → Node) (keys : Edge → List Key) (node : Node)
    (s : State Edge Node Key) (left : List Edge) : Prop where
  unknown : s.targetMap node = none
  live : edgesTo target s.transitions node = edgesTo target left node
  held : ∀ e, target e = node → s.keys e = keys e

/-- Of the edges to the node, the first and those in `met` have been visited. -/
structure Merging (target : Edge → Node) (keys : Edge → List Key) (node : Node) (first : Edge)
    (met : List Edge) (s : State Edge Node Key) (left : List Edge) : Prop where
  known : s.targetMap node = some first
  live : edgesTo target s.transitions node =
    survivor keys first met :: edgesTo target left node
  held : ∀ e, target e = node → s.keys e = now keys first met e

theorem visit_apart (well : WellTargeted target s) {each : Edge} (apart : target each ≠ node) :
    (s.visit target each).targetMap node = s.targetMap node ∧
      edgesTo target (s.visit target each).transitions node =
        edgesTo target s.transitions node ∧
      ∀ e, target e = node → (s.visit target each).keys e = s.keys e := by
  unfold State.visit
  split
  · next edge found =>
    refine ⟨rfl, ?_, ?_⟩
    · apply filter_eraseP_apart
      intro e equal
      have leads : target each = target e := (of_decide_eq_true equal).1
      exact decide_eq_false (leads ▸ apart)
    · intro e here
      apply Function.update_of_ne
      rintro rfl
      exact apart ((well _ _ found).symm.trans here)
  · exact ⟨Function.update_of_ne apart.symm _ _, rfl, fun _ _ => rfl⟩

theorem Untouched.visit_first {each : Edge} (v : Untouched target keys node s (each :: left))
    (here : target each = node) : Merging target keys node each [] (s.visit target each) left := by
  have run : s.visit target each =
      { s with targetMap := Function.update s.targetMap (target each) (some each) } := by
    unfold State.visit
    rw [here, v.unknown]
  rw [run, here]
  constructor
  · exact Function.update_self node (some each) s.targetMap
  · exact v.live.trans (edgesTo_here here left)
  · intro e leads
    rw [now, if_neg fun both => both.2 rfl]
    exact v.held e leads

theorem Merging.visit_next {each : Edge}
    (v : Merging target keys node first met s (each :: left)) (here : target each = node) :
    Merging target keys node first (each :: met) (s.visit target each) left := by
  have held : ∀ e, target e = node →
      mergeWith s.keys first each e = now keys first (each :: met) e := by
    intro e leads
    by_cases same : e = first
    · subst e
      rw [mergeWith, Function.update_self, v.held first leads, v.held each here, union_now]
    · rw [mergeWith, Function.update_of_ne same, v.held e leads, now_other same, now_other same]
  have run : s.visit target each = { s with
      keys := mergeWith s.keys first each
      transitions := s.transitions.eraseP (equals target (mergeWith s.keys first each) each) } := by
    unfold State.visit
    rw [here, v.known]
  rw [run]
  constructor
  · exact v.known
  · have leads : target (survivor keys first met) = node := by
      have member : survivor keys first met ∈ edgesTo target s.transitions node := by
        rw [v.live]
        exact List.mem_cons_self
      exact of_decide_eq_true (List.mem_filter.mp member).2
    have within : ∀ e, equals target (mergeWith s.keys first each) each e = true →
        decide (target e = node) = true := by
      intro e equal
      have same := (of_decide_eq_true equal).1
      exact decide_eq_true (same.symm.trans here)
    rw [edgesTo, filter_eraseP within]
    change (edgesTo target s.transitions node).eraseP _ = _
    rw [v.live, edgesTo_here here, survivor]
    have self : equals target (mergeWith s.keys first each) each each = true :=
      decide_eq_true ⟨rfl, rfl⟩
    have equal : equals target (mergeWith s.keys first each) each (survivor keys first met) =
        decide (now keys first (each :: met) each =
          now keys first (each :: met) (survivor keys first met)) := by
      rw [equals, held each here, held _ leads, here, leads]
      simp only [true_and]
    by_cases same : now keys first (each :: met) each =
        now keys first (each :: met) (survivor keys first met)
    · rw [if_pos same, List.eraseP_cons_of_pos (equal.trans (decide_eq_true same))]
    · rw [if_neg same, List.eraseP_cons_of_neg (by rw [equal, decide_eq_true_eq]; exact same),
        List.eraseP_cons_of_pos self]
  · exact held

theorem Merging.run (v : Merging target keys node first met s left)
    (well : WellTargeted target s) :
    Merging target keys node first ((edgesTo target left node).reverse ++ met)
      (left.foldl (State.visit target) s) [] := by
  induction left generalizing s met with
  | nil => exact v
  | cons each left ih =>
    by_cases here : target each = node
    · have moved := ih (v.visit_next here) (well.visit each)
      rw [edgesTo_here here, List.reverse_cons, List.append_assoc]
      exact moved
    · obtain ⟨known, live, held⟩ := visit_apart well here
      rw [edgesTo_apart here]
      refine ih ⟨known.trans v.known, ?_, ?_⟩ (well.visit each)
      · rw [live, v.live, edgesTo_apart here]
      · intro e leads
        exact (held e leads).trans (v.held e leads)

theorem Untouched.run (v : Untouched target keys node s left) (well : WellTargeted target s) :
    edgesTo target left node = [] ∧
        Untouched target keys node (left.foldl (State.visit target) s) [] ∨
      ∃ first rest, edgesTo target left node = first :: rest ∧
        Merging target keys node first rest.reverse (left.foldl (State.visit target) s) [] := by
  induction left generalizing s with
  | nil => exact Or.inl ⟨rfl, v⟩
  | cons each left ih =>
    by_cases here : target each = node
    · have moved := (v.visit_first here).run (well.visit each)
      rw [List.append_nil] at moved
      exact Or.inr ⟨each, _, edgesTo_here here left, moved⟩
    · obtain ⟨known, live, held⟩ := visit_apart well here
      rw [edgesTo_apart here]
      refine ih ⟨known.trans v.unknown, ?_, ?_⟩ (well.visit each)
      · rw [live, v.live, edgesTo_apart here]
      · intro e leads
        exact (held e leads).trans (v.held e leads)

omit [DecidableEq Edge] in
theorem leads_iff {transitions : List Edge} {key : Key} :
    Leads target transitions keys key node ↔
      key ∈ keysOf keys (edgesTo target transitions node) := by
  rw [Leads, mem_keysOf]

omit [DecidableEq Edge] in
theorem keysOf_reverse (rest : List Edge) :
    keysOf keys (first :: rest.reverse) = keysOf keys (first :: rest) := by
  apply Finset.ext
  intro key
  simp only [mem_keysOf, List.mem_cons, List.mem_reverse]

theorem mem_now_survivor_iff (met : List Edge) :
    (∀ key, key ∈ now keys first met (survivor keys first met) ↔
      key ∈ keysOf keys (first :: met)) ↔ ¬ Lost keys first met := by
  rcases survivor_cases keys first met with kept | replaced | lost
  · rw [kept]
    refine iff_of_true (mem_now_first met) fun lost => lost.1 kept
  · rw [now_other replaced.1, replaced.2]
    exact iff_of_true (fun key => Finset.mem_sort _) fun lost => lost.not_replaced replaced
  · refine iff_of_false ?_ (not_not_intro lost)
    intro all
    obtain ⟨other, key, member, missing⟩ := lost
    have has := (all key).mpr member
    rw [now_other other] at has
    exact missing has

theorem merged_at (transitions : List Edge) (keys : Edge → List Key) (node : Node) :
    (edgesTo target (mergeKeyTransitions target transitions keys).transitions node).length ≤ 1 ∧
      ((∀ key, Leads target (mergeKeyTransitions target transitions keys).transitions
          (mergeKeyTransitions target transitions keys).keys key node ↔
            Leads target transitions keys key node) ↔
        ¬ Loses keys (edgesTo target transitions node)) := by
  have start : Untouched target keys node
      (⟨transitions, keys, fun _ => none⟩ : State Edge Node Key) transitions :=
    ⟨rfl, rfl, fun _ _ => rfl⟩
  rcases start.run fun _ _ found => nomatch found with ⟨split, v⟩ | ⟨first, rest, split, v⟩
  · have live : edgesTo target (mergeKeyTransitions target transitions keys).transitions node =
        [] := v.live
    simp only [leads_iff, live, split]
    exact ⟨Nat.zero_le 1, iff_of_true (fun _ => Iff.rfl) id⟩
  · have live : edgesTo target (mergeKeyTransitions target transitions keys).transitions node =
        [survivor keys first rest.reverse] := v.live
    have leads : target (survivor keys first rest.reverse) = node := by
      have member : survivor keys first rest.reverse ∈
          edgesTo target (mergeKeyTransitions target transitions keys).transitions node := by
        rw [live]
        exact List.mem_cons_self
      exact of_decide_eq_true (List.mem_filter.mp member).2
    have held := v.held _ leads
    refine ⟨Nat.le_of_eq (congrArg List.length live), ?_⟩
    rw [split, ← lost_iff, ← mem_now_survivor_iff]
    apply forall_congr'
    intro key
    have before : Leads target transitions keys key node ↔
        key ∈ keysOf keys (edgesTo target transitions node) := leads_iff
    rw [before, split, ← keysOf_reverse]
    have after : Leads target (mergeKeyTransitions target transitions keys).transitions
        (mergeKeyTransitions target transitions keys).keys key node ↔
          key ∈ now keys first rest.reverse (survivor keys first rest.reverse) := by
      rw [Leads, live, ← held]
      simp only [List.mem_singleton, exists_eq_left]
      exact Iff.rfl
    rw [after]

/-- The merging keeps the automaton exactly where no key gets lost on the edges to any node. -/
theorem merge_preserves_iff (target : Edge → Node) (transitions : List Edge)
    (keys : Edge → List Key) :
    Preserves target transitions keys ↔
      ∀ node, ¬ Loses keys (edgesTo target transitions node) := by
  constructor
  · intro preserves node
    exact (merged_at transitions keys node).2.mp fun key => preserves.leads key node
  · intro keeps
    constructor
    · intro node
      exact (merged_at transitions keys node).1
    · intro key node
      exact (merged_at transitions keys node).2.mpr (keeps node) key

/-- Three edges to one node, with the keys 0, with 0 and 1, and with 2. The first is removed for
the second, whose keys do not get the 2. -/
theorem merged_edge_removed :
    ¬ Preserves (fun _ : Nat => ()) [0, 1, 2] fun edge =>
      if edge = 0 then [0] else if edge = 1 then [0, 1] else [2] := by
  have one : union [0] [0, 1] = [0, 1] :=
    (List.toFinset_sort (· ≤ ·) (by decide)).mpr (by decide)
  intro preserves
  have after := (preserves.leads 2 ()).mpr ⟨2, by decide, by decide⟩
  simp [mergeKeyTransitions, State.visit, mergeWith, equals, Leads, edgesTo, one] at after

end SlateVm.KeyedDigraph
