import Mathlib.Data.List.Forall2
import Mathlib.Data.List.Induction
import Mathlib.Tactic.Common

/-! Trees given by where an edge with a label leads from a node, and the walks in them from
the root along a sequence of labels: how they change when a leaf is added or cut off. -/
namespace Walks

variable {ν κ : Type} {kid kid' : ν → κ → Option ν} {same : κ → κ → Prop} {root : ν}
  {parent : ν → Option ν} {s t pre : List κ} {n c : ν} {k : κ}

/-- The node that a sequence of labels leads to. -/
def walk (kid : ν → κ → Option ν) (n : ν) (s : List κ) : Option ν := s.foldlM kid n

/-- The edges lead away from the root, and each node has one parent and one label. -/
structure Rooted (kid : ν → κ → Option ν) (same : κ → κ → Prop) (root : ν)
    (parent : ν → Option ν) : Prop where
  top : parent root = none
  child : ∀ n k c, kid n k = some c → parent c = some n
  label : ∀ n k k' c, kid n k = some c → kid n k' = some c → same k k'
  respects : ∀ n k k', same k k' → kid n k = kid n k'

/-- A new leaf `c` below `n`, under the label `k`. -/
structure Grafted (kid kid' : ν → κ → Option ν) (same : κ → κ → Prop) (n : ν) (k : κ) (c : ν) :
    Prop where
  missing : kid n k = none
  edge : ∀ e, same k e → kid' n e = some c
  other : ∀ e, ¬ same k e → kid' n e = kid n e
  leaf : ∀ e, kid' c e = none
  rest : ∀ j e, j ≠ n → j ≠ c → kid' j e = kid j e
  unused : ∀ j e, kid j e ≠ some c
  bare : ∀ e, kid c e = none

/-- The leaf `c` below `n`, under the label `k`, is cut off. -/
structure Cut (kid kid' : ν → κ → Option ν) (same : κ → κ → Prop) (n : ν) (k : κ) (c : ν) :
    Prop where
  edge : kid n k = some c
  gone : ∀ e, same k e → kid' n e = none
  other : ∀ e, ¬ same k e → kid' n e = kid n e
  rest : ∀ j e, j ≠ n → kid' j e = kid j e
  leaf : ∀ e, kid c e = none

theorem walk_nil : walk kid n [] = some n := rfl

theorem walk_cons : walk kid n (k :: s) = (kid n k).bind fun c => walk kid c s := rfl

theorem walk_append : walk kid n (s ++ t) = (walk kid n s).bind fun c => walk kid c t := by
  unfold walk
  rw [List.foldlM_append]
  rfl

theorem walk_concat : walk kid n (s ++ [k]) = (walk kid n s).bind fun c => kid c k := by
  rw [walk_append]
  congr 1
  funext c
  rw [walk_cons]
  cases kid c k <;> rfl

/-- A property of nodes that edges keep holds where a walk ends. -/
theorem walk_keeps {P : ν → Prop} (edge : ∀ n k c, P n → kid n k = some c → P c)
    (first : P n) (walked : walk kid n s = some c) : P c := by
  induction s generalizing n with
  | nil =>
    cases walked
    exact first
  | cons k s ih =>
    rw [walk_cons, Option.bind_eq_some_iff] at walked
    obtain ⟨d, step, rest⟩ := walked
    exact ih (edge n k d first step) rest

theorem forall₂_concat {e : κ} :
    List.Forall₂ same (s ++ [k]) (t ++ [e]) ↔ List.Forall₂ same s t ∧ same k e := by
  constructor
  · intro all
    have back := List.rel_reverse all
    simp only [List.reverse_append, List.reverse_singleton, List.singleton_append,
      List.forall₂_cons] at back
    have front := List.rel_reverse back.2
    rw [List.reverse_reverse, List.reverse_reverse] at front
    exact ⟨front, back.1⟩
  · rintro ⟨front, last⟩
    exact List.rel_append front (.cons last .nil)

namespace Rooted

variable (rooted : Rooted kid same root parent)
include rooted

theorem walk_same (alike : List.Forall₂ same s t) : walk kid n s = walk kid n t := by
  induction alike generalizing n with
  | nil => rfl
  | cons first _ ih =>
    rw [walk_cons, walk_cons, rooted.respects n _ _ first]
    congr 1
    funext c
    exact ih

theorem walk_ne_root (walked : walk kid root (s ++ [k]) = some c) : c ≠ root := by
  rintro rfl
  rw [walk_concat, Option.bind_eq_some_iff] at walked
  obtain ⟨d, _, step⟩ := walked
  have up := rooted.child d k c step
  rw [rooted.top] at up
  cases up

/-- Two walks from the root that end at the same node are along the same labels. -/
theorem walk_inj (first : walk kid root s = some c) (second : walk kid root t = some c) :
    List.Forall₂ same s t := by
  induction s using List.reverseRecOn generalizing t c with
  | nil =>
    cases first
    rcases List.eq_nil_or_concat t with rfl | ⟨t, e, rfl⟩
    · exact .nil
    · rw [List.concat_eq_append] at second
      exact absurd rfl (rooted.walk_ne_root second)
  | append_singleton s k ih =>
    rcases List.eq_nil_or_concat t with rfl | ⟨t, e, rfl⟩
    · cases second
      exact absurd rfl (rooted.walk_ne_root first)
    · rw [List.concat_eq_append] at second ⊢
      rw [walk_concat, Option.bind_eq_some_iff] at first second
      obtain ⟨m, to_m, step⟩ := first
      obtain ⟨n, to_n, step'⟩ := second
      have up := rooted.child m k c step
      rw [rooted.child n e c step'] at up
      cases up
      exact forall₂_concat.mpr ⟨ih to_m to_n, rooted.label _ k e c step step'⟩

theorem walk_iff (here : walk kid root s = some c) :
    walk kid root t = some c ↔ List.Forall₂ same s t := by
  constructor
  · exact rooted.walk_inj here
  · intro alike
    rw [← rooted.walk_same alike]
    exact here

end Rooted

section Graft

variable (rooted : Rooted kid same root parent) (grafted : Grafted kid kid' same n k c)
include rooted grafted

/-- The walks after a leaf was added: one more, along the labels of the leaf. -/
theorem walk_grafted (to_n : walk kid root pre = some n) (new : root ≠ c) (t : List κ) :
    (List.Forall₂ same (pre ++ [k]) t → walk kid' root t = some c) ∧
      (¬ List.Forall₂ same (pre ++ [k]) t → walk kid' root t = walk kid root t) := by
  have old : ∀ t : List κ, walk kid root t ≠ some c := by
    intro t
    rcases List.eq_nil_or_concat t with rfl | ⟨t, e, rfl⟩
    · intro clash
      exact new (Option.some.inj clash)
    · rw [List.concat_eq_append, walk_concat]
      intro clash
      obtain ⟨j, _, step⟩ := Option.bind_eq_some_iff.mp clash
      exact grafted.unused j e step
  induction t using List.reverseRecOn with
  | nil =>
    constructor
    · intro alike
      have length := alike.length_eq
      simp at length
    · intro _
      rfl
  | append_singleton t e ih =>
    rw [walk_concat, walk_concat, forall₂_concat]
    rcases Classical.em (List.Forall₂ same (pre ++ [k]) t) with through | aside
    · rw [ih.1 through]
      have before : walk kid root t = none := by
        rw [← rooted.walk_same through, walk_concat, to_n]
        exact grafted.missing
      constructor
      · rintro ⟨short, _⟩
        have length := through.length_eq
        have length' := short.length_eq
        simp at length
        omega
      · intro _
        rw [before]
        exact grafted.leaf e
    · rw [ih.2 aside]
      cases at_ : walk kid root t with
      | none =>
        constructor
        · rintro ⟨short, _⟩
          rw [← rooted.walk_same short, to_n] at at_
          cases at_
        · intro _
          rfl
      | some j =>
        have not_new : j ≠ c := by
          rintro rfl
          exact old t at_
        constructor
        · rintro ⟨short, last⟩
          rw [← rooted.walk_same short, to_n] at at_
          cases at_
          exact grafted.edge e last
        · intro off
          rcases Classical.em (j = n) with rfl | apart
          · apply grafted.other
            intro last
            exact off ⟨rooted.walk_inj to_n at_, last⟩
          · exact grafted.rest j e apart not_new

/-- The tree with the leaf. -/
theorem rooted_grafted {parent' : ν → Option ν} (new : root ≠ c) (up : parent' c = some n)
    (others : ∀ j, j ≠ c → parent' j = parent j) (separate : n ≠ c)
    (equivalence : Equivalence same) : Rooted kid' same root parent' := by
  have cases_ : ∀ j e d, kid' j e = some d → (j = n ∧ same k e ∧ d = c) ∨ kid j e = some d := by
    intro j e d step
    rcases Classical.em (j = n) with rfl | apart
    · rcases Classical.em (same k e) with last | off
      · rw [grafted.edge e last] at step
        exact .inl ⟨rfl, last, (Option.some.inj step).symm⟩
      · exact .inr ((grafted.other e off).symm.trans step)
    · rcases Classical.em (j = c) with rfl | old
      · rw [grafted.leaf e] at step
        cases step
      · exact .inr ((grafted.rest j e apart old).symm.trans step)
  have not_new : ∀ j e d, kid j e = some d → d ≠ c := by
    rintro j e d step rfl
    exact grafted.unused j e step
  constructor
  · rw [others root new, rooted.top]
  · intro j e d step
    rcases cases_ j e d step with ⟨rfl, _, rfl⟩ | old
    · exact up
    · rw [others d (not_new j e d old)]
      exact rooted.child j e d old
  · intro j e e' d step step'
    rcases cases_ j e d step with ⟨rfl, last, rfl⟩ | old
    · rcases cases_ j e' d step' with ⟨_, last', _⟩ | old'
      · exact equivalence.trans (equivalence.symm last) last'
      · exact absurd rfl (not_new j e' d old')
    · rcases cases_ j e' d step' with ⟨_, _, rfl⟩ | old'
      · exact absurd rfl (not_new j e d old)
      · exact rooted.label j e e' d old old'
  · intro j e e' alike
    rcases Classical.em (j = n) with rfl | apart
    · rcases Classical.em (same k e) with last | off
      · rw [grafted.edge e last, grafted.edge e' (equivalence.trans last alike)]
      · have off' : ¬ same k e' :=
          fun last => off (equivalence.trans last (equivalence.symm alike))
        rw [grafted.other e off, grafted.other e' off', rooted.respects j e e' alike]
    · rcases Classical.em (j = c) with rfl | old
      · rw [grafted.leaf e, grafted.leaf e']
      · rw [grafted.rest j e apart old, grafted.rest j e' apart old, rooted.respects j e e' alike]

end Graft

section Cut

variable (rooted : Rooted kid same root parent) (cut : Cut kid kid' same n k c)
include rooted cut

/-- The edges to the leaf are gone, the others as they were. -/
theorem kid_cut (j : ν) (e : κ) : (kid j e = some c → kid' j e = none) ∧
    (kid j e ≠ some c → kid' j e = kid j e) := by
  constructor
  · intro here
    have up := rooted.child j e c here
    rw [rooted.child n k c cut.edge] at up
    cases up
    exact cut.gone e (rooted.label _ k e c cut.edge here)
  · intro off
    rcases Classical.em (j = n) with rfl | apart
    · apply cut.other
      intro last
      rw [← rooted.respects j k e last] at off
      exact off cut.edge
    · exact cut.rest j e apart

/-- The walks after a leaf was cut off: all but those to the leaf. -/
theorem walk_cut (t : List κ) : (walk kid root t = some c → walk kid' root t = none) ∧
    (walk kid root t ≠ some c → walk kid' root t = walk kid root t) := by
  induction t using List.reverseRecOn with
  | nil =>
    constructor
    · intro clash
      cases clash
      have up := rooted.child n k _ cut.edge
      rw [rooted.top] at up
      cases up
    · intro _
      rfl
  | append_singleton t e ih =>
    rw [walk_concat, walk_concat]
    rcases Classical.em (walk kid root t = some c) with through | aside
    · rw [ih.1 through, through]
      have leaf : ((some c).bind fun c => kid c e) = none := cut.leaf e
      rw [leaf]
      exact ⟨fun _ => rfl, fun _ => rfl⟩
    · rw [ih.2 aside]
      cases walk kid root t with
      | none => exact ⟨fun _ => rfl, fun _ => rfl⟩
      | some j => exact kid_cut rooted cut j e

theorem rooted_cut {parent' : ν → Option ν} (up : parent' root = none)
    (others : ∀ j, j ≠ c → parent' j = parent j) : Rooted kid' same root parent' := by
  have kept : ∀ j e d, kid' j e = some d → d ≠ c ∧ kid j e = some d := by
    intro j e d step
    rcases Classical.em (kid j e = some c) with here | off
    · rw [(kid_cut rooted cut j e).1 here] at step
      cases step
    · rw [(kid_cut rooted cut j e).2 off] at step
      constructor
      · rintro rfl
        exact off step
      · exact step
  constructor
  · exact up
  · intro j e d step
    obtain ⟨other, old⟩ := kept j e d step
    rw [others d other]
    exact rooted.child j e d old
  · intro j e e' d step step'
    exact rooted.label j e e' d (kept j e d step).2 (kept j e' d step').2
  · intro j e e' alike
    have old := rooted.respects j e e' alike
    rcases Classical.em (kid j e = some c) with here | off
    · rw [(kid_cut rooted cut j e).1 here, (kid_cut rooted cut j e').1 (old ▸ here)]
    · rw [(kid_cut rooted cut j e).2 off, (kid_cut rooted cut j e').2 (old ▸ off), old]

end Cut

end Walks
