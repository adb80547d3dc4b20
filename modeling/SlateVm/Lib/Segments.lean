import Mathlib.Data.List.Basic
import Mathlib.Tactic.Common

/-! Stretches of a list, from a place up to but not including another: what each element of
one satisfies, the order in one, and what a permutation inside one keeps. -/
namespace Segments

variable {α : Type} {P : α → Prop} {s s' s'' : List α} {lo mid hi : Nat}

/-- Each element of a stretch. -/
def Each (P : α → Prop) (s : List α) (lo hi : Nat) : Prop :=
  ∀ k x, lo ≤ k → k < hi → s[k]? = some x → P x

/-- Elements of a stretch that stand one behind the other are related. -/
def Ordered (R : α → α → Prop) (s : List α) (lo hi : Nat) : Prop :=
  ∀ i j x y, lo ≤ i → i < j → j < hi → s[i]? = some x → s[j]? = some y → R x y

/-- The same list, but for the order in a stretch. -/
structure Permuted (s s' : List α) (lo hi : Nat) : Prop where
  perm : s'.Perm s
  outside : ∀ k, k < lo ∨ hi ≤ k → s'[k]? = s[k]?

/-- The elements at two places exchanged. -/
def exchanged (s : List α) (i j : Nat) (x y : α) : List α := (s.set i y).set j x

theorem Each.nothing (P : α → Prop) (s : List α) (lo : Nat) : Each P s lo lo := by
  intro k x from_ below
  omega

theorem Each.part {lo' hi' : Nat} (each : Each P s lo hi) (low : lo ≤ lo') (high : hi' ≤ hi) :
    Each P s lo' hi' :=
  fun k x from_ below => each k x (by omega) (by omega)

theorem Each.join (first : Each P s lo mid) (second : Each P s mid hi) : Each P s lo hi := by
  intro k x from_ below
  rcases Nat.lt_or_ge k mid with before | behind
  · exact first k x from_ before
  · exact second k x behind below

theorem each_one {x : α} (there : s[lo]? = some x) (holds : P x) : Each P s lo (lo + 1) := by
  intro k y from_ below here
  have only : k = lo := by omega
  subst only
  cases there.symm.trans here
  exact holds

theorem Each.same (each : Each P s lo hi) (kept : ∀ k, lo ≤ k → k < hi → s'[k]? = s[k]?) :
    Each P s' lo hi := by
  intro k x from_ below here
  exact each k x from_ below ((kept k from_ below).symm.trans here)

namespace Permuted

theorem refl (s : List α) (lo hi : Nat) : Permuted s s lo hi := ⟨.refl s, fun _ _ => rfl⟩

theorem trans (first : Permuted s s' lo hi) (second : Permuted s' s'' lo hi) :
    Permuted s s'' lo hi := by
  constructor
  · exact second.perm.trans first.perm
  · intro k off
    exact (second.outside k off).trans (first.outside k off)

theorem widen {lo' hi' : Nat} (permuted : Permuted s s' lo hi) (low : lo' ≤ lo)
    (high : hi ≤ hi') : Permuted s s' lo' hi' :=
  ⟨permuted.perm, fun k off => permuted.outside k (by omega)⟩

theorem length (permuted : Permuted s s' lo hi) : s'.length = s.length := permuted.perm.length_eq

/-- The elements in front of the stretch and those behind it are the same. -/
theorem take (permuted : Permuted s s' lo hi) : s'.take lo = s.take lo := by
  apply List.ext_getElem?
  intro k
  simp only [List.getElem?_take]
  split
  · rename_i before
    exact permuted.outside k (.inl before)
  · rfl

theorem drop (permuted : Permuted s s' lo hi) : s'.drop hi = s.drop hi := by
  apply List.ext_getElem?
  intro k
  simp only [List.getElem?_drop]
  exact permuted.outside (hi + k) (.inr (Nat.le_add_right hi k))

/-- Hence the stretch itself is a permutation. -/
theorem inside (permuted : Permuted s s' lo hi) (forward : lo ≤ hi) :
    ((s'.drop lo).take (hi - lo)).Perm ((s.drop lo).take (hi - lo)) := by
  have parts : ∀ t : List α, t = t.take lo ++ ((t.drop lo).take (hi - lo) ++ t.drop hi) := by
    intro t
    have back : t.drop hi = (t.drop lo).drop (hi - lo) := by
      rw [List.drop_drop]
      congr 1
      omega
    rw [back, List.take_append_drop, List.take_append_drop]
  have whole := permuted.perm
  rw [parts s, parts s', permuted.take, permuted.drop] at whole
  exact (List.perm_append_right_iff _).mp ((List.perm_append_left_iff _).mp whole)

/-- What holds of each element of a stretch still does after a permutation in it. -/
theorem each (permuted : Permuted s s' lo hi) (each : Each P s lo hi) : Each P s' lo hi := by
  intro k x from_ below here
  have member : x ∈ (s'.drop lo).take (hi - lo) := by
    apply List.mem_of_getElem? (i := k - lo)
    rw [List.getElem?_take, if_pos (by omega), List.getElem?_drop]
    rwa [Nat.add_sub_cancel' from_]
  obtain ⟨j, there⟩ :=
    List.mem_iff_getElem?.mp ((permuted.inside (by omega)).mem_iff.mp member)
  rw [List.getElem?_take] at there
  split at there
  · rename_i before
    rw [List.getElem?_drop] at there
    exact each (lo + j) x (Nat.le_add_right lo j) (by omega) there
  · cases there

/-- A permutation elsewhere. -/
theorem each_outside {lo' hi' : Nat} (permuted : Permuted s s' lo hi)
    (apart : hi' ≤ lo ∨ hi ≤ lo') (each : Each P s lo' hi') : Each P s' lo' hi' :=
  each.same fun k from_ below => permuted.outside k (by omega)

theorem ordered_outside {R : α → α → Prop} {lo' hi' : Nat} (permuted : Permuted s s' lo hi)
    (apart : hi' ≤ lo ∨ hi ≤ lo') (ordered : Ordered R s lo' hi') : Ordered R s' lo' hi' := by
  intro i j x y from_ later below first second
  rw [permuted.outside i (by omega)] at first
  rw [permuted.outside j (by omega)] at second
  exact ordered i j x y from_ later below first second

end Permuted

section Exchange

variable {i j : Nat} {x y : α} (first : s[i]? = some x) (second : s[j]? = some y)
include first second

theorem exchanged_first : (exchanged s i j x y)[i]? = some y := by
  have hi := (List.getElem?_eq_some_iff.mp first).1
  unfold exchanged
  rcases Decidable.em (j = i) with rfl | apart
  · cases first.symm.trans second
    simp [hi]
  · rw [List.getElem?_set, if_neg apart, List.getElem?_set_self hi]

omit first in
theorem exchanged_second : (exchanged s i j x y)[j]? = some x := by
  have hj := (List.getElem?_eq_some_iff.mp second).1
  unfold exchanged
  rw [List.getElem?_set_self (by simpa using hj)]

omit first second in
theorem exchanged_other {k : Nat} (apart : i ≠ k ∧ j ≠ k) :
    (exchanged s i j x y)[k]? = s[k]? := by
  unfold exchanged
  rw [List.getElem?_set, if_neg apart.2, List.getElem?_set, if_neg apart.1]

theorem permuted_exchanged (low : lo ≤ i ∧ lo ≤ j) (high : i < hi ∧ j < hi) :
    Permuted s (exchanged s i j x y) lo hi := by
  obtain ⟨hi', rfl⟩ := List.getElem?_eq_some_iff.mp first
  obtain ⟨hj, rfl⟩ := List.getElem?_eq_some_iff.mp second
  constructor
  · exact List.set_set_perm hi' hj
  · intro k off
    exact exchanged_other (by omega)

end Exchange

/-- Two ordered stretches around an element that lies between them. -/
theorem Ordered.around {R : α → α → Prop} (trans : ∀ x y z, R x y → R y z → R x z) {x : α}
    (there : s[mid]? = some x) (front : Ordered R s lo mid) (back : Ordered R s (mid + 1) hi)
    (below : Each (R · x) s lo mid) (above : Each (R x) s (mid + 1) hi) : Ordered R s lo hi := by
  intro i j a b from_ later under first second
  rcases Nat.lt_trichotomy j mid with left | rfl | right
  · exact front i j a b from_ later left first second
  · cases there.symm.trans second
    exact below i a from_ later first
  · have upper := above j b right under second
    rcases Nat.lt_trichotomy i mid with left | rfl | both
    · exact trans a x b (below i a from_ left first) upper
    · cases there.symm.trans first
      exact upper
    · exact back i j a b both later under first second

theorem ordered_short {R : α → α → Prop} (short : hi ≤ lo + 1) : Ordered R s lo hi := by
  intro i j x y from_ later below
  omega

end Segments
