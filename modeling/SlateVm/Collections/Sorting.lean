import SlateVm.Lib.Segments

/-! What a sorted collection is given: a sort block, and the equality of the elements. -/
namespace SlateVm.Collections

/-- A sort block that is a total preorder, with an equality that it respects. -/
structure SortOrder (α : Type) where
  before : α → α → Bool
  equals : α → α → Bool
  total : ∀ a b, before a b = true ∨ before b a = true
  trans : ∀ a b c, before a b = true → before b c = true → before a c = true
  refl : ∀ a, equals a a = true
  symm : ∀ a b, equals a b = true → equals b a = true
  equals_trans : ∀ a b c, equals a b = true → equals b c = true → equals a c = true
  alike : ∀ a b, equals a b = true → before a b = true

theorem number_refl (a : Nat) : (a == a) = true := beq_self_eq_true a

theorem number_symm (a b : Nat) (same : (a == b) = true) : (b == a) = true :=
  beq_iff_eq.mpr (beq_iff_eq.mp same).symm

theorem number_trans (a b c : Nat) (same : (a == b) = true) (same' : (b == c) = true) :
    (a == c) = true :=
  beq_iff_eq.mpr ((beq_iff_eq.mp same).trans (beq_iff_eq.mp same'))

def ascending : SortOrder Nat where
  before a b := a ≤ b
  equals a b := a == b
  total a b := (Nat.le_total a b).imp decide_eq_true decide_eq_true
  trans _ _ _ le le' := decide_eq_true (Nat.le_trans (of_decide_eq_true le) (of_decide_eq_true le'))
  refl := number_refl
  symm := number_symm
  equals_trans := number_trans
  alike _ _ same := decide_eq_true (Nat.le_of_eq (beq_iff_eq.mp same))

end SlateVm.Collections

/-! `sortFrom:to:by:`, the quick-sort of sequences, in place and between two indices. -/
namespace SlateVm.Collections

open Segments

variable {α : Type}

section Model

variable (before : α → α → Bool) (pivot : α) (s : List α)

/-- The loop that moves `low` up, with the number of places that are left up to `high`. -/
def raise : Nat → Nat → Option Nat
  | 0, low => some low
  | n + 1, low => do
    let each ← s[low]?
    if before each pivot then raise n (low + 1) else some low

def lower : Nat → Nat → Option Nat
  | 0, high => some high
  | n + 1, high => do
    let each ← s[high]?
    if before pivot each then lower n (high - 1) else some high

/-- `swap:with:`. -/
def swap (index1 index2 : Nat) : Option (List α) := do
  let obj ← s[index1]?
  let other ← s[index2]?
  some (exchanged s index1 index2 obj other)

/-- `swap:with:` where the places are in order and not the same. -/
def swapUp (index1 index2 : Nat) : Option (List α) :=
  if index1 < index2 then swap s index1 index2 else some s

end Model

def partitionFrom (before : α → α → Bool) (pivot : α) :
    Nat → List α → Nat → Nat → Option (List α × Nat)
  | 0, _, _, _ => none
  | rounds + 1, s, low, high =>
    if low ≤ high then do
      let low ← raise before pivot s (high + 1 - low) low
      let high ← lower before pivot s (high + 1 - low) high
      let s ← swapUp s low high
      partitionFrom before pivot rounds s low high
    else some (s, low)

/-- `sortFrom:to:by:`, with a bound on its recursion. -/
def sortFrom (before : α → α → Bool) : Nat → List α → Nat → Nat → Option (List α)
  | 0, s, start, stop => if start < stop then none else some s
  | depth + 1, s, start, stop =>
    if start < stop then do
      let pivot ← s[start]?
      let (s, low) ← partitionFrom before pivot (stop - start + 2) s (start + 1) stop
      let low := low - 1
      let s ← (if start < low then (swap s start low).bind fun s =>
        sortFrom before depth s start (low - 1) else some s)
      if low < stop then sortFrom before depth s (low + 1) stop else some s
    else some s

variable {r : SortOrder α} {pivot : α} {s : List α} {low high : Nat}

theorem raise_stops {n : Nat} (fits : low + n ≤ s.length) :
    ∃ low', raise r.before pivot s n low = some low' ∧ low ≤ low' ∧ low' ≤ low + n ∧
      Each (r.before · pivot = true) s low low' ∧
      (low' < low + n → ∃ x, s[low']? = some x ∧ r.before pivot x = true ∧
        ¬ r.before x pivot = true) := by
  induction n generalizing low with
  | zero => exact ⟨low, rfl, Nat.le_refl _, Nat.le_refl _, .nothing _ s low, by omega⟩
  | succ n ih =>
    have here : s[low]? = some s[low] := List.getElem?_eq_getElem (by omega)
    unfold raise
    simp only [here, Option.bind_eq_bind, Option.bind_some]
    cases first : r.before s[low] pivot with
    | false =>
      refine ⟨low, rfl, Nat.le_refl _, by omega, .nothing _ s low, fun _ => ⟨_, here, ?_⟩⟩
      have other := r.total s[low] pivot
      simpa [first] using other
    | true =>
      obtain ⟨low', run, up, within, passed, stops⟩ := @ih (low + 1) (by omega)
      refine ⟨low', run, by omega, by omega, ?_, fun early => stops (by omega)⟩
      exact (each_one here first).join passed

theorem lower_stops {n : Nat} (fits : high < s.length) (enough : n ≤ high) :
    ∃ high', lower r.before pivot s n high = some high' ∧ high' ≤ high ∧ high ≤ high' + n ∧
      Each (r.before pivot · = true) s (high' + 1) (high + 1) ∧
      (high < high' + n → ∃ x, s[high']? = some x ∧ r.before x pivot = true ∧
        ¬ r.before pivot x = true) := by
  induction n generalizing high with
  | zero => exact ⟨high, rfl, Nat.le_refl _, Nat.le_refl _, .nothing _ s _, by omega⟩
  | succ n ih =>
    have here : s[high]? = some s[high] := List.getElem?_eq_getElem (by omega)
    unfold lower
    simp only [here, Option.bind_eq_bind, Option.bind_some]
    cases first : r.before pivot s[high] with
    | false =>
      refine ⟨high, rfl, Nat.le_refl _, by omega, .nothing _ s _, fun _ => ⟨_, here, ?_⟩⟩
      have other := r.total s[high] pivot
      simpa [first] using other
    | true =>
      obtain ⟨high', run, down, within, passed, stops⟩ := @ih (high - 1) (by omega) (by omega)
      refine ⟨high', run, by omega, by omega, ?_, fun early => stops (by omega)⟩
      rw [Nat.sub_add_cancel (by omega)] at passed
      exact passed.join (each_one here first)

/-- What the loop keeps: the places in front of `low` and behind `high` are on the right side
of the pivot, and only the places of the loop have been permuted. -/
structure Splits (r : SortOrder α) (pivot : α) (s₀ s : List α) (first last low high : Nat) :
    Prop where
  permuted : Permuted s₀ s first (last + 1)
  bounds : first ≤ low ∧ low ≤ high + 1 ∧ high ≤ last
  below : Each (r.before · pivot = true) s first low
  above : Each (r.before pivot · = true) s (high + 1) (last + 1)

variable {s₀ : List α} {first last : Nat}

theorem Splits.round (splits : Splits r pivot s₀ s first last low high) (fits : last < s₀.length)
    (positive : 0 < first) (more : low ≤ high) :
    ∃ low' high' s', raise r.before pivot s (high + 1 - low) low = some low' ∧
      lower r.before pivot s (high + 1 - low') high = some high' ∧
      swapUp s low' high' = some s' ∧ Splits r pivot s₀ s' first last low' high' ∧
      low ≤ low' ∧ high' ≤ high ∧
      ((∀ x, s[low]? = some x → r.before x pivot = true) → low < low') ∧
      (high' < low' ∨ low' < high' ∧ ∀ x, s'[low']? = some x → r.before x pivot = true) := by
  obtain ⟨from_, near, inside⟩ := splits.bounds
  have length := splits.permuted.length
  obtain ⟨low', raised, up, within, passed, stops⟩ :=
    @raise_stops α r pivot s low (high + 1 - low) (by omega)
  obtain ⟨high', lowered, down, within', passed', stops'⟩ :=
    @lower_stops α r pivot s high (high + 1 - low') (by omega) (by omega)
  have below := splits.below.join passed
  have above := passed'.join splits.above
  have advances : (∀ x, s[low]? = some x → r.before x pivot = true) → low < low' := by
    intro ready
    rcases Nat.eq_or_lt_of_le up with rfl | moved
    · obtain ⟨x, here, _, not_before⟩ := stops (by omega)
      exact absurd (ready x here) not_before
    · exact moved
  rcases Nat.lt_or_ge high' low' with crossed | apart
  · have still : swapUp s low' high' = some s := by
      unfold swapUp
      rw [if_neg (by omega)]
    exact ⟨low', high', s, raised, lowered, still,
      ⟨splits.permuted, ⟨by omega, by omega, by omega⟩, below, above⟩, up, down, advances,
      .inl crossed⟩
  · obtain ⟨x, hx, after, not_before⟩ := stops (by omega)
    obtain ⟨y, hy, earlier, not_after⟩ := stops' (by omega)
    have strict : low' < high' := by
      rcases Nat.eq_or_lt_of_le apart with rfl | strict
      · cases hx.symm.trans hy
        exact absurd earlier not_before
      · exact strict
    have swaps : swapUp s low' high' = some (exchanged s low' high' x y) := by
      unfold swapUp swap
      rw [if_pos strict]
      simp only [hx, hy, Option.bind_eq_bind, Option.bind_some]
    have moved : Permuted s (exchanged s low' high' x y) low' (high' + 1) :=
      permuted_exchanged hx hy ⟨Nat.le_refl _, apart⟩ ⟨by omega, by omega⟩
    refine ⟨low', high', _, raised, lowered, swaps, ⟨?_, ⟨by omega, by omega, by omega⟩, ?_, ?_⟩,
      up, down, advances, .inr ⟨strict, ?_⟩⟩
    · exact splits.permuted.trans (moved.widen (by omega) (by omega))
    · exact moved.each_outside (.inl (Nat.le_refl _)) below
    · exact moved.each_outside (.inr (Nat.le_refl _)) above
    · intro z here
      cases (exchanged_first hx hy).symm.trans here
      exact earlier

theorem Splits.partitionFrom (splits : Splits r pivot s₀ s first last low high)
    (fits : last < s₀.length) (positive : 0 < first) (rounds : Nat)
    (enough : high + 2 < rounds + low ∨ high + 1 < rounds + low ∧
      (low ≤ high → ∀ x, s[low]? = some x → r.before x pivot = true)) :
    ∃ s' low', partitionFrom r.before pivot rounds s low high = some (s', low' + 1) ∧
      Splits r pivot s₀ s' first last (low' + 1) low' := by
  induction rounds generalizing s low high with
  | zero =>
    have near := splits.bounds.2.1
    omega
  | succ rounds ih =>
    have bounds := splits.bounds
    unfold Collections.partitionFrom
    split
    · rename_i more
      obtain ⟨low₁, high₁, s₁, raised, lowered, swaps, kept, up, down, advances, ends⟩ :=
        splits.round fits positive more
      have near := kept.bounds.2.1
      have less : high₁ + 1 < rounds + low₁ := by
        rcases enough with many | ⟨many, ready⟩
        · omega
        · have moved := advances (ready more)
          omega
      have next := ih kept (.inr ⟨less, by
        intro open_
        rcases ends with crossed | ⟨_, ready⟩
        · omega
        · exact ready⟩)
      simpa only [raised, lowered, swaps, Option.bind_eq_bind, Option.bind_some] using next
    · rename_i crossed
      obtain ⟨low', rfl⟩ : ∃ low', low = low' + 1 := ⟨low - 1, by omega⟩
      have met : high = low' := by omega
      subst met
      exact ⟨s, high, rfl, splits⟩

structure Sorted (r : SortOrder α) (s s' : List α) (lo hi : Nat) : Prop where
  permuted : Permuted s s' lo hi
  ordered : Ordered (r.before · · = true) s' lo hi

theorem Splits.front {start mid : Nat} (depth : Nat)
    (splits : Splits r pivot s₀ s (start + 1) last (mid + 1) mid) (fits : last < s₀.length)
    (there : s₀[start]? = some pivot)
    (sorts : start < mid → ∀ t : List α, t.length = s₀.length →
      ∃ t', sortFrom r.before depth t start (mid - 1) = some t' ∧ Sorted r t t' start mid) :
    ∃ s', (if start < mid then (swap s start mid).bind fun s =>
        sortFrom r.before depth s start (mid - 1) else some s) = some s' ∧
      Permuted s s' start (mid + 1) ∧ s'[mid]? = some pivot ∧
      Each (r.before · pivot = true) s' start mid ∧
      Ordered (r.before · · = true) s' start mid := by
  obtain ⟨from_, _, inside⟩ := splits.bounds
  have length := splits.permuted.length
  have here : s[start]? = some pivot :=
    (splits.permuted.outside start (.inl (Nat.lt_succ_self start))).trans there
  split
  · rename_i more
    have meets : s[mid]? = some s[mid] := List.getElem?_eq_getElem (by omega)
    have moved : Permuted s (exchanged s start mid pivot s[mid]) start (mid + 1) :=
      permuted_exchanged here meets ⟨Nat.le_refl _, by omega⟩ ⟨by omega, by omega⟩
    have below : Each (r.before · pivot = true) (exchanged s start mid pivot s[mid]) start mid := by
      have earlier : r.before s[mid] pivot = true :=
        splits.below mid _ (by omega) (Nat.lt_succ_self mid) meets
      have first : Each (r.before · pivot = true) (exchanged s start mid pivot s[mid]) start
          (start + 1) := each_one (exchanged_first here meets) earlier
      apply first.join
      apply (splits.below.part (Nat.le_refl _) (Nat.le_succ mid)).same
      intro k from_ before
      exact exchanged_other ⟨by omega, by omega⟩
    obtain ⟨s', run, permuted, ordered⟩ := sorts more _ (moved.length.trans length)
    refine ⟨s', ?_, moved.trans (permuted.widen (Nat.le_refl _) (Nat.le_succ mid)), ?_,
      permuted.each below, ordered⟩
    · simpa only [swap, here, meets, Option.bind_eq_bind, Option.bind_some] using run
    · exact (permuted.outside mid (.inr (Nat.le_refl _))).trans (exchanged_second meets)
  · have same : start = mid := by omega
    subst same
    exact ⟨s, rfl, .refl s _ _, here, .nothing _ s _, ordered_short (Nat.le_succ _)⟩

theorem sortFrom_sorts {start stop depth : Nat} (fits : start < stop → stop < s.length)
    (enough : stop ≤ start + depth) :
    ∃ s', sortFrom r.before depth s start stop = some s' ∧ Sorted r s s' start (stop + 1) := by
  induction depth generalizing s start stop with
  | zero =>
    unfold sortFrom
    rw [if_neg (by omega)]
    exact ⟨s, rfl, .refl s _ _, ordered_short (by omega)⟩
  | succ depth ih =>
    unfold sortFrom
    split
    · rename_i more
      have inside := fits more
      have there : s[start]? = some s[start] := List.getElem?_eq_getElem (by omega)
      have begins : Splits r s[start] s s (start + 1) stop (start + 1) stop :=
        ⟨.refl s _ _, ⟨Nat.le_refl _, by omega, Nat.le_refl _⟩, .nothing _ s _, .nothing _ s _⟩
      obtain ⟨s₁, mid, parts, splits⟩ :=
        begins.partitionFrom inside (Nat.succ_pos start) (stop - start + 2) (.inl (by omega))
      obtain ⟨from_, _, within⟩ := splits.bounds
      obtain ⟨s₂, front, permuted, pivot, below, first⟩ := splits.front depth inside there (by
        intro open_ t same
        obtain ⟨t', run, sorted⟩ := @ih t start (mid - 1) (by omega) (by omega)
        rw [Nat.sub_add_cancel (by omega)] at sorted
        exact ⟨t', run, sorted⟩)
      have above := permuted.each_outside (.inr (Nat.le_refl _)) splits.above
      have length : s₂.length = s.length := permuted.length.trans splits.permuted.length
      obtain ⟨s₃, back, behind, second⟩ : ∃ s₃, (if mid < stop then
          sortFrom r.before depth s₂ (mid + 1) stop else some s₂) = some s₃ ∧
          Sorted r s₂ s₃ (mid + 1) (stop + 1) := by
        split
        · exact ih (fun _ => by omega) (by omega)
        · exact ⟨s₂, rfl, .refl s₂ _ _, ordered_short (by omega)⟩
      refine ⟨s₃, ?_, ?_, ?_⟩
      · simp only [there, parts, Nat.add_sub_cancel, front, Option.bind_eq_bind, Option.bind_some]
        exact back
      · have whole := splits.permuted.widen (Nat.le_succ start) (Nat.le_refl _)
        have left := permuted.widen (Nat.le_refl _) (Nat.succ_le_succ within)
        exact whole.trans (left.trans (behind.widen (by omega) (Nat.le_refl _)))
      · apply Ordered.around r.trans
        · exact (behind.outside mid (.inl (Nat.lt_succ_self mid))).trans pivot
        · exact behind.ordered_outside (.inl (Nat.le_succ mid)) first
        · exact second
        · exact behind.each_outside (.inl (Nat.le_succ mid)) below
        · exact behind.each above
    · exact ⟨s, rfl, .refl s _ _, ordered_short (by omega)⟩

theorem sortFrom_more {before : α → α → Bool} {depth more start stop : Nat} {s s' : List α}
    (run : sortFrom before depth s start stop = some s') (least : depth ≤ more) :
    sortFrom before more s start stop = some s' := by
  induction depth generalizing s s' start stop more with
  | zero =>
    unfold sortFrom at run
    split at run
    · cases run
    · next short =>
      cases run
      cases more with
      | zero => simp only [sortFrom, if_neg short]
      | succ more => simp only [sortFrom, if_neg short]
  | succ depth ih =>
    obtain ⟨more, rfl⟩ : ∃ k, more = k + 1 := ⟨more - 1, by omega⟩
    have enough : depth ≤ more := by omega
    unfold sortFrom at run ⊢
    split
    · next long =>
      simp only [if_pos long, Option.bind_eq_bind, Option.bind_eq_some_iff] at run ⊢
      obtain ⟨pivot, there, ⟨t, low⟩, parts, t', front, back⟩ := run
      refine ⟨pivot, there, (t, low), parts, t', ?_, ?_⟩
      · split at front
        · next longer =>
          obtain ⟨u, swapped, sorted⟩ := Option.bind_eq_some_iff.mp front
          simp only [if_pos longer, swapped, Option.bind_some]
          exact ih sorted enough
        · next shorter => simpa only [if_neg shorter] using front
      · split at back
        · next longer => simpa only [if_pos longer] using ih back enough
        · next shorter => simpa only [if_neg shorter] using back
    · next short => simpa only [if_neg short] using run

def orderOf (before : α → α → Bool) (total : ∀ a b, before a b = true ∨ before b a = true)
    (trans : ∀ a b c, before a b = true → before b c = true → before a c = true) :
    SortOrder α where
  before
  equals a b := before a b && before b a
  total
  trans
  refl a := by
    have self := total a a
    simpa using self
  symm a b both := by
    simp only [Bool.and_eq_true] at both ⊢
    exact ⟨both.2, both.1⟩
  equals_trans a b c first second := by
    simp only [Bool.and_eq_true] at first second ⊢
    exact ⟨trans a b c first.1 second.1, trans c b a second.2 first.2⟩
  alike a b both := by
    simp only [Bool.and_eq_true] at both
    exact both.1

/-- The quick-sort ends with the same answer for each sufficient bound: the range is a
permutation of what it was, each element of it comes before the next one by the sort block,
and all other elements are where they were. -/
theorem quick_sort_sorts {before : α → α → Bool} {start stop : Nat}
    (total : ∀ a b, before a b = true ∨ before b a = true)
    (trans : ∀ a b c, before a b = true → before b c = true → before a c = true)
    (last : stop < s.length) :
    ∃ s', (∀ depth, stop - start ≤ depth → sortFrom before depth s start stop = some s') ∧
      s'.length = s.length ∧ (∀ k, k < start ∨ stop < k → s'[k]? = s[k]?) ∧
      ((s'.drop start).take (stop + 1 - start)).Perm ((s.drop start).take (stop + 1 - start)) ∧
      ∀ i x y, start ≤ i → i < stop → s'[i]? = some x → s'[i + 1]? = some y →
        before x y = true := by
  obtain ⟨s', run, sorted⟩ := @sortFrom_sorts α (orderOf before total trans) s start stop
    (stop - start) (fun _ => last) (by omega)
  refine ⟨s', fun depth enough => sortFrom_more run enough, sorted.permuted.length, ?_, ?_, ?_⟩
  · intro k off
    exact sorted.permuted.outside k (by omega)
  · rcases Nat.lt_or_ge (stop + 1) start with turned | forward
    · rw [show stop + 1 - start = 0 by omega, List.take_zero, List.take_zero]
    · exact sorted.permuted.inside forward
  · intro i x y from_ below here next
    exact sorted.ordered i (i + 1) x y from_ (Nat.lt_succ_self i) (by omega) here next

theorem quick_sort_numbers :
    ∃ s', (∀ depth, 3 - 1 ≤ depth →
        sortFrom (fun a b : Nat => decide (a ≤ b)) depth [9, 2, 5, 2, 0] 1 3 = some s') ∧
      s'.length = 5 ∧ (∀ k, k < 1 ∨ 3 < k → s'[k]? = [9, 2, 5, 2, 0][k]?) ∧
      ((s'.drop 1).take 3).Perm [2, 5, 2] ∧
      ∀ i x y, 1 ≤ i → i < 3 → s'[i]? = some x → s'[i + 1]? = some y → decide (x ≤ y) = true :=
  quick_sort_sorts (by simpa using Nat.le_total) (by simpa using fun _ _ _ => Nat.le_trans)
    (by decide)

end SlateVm.Collections
