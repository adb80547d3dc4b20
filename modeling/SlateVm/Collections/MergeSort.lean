import SlateVm.Collections.Arrays

/-! `stableSortFrom:to:by:`, the merge-sort of sequences, in place and between two indices. -/
namespace SlateVm.Collections

variable {α : Type}

structure Merging (α : Type) where
  s : List α
  i1 : Nat
  i2 : Nat
  val1 : α
  val2 : α
  out : Int

section Model

variable (before : α → α → Bool) (scopy : List α) (middle stop : Nat)

def mergeRound (m : Merging α) : Option (Merging α) :=
  if before m.val1 m.val2 then do
    let s ← arrayPut m.s (m.out + 1) m.val1
    let val1 ← scopy[m.i1 + 1]?
    some { m with s, i1 := m.i1 + 1, val1, out := m.out + 1 }
  else do
    let s ← arrayPut m.s (m.out + 1) m.val2
    if m.i2 + 1 ≤ stop then do
      let val2 ← scopy[m.i2 + 1]?
      some { m with s, i2 := m.i2 + 1, val2, out := m.out + 1 }
    else some { m with s, i2 := m.i2 + 1, out := m.out + 1 }

def mergeLoop : Nat → Merging α → Option (Merging α)
  | 0, _ => none
  | rounds + 1, m =>
    if m.i1 ≤ middle ∧ m.i2 ≤ stop then (mergeRound before scopy stop m).bind (mergeLoop rounds)
    else some m

def mergeRest (m : Merging α) : Option (List α) :=
  if m.i1 ≤ middle then replaceFrom m.s (m.out + 1) stop scopy m.i1
  else replaceFrom m.s (m.out + 1) stop scopy m.i2

end Model

/-- `stableSortFrom:to:by:`, with a bound on its recursion. -/
def stableSortFrom (before : α → α → Bool) : Nat → List α → Nat → Nat → Option (List α)
  | 0, _, _, _ => none
  | depth + 1, s, start, stop =>
    let stop := if stop > s.length then s.length else stop
    if s.length ≤ 1 ∨ start ≥ stop then some s else do
      let middle := (start + stop) / 2
      let scopy ← stableSortFrom before depth s start middle
      let scopy ← stableSortFrom before depth scopy (middle + 1) stop
      let val1 ← scopy[start]?
      let val2 ← scopy[middle + 1]?
      let m ← mergeLoop before scopy middle stop (stop - start + 2)
        ⟨s, start, middle + 1, val1, val2, start - 1⟩
      mergeRest scopy middle stop m

/-- The halves `xs` and `ys` that are still to be merged, where the copy holds them, and what
the sequence holds in front of and behind the places that are still to be written. -/
structure Merges (m : Merging α) (scopy : List α) (middle stop : Nat)
    (front xs ys back : List α) : Prop where
  copied : ∃ pre between post, scopy = pre ++ (xs ++ (between ++ (ys ++ post))) ∧
    m.i1 = pre.length ∧ m.i2 = pre.length + xs.length + between.length
  first : middle + 1 = m.i1 + xs.length
  second : stop + 1 = m.i2 + ys.length
  val1 : ∀ x ∈ xs.head?, m.val1 = x
  val2 : ∀ y ∈ ys.head?, m.val2 = y
  out : m.out + 1 = front.length
  fits : stop + 1 = front.length + xs.length + ys.length
  rest : ∃ old, m.s = front ++ (old ++ back) ∧ old.length = xs.length + ys.length

section Loop

variable {before : α → α → Bool} {m : Merging α} {scopy front xs ys back : List α}
variable {middle stop : Nat} {x y : α}

theorem Merges.put (merges : Merges m scopy middle stop front xs ys back) (z : α)
    (more : 0 < xs.length + ys.length) :
    ∃ old, arrayPut m.s (m.out + 1) z = some (front ++ [z] ++ (old ++ back)) ∧
      old.length + 1 = xs.length + ys.length := by
  obtain ⟨old, here, many⟩ := merges.rest
  cases old with
  | nil =>
    simp only [List.length_nil] at many
    omega
  | cons o old =>
    refine ⟨old, ?_, many⟩
    rw [here, merges.out, arrayPut_nat (by simp)]
    simp

theorem Merges.left (merges : Merges m scopy middle stop front (x :: xs) (y :: ys) back)
    (first : before x y = true) :
    ∃ m', mergeRound before scopy stop m = some m' ∧
      Merges m' scopy middle stop (front ++ [x]) xs (y :: ys) back := by
  obtain ⟨old, put, many⟩ := merges.put x (by simp only [List.length_cons]; omega)
  obtain ⟨pre, between, post, copied, at1, at2⟩ := merges.copied
  have here := merges.val1 x rfl
  have there := merges.val2 y rfl
  obtain ⟨z, next, ahead⟩ : ∃ z, scopy[m.i1 + 1]? = some z ∧ ∀ x' ∈ xs.head?, z = x' := by
    rw [copied, at1, List.getElem?_append_right (Nat.le_add_right ..), Nat.add_sub_cancel_left]
    cases xs with
    | nil => cases between <;> simp
    | cons x' xs => simp
  have mid := merges.first
  have last := merges.second
  have out := merges.out
  have fits := merges.fits
  simp only [List.length_cons] at mid last many at2 fits
  have run : mergeRound before scopy stop m = some { m with
      s := front ++ [x] ++ (old ++ back), i1 := m.i1 + 1, val1 := z, out := m.out + 1 } := by
    simp only [mergeRound, here, there, first, put, next, if_pos, Option.bind_eq_bind,
      Option.bind_some]
  refine ⟨_, run, ?_⟩
  constructor
  · refine ⟨pre ++ [x], between, post, by simp [copied], by simp [at1], ?_⟩
    simp only [List.length_append, List.length_singleton]
    omega
  · simp only
    omega
  · exact last
  · exact ahead
  · exact merges.val2
  · simp only [List.length_append, List.length_singleton]
    omega
  · simp only [List.length_append, List.length_cons, List.length_nil]
    omega
  · refine ⟨old, rfl, ?_⟩
    simp only [List.length_cons]
    omega

theorem Merges.right (merges : Merges m scopy middle stop front (x :: xs) (y :: ys) back)
    (second : before x y = false) :
    ∃ m', mergeRound before scopy stop m = some m' ∧
      Merges m' scopy middle stop (front ++ [y]) (x :: xs) ys back := by
  obtain ⟨old, put, many⟩ := merges.put y (by simp only [List.length_cons]; omega)
  obtain ⟨pre, between, post, copied, at1, at2⟩ := merges.copied
  have here := merges.val1 x rfl
  have there := merges.val2 y rfl
  have mid := merges.first
  have last := merges.second
  have out := merges.out
  have fits := merges.fits
  simp only [List.length_cons] at mid last many at2 fits
  have copied' : scopy = pre ++ (x :: xs ++ (between ++ [y] ++ (ys ++ post))) := by
    simp [copied]
  obtain ⟨z, run, ahead⟩ : ∃ z, mergeRound before scopy stop m = some { m with
      s := front ++ [y] ++ (old ++ back), i2 := m.i2 + 1, val2 := z, out := m.out + 1 } ∧
      ∀ y' ∈ ys.head?, z = y' := by
    simp only [mergeRound, here, there, second, put, Bool.false_eq_true, if_false,
      Option.bind_eq_bind, Option.bind_some]
    cases ys with
    | nil =>
      rw [if_neg (by simp only [List.length_nil] at last; omega)]
      exact ⟨y, by simp [← there], by simp⟩
    | cons y' ys =>
      have next : scopy[m.i2 + 1]? = some y' := by
        rw [copied', at2, ← List.append_assoc, ← List.append_assoc,
          List.getElem?_append_right (by simp; omega)]
        simp only [List.length_append, List.length_cons, List.length_nil, List.cons_append]
        rw [show pre.length + (xs.length + 1) + between.length + 1 -
          (pre.length + (xs.length + 1) + (between.length + (0 + 1))) = 0 by omega]
        rfl
      rw [if_pos (by simp only [List.length_cons] at last; omega), next]
      exact ⟨y', rfl, by simp⟩
  refine ⟨_, run, ?_⟩
  constructor
  · refine ⟨pre, between ++ [y], post, copied', at1, ?_⟩
    simp only [List.length_append, List.length_cons, List.length_nil]
    omega
  · exact mid
  · simp only
    omega
  · exact merges.val1
  · exact ahead
  · simp only [List.length_append, List.length_singleton]
    omega
  · simp only [List.length_append, List.length_cons, List.length_nil]
    omega
  · refine ⟨old, rfl, ?_⟩
    simp only [List.length_cons]
    omega

theorem Merges.copies (merges : Merges m scopy middle stop front xs ys back)
    (ends : xs = [] ∨ ys = []) :
    mergeRest scopy middle stop m = some (front ++ (List.merge xs ys before ++ back)) := by
  obtain ⟨pre, between, post, copied, at1, at2⟩ := merges.copied
  obtain ⟨old, here, many⟩ := merges.rest
  have mid := merges.first
  have last := merges.second
  have out := merges.out
  have fits := merges.fits
  unfold mergeRest
  rw [here]
  rcases ends with rfl | rfl
  · simp only [List.length_nil] at mid many last at2 fits
    have split : scopy = (pre ++ between) ++ (ys ++ post) := by
      rw [copied, List.nil_append, List.append_assoc]
    have place : (m.i2 : Int) = (pre ++ between).length := by
      rw [List.length_append]
      omega
    rw [if_neg (by omega), List.nil_merge, split]
    exact replaceFrom_middle out (by omega) place (by omega)
  · simp only [List.length_nil] at mid many last fits
    rw [List.merge_right]
    split
    · rw [copied]
      exact replaceFrom_middle out (by omega) (by simp [at1]) (by omega)
    · have none_ : xs = [] := List.eq_nil_of_length_eq_zero (by omega)
      subst none_
      simp only [List.length_nil] at mid many last fits
      have nothing : old = [] := List.eq_nil_of_length_eq_zero (by omega)
      subst nothing
      unfold replaceFrom
      rw [upTo_nat (s := front.length) (n := 0) out (by omega)]
      rfl

theorem mergeLoop_merges {rounds : Nat} (merges : Merges m scopy middle stop front xs ys back)
    (enough : xs.length + ys.length < rounds) :
    ∃ m', mergeLoop before scopy middle stop rounds m = some m' ∧
      mergeRest scopy middle stop m' = some (front ++ (List.merge xs ys before ++ back)) := by
  induction rounds generalizing m front xs ys with
  | zero => omega
  | succ rounds ih =>
    have mid := merges.first
    have last := merges.second
    unfold mergeLoop
    cases xs with
    | nil =>
      rw [if_neg (by simp only [List.length_nil] at mid; omega)]
      exact ⟨m, rfl, merges.copies (.inl rfl)⟩
    | cons x xs =>
      cases ys with
      | nil =>
        rw [if_neg (by simp only [List.length_nil] at last; omega)]
        exact ⟨m, rfl, merges.copies (.inr rfl)⟩
      | cons y ys =>
        simp only [List.length_cons] at mid last enough
        rw [if_pos (by omega), List.cons_merge_cons]
        cases first : before x y with
        | true =>
          obtain ⟨m₁, round, merges₁⟩ := merges.left first
          obtain ⟨m', run, rest⟩ := ih merges₁ (by simp only [List.length_cons]; omega)
          refine ⟨m', by rw [round]; exact run, ?_⟩
          simpa using rest
        | false =>
          obtain ⟨m₁, round, merges₁⟩ := merges.right first
          obtain ⟨m', run, rest⟩ := ih merges₁ (by simp only [List.length_cons]; omega)
          refine ⟨m', by rw [round]; exact run, ?_⟩
          simpa using rest

theorem stableSortFrom_round {mid t l r : List α} {depth : Nat}
    (first : stableSortFrom before depth (front ++ (mid ++ back)) front.length
      ((front.length + stop) / 2) = some t)
    (second : stableSortFrom before depth t ((front.length + stop) / 2 + 1) stop =
      some (front ++ (l ++ (r ++ back))))
    (half : (front.length + stop) / 2 + 1 = front.length + l.length)
    (last : stop + 1 = front.length + (l.length + r.length))
    (same : mid.length = l.length + r.length) (left : l ≠ []) (right : r ≠ []) :
    stableSortFrom before (depth + 1) (front ++ (mid ++ back)) front.length stop =
      some (front ++ (List.merge l r before ++ back)) := by
  obtain ⟨x, xs, rfl⟩ := List.exists_cons_of_ne_nil left
  obtain ⟨y, ys, rfl⟩ := List.exists_cons_of_ne_nil right
  have within : ¬ stop > (front ++ (mid ++ back)).length := by
    simp only [List.length_append]
    omega
  have more : ¬ ((front ++ (mid ++ back)).length ≤ 1 ∨ front.length ≥ stop) := by
    simp only [List.length_append, List.length_cons] at *
    omega
  have here : (front ++ (x :: xs ++ (y :: ys ++ back)))[front.length]? = some x := by simp
  have there : (front ++ (x :: xs ++ (y :: ys ++ back)))[(front.length + stop) / 2 + 1]? =
      some y := by
    rw [half, ← List.append_assoc, List.getElem?_append_right (by simp),
      List.length_append, Nat.sub_self]
    rfl
  have begins : Merges ⟨front ++ (mid ++ back), front.length, (front.length + stop) / 2 + 1, x, y,
      (front.length : Int) - 1⟩ (front ++ (x :: xs ++ (y :: ys ++ back)))
      ((front.length + stop) / 2) stop front (x :: xs) (y :: ys) back := by
    constructor
    · exact ⟨front, [], back, rfl, rfl, half⟩
    · exact half
    · simp only
      omega
    · simp
    · simp
    · simp only
      omega
    · omega
    · exact ⟨mid, rfl, same⟩
  obtain ⟨m', run, rest⟩ :=
    @mergeLoop_merges α before _ _ _ _ _ _ _ _ (stop - front.length + 2) begins (by omega)
  simp only [stableSortFrom, if_neg within, if_neg more, first, second, here, there, run, rest,
    Option.bind_eq_bind, Option.bind_some]

end Loop

def alike (before : α → α → Bool) (x y : α) : Bool := before x y && before y x

/-- A sorted permutation that keeps elements in their order that come before each other. -/
structure StableSorted (before : α → α → Bool) (xs xs' : List α) : Prop where
  perm : xs'.Perm xs
  sorted : xs'.Pairwise (before · · = true)
  stable : ∀ x, xs'.filter (alike before x) = xs.filter (alike before x)

section Order

variable {before : α → α → Bool} {xs ys xs' ys' : List α}
variable (total : ∀ a b, before a b = true ∨ before b a = true)
variable (trans : ∀ a b c, before a b = true → before b c = true → before a c = true)

include trans in
theorem filter_merge (xs ys : List α) (sorted : xs.Pairwise (before · · = true)) (z : α) :
    (List.merge xs ys before).filter (alike before z) =
      xs.filter (alike before z) ++ ys.filter (alike before z) := by
  induction xs generalizing ys with
  | nil => rw [List.nil_merge]; rfl
  | cons x xs ihx =>
    have below := (List.pairwise_cons.mp sorted).1
    induction ys with
    | nil => rw [List.merge_right, List.filter_nil, List.append_nil]
    | cons y ys ihy =>
      rw [List.cons_merge_cons]
      split
      · rw [List.filter_cons, List.filter_cons, ihx _ (List.pairwise_cons.mp sorted).2]
        split <;> rfl
      · next strict =>
        rw [List.filter_cons, List.filter_cons (x := y), ihy]
        split
        · next same =>
          simp only [alike, Bool.and_eq_true] at same
          -- Nothing in the first half is alike, because it all comes after `y`.
          have none_ : (x :: xs).filter (alike before z) = [] := by
            rw [List.filter_eq_nil_iff]
            intro w member both
            simp only [alike, Bool.and_eq_true] at both
            have early : before w y = true := trans w z y both.2 same.1
            rcases List.mem_cons.mp member with rfl | later
            · exact strict early
            · exact strict (trans x w y (below w later) early)
          rw [none_, List.nil_append, List.nil_append]
        · rfl

include total trans in
theorem StableSorted.merge (first : StableSorted before xs xs')
    (second : StableSorted before ys ys') :
    StableSorted before (xs ++ ys) (List.merge xs' ys' before) := by
  constructor
  · exact (List.merge_perm_append before).trans (first.perm.append second.perm)
  · apply List.pairwise_merge trans
    · intro a b
      simpa using total a b
    · exact first.sorted
    · exact second.sorted
  · intro x
    rw [filter_merge trans xs' ys' first.sorted, first.stable, second.stable, List.filter_append]

include total trans in
theorem stableSortFrom_segment (n : Nat) (front mid back : List α) (most : mid.length ≤ n)
    (some_ : 0 < mid.length) :
    ∃ mid', StableSorted before mid mid' ∧ ∀ depth start stop, mid.length ≤ depth →
      start = front.length → stop + 1 = front.length + mid.length →
      stableSortFrom before depth (front ++ (mid ++ back)) start stop =
        some (front ++ (mid' ++ back)) := by
  induction n generalizing front mid back with
  | zero => omega
  | succ n ih =>
    rcases Nat.lt_or_ge 1 mid.length with long | short
    · -- The first half has the places up to the middle, which is `(start + stop) // 2`.
      obtain ⟨l, r, rfl, half, lpos, rpos⟩ : ∃ l r, mid = l ++ r ∧
          (front.length + (front.length + mid.length - 1)) / 2 + 1 = front.length + l.length ∧
          0 < l.length ∧ 0 < r.length := by
        have lower : (front.length + (front.length + mid.length - 1)) / 2 + 1 - front.length
          ≤ mid.length := by omega
        refine ⟨mid.take ((front.length + (front.length + mid.length - 1)) / 2 + 1 - front.length),
          mid.drop ((front.length + (front.length + mid.length - 1)) / 2 + 1 - front.length),
          (List.take_append_drop _ _).symm, ?_⟩
        rw [List.length_take, List.length_drop]
        omega
      rw [List.length_append] at most half long
      obtain ⟨l', sortedl, runl⟩ := ih front l (r ++ back) (by omega) lpos
      obtain ⟨r', sortedr, runr⟩ := ih (front ++ l') r back (by omega) rpos
      have samel := sortedl.perm.length_eq
      have samer := sortedr.perm.length_eq
      refine ⟨List.merge l' r' before, StableSorted.merge total trans sortedl sortedr, ?_⟩
      rintro depth start stop enough rfl last
      rw [List.length_append] at enough last
      obtain ⟨depth, rfl⟩ : ∃ k, depth = k + 1 := ⟨depth - 1, by omega⟩
      have mid_ : (front.length + stop) / 2 + 1 = front.length + l.length := by
        rw [← half]
        congr 2
        omega
      have first := runl depth front.length ((front.length + stop) / 2) (by omega) rfl mid_
      have second := runr depth ((front.length + stop) / 2 + 1) stop (by omega)
        (by rw [List.length_append, samel]; exact mid_)
        (by rw [List.length_append, samel, last]; omega)
      have whole : front ++ (l ++ (r ++ back)) = front ++ (l ++ r ++ back) := by
        rw [List.append_assoc]
      rw [List.append_assoc, List.append_assoc] at second
      rw [whole] at first
      exact stableSortFrom_round first second (by rw [samel]; exact mid_) (by omega)
        (by rw [List.length_append]; omega) (List.length_pos_iff.mp (by omega))
        (List.length_pos_iff.mp (by omega))
    · refine ⟨mid, ⟨.refl _, ?_, fun _ => rfl⟩, ?_⟩
      · obtain ⟨x, rfl⟩ := List.length_eq_one_iff.mp (Nat.le_antisymm short some_)
        exact List.pairwise_singleton _ _
      · rintro depth start stop enough rfl last
        obtain ⟨depth, rfl⟩ : ∃ k, depth = k + 1 := ⟨depth - 1, by omega⟩
        have within : ¬ stop > (front ++ (mid ++ back)).length := by
          simp only [List.length_append]
          omega
        have done : (front ++ (mid ++ back)).length ≤ 1 ∨ front.length ≥ stop := .inr (by omega)
        simp only [stableSortFrom, if_neg within, if_pos done]

/-- The merge-sort ends with the same answer for each sufficient bound: it changes the range
only, sorts it, and keeps elements in their order that come before each other. -/
theorem merge_sort_sorts {s : List α} {start stop : Nat} (forward : start ≤ stop)
    (last : stop < s.length)
    (total : ∀ a b, before a b = true ∨ before b a = true)
    (trans : ∀ a b c, before a b = true → before b c = true → before a c = true) :
    ∃ s', (∀ depth, stop - start < depth → stableSortFrom before depth s start stop = some s') ∧
      s'.length = s.length ∧ (∀ k, k < start ∨ stop < k → s'[k]? = s[k]?) ∧
      StableSorted before ((s.drop start).take (stop + 1 - start))
        ((s'.drop start).take (stop + 1 - start)) := by
  have parts : s = s.take start ++ ((s.drop start).take (stop + 1 - start) ++
      s.drop (stop + 1)) := by
    have back : s.drop (stop + 1) = (s.drop start).drop (stop + 1 - start) := by
      rw [List.drop_drop]
      congr 1
      omega
    rw [back, List.take_append_drop, List.take_append_drop]
  have front : (s.take start).length = start := by
    rw [List.length_take]
    omega
  have size : ((s.drop start).take (stop + 1 - start)).length = stop + 1 - start := by
    rw [List.length_take, List.length_drop]
    omega
  obtain ⟨mid', sorted, run⟩ := stableSortFrom_segment total trans _ (s.take start)
    ((s.drop start).take (stop + 1 - start)) (s.drop (stop + 1)) (Nat.le_refl _) (by omega)
  have same := sorted.perm.length_eq
  refine ⟨s.take start ++ (mid' ++ s.drop (stop + 1)), ?_, ?_, ?_, ?_⟩
  · intro depth enough
    have sorts := run depth start stop (by omega) front.symm (by omega)
    rwa [← parts] at sorts
  · rw [List.length_append, List.length_append, front, same, size, List.length_drop]
    omega
  · intro k off
    rcases Nat.lt_or_ge k start with before_ | behind
    · rw [List.getElem?_append_left (by omega), List.getElem?_take, if_pos before_]
    · rw [List.getElem?_append_right (by omega), List.getElem?_append_right (by omega),
        List.getElem?_drop]
      congr 1
      omega
  · have middle : ((s.take start ++ (mid' ++ s.drop (stop + 1))).drop start).take
        (stop + 1 - start) = mid' := by
      rw [List.drop_append_of_le_length (by omega), List.drop_of_length_le (by omega),
        List.nil_append, List.take_append_of_le_length (by omega),
        List.take_of_length_le (by omega)]
    rw [middle]
    exact sorted

/-- Pairs that are sorted by their first parts. -/
theorem merge_sort_pairs :
    ∃ s', (∀ depth, 3 - 0 < depth → stableSortFrom (fun a b : Nat × Nat => decide (a.1 ≤ b.1))
        depth [(2, 0), (1, 1), (2, 2), (1, 3), (0, 4)] 0 3 = some s') ∧
      s'.length = 5 ∧
      (∀ k, k < 0 ∨ 3 < k → s'[k]? = [(2, 0), (1, 1), (2, 2), (1, 3), (0, 4)][k]?) ∧
      StableSorted (fun a b => decide (a.1 ≤ b.1)) [(2, 0), (1, 1), (2, 2), (1, 3)]
        ((s'.drop 0).take 4) :=
  merge_sort_sorts (by decide) (by decide) (by simpa using Nat.le_total)
    (by simpa using fun _ _ _ => Nat.le_trans)

end Order

end SlateVm.Collections
