import SlateVm.Lib.Ring
import SlateVm.Collections.Queue

/-! Runs of `Queue` operations beside the plain list they work on. The elements are laid in
the ring of the contents array; what is written elsewhere does not matter. -/
namespace SlateVm.Collections.Queue

open Refinement Ring

variable {α : Type} {q : Queue α} {xs ys : List α} {f : Nat}

theorem emod_cases {a n : Int} (low : -n ≤ a) (high : a < 2 * n) :
    (0 ≤ a ∧ a < n ∧ a % n = a) ∨ (n ≤ a ∧ a % n = a - n) ∨ (a < 0 ∧ a % n = a + n) := by
  rcases Int.lt_or_le a 0 with under | beyond
  · refine .inr (.inr ⟨under, ?_⟩)
    rw [← Int.add_emod_right, Int.emod_eq_of_lt (by omega) (by omega)]
  · rcases Int.lt_or_le a n with within | beyond
    · exact .inl ⟨beyond, within, Int.emod_eq_of_lt beyond within⟩
    · refine .inr (.inl ⟨beyond, ?_⟩)
      rw [← Int.sub_emod_right, Int.emod_eq_of_lt (by omega) (by omega)]

/-- The elements `xs` are laid in the contents from `f` on, and leave a place free. -/
structure Holds (q : Queue α) (f : Nat) (xs : List α) : Prop where
  first : q.firstIndex = f
  last : q.lastIndex = place q.contents.length f xs.length
  few : xs.length < q.contents.length
  laid : Laid (q.contents[·]?) q.contents.length f xs

theorem Holds.ends (holds : Holds q f xs) : ∃ l : Nat, q.lastIndex = l ∧
    (f + xs.length < q.contents.length ∧ l = f + xs.length ∨
      q.contents.length ≤ f + xs.length ∧ l + q.contents.length = f + xs.length) := by
  refine ⟨_, holds.last, ?_⟩
  unfold place
  split <;> omega

theorem Holds.isSplit (holds : Holds q f xs) :
    q.isSplit = decide (q.contents.length ≤ f + xs.length) := by
  obtain ⟨l, last, ends⟩ := holds.ends
  have first := holds.first
  have few := holds.few
  unfold Queue.isSplit
  rw [decide_eq_decide]
  omega

theorem Holds.size (holds : Holds q f xs) : q.size = xs.length := by
  obtain ⟨l, last, ends⟩ := holds.ends
  have first := holds.first
  unfold Queue.size contentsSize
  rw [holds.isSplit]
  split <;> simp_all <;> omega

theorem Holds.gapSize (holds : Holds q f xs) :
    q.gapSize = q.contents.length - 1 - xs.length := by
  obtain ⟨l, last, ends⟩ := holds.ends
  have first := holds.first
  unfold Queue.gapSize contentsSize
  rw [holds.isSplit]
  split <;> simp_all <;> omega

theorem Holds.isFull (holds : Holds q f xs) :
    q.isFull = decide (xs.length + 1 = q.contents.length) := by
  obtain ⟨l, last, ends⟩ := holds.ends
  have first := holds.first
  have few := holds.few
  have below := holds.laid.first
  have same : (q.firstIndex = 0 ∧ q.contentsSize - 1 = q.lastIndex) ∨
      q.lastIndex + 1 = q.firstIndex ↔ xs.length + 1 = q.contents.length := by
    unfold contentsSize
    omega
  unfold Queue.isFull
  rw [← Bool.decide_and, ← Bool.decide_or, decide_eq_decide]
  exact same

theorem replaceBelow_copied {cs source : List α} {start stop repStart : Int} {s n r : Nat}
    (first : start = s) (last : stop = s + n) (from_ : repStart = r)
    (fits : s + n ≤ cs.length) (enough : r + n ≤ source.length) :
    ∃ cs', replaceBelow cs start stop source repStart = some cs' ∧ Copied cs cs' s n source r :=
  replaceFrom_copied first (by omega) from_ fits enough

variable [Inhabited α]

theorem Holds.growTo (holds : Holds q f xs) {n : Nat} (larger : q.contents.length ≤ n) :
    ∃ q' f', q.growTo n = some q' ∧ Holds q' f' xs ∧ q'.contents.length = n + 1 := by
  obtain ⟨l, last, ends⟩ := holds.ends
  have first := holds.first
  have few := holds.few
  have below := holds.laid.first
  have gap := holds.gapSize
  have size := holds.size
  have split := holds.isSplit
  unfold Queue.growTo
  rw [if_neg (by omega), split]
  have wide : (List.replicate ((n : Int) + 1).toNat (default : α)).length = n + 1 := by simp
  generalize List.replicate ((n : Int) + 1).toNat (default : α) = fresh at wide
  rcases ends with ⟨straight, end_⟩ | ⟨wrapped, end_⟩
  · rw [if_neg (by simpa using straight)]
    obtain ⟨cs, run, copied⟩ := @replaceFrom_copied α fresh q.contents q.firstIndex q.lastIndex
      q.firstIndex f (xs.length + 1) f first (by omega) first (by omega) (by omega)
    have same : cs.length = n + 1 := copied.length.trans wide
    refine ⟨⟨cs, q.firstIndex, q.lastIndex⟩, f, ?_, ?_, same⟩
    · simp [growWhole, run]
    · constructor
      · exact first
      · simp only [same]
        rw [place_straight (by omega), last, end_]
      · simp only [same]
        omega
      · apply laid_straight
        · simp only [same]
          omega
        · simp only [same]
          omega
        · intro i hi
          exact (copied.inside i (by omega)).trans (holds.laid.straight hi (by omega))
  · rw [if_pos (by simpa using wrapped)]
    have offset : (fresh.length : Int) - q.contentsSize = (n + 1 - q.contents.length : Nat) := by
      unfold contentsSize
      omega
    obtain ⟨c₁, run₁, lower⟩ := @replaceFrom_copied α fresh q.contents 0 q.lastIndex 0 0 (l + 1) 0
      rfl (by omega) rfl (by omega) (by omega)
    obtain ⟨c₂, run₂, upper⟩ := @replaceBelow_copied α c₁ q.contents
      (q.firstIndex + (n + 1 - q.contents.length : Nat)) fresh.length q.firstIndex
      (f + (n + 1 - q.contents.length)) (q.contents.length - f) f (by omega) (by omega) first
      (by rw [lower.length]; omega) (by omega)
    have same : c₂.length = n + 1 := (upper.length.trans lower.length).trans wide
    refine ⟨⟨c₂, q.firstIndex + (n + 1 - q.contents.length : Nat), q.lastIndex⟩,
      f + (n + 1 - q.contents.length), ?_, ?_, same⟩
    · simp only [growSplit, offset, run₁, lower.length, run₂, Option.bind_eq_bind,
        Option.bind_some]
    · constructor
      · simp only
        omega
      · simp only [same]
        rw [place_wrapped (by omega)]
        omega
      · simp only [same]
        omega
      · apply laid_wrapped
        · simp only [same]
          omega
        · simp only [same]
          omega
        · intro i hi
          simp only [same] at hi
          exact (upper.inside i (by omega)).trans (holds.laid.straight (by omega) (by omega))
        · intro i hi
          simp only [same] at hi ⊢
          rw [upper.outside i (by omega), ← Nat.zero_add i, lower.inside i (by omega),
            holds.laid.wrapped (i := 0 + i) (by omega)]
          congr 1
          omega

theorem Holds.roomed (holds : Holds q f xs) :
    ∃ q' f', q.roomed = some q' ∧ Holds q' f' xs ∧ xs.length + 1 < q'.contents.length := by
  have few := holds.few
  unfold Queue.roomed
  rw [holds.isFull]
  split
  · have size : q.growSize = ((max ((q.contents.length - 1) * 2) 8 : Nat) : Int) := by
      unfold growSize capacity contentsSize
      omega
    obtain ⟨q', f', run, grown, length⟩ :=
      holds.growTo (n := max ((q.contents.length - 1) * 2) 8) (by omega)
    exact ⟨q', f', by rw [size, run], grown, by omega⟩
  · rename_i free
    have free : ¬ xs.length + 1 = q.contents.length := by simpa using free
    exact ⟨q, f, rfl, holds, by omega⟩

omit [Inhabited α]

/-- The contents `c'` differ from `c` in the `k` places from `g` on at most. -/
structure Changed (cs cs' : List α) (g k : Nat) : Prop where
  length : cs'.length = cs.length
  within : Within (cs[·]?) (cs'[·]?) cs.length g k

theorem changed_set {cs : List α} {g : Nat} (inside : g < cs.length) (x : α) :
    Changed cs (cs.set g x) g 1 := by
  constructor
  · simp
  · apply within_straight (by omega)
    intro p other
    exact List.getElem?_set_ne (by omega)

theorem stored_straight {cs cs' : List α} {g : Nat} (copied : Copied cs cs' g ys.length ys 0)
    (start : g < cs.length) (fits : g + ys.length ≤ cs.length) :
    Changed cs cs' g ys.length ∧ Laid (cs'[·]?) cs.length g ys := by
  constructor
  · exact ⟨copied.length, within_straight fits fun p other => copied.outside p other⟩
  · apply laid_straight fits start
    intro i hi
    simpa using copied.inside i hi

theorem stored_wrapped {cs cs' : List α} {g : Nat} (length : cs'.length = cs.length)
    (start : g < cs.length) (beyond : cs.length ≤ g + ys.length) (few : ys.length ≤ cs.length)
    (upper : ∀ i < cs.length - g, cs'[g + i]? = ys[i]?)
    (lower : ∀ i, cs.length - g + i < ys.length → cs'[i]? = ys[cs.length - g + i]?)
    (outside : ∀ p, g + ys.length - cs.length ≤ p → p < g ∨ cs.length ≤ p → cs'[p]? = cs[p]?) :
    Changed cs cs' g ys.length ∧ Laid (cs'[·]?) cs.length g ys :=
  ⟨⟨length, within_wrapped beyond start outside⟩, laid_wrapped few start upper lower⟩

theorem Holds.behind {cs : List α} {last : Int} (holds : Holds q f xs)
    (changed : Changed q.contents cs (place q.contents.length f xs.length) ys.length)
    (laid : Laid (cs[·]?) q.contents.length (place q.contents.length f xs.length) ys)
    (few : xs.length + ys.length < q.contents.length)
    (end_ : last = place q.contents.length f (xs.length + ys.length)) :
    Holds ⟨cs, q.firstIndex, last⟩ f (xs ++ ys) := by
  have same := changed.length
  constructor
  · exact holds.first
  · simpa [same] using end_
  · simpa [same] using few
  · rw [show (Queue.mk cs q.firstIndex last).contents.length = q.contents.length from same]
    exact holds.laid.append_within laid (by omega) changed.within

theorem Holds.before {cs : List α} {g : Nat} (holds : Holds q f xs)
    (changed : Changed q.contents cs g ys.length) (laid : Laid (cs[·]?) q.contents.length g ys)
    (few : ys.length + xs.length < q.contents.length)
    (next : place q.contents.length g ys.length = f) :
    Holds ⟨cs, g, q.lastIndex⟩ g (ys ++ xs) := by
  have same := changed.length
  have last := holds.last
  rw [← next, place_place laid.first few] at last
  constructor
  · rfl
  · simpa [same] using last
  · simpa [same] using few
  · rw [show (Queue.mk cs (g : Int) q.lastIndex).contents.length = q.contents.length from same]
    exact (next ▸ holds.laid).prepend_within laid (by omega) changed.within

theorem Holds.withoutLast {cs : List α} {last : Int} (holds : Holds q f (xs ++ ys))
    (changed : Changed q.contents cs (place q.contents.length f xs.length) ys.length)
    (end_ : last = place q.contents.length f xs.length) : Holds ⟨cs, q.firstIndex, last⟩ f xs := by
  have same := changed.length
  have few := holds.few
  simp only [List.length_append] at few
  constructor
  · exact holds.first
  · simpa [same] using end_
  · simp only [same]
    omega
  · rw [show (Queue.mk cs q.firstIndex last).contents.length = q.contents.length from same]
    exact holds.laid.left_within changed.within

theorem Holds.withoutFirst {cs : List α} {g : Int} (holds : Holds q f (xs ++ ys))
    (changed : Changed q.contents cs f xs.length)
    (next : g = place q.contents.length f xs.length) :
    Holds ⟨cs, g, q.lastIndex⟩ (place q.contents.length f xs.length) ys := by
  have same := changed.length
  have few := holds.few
  have last := holds.last
  simp only [List.length_append] at few last
  constructor
  · exact next
  · simp only [same]
    rw [place_place holds.laid.first few]
    exact last
  · simp only [same]
    omega
  · rw [show (Queue.mk cs g q.lastIndex).contents.length = q.contents.length from same]
    exact holds.laid.right_within (by omega) changed.within

theorem emod_forward {n g k : Nat} (start : g < n) (few : k < n) :
    ((g : Int) + k) % n = place n g k := by
  have cases_ := emod_cases (a := (g : Int) + k) (n := n) (by omega) (by omega)
  unfold place
  split <;> omega

theorem emod_back {n g k : Nat} (start : g < n) (few : k < n) :
    ((place n g k : Int) - k) % n = g := by
  have inside := place_lt start few
  have where_ : g + k < n ∧ place n g k = g + k ∨ n ≤ g + k ∧ place n g k + n = g + k := by
    unfold place
    split <;> omega
  generalize place n g k = p at inside where_
  have cases_ := emod_cases (a := (p : Int) - k) (n := n) (by omega) (by omega)
  omega

variable [Inhabited α]

theorem Holds.addLast (holds : Holds q f xs) (obj : α) :
    ∃ q' f', q.addLast obj = some q' ∧ Holds q' f' (xs ++ [obj]) := by
  obtain ⟨q₁, f₁, run, holds, room⟩ := holds.roomed
  have inside := place_lt holds.laid.first holds.few
  have turn : (q₁.lastIndex + 1) % q₁.contentsSize =
      place q₁.contents.length f₁ (xs.length + 1) := by
    rw [holds.last, ← place_place holds.laid.first room]
    exact emod_forward (k := 1) inside (by omega)
  refine ⟨⟨q₁.contents.set (place q₁.contents.length f₁ xs.length) obj, q₁.firstIndex,
    (q₁.lastIndex + 1) % q₁.contentsSize⟩, f₁, ?_, ?_⟩
  · simp only [Queue.addLast, run, Option.bind_eq_bind, Option.bind_some]
    rw [holds.last, arrayPut_nat inside]
    rfl
  · have laid : Laid (_[·]?) q₁.contents.length _ [obj] :=
      laid_one inside (List.getElem?_set_self inside)
    exact holds.behind (changed_set inside obj) laid room turn

theorem Holds.addFirst (holds : Holds q f xs) (obj : α) :
    ∃ q' f', q.addFirst obj = some q' ∧ Holds q' f' (obj :: xs) := by
  obtain ⟨q₁, f₁, run, holds, room⟩ := holds.roomed
  have start := holds.laid.first
  obtain ⟨g, inside, next⟩ := place_before (k := 1) start (by omega)
  have turn : (q₁.firstIndex - 1) % q₁.contentsSize = g := by
    rw [holds.first, ← next]
    exact emod_back (k := 1) inside (by omega)
  refine ⟨⟨q₁.contents.set g obj, g, q₁.lastIndex⟩, g, ?_, ?_⟩
  · simp only [Queue.addFirst, run, Option.bind_eq_bind, Option.bind_some, turn]
    rw [arrayPut_nat inside]
    rfl
  · have laid : Laid (_[·]?) q₁.contents.length _ [obj] :=
      laid_one inside (List.getElem?_set_self inside)
    exact holds.before (changed_set inside obj) laid (by simp; omega) next

theorem Holds.roomLast (holds : Holds q f xs) (n : Nat) : ∃ q' f', q.roomLast n = some q' ∧
    Holds q' f' xs ∧ xs.length + n < q'.contents.length := by
  have few := holds.few
  have gap := holds.gapSize
  unfold Queue.roomLast
  split
  · have size : q.capacity + n = ((q.contents.length - 1 + n : Nat) : Int) := by
      unfold capacity contentsSize
      omega
    obtain ⟨q', f', run, grown, length⟩ :=
      holds.growTo (n := q.contents.length - 1 + n) (by omega)
    exact ⟨q', f', by rw [size, run], grown, by omega⟩
  · exact ⟨q, f, rfl, holds, by omega⟩

theorem Holds.roomFirst (holds : Holds q f xs) (n : Nat) : ∃ q' f', q.roomFirst n = some q' ∧
    Holds q' f' xs ∧ xs.length + n < q'.contents.length := by
  have few := holds.few
  have gap := holds.gapSize
  unfold Queue.roomFirst
  split
  · obtain ⟨q', f', run, grown, length⟩ := holds.growTo (n := q.contents.length + n) (by omega)
    exact ⟨q', f', run, grown, by omega⟩
  · exact ⟨q, f, rfl, holds, by omega⟩

omit [Inhabited α] in
theorem storeLast_stores {l : Nat} (last : q.lastIndex = l) (start : l < q.contents.length)
    (few : ys.length < q.contents.length) :
    ∃ cs, q.storeLast ys (place q.contents.length l ys.length) = some cs ∧
      Changed q.contents cs l ys.length ∧ Laid (cs[·]?) q.contents.length l ys := by
  unfold storeLast
  rcases Nat.lt_or_ge (l + ys.length) q.contents.length with within | beyond
  · rw [place_straight within, if_neg (by omega)]
    obtain ⟨cs, run, copied⟩ := @replaceBelow_copied α q.contents ys q.lastIndex
      (l + ys.length : Nat) 0 l ys.length 0 last (by omega) rfl (by omega) (by omega)
    exact ⟨cs, run, stored_straight copied start (by omega)⟩
  · rw [place_wrapped beyond, if_pos (by omega)]
    obtain ⟨c₁, run₁, upper⟩ := @replaceBelow_copied α q.contents ys q.lastIndex q.contentsSize 0
      l (q.contents.length - l) 0 last (by unfold contentsSize; omega) rfl (by omega) (by omega)
    obtain ⟨c₂, run₂, lower⟩ := @replaceBelow_copied α c₁ ys 0
      (ys.length - (q.contentsSize - q.lastIndex)) (q.contentsSize - q.lastIndex) 0
      (l + ys.length - q.contents.length) (q.contents.length - l) rfl
      (by unfold contentsSize; omega) (by unfold contentsSize; omega)
      (by rw [upper.length]; omega) (by omega)
    refine ⟨c₂, by simp only [run₁, run₂, Option.bind_eq_bind, Option.bind_some], ?_⟩
    apply stored_wrapped (lower.length.trans upper.length) start beyond (by omega)
    · intro i hi
      rw [lower.outside _ (by omega), upper.inside i hi, Nat.zero_add]
    · intro i hi
      simpa using lower.inside i (by omega)
    · intro p behind other
      rw [lower.outside p (by omega), upper.outside p (by omega)]

theorem Holds.addAllLast (holds : Holds q f xs) (seq : List α) :
    ∃ q' f', q.addAllLast seq = some q' ∧ Holds q' f' (xs ++ seq) := by
  obtain ⟨q₁, f₁, run, holds, room⟩ := holds.roomLast seq.length
  have inside := place_lt holds.laid.first holds.few
  have turn : (q₁.lastIndex + seq.length) % q₁.contentsSize =
      place q₁.contents.length (place q₁.contents.length f₁ xs.length) seq.length := by
    rw [holds.last]
    exact emod_forward inside (by omega)
  obtain ⟨cs, stores, changed, laid⟩ :=
    @storeLast_stores α q₁ seq _ holds.last inside (by omega)
  refine ⟨_, f₁, ?_, holds.behind changed laid room (turn.trans ?_)⟩
  · simp only [Queue.addAllLast, run, Option.bind_eq_bind, Option.bind_some]
    rw [turn, stores]
    rfl
  · rw [place_place holds.laid.first room]

omit [Inhabited α] in
theorem storeFirst_stores {g : Nat} (start : g < q.contents.length)
    (few : ys.length < q.contents.length)
    (first : q.firstIndex = place q.contents.length g ys.length) :
    ∃ cs, q.storeFirst ys g = some cs ∧
      Changed q.contents cs g ys.length ∧ Laid (cs[·]?) q.contents.length g ys := by
  unfold storeFirst
  rcases Nat.lt_or_ge (g + ys.length) q.contents.length with within | beyond
  · rw [place_straight within] at first
    rw [if_neg (by omega)]
    obtain ⟨cs, run, copied⟩ := @replaceBelow_copied α q.contents ys g q.firstIndex 0 g ys.length
      0 rfl (by omega) rfl (by omega) (by omega)
    exact ⟨cs, run, stored_straight copied start (by omega)⟩
  · rw [place_wrapped beyond] at first
    rw [if_pos (by omega)]
    obtain ⟨c₁, run₁, lower⟩ := @replaceBelow_copied α q.contents ys 0 q.firstIndex
      (ys.length - q.firstIndex) 0 (g + ys.length - q.contents.length) (q.contents.length - g) rfl
      (by omega) (by omega) (by omega) (by omega)
    obtain ⟨c₂, run₂, upper⟩ := @replaceBelow_copied α c₁ ys g q.contentsSize 0 g
      (q.contents.length - g) 0 rfl (by unfold contentsSize; omega) rfl
      (by rw [lower.length]; omega) (by omega)
    refine ⟨c₂, by simp only [run₁, run₂, Option.bind_eq_bind, Option.bind_some], ?_⟩
    apply stored_wrapped (upper.length.trans lower.length) start beyond (by omega)
    · intro i hi
      rw [upper.inside i hi, Nat.zero_add]
    · intro i hi
      rw [upper.outside _ (by omega), ← lower.inside i (by omega), Nat.zero_add]
    · intro p behind other
      rw [upper.outside p (by omega), lower.outside p (by omega)]

theorem Holds.addAllFirst (holds : Holds q f xs) (seq : List α) :
    ∃ q' f', q.addAllFirst seq = some q' ∧ Holds q' f' (seq ++ xs) := by
  obtain ⟨q₁, f₁, run, holds, room⟩ := holds.roomFirst seq.length
  obtain ⟨g, inside, next⟩ := place_before (k := seq.length) holds.laid.first (by omega)
  have first := holds.first
  rw [← next] at first
  have turn : (q₁.firstIndex - seq.length) % q₁.contentsSize = g := by
    rw [first]
    exact emod_back inside (by omega)
  obtain ⟨cs, stores, changed, laid⟩ := storeFirst_stores inside (by omega) first
  refine ⟨_, g, ?_, holds.before changed laid (by omega) next⟩
  simp only [Queue.addAllFirst, run, Option.bind_eq_bind, Option.bind_some, turn, stores]

end SlateVm.Collections.Queue
