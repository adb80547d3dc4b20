import Mathlib.Data.List.Basic
import Mathlib.Data.List.Induction
import Mathlib.Tactic.Common

/-! Arrays as the collections in this directory use them: access at an index, the loops
over indices, and copying a stretch from another array or within one. -/
namespace SlateVm.Collections

variable {α : Type}

/-- `at:`; a negative index and one behind the end signal an error. -/
def arrayAt (cs : List α) (index : Int) : Option α := if index < 0 then none else cs[index.toNat]?

def arrayPut (cs : List α) (index : Int) (obj : α) : Option (List α) :=
  if index < 0 ∨ cs.length ≤ index then none else some (cs.set index.toNat obj)

def upTo (start stop : Int) : List Int :=
  (List.range (stop + 1 - start).toNat).map fun k : Nat => start + k

def downTo (start stop : Int) : List Int :=
  (List.range (start + 1 - stop).toNat).map fun k : Nat => start - k

/-- The indices of `to:do:`, which counts down when it does not start below the end. -/
def fromTo (start stop : Int) : List Int :=
  if start < stop then upTo start stop else downTo start stop

/-- Storing what `source` holds at `offset` from each index. -/
def copyAt (source : List α → List α) (offset : Int) (indices : List Int) (cs : List α) :
    Option (List α) :=
  indices.foldlM (fun cs index => do arrayPut cs index (← arrayAt (source cs) (offset + index))) cs

/-- `replaceFrom:to:with:startingAt:` from another sequence. -/
def replaceFrom (cs : List α) (start stop : Int) (replacement : List α) (repStart : Int) :
    Option (List α) := copyAt (fun _ => replacement) (repStart - start) (upTo start stop) cs

/-- `replaceFrom:to:with:startingAt:` from the sequence itself. -/
def moveFrom (cs : List α) (start stop repStart : Int) : Option (List α) :=
  copyAt id (repStart - start)
    (if start > repStart then downTo stop start else upTo start stop) cs

theorem arrayAt_nat (cs : List α) (i : Nat) : arrayAt cs i = cs[i]? := by
  have low : ¬ (i : Int) < 0 := by omega
  simp only [arrayAt, if_neg low, Int.toNat_natCast]

theorem arrayPut_nat {cs : List α} {i : Nat} (inside : i < cs.length) (obj : α) :
    arrayPut cs i obj = some (cs.set i obj) := by
  have low : ¬ ((i : Int) < 0 ∨ (cs.length : Int) ≤ i) := by omega
  simp only [arrayPut, if_neg low, Int.toNat_natCast]

theorem upTo_nat {start stop : Int} {s n : Nat} (first : start = s) (last : stop = s + n - 1) :
    upTo start stop = (List.range n).map fun k => ((s + k : Nat) : Int) := by
  unfold upTo
  rw [show (stop + 1 - start).toNat = n by omega]
  apply List.map_congr_left
  intro k _
  omega

theorem upTo_none {start stop : Int} (turned : stop < start) : upTo start stop = [] := by
  unfold upTo
  rw [show (stop + 1 - start).toNat = 0 by omega]
  rfl

theorem upTo_first {start stop : Int} (forward : start ≤ stop) :
    upTo start stop = start :: upTo (start + 1) stop := by
  unfold upTo
  rw [show (stop + 1 - start).toNat = (stop + 1 - (start + 1)).toNat + 1 by omega,
    List.range_succ_eq_map, List.map_cons, List.map_map]
  congr 1
  · simp
  · apply List.map_congr_left
    intro k _
    simp only [Function.comp_apply]
    omega

theorem mem_upTo {start stop i : Int} : i ∈ upTo start stop ↔ start ≤ i ∧ i ≤ stop := by
  unfold upTo
  rw [List.mem_map]
  constructor
  · rintro ⟨k, inside, rfl⟩
    have below := List.mem_range.mp inside
    omega
  · rintro ⟨low, high⟩
    exact ⟨(i - start).toNat, List.mem_range.mpr (by omega), by omega⟩

theorem downTo_nat {start stop : Int} {s n : Nat} (first : start = s + n - 1)
    (last : stop = s) :
    downTo start stop = (List.range n).map fun k => ((s + (n - 1 - k) : Nat) : Int) := by
  unfold downTo
  rw [show (start + 1 - stop).toNat = n by omega]
  apply List.map_congr_left
  intro k here
  have below := List.mem_range.mp here
  omega

/-- `n` elements from `r` on in `source` have come to the places from `s` on. -/
structure Copied (cs cs' : List α) (s n : Nat) (source : List α) (r : Nat) : Prop where
  length : cs'.length = cs.length
  inside : ∀ i < n, cs'[s + i]? = source[r + i]?
  outside : ∀ i, i < s ∨ s + n ≤ i → cs'[i]? = cs[i]?

theorem Copied.nothing (cs : List α) (s : Nat) (source : List α) (r : Nat) :
    Copied cs cs s 0 source r :=
  ⟨rfl, fun i none => absurd none (Nat.not_lt_zero i), fun _ _ => rfl⟩

section Loops

variable {cs : List α} {read : List α → List α}

theorem copyAt_append (offset : Int) (is js : List Int) (cs : List α) :
    copyAt read offset (is ++ js) cs = (copyAt read offset is cs).bind (copyAt read offset js) := by
  unfold copyAt
  rw [List.foldlM_append]
  rfl

theorem copyAt_one {cs' : List α} {offset : Int} {i j : Nat} (inside : i < cs'.length) {obj : α}
    (from_ : offset + i = j) (there : (read cs')[j]? = some obj) :
    copyAt read offset [(i : Int)] cs' = some (cs'.set i obj) := by
  simp [copyAt, from_, arrayAt_nat, there, arrayPut_nat inside]

theorem copyAt_up (source : List α) (read : List α → List α) {s r n : Nat} {offset : Int}
    (shift : offset + s = r)
    (fits : s + n ≤ cs.length) (enough : r + n ≤ source.length)
    (fresh : ∀ k < n, ∀ cs', Copied cs cs' s k source r → (read cs')[r + k]? = source[r + k]?) :
    ∃ cs', copyAt read offset ((List.range n).map fun k => ((s + k : Nat) : Int)) cs = some cs' ∧
      Copied cs cs' s n source r := by
  induction n with
  | zero => exact ⟨cs, rfl, .nothing cs s source r⟩
  | succ n ih =>
    obtain ⟨cs', run, copied⟩ := ih (by omega) (by omega) fun k hk => fresh k (by omega)
    have there := fresh n (by omega) cs' copied
    rw [List.getElem?_eq_getElem (by omega : r + n < source.length)] at there
    have inside : s + n < cs'.length := by rw [copied.length]; omega
    refine ⟨cs'.set (s + n) source[r + n], ?_, ?_⟩
    · rw [List.range_succ, List.map_append, copyAt_append, run]
      exact copyAt_one inside (by omega) there
    · constructor
      · simp [copied.length]
      · intro i hi
        rw [List.getElem?_set]
        rcases Nat.lt_or_ge i n with old | new
        · rw [if_neg (by omega)]
          exact copied.inside i old
        · have last : i = n := by omega
          subst last
          rw [if_pos rfl, if_pos inside, List.getElem?_eq_getElem]
      · intro i hi
        rw [List.getElem?_set, if_neg (by omega)]
        exact copied.outside i (by omega)

theorem copyAt_down (source : List α) (read : List α → List α) {s r n m : Nat} {offset : Int}
    (shift : offset + s = r) (all : m ≤ n)
    (fits : s + n ≤ cs.length) (enough : r + n ≤ source.length)
    (fresh : ∀ k < n, ∀ cs', Copied cs cs' (s + (n - k)) k source (r + (n - k)) →
      (read cs')[r + (n - 1 - k)]? = source[r + (n - 1 - k)]?) :
    ∃ cs', copyAt read offset
        ((List.range m).map fun k => ((s + (n - 1 - k) : Nat) : Int)) cs = some cs' ∧
      Copied cs cs' (s + (n - m)) m source (r + (n - m)) := by
  induction m with
  | zero => exact ⟨cs, rfl, .nothing cs _ source _⟩
  | succ m ih =>
    obtain ⟨cs', run, copied⟩ := ih (by omega)
    have there := fresh m (by omega) cs' copied
    rw [List.getElem?_eq_getElem (by omega : r + (n - 1 - m) < source.length)] at there
    have inside : s + (n - 1 - m) < cs'.length := by rw [copied.length]; omega
    refine ⟨cs'.set (s + (n - 1 - m)) source[r + (n - 1 - m)], ?_, ?_⟩
    · rw [List.range_succ, List.map_append, copyAt_append, run]
      exact copyAt_one inside (by omega) there
    · constructor
      · simp [copied.length]
      · intro i hi
        rw [List.getElem?_set]
        rcases Nat.eq_zero_or_pos i with rfl | later
        · rw [if_pos (by omega), if_pos inside]
          rw [← List.getElem?_eq_getElem]
          congr 1
          omega
        · rw [if_neg (by omega)]
          have old := copied.inside (i - 1) (by omega)
          rw [show s + (n - m) + (i - 1) = s + (n - (m + 1)) + i by omega,
            show r + (n - m) + (i - 1) = r + (n - (m + 1)) + i by omega] at old
          exact old
      · intro i hi
        rw [List.getElem?_set, if_neg (by omega)]
        exact copied.outside i (by omega)

end Loops

theorem replaceFrom_copied {cs source : List α} {start stop repStart : Int} {s n r : Nat}
    (first : start = s) (last : stop = s + n - 1) (from_ : repStart = r)
    (fits : s + n ≤ cs.length) (enough : r + n ≤ source.length) :
    ∃ cs', replaceFrom cs start stop source repStart = some cs' ∧ Copied cs cs' s n source r := by
  unfold replaceFrom
  rw [upTo_nat first last]
  exact copyAt_up source (fun _ => source) (by omega) fits enough fun _ _ _ _ => rfl

theorem moveFrom_copied {cs : List α} {start stop repStart : Int} {s n r : Nat}
    (first : start = s) (last : stop = s + n - 1) (from_ : repStart = r)
    (fits : s + n ≤ cs.length) (enough : r + n ≤ cs.length) :
    ∃ cs', moveFrom cs start stop repStart = some cs' ∧ Copied cs cs' s n cs r := by
  unfold moveFrom
  split
  · rw [downTo_nat (s := s) (n := n) (by omega) (by omega)]
    have moved := @copyAt_down α cs cs id s r n n (repStart - start) (by omega) (Nat.le_refl n)
      fits enough (by
        intro k hk cs' copied
        exact copied.outside _ (by omega))
    simpa using moved
  · rw [upTo_nat first last]
    apply copyAt_up cs id (by omega) fits enough
    intro k _ cs' copied
    exact copied.outside _ (by omega)

theorem fromTo_nat {start stop : Int} {s n : Nat} (first : start = s) (last : stop = s + n - 1)
    (some : 0 < n) : fromTo start stop = (List.range n).map fun k => ((s + k : Nat) : Int) := by
  unfold fromTo
  split
  · exact upTo_nat first last
  · have one : n = 1 := by omega
    subst one
    rw [downTo_nat (s := s) (n := 1) (by omega) (by omega)]
    rfl

def copyFrom [Inhabited α] (cs : List α) (start stop : Nat) : Option (List α) :=
  if stop ≤ start ∨ cs = [] then some []
  else replaceFrom (List.replicate (stop - start) default) 0 (stop - start - 1 : Int) cs start

theorem copyFrom_within [Inhabited α] {cs : List α} {start stop : Nat} (first : start ≤ stop)
    (last : stop ≤ cs.length) : copyFrom cs start stop = some ((cs.drop start).take (stop - start)) := by
  unfold copyFrom
  split
  · next nothing =>
    rcases nothing with none_ | rfl
    · rw [show stop - start = 0 by omega, List.take_zero]
    · simp
  · obtain ⟨cs', run, copied⟩ := @replaceFrom_copied α
      (List.replicate (stop - start) default) cs 0 (stop - start - 1 : Int) start 0
      (stop - start) start rfl (by omega) rfl (by simp) (by omega)
    rw [run]
    congr 1
    have length := copied.length
    rw [List.length_replicate] at length
    apply List.ext_getElem?
    intro i
    rw [List.getElem?_take]
    split
    · next inside =>
      have there := copied.inside i inside
      rw [Nat.zero_add] at there
      rw [there, List.getElem?_drop]
    · rw [List.getElem?_eq_none (by omega)]

section Visiting

variable {β : Type} {ys : List α}

theorem mapM_length {g : β → Option α} {js : List β} (visits : js.mapM g = some ys) :
    ys.length = js.length := by
  induction js generalizing ys with
  | nil =>
    cases visits
    rfl
  | cons j js ih =>
    simp only [List.mapM_cons, Option.bind_eq_bind, Option.bind_eq_some_iff] at visits
    obtain ⟨y, _, zs, rest, all⟩ := visits
    cases all
    simp [ih rest]

theorem mapM_range {g : Nat → Option α} (reads : ∀ i < ys.length, g i = ys[i]?) :
    (List.range ys.length).mapM g = some ys := by
  induction ys using List.reverseRecOn with
  | nil => rfl
  | append_singleton ys y ih =>
    have front := ih fun i hi => (reads i (by simp; omega)).trans (List.getElem?_append_left hi)
    have last := reads ys.length (by simp)
    rw [List.getElem?_concat_length] at last
    simp [List.range_succ, front, last]

theorem reads_range {g : Nat → Option α} (visits : (List.range ys.length).mapM g = some ys) :
    ∀ i < ys.length, g i = ys[i]? := by
  induction ys using List.reverseRecOn with
  | nil => intro i inside; cases inside
  | append_singleton ys y ih =>
    rw [List.length_append, List.length_singleton, List.range_succ, List.mapM_append] at visits
    simp only [List.mapM_cons, List.mapM_nil, Option.bind_eq_bind, Option.bind_eq_some_iff,
      Option.pure_def, Option.some.injEq] at visits
    obtain ⟨front, reads, back, ⟨last, here, rest, nothing, only⟩, all⟩ := visits
    subst nothing only
    obtain ⟨rfl, same⟩ := List.append_inj' all rfl
    cases same
    intro i inside
    rw [List.length_append, List.length_singleton] at inside
    rcases Nat.lt_or_ge i front.length with before | behind
    · rw [List.getElem?_append_left before]
      exact ih reads i before
    · rw [show i = front.length by omega, List.getElem?_concat_length]
      exact here

end Visiting

theorem fill_some [Inhabited α] (is : List Nat) (cs : List α) (inside : ∀ i ∈ is, i < cs.length) :
    ∃ cs', is.foldlM (fun cs (i : Nat) => arrayPut cs (i : Int) (default : α)) cs = some cs' ∧
      cs'.length = cs.length ∧ ∀ j, j ∉ is → cs'[j]? = cs[j]? := by
  induction is generalizing cs with
  | nil => exact ⟨cs, rfl, rfl, fun _ _ => rfl⟩
  | cons i is ih =>
    have first := inside i (List.mem_cons_self ..)
    obtain ⟨cs', run, length, other⟩ := ih (cs.set i default) (by
      intro j hj
      simpa using inside j (List.mem_cons_of_mem _ hj))
    refine ⟨cs', ?_, by simpa using length, ?_⟩
    · rw [List.foldlM_cons, arrayPut_nat first]
      exact run
    · intro j off
      rw [other j fun later => off (List.mem_cons_of_mem _ later), List.getElem?_set, if_neg]
      rintro rfl
      exact off (List.mem_cons_self ..)

theorem replaceFrom_middle {front old back pre source post : List α} {start stop repStart : Int}
    (first : start = front.length) (last : stop = front.length + source.length - 1)
    (from_ : repStart = pre.length) (same : old.length = source.length) :
    replaceFrom (front ++ (old ++ back)) start stop (pre ++ (source ++ post)) repStart =
      some (front ++ (source ++ back)) := by
  obtain ⟨cs', run, copied⟩ := @replaceFrom_copied α (front ++ (old ++ back))
    (pre ++ (source ++ post)) _ _ _ _ _ _ first last from_ (by simp; omega) (by simp)
  rw [run]
  congr 1
  apply List.ext_getElem?
  intro i
  rcases Nat.lt_or_ge i front.length with before | behind
  · rw [copied.outside i (.inl before), List.getElem?_append_left before,
      List.getElem?_append_left before]
  · obtain ⟨k, rfl⟩ := Nat.exists_eq_add_of_le behind
    rw [List.getElem?_append_right behind, Nat.add_sub_cancel_left]
    rcases Nat.lt_or_ge k source.length with inside | after
    · rw [copied.inside k inside, List.getElem?_append_right (Nat.le_add_right ..),
        Nat.add_sub_cancel_left, List.getElem?_append_left inside,
        List.getElem?_append_left inside]
    · rw [copied.outside _ (.inr (by omega)), List.getElem?_append_right behind,
        Nat.add_sub_cancel_left, List.getElem?_append_right (by omega),
        List.getElem?_append_right after, same]

end SlateVm.Collections
