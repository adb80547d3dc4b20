import Mathlib.Data.List.Nodup
import SlateVm.Collections.Arrays

/-! `choose:do:` and `combinationsDo:`, which apply a block to selections of elements. What the
block is applied to is listed in the order of the calls. -/
namespace SlateVm.Collections

variable {α : Type}

section Choosing

/-- `choose:of:into:do:`. The elements of the working array that nothing has been stored in
are Nil. -/
def chooseInto (cs : List α) : Nat → Nat → List (Option α) →
    Option (List (List (Option α)) × List (Option α))
  | 0, k, workingArray =>
    if 0 < k then some ([], workingArray) else some ([workingArray], workingArray)
  | n + 1, k, workingArray =>
    if n + 1 < k then some ([], workingArray)
    else if k = 0 then some ([workingArray], workingArray)
    else do
      let obj ← cs[n]?
      let workingArray ← arrayPut workingArray ((k - 1 : Nat) : Int) (some obj)
      let (first, workingArray) ← chooseInto cs n (k - 1) workingArray
      let (second, workingArray) ← chooseInto cs n k workingArray
      some (first ++ second, workingArray)

def choose (cs : List α) (k : Nat) : Option (List (List (Option α))) :=
  (chooseInto cs cs.length k (List.replicate k none)).map Prod.fst

def selections : Nat → Nat → List (List Nat)
  | _, 0 => [[]]
  | 0, _ + 1 => []
  | n + 1, k + 1 => (selections n k).map (· ++ [n]) ++ selections n (k + 1)

attribute [local simp] chooseInto selections

theorem mem_selections (n k : Nat) (ps : List Nat) :
    ps ∈ selections n k ↔ ps.Pairwise (· < ·) ∧ ps.length = k ∧ ∀ p ∈ ps, p < n := by
  induction n generalizing k ps with
  | zero =>
    cases k with
    | zero =>
      simp only [selections, List.mem_singleton]
      constructor
      · rintro rfl
        simp
      · rintro ⟨_, size, _⟩
        exact List.eq_nil_of_length_eq_zero size
    | succ k =>
      simp only [selections, List.not_mem_nil, false_iff]
      rintro ⟨_, size, below⟩
      obtain ⟨p, rest, rfl⟩ : ∃ p rest, ps = p :: rest :=
        List.exists_cons_of_length_pos (by omega)
      exact absurd (below p (List.mem_cons_self ..)) (Nat.not_lt_zero p)
  | succ n ih =>
    cases k with
    | zero =>
      simp only [selections, List.mem_singleton]
      constructor
      · rintro rfl
        simp
      · rintro ⟨_, size, _⟩
        exact List.eq_nil_of_length_eq_zero size
    | succ k =>
      simp only [selections, List.mem_append, List.mem_map, ih]
      constructor
      · rintro (⟨qs, ⟨increasing, size, below⟩, rfl⟩ | ⟨increasing, size, below⟩)
        · refine ⟨List.pairwise_append.mpr ⟨increasing, List.pairwise_singleton _ _, ?_⟩, ?_, ?_⟩
          · intro p member q last
            rw [List.mem_singleton.mp last]
            exact below p member
          · rw [List.length_append, size, List.length_singleton]
          · intro p member
            rcases List.mem_append.mp member with front | last
            · exact Nat.lt_succ_of_lt (below p front)
            · rw [List.mem_singleton.mp last]
              exact Nat.lt_succ_self n
        · exact ⟨increasing, size, fun p member => Nat.lt_succ_of_lt (below p member)⟩
      · rintro ⟨increasing, size, below⟩
        rcases Decidable.em (n ∈ ps) with here | absent
        · left
          have nonempty : ps ≠ [] := List.ne_nil_of_mem here
          -- The greatest position is the last one.
          have parts := List.dropLast_append_getLast nonempty
          rw [← parts] at increasing below here
          obtain ⟨front, _, apart⟩ := List.pairwise_append.mp increasing
          have last : ps.getLast nonempty = n := by
            have most := below _ (List.mem_append_right _ (List.mem_singleton_self _))
            rcases List.mem_append.mp here with inside | same
            · have later := apart n inside _ (List.mem_singleton_self _)
              omega
            · exact (List.mem_singleton.mp same).symm
          refine ⟨ps.dropLast, ⟨front, ?_, ?_⟩, ?_⟩
          · rw [List.length_dropLast, size, Nat.add_sub_cancel]
          · intro p member
            have before := apart p member _ (List.mem_singleton_self _)
            rwa [last] at before
          · rw [← last]
            exact parts
        · right
          refine ⟨increasing, size, ?_⟩
          intro p member
          have most := below p member
          have other : p ≠ n := fun same => absent (same ▸ member)
          omega

theorem selections_few {n k : Nat} (few : n < k) : selections n k = [] := by
  induction n generalizing k with
  | zero =>
    cases k with
    | zero => exact absurd few (Nat.lt_irrefl 0)
    | succ k => rfl
  | succ n ih =>
    cases k with
    | zero => exact absurd few (Nat.not_lt_zero _)
    | succ k => rw [selections, ih (by omega), ih (by omega), List.map_nil, List.nil_append]

theorem nodup_selections (n k : Nat) : (selections n k).Nodup := by
  induction n generalizing k with
  | zero => cases k <;> simp [selections]
  | succ n ih =>
    cases k with
    | zero => simp [selections]
    | succ k =>
      rw [selections, List.nodup_append]
      have apart : Function.Injective fun ps : List Nat => ps ++ [n] :=
        fun a b same => List.append_cancel_right same
      refine ⟨(ih k).map apart, ih (k + 1), ?_⟩
      · rintro _ with_ ps without rfl
        obtain ⟨qs, _, rfl⟩ := List.mem_map.mp with_
        have below := ((mem_selections n (k + 1) _).mp without).2.2 n
          (List.mem_append_right _ (List.mem_singleton_self _))
        exact Nat.lt_irrefl n below

theorem chooseInto_selections {cs : List α} (n k : Nat) (workingArray : List (Option α))
    (inside : n ≤ cs.length) (room : k ≤ workingArray.length) :
    ∃ after, chooseInto cs n k workingArray = some ((selections n k).map fun ps =>
        ps.map (cs[·]?) ++ workingArray.drop k, after) ∧
      after.length = workingArray.length ∧ after.drop k = workingArray.drop k := by
  induction n generalizing k workingArray with
  | zero =>
    cases k with
    | zero => exact ⟨workingArray, by simp [chooseInto, selections], rfl, rfl⟩
    | succ k => exact ⟨workingArray, by simp [chooseInto, selections], rfl, rfl⟩
  | succ n ih =>
    cases k with
    | zero => exact ⟨workingArray, by simp [chooseInto, selections], rfl, rfl⟩
    | succ k =>
      rcases Nat.lt_or_ge (n + 1) (k + 1) with few | enough
      · have none_ := selections_few few
        refine ⟨workingArray, ?_, rfl, rfl⟩
        rw [chooseInto, if_pos few, none_, List.map_nil]
      · have here : cs[n]? = some cs[n] := List.getElem?_eq_getElem inside
        have put : arrayPut workingArray (k : Int) (some cs[n]) =
            some (workingArray.set k (some cs[n])) := arrayPut_nat room _
        have back : (workingArray.set k (some cs[n])).drop k =
            some cs[n] :: workingArray.drop (k + 1) := by
          have within : k < (workingArray.set k (some cs[n])).length := by
            rw [List.length_set]
            exact room
          rw [List.drop_eq_getElem_cons within, List.getElem_set_self,
            List.drop_set_of_lt (Nat.lt_succ_self k)]
        obtain ⟨first, run₁, size₁, kept₁⟩ := ih k (workingArray.set k (some cs[n]))
          (by omega) (by rw [List.length_set]; omega)
        obtain ⟨after, run₂, size₂, kept₂⟩ := ih (k + 1) first (by omega)
          (by rw [size₁, List.length_set]; exact room)
        rw [List.length_set] at size₁
        have kept : first.drop (k + 1) = workingArray.drop (k + 1) := by
          have tails := congrArg List.tail (kept₁.trans back)
          simpa only [List.tail_drop, List.tail_cons] using tails
        refine ⟨after, ?_, size₂.trans size₁, kept₂.trans kept⟩
        rw [chooseInto, if_neg (by omega), if_neg (Nat.succ_ne_zero k)]
        simp only [Nat.add_sub_cancel, here, put, run₁, run₂, Option.bind_eq_bind,
          Option.bind_some, selections, List.map_append, List.map_map, kept, back]
        congr 3
        apply List.map_congr_left
        intro ps _
        simp [here]

theorem choose_selections (cs : List α) (k : Nat) :
    choose cs k = some ((selections cs.length k).map fun ps => ps.map (cs[·]?)) := by
  obtain ⟨after, run, _⟩ := chooseInto_selections cs.length k (List.replicate k none)
    (Nat.le_refl _) (by simp)
  rw [choose, run]
  simp

end Choosing

section Enumerating

/-- A read stream on a collection, with the elements it goes through. -/
structure Iterator (α : Type) where
  contents : List α
  position : Nat

def Iterator.isAtEnd (it : Iterator α) : Bool := it.contents.length ≤ it.position

def Iterator.reset (it : Iterator α) : Iterator α := { it with position := 0 }

def Iterator.next (it : Iterator α) : Option (α × Iterator α) := do
  let obj ← it.contents[it.position]?
  some (obj, { it with position := it.position + 1 })

/-- The variables `iterators` and `values` of `combinationsDo:`. -/
structure Odometer (α : Type) where
  iterators : List (Iterator α)
  values : List α

def Odometer.take (m : Odometer α) (eachIterator position : Nat) (it : Iterator α) :
    Option (Odometer α) := do
  let (obj, it) ← it.next
  let values ← arrayPut m.values position obj
  some ⟨m.iterators.set eachIterator it, values⟩

/-- The inner loop of `combinationsDo:`. The name `eachIterator` is not declared: an assignment
to it makes a variable of the block it stands in. The one at the end of the inner block makes
a variable there that nothing reads, so the loop goes on with the iterator it began with. -/
def carry (eachIterator : Nat) : Nat → Odometer α → Option (Odometer α × Nat)
  | 0, m => some (m, 0)
  | position + 1, m => do
    let it ← m.iterators[eachIterator]?
    if it.isAtEnd then do
      let m ← m.take eachIterator (position + 1) it.reset
      let _ ← m.iterators[position]?
      carry eachIterator position m
    else some (m, position + 1)

/-- The loop of `combinationsDo:`, with a bound on its rounds. -/
def combinationsLoop : Nat → Odometer α → Option (List (List α))
  | 0, _ => none
  | rounds + 1, m => do
    let last := m.iterators.length - 1
    let _ ← m.iterators[last]?
    let (m, position) ← carry last last m
    let it ← m.iterators[last]?
    if it.isAtEnd ∧ position = 0 then some []
    else do
      let m ← m.take last position it
      let rest ← combinationsLoop rounds m
      some (m.values :: rest)

def combinationsDo (rounds : Nat) (cols : List (List α)) : Option (List (List α)) :=
  let iterators : List (Iterator α) := cols.map fun col => ⟨col, 0⟩
  if iterators.any Iterator.isAtEnd then some []
  else do
    let taken ← iterators.mapM Iterator.next
    let values := taken.map Prod.fst
    let rest ← combinationsLoop rounds ⟨taken.map Prod.snd, values⟩
    some (values :: rest)

def tuples : List (List α) → List (List α)
  | [] => [[]]
  | col :: cols => col.flatMap fun x => (tuples cols).map (x :: ·)

attribute [local simp] tuples

theorem tuples_nothing {cols : List (List α)} (none_ : [] ∈ cols) : tuples cols = [] := by
  induction cols with
  | nil => cases none_
  | cons col cols ih =>
    rcases List.mem_cons.mp none_ with rfl | later
    · rfl
    · simp [tuples, ih later]

theorem tuples_length_one {cols : List (List α)} (one : (tuples cols).length = 1) :
    ∀ col ∈ cols, col.length = 1 := by
  induction cols with
  | nil => simp
  | cons col cols ih =>
    have product : col.length * (tuples cols).length = 1 := by
      simpa [tuples, List.length_flatMap] using one
    intro cs member
    rcases List.mem_cons.mp member with rfl | later
    · exact Nat.eq_one_of_mul_eq_one_right product
    · exact ih (Nat.eq_one_of_mul_eq_one_left product) cs later

theorem tuples_one (col : List α) : tuples [col] = col.map fun x => [x] := by
  rw [List.map_eq_flatMap]
  rfl

theorem tuples_singles (xs : List α) : tuples (xs.map fun x => [x]) = [xs] := by
  induction xs with
  | nil => rfl
  | cons x xs ih => simp [tuples, ih]

section Steps

attribute [local simp] carry combinationsLoop

variable {m : Odometer α} {it : Iterator α} {e p : Nat}

theorem Odometer.take_next (open_ : it.isAtEnd = false) (room : p < m.values.length) (e : Nat) :
    ∃ m' x, m.take e p it = some m' ∧ it.contents[it.position]? = some x ∧
      m'.values = m.values.set p x ∧
      m'.iterators = m.iterators.set e { it with position := it.position + 1 } := by
  have inside : it.position < it.contents.length := by
    simpa [Iterator.isAtEnd] using open_
  have here : it.contents[it.position]? = some it.contents[it.position] :=
    List.getElem?_eq_getElem inside
  refine ⟨⟨m.iterators.set e { it with position := it.position + 1 },
    m.values.set p it.contents[it.position]⟩, it.contents[it.position], ?_, here, rfl, rfl⟩
  simp only [Odometer.take, Iterator.next, here, arrayPut_nat room, Option.bind_eq_bind,
    Option.bind_some]

theorem carry_round (there : m.iterators[e]? = some it) (atEnd : it.isAtEnd = true)
    (some_ : it.contents ≠ []) (room : p + 1 < m.values.length) (more : p < m.iterators.length) :
    ∃ m', carry e (p + 1) m = carry e p m' ∧ m'.values.length = m.values.length ∧
      m'.iterators = m.iterators.set e { it with position := 1 } := by
  have open_ : it.reset.isAtEnd = false := by
    simpa [Iterator.isAtEnd, Iterator.reset] using some_
  obtain ⟨m', x, taken, _, values, iterators⟩ := Odometer.take_next open_ room e
  have further : p < m'.iterators.length := by
    rw [iterators, List.length_set]
    exact more
  have next : m'.iterators[p]? = some m'.iterators[p] := List.getElem?_eq_getElem further
  refine ⟨m', ?_, by rw [values, List.length_set], iterators⟩
  simp only [carry, there, atEnd, if_pos, taken, next, Option.bind_eq_bind, Option.bind_some]

theorem carry_single (there : m.iterators[e]? = some it) (one : it.contents.length = 1)
    (ends : it.position = 1) (room : p < m.values.length) (more : p ≤ m.iterators.length) :
    ∃ m', carry e p m = some (m', 0) ∧ m'.iterators[e]? = some it := by
  induction p generalizing m with
  | zero => exact ⟨m, rfl, there⟩
  | succ p ih =>
    have bound := (List.getElem?_eq_some_iff.mp there).1
    have atEnd : it.isAtEnd = true := by simp [Iterator.isAtEnd, one, ends]
    obtain ⟨m₁, round, values, iterators⟩ := carry_round there atEnd
      (List.length_pos_iff.mp (by omega)) room more
    have same : ({ it with position := 1 } : Iterator α) = it := by
      rw [← ends]
    have again : m₁.iterators[e]? = some it := by
      rw [iterators, List.getElem?_set_self bound, same]
    obtain ⟨m', run, still⟩ := ih again (by omega) (by rw [iterators, List.length_set]; omega)
    exact ⟨m', round.trans run, still⟩

theorem combinationsLoop_one (front rest : List α) (y : α) {rounds : Nat}
    (enough : rest.length < rounds) :
    combinationsLoop rounds ⟨[⟨front ++ rest, front.length⟩], [y]⟩ =
      some (rest.map fun x => [x]) := by
  induction rest generalizing front y rounds with
  | nil =>
    obtain ⟨rounds, rfl⟩ : ∃ k, rounds = k + 1 := ⟨rounds - 1, by omega⟩
    simp [combinationsLoop, carry, Iterator.isAtEnd]
  | cons x rest ih =>
    obtain ⟨rounds, rfl⟩ : ∃ k, rounds = k + 1 := ⟨rounds - 1, by omega⟩
    have next := @ih (front ++ [x]) x rounds (by simpa using enough)
    simp only [List.append_assoc, List.singleton_append, List.length_append, List.length_singleton]
      at next
    simp [combinationsLoop, carry, Iterator.isAtEnd, Odometer.take, Iterator.next, arrayPut, next]

theorem combinationsLoop_single {rounds : Nat} (enough : 0 < rounds)
    (there : m.iterators[m.iterators.length - 1]? = some it) (one : it.contents.length = 1)
    (ends : it.position = 1) (same : m.values.length = m.iterators.length) :
    combinationsLoop rounds m = some [] := by
  obtain ⟨rounds, rfl⟩ : ∃ k, rounds = k + 1 := ⟨rounds - 1, by omega⟩
  have bound := (List.getElem?_eq_some_iff.mp there).1
  have atEnd : it.isAtEnd = true := by simp [Iterator.isAtEnd, one, ends]
  obtain ⟨m', run, still⟩ :=
    @carry_single α m it _ (m.iterators.length - 1) there one ends (by omega) (Nat.sub_le ..)
  simp only [combinationsLoop, there, run, still, atEnd, and_self, if_pos, Option.bind_eq_bind,
    Option.bind_some]

theorem combinationsLoop_endless (rounds : Nat) (two : 2 ≤ m.iterators.length)
    (there : m.iterators[m.iterators.length - 1]? = some it) (more : 2 ≤ it.contents.length)
    (same : m.values.length = m.iterators.length) : combinationsLoop rounds m = none := by
  induction rounds generalizing m it with
  | zero => rfl
  | succ rounds ih =>
    have bound := (List.getElem?_eq_some_iff.mp there).1
    obtain ⟨m₁, it₁, position, run, there₁, contents, open_, values, iterators, inside⟩ :
        ∃ m₁ it₁ position, carry (m.iterators.length - 1) (m.iterators.length - 1) m =
            some (m₁, position) ∧
          m₁.iterators[m.iterators.length - 1]? = some it₁ ∧ it₁.contents = it.contents ∧
          it₁.isAtEnd = false ∧ m₁.values.length = m.values.length ∧
          m₁.iterators.length = m.iterators.length ∧ position < m.iterators.length := by
      obtain ⟨p, last⟩ : ∃ p, m.iterators.length - 1 = p + 1 :=
        ⟨m.iterators.length - 2, by omega⟩
      rw [last] at there bound ⊢
      cases atEnd : it.isAtEnd with
      | false =>
        refine ⟨m, it, p + 1, ?_, there, rfl, atEnd, rfl, rfl, bound⟩
        simp only [carry, there, atEnd, Bool.false_eq_true, if_false, Option.bind_eq_bind,
          Option.bind_some]
      | true =>
        obtain ⟨m₁, round, values, iterators⟩ := @carry_round α m it _ p there atEnd
          (List.length_pos_iff.mp (by omega)) (by omega) (by omega)
        have begun : m₁.iterators[p + 1]? = some { it with position := 1 } := by
          rw [iterators, List.getElem?_set_self bound]
        have open_ : Iterator.isAtEnd { it with position := 1 } = false := by
          simp only [Iterator.isAtEnd, decide_eq_false_iff_not]
          omega
        have many : m₁.iterators.length = m.iterators.length := by
          rw [iterators, List.length_set]
        cases p with
        | zero => exact ⟨m₁, _, 0, round, begun, rfl, open_, values, many, by omega⟩
        | succ p =>
          refine ⟨m₁, _, p + 1, ?_, begun, rfl, open_, values, many, by omega⟩
          rw [round]
          simp only [carry, begun, open_, Bool.false_eq_true, if_false, Option.bind_eq_bind,
            Option.bind_some]
    have bound₁ := (List.getElem?_eq_some_iff.mp there₁).1
    obtain ⟨m₂, x, taken, _, values₂, iterators₂⟩ :=
      @Odometer.take_next α m₁ it₁ position open_ (by omega) (m.iterators.length - 1)
    have size₂ : m₂.iterators.length = m.iterators.length := by
      rw [iterators₂, List.length_set, iterators]
    have endless := @ih m₂ { it₁ with position := it₁.position + 1 } (by omega) (by
        rw [size₂, iterators₂, List.getElem?_set_self bound₁]) (by rw [contents]; exact more) (by
        rw [values₂, List.length_set, size₂, values, same])
    simp only [combinationsLoop, there, run, there₁, open_, Bool.false_eq_true, false_and,
      if_false, taken, endless, Option.bind_eq_bind, Option.bind_some, Option.bind_none]

end Steps

theorem mapM_next {cols : List (List α)} (some_ : [] ∉ cols) :
    ∃ taken, (cols.map fun col => (⟨col, 0⟩ : Iterator α)).mapM Iterator.next = some taken ∧
      (taken.map Prod.snd) = cols.map (fun col => ⟨col, 1⟩) ∧
      (taken.map Prod.fst).map some = cols.map List.head? := by
  induction cols with
  | nil => exact ⟨[], rfl, rfl, rfl⟩
  | cons col cols ih =>
    obtain ⟨x, rest, rfl⟩ : ∃ x rest, col = x :: rest :=
      List.exists_cons_of_ne_nil fun none_ => some_ (none_ ▸ List.mem_cons_self ..)
    obtain ⟨taken, run, iterators, values⟩ := ih fun later => some_ (List.mem_cons_of_mem _ later)
    refine ⟨(x, ⟨x :: rest, 1⟩) :: taken, ?_, ?_, ?_⟩
    · rw [List.map_cons, List.mapM_cons, run]
      rfl
    · rw [List.map_cons, iterators, List.map_cons]
    · rw [List.map_cons, List.map_cons, values, List.map_cons]
      rfl

theorem singles_of_heads {cols : List (List α)} {heads : List α}
    (first : heads.map some = cols.map List.head?) (one : ∀ col ∈ cols, col.length = 1) :
    cols = heads.map fun x => [x] := by
  induction cols generalizing heads with
  | nil =>
    obtain rfl : heads = [] := by simpa using first
    rfl
  | cons col cols ih =>
    obtain ⟨x, rfl⟩ := List.length_eq_one_iff.mp (one col (List.mem_cons_self ..))
    cases heads with
    | nil => cases first
    | cons y heads =>
      simp only [List.map_cons, List.head?_cons, List.cons.injEq, Option.some.injEq] at first
      obtain ⟨rfl, rest⟩ := first
      rw [List.map_cons, ← ih rest fun cs later => one cs (List.mem_cons_of_mem _ later)]

theorem combinationsDo_right_iff (cols : List (List α)) :
    (∃ least, ∀ rounds, least < rounds → combinationsDo rounds cols = some (tuples cols)) ↔
      [] ∈ cols ∨ cols.length = 1 ∨ cols ≠ [] ∧ ∀ col ∈ cols, col.length = 1 := by
  have atEnd : ∀ cols : List (List α),
      (cols.map fun col => (⟨col, 0⟩ : Iterator α)).any Iterator.isAtEnd = true ↔ [] ∈ cols := by
    intro cols
    simp [Iterator.isAtEnd]
  rcases Classical.em (([] : List α) ∈ cols) with none_ | some_
  · refine ⟨fun _ => .inl none_, fun _ => ⟨0, fun rounds _ => ?_⟩⟩
    simp only [combinationsDo, (atEnd cols).mpr none_, if_pos, tuples_nothing none_]
  · obtain ⟨taken, run, iterators, values⟩ := mapM_next some_
    have starts : ∀ rounds, combinationsDo rounds cols =
        (combinationsLoop rounds ⟨cols.map (fun col => ⟨col, 1⟩), taken.map Prod.fst⟩).map
          (taken.map Prod.fst :: ·) := by
      intro rounds
      have open_ : ¬ (cols.map fun col => (⟨col, 0⟩ : Iterator α)).any Iterator.isAtEnd = true :=
        fun ends => some_ ((atEnd cols).mp ends)
      simp only [combinationsDo, if_neg open_, run, iterators, Option.bind_eq_bind,
        Option.bind_some]
      cases combinationsLoop rounds ⟨cols.map (fun col => ⟨col, 1⟩), taken.map Prod.fst⟩ <;> rfl
    have same : (taken.map Prod.fst).length = cols.length := by
      have sizes := congrArg List.length values
      simpa using sizes
    simp only [some_, false_or, starts]
    rcases Nat.lt_or_ge 1 cols.length with several | few
    · -- The last collection decides whether the loop ends.
      obtain ⟨col, last⟩ : ∃ col, cols[cols.length - 1]? = some col :=
        ⟨_, List.getElem?_eq_getElem (by omega)⟩
      have member : col ∈ cols := List.mem_of_getElem? last
      have there : (cols.map fun col => (⟨col, 1⟩ : Iterator α))[
          (cols.map fun col => (⟨col, 1⟩ : Iterator α)).length - 1]? = some ⟨col, 1⟩ := by
        rw [List.length_map, List.getElem?_map, last]
        rfl
      have long : col.length ≠ 0 := by
        intro nothing
        exact some_ (List.eq_nil_of_length_eq_zero nothing ▸ member)
      rcases Decidable.em (col.length = 1) with one | more
      · have ends : ∀ rounds, 0 < rounds → combinationsLoop rounds
            ⟨cols.map (fun col => ⟨col, 1⟩), taken.map Prod.fst⟩ = some [] := fun rounds enough =>
          combinationsLoop_single enough there one rfl (by rw [same, List.length_map])
        constructor
        · rintro ⟨least, answer⟩
          have only := answer (least + 1) (Nat.lt_succ_self _)
          rw [ends _ (Nat.succ_pos _), Option.map_some, Option.some.injEq] at only
          refine .inr ⟨List.ne_nil_of_mem member, tuples_length_one ?_⟩
          rw [← only, List.length_singleton]
        · rintro (single | ⟨_, singles⟩)
          · omega
          · refine ⟨0, fun rounds enough => ?_⟩
            rw [ends rounds enough, Option.map_some]
            conv => rhs; rw [singles_of_heads values singles, tuples_singles]
      · have endless : ∀ rounds, combinationsLoop rounds
            ⟨cols.map (fun col => ⟨col, 1⟩), taken.map Prod.fst⟩ = none := fun rounds =>
          combinationsLoop_endless rounds (by rw [List.length_map]; exact several) there
            (by simp only; omega) (by rw [same, List.length_map])
        constructor
        · rintro ⟨least, answer⟩
          have never := answer (least + 1) (Nat.lt_succ_self _)
          rw [endless, Option.map_none] at never
          cases never
        · rintro (single | ⟨_, singles⟩)
          · omega
          · exact absurd (singles col member) more
    · match cols with
      | [] =>
        constructor
        · rintro ⟨least, answer⟩
          have fails := answer (least + 1) (Nat.lt_succ_self _)
          simp [combinationsLoop] at fails
        · rintro (single | ⟨nonempty, _⟩)
          · cases single
          · exact absurd rfl nonempty
      | [col] =>
        obtain ⟨x, rest, rfl⟩ : ∃ x rest, col = x :: rest :=
          List.exists_cons_of_ne_nil fun none_ => some_ (none_ ▸ List.mem_cons_self ..)
        have head : taken.map Prod.fst = [x] := by
          obtain ⟨y, only⟩ := List.length_eq_one_iff.mp same
          rw [only] at values ⊢
          cases values
          rfl
        refine ⟨fun _ => .inl rfl, fun _ => ⟨rest.length, fun rounds enough => ?_⟩⟩
        have loop := combinationsLoop_one [x] rest x enough
        simp only [List.singleton_append, List.length_singleton] at loop
        rw [head, List.map_singleton, loop, tuples_one]
        rfl
      | a :: b :: cols => simp at few

/-- `choose:do:` is right, and `combinationsDo:` in the cases above. -/
theorem combinations_right_iff (cs : List α) (k : Nat) (cols : List (List α)) :
    ((∃ positions : List (List Nat), positions.Nodup ∧
        (∀ ps, ps ∈ positions ↔
          ps.Pairwise (· < ·) ∧ ps.length = k ∧ ∀ p ∈ ps, p < cs.length) ∧
        choose cs k = some (positions.map fun ps => ps.map (cs[·]?))) ∧
      ∃ least, ∀ rounds, least < rounds → combinationsDo rounds cols = some (tuples cols)) ↔
      [] ∈ cols ∨ cols.length = 1 ∨ cols ≠ [] ∧ ∀ col ∈ cols, col.length = 1 := by
  rw [combinationsDo_right_iff]
  refine and_iff_right ⟨selections cs.length k, nodup_selections _ _, ?_, choose_selections cs k⟩
  exact mem_selections cs.length k

/-- Two collections of two elements. -/
theorem combinationsDo_two_two :
    ¬ ∃ rounds, (combinationsDo rounds [[1, 2], [3, 4]]).isSome := by
  rintro ⟨rounds, ends⟩
  have endless := @combinationsLoop_endless Nat ⟨[⟨[1, 2], 1⟩, ⟨[3, 4], 1⟩], [1, 3]⟩ ⟨[3, 4], 1⟩
    rounds (by decide) rfl (by decide) rfl
  have none_ : combinationsDo rounds [[1, 2], [3, 4]] = none := by
    simp [combinationsDo, Iterator.isAtEnd, Iterator.next, endless]
  rw [none_] at ends
  cases ends

end Enumerating

end SlateVm.Collections
