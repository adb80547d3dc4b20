import Mathlib.Data.Int.Basic
import Mathlib.Tactic.Common

/-! `Range`: the sequence of numbers from a start to an end in steps, and the intersection of
two of them. -/
namespace SlateVm.Ranges

/-- The slots of a `Range`. -/
structure Range where
  start : Int
  stop : Int
  step : Int

structure Stepped where
  range : Range
  nonzero : range.step ≠ 0

/-- `newFrom:to:`, which takes `end <=> start` for its step. -/
def newFromTo (start stop : Int) : Stepped where
  range := ⟨start, stop, if (stop - start).sign = 0 then 1 else (stop - start).sign⟩
  nonzero := by
    split
    · exact Int.one_ne_zero
    · assumption

def below (start stop : Int) : Stepped := newFromTo start (stop - 1)

def above (start stop : Int) : Stepped := newFromTo start (stop + 1)

namespace Range

def size (r : Range) : Int :=
  if xor (decide (r.step < 0)) (decide (r.start > r.stop)) then 0
  else (r.stop - r.start).fdiv r.step + 1

def elementAt (r : Range) (n : Int) : Option Int :=
  if n = 0 then some r.start
  else if 0 < n ∧ n < r.size then some (r.step * n + r.start) else none

def last (r : Range) : Int := r.stop - (r.stop - r.start).fmod r.step

def rangeIncludes (r : Range) (n : Int) : Bool :=
  if r.step < 0 then decide (r.stop ≤ n) && decide (n ≤ r.start)
  else decide (r.start ≤ n) && decide (n ≤ r.stop)

/-- `includes:`, with the test of a quotient of floating-point numbers. -/
def includesNumber (closeToStep : Int → Int → Bool) (r : Range) (n : Int) : Bool :=
  r.rangeIncludes n && closeToStep (n - r.start) r.step

def equals (r1 r2 : Range) : Bool :=
  decide (r1.start = r2.start) && decide (r1.step = r2.step) && decide (r1.size = r2.size)

def goesOn (r : Range) (each : Int) : Bool :=
  if r.step < 0 then r.stop ≤ each else r.stop ≥ each

/-- The loop of `do:`, with a bound on its rounds. -/
def doFrom (r : Range) : Nat → Int → Option (List Int)
  | 0, _ => none
  | rounds + 1, each =>
    if r.goesOn each then (r.doFrom rounds (each + r.step)).map (each :: ·) else some []

/-- `reverseDo:`: what the block is applied to, and whether an error is signalled. The loop
subtracts `step`, which is no variable there and not sent to the range but to the namespace,
which does not understand it. -/
def reverseDo (r : Range) : List Int × Bool :=
  if (if r.step < 0 then r.stop ≥ r.start else r.stop ≤ r.start) then ([r.start], true)
  else ([], false)

def span (r : Range) : Int := if r.step < 0 then r.start - r.stop else r.stop - r.start

def count (r : Range) : Nat := if r.span < 0 then 0 else (r.span / r.step.natAbs).toNat + 1

def visits (r : Range) : List Int := (List.range r.count).map fun i : Nat => r.start + i * r.step

/-- `do:` ends, having applied its block to the values. -/
def Visits (r : Range) (vs : List Int) : Prop := ∃ rounds, r.doFrom rounds r.start = some vs

def Visited (r : Range) (v : Int) : Prop := ∃ vs, r.Visits vs ∧ v ∈ vs

section Visiting

variable {r : Range}

theorem goesOn_iff (r : Range) (i : Nat) :
    r.goesOn (r.start + i * r.step) = true ↔ (i : Int) * r.step.natAbs ≤ r.span := by
  unfold goesOn span
  split
  · next down =>
    have width : (r.step.natAbs : Int) = -r.step := by omega
    rw [width, Int.mul_neg, decide_eq_true_eq]
    omega
  · next up =>
    have width : (r.step.natAbs : Int) = r.step := by omega
    rw [width, decide_eq_true_eq]
    omega

theorem goesOn_count (nonzero : r.step ≠ 0) (i : Nat) :
    r.goesOn (r.start + i * r.step) = true ↔ i < r.count := by
  have width : (0 : Int) < r.step.natAbs := by omega
  rw [goesOn_iff]
  unfold count
  split
  · next turned =>
    have up : 0 ≤ (i : Int) * r.step.natAbs := Int.mul_nonneg (Int.natCast_nonneg i) (by omega)
    omega
  · rw [← Int.le_ediv_iff_mul_le width]
    have positive : 0 ≤ r.span / r.step.natAbs := Int.ediv_nonneg (by omega) (by omega)
    omega

theorem doFrom_values (nonzero : r.step ≠ 0) (n i : Nat) (rest : i + n = r.count) {rounds : Nat}
    (enough : n < rounds) :
    r.doFrom rounds (r.start + i * r.step) =
      some ((List.range n).map fun k : Nat => r.start + ((i + k : Nat) : Int) * r.step) := by
  induction n generalizing i rounds with
  | zero =>
    obtain ⟨rounds, rfl⟩ : ∃ k, rounds = k + 1 := ⟨rounds - 1, by omega⟩
    have ends : ¬ r.goesOn (r.start + i * r.step) = true := by
      rw [goesOn_count nonzero]
      omega
    rw [doFrom, if_neg ends]
    rfl
  | succ n ih =>
    obtain ⟨rounds, rfl⟩ : ∃ k, rounds = k + 1 := ⟨rounds - 1, by omega⟩
    have goes := (goesOn_count nonzero i).mpr (by omega)
    have next := ih (i + 1) (by omega) (show n < rounds by omega)
    have value : r.start + ((i + 1 : Nat) : Int) * r.step = r.start + i * r.step + r.step := by
      rw [Int.natCast_add, Int.natCast_one, Int.add_mul, Int.one_mul, Int.add_assoc]
    rw [value] at next
    rw [doFrom, if_pos goes, next, Option.map_some, List.range_succ_eq_map, List.map_cons,
      List.map_map, Nat.add_zero]
    congr 2
    apply List.map_congr_left
    intro k _
    simp only [Function.comp_apply]
    rw [show i + 1 + k = i + k.succ by omega]

theorem doFrom_visits (nonzero : r.step ≠ 0) {rounds : Nat} (enough : r.count < rounds) :
    r.doFrom rounds r.start = some r.visits := by
  have values := doFrom_values nonzero r.count 0 (Nat.zero_add _) enough
  rw [Int.natCast_zero, Int.zero_mul, Int.add_zero] at values
  rw [values]
  congr 1
  apply List.map_congr_left
  intro k _
  rw [Nat.zero_add]

theorem doFrom_more {rounds more : Nat} {each : Int} {vs : List Int}
    (run : r.doFrom rounds each = some vs) (least : rounds ≤ more) :
    r.doFrom more each = some vs := by
  induction rounds generalizing each vs more with
  | zero => cases run
  | succ rounds ih =>
    obtain ⟨more, rfl⟩ : ∃ k, more = k + 1 := ⟨more - 1, by omega⟩
    unfold doFrom at run ⊢
    split
    · next goes =>
      rw [if_pos goes] at run
      obtain ⟨rest, tail, rfl⟩ := Option.map_eq_some_iff.mp run
      rw [ih tail (by omega), Option.map_some]
    · next ends =>
      rw [if_neg ends] at run
      exact run

theorem visits_iff (nonzero : r.step ≠ 0) {vs : List Int} : r.Visits vs ↔ vs = r.visits := by
  constructor
  · rintro ⟨rounds, run⟩
    have more := doFrom_more run (Nat.le_max_left rounds (r.count + 1))
    rw [doFrom_visits nonzero (Nat.le_max_right rounds (r.count + 1))] at more
    cases more
    rfl
  · rintro rfl
    exact ⟨r.count + 1, doFrom_visits nonzero (Nat.lt_succ_self _)⟩

theorem mem_visits (nonzero : r.step ≠ 0) (n : Int) :
    n ∈ r.visits ↔ r.rangeIncludes n = true ∧ r.step ∣ n - r.start := by
  unfold visits
  rw [List.mem_map]
  constructor
  · rintro ⟨i, inside, rfl⟩
    have reaches := (goesOn_iff r i).mp ((goesOn_count nonzero i).mpr (List.mem_range.mp inside))
    have whole : r.start + i * r.step - r.start = r.step * i := by
      rw [Int.mul_comm]
      omega
    refine ⟨?_, i, whole⟩
    have up : 0 ≤ (i : Int) * r.step.natAbs := Int.mul_nonneg (Int.natCast_nonneg i) (by omega)
    unfold rangeIncludes
    unfold span at reaches
    split
    · next down =>
      have width : (r.step.natAbs : Int) = -r.step := by omega
      rw [if_pos down, width, Int.mul_neg] at reaches
      rw [width, Int.mul_neg] at up
      simp only [Bool.and_eq_true, decide_eq_true_eq]
      omega
    · next rising =>
      have width : (r.step.natAbs : Int) = r.step := by omega
      rw [if_neg rising, width] at reaches
      rw [width] at up
      simp only [Bool.and_eq_true, decide_eq_true_eq]
      omega
  · rintro ⟨between, k, steps⟩
    have forward : 0 ≤ k := by
      unfold rangeIncludes at between
      split at between
      · next down =>
        simp only [Bool.and_eq_true, decide_eq_true_eq] at between
        by_contra negative
        have far : 0 < r.step * k := Int.mul_pos_of_neg_of_neg down (by omega)
        omega
      · next up =>
        simp only [Bool.and_eq_true, decide_eq_true_eq] at between
        by_contra negative
        have far : r.step * k < 0 := Int.mul_neg_of_pos_of_neg (by omega) (by omega)
        omega
    obtain ⟨i, rfl⟩ := Int.eq_ofNat_of_zero_le forward
    have value : n = r.start + i * r.step := by
      rw [Int.mul_comm]
      omega
    refine ⟨i, List.mem_range.mpr ((goesOn_count nonzero i).mp ?_), value.symm⟩
    rw [← value]
    unfold goesOn
    unfold rangeIncludes at between
    split at between
    · next down =>
      simp only [Bool.and_eq_true, decide_eq_true_eq] at between
      rw [if_pos down, decide_eq_true_eq]
      exact between.1
    · next up =>
      simp only [Bool.and_eq_true, decide_eq_true_eq] at between
      rw [if_neg up, decide_eq_true_eq]
      exact between.2

theorem visited_iff (nonzero : r.step ≠ 0) (n : Int) :
    r.Visited n ↔ r.rangeIncludes n = true ∧ r.step ∣ n - r.start := by
  rw [← mem_visits nonzero]
  constructor
  · rintro ⟨vs, visits, member⟩
    rwa [(visits_iff nonzero).mp visits] at member
  · intro member
    exact ⟨r.visits, (visits_iff nonzero).mpr rfl, member⟩

end Visiting

section Extent

variable {r : Range}

theorem fdiv_step (r : Range) : (r.stop - r.start).fdiv r.step = r.span / r.step.natAbs := by
  unfold span
  split
  · next down =>
    have width : (r.step.natAbs : Int) = -r.step := by omega
    have turned : r.start - r.stop = -(r.stop - r.start) := by omega
    rw [width, turned, ← Int.fdiv_eq_ediv_of_nonneg _ (by omega), Int.neg_fdiv_neg]
  · next up =>
    have width : (r.step.natAbs : Int) = r.step := by omega
    rw [width, Int.fdiv_eq_ediv_of_nonneg _ (by omega)]

theorem count_eq (r : Range) :
    (r.count : Int) = if r.span < 0 then 0 else r.span / r.step.natAbs + 1 := by
  unfold count
  split
  · rfl
  · have positive : 0 ≤ r.span / r.step.natAbs := Int.ediv_nonneg (by omega) (by omega)
    omega

theorem count_pos (r : Range) : 0 < r.count ↔ 0 ≤ r.span := by
  unfold count
  split <;> omega

theorem count_single (one : r.start = r.stop) : r.count = 1 := by
  unfold count span
  split <;> simp only [one, Int.sub_self, Int.lt_irrefl, if_false, Int.zero_ediv, Int.toNat_zero,
    Nat.zero_add]

theorem size_eq (r : Range) :
    r.size = if r.step < 0 ∧ r.start = r.stop then 0 else (r.count : Int) := by
  rw [count_eq]
  unfold size
  rw [fdiv_step]
  by_cases down : r.step < 0
  · simp only [down, decide_true, Bool.true_xor, true_and, Bool.not_eq_eq_eq_not, Bool.not_true,
      decide_eq_false_iff_not]
    have span_eq : r.span = r.start - r.stop := if_pos down
    by_cases one : r.start = r.stop
    · rw [if_pos one, if_pos (by omega)]
    · rw [if_neg one]
      by_cases turned : r.start < r.stop
      · rw [if_pos (by omega), if_pos (by omega)]
      · rw [if_neg (by omega), if_neg (by omega)]
  · simp only [down, decide_false, Bool.false_xor, false_and, if_false, decide_eq_true_eq]
    have span_eq : r.span = r.stop - r.start := if_neg down
    by_cases turned : r.stop < r.start
    · rw [if_pos turned, if_pos (by omega)]
    · rw [if_neg turned, if_neg (by omega)]

theorem size_of_many (many : 2 ≤ r.count) : r.size = r.count := by
  rw [size_eq]
  apply if_neg
  rintro ⟨_, one⟩
  have single := count_single one
  omega

theorem size_of_some (some_ : 0 < r.size) : r.size = r.count := by
  rw [size_eq] at some_ ⊢
  split at some_
  · omega
  · next other => exact if_neg other

theorem length_visits (r : Range) : r.visits.length = r.count := by
  rw [visits, List.length_map, List.length_range]

theorem visits_get {i : Nat} (inside : i < r.count) :
    r.visits[i]? = some (r.start + i * r.step) := by
  rw [visits, List.getElem?_map, List.getElem?_range inside]
  rfl

theorem last_visited (some_ : r.visits ≠ []) : r.visits.getLast? = some r.last := by
  have counted : 0 < r.count := by
    rw [← length_visits]
    exact List.length_pos_iff.mpr some_
  have between := (count_pos r).mp counted
  have steps : ((r.count - 1 : Nat) : Int) = (r.stop - r.start).fdiv r.step := by
    have counts := count_eq r
    rw [if_neg (by omega), ← fdiv_step] at counts
    omega
  rw [List.getLast?_eq_getElem?, length_visits, visits_get (by omega), steps]
  have parts := Int.fmod_add_fdiv_mul (r.stop - r.start) r.step
  unfold last
  congr 1
  omega

theorem elementAt_visits (some_ : 0 < r.size) (n : Int) :
    r.elementAt n = if 0 ≤ n ∧ n < r.size then r.visits[n.toNat]? else none := by
  have counted := size_of_some some_
  unfold elementAt
  split
  · next first =>
    rw [first, if_pos ⟨Int.le_refl 0, some_⟩, Int.toNat_zero, visits_get (by omega)]
    simp only [Int.natCast_zero, Int.zero_mul, Int.add_zero]
  · next later =>
    by_cases inside : 0 < n ∧ n < r.size
    · have place : ((n.toNat : Nat) : Int) = n := Int.toNat_of_nonneg (by omega)
      rw [if_pos inside, if_pos (by omega), visits_get (by omega), place, Int.mul_comm,
        Int.add_comm]
    · rw [if_neg inside, if_neg (by omega)]

end Extent

section Protocols

variable {r : Range}

theorem equals_iff_of_many {r' : Range} (many : 2 ≤ r.count) :
    r.equals r' = true ↔ r.visits = r'.visits := by
  have counted := size_of_many many
  unfold equals
  simp only [Bool.and_eq_true, decide_eq_true_eq]
  constructor
  · rintro ⟨⟨starts, steps⟩, sizes⟩
    have counts : r.count = r'.count := by
      have counted' := size_of_some (r := r') (by omega)
      omega
    rw [visits, visits, starts, steps, counts]
  · intro same
    have counts : r.count = r'.count := by
      rw [← length_visits, ← length_visits, same]
    have firsts := visits_get (r := r) (i := 0) (by omega)
    have seconds := visits_get (r := r) (i := 1) (by omega)
    rw [same, visits_get (by omega), Option.some.injEq] at firsts seconds
    have counted' := size_of_many (r := r') (by omega)
    omega

theorem not_equals_of_few (nonzero : r.step ≠ 0) (few : r.count < 2) :
    ∃ r' : Range, r'.step ≠ 0 ∧ r.equals r' = false ∧ r.visits = r'.visits := by
  by_cases empty : r.count = 0
  · refine ⟨⟨r.start + 1, r.stop + 1, r.step⟩, nonzero, ?_, ?_⟩
    · have starts : ¬ r.start = r.start + 1 := by omega
      simp only [equals, starts, decide_false, Bool.false_and]
    · have counts : Range.count ⟨r.start + 1, r.stop + 1, r.step⟩ = r.count := by
        simp only [count, span, Int.add_sub_add_right]
        rfl
      rw [visits, visits, counts, empty]
      rfl
  · refine ⟨⟨r.start, r.start, 2 * r.step⟩, (by omega : 2 * r.step ≠ 0), ?_, ?_⟩
    · have steps : ¬ r.step = 2 * r.step := by omega
      simp only [equals, steps, decide_false, Bool.and_false, Bool.false_and]
    · have single : r.count = 1 := by omega
      rw [visits, visits, single, count_single rfl]
      simp only [List.range_one, List.map_cons, List.map_nil, Int.natCast_zero, Int.zero_mul]

end Protocols

end Range

/-- The protocols that go forward agree with what `do:` visits. -/
structure Forward (closeToStep : Int → Int → Bool) (r : Stepped) : Prop where
  visited : r.range.Visits ((List.range r.range.size.toNat).map fun i : Nat =>
    r.range.start + i * r.range.step)
  indexed : ∀ vs, r.range.Visits vs → ∀ n,
    r.range.elementAt n = if 0 ≤ n ∧ n < r.range.size then vs[n.toNat]? else none
  ends : ∀ vs, r.range.Visits vs → vs ≠ [] → vs.getLast? = some r.range.last
  members : ∀ n, r.range.includesNumber closeToStep n = true ↔ r.range.Visited n
  equal : ∀ r' : Stepped,
    r.range.equals r'.range = true ↔ ∀ vs, r.range.Visits vs ↔ r'.range.Visits vs

structure Agrees (closeToStep : Int → Int → Bool) (r : Stepped) : Prop
    extends Forward closeToStep r where
  reversed : ∀ vs, r.range.Visits vs → r.range.reverseDo = (vs.reverse, false)

def TellsSteps (closeToStep : Int → Int → Bool) (r : Range) : Prop :=
  ∀ n, r.rangeIncludes n = true → (closeToStep (n - r.start) r.step = true ↔ r.step ∣ n - r.start)

theorem visits_same_iff (r r' : Stepped) :
    (∀ vs, r.range.Visits vs ↔ r'.range.Visits vs) ↔ r.range.visits = r'.range.visits := by
  simp only [Range.visits_iff r.nonzero, Range.visits_iff r'.nonzero]
  constructor
  · intro same
    exact (same _).mp rfl
  · intro same vs
    rw [same]

theorem members_iff (closeToStep : Int → Int → Bool) (r : Stepped) :
    (∀ n, r.range.includesNumber closeToStep n = true ↔ r.range.Visited n) ↔
      TellsSteps closeToStep r.range := by
  simp only [Range.visited_iff r.nonzero, Range.includesNumber, Bool.and_eq_true, TellsSteps,
    and_congr_right_iff]

theorem forward_iff (closeToStep : Int → Int → Bool) (r : Stepped) :
    Forward closeToStep r ↔ 2 ≤ r.range.size ∧ TellsSteps closeToStep r.range := by
  constructor
  · rintro ⟨_, _, _, members, equal⟩
    refine ⟨?_, (members_iff closeToStep r).mp members⟩
    by_contra small
    have few : r.range.count < 2 := by
      by_contra many
      have counted := Range.size_of_many (r := r.range) (by omega)
      omega
    obtain ⟨other, nonzero, unequal, same⟩ := Range.not_equals_of_few r.nonzero few
    have equals := (equal ⟨other, nonzero⟩).mpr ((visits_same_iff r ⟨other, nonzero⟩).mpr same)
    rw [unequal] at equals
    cases equals
  · rintro ⟨many, tells⟩
    have counted := Range.size_of_some (r := r.range) (by omega)
    refine ⟨?_, ?_, ?_, (members_iff closeToStep r).mpr tells, fun r' => ?_⟩
    · rw [Range.visits_iff r.nonzero, counted, Int.toNat_natCast]
      rfl
    · intro vs visits n
      rw [(Range.visits_iff r.nonzero).mp visits]
      exact Range.elementAt_visits (by omega) n
    · intro vs visits some_
      rw [(Range.visits_iff r.nonzero).mp visits] at some_ ⊢
      exact Range.last_visited some_
    · rw [visits_same_iff]
      exact Range.equals_iff_of_many (by omega)

theorem not_reversed (r : Range) : r.reverseDo ≠ (r.visits.reverse, false) := by
  unfold Range.reverseDo
  by_cases begun : (if r.step < 0 then r.stop ≥ r.start else r.stop ≤ r.start)
  · rw [if_pos begun]
    intro reversed
    cases congrArg Prod.snd reversed
  · rw [if_neg begun]
    intro reversed
    have some_ : 0 < r.visits.length := by
      rw [Range.length_visits, Range.count_pos]
      unfold Range.span
      split at begun
      · next down =>
        rw [if_pos down]
        omega
      · next up =>
        rw [if_neg up]
        omega
    have empty := congrArg (List.length ∘ Prod.fst) reversed
    simp only [Function.comp_apply, List.length_nil, List.length_reverse] at empty
    omega

/-- Backwards the protocols never agree; forwards they do from two values on, where the
quotients tell the whole steps. -/
theorem range_protocols_right_iff (closeToStep : Int → Int → Bool) (r : Stepped) :
    ¬ Agrees closeToStep r ∧
      (Forward closeToStep r ↔ 2 ≤ r.range.size ∧ TellsSteps closeToStep r.range) := by
  refine ⟨?_, forward_iff closeToStep r⟩
  rintro ⟨_, reversed⟩
  exact not_reversed r.range (reversed _ ((Range.visits_iff r.nonzero).mpr rfl))

/-- `(1 upTo: 3) reverseDo:` visits nothing. -/
theorem reverseDo_up_to_three :
    ¬ ∃ closeToStep, Agrees closeToStep ⟨⟨1, 3, 1⟩, by decide⟩ := by
  rintro ⟨_, _, reversed⟩
  have backwards := reversed [1, 2, 3] ⟨4, rfl⟩
  cases backwards

section Intersecting

structure Ascending where
  range : Range
  positive : 0 < range.step

def Harmonic (r1 r2 : Range) : Prop := r1.step ∣ r2.step ∨ r2.step ∣ r1.step

def intersects (r1 r2 : Range) : Bool :=
  (decide (r2.start ≤ r1.start) && decide (r1.start ≤ r2.stop)) ||
    (decide (r1.start ≤ r2.start) && decide (r2.start ≤ r1.stop))

/-- `/\\`, which answers Nil where the ranges lie apart or the steps do not divide. -/
def intersection (r1 r2 : Range) : Option Range :=
  if intersects r1 r2 then
    if r1.step = r2.step then some ⟨max r1.start r2.start, min r1.stop r2.stop, r1.step⟩
    else if ((Int.gcd r1.step r2.step : Nat) : Int) ∈ [r1.step, r2.step] then
      some ⟨max r1.start r2.start, min r1.stop r2.stop, min r1.step r2.step⟩
    else none
  else none

/-- What is visited by an intersection is visited by both ranges. -/
structure Exact (r1 r2 : Ascending) : Prop where
  common : ∀ r, intersection r1.range r2.range = some r → ∀ v,
    r.Visited v ↔ r1.range.Visited v ∧ r2.range.Visited v
  nothing : intersection r1.range r2.range = none →
    (∀ v, ¬ (r1.range.Visited v ∧ r2.range.Visited v)) ∨ ¬ Harmonic r1.range r2.range

def Meeting (r1 r2 : Range) : Prop :=
  r1.step ∣ max r1.start r2.start - r1.start ∧ r2.step ∣ max r1.start r2.start - r2.start ∧
    (r1.step = r2.step ∨ min r1.stop r2.stop < max r1.start r2.start + min r1.step r2.step)

theorem visited_up_iff (r : Ascending) (v : Int) :
    r.range.Visited v ↔
      (r.range.start ≤ v ∧ v ≤ r.range.stop) ∧ r.range.step ∣ v - r.range.start := by
  have up := r.positive
  rw [Range.visited_iff (by omega)]
  unfold Range.rangeIncludes
  rw [if_neg (by omega), Bool.and_eq_true, decide_eq_true_eq, decide_eq_true_eq]

theorem harmonic_iff (r1 r2 : Ascending) :
    ((Int.gcd r1.range.step r2.range.step : Nat) : Int) ∈ [r1.range.step, r2.range.step] ↔
      Harmonic r1.range r2.range := by
  have up₁ := r1.positive
  have up₂ := r2.positive
  simp only [List.mem_cons, List.not_mem_nil, or_false, Harmonic,
    Int.gcd_eq_left_iff_dvd (Int.le_of_lt up₁), Int.gcd_eq_right_iff_dvd (Int.le_of_lt up₂)]

theorem apart (r1 r2 : Ascending) (lie : ¬ intersects r1.range r2.range = true) (v : Int) :
    ¬ (r1.range.Visited v ∧ r2.range.Visited v) := by
  rw [visited_up_iff, visited_up_iff]
  rintro ⟨⟨within₁, _⟩, within₂, _⟩
  unfold intersects at lie
  simp only [Bool.or_eq_true, Bool.and_eq_true, decide_eq_true_eq, not_or, not_and_or] at lie
  omega

theorem intersection_meets {r1 r2 : Ascending} (meet : intersects r1.range r2.range = true)
    (harmonic : Harmonic r1.range r2.range) :
    intersection r1.range r2.range = some ⟨max r1.range.start r2.range.start,
      min r1.range.stop r2.range.stop, min r1.range.step r2.range.step⟩ := by
  unfold intersection
  rw [if_pos meet, if_pos ((harmonic_iff r1 r2).mpr harmonic)]
  split
  · next same => rw [← same, Int.min_self]
  · rfl

theorem intersection_discordant {r1 r2 : Ascending} (discordant : ¬ Harmonic r1.range r2.range) :
    intersection r1.range r2.range = none := by
  have other : ¬ r1.range.step = r2.range.step := by
    intro same
    exact discordant (.inl ⟨1, by rw [same, Int.mul_one]⟩)
  unfold intersection
  rw [if_neg other, if_neg (mt (harmonic_iff r1 r2).mp discordant)]
  exact ite_self _

theorem common_iff (r1 r2 : Ascending) (v : Int) :
    (r1.range.Visited v ∧ r2.range.Visited v) ↔
      (max r1.range.start r2.range.start ≤ v ∧ v ≤ min r1.range.stop r2.range.stop) ∧
        r1.range.step ∣ v - r1.range.start ∧ r2.range.step ∣ v - r2.range.start := by
  rw [visited_up_iff, visited_up_iff, Int.max_le, Int.le_min]
  constructor
  · rintro ⟨⟨⟨low₁, high₁⟩, steps₁⟩, ⟨low₂, high₂⟩, steps₂⟩
    exact ⟨⟨⟨low₁, low₂⟩, high₁, high₂⟩, steps₁, steps₂⟩
  · rintro ⟨⟨⟨low₁, low₂⟩, high₁, high₂⟩, steps₁, steps₂⟩
    exact ⟨⟨⟨low₁, high₁⟩, steps₁⟩, ⟨low₂, high₂⟩, steps₂⟩

theorem steps_from {step start start' v : Int} (apart : step ∣ start' - start) :
    step ∣ v - start ↔ step ∣ v - start' := by
  have parts : v - start = v - start' + (start' - start) := by omega
  rw [parts]
  exact (Int.dvd_add_left apart)

theorem meeting_common {r1 r2 : Ascending} (meeting : Meeting r1.range r2.range) (v : Int) :
    (max r1.range.start r2.range.start ≤ v ∧ v ≤ min r1.range.stop r2.range.stop) ∧
        min r1.range.step r2.range.step ∣ v - max r1.range.start r2.range.start ↔
      r1.range.Visited v ∧ r2.range.Visited v := by
  have up₁ := r1.positive
  have up₂ := r2.positive
  obtain ⟨begins₁, begins₂, agree⟩ := meeting
  rw [common_iff, steps_from begins₁, steps_from begins₂]
  refine and_congr_right fun within => ?_
  rcases agree with same | near
  · rw [← same, Int.min_self, and_self_iff]
  constructor
  · intro steps
    have here : v - max r1.range.start r2.range.start = 0 :=
      Int.eq_zero_of_dvd_of_nonneg_of_lt (by omega) (by omega) steps
    rw [here]
    exact ⟨Int.dvd_zero _, Int.dvd_zero _⟩
  · rintro ⟨steps₁, steps₂⟩
    rcases Int.le_total r1.range.step r2.range.step with less | less
    · rwa [Int.min_eq_left less]
    · rwa [Int.min_eq_right less]

theorem common_meeting {r1 r2 : Ascending}
    (some_ : max r1.range.start r2.range.start ≤ min r1.range.stop r2.range.stop)
    (exact_ : ∀ v,
      (max r1.range.start r2.range.start ≤ v ∧ v ≤ min r1.range.stop r2.range.stop) ∧
          min r1.range.step r2.range.step ∣ v - max r1.range.start r2.range.start ↔
        r1.range.Visited v ∧ r2.range.Visited v) :
    Meeting r1.range r2.range := by
  have up₁ := r1.positive
  have up₂ := r2.positive
  have first := (exact_ _).mp ⟨⟨Int.le_refl _, some_⟩, by
    rw [Int.sub_self]
    exact Int.dvd_zero _⟩
  obtain ⟨_, begins₁, begins₂⟩ := (common_iff r1 r2 _).mp first
  refine ⟨begins₁, begins₂, ?_⟩
  by_contra other
  rw [not_or, Int.not_lt] at other
  have ahead : max r1.range.start r2.range.start + min r1.range.step r2.range.step -
      max r1.range.start r2.range.start = min r1.range.step r2.range.step := by omega
  have second := (exact_ (max r1.range.start r2.range.start + min r1.range.step r2.range.step)).mp
    ⟨⟨by omega, other.2⟩, by simp only [ahead, Int.dvd_refl]⟩
  obtain ⟨_, steps₁, steps₂⟩ := (common_iff r1 r2 _).mp second
  rw [steps_from begins₁] at steps₁
  rw [steps_from begins₂] at steps₂
  have small₁ := Int.le_of_dvd (by omega) steps₁
  have small₂ := Int.le_of_dvd (by omega) steps₂
  omega

/-- The intersection is right where the ranges lie apart, the steps do not divide one another,
the extents have nothing in common or the ranges meet. -/
theorem range_intersection_exact_iff (r1 r2 : Ascending) :
    Exact r1 r2 ↔
      ¬ intersects r1.range r2.range = true ∨ ¬ Harmonic r1.range r2.range ∨
        min r1.range.stop r2.range.stop < max r1.range.start r2.range.start ∨
        Meeting r1.range r2.range := by
  by_cases meet : intersects r1.range r2.range = true
  · by_cases harmonic : Harmonic r1.range r2.range
    · have answers := intersection_meets meet harmonic
      have positive : 0 < min r1.range.step r2.range.step :=
        Int.lt_min.mpr ⟨r1.positive, r2.positive⟩
      have visits := visited_up_iff ⟨⟨max r1.range.start r2.range.start,
        min r1.range.stop r2.range.stop, min r1.range.step r2.range.step⟩, positive⟩
      simp only at visits
      simp only [meet, harmonic, not_true_eq_false, false_or]
      constructor
      · rintro ⟨common, _⟩
        rcases Int.lt_or_le (min r1.range.stop r2.range.stop) (max r1.range.start r2.range.start)
          with none_ | some_
        · exact .inl none_
        · exact .inr (common_meeting some_ fun v => (visits v).symm.trans (common _ answers v))
      · intro right
        refine ⟨?_, fun absent => absurd (answers.symm.trans absent) (Option.some_ne_none _)⟩
        intro r given v
        cases answers.symm.trans given
        rw [visits]
        rcases right with none_ | meeting
        · rw [common_iff]
          omega
        · exact meeting_common meeting v
    · have answers := intersection_discordant harmonic
      refine iff_of_true ⟨?_, fun _ => .inr harmonic⟩ (.inr (.inl harmonic))
      intro r given
      cases answers.symm.trans given
  · have answers : intersection r1.range r2.range = none := if_neg meet
    refine iff_of_true ⟨?_, fun _ => .inl (apart r1 r2 meet)⟩ (.inl meet)
    intro r given
    cases answers.symm.trans given

/-- 1, 3, .. 9 and 2, 4, .. 10 have no value in common, but an intersection of four. -/
theorem intersection_odd_even :
    ¬ Exact ⟨⟨1, 9, 2⟩, by decide⟩ ⟨⟨2, 10, 2⟩, by decide⟩ := by
  rintro ⟨common, _⟩
  have visited := (common ⟨2, 9, 2⟩ rfl 2).mp ⟨[2, 4, 6, 8], ⟨5, rfl⟩, .head _⟩
  obtain ⟨⟨vs, ⟨rounds, run⟩, member⟩, _⟩ := visited
  have more := Range.doFrom_more run (Nat.le_max_left rounds 6)
  have runs := @Range.doFrom_more ⟨1, 9, 2⟩ 6 (max rounds 6) 1 [1, 3, 5, 7, 9] rfl
    (Nat.le_max_right rounds 6)
  cases runs.symm.trans more
  exact absurd member (by decide)

end Intersecting

end SlateVm.Ranges
