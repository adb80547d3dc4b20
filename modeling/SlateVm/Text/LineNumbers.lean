import SlateVm.Lib.Refinement
import Mathlib.Data.List.Basic
import Mathlib.Data.List.Range
import Mathlib.Data.Nat.Init

/-! Line numbers: the stream that remembers where lines end, beside the line ends of its text. -/
namespace SlateVm

open Refinement

/-- The slots of a `LineNumberedReadStream`, with the position of the stream it wraps. -/
structure LineNumbered where
  position : Nat
  eolPositions : List Nat
  lastPosition : Nat
  previousWasCR : Bool
deriving DecidableEq

namespace LineNumbered

def on (start : Nat) : LineNumbered := ⟨start, [start], start, false⟩

inductive Answer where
  | element (char : Char)
  | exhausted
  | outOfSync
  | done
  | number (n : Int)
deriving DecidableEq

section Source

variable (text : List Char)

def next (s : LineNumbered) : LineNumbered × Answer :=
  match text[s.position]? with
  | none => (s, .exhausted)
  | some char =>
    let s := { s with position := s.position + 1 }
    if s.position - 1 = s.lastPosition then
      let s := { s with lastPosition := s.lastPosition + 1 }
      if char = '\r' then
        ({ s with eolPositions := s.eolPositions ++ [s.position], previousWasCR := true },
          .element char)
      else if s.previousWasCR = false ∧ char = '\n' then
        ({ s with eolPositions := s.eolPositions ++ [s.position], previousWasCR := false },
          .element char)
      else ({ s with previousWasCR := false }, .element char)
    else (s, .outOfSync)

def readTo (newPosition : Nat) : Nat → LineNumbered → LineNumbered × Answer
  | 0, s => (s, .done)
  | rounds + 1, s =>
    if s.position < newPosition ∧ s.position < text.length then
      match s.next text with
      | (s, .element _) => readTo newPosition rounds s
      | (s, answer) => (s, answer)
    else (s, .done)

def setPosition (s : LineNumbered) (n : Nat) : LineNumbered × Answer :=
  if s.lastPosition < n then
    readTo text n (n - s.lastPosition) { s with position := s.lastPosition }
  else ({ s with position := n }, .done)

def search (eolPositions : List Nat) (pos : Nat) : Nat → Nat → Nat → Nat
  | 0, start, _ => start
  | rounds + 1, start, stop =>
    if start + 1 < stop then
      let index := (start + stop) / 2
      if eolPositions.getD index 0 ≤ pos then search eolPositions pos rounds index stop
      else search eolPositions pos rounds start index
    else start

def lineNumber (s : LineNumbered) : Int :=
  if s.eolPositions.getLastD 0 ≤ s.position then s.eolPositions.length
  else
    (search s.eolPositions s.position s.eolPositions.length 0 s.eolPositions.length : Int) - 1

inductive Op where
  | next
  | setPosition (n : Nat)
  | lineNumber

def perform (s : LineNumbered) : Op → LineNumbered × Answer
  | .next => s.next text
  | .setPosition n => s.setPosition text n
  | .lineNumber => (s, .number s.lineNumber)

/-- A line end is complete with the character at `i`: a newline, or a carriage return that no
newline follows. -/
def EndsAt (i : Nat) : Prop :=
  text[i]? = some '\n' ∨ text[i]? = some '\r' ∧ text[i + 1]? ≠ some '\n'

instance (i : Nat) : Decidable (EndsAt text i) := inferInstanceAs (Decidable (_ ∨ _))

def lineEndsBefore (pos : Nat) : Nat := (List.range pos).countP fun i => EndsAt text i

/-- The answers that are right where the stream stands at `pos`. -/
def Right (pos : Nat) : Op → Answer → Prop
  | .next, .element char => text[pos]? = some char
  | .next, .exhausted => text.length ≤ pos
  | .setPosition _, .done => True
  | .lineNumber, .number n => n = 1 + lineEndsBefore text pos
  | _, _ => False

def Op.after (pos : Nat) : Op → Nat
  | .next => min (pos + 1) text.length
  | .setPosition n => min n text.length
  | .lineNumber => pos

def implementation : Implementation LineNumbered Nat Op Answer where
  start s pos := ∃ start ≤ text.length, s = on start ∧ pos = start
  perform s op := some (s.perform text op)
  next pos op _ := op.after text pos
  right := Right text

end Source

section Ends

variable (text : List Char) (start : Nat)

/-- The stream records a line end at the character at `i`: a carriage return, or a newline that
does not come after one the stream has read. -/
def Recorded (i : Nat) : Prop := start ≤ i ∧
  (text[i]? = some '\r' ∨ text[i]? = some '\n' ∧ ¬ (start < i ∧ text[i - 1]? = some '\r'))

instance (i : Nat) : Decidable (Recorded text start i) := inferInstanceAs (Decidable (_ ∧ _))

/-- The characters before `n` at which a line end is recorded. -/
def recorded (n : Nat) : List Nat := (List.range n).filter fun i => Recorded text start i

def Between (pos : Nat) : Prop :=
  start < pos ∧ text[pos - 1]? = some '\r' ∧ text[pos]? = some '\n'

instance (pos : Nat) : Decidable (Between text start pos) := inferInstanceAs (Decidable (_ ∧ _))

variable {text start}

theorem recorded_succ (n : Nat) : recorded text start (n + 1) =
    recorded text start n ++ if Recorded text start n then [n] else [] := by
  rw [recorded, List.range_succ, List.filter_append, recorded]
  by_cases here : Recorded text start n
  · simp only [List.filter, here, decide_true, if_true]
  · simp only [List.filter, here, decide_false, if_false]

theorem recorded_start : recorded text start start = [] := by
  apply List.filter_eq_nil_iff.mpr
  intro i low here
  exact Nat.not_lt_of_le (of_decide_eq_true here).1 (List.mem_range.mp low)

theorem lineEndsBefore_succ (pos : Nat) : lineEndsBefore text (pos + 1) =
    lineEndsBefore text pos + if EndsAt text pos then 1 else 0 := by
  rw [lineEndsBefore, List.range_succ, List.countP_append, lineEndsBefore, List.countP_singleton]
  simp only [decide_eq_true_eq]

theorem recorded_ends {pos : Nat} (after : start ≤ pos) :
    (if Recorded text start pos then 1 else 0) + (if Between text start pos then 1 else 0) =
      (if EndsAt text pos then 1 else 0) + if Between text start (pos + 1) then 1 else 0 := by
  have passed : start < pos + 1 := Nat.lt_succ_of_le after
  simp only [Recorded, Between, EndsAt, after, passed, true_and, Nat.add_sub_cancel]
  by_cases cr : text[pos]? = some '\r'
  · by_cases next : text[pos + 1]? = some '\n' <;> simp [cr, next]
  by_cases lf : text[pos]? = some '\n'
  · by_cases before : start < pos ∧ text[pos - 1]? = some '\r' <;> simp [lf, before]
  · simp [cr, lf]

theorem recorded_count {pos : Nat} (after : start ≤ pos) :
    (recorded text start pos).length + lineEndsBefore text start =
      lineEndsBefore text pos + if Between text start pos then 1 else 0 := by
  induction pos, after using Nat.le_induction with
  | base =>
    rw [recorded_start, if_neg fun between => Nat.lt_irrefl _ between.1]
    exact Nat.zero_add _
  | succ pos after ih =>
    have one := @recorded_ends text start _ after
    have length : (recorded text start (pos + 1)).length =
        (recorded text start pos).length + if Recorded text start pos then 1 else 0 := by
      rw [recorded_succ, List.length_append]
      split <;> rfl
    rw [length, lineEndsBefore_succ]
    omega

theorem recorded_short {pos n : Nat} (behind : pos ≤ n)
    (none : ∀ i < n, Recorded text start i → i < pos) :
    recorded text start n = recorded text start pos := by
  induction n, behind using Nat.le_induction with
  | base => rfl
  | succ n behind ih =>
    have last : ¬ Recorded text start n := fun here =>
      Nat.not_lt_of_le behind (none n (Nat.lt_succ_self n) here)
    rw [recorded_succ, if_neg last, List.append_nil]
    exact ih fun i inside => none i (Nat.lt_succ_of_lt inside)

theorem index_lt_recorded {pos n k i : Nat} (behind : pos ≤ n)
    (here : (recorded text start n)[k]? = some i) (before : i < pos) :
    k < (recorded text start pos).length := by
  induction n, behind using Nat.le_induction with
  | base => exact (List.getElem?_eq_some_iff.mp here).1
  | succ n behind ih =>
    rw [recorded_succ] at here
    rcases Nat.lt_or_ge k (recorded text start n).length with inside | last
    · rw [List.getElem?_append_left inside] at here
      exact ih here
    · rw [List.getElem?_append_right last] at here
      have member := List.mem_of_getElem? here
      split at member
      · cases List.mem_singleton.mp member
        exact absurd before (Nat.not_lt_of_le behind)
      · cases member

theorem last_le_iff (n pos : Nat) :
    (start :: (recorded text start n).map (· + 1)).getLastD 0 ≤ pos ↔
      start ≤ pos ∧ ∀ i < n, Recorded text start i → i < pos := by
  induction n with
  | zero => simp [recorded]
  | succ n ih =>
    rw [recorded_succ]
    by_cases here : Recorded text start n
    · rw [if_pos here, List.map_append, ← List.cons_append, List.map_singleton,
        List.getLastD_concat]
      have low := here.1
      constructor
      · intro last
        exact ⟨by omega, fun i inside _ => by omega⟩
      · rintro ⟨-, all⟩
        exact all n (Nat.lt_succ_self n) here
    · rw [if_neg here, List.append_nil, ih]
      apply and_congr_right
      intro _
      constructor
      · intro all i inside recorded
        rcases Nat.lt_succ_iff_lt_or_eq.mp inside with before | rfl
        · exact all i before recorded
        · exact absurd recorded here
      · intro all i inside
        exact all i (Nat.lt_succ_of_lt inside)

theorem search_spec (eolPositions : List Nat) (pos : Nat) {rounds first stop : Nat}
    (inside : first < stop) (low : first = 0 ∨ eolPositions.getD first 0 ≤ pos) :
    search eolPositions pos rounds first stop < stop ∧
      (search eolPositions pos rounds first stop = 0 ∨
        eolPositions.getD (search eolPositions pos rounds first stop) 0 ≤ pos) := by
  induction rounds generalizing first stop with
  | zero => exact ⟨inside, low⟩
  | succ rounds ih =>
    rw [search]
    split
    · dsimp only
      split
      · rename_i low'
        exact ih (by omega) (Or.inr low')
      · obtain ⟨before, found⟩ := @ih first ((first + stop) / 2) (by omega) low
        exact ⟨by omega, found⟩
    · exact ⟨inside, low⟩

end Ends

/-- Between calls the stream has recorded the line ends up to `lastPosition`, and stands no
further. -/
structure Synced (text : List Char) (start : Nat) (s : LineNumbered) (pos : Nat) : Prop where
  position : s.position = pos
  behind : s.position ≤ s.lastPosition
  after : start ≤ s.lastPosition
  within : s.lastPosition ≤ text.length
  ends : s.eolPositions = start :: (recorded text start s.lastPosition).map (· + 1)
  cr : s.previousWasCR = decide (start < s.lastPosition ∧ text[s.lastPosition - 1]? = some '\r')

namespace Synced

variable {text : List Char} {start pos : Nat} {s : LineNumbered}

theorem lineNumber_right_iff (v : Synced text start s pos) :
    s.lineNumber = 1 + lineEndsBefore text pos ↔ s.eolPositions.getLastD 0 ≤ s.position ∧
      lineEndsBefore text start = if Between text start s.position then 1 else 0 := by
  have ends := v.ends
  have last := @last_le_iff text start s.lastPosition s.position
  rw [← ends] at last
  rw [lineNumber, ← v.position]
  by_cases beyond : s.eolPositions.getLastD 0 ≤ s.position
  · obtain ⟨after, all⟩ := last.mp beyond
    have count := @recorded_count text start _ after
    rw [← recorded_short v.behind all] at count
    have size := congrArg List.length ends
    rw [List.length_cons, List.length_map] at size
    rw [if_pos beyond]
    constructor
    · intro same
      exact ⟨beyond, by omega⟩
    · rintro ⟨-, same⟩
      omega
  · rw [if_neg beyond]
    refine ⟨fun same => ?_, fun right => absurd right.1 beyond⟩
    -- The search stops at one of the line ends before the position, and one is taken off.
    obtain ⟨inside, zero | low⟩ := @search_spec s.eolPositions s.position s.eolPositions.length 0
      s.eolPositions.length (by rw [ends]; exact Nat.succ_pos _) (Or.inl rfl)
    · omega
    generalize search s.eolPositions s.position s.eolPositions.length 0 s.eolPositions.length = k
      at same inside low
    obtain ⟨j, rfl⟩ : ∃ j, k = j + 1 := ⟨k - 1, by omega⟩
    rw [ends, List.length_cons, List.length_map] at inside
    have here : (recorded text start s.lastPosition)[j]? =
        some (recorded text start s.lastPosition)[j] := List.getElem?_eq_getElem (by omega)
    rw [ends, List.getD_cons_succ, List.getD_eq_getElem?_getD, List.getElem?_map, here] at low
    have before := index_lt_recorded v.behind here low
    have record := List.mem_filter.mp (List.mem_of_getElem? here)
    have after : start ≤ s.position :=
      Nat.le_of_lt (Nat.lt_of_le_of_lt (of_decide_eq_true record.2).1 low)
    have count := @recorded_count text start _ after
    split at count <;> omega

theorem on (text : List Char) (start : Nat) (inside : start ≤ text.length) :
    Synced text start (LineNumbered.on start) start where
  position := rfl
  behind := Nat.le_refl _
  after := Nat.le_refl _
  within := inside
  ends := by
    simp only [LineNumbered.on, recorded_start, List.map_nil]
  cr := by
    simp only [LineNumbered.on, Nat.lt_irrefl, false_and, decide_false]

theorem move (v : Synced text start s pos) {n : Nat} (behind : n ≤ s.lastPosition) :
    Synced text start { s with position := n } n :=
  ⟨rfl, behind, v.after, v.within, v.ends, v.cr⟩

theorem advance (v : Synced text start s pos) (here : s.position = s.lastPosition) {char : Char}
    (read : text[s.position]? = some char) {eolPositions : List Nat} {previousWasCR : Bool}
    (ends : eolPositions = s.eolPositions ++
      if Recorded text start s.lastPosition then [s.position + 1] else [])
    (cr : previousWasCR = decide (char = '\r')) :
    Synced text start ⟨s.position + 1, eolPositions, s.lastPosition + 1, previousWasCR⟩
      (pos + 1) where
  position := congrArg (· + 1) v.position
  behind := Nat.succ_le_succ v.behind
  after := Nat.le_succ_of_le v.after
  within := here ▸ (List.getElem?_eq_some_iff.mp read).1
  ends := by
    rw [ends, v.ends, recorded_succ, List.map_append, List.cons_append, here]
    split <;> rfl
  cr := by
    have passed : start < s.position + 1 := here ▸ Nat.lt_succ_of_le v.after
    simp only [cr, Nat.add_sub_cancel, ← here, read, Option.some.injEq, passed, true_and]

theorem next_reads (v : Synced text start s pos) (here : s.position = s.lastPosition)
    {char : Char} (read : text[s.position]? = some char) :
    ∃ s', s.next text = (s', .element char) ∧ Synced text start s' (pos + 1) ∧
      s'.position = s'.lastPosition := by
  have same : s.position + 1 - 1 = s.lastPosition := here
  have ahead : s.position + 1 = s.lastPosition + 1 := congrArg (· + 1) here
  have recorded_iff : Recorded text start s.lastPosition ↔
      char = '\r' ∨ s.previousWasCR = false ∧ char = '\n' := by
    rw [v.cr, decide_eq_false_iff_not, Recorded, ← here, read]
    simp only [Option.some.injEq, here, v.after, true_and, and_comm]
  by_cases cr : char = '\r'
  · refine ⟨⟨s.position + 1, s.eolPositions ++ [s.position + 1], s.lastPosition + 1, true⟩, ?_, ?_,
      ahead⟩
    · simp only [next, read, if_pos same, if_pos cr]
    · apply v.advance here read
      · rw [if_pos (recorded_iff.mpr (Or.inl cr))]
      · exact (decide_eq_true cr).symm
  by_cases lf : s.previousWasCR = false ∧ char = '\n'
  · refine ⟨⟨s.position + 1, s.eolPositions ++ [s.position + 1], s.lastPosition + 1, false⟩, ?_, ?_,
      ahead⟩
    · simp only [next, read, if_pos same, if_neg cr, if_pos lf]
    · apply v.advance here read
      · rw [if_pos (recorded_iff.mpr (Or.inr lf))]
      · exact (decide_eq_false cr).symm
  · refine ⟨⟨s.position + 1, s.eolPositions, s.lastPosition + 1, false⟩, ?_, ?_, ahead⟩
    · simp only [next, read, if_pos same, if_neg cr, if_neg lf]
    · apply v.advance here read
      · rw [if_neg (mt recorded_iff.mp (not_or.mpr ⟨cr, lf⟩)), List.append_nil]
      · exact (decide_eq_false cr).symm

theorem next_behind (v : Synced text start s pos) (behind : s.position ≠ s.lastPosition) :
    ∃ s', s.next text = (s', .outOfSync) := by
  have inside : s.position < text.length := by
    have := v.behind
    have := v.within
    omega
  refine ⟨{ s with position := s.position + 1 }, ?_⟩
  simp only [next, List.getElem?_eq_getElem inside, Nat.add_sub_cancel, if_neg behind]

theorem next_end (read : text[s.position]? = none) : s.next text = (s, .exhausted) := by
  simp only [next, read]

theorem readTo_spec {newPosition rounds : Nat} (v : Synced text start s pos)
    (here : s.position = s.lastPosition) (enough : newPosition ≤ s.position + rounds)
    (ahead : s.position ≤ newPosition) :
    ∃ s', readTo text newPosition rounds s = (s', .done) ∧
      Synced text start s' (min newPosition text.length) := by
  have within := v.within
  induction rounds generalizing s pos with
  | zero =>
    refine ⟨s, rfl, ?_⟩
    have stands : min newPosition text.length = pos := by
      rw [← v.position]
      omega
    rw [stands]
    exact v
  | succ rounds ih =>
    rw [readTo]
    by_cases more : s.position < newPosition ∧ s.position < text.length
    · obtain ⟨s', run, v', here'⟩ := v.next_reads here (List.getElem?_eq_getElem more.2)
      have moved := v'.position
      have stood := v.position
      rw [if_pos more, run]
      exact ih v' here' (by omega) (by omega) v'.within
    · refine ⟨s, if_neg more, ?_⟩
      have stands : min newPosition text.length = pos := by
        rw [← v.position]
        omega
      rw [stands]
      exact v

end Synced

/-- Where a call is right: `next` only where nothing has been read further ahead, `lineNumber` only
where no line end is recorded further ahead and the ends before the start are made up for. -/
def Meets (text : List Char) (start : Nat) (s : LineNumbered) : Op → Prop
  | .next => s.position = s.lastPosition
  | .setPosition _ => True
  | .lineNumber => s.eolPositions.getLastD 0 ≤ s.position ∧
      lineEndsBefore text start = if Between text start s.position then 1 else 0

theorem step_iff {text : List Char} {start pos : Nat} {s : LineNumbered}
    (v : Synced text start s pos) (op : Op) :
    Step (implementation text) (Synced text start) s pos op ↔ Meets text start s op := by
  have within := v.within
  have behind := v.behind
  have stands := v.position
  cases op with
  | next =>
    by_cases here : s.position = s.lastPosition
    · refine iff_of_true ?_ here
      cases read : text[s.position]? with
      | none =>
        have atEnd : text.length ≤ pos := by
          rw [← stands]
          exact List.getElem?_eq_none_iff.mp read
        have stays : min (pos + 1) text.length = pos := by omega
        refine ⟨s, .exhausted, congrArg some (Synced.next_end read), atEnd, ?_⟩
        simp only [implementation, Op.after, stays]
        exact v
      | some char =>
        obtain ⟨s', run, v', -⟩ := v.next_reads here read
        have inside := (List.getElem?_eq_some_iff.mp read).1
        have moves : min (pos + 1) text.length = pos + 1 := by omega
        refine ⟨s', .element char, congrArg some run, ?_, ?_⟩
        · rw [← stands]
          exact read
        · simp only [implementation, Op.after, moves]
          exact v'
    · refine iff_of_false ?_ here
      obtain ⟨s', lost⟩ := v.next_behind here
      rintro ⟨_, _, run, right, -⟩
      simp only [implementation, perform, lost] at run
      cases run
      exact right
  | setPosition n =>
    refine iff_of_true ?_ trivial
    by_cases ahead : s.lastPosition < n
    · obtain ⟨s', run, v'⟩ := @Synced.readTo_spec text start _ _ n
        (n - s.lastPosition) (v.move (Nat.le_refl s.lastPosition)) rfl (by dsimp only; omega)
        (Nat.le_of_lt ahead)
      refine ⟨s', .done, ?_, trivial, v'⟩
      simp only [implementation, perform, setPosition, if_pos ahead, run]
    · have stays : min n text.length = n := by omega
      refine ⟨{ s with position := n }, .done, ?_, trivial, ?_⟩
      · simp only [implementation, perform, setPosition, if_neg ahead]
      · simp only [implementation, Op.after, stays]
        exact v.move (Nat.le_of_not_lt ahead)
  | lineNumber =>
    constructor
    · rintro ⟨_, _, run, right, -⟩
      cases run
      exact v.lineNumber_right_iff.mp right
    · intro meets
      exact ⟨s, _, rfl, v.lineNumber_right_iff.mpr meets, v⟩

/-- A run of calls is right if and only if every call meets its condition. -/
theorem line_numbers_right_iff (text : List Char) (start : Fin (text.length + 1))
    (calls : List Op) : Follows (implementation text) (Synced text start) (on start) start calls ↔
      Within (implementation text) (Meets text start) (on start) calls := by
  apply follows_iff
  · intro s pos op v
    exact step_iff v op
  · exact Synced.on text start (Nat.le_of_lt_succ start.isLt)

/-- Back at the start of two characters, `next` is out of sync; behind the first of two line ends
the number is that of the search less one; and between CR and LF the end counts already. -/
theorem moved_back_out_of_sync :
    ¬ Follows (implementation ['a', 'b']) (Synced ['a', 'b'] 0) (on 0) 0
      [.next, .setPosition 0, .next] ∧
    ¬ Follows (implementation ['\n', '\n']) (Synced ['\n', '\n'] 0) (on 0) 0
      [.next, .next, .setPosition 1, .lineNumber] ∧
    ¬ Follows (implementation ['\r', '\n']) (Synced ['\r', '\n'] 0) (on 0) 0
      [.next, .lineNumber] := by
  refine ⟨?_, ?_, ?_⟩
  · rintro ⟨_, _, first, -, -, _, _, back, -, -, _, _, again, right, -⟩
    cases first
    cases back
    cases again
    exact right
  · rintro ⟨_, _, first, -, -, _, _, second, -, -, _, _, back, -, -, _, _, number, right, -⟩
    cases first
    cases second
    cases back
    cases number
    have two : (0 : Int) = 1 + lineEndsBefore ['\n', '\n'] 1 := right
    exact absurd two (by decide)
  · rintro ⟨_, _, first, -, -, _, _, number, right, -⟩
    cases first
    cases number
    have one : (2 : Int) = 1 + lineEndsBefore ['\r', '\n'] 1 := right
    exact absurd one (by decide)

end LineNumbered

end SlateVm
