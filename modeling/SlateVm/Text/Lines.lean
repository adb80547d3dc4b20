import SlateVm.Lib.Refinement
import SlateVm.Lib.Slices
import Mathlib.Data.List.Basic
import Mathlib.Data.List.Infix

/-! Lines of text: the stream that reads them from a stream of characters, beside the lines that
the line ends separate. -/
namespace SlateVm

open Refinement Slices

/-- The slots of `ReadStream LineStream`: what its source has left, and the flag. -/
structure LineStream where
  source : List Char
  trailingNL : Bool
deriving DecidableEq

namespace LineStream

def on (text : List Char) : LineStream := ⟨text, false⟩

/-- `nextLine` with the characters of the line so far. A newline ends the line unless the flag is
set; no other character clears the flag. -/
def readLine : List Char → Bool → List Char → Option (List Char) × LineStream
  | [], trailingNL, line => (if line = [] then none else some line, ⟨[], trailingNL⟩)
  | char :: source, trailingNL, line =>
    if char = '\r' then (some line, ⟨source, true⟩)
    else if char = '\n' then
      if trailingNL then readLine source false line else (some line, ⟨source, false⟩)
    else readLine source trailingNL (line ++ [char])

def nextLine (l : LineStream) : Option (List Char) × LineStream :=
  readLine l.source l.trailingNL []

def putInto (start : Nat) : Nat → Nat → LineStream → List (List Char) →
    LineStream × Option (Nat × List (List Char))
  | 0, index, l, seq => (l, some (index, seq))
  | n + 1, index, l, seq =>
    match l.nextLine with
    | (none, l) => (l, some (index, seq))
    | (some line, l) =>
      if index + start < seq.length then
        putInto start n (index + 1) l (seq.set (index + start) line)
      else (l, none)

/-- `upToEnd`: `next` for as long as the source is not at its end; a `next` that finds no line
signals Exhaustion. -/
def upToEnd : Nat → LineStream → List (List Char) → LineStream × Option (List (List Char))
  | 0, l, result => (l, some result)
  | rounds + 1, l, result =>
    if l.source = [] then (l, some result)
    else
      match l.nextLine with
      | (none, l) => (l, none)
      | (some line, l) => upToEnd rounds l (result ++ [line])

/-- The ways to ask for lines; a bulk read has room for what it asks for. -/
inductive Request where
  | nextLine
  | read (n : Nat) (seq : List (List Char)) (start : Nat) (room : start + n ≤ seq.length)
  | upToEnd

inductive Answer where
  | line (line : Option (List Char))
  | read (numRead : Nat) (seq : List (List Char))
  | all (lines : List (List Char))
  | signalled
deriving DecidableEq

def perform (l : LineStream) : Request → LineStream × Answer
  | .nextLine => (l.nextLine.2, .line l.nextLine.1)
  | .read n seq start _ =>
    match putInto start n 0 l seq with
    | (l, some (numRead, seq)) => (l, .read numRead seq)
    | (l, none) => (l, .signalled)
  | .upToEnd =>
    match upToEnd (l.source.length + 1) l [] with
    | (l, some lines) => (l, .all lines)
    | (l, none) => (l, .signalled)

end LineStream

def linesFrom : List Char → List Char → List (List Char)
  | line, [] => if line = [] then [] else [line]
  | line, '\r' :: '\n' :: text => line :: linesFrom [] text
  | line, c :: text =>
    if c = '\r' ∨ c = '\n' then line :: linesFrom [] text else linesFrom (line ++ [c]) text

/-- The lines of a text: CR, LF and CR-LF end a line, and what is left after the last of them is
a line unless it is empty. -/
def lines (text : List Char) : List (List Char) := linesFrom [] text

example : lines "a\r\n\rb\n\nc".toList = ["a", "", "b", "", "c"].map String.toList := by decide

def Plain (p : List Char) : Prop := ∀ c ∈ p, c ≠ '\r' ∧ c ≠ '\n'

attribute [local simp] linesFrom LineStream.readLine

theorem plain_nil : Plain [] := fun _ none => absurd none List.not_mem_nil

def Merges (text : List Char) : Prop :=
  ∃ p c rest, p ≠ [] ∧ Plain p ∧ text = p ++ '\n' :: c :: rest

def Merging (text : List Char) : Prop :=
  ∃ before after, text = before ++ '\r' :: after ∧ Merges after

def EndsCrLf (text : List Char) : Prop := ['\r', '\n'] <:+ text

section Lines

def skipNewline : List Char → List Char
  | '\n' :: text => text
  | text => text

theorem linesFrom_plain {p : List Char} (plain : Plain p) (line text : List Char) :
    linesFrom line (p ++ text) = linesFrom (line ++ p) text := by
  induction p generalizing line with
  | nil => rw [List.append_nil, List.nil_append]
  | cons c p ih =>
    obtain ⟨noCr, noLf⟩ := plain c List.mem_cons_self
    rw [List.cons_append, linesFrom, if_neg (not_or.mpr ⟨noCr, noLf⟩),
      ih (fun d member => plain d (List.mem_cons_of_mem _ member)), List.append_assoc]
    · rfl
    · rintro _ rfl
      exact fun _ => noCr rfl

theorem skipNewline_eq {text : List Char} (other : ∀ rest, text ≠ '\n' :: rest) :
    skipNewline text = text := by
  unfold skipNewline
  split
  · exact absurd rfl (other _)
  · rfl

theorem linesFrom_cr (line text : List Char) :
    linesFrom line ('\r' :: text) = line :: lines (skipNewline text) := by
  cases text with
  | nil => rfl
  | cons c text =>
    by_cases newline : c = '\n'
    · subst newline
      rfl
    · have kept : skipNewline (c :: text) = c :: text :=
        skipNewline_eq fun rest same => newline (List.cons.inj same).1
      rw [kept, linesFrom, if_pos (Or.inl rfl), lines]
      rintro _ - same
      exact newline (List.cons.inj same).1

theorem linesFrom_lf (line text : List Char) :
    linesFrom line ('\n' :: text) = line :: lines text := by
  rw [linesFrom, if_pos (Or.inr rfl), lines]
  rintro _ same
  cases same

theorem plain_cases (text : List Char) : Plain text ∨
    (∃ p rest, Plain p ∧ text = p ++ '\r' :: rest) ∨
      ∃ p rest, Plain p ∧ text = p ++ '\n' :: rest := by
  induction text with
  | nil => exact Or.inl plain_nil
  | cons c text ih =>
    by_cases cr : c = '\r'
    · exact Or.inr (Or.inl ⟨[], text, plain_nil, cr ▸ rfl⟩)
    by_cases lf : c = '\n'
    · exact Or.inr (Or.inr ⟨[], text, plain_nil, lf ▸ rfl⟩)
    have more : ∀ p, Plain p → Plain (c :: p) := by
      intro p plain d member
      rcases List.mem_cons.mp member with rfl | inside
      · exact ⟨cr, lf⟩
      · exact plain d inside
    rcases ih with plain | ⟨p, rest, plain, rfl⟩ | ⟨p, rest, plain, rfl⟩
    · exact Or.inl (more text plain)
    · exact Or.inr (Or.inl ⟨c :: p, rest, more p plain, rfl⟩)
    · exact Or.inr (Or.inr ⟨c :: p, rest, more p plain, rfl⟩)

theorem merging_nil : ¬ Merging [] := by
  rintro ⟨before, after, same, -⟩
  cases before <;> cases same

theorem merging_cons (c : Char) (text : List Char) :
    Merging (c :: text) ↔ (c = '\r' ∧ Merges text) ∨ Merging text := by
  constructor
  · rintro ⟨before, after, same, merges⟩
    cases before with
    | nil =>
      obtain ⟨rfl, rfl⟩ := List.cons.inj same
      exact Or.inl ⟨rfl, merges⟩
    | cons d before =>
      obtain ⟨rfl, rfl⟩ := List.cons.inj same
      exact Or.inr ⟨before, after, rfl, merges⟩
  · rintro (⟨rfl, merges⟩ | ⟨before, after, rfl, merges⟩)
    · exact ⟨[], text, rfl, merges⟩
    · exact ⟨c :: before, after, rfl, merges⟩

theorem endsCrLf_cons (c : Char) (text : List Char) :
    EndsCrLf (c :: text) ↔ (c = '\r' ∧ text = ['\n']) ∨ EndsCrLf text := by
  rw [EndsCrLf, List.suffix_cons_iff, List.cons.injEq]
  exact or_congr (and_congr eq_comm eq_comm) Iff.rfl

theorem merging_plain {p : List Char} (plain : Plain p) (text : List Char) :
    Merging (p ++ text) ↔ Merging text := by
  induction p with
  | nil => exact Iff.rfl
  | cons c p ih =>
    rw [List.cons_append, merging_cons, ih fun d member => plain d (List.mem_cons_of_mem _ member)]
    exact or_iff_right fun cr => (plain c List.mem_cons_self).1 cr.1

theorem endsCrLf_plain {p : List Char} (plain : Plain p) (text : List Char) :
    EndsCrLf (p ++ text) ↔ EndsCrLf text := by
  induction p with
  | nil => exact Iff.rfl
  | cons c p ih =>
    rw [List.cons_append, endsCrLf_cons,
      ih fun d member => plain d (List.mem_cons_of_mem _ member)]
    exact or_iff_right fun cr => (plain c List.mem_cons_self).1 cr.1

theorem not_endsCrLf_nil : ¬ EndsCrLf [] := by
  intro ends
  exact absurd ends.length_le (by decide)

theorem plain_unique {p q s t : List Char} {a b : Char} (plain : Plain p) (plain' : Plain q)
    (ends : a = '\r' ∨ a = '\n') (ends' : b = '\r' ∨ b = '\n')
    (same : p ++ a :: s = q ++ b :: t) : p = q ∧ a = b ∧ s = t := by
  induction p generalizing q with
  | nil =>
    cases q with
    | nil => exact ⟨rfl, List.cons.inj same⟩
    | cons c q =>
      obtain ⟨rfl, -⟩ := List.cons.inj same
      exact absurd ends (not_or.mpr (plain' a List.mem_cons_self))
  | cons c p ih =>
    cases q with
    | nil =>
      obtain ⟨rfl, -⟩ := List.cons.inj same
      exact absurd ends' (not_or.mpr (plain c List.mem_cons_self))
    | cons d q =>
      obtain ⟨rfl, tails⟩ := List.cons.inj same
      obtain ⟨rfl, rest⟩ := ih (fun e member => plain e (List.mem_cons_of_mem _ member))
        (fun e member => plain' e (List.mem_cons_of_mem _ member)) tails
      exact ⟨rfl, rest⟩

theorem merges_lf {p rest : List Char} (plain : Plain p) :
    Merges (p ++ '\n' :: rest) ↔ p ≠ [] ∧ rest ≠ [] := by
  constructor
  · rintro ⟨q, c, rest', some, plain', same⟩
    obtain ⟨rfl, -, rfl⟩ := plain_unique plain plain' (Or.inr rfl) (Or.inr rfl) same
    exact ⟨some, List.cons_ne_nil _ _⟩
  · rintro ⟨some, more⟩
    obtain ⟨c, rest', rfl⟩ := List.exists_cons_of_ne_nil more
    exact ⟨p, c, rest', some, plain, rfl⟩

theorem not_merges_plain {p : List Char} (plain : Plain p) : ¬ Merges p := by
  rintro ⟨q, c, rest, -, -, rfl⟩
  exact (plain '\n' (List.mem_append_right _ List.mem_cons_self)).2 rfl

theorem not_merges_cr {p rest : List Char} (plain : Plain p) : ¬ Merges (p ++ '\r' :: rest) := by
  rintro ⟨q, c, rest', -, plain', same⟩
  obtain ⟨-, no, -⟩ := plain_unique plain plain' (Or.inl rfl) (Or.inr rfl) same
  cases no

end Lines

namespace LineStream

def pending (l : LineStream) : List Char := if l.trailingNL then skipNewline l.source else l.source

def full (l : LineStream) : List Char := if l.trailingNL then '\r' :: l.source else l.source

theorem readLine_plain {p : List Char} (plain : Plain p) (text line : List Char)
    (trailingNL : Bool) :
    readLine (p ++ text) trailingNL line = readLine text trailingNL (line ++ p) := by
  induction p generalizing line with
  | nil => rw [List.append_nil, List.nil_append]
  | cons c p ih =>
    obtain ⟨noCr, noLf⟩ := plain c List.mem_cons_self
    rw [List.cons_append, readLine, if_neg noCr, if_neg noLf,
      ih (fun d member => plain d (List.mem_cons_of_mem _ member)), List.append_assoc]
    rfl

/-- `nextLine` answers the next line, and leaves the text behind it. -/
structure Reads (l : LineStream) (line : List Char) (l' : LineStream) : Prop where
  run : l.nextLine = (some line, l')
  lines : lines l.pending = line :: lines l'.pending
  shorter : l'.source.length < l.source.length
  merging : Merging l'.full ↔ Merging l.full
  ends : EndsCrLf l'.full ↔ EndsCrLf l.full

/-- `nextLine` finds no more lines. -/
structure Finishes (l l' : LineStream) : Prop where
  run : l.nextLine = (none, l')
  pending : l.pending = []
  left : l'.source = []
  merging : ¬ Merging l.full
  ends : l.source ≠ [] ↔ EndsCrLf l.full

theorem pending_eq {text : List Char} (trailingNL : Bool) (other : ∀ rest, text ≠ '\n' :: rest) :
    pending ⟨text, trailingNL⟩ = text := by
  cases trailingNL with
  | false => rfl
  | true => exact skipNewline_eq other

theorem plain_first {p rest : List Char} (plain : Plain p) (first : p ≠ []) (rest' : List Char) :
    p ++ rest ≠ '\n' :: rest' := by
  intro same
  cases p with
  | nil => exact first rfl
  | cons c p =>
    cases same
    exact (plain '\n' List.mem_cons_self).2 rfl

theorem merging_full (l : LineStream) :
    Merging l.full ↔ (l.trailingNL = true ∧ Merges l.source) ∨ Merging l.source := by
  obtain ⟨source, trailingNL⟩ := l
  cases trailingNL with
  | false => simp only [full, Bool.false_eq_true, if_false, false_and, false_or]
  | true => simp only [full, if_true, merging_cons, true_and]

theorem endsCrLf_full (l : LineStream) :
    EndsCrLf l.full ↔ (l.trailingNL = true ∧ l.source = ['\n']) ∨ EndsCrLf l.source := by
  obtain ⟨source, trailingNL⟩ := l
  cases trailingNL with
  | false => simp only [full, Bool.false_eq_true, if_false, false_and, false_or]
  | true => simp only [full, if_true, endsCrLf_cons, true_and]

theorem reads_cr {p rest : List Char} (plain : Plain p) (trailingNL : Bool) :
    Reads ⟨p ++ '\r' :: rest, trailingNL⟩ p ⟨rest, true⟩ where
  run := by
    rw [nextLine, readLine_plain plain]
    rfl
  lines := by
    have other : ∀ rest', p ++ '\r' :: rest ≠ '\n' :: rest' := by
      intro rest' same
      cases p with
      | nil => cases same
      | cons c p => exact plain_first plain (List.cons_ne_nil _ _) rest' same
    rw [pending_eq trailingNL other, SlateVm.lines, linesFrom_plain plain, linesFrom_cr]
    rfl
  shorter := by
    simp only [List.length_append, List.length_cons]
    omega
  merging := by
    rw [merging_full ⟨p ++ '\r' :: rest, trailingNL⟩, merging_plain plain]
    exact (or_iff_right fun merges => not_merges_cr plain merges.2).symm
  ends := by
    have other : p ++ '\r' :: rest ≠ ['\n'] := by
      intro same
      cases p with
      | nil => cases same
      | cons c p => exact plain_first plain (List.cons_ne_nil _ _) [] same
    rw [endsCrLf_full ⟨p ++ '\r' :: rest, trailingNL⟩, endsCrLf_plain plain]
    exact (or_iff_right fun ends => other ends.2).symm

theorem merging_lf (text : List Char) : Merging ('\n' :: text) ↔ Merging text := by
  rw [merging_cons]
  exact or_iff_right fun cr => absurd cr.1 (by decide)

theorem endsCrLf_lf (text : List Char) : EndsCrLf ('\n' :: text) ↔ EndsCrLf text := by
  rw [endsCrLf_cons]
  exact or_iff_right fun cr => absurd cr.1 (by decide)

theorem reads_lf {p rest : List Char} (plain : Plain p) :
    Reads ⟨p ++ '\n' :: rest, false⟩ p ⟨rest, false⟩ where
  run := by
    rw [nextLine, readLine_plain plain]
    rfl
  lines := by
    have first : SlateVm.lines (p ++ '\n' :: rest) = p :: SlateVm.lines rest := by
      rw [SlateVm.lines, linesFrom_plain plain, linesFrom_lf]
      rfl
    exact first
  shorter := by
    simp only [List.length_append, List.length_cons]
    omega
  merging := by
    rw [merging_full ⟨p ++ '\n' :: rest, false⟩, merging_plain plain, merging_lf]
    exact (or_iff_right fun merges => Bool.false_ne_true merges.1).symm
  ends := by
    rw [endsCrLf_full ⟨p ++ '\n' :: rest, false⟩, endsCrLf_plain plain, endsCrLf_lf]
    exact (or_iff_right fun ends => Bool.false_ne_true ends.1).symm

theorem lines_plain {p : List Char} (plain : Plain p) (some : p ≠ []) : SlateVm.lines p = [p] := by
  have whole := linesFrom_plain plain [] []
  rw [List.append_nil, List.nil_append, linesFrom, if_neg some] at whole
  exact whole

theorem reads_last {p : List Char} (plain : Plain p) (some : p ≠ []) (trailingNL : Bool) :
    Reads ⟨p, trailingNL⟩ p ⟨[], trailingNL⟩ where
  run := by
    have whole := readLine_plain plain [] [] trailingNL
    rw [List.append_nil, List.nil_append, readLine, if_neg some] at whole
    exact whole
  lines := by
    have none : SlateVm.lines (pending ⟨[], trailingNL⟩) = [] := by cases trailingNL <;> rfl
    have whole := @plain_first _ [] plain some
    rw [List.append_nil] at whole
    rw [pending_eq trailingNL whole, lines_plain plain some, none]
  shorter := List.length_pos_iff.mpr some
  merging := by
    have whole := merging_plain plain []
    rw [List.append_nil] at whole
    rw [merging_full, merging_full ⟨p, trailingNL⟩, whole]
    apply or_congr_left
    constructor
    · intro merges
      exact absurd merges.2 (not_merges_plain plain_nil)
    · intro merges
      exact absurd merges.2 (not_merges_plain plain)
  ends := by
    have whole := endsCrLf_plain plain []
    rw [List.append_nil] at whole
    rw [endsCrLf_full, endsCrLf_full ⟨p, trailingNL⟩, whole]
    apply or_congr_left
    constructor
    · intro ends
      cases ends.2
    · intro ends
      have newline : p = ['\n'] := ends.2
      exact absurd rfl (plain '\n' (newline ▸ List.mem_cons_self)).2

theorem Reads.skip {rest line : List Char} {l' : LineStream} (reads : Reads ⟨rest, false⟩ line l') :
    Reads ⟨'\n' :: rest, true⟩ line l' where
  run := reads.run
  lines := reads.lines
  shorter := Nat.lt_succ_of_lt reads.shorter
  merging := by
    rw [reads.merging, merging_full ⟨'\n' :: rest, true⟩, merging_lf]
    refine (or_iff_right fun merges => ?_).symm
    exact absurd rfl ((merges_lf plain_nil).mp merges.2).1
  ends := by
    have more : rest ≠ [] := List.ne_nil_of_length_pos (Nat.zero_lt_of_lt reads.shorter)
    rw [reads.ends, endsCrLf_full ⟨'\n' :: rest, true⟩, endsCrLf_lf]
    exact (or_iff_right fun ends => more (List.cons.inj ends.2).2).symm

theorem finishes_nil (trailingNL : Bool) : Finishes ⟨[], trailingNL⟩ ⟨[], trailingNL⟩ where
  run := rfl
  pending := by cases trailingNL <;> rfl
  left := rfl
  merging := by
    rw [merging_full]
    rintro (merges | merging)
    · exact not_merges_plain plain_nil merges.2
    · exact merging_nil merging
  ends := by
    rw [endsCrLf_full]
    constructor
    · intro some
      exact absurd rfl some
    · rintro (ends | ends)
      · cases ends.2
      · exact absurd ends not_endsCrLf_nil

theorem finishes_crLf : Finishes ⟨['\n'], true⟩ ⟨[], false⟩ where
  run := rfl
  pending := rfl
  left := rfl
  merging := by
    rw [merging_full, merging_lf]
    rintro (merges | merging)
    · exact absurd rfl
        ((merges_lf plain_nil).mp merges.2).1
    · exact merging_nil merging
  ends := by
    rw [endsCrLf_full]
    exact iff_of_true (List.cons_ne_nil _ _) (Or.inl ⟨rfl, rfl⟩)

theorem reads_last_lf {p : List Char} (plain : Plain p) (some : p ≠ []) :
    Reads ⟨p ++ ['\n'], true⟩ p ⟨[], false⟩ where
  run := by
    rw [nextLine, readLine_plain plain]
    simp only [readLine, List.nil_append, if_neg some]
    rfl
  lines := by
    rw [pending_eq true (plain_first plain some), SlateVm.lines, linesFrom_plain plain,
      linesFrom_lf]
    rfl
  shorter := by
    simp only [List.length_append, List.length_cons, List.length_nil]
    omega
  merging := by
    rw [merging_full, merging_full ⟨p ++ ['\n'], true⟩, merging_plain plain, merging_lf]
    apply or_congr_left
    constructor
    · intro merges
      exact absurd merges.1 Bool.false_ne_true
    · intro merges
      exact absurd rfl ((merges_lf plain).mp merges.2).2
  ends := by
    rw [endsCrLf_full, endsCrLf_full ⟨p ++ ['\n'], true⟩, endsCrLf_plain plain, endsCrLf_lf]
    apply or_congr_left
    constructor
    · intro ends
      exact absurd ends.1 Bool.false_ne_true
    · intro ends
      exact absurd ends.2 (plain_first plain some [])

theorem reads_clear {source : List Char} (some : source ≠ []) :
    ∃ line l', Reads ⟨source, false⟩ line l' := by
  rcases plain_cases source with plain | ⟨p, rest, plain, rfl⟩ | ⟨p, rest, plain, rfl⟩
  · exact ⟨_, _, reads_last plain some false⟩
  · exact ⟨_, _, reads_cr plain false⟩
  · exact ⟨_, _, reads_lf plain⟩

theorem nextLine_cases (l : LineStream) : (l.trailingNL = true ∧ Merges l.source) ∨
    (∃ l', Finishes l l') ∨ ∃ line l', Reads l line l' := by
  obtain ⟨source, trailingNL⟩ := l
  by_cases none : source = []
  · exact Or.inr (Or.inl ⟨_, none ▸ finishes_nil trailingNL⟩)
  cases trailingNL with
  | false => exact Or.inr (Or.inr (reads_clear none))
  | true =>
    rcases plain_cases source with plain | ⟨p, rest, plain, rfl⟩ | ⟨p, rest, plain, rfl⟩
    · exact Or.inr (Or.inr ⟨_, _, reads_last plain none true⟩)
    · exact Or.inr (Or.inr ⟨_, _, reads_cr plain true⟩)
    by_cases first : p = [] <;> by_cases last : rest = []
    · rw [first, last]
      exact Or.inr (Or.inl ⟨_, finishes_crLf⟩)
    · obtain ⟨line, l', reads⟩ := reads_clear last
      rw [first]
      exact Or.inr (Or.inr ⟨line, l', reads.skip⟩)
    · rw [last]
      exact Or.inr (Or.inr ⟨_, _, reads_last_lf plain first⟩)
    · exact Or.inl ⟨rfl, (merges_lf plain).mpr ⟨first, last⟩⟩

theorem nextLine_merges {l : LineStream} (flag : l.trailingNL = true) (merges : Merges l.source) :
    ¬ (l.nextLine.1 = (lines l.pending).head? ∧
      lines l.nextLine.2.pending = (lines l.pending).tail) := by
  obtain ⟨source, trailingNL⟩ := l
  cases flag
  obtain ⟨p, c, rest, first, plain, rfl⟩ := merges
  have goes : nextLine ⟨p ++ '\n' :: c :: rest, true⟩ = readLine (c :: rest) false p := by
    rw [nextLine, readLine_plain plain]
    rfl
  have next : lines (p ++ '\n' :: c :: rest) = p :: lines (c :: rest) := by
    rw [lines, linesFrom_plain plain, linesFrom_lf]
    rfl
  rw [goes, pending_eq true (plain_first plain first), next, List.head?_cons, List.tail_cons]
  rcases plain_cases (c :: rest) with all | ⟨q, t, some, split⟩ | ⟨q, t, some, split⟩
  · have whole := readLine_plain all [] p false
    rw [List.append_nil] at whole
    rw [whole, readLine]
    rintro ⟨line, -⟩
    simp only [List.append_eq_nil_iff, first, false_and, if_false, Option.some.injEq,
      List.append_right_eq_self] at line
    cases line
  · have whole := readLine_plain some ('\r' :: t) p false
    have empty : lines ('\r' :: t) = [] :: lines (skipNewline t) := linesFrom_cr [] t
    rw [split, whole]
    rintro ⟨line, left⟩
    simp only [readLine, if_true, Option.some.injEq, List.append_right_eq_self] at line left
    rw [line, List.nil_append, empty] at left
    exact absurd (congrArg List.length left) (Nat.succ_ne_self _).symm
  · have whole := readLine_plain some ('\n' :: t) p false
    have empty : lines ('\n' :: t) = [] :: lines t := linesFrom_lf [] t
    have newline : ('\n' = '\r') = False := by decide
    rw [split, whole]
    rintro ⟨line, left⟩
    simp only [readLine, newline, if_true, if_false, Bool.false_eq_true, Option.some.injEq,
      List.append_right_eq_self] at line left
    rw [line, List.nil_append, empty] at left
    exact absurd (congrArg List.length left) (Nat.succ_ne_self _).symm

/-- The answers that are right where `ls` are the lines to come. -/
def Right (ls : List (List Char)) : Request → Answer → Prop
  | .nextLine, .line line => line = ls.head?
  | .read n seq start _, .read numRead result => numRead = min n ls.length ∧
      result = written seq (ls.take n) start
  | .upToEnd, .all result => result = ls
  | _, _ => False

def Request.after (ls : List (List Char)) : Request → List (List Char)
  | .nextLine => ls.tail
  | .read n _ _ _ => ls.drop n
  | .upToEnd => []

def implementation : Implementation LineStream (List (List Char)) Request Answer where
  start l ls := l = on l.source ∧ ls = lines l.source
  perform l r := some (l.perform r)
  next ls r _ := r.after ls
  right := Right

def Shows (l : LineStream) (ls : List (List Char)) : Prop := lines l.pending = ls

/-- What holds between requests while no lines have been run together. -/
structure Good (l : LineStream) (ls : List (List Char)) : Prop where
  shows : Shows l ls
  merging : ¬ Merging l.full

theorem Finishes.good {l l' : LineStream} (finishes : Finishes l l') :
    Good l' [] ∧ ¬ EndsCrLf l'.full := by
  obtain ⟨source, trailingNL⟩ := l'
  obtain rfl : source = [] := finishes.left
  have again := finishes_nil trailingNL
  exact ⟨⟨congrArg lines again.pending, again.merging⟩, fun ends => again.ends.mpr ends rfl⟩

theorem Reads.good {l l' : LineStream} {line : List Char} {ls : List (List Char)}
    (reads : Reads l line l') (good : Good l ls) : ls = line :: ls.tail ∧ Good l' ls.tail := by
  have split := good.shows.symm.trans reads.lines
  rw [split]
  exact ⟨rfl, rfl, mt reads.merging.mp good.merging⟩

theorem Good.cases {l : LineStream} {ls : List (List Char)} (good : Good l ls) :
    (∃ l', Finishes l l' ∧ ls = []) ∨ ∃ line l', Reads l line l' := by
  rcases l.nextLine_cases with merges | ⟨l', finishes⟩ | reads
  · exact absurd (Or.inl merges) (mt (merging_full l).mpr good.merging)
  · exact Or.inl ⟨l', finishes, good.shows.symm.trans (congrArg lines finishes.pending)⟩
  · exact Or.inr reads

theorem putInto_spec {start n index : Nat} {l : LineStream} {ls seq : List (List Char)}
    (good : Good l ls) (room : index + start + n ≤ seq.length) :
    ∃ l', putInto start n index l seq = (l', some (index + min n ls.length,
        written seq (ls.take n) (index + start))) ∧
      Good l' (ls.drop n) ∧ (EndsCrLf l'.full → EndsCrLf l.full) := by
  induction n generalizing index l ls seq with
  | zero =>
    refine ⟨l, ?_, good, id⟩
    simp only [putInto, Nat.zero_min, List.take_zero, written_nil, Nat.add_zero]
  | succ n ih =>
    rcases good.cases with ⟨l', finishes, rfl⟩ | ⟨line, l', reads⟩
    · refine ⟨l', ?_, finishes.good.1, fun ends => absurd ends finishes.good.2⟩
      simp only [putInto, finishes.run, List.length_nil, Nat.min_zero, List.take_nil, written_nil,
        Nat.add_zero]
    · obtain ⟨split, after⟩ := reads.good good
      obtain ⟨l'', run, good', ends⟩ := @ih (index + 1) l' ls.tail
        (seq.set (index + start) line) after (by rw [List.length_set]; omega)
      refine ⟨l'', ?_, ?_, reads.ends.mp ∘ ends⟩
      · have inside : index + start < seq.length := by omega
        rw [Nat.add_right_comm index 1 start, written_cons inside] at run
        rw [split]
        simp only [putInto, reads.run, if_pos inside, run, List.length_cons, List.take_succ_cons,
          Nat.succ_min_succ, Nat.add_assoc, Nat.add_comm 1]
      · rw [split, List.drop_succ_cons]
        exact good'

theorem upToEnd_spec {rounds : Nat} {l : LineStream} {ls result : List (List Char)}
    (good : Good l ls) (enough : l.source.length < rounds) :
    (¬ EndsCrLf l.full → ∃ l', upToEnd rounds l result = (l', some (result ++ ls)) ∧
      Good l' [] ∧ ¬ EndsCrLf l'.full) ∧
    (EndsCrLf l.full → ∃ l', upToEnd rounds l result = (l', none)) := by
  induction rounds generalizing l ls result with
  | zero => exact absurd enough (Nat.not_lt_zero _)
  | succ rounds ih =>
    rw [upToEnd]
    rcases good.cases with ⟨l', finishes, rfl⟩ | ⟨line, l', reads⟩
    · by_cases done : l.source = []
      · rw [if_pos done, List.append_nil]
        have none : ¬ EndsCrLf l.full := fun ends => finishes.ends.mpr ends done
        exact ⟨fun _ => ⟨l, rfl, good, none⟩, fun ends => absurd ends none⟩
      · rw [if_neg done, finishes.run]
        exact ⟨fun none => absurd (finishes.ends.mp done) none, fun _ => ⟨l', rfl⟩⟩
    · obtain ⟨split, after⟩ := reads.good good
      have some : l.source ≠ [] := List.ne_nil_of_length_pos (Nat.zero_lt_of_lt reads.shorter)
      have shorter := reads.shorter
      obtain ⟨fine, signals⟩ := @ih l' ls.tail (result ++ [line]) after (by omega)
      rw [if_neg some, reads.run, ← reads.ends, split]
      rw [List.append_assoc] at fine
      exact ⟨fine, signals⟩

theorem Good.step {l : LineStream} {ls : List (List Char)} (good : Good l ls) (r : Request)
    (fine : r = .upToEnd → ¬ EndsCrLf l.full) :
    ∃ a, implementation.perform l r = some ((l.perform r).1, a) ∧ Right ls r a ∧
      Good (l.perform r).1 (r.after ls) ∧ (EndsCrLf (l.perform r).1.full → EndsCrLf l.full) := by
  cases r with
  | nextLine =>
    rcases good.cases with ⟨l', finishes, rfl⟩ | ⟨line, l', reads⟩
    · simp only [implementation, perform, finishes.run]
      exact ⟨_, rfl, rfl, finishes.good.1, fun ends => absurd ends finishes.good.2⟩
    · obtain ⟨split, after⟩ := reads.good good
      simp only [implementation, perform, reads.run]
      exact ⟨_, rfl, by rw [split]; rfl, after, reads.ends.mp⟩
  | read n seq start room =>
    obtain ⟨l', run, after, ends⟩ := @putInto_spec start n 0 l ls seq good (by omega)
    rw [Nat.zero_add, Nat.zero_add] at run
    simp only [implementation, perform, run]
    exact ⟨_, rfl, ⟨rfl, rfl⟩, after, ends⟩
  | upToEnd =>
    obtain ⟨l', run, after, done⟩ :=
      (@upToEnd_spec (l.source.length + 1) l ls [] good (Nat.lt_succ_self _)).1 (fine rfl)
    simp only [implementation, perform, run]
    exact ⟨_, rfl, rfl, after, fun ends => absurd ends done⟩

theorem merging_wrong {l : LineStream} (merging : Merging l.full) :
    ∃ n, ¬ Follows implementation Shows l (lines l.pending) (List.replicate n .nextLine) := by
  induction size : l.source.length using Nat.strong_induction_on generalizing l with
  | h size ih =>
    subst size
    rcases l.nextLine_cases with ⟨flag, merges⟩ | ⟨l', finishes⟩ | ⟨line, l', reads⟩
    · refine ⟨1, ?_⟩
      rintro ⟨_, _, run, right, shows, -⟩
      cases run
      exact nextLine_merges flag merges ⟨right, shows⟩
    · exact absurd merging finishes.merging
    · obtain ⟨n, wrong⟩ := ih _ reads.shorter (reads.merging.mpr merging) rfl
      refine ⟨n + 1, ?_⟩
      rintro ⟨_, a, run, right, shows, rest⟩
      simp only [implementation, perform, reads.run] at run
      cases run
      simp only [implementation, Request.after, reads.lines, List.tail_cons] at rest
      exact wrong rest

theorem ends_wrong {l : LineStream} {ls : List (List Char)} (good : Good l ls)
    (ends : EndsCrLf l.full) : ¬ Follows implementation Shows l ls [.upToEnd] := by
  obtain ⟨l', run⟩ :=
    (@upToEnd_spec (l.source.length + 1) l ls [] good (Nat.lt_succ_self _)).2 ends
  rintro ⟨_, _, run', right, -⟩
  simp only [implementation, perform, run] at run'
  cases run'
  exact right

/-- The lines of a text come out right, however they are asked for, if and only if no newline after
ordinary characters after a carriage return has something behind it, and for reading up to the end
only where the text does not end with CR-LF. -/
theorem line_stream_right_iff (text : List Char) :
    ((∀ requests : List Request, (∀ r ∈ requests, r ≠ .upToEnd) →
      Follows implementation Shows (on text) (lines text) requests) ↔ ¬ Merging text) ∧
    ((∀ requests : List Request, Follows implementation Shows (on text) (lines text) requests) ↔
      ¬ Merging text ∧ ¬ EndsCrLf text) := by
  have start : ¬ Merging text → Good (on text) (lines text) := fun fine => ⟨rfl, fine⟩
  have wrong : Merging text → ∃ n, ¬ Follows implementation Shows (on text) (lines text)
      (List.replicate n .nextLine) := fun merging => merging_wrong (l := on text) merging
  constructor
  · constructor
    · intro right merging
      obtain ⟨n, fails⟩ := wrong merging
      refine fails (right _ fun r member => ?_)
      rw [List.eq_of_mem_replicate member]
      exact nofun
    · intro fine requests asked
      refine Follows.of_steps Good (fun _ _ good => good.shows) ?_ (start fine)
      intro r member l ls good
      obtain ⟨a, run, right, after, -⟩ := good.step r fun ends => absurd ends (asked r member)
      exact ⟨_, a, run, right, after⟩
  · constructor
    · intro right
      have fine : ¬ Merging text := by
        intro merging
        obtain ⟨n, fails⟩ := wrong merging
        exact fails (right _)
      exact ⟨fine, fun ends => ends_wrong (start fine) ends (right _)⟩
    · rintro ⟨fine, ends⟩ requests
      refine Follows.of_steps (fun l ls => Good l ls ∧ ¬ EndsCrLf l.full)
        (fun _ _ good => good.1.shows) ?_ ⟨start fine, ends⟩
      rintro r - l ls ⟨good, open'⟩
      obtain ⟨a, run, right, after, less⟩ := good.step r fun _ => open'
      exact ⟨_, a, run, right, after, mt less open'⟩

/-- After a lone carriage return the newline behind `b` is lost, and lines two and three come as
one. -/
theorem newline_lost : ¬ Follows implementation Shows (on "a\rb\nc".toList)
    (lines "a\rb\nc".toList) [.nextLine, .nextLine] ∧
    ¬ Follows implementation Shows (on "a\r\n".toList) (lines "a\r\n".toList) [.upToEnd] := by
  constructor
  · rintro ⟨_, _, first, -, -, _, _, second, right, -⟩
    cases first
    cases second
    have two : (on "a\rb\nc".toList).nextLine.2.nextLine.1 =
        (lines "a\rb\nc".toList).tail.head? := right
    exact absurd two (by decide)
  · rintro ⟨_, _, run, right, -⟩
    cases run
    exact right

end LineStream

end SlateVm
