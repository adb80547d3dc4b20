import Mathlib.Tactic.Common

/-! Streams over bytes as the codecs use them: what a source answers, what a target takes,
and what reading a source to its end gives. -/
namespace SlateVm

inductive Element
  | character (code : Nat)
  | integer (value : Nat)
  deriving Repr, DecidableEq

inductive Condition
  | exhaustion
  | utf8Malformed
  | noByteOrderMark
  | methodNotFound
  | keyNotFound
  | conversionNotFound
  deriving Repr, DecidableEq

/-- A computation over the bytes that are left to read, or that are written so far. A
condition ends it where it is signalled. -/
abbrev Streaming := EStateM Condition (List UInt8)

/- No integer has a method of the name `code`. -/
def Element.code : Element → Streaming Nat
  | .character code => pure code
  | .integer _ => throw .methodNotFound

/-- `next` on a `Sequence ReadStream` of bytes. It answers an element or signals, so the
`ifNil:` cases of its users stand for other sources. -/
def readerNext : Streaming (Option Element) := fun left =>
  match left with
  | [] => .error .exhaustion []
  | b :: rest => .ok (some (.character b.toNat)) rest

/-- `i as: ASCIIString Character` looks `i` up in the table of the 256 characters. -/
def asciiCharacter (i : Nat) : Streaming UInt8 :=
  if i < 256 then pure (UInt8.ofNat i) else throw .keyNotFound

def writerNextPut (b : UInt8) : Streaming Unit := fun written => .ok () (written ++ [b])

theorem bind_ok {α β : Type} {x : Streaming α} {f : α → Streaming β} {s t : List UInt8} {a : α}
    (run : x s = .ok a t) : (x >>= f) s = f a t := by
  simp only [bind, EStateM.bind, run]

theorem bind_error {α β : Type} {x : Streaming α} {f : α → Streaming β} {s t : List UInt8}
    {c : Condition} (run : x s = .error c t) : (x >>= f) s = .error c t := by
  simp only [bind, EStateM.bind, run]

/-- `next` sent to a decoder again and again: the code points it answers, the condition it
signals in the end and the bytes that are left then. -/
inductive Reads (next : Streaming Nat) : List UInt8 → List Nat → Condition → List UInt8 → Prop
  | ends {left c rest} : next left = .error c rest → Reads next left [] c rest
  | answers {left code rest codes c last} : next left = .ok code rest →
      Reads next rest codes c last → Reads next left (code :: codes) c last

def nextPutAll (nextPut : Nat → Streaming Unit) : List Nat → Streaming Unit
  | [] => pure ()
  | code :: codes => do
    nextPut code
    nextPutAll nextPut codes

theorem Reads.unique {next : Streaming Nat} {left codes c rest codes' c' rest'}
    (one : Reads next left codes c rest) (other : Reads next left codes' c' rest') :
    codes = codes' ∧ c = c' ∧ rest = rest' := by
  induction one generalizing codes' with
  | ends stop =>
    cases other with
    | ends stop' => simp_all
    | answers step' _ => simp_all
  | answers step _ ih =>
    cases other with
    | ends stop' => simp_all
    | answers step' more' =>
      rw [step] at step'
      obtain ⟨rfl, rfl⟩ : _ = _ ∧ _ = _ := by simpa using step'
      obtain ⟨rfl, rfl, rfl⟩ := ih more'
      exact ⟨rfl, rfl, rfl⟩

theorem Reads.flatMap {α : Type} {next : Streaming Nat} {bytes : α → List UInt8} {code : α → Nat}
    {items : List α} {c : Condition} {rest last : List UInt8}
    (each : ∀ a ∈ items, ∀ rest, next (bytes a ++ rest) = .ok (code a) rest)
    (stop : next rest = .error c last) :
    Reads next (items.flatMap bytes ++ rest) (items.map code) c last := by
  induction items with
  | nil => exact .ends stop
  | cons a as ih =>
    rw [List.flatMap_cons, List.append_assoc, List.map_cons]
    apply Reads.answers (each a List.mem_cons_self _)
    apply ih
    intro a' inside rest'
    exact each a' (List.mem_cons_of_mem a inside) rest'

theorem nextPutAll_flatMap {α : Type} {nextPut : Nat → Streaming Unit} {bytes : α → List UInt8}
    {code : α → Nat} {items : List α}
    (each : ∀ a ∈ items, ∀ written, nextPut (code a) written = .ok () (written ++ bytes a))
    (written : List UInt8) :
    nextPutAll nextPut (items.map code) written = .ok () (written ++ items.flatMap bytes) := by
  induction items generalizing written with
  | nil => simp [nextPutAll, pure, EStateM.pure]
  | cons a as ih =>
    have first := each a List.mem_cons_self written
    have rest := ih (fun a' inside => each a' (List.mem_cons_of_mem a inside))
      (written ++ bytes a)
    rw [List.map_cons, nextPutAll, bind_ok first, rest, List.flatMap_cons, List.append_assoc]

/-- A computation that answers in `good` and that signals nothing but `c`. -/
def Signals {α : Type} (c : Condition) (good : α → Prop) (x : Streaming α) : Prop :=
  ∀ left, match x left with
    | .ok a _ => good a
    | .error e _ => e = c

section Signals

variable {α β : Type} {c : Condition} {good : α → Prop} {fine : β → Prop}

theorem Signals.pure {a : α} (holds : good a) : Signals c good (Pure.pure a : Streaming α) :=
  fun _ => holds

theorem Signals.bind {x : Streaming α} {f : α → Streaming β} (first : Signals c good x)
    (rest : ∀ a, good a → Signals c fine (f a)) : Signals c fine (x >>= f) := by
  intro left
  have here := first left
  cases run : x left with
  | error e after => simpa [Bind.bind, EStateM.bind, run] using here
  | ok a after =>
    rw [run] at here
    simpa [Bind.bind, EStateM.bind, run] using rest a here after

theorem Signals.and_then {x : Streaming α} {f : α → Streaming β}
    (first : Signals c (fun _ => True) x) (rest : ∀ a, Signals c fine (f a)) :
    Signals c fine (x >>= f) :=
  .bind first fun a _ => rest a

theorem Signals.ite {p : Prop} [Decidable p] {x y : Streaming α} (yes : Signals c good x)
    (no : Signals c good y) : Signals c good (if p then x else y) := by
  split
  · exact yes
  · exact no

end Signals

theorem readerNext_signals :
    Signals .exhaustion (fun r => ∃ code, r = some (.character code)) readerNext := by
  intro left
  cases left with
  | nil => rfl
  | cons b rest => exact ⟨b.toNat, rfl⟩

theorem Reads.condition {next : Streaming Nat} {c : Condition} {good : Nat → Prop}
    (signals : Signals c good next) {left codes c' rest} (reads : Reads next left codes c' rest) :
    c' = c := by
  induction reads with
  | @ends left _ _ stop =>
    have here := signals left
    rwa [stop] at here
  | answers _ _ ih => exact ih

end SlateVm
