import Mathlib.Data.Nat.Digits.Lemmas
import SlateVm.Collections.Chunking
import SlateVm.Text.Lexer

/-! Integers as text: printing with a radix and in groups, and the two ways of reading. -/

namespace SlateVm.Integers

open Collections

section Model

def digitCharacter (d : Nat) : Char :=
  Char.ofNat (if 10 ≤ d then 'A'.toNat + d - 10 else '0'.toNat + d)

/-- The digits that the loop of `printOn:` writes, the lowest first, with a bound on its
rounds. -/
def digits (radix : Nat) : Nat → Nat → List Char
  | 0, _ => []
  | rounds + 1, x =>
    if 0 < x then digitCharacter (x % radix) :: digits radix rounds (x / radix) else []

/-- What `;;` takes for an object: the sequence itself, and another object as its only element. -/
def cord : Option (List Char) → List (Option Char)
  | some seq => seq.map some
  | none => [none]

/-- `as:` a string. Nil has no code. -/
def asString : List (Option Char) → Option (List Char)
  | [] => some []
  | some c :: rest => (asString rest).map (c :: ·)
  | none :: _ => none

def join (delim : List Char) : List (Option (List Char)) → Option (List Char)
  | [] => some []
  | part :: parts =>
    asString (parts.foldl (fun result each => result ++ delim.map some ++ cord each) (cord part))

structure Options where
  radix : Option Nat := none
  forceSign : Option Bool := none
  groupSeparator : Option (List Char) := none
  groupSize : Option Nat := none

/-- `printOn:` of an integer that is not negative, past the test of the radix. -/
def printUnsigned (radix n : Nat) (o : Options) : Option (List Char) :=
  let sign := if o.forceSign = some true then ['+'] else []
  if n = 0 then some (sign ++ ['0'])
  else
    let digits := digits radix n n
    match o.groupSeparator with
    | none => some (sign ++ digits.reverse)
    | some separator => do
      let parts ← splitIntoSize (digits.length + 1) digits (o.groupSize.getD 3)
      let joined ← join separator.reverse parts
      return sign ++ joined.reverse

/-- `printOn:` on a printer with the given `numberRadix`; what signals an error is `none`. A
negative integer hands on the radix alone. -/
def printOn (numberRadix : Nat) (n : Int) (o : Options) : Option (List Char) :=
  let radix := o.radix.getD numberRadix
  if radix < 2 ∨ 36 < radix then some []
  else if n < 0 then (printUnsigned radix (-n).toNat { radix := some radix }).map ('-' :: ·)
  else printUnsigned radix n.toNat o

/-- `printString`, on a new printer. -/
def printString (n : Int) (radix : Option Nat) : List Char :=
  (printOn 10 n { radix }).getD "<Printing failed>".toList

def readDigits (radix n : Nat) : List Char → Nat
  | [] => n
  | c :: rest =>
    match toDigit c radix with
    | some digit => readDigits radix (n * radix + digit) rest
    | none => n

def asInteger (radix : Option Nat) : List Char → Int
  | '-' :: rest => -asInteger radix rest
  | s => readDigits (radix.getD 10) 0 s

end Model

/-- The digits from the right, the first at the given index, with the separator, read from the
right as well, before each at a multiple of the size. -/
def fromRight (k : Nat) (separator : List Char) : Nat → List Char → List Char
  | _, [] => []
  | i, c :: cs =>
    (if i ≠ 0 ∧ k ∣ i then separator.reverse else []) ++ c :: fromRight k separator (i + 1) cs

/-- The text with the separator between groups of `k`, counted from the right. -/
def grouped (k : Nat) (separator text : List Char) : List Char :=
  (fromRight k separator 0 text.reverse).reverse

def groupedText (n : Int) (radix k : Nat) (separator : List Char) : List Char :=
  (if n < 0 then ['-'] else []) ++ grouped k separator (printString n.natAbs (some radix))

attribute [local simp] printUnsigned printOn printString

theorem digitCharacter_value : ∀ d < 36,
    (digitCharacter d).toNat = if 10 ≤ d then 55 + d else 48 + d := by
  decide

theorem isDigit_digitCharacter {d radix : Nat} (less : d < radix) (high : radix ≤ 36) :
    isDigit (digitCharacter d) radix = true := by
  have value := digitCharacter_value d (by omega)
  have nine : '9'.toNat = 57 := rfl
  have zero : '0'.toNat = 48 := rfl
  have a : 'A'.toNat = 65 := rfl
  have z : 'Z'.toNat = 90 := rfl
  by_cases letter : 10 ≤ d
  · rw [if_pos letter] at value
    simp only [isDigit, value, nine, zero, a, z]
    rw [if_neg (by omega), if_pos (by omega)]
    exact decide_eq_true (by omega)
  · rw [if_neg letter] at value
    simp only [isDigit, value, nine, zero]
    rw [if_pos (by omega)]
    exact decide_eq_true (by omega)

theorem toDigit_digitCharacter {d radix : Nat} (less : d < radix) (high : radix ≤ 36) :
    toDigit (digitCharacter d) radix = some d := by
  have value := digitCharacter_value d (by omega)
  have zero : '0'.toNat = 48 := rfl
  have upper : 'A'.toNat = 65 := rfl
  have lower : 'a'.toNat = 97 := rfl
  simp only [toDigit, if_pos (isDigit_digitCharacter less high), value, zero, upper, lower]
  by_cases letter : 10 ≤ d
  · rw [if_pos letter, if_neg (by omega), if_pos (by omega)]
    exact congrArg some (by omega)
  · rw [if_neg letter, if_neg (by omega), if_neg (by omega), if_pos (by omega)]
    exact congrArg some (by omega)

theorem digits_eq {radix : Nat} (base : 2 ≤ radix) (rounds x : Nat) (enough : x ≤ rounds) :
    digits radix rounds x = (Nat.digits radix x).map digitCharacter := by
  induction rounds generalizing x with
  | zero =>
    obtain rfl := Nat.le_zero.mp enough
    rw [digits, Nat.digits_zero, List.map_nil]
  | succ rounds ih =>
    rw [digits]
    rcases Nat.eq_zero_or_pos x with rfl | pos
    · rw [if_neg (Nat.lt_irrefl 0), Nat.digits_zero, List.map_nil]
    · have less : x / radix < x := Nat.div_lt_self pos base
      rw [if_pos pos, Nat.digits_def' base pos, List.map_cons, ih (x / radix) (by omega)]

theorem digits_length {radix : Nat} (base : 2 ≤ radix) (n : Nat) :
    (digits radix n n).length = (Nat.digits radix n).length := by
  rw [digits_eq base n n (Nat.le_refl n), List.length_map]

theorem foldl_digits (radix : Nat) (ds : List Nat) :
    ds.reverse.foldl (fun n d => n * radix + d) 0 = Nat.ofDigits radix ds := by
  induction ds with
  | nil => rfl
  | cons d ds ih =>
    rw [List.reverse_cons, List.foldl_append, ih, Nat.ofDigits_cons]
    simp only [List.foldl_cons, List.foldl_nil]
    ring

section Reading

variable {radix : Nat} {ds : List Nat}

theorem readDigits_map (high : radix ≤ 36) (small : ∀ d ∈ ds, d < radix) (n : Nat) :
    readDigits radix n (ds.map digitCharacter) = ds.foldl (fun n d => n * radix + d) n := by
  induction ds generalizing n with
  | nil => rfl
  | cons d ds ih =>
    have less := small d List.mem_cons_self
    rw [List.map_cons, readDigits, toDigit_digitCharacter less high, List.foldl_cons]
    exact ih (fun e member => small e (List.mem_cons_of_mem _ member)) _

theorem readInteger_map (high : radix ≤ 36) (small : ∀ d ∈ ds, d < radix) (n : Nat) :
    Lexer.readInteger radix n (ds.map digitCharacter) =
      (ds.foldl (fun n d => n * radix + d) n, []) := by
  induction ds generalizing n with
  | nil => rfl
  | cons d ds ih =>
    have less := small d List.mem_cons_self
    rw [List.map_cons, Lexer.readInteger, isDigit_digitCharacter less high, Bool.true_or,
      if_pos rfl, toDigit_digitCharacter less high, List.foldl_cons]
    exact ih (fun e member => small e (List.mem_cons_of_mem _ member)) _

def numeral (radix n : Nat) : List Nat :=
  if n = 0 then [0] else (Nat.digits radix n).reverse

theorem numeral_less (base : 2 ≤ radix) (n : Nat) : ∀ d ∈ numeral radix n, d < radix := by
  intro d member
  unfold numeral at member
  split at member
  · obtain rfl := List.mem_singleton.mp member
    omega
  · exact Nat.digits_lt_base base (List.mem_reverse.mp member)

theorem foldl_numeral (n : Nat) :
    (numeral radix n).foldl (fun n d => n * radix + d) 0 = n := by
  unfold numeral
  split
  · next zero =>
    rw [zero]
    simp
  · rw [foldl_digits, Nat.ofDigits_digits]

theorem numeral_ne_nil (n : Nat) : numeral radix n ≠ [] := by
  unfold numeral
  split
  · exact List.cons_ne_nil _ _
  · next some =>
    rw [Ne, List.reverse_eq_nil_iff]
    exact Nat.digits_ne_nil_iff_ne_zero.mpr some

end Reading

theorem printUnsigned_plain {radix : Nat} (base : 2 ≤ radix) (n : Nat) (radix' : Option Nat) :
    printUnsigned radix n { radix := radix' } =
      some ((numeral radix n).map digitCharacter) := by
  unfold numeral
  by_cases zero : n = 0
  · rw [if_pos zero, printUnsigned, if_pos zero]
    rfl
  · rw [if_neg zero, printUnsigned, if_neg zero]
    simp only [digits_eq base n n (Nat.le_refl n), List.map_reverse]
    rfl

theorem printString_eq {radix : Nat} (base : 2 ≤ radix) (high : radix ≤ 36) (n : Int) :
    printString n (some radix) =
      (if n < 0 then ['-'] else []) ++ (numeral radix n.natAbs).map digitCharacter := by
  have within : ¬ (radix < 2 ∨ 36 < radix) := by omega
  by_cases negative : n < 0
  · have size : (-n).toNat = n.natAbs := by omega
    simp only [printString, printOn, Option.getD_some, if_neg within, if_pos negative,
      printUnsigned_plain base, size, Option.map_some]
    rfl
  · have size : n.toNat = n.natAbs := by omega
    simp only [printString, printOn, Option.getD_some, if_neg within, if_neg negative,
      printUnsigned_plain base, size]
    rfl

theorem digitCharacter_ne_minus : ∀ d < 36, digitCharacter d ≠ '-' := by
  decide

theorem asInteger_numeral {radix : Nat} (base : 2 ≤ radix) (high : radix ≤ 36) (n : Nat) :
    asInteger (some radix) ((numeral radix n).map digitCharacter) = n := by
  have read := readDigits_map high (numeral_less base n) 0
  rw [foldl_numeral] at read
  have small := numeral_less base n
  cases ds : numeral radix n with
  | nil => exact absurd ds (numeral_ne_nil n)
  | cons d rest =>
    rw [ds] at read small
    have less := small d List.mem_cons_self
    unfold asInteger
    split
    · next minus =>
      rw [List.map_cons] at minus
      exact absurd (List.cons.inj minus).1 (digitCharacter_ne_minus d (by omega))
    · exact congrArg Int.ofNat read

theorem asInteger_printString {radix : Nat} (base : 2 ≤ radix) (high : radix ≤ 36) (n : Int) :
    asInteger (some radix) (printString n (some radix)) = n := by
  rw [printString_eq base high]
  by_cases negative : n < 0
  · rw [if_pos negative, List.singleton_append, asInteger, asInteger_numeral base high]
    omega
  · rw [if_neg negative, List.nil_append, asInteger_numeral base high]
    omega

section Lexing

variable {R : Type} (f : Lexer.Floats R)

theorem readToken_digit (d : Nat) (less : d < 10) (rest : List Char) :
    Lexer.readToken f (digitCharacter d :: rest) =
      Lexer.readNumber f (digitCharacter d :: rest) := by
  have visible : ∀ d < 10, isWhitespace (digitCharacter d) = false := by decide
  rw [Lexer.readToken, Lexer.skipWhitespace_visible (visible d less)]
  interval_cases d <;> rfl

theorem readToken_minus (d : Nat) (less : d < 10) (rest : List Char) :
    Lexer.readToken f ('-' :: digitCharacter d :: rest) =
      Lexer.readNumber f ('-' :: digitCharacter d :: rest) := by
  have skip : Lexer.skipWhitespace ('-' :: digitCharacter d :: rest) =
      '-' :: digitCharacter d :: rest := rfl
  have digit := isDigit_digitCharacter less (by omega)
  rw [Lexer.readToken, skip]
  change Lexer.readOther f '-' (digitCharacter d :: rest) = _
  have other : isDigit '-' 10 = false := rfl
  simp [Lexer.readOther, other, Lexer.nextCharacter, bind, Except.bind, digit]

theorem readToken_printString (n : Int) :
    Lexer.readToken f (printString n none) = .ok (.literal (.number (.integer n)), []) := by
  have same : printString n none = printString n (some 10) := rfl
  rw [same, printString_eq (by omega) (by omega)]
  have read := @readInteger_map 10 _ (by omega) (numeral_less (by omega) n.natAbs) 0
  rw [foldl_numeral] at read
  have small := @numeral_less 10 (by omega) n.natAbs
  cases ds : numeral 10 n.natAbs with
  | nil => exact absurd ds (numeral_ne_nil _)
  | cons d rest =>
    rw [ds] at read small
    rw [List.map_cons] at read ⊢
    have less := small d List.mem_cons_self
    have plain := digitCharacter_ne_minus d (by omega)
    have plus : ∀ d < 10, digitCharacter d ≠ '+' := by decide
    by_cases negative : n < 0
    · rw [if_pos negative, List.singleton_append, readToken_minus f d less]
      simp [Lexer.readNumber, Lexer.nextCharacter, bind, Except.bind, read, pure, Except.pure,
        Lexer.numberToken, Lexer.Number.negated, abs_of_neg negative]
    · rw [if_neg negative, List.nil_append, readToken_digit f d less]
      have value : (n.natAbs : Int) = n := by omega
      simp [Lexer.readNumber, Lexer.nextCharacter, bind, Except.bind, read, pure, Except.pure,
        Lexer.numberToken, plain, plus d less, value]

end Lexing

section Groups

variable {k : Nat} {separator : List Char}

theorem fromRight_within (cs rest : List Char) (i : Nat)
    (within : ∀ t < cs.length, i + t = 0 ∨ ¬ k ∣ i + t) :
    fromRight k separator i (cs ++ rest) = cs ++ fromRight k separator (i + cs.length) rest := by
  induction cs generalizing i with
  | nil => rfl
  | cons c cs ih =>
    have here : ¬ (i ≠ 0 ∧ k ∣ i) := by
      rcases within 0 (Nat.zero_lt_succ _) with zero | not
      · exact fun both => both.1 zero
      · exact fun both => not both.2
    have later := ih (i + 1) fun t less => by
      have next := within (t + 1) (Nat.succ_lt_succ less)
      rwa [Nat.add_assoc, Nat.add_comm 1 t]
    rw [List.cons_append, fromRight, if_neg here, later, List.length_cons, Nat.add_assoc,
      Nat.add_comm 1 cs.length]
    rfl

theorem fromRight_group (m : Nat) {c : Char} {cs : List Char} (few : (c :: cs).length ≤ k)
    (rest : List Char) :
    fromRight k separator (m * k) (c :: cs ++ rest) =
      (if m ≠ 0 then separator.reverse else []) ++ c :: cs ++
        fromRight k separator (m * k + (c :: cs).length) rest := by
  rw [List.length_cons] at few ⊢
  have behind := @fromRight_within k separator cs rest (m * k + 1) fun t less => by
    right
    intro divides
    have part := (Nat.dvd_add_right (Nat.dvd_mul_left k m)).mp (Nat.add_assoc _ _ _ ▸ divides)
    exact absurd (Nat.le_of_dvd (by omega) part) (by omega)
  have starts : (m * k ≠ 0 ∧ k ∣ m * k) ↔ m ≠ 0 := by
    constructor
    · intro both zero
      rw [zero, Nat.zero_mul] at both
      exact both.1 rfl
    · intro some
      exact ⟨Nat.mul_ne_zero some (by omega), Nat.dvd_mul_left k m⟩
  rw [List.cons_append, fromRight, behind, if_congr starts rfl rfl]
  simp only [List.append_assoc, List.cons_append, Nat.add_assoc, Nat.add_comm 1 cs.length]

theorem fromRight_short {cs : List Char} (few : cs.length ≤ k) :
    fromRight k separator 0 cs = cs := by
  cases cs with
  | nil => rfl
  | cons c cs =>
    have group := @fromRight_group k separator 0 c cs few []
    rw [Nat.zero_mul, List.append_nil] at group
    rw [group]
    simp [fromRight]

theorem fromRight_chunks {chunks : List (List Char)} (m : Nat) (some : m ≠ 0)
    (nonempty : ∀ chunk ∈ chunks, chunk ≠ []) (most : ∀ chunk ∈ chunks, chunk.length ≤ k)
    (front : ∀ chunk ∈ chunks.dropLast, chunk.length = k) :
    fromRight k separator (m * k) chunks.flatten =
      chunks.flatMap fun chunk => separator.reverse ++ chunk := by
  induction chunks generalizing m with
  | nil => rfl
  | cons chunk chunks ih =>
    have here := nonempty chunk List.mem_cons_self
    have few := most chunk List.mem_cons_self
    cases chunk with
    | nil => exact absurd rfl here
    | cons c cs =>
      rw [List.flatten_cons, fromRight_group m few, if_pos some, List.flatMap_cons]
      apply congrArg _
      cases chunks with
      | nil => rfl
      | cons next chunks =>
        have size := front (c :: cs) List.mem_cons_self
        have along : m * k + (c :: cs).length = (m + 1) * k := by
          rw [size, Nat.add_mul, Nat.one_mul]
        rw [along]
        exact ih (m + 1) (Nat.succ_ne_zero m)
          (fun chunk member => nonempty chunk (List.mem_cons_of_mem _ member))
          (fun chunk member => most chunk (List.mem_cons_of_mem _ member))
          (fun chunk member => front chunk (List.mem_cons_of_mem _ member))

theorem asString_map (cs : List Char) : asString (cs.map some) = some cs := by
  induction cs with
  | nil => rfl
  | cons c cs ih => rw [List.map_cons, asString, ih, Option.map_some]

theorem asString_nil (cs : List (Option Char)) (rest : List (Option Char)) :
    asString (cs ++ none :: rest) = none := by
  induction cs with
  | nil => rfl
  | cons c cs ih =>
    cases c with
    | none => rfl
    | some c => rw [List.cons_append, asString, ih, Option.map_none]

theorem join_fold (delim : List Char) (parts : List (List Char)) (text : List Char) :
    (parts.map some).foldl (fun result each => result ++ delim.map some ++ cord each)
        (text.map some) =
      (text ++ parts.flatMap fun part => delim ++ part).map some := by
  induction parts generalizing text with
  | nil => simp
  | cons part parts ih =>
    have one : text.map some ++ delim.map some ++ cord (some part) =
        (text ++ (delim ++ part)).map some := by
      simp [cord]
    rw [List.map_cons, List.foldl_cons, one, ih, List.flatMap_cons, List.append_assoc]

theorem join_some (delim part : List Char) (parts : List (List Char)) :
    join delim ((part :: parts).map some) =
      some (part ++ parts.flatMap fun part => delim ++ part) := by
  rw [List.map_cons, join]
  exact (congrArg asString (join_fold delim parts part)).trans (asString_map _)

theorem join_nil (delim part : List Char) (parts : List (List Char)) :
    join delim ((part :: parts).map some ++ [none]) = none := by
  rw [List.map_cons, List.cons_append, join, List.foldl_append]
  have fold := join_fold delim parts part
  rw [show cord (some part) = part.map some from rfl, fold]
  exact asString_nil _ []

theorem join_chunked {s : List Char} {chunks : List (List Char)} (some_ : s ≠ [])
    (chunked : Chunked s k chunks) :
    join separator.reverse (chunks.map some) = some (fromRight k separator 0 s) := by
  cases chunks with
  | nil => exact absurd chunked.whole.symm some_
  | cons part parts =>
    rw [join_some, ← chunked.whole, List.flatten_cons]
    have here := chunked.nonempty some_ part List.mem_cons_self
    have few := chunked.most part List.mem_cons_self
    cases part with
    | nil => exact absurd rfl here
    | cons c cs =>
      have group := @fromRight_group k separator 0 c cs few parts.flatten
      rw [Nat.zero_mul, if_neg (not_not_intro rfl), List.nil_append, Nat.zero_add] at group
      rw [group]
      apply congrArg fun rest => some (c :: cs ++ rest)
      cases parts with
      | nil => rfl
      | cons next parts =>
        have size := chunked.front (c :: cs) List.mem_cons_self
        have along := @fromRight_chunks k separator (next :: parts) 1 Nat.one_ne_zero
          (fun chunk member => chunked.nonempty some_ chunk (List.mem_cons_of_mem _ member))
          (fun chunk member => chunked.most chunk (List.mem_cons_of_mem _ member))
          (fun chunk member => chunked.front chunk (List.mem_cons_of_mem _ member))
        have whole : (c :: cs).length = 1 * k := size.trans (Nat.one_mul k).symm
        rw [whole, along]

theorem fromRight_same_iff (pos : 0 < k) (cs : List Char) :
    fromRight k separator 0 cs = cs ↔ cs.length ≤ k ∨ separator = [] := by
  have grows : ∀ i cs, cs.length ≤ (fromRight k separator i cs).length := by
    intro i cs
    induction cs generalizing i with
    | nil => exact Nat.le_refl _
    | cons c cs ih =>
      have more := ih (i + 1)
      rw [fromRight, List.length_append, List.length_cons, List.length_cons]
      omega
  constructor
  · intro same
    by_contra neither
    obtain ⟨long, some⟩ := not_or.mp neither
    have split : cs.take k ++ cs.drop k = cs := List.take_append_drop k cs
    have first : (cs.take k).length = k := by
      rw [List.length_take]
      omega
    have front := @fromRight_within k separator (cs.take k) (cs.drop k) 0 fun t less => by
      rcases Nat.eq_zero_or_pos t with zero | after
      · exact Or.inl (by omega)
      · right
        intro divides
        exact absurd (Nat.le_of_dvd (by omega) divides) (by omega)
    rw [split, first, same] at front
    cases rest : cs.drop k with
    | nil =>
      have none := congrArg List.length rest
      rw [List.length_drop, List.length_nil] at none
      omega
    | cons c tail =>
      rw [rest, fromRight, Nat.zero_add, if_pos ⟨by omega, Nat.dvd_refl k⟩] at front
      have lengths := congrArg List.length front
      have all := congrArg List.length split
      have more := grows (k + 1) tail
      have some := List.length_pos_iff.mpr some
      simp only [rest, List.length_append, List.length_cons, List.length_reverse] at lengths all
      omega
  · rintro (short | empty)
    · exact fromRight_short short
    · have plain : ∀ i, fromRight k separator i cs = cs := by
        induction cs with
        | nil => exact fun _ => rfl
        | cons c cs ih =>
          intro i
          rw [fromRight, ih, empty, List.reverse_nil, ite_self, List.nil_append]
      exact plain 0

theorem printUnsigned_grouped {radix n : Nat} (some_ : n ≠ 0) (pos : 0 < k)
    (radix' : Option Nat) :
    printUnsigned radix n
        { radix := radix', groupSeparator := some separator, groupSize := some k } =
      if k < (digits radix n n).length ∧ k ∣ (digits radix n n).length then none
      else some (fromRight k separator 0 (digits radix n n)).reverse := by
  have filled : digits radix n n ≠ [] := by
    cases n with
    | zero => exact absurd rfl some_
    | succ n => exact List.cons_ne_nil _ _
  have least := Nat.div_le_self (digits radix n n).length k
  simp only [printUnsigned, if_neg some_, Option.getD_some, reduceCtorEq, if_false,
    List.nil_append]
  generalize digits radix n n = s at filled least ⊢
  rcases Nat.lt_or_ge k s.length with long | short
  · rw [splitIntoSize_parts pos long (by omega)]
    by_cases even : s.length % k = 0
    · have divides := Nat.dvd_of_mod_eq_zero even
      rw [if_pos even, if_pos ⟨long, divides⟩]
      have some : 0 < s.length / k := Nat.div_pos (Nat.le_of_lt long) pos
      obtain ⟨m, count⟩ := Nat.exists_eq_succ_of_ne_zero (Nat.ne_of_gt some)
      rw [count, parts]
      simp only [Option.bind_eq_bind, Option.bind_some, join_nil, Option.bind_none]
    · rw [if_neg even, if_neg fun both => even (Nat.mod_eq_zero_of_dvd both.2)]
      simp only [Option.bind_eq_bind, Option.bind_some, join_chunked filled
        (chunked_parts pos even)]
      rfl
  · have whole : splitIntoSize (s.length + 1) s k = some ([s].map some) := by
      unfold splitIntoSize
      rw [if_neg (by omega), if_pos short]
      rfl
    rw [whole, if_neg fun both => absurd both.1 (by omega)]
    simp only [Option.bind_eq_bind, Option.bind_some, join_chunked filled
      (chunked_short pos short)]
    rfl

end Groups

/-- The integer is printed in its groups: its digits fit into one group; or it is not negative
and the first group is shorter than the others; or it is negative and nothing separates them. -/
def PrintsGroups (n : Int) (radix k : Nat) (separator : List Char) : Prop :=
  n.natAbs < radix ^ k ∨
    if n < 0 then separator = [] else ¬ k ∣ (Nat.digits radix n.natAbs).length

theorem printOn_grouped_iff {radix k : Nat} (base : 2 ≤ radix) (high : radix ≤ 36) (pos : 0 < k)
    (n : Int) (separator : List Char) :
    printOn 10 n
        { radix := some radix, groupSeparator := some separator, groupSize := some k } =
      some (groupedText n radix k separator) ↔ PrintsGroups n radix k separator := by
  have within : ¬ (radix < 2 ∨ 36 < radix) := by omega
  have few : (Nat.digits radix n.natAbs).length ≤ k ↔ n.natAbs < radix ^ k :=
    Nat.digits_length_le_iff base n.natAbs
  have text : printString n.natAbs (some radix) =
      (numeral radix n.natAbs).map digitCharacter := by
    rw [printString_eq base high, if_neg (by omega)]
    rfl
  have back : ((numeral radix n.natAbs).map digitCharacter).reverse =
      if n.natAbs = 0 then ['0'] else digits radix n.natAbs n.natAbs := by
    unfold numeral
    by_cases zero : n.natAbs = 0
    · rw [if_pos zero, if_pos zero]
      rfl
    · rw [if_neg zero, if_neg zero, digits_eq base _ _ (Nat.le_refl _), List.map_reverse,
        List.reverse_reverse]
  simp only [printOn, Option.getD_some, if_neg within, groupedText, grouped, text, back,
    PrintsGroups, ← few]
  by_cases negative : n < 0
  · have size : (-n).toNat = n.natAbs := by omega
    have some_ : n.natAbs ≠ 0 := by omega
    have plain : (numeral radix n.natAbs).map digitCharacter =
        (digits radix n.natAbs n.natAbs).reverse := by
      rw [← List.reverse_eq_iff, back, if_neg some_]
    rw [if_pos negative, if_pos negative, if_pos negative, if_neg some_, size,
      printUnsigned_plain base, Option.map_some, Option.some.injEq, List.singleton_append,
      List.cons.injEq, plain, List.reverse_inj, eq_comm (a := digits radix _ _),
      fromRight_same_iff pos, digits_length base]
    exact and_iff_right rfl
  · have size : n.toNat = n.natAbs := by omega
    rw [if_neg negative, if_neg negative, if_neg negative, size, List.nil_append]
    by_cases zero : n.natAbs = 0
    · rw [if_pos zero, @fromRight_short k separator ['0'] pos, zero, Nat.digits_zero]
      exact iff_of_true rfl (Or.inl (Nat.zero_le k))
    · rw [if_neg zero, printUnsigned_grouped zero pos, digits_length base]
      by_cases even : k < (Nat.digits radix n.natAbs).length ∧
          k ∣ (Nat.digits radix n.natAbs).length
      · rw [if_pos even]
        refine iff_of_false (fun same => nomatch same) ?_
        rintro (short | odd)
        · exact absurd even.1 (by omega)
        · exact odd even.2
      · rw [if_neg even]
        refine iff_of_true rfl ?_
        rcases Nat.lt_or_ge k (Nat.digits radix n.natAbs).length with long | short
        · exact Or.inr fun divides => even ⟨long, divides⟩
        · exact Or.inl short

end SlateVm.Integers
