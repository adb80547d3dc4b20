import SlateVm.Collections.SubSequences
import Mathlib.Algebra.Ring.Int.Defs
import Mathlib.Algebra.GroupWithZero.Nat

/-! `splitWith:&count:&includeEmpty:` and `concatenateAll:&separator:`: taking a sequence apart
at an element, and putting sequences together around a separator. -/
namespace SlateVm.Collections

variable {α : Type}

section Model

variable [DecidableEq α] [Inhabited α]

/-- `indexOf:startingAt:ifAbsent:` with a block that answers an index too. -/
def indexOfElse (s : List α) (obj : α) (start absent : Nat) : Option Nat :=
  (indexOf (· == ·) s obj start).map fun found => (found.map Int.toNat).getD absent

/-- The loop of `splitWith:&count:&includeEmpty:`, with a bound on its rounds. -/
def splitLoop (s : List α) (obj : α) (count : Option Nat) (empties : Bool) :
    Nat → List (List α) → Nat → Option (List (List α))
  | 0, _, _ => none
  | rounds + 1, subSeqs, keyEnd =>
    if keyEnd < s.length then
      if count.any (· ≤ subSeqs.length) then do
        let rest ← copyFrom s keyEnd s.length
        some (subSeqs ++ [rest])
      else do
        let found ← indexOfElse s obj keyEnd keyEnd
        let keyStart := found + 1
        let keyEnd ← indexOfElse s obj keyStart s.length
        if keyStart < keyEnd ∨ empties ∧ keyStart ≤ keyEnd then do
          let piece ← copyFrom s keyStart keyEnd
          splitLoop s obj count empties rounds (subSeqs ++ [piece]) keyEnd
        else splitLoop s obj count empties rounds subSeqs keyEnd
    else some subSeqs

def splitWith (rounds : Nat) (s : List α) (obj : α) (count : Option Nat) (empties : Bool) :
    Option (List (List α)) := do
  let keyEnd ← indexOfElse s obj 0 s.length
  if empties ∨ keyEnd > 0 then do
    let piece ← copyFrom s 0 keyEnd
    splitLoop s obj count empties rounds [piece] keyEnd
  else splitLoop s obj count empties rounds [] keyEnd

end Model

section Joining

variable [Inhabited α]

def writeAt (each : List α) (written : List α × Int) : Option (List α × Int) := do
  let result ← replaceFrom written.1 written.2 (written.2 + each.length - 1) each 0
  some (result, written.2 + each.length)

/-- `do:separatedBy:` as `concatenateAll:&separator:` uses it. -/
def writeSeparated (delim : List α) : List (List α) → List α × Int → Option (List α × Int)
  | [], written => some written
  | each :: rest, written => do
    let written ← writeAt each written
    rest.foldlM (fun written each => do writeAt each (← writeAt delim written)) written

def joinedCapacity (c : List α) (seq : List (List α)) (delim : List α) : Int :=
  seq.foldl (fun (accum : Int) each => accum + each.length) c.length +
    ((seq.length : Int) - (if c = [] then 1 else 0)) * delim.length

def writeFirst (c delim : List α) (written : List α × Int) : Option (List α × Int) :=
  if c = [] then some written else do writeAt delim (← writeAt c written)

def concatenateAll (c : List α) (seq : List (List α)) (delim : List α) : Option (List α) := do
  let result ← newArray (joinedCapacity c seq delim)
  let written ← writeFirst c delim (result, 0)
  let written ← writeSeparated delim seq written
  some written.1

end Joining

section Indices

variable [DecidableEq α] {front rest piece : List α} {d : α}

theorem indexOfElse_found (absent : Nat) (clean : d ∉ piece) :
    indexOfElse (front ++ (piece ++ d :: rest)) d front.length absent =
      some (front.length + piece.length) := by
  induction piece generalizing front with
  | nil =>
    unfold indexOfElse indexOf
    rw [upTo_first (by simp only [List.length_append, List.length_cons]; omega)]
    simp [firstIndex, arrayAt_nat]
  | cons x piece ih =>
    have apart : x ≠ d := fun same => clean (same ▸ List.mem_cons_self ..)
    have next := @ih (front ++ [x]) fun later => clean (List.mem_cons_of_mem _ later)
    unfold indexOfElse indexOf at next ⊢
    rw [upTo_first (by simp only [List.length_append, List.length_cons]; omega)]
    have each : arrayAt (front ++ (x :: piece ++ d :: rest)) front.length = some x := by
      simp [arrayAt_nat]
    simp only [firstIndex, each, Option.map_some, beq_eq_false_iff_ne.mpr apart,
      Option.bind_eq_bind, Option.bind_some, Bool.false_eq_true, if_false]
    have place : ((front.length : Int) + 1) = ((front ++ [x]).length : Nat) := by simp
    rw [place]
    simp only [List.append_assoc, List.singleton_append] at next
    rw [List.cons_append, next]
    simp only [List.length_append, List.length_cons, List.length_nil]
    congr 1
    omega

theorem indexOfElse_absent (absent : Nat) (clean : d ∉ piece) :
    indexOfElse (front ++ piece) d front.length absent = some absent := by
  induction piece generalizing front with
  | nil =>
    unfold indexOfElse indexOf
    rw [upTo_none (by simp only [List.append_nil]; omega)]
    rfl
  | cons x piece ih =>
    have apart : x ≠ d := fun same => clean (same ▸ List.mem_cons_self ..)
    have next := @ih (front ++ [x]) fun later => clean (List.mem_cons_of_mem _ later)
    unfold indexOfElse indexOf at next ⊢
    rw [upTo_first (by simp only [List.length_append, List.length_cons]; omega)]
    have each : arrayAt (front ++ x :: piece) front.length = some x := by simp [arrayAt_nat]
    simp only [firstIndex, each, Option.map_some, beq_eq_false_iff_ne.mpr apart,
      Option.bind_eq_bind, Option.bind_some, Bool.false_eq_true, if_false]
    have place : ((front.length : Int) + 1) = ((front ++ [x]).length : Nat) := by simp
    rw [place]
    simpa only [List.append_assoc, List.singleton_append] using next

end Indices

section Pieces

variable {d : α} {empties : Bool} {front rest piece : List α}

def keeps (empties : Bool) (piece : List α) : Bool := empties || !piece.isEmpty

def addedFrom (d : α) (count : Option Nat) (empties : Bool) :
    Nat → List (List α) → List (List α)
  | _, [] => []
  | added, piece :: pieces =>
    if count.any (· ≤ added) then [d :: [d].intercalate (piece :: pieces)]
    else if keeps empties piece then piece :: addedFrom d count empties (added + 1) pieces
    else addedFrom d count empties added pieces

theorem copyFrom_middle [Inhabited α] {start stop : Nat} (first : start = front.length)
    (last : stop = front.length + piece.length) :
    copyFrom (front ++ (piece ++ rest)) start stop = some piece := by
  rw [copyFrom_within (by omega) (by simp only [List.length_append]; omega)]
  subst first last
  simp

theorem keeps_between {keyStart keyEnd : Nat} (size : keyEnd = keyStart + piece.length) :
    (keyStart < keyEnd ∨ empties = true ∧ keyStart ≤ keyEnd) ↔ keeps empties piece = true := by
  cases piece with
  | nil => simp [keeps, size]
  | cons x piece => simp [keeps, size]

variable [DecidableEq α] [Inhabited α] {count : Option Nat}

theorem splitLoop_piece {rounds : Nat} {subSeqs : List (List α)} {keyEnd' : Nat}
    (open_ : count.any (· ≤ subSeqs.length) = false)
    (ends : indexOfElse (front ++ d :: (piece ++ rest)) d (front ++ [d]).length
      (front ++ d :: (piece ++ rest)).length = some keyEnd')
    (size : keyEnd' = (front ++ [d]).length + piece.length) :
    splitLoop (front ++ d :: (piece ++ rest)) d count empties (rounds + 1) subSeqs front.length =
      splitLoop (front ++ d :: (piece ++ rest)) d count empties rounds
        (if keeps empties piece then subSeqs ++ [piece] else subSeqs) keyEnd' := by
  have inside : front.length < (front ++ d :: (piece ++ rest)).length := by
    simp only [List.length_append, List.length_cons]
    omega
  have found := @indexOfElse_found α _ front (piece ++ rest) [] d front.length (by simp)
  have start : front.length + 1 = (front ++ [d]).length := by simp
  rw [List.nil_append, List.length_nil, Nat.add_zero] at found
  simp only [splitLoop, if_pos inside, open_, found, start, ends, keeps_between size,
    Option.bind_eq_bind, Option.bind_some, Bool.false_eq_true, if_false]
  have copied : copyFrom (front ++ d :: (piece ++ rest)) (front ++ [d]).length keyEnd' =
      some piece := by
    have middle := @copyFrom_middle α (front ++ [d]) rest piece _ _ _ rfl size
    simpa only [List.append_assoc, List.singleton_append] using middle
  cases keeps empties piece with
  | true => simp only [if_pos, copied, Option.bind_some]
  | false => simp only [Bool.false_eq_true, if_false]

theorem splitLoop_adds (n : Nat) (front rest : List α) (most : rest.length ≤ n)
    (subSeqs : List (List α)) (rounds : Nat) (enough : n + 1 < rounds) :
    splitLoop (front ++ d :: rest) d count empties rounds subSeqs front.length =
      some (subSeqs ++ addedFrom d count empties subSeqs.length (rest.splitOn d)) := by
  induction n using Nat.strongRecOn generalizing front rest subSeqs rounds with
  | ind n ih =>
    obtain ⟨rounds, rfl⟩ : ∃ k, rounds = k + 1 := ⟨rounds - 1, by omega⟩
    obtain ⟨piece, pieces, parts⟩ := List.exists_cons_of_ne_nil (List.splitOn_ne_nil d rest)
    cases full : count.any (· ≤ subSeqs.length) with
    | true =>
      have inside : front.length < (front ++ d :: rest).length := by
        simp only [List.length_append, List.length_cons]
        omega
      have copied := @copyFrom_middle α front [] (d :: rest) _ front.length
        (front ++ d :: rest).length rfl (by simp)
      rw [List.append_nil] at copied
      have back := @List.intercalate_splitOn α rest _ _ d
      simp only [splitLoop, if_pos inside, full, if_pos, copied, Option.bind_eq_bind,
        Option.bind_some]
      rw [parts] at back ⊢
      simp only [addedFrom, full, if_pos, back]
    | false =>
      rcases Decidable.em (d ∈ rest) with more | last
      · obtain ⟨piece', rest', rfl, clean⟩ := List.eq_append_cons_of_mem more
        have splits := List.splitOn_append_cons_self_of_not_mem clean rest'
        rw [splits]
        have ends := @indexOfElse_found α _ (front ++ [d]) rest' piece' d
          (front ++ d :: (piece' ++ d :: rest')).length clean
        simp only [List.append_assoc, List.singleton_append] at ends
        rw [splitLoop_piece full ends rfl]
        rw [List.length_append, List.length_cons] at most
        have next := fun subSeqs => ih rest'.length (by omega) (front ++ d :: piece') rest'
          (Nat.le_refl _) subSeqs rounds (by omega)
        have whole : front ++ d :: piece' ++ d :: rest' = front ++ d :: (piece' ++ d :: rest') := by
          simp
        have place : (front ++ [d]).length + piece'.length = (front ++ d :: piece').length := by
          simp only [List.length_append, List.length_cons, List.length_nil]
          omega
        rw [place, ← whole, next]
        simp only [addedFrom, full, Bool.false_eq_true, if_false]
        cases keeps empties piece' with
        | true => simp
        | false => simp
      · rw [List.splitOn_eq_singleton last]
        have ends := @indexOfElse_absent α _ (front ++ [d]) rest d (front ++ d :: rest).length last
        have whole : front ++ d :: rest = front ++ d :: (rest ++ []) := by rw [List.append_nil]
        simp only [List.append_assoc, List.singleton_append] at ends
        rw [whole] at ends ⊢
        rw [splitLoop_piece full ends (by
          simp only [List.length_append, List.length_cons, List.length_nil]
          omega)]
        obtain ⟨rounds, rfl⟩ : ∃ k, rounds = k + 1 := ⟨rounds - 1, by omega⟩
        simp only [splitLoop, Nat.lt_irrefl, if_false, addedFrom, full, Bool.false_eq_true]
        cases keeps empties rest with
        | true => simp
        | false => simp

theorem splitWith_adds {s : List α} {rounds : Nat} {piece : List α} {pieces : List (List α)}
    (parts : s.splitOn d = piece :: pieces) (enough : s.length + 1 < rounds) :
    splitWith rounds s d count empties =
      some ((if keeps empties piece then [piece] else []) ++
        addedFrom d count empties (if keeps empties piece then 1 else 0) pieces) := by
  have added : ∀ {keyEnd : Nat}, keyEnd = piece.length →
      indexOfElse s d 0 s.length = some keyEnd → copyFrom s 0 keyEnd = some piece →
      splitWith rounds s d count empties = splitLoop s d count empties rounds
        (if keeps empties piece then [piece] else []) keyEnd := by
    intro keyEnd size found copied
    have kept : (empties = true ∨ keyEnd > 0) ↔ keeps empties piece = true := by
      have between := @keeps_between α empties piece 0 keyEnd (by omega)
      simp only [Nat.zero_le, and_true] at between
      exact or_comm.trans between
    simp only [splitWith, found, kept, Option.bind_eq_bind, Option.bind_some]
    cases keeps empties piece with
    | true => simp only [if_pos, copied, Option.bind_some]
    | false => simp only [Bool.false_eq_true, if_false]
  rcases Decidable.em (d ∈ s) with more | last
  · obtain ⟨piece', rest, rfl, clean⟩ := List.eq_append_cons_of_mem more
    rw [List.splitOn_append_cons_self_of_not_mem clean rest] at parts
    cases parts
    have found := @indexOfElse_found α _ [] rest piece d (piece ++ d :: rest).length clean
    have copied := @copyFrom_middle α [] (d :: rest) piece _ 0 piece.length rfl (by simp)
    simp only [List.nil_append, List.length_nil, Nat.zero_add] at found copied
    rw [added rfl found copied]
    rw [List.length_append, List.length_cons] at enough
    rw [splitLoop_adds rest.length piece rest (Nat.le_refl _) _ rounds (by omega)]
    cases keeps empties piece with
    | true => rfl
    | false => rfl
  · rw [List.splitOn_eq_singleton last] at parts
    cases parts
    have found := @indexOfElse_absent α _ [] s d s.length last
    have copied := @copyFrom_middle α [] [] s _ 0 s.length rfl (by simp)
    simp only [List.nil_append, List.append_nil, List.length_nil] at found copied
    rw [added rfl found copied]
    obtain ⟨rounds, rfl⟩ : ∃ k, rounds = k + 1 := ⟨rounds - 1, by omega⟩
    simp only [splitLoop, Nat.lt_irrefl, if_false, addedFrom, List.append_nil]

end Pieces

section Purpose

variable (d : α) (empties : Bool)

/-- The first `n` pieces that are kept, and what is behind the delimiter after them. -/
def splitOff : Nat → List (List α) → List (List α)
  | _, [] => []
  | 0, piece :: pieces => [[d].intercalate (piece :: pieces)].filter (keeps empties)
  | n + 1, piece :: pieces =>
    if keeps empties piece then piece :: splitOff n pieces else splitOff (n + 1) pieces

def splitInto [DecidableEq α] (s : List α) : Option Nat → List (List α)
  | none => (s.splitOn d).filter (keeps empties)
  | some n => splitOff d empties n (s.splitOn d)

def joined (c : List α) (seq : List (List α)) (delim : List α) : List α :=
  delim.intercalate (if c = [] then seq else c :: seq)

end Purpose

section Counting

variable {d : α} {empties : Bool} {piece : List α} {pieces : List (List α)}

theorem addedFrom_all (added : Nat) (pieces : List (List α)) :
    addedFrom d none empties added pieces = pieces.filter (keeps empties) := by
  induction pieces generalizing added with
  | nil => rfl
  | cons piece pieces ih =>
    simp only [addedFrom, Option.any_none, Bool.false_eq_true, if_false, ih, List.filter_cons]

theorem addedFrom_full (more : pieces ≠ []) (added : Nat) :
    addedFrom d (some added) empties added pieces = [d :: [d].intercalate pieces] := by
  obtain ⟨piece, rest, rfl⟩ := List.exists_cons_of_ne_nil more
  simp [addedFrom]

theorem addedFrom_right_iff (added m : Nat) (pieces : List (List α)) :
    addedFrom d (some (added + m)) empties added pieces = splitOff d empties m pieces ↔
      pieces = [] ∨ (pieces.dropLast.filter (keeps empties)).length < m := by
  induction pieces generalizing added m with
  | nil => simp [addedFrom, splitOff]
  | cons piece pieces ih =>
    cases m with
    | zero =>
      rw [Nat.add_zero, addedFrom_full (List.cons_ne_nil _ _)]
      refine ⟨fun same => ?_, fun wrong => ?_⟩
      · exfalso
        simp only [splitOff, List.filter_cons, List.filter_nil] at same
        split at same
        · simpa using congrArg (List.map List.length) same
        · cases same
      · rcases wrong with none_ | below
        · cases none_
        · omega
    | succ m =>
      have open_ : ¬ added + (m + 1) ≤ added := by omega
      simp only [addedFrom, splitOff, Option.any_some, decide_eq_true_eq, if_neg open_]
      cases kept : keeps empties piece with
      | true =>
        have next := ih (added + 1) m
        rw [show added + 1 + m = added + (m + 1) by omega] at next
        simp only [if_pos, List.cons.injEq, true_and, next]
        cases pieces with
        | nil => simp
        | cons piece' pieces => simp [kept]
      | false =>
        simp only [Bool.false_eq_true, if_false, ih]
        cases pieces with
        | nil => simp
        | cons piece' pieces => simp [kept]

/-- The counts that come out right: no delimiter is left to stop at when the count is reached,
or nothing at all is to be split off, and nothing is. -/
def CountFits [DecidableEq α] (d : α) (empties : Bool) (s : List α) : Option Nat → Prop
  | none => True
  | some n => ((s.splitOn d).dropLast.filter (keeps empties)).length < n ∨
      n = 0 ∧ (d ∉ s ∨ empties = false ∧ s.head? = some d)

variable [DecidableEq α] {s : List α}

theorem splitOn_head (parts : s.splitOn d = piece :: pieces) :
    (pieces = [] ↔ d ∉ s) ∧ (piece = [] ∧ pieces ≠ [] ↔ s.head? = some d) := by
  cases s with
  | nil =>
    rw [List.splitOn_nil] at parts
    cases parts
    simp
  | cons x s =>
    rw [List.splitOn_cons_eq_if_modifyHead] at parts
    obtain ⟨p, ps, rest⟩ := List.exists_cons_of_ne_nil (List.splitOn_ne_nil d s)
    rw [rest] at parts
    split at parts
    · next same =>
      obtain rfl : x = d := by simpa using same
      cases parts
      simp
    · next apart =>
      have apart' : x ≠ d := by simpa using apart
      cases parts
      refine ⟨?_, by simp [apart']⟩
      rcases Decidable.em (d ∈ s) with more | last
      · obtain ⟨front, back, rfl, clean⟩ := List.eq_append_cons_of_mem more
        rw [List.splitOn_append_cons_self_of_not_mem clean back] at rest
        cases rest
        simp [List.splitOn_ne_nil]
      · rw [List.splitOn_eq_singleton last] at rest
        cases rest
        simp [last, apart'.symm]

theorem splitWith_right_iff [Inhabited α] (s : List α) (d : α) (count : Option Nat)
    (empties : Bool) {rounds : Nat} (enough : s.length + 1 < rounds) :
    splitWith rounds s d count empties = some (splitInto d empties s count) ↔
      CountFits d empties s count := by
  obtain ⟨piece, pieces, parts⟩ := List.exists_cons_of_ne_nil (List.splitOn_ne_nil d s)
  obtain ⟨single, front⟩ := splitOn_head parts
  rw [splitWith_adds parts enough, Option.some.injEq]
  match count with
  | none =>
    simp only [addedFrom_all, splitInto, parts, CountFits, iff_true, List.filter_cons]
    split <;> rfl
  | some (n + 1) =>
    have whole : ((if keeps empties piece then [piece] else []) ++ addedFrom d (some (n + 1))
        empties (if keeps empties piece then 1 else 0) pieces) =
          addedFrom d (some (0 + (n + 1))) empties 0 (piece :: pieces) := by
      simp only [addedFrom, Option.any_some, decide_eq_true_eq, Nat.zero_add, Nat.le_zero_eq,
        Nat.succ_ne_zero, if_false]
      split <;> rfl
    rw [whole, splitInto, parts, addedFrom_right_iff, CountFits, parts]
    simp
  | some 0 =>
    simp only [splitInto, parts, splitOff, CountFits, Nat.not_lt_zero, false_or, true_and]
    cases pieces with
    | nil =>
      have clean : d ∉ s := single.mp rfl
      simp only [addedFrom, List.append_nil, List.intercalate_singleton, clean, not_false_eq_true,
        true_or, List.filter_cons, List.filter_nil]
    | cons piece' pieces =>
      have more : ¬ d ∉ s := fun clean => List.cons_ne_nil _ _ (single.mpr clean)
      cases kept : keeps empties piece with
      | true =>
        have not_front : ¬ (empties = false ∧ s.head? = some d) := by
          rintro ⟨rfl, first⟩
          obtain ⟨rfl, _⟩ := front.mpr first
          cases kept
        have two : ∀ k, addedFrom d (some 0) empties k (piece' :: pieces) ≠ [] := by
          intro k
          simp [addedFrom]
        simp only [more, not_front, or_self, iff_false, if_pos, List.filter_cons, List.filter_nil]
        intro same
        split at same
        · exact two 1 (List.cons.inj same).2
        · cases same
      | false =>
        obtain ⟨rfl, rfl⟩ : empties = false ∧ piece = [] := by simpa [keeps] using kept
        have first : s.head? = some d := front.mp ⟨rfl, List.cons_ne_nil _ _⟩
        simp [addedFrom, keeps, first]

end Counting

section Joins

variable [Inhabited α] {delim each written : List α} {seq : List (List α)} {total : Nat}

def Written (state : List α × Int) (written : List α) (total : Nat) : Prop :=
  ∃ rest, state.1 = written ++ rest ∧ state.2 = written.length ∧
    written.length + rest.length = total

omit [Inhabited α] in
theorem Written.write {state : List α × Int} (so_far : Written state written total)
    (fits : (written ++ each).length ≤ total) :
    ∃ state', writeAt each state = some state' ∧ Written state' (written ++ each) total := by
  obtain ⟨rest, result, target, size⟩ := so_far
  obtain ⟨old, back, rfl, same⟩ : ∃ old back, rest = old ++ back ∧ old.length = each.length := by
    rw [List.length_append] at fits
    refine ⟨rest.take each.length, rest.drop each.length, (List.take_append_drop _ _).symm, ?_⟩
    rw [List.length_take]
    omega
  have placed := @replaceFrom_middle α written old back [] each [] state.2
    (state.2 + each.length - 1) 0 target (by omega) rfl same
  simp only [List.nil_append, List.append_nil] at placed
  refine ⟨(written ++ (each ++ back), state.2 + each.length), ?_, back, ?_, ?_, ?_⟩
  · simp only [writeAt, result, placed, Option.bind_eq_bind, Option.bind_some]
  · rw [List.append_assoc]
  · rw [target, List.length_append, Int.natCast_add]
  · simp only [List.length_append] at size ⊢
    omega

omit [Inhabited α] in
theorem length_le_intercalate (each : List α) (seq : List (List α)) :
    each.length ≤ (delim.intercalate (each :: seq)).length := by
  cases seq with
  | nil =>
    simp only [List.intercalate_singleton, Nat.le_refl]
  | cons next seq =>
    rw [List.intercalate_cons_cons, List.append_assoc, List.length_append]
    exact Nat.le_add_right _ _

omit [Inhabited α] in
theorem Written.rest {state : List α × Int} (seq : List (List α)) (written each : List α)
    (so_far : Written state (written ++ each) total)
    (fits : (written ++ delim.intercalate (each :: seq)).length ≤ total) :
    ∃ state', seq.foldlM (fun written each => do writeAt each (← writeAt delim written)) state =
        some state' ∧ Written state' (written ++ delim.intercalate (each :: seq)) total := by
  induction seq generalizing state written each with
  | nil => exact ⟨state, rfl, by rwa [List.intercalate_singleton]⟩
  | cons next seq ih =>
    rw [List.intercalate_cons_cons, ← List.append_assoc, ← List.append_assoc] at fits ⊢
    have shorter := @length_le_intercalate α delim next seq
    have room := fits
    rw [List.length_append] at room
    obtain ⟨state₁, first, separated⟩ := @Written.write α delim _ _ _ so_far (by omega)
    obtain ⟨state₂, second, added⟩ := @Written.write α next _ _ _ separated (by
      rw [List.length_append]
      omega)
    obtain ⟨state', run, all⟩ := ih (written ++ each ++ delim) next added fits
    refine ⟨state', ?_, all⟩
    simpa only [List.foldlM_cons, first, second, Option.bind_eq_bind, Option.bind_some] using run

omit [Inhabited α] in
theorem Written.separated {state : List α × Int} (so_far : Written state written total)
    (fits : (written ++ delim.intercalate seq).length ≤ total) :
    ∃ state', writeSeparated delim seq state = some state' ∧
      Written state' (written ++ delim.intercalate seq) total := by
  cases seq with
  | nil => exact ⟨state, rfl, by rwa [List.intercalate_nil, List.append_nil]⟩
  | cons each seq =>
    have shorter := @length_le_intercalate α delim each seq
    have room := fits
    rw [List.length_append] at room
    obtain ⟨state₁, first, added⟩ := @Written.write α each _ _ _ so_far (by
      rw [List.length_append]
      omega)
    obtain ⟨state', run, all⟩ := Written.rest seq written each added fits
    refine ⟨state', ?_, all⟩
    simpa only [writeSeparated, first, Option.bind_eq_bind, Option.bind_some] using run

omit [Inhabited α] in
theorem sum_sizes (start : Int) (seq : List (List α)) :
    seq.foldl (fun (accum : Int) each => accum + each.length) start =
      start + (seq.map fun each => (each.length : Int)).sum := by
  induction seq generalizing start with
  | nil => simp
  | cons each seq ih =>
    rw [List.foldl_cons, ih, List.map_cons, List.sum_cons]
    omega

omit [Inhabited α] in
theorem length_intercalate (each : List α) (seq : List (List α)) :
    ((delim.intercalate (each :: seq)).length : Int) =
      ((each :: seq).map fun each => (each.length : Int)).sum + seq.length * delim.length := by
  induction seq generalizing each with
  | nil => simp
  | cons next seq ih =>
    rw [List.intercalate_cons_cons, List.length_append, List.length_append, Int.natCast_add, ih,
      List.map_cons, List.sum_cons, @List.map_cons _ _ _ each, List.sum_cons, List.map_cons,
      List.sum_cons, List.length_cons, Int.natCast_add seq.length, Int.add_mul]
    omega

omit [Inhabited α] in
theorem joinedCapacity_exact (c : List α) (seq : List (List α)) (delim : List α)
    (some_ : seq ≠ [] ∨ delim = []) :
    joinedCapacity c seq delim = (joined c seq delim).length := by
  unfold joinedCapacity joined
  rw [sum_sizes]
  cases seq with
  | nil =>
    have none_ : delim = [] := by simpa using some_
    subst none_
    split
    · next empty => simp [empty]
    · simp
  | cons each seq =>
    split
    · next empty =>
      rw [length_intercalate, empty, List.length_nil, List.length_cons, Int.natCast_add]
      simp
    · rw [length_intercalate]
      simp only [List.map_cons, List.sum_cons, List.length_cons, Int.natCast_add, Int.sub_zero]

theorem concatenateAll_joins {c : List α} (some_ : seq ≠ [] ∨ delim = []) :
    concatenateAll c seq delim = some (joined c seq delim) := by
  have capacity := joinedCapacity_exact c seq delim some_
  have fresh : newArray (joinedCapacity c seq delim) =
      some (List.replicate (joined c seq delim).length (default : α)) := by
    rw [capacity, newArray, if_neg (by omega), Int.toNat_natCast]
  have begins : Written (List.replicate (joined c seq delim).length (default : α), 0) []
      (joined c seq delim).length := ⟨_, rfl, rfl, by simp⟩
  obtain ⟨state₁, written, front, so_far, all⟩ : ∃ state₁ written, writeFirst c delim
      (List.replicate (joined c seq delim).length (default : α), 0) = some state₁ ∧
      Written state₁ written (joined c seq delim).length ∧
        written ++ delim.intercalate seq = joined c seq delim := by
    rcases Decidable.em (c = []) with rfl | nonempty
    · exact ⟨_, [], by simp [writeFirst], begins, by simp [joined]⟩
    · have whole : c ++ delim ++ delim.intercalate seq = joined c seq delim := by
        rw [joined, if_neg nonempty]
        rcases some_ with more | rfl
        · rw [List.intercalate_cons_of_ne_nil more]
        · cases seq with
          | nil => simp
          | cons each seq => rw [List.intercalate_cons_cons]
      have size := congrArg List.length whole
      simp only [List.length_append] at size
      obtain ⟨state, first, added⟩ := @Written.write α c _ _ _ begins (by
        rw [List.nil_append]
        omega)
      obtain ⟨state₁, second, separated⟩ := @Written.write α delim _ _ _ added (by
        rw [List.nil_append, List.length_append]
        omega)
      refine ⟨state₁, c ++ delim, ?_, separated, whole⟩
      simp only [writeFirst, if_neg nonempty, first, second, Option.bind_eq_bind, Option.bind_some]
  obtain ⟨state', run, last, result, _, size⟩ := @Written.separated α delim written seq _ _ so_far
    (Nat.le_of_eq (by rw [all]))
  rw [all] at result size
  have nothing : last = [] := List.eq_nil_of_length_eq_zero (by omega)
  subst nothing
  simp only [concatenateAll, fresh, front, run, result, List.append_nil, Option.bind_eq_bind,
    Option.bind_some]

omit [Inhabited α] in
theorem writeAt_behind {state : List α × Int} (some_ : each ≠ [])
    (behind : state.1.length ≤ state.2) : writeAt each state = none := by
  have long := List.length_pos_iff.mpr some_
  have fails : replaceFrom state.1 state.2 (state.2 + each.length - 1) each 0 = none := by
    unfold replaceFrom
    rw [upTo_first (by omega)]
    unfold copyAt
    rw [List.foldlM_cons]
    have outside : ∀ obj, arrayPut state.1 state.2 obj = none := by
      intro obj
      rw [arrayPut, if_pos (.inr behind)]
    cases arrayAt each (0 - state.2 + state.2) with
    | none => rfl
    | some obj => simp [outside]
  simp only [writeAt, fails, Option.bind_eq_bind, Option.bind_none]

theorem concatenateAll_nothing {c : List α} (some_ : delim ≠ []) :
    concatenateAll c [] delim = none := by
  have long := List.length_pos_iff.mpr some_
  rcases Decidable.em (c = []) with rfl | nonempty
  · have negative : joinedCapacity ([] : List α) [] delim < 0 := by
      simp only [joinedCapacity, List.foldl_nil, List.length_nil, if_pos]
      omega
    simp only [concatenateAll, newArray, if_pos negative, Option.bind_eq_bind, Option.bind_none]
  · have capacity : joinedCapacity c [] delim = c.length := by
      simp [joinedCapacity, nonempty]
    have begins : Written (List.replicate c.length (default : α), 0) [] c.length :=
      ⟨_, rfl, rfl, by simp⟩
    obtain ⟨state, first, rest, result, target, size⟩ := @Written.write α c _ _ _ begins
      (Nat.le_refl _)
    rw [List.nil_append] at result target size
    have behind : (state.1.length : Int) ≤ state.2 := by
      rw [result, target, List.length_append]
      omega
    simp only [concatenateAll, capacity, newArray, if_neg (Int.not_lt.mpr (Int.natCast_nonneg _)),
      Int.toNat_natCast, writeFirst, if_neg nonempty, first, writeAt_behind some_ behind,
      Option.bind_eq_bind, Option.bind_some, Option.bind_none]

omit [Inhabited α] in
theorem length_splitOn [DecidableEq α] (s : List α) (d : α) :
    (s.splitOn d).length = s.count d + 1 := by
  induction s with
  | nil => simp
  | cons x s ih =>
    rw [List.splitOn_cons_eq_if_modifyHead, List.count_cons]
    split
    · rw [List.length_cons, ih]
    · rw [List.length_modifyHead, ih]

end Joins

end SlateVm.Collections
