import Mathlib.Tactic.Common
import Mathlib.Data.List.SplitBy

/-! Unicode normalization: decomposition and composition of strings of code points, over the
property table. -/
namespace SlateVm.Normalization

inductive FormType
  | canonical
  | compatibility
  deriving Repr, DecidableEq

structure NormalizationForm where
  type : FormType
  compose : Bool
  deriving Repr, DecidableEq

def nfc : NormalizationForm := ⟨.canonical, true⟩
def nfkc : NormalizationForm := ⟨.compatibility, true⟩
def nfd : NormalizationForm := ⟨.canonical, false⟩
def nfkd : NormalizationForm := ⟨.compatibility, false⟩

def SBase : Nat := 0xAC00
def LBase : Nat := 0x1100
def VBase : Nat := 0x1161
def TBase : Nat := 0x11A7
def VCount : Nat := 21
def TCount : Nat := 28
def NCount : Nat := VCount * TCount

def isHangulSyllable (c : Nat) : Bool := 0xAC00 ≤ c && c ≤ 0xD7A3

def isHangulL (c : Nat) : Bool := 0x1100 ≤ c && c ≤ 0x1112

def isHangulV (c : Nat) : Bool := 0x1161 ≤ c && c ≤ 0x1175

def isHangulLV (c : Nat) : Bool := isHangulSyllable c && (c - SBase) % TCount == 0

def isHangulT (c : Nat) : Bool := 0x11A7 ≤ c && c ≤ 0x11C2

/-- What the code reads of the property table, with what holds of the data of the standard:
mappings are not empty and have no cycle, the parts of Hangul syllables are starters without
a mapping, and Hangul syllables are not among the compositions. -/
structure PropertyTable where
  combiningClass : Nat → Nat
  decompose : Nat → Option (List Nat)
  isCompatibility : Nat → Bool
  compositions : Nat → Nat → Option Nat
  depth : Nat → Nat
  decompose_some : ∀ c ds, decompose c = some ds → ds ≠ []
  decompose_deep : ∀ c ds, decompose c = some ds → ∀ d ∈ ds, depth d < depth c
  hangul : ∀ c, isHangulL c ∨ isHangulV c ∨ isHangulT c →
    combiningClass c = 0 ∧ decompose c = none
  compositions_plain : ∀ c c2 r, compositions c c2 = some r → isHangulSyllable r = false

def decomposeHangul (c : Nat) : List Nat :=
  let SIndex := c - SBase
  let L := LBase + SIndex / NCount
  let V := VBase + SIndex % NCount / TCount
  let T := TBase + SIndex % TCount
  if T ≠ TBase then [L, V, T] else [L, V]

def getRecursiveDecompositionFor (t : PropertyTable) (form : NormalizationForm) (c : Nat) :
    List Nat :=
  if isHangulSyllable c then decomposeHangul c
  else
    match _mapping : t.decompose c with
    | none => [c]
    | some decomp =>
      if form.type = .canonical ∧ t.isCompatibility c then [c]
      else decomp.attach.flatMap fun d => getRecursiveDecompositionFor t form d.1
termination_by t.depth c
decreasing_by exact t.decompose_deep c decomp _mapping d.1 d.2

section Sorting

variable {α : Type}

/-- The variables of the loop of `stableSortFrom:to:by:`. -/
structure Merging (α : Type) where
  s : List α
  val1 : α
  val2 : α
  i1 : Nat
  i2 : Nat
  out : Nat

/-- The loop of `stableSortFrom:to:by:`; `out` is the place stored to next. -/
def merge (block : α → α → Bool) (scopy : List α) (middle stop : Nat) :
    Nat → Merging α → Option (Merging α)
  | 0, _ => none
  | rounds + 1, m =>
    if m.i1 ≤ middle ∧ m.i2 ≤ stop then
      if block m.val1 m.val2 then do
        let val1 ← scopy[m.i1 + 1]?
        merge block scopy middle stop rounds
          { m with s := m.s.set m.out m.val1, val1 := val1, i1 := m.i1 + 1, out := m.out + 1 }
      else do
        let val2 ← if m.i2 + 1 ≤ stop then scopy[m.i2 + 1]? else some m.val2
        merge block scopy middle stop rounds
          { m with s := m.s.set m.out m.val2, val2 := val2, i2 := m.i2 + 1, out := m.out + 1 }
    else some m

/-- `replaceFrom:to:with:startingAt:` with the rest of one half. -/
def copyRest (s scopy : List α) (out stop i : Nat) : Option (List α) :=
  (List.range (stop + 1 - out)).foldlM
    (fun s k => do some (s.set (out + k) (← scopy[i + k]?))) s

/-- `stableSortFrom:to:by:`, as it leaves the sequence. -/
def stableSort (block : α → α → Bool) : Nat → List α → Nat → Nat → Option (List α)
  | 0, _, _, _ => none
  | rounds + 1, s, start, stop =>
    let stop := if stop > s.length then s.length else stop
    if s.length ≤ 1 ∨ start ≥ stop then some s
    else do
      let middle := (start + stop) / 2
      let scopy ← stableSort block rounds s start middle
      let scopy ← stableSort block rounds scopy (middle + 1) stop
      let m ← merge block scopy middle stop (stop + 1 - start)
        ⟨s, ← scopy[start]?, ← scopy[middle + 1]?, start, middle + 1, start⟩
      copyRest m.s scopy m.out stop (if m.i1 ≤ middle then m.i1 else m.i2)

/-- `destructiveStableSortBy:`: the sequence as it is left, and the answer, which is that of
`stableSortFrom:to:by:`. A sequence of at most one element answers itself. Otherwise it is the
answer of `replaceFrom:to:with:startingAt:`, whose text ends in a period: Nil. -/
def destructiveStableSortBy (block : α → α → Bool) (s : List α) :
    Option (List α × Option (List α)) := do
  let sorted ← stableSort block (s.length + 1) s 0 (s.length - 1)
  some (sorted, if s.length ≤ 1 then some sorted else none)

end Sorting

/-- `result ; (buffer destructiveStableSortBy: [...])`. Nil, which has no size, cannot be put
on the stream. -/
def flush (t : PropertyTable) (result buffer : List Nat) : Option (List Nat) := do
  let (_, answer) ← destructiveStableSortBy
    (fun a b => t.combiningClass a ≤ t.combiningClass b) buffer
  match answer with
  | none => none
  | some sorted => some (result ++ sorted)

def decomposeStep (t : PropertyTable) (form : NormalizationForm)
    (state : List Nat × List Nat) (each : Nat) : Option (List Nat × List Nat) := do
  let current := getRecursiveDecompositionFor t form each
  let first ← current.head?
  if t.combiningClass first = 0 then do
    let result ← flush t state.1 state.2
    some (result, current)
  else some (state.1, state.2 ++ current)

/-- `decomposeForForm:`. With an empty string `current` is still Nil when its first element is
asked for. -/
def decomposeForForm (t : PropertyTable) (form : NormalizationForm) (s : List Nat) :
    Option (List Nat) := do
  let (result, buffer) ← s.foldlM (decomposeStep t form) ([], [])
  if s = [] then none else flush t result buffer

def composeWith (t : PropertyTable) (c c2 : Nat) : Option Nat :=
  if isHangulL c && isHangulV c2 then
    some (((c - LBase) * VCount + (c2 - VBase)) * TCount + SBase)
  else if isHangulLV c && isHangulT c2 then some (c + c2 - TBase)
  else t.compositions c c2

/-- The variables of the loop of `composeForForm:`. -/
structure Composing where
  s : List Nat
  starterPos : Nat
  compPos : Nat
  starterCh : Nat
  lastClass : Nat
  deriving Repr, DecidableEq

def composes (lastClass chClass composite : Nat) : Bool :=
  lastClass < chClass || lastClass == 0 || isHangulLV composite

def Composing.keep (t : PropertyTable) (m : Composing) (ch : Nat) : Composing :=
  let m := if t.combiningClass ch = 0 then { m with starterPos := m.compPos, starterCh := ch }
    else m
  { m with lastClass := t.combiningClass ch, s := m.s.set m.compPos ch, compPos := m.compPos + 1 }

def Composing.step (t : PropertyTable) (m : Composing) (ch : Nat) : Composing :=
  match composeWith t m.starterCh ch with
  | none => m.keep t ch
  | some composite =>
    if composes m.lastClass (t.combiningClass ch) composite then
      { m with s := m.s.set m.starterPos composite, starterCh := composite }
    else m.keep t ch

/-- The loop of `composeForForm:`, which reads the string that it overwrites. -/
def composeFrom (t : PropertyTable) (indices : List Nat) (m : Composing) : Option Composing :=
  indices.foldlM (fun m index => do some (m.step t (← m.s[index]?))) m

def composeForForm (t : PropertyTable) (s : List Nat) : Option (List Nat) := do
  let starterCh ← s.head?
  let lastClass := if t.combiningClass starterCh = 0 then 0 else 256
  let m ← composeFrom t ((List.range (s.length - 1)).map (1 + ·)) ⟨s, 0, 1, starterCh, lastClass⟩
  some (m.s.take m.compPos)

def normalizeTo (t : PropertyTable) (form : NormalizationForm) (s : List Nat) :
    Option (List Nat) := do
  let decomp ← decomposeForForm t form s
  if form.compose then composeForForm t decomp else some decomp

end SlateVm.Normalization

/-! Decomposition beside its purpose: the full decompositions of the characters one after the
other, with the marks between two starters in canonical order. -/
namespace SlateVm.Normalization

variable {t : PropertyTable} {form : NormalizationForm} {c : Nat} {s cs b r : List Nat}

def canonicalOrder (combiningClass : Nat → Nat) (s : List Nat) : List Nat :=
  (s.splitBy fun a b => combiningClass a ≠ 0 && combiningClass b ≠ 0).flatMap fun run =>
    run.mergeSort fun a b => combiningClass a ≤ combiningClass b

def fullDecomposition (t : PropertyTable) (form : NormalizationForm) (s : List Nat) : List Nat :=
  s.flatMap (getRecursiveDecompositionFor t form)

/-- A string decomposes to its canonically ordered full decomposition, which decomposes to
itself. -/
def Decomposes (t : PropertyTable) (form : NormalizationForm) (s : List Nat) : Prop :=
  let result := canonicalOrder t.combiningClass (fullDecomposition t form s)
  decomposeForForm t form s = some result ∧ decomposeForForm t form result = some result

def Plain (t : PropertyTable) (form : NormalizationForm) (c : Nat) : Prop :=
  ∃ d, getRecursiveDecompositionFor t form c = [d] ∧ t.combiningClass d = 0

def Settles (t : PropertyTable) (form : NormalizationForm) : List Nat → Prop
  | [] => False
  | c :: cs => (getRecursiveDecompositionFor t form c).length = 1 ∧ ∀ d ∈ cs, Plain t form d

theorem decomposition_unmapped (plain : isHangulSyllable c = false) (none : t.decompose c = .none) :
    getRecursiveDecompositionFor t form c = [c] := by
  unfold getRecursiveDecompositionFor
  simp only [plain, Bool.false_eq_true, if_false]
  split <;> simp_all

theorem decomposition_kept (plain : isHangulSyllable c = false)
    (kept : form.type = .canonical ∧ t.isCompatibility c = true) :
    getRecursiveDecompositionFor t form c = [c] := by
  unfold getRecursiveDecompositionFor
  simp only [plain, Bool.false_eq_true, if_false]
  split <;> simp [kept]

theorem decomposition_mapped {ds : List Nat} (plain : isHangulSyllable c = false)
    (mapped : t.decompose c = some ds) (goes : ¬ (form.type = .canonical ∧ t.isCompatibility c)) :
    getRecursiveDecompositionFor t form c = fullDecomposition t form ds := by
  rw [getRecursiveDecompositionFor]
  simp only [plain, Bool.false_eq_true, if_false]
  split
  · simp_all
  · rename_i decomp same
    cases same.symm.trans mapped
    rw [if_neg goes, fullDecomposition]
    simp

theorem mem_decomposeHangul (syllable : isHangulSyllable c = true) {d : Nat}
    (member : d ∈ decomposeHangul c) : isHangulL d ∨ isHangulV d ∨ isHangulT d := by
  simp only [isHangulSyllable, Bool.and_eq_true, decide_eq_true_eq] at syllable
  have parts : d = LBase + (c - SBase) / NCount ∨ d = VBase + (c - SBase) % NCount / TCount ∨
      d = TBase + (c - SBase) % TCount := by
    unfold decomposeHangul at member
    simp only at member
    split at member
    · simpa using member
    · rcases List.mem_cons.mp member with rfl | later
      · exact .inl rfl
      · exact .inr (.inl (List.mem_singleton.mp later))
  simp only [isHangulL, isHangulV, isHangulT, Bool.and_eq_true, decide_eq_true_eq]
  unfold LBase VBase TBase SBase NCount VCount TCount at parts
  omega

theorem part_plain {d : Nat} (part : isHangulL d ∨ isHangulV d ∨ isHangulT d) :
    isHangulSyllable d = false := by
  simp only [isHangulL, isHangulV, isHangulT, Bool.and_eq_true, decide_eq_true_eq] at part
  simp only [isHangulSyllable, Bool.and_eq_false_iff, decide_eq_false_iff_not]
  omega

theorem decomposition_induct {P : Nat → List Nat → Prop}
    (syllable : ∀ c, isHangulSyllable c = true → P c (decomposeHangul c))
    (single : ∀ c, isHangulSyllable c = false →
      getRecursiveDecompositionFor t form c = [c] → P c [c])
    (mapped : ∀ c ds, ds ≠ [] → (∀ d ∈ ds, P d (getRecursiveDecompositionFor t form d)) →
      P c (fullDecomposition t form ds)) (c : Nat) :
    P c (getRecursiveDecompositionFor t form c) := by
  induction deep : t.depth c using Nat.strongRecOn generalizing c with
  | _ n ih =>
    cases hangul : isHangulSyllable c with
    | true =>
      rw [getRecursiveDecompositionFor, if_pos hangul]
      exact syllable c hangul
    | false =>
      cases mapping : t.decompose c with
      | none =>
        have only : getRecursiveDecompositionFor t form c = [c] := decomposition_unmapped hangul mapping
        rw [only]
        exact single c hangul only
      | some ds =>
        rcases Decidable.em (form.type = .canonical ∧ t.isCompatibility c = true) with kept | goes
        · have only := decomposition_kept hangul kept
          rw [only]
          exact single c hangul only
        · rw [decomposition_mapped hangul mapping goes]
          apply mapped c ds (t.decompose_some c ds mapping)
          intro d part
          have shallower := t.decompose_deep c ds mapping d part
          exact ih (t.depth d) (by omega) d rfl

theorem decomposition_plain (c : Nat) :
    ∀ d ∈ getRecursiveDecompositionFor t form c, isHangulSyllable d = false := by
  induction c using @decomposition_induct t form with
  | syllable c hangul =>
    intro d member
    exact part_plain (mem_decomposeHangul hangul member)
  | single c plain _ => simpa using plain
  | mapped c ds _ ih =>
    intro d member
    obtain ⟨e, part, inside⟩ := List.mem_flatMap.mp member
    exact ih e part d inside

theorem decomposition_final (c : Nat) : ∀ d ∈ getRecursiveDecompositionFor t form c,
    getRecursiveDecompositionFor t form d = [d] := by
  induction c using @decomposition_induct t form with
  | syllable c hangul =>
    intro d member
    have part := mem_decomposeHangul hangul member
    exact decomposition_unmapped (part_plain part) (t.hangul d part).2
  | single c _ only => simpa using only
  | mapped c ds _ ih =>
    intro d member
    obtain ⟨e, part, inside⟩ := List.mem_flatMap.mp member
    exact ih e part d inside

theorem decomposition_ne_nil (t : PropertyTable) (form : NormalizationForm) (c : Nat) :
    getRecursiveDecompositionFor t form c ≠ [] := by
  induction c using @decomposition_induct t form with
  | syllable c _ =>
    unfold decomposeHangul
    simp only
    split <;> simp
  | single c _ _ => simp
  | mapped c ds some ih =>
    obtain ⟨e, es, rfl⟩ := List.exists_cons_of_ne_nil some
    simp [fullDecomposition, ih e]

theorem flush_few (few : b.length ≤ 1) : flush t r b = some (r ++ b) := by
  unfold flush destructiveStableSortBy stableSort
  simp [few]

theorem flush_many (many : 2 ≤ b.length) : flush t r b = none := by
  unfold flush destructiveStableSortBy
  simp only [if_neg (by omega : ¬ b.length ≤ 1)]
  cases stableSort (fun a b => decide (t.combiningClass a ≤ t.combiningClass b)) (b.length + 1) b 0
    (b.length - 1) <;> rfl

/-- The rest of `decomposeForForm:`, from what has been written and the buffer. -/
def finish (t : PropertyTable) (form : NormalizationForm) (r b cs : List Nat) :
    Option (List Nat) := do
  let (result, buffer) ← cs.foldlM (decomposeStep t form) (r, b)
  flush t result buffer

theorem finish_cons (r b : List Nat) (c : Nat) (cs : List Nat) :
    finish t form r b (c :: cs) =
      (decomposeStep t form (r, b) c).bind fun (r, b) => finish t form r b cs := by
  simp only [finish, List.foldlM_cons, Option.bind_eq_bind, Option.bind_assoc]

theorem finish_spec (t : PropertyTable) (form : NormalizationForm) (cs : List Nat) {r b : List Nat} (some : b ≠ []) :
    (b.length = 1 ∧ (∀ c ∈ cs, Plain t form c) →
      finish t form r b cs = .some (r ++ b ++ fullDecomposition t form cs)) ∧
    (¬ (b.length = 1 ∧ ∀ c ∈ cs, Plain t form c) → finish t form r b cs = none) := by
  induction cs generalizing r b with
  | nil =>
    have positive := List.length_pos_of_ne_nil some
    constructor
    · rintro ⟨one, _⟩
      simp [finish, flush_few (Nat.le_of_eq one), fullDecomposition]
    · intro many
      have two : 2 ≤ b.length := by simp at many; omega
      simp [finish, flush_many two]
  | cons c cs ih =>
    have positive := List.length_pos_of_ne_nil some
    obtain ⟨d, ds, full⟩ :=
      List.exists_cons_of_ne_nil (decomposition_ne_nil t form c)
    have filled : getRecursiveDecompositionFor t form c ≠ [] := by simp [full]
    have here : (getRecursiveDecompositionFor t form c).head? = .some d := by simp [full]
    rw [finish_cons]
    rcases Decidable.em (t.combiningClass d = 0) with starter | mark
    · have next := ih (r := r ++ b) filled
      rcases Nat.lt_or_ge b.length 2 with few | many
      · have goes : decomposeStep t form (r, b) c =
            .some (r ++ b, getRecursiveDecompositionFor t form c) := by
          simp only [decomposeStep, here, Option.bind_eq_bind, Option.bind_some, if_pos starter,
            flush_few (by omega : b.length ≤ 1)]
        simp only [goes, Option.bind_some]
        have plain : Plain t form c ↔ (getRecursiveDecompositionFor t form c).length = 1 := by
          rw [Plain, full]
          constructor
          · rintro ⟨e, same, _⟩
            simp [same]
          · intro one
            have none : ds = [] := by simpa using one
            exact ⟨d, by rw [none], starter⟩
        constructor
        · rintro ⟨_, all⟩
          rw [next.1 ⟨plain.mp (all c (List.mem_cons_self ..)),
            fun e later => all e (List.mem_cons_of_mem _ later)⟩]
          simp [fullDecomposition]
        · intro fails
          apply next.2
          rintro ⟨one, all⟩
          apply fails
          refine ⟨by omega, fun e member => ?_⟩
          rcases List.mem_cons.mp member with rfl | later
          · exact plain.mpr one
          · exact all e later
      · have fails : decomposeStep t form (r, b) c = none := by
          simp only [decomposeStep, here, Option.bind_eq_bind, Option.bind_some, if_pos starter,
            flush_many many, Option.bind_none]
        simp only [fails, Option.bind_none]
        exact ⟨fun ⟨one, _⟩ => by omega, fun _ => trivial⟩
    · have goes : decomposeStep t form (r, b) c =
          .some (r, b ++ getRecursiveDecompositionFor t form c) := by
        simp only [decomposeStep, here, Option.bind_eq_bind, Option.bind_some, if_neg mark]
      simp only [goes, Option.bind_some]
      have next := ih (r := r) (b := b ++ getRecursiveDecompositionFor t form c)
        (by simp [full])
      constructor
      · rintro ⟨_, all⟩
        obtain ⟨e, same, zero⟩ := all c (List.mem_cons_self ..)
        rw [full] at same
        cases same
        exact absurd zero mark
      · intro _
        apply next.2
        rintro ⟨one, _⟩
        simp [full] at one
        omega

theorem decompose_cons (c : Nat) (cs : List Nat) :
    decomposeForForm t form (c :: cs) =
      finish t form [] (getRecursiveDecompositionFor t form c) cs := by
  obtain ⟨d, ds, full⟩ :=
    List.exists_cons_of_ne_nil (decomposition_ne_nil t form c)
  have first : decomposeStep t form ([], []) c =
      some ([], getRecursiveDecompositionFor t form c) := by
    simp only [decomposeStep, full, List.head?_cons, Option.bind_eq_bind, Option.bind_some,
      flush_few (by simp : ([] : List Nat).length ≤ 1), List.nil_append]
    split <;> rfl
  simp only [decomposeForForm, List.foldlM_cons, first, Option.bind_eq_bind, Option.bind_some,
    List.cons_ne_nil, if_false, finish]

theorem decompose_spec (t : PropertyTable) (form : NormalizationForm) (s : List Nat) :
    (Settles t form s → decomposeForForm t form s = some (fullDecomposition t form s)) ∧
    (¬ Settles t form s → decomposeForForm t form s = none) := by
  cases s with
  | nil => exact ⟨False.elim, fun _ => rfl⟩
  | cons c cs =>
    have spec := finish_spec t form cs (r := [])
      (decomposition_ne_nil t form c)
    rw [decompose_cons]
    simpa [Settles, fullDecomposition] using spec

theorem canonicalOrder_starters {cls : Nat → Nat} (c : Nat) (cs : List Nat)
    (starters : ∀ d ∈ cs, cls d = 0) : canonicalOrder cls (c :: cs) = c :: cs := by
  induction cs generalizing c with
  | nil => simp [canonicalOrder, List.splitBy, List.splitBy.loop]
  | cons d ds ih =>
    have rest := ih d fun e later => starters e (List.mem_cons_of_mem _ later)
    unfold canonicalOrder at rest ⊢
    rw [← List.singleton_append, List.splitBy_append (by simp [starters d]), List.flatMap_append,
      rest]
    simp [List.splitBy, List.splitBy.loop]

theorem Settles.full (settles : Settles t form s) :
    ∃ d ds, fullDecomposition t form s = d :: ds ∧ ds.length + 1 = s.length ∧
      ∀ e ∈ ds, t.combiningClass e = 0 := by
  cases s with
  | nil => exact settles.elim
  | cons c cs =>
    obtain ⟨one, plain⟩ := settles
    obtain ⟨d, full⟩ := List.length_eq_one_iff.mp one
    refine ⟨d, fullDecomposition t form cs, by simp [fullDecomposition, full], ?_, ?_⟩
    · have lengths : ∀ xs : List Nat, (∀ e ∈ xs, Plain t form e) →
          (fullDecomposition t form xs).length = xs.length := by
        intro xs all
        induction xs with
        | nil => rfl
        | cons x xs ih =>
          obtain ⟨y, same, _⟩ := all x (List.mem_cons_self ..)
          have rest := ih fun e later => all e (List.mem_cons_of_mem _ later)
          unfold fullDecomposition at rest
          simp [fullDecomposition, same, rest]
      simp [lengths cs plain]
    · intro e member
      obtain ⟨x, inside, here⟩ := List.mem_flatMap.mp member
      obtain ⟨y, same, starter⟩ := plain x inside
      rw [same, List.mem_singleton] at here
      rw [here, starter]

theorem Settles.again (settles : Settles t form s) :
    Settles t form (fullDecomposition t form s) ∧
      fullDecomposition t form (fullDecomposition t form s) = fullDecomposition t form s := by
  have final : ∀ e ∈ fullDecomposition t form s, getRecursiveDecompositionFor t form e = [e] := by
    intro e member
    obtain ⟨x, _, here⟩ := List.mem_flatMap.mp member
    exact decomposition_final x e here
  obtain ⟨d, ds, all, _, starters⟩ := settles.full
  constructor
  · rw [all] at final ⊢
    refine ⟨by simp [final d], fun e later => ⟨e, final e (List.mem_cons_of_mem _ later), ?_⟩⟩
    exact starters e later
  · have same : ∀ xs : List Nat, (∀ e ∈ xs, getRecursiveDecompositionFor t form e = [e]) →
        fullDecomposition t form xs = xs := by
      intro xs ends
      induction xs with
      | nil => rfl
      | cons x xs ih =>
        have rest := ih fun e later => ends e (List.mem_cons_of_mem _ later)
        unfold fullDecomposition at rest
        simp [fullDecomposition, ends x, rest]
    exact same _ final

/-- Decomposition does what it is for exactly on the strings of which the sort never gets two
characters at a time. -/
theorem decomposes_iff (t : PropertyTable) (form : NormalizationForm) (s : List Nat) :
    Decomposes t form s ↔ Settles t form s := by
  constructor
  · rintro ⟨answered, _⟩
    by_contra fails
    rw [(decompose_spec t form s).2 fails] at answered
    cases answered
  · intro settles
    obtain ⟨d, ds, all, _, starters⟩ := settles.full
    have ordered : canonicalOrder t.combiningClass (fullDecomposition t form s) =
        fullDecomposition t form s := by
      rw [all, canonicalOrder_starters d ds starters]
    obtain ⟨again, same⟩ := settles.again
    have second := (decompose_spec t form _).1 again
    rw [same] at second
    unfold Decomposes
    rw [ordered]
    exact ⟨(decompose_spec t form s).1 settles, second⟩

def accented : PropertyTable where
  combiningClass c := if c = 0x301 then 230 else 0
  decompose c := if c = 0xE9 then some [0x65, 0x301] else none
  isCompatibility _ := false
  compositions c c2 := if c = 0x65 ∧ c2 = 0x301 then some 0xE9 else none
  depth c := if c = 0xE9 then 1 else 0
  decompose_some := by
    intro c ds mapping
    split at mapping
    · cases mapping
      exact List.cons_ne_nil _ _
    · cases mapping
  decompose_deep := by
    intro c ds mapping d member
    split at mapping
    · cases mapping
      have part : d = 0x65 ∨ d = 0x301 := by simpa using member
      rw [if_pos ‹c = 0xE9›, if_neg (by omega)]
      exact Nat.one_pos
    · cases mapping
  hangul := by
    intro c part
    simp only [isHangulL, isHangulV, isHangulT, Bool.and_eq_true, decide_eq_true_eq] at part
    rw [if_neg (by omega), if_neg (by omega)]
    exact ⟨rfl, rfl⟩
  compositions_plain := by
    intro c c2 r composed
    split at composed
    · cases composed
      rfl
    · cases composed

theorem accented_full : getRecursiveDecompositionFor accented form 0xE9 = [0x65, 0x301] := by
  have letter : getRecursiveDecompositionFor accented form 0x65 = [0x65] :=
    decomposition_unmapped rfl rfl
  have accent : getRecursiveDecompositionFor accented form 0x301 = [0x301] :=
    decomposition_unmapped rfl rfl
  rw [@decomposition_mapped accented form 0xE9 [0x65, 0x301] rfl rfl (by simp [accented])]
  simp [fullDecomposition, letter, accent]

/-- The accented letter leaves two characters in the buffer: their sort answers Nil. -/
theorem accented_not_decomposed :
    ¬ ∀ (t : PropertyTable) (form : NormalizationForm) (s : List Nat), Decomposes t form s := by
  intro decomposes
  obtain ⟨answered, _⟩ := decomposes accented nfd [0xE9]
  have fails : ¬ Settles accented nfd [0xE9] := by simp [Settles, accented_full]
  rw [(decompose_spec accented nfd [0xE9]).2 fails] at answered
  cases answered

end SlateVm.Normalization
