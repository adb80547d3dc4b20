import SlateVm.Text.Decompose

/-! Composition beside its purpose: what NFC makes of a string has the decomposition of the
string, and Hangul syllables are what their parts compose to. -/
namespace SlateVm.Normalization

variable {t : PropertyTable} {s ds : List Nat} {d : Nat}

/-- NFC, NFD and their interplay on a string: NFC keeps the canonical decomposition, and
normalizes nothing further the second time. -/
def PreservesEquivalence (t : PropertyTable) (s : List Nat) : Prop :=
  ∃ composed decomposed, normalizeTo t nfc s = some composed ∧
    normalizeTo t nfd s = some decomposed ∧ normalizeTo t nfd composed = some decomposed ∧
    normalizeTo t nfc composed = some composed

/-- The strings of starters, one mark possibly in front of them, in which no two neighbours
compose. -/
def Apart (t : PropertyTable) : List Nat → Prop
  | [] => True
  | [_] => True
  | d :: e :: ds => (t.combiningClass d = 0 → composeWith t d e = none) ∧ Apart t (e :: ds)

/-- The strings on which the sort never gets two characters at a time and whose full
decomposition is its own composition. -/
def Stays (t : PropertyTable) (s : List Nat) : Prop :=
  Settles t nfd s ∧ Apart t (fullDecomposition t nfd s)

theorem decomposition_type (form form' : NormalizationForm) (same : form.type = form'.type)
    (n : Nat) (c : Nat) (deep : t.depth c ≤ n) :
    getRecursiveDecompositionFor t form c = getRecursiveDecompositionFor t form' c := by
  induction n using Nat.strongRecOn generalizing c with
  | _ n ih =>
    cases syllable : isHangulSyllable c with
    | true => rw [getRecursiveDecompositionFor, getRecursiveDecompositionFor, if_pos syllable,
        if_pos syllable]
    | false =>
      cases mapping : t.decompose c with
      | none => rw [decomposition_unmapped syllable mapping, decomposition_unmapped syllable mapping]
      | some ds =>
        rcases Decidable.em (form.type = .canonical ∧ t.isCompatibility c = true) with kept | goes
        · rw [decomposition_kept syllable kept, decomposition_kept syllable (same ▸ kept)]
        · rw [decomposition_mapped syllable mapping goes,
            decomposition_mapped syllable mapping (same ▸ goes)]
          apply List.flatMap_congr
          intro e part
          have shallower := t.decompose_deep c ds mapping e part
          exact ih (t.depth e) (by omega) e (Nat.le_refl _)

theorem step_bounds (m : Composing) (ch : Nat) {j : Nat} (behind : m.compPos ≤ j)
    (start : m.starterPos < j) : (m.step t ch).s.drop (j + 1) = m.s.drop (j + 1) ∧
      (m.step t ch).compPos ≤ m.compPos + 1 ∧ (m.step t ch).starterPos < j + 1 := by
  have kept : (m.keep t ch).s.drop (j + 1) = m.s.drop (j + 1) ∧
      (m.keep t ch).compPos ≤ m.compPos + 1 ∧ (m.keep t ch).starterPos < j + 1 := by
    unfold Composing.keep
    split
    · exact ⟨List.drop_set_of_lt (Nat.lt_succ_of_le behind), Nat.le_refl _, by simp only; omega⟩
    · exact ⟨List.drop_set_of_lt (Nat.lt_succ_of_le behind), Nat.le_refl _, by simp only; omega⟩
  unfold Composing.step
  split
  · exact kept
  · split
    · exact ⟨List.drop_set_of_lt (Nat.lt_succ_of_lt start), by simp only; omega,
        by simp only; omega⟩
    · exact kept

theorem composeFrom_reads (cs : List Nat) (m : Composing) {j : Nat} (rest : m.s.drop j = cs)
    (behind : m.compPos ≤ j) (start : m.starterPos < j) :
    composeFrom t ((List.range cs.length).map (j + ·)) m =
      some (cs.foldl (Composing.step t) m) := by
  induction cs generalizing m j with
  | nil => rfl
  | cons c cs ih =>
    have here : m.s[j]? = some c := by
      rw [← List.head?_drop, rest]
      rfl
    obtain ⟨same, place, starter⟩ := step_bounds (t := t) m c behind start
    have left : m.s.drop (j + 1) = cs := by
      rw [← List.tail_drop, rest]
      rfl
    have next := ih (m.step t c) (same.trans left) (by omega) starter
    unfold composeFrom at next ⊢
    rw [List.length_cons, List.range_succ_eq_map, List.map_cons, List.map_map, List.foldlM_cons]
    simp only [Nat.add_zero, here, Option.bind_eq_bind, Option.bind_some, List.foldl_cons]
    rw [← next]
    congr 2
    funext k
    simp only [Function.comp_apply]
    omega

theorem compPos_le (cs : List Nat) (m : Composing) :
    (cs.foldl (Composing.step t) m).compPos ≤ m.compPos + cs.length := by
  induction cs generalizing m with
  | nil => exact Nat.le_refl _
  | cons c cs ih =>
    have one : (m.step t c).compPos ≤ m.compPos + 1 :=
      (step_bounds m c (j := m.compPos + m.starterPos + 1) (by omega) (by omega)).2.1
    have rest := ih (m.step t c)
    simp only [List.foldl_cons, List.length_cons]
    omega

theorem set_same {m : List Nat} {i : Nat} {c : Nat} (here : m[i]? = some c) : m.set i c = m := by
  apply List.ext_getElem?
  intro j
  rw [List.getElem?_set]
  split
  · rename_i same
    subst same
    have inside := (List.getElem?_eq_some_iff.mp here).1
    rw [if_pos inside, here]
  · rfl

theorem keep_starter {m : Composing} {e : Nat} (starter : t.combiningClass e = 0)
    (here : m.s[m.compPos]? = some e) :
    m.keep t e = ⟨m.s, m.compPos, m.compPos + 1, e, 0⟩ := by
  unfold Composing.keep
  simp only [starter, if_true, set_same here]

theorem step_kept {m : Composing} {e : Nat} (here : m.s[m.compPos]? = some e)
    (starter : t.combiningClass e = 0) (plain : isHangulSyllable d = false) (last : m.starterCh = d)
    (class_ : m.lastClass = if t.combiningClass d = 0 then 0 else 256)
    (apart : t.combiningClass d = 0 → composeWith t d e = none) :
    m.step t e = ⟨m.s, m.compPos, m.compPos + 1, e, 0⟩ := by
  rw [← keep_starter starter here]
  unfold Composing.step
  rw [last]
  cases composed : composeWith t d e with
  | none => rfl
  | some composite =>
    have mark : t.combiningClass d ≠ 0 := fun zero => by simp [apart zero] at composed
    have other : isHangulLV composite = false := by
      have not_part : isHangulL d = false := by
        by_contra part
        exact mark (t.hangul d (.inl (by simpa using part))).1
      simp only [composeWith, not_part, Bool.false_and, Bool.false_eq_true, if_false,
        isHangulLV, plain] at composed
      simp [isHangulLV, t.compositions_plain d e composite composed]
    rw [if_neg mark] at class_
    simp [composes, class_, starter, other]

theorem step_composed {m : Composing} {e composite : Nat}
    (last : m.starterCh = d) (class_ : m.lastClass = 0)
    (composed : composeWith t d e = some composite) :
    m.step t e = { m with s := m.s.set m.starterPos composite, starterCh := composite } := by
  unfold Composing.step
  rw [last, composed]
  simp [composes, class_]

theorem compose_starters (ds : List Nat) (m : Composing) (rest : m.s.drop m.compPos = ds)
    (starters : ∀ e ∈ ds, t.combiningClass e = 0) (plain : isHangulSyllable d = false)
    (plains : ∀ e ∈ ds, isHangulSyllable e = false) (last : m.starterCh = d)
    (class_ : m.lastClass = if t.combiningClass d = 0 then 0 else 256) :
    (Apart t (d :: ds) → (ds.foldl (Composing.step t) m).s = m.s ∧
      (ds.foldl (Composing.step t) m).compPos = m.compPos + ds.length) ∧
    (¬ Apart t (d :: ds) →
      (ds.foldl (Composing.step t) m).compPos < m.compPos + ds.length) := by
  induction ds generalizing m d with
  | nil => exact ⟨fun _ => ⟨rfl, rfl⟩, fun fails => absurd trivial fails⟩
  | cons e es ih =>
    have starter := starters e (List.mem_cons_self ..)
    have here : m.s[m.compPos]? = some e := by
      rw [← List.head?_drop, rest]
      rfl
    have left : m.s.drop (m.compPos + 1) = es := by
      rw [← List.tail_drop, rest]
      rfl
    have kept : m.step t e = ⟨m.s, m.compPos, m.compPos + 1, e, 0⟩ → _ := fun _ =>
      ih (d := e) ⟨m.s, m.compPos, m.compPos + 1, e, 0⟩ left
        (fun x later => starters x (List.mem_cons_of_mem _ later))
        (plains e (List.mem_cons_self ..))
        (fun x later => plains x (List.mem_cons_of_mem _ later)) rfl (by rw [if_pos starter])
    simp only [List.foldl_cons, List.length_cons]
    rcases Decidable.em (t.combiningClass d = 0 → composeWith t d e = none) with apart | meets
    · have goes := step_kept here starter plain last class_ apart
      obtain ⟨stays, shortens⟩ := kept goes
      rw [goes]
      simp only at stays shortens
      constructor
      · rintro ⟨_, rest⟩
        obtain ⟨same, place⟩ := stays rest
        exact ⟨same, by omega⟩
      · intro fails
        have less := shortens fun rest => fails ⟨apart, rest⟩
        omega
    · have zero : t.combiningClass d = 0 := by
        by_contra mark
        exact meets fun zero => absurd zero mark
      obtain ⟨composite, composed⟩ :=
        Option.ne_none_iff_exists'.mp fun none => meets fun _ => none
      have goes := step_composed last (by rw [class_, if_pos zero]) composed
      have bound := compPos_le (t := t) es
        { m with s := m.s.set m.starterPos composite, starterCh := composite }
      rw [goes]
      constructor
      · rintro ⟨apart, _⟩
        exact absurd apart meets
      · intro _
        simp only at bound
        omega

theorem compose_spec (plains : ∀ e ∈ d :: ds, isHangulSyllable e = false)
    (starters : ∀ e ∈ ds, t.combiningClass e = 0) :
    (Apart t (d :: ds) → composeForForm t (d :: ds) = some (d :: ds)) ∧
    (¬ Apart t (d :: ds) →
      ∃ r, composeForForm t (d :: ds) = some r ∧ r.length < (d :: ds).length) := by
  have plain := plains d (List.mem_cons_self ..)
  have later : ∀ e ∈ ds, isHangulSyllable e = false :=
    fun e member => plains e (List.mem_cons_of_mem _ member)
  obtain ⟨stays, shortens⟩ := compose_starters ds
    ⟨d :: ds, 0, 1, d, if t.combiningClass d = 0 then 0 else 256⟩ rfl starters plain later rfl rfl
  have reads := composeFrom_reads (t := t) ds
    ⟨d :: ds, 0, 1, d, if t.combiningClass d = 0 then 0 else 256⟩ (j := 1) rfl (Nat.le_refl _)
    Nat.one_pos
  have run : composeForForm t (d :: ds) = some ((ds.foldl (Composing.step t)
      ⟨d :: ds, 0, 1, d, if t.combiningClass d = 0 then 0 else 256⟩).s.take
      (ds.foldl (Composing.step t)
        ⟨d :: ds, 0, 1, d, if t.combiningClass d = 0 then 0 else 256⟩).compPos) := by
    simp only [composeForForm, List.head?_cons, Option.bind_eq_bind, Option.bind_some,
      List.length_cons, Nat.add_sub_cancel, reads]
  constructor
  · intro apart
    obtain ⟨same, place⟩ := stays apart
    rw [run, same, place]
    have whole : (d :: ds).length ≤ 1 + ds.length := by
      rw [List.length_cons, Nat.add_comm]
    simp only [List.take_of_length_le whole]
  · intro meets
    have less := shortens meets
    refine ⟨_, run, ?_⟩
    simp only [List.length_take, List.length_cons]
    simp only at less
    omega

theorem full_plain {form : NormalizationForm} {e : Nat}
    (member : e ∈ fullDecomposition t form s) : isHangulSyllable e = false := by
  obtain ⟨c, _, inside⟩ := List.mem_flatMap.mp member
  exact decomposition_plain c e inside

theorem decompose_nfc (s : List Nat) : decomposeForForm t nfc s = decomposeForForm t nfd s := by
  have steps : decomposeStep t nfc = decomposeStep t nfd := by
    funext state each
    unfold decomposeStep
    rw [decomposition_type nfc nfd rfl (t.depth each) each (Nat.le_refl _)]
  unfold decomposeForForm
  rw [steps]

theorem preserves_iff (s : List Nat) : PreservesEquivalence t s ↔ Stays t s := by
  have first : ∀ s, normalizeTo t nfc s = (decomposeForForm t nfd s).bind (composeForForm t) := by
    intro s
    unfold normalizeTo
    rw [decompose_nfc]
    rfl
  have second : ∀ s, normalizeTo t nfd s = decomposeForForm t nfd s := by
    intro s
    simp [normalizeTo, nfd]
  constructor
  · rintro ⟨composed, decomposed, run, full, again, _⟩
    rw [second] at full again
    rw [first, full, Option.bind_some] at run
    have settles : Settles t nfd s := by
      by_contra fails
      rw [(decompose_spec t nfd s).2 fails] at full
      cases full
    have settled : Settles t nfd composed := by
      by_contra fails
      rw [(decompose_spec t nfd composed).2 fails] at again
      cases again
    rw [(decompose_spec t nfd s).1 settles] at full
    rw [(decompose_spec t nfd composed).1 settled] at again
    cases full
    refine ⟨settles, ?_⟩
    by_contra meets
    obtain ⟨d, ds, all, _, starters⟩ := settles.full
    obtain ⟨e, es, alike, length, _⟩ := settled.full
    have plains : ∀ e ∈ d :: ds, isHangulSyllable e = false := fun e member =>
      full_plain (all ▸ member)
    rw [all] at run meets again
    obtain ⟨r, shorter, less⟩ := (compose_spec plains starters).2 meets
    cases run.symm.trans shorter
    rw [alike] at again
    cases again
    simp only [List.length_cons] at less
    omega
  · rintro ⟨settles, apart⟩
    obtain ⟨d, ds, all, _, starters⟩ := settles.full
    obtain ⟨again, same⟩ := settles.again
    have plains : ∀ e ∈ d :: ds, isHangulSyllable e = false := fun e member =>
      full_plain (all ▸ member)
    have full := (decompose_spec t nfd s).1 settles
    have twice := (decompose_spec t nfd _).1 again
    rw [same] at twice
    have composed : composeForForm t (fullDecomposition t nfd s) =
        some (fullDecomposition t nfd s) := by
      rw [all] at apart ⊢
      exact (compose_spec plains starters).1 apart
    refine ⟨fullDecomposition t nfd s, fullDecomposition t nfd s, ?_, ?_, ?_, ?_⟩
    · rw [first, full, Option.bind_some, composed]
    · rw [second, full]
    · rw [second, twice]
    · rw [first, twice, Option.bind_some, composed]

theorem composed_next {m : Composing} {e composite : Nat} (class_ : m.lastClass = 0)
    (composed : composeWith t m.starterCh e = some composite) :
    m.step t e = { m with s := m.s.set m.starterPos composite, starterCh := composite } :=
  step_composed rfl class_ composed

theorem syllable_parts {c : Nat} (syllable : isHangulSyllable c = true) :
    ∃ l v k, l < 19 ∧ v < 21 ∧ k < 28 ∧ c = SBase + (l * 21 + v) * 28 + k ∧
      decomposeHangul c = if k = 0 then [LBase + l, VBase + v]
        else [LBase + l, VBase + v, TBase + k] := by
  simp only [isHangulSyllable, Bool.and_eq_true, decide_eq_true_eq] at syllable
  refine ⟨(c - SBase) / 588, (c - SBase) % 588 / 28, (c - SBase) % 28, ?_, ?_, ?_, ?_, ?_⟩
  · unfold SBase
    omega
  · omega
  · omega
  · unfold SBase
    omega
  · unfold decomposeHangul NCount VCount TCount
    simp only
    rcases Nat.eq_zero_or_pos ((c - SBase) % 28) with zero | some
    · rw [if_neg (by omega), if_pos zero]
    · rw [if_pos (by omega), if_neg (by omega)]

theorem part_L {l : Nat} (hl : l < 19) : isHangulL (LBase + l) = true := by
  unfold isHangulL LBase
  rw [Bool.and_eq_true, decide_eq_true_eq, decide_eq_true_eq]
  omega

theorem composeWith_LV {l v : Nat} (hl : l < 19) (hv : v < 21) :
    composeWith t (LBase + l) (VBase + v) = some (SBase + (l * 21 + v) * 28) := by
  have second : isHangulV (VBase + v) = true := by
    unfold isHangulV VBase
    rw [Bool.and_eq_true, decide_eq_true_eq, decide_eq_true_eq]
    omega
  unfold composeWith
  rw [part_L hl, second, Nat.add_sub_cancel_left, Nat.add_sub_cancel_left, Nat.add_comm SBase]
  rfl

theorem composeWith_LVT {l v k : Nat} (hl : l < 19) (hv : v < 21) (hk : k < 28) :
    composeWith t (SBase + (l * 21 + v) * 28) (TBase + k) =
      some (SBase + (l * 21 + v) * 28 + k) := by
  have other : isHangulL (SBase + (l * 21 + v) * 28) = false := by
    unfold isHangulL SBase
    rw [Bool.and_eq_false_iff, decide_eq_false_iff_not, decide_eq_false_iff_not]
    omega
  have first : isHangulLV (SBase + (l * 21 + v) * 28) = true := by
    unfold isHangulLV isHangulSyllable SBase TCount
    rw [Bool.and_eq_true, Bool.and_eq_true, decide_eq_true_eq, decide_eq_true_eq, beq_iff_eq]
    omega
  have second : isHangulT (TBase + k) = true := by
    unfold isHangulT TBase
    rw [Bool.and_eq_true, decide_eq_true_eq, decide_eq_true_eq]
    omega
  unfold composeWith
  rw [other, first, second]
  simp only [Bool.false_and, Bool.false_eq_true, if_false, Bool.and_self, if_true]
  rw [← Nat.add_assoc, Nat.add_right_comm, Nat.add_sub_cancel]

theorem compose_syllable {c : Nat} (syllable : isHangulSyllable c = true) :
    composeForForm t (decomposeHangul c) = some [c] := by
  obtain ⟨l, v, k, hl, hv, hk, same, parts⟩ := syllable_parts syllable
  have zero : t.combiningClass (LBase + l) = 0 := (t.hangul _ (.inl (part_L hl))).1
  have first := composeWith_LV (t := t) hl hv
  have second := composeWith_LVT (t := t) hl hv hk
  rw [parts]
  split
  · rename_i none
    simp [composeForForm, composeFrom, List.range_succ, zero, composed_next, first]
    omega
  · simp [composeForForm, composeFrom, List.range_succ, zero, composed_next, first, second, same]

end SlateVm.Normalization
