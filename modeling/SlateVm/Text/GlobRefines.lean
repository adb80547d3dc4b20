import SlateVm.Text.Glob

/-! Matching a string with a mask, beside the mask's language. -/
namespace SlateVm.Glob

open Collections Language

variable {str prev : List Char} {parts before rest : List Part}
  {components : List PatternComponent} {l : Language Char} {pos p : Nat}

inductive Stands : List PatternComponent → Language Char → Prop where
  | nil : Stands [] 1
  | literal (string : List Char) {components : List PatternComponent} {l : Language Char} :
    Stands components l → Stands (.literal string :: components) ({string} * l)
  | any {components : List PatternComponent} {l : Language Char} :
    Stands components l → Stands (.any :: components) (⊤ * l)
  | anyOne {components : List PatternComponent} {l : Language Char} :
    Stands components l → Stands (.anyOne :: components) (letter (fun _ => True) * l)

section Reading

theorem languageOf_cons (part : Part) (parts : List Part) :
    languageOf (part :: parts) = part.language * languageOf parts := List.prod_cons

theorem Stands.append {others : List PatternComponent} {m : Language Char}
    (first : Stands components l) (second : Stands others m) :
    Stands (components ++ others) (l * m) := by
  induction first with
  | nil => rwa [one_mul]
  | literal string _ ih => rw [mul_assoc]; exact ih.literal string
  | any _ ih => rw [mul_assoc]; exact ih.any
  | anyOne _ ih => rw [mul_assoc]; exact ih.anyOne

theorem stands_literal (prev : List Char) : Stands (putLiteral [] prev) {prev} := by
  unfold putLiteral
  split
  · next none_ =>
    rw [List.isEmpty_iff.mp none_, word_nil]
    exact .nil
  · have stands := Stands.nil.literal prev
    rwa [mul_one] at stands

theorem componentsOf_append (plain : ∀ part ∈ before, ¬ part.IsRange) (prev : List Char) :
    ∃ first last m, Stands first m ∧ m * {last} = {prev} * languageOf before ∧
      ∀ rest, componentsOf (before ++ rest) prev = (componentsOf rest last).map (first ++ ·) := by
  induction before generalizing prev with
  | nil =>
    refine ⟨[], prev, 1, .nil, ?_, ?_⟩
    · rw [languageOf, List.map_nil, List.prod_nil, one_mul, mul_one]
    · intro rest
      simp
  | cons part before ih =>
    have others : ∀ part ∈ before, ¬ part.IsRange := fun other mem =>
      plain other (List.mem_cons_of_mem part mem)
    cases part with
    | literal c =>
      obtain ⟨first, last, m, stands, same, run⟩ := ih others (prev ++ [c])
      refine ⟨first, last, m, stands, ?_, run⟩
      rw [same, languageOf_cons, Part.language, ← mul_assoc, word_mul]
    | any =>
      obtain ⟨first, last, m, stands, same, run⟩ := ih others []
      refine ⟨_, last, _, (stands_literal prev).append stands.any, ?_, ?_⟩
      · rw [mul_assoc, mul_assoc, same, word_nil, one_mul, languageOf_cons, Part.language]
      · intro rest
        rw [List.cons_append, componentsOf, run, Option.map_map]
        congr 1
        funext more
        simp
    | anyOne =>
      obtain ⟨first, last, m, stands, same, run⟩ := ih others []
      refine ⟨_, last, _, (stands_literal prev).append stands.anyOne, ?_, ?_⟩
      · rw [mul_assoc, mul_assoc, same, word_nil, one_mul, languageOf_cons, Part.language]
      · intro rest
        rw [List.cons_append, componentsOf, run, Option.map_map]
        congr 1
        funext more
        simp
    | range inside => exact absurd trivial (plain (.range inside) List.mem_cons_self)

theorem componentsOf_stands (plain : ∀ part ∈ parts, ¬ part.IsRange) :
    ∃ components, componentsOf parts [] = some components ∧
      Stands components (languageOf parts) := by
  obtain ⟨first, last, m, stands, same, run⟩ := componentsOf_append plain []
  have all := run []
  rw [List.append_nil] at all
  refine ⟨_, all, ?_⟩
  rw [← one_mul (languageOf parts), ← word_nil, ← same]
  exact stands.append (stands_literal last)

theorem componentsOf_iff (parts : List Part) (prev : List Char) :
    (componentsOf parts prev).isSome ↔ ∀ part ∈ parts, part.EndsInPair := by
  induction parts generalizing prev with
  | nil => simp [componentsOf]
  | cons part parts ih =>
    rw [List.forall_mem_cons]
    cases part with
    | literal c =>
      rw [componentsOf, ih]
      exact (and_iff_right trivial).symm
    | any =>
      rw [componentsOf, Option.isSome_map, ih]
      exact (and_iff_right trivial).symm
    | anyOne =>
      rw [componentsOf, Option.isSome_map, ih]
      exact (and_iff_right trivial).symm
    | range inside =>
      rw [← readRange_iff, ← ih [], componentsOf]
      cases readRange inside with
      | none => simp
      | some r => simp

theorem componentsOf_range (plain : ∀ part ∈ before, ¬ part.IsRange) {inside : List Char}
    (reads : ∀ part ∈ before ++ .range inside :: rest, part.EndsInPair) :
    ∃ first r more, componentsOf (before ++ .range inside :: rest) [] =
      some (first ++ .range r :: more) ∧ Stands first (languageOf before) := by
  obtain ⟨first, last, m, stands, same, run⟩ := componentsOf_append plain []
  have here := reads (.range inside) (List.mem_append_right before List.mem_cons_self)
  obtain ⟨r, range⟩ := Option.isSome_iff_exists.mp ((readRange_iff inside).mpr here)
  obtain ⟨more, others⟩ := Option.isSome_iff_exists.mp <| (componentsOf_iff rest []).mpr
    fun part mem => reads part (List.mem_append_right before (List.mem_cons_of_mem _ mem))
  refine ⟨first ++ putLiteral [] last, r, more, ?_, ?_⟩
  · rw [run, componentsOf, range, List.append_assoc]
    simp only [Option.bind_eq_bind, Option.bind_some, others, Option.map_some]
  · rw [← one_mul (languageOf before), ← word_nil, ← same]
    exact stands.append (stands_literal last)

end Reading

section Matching

theorem matchLiteral_spans (string str : List Char) (pos : Nat) :
    ∃ result, matchLiteral string str pos = some result ∧
      ∀ p, Spans {string} str pos p ↔ result = .position p := by
  unfold matchLiteral
  split
  · next long =>
    refine ⟨_, rfl, ?_⟩
    intro p
    rw [spans_word]
    constructor
    · rintro ⟨rfl, inside, _⟩
      omega
    · nofun
  · next fits =>
    rw [copyFrom_within (Nat.le_add_right _ _) (by omega), Nat.add_sub_cancel_left]
    refine ⟨_, rfl, ?_⟩
    intro p
    rw [spans_word]
    split
    · next same =>
      rw [Match.position.injEq]
      constructor
      · rintro ⟨rfl, _, _⟩
        rfl
      · rintro rfl
        exact ⟨rfl, by omega, same⟩
    · next other =>
      constructor
      · rintro ⟨_, _, same⟩
        exact absurd same other
      · nofun

theorem matchAnyOne_spans (str : List Char) (pos : Nat) :
    ∃ result, matchAnyOne str pos = some result ∧
      ∀ p, Spans (letter fun _ => True) str pos p ↔ result = .position p := by
  refine ⟨_, rfl, ?_⟩
  intro p
  rw [spans_letter]
  split
  · next past =>
    rw [List.getElem?_eq_none past]
    constructor
    · rintro ⟨_, _, nothing, _⟩
      cases nothing
    · nofun
  · next inside =>
    rw [List.getElem?_eq_getElem (by omega), Match.position.injEq]
    constructor
    · rintro ⟨rfl, _⟩
      rfl
    · rintro rfl
      exact ⟨rfl, _, rfl, trivial⟩

theorem matchRange_signals (r : PatternRange) (str : List Char) (pos : Nat) :
    matchRange r str pos = if pos < str.length then none else some .failure := by
  rw [matchRange, PatternRange.condition]
  split
  · next past =>
    rw [if_neg (by omega)]
    rfl
  · next inside =>
    rw [if_pos (by omega), List.getElem?_eq_getElem (by omega)]
    simp only [Option.bind_eq_bind, Option.bind_some]
    cases detect str[pos] r.ranges <;> rfl

/-- What a run tells: it signals where `S` holds, and otherwise answers whether `W` does. -/
structure Tells {β : Type} (yes : β) (outcome : Option β) (S W : Prop) : Prop where
  signals : S → outcome = none
  answers : ¬ S → ∃ result, outcome = some result ∧ (result = yes ↔ W)

theorem Tells.congr {β : Type} {yes : β} {outcome : Option β} {S S' W W' : Prop}
    (tells : Tells yes outcome S W) (signals : S ↔ S') (reaches : W ↔ W') :
    Tells yes outcome S' W' := by
  rw [← signals, ← reaches]
  exact tells

theorem Tells.anyM {js : List Int} {test : Int → Option Bool} {S W : Int → Prop}
    (tells : ∀ j ∈ js, Tells true (test j) (S j) (W j)) (apart : ∀ j k, S j → ¬ W k) :
    Tells true (js.anyM test) (∃ j ∈ js, S j) (∃ j ∈ js, W j) := by
  induction js with
  | nil => exact ⟨fun ⟨_, mem, _⟩ => (nomatch mem), fun _ => ⟨false, rfl, by simp⟩⟩
  | cons j js ih =>
    have here := tells j List.mem_cons_self
    have rest := ih fun k mem => tells k (List.mem_cons_of_mem j mem)
    rw [List.anyM_cons]
    constructor
    · rintro ⟨k, mem, signals⟩
      rcases Classical.em (S j) with now | later
      · rw [here.signals now]
        rfl
      · obtain ⟨b, run, no⟩ := here.answers later
        have fails : b = false := Bool.eq_false_iff.mpr fun yes => apart k j signals (no.mp yes)
        rcases List.mem_cons.mp mem with rfl | mem
        · exact absurd signals later
        · rw [run, fails]
          exact rest.signals ⟨k, mem, signals⟩
    · intro quiet
      obtain ⟨b, run, first⟩ := here.answers fun signals => quiet ⟨j, List.mem_cons_self, signals⟩
      obtain ⟨b', run', others⟩ := rest.answers fun ⟨k, mem, signals⟩ =>
        quiet ⟨k, List.mem_cons_of_mem j mem, signals⟩
      rw [run]
      cases b with
      | true => exact ⟨true, rfl, iff_of_true rfl ⟨j, List.mem_cons_self, first.mp rfl⟩⟩
      | false =>
        refine ⟨b', run', others.trans ?_⟩
        constructor
        · rintro ⟨k, mem, reaches⟩
          exact ⟨k, List.mem_cons_of_mem j mem, reaches⟩
        · rintro ⟨k, mem, reaches⟩
          rcases List.mem_cons.mp mem with rfl | mem
          · exact absurd (first.mpr reaches) Bool.false_ne_true
          · exact ⟨k, mem, reaches⟩

section Tail

variable {S W : Nat → Prop}

theorem tells_after {m : Language Char} {f : Nat → Option Match} {result : Match}
    (spans : ∀ p, Spans m str pos p ↔ result = .position p)
    (tail : ∀ p ≤ str.length, Tells (.position str.length) (f p)
      (∃ q, Spans l str p q ∧ S q) (∃ q, Spans l str p q ∧ W q)) :
    Tells (.position str.length) (result.after f) (∃ q, Spans (m * l) str pos q ∧ S q)
      (∃ q, Spans (m * l) str pos q ∧ W q) := by
  have through (P : Nat → Prop) : (∃ q, Spans (m * l) str pos q ∧ P q) ↔
      ∃ p, result = .position p ∧ ∃ q, Spans l str p q ∧ P q := by
    constructor
    · rintro ⟨q, span, holds⟩
      obtain ⟨p, first, second⟩ := spans_mul.mp span
      exact ⟨p, (spans p).mp first, q, second, holds⟩
    · rintro ⟨p, here, q, second, holds⟩
      exact ⟨q, spans_mul.mpr ⟨p, (spans p).mpr here, second⟩, holds⟩
  rw [through, through]
  cases result with
  | failure => exact ⟨fun ⟨_, there, _⟩ => (nomatch there), fun _ => ⟨_, rfl, by simp⟩⟩
  | position p =>
    refine (tail p ((spans p).mpr rfl).within).congr ?_ ?_
    · exact ⟨fun holds => ⟨p, rfl, holds⟩, fun ⟨_, rfl, holds⟩ => holds⟩
    · exact ⟨fun holds => ⟨p, rfl, holds⟩, fun ⟨_, rfl, holds⟩ => holds⟩

theorem mem_downTo {j : Int} : j ∈ downTo str.length pos ↔
    ∃ start : Nat, j = start ∧ pos ≤ start ∧ start ≤ str.length := by
  simp only [downTo, List.mem_map, List.mem_range]
  constructor
  · rintro ⟨k, below, rfl⟩
    exact ⟨str.length - k, by omega, by omega, by omega⟩
  · rintro ⟨start, rfl, first, last⟩
    exact ⟨str.length - start, by omega, by omega⟩

theorem tells_any {f : Nat → Option Match} (apart : ∀ p q, S p → ¬ W q)
    (within : pos ≤ str.length)
    (tail : ∀ p ≤ str.length, Tells (.position str.length) (f p)
      (∃ q, Spans l str p q ∧ S q) (∃ q, Spans l str p q ∧ W q)) :
    Tells (.position str.length)
      (((downTo str.length pos).anyM fun start => do
          let result ← f start.toNat
          some (decide (result = .position str.length))) >>= fun reached =>
        if reached then some (.position str.length) else f pos)
      (∃ q, Spans (⊤ * l) str pos q ∧ S q) (∃ q, Spans (⊤ * l) str pos q ∧ W q) := by
  have through (P : Nat → Prop) : (∃ q, Spans (⊤ * l) str pos q ∧ P q) ↔
      ∃ j ∈ downTo str.length pos, ∃ q, Spans l str j.toNat q ∧ P q := by
    constructor
    · rintro ⟨q, span, holds⟩
      obtain ⟨p, first, second⟩ := spans_mul.mp span
      exact ⟨p, mem_downTo.mpr ⟨p, rfl, first.order, first.within⟩, q, second, holds⟩
    · rintro ⟨j, mem, q, second, holds⟩
      obtain ⟨p, rfl, first, last⟩ := mem_downTo.mp mem
      exact ⟨q, spans_mul.mpr ⟨p, spans_top.mpr ⟨first, last⟩, second⟩, holds⟩
  have search := @Tells.anyM (downTo str.length pos)
    (fun start => do
      let result ← f start.toNat
      some (decide (result = .position str.length)))
    (fun j => ∃ q, Spans l str j.toNat q ∧ S q)
    (fun j => ∃ q, Spans l str j.toNat q ∧ W q) (by
      intro j mem
      obtain ⟨p, rfl, _, last⟩ := mem_downTo.mp mem
      have here := tail p last
      constructor
      · intro signals
        rw [Int.toNat_natCast, here.signals signals]
        rfl
      · intro quiet
        obtain ⟨result, run, told⟩ := here.answers quiet
        refine ⟨_, by rw [Int.toNat_natCast, run]; rfl, ?_⟩
        rw [decide_eq_true_iff]
        exact told)
    (fun _ _ ⟨_, _, signals⟩ ⟨_, _, reaches⟩ => apart _ _ signals reaches)
  rw [through, through]
  constructor
  · intro signals
    rw [search.signals signals]
    rfl
  · intro quiet
    obtain ⟨b, run, told⟩ := search.answers quiet
    rw [run, Option.bind_eq_bind, Option.bind_some]
    cases b with
    | true => exact ⟨_, rfl, iff_of_true rfl (told.mp rfl)⟩
    | false =>
      have start := mem_downTo.mpr ⟨pos, rfl, Nat.le_refl _, within⟩
      obtain ⟨result, run', told'⟩ := (tail pos within).answers fun signals =>
        quiet ⟨pos, start, signals⟩
      refine ⟨result, run', ?_⟩
      have none_ := mt told.mpr Bool.false_ne_true
      exact iff_of_false (fun reached => none_ ⟨pos, start, told'.mp reached⟩) none_

theorem matchFrom_stands (stands : Stands components l) (apart : ∀ p q, S p → ¬ W q)
    {rest : List PatternComponent}
    (tail : ∀ p ≤ str.length, Tells (.position str.length) (matchFrom str rest p) (S p) (W p))
    (within : pos ≤ str.length) :
    Tells (.position str.length) (matchFrom str (components ++ rest) pos)
      (∃ p, Spans l str pos p ∧ S p) (∃ p, Spans l str pos p ∧ W p) := by
  induction stands generalizing pos with
  | nil =>
    have here (P : Nat → Prop) : P pos ↔ ∃ p, Spans 1 str pos p ∧ P p :=
      ⟨fun holds => ⟨pos, spans_one.mpr ⟨rfl, within⟩, holds⟩, fun ⟨_, span, holds⟩ =>
        (spans_one.mp span).1 ▸ holds⟩
    exact (tail pos within).congr (here S) (here W)
  | literal string _ ih =>
    obtain ⟨result, run, spans⟩ := matchLiteral_spans string str pos
    rw [List.cons_append, matchFrom, run]
    exact tells_after spans fun p inside => ih inside
  | any _ ih =>
    rw [List.cons_append, matchFrom]
    exact tells_any apart within fun p inside => ih inside
  | anyOne _ ih =>
    obtain ⟨result, run, spans⟩ := matchAnyOne_spans str pos
    rw [List.cons_append, matchFrom, run]
    exact tells_after spans fun p inside => ih inside

end Tail

end Matching

theorem first_range (parts : List Part) : (∀ part ∈ parts, ¬ part.IsRange) ∨
    ∃ before inside rest, parts = before ++ .range inside :: rest ∧
      ∀ part ∈ before, ¬ part.IsRange := by
  induction parts with
  | nil => exact .inl nofun
  | cons part parts ih =>
    cases part with
    | range inside => exact .inr ⟨[], inside, parts, rfl, nofun⟩
    | _ =>
      rcases ih with plain | ⟨before, inside, rest, rfl, plain⟩
      · exact .inl (List.forall_mem_cons.mpr ⟨nofun, plain⟩)
      · exact .inr ⟨_ :: before, inside, rest, rfl, List.forall_mem_cons.mpr ⟨nofun, plain⟩⟩

theorem answer_plain (mask : Mask) (str : List Char)
    (plain : ∀ part ∈ mask.parts, ¬ part.IsRange) :
    ∃ b, answer mask.text str = some b ∧ (b = true ↔ str ∈ mask.language) := by
  obtain ⟨components, read, stands⟩ := componentsOf_stands plain
  have told := @matchFrom_stands str _ _ 0 (fun _ => False) (fun p => p = str.length) stands
    (fun _ _ signals => signals.elim) []
    (fun p _ => ⟨False.elim, fun _ => ⟨.position p, rfl, by simp⟩⟩) (Nat.zero_le _)
  obtain ⟨result, run, reaches⟩ := told.answers fun ⟨_, _, signals⟩ => signals
  rw [List.append_nil] at run
  refine ⟨decide (result ≠ .failure ∧ result = .position str.length), ?_, ?_⟩
  · rw [answer, newOn_parts, read]
    simp only [Option.bind_eq_bind, Option.bind_some, patternMatches, run]
  · rw [decide_eq_true_iff, Mask.language, ← spans_whole]
    constructor
    · rintro ⟨_, whole⟩
      obtain ⟨_, span, rfl⟩ := reaches.mp whole
      exact span
    · intro span
      have whole := reaches.mpr ⟨_, span, rfl⟩
      exact ⟨by rw [whole]; nofun, whole⟩

theorem answer_range {mask : Mask} {inside : List Char}
    (parts : mask.parts = before ++ .range inside :: rest)
    (plain : ∀ part ∈ before, ¬ part.IsRange) (reads : ∀ part ∈ mask.parts, part.EndsInPair) :
    Tells true (answer mask.text str) (∃ p < str.length, str.take p ∈ languageOf before) False := by
  rw [parts] at reads
  obtain ⟨components, r, more, read, stands⟩ := componentsOf_range plain reads
  have told := @matchFrom_stands str _ _ 0 (fun p => p < str.length) (fun _ => False) stands
    (fun _ _ _ => id) (.range r :: more) (by
      intro p _
      rw [matchFrom, matchRange_signals]
      constructor
      · intro inside
        rw [if_pos inside]
        rfl
      · intro past
        rw [if_neg past]
        exact ⟨.failure, rfl, by simp⟩) (Nat.zero_le _)
  have tried : (∃ p, Spans (languageOf before) str 0 p ∧ p < str.length) ↔
      ∃ p < str.length, str.take p ∈ languageOf before := by
    constructor
    · rintro ⟨p, span, below⟩
      exact ⟨p, below, (spans_take.mp span).2⟩
    · rintro ⟨p, below, mem⟩
      exact ⟨p, spans_take.mpr ⟨Nat.le_of_lt below, mem⟩, below⟩
  rw [tried] at told
  rw [answer, newOn_parts, parts, read]
  simp only [Option.bind_eq_bind, Option.bind_some, patternMatches]
  constructor
  · intro signals
    rw [told.signals signals]
    rfl
  · intro quiet
    obtain ⟨result, run, reaches⟩ := told.answers quiet
    refine ⟨_, by rw [run]; rfl, ?_⟩
    rw [decide_eq_true_iff]
    refine iff_of_false ?_ id
    rintro ⟨_, whole⟩
    obtain ⟨_, _, never⟩ := reaches.mp whole
    exact never

theorem language_range {mask : Mask} {inside : List Char}
    (parts : mask.parts = before ++ .range inside :: rest) (mem : str ∈ mask.language) :
    ∃ p < str.length, str.take p ∈ languageOf before := by
  rw [Mask.language, parts, languageOf, List.map_append, List.prod_append, List.map_cons,
    List.prod_cons, ← spans_whole] at mem
  obtain ⟨p, first, second⟩ := spans_mul.mp mem
  obtain ⟨q, range, rest⟩ := spans_mul.mp second
  have next := (spans_letter.mp range).1
  have order := rest.order
  exact ⟨p, by omega, (spans_take.mp first).2⟩

/-- A mask is matched with every string as its language says, exactly where its ranges can be
read and none comes to be tried. -/
theorem glob_matches_iff (mask : Mask) (str : List Char) :
    (∃ b, answer mask.text str = some b ∧ (b = true ↔ str ∈ mask.language)) ↔
      mask.Spares str := by
  constructor
  · rintro ⟨b, run, right⟩
    have reads : ∀ part ∈ mask.parts, part.EndsInPair := by
      rw [← componentsOf_iff mask.parts [], ← newOn_parts]
      cases read : newOn mask.text with
      | none => simp [answer, read] at run
      | some components => rfl
    refine ⟨reads, ?_⟩
    intro before inside rest parts plain p below mem
    have told : answer mask.text str = none := (answer_range parts plain reads).signals ⟨p, below, mem⟩
    rw [run] at told
    cases told
  · rintro ⟨reads, spared⟩
    rcases first_range mask.parts with plain | ⟨before, inside, rest, parts, plain⟩
    · exact answer_plain mask str plain
    · have none_ : ¬ ∃ p < str.length, str.take p ∈ languageOf before := fun ⟨p, below, mem⟩ =>
        spared before inside rest parts plain p below mem
      obtain ⟨b, run, no⟩ := (answer_range parts plain reads).answers none_
      exact ⟨b, run, no.trans (iff_of_false id fun mem => none_ (language_range parts mem))⟩

/-- `[a-c]` is in the language of masks, and does not get matched with `b`, which is in its
own. -/
theorem range_signals : ∃ mask : Mask, mask.text = "[a-c]".toList ∧ "b".toList ∈ mask.language ∧
    ¬ ∃ b, answer mask.text "b".toList = some b ∧ (b = true ↔ "b".toList ∈ mask.language) := by
  refine ⟨⟨[.range "a-c".toList], by simp [Part.WellFormed]⟩, rfl, ?_, ?_⟩
  · rw [Mask.language, languageOf, List.map_singleton, List.prod_singleton]
    exact ⟨'b', rfl, .association 'a' 'c', List.mem_cons_self, by simp [Range.Includes]⟩
  · rintro ⟨b, run, _⟩
    have signals : answer "[a-c]".toList "b".toList = none := by decide +kernel
    cases signals.symm.trans run

end SlateVm.Glob
