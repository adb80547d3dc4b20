import SlateVm.Collections.ReadStream

/-! `ReadStream` as a reader of what is left of its slice, and the steps on which it is not one. -/
namespace SlateVm.Collections.ReadStream

open Refinement

variable {α : Type} [Inhabited α] {rs rs' : ReadStream α} {before m past : List α}
variable {equals : α → α → Bool} {op : Op α} {answer : Answer α}

section Written

open WriteStream

theorem written_fixed (parts : List (List α)) :
    written fixed (List.replicate 40 (default : α)) parts =
      some (parts.flatten ++ List.replicate (40 - parts.flatten.length) default) := by
  have writes : ∀ ws (b : Overwrite α), Fixed ws b →
      ∃ ws', parts.foldlM (fun ws part => ws.nextPutAll fixed part) ws = some ws' ∧
        Fixed ws' (b.write parts.flatten) := by
    induction parts with
    | nil => exact fun ws b kept => ⟨ws, rfl, kept⟩
    | cons part parts ih =>
      intro ws b kept
      obtain ⟨ws₁, run, after⟩ := @Fixed.nextPutAll _ b _ ws kept part.length 0 part (by omega)
      rw [List.drop_zero, List.take_length] at after
      obtain ⟨ws₂, rest, last⟩ := ih ws₁ _ after
      rw [Overwrite.write_append] at last
      refine ⟨ws₂, ?_, last⟩
      rw [List.foldlM_cons]
      simp only [WriteStream.nextPutAll, run, Option.bind_eq_bind, Option.bind_some]
      exact rest
  have start : Fixed (on fixed (List.replicate 40 (default : α))) ⟨List.replicate 40 default, 0⟩ :=
    ⟨⟨rfl, Nat.max_zero _⟩, rfl, Nat.le_refl _, fun _ _ => rfl⟩
  obtain ⟨ws, run, last⟩ := writes _ _ start
  have shown := (last.toTracks.shows fun _ within => last.copyBelow within).contents
  simp only [written, run, Option.bind_eq_bind, Option.bind_some, shown, Option.some.injEq]
  apply List.ext_getElem?
  intro i
  rw [Overwrite.getElem?_write start.within, List.getElem?_append, List.getElem?_replicate,
    List.getElem?_replicate]
  grind

theorem written_extensible (parts : List (List α)) :
    written extensible (ExtensibleArray.new 40) parts = some parts.flatten := by
  have writes : ∀ ws (b : Overwrite α), Extensible ws b → b.cursor = b.elements.length →
      ∃ ws' b', parts.foldlM (fun ws part => ws.nextPutAll extensible part) ws = some ws' ∧
        Extensible ws' b' ∧ b'.elements = b.elements ++ parts.flatten := by
    induction parts with
    | nil => exact fun ws b kept _ => ⟨ws, b, rfl, kept, (List.append_nil _).symm⟩
    | cons part parts ih =>
      intro ws b kept atEnd
      have position := kept.position
      have size := kept.size
      obtain ⟨ws₁, run, after⟩ := @Extensible.nextPutAll _ b _ ws kept part.length 0 part
        (by omega) (.inr (by omega))
      rw [List.drop_zero, List.take_length] at after
      have elements := Overwrite.write_end atEnd part
      have last : (b.write part).cursor = (b.write part).elements.length := by
        rw [Overwrite.cursor_write, elements, List.length_append, atEnd]
      obtain ⟨ws₂, b', rest, done, all⟩ := ih ws₁ _ after last
      refine ⟨ws₂, b', ?_, done, ?_⟩
      · rw [List.foldlM_cons]
        simp only [WriteStream.nextPutAll, run, Option.bind_eq_bind, Option.bind_some]
        exact rest
      · rw [all, elements, List.flatten_cons, List.append_assoc]
  have start : Extensible (on extensible (ExtensibleArray.new 40 : ExtensibleArray α)) ⟨[], 0⟩ :=
    ⟨⟨rfl, rfl⟩, Nat.le_refl _, 0, ExtensibleArray.holds_new 40⟩
  obtain ⟨ws, b, run, last, all⟩ := writes _ _ start rfl
  have shown := (last.toTracks.shows fun _ within => last.copyBelow within).contents
  simp only [written, run, Option.bind_eq_bind, Option.bind_some, shown, all, List.nil_append]

end Written

/-- What `throughAll:` makes of the elements that it delivers. -/
def padded (rs : ReadStream α) (objs : List α) : List α :=
  if rs.growing then objs else objs ++ List.replicate (40 - objs.length) default

theorem copyOf_eq (rs : ReadStream α) (parts : List (List α)) :
    rs.copyOf parts = some (rs.padded parts.flatten) := by
  unfold copyOf padded
  split
  · exact written_extensible parts
  · exact written_fixed parts

theorem padded_iff (rs : ReadStream α) (objs : List α) :
    rs.padded objs = objs ↔ rs.growing = true ∨ 40 ≤ objs.length := by
  unfold padded
  split
  · next growing => exact iff_of_true rfl (.inl growing)
  · next fixed =>
    constructor
    · intro same
      have length := congrArg List.length same
      rw [List.length_append, List.length_replicate] at length
      exact .inr (by omega)
    · rintro (growing | long)
      · exact absurd growing fixed
      · rw [show 40 - objs.length = 0 by omega, List.replicate_zero, List.append_nil]

omit [Inhabited α] in
theorem occurrence_within {pattern : List α} {e : Nat}
    (found : occurrence equals pattern m = some e) : e + pattern.length ≤ m.length := by
  have inside := List.mem_range.mp (List.mem_of_find?_eq_some found)
  omega

theorem Holds.throughAll (holds : Holds rs before m past) (pattern : List α) :
    rs.throughAll equals pattern =
      match (occurrence equals pattern m).map (· + pattern.length) with
      | none => some (rs.padded (m ++ past), { rs with position := rs.collection.length })
      | some e => some (rs.padded (m.take e), { rs with position := before.length + e }) := by
  have read := @Holds.upToAll α rs before m past equals _ holds pattern
  cases found : occurrence equals pattern m with
  | none =>
    rw [found] at read
    have size := holds.size
    have ended : ({ rs with position := rs.collection.length } : ReadStream α).isAtEnd = true := by
      simp only [size]
      exact decide_eq_true (Nat.le_add_right _ _)
    simp only [ReadStream.throughAll, read, restOf, ended, if_true, copyOf_eq, List.flatten_singleton,
      Option.bind_eq_bind, Option.bind_some, Option.map_none]
    rfl
  | some e =>
    rw [found] at read
    have within := occurrence_within found
    have there := holds.advance (k := e) (by omega) rfl
    have atEnd := there.isAtEnd
    simp only [ReadStream.throughAll, read, restOf, Option.bind_eq_bind, Option.bind_some,
      Option.map_some]
    cases rest : m.drop e with
    | nil =>
      have short := List.drop_eq_nil_iff.mp rest
      rw [rest] at atEnd
      have empty : pattern.length = 0 := by omega
      simp only [atEnd, List.isEmpty_nil, if_true, Option.bind_some, copyOf_eq,
        List.flatten_singleton, empty, Nat.add_zero]
      rfl
    | cons x others =>
      rw [rest] at atEnd
      have run := there.nextN pattern.length
      have count : min pattern.length (m.drop e).length = pattern.length := by
        rw [List.length_drop]
        omega
      have before' : (before ++ m.take e).length = before.length + e := by
        rw [List.length_append, List.length_take]
        omega
      rw [count, before', Nat.add_assoc] at run
      simp only [atEnd, List.isEmpty_cons, Bool.false_eq_true, if_false, run, Option.map_some,
        Option.bind_some, copyOf_eq, List.flatten_cons, List.flatten_nil, List.append_nil,
        ← List.take_add]
      rfl

section Steps

/-- What an operation does in a good state: a right answer on the rest of the slice, or, where it
does not spare the defects, a wrong answer or a position behind the limit. -/
structure Outcome (equals : α → α → Bool) (rs : ReadStream α) (m past : List α) (op : Op α)
    (rs' : ReadStream α) (a : Answer α) : Prop where
  run : perform equals rs op = some (rs', a)
  right : Spares equals rs op →
    a = op.answer equals m ∧ ∃ before, Holds rs' before (op.after equals m) past
  wrong : ¬ Spares equals rs op → a ≠ op.answer equals m ∨ rs'.readLimit < rs'.position

theorem Holds.served (holds : Holds rs before m past) (equals : α → α → Bool) (op : Op α)
    (spares : Spares equals rs op)
    (within : (op.reach equals m).2 ≤ m.length)
    (run : perform equals rs op =
      some ({ rs with position := before.length + (op.reach equals m).2 }, op.answer equals m)) :
    ∃ rs' a, Outcome equals rs m past op rs' a :=
  ⟨_, _, run, fun _ => ⟨rfl, _, holds.advance within rfl⟩, fun defect => absurd spares defect⟩

omit [Inhabited α] in
theorem upToPlace_within {behind : Nat} {o : Option Nat} (found : ∀ e, o = some e → e + behind ≤ m.length) :
    (upToPlace m behind o).2 ≤ m.length := by
  cases o with
  | none => exact Nat.le_refl _
  | some e => exact found e rfl

omit [Inhabited α] in
theorem findIdx?_within {test : α → Bool} {e : Nat} (found : m.findIdx? test = some e) :
    e + 1 ≤ m.length := (List.findIdx?_eq_some_iff_getElem.mp found).1

omit [Inhabited α] in
theorem Holds.ends (holds : Holds rs before m past) :
    rs.readLimit = rs.collection.length ↔ past = [] := by
  rw [holds.size, ← List.length_eq_zero_iff]
  omega

omit [Inhabited α] in
theorem Holds.overrun (holds : Holds rs before m past) (more : past ≠ []) :
    rs.readLimit < rs.collection.length := by
  have size := holds.size
  have positive := List.length_pos_iff.mpr more
  omega

theorem Holds.step_next (holds : Holds rs before m past) :
    ∃ rs' a, Outcome equals rs m past .next rs' a := by
  have run := holds.next
  cases m with
  | nil =>
    apply holds.served equals .next trivial (Nat.zero_le _)
    simp only [perform, run, Op.reach, Op.answer, List.head?_nil, Option.map_none, List.length_nil,
      Nat.min_zero, Nat.add_zero, ← holds.position, Answer.ofObject]
  | cons x m =>
    apply holds.served equals .next trivial (Nat.min_le_right _ _)
    simp only [perform, run, Op.reach, Op.answer, List.head?_cons, Option.map_some, List.length_cons,
      Answer.ofObject, show min 1 (m.length + 1) = 1 by omega]

theorem Holds.step_peek (holds : Holds rs before m past) :
    ∃ rs' a, Outcome equals rs m past .peek rs' a := by
  have run : perform equals rs .peek = some (rs, .ofObject (m ++ past).head?) := by
    rw [perform, ReadStream.peek, holds.getElem]
  cases m with
  | nil =>
    cases past with
    | nil =>
      apply holds.served equals .peek (.inr (holds.ends.mpr rfl)) (Nat.zero_le _)
      rw [run]
      simp only [Op.reach, Nat.add_zero, ← holds.position]
      rfl
    | cons y past =>
      refine ⟨_, _, run, fun spares => ?_, fun _ => .inl nofun⟩
      have limit := holds.readLimit
      have position := holds.position
      rcases spares with inside | ended
      · simp only [List.length_nil] at limit
        omega
      · exact nomatch holds.ends.mp ended
  | cons x m =>
    have inside : rs.position < rs.readLimit := by
      rw [holds.position, holds.readLimit, List.length_cons]
      omega
    apply holds.served equals .peek (.inl inside) (Nat.zero_le _)
    rw [run]
    simp only [Op.reach, Nat.add_zero, ← holds.position]
    rfl

theorem Holds.step_upTo (holds : Holds rs before m past) (obj : α) :
    ∃ rs' a, Outcome equals rs m past (.upTo obj) rs' a := by
  have run := @Holds.upTo α rs before m past equals _ holds obj
  have known : (∃ each ∈ rs.left, equals each obj = true) ↔
      (m.findIdx? fun each => equals each obj) ≠ none := by
    rw [holds.left, ne_eq, List.findIdx?_eq_none_iff]
    simp
  rw [List.findIdx?_append] at run
  cases found : m.findIdx? fun each => equals each obj with
  | some e =>
    have inside := findIdx?_within found
    rw [found] at run
    apply holds.served equals (.upTo obj) (.inr (known.mpr (by rw [found]; exact Option.some_ne_none e)))
    · simp only [Op.reach, found]
      exact inside
    · simp only [perform, run, Option.some_or, Option.map_some, Op.reach, Op.answer, Op.delivered,
        found, upToPlace]
      rw [List.take_append_of_le_length (by omega)]
  | none =>
    rw [found] at run
    cases past with
    | nil =>
      have size := holds.size
      have limit := holds.readLimit
      apply holds.served equals (.upTo obj) (.inl (holds.ends.mpr rfl))
      · simp only [Op.reach, found]
        exact Nat.le_refl _
      · simp only [List.length_nil, Nat.add_zero] at size
        simp only [perform, run, List.findIdx?_nil, Option.map_none, Option.or_none, Option.map_some,
          List.append_nil, Op.reach, Op.answer, Op.delivered, found, upToPlace, List.take_length,
          size, limit]
    | cons y past =>
      have beyond := holds.overrun (List.cons_ne_nil y past)
      have defect : ¬ Spares equals rs (.upTo obj) := by
        rintro (ended | there)
        · cases holds.ends.mp ended
        · exact known.mp there found
      have limit := holds.readLimit
      rw [Option.none_or] at run
      cases later : (y :: past).findIdx? fun each => equals each obj with
      | none =>
        rw [later] at run
        exact ⟨_, _, by rw [perform, run]; rfl, fun spares => absurd spares defect, fun _ => .inr beyond⟩
      | some e =>
        rw [later] at run
        refine ⟨_, _, by rw [perform, run]; rfl, fun spares => absurd spares defect, fun _ => .inr ?_⟩
        simp only [limit]
        omega

theorem Holds.step_upToEnd (holds : Holds rs before m past) :
    ∃ rs' a, Outcome equals rs m past .upToEnd rs' a := by
  have run := holds.upToEnd
  have size := holds.size
  have limit := holds.readLimit
  cases past with
  | nil =>
    apply holds.served equals .upToEnd (holds.ends.mpr rfl) (Nat.le_refl _)
    simp only [List.length_nil, Nat.add_zero] at size
    simp only [perform, run, Option.map_some, List.append_nil, Op.reach, Op.answer, Op.delivered,
      List.take_length, size, limit]
  | cons y past =>
    exact ⟨_, _, by rw [perform, run]; rfl, fun spares => (nomatch holds.ends.mp spares),
      fun _ => .inr (holds.overrun nofun)⟩

theorem Holds.step_upToAll (holds : Holds rs before m past) (pattern : List α) :
    ∃ rs' a, Outcome equals rs m past (.upToAll pattern) rs' a := by
  have run := @Holds.upToAll α rs before m past equals _ holds pattern
  have size := holds.size
  have limit := holds.readLimit
  cases found : occurrence equals pattern m with
  | some e =>
    rw [found] at run
    have inside := occurrence_within found
    apply holds.served equals (.upToAll pattern) (.inr (by rw [holds.left, found]; rfl))
    · simp only [Op.reach, found, upToPlace]
      omega
    · simp only [perform, run, Option.map_some, Op.reach, Op.answer, Op.delivered, found, upToPlace,
        Nat.add_zero]
  | none =>
    rw [found] at run
    cases past with
    | nil =>
      apply holds.served equals (.upToAll pattern) (.inl (holds.ends.mpr rfl))
      · simp only [Op.reach, found]
        exact Nat.le_refl _
      · simp only [List.length_nil, Nat.add_zero] at size
        simp only [perform, run, Option.map_some, List.append_nil, Op.reach, Op.answer, Op.delivered,
          found, upToPlace, List.take_length, size, limit]
    | cons y past =>
      have defect : ¬ Spares equals rs (.upToAll pattern) := by
        rintro (ended | there)
        · cases holds.ends.mp ended
        · rw [holds.left, found] at there
          exact Bool.false_ne_true there
      exact ⟨_, _, by rw [perform, run]; rfl, fun spares => absurd spares defect,
        fun _ => .inr (holds.overrun (List.cons_ne_nil y past))⟩

theorem Holds.padded_outcome (holds : Holds rs before m past) (pattern : List α)
    (ended : rs.readLimit = rs.collection.length ∨ (occurrence equals pattern rs.left).isSome)
    (within : ((Op.throughAll pattern).reach equals m).2 ≤ m.length)
    (run : perform equals rs (.throughAll pattern) =
      some ({ rs with position := before.length + ((Op.throughAll pattern).reach equals m).2 },
        .objects (rs.padded ((Op.throughAll pattern).delivered equals m)))) :
    ∃ rs' a, Outcome equals rs m past (.throughAll pattern) rs' a := by
  have spares : Spares equals rs (.throughAll pattern) ↔
      rs.padded ((Op.throughAll pattern).delivered equals m) =
        (Op.throughAll pattern).delivered equals m := by
    rw [padded_iff, Spares, holds.left]
    rw [holds.left] at ended
    exact and_iff_right ended
  refine ⟨_, _, run, fun spared => ⟨?_, _, holds.advance within rfl⟩, fun defect => .inl ?_⟩
  · rw [spares.mp spared]
    rfl
  · intro same
    exact defect (spares.mpr (Answer.objects.inj same))

theorem Holds.step_throughAll (holds : Holds rs before m past) (pattern : List α) :
    ∃ rs' a, Outcome equals rs m past (.throughAll pattern) rs' a := by
  have run := @Holds.throughAll α _ rs before m past equals holds pattern
  have size := holds.size
  have limit := holds.readLimit
  cases found : occurrence equals pattern m with
  | some e =>
    rw [found] at run
    have inside := occurrence_within found
    apply holds.padded_outcome pattern (.inr (by rw [holds.left, found]; rfl))
    · simp only [Op.reach, found, upToPlace, Option.map_some]
      omega
    · simp only [perform, run, Option.map_some, Op.reach, Op.delivered, found, upToPlace, Nat.add_zero]
  | none =>
    rw [found] at run
    cases past with
    | nil =>
      apply holds.padded_outcome pattern (.inl (holds.ends.mpr rfl))
      · simp only [Op.reach, found, Option.map_none]
        exact Nat.le_refl _
      · simp only [List.length_nil, Nat.add_zero] at size
        simp only [perform, run, Option.map_some, Option.map_none, List.append_nil, Op.reach,
          Op.delivered, found, upToPlace, List.take_length, size, limit]
    | cons y past =>
      have defect : ¬ Spares equals rs (.throughAll pattern) := by
        rintro ⟨ended | there, _⟩
        · cases holds.ends.mp ended
        · rw [holds.left, found] at there
          exact Bool.false_ne_true there
      exact ⟨_, _, by rw [perform, run]; rfl, fun spares => absurd spares defect,
        fun _ => .inr (holds.overrun (List.cons_ne_nil y past))⟩

theorem Holds.step (holds : Holds rs before m past) (op : Op α) (fits : op.Fits rs) :
    ∃ rs' a, Outcome equals rs m past op rs' a := by
  cases op with
  | next => exact holds.step_next
  | nextN n =>
    apply holds.served equals (.nextN n) trivial (Nat.min_le_right _ _)
    simp only [perform, holds.nextN, Option.map_some, Op.reach, Op.answer, Op.delivered]
    rcases Nat.le_total n m.length with few | many
    · rw [Nat.min_eq_left few]
    · rw [Nat.min_eq_right many, List.take_length, List.take_of_length_le many]
  | nextPutInto n c start =>
    have room : start + min n m.length ≤ c.length := by
      have space : start + min n rs.left.length ≤ c.length := fits
      rwa [holds.left] at space
    apply holds.served equals (.nextPutInto n c start) trivial (Nat.min_le_right _ _)
    simp only [perform, holds.nextPutInto room, Option.map_some, Op.reach, Op.answer]
  | peek => exact holds.step_peek
  | upTo obj => exact holds.step_upTo obj
  | upToEnd => exact holds.step_upToEnd
  | upToAnyOf includes =>
    have run : rs.upToAnyOf includes = _ := holds.upToSatisfying includes (by
      rw [holds.readLimit, holds.position]
      omega)
    apply holds.served equals (.upToAnyOf includes) trivial
      (upToPlace_within fun e found => findIdx?_within found)
    simp only [perform, run, Option.map_some, Op.reach, Op.answer, Op.delivered]
  | upToAll pattern => exact holds.step_upToAll pattern
  | throughAll pattern => exact holds.step_throughAll pattern
  | isAtEnd =>
    apply holds.served equals .isAtEnd trivial (Nat.zero_le _)
    simp only [perform, holds.isAtEnd, Op.reach, Op.answer, Nat.add_zero, ← holds.position]

end Steps

omit [Inhabited α] in
theorem reach_within (equals : α → α → Bool) (m : List α) (op : Op α) :
    (op.reach equals m).2 ≤ m.length ∧
      ((op.reach equals m).1 ≤ (op.reach equals m).2 ∨ (op = .peek ∧ (op.reach equals m).2 = 0)) := by
  have place : ∀ behind o, (∀ e, o = some e → e + behind ≤ m.length) →
      (upToPlace m behind o).2 ≤ m.length ∧ (upToPlace m behind o).1 ≤ (upToPlace m behind o).2 := by
    intro behind o found
    refine ⟨upToPlace_within found, ?_⟩
    cases o with
    | none => exact Nat.le_refl _
    | some e => exact Nat.le_add_right _ _
  cases op with
  | next => exact ⟨Nat.min_le_right _ _, .inl (Nat.le_refl _)⟩
  | nextN n => exact ⟨Nat.min_le_right _ _, .inl (Nat.le_refl _)⟩
  | nextPutInto n c start => exact ⟨Nat.min_le_right _ _, .inl (Nat.le_refl _)⟩
  | peek => exact ⟨Nat.zero_le _, .inr ⟨rfl, rfl⟩⟩
  | upTo obj =>
    obtain ⟨within, less⟩ := place 1 _ fun e found => findIdx?_within found
    exact ⟨within, .inl less⟩
  | upToEnd => exact ⟨Nat.le_refl _, .inl (Nat.le_refl _)⟩
  | upToAnyOf includes =>
    obtain ⟨within, less⟩ := place 1 _ fun e found => findIdx?_within found
    exact ⟨within, .inl less⟩
  | upToAll pattern =>
    obtain ⟨within, less⟩ := place 0 (occurrence equals pattern m) fun e found => by
      have inside := occurrence_within found
      omega
    exact ⟨within, .inl less⟩
  | throughAll pattern =>
    obtain ⟨within, less⟩ := place 0 ((occurrence equals pattern m).map (· + pattern.length))
      fun e found => by
        obtain ⟨first, there, same⟩ := Option.map_eq_some_iff.mp found
        have inside := occurrence_within there
        omega
    exact ⟨within, .inl less⟩
  | isAtEnd => exact ⟨Nat.zero_le _, .inl (Nat.le_refl _)⟩

omit [Inhabited α] in
theorem holds_onFromTo {c : List α} {growing : Bool} {start stop : Nat} (ordered : start ≤ stop)
    (within : start ≤ c.length) : Holds (onFromTo c growing start stop) (c.take start)
      ((c.take stop).drop start) (c.drop stop) := by
  constructor
  · have front : c.take start = (c.take stop).take start := by
      rw [List.take_take, Nat.min_eq_left ordered]
    rw [onFromTo, ← List.append_assoc, front, List.take_append_drop, List.take_append_drop]
  · simp only [onFromTo, List.length_take]
    omega
  · simp only [onFromTo, List.length_take, List.length_drop]
    omega

def Allowed (equals : α → α → Bool) (rs : ReadStream α) (op : Op α) : Prop :=
  op.Fits rs ∧ Spares equals rs op

theorem holds_of_reached (reached : Reached (implementation equals) (Allowed equals) rs m) :
    ∃ before past, Holds rs before m past := by
  apply @Reached.invariant _ _ _ _ (implementation equals) (Allowed equals)
    fun rs m => ∃ before past, Holds rs before m past
  · rintro rs m ⟨c, growing, start, stop, ordered, within, rfl, rfl⟩
    exact ⟨_, _, holds_onFromTo ordered within⟩
  · rintro rs m op rs' a ⟨before, past, holds⟩ ⟨fits, spares⟩ run
    obtain ⟨rs'', b, outcome⟩ := @Holds.step α _ rs before m past equals holds op fits
    cases run.symm.trans outcome.run
    obtain ⟨_, before', after⟩ := outcome.right spares
    exact ⟨before', past, after⟩
  · exact reached

end SlateVm.Collections.ReadStream
