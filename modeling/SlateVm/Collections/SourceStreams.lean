import Mathlib.Logic.Function.Basic
import Mathlib.Data.List.Nodup
import Mathlib.Algebra.GroupWithZero.Nat

/-! `ConcatenatedReadStream` and `FlattenedReadStream`: streams that read other streams. -/
namespace SlateVm.SourceStreams

variable {α σ : Type}

/-- What `next` comes to: an element, a signalled `Exhaustion` or another error. -/
inductive Answer (α : Type) where
  | element (obj : α)
  | exhaustion
  | notFound

structure ReadStream (σ α : Type) where
  isAtEnd : σ → Bool
  next : σ → Answer α × σ

namespace ReadStream

def after (stream : ReadStream σ α) : Nat → σ → σ
  | 0, s => s
  | n + 1, s => stream.after n (stream.next s).2

def Delivers (stream : ReadStream σ α) (ended : σ → Prop) : List α → σ → Prop
  | [], s => ∀ n, ended (stream.after n s)
  | obj :: objs, s =>
    stream.isAtEnd s = false ∧ (stream.next s).1 = .element obj ∧
      stream.Delivers ended objs (stream.next s).2

variable {stream : ReadStream σ α} {ended ended' : σ → Prop}

theorem after_still {s : σ} (still : (stream.next s).2 = s) (n : Nat) : stream.after n s = s := by
  induction n with
  | zero => rfl
  | succ n ih => rw [after, still, ih]

theorem Delivers.imp (weaker : ∀ s, ended s → ended' s) {objs : List α} {s : σ}
    (delivers : stream.Delivers ended objs s) : stream.Delivers ended' objs s := by
  induction objs generalizing s with
  | nil => exact fun n => weaker _ (delivers n)
  | cons obj objs ih => exact ⟨delivers.1, delivers.2.1, ih delivers.2.2⟩

theorem Delivers.meets {objs : List α} {s : σ} (delivers : stream.Delivers ended objs s)
    (delivers' : stream.Delivers ended' objs s) : ∃ s', ended s' ∧ ended' s' := by
  induction objs generalizing s with
  | nil => exact ⟨s, delivers 0, delivers' 0⟩
  | cons obj objs ih => exact ih delivers.2.2 delivers'.2.2

end ReadStream

section Concatenating

/-- The slots of a `ConcatenatedReadStream`, whose sources are known by their identity, and what
each of them has left. -/
structure Concatenated (α : Type) where
  sources : List Nat
  currentSource : Nat
  left : Nat → List α

namespace Concatenated

/-- `on:`, which fails without a first source. -/
def on (sources : List Nat) (left : Nat → List α) : Option (Concatenated α) :=
  sources.head?.map fun first => ⟨sources, first, left⟩

/-- `;` adds a source. -/
def add (s : Concatenated α) (source : Nat) : Concatenated α :=
  { s with sources := s.sources ++ [source] }

def isAtEnd (s : Concatenated α) : Bool :=
  decide (s.sources.getLast? = some s.currentSource) && (s.left s.currentSource).isEmpty

def sourceNext (s : Concatenated α) : Answer α × Concatenated α :=
  match s.left s.currentSource with
  | [] => (.exhaustion, s)
  | obj :: rest => (.element obj, { s with left := Function.update s.left s.currentSource rest })

/-- `next`; `exhaustion` is not understood. -/
def next (s : Concatenated α) : Answer α × Concatenated α :=
  if (s.left s.currentSource).isEmpty then
    let nextSrcIdx := s.sources.idxOf s.currentSource + 1
    if nextSrcIdx = s.sources.length then (.notFound, s)
    else match s.sources[nextSrcIdx]? with
      | none => (.notFound, s)
      | some source => sourceNext { s with currentSource := source }
  else sourceNext s

def stream : ReadStream (Concatenated α) α := ⟨isAtEnd, next⟩

def AtEnd (s : Concatenated α) : Prop := s.isAtEnd = true

/-- The stream is at its end, and reading on signals `Exhaustion`. -/
def Exhausts (s : Concatenated α) : Prop := s.isAtEnd = true ∧ s.next.1 = .exhaustion

def Stuck (s : Concatenated α) : Prop := s.isAtEnd = true ∧ s.next.1 = .notFound

def Concatenates (ended : Concatenated α → Prop) (sources : List Nat) (left : Nat → List α) :
    Prop :=
  ∃ s, on sources left = some s ∧ stream.Delivers ended (sources.flatMap left) s

def Filled (sources : List Nat) (left : Nat → List α) : Prop :=
  ∃ first rest, sources = first :: rest ∧ sources.Nodup ∧ ∀ source ∈ rest, left source ≠ []

def Repeated (sources : List Nat) (left : Nat → List α) : Prop :=
  ∃ source more, sources = source :: source :: more ∧ sources.getLast? = some source ∧
    ∀ source ∈ sources, left source = []

section Reading

variable {before rest : List Nat} {cur : Nat} {left : Nat → List α}

theorem next_reads {s : Concatenated α} {obj : α} {objs : List α}
    (some_ : s.left s.currentSource = obj :: objs) :
    s.next = (.element obj, { s with left := Function.update s.left s.currentSource objs }) := by
  simp only [next, sourceNext, some_, List.isEmpty_cons, Bool.false_eq_true, if_false]

theorem idxOf_here (fresh : cur ∉ before) : (before ++ cur :: rest).idxOf cur = before.length := by
  rw [List.idxOf_append_of_notMem fresh, List.idxOf_cons_self, Nat.add_zero]

theorem next_last (fresh : cur ∉ before) (none_ : left cur = []) :
    (⟨before ++ [cur], cur, left⟩ : Concatenated α).next =
      (.notFound, ⟨before ++ [cur], cur, left⟩) := by
  simp only [next, none_, List.isEmpty_nil, if_true, idxOf_here fresh, List.length_append,
    List.length_singleton]

theorem next_onward {source : Nat} (fresh : cur ∉ before) (none_ : left cur = []) :
    (⟨before ++ cur :: source :: rest, cur, left⟩ : Concatenated α).next =
      sourceNext ⟨before ++ cur :: source :: rest, source, left⟩ := by
  have behind : (before ++ cur :: source :: rest)[before.length + 1]? = some source := by
    rw [List.getElem?_append_right (by omega), show before.length + 1 - before.length = 1 by omega]
    rfl
  have inside : ¬ before.length + 1 = (before ++ cur :: source :: rest).length := by
    rw [List.length_append, List.length_cons, List.length_cons]
    omega
  simp only [next, none_, List.isEmpty_nil, if_true, idxOf_here fresh, inside, if_false, behind]

theorem isAtEnd_iff (s : Concatenated α) :
    s.isAtEnd = true ↔ s.sources.getLast? = some s.currentSource ∧ s.left s.currentSource = [] := by
  rw [isAtEnd, Bool.and_eq_true, decide_eq_true_eq, List.isEmpty_iff]

theorem isAtEnd_some {s : Concatenated α} {obj : α} {objs : List α}
    (some_ : s.left s.currentSource = obj :: objs) : s.isAtEnd = false := by
  rw [isAtEnd, some_, List.isEmpty_cons, Bool.and_false]

theorem flatMap_update {objs : List α} {sources : List Nat} (other : cur ∉ sources) :
    sources.flatMap (Function.update left cur objs) = sources.flatMap left := by
  refine List.flatMap_congr fun source member => Function.update_of_ne ?_ _ _
  rintro rfl
  exact other member

theorem delivers_reading {sources : List Nat} {ended : Concatenated α → Prop} {objs : List α}
    (other : cur ∉ rest) (here : left cur = objs) :
    stream.Delivers ended (objs ++ rest.flatMap left) ⟨sources, cur, left⟩ ↔
      stream.Delivers ended (rest.flatMap left)
        ⟨sources, cur, Function.update left cur []⟩ := by
  induction objs generalizing left with
  | nil => rw [← here, Function.update_eq_self, here, List.nil_append]
  | cons obj objs ih =>
    have reads := @next_reads α ⟨sources, cur, left⟩ obj objs here
    have inside := @isAtEnd_some α ⟨sources, cur, left⟩ obj objs here
    have onward := @ih (Function.update left cur objs) (Function.update_self ..)
    rw [flatMap_update other, Function.update_idem] at onward
    simp only [List.cons_append, ReadStream.Delivers, stream, reads, inside, true_and]
    exact onward

theorem delivers_current {sources : List Nat} {ended : Concatenated α → Prop}
    (once : cur ∈ rest → left cur = []) :
    stream.Delivers ended ((cur :: rest).flatMap left) ⟨sources, cur, left⟩ ↔
      stream.Delivers ended (rest.flatMap (Function.update left cur []))
        ⟨sources, cur, Function.update left cur []⟩ := by
  by_cases again : cur ∈ rest
  · have same : Function.update left cur [] = left := by
      rw [← once again, Function.update_eq_self]
    rw [same, List.flatMap_cons, once again, List.nil_append]
  · rw [flatMap_update again, List.flatMap_cons]
    exact delivers_reading again rfl

theorem delivers_onward {source : Nat} {objs : List α} {ended : Concatenated α → Prop}
    (fresh : cur ∉ before) (none_ : left cur = []) (some_ : left source ≠ []) :
    stream.Delivers ended (left source ++ objs) ⟨before ++ cur :: source :: rest, cur, left⟩ ↔
      isAtEnd ⟨before ++ cur :: source :: rest, cur, left⟩ = false ∧
        stream.Delivers ended (left source ++ objs)
          ⟨before ++ cur :: source :: rest, source, left⟩ := by
  cases here : left source with
  | nil => exact absurd here some_
  | cons obj more =>
    have reads := @next_reads α ⟨before ++ cur :: source :: rest, source, left⟩ obj more here
    have onward : (⟨before ++ cur :: source :: rest, cur, left⟩ : Concatenated α).next =
        (⟨before ++ cur :: source :: rest, source, left⟩ : Concatenated α).next := by
      rw [next_onward fresh none_, reads, sourceNext]
      simp only [here]
    have inside := @isAtEnd_some α ⟨before ++ cur :: source :: rest, source, left⟩ obj more here
    simp only [List.cons_append, ReadStream.Delivers, stream, onward, inside, true_and]

theorem delivers_filled (different : (before ++ cur :: rest).Nodup)
    (some_ : ∀ source ∈ rest, left source ≠ []) :
    stream.Delivers Stuck ((cur :: rest).flatMap left) ⟨before ++ cur :: rest, cur, left⟩ := by
  induction rest generalizing before cur left with
  | nil =>
    have fresh : cur ∉ before := fun again =>
      (List.nodup_append.mp different).2.2 cur again cur (.head _) rfl
    have none_ : Function.update left cur [] cur = [] := Function.update_self ..
    rw [delivers_current (fun again => absurd again List.not_mem_nil)]
    intro n
    rw [ReadStream.after_still (by simp only [stream, next_last fresh none_]), Stuck, isAtEnd_iff,
      next_last fresh none_]
    exact ⟨⟨List.getLast?_concat, none_⟩, rfl⟩
  | cons source rest ih =>
    have shift : before ++ cur :: source :: rest = (before ++ [cur]) ++ source :: rest := by
      rw [List.append_assoc, List.singleton_append]
    have apart := List.nodup_append.mp different
    have fresh : cur ∉ before := fun again => apart.2.2 cur again cur (.head _) rfl
    have other : cur ∉ source :: rest := (List.nodup_cons.mp apart.2.1).1
    have none_ : Function.update left cur [] cur = [] := Function.update_self ..
    have kept : ∀ later ∈ source :: rest, Function.update left cur [] later = left later := by
      intro later member
      refine Function.update_of_ne ?_ _ _
      rintro rfl
      exact other member
    have here : Function.update left cur [] source ≠ [] := by
      rw [kept source (.head _)]
      exact some_ source (.head _)
    rw [delivers_current (fun again => absurd again other), List.flatMap_cons,
      delivers_onward fresh none_ here]
    constructor
    · rw [Bool.eq_false_iff]
      intro atEnd
      have last := ((isAtEnd_iff _).mp atEnd).1
      rw [shift, List.getLast?_append_cons] at last
      exact other (List.mem_of_getLast? last)
    · rw [shift, ← List.flatMap_cons]
      apply ih (shift ▸ different)
      intro later member
      rw [kept later (.tail _ member)]
      exact some_ later (.tail _ member)

theorem repeated_of_delivers {source : Nat} (fresh : cur ∉ before) (none_ : left cur = [])
    (empty : left source = []) (start : before = [] ∨ cur ∉ source :: rest)
    (delivers : stream.Delivers AtEnd ((source :: rest).flatMap left)
      ⟨before ++ cur :: source :: rest, cur, left⟩) :
    before = [] ∧ Repeated (cur :: source :: rest) left := by
  have onward : (⟨before ++ cur :: source :: rest, cur, left⟩ : Concatenated α).next =
      (.exhaustion, ⟨before ++ cur :: source :: rest, source, left⟩) := by
    rw [next_onward fresh none_, sourceNext]
    simp only [empty]
  cases objs : (source :: rest).flatMap left with
  | cons obj objs' =>
    rw [objs] at delivers
    have answer := delivers.2.1
    simp only [stream, onward] at answer
    cases answer
  | nil =>
    rw [objs] at delivers
    have first := ((isAtEnd_iff _).mp (delivers 0)).1
    have second := ((isAtEnd_iff _).mp (delivers 1)).1
    simp only [ReadStream.after, stream, onward] at first second
    have same : cur = source := Option.some.inj (first.symm.trans second)
    subst same
    have nothing : before = [] := start.resolve_right fun other => other (.head _)
    refine ⟨nothing, cur, rest, rfl, ?_, ?_⟩
    · rwa [nothing, List.nil_append] at first
    · intro other member
      rcases List.mem_cons.mp member with rfl | later
      · exact none_
      · exact List.flatMap_eq_nil_iff.mp objs other later

theorem filled_of_delivers (different : (before ++ [cur]).Nodup)
    (many : ∀ source, 2 ≤ (before ++ cur :: rest).count source → left source = [])
    (start : before = [] ∨ cur ∉ rest)
    (delivers :
      stream.Delivers AtEnd ((cur :: rest).flatMap left) ⟨before ++ cur :: rest, cur, left⟩) :
    ((before ++ cur :: rest).Nodup ∧ ∀ source ∈ rest, left source ≠ []) ∨
      (before = [] ∧ Repeated (cur :: rest) left) := by
  induction rest generalizing before cur left with
  | nil => exact .inl ⟨different, fun _ member => absurd member List.not_mem_nil⟩
  | cons source rest ih =>
    have shift : before ++ cur :: source :: rest = (before ++ [cur]) ++ source :: rest := by
      rw [List.append_assoc, List.singleton_append]
    have fresh : cur ∉ before := fun again =>
      (List.nodup_append.mp different).2.2 cur again cur (.head _) rfl
    have none_ : Function.update left cur [] cur = [] := Function.update_self ..
    have once : cur ∈ source :: rest → left cur = [] := by
      intro again
      apply many cur
      rw [List.count_append, List.count_cons_self]
      have later := List.count_pos_iff.mpr again
      omega
    rw [delivers_current once] at delivers
    have kept : ∀ other, left other = [] → Function.update left cur [] other = [] := by
      intro other empty
      by_cases same : other = cur
      · rw [same, none_]
      · rw [Function.update_of_ne same, empty]
    by_cases empty : Function.update left cur [] source = []
    · right
      obtain ⟨nothing, repeated⟩ := repeated_of_delivers fresh none_ empty start delivers
      have again : cur ∈ source :: rest := by
        obtain ⟨first, more, shape, _⟩ := repeated
        cases shape
        exact .head _
      have same : Function.update left cur [] = left := by
        rw [← once again, Function.update_eq_self]
      rw [same] at repeated
      exact ⟨nothing, repeated⟩
    · have some_ : left source ≠ [] := fun none_ => empty (kept source none_)
      rw [List.flatMap_cons, delivers_onward fresh none_ empty, ← List.flatMap_cons, shift]
        at delivers
      rw [shift] at many ⊢
      have single : ¬ 2 ≤ (before ++ [cur] ++ source :: rest).count source :=
        mt (many source) some_
      rw [List.count_append, List.count_cons_self] at single
      have unseen : source ∉ before ++ [cur] := List.count_eq_zero.mp (by omega)
      have other : source ∉ rest := List.count_eq_zero.mp (by omega)
      have apart : ((before ++ [cur]) ++ [source]).Nodup :=
        List.nodup_append.mpr ⟨different, List.nodup_singleton _, by
          rintro earlier member _ (_ | ⟨_, ⟨⟩⟩) rfl
          exact unseen member⟩
      rcases ih apart (fun later twice => kept later (many later twice)) (.inr other)
        delivers.2 with ⟨whole, filled⟩ | ⟨nothing, _⟩
      · refine .inl ⟨whole, fun later member none_ => ?_⟩
        rcases List.mem_cons.mp member with rfl | later_
        · exact some_ none_
        · exact filled later later_ (kept later none_)
      · exact absurd nothing (List.append_ne_nil_of_right_ne_nil _ (List.cons_ne_nil _ _))

theorem sourceNext_element {s : Concatenated α} {obj : α}
    (answers : s.sourceNext.1 = .element obj) :
    ∃ objs, s.left s.currentSource = obj :: objs ∧
      s.sourceNext.2 = { s with left := Function.update s.left s.currentSource objs } := by
  unfold sourceNext at answers ⊢
  split at answers
  · cases answers
  · next first objs here =>
    cases answers
    exact ⟨objs, here, rfl⟩

theorem next_element {s : Concatenated α} {obj : α} (inside : s.currentSource ∈ s.sources)
    (answers : s.next.1 = .element obj) :
    ∃ source objs, source ∈ s.sources ∧ s.left source = obj :: objs ∧
      s.next.2 = ⟨s.sources, source, Function.update s.left source objs⟩ := by
  unfold next at answers ⊢
  split at answers
  · next none_ =>
    rw [if_pos none_]
    simp only at answers ⊢
    split at answers
    · cases answers
    · next more =>
      rw [if_neg more]
      split at answers
      · cases answers
      · next source here =>
        obtain ⟨objs, taken, after⟩ := sourceNext_element answers
        exact ⟨source, objs, List.mem_of_getElem? here, taken, after⟩
  · next some_ =>
    rw [if_neg some_]
    obtain ⟨objs, taken, after⟩ := sourceNext_element answers
    exact ⟨s.currentSource, objs, inside, taken, after⟩

theorem length_taken {sources : List Nat} {source : Nat} {obj : α} {objs : List α}
    (member : source ∈ sources) (taken : left source = obj :: objs) :
    (sources.flatMap (Function.update left source objs)).length <
      (sources.flatMap left).length := by
  have fewer : ∀ later : List Nat, (later.flatMap (Function.update left source objs)).length ≤
      (later.flatMap left).length := by
    intro later
    induction later with
    | nil => exact Nat.le_refl 0
    | cons other later ih =>
      rw [List.flatMap_cons, List.flatMap_cons, List.length_append, List.length_append]
      apply Nat.add_le_add _ ih
      by_cases same : other = source
      · simp only [same, Function.update_self, taken, List.length_cons, Nat.le_succ]
      · simp only [Function.update_of_ne same, Nat.le_refl]
  obtain ⟨front, back, rfl⟩ := List.append_of_mem member
  have first := fewer front
  have second := fewer back
  simp only [List.flatMap_append, List.flatMap_cons, List.length_append, Function.update_self,
    taken, List.length_cons]
  omega

theorem delivers_length {all : List Nat} {ended : Concatenated α → Prop} {objs : List α}
    {s : Concatenated α} (includes : ∀ source ∈ s.sources, source ∈ all)
    (inside : s.currentSource ∈ s.sources) (delivers : stream.Delivers ended objs s) :
    objs.length ≤ (all.flatMap s.left).length := by
  induction objs generalizing s with
  | nil => exact Nat.zero_le _
  | cons obj objs ih =>
    obtain ⟨source, more, member, taken, after⟩ := next_element inside delivers.2.1
    have rest := delivers.2.2
    simp only [stream, after] at rest
    have fewer := @length_taken α s.left all source obj more (includes source member) taken
    have least := @ih ⟨s.sources, source, Function.update s.left source more⟩ includes member rest
    rw [List.length_cons]
    exact Nat.lt_of_le_of_lt least fewer

theorem empty_of_twice {sources : List Nat} {ended : Concatenated α → Prop} {source : Nat}
    (inside : cur ∈ sources)
    (delivers : stream.Delivers ended (sources.flatMap left) ⟨sources, cur, left⟩)
    (twice : 2 ≤ sources.count source) : left source = [] := by
  have member : source ∈ sources := List.count_pos_iff.mp (by omega)
  have still : source ∈ sources.erase source := by
    apply List.count_pos_iff.mp
    rw [List.count_erase_self]
    omega
  have includes : ∀ other ∈ sources, other ∈ sources.erase source := by
    intro other member
    by_cases same : other = source
    · rwa [same]
    · exact (List.mem_erase_of_ne same).mpr member
  have least : (sources.flatMap left).length ≤ ((sources.erase source).flatMap left).length :=
    delivers_length includes inside delivers
  have split := ((List.perm_cons_erase member).flatMap_right left).length_eq
  rw [split, List.flatMap_cons, List.length_append] at least
  exact List.length_eq_zero_iff.mp (by omega)

end Reading

theorem concatenates_filled {sources : List Nat} {left : Nat → List α}
    (filled : Filled sources left) : Concatenates Stuck sources left := by
  obtain ⟨first, rest, rfl, different, some_⟩ := filled
  exact ⟨_, rfl, @delivers_filled α [] rest first left different some_⟩

theorem concatenates_repeated {sources : List Nat} {left : Nat → List α}
    (repeated : Repeated sources left) : Concatenates Exhausts sources left := by
  obtain ⟨source, more, rfl, last, empty⟩ := repeated
  have none_ : left source = [] := empty source (.head _)
  have onward : (⟨source :: source :: more, source, left⟩ : Concatenated α).next =
      (.exhaustion, ⟨source :: source :: more, source, left⟩) := by
    have step := @next_onward α [] more source left source List.not_mem_nil none_
    simp only [List.nil_append, sourceNext, none_] at step
    exact step
  refine ⟨_, rfl, ?_⟩
  rw [List.flatMap_eq_nil_iff.mpr empty]
  intro n
  rw [ReadStream.after_still (by simp only [stream, onward]), Exhausts, isAtEnd_iff, onward]
  exact ⟨⟨last, none_⟩, rfl⟩

theorem concatenates_iff (sources : List Nat) (left : Nat → List α) :
    Concatenates AtEnd sources left ↔ Filled sources left ∨ Repeated sources left := by
  constructor
  · rintro ⟨s, begins, delivers⟩
    cases sources with
    | nil => cases begins
    | cons first rest =>
      cases begins
      rcases @filled_of_delivers α [] rest first left (List.nodup_singleton _)
        (fun source twice => empty_of_twice (.head _) delivers twice) (.inl rfl) delivers with
        ⟨different, filled⟩ | ⟨_, repeated⟩
      · exact .inl ⟨first, rest, rfl, different, filled⟩
      · exact .inr repeated
  · rintro (filled | repeated)
    · obtain ⟨s, begins, delivers⟩ := concatenates_filled filled
      exact ⟨s, begins, delivers.imp fun _ stuck => stuck.1⟩
    · obtain ⟨s, begins, delivers⟩ := concatenates_repeated repeated
      exact ⟨s, begins, delivers.imp fun _ ended => ended.1⟩

theorem exhausts_iff (sources : List Nat) (left : Nat → List α) :
    Concatenates Exhausts sources left ↔ Repeated sources left := by
  refine ⟨fun exhausts => ?_, concatenates_repeated⟩
  obtain ⟨s, begins, delivers⟩ := exhausts
  have told := delivers.imp fun _ ended => ended.1
  rcases (concatenates_iff sources left).mp ⟨s, begins, told⟩ with filled | repeated
  · obtain ⟨s', begins', delivers'⟩ := concatenates_filled filled
    cases Option.some.inj (begins.symm.trans begins')
    obtain ⟨_, ended, stuck⟩ := delivers.meets delivers'
    cases ended.2.symm.trans stuck.2
  · exact repeated

end Concatenated

end Concatenating

section Flattening

/-- What a source has to be read: objects that are no sources, and sources. -/
inductive Objects (α : Type) where
  | done
  | leaf (obj : α) (rest : Objects α)
  | source (inner rest : Objects α)

namespace Objects

def leaves : Objects α → List α
  | done => []
  | leaf obj rest => obj :: rest.leaves
  | source inner rest => inner.leaves ++ rest.leaves

def weight : Objects α → Nat
  | done => 0
  | leaf _ rest => rest.weight + 1
  | source inner rest => inner.weight + rest.weight + 1

def isDone : Objects α → Bool
  | done => true
  | _ => false

def LastIsLeaf : Objects α → Prop
  | done => True
  | leaf _ rest => rest.LastIsLeaf
  | source _ rest => rest ≠ done ∧ rest.LastIsLeaf

theorem leaves_ne_nil {objects : Objects α} (last : objects.LastIsLeaf) (more : objects ≠ done) :
    objects.leaves ≠ [] := by
  induction objects with
  | done => exact absurd rfl more
  | leaf obj rest _ => exact List.cons_ne_nil _ _
  | source inner rest _ ih =>
    intro none_
    exact ih last.2 last.1 (List.append_eq_nil_iff.mp none_).2

end Objects

namespace Flattened

def leavesOf (sources : List (Objects α)) : List α := sources.flatMap Objects.leaves

def weightOf (sources : List (Objects α)) : Nat := (sources.map Objects.weight).sum

def isAtEnd (sources : List (Objects α)) : Bool :=
  decide (sources.length = 1) && sources.head?.any Objects.isDone

def popDone : List (Objects α) → List (Objects α)
  | .done :: source :: sources => popDone (source :: sources)
  | sources => sources

theorem popDone_weight (sources : List (Objects α)) :
    weightOf (popDone sources) = weightOf sources := by
  fun_induction popDone sources with
  | case1 source sources ih => simpa [weightOf, Objects.weight] using ih
  | case2 => rfl

def next (sources : List (Objects α)) : Answer α × List (Objects α) :=
  match _top : popDone sources with
  | .leaf obj rest :: below => (.element obj, rest :: below)
  | .source inner rest :: below => next (inner :: rest :: below)
  | stopped => (.exhaustion, stopped)
termination_by weightOf sources
decreasing_by
  rw [← popDone_weight sources, _top]
  simp only [weightOf, List.map_cons, List.sum_cons, Objects.weight]
  omega

def stream : ReadStream (List (Objects α)) α := ⟨isAtEnd, next⟩

def on (objects : Objects α) : List (Objects α) := [objects]

def Flattens (objects : Objects α) : Prop :=
  stream.Delivers (fun sources => isAtEnd sources = true) objects.leaves (on objects)

def Beneath : List (Objects α) → Prop
  | [] => False
  | [bottom] => bottom ≠ .done ∧ bottom.LastIsLeaf
  | _ :: source :: sources => Beneath (source :: sources)

def Settled : List (Objects α) → Prop
  | [] => False
  | [bottom] => bottom.LastIsLeaf
  | _ :: source :: sources => Beneath (source :: sources)

theorem beneath_leaves {sources : List (Objects α)} (beneath : Beneath sources) :
    leavesOf sources ≠ [] := by
  fun_induction Beneath sources with
  | case1 => exact absurd beneath id
  | case2 bottom =>
    intro none_
    exact Objects.leaves_ne_nil beneath.2 beneath.1 (List.append_eq_nil_iff.mp none_).1
  | case3 _ source sources ih =>
    intro none_
    exact ih beneath (List.append_eq_nil_iff.mp none_).2

theorem settled_done {sources : List (Objects α)} (settled : Settled sources)
    (none_ : leavesOf sources = []) : sources = [.done] := by
  fun_cases Settled sources with
  | case1 => exact absurd settled id
  | case2 bottom =>
    by_contra other
    apply Objects.leaves_ne_nil settled
    · rintro rfl
      exact other rfl
    · exact (List.append_eq_nil_iff.mp none_).1
  | case3 _ source sources =>
    exact absurd (List.append_eq_nil_iff.mp none_).2 (beneath_leaves settled)

theorem isAtEnd_iff (sources : List (Objects α)) : isAtEnd sources = true ↔ sources = [.done] := by
  rcases sources with _ | ⟨_ | _ | _, _ | _⟩ <;> simp [isAtEnd, Objects.isDone]

theorem popDone_leaves (sources : List (Objects α)) :
    leavesOf (popDone sources) = leavesOf sources := by
  fun_induction popDone sources with
  | case1 source sources ih => exact ih
  | case2 => rfl

theorem settled_popDone {sources : List (Objects α)} (some_ : leavesOf sources ≠ []) :
    Settled (popDone sources) ↔ Settled sources := by
  fun_induction popDone sources with
  | case1 source sources ih =>
    rw [ih some_]
    cases sources with
    | nil =>
      have other : source ≠ .done := by
        rintro rfl
        exact some_ rfl
      exact (and_iff_right other).symm
    | cons below sources => exact Iff.rfl
  | case2 => exact Iff.rfl

theorem settled_leaf (obj : α) (rest : Objects α) (below : List (Objects α)) :
    Settled (rest :: below) ↔ Settled (.leaf obj rest :: below) := by
  cases below <;> exact Iff.rfl

theorem settled_source (inner rest : Objects α) (below : List (Objects α)) :
    Settled (inner :: rest :: below) ↔ Settled (.source inner rest :: below) := by
  cases below <;> exact Iff.rfl

theorem popDone_done {sources below : List (Objects α)} (stops : popDone sources = .done :: below) :
    below = [] := by
  fun_induction popDone sources with
  | case1 source sources ih => exact ih stops
  | case2 sources more =>
    cases below with
    | nil => rfl
    | cons source below => exact absurd stops (more source below)

theorem next_leaf {sources : List (Objects α)} {obj : α} {objs : List α}
    (some_ : leavesOf sources = obj :: objs) :
    (next sources).1 = .element obj ∧ leavesOf (next sources).2 = objs ∧
      (Settled (next sources).2 ↔ Settled sources) := by
  have settled := settled_popDone (by rw [some_]; exact List.cons_ne_nil obj objs)
  rw [← popDone_leaves] at some_
  fun_induction next sources with
  | case1 sources first rest below top =>
    rw [top] at some_ settled
    cases some_
    exact ⟨rfl, rfl, (settled_leaf obj rest below).trans settled⟩
  | case2 sources inner rest below top ih =>
    rw [top] at some_ settled
    have unfolded : leavesOf (inner :: rest :: below) = obj :: objs := by
      rw [← some_]
      exact (List.append_assoc ..).symm
    obtain ⟨answers, remain, kept⟩ := ih (by rw [popDone_leaves, unfolded])
      (settled_popDone (by rw [unfolded]; exact List.cons_ne_nil obj objs))
    exact ⟨answers, remain, kept.trans ((settled_source inner rest below).trans settled)⟩
  | case3 sources no_leaf no_source =>
    cases stopped : popDone sources with
    | nil =>
      rw [stopped] at some_
      cases some_
    | cons source below =>
      cases source with
      | done =>
        rw [popDone_done stopped] at stopped
        rw [stopped] at some_
        cases some_
      | leaf obj rest => exact absurd stopped (no_leaf obj rest below)
      | source inner rest => exact absurd stopped (no_source inner rest below)

theorem next_done : next [(.done : Objects α)] = (.exhaustion, [.done]) := by
  unfold next
  rfl

theorem delivers_iff (sources : List (Objects α)) :
    stream.Delivers (fun sources => isAtEnd sources = true) (leavesOf sources) sources ↔
      Settled sources := by
  generalize leaves : leavesOf sources = objs
  induction objs generalizing sources with
  | nil =>
    constructor
    · intro delivers
      have ended : isAtEnd sources = true := delivers 0
      rw [(isAtEnd_iff sources).mp ended]
      exact trivial
    · intro settled n
      have last := settled_done settled leaves
      have still : (stream.next sources).2 = sources := by
        rw [last]
        exact congrArg Prod.snd next_done
      rw [ReadStream.after_still still, isAtEnd_iff]
      exact last
  | cons obj objs ih =>
    obtain ⟨answers, remain, kept⟩ := next_leaf leaves
    have inside : isAtEnd sources = false := by
      rw [Bool.eq_false_iff]
      intro ended
      rw [(isAtEnd_iff sources).mp ended] at leaves
      cases leaves
    rw [← kept, ← ih (next sources).2 remain]
    simp only [ReadStream.Delivers, stream, answers, inside, true_and]

theorem flattens_iff (objects : Objects α) : Flattens objects ↔ objects.LastIsLeaf := by
  have leaves : leavesOf (on objects) = objects.leaves := List.append_nil _
  rw [Flattens, ← leaves]
  exact delivers_iff (on objects)

end Flattened

end Flattening

/-- Without regard to the signal at the end, sources are read right one after the other just if
they are filled or repeated; with it, just if they are repeated. Nested sources are just where
the last object is none. -/
theorem source_streams_right_iff (sources : List Nat) (left : Nat → List α)
    (objects : Objects α) :
    (Concatenated.Concatenates Concatenated.AtEnd sources left ↔
        Concatenated.Filled sources left ∨ Concatenated.Repeated sources left) ∧
      (Concatenated.Concatenates Concatenated.Exhausts sources left ↔
        Concatenated.Repeated sources left) ∧
      (Flattened.Flattens objects ↔ objects.LastIsLeaf) :=
  ⟨Concatenated.concatenates_iff sources left, Concatenated.exhausts_iff sources left,
    Flattened.flattens_iff objects⟩

/-- An empty stream between two others ends the reading of the first. -/
theorem empty_between :
    ¬ Concatenated.Concatenates Concatenated.Exhausts [0, 1, 2] ([[7], [], [8]].getD · []) := by
  rintro ⟨s, begins, delivers⟩
  cases begins
  have second := delivers.2.2.2.1
  cases second

end SlateVm.SourceStreams
