import SlateVm.Collections.Bag

/-! `Bag` as an implementation of a multiset: no bag is one, and the steps that count. -/
namespace SlateVm.Collections

open Refinement Slots Probing

section Paired

variable {κ β : Type} {h : KeyHashing κ} {d d' : Dictionary κ β} {keys : List (Option κ)}
variable {values : List (Option β)}

structure Paired (keys : List (Option κ)) (values : List (Option β)) : Prop where
  level : values.length = keys.length
  valued : ∀ i, (stored keys i).isSome → (stored values i).isSome

theorem stored_set_any {σ : Type} (xs : List (Option σ)) (i : Nat) (x : Option σ) (j : Nat) :
    stored (xs.set i x) j = if j = i ∧ i < xs.length then x else stored xs j := by
  unfold stored
  rw [List.getElem?_set]
  grind

theorem Paired.set (paired : Paired keys values) (i : Nat) {key : Option κ} {value : Option β}
    (valued : key.isSome → value.isSome) : Paired (keys.set i key) (values.set i value) := by
  constructor
  · rw [List.length_set, List.length_set, paired.level]
  · intro j
    rw [stored_set_any, stored_set_any, paired.level]
    split
    · exact valued
    · exact paired.valued j

theorem Paired.setValue (paired : Paired keys values) (i : Nat) (value : β) :
    Paired keys (values.set i (some value)) := by
  constructor
  · rw [List.length_set, paired.level]
  · intro j keyed
    rw [stored_set_any]
    split
    · rfl
    · exact paired.valued j keyed

theorem Paired.exchange (paired : Paired keys values) (i j : Nat) :
    Paired (exchange keys i j) (exchange values i j) :=
  (paired.set i (paired.valued j)).set j (paired.valued i)

theorem paired_new (n : Nat) :
    Paired (Dictionary.new n : Dictionary κ β).keys (Dictionary.new n : Dictionary κ β).values := by
  constructor
  · simp only [Dictionary.new, List.length_replicate]
    omega
  · intro i keyed
    unfold stored at keyed
    rw [Dictionary.new, List.getElem?_replicate] at keyed
    split at keyed <;> exact absurd keyed Bool.false_ne_true

theorem Paired.visits (paired : Paired d.keys d.values) {k : κ} {v : Option β}
    (visited : (k, v) ∈ d.visits) : v.isSome := by
  unfold Dictionary.visits at visited
  split at visited
  · exact absurd visited List.not_mem_nil
  · obtain ⟨⟨key, value⟩, member, pair⟩ := List.mem_filterMap.mp visited
    obtain ⟨i, inside, here⟩ := List.mem_iff_getElem.mp member
    rw [List.getElem_zip, Prod.mk.injEq] at here
    rw [List.length_zip] at inside
    cases key with
    | none => exact nomatch pair
    | some key =>
      cases pair
      have valued := paired.valued i
      rw [stored_of_lt (by omega), stored_of_lt (by omega), here.1, here.2] at valued
      exact valued rfl

theorem Paired.growBy (paired : Paired d.keys d.values) {n : Nat} (run : d.growBy h n = some d') :
    Paired d'.keys d'.values := by
  simp only [Dictionary.growBy, Option.bind_eq_bind, Option.bind_eq_some_iff, Option.some.injEq]
    at run
  obtain ⟨temp, filled, rfl⟩ := run
  have all : ∀ pair ∈ d.visits, pair.2.isSome := fun pair visited => paired.visits visited
  have start := @paired_new κ β (d.keys.length + n)
  revert all filled start
  generalize d.visits = es
  generalize Dictionary.new (d.keys.length + n) = first
  intro filled all start
  induction es generalizing first with
  | nil =>
    cases filled
    exact start
  | cons e es ih =>
    rw [List.foldlM_cons, Option.bind_eq_bind, Option.bind_eq_some_iff] at filled
    obtain ⟨next, stored, rest⟩ := filled
    refine ih next rest (fun pair member => all pair (List.mem_cons_of_mem _ member)) ?_
    simp only [Dictionary.noCheckAt, Option.bind_eq_bind, Option.bind_eq_some_iff,
      Option.some.injEq] at stored
    obtain ⟨index, _, rfl⟩ := stored
    exact start.set index fun _ => all e List.mem_cons_self

theorem Paired.atPut (paired : Paired d.keys d.values) {key : κ} {obj : β}
    (run : d.atPut h key (some obj) = some d') : Paired d'.keys d'.values := by
  simp only [Dictionary.atPut, Option.bind_eq_bind, Option.bind_eq_some_iff] at run
  obtain ⟨index, _, slot, _, checked⟩ := run
  have stored : ∀ e : Dictionary κ β, Paired e.keys e.values → e.fullCheck h = some d' →
      Paired d'.keys d'.values := by
    intro e held run
    unfold Dictionary.fullCheck at run
    split at run
    · exact held.growBy run
    · cases run
      exact held
  apply stored _ _ checked
  cases slot with
  | none => exact paired.set index fun _ => rfl
  | some key => exact paired.setValue index obj

theorem Paired.fixCollisionsFrom (paired : Paired d.keys d.values) {rounds index : Nat}
    (run : Collections.fixCollisionsFrom (Dictionary.accessors h) rounds d index = some d') :
    Paired d'.keys d'.values := by
  induction rounds generalizing d index with
  | zero => exact nomatch run
  | succ rounds ih =>
    simp only [Collections.fixCollisionsFrom, Option.bind_eq_bind, Option.bind_eq_some_iff] at run
    obtain ⟨slot, _, onward⟩ := run
    cases slot with
    | none =>
      cases onward
      exact paired
    | some element =>
      obtain ⟨newIndex, _, later⟩ := Option.bind_eq_some_iff.mp onward
      refine ih ?_ later
      split
      · exact paired
      · exact paired.exchange _ _

theorem Paired.removeKey (paired : Paired d.keys d.values) {key : Option κ}
    {object : Option (Option κ)} (run : d.removeKey h key = some (d', object)) :
    Paired d'.keys d'.values := by
  unfold Dictionary.removeKey at run
  split at run
  · cases run
    exact paired
  · next index _ =>
    simp only [Option.bind_eq_bind, Option.bind_eq_some_iff, Option.some.injEq, Prod.mk.injEq]
      at run
    obtain ⟨_, _, walked, fixed, rfl, _⟩ := run
    exact Paired.fixCollisionsFrom (paired.set index fun keyed => keyed) fixed

theorem Paired.includesKey (paired : Paired d.keys d.values) (key : Option κ) :
    d.includesKey h key ≠ some false := by
  intro answer
  simp only [Dictionary.includesKey, Dictionary.at?, Dictionary.atIfAbsent, Option.bind_eq_bind,
    Option.bind_eq_some_iff, Option.some.injEq, Option.join_eq_some_iff] at answer
  obtain ⟨_, _, value, ⟨index, _, slot, keyed, found⟩, missing⟩ := answer
  cases slot with
  | none => cases found
  | some k =>
    have valued := paired.valued index
    obtain ⟨v, there, same⟩ := Option.map_eq_some_iff.mp found
    cases same
    rw [stored, stored, keyed, there] at valued
    exact Bool.false_ne_true (missing.symm.trans (valued rfl))

end Paired

namespace Bag

variable {κ : Type} {h : KeyHashing κ} {b b' : Bag κ} {m : κ → Nat} {op : Op κ}

def Valued (b : Bag κ) : Prop := Paired b.contents.keys b.contents.values

theorem Valued.addWithOccurrences (valued : Valued b) {obj : Option κ} {n : Nat}
    (run : b.addWithOccurrences h obj n = some b') : Valued b' := by
  simp only [Bag.addWithOccurrences, Option.bind_eq_bind, Option.bind_eq_some_iff,
    Option.some.injEq] at run
  obtain ⟨_, _, count, _, key, _, contents, stored, rfl⟩ := run
  exact Paired.atPut valued stored

theorem Valued.removeIfAbsent (valued : Valued b) {obj : Option κ}
    (run : b.removeIfAbsent h obj = some b') : Valued b' := by
  simp only [Bag.removeIfAbsent, Option.bind_eq_bind, Option.bind_eq_some_iff] at run
  obtain ⟨found, _, rest⟩ := run
  cases found with
  | none =>
    cases rest
    exact valued
  | some value =>
    simp only at rest
    split at rest
    · simp only [Option.bind_eq_some_iff, Option.some.injEq] at rest
      obtain ⟨⟨contents, object⟩, removed, rfl⟩ := rest
      exact Paired.removeKey valued removed
    · simp only [Option.bind_eq_some_iff, Option.some.injEq] at rest
      obtain ⟨key, _, count, _, contents, stored, rfl⟩ := rest
      exact Paired.atPut valued stored

theorem Valued.step (valued : Valued b) (run : b.perform h op = some b') : Valued b' := by
  cases op with
  | add obj => exact valued.addWithOccurrences run
  | addWithOccurrences obj n => exact valued.addWithOccurrences run
  | «include» obj =>
    simp only [perform, Bag.«include», Option.bind_eq_bind, Option.bind_eq_some_iff] at run
    obtain ⟨included, _, rest⟩ := run
    split at rest
    · cases rest
      exact valued
    · cases rest
  | removeIfAbsent obj => exact valued.removeIfAbsent run
  | removeEvery obj =>
    simp only [perform, Bag.removeEvery, Option.bind_eq_bind, Option.bind_eq_some_iff,
      Option.some.injEq] at run
    obtain ⟨⟨contents, object⟩, removed, _, _, rfl⟩ := run
    exact Paired.removeKey valued removed

theorem valued_of_reached {allowed : Bag κ → Op κ → Prop}
    (reached : Reached (implementation h) allowed b m) : Valued b := by
  apply @Reached.invariant _ _ _ _ (implementation h) allowed fun b _ => Valued b
  · rintro b m ⟨n, rfl, rfl⟩
    exact paired_new n
  · intro b m op b' a valued _ run
    obtain ⟨_, performed, same⟩ := Option.map_eq_some_iff.mp run
    cases same
    exact valued.step performed
  · exact reached

theorem next_signals (i : ReadStream κ) : i.next h = none := by
  simp only [ReadStream.next, ReadStream.keyAt, Option.bind_eq_bind, Option.bind_none,
    Option.bind_fun_none]

theorem Valued.not_shows (valued : Valued b) : ¬ Shows h b m := by
  intro shown
  obtain ⟨fuel, xs, read, occurs⟩ := shown.stream
  cases fuel with
  | zero => exact nomatch read
  | succ fuel =>
    simp only [ReadStream.upToEnd, next_signals, Option.bind_eq_bind, Option.bind_eq_some_iff] at read
    obtain ⟨ended, _, rest⟩ := read
    split at rest
    · cases rest
      have zero : 0 = m (h.integer 0) := occurs (h.integer 0)
      have excluded := shown.includes (h.integer 0)
      rw [← zero] at excluded
      exact valued.includesKey _ excluded
    · exact nomatch rest

/-- No run makes a bag that shows its occurrences. Those that `do:` and `size` show are right in
runs of steps that count. -/
theorem bag_shows_never (h : KeyHashing κ) :
    (∀ b m, Reached (implementation h) (fun _ _ => True) b m → ¬ Shows h b m) ∧
      Refines (implementation h) (Spares h) (Counts h) := by
  constructor
  · intro b m reached
    exact (valued_of_reached reached).not_shows
  · apply Refines.of_steps (Represents h)
    · rintro b m ⟨n, rfl, rfl⟩
      exact represents_new n
    · intro b m op r spares
      obtain ⟨b', run, r'⟩ := r.step spares
      exact ⟨b', (), by simp only [implementation, run, Option.map_some], trivial, r'⟩
    · intro b m r
      exact r.counts

/-- One element: asking for its occurrences signals. -/
theorem occurrences_signal : ¬ ∀ (κ : Type) (h : KeyHashing κ),
    Refines (implementation h) (fun _ _ => True) (Shows h) := by
  intro refines
  apply Refines.not_of_state (i := implementation ⟨numbers, 0, id⟩) (s := newSized 4)
    (m := fun _ => 0) ⟨4, rfl, rfl⟩ [.add (some 7)]
    (fun b _ => (b.occurrencesOf ⟨numbers, 0, id⟩ 7).isSome) (by decide +kernel) _
    (refines Nat ⟨numbers, 0, id⟩)
  intro b m shown
  rw [shown.occurrencesOf]
  rfl

end Bag

end SlateVm.Collections
