import SlateVm.Collections.DictionaryRuns

/-! `Bag`: elements with the number of their occurrences, in a `Dictionary`, and its stream. -/
namespace SlateVm.Collections

open Refinement Slots

/-- The `contents` of a `Bag`. -/
structure Bag (κ : Type) where
  contents : Dictionary κ Int

namespace Bag

variable {κ : Type} (h : KeyHashing κ)

def newSized (n : Nat) : Bag κ := ⟨Dictionary.new n⟩

/-- `inject: start into: #+` over the values; Nil is no summand. -/
def total (start : Int) (es : List (κ × Option Int)) : Option Int :=
  es.foldlM (fun result (_, value) => value.map (result + ·)) start

def size (b : Bag κ) : Option Int := total 0 b.contents.visits

/-- `add:withOccurrences:`. A dictionary does not take Nil as a key. -/
def addWithOccurrences (b : Bag κ) (obj : Option κ) (n : Nat) : Option (Bag κ) := do
  let occurrences ← b.contents.atIfAbsent h obj
  let count ← occurrences.getD (some 0)
  let contents ← b.contents.atPut h (← obj) (some (count + n))
  some ⟨contents⟩

def add (b : Bag κ) (obj : Option κ) : Option (Bag κ) := b.addWithOccurrences h obj 1

def includes (b : Bag κ) (obj : Option κ) : Option Bool := b.contents.includesKey h obj

/-- `include:`. For an element that is not included it sends `at:put:` to the bag, which a bag
does not understand. -/
def «include» (b : Bag κ) (obj : Option κ) : Option (Bag κ) := do
  if ← b.includes h obj then some b else none

/-- What a block is applied to by `timesRepeat:`, for each key. Nil repeats nothing, it signals. -/
def repeats : List (κ × Option Int) → Option (List κ)
  | [] => some []
  | (key, value) :: rest => do
    let count ← value
    let later ← repeats rest
    some (List.replicate count.toNat key ++ later)

def elementsDo (b : Bag κ) : Option (List κ) := repeats b.contents.visits

/-- `occurrencesOf:`, which may find Nil. -/
def occurrencesOf (b : Bag κ) (obj : κ) : Option (Option Int) := do
  if ← b.includes h (some obj) then b.contents.at? h obj else some (some 0)

/-- `remove:ifAbsent:`, with a block that does nothing. -/
def removeIfAbsent (b : Bag κ) (obj : Option κ) : Option (Bag κ) := do
  match ← b.contents.atIfAbsent h obj with
  | none => some b
  | some value =>
    if value = some 1 then do
      let (contents, _) ← b.contents.removeKey h obj
      some ⟨contents⟩
    else do
      let contents ← b.contents.atPut h (← obj) (some ((← value) - 1))
      some ⟨contents⟩

/-- `removeEvery:`; `removeKey:` signals when its block is run. -/
def removeEvery (b : Bag κ) (obj : Option κ) : Option (Bag κ) := do
  let (contents, object) ← b.contents.removeKey h obj
  let _ ← object
  some ⟨contents⟩

/-- `Bag ReadStream`. -/
structure ReadStream (κ : Type) where
  collection : Bag κ
  elementIdx : Nat
  occurrence : Int

namespace ReadStream

def on (b : Bag κ) : ReadStream κ := ⟨b, 0, 0⟩

def atLastOccurrence (i : ReadStream κ) : Option Bool := do
  let value ← i.collection.contents.at? h (h.integer i.elementIdx)
  some (some i.occurrence = value)

def isAtEnd (i : ReadStream κ) : Option Bool :=
  if i.elementIdx = i.collection.contents.tally then i.atLastOccurrence h else some false

/-- `keyAt:` is a method of `Set`, not of `Dictionary`: sending it signals. -/
def keyAt (_d : Dictionary κ Int) (_index : Nat) : Option κ := none

def next (i : ReadStream κ) : Option (κ × ReadStream κ) := do
  let i := if ← i.atLastOccurrence h then { i with elementIdx := i.elementIdx + 1, occurrence := 1 }
    else { i with occurrence := i.occurrence + 1 }
  let key ← keyAt i.collection.contents i.elementIdx
  some (key, i)

/-- What `next` delivers before the stream reports its end, in at most `fuel` rounds. -/
def upToEnd : Nat → ReadStream κ → Option (List κ)
  | 0, _ => none
  | fuel + 1, i => do
    if ← i.isAtEnd h then some []
    else do
      let (key, i) ← i.next h
      let later ← upToEnd fuel i
      some (key :: later)

end ReadStream

inductive Op (κ : Type) where
  | add (obj : Option κ)
  | addWithOccurrences (obj : Option κ) (n : Nat)
  | «include» (obj : Option κ)
  | removeIfAbsent (obj : Option κ)
  | removeEvery (obj : Option κ)

def perform (b : Bag κ) : Op κ → Option (Bag κ)
  | .add obj => b.add h obj
  | .addWithOccurrences obj n => b.addWithOccurrences h obj n
  | .«include» obj => b.«include» h obj
  | .removeIfAbsent obj => b.removeIfAbsent h obj
  | .removeEvery obj => b.removeEvery h obj

/-- Another number of occurrences of the elements equal to `obj`. -/
def recount (m : κ → Nat) (obj : Option κ) (change : Nat → Nat) : κ → Nat :=
  fun k => if obj.any fun obj => h.equals obj k then change (m k) else m k

def Op.after (m : κ → Nat) : Op κ → κ → Nat
  | .add obj => recount h m obj (· + 1)
  | .addWithOccurrences obj n => recount h m obj (· + n)
  | .«include» obj => recount h m obj (max 1)
  | .removeIfAbsent obj => recount h m obj (· - 1)
  | .removeEvery obj => recount h m obj fun _ => 0

def Occurs (m : κ → Nat) (xs : List κ) : Prop := ∀ k, xs.countP (fun x => h.equals x k) = m k

def Counts (b : Bag κ) (m : κ → Nat) : Prop :=
  ∃ xs, b.elementsDo = some xs ∧ Occurs h m xs ∧ b.size = some (xs.length : Int)

structure Shows (b : Bag κ) (m : κ → Nat) : Prop where
  occurrencesOf : ∀ obj, b.occurrencesOf h obj = some (some (m obj : Int))
  includes : ∀ obj, b.includes h (some obj) = some (decide (0 < m obj))
  counts : Counts h b m
  stream : ∃ fuel xs, (ReadStream.on b).upToEnd h fuel = some xs ∧ Occurs h m xs

def implementation : Implementation (Bag κ) (κ → Nat) (Op κ) Unit where
  start b m := ∃ n, b = newSized n ∧ m = fun _ => 0
  perform b op := (b.perform h op).map (·, ())
  next m op _ := op.after h m
  right _ _ _ := True

/-- The steps that count. A removal is of a positive number of occurrences, and the dictionary
can remove the key where it has to; an element to be included occurs already, and its search
ends at an index that is a key. -/
def Spares (b : Bag κ) : Op κ → Prop
  | .add obj | .addWithOccurrences obj _ => obj.isSome
  | .«include» obj => Dictionary.Spares h b.contents (.includesKey obj) ∧
      ∃ n, b.contents.atIfAbsent h obj = some (some (some n)) ∧ 0 < n
  | .removeIfAbsent obj => ∀ n, b.contents.atIfAbsent h obj = some (some (some n)) →
      0 < n ∧ (n = 1 → Dictionary.Spares h b.contents (.removeKey obj))
  | .removeEvery obj => Dictionary.Spares h b.contents (.removeKey obj)

end Bag

end SlateVm.Collections

/-! What runs of `Bag` operations count, and why no bag shows it. -/
namespace SlateVm.Collections.Bag

open Refinement Slots Probing

variable {κ : Type} {h : KeyHashing κ} {b b' : Bag κ} {m : κ → Nat} {op : Op κ}

section Counting

variable {es : List (κ × Option Int)} {c : κ → Option (Option Int)}

def Agrees (c : κ → Option (Option Int)) (m : κ → Nat) : Prop :=
  ∀ k, (c k).getD (some 0) = some (m k : Int)

theorem Agrees.of_some (agrees : Agrees c m) {k : κ} {v : Option Int} (here : c k = some v) :
    v = some (m k : Int) := by
  have same := agrees k
  rwa [here] at same

theorem total_cons (start : Int) (k : κ) (n : Int) (es : List (κ × Option Int)) :
    total start ((k, some n) :: es) = total (start + n) es := rfl

theorem total_from {es : List (κ × Option Int)} {first sum : Int} (known : total first es = some sum)
    (start : Int) : total (start + first) es = some (start + sum) := by
  induction es generalizing first with
  | nil =>
    cases known
    rfl
  | cons e es ih =>
    obtain ⟨k, v⟩ := e
    cases v with
    | none => exact nomatch known
    | some n =>
      rw [total_cons] at known ⊢
      rw [Int.add_assoc]
      exact ih known

theorem Lists.repeated (lists : Lists h.toHashing c es) (agrees : Agrees c m) :
    ∃ xs, repeats es = some xs ∧ Occurs h m xs ∧
      total 0 es = some (xs.length : Int) := by
  induction es generalizing c m with
  | nil =>
    refine ⟨[], rfl, ?_, rfl⟩
    intro k
    cases here : c k with
    | none =>
      have same := agrees k
      rw [here] at same
      have zero : (m k : Int) = 0 := (Option.some.inj same).symm
      simp only [List.countP_nil]
      omega
    | some v =>
      obtain ⟨_, member, _⟩ := (lists.content k v).mp here
      exact absurd member List.not_mem_nil
  | cons e es ih =>
    obtain ⟨b, v⟩ := e
    have found : ∀ k, h.equals b k = true → v = some (m k : Int) := fun k equal =>
      agrees.of_some ((lists.content k v).mpr ⟨b, List.mem_cons_self, equal⟩)
    cases found b (h.refl b)
    have erased := lists.erase (h.refl b)
    have rest : Agrees (erase h.toHashing c b) fun k => if h.equals b k then 0 else m k := by
      intro k
      simp only [erase]
      split
      · rfl
      · exact agrees k
    obtain ⟨xs, repeated, occurs, summed⟩ := ih erased rest
    refine ⟨List.replicate (m b) b ++ xs, ?_, ?_, ?_⟩
    · simp only [repeats, repeated, Option.bind_eq_bind, Option.bind_some, Int.toNat_natCast]
    · intro k
      have later : xs.countP (fun x => h.equals x k) = if h.equals b k then 0 else m k := occurs k
      rw [List.countP_append, List.countP_replicate, later]
      cases equal : h.equals b k with
      | true =>
        have same : (m b : Int) = m k := Option.some.inj (found k equal)
        rw [if_pos rfl, if_pos rfl]
        omega
      | false =>
        rw [if_neg Bool.false_ne_true, if_neg Bool.false_ne_true, Nat.zero_add]
    · rw [total_cons, Int.zero_add, ← Int.add_zero (m b : Int), total_from summed,
        List.length_append, List.length_replicate, Int.natCast_add]

end Counting

def Represents (h : KeyHashing κ) (b : Bag κ) (m : κ → Nat) : Prop :=
  ∃ c, Dictionary.Represents h b.contents c ∧ Agrees c m

theorem Represents.counts (r : Represents h b m) : Counts h b m := by
  obtain ⟨c, holds, agrees⟩ := r
  exact Lists.repeated holds.shows.lists agrees

theorem represents_new (n : Nat) : Represents h (newSized n) fun _ => 0 :=
  ⟨_, Dictionary.represents_new n, fun _ => rfl⟩

theorem Agrees.put {c : κ → Option (Option Int)} (agrees : Agrees c m) {key : κ} {count : Int}
    {change : Nat → Nat} (changed : ∀ k, h.equals key k = true → count = (change (m k) : Int)) :
    Agrees (Collections.put h.toHashing c key (some count)) (recount h m (some key) change) := by
  intro k
  unfold Collections.put recount
  rw [Option.any_some]
  split
  · next equal => exact congrArg some (changed k equal)
  · exact agrees k

theorem Agrees.erase {c : κ → Option (Option Int)} (agrees : Agrees c m) {key : κ}
    {change : Nat → Nat} (changed : ∀ k, h.equals key k = true → change (m k) = 0) :
    Agrees (Collections.erase h.toHashing c key) (recount h m (some key) change) := by
  intro k
  unfold Collections.erase recount
  rw [Option.any_some]
  split
  · next equal => rw [changed k equal]; rfl
  · exact agrees k

theorem Represents.congr (r : Represents h b m) {a k : κ} (equal : h.equals a k = true) :
    m a = m k := by
  obtain ⟨xs, _, occurs, _⟩ := r.counts
  rw [← occurs a, ← occurs k]
  apply List.countP_congr
  intro x _
  constructor
  · exact fun first => h.trans x a k first equal
  · exact fun second => h.trans x k a second (h.symm a k equal)

def Works (h : KeyHashing κ) (b : Bag κ) (m : κ → Nat) (op : Op κ) : Prop :=
  ∃ b', b.perform h op = some b' ∧ Represents h b' (op.after h m)

theorem Represents.addWithOccurrences (r : Represents h b m) (obj : κ) (n : Nat) :
    Works h b m (.addWithOccurrences (some obj) n) := by
  have same : ∀ k, h.equals obj k = true → m obj = m k := fun _ => r.congr
  obtain ⟨c, holds, agrees⟩ := r
  obtain ⟨d, stored, holds'⟩ := holds.atPut obj (some ((m obj : Int) + n))
  have after : Agrees (put h.toHashing c obj (some ((m obj : Int) + n)))
      (recount h m (some obj) (· + n)) := by
    apply agrees.put
    intro k equal
    rw [same k equal, Int.natCast_add]
  have found := holds.at_eq (some obj)
  have count : (c obj).getD (some 0) = some (m obj : Int) := agrees obj
  refine ⟨⟨d⟩, ?_, _, holds', after⟩
  simp only [perform, Bag.addWithOccurrences, found, Dictionary.lookUp, Option.bind_some, count,
    stored, Option.bind_eq_bind]

theorem Represents.add (r : Represents h b m) (obj : κ) : Works h b m (.add (some obj)) :=
  r.addWithOccurrences obj 1

theorem Represents.include (r : Represents h b m) {obj : Option κ}
    (spares : Spares h b (.«include» obj)) : Works h b m (.«include» obj) := by
  have r' := r
  obtain ⟨c, holds, agrees⟩ := r
  obtain ⟨⟨index, value, scanned, found, fits⟩, n, counted, positive⟩ := spares
  rw [holds.at_eq] at counted
  have known : Dictionary.lookUp c obj = some (some n) := Option.some.inj counted
  have included : b.includes h obj = some true := by
    rw [holds.present scanned, known] at fits
    simp only [includes, Dictionary.includesKey, scanned, found, fits, Option.bind_eq_bind,
      Option.bind_some]
    rfl
  refine ⟨b, ?_, ?_⟩
  · simp only [perform, Bag.«include», included, Option.bind_eq_bind, Option.bind_some, if_true]
  · have unchanged : recount h m obj (max 1) = m := by
      funext k
      cases obj with
      | none => rfl
      | some obj =>
        have count : some n = some (m obj : Int) := agrees.of_some known
        cases count
        simp only [recount, Option.any_some]
        split
        · next equal =>
          rw [← r'.congr equal]
          omega
        · rfl
    rw [Op.after, unchanged]
    exact r'

theorem Represents.removeEvery (r : Represents h b m) {obj : Option κ}
    (spares : Spares h b (.removeEvery obj)) : Works h b m (.removeEvery obj) := by
  obtain ⟨c, holds, agrees⟩ := r
  obtain ⟨d, object, k, rfl, _, removed, holds', _⟩ := holds.removeKey spares
  have after : Agrees (erase h.toHashing c k) (recount h m (some k) fun _ => 0) :=
    agrees.erase fun _ _ => rfl
  refine ⟨⟨d⟩, ?_, _, holds', after⟩
  simp only [perform, Bag.removeEvery, removed, Option.bind_eq_bind, Option.bind_some]

theorem Represents.removeIfAbsent (r : Represents h b m) {obj : Option κ}
    (spares : Spares h b (.removeIfAbsent obj)) : Works h b m (.removeIfAbsent obj) := by
  have r' := r
  obtain ⟨c, holds, agrees⟩ := r
  have found := holds.at_eq obj
  cases known : Dictionary.lookUp c obj with
  | none =>
    refine ⟨b, by simp only [perform, Bag.removeIfAbsent, found, known, Option.bind_eq_bind,
      Option.bind_some], ?_⟩
    have unchanged : recount h m obj (· - 1) = m := by
      funext k
      cases obj with
      | none => rfl
      | some obj =>
        have zero := agrees obj
        rw [show c obj = none from known] at zero
        have count : (0 : Int) = m obj := Option.some.inj zero
        simp only [recount, Option.any_some]
        split
        · next equal =>
          rw [← r'.congr equal]
          omega
        · rfl
    rw [Op.after, unchanged]
    exact r'
  | some value =>
    cases obj with
    | none => exact nomatch known
    | some obj =>
      cases agrees.of_some known
      obtain ⟨positive, removable⟩ := spares (m obj) (by rw [found, known])
      by_cases one : (m obj : Int) = 1
      · obtain ⟨d, object, k, here, _, removed, holds', _⟩ := holds.removeKey (removable one)
        cases here
        have after : Agrees (erase h.toHashing c obj) (recount h m (some obj) (· - 1)) := by
          apply agrees.erase
          intro k equal
          rw [← r'.congr equal]
          omega
        refine ⟨⟨d⟩, ?_, _, holds', after⟩
        simp only [perform, Bag.removeIfAbsent, found, known, one, if_true, removed,
          Option.bind_eq_bind, Option.bind_some]
      · obtain ⟨d, stored, holds'⟩ := holds.atPut obj (some ((m obj : Int) - 1))
        have several : some (m obj : Int) ≠ some 1 := fun equal => one (Option.some.inj equal)
        have after : Agrees (put h.toHashing c obj (some ((m obj : Int) - 1)))
            (recount h m (some obj) (· - 1)) := by
          apply agrees.put
          intro k equal
          rw [← r'.congr equal]
          omega
        refine ⟨⟨d⟩, ?_, _, holds', after⟩
        simp only [perform, Bag.removeIfAbsent, found, known, if_neg several, stored,
          Option.bind_eq_bind, Option.bind_some]

theorem Represents.step (r : Represents h b m) (spares : Spares h b op) : Works h b m op := by
  cases op with
  | add obj =>
    obtain ⟨key, rfl⟩ := Option.isSome_iff_exists.mp spares
    exact r.add key
  | addWithOccurrences obj n =>
    obtain ⟨key, rfl⟩ := Option.isSome_iff_exists.mp spares
    exact r.addWithOccurrences key n
  | «include» obj => exact r.include spares
  | removeIfAbsent obj => exact r.removeIfAbsent spares
  | removeEvery obj => exact r.removeEvery spares

end SlateVm.Collections.Bag
