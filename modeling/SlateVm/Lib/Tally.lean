import Mathlib.Logic.Function.Basic
import Mathlib.Tactic.Common

/-! Counts kept by key, and by pairs of keys, and the same counts kept by other keys. A
relation says which key of the one side stands for which of the other. -/
namespace Tally

variable {α ι : Type}

abbrev Counts (α : Type) := α → Option Int

/-- Reading a count that is not there gives zero. -/
def count (m : Counts α) (k : α) : Int := (m k).getD 0

abbrev Pairs (α : Type) := α → Option (Counts α)

def pair (m : Pairs α) (p k : α) : Option Int := (m p).bind (· k)

section Updates

variable [DecidableEq α]

def add (m : Counts α) (k : α) (d : Int) : Counts α :=
  Function.update m k (some (count m k + d))

def erase (m : Counts α) (k : α) : Counts α := Function.update m k none

/-- The count of one key becomes that of another. -/
def move (m : Counts α) (k l : α) : Counts α :=
  erase (Function.update m l (some (count m k))) k

def addPair (m : Pairs α) (p k : α) (d : Int) : Pairs α :=
  Function.update m p (some
    (match m p with
    | none => Function.update (fun _ => none) k (some d)
    | some inner => add inner k d))

/-- Only the second keys of the pairs are moved. -/
def movePair (m : Pairs α) (k l : α) : Pairs α := fun p =>
  (m p).map fun inner =>
    if (inner k).isSome then erase (Function.update inner l (inner k)) k else inner

def erasePair (m : Pairs α) (k : α) : Pairs α := fun p => (m p).map (erase · k)

theorem count_add (m : Counts α) (k j : α) (d : Int) :
    count (add m k d) j = if j = k then count m k + d else count m j := by
  unfold count add
  rw [Function.update_apply]
  split <;> rfl

theorem count_erase (m : Counts α) (k j : α) :
    count (erase m k) j = if j = k then 0 else count m j := by
  unfold count erase
  rw [Function.update_apply]
  split <;> rfl

theorem count_move (m : Counts α) {k l : α} (apart : l ≠ k) (j : α) :
    count (move m k l) j = if j = l then count m k else if j = k then 0 else count m j := by
  unfold move
  rw [count_erase]
  by_cases new : j = l
  · rw [if_neg (by rw [new]; exact apart), if_pos new, count, Function.update_apply, if_pos new]
    rfl
  · rw [if_neg new]
    congr 1
    rw [count, Function.update_apply, if_neg new]
    rfl

theorem pair_addPair (m : Pairs α) (p k q j : α) (d : Int) :
    pair (addPair m p k d) q j =
      if q = p ∧ j = k then some ((pair m p k).getD 0 + d) else pair m q j := by
  unfold pair addPair
  rw [Function.update_apply]
  by_cases parent : q = p
  · subst parent
    cases inner : m q with
    | none =>
      by_cases child : j = k
      · simp [child]
      · simp [child]
    | some inner =>
      by_cases child : j = k
      · simp [child, add, count]
      · simp [child, add]
  · simp [parent]

theorem pair_erasePair (m : Pairs α) (k p j : α) :
    pair (erasePair m k) p j = if j = k then none else pair m p j := by
  unfold pair erasePair
  cases m p with
  | none => simp
  | some inner =>
    simp only [Option.map_some, Option.bind_some, erase, Function.update_apply]

theorem pair_movePair (m : Pairs α) {k l : α} (apart : l ≠ k) {p : α} (vacant : pair m p l = none)
    (j : α) : pair (movePair m k l) p j =
      if j = l then pair m p k else if j = k then none else pair m p j := by
  unfold pair movePair at *
  cases inner : m p with
  | none => simp
  | some inner' =>
    rw [inner] at vacant
    simp only [Option.bind_some] at vacant
    simp only [Option.map_some, Option.bind_some]
    cases here : inner' k with
    | none =>
      simp only [Option.isSome_none, Bool.false_eq_true, if_false]
      by_cases new : j = l
      · rw [if_pos new, new, vacant]
      · by_cases old : j = k
        · rw [if_neg new, if_pos old, old, here]
        · rw [if_neg new, if_neg old]
    | some d =>
      simp only [Option.isSome_some, if_true, erase, Function.update_apply]
      by_cases new : j = l
      · rw [if_neg (by rw [new]; exact apart), if_pos new, if_pos new]
      · rw [if_neg new, if_neg new]

end Updates

/-- A relation between keys that is one to one. -/
structure Naming (here : ι → α → Prop) : Prop where
  apart : ∀ {x y a}, here x a → here y a → x = y
  single : ∀ {x a b}, here x a → here x b → a = b

theorem Naming.eq_iff {here : ι → α → Prop} (naming : Naming here) {x y : ι} {a b : α}
    (hx : here x a) (hy : here y b) : b = a ↔ y = x := by
  constructor
  · rintro rfl
    exact naming.apart hy hx
  · rintro rfl
    exact naming.single hy hx

/-- Keys that stand for each other have equal counts. -/
def Same (here : ι → α → Prop) (m : Counts α) (m' : Counts ι) : Prop :=
  ∀ x a, here x a → count m a = count m' x

def SamePairs (here : ι → α → Prop) (m : Pairs α) (m' : Pairs ι) : Prop :=
  ∀ x a y b, here x a → here y b → (pair m a b).getD 0 = (pair m' x y).getD 0

section Relations

variable {here here' : ι → α → Prop} {m : Counts α} {m' : Counts ι} {n : Pairs α} {n' : Pairs ι}
  {x : ι} {a b : α}

/-- `b` stands for `x` from now on, and stood for nothing. -/
structure Places (here here' : ι → α → Prop) (x : ι) (b : α) : Prop where
  vacant : ∀ y, ¬ here y b
  new : ∀ y c, here' y c ↔ (y = x ∧ c = b) ∨ (y ≠ x ∧ here y c)

theorem Naming.places (naming : Naming here) (places : Places here here' x b) :
    Naming here' := by
  constructor
  · intro y z c hy hz
    rcases (places.new y c).mp hy with ⟨rfl, rfl⟩ | ⟨_, old⟩
    · rcases (places.new z c).mp hz with ⟨rfl, _⟩ | ⟨_, other⟩
      · rfl
      · exact absurd other (places.vacant z)
    · rcases (places.new z c).mp hz with ⟨rfl, rfl⟩ | ⟨_, other⟩
      · exact absurd old (places.vacant y)
      · exact naming.apart old other
  · intro y c e hc he
    rcases (places.new y c).mp hc with ⟨rfl, rfl⟩ | ⟨off, old⟩
    · rcases (places.new y e).mp he with ⟨_, rfl⟩ | ⟨off, _⟩
      · rfl
      · exact absurd rfl off
    · rcases (places.new y e).mp he with ⟨rfl, _⟩ | ⟨_, other⟩
      · exact absurd rfl off
      · exact naming.single old other

theorem Same.place (same : Same here m m') (places : Places here here' x b)
    (level : count m b = count m' x) : Same here' m m' := by
  intro y c hy
  rcases (places.new y c).mp hy with ⟨rfl, rfl⟩ | ⟨_, old⟩
  · exact level
  · exact same y c old

/-- Neither key has counts with any other. -/
theorem SamePairs.place (same : SamePairs here n n') (places : Places here here' x b)
    (first : ∀ k, pair n b k = none) (second : ∀ p, pair n p b = none)
    (bare : ∀ y c, here' y c → (pair n' x y).getD 0 = 0 ∧ (pair n' y x).getD 0 = 0) :
    SamePairs here' n n' := by
  intro y c z e hy hz
  rcases (places.new y c).mp hy with ⟨rfl, rfl⟩ | ⟨_, old⟩
  · rw [first, (bare z e hz).1]
    rfl
  · rcases (places.new z e).mp hz with ⟨rfl, rfl⟩ | ⟨_, other⟩
    · rw [second, (bare y c hy).2]
      rfl
    · exact same y c z e old other

/-- What stands for `x` changes from `a` to `b`. -/
structure Renames (here here' : ι → α → Prop) (x : ι) (a b : α) : Prop
    extends Places here here' x b where
  old : here x a

theorem Renames.ne (renames : Renames here here' x a b) : b ≠ a := by
  rintro rfl
  exact renames.vacant x renames.old

theorem Renames.other (naming : Naming here) (renames : Renames here here' x a b) {y : ι} {c : α}
    (off : y ≠ x) (hy : here y c) : c ≠ b ∧ c ≠ a := by
  constructor
  · rintro rfl
    exact renames.vacant y hy
  · rintro rfl
    exact off (naming.apart hy renames.old)

/-- Where every key stood before. -/
theorem Renames.before (renames : Renames here here' x a b) {y : ι} {c : α} (hy : here' y c) :
    ∃ e, here y e ∧ ((c = b ∧ e = a) ∨ c = e) := by
  rcases (renames.new y c).mp hy with ⟨rfl, rfl⟩ | ⟨_, old⟩
  · exact ⟨a, renames.old, Or.inl ⟨rfl, rfl⟩⟩
  · exact ⟨c, old, Or.inr rfl⟩

/-- Where neither key has counts with any other, nothing has to be moved. -/
theorem SamePairs.stay (same : SamePairs here n n') (renames : Renames here here' x a b)
    (first : ∀ k, pair n a k = none ∧ pair n b k = none)
    (second : ∀ p, pair n p a = none ∧ pair n p b = none) : SamePairs here' n n' := by
  apply same.place renames.toPlaces
  · exact fun k => (first k).2
  · exact fun p => (second p).2
  · intro y c hy
    obtain ⟨e, old, _⟩ := renames.before hy
    constructor
    · rw [← same x a y e renames.old old, (first e).1]
      rfl
    · rw [← same y e x a old renames.old, (second e).1]
      rfl

section Steps

variable [DecidableEq α]

theorem Same.move (naming : Naming here) (same : Same here m m')
    (renames : Renames here here' x a b) : Same here' (move m a b) m' := by
  intro y c hy
  rw [count_move m renames.ne]
  rcases (renames.new y c).mp hy with ⟨rfl, rfl⟩ | ⟨off, old⟩
  · rw [if_pos rfl]
    exact same y a renames.old
  · obtain ⟨new, away⟩ := renames.other naming off old
    rw [if_neg new, if_neg away]
    exact same y c old

/-- Moving the second keys is enough where no pair begins with the key that moves. -/
theorem SamePairs.move (naming : Naming here) (same : SamePairs here n n')
    (renames : Renames here here' x a b) (vacant : ∀ p, pair n p b = none)
    (leaf : ∀ k, pair n a k = none) (target : ∀ k, pair n b k = none) :
    SamePairs here' (movePair n a b) n' := by
  intro y c z e hy hz
  rw [pair_movePair n renames.ne (vacant c)]
  have parent : ∃ c', here y c' ∧ ∀ k, pair n c k = pair n c' k := by
    obtain ⟨c', old, ⟨rfl, rfl⟩ | rfl⟩ := renames.before hy
    · exact ⟨c', old, fun k => by rw [target, leaf]⟩
    · exact ⟨c, old, fun _ => rfl⟩
  obtain ⟨c', hc, level⟩ := parent
  rcases (renames.new z e).mp hz with ⟨rfl, rfl⟩ | ⟨off, old⟩
  · rw [if_pos rfl, level]
    exact same y c' z a hc renames.old
  · obtain ⟨new, away⟩ := renames.other naming off old
    rw [if_neg new, if_neg away, level]
    exact same y c' z e hc old

variable [DecidableEq ι]

theorem Same.add (naming : Naming here) (same : Same here m m') (hx : here x a) (d : Int) :
    Same here (add m a d) (Tally.add m' x d) := by
  intro y c hy
  rw [count_add, count_add, same x a hx, same y c hy]
  simp only [naming.eq_iff hx hy]

theorem SamePairs.add (naming : Naming here) (same : SamePairs here n n') {p : ι}
    (hp : here p a) (hx : here x b) (d : Int) :
    SamePairs here (addPair n a b d) (addPair n' p x d) := by
  intro y c z e hy hz
  rw [pair_addPair, pair_addPair, same p a x b hp hx]
  simp only [naming.eq_iff hp hy, naming.eq_iff hx hz]
  by_cases target : y = p ∧ z = x
  · rw [if_pos target, if_pos target]
  · rw [if_neg target, if_neg target]
    exact same y c z e hy hz

/-- A key that goes away on both sides. -/
theorem Same.erase (naming : Naming here) (same : Same here m m') (hx : here x a)
    (fewer : ∀ y c, here' y c → here y c) : Same here' (erase m a) (Tally.erase m' x) := by
  intro y c hy
  rw [count_erase, count_erase, same y c (fewer y c hy)]
  simp only [naming.eq_iff hx (fewer y c hy)]

theorem SamePairs.erase (naming : Naming here) (same : SamePairs here n n') (hx : here x a)
    (fewer : ∀ y c, here' y c → here y c) : SamePairs here' (erasePair n a) (erasePair n' x) := by
  intro y c z e hy hz
  rw [pair_erasePair, pair_erasePair]
  simp only [naming.eq_iff hx (fewer z e hz)]
  by_cases target : z = x
  · rw [if_pos target, if_pos target]
  · rw [if_neg target, if_neg target]
    exact same y c z e (fewer y c hy) (fewer z e hz)

end Steps

end Relations

end Tally
