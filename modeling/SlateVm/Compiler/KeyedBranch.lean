import SlateVm.Collections.DictionaryRuns
import Mathlib.Data.Int.Bitwise
import Mathlib.Data.Finset.Card

/-! Keyed branches: the table of keys and offsets that the compiler builds, and the instruction
that probes it. -/
namespace SlateVm.KeyedBranch

open Probing Collections Slots

/-- Objects other than Nil, which is `none`. -/
inductive Oop where
  | smallint (i : Int)
  | object (o : Nat)
  deriving DecidableEq, Repr

abbrev Table := List (Option Oop)

/-- What the objects answer to the compiler and to the machine. -/
structure Objects where
  objectHash : Nat → Int
  nilHash : Int
  equals : Oop → Oop → Bool

def Objects.identityHash (w : Objects) : Oop → Int
  | .smallint i => i
  | .object o => w.objectHash o

def branchTableHash (w : Objects) (key : Oop) : Int := w.identityHash key

def doubleUntil (keys : Nat) : Nat → Nat → Option Nat
  | 0, _ => none
  | rounds + 1, tableSize =>
    if tableSize < keys then doubleUntil keys rounds (tableSize * 2) else some tableSize

inductive Fault where
  | duplicateKey (key : Oop)
  | outside
  | unending
  deriving DecidableEq, Repr

def seat (w : Objects) (tableSize : Nat) (key : Oop) : Nat → Table → Nat → Except Fault Table
  | 0, _, _ => .error .unending
  | rounds + 1, table, hash =>
    match table[hash]? with
    | none => .error .outside
    | some none => .ok (table.set hash (some key))
    | some (some other) =>
      if w.equals key other then .error (.duplicateKey key)
      else
        let hash := hash + 2
        seat w tableSize key rounds table (if hash ≥ tableSize * 2 then 0 else hash)

def insert (w : Objects) (tableSize : Nat) (table : Table) (key : Oop) : Except Fault Table :=
  match (Int.land (branchTableHash w key) ((tableSize - 1) * 2)).toNat? with
  | none => .error .outside
  | some hash => seat w tableSize key (tableSize + 1) table hash

def buildBranchTableMapping (w : Objects) (keys : List Oop) : Except Fault Table :=
  match doubleUntil keys.length (keys.length + 1) 1 with
  | none => .error .unending
  | some tableSize => keys.foldlM (insert w tableSize) (List.replicate (tableSize * 2) none)

def identity (w : Objects) : KeyHashing Oop where
  hash := w.identityHash
  equals a b := decide (a = b)
  refl := by simp
  symm := by simp
  trans := by simp
  hash_eq := by simp
  nilHash := w.nilHash
  integer n := .smallint n

/-- The indices that `0 below: limit by: 2` gives to its block. -/
def belowBy2 (limit : Nat) : List Nat := List.range' 0 ((limit + 1) / 2) 2

def indices (w : Objects) (table : Table) : Option (Dictionary Oop Nat) :=
  (belowBy2 table.length).foldlM
    (fun indices index => do
      match ← table[index]? with
      | none => some indices
      | some val => indices.atPut (identity w) val (some index))
    (Dictionary.new 0)

def fill (w : Objects) (table : Table) (assocs : List (Oop × Int)) : Option Table := do
  let indices ← indices w table
  assocs.foldlM
    (fun table (key, offset) => do
      let index ← (indices.at? (identity w) key).join
      if index + 1 < table.length then some (table.set (index + 1) (some (.smallint offset)))
      else none)
    table

def objectToSmallint : Oop → Option Int
  | .smallint i => some i
  | .object _ => none

/-- How a loop of the probe ends: by its condition, or by a return with the code pointer. -/
inductive Exit where
  | passed
  | returned (codePointer : Int)
  deriving DecidableEq, Repr

/-- A loop of the probe up to `limit`; `none` when it reads outside the table, or after the
rounds. -/
def probe (table : Table) (oop : Option Oop) (codePointer : Int) (limit : Nat) :
    Nat → Nat → Option Exit
  | 0, _ => none
  | rounds + 1, index =>
    if index < limit then do
      let key ← table[index]?
      let offset ← table[index + 1]?
      match offset with
      | none => some (.returned codePointer)
      | some offset =>
        if oop = key then do
          let offset ← objectToSmallint offset
          some (.returned (codePointer + offset))
        else probe table oop codePointer limit rounds (index + 2)
    else some .passed

/-- `object_hash` of an object; a small integer is its own hash. -/
def hashOf (w : Objects) : Option Oop → Int
  | none => w.nilHash
  | some (.object o) => w.objectHash o
  | some (.smallint i) => i

/-- `interpreter_branch_keyed`, which answers the code pointer. -/
def branchKeyed (w : Objects) (table : Table) (oop : Option Oop) (codePointer : Int) :
    Option Int := do
  let tableSize := table.length
  let hash ← (Int.land (hashOf w oop) (tableSize - 2)).toNat?
  match ← probe table oop codePointer tableSize (tableSize + 1) hash with
  | .returned codePointer => some codePointer
  | .passed =>
    match ← probe table oop codePointer hash (hash + 1) 0 with
    | .returned codePointer => some codePointer
    | .passed => some codePointer

section Sizes

theorem doubleUntil_eq {keys rounds k : Nat} (enough : keys < 2 ^ (k + rounds)) :
    ∃ k', doubleUntil keys (rounds + 1) (2 ^ k) = some (2 ^ k') ∧ keys ≤ 2 ^ k' := by
  induction rounds generalizing k with
  | zero =>
    have done : ¬ 2 ^ k < keys := by
      simp only [Nat.add_zero] at enough
      omega
    exact ⟨k, by rw [doubleUntil, if_neg done], by omega⟩
  | succ rounds ih =>
    by_cases small : 2 ^ k < keys
    · have more : keys < 2 ^ (k + 1 + rounds) := by
        rw [show k + 1 + rounds = k + (rounds + 1) by omega]
        exact enough
      obtain ⟨k', run, bound⟩ := ih more
      refine ⟨k', ?_, bound⟩
      rw [doubleUntil, if_pos small, ← Nat.pow_succ]
      exact run
    · exact ⟨k, by rw [doubleUntil, if_neg small], by omega⟩

theorem land_mask (hash : Int) (k : Nat) :
    ∃ p < 2 ^ k, (Int.land hash (((2 ^ k : Nat) - 1) * 2)).toNat? = some (2 * p) := by
  have positive : 0 < 2 ^ k := Nat.two_pow_pos k
  have mask : (((2 ^ k : Nat) : Int) - 1) * 2 = (((2 ^ k - 1) * 2 : Nat) : Int) := by omega
  have masked : ∃ r : Nat, Int.land hash (((2 ^ k - 1) * 2 : Nat) : Int) = r ∧
      r ≤ (2 ^ k - 1) * 2 ∧ r.testBit 0 = false := by
    cases hash with
    | ofNat m =>
      refine ⟨m &&& ((2 ^ k - 1) * 2), rfl, Nat.and_le_right, ?_⟩
      simp
    | negSucc m =>
      refine ⟨Nat.ldiff ((2 ^ k - 1) * 2) m, rfl, ?_, ?_⟩
      · apply Nat.le_of_testBit
        intro i
        rw [Nat.testBit_ldiff]
        cases ((2 ^ k - 1) * 2).testBit i <;> simp
      · rw [Nat.testBit_ldiff]
        simp
  obtain ⟨r, same, bound, even⟩ := masked
  have parity : r % 2 = 0 := by
    simp only [Nat.testBit_zero, decide_eq_false_iff_not] at even
    omega
  refine ⟨r / 2, by omega, ?_⟩
  rw [mask, same, show 2 * (r / 2) = r by omega]
  rfl

end Sizes

section Tables

variable {w : Objects} {n k : Nat} {table table' : Table} {keys : List Oop}

def keyAt (table : Table) (p : Nat) : Option Oop := stored table (2 * p)

def home (w : Objects) (n : Nat) (key : Oop) : Nat :=
  (Int.land (branchTableHash w key) ((n - 1) * 2)).toNat / 2

theorem home_eq (w : Objects) (k : Nat) (key : Oop) : home w (2 ^ k) key < 2 ^ k ∧
    (Int.land (branchTableHash w key) (((2 ^ k : Nat) - 1) * 2)).toNat? =
      some (2 * home w (2 ^ k) key) := by
  obtain ⟨p, bound, same⟩ := land_mask (branchTableHash w key) k
  have place : home w (2 ^ k) key = p := by
    have index := Int.mem_toNat?.mp same
    unfold home
    rw [index, Int.toNat_natCast]
    omega
  rw [place]
  exact ⟨bound, same⟩

/-- A table of `n` positions that holds the keys and no offsets. -/
structure Holds (w : Objects) (n : Nat) (table : Table) (keys : List Oop) : Prop where
  length : table.length = n * 2
  blank : ∀ p < n, stored table (2 * p + 1) = none
  seated : Seated n (home w n) (keyAt table)
  lone : ∀ i < n, ∀ j < n, ∀ key, keyAt table i = some key → keyAt table j = some key → i = j
  mem : ∀ key, key ∈ keys ↔ ∃ p < n, keyAt table p = some key
  count : ((Finset.range n).filter fun p => keyAt table p ≠ none).card ≤ keys.length

theorem stored_replicate (m i : Nat) : stored (List.replicate m (none : Option Oop)) i = none := by
  unfold stored
  cases here : (List.replicate m (none : Option Oop))[i]? with
  | none => rfl
  | some x =>
    rw [List.eq_of_mem_replicate (List.mem_of_getElem? here)]
    rfl

theorem holds_nil (w : Objects) (n : Nat) : Holds w n (List.replicate (n * 2) none) [] := by
  have empty : ∀ p, keyAt (List.replicate (n * 2) none) p = none := fun p => stored_replicate _ _
  constructor
  · exact List.length_replicate
  · intro p _
    exact stored_replicate _ _
  · intro i _ a here
    rw [empty] at here
    cases here
  · intro i _ j _ key here
    rw [empty] at here
    cases here
  · simp [empty]
  · simp [empty]

theorem Holds.read (length : table.length = n * 2) {p : Nat} (inside : p < n) :
    table[2 * p]? = some (keyAt table p) ∧
      table[2 * p + 1]? = some (stored table (2 * p + 1)) :=
  ⟨getElem?_of_lt (by omega), getElem?_of_lt (by omega)⟩

theorem Holds.spare (holds : Holds w n table keys) (room : keys.length < n) :
    ∃ p < n, keyAt table p = none := by
  by_contra full
  have all : (Finset.range n).filter (fun p => keyAt table p ≠ none) = Finset.range n := by
    apply Finset.filter_true_of_mem
    intro p member empty
    exact full ⟨p, Finset.mem_range.mp member, empty⟩
  have count := holds.count
  rw [all, Finset.card_range] at count
  omega

theorem keyAt_set (length : table.length = n * 2) {e : Nat} (inside : e < n) (x : Option Oop)
    (p : Nat) : keyAt (table.set (2 * e) x) p = if p = e then x else keyAt table p := by
  unfold keyAt
  rw [stored_set (by omega)]
  by_cases same : p = e
  · rw [if_pos (by omega), if_pos same]
  · rw [if_neg (by omega), if_neg same]

theorem Holds.add (holds : Holds w n table keys) {key : Oop} (fresh : key ∉ keys) {e : Nat}
    (inside : e < n) (empty : keyAt table e = none)
    (before : ∀ j < n, Passes n (home w n) key j e → keyAt table j ≠ none) :
    Holds w n (table.set (2 * e) (some key)) (keys ++ [key]) := by
  have slots := keyAt_set holds.length inside (some key)
  have filled : Filled n (keyAt table) (keyAt (table.set (2 * e) (some key))) e key := by
    constructor
    · exact inside
    · exact empty
    · rw [slots, if_pos rfl]
    · intro j off
      rw [slots, if_neg off]
  have absent : ∀ p < n, keyAt table p ≠ some key := by
    intro p hp here
    exact fresh ((holds.mem key).mpr ⟨p, hp, here⟩)
  constructor
  · rw [List.length_set]
    exact holds.length
  · intro p hp
    have length := holds.length
    rw [stored_set (by omega), if_neg (by omega)]
    exact holds.blank p hp
  · exact filled.seated holds.seated before
  · intro i hi j hj other first second
    rw [slots] at first second
    by_cases left : i = e
    · by_cases right : j = e
      · rw [left, right]
      · rw [if_pos left] at first
        rw [if_neg right] at second
        cases first
        exact absurd second (absent j hj)
    · by_cases right : j = e
      · rw [if_neg left] at first
        rw [if_pos right] at second
        cases second
        exact absurd first (absent i hi)
      · rw [if_neg left] at first
        rw [if_neg right] at second
        exact holds.lone i hi j hj other first second
  · intro other
    rw [List.mem_append, List.mem_singleton, holds.mem]
    constructor
    · rintro (⟨p, hp, here⟩ | rfl)
      · refine ⟨p, hp, ?_⟩
        rw [slots, if_neg]
        · exact here
        · rintro rfl
          rw [empty] at here
          cases here
      · exact ⟨e, inside, filled.here⟩
    · rintro ⟨p, hp, here⟩
      rw [slots] at here
      by_cases same : p = e
      · rw [if_pos same] at here
        cases here
        exact Or.inr rfl
      · rw [if_neg same] at here
        exact Or.inl ⟨p, hp, here⟩
  · have more : ((Finset.range n).filter fun p => keyAt (table.set (2 * e) (some key)) p ≠ none) ⊆
        Insert.insert e ((Finset.range n).filter fun p => keyAt table p ≠ none) := by
      intro p member
      simp only [Finset.mem_filter, Finset.mem_insert, Finset.mem_range, slots] at member ⊢
      by_cases same : p = e
      · exact Or.inl same
      · rw [if_neg same] at member
        exact Or.inr member
    have bound := Nat.le_trans (Finset.card_le_card more) (Finset.card_insert_le _ _)
    have count := holds.count
    rw [List.length_append, List.length_singleton]
    omega

end Tables

section Building

variable {w : Objects} {n k : Nat} {table table' : Table} {keys : List Oop}

theorem next_position {p : Nat} (inside : p < n) :
    (if 2 * p + 2 ≥ n * 2 then 0 else 2 * p + 2) = 2 * (if p + 1 < n then p + 1 else 0) := by
  by_cases last : p + 1 < n
  · rw [if_neg (by omega), if_pos last]
    omega
  · rw [if_pos (by omega), if_neg last]

theorem seat_runs (length : table.length = n * 2) (key : Oop) {e rounds p : Nat} (he : e < n)
    (empty : keyAt table e = none) (hp : p < n)
    (full : ∀ j < n, after n p j < after n p e → keyAt table j ≠ none)
    (enough : after n p e < rounds) :
    seat w n key rounds table (2 * p) = .ok (table.set (2 * e) (some key)) ∨
      ∃ j < n, ∃ other, keyAt table j = some other ∧ w.equals key other = true ∧
        seat w n key rounds table (2 * p) = .error (.duplicateKey key) := by
  induction rounds generalizing p with
  | zero => omega
  | succ rounds ih =>
    have here := (Holds.read length hp).1
    have away := after_cases n p e
    by_cases same : p = e
    · subst same
      left
      rw [seat, here, empty]
    · have some := full p hp (by rw [after_self]; omega)
      obtain ⟨other, holds⟩ := Option.ne_none_iff_exists'.mp some
      by_cases equal : w.equals key other = true
      · right
        refine ⟨p, hp, other, holds, equal, ?_⟩
        rw [seat, here, holds]
        simp only [equal, if_true]
      · have step : seat w n key (rounds + 1) table (2 * p) =
            seat w n key rounds table (2 * if p + 1 < n then p + 1 else 0) := by
          rw [seat, here, holds, ← next_position hp]
          simp only [equal, Bool.false_eq_true, if_false]
        rw [step]
        have inside : (if p + 1 < n then p + 1 else 0) < n := by split <;> omega
        have closer : ∀ j < n, j ≠ p →
            after n p j = after n (if p + 1 < n then p + 1 else 0) j + 1 := by
          intro j hj off
          have old := after_cases n p j
          have new := after_cases n (if p + 1 < n then p + 1 else 0) j
          split at new <;> split <;> omega
        have target := closer e he (Ne.symm same)
        apply ih inside
        · intro j hj near
          by_cases self : j = p
          · rw [self, holds]
            exact Option.some_ne_none other
          · exact full j hj (by rw [closer j hj self]; omega)
        · omega

theorem insert_runs (holds : Holds w (2 ^ k) table keys) (room : keys.length < 2 ^ k) {key : Oop}
    (fresh : key ∉ keys) :
    (∃ table', insert w (2 ^ k) table key = .ok table' ∧
        Holds w (2 ^ k) table' (keys ++ [key])) ∨
      ∃ other ∈ keys, w.equals key other = true ∧
        insert w (2 ^ k) table key = .error (.duplicateKey key) := by
  obtain ⟨start, index⟩ := home_eq w k key
  obtain ⟨r, hr, spare⟩ := holds.spare room
  obtain ⟨e, found⟩ := search_ends (fun _ => false) (Nat.le_of_lt start) hr spare
  obtain ⟨inside, ends, early⟩ := (search_eq_some (Nat.le_of_lt start)).mp found
  have empty : keyAt table e = none := by
    cases here : keyAt table e with
    | none => rfl
    | some other =>
      rw [here] at ends
      cases ends
  have full : ∀ j < 2 ^ k, Passes (2 ^ k) (home w (2 ^ k)) key j e → keyAt table j ≠ none := by
    intro j hj before
    obtain ⟨other, here, _⟩ := early j hj before
    rw [here]
    exact Option.some_ne_none other
  have run : insert w (2 ^ k) table key =
      seat w (2 ^ k) key (2 ^ k + 1) table (2 * home w (2 ^ k) key) := by
    unfold insert
    rw [index]
  have enough : after (2 ^ k) (home w (2 ^ k) key) e < 2 ^ k + 1 := by
    have cases := after_cases (2 ^ k) (home w (2 ^ k) key) e
    omega
  rw [run]
  rcases seat_runs holds.length key inside empty start full enough with
    ends | ⟨j, hj, other, here, equal, fails⟩
  · exact Or.inl ⟨_, ends, holds.add fresh inside empty full⟩
  · exact Or.inr ⟨other, (holds.mem other).mpr ⟨j, hj, here⟩, equal, fails⟩

theorem insertAll_runs {rest : List Oop} (holds : Holds w (2 ^ k) table keys)
    (room : (keys ++ rest).length ≤ 2 ^ k) (distinct : (keys ++ rest).Nodup) :
    (∃ table', rest.foldlM (insert w (2 ^ k)) table = .ok table' ∧
        Holds w (2 ^ k) table' (keys ++ rest)) ∨
      ∃ key ∈ keys ++ rest, ∃ other ∈ keys ++ rest, key ≠ other ∧ w.equals key other = true ∧
        rest.foldlM (insert w (2 ^ k)) table = .error (.duplicateKey key) := by
  induction rest generalizing table keys with
  | nil =>
    left
    rw [List.append_nil]
    exact ⟨table, rfl, holds⟩
  | cons key rest ih =>
    have fresh : key ∉ keys := by
      intro member
      exact (List.nodup_append.mp distinct).2.2 key member key (List.mem_cons_self ..) rfl
    have fits : keys.length < 2 ^ k := by
      rw [List.length_append, List.length_cons] at room
      omega
    have shift : keys ++ key :: rest = keys ++ [key] ++ rest := by simp
    rw [List.foldlM_cons]
    rcases insert_runs holds fits fresh with ⟨table', run, holds'⟩ | ⟨other, member, equal, fails⟩
    · rw [run, shift]
      exact ih holds' (by rw [← shift]; exact room) (by rw [← shift]; exact distinct)
    · right
      refine ⟨key, by simp, other, List.mem_append_left _ member, ?_, equal, ?_⟩
      · rintro rfl
        exact fresh member
      · rw [fails]
        rfl

theorem build_runs {keys : List Oop} (distinct : keys.Nodup) :
    (∃ k table, buildBranchTableMapping w keys = .ok table ∧ Holds w (2 ^ k) table keys) ∨
      ∃ key ∈ keys, ∃ other ∈ keys, key ≠ other ∧ w.equals key other = true ∧
        buildBranchTableMapping w keys = .error (.duplicateKey key) := by
  have bound : keys.length < 2 ^ (0 + keys.length) := by
    rw [Nat.zero_add]
    exact Nat.lt_two_pow_self
  obtain ⟨k, size, enough⟩ := doubleUntil_eq bound
  have run : buildBranchTableMapping w keys =
      keys.foldlM (insert w (2 ^ k)) (List.replicate (2 ^ k * 2) none) := by
    unfold buildBranchTableMapping
    rw [Nat.pow_zero] at size
    rw [size]
  rw [run]
  rcases insertAll_runs (holds_nil w (2 ^ k)) (by simpa using enough) (by simpa using distinct) with
    ⟨table, built, holds⟩ | fails
  · exact Or.inl ⟨k, table, built, holds⟩
  · exact Or.inr fails

end Building

section Filling

variable {w : Objects} {n : Nat} {table table' : Table} {keys : List Oop}
  {assocs : List (Oop × Int)}

theorem belowBy2_even (n : Nat) : belowBy2 (n * 2) = (List.range n).map (2 * ·) := by
  unfold belowBy2
  rw [show (n * 2 + 1) / 2 = n by omega]
  induction n with
  | zero => rfl
  | succ n ih => rw [List.range'_concat, List.range_succ, List.map_append, ih]; simp

theorem indices_prefix (length : table.length = n * 2)
    (lone : ∀ i < n, ∀ j < n, ∀ key, keyAt table i = some key → keyAt table j = some key → i = j)
    {k : Nat} (bound : k ≤ n) :
    ∃ d m, ((List.range k).map (2 * ·)).foldlM
        (fun indices index => do
          match ← table[index]? with
          | none => some indices
          | some val => indices.atPut (identity w) val (some index))
        (Dictionary.new 0) = some d ∧ Dictionary.Represents (identity w) d m ∧
      ∀ p < n, ∀ key, keyAt table p = some key →
        m key = if p < k then some (some (2 * p)) else none := by
  induction k with
  | zero =>
    refine ⟨_, _, rfl, Dictionary.represents_new 0, ?_⟩
    intro p _ key _
    rfl
  | succ k ih =>
    obtain ⟨d, m, run, represents, finds⟩ := ih (by omega)
    have here := (Holds.read length (p := k) (by omega)).1
    rw [List.range_succ, List.map_append, List.foldlM_append, run]
    simp only [List.map_cons, List.map_nil, List.foldlM_cons, List.foldlM_nil,
      Option.bind_eq_bind, Option.bind_some, here]
    cases slot : keyAt table k with
    | none =>
      refine ⟨d, m, rfl, represents, ?_⟩
      intro p hp key holds
      have off : p ≠ k := by
        rintro rfl
        rw [slot] at holds
        cases holds
      rw [finds p hp key holds]
      by_cases early : p < k
      · rw [if_pos early, if_pos (by omega)]
      · rw [if_neg early, if_neg (by omega)]
    | some val =>
      obtain ⟨d', stores, represents'⟩ := represents.atPut val (some (2 * k))
      refine ⟨d', _, by simp [stores], represents', ?_⟩
      intro p hp key holds
      unfold put
      by_cases same : val = key
      · subst same
        have place := lone k (by omega) p hp val slot holds
        rw [if_pos (by simp [identity]), if_pos (by omega), place]
      · have off : p ≠ k := by
          rintro rfl
          rw [slot] at holds
          cases holds
          exact same rfl
        rw [if_neg (by simpa [identity] using same), finds p hp key holds]
        by_cases early : p < k
        · rw [if_pos early, if_pos (by omega)]
        · rw [if_neg early, if_neg (by omega)]

theorem indices_find (holds : Holds w n table keys) :
    ∃ d, indices w table = some d ∧
      ∀ p < n, ∀ key, keyAt table p = some key → (d.at? (identity w) key).join = some (2 * p) := by
  obtain ⟨d, m, run, represents, finds⟩ :=
    indices_prefix (w := w) holds.length holds.lone (Nat.le_refl n)
  refine ⟨d, ?_, ?_⟩
  · unfold indices
    rw [holds.length, belowBy2_even]
    exact run
  · intro p hp key here
    rw [represents.at?, finds p hp key here, if_pos hp]
    rfl

/-- A table of `n` positions with the offsets of `assocs` behind its keys. -/
structure Branches (w : Objects) (n : Nat) (table : Table) (assocs : List (Oop × Int)) : Prop where
  length : table.length = n * 2
  seated : Seated n (home w n) (keyAt table)
  lone : ∀ i < n, ∀ j < n, ∀ key, keyAt table i = some key → keyAt table j = some key → i = j
  blank : ∀ p < n, keyAt table p = none → stored table (2 * p + 1) = none
  offset : ∀ p < n, ∀ key, keyAt table p = some key →
    ∃ offset, (key, offset) ∈ assocs ∧ stored table (2 * p + 1) = some (.smallint offset)
  placed : ∀ key offset, (key, offset) ∈ assocs → ∃ p < n, keyAt table p = some key ∧
    stored table (2 * p + 1) = some (.smallint offset)

theorem fill_runs {d : Dictionary Oop Nat} {rest : List (Oop × Int)}
    (length : table.length = n * 2) (distinct : (rest.map Prod.fst).Nodup)
    (finds : ∀ p < n, ∀ key, keyAt table p = some key →
      (d.at? (identity w) key).join = some (2 * p))
    (all : ∀ key offset, (key, offset) ∈ rest → ∃ p < n, keyAt table p = some key) :
    ∃ table', rest.foldlM
        (fun table (key, offset) => do
          let index ← (d.at? (identity w) key).join
          if index + 1 < table.length then some (table.set (index + 1) (some (.smallint offset)))
          else none)
        table = some table' ∧ table'.length = n * 2 ∧
      (∀ p, keyAt table' p = keyAt table p) ∧
      (∀ p < n, (∀ key offset, keyAt table p = some key → (key, offset) ∉ rest) →
        stored table' (2 * p + 1) = stored table (2 * p + 1)) ∧
      ∀ p < n, ∀ key offset, keyAt table p = some key → (key, offset) ∈ rest →
        stored table' (2 * p + 1) = some (.smallint offset) := by
  induction rest generalizing table with
  | nil =>
    refine ⟨table, rfl, length, fun _ => rfl, fun _ _ _ => rfl, ?_⟩
    intro p _ key offset _ member
    cases member
  | cons assoc rest ih =>
    obtain ⟨key, offset⟩ := assoc
    obtain ⟨apart, distinct⟩ := List.nodup_cons.mp distinct
    obtain ⟨e, he, here⟩ := all key offset (List.mem_cons_self ..)
    have slots : ∀ p, keyAt (table.set (2 * e + 1) (some (.smallint offset))) p = keyAt table p := by
      intro p
      unfold keyAt
      rw [stored_set (by omega), if_neg (by omega)]
    have others : ∀ p, p ≠ e → stored (table.set (2 * e + 1) (some (.smallint offset))) (2 * p + 1) =
        stored table (2 * p + 1) := by
      intro p off
      rw [stored_set (by omega), if_neg (by omega)]
    obtain ⟨table', run, length', kept, same, put⟩ :=
      @ih (table.set (2 * e + 1) (some (.smallint offset)))
        (by rw [List.length_set]; exact length) distinct
        (by intro p hp; rw [slots]; exact finds p hp)
        (by
          intro other offset' member
          obtain ⟨p, hp, there⟩ := all other offset' (List.mem_cons_of_mem _ member)
          exact ⟨p, hp, by rw [slots]; exact there⟩)
    have unlisted : ∀ o, (key, o) ∉ rest := by
      intro o member
      exact apart (List.mem_map.mpr ⟨(key, o), member, rfl⟩)
    refine ⟨table', ?_, length', ?_, ?_, ?_⟩
    · rw [List.foldlM_cons]
      simp only [finds e he key here, Option.bind_eq_bind, Option.bind_some]
      rw [if_pos (by omega)]
      exact run
    · intro p
      rw [kept, slots]
    · intro p hp absent
      have off : p ≠ e := by
        rintro rfl
        exact absent key offset here (List.mem_cons_self ..)
      rw [same p hp, others p off]
      intro other offset' there member
      rw [slots] at there
      exact absent other offset' there (List.mem_cons_of_mem _ member)
    · intro p hp other offset' there member
      rcases List.mem_cons.mp member with first | later
      · cases first
        have place : (d.at? (identity w) key).join = some (2 * p) := finds p hp key there
        rw [finds e he key here] at place
        have level : e = p := by
          have := Option.some.inj place
          omega
        subst level
        rw [same e hp, stored_set (by omega), if_pos rfl]
        intro again o there' member'
        rw [slots, here] at there'
        cases there'
        exact unlisted o member'
      · exact put p hp other offset' (by rw [slots]; exact there) later

theorem Holds.fill (holds : Holds w n table (assocs.map Prod.fst))
    (distinct : (assocs.map Prod.fst).Nodup) :
    ∃ filled, fill w table assocs = some filled ∧ Branches w n filled assocs := by
  obtain ⟨d, run, finds⟩ := indices_find holds
  have all : ∀ key offset, (key, offset) ∈ assocs → ∃ p < n, keyAt table p = some key := by
    intro key offset member
    exact (holds.mem key).mp (List.mem_map.mpr ⟨(key, offset), member, rfl⟩)
  obtain ⟨filled, fills, length, kept, same, put⟩ := fill_runs holds.length distinct finds all
  have slots : keyAt filled = keyAt table := funext kept
  refine ⟨filled, ?_, ?_⟩
  · unfold KeyedBranch.fill
    rw [run]
    exact fills
  constructor
  · exact length
  · rw [slots]
    exact holds.seated
  · rw [slots]
    exact holds.lone
  · intro p hp empty
    rw [slots] at empty
    rw [same p hp, holds.blank p hp]
    intro key offset here
    rw [empty] at here
    cases here
  · intro p hp key here
    rw [slots] at here
    obtain ⟨⟨_, offset⟩, member, rfl⟩ := List.mem_map.mp ((holds.mem key).mpr ⟨p, hp, here⟩)
    exact ⟨offset, member, put p hp _ offset here member⟩
  · intro key offset member
    obtain ⟨p, hp, here⟩ := all key offset member
    exact ⟨p, hp, by rw [slots]; exact here, put p hp key offset here member⟩

end Filling

section Branching

variable {w : Objects} {n : Nat} {table : Table} {assocs : List (Oop × Int)}

def advance (table : Table) (codePointer : Int) (p : Nat) : Int :=
  match stored table (2 * p + 1) with
  | some (.smallint offset) => codePointer + offset
  | _ => codePointer

theorem probe_runs (branches : Branches w n table assocs) (oop : Option Oop) (codePointer : Int)
    {limit rounds p : Nat} (bound : limit ≤ n) (start : p ≤ limit) (enough : limit - p < rounds) :
    probe table oop codePointer (2 * limit) rounds (2 * p) = some
      (match (List.range' p (limit - p)).find?
          fun i => (keyAt table i).all fun key => decide (oop = some key) with
      | none => .passed
      | some i => .returned (advance table codePointer i)) := by
  induction rounds generalizing p with
  | zero => omega
  | succ rounds ih =>
    by_cases more : p < limit
    · obtain ⟨key, offset⟩ := Holds.read branches.length (p := p) (by omega)
      rw [show limit - p = limit - (p + 1) + 1 by omega, List.range'_succ, List.find?_cons]
      rw [probe, if_pos (by omega), key, offset]
      cases slot : keyAt table p with
      | none => simp [branches.blank p (by omega) slot, advance]
      | some held =>
        obtain ⟨o, _, placed⟩ := branches.offset p (by omega) held slot
        by_cases same : oop = some held
        · simp [same, placed, advance, objectToSmallint]
        · simp only [placed, same, Option.bind_eq_bind, Option.bind_some, if_false, Option.all_some,
            decide_false]
          exact ih (p := p + 1) (by omega) (by omega)
    · rw [probe, if_neg (by omega), show limit - p = 0 by omega]
      rfl

theorem hashOf_key (w : Objects) (key : Oop) : hashOf w (some key) = branchTableHash w key := by
  cases key with
  | smallint i => rfl
  | object o => rfl

theorem branchKeyed_eq {k : Nat} (branches : Branches w (2 ^ k) table assocs) (oop : Option Oop)
    (codePointer : Int) :
    ∃ h < 2 ^ k, (∀ key, oop = some key → h = home w (2 ^ k) key) ∧
      branchKeyed w table oop codePointer = some
        (match search (2 ^ k) (keyAt table) (fun key => decide (oop = some key)) h with
        | none => codePointer
        | some i => advance table codePointer i) := by
  obtain ⟨h, inside, index⟩ := land_mask (hashOf w oop) k
  have mask : ((table.length : Int) - 2) = (((2 ^ k : Nat) : Int) - 1) * 2 := by
    rw [branches.length]
    omega
  refine ⟨h, inside, ?_, ?_⟩
  · rintro key rfl
    have same := (home_eq w k key).2
    rw [← hashOf_key, index] at same
    have double := Option.some.inj same
    omega
  · unfold branchKeyed
    simp only [mask, index, Option.bind_eq_bind, Option.bind_some]
    have first : probe table oop codePointer (2 * 2 ^ k) (table.length + 1) (2 * h) = _ :=
      probe_runs branches oop codePointer (Nat.le_refl _) (by omega)
        (by rw [branches.length]; omega)
    have second : probe table oop codePointer (2 * h) (2 * h + 1) (2 * 0) = _ :=
      probe_runs branches oop codePointer (by omega) (by omega) (by omega)
    rw [show 2 * 2 ^ k = table.length by rw [branches.length]; omega] at first
    rw [first]
    unfold search probes
    rw [List.find?_append]
    cases (List.range' h (2 ^ k - h)).find? fun i =>
        (keyAt table i).all fun key => decide (oop = some key) with
    | some i => rfl
    | none =>
      simp only [Option.bind_some, Option.none_or]
      rw [show 2 * 0 = 0 from rfl, Nat.sub_zero, ← List.range_eq_range'] at second
      rw [second]
      cases (List.range h).find? fun i =>
          (keyAt table i).all fun key => decide (oop = some key) with
      | some i => rfl
      | none => rfl

theorem branch_taken {k : Nat} (branches : Branches w (2 ^ k) table assocs) {key : Oop}
    {offset : Int} (member : (key, offset) ∈ assocs) (codePointer : Int) :
    branchKeyed w table (some key) codePointer = some (codePointer + offset) := by
  obtain ⟨h, inside, start, run⟩ := branchKeyed_eq branches (some key) codePointer
  obtain ⟨p, hp, here, placed⟩ := branches.placed key offset member
  have found : search (2 ^ k) (keyAt table) (fun held => decide (some key = some held)) h = some p := by
    rw [start key rfl]
    apply search_found (a := key) (Nat.le_of_lt (home_eq w k key).1) hp here (by simp)
    · exact branches.seated p hp key here
    · intro j hj held there accepted
      have same : key = held := by simpa using accepted
      subst same
      exact branches.lone j hj p hp key there here
  rw [run, found]
  simp only [advance, placed]

theorem branch_passed {k : Nat} (branches : Branches w (2 ^ k) table assocs) {oop : Option Oop}
    (absent : ∀ assoc ∈ assocs, oop ≠ some assoc.1) (codePointer : Int) :
    branchKeyed w table oop codePointer = some codePointer := by
  obtain ⟨h, inside, _, run⟩ := branchKeyed_eq branches oop codePointer
  rw [run]
  cases found : search (2 ^ k) (keyAt table) (fun key => decide (oop = some key)) h with
  | none => rfl
  | some i =>
    obtain ⟨hi, ends, _⟩ := (search_eq_some (Nat.le_of_lt inside)).mp found
    have empty : keyAt table i = none := by
      cases slot : keyAt table i with
      | none => rfl
      | some held =>
        obtain ⟨offset, member, _⟩ := branches.offset i hi held slot
        rw [slot] at ends
        have same : oop = some held := by simpa using ends
        exact absurd same (absent _ member)
    simp only [advance, branches.blank i hi empty]

/-- A keyed branch goes by the offset of the identical key and otherwise not at all; building its
table fails only for keys that are `=` to each other without being identical. -/
theorem branch_keyed_agrees (w : Objects) (assocs : List (Oop × Int))
    (distinct : (assocs.map Prod.fst).Nodup) :
    (∃ table filled, buildBranchTableMapping w (assocs.map Prod.fst) = .ok table ∧
        fill w table assocs = some filled ∧ ∀ oop codePointer,
          (∀ key offset, (key, offset) ∈ assocs → oop = some key →
            branchKeyed w filled oop codePointer = some (codePointer + offset)) ∧
          ((∀ assoc ∈ assocs, oop ≠ some assoc.1) →
            branchKeyed w filled oop codePointer = some codePointer)) ∨
      ∃ key ∈ assocs.map Prod.fst, ∃ other ∈ assocs.map Prod.fst,
        key ≠ other ∧ w.equals key other = true ∧
          buildBranchTableMapping w (assocs.map Prod.fst) = .error (.duplicateKey key) := by
  rcases build_runs (w := w) distinct with ⟨k, table, built, holds⟩ | fails
  · left
    obtain ⟨filled, fills, branches⟩ := holds.fill distinct
    refine ⟨table, filled, built, fills, ?_⟩
    intro oop codePointer
    constructor
    · rintro key offset member rfl
      exact branch_taken branches member codePointer
    · intro absent
      exact branch_passed branches absent codePointer
  · exact Or.inr fails

/-- Two keys that both belong at index 2, one of them negative. -/
theorem branch_keyed_collides :
    ([(Oop.smallint (-2), (7 : Int)), (.smallint 6, 9)].map Prod.fst).Nodup ∧
      ((∃ table filled, buildBranchTableMapping ⟨fun _ => 0, 0, fun a b => decide (a = b)⟩
          ([(Oop.smallint (-2), (7 : Int)), (.smallint 6, 9)].map Prod.fst) = .ok table ∧
        fill ⟨fun _ => 0, 0, fun a b => decide (a = b)⟩ table
          [(.smallint (-2), 7), (.smallint 6, 9)] = some filled ∧
        branchKeyed ⟨fun _ => 0, 0, fun a b => decide (a = b)⟩ filled (some (.smallint 6)) 100 =
          some 109 ∧
        branchKeyed ⟨fun _ => 0, 0, fun a b => decide (a = b)⟩ filled none 100 = some 100)) := by
  have distinct : ([(Oop.smallint (-2), (7 : Int)), (.smallint 6, 9)].map Prod.fst).Nodup := by
    decide
  refine ⟨distinct, ?_⟩
  rcases branch_keyed_agrees ⟨fun _ => 0, 0, fun a b => decide (a = b)⟩ _ distinct with
    ⟨table, filled, built, fills, runs⟩ | ⟨key, _, other, _, apart, equal, _⟩
  · refine ⟨table, filled, built, fills, ?_, ?_⟩
    · exact (runs (some (.smallint 6)) 100).1 (.smallint 6) 9 (by simp) rfl
    · exact (runs none 100).2 (by simp)
  · exact absurd (of_decide_eq_true equal) apart

end Branching

end SlateVm.KeyedBranch
