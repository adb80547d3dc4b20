import Mathlib.Logic.Function.Basic
import Mathlib.Tactic.Common

/-! Blocks copied element by element between sequences that may be the same one. -/
namespace BlockMove

variable {A α : Type} {m n : A → List α} {dest src : A} {shift : Int → Int} {lo hi i : Int}

def load (m : A → List α) (a : A) (i : Int) : Option α :=
  if 0 ≤ i then (m a)[i.toNat]? else none

/-- `n` holds in `dest`, from `lo` up to `hi`, what `m` holds in `src`, and is `m` elsewhere. -/
structure Moved (dest src : A) (shift : Int → Int) (m : A → List α) (lo hi : Int)
    (n : A → List α) : Prop where
  others : ∀ a, a ≠ dest → n a = m a
  length : (n dest).length = (m dest).length
  copied : ∀ k, lo ≤ k → k < hi → load n dest k = load m src (shift k)
  kept : ∀ k, ¬ (lo ≤ k ∧ k < hi) → load n dest k = load m dest k

theorem load_isSome : (load m src i).isSome ↔ 0 ≤ i ∧ i < (m src).length := by
  unfold load
  split
  · rename_i natural
    rw [Option.isSome_iff_exists]
    constructor
    · rintro ⟨x, found⟩
      have within := (List.getElem?_eq_some_iff.mp found).1
      omega
    · intro inside
      exact ⟨_, List.getElem?_eq_getElem (by omega)⟩
  · rename_i negative
    simp [negative]

theorem load_congr {a : A} (same : n a = m a) (i : Int) : load n a i = load m a i := by
  unfold load
  rw [same]

theorem Moved.start (none : hi ≤ lo) : Moved dest src shift m lo hi m where
  others _ _ := rfl
  length := rfl
  copied k low high := absurd low (by omega)
  kept _ _ := rfl

theorem Moved.congr {shift' : Int → Int} (moved : Moved dest src shift m lo hi n)
    (same : ∀ k, lo ≤ k → k < hi → shift k = shift' k) : Moved dest src shift' m lo hi n where
  others := moved.others
  length := moved.length
  copied k low high := by
    rw [← same k low high]
    exact moved.copied k low high
  kept := moved.kept

variable [DecidableEq A]

def store (m : A → List α) (a : A) (i : Int) (x : α) : Option (A → List α) :=
  if 0 ≤ i ∧ i < (m a).length then some (Function.update m a ((m a).set i.toNat x)) else none

/-- The element for index `i` is read at `shift i`. An access outside gives nothing. -/
def copyElement (dest src : A) (shift : Int → Int) (m : A → List α) (i : Int) :
    Option (A → List α) := do
  let x ← load m src (shift i)
  store m dest i x

def copyUp (dest src : A) (shift : Int → Int) : Nat → Int → (A → List α) → Option (A → List α)
  | 0, _, m => some m
  | count + 1, i, m => do
    let m ← copyElement dest src shift m i
    copyUp dest src shift count (i + 1) m

def copyDown (dest src : A) (shift : Int → Int) : Nat → Int → (A → List α) → Option (A → List α)
  | 0, _, m => some m
  | count + 1, i, m => do
    let m ← copyElement dest src shift m i
    copyDown dest src shift count (i - 1) m

theorem load_store {a : A} {x : α} (stored : store m a i x = some n) (k : Int) :
    load n a k = if k = i then some x else load m a k := by
  unfold store at stored
  split at stored
  · rename_i inside
    obtain rfl := Option.some.inj stored
    unfold load
    rw [Function.update_self]
    by_cases here : k = i
    · subst here
      have within : k.toNat < (m a).length := by omega
      rw [if_pos inside.1, if_pos rfl, List.getElem?_set_self within]
    · rw [if_neg here]
      split
      · rename_i natural
        exact List.getElem?_set_ne (by omega)
      · rfl
  · cases stored

theorem store_others {a b : A} {x : α} (stored : store m a i x = some n) (other : b ≠ a) :
    n b = m b := by
  unfold store at stored
  split at stored
  · obtain rfl := Option.some.inj stored
    exact Function.update_of_ne other _ _
  · cases stored

theorem store_length {a : A} {x : α} (stored : store m a i x = some n) :
    (n a).length = (m a).length := by
  unfold store at stored
  split at stored
  · obtain rfl := Option.some.inj stored
    rw [Function.update_self, List.length_set]
  · cases stored

theorem store_some {a : A} (inside : 0 ≤ i ∧ i < (m a).length) (x : α) :
    ∃ n, store m a i x = some n := ⟨_, if_pos inside⟩

/-- The element about to be read has not been overwritten yet. -/
def Unread (dest src : A) (lo hi j : Int) : Prop := src = dest → ¬ (lo ≤ j ∧ j < hi)

theorem Moved.read {j : Int} (moved : Moved dest src shift m lo hi n)
    (unread : Unread dest src lo hi j) : load n src j = load m src j := by
  by_cases here : src = dest
  · rw [here]
    exact moved.kept j (unread here)
  · exact load_congr (moved.others src here) j

/-- One more element copied, next to the stretch on either side. -/
theorem Moved.next (moved : Moved dest src shift m lo hi n) (lo' hi' : Int)
    (unread : Unread dest src lo hi (shift i)) (inside : 0 ≤ i ∧ i < (m dest).length)
    (source : 0 ≤ shift i ∧ shift i < (m src).length)
    (joined : ∀ k, (lo' ≤ k ∧ k < hi') ↔ ((lo ≤ k ∧ k < hi) ∨ k = i)) :
    ∃ n', copyElement dest src shift n i = some n' ∧ Moved dest src shift m lo' hi' n' := by
  obtain ⟨x, loaded⟩ := Option.isSome_iff_exists.mp (load_isSome.mpr source)
  obtain ⟨n', stored⟩ := store_some (moved.length.symm ▸ inside) x
  have read : load n src (shift i) = some x := (moved.read unread).trans loaded
  have cells := load_store stored
  have done : copyElement dest src shift n i = some n' := by
    unfold copyElement
    rw [read]
    exact stored
  refine ⟨n', done, ?_, ?_, ?_, ?_⟩
  · intro a other
    rw [store_others stored other, moved.others a other]
  · rw [store_length stored, moved.length]
  · intro k low high
    rw [cells]
    by_cases here : k = i
    · rw [if_pos here, here, loaded]
    · rw [if_neg here]
      have inStretch := ((joined k).mp ⟨low, high⟩).resolve_right here
      exact moved.copied k inStretch.1 inStretch.2
  · intro k outside
    rw [cells]
    have apart : ¬ (lo ≤ k ∧ k < hi) ∧ k ≠ i := by
      constructor
      · intro within
        exact outside ((joined k).mpr (Or.inl within))
      · intro here
        exact outside ((joined k).mpr (Or.inr here))
    rw [if_neg apart.2]
    exact moved.kept k apart.1

/-- Upwards nothing is overwritten before it is read when the elements come from above. -/
theorem copyUp_moved {count : Nat} (from_ : lo ≤ i) (moved : Moved dest src shift m lo i n)
    (target : ∀ k, i ≤ k → k < i + count → 0 ≤ k ∧ k < (m dest).length)
    (source : ∀ k, i ≤ k → k < i + count → 0 ≤ shift k ∧ shift k < (m src).length)
    (unread : ∀ k, i ≤ k → k < i + count → Unread dest src lo k (shift k)) :
    ∃ n', copyUp dest src shift count i n = some n' ∧
      Moved dest src shift m lo (i + count) n' := by
  induction count generalizing i n with
  | zero =>
    have stop : i + ((0 : Nat) : Int) = i := by omega
    rw [stop]
    exact ⟨n, rfl, moved⟩
  | succ count ih =>
    obtain ⟨n₁, copied, moved₁⟩ := moved.next lo (i + 1)
      (unread i Int.le_rfl (by omega)) (target i Int.le_rfl (by omega))
      (source i Int.le_rfl (by omega)) (by intro k; omega)
    obtain ⟨n₂, rest, moved₂⟩ := ih (by omega) moved₁
      (fun k low high => target k (by omega) (by omega))
      (fun k low high => source k (by omega) (by omega))
      (fun k low high => unread k (by omega) (by omega))
    have stop : i + 1 + (count : Int) = i + ((count + 1 : Nat) : Int) := by omega
    rw [stop] at moved₂
    refine ⟨n₂, ?_, moved₂⟩
    rw [copyUp, copied]
    exact rest

/-- Downwards nothing is overwritten before it is read when the elements come from below. -/
theorem copyDown_moved {count : Nat} (upTo : i < hi) (moved : Moved dest src shift m (i + 1) hi n)
    (target : ∀ k, i - count < k → k ≤ i → 0 ≤ k ∧ k < (m dest).length)
    (source : ∀ k, i - count < k → k ≤ i → 0 ≤ shift k ∧ shift k < (m src).length)
    (unread : ∀ k, i - count < k → k ≤ i → Unread dest src (k + 1) hi (shift k)) :
    ∃ n', copyDown dest src shift count i n = some n' ∧
      Moved dest src shift m (i + 1 - count) hi n' := by
  induction count generalizing i n with
  | zero =>
    have stop : i + 1 - ((0 : Nat) : Int) = i + 1 := by omega
    rw [stop]
    exact ⟨n, rfl, moved⟩
  | succ count ih =>
    obtain ⟨n₁, copied, moved₁⟩ := moved.next (i - 1 + 1) hi
      (unread i (by omega) Int.le_rfl) (target i (by omega) Int.le_rfl)
      (source i (by omega) Int.le_rfl) (by intro k; omega)
    obtain ⟨n₂, rest, moved₂⟩ := ih (by omega) moved₁
      (fun k low high => target k (by omega) (by omega))
      (fun k low high => source k (by omega) (by omega))
      (fun k low high => unread k (by omega) (by omega))
    have stop : i - 1 + 1 - (count : Int) = i + 1 - ((count + 1 : Nat) : Int) := by omega
    rw [stop] at moved₂
    refine ⟨n₂, ?_, moved₂⟩
    rw [copyDown, copied]
    exact rest

end BlockMove
