import SlateVm.Lib.Slots
import SlateVm.Collections.Hashed

/-! Arrays of keys whose search finds every key: what a search answers, and what storing
and removing a key make of the array. -/
namespace SlateVm.Collections

open Probing Slots

variable {κ : Type} {h : Hashing κ} {home : κ → Nat} {xs : List (Option κ)} {p : κ → Prop}

theorem Hashing.comm (h : Hashing κ) (a b : κ) : h.equals a b = h.equals b a := by
  cases left : h.equals a b with
  | true => exact (h.symm a b left).symm
  | false =>
    cases right : h.equals b a with
    | true => exact left.symm.trans (h.symm b a right)
    | false => rfl

def Distinct (h : Hashing κ) (ks : List κ) : Prop := ks.Pairwise fun a b => h.equals a b = false

theorem Distinct.perm {ks ls : List κ} (distinct : Distinct h ks) (perm : ks.Perm ls) :
    Distinct h ls := by
  apply perm.pairwise distinct
  intro a b apart
  rwa [h.comm]

/-- Where equal keys start their search is the same, and it lies on the ring. -/
structure Homes (h : Hashing κ) (n : Nat) (home : κ → Nat) : Prop where
  within : ∀ a, home a ≤ n
  same : ∀ a b, h.equals a b = true → home a = home b

/-- The array holds the keys of `p`, each once, where a search finds them. -/
structure Keyed (h : Hashing κ) (home : κ → Nat) (xs : List (Option κ)) (p : κ → Prop) : Prop
    where
  homes : Homes h xs.length home
  seated : Seated xs.length home (stored xs)
  lone : Lone h xs.length (stored xs)
  member : ∀ a, p a ↔ ∃ b ∈ xs.filterMap id, h.equals b a = true

/-- The search of a hashed collection, for `obj` in the array `xs`. -/
def scan (h : Hashing κ) (home : κ → Nat) (xs : List (Option κ)) (obj : κ) : Option Nat :=
  search xs.length (stored xs) (h.equals obj) (home obj)

theorem Lone.distinct (lone : Lone h xs.length (stored xs)) : Distinct h (xs.filterMap id) := by
  unfold Distinct
  rw [List.pairwise_filterMap, List.pairwise_iff_getElem]
  intro i j hi hj before a first b second
  cases equal : h.equals a b with
  | false => rfl
  | true =>
    have here : stored xs i = some a := (stored_of_lt hi).trans first
    have there : stored xs j = some b := (stored_of_lt hj).trans second
    exact absurd (lone i hi j hj a b here there equal) (Nat.ne_of_lt before)

theorem Keyed.distinct (keyed : Keyed h home xs p) : Distinct h (xs.filterMap id) :=
  keyed.lone.distinct

theorem keyed_empty {n : Nat} (homes : Homes h n home) :
    Keyed h home (List.replicate n none) fun _ => False := by
  have blank : ∀ i, stored (List.replicate n (none : Option κ)) i = none := by
    intro i
    unfold stored
    rw [List.getElem?_replicate]
    split <;> rfl
  constructor
  · simpa using homes
  · intro i _ a holds
    simp [blank] at holds
  · intro i _ j _ a b holds
    simp [blank] at holds
  · intro a
    simp

section Search

variable (keyed : Keyed h home xs p) {obj : κ}
include keyed

theorem Keyed.scan_present (obj : κ) (member : p obj) : ∃ i < xs.length, ∃ b,
    scan h home xs obj = some i ∧ stored xs i = some b ∧ h.equals b obj = true := by
  obtain ⟨b, live, equal⟩ := (keyed.member obj).mp member
  obtain ⟨i, inside, here⟩ := mem_live.mp live
  refine ⟨i, inside, b, ?_, here, equal⟩
  apply search_found (keyed.homes.within obj) inside here (h.symm b obj equal)
  · rw [← keyed.homes.same b obj equal]
    exact keyed.seated i inside b here
  · intro j hj c there other
    exact keyed.lone j hj i inside c b there here
      (h.trans c obj b (h.symm obj c other) (h.symm b obj equal))

theorem Keyed.scan_absent (obj : κ) (missing : ¬ p obj) (room : (xs.filterMap id).length < xs.length) :
    ∃ i < xs.length, scan h home xs obj = some i ∧ stored xs i = none := by
  obtain ⟨r, hr, empty⟩ := exists_empty room
  obtain ⟨i, found⟩ := search_ends (h.equals obj) (keyed.homes.within obj) hr empty
  have facts := (search_eq_some (keyed.homes.within obj)).mp found
  refine ⟨i, facts.1, found, ?_⟩
  cases here : stored xs i with
  | none => rfl
  | some b =>
    have equal : h.equals obj b = true := by simpa [here] using facts.2.1
    exact absurd ((keyed.member obj).mpr
      ⟨b, mem_live.mpr ⟨i, facts.1, here⟩, h.symm obj b equal⟩) missing

theorem Keyed.store {i : Nat} (missing : ¬ p obj) (found : scan h home xs obj = some i)
    (empty : stored xs i = none) :
    Keyed h home (xs.set i (some obj)) fun a => p a ∨ h.equals obj a = true := by
  have facts := (search_eq_some (keyed.homes.within obj)).mp found
  have inside := facts.1
  have length : (xs.set i (some obj)).length = xs.length := List.length_set
  have filled : Filled xs.length (stored xs) (stored (xs.set i (some obj))) i obj := by
    constructor
    · exact inside
    · exact empty
    · simp [stored_set inside]
    · intro j off
      simp [stored_set inside, off]
  have fresh : ∀ j < xs.length, ∀ b, stored xs j = some b → h.equals obj b = false := by
    intro j hj b there
    cases equal : h.equals obj b with
    | false => rfl
    | true =>
      exact absurd ((keyed.member obj).mpr
        ⟨b, mem_live.mpr ⟨j, hj, there⟩, h.symm obj b equal⟩) missing
  constructor
  · rw [length]
    exact keyed.homes
  · rw [length]
    apply filled.seated keyed.seated
    intro j hj early
    obtain ⟨b, there, _⟩ := facts.2.2 j hj early
    simp [there]
  · rw [length]
    intro j hj k hk a b first second equal
    rw [stored_set inside] at first second
    split at first
    · cases first
      split at second
      · omega
      · rw [fresh k hk b second] at equal
        cases equal
    · split at second
      · cases second
        rw [h.comm, fresh j hj a first] at equal
        cases equal
      · exact keyed.lone j hj k hk a b first second equal
  · intro a
    have vacant : xs[i] = none := (stored_of_lt inside).symm.trans empty
    have perm := picked_fill (f := id) inside vacant (y := some obj) rfl
    rw [keyed.member]
    constructor
    · rintro (⟨b, live, equal⟩ | equal)
      · exact ⟨b, perm.mem_iff.mpr (List.mem_cons_of_mem _ live), equal⟩
      · exact ⟨obj, perm.mem_iff.mpr (List.mem_cons_self ..), equal⟩
    · rintro ⟨b, live, equal⟩
      rcases List.mem_cons.mp (perm.mem_iff.mp live) with rfl | old
      · exact Or.inr equal
      · exact Or.inl ⟨b, old, equal⟩

theorem Keyed.without {b : κ} {ks : List κ} (equal : h.equals b obj = true)
    (perm : (xs.filterMap id).Perm (b :: ks)) (a : κ) :
    (p a ∧ ¬ h.equals obj a = true) ↔ ∃ c ∈ ks, h.equals c a = true := by
  have apart := (List.pairwise_cons.mp (keyed.distinct.perm perm)).1
  rw [keyed.member]
  constructor
  · rintro ⟨⟨c, live, same⟩, other⟩
    rcases List.mem_cons.mp (perm.mem_iff.mp live) with rfl | kept
    · exact absurd (h.trans obj c a (h.symm c obj equal) same) other
    · exact ⟨c, kept, same⟩
  · rintro ⟨c, kept, same⟩
    refine ⟨⟨c, perm.mem_iff.mpr (List.mem_cons_of_mem _ kept), same⟩, fun clash => ?_⟩
    have twice := h.trans b a c (h.trans b obj a equal clash) (h.symm c a same)
    rw [apart c kept] at twice
    cases twice

end Search

end SlateVm.Collections
