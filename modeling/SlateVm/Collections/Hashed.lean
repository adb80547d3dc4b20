import SlateVm.Lib.Probing

/-! Hashed collections: the walk by which `Set` and `Dictionary` close the hole that a
removal leaves in their arrays. Both have the same text over their own accessors. -/
namespace SlateVm.Collections

open Probing

structure Hashing (κ : Type) where
  hash : κ → Int
  equals : κ → κ → Bool
  refl : ∀ a, equals a a = true
  symm : ∀ a b, equals a b = true → equals b a = true
  trans : ∀ a b c, equals a b = true → equals b c = true → equals a c = true
  hash_eq : ∀ a b, equals a b = true → hash a = hash b

def numbers : Hashing Nat where
  hash k := k
  equals a b := a == b
  refl := by simp
  symm := by simp
  trans := by simp
  hash_eq := by simp

/-- The accessors of a hashed collection that `fixCollisionsFrom:` uses. -/
structure Accessors (τ κ : Type) where
  capacity : τ → Nat
  keyAt : τ → Nat → Option (Option κ)
  scanFor : τ → κ → Option Nat
  swap : τ → Nat → Nat → τ

/-- The index that follows in `fixCollisionsFrom:`; behind the last one comes 1. -/
def following (capacity oldIndex : Nat) : Nat :=
  if oldIndex + 1 ≥ capacity then 1 else oldIndex + 1

variable {τ κ : Type}

/-- `fixCollisionsFrom:`, with a bound on the rounds of its loop. -/
def fixCollisionsFrom (c : Accessors τ κ) : Nat → τ → Nat → Option τ
  | 0, _, _ => none
  | rounds + 1, t, index => do
    let oldIndex := following (c.capacity t) index
    match ← c.keyAt t oldIndex with
    | none => some t
    | some element =>
      let newIndex ← c.scanFor t element
      fixCollisionsFrom c rounds (if newIndex = oldIndex then t else c.swap t oldIndex newIndex)
        oldIndex

/-- Where the hole is after the walk over the positions `ps`. -/
def sweep (n : Nat) (home : κ → Nat) (slot : Nat → Option κ) : Nat → List Nat → Nat
  | hole, [] => hole
  | hole, p :: ps =>
    match slot p with
    | none => sweep n home slot hole ps
    | some a => sweep n home slot (if Passes n home a hole p then p else hole) ps

def toEnd (n q : Nat) : List Nat := List.range' q (n - q)

/-- The walk from `index` runs over the end of the array, and the item at index 0, which it
does not look at, needs the hole that is left. -/
def Strands (n : Nat) (home : κ → Nat) (slot : Nat → Option κ) (index : Nat) : Prop :=
  (∀ p ∈ toEnd n (index + 1), slot p ≠ none) ∧ 0 < index ∧
    ∃ a, slot 0 = some a ∧ Passes n home a (sweep n home slot index (toEnd n (index + 1))) 0

theorem toEnd_cons {n q : Nat} (inside : q < n) : toEnd n q = q :: toEnd n (q + 1) := by
  unfold toEnd
  obtain ⟨k, rfl⟩ := Nat.exists_eq_add_of_lt inside
  rw [show q + k + 1 - q = k + 1 by omega, show q + k + 1 - (q + 1) = k by omega]
  rfl

theorem mem_toEnd {n q p : Nat} (below : q ≤ n) : p ∈ toEnd n q ↔ q ≤ p ∧ p < n := by
  simp only [toEnd, List.mem_range'_1]
  omega

theorem sweep_congr {n : Nat} {home : κ → Nat} {slot slot' : Nat → Option κ} (hole : Nat)
    (ps : List Nat) (same : ∀ p ∈ ps, slot' p = slot p) :
    sweep n home slot' hole ps = sweep n home slot hole ps := by
  induction ps generalizing hole with
  | nil => rfl
  | cons p ps ih =>
    have rest := fun hole => ih hole fun q hq => same q (List.mem_cons_of_mem _ hq)
    simp only [sweep, same p (List.mem_cons_self ..), rest]

structure Accessors.Lawful (c : Accessors τ κ) (n : Nat) (h : Hashing κ) (home : κ → Nat)
    (slot : τ → Nat → Option κ) (fits : τ → Prop) : Prop where
  within : ∀ a, home a ≤ n
  capacity : ∀ t, fits t → c.capacity t = n
  keyAt : ∀ t i, fits t → i < n → c.keyAt t i = some (slot t i)
  scanFor : ∀ t a, fits t → c.scanFor t a = search n (slot t) (h.equals a) (home a)
  fits_swap : ∀ t i j, fits t → i < n → j < n → fits (c.swap t i j)
  swap : ∀ t i j p, fits t → i < n → j < n → slot (c.swap t i j) p =
    if p = i then slot t j else if p = j then slot t i else slot t p

def Lone (h : Hashing κ) (n : Nat) (slot : Nat → Option κ) : Prop :=
  ∀ i < n, ∀ j < n, ∀ a b, slot i = some a → slot j = some b → h.equals a b = true → i = j

theorem following_succ {n p : Nat} (inside : p + 1 < n) : following n p = p + 1 := by
  unfold following
  split <;> omega

theorem following_last {n p : Nat} (last : p + 1 = n) : following n p = 1 := by
  unfold following
  split <;> omega

section Walk

variable {c : Accessors τ κ} {n : Nat} {h : Hashing κ} {home : κ → Nat}
  {slot : τ → Nat → Option κ} {fits : τ → Prop} (lawful : c.Lawful n h home slot fits)
include lawful

theorem fix_stop {rounds : Nat} {t : τ} {p : Nat} (ok : fits t) (inside : following n p < n)
    (empty : slot t (following n p) = none) :
    fixCollisionsFrom c (rounds + 1) t p = some t := by
  simp only [fixCollisionsFrom, lawful.capacity t ok, lawful.keyAt t _ ok inside, empty]
  rfl

theorem fix_keep {rounds : Nat} {t : τ} {p : Nat} {a : κ} (ok : fits t)
    (inside : following n p < n) (holds : slot t (following n p) = some a)
    (found : search n (slot t) (h.equals a) (home a) = some (following n p)) :
    fixCollisionsFrom c (rounds + 1) t p = fixCollisionsFrom c rounds t (following n p) := by
  simp [fixCollisionsFrom, lawful.capacity t ok, lawful.keyAt t _ ok inside, holds,
    lawful.scanFor t a ok, found]

theorem fix_move {rounds : Nat} {t : τ} {p hole : Nat} {a : κ} (ok : fits t)
    (inside : following n p < n) (holds : slot t (following n p) = some a)
    (found : search n (slot t) (h.equals a) (home a) = some hole) (off : following n p ≠ hole) :
    fixCollisionsFrom c (rounds + 1) t p =
      fixCollisionsFrom c rounds (c.swap t (following n p) hole) (following n p) := by
  simp [fixCollisionsFrom, lawful.capacity t ok, lawful.keyAt t _ ok inside, holds,
    lawful.scanFor t a ok, found, off.symm]

theorem swap_moved {t : τ} {q hole : Nat} (ok : fits t) (hq : q < n) (hh : hole < n)
    (off : q ≠ hole) (empty : slot t hole = none) :
    Moved (slot t) (slot (c.swap t q hole)) hole q := by
  have swapped := fun p => lawful.swap t q hole p ok hq hh
  constructor
  · simp [swapped hole, off.symm]
  · simp [swapped q, empty]
  · intro j apart away
    simp [swapped j, apart, away]

end Walk

theorem Lone.moved {h : Hashing κ} {n hole q : Nat} {slot slot' : Nat → Option κ}
    (lone : Lone h n slot) (hq : q < n) (moved : Moved slot slot' hole q) : Lone h n slot' := by
  have origin : ∀ i < n, ∀ a, slot' i = some a →
      ∃ i' < n, slot i' = some a ∧ (i' = q → i = hole) ∧ (i' ≠ q → i = i') := by
    intro i hi a there
    rcases Decidable.em (i = q) with rfl | away
    · rw [moved.left] at there
      cases there
    · rcases Decidable.em (i = hole) with rfl | apart
      · rw [moved.filled] at there
        exact ⟨q, hq, there, fun _ => rfl, fun other => absurd rfl other⟩
      · rw [moved.other i apart away] at there
        exact ⟨i, hi, there, fun same => absurd same away, fun _ => rfl⟩
  intro i hi j hj a b first second equal
  obtain ⟨i', hi', first', iq, iother⟩ := origin i hi a first
  obtain ⟨j', hj', second', jq, jother⟩ := origin j hj b second
  have same := lone i' hi' j' hj' a b first' second' equal
  rcases Decidable.em (i' = q) with here | other
  · rw [iq here, jq (same ▸ here)]
  · rw [iother other, jother (same ▸ other), same]

theorem Lone.only {h : Hashing κ} {n q : Nat} {slot : Nat → Option κ} {a : κ}
    (lone : Lone h n slot) (hq : q < n) (holds : slot q = some a) :
    ∀ j < n, ∀ b, slot j = some b → h.equals a b = true → j = q :=
  fun j hj b there equal => (lone q hq j hj a b holds there equal).symm

section Closing

variable {c : Accessors τ κ} {n : Nat} {h : Hashing κ} {home : κ → Nat}
  {slot : τ → Nat → Option κ} {fits kept : τ → Prop}

/-- How the walk ends: no item needs a hole any more, and what swaps keep is kept. -/
structure Closed (n : Nat) (h : Hashing κ) (home : κ → Nat) (slot : τ → Nat → Option κ)
    (fits kept : τ → Prop) (t : τ) : Prop where
  seated : Seated n home (slot t)
  lone : Lone h n (slot t)
  fits : fits t
  kept : kept t

variable (lawful : c.Lawful n h home slot fits)
include lawful

theorem fix_settled {t : τ} (closed : Closed n h home slot fits kept t) {e : Nat} (he : e < n)
    (empty : slot t e = none) (rounds p : Nat) (ahead : following n p ≤ e)
    (enough : e - following n p < rounds) :
    ∃ t', fixCollisionsFrom c rounds t p = some t' ∧ Closed n h home slot fits kept t' := by
  induction rounds generalizing p with
  | zero => omega
  | succ rounds ih =>
    have inside : following n p < n := Nat.lt_of_le_of_lt ahead he
    cases here : slot t (following n p) with
    | none => exact ⟨t, fix_stop lawful closed.fits inside here, closed⟩
    | some a =>
      have early : following n p ≠ e := fun same => by simp [same, empty] at here
      have next : following n (following n p) = following n p + 1 := following_succ (by omega)
      have found := search_found (lawful.within a) inside here (h.refl a)
        (closed.seated _ inside a here) (closed.lone.only inside here)
      obtain ⟨t', run, done⟩ := ih (following n p) (by omega) (by omega)
      exact ⟨t', (fix_keep lawful closed.fits inside here found).trans run, done⟩

variable (keep : ∀ t i j, fits t → kept t → i < n → j < n → kept (c.swap t i j))
include keep

theorem fix_close {t : τ} {hole r : Nat} (rounds p : Nat) (ok : fits t) (held : kept t)
    (lone : Lone h n (slot t)) (dug : Dug n home (slot t) hole (following n p)) (hr : r < n)
    (empty : slot t r = none) (ahead : following n p ≤ r)
    (clear : hole < following n p ∨ r < hole) (enough : r - following n p < rounds) :
    ∃ t', fixCollisionsFrom c rounds t p = some t' ∧ Closed n h home slot fits kept t' := by
  induction rounds generalizing t hole p with
  | zero => omega
  | succ rounds ih =>
    have inside : following n p < n := Nat.lt_of_le_of_lt ahead hr
    have off : following n p ≠ hole := by omega
    cases here : slot t (following n p) with
    | none =>
      have seated := dug.stop lawful.within inside off here
      exact ⟨t, fix_stop lawful ok inside here, seated, lone, ok, held⟩
    | some a =>
      have early : following n p ≠ r := fun same => by simp [same, empty] at here
      have next : following n (following n p) = following n p + 1 := following_succ (by omega)
      rcases Decidable.em (Passes n home a hole (following n p)) with needs | stays
      · have found := dug.search_hole lawful.within inside here needs
          (lone.only (a := a) inside here)
        have moved := swap_moved lawful ok inside dug.inside off dug.empty
        have digs := dug.move inside off here needs moved
          (Next.succ (by omega) inside (Nat.succ_ne_self _))
        have still : slot (c.swap t (following n p) hole) r = none := by
          rw [moved.other r (by omega) (Ne.symm early), empty]
        obtain ⟨t', run, done⟩ := ih (following n p)
          (lawful.fits_swap t _ _ ok inside dug.inside) (keep t _ _ ok held inside dug.inside)
          (lone.moved inside moved) (next ▸ digs) still (by omega) (by omega) (by omega)
        exact ⟨t', (fix_move lawful ok inside here found off).trans run, done⟩
      · have found := dug.search_self lawful.within inside here stays (h.refl a)
          (lone.only (a := a) inside here)
        have digs := dug.keep inside off here stays
          (Next.succ (by omega) dug.inside (by omega))
        obtain ⟨t', run, done⟩ := ih (following n p) ok held lone (next ▸ digs) empty
          (by omega) (by omega) (by omega)
        exact ⟨t', (fix_keep lawful ok inside here found).trans run, done⟩

theorem fix_turn {t : τ} {hole r : Nat} (rounds p : Nat) (last : p + 1 = n) (ok : fits t)
    (held : kept t) (lone : Lone h n (slot t)) (dug : Dug n home (slot t) hole 0)
    (positive : 0 < hole) (before : r < hole) (empty : slot t r = none)
    (spared : ∀ a, slot t 0 = some a → ¬ Passes n home a hole 0) (enough : n ≤ rounds) :
    ∃ t', fixCollisionsFrom c rounds t p = some t' ∧ Closed n h home slot fits kept t' := by
  have inside := dug.inside
  have turn : following n p = 1 := following_last last
  cases here : slot t 0 with
  | none =>
    have seated := dug.stop lawful.within (by omega) (by omega) here
    exact fix_settled lawful ⟨seated, lone, ok, held⟩ inside dug.empty rounds p (by omega)
      (by omega)
  | some a =>
    have later : r ≠ 0 := fun same => by simp [same, here] at empty
    have digs : Dug n home (slot t) hole 1 := dug.keep (by omega) (by omega) here (spared a here)
      (Next.succ (by omega) inside (by omega))
    rw [← turn] at digs
    exact fix_close lawful keep rounds p ok held lone digs (by omega) empty (by omega)
      (by omega) (by omega)

theorem fix_over {t : τ} {hole r : Nat} (rounds p : Nat) (ok : fits t) (held : kept t)
    (lone : Lone h n (slot t)) (dug : Dug n home (slot t) hole (if p + 1 < n then p + 1 else 0))
    (inside : p < n) (positive : 0 < hole) (behind : hole ≤ p) (before : r < hole)
    (empty : slot t r = none) (full : ∀ q ∈ toEnd n (p + 1), slot t q ≠ none)
    (spared : ∀ a, slot t 0 = some a →
      ¬ Passes n home a (sweep n home (slot t) hole (toEnd n (p + 1))) 0)
    (enough : n + (n - p) ≤ rounds) :
    ∃ t', fixCollisionsFrom c rounds t p = some t' ∧ Closed n h home slot fits kept t' := by
  induction rounds generalizing t hole p with
  | zero => omega
  | succ rounds ih =>
    rcases Nat.lt_or_ge (p + 1) n with more | last
    · rw [if_pos more] at dug
      rw [toEnd_cons more] at full spared
      have next : following n p = p + 1 := following_succ more
      obtain ⟨a, here⟩ := Option.ne_none_iff_exists'.mp (full (p + 1) (List.mem_cons_self ..))
      have rest := fun q hq => full q (List.mem_cons_of_mem _ hq)
      have onward : ∀ {hole : Nat}, hole < n → hole ≤ p + 1 → 0 < hole →
          Next n hole (p + 1) (if p + 1 + 1 < n then p + 1 + 1 else 0) := by
        intro hole hole_lt low high
        split
        · exact Next.succ (by omega) hole_lt (by omega)
        · rw [show p + 1 = n - 1 by omega]
          exact Next.wrap hole_lt (by omega)
      have off : p + 1 ≠ hole := by omega
      simp only [sweep, here] at spared
      rcases Decidable.em (Passes n home a hole (p + 1)) with needs | stays
      · have found := dug.search_hole lawful.within more here needs (lone.only (a := a) more here)
        have moved := swap_moved lawful ok more dug.inside off dug.empty
        have digs := dug.move more off here needs moved (onward more (Nat.le_refl _) (by omega))
        have same : ∀ q ∈ toEnd n (p + 1 + 1), slot (c.swap t (p + 1) hole) q = slot t q := by
          intro q hq
          have bounds := (mem_toEnd (by omega)).mp hq
          exact moved.other q (by omega) (by omega)
        obtain ⟨t', run, done⟩ := ih (p + 1) (lawful.fits_swap t _ _ ok more dug.inside)
          (keep t _ _ ok held more dug.inside) (lone.moved more moved) digs more (by omega)
          (Nat.le_refl _) (by omega) ((moved.other r (by omega) (by omega)).trans empty)
          (fun q hq => by rw [same q hq]; exact rest q hq)
          (fun b zero => by
            rw [moved.other 0 (by omega) (by omega)] at zero
            rw [sweep_congr _ _ same]
            simpa [needs] using spared b zero)
          (by omega)
        exact ⟨t', (next ▸ fix_move lawful ok (next ▸ more) (next ▸ here) found (next ▸ off)).trans
          run, done⟩
      · have found := dug.search_self lawful.within more here stays (h.refl a)
          (lone.only (a := a) more here)
        have digs := dug.keep more off here stays (onward dug.inside (by omega) positive)
        obtain ⟨t', run, done⟩ := ih (p + 1) ok held lone digs more positive (by omega) before
          empty rest (fun b zero => by simpa [stays] using spared b zero) (by omega)
        exact ⟨t', (next ▸ fix_keep lawful ok (next ▸ more) (next ▸ here) (next ▸ found)).trans
          run, done⟩
    · have ended : p + 1 = n := by omega
      rw [if_neg (by omega)] at dug
      apply fix_turn lawful keep (rounds + 1) p ended ok held lone dug positive before empty
      · intro a zero
        have none_left : toEnd n (p + 1) = [] := by simp [toEnd, ended]
        simpa [none_left, sweep] using spared a zero
      · omega

variable (kept) in
theorem fix_removed {before : Nat → Option κ} {t : τ} {index r : Nat} (ok : fits t)
    (held : kept t) (seated : Seated n home before) (lone : Lone h n before)
    (emptied : Emptied n before (slot t) index) (hr : r < n) (other : r ≠ index)
    (empty : before r = none) (spared : ¬ Strands n home before index) :
    ∃ t', fixCollisionsFrom c (2 * n) t index = some t' ∧ Closed n h home slot fits kept t' := by
  have inside := emptied.inside
  have alone : Lone h n (slot t) := by
    intro i hi j hj a b first second equal
    rcases Decidable.em (i = index) with rfl | away
    · simp [emptied.here] at first
    · rcases Decidable.em (j = index) with rfl | apart
      · simp [emptied.here] at second
      · rw [emptied.other i away] at first
        rw [emptied.other j apart] at second
        exact lone i hi j hj a b first second equal
  have still : slot t r = none := (emptied.other r other).trans empty
  rcases Nat.lt_or_ge index r with ahead | below
  · have next : following n index = index + 1 := following_succ (by omega)
    have dug := emptied.dug seated (Next.succ (by omega) inside (Nat.succ_ne_self _))
    exact fix_close lawful keep (2 * n) index ok held alone (next ▸ dug) hr still (by omega)
      (by omega) (by omega)
  · rcases Classical.em (∀ p ∈ toEnd n (index + 1), slot t p ≠ none) with full | gap
    · have dug : Dug n home (slot t) index (if index + 1 < n then index + 1 else 0) := by
        split
        · exact emptied.dug seated (Next.succ (by omega) inside (Nat.succ_ne_self _))
        · have last : index = n - 1 := by omega
          have turned := Next.wrap inside (by omega)
          exact emptied.dug seated (last ▸ turned)
      have same : ∀ p ∈ toEnd n (index + 1), slot t p = before p := by
        intro p hp
        have bounds := (mem_toEnd (by omega)).mp hp
        exact emptied.other p (by omega)
      apply fix_over lawful keep (2 * n) index ok held alone dug inside (by omega)
        (Nat.le_refl _) (by omega) still full _ (by omega)
      intro a zero passed
      apply spared
      refine ⟨fun p hp => same p hp ▸ full p hp, by omega, a, ?_, ?_⟩
      · rwa [emptied.other 0 (by omega)] at zero
      · rwa [sweep_congr _ _ same] at passed
    · simp only [not_forall, not_not] at gap
      obtain ⟨e, he, hole⟩ := gap
      have bounds := (mem_toEnd (by omega)).mp he
      have next : following n index = index + 1 := following_succ (by omega)
      have dug := emptied.dug seated (Next.succ (by omega) inside (Nat.succ_ne_self _))
      exact fix_close lawful keep (2 * n) index ok held alone (next ▸ dug) bounds.2 hole
        (by omega) (by omega) (by omega)

end Closing

end SlateVm.Collections
