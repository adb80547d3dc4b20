import SlateVm.Lib.Probing
import Mathlib.Data.List.Perm.Subperm
import Mathlib.Data.List.Range

/-! Tables with linear probing that are only ever filled, and chains of links through their
positions. -/
namespace Probing

variable {α : Type} {n : Nat}

section Spin

variable {stop : Nat → Bool}

/-- The loop of a probe: the next position of the ring until one stops it. -/
def spin (n : Nat) (stop : Nat → Bool) : Nat → Nat → Option Nat
  | 0, _ => none
  | fuel + 1, i => if stop i then some i else spin n stop fuel ((i + 1) % n)

theorem after_lt {h i : Nat} (within : h < n) (inside : i < n) : after n h i < n := by
  have cases := after_cases n h i
  omega

theorem after_next {h i : Nat} (within : h < n) (inside : i < n) (off : i ≠ h) :
    after n h i = after n ((h + 1) % n) i + 1 := by
  have here := after_cases n h i
  have next := after_cases n ((h + 1) % n) i
  rcases Nat.lt_or_ge (h + 1) n with small | large
  · rw [Nat.mod_eq_of_lt small] at next ⊢
    omega
  · have wraps : h + 1 = n := by omega
    rw [wraps, Nat.mod_self] at next ⊢
    omega

/-- A loop that can stop does so at the first position that stops it. -/
theorem spin_stops {r : Nat} (inside : r < n) (stops : stop r = true) (fuel : Nat) (h : Nat)
    (within : h < n) (enough : after n h r < fuel) :
    ∃ i, spin n stop fuel h = some i ∧ i < n ∧ stop i = true ∧
      ∀ j < n, after n h j < after n h i → stop j = false := by
  induction fuel generalizing h with
  | zero => omega
  | succ fuel ih =>
    unfold spin
    cases here : stop h with
    | true => exact ⟨h, if_pos rfl, within, here, fun j _ early => by simp at early⟩
    | false =>
      have apart : ∀ j, stop j = true → j ≠ h := by
        rintro j there rfl
        rw [here] at there
        cases there
      have within' : (h + 1) % n < n := Nat.mod_lt _ (by omega)
      have step := after_next within inside (apart r stops)
      obtain ⟨i, run, hi, there, before⟩ := ih _ within' (by omega)
      refine ⟨i, run, hi, there, fun j hj early => ?_⟩
      rcases Decidable.em (j = h) with rfl | off
      · exact here
      · have first := after_next within hj off
        have second := after_next within hi (apart i there)
        exact before j hj (by omega)

end Spin

section Placed

variable {home : α → Nat} {slot slot' : Nat → Option α} {placed : List (Nat × α)}

/-- The items of a table in the order they came, each with its position. -/
structure Placed (n : Nat) (home : α → Nat) (slot : Nat → Option α) (placed : List (Nat × α)) :
    Prop where
  slots : ∀ p a, slot p = some a ↔ (p, a) ∈ placed
  inside : ∀ p a, (p, a) ∈ placed → p < n
  seated : Seated n home slot
  ordered : placed.Pairwise fun x y =>
    home x.2 = home y.2 → after n (home x.2) x.1 < after n (home x.2) y.1

/-- A probe that goes on from a position on the way passes no others. -/
theorem after_onward {h p q j : Nat} (hh : h < n) (hp : p < n) (hq : q < n) (hj : j < n)
    (late : ¬ after n h j < after n h p) (early : after n h j < after n h q) :
    after n p j < after n p q := by
  have to_p := after_cases n h p
  have to_q := after_cases n h q
  have to_j := after_cases n h j
  have p_j := after_cases n p j
  have p_q := after_cases n p q
  omega

theorem placed_nil : Placed n home (fun _ => none) [] := by
  constructor
  · simp
  · simp
  · intro i _ a holds
    cases holds
  · exact .nil

/-- Only the homes of the items in the table matter. -/
theorem Placed.rehome {home' : α → Nat} (table : Placed n home slot placed)
    (same : ∀ p a, (p, a) ∈ placed → home' a = home a) : Placed n home' slot placed := by
  constructor
  · exact table.slots
  · exact table.inside
  · intro i hi a holds j hj early
    have kept := same i a ((table.slots i a).mp holds)
    rw [Passes, kept] at early
    exact table.seated i hi a holds j hj early
  · apply table.ordered.imp_of_mem
    rintro ⟨p, a⟩ ⟨q, b⟩ first second before equal
    simp only [same p a first, same q b second] at equal ⊢
    exact before equal

/-- Other items at the same positions, with the same homes. -/
theorem Placed.map {β : Type} {home' : β → Nat} {slot' : Nat → Option β} (f : α → β)
    (table : Placed n home slot placed) (homes : ∀ a, home' (f a) = home a)
    (slots : ∀ p, slot' p = (slot p).map f) :
    Placed n home' slot' (placed.map (Prod.map id f)) := by
  constructor
  · intro p b
    rw [slots, Option.map_eq_some_iff, List.mem_map]
    constructor
    · rintro ⟨a, here, rfl⟩
      exact ⟨(p, a), (table.slots p a).mp here, rfl⟩
    · rintro ⟨⟨q, a⟩, member, same⟩
      cases same
      exact ⟨a, (table.slots q a).mpr member, rfl⟩
  · intro p b member
    obtain ⟨⟨q, a⟩, old, same⟩ := List.mem_map.mp member
    cases same
    exact table.inside q a old
  · intro i hi b holds j hj early
    rw [slots, Option.map_eq_some_iff] at holds
    obtain ⟨a, here, rfl⟩ := holds
    rw [Passes, homes] at early
    rw [slots]
    intro hole
    exact table.seated i hi a here j hj early (Option.map_eq_none_iff.mp hole)
  · rw [List.pairwise_map]
    apply table.ordered.imp
    rintro ⟨p, a⟩ ⟨q, b⟩ before equal
    simp only [Prod.map, id, homes] at before equal ⊢
    exact before equal

/-- A probe for an item that stops at the first empty position puts it there. -/
theorem Placed.add {q : Nat} {a : α} (table : Placed n home slot placed)
    (within : home a < n) (filled : Filled n slot slot' q a)
    (before : ∀ j < n, Passes n home a j q → slot j ≠ none) :
    Placed n home slot' (placed ++ [(q, a)]) := by
  constructor
  · intro p b
    rw [List.mem_append, List.mem_singleton, ← table.slots]
    rcases Decidable.em (p = q) with rfl | off
    · rw [filled.here, filled.empty]
      simp [eq_comm]
    · rw [filled.other p off]
      simp [off]
  · intro p b member
    rcases List.mem_append.mp member with old | new
    · exact table.inside p b old
    · cases List.mem_singleton.mp new
      exact filled.inside
  · exact filled.seated table.seated before
  · rw [List.pairwise_append]
    refine ⟨table.ordered, List.pairwise_singleton _ _, ?_⟩
    rintro ⟨p, b⟩ old y new same
    cases List.mem_singleton.mp new
    simp only at same ⊢
    have hp := table.inside p b old
    have here := (table.slots p b).mpr old
    -- the position is empty, so the probe of an item in the table does not pass it
    have late : ¬ Passes n home b q p :=
      fun early => table.seated p hp b here q filled.inside early filled.empty
    have apart : after n (home b) p ≠ after n (home b) q := by
      intro level
      have equal := after_inj (Nat.le_of_lt (same ▸ within)) hp filled.inside level
      rw [equal, filled.empty] at here
      cases here
    simp only [Passes] at late
    omega

theorem Placed.nodup (table : Placed n home slot placed) : (placed.map Prod.fst).Nodup := by
  rw [List.Nodup, List.pairwise_map]
  apply table.ordered.imp_of_mem
  rintro ⟨p, a⟩ ⟨q, b⟩ first second before same
  simp only at same before
  subst same
  have here := (table.slots p a).mpr first
  rw [(table.slots p b).mpr second] at here
  cases here
  exact Nat.lt_irrefl _ (before rfl)

theorem Placed.room (table : Placed n home slot placed) (few : placed.length < n) :
    ∃ r < n, slot r = none := by
  by_contra full
  have taken : List.range n ⊆ placed.map Prod.fst := by
    intro r member
    cases here : slot r with
    | none => exact absurd ⟨r, List.mem_range.mp member, here⟩ full
    | some a => exact List.mem_map.mpr ⟨(r, a), (table.slots r a).mp here, rfl⟩
  have short := (List.nodup_range.subperm taken).length_le
  simp only [List.length_range, List.length_map] at short
  omega

/-- A search for items that all have one home finds the one that came first, if there is any. -/
theorem Placed.search {test : α → Bool} {h : Nat} (table : Placed n home slot placed)
    (within : h ≤ n) (homed : ∀ p a, (p, a) ∈ placed → test a = true → home a = h) :
    (search n slot test h).filter (fun i => (slot i).any test) =
      ((placed.filter fun x => test x.2).head?).map Prod.fst := by
  cases chain : placed.filter fun x => test x.2 with
  | nil =>
    rw [List.filter_eq_nil_iff] at chain
    rw [List.head?_nil, Option.map_none, Option.filter_eq_none_iff]
    intro i _ accepted
    rw [Option.any_eq_true] at accepted
    obtain ⟨a, here, passes⟩ := accepted
    exact chain (i, a) ((table.slots i a).mp here) passes
  | cons x rest =>
    obtain ⟨p, a⟩ := x
    obtain ⟨member, accepted⟩ := List.mem_filter.mp (chain ▸ List.mem_cons_self)
    have at_ := homed p a member accepted
    have here := (table.slots p a).mpr member
    have hp := table.inside p a member
    have ordered := table.ordered.filter fun x => test x.2
    rw [chain, List.pairwise_cons] at ordered
    have found : Probing.search n slot test h = some p := by
      rw [search_eq_some within]
      refine ⟨hp, by simpa [here] using accepted, fun j hj early => ?_⟩
      have full := table.seated p hp a here j hj (by rwa [Passes, at_])
      obtain ⟨b, there⟩ := Option.ne_none_iff_exists'.mp full
      refine ⟨b, there, ?_⟩
      cases passed : test b with
      | false => rfl
      | true =>
        have later : (j, b) ∈ (p, a) :: rest :=
          chain ▸ List.mem_filter.mpr ⟨(table.slots j b).mp there, passed⟩
        rcases List.mem_cons.mp later with same | later
        · cases same
          exact absurd early (Nat.lt_irrefl _)
        · have bound := ordered.1 (j, b) later (at_.trans (homed j b ((table.slots j b).mp there) passed).symm)
          simp only [at_] at bound
          omega
    rw [found]
    simp [here, accepted]

end Placed

section Links

variable {next next' : Nat → Option Nat}

/-- Each position links to the following one, and the last one to none. -/
def Linked (next : Nat → Option Nat) : List Nat → Prop
  | [] => True
  | [p] => next p = none
  | p :: q :: rest => next p = some q ∧ Linked next (q :: rest)

theorem Linked.congr {ps : List Nat} (linked : Linked next ps)
    (same : ∀ p ∈ ps, next' p = next p) : Linked next' ps := by
  induction ps with
  | nil => trivial
  | cons p ps ih =>
    have here := same p List.mem_cons_self
    cases ps with
    | nil => exact here.trans linked
    | cons q rest =>
      exact ⟨here.trans linked.1, ih linked.2 fun r member => same r (List.mem_cons_of_mem p member)⟩

theorem Linked.suffix {ps qs : List Nat} (linked : Linked next (ps ++ qs)) : Linked next qs := by
  induction ps with
  | nil => exact linked
  | cons p ps ih =>
    cases rest : ps ++ qs with
    | nil =>
      rw [(List.append_eq_nil_iff.mp rest).2]
      trivial
    | cons q tail =>
      rw [List.cons_append, rest] at linked
      exact ih (rest ▸ linked.2)

/-- A new last position. -/
theorem Linked.snoc {ps : List Nat} {l q : Nat} (linked : Linked next (ps ++ [l]))
    (joins : next' l = some q) (ends : next' q = none) (same : ∀ p ∈ ps, next' p = next p) :
    Linked next' (ps ++ [l, q]) := by
  induction ps with
  | nil => exact ⟨joins, ends⟩
  | cons p ps ih =>
    have here := same p List.mem_cons_self
    have rest := fun r member => same r (List.mem_cons_of_mem p member)
    cases ps with
    | nil => exact ⟨here.trans linked.1, ih linked.2 rest⟩
    | cons r ps => exact ⟨here.trans linked.1, ih linked.2 rest⟩

theorem Linked.last {ps : List Nat} (linked : Linked next ps) {l : Nat} (last : l ∈ ps.getLast?) :
    next l = none := by
  induction ps with
  | nil => cases last
  | cons p ps ih =>
    cases ps with
    | nil =>
      cases last
      exact linked
    | cons q rest => exact ih linked.2 (by rwa [List.getLast?_cons_cons] at last)

/-- The loop to the end of a chain. -/
def follow (next : Nat → Option Nat) : Nat → Nat → Option Nat
  | 0, _ => none
  | fuel + 1, p =>
    match next p with
    | none => some p
    | some q => follow next fuel q

theorem Linked.follow {ps : List Nat} {l : Nat} (linked : Linked next (ps ++ [l])) (fuel : Nat)
    (enough : ps.length < fuel) {p : Nat} (starts : (ps ++ [l]).head? = some p) :
    Probing.follow next fuel p = some l := by
  induction ps generalizing fuel p with
  | nil =>
    cases starts
    cases fuel with
    | zero => simp at enough
    | succ fuel =>
      have ends : next l = none := linked
      simp only [Probing.follow, ends]
  | cons r ps ih =>
    cases starts
    cases fuel with
    | zero => simp at enough
    | succ fuel =>
      have short : ps.length < fuel := by simpa using enough
      cases ps with
      | nil =>
        simp only [Probing.follow, linked.1]
        exact ih linked.2 fuel short rfl
      | cons q ps =>
        simp only [Probing.follow, linked.1]
        exact ih linked.2 fuel short rfl

/-- The positions of a chain from one on. -/
def trail (next : Nat → Option Nat) : Nat → Nat → List Nat
  | 0, _ => []
  | fuel + 1, p =>
    p :: match next p with
      | none => []
      | some q => trail next fuel q

theorem Linked.trail {ps : List Nat} {p : Nat} (linked : Linked next (p :: ps)) (fuel : Nat)
    (enough : ps.length < fuel) : Probing.trail next fuel p = p :: ps := by
  induction ps generalizing fuel p with
  | nil =>
    cases fuel with
    | zero => simp at enough
    | succ fuel =>
      have ends : next p = none := linked
      simp only [Probing.trail, ends]
  | cons q ps ih =>
    cases fuel with
    | zero => simp at enough
    | succ fuel =>
      simp only [Probing.trail, linked.1]
      rw [ih linked.2 fuel (by simpa using enough)]

end Links

end Probing
