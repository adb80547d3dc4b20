import Mathlib.Data.List.Basic
import Mathlib.Data.List.Nodup
import Mathlib.Logic.Function.Basic

/-! Finite maps with the order in which their keys came, and their two lists of keys and
values. -/

/-- A map, and its keys in the order of their insertion. -/
structure OrderedMap (κ β : Type) where
  map : κ → Option β
  order : List κ

namespace OrderedMap

variable {κ β : Type} {m : OrderedMap κ β} {ks : List κ} {vs : List β} {key : κ} {i : Nat}

def values (m : OrderedMap κ β) : List β := m.order.filterMap m.map

def pairs (m : OrderedMap κ β) : List (κ × β) :=
  m.order.filterMap fun key => (m.map key).map (key, ·)

section Operations

variable [DecidableEq κ]

/-- A key that is there keeps its place. -/
def put (m : OrderedMap κ β) (key : κ) (value : β) : OrderedMap κ β where
  map := Function.update m.map key (some value)
  order := if (m.map key).isSome then m.order else m.order ++ [key]

def remove (m : OrderedMap κ β) (key : κ) : OrderedMap κ β where
  map := Function.update m.map key none
  order := m.order.erase key

theorem map_put (key : κ) (value : β) :
    (m.put key value).map = Function.update m.map key (some value) := rfl

theorem map_remove (key : κ) : (m.remove key).map = Function.update m.map key none := rfl

end Operations

/-- The keys and the values stand in two lists, at the same places. -/
structure Listed (m : OrderedMap κ β) (ks : List κ) (vs : List β) : Prop where
  order : m.order = ks
  once : ks.Nodup
  length : ks.length = vs.length
  there : ∀ (i : Nat) key, ks[i]? = some key → m.map key = vs[i]?
  absent : ∀ key, key ∉ ks → m.map key = none

theorem listed_empty : Listed (⟨fun _ => none, []⟩ : OrderedMap κ β) [] [] :=
  ⟨rfl, List.nodup_nil, rfl, fun _ _ here => (nomatch here), fun _ _ => rfl⟩

theorem Listed.isSome (listed : Listed m ks vs) : (m.map key).isSome ↔ key ∈ ks := by
  constructor
  · intro there
    by_contra missing
    rw [listed.absent key missing] at there
    cases there
  · intro mem
    obtain ⟨i, here⟩ := List.mem_iff_getElem?.mp mem
    obtain ⟨inside, _⟩ := List.getElem?_eq_some_iff.mp here
    rw [listed.there i key here, List.getElem?_eq_getElem (listed.length ▸ inside)]
    rfl

section Operations

variable [DecidableEq κ]

theorem Listed.put_new (listed : Listed m ks vs) (missing : key ∉ ks) (value : β) :
    Listed (m.put key value) (ks ++ [key]) (vs ++ [value]) := by
  have length := listed.length
  refine ⟨?_, ?_, ?_, ?_, ?_⟩
  · rw [put, if_neg (fun there => missing (listed.isSome.mp there)), listed.order]
  · exact List.nodup_append.mpr ⟨listed.once, List.nodup_singleton _, by
      rintro a mem b one rfl
      exact missing (List.mem_singleton.mp one ▸ mem)⟩
  · rw [List.length_append, List.length_append, length, List.length_singleton,
      List.length_singleton]
  · intro i k here
    rcases Nat.lt_or_ge i ks.length with inside | behind
    · rw [List.getElem?_append_left inside] at here
      have other : k ≠ key := by
        rintro rfl
        exact missing (List.mem_of_getElem? here)
      rw [map_put, Function.update_of_ne other, listed.there i k here,
        List.getElem?_append_left (by omega)]
    · rw [List.getElem?_append_right behind] at here
      have last : i - ks.length = 0 := by
        obtain ⟨below, _⟩ := List.getElem?_eq_some_iff.mp here
        rw [List.length_singleton] at below
        omega
      rw [last] at here
      cases here
      rw [map_put, Function.update_self, List.getElem?_append_right (by omega),
        show i - vs.length = 0 by omega]
      rfl
  · intro k missing'
    rw [List.mem_append, List.mem_singleton] at missing'
    rw [map_put, Function.update_of_ne fun same => missing' (.inr same)]
    exact listed.absent k fun mem => missing' (.inl mem)

omit [DecidableEq κ] in
theorem Listed.unique (listed : Listed m ks vs) {j : Nat} (here : ks[i]? = some key)
    (there : ks[j]? = some key) : i = j := by
  obtain ⟨inside, first⟩ := List.getElem?_eq_some_iff.mp here
  obtain ⟨within, second⟩ := List.getElem?_eq_some_iff.mp there
  exact (listed.once.getElem_inj_iff).mp (first.trans second.symm)

theorem Listed.put_old (listed : Listed m ks vs) (here : ks[i]? = some key) (value : β) :
    Listed (m.put key value) ks (vs.set i value) := by
  have mem := List.mem_of_getElem? here
  obtain ⟨inside, _⟩ := List.getElem?_eq_some_iff.mp here
  refine ⟨?_, listed.once, ?_, ?_, ?_⟩
  · rw [put, if_pos (listed.isSome.mpr mem)]
    exact listed.order
  · rw [List.length_set]
    exact listed.length
  · intro j k there
    rw [map_put, List.getElem?_set]
    split
    · next same =>
      subst same
      cases here.symm.trans there
      rw [Function.update_self, if_pos (listed.length ▸ inside)]
    · next off =>
      have other : k ≠ key := by
        rintro rfl
        exact off (listed.unique here there)
      rw [Function.update_of_ne other]
      exact listed.there j k there
  · intro k missing
    have other : k ≠ key := by
      rintro rfl
      exact missing mem
    rw [map_put, Function.update_of_ne other]
    exact listed.absent k missing

theorem Listed.erase (listed : Listed m ks vs) (here : ks[i]? = some key) :
    ks.erase key = ks.eraseIdx i := by
  obtain ⟨inside, rfl⟩ := List.getElem?_eq_some_iff.mp here
  rw [← List.eraseIdx_idxOf_eq_erase, listed.once.idxOf_getElem i inside]

theorem Listed.remove (listed : Listed m ks vs) (here : ks[i]? = some key) :
    Listed (m.remove key) (ks.eraseIdx i) (vs.eraseIdx i) := by
  obtain ⟨inside, _⟩ := List.getElem?_eq_some_iff.mp here
  have length := listed.length
  have erased := listed.erase here
  refine ⟨?_, listed.once.eraseIdx i, ?_, ?_, ?_⟩
  · rw [OrderedMap.remove, listed.order, erased]
  · rw [List.length_eraseIdx_of_lt inside, List.length_eraseIdx_of_lt (by omega), length]
  · intro j k there
    rw [List.getElem?_eraseIdx] at there ⊢
    have other {p : Nat} (off : p ≠ i) (there : ks[p]? = some k) : k ≠ key := by
      rintro rfl
      exact off (listed.unique there here)
    split at there
    · next before =>
      rw [map_remove, Function.update_of_ne (other (by omega) there), if_pos before]
      exact listed.there j k there
    · next behind =>
      rw [map_remove, Function.update_of_ne (other (by omega) there), if_neg behind]
      exact listed.there (j + 1) k there
  · intro k missing
    rw [map_remove]
    rcases Decidable.em (k = key) with rfl | other
    · exact Function.update_self _ _ _
    · rw [← erased, listed.once.mem_erase_iff] at missing
      rw [Function.update_of_ne other]
      exact listed.absent k fun mem => missing ⟨other, mem⟩

theorem Listed.remove_absent (listed : Listed m ks vs) (missing : key ∉ ks) :
    m.remove key = m := by
  have same : Function.update m.map key none = m.map :=
    Function.update_eq_self_iff.mpr (listed.absent key missing).symm
  rw [OrderedMap.remove, same, listed.order, List.erase_of_not_mem missing, ← listed.order]

end Operations

theorem Listed.pairs (listed : Listed m ks vs) : m.pairs = ks.zip vs := by
  have length := listed.length
  have each : ks.map (fun key => (m.map key).map (key, ·)) = (ks.zip vs).map some := by
    apply List.ext_getElem?
    intro i
    rw [List.getElem?_map, List.getElem?_map]
    cases here : ks[i]? with
    | none =>
      rw [List.getElem?_eq_none_iff] at here
      rw [List.getElem?_eq_none (by rw [List.length_zip]; omega)]
      rfl
    | some key =>
      obtain ⟨inside, rfl⟩ := List.getElem?_eq_some_iff.mp here
      have value := List.getElem?_eq_getElem (l := vs) (i := i) (by omega)
      rw [Option.map_some, listed.there i _ here, value,
        List.getElem?_eq_getElem (by rw [List.length_zip]; omega), List.getElem_zip]
      rfl
  rw [OrderedMap.pairs, listed.order]
  have joined := congrArg (List.filterMap id) each
  rw [List.filterMap_map, List.filterMap_map] at joined
  exact joined.trans List.filterMap_some

theorem Listed.values (listed : Listed m ks vs) : m.values = vs := by
  have paired := congrArg (List.map Prod.snd) listed.pairs
  rw [List.map_snd_zip (Nat.le_of_eq listed.length.symm)] at paired
  rw [← paired, OrderedMap.pairs, OrderedMap.values, List.map_filterMap]
  congr 1
  funext key
  cases m.map key <;> rfl

end OrderedMap
