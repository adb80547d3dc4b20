import SlateVm.Collections.Dictionary
import SlateVm.Collections.Keyed

/-! Runs of `Dictionary` operations beside the finite map they build. -/
namespace SlateVm.Collections

open Probing Slots Refinement

section Maps

variable {κ γ : Type} {h : Hashing κ} {es rest : List (κ × γ)} {m : κ → Option γ}

/-- The pairs list the map `m`, each key once. -/
structure Lists (h : Hashing κ) (m : κ → Option γ) (es : List (κ × γ)) : Prop where
  distinct : Distinct h (es.map Prod.fst)
  content : ∀ k v, m k = some v ↔ ∃ b, (b, v) ∈ es ∧ h.equals b k = true

def put (h : Hashing κ) (m : κ → Option γ) (key : κ) (obj : γ) : κ → Option γ :=
  fun k => if h.equals key k then some obj else m k

def erase (h : Hashing κ) (m : κ → Option γ) (key : κ) : κ → Option γ :=
  fun k => if h.equals key k then none else m k

theorem Lists.perm (lists : Lists h m es) (perm : es.Perm rest) : Lists h m rest := by
  constructor
  · exact lists.distinct.perm (perm.map _)
  · intro k v
    rw [lists.content]
    simp only [perm.mem_iff]

theorem Lists.unique {m' : κ → Option γ} (lists : Lists h m es) (lists' : Lists h m' es) :
    m = m' := by
  funext k
  apply Option.ext
  intro v
  rw [lists.content, lists'.content]

theorem Lists.present {k : κ} (lists : Lists h m es) :
    (m k).isSome = true ↔ ∃ b ∈ es.map Prod.fst, h.equals b k = true := by
  rw [Option.isSome_iff_exists]
  constructor
  · rintro ⟨v, here⟩
    obtain ⟨b, member, equal⟩ := (lists.content k v).mp here
    exact ⟨b, List.mem_map.mpr ⟨(b, v), member, rfl⟩, equal⟩
  · rintro ⟨b, member, equal⟩
    obtain ⟨⟨b, v⟩, pair, rfl⟩ := List.mem_map.mp member
    exact ⟨v, (lists.content k v).mpr ⟨b, pair, equal⟩⟩

theorem Lists.others {b : κ} {v : γ} (lists : Lists h m ((b, v) :: rest)) (k : κ) (w : γ) :
    (∃ c, (c, w) ∈ rest ∧ h.equals c k = true) ↔ h.equals b k = false ∧ m k = some w := by
  have apart := (List.pairwise_cons.mp lists.distinct).1
  have off : ∀ c w, (c, w) ∈ rest → h.equals c k = true → h.equals b k = false := by
    intro c w member equal
    cases clash : h.equals b k with
    | false => rfl
    | true =>
      have twice := h.trans b k c clash (h.symm c k equal)
      rw [apart c (List.mem_map.mpr ⟨(c, w), member, rfl⟩)] at twice
      cases twice
  constructor
  · rintro ⟨c, member, equal⟩
    exact ⟨off c w member equal, (lists.content k w).mpr ⟨c, List.mem_cons_of_mem _ member, equal⟩⟩
  · rintro ⟨other, here⟩
    obtain ⟨c, member, equal⟩ := (lists.content k w).mp here
    rcases List.mem_cons.mp member with first | later
    · cases first
      rw [equal] at other
      cases other
    · exact ⟨c, later, equal⟩

theorem Lists.erase {b k : κ} {v : γ} (lists : Lists h m ((b, v) :: rest))
    (equal : h.equals b k = true) : Lists h (erase h m k) rest := by
  constructor
  · exact (List.pairwise_cons.mp lists.distinct).2
  · intro x w
    rw [lists.others]
    have both : h.equals k x = h.equals b x := by
      apply Bool.eq_iff_iff.mpr
      constructor
      · exact h.trans b k x equal
      · exact h.trans k b x (h.symm b k equal)
    unfold Collections.erase
    rw [both]
    cases h.equals b x <;> simp

theorem Lists.replace {b k : κ} {v w : γ} (lists : Lists h m ((b, v) :: rest))
    (equal : h.equals b k = true) : Lists h (put h m k w) ((b, w) :: rest) := by
  constructor
  · exact lists.distinct
  · intro x u
    have erased := (lists.erase equal).content x u
    have both : h.equals k x = h.equals b x := by
      apply Bool.eq_iff_iff.mpr
      constructor
      · exact h.trans b k x equal
      · exact h.trans k b x (h.symm b k equal)
    simp only [Collections.erase, both] at erased
    simp only [put, both, List.mem_cons, Prod.mk.injEq]
    cases here : h.equals b x with
    | true =>
      rw [here] at erased
      simp only [if_true, reduceCtorEq, false_iff, not_exists, not_and] at erased
      simp only [if_true, Option.some.injEq]
      constructor
      · rintro rfl
        exact ⟨b, Or.inl ⟨rfl, rfl⟩, here⟩
      · rintro ⟨c, ⟨_, rfl⟩ | member, same⟩
        · rfl
        · exact absurd same (erased c member)
    | false =>
      rw [here] at erased
      simp only [Bool.false_eq_true, if_false] at erased ⊢
      rw [erased]
      constructor
      · rintro ⟨c, member, same⟩
        exact ⟨c, Or.inr member, same⟩
      · rintro ⟨c, ⟨rfl, _⟩ | member, same⟩
        · rw [here] at same
          cases same
        · exact ⟨c, member, same⟩

theorem Lists.insert {k : κ} {w : γ} (lists : Lists h m es) (fresh : m k = none) :
    Lists h (put h m k w) ((k, w) :: es) := by
  have apart : ∀ b ∈ es.map Prod.fst, h.equals k b = false := by
    intro b member
    cases equal : h.equals k b with
    | false => rfl
    | true =>
      have some := lists.present.mpr ⟨b, member, h.symm k b equal⟩
      simp [fresh] at some
  constructor
  · exact List.pairwise_cons.mpr ⟨apart, lists.distinct⟩
  · intro x u
    simp only [put, List.mem_cons, Prod.mk.injEq]
    cases here : h.equals k x with
    | true =>
      simp only [if_true, Option.some.injEq]
      constructor
      · rintro rfl
        exact ⟨k, Or.inl ⟨rfl, rfl⟩, here⟩
      · rintro ⟨c, ⟨_, rfl⟩ | member, same⟩
        · rfl
        · have clash := h.trans k x c here (h.symm c x same)
          rw [apart c (List.mem_map.mpr ⟨(c, u), member, rfl⟩)] at clash
          cases clash
    | false =>
      simp only [Bool.false_eq_true, if_false]
      rw [lists.content]
      constructor
      · rintro ⟨c, member, same⟩
        exact ⟨c, Or.inr member, same⟩
      · rintro ⟨c, ⟨rfl, _⟩ | member, same⟩
        · rw [here] at same
          cases same
        · exact ⟨c, member, same⟩

end Maps

namespace Dictionary

variable {κ β : Type} {h : KeyHashing κ} {d : Dictionary κ β} {m : κ → Option (Option β)}

def pick (slot : Option κ × Option β) : Option (κ × Option β) := slot.1.map (·, slot.2)

def entries (d : Dictionary κ β) : List (κ × Option β) := (d.keys.zip d.values).filterMap pick

def Op.after (h : Hashing κ) (m : κ → Option (Option β)) : Op κ β → κ → Option (Option β)
  | .atPut (some key) obj => put h m key obj
  | .removeKey (some key) => erase h m key
  | _ => m

def lookUp (m : κ → Option (Option β)) (key : Option κ) : Option (Option β) := key.bind m

def Right (h : Hashing κ) (m : κ → Option (Option β)) : Op κ β → Answer κ β → Prop
  | .atPut none _, .nilKey => True
  | .atPut (some _) _, .done | .growBy _, .done => True
  | .removeKey key, .removed _ => (lookUp m key).isSome = true
  | .removeKey key, .block => lookUp m key = none
  | .at key, .value obj => lookUp m key = some obj
  | .at key, .block => lookUp m key = none
  | .includesKey key, .truth b => b = (lookUp m key).isSome
  | .keysAndValuesDo, .visited pairs => Lists h m pairs
  | _, _ => False

/-- What a reached `Dictionary` shows of its map. -/
structure Shows (h : Hashing κ) (d : Dictionary κ β) (m : κ → Option (Option β)) : Prop where
  lists : Lists h m d.visits
  tally : d.tally = d.visits.length

/-- No removal of an absent key, no removal that strands the key at index 0, and no
`includesKey:` where the index that the search finds is not a key itself, with the value Nil
when its slot is empty and another one when it is not. -/
def Spares (h : KeyHashing κ) (d : Dictionary κ β) : Op κ β → Prop
  | .includesKey key => ∃ index value, d.scanFor h key = some index ∧
      d.at? h (h.integer index) = some value ∧ value.isSome = (stored d.keys index).isSome
  | .removeKey key => ∃ index k, d.scanFor h key = some index ∧ stored d.keys index = some k ∧
      ¬ Strands d.keys.length (fun key => start (h.hash key) d.keys.length) (stored d.keys) index
  | _ => True

def implementation (h : KeyHashing κ) : Implementation (Dictionary κ β)
    (κ → Option (Option β)) (Op κ β) (Answer κ β) where
  start d m := ∃ n, d = new n ∧ m = fun _ => none
  perform := perform h
  next m op _ := op.after h.toHashing m
  right := Right h.toHashing

/-- The home of a key in an array of `n` keys. -/
def home (h : KeyHashing κ) (n : Nat) (key : κ) : Nat := start (h.hash key) n

/-- The arrays hold the map `m`. -/
structure Packed (h : KeyHashing κ) (d : Dictionary κ β) (m : κ → Option (Option β)) : Prop where
  keyed : Keyed h.toHashing (home h d.keys.length) d.keys fun k => (m k).isSome = true
  level : d.values.length = d.keys.length
  lists : Lists h.toHashing m d.entries

/-- The state between operations, a quarter of the array free. -/
structure Represents (h : KeyHashing κ) (d : Dictionary κ β) (m : κ → Option (Option β)) : Prop
    where
  packed : Packed h d m
  tally : d.tally = d.entries.length
  room : d.tally + max (d.keys.length / 4 : Nat) 1 ≤ d.keys.length

theorem homes {n : Nat} (positive : 0 < n) : Homes h.toHashing n (home h n) := by
  constructor
  · intro a
    have low := Int.emod_nonneg (h.hash a) (b := n) (by omega)
    have high := Int.emod_lt_of_pos (h.hash a) (b := n) (by omega)
    unfold home start
    omega
  · intro a b equal
    simp only [home, h.hash_eq a b equal]

theorem keys_of_entries {keys : List (Option κ)} {values : List (Option β)}
    (level : values.length = keys.length) :
    ((keys.zip values).filterMap pick).map Prod.fst = keys.filterMap id := by
  induction keys generalizing values with
  | nil => rfl
  | cons key keys ih =>
    cases values with
    | nil => simp at level
    | cons value values =>
      have rest := @ih values (by simpa using level)
      cases key with
      | none => simpa [pick, List.filterMap_cons] using rest
      | some key => simpa [pick, List.filterMap_cons] using rest

theorem Packed.keys (packed : Packed h d m) : d.entries.map Prod.fst = d.keys.filterMap id :=
  keys_of_entries packed.level

theorem Packed.count (packed : Packed h d m) :
    (d.keys.filterMap id).length = d.entries.length := by
  rw [← packed.keys, List.length_map]

theorem zip_set {σ τ : Type} (xs : List σ) (ys : List τ) (i : Nat) (x : σ) (y : τ) :
    (xs.set i x).zip (ys.set i y) = (xs.zip ys).set i (x, y) := by
  induction xs generalizing ys i with
  | nil => rfl
  | cons a xs ih =>
    cases ys with
    | nil => cases i <;> simp
    | cons b ys =>
      cases i with
      | zero => rfl
      | succ i => simp [ih]

theorem pair_at {i : Nat} (level : d.values.length = d.keys.length) (inside : i < d.keys.length) :
    (d.keys.zip d.values)[i]? = some (stored d.keys i, stored d.values i) := by
  have here := getElem?_of_lt inside
  have there : d.values[i]? = some (stored d.values i) := getElem?_of_lt (by omega)
  simp [List.getElem?_zip_eq_some, here, there]

theorem mem_entries (level : d.values.length = d.keys.length) {b : κ} {v : Option β} {i : Nat}
    (inside : i < d.keys.length) (key : stored d.keys i = some b)
    (value : stored d.values i = v) : (b, v) ∈ d.entries := by
  apply List.mem_filterMap.mpr
  exact ⟨_, List.mem_of_getElem? (pair_at level inside), by simp [pick, key, value]⟩

section Slots

variable {i : Nat} (level : d.values.length = d.keys.length) (inside : i < d.keys.length)
include level inside

theorem zip_lt : i < (d.keys.zip d.values).length := by
  simp only [List.length_zip]
  omega

theorem getElem_zip (within : i < (d.keys.zip d.values).length) :
    (d.keys.zip d.values)[i] = (stored d.keys i, stored d.values i) := by
  have here := pair_at level inside
  rw [List.getElem?_eq_getElem within] at here
  exact Option.some.inj here

theorem entries_fill (tally : Int) (empty : stored d.keys i = none) (k : κ) (v : Option β) :
    (entries ⟨tally, d.keys.set i (some k), d.values.set i v⟩).Perm ((k, v) :: d.entries) := by
  unfold entries
  rw [zip_set]
  apply picked_fill (zip_lt level inside)
  · simp [getElem_zip level inside, pick, empty]
  · rfl

theorem entries_update (tally : Int) {b : κ} (key : stored d.keys i = some b) (v : Option β) :
    ∃ rest, d.entries.Perm ((b, stored d.values i) :: rest) ∧
      (entries ⟨tally, d.keys, d.values.set i v⟩).Perm ((b, v) :: rest) := by
  refine ⟨((d.keys.zip d.values).eraseIdx i).filterMap pick, ?_, ?_⟩
  · have split := picked_split (f := pick) (zip_lt level inside)
    rw [getElem_zip level inside] at split
    simpa [entries, pick, key] using split
  · have update := picked_set (f := pick) (zip_lt level inside) (stored d.keys i, v)
    rw [← zip_set, stored_of_lt inside, List.set_getElem_self] at update
    rw [stored_of_lt inside] at key
    simpa [entries, pick, key] using update

theorem entries_clear (tally : Int) {b : κ} (key : stored d.keys i = some b) :
    d.entries.Perm ((b, stored d.values i) ::
      entries ⟨tally, d.keys.set i none, d.values.set i none⟩) := by
  unfold entries
  rw [zip_set]
  apply picked_clear (zip_lt level inside)
  · simp [getElem_zip level inside, pick, key]
  · rfl

end Slots

theorem entries_swap {i j : Nat} (level : d.values.length = d.keys.length)
    (hi : i < d.keys.length) (hj : j < d.keys.length) : (d.swap i j).entries.Perm d.entries := by
  unfold entries swap exchange
  rw [zip_set, zip_set, ← getElem_zip level hi (zip_lt level hi), ←
    getElem_zip level hj (zip_lt level hj)]
  exact (List.set_set_perm (zip_lt level hi) (zip_lt level hj)).filterMap pick

theorem scanFor_some (key : κ) :
    d.scanFor h (some key) = scan h.toHashing (home h d.keys.length) d.keys key := rfl

structure Extended (h : KeyHashing κ) (d' : Dictionary κ β) (m : κ → Option (Option β))
    (length : Nat) (es : List (κ × Option β)) : Prop where
  packed : Packed h d' m
  length : d'.keys.length = length
  pairs : d'.entries.Perm es

theorem Packed.store (packed : Packed h d m) {key : κ} {index : Nat} (fresh : m key = none)
    (found : scan h.toHashing (home h d.keys.length) d.keys key = some index)
    (empty : stored d.keys index = none) (obj : Option β) (tally : Int) :
    Extended h ⟨tally, d.keys.set index (some key), d.values.set index obj⟩
      (put h.toHashing m key obj) d.keys.length ((key, obj) :: d.entries) := by
  have facts := (search_eq_some (packed.keyed.homes.within key)).mp found
  have filled := entries_fill packed.level facts.1 tally empty key obj
  have stored_key := packed.keyed.store (by simp [fresh]) found empty
  constructor
  · constructor
    · have same : (fun k => (m k).isSome = true ∨ h.equals key k = true) =
          fun k => (put h.toHashing m key obj k).isSome = true := by
        funext k
        unfold put
        cases h.equals key k <;> simp
      simpa [same] using stored_key
    · simpa using packed.level
    · exact (packed.lists.insert fresh).perm filled.symm
  · simp
  · exact filled

theorem Packed.noCheckAt (packed : Packed h d m) {key : κ} (fresh : m key = none)
    (room : d.entries.length < d.keys.length) (obj : Option β) :
    ∃ d', d.noCheckAt h key obj = some d' ∧
      Extended h d' (put h.toHashing m key obj) d.keys.length ((key, obj) :: d.entries) := by
  obtain ⟨index, _, found, empty⟩ := packed.keyed.scan_absent key (by simp [fresh])
    (by rw [packed.count]; exact room)
  refine ⟨_, ?_, packed.store fresh found empty obj (d.tally + 1)⟩
  simp [Dictionary.noCheckAt, scanFor_some, found]

def putAll (h : Hashing κ) (m : κ → Option (Option β)) (es : List (κ × Option β)) :
    κ → Option (Option β) := es.foldl (fun m (key, obj) => put h m key obj) m

theorem Packed.addAll (packed : Packed h d m) (es : List (κ × Option β))
    (distinct : Distinct h.toHashing (es.map Prod.fst)) (fresh : ∀ e ∈ es, m e.1 = none)
    (room : d.entries.length + es.length < d.keys.length) :
    ∃ d', es.foldlM (fun d (key, value) => d.noCheckAt h key value) d = some d' ∧
      Extended h d' (putAll h.toHashing m es) d.keys.length (es ++ d.entries) := by
  induction es generalizing d m with
  | nil => exact ⟨d, rfl, packed, rfl, List.Perm.refl _⟩
  | cons e es ih =>
    obtain ⟨key, obj⟩ := e
    have apart := List.pairwise_cons.mp distinct
    simp only [List.length_cons] at room
    obtain ⟨d₁, first, one⟩ := packed.noCheckAt (fresh (key, obj) (List.mem_cons_self ..))
      (by omega) obj
    have others : ∀ e ∈ es, put h.toHashing m key obj e.1 = none := by
      intro e member
      simp only [put, apart.1 e.1 (List.mem_map_of_mem member)]
      exact fresh e (List.mem_cons_of_mem _ member)
    obtain ⟨d', run, done⟩ := ih one.packed apart.2 others (by
      rw [one.pairs.length_eq, one.length, List.length_cons]
      omega)
    refine ⟨d', by simpa [first] using run, done.packed, done.length.trans one.length, ?_⟩
    exact done.pairs.trans ((one.pairs.append_left es).trans List.perm_middle)

theorem entries_blank (n : Nat) :
    entries (⟨0, List.replicate n none, List.replicate n none⟩ : Dictionary κ β) = [] := by
  unfold entries
  rw [List.zip_replicate']
  simp [pick]

theorem packed_blank {n : Nat} (positive : 0 < n) :
    Packed h ⟨0, List.replicate n none, List.replicate n none⟩
      (fun _ => none : κ → Option (Option β)) := by
  constructor
  · simpa using keyed_empty (homes (h := h) positive)
  · simp
  · rw [entries_blank]
    exact ⟨List.Pairwise.nil, by simp⟩

theorem visits_eq (tally : d.tally = d.entries.length) :
    d.visits = d.entries := by
  unfold Dictionary.visits size
  split
  · apply Eq.symm
    apply List.eq_nil_of_length_eq_zero
    omega
  · rfl

theorem Packed.growBy (packed : Packed h d m) (tally : d.tally = d.entries.length) {n : Nat}
    (room : d.entries.length < d.keys.length + n) :
    ∃ d', d.growBy h n = some d' ∧ d'.tally = d.tally ∧
      Extended h d' m (d.keys.length + n) d.entries := by
  have positive : 0 < d.keys.length + n := by omega
  have wide : max (d.keys.length + n) 1 = d.keys.length + n := by omega
  have blank : new (d.keys.length + n) =
      (⟨0, List.replicate (d.keys.length + n) none, List.replicate (d.keys.length + n) none⟩ :
        Dictionary κ β) := by
    simp [new, wide]
  have nothing : entries (new (d.keys.length + n) : Dictionary κ β) = [] := by
    rw [blank]
    exact entries_blank _
  have start : Packed h (new (d.keys.length + n) : Dictionary κ β) fun _ => none := by
    rw [blank]
    exact packed_blank positive
  have length : (new (d.keys.length + n) : Dictionary κ β).keys.length = d.keys.length + n := by
    simp [blank]
  obtain ⟨d', run, done⟩ := start.addAll d.entries packed.lists.distinct (by simp)
    (by rw [nothing, length, List.length_nil]; omega)
  have pairs := done.pairs
  rw [nothing, List.append_nil] at pairs
  have same := (done.packed.lists.perm pairs).unique packed.lists
  rw [same] at done
  have wrapped : (⟨d.tally, d'.keys, d'.values⟩ : Dictionary κ β).entries = d'.entries := rfl
  refine ⟨⟨d.tally, d'.keys, d'.values⟩, ?_, rfl, ?_, done.length.trans length, wrapped ▸ pairs⟩
  · simp [Dictionary.growBy, visits_eq tally, run]
  · exact ⟨done.packed.keyed, done.packed.level, done.packed.lists⟩

theorem represents_new (n : Nat) :
    Represents h (new n : Dictionary κ β) fun _ => none := by
  have blank : new n =
      (⟨0, List.replicate (max n 1) none, List.replicate (max n 1) none⟩ : Dictionary κ β) := by
    simp only [new, List.length_replicate]
    congr 2
    omega
  rw [blank]
  constructor
  · exact packed_blank (by omega)
  · rw [entries_blank]
    rfl
  · simp only [List.length_replicate]
    omega

theorem Packed.fullCheck (packed : Packed h d m) (tally : d.tally = d.entries.length)
    (fits : d.entries.length ≤ d.keys.length) (positive : 0 < d.keys.length) :
    ∃ d', d.fullCheck h = some d' ∧ Represents h d' m := by
  unfold Dictionary.fullCheck
  split
  · obtain ⟨d', run, same, done⟩ := packed.growBy tally (n := d.growSize)
      (by simp only [growSize]; omega)
    have counted := done.pairs.length_eq
    refine ⟨d', run, done.packed, by omega, ?_⟩
    rw [done.length]
    simp only [growSize]
    omega
  · exact ⟨d, rfl, packed, tally, by omega⟩

namespace Represents

variable (r : Represents h d m)
include r

theorem positive : 0 < d.keys.length := by
  have room := r.room
  have counted := r.tally
  omega

theorem spare : (d.keys.filterMap id).length < d.keys.length := by
  have room := r.room
  have counted := r.tally
  rw [r.packed.count]
  omega

theorem found (key : κ) : ∃ i < d.keys.length, d.scanFor h (some key) = some i ∧
    ((stored d.keys i = none ∧ m key = none) ∨
      ∃ b, stored d.keys i = some b ∧ h.equals b key = true ∧
        m key = some (stored d.values i)) := by
  rw [scanFor_some]
  cases member : m key with
  | none =>
    obtain ⟨i, inside, found, here⟩ :=
      r.packed.keyed.scan_absent key (by simp [member]) r.spare
    exact ⟨i, inside, found, Or.inl ⟨here, rfl⟩⟩
  | some v =>
    obtain ⟨i, inside, b, found, here, equal⟩ :=
      r.packed.keyed.scan_present key (by simp [member])
    refine ⟨i, inside, found, Or.inr ⟨b, here, equal, ?_⟩⟩
    rw [← member, r.packed.lists.content]
    exact ⟨b, mem_entries r.packed.level inside here rfl, equal⟩

theorem found_nil : ∃ i < d.keys.length, d.scanFor h none = some i ∧ stored d.keys i = none := by
  obtain ⟨e, he, empty⟩ := exists_empty r.spare
  have low := Int.emod_nonneg h.nilHash (b := d.keys.length) (by have := r.positive; omega)
  have high := Int.emod_lt_of_pos h.nilHash (b := d.keys.length) (by have := r.positive; omega)
  have within : start h.nilHash d.keys.length ≤ d.keys.length := by
    unfold start
    omega
  obtain ⟨i, found⟩ := search_ends (fun _ => false) within he empty
  have facts := (search_eq_some within).mp found
  refine ⟨i, facts.1, found, ?_⟩
  cases here : stored d.keys i with
  | none => rfl
  | some b => simp [here] at facts

theorem at_eq (key : Option κ) : d.atIfAbsent h key = some (lookUp m key) := by
  cases key with
  | none =>
    obtain ⟨i, inside, found, empty⟩ := r.found_nil
    simp [atIfAbsent, found, getElem?_of_lt inside, empty, lookUp]
  | some key =>
    obtain ⟨i, inside, found, ⟨empty, missing⟩ | ⟨b, here, _, value⟩⟩ := r.found key
    · simp [atIfAbsent, found, getElem?_of_lt inside, empty, lookUp, missing]
    · have there : i < d.values.length := by
        rw [r.packed.level]
        exact inside
      simp [atIfAbsent, found, getElem?_of_lt inside, getElem?_of_lt there, here, lookUp, value]

theorem atPut (key : κ) (obj : Option β) :
    ∃ d', d.atPut h key obj = some d' ∧ Represents h d' (put h.toHashing m key obj) := by
  have room := r.room
  have counted := r.tally
  obtain ⟨i, inside, found, ⟨empty, missing⟩ | ⟨b, here, equal, value⟩⟩ := r.found key
  · have more := r.packed.store missing found empty obj (d.tally + 1)
    have pairs := more.pairs.length_eq
    have length := more.length
    rw [List.length_cons] at pairs
    obtain ⟨d', run, after⟩ := more.packed.fullCheck (by rw [pairs]; simp only; omega)
      (by rw [length]; omega) (by rw [length]; exact r.positive)
    exact ⟨d', by simpa [Dictionary.atPut, found, getElem?_of_lt inside, empty] using run, after⟩
  · obtain ⟨rest, before, behind⟩ :=
      entries_update r.packed.level inside d.tally here obj
    have lists := ((r.packed.lists.perm before).replace equal (w := obj)).perm behind.symm
    have same : (fun k => (m k).isSome = true) =
        fun k => (put h.toHashing m key obj k).isSome = true := by
      funext k
      unfold put
      split
      · have there := r.packed.lists.present.mpr
          ⟨b, List.mem_map.mpr ⟨_, mem_entries r.packed.level inside here rfl, rfl⟩,
            h.trans b key k equal (by assumption)⟩
        simp [there]
      · rfl
    have packed : Packed h ⟨d.tally, d.keys, d.values.set i obj⟩ (put h.toHashing m key obj) :=
      ⟨same ▸ r.packed.keyed, by simpa using r.packed.level, lists⟩
    have pairs := before.length_eq.trans behind.length_eq.symm
    obtain ⟨d', run, after⟩ := packed.fullCheck (by simp only; omega) (by simp only; omega)
      r.positive
    exact ⟨d', by simpa [Dictionary.atPut, found, getElem?_of_lt inside, here] using run, after⟩

theorem growBy (n : Nat) : ∃ d', d.growBy h n = some d' ∧ Represents h d' m := by
  have room := r.room
  have counted := r.tally
  obtain ⟨d', run, same, done⟩ := r.packed.growBy counted (n := n) (by omega)
  have pairs := done.pairs.length_eq
  refine ⟨d', run, done.packed, by omega, ?_⟩
  rw [done.length]
  omega

theorem shows : Shows h.toHashing d m := by
  constructor
  · rw [visits_eq r.tally]
    exact r.packed.lists
  · rw [visits_eq r.tally]
    exact r.tally

end Represents

theorem lawful {n : Nat} (positive : 0 < n) :
    (accessors h).Lawful n h.toHashing (home h n) (fun d : Dictionary κ β => stored d.keys)
      fun d => d.keys.length = n ∧ d.values.length = n := by
  constructor
  · exact (homes positive).within
  · intro d fits
    exact fits.1
  · intro d i fits inside
    exact getElem?_of_lt (by omega)
  · intro d a fits
    obtain ⟨rfl, _⟩ := fits
    exact scanFor_some a
  · intro d i j fits _ _
    simp [accessors, swap, fits]
  · intro d i j q fits hi hj
    exact stored_exchange (by omega) (by omega) q

def Kept (es : List (κ × Option β)) (tally : Int) (d : Dictionary κ β) : Prop :=
  d.entries.Perm es ∧ d.tally = tally

theorem Represents.removeKey (r : Represents h d m) {key : Option κ}
    (spares : Spares h d (.removeKey key)) :
    ∃ d' object k, key = some k ∧ (m k).isSome = true ∧
      d.removeKey h key = some (d', some object) ∧
      Represents h d' (erase h.toHashing m k) ∧ d'.tally = d.tally - 1 := by
  obtain ⟨index, b, scanned, here, safe⟩ := spares
  cases key with
  | none =>
    obtain ⟨i, _, found, empty⟩ := r.found_nil
    cases found.symm.trans scanned
    cases empty.symm.trans here
  | some k =>
    obtain ⟨i, inside, found, ⟨empty, _⟩ | ⟨b', there, equal, value⟩⟩ := r.found k
    · cases found.symm.trans scanned
      cases empty.symm.trans here
    · cases found.symm.trans scanned
      cases there.symm.trans here
      let cleared : Dictionary κ β :=
        ⟨d.tally - 1, d.keys.set index none, d.values.set index none⟩
      have taken := entries_clear r.packed.level inside (d.tally - 1) here
      have length : cleared.keys.length = d.keys.length := by simp [cleared]
      have emptied : Emptied d.keys.length (stored d.keys) (stored cleared.keys) index := by
        constructor
        · exact inside
        · simp [cleared, stored_set inside]
        · intro j off
          simp [cleared, stored_set inside, off]
      obtain ⟨e, he, empty⟩ := exists_empty r.spare
      have other : e ≠ index := fun clash => by simp [clash, here] at empty
      obtain ⟨d', run, closed⟩ := fix_removed (Kept cleared.entries cleared.tally)
        (lawful r.positive) (t := cleared)
        (fun t i j fits kept hi hj =>
          ⟨(entries_swap (by omega) (by omega) (by omega)).trans kept.1, kept.2⟩)
        ⟨length, by simpa [cleared] using r.packed.level⟩ ⟨List.Perm.refl _, rfl⟩
        r.packed.keyed.seated r.packed.keyed.lone emptied he other empty safe
      obtain ⟨pairs, tally⟩ := closed.kept
      have fits := closed.fits
      have all := taken.trans (List.Perm.cons _ pairs.symm)
      have lists := (r.packed.lists.perm all).erase equal
      have counted := all.length_eq
      have before := r.tally
      have room := r.room
      rw [List.length_cons] at counted
      refine ⟨d', some b, k, rfl, by simp [value], ?_, ⟨⟨⟨?_, ?_, ?_, ?_⟩, ?_, lists⟩, ?_, ?_⟩,
        tally⟩
      · have walk : fixCollisionsFrom h
            ⟨d.tally - 1, d.keys.set index none, d.values.set index none⟩ index = some d' := by
          unfold fixCollisionsFrom
          simpa using run
        simp [Dictionary.removeKey, scanned, getElem?_of_lt inside, here, walk]
      · rw [fits.1]
        exact homes r.positive
      · rw [fits.1]
        exact closed.seated
      · rw [fits.1]
        exact closed.lone
      · intro a
        rw [lists.present, ← keys_of_entries (fits.2.trans fits.1.symm)]
        rfl
      · exact fits.2.trans fits.1.symm
      · rw [tally]
        simp only [cleared]
        omega
      · rw [tally, fits.1]
        simp only [cleared]
        omega

theorem Represents.at? (r : Represents h d m) (key : κ) : d.at? h key = m key := by
  rw [Dictionary.at?, r.at_eq]
  rfl

theorem Represents.present (r : Represents h d m) {key : Option κ} {index : Nat}
    (scanned : d.scanFor h key = some index) :
    (stored d.keys index).isSome = (lookUp m key).isSome := by
  cases key with
  | none =>
    obtain ⟨i, _, found, empty⟩ := r.found_nil
    cases found.symm.trans scanned
    rw [empty]
    rfl
  | some key =>
    obtain ⟨i, _, found, ⟨empty, missing⟩ | ⟨b, here, _, value⟩⟩ := r.found key
    · cases found.symm.trans scanned
      rw [empty, lookUp, Option.bind_some, missing]
      rfl
    · cases found.symm.trans scanned
      rw [here, lookUp, Option.bind_some, value]
      rfl

theorem Represents.step (r : Represents h d m) (op : Op κ β) (spares : Spares h d op) :
    Step (implementation h) (Represents h) d m op := by
  cases op with
  | atPut key obj =>
    cases key with
    | none => exact ⟨d, .nilKey, rfl, trivial, r⟩
    | some key =>
      obtain ⟨d', run, after⟩ := r.atPut key obj
      exact ⟨d', .done, by simp [implementation, perform, run], trivial, after⟩
  | removeKey key =>
    obtain ⟨d', object, k, rfl, present, run, after, _⟩ := r.removeKey spares
    exact ⟨d', .removed object, by simp [implementation, perform, run], present, after⟩
  | «at» key =>
    have run := r.at_eq key
    cases found : lookUp m key with
    | none => exact ⟨d, .block, by simp [implementation, perform, run, found], found, r⟩
    | some obj => exact ⟨d, .value obj, by simp [implementation, perform, run, found], found, r⟩
  | includesKey key =>
    obtain ⟨index, value, scanned, found, agrees⟩ := spares
    have answer : d.includesKey h key = some (lookUp m key).isSome := by
      simp only [includesKey, scanned, found, agrees, r.present scanned, Option.bind_eq_bind,
        Option.bind_some]
    exact ⟨d, .truth (lookUp m key).isSome, by simp [implementation, perform, answer], rfl, r⟩
  | keysAndValuesDo => exact ⟨d, .visited d.visits, rfl, r.shows.lists, r⟩
  | growBy n =>
    obtain ⟨d', run, after⟩ := r.growBy n
    exact ⟨d', .done, by simp [implementation, perform, run], trivial, after⟩

/-- A `Dictionary` is the finite map that its operations build, as long as no `includesKey:`
meets an index that misleads it and no removal is of an absent key or strands the key at index
0. -/
theorem dictionary_refines (h : KeyHashing κ) (β : Type) :
    Refines (implementation (β := β) h) (Spares h) (Shows h.toHashing) := by
  apply Refines.of_steps (Represents h)
  · rintro d m ⟨n, rfl, rfl⟩
    exact represents_new n
  · intro d m op r spares
    exact r.step op spares
  · intro d m r
    exact r.shows

/-- Removing the absent key 3 from an empty dictionary answers Nil without running the block
and leaves the tally at -1. -/
theorem absent_removal_counted : ¬ ∀ (κ β : Type) (h : KeyHashing κ),
    Refines (implementation (β := β) h) (fun _ _ => True) (Shows h.toHashing) := by
  intro refines
  apply Refines.not_of_state (i := implementation (β := Nat) ⟨numbers, 0, id⟩) (s := new 10)
    (m := fun _ => none) ⟨10, rfl, rfl⟩ [.removeKey (some 3)]
    (fun d _ => d.tally == d.visits.length) (by decide +kernel) _ (refines Nat Nat ⟨numbers, 0, id⟩)
  intro d m shows
  exact beq_iff_eq.mpr shows.tally

end Dictionary

end SlateVm.Collections
