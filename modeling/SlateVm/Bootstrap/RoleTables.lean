import SlateVm.Bootstrap.SlotTables

/-! The role table as it is filled: entries of one name are linked in the order they came. -/
namespace SlateVm.Bootstrap
open Probing

variable {gen gen' : Generator} {capacity : Nat} {elements : List Value}

structure RoleRecord where
  selector : Nat
  rolePositions : Nat
  definition : Nat

def chain (placed : List (Nat × RoleRecord)) (selector : Nat) : List Nat :=
  (placed.filter fun x => x.2.selector == selector).map Prod.fst

structure RoleLayout (gen : Generator) (capacity : Nat) (elements : List Value)
    (slot : Nat → Option RoleRecord) (next : Nat → Option Nat) (placed : List (Nat × RoleRecord))
    (done : List RoleEntry) : Prop where
  keyed : Keyed 4 capacity elements slot RoleRecord.selector
  words : ∀ i < capacity, ∀ a, slot i = some a →
    elements[i * 4 + 1]? = some (.small a.rolePositions) ∧
      elements[i * 4 + 2]? = some (.chunk a.definition)
  links : ∀ i < capacity, elements[i * 4 + 3]? = some ((next i).elim .nil fun q => .small (q : Nat))
  bounded : ∀ i q, next i = some q → q < capacity
  blank : ∀ i, slot i = none → next i = none
  table : Placed capacity (fun a => home gen capacity a.selector) slot placed
  linked : ∀ selector, Linked next (chain placed selector)
  entries : List.Forall₂ (fun (x : Nat × RoleRecord) (re : RoleEntry) =>
    gen.symbols.lookup re.name = some x.2.selector ∧ x.2.rolePositions = re.rolePositions ∧
      gen.translations.lookup (.definition re.methodDefinition) = some x.2.definition) placed done

theorem roleLayout_nil (gen : Generator) (capacity : Nat) :
    RoleLayout gen capacity (List.replicate (4 * capacity) .nil) (fun _ => none) (fun _ => none)
      [] [] := by
  constructor
  · constructor
    · rw [List.length_replicate, Nat.mul_comm]
    · intro i hi
      exact List.getElem?_replicate_of_lt (by omega)
  · intro i _ a here
    cases here
  · intro i hi
    exact List.getElem?_replicate_of_lt (by omega)
  · intro i q here
    cases here
  · exact fun _ _ => rfl
  · exact placed_nil
  · exact fun _ => trivial
  · exact .nil

theorem lastRole_follow {next : Nat → Option Nat}
    (links : ∀ i < capacity,
      elements[i * 4 + 3]? = some ((next i).elim .nil fun q => .small (q : Nat)))
    (bounded : ∀ i q, next i = some q → q < capacity) (fuel p : Nat) (within : p < capacity) :
    lastRole elements fuel (p * 4) = (follow next fuel p).map (· * 4) := by
  induction fuel generalizing p with
  | zero => rfl
  | succ fuel ih =>
    have link := links p within
    unfold lastRole follow
    cases here : next p with
    | none =>
      rw [here] at link
      simp only [link, Option.elim_none]
      rfl
    | some q =>
      rw [here] at link
      simp only [link, Option.elim_some]
      exact ih q (bounded p q here)

theorem chain_append (placed : List (Nat × RoleRecord)) (q : Nat) (a : RoleRecord) (c : Nat) :
    chain (placed ++ [(q, a)]) c = chain placed c ++ if a.selector = c then [q] else [] := by
  unfold chain
  rw [List.filter_append, List.map_append]
  rcases Decidable.em (a.selector = c) with same | off
  · simp [same]
  · simp [off]

namespace RoleLayout

variable {slot : Nat → Option RoleRecord} {next : Nat → Option Nat}
  {placed : List (Nat × RoleRecord)} {done : List RoleEntry}

theorem grow (layout : RoleLayout gen capacity elements slot next placed done)
    (grows : Grows gen gen') : RoleLayout gen' capacity elements slot next placed done := by
  constructor
  · exact layout.keyed
  · exact layout.words
  · exact layout.links
  · exact layout.bounded
  · exact layout.blank
  · apply layout.table.rehome
    intro p a member
    obtain ⟨re, -, named, -⟩ := forall₂_left layout.entries member
    exact grows.home (gen.interned.within re.name a.selector named)
  · exact layout.linked
  · exact layout.entries.imp fun x re same =>
      ⟨grows.symbols _ _ same.1, same.2.1, grows.translations _ _ same.2.2⟩

theorem mem_chain {p c : Nat} :
    p ∈ chain placed c ↔ ∃ a, (p, a) ∈ placed ∧ a.selector = c := by
  simp [chain]

theorem probe_head (layout : RoleLayout gen capacity elements slot next placed done)
    (positive : 0 < capacity) {p selector : Nat} (hp : p < capacity)
    (stops : slot p = none ∨ ∃ a, slot p = some a ∧ a.selector = selector)
    (before : ∀ j < capacity,
      after capacity (home gen capacity selector) j < after capacity (home gen capacity selector) p →
      ∃ b, slot j = some b ∧ b.selector ≠ selector) :
    (slot p = none → chain placed selector = []) ∧
      ∀ a, slot p = some a → (chain placed selector).head? = some p := by
  let test : RoleRecord → Bool := fun a => a.selector == selector
  have within := Nat.le_of_lt (home_lt gen positive selector)
  have homed : ∀ p a, (p, a) ∈ placed → test a = true →
      home gen capacity a.selector = home gen capacity selector := by
    intro _ a _ same
    rw [beq_iff_eq.mp same]
  have found : search capacity slot test (home gen capacity selector) = some p := by
    rw [search_eq_some within]
    refine ⟨hp, ?_, fun j hj early => ?_⟩
    · rcases stops with empty | ⟨a, here, same⟩
      · rw [empty]
        rfl
      · simp [here, test, same]
    · obtain ⟨b, there, off⟩ := before j hj early
      exact ⟨b, there, beq_false_of_ne off⟩
  have head := layout.table.search within homed
  rw [found, ← List.head?_map, Option.filter_some] at head
  change _ = (chain placed selector).head? at head
  constructor
  · intro empty
    rw [empty] at head
    exact List.head?_eq_none_iff.mp head.symm
  · intro a here
    rcases stops with empty | ⟨b, there, same⟩
    · rw [empty] at here
      cases here
    · rw [here] at there
      cases there
      simpa [here, test, same] using head.symm

theorem linked_other (layout : RoleLayout gen capacity elements slot next placed done) (c : Nat)
    {next' : Nat → Option Nat} {l : Nat} (away : l ∉ chain placed c)
    (same : ∀ i, i ≠ l → next' i = next i) : Linked next' (chain placed c) := by
  apply (layout.linked c).congr
  intro p member
  apply same
  rintro rfl
  exact away member

/-- The links once `q` is the last position of its chain. -/
inductive Joins (next : Nat → Option Nat) (ps : List Nat) (q : Nat) : (Nat → Option Nat) → Prop
  | alone : ps = [] → Joins next ps q next
  | behind (front : List Nat) (l : Nat) : ps = front ++ [l] →
      Joins next ps q (Function.update next l (some q))

theorem chain_nodup (layout : RoleLayout gen capacity elements slot next placed done) (c : Nat) :
    (chain placed c).Nodup :=
  layout.table.nodup.sublist (List.filter_sublist.map _)

theorem linked_add (layout : RoleLayout gen capacity elements slot next placed done)
    {q : Nat} {a : RoleRecord} (empty : slot q = none) {next' : Nat → Option Nat}
    (joins : Joins next (chain placed a.selector) q next') (c : Nat) :
    Linked next' (chain (placed ++ [(q, a)]) c) := by
  have fresh : ∀ c, q ∉ chain placed c := by
    intro c member
    obtain ⟨b, old, -⟩ := mem_chain.mp member
    have taken := (layout.table.slots q b).mpr old
    rw [empty] at taken
    cases taken
  have ends := layout.blank q empty
  rw [chain_append]
  cases joins with
  | alone none =>
    rcases Decidable.em (a.selector = c) with rfl | off
    · rw [if_pos rfl, none]
      exact ends
    · rw [if_neg off, List.append_nil]
      exact layout.linked c
  | behind front l shape =>
    have last : l ∈ chain placed a.selector := by simp [shape]
    have apart : q ≠ l := by
      rintro rfl
      exact fresh _ last
    rcases Decidable.em (a.selector = c) with rfl | off
    · rw [if_pos rfl, shape, List.append_assoc]
      have linked := layout.linked a.selector
      have nodup := layout.chain_nodup a.selector
      rw [shape] at linked nodup
      apply linked.snoc (Function.update_self ..)
      · rw [Function.update_of_ne apart, ends]
      · intro p member
        apply Function.update_of_ne
        rintro rfl
        exact (List.nodup_append.mp nodup).2.2 p member p (List.mem_singleton_self p) rfl
    · rw [if_neg off, List.append_nil]
      refine layout.linked_other c ?_ fun i away => Function.update_of_ne away ..
      intro member
      obtain ⟨b, here, same⟩ := mem_chain.mp last
      obtain ⟨b', there, same'⟩ := mem_chain.mp member
      have one := (layout.table.slots l b).mpr here
      rw [(layout.table.slots l b').mpr there] at one
      cases one
      exact off (same.symm.trans same')

theorem add (layout : RoleLayout gen capacity elements slot next placed done) {re : RoleEntry}
    {q : Nat} {a : RoleRecord} {elements' : List Value} {next' : Nat → Option Nat}
    (named : gen.symbols.lookup re.name = some a.selector)
    (positions : a.rolePositions = re.rolePositions)
    (defined : gen.translations.lookup (.definition re.methodDefinition) = some a.definition)
    (hq : q < capacity) (empty : slot q = none)
    (before : ∀ j < capacity, Passes capacity (fun a => home gen capacity a.selector) a j q →
      slot j ≠ none)
    (length : elements'.length = elements.length)
    (first : elements'[q * 4]? = some (.chunk a.selector))
    (second : elements'[q * 4 + 1]? = some (.small a.rolePositions))
    (third : elements'[q * 4 + 2]? = some (.chunk a.definition))
    (links : ∀ i < capacity,
      elements'[i * 4 + 3]? = some ((next' i).elim .nil fun q => .small (q : Nat)))
    (kept : ∀ i < capacity, i ≠ q → ∀ d < 3, elements'[i * 4 + d]? = elements[i * 4 + d]?)
    (joins : Joins next (chain placed a.selector) q next') :
    RoleLayout gen capacity elements' (Function.update slot q (some a)) next'
      (placed ++ [(q, a)]) (done ++ [re]) := by
  have link_cases : ∀ i, next' i = next i ∨
      next' i = some q ∧ ∃ b, slot i = some b := by
    intro i
    cases joins with
    | alone => exact .inl rfl
    | behind front l shape =>
      rcases Decidable.em (i = l) with rfl | off
      · have last : i ∈ chain placed a.selector := by simp [shape]
        obtain ⟨b, here, -⟩ := mem_chain.mp last
        exact .inr ⟨Function.update_self .., b, (layout.table.slots i b).mpr here⟩
      · exact .inl (Function.update_of_ne off ..)
  constructor
  · exact layout.keyed.fill length first fun i hi off => kept i hi off 0 (by omega)
  · intro i hi b there
    rcases Decidable.em (i = q) with rfl | off
    · rw [Function.update_self] at there
      cases there
      exact ⟨second, third⟩
    · rw [Function.update_of_ne off] at there
      rw [kept i hi off 1 (by omega), kept i hi off 2 (by omega)]
      exact layout.words i hi b there
  · exact links
  · intro i r there
    rcases link_cases i with same | ⟨new, -⟩
    · rw [same] at there
      exact layout.bounded i r there
    · rw [new] at there
      cases there
      exact hq
  · intro i there
    have old : slot i = none := by
      rcases Decidable.em (i = q) with rfl | off
      · exact empty
      · rwa [Function.update_of_ne off] at there
    rcases link_cases i with same | ⟨-, b, taken⟩
    · rw [same]
      exact layout.blank i old
    · rw [old] at taken
      cases taken
  · exact layout.table.add (home_lt gen (by omega) a.selector) (filled_update hq empty a) before
  · exact layout.linked_add empty joins
  · exact List.rel_append layout.entries (.cons ⟨named, positions, defined⟩ .nil)

theorem place (layout : RoleLayout gen capacity elements slot next placed done)
    (room : done.length < capacity) (re : RoleEntry) :
    ∃ gen' elements' slot' next' placed',
      placeRole capacity (gen, elements) re = some (gen', elements') ∧ Grows gen gen' ∧
      RoleLayout gen' capacity elements' slot' next' placed' (done ++ [re]) := by
  obtain ⟨grows, named⟩ := generateLiteral_spec gen re.name
  generalize literal : gen.generateLiteral re.name = made at grows named
  obtain ⟨gen₁, selector⟩ := made
  simp only at grows named
  have layout := layout.grow grows
  obtain ⟨hash, here⟩ := idHash_within (gen₁.interned.within re.name selector named)
  have positive : 0 < capacity := Nat.lt_of_le_of_lt (Nat.zero_le _) room
  have start := home_lt gen₁ positive selector
  obtain ⟨r, inside, empty⟩ := layout.table.room (by rwa [layout.entries.length_eq])
  -- the first probe
  obtain ⟨p, run, hp, stops, before⟩ := @Keyed.probe _ _
    (fun found => found.isNil || found == .chunk selector) _ _ _ _ layout.keyed _ r start inside
    (by rw [isNil_elim, empty]; rfl)
  rw [home_eq here] at run
  have first : slot p = none ∨ ∃ a, slot p = some a ∧ a.selector = selector := by
    cases at_p : slot p with
    | none => exact .inl rfl
    | some a => exact .inr ⟨a, rfl, by simpa [at_p, Value.isNil] using stops⟩
  have before : ∀ j < capacity,
      after capacity (home gen₁ capacity selector) j < after capacity (home gen₁ capacity selector) p →
      ∃ b, slot j = some b ∧ b.selector ≠ selector := by
    intro j hj early
    have passed := before j hj early
    cases at_j : slot j with
    | none => simp [at_j, Value.isNil] at passed
    | some b => exact ⟨b, rfl, by simpa [at_j, Value.isNil] using passed⟩
  have head := layout.probe_head positive hp first before
  -- the second probe
  obtain ⟨q, insert, hq, stops', before'⟩ := @Keyed.probe _ _ Value.isNil _ _ _ _ layout.keyed _ r hp
    inside (by rw [isNil_elim, empty]; rfl)
  rw [isNil_elim, Option.isNone_iff_eq_none] at stops'
  have passed : ∀ j < capacity, after capacity p j < after capacity p q → slot j ≠ none := by
    intro j hj early free
    have full := before' j hj early
    rw [isNil_elim, free] at full
    cases full
  -- the definition and the words of the entry
  obtain ⟨grows', defined⟩ := generateMethodDef_spec gen₁ re.methodDefinition
  generalize made : gen₁.generateMethodDef re.methodDefinition = both at grows' defined
  obtain ⟨gen₂, definition⟩ := both
  simp only at grows' defined
  let a : RoleRecord := ⟨selector, re.rolePositions, definition⟩
  have blocked : ∀ j < capacity, Passes capacity (fun a => home gen₂ capacity a.selector) a j q →
      slot j ≠ none := by
    intro j hj early free
    simp only [Passes, a, grows'.home (gen₁.interned.within re.name selector named)] at early
    rcases Nat.lt_or_ge (after capacity (home gen₁ capacity selector) j)
      (after capacity (home gen₁ capacity selector) p) with near | far
    · obtain ⟨b, there, -⟩ := before j hj near
      rw [free] at there
      cases there
    · exact passed j hj (after_onward start hp hq hj (by omega) early) free
  have length := layout.keyed.length
  let elements₁ := ((elements.set (q * 4) (.chunk selector)).set (q * 4 + 1)
    (.small re.rolePositions)).set (q * 4 + 2) (.chunk definition)
  have length₁ : elements₁.length = elements.length := by simp [elements₁]
  have reads : ∀ k, elements₁[k]? = if k = q * 4 + 2 then some (.chunk definition)
      else if k = q * 4 + 1 then some (.small re.rolePositions)
      else if k = q * 4 then some (.chunk selector) else elements[k]? := by
    intro k
    rw [getElem?_atPut (by simp only [List.length_set]; omega),
      getElem?_atPut (by rw [List.length_set]; omega), getElem?_atPut (by omega)]
  have link_words : ∀ i, elements₁[i * 4 + 3]? = elements[i * 4 + 3]? := by
    intro i
    rw [reads, if_neg (by omega), if_neg (by omega), if_neg (by omega)]
  have run₁ : placeRole capacity (gen, elements) re =
      if q * 4 = p * 4 then some (gen₂, elements₁)
      else (lastRole elements₁ capacity (p * 4)).bind fun last =>
        (atPut elements₁ (last + 3) (.small (q * 4 / 4 : Nat))).bind fun elements =>
          some (gen₂, elements) := by
    simp only [placeRole, literal, here, run, insert, made, Option.bind_eq_bind, Option.bind_some]
    rw [atPut_some (by omega), Option.bind_some, atPut_some (by rw [List.length_set]; omega),
      Option.bind_some, atPut_some (by simp only [List.length_set]; omega), Option.bind_some]
  have layout := layout.grow grows'
  have extends_ := fun elements' next' => @RoleLayout.add _ _ _ _ _ _ _ layout re q a elements' next'
    (grows'.symbols _ _ named) rfl defined hq stops' blocked
  rcases Decidable.em (q = p) with rfl | apart
  · have alone := head.1 stops'
    rw [if_pos rfl] at run₁
    refine ⟨gen₂, elements₁, _, next, _, run₁, grows.trans grows',
      extends_ elements₁ next length₁ ?_ ?_ ?_ ?_ ?_ (.alone alone)⟩
    · rw [reads, if_neg (by omega), if_neg (by omega), if_pos rfl]
    · rw [reads, if_neg (by omega), if_pos rfl]
    · rw [reads, if_pos rfl]
    · exact fun i hi => (link_words i).trans (layout.links i hi)
    · intro i hi off d small
      rw [reads, if_neg (by omega), if_neg (by omega), if_neg (by omega)]
  · have taken : slot p ≠ none := by
      apply passed p hp
      rw [after_self]
      have forward := after_cases capacity p q
      omega
    obtain ⟨b, at_p⟩ := Option.ne_none_iff_exists'.mp taken
    have starts := head.2 b at_p
    obtain ⟨front, l, shape⟩ : ∃ front l, chain placed selector = front ++ [l] := by
      rcases List.eq_nil_or_concat (chain placed selector) with none | ⟨front, l, shape⟩
      · rw [none] at starts
        cases starts
      · exact ⟨front, l, by rw [shape, List.concat_eq_append]⟩
    have hl : l < capacity := by
      obtain ⟨c, member, -⟩ := mem_chain.mp (by simp [shape] : l ∈ chain placed selector)
      exact layout.table.inside l c member
    have short : front.length < capacity := by
      have part : (chain placed selector).length ≤ placed.length := by
        rw [chain, List.length_map]
        exact List.length_filter_le ..
      have all := layout.entries.length_eq
      rw [shape, List.length_append] at part
      simp only [List.length_singleton] at part
      omega
    have linked := layout.linked selector
    rw [shape] at linked starts
    have last : lastRole elements₁ capacity (p * 4) = some (l * 4) := by
      rw [lastRole_follow (fun i hi => (link_words i).trans (layout.links i hi)) layout.bounded _ _ hp,
        linked.follow capacity short starts]
      rfl
    let elements₂ := elements₁.set (l * 4 + 3) (.small (q : Nat))
    rw [if_neg (by omega), last] at run₁
    simp only [Option.bind_some] at run₁
    rw [atPut_some (by omega), Nat.mul_div_cancel q (by omega)] at run₁
    have reads₂ : ∀ k, elements₂[k]? = if k = l * 4 + 3 then some (.small (q : Nat))
        else elements₁[k]? := fun k => getElem?_atPut (by omega) _ k
    refine ⟨gen₂, elements₂, _, Function.update next l (some q), _, run₁, grows.trans grows',
      extends_ elements₂ _ (by simp [elements₂, length₁]) ?_ ?_ ?_ ?_ ?_ (.behind front l shape)⟩
    · rw [reads₂, if_neg (by omega), reads, if_neg (by omega), if_neg (by omega), if_pos rfl]
    · rw [reads₂, if_neg (by omega), reads, if_neg (by omega), if_pos rfl]
    · rw [reads₂, if_neg (by omega), reads, if_pos rfl]
    · intro i hi
      rcases Decidable.em (i = l) with rfl | off
      · rw [reads₂, if_pos rfl, Function.update_self]
        rfl
      · rw [reads₂, if_neg (by omega), Function.update_of_ne off, link_words]
        exact layout.links i hi
    · intro i hi off d small
      rw [reads₂, if_neg (by omega), reads, if_neg (by omega), if_neg (by omega), if_neg (by omega)]

theorem putElements (layout : RoleLayout gen capacity elements slot next placed done) (obj : Nat) :
    RoleLayout (gen.putElements obj elements) capacity elements slot next placed done := by
  constructor
  · exact layout.keyed
  · exact layout.words
  · exact layout.links
  · exact layout.bounded
  · exact layout.blank
  · simp only [Bootstrap.home, idHash_putElements]
    exact layout.table
  · exact layout.linked
  · exact layout.entries

end RoleLayout

theorem generateRoleTableFor_layout (gen : Generator) (map : Map) :
    ∃ gen' obj capacity elements slot next placed,
      generateRoleTableFor gen map = some (gen', obj) ∧ Grows gen gen' ∧
      IsArray gen' obj elements ∧ 0 < capacity ∧
      RoleLayout gen' capacity elements slot next placed map.roleTable := by
  obtain ⟨capacity, size, large, room⟩ := capacityForTable_holds map.roleTable.length
  let blank := List.replicate (4 * capacity) Value.nil
  have grows := cloneOf_grows gen .arrayProto (.oopArray blank)
  have empty := roleLayout_nil (gen.newArrayOf blank).1 capacity
  obtain ⟨⟨gen', elements⟩, run, grows', slot, next, placed, layout⟩ :=
    @foldlM_places _ _ (placeRole capacity)
      (fun s done => Grows (gen.newArrayOf blank).1 s.1 ∧
        ∃ slot next placed, RoleLayout s.1 capacity s.2 slot next placed done) capacity
      (by
        rintro ⟨gen₁, elements₁⟩ done re ⟨grown, slot, next, placed, layout⟩ room
        obtain ⟨gen₂, elements₂, slot', next', placed', one, grows, layout⟩ := layout.place room re
        exact ⟨(gen₂, elements₂), one, grown.trans grows, slot', next', placed', layout⟩)
      map.roleTable ((gen.newArrayOf blank).1, blank) [] ⟨Grows.refl _, _, _, _, empty⟩ large
  refine ⟨gen'.putElements gen.chunks.length elements, gen.chunks.length, capacity, elements, slot,
    next, placed, ?_, putElements_grows gen (grows.trans grows') elements,
    isArray_putElements grows' elements, room, layout.putElements _⟩
  simp only [generateRoleTableFor, size, Option.bind_eq_bind, Option.bind_some]
  rw [run]
  rfl

end SlateVm.Bootstrap
