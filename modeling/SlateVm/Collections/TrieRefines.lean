import SlateVm.Collections.TrieRuns

/-! The operations of `Trie` make of the map what they should, but for their defects. -/
namespace SlateVm.Collections.Trie

open Walks Refinement

variable {κ β : Type} {h : KeyHashing κ} {equals : κ → κ → Bool} {nodes : Nodes κ β}
  {m : KeySequence κ → Option β} {s t : KeySequence κ}

theorem Formed.drift_walks (formed : Formed h nodes) {i : Nat} (inside : i < nodes.length)
    (s : KeySequence κ) : drift (kid h nodes) i s < nodes.length ∧ i ≤ drift (kid h nodes) i s ∧
      ∃ t, walk (kid h nodes) i t = some (drift (kid h nodes) i s) := by
  induction s generalizing i with
  | nil => exact ⟨inside, Nat.le_refl i, [], rfl⟩
  | cons e s ih =>
    have next : drift (kid h nodes) i (e :: s) =
        drift (kid h nodes) ((kid h nodes i e).getD i) s := rfl
    rw [next]
    cases step : kid h nodes i e with
    | none => exact ih inside
    | some c =>
      obtain ⟨up, within⟩ := formed.ascends i e c step
      obtain ⟨below, above, t, walked⟩ := ih within
      simp only [Option.getD_some]
      refine ⟨below, by omega, e :: t, ?_⟩
      rw [walk_cons, step]
      exact walked

theorem Formed.follow_drifts (formed : Formed h nodes) {i : Nat} (inside : i < nodes.length)
    (s : KeySequence κ) (next : Option Nat) : ∃ next',
      s.foldlM (follow h nodes) (i, next) = some (drift (kid h nodes) i s, next') := by
  induction s generalizing i next with
  | nil => exact ⟨next, rfl⟩
  | cons e s ih =>
    have found := formed.childAt_eq inside e
    have here : ((kid h nodes i e).getD i) < nodes.length := by
      cases step : kid h nodes i e with
      | none => exact inside
      | some c => exact (formed.ascends i e c step).2
    obtain ⟨next', run⟩ := ih here (kid h nodes i e)
    refine ⟨next', ?_⟩
    rw [List.foldlM_cons]
    simp only [follow, found, Option.bind_eq_bind, Option.bind_some]
    exact run

theorem Formed.search_ends (formed : Formed h nodes) (front : KeySequence κ) (last : Option κ)
    (rounds : Nat) {i : Nat} {pre : KeySequence κ} (walked : walk (kid h nodes) 0 pre = some i)
    (enough : nodes.length ≤ rounds + i) :
    ∃ node, search h nodes (front ++ [last]) rounds i = some node ∧
      Ends (kid h nodes) front last i node ∧ ∃ t, walk (kid h nodes) 0 t = some node := by
  induction rounds generalizing i pre with
  | zero =>
    have within := (formed.walk_inside formed.trie walked).2
    omega
  | succ rounds ih =>
    have within := (formed.walk_inside formed.trie walked).2
    obtain ⟨inside, up, t, drifted⟩ := formed.drift_walks within front
    obtain ⟨next, pass⟩ := formed.follow_drifts within front (some i)
    have through : walk (kid h nodes) 0 (pre ++ t) = some (drift (kid h nodes) i front) := by
      rw [walk_append, walked]
      exact drifted
    have whole : (front ++ [last]).foldlM (follow h nodes) (i, some i) =
        some ((kid h nodes (drift (kid h nodes) i front) last).getD
          (drift (kid h nodes) i front), kid h nodes (drift (kid h nodes) i front) last) := by
      rw [List.foldlM_append, pass]
      simp only [List.foldlM_cons, List.foldlM_nil, follow, formed.childAt_eq inside,
        Option.bind_eq_bind, Option.bind_some]
      rfl
    unfold search
    rw [whole]
    cases step : kid h nodes (drift (kid h nodes) i front) last with
    | none => exact ⟨_, rfl, .stops step, pre ++ t, through⟩
    | some c =>
      have deeper : walk (kid h nodes) 0 (pre ++ t ++ [last]) = some c := by
        rw [walk_concat, through]
        exact step
      obtain ⟨above, _⟩ := formed.ascends _ last c step
      obtain ⟨node, run, ends, reached⟩ := ih deeper (by omega)
      exact ⟨node, run, .again step ends, reached⟩

theorem Harmless.prunes {node : Nat} {left : Int} (harmless : Harmless h nodes node left)
    {now : Nodes κ β} (formed : Formed h now) (reached : ∃ t, walk (kid h now) 0 t = some node)
    (above : ∀ j, j < node → now[j]? = nodes[j]?)
    (here : ∀ record, nodes[node]? = some record → ∃ children,
      now[node]? = some { record with children := children } ∧ children.size = left)
    (rounds : Nat) (enough : node < rounds) :
    ∃ nodes', prune h rounds now node = some nodes' ∧ Formed h nodes' ∧
      ∀ s, valueAt h nodes' s = valueAt h now s := by
  induction harmless generalizing now rounds with
  | @stays node left record at_ reason =>
    obtain ⟨children, there, size⟩ := here record at_
    obtain ⟨rounds, rfl⟩ : ∃ n, rounds = n + 1 := ⟨rounds - 1, by omega⟩
    refine ⟨now, ?_, formed, fun _ => rfl⟩
    simp only [prune, there, Option.bind_eq_bind, Option.bind_some, size]
    rcases reason with holds | many | top
    · simp [Option.isNone_eq_false_iff.mpr holds]
    · have several : ¬ left ≤ 1 := by omega
      simp [several]
    · simp [top]
  | @goes node parent record over_ at_ up at_parent spares _ ih =>
    obtain ⟨children, there, size⟩ := here record at_
    obtain ⟨rounds, rfl⟩ : ∃ n, rounds = n + 1 := ⟨rounds - 1, by omega⟩
    cases holds : record.element with
    | some x =>
      refine ⟨now, ?_, formed, fun _ => rfl⟩
      simp [prune, there, holds]
    | none =>
      have parent_now : parentOf now node = some parent := by
        simp [parentOf, there, up]
      obtain ⟨t, walked⟩ := reached
      rcases List.eq_nil_or_concat t with rfl | ⟨front, e, rfl⟩
      · cases walked
        rw [formed.rooted.top] at parent_now
        cases parent_now
      · rw [List.concat_eq_append, walk_concat, Option.bind_eq_some_iff] at walked
        obtain ⟨p, to_p, step⟩ := walked
        have link := formed.rooted.child p e node step
        rw [parent_now] at link
        cases link
        cases e with
        | none =>
          rw [formed.kid_nil] at step
          cases step
        | some k =>
          obtain ⟨higher, _⟩ := formed.ascends parent _ node step
          have same_above : now[parent]? = some over_ := (above parent higher).trans at_parent
          have leaf := formed.childless there size
          have kids : ∀ e, kid h now parent e = kid h nodes parent e := fun e =>
            kid_congr (by rw [above parent higher]) e
          obtain ⟨nodes₁, shorter, run, formed₁, cut, elements, length, changed, fewer, frame⟩ :=
            formed.detach same_above step leaf fun k' edge =>
              spares k' ((kids (some k')).symm.trans edge)
          have values : ∀ s, valueAt h nodes₁ s = valueAt h now s := by
            intro s
            unfold valueAt
            rcases Classical.em (walk (kid h now) 0 s = some node) with gone | stays
            · rw [(walk_cut formed.rooted cut s).1 gone, gone]
              simp [elementOf, there, holds]
            · rw [(walk_cut formed.rooted cut s).2 stays]
              congr 1
              funext j
              exact elements j
          have to_parent : walk (kid h nodes₁) 0 front = some parent := by
            rw [(walk_cut formed.rooted cut front).2]
            · exact to_p
            · rw [to_p]
              intro clash
              cases clash
              omega
          obtain ⟨nodes₂, rest, formed₂, kept⟩ := ih formed₁ ⟨front, to_parent⟩ (by
              intro j lower
              rw [frame j (by omega) (by omega)]
              exact above j (by omega)) (by
              intro record' at_'
              cases at_parent.symm.trans at_'
              exact ⟨shorter, changed, fewer⟩) rounds (by omega)
          refine ⟨nodes₂, ?_, formed₂, fun s => (kept s).trans (values s)⟩
          simp only [prune, there, Option.bind_eq_bind, Option.bind_some, holds, up, size, run,
            Option.isNone_none, Bool.true_and]
          exact rest

theorem Keeps.shows (keeps : Keeps h nodes m) : Shows h nodes m :=
  ⟨keeps.values, keeps.formed.rooted.child⟩

theorem Keeps.step_put (keeps : Keeps h nodes m) {s : KeySequence κ} {obj : Option β}
    (spares : Spares h equals nodes (.atPut s obj)) :
    Step (implementation h equals) (Keeps h) nodes m (.atPut s obj) := by
  obtain ⟨plain, keys, few⟩ := spares
  have formed := keeps.formed
  obtain ⟨pre, rest, node, goes, rfl, walked, missing⟩ := descend_walks formed formed.trie s
  obtain ⟨nodes₁, last, adds, formed₁, to_last, root, values⟩ := addNodes formed walked missing
    fun member => keys (List.mem_append_right _ member)
  have short : elementOf nodes 0 = none ∨ rest.length ≤ 1 := by
    rcases few with bare | reaches
    · exact .inl bare
    · right
      cases rest with
      | nil => simp
      | cons e more =>
        cases more with
        | nil => simp
        | cons e' more =>
          rw [List.dropLast_append_of_ne_nil (by simp), List.dropLast_cons_cons, walk_append,
            walked, Option.bind_some, walk_cons, missing e _ rfl] at reaches
          cases reaches
  have inside := (formed₁.walk_inside formed₁.trie to_last).2
  obtain ⟨record, here⟩ := Formed.record inside
  have sets := valueAt_setElement here obj formed₁ to_last
  refine ⟨nodes₁.set last { record with element := obj }, .value obj, ?_, rfl,
    formed₁.setElement here obj, ?_⟩
  · simp only [implementation, perform, atPut, goes, adds, setElement, here, Option.bind_eq_bind,
      Option.bind_some]
    rfl
  · apply plain.store
    · intro t alike
      exact (sets t).1 alike
    · intro t off
      rw [(sets t).2 off, values short t off, keeps.values]

theorem Keeps.step_remove (keeps : Keeps h nodes m) {s : KeySequence κ}
    (spares : Spares h equals nodes (.remove s)) :
    Step (implementation h equals) (Keeps h) nodes m (.remove s) := by
  obtain ⟨plain, front, last, rfl, safe⟩ := spares
  have formed := keeps.formed
  obtain ⟨node, finds, ends, to_node, reached⟩ :=
    formed.search_ends front last (nodes.length + 1) walk_nil (by omega)
  have inside := (formed.walk_inside formed.trie reached).2
  obtain ⟨record, here⟩ := Formed.record inside
  obtain ⟨place, harmless⟩ := safe node record ends here
  have formed₁ := formed.setElement here none
  have kids : kid h (nodes.set node { record with element := none }) = kid h nodes := by
    funext j e
    exact kid_setElement here none j e
  obtain ⟨nodes₂, prunes, formed₂, kept⟩ := harmless.prunes formed₁
    ⟨to_node, by rw [kids]; exact reached⟩ (fun _ _ => rfl) (by
      intro record' there
      have same_record : record' = { record with element := none } := by
        rw [List.getElem?_set_self inside] at there
        exact (Option.some.inj there).symm
      exact ⟨record'.children, there, by rw [same_record]⟩)
    ((nodes.set node { record with element := none }).length + 1) (by
      rw [List.length_set]
      omega)
  refine ⟨nodes₂, .key (front ++ [last]), ?_, rfl, formed₂, ?_⟩
  · simp only [implementation, perform, remove, finds, setElement, here, Option.bind_eq_bind,
      Option.bind_some, prunes]
    rfl
  · have sets := valueAt_setElement here none formed reached
    apply plain.store
    · intro t alike
      rw [kept]
      rcases place with found | ⟨bare, unset⟩
      · have at_t : List.Forall₂ (same h.equals) to_node t :=
          formed.rooted.walk_inj reached (((formed.rooted.walk_iff found).mpr alike))
        exact (sets t).1 at_t
      · have equal_walks := formed.rooted.walk_same (n := 0) alike
        have unset_t : valueAt h nodes t = none := by
          unfold valueAt at unset ⊢
          rw [← equal_walks]
          exact unset
        rcases Classical.em (List.Forall₂ (same h.equals) to_node t) with at_t | off
        · exact (sets t).1 at_t
        · rw [(sets t).2 off, unset_t]
    · intro t off
      rw [kept, ← keeps.values]
      rcases place with found | ⟨bare, _⟩
      · apply (sets t).2
        intro at_t
        have to_t := (formed.rooted.walk_iff reached).mpr at_t
        exact off ((formed.rooted.walk_iff found).mp to_t)
      · rcases Classical.em (List.Forall₂ (same h.equals) to_node t) with at_t | off'
        · rw [(sets t).1 at_t, valueAt, (formed.rooted.walk_iff reached).mpr at_t]
          simp [elementOf, here, bare]
        · exact (sets t).2 off'

theorem Keeps.step (keeps : Keeps h nodes m) (op : Op κ β) (spares : Spares h equals nodes op) :
    Step (implementation h equals) (Keeps h) nodes m op := by
  have formed := keeps.formed
  cases op with
  | atPut s obj => exact keeps.step_put spares
  | «at» s =>
    have answer := lookAt_eq formed spares
    refine ⟨nodes, .value (m s), ?_, rfl, keeps⟩
    simp [implementation, perform, answer, keeps.values]
  | includes s =>
    have answer := lookAt_eq formed spares
    refine ⟨nodes, .truth (m s).isSome, ?_, rfl, keeps⟩
    simp [implementation, perform, includes, answer, keeps.values]
  | size =>
    obtain ⟨n, answer⟩ := sizeFrom_ends formed nodes.length formed.trie (by omega)
    exact ⟨nodes, .number n, by simp [implementation, perform, answer], ⟨n, rfl⟩, keeps⟩
  | remove s => exact keeps.step_remove spares

/-- A `Trie` is the finite map on key sequences that its operations build, and each child
knows its parent, as long as the steps spare the defects. -/
theorem trie_refines (h : KeyHashing κ) (equals : κ → κ → Bool) (β : Type) :
    Refines (implementation (β := β) h equals) (Spares h equals) (Shows h) := by
  apply Refines.of_steps (Keeps h)
  · rintro nodes m ⟨n, rfl, rfl⟩
    refine ⟨formed_new n, ?_⟩
    intro s
    cases s with
    | nil => rfl
    | cons e s =>
      unfold valueAt
      rw [walk_cons, kid_new]
      rfl
  · intro nodes m op keeps spares
    exact keeps.step op spares
  · intro nodes m keeps
    exact keeps.shows

/-- On an empty trie `at:` with a key of two elements sends `children` to Nil. -/
theorem missing_prefix_signals : ¬ ∀ (κ β : Type) (h : KeyHashing κ) (equals : κ → κ → Bool),
    Refines (implementation (β := β) h equals) (fun _ _ => True) (Shows h) := by
  intro refines
  obtain ⟨nodes, a, run, _⟩ := (refines Nat Nat ⟨numbers, 0, id⟩ (· == ·) (new 3) (fun _ => none)
    (.start ⟨3, rfl, rfl⟩)).2 (.at [some 1, some 2]) trivial
  have fails : perform (⟨numbers, 0, id⟩ : KeyHashing Nat) (new 3 : Nodes Nat Nat)
      (.at [some 1, some 2]) = none := by rfl
  cases fails.symm.trans run

end SlateVm.Collections.Trie
