import SlateVm.Heap.FullMark

/-! Where the objects are when the tenuring walk is over, and what redirecting the
pointers then makes of them. -/
namespace SlateVm
open Tiling

def relocation (g : Heap) (φ : Nat → Nat) (a : Nat) : Nat :=
  if a ∈ youngCells g ∧ tenures g a = true then φ a else a

/-- The objects of `h` that a full collection keeps stand in `g` at the addresses `φ`,
with their pointers still to be redirected. -/
structure Relocated (h g : Heap) (φ : Nat → Nat) : Prop extends Spaces g where
  object : ∀ a, FullReachable h a →
    Live g (φ a) ∧ (g.mem (φ a)).eraseMark = (h.mem a).eraseMark
  source : ∀ b, Live g b → ∃ a, FullReachable h a ∧ b = φ a
  resolves : ∀ a, FullReachable h a → Resolves g φ a
  injective : ∀ a b, FullReachable h a → FullReachable h b → φ a = φ b → a = b
  stays : ∀ a, FullReachable h a → (a ∈ oldCells h ∨ isPinnedObject h a = true) → φ a = a
  moves : ∀ a, FullReachable h a → a ∈ youngCells h → isPinnedObject h a = false →
    φ a ∈ oldCells g ∧ φ a ∈ g.tenuredObjects
  remembered : ∀ o ∈ h.rememberedOldObjects, FullReachable h o → o ∈ g.rememberedOldObjects
  others : ∃ mem size color stack remembered flag hash next tenured, g = { h with
    mem := mem, memoryOldSize := size, markColor := color, markStack := stack
    rememberedOldObjects := remembered, doFullGCNext := flag, lastHash := hash
    nextOldFree := next, tenuredObjects := tenured }

section Relocate

variable {h k g : Heap} {φ : Nat → Nat}

theorem FullMarked.sameYoung (m : FullMarked h k) (w : WellFormed h) :
    youngCells k = youngCells h := by
  rw [youngCells, m.memoryYoung.1, m.memoryYoung.2]
  exact cellsOf_congr w.young fun c hc =>
    eraseMark_extent (m.youngSame c (youngCells_isYoung w.young hc))

theorem FullMarked.isYoung (m : FullMarked h k) (a : Nat) :
    objectIsYoung k a = objectIsYoung h a := by
  simp only [objectIsYoung, m.memoryYoung.1, m.memoryYoung.2]

theorem isPinnedObject_eq {a : Nat} (live : isFree h a = false) :
    isPinnedObject h a = objectIsPinned h a := by
  simp [isPinnedObject, hash_lt_of_live live]

theorem FullMarked.tenures_iff (m : FullMarked h k) (w : WellFormed h) {a : Nat}
    (young : a ∈ youngCells h) : tenures k a = true ↔
      isFree h a = false ∧ FullReachable h a ∧ isPinnedObject h a = false := by
  have same := m.youngSame a (youngCells_isYoung w.young young)
  have free : objectIsFree (k.mem a) = objectIsFree (h.mem a) := eraseMark_free same
  have pins : (k.mem a).pinCount = (h.mem a).pinCount := (congrArg Object.pinCount same :)
  cases f : isFree h a with
  | true =>
    have f' : objectIsFree (h.mem a) = true := f
    simp [tenures, survives, free, f']
  | false =>
    have f' : objectIsFree (h.mem a) = false := f
    rw [← m.marked a young f, isPinnedObject_eq f]
    simp [tenures, survives, free, f', objectIsPinned, pins]

theorem Tenuring.sameYoung (s : Spaces k) (t : Tenuring k φ (youngCells k) g) :
    youngCells g = youngCells k := by
  have sizes : g.memoryYoung = k.memoryYoung ∧ g.memoryYoungSize = k.memoryYoungSize := by
    obtain ⟨_, _, _, _, _, rfl⟩ := t.others; exact ⟨rfl, rfl⟩
  rw [youngCells, sizes.1, sizes.2]
  exact cellsOf_congr s.young fun c hc => t.young_extent (youngCells_isYoung s.young hc)

theorem Tenuring.spaces (s : Spaces k) (t : Tenuring k φ (youngCells k) g) :
    Spaces g := by
  have sizes : g.memoryYoung = k.memoryYoung ∧ g.memoryYoungSize = k.memoryYoungSize := by
    obtain ⟨_, _, _, _, _, rfl⟩ := t.others; exact ⟨rfl, rfl⟩
  constructor
  · rw [t.memoryOld]; exact t.old
  · rw [sizes.1, sizes.2]
    exact s.young.congr fun c hc => t.young_extent (youngCells_isYoung s.young hc)
  · rw [t.memoryOldLimit]; exact t.limit
  · rw [t.memoryOld, t.memoryOldLimit, sizes.1, sizes.2]; exact s.apart

inductive Survival (h k g : Heap) (φ : Nat → Nat) (a : Nat) : Prop where
  | old : a ∈ oldCells h → relocation k φ a = a → a ∈ oldCells g → a ∈ oldCells k →
      isFree k a = false → (g.mem a).eraseMark = (h.mem a).eraseMark → Survival h k g φ a
  | pinned : a ∈ youngCells h → isPinnedObject h a = true → relocation k φ a = a →
      a ∈ youngCells g → (g.mem a).eraseMark = (h.mem a).eraseMark → Survival h k g φ a
  | moved : a ∈ youngCells h → isPinnedObject h a = false → relocation k φ a = φ a →
      tenures k a = true → φ a ∈ oldCells g →
      (g.mem (φ a)).eraseMark = (h.mem a).eraseMark → Survival h k g φ a

theorem Tenuring.survival (w : WellFormed h) (m : FullMarked h k)
    (t : Tenuring k φ (youngCells k) g) {a : Nat} (reached : FullReachable h a) :
    Survival h k g φ a := by
  have live := FullReachable.live w reached
  have cells := m.sameYoung w
  rcases live.1 with old | young
  · have notYoung : a ∉ youngCells k := by
      rw [cells]
      intro young
      have := w.young_not_old young
      rw [oldCells_isOld w.old old] at this
      cases this
    obtain ⟨here, same⟩ := m.oldKept a old live.2 reached
    have free : isFree k a = false := (eraseMark_free same).trans live.2
    obtain ⟨there, kept⟩ := t.keeps a here free
    exact .old old (by simp [relocation, notYoung]) there here free (by rw [kept, same])
  · have isYoung := youngCells_isYoung w.young young
    have same := m.youngSame a isYoung
    cases pin : isPinnedObject h a with
    | true =>
      have stay : tenures k a = false := Bool.eq_false_iff.mpr fun go => by
        have := ((m.tenures_iff w young).mp go).2.2
        rw [pin] at this
        cases this
      have alive : dies k a = false := by
        simp [dies, (m.marked a young live.2).mpr reached]
      have kept := t.same a ((m.isYoung a).trans isYoung) fun _ => ⟨stay, alive⟩
      refine .pinned young pin (by simp [relocation, stay]) ?_ (by rw [kept, same])
      rw [t.sameYoung m.toSpaces, cells]
      exact young
    | false =>
      have go := (m.tenures_iff w young).mpr ⟨live.2, reached, pin⟩
      have here : a ∈ youngCells k := cells ▸ young
      obtain ⟨there, copy⟩ := t.copies a here go
      exact .moved young pin (by simp [relocation, here, go]) go there (by rw [copy, same])

theorem Tenuring.source (w : WellFormed h) (m : FullMarked h k)
    (t : Tenuring k φ (youngCells k) g) {b : Nat} (live : Live g b) :
    ∃ a, FullReachable h a ∧ b = relocation k φ a := by
  have cells := m.sameYoung w
  rcases live.1 with old | young
  · rcases t.only b old with free | ⟨here, alive⟩ | ⟨c, hc, go, rfl⟩
    · rw [live.2] at free; cases free
    · obtain ⟨first, _, reached⟩ := m.oldOnly b here alive
      have notYoung : b ∉ youngCells k := by
        rw [cells]
        intro young
        have := w.young_not_old young
        rw [oldCells_isOld w.old first] at this
        cases this
      exact ⟨b, reached, by simp [relocation, notYoung]⟩
    · have reached := ((m.tenures_iff w (cells ▸ hc)).mp go).2.1
      exact ⟨c, reached, by simp [relocation, hc, go]⟩
  · rw [t.sameYoung m.toSpaces] at young
    have isYoung := youngCells_isYoung m.young young
    have stay : tenures k b = false := Bool.eq_false_iff.mpr fun go => by
      have := live.2
      rw [isFree, t.leaves b young go] at this
      cases this
    have alive : dies k b = false := Bool.eq_false_iff.mpr fun dead => by
      have := (t.frees b young dead).1
      rw [live.2] at this
      cases this
    have kept := t.same b isYoung fun _ => ⟨stay, alive⟩
    have same := m.youngSame b ((m.isYoung b).symm.trans isYoung)
    have free : objectIsFree (k.mem b) = false := by rw [← kept]; exact live.2
    have first : isFree h b = false := (eraseMark_free same).symm.trans free
    refine ⟨b, (m.marked b (cells ▸ young) first).mp ?_, by simp [relocation, stay]⟩
    simpa [dies, free] using alive

theorem Tenuring.relocated (w : WellFormed h) (m : FullMarked h k)
    (t : Tenuring k φ (youngCells k) g) : Relocated h g (relocation k φ) := by
  have spaces := t.spaces m.toSpaces
  have cells := m.sameYoung w
  constructor
  · exact spaces
  · intro a reached
    have live := FullReachable.live w reached
    cases t.survival w m reached with
    | old _ eq there _ _ same =>
      rw [eq]; exact ⟨⟨Or.inl there, (eraseMark_free same).trans live.2⟩, same⟩
    | pinned _ _ eq there same =>
      rw [eq]; exact ⟨⟨Or.inr there, (eraseMark_free same).trans live.2⟩, same⟩
    | moved _ _ eq _ there same =>
      rw [eq]; exact ⟨⟨Or.inl there, (eraseMark_free same).trans live.2⟩, same⟩
  · exact fun b live => t.source w m live
  · intro a reached
    have live := FullReachable.live w reached
    cases t.survival w m reached with
    | old _ eq there _ _ same => exact ⟨by rw [eq]; exact (eraseMark_free same).trans live.2, Or.inl eq⟩
    | pinned _ _ eq there same => exact ⟨by rw [eq]; exact (eraseMark_free same).trans live.2, Or.inl eq⟩
    | moved young _ eq go there same =>
      have left := t.leaves a (cells ▸ young) go
      refine ⟨by rw [eq]; exact (eraseMark_free same).trans live.2, Or.inr ⟨?_, ?_, ?_⟩⟩
      · rw [left]
      · rw [left, eq]
      · rw [eq]
        exact spaces.not_both (oldCells_isOld spaces.old there)
  · intro a b ra rb eq
    cases t.survival w m ra with
    | old olda eqa therea herea livea samea =>
      cases t.survival w m rb with
      | old _ eqb _ _ _ _ => rwa [eqa, eqb] at eq
      | pinned _ _ eqb _ _ => rwa [eqa, eqb] at eq
      | moved youngb _ eqb gob _ _ =>
        rw [eqa, eqb] at eq
        exact absurd eq.symm (t.fresh b (cells ▸ youngb) gob a herea livea)
    | pinned _ _ eqa therea _ =>
      cases t.survival w m rb with
      | old _ eqb _ _ _ _ => rwa [eqa, eqb] at eq
      | pinned _ _ eqb _ _ => rwa [eqa, eqb] at eq
      | moved _ _ eqb _ thereb _ =>
        rw [eqa, eqb] at eq
        exact absurd (oldCells_isOld spaces.old (eq ▸ thereb))
          (Bool.eq_false_iff.mp (spaces.young_not_old therea))
    | moved younga _ eqa goa therea _ =>
      cases t.survival w m rb with
      | old _ eqb _ hereb liveb _ =>
        rw [eqa, eqb] at eq
        exact absurd eq (t.fresh a (cells ▸ younga) goa b hereb liveb)
      | pinned _ _ eqb thereb _ =>
        rw [eqa, eqb] at eq
        exact absurd (oldCells_isOld spaces.old (eq ▸ therea))
          (Bool.eq_false_iff.mp (spaces.young_not_old thereb))
      | moved youngb _ eqb gob _ _ =>
        rw [eqa, eqb] at eq
        exact t.injective a (cells ▸ younga) b (cells ▸ youngb) goa gob eq
  · intro a reached known
    cases t.survival w m reached with
    | old _ eq => exact eq
    | pinned _ _ eq => exact eq
    | moved young pin =>
      rcases known with old | pinned
      · have := w.young_not_old young
        rw [oldCells_isOld w.old old] at this
        cases this
      · rw [pin] at pinned; cases pinned
  · intro a reached young pin
    cases t.survival w m reached with
    | old old =>
      have := w.young_not_old young
      rw [oldCells_isOld w.old old] at this
      cases this
    | pinned _ pinned => rw [pin] at pinned; cases pinned
    | moved _ _ eq go there _ =>
      rw [eq, t.tenured]
      exact ⟨there, List.mem_map_of_mem (List.mem_filter.mpr ⟨cells ▸ young, go⟩)⟩
  · intro o ho reached
    rw [t.rememberedOldObjects]
    exact (m.remembered o).mpr ⟨ho, reached⟩
  · obtain ⟨_, _, _, _, _, rfl⟩ := t.others
    obtain ⟨_, _, _, _, _, _, _, rfl⟩ := m.others
    exact ⟨_, _, _, _, _, _, _, _, _, rfl⟩

end Relocate

end SlateVm
