import SlateVm.Heap.OldSpace
import SlateVm.Heap.Forward

/-! The tenuring walk: marked young objects that are not pinned are copied into old
space, and a forwarding cell is left behind. -/
namespace SlateVm
open Tiling

def tenures (h : Heap) (c : Nat) : Bool := survives h c && !objectIsPinned h c

def tenureWalk (h : Heap) : Except Halt Heap :=
  overCellsE (objectInMemory h.memoryYoung h.memoryYoungSize) tenureObject objectAfter
    h.memoryYoungSize h h.memoryYoung

/-- The bytes that the objects among `cs` need in old space. -/
def tenuredBytes (h : Heap) (cs : List Nat) : Nat := ((cs.filter (tenures h)).map (extent h.mem)).sum

/-- The walk from `h` has reached `g` after the cells `front`; the copy of a tenured
object `c` is `φ c`. -/
structure Tenuring (h : Heap) (φ : Nat → Nat) (front : List Nat) (g : Heap) : Prop where
  old : Tiled g.mem h.memoryOld g.memoryOldSize
  next : Boundary g.mem h.memoryOld g.memoryOldSize g.nextOldFree
  size : g.memoryOldSize ≤ h.memoryOldSize + tenuredBytes h front
  limit : g.memoryOldSize ≤ h.memoryOldLimit
  keeps : ∀ a ∈ oldCells h, isFree h a = false → a ∈ oldCells g ∧ g.mem a = h.mem a
  copies : ∀ c ∈ front, tenures h c = true → φ c ∈ oldCells g ∧ g.mem (φ c) = h.mem c
  leaves : ∀ c ∈ front, tenures h c = true →
    g.mem c = { h.mem c with map := φ c, hash := idHashForwarded }
  frees : ∀ c ∈ front, dies h c = true → isFree g c = true ∧ extent g.mem c = extent h.mem c
  same : ∀ x, objectIsYoung h x = true →
    (x ∈ front → tenures h x = false ∧ dies h x = false) → g.mem x = h.mem x
  only : ∀ a ∈ oldCells g, isFree g a = true ∨ (a ∈ oldCells h ∧ isFree h a = false) ∨
    ∃ c ∈ front, tenures h c = true ∧ a = φ c
  injective : ∀ c ∈ front, ∀ d ∈ front, tenures h c = true → tenures h d = true →
    φ c = φ d → c = d
  fresh : ∀ c ∈ front, tenures h c = true → ∀ a ∈ oldCells h, isFree h a = false → φ c ≠ a
  tenured : g.tenuredObjects = (front.filter (tenures h)).map φ
  headers : ∀ x, (g.mem x).hash = idHashForwarded →
    (x ∈ front ∧ tenures h x = true) ∨ g.mem x = h.mem x
  others : ∃ mem size hash next tenured, g = { h with
    mem := mem, memoryOldSize := size, lastHash := hash, nextOldFree := next
    tenuredObjects := tenured }

section Facts

variable {h g : Heap} {φ : Nat → Nat} {front : List Nat}

theorem Tenuring.memoryOld (t : Tenuring h φ front g) : g.memoryOld = h.memoryOld := by
  obtain ⟨_, _, _, _, _, rfl⟩ := t.others; rfl

theorem Tenuring.memoryOldLimit (t : Tenuring h φ front g) :
    g.memoryOldLimit = h.memoryOldLimit := by
  obtain ⟨_, _, _, _, _, rfl⟩ := t.others; rfl

theorem Tenuring.rememberedOldObjects (t : Tenuring h φ front g) :
    g.rememberedOldObjects = h.rememberedOldObjects := by
  obtain ⟨_, _, _, _, _, rfl⟩ := t.others; rfl

theorem Tenuring.markColor (t : Tenuring h φ front g) : g.markColor = h.markColor := by
  obtain ⟨_, _, _, _, _, rfl⟩ := t.others; rfl

theorem Spaces.young_apart (s : Spaces h) {x size : Nat} (young : objectIsYoung h x = true)
    (limit : size ≤ h.memoryOldLimit) : x < h.memoryOld ∨ h.memoryOld + size ≤ x := by
  have y := objectInMemory_iff.mp young
  have := s.apart
  omega

theorem Tenuring.start (s : Spaces h) (first : h.nextOldFree = h.memoryOld)
    (empty : h.tenuredObjects = []) : Tenuring h id [] h where
  old := s.old
  next := first ▸ s.old.boundary_start
  size := Nat.le_add_right ..
  limit := s.limit
  keeps a ha _ := ⟨ha, rfl⟩
  copies := by simp
  leaves := by simp
  frees := by simp
  same _ _ _ := rfl
  only a ha := by
    cases free : isFree h a with
    | true => exact Or.inl rfl
    | false => exact Or.inr (Or.inl ⟨ha, rfl⟩)
  injective := by simp
  fresh := by simp
  tenured := by simp [empty]
  headers _ _ := Or.inr rfl
  others := ⟨_, _, _, _, _, rfl⟩

theorem Tenuring.young_extent (t : Tenuring h φ front g) {c : Nat}
    (young : objectIsYoung h c = true) : extent g.mem c = extent h.mem c := by
  by_cases out : c ∈ front → tenures h c = false ∧ dies h c = false
  · rw [extent, t.same c young out, extent]
  · obtain ⟨hc, moved⟩ := Classical.not_imp.mp out
    cases go : tenures h c with
    | true => rw [extent, t.leaves c hc go]; rfl
    | false =>
      have dead : dies h c = true := by simpa [go] using moved
      exact (t.frees c hc dead).2

theorem tenuredBytes_append (c : Nat) : tenuredBytes h (front ++ [c]) =
    tenuredBytes h front + if tenures h c then extent h.mem c else 0 := by
  unfold tenuredBytes
  by_cases t : tenures h c = true <;> simp [List.filter_append, t]

theorem not_tenures_of_dies {c : Nat} (d : dies h c = true) : tenures h c = false := by
  simp only [dies, Bool.and_eq_true, Bool.not_eq_true'] at d
  simp [tenures, survives, d.2]

theorem tenures_front {c : Nat} (stay : tenures h c = false) :
    ∀ d ∈ front ++ [c], tenures h d = true → d ∈ front := by
  intro d hd td
  rcases List.mem_append.mp hd with hd | hd
  · exact hd
  · rw [List.mem_singleton.mp hd, stay] at td; cases td

theorem Tenuring.leave (t : Tenuring h φ front g) {c : Nat} (stay : tenures h c = false)
    {mem : Nat → Object} (others : ∀ x, x ≠ c → mem x = g.mem x)
    (away : c < h.memoryOld ∨ h.memoryOld + g.memoryOldSize ≤ c) (fresh : c ∉ front)
    (alive : dies h c = false → mem c = g.mem c)
    (dead : dies h c = true → (mem c).hash = idHashFree ∧ extent mem c = extent h.mem c) :
    Tenuring h φ (front ++ [c]) { g with mem := mem } := by
  have memOld := t.memoryOld
  have inside : ∀ a ∈ oldCells g, mem a = g.mem a := by
    intro a ha
    have := t.old.tiles.bounds a (by rw [← memOld]; exact ha)
    exact others a (by omega)
  have cells : cellsOf mem h.memoryOld g.memoryOldSize = oldCells g := by
    rw [oldCells, memOld]
    refine cellsOf_congr t.old fun a ha => congrArg objectTotalSize (inside a ?_)
    rw [oldCells, memOld]
    exact ha
  have here : oldCells { g with mem := mem } = oldCells g := by rw [← cells, ← memOld]; rfl
  have front' : ∀ d ∈ front ++ [c], tenures h d = true → d ∈ front := tenures_front stay
  have ne : ∀ d ∈ front, d ≠ c := by rintro d hd rfl; exact fresh hd
  constructor
  · exact t.old.congr fun a ha => congrArg objectTotalSize (inside a (by
      rw [oldCells, memOld]; exact ha))
  · obtain ⟨ds, tiles, sub⟩ := t.next
    refine ⟨ds, tiles.congr fun d hd => congrArg objectTotalSize (inside d ?_), fun d hd => ?_⟩
    · rw [oldCells, memOld]; exact sub d hd
    · show d ∈ cellsOf mem h.memoryOld g.memoryOldSize
      rw [cells, oldCells, memOld]; exact sub d hd
  · have := t.size
    rw [tenuredBytes_append]
    simpa [stay] using this
  · exact t.limit
  · intro a ha live
    obtain ⟨member, kept⟩ := t.keeps a ha live
    exact ⟨here ▸ member, (inside a member).trans kept⟩
  · intro d hd td
    obtain ⟨member, copied⟩ := t.copies d (front' d hd td) td
    exact ⟨here ▸ member, (inside _ member).trans copied⟩
  · intro d hd td
    have hd := front' d hd td
    exact (others d (ne d hd)).trans (t.leaves d hd td)
  · intro d hd dd
    rcases List.mem_append.mp hd with hd | hd
    · have freed := t.frees d hd dd
      have unchanged := others d (ne d hd)
      exact ⟨(congrArg objectIsFree unchanged).trans freed.1,
        (congrArg objectTotalSize unchanged).trans freed.2⟩
    · rw [List.mem_singleton.mp hd] at dd ⊢
      refine ⟨?_, (dead dd).2⟩
      simp [isFree, objectIsFree, (dead dd).1, idHashFree, idHashReserved]
  · intro x young ok
    have before := t.same x young fun hx => ok (List.mem_append_left _ hx)
    by_cases at_c : x = c
    · subst at_c
      exact (alive (ok (by simp)).2).trans before
    · exact (others x at_c).trans before
  · intro a ha
    rw [here] at ha
    have free : isFree { g with mem := mem } a = isFree g a :=
      congrArg objectIsFree (inside a ha)
    rw [free]
    rcases t.only a ha with free | old | ⟨d, hd, td, eq⟩
    · exact Or.inl free
    · exact Or.inr (Or.inl old)
    · exact Or.inr (Or.inr ⟨d, List.mem_append_left _ hd, td, eq⟩)
  · exact fun d hd e he td te => t.injective d (front' d hd td) e (front' e he te) td te
  · exact fun d hd td => t.fresh d (front' d hd td) td
  · rw [t.tenured]
    simp [List.filter_append, stay]
  · intro x hash
    have before : (g.mem x).hash = idHashForwarded → mem x = g.mem x →
        (x ∈ front ++ [c] ∧ tenures h x = true) ∨ mem x = h.mem x := by
      intro hash same
      rw [same]
      exact (t.headers x hash).imp (fun both => ⟨List.mem_append_left _ both.1, both.2⟩) id
    by_cases at_c : x = c
    · subst at_c
      cases d : dies h x with
      | false => exact before (alive d ▸ hash) (alive d)
      | true =>
        have free : idHashFree = idHashForwarded := (dead d).1.symm.trans hash
        exact absurd free (by decide)
    · exact before (others x at_c ▸ hash) (others x at_c)
  · obtain ⟨_, size, hash, next, tenured, rfl⟩ := t.others
    exact ⟨_, _, _, _, _, rfl⟩

/-- The memory when the object at `c` has been copied to `obj` and left forwarded. -/
def movedMem (mem : Nat → Object) (c obj : Nat) : Nat → Object := fun x =>
  if x = c then { mem c with map := obj, hash := idHashForwarded }
  else if x = obj then mem c else mem x

theorem moveTo_eq (k : Heap) {c obj : Nat} (ne : c ≠ obj) : moveTo k c obj = { k with
    mem := movedMem k.mem c obj, tenuredObjects := k.tenuredObjects ++ [obj] } := by
  simp only [moveTo, Heap.put, ne, if_false, Heap.mk.injEq, and_true]
  rfl

theorem Tenuring.move (s : Spaces h) (t : Tenuring h φ front g) {c obj size : Nat} (hash : Nat)
    {mem : Nat → Object} (young : objectIsYoung h c = true) (fresh : c ∉ front)
    (youngs : ∀ d ∈ front, objectIsYoung h d = true)
    (go : tenures h c = true) (cell : g.mem c = h.mem c)
    (carved : Carved g.mem mem h.memoryOld g.memoryOldSize size (extent h.mem c) obj)
    (grown : size = g.memoryOldSize ∨
      size = g.memoryOldSize + extent h.mem c ∧ size < h.memoryOldLimit) :
    Tenuring h (Function.update φ c obj) (front ++ [c]) (moveTo { g with
      mem := mem, memoryOldSize := size, lastHash := hash, nextOldFree := obj } c obj) := by
  have memOld := t.memoryOld
  have bound : size ≤ h.memoryOldLimit := by
    rcases grown with rfl | ⟨_, lt⟩
    · exact t.limit
    · omega
  have away := s.young_apart young bound
  have inOld : ∀ x ∈ cellsOf mem h.memoryOld size, x ≠ c := by
    rintro x hx rfl
    have := carved.tiled.tiles.bounds x hx
    omega
  have copied : mem c = h.mem c := (carved.away c away).trans cell
  have atObj : movedMem mem c obj obj = h.mem c := by
    have ne := inOld obj carved.cell
    simp [movedMem, ne, copied]
  have atC : movedMem mem c obj c = { h.mem c with map := obj, hash := idHashForwarded } := by
    simp [movedMem, copied]
  have others : ∀ x, x ≠ c → x ≠ obj → movedMem mem c obj x = mem x := by
    intro x nc no
    simp [movedMem, nc, no]
  have extents : ∀ x ∈ cellsOf mem h.memoryOld size, extent (movedMem mem c obj) x = extent mem x := by
    intro x hx
    by_cases same : x = obj
    · subst same; rw [extent, atObj, carved.extent, extent]
    · rw [extent, others x (inOld x hx) same, extent]
  have cells : cellsOf (movedMem mem c obj) h.memoryOld size = cellsOf mem h.memoryOld size :=
    cellsOf_congr carved.tiled extents
  have tiled := carved.tiled.congr extents
  have oldG : oldCells g = cellsOf g.mem h.memoryOld g.memoryOldSize := by rw [oldCells, memOld]
  have live : ∀ a ∈ oldCells g, isFree g a = false →
      a ∈ cellsOf mem h.memoryOld size ∧ a ≠ obj ∧ movedMem mem c obj a = g.mem a := by
    intro a ha alive
    rw [oldG] at ha
    obtain ⟨member, kept⟩ := carved.keeps a ha alive
    have ne : a ≠ obj := by
      rintro rfl
      rcases carved.fresh with ⟨_, free⟩ | last
      · rw [isFree, free] at alive; cases alive
      · have := t.old.tiles.bounds a ha
        omega
    exact ⟨member, ne, (others a (inOld a member) ne).trans kept⟩
  have liveCopy : isFree h c = false := by
    simp only [tenures, survives, Bool.and_eq_true, Bool.not_eq_true'] at go
    exact go.1.1
  have ne : ∀ d ∈ front, d ≠ c := by rintro d hd rfl; exact fresh hd
  have olden : ∀ d ∈ front, tenures h d = true → φ d ∈ oldCells g ∧ isFree g (φ d) = false := by
    intro d hd td
    obtain ⟨member, copy⟩ := t.copies d hd td
    refine ⟨member, ?_⟩
    rw [isFree, copy]
    simp only [tenures, survives, Bool.and_eq_true, Bool.not_eq_true'] at td
    exact td.1.1
  have stays : ∀ x, objectIsYoung h x = true → x ≠ c → movedMem mem c obj x = g.mem x := by
    intro x yx nc
    have out := s.young_apart yx bound
    have inside := carved.tiled.tiles.bounds obj carved.cell
    exact (others x nc (by omega)).trans (carved.away x out)
  have distinct : ∀ d ∈ front, tenures h d = true → φ d ≠ obj := by
    intro d hd td
    obtain ⟨member, alive⟩ := olden d hd td
    exact (live _ member alive).2.1
  have update : ∀ d ∈ front, Function.update φ c obj d = φ d := fun d hd => by simp [ne d hd]
  have final : ∀ {k : Heap}, k.mem = movedMem mem c obj → k.memoryOld = h.memoryOld →
      k.memoryOldSize = size → oldCells k = cellsOf mem h.memoryOld size := by
    intro k km ko ks
    rw [oldCells, km, ko, ks, cells]
  rw [moveTo_eq _ (inOld obj carved.cell).symm]
  have newCells := final (k := { g with
      mem := movedMem mem c obj, memoryOldSize := size, lastHash := hash, nextOldFree := obj
      tenuredObjects := g.tenuredObjects ++ [obj] }) rfl memOld rfl
  constructor
  · exact tiled
  · exact tiled.boundary (cells.symm ▸ carved.cell)
  · have := t.size
    rw [tenuredBytes_append, if_pos go]
    show size ≤ _
    omega
  · exact bound
  · intro a ha alive
    obtain ⟨member, kept⟩ := t.keeps a ha alive
    have now := live a member (by rw [isFree, kept]; exact alive)
    rw [newCells]
    exact ⟨now.1, now.2.2.trans kept⟩
  · intro d hd td
    rw [newCells]
    rcases List.mem_append.mp hd with hd | hd
    · obtain ⟨member, alive⟩ := olden d hd td
      have now := live _ member alive
      rw [update d hd]
      exact ⟨now.1, now.2.2.trans (t.copies d hd td).2⟩
    · rw [List.mem_singleton.mp hd, Function.update_self]
      exact ⟨carved.cell, atObj⟩
  · intro d hd td
    rcases List.mem_append.mp hd with hd | hd
    · rw [update d hd]
      exact (stays d (youngs d hd) (ne d hd)).trans (t.leaves d hd td)
    · rw [List.mem_singleton.mp hd, Function.update_self]
      exact atC
  · intro d hd dd
    rcases List.mem_append.mp hd with hd | hd
    · have unchanged := stays d (youngs d hd) (ne d hd)
      obtain ⟨free, size⟩ := t.frees d hd dd
      exact ⟨(congrArg objectIsFree unchanged).trans free,
        (congrArg objectTotalSize unchanged).trans size⟩
    · rw [List.mem_singleton.mp hd] at dd
      rw [not_tenures_of_dies dd] at go
      cases go
  · intro x yx ok
    have nc : x ≠ c := by
      rintro rfl
      rw [(ok (by simp)).1] at go
      cases go
    exact (stays x yx nc).trans (t.same x yx fun hx => ok (List.mem_append_left _ hx))
  · intro a ha
    rw [newCells] at ha
    by_cases atObj' : a = obj
    · subst atObj'
      exact Or.inr (Or.inr ⟨c, by simp, go, by rw [Function.update_self]⟩)
    · have same : movedMem mem c obj a = mem a := others a (inOld a ha) atObj'
      rcases carved.only a ha with here | free | ⟨member, alive⟩
      · exact absurd here atObj'
      · exact Or.inl ((congrArg objectIsFree same).trans free)
      · rcases t.only a (oldG ▸ member) with free | old | ⟨d, hd, td, eq⟩
        · rw [isFree, alive] at free; cases free
        · exact Or.inr (Or.inl old)
        · exact Or.inr (Or.inr ⟨d, List.mem_append_left _ hd, td, by rw [update d hd]; exact eq⟩)
  · intro d hd e he td te eq
    rcases List.mem_append.mp hd with hd | hd <;> rcases List.mem_append.mp he with he | he
    · rw [update d hd, update e he] at eq
      exact t.injective d hd e he td te eq
    · rw [List.mem_singleton.mp he, Function.update_self, update d hd] at eq
      exact absurd eq (distinct d hd td)
    · rw [List.mem_singleton.mp hd, Function.update_self, update e he] at eq
      exact absurd eq.symm (distinct e he te)
    · rw [List.mem_singleton.mp hd, List.mem_singleton.mp he]
  · intro d hd td a ha alive
    rcases List.mem_append.mp hd with hd | hd
    · rw [update d hd]
      exact t.fresh d hd td a ha alive
    · rw [List.mem_singleton.mp hd, Function.update_self]
      obtain ⟨member, kept⟩ := t.keeps a ha alive
      exact (live a member (by rw [isFree, kept]; exact alive)).2.1.symm
  · have images : (front.filter (tenures h)).map (Function.update φ c obj) =
        (front.filter (tenures h)).map φ :=
      List.map_congr_left fun d hd => update d (List.mem_filter.mp hd).1
    rw [t.tenured, List.filter_append, List.map_append, images]
    simp [go]
  · intro x hash
    by_cases at_c : x = c
    · subst at_c; exact Or.inl ⟨by simp, go⟩
    · by_cases at_obj : x = obj
      · subst at_obj
        have hash : (movedMem mem c x x).hash = idHashForwarded := hash
        rw [atObj] at hash
        exact absurd hash (used_notForwarded liveCopy)
      · have same : movedMem mem c obj x = mem x := others x at_c at_obj
        have hash : (movedMem mem c obj x).hash = idHashForwarded := hash
        rw [same] at hash
        rcases carved.headers x with unchanged | fresh
        · rw [unchanged] at same hash
          exact (t.headers x hash).imp (fun both => ⟨List.mem_append_left _ both.1, both.2⟩)
            fun here => same.trans here
        · exact absurd hash fresh
  · obtain ⟨_, _, _, _, _, rfl⟩ := t.others
    exact ⟨_, _, _, _, _, rfl⟩

theorem tenureObject_spec (s : Spaces h) (t : Tenuring h φ front g) {c : Nat} {back : List Nat}
    (split : youngCells h = front ++ c :: back) :
    (∃ g' φ', tenureObject g c = .ok g' ∧ Tenuring h φ' (front ++ [c]) g' ∧
      objectAfter g' c = c + extent h.mem c) ∨
    tenureObject g c = .error .assertFailed ∧
      h.memoryOldLimit ≤ h.memoryOldSize + tenuredBytes h (front ++ [c]) := by
  have here : c ∈ youngCells h := by rw [split]; simp
  have young := youngCells_isYoung s.young here
  have youngs : ∀ d ∈ front, objectIsYoung h d = true := fun d hd =>
    youngCells_isYoung s.young (by rw [split]; exact List.mem_append_left _ hd)
  have fresh : c ∉ front := by
    have unique := s.young.tiles.nodup
    rw [show cellsOf h.mem h.memoryYoung h.memoryYoungSize = _ from split] at unique
    exact fun again => (List.nodup_middle.mp unique).notMem (List.mem_append_left _ again)
  have cell : g.mem c = h.mem c := t.same c young fun again => absurd again fresh
  have away := s.young_apart young t.limit
  have marked : objectIsMarked g c = objectIsMarked h c := by
    simp only [objectIsMarked, cell, t.markColor]
  have pinned : objectIsPinned g c = objectIsPinned h c := by simp only [objectIsPinned, cell]
  have after : ∀ k : Heap, extent k.mem c = extent h.mem c → objectAfter k c = c + extent h.mem c :=
    fun k size => congrArg (c + ·) size
  rw [tenureObject, cell]
  cases free : objectIsFree (h.mem c) with
  | true =>
    have stay : tenures h c = false := by simp [tenures, survives, free]
    have alive : dies h c = false := by simp [dies, free]
    exact Or.inl ⟨g, φ, rfl, t.leave stay (fun _ _ => rfl) away fresh (fun _ => rfl)
      (fun dead => by rw [alive] at dead; cases dead), after g (congrArg objectTotalSize cell)⟩
  | false =>
    rw [if_neg (by simp), marked]
    cases mark : objectIsMarked h c with
    | false =>
      have dead : dies h c = true := by simp [dies, free, mark]
      have notOld : objectIsOld g c = false := by
        refine Bool.eq_false_iff.mpr fun old => ?_
        have := objectInMemory_iff.mp old
        have := t.memoryOld
        omega
      let k := heapFreeObject g c
      have stamp : (k.mem c).hash = idHashFree := by
        show ((heapFreeObject g c).mem c).hash = idHashFree
        rw [heapFreeObject_mem, heapMakeFreeSpace_hash]
      have freed : objectIsFree (k.mem c) = true := by
        simp [objectIsFree, stamp, idHashFree, idHashReserved]
      have shape : k = { g with mem := k.mem } := by
        simp [k, heapFreeObject, notOld, heapMakeFreeSpace, Heap.put]
      refine Or.inl ⟨k, φ, ?_, ?_, after k ?_⟩
      · show (if objectIsPinned k c || objectIsFree (k.mem c) then Except.ok k else _) = _
        rw [freed, Bool.or_true, if_pos rfl]
      · rw [shape]
        refine t.leave (not_tenures_of_dies dead) (fun x ne => ?_) away fresh
          (fun alive => by rw [dead] at alive; cases alive) fun _ => ⟨stamp, ?_⟩
        · show (heapFreeObject g c).mem x = _
          rw [heapFreeObject_mem, heapMakeFreeSpace_other ne]
        · show extent (heapFreeObject g c).mem c = _
          rw [heapFreeObject_extent, extent, cell, extent]
      · show extent (heapFreeObject g c).mem c = _
        rw [heapFreeObject_extent, extent, cell, extent]
    | true =>
      have alive : dies h c = false := by simp [dies, mark]
      simp only [if_true, pinned, cell, free, Bool.or_false]
      cases pin : objectIsPinned h c with
      | true =>
        have stay : tenures h c = false := by simp [tenures, pin]
        exact Or.inl ⟨g, φ, rfl, t.leave stay (fun _ _ => rfl) away fresh (fun _ => rfl)
          (fun dead => by rw [alive] at dead; cases dead), after g (congrArg objectTotalSize cell)⟩
      | false =>
        have go : tenures h c = true := by simp [tenures, survives, free, mark, pin]
        have old : Tiled g.mem g.memoryOld g.memoryOldSize := by rw [t.memoryOld]; exact t.old
        have next : Boundary g.mem g.memoryOld g.memoryOldSize g.nextOldFree := by
          rw [t.memoryOld]; exact t.next
        have whole : extent h.mem c % sizeofWord = 0 := Nat.mul_mod_left ..
        have least := s.young.least c here
        simp only [Bool.false_eq_true, if_false]
        rcases gcAllocateOld_spec (extent h.mem c) old fun _ => next with
          ⟨mem, size, hash, obj, run, carved, -, -, grown⟩ | ⟨fails, why⟩
        · rw [t.memoryOld] at carved
          have moved := t.move s hash young fresh youngs go cell carved
            (by rw [← t.memoryOldLimit]; exact grown)
          rw [show objectTotalSize (h.mem c) = extent h.mem c from rfl, run]
          exact Or.inl ⟨_, _, rfl, moved, after _ (moved.young_extent young)⟩
        · rw [show objectTotalSize (h.mem c) = extent h.mem c from rfl, fails]
          refine Or.inr ⟨rfl, ?_⟩
          have bytes := t.size
          have limit := t.memoryOldLimit
          rw [tenuredBytes_append, if_pos go]
          omega

theorem tenuredBytes_le {cs : List Nat} (sub : front <+: cs) :
    tenuredBytes h front ≤ tenuredBytes h cs := by
  obtain ⟨rest, rfl⟩ := sub
  simp [tenuredBytes, List.filter_append]

theorem tenureWalk_spec (s : Spaces h) (first : h.nextOldFree = h.memoryOld)
    (empty : h.tenuredObjects = []) :
    (∃ g φ, tenureWalk h = .ok g ∧ Tenuring h φ (youngCells h) g) ∨
    tenureWalk h = .error .assertFailed ∧
      h.memoryOldLimit ≤ h.memoryOldSize + tenuredBytes h (youngCells h) := by
  have step : ∀ front c back, youngCells h = front ++ c :: back →
      ∀ g, (∃ φ, Tenuring h φ front g) →
        (∃ g', tenureObject g c = .ok g' ∧ (∃ φ, Tenuring h φ (front ++ [c]) g') ∧
          objectAfter g' c = c + extent h.mem c) ∨
        ∃ e, tenureObject g c = .error e ∧ e = .assertFailed ∧
          h.memoryOldLimit ≤ h.memoryOldSize + tenuredBytes h (youngCells h) := by
    rintro front c back split g ⟨φ, t⟩
    rcases tenureObject_spec s t split with ⟨g', φ', run, t', after⟩ | ⟨fails, limit⟩
    · exact Or.inl ⟨g', run, ⟨φ', t'⟩, after⟩
    · have more : tenuredBytes h (front ++ [c]) ≤ tenuredBytes h (youngCells h) :=
        tenuredBytes_le ⟨back, by rw [split]; simp⟩
      exact Or.inr ⟨_, fails, rfl, by omega⟩
  rcases overCellsE_invariant (I := fun front g => ∃ φ, Tenuring h φ front g) s.young.tiles
      (Nat.le_of_eq (Nat.add_sub_cancel_left ..)) (fun c lo hi => objectInMemory_iff.mpr ⟨lo, hi⟩)
      (by simp [objectInMemory]) step ⟨id, .start s first empty⟩ with
    ⟨g, run, φ, t⟩ | ⟨e, fails, rfl, limit⟩
  · exact Or.inl ⟨g, φ, run, t⟩
  · exact Or.inr ⟨fails, limit⟩

end Facts

end SlateVm
