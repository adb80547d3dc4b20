import SlateVm.Heap.Forward
import SlateVm.Heap.Guard

/-! Forwarding one object to another: every object of both spaces has its pointers to the
one renamed to the other, and the cell that is left behind is freed. -/
namespace SlateVm
open Tiling

def redirect (x y v : Nat) : Nat := if v = x then y else v

section Redirect

variable {x y v : Nat}

theorem redirect_ne (away : x ≠ y) : redirect x y v ≠ x := by
  unfold redirect
  split
  · exact away.symm
  · assumption

theorem renameOop_redirect (big : oopIsSmallint x = false) :
    renameOop (redirect x y) v = redirect x y v := by
  unfold renameOop redirect
  split
  · rename_i small
    have other : v ≠ x := by rintro rfl; rw [big] at small; cases small
    rw [if_neg other]
  · rfl

end Redirect

section Object

variable {h : Heap} {o x y : Nat}

theorem heapStoreInto_live {src dest : Nat} (live : isFree h src = false)
    (target : isFree h dest = false) :
    ∃ remembered, heapStoreInto h src dest = .ok { h with rememberedOldObjects := remembered } := by
  rcases heapStoreInto_spec h src dest with ⟨remembered, run, -⟩ | fails
  · exact ⟨remembered, run⟩
  · have hs := hash_lt_of_live live
    have hd := hash_lt_of_live target
    unfold heapStoreInto at fails
    simp only [require, hs, hd, decide_true, if_true, bind, Except.bind] at fails
    split at fails <;> split at fails <;> cases fails

/-- The heap is `h` with the object at `o` replaced, up to the remembered set. -/
def Rewritten (h k : Heap) (o : Nat) (n : Object) : Prop :=
  ∃ remembered, k = { h with rememberedOldObjects := remembered }.put o n

theorem Rewritten.mem {k : Heap} {n : Object} (r : Rewritten h k o n) (a : Nat) :
    k.mem a = if a = o then n else h.mem a := by
  obtain ⟨remembered, rfl⟩ := r
  rfl

theorem Rewritten.isFree {k : Heap} {n : Object} (r : Rewritten h k o n)
    (hash : n.hash = (h.mem o).hash) (a : Nat) : isFree k a = isFree h a := by
  obtain ⟨remembered, rfl⟩ := r
  exact isFree_put (h := { h with rememberedOldObjects := remembered }) n hash a

theorem Rewritten.trans {k m : Heap} {n n' : Object} (first : Rewritten h k o n)
    (second : Rewritten k m o n') : Rewritten h m o n' := by
  obtain ⟨remembered, rfl⟩ := first
  obtain ⟨remembered', rfl⟩ := second
  exact ⟨remembered', put_put { h with rememberedOldObjects := remembered' } o n n'⟩

theorem Rewritten.refl (h : Heap) (o : Nat) : Rewritten h h o (h.mem o) :=
  ⟨h.rememberedOldObjects, (put_self h o).symm⟩

theorem forwardMap_rewrites (live : isFree h o = false) (target : isFree h y = false) :
    ∃ k, forwardMap h o x y = .ok k ∧
      Rewritten h k o { h.mem o with map := redirect x y (h.mem o).map } := by
  unfold forwardMap redirect
  split
  · obtain ⟨remembered, run⟩ := heapStoreInto_live live target
    rw [run]
    exact ⟨_, rfl, remembered, rfl⟩
  · exact ⟨h, rfl, .refl h o⟩

theorem forwardField_rewrites {k : Nat} (live : isFree h o = false) (target : isFree h y = false) :
    ∃ h', (if (h.mem o).word k = x then objectSlotValueAtOffsetPut h o k y else .ok h) = .ok h' ∧
      Rewritten h h' o ((h.mem o).setWord k (redirect x y ((h.mem o).word k))) := by
  unfold redirect
  split
  · obtain ⟨remembered, run⟩ := heapStoreInto_live live target
    rw [objectSlotValueAtOffsetPut, run]
    exact ⟨_, rfl, remembered, rfl⟩
  · rw [setWord_self]
    exact ⟨h, rfl, .refl h o⟩

def Object.redirectWords (x y : Nat) (ks : List Nat) (n : Object) : Object :=
  { n with word := fun k => if k ∈ ks then redirect x y (n.word k) else n.word k }

theorem redirectWords_cons {k : Nat} {ks : List Nat} (fresh : k ∉ ks) (n : Object) :
    (n.setWord k (redirect x y (n.word k))).redirectWords x y ks =
      n.redirectWords x y (k :: ks) := by
  simp only [Object.redirectWords, Object.setWord, Object.mk.injEq, true_and]
  funext j
  by_cases here : j = k
  · subst here
    simp [fresh]
  · simp [here]

theorem forwardFields_rewrite (ks : List Nat) (unique : ks.Nodup) (h : Heap)
    (live : isFree h o = false) (target : isFree h y = false) :
    ∃ k, ks.foldlM (fun h k =>
        if (h.mem o).word k = x then objectSlotValueAtOffsetPut h o k y else .ok h) h = .ok k ∧
      Rewritten h k o ((h.mem o).redirectWords x y ks) := by
  induction ks generalizing h with
  | nil =>
    have same : (h.mem o).redirectWords x y [] = h.mem o := by
      simp only [Object.redirectWords, List.not_mem_nil, if_false]
    rw [same]
    exact ⟨h, rfl, .refl h o⟩
  | cons k ks ih =>
    obtain ⟨fresh, unique⟩ := List.nodup_cons.mp unique
    obtain ⟨h₁, run, first⟩ := forwardField_rewrites (k := k) (x := x) live target
    have free := first.isFree rfl
    obtain ⟨h₂, rest, second⟩ := ih unique h₁ ((free o).trans live) ((free y).trans target)
    rw [first.mem, if_pos rfl, redirectWords_cons fresh] at second
    refine ⟨h₂, ?_, first.trans second⟩
    rw [List.foldlM_cons, run]
    exact rest

theorem objectForwardPointersTo_rewrites (big : oopIsSmallint x = false)
    (live : isFree h o = false) (target : isFree h y = false) :
    ∃ k, objectForwardPointersTo h o x y = .ok k ∧
      Rewritten h k o ((h.mem o).rename (redirect x y)) := by
  obtain ⟨h₁, run, first⟩ := forwardMap_rewrites (x := x) live target
  have free := first.isFree rfl
  obtain ⟨h₂, rest, second⟩ := forwardFields_rewrite (x := x) (oopWords (h₁.mem o))
    (oopWords_nodup _) h₁ ((free o).trans live) ((free y).trans target)
  have renamed : (h₁.mem o).redirectWords x y (oopWords (h₁.mem o)) =
      (h.mem o).rename (redirect x y) := by
    rw [first.mem, if_pos rfl]
    simp only [Object.redirectWords, Object.rename, renameOop_redirect big]
    rfl
  rw [renamed] at second
  refine ⟨h₂, ?_, first.trans second⟩
  rw [objectForwardPointersTo, run]
  exact rest

end Object

section Walk

variable {h : Heap} {x y : Nat}

/-- The heap is `h` with the objects among `cs` redirected, up to the remembered set. -/
def Redirected (x y : Nat) (cs : List Nat) (h k : Heap) : Prop :=
  ∃ remembered, k = { renamed (redirect x y) cs h with rememberedOldObjects := remembered }

theorem Redirected.mem {cs : List Nat} {k : Heap} (r : Redirected x y cs h k) (a : Nat) :
    k.mem a = (renamed (redirect x y) cs h).mem a := by
  obtain ⟨remembered, rfl⟩ := r
  rfl

theorem Redirected.isFree {cs : List Nat} {k : Heap} (r : Redirected x y cs h k) (a : Nat) :
    isFree k a = isFree h a := by
  simp only [SlateVm.isFree, r.mem]
  exact renamed_isFree a

theorem Redirected.extent {cs : List Nat} {k : Heap} (r : Redirected x y cs h k) :
    extent k.mem = extent h.mem := by
  obtain ⟨remembered, rfl⟩ := r
  exact renamed_extent

theorem Redirected.skip {front : List Nat} {k : Heap} {c : Nat} (r : Redirected x y front h k)
    (free : SlateVm.isFree h c = true) : Redirected x y (front ++ [c]) h k := by
  obtain ⟨remembered, rfl⟩ := r
  refine ⟨remembered, ?_⟩
  simp only [renamed, Heap.mk.injEq, and_true]
  funext a
  by_cases same : a = c
  · subst same; simp [free]
  · simp [same]

theorem Redirected.step {front : List Nat} {k m : Heap} {c : Nat} (r : Redirected x y front h k)
    (fresh : c ∉ front) (live : SlateVm.isFree h c = false)
    (s : Rewritten k m c ((k.mem c).rename (redirect x y))) :
    Redirected x y (front ++ [c]) h m := by
  have cell : k.mem c = h.mem c := by rw [r.mem, renamed_other fresh]
  rw [cell] at s
  obtain ⟨remembered, rfl⟩ := r
  obtain ⟨remembered', rfl⟩ := s
  refine ⟨remembered', ?_⟩
  simp only [renamed, Heap.put, Heap.mk.injEq, and_true]
  funext a
  by_cases same : a = c
  · subst same; simp [live]
  · simp [same]

theorem heapForwardFrom_redirects {memory memorySize : Nat} (t : Tiled h.mem memory memorySize)
    (big : oopIsSmallint x = false) (target : isFree h y = false) :
    ∃ k, heapForwardFrom h x y memory memorySize = .ok k ∧
      Redirected x y (cellsOf h.mem memory memorySize) h k := by
  have step : ∀ front c back, cellsOf h.mem memory memorySize = front ++ c :: back →
      ∀ s, Redirected x y front h s →
        (∃ s', (if objectIsFree (s.mem c) then .ok s else objectForwardPointersTo s c x y) =
            .ok s' ∧ Redirected x y (front ++ [c]) h s' ∧
            objectAfter s' c = c + extent h.mem c) ∨
        ∃ e, (if objectIsFree (s.mem c) then .ok s else objectForwardPointersTo s c x y) =
          .error e ∧ False := by
    intro front c back split s done
    have fresh : c ∉ front := by
      have unique := t.tiles.nodup
      rw [split] at unique
      exact fun again => (List.nodup_middle.mp unique).notMem (List.mem_append_left _ again)
    have onward : ∀ s', Redirected x y (front ++ [c]) h s' →
        objectAfter s' c = c + extent h.mem c := fun s' next =>
      congrArg (c + ·) (congrFun next.extent c)
    refine Or.inl ?_
    cases free : SlateVm.isFree h c with
    | true =>
      have skip : objectIsFree (s.mem c) = true := (done.isFree c).trans free
      rw [if_pos skip]
      exact ⟨s, rfl, done.skip free, onward s (done.skip free)⟩
    | false =>
      have used : objectIsFree (s.mem c) = false := (done.isFree c).trans free
      obtain ⟨s', run, rewritten⟩ := objectForwardPointersTo_rewrites big
        ((done.isFree c).trans free) ((done.isFree y).trans target)
      rw [if_neg (Bool.eq_false_iff.mp used)]
      exact ⟨s', run, done.step fresh free rewritten, onward s' (done.step fresh free rewritten)⟩
  rcases overCellsE_invariant (I := fun front s => Redirected x y front h s) t.tiles
      (Nat.le_of_eq (Nat.add_sub_cancel_left ..)) (fun c lo hi => objectInMemory_iff.mpr ⟨lo, hi⟩)
      (by simp [objectInMemory]) step (s := h)
      ⟨h.rememberedOldObjects, by simp [renamed]⟩ with ⟨s, run, done⟩ | ⟨_, _, impossible⟩
  · exact ⟨s, run, done⟩
  · exact impossible.elim

theorem Redirected.append {cs ds : List Nat} {k m : Heap} (first : Redirected x y cs h k)
    (second : Redirected x y ds k m) (apart : ∀ a ∈ cs, a ∉ ds) :
    Redirected x y (cs ++ ds) h m := by
  obtain ⟨remembered, rfl⟩ := first
  obtain ⟨remembered', rfl⟩ := second
  refine ⟨remembered', ?_⟩
  simp only [renamed, Heap.mk.injEq, and_true]
  funext a
  by_cases here : a ∈ cs
  · simp [here, apart a here]
  · simp [here, SlateVm.isFree]

theorem Spaces.cells_apart (s : Spaces h) : ∀ a ∈ oldCells h, a ∉ youngCells h :=
  fun a old young => by
    have outside := s.young_not_old young
    rw [oldCells_isOld s.old old] at outside
    cases outside

def allCells (h : Heap) : List Nat := oldCells h ++ youngCells h

/-- A forwarding is done: the objects are redirected, and the cell of `x` is free. -/
structure Forwarded (x y : Nat) (h k : Heap) : Prop where
  mem : ∀ a, a ≠ x → k.mem a = (renamed (redirect x y) (allCells h) h).mem a
  freed : isFree k x = true
  extent : extent k.mem = SlateVm.extent h.mem
  bounds : bounds k = SlateVm.bounds h
  cached : k.cached = h.cached
  specials : k.specialObjectsOop = h.specialObjectsOop

theorem Redirected.free {k : Heap} (r : Redirected x y (allCells h) h k) :
    Forwarded x y h (heapFreeObject k x) := by
  have sizes := r.extent
  obtain ⟨remembered, rfl⟩ := r
  obtain ⟨remembered', shape, -⟩ := heapFreeObject_eq
    { renamed (redirect x y) (allCells h) h with rememberedOldObjects := remembered } x
  rw [shape]
  refine ⟨fun a other => by simp [heapMakeFreeSpace, other], ?_, ?_, rfl, rfl, rfl⟩
  · simp [SlateVm.isFree, heapMakeFreeSpace, objectIsFree, idHashFree, idHashReserved]
  · rw [← sizes]
    funext a
    by_cases here : a = x
    · subst here
      simp [SlateVm.extent, heapMakeFreeSpace, objectTotalSize, objectWordSize]
    · simp [SlateVm.extent, heapMakeFreeSpace, here]

theorem heapForward_forwards (s : Spaces h) (big : oopIsSmallint x = false)
    (target : isFree h y = false) :
    ∃ k, heapForward h x y = .ok k ∧ Forwarded x y h k := by
  obtain ⟨k, run, first⟩ := heapForwardFrom_redirects s.old big target
  have young : cellsOf k.mem h.memoryYoung h.memoryYoungSize = youngCells h := by
    rw [cellsOf, first.extent]
    rfl
  have bounds : k.memoryYoung = h.memoryYoung ∧ k.memoryYoungSize = h.memoryYoungSize := by
    obtain ⟨remembered, rfl⟩ := first
    exact ⟨rfl, rfl⟩
  have tiled : Tiled k.mem k.memoryYoung k.memoryYoungSize := by
    rw [bounds.1, bounds.2]
    exact s.young.congr fun c _ => congrFun first.extent c
  obtain ⟨m, rest, second⟩ := heapForwardFrom_redirects tiled big ((first.isFree y).trans target)
  rw [bounds.1, bounds.2, young] at second
  refine ⟨heapFreeObject m x, ?_, (first.append second s.cells_apart).free⟩
  rw [heapForward, run]
  show (heapForwardFrom k x y k.memoryYoung k.memoryYoungSize >>= _) = _
  rw [rest]
  rfl

theorem Forwarded.cells {k : Heap} (f : Forwarded x y h k) :
    oldCells k = oldCells h ∧ youngCells k = youngCells h := by
  have same := f.bounds
  simp only [SlateVm.bounds, Prod.mk.injEq] at same
  obtain ⟨old, oldSize, -, young, youngSize⟩ := same
  constructor
  · rw [oldCells, cellsOf, f.extent, old, oldSize]
    rfl
  · rw [youngCells, cellsOf, f.extent, young, youngSize]
    rfl

theorem Forwarded.live {k : Heap} (f : Forwarded x y h k) (a : Nat) :
    Live k a ↔ Live h a ∧ a ≠ x := by
  rw [Live, Live, f.cells.1, f.cells.2]
  by_cases here : a = x
  · subst here
    simp [f.freed]
  · have same : isFree k a = isFree h a := by
      rw [isFree, f.mem a here]
      exact renamed_isFree a
    simp [same, here]

theorem Forwarded.object {k : Heap} (f : Forwarded x y h k) {a : Nat} (live : Live h a)
    (other : a ≠ x) : k.mem a = (h.mem a).rename (redirect x y) := by
  rw [f.mem a other, renamed_mem, if_pos ⟨List.mem_append.mpr live.1, live.2⟩]

end Walk

end SlateVm
