import SlateVm.Heap.Layout

/-! The sweeping walks. Behind the walk a kept cell is as it was and every other
cell has gone into a free one; ahead of it nothing has changed. -/
namespace SlateVm
open Tiling

section Sizes

variable {h : Heap} {obj : Nat} {words : Nat}

@[simp] theorem heapMakeFreeSpace_hash :
    ((heapMakeFreeSpace h obj words).mem obj).hash = idHashFree := by simp [heapMakeFreeSpace]

@[simp] theorem heapMakeFreeSpace_free :
    objectIsFree ((heapMakeFreeSpace h obj words).mem obj) = true := by
  simp [heapMakeFreeSpace, objectIsFree, idHashFree, idHashReserved]

@[simp] theorem heapMakeFreeSpace_extent :
    extent (heapMakeFreeSpace h obj words).mem obj = words * sizeofWord := by
  simp [heapMakeFreeSpace, extent, objectTotalSize, objectWordSize]

theorem heapMakeFreeSpace_other {x : Nat} (ne : x ≠ obj) :
    (heapMakeFreeSpace h obj words).mem x = h.mem x := by
  simp [heapMakeFreeSpace, ne]

theorem heapFreeObject_mem (h : Heap) (obj : Nat) :
    (heapFreeObject h obj).mem = (heapMakeFreeSpace h obj (objectWordSize (h.mem obj))).mem := by
  unfold heapFreeObject
  split <;> rfl

theorem heapFreeObject_extent (h : Heap) (obj : Nat) :
    extent (heapFreeObject h obj).mem = extent h.mem := by
  funext x
  rw [heapFreeObject_mem]
  by_cases here : x = obj
  · subst here
    rw [heapMakeFreeSpace_extent, extent, objectTotalSize]
  · rw [extent, heapMakeFreeSpace_other here, extent]

end Sizes

/-- The cells before `p` are swept; `es` are the cells they have become. -/
structure Swept (mem₀ : Nat → Object) (keep : Nat → Bool) (cs : List Nat)
    (memory p : Nat) (mem : Nat → Object) (es : List Nat) : Prop where
  tiles : Tiles (extent mem) memory p es
  least : ∀ e ∈ es, minCell ≤ extent mem e
  origin : ∀ e ∈ es, e ∈ cs
  kept : ∀ e ∈ es, keep e = true → mem e = mem₀ e
  free : ∀ e ∈ es, keep e = false → objectIsFree (mem e) = true
  stays : ∀ c ∈ cs, c < p → keep c = true → c ∈ es
  goes : ∀ c ∈ cs, c < p → keep c = false →
    ∃ e ∈ es, keep e = false ∧ e ≤ c ∧ c + extent mem₀ c ≤ e + extent mem e
  untouched : ∀ x, x < memory ∨ p ≤ x → mem x = mem₀ x
  headers : ∀ x, mem x = mem₀ x ∨ (mem x).hash = idHashFree

namespace Swept

variable {mem₀ mem : Nat → Object} {keep : Nat → Bool} {cs es : List Nat} {memory p b : Nat}

theorem start (t : Tiles (extent mem₀) memory b cs) :
    Swept mem₀ keep cs memory memory mem₀ [] where
  tiles := .nil _
  least := by simp
  origin := by simp
  kept := by simp
  free := by simp
  stays c hc below := by have := (t.bounds c hc).1; omega
  goes c hc below := by have := (t.bounds c hc).1; omega
  untouched _ _ := rfl
  headers _ := Or.inl rfl

theorem push (w : Swept mem₀ keep cs memory p mem es) (t : Tiles (extent mem₀) memory b cs)
    (least : ∀ c ∈ cs, minCell ≤ extent mem₀ c) {mem' : Nat → Object} (here : p ∈ cs)
    (others : ∀ x, x ≠ p → mem' x = mem x) (same : extent mem' p = extent mem₀ p)
    (stay : keep p = true → mem' p = mem₀ p)
    (go : keep p = false → objectIsFree (mem' p) = true)
    (header : mem' p = mem₀ p ∨ (mem' p).hash = idHashFree) :
    Swept mem₀ keep cs memory (p + extent mem₀ p) mem' (es ++ [p]) := by
  have old : ∀ e ∈ es, mem' e = mem e := by
    intro e he
    have := (w.tiles.bounds e he).2
    exact others e (by omega)
  have size : ∀ e ∈ es, extent mem' e = extent mem e := by
    intro e he
    rw [extent, old e he, extent]
  have room := t.bounds p here
  have next : ∀ c ∈ cs, c < p + extent mem₀ p → c < p ∨ c = p := by
    intro c hc below
    by_cases eq : c = p
    · exact Or.inr eq
    · have apart := t.apart hc here eq
      omega
  have member : ∀ e ∈ es ++ [p], e ∈ es ∨ e = p := by simp
  refine ⟨?_, ?_, ?_, ?_, ?_, ?_, ?_, ?_, ?_⟩
  · refine (w.tiles.congr size).append ?_
    rw [← same]
    exact .single (by omega)
  · intro e he
    rcases member e he with he | rfl
    · rw [size e he]; exact w.least e he
    · rw [same]; exact least e here
  · intro e he
    rcases member e he with he | rfl
    · exact w.origin e he
    · exact here
  · intro e he ke
    rcases member e he with he | rfl
    · rw [old e he]; exact w.kept e he ke
    · exact stay ke
  · intro e he ke
    rcases member e he with he | rfl
    · rw [old e he]; exact w.free e he ke
    · exact go ke
  · intro c hc below kc
    rcases next c hc below with lt | rfl
    · exact List.mem_append_left _ (w.stays c hc lt kc)
    · simp
  · intro c hc below kc
    rcases next c hc below with lt | rfl
    · obtain ⟨e, he, ke, lo, hi⟩ := w.goes c hc lt kc
      exact ⟨e, List.mem_append_left _ he, ke, lo, by rw [size e he]; exact hi⟩
    · exact ⟨c, by simp, kc, Nat.le_refl _, by rw [same]⟩
  · intro x away
    rw [others x (by omega)]
    exact w.untouched x (by omega)
  · intro x
    by_cases at_p : x = p
    · subst at_p; exact header
    · rw [others x at_p]; exact w.headers x

theorem join {q : Nat} (w : Swept mem₀ keep cs memory p mem (es ++ [q, b]))
    {mem' : Nat → Object} (others : ∀ x, x ≠ q → mem' x = mem x)
    (grown : extent mem' q = extent mem q + extent mem b)
    (stamp : (mem' q).hash = idHashFree) (kq : keep q = false) (kb : keep b = false) :
    Swept mem₀ keep cs memory p mem' (es ++ [q]) := by
  have free : objectIsFree (mem' q) = true := by
    simp [objectIsFree, stamp, idHashFree, idHashReserved]
  have cut : es ++ [q, b] = (es ++ [q]) ++ b :: [] := by simp
  obtain ⟨front, pos, _⟩ := (cut ▸ w.tiles).cut
  have ends : b + extent mem b = p := (cut ▸ w.tiles).last
  obtain ⟨before, qpos, _⟩ := front.cut
  have meets := front.last
  have old : ∀ e ∈ es, mem' e = mem e := by
    intro e he
    have := before.bounds e he
    exact others e (by omega)
  have size : ∀ e ∈ es, extent mem' e = extent mem e := by
    intro e he
    rw [extent, old e he, extent]
  have sub : ∀ e ∈ es, e ∈ es ++ [q, b] := fun e he => List.mem_append_left _ he
  have hq : q ∈ es ++ [q, b] := by simp
  have member : ∀ e ∈ es ++ [q], e ∈ es ∨ e = q := by simp
  refine ⟨?_, ?_, ?_, ?_, ?_, ?_, ?_, ?_, ?_⟩
  · rw [← ends]
    exact front.merge pos grown size
  · intro e he
    rcases member e he with he | rfl
    · rw [size e he]; exact w.least e (sub e he)
    · rw [grown]; exact Nat.le_add_right_of_le (w.least e hq)
  · intro e he
    rcases member e he with he | rfl
    · exact w.origin e (sub e he)
    · exact w.origin e hq
  · intro e he ke
    rcases member e he with he | rfl
    · rw [old e he]; exact w.kept e (sub e he) ke
    · rw [kq] at ke; cases ke
  · intro e he ke
    rcases member e he with he | rfl
    · rw [old e he]; exact w.free e (sub e he) ke
    · exact free
  · intro c hc below kc
    have hc' := w.stays c hc below kc
    have nq : c ≠ q := by rintro rfl; rw [kq] at kc; cases kc
    have nb : c ≠ b := by rintro rfl; rw [kb] at kc; cases kc
    simpa [nq, nb] using hc'
  · intro c hc below kc
    obtain ⟨e, he, ke, lo, hi⟩ := w.goes c hc below kc
    have third : e ∈ es ∨ e = q ∨ e = b := by simpa using he
    rcases third with he | rfl | rfl
    · exact ⟨e, List.mem_append_left _ he, ke, lo, by rw [size e he]; exact hi⟩
    · exact ⟨e, by simp, ke, lo, by rw [grown]; omega⟩
    · exact ⟨q, by simp, kq, by omega, by rw [grown]; omega⟩
  · intro x away
    have := before.le
    rw [others x (by omega)]
    exact w.untouched x away
  · intro x
    by_cases at_q : x = q
    · subst at_q; exact Or.inr stamp
    · rw [others x at_q]; exact w.headers x

end Swept

/-- `prev` is the last swept cell, or the first cell when none is swept yet. -/
def LastSwept (memory : Nat) (es : List Nat) (prev : Nat) : Prop :=
  (es = [] ∧ prev = memory) ∨ ∃ front, es = front ++ [prev]

theorem coalesce_swept {mem₀ : Nat → Object} {keep : Nat → Bool} {cs es : List Nat}
    {memory p b : Nat} {s s₁ : Sweep} (w : Swept mem₀ keep cs memory p s.heap.mem es)
    (last : LastSwept memory es s.prev) (t : Tiles (extent mem₀) memory b cs)
    (least : ∀ c ∈ cs, minCell ≤ extent mem₀ c) (here : p ∈ cs)
    (live : ∀ c, keep c = true → objectIsFree (mem₀ c) = false)
    (prev : s₁.prev = s.prev) (others : ∀ x, x ≠ p → s₁.heap.mem x = s.heap.mem x)
    (same : extent s₁.heap.mem p = extent mem₀ p)
    (stay : keep p = true → s₁.heap.mem p = mem₀ p)
    (go : keep p = false → objectIsFree (s₁.heap.mem p) = true)
    (header : s₁.heap.mem p = mem₀ p ∨ (s₁.heap.mem p).hash = idHashFree) :
    ∃ es', Swept mem₀ keep cs memory (p + extent mem₀ p) (coalesce s₁ p).heap.mem es' ∧
      LastSwept memory es' (coalesce s₁ p).prev ∧
      objectAfter (coalesce s₁ p).heap (coalesce s₁ p).prev = p + extent mem₀ p := by
  have pushed := w.push t least here others same stay go header
  have freeKeep : ∀ e ∈ es ++ [p], objectIsFree (s₁.heap.mem e) = true → keep e = false := by
    intro e he fe
    cases ke : keep e with
    | false => rfl
    | true => rw [pushed.kept e he ke, live e ke] at fe; cases fe
  by_cases joins : (objectIsFree (s₁.heap.mem p) && objectIsFree (s₁.heap.mem s₁.prev) &&
      p != s₁.prev) = true
  · have parts := joins
    simp only [Bool.and_eq_true, bne_iff_ne, ne_eq] at parts
    obtain ⟨⟨fp, fq⟩, apart⟩ := parts
    rcases last with ⟨none, first⟩ | ⟨front, some⟩
    · subst none
      have start : memory = p := by cases w.tiles; rfl
      exact absurd (start.symm.trans (first.symm.trans prev.symm)) apart
    · rw [← prev] at some
      subst some
      let words := objectWordSize (s₁.heap.mem p) + objectWordSize (s₁.heap.mem s₁.prev)
      have done : coalesce s₁ p = { s₁ with heap := heapMakeFreeSpace s₁.heap s₁.prev words } :=
        if_pos joins
      have grown : extent (coalesce s₁ p).heap.mem s₁.prev =
          extent s₁.heap.mem s₁.prev + extent s₁.heap.mem p := by
        rw [done, heapMakeFreeSpace_extent, extent, extent, objectTotalSize, objectTotalSize,
          Nat.add_mul, Nat.add_comm]
      have both : (front ++ [s₁.prev]) ++ [p] = front ++ [s₁.prev, p] := by simp
      rw [both] at pushed freeKeep
      have joined := pushed.join
        (fun x ne => by rw [done]; exact heapMakeFreeSpace_other ne) grown
        (by rw [done]; exact heapMakeFreeSpace_hash)
        (freeKeep _ (by simp) fq) (freeKeep _ (by simp) fp)
      have keeps : (coalesce s₁ p).prev = s₁.prev := by rw [done]
      refine ⟨_, joined, Or.inr ⟨front, by rw [keeps]⟩, ?_⟩
      rw [keeps]
      exact joined.tiles.last
  · have done : coalesce s₁ p = { s₁ with prev := p } := if_neg joins
    rw [done]
    exact ⟨_, pushed, Or.inr ⟨es, rfl⟩, by rw [objectAfter, ← same]; rfl⟩

def survives (h : Heap) (c : Nat) : Bool := !objectIsFree (h.mem c) && objectIsMarked h c

theorem survives_live {h : Heap} {c : Nat} (k : survives h c = true) :
    objectIsFree (h.mem c) = false := by
  simp only [survives, Bool.and_eq_true, Bool.not_eq_true'] at k
  exact k.1

def dies (h : Heap) (c : Nat) : Bool := !objectIsFree (h.mem c) && !objectIsMarked h c

/-- A dead old object is freed before `p`, and leaves the remembered set. -/
def forgotten (h : Heap) (memory memorySize p x : Nat) : Prop :=
  x ∈ cellsOf h.mem memory memorySize ∧ x < p ∧ objectIsOld h x = true ∧ dies h x = true

structure Sweeping (h : Heap) (memory memorySize p : Nat) (s : Sweep) : Prop where
  swept : ∃ es, Swept h.mem (survives h) (cellsOf h.mem memory memorySize) memory p s.heap.mem es ∧
    LastSwept memory es s.prev
  rest : s.heap = { h with
    mem := s.heap.mem, rememberedOldObjects := s.heap.rememberedOldObjects }
  remembered : ∀ x, x ∈ s.heap.rememberedOldObjects ↔
    x ∈ h.rememberedOldObjects ∧ ¬forgotten h memory memorySize p x

section Rounds

variable (s : Sweep) (obj : Nat)

theorem freeUnmarked_heap : (freeUnmarked s obj).heap =
    if dies s.heap obj then heapFreeObject s.heap obj else s.heap := by
  unfold freeUnmarked dies
  dsimp only
  split <;> rfl

theorem freeUnmarked_prev : (freeUnmarked s obj).prev = s.prev := by
  unfold freeUnmarked
  dsimp only
  split <;> rfl

theorem freeUnmarked_extent : extent (freeUnmarked s obj).heap.mem = extent s.heap.mem := by
  rw [freeUnmarked_heap]
  split
  · exact heapFreeObject_extent ..
  · rfl

theorem freeUnmarked_other {x : Nat} (ne : x ≠ obj) :
    (freeUnmarked s obj).heap.mem x = s.heap.mem x := by
  rw [freeUnmarked_heap]
  split
  · rw [heapFreeObject_mem, heapMakeFreeSpace_other ne]
  · rfl

theorem freeUnmarked_stays (k : survives s.heap obj = true) :
    (freeUnmarked s obj).heap.mem obj = s.heap.mem obj := by
  rw [freeUnmarked_heap, if_neg]
  simp only [survives, dies, Bool.and_eq_true, Bool.not_eq_true'] at k ⊢
  simp [k.2]

theorem freeUnmarked_goes (k : survives s.heap obj = false) :
    objectIsFree ((freeUnmarked s obj).heap.mem obj) = true := by
  rw [freeUnmarked_heap]
  split
  · rw [heapFreeObject_mem, heapMakeFreeSpace_free]
  · rename_i alive
    simp only [survives, dies, Bool.and_eq_true, Bool.not_eq_true', Bool.and_eq_false_iff] at k alive
    cases free : objectIsFree (s.heap.mem obj) with
    | true => rfl
    | false => simp_all

theorem freeUnmarked_header : (freeUnmarked s obj).heap.mem obj = s.heap.mem obj ∨
    ((freeUnmarked s obj).heap.mem obj).hash = idHashFree := by
  rw [freeUnmarked_heap]
  split
  · rw [heapFreeObject_mem]; exact Or.inr heapMakeFreeSpace_hash
  · exact Or.inl rfl

theorem freeUnmarked_rest : (freeUnmarked s obj).heap = { s.heap with
    mem := (freeUnmarked s obj).heap.mem
    rememberedOldObjects := if objectIsOld s.heap obj && dies s.heap obj then
      s.heap.rememberedOldObjects.erase obj else s.heap.rememberedOldObjects } := by
  rw [freeUnmarked_heap]
  cases old : objectIsOld s.heap obj <;> cases dead : dies s.heap obj <;>
    simp [heapFreeObject, heapMakeFreeSpace, Heap.put, old]

theorem coalesce_rest : (coalesce s obj).heap = { s.heap with
    mem := (coalesce s obj).heap.mem } := by
  unfold coalesce
  split <;> rfl

end Rounds

theorem Sweeping.round {h : Heap} {memory memorySize p : Nat} {s : Sweep}
    (t : Tiled h.mem memory memorySize) (here : p ∈ cellsOf h.mem memory memorySize)
    (w : Sweeping h memory memorySize p s) :
    Sweeping h memory memorySize (p + extent h.mem p) (coalesce (freeUnmarked s p) p) ∧
      objectAfter (coalesce (freeUnmarked s p) p).heap (coalesce (freeUnmarked s p) p).prev =
        p + extent h.mem p := by
  obtain ⟨es, swept, last⟩ := w.swept
  have cell : s.heap.mem p = h.mem p := swept.untouched p (Or.inr (Nat.le_refl _))
  have color : s.heap.markColor = h.markColor := by rw [w.rest]
  have marked : survives s.heap p = survives h p := by
    simp only [survives, objectIsMarked, cell, color]
  have dead : dies s.heap p = dies h p := by simp only [dies, objectIsMarked, cell, color]
  have old : objectIsOld s.heap p = objectIsOld h p := by rw [w.rest]; rfl
  have before := freeUnmarked_extent s p
  obtain ⟨es', swept', last', onward⟩ := coalesce_swept swept last t.tiles t.least here
    (fun c => survives_live) (freeUnmarked_prev s p) (fun x => freeUnmarked_other s p)
    (by rw [before, extent, cell, extent])
    (fun k => by rw [freeUnmarked_stays s p (marked.trans k), cell])
    (fun k => freeUnmarked_goes s p (marked.trans k)) (cell ▸ freeUnmarked_header s p)
  refine ⟨⟨⟨es', swept', last'⟩, ?_, fun x => ?_⟩, onward⟩
  · rw [coalesce_rest, freeUnmarked_rest, w.rest]
  · have room := (t.tiles.bounds p here).2.2
    have split : forgotten h memory memorySize (p + extent h.mem p) x ↔
        forgotten h memory memorySize p x ∨ x = p ∧ objectIsOld h p = true ∧ dies h p = true := by
      constructor
      · rintro ⟨hx, below, gone⟩
        by_cases same : x = p
        · subst same; exact Or.inr ⟨rfl, gone⟩
        · have := t.tiles.apart hx here same
          exact Or.inl ⟨hx, by omega, gone⟩
      · rintro (⟨hx, below, gone⟩ | ⟨rfl, gone⟩)
        · exact ⟨hx, by omega, gone⟩
        · exact ⟨here, by omega, gone⟩
    rw [coalesce_rest, freeUnmarked_rest, split, not_or, ← and_assoc, ← w.remembered x, old, dead]
    by_cases same : x = p
    · subst same
      cases objectIsOld h x <;> cases dies h x <;> simp
    · cases objectIsOld h p <;> cases dies h p <;> simp [same]

theorem heapFreeAndCoalesceUnmarked_spec {h : Heap} {memory memorySize : Nat}
    (t : Tiled h.mem memory memorySize) :
    ∃ mem remembered flag, heapFreeAndCoalesceUnmarked h memory memorySize = { h with
        mem := mem, rememberedOldObjects := remembered, doFullGCNext := flag } ∧
      Swept h.mem (survives h) (cellsOf h.mem memory memorySize) memory (memory + memorySize)
        mem (cellsOf mem memory memorySize) ∧
      ∀ x, x ∈ remembered ↔ x ∈ h.rememberedOldObjects ∧
        ¬forgotten h memory memorySize (memory + memorySize) x := by
  have start : Sweeping h memory memorySize memory ⟨h, memory, 0, 0⟩ :=
    ⟨⟨[], .start t.tiles, Or.inl ⟨rfl, rfl⟩⟩, rfl, fun x => by
      refine ⟨fun hx => ⟨hx, fun gone => ?_⟩, fun hx => hx.1⟩
      have := (t.tiles.bounds x gone.1).1
      have := gone.2.1
      omega⟩
  have done : Sweeping h memory memorySize (memory + memorySize)
      (sweepCells (fun s obj => coalesce (freeUnmarked s obj) obj) h memory memorySize) :=
    overCells_invariant (I := Sweeping h memory memorySize) t.tiles (by omega)
      (fun c lo hi => objectInMemory_iff.mpr ⟨lo, hi⟩) (by simp [objectInMemory])
      (fun c hc s w => w.round t hc) start
  unfold heapFreeAndCoalesceUnmarked
  generalize sweepCells _ h memory memorySize = s at done
  obtain ⟨es, swept, _⟩ := done.swept
  rw [← cellsOf_eq swept.tiles] at swept
  have outcome : ∃ flag, (if memory = s.heap.memoryOld ∧
      (s.freeCount = 0 ∨ 2 < s.objectCount / s.freeCount) then
        { s.heap with doFullGCNext := true } else s.heap) =
      { s.heap with doFullGCNext := flag } := by
    split
    · exact ⟨true, rfl⟩
    · exact ⟨_, rfl⟩
  obtain ⟨flag, outcome⟩ := outcome
  refine ⟨_, _, flag, outcome.trans ?_, swept, done.remembered⟩
  rw [done.rest]

theorem coalesce_spec (h : Heap) {memory memorySize : Nat} (t : Tiled h.mem memory memorySize) :
    ∃ mem, (sweepCells coalesce h memory memorySize).heap = { h with mem := mem } ∧
      Swept h.mem (fun c => !objectIsFree (h.mem c)) (cellsOf h.mem memory memorySize) memory
        (memory + memorySize) mem (cellsOf mem memory memorySize) := by
  let keep := fun c => !objectIsFree (h.mem c)
  let I := fun p (s : Sweep) => s.heap = { h with mem := s.heap.mem } ∧ ∃ es,
    Swept h.mem keep (cellsOf h.mem memory memorySize) memory p s.heap.mem es ∧
      LastSwept memory es s.prev
  have step : ∀ c ∈ cellsOf h.mem memory memorySize, ∀ s, I c s →
      I (c + extent h.mem c) (coalesce s c) ∧
        objectAfter (coalesce s c).heap (coalesce s c).prev = c + extent h.mem c := by
    rintro c hc s ⟨rest, es, swept, last⟩
    have cell := swept.untouched c (Or.inr (Nat.le_refl _))
    obtain ⟨es', swept', last', onward⟩ := coalesce_swept swept last t.tiles t.least hc
      (fun c k => by simpa [keep] using k) rfl (fun _ _ => rfl) (by rw [extent, cell, extent])
      (fun _ => cell) (fun k => by rw [cell]; simpa [keep] using k) (Or.inl cell)
    refine ⟨⟨?_, es', swept', last'⟩, onward⟩
    rw [coalesce_rest, rest]
  have done : I (memory + memorySize) (sweepCells coalesce h memory memorySize) :=
    overCells_invariant t.tiles (by omega) (fun c lo hi => objectInMemory_iff.mpr ⟨lo, hi⟩)
      (by simp [objectInMemory]) step ⟨rfl, [], .start t.tiles, Or.inl ⟨rfl, rfl⟩⟩
  obtain ⟨rest, es, swept, _⟩ := done
  rw [← cellsOf_eq swept.tiles] at swept
  exact ⟨_, rest, swept⟩

end SlateVm
