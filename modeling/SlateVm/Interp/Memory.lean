import SlateVm.Interp.Store
import SlateVm.Lib.Trace

/-! The operations of the object memory keep the old objects that point at young ones
remembered, and so does any program made of them and of stores. -/
namespace SlateVm
open Tiling Steps

section Ops

variable {h k : Heap}

theorem heapFreeObject_guarded (s : Sound h) (g : Guarded [] h) (obj : Nat) :
    Guarded [] (heapFreeObject h obj) := by
  obtain ⟨remembered, shape, kept⟩ := heapFreeObject_eq h obj
  have cells := heapFreeObject_oldCells s.toSpaces obj
  refine ⟨?_, fun a hash => ?_, fun o ho live points => ?_⟩
  · rw [shape]; exact g.aligned
  · rw [shape] at hash ⊢
    by_cases here : a = obj
    · subst here
      simp [heapMakeFreeSpace, idHashFree, idHashForwarded, idHashReserved] at hash
    · have unchanged : (heapMakeFreeSpace { h with rememberedOldObjects := remembered } obj
          (objectWordSize (h.mem obj))).mem a = h.mem a := by simp [heapMakeFreeSpace, here]
      rw [unchanged] at hash ⊢
      exact g.forwards a hash
  · have ne : o ≠ obj := by
      rintro rfl
      rw [shape] at live
      simp [isFree, heapMakeFreeSpace, objectIsFree, idHashFree, idHashReserved] at live
    have unchanged : (heapFreeObject h obj).mem o = h.mem o := by
      rw [shape]; simp [heapMakeFreeSpace, ne]
    rw [cells] at ho
    have before : pointsToYoung h o = true := by
      rw [← points]
      simp only [pointsToYoung, unchanged]
      rw [shape]
      rfl
    have used : isFree h o = false := by rw [← live]; simp only [isFree, unchanged]
    refine Or.inl ?_
    rw [shape]
    exact kept o ((g.barrier o ho used before).resolve_right List.not_mem_nil) ne

theorem Allocated.guarded {g : Heap} {obj : Nat} (a : Allocated h g obj) (guarded : Guarded [] h) :
    Guarded [obj] g := by
  obtain ⟨k, _, _, fresh, kept⟩ := a
  exact fresh.guarded (kept guarded)

theorem Guarded.spare {obj : Nat} (g : Guarded [obj] h)
    (quiet : objectIsYoung h obj = true ∨ pointsToYoung h obj = false) (s : Sound h) :
    Guarded [] h := by
  refine ⟨g.aligned, g.forwards, fun o ho live points => (g.barrier o ho live points).imp id ?_⟩
  intro new
  rw [List.mem_singleton.mp new] at points ho
  rcases quiet with young | none
  · rw [s.not_both (oldCells_isOld s.old ho)] at young
    cases young
  · rw [none] at points; cases points

theorem HeapOp.guarded (s : Sound h) (g : Guarded [] h) {op : HeapOp} {new : Option Nat}
    (called : op.Called h) (fits : op.Fits h) (own : ∀ o map word, op ≠ .overwrite o map word)
    (run : op.run h = .ok (k, new)) : Guarded new.toList k := by
  have silent : ∀ r : Except Halt Heap, (r.map fun m => (m, (none : Option Nat))) = .ok (k, new) →
      r = .ok k ∧ new = none := by
    intro r done
    cases r with
    | error e => cases done
    | ok m =>
      cases done
      exact ⟨rfl, rfl⟩
  have allocating : ∀ r : Except Halt (Heap × Nat),
      (r.map fun m => (m.1, some m.2)) ≠ .ok (k, none) := by
    intro r done
    cases r with
    | error e => cases done
    | ok m => cases done
  rcases HeapOp.lands s called fits with ⟨m, made, done, -, allocated⟩ | fails
  swap
  · rw [fails] at run; cases run
  cases done.symm.trans run
  cases new with
  | some obj => exact (allocated obj rfl).guarded g
  | none =>
    cases op with
    | heapFreeObject obj =>
      simp only [HeapOp.run, Except.ok.injEq, Prod.mk.injEq] at run
      obtain ⟨rfl, -⟩ := run
      exact heapFreeObject_guarded s g obj
    | heapForward x y =>
      obtain ⟨forwarded, -⟩ := silent _ run
      rcases heapForward_spec s x y with ⟨m, done, stored⟩ | fails
      · cases done.symm.trans forwarded
        exact heapFreeObject_guarded (s.outline stored.1) (stored.2.2 s.toSpaces g) x
      · rw [fails] at forwarded; cases forwarded
    | heapGc =>
      simp only [HeapOp.run, Except.ok.injEq, Prod.mk.injEq] at run
      obtain ⟨rfl, -⟩ := run
      exact (heapGc_collected s).guarded g
    | heapFullGc =>
      obtain ⟨collected, -⟩ := silent _ run
      rcases heapFullGc_collected s with ⟨m, done, kept⟩ | fails
      · cases done.symm.trans collected
        exact kept.guarded g
      · rw [fails] at collected; cases collected
    | heapPinObject x =>
      obtain ⟨pinned, -⟩ := silent _ run
      cases even : oopIsSmallint x with
      | true =>
        rw [SlateVm.heapPinObject, if_pos even] at pinned
        cases pinned
        exact g
      | false =>
        rcases heapPinObject_spec (h := h) even with done | fails
        · cases done.symm.trans pinned
          exact g.withPins
        · rw [fails] at pinned; cases pinned
    | heapUnpinObject x =>
      simp only [HeapOp.run, Except.ok.injEq, Prod.mk.injEq] at run
      obtain ⟨rfl, -⟩ := run
      cases even : oopIsSmallint x with
      | true =>
        rw [SlateVm.heapUnpinObject, if_pos even]
        exact g
      | false =>
        rw [heapUnpinObject_eq even]
        exact g.withPins
    | overwrite o map word => exact absurd rfl (own o map word)
    | gcAllocate bytes => exact absurd run (allocating _)
    | gcAllocateOld bytes => exact absurd run (allocating _)
    | heapAllocateWithPayload words payloadSize => exact absurd run (allocating _)
    | heapClone proto => exact absurd run (allocating _)
    | heapCloneOopArraySized proto size => exact absurd run (allocating _)
    | heapCloneByteArraySized proto bytes => exact absurd run (allocating _)

end Ops

section Stamp

variable {h : Heap} {obj type : Nat}

def stamp (h : Heap) (obj type : Nat) : Heap := heapSetNewHash (objectSetFormat h obj type) obj

theorem stamp_eq (h : Heap) (obj type : Nat) : stamp h obj type =
    { h with lastHash := (heapNewHash (objectSetFormat h obj type)).2.lastHash }.put obj
      { h.mem obj with format := type, hash := (heapNewHash (objectSetFormat h obj type)).1 } := by
  simp only [stamp, heapSetNewHash, objectSetFormat, heapNewHash, Heap.put, Heap.mk.injEq, and_true]
  funext a
  by_cases here : a = obj
  · subst here; simp
  · simp [here]

theorem stamp_isFree : isFree (stamp h obj type) obj = false := by
  have hash := heapNewHash_lt (objectSetFormat h obj type)
  rw [stamp_eq]
  simpa [isFree, objectIsFree] using hash

theorem stamp_mem {a : Nat} (other : a ≠ obj) : (stamp h obj type).mem a = h.mem a := by
  rw [stamp_eq]
  simp [other]

theorem stamp_extent
    (size : objectTotalSize { h.mem obj with format := type } = objectTotalSize (h.mem obj)) :
    extent (stamp h obj type).mem = extent h.mem := by
  funext a
  by_cases here : a = obj
  · subst here
    rw [stamp_eq]
    simp only [extent, put_mem, if_true]
    exact size
  · simp only [extent, stamp_mem here]

theorem stamp_sound (s : Sound h) (live : isFree h obj = false)
    (size : objectTotalSize { h.mem obj with format := type } = objectTotalSize (h.mem obj)) :
    Sound (stamp h obj type) := by
  refine s.reshape (stamp_extent size) (fun a free => ?_) (by rw [stamp_eq]; rfl)
    ⟨by rw [stamp_eq]; rfl, by rw [stamp_eq]; rfl⟩
  have other : a ≠ obj := by
    rintro rfl
    rw [live] at free; cases free
  simpa only [isFree, stamp_mem other] using free

theorem stamp_guarded (s : Sound h) (g : Guarded [] h) (live : isFree h obj = false)
    (size : objectTotalSize { h.mem obj with format := type } = objectTotalSize (h.mem obj)) :
    Guarded [obj] (stamp h obj type) := by
  have cells : oldCells (stamp h obj type) = oldCells h := by
    have bounds : (stamp h obj type).memoryOld = h.memoryOld ∧
        (stamp h obj type).memoryOldSize = h.memoryOldSize := by
      rw [stamp_eq]
      exact ⟨rfl, rfl⟩
    rw [oldCells, bounds.1, bounds.2]
    exact cellsOf_congr s.old fun c _ => congrFun (stamp_extent size) c
  have range : ∀ a, objectIsYoung (stamp h obj type) a = objectIsYoung h a := by
    intro a
    rw [stamp_eq]
    rfl
  have known : (stamp h obj type).rememberedOldObjects = h.rememberedOldObjects := by
    rw [stamp_eq]
    rfl
  refine ⟨?_, fun a hash => ?_, fun o ho used points => ?_⟩
  · rw [stamp_eq]
    exact g.aligned
  · have other : a ≠ obj := by
      rintro rfl
      have free := @stamp_isFree h a type
      simp [isFree, objectIsFree, hash, idHashForwarded] at free
    rw [stamp_mem other] at hash ⊢
    rw [range]
    exact g.forwards a hash
  · by_cases here : o = obj
    · exact Or.inr (by simp [here])
    · rw [cells] at ho
      have used' : isFree h o = false := by simpa only [isFree, stamp_mem here] using used
      have before : pointsToYoung h o = true := by
        simpa only [pointsToYoung, stamp_mem here, range] using points
      rw [known]
      exact Or.inl ((g.barrier o ho used' before).resolve_right List.not_mem_nil)

end Stamp

def Remembers (h : Heap) : Prop :=
  ∀ o ∈ oldCells h, isFree h o = false → ∀ v ∈ pointers h o, objectIsYoung h v = true →
    isFree h v = false → o ∈ h.rememberedOldObjects

theorem Guarded.remembers {h : Heap} (g : Guarded [] h) : Remembers h :=
  fun o ho live v hv young _ =>
    (g.barrier o ho live (pointsToYoung_exists.mpr ⟨v, hv, young⟩)).resolve_right List.not_mem_nil

/-- What a program reports: the operations it calls, which may collect, the objects they
make, and its stores. -/
inductive Event where
  | memory (h : Heap) (op : HeapOp)
  | made (h : Heap) (obj : Nat)
  | stored (h : Heap) (c : Cmd)
  | stamped (h : Heap) (obj type : Nat)

/-- Callers keep to the layout of objects, bare stores are quiet, and a copy that had to be
made in old space holds no young pointer. -/
def Event.Fit : Event → Prop
  | .memory h op => op.Called h ∧ op.Fits h ∧ ∀ o map word, op ≠ .overwrite o map word
  | .made h obj => objectIsYoung h obj = true ∨ pointsToYoung h obj = false
  | .stored h c => c.Called h ∧ c.Fits h
  | .stamped h obj type => isFree h obj = false ∧
    objectTotalSize { h.mem obj with format := type } = objectTotalSize (h.mem obj)

def Event.Good : Event → Prop
  | .memory h _ => Remembers h
  | _ => True

abbrev Vm (α : Type) : Type := Trace.Kept (fun h => Sound h ∧ Guarded [] h) Event.Fit Event.Good Halt α

namespace Vm

def read {α : Type} (f : Heap → α) : Vm α := Trace.Kept.read f

def assert (holds : Bool) : Vm Unit := if holds then pure () else Trace.Kept.stop .assertFailed

def memory (op : HeapOp) : Vm (Option Nat) where
  run h := match op.run h with
    | .ok (g, none) => ⟨[.memory h op], g, .ok none⟩
    | .ok (g, some obj) => ⟨[.memory h op, .made g obj], g, .ok (some obj)⟩
    | .error e => ⟨[.memory h op], h, .error e⟩
  keeps := by
    intro h ⟨sound, guarded⟩ fits
    cases run : op.run h with
    | error e =>
      simp only [run] at fits ⊢
      refine ⟨fun e he => ?_, fun a done => nomatch done⟩
      rw [List.mem_singleton.mp he]
      exact guarded.remembers
    | ok r =>
      obtain ⟨g, new⟩ := r
      have sounds : (Event.memory h op).Fit → Sound g := fun here => by
        rcases HeapOp.lands sound here.1 here.2.1 with ⟨m, made, done, sound, -⟩ | fails
        · cases done.symm.trans run
          exact sound
        · rw [fails] at run; cases run
      cases new with
      | none =>
        simp only [run] at fits ⊢
        have here : (Event.memory h op).Fit := fits _ (List.mem_singleton_self _)
        refine ⟨fun e he => ?_, fun a _ => ⟨sounds here,
          HeapOp.guarded sound guarded here.1 here.2.1 here.2.2 run⟩⟩
        rw [List.mem_singleton.mp he]
        exact guarded.remembers
      | some obj =>
        simp only [run] at fits ⊢
        have here : (Event.memory h op).Fit := fits _ (by simp)
        have made : (Event.made g obj).Fit := fits _ (by simp)
        have new := HeapOp.guarded sound guarded here.1 here.2.1 here.2.2 run
        refine ⟨fun e he => ?_, fun a _ => ⟨sounds here, new.spare made (sounds here)⟩⟩
        rcases List.mem_cons.mp he with rfl | he
        · exact guarded.remembers
        · rw [List.mem_singleton.mp he]
          trivial

def cmd (c : Cmd) : Vm Unit where
  run h := match c.run h with
    | .ok g => ⟨[.stored h c], g, .ok ()⟩
    | .error e => ⟨[.stored h c], h, .error e⟩
  keeps := by
    intro h ⟨sound, guarded⟩ fits
    cases run : c.run h with
    | error e =>
      simp only [run] at fits ⊢
      refine ⟨fun e he => ?_, fun a done => nomatch done⟩
      rw [List.mem_singleton.mp he]
      trivial
    | ok g =>
      simp only [run] at fits ⊢
      have here : (Event.stored h c).Fit := fits _ (List.mem_singleton_self _)
      refine ⟨fun e he => ?_, fun a _ => c.keeps sound guarded here.1 here.2 run⟩
      rw [List.mem_singleton.mp he]
      trivial

def stamp (obj type : Nat) : Vm Unit where
  run h := ⟨[.stamped h obj type, .made (SlateVm.stamp h obj type) obj],
    SlateVm.stamp h obj type, .ok ()⟩
  keeps := by
    intro h ⟨sound, guarded⟩ fits
    have here : (Event.stamped h obj type).Fit := fits _ (by simp)
    have made : (Event.made (SlateVm.stamp h obj type) obj).Fit := fits _ (by simp)
    have after := stamp_sound sound here.1 here.2
    refine ⟨fun e he => ?_, fun _ _ =>
      ⟨after, (stamp_guarded sound guarded here.1 here.2).spare made after⟩⟩
    rcases List.mem_cons.mp he with rfl | he
    · trivial
    · rw [List.mem_singleton.mp he]
      trivial

def allocate (op : HeapOp) : Vm Nat := do
  return (← memory op).getD 0

def stores (cmds : Heap → List Cmd) : Vm Unit := do
  (← read cmds).forM cmd

/-- `Pinned<T>` around a block: its destructor takes the pin back. -/
def pinned {α : Type} (x : Nat) (body : Vm α) : Vm α := do
  let _ ← memory (.heapPinObject x)
  let result ← body
  let _ ← memory (.heapUnpinObject x)
  return result

end Vm

end SlateVm
