import SlateVm.Heap.Young

/-! Redirecting pointers to moved objects. Updating an object renames its oops. -/
namespace SlateVm
open Tiling

def renameOop (φ : Nat → Nat) (v : Nat) : Nat := if oopIsSmallint v then v else φ v

def Object.rename (φ : Nat → Nat) (o : Object) : Object :=
  { o with
    map := φ o.map
    word := fun k => if k ∈ oopWords o then renameOop φ (o.word k) else o.word k }

section Rename

variable (φ : Nat → Nat) (o : Object)

@[simp] theorem rename_hash : (o.rename φ).hash = o.hash := rfl
@[simp] theorem rename_map : (o.rename φ).map = φ o.map := rfl
@[simp] theorem rename_free : objectIsFree (o.rename φ) = objectIsFree o := rfl
@[simp] theorem rename_oopWords : oopWords (o.rename φ) = oopWords o := rfl
@[simp] theorem rename_totalSize : objectTotalSize (o.rename φ) = objectTotalSize o := rfl

theorem rename_oopFields : oopFields (o.rename φ) = (oopFields o).map (renameOop φ) := by
  simp only [oopFields, rename_oopWords, List.map_map]
  refine List.map_congr_left fun k hk => ?_
  simp [Object.rename, hk]

end Rename

def Resolves (h : Heap) (φ : Nat → Nat) (v : Nat) : Prop :=
  isFree h (φ v) = false ∧
    (φ v = v ∨ (h.mem v).hash = idHashForwarded ∧ (h.mem v).map = φ v ∧
      objectIsYoung h (φ v) = false)

section Resolve

variable {h : Heap} {φ : Nat → Nat} {v : Nat}

theorem not_forwarded (live : isFree h v = false) : (h.mem v).hash ≠ idHashForwarded := by
  intro hash
  simp [isFree, objectIsFree, hash, idHashForwarded] at live

theorem Resolves.forwarded (r : Resolves h φ v) (fuel : Nat) :
    forwarded h (fuel + 1) v = φ v := by
  obtain ⟨live, same | ⟨hash, target, _⟩⟩ := r
  · rw [same] at live ⊢
    rw [SlateVm.forwarded, if_neg (not_forwarded live)]
  · rw [SlateVm.forwarded, if_pos hash, target]
    cases fuel with
    | zero => rfl
    | succ fuel => rw [SlateVm.forwarded, if_neg (not_forwarded live)]

theorem Resolves.put {o : Nat} {x : Object} (r : Resolves h φ v) (live : isFree h o = false)
    (hash : x.hash = (h.mem o).hash) : Resolves (h.put o x) φ v := by
  have free : ∀ a, isFree (h.put o x) a = isFree h a := by
    intro a
    by_cases here : a = o
    · subst here; simp [isFree, objectIsFree, hash]
    · simp [isFree, here]
  refine ⟨by rw [free]; exact r.1, r.2.imp id ?_⟩
  rintro ⟨forward, target, old⟩
  have ne : v ≠ o := by rintro rfl; exact not_forwarded live forward
  simpa [ne] using ⟨forward, target, old⟩

end Resolve

section Update

variable {h : Heap} {φ : Nat → Nat} {o : Nat}

theorem put_put (h : Heap) (o : Nat) (x y : Object) : (h.put o x).put o y = h.put o y := by
  simp only [Heap.put, Heap.mk.injEq, and_true]
  funext a
  split <;> rfl

theorem put_self (h : Heap) (o : Nat) : h.put o (h.mem o) = h := by
  cases h
  simp only [Heap.put, Heap.mk.injEq, and_true]
  funext a
  split
  · rename_i same; rw [same]
  · rfl

theorem setWord_self (x : Object) (k : Nat) : x.setWord k (x.word k) = x := by
  cases x
  simp only [Object.setWord, Object.mk.injEq, true_and]
  funext i
  split
  · rename_i same; rw [same]
  · rfl

theorem isFree_put (x : Object) (hash : x.hash = (h.mem o).hash) (a : Nat) :
    isFree (h.put o x) a = isFree h a := by
  by_cases here : a = o
  · subst here; simp [isFree, objectIsFree, hash]
  · simp [isFree, here]

theorem hash_lt_of_live {a : Nat} (live : isFree h a = false) :
    (h.mem a).hash < idHashReserved := by
  simpa [isFree, objectIsFree] using live

theorem heapStoreInto_notYoung {src dest : Nat} (live : isFree h src = false)
    (target : isFree h dest = false) (old : objectIsYoung h dest = false) :
    heapStoreInto h src dest = .ok h := by
  have hs := hash_lt_of_live live
  have hd := hash_lt_of_live target
  cases small : oopIsSmallint dest <;>
    simp [heapStoreInto, require, hs, hd, old, small, bind, Except.bind]

theorem updateForwardedField_done {k fuel : Nat}
    (live : oopIsSmallint ((h.mem o).word k) = false → isFree h ((h.mem o).word k) = false) :
    updateForwardedField o k (fuel + 1) h = .ok h := by
  rw [updateForwardedField]
  cases small : oopIsSmallint ((h.mem o).word k) with
  | true => simp
  | false =>
    have target := live small
    have notFree : objectIsFree (h.mem ((h.mem o).word k)) = false := target
    simp [not_forwarded target, require, notFree, bind, Except.bind]

theorem updateForwardedField_spec {k fuel : Nat} (live : isFree h o = false)
    (r : oopIsSmallint ((h.mem o).word k) = false → Resolves h φ ((h.mem o).word k)) :
    updateForwardedField o k (fuel + 2) h =
      .ok (h.put o ((h.mem o).setWord k (renameOop φ ((h.mem o).word k)))) := by
  by_cases small : oopIsSmallint ((h.mem o).word k) = true
  · rw [renameOop, if_pos small, setWord_self, put_self]
    exact updateForwardedField_done fun big => by rw [small] at big; cases big
  · have small := Bool.eq_false_iff.mpr small
    obtain ⟨target, same | ⟨hash, map, old⟩⟩ := r small
    · rw [renameOop, if_neg (Bool.eq_false_iff.mp small), same, setWord_self, put_self]
      exact updateForwardedField_done fun _ => same ▸ target
    · have stored : objectSlotValueAtOffsetPut h o k (φ ((h.mem o).word k)) =
          .ok (h.put o ((h.mem o).setWord k (φ ((h.mem o).word k)))) := by
        rw [objectSlotValueAtOffsetPut, heapStoreInto_notYoung live target old]
        rfl
      rw [updateForwardedField, small, if_neg (by simp), if_pos hash, map, stored, renameOop,
        if_neg (Bool.eq_false_iff.mp small)]
      have now : ((h.put o ((h.mem o).setWord k (φ ((h.mem o).word k)))).mem o).word k =
          φ ((h.mem o).word k) := by simp [Object.setWord]
      refine updateForwardedField_done fun _ => ?_
      rw [now]
      exact (isFree_put (Object.setWord _ k _) rfl _).trans target

def Object.renameWords (φ : Nat → Nat) (ks : List Nat) (x : Object) : Object :=
  { x with word := fun k => if k ∈ ks then renameOop φ (x.word k) else x.word k }

theorem updateForwardedFields_spec (φ : Nat → Nat) (fuel : Nat) (ks : List Nat) (h : Heap)
    (live : isFree h o = false) (unique : ks.Nodup)
    (r : ∀ k ∈ ks, oopIsSmallint ((h.mem o).word k) = false → Resolves h φ ((h.mem o).word k)) :
    ks.foldlM (fun h k => updateForwardedField o k (fuel + 2) h) h =
      .ok (h.put o ((h.mem o).renameWords φ ks)) := by
  induction ks generalizing h with
  | nil =>
    have same : (h.mem o).renameWords φ [] = h.mem o := by
      simp only [Object.renameWords, List.not_mem_nil, if_false]
    rw [same, put_self]
    rfl
  | cons k ks ih =>
    rw [List.foldlM_cons, updateForwardedField_spec live (r k (List.mem_cons_self ..))]
    obtain ⟨fresh, unique⟩ := List.nodup_cons.mp unique
    let x := (h.mem o).setWord k (renameOop φ ((h.mem o).word k))
    let h₁ := h.put o x
    have word : ∀ j ∈ ks, (h₁.mem o).word j = (h.mem o).word j := by
      intro j hj
      have ne : j ≠ k := by rintro rfl; exact fresh hj
      simp [h₁, x, Object.setWord, ne]
    have live₁ : isFree h₁ o = false := (isFree_put x rfl o).trans live
    have rest := ih h₁ live₁ unique fun j hj big => by
      rw [word j hj] at big ⊢
      exact (r j (List.mem_cons_of_mem _ hj) big).put live rfl
    have same : (h₁.mem o).renameWords φ ks = (h.mem o).renameWords φ (k :: ks) := by
      simp only [h₁, x, put_mem, if_true, Object.renameWords, Object.setWord, Object.mk.injEq,
        true_and]
      funext j
      by_cases here : j = k
      · subst here; simp [fresh]
      · simp [here]
    rw [same, put_put] at rest
    exact rest

theorem oopWords_nodup (x : Object) : (oopWords x).Nodup := List.nodup_range' ..

theorem updateForwardedObject_spec (φ : Nat → Nat) (live : isFree h o = false) (fuel : 2 ≤ markFuel h)
    (map : Resolves h φ (h.mem o).map) (fields : ∀ v ∈ fieldPointers h o, Resolves h φ v) :
    updateForwardedObject h o = .ok (h.put o ((h.mem o).rename φ)) := by
  obtain ⟨n, bound⟩ : ∃ n, markFuel h = n + 2 := ⟨markFuel h - 2, by omega⟩
  have occupied : objectIsFree (h.mem o) = false := live
  let x : Object := { h.mem o with map := φ (h.mem o).map }
  let h₁ := h.put o x
  have mapped : updateForwardedMap h o = .ok h₁ := by
    have target : objectIsFree (h₁.mem (φ (h.mem o).map)) = false :=
      (isFree_put x rfl _).trans map.1
    simp only [updateForwardedMap, bound, map.forwarded]
    show (do require (!objectIsFree (h₁.mem (φ (h.mem o).map))); .ok h₁) = _
    rw [target]
    rfl
  have words : oopWords (h₁.mem o) = oopWords (h.mem o) := by simp [h₁]; rfl
  have live₁ : isFree h₁ o = false := (isFree_put x rfl o).trans live
  have all := updateForwardedFields_spec φ n (oopWords (h₁.mem o)) h₁ live₁
    (oopWords_nodup _) fun k hk big => by
      have word : (h₁.mem o).word k = (h.mem o).word k := by simp [h₁, x]
      rw [word] at big ⊢
      refine (fields _ ?_).put live rfl
      refine List.mem_filter.mpr ⟨List.mem_map.mpr ⟨k, words ▸ hk, rfl⟩, by simp [big]⟩
  have renamed : (h₁.mem o).renameWords φ (oopWords (h₁.mem o)) = (h.mem o).rename φ := by
    rw [words]
    simp [h₁, x, Object.renameWords, Object.rename]
  rw [renamed, put_put] at all
  rw [updateForwardedObject, if_neg (by simp [occupied]), mapped]
  rw [bound]
  exact all

end Update

def renamed (φ : Nat → Nat) (cs : List Nat) (h : Heap) : Heap :=
  { h with mem := fun a => if a ∈ cs ∧ isFree h a = false then (h.mem a).rename φ else h.mem a }

section Walk

variable {h : Heap} {φ : Nat → Nat} {cs : List Nat}

theorem renamed_mem (a : Nat) : (renamed φ cs h).mem a =
    if a ∈ cs ∧ isFree h a = false then (h.mem a).rename φ else h.mem a := rfl

theorem renamed_other {a : Nat} (out : a ∉ cs) : (renamed φ cs h).mem a = h.mem a := by
  simp [renamed_mem, out]

theorem renamed_isFree (a : Nat) : isFree (renamed φ cs h) a = isFree h a := by
  rw [isFree, renamed_mem]
  split <;> rfl

theorem renamed_hash (a : Nat) : ((renamed φ cs h).mem a).hash = (h.mem a).hash := by
  rw [renamed_mem]
  split <;> rfl

theorem renamed_extent : extent (renamed φ cs h).mem = extent h.mem := by
  funext a
  rw [extent, renamed_mem]
  split <;> rfl

theorem Resolves.renamed {v : Nat} (r : Resolves h φ v) : Resolves (renamed φ cs h) φ v := by
  refine ⟨by rw [renamed_isFree]; exact r.1, r.2.imp id ?_⟩
  rintro ⟨forward, target, old⟩
  have dead : ¬(v ∈ cs ∧ isFree h v = false) := fun both => not_forwarded both.2 forward
  refine ⟨by rw [renamed_hash, forward], ?_, old⟩
  rw [renamed_mem, if_neg dead, target]

theorem heapUpdateForwardedPointers_spec (φ : Nat → Nat) {memory memorySize : Nat}
    (t : Tiled h.mem memory memorySize) (fuel : memorySize ≤ markFuel h)
    (resolve : ∀ a ∈ cellsOf h.mem memory memorySize, isFree h a = false →
      ∀ v ∈ pointers h a, Resolves h φ v) :
    heapUpdateForwardedPointers h memory memorySize =
      .ok (renamed φ (cellsOf h.mem memory memorySize) h) := by
  have step : ∀ front c back, cellsOf h.mem memory memorySize = front ++ c :: back →
      ∀ s, s = renamed φ front h →
        (∃ s', updateForwardedObject s c = .ok s' ∧ s' = renamed φ (front ++ [c]) h ∧
          objectAfter s' c = c + extent h.mem c) ∨
        ∃ e, updateForwardedObject s c = .error e ∧ False := by
    rintro front c back split s rfl
    have here : c ∈ cellsOf h.mem memory memorySize := by rw [split]; simp
    have fresh : c ∉ front := by
      have unique := t.tiles.nodup
      rw [split] at unique
      exact fun again => (List.nodup_middle.mp unique).notMem (List.mem_append_left _ again)
    have onward : objectAfter (renamed φ (front ++ [c]) h) c = c + extent h.mem c :=
      congrArg (c + ·) (congrFun renamed_extent c)
    have cell : (renamed φ front h).mem c = h.mem c := renamed_other fresh
    refine Or.inl ⟨_, ?_, rfl, onward⟩
    cases free : isFree h c with
    | true =>
      have skip : objectIsFree ((renamed φ front h).mem c) = true := by rw [cell]; exact free
      rw [updateForwardedObject, if_pos skip]
      congr 1
      simp only [renamed, Heap.mk.injEq, and_true]
      funext a
      by_cases same : a = c
      · subst same; simp [free]
      · simp [same]
    | false =>
      have fields := resolve c here free
      have room : 2 ≤ markFuel (renamed φ front h) := by
        have least := t.least c here
        have inside := t.tiles.bounds c here
        have same : markFuel (renamed φ front h) = markFuel h := rfl
        simp only [minCell, headerSizeWords, sizeofWord] at least
        omega
      rw [updateForwardedObject_spec φ ((renamed_isFree c).trans free) room
        (by rw [cell]; exact (fields _ (List.mem_cons_self ..)).renamed)
        (fun v hv => (fields v (List.mem_cons_of_mem _ (by
          rw [fieldPointers, cell] at hv; exact hv))).renamed), cell]
      congr 1
      simp only [renamed, Heap.put, Heap.mk.injEq, and_true]
      funext a
      by_cases same : a = c
      · subst same; simp [free]
      · simp [same]
  rcases overCellsE_invariant (I := fun front s => s = renamed φ front h) t.tiles
      (Nat.le_of_eq (Nat.add_sub_cancel_left ..)) (fun c lo hi => objectInMemory_iff.mpr ⟨lo, hi⟩)
      (by simp [objectInMemory]) step (s := h) (by simp [renamed]) with
    ⟨s, run, rfl⟩ | ⟨_, _, impossible⟩
  · exact run
  · exact impossible.elim

end Walk

end SlateVm
