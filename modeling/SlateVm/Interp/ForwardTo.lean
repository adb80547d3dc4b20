import SlateVm.Heap.Redirect
import SlateVm.Interp.ObjectHeap

/-! What `forwardTo:` leaves behind. Inside the object memory every pointer is redirected,
but the pointers that the machine keeps outside of it stay as they were. -/
namespace SlateVm

/-- The word `k` of the object `a` once the primitive has left `y` as its result. -/
def storedWord (h : Heap) (y resultStackPointer a k : Nat) : Nat :=
  if a = interpreterStack h ∧ k = element resultStackPointer then y else (h.mem a).word k

/-- Nothing refers to `x` any more, its pointers lead to `y`, and all else is as it was. The
inline caches of call sites are arrays, so that their entries are among the oops. -/
structure ForwardingComplete (oh oh' : ObjectHeap) (x y resultStackPointer : Nat) : Prop where
  fields : ∀ a, Live oh'.heap a → x ∉ oops oh'.heap a
  specials : ∀ i < specialCount, getSpecial oh'.heap i ≠ x
  cached : x ∉ cachedSpecials oh'
  methodCache : ∀ e ∈ oh'.methodCache, x ∉ e.oops
  live : ∀ a, Live oh'.heap a ↔ Live oh.heap a ∧ a ≠ x
  map : ∀ a, Live oh.heap a → a ≠ x →
    (oh'.heap.mem a).map = redirect x y (oh.heap.mem a).map
  pointers : ∀ a, Live oh.heap a → a ≠ x → ∀ k ∈ oopWords (oh.heap.mem a),
    (oh'.heap.mem a).word k = redirect x y (storedWord oh.heap y resultStackPointer a k)
  words : ∀ a, Live oh.heap a → a ≠ x → ∀ k ∉ oopWords (oh.heap.mem a),
    (oh'.heap.mem a).word k = storedWord oh.heap y resultStackPointer a k
  headers : ∀ a, Live oh.heap a → a ≠ x →
    (oh'.heap.mem a).outline = (oh.heap.mem a).outline ∧
      (oh'.heap.mem a).markbit = (oh.heap.mem a).markbit

/-- `forwardTo:` is sent to an object that is not special, with another one; its result has
a place on the stack. -/
structure ForwardCall (oh : ObjectHeap) (x y resultStackPointer : Nat) : Prop where
  spaces : Spaces oh.heap
  receiver : IsObject oh.heap x
  other : IsObject oh.heap y
  distinct : x ≠ y
  plain : ¬IsSpecial oh x
  place : element resultStackPointer < objectWordSize (oh.heap.mem (interpreterStack oh.heap))

section Forward

variable {h : Heap} {x y resultStackPointer : Nat}

def resultStored (h : Heap) (y resultStackPointer : Nat) : Heap :=
  h.put (interpreterStack h) ((h.mem (interpreterStack h)).setWord (element resultStackPointer) y)

theorem resultStored_mem (a : Nat) : (resultStored h y resultStackPointer).mem a =
    { h.mem a with word := storedWord h y resultStackPointer a } := by
  by_cases here : a = interpreterStack h
  · subst here
    simp only [resultStored, put_mem, if_true, Object.setWord, Object.mk.injEq, true_and]
    funext k
    simp [storedWord]
  · have same : storedWord h y resultStackPointer a = (h.mem a).word := by
      funext k
      simp [storedWord, here]
    rw [same]
    simp [resultStored, here]

theorem resultStored_outline : (resultStored h y resultStackPointer).outline = h.outline :=
  put_outline (o := interpreterStack h) rfl

def forwardingFrom (h : Heap) (x y resultStackPointer : Nat) : Heap :=
  heapUnpinObject (resultStored h y resultStackPointer) x

theorem forwardingFrom_mem {a : Nat} (other : a ≠ x) :
    (forwardingFrom h x y resultStackPointer).mem a =
      { h.mem a with word := storedWord h y resultStackPointer a } := by
  rw [← resultStored_mem, forwardingFrom, heapUnpinObject]
  split
  · rfl
  · simp [other]

theorem forwardingFrom_live (big : oopIsSmallint x = false) (a : Nat) :
    Live (forwardingFrom h x y resultStackPointer) a ↔ Live h a := by
  rw [forwardingFrom, heapUnpinObject_eq big, withPins_live]
  exact outline_live resultStored_outline a

theorem forwardingFrom_spaces (big : oopIsSmallint x = false) (s : Spaces h) :
    Spaces (forwardingFrom h x y resultStackPointer) := by
  have stored : Spaces (resultStored h y resultStackPointer) := s.outline resultStored_outline
  rw [forwardingFrom, heapUnpinObject_eq big]
  exact ⟨stored.old.congr fun c _ => congrFun withPins_extent c,
    stored.young.congr fun c _ => congrFun withPins_extent c, stored.limit, stored.apart⟩

theorem forwardingFrom_specials : (forwardingFrom h x y resultStackPointer).specialObjectsOop =
    h.specialObjectsOop := by
  rw [forwardingFrom, heapUnpinObject]
  split <;> rfl

theorem forwardingFrom_cached : (forwardingFrom h x y resultStackPointer).cached = h.cached := by
  rw [forwardingFrom, heapUnpinObject]
  split <;> rfl

theorem storedWord_ne {a k : Nat} (distinct : x ≠ y) (away : (h.mem a).word k ≠ x) :
    storedWord h y resultStackPointer a k ≠ x := by
  unfold storedWord
  split
  · exact distinct.symm
  · exact away

theorem forwarded_object {h' : Heap} (big : oopIsSmallint x = false)
    (f : Forwarded x y (forwardingFrom h x y resultStackPointer) h') {a : Nat} (live : Live h a)
    (other : a ≠ x) : h'.mem a = Object.rename (redirect x y)
      { h.mem a with word := storedWord h y resultStackPointer a } := by
  rw [f.object ((forwardingFrom_live big a).mpr live) other, forwardingFrom_mem other]

theorem forwarded_word {h' : Heap} (big : oopIsSmallint x = false)
    (f : Forwarded x y (forwardingFrom h x y resultStackPointer) h') {a : Nat} (live : Live h a)
    (other : a ≠ x) (k : Nat) : (h'.mem a).word k =
      if k ∈ oopWords (h.mem a) then redirect x y (storedWord h y resultStackPointer a k)
      else storedWord h y resultStackPointer a k := by
  rw [forwarded_object big f live other]
  simp only [Object.rename, renameOop_redirect big]
  rfl

theorem forwarded_fields {h' : Heap} (big : oopIsSmallint x = false) (distinct : x ≠ y)
    (f : Forwarded x y (forwardingFrom h x y resultStackPointer) h') {a : Nat}
    (live : Live h' a) : x ∉ oops h' a := by
  obtain ⟨before, other⟩ := (f.live a).mp live
  rw [oops, f.object before other, rename_map, rename_oopFields]
  intro found
  rcases List.mem_cons.mp found with here | field
  · exact redirect_ne distinct here.symm
  · obtain ⟨v, -, here⟩ := List.mem_map.mp field
    rw [renameOop_redirect big] at here
    exact redirect_ne distinct here

theorem forwarded_getSpecial {h' : Heap} (big : oopIsSmallint x = false) (distinct : x ≠ y)
    (f : Forwarded x y (forwardingFrom h x y resultStackPointer) h')
    (table : h.specialObjectsOop ≠ x) {i : Nat} (away : getSpecial h i ≠ x) :
    getSpecial h' i ≠ x := by
  have before : storedWord h y resultStackPointer h.specialObjectsOop
      (headerSizeWords + 1 + i) ≠ x := storedWord_ne distinct away
  rw [getSpecial, f.specials, forwardingFrom_specials, f.mem _ table, renamed_mem,
    forwardingFrom_mem table]
  split
  · simp only [Object.rename, renameOop_redirect big]
    split
    · exact redirect_ne distinct
    · exact before
  · exact before

end Forward

section Primitive

variable {oh : ObjectHeap} {x y resultStackPointer : Nat}

theorem primForwardTo_forwards (call : ForwardCall oh x y resultStackPointer) :
    ∃ h', oh.primForwardTo x y resultStackPointer = .ok ({ oh with heap := h' }, false) ∧
      Forwarded x y (forwardingFrom oh.heap x y resultStackPointer) h' := by
  obtain ⟨s, hx, hy, distinct, plain, place⟩ := call
  have special : ∀ i < specialCount,
      x ≠ getSpecial (resultStored oh.heap y resultStackPointer) i := by
    intro i hi same
    have away : storedWord oh.heap y resultStackPointer oh.heap.specialObjectsOop
        (headerSizeWords + 1 + i) ≠ x :=
      storedWord_ne distinct fun found => plain (Or.inr ⟨i, hi, found⟩)
    rw [getSpecial, resultStored_mem] at same
    exact away same.symm
  have allowed : ¬(x = getSpecial (resultStored oh.heap y resultStackPointer) specialNil ∨
      x = getSpecial (resultStored oh.heap y resultStackPointer) specialTrue ∨
      x = getSpecial (resultStored oh.heap y resultStackPointer) specialFalse) := by
    rintro (here | here | here) <;> exact special _ (by decide) here
  have from' : Spaces (forwardingFrom oh.heap x y resultStackPointer) :=
    forwardingFrom_spaces hx.2 s
  obtain ⟨h', run, forwarded⟩ := heapForward_forwards from' hx.2
    ((forwardingFrom_live hx.2 y).mpr hy.1).2
  refine ⟨h', ?_, forwarded⟩
  have stored : (Cmd.bare (interpreterStack oh.heap) (element resultStackPointer) y).run oh.heap =
      .ok (resultStored oh.heap y resultStackPointer) := by
    simp only [Cmd.run, writable, if_pos place]
    rfl
  rw [ObjectHeap.primForwardTo, stored]
  show (if _ then _ else _) = _
  rw [if_neg allowed, if_pos (by simp [hx.2, hy.2, distinct])]
  show (heapForward (forwardingFrom oh.heap x y resultStackPointer) x y >>= _) = _
  rw [run]
  rfl

/-- Forwarding is complete exactly if neither the method cache nor a cached special refers to
the object: these are not looked at. -/
theorem forwarding_complete_iff (oh : ObjectHeap) (x y resultStackPointer : Nat)
    (call : ForwardCall oh x y resultStackPointer) :
    ∃ oh', oh.primForwardTo x y resultStackPointer = .ok (oh', false) ∧
      (ForwardingComplete oh oh' x y resultStackPointer ↔
        (∀ e ∈ oh.methodCache, x ∉ e.oops) ∧ x ∉ cachedSpecials oh) := by
  obtain ⟨h', run, f⟩ := primForwardTo_forwards call
  obtain ⟨-, hx, -, distinct, plain, -⟩ := call
  have pointers : cachedSpecials { oh with heap := h' } = cachedSpecials oh := by
    simp only [cachedSpecials, f.cached, forwardingFrom_cached]
  refine ⟨_, run, fun c => ⟨c.methodCache, pointers ▸ c.cached⟩, fun ⟨cache, cached⟩ => ?_⟩
  exact
    { fields := fun a live => forwarded_fields hx.2 distinct f live
      specials := fun i hi => forwarded_getSpecial hx.2 distinct f
        (fun here => plain (Or.inl here.symm)) fun found => plain (Or.inr ⟨i, hi, found⟩)
      cached := pointers ▸ cached
      methodCache := cache
      live := fun a => (f.live a).trans (and_congr_left' (forwardingFrom_live hx.2 a))
      map := fun a live other => by rw [forwarded_object hx.2 f live other]; rfl
      pointers := fun a live other k hk => by rw [forwarded_word hx.2 f live other, if_pos hk]
      words := fun a live other k hk => by rw [forwarded_word hx.2 f live other, if_neg hk]
      headers := fun a live other => by
        rw [forwarded_object hx.2 f live other]
        exact ⟨rfl, rfl⟩ }

/-- Two maps and an object of the first one in young space; the method cache has an entry for
a send to that object. -/
def mappedObject : Nat → Object
  | 1024 => ⟨false, 1, 0, typeOopArray, 4, 280, 1496, fun k => if k = 21 then 1336 else 1496⟩
  | 1336 => ⟨false, 2, 0, typeByteArray, 9, 40, 1496,
      fun | 4 => 1448 | 9 => 1 | 12 => 2 | 13 => 2 | _ => 1496⟩
  | 1448 => ⟨false, 3, 0, typeOopArray, 4, 16, 1496, fun _ => 1496⟩
  | 1496 => ⟨false, 4, 0, typeObject, 5, 0, 1496, fun _ => 1⟩
  | 4096 => ⟨false, 5, 0, typeObject, 10, 0, 1496, fun _ => 1496⟩
  | 4176 => ⟨false, 6, 0, typeObject, 5, 0, 4096, fun _ => 3⟩
  | 4216 => ⟨false, 7, 0, typeObject, 10, 0, 1496, fun _ => 1496⟩
  | _ => ⟨false, 0, 0, typeObject, 0, 0, 0, fun _ => 0⟩

def mappedHeap (methodCache : List MethodCacheEntry) : ObjectHeap where
  heap :=
    { sampleHeap 1000 with
      mem := mappedObject, memoryOldSize := 512, memoryYoungSize := 200
      rememberedOldObjects := ∅, cached := ⟨1336, 1496, 1496, 1496⟩ }
  primitiveMethodWindow := 1496
  compiledMethodWindow := 1496
  closureMethodWindow := 1496
  methodCache := methodCache
  optimizedMethods := 0

theorem mappedHeap_call (methodCache : List MethodCacheEntry) :
    ForwardCall (mappedHeap methodCache) 4096 4216 0 :=
  have spaces : Spaces (mappedHeap []).heap := by decide +kernel
  have plain : ¬IsSpecial (mappedHeap []) 4096 := by decide +kernel
  have receiver : IsObject (mappedHeap []).heap 4096 := by decide +kernel
  have other : IsObject (mappedHeap []).heap 4216 := by decide +kernel
  have place : element 0 <
      objectWordSize ((mappedHeap []).heap.mem (interpreterStack (mappedHeap []).heap)) := by decide
  ⟨spaces, receiver, other, by decide, plain, place⟩

theorem forwarding_complete_iff_sample :
    ∃ oh', (mappedHeap []).primForwardTo 4096 4216 0 = .ok (oh', false) ∧
      (ForwardingComplete (mappedHeap []) oh' 4096 4216 0 ↔
        (∀ e ∈ (mappedHeap []).methodCache, 4096 ∉ e.oops) ∧
          4096 ∉ cachedSpecials (mappedHeap [])) :=
  forwarding_complete_iff (mappedHeap []) 4096 4216 0 (mappedHeap_call [])

/-- The map of an object that a cached send went to is forwarded: the entry stays. -/
theorem forwarded_map_cached :
    ForwardCall (mappedHeap [⟨1496, 1496, [4096, 0, 0, 0, 0, 0]⟩]) 4096 4216 0 ∧
      ∃ oh', (mappedHeap [⟨1496, 1496, [4096, 0, 0, 0, 0, 0]⟩]).primForwardTo 4096 4216 0 =
          .ok (oh', false) ∧
        ¬ForwardingComplete (mappedHeap [⟨1496, 1496, [4096, 0, 0, 0, 0, 0]⟩]) oh'
          4096 4216 0 := by
  refine ⟨mappedHeap_call _, ?_⟩
  obtain ⟨h', run, -⟩ := primForwardTo_forwards
    (mappedHeap_call [⟨1496, 1496, [4096, 0, 0, 0, 0, 0]⟩])
  exact ⟨_, run, fun c => c.methodCache _ (List.mem_cons_self ..) (by decide)⟩

end Primitive

end SlateVm
