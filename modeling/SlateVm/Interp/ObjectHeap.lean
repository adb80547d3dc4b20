import SlateVm.Interp.Vm

/-! The machine's own pointers: beside the object memory it keeps some special objects, the
global method cache and the optimized methods, none of which the collectors scan. -/
namespace SlateVm

def specialNil : Nat := 2
def specialTrue : Nat := 3
def specialFalse : Nat := 4
def specialCount : Nat := 35

/-- An empty entry holds zeros, and there are as many maps as the cache takes arguments. -/
structure MethodCacheEntry where
  method : Nat
  selector : Nat
  maps : List Nat

def MethodCacheEntry.oops (e : MethodCacheEntry) : List Nat := e.method :: e.selector :: e.maps

/-- The other cached specials stand in the heap, where the primitives read them. -/
structure ObjectHeap where
  heap : Heap
  primitiveMethodWindow : Nat
  compiledMethodWindow : Nat
  closureMethodWindow : Nat
  methodCache : List MethodCacheEntry
  optimizedMethods : Multiset Nat

def cachedSpecials (oh : ObjectHeap) : List Nat :=
  [oh.heap.cached.interpreter, oh.heap.cached.trueObject, oh.heap.cached.falseObject,
    oh.heap.cached.nil, oh.primitiveMethodWindow, oh.compiledMethodWindow, oh.closureMethodWindow]

def IsSpecial (oh : ObjectHeap) (x : Nat) : Prop :=
  x = oh.heap.specialObjectsOop ∨ ∃ i < specialCount, getSpecial oh.heap i = x

def IsObject (h : Heap) (a : Nat) : Prop := Live h a ∧ oopIsSmallint a = false

instance (oh : ObjectHeap) (x : Nat) : Decidable (IsSpecial oh x) :=
  inferInstanceAs (Decidable (_ ∨ _))

instance (h : Heap) (a : Nat) : Decidable (IsObject h a) :=
  inferInstanceAs (Decidable (_ ∧ _))

/-- The primitive leaves `y` on the stack first. The flag says that it signals a type error
instead of forwarding, which is a send of its own. -/
def ObjectHeap.primForwardTo (oh : ObjectHeap) (x y resultStackPointer : Nat) :
    Except Halt (ObjectHeap × Bool) := do
  let h ← (Cmd.bare (interpreterStack oh.heap) (element resultStackPointer) y).run oh.heap
  if x = getSpecial h specialNil ∨ x = getSpecial h specialTrue ∨ x = getSpecial h specialFalse then
    .ok ({ oh with heap := h }, true)
  else if !oopIsSmallint x && !oopIsSmallint y && x != y then do
    let h ← heapForward (heapUnpinObject h x) x y
    .ok ({ oh with heap := h }, false)
  else .ok ({ oh with heap := h }, false)

end SlateVm
