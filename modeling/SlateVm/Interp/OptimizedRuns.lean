import SlateVm.Interp.Methods
import SlateVm.Interp.ObjectHeap
import SlateVm.Optimizer.Code
import SlateVm.Heap.Redirect

/-! The set of optimized methods: what enters it, what leaves it, and what the machine does in
between. The set holds bare addresses, and the loop over it reads and patches what it finds
there. -/
namespace SlateVm
open Frames (Value)

def CompiledMethod.selectors : Nat := 13
def compiledMethodWords : Nat := 27
def inlinerMaxMethodSize : Nat := 200

def arrayElements (h : Heap) (o : Nat) : List Nat :=
  (List.range (arraySize h o)).map fun j => field h o (element j)

/-- An object with the words of a `CompiledMethod`, which is how the optimizer takes it. -/
def IsCompiledMethod (h : Heap) (method : Nat) : Prop :=
  Live h method ∧ (h.mem method).format = typeObject ∧
    compiledMethodWords ≤ (h.mem method).objectSize

instance (h : Heap) (method : Nat) : Decidable (IsCompiledMethod h method) :=
  inferInstanceAs (Decidable (_ ∧ _))

def performs (h : Heap) (program : Vm Unit) : Except Halt Heap :=
  match (program.run h).result with
  | .ok _ => .ok (program.run h).state
  | .error e => .error e

section Stack

/-- From the frame at `fp` downwards; each frame has a smaller frame pointer. -/
def methodOnFrames (h : Heap) (method : Nat) : Nat → Nat → Nat → Bool
  | 0, _, closure => field h closure Closure.method == method
  | rounds + 1, fp, closure =>
    if field h closure Closure.method = method then true
    else
      let fp := objectToSmallint (stackElement h (fp - 1))
      if fp < functionFrameSize then false
      else methodOnFrames h method rounds fp (stackElement h (fp - 3))

/-- The current method stands for its closure: a method is its own `method`. -/
def methodOnCallStack (h : Heap) (method : Nat) : Bool :=
  let fp := field h h.cached.interpreter Interpreter.framePointer
  methodOnFrames h method fp fp (field h h.cached.interpreter Interpreter.method)

end Stack

section Optimizer

def codeVector (h : Heap) (method : Nat) : Optimizer.Code :=
  (arrayElements h (field h method CompiledMethod.code)).map fun word =>
    if oopIsSmallint word then .smallint (objectToSmallint word) else .object word

def hasKeyedBranch (code : Optimizer.Code) : Nat → Nat → Bool
  | 0, _ => false
  | rounds + 1, i =>
    match code[i]? with
    | none => false
    | some op =>
      if Optimizer.opcodeOf op = some .branchKeyed then true
      else match Optimizer.opcodeLength code i with
        | none => false
        | some length => hasKeyedBranch code rounds (i + length.toNat)

def optimizerMethodCanBeOptimized (oh : ObjectHeap) (method : Nat) : Bool :=
  let h := oh.heap
  let traitsWindow := field h (field h (h.mem method).map Map.delegates) (element 0)
  let code := codeVector h method
  !isTrue h method CompiledMethod.heapAllocate && !isTrue h method CompiledMethod.restVariable &&
    traitsWindow != oh.primitiveMethodWindow &&
    arraySize h (field h method CompiledMethod.optionalKeywords) == 0 &&
    decide (code.length ≤ inlinerMaxMethodSize) && !hasKeyedBranch code code.length 0

def methodKeepOldCode (method : Nat) : Vm Unit := do
  Vm.stores fun h =>
    if field h method CompiledMethod.oldCode = h.cached.nil then
      [.barrier (field h method CompiledMethod.code) (field h method CompiledMethod.code),
        .bare method CompiledMethod.oldCode (field h method CompiledMethod.code)]
    else []
  Vm.stores fun h =>
    [.barrier (field h method CompiledMethod.oldCode) (field h method CompiledMethod.code),
      .bare method CompiledMethod.isInlined h.cached.trueObject]

def ObjectHeap.methodOptimize (oh : ObjectHeap) (method : Nat) : Except Halt ObjectHeap :=
  if objectIsYoung oh.heap method || methodOnCallStack oh.heap method then .ok oh
  else if !optimizerMethodCanBeOptimized oh method then do
    let h ← performs oh.heap (methodGiveUpOptimizing method)
    .ok { oh with heap := h }
  else do
    let h ← performs oh.heap (methodKeepOldCode method)
    .ok { oh with heap := h, optimizedMethods := method ::ₘ oh.optimizedMethods }

/-- A method on the call stack stays optimized, and in the set. `erase` takes all copies. -/
def ObjectHeap.methodUnoptimize (oh : ObjectHeap) (method : Nat) : Except Halt ObjectHeap :=
  if methodOnCallStack oh.heap method then .ok oh
  else do
    let h ← performs oh.heap (SlateVm.methodUnoptimize method)
    .ok { oh with heap := h, optimizedMethods := oh.optimizedMethods.filter (· ≠ method) }

def sendsSymbol (h : Heap) (method symbol : Nat) : Bool :=
  field h method CompiledMethod.selector == symbol ||
    (arrayElements h (field h method CompiledMethod.selectors)).contains symbol

def ObjectHeap.removeIfSending (symbol : Nat) (oh : ObjectHeap) (method : Nat) :
    Except Halt ObjectHeap :=
  if sendsSymbol oh.heap method symbol then oh.methodUnoptimize method else .ok oh

/-- In the order of the addresses. The source goes on from the element that was erased, which
is undefined; here the loop goes on with the next one. -/
def ObjectHeap.methodRemoveOptimizedSending (oh : ObjectHeap) (symbol : Nat) :
    Except Halt ObjectHeap :=
  (oh.optimizedMethods.toFinset.sort (· ≤ ·)).foldlM (ObjectHeap.removeIfSending symbol) oh

def methodFlushCache (oh : ObjectHeap) : ObjectHeap :=
  { oh with methodCache := oh.methodCache.map fun _ => ⟨0, 0, List.replicate 6 0⟩ }

end Optimizer

/-- What the machine does: it collects, takes new cells, pins, stores, forwards, optimizes, and
when a method is defined it unoptimizes those that send its selector. -/
inductive Act where
  | heapGc
  | heapFullGc
  | allocate (obj bytes : Nat)
  | heapPinObject (x : Nat)
  | heapUnpinObject (x : Nat)
  | store (c : Cmd)
  | forwardTo (x y resultStackPointer : Nat)
  | optimize (method : Nat)
  | removeOptimizedSending (symbol : Nat)

/-- A step that does not halt the machine. A collection flushes the method cache at its end,
and what is optimized is a method that is called. -/
def Act.steps (oh : ObjectHeap) (a : Act) (oh' : ObjectHeap) : Prop :=
  match a with
  | .heapGc => oh' = methodFlushCache { oh with heap := SlateVm.heapGc oh.heap }
  | .heapFullGc => ∃ h, SlateVm.heapFullGc oh.heap = .ok h ∧
      oh' = methodFlushCache { oh with heap := h }
  | .allocate obj bytes => ∃ h, Fresh oh.heap h obj bytes ∧ oh' = { oh with heap := h }
  | .heapPinObject x => ∃ h, SlateVm.heapPinObject oh.heap x = .ok h ∧ oh' = { oh with heap := h }
  | .heapUnpinObject x => oh' = { oh with heap := SlateVm.heapUnpinObject oh.heap x }
  | .store c => ∃ h, c.run oh.heap = .ok h ∧ oh' = { oh with heap := h }
  | .forwardTo x y resultStackPointer =>
    ∃ signalled, oh.primForwardTo x y resultStackPointer = .ok (oh', signalled)
  | .optimize method => IsCompiledMethod oh.heap method ∧ oh.methodOptimize method = .ok oh'
  | .removeOptimizedSending symbol => oh.methodRemoveOptimizedSending symbol = .ok oh'

end SlateVm

/-! Runs of the machine and the methods it has optimized. Those stand in old space, so that
only a full collection or a forwarding can take one away. -/
namespace SlateVm
open Steps

section Programs

variable {R : Heap → Heap → Prop}

theorem relates_stores (refl : ∀ h, R h h) (trans : ∀ h k m, R h k → R k m → R h m)
    {cmds : Heap → List Cmd}
    (each : ∀ h, ∀ c ∈ cmds h, ∀ g k, c.run g = .ok k → R g k) :
    Trace.Relates R (Vm.stores cmds).run := by
  intro h
  have all : ∀ cs : List Cmd, (∀ c ∈ cs, ∀ g k, c.run g = .ok k → R g k) →
      Trace.Relates R (cs.forM Vm.cmd).run := by
    intro cs
    induction cs with
    | nil => exact fun _ => .pure refl ()
    | cons c cs ih =>
      intro each
      refine .bind trans (fun g => ?_) fun _ => ih fun d hd => each d (List.mem_cons_of_mem _ hd)
      simp only [Vm.cmd]
      cases run : c.run g with
      | error e => exact refl g
      | ok k => exact each c (List.mem_cons_self ..) g k run
  exact all (cmds h) (each h) h

theorem performs_related {h k : Heap} {program : Vm Unit} (related : Trace.Relates R program.run)
    (run : performs h program = .ok k) : R h k := by
  unfold performs at run
  split at run
  · cases run
    exact related h
  · cases run

end Programs

section Outlines

variable {h k : Heap}

theorem Cmd.run_outline {c : Cmd} (run : c.run h = .ok k) : k.outline = h.outline := by
  have barrier : ∀ {src dest : Nat} {m : Heap}, heapStoreInto h src dest = .ok m →
      m.outline = h.outline := by
    intro src dest m done
    rcases heapStoreInto_spec h src dest with ⟨remembered, same, -⟩ | fails
    · cases same.symm.trans done
      rfl
    · cases fails.symm.trans done
  cases c with
  | barrier src dest => exact barrier run
  | store o j value =>
    have done := writable_ok run
    unfold objectSlotValueAtOffsetPut at done
    cases first : heapStoreInto h o value with
    | error e => simp [first, bind, Except.bind] at done
    | ok m =>
      simp only [first, bind, Except.bind, Except.ok.injEq] at done
      subst done
      have stored : (m.put o ((m.mem o).setWord j value)).outline = m.outline := put_outline rfl
      exact stored.trans (barrier first)
  | bare o j value =>
    cases writable_ok run
    exact put_outline rfl
  | small o j n =>
    cases writable_ok run
    exact put_outline rfl
  | storeMap o map =>
    cases first : heapStoreInto h o map with
    | error e => simp [Cmd.run, first, bind, Except.bind] at run
    | ok m =>
      simp only [Cmd.run, first, bind, Except.bind, Except.ok.injEq] at run
      subst run
      have stored : (m.put o { m.mem o with map := map }).outline = m.outline := put_outline rfl
      exact stored.trans (barrier first)
  | bareMap o map =>
    cases run
    exact put_outline rfl
  | number o j n =>
    cases writable_ok run
    exact put_outline rfl

def SameOutline (h k : Heap) : Prop := k.outline = h.outline

theorem SameOutline.refl (h : Heap) : SameOutline h h := rfl

theorem SameOutline.trans (h k m : Heap) (first : SameOutline h k) (second : SameOutline k m) :
    SameOutline h m := Eq.trans second first

theorem stores_outline (cmds : Heap → List Cmd) :
    Trace.Relates SameOutline (Vm.stores cmds).run :=
  relates_stores SameOutline.refl SameOutline.trans fun _ _ _ _ _ run => Cmd.run_outline run

theorem methodKeepOldCode_outline (method : Nat) :
    Trace.Relates SameOutline (methodKeepOldCode method).run :=
  .bind SameOutline.trans (stores_outline _) fun _ => stores_outline _

end Outlines

section Patches

def OnlyAt (o : Nat) (h k : Heap) : Prop := ∀ a, a ≠ o → k.mem a = h.mem a

theorem OnlyAt.refl (o : Nat) (h : Heap) : OnlyAt o h h := fun _ _ => rfl

theorem OnlyAt.trans (o : Nat) (h k m : Heap) (first : OnlyAt o h k) (second : OnlyAt o k m) :
    OnlyAt o h m := fun a other => (second a other).trans (first a other)

theorem OnlyAt.put {h k : Heap} {o j value : Nat}
    (run : writable h o j (.ok (h.put o ((h.mem o).setWord j value))) = .ok k) :
    OnlyAt o h k := by
  cases writable_ok run
  intro a other
  simp [other]

theorem methodUnoptimize_patches (method : Nat) :
    Trace.Relates (OnlyAt method) (methodUnoptimize method).run := by
  refine relates_stores (OnlyAt.refl method) (OnlyAt.trans method) fun h c hc g k run => ?_
  simp only [List.mem_cons, List.not_mem_nil, or_false] at hc
  rcases hc with rfl | rfl | rfl | rfl | rfl
  · rcases heapStoreInto_spec g _ _ with ⟨remembered, same, -⟩ | fails
    · cases same.symm.trans run
      exact fun _ _ => rfl
    · cases fails.symm.trans run
  all_goals exact .put run

end Patches

section Kept

variable {h k : Heap} {a : Nat}

/-- A method that is optimized: it is old, so that no young collection touches it. -/
structure OldMethod (h : Heap) (a : Nat) : Prop where
  old : a ∈ oldCells h
  used : isFree h a = false
  object : (h.mem a).format = typeObject
  size : compiledMethodWords ≤ (h.mem a).objectSize

theorem OldMethod.compiled (m : OldMethod h a) : IsCompiledMethod h a :=
  ⟨⟨Or.inl m.old, m.used⟩, m.object, m.size⟩

theorem IsCompiledMethod.oldMethod (m : IsCompiledMethod h a) (s : Spaces h)
    (old : objectIsYoung h a = false) : OldMethod h a := by
  obtain ⟨live, object, size⟩ := m
  refine ⟨?_, live.2, object, size⟩
  rcases live.1 with here | young
  · exact here
  · rw [youngCells_isYoung s.young young] at old; cases old

theorem OldMethod.stays (m : OldMethod h a) (s : Spaces h) (s' : Spaces k) (live : Live k a)
    (same : (k.mem a).format = (h.mem a).format ∧ (k.mem a).objectSize = (h.mem a).objectSize)
    (range : k.memoryYoung = h.memoryYoung ∧ k.memoryYoungSize = h.memoryYoungSize) :
    OldMethod k a := by
  have old : objectIsYoung k a = false := by
    rw [objectIsYoung, range.1, range.2]
    exact s.not_both (oldCells_isOld s.old m.old)
  exact IsCompiledMethod.oldMethod ⟨live, same.1 ▸ m.object, same.2 ▸ m.size⟩ s' old

theorem shape_of_outline {o o' : Object} (same : o'.outline = o.outline) :
    o'.format = o.format ∧ o'.objectSize = o.objectSize :=
  ⟨(congrArg Object.format same :), (congrArg Object.objectSize same :)⟩

theorem OldMethod.outline (m : OldMethod h a) (same : k.outline = h.outline) : OldMethod k a := by
  obtain ⟨object, size⟩ := shape_of_outline (outline_mem same a)
  exact ⟨outline_oldCells same ▸ m.old, (outline_isFree same a).trans m.used, object ▸ m.object,
    size ▸ m.size⟩

theorem OldMethod.heapGc (m : OldMethod h a) (s : Sound h) : OldMethod (SlateVm.heapGc h) a := by
  have c := heapGc_collected s
  obtain ⟨live, same⟩ := c.keeps a m.compiled.1 (Or.inl m.old)
  exact m.stays s.toSpaces c.sound.toSpaces live (shape_of_outline same)
    ⟨c.limits.2.2.1, c.limits.2.2.2⟩

theorem OldMethod.heapFullGc (m : OldMethod h a) (s : Sound h) (i : Intact h)
    (reached : FullReachable h a) (run : SlateVm.heapFullGc h = .ok k) : OldMethod k a := by
  obtain ⟨-, held⟩ := heapFullGc_old s i reached m.old run
  obtain ⟨object, size⟩ := shape_of_outline held.same
  exact ⟨held.old m.old, held.live.2, object ▸ m.object, size ▸ m.size⟩

theorem OldMethod.fresh {obj bytes : Nat} (m : OldMethod h a) (s : Spaces h)
    (f : Fresh h k obj bytes) : OldMethod k a := by
  obtain ⟨live, same⟩ := f.keeps a m.compiled.1
  have range : k.memoryYoung = h.memoryYoung ∧ k.memoryYoungSize = h.memoryYoungSize := by
    obtain ⟨_, _, _, _, _, rfl⟩ := f.others
    exact ⟨rfl, rfl⟩
  exact m.stays s f.sound.toSpaces live ⟨by rw [same], by rw [same]⟩ range

theorem OldMethod.withPins {x n : Nat} (m : OldMethod h a) (s : Sound h) :
    OldMethod (SlateVm.withPins h x n) a := by
  have same : ((SlateVm.withPins h x n).mem a).format = (h.mem a).format ∧
      ((SlateVm.withPins h x n).mem a).objectSize = (h.mem a).objectSize := by
    by_cases here : a = x
    · subst here
      simp [SlateVm.withPins]
    · simp [SlateVm.withPins, here]
  exact m.stays s.toSpaces (s.withPins).toSpaces ((withPins_live a).mpr m.compiled.1) same
    ⟨rfl, rfl⟩

theorem OldMethod.freed {x : Nat} (m : OldMethod h a) (s : Sound h) (other : a ≠ x) :
    OldMethod (heapFreeObject h x) a := by
  obtain ⟨remembered, shape, -⟩ := heapFreeObject_eq h x
  have same : (heapFreeObject h x).mem a = h.mem a := by
    rw [shape]
    simp [heapMakeFreeSpace, other]
  have cells := heapFreeObject_oldCells s.toSpaces x
  exact ⟨cells ▸ m.old, by rw [isFree, same]; exact m.used, same ▸ m.object, same ▸ m.size⟩

end Kept

section Steps

structure Tracked (oh : ObjectHeap) : Prop where
  sound : Sound oh.heap
  methods : ∀ m ∈ oh.optimizedMethods, OldMethod oh.heap m

/-- A step takes no optimized method away: a full collection finds them all reachable, and
none of them is forwarded. -/
def Act.Spares (oh : ObjectHeap) : Act → Prop
  | .heapFullGc => Intact oh.heap ∧ ∀ m ∈ oh.optimizedMethods, FullReachable oh.heap m
  | .forwardTo x y _ => x ∈ oh.optimizedMethods → x = y ∨ oopIsSmallint y = true
  | _ => True

variable {oh oh' : ObjectHeap}

theorem Tracked.outline (t : Tracked oh) {h : Heap} (same : h.outline = oh.heap.outline)
    {ms : Multiset Nat} (fewer : ∀ m ∈ ms, m ∈ oh.optimizedMethods) :
    Tracked { oh with heap := h, optimizedMethods := ms } :=
  ⟨t.sound.outline same, fun m hm => (t.methods m (fewer m hm)).outline same⟩

theorem Tracked.collected {h : Heap} (sound : Sound h)
    (methods : ∀ m ∈ oh.optimizedMethods, OldMethod h m) :
    Tracked (methodFlushCache { oh with heap := h }) := ⟨sound, methods⟩

theorem Tracked.forwardTo (t : Tracked oh) {x y resultStackPointer : Nat} {signalled : Bool}
    (spared : x ∈ oh.optimizedMethods → x = y ∨ oopIsSmallint y = true)
    (run : oh.primForwardTo x y resultStackPointer = .ok (oh', signalled)) : Tracked oh' := by
  obtain ⟨h, first, run⟩ := bind_eq_ok.mp run
  have stored : Tracked { oh with heap := h } :=
    t.outline (Cmd.run_outline first) fun _ hm => hm
  split at run
  · cases run
    exact stored
  split at run
  swap
  · cases run
    exact stored
  rename_i both
  simp only [Bool.and_eq_true, Bool.not_eq_true', bne_iff_ne] at both
  obtain ⟨⟨bigX, bigY⟩, distinct⟩ := both
  obtain ⟨k, forwarded, run⟩ := bind_eq_ok.mp run
  cases run
  have unpinned : Sound (heapUnpinObject h x) := by
    rw [heapUnpinObject_eq bigX]
    exact stored.sound.withPins
  rcases heapForward_spec unpinned x y with ⟨g, done, same, -⟩ | fails
  swap
  · cases fails.symm.trans forwarded
  cases done.symm.trans forwarded
  refine ⟨heapFreeObject_sound (unpinned.outline same) x, fun m hm => ?_⟩
  have other : m ≠ x := by
    rintro rfl
    rcases spared hm with here | small
    · exact distinct here
    · rw [bigY] at small; cases small
  have pinless : OldMethod (heapUnpinObject h x) m := by
    rw [heapUnpinObject_eq bigX]
    exact (stored.methods m hm).withPins stored.sound
  exact (pinless.outline same).freed (unpinned.outline same) other

theorem Tracked.optimize (t : Tracked oh) {method : Nat} (m : IsCompiledMethod oh.heap method)
    (run : oh.methodOptimize method = .ok oh') : Tracked oh' := by
  unfold ObjectHeap.methodOptimize at run
  split at run
  · cases run
    exact t
  rename_i stays
  simp only [Bool.or_eq_true, not_or, Bool.not_eq_true] at stays
  split at run
  · obtain ⟨h, done, run⟩ := bind_eq_ok.mp run
    cases run
    have same : SameOutline oh.heap h := performs_related (stores_outline _) done
    exact t.outline same fun _ hm => hm
  · obtain ⟨h, done, run⟩ := bind_eq_ok.mp run
    cases run
    have same : SameOutline oh.heap h := performs_related (methodKeepOldCode_outline method) done
    refine ⟨t.sound.outline same, fun n hn => ?_⟩
    rcases Multiset.mem_cons.mp hn with rfl | before
    · exact (m.oldMethod t.sound.toSpaces stays.1).outline same
    · exact (t.methods n before).outline same

theorem removeIfSending_spec (t : Tracked oh) {symbol method : Nat}
    (run : oh.removeIfSending symbol method = .ok oh') :
    Tracked oh' ∧ OnlyAt method oh.heap oh'.heap := by
  unfold ObjectHeap.removeIfSending ObjectHeap.methodUnoptimize at run
  split at run
  swap
  · cases run
    exact ⟨t, .refl method _⟩
  split at run
  · cases run
    exact ⟨t, .refl method _⟩
  obtain ⟨h, done, run⟩ := bind_eq_ok.mp run
  cases run
  have same : SameOutline oh.heap h := performs_related (stores_outline _) done
  exact ⟨t.outline same fun m hm => Multiset.mem_of_mem_filter hm,
    performs_related (methodUnoptimize_patches method) done⟩

theorem removeRounds_spec (symbol : Nat) (ms : List Nat) (t : Tracked oh)
    (run : ms.foldlM (ObjectHeap.removeIfSending symbol) oh = .ok oh') : Tracked oh' ∧
      ∀ a ∉ ms, oh'.heap.mem a = oh.heap.mem a := by
  induction ms generalizing oh with
  | nil =>
    cases run
    exact ⟨t, fun _ _ => rfl⟩
  | cons m ms ih =>
    rw [List.foldlM_cons] at run
    obtain ⟨mid, done, run⟩ := bind_eq_ok.mp run
    obtain ⟨t', only⟩ := removeIfSending_spec t done
    obtain ⟨last, rest⟩ := ih t' run
    refine ⟨last, fun a out => ?_⟩
    rw [List.mem_cons, not_or] at out
    exact (rest a out.2).trans (only a out.1)

theorem removeOptimizedSending_spec (t : Tracked oh) {symbol : Nat}
    (run : oh.methodRemoveOptimizedSending symbol = .ok oh') : Tracked oh' ∧
      ∀ a ∉ oh.optimizedMethods, oh'.heap.mem a = oh.heap.mem a := by
  obtain ⟨last, others⟩ := removeRounds_spec symbol _ t run
  exact ⟨last, fun a out => others a (by simpa using out)⟩

theorem Tracked.step (t : Tracked oh) {a : Act} (spares : a.Spares oh)
    (step : a.steps oh oh') : Tracked oh' := by
  cases a with
  | heapGc =>
    have collected := heapGc_collected t.sound
    rw [show oh' = methodFlushCache { oh with heap := heapGc oh.heap } from step]
    exact .collected collected.sound fun m hm => (t.methods m hm).heapGc t.sound
  | heapFullGc =>
    obtain ⟨h, run, rfl⟩ := step
    obtain ⟨intact, reached⟩ := spares
    rcases heapFullGc_collected t.sound with ⟨k, done, c⟩ | fails
    · cases done.symm.trans run
      exact .collected c.sound fun m hm =>
        (t.methods m hm).heapFullGc t.sound intact (reached m hm) run
    · cases fails.symm.trans run
  | allocate obj bytes =>
    obtain ⟨h, fresh, rfl⟩ := step
    exact ⟨fresh.sound, fun m hm => (t.methods m hm).fresh t.sound.toSpaces fresh⟩
  | heapPinObject x =>
    obtain ⟨h, run, rfl⟩ := step
    cases big : oopIsSmallint x with
    | true =>
      rw [heapPinObject, if_pos big] at run
      cases run
      exact t
    | false =>
      rcases heapPinObject_spec (h := oh.heap) big with done | fails
      · cases done.symm.trans run
        exact ⟨t.sound.withPins, fun m hm => (t.methods m hm).withPins t.sound⟩
      · cases fails.symm.trans run
  | heapUnpinObject x =>
    cases step
    cases big : oopIsSmallint x with
    | true => simpa only [heapUnpinObject, if_pos big] using t
    | false =>
      simp only [heapUnpinObject_eq big]
      exact ⟨t.sound.withPins, fun m hm => (t.methods m hm).withPins t.sound⟩
  | store c =>
    obtain ⟨h, run, rfl⟩ := step
    exact t.outline (Cmd.run_outline run) fun _ hm => hm
  | forwardTo x y resultStackPointer =>
    obtain ⟨signalled, run⟩ := step
    exact t.forwardTo spares run
  | optimize method => exact t.optimize step.1 step.2
  | removeOptimizedSending symbol => exact (removeOptimizedSending_spec t step).1

end Steps

section Runs

/-- Any number of steps, each of which is allowed where it starts. -/
inductive Runs (allowed : ObjectHeap → Act → Prop) (start : ObjectHeap) : ObjectHeap → Prop where
  | start : Runs allowed start start
  | step {oh oh' : ObjectHeap} (a : Act) : Runs allowed start oh → allowed oh a →
      a.steps oh oh' → Runs allowed start oh'

/-- The optimized methods are compiled methods, and the loop over them patches nothing else. -/
structure OptimizedLive (oh : ObjectHeap) : Prop where
  methods : ∀ m ∈ oh.optimizedMethods, IsCompiledMethod oh.heap m
  patches : ∀ symbol oh', oh.methodRemoveOptimizedSending symbol = .ok oh' →
    ∀ a, oh'.heap.mem a ≠ oh.heap.mem a → IsCompiledMethod oh.heap a

theorem Tracked.optimizedLive {oh : ObjectHeap} (t : Tracked oh) : OptimizedLive oh := by
  refine ⟨fun m hm => (t.methods m hm).compiled, fun symbol oh' run a changed => ?_⟩
  by_cases member : a ∈ oh.optimizedMethods
  · exact (t.methods a member).compiled
  · exact absurd ((removeOptimizedSending_spec t run).2 a member) changed

theorem Tracked.run {start oh : ObjectHeap} (t : Tracked start)
    (run : Runs (fun oh a => a.Spares oh) start oh) : Tracked oh := by
  induction run with
  | start => exact t
  | step a _ spares step ih => exact ih.step spares step

def blockObject : Nat → Object
  | 1024 => ⟨false, 1, 0, typeOopArray, 4, 280, 1496,
      fun | 4 => 1536 | 5 => 1024 | 21 => 1336 | _ => 1496⟩
  | 1336 => ⟨false, 2, 0, typeByteArray, 9, 40, 1496,
      fun | 4 => 1448 | 9 => 1 | 12 => 2 | 13 => 2 | _ => 1496⟩
  | 1448 => ⟨false, 3, 0, typeOopArray, 4, 16, 1496, fun _ => 1⟩
  | 1496 => ⟨false, 4, 0, typeObject, 5, 0, 1496, fun _ => 1⟩
  | 1536 => ⟨false, 5, 0, typeObject, 8, 0, 1496, fun k => if k = 4 then 1752 else 1⟩
  | 1600 => ⟨false, 6, 0, typeOopArray, 4, 0, 1496, fun _ => 0⟩
  | 1632 => ⟨false, 7, 0, typeObject, 10, 0, 1496, fun k => if k = 6 then 1712 else 1496⟩
  | 1712 => ⟨false, 8, 0, typeOopArray, 4, 8, 1496, fun _ => 1496⟩
  | 1752 => ⟨false, 9, 0, typeObject, 27, 0, 1632,
      fun | 9 => 1600 | 13 => 1600 | 14 => 1600 | _ => 1496⟩
  | 4096 => ⟨false, idHashFree, 0, typeObject, 16, 0, 0, fun _ => 0⟩
  | _ => ⟨false, 0, 0, typeObject, 0, 0, 0, fun _ => 0⟩

def blockHeap : ObjectHeap where
  heap :=
    { sampleHeap 2000 with
      mem := blockObject, memoryOldSize := 944, memoryYoungSize := 128
      rememberedOldObjects := ∅, cached := ⟨1336, 1712, 1496, 1496⟩ }
  primitiveMethodWindow := 1336
  compiledMethodWindow := 1496
  closureMethodWindow := 1496
  methodCache := []
  optimizedMethods := 0

/-- The block is optimized, the definition that held it gets another method, and a full
collection frees the block. -/
def blockLost : Except Halt ObjectHeap := do
  let oh ← blockHeap.methodOptimize 1752
  let oh ← oh.methodRemoveOptimizedSending 1600
  let h ← (Cmd.store 1536 4 1496).run oh.heap
  let h ← heapFullGc h
  .ok (methodFlushCache { oh with heap := h })

theorem blockHeap_runs : Sound blockHeap.heap ∧ Intact blockHeap.heap ∧
    IsCompiledMethod blockHeap.heap 1752 ∧
    (match blockHeap.methodOptimize 1752 with
      | .ok oh => decide (1752 ∈ oh.optimizedMethods)
      | .error _ => false) = true ∧
    (match blockLost with
      | .ok oh => decide (1752 ∈ oh.optimizedMethods) && isFree oh.heap 1752
      | .error _ => false) = true := by
  have spaces : Spaces blockHeap.heap := by decide +kernel
  have rooted : Rooted blockHeap.heap :=
    { aligned := by decide
      specialArray := .root (Or.inl (by decide +kernel))
      specialFields := by decide +kernel
      interpreter := .root (Or.inl (by decide +kernel))
      interpreterStays := Or.inl (by decide +kernel)
      stackField := by decide +kernel
      stackPointerField := by decide +kernel
      stackArray := by decide +kernel
      stackFields := by decide +kernel }
  refine ⟨⟨spaces, by decide, fun _ => spaces.young.boundary_start,
    fun _ => spaces.old.boundary_start, ⟨4096, by decide +kernel, by decide +kernel⟩⟩, ?_, ?_⟩
  · exact ⟨by decide +kernel, rooted, by decide +kernel⟩
  · decide +kernel

end Runs

end SlateVm
