import SlateVm.Interp.Primitives

/-! Runs of the virtual machine: as long as no bare store puts a young object into an old
one, every old object that points at a young one is remembered wherever a collection can
run. -/
namespace SlateVm
open Trace

/-- One step of the machine: an opcode, a part of a send, a primitive or an operation of
the object memory. Which method a send finds is decided elsewhere, so any may be found. -/
inductive VmOp where
  | memory (op : HeapOp)
  | stackPush (i value : Nat)
  | stackAllocate (i n : Nat)
  | setCodePointer (i n : Nat)
  | newArrayWith (i result : Nat) (registers : List Nat)
  | newClosure (i result block : Nat)
  | loadLiteral (i dest literal : Nat)
  | loadVariable (i var : Nat)
  | storeVariable (i var : Nat)
  | loadFreeVariable (i dest lexOffset varIndex : Nat)
  | storeFreeVariable (i lexOffset varIndex src : Nat)
  | moveRegister (i dest src : Nat)
  | isNil (i result src : Nat)
  | isIdenticalTo (i result dest src : Nat)
  | loadEnvironment (i dest : Nat)
  | returnRegister (i reg contextDepth prevCodePointer : Nat)
  | returnValue (i result prevCodePointer : Nat)
  | resume (i prevCodePointer : Nat)
  | apply (i closure : Nat) (args opts : List Nat) (resultStackPointer : Nat)
  | dispatchOptionalKeyword (i key value : Nat)
  | exportArguments (args : List Nat)
  | storeResult (i resultStackPointer value : Nat)
  | dispatchMarks (marks : List (Nat × Nat × Nat))
  | picSetup (caller : Nat)
  | picAddCallee (caller entry definition : Nat) (args : List Nat)
  | unoptimize (method : Nat)
  | giveUpOptimizing (method : Nat)
  | optimize (method registers : Nat) (code : Heap → List Nat)
  | forwardTo (i x y resultStackPointer : Nat)
  | atSlotNamedPut (i obj name value resultStackPointer : Nat)
  | atPut (i array index value resultStackPointer : Nat)
  | clone (i obj resultStackPointer : Nat)
  | cloneSettingSlots (i obj : Nat) (slots : List (Nat × Nat)) (resultStackPointer : Nat)
  | addSlotNamedAt (obj name value offset : Nat)
  | removeSlot (obj name : Nat)
  | arrayReplace (i dest src start last repStart resultStackPointer : Nat)
  | setMap (i obj map resultStackPointer : Nat)
  | initializeThreadOn (thread method : Nat)
  | ensure (i body ensureHandler resultStackPointer : Nat)
  | asMethod (i method selector : Nat) (roles : List Nat) (oldDef : Option Nat)
      (flushed : List Nat) (slotAccessor : Heap → Nat) (resultStackPointer : Nat)
  | removeFrom (i method : Nat) (roles : List Nat) (definition resultStackPointer : Nat)
  | fillResult (array : Nat) (stored : Bool) (j value : Nat)

def VmOp.program : VmOp → Vm Unit
  | .memory op => do
    let _ ← Vm.memory op
  | .stackPush i value => interpreterStackPush i value
  | .stackAllocate i n => interpreterStackAllocate i n
  | .setCodePointer i n => SlateVm.setCodePointer i n
  | .newArrayWith i result registers => opNewArrayWith i result registers
  | .newClosure i result block => opNewClosure i result block
  | .loadLiteral i dest literal => opLoadLiteral i dest literal
  | .loadVariable i var => opLoadVariable i var
  | .storeVariable i var => opStoreVariable i var
  | .loadFreeVariable i dest lexOffset varIndex => opLoadFreeVariable i dest lexOffset varIndex
  | .storeFreeVariable i lexOffset varIndex src => opStoreFreeVariable i lexOffset varIndex src
  | .moveRegister i dest src => opMoveRegister i dest src
  | .isNil i result src => opIsNil i result src
  | .isIdenticalTo i result dest src => opIsIdenticalTo i result dest src
  | .loadEnvironment i dest => opLoadEnvironment i dest
  | .returnRegister i reg contextDepth prevCodePointer =>
    opReturnRegister i reg contextDepth prevCodePointer
  | .returnValue i result prevCodePointer => opReturnValue i result prevCodePointer
  | .resume i prevCodePointer => opResume i prevCodePointer
  | .apply i closure args opts resultStackPointer =>
    interpreterApplyToArityWithOptionals i closure args opts resultStackPointer
  | .dispatchOptionalKeyword i key value => interpreterDispatchOptionalKeyword i key value
  | .exportArguments args => SlateVm.exportArguments args
  | .storeResult i resultStackPointer value => SlateVm.storeResult i resultStackPointer value
  | .dispatchMarks marks => SlateVm.dispatchMarks marks
  | .picSetup caller => methodPicSetup caller
  | .picAddCallee caller entry definition args => methodPicAddCallee caller entry definition args
  | .unoptimize method => methodUnoptimize method
  | .giveUpOptimizing method => methodGiveUpOptimizing method
  | .optimize method registers code => methodOptimize method registers code
  | .forwardTo i x y resultStackPointer => primForwardTo i x y resultStackPointer
  | .atSlotNamedPut i obj name value resultStackPointer =>
    primAtSlotNamedPut i obj name value resultStackPointer
  | .atPut i array index value resultStackPointer =>
    primAtPut i array index value resultStackPointer
  | .clone i obj resultStackPointer => primClone i obj resultStackPointer
  | .cloneSettingSlots i obj slots resultStackPointer =>
    primCloneSettingSlots i obj slots resultStackPointer
  | .addSlotNamedAt obj name value offset => objectAddSlotNamedAt obj name value offset
  | .removeSlot obj name => objectRemoveSlot obj name
  | .arrayReplace i dest src start last repStart resultStackPointer =>
    primArrayReplace i dest src start last repStart resultStackPointer
  | .setMap i obj map resultStackPointer => primSetMap i obj map resultStackPointer
  | .initializeThreadOn thread method => primInitializeThreadOn thread method
  | .ensure i body ensureHandler resultStackPointer =>
    primEnsure i body ensureHandler resultStackPointer
  | .asMethod i method selector roles oldDef flushed slotAccessor resultStackPointer =>
    primAsMethod i method selector roles oldDef flushed slotAccessor resultStackPointer
  | .removeFrom i method roles definition resultStackPointer =>
    primRemoveFrom i method roles definition resultStackPointer
  | .fillResult array stored j value => SlateVm.fillResult array stored j value

/-- A fresh image: nothing has been forwarded, and nothing points into young space. -/
structure FreshImage (h : Heap) (size limit youngLimit : Nat) : Prop
    extends Image h size limit youngLimit where
  whole : youngLimit % sizeofWord = 0
  unforwarded : ∀ a, (h.mem a).hash ≠ idHashForwarded
  inward : ∀ o ∈ cellsOf h.mem h.memoryOld size, ∀ v ∈ pointers h o,
    v < h.memoryYoung ∨ h.memoryYoung + youngLimit ≤ v

theorem heapInitialize_guarded {h k : Heap} {size limit youngLimit specialOop nextHash : Nat}
    (image : FreshImage h size limit youngLimit)
    (run : heapInitialize h size limit youngLimit specialOop nextHash = .ok k) :
    Guarded [] k := by
  have sound := heapInitialize_sound image.toImage image.whole run
  by_cases least : headerSizeWords + 1 ≤ youngLimit / sizeofWord
  swap
  · simp [heapInitialize, require, least, bind, Except.bind] at run
  simp only [heapInitialize, require, least, decide_true, if_true, bind, Except.bind,
    Except.ok.injEq] at run
  have fixed : k.memoryOld = h.memoryOld ∧ k.memoryOldSize = size ∧
      k.memoryYoung = h.memoryYoung ∧ k.memoryYoungSize = youngLimit := by
    subst run
    exact ⟨rfl, rfl, rfl, rfl⟩
  have others : ∀ a, a ≠ h.memoryYoung → k.mem a = h.mem a := by
    intro a other
    subst run
    simp [heapMakeFreeSpace, other]
  refine ⟨fixed.1 ▸ image.even.1, fun a hash => ?_, fun o ho _ points => ?_⟩
  · by_cases here : a = h.memoryYoung
    · subst here run
      simp [heapMakeFreeSpace, idHashFree, idHashForwarded, idHashReserved] at hash
    · rw [others a here] at hash
      exact absurd hash (image.unforwarded a)
  · have notYoung := sound.not_both (oldCells_isOld sound.old ho)
    have other : o ≠ h.memoryYoung := by
      rintro rfl
      have positive : 0 < youngLimit := by
        simp only [headerSizeWords, sizeofWord] at least
        omega
      rw [← Bool.not_eq_true, objectIsYoung, objectInMemory_iff, fixed.2.2.1, fixed.2.2.2] at notYoung
      exact notYoung ⟨Nat.le_refl _, by omega⟩
    have here : o ∈ cellsOf h.mem h.memoryOld size := by
      rw [oldCells, fixed.1, fixed.2.1] at ho
      rwa [cellsOf_congr image.tiled fun c hc => ?_] at ho
      have bounds := image.tiled.tiles.bounds c hc
      have apart := image.apart
      have fits := image.fits
      have ne : c ≠ h.memoryYoung := by
        have positive : 0 < youngLimit := by
          simp only [headerSizeWords, sizeofWord] at least
          omega
        omega
      simp only [extent, others c ne]
    obtain ⟨v, hv, young⟩ := pointsToYoung_exists.mp points
    have member : v ∈ pointers h o := by simpa only [pointers, fieldPointers, others o other] using hv
    rw [objectIsYoung, objectInMemory_iff, fixed.2.2.1, fixed.2.2.2] at young
    have outside := image.inward o here v member
    omega

/-- In every run with fit events the old objects that point at young ones are remembered,
between the steps and wherever a step may collect. -/
def AlwaysRemembers (h : Heap) : Prop :=
  ∀ k, Reaches VmOp.program h k → Remembers k ∧
    ∀ op : VmOp, (∀ e ∈ (op.program.run k).events, e.Fit) →
      ∀ g next, Event.memory g next ∈ (op.program.run k).events → Remembers g

theorem old_objects_remembered {h₀ h : Heap} {size limit youngLimit specialOop nextHash : Nat}
    (image : FreshImage h₀ size limit youngLimit)
    (start : heapInitialize h₀ size limit youngLimit specialOop nextHash = .ok h) :
    AlwaysRemembers h := by
  intro k run
  have kept := run.keeps ⟨heapInitialize_sound image.toImage image.whole start,
    heapInitialize_guarded image start⟩
  exact ⟨kept.2.remembers, fun op fits g next member =>
    (op.program.keeps k kept fits).1 (.memory g next) member⟩

/-- An image of the special objects, an interpreter whose stack is full, and the stack,
which is also the prototype of arrays. -/
def threadObject : Nat → Object
  | 1024 => ⟨false, 1, 0, typeOopArray, 4, 48, 1024, fun | 9 => 1216 | _ => 1⟩
  | 1104 => ⟨false, 2, 0, typeByteArray, 9, 40, 1024, fun | 4 => 1216 | 12 => 1 | 13 => 1 | _ => 1⟩
  | 1216 => ⟨false, 3, 0, typeOopArray, 4, 16, 1024, fun _ => 3⟩
  | _ => ⟨false, 0, 0, typeObject, 0, 0, 0, fun _ => 0⟩

def threadImage : Heap := { sampleHeap 1000 with mem := threadObject }

theorem threadImage_fresh : FreshImage threadImage 240 1000 128 where
  tiled := by decide +kernel
  fits := by decide
  apart := Or.inl (by decide)
  even := by decide
  whole := by decide
  unforwarded := by
    intro a
    change (threadObject a).hash ≠ idHashForwarded
    unfold threadObject
    split <;> decide
  inward := by decide +kernel

def loadedThread : Heap :=
  heapMakeFreeSpace { threadImage with
    memoryOldSize := 240, memoryYoungSize := 128, rememberedOldObjects := ∅, doFullGCNext := true
    nextFree := 4096, nextOldFree := 1024, lastHash := 0 } 4096 16

theorem old_objects_remembered_thread : AlwaysRemembers loadedThread :=
  @old_objects_remembered _ _ 240 1000 128 0 0 threadImage_fresh rfl

/-- Growing the stack of an interpreter in old space stores a young array into it, and
the interpreter is not remembered. -/
theorem old_objects_remembered_fails :
    FreshImage threadImage 240 1000 128 ∧
      heapInitialize threadImage 240 1000 128 0 0 = .ok loadedThread ∧
      ((VmOp.stackAllocate 1104 1).program.run loadedThread).result.isOk = true ∧
      ¬Remembers ((VmOp.stackAllocate 1104 1).program.run loadedThread).state := by
  refine ⟨threadImage_fresh, rfl, by decide +kernel, fun remembers => ?_⟩
  have old : 1104 ∈ oldCells ((VmOp.stackAllocate 1104 1).program.run loadedThread).state := by
    decide +kernel
  have missing : 1104 ∉
      ((VmOp.stackAllocate 1104 1).program.run loadedThread).state.rememberedOldObjects := by
    decide +kernel
  exact missing (remembers 1104 old (by decide +kernel) 4096 (by decide +kernel)
    (by decide +kernel) (by decide +kernel))

end SlateVm
