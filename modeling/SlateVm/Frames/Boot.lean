import SlateVm.Frames.Rounds

/-! The frame that the image is generated with, from which every run starts. -/
namespace SlateVm.Frames

section Boot

variable (h : Heap) (method : Value) (m : CompiledMethod)

def imageInterpreter : Interpreter where
  heap := h
  stack := fun k =>
    [.smallint 0, .smallint (-1), .smallint 0, method, .smallint 0, .smallint 0, .smallint 0].getD k .nil
  stackSize := 16
  stackPointer := 6
  framePointer := 6
  codePointer := 0
  codeSize := m.code.length
  method := method
  closure := method
  lexicalContext := .smallint 0
  ensureHandlers := 0

def booted : Option Interpreter := (imageInterpreter h method m).stackAllocate m.registerCount

def bootFrame : Activation := ⟨6, -1, 0, method, .smallint 0, m.registerCount, none⟩

end Boot

variable {h : Heap} {method : Value} {m : CompiledMethod} {i i' : Interpreter}

theorem stackAllocate_fields {n : Nat} (run : i.stackAllocate n = some i') :
    i'.codeSize = i.codeSize ∧ i'.method = i.method ∧ i'.closure = i.closure ∧
      i'.lexicalContext = i.lexicalContext := by
  unfold Interpreter.stackAllocate at run
  split at run
  · cases run
    unfold Interpreter.growFor
    split <;> exact ⟨rfl, rfl, rfl, rfl⟩
  · cases run

theorem booted_running (itself : h.method method = some method)
    (compiled : h.compiledMethod method = some m) (run : booted h method m = some i) :
    Running i [bootFrame method m] := by
  have grown := stackAllocate_allocated run
  obtain ⟨codeSize, method', closure, context⟩ := stackAllocate_fields run
  have cell : ∀ k < 6, i.stack k = (imageInterpreter h method m).stack k := grown.cells
  have heap : i.heap = h := grown.heap
  have recorded : Recorded i.stack (bootFrame method m) [] := by
    constructor
    · intro above
      exact absurd above (Nat.lt_irrefl 6)
    · exact cell 1 (by decide)
    · exact cell 2 (by decide)
    · exact cell 3 (by decide)
    · exact cell 4 (by decide)
    · exact cell 5 (by decide)
  have sound : (bootFrame method m).Sound i.heap := by
    rw [heap]
    exact ⟨(fun o here => by cases here), method, m, itself, compiled, le_refl _⟩
  refine ⟨⟨⟨le_refl 6, grown.stackPointer.ge, recorded, sound, 0, ?_, rfl⟩, grown.framePointer,
    grown.room⟩, ?_, ?_, ?_, m, ?_, codeSize⟩
  · exact grown.ensureHandlers.symm
  · intro a ha
    obtain rfl : bootFrame method m = a := by simpa using ha
    exact closure
  · intro a ha
    obtain rfl : bootFrame method m = a := by simpa using ha
    exact context
  · rw [heap, closure, method']
    exact itself
  · rw [heap, method']
    exact compiled

section Programs

def rounds (allowed : Interpreter → Bool) (w : World) : Nat → Interpreter → Option Interpreter
  | 0, i => some i
  | n + 1, i => if allowed i then (interpret w i).bind (rounds allowed w n) else none

theorem computed {α β : Type} {x : Option α} {a : α} (found : x = some a) {f : α → β} {b : β}
    (value : x.map f = some b) : f a = b := by
  rw [found, Option.map_some, Option.some.injEq] at value
  exact value

def framesWithin (frames : List Nat) (i : Interpreter) : Bool :=
  frames.contains i.framePointer && frames.all fun frame =>
    match (i.stack (frame - 1)).index with
    | some previous => decide (previous < functionFrameSize) || frames.contains previous
    | none => true

theorem ActiveFrame.within {frames : List Nat} {frame : Nat} (active : ActiveFrame i frame)
    (within : framesWithin frames i) : frame ∈ frames := by
  simp only [framesWithin, Bool.and_eq_true, List.contains_iff_mem, List.all_eq_true] at within
  induction active with
  | current => exact within.1
  | caller _ here six ih =>
    have next := within.2 _ ih
    simp only [here, Value.index_ofNat, Bool.or_eq_true, decide_eq_true_eq,
      List.contains_iff_mem] at next
    exact next.resolve_left (Nat.not_lt.mpr six)

theorem rounds_run {allowed : Interpreter → Bool} {ok : Interpreter → Prop} {w : World}
    (sound : ∀ i, allowed i → ok i) {n : Nat} (run : rounds allowed w n i = some i') :
    Relation.ReflTransGen (Round ok) i i' := by
  induction n generalizing i with
  | zero =>
    cases run
    exact .refl
  | succ n ih =>
    unfold rounds at run
    split at run
    next here =>
      simp only [Option.bind_eq_some_iff] at run
      obtain ⟨next, step, more⟩ := run
      exact (ih more).head (.interpret w i.heap (Settles.refl i) (sound i here) step)
    next => cases run

def plainMethod (inputs registers : Nat) (code : List Value) : CompiledMethod :=
  ⟨.nil, inputs, inputs, false, [], false, .nil, code, registers⟩

def answering (method : Value) : World where
  dispatch _ _ _ := some method
  primitive _ _ _ := []
  map v := v
  hash _ := 0
  stackMoves := false
  address _ := 0
  depth := 2

end Programs

end SlateVm.Frames
