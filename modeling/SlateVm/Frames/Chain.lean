import SlateVm.Frames.Code

/-! The chain of frames that the records on the stack stand for: a list of activations, with
what each of them holds on to. -/
namespace SlateVm.Frames

section Heaps

def Obj.Kept : Obj → Obj → Prop
  | .lexicalContext framePointer _, obj => ∃ held, obj = .lexicalContext framePointer held
  | .other, _ => True
  | .oopArray _, _ => True
  | kept, obj => obj = kept

def Heap.Extends (h h' : Heap) : Prop := ∀ o, (h.object o).Kept (h'.object o)

theorem Obj.Kept.refl (obj : Obj) : obj.Kept obj := by
  cases obj <;> simp [Obj.Kept]

theorem Heap.Extends.refl (h : Heap) : h.Extends h := fun o => Obj.Kept.refl (h.object o)

theorem Heap.Extends.trans {h h' h'' : Heap} (first : h.Extends h') (more : h'.Extends h'') :
    h.Extends h'' := by
  intro o
  have one := first o
  have two := more o
  revert one two
  cases h.object o <;> simp only [Obj.Kept] <;> intro one two
  case lexicalContext =>
    obtain ⟨held, same⟩ := one
    simpa only [same, Obj.Kept] using two
  all_goals first | trivial | simpa only [one, Obj.Kept] using two

theorem Heap.object_allocate (h : Heap) (obj : Obj) (o : Nat) :
    (h.allocate obj).1.object o = if o = h.objects.length then obj else h.object o := by
  unfold Heap.allocate Heap.object
  rcases Nat.lt_trichotomy o h.objects.length with below | rfl | above
  · rw [if_neg (by omega)]
    simp [List.getD, List.getElem?_append_left below]
  · simp [List.getD]
  · rw [if_neg (by omega)]
    simp [List.getD, List.getElem?_eq_none (show (h.objects ++ [obj]).length ≤ o by simp; omega),
      List.getElem?_eq_none (show h.objects.length ≤ o by omega)]

theorem Heap.object_length (h : Heap) : h.object h.objects.length = .other := by
  simp [Heap.object, List.getD]

theorem Heap.extends_allocate (h : Heap) (obj : Obj) : h.Extends (h.allocate obj).1 := by
  intro o
  rw [h.object_allocate obj o]
  split
  next here =>
    subst here
    rw [h.object_length]
    trivial
  next => exact Obj.Kept.refl _

theorem Heap.object_update (h : Heap) (o k : Nat) (obj : Obj) (inside : h.object o ≠ .other) :
    (h.update o obj).object k = if k = o then obj else h.object k := by
  have bound : o < h.objects.length := by
    by_contra outside
    apply inside
    simp [Heap.object, List.getD, List.getElem?_eq_none (show h.objects.length ≤ o by omega)]
  unfold Heap.update Heap.object
  split
  next here =>
    subst here
    simp [List.getD, bound]
  next apart => simp [List.getD, List.getElem?_set_ne (Ne.symm apart)]

theorem Heap.extends_update {h : Heap} {o framePointer : Nat} {held more : List Value}
    (here : h.object o = .lexicalContext framePointer held) :
    h.Extends (h.update o (.lexicalContext framePointer more)) := by
  intro k
  rw [h.object_update o k _ (by rw [here]; exact fun h => by cases h)]
  split
  next same =>
    subst same
    rw [here]
    exact ⟨more, rfl⟩
  next => exact Obj.Kept.refl _

theorem Heap.Extends.context {h h' : Heap} (extends' : h.Extends h') {o framePointer : Nat}
    (here : ∃ held, h.object o = .lexicalContext framePointer held) :
    ∃ held, h'.object o = .lexicalContext framePointer held := by
  obtain ⟨held, here⟩ := here
  have kept := extends' o
  rw [here] at kept
  exact kept

theorem Heap.Extends.compiledMethod {h h' : Heap} (extends' : h.Extends h') {v : Value}
    {m : CompiledMethod} (here : h.compiledMethod v = some m) : h'.compiledMethod v = some m := by
  cases v <;> simp only [Heap.compiledMethod] at here ⊢
  case special s => cases s <;> simp_all
  case object o =>
    have kept := extends' o
    revert here kept
    cases h.object o <;> simp only [Obj.Kept] <;> intro here kept
    all_goals first | contradiction | simpa only [kept] using here
  all_goals contradiction

theorem Heap.Extends.method {h h' : Heap} (extends' : h.Extends h') {v method : Value}
    (here : h.method v = some method) : h'.method v = some method := by
  cases v <;> simp only [Heap.method] at here ⊢
  case special s => cases s <;> simp_all
  case object o =>
    have kept := extends' o
    revert here kept
    cases h.object o <;> simp only [Obj.Kept] <;> intro here kept
    all_goals first | contradiction | simpa only [kept] using here
  all_goals contradiction

end Heaps

/-- A call that has not returned: its record, the cells of its variables and registers, and the
ensure handler that was pushed on top of them. -/
structure Activation where
  framePointer : Nat
  result : Int
  codePointer : Int
  closure : Value
  context : Value
  cells : Nat
  handler : Option Value

namespace Activation

def top (a : Activation) : Nat := a.framePointer + a.cells + if a.handler.isSome then 2 else 0

def InCells (a : Activation) (cell : Int) : Prop :=
  a.framePointer ≤ cell ∧ cell < a.framePointer + a.cells

/-- A cell of the activation's record or of its handler. The first frame does not need the stack
pointer before it. -/
def Holds (a : Activation) (cell : Nat) : Prop :=
  (a.framePointer ≤ cell + 5 ∧ cell < a.framePointer) ∨
  (6 < a.framePointer ∧ cell + 6 = a.framePointer) ∨
  (a.handler.isSome ∧ a.framePointer + a.cells ≤ cell ∧ cell < a.framePointer + a.cells + 2)

end Activation

def previousPointer : List Activation → Nat
  | [] => 0
  | a :: _ => a.framePointer

/-- The cells of the record hold what the activation says, above the frames of `rest`. -/
structure Recorded (stack : Nat → Value) (a : Activation) (rest : List Activation) : Prop where
  before : 6 < a.framePointer → stack (a.framePointer - 6) = .smallint (a.framePointer - 6 : Nat)
  result : stack (a.framePointer - 5) = .smallint a.result
  codePointer : stack (a.framePointer - 4) = .smallint a.codePointer
  closure : stack (a.framePointer - 3) = a.closure
  context : stack (a.framePointer - 2) = a.context
  previous : stack (a.framePointer - 1) = .smallint (previousPointer rest)

/-- The chain of handlers is `ensure` with the activation and `outer` without it. -/
def Handled (stack : Nat → Value) (a : Activation) (ensure outer : Nat) : Prop :=
  match a.handler with
  | none => outer = ensure
  | some handler => ensure = a.framePointer + a.cells ∧ stack ensure = .smallint outer ∧
      stack (ensure + 1) = handler

structure Activation.Sound (h : Heap) (a : Activation) : Prop where
  context : ∀ o, a.context = .object o → ∃ held, h.object o = .lexicalContext a.framePointer held
  method : ∃ method m, h.method a.closure = some method ∧ h.compiledMethod method = some m ∧
    m.registerCount ≤ a.cells

/-- The activations below `top`, innermost first, with `ensure` as their chain of handlers. -/
def Chain (h : Heap) (stack : Nat → Value) : Nat → Nat → List Activation → Prop
  | _, ensure, [] => ensure = 0
  | top, ensure, a :: rest =>
    6 ≤ a.framePointer ∧ a.top ≤ top ∧ Recorded stack a rest ∧ a.Sound h ∧
      ∃ outer, Handled stack a ensure outer ∧ Chain h stack (a.framePointer - 6) outer rest

def Harmless (acts : List Activation) (cell : Int) : Prop :=
  ∀ a ∈ acts, ∀ k, a.Holds k → (k : Int) ≠ cell

section Chains

variable {h h' : Heap} {stack stack' : Nat → Value} {top ensure : Nat} {a : Activation}
  {acts rest : List Activation}

theorem Activation.Holds.lt_top {k : Nat} (holds : a.Holds k) : k < a.top := by
  unfold Activation.Holds at holds
  unfold Activation.top
  rcases holds with record | before | ⟨guarded, handler⟩
  · omega
  · omega
  · rw [if_pos guarded]
    omega

theorem Activation.Holds.ge {k : Nat} (holds : a.Holds k) : a.framePointer ≤ k + 6 := by
  unfold Activation.Holds at holds
  omega

theorem Chain.below (c : Chain h stack top ensure acts) : ∀ a ∈ acts, a.top ≤ top := by
  induction acts generalizing top ensure with
  | nil => simp
  | cons a rest ih =>
    obtain ⟨six, under, _, _, outer, _, down⟩ := c
    intro b hb
    rcases List.mem_cons.mp hb with rfl | hb
    · exact under
    · have inner := ih down b hb
      unfold Activation.top at under
      omega

theorem Chain.six (c : Chain h stack top ensure acts) : ∀ a ∈ acts, 6 ≤ a.framePointer := by
  induction acts generalizing top ensure with
  | nil => simp
  | cons a rest ih =>
    obtain ⟨six, _, _, _, outer, _, down⟩ := c
    intro b hb
    rcases List.mem_cons.mp hb with rfl | hb
    · exact six
    · exact ih down b hb

theorem Chain.sound (c : Chain h stack top ensure acts) : ∀ a ∈ acts, a.Sound h := by
  induction acts generalizing top ensure with
  | nil => simp
  | cons a rest ih =>
    obtain ⟨_, _, _, sound, outer, _, down⟩ := c
    intro b hb
    rcases List.mem_cons.mp hb with rfl | hb
    · exact sound
    · exact ih down b hb

theorem Chain.cells (c : Chain h stack top ensure acts)
    (same : ∀ a ∈ acts, ∀ k, a.Holds k → stack' k = stack k) : Chain h stack' top ensure acts := by
  induction acts generalizing top ensure with
  | nil => exact c
  | cons a rest ih =>
    obtain ⟨six, under, recorded, sound, outer, handled, down⟩ := c
    have here : ∀ k, a.Holds k → stack' k = stack k := same a (List.mem_cons_self ..)
    refine ⟨six, under, ?_, sound, outer, ?_, ih down fun b hb => same b (List.mem_cons_of_mem _ hb)⟩
    · constructor
      · intro above
        rw [here _ (by unfold Activation.Holds; omega), recorded.before above]
      · rw [here _ (by unfold Activation.Holds; omega), recorded.result]
      · rw [here _ (by unfold Activation.Holds; omega), recorded.codePointer]
      · rw [here _ (by unfold Activation.Holds; omega), recorded.closure]
      · rw [here _ (by unfold Activation.Holds; omega), recorded.context]
      · rw [here _ (by unfold Activation.Holds; omega), recorded.previous]
    · unfold Handled at handled ⊢
      cases guarded : a.handler with
      | none => simpa only [guarded] using handled
      | some v =>
        simp only [guarded] at handled ⊢
        obtain ⟨place, outward, held⟩ := handled
        have some' : a.handler.isSome = true := by rw [guarded]; rfl
        refine ⟨place, ?_, ?_⟩
        · rw [here _ (.inr (.inr ⟨some', by omega, by omega⟩)), outward]
        · rw [here _ (.inr (.inr ⟨some', by omega, by omega⟩)), held]

theorem Chain.objects (c : Chain h stack top ensure acts) (kept : ∀ a ∈ acts, a.Sound h → a.Sound h') :
    Chain h' stack top ensure acts := by
  induction acts generalizing top ensure with
  | nil => exact c
  | cons a rest ih =>
    obtain ⟨six, under, recorded, sound, outer, handled, down⟩ := c
    exact ⟨six, under, recorded, kept a (List.mem_cons_self ..) sound, outer, handled,
      ih down fun b hb => kept b (List.mem_cons_of_mem _ hb)⟩

theorem Activation.Sound.extend (sound : a.Sound h) (extends' : h.Extends h') : a.Sound h' := by
  obtain ⟨method, m, isMethod, compiled, fits⟩ := sound.method
  exact ⟨fun o here => extends'.context (sound.context o here),
    method, m, extends'.method isMethod, extends'.compiledMethod compiled, fits⟩

theorem Chain.extend (c : Chain h stack top ensure acts) (extends' : h.Extends h') :
    Chain h' stack top ensure acts := c.objects fun _ _ sound => sound.extend extends'

end Chains

end SlateVm.Frames
