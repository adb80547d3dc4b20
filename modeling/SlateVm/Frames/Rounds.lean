import Mathlib.Logic.Relation
import SlateVm.Frames.Returns

/-! Runs of the interpreter, one round after the other, and what they leave of the frames below
the ones that they work in. -/
namespace SlateVm.Frames

inductive ActiveFrame (i : Interpreter) : Nat → Prop
  | current : ActiveFrame i i.framePointer
  | caller {frame previous : Nat} : ActiveFrame i frame →
      i.stack (frame - 1) = .smallint previous → 6 ≤ previous → ActiveFrame i previous

def HomeActive (i : Interpreter) (context : Nat) : Prop :=
  ∃ frame, ActiveFrame i frame ∧ i.stack (frame - 2) = .object context

/-- Between two rounds the other parts of the machine may do to the objects what they like, but
contexts keep their frame pointers, and the methods of active frames are not replaced. -/
structure Settles (i : Interpreter) (h : Heap) : Prop where
  contexts : ∀ o framePointer, (∃ held, i.heap.object o = .lexicalContext framePointer held) →
    ∃ held, h.object o = .lexicalContext framePointer held
  methods : ∀ frame, ActiveFrame i frame → ∀ method m,
    i.heap.method (i.stack (frame - 3)) = some method → i.heap.compiledMethod method = some m →
    h.method (i.stack (frame - 3)) = some method ∧ h.compiledMethod method = some m

/-- One round, in a state that `ok` allows, or an interrupt. -/
inductive Round (ok : Interpreter → Prop) (i : Interpreter) : Interpreter → Prop
  | interpret {i' : Interpreter} (w : World) (h : Heap) (settles : Settles i h)
      (allowed : ok { i with heap := h }) (run : interpret w { i with heap := h } = some i') :
      Round ok i i'
  | interrupt {i' : Interpreter} (w : World) (h : Heap) (settles : Settles i h)
      (run : interrupt w { i with heap := h } = some i') : Round ok i i'

theorem Settles.refl (i : Interpreter) : Settles i i.heap :=
  ⟨fun _ _ here => here, fun _ _ _ _ isMethod compiled => ⟨isMethod, compiled⟩⟩

section Active

variable {i : Interpreter} {acts : List Activation} {h : Heap}

theorem Running.above_active (running : Running i acts) :
    ∀ above a rest, acts = above ++ a :: rest → ActiveFrame i a.framePointer := by
  intro above
  induction above using List.reverseRecOn with
  | nil =>
    rintro a rest rfl
    have frame : i.framePointer = a.framePointer := running.framePointer
    rw [← frame]
    exact .current
  | append_singleton above b ih =>
    intro a rest split
    have split' : acts = above ++ b :: (a :: rest) := by
      rw [split, List.append_assoc]
      rfl
    have inner := ih b (a :: rest) split'
    have recorded : Recorded i.stack b (a :: rest) := by
      have chain := running.chain
      rw [split'] at chain
      exact chain.recorded
    exact .caller inner recorded.previous (running.chain.six a (by rw [split]; simp))

theorem Running.active_iff (running : Running i acts) (nonempty : acts ≠ []) (frame : Nat) :
    ActiveFrame i frame ↔ ∃ a ∈ acts, a.framePointer = frame := by
  constructor
  · intro active
    induction active with
    | current =>
      obtain ⟨a, rest, rfl⟩ := List.exists_cons_of_ne_nil nonempty
      exact ⟨a, List.mem_cons_self .., running.framePointer.symm⟩
    | @caller frame previous _ here six ih =>
      obtain ⟨a, ha, rfl⟩ := ih
      obtain ⟨above, rest, rfl⟩ := List.append_of_mem ha
      have recorded := running.chain.recorded
      rw [recorded.previous, Value.smallint.injEq, Int.natCast_inj] at here
      cases rest with
      | nil =>
        rw [← here] at six
        exact absurd six (by decide)
      | cons b rest => exact ⟨b, by simp, here⟩
  · rintro ⟨a, ha, rfl⟩
    obtain ⟨above, rest, split⟩ := List.append_of_mem ha
    exact running.above_active above a rest split

theorem Running.recorded (running : Running i acts) {a : Activation} (ha : a ∈ acts) :
    ∃ rest, Recorded i.stack a rest := by
  obtain ⟨above, rest, rfl⟩ := List.append_of_mem ha
  exact ⟨rest, running.chain.recorded⟩

theorem Running.home_iff (running : Running i acts) (nonempty : acts ≠ []) (context : Nat) :
    HomeActive i context ↔ ∃ a ∈ acts, a.context = .object context := by
  constructor
  · rintro ⟨frame, active, here⟩
    obtain ⟨a, ha, rfl⟩ := (running.active_iff nonempty frame).mp active
    obtain ⟨rest, recorded⟩ := running.recorded ha
    exact ⟨a, ha, recorded.context.symm.trans here⟩
  · rintro ⟨a, ha, here⟩
    obtain ⟨rest, recorded⟩ := running.recorded ha
    exact ⟨a.framePointer, (running.active_iff nonempty _).mpr ⟨a, ha, rfl⟩,
      recorded.context.trans here⟩

theorem Running.settle (running : Running i acts) (nonempty : acts ≠ []) (settles : Settles i h) :
    Running { i with heap := h } acts := by
  have sound : ∀ a ∈ acts, a.Sound i.heap → a.Sound h := by
    intro a ha sound
    obtain ⟨method, m, isMethod, compiled, fits⟩ := sound.method
    obtain ⟨rest, recorded⟩ := running.recorded ha
    have kept := settles.methods a.framePointer
      ((running.active_iff nonempty _).mpr ⟨a, ha, rfl⟩) method m
    rw [recorded.closure] at kept
    obtain ⟨isMethod', compiled'⟩ := kept isMethod compiled
    exact ⟨fun o here => settles.contexts o _ (sound.context o here), method, m, isMethod',
      compiled', fits⟩
  obtain ⟨a, rest, rfl⟩ := List.exists_cons_of_ne_nil nonempty
  obtain ⟨m, compiled, size⟩ := running.codeSize
  have closure : i.closure = a.closure := running.closure a rfl
  have recorded : Recorded i.stack a rest := running.chain.2.2.1
  have kept := settles.methods i.framePointer .current i.method m
  have frame : i.framePointer = a.framePointer := running.framePointer
  rw [frame, recorded.closure, ← closure] at kept
  obtain ⟨isMethod', compiled'⟩ := kept running.method compiled
  exact ⟨⟨running.chain.objects sound, running.framePointer, running.room⟩, running.closure,
    running.lexicalContext, isMethod', m, compiled', size⟩

end Active

section Target

def Instr.target (instr : Instr) (i : Interpreter) : Option Nat :=
  match instr with
  | .returnRegister _ | .resume | .returnValue _ => some i.framePointer
  | .returnFrom _ lexicalOffset =>
    if lexicalOffset = 0 then some i.framePointer
    else (i.heap.contextAt i.closure lexicalOffset).bind fun (context, framePointer, _) =>
      if returnsTooLate i context framePointer then none else some framePointer
  | _ => none

/-- All returns but `resume` have a value. -/
def Instr.delivers : Instr → Bool
  | .returnRegister _ | .returnFrom _ _ | .returnValue _ => true
  | _ => false

def SignalsMayNotReturn (w : World) (i i' : Interpreter) : Prop :=
  ∃ context framePointer, returnsTooLate i context framePointer ∧
    signalMayNotReturn w context framePointer i = some i'

theorem execute_returns {w : World} {m : CompiledMethod} {prevPointer : Int} {instr : Instr}
    {i i' : Interpreter} (returns : instr.returns)
    (run : execute w m prevPointer i instr = some i') :
    (∃ result target, instr.target i = some target ∧ (result.isSome → instr.delivers) ∧
      returnTo w target result prevPointer i = some i') ∨
    (instr.target i = none ∧ SignalsMayNotReturn w i i') := by
  cases instr with
  | returnRegister reg =>
    simp only [execute, Option.bind_eq_bind, Option.bind_eq_some_iff] at run
    obtain ⟨value, _, run⟩ := run
    exact .inl ⟨some value, _, rfl, fun _ => rfl, run⟩
  | returnValue value => exact .inl ⟨some value, _, rfl, fun _ => rfl, run⟩
  | resume => exact .inl ⟨none, _, rfl, (fun h => by cases h), run⟩
  | returnFrom reg lexicalOffset =>
    simp only [execute, Option.bind_eq_bind, Option.bind_eq_some_iff] at run
    obtain ⟨value, _, run⟩ := run
    unfold returnResult at run
    split at run
    next zero => exact .inl ⟨some value, _, if_pos zero, fun _ => rfl, run⟩
    next apart =>
      simp only [Option.bind_eq_some_iff] at run
      obtain ⟨⟨context, framePointer, held⟩, found, run⟩ := run
      have target : (Instr.returnFrom reg lexicalOffset).target i =
          if returnsTooLate i context framePointer then none else some framePointer := by
        simp only [Instr.target, if_neg apart, found, Option.bind_some]
      simp only at run
      split at run
      next late => exact .inr ⟨by rw [target, if_pos late], context, framePointer, late, run⟩
      next here =>
        exact .inl ⟨some value, framePointer, by rw [target, if_neg here], fun _ => rfl, run⟩
  | _ => cases returns

end Target

/-- The result cell of each activation is one of `base`, or a variable or register of an
activation further down. -/
def Aims (base : Int → Prop) : List Activation → Prop
  | [] => True
  | a :: rest => (base a.result ∨ ∃ b ∈ rest, b.InCells a.result) ∧ Aims base rest

/-- The frames `inner`, above the cell `low`, work on top of the frames `outer`. Returns go to
frames that `ok` allows. -/
structure Inner (base : Int → Prop) (ok : Nat → Prop) (low : Nat) (i : Interpreter)
    (inner outer : List Activation) : Prop where
  running : Running i (inner ++ outer)
  aims : Aims base inner
  high : ∀ a ∈ inner, low + 6 ≤ a.framePointer
  harmless : ∀ r, base r → Harmless outer r ∧ (r < low ∨ r ≤ 0)
  lower : ∀ t ∈ outer, t.framePointer ≤ low
  reach : ∀ t ∈ outer, ok t.framePointer → base t.result

section Aims

variable {base : Int → Prop} {ok : Nat → Prop} {low : Nat} {i i' : Interpreter}
  {inner outer above rest others : List Activation} {a t : Activation}

theorem Aims.suffix (aims : Aims base (above ++ rest)) : Aims base rest := by
  induction above with
  | nil => exact aims
  | cons b above ih => exact ih aims.2

theorem Activation.shape_fields {b c : Activation} (same : c.shape = b.shape) :
    c.framePointer = b.framePointer ∧ c.result = b.result ∧ c.cells = b.cells := by
  simp only [Activation.shape, Activation.mk.injEq] at same
  exact ⟨same.1, same.2.1, same.2.2.2.2.2.1⟩

theorem Activation.InCells.shape {b c : Activation} {r : Int} (same : c.shape = b.shape)
    (inside : b.InCells r) : c.InCells r := by
  obtain ⟨frame, _, cells⟩ := Activation.shape_fields same
  unfold Activation.InCells at inside ⊢
  rw [frame, cells]
  exact inside

theorem mem_of_shape {b : Activation} (same : others.map Activation.shape = rest.map Activation.shape)
    (hb : b ∈ rest) : ∃ c ∈ others, c.shape = b.shape := by
  have inside : b.shape ∈ others.map Activation.shape := by
    rw [same]
    exact List.mem_map_of_mem hb
  obtain ⟨c, hc, here⟩ := List.mem_map.mp inside
  exact ⟨c, hc, here⟩

theorem Aims.shape (aims : Aims base rest)
    (same : others.map Activation.shape = rest.map Activation.shape) : Aims base others := by
  induction rest generalizing others with
  | nil =>
    rw [List.map_nil, List.map_eq_nil_iff] at same
    subst same
    trivial
  | cons b rest ih =>
    cases others with
    | nil => cases same
    | cons c others =>
      simp only [List.map_cons, List.cons.injEq] at same
      refine ⟨?_, ih aims.2 same.2⟩
      rw [(Activation.shape_fields same.1).2.1]
      rcases aims.1 with based | ⟨d, hd, inside⟩
      · exact .inl based
      · obtain ⟨e, he, here⟩ := mem_of_shape same.2 hd
        exact .inr ⟨e, he, inside.shape here⟩

theorem Aims.mem (aims : Aims base inner) (ha : a ∈ inner) :
    base a.result ∨ ∃ b ∈ inner, b.InCells a.result := by
  obtain ⟨above, rest, rfl⟩ := List.append_of_mem ha
  have down : Aims base (a :: rest) := aims.suffix
  rcases down.1 with based | ⟨b, hb, inside⟩
  · exact .inl based
  · exact .inr ⟨b, by simp [hb], inside⟩

theorem Aims.append (aims : Aims base inner)
    (more : ∀ a ∈ above, base a.result ∨ ∃ b ∈ inner, b.InCells a.result) :
    Aims base (above ++ inner) := by
  induction above with
  | nil => exact aims
  | cons c above ih =>
    refine ⟨?_, ih fun a ha => more a (List.mem_cons_of_mem _ ha)⟩
    rcases more c (List.mem_cons_self ..) with based | ⟨b, hb, inside⟩
    · exact .inl based
    · exact .inr ⟨b, List.mem_append_right _ hb, inside⟩

theorem last_of_shape {b : Activation}
    (same : others.map Activation.shape = rest.map Activation.shape) (hb : b ∈ others.getLast?) :
    ∃ c ∈ rest.getLast?, b.shape = c.shape := by
  have last : (others.getLast?).map Activation.shape = (rest.getLast?).map Activation.shape := by
    rw [← List.getLast?_map, ← List.getLast?_map, same]
  rw [Option.mem_def.mp hb, Option.map_some, eq_comm, Option.map_eq_some_iff] at last
  obtain ⟨c, hc, here⟩ := last
  exact ⟨c, hc, here.symm⟩

theorem Inner.free (n : Inner base ok low i inner outer) {r : Int}
    (aim : base r ∨ ∃ b ∈ inner, b.InCells r) : Harmless (inner ++ outer) r := by
  rcases aim with based | ⟨b, hb, inside⟩
  · obtain ⟨free, under⟩ := n.harmless r based
    intro a ha k holds
    rcases List.mem_append.mp ha with ha | ha
    · have high := n.high a ha
      have six := n.running.chain.six a (List.mem_append_left _ ha)
      have ge := holds.ge
      unfold Activation.Holds at holds
      omega
    · exact free a ha k holds
  · exact n.running.chain.apart (List.mem_append_left _ hb) inside

end Aims

def Keeps (acts : List Activation) (h h' : Heap) : Prop :=
  ∀ a ∈ acts, ∀ method m, h.method a.closure = some method → h.compiledMethod method = some m →
    h'.method a.closure = some method ∧ h'.compiledMethod method = some m

/-- A round in `inner` leaves frames on top of the same outer ones, the lowest of them is the
same, and below `low` at most cells of `base` are written. -/
structure Worked (base : Int → Prop) (ok : Nat → Prop) (low : Nat) (i i' : Interpreter)
    (inner outer inner' outer' : List Activation) : Prop where
  works : Inner base ok low i' inner' outer'
  same : outer'.map Activation.shape = outer.map Activation.shape
  bottom : ∀ c ∈ inner'.getLast?, ∃ b ∈ inner.getLast?, c.shape = b.shape
  cells : ∀ k < low, ¬ base k → i'.stack k = i.stack k
  methods : Keeps outer i.heap i'.heap

/-- The instruction of a round tests a Boolean if it is a conditional branch, and goes back
from an active frame that `ok` allows if it is a return. -/
def Disciplined (ok : Nat → Prop) (i : Interpreter) : Prop :=
  ∀ m instr length, i.fetch = some (m, instr, length) → instr.TestsBoolean i ∧
    (instr.returns → ∃ target, instr.target i = some target ∧ ActiveFrame i target ∧ ok target)

section Rounds

variable {base : Int → Prop} {ok : Nat → Prop} {low : Nat} {i i' : Interpreter} {w : World}
  {inner outer news : List Activation} {a t : Activation} {r : Int}

theorem Keeps.extends {acts : List Activation} {h h' : Heap} (extends' : h.Extends h') :
    Keeps acts h h' :=
  fun _ _ _ _ isMethod compiled => ⟨extends'.method isMethod, extends'.compiledMethod compiled⟩

theorem Keeps.trans {acts : List Activation} {h h' h'' : Heap} (first : Keeps acts h h')
    (more : Keeps acts h' h'') : Keeps acts h h'' := by
  intro a ha method m isMethod compiled
  obtain ⟨isMethod', compiled'⟩ := first a ha method m isMethod compiled
  exact more a ha method m isMethod' compiled'

theorem Inner.push (n : Inner base ok low i inner outer) (nonempty : inner ≠ [])
    (p : Pushes r i i' (inner ++ outer) news)
    (aim : news = [] ∨ base r ∨ ∃ b ∈ inner, b.InCells r)
    (apart : ∀ k < low, ¬ base k → (k : Int) ≠ r) :
    Worked base ok low i i' inner outer (news ++ inner) outer := by
  obtain ⟨a, rest, rfl⟩ := List.exists_cons_of_ne_nil nonempty
  have first := n.high a (List.mem_cons_self ..)
  have under := n.running.chain.below a (by simp)
  unfold Activation.top at under
  refine ⟨⟨?_, ?_, ?_, n.harmless, n.lower, n.reach⟩, rfl, ?_, ?_, .extends p.heap⟩
  · rw [List.append_assoc]
    exact p.running
  · refine n.aims.append fun b hb => ?_
    rw [p.results b hb]
    rcases aim with rfl | aim
    · cases hb
    · exact aim
  · intro b hb
    rcases List.mem_append.mp hb with hb | hb
    · have := p.high b hb
      omega
    · exact n.high b hb
  · intro c hc
    rw [List.getLast?_append_of_ne_nil news (by simp)] at hc
    exact ⟨c, hc, rfl⟩
  · intro k below unbased
    exact p.cells k (by omega) (apart k below unbased)

theorem Inner.apart (n : Inner base ok low i inner outer)
    (aim : base r ∨ ∃ b ∈ inner, b.InCells r) : ∀ k < low, ¬ base k → (k : Int) ≠ r := by
  rintro k below unbased rfl
  rcases aim with based | ⟨b, hb, inside⟩
  · exact unbased based
  · have high := n.high b hb
    unfold Activation.InCells at inside
    omega

theorem unguard_harmless {acts others : List Activation} {handler : Value}
    (taken : unguard acts = some (handler, others)) (harmless : Harmless acts r) :
    Harmless others r := by
  induction acts generalizing others with
  | nil => cases taken
  | cons b rest ih =>
    have here := harmless b (List.mem_cons_self ..)
    have down : Harmless rest r := fun c hc => harmless c (List.mem_cons_of_mem _ hc)
    unfold unguard at taken
    split at taken
    · cases taken
      intro c hc k holds
      rcases List.mem_cons.mp hc with rfl | hc
      · refine here k ?_
        unfold Activation.Holds at holds ⊢
        simp only [Option.isSome_none, Bool.false_eq_true, false_and, or_false] at holds
        omega
      · exact down c hc k holds
    · simp only [Option.map_eq_some_iff] at taken
      obtain ⟨⟨handler', others'⟩, found, same⟩ := taken
      cases same
      intro c hc k holds
      rcases List.mem_cons.mp hc with rfl | hc
      · exact here k holds
      · exact ih found down c hc k holds

theorem unguard_split {others : List Activation} {handler : Value}
    (taken : unguard (inner ++ outer) = some (handler, others)) :
    ∃ inner' outer', others = inner' ++ outer' ∧
      inner'.map Activation.shape = inner.map Activation.shape ∧
      outer'.map Activation.shape = outer.map Activation.shape ∧
      (∀ r, Harmless outer r → Harmless outer' r) := by
  by_cases guarded : ∃ b ∈ inner, b.handler.isSome
  · obtain ⟨handler', inner', found⟩ := unguard_isSome guarded
    rw [unguard_append found outer, Option.some.injEq, Prod.mk.injEq] at taken
    exact ⟨inner', outer, taken.2.symm, unguard_shape found, rfl, fun _ free => free⟩
  · have unguarded : ∀ b ∈ inner, b.handler = none := by
      intro b hb
      by_contra some'
      exact guarded ⟨b, hb, Option.isSome_iff_ne_none.mpr some'⟩
    rw [unguard_skip unguarded, Option.map_eq_some_iff] at taken
    obtain ⟨⟨handler', outer'⟩, found, same⟩ := taken
    cases same
    exact ⟨inner, outer', rfl, rfl, unguard_shape found, fun _ => unguard_harmless found⟩

theorem Inner.handle (n : Inner base ok low i inner outer) (nonempty : inner ≠ [])
    {place prev : Int} {handler : Value} {others : List Activation} {k : Activation}
    (aim : base place ∨ ∃ b ∈ inner, b.InCells place)
    (runs : HandlerRuns w place prev i i' (inner ++ outer) handler others k) :
    ∃ inner' outer', Worked base ok low i i' inner outer inner' outer' := by
  obtain ⟨inner', outer', rfl, same, same', free⟩ := unguard_split runs.taken
  obtain ⟨a, rest, rfl⟩ := List.exists_cons_of_ne_nil nonempty
  have first := n.high a (List.mem_cons_self ..)
  have under := n.running.chain.below a (by simp)
  unfold Activation.top at under
  refine ⟨k :: markerFrame i place prev :: inner', outer', ⟨runs.running, ?_, ?_, ?_, ?_, ?_⟩, same',
    ?_, ?_, .extends runs.heap⟩
  · have aim' : base place ∨ ∃ b ∈ inner', b.InCells place := by
      rcases aim with based | ⟨b, hb, inside⟩
      · exact .inl based
      · obtain ⟨c, hc, here⟩ := mem_of_shape same hb
        exact .inr ⟨c, hc, inside.shape here⟩
    refine show Aims base ([k, markerFrame i place prev] ++ inner') from
      (n.aims.shape same).append fun b hb => ?_
    rcases List.mem_cons.mp hb with rfl | hb
    · rw [runs.result]
      exact aim'
    · rw [List.mem_singleton.mp hb]
      exact aim'
  · intro b hb
    simp only [List.mem_cons] at hb
    rcases hb with rfl | rfl | hb
    · have := runs.high
      omega
    · change low + 6 ≤ i.stackPointer + 6
      omega
    · obtain ⟨c, hc, here⟩ := mem_of_shape same.symm hb
      rw [← (Activation.shape_fields here).1]
      exact n.high c hc
  · intro r based
    exact ⟨free r (n.harmless r based).1, (n.harmless r based).2⟩
  · intro b hb
    obtain ⟨c, hc, here⟩ := mem_of_shape same'.symm hb
    rw [← (Activation.shape_fields here).1]
    exact n.lower c hc
  · intro b hb allowed
    obtain ⟨c, hc, here⟩ := mem_of_shape same'.symm hb
    obtain ⟨frame, result, _⟩ := Activation.shape_fields here
    rw [← result]
    exact n.reach c hc (by rwa [frame])
  · have some' : inner' ≠ [] := by
      rintro rfl
      cases same
    intro c hc
    rw [show k :: markerFrame i place prev :: inner' = [k, markerFrame i place prev] ++ inner' from
      rfl, List.getLast?_append_of_ne_nil _ some'] at hc
    exact last_of_shape same hc
  · intro j below unbased
    exact runs.cells j (by omega) (n.apart aim j below unbased)

theorem Inner.leave (n : Inner base ok low i inner outer) {above rest : List Activation}
    {result : Option Value} (split : inner = above ++ t :: rest)
    (leaves : Leaves result i i' above t (rest ++ outer)) :
    Worked base ok low i i' inner outer rest outer := by
  subst split
  have under := n.running.chain.below t (by simp)
  have first := n.high t (by simp)
  unfold Activation.top at under
  have aims : Aims base (t :: rest) := n.aims.suffix
  refine ⟨⟨leaves.running, aims.2, ?_, n.harmless, n.lower, n.reach⟩,
    rfl, ?_, ?_, .extends leaves.heap⟩
  · intro b hb
    exact n.high b (by simp [hb])
  · intro c hc
    have some' : rest ≠ [] := by
      rintro rfl
      cases hc
    rw [show above ++ t :: rest = (above ++ [t]) ++ rest by simp,
      List.getLast?_append_of_ne_nil _ some']
    exact ⟨c, hc, rfl⟩
  · intro k below unbased
    exact leaves.cells k (by omega)
      (n.apart (n.aims.mem (a := t) (by simp)) k below unbased)

/-- One of the frames outside, that `ok` allows, was left. -/
def Outside (ok : Nat → Prop) (i' : Interpreter) (outer : List Activation) : Prop :=
  ∃ above t rest, outer = above ++ t :: rest ∧ ok t.framePointer ∧ Running i' rest

theorem Inner.returnTo (n : Inner base ok low i inner outer) (nonempty : inner ≠ [])
    {target : Nat} {prev : Int} {result : Option Value} (active : ActiveFrame i target)
    (allowed : ok target) (run : returnTo w target result prev i = some i') :
    (∃ inner' outer', Worked base ok low i i' inner outer inner' outer') ∨ Outside ok i' outer := by
  obtain ⟨t, ht, rfl⟩ := (n.running.active_iff (by simp [nonempty]) target).mp active
  rcases List.mem_append.mp ht with ht | ht
  · have aim := n.aims.mem ht
    obtain ⟨above, rest, split⟩ := List.append_of_mem ht
    have whole : inner ++ outer = above ++ t :: (rest ++ outer) := by
      rw [split, List.append_assoc]
      rfl
    rcases returnTo_returns n.running whole (fun _ => n.free aim) run with handles | leaves
    · obtain ⟨handler, others, k, runs, _⟩ := handles
      exact .inl (n.handle nonempty aim runs)
    · exact .inl ⟨rest, outer, n.leave split leaves⟩
  · have aim : base t.result := n.reach t ht allowed
    obtain ⟨above, rest, split⟩ := List.append_of_mem ht
    have whole : inner ++ outer = (inner ++ above) ++ t :: rest := by
      rw [split, List.append_assoc]
    rcases returnTo_returns n.running whole (fun _ => n.free (.inl aim)) run with handles | leaves
    · obtain ⟨handler, others, k, runs, _⟩ := handles
      exact .inl (n.handle nonempty (.inl aim) runs)
    · exact .inr ⟨above, t, rest, split, allowed, leaves.running⟩

theorem Instr.place_cases (instr : Instr) (i : Interpreter) :
    instr.place i = -1 ∨ (i.framePointer : Int) ≤ instr.place i := by
  unfold Instr.place
  split
  · exact .inr (by omega)
  · exact .inl rfl

theorem Inner.jump (n : Inner base ok low i inner outer) (codePointer : Int) :
    Inner base ok low { i with codePointer := codePointer } inner outer :=
  ⟨n.running.jump codePointer, n.aims, n.high, n.harmless, n.lower, n.reach⟩

theorem Instr.target_jump (instr : Instr) (i : Interpreter) (codePointer : Int) :
    instr.target { i with codePointer := codePointer } = instr.target i := by
  cases instr <;> rfl

theorem ActiveFrame.same {frame : Nat} (active : ActiveFrame i frame)
    (stack : i'.stack = i.stack) (framePointer : i'.framePointer = i.framePointer) :
    ActiveFrame i' frame := by
  induction active with
  | current =>
    rw [← framePointer]
    exact .current
  | caller _ here six ih => exact .caller ih (by rw [stack]; exact here) six

theorem Worked.before {start : Interpreter} {inner' outer' : List Activation}
    (worked : Worked base ok low start i' inner outer inner' outer') (stack : start.stack = i.stack)
    (methods : Keeps outer i.heap start.heap) : Worked base ok low i i' inner outer inner' outer' :=
  ⟨worked.works, worked.same, worked.bottom, by rw [← stack]; exact worked.cells,
    methods.trans worked.methods⟩

theorem fetch_compiled {m : CompiledMethod} {instr : Instr} {length : Nat}
    (fetch : i.fetch = some (m, instr, length)) : i.heap.compiledMethod i.method = some m := by
  simp only [Interpreter.fetch, Option.bind_eq_some_iff] at fetch
  obtain ⟨m', compiled, fetch⟩ := fetch
  split at fetch
  · cases fetch
  · simp only [Option.map_eq_some_iff, Prod.mk.injEq] at fetch
    obtain ⟨_, _, rfl, _, _⟩ := fetch
    exact compiled

theorem Inner.interpret (n : Inner base ok low i inner outer) (nonempty : inner ≠ [])
    (disciplined : Disciplined ok i) (run : interpret w i = some i') :
    (∃ inner' outer', Worked base ok low i i' inner outer inner' outer') ∨ Outside ok i' outer := by
  simp only [Frames.interpret, Option.bind_eq_some_iff] at run
  obtain ⟨⟨m, instr, length⟩, fetch, run⟩ := run
  obtain ⟨boolean, returning⟩ := disciplined m instr length fetch
  have compiled := fetch_compiled fetch
  have start := n.jump (i.codePointer + length)
  have back : ∀ {inner' outer' : List Activation},
      Worked base ok low { i with codePointer := i.codePointer + length } i' inner outer inner' outer' →
      Worked base ok low i i' inner outer inner' outer' := fun worked =>
    worked.before rfl (.extends (.refl _))
  by_cases returns : instr.returns
  · obtain ⟨target, goal, active, allowed⟩ := returning returns
    rcases execute_returns returns run with ⟨result, target', goal', _, run⟩ | ⟨gone, _⟩
    · rw [Instr.target_jump, goal, Option.some.injEq] at goal'
      subst goal'
      rcases start.returnTo nonempty (active.same rfl rfl) allowed run with worked | out
      · obtain ⟨inner', outer', worked⟩ := worked
        exact .inl ⟨inner', outer', back worked⟩
      · exact .inr out
    · rw [Instr.target_jump, goal] at gone
      cases gone
  · obtain ⟨a, rest, split⟩ := List.exists_cons_of_ne_nil nonempty
    have running := start.running
    rw [split, List.cons_append] at running
    obtain ⟨news, p, aim⟩ := execute_pushes running compiled (by simpa using returns) (by
      cases instr <;> exact boolean) run
    have frame : i.framePointer = a.framePointer := running.framePointer
    have high := n.high a (by rw [split]; exact List.mem_cons_self ..)
    have place := instr.place_cases { i with codePointer := i.codePointer + length }
    change _ ∨ (i.framePointer : Int) ≤ _ at place
    refine .inl ⟨news ++ inner, outer, back (start.push nonempty (by rw [split]; exact p) ?_ ?_)⟩
    · rcases aim with none' | inside
      · exact .inl none'
      · exact .inr (.inr ⟨a, by rw [split]; exact List.mem_cons_self .., inside⟩)
    · intro k below _
      change (k : Int) ≠ instr.place { i with codePointer := i.codePointer + length }
      omega

theorem Inner.interrupt (n : Inner base ok low i inner outer) (nonempty : inner ≠ [])
    (run : interrupt w i = some i') : ∃ inner', Worked base ok low i i' inner outer inner' outer := by
  obtain ⟨a, rest, rfl⟩ := List.exists_cons_of_ne_nil nonempty
  have aim := n.aims.mem (a := a) (List.mem_cons_self ..)
  have recorded : Recorded i.stack a (rest ++ outer) := n.running.chain.2.2.1
  have frame : i.framePointer = a.framePointer := n.running.framePointer
  have word : w.word (i.stack (i.framePointer - 5)) = a.result := by
    rw [frame, recorded.result]
    rfl
  simp only [Frames.interrupt, word] at run
  obtain ⟨k, entered, running⟩ := (applyTo_calls w w.depth).signal n.running.toBased run
  exact ⟨[k] ++ (a :: rest), n.push nonempty (entered.pushes running) (.inr aim)
    (n.apart aim)⟩

theorem Inner.settle {h : Heap} (n : Inner base ok low i inner outer) (nonempty : inner ≠ [])
    (settles : Settles i h) :
    Inner base ok low { i with heap := h } inner outer ∧ Keeps outer i.heap h := by
  refine ⟨⟨n.running.settle (by simp [nonempty]) settles, n.aims, n.high, n.harmless,
    n.lower, n.reach⟩, ?_⟩
  intro a ha method m isMethod compiled
  have inside : a ∈ inner ++ outer := List.mem_append_right _ ha
  obtain ⟨rest, recorded⟩ := n.running.recorded inside
  have kept := settles.methods a.framePointer
    ((n.running.active_iff (by simp [nonempty]) _).mpr ⟨a, inside, rfl⟩) method m
  rw [recorded.closure] at kept
  exact kept isMethod compiled

theorem Inner.round (n : Inner base ok low i inner outer) (nonempty : inner ≠ [])
    (round : Round (Disciplined ok) i i') :
    (∃ inner' outer', Worked base ok low i i' inner outer inner' outer') ∨ Outside ok i' outer := by
  cases round with
  | interpret w h settles allowed run =>
    obtain ⟨settled, methods⟩ := n.settle nonempty settles
    rcases settled.interpret nonempty allowed run with ⟨inner', outer', worked⟩ | out
    · exact .inl ⟨inner', outer', worked.before rfl methods⟩
    · exact .inr out
  | interrupt w h settles run =>
    obtain ⟨settled, methods⟩ := n.settle nonempty settles
    obtain ⟨inner', worked⟩ := settled.interrupt nonempty run
    exact .inl ⟨inner', outer, worked.before rfl methods⟩

end Rounds

end SlateVm.Frames
