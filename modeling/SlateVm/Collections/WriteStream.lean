import SlateVm.Lib.Overwrite
import SlateVm.Collections.ArrayRefines

/-! `Sequence WriteStream` and `ExtensibleSequence WriteStream`. -/
namespace SlateVm.Collections

open Refinement

/-- The slots of a `WriteStream` on a collection. -/
structure WriteStream (σ : Type) where
  collection : σ
  position : Nat
  readLimit : Nat
  writeLimit : Nat

namespace WriteStream

variable {σ α : Type}

/-- What the streams on a kind of collections have of their own: the collection's size, its
`at:put:` and `copyFrom: 0 below:`, and the stream's `pastEndPut:` and
`next:putAll:startingAt:`. -/
structure Variant (σ α : Type) where
  size : σ → Nat
  atPut : σ → Nat → α → Option σ
  copyBelow : σ → Nat → Option (List α)
  pastEndPut : WriteStream σ → α → Option (WriteStream σ)
  nextPutAllStartingAt : WriteStream σ → Nat → List α → Nat → Option (WriteStream σ)

section Shared

variable (v : Variant σ α)

def on (c : σ) : WriteStream σ := ⟨c, 0, v.size c, v.size c⟩

def contents (ws : WriteStream σ) : Option (List α) :=
  v.copyBelow ws.collection (max ws.readLimit ws.position)

def nextPut (ws : WriteStream σ) (obj : α) : Option (WriteStream σ) := do
  let pos := ws.position
  if pos ≥ ws.writeLimit then v.pastEndPut ws obj
  else do
    let collection ← v.atPut ws.collection pos obj
    some { ws with position := pos + 1, collection := collection }

def nextPutAll (ws : WriteStream σ) (c : List α) : Option (WriteStream σ) :=
  v.nextPutAllStartingAt ws c.length c 0

/-- `size`, which brings `readLimit` up to date and answers it. -/
def size (ws : WriteStream σ) : WriteStream σ := { ws with readLimit := max ws.readLimit ws.position }

/-- `position:`. The slot's own method comes before the one that is defined on the traits. -/
def setPosition (ws : WriteStream σ) (n : Nat) : WriteStream σ := { ws with position := n }

def reset (ws : WriteStream σ) : WriteStream σ :=
  { ws with readLimit := max ws.readLimit ws.position, position := 0 }

def setToEnd (ws : WriteStream σ) : WriteStream σ :=
  { ws.size with position := ws.size.readLimit }

end Shared

section Fixed

variable [Inhabited α]

def growCollectionAtEnd (ws : WriteStream (List α)) (minGrowth : Option Nat) :
    Option (WriteStream (List α)) := do
  let c := ws.collection
  let newSize := c.length + max (min c.length 1000000) (minGrowth.getD 20)
  let collection ← replaceFrom (List.replicate newSize default) 0 (c.length - 1) c 0
  some { ws with collection := collection, writeLimit := newSize }

def roomTo (ws : WriteStream (List α)) (newEnd : Int) : Option (WriteStream (List α)) :=
  if newEnd ≥ ws.writeLimit then
    ws.growCollectionAtEnd (some (newEnd - ws.writeLimit + 4).toNat)
  else some ws

def fixed : Variant (List α) α where
  size := List.length
  atPut c i obj := arrayPut c i obj
  copyBelow c stop := copyFrom c 0 stop
  pastEndPut ws obj := do
    let ws ← ws.growCollectionAtEnd none
    let collection ← arrayPut ws.collection ws.position obj
    some { ws with collection := collection, position := ws.position + 1 }
  nextPutAllStartingAt ws n c start := do
    let newEnd : Int := ws.position + n - 1
    let ws ← ws.roomTo newEnd
    let collection ← replaceFrom ws.collection ws.position newEnd c start
    some { ws with collection := collection, position := (newEnd + 1).toNat }

/-- `at:insertAll:` of an extensible array, which signals behind its end. -/
def insertAll (es : ExtensibleArray α) (index : Nat) (col : List α) : Option (ExtensibleArray α) :=
  if es.refusesGap index then none else es.atInsertAll index col

/-- The streams on extensible arrays. A copy is made of the elements that `at:` answers. -/
def extensible : Variant (ExtensibleArray α) α where
  size es := es.size.toNat
  atPut es i obj := if es.includesKey i then es.atPut i obj else none
  copyBelow es stop :=
    if stop = 0 ∨ es.size = 0 then some [] else (fromTo 0 (stop - 1)).mapM fun i => es.at? i
  pastEndPut ws obj := do
    let c ← ws.collection.addLast obj
    some { ws with collection := c, writeLimit := c.size.toNat, position := ws.position + 1 }
  nextPutAllStartingAt ws n c start := do
    let part ← copyFrom c start (start + n)
    let collection ← insertAll ws.collection ws.position part
    some { ws with collection := collection, position := ws.position + n }

end Fixed

inductive Op (α : Type) where
  | nextPut (obj : α)
  | nextPutAll (c : List α)
  | nextPutAllStartingAt (n : Nat) (c : List α) (start : Nat)
  | position (n : Nat)
  | reset
  | setToEnd

def perform (v : Variant σ α) (ws : WriteStream σ) : Op α → Option (WriteStream σ)
  | .nextPut obj => ws.nextPut v obj
  | .nextPutAll c => ws.nextPutAll v c
  | .nextPutAllStartingAt n c start => v.nextPutAllStartingAt ws n c start
  | .position n => some (ws.setPosition n)
  | .reset => some ws.reset
  | .setToEnd => some ws.setToEnd

def Op.after (b : Overwrite α) : Op α → Overwrite α
  | .nextPut obj => b.put obj
  | .nextPutAll c => b.write c
  | .nextPutAllStartingAt n c start => b.write ((c.drop start).take n)
  | .position n => { b with cursor := n }
  | .reset => { b with cursor := 0 }
  | .setToEnd => { b with cursor := b.elements.length }

/-- The operations that are allowed: the elements to be written are there, and a position is not
above the size. -/
def Op.Fits (size : Nat) : Op α → Prop
  | .nextPutAllStartingAt n c start => start + n ≤ c.length
  | .position n => n ≤ size
  | _ => True

structure Shows (v : Variant σ α) (ws : WriteStream σ) (b : Overwrite α) : Prop where
  contents : ws.contents v = some b.elements
  position : ws.position = b.cursor

def implementation (v : Variant σ α) (empty : σ → Prop) :
    Implementation (WriteStream σ) (Overwrite α) (Op α) Unit where
  start ws b := ∃ c, empty c ∧ ws = on v c ∧ b = ⟨[], 0⟩
  perform ws op := (ws.perform v op).map (·, ())
  next b op _ := op.after b
  right _ _ _ := True

end WriteStream

end SlateVm.Collections

/-! Runs of operations on write streams beside the sequence that they overwrite. -/
namespace SlateVm.Collections.WriteStream

open Refinement

variable {σ α : Type} {b : Overwrite α}

def shown (ws : WriteStream σ) : Nat := max ws.readLimit ws.position

/-- A position is set only where `readLimit` is up to date, or where it is already. -/
def Rewinds (ws : WriteStream σ) : Op α → Prop
  | .position n => ws.position ≤ ws.readLimit ∨ n = ws.position
  | _ => True

def Spares (ws : WriteStream σ) (op : Op α) : Prop := op.Fits ws.shown ∧ ws.Rewinds op

/-- On an extensible array, where bulk writes insert, the cursor has to be at the end for them,
and behind `writeLimit` also for single elements. -/
def Appends (ws : WriteStream (ExtensibleArray α)) : Op α → Prop
  | .nextPut _ => ws.position < ws.writeLimit ∨ ws.position = ws.collection.size
  | .nextPutAll c => c = [] ∨ ws.position = ws.collection.size
  | .nextPutAllStartingAt n _ _ => n = 0 ∨ ws.position = ws.collection.size
  | _ => True

section Tracks

variable {ws ws' : WriteStream σ}

structure Tracks (ws : WriteStream σ) (b : Overwrite α) : Prop where
  position : ws.position = b.cursor
  shown : ws.shown = b.elements.length

theorem Tracks.within (tracks : Tracks ws b) : b.Within := by
  have position := tracks.position
  have shown := tracks.shown
  unfold WriteStream.shown at shown
  unfold Overwrite.Within
  omega

theorem Tracks.setPosition (tracks : Tracks ws b) {n : Nat}
    (spares : Spares ws (.position n : Op α)) :
    Tracks (ws.setPosition n) { b with cursor := n } := by
  obtain ⟨low, synced⟩ := spares
  have shown := tracks.shown
  refine ⟨rfl, ?_⟩
  unfold WriteStream.shown at shown low
  simp only [WriteStream.shown, WriteStream.setPosition]
  simp only [Op.Fits] at low
  simp only [Rewinds] at synced
  omega

theorem Tracks.reset (tracks : Tracks ws b) : Tracks ws.reset { b with cursor := 0 } := by
  have shown := tracks.shown
  refine ⟨rfl, ?_⟩
  unfold WriteStream.shown at shown
  simp only [WriteStream.shown, WriteStream.reset]
  omega

theorem Tracks.setToEnd (tracks : Tracks ws b) :
    Tracks ws.setToEnd { b with cursor := b.elements.length } := by
  have shown := tracks.shown
  unfold WriteStream.shown at shown
  refine ⟨shown, ?_⟩
  simp only [WriteStream.shown, WriteStream.setToEnd, WriteStream.size]
  omega

theorem Tracks.lost (tracks : Tracks ws b) {n : Nat}
    (low : (Op.position n : Op α).Fits ws.shown) (lost : ¬ ws.Rewinds (.position n : Op α)) :
    (ws.setPosition n).shown < b.elements.length := by
  have shown := tracks.shown
  unfold WriteStream.shown at shown low
  simp only [Op.Fits] at low
  simp only [Rewinds] at lost
  simp only [WriteStream.shown, WriteStream.setPosition]
  omega

theorem Tracks.write (tracks : Tracks ws b) (ys : List α)
    (position : ws'.position = ws.position + ys.length) (limit : ws'.readLimit = ws.readLimit) :
    Tracks ws' (b.write ys) := by
  have before := tracks.position
  have shown := tracks.shown
  unfold WriteStream.shown at shown
  constructor
  · rw [Overwrite.cursor_write]
    omega
  · rw [Overwrite.length_write tracks.within]
    simp only [WriteStream.shown]
    omega

end Tracks

variable [Inhabited α]

section Fixed

variable {ws : WriteStream (List α)}

structure Fixed (ws : WriteStream (List α)) (b : Overwrite α) : Prop extends Tracks ws b where
  writeLimit : ws.writeLimit = ws.collection.length
  fits : b.elements.length ≤ ws.collection.length
  items : ∀ i < b.elements.length, ws.collection[i]? = b.elements[i]?

omit [Inhabited α] in
theorem Fixed.write (fixed : Fixed ws b) {ws' : WriteStream (List α)} {ys source : List α}
    {r : Nat} (copied : Copied ws.collection ws'.collection ws.position ys.length source r)
    (same : ∀ i < ys.length, source[r + i]? = ys[i]?)
    (room : ws.position + ys.length ≤ ws.collection.length)
    (position : ws'.position = ws.position + ys.length) (limit : ws'.readLimit = ws.readLimit)
    (writeLimit : ws'.writeLimit = ws.writeLimit) : Fixed ws' (b.write ys) := by
  have within := fixed.within
  have fits := fixed.fits
  refine ⟨fixed.toTracks.write ys position limit, ?_, ?_, ?_⟩
  · rw [writeLimit, fixed.writeLimit, copied.length]
  · have before := fixed.position
    rw [Overwrite.length_write within, copied.length]
    omega
  · intro i hi
    rw [Overwrite.length_write within] at hi
    rw [Overwrite.getElem?_write within, ← fixed.position]
    have before := fixed.position
    have cursor := within
    unfold Overwrite.Within at cursor
    split
    · next inside =>
      have there := copied.inside (i - ws.position) (by omega)
      rw [show ws.position + (i - ws.position) = i by omega] at there
      rw [there, same _ (by omega)]
    · next outside =>
      rw [copied.outside i (by omega), fixed.items i (by omega)]

theorem Fixed.grow (fixed : Fixed ws b) (minGrowth : Option Nat) :
    ∃ ws', ws.growCollectionAtEnd minGrowth = some ws' ∧ Fixed ws' b ∧
      ws'.position = ws.position ∧ ws'.readLimit = ws.readLimit ∧
      ws.collection.length + minGrowth.getD 20 ≤ ws'.collection.length := by
  let size := ws.collection.length + max (min ws.collection.length 1000000) (minGrowth.getD 20)
  obtain ⟨grown, run, copied⟩ := @replaceFrom_copied α (List.replicate size default)
    ws.collection 0 (ws.collection.length - 1) 0 0 ws.collection.length 0 rfl (by omega) rfl
    (by rw [List.length_replicate]; omega) (by omega)
  have length := copied.length
  have fits := fixed.fits
  rw [List.length_replicate] at length
  refine ⟨{ ws with collection := grown, writeLimit := size }, ?_, ⟨⟨fixed.position, fixed.shown⟩,
    length.symm, ?_, ?_⟩, rfl, rfl, ?_⟩
  · simp only [growCollectionAtEnd, Option.bind_eq_bind]
    rw [run]
    rfl
  · simp only
    omega
  · intro i hi
    have there := copied.inside i (by omega)
    rw [Nat.zero_add] at there
    rw [there, fixed.items i hi]
  · simp only
    omega

omit [Inhabited α] in
theorem copied_set {cs : List α} {i : Nat} (inside : i < cs.length) (obj : α) :
    Copied cs (cs.set i obj) i 1 [obj] 0 := by
  constructor
  · exact List.length_set
  · intro j hj
    rw [show j = 0 by omega, Nat.add_zero, List.getElem?_set_self inside]
    rfl
  · intro j off
    rw [List.getElem?_set_ne (by omega)]

omit [Inhabited α] in
theorem Fixed.put (fixed : Fixed ws b) (room : ws.position < ws.collection.length) (obj : α) :
    Fixed { ws with collection := ws.collection.set ws.position obj, position := ws.position + 1 }
      (b.put obj) :=
  @Fixed.write _ _ ws fixed _ [obj] [obj] 0 (copied_set room obj) (fun i _ => by rw [Nat.zero_add])
    room rfl rfl rfl

theorem Fixed.nextPut (fixed : Fixed ws b) (obj : α) :
    ∃ ws', ws.nextPut WriteStream.fixed obj = some ws' ∧ Fixed ws' (b.put obj) := by
  have limit := fixed.writeLimit
  simp only [WriteStream.nextPut]
  split
  · obtain ⟨ws₁, run, grown, position, _, more⟩ := fixed.grow none
    have low := fixed.fits
    have within := fixed.within
    have before := fixed.position
    unfold Overwrite.Within at within
    have room : ws₁.position < ws₁.collection.length := by
      rw [Option.getD_none] at more
      omega
    refine ⟨_, ?_, grown.put room obj⟩
    simp only [WriteStream.fixed, run, Option.bind_eq_bind, Option.bind_some, arrayPut_nat room]
  · have room : ws.position < ws.collection.length := by omega
    refine ⟨_, ?_, fixed.put room obj⟩
    simp only [WriteStream.fixed, Option.bind_eq_bind, Option.bind_some, arrayPut_nat room]

theorem Fixed.nextPutAll (fixed : Fixed ws b) {n start : Nat} {items : List α}
    (there : start + n ≤ items.length) : ∃ ws',
      WriteStream.fixed.nextPutAllStartingAt ws n items start = some ws' ∧
        Fixed ws' (b.write ((items.drop start).take n)) := by
  have length : ((items.drop start).take n).length = n := by
    rw [List.length_take, List.length_drop]
    omega
  have grown : ∃ ws₁, ws.roomTo (ws.position + n - 1) = some ws₁ ∧ Fixed ws₁ b ∧
      ws₁.position = ws.position ∧ ws.position + n ≤ ws₁.collection.length := by
    have limit := fixed.writeLimit
    have low := fixed.fits
    have within := fixed.within
    have before := fixed.position
    unfold Overwrite.Within at within
    unfold roomTo
    split
    · obtain ⟨ws₁, run, grown, position, _, more⟩ := fixed.grow
        (some (ws.position + n - 1 - ws.writeLimit + 4 : Int).toNat)
      rw [Option.getD_some] at more
      exact ⟨ws₁, run, grown, position, by omega⟩
    · exact ⟨ws, rfl, fixed, rfl, by omega⟩
  obtain ⟨ws₁, run, fixed₁, position, room⟩ := grown
  obtain ⟨collection, stores, copied⟩ := @replaceFrom_copied α ws₁.collection items ws₁.position
    (ws.position + n - 1) start ws₁.position n start rfl (by omega) rfl (by omega) there
  refine ⟨{ ws₁ with collection := collection, position := ws.position + n }, ?_, ?_⟩
  · simp only [WriteStream.fixed, run, Option.bind_eq_bind, Option.bind_some, stores]
    rw [show (ws.position + n - 1 + 1 : Int).toNat = ws.position + n by omega]
  · have taken : ∀ i < ((items.drop start).take n).length,
        items[start + i]? = ((items.drop start).take n)[i]? := by
      intro i hi
      rw [length] at hi
      rw [List.getElem?_take, if_pos hi, List.getElem?_drop]
    rw [← length] at copied room
    rw [← position] at room
    exact fixed₁.write copied taken room (by rw [length, position]) rfl rfl

theorem Fixed.copyBelow (fixed : Fixed ws b) {k : Nat} (within : k ≤ b.elements.length) :
    WriteStream.fixed.copyBelow ws.collection k = some (b.elements.take k) := by
  have fits := fixed.fits
  simp only [WriteStream.fixed]
  rw [copyFrom_within (Nat.zero_le _) (by omega), List.drop_zero, Nat.sub_zero]
  congr 1
  apply List.ext_getElem?
  intro i
  rw [List.getElem?_take, List.getElem?_take]
  split
  · exact fixed.items i (by omega)
  · rfl

theorem Fixed.step (fixed : Fixed ws b) {op : Op α} (spares : Spares ws op) :
    ∃ ws', ws.perform WriteStream.fixed op = some ws' ∧ Fixed ws' (op.after b) := by
  cases op with
  | nextPut obj => exact fixed.nextPut obj
  | nextPutAll c =>
    obtain ⟨ws', run, after⟩ := @Fixed.nextPutAll _ b _ ws fixed c.length 0 c (by omega)
    rw [List.drop_zero, List.take_length] at after
    exact ⟨ws', run, after⟩
  | nextPutAllStartingAt n c start => exact fixed.nextPutAll spares.1
  | position n =>
    have low : n ≤ ws.shown := spares.1
    exact ⟨_, rfl, fixed.toTracks.setPosition spares, fixed.writeLimit, fixed.fits, fixed.items⟩
  | reset => exact ⟨_, rfl, fixed.toTracks.reset, fixed.writeLimit, fixed.fits, fixed.items⟩
  | setToEnd => exact ⟨_, rfl, fixed.toTracks.setToEnd, fixed.writeLimit, fixed.fits, fixed.items⟩

end Fixed

end SlateVm.Collections.WriteStream
