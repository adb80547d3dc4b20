import Mathlib.Data.List.Basic
import Mathlib.Tactic.Common

/-! Sequences that are written at a cursor: an element there is overwritten, at the end the
sequence is extended. -/

structure Overwrite (α : Type) where
  elements : List α
  cursor : Nat

namespace Overwrite

variable {α : Type} {b : Overwrite α} {xs ys : List α}

def put (b : Overwrite α) (obj : α) : Overwrite α where
  elements :=
    if b.cursor < b.elements.length then b.elements.set b.cursor obj else b.elements ++ [obj]
  cursor := b.cursor + 1

def write (b : Overwrite α) (objs : List α) : Overwrite α := objs.foldl put b

@[simp] theorem cursor_put (obj : α) : (b.put obj).cursor = b.cursor + 1 := rfl

theorem write_nil : b.write [] = b := rfl

theorem write_cons (obj : α) (objs : List α) : b.write (obj :: objs) = (b.put obj).write objs := rfl

theorem write_append (b : Overwrite α) (xs ys : List α) :
    (b.write xs).write ys = b.write (xs ++ ys) := List.foldl_append.symm

/-- The cursor is not behind the end. -/
def Within (b : Overwrite α) : Prop := b.cursor ≤ b.elements.length

theorem length_put (within : b.Within) (obj : α) :
    (b.put obj).elements.length = max b.elements.length (b.cursor + 1) := by
  unfold Within at within
  simp only [put]
  split
  · rw [List.length_set]
    omega
  · rw [List.length_append, List.length_singleton]
    omega

theorem Within.put (within : b.Within) (obj : α) : (b.put obj).Within := by
  have length := length_put within obj
  unfold Within
  rw [length]
  exact Nat.le_max_right _ _

theorem getElem?_put (within : b.Within) (obj : α) (i : Nat) :
    (b.put obj).elements[i]? = if i = b.cursor then some obj else b.elements[i]? := by
  unfold Within at within
  simp only [Overwrite.put]
  split
  · rw [List.getElem?_set]
    grind
  · rw [List.getElem?_append]
    grind

theorem cursor_write (b : Overwrite α) (ys : List α) :
    (b.write ys).cursor = b.cursor + ys.length := by
  induction ys generalizing b with
  | nil => rfl
  | cons y ys ih =>
    rw [write_cons, ih, cursor_put, List.length_cons]
    omega

theorem length_write (within : b.Within) (ys : List α) :
    (b.write ys).elements.length = max b.elements.length (b.cursor + ys.length) := by
  induction ys generalizing b with
  | nil =>
    unfold Within at within
    rw [write_nil, List.length_nil]
    omega
  | cons y ys ih =>
    rw [write_cons, ih (within.put y), length_put within, cursor_put, List.length_cons]
    omega

theorem getElem?_write (within : b.Within) (ys : List α) (i : Nat) :
    (b.write ys).elements[i]? =
      if b.cursor ≤ i ∧ i < b.cursor + ys.length then ys[i - b.cursor]? else b.elements[i]? := by
  induction ys generalizing b with
  | nil => rw [write_nil, if_neg (by rw [List.length_nil]; omega)]
  | cons y ys ih =>
    rw [write_cons, ih (within.put y), getElem?_put within, cursor_put, List.length_cons]
    rcases Nat.lt_trichotomy i b.cursor with before | rfl | behind
    · rw [if_neg (by omega), if_neg (by omega), if_neg (by omega)]
    · rw [if_neg (by omega), if_pos rfl, if_pos (by omega), Nat.sub_self, List.getElem?_cons_zero]
    · rw [if_neg (show i ≠ b.cursor by omega)]
      rw [show i - b.cursor = i - (b.cursor + 1) + 1 by omega, List.getElem?_cons_succ]
      simp only [show b.cursor + 1 ≤ i ∧ i < b.cursor + 1 + ys.length ↔
        b.cursor ≤ i ∧ i < b.cursor + (ys.length + 1) by omega]

/-- Writing at the end appends. -/
theorem write_end (atEnd : b.cursor = b.elements.length) (ys : List α) :
    (b.write ys).elements = b.elements ++ ys := by
  have within : b.Within := Nat.le_of_eq atEnd
  apply List.ext_getElem?
  intro i
  rw [getElem?_write within, List.getElem?_append, atEnd]
  grind

end Overwrite
