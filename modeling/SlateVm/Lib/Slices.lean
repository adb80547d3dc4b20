import Mathlib.Tactic.Common

/-! Stretches of a list, and what an insertion in between does to them. -/
namespace Slices

variable {α : Type} {xs ys v : List α} {i j k n r : Nat}

def slice (xs : List α) (i n : Nat) : List α := (xs.drop i).take n

def splice (xs v : List α) (r : Nat) : List α := xs.take r ++ v ++ xs.drop r

theorem getElem?_slice (within : k < n) : (slice xs i n)[k]? = xs[i + k]? := by
  rw [slice, List.getElem?_take_of_lt within, List.getElem?_drop]

theorem slice_eq_iff : slice xs i n = slice ys j n ↔ ∀ k < n, xs[i + k]? = ys[j + k]? := by
  constructor
  · intro same k within
    rw [← getElem?_slice within, same, getElem?_slice within]
  · intro same
    apply List.ext_getElem?
    intro k
    rcases Nat.lt_or_ge k n with within | beyond
    · rw [getElem?_slice within, getElem?_slice within, same k within]
    · rw [slice, slice, List.getElem?_take_eq_none beyond, List.getElem?_take_eq_none beyond]

theorem length_splice : (splice xs v r).length = xs.length + v.length := by
  simp only [splice, List.length_append, List.length_take, List.length_drop]
  omega

theorem getElem?_splice_before (before : k < r) (inside : r ≤ xs.length) :
    (splice xs v r)[k]? = xs[k]? := by
  rw [splice, List.append_assoc, List.getElem?_append_left (by rw [List.length_take]; omega),
    List.getElem?_take_of_lt before]

theorem getElem?_splice_at (within : k < v.length) (inside : r ≤ xs.length) :
    (splice xs v r)[r + k]? = v[k]? := by
  have front : (xs.take r).length = r := by rw [List.length_take]; omega
  rw [splice, List.append_assoc, List.getElem?_append_right (by omega), front,
    List.getElem?_append_left (by omega), Nat.add_sub_cancel_left]

theorem getElem?_splice_after (behind : r ≤ k) (inside : r ≤ xs.length) :
    (splice xs v r)[k + v.length]? = xs[k]? := by
  have front : (xs.take r ++ v).length = r + v.length := by
    rw [List.length_append, List.length_take]
    omega
  rw [splice, List.getElem?_append_right (by omega), front, List.getElem?_drop]
  congr 1
  omega

theorem slice_splice_before (before : i + n ≤ r) (inside : r ≤ xs.length) :
    slice (splice xs v r) i n = slice xs i n :=
  slice_eq_iff.mpr fun k within => getElem?_splice_before (by omega) inside

theorem slice_splice_at (inside : r ≤ xs.length) : slice (splice xs v r) r v.length = v := by
  have whole : slice v 0 v.length = v := by rw [slice, List.drop_zero, List.take_length]
  refine Eq.trans (slice_eq_iff.mpr fun k within => ?_) whole
  rw [getElem?_splice_at within inside, Nat.zero_add]

theorem slice_splice_after (behind : r ≤ i) (inside : r ≤ xs.length) :
    slice (splice xs v r) (i + v.length) n = slice xs i n := by
  apply slice_eq_iff.mpr
  intro k _
  rw [Nat.add_right_comm, getElem?_splice_after (by omega) inside]

/-- The list with `v` in place of its elements from `r` on. -/
def written (xs v : List α) (r : Nat) : List α := xs.take r ++ v ++ xs.drop (r + v.length)

@[simp] theorem written_nil : written xs [] r = xs := by
  simp only [written, List.append_nil, List.length_nil, Nat.add_zero, List.take_append_drop]

/-- Writing goes on behind the first element. -/
theorem written_cons (inside : r < xs.length) (x : α) (v : List α) :
    written (xs.set r x) v (r + 1) = written xs (x :: v) r := by
  rw [written, List.take_add_one, List.take_set_of_le (Nat.le_refl _), List.getElem?_set_self inside,
    List.drop_set_of_lt (by omega), written, List.length_cons, Nat.add_right_comm r 1, Nat.add_assoc]
  simp only [Option.toList_some, List.append_assoc, List.cons_append, List.nil_append]

theorem slice_written (inside : r ≤ xs.length) (size : v.length = n) :
    slice (written xs v r) r n = v := by
  rw [slice, written, List.append_assoc, List.drop_left' (by rw [List.length_take]; omega),
    List.take_left' size]

theorem written_inj {w : List α} (inside : r ≤ xs.length) (sizes : v.length = w.length)
    (same : written xs v r = written xs w r) : v = w := by
  rw [← slice_written inside sizes, same, slice_written inside rfl]

end Slices
