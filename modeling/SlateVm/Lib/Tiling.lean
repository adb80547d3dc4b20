import Mathlib.Data.List.Basic
import Mathlib.Tactic.Common
import Mathlib.Algebra.GroupWithZero.Nat

/-! Consecutive cells of an address range, and loops that walk over them.
The extent of a cell is read through a function of its first address; nothing
here says where the extents are stored or what the cells contain. -/
namespace Tiling

/-- The cells `cs` follow one another from `a` and end exactly at `b`. -/
inductive Tiles (size : Nat → Nat) : Nat → Nat → List Nat → Prop where
  | nil (a : Nat) : Tiles size a a []
  | cons {a b : Nat} {cs : List Nat} :
      0 < size a → Tiles size (a + size a) b cs → Tiles size a b (a :: cs)

def Tiles.decide (size : Nat → Nat) : (a b : Nat) → (cs : List Nat) → Decidable (Tiles size a b cs)
  | a, b, [] => decidable_of_iff (a = b) ⟨fun e => e ▸ .nil a, fun t => by cases t; rfl⟩
  | a, b, c :: cs =>
    have := Tiles.decide size (a + size a) b cs
    decidable_of_iff (c = a ∧ 0 < size a ∧ Tiles size (a + size a) b cs)
      ⟨fun ⟨e, p, r⟩ => by cases e; exact .cons p r, fun t => by cases t with | cons p r => exact ⟨rfl, p, r⟩⟩

instance (size : Nat → Nat) (a b : Nat) (cs : List Nat) : Decidable (Tiles size a b cs) :=
  Tiles.decide size a b cs

/-- The cells met by stepping from `a` until `b` is reached or passed. -/
def walk (size : Nat → Nat) (b : Nat) : Nat → Nat → List Nat
  | 0, _ => []
  | fuel + 1, a => if a < b then a :: walk size b fuel (a + size a) else []

variable {size size' : Nat → Nat} {a b c p : Nat} {cs ds : List Nat}

theorem Tiles.le (t : Tiles size a b cs) : a ≤ b := by
  induction t with
  | nil => exact Nat.le_refl _
  | cons pos _ ih => omega

theorem Tiles.bounds (t : Tiles size a b cs) :
    ∀ c ∈ cs, a ≤ c ∧ c + size c ≤ b ∧ 0 < size c := by
  induction t with
  | nil => intro c hc; cases hc
  | @cons a b cs pos rest ih =>
    intro c hc
    have after := rest.le
    rcases List.mem_cons.mp hc with rfl | hc
    · exact ⟨Nat.le_refl _, after, pos⟩
    · have := ih c hc
      exact ⟨by omega, this.2⟩

theorem Tiles.sum (t : Tiles size a b cs) : a + (cs.map size).sum = b := by
  induction t with
  | nil => simp
  | cons _ _ ih => simp only [List.map_cons, List.sum_cons]; omega

theorem Tiles.length_le (t : Tiles size a b cs) : a + cs.length ≤ b := by
  induction t with
  | nil => simp
  | cons pos _ ih => simp only [List.length_cons]; omega

/-- No two cells share an address: one ends before the other starts. -/
theorem Tiles.apart (t : Tiles size a b cs) {c d : Nat} (hc : c ∈ cs) (hd : d ∈ cs)
    (ne : c ≠ d) : c + size c ≤ d ∨ d + size d ≤ c := by
  induction t with
  | nil => cases hc
  | @cons a b cs pos rest ih =>
    rcases List.mem_cons.mp hc with hc | hc <;> rcases List.mem_cons.mp hd with hd | hd
    · exact absurd (hc.trans hd.symm) ne
    · subst c; exact Or.inl (rest.bounds d hd).1
    · subst d; exact Or.inr (rest.bounds c hc).1
    · exact ih hc hd

theorem Tiles.nodup (t : Tiles size a b cs) : cs.Nodup := by
  induction t with
  | nil => exact .nil
  | @cons a b cs pos rest ih =>
    refine List.nodup_cons.mpr ⟨fun member => ?_, ih⟩
    have := (rest.bounds a member).1
    omega

theorem Tiles.append (t : Tiles size a p cs) (u : Tiles size p b ds) :
    Tiles size a b (cs ++ ds) := by
  induction t with
  | nil => exact u
  | cons pos _ ih => exact .cons pos (ih u)

theorem Tiles.single (pos : 0 < size a) : Tiles size a (a + size a) [a] :=
  .cons pos (.nil _)

/-- A tiling is cut at any of its cells. -/
theorem Tiles.cut (t : Tiles size a b (cs ++ c :: ds)) :
    Tiles size a c cs ∧ 0 < size c ∧ Tiles size (c + size c) b ds := by
  induction cs generalizing a with
  | nil =>
    cases t with
    | cons pos rest => exact ⟨.nil _, pos, rest⟩
  | cons x xs ih =>
    cases t with
    | cons pos rest =>
      obtain ⟨before, here, after⟩ := ih rest
      exact ⟨.cons pos before, here, after⟩

theorem Tiles.last (t : Tiles size a b (cs ++ [c])) : c + size c = b := by
  obtain ⟨_, _, rest⟩ := t.cut
  have := rest.sum
  simpa using this

theorem Tiles.congr (t : Tiles size a b cs) (same : ∀ c ∈ cs, size' c = size c) :
    Tiles size' a b cs := by
  induction t with
  | nil => exact .nil _
  | @cons a b cs pos rest ih =>
    have here := same a (List.mem_cons_self ..)
    refine .cons (by omega) ?_
    rw [here]
    exact ih fun c hc => same c (List.mem_cons_of_mem _ hc)

/-- A cell is broken in two. -/
theorem Tiles.split {n : Nat} (t : Tiles size a b (cs ++ c :: ds)) (pos : 0 < n)
    (room : n < size c) (first : size' c = n) (second : size' (c + n) = size c - n)
    (same : ∀ d ∈ cs ++ ds, size' d = size d) :
    Tiles size' a b (cs ++ c :: (c + n) :: ds) := by
  obtain ⟨before, _, after⟩ := t.cut
  refine (before.congr fun d hd => same d (List.mem_append_left _ hd)).append ?_
  refine .cons (by omega) ?_
  rw [first]
  refine .cons (by omega) ?_
  have ends : c + n + size' (c + n) = c + size c := by omega
  rw [ends]
  exact after.congr fun d hd => same d (List.mem_append_right _ hd)

/-- Two neighbouring cells become one. -/
theorem Tiles.merge (t : Tiles size a p (cs ++ [c])) (more : 0 < size p)
    (grown : size' c = size c + size p) (same : ∀ d ∈ cs, size' d = size d) :
    Tiles size' a (p + size p) (cs ++ [c]) := by
  obtain ⟨before, pos, _⟩ := t.cut
  have here := t.last
  refine (before.congr same).append ?_
  have ends : p + size p = c + size' c := by omega
  rw [ends]
  exact .single (by omega)

/-- Cells of sizes divisible by `m` keep the alignment of the first one. -/
theorem Tiles.aligned {m : Nat} (t : Tiles size a b cs) (whole : ∀ c, size c % m = 0) :
    ∀ c ∈ cs, c % m = a % m := by
  induction t with
  | nil => intro c hc; cases hc
  | @cons a b cs pos rest ih =>
    intro c hc
    rcases List.mem_cons.mp hc with rfl | hc
    · rfl
    · rw [ih c hc, Nat.add_mod, whole a, Nat.add_zero, Nat.mod_mod]

/-- The same cells somewhere else. -/
theorem Tiles.move {f : Nat → Nat} (t : Tiles size a b cs)
    (shift : ∀ x n, a ≤ x → f (x + n) = f x + n) (same : ∀ c ∈ cs, size' (f c) = size c) :
    Tiles size' (f a) (f b) (cs.map f) := by
  induction t with
  | nil a => exact .nil _
  | @cons a b cs pos rest ih =>
    have here := same a List.mem_cons_self
    refine .cons (here ▸ pos) ?_
    rw [here, ← shift a _ (Nat.le_refl _)]
    exact ih (fun x n after => shift x n (by omega)) fun c member =>
      same c (List.mem_cons_of_mem _ member)

theorem walk_eq (t : Tiles size a b cs) {fuel : Nat} (enough : b - a ≤ fuel) :
    walk size b fuel a = cs := by
  induction t generalizing fuel with
  | nil a => cases fuel <;> simp [walk]
  | @cons a b cs pos rest ih =>
    have := rest.le
    cases fuel with
    | zero => omega
    | succ fuel =>
      have inside : a < b := by omega
      simp only [walk, if_pos inside, ih (by omega : b - (a + size a) ≤ fuel)]

section Loops

variable {σ ε : Type}

/-- `while (inside a) { body; a = next; }`, cut off after `fuel` rounds. -/
def overCells (inside : Nat → Bool) (body : σ → Nat → σ) (next : σ → Nat → Nat) :
    Nat → σ → Nat → σ
  | 0, s, _ => s
  | fuel + 1, s, a =>
    if inside a then
      let s' := body s a
      overCells inside body next fuel s' (next s' a)
    else s

/-- The same loop when its body can stop with an error. -/
def overCellsE (inside : Nat → Bool) (body : σ → Nat → Except ε σ) (next : σ → Nat → Nat) :
    Nat → σ → Nat → Except ε σ
  | 0, s, _ => .ok s
  | fuel + 1, s, a =>
    if inside a then do
      let s' ← body s a
      overCellsE inside body next fuel s' (next s' a)
    else .ok s

/-- The rule of the loop: what a round over a cell carries on holds at the end. -/
theorem overCells_invariant {inside : Nat → Bool} {body : σ → Nat → σ} {next : σ → Nat → Nat}
    {I : Nat → σ → Prop} (t : Tiles size a b cs) {fuel : Nat} (enough : b - a ≤ fuel)
    (within : ∀ c, a ≤ c → c < b → inside c = true) (outside : inside b = false)
    (step : ∀ c ∈ cs, ∀ s, I c s →
      I (c + size c) (body s c) ∧ next (body s c) c = c + size c)
    {s : σ} (start : I a s) : I b (overCells inside body next fuel s a) := by
  induction t generalizing fuel s with
  | nil a => cases fuel <;> simpa [overCells, outside] using start
  | @cons a b cs pos rest ih =>
    have ends := rest.le
    cases fuel with
    | zero => omega
    | succ fuel =>
      obtain ⟨kept, onward⟩ := step a (List.mem_cons_self ..) s start
      simp only [overCells, within a (Nat.le_refl _) (by omega), if_true, onward]
      exact ih (by omega) (fun c lo hi => within c (by omega) hi) outside
        (fun c hc => step c (List.mem_cons_of_mem _ hc)) kept

/-- A body that leaves the walk on the tiling is folded over its cells. -/
theorem overCells_eq_foldl {inside : Nat → Bool} {body : σ → Nat → σ} {next : σ → Nat → Nat}
    {K : σ → Prop} (t : Tiles size a b cs) {fuel : Nat} (enough : b - a ≤ fuel)
    (within : ∀ c, a ≤ c → c < b → inside c = true) (outside : inside b = false)
    (step : ∀ c ∈ cs, ∀ s, K s → K (body s c) ∧ next (body s c) c = c + size c)
    {s : σ} (start : K s) : overCells inside body next fuel s a = cs.foldl body s := by
  induction t generalizing fuel s with
  | nil a => cases fuel <;> simp [overCells, outside]
  | @cons a b cs pos rest ih =>
    have ends := rest.le
    cases fuel with
    | zero => omega
    | succ fuel =>
      obtain ⟨kept, onward⟩ := step a (List.mem_cons_self ..) s start
      simp only [overCells, within a (Nat.le_refl _) (by omega), if_true, onward,
        List.foldl_cons]
      exact ih (by omega) (fun c lo hi => within c (by omega) hi) outside
        (fun c hc => step c (List.mem_cons_of_mem _ hc)) kept

/-- The rule for a body that can fail, when the cells `done` have been visited: every
round carries `I` one cell further or fails with `E`. -/
theorem overCellsE_from {inside : Nat → Bool} {body : σ → Nat → Except ε σ}
    {next : σ → Nat → Nat} {I : List Nat → σ → Prop} {E : ε → Prop} (done : List Nat)
    (t : Tiles size a b cs) {fuel : Nat} (enough : b - a ≤ fuel)
    (within : ∀ c, a ≤ c → c < b → inside c = true) (outside : inside b = false)
    (step : ∀ front c back, done ++ cs = front ++ c :: back → ∀ s, I front s →
      (∃ s', body s c = .ok s' ∧ I (front ++ [c]) s' ∧ next s' c = c + size c) ∨
        ∃ e, body s c = .error e ∧ E e)
    {s : σ} (start : I done s) :
    (∃ s', overCellsE inside body next fuel s a = .ok s' ∧ I (done ++ cs) s') ∨
      ∃ e, overCellsE inside body next fuel s a = .error e ∧ E e := by
  induction t generalizing fuel s done with
  | nil a =>
    have idle : overCellsE inside body next fuel s a = .ok s := by
      cases fuel <;> simp [overCellsE, outside]
    exact Or.inl ⟨s, idle, by rwa [List.append_nil]⟩
  | @cons a b cs pos rest ih =>
    have ends := rest.le
    cases fuel with
    | zero => omega
    | succ fuel =>
      simp only [overCellsE, within a (Nat.le_refl _) (by omega), if_true]
      rcases step done a cs rfl s start with ⟨s', round, carried, onward⟩ | ⟨e, failed, he⟩
      · simp only [round, bind, Except.bind, onward]
        have shift : (done ++ [a]) ++ cs = done ++ a :: cs := by simp
        rw [← shift]
        exact ih (done ++ [a]) (by omega) (fun c lo hi => within c (by omega) hi) outside
          (fun front c back eq => step front c back (shift ▸ eq)) carried
      · exact Or.inr ⟨e, by simp only [failed, bind, Except.bind], he⟩

theorem overCellsE_invariant {inside : Nat → Bool} {body : σ → Nat → Except ε σ}
    {next : σ → Nat → Nat} {I : List Nat → σ → Prop} {E : ε → Prop} (t : Tiles size a b cs)
    {fuel : Nat} (enough : b - a ≤ fuel) (within : ∀ c, a ≤ c → c < b → inside c = true)
    (outside : inside b = false)
    (step : ∀ front c back, cs = front ++ c :: back → ∀ s, I front s →
      (∃ s', body s c = .ok s' ∧ I (front ++ [c]) s' ∧ next s' c = c + size c) ∨
        ∃ e, body s c = .error e ∧ E e)
    {s : σ} (start : I [] s) :
    (∃ s', overCellsE inside body next fuel s a = .ok s' ∧ I cs s') ∨
      ∃ e, overCellsE inside body next fuel s a = .error e ∧ E e :=
  overCellsE_from [] t enough within outside step start

end Loops

end Tiling
