import SlateVm.Lib.Tiling

/-! Steps that may fail and relate the state before to the state after. For a reflexive
and transitive relation the steps of a sequence, a fold and a walk add up. -/
namespace Steps

variable {σ ε : Type} {R : σ → σ → Prop} {E : ε → Prop}

theorem bind_eq_ok {α β : Type} {x : Except ε α} {f : α → Except ε β} {b : β} :
    x >>= f = .ok b ↔ ∃ a, x = .ok a ∧ f a = .ok b := by
  cases x with
  | error e => simp [bind, Except.bind]
  | ok a => simp [bind, Except.bind]

/-- The step ends in a state related to `s`, or fails with an error of `E`. -/
def Keeps (R : σ → σ → Prop) (E : ε → Prop) (s : σ) (r : Except ε σ) : Prop :=
  (∃ s', r = .ok s' ∧ R s s') ∨ ∃ e, r = .error e ∧ E e

theorem Keeps.ok {s s' : σ} (related : R s s') : Keeps R E s (.ok s') :=
  Or.inl ⟨s', rfl, related⟩

theorem Keeps.error {s : σ} {e : ε} (he : E e) : Keeps R E s (.error e) := Or.inr ⟨e, rfl, he⟩

theorem Keeps.result {s s' : σ} {r : Except ε σ} (k : Keeps R E s r) (run : r = .ok s') :
    R s s' := by
  rcases k with ⟨t, same, related⟩ | ⟨e, fails, _⟩
  · rw [run] at same
    cases same
    exact related
  · rw [run] at fails
    cases fails

theorem Keeps.mono {Q : σ → σ → Prop} {s t : σ} {r : Except ε σ} (k : Keeps R E s r)
    (weaker : ∀ s', R s s' → Q t s') : Keeps Q E t r := by
  rcases k with ⟨s', run, related⟩ | ⟨e, fails, he⟩
  · exact Or.inl ⟨s', run, weaker s' related⟩
  · exact Or.inr ⟨e, fails, he⟩

theorem Keeps.bind {s : σ} {r : Except ε σ} {f : σ → Except ε σ}
    (trans : ∀ a b c, R a b → R b c → R a c) (first : Keeps R E s r)
    (rest : ∀ s', R s s' → Keeps R E s' (f s')) : Keeps R E s (r >>= f) := by
  rcases first with ⟨s', run, related⟩ | ⟨e, fails, he⟩
  · subst run
    exact (rest s' related).mono fun s'' => trans s s' s'' related
  · subst fails
    exact .error he

theorem Keeps.foldlM {β : Type} {f : σ → β → Except ε σ} (refl : ∀ a, R a a)
    (trans : ∀ a b c, R a b → R b c → R a c) (bs : List β) (s : σ)
    (step : ∀ b ∈ bs, ∀ s', R s s' → Keeps R E s' (f s' b)) :
    Keeps R E s (bs.foldlM f s) := by
  induction bs generalizing s with
  | nil => exact .ok (refl s)
  | cons b bs ih =>
    rw [List.foldlM_cons]
    refine .bind trans (step b (List.mem_cons_self ..) s (refl s)) fun s' related => ?_
    exact ih s' fun c hc s'' more =>
      step c (List.mem_cons_of_mem _ hc) s'' (trans _ _ _ related more)

/-- A walk whose rounds keep the relation, and with it the cells ahead. -/
theorem Keeps.overCellsE {size : Nat → Nat} {a b : Nat} {cs : List Nat} {inside : Nat → Bool}
    {body : σ → Nat → Except ε σ} {next : σ → Nat → Nat} (refl : ∀ a, R a a)
    (trans : ∀ a b c, R a b → R b c → R a c) (t : Tiling.Tiles size a b cs) {fuel : Nat}
    (enough : b - a ≤ fuel) (within : ∀ c, a ≤ c → c < b → inside c = true)
    (outside : inside b = false) (s : σ)
    (step : ∀ c ∈ cs, ∀ s', R s s' → Keeps R E s' (body s' c))
    (onward : ∀ c ∈ cs, ∀ s', R s s' → next s' c = c + size c) :
    Keeps R E s (Tiling.overCellsE inside body next fuel s a) := by
  refine Tiling.overCellsE_invariant (I := fun _ s' => R s s') t enough within outside ?_ (refl s)
  intro front c back split s' related
  have here : c ∈ cs := by rw [split]; simp
  rcases step c here s' related with ⟨s'', run, more⟩ | failed
  · have all := trans _ _ _ related more
    exact Or.inl ⟨s'', run, all, onward c here s'' all⟩
  · exact Or.inr failed

end Steps
