import SlateVm.Collections.Splitting
import SlateVm.Collections.WriteStream

/-! `splitIntoSize:`, which collects the parts of a sequence with a write stream on an array. -/
namespace SlateVm.Collections

variable {α : Type}

section Model

variable [Inhabited α]

/-- The loop of `splitIntoSize:`, with a bound on its rounds. -/
def chunkLoop (s : List α) (n : Nat) :
    Nat → WriteStream (List (Option (List α))) → Nat →
      Option (WriteStream (List (Option (List α))) × Nat)
  | 0, _, _ => none
  | rounds + 1, subSeqs, sepIndex =>
    if sepIndex < s.length - s.length % n then do
      let part ← copyFrom s sepIndex (sepIndex + n)
      let subSeqs ← subSeqs.nextPut WriteStream.fixed (some part)
      chunkLoop s n rounds subSeqs (sepIndex + n)
    else some (subSeqs, sepIndex)

def putRemainder (s : List α) (subSeqs : WriteStream (List (Option (List α)))) (sepIndex : Nat) :
    Option (WriteStream (List (Option (List α)))) :=
  if sepIndex = s.length then some subSeqs
  else do
    let part ← copyFrom s sepIndex s.length
    subSeqs.nextPut WriteStream.fixed (some part)

/-- `splitIntoSize:`. The entries of an array that nothing has been stored at are Nil. -/
def splitIntoSize (rounds : Nat) (s : List α) (n : Nat) : Option (List (Option (List α))) :=
  if n = 0 then none
  else if n ≥ s.length then some [some s]
  else do
    let subSeqs := WriteStream.on WriteStream.fixed (List.replicate (s.length / n + 1) none)
    let (subSeqs, sepIndex) ← chunkLoop s n rounds subSeqs 0
    let subSeqs ← putRemainder s subSeqs sepIndex
    subSeqs.contents WriteStream.fixed

end Model

structure Chunked (s : List α) (n : Nat) (chunks : List (List α)) : Prop where
  whole : chunks.flatten = s
  nonempty : s ≠ [] → ∀ chunk ∈ chunks, chunk ≠ []
  front : ∀ chunk ∈ chunks.dropLast, chunk.length = n
  most : ∀ chunk ∈ chunks, chunk.length ≤ n
  count : chunks.length = max 1 ((s.length + n - 1) / n)

def parts (n : Nat) : Nat → List α → List (List α)
  | 0, _ => []
  | m + 1, s => s.take n :: parts n m (s.drop n)

section Parts

variable {n : Nat}

theorem length_parts (m : Nat) (s : List α) : (parts n m s).length = m := by
  induction m generalizing s with
  | zero => rfl
  | succ m ih => rw [parts, List.length_cons, ih]

theorem flatten_parts (m : Nat) (s : List α) : (parts n m s).flatten = s.take (m * n) := by
  induction m generalizing s with
  | zero => simp [parts]
  | succ m ih =>
    rw [parts, List.flatten_cons, ih, Nat.add_mul, Nat.one_mul, Nat.add_comm, List.take_add]

theorem size_parts (m : Nat) (s : List α) (enough : m * n ≤ s.length) :
    ∀ part ∈ parts n m s, part.length = n := by
  induction m generalizing s with
  | zero => simp [parts]
  | succ m ih =>
    rw [Nat.add_mul, Nat.one_mul] at enough
    intro part member
    rcases List.mem_cons.mp member with rfl | later
    · rw [List.length_take]
      omega
    · exact ih (s.drop n) (by rw [List.length_drop]; omega) part later

end Parts

section Writing

variable [Inhabited α] {cs : List (Option (List α))} {written more : List (Option (List α))}
variable {ws : WriteStream (List (Option (List α)))}

/-- What a stream on an array with room for all entries has written. -/
structure Collects (ws : WriteStream (List (Option (List α)))) (written : List (Option (List α)))
    (total : Nat) : Prop where
  collection : ws.collection = written ++ List.replicate (total - written.length) none
  position : ws.position = written.length
  fits : written.length ≤ total
  limits : ws.readLimit = total ∧ ws.writeLimit = total

omit [Inhabited α] in
theorem Collects.put {total : Nat} (collects : Collects ws written total)
    (room : written.length < total) (entry : Option (List α)) :
    ∃ ws', ws.nextPut WriteStream.fixed entry = some ws' ∧
      Collects ws' (written ++ [entry]) total := by
  have inside : ¬ ws.position ≥ ws.writeLimit := by
    rw [collects.position, collects.limits.2]
    omega
  have size : ws.position < ws.collection.length := by
    rw [collects.position, collects.collection, List.length_append, List.length_replicate]
    omega
  have put : WriteStream.fixed.atPut ws.collection ws.position entry =
      some (ws.collection.set ws.position entry) := arrayPut_nat size entry
  refine ⟨{ ws with position := ws.position + 1, collection := ws.collection.set ws.position entry },
    ?_, ?_, ?_, ?_, collects.limits⟩
  · simp only [WriteStream.nextPut, if_neg inside, put, Option.bind_eq_bind, Option.bind_some]
  · simp only [collects.position, collects.collection]
    rw [show total - written.length = (total - (written ++ [entry]).length) + 1 by
      simp only [List.length_append, List.length_singleton]
      omega]
    simp [List.replicate_succ]
  · simp only [collects.position, List.length_append, List.length_singleton]
  · simp only [List.length_append, List.length_singleton]
    omega

theorem chunkLoop_parts {s : List α} {n total : Nat} (pos : 0 < n) (m : Nat)
    (front rest : List α) (split : s = front ++ rest) (size : rest.length = m * n + s.length % n)
    (collects : Collects ws written total) (room : written.length + m ≤ total) {rounds : Nat}
    (enough : m < rounds) :
    ∃ ws', chunkLoop s n rounds ws front.length = some (ws', front.length + m * n) ∧
      Collects ws' (written ++ (parts n m rest).map some) total := by
  induction m generalizing front rest ws written rounds with
  | zero =>
    obtain ⟨rounds, rfl⟩ : ∃ k, rounds = k + 1 := ⟨rounds - 1, by omega⟩
    have whole := congrArg List.length split
    rw [List.length_append] at whole
    unfold chunkLoop
    rw [if_neg (by omega), Nat.zero_mul]
    exact ⟨ws, rfl, by simpa [parts] using collects⟩
  | succ m ih =>
    obtain ⟨rounds, rfl⟩ : ∃ k, rounds = k + 1 := ⟨rounds - 1, by omega⟩
    have whole := congrArg List.length split
    rw [List.length_append] at whole
    rw [Nat.add_mul, Nat.one_mul] at size
    have pieces : s = front ++ (rest.take n ++ rest.drop n) := by
      rw [List.take_append_drop, split]
    have taken : (rest.take n).length = n := by
      rw [List.length_take]
      omega
    have copied : copyFrom s front.length (front.length + n) = some (rest.take n) := by
      rw [pieces]
      exact copyFrom_middle rfl (by rw [taken])
    obtain ⟨ws₁, put, collects₁⟩ := collects.put (by omega) (some (rest.take n))
    have fewer : m < rounds := by omega
    obtain ⟨ws', run, all⟩ := ih (front ++ rest.take n) (rest.drop n)
      (by rw [List.append_assoc, ← pieces]) (by rw [List.length_drop]; omega) collects₁
      (by rw [List.length_append, List.length_singleton]; omega) fewer
    refine ⟨ws', ?_, ?_⟩
    · unfold chunkLoop
      rw [if_pos (by omega)]
      simp only [copied, put, Option.bind_eq_bind, Option.bind_some]
      rw [List.length_append, taken] at run
      rw [run, Nat.add_mul, Nat.one_mul, Nat.add_assoc, Nat.add_comm n]
    · simpa [parts] using all

omit [Inhabited α] in
theorem Collects.answers {total : Nat} (collects : Collects ws written total) :
    ws.contents WriteStream.fixed =
      some (written ++ List.replicate (total - written.length) none) := by
  have size : ws.collection.length = total := by
    rw [collects.collection, List.length_append, List.length_replicate]
    have fits := collects.fits
    omega
  have limit : max ws.readLimit ws.position = ws.collection.length := by
    rw [collects.limits.1, collects.position, size]
    have fits := collects.fits
    omega
  have copied := @copyFrom_within _ _ ws.collection 0 ws.collection.length (Nat.zero_le _)
    (Nat.le_refl _)
  rw [List.drop_zero, Nat.sub_zero, List.take_length, collects.collection] at copied
  simp only [WriteStream.contents, WriteStream.fixed, limit]
  rw [collects.collection]
  exact copied

theorem splitIntoSize_parts {s : List α} {n rounds : Nat} (pos : 0 < n) (long : n < s.length)
    (enough : s.length / n < rounds) :
    splitIntoSize rounds s n =
      if s.length % n = 0 then some ((parts n (s.length / n) s).map some ++ [none])
      else some ((parts n (s.length / n) s ++ [s.drop (s.length / n * n)]).map some) := by
  have divides := Nat.div_add_mod' s.length n
  have begins : Collects (WriteStream.on WriteStream.fixed
      (List.replicate (s.length / n + 1) (none : Option (List α)))) [] (s.length / n + 1) := by
    constructor
    · simp [WriteStream.on]
    · rfl
    · exact Nat.zero_le _
    · simp [WriteStream.on, WriteStream.fixed]
  obtain ⟨ws, run, collects⟩ := chunkLoop_parts pos (s.length / n) [] s rfl divides.symm begins
    (by simp) enough
  rw [List.length_nil, Nat.zero_add, List.nil_append] at run
  rw [List.nil_append] at collects
  have loop : splitIntoSize rounds s n =
      (putRemainder s ws (s.length / n * n)).bind fun subSeqs =>
        subSeqs.contents WriteStream.fixed := by
    unfold splitIntoSize
    rw [if_neg (by omega), if_neg (by omega)]
    simp only [run, Option.bind_eq_bind, Option.bind_some]
  rw [loop]
  unfold putRemainder
  split
  · next even =>
    rw [if_pos (by omega), Option.bind_some, collects.answers]
    simp [length_parts]
  · next odd =>
    rw [if_neg (by omega)]
    have copied : copyFrom s (s.length / n * n) s.length = some (s.drop (s.length / n * n)) := by
      rw [copyFrom_within (by omega) (Nat.le_refl _), List.take_of_length_le (by simp)]
    obtain ⟨ws', put, all⟩ := collects.put (by simp [length_parts])
      (some (s.drop (s.length / n * n)))
    simp only [copied, put, Option.bind_eq_bind, Option.bind_some, all.answers]
    simp [length_parts]

omit [Inhabited α] in
theorem chunked_parts {s : List α} {n : Nat} (pos : 0 < n) (odd : s.length % n ≠ 0) :
    Chunked s n (parts n (s.length / n) s ++ [s.drop (s.length / n * n)]) := by
  have divides := Nat.div_add_mod' s.length n
  have below := Nat.mod_lt s.length pos
  have full := @size_parts α n (s.length / n) s (by omega)
  have rest : (s.drop (s.length / n * n)).length = s.length % n := by
    rw [List.length_drop]
    omega
  constructor
  · rw [List.flatten_append, flatten_parts]
    simp
  · intro some_ chunk member nothing
    have none_ : chunk.length = 0 := by rw [nothing, List.length_nil]
    rcases List.mem_append.mp member with inside | last
    · rw [full chunk inside] at none_
      omega
    · rw [List.mem_singleton.mp last, rest] at none_
      exact odd none_
  · rw [List.dropLast_concat]
    exact full
  · intro chunk member
    rcases List.mem_append.mp member with inside | last
    · exact Nat.le_of_eq (full chunk inside)
    · rw [List.mem_singleton.mp last, rest]
      omega
  · rw [List.length_append, length_parts, List.length_singleton]
    have up : (s.length + n - 1) / n = s.length / n + 1 := by
      apply Nat.div_eq_of_lt_le
      · rw [Nat.add_mul]
        omega
      · rw [Nat.add_mul, Nat.add_mul]
        omega
    rw [up, Nat.max_eq_right (Nat.le_add_left 1 _)]

omit [Inhabited α] in
theorem chunked_short {s : List α} {n : Nat} (pos : 0 < n) (short : s.length ≤ n) :
    Chunked s n [s] := by
  constructor
  · simp
  · intro some_ chunk member
    rwa [List.mem_singleton.mp member]
  · simp
  · intro chunk member
    rwa [List.mem_singleton.mp member]
  · rcases Nat.eq_zero_or_pos s.length with none_ | some_
    · rw [none_, Nat.div_eq_of_lt (by omega)]
      rfl
    · rw [show (s.length + n - 1) / n = 1 by
        apply Nat.div_eq_of_lt_le
        · omega
        · omega]
      rfl

end Writing

end SlateVm.Collections
