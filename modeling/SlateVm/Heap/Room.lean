import SlateVm.Heap.Fresh
import SlateVm.Heap.Intact

/-! Making room: the collections that an allocation runs, and the cell it then takes. -/
namespace SlateVm
open Tiling

abbrev Pinned (h : Heap) (a : Nat) : Prop := isPinnedObject h a = true

/-- What an allocation does before it takes a cell: it collects, and a clone keeps its
prototype pinned for that time. -/
inductive Room : Heap → Heap → Prop where
  | here (h : Heap) : Room h h
  | young {h k : Heap} : Room { heapGc h with nextFree := (heapGc h).memoryYoung } k → Room h k
  | full {h g k : Heap} : heapFullGc h = .ok g →
      Room { g with nextFree := g.memoryYoung } k → Room h k
  | pinned {h g k : Heap} {x : Nat} : heapPinObject h x = .ok g → Room g k →
      Room h (heapUnpinObject k x)

section Kept

variable {h k m : Heap}

theorem Kept.refl (s : Sound h) (anchored : Nat → Prop) : Kept h h anchored :=
  ⟨s, ⟨rfl, rfl, rfl, rfl⟩, fun _ live _ => ⟨live, rfl⟩, id, rfl⟩

theorem Kept.mono {anchored fewer : Nat → Prop} (c : Kept h k anchored)
    (sub : ∀ a, Live h a → fewer a → anchored a) : Kept h k fewer :=
  ⟨c.sound, c.limits, fun a live f => c.keeps a live (sub a live f), c.guarded, c.cached⟩

theorem pinned_outline {a : Nat} (same : (k.mem a).outline = (h.mem a).outline) :
    isPinnedObject k a = isPinnedObject h a :=
  (congrArg (fun o : Object => decide (o.hash < idHashReserved) && decide (0 < o.pinCount)) same :)

theorem Kept.trans (first : Kept h k (Pinned h)) (second : Kept k m (Pinned k)) :
    Kept h m (Pinned h) := by
  refine ⟨second.sound, ?_, fun a live pinned => ?_, second.guarded ∘ first.guarded,
    second.cached.trans first.cached⟩
  · obtain ⟨o, l, y, ys⟩ := first.limits
    obtain ⟨o', l', y', ys'⟩ := second.limits
    exact ⟨o'.trans o, l'.trans l, y'.trans y, ys'.trans ys⟩
  · obtain ⟨liveK, same⟩ := first.keeps a live pinned
    obtain ⟨liveM, more⟩ := second.keeps a liveK ((pinned_outline same).trans pinned)
    exact ⟨liveM, more.trans same⟩

theorem heapGc_kept (s : Sound h) : Collected h (heapGc h) (Pinned h) :=
  have c := heapGc_collected s
  ⟨c.toKept.mono fun _ _ pinned => Or.inr (Or.inl pinned), c.next⟩

theorem heapFullGc_kept (s : Sound h) :
    (∃ k, heapFullGc h = .ok k ∧ Collected h k (Pinned h)) ∨
      heapFullGc h = .error .assertFailed := by
  rcases heapFullGc_collected s with ⟨k, run, c⟩ | fails
  · exact Or.inl ⟨k, run, c.toKept.mono fun _ _ pinned => Or.inl pinned, c.next⟩
  · exact Or.inr fails

theorem Collected.reset {anchored : Nat → Prop} (c : Collected h k anchored) :
    ({ k with nextFree := k.memoryYoung } : Heap) = k := by
  cases k
  simp only [Heap.mk.injEq, true_and, and_true]
  exact c.next.symm

theorem gcScavenge_spec (s : Sound h) :
    (∃ k, gcScavenge h = .ok k ∧ Collected h k (Pinned h) ∧
      (∀ m, Room k m → Room h m) ∧ (h.doFullGCNext = false → k = heapGc h)) ∨
      gcScavenge h = .error .assertFailed := by
  unfold gcScavenge
  cases full : h.doFullGCNext with
  | true =>
    rcases heapFullGc_kept s with ⟨k, run, c⟩ | fails
    · refine Or.inl ⟨k, ?_, c, fun m room => .full run (c.reset.symm ▸ room), by simp⟩
      simp only [if_true, run, bind, Except.bind, c.reset]
    · exact Or.inr (by simp [fails, bind, Except.bind])
  | false =>
    have c := heapGc_kept s
    refine Or.inl ⟨heapGc h, ?_, c, fun m room => .young (c.reset.symm ▸ room), fun _ => rfl⟩
    simp only [Bool.false_eq_true, if_false, bind, Except.bind, c.reset]

end Kept

section Search

variable {k : Heap}

theorem Sound.search_start (s : Sound k) : Boundary k.mem k.memoryYoung k.memoryYoungSize
    (if objectInMemory k.memoryYoung k.memoryYoungSize k.nextFree then k.nextFree
      else k.memoryYoung) := by
  split
  · rename_i inside
    exact s.nextYoung inside
  · exact s.young.boundary_start

theorem findYoung_found (s : Sound k) {bytes : Int} {obj : Nat}
    (hit : findYoung k bytes = some obj) :
    obj ∈ youngCells k ∧ isFree k obj = true ∧
      (bytes + sizeofObject).toNat ≤ extent k.mem obj :=
  heapFindFirstFree_spec s.search_start hit

theorem heapFindFirstFree_complete {h : Heap} {memory memorySize bytes fuel obj : Nat}
    {ds : List Nat} (t : Tiles (extent h.mem) obj (memory + memorySize) ds)
    (above : memory ≤ obj) (enough : memory + memorySize - obj ≤ fuel)
    (fits : ∃ c ∈ ds, isFree h c = true ∧ bytes ≤ extent h.mem c) :
    (heapFindFirstFree h memory memorySize bytes fuel obj).isSome := by
  induction fuel generalizing obj ds with
  | zero =>
    obtain ⟨c, hc, -⟩ := fits
    have := t.bounds c hc
    omega
  | succ fuel ih =>
    cases t with
    | nil =>
      obtain ⟨c, hc, -⟩ := fits
      cases hc
    | @cons _ _ ds pos rest =>
      have ends := rest.le
      have inside : objectInMemory memory memorySize obj = true :=
        objectInMemory_iff.mpr (by omega)
      rw [heapFindFirstFree, if_pos inside]
      split
      · rfl
      · rename_i miss
        have next : objectAfter h obj = obj + extent h.mem obj := rfl
        rw [next]
        refine ih rest (by omega) (by omega) ?_
        obtain ⟨c, hc, free, room⟩ := fits
        rcases List.mem_cons.mp hc with rfl | later
        · exact absurd (by simp [show objectIsFree (h.mem c) = true from free,
            show bytes ≤ objectTotalSize (h.mem c) from room]) miss
        · exact ⟨c, later, free, room⟩

theorem findYoung_hole (s : Sound k) (next : k.nextFree = k.memoryYoung) {bytes : Int}
    (none : bytes ≤ 0) : (findYoung k bytes).isSome := by
  have start : (if objectInMemory k.memoryYoung k.memoryYoungSize k.nextFree then k.nextFree
      else k.memoryYoung) = k.memoryYoung := by
    split
    · exact next
    · rfl
  obtain ⟨c, hc, free⟩ := s.hole
  have least := s.young.least c hc
  simp only [findYoung, heapFindFirstYoungFree, start]
  refine heapFindFirstFree_complete s.young.tiles (Nat.le_refl _) (by omega) ⟨c, hc, free, ?_⟩
  simp only [minCell, headerSizeWords, sizeofWord, sizeofObject] at least ⊢
  omega

end Search

section MakeRoom

variable {h : Heap} {bytes : Int}

def fullGcRuns (h : Heap) (bytes : Int) : Bool :=
  (findYoung h bytes).isNone && (h.doFullGCNext || (findYoung (heapGc h) bytes).isNone)

theorem gcMakeRoom_spec (s : Sound h) (bytes : Int) :
    (∃ k, gcMakeRoom h bytes = .ok k ∧ Kept h k (Pinned h) ∧ Room h k ∧
      ((findYoung k bytes).isSome ∨ k.nextFree = k.memoryYoung) ∧
      (fullGcRuns h bytes = false → k = h ∨ k = heapGc h)) ∨
      gcMakeRoom h bytes = .error .assertFailed := by
  unfold gcMakeRoom
  by_cases found : (findYoung h bytes).isSome = true
  · exact Or.inl ⟨h, if_pos found, .refl s _, .here h, Or.inl found, fun _ => Or.inl rfl⟩
  rw [if_neg found]
  have missing : (findYoung h bytes).isNone = true := by simpa using found
  rcases gcScavenge_spec s with ⟨k, run, c, room, young⟩ | fails
  swap
  · exact Or.inr (by rw [fails]; rfl)
  simp only [run, bind, Except.bind]
  by_cases again : (findYoung k bytes).isSome = true
  · refine Or.inl ⟨k, if_pos again, c.toKept, room k (.here k), Or.inl again, fun quiet => ?_⟩
    simp only [fullGcRuns, missing, Bool.true_and, Bool.or_eq_false_iff] at quiet
    exact Or.inr (young quiet.1)
  rw [if_neg again]
  rcases heapFullGc_kept c.sound with ⟨m, last, d⟩ | fails
  swap
  · exact Or.inr (by rw [fails])
  simp only [last, d.reset]
  refine Or.inl ⟨m, rfl, c.toKept.trans d.toKept, room m (.full last (d.reset.symm ▸ .here m)),
    Or.inr d.next, fun quiet => ?_⟩
  simp only [fullGcRuns, missing, Bool.true_and, Bool.or_eq_false_iff] at quiet
  rw [young quiet.1] at again
  have quiet := quiet.2
  simp only [Option.isNone_eq_false_iff] at quiet
  exact absurd quiet again

theorem gcMakeRoom_ok (s : Sound h) {k : Heap} (run : gcMakeRoom h bytes = .ok k) :
    Kept h k (Pinned h) ∧ Room h k ∧ (fullGcRuns h bytes = false → k = h ∨ k = heapGc h) := by
  rcases gcMakeRoom_spec s bytes with ⟨k', same, kept, room, -, young⟩ | fails
  · rw [run] at same
    cases same
    exact ⟨kept, room, young⟩
  · rw [run] at fails
    cases fails

/-- What the collections of an allocation may find at an object that is to be there
afterwards. -/
inductive Steady (h : Heap) (proto : Nat) (bytes : Int) : Prop where
  | roomy : (findYoung h bytes).isSome → Steady h proto bytes
  | pinned : Pinned h proto → Steady h proto bytes
  | anchored : youngAnchored h proto → fullGcRuns h bytes = false → Steady h proto bytes
  | reached : Intact h → FullReachable h proto →
      proto ∈ oldCells h ∨ fullGcRuns h bytes = false → Steady h proto bytes

theorem heapFullGc_old (s : Sound h) (i : Intact h) {k : Heap} {proto : Nat}
    (reached : FullReachable h proto) (old : proto ∈ oldCells h) (run : heapFullGc h = .ok k) :
    Intact k ∧ Held h k proto := by
  rcases heapFullGc_intact s i with ⟨m, done, intact, keeps⟩ | fails
  · cases done.symm.trans run
    exact ⟨intact, keeps proto reached (Or.inl old)⟩
  · rw [run] at fails; cases fails

theorem gcScavenge_old (s : Sound h) (i : Intact h) {k : Heap} {proto : Nat}
    (reached : FullReachable h proto) (old : proto ∈ oldCells h) (run : gcScavenge h = .ok k) :
    Intact k ∧ Held h k proto := by
  unfold gcScavenge at run
  cases full : h.doFullGCNext with
  | true =>
    rcases heapFullGc_kept s with ⟨m, done, c⟩ | fails
    · simp only [full, if_true, done, bind, Except.bind, c.reset, Except.ok.injEq] at run
      subst run
      exact heapFullGc_old s i reached old done
    · simp [full, fails, bind, Except.bind] at run
  | false =>
    have c := heapGc_kept s
    simp only [full, Bool.false_eq_true, if_false, bind, Except.bind, c.reset,
      Except.ok.injEq] at run
    subst run
    obtain ⟨intact, keeps⟩ := heapGc_intact s i
    exact ⟨intact, keeps proto reached⟩

theorem gcMakeRoom_old (s : Sound h) (i : Intact h) {k : Heap} {proto : Nat}
    (reached : FullReachable h proto) (old : proto ∈ oldCells h)
    (run : gcMakeRoom h bytes = .ok k) :
    Live k proto ∧ (k.mem proto).outline = (h.mem proto).outline := by
  unfold gcMakeRoom at run
  by_cases found : (findYoung h bytes).isSome = true
  · simp only [found, if_true, Except.ok.injEq] at run
    subst run
    exact ⟨FullReachable.live i.wellFormed reached, rfl⟩
  rw [if_neg found] at run
  rcases gcScavenge_spec s with ⟨m, done, c, -⟩ | fails
  swap
  · rw [fails] at run; cases run
  obtain ⟨intact, held⟩ := gcScavenge_old s i reached old done
  simp only [done, bind, Except.bind] at run
  by_cases again : (findYoung m bytes).isSome = true
  · simp only [again, if_true, Except.ok.injEq] at run
    subst run
    exact ⟨held.live, held.same⟩
  rw [if_neg again] at run
  rcases heapFullGc_kept c.sound with ⟨n, last, d⟩ | fails
  swap
  · rw [fails] at run; cases run
  simp only [last, d.reset, Except.ok.injEq] at run
  subst run
  have both := held.trans (heapFullGc_old c.sound intact held.reached (held.old old) last).2
  exact ⟨both.live, both.same⟩

theorem Steady.keeps {k : Heap} {proto : Nat} (s : Sound h) (live : Live h proto)
    (steady : Steady h proto bytes) (run : gcMakeRoom h bytes = .ok k) :
    Live k proto ∧ (k.mem proto).outline = (h.mem proto).outline := by
  obtain ⟨kept, -, young⟩ := gcMakeRoom_ok s run
  cases steady with
  | roomy found =>
    rw [gcMakeRoom, if_pos found] at run
    cases run
    exact ⟨live, rfl⟩
  | pinned pin => exact kept.keeps proto live pin
  | anchored anchor quiet =>
    rcases young quiet with rfl | rfl
    · exact ⟨live, rfl⟩
    · exact (heapGc_collected s).keeps proto live anchor
  | reached intact reached stays =>
    rcases stays with old | quiet
    · exact gcMakeRoom_old s intact reached old run
    · rcases young quiet with rfl | rfl
      · exact ⟨live, rfl⟩
      · have held := (heapGc_intact s intact).2 proto reached
        exact ⟨held.live, held.same⟩

theorem gcBreakYoung_spec {k : Heap} (s : Sound k) {obj : Nat} (whole : bytes % sizeofWord = 0)
    (hit : findYoung k bytes = some obj) :
    (∃ g, gcBreakYoung k obj bytes = .ok (g, obj) ∧ Fresh k g obj bytes.toNat ∧ minCell ≤ bytes) ∨
      gcBreakYoung k obj bytes = .error .assertFailed := by
  obtain ⟨here, free, room⟩ := findYoung_found s hit
  by_cases positive : 0 ≤ bytes
  swap
  · exact Or.inr (by simp [gcBreakYoung, require, positive, bind, Except.bind])
  by_cases least : headerSizeWords + 1 ≤ bytes.toNat / sizeofWord
  swap
  · exact Or.inr (by simp [gcBreakYoung, require, positive, least, bind, Except.bind])
  have exactly : bytes.toNat / sizeofWord * sizeofWord = bytes.toNat := by
    simp only [sizeofWord] at whole ⊢
    omega
  have carved := breakFreeSpace_carved (h := { k with nextFree := obj }) s.young here free least
    (by rw [exactly]; simp only [sizeofObject] at room ⊢; omega)
  rw [exactly] at carved
  obtain ⟨mem, hash, shape⟩ := breakFreeSpace_others { k with nextFree := obj } obj
    (bytes.toNat / sizeofWord)
  rw [shape] at carved
  refine Or.inl ⟨_, ?_, Fresh.young s hash carved, ?_⟩
  · simp only [gcBreakYoung, require, positive, least, decide_true, if_true, bind, Except.bind,
      shape]
  · simp only [minCell, headerSizeWords, sizeofWord] at least ⊢
    omega

theorem gcAllocateOld_fresh {k : Heap} (s : Sound k) (next : Nat)
    (start : objectIsYoung k next = true → Boundary k.mem k.memoryYoung k.memoryYoungSize next)
    (bytes : Nat) :
    (∃ g obj, gcAllocateOld { k with nextFree := next } bytes = .ok (g, obj) ∧
      Fresh k g obj bytes ∧ minCell ≤ bytes) ∨
      gcAllocateOld { k with nextFree := next } bytes = .error .assertFailed := by
  have old : Tiled k.mem k.memoryOld k.memoryOldSize := s.old
  rcases gcAllocateOld_spec (h := { k with nextFree := next }) bytes old s.nextOld with
    ⟨mem, size, hash, obj, run, carved, -, least, grown⟩ | ⟨fails, -⟩
  · have limit : size ≤ k.memoryOldLimit := by
      have := s.limit
      rcases grown with rfl | ⟨_, lt⟩
      · exact this
      · exact Nat.le_of_lt lt
    exact Or.inl ⟨_, obj, run, .old s hash next carved limit start, least⟩
  · exact Or.inr fails

theorem gcAllocate_spec (s : Sound h) (bytes : Int) :
    (∃ k g obj, gcMakeRoom h bytes = .ok k ∧ gcAllocate h bytes = .ok (g, obj) ∧
      Fresh k g obj bytes.toNat ∧ minCell ≤ bytes) ∨
      gcAllocate h bytes = .error .assertFailed := by
  rw [gcAllocate]
  by_cases whole : bytes % sizeofWord = 0
  swap
  · exact Or.inr (by simp [require, whole, bind, Except.bind])
  rcases gcMakeRoom_spec s bytes with ⟨k, room, kept, -, found, -⟩ | fails
  swap
  · exact Or.inr (by simp [require, whole, fails, bind, Except.bind])
  simp only [require, whole, room, decide_true, if_true, bind, Except.bind]
  cases search : findYoung k bytes with
  | some obj =>
    rcases gcBreakYoung_spec kept.sound whole search with ⟨g, run, fresh, least⟩ | fails
    · exact Or.inl ⟨k, g, obj, rfl, run, fresh, least⟩
    · exact Or.inr fails
  | none =>
    by_cases negative : bytes < 0
    · have missing : (findYoung k bytes).isSome = false := by rw [search]; rfl
      rcases found with found | next
      · rw [missing] at found; cases found
      · have hole : (findYoung k bytes).isSome = true := findYoung_hole kept.sound next (by omega)
        rw [missing] at hole
        cases hole
    · simp only [if_neg negative]
      have start : objectIsYoung k 0 = true →
          Boundary k.mem k.memoryYoung k.memoryYoungSize 0 := by
        intro here
        have bottom := objectInMemory_iff.mp here
        have bottom : k.memoryYoung = 0 := by omega
        have first := kept.sound.young.boundary_start
        rwa [bottom] at first ⊢
      rcases gcAllocateOld_fresh kept.sound 0 start bytes.toNat with
        ⟨g, obj, run, fresh, least⟩ | fails
      · exact Or.inl ⟨k, g, obj, rfl, run, fresh, by omega⟩
      · exact Or.inr fails

end MakeRoom

end SlateVm
