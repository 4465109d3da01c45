import WormholeFilters.PmCrash

/-! What a call that returned true leaves in the persistent image. The last store of
an insertion and the store of a deletion are not followed by a persist, so the
update survives a crash only through a write-back that came in time. -/
namespace WormholeFilters.Pm

open RingTable

variable {N : Nat}

def booted (N : Nat) : Machine N := ⟨init N, .idle none⟩

theorem run_writeBacks (s : Machine N) (buckets : List Nat) :
    let s' := run s (buckets.map .writeBack)
    s'.pc = s.pc ∧ s'.memory.volatile = s.memory.volatile ∧
    ∀ b < N, bucket s'.memory.persistent b =
      if b ∈ buckets then bucket s.memory.volatile b else bucket s.memory.persistent b := by
  induction buckets generalizing s with
  | nil => exact ⟨rfl, rfl, fun b _ => rfl⟩
  | cons i buckets ih =>
    obtain ⟨pc, volatile, persistent⟩ := ih (act s (.writeBack i))
    rw [List.map_cons, run_cons]
    refine ⟨pc, volatile, fun b inside => ?_⟩
    rw [persistent b inside]
    by_cases later : b ∈ buckets
    · rw [if_pos later, if_pos (List.mem_cons_of_mem i later)]
      rfl
    · by_cases now : b = i
      · subst now
        rw [if_neg later, if_pos List.mem_cons_self, act, persist, bucket_setIfInBounds _ inside,
          if_pos rfl]
      · rw [if_neg later, if_neg (by simp [now, later]), act]
        by_cases inRing : i < N
        · rw [persist, bucket_setIfInBounds _ inRing, if_neg now]
        · rw [persist_outside _ inRing]

variable [NeZero N]

/-- What the volatile image holds where the current call stored last. -/
def Stored (s : Machine N) : Prop :=
  match s.pc with
  | .idle _ => True
  | .moving key i j => Visited N key i ∧ j < 4
  | .persisting key i curr j => Visited N key i ∧ Visited N key curr ∧ j < 4
  | .inserted key i j => ∃ d < 16, i = initBuckIdx N key + d ∧ j < 4 ∧
      readTag s.memory i j = tagOf key + d
  | .deleted _ i j => readTag s.memory i j = 0

theorem Stored.enter (small : 2 * N < 2 ^ 32) (m : Memory N) (c : Call) : Stored (enter m c) := by
  cases c with
  | lookup key => trivial
  | insert key =>
    obtain failed | ⟨curr, j, visited, inside, _, entered⟩ := enter_insert small m key
    · rw [failed]
      trivial
    · rw [entered]
      exact ⟨visited, inside⟩
  | delete key =>
    cases found : findTag m key with
    | none => simp only [Pm.enter, found]; trivial
    | some c =>
      obtain ⟨d, _, _, inside, _⟩ := findTag_some small found
      simp only [Pm.enter, found, Stored]
      rw [readTag_writeTag m inside (by decide), if_pos ⟨rfl, rfl⟩]

theorem Stored.advance {s : Machine N} (stored : Stored s) : Stored (act s .next) := by
  obtain ⟨m, pc⟩ := s
  cases pc with
  | idle | inserted | deleted => trivial
  | persisting key i curr j => exact stored.2
  | moving key curr j =>
    obtain ⟨visited, inside⟩ := stored
    have next := advance_loopStep m visited j
    simp only [act]
    generalize Pm.advance m (.moving key curr j) = s' at next ⊢
    cases next with
    | stuck => trivial
    | copied pos inside' close =>
      have below := visited.2
      exact ⟨visited, ⟨by omega, by omega⟩, inside'⟩
    | @placed t near =>
      obtain ⟨tag, _, bound⟩ := tagOf_spec key
      refine ⟨t, near, rfl, inside, ?_⟩
      rw [readTag_writeTag m inside (by omega), if_pos ⟨rfl, rfl⟩]

theorem act_stored (small : 2 * N < 2 ^ 32) {s : Machine N} (stored : Stored s) (a : Action) :
    Stored (act s a) := by
  cases a with
  | next => exact stored.advance
  | writeBack i => exact stored
  | crash => trivial
  | call c =>
    obtain ⟨m, pc⟩ := s
    cases pc with
    | idle result => exact Stored.enter small m c
    | moving | persisting | inserted | deleted => exact stored

theorem run_stored (small : 2 * N < 2 ^ 32) {s : Machine N} (stored : Stored s) (acts : List Action) :
    Stored (run s acts) := by
  induction acts generalizing s with
  | nil => exact stored
  | cons a acts ih => exact ih (act_stored small stored a)

/-- A store reaches the persistent image through a write-back of its own bucket and
in no other way. -/
theorem store_writeBacks (m : Memory N) (pc : Pc) {i j t : Nat} (inside : j < 4) (bound : t < 2 ^ 16)
    (buckets : List Nat) :
    let after := (run ⟨writeTag m i j t, pc⟩ (buckets.map .writeBack)).memory.crash
    (i % N ∈ buckets → readTag after i j = t) ∧
    (i % N ∉ buckets → ∀ pc', after = (run ⟨m, pc'⟩ (buckets.map .writeBack)).memory.crash) := by
  have inRing := Nat.mod_lt i (NeZero.pos N)
  obtain ⟨_, _, stored⟩ := run_writeBacks (⟨writeTag m i j t, pc⟩ : Machine N) buckets
  refine ⟨fun flushed => ?_, fun missed pc' => ?_⟩
  · have value : readTag (writeTag m i j t) i j = t := by
      rw [readTag_writeTag m inside bound, if_pos ⟨rfl, rfl⟩]
    rw [readTag, Memory.crash, stored _ inRing, if_pos flushed]
    exact value
  · obtain ⟨_, _, plain⟩ := run_writeBacks (⟨m, pc'⟩ : Machine N) buckets
    have images : (run ⟨writeTag m i j t, pc⟩ (buckets.map .writeBack)).memory.persistent =
        (run ⟨m, pc'⟩ (buckets.map .writeBack)).memory.persistent := by
      apply image_ext
      intro b inside
      rw [stored b inside, plain b inside]
      by_cases flushed : b ∈ buckets
      · have apart : b ≠ i % N := fun same => missed (same ▸ flushed)
        rw [if_pos flushed, if_pos flushed, writeTag, bucket_setIfInBounds _ inRing, if_neg apart]
      · rw [if_neg flushed, if_neg flushed, writeTag]
    simp only [Memory.crash, images]

/-- After the last store of an insertion its key survives a crash exactly when the
bucket stored to was written back, or the image had the key's pair anyway. -/
theorem insert_durable_iff (small : 2 * N < 2 ^ 32) {s : Machine N} (stored : Stored s) {key : Word}
    {curr j : Nat} (hole : s.pc = .moving key curr j)
    (near : wrapSub 64 curr (initBuckIdx N key) < maxProb) (buckets : List Nat) :
    let s' := run s (.next :: (buckets.map .writeBack ++ [.next]))
    s'.pc = .idle (some true) ∧ (lookup s'.memory.crash key = true ↔
      curr % N ∈ buckets ∨ lookup (run s (buckets.map .writeBack)).memory.crash key = true) := by
  obtain ⟨m, pc⟩ := s
  obtain rfl : pc = .moving key curr j := hole
  obtain ⟨⟨above, below⟩, inside⟩ := stored
  obtain ⟨d, rfl⟩ := Nat.exists_eq_add_of_le above
  rw [wrapSub_add_left] at near
  have close : d < 16 := near
  obtain ⟨tag, _, bound⟩ := tagOf_spec key
  obtain ⟨flushed, missed⟩ := store_writeBacks m (.inserted key (initBuckIdx N key + d) j)
    (i := initBuckIdx N key + d) inside (show tagOf key + d < 2 ^ 16 by omega) buckets
  obtain ⟨pc, _⟩ := run_writeBacks (⟨writeTag m (initBuckIdx N key + d) j (tagOf key + d),
    .inserted key (initBuckIdx N key + d) j⟩ : Machine N) buckets
  rw [run_cons, run_append]
  simp only [act, advance_moving, if_neg (Nat.not_le.mpr near), or_tagOf key close]
  generalize run ⟨writeTag m (initBuckIdx N key + d) j (tagOf key + d),
    .inserted key (initBuckIdx N key + d) j⟩ (buckets.map .writeBack) = s' at flushed missed pc ⊢
  simp only [run, List.foldl_cons, List.foldl_nil, act, pc, advance, true_and]
  by_cases member : (initBuckIdx N key + d) % N ∈ buckets
  · rw [lookup_iff small, mem_alpha_iff small]
    exact ⟨fun _ => Or.inl member, fun _ => ⟨d, close, j, inside, flushed member⟩⟩
  · rw [missed member (.moving key (initBuckIdx N key + d) j)]
    simp only [member, false_or]
    rfl

/-- After a deletion the cleared slot is clear in the persistent image exactly when its
bucket was written back, or the image never had the tag. -/
theorem delete_durable_iff (small : 2 * N < 2 ^ 32) {s : Machine N} {result : Option Bool} {key : Word}
    {i j : Nat} (idle : s.pc = .idle result) (found : findTag s.memory key = some (i, j))
    (buckets : List Nat) :
    let s' := run s (.call (.delete key) :: (buckets.map .writeBack ++ [.next]))
    s'.pc = .idle (some true) ∧ (readTag s'.memory.crash i j = 0 ↔
      i % N ∈ buckets ∨ readTag s.memory.crash i j = 0) := by
  obtain ⟨m, pc⟩ := s
  obtain rfl : pc = .idle result := idle
  obtain ⟨_, _, _, inside, _⟩ := findTag_some small found
  obtain ⟨flushed, missed⟩ := store_writeBacks m (.deleted key i j) (i := i) inside
    (show 0 < 2 ^ 16 by decide) buckets
  obtain ⟨pc, _⟩ := run_writeBacks (⟨writeTag m i j 0, .deleted key i j⟩ : Machine N) buckets
  obtain ⟨_, _, plain⟩ := run_writeBacks (⟨m, .idle result⟩ : Machine N) buckets
  rw [run_cons, run_append]
  simp only [act, enter, found]
  generalize run ⟨writeTag m i j 0, .deleted key i j⟩ (buckets.map .writeBack) = s'
    at flushed missed pc ⊢
  simp only [run, List.foldl_cons, List.foldl_nil, act, pc, advance, true_and]
  by_cases member : i % N ∈ buckets
  · exact ⟨fun _ => Or.inl member, fun _ => flushed member⟩
  · have kept : readTag s'.memory.crash i j = readTag m.crash i j := by
      rw [missed member (.idle result), readTag, Memory.crash,
        plain _ (Nat.mod_lt i (NeZero.pos N)), if_neg member]
      rfl
    rw [kept]
    simp [member]

/-- Every return of the run finds the bucket stored to last equal in both images. -/
def ReturnsFlushed (N : Nat) (acts : List Action) : Prop :=
  ∀ earlier, earlier ++ [.next] <+: acts → ∀ key i j,
    let s := run (booted N) earlier
    s.pc = .inserted key i j ∨ s.pc = .deleted key i j →
      bucket s.memory.persistent (i % N) = bucket s.memory.volatile (i % N)

/-- An acknowledged update is durable exactly when its bucket was written back before
the return, or the persistent image agreed beforehand; in a run that always writes it
back every acknowledged update is durable. -/
theorem durable_on_return (produced : Produced N) :
    (∀ acts key curr j, (run (booted N) acts).pc = .moving key curr j →
      wrapSub 64 curr (initBuckIdx N key) < maxProb → ∀ buckets : List Nat,
      let s := run (booted N) acts
      let s' := run s (.next :: (buckets.map .writeBack ++ [.next]))
      s'.pc = .idle (some true) ∧ (lookup s'.memory.crash key = true ↔
        curr % N ∈ buckets ∨ lookup (run s (buckets.map .writeBack)).memory.crash key = true)) ∧
    (∀ acts result, (run (booted N) acts).pc = .idle result → ∀ key i j,
      findTag (run (booted N) acts).memory key = some (i, j) → ∀ buckets : List Nat,
      let s := run (booted N) acts
      let s' := run s (.call (.delete key) :: (buckets.map .writeBack ++ [.next]))
      s'.pc = .idle (some true) ∧ (readTag s'.memory.crash i j = 0 ↔
        i % N ∈ buckets ∨ readTag s.memory.crash i j = 0)) ∧
    ∀ acts, ReturnsFlushed N acts → ∀ earlier, earlier ++ [.next] <+: acts → ∀ key i j,
      let s := run (booted N) earlier
      let s' := run (booted N) (earlier ++ [.next])
      (s.pc = .inserted key i j → lookup s'.memory.crash key = true) ∧
      (s.pc = .deleted key i j → readTag s'.memory.crash i j = 0) := by
  have small := produced.small
  have stored : ∀ acts, Stored (run (booted N) acts) := run_stored small trivial
  refine ⟨fun acts key curr j hole near buckets => insert_durable_iff small (stored acts) hole near buckets,
    fun acts result idle key i j found buckets => delete_durable_iff small idle found buckets,
    fun acts flushed earlier within key i j => ?_⟩
  have agree := flushed earlier within key i j
  have last := stored earlier
  simp only [run_append]
  generalize run (booted N) earlier = s at agree last ⊢
  obtain ⟨m, pc⟩ := s
  refine ⟨fun inserted => ?_, fun deleted => ?_⟩
  · obtain rfl : pc = .inserted key i j := inserted
    obtain ⟨d, near, rfl, inside, value⟩ := last
    rw [lookup_iff small, mem_alpha_iff small]
    refine ⟨d, near, j, inside, ?_⟩
    rw [← value, readTag, readTag, ← agree (Or.inl rfl)]
    rfl
  · obtain rfl : pc = .deleted key i j := deleted
    rw [← show readTag m i j = 0 from last, readTag, readTag, ← agree (Or.inr rfl)]
    rfl

/-- Key 5 is inserted into an empty filter, its bucket is written back and the
insertion returns. -/
theorem durable_on_return_five :
    let s' := run (booted 2) [.call (.insert 5#64), .next, .writeBack 1, .next]
    s'.pc = .idle (some true) ∧ lookup s'.memory.crash 5#64 = true := by
  have exact_ := (durable_on_return produced_two).1 [.call (.insert 5#64)] 5#64 1 0 (by decide) (by decide) [1]
  exact ⟨exact_.1, exact_.2.mpr (Or.inl (by decide))⟩

/-- Without a write-back an acknowledged insertion is lost, and an acknowledged deletion
undone, by a crash right after the return. -/
theorem acknowledged_update_lost :
    (¬ ∀ (N : Nat) [NeZero N], Produced N → ∀ acts key i j,
      (run (booted N) acts).pc = .inserted key i j →
        lookup (run (booted N) (acts ++ [.next])).memory.crash key = true) ∧
    ¬ ∀ (N : Nat) [NeZero N], Produced N → ∀ acts key i j,
      (run (booted N) acts).pc = .deleted key i j →
        readTag (run (booted N) (acts ++ [.next])).memory.crash i j = 0 := by
  refine ⟨fun claimed => ?_, fun claimed => ?_⟩
  · exact absurd (claimed 2 produced_two [.call (.insert 5#64), .next] 5#64 1 0 (by decide)) (by decide)
  · exact absurd (claimed 2 produced_two
      [.call (.insert 5#64), .next, .writeBack 1, .next, .call (.delete 5#64)] 5#64 1 0 (by decide))
      (by decide)

end WormholeFilters.Pm
