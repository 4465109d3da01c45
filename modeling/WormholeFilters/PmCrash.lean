import WormholeFilters.DurableImages
import WormholeFilters.PmRefinement

/-! Calls taken apart into their stores and persists, so that write-backs and
crashes can come between any two of them. Insertion alone never takes a pair out
of the persistent image. -/
namespace WormholeFilters.Pm

open RingTable DurableImages

/-- Where the current call stands. While idle, the value is what the last call
returned; it is lost in a crash. -/
inductive Pc where
  | idle (result : Option Bool)
  | moving (key : Word) (currBuckIdx currTagIdx : Nat)
  | persisting (key : Word) (i currBuckIdx currTagIdx : Nat)
  | inserted (key : Word) (i j : Nat)
  | deleted (key : Word) (i j : Nat)
  deriving DecidableEq, Repr

structure Machine (N : Nat) where
  memory : Memory N
  pc : Pc
  deriving DecidableEq, Repr

inductive Action where
  | call (c : Call)
  | next
  | writeBack (i : Nat)
  | crash
  deriving DecidableEq, Repr

variable {N : Nat}

def Memory.crash (m : Memory N) : Memory N := ⟨m.persistent, m.persistent⟩

/-- A call up to its first persist or its return: the scan of an insertion, the whole
of a lookup, a deletion with its store. -/
def enter (m : Memory N) : Call → Machine N
  | .insert key =>
    match scan (readTag m) (initBuckIdx N key + N) N (initBuckIdx N key) with
    | none => ⟨m, .idle (some false)⟩
    | some (currBuckIdx, currTagIdx) => ⟨m, .moving key currBuckIdx currTagIdx⟩
  | .lookup key => ⟨m, .idle (some (lookup m key))⟩
  | .delete key =>
    match findTag m key with
    | none => ⟨m, .idle (some false)⟩
    | some (i, j) => ⟨writeTag m i j 0, .deleted key i j⟩

/-- One pass through the test of the `while` loop up to the next store, the persist
that follows the store of a moved tag, or the return. -/
def advance (m : Memory N) : Pc → Machine N
  | .idle result => ⟨m, .idle result⟩
  | .moving key currBuckIdx currTagIdx =>
    if maxProb ≤ wrapSub 64 currBuckIdx (initBuckIdx N key) then
      match findCadi (readTag m) currBuckIdx with
      | none => ⟨m, .idle (some false)⟩
      | some (prob, cadiTagIdx, cadiTag) =>
        ⟨writeTag m currBuckIdx currTagIdx ((cadiTag &&& fptMask) ||| ((cadiTag &&& disMask) + prob)),
          .persisting key currBuckIdx (wrapSub 32 currBuckIdx prob) cadiTagIdx⟩
    else
      ⟨writeTag m currBuckIdx currTagIdx (tagOf key ||| wrapSub 64 currBuckIdx (initBuckIdx N key)),
        .inserted key currBuckIdx currTagIdx⟩
  | .persisting key i currBuckIdx currTagIdx => ⟨persist m (i % N), .moving key currBuckIdx currTagIdx⟩
  | .inserted _ _ _ => ⟨m, .idle (some true)⟩
  | .deleted _ _ _ => ⟨m, .idle (some true)⟩

/-- Calls do not overlap; a crash ends the current one. -/
def act (s : Machine N) : Action → Machine N
  | .call c =>
    match s.pc with
    | .idle _ => enter s.memory c
    | _ => s
  | .next => advance s.memory s.pc
  | .writeBack i => { s with memory := persist s.memory i }
  | .crash => ⟨s.memory.crash, .idle none⟩

def run (s : Machine N) (acts : List Action) : Machine N := acts.foldl act s

theorem run_cons (s : Machine N) (a : Action) (acts : List Action) :
    run s (a :: acts) = run (act s a) acts := rfl

theorem run_append (s : Machine N) (earlier later : List Action) :
    run s (earlier ++ later) = run (run s earlier) later := List.foldl_append

/-- The distance from home decides what the loop does next. -/
theorem advance_moving (m : Memory N) (key : Word) (t j : Nat) :
    advance m (.moving key (initBuckIdx N key + t) j) =
      if maxProb ≤ t then
        match findCadi (readTag m) (initBuckIdx N key + t) with
        | none => ⟨m, .idle (some false)⟩
        | some (prob, cadiTagIdx, cadiTag) =>
          ⟨writeTag m (initBuckIdx N key + t) j ((cadiTag &&& fptMask) ||| ((cadiTag &&& disMask) + prob)),
            .persisting key (initBuckIdx N key + t) (wrapSub 32 (initBuckIdx N key + t) prob) cadiTagIdx⟩
      else
        ⟨writeTag m (initBuckIdx N key + t) j (tagOf key ||| t), .inserted key (initBuckIdx N key + t) j⟩ := by
  simp only [advance, wrapSub_add_left]

/-- The loop of the machine is the loop of the function. -/
theorem run_displace (key : Word) (fuel : Nat) (m : Memory N) (curr j : Nat) :
    ∃ k, run ⟨m, .moving key curr j⟩ (List.replicate k .next) =
      match displace (access N) (initBuckIdx N key) fuel m curr j with
      | (m', none) => ⟨m', .idle (some false)⟩
      | (m', some (i, j')) => ⟨m', .moving key i j'⟩ := by
  induction fuel generalizing m curr j with
  | zero => exact ⟨0, rfl⟩
  | succ fuel ih =>
    by_cases far : maxProb ≤ wrapSub 64 curr (initBuckIdx N key)
    · cases found : findCadi (readTag m) curr with
      | none =>
        refine ⟨1, ?_⟩
        simp only [displace, if_pos far, access, found]
        simp only [run, List.replicate_one, List.foldl_cons, List.foldl_nil, act, advance, if_pos far,
          found]
      | some c =>
        obtain ⟨prob, k, v⟩ := c
        obtain ⟨n, later⟩ := ih (pmWriteTag m curr j ((v &&& fptMask) ||| ((v &&& disMask) + prob)))
          (wrapSub 32 curr prob) k
        refine ⟨n + 2, ?_⟩
        simp only [displace, if_pos far, access, found] at later ⊢
        rw [← later, List.replicate_succ, List.replicate_succ, run_cons, run_cons]
        simp only [act, advance, if_pos far, found, pmWriteTag]
    · refine ⟨0, ?_⟩
      simp only [displace, if_neg far]
      rfl

variable [NeZero N]

/-- An uninterrupted call does what the function does. -/
theorem run_call (small : 2 * N < 2 ^ 32) (m : Memory N) (result : Option Bool) (c : Call) :
    ∃ k, run ⟨m, .idle result⟩ (.call c :: List.replicate k .next) =
      ⟨(step m c).2, .idle (some (step m c).1)⟩ := by
  cases c with
  | lookup key => exact ⟨0, rfl⟩
  | delete key =>
    refine ⟨1, ?_⟩
    rw [run_cons]
    cases found : findTag m key with
    | none => simp [act, enter, found, run, advance, step, delete]
    | some c => simp [act, enter, found, run, advance, step, delete]
  | insert key =>
    have home := initBuckIdx_lt (N := N) key
    cases found : scan (readTag m) (initBuckIdx N key + N) N (initBuckIdx N key) with
    | none =>
      refine ⟨0, ?_⟩
      simp only [step, insert, insert_of_none _ (A := access N) found]
      simp [run, act, enter, found]
    | some c =>
      obtain ⟨curr, j⟩ := c
      obtain ⟨t, k, rfl, rfl, within, first⟩ :=
        scan_firstFree (A := access N) (lawful small) (by omega) found
      obtain ⟨t', j', _, chain, outcome⟩ := displace_spec (lawful small) trivial
        (j := k) first.inRing (show initBuckIdx N key + t < 2 ^ 32 by omega)
        (Nat.le_add_left t (initBuckIdx N key)) first.before
      obtain ⟨n, loop⟩ := run_displace key (initBuckIdx N key + t) m (initBuckIdx N key + t) k
      have body := insert_of_some (tagOf key) (A := access N) found
      have entered : act ⟨m, .idle result⟩ (.call (.insert key)) =
          ⟨m, .moving key (initBuckIdx N key + t) k⟩ := by simp only [act, enter, found]
      simp only [step, insert]
      rw [body]
      generalize displace (access N) (initBuckIdx N key) (initBuckIdx N key + t) m
        (initBuckIdx N key + t) k = out at outcome loop ⊢
      obtain ⟨m', r⟩ := out
      rcases outcome with ⟨rfl, _⟩ | ⟨rfl, near⟩
      · exact ⟨n, by rw [run_cons, entered, loop]⟩
      · refine ⟨n + 2, ?_⟩
        have close : ¬ maxProb ≤ t' := by simp only [maxProb]; omega
        rw [run_cons, entered, List.replicate_add, run_append, loop]
        simp only [run, List.replicate, List.foldl_cons, List.foldl_nil, act, if_neg close,
          advance, access, wrapSub_add_left]

def Visited (N : Nat) (key : Word) (i : Nat) : Prop :=
  initBuckIdx N key ≤ i ∧ i < initBuckIdx N key + N

/-- An insertion has failed after its scan, or it goes on at an empty slot. -/
theorem enter_insert (small : 2 * N < 2 ^ 32) (m : Memory N) (key : Word) :
    enter m (.insert key) = ⟨m, .idle (some false)⟩ ∨
    ∃ curr j, Visited N key curr ∧ j < 4 ∧ readTag m curr j = 0 ∧
      enter m (.insert key) = ⟨m, .moving key curr j⟩ := by
  have home := initBuckIdx_lt (N := N) key
  cases found : scan (readTag m) (initBuckIdx N key + N) N (initBuckIdx N key) with
  | none => exact Or.inl (by simp only [enter, found])
  | some c =>
    obtain ⟨above, below, inside, free, _⟩ := scan_some (by omega) rfl found
    exact Or.inr ⟨c.1, c.2, ⟨above, below⟩, inside, free, by simp only [enter, found]⟩

/-- What the loop does at the slot `j` of a bucket: it gives up, it copies a tag from
`prob` buckets back and goes on there, or it stores the key's own tag. -/
inductive LoopStep (m : Memory N) (key : Word) (j : Nat) : Nat → Machine N → Prop where
  | stuck {curr : Nat} : LoopStep m key j curr ⟨m, .idle (some false)⟩
  | copied {b prob k : Nat} (pos : 0 < prob) (inside : k < 4)
      (close : readTag m (initBuckIdx N key + b) k % 16 + prob < 16) :
      LoopStep m key j (initBuckIdx N key + (b + prob))
        ⟨writeTag m (initBuckIdx N key + (b + prob)) j (readTag m (initBuckIdx N key + b) k + prob),
          .persisting key (initBuckIdx N key + (b + prob)) (initBuckIdx N key + b) k⟩
  | placed {t : Nat} (near : t < 16) :
      LoopStep m key j (initBuckIdx N key + t)
        ⟨writeTag m (initBuckIdx N key + t) j (tagOf key + t), .inserted key (initBuckIdx N key + t) j⟩

omit [NeZero N] in
theorem advance_loopStep (m : Memory N) {key : Word} {curr : Nat} (visited : Visited N key curr) (j : Nat) :
    LoopStep m key j curr (advance m (.moving key curr j)) := by
  obtain ⟨t, rfl⟩ := Nat.exists_eq_add_of_le visited.1
  rw [advance_moving]
  by_cases far : maxProb ≤ t
  · rw [if_pos far]
    cases found : findCadi (readTag m) (initBuckIdx N key + t) with
    | none => exact .stuck
    | some c =>
      obtain ⟨prob, k, v⟩ := c
      obtain ⟨pos, near, inside, value, close⟩ := findCadi_some found
      have deep : 16 ≤ t := far
      obtain ⟨b, rfl⟩ := Nat.exists_eq_add_of_le' (show prob ≤ t by omega)
      have back : wrapSub 32 (initBuckIdx N key + (b + prob)) prob = initBuckIdx N key + b := by
        rw [← Nat.add_assoc, wrapSub_add_right]
      rw [back] at value
      subst value
      have bound : readTag m (initBuckIdx N key + b) k < 2 ^ 16 := slot_lt _ _
      simp only [moved_tag bound close, back]
      exact .copied pos inside close
  · have near : t < 16 := Nat.lt_of_not_le far
    rw [if_neg far, or_tagOf key near]
    exact .placed near

/-- Contents `c` of the slot `q` stand for the pair `p`. -/
def has (q : Slot N 4) (c : Option (Nat × Nat)) (p : ZMod N × Nat) : Prop := p ∈ entry q c

theorem mem_alpha_crash {m : Memory N} {p : ZMod N × Nat} :
    p ∈ alpha m.crash ↔ ∃ q, has q (ringTable m.crash q) p := by
  rw [alpha_eq_entries, entries, Multiset.mem_sum]
  simp [has]

theorem ringTable_persist (m : Memory N) {i : Nat} (inside : i < N) : ringTable (persist m i).crash =
    flushUnit Prod.fst (i : ZMod N) (ringTable m) (ringTable m.crash) := by
  funext q
  have index : q.1.val = i ↔ q.1 = (i : ZMod N) := by
    rw [← (ZMod.val_injective N).eq_iff, ZMod.val_natCast, Nat.mod_eq_of_lt inside]
  simp only [flushUnit, ringTable, table, access, readTag, Memory.crash, persist]
  rw [bucket_setIfInBounds _ inside, Nat.mod_eq_of_lt (ZMod.val_lt q.1)]
  by_cases same : q.1 = (i : ZMod N)
  · rw [if_pos same, if_pos (index.mpr same), index.mpr same]
  · rw [if_neg same, if_neg (mt index.mp same)]

omit [NeZero N] in
theorem persist_outside (m : Memory N) {i : Nat} (outside : ¬ i < N) : persist m i = m := by
  rw [persist, Vector.setIfInBounds_eq_of_size_le (Nat.not_lt.mp outside)]

theorem ringTable_writeTag (small : 2 * N < 2 ^ 32) (m : Memory N) {i t : Nat} (index : i < 2 ^ 32)
    (j : Fin 4) (bound : t < 2 ^ 16) : ringTable (writeTag m i j t) =
      Function.update (ringTable m) ((i : ZMod N), j) (decode t) :=
  table_writeTag (A := access N) (lawful small) trivial index j bound

/-- The pairs of the persistent image are kept, and during an insertion the slot the
next store overwrites is no pair's only copy. -/
def Safe (s : Machine N) : Prop :=
  let V := ringTable s.memory
  let P := ringTable s.memory.crash
  match s.pc with
  | .moving key i j => Visited N key i ∧ ∃ k : Fin 4, j = k ∧
      Durable has V P {((i : ZMod N), k)} ∧ Covered has V P {((i : ZMod N), k)}
  | .persisting key i curr j => Visited N key i ∧ Visited N key curr ∧
      Durable has V P ∅ ∧ ∃ h k : Fin 4, j = k ∧ ((i : ZMod N), h) ≠ ((curr : ZMod N), k) ∧
      ∀ p, has ((curr : ZMod N), k) (V ((curr : ZMod N), k)) p → has ((i : ZMod N), h) (V ((i : ZMod N), h)) p
  | _ => Durable has V P ∅

omit [NeZero N] in
theorem Safe.durable {s : Machine N} (safe : Safe s) :
    ∃ holes, Durable has (ringTable s.memory) (ringTable s.memory.crash) holes := by
  obtain ⟨m, pc⟩ := s
  cases pc with
  | moving key i j =>
    obtain ⟨_, k, _, durable, _⟩ := safe
    exact ⟨_, durable⟩
  | persisting key i curr j => exact ⟨_, safe.2.2.1⟩
  | idle result => exact ⟨_, safe⟩
  | inserted key i j => exact ⟨_, safe⟩
  | deleted key i j => exact ⟨_, safe⟩

/-- A write-back takes no pair out of the persistent image. -/
theorem persist_kept {m : Memory N} {holes : Set (Slot N 4)}
    (durable : Durable has (ringTable m) (ringTable m.crash) holes) (i : Nat) {p : ZMod N × Nat}
    (stored : p ∈ alpha m.crash) : p ∈ alpha (persist m i).crash := by
  by_cases inside : i < N
  · obtain ⟨q, held⟩ := mem_alpha_crash.mp stored
    rw [mem_alpha_crash, ringTable_persist m inside]
    exact durable.kept _ held
  · rwa [persist_outside m inside]

theorem Safe.writeBack {s : Machine N} (safe : Safe s) (i : Nat) : Safe (act s (.writeBack i)) := by
  by_cases inside : i < N
  · obtain ⟨m, pc⟩ := s
    have volatile : ringTable (persist m i) = ringTable m := rfl
    cases pc with
    | moving key b j =>
      obtain ⟨visited, k, position, durable, covered⟩ := safe
      refine ⟨visited, k, position, ?_⟩
      simp only [act, volatile, ringTable_persist m inside]
      exact ⟨durable.writeBack covered _, covered.writeBack _⟩
    | persisting key b curr j =>
      obtain ⟨visited, next, durable, rest⟩ := safe
      refine ⟨visited, next, ?_, rest⟩
      simp only [act, volatile, ringTable_persist m inside]
      exact durable.writeBack covered_empty _
    | idle | inserted | deleted =>
      simp only [Safe, act, volatile, ringTable_persist m inside]
      exact Durable.writeBack safe covered_empty _
  · rwa [act, persist_outside s.memory inside]

omit [NeZero N] in
theorem Safe.crash (s : Machine N) : Safe (act s .crash) := durable_refl _

theorem Safe.insert (small : 2 * N < 2 ^ 32) {m : Memory N}
    (durable : Durable has (ringTable m) (ringTable m.crash) ∅) (key : Word) :
    Safe (enter m (.insert key)) := by
  have home := initBuckIdx_lt (N := N) key
  obtain failed | ⟨curr, j, visited, inside, empty, entered⟩ := enter_insert small m key
  · rw [failed]
    exact durable
  · rw [entered]
    refine ⟨visited, ⟨j, inside⟩, rfl, durable.open_hole fun p held => ?_⟩
    have below := visited.2
    rw [ringTable_index small m (by omega), decode_eq_none.mpr empty] at held
    exact absurd held (Multiset.notMem_zero p)

omit [NeZero N] in
/-- The slot a tag is moved from and the slot it is moved to stand for the same pair. -/
theorem has_moved {c : ZMod N} {j k : Fin 4} {v prob : Nat} (close : v % 16 + prob < 16) {p : ZMod N × Nat}
    (held : has (c, k) (decode v) p) : has (c + (prob : ZMod N), j) (decode (v + prob)) p := by
  by_cases zero : v = 0
  · rw [decode_eq_none.mpr zero] at held
    exact absurd held (Multiset.notMem_zero p)
  · have moved : decode (v + prob) = some (v / 16, v % 16 + prob) := by
      rw [← decode_tag close (by omega)]; congr 1; omega
    rw [decode, if_neg zero] at held
    rw [moved]
    simp only [has, entry_some, Multiset.mem_singleton] at held ⊢
    rw [held]
    push_cast
    congr 1
    abel

theorem Safe.advance (small : 2 * N < 2 ^ 32) {s : Machine N} (safe : Safe s) : Safe (act s .next) := by
  obtain ⟨m, pc⟩ := s
  cases pc with
  | idle | inserted | deleted => exact safe
  | persisting key i curr j =>
    obtain ⟨visited, next, durable, h, k, position, apart, copied⟩ := safe
    have volatile : ringTable (persist m (i % N)) = ringTable m := rfl
    have bucket : ((i % N : Nat) : ZMod N) = i := ZMod.natCast_mod i N
    refine ⟨next, k, position, ?_⟩
    simp only [act, Pm.advance, volatile, ringTable_persist m (Nat.mod_lt i (NeZero.pos N)), bucket]
    exact durable.shift apart copied
  | moving key curr j =>
    have home := initBuckIdx_lt (N := N) key
    obtain ⟨visited, h, rfl, durable, covered⟩ := safe
    have next := advance_loopStep m visited h
    have below := visited.2
    simp only [act]
    generalize Pm.advance m (.moving key curr h) = s' at next ⊢
    cases next with
    | stuck => exact durable.weaken
    | @copied b prob k pos inside close =>
      have bound : readTag m (initBuckIdx N key + b) k < 2 ^ 16 := slot_lt _ _
      have stored := ringTable_writeTag small m (show initBuckIdx N key + (b + prob) < 2 ^ 32 by omega)
        h (show readTag m (initBuckIdx N key + b) k + prob < 2 ^ 16 by omega)
      have target : ((initBuckIdx N key + (b + prob) : Nat) : ZMod N) =
          ((initBuckIdx N key + b : Nat) : ZMod N) + prob := by push_cast; abel
      have apart : (((initBuckIdx N key + (b + prob) : Nat) : ZMod N), h) ≠
          (((initBuckIdx N key + b : Nat) : ZMod N), (⟨k, inside⟩ : Fin 4)) := by
        intro same
        have step := congrArg Prod.fst same
        simp only [target, add_eq_left] at step
        have := Nat.le_of_dvd pos ((ZMod.natCast_eq_zero_iff prob N).mp step)
        omega
      refine ⟨visited, ⟨by omega, by omega⟩, ?_, h, ⟨k, inside⟩, rfl, apart, fun p held => ?_⟩
      · simp only [stored]
        exact durable.store _
      · simp only [stored] at held ⊢
        rw [Function.update_self]
        rw [Function.update_of_ne apart.symm, ringTable_index small m (by omega)] at held
        rw [target]
        exact has_moved close held
    | @placed t near =>
      obtain ⟨tag, _, bound⟩ := tagOf_spec key
      simp only [Safe]
      rw [ringTable_writeTag small m (by omega) h (show tagOf key + t < 2 ^ 16 by omega)]
      exact durable.store _

omit [NeZero N] in
/-- Only a persist changes the persistent image. -/
theorem crash_enter (m : Memory N) (c : Call) : (enter m c).memory.crash = m.crash := by
  cases c with
  | insert key => simp only [enter]; split <;> rfl
  | lookup key => rfl
  | delete key => simp only [enter]; split <;> rfl

omit [NeZero N] in
theorem crash_advance_moving (m : Memory N) (key : Word) (i j : Nat) :
    (advance m (.moving key i j)).memory.crash = m.crash := by
  simp only [advance]
  split
  · split <;> rfl
  · rfl

theorem act_safe (small : 2 * N < 2 ^ 32) {s : Machine N} (safe : Safe s) {a : Action}
    (undeleted : ∀ key, a ≠ .call (.delete key)) :
    Safe (act s a) ∧ ∀ p ∈ alpha s.memory.crash, p ∈ alpha (act s a).memory.crash := by
  obtain ⟨holes, durable⟩ := safe.durable
  cases a with
  | writeBack i => exact ⟨safe.writeBack i, fun p stored => persist_kept durable i stored⟩
  | crash => exact ⟨Safe.crash s, fun p stored => stored⟩
  | next =>
    refine ⟨safe.advance small, fun p stored => ?_⟩
    obtain ⟨m, pc⟩ := s
    cases pc with
    | idle | inserted | deleted => exact stored
    | moving key i j => rwa [act, crash_advance_moving]
    | persisting key i curr j => exact persist_kept durable _ stored
  | call c =>
    obtain ⟨m, pc⟩ := s
    cases pc with
    | moving | persisting | inserted | deleted => exact ⟨safe, fun p stored => stored⟩
    | idle result =>
      refine ⟨?_, fun p stored => by rwa [act, crash_enter]⟩
      cases c with
      | insert key => exact Safe.insert small safe key
      | lookup key => exact safe
      | delete key => exact absurd rfl (undeleted key)

theorem run_safe (small : 2 * N < 2 ^ 32) {s : Machine N} (safe : Safe s) {acts : List Action}
    (undeleted : ∀ key, .call (.delete key) ∉ acts) :
    Safe (run s acts) ∧ ∀ p ∈ alpha s.memory.crash, p ∈ alpha (run s acts).memory.crash := by
  induction acts generalizing s with
  | nil => exact ⟨safe, fun p stored => stored⟩
  | cons a acts ih =>
    obtain ⟨first, kept⟩ := act_safe (a := a) small safe fun key same =>
      undeleted key (same ▸ List.mem_cons_self)
    obtain ⟨later, kept'⟩ := ih first fun key member => undeleted key (List.mem_cons_of_mem a member)
    exact ⟨later, fun p stored => kept' p (kept p stored)⟩

/-- However insertions, write-backs and crashes follow each other, the persistent
image keeps its pairs, and a key found after one crash is found after every later one. -/
theorem persistent_pairs_kept (produced : Produced N) (image : Vector Word N)
    (earlier later : List Action) (undeleted : ∀ key, .call (.delete key) ∉ earlier ++ later) :
    let s := run ⟨⟨image, image⟩, .idle none⟩ earlier
    let s' := run s later
    (∀ p ∈ alpha s.memory.crash, p ∈ alpha s'.memory.crash) ∧
      ∀ key, lookup s.memory.crash key = true → lookup s'.memory.crash key = true := by
  have small := produced.small
  have start : Safe (⟨⟨image, image⟩, .idle none⟩ : Machine N) := durable_refl _
  have before := run_safe small start fun key (member : _ ∈ earlier) =>
    undeleted key (List.mem_append_left later member)
  have after := run_safe small before.1 fun key (member : _ ∈ later) =>
    undeleted key (List.mem_append_right earlier member)
  refine ⟨after.2, fun key found => ?_⟩
  rw [lookup_iff small] at found ⊢
  exact after.2 _ found

/-- While key 0 is inserted, the only tag of key 2 moves from bucket 15 to bucket 16, and its old slot is
overwritten and written back before the crash. -/
theorem persistent_pairs_kept_displaced :
    let image := (after fullCalls (init 18)).volatile
    let s : Machine 18 := run ⟨⟨image, image⟩, .idle none⟩ [.call (.insert 0#64), .next]
    let s' := run s [.next, .next, .writeBack 15, .crash]
    readTag s'.memory.crash 15 0 ≠ readTag s.memory.crash 15 0 ∧ readTag s.memory.crash 16 0 = 0 ∧
      lookup s'.memory.crash 2#64 = true := by
  intro image s s'
  have slots : readTag s'.memory.crash 15 0 ≠ readTag s.memory.crash 15 0 ∧ readTag s.memory.crash 16 0 = 0 := by
    decide +kernel
  exact ⟨slots.1, slots.2, (persistent_pairs_kept produced_eighteen image [.call (.insert 0#64), .next]
    [.next, .next, .writeBack 15, .crash] (by simp)).2 2#64 (by decide +kernel)⟩

end WormholeFilters.Pm
