import WormholeFilters.PmFilter

/-! The persistent-memory filter refines a multiset of (home bucket, fingerprint)
pairs. Insertion adds one pair, deletion removes one, lookup tests membership; a
run of calls keeps every pair that was inserted more often than deleted. -/
namespace WormholeFilters.Pm

open RingTable

variable {N : Nat}

/-- The pair a key stands for: its home bucket and the tag without its distance bits. -/
def e (N : Nat) (key : Word) : ZMod N × Nat := ((initBuckIdx N key : ZMod N), tagOf key >>> 4)

/-- The pairs ((bucket - distance) mod N, fingerprint) over all non-zero slots. -/
def alpha [NeZero N] (m : Memory N) : Multiset (ZMod N × Nat) :=
  ∑ q : ZMod N × Fin 4, if readTag m q.1.val q.2 = 0 then 0
    else {(q.1 - (readTag m q.1.val q.2 &&& disMask : Nat), readTag m q.1.val q.2 >>> 4)}

theorem tagOf_eq (key : Word) : ∃ x, 0 < x ∧ x < 2 ^ 12 ∧ tagOf key = 16 * x := by
  have low := Nat.and_two_pow_sub_one_eq_mod ((hasher key >>> 32).toNat % 2 ^ 32) 12
  have bound := Nat.mod_lt ((hasher key >>> 32).toNat % 2 ^ 32) (show 0 < 2 ^ 12 by decide)
  generalize (hasher key >>> 32).toNat % 2 ^ 32 % 2 ^ 12 = r at low bound
  refine ⟨r + if r = 0 then 1 else 0, ?_, ?_, ?_⟩
  · split <;> omega
  · split <;> omega
  · rw [tagOf, tagHash, low, Nat.shiftLeft_eq]
    omega

theorem tagOf_spec (key : Word) :
    tagOf key = 16 * (tagOf key >>> 4) ∧ 0 < tagOf key >>> 4 ∧ tagOf key >>> 4 < 2 ^ 12 := by
  obtain ⟨x, pos, bound, same⟩ := tagOf_eq key
  have shift : tagOf key >>> 4 = x := by rw [same, Nat.shiftRight_eq_div_pow]; omega
  rw [shift]
  exact ⟨same, pos, bound⟩

/-- The ring table the volatile image represents. -/
def ringTable (m : Memory N) : Table N 4 Nat := table (access N) N m

theorem ringTable_init : ringTable (init N) = fun _ => none := by
  funext q
  have zero : slot 0#64 q.2 = 0 := by simp [slot, Lanes.lane]
  simp [ringTable, table, access, readTag, decode, zero]

variable [NeZero N]

theorem initBuckIdx_lt (key : Word) : initBuckIdx N key < N := Nat.mod_lt _ (NeZero.pos N)

theorem alpha_eq_entries (m : Memory N) : alpha m = entries (ringTable m) := by
  apply Finset.sum_congr rfl
  intro q _
  rw [ringTable, table, access, decode]
  split
  · rfl
  · rw [entry_some, and_disMask, Nat.shiftRight_eq_div_pow]

/-- A call of `insert` carries out an insertion of the key's pair. -/
theorem insert_insertion (small : 2 * N < 2 ^ 32) (m : Memory N) (key : Word) :
    Insertion 16 (ringTable m) (e N key).1 (e N key).2 (insert m key).1 (ringTable (insert m key).2) := by
  obtain ⟨tag, pos, bound⟩ := tagOf_spec key
  have home := initBuckIdx_lt (N := N) key
  have spec := insert_spec (lawful small) (s := m) trivial (Nat.le_refl N)
    (show initBuckIdx N key + N < 2 ^ 32 by omega) pos bound
  rw [← tag] at spec
  exact spec.2

theorem ringTable_index (small : 2 * N < 2 ^ 32) (m : Memory N) {i : Nat} (index : i < 2 ^ 32)
    (j : Fin 4) : ringTable m ((i : ZMod N), j) = decode (readTag m i j) :=
  table_index (lawful small) index j

theorem ringTable_offset (small : 2 * N < 2 ^ 32) (m : Memory N) (key : Word) {d : Nat}
    (near : d < N ∨ d < 16) (j : Fin 4) :
    ringTable m ((e N key).1 + d, j) = decode (readTag m (initBuckIdx N key + d) j) := by
  have home := initBuckIdx_lt (N := N) key
  rw [e, ← Nat.cast_add, ringTable_index small m (by omega)]

theorem mem_alpha_iff (small : 2 * N < 2 ^ 32) (m : Memory N) (key : Word) :
    e N key ∈ alpha m ↔
      ∃ d < 16, ∃ j < 4, readTag m (initBuckIdx N key + d) j = tagOf key + d := by
  have home := initBuckIdx_lt (N := N) key
  obtain ⟨tag, pos, _⟩ := tagOf_spec key
  rw [alpha_eq_entries, tag]
  exact mem_entries_table (lawful small) (by omega) pos

theorem or_tagOf (key : Word) {d : Nat} (near : d < 16) : tagOf key ||| d = tagOf key + d := by
  rw [(tagOf_spec key).1, or_distance near]

theorem lookup_iff (small : 2 * N < 2 ^ 32) (m : Memory N) (key : Word) :
    lookup m key = true ↔ e N key ∈ alpha m := by
  obtain ⟨tag, pos, bound⟩ := tagOf_spec key
  rw [mem_alpha_iff small, lookup, List.any_eq_true]
  constructor
  · rintro ⟨d, member, hit⟩
    have near : d < 16 := List.mem_range.mp member
    rw [or_tagOf key near, bne_iff_ne, hasvalue16_ne_zero_iff (by omega)] at hit
    obtain ⟨j, inside, value⟩ := hit
    exact ⟨d, near, j, inside, value⟩
  · rintro ⟨d, near, j, inside, value⟩
    refine ⟨d, List.mem_range.mpr near, ?_⟩
    rw [or_tagOf key near, bne_iff_ne, hasvalue16_ne_zero_iff (by omega)]
    exact ⟨j, inside, value⟩

private theorem findSome?_range_least {f : Nat → Option β} {n : Nat} {b : β}
    (found : (List.range n).findSome? f = some b) : ∃ i < n, f i = some b ∧ ∀ k < i, f k = none := by
  induction n with
  | zero => simp at found
  | succ n ih =>
    rw [List.range_succ, List.findSome?_append] at found
    cases earlier : (List.range n).findSome? f with
    | some c =>
      rw [earlier, Option.some_or] at found
      obtain ⟨i, inside, value, least⟩ := ih (earlier.trans found)
      exact ⟨i, by omega, value, least⟩
    | none =>
      rw [earlier, Option.none_or] at found
      refine ⟨n, by omega, by simpa using found, fun k below => ?_⟩
      exact List.findSome?_eq_none_iff.mp earlier k (List.mem_range.mpr below)

/-- The loops of `delete` stop at the nearest bucket, and in it at the first slot. -/
theorem findTag_least (small : 2 * N < 2 ^ 32) {m : Memory N} {key : Word} {i j : Nat}
    (found : findTag m key = some (i, j)) :
    ∃ d < 16, i = initBuckIdx N key + d ∧ j < 4 ∧ readTag m i j = (tagOf key ||| d) ∧
      ∀ d' < 16, ∀ j' < 4, readTag m (initBuckIdx N key + d') j' = (tagOf key ||| d') →
        d < d' ∨ d = d' ∧ j ≤ j' := by
  have home := initBuckIdx_lt (N := N) key
  obtain ⟨d, near, inner, nearer⟩ := findSome?_range_least found
  obtain ⟨k, slot, here, lower⟩ := findSome?_range_least inner
  rw [maxProb] at near
  rw [Nat.mod_eq_of_lt (by omega)] at here
  split at here
  · rename_i value
    obtain ⟨rfl, rfl⟩ := Prod.mk.inj (Option.some.inj here)
    refine ⟨d, near, rfl, slot, value, fun d' near' j' slot' value' => ?_⟩
    by_contra earlier
    have missed : d' < d ∨ d' = d ∧ j' < k := by omega
    rcases missed with below | ⟨rfl, below⟩
    · have skipped := List.findSome?_eq_none_iff.mp (nearer d' below) j' (List.mem_range.mpr slot')
      rw [Nat.mod_eq_of_lt (by omega), if_pos value'] at skipped
      contradiction
    · have skipped := lower j' below
      rw [Nat.mod_eq_of_lt (by omega), if_pos value'] at skipped
      contradiction
  · contradiction

theorem findTag_some (small : 2 * N < 2 ^ 32) {m : Memory N} {key : Word} {i j : Nat}
    (found : findTag m key = some (i, j)) :
    ∃ d < 16, i = initBuckIdx N key + d ∧ j < 4 ∧ readTag m i j = tagOf key + d := by
  obtain ⟨d, near, home, slot, value, _⟩ := findTag_least small found
  exact ⟨d, near, home, slot, by rw [value, or_tagOf key near]⟩

theorem findTag_none (small : 2 * N < 2 ^ 32) {m : Memory N} {key : Word}
    (none : findTag m key = none) : e N key ∉ alpha m := by
  have home := initBuckIdx_lt (N := N) key
  rw [mem_alpha_iff small]
  rintro ⟨d, near, j, inside, value⟩
  have outer := List.findSome?_eq_none_iff.mp none d (List.mem_range.mpr near)
  have inner := List.findSome?_eq_none_iff.mp outer j (List.mem_range.mpr inside)
  rw [Nat.mod_eq_of_lt (by omega), or_tagOf key near, if_pos value] at inner
  contradiction

/-- Either the key's pair is absent and nothing changes, or one slot that holds it is cleared. -/
theorem delete_cases (small : 2 * N < 2 ^ 32) (m : Memory N) (key : Word) :
    (delete m key = (false, m) ∧ e N key ∉ alpha m) ∨
    ∃ (d : Nat) (j : Fin 4), (delete m key).1 = true ∧
      ringTable m ((e N key).1 + d, j) = some ((e N key).2, d) ∧
      ringTable (delete m key).2 = Function.update (ringTable m) ((e N key).1 + d, j) none := by
  cases found : findTag m key with
  | none => exact Or.inl ⟨by simp [delete, found], findTag_none small found⟩
  | some c =>
    have home := initBuckIdx_lt (N := N) key
    obtain ⟨tag, pos, bound⟩ := tagOf_spec key
    obtain ⟨i, j⟩ := c
    obtain ⟨d, near, rfl, inside, value⟩ := findTag_some small found
    refine Or.inr ⟨d, ⟨j, inside⟩, by simp [delete, found], ?_, ?_⟩
    · rw [ringTable_offset small m key (Or.inr near), value, tag]
      exact decode_tag near (by omega)
    · have cleared := table_writeTag (A := access N) (s := m) (i := initBuckIdx N key + d) (t := 0)
        (lawful small) trivial (by omega) ⟨j, inside⟩ (by decide)
      rw [Nat.cast_add] at cleared
      simp only [delete, found]
      exact cleared

/-- A successful deletion takes exactly one copy of the key's pair away. -/
theorem delete_true (small : 2 * N < 2 ^ 32) {m : Memory N} {key : Word}
    (deleted : (delete m key).1 = true) : alpha m = e N key ::ₘ alpha (delete m key).2 := by
  rcases delete_cases small m key with ⟨kept, _⟩ | ⟨d, j, _, cell, cleared⟩
  · rw [kept] at deleted; contradiction
  · rw [alpha_eq_entries, alpha_eq_entries, cleared, entries_update, entries_split (ringTable m) _, cell]
    simp

theorem delete_false (small : 2 * N < 2 ^ 32) {m : Memory N} {key : Word}
    (kept : (delete m key).1 = false) : (delete m key).2 = m ∧ e N key ∉ alpha m := by
  rcases delete_cases small m key with ⟨same, absent⟩ | ⟨d, j, deleted, _⟩
  · exact ⟨by rw [same], absent⟩
  · rw [deleted] at kept; contradiction

theorem delete_iff (small : 2 * N < 2 ^ 32) (m : Memory N) (key : Word) :
    (delete m key).1 = true ↔ e N key ∈ alpha m := by
  constructor
  · intro deleted
    rw [delete_true small deleted]
    exact Multiset.mem_cons_self _ _
  · intro stored
    by_contra kept
    exact (delete_false small (Bool.eq_false_iff.mpr kept)).2 stored

theorem produced_two : Produced 2 := ⟨8, by decide, by rw [numBuckets_eq]⟩

theorem produced_eighteen : Produced 18 := ⟨60, by decide, by rw [numBuckets_eq]⟩

/-- On every array, `lookup` answers what `delete` would return, and a deletion clears
the first slot, by distance and then by position, that holds the key's tag at its
distance. -/
theorem lookup_agrees_with_delete (produced : Produced N) (m : Memory N) (key : Word) :
    (lookup m key = true ↔ (delete m key).1 = true) ∧
    ((delete m key).1 = true → ∃ d < 16, ∃ j < 4,
      let b := (initBuckIdx N key + d) % N
      readTag m b j = (tagOf key ||| d) ∧
      (∀ d' < 16, ∀ j' < 4, readTag m ((initBuckIdx N key + d') % N) j' = (tagOf key ||| d') →
        d < d' ∨ d = d' ∧ j ≤ j') ∧
      readTag m b j ≠ 0 ∧ readTag (delete m key).2 b j = 0 ∧
      ∀ b' < N, ∀ j' < 4, ¬ (b' = b ∧ j' = j) → readTag (delete m key).2 b' j' = readTag m b' j') := by
  have small := produced.small
  have reduced : ∀ i j, readTag m (i % N) j = readTag m i j := fun i j => by rw [readTag, Nat.mod_mod, readTag]
  refine ⟨(lookup_iff small m key).trans (delete_iff small m key).symm, fun deleted => ?_⟩
  cases found : findTag m key with
  | none => simp [delete, found] at deleted
  | some c =>
    obtain ⟨i, j⟩ := c
    obtain ⟨d, near, rfl, slot, value, least⟩ := findTag_least small found
    obtain ⟨tag, pos, _⟩ := tagOf_spec key
    have cleared : (delete m key).2 = writeTag m (initBuckIdx N key + d) j 0 := by simp only [delete, found]
    have nonzero : readTag m (initBuckIdx N key + d) j ≠ 0 := by
      rw [value, or_tagOf key near]
      omega
    refine ⟨d, near, j, slot, ?_⟩
    simp only [reduced, cleared, readTag_writeTag m slot (show 0 < 2 ^ 16 by decide), Nat.mod_mod]
    refine ⟨value, least, nonzero, by simp, fun b' inside j' slot' other => if_neg ?_⟩
    rwa [Nat.mod_eq_of_lt inside]

theorem lookup_agrees_with_delete_two :
    let m : Memory 2 := ⟨#v[0x0011001300120011#64, 0x0010001100110000#64], #v[0#64, 0#64]⟩
    lookup m 1#64 = true ∧ (delete m 1#64).1 = true := by
  intro m
  have found : lookup m 1#64 = true := by decide +kernel
  exact ⟨found, (lookup_agrees_with_delete produced_two m 1#64).1.mp found⟩

inductive Call where
  | insert (key : Word)
  | lookup (key : Word)
  | delete (key : Word)
  deriving DecidableEq, Repr

def step (m : Memory N) : Call → Bool × Memory N
  | .insert key => insert m key
  | .lookup key => (lookup m key, m)
  | .delete key => delete m key

inductive Calls : Memory N → List (Call × Bool) → Prop
  | start : Calls (init N) []
  | call {m history} (earlier : Calls m history) (c : Call) :
      Calls (step m c).2 (history ++ [(c, (step m c).1)])

/-- Successful insertions minus successful deletions of a key. -/
def net (history : List (Call × Bool)) (key : Word) : Int :=
  history.count (.insert key, true) - history.count (.delete key, true)

/-- A key is only deleted while it was inserted more often than deleted. -/
def Disciplined (history : List (Call × Bool)) : Prop :=
  ∀ earlier key result later, history = earlier ++ (.delete key, result) :: later → 0 < net earlier key

theorem Disciplined.of_append {history later : List (Call × Bool)}
    (disciplined : Disciplined (history ++ later)) : Disciplined history := by
  rintro earlier key result rest rfl
  exact disciplined earlier key result (rest ++ later) (by simp)

theorem net_append (history : List (Call × Bool)) (c : Call) (result : Bool) (key : Word) :
    net (history ++ [(c, result)]) key = net history key +
      (if (c, result) = (.insert key, true) then 1 else 0) -
      (if (c, result) = (.delete key, true) then 1 else 0) := by
  simp only [net, List.count_append, List.count_singleton, beq_iff_eq]
  split <;> split <;> push_cast <;> omega

structure Valid (m : Memory N) : Prop where
  bounded : Bounded 16 (ringTable m)
  fingerprint : ∀ p ∈ alpha m, 0 < p.2

theorem alpha_init : alpha (init N) = 0 := by
  rw [alpha_eq_entries, ringTable_init, entries_eq_zero]
  intro q; rfl

theorem valid_init : Valid (init N) := by
  refine ⟨fun q x d cell => ?_, fun p stored => ?_⟩
  · rw [ringTable_init] at cell; contradiction
  · rw [alpha_init] at stored; simp at stored

theorem insert_true (small : 2 * N < 2 ^ 32) {m : Memory N} {key : Word}
    (inserted : (insert m key).1 = true) : alpha (insert m key).2 = e N key ::ₘ alpha m := by
  have insertion := insert_insertion small m key
  rw [inserted] at insertion
  rw [alpha_eq_entries, alpha_eq_entries]
  exact insertion.entries_true

/-- A failed insertion may store a pair twice, but changes no membership. -/
theorem mem_insert_false (small : 2 * N < 2 ^ 32) {m : Memory N} {key : Word}
    (rejected : (insert m key).1 = false) (p : ZMod N × Nat) :
    p ∈ alpha (insert m key).2 ↔ p ∈ alpha m := by
  have insertion := insert_insertion small m key
  rw [rejected] at insertion
  rw [alpha_eq_entries, alpha_eq_entries]
  exact insertion.mem_false p

theorem alpha_le_insert (small : 2 * N < 2 ^ 32) (m : Memory N) (key : Word) :
    alpha m ≤ alpha (insert m key).2 := by
  rw [alpha_eq_entries, alpha_eq_entries]
  exact (insert_insertion small m key).entries_mono

theorem insert_valid (small : 2 * N < 2 ^ 32) {m : Memory N} (valid : Valid m) (key : Word) :
    Valid (insert m key).2 := by
  refine ⟨(insert_insertion small m key).bounded valid.bounded, fun p stored => ?_⟩
  cases result : (insert m key).1 with
  | true =>
    rw [insert_true small result, Multiset.mem_cons] at stored
    rcases stored with rfl | stored
    · exact (tagOf_spec key).2.1
    · exact valid.fingerprint p stored
  | false => exact valid.fingerprint p ((mem_insert_false small result p).mp stored)

theorem delete_bounded (small : 2 * N < 2 ^ 32) {m : Memory N} (bounded : Bounded 16 (ringTable m))
    (key : Word) : Bounded 16 (ringTable (delete m key).2) := by
  rcases delete_cases small m key with ⟨same, _⟩ | ⟨d, j, _, _, cleared⟩
  · rw [same]; exact bounded
  · rw [cleared]
    intro q x d' cell
    by_cases same : q = ((e N key).1 + d, j)
    · rw [same, Function.update_self] at cell; contradiction
    · rw [Function.update_of_ne same] at cell
      exact bounded q x d' cell

theorem delete_valid (small : 2 * N < 2 ^ 32) {m : Memory N} (valid : Valid m) (key : Word) :
    Valid (delete m key).2 := by
  refine ⟨delete_bounded small valid.bounded key, fun p stored => ?_⟩
  cases result : (delete m key).1 with
  | true =>
    apply valid.fingerprint
    rw [delete_true small result]
    exact Multiset.mem_cons_of_mem stored
  | false =>
    rw [(delete_false small result).1] at stored
    exact valid.fingerprint p stored

theorem step_valid (small : 2 * N < 2 ^ 32) {m : Memory N} (valid : Valid m) (c : Call) :
    Valid (step m c).2 := by
  cases c with
  | insert key => exact insert_valid small valid key
  | lookup key => exact valid
  | delete key => exact delete_valid small valid key

theorem Calls.valid (small : 2 * N < 2 ^ 32) {m : Memory N} {history} (calls : Calls m history) :
    Valid m := by
  induction calls with
  | start => exact valid_init
  | call _ c ih => exact step_valid small ih c

/-- In a disciplined run the pairs of the live keys, with their multiplicities,
are all stored. -/
theorem Calls.live (small : 2 * N < 2 ^ 32) {m : Memory N} {history} (calls : Calls m history)
    (disciplined : Disciplined history) :
    ∃ live : Multiset Word, (∀ key, (live.count key : Int) = net history key) ∧
      live.map (e N) ≤ alpha m := by
  induction calls with
  | start => exact ⟨0, fun key => by simp [net], Multiset.zero_le _⟩
  | @call m history earlier c ih =>
    obtain ⟨live, counts, stored⟩ := ih disciplined.of_append
    cases c with
    | insert key =>
      cases result : (insert m key).1 with
      | true =>
        refine ⟨key ::ₘ live, fun k => ?_, ?_⟩
        · simp only [step, result, net_append, Multiset.count_cons, ← counts k]
          by_cases same : k = key
          · subst same; simp
          · simp [same, Ne.symm same]
        · rw [Multiset.map_cons]
          change _ ≤ alpha (insert m key).2
          rw [insert_true small result]
          exact Multiset.cons_le_cons _ stored
      | false =>
        refine ⟨live, fun k => ?_, stored.trans (alpha_le_insert small m key)⟩
        simp [step, result, net_append, counts k]
    | lookup key =>
      exact ⟨live, fun k => by simp [step, net_append, counts k], stored⟩
    | delete key =>
      have positive : 0 < net history key := disciplined history key _ [] rfl
      have member : key ∈ live := by
        rw [← Multiset.count_pos]
        have := counts key
        omega
      have present : e N key ∈ alpha m :=
        Multiset.mem_of_le stored (Multiset.mem_map_of_mem _ member)
      have result := (delete_iff small m key).mpr present
      refine ⟨live.erase key, fun k => ?_, ?_⟩
      · simp only [step, result, net_append, ← counts k]
        by_cases same : k = key
        · subst same
          have := Multiset.count_pos.mpr member
          rw [Multiset.count_erase_self]
          simp
          omega
        · simp [Multiset.count_erase_of_ne same, Ne.symm same]
      · rw [← Multiset.cons_erase member, Multiset.map_cons, delete_true small result] at stored
        exact (Multiset.cons_le_cons_iff _).mp stored

/-- No false negatives: whatever was inserted more often than deleted is found,
and may be deleted. -/
theorem lookup_of_net_pos (produced : Produced N) {m : Memory N} {history}
    (calls : Calls m history) (disciplined : Disciplined history) {key : Word}
    (positive : 0 < net history key) : lookup m key = true ∧ (delete m key).1 = true := by
  have small := produced.small
  obtain ⟨live, counts, stored⟩ := calls.live small disciplined
  have member : key ∈ live := by
    rw [← Multiset.count_pos]
    have := counts key
    omega
  have present : e N key ∈ alpha m := Multiset.mem_of_le stored (Multiset.mem_map_of_mem _ member)
  exact ⟨(lookup_iff small m key).mpr present, (delete_iff small m key).mpr present⟩

/-- Key 5 is inserted twice and deleted once. -/
theorem lookup_of_net_pos_five :
    let m := (delete (insert (insert (init 2) 5#64).2 5#64).2 5#64).2
    lookup m 5#64 = true ∧ (delete m 5#64).1 = true := by
  have run := ((Calls.start (N := 2)).call (.insert 5#64)).call (.insert 5#64) |>.call (.delete 5#64)
  refine lookup_of_net_pos produced_two run (fun earlier key result later same => ?_) (by decide)
  rcases earlier with _ | ⟨first, _ | ⟨second, _ | ⟨third, rest⟩⟩⟩
  · simp at same
  · simp at same
  · obtain ⟨rfl, rfl, ⟨rfl, -⟩, -⟩ := by simpa using same
    decide
  · simp at same

/-- The filter refines the multiset of its pairs, and stored tags are well formed. -/
theorem refines_multiset (produced : Produced N) {m : Memory N} {history} (calls : Calls m history)
    (key : Word) :
    ((insert m key).1 = true → alpha (insert m key).2 = alpha m + {e N key}) ∧
    ((delete m key).1 = true ↔ e N key ∈ alpha m) ∧
    ((delete m key).1 = true → alpha (delete m key).2 = alpha m - {e N key}) ∧
    ((delete m key).1 = false → (delete m key).2 = m) ∧
    ((step m (.lookup key)).1 = true ↔ e N key ∈ alpha m) ∧
    (step m (.lookup key)).2 = m ∧
    ∀ b < N, ∀ j < 4, readTag m b j ≠ 0 →
      readTag m b j >>> 4 ≠ 0 ∧ readTag m b j &&& disMask ≤ min 15 (N - 1) := by
  have small := produced.small
  refine ⟨fun inserted => ?_, delete_iff small m key, fun deleted => ?_,
    fun kept => (delete_false small kept).1, lookup_iff small m key, rfl, fun b inRing j inside occupied => ?_⟩
  · rw [insert_true small inserted, ← Multiset.singleton_add, add_comm]
  · rw [delete_true small deleted, ← Multiset.singleton_add, add_tsub_cancel_left]
  · have valid := calls.valid small
    have cell : ringTable m ((b : ZMod N), ⟨j, inside⟩) =
        some (readTag m b j / 16, readTag m b j % 16) := by
      rw [ringTable_index small m (by omega)]
      exact if_neg occupied
    have stored : ((b : ZMod N) - (readTag m b j % 16 : Nat), readTag m b j / 16) ∈ alpha m := by
      rw [alpha_eq_entries]
      exact mem_entries.mpr ⟨_, _, _, cell, rfl⟩
    have fingerprint := valid.fingerprint _ stored
    have distance := valid.bounded _ _ _ cell
    rw [and_disMask, Nat.shiftRight_eq_div_pow]
    simp only at fingerprint
    omega

def after (calls : List Call) (m : Memory N) : Memory N := calls.foldl (fun m c => (step m c).2) m

omit [NeZero N] in
theorem calls_after (calls : List Call) {m : Memory N} {history} (earlier : Calls m history) :
    ∃ later, Calls (after calls m) later := by
  induction calls generalizing m history with
  | nil => exact ⟨history, earlier⟩
  | cons c calls ih => exact ih (earlier.call c)

/-- Keys 0 and 2 have homes 0 and 2 among 18 buckets; these calls fill the first sixteen, and key 2 is in the
last of them. -/
def fullCalls : List Call := List.replicate 60 (.insert 0#64) ++ .insert 2#64 :: List.replicate 3 (.insert 0#64)

/-- One more insertion of key 0 moves the tag of key 2 on to bucket 16. It is deleted there; key 1 is not found. -/
theorem refines_multiset_displaced :
    let m := after fullCalls (init 18)
    let m' := (insert m 0#64).2
    readTag m 16 0 = 0 ∧ readTag m' 16 0 ≠ 0 ∧ alpha m' = alpha m + {e 18 0#64} ∧
      alpha (delete m' 2#64).2 = alpha m' - {e 18 2#64} ∧ (delete m' 1#64).2 = m' := by
  intro m m'
  obtain ⟨history, calls⟩ := calls_after fullCalls (Calls.start (N := 18))
  have moved : readTag m 16 0 = 0 ∧ readTag m' 16 0 ≠ 0 := by decide +kernel
  have results : (insert m 0#64).1 = true ∧ (delete m' 2#64).1 = true ∧ (delete m' 1#64).1 = false := by decide +kernel
  have later := calls.call (.insert 0#64)
  exact ⟨moved.1, moved.2, (refines_multiset produced_eighteen calls 0#64).1 results.1,
    (refines_multiset produced_eighteen later 2#64).2.2.1 results.2.1,
    (refines_multiset produced_eighteen later 1#64).2.2.2.1 results.2.2⟩

end WormholeFilters.Pm
