import WormholeFilters.PmRefinement

/-! What a rejected insertion leaves behind. The displacement loop writes before it
knows whether it will succeed; when a later pass finds nothing to move, the tag
copied last stays stored twice and the free slot it went to is used up. -/
namespace WormholeFilters.Pm

open RingTable

variable {N : Nat}

/-- Some tag in the fifteen buckets before offset `t` from home can move to offset `t`. -/
def Movable (m : Memory N) (key : Word) (t : Nat) : Prop :=
  ∃ g < maxProb, 0 < g ∧ g ≤ t ∧
    ∃ j < tagPerBuk, (readTag m (initBuckIdx N key + (t - g)) j &&& disMask) + g < maxProb

/-- The first bucket with an empty slot is out of reach and takes a moved tag, but
before the hole comes within reach of home there is a bucket nothing can move to. -/
def Strands (m : Memory N) (key : Word) : Prop :=
  ∃ e < N, (∀ t < e, ∀ j < tagPerBuk, readTag m (initBuckIdx N key + t) j ≠ 0) ∧
    (∃ j < tagPerBuk, readTag m (initBuckIdx N key + e) j = 0) ∧ Movable m key e ∧
    ∃ t < e, maxProb ≤ t ∧ ¬ Movable m key t

instance (m : Memory N) (key : Word) (t : Nat) : Decidable (Movable m key t) :=
  inferInstanceAs (Decidable (∃ g < maxProb, _))

instance (m : Memory N) (key : Word) : Decidable (Strands m key) :=
  inferInstanceAs (Decidable (∃ e < N, _))

variable [NeZero N]

def freeSlots (m : Memory N) : Nat :=
  (Finset.univ.filter fun q : ZMod N × Fin 4 => readTag m q.1.val q.2 = 0).card

theorem card_alpha_add_freeSlots (m : Memory N) : (alpha m).card + freeSlots m = N * 4 := by
  have stored : (alpha m).card =
      (Finset.univ.filter fun q : ZMod N × Fin 4 => ¬ readTag m q.1.val q.2 = 0).card := by
    rw [alpha, Multiset.card_sum, Finset.card_filter]
    apply Finset.sum_congr rfl
    intro q _
    split <;> simp_all
  have slots : (Finset.univ : Finset (ZMod N × Fin 4)).card = N * 4 := by simp [ZMod.card]
  rw [stored, freeSlots, Nat.add_comm, Finset.card_filter_add_card_filter_not, slots]

theorem movable_iff (small : 2 * N < 2 ^ 32) (m : Memory N) (key : Word) {t : Nat} (inRing : t < N)
    (full : ∀ s < t, ∀ j < tagPerBuk, readTag m (initBuckIdx N key + s) j ≠ 0) :
    Movable m key t ↔ ¬ Barrier 16 (ringTable m) (e N key).1 t := by
  constructor
  · rintro ⟨g, near, pos, bound, j, inside, moves⟩ barrier
    have occupied := full (t - g) (by omega) j inside
    rw [and_disMask] at moves
    have := barrier g (t - g) pos (by omega) ⟨j, inside⟩ _ _
      ((ringTable_offset small m key (Or.inl (by omega)) _).trans (if_neg occupied))
    exact absurd moves (Nat.not_lt.mpr this)
  · intro passable
    simp only [Barrier, not_forall] at passable
    obtain ⟨g, s, pos, sum, j, x, d, stored, moves⟩ := passable
    rw [ringTable_offset small m key (Or.inl (by omega))] at stored
    have value := decode_eq_some stored
    refine ⟨g, by simp only [maxProb]; omega, pos, by omega, j, j.isLt, ?_⟩
    rw [show t - g = s by omega, and_disMask, ← value.2.2]
    simp only [maxProb]
    omega

private theorem exists_firstFree (small : 2 * N < 2 ^ 32) {m : Memory N} {key : Word} {t : Nat}
    (inRing : t < N) (full : ∀ s < t, ∀ j < tagPerBuk, readTag m (initBuckIdx N key + s) j ≠ 0)
    (empty : ∃ j < tagPerBuk, readTag m (initBuckIdx N key + t) j = 0) :
    ∃ j, FirstFree (ringTable m) (e N key).1 t j := by
  obtain ⟨inside, zero⟩ := Nat.find_spec empty
  refine ⟨⟨Nat.find empty, inside⟩, inRing, fun s below j => ?_, fun j below => ?_, ?_⟩
  · rw [ringTable_offset small m key (Or.inl (by omega)), ne_eq, decode_eq_none]
    exact full s below j j.isLt
  · rw [ringTable_offset small m key (Or.inl inRing), ne_eq, decode_eq_none]
    intro free
    exact Nat.find_min empty below ⟨j.isLt, free⟩
  · rw [ringTable_offset small m key (Or.inl inRing), decode_eq_none]
    exact zero

private theorem full_of_firstFree (small : 2 * N < 2 ^ 32) {m : Memory N} {key : Word} {t : Nat}
    {j : Fin 4} (first : FirstFree (ringTable m) (e N key).1 t j) :
    (∀ s < t, ∀ k < tagPerBuk, readTag m (initBuckIdx N key + s) k ≠ 0) ∧
      readTag m (initBuckIdx N key + t) j = 0 := by
  have inRing := first.inRing
  refine ⟨fun s below k inside zero => ?_, ?_⟩
  · apply first.before s below ⟨k, inside⟩
    rw [ringTable_offset small m key (Or.inl (by omega)), decode_eq_none]
    exact zero
  · rw [← decode_eq_none, ← ringTable_offset small m key (Or.inl inRing)]
    exact first.free

theorem strands_iff (small : 2 * N < 2 ^ 32) (m : Memory N) (key : Word) :
    Strands m key ↔ ∃ t j b, FirstFree (ringTable m) (e N key).1 t j ∧
      ¬ Barrier 16 (ringTable m) (e N key).1 t ∧ 16 ≤ b ∧ b < t ∧
      Barrier 16 (ringTable m) (e N key).1 b := by
  constructor
  · rintro ⟨t, inRing, full, empty, movable, b, below, far, stuck⟩
    obtain ⟨j, first⟩ := exists_firstFree small inRing full empty
    refine ⟨t, j, b, first, (movable_iff small m key inRing full).mp movable, far, below, ?_⟩
    by_contra passable
    exact stuck ((movable_iff small m key (by omega) fun s under => full s (by omega)).mpr passable)
  · rintro ⟨t, j, b, first, passable, far, below, barrier⟩
    have inRing := first.inRing
    obtain ⟨full, empty⟩ := full_of_firstFree small first
    refine ⟨t, inRing, full, ⟨j, j.isLt, empty⟩, (movable_iff small m key inRing full).mpr passable,
      b, below, far, fun movable => ?_⟩
    exact (movable_iff small m key (by omega) fun s under => full s (by omega)).mp movable barrier

/-- A failed insertion changes the stored pairs exactly when it strands a tag. -/
theorem failed_insert_iff (small : 2 * N < 2 ^ 32) (m : Memory N) (key : Word) :
    ((insert m key).1 = false → alpha (insert m key).2 = alpha m) ↔ ¬ Strands m key := by
  rw [strands_iff small, alpha_eq_entries, alpha_eq_entries]
  exact (insert_insertion small m key).entries_eq_iff

inductive Unstranded : Memory N → List (Call × Bool) → Prop
  | start : Unstranded (init N) []
  | call {m history} (earlier : Unstranded m history) (c : Call)
      (fits : ∀ key, c = .insert key → ¬ Strands m key) :
      Unstranded (step m c).2 (history ++ [(c, (step m c).1)])

/-- In such a run the stored pairs are those inserted less those deleted. -/
theorem Unstranded.balance (small : 2 * N < 2 ^ 32) {m : Memory N} {history}
    (run : Unstranded m history) : ∃ inserted deleted : Multiset Word,
      (∀ key, inserted.count key = history.count (.insert key, true)) ∧
      (∀ key, deleted.count key = history.count (.delete key, true)) ∧
      alpha m + deleted.map (e N) = inserted.map (e N) := by
  induction run with
  | start => exact ⟨0, 0, by simp, by simp, by simp [alpha_init]⟩
  | @call m history _ c fits ih =>
    obtain ⟨inserted, deleted, countInserted, countDeleted, balance⟩ := ih
    cases c with
    | insert key =>
      cases result : (insert m key).1 with
      | true =>
        refine ⟨key ::ₘ inserted, deleted, fun k => ?_, fun k => ?_, ?_⟩
        · by_cases same : k = key
          · subst same; simp [step, result, countInserted]
          · simp [step, countInserted, same, Ne.symm same]
        · simp [step, countDeleted]
        · change alpha (insert m key).2 + _ = _
          rw [insert_true small result, Multiset.cons_add, balance, Multiset.map_cons]
      | false =>
        refine ⟨inserted, deleted, fun k => ?_, fun k => ?_, ?_⟩
        · simp [step, result, countInserted]
        · simp [step, countDeleted]
        · change alpha (insert m key).2 + _ = _
          rw [(failed_insert_iff small m key).mpr (fits key rfl) result, balance]
    | lookup key =>
      exact ⟨inserted, deleted, fun k => by simp [step, countInserted],
        fun k => by simp [step, countDeleted], balance⟩
    | delete key =>
      cases result : (delete m key).1 with
      | true =>
        refine ⟨inserted, key ::ₘ deleted, fun k => ?_, fun k => ?_, ?_⟩
        · simp [step, countInserted]
        · by_cases same : k = key
          · subst same; simp [step, result, countDeleted]
          · simp [step, countDeleted, same, Ne.symm same]
        · change alpha (delete m key).2 + _ = _
          rw [Multiset.map_cons, Multiset.add_cons, ← Multiset.cons_add, ← delete_true small result,
            balance]
      | false =>
        refine ⟨inserted, deleted, fun k => ?_, fun k => ?_, ?_⟩
        · simp [step, countInserted]
        · simp [step, result, countDeleted]
        · change alpha (delete m key).2 + _ = _
          rw [(delete_false small result).1, balance]

theorem volatile_eq_init {m : Memory N} (empty : alpha m = 0) : m.volatile = (init N).volatile := by
  rw [alpha_eq_entries, entries_eq_zero] at empty
  apply image_ext
  intro i inside
  rw [bucket_init_volatile]
  apply word_eq_of_slots
  intro j position
  have zero : readTag m (i : ZMod N).val j = 0 :=
    decode_eq_none.mp (empty ((i : ZMod N), ⟨j, position⟩))
  rw [readTag, ZMod.val_natCast, Nat.mod_mod, Nat.mod_eq_of_lt inside] at zero
  rw [zero]
  simp [slot, Lanes.lane]

/-- A failed insertion leaves the stored pairs and the free slots as they were
exactly when it strands no tag; a run without stranded tags that deletes what it
inserted ends with the all-zero array. -/
theorem failed_insert_exact (produced : Produced N) :
    (∀ (m : Memory N) history, Calls m history → ∀ key,
      ((insert m key).1 = false →
        alpha (insert m key).2 = alpha m ∧ freeSlots (insert m key).2 = freeSlots m) ↔
      ¬ Strands m key) ∧
    ∀ (m : Memory N) history, Unstranded m history → (∀ key, net history key = 0) →
      m.volatile = (init N).volatile := by
  have small := produced.small
  refine ⟨fun m history _ key => ?_, fun m history run balanced => ?_⟩
  · rw [← failed_insert_iff small m key]
    refine ⟨fun settled rejected => (settled rejected).1, fun settled rejected => ?_⟩
    have before := card_alpha_add_freeSlots m
    have after := card_alpha_add_freeSlots (insert m key).2
    rw [settled rejected] at after
    exact ⟨settled rejected, by omega⟩
  · obtain ⟨inserted, deleted, countInserted, countDeleted, balance⟩ := run.balance small
    have same : inserted = deleted := by
      ext key
      have := balanced key
      rw [countInserted, countDeleted]
      simp only [net] at this
      omega
    rw [same] at balance
    exact volatile_eq_init (by simpa using balance)

def settles : List Call → Memory N → Bool
  | [], _ => true
  | .insert key :: calls, m => !decide (Strands m key) && settles calls (insert m key).2
  | .lookup _ :: calls, m => settles calls m
  | .delete key :: calls, m => settles calls (delete m key).2

def results : List Call → Memory N → List (Call × Bool)
  | [], _ => []
  | c :: calls, m => (c, (step m c).1) :: results calls (step m c).2

omit [NeZero N] in
theorem Unstranded.after {calls : List Call} {m : Memory N} {history} (run : Unstranded m history)
    (fits : settles calls m = true) : Unstranded (after calls m) (history ++ results calls m) := by
  induction calls generalizing m history with
  | nil => exact (List.append_nil history).symm ▸ run
  | cons c calls ih =>
    obtain ⟨unstranded, settled⟩ : (∀ key, c = .insert key → ¬ Strands m key) ∧
        settles calls (step m c).2 = true := by
      cases c with
      | insert key =>
        obtain ⟨first, rest⟩ := (Bool.and_eq_true ..).mp fits
        exact ⟨fun _ same => Call.insert.inj same ▸ by simpa using first, rest⟩
      | lookup key => exact ⟨nofun, fits⟩
      | delete key => exact ⟨nofun, fits⟩
    have whole := ih (run.call c unstranded) settled
    rwa [List.append_assoc] at whole

theorem net_refused (n : Nat) (k key : Word) : net (List.replicate n (.insert k, true) ++
    (.insert k, false) :: List.replicate n (.delete k, true)) key = 0 := by
  by_cases same : k = key
  · simp [net, List.count_replicate, same]
  · simp [net, List.count_replicate, same]

/-- Sixty-four copies of key 0 fill every bucket within its reach, one more finds no room, and all are deleted. -/
def refusedCalls : List Call := List.replicate 65 (.insert 0#64) ++ List.replicate 64 (.delete 0#64)

theorem refusedCalls_results : settles refusedCalls (init 18) = true ∧ results refusedCalls (init 18) =
    List.replicate 64 (.insert 0#64, true) ++ (.insert 0#64, false) :: List.replicate 64 (.delete 0#64, true) := by
  decide +kernel

/-- The copy that is refused leaves the stored pairs as they were, and the array is zero in the end. -/
theorem failed_insert_exact_refused :
    let m := after (refusedCalls.take 64) (init 18)
    (insert m 0#64).1 = false ∧ alpha (insert m 0#64).2 = alpha m ∧
      (after refusedCalls (init 18)).volatile = (init 18).volatile := by
  intro m
  obtain ⟨fits, same⟩ := refusedCalls_results
  obtain ⟨history, calls⟩ := calls_after (refusedCalls.take 64) (Calls.start (N := 18))
  have refused : (insert m 0#64).1 = false ∧ ¬ Strands m 0#64 := by decide +kernel
  have kept := ((failed_insert_exact produced_eighteen).1 m history calls 0#64).mpr refused.2 refused.1
  refine ⟨refused.1, kept.1, (failed_insert_exact produced_eighteen).2 _ _ (Unstranded.start.after fits) fun key => ?_⟩
  rw [List.nil_append, same]
  exact net_refused 64 0#64 key

/-- Keys 0 and 16 have homes 0 and 16 among 18 buckets; these calls fill the first
seventeen. -/
def crowdedCalls : List Call := List.replicate 64 (.insert 0#64) ++ List.replicate 4 (.insert 16#64)

theorem crowded_strands : Strands (after crowdedCalls (init 18)) 0#64 := by decide +kernel

/-- One more insertion of key 0 fails and leaves a second copy of key 16's tag. -/
theorem failed_insert_grows :
    ¬ ∀ (N : Nat) [NeZero N], Produced N → ∀ (m : Memory N) history, Calls m history → ∀ key,
      (insert m key).1 = false → alpha (insert m key).2 = alpha m := by
  intro claimed
  obtain ⟨history, calls⟩ := calls_after crowdedCalls (Calls.start (N := 18))
  exact (failed_insert_iff produced_eighteen.small _ _).mp
    (claimed 18 produced_eighteen _ history calls 0#64) crowded_strands

end WormholeFilters.Pm
