import WormholeFilters.BlockIter

/-! The iterator over a block that the builder wrote. What was added is the list it goes
through: one call of `ParseNextKey` comes from one record to the next, and each of the
iterator's calls is some of those. -/
namespace WormholeFilters.LevelDb

open LittleEndian
open Cursors (Call)

namespace BlockLayout

variable {records : List Record} {starts : List Nat} {i j : Nat} {r : Record}

theorem offset_succ (found : records[i]? = some r) : offset records (i + 1) = offset records i + r.bytes.length := by
  have mapped : (records.map Record.bytes)[i]? = some r.bytes := by rw [List.getElem?_map, found]; rfl
  rw [offset, offset, List.take_add_one, mapped, Option.toList_some, List.flatten_append, List.length_append,
    List.flatten_singleton]

theorem bytes_length_pos (r : Record) : 0 < r.bytes.length := by
  have := length_encodeVarint32_pos (r.shared % 2 ^ 32)
  simp only [Record.bytes, List.length_append]
  omega

theorem offset_lt (before : i < j) (inside : j ≤ records.length) : offset records i < offset records j := by
  induction j with
  | zero => omega
  | succ j ih =>
    obtain ⟨r, found⟩ : ∃ r, records[j]? = some r := ⟨_, List.getElem?_eq_getElem inside⟩
    have nonempty := bytes_length_pos r
    rw [offset_succ found]
    rcases Nat.eq_or_lt_of_le (Nat.le_of_lt_succ before) with rfl | earlier
    · omega
    · have := ih earlier (by omega)
      omega

theorem offset_le (before : i ≤ j) (inside : j ≤ records.length) : offset records i ≤ offset records j := by
  rcases Nat.eq_or_lt_of_le before with rfl | before
  · exact Nat.le_refl _
  · exact Nat.le_of_lt (offset_lt before inside)

theorem offset_lt_iff (first : i ≤ records.length) (second : j ≤ records.length) :
    offset records i < offset records j ↔ i < j := by
  constructor
  · intro below
    by_contra after
    have := offset_le (Nat.not_lt.mp after) first
    omega
  · exact fun before => offset_lt before second

theorem length_contents (records : List Record) (starts : List Nat) :
    (contents records starts).length = offset records records.length + 4 * starts.length + 4 := by
  simp only [contents, funext encodeFixed32_eq, List.length_append, length_flatMap_encode, List.length_map,
    BlockBuilder.offset_length, length_encode]

theorem keyBefore_succ (found : records[i]? = some r) : keyBefore records (i + 1) = r.key := by
  rw [keyBefore, List.take_add_one, found, Option.toList_some, BlockBuilder.lastKey_append]

/-- A key is never longer than what was written up to it. -/
theorem length_keyBefore_le (wellformed : Wellformed records starts) (inside : i ≤ records.length) :
    (keyBefore records i).length ≤ offset records i := by
  induction i with
  | zero => simp [keyBefore, lastKey]
  | succ i ih =>
    obtain ⟨r, found⟩ : ∃ r, records[i]? = some r := ⟨_, List.getElem?_eq_getElem inside⟩
    have before := ih (by omega)
    obtain ⟨short, _, _⟩ := wellformed.follows found
    rw [keyBefore_succ found, offset_succ found]
    simp only [Record.bytes, List.length_append, List.length_drop]
    omega

/-- The bytes of record `i` and of those after it. -/
theorem drop_entries (found : records[i]? = some r) :
    (records.map Record.bytes).flatten.drop (offset records i) =
      r.bytes ++ ((records.map Record.bytes).drop (i + 1)).flatten := by
  have mapped : (records.map Record.bytes)[i]? = some r.bytes := by rw [List.getElem?_map, found]; rfl
  obtain ⟨inside, same⟩ := List.getElem?_eq_some_iff.mp mapped
  have split : (records.map Record.bytes).flatten =
      ((records.map Record.bytes).take i).flatten ++ ((records.map Record.bytes).drop i).flatten := by
    rw [← List.flatten_append, List.take_append_drop]
  rw [split, offset, List.drop_left, List.drop_eq_getElem_cons inside, same, List.flatten_cons]

theorem take_contents (records : List Record) (starts : List Nat) :
    (contents records starts).take (offset records records.length) = (records.map Record.bytes).flatten := by
  rw [contents, List.append_assoc, BlockBuilder.offset_length, List.take_left]

/-- Where the key delta of record `i` starts, and what is there. -/
theorem drop_delta (starts : List Nat) (found : records[i]? = some r) : ∃ tail,
    (contents records starts).drop (offset records (i + 1) - (r.key.length - r.shared + r.value.length)) =
      r.key.drop r.shared ++ r.value ++ tail := by
  have inside : i + 1 ≤ records.length := (List.getElem?_eq_some_iff.mp found).1
  have within := offset_le inside (Nat.le_refl _)
  obtain ⟨lengths, bytes⟩ : ∃ lengths, r.bytes = lengths ++ (r.key.drop r.shared ++ r.value) :=
    ⟨_, by rw [Record.bytes, List.append_assoc]⟩
  have whole := congrArg List.length bytes
  rw [List.length_append, List.length_append, List.length_drop] at whole
  have next := offset_succ found
  have start : offset records (i + 1) - (r.key.length - r.shared + r.value.length) =
      offset records i + lengths.length := by omega
  rw [start, ← List.drop_drop, contents, List.append_assoc,
    List.drop_append_of_le_length (by rw [← BlockBuilder.offset_length]; omega), drop_entries found, bytes]
  exact ⟨_, by rw [List.append_assoc, List.append_assoc lengths, List.drop_left, List.append_assoc]⟩

theorem restartPoint_contents (small : (contents records starts).length < 2 ^ 32) {k start : Nat}
    (found : starts[k]? = some start) (inside : start ≤ records.length) :
    decodeFixed32 (contents records starts) (offset records records.length + k * 4) = offset records start := by
  have mapped : (starts.map (offset records))[k]? = some (offset records start) := by
    rw [List.getElem?_map, found]; rfl
  have within := offset_le inside (Nat.le_refl _)
  rw [length_contents] at small
  rw [decodeFixed32, contents, List.append_assoc, BlockBuilder.offset_length, load_append_right, Nat.mul_comm,
    funext encodeFixed32_eq, load_flatMap_encode mapped]
  exact Nat.mod_eq_of_lt (by omega)

end BlockLayout

namespace BlockIter

open BlockLayout

variable {records : List Record} {starts : List Nat} {it : BlockIter} {i : Nat}

structure Over (records : List Record) (starts : List Nat) (it : BlockIter) : Prop where
  data : it.data = contents records starts
  restarts : it.restarts = offset records records.length
  numRestarts : it.numRestarts = starts.length
  status : it.status = .ok

/-- The restart region the iterator remembers does not start behind position `i`. -/
def Region (starts : List Nat) (it : BlockIter) (i : Nat) : Prop :=
  ∃ start, starts[it.restartIndex]? = some start ∧ start ≤ i

/-- `ParseNextKey` would read record `i`. -/
structure Ready (records : List Record) (starts : List Nat) (it : BlockIter) (i : Nat) : Prop where
  onBlock : Over records starts it
  le : i ≤ records.length
  next : it.nextEntryOffset = offset records i
  follows {r : Record} : records[i]? = some r → r.Follows it.key
  region : Region starts it i

structure On (starts : List Nat) (records : List Record) (it : BlockIter) (i : Nat) (r : Record) : Prop where
  current : it.current = offset records i
  key : it.key = r.key
  valueEnd : it.value.1 + it.value.2 = offset records (i + 1)
  valueSize : it.value.2 = r.value.length
  region : Region starts it i
  limit {start : Nat} : starts[it.restartIndex + 1]? = some start → i ≤ start

structure At (records : List Record) (starts : List Nat) (it : BlockIter) (i : Nat) : Prop where
  onBlock : Over records starts it
  le : i ≤ records.length
  on {r : Record} : records[i]? = some r → On starts records it i r
  off : i = records.length → it.current = it.restarts

theorem parseNextKey_eq {head : EntryHead} (inside : it.nextEntryOffset < it.restarts)
    (decoded : decodeEntry (it.entryBytes it.nextEntryOffset) = some head) (enough : head.shared ≤ it.key.length) :
    it.parseNextKey = (true, advanceRestart it.numRestarts
      { it with
        current := it.nextEntryOffset
        key := it.key.take head.shared ++ (it.data.drop (it.restarts - head.rest.length)).take head.nonShared
        value := (it.restarts - head.rest.length + head.nonShared, head.valueLength) }) := by
  rw [entryBytes] at decoded
  simp only [parseNextKey, entryBytes, decoded, if_neg (Nat.not_le.mpr inside), if_neg (Nat.not_lt.mpr enough)]

section Steps

variable (wellformed : Wellformed records starts) (small : (contents records starts).length < 2 ^ 32)

include small in
theorem Over.getRestartPoint (onBlock : Over records starts it) {k start : Nat} (found : starts[k]? = some start)
    (inside : start ≤ records.length) : it.getRestartPoint k = offset records start := by
  rw [BlockIter.getRestartPoint, onBlock.data, onBlock.restarts, restartPoint_contents small found inside]

include wellformed in
theorem start_le {k start : Nat} (found : starts[k]? = some start) : start ≤ records.length := by
  have := wellformed.inside (List.mem_of_getElem? found)
  omega

include wellformed small in
/-- The loop stops in the last region that starts before the entry. -/
theorem advanceRestart_spec (fuel : Nat) (onBlock : Over records starts it) (le : i ≤ records.length)
    (current : it.current = offset records i) (region : Region starts it i)
    (enough : starts.length ≤ it.restartIndex + fuel) :
    ∃ k, advanceRestart fuel it = { it with restartIndex := k } ∧ Region starts { it with restartIndex := k } i ∧
      ∀ start, starts[k + 1]? = some start → i ≤ start := by
  induction fuel generalizing it with
  | zero =>
    obtain ⟨start, found, _⟩ := region
    obtain ⟨inside, _⟩ := List.getElem?_eq_some_iff.mp found
    omega
  | succ fuel ih =>
    rw [advanceRestart]
    split
    · next more =>
      rw [onBlock.numRestarts, current] at more
      have found := List.getElem?_eq_getElem more.1
      have within := start_le wellformed found
      rw [onBlock.getRestartPoint small found within, offset_lt_iff within le] at more
      have onBlock' : Over records starts { it with restartIndex := it.restartIndex + 1 } :=
        ⟨onBlock.data, onBlock.restarts, onBlock.numRestarts, onBlock.status⟩
      exact ih onBlock' current ⟨_, found, Nat.le_of_lt more.2⟩ (by change _ ≤ it.restartIndex + 1 + fuel; omega)
    · next done =>
      refine ⟨it.restartIndex, rfl, region, fun start found => ?_⟩
      obtain ⟨inside, _⟩ := List.getElem?_eq_some_iff.mp found
      have within := start_le wellformed found
      rw [onBlock.numRestarts, current, onBlock.getRestartPoint small found within, offset_lt_iff within le] at done
      omega

theorem Over.parse_end (onBlock : Over records starts it) (next : it.nextEntryOffset = offset records records.length) :
    it.parseNextKey.1 = false ∧ At records starts it.parseNextKey.2 records.length := by
  have last : it.nextEntryOffset ≥ it.restarts := by rw [next, onBlock.restarts]
  simp only [parseNextKey, if_pos last, true_and]
  refine ⟨⟨onBlock.data, onBlock.restarts, onBlock.numRestarts, onBlock.status⟩, Nat.le_refl _, ?_, fun _ => rfl⟩
  intro r found
  simp at found

include wellformed small in
/-- The head found at record `i`, with the key delta where it says. -/
theorem Over.decode (onBlock : Over records starts it) {r : Record} (found : records[i]? = some r) :
    ∃ head, decodeEntry (it.entryBytes (offset records i)) = some head ∧ head.shared = r.shared ∧
      head.valueLength = r.value.length ∧
      it.restarts - head.rest.length + head.nonShared + r.value.length = offset records (i + 1) ∧
      (it.data.drop (it.restarts - head.rest.length)).take head.nonShared = r.key.drop r.shared := by
  have inside : i < records.length := (List.getElem?_eq_some_iff.mp found).1
  have length := length_contents records starts
  have before := offset_lt inside (Nat.le_refl _)
  have within : offset records (i + 1) ≤ offset records records.length := offset_le inside (Nat.le_refl _)
  have next := offset_succ found
  -- the bytes from here to the restart points start with this record
  obtain ⟨rest, entries⟩ : ∃ rest, it.entryBytes (offset records i) = r.bytes ++ rest :=
    ⟨_, by rw [entryBytes, onBlock.data, onBlock.restarts, take_contents, drop_entries found]⟩
  have size := congrArg List.length entries
  rw [entryBytes, onBlock.data, onBlock.restarts, take_contents, List.length_drop, ← BlockBuilder.offset_length,
    List.length_append] at size
  have shared : r.shared < 2 ^ 32 := by
    have := (wellformed.follows found).1
    have := length_keyBefore_le wellformed (Nat.le_of_lt inside)
    omega
  have whole : r.bytes.length ≥ r.key.length - r.shared + r.value.length := by
    simp only [Record.bytes, List.length_append, List.length_drop]
    omega
  have start : it.restarts - (r.key.drop r.shared ++ r.value ++ rest).length =
      offset records (i + 1) - (r.key.length - r.shared + r.value.length) := by
    rw [onBlock.restarts]
    simp only [List.length_append, List.length_drop]
    omega
  obtain ⟨tail, delta⟩ := drop_delta starts found
  refine ⟨_, entries ▸ decodeEntry_bytes shared rest (by rw [List.length_append]; omega), rfl, rfl, ?_, ?_⟩
  · rw [start]
    dsimp only
    omega
  · have cut : (r.key.drop r.shared).length = r.key.length - r.shared := List.length_drop
    rw [start, onBlock.data, delta]
    dsimp only
    rw [← cut, List.append_assoc, List.take_left]

include wellformed small in
theorem Ready.parse (ready : Ready records starts it i) {r : Record} (found : records[i]? = some r) :
    it.parseNextKey.1 = true ∧ At records starts it.parseNextKey.2 i := by
  have inside : i < records.length := (List.getElem?_eq_some_iff.mp found).1
  have onBlock := ready.onBlock
  have before := offset_lt inside (Nat.le_refl _)
  have follows := ready.follows found
  obtain ⟨head, decoded, shared, valueLength, valueEnd, delta⟩ := onBlock.decode wellformed small found
  rw [parseNextKey_eq (by rw [ready.next, onBlock.restarts]; exact before) (by rw [ready.next, decoded])
    (by rw [shared]; exact follows.1), shared, delta, follows.2.2, List.take_append_drop]
  have onBlock' : Over records starts { it with
      current := it.nextEntryOffset
      key := r.key
      value := (it.restarts - head.rest.length + head.nonShared, head.valueLength) } :=
    ⟨onBlock.data, onBlock.restarts, onBlock.numRestarts, onBlock.status⟩
  obtain ⟨k, advanced, region, limit⟩ := advanceRestart_spec wellformed small it.numRestarts onBlock'
    (Nat.le_of_lt inside) ready.next ready.region (by rw [onBlock.numRestarts]; exact Nat.le_add_left _ _)
  rw [advanced]
  refine ⟨rfl, ⟨onBlock.data, onBlock.restarts, onBlock.numRestarts, onBlock.status⟩, Nat.le_of_lt inside, ?_, by omega⟩
  intro r' found'
  obtain rfl : r = r' := Option.some.inj (found.symm.trans found')
  exact ⟨ready.next, rfl, by rw [valueLength, valueEnd], valueLength, region, fun {start} => limit start⟩

include wellformed in
theorem Over.seekToRestartPoint (small : (contents records starts).length < 2 ^ 32) (onBlock : Over records starts it)
    {k start : Nat} (found : starts[k]? = some start) : Ready records starts (it.seekToRestartPoint k) start := by
  have within := start_le wellformed found
  have length := length_contents records starts
  have before := offset_le within (Nat.le_refl _)
  refine ⟨⟨onBlock.data, onBlock.restarts, onBlock.numRestarts, onBlock.status⟩, within, ?_, ?_,
    ⟨start, found, Nat.le_refl _⟩⟩
  · simp only [nextEntryOffset, BlockIter.seekToRestartPoint, onBlock.getRestartPoint small found within]
    omega
  · intro r record
    have whole := wellformed.restart (List.mem_of_getElem? found) record
    simp [Record.Follows, whole]

include wellformed small in
theorem At.ready (pos : At records starts it i) (inside : i < records.length) : Ready records starts it (i + 1) := by
  have found := List.getElem?_eq_getElem inside
  have on := pos.on found
  have length := length_contents records starts
  have within : offset records (i + 1) ≤ offset records records.length := offset_le inside (Nat.le_refl _)
  refine ⟨pos.onBlock, inside, ?_, ?_, ?_⟩
  · rw [nextEntryOffset, on.valueEnd, Nat.mod_eq_of_lt (by omega)]
  · intro r next
    rw [on.key, ← keyBefore_succ found]
    exact wellformed.follows next
  · obtain ⟨start, region, below⟩ := on.region
    exact ⟨start, region, Nat.le_succ_of_le below⟩

include wellformed small in
/-- From record `i` on, the loop comes to the first record that stops it, or to the end. -/
theorem Ready.parseUntil (fuel : Nat) {stop : BlockIter → Bool} {stops : Nat → Prop}
    (ready : Ready records starts it i) (enough : records.length < i + fuel)
    (same : ∀ {it j}, At records starts it j → j < records.length → (stop it = true ↔ stops j)) :
    ∃ j, At records starts (it.parseUntil stop fuel) j ∧ i ≤ j ∧ (∀ k, i ≤ k → k < j → ¬ stops k) ∧
      (j < records.length → stops j) := by
  induction fuel generalizing it i with
  | zero =>
    have := ready.le
    omega
  | succ fuel ih =>
    rcases Nat.eq_or_lt_of_le ready.le with rfl | inside
    · obtain ⟨done, pos⟩ := ready.onBlock.parse_end ready.next
      rw [BlockIter.parseUntil]
      revert done pos
      rcases it.parseNextKey with ⟨more, it'⟩
      rintro rfl pos
      exact ⟨_, pos, Nat.le_refl _, fun k _ _ => by omega, fun h => absurd h (Nat.lt_irrefl _)⟩
    · obtain ⟨more, pos⟩ := ready.parse wellformed small (List.getElem?_eq_getElem inside)
      rw [BlockIter.parseUntil]
      revert more pos
      rcases it.parseNextKey with ⟨more, it'⟩
      rintro rfl pos
      have decided := same pos inside
      dsimp only at pos decided ⊢
      split
      · next stopped =>
        exact ⟨i, pos, Nat.le_refl _, fun k _ _ => by omega, fun _ => decided.mp stopped⟩
      · next go =>
        obtain ⟨j, last, after, passed, stopped⟩ := ih (pos.ready wellformed small inside) (by omega)
        refine ⟨j, last, Nat.le_of_succ_le after, fun k low high => ?_, stopped⟩
        rcases Nat.eq_or_lt_of_le low with rfl | low
        · exact fun yes => go (decided.mpr yes)
        · exact passed k low high

include wellformed small in
theorem Ready.next_at (ready : Ready records starts it i) : At records starts it.parseNextKey.2 i := by
  rcases Nat.eq_or_lt_of_le ready.le with rfl | inside
  · exact (ready.onBlock.parse_end ready.next).2
  · exact (ready.parse wellformed small (List.getElem?_eq_getElem inside)).2

/-- Every record takes at least one byte. -/
theorem length_le_restarts (onBlock : Over records starts it) : records.length ≤ it.restarts := by
  have grows : ∀ i ≤ records.length, i ≤ offset records i := by
    intro i
    induction i with
    | zero => exact fun _ => Nat.zero_le _
    | succ i ih =>
      intro inside
      have := ih (by omega)
      have := offset_lt (show i < i + 1 by omega) inside
      omega
  rw [onBlock.restarts]
  exact grows _ (Nat.le_refl _)

include wellformed small in
theorem Over.seekToFirst (onBlock : Over records starts it) : At records starts it.seekToFirst 0 :=
  (onBlock.seekToRestartPoint wellformed small wellformed.first).next_at wellformed small

include wellformed small in
theorem Over.seekToLast (onBlock : Over records starts it) : At records starts it.seekToLast (records.length - 1) := by
  obtain ⟨positive, _⟩ := List.getElem?_eq_some_iff.mp wellformed.first
  have found : starts[it.numRestarts - 1]? = some starts[starts.length - 1] := by
    rw [onBlock.numRestarts, List.getElem?_eq_getElem]
  have ready := onBlock.seekToRestartPoint wellformed small found
  have many := length_le_restarts onBlock
  have same : ∀ {it j}, At records starts it j → j < records.length →
      (decide (¬ it.nextEntryOffset < it.restarts) = true ↔ j + 1 = records.length) := by
    intro it j pos inside
    have next := (pos.ready wellformed small inside).next
    rw [decide_eq_true_iff, next, pos.onBlock.restarts, offset_lt_iff inside (Nat.le_refl _)]
    omega
  obtain ⟨j, pos, after, passed, stopped⟩ := ready.parseUntil wellformed small (it.restarts + 1) (by omega) same
  have before := pos.le
  have last : j = records.length - 1 := by
    rcases Nat.eq_or_lt_of_le before with rfl | inside
    · rcases Nat.eq_zero_or_pos records.length with none | some
      · omega
      · -- the last record stops the loop before the end is reached
        have earlier := passed (records.length - 1)
        have start := wellformed.inside (List.mem_of_getElem? found)
        omega
    · have := stopped inside
      omega
  rw [← last]
  exact pos

include wellformed small in
theorem Over.restartBefore_spec (onBlock : Over records starts it) (le : i ≤ records.length) {k : Nat}
    (present : k < starts.length) :
    (it.restartBefore (offset records i) k = none ∧ i = 0) ∨
      ∃ k' start, it.restartBefore (offset records i) k = some k' ∧ starts[k']? = some start ∧ start < i := by
  induction k with
  | zero =>
    have point := onBlock.getRestartPoint small wellformed.first (Nat.zero_le _)
    rw [restartBefore, point]
    split
    · next late =>
      have early := mt (offset_lt_iff (Nat.zero_le _) le).mpr (Nat.not_lt.mpr late)
      exact Or.inl ⟨rfl, by omega⟩
    · next early =>
      exact Or.inr ⟨0, 0, rfl, wellformed.first, (offset_lt_iff (Nat.zero_le _) le).mp (Nat.not_le.mp early)⟩
  | succ k ih =>
    have found := List.getElem?_eq_getElem present
    have within := start_le wellformed found
    have point := onBlock.getRestartPoint small found within
    rw [restartBefore, point]
    split
    · exact ih (by omega)
    · next early => exact Or.inr ⟨k + 1, _, rfl, found, (offset_lt_iff within le).mp (Nat.not_le.mp early)⟩

include wellformed small in
theorem At.prev (pos : At records starts it i) (inside : i < records.length) :
    At records starts it.prev (if i = 0 then records.length else i - 1) := by
  have on := pos.on (List.getElem?_eq_getElem inside)
  obtain ⟨start, region, _⟩ := on.region
  have onBlock := pos.onBlock
  rw [BlockIter.prev]
  simp only [on.current]
  obtain ⟨none, first⟩ | ⟨k, start', found, point, earlier⟩ :=
    onBlock.restartBefore_spec wellformed small pos.le (List.getElem?_eq_some_iff.mp region).1
  · rw [none, if_pos first]
    exact ⟨⟨onBlock.data, onBlock.restarts, onBlock.numRestarts, onBlock.status⟩, Nat.le_refl _, by simp, fun _ => rfl⟩
  · rw [found, if_neg (by omega)]
    have same : ∀ {it j}, At records starts it j → j < records.length →
        (decide (¬ it.nextEntryOffset < offset records i) = true ↔ i ≤ j + 1) := by
      intro it j pos' inside'
      have next := (pos'.ready wellformed small inside').next
      rw [decide_eq_true_iff, next, offset_lt_iff inside' pos.le]
      omega
    have many := length_le_restarts onBlock
    obtain ⟨j, last, after, passed, stopped⟩ :=
      (onBlock.seekToRestartPoint wellformed small point).parseUntil wellformed
      small (it.restarts + 1) (by omega) same
    have previous : j = i - 1 := by
      have before := passed (i - 1) (by omega)
      rcases Nat.eq_or_lt_of_le last.le with rfl | inside'
      · exact absurd (by omega) (before (by omega))
      · have := stopped inside'
        by_contra other
        exact before (by omega) (by omega)
    rw [← previous]
    exact last

section Seek

variable {c : Comparator} (trans : Std.TransCmp c.compare)
  (sorted : (records.map Record.key).Pairwise fun a b => c.compare a b = .lt) {target : List Byte}

def Before (records : List Record) (starts : List Nat) (c : Comparator) (target : List Byte) (k : Nat) : Prop :=
  ∃ start, starts[k]? = some start ∧ (start = 0 ∨ ∃ r, records[start]? = some r ∧ c.compare r.key target = .lt)

include wellformed small in
theorem Over.bisect_spec (onBlock : Over records starts it) (fuel : Nat) {left right : Nat}
    (before : Before records starts c target left) (present : right < starts.length) :
    ∃ k, bisect c it target fuel left right = some k ∧ Before records starts c target k := by
  induction fuel generalizing left right with
  | zero => exact ⟨left, rfl, before⟩
  | succ fuel ih =>
    rw [bisect]
    split
    · next go =>
      have length := length_contents records starts
      have wide : (left + right + 1) % 2 ^ 32 = left + right + 1 := Nat.mod_eq_of_lt (by omega)
      have found := List.getElem?_eq_getElem (show (left + right + 1) / 2 < starts.length by omega)
      have within := start_le wellformed found
      -- a later restart point is at a record, and holds the whole key
      have later : 0 < starts[(left + right + 1) / 2] := by
        obtain ⟨first, zero⟩ := List.getElem?_eq_some_iff.mp wellformed.first
        have := List.pairwise_iff_getElem.mp wellformed.increasing 0 _ first (by omega)
          (show 0 < (left + right + 1) / 2 by omega)
        omega
      have inside : starts[(left + right + 1) / 2] < records.length := by
        have := wellformed.inside (List.mem_of_getElem? found)
        omega
      have record := List.getElem?_eq_getElem inside
      have whole := wellformed.restart (List.mem_of_getElem? found) record
      obtain ⟨head, decoded, shared, _, _, delta⟩ := onBlock.decode wellformed small record
      simp only [wide, onBlock.getRestartPoint small found within, decoded, shared, whole, ne_eq, not_true, if_false,
        delta, List.drop_zero]
      split
      · next below => exact ih ⟨_, found, Or.inr ⟨_, record, below⟩⟩ present
      · exact ih before (by omega)
    · exact ⟨left, rfl, before⟩

include sorted in
theorem key_lt {j k : Nat} {r r' : Record} (found : records[j]? = some r) (found' : records[k]? = some r')
    (before : j < k) : c.compare r.key r'.key = .lt := by
  obtain ⟨inside, rfl⟩ := List.getElem?_eq_some_iff.mp found
  obtain ⟨inside', rfl⟩ := List.getElem?_eq_some_iff.mp found'
  have order := List.pairwise_iff_getElem.mp sorted j k (by simpa using inside) (by simpa using inside') before
  simpa only [List.getElem_map] using order

include trans sorted in
/-- The records before one that is below the target are below it. -/
theorem below_of_le {j k : Nat} {r r' : Record} (found : records[k]? = some r) (below : c.compare r.key target = .lt)
    (found' : records[j]? = some r') (le : j ≤ k) : c.compare r'.key target = .lt := by
  rcases Nat.eq_or_lt_of_le le with rfl | before
  · obtain rfl : r = r' := Option.some.inj (found.symm.trans found')
    exact below
  · exact trans.lt_trans (key_lt sorted found' found before) below

include wellformed small in
/-- The linear search from a position all of whose earlier records are below the target. -/
theorem Ready.search (ready : Ready records starts it i)
    (below : ∀ j r, records[j]? = some r → j < i → c.compare r.key target = .lt) {fuel : Nat}
    (enough : records.length < i + fuel) :
    At records starts (it.parseUntil (fun it => ¬ c.compare it.key target = .lt) fuel)
      (Cursors.lowerBound c.compare (records.map Record.entry) target) := by
  have same : ∀ {it j}, At records starts it j → j < records.length →
      (decide (¬ c.compare it.key target = .lt) = true ↔ ∀ r, records[j]? = some r →
      ¬ c.compare r.key target = .lt) := by
    intro it j pos inside
    have found := List.getElem?_eq_getElem inside
    rw [decide_eq_true_iff, (pos.on found).key, found]
    simp
  obtain ⟨j, last, after, passed, stopped⟩ := ready.parseUntil wellformed small fuel enough same
  have least : Cursors.lowerBound c.compare (records.map Record.entry) target = j := by
    refine Cursors.lowerBound_eq (by simpa using last.le) ?_ ?_
    · intro k e found before
      rw [List.getElem?_map, Option.map_eq_some_iff] at found
      obtain ⟨r, record, rfl⟩ := found
      rcases Nat.lt_or_ge k i with early | late
      · exact below k r record early
      · by_contra above
        exact passed k late before fun r' record' => Option.some.inj (record.symm.trans record') ▸ above
    · intro e found
      rw [List.getElem?_map, Option.map_eq_some_iff] at found
      obtain ⟨r, record, rfl⟩ := found
      exact stopped (List.getElem?_eq_some_iff.mp record).1 r record
  rw [least]
  exact last

include wellformed small trans sorted in
theorem At.seek (pos : At records starts it i) (target : List Byte) :
    At records starts (it.seek c target) (Cursors.lowerBound c.compare (records.map Record.entry) target) := by
  have onBlock := pos.onBlock
  have many := length_le_restarts onBlock
  obtain ⟨positive, _⟩ := List.getElem?_eq_some_iff.mp wellformed.first
  have start : Before records starts c target 0 := ⟨0, wellformed.first, Or.inl rfl⟩
  -- from a restart point found by bisection
  have restarted : ∀ k, Before records starts c target k →
      At records starts ((it.seekToRestartPoint k).parseUntil (fun it => ¬ c.compare it.key target = .lt)
        (it.restarts + 1)) (Cursors.lowerBound c.compare (records.map Record.entry) target) := by
    rintro k ⟨start, found, first | ⟨r, record, below⟩⟩
    · exact (onBlock.seekToRestartPoint wellformed small found).search wellformed small
        (fun j r _ before => by omega) (by omega)
    · exact (onBlock.seekToRestartPoint wellformed small found).search wellformed small
        (fun j r' record' before => below_of_le trans sorted record below record' (Nat.le_of_lt before)) (by omega)
  rw [BlockIter.seek]
  rcases Nat.eq_or_lt_of_le pos.le with rfl | inside
  · have invalid : it.valid = false := by simp [valid, pos.off rfl]
    obtain ⟨k, found, before⟩ := onBlock.bisect_spec wellformed small it.numRestarts start
      (show it.numRestarts - 1 < starts.length by rw [onBlock.numRestarts]; omega)
    simp only [invalid, Bool.false_eq_true, if_false, false_and, reduceCtorEq, found, and_false]
    exact restarted k before
  · have record := List.getElem?_eq_getElem inside
    have on := pos.on record
    obtain ⟨region, point, behind⟩ := on.region
    have within : it.restartIndex < starts.length := (List.getElem?_eq_some_iff.mp point).1
    have current : it.valid = true := by
      have := offset_lt inside (Nat.le_refl _)
      simpa [valid, on.current, onBlock.restarts] using this
    simp only [current, if_true, true_and]
    cases order : c.compare it.key target with
    | eq =>
      have here : Cursors.lowerBound c.compare (records.map Record.entry) target = i := by
        refine Cursors.lowerBound_eq (by simpa using pos.le) ?_ ?_
        · intro j e found before
          rw [List.getElem?_map, Option.map_eq_some_iff] at found
          obtain ⟨r, record', rfl⟩ := found
          have earlier := key_lt sorted record' record before
          rw [← on.key] at earlier
          exact trans.lt_of_lt_of_eq earlier order
        · intro e found
          rw [List.getElem?_map, record] at found
          cases found
          simp [Record.entry, ← on.key, order]
      simp only [if_true]
      rw [here]
      exact pos
    | lt =>
      have left : Before records starts c target it.restartIndex := by
        refine ⟨region, point, Or.inr ⟨_, List.getElem?_eq_getElem (by omega), ?_⟩⟩
        exact below_of_le trans sorted record (on.key ▸ order) (List.getElem?_eq_getElem (by omega)) behind
      obtain ⟨k, found, before⟩ := onBlock.bisect_spec wellformed small it.numRestarts left
        (show it.numRestarts - 1 < starts.length by rw [onBlock.numRestarts]; omega)
      simp only [reduceCtorEq, if_false, if_true, found, and_true]
      split
      · exact (pos.ready wellformed small inside).search wellformed small (fun j r' record' before =>
          below_of_le trans sorted record (on.key ▸ order) record' (Nat.le_of_lt_succ before)) (by omega)
      · exact restarted k before
    | gt =>
      obtain ⟨k, found, before⟩ := onBlock.bisect_spec wellformed small it.numRestarts start within
      simp only [reduceCtorEq, if_false, if_true, found, and_false]
      exact restarted k before

end Seek

theorem At.shown (pos : At records starts it i) (c : Comparator) :
    (iterator c).iter.shown it = (records.map Record.entry)[i]? := by
  rw [List.getElem?_map]
  rcases Nat.eq_or_lt_of_le pos.le with rfl | inside
  · simp [Cursors.Iter.shown, Iterator.iter, iterator, valid, pos.off rfl]
  · have found := List.getElem?_eq_getElem inside
    have on := pos.on found
    have current : it.valid = true := by
      have := offset_lt inside (Nat.le_refl _)
      simpa [valid, on.current, pos.onBlock.restarts] using this
    have value : it.valueSlice = records[i].value := by
      obtain ⟨tail, delta⟩ := drop_delta starts found
      have follows := offset_succ found
      have whole : records[i].key.length - records[i].shared + records[i].value.length ≤ records[i].bytes.length := by
        simp only [Record.bytes, List.length_append, List.length_drop]
        omega
      have valueEnd := on.valueEnd
      have start : it.value.1 = offset records (i + 1) -
          (records[i].key.length - records[i].shared + records[i].value.length) +
            (records[i].key.drop records[i].shared).length := by
        rw [List.length_drop]
        rw [on.valueSize] at valueEnd
        omega
      rw [valueSlice, start, ← List.drop_drop, pos.onBlock.data, delta, List.append_assoc, List.drop_left, on.valueSize,
        List.take_left]
    simp only [Cursors.Iter.shown, Iterator.iter, iterator, current, if_true, on.key, value, found,
      Option.map_some, Record.entry]

include wellformed small in
theorem simulates {c : Comparator} (trans : Std.TransCmp c.compare)
    (sorted : (records.map Record.key).Pairwise fun a b => c.compare a b = .lt) :
    Cursors.Simulates (iterator c).iter c.compare (records.map Record.entry) (At records starts) where
  le pos := by simpa using pos.le
  shown pos := pos.shown c
  ok pos := by simp [Iterator.iter, iterator, pos.onBlock.status]
  step {it i} call pos allowed := by
    rw [List.length_map] at allowed
    cases call with
    | seekToFirst => exact pos.onBlock.seekToFirst wellformed small
    | seekToLast =>
      rw [Cursors.move, List.length_map]
      exact pos.onBlock.seekToLast wellformed small
    | seek target => exact pos.seek wellformed small trans sorted target
    | next => exact (pos.ready wellformed small allowed).next_at wellformed small
    | prev =>
      rw [Cursors.move, List.length_map]
      exact pos.prev wellformed small allowed

end Steps

end BlockIter

namespace Block

open BlockLayout BlockIter

variable {records : List Record} {starts : List Nat}

theorem newIterator_contents (wellformed : Wellformed records starts)
    (small : (contents records starts).length < 2 ^ 32) : ∃ it,
      (Block.ofContents (contents records starts)).newIterator = .ok it ∧ At records starts it records.length := by
  have length := length_contents records starts
  obtain ⟨positive, _⟩ := List.getElem?_eq_some_iff.mp wellformed.first
  have number : decodeFixed32 (contents records starts) ((contents records starts).length - 4) = starts.length := by
    have read := decodeFixed32_encode (v := starts.length) (by omega)
      ((records.map Record.bytes).flatten ++ (starts.map (offset records)).flatMap encodeFixed32) []
    rw [List.append_nil, ← contents] at read
    have front := congrArg List.length (contents.eq_def records starts)
    rw [List.length_append, length_encodeFixed32] at front
    rw [front, Nat.add_sub_cancel, read]
  have block : Block.ofContents (contents records starts) =
      ⟨contents records starts, (contents records starts).length, offset records records.length⟩ := by
    simp only [ofContents, numRestarts, number]
    rw [if_neg (by omega), if_neg (by omega), Nat.mod_eq_of_lt (show 1 + starts.length < 2 ^ 32 by omega)]
    congr 1
    omega
  rw [block]
  simp only [newIterator, numRestarts, number]
  rw [if_neg (by omega), if_neg (by omega)]
  exact ⟨_, rfl, ⟨rfl, rfl, rfl, rfl⟩, Nat.le_refl _, by simp, fun _ => rfl⟩

/-- What a builder's block holds, and the iterator over it before any entry. -/
theorem newIterator_addAll {restartInterval : Nat} (positive : 0 < restartInterval)
    (entries : List (List Byte × List Byte))
    (small : (BlockBuilder.addAll restartInterval entries).finish.buffer.length < 2 ^ 32) :
    ∃ records starts it, records.map Record.entry = entries ∧ Wellformed records starts ∧
      (contents records starts).length < 2 ^ 32 ∧
      (Block.ofContents (BlockBuilder.addAll restartInterval entries).finish.buffer).newIterator = .ok it ∧
      At records starts it entries.length := by
  obtain ⟨records, starts, writes, same⟩ := BlockBuilder.addAll_writes positive entries
  have written := writes.finish small
  rw [written] at small ⊢
  obtain ⟨it, made, pos⟩ := newIterator_contents writes.wellformed small
  exact ⟨records, starts, it, same, writes.wellformed, small, made, by rw [← same, List.length_map]; exact pos⟩

theorem simulates_addAll {c : Comparator} (trans : Std.TransCmp c.compare) {restartInterval : Nat}
    (positive : 0 < restartInterval) {entries : List (List Byte × List Byte)}
    (sorted : (entries.map Prod.fst).Pairwise fun a b => c.compare a b = .lt)
    (small : (BlockBuilder.addAll restartInterval entries).finish.buffer.length < 2 ^ 32) :
    ∃ it pos, (Block.ofContents (BlockBuilder.addAll restartInterval entries).finish.buffer).newIterator = .ok it ∧
      Cursors.Simulates (BlockIter.iterator c).iter c.compare entries pos ∧ pos it entries.length := by
  obtain ⟨records, starts, it, rfl, wellformed, small, made, pos⟩ := newIterator_addAll positive entries small
  refine ⟨it, _, made, simulates wellformed small trans ?_, pos⟩
  rw [List.map_map] at sorted
  exact sorted

/-- The iterator over a block of the builder goes through the added entries, forwards
and backwards, and finds the first one not below a target, from wherever it is. -/
theorem iterator_run {c : Comparator} (trans : Std.TransCmp c.compare) {restartInterval : Nat}
    (positive : 0 < restartInterval) {entries : List (List Byte × List Byte)}
    (sorted : (entries.map Prod.fst).Pairwise fun a b => c.compare a b = .lt)
    (small : (BlockBuilder.addAll restartInterval entries).finish.buffer.length < 2 ^ 32) :
    ∃ it, (Block.ofContents (BlockBuilder.addAll restartInterval entries).finish.buffer).newIterator = .ok it ∧
      ∀ calls, Cursors.AllowedAll c.compare entries calls entries.length →
        let it' := calls.foldl (fun it call => it.call c call) it
        it'.status = .ok ∧ (BlockIter.iterator c).iter.shown it' =
          entries[calls.foldl (fun i call => Cursors.move c.compare entries call i) entries.length]? := by
  obtain ⟨it, pos, made, sim, start⟩ := simulates_addAll trans positive sorted small
  refine ⟨it, made, fun calls allowed => ?_⟩
  have reached := sim.run calls start allowed
  exact ⟨of_decide_eq_true (sim.ok reached), sim.shown reached⟩

theorem iterator_run_two :
    let entries : List (List Byte × List Byte) := [([97#8], [1#8]), ([98#8], [2#8])]
    ∃ it, (Block.ofContents (BlockBuilder.addAll 16 entries).finish.buffer).newIterator = .ok it ∧
      (BlockIter.iterator bytewiseComparator).iter.shown
      ((it.call bytewiseComparator .seekToLast).call bytewiseComparator .prev) =
        some ([97#8], [1#8]) := by
  intro entries
  obtain ⟨it, made, run⟩ := iterator_run (c := bytewiseComparator) BytewiseComparator.lawful.trans
    (by decide : 0 < 16) (by decide : (entries.map Prod.fst).Pairwise fun a b => bytewiseComparator.compare a b = .lt)
    (by decide +kernel)
  exact ⟨it, made, (run [.seekToLast, .prev] (by decide)).2⟩

end Block

end WormholeFilters.LevelDb
