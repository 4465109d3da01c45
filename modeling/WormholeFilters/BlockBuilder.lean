import WormholeFilters.Coding
import WormholeFilters.Comparators
import WormholeFilters.Segments
import Mathlib.Data.List.Flatten
import Mathlib.Data.List.Induction

/-! table/block_builder.cc: keys with the prefix they share with the key before left out,
except at the restart points, whose offsets follow the entries. -/
namespace WormholeFilters.LevelDb

open LittleEndian

structure BlockBuilder where
  buffer : List Byte
  restarts : List Nat
  counter : Nat
  finished : Bool
  lastKey : List Byte
  deriving DecidableEq, Repr

namespace BlockBuilder

def empty : BlockBuilder := ⟨[], [0], 0, false, []⟩

def reset (_ : BlockBuilder) : BlockBuilder := empty

def currentSizeEstimate (b : BlockBuilder) : Nat := b.buffer.length + b.restarts.length * 4 + 4

def finish (b : BlockBuilder) : BlockBuilder :=
  let buffer := b.restarts.foldl putFixed32 b.buffer
  { b with buffer := putFixed32 buffer (b.restarts.length % 2 ^ 32), finished := true }

/-- The restart, if one is due, then the entry. Asserts that the block is not finished and the key is larger. -/
def add (restartInterval : Nat) (b : BlockBuilder) (key value : List Byte) : BlockBuilder :=
  let shared := if b.counter < restartInterval then sharedPrefix b.lastKey key else 0
  let restarts := if b.counter < restartInterval then b.restarts else b.restarts ++ [b.buffer.length % 2 ^ 32]
  let counter := if b.counter < restartInterval then b.counter else 0
  let nonShared := key.length - shared
  let buffer := putVarint32 (putVarint32 (putVarint32 b.buffer (shared % 2 ^ 32)) (nonShared % 2 ^ 32))
    (value.length % 2 ^ 32)
  { buffer := buffer ++ key.drop shared ++ value
    restarts := restarts
    counter := counter + 1
    finished := b.finished
    lastKey := b.lastKey.take shared ++ key.drop shared }

def addAll (restartInterval : Nat) (entries : List (List Byte × List Byte)) : BlockBuilder :=
  entries.foldl (fun b e => b.add restartInterval e.1 e.2) empty

end BlockBuilder

structure Record where
  shared : Nat
  key : List Byte
  value : List Byte
  deriving DecidableEq, Repr

def Record.entry (r : Record) : List Byte × List Byte := (r.key, r.value)

def Record.bytes (r : Record) : List Byte :=
  encodeVarint32 (r.shared % 2 ^ 32) ++ encodeVarint32 ((r.key.length - r.shared) % 2 ^ 32) ++
    encodeVarint32 (r.value.length % 2 ^ 32) ++ r.key.drop r.shared ++ r.value

/-- What a record leaves out is found at the start of the key before it. -/
def Record.Follows (last : List Byte) (r : Record) : Prop :=
  r.shared ≤ last.length ∧ r.shared ≤ r.key.length ∧ last.take r.shared = r.key.take r.shared

namespace BlockLayout

def offset (records : List Record) (i : Nat) : Nat := ((records.map Record.bytes).take i).flatten.length

def lastKey (records : List Record) : List Byte := (records.getLast?.map Record.key).getD []

def keyBefore (records : List Record) (i : Nat) : List Byte := lastKey (records.take i)

structure Wellformed (records : List Record) (starts : List Nat) : Prop where
  follows {i : Nat} {r : Record} : records[i]? = some r → r.Follows (keyBefore records i)
  first : starts[0]? = some 0
  increasing : starts.Pairwise (· < ·)
  inside {i : Nat} : i ∈ starts → i = 0 ∨ i < records.length
  restart {i : Nat} {r : Record} : i ∈ starts → records[i]? = some r → r.shared = 0

def contents (records : List Record) (starts : List Nat) : List Byte :=
  (records.map Record.bytes).flatten ++ (starts.map (offset records)).flatMap encodeFixed32 ++
    encodeFixed32 starts.length

end BlockLayout

namespace BlockBuilder

open BlockLayout

structure Writes (b : BlockBuilder) (records : List Record) (starts : List Nat) : Prop where
  wellformed : Wellformed records starts
  buffer : b.buffer = (records.map Record.bytes).flatten
  restarts : b.restarts = starts.map fun i => offset records i % 2 ^ 32
  lastKey : b.lastKey = BlockLayout.lastKey records
  counter : records = [] → b.counter = 0

section Steps

variable {b : BlockBuilder} {records : List Record} {starts : List Nat}

theorem empty_writes : Writes empty [] [0] := by
  refine ⟨⟨by simp, rfl, by simp, by simp, by simp⟩, rfl, ?_, rfl, fun _ => rfl⟩
  simp [empty, offset]

theorem offset_append {i : Nat} (inside : i ≤ records.length) (r : Record) :
    offset (records ++ [r]) i = offset records i := by
  rw [offset, offset, List.map_append, List.take_append_of_le_length (by simpa using inside)]

theorem offset_length (records : List Record) :
    offset records records.length = (records.map Record.bytes).flatten.length := by
  rw [offset, List.take_of_length_le (by simp)]

theorem keyBefore_append {i : Nat} (inside : i ≤ records.length) (r : Record) :
    keyBefore (records ++ [r]) i = keyBefore records i := by
  rw [keyBefore, keyBefore, List.take_append_of_le_length inside]

theorem lastKey_append (records : List Record) (r : Record) : BlockLayout.lastKey (records ++ [r]) = r.key := by
  simp [BlockLayout.lastKey]

theorem Wellformed.append (wellformed : Wellformed records starts) {r : Record}
    (follows : r.Follows (BlockLayout.lastKey records)) : Wellformed (records ++ [r]) starts where
  follows {i r'} found := by
    rcases Nat.lt_or_ge i records.length with old | new
    · rw [List.getElem?_append_left old] at found
      rw [keyBefore_append (Nat.le_of_lt old)]
      exact wellformed.follows found
    · rw [List.getElem?_append_right new, List.getElem?_singleton] at found
      split at found
      · next last =>
        cases found
        rwa [keyBefore_append (by omega), keyBefore, List.take_of_length_le new]
      · cases found
  first := wellformed.first
  increasing := wellformed.increasing
  inside {i} member := by
    have old := wellformed.inside member
    rw [List.length_append]
    omega
  restart {i r'} member found := by
    rcases Nat.lt_or_ge i records.length with old | new
    · rw [List.getElem?_append_left old] at found
      exact wellformed.restart member found
    · rw [List.getElem?_append_right new, List.getElem?_singleton] at found
      split at found
      · next last =>
        cases found
        -- only the first restart point can be behind the records, and nothing is before it
        have none : records.length = 0 := by
          have := wellformed.inside member
          omega
        have shared := follows.1
        rw [List.length_eq_zero_iff.mp none] at shared
        exact Nat.le_zero.mp shared
      · cases found

theorem Wellformed.append_start (wellformed : Wellformed records starts) {r : Record} (whole : r.shared = 0)
    (nonempty : records ≠ []) : Wellformed (records ++ [r]) (starts ++ [records.length]) := by
  have appended := Wellformed.append wellformed (r := r) (by simp [Record.Follows, whole])
  have positive := List.length_pos_of_ne_nil nonempty
  refine ⟨appended.follows, ?_, ?_, ?_, ?_⟩
  · obtain ⟨present, _⟩ := List.getElem?_eq_some_iff.mp wellformed.first
    rw [List.getElem?_append_left present, wellformed.first]
  · rw [List.pairwise_append]
    refine ⟨wellformed.increasing, by simp, ?_⟩
    intro i member j last
    rw [List.mem_singleton.mp last]
    have := wellformed.inside member
    omega
  · intro i member
    rcases List.mem_append.mp member with old | last
    · exact appended.inside old
    · rw [List.mem_singleton.mp last]
      exact Or.inr (by simp)
  · intro i r' member found
    rcases List.mem_append.mp member with old | last
    · exact appended.restart old found
    · rw [List.mem_singleton.mp last, List.getElem?_append_right (Nat.le_refl _), Nat.sub_self] at found
      cases found
      exact whole

theorem Writes.restarts_append (writes : Writes b records starts) (r : Record) :
    b.restarts = starts.map fun i => offset (records ++ [r]) i % 2 ^ 32 := by
  rw [writes.restarts]
  refine List.map_congr_left fun i member => ?_
  have := writes.wellformed.inside member
  rw [offset_append (by omega)]

/-- One entry more, with a restart point before it or with a shared prefix left out. -/
theorem Writes.add {restartInterval : Nat} (positive : 0 < restartInterval) (writes : Writes b records starts)
    (key value : List Byte) : ∃ shared starts',
      Writes (b.add restartInterval key value) (records ++ [⟨shared, key, value⟩]) starts' := by
  by_cases share : b.counter < restartInterval
  · have common := take_sharedPrefix b.lastKey key
    have short := sharedPrefix_le_left b.lastKey key
    have follows : Record.Follows (BlockLayout.lastKey records) ⟨sharedPrefix b.lastKey key, key, value⟩ := by
      rw [← writes.lastKey]
      refine ⟨short, ?_, common⟩
      have lengths := congrArg List.length common
      rw [List.length_take, List.length_take] at lengths
      change sharedPrefix b.lastKey key ≤ key.length
      omega
    refine ⟨_, starts, Wellformed.append writes.wellformed follows, ?_, ?_, ?_, by simp⟩
    · simp [BlockBuilder.add, share, writes.buffer, putVarint32, Record.bytes]
    · rw [← writes.restarts_append]
      simp [BlockBuilder.add, share]
    · simp only [BlockBuilder.add, if_pos share]
      rw [common, List.take_append_drop, lastKey_append]
  · have nonempty : records ≠ [] := fun none => share (writes.counter none ▸ positive)
    refine ⟨0, starts ++ [records.length], Wellformed.append_start writes.wellformed rfl nonempty, ?_, ?_, ?_, by simp⟩
    · simp [BlockBuilder.add, share, writes.buffer, putVarint32, Record.bytes]
    · rw [List.map_append, ← writes.restarts_append, List.map_singleton, offset_append (Nat.le_refl _), offset_length,
        ← writes.buffer]
      simp [BlockBuilder.add, share]
    · simp [BlockBuilder.add, share, lastKey_append]

theorem addAll_writes {restartInterval : Nat} (positive : 0 < restartInterval)
    (entries : List (List Byte × List Byte)) : ∃ records starts,
      Writes (addAll restartInterval entries) records starts ∧ records.map Record.entry = entries := by
  induction entries using List.reverseRecOn with
  | nil => exact ⟨[], [0], empty_writes, rfl⟩
  | append_singleton entries e ih =>
    obtain ⟨records, starts, writes, same⟩ := ih
    obtain ⟨shared, starts', added⟩ := writes.add positive e.1 e.2
    rw [addAll, List.foldl_append]
    exact ⟨_, starts', added, by rw [List.map_append, same]; rfl⟩

theorem foldl_putFixed32 (restarts : List Nat) (buffer : List Byte) :
    restarts.foldl putFixed32 buffer = buffer ++ restarts.flatMap encodeFixed32 := by
  induction restarts generalizing buffer with
  | nil => simp
  | cons r restarts ih => rw [List.foldl_cons, ih, putFixed32, List.flatMap_cons, List.append_assoc]

theorem Writes.length_finish (writes : Writes b records starts) :
    b.finish.buffer.length = (contents records starts).length := by
  simp only [BlockBuilder.finish, foldl_putFixed32, putFixed32, contents, funext encodeFixed32_eq, List.length_append,
    length_flatMap_encode, List.length_map, writes.restarts, writes.buffer, length_encode]

/-- The finished block, where 32 bits hold its offsets. -/
theorem Writes.finish (writes : Writes b records starts) (small : b.finish.buffer.length < 2 ^ 32) :
    b.finish.buffer = contents records starts := by
  rw [writes.length_finish] at small
  simp only [contents, funext encodeFixed32_eq, List.length_append, length_flatMap_encode, List.length_map] at small
  have offsets : b.restarts = starts.map (offset records) := by
    rw [writes.restarts]
    refine List.map_congr_left fun i member => Nat.mod_eq_of_lt ?_
    have before : offset records i ≤ (records.map Record.bytes).flatten.length :=
      (List.take_sublist i (records.map Record.bytes)).flatten.length_le
    omega
  simp only [BlockBuilder.finish, foldl_putFixed32, putFixed32, contents]
  rw [offsets, List.length_map, Nat.mod_eq_of_lt (by omega), writes.buffer]

theorem addAll_concat (restartInterval : Nat) (entries : List (List Byte × List Byte)) (key value : List Byte) :
    addAll restartInterval (entries ++ [(key, value)]) = (addAll restartInterval entries).add
      restartInterval key value := by
  rw [addAll, List.foldl_append]
  rfl

def sizeBound (entries : List (List Byte × List Byte)) : Nat :=
  (entries.map fun e => e.1.length + e.2.length + 19).sum + 8

theorem length_add_le (restartInterval : Nat) (b : BlockBuilder) (key value : List Byte) :
    b.buffer.length < (b.add restartInterval key value).buffer.length ∧
      (b.add restartInterval key value).buffer.length ≤ b.buffer.length + (key.length + value.length + 15) ∧
      (b.add restartInterval key value).restarts.length ≤ b.restarts.length + 1 := by
  have small (n : Nat) := length_encodeVarint32_le (Nat.mod_lt n (show 2 ^ 32 > 0 by decide))
  have positive := length_encodeVarint32_pos
  simp only [add, putVarint32, List.length_append, List.length_drop]
  generalize (if b.counter < restartInterval then sharedPrefix b.lastKey key else 0) = shared
  have first := small shared
  have second := small (key.length - shared)
  have third := small value.length
  have fourth := positive (shared % 2 ^ 32)
  refine ⟨by omega, by omega, ?_⟩
  split <;> simp

theorem length_finish_addAll_le (restartInterval : Nat) (entries : List (List Byte × List Byte)) :
    (addAll restartInterval entries).finish.buffer.length ≤ sizeBound entries := by
  have parts : (addAll restartInterval entries).buffer.length +
      4 * (addAll restartInterval entries).restarts.length + 4 ≤ sizeBound entries := by
    induction entries using List.reverseRecOn with
    | nil => exact Nat.le_refl 8
    | append_singleton entries e ih =>
      have added := length_add_le restartInterval (addAll restartInterval entries) e.1 e.2
      rw [addAll_concat]
      simp only [sizeBound, List.map_append, List.sum_append, List.map_singleton, List.sum_singleton] at ih ⊢
      omega
  simp only [finish, foldl_putFixed32, putFixed32, funext encodeFixed32_eq, List.length_append, length_flatMap_encode,
    length_encode]
  exact parts

theorem buffer_addAll_eq_nil (restartInterval : Nat) (entries : List (List Byte × List Byte)) :
    (addAll restartInterval entries).buffer = [] ↔ entries = [] := by
  induction entries using List.reverseRecOn with
  | nil => exact iff_of_true rfl rfl
  | append_singleton entries e _ =>
    have longer := (length_add_le restartInterval (addAll restartInterval entries) e.1 e.2).1
    rw [addAll_concat]
    refine iff_of_false (fun none => ?_) (by simp)
    rw [none] at longer
    exact absurd longer (Nat.not_lt_zero _)

end Steps

end BlockBuilder

end WormholeFilters.LevelDb
