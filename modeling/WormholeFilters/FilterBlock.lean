import WormholeFilters.LevelDbAnswers
import WormholeFilters.Segments

/-! The filter block of a table, `table/filter_block.cc`: one filter for each 2 KB range
of block offsets, the offsets of the filters behind them. -/
namespace WormholeFilters.LevelDb

open LittleEndian RingTable Segments

structure FilterPolicy where
  createFilter : List (List Byte) → Int → List Byte → List Byte
  keyMayMatch : List Byte → List Byte → Option Bool

def wormholeFilterPolicy (signedChar : Bool) : FilterPolicy :=
  ⟨createFilter signedChar, keyMayMatch signedChar⟩

def wormholeFilterName : List Byte := "leveldb.BuiltinWormholeFilter2".toList.map fun c => BitVec.ofNat 8 c.toNat

def filterBaseLg : Nat := 11

def filterBase : Nat := 1 <<< filterBaseLg

/-- `static_cast<int>` of a `size_t`. -/
def toInt32 (n : Nat) : Int := (BitVec.ofNat 32 n).toInt

/-- `keys` and `start` hold the keys added since the last filter. -/
structure FilterBlockBuilder where
  keys : List Byte
  start : List Nat
  result : List Byte
  filterOffsets : List Nat
  deriving DecidableEq, Repr

namespace FilterBlockBuilder

def empty : FilterBlockBuilder := ⟨[], [], [], []⟩

variable (policy : FilterPolicy)

def generateFilter (b : FilterBlockBuilder) : FilterBlockBuilder :=
  let numKeys := b.start.length
  if numKeys = 0 then { b with filterOffsets := b.filterOffsets ++ [b.result.length % 2 ^ 32] }
  else
    let start := b.start ++ [b.keys.length]
    let tmpKeys := pieces b.keys start
    { keys := []
      start := []
      result := policy.createFilter tmpKeys (toInt32 numKeys) b.result
      filterOffsets := b.filterOffsets ++ [b.result.length % 2 ^ 32] }

@[simp] theorem length_generateFilter (b : FilterBlockBuilder) :
    (b.generateFilter policy).filterOffsets.length = b.filterOffsets.length + 1 := by
  rw [generateFilter]
  split <;> exact List.length_append

/-- The loop of `StartBlock`. -/
def generateFilters (filterIndex : Nat) (b : FilterBlockBuilder) : FilterBlockBuilder :=
  if filterIndex > b.filterOffsets.length then generateFilters filterIndex (b.generateFilter policy)
  else b
termination_by filterIndex - b.filterOffsets.length

def startBlock (b : FilterBlockBuilder) (blockOffset : Nat) : FilterBlockBuilder :=
  generateFilters policy (blockOffset / filterBase) b

def addKey (b : FilterBlockBuilder) (key : List Byte) : FilterBlockBuilder :=
  { b with start := b.start ++ [b.keys.length], keys := b.keys ++ key }

def finish (b : FilterBlockBuilder) : List Byte :=
  let b := if b.start.isEmpty then b else b.generateFilter policy
  let arrayOffset := b.result.length % 2 ^ 32
  b.result ++ b.filterOffsets.flatMap (encode 4) ++ encode 4 arrayOffset ++ [BitVec.ofNat 8 filterBaseLg]

def addBlock (b : FilterBlockBuilder) (block : Nat × List (List Byte)) : FilterBlockBuilder :=
  block.2.foldl addKey (b.startBlock policy block.1)

/-- The calls `(StartBlock AddKey*)* Finish` on a new builder. -/
def build (blocks : List (Nat × List (List Byte))) : List Byte :=
  finish policy (blocks.foldl (addBlock policy) empty)

end FilterBlockBuilder

/-- `offset` counts from the start of the data. -/
structure FilterBlockReader where
  data : List Byte
  offset : Nat
  num : Nat
  baseLg : Nat
  deriving DecidableEq, Repr

namespace FilterBlockReader

def ofContents (signedChar : Bool) (contents : List Byte) : FilterBlockReader :=
  let n := contents.length
  if n < 5 then ⟨[], 0, 0, 0⟩
  else
    let baseLg := (charToWord signedChar (contents[n - 1]?.getD 0#8)).toNat
    let lastWord := load contents (n - 5) 4
    if lastWord > n - 5 then ⟨[], 0, 0, baseLg⟩
    else ⟨contents, lastWord, (n - 5 - lastWord) / 4, baseLg⟩

/-- Without a value on a read outside the data and on a shift by 64 or more. -/
def keyMayMatch (policy : FilterPolicy) (r : FilterBlockReader) (blockOffset : Nat) (key : List Byte) :
    Option Bool :=
  if 64 ≤ r.baseLg then none
  else
    let index := blockOffset >>> r.baseLg
    if index < r.num then do
      let start ← bytes? r.data (r.offset + index * 4) 4
      let limit ← bytes? r.data (r.offset + index * 4 + 4) 4
      if start ≤ limit ∧ limit ≤ r.offset then
        policy.keyMayMatch key ((r.data.drop start).take (limit - start))
      else if start = limit then some false
      else some true
    else some true

end FilterBlockReader

/-- The bytes of a filter block with the given filters. -/
def layout (filters : List (List Byte)) : List Byte :=
  filters.flatten ++ ((bounds 0 filters).map (· % 2 ^ 32)).flatMap (encode 4) ++ [BitVec.ofNat 8 filterBaseLg]

section Reading

variable {filters : List (List Byte)}

theorem length_layout (filters : List (List Byte)) :
    (layout filters).length = filters.flatten.length + 4 * filters.length + 5 := by
  simp only [layout, List.length_append, length_flatMap_encode, List.length_map, length_bounds,
    List.length_singleton]
  omega

theorem load_layout (small : (layout filters).length < 2 ^ 32) {i : Nat} (inside : i ≤ filters.length) :
    load (layout filters) (filters.flatten.length + 4 * i) 4 = (filters.take i).flatten.length := by
  have found : ((bounds 0 filters).map (· % 2 ^ 32))[i]? = some ((filters.take i).flatten.length % 2 ^ 32) := by
    rw [List.getElem?_map, getElem?_bounds 0 filters inside, Nat.zero_add]
    rfl
  have shorter : (filters.take i).flatten.length ≤ filters.flatten.length :=
    (List.take_sublist i filters).flatten.length_le
  rw [length_layout] at small
  rw [layout, List.append_assoc, load_append_right, load_flatMap_encode found]
  omega

/-- The reader's fields on such a block. -/
theorem ofContents_layout (signedChar : Bool) (small : (layout filters).length < 2 ^ 32) :
    FilterBlockReader.ofContents signedChar (layout filters) =
      ⟨layout filters, filters.flatten.length, filters.length, filterBaseLg⟩ := by
  have length := length_layout filters
  have last := load_layout small (Nat.le_refl filters.length)
  rw [List.take_length] at last
  have base : (layout filters)[(layout filters).length - 1]? = some (BitVec.ofNat 8 filterBaseLg) := by
    rw [layout, List.length_append, List.length_singleton, Nat.add_sub_cancel,
      List.getElem?_append_right (Nat.le_refl _), Nat.sub_self]
    rfl
  have word : (charToWord signedChar (BitVec.ofNat 8 filterBaseLg)).toNat = filterBaseLg := by
    cases signedChar <;> rfl
  simp only [FilterBlockReader.ofContents]
  rw [if_neg (by omega), base, Option.getD_some, word,
    show (layout filters).length - 5 = filters.flatten.length + 4 * filters.length by omega, last,
    if_neg (by omega), Nat.add_sub_cancel_left, Nat.mul_div_cancel_left _ (by decide)]

/-- A reader asks the policy about exactly the filter of the block offset's range. -/
theorem keyMayMatch_layout (policy : FilterPolicy) (signedChar : Bool) (small : (layout filters).length < 2 ^ 32)
    {blockOffset : Nat} {filter : List Byte} (found : filters[blockOffset / filterBase]? = some filter)
    (key : List Byte) :
    (FilterBlockReader.ofContents signedChar (layout filters)).keyMayMatch policy blockOffset key =
      policy.keyMayMatch key filter := by
  obtain ⟨inside, _⟩ := List.getElem?_eq_some_iff.mp found
  have length := length_layout filters
  have index : blockOffset >>> filterBaseLg = blockOffset / filterBase := Nat.shiftRight_eq_div_pow _ _
  generalize blockOffset / filterBase = i at found inside index
  have start := load_layout small (Nat.le_of_lt inside)
  have limit := load_layout small (Nat.succ_le_of_lt inside)
  have order : (filters.take i).flatten.length ≤ (filters.take (i + 1)).flatten.length :=
    (List.take_sublist_take_left (Nat.le_succ i)).flatten.length_le
  have shorter : (filters.take (i + 1)).flatten.length ≤ filters.flatten.length :=
    (List.take_sublist (i + 1) filters).flatten.length_le
  have cut := cut_flatten found (((bounds 0 filters).map (· % 2 ^ 32)).flatMap (encode 4) ++
    [BitVec.ofNat 8 filterBaseLg])
  rw [← List.append_assoc] at cut
  have startWord : bytes? (layout filters) (filters.flatten.length + i * 4) 4 =
      some (filters.take i).flatten.length := by
    rw [bytes?, if_pos (by omega), Nat.mul_comm i 4, start]
  have limitWord : bytes? (layout filters) (filters.flatten.length + i * 4 + 4) 4 =
      some (filters.take (i + 1)).flatten.length := by
    rw [bytes?, if_pos (by omega), Nat.mul_comm i 4, Nat.add_assoc, ← Nat.mul_succ, limit]
  rw [ofContents_layout signedChar small, FilterBlockReader.keyMayMatch,
    if_neg (show ¬ 64 ≤ filterBaseLg by decide)]
  simp only [index, if_pos inside, startWord, limitWord, Option.bind_eq_bind, Option.bind_some,
    if_pos (And.intro order shorter)]
  exact congrArg _ cut

end Reading

namespace FilterBlockBuilder

/-- A filter is appended, and does not depend on what is before it. -/
def Appends (policy : FilterPolicy) : Prop := ∀ (keys : List (List Byte)) (n : Int) (dst : List Byte),
  policy.createFilter keys n dst = dst ++ policy.createFilter keys n []

/-- The filter of a range with the given keys. -/
def filterOf (policy : FilterPolicy) (keys : List (List Byte)) : List Byte :=
  if keys.isEmpty then [] else policy.createFilter keys (toInt32 keys.length) []

structure Builds (policy : FilterPolicy) (b : FilterBlockBuilder) (done : List (List (List Byte)))
    (pending : List (List Byte)) : Prop where
  result : b.result = (done.map (filterOf policy)).flatten
  offsets : b.filterOffsets ++ [b.result.length % 2 ^ 32] =
    (bounds 0 (done.map (filterOf policy))).map (· % 2 ^ 32)
  keys : b.keys = pending.flatten
  start : b.start ++ [b.keys.length] = bounds 0 pending

section Steps

variable {policy : FilterPolicy} {b : FilterBlockBuilder} {done : List (List (List Byte))}
  {pending : List (List Byte)}

theorem empty_builds (policy : FilterPolicy) : Builds policy empty [] [] := ⟨rfl, rfl, rfl, rfl⟩

theorem Builds.length_filterOffsets (builds : Builds policy b done pending) :
    b.filterOffsets.length = done.length := by
  have lengths := congrArg List.length builds.offsets
  simpa using lengths

theorem Builds.length_start (builds : Builds policy b done pending) : b.start.length = pending.length := by
  have lengths := congrArg List.length builds.start
  simpa using lengths

theorem Builds.addKey (builds : Builds policy b done pending) (key : List Byte) :
    Builds policy (b.addKey key) done (pending ++ [key]) := by
  refine ⟨builds.result, builds.offsets, ?_, ?_⟩
  · simp [FilterBlockBuilder.addKey, builds.keys]
  · rw [bounds_append, ← builds.start, ← builds.keys, Nat.zero_add]
    simp [FilterBlockBuilder.addKey]

theorem Builds.addKeys (builds : Builds policy b done pending) (keys : List (List Byte)) :
    Builds policy (keys.foldl FilterBlockBuilder.addKey b) done (pending ++ keys) := by
  induction keys generalizing b pending with
  | nil => rwa [List.append_nil]
  | cons key keys ih =>
    have rest := ih (builds.addKey key)
    rwa [List.append_assoc] at rest

theorem Builds.generateFilter (appends : Appends policy) (builds : Builds policy b done pending) :
    Builds policy (b.generateFilter policy) (done ++ [pending]) [] := by
  have appended : ∀ result, result = b.result ++ filterOf policy pending →
      result = ((done ++ [pending]).map (filterOf policy)).flatten ∧
      (b.filterOffsets ++ [b.result.length % 2 ^ 32]) ++ [result.length % 2 ^ 32] =
        (bounds 0 ((done ++ [pending]).map (filterOf policy))).map (· % 2 ^ 32) := by
    rintro _ rfl
    constructor
    · simp [builds.result]
    · rw [List.map_append, List.map_singleton, bounds_append, List.map_append, ← builds.offsets, ← builds.result]
      simp
  have count := builds.length_start
  cases pending with
  | nil =>
    obtain ⟨result, offsets⟩ := appended b.result (List.append_nil _).symm
    rw [FilterBlockBuilder.generateFilter, if_pos (show b.start.length = 0 from count)]
    exact ⟨result, offsets, builds.keys, builds.start⟩
  | cons key pending =>
    have tmpKeys := pieces_bounds [] (key :: pending)
    rw [List.nil_append, ← builds.keys, List.length_nil, ← builds.start] at tmpKeys
    obtain ⟨result, offsets⟩ := appended
      (policy.createFilter (pieces b.keys (b.start ++ [b.keys.length])) (toInt32 b.start.length) b.result)
      (by rw [appends, tmpKeys, count]; rfl)
    rw [FilterBlockBuilder.generateFilter, if_neg (by rw [count]; exact Nat.succ_ne_zero _)]
    exact ⟨result, offsets, rfl, rfl⟩

theorem Builds.layout_eq (appends : Appends policy) (builds : Builds policy b done pending) :
    b.finish policy =
      layout ((if pending.isEmpty then done else done ++ [pending]).map (filterOf policy)) := by
  have written : ∀ {b : FilterBlockBuilder} {done : List (List (List Byte))} {pending : List (List Byte)},
      Builds policy b done pending →
      b.result ++ b.filterOffsets.flatMap (encode 4) ++ encode 4 (b.result.length % 2 ^ 32) ++
        [BitVec.ofNat 8 filterBaseLg] = layout (done.map (filterOf policy)) := by
    intro b done pending builds
    rw [layout, ← builds.offsets, ← builds.result, List.flatMap_append, List.flatMap_singleton]
    simp only [List.append_assoc]
  have count := builds.length_start
  have same : b.start.isEmpty = pending.isEmpty := by
    rw [Bool.eq_iff_iff, List.isEmpty_iff_length_eq_zero, List.isEmpty_iff_length_eq_zero, count]
  rw [finish, same]
  split
  · exact written builds
  · exact written (builds.generateFilter appends)

/-- The loop of `StartBlock` moves on to a later range; the ranges between have no keys. -/
theorem Builds.generateFilters (appends : Appends policy) {keys : Nat → List (List Byte)} {n filterIndex : Nat}
    (builds : Builds policy b ((List.range n).map keys) (keys n)) (le : n ≤ filterIndex)
    (later : ∀ r, n < r → keys r = []) :
    Builds policy (b.generateFilters policy filterIndex) ((List.range filterIndex).map keys)
      (keys filterIndex) := by
  obtain ⟨ranges, rfl⟩ := Nat.exists_eq_add_of_le le
  induction ranges generalizing b n with
  | zero =>
    have length := builds.length_filterOffsets
    rw [List.length_map, List.length_range] at length
    rwa [FilterBlockBuilder.generateFilters, if_neg (by omega)]
  | succ ranges ih =>
    have length := builds.length_filterOffsets
    rw [List.length_map, List.length_range] at length
    have next := builds.generateFilter appends
    rw [← List.map_singleton, ← List.map_append, ← List.range_succ, ← later (n + 1) (Nat.lt_succ_self n)] at next
    rw [FilterBlockBuilder.generateFilters, if_pos (by omega), ← Nat.succ_add_eq_add_succ]
    exact ih next (fun r above => later r (by omega)) (Nat.le_add_right _ _)

end Steps

/-- The keys added under the block offsets of a range, in order. -/
def rangeKeys (blocks : List (Nat × List (List Byte))) (r : Nat) : List (List Byte) :=
  blocks.flatMap fun block => if block.1 / filterBase = r then block.2 else []

section Runs

variable {policy : FilterPolicy} {blocks : List (Nat × List (List Byte))}

theorem rangeKeys_append (blocks : List (Nat × List (List Byte))) (block : Nat × List (List Byte)) (r : Nat) :
    rangeKeys (blocks ++ [block]) r =
      rangeKeys blocks r ++ if block.1 / filterBase = r then block.2 else [] := by
  rw [rangeKeys, List.flatMap_append, List.flatMap_singleton]
  rfl

theorem mem_rangeKeys {block : Nat × List (List Byte)} {key : List Byte} (member : block ∈ blocks)
    (added : key ∈ block.2) : key ∈ rangeKeys blocks (block.1 / filterBase) :=
  List.mem_flatMap.mpr ⟨block, member, by rwa [if_pos rfl]⟩

theorem rangeKeys_eq_nil {r : Nat} (other : ∀ block ∈ blocks, block.1 / filterBase ≠ r) :
    rangeKeys blocks r = [] :=
  List.flatMap_eq_nil_iff.mpr fun block member => if_neg (other block member)

/-- After any calls the filters are those of the ranges before that of the last block,
and the keys of its range are pending. -/
theorem blocks_builds (appends : Appends policy) (ordered : (blocks.map Prod.fst).Pairwise (· ≤ ·)) :
    ∃ n, Builds policy (blocks.foldl (addBlock policy) empty) ((List.range n).map (rangeKeys blocks))
        (rangeKeys blocks n) ∧ (∀ block ∈ blocks, block.1 / filterBase ≤ n) ∧
      (n = 0 ∨ ∃ block ∈ blocks, block.1 / filterBase = n) := by
  induction blocks using List.reverseRecOn with
  | nil => exact ⟨0, empty_builds policy, by simp, Or.inl rfl⟩
  | append_singleton blocks block ih =>
    rw [List.map_append, List.pairwise_append] at ordered
    obtain ⟨earlier, _, before⟩ := ordered
    obtain ⟨n, builds, upper, reached⟩ := ih earlier
    have below : ∀ p ∈ blocks, p.1 / filterBase ≤ block.1 / filterBase := fun p member =>
      Nat.div_le_div_right (before p.1 (List.mem_map_of_mem member) block.1 (by simp))
    have le : n ≤ block.1 / filterBase := by
      rcases reached with rfl | ⟨p, member, rfl⟩
      · exact Nat.zero_le _
      · exact below p member
    have started := builds.generateFilters appends le fun r above =>
      rangeKeys_eq_nil fun p member => Nat.ne_of_lt (Nat.lt_of_le_of_lt (upper p member) above)
    have added := started.addKeys block.2
    refine ⟨block.1 / filterBase, ?_, ?_, Or.inr ⟨block, by simp, rfl⟩⟩
    · have same : (List.range (block.1 / filterBase)).map (rangeKeys (blocks ++ [block])) =
          (List.range (block.1 / filterBase)).map (rangeKeys blocks) := by
        refine List.map_congr_left fun r inside => ?_
        rw [rangeKeys_append, if_neg (Nat.ne_of_gt (List.mem_range.mp inside)), List.append_nil]
      rw [List.foldl_append, same, rangeKeys_append, if_pos rfl]
      exact added
    · intro p member
      rcases List.mem_append.mp member with old | new
      · exact below p old
      · rw [List.mem_singleton.mp new]

/-- A filter block answers for a range with keys as the policy does on their filter. -/
theorem keyMayMatch_build (appends : Appends policy) (signedChar : Bool)
    (ordered : (blocks.map Prod.fst).Pairwise (· ≤ ·)) (small : (build policy blocks).length < 2 ^ 32)
    {block : Nat × List (List Byte)} (member : block ∈ blocks)
    (nonempty : rangeKeys blocks (block.1 / filterBase) ≠ []) (key : List Byte) :
    (FilterBlockReader.ofContents signedChar (build policy blocks)).keyMayMatch policy block.1 key =
      policy.keyMayMatch key (filterOf policy (rangeKeys blocks (block.1 / filterBase))) := by
  obtain ⟨n, builds, upper, _⟩ := blocks_builds appends ordered
  have written := builds.layout_eq appends
  rw [build, written] at small ⊢
  refine keyMayMatch_layout policy signedChar small ?_ key
  have le := upper block member
  have pending : rangeKeys blocks n = [] → block.1 / filterBase < n := by
    intro none
    rcases Nat.eq_or_lt_of_le le with same | below
    · exact absurd (same ▸ none) nonempty
    · exact below
  rw [List.getElem?_map]
  split
  case isTrue none =>
    rw [List.getElem?_map, List.getElem?_range (pending (List.isEmpty_iff.mp none))]
    rfl
  case isFalse some =>
    rw [← List.map_singleton, ← List.map_append, ← List.range_succ, List.getElem?_map,
      List.getElem?_range (Nat.lt_succ_of_le le)]
    rfl

end Runs

end FilterBlockBuilder

theorem toInt32_lt (n : Nat) : toInt32 n < 2 ^ 31 := BitVec.toInt_lt

theorem wormhole_appends (signedChar : Bool) :
    FilterBlockBuilder.Appends (wormholeFilterPolicy signedChar) := by
  intro keys n dst
  simp only [wormholeFilterPolicy, createFilter_eq, List.nil_append]

/-- A key whose own call of `InsertItem` succeeded is matched. -/
theorem keyMayMatch_of_inserted {signedChar : Bool} {keys : List (List Byte)} {n : Int} (bound : n < 2 ^ 31)
    {dst dst' : List Byte} {i : Nat} {key : List Byte} (found : keys[i]? = some key)
    (inserted : (insertResults signedChar keys n dst)[i]? = some true) :
    keyMayMatch signedChar key ((createFilter signedChar keys n dst').drop dst'.length) = some true := by
  rw [insertResults_eq] at inserted
  have calls : i < (keys.take n.toNat).length := by
    obtain ⟨inside, _⟩ := List.getElem?_eq_some_iff.mp inserted
    rwa [insertKeys, length_callAll] at inside
  rw [List.length_take] at calls
  obtain ⟨m, rfl⟩ : ∃ m : Nat, n = m := ⟨n.toNat, by omega⟩
  have sized : Sized (numBuckets m) := numBuckets_sized (by omega)
  have := sized.neZero
  have taken : (keys.take m)[i]? = some key := by
    rw [List.getElem?_take_of_lt (by omega), found]
  obtain ⟨answer, matched, stored⟩ := sized.keyMayMatch_iff signedChar key
    (ringSize_le_buckets signedChar (numBuckets m) (keys.take m))
  have member := ((sized.keyInserter signedChar).mem_callAll (keys.take m) (ringSize_le_zeros (numBuckets m))
    (pair (numBuckets m) (wormholeHash signedChar key))).mpr
      (Or.inr ⟨i, inserted, Option.map_eq_some_iff.mpr ⟨key, taken, rfl⟩⟩)
  rw [createFilter_eq, List.drop_left, Int.toNat_natCast, matched, stored.mpr member]

/-- A filter block of this policy answers, for a block in a range with keys, as the
policy does on what `CreateFilter` appends for the range's keys. When the call of
`InsertItem` for each of them succeeded, the keys of the block are matched. -/
theorem filter_block_round_trip (signedChar : Bool) (blocks : List (Nat × List (List Byte)))
    (ordered : (blocks.map Prod.fst).Pairwise (· ≤ ·))
    (small : (FilterBlockBuilder.build (wormholeFilterPolicy signedChar) blocks).length < 2 ^ 32)
    (o : Nat) (ks : List (List Byte)) (member : (o, ks) ∈ blocks) :
    let policy := wormholeFilterPolicy signedChar
    let reader := FilterBlockReader.ofContents signedChar (FilterBlockBuilder.build policy blocks)
    let keys := FilterBlockBuilder.rangeKeys blocks (o / filterBase)
    let n := toInt32 keys.length
    (keys ≠ [] → ∀ q dst, reader.keyMayMatch policy o q =
      keyMayMatch signedChar q ((createFilter signedChar keys n dst).drop dst.length)) ∧
    ∀ dst, (∀ i, i < keys.length → (insertResults signedChar keys n dst)[i]? = some true) →
      ∀ key ∈ ks, reader.keyMayMatch policy o key = some true := by
  intro policy reader keys n
  have answers : keys ≠ [] → ∀ q dst, reader.keyMayMatch policy o q =
      keyMayMatch signedChar q ((createFilter signedChar keys n dst).drop dst.length) := by
    intro nonempty q dst
    have same := FilterBlockBuilder.keyMayMatch_build (wormhole_appends signedChar) signedChar ordered small
      member nonempty q
    have filter : FilterBlockBuilder.filterOf policy keys = (createFilter signedChar keys n dst).drop dst.length := by
      rw [FilterBlockBuilder.filterOf, if_neg (by rwa [List.isEmpty_iff])]
      exact ((congrArg _ (wormhole_appends signedChar keys n dst)).trans List.drop_left).symm
    rw [← filter]
    exact same
  refine ⟨answers, ?_⟩
  intro dst inserted key added
  have inRange : key ∈ keys := FilterBlockBuilder.mem_rangeKeys member added
  obtain ⟨i, found⟩ := List.mem_iff_getElem?.mp inRange
  obtain ⟨inside, _⟩ := List.getElem?_eq_some_iff.mp found
  rw [answers (List.ne_nil_of_mem inRange) key dst]
  exact keyMayMatch_of_inserted (toInt32_lt keys.length) found (inserted i inside)

/-- Two blocks of one range, a third further on. -/
theorem filter_block_round_trip_three :
    let policy := wormholeFilterPolicy true
    let blocks : List (Nat × List (List Byte)) := [(0, [[97#8]]), (100, [[98#8]]), (9000, [[99#8]])]
    let reader := FilterBlockReader.ofContents true (FilterBlockBuilder.build policy blocks)
    reader.keyMayMatch policy 100 [98#8] = some true := by
  intro policy blocks reader
  have matched := filter_block_round_trip true blocks (by decide) (by decide +kernel) 100 [[98#8]] (by decide)
  refine matched.2 [] ?_ [98#8] (by decide)
  decide +kernel

end WormholeFilters.LevelDb
