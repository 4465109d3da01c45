import WormholeFilters.Comparators
import WormholeFilters.Iterators

/-! table/two_level_iterator.cc: an iterator over an index whose values name blocks, and
an iterator over the block it is at. -/
namespace WormholeFilters.LevelDb

open LittleEndian
open Env (Status)
open Cursors (Call blockStart)

variable {σ τ : Type}

/-- `data` may be null; `dataBlockHandle` is the index value it was made with. -/
structure TwoLevelIter (σ τ : Type) where
  index : σ
  data : Option τ
  dataBlockHandle : List Byte
  status : Status

namespace TwoLevelIter

section Model

variable (indexIter : Iterator σ) (dataIter : Iterator τ) (blockFunction : List Byte → τ)

def init (index : σ) : TwoLevelIter σ τ := ⟨index, none, [], .ok⟩

def valid (s : TwoLevelIter σ τ) : Bool := s.data.any dataIter.valid

def setDataIterator (s : TwoLevelIter σ τ) (data : Option τ) : TwoLevelIter σ τ :=
  let status := match s.data with
    | some d => if s.status = .ok ∧ dataIter.status d ≠ .ok then dataIter.status d else s.status
    | none => s.status
  { s with status := status, data := data }

def initDataBlock (s : TwoLevelIter σ τ) : TwoLevelIter σ τ :=
  if ¬ indexIter.valid s.index then s.setDataIterator dataIter none
  else
    let handle := indexIter.value s.index
    if s.data.isSome ∧ Slice.compare handle s.dataBlockHandle = .eq then s
    else { s with dataBlockHandle := handle }.setDataIterator dataIter (some (blockFunction handle))

def dataCall (c : Call (List Byte)) (s : TwoLevelIter σ τ) : TwoLevelIter σ τ :=
  { s with data := s.data.map (dataIter.call c) }

/-- A call of the index iterator, then `InitDataBlock` and a call of the data iterator. -/
def move (c c' : Call (List Byte)) (s : TwoLevelIter σ τ) : TwoLevelIter σ τ :=
  dataCall dataIter c' (initDataBlock indexIter dataIter blockFunction { s with index := indexIter.call c s.index })

/-- The loop over blocks without a valid entry. The fuel bounds the blocks it goes through. -/
def skipEmptyDataBlocks (c c' : Call (List Byte)) : Nat → TwoLevelIter σ τ → TwoLevelIter σ τ
  | 0, s => s
  | fuel + 1, s =>
    if valid dataIter s then s
    else if ¬ indexIter.valid s.index then s.setDataIterator dataIter none
    else skipEmptyDataBlocks c c' fuel (s.move indexIter dataIter blockFunction c c')

def skipEmptyDataBlocksForward (fuel : Nat) (s : TwoLevelIter σ τ) : TwoLevelIter σ τ :=
  skipEmptyDataBlocks indexIter dataIter blockFunction .next .seekToFirst fuel s

def skipEmptyDataBlocksBackward (fuel : Nat) (s : TwoLevelIter σ τ) : TwoLevelIter σ τ :=
  skipEmptyDataBlocks indexIter dataIter blockFunction .prev .seekToLast fuel s

def call (fuel : Nat) : Call (List Byte) → TwoLevelIter σ τ → TwoLevelIter σ τ
  | .seek target, s =>
    skipEmptyDataBlocksForward indexIter dataIter blockFunction fuel
      (s.move indexIter dataIter blockFunction (.seek target) (.seek target))
  | .seekToFirst, s =>
    skipEmptyDataBlocksForward indexIter dataIter blockFunction fuel
      (s.move indexIter dataIter blockFunction .seekToFirst .seekToFirst)
  | .seekToLast, s =>
    skipEmptyDataBlocksBackward indexIter dataIter blockFunction fuel
      (s.move indexIter dataIter blockFunction .seekToLast .seekToLast)
  | .next, s => skipEmptyDataBlocksForward indexIter dataIter blockFunction fuel (dataCall dataIter .next s)
  | .prev, s => skipEmptyDataBlocksBackward indexIter dataIter blockFunction fuel (dataCall dataIter .prev s)

def iterator (fuel : Nat) : Iterator (TwoLevelIter σ τ) where
  valid := valid dataIter
  key s := (s.data.map dataIter.key).getD []
  value s := (s.data.map dataIter.value).getD []
  status s :=
    if indexIter.status s.index ≠ .ok then indexIter.status s.index
    else
      match s.data with
      | some d => if dataIter.status d ≠ .ok then dataIter.status d else s.status
      | none => s.status
  call := call indexIter dataIter blockFunction fuel

end Model

/-- The index lists a fence and a handle for each block, and a handle opens an iterator over its block. -/
structure Indexed (indexIter : Iterator σ) (dataIter : Iterator τ) (blockFunction : List Byte → τ)
    (cmp : List Byte → List Byte → Ordering) (index : List (List Byte × List Byte))
    (blocks : List (List (List Byte × List Byte))) (indexAt : σ → Nat → Prop) (dataAt : Nat → τ → Nat → Prop) :
    Prop where
  indexSim : Cursors.Simulates indexIter.iter cmp index indexAt
  fenced : Cursors.Fenced cmp (index.map Prod.fst) blocks
  handles : (index.map Prod.snd).Nodup
  dataSim {j : Nat} {block : List (List Byte × List Byte)} : blocks[j]? = some block →
    Cursors.Simulates dataIter.iter cmp block (dataAt j)
  opens {j : Nat} {e : List Byte × List Byte} {block : List (List Byte × List Byte)} : index[j]? = some e →
    blocks[j]? = some block → dataAt j (blockFunction e.2) block.length

section Simulation

variable {indexIter : Iterator σ} {dataIter : Iterator τ} {blockFunction : List Byte → τ}
  {cmp : List Byte → List Byte → Ordering} {index : List (List Byte × List Byte)}
  {blocks : List (List (List Byte × List Byte))} {indexAt : σ → Nat → Prop} {dataAt : Nat → τ → Nat → Prop}
  {s : TwoLevelIter σ τ} {i j : Nat} {block : List (List Byte × List Byte)}

/-- The data iterator, if there is one, is over the block whose handle is remembered. -/
structure Linked (index : List (List Byte × List Byte)) (dataAt : Nat → τ → Nat → Prop) (s : TwoLevelIter σ τ) :
    Prop where
  status : s.status = .ok
  data {d : τ} : s.data = some d → ∃ j e i, index[j]? = some e ∧ e.2 = s.dataBlockHandle ∧ dataAt j d i

/-- The index iterator is at block `j` and the data iterator at position `i` of it, maybe behind its last entry. -/
structure Rests (index : List (List Byte × List Byte)) (indexAt : σ → Nat → Prop) (dataAt : Nat → τ → Nat → Prop)
    (s : TwoLevelIter σ τ) (j i : Nat) : Prop where
  status : s.status = .ok
  indexPos : indexAt s.index j
  handle : ∃ e, index[j]? = some e ∧ e.2 = s.dataBlockHandle
  data : ∃ d, s.data = some d ∧ dataAt j d i

structure Gone (index : List (List Byte × List Byte)) (indexAt : σ → Nat → Prop) (s : TwoLevelIter σ τ) : Prop where
  status : s.status = .ok
  indexPos : indexAt s.index index.length
  data : s.data = none

def At (index : List (List Byte × List Byte)) (blocks : List (List (List Byte × List Byte)))
    (indexAt : σ → Nat → Prop) (dataAt : Nat → τ → Nat → Prop) (s : TwoLevelIter σ τ) (p : Nat) : Prop :=
  (∃ j i block, Rests index indexAt dataAt s j i ∧ blocks[j]? = some block ∧ i < block.length ∧
    p = blockStart blocks j + i) ∨
  (Gone index indexAt s ∧ p = blocks.flatten.length)

theorem At.congr {p q : Nat} (pos : At index blocks indexAt dataAt s p) (same : p = q) :
    At index blocks indexAt dataAt s q := same ▸ pos

variable (indexed : Indexed indexIter dataIter blockFunction cmp index blocks indexAt dataAt)

include indexed in
theorem Indexed.length : index.length = blocks.length := by
  have := indexed.fenced.length
  rwa [List.length_map] at this

include indexed in
theorem Linked.setDataIterator (linked : Linked index dataAt s) (data : Option τ) :
    (s.setDataIterator dataIter data).status = .ok := by
  rw [TwoLevelIter.setDataIterator]
  cases found : s.data with
  | none => exact linked.status
  | some d =>
    obtain ⟨j, e, i, entry, _, pos⟩ := linked.data found
    have present : j < blocks.length := indexed.length ▸ (List.getElem?_eq_some_iff.mp entry).1
    have healthy := (indexed.dataSim (List.getElem?_eq_getElem present)).ok pos
    simp only [Iterator.iter, decide_eq_true_eq] at healthy
    simp [healthy, linked.status]

include indexed in
/-- After `InitDataBlock` the data iterator is over the block the index is at. -/
theorem Linked.initDataBlock (linked : Linked index dataAt s) (pos : indexAt s.index j) :
    (j = index.length ∧ Gone index indexAt (s.initDataBlock indexIter dataIter blockFunction)) ∨
      (j < index.length ∧ ∃ i, Rests index indexAt dataAt (s.initDataBlock indexIter dataIter blockFunction) j i) := by
  have valid := indexed.indexSim.valid_iff pos
  rcases Nat.eq_or_lt_of_le (indexed.indexSim.le pos) with last | inside
  · refine Or.inl ⟨last, ?_⟩
    have invalid : ¬ indexIter.valid s.index = true := fun h => absurd (valid.mp h) (by omega)
    rw [TwoLevelIter.initDataBlock, if_pos invalid]
    exact ⟨linked.setDataIterator indexed none, last ▸ pos, rfl⟩
  · refine Or.inr ⟨inside, ?_⟩
    have entry := List.getElem?_eq_getElem inside
    have value : indexIter.value s.index = index[j].2 := (indexed.indexSim.entry pos entry).2
    have valid' : ¬ ¬ indexIter.valid s.index = true := fun h => h (valid.mpr inside)
    rw [TwoLevelIter.initDataBlock, if_neg valid']
    simp only [value]
    split
    · next same =>
      -- the block is the one already open, since no other has its handle
      obtain ⟨d, data⟩ := Option.isSome_iff_exists.mp same.1
      obtain ⟨k, e, i, entry', handle, dataPos⟩ := linked.data data
      have equal : index[j].2 = s.dataBlockHandle := by
        rw [Slice.compare_eq] at same
        exact Std.LawfulEqCmp.eq_of_compare same.2
      obtain rfl : k = j := by
        have first : (index.map Prod.snd)[k]? = some s.dataBlockHandle := by
          rw [List.getElem?_map, entry', Option.map_some, handle]
        have second : (index.map Prod.snd)[j]? = some s.dataBlockHandle := by
          rw [List.getElem?_map, entry, Option.map_some, equal]
        exact (List.getElem?_inj (List.getElem?_eq_some_iff.mp first).1 indexed.handles).mp (first.trans second.symm)
      exact ⟨i, linked.status, pos, ⟨e, entry', handle⟩, d, data, dataPos⟩
    · have present : j < blocks.length := indexed.length ▸ inside
      have opened := indexed.opens entry (List.getElem?_eq_getElem present)
      exact ⟨_, linked.setDataIterator indexed (some (blockFunction index[j].2)), pos, ⟨_, entry, rfl⟩, _, rfl, opened⟩

theorem Rests.linked (rests : Rests index indexAt dataAt s j i) : Linked index dataAt s := by
  refine ⟨rests.status, fun {d} found => ?_⟩
  obtain ⟨e, entry, handle⟩ := rests.handle
  obtain ⟨d', data, pos⟩ := rests.data
  obtain rfl : d' = d := Option.some.inj (data.symm.trans found)
  exact ⟨j, e, i, entry, handle, pos⟩

theorem Gone.linked (gone : Gone index indexAt s) : Linked index dataAt s :=
  ⟨gone.status, fun {d} found => absurd (gone.data.symm.trans found) (by simp)⟩

include indexed in
theorem Rests.exists_block (rests : Rests index indexAt dataAt s j i) :
    ∃ block, blocks[j]? = some block ∧ i ≤ block.length := by
  obtain ⟨e, entry, _⟩ := rests.handle
  have present : j < blocks.length := indexed.length ▸ (List.getElem?_eq_some_iff.mp entry).1
  obtain ⟨d, _, pos⟩ := rests.data
  exact ⟨_, List.getElem?_eq_getElem present, (indexed.dataSim (List.getElem?_eq_getElem present)).le pos⟩

include indexed in
theorem Rests.valid_iff (rests : Rests index indexAt dataAt s j i) (found : blocks[j]? = some block) :
    valid dataIter s = true ↔ i < block.length := by
  obtain ⟨d, data, pos⟩ := rests.data
  rw [valid, data, Option.any_some]
  exact (indexed.dataSim found).valid_iff pos

include indexed in
theorem Rests.dataCall (rests : Rests index indexAt dataAt s j i) (found : blocks[j]? = some block)
    (c : Call (List Byte)) (allowed : Cursors.Allowed block.length c i) :
    Rests index indexAt dataAt (s.dataCall dataIter c) j (Cursors.move cmp block c i) := by
  obtain ⟨d, data, pos⟩ := rests.data
  have called : (s.dataCall dataIter c).data = some (dataIter.call c d) := by
    rw [TwoLevelIter.dataCall, data, Option.map_some]
  exact ⟨rests.status, rests.indexPos, rests.handle, _, called, (indexed.dataSim found).step c pos allowed⟩

theorem Gone.dataCall (gone : Gone index indexAt s) (c : Call (List Byte)) :
    Gone index indexAt (s.dataCall dataIter c) :=
  ⟨gone.status, gone.indexPos, by rw [TwoLevelIter.dataCall, gone.data, Option.map_none]⟩

include indexed in
/-- A call of the index followed by a seek in the block it comes to. -/
theorem Linked.move (linked : Linked index dataAt s) (c c' : Call (List Byte)) (seeks : c'.isSeek = true) {k : Nat}
    (pos : indexAt s.index k) (allowed : Cursors.Allowed index.length c k) (reached : Cursors.move cmp index c k = j) :
    (j = index.length ∧ Gone index indexAt (s.move indexIter dataIter blockFunction c c')) ∨
      ∃ block, blocks[j]? = some block ∧
        Rests index indexAt dataAt (s.move indexIter dataIter blockFunction c c') j (Cursors.move cmp block c' 0) := by
  have moved := indexed.indexSim.step c pos allowed
  rw [reached] at moved
  have linked' : Linked index dataAt { s with index := indexIter.call c s.index } :=
    ⟨linked.status, fun found => linked.data found⟩
  rcases linked'.initDataBlock indexed moved with ⟨last, gone⟩ | ⟨inside, i, rests⟩
  · exact Or.inl ⟨last, gone.dataCall c'⟩
  · obtain ⟨block, found, _⟩ := rests.exists_block indexed
    have called := rests.dataCall indexed found c' (Call.isSeek.allowed seeks _ _)
    rw [Call.isSeek.move_eq seeks cmp block i 0] at called
    exact Or.inr ⟨block, found, called⟩

include indexed in
theorem Gone.skip (gone : Gone index indexAt s) (c c' : Call (List Byte)) (fuel : Nat) :
    At index blocks indexAt dataAt (skipEmptyDataBlocks indexIter dataIter blockFunction c c' fuel s)
      blocks.flatten.length := by
  cases fuel with
  | zero => exact Or.inr ⟨gone, rfl⟩
  | succ fuel =>
    have invalid : indexIter.valid s.index ≠ true := fun h =>
      absurd ((indexed.indexSim.valid_iff gone.indexPos).mp h) (Nat.lt_irrefl _)
    rw [skipEmptyDataBlocks, if_neg (by simp [valid, gone.data]), if_pos invalid]
    exact Or.inr ⟨⟨(show Linked index dataAt s from gone.linked).setDataIterator indexed none, gone.indexPos, rfl⟩, rfl⟩

include indexed in
/-- Going forward, the end of a block is the start of the one after it. -/
theorem Rests.skipForward {fuel : Nat} (rests : Rests index indexAt dataAt s j i) (enough : index.length ≤ j + fuel) :
    At index blocks indexAt dataAt (skipEmptyDataBlocksForward indexIter dataIter blockFunction fuel s)
      (blockStart blocks j + i) := by
  induction fuel generalizing s i j with
  | zero =>
    obtain ⟨e, entry, _⟩ := rests.handle
    have := (List.getElem?_eq_some_iff.mp entry).1
    omega
  | succ fuel ih =>
    obtain ⟨block, found, within⟩ := rests.exists_block indexed
    obtain ⟨e, entry, _⟩ := rests.handle
    have present := (List.getElem?_eq_some_iff.mp entry).1
    rw [skipEmptyDataBlocksForward, skipEmptyDataBlocks]
    rcases Nat.eq_or_lt_of_le within with rfl | inside
    · have invalid := mt (rests.valid_iff indexed found).mp (Nat.lt_irrefl _)
      have here : ¬ ¬ indexIter.valid s.index = true := fun h =>
        h ((indexed.indexSim.valid_iff rests.indexPos).mpr present)
      rw [if_neg invalid, if_neg here]
      rcases rests.linked.move indexed (j := j + 1) .next .seekToFirst rfl rests.indexPos present rfl with
        ⟨last, gone⟩ | ⟨block', found', rests'⟩
      · rw [← Cursors.blockStart_succ found, last, indexed.length, Cursors.blockStart_length]
        exact gone.skip indexed .next .seekToFirst fuel
      · rw [← Cursors.blockStart_succ found]
        exact ih rests' (by omega)
    · rw [if_pos ((rests.valid_iff indexed found).mpr inside)]
      exact Or.inl ⟨j, i, block, rests, found, inside, rfl⟩

include indexed in
/-- Going backward, what is before the start of a block is the last entry of the blocks before it. -/
theorem Rests.skipBackward {fuel : Nat} (rests : Rests index indexAt dataAt s j i) (found : blocks[j]? = some block)
    (enough : j < fuel) :
    At index blocks indexAt dataAt (skipEmptyDataBlocksBackward indexIter dataIter blockFunction fuel s)
      (if i < block.length then blockStart blocks j + i
        else if blockStart blocks j = 0 then blocks.flatten.length else blockStart blocks j - 1) := by
  induction fuel generalizing s i j block with
  | zero => omega
  | succ fuel ih =>
    obtain ⟨e, entry, _⟩ := rests.handle
    have present := (List.getElem?_eq_some_iff.mp entry).1
    rw [skipEmptyDataBlocksBackward, skipEmptyDataBlocks]
    by_cases inside : i < block.length
    · rw [if_pos ((rests.valid_iff indexed found).mpr inside), if_pos inside]
      exact Or.inl ⟨j, i, block, rests, found, inside, rfl⟩
    · have invalid := mt (rests.valid_iff indexed found).mp inside
      have here : ¬ ¬ indexIter.valid s.index = true := fun h =>
        h ((indexed.indexSim.valid_iff rests.indexPos).mpr present)
      rw [if_neg invalid, if_neg here, if_neg inside]
      cases j with
      | zero =>
        rcases rests.linked.move indexed (j := index.length) .prev .seekToLast rfl rests.indexPos present rfl with
          ⟨_, gone⟩ | ⟨block', found', _⟩
        · exact gone.skip indexed .prev .seekToLast fuel
        · rw [indexed.length, List.getElem?_eq_none (Nat.le_refl _)] at found'
          cases found'
      | succ j =>
        rcases rests.linked.move indexed (j := j) .prev .seekToLast rfl rests.indexPos present rfl with
          ⟨last, _⟩ | ⟨block', found', rests'⟩
        · omega
        · have step := ih rests' found' (by omega)
          have start := Cursors.blockStart_succ found'
          -- an empty block before this one starts where this one does
          have same : (if Cursors.move cmp block' .seekToLast 0 < block'.length then
              blockStart blocks j + Cursors.move cmp block' .seekToLast 0
              else if blockStart blocks j = 0 then blocks.flatten.length else blockStart blocks j - 1) =
              if blockStart blocks (j + 1) = 0 then blocks.flatten.length else blockStart blocks (j + 1) - 1 := by
            rw [Cursors.move]
            rcases Nat.eq_zero_or_pos block'.length with none | some
            · rw [if_neg (by omega), start, none, Nat.add_zero]
            · rw [if_pos (by omega), if_neg (by omega)]
              omega
          rw [same] at step
          exact step

include indexed in
theorem At.shown {p : Nat} {fuel : Nat} (pos : At index blocks indexAt dataAt s p) :
    (iterator indexIter dataIter blockFunction fuel).iter.shown s = blocks.flatten[p]? := by
  rcases pos with ⟨j, i, block, rests, found, inside, rfl⟩ | ⟨gone, rfl⟩
  · obtain ⟨d, data, pos⟩ := rests.data
    have shown := (indexed.dataSim found).shown pos
    rw [Cursors.getElem?_flatten found inside, ← shown]
    simp only [Cursors.Iter.shown, Iterator.iter, iterator, valid, data, Option.any_some, Option.map_some,
      Option.getD_some]
    rfl
  · simp [Cursors.Iter.shown, Iterator.iter, iterator, valid, gone.data]

include indexed in
theorem At.ok {p : Nat} {fuel : Nat} (pos : At index blocks indexAt dataAt s p) :
    (iterator indexIter dataIter blockFunction fuel).iter.ok s = true := by
  rcases pos with ⟨j, i, block, rests, found, inside, rfl⟩ | ⟨gone, rfl⟩
  · obtain ⟨d, data, pos⟩ := rests.data
    have dataOk := (indexed.dataSim found).ok pos
    have indexOk := indexed.indexSim.ok rests.indexPos
    simp only [Iterator.iter, decide_eq_true_eq] at dataOk indexOk
    simp [Iterator.iter, iterator, data, dataOk, indexOk, rests.status]
  · have indexOk := indexed.indexSim.ok gone.indexPos
    simp only [Iterator.iter, decide_eq_true_eq] at indexOk
    simp [Iterator.iter, iterator, gone.data, indexOk, gone.status]

theorem At.linked {p : Nat} (pos : At index blocks indexAt dataAt s p) :
    Linked index dataAt s ∧ ∃ j, indexAt s.index j := by
  rcases pos with ⟨j, i, block, rests, _⟩ | ⟨gone, _⟩
  · exact ⟨rests.linked, j, rests.indexPos⟩
  · exact ⟨gone.linked, _, gone.indexPos⟩

include indexed in
theorem At.seek [Std.TransCmp cmp] {p fuel : Nat} (pos : At index blocks indexAt dataAt s p) (target : List Byte)
    (enough : index.length < fuel) :
    At index blocks indexAt dataAt (call indexIter dataIter blockFunction fuel (.seek target) s)
      (Cursors.lowerBound cmp blocks.flatten target) := by
  obtain ⟨linked, k, indexPos⟩ := pos.linked
  have fences : ∀ k f, (index.map Prod.fst)[k]? = some f →
      (k < Cursors.lowerBound cmp index target → cmp f target = .lt) ∧
        (k = Cursors.lowerBound cmp index target → cmp f target ≠ .lt) := by
    intro k f found
    rw [List.getElem?_map, Option.map_eq_some_iff] at found
    obtain ⟨e, entry, rfl⟩ := found
    exact ⟨Cursors.lt_of_lt_lowerBound entry, fun same => Cursors.not_lt_at_lowerBound (same ▸ entry)⟩
  rw [call]
  rcases linked.move indexed (j := Cursors.lowerBound cmp index target) (.seek target)
    (.seek target) rfl indexPos trivial
    rfl with ⟨last, gone⟩ | ⟨block, found, rests⟩
  · rw [indexed.fenced.lowerBound_flatten_of_all_lt fun f member => ?_]
    · exact gone.skip indexed .next .seekToFirst fuel
    · obtain ⟨k, entry⟩ := List.mem_iff_getElem?.mp member
      have present := (List.getElem?_eq_some_iff.mp entry).1
      rw [List.length_map] at present
      exact (fences k f entry).1 (by omega)
  · rw [indexed.fenced.lowerBound_flatten fences found]
    exact rests.skipForward indexed (by omega)

include indexed in
/-- The iterator goes through the entries of all the blocks, if its loops may pass every block. -/
theorem simulates [Std.TransCmp cmp] {fuel : Nat} (enough : index.length < fuel) :
    Cursors.Simulates (iterator indexIter dataIter blockFunction fuel).iter cmp blocks.flatten
      (At index blocks indexAt dataAt) where
  le {s p} pos := by
    rcases pos with ⟨j, i, block, rests, found, inside, rfl⟩ | ⟨gone, rfl⟩
    · have start := Cursors.blockStart_succ found
      have present := (List.getElem?_eq_some_iff.mp found).1
      have total := Cursors.blockStart_le blocks (show j + 1 ≤ blocks.length from present)
      rw [Cursors.blockStart_length] at total
      omega
    · exact Nat.le_refl _
  shown pos := pos.shown indexed
  ok pos := pos.ok indexed
  step {s p} c pos allowed := by
    obtain ⟨linked, k, indexPos⟩ := pos.linked
    have length := indexed.length
    cases c with
    | seek target => exact pos.seek indexed target enough
    | seekToFirst =>
      rcases linked.move indexed (j := 0) .seekToFirst .seekToFirst rfl indexPos trivial rfl with
        ⟨last, gone⟩ | ⟨block, found, rests⟩
      · have none : blocks.flatten.length = 0 := by
          rw [← Cursors.blockStart_length, ← length, ← last, Cursors.blockStart_zero]
        exact (gone.skip indexed .next .seekToFirst fuel).congr none
      · exact rests.skipForward indexed (by omega)
    | seekToLast =>
      have total := Cursors.blockStart_length blocks
      rcases linked.move indexed (j := index.length - 1) .seekToLast .seekToLast rfl indexPos trivial rfl with
        ⟨last, gone⟩ | ⟨block, found, rests⟩
      · have none : blocks.flatten.length = 0 := by
          rw [← total, ← length, show index.length = 0 by omega, Cursors.blockStart_zero]
        exact (gone.skip indexed .prev .seekToLast fuel).congr (by rw [Cursors.move, none])
      · have present := (List.getElem?_eq_some_iff.mp found).1
        have start := Cursors.blockStart_succ found
        rw [show index.length - 1 + 1 = blocks.length by omega, total] at start
        change Rests index indexAt dataAt _ _ (block.length - 1) at rests
        refine (rests.skipBackward indexed found (show index.length - 1 < fuel by omega)).congr ?_
        rw [Cursors.move]
        split_ifs <;> omega
    | next =>
      rcases pos with ⟨j, i, block, rests, found, inside, rfl⟩ | ⟨_, rfl⟩
      · have present := (List.getElem?_eq_some_iff.mp found).1
        exact (rests.dataCall indexed found .next inside).skipForward indexed (by omega)
      · exact absurd allowed (Nat.lt_irrefl _)
    | prev =>
      rcases pos with ⟨j, i, block, rests, found, inside, rfl⟩ | ⟨_, rfl⟩
      · have present := (List.getElem?_eq_some_iff.mp found).1
        refine ((rests.dataCall indexed found .prev inside).skipBackward indexed found
          (show j < fuel by omega)).congr ?_
        simp only [Cursors.move]
        split_ifs <;> omega
      · exact absurd allowed (Nat.lt_irrefl _)

end Simulation

end TwoLevelIter

end WormholeFilters.LevelDb
