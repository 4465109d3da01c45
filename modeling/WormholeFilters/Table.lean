import WormholeFilters.TableBuilder
import WormholeFilters.TwoLevelIter

/-! table/table.cc. A table reads blocks of its file through the block cache; which blocks
the cache has is left open. -/
namespace WormholeFilters.LevelDb

open LittleEndian
open Env (Status kBlockTrailerSize present)
open Cursors (Call Sorted)
open TableBuilder (IsTable Holds indexEntries metaindexEntries filterBlocks filterKey)

/-- What a table reads from. `cached` is the block that `Lookup` finds for an offset of this file. -/
structure TableFile where
  port : Port
  signedChar : Bool
  read : Nat → Nat → Status × Option (List Byte)
  cached : Nat → Option Block

structure Table where
  options : TableOptions
  metaindexHandle : BlockHandle
  indexBlock : Block
  filter : Option (FilterPolicy × FilterBlockReader)

namespace Table

section Model

variable (src : TableFile) (verifyChecksums : Bool)

def blockIterator (o : TableOptions) : Iterator (Except Status BlockIter) := (BlockIter.iterator o.comparator).orEmpty

def readFilter (policy : FilterPolicy) (filterHandleValue : List Byte) (t : Table) : Table :=
  match BlockHandle.decodeFrom filterHandleValue with
  | .error _ => t
  | .ok (filterHandle, _) =>
    match readBlock src.port t.options.paranoidChecks src.read filterHandle with
    | .error _ => t
    | .ok block => { t with filter := some (policy, FilterBlockReader.ofContents src.signedChar block) }

/-- Errors are not propagated. -/
def readMeta (footer : Footer) (t : Table) : Table :=
  match t.options.filterPolicy with
  | none => t
  | some (name, policy) =>
    match readBlock src.port t.options.paranoidChecks src.read footer.metaindexHandle with
    | .error _ => t
    | .ok contents =>
      let iterator := (BlockIter.iterator bytewiseComparator).orEmpty
      let key := filterKey name
      let iter := iterator.call (.seek key) (Block.ofContents contents).newIterator
      if iterator.valid iter ∧ iterator.key iter = key then t.readFilter src policy (iterator.value iter) else t

def openTable (options : TableOptions) (size : Nat) : Except Status Table :=
  if size < Footer.kEncodedLength then .error (.corruption "file is too short to be an sstable")
  else
    match src.read (size - Footer.kEncodedLength) Footer.kEncodedLength with
    | (.ok, footerInput) =>
      match Footer.decodeFrom (footerInput.getD []) with
      | .error s => .error s
      | .ok (footer, _) =>
        match readBlock src.port options.paranoidChecks src.read footer.indexHandle with
        | .error s => .error s
        | .ok indexBlockContents =>
          .ok (readMeta src footer ⟨options, footer.metaindexHandle, Block.ofContents indexBlockContents, none⟩)
    | (s, _) => .error s

/-- The block of a handle, from the cache if it is there. -/
def loadBlock (handle : BlockHandle) : Except Status Block :=
  match src.cached handle.offset with
  | some block => .ok block
  | none => (readBlock src.port verifyChecksums src.read handle).map Block.ofContents

/-- What is behind the handle in an index value is ignored. -/
def blockReader (indexValue : List Byte) : Except Status BlockIter :=
  match BlockHandle.decodeFrom indexValue with
  | .error s => .error s
  | .ok (handle, _) =>
    match loadBlock src verifyChecksums handle with
    | .error s => .error s
    | .ok block => block.newIterator

/-- The cache after `BlockReader` has inserted the block it read. -/
def fillCache (handle : BlockHandle) : TableFile :=
  match loadBlock src verifyChecksums handle with
  | .error _ => src
  | .ok block => { src with cached := Function.update src.cached handle.offset (some block) }

def iterator (t : Table) (fuel : Nat) : Iterator (TwoLevelIter (Except Status BlockIter) (Except Status BlockIter)) :=
  TwoLevelIter.iterator (blockIterator t.options) (blockIterator t.options) (blockReader src verifyChecksums) fuel

def newIterator (t : Table) : TwoLevelIter (Except Status BlockIter) (Except Status BlockIter) :=
  TwoLevelIter.init t.indexBlock.newIterator

/-- Whether the filter excludes the key from the block of a handle. -/
def filtered (t : Table) (handleValue k : List Byte) : Option Bool :=
  match t.filter, BlockHandle.decodeFrom handleValue with
  | some (policy, filter), .ok (handle, _) => (filter.keyMayMatch policy handle.offset k).map (!·)
  | _, _ => some false

/-- The status and the arguments of `handle_result` if it is called. Without a value where
the filter has none. -/
def internalGet (t : Table) (k : List Byte) : Option (Status × Option (List Byte × List Byte)) :=
  let it := blockIterator t.options
  let iiter := it.call (.seek k) t.indexBlock.newIterator
  if it.valid iiter then
    (t.filtered (it.value iiter) k).map fun skip =>
      if skip then (it.status iiter, none)
      else
        let blockIter := it.call (.seek k) (blockReader src verifyChecksums (it.value iiter))
        let s := it.status blockIter
        (if s = .ok then it.status iiter else s, it.iter.shown blockIter)
  else some (it.status iiter, none)

def approximateOffsetOf (t : Table) (key : List Byte) : Nat :=
  let it := blockIterator t.options
  let indexIter := it.call (.seek key) t.indexBlock.newIterator
  if it.valid indexIter then
    match BlockHandle.decodeFrom (it.value indexIter) with
    | .ok (handle, _) => handle.offset
    | .error _ => t.metaindexHandle.offset
  else t.metaindexHandle.offset

end Model

def Reads (src : TableFile) (file : List Byte) : Prop :=
  ∀ offset n, offset + n ≤ file.length → src.read offset n = (.ok, some (present file offset n))

/-- An upper bound for the bytes of each data block and of the index. -/
def sizeBound (entries : List (List Byte × List Byte)) : Nat :=
  (entries.map fun e => e.1.length + e.2.length + 39).sum + 8

section Reading

variable {src : TableFile} {port : Port} {o : TableOptions} {near : List Byte → List Byte → Prop} {file : List Byte}
  {footer : Footer} {filterBlockHandle : BlockHandle} {indexed : List (List Byte × DataBlock)} {verifyChecksums : Bool}
  {x : List Byte × DataBlock} {h : BlockHandle} {data : List Byte}

theorem readBlock_holds (reads : Reads src file) (small : file.length < 2 ^ 64) (holds : Holds src.port file h data)
    (verifyChecksums : Bool) : readBlock src.port verifyChecksums src.read h = .ok data := by
  have inside := holds.inside
  have length : (present file h.offset (h.size + kBlockTrailerSize)).length = h.size + kBlockTrailerSize := by
    rw [present, List.length_take, List.length_drop]
    omega
  rw [readBlock, Env.readBlock, Nat.mod_eq_of_lt (by omega), reads _ _ inside]
  simp only [Option.getD_some, length, ne_eq, not_true_eq_false, if_false]
  exact holds.reads verifyChecksums

theorem fits_of_holds (small : file.length < 2 ^ 64) (holds : Holds port file h data) : h.Fits := by
  have := holds.inside
  exact ⟨by omega, by omega⟩

structure Small (o : TableOptions) (file : List Byte) (filterBlockHandle : BlockHandle)
    (indexed : List (List Byte × DataBlock)) : Prop where
  file : file.length < 2 ^ 64
  block : ∀ x ∈ indexed, (BlockBuilder.addAll o.blockRestartInterval x.2.entries).finish.buffer.length < 2 ^ 32
  index : (BlockBuilder.addAll 1 (indexEntries indexed)).finish.buffer.length < 2 ^ 32
  metaindex : (BlockBuilder.addAll o.blockRestartInterval (metaindexEntries o filterBlockHandle)).finish.buffer.length <
    2 ^ 32

theorem le_sizeBound {entries : List (List Byte × List Byte)} {e : List Byte × List Byte} (member : e ∈ entries) :
    e.1.length + e.2.length + 39 + 8 ≤ sizeBound entries := by
  obtain ⟨front, rest, rfl⟩ := List.append_of_mem member
  simp only [sizeBound, List.map_append, List.map_cons, List.sum_append, List.sum_cons]
  omega

theorem sizeBound_append (front rest : List (List Byte × List Byte)) :
    sizeBound (front ++ rest) + 8 = sizeBound front + sizeBound rest := by
  simp only [sizeBound, List.map_append, List.sum_append]
  omega

theorem blockBound_le (entries : List (List Byte × List Byte)) :
    BlockBuilder.sizeBound entries ≤ sizeBound entries := by
  induction entries with
  | nil => exact Nat.le_refl _
  | cons e entries ih =>
    simp only [BlockBuilder.sizeBound, sizeBound, List.map_cons, List.sum_cons] at ih ⊢
    omega

theorem sizeBound_block_le (member : x ∈ indexed) :
    sizeBound x.2.entries ≤ sizeBound (indexed.flatMap fun x => x.2.entries) := by
  obtain ⟨front, rest, rfl⟩ := List.append_of_mem member
  have first := sizeBound_append (front.flatMap fun x => x.2.entries)
    (x.2.entries ++ rest.flatMap fun x => x.2.entries)
  have second := sizeBound_append x.2.entries (rest.flatMap fun x => x.2.entries)
  have low (es : List (List Byte × List Byte)) : 8 ≤ sizeBound es := Nat.le_add_left _ _
  have := low (front.flatMap fun x => x.2.entries)
  have := low (rest.flatMap fun x => x.2.entries)
  rw [List.flatMap_append, List.flatMap_cons]
  omega

/-- The key of a block in the index is no longer than one of its entries. -/
theorem indexBound_le (short : ∀ x ∈ indexed, ∃ e ∈ x.2.entries, x.1.length ≤ e.1.length)
    (fits : ∀ x ∈ indexed, x.2.handle.Fits) :
    BlockBuilder.sizeBound (indexEntries indexed) ≤ sizeBound (indexed.flatMap fun x => x.2.entries) := by
  induction indexed with
  | nil => exact Nat.le_refl _
  | cons x indexed ih =>
    obtain ⟨⟨e, member, shorter⟩, short'⟩ := List.forall_mem_cons.mp short
    obtain ⟨fit, fits'⟩ := List.forall_mem_cons.mp fits
    have rest := ih short' fits'
    have one := le_sizeBound member
    have both := sizeBound_append x.2.entries (indexed.flatMap fun x => x.2.entries)
    have handle := BlockHandle.length_encodeTo_le fit
    simp only [BlockBuilder.sizeBound, indexEntries, List.map_cons, List.sum_cons, List.flatMap_cons,
      BlockHandle.kMaxEncodedLength] at rest both handle ⊢
    omega

theorem small_of_isTable (table : IsTable port o near file footer filterBlockHandle indexed)
    (fileSmall : file.length < 2 ^ 64) (small : sizeBound (indexed.flatMap fun x => x.2.entries) < 2 ^ 32)
    (name : ∀ name policy, o.filterPolicy = some (name, policy) → name.length < 2 ^ 31) :
    Small o file filterBlockHandle indexed where
  file := fileSmall
  block x member := by
    have bound := BlockBuilder.length_finish_addAll_le o.blockRestartInterval x.2.entries
    have le := blockBound_le x.2.entries
    have le' := sizeBound_block_le member
    omega
  index := by
    have bound := BlockBuilder.length_finish_addAll_le 1 (indexEntries indexed)
    have le := indexBound_le table.fences.short fun x member => fits_of_holds fileSmall (table.stored x member).2
    omega
  metaindex := by
    have bound := BlockBuilder.length_finish_addAll_le o.blockRestartInterval (metaindexEntries o filterBlockHandle)
    refine Nat.lt_of_le_of_lt bound ?_
    rw [metaindexEntries]
    cases given : o.filterPolicy with
    | none => exact (by decide : BlockBuilder.sizeBound [] < 2 ^ 32)
    | some pair =>
      obtain ⟨last, _, _, holds⟩ := table.filter given
      have handle := BlockHandle.length_encodeTo_le (fits_of_holds fileSmall holds)
      have length := name _ _ given
      simp only [BlockBuilder.sizeBound, filterKey, BlockHandle.kMaxEncodedLength, List.map_singleton,
        List.sum_singleton,
        List.length_append, List.length_cons, List.length_nil] at handle ⊢
      omega

variable (reads : Reads src file) (table : IsTable src.port o near file footer filterBlockHandle indexed)
  (small : Small o file filterBlockHandle indexed)

def IsFilter (src : TableFile) (o : TableOptions) (file : List Byte) (indexed : List (List Byte × DataBlock))
    (filter : Option (FilterPolicy × FilterBlockReader)) : Prop :=
  match o.filterPolicy with
  | none => filter = none
  | some (_, policy) => ∃ last, (∀ x ∈ indexed, x.2.handle.offset < last) ∧
    let block := FilterBlockBuilder.build policy (filterBlocks (indexed.map Prod.snd) ++ [(last, [])])
    block.length ≤ file.length ∧ filter = some (policy, FilterBlockReader.ofContents src.signedChar block)

include reads table small in
/-- The filter is found through the metaindex. -/
theorem readMeta_eq (positive : 0 < o.blockRestartInterval) (t : Table) (options : t.options = o)
    (none : t.filter = none) :
      ∃ filter, readMeta src footer t = { t with filter } ∧ IsFilter src o file indexed filter := by
  subst options
  rw [readMeta]
  simp only [IsFilter]
  cases given : t.options.filterPolicy with
  | none => exact ⟨t.filter, rfl, none⟩
  | some pair =>
    obtain ⟨name, policy⟩ := pair
    obtain ⟨last, before, size, holds⟩ := table.filter given
    have entries : metaindexEntries t.options filterBlockHandle =
        [(filterKey name, filterBlockHandle.encodeTo [])] := by
      rw [metaindexEntries, given]
    have metaindex := small.metaindex
    have contents := readBlock_holds reads small.file table.metaindex t.options.paranoidChecks
    rw [entries] at metaindex contents
    have := BytewiseComparator.lawful.trans
    obtain ⟨it, pos, made, sim, start⟩ := Block.simulates_addAll (c := bytewiseComparator) this positive
      (List.pairwise_singleton _ _) metaindex
    have sought := sim.step (.seek (filterKey name)) start trivial
    have found : Cursors.move bytewiseComparator.compare [(filterKey name, filterBlockHandle.encodeTo [])]
        (.seek (filterKey name)) 1 = 0 := by
      refine Cursors.lowerBound_eq (Nat.zero_le _) (by simp) fun e first => ?_
      cases first
      have same : bytewiseComparator.compare (filterKey name) (filterKey name) = .eq := Std.ReflCmp.compare_self
      simp [same]
    rw [List.length_singleton, found] at sought
    have valid := (sim.valid_iff sought).mpr Nat.one_pos
    obtain ⟨key, value⟩ := sim.entry sought rfl
    simp only [Iterator.iter_valid, Iterator.iter_key, Iterator.iter_value, Iterator.iter_call] at valid key value
    have inside := holds.inside
    refine ⟨_, ?_, last, before, by omega, rfl⟩
    simp only [contents, made, Iterator.orEmpty]
    rw [if_pos ⟨valid, key⟩, value, readFilter]
    have decoded := BlockHandle.decodeFrom_encodeTo (fits_of_holds small.file holds) []
    rw [List.append_nil] at decoded
    rw [decoded]
    simp only [readBlock_holds reads small.file holds]

include reads table small in
/-- A table opens with the index and the filter that were written. -/
theorem openTable_eq (positive : 0 < o.blockRestartInterval) : ∃ filter,
    openTable src o file.length = .ok ⟨o, footer.metaindexHandle,
      Block.ofContents (BlockBuilder.addAll 1 (indexEntries indexed)).finish.buffer, filter⟩ ∧
      IsFilter src o file indexed filter := by
  have metaindex := fits_of_holds small.file table.metaindex
  have index := fits_of_holds small.file table.index
  have length := Footer.length_encodeTo metaindex index
  obtain ⟨front, same⟩ := table.footer
  have size : file.length = front.length + Footer.kEncodedLength := by rw [same, List.length_append, length]
  have bytes : present file (file.length - Footer.kEncodedLength) Footer.kEncodedLength = footer.encodeTo [] := by
    rw [size, Nat.add_sub_cancel, present, same, List.drop_left, List.take_of_length_le (Nat.le_of_eq length)]
  have decoded := Footer.decodeFrom_encodeTo metaindex index []
  rw [List.append_nil] at decoded
  obtain ⟨filter, result, isFilter⟩ := readMeta_eq reads table small positive ⟨o, footer.metaindexHandle,
    Block.ofContents (BlockBuilder.addAll 1 (indexEntries indexed)).finish.buffer, none⟩ rfl rfl
  refine ⟨filter, ?_, isFilter⟩
  rw [openTable, if_neg (by omega), reads _ _ (by omega), bytes]
  simp only [Option.getD_some, decoded, readBlock_holds reads small.file table.index, result]

/-- The cache has no blocks but those of the file. -/
def Coherent (src : TableFile) (o : TableOptions) (indexed : List (List Byte × DataBlock)) : Prop :=
  ∀ x ∈ indexed, ∀ block, src.cached x.2.handle.offset = some block →
    block = Block.ofContents (BlockBuilder.addAll o.blockRestartInterval x.2.entries).finish.buffer

variable (coherent : Coherent src o indexed)

include reads table small coherent in
/-- The cache makes no difference. -/
theorem loadBlock_eq (member : x ∈ indexed) (verifyChecksums : Bool) : loadBlock src verifyChecksums x.2.handle =
    .ok (Block.ofContents (BlockBuilder.addAll o.blockRestartInterval x.2.entries).finish.buffer) := by
  rw [loadBlock]
  cases cached : src.cached x.2.handle.offset with
  | some block => rw [coherent x member block cached]
  | none =>
    rw [readBlock_holds reads small.file (table.stored x member).2 verifyChecksums]
    rfl

include reads table small coherent in
theorem fillCache_coherent (member : x ∈ indexed) (verifyChecksums : Bool) :
    Coherent (fillCache src verifyChecksums x.2.handle) o indexed := by
  rw [fillCache, loadBlock_eq reads table small coherent member]
  intro y other block found
  dsimp only at found
  by_cases same : y.2.handle.offset = x.2.handle.offset
  · rw [same, Function.update_self] at found
    have equal := List.inj_on_of_nodup_map (table.apart.imp Nat.ne_of_lt) other member same
    rw [equal]
    exact (Option.some.inj found).symm
  · rw [Function.update_of_ne same] at found
    exact coherent y other block found

variable (trans : Std.TransCmp o.comparator.compare) (positive : 0 < o.blockRestartInterval)
  (sorted : Sorted o.comparator.compare (indexed.flatMap fun x => x.2.entries))

include reads table small coherent trans positive sorted in
theorem blockReader_simulates (member : x ∈ indexed) (verifyChecksums : Bool) : ∃ it pos,
    blockReader src verifyChecksums (x.2.handle.encodeTo []) = .ok it ∧
      Cursors.Simulates (BlockIter.iterator o.comparator).iter o.comparator.compare x.2.entries pos ∧
      pos it x.2.entries.length := by
  have part : x.2.entries.Sublist (indexed.flatMap fun x => x.2.entries) := by
    obtain ⟨front, rest, rfl⟩ := List.append_of_mem member
    rw [List.flatMap_append, List.flatMap_cons]
    exact (List.sublist_append_left _ _).trans (List.sublist_append_right _ _)
  obtain ⟨it, pos, made, sim, start⟩ := Block.simulates_addAll trans positive
    (List.pairwise_map.mpr (sorted.sublist part)) (small.block x member)
  have decoded := BlockHandle.decodeFrom_encodeTo (fits_of_holds small.file (table.stored x member).2) []
  rw [List.append_nil] at decoded
  refine ⟨it, pos, ?_, sim, start⟩
  rw [blockReader, decoded]
  simp only [loadBlock_eq reads table small coherent member, made]

include table trans in
theorem indexKeys_sorted : Sorted o.comparator.compare (indexEntries indexed) := by
  rw [Sorted, indexEntries, List.pairwise_map]
  refine List.Pairwise.imp_of_mem (fun {x y} _ other behind => ?_) table.fences.behind
  obtain ⟨e, present⟩ := List.exists_mem_of_ne_nil _ (table.stored y other).1
  exact trans.lt_of_lt_of_isLE (behind e present).lt (table.fences.le y other e present)

include table in
theorem fenced : Cursors.Fenced o.comparator.compare ((indexEntries indexed).map Prod.fst)
    (indexed.map fun x => x.2.entries) := by
  rw [indexEntries, List.map_map]
  refine ⟨by simp, fun {j f block e} fence found member => ?_, fun {j k f block e} fence found before member => ?_⟩
  · rw [List.getElem?_map, Option.map_eq_some_iff] at fence found
    obtain ⟨x, here, rfl⟩ := fence
    obtain ⟨y, same, rfl⟩ := found
    obtain rfl : x = y := Option.some.inj (here.symm.trans same)
    exact table.fences.le x (List.mem_of_getElem? here) e member
  · rw [List.getElem?_map, Option.map_eq_some_iff] at fence found
    obtain ⟨x, here, rfl⟩ := fence
    obtain ⟨y, there, rfl⟩ := found
    obtain ⟨inside, rfl⟩ := List.getElem?_eq_some_iff.mp here
    obtain ⟨inside', rfl⟩ := List.getElem?_eq_some_iff.mp there
    exact (List.pairwise_iff_getElem.mp table.fences.behind j k inside inside' before e member).lt

include table small in
theorem handles_nodup : ((indexEntries indexed).map Prod.snd).Nodup := by
  rw [indexEntries, List.map_map]
  have offsets := List.Nodup.of_map _ (table.apart.imp Nat.ne_of_lt)
  refine List.Nodup.map_on (fun x member y other same => ?_) offsets
  have handle := BlockHandle.encodeTo_injective (fits_of_holds small.file (table.stored x member).2)
    (fits_of_holds small.file (table.stored y other).2) same
  exact List.inj_on_of_nodup_map (table.apart.imp Nat.ne_of_lt) member other (congrArg BlockHandle.offset handle)

include reads table small coherent trans positive sorted in
/-- The index and the blocks as the two-level iterator needs them. -/
theorem table_indexed (verifyChecksums : Bool) : ∃ indexAt dataAt,
    TwoLevelIter.Indexed (blockIterator o) (blockIterator o) (blockReader src verifyChecksums) o.comparator.compare
      (indexEntries indexed) (indexed.map fun x => x.2.entries) indexAt dataAt ∧
    indexAt (Block.ofContents (BlockBuilder.addAll 1 (indexEntries indexed)).finish.buffer).newIterator
      (indexEntries indexed).length := by
  obtain ⟨it, indexPos, made, indexSim, start⟩ := Block.simulates_addAll trans Nat.one_pos
    (List.pairwise_map.mpr (indexKeys_sorted table trans)) small.index
  have blocks : ∀ j : Nat, ∃ pos : BlockIter → Nat → Prop, ∀ x : List Byte × DataBlock,
      indexed[j]? = some x → ∃ it, blockReader src verifyChecksums (x.2.handle.encodeTo []) = .ok it ∧
        Cursors.Simulates (BlockIter.iterator o.comparator).iter o.comparator.compare x.2.entries pos ∧
        pos it x.2.entries.length := by
    intro j
    cases here : indexed[j]? with
    | none => exact ⟨fun _ _ => False, nofun⟩
    | some x =>
      obtain ⟨it, pos, opened, sim, start⟩ := blockReader_simulates reads table small coherent trans positive sorted
        (List.mem_of_getElem? here) verifyChecksums
      refine ⟨pos, fun y same => ?_⟩
      cases same
      exact ⟨it, opened, sim, start⟩
  choose dataPos spec using blocks
  refine ⟨Iterator.Present indexPos, fun j => Iterator.Present (dataPos j), ⟨Iterator.simulates_orEmpty indexSim,
    fenced table, handles_nodup table small, ?_, ?_⟩, by rw [made]; exact start⟩
  · intro j block found
    rw [List.getElem?_map, Option.map_eq_some_iff] at found
    obtain ⟨x, here, rfl⟩ := found
    obtain ⟨it, _, sim, _⟩ := spec j x here
    exact Iterator.simulates_orEmpty sim
  · intro j e block entry found
    rw [indexEntries, List.getElem?_map, Option.map_eq_some_iff] at entry
    rw [List.getElem?_map, Option.map_eq_some_iff] at found
    obtain ⟨x, here, rfl⟩ := entry
    obtain ⟨y, same, rfl⟩ := found
    obtain rfl : x = y := Option.some.inj (here.symm.trans same)
    obtain ⟨it, opened, _, start⟩ := spec j x here
    rw [opened]
    exact start

include reads table small coherent trans positive sorted in
/-- The iterator of a table simulates the entries; a new one is at none of them. -/
theorem simulates (verifyChecksums : Bool) {fuel : Nat} (enough : indexed.length < fuel)
    (filter : Option (FilterPolicy × FilterBlockReader)) : ∃ pos,
      let t : Table := ⟨o, footer.metaindexHandle,
        Block.ofContents (BlockBuilder.addAll 1 (indexEntries indexed)).finish.buffer, filter⟩
      Cursors.Simulates (t.iterator src verifyChecksums fuel).iter o.comparator.compare
        (indexed.flatMap fun x => x.2.entries) pos ∧
      pos t.newIterator (indexed.flatMap fun x => x.2.entries).length := by
  obtain ⟨indexAt, dataAt, isIndexed, start⟩ :=
    table_indexed reads table small coherent trans positive sorted verifyChecksums
  have sim := TwoLevelIter.simulates isIndexed (show (indexEntries indexed).length < fuel by
    rwa [indexEntries, List.length_map])
  rw [← List.flatMap_def] at sim
  refine ⟨_, sim, Or.inr ⟨⟨rfl, start, rfl⟩, ?_⟩⟩
  rw [List.flatMap_def]

theorem getElem?_indexEntries {i : Nat} (found : indexed[i]? = some x) :
    (indexEntries indexed)[i]? = some (x.1, x.2.handle.encodeTo []) := by
  rw [indexEntries, List.getElem?_map, found]
  rfl

structure Sought (c : Comparator) (indexed : List (List Byte × DataBlock)) (k : List Byte) (j : Nat)
    (x : List Byte × DataBlock) : Prop where
  here : indexed[j]? = some x
  below : ∀ i y, indexed[i]? = some y → i < j → c.compare y.1 k = .lt
  above : c.compare x.1 k ≠ .lt

include table small trans in
/-- A search in the index. -/
theorem seek_index (k : List Byte) :
    let it := blockIterator o
    let iiter := it.call (.seek k)
      (Block.ofContents (BlockBuilder.addAll 1 (indexEntries indexed)).finish.buffer).newIterator
    it.status iiter = .ok ∧
      ((it.valid iiter = true ∧ ∃ j x, Sought o.comparator indexed k j x ∧ it.value iiter = x.2.handle.encodeTo []) ∨
        it.valid iiter = false ∧ ∀ x ∈ indexed, o.comparator.compare x.1 k = .lt) := by
  obtain ⟨it, pos, made, sim, start⟩ := Block.simulates_addAll trans Nat.one_pos
    (List.pairwise_map.mpr (indexKeys_sorted table trans)) small.index
  have sim := Iterator.simulates_orEmpty sim
  have sought := sim.step (s := .ok it) (.seek k) start trivial
  have valid := sim.valid_iff sought
  rw [Cursors.move] at sought valid
  rw [made]
  refine ⟨(Iterator.iter_ok _ _).mp (sim.ok sought), ?_⟩
  rcases Nat.lt_or_ge (Cursors.lowerBound o.comparator.compare (indexEntries indexed) k)
    (indexEntries indexed).length with
    inside | outside
  · have present : Cursors.lowerBound o.comparator.compare (indexEntries indexed) k < indexed.length := by
      simpa [indexEntries] using inside
    have here := List.getElem?_eq_getElem present
    have entry := getElem?_indexEntries here
    refine Or.inl ⟨valid.mpr inside, _, _, ⟨here, fun i y found before => ?_, ?_⟩, (sim.entry sought entry).2⟩
    · have less := Cursors.lt_of_lt_lowerBound (getElem?_indexEntries found) before
      exact less
    · have reached := Cursors.not_lt_at_lowerBound entry
      exact reached
  · refine Or.inr ⟨Bool.eq_false_iff.mpr fun h => absurd (valid.mp h) (Nat.not_lt.mpr outside), fun x member => ?_⟩
    obtain ⟨i, found⟩ := List.mem_iff_getElem?.mp member
    have entry := getElem?_indexEntries found
    have early := (List.getElem?_eq_some_iff.mp entry).1
    have less := Cursors.lt_of_lt_lowerBound entry (Nat.lt_of_lt_of_le early outside)
    exact less

include table in
/-- A search in the block that the index gives is a search in all entries, unless it ends behind the block. -/
theorem Sought.lowerBound (trans : Std.TransCmp o.comparator.compare) {k : List Byte} {j : Nat}
    (sought : Sought o.comparator indexed k j x) :
    Cursors.lowerBound o.comparator.compare (indexed.flatMap fun x => x.2.entries) k =
      Cursors.blockStart (indexed.map fun x => x.2.entries) j + Cursors.lowerBound o.comparator.compare
        x.2.entries k := by
  rw [List.flatMap_def]
  refine (fenced table).lowerBound_flatten (fun i f found => ?_) (by rw [List.getElem?_map, sought.here]; rfl)
  rw [indexEntries, List.map_map, List.getElem?_map, Option.map_eq_some_iff] at found
  obtain ⟨y, there, rfl⟩ := found
  refine ⟨sought.below i y there, fun same => ?_⟩
  subst same
  rw [Option.some.inj (there.symm.trans sought.here)]
  exact sought.above

include table in
/-- What a search in all entries is meant to find is in the block that the index gives. -/
theorem Sought.found (trans : Std.TransCmp o.comparator.compare) {k : List Byte} {j : Nat} {e : List Byte × List Byte}
    (sought : Sought o.comparator indexed k j x)
    (found : (indexed.flatMap fun x => x.2.entries)[
      Cursors.lowerBound o.comparator.compare (indexed.flatMap fun x => x.2.entries) k]? = some e)
    (close : near k e.1) : x.2.entries[Cursors.lowerBound o.comparator.compare x.2.entries k]? = some e := by
  have block : (indexed.map fun x => x.2.entries)[j]? = some x.2.entries := by
    rw [List.getElem?_map, sought.here]
    rfl
  rw [sought.lowerBound table trans, List.flatMap_def] at found
  rcases Nat.lt_or_ge (Cursors.lowerBound o.comparator.compare x.2.entries k) x.2.entries.length with inside | behind
  · rwa [Cursors.getElem?_flatten block inside] at found
  · -- the entry is of a later block, and the key in the index would be below `k`
    have last := Nat.le_antisymm (Cursors.lowerBound_le o.comparator.compare x.2.entries k) behind
    have all : ∀ e' ∈ x.2.entries, o.comparator.compare e'.1 k = .lt := by
      intro e' member
      obtain ⟨i, entry⟩ := List.mem_iff_getElem?.mp member
      have early := (List.getElem?_eq_some_iff.mp entry).1
      exact Cursors.lt_of_lt_lowerBound entry (by omega)
    obtain ⟨j', i, block', found', inside, place⟩ := Cursors.exists_block (List.getElem?_eq_some_iff.mp found).1
    have start := Cursors.blockStart_succ block
    have later : j < j' := by
      by_contra early
      have order := Cursors.blockStart_le (indexed.map fun x => x.2.entries) (Nat.succ_le_succ (Nat.not_lt.mp early))
      have stop := Cursors.blockStart_succ found'
      rw [Nat.succ_eq_add_one, Nat.succ_eq_add_one] at order
      omega
    rw [place, Cursors.getElem?_flatten found' inside] at found
    rw [List.getElem?_map, Option.map_eq_some_iff] at found'
    obtain ⟨y, there, rfl⟩ := found'
    obtain ⟨within, same⟩ := List.getElem?_eq_some_iff.mp sought.here
    obtain ⟨within', same'⟩ := List.getElem?_eq_some_iff.mp there
    have fence := List.pairwise_iff_getElem.mp table.fences.behind j j' within within' later e
      (by rw [same']; exact List.mem_of_getElem? found)
    rw [same] at fence
    exact absurd (fence.tight close all) sought.above

/-- The filter for a data block, over the keys of all blocks that start in its range. -/
def blockFilter (policy : FilterPolicy) (blocks : List DataBlock) (b : DataBlock) : List Byte :=
  FilterBlockBuilder.filterOf policy (FilterBlockBuilder.rangeKeys (filterBlocks blocks) (b.handle.offset / filterBase))

/-- The filters of a table with these data blocks do not exclude `e` from a search for `k`. -/
def Matched (o : TableOptions) (blocks : List DataBlock) (k e : List Byte) : Prop :=
  ∀ name policy, o.filterPolicy = some (name, policy) → FilterBlockBuilder.Appends policy ∧
    ∀ b ∈ blocks, e ∈ b.entries.map Prod.fst → policy.keyMayMatch k (blockFilter policy blocks b) = some true

def Answers (o : TableOptions) (blocks : List DataBlock) (k : List Byte) : Prop :=
  ∀ name policy, o.filterPolicy = some (name, policy) → FilterBlockBuilder.Appends policy ∧
    ∀ b ∈ blocks, (policy.keyMayMatch k (blockFilter policy blocks b)).isSome = true

include table small in
theorem filtered_eq {t : Table} (isFilter : IsFilter src o file indexed t.filter) (fileSmall : file.length < 2 ^ 32)
    (member : x ∈ indexed) {name : List Byte} {policy : FilterPolicy} (given : o.filterPolicy = some (name, policy))
    (appends : FilterBlockBuilder.Appends policy) (k : List Byte) : t.filtered (x.2.handle.encodeTo []) k =
      (policy.keyMayMatch k (blockFilter policy (indexed.map Prod.snd) x.2)).map (!·) := by
  obtain ⟨nonempty, holds⟩ := table.stored x member
  have decoded := BlockHandle.decodeFrom_encodeTo (fits_of_holds small.file holds) []
  rw [List.append_nil] at decoded
  rw [filtered, decoded]
  rw [IsFilter, given] at isFilter
  obtain ⟨last, before, size, filter⟩ := isFilter
  have block : (x.2.handle.offset, x.2.entries.map Prod.fst) ∈ filterBlocks (indexed.map Prod.snd) ++ [(last, [])] :=
    List.mem_append_left _ (List.mem_map.mpr ⟨x.2, List.mem_map_of_mem member, rfl⟩)
  have ordered : ((filterBlocks (indexed.map Prod.snd) ++ [(last, [])]).map Prod.fst).Pairwise (· ≤ ·) := by
    rw [List.map_append, List.pairwise_append, filterBlocks, List.map_map, List.map_map]
    refine ⟨table.apart.imp Nat.le_of_lt, List.pairwise_singleton _ _, fun offset old new isLast => ?_⟩
    obtain ⟨y, other, rfl⟩ := List.mem_map.mp old
    rw [List.map_singleton, List.mem_singleton] at isLast
    rw [isLast]
    exact Nat.le_of_lt (before y other)
  obtain ⟨e, present⟩ := List.exists_mem_of_ne_nil _ nonempty
  have inRange := FilterBlockBuilder.mem_rangeKeys block (List.mem_map_of_mem present)
  have answer := FilterBlockBuilder.keyMayMatch_build appends src.signedChar ordered (by omega) block
    (List.ne_nil_of_mem inRange) k
  -- `Finish` starts a block behind the last one, which has no keys.
  rw [FilterBlockBuilder.rangeKeys_append, ite_self, List.append_nil] at answer
  rw [filter]
  exact congrArg (Option.map _) answer

theorem filtered_of_none {t : Table} (isFilter : IsFilter src o file indexed t.filter) (plain : o.filterPolicy = none)
    (handleValue k : List Byte) : t.filtered handleValue k = some false := by
  rw [IsFilter, plain] at isFilter
  rw [filtered, isFilter]

include table small in
theorem not_filtered {t : Table} (isFilter : IsFilter src o file indexed t.filter) (fileSmall : file.length < 2 ^ 32)
    (member : x ∈ indexed) {k : List Byte} {e : List Byte × List Byte} (present : e ∈ x.2.entries)
    (matched : Matched o (indexed.map Prod.snd) k e.1) : t.filtered (x.2.handle.encodeTo []) k = some false := by
  cases given : o.filterPolicy with
  | none => exact filtered_of_none isFilter given _ _
  | some pair =>
    obtain ⟨appends, matched⟩ := matched _ _ given
    rw [filtered_eq table small isFilter fileSmall member given appends,
      matched x.2 (List.mem_map_of_mem member) (List.mem_map_of_mem present)]
    rfl

include table small in
theorem filtered_isSome {t : Table} (isFilter : IsFilter src o file indexed t.filter) (fileSmall : file.length < 2 ^ 32)
    (member : x ∈ indexed) {k : List Byte} (answers : Answers o (indexed.map Prod.snd) k) :
    (t.filtered (x.2.handle.encodeTo []) k).isSome = true := by
  cases given : o.filterPolicy with
  | none => rw [filtered_of_none isFilter given, Option.isSome_some]
  | some pair =>
    obtain ⟨appends, answers⟩ := answers _ _ given
    rw [filtered_eq table small isFilter fileSmall member given appends, Option.isSome_map]
    exact answers x.2 (List.mem_map_of_mem member)

include reads table small coherent trans positive sorted in
/-- A search in one block. -/
theorem seek_block (member : x ∈ indexed) (verifyChecksums : Bool) (k : List Byte) :
    let it := blockIterator o
    let blockIter := it.call (.seek k) (blockReader src verifyChecksums (x.2.handle.encodeTo []))
    it.status blockIter = .ok ∧
      it.iter.shown blockIter = x.2.entries[Cursors.lowerBound o.comparator.compare x.2.entries k]? := by
  obtain ⟨it, pos, opened, sim, start⟩ :=
    blockReader_simulates reads table small coherent trans positive sorted member verifyChecksums
  have sim := Iterator.simulates_orEmpty sim
  have sought := sim.step (s := .ok it) (.seek k) start trivial
  rw [opened]
  exact ⟨(Iterator.iter_ok _ _).mp (sim.ok sought), sim.shown sought⟩

variable {filter : Option (FilterPolicy × FilterBlockReader)}

include reads table small coherent trans positive sorted in
/-- What `InternalGet` reports is the first entry not below the key. -/
theorem internalGet_reports {k : List Byte} {s : Status} {reported : Option (List Byte × List Byte)}
    (result : internalGet src verifyChecksums ⟨o, footer.metaindexHandle,
      Block.ofContents (BlockBuilder.addAll 1 (indexEntries indexed)).finish.buffer, filter⟩ k = some (s, reported)) :
    s = .ok ∧ ∀ e, reported = some e → (indexed.flatMap fun x => x.2.entries)[
      Cursors.lowerBound o.comparator.compare (indexed.flatMap fun x => x.2.entries) k]? = some e := by
  obtain ⟨ok, ⟨valid, j, x, sought, value⟩ | ⟨invalid, _⟩⟩ := seek_index table small trans k
  · have member := List.mem_of_getElem? sought.here
    obtain ⟨ok', shown⟩ := seek_block reads table small coherent trans positive sorted member verifyChecksums k
    rw [internalGet] at result
    dsimp only at result ok valid value ok' shown
    rw [if_pos valid, value] at result
    obtain ⟨skip, _, result⟩ := Option.map_eq_some_iff.mp result
    rw [ok, ok', shown] at result
    cases skip with
    | true =>
      cases result
      exact ⟨rfl, nofun⟩
    | false =>
      cases result
      refine ⟨rfl, fun e found => ?_⟩
      have block : (indexed.map fun x => x.2.entries)[j]? = some x.2.entries := by
        rw [List.getElem?_map, sought.here]
        rfl
      rw [sought.lowerBound table trans, List.flatMap_def,
        Cursors.getElem?_flatten block (List.getElem?_eq_some_iff.mp found).1]
      exact found
  · rw [internalGet] at result
    dsimp only at result invalid ok
    rw [invalid, ok] at result
    cases result
    exact ⟨rfl, nofun⟩

include reads table small coherent trans positive sorted in
/-- An entry that the search is meant to find is reported, unless a filter excludes it. -/
theorem internalGet_found (isFilter : IsFilter src o file indexed filter) (fileSmall : file.length < 2 ^ 32)
    {k : List Byte} {e : List Byte × List Byte} (found : (indexed.flatMap fun x => x.2.entries)[
      Cursors.lowerBound o.comparator.compare (indexed.flatMap fun x => x.2.entries) k]? = some e)
    (close : near k e.1) (matched : Matched o (indexed.map Prod.snd) k e.1) :
    internalGet src verifyChecksums ⟨o, footer.metaindexHandle,
      Block.ofContents (BlockBuilder.addAll 1 (indexEntries indexed)).finish.buffer, filter⟩ k =
        some (.ok, some e) := by
  obtain ⟨ok, ⟨valid, j, x, sought, value⟩ | ⟨_, all⟩⟩ := seek_index table small trans k
  · have member := List.mem_of_getElem? sought.here
    obtain ⟨ok', shown⟩ := seek_block reads table small coherent trans positive sorted member verifyChecksums k
    have inBlock := sought.found table trans found close
    have passes := not_filtered (t := ⟨o, footer.metaindexHandle,
      Block.ofContents (BlockBuilder.addAll 1 (indexEntries indexed)).finish.buffer, filter⟩) table small isFilter
      fileSmall member
      (List.mem_of_getElem? inBlock) matched
    rw [internalGet]
    dsimp only at ok valid value ok' shown ⊢
    rw [if_pos valid, value, passes, Option.map_some, if_neg (by simp), ok, ok', shown, inBlock, if_pos rfl]
  · have behind := (fenced table).lowerBound_flatten_of_all_lt
      (show ∀ f ∈ (indexEntries indexed).map Prod.fst, o.comparator.compare f k = .lt by
        rw [indexEntries, List.map_map]
        simpa using all)
    rw [List.flatMap_def, behind, List.getElem?_eq_none (Nat.le_refl _)] at found
    cases found

include table small trans in
/-- A search returns where the filters have an answer. -/
theorem internalGet_isSome (isFilter : IsFilter src o file indexed filter) (fileSmall : file.length < 2 ^ 32)
    {k : List Byte} (answers : Answers o (indexed.map Prod.snd) k) :
    (internalGet src verifyChecksums ⟨o, footer.metaindexHandle,
      Block.ofContents (BlockBuilder.addAll 1 (indexEntries indexed)).finish.buffer, filter⟩ k).isSome = true := by
  rw [internalGet]
  obtain ⟨-, ⟨valid, j, x, sought, value⟩ | ⟨invalid, -⟩⟩ := seek_index table small trans k
  · have member := List.mem_of_getElem? sought.here
    dsimp only at valid value ⊢
    rw [if_pos valid, value, Option.isSome_map]
    exact filtered_isSome table small isFilter fileSmall member answers
  · dsimp only at invalid ⊢
    rw [invalid]
    rfl

include table small trans in
theorem approximateOffsetOf_eq (filter : Option (FilterPolicy × FilterBlockReader)) (k : List Byte) :
    let t : Table := ⟨o, footer.metaindexHandle,
      Block.ofContents (BlockBuilder.addAll 1 (indexEntries indexed)).finish.buffer, filter⟩
    (∃ j x, Sought o.comparator indexed k j x ∧ t.approximateOffsetOf k = x.2.handle.offset) ∨
      (∀ x ∈ indexed, o.comparator.compare x.1 k = .lt) ∧ t.approximateOffsetOf k = footer.metaindexHandle.offset := by
  intro t
  obtain ⟨-, ⟨valid, j, x, sought, value⟩ | ⟨invalid, all⟩⟩ := seek_index table small trans k
  · have member := List.mem_of_getElem? sought.here
    have decoded := BlockHandle.decodeFrom_encodeTo (fits_of_holds small.file (table.stored x member).2) []
    rw [List.append_nil] at decoded
    refine Or.inl ⟨j, x, sought, ?_⟩
    dsimp only [approximateOffsetOf, t]
    rw [if_pos valid, value, decoded]
  · refine Or.inr ⟨all, ?_⟩
    dsimp only [approximateOffsetOf, t]
    rw [if_neg (Bool.eq_false_iff.mp invalid)]

include table small trans in
/-- A larger key is not placed before a smaller one. -/
theorem approximateOffsetOf_le {a b : List Byte} (le : (o.comparator.compare a b).isLE) :
    let t : Table := ⟨o, footer.metaindexHandle,
      Block.ofContents (BlockBuilder.addAll 1 (indexEntries indexed)).finish.buffer, filter⟩
    t.approximateOffsetOf a ≤ t.approximateOffsetOf b := by
  intro t
  have first := approximateOffsetOf_eq table small trans filter a
  have second := approximateOffsetOf_eq table small trans filter b
  obtain ⟨i, x, soughtA, placeA⟩ | ⟨allA, placeA⟩ := first
  · obtain ⟨j, y, soughtB, placeB⟩ | ⟨-, placeB⟩ := second
    · rw [placeA, placeB]
      have order : i ≤ j := by
        by_contra behind
        have less := soughtA.below j y soughtB.here (Nat.not_le.mp behind)
        exact soughtB.above (trans.lt_of_lt_of_isLE less le)
      rcases Nat.eq_or_lt_of_le order with rfl | before
      · rw [Option.some.inj (soughtA.here.symm.trans soughtB.here)]
      · obtain ⟨inside, rfl⟩ := List.getElem?_eq_some_iff.mp soughtA.here
        obtain ⟨inside', rfl⟩ := List.getElem?_eq_some_iff.mp soughtB.here
        have apart := List.pairwise_iff_getElem.mp table.apart i j (by simpa using inside)
          (by simpa using inside') before
        simp only [List.getElem_map] at apart
        exact Nat.le_of_lt apart
    · rw [placeA, placeB]
      exact Nat.le_of_lt (table.before x (List.mem_of_getElem? soughtA.here))
  · obtain ⟨j, y, soughtB, placeB⟩ | ⟨-, placeB⟩ := second
    · exact absurd (trans.lt_of_lt_of_isLE (allA y (List.mem_of_getElem? soughtB.here)) le) soughtB.above
    · rw [placeA, placeB]

end Reading

section Built

variable {φ : Type} {port : Port} {o : TableOptions} {near : List Byte → List Byte → Prop} {f : WritableFile φ}
  {contents : φ → List Byte} {file : φ} {entries : List (List Byte × List Byte)}

structure Buildable (port : Port) (o : TableOptions) (near : List Byte → List Byte → Prop) (f : WritableFile φ)
    (contents : φ → List Byte) (file : φ) (entries : List (List Byte × List Byte)) : Prop where
  lawful : port.Lawful
  order : o.comparator.Lawful
  shortens : o.comparator.Shortens
  separates : o.comparator.Separates near
  interval : 0 < o.blockRestartInterval
  accepts : TableBuilder.Accepts f contents
  new : contents file = []
  sorted : Sorted o.comparator.compare entries
  bound : sizeBound entries < 2 ^ 32
  name : ∀ name policy, o.filterPolicy = some (name, policy) → name.length < 2 ^ 31
  fileBound : (contents ((TableBuilder.addAll port o f file entries).finish port o f).file).length < 2 ^ 32

theorem Buildable.isTable (given : Buildable port o near f contents file entries) :
    let r := (TableBuilder.addAll port o f file entries).finish port o f
    r.status = .ok ∧ ∃ footer filterBlockHandle indexed,
      IsTable port o near (contents r.file) footer filterBlockHandle indexed ∧
      Small o (contents r.file) filterBlockHandle indexed ∧ entries = (indexed.flatMap fun x => x.2.entries) ∧
      indexed.map Prod.snd = TableBuilder.dataBlocks port o f file entries := by
  have added := TableBuilder.track_added given.order given.shortens given.separates given.accepts given.lawful given.new
    given.sorted
  obtain ⟨footer, filterBlockHandle, indexed, ok, -, table, same, blocks⟩ :=
    added.finish given.order given.shortens given.accepts given.lawful given.sorted
  rw [TableBuilder.track_builder] at ok table
  refine ⟨ok, footer, filterBlockHandle, indexed, table, ?_, same, blocks⟩
  exact small_of_isTable table (Nat.lt_trans given.fileBound (by decide)) (same ▸ given.bound) given.name

theorem length_le_entries {indexed : List (List Byte × DataBlock)} (nonempty : ∀ x ∈ indexed, x.2.entries ≠ []) :
    indexed.length ≤ (indexed.flatMap fun x => x.2.entries).length := by
  induction indexed with
  | nil => exact Nat.le_refl _
  | cons x indexed ih =>
    obtain ⟨first, rest⟩ := List.forall_mem_cons.mp nonempty
    have := List.length_pos_of_ne_nil first
    have := ih rest
    rw [List.flatMap_cons, List.length_append, List.length_cons]
    omega

/-- An opened table with these entries: its iterator goes through them, and `InternalGet` reports the
first one not below a key, which it does not miss where the search is meant to find it. -/
structure Serves (src : TableFile) (verifyChecksums : Bool) (near : List Byte → List Byte → Prop) (t : Table)
    (blocks : List DataBlock) (entries : List (List Byte × List Byte)) : Prop where
  iterates : ∀ fuel, entries.length < fuel → ∃ pos,
    Cursors.Simulates (t.iterator src verifyChecksums fuel).iter t.options.comparator.compare entries pos ∧
      pos t.newIterator entries.length
  reports : ∀ k s reported, internalGet src verifyChecksums t k = some (s, reported) → s = .ok ∧
    ∀ e, reported = some e → entries[Cursors.lowerBound t.options.comparator.compare entries k]? = some e
  finds : ∀ k e, entries[Cursors.lowerBound t.options.comparator.compare entries k]? = some e → near k e.1 →
    Matched t.options blocks k e.1 → internalGet src verifyChecksums t k = some (.ok, some e)
  returns : ∀ k, Answers t.options blocks k → (internalGet src verifyChecksums t k).isSome = true
  offsets : ∀ a b, (t.options.comparator.compare a b).isLE → t.approximateOffsetOf a ≤ t.approximateOffsetOf b

theorem Buildable.opens (given : Buildable port o near f contents file entries) :
    let r := (TableBuilder.addAll port o f file entries).finish port o f
    r.status = .ok ∧ ∃ indexed, entries = indexed.flatMap (fun x => x.2.entries) ∧
      ∀ src verifyChecksums, src.port = port → Reads src (contents r.file) → Coherent src o indexed →
        (∀ x ∈ indexed, Coherent (fillCache src verifyChecksums x.2.handle) o indexed) ∧
        ∃ t, openTable src o (contents r.file).length = .ok t ∧ t.options = o ∧
          Serves src verifyChecksums near t (TableBuilder.dataBlocks port o f file entries) entries := by
  intro r
  obtain ⟨ok, footer, filterBlockHandle, indexed, table, small, same, blocks⟩ := given.isTable
  refine ⟨ok, indexed, same, fun src verifyChecksums fits reads coherent => ?_⟩
  subst fits
  obtain ⟨filter, opened, isFilter⟩ := openTable_eq reads table small given.interval
  refine ⟨fun x member => fillCache_coherent reads table small coherent member verifyChecksums, _, opened, rfl, ?_⟩
  have sorted := given.sorted
  rw [← blocks]
  subst same
  refine ⟨fun fuel enough => ?_, fun k s reported result => ?_, fun k e found close matched => ?_,
    fun k answers => internalGet_isSome table small given.order.trans isFilter given.fileBound answers,
    fun a b le => approximateOffsetOf_le table small given.order.trans le⟩
  · have fewer := length_le_entries fun x member => (table.stored x member).1
    exact simulates reads table small coherent given.order.trans given.interval sorted verifyChecksums
      (Nat.lt_of_le_of_lt fewer enough) filter
  · exact internalGet_reports reads table small coherent given.order.trans given.interval sorted result
  · exact internalGet_found reads table small coherent given.order.trans given.interval sorted isFilter given.fileBound
      found close matched

/-- A table that was built is opened, whichever blocks of it the cache has and with checksums verified or
not. Its iterator goes through the added entries, forwards and backwards, and finds the first one not below
a target, from wherever it is; what it puts into the cache changes nothing. -/
theorem built_reads_back (given : Buildable port o near f contents file entries) :
    let r := (TableBuilder.addAll port o f file entries).finish port o f
    r.status = .ok ∧ ∃ indexed, entries = indexed.flatMap (fun x => x.2.entries) ∧
      ∀ src verifyChecksums, src.port = port → Reads src (contents r.file) → Coherent src o indexed →
        (∀ x ∈ indexed, Coherent (fillCache src verifyChecksums x.2.handle) o indexed) ∧
        ∃ t, openTable src o (contents r.file).length = .ok t ∧ ∀ fuel calls, entries.length < fuel →
          Cursors.AllowedAll o.comparator.compare entries calls entries.length →
          let it := t.iterator src verifyChecksums fuel
          let s := calls.foldl (fun s c => it.call c s) t.newIterator
          it.status s = .ok ∧ it.iter.shown s =
            entries[calls.foldl (fun i c => Cursors.move o.comparator.compare entries c i) entries.length]? := by
  intro r
  obtain ⟨ok, indexed, same, opens⟩ := given.opens
  refine ⟨ok, indexed, same, fun src verifyChecksums fits reads coherent => ?_⟩
  obtain ⟨fills, t, opened, rfl, serves⟩ := opens src verifyChecksums fits reads coherent
  refine ⟨fills, t, opened, fun fuel calls enough allowed => ?_⟩
  obtain ⟨pos, sim, start⟩ := serves.iterates fuel enough
  have reached := sim.run calls start allowed
  exact ⟨(Iterator.iter_ok _ _).mp (sim.ok reached), sim.shown reached⟩

def memoryFile : WritableFile (List Byte) := ⟨fun s file => (.ok, file ++ s), fun file => (.ok, file)⟩

def noPort : Port := ⟨⟨fun _ => none, fun _ => none, fun _ _ => none⟩, ⟨fun _ => none, fun _ => none, fun _ _ => none⟩⟩

theorem memoryFile_accepts : TableBuilder.Accepts memoryFile id := ⟨fun _ _ => ⟨rfl, rfl⟩, fun _ => ⟨rfl, rfl⟩⟩

theorem noPort_lawful : noPort.Lawful := ⟨nofun, nofun⟩

/-- Two entries, found again behind the first of them. -/
theorem built_reads_back_two :
    let o : TableOptions := ⟨bytewiseComparator, 4096, 16, .none, none, true⟩
    let entries : List (List Byte × List Byte) := [([97#8], [1#8]), ([98#8], [2#8])]
    let file := ((TableBuilder.addAll noPort o memoryFile [] entries).finish noPort o memoryFile).file
    let src : TableFile := ⟨noPort, true, fun offset n => (.ok, some (present file offset n)), fun _ => none⟩
    ∃ t, openTable src o file.length = .ok t ∧
      (t.iterator src true 3).iter.shown ((t.iterator src true 3).call .next
        ((t.iterator src true 3).call .seekToFirst t.newIterator)) = some ([98#8], [2#8]) := by
  intro o entries file src
  have given : Buildable noPort o (fun k e => o.comparator.compare k e = .eq) memoryFile id [] entries :=
    { lawful := noPort_lawful
      order := BytewiseComparator.lawful
      shortens := BytewiseComparator.shortens
      separates := BytewiseComparator.lawful.separates
      interval := by decide
      accepts := memoryFile_accepts
      new := rfl
      sorted := by decide
      bound := by decide
      name := nofun
      fileBound := by decide +kernel }
  obtain ⟨-, indexed, -, reads⟩ := built_reads_back given
  obtain ⟨-, t, opened, run⟩ := reads src true rfl (fun _ _ _ => rfl) (fun _ _ _ => nofun)
  exact ⟨t, opened, (run 3 [.seekToFirst, .next] (by decide) (by decide)).2⟩

end Built

end Table

end WormholeFilters.LevelDb
