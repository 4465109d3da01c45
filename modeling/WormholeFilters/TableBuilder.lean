import WormholeFilters.BlockSimulation
import WormholeFilters.FilterBlock
import WormholeFilters.SortedEntries
import WormholeFilters.TableFormat

/-! table/table_builder.cc. `ChangeOptions` is left out; the offset in the file is not
reduced to 64 bits. -/
namespace WormholeFilters.LevelDb

open LittleEndian
open Env (Status kBlockTrailerSize present)

/-- The options a table is built and read with. A filter policy comes with its name. -/
structure TableOptions where
  comparator : Comparator
  blockSize : Nat
  blockRestartInterval : Nat
  compression : CompressionType
  filterPolicy : Option (List Byte × FilterPolicy)
  paranoidChecks : Bool

structure WritableFile (φ : Type) where
  append : List Byte → φ → Status × φ
  flush : φ → Status × φ

structure DataBlock where
  handle : BlockHandle
  entries : List (List Byte × List Byte)

/-- `filterBlock` is there only with a filter policy. -/
structure TableBuilder (φ : Type) where
  file : φ
  offset : Nat
  status : Status
  dataBlock : BlockBuilder
  indexBlock : BlockBuilder
  lastKey : List Byte
  numEntries : Nat
  closed : Bool
  filterBlock : FilterBlockBuilder
  pendingIndexEntry : Bool
  pendingHandle : BlockHandle

namespace TableBuilder

variable {φ : Type}

section Model

variable (port : Port) (o : TableOptions) (f : WritableFile φ)

def onFilter (call : FilterPolicy → FilterBlockBuilder → FilterBlockBuilder) (r : TableBuilder φ) : TableBuilder φ :=
  match o.filterPolicy with
  | none => r
  | some (_, policy) => { r with filterBlock := call policy r.filterBlock }

def init (file : φ) : TableBuilder φ :=
  onFilter o (fun policy b => b.startBlock policy 0)
    ⟨file, 0, .ok, .empty, .empty, [], 0, false, .empty, false, .unset⟩

def writeRawBlock (blockContents : List Byte) (type : CompressionType) (r : TableBuilder φ) :
    BlockHandle × TableBuilder φ :=
  let handle : BlockHandle := ⟨r.offset, blockContents.length⟩
  let (status, file) := f.append blockContents r.file
  let r := { r with status, file }
  if r.status = .ok then
    let (status, file) := f.append (trailer blockContents type) r.file
    let r := { r with status, file }
    if r.status = .ok then (handle, { r with offset := r.offset + (blockContents.length + kBlockTrailerSize) })
    else (handle, r)
  else (handle, r)

/-- Compressed only if that saves an eighth of the size. -/
def orRaw (raw : List Byte) (compressed : Option (List Byte)) (type : CompressionType) :
    List Byte × CompressionType :=
  match compressed with
  | some compressed => if compressed.length < raw.length - raw.length / 8 then (compressed, type) else (raw, .none)
  | none => (raw, .none)

def compressBlock (raw : List Byte) : List Byte × CompressionType :=
  match o.compression with
  | .none => (raw, .none)
  | .snappy => orRaw raw (port.snappy.compress raw) .snappy
  | .zstd => orRaw raw (port.zstd.compress raw) .zstd

/-- The caller resets the block. -/
def writeBlock (block : BlockBuilder) (r : TableBuilder φ) : BlockHandle × TableBuilder φ :=
  let (blockContents, type) := compressBlock port o block.finish.buffer
  r.writeRawBlock f blockContents type

def flush (r : TableBuilder φ) : TableBuilder φ :=
  if r.status ≠ .ok then r
  else if r.dataBlock.buffer.isEmpty then r
  else
    let (handle, r) := r.writeBlock port o f r.dataBlock
    let r := { r with dataBlock := r.dataBlock.reset, pendingHandle := handle }
    let r :=
      if r.status = .ok then
        let (status, file) := f.flush r.file
        { r with pendingIndexEntry := true, status, file }
      else r
    r.onFilter o fun policy b => b.startBlock policy r.offset

/-- The index entry of the last block, with a key found from the last one added. -/
def addIndexEntry (key : List Byte) (r : TableBuilder φ) : TableBuilder φ :=
  { r with
    lastKey := key
    indexBlock := r.indexBlock.add 1 key (r.pendingHandle.encodeTo [])
    pendingIndexEntry := false }

/-- Asserts that the builder is not closed and the key is larger than the last one. -/
def add (r : TableBuilder φ) (key value : List Byte) : TableBuilder φ :=
  if r.status ≠ .ok then r
  else
    let r := if r.pendingIndexEntry then r.addIndexEntry (o.comparator.findShortestSeparator r.lastKey key) else r
    let r := r.onFilter o fun _ b => b.addKey key
    let r := { r with
      lastKey := key
      numEntries := r.numEntries + 1
      dataBlock := r.dataBlock.add o.blockRestartInterval key value }
    if r.dataBlock.currentSizeEstimate ≥ o.blockSize then r.flush port o f else r

/-- The key of the filter block in the metaindex: the name behind `filter.`. -/
def filterKey (name : List Byte) : List Byte := [102#8, 105#8, 108#8, 116#8, 101#8, 114#8, 46#8] ++ name

def writeFilterBlock (r : TableBuilder φ) : BlockHandle × TableBuilder φ :=
  if r.status = .ok then
    match o.filterPolicy with
    | none => (.unset, r)
    | some (_, policy) => r.writeRawBlock f (r.filterBlock.finish policy) .none
  else (.unset, r)

def writeMetaindexBlock (filterBlockHandle : BlockHandle) (r : TableBuilder φ) : BlockHandle × TableBuilder φ :=
  if r.status = .ok then
    let block : BlockBuilder :=
      match o.filterPolicy with
      | none => .empty
      | some (name, _) => .add o.blockRestartInterval .empty (filterKey name) (filterBlockHandle.encodeTo [])
    r.writeBlock port o f block
  else (.unset, r)

def writeIndexBlock (r : TableBuilder φ) : BlockHandle × TableBuilder φ :=
  if r.status = .ok then
    let r := if r.pendingIndexEntry then r.addIndexEntry (o.comparator.findShortSuccessor r.lastKey) else r
    let (handle, r) := r.writeBlock port o f r.indexBlock
    (handle, { r with indexBlock := r.indexBlock.reset })
  else (.unset, r)

def writeFooter (footer : Footer) (r : TableBuilder φ) : TableBuilder φ :=
  if r.status = .ok then
    let footerEncoding := footer.encodeTo []
    let (status, file) := f.append footerEncoding r.file
    let r := { r with status, file }
    if r.status = .ok then { r with offset := r.offset + footerEncoding.length } else r
  else r

/-- Asserts that the builder is not closed. The result is the status. -/
def finish (r : TableBuilder φ) : TableBuilder φ :=
  let r := { r.flush port o f with closed := true }
  let (filterBlockHandle, r) := r.writeFilterBlock o f
  let (metaindexBlockHandle, r) := r.writeMetaindexBlock port o f filterBlockHandle
  let (indexBlockHandle, r) := r.writeIndexBlock port o f
  r.writeFooter f ⟨metaindexBlockHandle, indexBlockHandle⟩

def addAll (file : φ) (entries : List (List Byte × List Byte)) : TableBuilder φ :=
  entries.foldl (fun r e => r.add port o f e.1 e.2) (init o file)

structure Track (φ : Type) where
  builder : TableBuilder φ
  blocks : List DataBlock
  pending : List (List Byte × List Byte)

def Track.add (t : Track φ) (e : List Byte × List Byte) : Track φ :=
  let builder := t.builder.add port o f e.1 e.2
  if builder.pendingIndexEntry then
    ⟨builder, t.blocks ++ [⟨builder.pendingHandle, t.pending ++ [e]⟩], []⟩
  else ⟨builder, t.blocks, t.pending ++ [e]⟩

def Track.flushed (t : Track φ) : List DataBlock :=
  t.blocks ++ if t.pending = [] then [] else [⟨(t.builder.flush port o f).pendingHandle, t.pending⟩]

def track (file : φ) (entries : List (List Byte × List Byte)) : Track φ :=
  entries.foldl (Track.add port o f) ⟨init o file, [], []⟩

/-- The data blocks of the table with some entries. -/
def dataBlocks (file : φ) (entries : List (List Byte × List Byte)) : List DataBlock :=
  (track port o f file entries).flushed port o f

theorem track_builder (file : φ) (entries : List (List Byte × List Byte)) :
    (track port o f file entries).builder = addAll port o f file entries := by
  rw [track, addAll]
  refine (List.foldl_hom Track.builder fun t e => ?_).symm
  rw [Track.add]
  split <;> rfl

theorem track_entries (file : φ) (entries : List (List Byte × List Byte)) :
    (track port o f file entries).blocks.flatMap DataBlock.entries ++ (track port o f file entries).pending =
      entries := by
  induction entries using List.reverseRecOn with
  | nil => rfl
  | append_singleton entries e ih =>
    rw [track, List.foldl_append, ← track, List.foldl_cons, List.foldl_nil, Track.add]
    split
    · simp [← List.append_assoc, ih]
    · simp [← List.append_assoc, ih]

theorem dataBlocks_entries (file : φ) (entries : List (List Byte × List Byte)) :
    (dataBlocks port o f file entries).flatMap DataBlock.entries = entries := by
  have all := track_entries port o f file entries
  rw [dataBlocks, Track.flushed, List.flatMap_append]
  split
  next none => rwa [none] at all
  · rwa [List.flatMap_singleton]

end Model

structure Accepts (f : WritableFile φ) (contents : φ → List Byte) : Prop where
  append (s : List Byte) (file : φ) : (f.append s file).1 = .ok ∧ contents (f.append s file).2 = contents file ++ s
  flush (file : φ) : (f.flush file).1 = .ok ∧ contents (f.flush file).2 = contents file

structure Holds (port : Port) (file : List Byte) (h : BlockHandle) (data : List Byte) : Prop where
  inside : h.offset + (h.size + kBlockTrailerSize) ≤ file.length
  reads (verifyChecksums : Bool) :
    checkBlock port verifyChecksums h.size (present file h.offset (h.size + kBlockTrailerSize)) = .ok data

section Writing

variable {port : Port} {o : TableOptions} {f : WritableFile φ} {contents : φ → List Byte}

theorem Holds.append {file : List Byte} {h : BlockHandle} {data : List Byte} (holds : Holds port file h data)
    (rest : List Byte) : Holds port (file ++ rest) h data := by
  have inside := holds.inside
  refine ⟨by rw [List.length_append]; omega, fun verifyChecksums => ?_⟩
  rw [← holds.reads verifyChecksums, present, present, List.drop_append_of_le_length (by omega),
    List.take_append_of_le_length (by rw [List.length_drop]; omega)]

theorem compressBlock_codes (port : Port) (o : TableOptions) (raw : List Byte) :
    Codes port raw (compressBlock port o raw).1 (compressBlock port o raw).2 := by
  have shorter {compressed : Option (List Byte)} {type : CompressionType}
      (codes : ∀ c, compressed = some c → Codes port raw c type) :
      Codes port raw (orRaw raw compressed type).1 (orRaw raw compressed type).2 := by
    cases compressed with
    | none => exact rfl
    | some c =>
      rw [orRaw]
      split
      · exact codes c rfl
      · exact rfl
  rw [compressBlock]
  cases o.compression with
  | none => exact rfl
  | snappy => exact shorter fun c found => show Codes port raw c .snappy from found
  | zstd => exact shorter fun c found => show Codes port raw c .zstd from found

theorem writeRawBlock_eq (accepts : Accepts f contents) (r : TableBuilder φ) (blockContents : List Byte)
    (type : CompressionType) :
      ∃ file, contents file = contents r.file ++ (blockContents ++ trailer blockContents type) ∧
      r.writeRawBlock f blockContents type = (⟨r.offset, blockContents.length⟩,
        { r with status := .ok, file, offset := r.offset + (blockContents.length + kBlockTrailerSize) }) := by
  obtain ⟨ok, written⟩ := accepts.append blockContents r.file
  obtain ⟨ok', written'⟩ := accepts.append (trailer blockContents type) (f.append blockContents r.file).2
  refine ⟨(f.append (trailer blockContents type) (f.append blockContents r.file).2).2, ?_, ?_⟩
  · rw [written', written, List.append_assoc]
  · simp only [writeRawBlock, ok, ok', if_true]

theorem holds_written (lawful : port.Lawful) {raw blockContents : List Byte} {type : CompressionType}
    (codes : Codes port raw blockContents type) (front : List Byte) :
    Holds port (front ++ (blockContents ++ trailer blockContents type)) ⟨front.length, blockContents.length⟩ raw := by
  refine ⟨by simp, fun verifyChecksums => ?_⟩
  dsimp only
  rw [present, List.drop_left, List.take_of_length_le (by simp)]
  exact checkBlock_trailer lawful codes verifyChecksums

/-- A block written at the end of the file. -/
theorem writeBlock_eq (accepts : Accepts f contents) (lawful : port.Lawful) (block : BlockBuilder) {r : TableBuilder φ}
    (atEnd : r.offset = (contents r.file).length) : ∃ (h : BlockHandle) (file : φ) (rest : List Byte),
      r.writeBlock port o f block = (h, { r with status := .ok, file, offset := (contents file).length }) ∧
      contents file = contents r.file ++ rest ∧ h.offset = r.offset ∧ 0 < rest.length ∧
      Holds port (contents file) h block.finish.buffer := by
  have codes := compressBlock_codes port o block.finish.buffer
  rw [writeBlock]
  revert codes
  rcases compressBlock port o block.finish.buffer with ⟨blockContents, type⟩
  intro codes
  obtain ⟨file, written, result⟩ := writeRawBlock_eq accepts r blockContents type
  have size := congrArg List.length written
  rw [List.length_append, List.length_append, length_trailer] at size
  refine ⟨⟨r.offset, blockContents.length⟩, file, _, ?_, written, rfl, ?_, ?_⟩
  · rw [size, ← atEnd]
    exact result
  · rw [List.length_append, length_trailer]
    exact Nat.add_pos_right _ (by decide)
  · rw [written, atEnd]
    exact holds_written lawful codes (contents r.file)

end Writing

/-- The calls on the filter block for some data blocks. -/
def filterBlocks (blocks : List DataBlock) : List (Nat × List (List Byte)) :=
  blocks.map fun b => (b.handle.offset, b.entries.map Prod.fst)

def indexEntries (indexed : List (List Byte × DataBlock)) : List (List Byte × List Byte) :=
  indexed.map fun x => (x.1, x.2.handle.encodeTo [])

/-- The key of a block in the index keeps it apart from an entry behind it, also for a search that
is meant to find that entry. -/
structure Fence (c : Comparator) (near : List Byte → List Byte → Prop) (x : List Byte × DataBlock)
    (e : List Byte × List Byte) : Prop where
  lt : c.compare x.1 e.1 = .lt
  tight {k : List Byte} : near k e.1 → (∀ e' ∈ x.2.entries, c.compare e'.1 k = .lt) → c.compare x.1 k = .lt

/-- The keys of the index are between the entries of their blocks and those behind; `rest`
are the entries behind the last block. -/
structure Fences (c : Comparator) (near : List Byte → List Byte → Prop) (indexed : List (List Byte × DataBlock))
    (rest : List (List Byte × List Byte)) : Prop where
  le : ∀ x ∈ indexed, ∀ e ∈ x.2.entries, (c.compare e.1 x.1).isLE
  behind : indexed.Pairwise fun x y => ∀ e ∈ y.2.entries, Fence c near x e
  rest : ∀ x ∈ indexed, ∀ e ∈ rest, Fence c near x e
  short : ∀ x ∈ indexed, ∃ e ∈ x.2.entries, x.1.length ≤ e.1.length

/-- What a builder has written: blocks in the index, one that waits for its index entry,
and the entries pending for the next. -/
structure Wrote (port : Port) (o : TableOptions) (contents : φ → List Byte) (r : TableBuilder φ)
    (indexed : List (List Byte × DataBlock)) (waiting : Option DataBlock) (pending : List (List Byte × List Byte)) :
    Prop where
  status : r.status = .ok
  offset : r.offset = (contents r.file).length
  dataBlock : r.dataBlock = .addAll o.blockRestartInterval pending
  indexBlock : r.indexBlock = .addAll 1 (indexEntries indexed)
  pendingIndexEntry : r.pendingIndexEntry = waiting.isSome
  waits {b : DataBlock} : waiting = some b → r.pendingHandle = b.handle ∧ pending = []
  stored : ∀ b ∈ indexed.map Prod.snd ++ waiting.toList, b.entries ≠ [] ∧
    Holds port (contents r.file) b.handle (BlockBuilder.addAll o.blockRestartInterval b.entries).finish.buffer
  apart : ((indexed.map Prod.snd ++ waiting.toList).map (·.handle.offset)).Pairwise (· < ·)
  before : ∀ b ∈ indexed.map Prod.snd ++ waiting.toList, b.handle.offset < r.offset
  filter {name : List Byte} {policy : FilterPolicy} : o.filterPolicy = some (name, policy) →
    r.filterBlock = (filterBlocks (indexed.map Prod.snd ++ waiting.toList) ++
      [(r.offset, pending.map Prod.fst)]).foldl (FilterBlockBuilder.addBlock policy) .empty

section Steps

variable {port : Port} {o : TableOptions} {f : WritableFile φ} {contents : φ → List Byte}
  {r : TableBuilder φ} {t : Track φ}
  {c : Comparator} {near : List Byte → List Byte → Prop} {indexed : List (List Byte × DataBlock)}
  {waiting : Option DataBlock} {pending : List (List Byte × List Byte)} {b : DataBlock} {key value : List Byte}

/-- A fence stays one for a later entry. -/
theorem Fence.later (trans : Std.TransCmp c.compare) (separates : c.Separates near) {x : List Byte × DataBlock}
    {e e' : List Byte × List Byte} (fence : Fence c near x e) (less : c.compare e.1 e'.1 = .lt) :
      Fence c near x e' := by
  refine ⟨trans.lt_trans fence.lt less, fun {k} close above => ?_⟩
  by_cases before : (c.compare k e.1).isLE
  · exact fence.tight (separates.between close before (Ordering.isLE_of_eq_lt less)) above
  · have behind : c.compare k e.1 = .gt := by simpa using before
    exact trans.lt_trans fence.lt (Std.OrientedCmp.lt_of_gt behind)

theorem Fences.index (fences : Fences c near indexed b.entries) (ge : ∀ e ∈ b.entries, (c.compare e.1 key).isLE)
    (short : ∃ e ∈ b.entries, key.length ≤ e.1.length) : Fences c near (indexed ++ [(key, b)]) [] where
  le := List.forall_mem_append.mpr ⟨fences.le, by simpa using ge⟩
  behind := List.pairwise_append.mpr ⟨fences.behind, List.pairwise_singleton _ _, fun x old y new => by
    rw [List.mem_singleton.mp new]
    exact fences.rest x old⟩
  rest := by simp
  short := List.forall_mem_append.mpr ⟨fences.short, by simpa using short⟩

theorem Fences.entry (fences : Fences c near indexed pending) (below : ∀ x ∈ indexed, Fence c near x (key, value)) :
    Fences c near indexed (pending ++ [(key, value)]) where
  le := fences.le
  behind := fences.behind
  rest x member := List.forall_mem_append.mpr ⟨fences.rest x member, by simpa using below x member⟩
  short := fences.short

@[simp] theorem onFilter_none (none : o.filterPolicy = none)
    (call : FilterPolicy → FilterBlockBuilder → FilterBlockBuilder) (r : TableBuilder φ) : r.onFilter o call = r := by
  rw [onFilter, none]

/-- A call on the filter block changes nothing else. -/
theorem onFilter_eq (call : FilterPolicy → FilterBlockBuilder → FilterBlockBuilder) (r : TableBuilder φ) :
    ∃ filterBlock, r.onFilter o call = { r with filterBlock } ∧
      ∀ {name policy}, o.filterPolicy = some (name, policy) → filterBlock = call policy r.filterBlock := by
  rw [onFilter]
  cases given : o.filterPolicy with
  | none => exact ⟨r.filterBlock, rfl, nofun⟩
  | some pair =>
    refine ⟨call pair.2 r.filterBlock, rfl, fun {name policy} same => ?_⟩
    cases same
    rfl

/-- The index entry of the block that waits. -/
theorem Wrote.index (wrote : Wrote port o contents r indexed (some b) pending) (key : List Byte) :
    Wrote port o contents (r.addIndexEntry key) (indexed ++ [(key, b)]) none pending := by
  obtain ⟨handle, empty⟩ := wrote.waits rfl
  have blocks : (indexed ++ [(key, b)]).map Prod.snd ++ (none : Option DataBlock).toList =
      indexed.map Prod.snd ++ (some b).toList := by simp
  refine ⟨wrote.status, wrote.offset, wrote.dataBlock, ?_, rfl, nofun, ?_, ?_, ?_, ?_⟩
  · rw [addIndexEntry, handle, wrote.indexBlock, indexEntries, indexEntries, List.map_append, List.map_singleton,
      BlockBuilder.addAll_concat]
  · rw [blocks]
    exact wrote.stored
  · rw [blocks]
    exact wrote.apart
  · rw [blocks]
    exact wrote.before
  · rw [blocks]
    exact wrote.filter

/-- One entry more in the block that is being built. -/
theorem Wrote.entry (wrote : Wrote port o contents r indexed none pending) (key value : List Byte) :
    let r := r.onFilter o fun _ b => b.addKey key
    Wrote port o contents { r with
      lastKey := key
      numEntries := r.numEntries + 1
      dataBlock := r.dataBlock.add o.blockRestartInterval key value } indexed none (pending ++ [(key, value)]) := by
  obtain ⟨filterBlock, same, filter⟩ := onFilter_eq (o := o) (fun _ b => b.addKey key) r
  dsimp only
  rw [same]
  refine ⟨wrote.status, wrote.offset, ?_, wrote.indexBlock, wrote.pendingIndexEntry, nofun, wrote.stored, wrote.apart,
    wrote.before, fun given => ?_⟩
  · rw [BlockBuilder.addAll_concat, ← wrote.dataBlock]
  · dsimp only
    rw [filter given, wrote.filter given, List.foldl_append, List.foldl_append, List.map_append]
    simp only [List.foldl_cons, List.foldl_nil, FilterBlockBuilder.addBlock, List.foldl_append, List.map_singleton]

theorem flush_of_empty (wrote : Wrote port o contents r indexed waiting []) : r.flush port o f = r := by
  have empty : r.dataBlock.buffer.isEmpty = true := by
    rw [wrote.dataBlock]
    rfl
  rw [TableBuilder.flush, if_neg (by simp [wrote.status]), if_pos empty]

theorem flush_eq (accepts : Accepts f contents) (lawful : port.Lawful) (ok : r.status = .ok)
    (atEnd : r.offset = (contents r.file).length) (more : r.dataBlock.buffer ≠ []) :
    ∃ (h : BlockHandle) (file : φ) (rest : List Byte) (filterBlock : FilterBlockBuilder),
      r.flush port o f = { r with
        file, filterBlock
        offset := (contents file).length
        status := .ok
        dataBlock := .empty
        pendingIndexEntry := true
        pendingHandle := h } ∧
      contents file = contents r.file ++ rest ∧ h.offset = r.offset ∧ 0 < rest.length ∧
      Holds port (contents file) h r.dataBlock.finish.buffer ∧
      ∀ {name policy}, o.filterPolicy = some (name, policy) →
        filterBlock = r.filterBlock.startBlock policy (contents file).length := by
  obtain ⟨h, file, rest, result, written, place, longer, holds⟩ :=
    writeBlock_eq (o := o) accepts lawful r.dataBlock atEnd
  obtain ⟨flushed, same⟩ := accepts.flush file
  obtain ⟨filterBlock, filtered, filter⟩ := onFilter_eq (o := o)
    (fun policy b => b.startBlock policy (contents file).length) { r with
      file := (f.flush file).2
      offset := (contents file).length
      status := .ok
      dataBlock := .empty
      pendingIndexEntry := true
      pendingHandle := h }
  refine ⟨h, (f.flush file).2, rest, filterBlock, ?_, by rw [same, written], place, longer, by rwa [same], ?_⟩
  · rw [TableBuilder.flush, if_neg (by simp [ok]), if_neg (by simpa using more), result, same, ← filtered]
    simp only [if_true, flushed]
    rfl
  · intro name policy given
    rw [same]
    exact filter given

/-- The pending entries become a block that waits for its index entry. -/
theorem Wrote.flush (accepts : Accepts f contents) (lawful : port.Lawful)
    (wrote : Wrote port o contents r indexed none pending) (more : pending ≠ []) : ∃ h,
      Wrote port o contents (r.flush port o f) indexed (some ⟨h, pending⟩) [] ∧
      (r.flush port o f).lastKey = r.lastKey := by
  have written : r.dataBlock.buffer ≠ [] := by
    rw [wrote.dataBlock, ne_eq, BlockBuilder.buffer_addAll_eq_nil]
    exact more
  obtain ⟨h, file, rest, filterBlock, result, grown, place, longer, holds, filter⟩ :=
    flush_eq (o := o) accepts lawful wrote.status wrote.offset written
  have size := congrArg List.length grown
  rw [List.length_append, ← wrote.offset] at size
  refine ⟨h, ?_, by rw [result]⟩
  rw [result]
  refine ⟨rfl, rfl, rfl, wrote.indexBlock, rfl, fun same => ?_, ?_, ?_, ?_, fun given => ?_⟩
  · cases same
    exact ⟨rfl, rfl⟩
  · rw [Option.toList_some, List.forall_mem_append]
    refine ⟨fun b old => ?_, by simpa [more, ← wrote.dataBlock] using holds⟩
    obtain ⟨nonempty, held⟩ := wrote.stored b (by simpa using old)
    exact ⟨nonempty, by rw [grown]; exact held.append rest⟩
  · rw [Option.toList_some, List.map_append, List.pairwise_append]
    refine ⟨by simpa using wrote.apart, List.pairwise_singleton _ _, fun offset old new last => ?_⟩
    obtain ⟨b, member, rfl⟩ := List.mem_map.mp old
    rw [List.map_singleton, List.mem_singleton] at last
    rw [last, place]
    exact wrote.before b (by simpa using member)
  · rw [Option.toList_some, List.forall_mem_append]
    refine ⟨fun b old => ?_, by simp only [List.mem_singleton, forall_eq, place]; omega⟩
    have := wrote.before b (by simpa using old)
    dsimp only
    omega
  · dsimp only
    rw [filter given, wrote.filter given]
    simp only [filterBlocks, Option.toList_some, Option.toList_none, List.append_nil, List.map_append,
      List.map_singleton,
      List.foldl_append, List.foldl_cons, List.foldl_nil, place]
    rfl

def Added (port : Port) (o : TableOptions) (near : List Byte → List Byte → Prop) (contents : φ → List Byte)
    (t : Track φ) (entries : List (List Byte × List Byte)) : Prop :=
  ∃ indexed waiting, Wrote port o contents t.builder indexed waiting t.pending ∧
    t.blocks = indexed.map Prod.snd ++ waiting.toList ∧
    Fences o.comparator near indexed (waiting.toList.flatMap DataBlock.entries ++ t.pending) ∧
    entries = indexed.flatMap (fun x => x.2.entries) ++ (waiting.toList.flatMap DataBlock.entries ++ t.pending) ∧
    (∀ x ∈ indexed, ∃ e ∈ entries, Fence o.comparator near x e) ∧
    ∀ e, entries.getLast? = some e → t.builder.lastKey = e.1

theorem init_added {file : φ} (empty : contents file = []) :
    Added port o near contents ⟨init o file, [], []⟩ [] := by
  obtain ⟨filterBlock, same, filter⟩ := onFilter_eq (o := o) (fun policy b => b.startBlock policy 0)
    (⟨file, 0, .ok, .empty, .empty, [], 0, false, .empty, false, .unset⟩ : TableBuilder φ)
  rw [init, same]
  refine ⟨[], none, ⟨rfl, by rw [empty]; rfl, rfl, rfl, rfl, nofun, by simp, by simp, by simp, fun given => ?_⟩, rfl,
    ⟨by simp, by simp, by simp, by simp⟩, rfl, by simp, nofun⟩
  exact filter given

variable (law : o.comparator.Lawful) (shortens : o.comparator.Shortens) (separates : o.comparator.Separates near)

include law shortens separates in
/-- The index entry is written before a larger key is added. -/
theorem Added.index {entries : List (List Byte × List Byte)} (added : Added port o near contents t entries)
    (above : ∀ e ∈ entries, o.comparator.compare e.1 key = .lt)
    (sorted : Cursors.Sorted o.comparator.compare entries) : ∃ indexed,
      Wrote port o contents (if t.builder.pendingIndexEntry then
        t.builder.addIndexEntry (o.comparator.findShortestSeparator t.builder.lastKey key) else t.builder)
        indexed none t.pending ∧
      t.blocks = indexed.map Prod.snd ∧ Fences o.comparator near indexed t.pending ∧
      entries = indexed.flatMap (fun x => x.2.entries) ++ t.pending ∧
      ∀ x ∈ indexed, Fence o.comparator near x (key, value) := by
  have trans := law.trans
  obtain ⟨indexed, waiting, wrote, blocks, fences, same, below, last⟩ := added
  have older : ∀ x ∈ indexed, Fence o.comparator near x (key, value) := by
    intro x member
    obtain ⟨e, present, fence⟩ := below x member
    exact fence.later trans separates (above e present)
  rw [wrote.pendingIndexEntry]
  cases waiting with
  | none => exact ⟨indexed, wrote, by simpa using blocks, by simpa using fences, by simpa using same, older⟩
  | some b =>
    have empty := (wrote.waits rfl).2
    rw [empty, Option.toList_some, List.flatMap_singleton, List.append_nil] at fences same
    obtain ⟨e, found⟩ : ∃ e, b.entries.getLast? = some e :=
      ⟨_, List.getLast?_eq_some_getLast (wrote.stored b (by simp)).1⟩
    have part : b.entries.Sublist entries := same ▸ List.sublist_append_right _ _
    have lastKey : t.builder.lastKey = e.1 := last e (by rw [same, List.getLast?_append, found, Option.some_or])
    have member := List.mem_of_getLast? found
    have less : o.comparator.compare t.builder.lastKey key = .lt := by
      rw [lastKey]
      exact above e (part.mem member)
    refine ⟨_, wrote.index (o.comparator.findShortestSeparator t.builder.lastKey key),
      by simpa using blocks, ?_, ?_, ?_⟩
    · rw [empty]
      refine fences.index (fun e' present => ?_) ⟨e, member, ?_⟩
      · have le := Cursors.Sorted.isLE_last (sorted.sublist part) found present
        rw [← lastKey] at le
        exact trans.isLE_trans le (law.start_le_separator less)
      · rw [← lastKey]
        exact shortens.separator _ _
    · simp [same, empty]
    · refine List.forall_mem_append.mpr ⟨older, ?_⟩
      rw [List.forall_mem_singleton]
      refine ⟨law.separator_lt_limit less, fun close all => separates.separator less ?_ close⟩
      rw [lastKey]
      exact all e member

include law shortens separates in
theorem Added.add (accepts : Accepts f contents) (lawful : port.Lawful) {entries : List (List Byte × List Byte)}
    (added : Added port o near contents t entries)
    (sorted : Cursors.Sorted o.comparator.compare (entries ++ [(key, value)])) :
    Added port o near contents (t.add port o f (key, value)) (entries ++ [(key, value)]) := by
  obtain ⟨sorted', -, above⟩ := List.pairwise_append.mp sorted
  obtain ⟨indexed, wrote, blocks, fences, same, below⟩ :=
    added.index law shortens separates (fun e member => above e member _ (List.mem_singleton_self _)) sorted'
  have ok : ¬ t.builder.status ≠ .ok := by
    obtain ⟨_, _, wrote, _⟩ := added
    simp [wrote.status]
  rw [Track.add, TableBuilder.add, if_neg ok]
  have wrote' := wrote.entry key value
  have fences' : Fences o.comparator near indexed (t.pending ++ [(key, value)]) := fences.entry below
  have same' : entries ++ [(key, value)] = indexed.flatMap (fun x => x.2.entries) ++ (t.pending ++ [(key, value)]) := by
    rw [same, List.append_assoc]
  have below' : ∀ x ∈ indexed, ∃ e ∈ entries ++ [(key, value)], Fence o.comparator near x e :=
    fun x member => ⟨(key, value), by simp, below x member⟩
  have last : ∀ e, (entries ++ [(key, value)]).getLast? = some e → key = e.1 := by simp
  generalize (if t.builder.pendingIndexEntry then
    t.builder.addIndexEntry (o.comparator.findShortestSeparator t.builder.lastKey key) else t.builder) = r at wrote' ⊢
  dsimp only at wrote' ⊢
  by_cases full : o.blockSize ≤
      ((r.onFilter o fun _ b => b.addKey key).dataBlock.add o.blockRestartInterval key value).currentSizeEstimate
  · obtain ⟨h, flushed, lastKey⟩ := wrote'.flush accepts lawful (by simp)
    rw [if_pos full, if_pos (flushed.pendingIndexEntry.trans Option.isSome_some)]
    refine ⟨indexed, _, flushed, ?_, by simpa using fences', by simpa using same', below',
      fun e found => lastKey.trans (last e found)⟩
    rw [blocks, (flushed.waits rfl).1, Option.toList_some]
  · rw [if_neg full, if_neg (Bool.eq_false_iff.mp wrote'.pendingIndexEntry)]
    exact ⟨indexed, none, wrote', by simpa using blocks, by simpa using fences', by simpa using same', below', last⟩

include law shortens separates in
theorem track_added (accepts : Accepts f contents) (lawful : port.Lawful) {file : φ} (empty : contents file = [])
    {entries : List (List Byte × List Byte)} (sorted : Cursors.Sorted o.comparator.compare entries) :
    Added port o near contents (track port o f file entries) entries := by
  induction entries using List.reverseRecOn with
  | nil => exact init_added empty
  | append_singleton entries e ih =>
    have added := ih (List.pairwise_append.mp sorted).1
    rw [track, List.foldl_append]
    exact added.add law shortens separates accepts lawful sorted

/-- After `Flush` no entry is pending. -/
theorem Added.flush (accepts : Accepts f contents) (lawful : port.Lawful) {entries : List (List Byte × List Byte)}
    (added : Added port o near contents t entries) : ∃ indexed waiting,
      Wrote port o contents (t.builder.flush port o f) indexed waiting [] ∧
      t.flushed port o f = indexed.map Prod.snd ++ waiting.toList ∧
      Fences o.comparator near indexed (waiting.toList.flatMap DataBlock.entries) ∧
      entries = indexed.flatMap (fun x => x.2.entries) ++ waiting.toList.flatMap DataBlock.entries ∧
      ∀ e, entries.getLast? = some e → (t.builder.flush port o f).lastKey = e.1 := by
  obtain ⟨indexed, waiting, wrote, blocks, fences, same, -, last⟩ := added
  rw [Track.flushed]
  by_cases none : t.pending = []
  · rw [none] at wrote fences same
    rw [flush_of_empty wrote, if_pos none, List.append_nil]
    exact ⟨indexed, waiting, wrote, blocks, by simpa using fences, by simpa using same, last⟩
  · cases waiting with
    | some b => exact absurd (wrote.waits rfl).2 none
    | none =>
      obtain ⟨h, flushed, lastKey⟩ := wrote.flush accepts lawful none
      refine ⟨indexed, _, flushed, ?_, by simpa using fences, by simpa using same,
        fun e found => lastKey.trans (last e found)⟩
      rw [if_neg none, blocks, (flushed.waits rfl).1, Option.toList_none, List.append_nil]
      rfl

end Steps

def metaindexEntries (o : TableOptions) (filterBlockHandle : BlockHandle) : List (List Byte × List Byte) :=
  match o.filterPolicy with
  | none => []
  | some (name, _) => [(filterKey name, filterBlockHandle.encodeTo [])]

/-- A whole table. The filter block ends with the offset behind the last data block. -/
structure IsTable (port : Port) (o : TableOptions) (near : List Byte → List Byte → Prop) (file : List Byte)
    (footer : Footer) (filterBlockHandle : BlockHandle) (indexed : List (List Byte × DataBlock)) : Prop where
  fences : Fences o.comparator near indexed []
  stored : ∀ x ∈ indexed, x.2.entries ≠ [] ∧
    Holds port file x.2.handle (BlockBuilder.addAll o.blockRestartInterval x.2.entries).finish.buffer
  apart : (indexed.map fun x => x.2.handle.offset).Pairwise (· < ·)
  before : ∀ x ∈ indexed, x.2.handle.offset < footer.metaindexHandle.offset
  index : Holds port file footer.indexHandle (BlockBuilder.addAll 1 (indexEntries indexed)).finish.buffer
  metaindex : Holds port file footer.metaindexHandle
    (BlockBuilder.addAll o.blockRestartInterval (metaindexEntries o filterBlockHandle)).finish.buffer
  filter {name : List Byte} {policy : FilterPolicy} : o.filterPolicy = some (name, policy) → ∃ last,
    (∀ x ∈ indexed, x.2.handle.offset < last) ∧
    let block := FilterBlockBuilder.build policy (filterBlocks (indexed.map Prod.snd) ++ [(last, [])])
    filterBlockHandle.size = block.length ∧ Holds port file filterBlockHandle block
  footer : ∃ front, file = front ++ footer.encodeTo []

def Grown (contents : φ → List Byte) (r r' : TableBuilder φ) : Prop :=
  ∃ file rest, contents file = contents r.file ++ rest ∧
    r' = { r with status := .ok, file, offset := (contents file).length }

section Finish

variable {port : Port} {o : TableOptions} {f : WritableFile φ} {contents : φ → List Byte} {r r' : TableBuilder φ}
  {near : List Byte → List Byte → Prop}

theorem Grown.refl (ok : r.status = .ok) (atEnd : r.offset = (contents r.file).length) : Grown contents r r := by
  refine ⟨r.file, [], (List.append_nil _).symm, ?_⟩
  rw [← ok, ← atEnd]

theorem Grown.ok (grown : Grown contents r r') : r'.status = .ok := by
  obtain ⟨file, rest, _, rfl⟩ := grown
  rfl

theorem Grown.atEnd (grown : Grown contents r r') : r'.offset = (contents r'.file).length := by
  obtain ⟨file, rest, _, rfl⟩ := grown
  rfl

theorem Grown.le (grown : Grown contents r r') (atEnd : r.offset = (contents r.file).length) :
    r.offset ≤ r'.offset := by
  obtain ⟨file, rest, same, rfl⟩ := grown
  have size := congrArg List.length same
  rw [List.length_append] at size
  dsimp only
  omega

theorem Grown.holds (grown : Grown contents r r') {h : BlockHandle} {data : List Byte}
    (holds : Holds port (contents r.file) h data) : Holds port (contents r'.file) h data := by
  obtain ⟨file, rest, same, rfl⟩ := grown
  dsimp only
  rw [same]
  exact holds.append rest

theorem writeBlock_grown (accepts : Accepts f contents) (lawful : port.Lawful) (block : BlockBuilder)
    (atEnd : r.offset = (contents r.file).length) : ∃ h r', r.writeBlock port o f block = (h, r') ∧
      h.offset = r.offset ∧ Grown contents r r' ∧ Holds port (contents r'.file) h block.finish.buffer := by
  obtain ⟨h, file, rest, result, written, place, _, holds⟩ := writeBlock_eq (o := o) accepts lawful block atEnd
  exact ⟨h, _, result, place, ⟨file, rest, written, rfl⟩, holds⟩

theorem writeFilterBlock_grown (accepts : Accepts f contents) (lawful : port.Lawful) (ok : r.status = .ok)
    (atEnd : r.offset = (contents r.file).length) : ∃ h r', r.writeFilterBlock o f = (h, r') ∧ Grown contents r r' ∧
      ∀ {name policy}, o.filterPolicy = some (name, policy) → h.size = (r.filterBlock.finish policy).length ∧
        Holds port (contents r'.file) h (r.filterBlock.finish policy) := by
  rw [writeFilterBlock, if_pos ok]
  cases given : o.filterPolicy with
  | none => exact ⟨_, r, rfl, .refl ok atEnd, nofun⟩
  | some pair =>
    obtain ⟨file, written, result⟩ := writeRawBlock_eq accepts r (r.filterBlock.finish pair.2) .none
    have size := congrArg List.length written
    rw [List.length_append, List.length_append, length_trailer, ← atEnd] at size
    rw [← size] at result
    refine ⟨_, _, result, ⟨file, _, written, rfl⟩, fun {name policy} same => ?_⟩
    cases same
    have codes : Codes port (r.filterBlock.finish policy) (r.filterBlock.finish policy) .none := rfl
    refine ⟨rfl, ?_⟩
    dsimp only
    rw [written, atEnd]
    exact holds_written lawful codes _

theorem writeMetaindexBlock_grown (accepts : Accepts f contents) (lawful : port.Lawful) (ok : r.status = .ok)
    (atEnd : r.offset = (contents r.file).length) (filterBlockHandle : BlockHandle) : ∃ h r',
      r.writeMetaindexBlock port o f filterBlockHandle = (h, r') ∧ h.offset = r.offset ∧ Grown contents r r' ∧
      Holds port (contents r'.file) h
        (BlockBuilder.addAll o.blockRestartInterval (metaindexEntries o filterBlockHandle)).finish.buffer := by
  rw [writeMetaindexBlock, if_pos ok, metaindexEntries]
  cases o.filterPolicy with
  | none => exact writeBlock_grown accepts lawful _ atEnd
  | some pair => exact writeBlock_grown accepts lawful _ atEnd

theorem writeIndexBlock_grown (accepts : Accepts f contents) (lawful : port.Lawful) (ok : r.status = .ok)
    (atEnd : r.offset = (contents r.file).length) : ∃ h r', r.writeIndexBlock port o f = (h, r') ∧
      r'.status = .ok ∧ r'.offset = (contents r'.file).length ∧
      (∀ {h' data}, Holds port (contents r.file) h' data → Holds port (contents r'.file) h' data) ∧
      Holds port (contents r'.file) h (if r.pendingIndexEntry then
        r.addIndexEntry (o.comparator.findShortSuccessor r.lastKey) else r).indexBlock.finish.buffer := by
  rw [writeIndexBlock, if_pos ok]
  have place : (if r.pendingIndexEntry then r.addIndexEntry (o.comparator.findShortSuccessor r.lastKey) else r).offset =
      (contents (if r.pendingIndexEntry then r.addIndexEntry (o.comparator.findShortSuccessor r.lastKey) else
      r).file).length ∧
      (if r.pendingIndexEntry then r.addIndexEntry (o.comparator.findShortSuccessor r.lastKey) else r).file =
      r.file := by
    split
    · exact ⟨atEnd, rfl⟩
    · exact ⟨atEnd, rfl⟩
  generalize (if r.pendingIndexEntry then r.addIndexEntry (o.comparator.findShortSuccessor r.lastKey) else r) =
    r' at place ⊢
  obtain ⟨h, r₂, result, -, grown, holds⟩ := writeBlock_grown (o := o) accepts lawful r'.indexBlock place.1
  refine ⟨h, { r₂ with indexBlock := r₂.indexBlock.reset }, ?_, grown.ok, grown.atEnd, fun held => ?_, holds⟩
  · dsimp only
    rw [result]
  · exact grown.holds (place.2 ▸ held)

theorem writeFooter_eq (accepts : Accepts f contents) (ok : r.status = .ok)
    (atEnd : r.offset = (contents r.file).length) (footer : Footer) :
    (r.writeFooter f footer).status = .ok ∧
      (r.writeFooter f footer).offset = (contents (r.writeFooter f footer).file).length ∧
      contents (r.writeFooter f footer).file = contents r.file ++ footer.encodeTo [] := by
  obtain ⟨taken, written⟩ := accepts.append (footer.encodeTo []) r.file
  simp only [writeFooter, ok, taken, if_true, written, List.length_append, atEnd, and_self]

variable {indexed : List (List Byte × DataBlock)} {waiting : Option DataBlock}
  {entries : List (List Byte × List Byte)} (law : o.comparator.Lawful) (shortens : o.comparator.Shortens)

include law shortens in
/-- The index entry of the last block, with a successor of the last key. -/
theorem Wrote.finishIndex (wrote : Wrote port o contents r indexed waiting [])
    (fences : Fences o.comparator near indexed (waiting.toList.flatMap DataBlock.entries))
    (same : entries = indexed.flatMap (fun x => x.2.entries) ++ waiting.toList.flatMap DataBlock.entries)
    (last : ∀ e, entries.getLast? = some e → r.lastKey = e.1) (sorted : Cursors.Sorted o.comparator.compare entries) :
    ∃ indexed', indexed'.map Prod.snd = indexed.map Prod.snd ++ waiting.toList ∧
      Fences o.comparator near indexed' [] ∧
      (if r.pendingIndexEntry then
        r.addIndexEntry (o.comparator.findShortSuccessor r.lastKey) else r).indexBlock = .addAll 1
          (indexEntries indexed') := by
  have trans := law.trans
  rw [wrote.pendingIndexEntry]
  cases waiting with
  | none => exact ⟨indexed, by simp, fences, wrote.indexBlock⟩
  | some b =>
    rw [Option.toList_some, List.flatMap_singleton] at fences same
    obtain ⟨e, found⟩ : ∃ e, b.entries.getLast? = some e :=
      ⟨_, List.getLast?_eq_some_getLast (wrote.stored b (by simp)).1⟩
    have part : b.entries.Sublist entries := same ▸ List.sublist_append_right _ _
    have lastKey : r.lastKey = e.1 := last e (by rw [same, List.getLast?_append, found, Option.some_or])
    refine ⟨_, by simp, fences.index (fun e' present => ?_) ⟨e, List.mem_of_getLast? found, ?_⟩,
      (wrote.index (o.comparator.findShortSuccessor r.lastKey)).indexBlock⟩
    · have le := Cursors.Sorted.isLE_last (sorted.sublist part) found present
      rw [← lastKey] at le
      exact trans.isLE_trans le (law.le_successor r.lastKey)
    · rw [← lastKey]
      exact shortens.successor _

include law shortens in
/-- `Finish` leaves a whole table in the file. -/
theorem Added.finish {t : Track φ} (accepts : Accepts f contents) (lawful : port.Lawful)
    (added : Added port o near contents t entries) (sorted : Cursors.Sorted o.comparator.compare entries) :
    ∃ footer filterBlockHandle indexed, (t.builder.finish port o f).status = .ok ∧
      (t.builder.finish port o f).offset = (contents (t.builder.finish port o f).file).length ∧
      IsTable port o near (contents (t.builder.finish port o f).file) footer filterBlockHandle indexed ∧
      entries = (indexed.flatMap fun x => x.2.entries) ∧ indexed.map Prod.snd = t.flushed port o f := by
  obtain ⟨indexed, waiting, wrote, written, fences, same, last⟩ := added.flush accepts lawful
  rw [TableBuilder.finish]
  generalize t.builder.flush port o f = r₁ at wrote last
  obtain ⟨filterBlockHandle, r₂, filterResult, filterGrown, filterHolds⟩ :=
    writeFilterBlock_grown (o := o) (r := { r₁ with closed := true }) accepts lawful wrote.status wrote.offset
  obtain ⟨metaindexHandle, r₃, metaindexResult, place, metaindexGrown, metaindexHolds⟩ :=
    writeMetaindexBlock_grown (o := o) accepts lawful filterGrown.ok filterGrown.atEnd filterBlockHandle
  obtain ⟨indexHandle, r₄, indexResult, ok, atEnd, keeps, indexHolds⟩ :=
    writeIndexBlock_grown (o := o) accepts lawful metaindexGrown.ok metaindexGrown.atEnd
  obtain ⟨ok', atEnd', whole⟩ := writeFooter_eq accepts ok atEnd ⟨metaindexHandle, indexHandle⟩
  obtain ⟨indexed', blocks, fences', index⟩ := wrote.finishIndex law shortens fences same last sorted
  dsimp only
  rw [filterResult]
  dsimp only
  rw [metaindexResult]
  dsimp only
  rw [indexResult]
  dsimp only
  refine ⟨⟨metaindexHandle, indexHandle⟩, filterBlockHandle, indexed', ok', atEnd', ?_, ?_, blocks.trans written.symm⟩
  · rw [whole]
    refine ⟨fences', fun x member => ?_, ?_, fun x member => ?_, ?_, (keeps metaindexHolds).append _,
      fun given => ?_, ⟨_, rfl⟩⟩
    · obtain ⟨nonempty, held⟩ := wrote.stored x.2 (blocks ▸ List.mem_map_of_mem member)
      exact ⟨nonempty, (keeps (metaindexGrown.holds (filterGrown.holds held))).append _⟩
    · have apart := wrote.apart
      rw [← blocks, List.map_map] at apart
      exact apart
    · have before := wrote.before x.2 (blocks ▸ List.mem_map_of_mem member)
      have later := filterGrown.le wrote.offset
      dsimp only at later ⊢
      omega
    · have same : (if r₃.pendingIndexEntry then
          r₃.addIndexEntry (o.comparator.findShortSuccessor r₃.lastKey) else r₃).indexBlock =
          .addAll 1 (indexEntries indexed') := by
        rw [← index]
        obtain ⟨file, rest, _, rfl⟩ := metaindexGrown
        obtain ⟨file', rest', _, rfl⟩ := filterGrown
        dsimp only
        split <;> rfl
      rw [← same]
      exact indexHolds.append _
    · refine ⟨r₁.offset, fun x member => wrote.before x.2 (blocks ▸ List.mem_map_of_mem member), ?_⟩
      obtain ⟨size, held⟩ := filterHolds given
      dsimp only at size held
      rw [wrote.filter given, ← blocks] at size held
      exact ⟨size, (keeps (metaindexGrown.holds held)).append _⟩
  · have flat : ∀ l : List (List Byte × DataBlock), l.flatMap (fun x => x.2.entries) =
        (l.map Prod.snd).flatMap DataBlock.entries := fun l => (List.flatMap_map _ _ l).symm
    rw [same, flat, flat, blocks, List.flatMap_append]

end Finish

end TableBuilder

end WormholeFilters.LevelDb
