import WormholeFilters.DbScan
import WormholeFilters.TableReads

/-! The iterators under `NewInternalIterator` and `MakeInputIterator`, db/version_set.cc and db/table_cache.cc:
over a table file, and over the files of a level through an index of their largest keys. -/
namespace WormholeFilters.LevelDb

open LittleEndian
open Env (Status)
open MergingIter (NewMerging newMerging newMergingIterator)
open Table (memoryFile noPort noPort_lawful)

abbrev TableIter : Type := Σ _ : TableFile × Table, TwoLevelIter (Except Status BlockIter) (Except Status BlockIter)

section Model

variable (user : Comparator) (tables : Nat → TableFile) (o : TableOptions) (verifyChecksums : Bool) (fuel : Nat)

def fileValue (f : FileMetaData) : List Byte := encodeFixed64 f.number ++ encodeFixed64 f.fileSize

/-- The state is the files of a level and a place in them. -/
def levelFileNumIterator : Iterator (List FileMetaData × Nat) where
  valid s := decide (s.2 < s.1.length)
  key s := (s.1[s.2]?.map FileMetaData.largest).getD []
  value s := (s.1[s.2]?.map fileValue).getD []
  status _ := .ok
  call c s := (s.1, match c with
    | .seek target => findFile user s.1 target
    | .seekToFirst => 0
    | .seekToLast => if s.1.isEmpty then 0 else (s.1.length - 1) % 2 ^ 32
    | .next => (s.2 + 1) % 2 ^ 32
    | .prev => if s.2 = 0 then s.1.length % 2 ^ 32 else s.2 - 1)

def tableIterator : Iterator (Except Status TableIter) :=
  (Iterator.sigma fun x : TableFile × Table => x.2.iterator x.1 verifyChecksums fuel).orEmpty

def TableCache.newIterator (fileNumber fileSize : Nat) : Except Status TableIter :=
  match Table.openTable (tables fileNumber) o fileSize with
  | .error s => .error s
  | .ok t => .ok ⟨(tables fileNumber, t), t.newIterator⟩

def getFileIterator (fileValue : List Byte) : Except Status TableIter :=
  if fileValue.length ≠ 16 then .error (.corruption "FileReader invoked with unexpected value")
  else TableCache.newIterator tables o (decodeFixed64 fileValue 0) (decodeFixed64 fileValue 8)

def concatenatingIterator : Iterator (TwoLevelIter (List FileMetaData × Nat) (Except Status TableIter)) :=
  TwoLevelIter.iterator (levelFileNumIterator user) (tableIterator verifyChecksums fuel) (getFileIterator tables o) fuel

inductive Layer.Kind where
  | memTable
  | file
  | level

def Layer.Kind.State : Layer.Kind → Type
  | memTable => List (List Byte × List Byte) × Nat
  | file => Except Status TableIter
  | level => TwoLevelIter (List FileMetaData × Nat) (Except Status TableIter)

def Layer.Kind.iterator : (kind : Layer.Kind) → Iterator kind.State
  | memTable => memTableIterator (internalKeyComparator user)
  | file => tableIterator verifyChecksums fuel
  | level => concatenatingIterator user tables o verifyChecksums fuel

def layerIterator : Iterator (Σ kind : Layer.Kind, kind.State) :=
  Iterator.sigma (Layer.Kind.iterator user tables o verifyChecksums fuel)

def Layer.newIterator : Layer → Σ kind : Layer.Kind, kind.State
  | memTable records => ⟨.memTable, records.map Stored.entry, records.length⟩
  | file f => ⟨.file, TableCache.newIterator tables o f.number f.fileSize⟩
  | level files => ⟨.level, TwoLevelIter.init (files, files.length % 2 ^ 32)⟩

def internalIterator (layers : List Layer) : Iterator (NewMerging (Σ kind : Layer.Kind, kind.State) layers.length) :=
  newMergingIterator (internalKeyComparator user) (layerIterator user tables o verifyChecksums fuel) layers.length

def newIterators (layers : List Layer) : NewMerging (Σ kind : Layer.Kind, kind.State) layers.length :=
  newMerging fun k => (layers.get k).newIterator tables o

/-- The files of one level among the inputs of a compaction. -/
def inputLayers (level : Nat) (files : List FileMetaData) : List Layer :=
  if files = [] then [] else if level = 0 then files.map .file else [.level files]

def Compaction.makeInputIterator (c : Compaction) : List Layer :=
  inputLayers c.level c.inputs.1 ++ inputLayers (c.level + 1) c.inputs.2

end Model

structure FileMetaData.Backed (port : Port) (o : TableOptions) (tables : Nat → TableFile) (records : List Stored)
    (f : FileMetaData) : Prop where
  isFile : (tables f.number).Of port o records
  size : f.fileSize = (tableBytes port o records).length
  number : f.number < 2 ^ 64

/-- The tables of a layer are there, and those of a level are in order. -/
def Layer.Sound (user : Comparator) (port : Port) (o : TableOptions) (tables : Nat → TableFile)
    (recs : Nat → List Stored) : Layer → Prop
  | memTable _ => True
  | file f => InOrder user (recs f.number) ∧ f.Backed port o tables (recs f.number)
  | level files => SortedLevel user recs files ∧ (files.Pairwise fun f g => f.number ≠ g.number) ∧
      ∀ f ∈ files, f.Backed port o tables (recs f.number)

section Simulation

variable {user : Comparator} {port : Port} {o : TableOptions} {tables : Nat → TableFile} {recs : Nat → List Stored}
  {verifyChecksums : Bool} {fuel : Nat} {f g : FileMetaData} {files : List FileMetaData} {records : List Stored}

theorem levelFileNumIterator_simulates [Std.TransCmp user.compare]
    (sorted : Cursors.Sorted (internalKeyComparator user).compare (byLargest files)) (few : files.length < 2 ^ 31) :
    Cursors.Simulates (levelFileNumIterator user).iter (internalKeyComparator user).compare
      (files.map fun f => (f.largest, fileValue f)) fun s i => s = (files, i) ∧ i ≤ files.length where
  le here := by
    rw [List.length_map]
    exact here.2
  shown {x i} here := by
    obtain ⟨rfl, le⟩ := here
    rcases Nat.lt_or_ge i files.length with inside | outside
    · simp [Cursors.Iter.shown, levelFileNumIterator, Iterator.iter, inside]
    · simp [Cursors.Iter.shown, levelFileNumIterator, Iterator.iter, Nat.not_lt.mpr outside]
  ok _ := rfl
  step {x i} c here allowed := by
    obtain ⟨rfl, le⟩ := here
    have small {n : Nat} (bound : n ≤ files.length) : n % 2 ^ 32 = n := Nat.mod_eq_of_lt (by omega)
    have index : (Cursors.move (internalKeyComparator user).compare (files.map fun f => (f.largest, fileValue f)) c i) =
        (((levelFileNumIterator user).call c (files, i)).2) := by
      cases c with
      | seekToFirst => rfl
      | seekToLast =>
        simp only [Cursors.move, levelFileNumIterator, List.length_map, small (Nat.sub_le _ _)]
        split
        · next empty => simp [List.isEmpty_iff.mp empty]
        · rfl
      | seek target =>
        simp only [Cursors.move, levelFileNumIterator, findFile_eq sorted few, Cursors.lowerBound, byLargest,
          List.findIdx_map]
        rfl
      | next =>
        rw [Cursors.Allowed, List.length_map] at allowed
        exact (small allowed).symm
      | prev => simp only [Cursors.move, levelFileNumIterator, List.length_map, small (Nat.le_refl _)]
    refine ⟨Prod.ext rfl index.symm, ?_⟩
    have bound : Cursors.move (internalKeyComparator user).compare (files.map fun f => (f.largest, fileValue f)) c i ≤
        (files.map fun f => (f.largest, fileValue f)).length := Cursors.move_le allowed
    rwa [List.length_map] at bound

theorem FileMetaData.Backed.decode_fileValue (backed : f.Backed port o tables records) :
    (fileValue f).length = 16 ∧ decodeFixed64 (fileValue f) 0 = f.number ∧
      decodeFixed64 (fileValue f) 8 = f.fileSize := by
  have size : f.fileSize < 2 ^ 64 := backed.size ▸ Nat.lt_trans backed.isFile.fileBound (by decide)
  refine ⟨rfl, decodeFixed64_encode backed.number [] (encodeFixed64 f.fileSize), ?_⟩
  have second := decodeFixed64_encode size (encodeFixed64 f.number) []
  rwa [List.append_nil] at second

/-- The iterator over a table file goes through its records. -/
theorem TableCache.newIterator_simulates (suits : o.Suits user port) (backed : f.Backed port o tables records)
    (order : InOrder user records) (verifyChecksums : Bool) (enough : records.length < fuel) : ∃ pos,
      Cursors.Simulates (tableIterator verifyChecksums fuel).iter (internalKeyComparator user).compare
        (records.map Stored.entry) pos ∧
      pos (TableCache.newIterator tables o f.number f.fileSize) (records.map Stored.entry).length := by
  obtain ⟨t, opened, options, serves⟩ := backed.isFile.opens suits order verifyChecksums
  obtain ⟨pos, sim, start⟩ := serves.iterates fuel (by rwa [List.length_map])
  rw [options, suits.comparator] at sim
  refine ⟨_, Iterator.simulates_orEmpty (Iterator.simulates_sigma (i := (tables f.number, t)) sim), ?_⟩
  rw [newIterator, backed.size, opened]
  exact ⟨_, rfl, start⟩

theorem FileMetaData.Backed.value_injective (first : f.Backed port o tables (recs f.number))
    (second : g.Backed port o tables (recs g.number)) (same : fileValue f = fileValue g) : f.number = g.number := by
  rw [← first.decode_fileValue.2.1, same, second.decode_fileValue.2.1]

/-- The files of a level under the index of their largest keys. -/
theorem level_indexed [Std.TransCmp user.compare] (suits : o.Suits user port) (sorted : SortedLevel user recs files)
    (numbers : files.Pairwise fun f g => f.number ≠ g.number)
    (backed : ∀ f ∈ files, f.Backed port o tables (recs f.number)) (verifyChecksums : Bool)
    (enough : ∀ f ∈ files, (recs f.number).length < fuel) : ∃ dataAt,
      TwoLevelIter.Indexed (levelFileNumIterator user) (tableIterator verifyChecksums fuel) (getFileIterator tables o)
        (internalKeyComparator user).compare (files.map fun f => (f.largest, fileValue f))
        (files.map fun f => (recs f.number).map Stored.entry) (fun s i => s = (files, i) ∧ i ≤ files.length)
        dataAt := by
  have opened : ∀ j : Nat, ∃ pos : Except Status TableIter → Nat → Prop, ∀ f, files[j]? = some f →
      Cursors.Simulates (tableIterator verifyChecksums fuel).iter (internalKeyComparator user).compare
        ((recs f.number).map Stored.entry) pos ∧
      pos (TableCache.newIterator tables o f.number f.fileSize) ((recs f.number).map Stored.entry).length := by
    intro j
    cases here : files[j]? with
    | none => exact ⟨fun _ _ => False, fun _ impossible => by cases impossible⟩
    | some f =>
      have member := List.mem_of_getElem? here
      obtain ⟨pos, sim, start⟩ := TableCache.newIterator_simulates suits (backed f member) (sorted.file f member).order
        verifyChecksums (enough f member)
      exact ⟨pos, fun g same => by cases same; exact ⟨sim, start⟩⟩
  choose dataAt spec using opened
  refine ⟨dataAt, levelFileNumIterator_simulates sorted.byLargest_sorted sorted.few, ?_, ?_, ?_, ?_⟩
  · rw [List.map_map]
    exact sorted.fenced
  · rw [List.map_map]
    exact List.pairwise_map.mpr (numbers.imp_of_mem fun first second different same =>
      different ((backed _ first).value_injective (backed _ second) same))
  · intro j block found
    rw [List.getElem?_map, Option.map_eq_some_iff] at found
    obtain ⟨f, here, rfl⟩ := found
    exact (spec j f here).1
  · intro j e block entry found
    rw [List.getElem?_map, Option.map_eq_some_iff] at entry found
    obtain ⟨f, here, rfl⟩ := entry
    obtain ⟨g, same, rfl⟩ := found
    obtain rfl : f = g := Option.some.inj (here.symm.trans same)
    obtain ⟨length, number, fileSize⟩ := (backed f (List.mem_of_getElem? here)).decode_fileValue
    rw [getFileIterator, length, number, fileSize]
    exact (spec j f here).2

theorem SortedLevel.length_le (sorted : SortedLevel user recs files) :
    files.length ≤ (recordsOf recs files).length := by
  have nonempty (f) (member : f ∈ files) : 0 < (recs f.number).length := by
    obtain ⟨r, found, _⟩ := (sorted.file f member).smallest
    exact List.length_pos_of_mem (List.mem_of_mem_head? found)
  clear sorted
  induction files with
  | nil => exact Nat.zero_le _
  | cons f files ih =>
    obtain ⟨first, rest⟩ := List.forall_mem_cons.mp nonempty
    have more := ih rest
    rw [recordsOf, List.flatMap_cons, List.length_append, ← recordsOf, List.length_cons]
    omega

theorem length_le_recordsOf (member : f ∈ files) : (recs f.number).length ≤ (recordsOf recs files).length := by
  obtain ⟨front, rest, rfl⟩ := List.append_of_mem member
  simp only [recordsOf, List.flatMap_append, List.flatMap_cons, List.length_append]
  omega

/-- The iterator over a level goes through the records of its files. -/
theorem concatenatingIterator_simulates [Std.TransCmp user.compare] (suits : o.Suits user port)
    (sorted : SortedLevel user recs files) (numbers : files.Pairwise fun f g => f.number ≠ g.number)
    (backed : ∀ f ∈ files, f.Backed port o tables (recs f.number)) (verifyChecksums : Bool)
    (enough : (recordsOf recs files).length < fuel) : ∃ pos,
      Cursors.Simulates (concatenatingIterator user tables o verifyChecksums fuel).iter
        (internalKeyComparator user).compare ((recordsOf recs files).map Stored.entry) pos ∧
      pos (TwoLevelIter.init (files, files.length % 2 ^ 32)) ((recordsOf recs files).map Stored.entry).length := by
  have keys : Std.TransCmp (internalKeyComparator user).compare := InternalKeyComparator.transCmp inferInstance
  obtain ⟨dataAt, indexed⟩ := level_indexed suits sorted numbers backed verifyChecksums fun f member =>
    Nat.lt_of_le_of_lt (length_le_recordsOf member) enough
  have sim := TwoLevelIter.simulates indexed (show (files.map fun f => (f.largest, fileValue f)).length < fuel by
    rw [List.length_map]
    exact Nat.lt_of_le_of_lt sorted.length_le enough)
  have whole : (files.map fun f => (recs f.number).map Stored.entry).flatten =
      (recordsOf recs files).map Stored.entry := by
    rw [recordsOf, List.map_flatMap, List.flatMap_def]
  rw [whole] at sim
  refine ⟨_, sim, Or.inr ⟨⟨rfl, ⟨?_, Nat.le_of_eq (List.length_map _)⟩, rfl⟩, by rw [whole]⟩⟩
  have few := sorted.few
  rw [TwoLevelIter.init, List.length_map, Nat.mod_eq_of_lt (by omega)]

theorem Layer.simulates [Std.TransCmp user.compare] (suits : o.Suits user port) {layer : Layer}
    (sound : layer.Sound user port o tables recs) (verifyChecksums : Bool)
    (enough : (layer.records recs).length < fuel) : ∃ pos,
      Cursors.Simulates (layerIterator user tables o verifyChecksums fuel).iter (internalKeyComparator user).compare
        ((layer.records recs).map Stored.entry) pos ∧ ∃ i, pos (layer.newIterator tables o) i := by
  cases layer with
  | memTable records =>
    refine ⟨_, Iterator.simulates_sigma (i := Layer.Kind.memTable)
      (memTableIterator_simulates (internalKeyComparator user) (records.map Stored.entry)), records.length,
      _, rfl, rfl, ?_⟩
    exact Nat.le_of_eq (List.length_map _).symm
  | file f =>
    obtain ⟨order, backed⟩ := sound
    obtain ⟨pos, sim, start⟩ := TableCache.newIterator_simulates suits backed order verifyChecksums enough
    exact ⟨_, Iterator.simulates_sigma (i := Layer.Kind.file) sim, _, _, rfl, start⟩
  | level files =>
    obtain ⟨sorted, numbers, backed⟩ := sound
    obtain ⟨pos, sim, start⟩ := concatenatingIterator_simulates suits sorted numbers backed verifyChecksums enough
    exact ⟨_, Iterator.simulates_sigma (i := Layer.Kind.level) sim, _, _, rfl, start⟩

end Simulation

def Db.Sized (o : StoreOptions) (db : Db) : Prop :=
  ∀ level, ∀ f ∈ db.version.files level, f.fileSize = o.tableSize ((db.files f.number).map Stored.entry)

section Sizes

variable {user : Comparator} [Std.TransCmp user.compare] {o : StoreOptions} {db db' : Db} {log batch : List Stored}

theorem Db.Sized.step (sized : db.Sized o) (inv : db.Inv user log) (step : Step user o db batch db')
    (small : db.lastSequence < kMaxSequenceNumber) : db'.Sized o := by
  intro level f member
  have size {A B : List Stored} (same : A = B) : o.tableSize (A.map Stored.entry) = o.tableSize (B.map Stored.entry) :=
    congrArg (fun records => o.tableSize (records.map Stored.entry)) same
  cases step with
  | compactMemTable full gaps =>
    next imm =>
    rw [Db.compactMemTable] at member ⊢
    split at member
    · next empty =>
      rw [if_pos empty]
      exact sized level f member
    · next nonempty =>
      rw [if_neg nonempty]
      have order := inv.immOrder
      have between := inv.between
      rw [full] at order between
      have takes : db.version.Takes user db.files imm := ⟨order, nonempty, between⟩
      have start : ({} : VersionEdit).NoFiles := ⟨rfl, rfl⟩
      obtain ⟨_, placed⟩ := inv.kept.placed takes start o.maxFileSize o.tableSize
      rcases placed.mem_iff.mp member with old | ⟨_, rfl⟩
      · exact (sized level f old).trans (size (placed.same old).symm)
      · exact size placed.new.symm
  | moveFile idle inside current picked trivially only =>
    obtain ⟨sameLevel, version, chosen, _⟩ := pickCompaction_chosen inv.kept.ordered current picked
    have ready := chosen.ready version inv.kept.ordered inv.distinct_version (sameLevel.symm ▸ inside)
    have single := Compaction.inputs_of_isTrivialMove _ trivially only
    rcases (ready.mem_moved inv.kept ⟨rfl, rfl⟩ single).2.mp member with ⟨old, _⟩ | ⟨_, rfl⟩
    · exact sized level f old
    · exact sized _ f (ready.present (Or.inl ⟨rfl, by simp [single]⟩))
  | install runs reads opened wrote =>
    have finished := inv.finished runs reads opened wrote small
    obtain ⟨_, mem⟩ := finished.fits_and_mem inv.kept.numbered o.tableSize
    rcases mem.mp member with ⟨old, _⟩ | ⟨_, new⟩
    · exact (sized level f old).trans (size (finished.written_old old).symm)
    · obtain ⟨out, isOut, rfl⟩ := List.mem_map.mp new
      exact size (written_eq finished.numbers isOut).symm
  | removeObsoleteFiles held =>
    have old : f ∈ db.version.files level := member
    exact (sized level f old).trans
      (size (Db.Inv.files_removeObsoleteFiles (Or.inl rfl) old (inv.kept.levels level f old)).symm)
  | _ => exact sized level f member

theorem Db.Reaches.sized (reached : Reaches user o db log) (small : db.lastSequence < kMaxSequenceNumber)
    (few : db.nextFileNumber < 2 ^ 31) : db.Sized o := by
  induction reached with
  | new => exact fun _ _ impossible => absurd impossible List.not_mem_nil
  | step before step ih =>
    obtain ⟨last, next⟩ := step.mono
    have small' := Nat.lt_of_le_of_lt last small
    have few' := Nat.lt_of_le_of_lt next few
    exact (ih small' few').step (before.inv small' few') step small'

end Sizes

/-! A store with two tables in level 0 and one in each of the levels 1 and 2. -/
namespace Layers

def tableOptions : TableOptions := ⟨internalKeyComparator bytewiseComparator, 4096, 16, .none, none, true⟩

def options : StoreOptions := ⟨2 ^ 21, fun _ => 0, fun entries =>
  ((TableBuilder.addAll noPort tableOptions memoryFile [] entries).finish noPort tableOptions memoryFile).file.length⟩

def batches : List (List Stored) := [[.put 97#8 1#8, .put 98#8 2#8], [.put 97#8 3#8],
  [.put 97#8 4#8], [.put 97#8 5#8]]

def db : Db := batches.foldl (Db.flush bytewiseComparator options) .new

def table (n : Nat) : TableFile := .ofBytes noPort (tableBytes noPort tableOptions (db.files n))

theorem suits : tableOptions.Suits bytewiseComparator noPort :=
  ⟨noPort_lawful, BytewiseComparator.lawful, BytewiseComparator.keepsEqual, rfl, by decide,
  fun _ _ given => by cases given⟩

theorem reached : Db.Reaches bytewiseComparator options db batches.flatten ∧ db.imm = none ∧ db.running = none ∧
    db.lastSequence = batches.flatten.length := Db.reaches_flushes bytewiseComparator options batches (by decide)

theorem next : db.nextFileNumber = 10 := by decide +kernel

theorem isFile (level : Nat) (f : FileMetaData) (member : f ∈ db.version.files level) :
    (table f.number).Of noPort tableOptions (db.files f.number) := by
  have small : ∀ level < kNumLevels, ∀ f ∈ db.version.files level,
      Table.sizeBound ((db.files f.number).map Stored.entry) < 2 ^ 32 ∧
        (tableBytes noPort tableOptions (db.files f.number)).length < 2 ^ 32 := by decide +kernel
  have inv := reached.1.inv (by rw [reached.2.2.2]; decide) (by rw [next]; decide)
  obtain ⟨bound, fileBound⟩ := small level (inv.kept.levels level f member) f member
  exact ⟨rfl, fun _ _ _ => rfl, fun _ => rfl, bound, fileBound⟩

theorem picks : (db.version.compactRange bytewiseComparator options.maxFileSize 0 none none).isSome = true := by
  decide +kernel

end Layers

section Iterators

variable {user : Comparator} [trans : Std.TransCmp user.compare] {so : StoreOptions} {db : Db}
  {log : List Stored} {s fuel : Nat} {port : Port} {o : TableOptions} {tables : Nat → TableFile} {verifyChecksums : Bool} {r : Running}

theorem Db.Reaches.backed (reached : Reaches user so db log) (small : db.lastSequence < kMaxSequenceNumber)
    (few : db.nextFileNumber < 2 ^ 31)
    (sizes : ∀ records, so.tableSize (records.map Stored.entry) = (tableBytes port o records).length)
    (isFile : ∀ level, ∀ f ∈ db.version.files level, (tables f.number).Of port o (db.files f.number)) {level : Nat}
    {f : FileMetaData} (member : f ∈ db.version.files level) : f.Backed port o tables (db.files f.number) where
  isFile := isFile level f member
  size := (reached.sized small few level f member).trans (sizes _)
  number := by
    have below := (reached.inv small few).kept.numbered.below level f member
    omega

theorem Db.Inv.sound (inv : db.Inv user log)
    (backed : ∀ level, ∀ f ∈ db.version.files level, f.Backed port o tables (db.files f.number)) {layer : Layer}
    (member : layer ∈ db.newInternalIterator) : layer.Sound user port o tables db.files := by
  rcases List.mem_cons.mp member with rfl | rest
  · trivial
  · rcases List.mem_append.mp rest with inImm | deeper
    · obtain ⟨imm, _, rfl⟩ := List.mem_map.mp inImm
      trivial
    · rcases List.mem_append.mp deeper with zero | lower
      · obtain ⟨f, inLevel, rfl⟩ := List.mem_map.mp zero
        exact ⟨(inv.kept.ordered.file f inLevel).order, backed 0 f inLevel⟩
      · obtain ⟨level, listed, rfl⟩ := List.mem_map.mp lower
        have positive := (List.mem_range'_1.mp (List.mem_filter.mp listed).1).1
        exact ⟨inv.kept.ordered.sorted level positive, inv.kept.numbered.nodup_numbers inv.kept.ascending level,
          backed level⟩

/-- Sound layers of records of the log are simulated all together. -/
theorem Layered.simulates (suits : o.Suits user port) {layers : List Layer} {recs : Nat → List Stored}
    (layered : Layered user recs layers) (sound : ∀ layer ∈ layers, layer.Sound user port o tables recs)
    (source : ∀ layer ∈ layers, ∀ r ∈ layer.records recs, r ∈ log) (verifyChecksums : Bool)
    (enough : log.length < fuel) :
    ∃ pos : Fin layers.length → (Σ kind : Layer.Kind, kind.State) → Nat → Prop,
      (∀ k, Cursors.Simulates (layerIterator user tables o verifyChecksums fuel).iter
        (internalKeyComparator user).compare (((layers.get k).records recs).map Stored.entry) (pos k)) ∧
      ∀ k, ∃ i, pos k ((layers.get k).newIterator tables o) i := by
  have each (k : Fin layers.length) := Layer.simulates suits (sound _ (List.get_mem layers k)) verifyChecksums
    (Nat.lt_of_le_of_lt ((layered.order _ (List.get_mem layers k)).length_le (source _ (List.get_mem layers k))) enough)
  choose pos spec using each
  exact ⟨pos, fun k => (spec k).1, fun k => (spec k).2⟩

/-- In every state that a store comes to, an iterator through the blocks of its table files scans what the
writes up to its sequence number left. -/
theorem Db.Reaches.iterator_through_tables (reached : Reaches user so db log)
    (small : db.lastSequence < kMaxSequenceNumber) (few : db.nextFileNumber < 2 ^ 31) (live : db.Live s)
    (suits : o.Suits user port)
    (sizes : ∀ records, so.tableSize (records.map Stored.entry) = (tableBytes port o records).length)
    (isFile : ∀ level, ∀ f ∈ db.version.files level, (tables f.number).Of port o (db.files f.number))
    (verifyChecksums : Bool) (enough : log.length < fuel) :
    Db.Scans user (log.take s)
      (DbIter.iterator user (internalIterator user tables o verifyChecksums fuel db.newInternalIterator) s fuel)
      (DbIter.init (newIterators tables o db.newInternalIterator)) := by
  have inv := reached.inv small few
  have sound (layer) (member : layer ∈ db.newInternalIterator) : layer.Sound user port o tables db.files :=
    inv.sound (fun level f inLevel => reached.backed small few sizes isFile inLevel) member
  obtain ⟨pos, sims, stand⟩ := inv.layered.simulates suits sound
    (fun layer member r inside => inv.source (inv.mem_layers.mp ⟨layer, member, inside⟩)) verifyChecksums enough
  exact inv.scans small live sims stand (Nat.le_of_lt enough)

/-- A deletion in the memtable does not hide the values of all levels from a snapshot before it. -/
theorem Db.Reaches.iterator_through_tables_layers :
    let deletion : Stored := ⟨⟨[97#8], 6, .deletion⟩, [], by decide⟩
    ∃ db, Reaches bytewiseComparator Layers.options db (Layers.batches.flatten ++ [deletion]) ∧
      db.newInternalIterator.length = 5 ∧
      Db.Scans bytewiseComparator Layers.batches.flatten
        (DbIter.iterator bytewiseComparator
          (internalIterator bytewiseComparator Layers.table Layers.tableOptions true 7 db.newInternalIterator) 5 7)
        (DbIter.init (newIterators Layers.table Layers.tableOptions db.newInternalIterator)) := by
  intro deletion
  obtain ⟨reached, free, idle, last⟩ := Layers.reached
  have numbers : [deletion].map Stored.sequence = List.range' (Layers.db.lastSequence + 1) 1 := by
    rw [last]
    decide
  have written := (reached.step .getSnapshot).step (.write (Db.numbered_of_map numbers))
  rw [List.append_nil] at written
  refine ⟨_, written, by decide +kernel, ?_⟩
  exact written.iterator_through_tables (s := 5) (by decide +kernel) (by decide +kernel)
    (Or.inr (by decide +kernel)) Layers.suits (fun _ => rfl) Layers.isFile true (by decide)

theorem mem_inputLayers {recs : Nat → List Stored} {level : Nat} {files : List FileMetaData} {x : Stored} :
    (∃ layer ∈ inputLayers level files, x ∈ layer.records recs) ↔ ∃ f ∈ files, x ∈ recs f.number := by
  rw [inputLayers]
  split
  · next empty => simp [empty]
  · split
    · simp [Layer.records]
    · simp [Layer.records, recordsOf]

theorem Compaction.mem_makeInputIterator (c : Compaction) {recs : Nat → List Stored} {x : Stored} :
    (∃ layer ∈ c.makeInputIterator, x ∈ layer.records recs) ↔ ∃ i f, c.Input i f ∧ x ∈ recs f.number := by
  simp only [makeInputIterator, List.mem_append, or_and_right, exists_or, mem_inputLayers]
  constructor
  · rintro (⟨f, member, inside⟩ | ⟨f, member, inside⟩)
    · exact ⟨_, f, Or.inl ⟨rfl, member⟩, inside⟩
    · exact ⟨_, f, Or.inr ⟨rfl, member⟩, inside⟩
  · rintro ⟨i, f, ⟨_, member⟩ | ⟨_, member⟩, inside⟩
    · exact Or.inl ⟨f, member, inside⟩
    · exact Or.inr ⟨f, member, inside⟩

/-- The inputs of one level: every file of level 0 by itself, the others together. -/
theorem inputLayers_layered {v : Version} {next level : Nat} {recs : Nat → List Stored} {files : List FileMetaData}
    (kept : v.Kept user recs next) (present : ∀ f ∈ files, f ∈ v.files level)
    (numbers : files.Pairwise fun f g => f.number ≠ g.number) (sorted : 0 < level → SortedLevel user recs files)
    (backed : ∀ level, ∀ f ∈ v.files level, f.Backed port o tables (recs f.number)) :
    Layered user recs (inputLayers level files) ∧
      ∀ layer ∈ inputLayers level files, layer.Sound user port o tables recs := by
  rw [inputLayers]
  split
  · exact ⟨⟨by simp, List.Pairwise.nil⟩, by simp⟩
  · split
    · next zero =>
      subst zero
      refine ⟨⟨fun layer member => ?_, kept.ordered.zero_disjoint present numbers⟩, fun layer member => ?_⟩
      · obtain ⟨f, inFiles, rfl⟩ := List.mem_map.mp member
        exact (kept.ordered.file f (present f inFiles)).order
      · obtain ⟨f, inFiles, rfl⟩ := List.mem_map.mp member
        exact ⟨(kept.ordered.file f (present f inFiles)).order, backed 0 f (present f inFiles)⟩
    · next positive =>
      have level := sorted (Nat.pos_of_ne_zero positive)
      refine ⟨⟨by simpa [Layer.records] using level.inOrder, List.pairwise_singleton _ _⟩, ?_⟩
      rw [List.forall_mem_singleton]
      exact ⟨level, numbers, fun f member => backed _ f (present f member)⟩

theorem Db.Inv.inputs_layered (inv : db.Inv user log) (runs : db.running = some r)
    (backed : ∀ level, ∀ f ∈ db.version.files level, f.Backed port o tables (db.files f.number)) :
    Layered user db.files r.compaction.makeInputIterator ∧
      ∀ layer ∈ r.compaction.makeInputIterator, layer.Sound user port o tables db.files := by
  have before := inv.running r runs
  have inFirst (f) (member : f ∈ r.compaction.inputs.1) := before.ready.present (Or.inl ⟨rfl, member⟩)
  have inSecond (f) (member : f ∈ r.compaction.inputs.2) := before.ready.present (Or.inr ⟨rfl, member⟩)
  obtain ⟨first, sound⟩ := inputLayers_layered inv.kept inFirst ((before.numbers _).sublist before.sub)
    (fun positive => (before.sorted _ positive).sublist before.sub) backed
  obtain ⟨second, sound'⟩ := inputLayers_layered inv.kept inSecond ((before.numbers _).sublist before.sub')
    (fun positive => (before.sorted _ positive).sublist before.sub') backed
  refine ⟨⟨List.forall_mem_append.mpr ⟨first.order, second.order⟩, List.pairwise_append.mpr ⟨first.disjoint,
    second.disjoint, fun A inA B inB x inside other => ?_⟩⟩, List.forall_mem_append.mpr ⟨sound, sound'⟩⟩
  obtain ⟨f, isFirst, inF⟩ := mem_inputLayers.mp ⟨A, inA, inside⟩
  obtain ⟨g, isSecond, inG⟩ := mem_inputLayers.mp ⟨B, inB, other⟩
  have newer := inv.kept.ordered.order (inFirst f isFirst) (inSecond g isSecond) (Or.inl (Nat.lt_succ_self _))
  exact newer.disjoint inF inG

/-- A compaction that runs comes to the records of its inputs in order, through the blocks of their table files. -/
theorem Db.Reaches.input_through_tables (reached : Reaches user so db log)
    (small : db.lastSequence < kMaxSequenceNumber) (few : db.nextFileNumber < 2 ^ 31) (runs : db.running = some r)
    (suits : o.Suits user port)
    (sizes : ∀ records, so.tableSize (records.map Stored.entry) = (tableBytes port o records).length)
    (isFile : ∀ level, ∀ f ∈ db.version.files level, (tables f.number).Of port o (db.files f.number))
    (enough : log.length < fuel) :
    let it := internalIterator user tables o o.paranoidChecks fuel r.compaction.makeInputIterator
    let read := it.iter.collect fuel (it.call .seekToFirst (newIterators tables o r.compaction.makeInputIterator))
    it.status read.2 = .ok ∧ ∃ input, r.compaction.Reads user db.files input ∧ read.1 = input.map Stored.entry := by
  intro it read
  have inv := reached.inv small few
  have keys : Std.TransCmp (internalKeyComparator user).compare := InternalKeyComparator.transCmp trans
  obtain ⟨layered, sound⟩ := inv.inputs_layered runs fun level f inLevel =>
    reached.backed small few sizes isFile inLevel
  have inRecords (x : Stored) (isInput : ∃ i f, r.compaction.Input i f ∧ x ∈ db.files f.number) : x ∈ db.records := by
    obtain ⟨i, f, input, inside⟩ := isInput
    exact Db.Inv.mem_version (inv.kept.mem_records.mpr ⟨i, f, (inv.running r runs).ready.present input, inside⟩)
  have source (layer) (member : layer ∈ r.compaction.makeInputIterator) (x)
      (inside : x ∈ layer.records db.files) : x ∈ log :=
    inv.source (inRecords x (r.compaction.mem_makeInputIterator.mp ⟨layer, member, inside⟩))
  obtain ⟨input, order, inLayers, length⟩ := exists_merged user inv.numbered source
  obtain ⟨pos, sims, stand⟩ := layered.simulates suits sound source o.paranoidChecks enough
  obtain ⟨newAt, sim, i, stands⟩ := MergingIter.new_simulates keys
    (layered.merged inv.numbered source order inLayers) sims stand
  have whole : (input.map Stored.entry).length ≤
      Cursors.move (internalKeyComparator user).compare (input.map Stored.entry) .seekToFirst i + fuel := by
    rw [List.length_map, Cursors.move]
    omega
  obtain ⟨all, last⟩ := sim.collect (sim.step .seekToFirst stands trivial) whole
  refine ⟨(Iterator.iter_ok _ _).mp (sim.ok last), input, ⟨order, fun x => ?_⟩, all⟩
  rw [inLayers, r.compaction.mem_makeInputIterator]

/-- A manual compaction of both files of level 0 with the one of level 1. -/
theorem Db.Reaches.input_through_tables_layers :
    ∃ db r, Reaches bytewiseComparator Layers.options db Layers.batches.flatten ∧
    db.running = some r ∧ r.compaction.makeInputIterator.length = 3 ∧
    let it := internalIterator bytewiseComparator Layers.table Layers.tableOptions true 6 r.compaction.makeInputIterator
    let read := it.iter.collect 6 (it.call .seekToFirst
      (newIterators Layers.table Layers.tableOptions r.compaction.makeInputIterator))
    it.status read.2 = .ok ∧
      ∃ input, r.compaction.Reads bytewiseComparator db.files input ∧ read.1 = input.map Stored.entry := by
  obtain ⟨reached, free, idle, last⟩ := Layers.reached
  have begun := reached.step (.compactRange idle (by decide) (Option.some_get Layers.picks).symm)
  rw [List.append_nil] at begun
  refine ⟨_, _, begun, rfl, by decide +kernel, ?_⟩
  exact begun.input_through_tables (by decide +kernel) (by decide +kernel) rfl Layers.suits (fun _ => rfl) Layers.isFile
    (by decide)

end Iterators

end WormholeFilters.LevelDb
