import WormholeFilters.MemTable
import WormholeFilters.MemTableOutput

/-! The store as a whole, db/db_impl.cc. A step is what happens under the mutex: a write, a memtable that is full, a
memtable that is written, a snapshot, and the parts of a compaction, with anything else between them. `Get` reads what
the writes up to its snapshot left. The log, recovery and the queue of writers are left out. -/
namespace WormholeFilters.LevelDb

open LittleEndian
open Env (Status)
open Multiversion (Newest Unseen Above Answered Prunes Serves)
open Spans (Solid)

/-- What a store is opened with: the sizes of a table that is being built and of one that is finished. -/
structure StoreOptions where
  maxFileSize : Nat
  fileSize : List (List Byte × List Byte) → Nat
  tableSize : List (List Byte × List Byte) → Nat

structure Running where
  compaction : Compaction
  manual : Bool
  smallestSnapshot : Nat
  edit : VersionEdit
  outputs : List Nat

/-- `files` are the records of the table files. -/
structure Db where
  mem : List Stored
  imm : Option (List Stored)
  files : Nat → List Stored
  version : Version
  lastSequence : Nat
  nextFileNumber : Nat
  snapshots : List Nat
  running : Option Running

namespace Db

def new : Db := ⟨[], none, fun _ => [], ⟨fun _ => []⟩, 0, 2, [], none⟩

section Model

variable (user : Comparator) (o : StoreOptions)

/-- `tableGet` is what a lookup in a table with some records gives. -/
def get (tableGet : List Stored → List Byte → Status × Option (List Byte × List Byte)) (db : Db) (userKey : List Byte)
    (sequence : Nat) : Status × Option (List Byte) :=
  match MemTable.get user db.mem userKey sequence with
  | some answer => answer
  | none =>
    match db.imm.bind fun imm => MemTable.get user imm userKey sequence with
    | some answer => answer
    | none => db.version.get user (fun f => tableGet (db.files f.number)) userKey sequence

def write (db : Db) (batch : List Stored) : Db :=
  { db with mem := batch.foldl (MemTable.add user) db.mem, lastSequence := db.lastSequence + batch.length }

/-- An empty memtable leaves no file, but its number is taken. -/
def compactMemTable (db : Db) (imm : List Stored) : Db :=
  if imm = [] then { db with imm := none, nextFileNumber := db.nextFileNumber + 1 }
  else
    { db with
      imm := none
      files := written db.files [(db.nextFileNumber, imm)]
      version := db.version.flushed user o.maxFileSize {} (tableMeta o.tableSize db.nextFileNumber
        (imm.map Stored.entry))
      nextFileNumber := db.nextFileNumber + 1 }

/-- The new log takes a number too. -/
def makeRoomForWrite (db : Db) : Db :=
  { db with mem := [], imm := some db.mem, nextFileNumber := db.nextFileNumber + 1 }

def smallestSnapshot (db : Db) : Nat := db.snapshots.head?.getD db.lastSequence

def begin (db : Db) (c : Compaction) (pointer : List Byte) (manual : Bool) : Db :=
  { db with running := some ⟨c, manual, db.smallestSnapshot, ({} : VersionEdit).setCompactPointer c.level pointer, []⟩ }

def openOutput (db : Db) (r : Running) : Db :=
  { db with
    running := some { r with outputs := r.outputs ++ [db.nextFileNumber] }
    nextFileNumber := db.nextFileNumber + 1 }

def install (db : Db) (r : Running) (outs : List (Nat × List Stored)) : Db :=
  { db with
    files := written db.files outs
    version := r.compaction.result user db.version r.edit o.tableSize outs
    running := none }

def pendingOutputs (db : Db) : List Nat := (db.running.map Running.outputs).getD []

/-- `AddLiveFiles` on the versions in use: the current one, the one that a compaction reads, and those that
readers hold. -/
def addLiveFiles (versions : List Version) : List Nat :=
  versions.flatMap fun v => (List.range kNumLevels).flatMap fun level => (v.files level).map FileMetaData.number

def removeObsoleteFiles (db : Db) (held : List Version) : Db :=
  let inUse := db.version :: ((db.running.map fun r => r.compaction.inputVersion).toList ++ held)
  let live := db.pendingOutputs ++ addLiveFiles inUse
  { db with files := fun n => if n ∈ live then db.files n else [] }

/-- One step, with the records that it writes. While a manual compaction runs whose inputs leave gaps, no memtable is
written: its file could come to lie between the outputs. -/
inductive Step [Std.TransCmp user.compare] : Db → List Stored → Db → Prop where
  | write {db : Db} {batch : List Stored}
      (numbered : ∀ (i : Nat) (r : Stored), batch[i]? = some r → r.sequence = db.lastSequence + 1 + i) :
      Step db batch (db.write user batch)
  | makeRoom {db : Db} (free : db.imm = none) : Step db [] db.makeRoomForWrite
  | compactMemTable {db : Db} {imm : List Stored} (full : db.imm = some imm)
      (gaps : ∀ r, db.running = some r → r.manual = true →
        Solid (low user) (high user) (r.compaction.inputs.1 ++ r.compaction.inputs.2)) :
      Step db [] (db.compactMemTable user o imm)
  | getSnapshot {db : Db} : Step db [] { db with snapshots := db.snapshots ++ [db.lastSequence] }
  | releaseSnapshot {db : Db} (s : Nat) : Step db [] { db with snapshots := db.snapshots.erase s }
  | pickCompaction {db : Db} {trigger : Trigger} {compactPointer : Nat → List Byte} {c : Compaction}
      {pointer : List Byte}
      (idle : db.running = none) (inside : trigger.level + 1 < kNumLevels)
      (current : ∀ level f, trigger = .seek level f → f ∈ db.version.files level)
      (picked : LevelDb.pickCompaction user o.maxFileSize db.version compactPointer trigger = some (c, pointer)) :
      Step db [] (db.begin c pointer false)
  | compactRange {db : Db} {level : Nat} {lower upper : Option (List Byte)} {c : Compaction} {pointer : List Byte}
      (idle : db.running = none) (inside : level + 1 < kNumLevels)
      (picked : db.version.compactRange user o.maxFileSize level lower upper = some (c, pointer)) :
      Step db [] (db.begin c pointer true)
  | moveFile {db : Db} {trigger : Trigger} {compactPointer : Nat → List Byte} {c : Compaction} {pointer : List Byte}
      {f : FileMetaData} (idle : db.running = none) (inside : trigger.level + 1 < kNumLevels)
      (current : ∀ level f, trigger = .seek level f → f ∈ db.version.files level)
      (picked : LevelDb.pickCompaction user o.maxFileSize db.version compactPointer trigger = some (c, pointer))
      (trivially : c.isTrivialMove = true) (only : c.inputs.1.head? = some f) :
      Step db [] { db with version := c.moved user db.version (({} : VersionEdit).setCompactPointer c.level pointer) f }
  | openOutput {db : Db} {r : Running} (runs : db.running = some r) : Step db [] (db.openOutput r)
  | install {db : Db} {r : Running} {input : List Stored} {outs : List (Nat × List Stored)} (runs : db.running = some r)
      (reads : r.compaction.Reads user db.files input) (opened : outs.map Prod.fst = r.outputs)
      (wrote : outs.map (fun out => out.2.map Stored.entry) =
        doCompactionWork user r.compaction r.smallestSnapshot o.fileSize (input.map Stored.entry)) :
      Step db [] (db.install user o r outs)
  | abandon {db : Db} : Step db [] { db with running := none }
  | removeObsoleteFiles {db : Db} (held : List Version) : Step db [] (db.removeObsoleteFiles held)

inductive Reaches [Std.TransCmp user.compare] : Db → List Stored → Prop where
  | new : Reaches .new []
  | step {db db' : Db} {log batch : List Stored} (before : Reaches db log) (step : Step user o db batch db') :
      Reaches db' (log ++ batch)

/-- What the writes so far left of a user key: the last of them counts. -/
def lookup (log : List Stored) (userKey : List Byte) : Status × Option (List Byte) :=
  match log.reverse.find? fun r => user.compare r.key.userKey userKey = .eq with
  | some r => r.answer
  | none => (notFound, none)

end Model

section Run

variable {user : Comparator} [Std.TransCmp user.compare] {o : StoreOptions} {db : Db} {log batch : List Stored}

/-- A batch takes the next numbers. -/
theorem numbered_of_map {last : Nat} (numbers : batch.map Stored.sequence = List.range' (last + 1) batch.length)
    (i : Nat) (r : Stored) (found : batch[i]? = some r) : r.sequence = last + 1 + i := by
  have inside := (List.getElem?_eq_some_iff.mp found).1
  have here : (batch.map Stored.sequence)[i]? = some r.sequence := by
    rw [List.getElem?_map, found]
    rfl
  rw [numbers, List.getElem?_range' inside, Nat.one_mul] at here
  exact (Option.some.inj here).symm

def flush (user : Comparator) (o : StoreOptions) (db : Db) (batch : List Stored) : Db :=
  (db.write user batch).makeRoomForWrite.compactMemTable user o (db.write user batch).mem

variable (user o)

omit [Std.TransCmp user.compare] in
theorem flush_eq (db : Db) (batch : List Stored) : (db.flush user o batch).imm = none ∧
    (db.flush user o batch).running = db.running ∧
    (db.flush user o batch).lastSequence = db.lastSequence + batch.length := by
  rw [flush, compactMemTable]
  split <;> exact ⟨rfl, rfl, rfl⟩

/-- A store with a table for each of some batches. -/
theorem reaches_flushes (batches : List (List Stored))
    (numbers : batches.flatten.map Stored.sequence = List.range' 1 batches.flatten.length) :
    Reaches user o (batches.foldl (flush user o) new) batches.flatten ∧ (batches.foldl (flush user o) new).imm = none ∧
      (batches.foldl (flush user o) new).running = none ∧
      (batches.foldl (flush user o) new).lastSequence = batches.flatten.length := by
  induction batches using List.reverseRecOn with
  | nil => exact ⟨.new, rfl, rfl, rfl⟩
  | append_singleton batches batch ih =>
    rw [List.flatten_append, List.flatten_singleton, List.map_append, List.length_append, ← List.range'_append_1]
      at numbers
    obtain ⟨before, here⟩ := List.append_inj numbers (by rw [List.length_map, List.length_range'])
    obtain ⟨reached, free, idle, last⟩ := ih before
    rw [List.foldl_append, List.foldl_cons, List.foldl_nil, List.flatten_append, List.flatten_singleton,
      List.length_append]
    generalize batches.foldl (flush user o) new = db at reached free idle last
    obtain ⟨free', running, sequence⟩ := flush_eq user o db batch
    refine ⟨?_, free', running.trans idle, by rw [sequence, last]⟩
    rw [← last, Nat.add_comm 1] at here
    have full := (reached.step (.write (numbered_of_map here))).step (.makeRoom free)
    have written := full.step (.compactMemTable rfl fun r runs => by
      rw [makeRoomForWrite, write, idle] at runs
      cases runs)
    rwa [List.append_nil, List.append_nil] at written

end Run

/-! A run in which the guard of `compactMemTable` fails. Level 1 has the files a to c and x to z, level 2 one
with a and one with z. A manual compaction takes all four; the memtable with m that is written meanwhile goes to
level 2. -/
namespace Gap

def options : StoreOptions := ⟨2 ^ 21, fun _ => 0, fun entries => entries.length⟩

def batches : List (List Stored) := [[.put 97#8 1#8], [.put 122#8 2#8],
  [.put 97#8 3#8, .put 99#8 4#8], [.put 120#8 5#8, .put 122#8 6#8]]

def full : Db := batches.foldl (flush bytewiseComparator options) new

theorem picks : (full.version.compactRange bytewiseComparator options.maxFileSize 1 none none).isSome = true := by
  decide +kernel

def picked : Compaction × List Byte :=
  (full.version.compactRange bytewiseComparator options.maxFileSize 1 none none).get picks

def running : Running :=
  ⟨picked.1, true, full.smallestSnapshot, ({} : VersionEdit).setCompactPointer picked.1.level picked.2, []⟩

def waiting : Db :=
  ((full.begin picked.1 picked.2 true).write bytewiseComparator [.put 109#8 7#8]).makeRoomForWrite

/-- The memtable is written although the inputs leave a gap. -/
def written : Db := waiting.compactMemTable bytewiseComparator options [.put 109#8 7#8]

def outputs : List (Nat × List Stored) :=
  [(12, [.put 97#8 3#8, .put 99#8 4#8, .put 120#8 5#8, .put 122#8 6#8])]

def installed : Db :=
  (written.openOutput running).install bytewiseComparator options { running with outputs := [12] } outputs

theorem waiting_reached : Reaches bytewiseComparator options waiting (batches.flatten ++ [.put 109#8 7#8]) := by
  obtain ⟨reached, free, idle, last⟩ := reaches_flushes bytewiseComparator options batches (by decide)
  have begun := reached.step (.compactRange idle (by decide) (Option.some_get picks).symm)
  have numbers : [Stored.put 109#8 7#8].map Stored.sequence = List.range' (full.lastSequence + 1) 1 := by
    rw [full, last]
    decide
  have wrote := (begun.step (.write (numbered_of_map numbers))).step (.makeRoom free)
  rwa [List.append_nil, List.append_nil] at wrote

theorem written_installs : Step bytewiseComparator options (written.openOutput running) [] installed := by
  have reads : running.compaction.Reads bytewiseComparator (written.openOutput running).files
      [.put 97#8 3#8, .put 97#8 1#8, .put 99#8 4#8, .put 120#8 5#8,
        .put 122#8 6#8, .put 122#8 2#8] :=
    Compaction.reads_of_perm (by decide +kernel) (by decide +kernel)
  exact .install rfl reads (by decide +kernel) (by decide +kernel)

end Gap

/-- Why no memtable is written while a manual compaction runs whose inputs leave gaps: the outputs come to cover
its file, and an acknowledged write is lost. -/
theorem compactMemTable_into_gap : ∃ db log imm opened after, Reaches bytewiseComparator Gap.options db log ∧
    db.imm = some imm ∧
    Step bytewiseComparator Gap.options (db.compactMemTable bytewiseComparator Gap.options imm) [] opened ∧
    Step bytewiseComparator Gap.options opened [] after ∧
    lookup bytewiseComparator log [109#8] = (.ok, some [1#8]) ∧
    after.get bytewiseComparator (searchTable bytewiseComparator) [109#8] db.lastSequence = (notFound, none) := by
  have runs : Gap.written.running = some Gap.running := by
    rw [Gap.written, compactMemTable]
    split <;> rfl
  exact ⟨Gap.waiting, _, _, _, _, Gap.waiting_reached, by decide +kernel, .openOutput runs, Gap.written_installs,
    by decide +kernel, by decide +kernel⟩

end Db

end WormholeFilters.LevelDb
