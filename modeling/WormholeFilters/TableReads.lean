import WormholeFilters.DbRefinement
import WormholeFilters.TableFilters

/-! Reads of a store through its table files, db/table_cache.cc. The file of some records is what `TableBuilder`
wrote for them. The opened tables that the cache keeps are left out: a table is opened for each read. -/
namespace WormholeFilters.LevelDb

open LittleEndian
open Env (Status)
open InternalKeyComparator (Near)
open Table (memoryFile memoryFile_accepts noPort noPort_lawful)

/-- Without a value where the filter of the table has none. -/
def TableCache.get (src : TableFile) (o : TableOptions) (verifyChecksums : Bool) (fileSize : Nat) (k : List Byte) :
    Option (Status × Option (List Byte × List Byte)) :=
  match Table.openTable src o fileSize with
  | .error s => some (s, none)
  | .ok t => Table.internalGet src verifyChecksums t k

/-- The bytes of the table with some records. -/
def tableBytes (port : Port) (o : TableOptions) (records : List Stored) : List Byte :=
  ((TableBuilder.addAll port o memoryFile [] (records.map Stored.entry)).finish port o memoryFile).file

structure TableOptions.Suits (user : Comparator) (port : Port) (o : TableOptions) : Prop where
  lawful : port.Lawful
  order : user.Lawful
  keeps : user.KeepsEqual
  comparator : o.comparator = internalKeyComparator user
  interval : 0 < o.blockRestartInterval
  name : ∀ name policy, o.filterPolicy = some (name, policy) → name.length < 2 ^ 31

/-- The file with the table of some records, which is not too large, and no block of it is in the cache. -/
structure TableFile.Of (port : Port) (o : TableOptions) (records : List Stored) (src : TableFile) : Prop where
  codecs : src.port = port
  reads : Table.Reads src (tableBytes port o records)
  cold : ∀ offset, src.cached offset = none
  bound : Table.sizeBound (records.map Stored.entry) < 2 ^ 32
  fileBound : (tableBytes port o records).length < 2 ^ 32

section Reads

variable {user : Comparator} {records : List Stored} {src : TableFile} {verifyChecksums : Bool}
  {t : Table} {port : Port} {o : TableOptions} {userKey : List Byte} {s : Nat} {result : Status × Option (List Byte × List Byte)}

theorem near_seekKey [Std.TransCmp user.compare] {r : Stored} (same : user.compare r.key.userKey userKey = .eq)
    (s : Nat) : Near user (seekKey userKey s) r.entry.1 := by
  rw [Near, extractUserKey_seekKey, Stored.extractUserKey_entry]
  exact Std.OrientedCmp.eq_symm same

theorem Table.Serves.getsFrom [Std.TransCmp user.compare]
    (serves : Table.Serves src verifyChecksums (Near user) t (tableBlocks port t.options records)
      (records.map Stored.entry))
    (compares : t.options.comparator = internalKeyComparator user)
    (matched : t.options.Shows user port records userKey s)
    (got : Table.internalGet src verifyChecksums t (seekKey userKey s) = some result) :
      GetsFrom user records userKey s result := by
  obtain ⟨status, reported⟩ := result
  obtain ⟨ok, first⟩ := serves.reports _ _ _ got
  rw [compares] at first
  refine ⟨ok, fun e found => ?_, fun r here same => ?_⟩
  · have here := first e found
    rw [List.getElem?_map, Option.map_eq_some_iff] at here
    obtain ⟨r, here, same⟩ := here
    exact ⟨r, here, same.symm⟩
  · have found := serves.finds (seekKey userKey s) r.entry (by rw [compares]; exact getElem?_entry here)
      (near_seekKey same s) (matched r (List.mem_of_getElem? here) same)
    rw [got] at found
    exact congrArg Prod.snd (Option.some.inj found)

theorem TableFile.Of.opens (isFile : src.Of port o records) (suits : o.Suits user port) (order : InOrder user records)
    (verifyChecksums : Bool) : ∃ t, Table.openTable src o (tableBytes port o records).length = .ok t ∧ t.options = o ∧
      Table.Serves src verifyChecksums (Near user) t (tableBlocks port o records) (records.map Stored.entry) := by
  have given : Table.Buildable port o (Near user) memoryFile id [] (records.map Stored.entry) :=
    { lawful := suits.lawful
      order := suits.comparator ▸ InternalKeyComparator.lawful suits.order suits.keeps
      shortens := suits.comparator ▸ InternalKeyComparator.shortens user
      separates := suits.comparator ▸ InternalKeyComparator.separates suits.order suits.keeps
      interval := suits.interval
      accepts := memoryFile_accepts
      new := rfl
      sorted := suits.comparator ▸ order
      bound := isFile.bound
      name := suits.name
      fileBound := isFile.fileBound }
  obtain ⟨-, indexed, -, opens⟩ := given.opens
  refine (opens src verifyChecksums isFile.codecs isFile.reads fun _ _ _ cached => ?_).2
  rw [isFile.cold] at cached
  cases cached

/-- A lookup that returns gives what the records of the file say. -/
theorem TableCache.get_getsFrom (suits : o.Suits user port) (isFile : src.Of port o records)
    (order : InOrder user records) (matched : o.Shows user port records userKey s)
    (got : TableCache.get src o verifyChecksums (tableBytes port o records).length (seekKey userKey s) = some result) :
    GetsFrom user records userKey s result := by
  have := suits.order.trans
  obtain ⟨t, opened, rfl, serves⟩ := isFile.opens suits order verifyChecksums
  rw [TableCache.get, opened] at got
  exact serves.getsFrom suits.comparator matched got

/-- A lookup returns where the filters have an answer. -/
theorem TableCache.get_isSome (suits : o.Suits user port) (isFile : src.Of port o records)
    (order : InOrder user records) {k : List Byte} (answers : Table.Answers o (tableBlocks port o records) k) :
    (TableCache.get src o verifyChecksums (tableBytes port o records).length k).isSome = true := by
  obtain ⟨t, opened, rfl, serves⟩ := isFile.opens suits order verifyChecksums
  rw [TableCache.get, opened]
  exact serves.returns k answers

theorem TableCache.get_eq_some_getD (suits : o.Suits user port) (isFile : src.Of port o records)
    (order : InOrder user records) {k : List Byte} (answers : Table.Answers o (tableBlocks port o records) k)
    (other : Status × Option (List Byte × List Byte)) :
    TableCache.get src o verifyChecksums (tableBytes port o records).length k =
      some ((TableCache.get src o verifyChecksums (tableBytes port o records).length k).getD other) := by
  rw [← Option.get_eq_getD (h := get_isSome suits isFile order answers), Option.some_get]

theorem TableFile.Of.few (isFile : src.Of port o records) : records.length < 2 ^ 31 := by
  have bound := isFile.bound
  rw [Table.sizeBound, List.map_map] at bound
  have each := List.card_nsmul_le_sum (records.map ((fun e => e.1.length + e.2.length + 39) ∘ Stored.entry)) 39
    (by simp only [List.mem_map]; rintro _ ⟨r, -, rfl⟩; exact Nat.le_add_left _ _)
  rw [List.length_map, smul_eq_mul] at each
  omega

variable [Std.TransCmp user.compare] {so : StoreOptions} {db : Db} {log : List Stored}
  {tableGet : List Stored → List Byte → Status × Option (List Byte × List Byte)}

/-- In every state that a store comes to, a read through its table files gives what the writes up to its
snapshot left, unless a filter hides a user key. -/
theorem Db.Reaches.get_through_tables (reached : Reaches user so db log) (small : db.lastSequence < kMaxSequenceNumber)
    (few : db.nextFileNumber < 2 ^ 31) (live : db.Live s) (suits : o.Suits user port)
    (files : List Stored → TableFile) (verifyChecksums : Bool)
    (isFile : ∀ level, ∀ f ∈ db.version.files level, (files (db.files f.number)).Of port o (db.files f.number))
    (matched : ∀ level, ∀ f ∈ db.version.files level, o.Shows user port (db.files f.number) userKey s)
    (got : ∀ level, ∀ f ∈ db.version.files level, TableCache.get (files (db.files f.number)) o verifyChecksums
      (tableBytes port o (db.files f.number)).length (seekKey userKey s) =
        some (tableGet (db.files f.number) (seekKey userKey s))) :
    db.get user tableGet userKey s = Db.lookup user (log.take s) userKey := by
  have inv := reached.inv small few
  refine inv.reads small live fun level f member => ?_
  exact TableCache.get_getsFrom suits (isFile level f member) (inv.kept.ordered.isFile level member).order
    (matched level f member) (got level f member)

variable {name : List Byte} {signedChar : Bool}

/-- With wormhole filters every lookup returns, and a read gives what the writes left if in each filter every
user key, at its turn, was stored already or had room. -/
theorem Db.Reaches.get_through_wormhole_filters [Std.LawfulEqCmp user.compare] (reached : Reaches user so db log)
    (small : db.lastSequence < kMaxSequenceNumber) (few : db.nextFileNumber < 2 ^ 31) (live : db.Live s)
    (suits : o.Suits user port) (files : List Stored → TableFile) (verifyChecksums : Bool)
    (isFile : ∀ level, ∀ f ∈ db.version.files level, (files (db.files f.number)).Of port o (db.files f.number))
    (policy : o.filterPolicy = some (name, internalFilterPolicy (wormholeFilterPolicy signedChar)))
    (fits : ∀ level, ∀ f ∈ db.version.files level, ∀ keys ∈ filterUserKeys port o (db.files f.number),
      Fits signedChar keys) (userKey : List Byte) :
    let tableGet := fun records k =>
      TableCache.get (files records) o verifyChecksums (tableBytes port o records).length k
    (∀ level, ∀ f ∈ db.version.files level, (tableGet (db.files f.number) (seekKey userKey s)).isSome = true) ∧
      db.get user (fun records k => (tableGet records k).getD (.ok, none)) userKey s =
        Db.lookup user (log.take s) userKey := by
  intro tableGet
  have inv := reached.inv small few
  have order level f (member : f ∈ db.version.files level) := (inv.kept.ordered.isFile level member).order
  have answers level f (member : f ∈ db.version.files level) :
      Table.Answers o (tableBlocks port o (db.files f.number)) (seekKey userKey s) :=
    TableOptions.answers_wormhole policy (isFile level f member).few _
  refine ⟨fun level f member => TableCache.get_isSome suits (isFile level f member) (order level f member)
    (answers level f member), inv.reads small live fun level f member => ?_⟩
  have shows : ∀ userKey, o.Shows user port (db.files f.number) userKey s :=
    (TableOptions.shows_wormhole_iff policy (isFile level f member).few s).mpr (fits level f member)
  exact TableCache.get_getsFrom suits (isFile level f member) (order level f member) (shows userKey)
    (TableCache.get_eq_some_getD suits (isFile level f member) (order level f member) (answers level f member) _)

end Reads

def TableFile.ofBytes (port : Port) (bytes : List Byte) : TableFile :=
  ⟨port, true, fun offset n => (.ok, some (Env.present bytes offset n)), fun _ => none⟩

namespace Filtered

def options : TableOptions := ⟨internalKeyComparator bytewiseComparator, 4096, 16, .none,
  some (wormholeFilterName, internalFilterPolicy (wormholeFilterPolicy true)), true⟩

def store : StoreOptions := ⟨2 ^ 21, fun _ => 0, fun entries => entries.length⟩

def values : List Stored := [.put 97#8 1#8, .put 98#8 2#8, .put 99#8 3#8]

def deleted : Stored := ⟨⟨[98#8], 4, .deletion⟩, [], by decide⟩

/-- Three user keys in a table, one of them deleted after a snapshot. -/
def db : Db :=
  let kept := { Db.new.write bytewiseComparator values with snapshots := [3] }
  (kept.makeRoomForWrite.compactMemTable bytewiseComparator store kept.mem).write bytewiseComparator [deleted]

def src (records : List Stored) : TableFile := .ofBytes noPort (tableBytes noPort options records)

theorem reached : Db.Reaches bytewiseComparator store db (values ++ [deleted]) := by
  have start : Db.Reaches bytewiseComparator store .new [] := .new
  have wrote := start.step (.write (Db.numbered_of_map (show values.map Stored.sequence = _ from rfl)))
  have kept := (wrote.step .getSnapshot).step (.makeRoom rfl)
  have flushed := kept.step (.compactMemTable rfl fun r impossible => by cases impossible)
  exact flushed.step (.write (Db.numbered_of_map (show [deleted].map Stored.sequence = _ from rfl)))

theorem files_eq {level : Nat} {f : FileMetaData} (member : f ∈ db.version.files level) :
    db.files f.number = values := by
  have inside : level < kNumLevels := (reached.inv (by decide) (by decide)).kept.levels level f member
  revert f
  revert level
  decide +kernel

theorem suits : options.Suits bytewiseComparator noPort :=
  ⟨noPort_lawful, BytewiseComparator.lawful, BytewiseComparator.keepsEqual, rfl, by decide, fun _ _ given => by
    cases given
    decide⟩

theorem isFile (level : Nat) (f : FileMetaData) (member : f ∈ db.version.files level) :
    (src (db.files f.number)).Of noPort options (db.files f.number) := by
  rw [files_eq member]
  exact ⟨rfl, fun _ _ _ => rfl, fun _ => rfl, by decide, by decide +kernel⟩

theorem fits (level : Nat) (f : FileMetaData) (member : f ∈ db.version.files level) :
    ∀ keys ∈ filterUserKeys noPort options (db.files f.number), Fits true keys := by
  rw [files_eq member]
  have keys : filterUserKeys noPort options values = [[[97#8], [98#8], [99#8]]] := by decide +kernel
  rw [keys, List.forall_mem_singleton]
  exact (wormhole_matched_iff_fits (by decide)).mp (by decide +kernel)

end Filtered

open Filtered in
/-- A value that was written to a table before its user key was deleted is read from there, through the filter. -/
theorem Db.Reaches.get_through_tables_snapshot :
    db.get bytewiseComparator (fun records k => (TableCache.get (src records) options true
      (tableBytes noPort options records).length k).getD (.ok, none)) [98#8] 3 = (.ok, some [1#8]) := by
  refine (reached.get_through_tables (s := 3) (by decide) (by decide) (Or.inr (by decide)) suits src true isFile
    ?_ ?_).trans (by decide)
  · intro level f member
    exact (TableOptions.shows_wormhole_iff rfl (isFile level f member).few 3).mpr (fits level f member) [98#8]
  · intro level f member
    have order := ((reached.inv (by decide) (by decide)).kept.ordered.isFile level member).order
    exact TableCache.get_eq_some_getD suits (isFile level f member) order
      (TableOptions.answers_wormhole rfl (isFile level f member).few _) (.ok, none)

open Filtered in
/-- The user key that was deleted is not found, another one is. -/
theorem Db.Reaches.get_through_wormhole_filters_deleted :
    let tableGet := fun records k => TableCache.get (src records) options true
      (tableBytes noPort options records).length k
    db.get bytewiseComparator (fun records k => (tableGet records k).getD (.ok, none)) [98#8] 4 = (notFound, none) ∧
      db.get bytewiseComparator (fun records k => (tableGet records k).getD (.ok, none)) [99#8] 4 =
      (.ok, some [1#8]) := by
  intro tableGet
  have reads := reached.get_through_wormhole_filters (s := 4) (by decide) (by decide) (Or.inl rfl) suits src true isFile
    rfl fits
  exact ⟨(reads [98#8]).2.trans (by decide), (reads [99#8]).2.trans (by decide)⟩

end WormholeFilters.LevelDb
