import WormholeFilters.Snapshots
import WormholeFilters.Table

/-! Reads through the levels of a version, db/version_set.cc. The statistics of a read are
left out. -/
namespace WormholeFilters.LevelDb

open LittleEndian
open Env (Status)
open Multiversion (Newest Unseen Above Any Answered)

structure FileMetaData where
  number : Nat
  fileSize : Nat
  smallest : List Byte
  largest : List Byte
  deriving DecidableEq, Repr

def kNumLevels : Nat := 7

structure Version where
  files : Nat → List FileMetaData

section Model

variable (user : Comparator)

def findFileLoop (files : List FileMetaData) (key : List Byte) : Nat → Nat → Nat → Nat
  | 0, _, right => right
  | fuel + 1, left, right =>
    if left < right then
      let mid := (left + right) % 2 ^ 32 / 2
      match files[mid]? with
      | none => right
      | some f =>
        if (internalKeyComparator user).compare f.largest key = .lt then findFileLoop files key fuel (mid + 1) right
        else findFileLoop files key fuel left mid
    else right

def findFile (files : List FileMetaData) (key : List Byte) : Nat :=
  findFileLoop user files key files.length 0 (files.length % 2 ^ 32)

/-- Without a user key the range starts before all keys. -/
def afterFile (userKey : Option (List Byte)) (f : FileMetaData) : Bool :=
  userKey.any fun k => user.compare k (extractUserKey f.largest) = .gt

/-- Without a user key the range ends behind all keys. -/
def beforeFile (userKey : Option (List Byte)) (f : FileMetaData) : Bool :=
  userKey.any fun k => user.compare k (extractUserKey f.smallest) = .lt

def someFileOverlapsRange (disjointSortedFiles : Bool) (files : List FileMetaData)
    (smallestUserKey largestUserKey : Option (List Byte)) : Bool :=
  if ¬ disjointSortedFiles then
    files.any fun f => !(afterFile user smallestUserKey f || beforeFile user largestUserKey f)
  else
    let index := match smallestUserKey with
      | none => 0
      | some k => findFile user files (seekKey k kMaxSequenceNumber)
    match files[index]? with
    | none => false
    | some f => !beforeFile user largestUserKey f

/-- Not greater in the order of `NewestFirst`. -/
def newestFirst (a b : FileMetaData) : Bool := b.number ≤ a.number

def overlappingNewest (files : List FileMetaData) (userKey : List Byte) : List FileMetaData :=
  (files.filter fun f => (user.compare userKey (extractUserKey f.smallest)).isGE &&
    (user.compare userKey (extractUserKey f.largest)).isLE).mergeSort newestFirst

def overlappingInLevel (files : List FileMetaData) (userKey internalKey : List Byte) : Option FileMetaData :=
  (files[findFile user files internalKey]?).filter fun f =>
    user.compare userKey (extractUserKey f.smallest) ≠ .lt

namespace Version

/-- The calls of the function that `ForEachOverlapping` is given, unless it returns false before. -/
def forEachOverlapping (v : Version) (userKey internalKey : List Byte) : List (Nat × FileMetaData) :=
  (overlappingNewest user (v.files 0) userKey).map (0, ·) ++
    (List.range' 1 (kNumLevels - 1)).flatMap fun level =>
      (overlappingInLevel user (v.files level) userKey internalKey).toList.map (level, ·)

def visit {σ : Type} (func : σ → Nat → FileMetaData → σ × Bool) : List (Nat × FileMetaData) → σ → σ
  | [], s => s
  | (level, f) :: rest, s =>
    match func s level f with
    | (s, true) => visit func rest s
    | (s, false) => s

end Version

/-- `kFound` comes with the value. -/
inductive SaverState where
  | notFound
  | found (value : List Byte)
  | deleted
  | corrupt
  deriving DecidableEq, Repr

def saveValue (userKey : List Byte) (state : SaverState) (ikey v : List Byte) : SaverState :=
  match parseInternalKey ikey with
  | none => .corrupt
  | some parsedKey =>
    if user.compare parsedKey.userKey userKey = .eq then
      match parsedKey.type with
      | .value => .found v
      | .deletion => .deleted
    else state

structure GetState where
  saver : SaverState
  s : Status
  found : Bool
  deriving DecidableEq, Repr

/-- The user key behind the message of a corruption is left out. -/
def matchFile (tableGet : FileMetaData → List Byte → Status × Option (List Byte × List Byte)) (userKey ikey : List Byte)
    (state : GetState) (_level : Nat) (f : FileMetaData) : GetState × Bool :=
  let (s, reported) := tableGet f ikey
  let saver := match reported with
    | some (k, v) => saveValue user userKey state.saver k v
    | none => state.saver
  if s ≠ .ok then (⟨saver, s, true⟩, false)
  else
    match saver with
    | .notFound => (⟨saver, s, state.found⟩, true)
    | .found _ => (⟨saver, s, true⟩, false)
    | .deleted => (⟨saver, s, state.found⟩, false)
    | .corrupt => (⟨saver, .corruption "corrupted key for ", true⟩, false)

def notFound : Status := .notFound "" 0

/-- The status, and the value if it was assigned. `tableGet` is `TableCache::Get`. -/
def Version.get (tableGet : FileMetaData → List Byte → Status × Option (List Byte × List Byte)) (v : Version)
    (userKey : List Byte) (sequence : Nat) : Status × Option (List Byte) :=
  let ikey := LookupKey.internalKey userKey sequence
  let state := visit (matchFile user tableGet userKey ikey) (v.forEachOverlapping user userKey ikey)
    ⟨.notFound, .ok, false⟩
  (if state.found then state.s else notFound, match state.saver with
    | .found value => some value
    | _ => none)

end Model

section FindFile

variable {user : Comparator} {files : List FileMetaData} {key : List Byte}

def byLargest (files : List FileMetaData) : List (List Byte × FileMetaData) := files.map fun f => (f.largest, f)

@[simp] theorem length_byLargest (files : List FileMetaData) : (byLargest files).length = files.length :=
  List.length_map _

theorem getElem?_byLargest {i : Nat} {f : FileMetaData} (found : files[i]? = some f) :
    (byLargest files)[i]? = some (f.largest, f) := by
  simp [byLargest, found]

theorem findFileLoop_eq [Std.TransCmp user.compare]
    (sorted : Cursors.Sorted (internalKeyComparator user).compare (byLargest files)) (few : files.length < 2 ^ 31)
    {fuel left right : Nat} (enough : right ≤ left + fuel) (inside : right ≤ files.length)
    (low : left ≤ Cursors.lowerBound (internalKeyComparator user).compare (byLargest files) key)
    (high : Cursors.lowerBound (internalKeyComparator user).compare (byLargest files) key ≤ right) :
    findFileLoop user files key fuel left right =
      Cursors.lowerBound (internalKeyComparator user).compare (byLargest files) key := by
  have trans : Std.TransCmp (internalKeyComparator user).compare := InternalKeyComparator.transCmp inferInstance
  induction fuel generalizing left right with
  | zero =>
    simp only [findFileLoop]
    omega
  | succ fuel ih =>
    simp only [findFileLoop]
    split
    · next more =>
      have mid : (left + right) % 2 ^ 32 / 2 = (left + right) / 2 := by omega
      have present : (left + right) / 2 < files.length := by omega
      have found := List.getElem?_eq_getElem present
      have position : (left + right) / 2 < Cursors.lowerBound (internalKeyComparator user).compare
          (byLargest files) key ↔ _ :=
        sorted.lt_lowerBound_iff (getElem?_byLargest found)
      simp only [mid, found]
      split
      · next less =>
        have := position.mpr less
        exact ih (by omega) inside (by omega) high
      · next notLess =>
        have := mt position.mp notLess
        exact ih (by omega) (by omega) low (by omega)
    · omega

/-- The first file whose largest key is not below the key. -/
theorem findFile_eq [Std.TransCmp user.compare]
    (sorted : Cursors.Sorted (internalKeyComparator user).compare (byLargest files)) (few : files.length < 2 ^ 31)
    (key : List Byte) : findFile user files key =
      Cursors.lowerBound (internalKeyComparator user).compare (byLargest files) key := by
  have bound := Cursors.lowerBound_le (internalKeyComparator user).compare (byLargest files) key
  rw [length_byLargest] at bound
  have whole : files.length % 2 ^ 32 = files.length := Nat.mod_eq_of_lt (by omega)
  rw [findFile, whole]
  exact findFileLoop_eq sorted few (by omega) (Nat.le_refl _) (Nat.zero_le _) bound

end FindFile

structure FileOf (user : Comparator) (f : FileMetaData) (records : List Stored) : Prop where
  order : InOrder user records
  smallest : ∃ r, records.head? = some r ∧ f.smallest = r.entry.1
  largest : ∃ r, records.getLast? = some r ∧ f.largest = r.entry.1

def recordsOf (recs : Nat → List Stored) (files : List FileMetaData) : List Stored :=
  files.flatMap fun f => recs f.number

structure SortedLevel (user : Comparator) (recs : Nat → List Stored) (files : List FileMetaData) : Prop where
  file : ∀ f ∈ files, FileOf user f (recs f.number)
  apart : files.Pairwise fun f g => (internalKeyComparator user).compare f.largest g.smallest = .lt
  few : files.length < 2 ^ 31

/-- What `TableCache::Get` returns for a file with these records: the first one not below the key sought, unless a
filter excludes it, and certainly if it is of the user key. -/
structure GetsFrom (user : Comparator) (records : List Stored) (userKey : List Byte) (sequence : Nat)
    (result : Status × Option (List Byte × List Byte)) : Prop where
  ok : result.1 = .ok
  reports : ∀ e, result.2 = some e → ∃ r, records[Cursors.lowerBound (internalKeyComparator user).compare
    (records.map Stored.entry) (seekKey userKey sequence)]? = some r ∧ e = r.entry
  finds : ∀ r, records[Cursors.lowerBound (internalKeyComparator user).compare
    (records.map Stored.entry) (seekKey userKey sequence)]? = some r → user.compare r.key.userKey userKey = .eq →
    result.2 = some r.entry

def searchTable (user : Comparator) (records : List Stored) (key : List Byte) :
    Status × Option (List Byte × List Byte) :=
  (.ok, (records.map Stored.entry)[Cursors.lowerBound (internalKeyComparator user).compare
  (records.map Stored.entry) key]?)

theorem searchTable_getsFrom (user : Comparator) (records : List Stored) (userKey : List Byte) (s : Nat) :
    GetsFrom user records userKey s (searchTable user records (seekKey userKey s)) where
  ok := rfl
  reports e found := by
    rw [searchTable, List.getElem?_map, Option.map_eq_some_iff] at found
    obtain ⟨r, here, same⟩ := found
    exact ⟨r, here, same.symm⟩
  finds r here _ := getElem?_entry here

def Stored.endState (r : Stored) : GetState :=
  match r.key.type with
  | .value => ⟨.found r.value, .ok, true⟩
  | .deletion => ⟨.deleted, .ok, false⟩

/-- The answer to a read that comes to this record. -/
def Stored.answer (r : Stored) : Status × Option (List Byte) :=
  match r.key.type with
  | .value => (.ok, some r.value)
  | .deletion => (notFound, none)

section Get

variable {user : Comparator} [Std.TransCmp user.compare] {recs : Nat → List Stored} {files : List FileMetaData}
  {f g : FileMetaData} {records : List Stored} {userKey : List Byte} {sequence : Nat} {r r' : Stored}
  {tableGet : FileMetaData → List Byte → Status × Option (List Byte × List Byte)}

theorem FileOf.smallest_le (file : FileOf user f records) (member : r ∈ records) :
    ((internalKeyComparator user).compare f.smallest r.entry.1).isLE := by
  have trans : Std.TransCmp (internalKeyComparator user).compare := InternalKeyComparator.transCmp inferInstance
  obtain ⟨first, head, same⟩ := file.smallest
  obtain ⟨rest, rfl⟩ := List.head?_eq_some_iff.mp head
  rw [same]
  rcases List.mem_cons.mp member with rfl | later
  · exact Std.ReflCmp.isLE_rfl
  · have order := List.pairwise_map.mp file.order
    exact Ordering.isLE_of_eq_lt ((List.pairwise_cons.mp order).1 r later)

theorem FileOf.le_largest (file : FileOf user f records) (member : r ∈ records) :
    ((internalKeyComparator user).compare r.entry.1 f.largest).isLE := by
  have trans : Std.TransCmp (internalKeyComparator user).compare := InternalKeyComparator.transCmp inferInstance
  obtain ⟨last, tail, same⟩ := file.largest
  rw [same]
  exact Cursors.Sorted.isLE_last file.order (by rw [List.getLast?_map, tail]; rfl) (List.mem_map_of_mem member)

theorem SortedLevel.inOrder (level : SortedLevel user recs files) : InOrder user (recordsOf recs files) := by
  have trans : Std.TransCmp (internalKeyComparator user).compare := InternalKeyComparator.transCmp inferInstance
  refine List.pairwise_map.mpr (List.pairwise_flatMap.mpr ⟨fun f member => ?_, ?_⟩)
  · exact List.pairwise_map.mp (level.file f member).order
  · refine level.apart.imp_of_mem fun {f g} first second less r member r' member' => ?_
    have low := (level.file f first).le_largest member
    have high := (level.file g second).smallest_le member'
    exact trans.lt_of_lt_of_isLE (trans.lt_of_isLE_of_lt low less) high

theorem SortedLevel.byLargest_sorted (level : SortedLevel user recs files) :
    Cursors.Sorted (internalKeyComparator user).compare (byLargest files) := by
  have trans : Std.TransCmp (internalKeyComparator user).compare := InternalKeyComparator.transCmp inferInstance
  refine List.pairwise_map.mpr (level.apart.imp_of_mem fun {f g} _ second less => ?_)
  obtain ⟨last, tail, same⟩ := (level.file g second).largest
  have le := (level.file g second).smallest_le (List.mem_of_getLast? tail)
  rw [← same] at le
  exact trans.lt_of_lt_of_isLE less le

theorem SortedLevel.fenced (level : SortedLevel user recs files) :
    Cursors.Fenced (internalKeyComparator user).compare (files.map FileMetaData.largest)
      (files.map fun f => (recs f.number).map Stored.entry) := by
  have trans : Std.TransCmp (internalKeyComparator user).compare := InternalKeyComparator.transCmp inferInstance
  refine ⟨by simp, fun {j k block e} fence found member => ?_, fun {i j k block e} fence found before member => ?_⟩
  · rw [List.getElem?_map, Option.map_eq_some_iff] at fence found
    obtain ⟨f, here, rfl⟩ := fence
    obtain ⟨g, same, rfl⟩ := found
    obtain rfl : f = g := Option.some.inj (here.symm.trans same)
    obtain ⟨r, present, rfl⟩ := List.mem_map.mp member
    exact (level.file f (List.mem_of_getElem? here)).le_largest present
  · rw [List.getElem?_map, Option.map_eq_some_iff] at fence found
    obtain ⟨f, here, rfl⟩ := fence
    obtain ⟨g, there, rfl⟩ := found
    obtain ⟨r, present, rfl⟩ := List.mem_map.mp member
    obtain ⟨inside, rfl⟩ := List.getElem?_eq_some_iff.mp here
    obtain ⟨inside', rfl⟩ := List.getElem?_eq_some_iff.mp there
    have less := List.pairwise_iff_getElem.mp level.apart i j inside inside' before
    exact trans.lt_of_lt_of_isLE less ((level.file _ (List.getElem_mem inside')).smallest_le present)

/-- One file of the search. -/
theorem GetsFrom.matchFile (gets : GetsFrom user records userKey sequence (tableGet f (seekKey userKey sequence)))
    (order : InOrder user records) (small : sequence ≤ kMaxSequenceNumber) (level : Nat) :
    (∃ r, records[Cursors.lowerBound (internalKeyComparator user).compare (records.map Stored.entry)
          (seekKey userKey sequence)]? = some r ∧
        Newest Stored.sequence (Of user userKey records) sequence r ∧
        LevelDb.matchFile user tableGet userKey (seekKey userKey sequence) ⟨.notFound, .ok, false⟩ level f =
          (r.endState, false)) ∨
      Unseen Stored.sequence (Of user userKey records) sequence ∧
        LevelDb.matchFile user tableGet userKey (seekKey userKey sequence) ⟨.notFound, .ok, false⟩ level f =
          (⟨.notFound, .ok, false⟩, true) := by
  have ok := gets.ok
  rcases order.seek small userKey with ⟨r, here, newest⟩ | ⟨unseen, other⟩
  · refine Or.inl ⟨r, here, newest, ?_⟩
    have reported := gets.finds r here newest.mem.2
    have same := newest.mem.2
    simp only [LevelDb.matchFile, ok, reported, saveValue, r.parse_entry, same, Stored.endState]
    cases r.key.type <;> simp [Stored.entry]
  · refine Or.inr ⟨unseen, ?_⟩
    cases reported : (tableGet f (seekKey userKey sequence)).2 with
    | none => simp [LevelDb.matchFile, ok, reported]
    | some e =>
      obtain ⟨r, here, rfl⟩ := gets.reports e reported
      simp [LevelDb.matchFile, ok, reported, saveValue, r.parse_entry, other r here]

theorem map_entry_recordsOf (recs : Nat → List Stored) (files : List FileMetaData) :
    (recordsOf recs files).map Stored.entry = (files.map fun f => (recs f.number).map Stored.entry).flatten := by
  rw [recordsOf, List.map_flatMap, List.flatMap_def]

/-- In a sorted level the record sought is in the one file that is searched. -/
theorem SortedLevel.overlapping (level : SortedLevel user recs files)
    (here : (recordsOf recs files)[Cursors.lowerBound (internalKeyComparator user).compare
      ((recordsOf recs files).map Stored.entry) (seekKey userKey sequence)]? = some r)
    (same : user.compare r.key.userKey userKey = .eq) :
    ∃ f, overlappingInLevel user files userKey (seekKey userKey sequence) = some f ∧ f ∈ files ∧
      (recs f.number)[Cursors.lowerBound (internalKeyComparator user).compare ((recs f.number).map Stored.entry)
        (seekKey userKey sequence)]? = some r := by
  have trans : Std.TransCmp (internalKeyComparator user).compare := InternalKeyComparator.transCmp inferInstance
  have entry := getElem?_entry here
  have place := findFile_eq level.byLargest_sorted level.few (seekKey userKey sequence)
  rw [map_entry_recordsOf] at entry
  rcases Nat.lt_or_ge (findFile user files (seekKey userKey sequence)) files.length with inside | outside
  · have found := List.getElem?_eq_getElem inside
    have block : (files.map fun f => (recs f.number).map Stored.entry)[findFile user files
        (seekKey userKey sequence)]? =
          some ((recs (files[findFile user files (seekKey userKey sequence)]).number).map Stored.entry) := by
      rw [List.getElem?_map, found]
      rfl
    have member := List.getElem_mem inside
    generalize files[findFile user files (seekKey userKey sequence)] = f at found block member
    have file := level.file f member
    have above : (internalKeyComparator user).compare f.largest (seekKey userKey sequence) ≠ .lt := by
      rw [place] at found
      exact Cursors.not_lt_at_lowerBound (getElem?_byLargest found)
    have whole := level.fenced.lowerBound_flatten (fun i fence isFence => by
      rw [List.getElem?_map, Option.map_eq_some_iff] at isFence
      obtain ⟨g, there, rfl⟩ := isFence
      refine ⟨fun before => ?_, fun equal => ?_⟩
      · rw [place] at before
        have less := Cursors.lt_of_lt_lowerBound (getElem?_byLargest there) before
        exact less
      · subst equal
        rw [Option.some.inj (there.symm.trans found)]
        exact above) block
    have within : Cursors.lowerBound (internalKeyComparator user).compare ((recs f.number).map Stored.entry)
        (seekKey userKey sequence) < ((recs f.number).map Stored.entry).length := by
      obtain ⟨last, tail, isLast⟩ := file.largest
      obtain ⟨i, at_i⟩ := List.mem_iff_getElem?.mp (List.mem_of_getLast? tail)
      have reached := mt (Cursors.lt_of_lt_lowerBound (getElem?_entry at_i)) (isLast ▸ above)
      have early := (List.getElem?_eq_some_iff.mp (getElem?_entry at_i)).1
      exact Nat.lt_of_le_of_lt (Nat.not_lt.mp reached) early
    rw [whole, Cursors.getElem?_flatten block within, List.getElem?_map, Option.map_eq_some_iff] at entry
    obtain ⟨r', present, equal⟩ := entry
    obtain rfl := Stored.entry_injective equal
    refine ⟨f, ?_, member, present⟩
    have low := InternalKeyComparator.users_isLE (file.smallest_le (List.mem_of_getElem? present))
    rw [Stored.extractUserKey_entry] at low
    have low' := Std.TransCmp.isLE_trans low (Ordering.isLE_of_eq_eq same)
    have kept : user.compare userKey (extractUserKey f.smallest) ≠ .lt := fun less =>
      absurd low' (by rw [Std.OrientedCmp.gt_of_lt less]; decide)
    simp [overlappingInLevel, found, kept]
  · have behind := level.fenced.lowerBound_flatten_of_all_lt (fun fence isFence => by
      obtain ⟨g, member, rfl⟩ := List.mem_map.mp isFence
      obtain ⟨i, there⟩ := List.mem_iff_getElem?.mp member
      have early := (List.getElem?_eq_some_iff.mp there).1
      rw [place] at outside
      have less := Cursors.lt_of_lt_lowerBound (getElem?_byLargest there) (Nat.lt_of_lt_of_le early outside)
      exact less)
    rw [behind, List.getElem?_eq_none (Nat.le_refl _)] at entry
    cases entry

/-- One sorted level of the search. -/
theorem SortedLevel.matchLevel (level : SortedLevel user recs files) (small : sequence ≤ kMaxSequenceNumber) (n : Nat)
    (gets : ∀ f ∈ files, GetsFrom user (recs f.number) userKey sequence (tableGet f (seekKey userKey sequence))) :
    match overlappingInLevel user files userKey (seekKey userKey sequence) with
    | none => Unseen Stored.sequence (Of user userKey (recordsOf recs files)) sequence
    | some f =>
      (∃ r, Newest Stored.sequence (Of user userKey (recordsOf recs files)) sequence r ∧
        matchFile user tableGet userKey (seekKey userKey sequence) ⟨.notFound, .ok, false⟩ n f = (r.endState, false)) ∨
      Unseen Stored.sequence (Of user userKey (recordsOf recs files)) sequence ∧
        matchFile user tableGet userKey (seekKey userKey sequence) ⟨.notFound, .ok, false⟩ n f =
          (⟨.notFound, .ok, false⟩, true) := by
  rcases level.inOrder.seek small userKey with ⟨r, here, newest⟩ | ⟨unseen, _⟩
  · obtain ⟨f, overlaps, member, present⟩ := level.overlapping here newest.mem.2
    rw [overlaps]
    refine Or.inl ⟨r, newest, ?_⟩
    rcases (gets f member).matchFile (level.file f member).order small n with ⟨r', here', _, result⟩ | ⟨unseen, _⟩
    · rw [Option.some.inj (present.symm.trans here')]
      exact result
    · exact absurd newest.visible (Nat.not_le.mpr (unseen r ⟨List.mem_of_getElem? present, newest.mem.2⟩))
  · cases overlaps : overlappingInLevel user files userKey (seekKey userKey sequence) with
    | none => exact unseen
    | some f =>
      have member : f ∈ files := List.mem_of_getElem? (Option.filter_eq_some_iff.mp overlaps).1
      have part : ∀ r, Of user userKey (recs f.number) r → Of user userKey (recordsOf recs files) r :=
        fun r isOf => ⟨List.mem_flatMap.mpr ⟨f, member, isOf.1⟩, isOf.2⟩
      rcases (gets f member).matchFile (level.file f member).order small n with ⟨r, _, newest, _⟩ | ⟨_, result⟩
      · exact absurd (unseen.mono part) newest.seen
      · exact Or.inr ⟨unseen, result⟩

end Get

section Visit

variable {σ ρ : Type} {seq : ρ → Nat} {sequence : Nat} {func : σ → Nat → FileMetaData → σ × Bool} {start : σ}
  {endState : ρ → σ}

/-- A search through layers stops at the first in which something is seen, and that is the newest record of all. -/
theorem Version.visit_eq {items : List ((Nat × FileMetaData) × (ρ → Prop))}
    (each : ∀ i ∈ items, (∃ r, Newest seq i.2 sequence r ∧ func start i.1.1 i.1.2 = (endState r, false)) ∨
      Unseen seq i.2 sequence ∧ func start i.1.1 i.1.2 = (start, true))
    (above : (items.map Prod.snd).Pairwise (Above seq)) :
    (∃ r, Newest seq (Any (items.map Prod.snd)) sequence r ∧ visit func (items.map Prod.fst) start = endState r) ∨
      Unseen seq (Any (items.map Prod.snd)) sequence ∧ visit func (items.map Prod.fst) start = start := by
  induction items with
  | nil => exact Or.inr ⟨by simp [Unseen, Any], rfl⟩
  | cons i items ih =>
    obtain ⟨first, rest⟩ := List.forall_mem_cons.mp each
    rcases first with ⟨r, newest, result⟩ | ⟨unseen, result⟩
    · exact Or.inl ⟨r, newest.any above, by simp [visit, result]⟩
    · have whole := Multiversion.any_cons i.2 (items.map Prod.snd)
      rcases ih rest (List.pairwise_cons.mp above).2 with ⟨r, newest, result'⟩ | ⟨unseen', result'⟩
      · exact Or.inl ⟨r, newest.below unseen whole, by simp [visit, result, result']⟩
      · refine Or.inr ⟨fun r member => ?_, by simp [visit, result, result']⟩
        exact ((whole r).mp member).elim (unseen r) (unseen' r)

end Visit

/-- Of a user key in both, the records of `A` are newer. -/
def Newer (user : Comparator) (A B : List Stored) : Prop :=
  ∀ r ∈ A, ∀ r' ∈ B, user.compare r.key.userKey r'.key.userKey = .eq → r'.sequence < r.sequence

instance (user : Comparator) (A B : List Stored) : Decidable (Newer user A B) :=
  inferInstanceAs (Decidable (∀ r ∈ A, ∀ r' ∈ B, _ → _))

/-- A read comes to a file in level `i` before it comes to one in level `j`. -/
def Precedes (i : Nat) (f : FileMetaData) (j : Nat) (g : FileMetaData) :
    Prop := i < j ∨ i = 0 ∧ j = 0 ∧ g.number < f.number

instance (i : Nat) (f : FileMetaData) (j : Nat) (g : FileMetaData) : Decidable (Precedes i f j g) :=
  inferInstanceAs (Decidable (_ ∨ _))

/-- The order of the records in a version: newer ones are in newer files of level 0 and in levels with smaller
numbers. `recs` are the records of a file. -/
structure Version.Ordered (user : Comparator) (recs : Nat → List Stored) (v : Version) : Prop where
  file : ∀ f ∈ v.files 0, FileOf user f (recs f.number)
  numbers : (v.files 0).Pairwise fun f g => f.number ≠ g.number
  sorted : ∀ level, 0 < level → SortedLevel user recs (v.files level)
  order : ∀ {i j f g}, f ∈ v.files i → g ∈ v.files j → Precedes i f j g → Newer user (recs f.number) (recs g.number)

def Version.records (recs : Nat → List Stored) (v : Version) : List Stored :=
  (List.range kNumLevels).flatMap fun level => recordsOf recs (v.files level)

theorem mergeSort_newestFirst {files : List FileMetaData} (numbers : files.Pairwise fun f g => f.number ≠ g.number) :
    (files.mergeSort newestFirst).Pairwise fun f g => g.number < f.number := by
  have sorted : (files.mergeSort newestFirst).Pairwise fun f g => newestFirst f g = true :=
    List.pairwise_mergeSort (by simp [newestFirst]; omega) (by simp [newestFirst]; omega) files
  have distinct : (files.mergeSort newestFirst).Pairwise fun f g => f.number ≠ g.number :=
    ((List.mergeSort_perm files newestFirst).pairwise_iff Ne.symm).mpr numbers
  refine (sorted.and distinct).imp fun {f g} ⟨le, ne⟩ => ?_
  have := of_decide_eq_true le
  omega

section Read

variable {user : Comparator} {recs : Nat → List Stored} {v : Version} {userKey : List Byte}
  {sequence : Nat} {tableGet : FileMetaData → List Byte → Status × Option (List Byte × List Byte)}

theorem Version.Ordered.isFile (ordered : v.Ordered user recs) (level : Nat) {f : FileMetaData}
    (member : f ∈ v.files level) :
    FileOf user f (recs f.number) := by
  rcases Nat.eq_zero_or_pos level with rfl | positive
  · exact ordered.file f member
  · exact (ordered.sorted level positive).file f member

theorem Version.Ordered.above (ordered : v.Ordered user recs) {i j : Nat} (before : i < j) :
    Newer user (recordsOf recs (v.files i)) (recordsOf recs (v.files j)) := by
  intro r member r' member'
  obtain ⟨f, inLevel, present⟩ := List.mem_flatMap.mp member
  obtain ⟨g, inLevel', present'⟩ := List.mem_flatMap.mp member'
  exact ordered.order inLevel inLevel' (Or.inl before) r present r' present'

theorem mem_overlappingNewest {files : List FileMetaData} {f : FileMetaData} :
    f ∈ overlappingNewest user files userKey ↔
    f ∈ files ∧ (user.compare userKey (extractUserKey f.smallest)).isGE ∧
      (user.compare userKey (extractUserKey f.largest)).isLE := by
  simp [overlappingNewest, List.mem_mergeSort]

/-- The files searched, each with the records that the search decides about. -/
def Version.searched (user : Comparator) (recs : Nat → List Stored) (v : Version) (userKey internalKey : List Byte) :
    List ((Nat × FileMetaData) × (Stored → Prop)) :=
  (overlappingNewest user (v.files 0) userKey).map (fun f => ((0, f), Of user userKey (recs f.number))) ++
    (List.range' 1 (kNumLevels - 1)).flatMap fun level =>
      (overlappingInLevel user (v.files level) userKey internalKey).toList.map fun f =>
        ((level, f), Of user userKey (recordsOf recs (v.files level)))

theorem Version.map_fst_searched (v : Version) (internalKey : List Byte) :
    (v.searched user recs userKey internalKey).map Prod.fst = v.forEachOverlapping user userKey internalKey := by
  simp [searched, forEachOverlapping, List.map_flatMap, Function.comp_def]

theorem Version.mem_searched {internalKey : List Byte} {A : Stored → Prop} :
    A ∈ (v.searched user recs userKey internalKey).map Prod.snd ↔
      (∃ f ∈ overlappingNewest user (v.files 0) userKey, A = Of user userKey (recs f.number)) ∨
      ∃ level, 0 < level ∧ level < kNumLevels ∧
        (overlappingInLevel user (v.files level) userKey internalKey).isSome ∧
        A = Of user userKey (recordsOf recs (v.files level)) := by
  simp only [searched, List.map_append, List.mem_append, List.map_map, List.mem_map, List.map_flatMap, List.mem_flatMap,
    List.mem_range'_1, Function.comp_apply, Option.isSome_iff_exists, Option.mem_toList, eq_comm (b := A)]
  refine or_congr Iff.rfl (exists_congr fun level => ?_)
  simp only [kNumLevels, exists_and_right, Nat.one_le_iff_ne_zero, Nat.pos_iff_ne_zero, and_assoc, Nat.reduceSub,
    Nat.reduceAdd]

/-- The records searched are of the version. -/
theorem Version.of_searched (internalKey : List Byte) (r : Stored)
    (member : Any ((v.searched user recs userKey internalKey).map Prod.snd) r) :
    Of user userKey (v.records recs) r := by
  obtain ⟨A, inSearch, holds⟩ := member
  rcases mem_searched.mp inSearch with ⟨f, overlaps, rfl⟩ | ⟨level, _, bound, _, rfl⟩
  · have present : r ∈ recordsOf recs (v.files 0) :=
      List.mem_flatMap.mpr ⟨f, (mem_overlappingNewest.mp overlaps).1, holds.1⟩
    exact ⟨List.mem_flatMap.mpr ⟨0, by decide, present⟩, holds.2⟩
  · exact ⟨List.mem_flatMap.mpr ⟨level, List.mem_range.mpr bound, holds.1⟩, holds.2⟩

variable [Std.TransCmp user.compare]

theorem same_user {a b : Stored} (first : user.compare a.key.userKey userKey = .eq)
    (second : user.compare b.key.userKey userKey = .eq) : user.compare a.key.userKey b.key.userKey = .eq :=
  Std.TransCmp.eq_trans first (Std.OrientedCmp.eq_symm second)

/-- Newer records are searched first. -/
theorem Version.Ordered.searched_above (ordered : Ordered user recs v) (internalKey : List Byte) :
    ((v.searched user recs userKey internalKey).map Prod.snd).Pairwise (Above Stored.sequence) := by
  rw [searched, List.map_append, List.pairwise_append, List.map_map]
  refine ⟨?_, ?_, ?_⟩
  · refine List.pairwise_map.mpr ?_
    refine List.Pairwise.imp_of_mem ?_ (mergeSort_newestFirst (ordered.numbers.filter _))
    intro f g first second newer r r' isOf isOf'
    have inFirst := (mem_overlappingNewest.mp first).1
    have inSecond := (mem_overlappingNewest.mp second).1
    exact ordered.order inFirst inSecond (Or.inr ⟨rfl, rfl, newer⟩) r isOf.1 r' isOf'.1 (same_user isOf.2 isOf'.2)
  · rw [List.map_flatMap, List.pairwise_flatMap]
    refine ⟨fun level _ => ?_, ?_⟩
    · cases overlappingInLevel user (v.files level) userKey internalKey <;> simp
    · refine (List.pairwise_lt_range').imp fun {i j} before A first B second r r' isOf isOf' => ?_
      simp only [List.map_map, List.mem_map, Function.comp_apply] at first second
      obtain ⟨_, _, rfl⟩ := first
      obtain ⟨_, _, rfl⟩ := second
      exact ordered.above before r isOf.1 r' isOf'.1 (same_user isOf.2 isOf'.2)
  · intro A first B second r r' isOf isOf'
    obtain ⟨f, member, rfl⟩ := List.mem_map.mp first
    simp only [List.map_flatMap, List.mem_flatMap, List.map_map, List.mem_map, List.mem_range'_1,
      Function.comp_apply] at second
    obtain ⟨level, inside, _, _, rfl⟩ := second
    have present : r ∈ recordsOf recs (v.files 0) :=
      List.mem_flatMap.mpr ⟨f, (mem_overlappingNewest.mp member).1, isOf.1⟩
    exact ordered.above (by omega) r present r' isOf'.1 (same_user isOf.2 isOf'.2)

/-- The records left out of the search are not seen. -/
theorem Version.Ordered.searched_all (ordered : Ordered user recs v) (small : sequence ≤ kMaxSequenceNumber)
    (gets : ∀ level, ∀ f ∈ v.files level, GetsFrom user (recs f.number) userKey sequence
      (tableGet f (seekKey userKey sequence))) (r : Stored) (isOf : Of user userKey (v.records recs) r) :
    Any ((v.searched user recs userKey (seekKey userKey sequence)).map Prod.snd) r ∨ sequence < r.sequence := by
  obtain ⟨member, same⟩ := isOf
  obtain ⟨level, bound, present⟩ := List.mem_flatMap.mp member
  rcases Nat.eq_zero_or_pos level with rfl | positive
  · -- a file of level 0 with a record of the user key has it between its smallest and largest ones
    obtain ⟨f, inLevel, inFile⟩ := List.mem_flatMap.mp present
    have low := InternalKeyComparator.users_isLE ((ordered.file f inLevel).smallest_le inFile)
    have high := InternalKeyComparator.users_isLE ((ordered.file f inLevel).le_largest inFile)
    rw [Stored.extractUserKey_entry] at low high
    have low' := Std.TransCmp.isLE_trans low (Ordering.isLE_of_eq_eq same)
    have high' := Std.TransCmp.isLE_trans (Ordering.isLE_of_eq_eq (Std.OrientedCmp.eq_symm same)) high
    have overlaps : f ∈ overlappingNewest user (v.files 0) userKey :=
      mem_overlappingNewest.mpr ⟨inLevel, Std.OrientedCmp.isGE_iff_isLE.mpr low', high'⟩
    exact Or.inl ⟨_, mem_searched.mpr (Or.inl ⟨f, overlaps, rfl⟩), ⟨inFile, same⟩⟩
  · have searchLevel := (ordered.sorted level positive).matchLevel small level (gets level)
    cases overlaps : overlappingInLevel user (v.files level) userKey (seekKey userKey sequence) with
    | none =>
      rw [overlaps] at searchLevel
      exact Or.inr (searchLevel r ⟨present, same⟩)
    | some f =>
      refine Or.inl ⟨Of user userKey (recordsOf recs (v.files level)), mem_searched.mpr (Or.inr ?_), present, same⟩
      exact ⟨level, positive, List.mem_range.mp bound, Option.isSome_iff_exists.mpr ⟨f, overlaps⟩, rfl⟩

variable (tableGet) in
theorem Version.Ordered.get (ordered : Ordered user recs v) (small : sequence ≤ kMaxSequenceNumber)
    (gets : ∀ level, ∀ f ∈ v.files level, GetsFrom user (recs f.number) userKey sequence
      (tableGet f (seekKey userKey sequence))) :
    Answered Stored.sequence Stored.answer (notFound, none) (Of user userKey (v.records recs)) sequence
      (v.get user tableGet userKey sequence) := by
  have each : ∀ i ∈ v.searched user recs userKey (seekKey userKey sequence),
      (∃ r, Newest Stored.sequence i.2 sequence r ∧ matchFile user tableGet userKey (seekKey userKey sequence)
        ⟨.notFound, .ok, false⟩ i.1.1 i.1.2 = (r.endState, false)) ∨
      Unseen Stored.sequence i.2 sequence ∧ matchFile user tableGet userKey (seekKey userKey sequence)
        ⟨.notFound, .ok, false⟩ i.1.1 i.1.2 = (⟨.notFound, .ok, false⟩, true) := by
    intro i member
    rcases List.mem_append.mp member with newest | levels
    · obtain ⟨f, overlaps, rfl⟩ := List.mem_map.mp newest
      have inLevel := (mem_overlappingNewest.mp overlaps).1
      rcases (gets 0 f inLevel).matchFile (ordered.file f inLevel).order small 0 with ⟨r, _, newest, result⟩ | unseen
      · exact Or.inl ⟨r, newest, result⟩
      · exact Or.inr unseen
    · obtain ⟨level, bound, member⟩ := List.mem_flatMap.mp levels
      obtain ⟨f, overlaps, rfl⟩ := List.mem_map.mp member
      have positive := (List.mem_range'_1.mp bound).1
      have searchLevel := (ordered.sorted level positive).matchLevel small level (gets level)
      rwa [Option.mem_toList.mp overlaps] at searchLevel
  have result := visit_eq each (ordered.searched_above (seekKey userKey sequence))
  have rest := ordered.searched_all small gets
  rw [map_fst_searched] at result
  rcases result with ⟨r, newest, result⟩ | ⟨unseen, result⟩
  · refine Or.inl ⟨r, newest.extend (of_searched _) rest, ?_⟩
    simp only [Version.get, internalKey_eq_seekKey, result, Stored.endState, Stored.answer]
    cases r.key.type <;> rfl
  · refine Or.inr ⟨unseen.extend rest, ?_⟩
    simp [Version.get, internalKey_eq_seekKey, result]

end Read

def Version.single (level : Nat) (f : FileMetaData) : Version := ⟨fun i => if i = level then [f] else []⟩

theorem Version.mem_single {level i : Nat} {f g : FileMetaData} : g ∈ (single level f).files i ↔ i = level ∧ g = f := by
  simp only [single]
  split <;> simp_all

theorem Version.single_ordered {user : Comparator} {recs : Nat → List Stored} {level : Nat} {f : FileMetaData}
    (file : FileOf user f (recs f.number)) : (single level f).Ordered user recs where
  file g member := (mem_single.mp member).2 ▸ file
  numbers := by
    simp only [single]
    split <;> simp
  sorted i _ := by
    refine ⟨fun g member => (mem_single.mp member).2 ▸ file, ?_, ?_⟩ <;> simp only [single] <;> split <;> simp
  order {i j g h} first second precedes := by
    obtain ⟨rfl, rfl⟩ := mem_single.mp first
    obtain ⟨rfl, rfl⟩ := mem_single.mp second
    rcases precedes with less | ⟨_, _, less⟩ <;> exact absurd less (Nat.lt_irrefl _)

end WormholeFilters.LevelDb
