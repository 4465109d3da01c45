import WormholeFilters.CompactionResult

/-! The level that the table of a memtable goes to, `Version::PickLevelForMemTableOutput`, and the version with it,
`DBImpl::CompactMemTable`. -/
namespace WormholeFilters.LevelDb

open LittleEndian
open KeyClasses (classOf)
open Spans (Clear Solid)

def kMaxMemCompactLevel : Nat := 2

section Model

variable (user : Comparator)

def Version.overlapInLevel (v : Version) (level : Nat) (smallestUserKey largestUserKey : Option (List Byte)) : Bool :=
  someFileOverlapsRange user (level > 0) (v.files level) smallestUserKey largestUserKey

def Version.pickLevelLoop (v : Version) (maxFileSize : Nat) (smallestUserKey largestUserKey : List Byte) :
    Nat → Nat → Nat
  | 0, level => level
  | fuel + 1, level =>
    if v.overlapInLevel user (level + 1) (some smallestUserKey) (some largestUserKey) then level
    else if level + 2 < kNumLevels ∧ totalFileSize (v.getOverlappingInputs user (level + 2)
        (some (seekKey smallestUserKey kMaxSequenceNumber))
          (some (appendInternalKey [] ⟨largestUserKey, 0, .deletion⟩))) >
          10 * maxFileSize then level
    else v.pickLevelLoop maxFileSize smallestUserKey largestUserKey fuel (level + 1)

def Version.pickLevelForMemTableOutput (v : Version) (maxFileSize : Nat) (smallestUserKey largestUserKey : List Byte) :
    Nat :=
  if v.overlapInLevel user 0 (some smallestUserKey) (some largestUserKey) then 0
  else v.pickLevelLoop user maxFileSize smallestUserKey largestUserKey kMaxMemCompactLevel 0

def Version.writeLevel0Table (v : Version) (maxFileSize : Nat) (f : FileMetaData) (edit : VersionEdit) : VersionEdit :=
  edit.addFile (v.pickLevelForMemTableOutput user maxFileSize (extractUserKey f.smallest) (extractUserKey f.largest)) f

end Model

section Overlap

variable {user : Comparator} [trans : Std.TransCmp user.compare] {recs : Nat → List Stored} {files : List FileMetaData}
  {v : Version} {f g : FileMetaData} {lower upper : Option (List Byte)} {level : Nat}

theorem afterFile_iff : afterFile user lower f = true ↔ ∃ k, lower = some k ∧ high user f < classOf user.compare k := by
  cases lower with
  | none => simp [afterFile]
  | some k => simp [afterFile, KeyClasses.gt_iff, high, FileMetaData.limit]

theorem beforeFile_iff : beforeFile user upper f = true ↔
    ∃ k, upper = some k ∧ classOf user.compare k < low user f := by
  cases upper with
  | none => simp [beforeFile]
  | some k => simp [beforeFile, KeyClasses.lt_iff, low, FileMetaData.start]

/-- The search goes by user keys alone, as no record is before the first internal key of its user key. -/
theorem FileOf.largest_lt_seekKey_iff {records : List Stored} (file : FileOf user f records) (k : List Byte) :
    (internalKeyComparator user).compare f.largest (seekKey k kMaxSequenceNumber) = .lt ↔
      afterFile user (some k) f = true := by
  obtain ⟨r, _, same⟩ := file.largest
  have visible : r.visible kMaxSequenceNumber = true := decide_eq_true r.small
  rw [same, Stored.entry_lt_seekKey_iff user (Nat.le_refl _), afterFile_iff]
  simp [visible, high, FileMetaData.limit, same, KeyClasses.lt_iff]

/-- In a sorted level the binary search finds an overlap exactly if the plain scan does. -/
theorem SortedLevel.someFileOverlapsRange_eq (sorted : SortedLevel user recs files) (lower upper : Option (List Byte)) :
    someFileOverlapsRange user true files lower upper = someFileOverlapsRange user false files lower upper := by
  have keys : Std.TransCmp (internalKeyComparator user).compare := InternalKeyComparator.transCmp trans
  -- the files before the index are before the range, and the one at the index is not
  obtain ⟨index, result, before, here⟩ : ∃ index,
      (someFileOverlapsRange user true files lower upper = true ↔ ∃ f, files[index]? = some f ∧
      beforeFile user upper f = false) ∧
      (∀ (i : Nat) f, files[i]? = some f → i < index → afterFile user lower f = true) ∧
      ∀ f, files[index]? = some f → afterFile user lower f = false := by
    cases lower with
    | none =>
      refine ⟨0, ?_, fun i f _ early => absurd early (Nat.not_lt_zero i), fun f _ => rfl⟩
      cases found : files[0]? <;> simp [someFileOverlapsRange, found]
    | some k =>
      have place := findFile_eq sorted.byLargest_sorted sorted.few (seekKey k kMaxSequenceNumber)
      refine ⟨findFile user files (seekKey k kMaxSequenceNumber), ?_, fun i f found early => ?_, fun f found => ?_⟩
      · cases found : files[findFile user files (seekKey k kMaxSequenceNumber)]? <;> simp [someFileOverlapsRange, found]
      · have file := sorted.file f (List.mem_of_getElem? found)
        exact (file.largest_lt_seekKey_iff k).mp (Cursors.lt_of_lt_lowerBound (getElem?_byLargest found)
          (place ▸ early))
      · have file := sorted.file f (List.mem_of_getElem? found)
        refine Bool.eq_false_iff.mpr fun after => ?_
        exact Cursors.not_lt_at_lowerBound (getElem?_byLargest (place ▸ found))
          ((file.largest_lt_seekKey_iff k).mpr after)
  rw [Bool.eq_iff_iff, result]
  simp only [someFileOverlapsRange, Bool.false_eq_true, not_false_eq_true, if_true, List.any_eq_true, Bool.not_eq_true',
    Bool.or_eq_false_iff]
  constructor
  · rintro ⟨f, found, inside⟩
    exact ⟨f, List.mem_of_getElem? found, here f found, inside⟩
  · rintro ⟨f, member, reached, inside⟩
    obtain ⟨i, found⟩ := List.mem_iff_getElem?.mp member
    have after : index ≤ i := Nat.not_lt.mp fun early => by simp [before i f found early] at reached
    have within := (List.getElem?_eq_some_iff.mp found).1
    have first := List.getElem?_eq_getElem (Nat.lt_of_le_of_lt after within)
    refine ⟨_, first, Bool.eq_false_iff.mpr fun less => Bool.eq_false_iff.mp inside ?_⟩
    obtain ⟨k, given, less⟩ := beforeFile_iff.mp less
    refine beforeFile_iff.mpr ⟨k, given, ?_⟩
    rcases Nat.eq_or_lt_of_le after with same | later
    · subst same
      rwa [Option.some.inj (first.symm.trans found)] at less
    · exact lt_of_lt_of_le less ((KeyClasses.isLE_iff ..).mp (sorted.smallest_le first found later))

/-- In every level a range meets a file exactly if the plain scan through its files says so. -/
theorem Version.Ordered.overlapInLevel_eq_scan (ordered : v.Ordered user recs) (level : Nat)
    (lower upper : Option (List Byte)) :
    v.overlapInLevel user level lower upper =
      (v.files level).any fun f => !(afterFile user lower f || beforeFile user upper f) := by
  rcases Nat.eq_zero_or_pos level with rfl | positive
  · rfl
  · have same := (ordered.sorted level positive).someFileOverlapsRange_eq lower upper
    simpa [overlapInLevel, positive, someFileOverlapsRange] using same

/-- A range between the two files of level 1, one that ends in the second of them, and one behind them. -/
theorem Version.Ordered.overlapInLevel_eq_scan_levels :
    let v := Version.ofTables sampleTables
    v.overlapInLevel bytewiseComparator 1 (some [101#8]) (some [101#8]) = false ∧
      v.overlapInLevel bytewiseComparator 1 (some [101#8]) (some [103#8]) = true ∧
      v.overlapInLevel bytewiseComparator 1 (some [105#8]) none = false ∧
      v.overlapInLevel bytewiseComparator 2 (some [105#8]) none = true := by
  intro v
  have scan := sampleTables_ordered.overlapInLevel_eq_scan
  exact ⟨(scan 1 _ _).trans (by decide), (scan 1 _ _).trans (by decide), (scan 1 _ _).trans (by decide),
    (scan 2 _ _).trans (by decide)⟩

/-- Where no overlap is found, the files are before the range or behind it. -/
theorem Version.Ordered.clear_of_overlapInLevel (ordered : v.Ordered user recs) {smallest largest : List Byte}
    (none : v.overlapInLevel user level (some smallest) (some largest) = false) (member : f ∈ v.files level) :
    Clear (low user) (high user) (classOf user.compare smallest) (classOf user.compare largest) f := by
  have plain : someFileOverlapsRange user false (v.files level) (some smallest) (some largest) = false := by
    rcases Nat.eq_zero_or_pos level with rfl | positive
    · exact none
    · rw [← (ordered.sorted level positive).someFileOverlapsRange_eq]
      simpa [overlapInLevel, positive] using none
  have clear : afterFile user (some smallest) f = true ∨ beforeFile user (some largest) f = true := by
    have all : ∀ f ∈ v.files level, afterFile user (some smallest) f = false →
        beforeFile user (some largest) f = true := by
      simpa [someFileOverlapsRange] using plain
    cases reached : afterFile user (some smallest) f with
    | true => exact Or.inl rfl
    | false => exact Or.inr (all f member reached)
  rcases clear with after | before
  · obtain ⟨k, given, less⟩ := afterFile_iff.mp after
    cases given
    exact Or.inr less
  · obtain ⟨k, given, less⟩ := beforeFile_iff.mp before
    cases given
    exact Or.inl less

/-- The levels above the one that is picked, and this one, have nothing in the range, unless it is level 0. -/
theorem Version.Ordered.pickLevelLoop_clear (ordered : v.Ordered user recs) (maxFileSize : Nat)
    {smallest largest : List Byte} (fuel : Nat) {start : Nat} (clear : ∀ level ≤ start, ∀ f ∈ v.files level,
      Clear (low user) (high user) (classOf user.compare smallest) (classOf user.compare largest) f) :
    let picked := v.pickLevelLoop user maxFileSize smallest largest fuel start
    picked ≤ start + fuel ∧ ∀ level ≤ picked, ∀ f ∈ v.files level,
      Clear (low user) (high user) (classOf user.compare smallest) (classOf user.compare largest) f := by
  induction fuel generalizing start with
  | zero => exact ⟨Nat.le_refl _, clear⟩
  | succ fuel ih =>
    rw [pickLevelLoop]
    split
    · exact ⟨Nat.le_add_right _ _, clear⟩
    · next none =>
      split
      · exact ⟨Nat.le_add_right _ _, clear⟩
      · have clear' : ∀ level ≤ start + 1, ∀ f ∈ v.files level,
            Clear (low user) (high user) (classOf user.compare smallest) (classOf user.compare largest) f := by
          intro level le f member
          rcases Nat.eq_or_lt_of_le le with rfl | less
          · exact ordered.clear_of_overlapInLevel (Bool.eq_false_iff.mpr none) member
          · exact clear level (Nat.le_of_lt_succ less) f member
        obtain ⟨bound, more⟩ := ih clear'
        exact ⟨by omega, more⟩

theorem Version.Ordered.pickLevel_clear (ordered : v.Ordered user recs) (maxFileSize : Nat)
    (smallest largest : List Byte) :
    let picked := v.pickLevelForMemTableOutput user maxFileSize smallest largest
    picked ≤ kMaxMemCompactLevel ∧ (0 < picked → ∀ level ≤ picked, ∀ f ∈ v.files level,
      Clear (low user) (high user) (classOf user.compare smallest) (classOf user.compare largest) f) := by
  rw [pickLevelForMemTableOutput]
  split
  · exact ⟨Nat.zero_le _, fun positive => absurd positive (Nat.lt_irrefl 0)⟩
  · next none =>
    have clear : ∀ level ≤ 0, ∀ f ∈ v.files level,
        Clear (low user) (high user) (classOf user.compare smallest) (classOf user.compare largest) f := by
      intro level le f member
      obtain rfl := Nat.le_zero.mp le
      exact ordered.clear_of_overlapInLevel (Bool.eq_false_iff.mpr none) member
    obtain ⟨bound, found⟩ := ordered.pickLevelLoop_clear maxFileSize kMaxMemCompactLevel clear
    exact ⟨by simpa using bound, fun _ => found⟩

end Overlap

structure Version.Takes (user : Comparator) (recs : Nat → List Stored) (v : Version) (rs : List Stored) : Prop where
  order : InOrder user rs
  nonempty : rs ≠ []
  newer : Newer user rs (v.records recs)

/-- The version with the table of a memtable. -/
def Version.flushed (user : Comparator) (v : Version) (maxFileSize : Nat) (edit : VersionEdit) (f : FileMetaData) :
    Version :=
  v.apply user (v.writeLevel0Table user maxFileSize f edit)

section Flush

variable {user : Comparator} {recs : Nat → List Stored} {v : Version} {next maxFileSize : Nat}
  {rs : List Stored} {edit : VersionEdit} {f g : FileMetaData} {tableSize : List (List Byte × List Byte) → Nat}

variable (user v maxFileSize f) in
theorem Version.newFiles_writeLevel0Table (start : edit.NoFiles) :
    (v.writeLevel0Table user maxFileSize f edit).newFiles =
    [(v.pickLevelForMemTableOutput user maxFileSize (extractUserKey f.smallest) (extractUserKey f.largest), f)] := by
  simp [writeLevel0Table, VersionEdit.addFile, start.new]

variable (user maxFileSize) in
theorem Version.Numbered.flush (numbered : v.Numbered next) (start : edit.NoFiles) (number : f.number = next) :
    (v.writeLevel0Table user maxFileSize f edit).Fits v (next + 1) ∧ ∀ {level g},
      g ∈ (v.flushed user maxFileSize edit f).files level ↔ g ∈ v.files level ∨
        level = v.pickLevelForMemTableOutput user maxFileSize (extractUserKey f.smallest)
          (extractUserKey f.largest) ∧ g = f := by
  have added := newFiles_writeLevel0Table user v maxFileSize f start
  have fits : (v.writeLevel0Table user maxFileSize f edit).Fits v (next + 1) := by
    refine ⟨?_, fun {level g} member => ?_, fun {level g i h} member old same => ?_⟩
    · rw [FreshFiles, added]
      exact List.pairwise_singleton _ _
    · cases List.mem_singleton.mp (added ▸ member)
      omega
    · cases List.mem_singleton.mp (added ▸ member)
      have below := numbered.below i h old
      omega
  refine ⟨fits, fun {level g} => ?_⟩
  rw [flushed, fits.mem_apply, added, List.mem_singleton, Prod.mk.injEq]
  simp [writeLevel0Table, VersionEdit.addFile, start.deleted]

variable [trans : Std.TransCmp user.compare]

structure Version.Placed (user : Comparator) [Std.TransCmp user.compare] (recs : Nat → List Stored) (v : Version)
    (next maxFileSize : Nat) (edit : VersionEdit) (f : FileMetaData) (rs : List Stored) (level : Nat) : Prop where
  bound : level < kNumLevels
  added : (v.writeLevel0Table user maxFileSize f edit).newFiles = [(level, f)]
  fits : (v.writeLevel0Table user maxFileSize f edit).Fits v (next + 1)
  mem_iff : ∀ {i g}, g ∈ (v.flushed user maxFileSize edit f).files i ↔ g ∈ v.files i ∨ i = level ∧ g = f
  file : FileOf user f rs
  number : f.number = next
  same : ∀ {i g}, g ∈ v.files i → written recs [(next, rs)] g.number = recs g.number
  new : written recs [(next, rs)] f.number = rs
  clear : 0 < level → ∀ i ≤ level, ∀ g ∈ v.files i, Clear (low user) (high user) (low user f) (high user f) g

theorem Version.Kept.placed (keeps : v.Kept user recs next) (takes : v.Takes user recs rs) (start : edit.NoFiles)
    (maxFileSize : Nat) (tableSize : List (List Byte × List Byte) → Nat) :
    ∃ level, v.Placed user recs next maxFileSize edit (tableMeta tableSize next (rs.map Stored.entry)) rs level := by
  have file := fileOf_tableMeta tableSize next takes.order takes.nonempty
  have number : (tableMeta tableSize next (rs.map Stored.entry)).number = next := rfl
  generalize tableMeta tableSize next (rs.map Stored.entry) = f at file number
  obtain ⟨le, clear⟩ := keeps.ordered.pickLevel_clear maxFileSize (extractUserKey f.smallest) (extractUserKey f.largest)
  obtain ⟨fits, mem_iff⟩ := keeps.numbered.flush user maxFileSize start number
  refine ⟨_, Nat.lt_of_le_of_lt le (by decide), newFiles_writeLevel0Table user v maxFileSize f start, fits,
    mem_iff, file, number,
    fun {i g} old => ?_, ?_, clear⟩
  · refine written_of_new fun o member => ?_
    rw [List.mem_singleton.mp member]
    exact (Nat.ne_of_lt (keeps.numbered.below i g old)).symm
  · rw [number]
    exact written_eq (List.pairwise_singleton _ _) (List.mem_singleton_self _)

namespace Version.Placed

variable {level : Nat}

theorem kept (placed : v.Placed user recs next maxFileSize edit f rs level) (keeps : v.Kept user recs next)
    (takes : v.Takes user recs rs) (few : next + 1 < 2 ^ 31) :
    (v.flushed user maxFileSize edit f).Kept user (written recs [(next, rs)]) (next + 1) := by
  have isNew {i : Nat} {g : FileMetaData} (member : (i, g) ∈ (v.writeLevel0Table user maxFileSize f edit).newFiles) :
      i = level ∧ g = f := Prod.ext_iff.mp (List.mem_singleton.mp (placed.added ▸ member))
  refine keeps.apply placed.fits (Nat.le_succ _) few (fun i g old => placed.same old) (fun i g new => ?_)
    (fun i positive g h new member different => ?_) fun {i j g h} first second precedes new => ?_
  · obtain ⟨rfl, rfl⟩ := isNew new
    exact ⟨placed.bound, placed.new.symm ▸ placed.file⟩
  · obtain ⟨rfl, rfl⟩ := isNew new
    have old := (placed.mem_iff.mp member).resolve_right fun both => different both.2.symm
    rcases placed.clear positive i (Nat.le_refl _) h old with behind | before
    · exact Or.inl (key_lt_of_classOf_lt behind)
    · exact Or.inr (key_lt_of_classOf_lt before)
  · rcases placed.mem_iff.mp first with old | ⟨rfl, rfl⟩
    · rcases placed.mem_iff.mp second with old' | ⟨rfl, rfl⟩
      · rw [placed.same old, placed.same old']
        exact keeps.ordered.order old old' precedes
      · -- what a read comes to before the new file has none of its user keys
        have less : i < j := by
          rcases precedes with less | ⟨rfl, rfl, newer⟩
          · exact less
          · have below := keeps.numbered.below 0 g old
            have number := placed.number
            omega
        rw [placed.same old, placed.new]
        have file := keeps.ordered.isFile i old
        rcases placed.clear (Nat.lt_of_le_of_lt (Nat.zero_le i) less) i (Nat.le_of_lt less) g old with behind | before
        · exact newer_of_high_lt placed.file file behind
        · exact fun r member r' member' same => absurd same (users_ne_of_high_lt file placed.file before member member')
    · rcases placed.mem_iff.mp second with old' | ⟨rfl, rfl⟩
      · rw [placed.new, placed.same old']
        exact takes.newer.mono (fun _ member => member) fun r member => keeps.mem_records.mpr ⟨j, h, old', member⟩
      · rcases precedes with less | ⟨_, _, less⟩ <;> exact absurd less (Nat.lt_irrefl _)

theorem records (placed : v.Placed user recs next maxFileSize edit f rs level) (r : Stored) :
    r ∈ (v.flushed user maxFileSize edit f).records (written recs [(next, rs)]) ↔ r ∈ rs ∨ r ∈ v.records recs := by
  rw [Version.mem_records, Version.mem_records]
  constructor
  · rintro ⟨i, bound, g, member, inside⟩
    rcases placed.mem_iff.mp member with old | ⟨_, rfl⟩
    · exact Or.inr ⟨i, bound, g, old, placed.same old ▸ inside⟩
    · exact Or.inl (placed.new ▸ inside)
  · rintro (inside | ⟨i, bound, g, old, inside⟩)
    · exact ⟨level, placed.bound, f, placed.mem_iff.mpr (Or.inr ⟨rfl, rfl⟩), placed.new.symm ▸ inside⟩
    · exact ⟨i, bound, g, placed.mem_iff.mpr (Or.inl old), (placed.same old).symm ▸ inside⟩

/-- A compaction whose inputs leave no gap can still be installed after a memtable is written. -/
theorem ready {c : Compaction} (placed : v.Placed user recs next maxFileSize edit f rs level)
    (keeps : v.Kept user recs next) (takes : v.Takes user recs rs) (ready : c.Ready user recs v)
    (solid : Solid (low user) (high user) (c.inputs.1 ++ c.inputs.2)) :
    c.Ready user (written recs [(next, rs)]) (v.flushed user maxFileSize edit f) := by
  have same {i : Nat} {g : FileMetaData} (isInput : c.Input i g) := placed.same (ready.present isInput)
  have newerInput {i : Nat} {g : FileMetaData} (isInput : c.Input i g) : Newer user rs (recs g.number) :=
    takes.newer.mono (fun _ member => member) fun r member => keeps.mem_records.mpr
    ⟨i, g, ready.present isInput, member⟩
  refine ⟨ready.inside, fun isInput => placed.mem_iff.mpr (Or.inl (ready.present isInput)),
    fun g member other h input => ?_,
    fun g member other => ?_, fun {i h} isInput r inside base j lower bound g member r' inside' => ?_⟩
  · have isInput : c.Input c.level h := Or.inl ⟨rfl, input⟩
    rw [same isInput]
    rcases placed.mem_iff.mp member with old | ⟨_, rfl⟩
    · rw [placed.same old]
      exact ready.left g old other h input
    · rw [placed.new]
      exact newerInput isInput
  · rcases placed.mem_iff.mp member with old | ⟨here, rfl⟩
    · exact ready.beside g old other
    · -- the new file is clear of all inputs, so it is before or behind them
      have clear (h) (input : h ∈ c.inputs.1 ++ c.inputs.2) : Clear (low user) (high user) (low user g)
          (high user g) h := by
        have positive : 0 < level := by omega
        rcases List.mem_append.mp input with first | second
        · exact placed.clear positive c.level (by omega) h (ready.present (Or.inl ⟨rfl, first⟩))
        · exact placed.clear positive (c.level + 1) (by omega) h (ready.present (Or.inr ⟨rfl, second⟩))
      rcases solid (low user g) (high user g) placed.file.low_le_high clear with before | behind
      · refine Or.inl ⟨fun h input => before h (List.mem_append_left _ input), fun h input => ?_⟩
        exact key_lt_of_classOf_lt (before h (List.mem_append_right _ input))
      · exact Or.inr behind
  · rw [same isInput] at inside
    rcases placed.mem_iff.mp member with old | ⟨rfl, rfl⟩
    · rw [placed.same old] at inside'
      exact ready.base isInput r inside base j lower bound g old r' inside'
    · rw [placed.new] at inside'
      have upper : i ≤ j := by
        rcases isInput with ⟨rfl, _⟩ | ⟨rfl, _⟩ <;> omega
      have file := keeps.ordered.isFile i (ready.present isInput)
      rcases placed.clear (by omega) i upper h (ready.present isInput) with behind | before
      · exact users_ne_of_high_lt placed.file file behind inside' inside
      · exact fun equal => users_ne_of_high_lt file placed.file before inside inside' (Std.OrientedCmp.eq_symm equal)

end Version.Placed

end Flush

end WormholeFilters.LevelDb
