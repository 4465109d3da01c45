import Mathlib.Data.List.Nodup
import Mathlib.Data.Finset.Card
import WormholeFilters.VersionBuilder

/-! What an edit must observe for the records of a version to stay in their order. -/
namespace WormholeFilters.LevelDb

open LittleEndian

/-- File numbers below `next`, each at one place. -/
structure Version.Numbered (v : Version) (next : Nat) : Prop where
  below : ∀ level, ∀ f ∈ v.files level, f.number < next
  unique : ∀ {i j f g}, f ∈ v.files i → g ∈ v.files j → f.number = g.number → i = j ∧ f = g

structure Version.Kept (user : Comparator) (recs : Nat → List Stored) (next : Nat) (v : Version) : Prop where
  ordered : v.Ordered user recs
  ascending : v.Ascending user
  numbered : v.Numbered next
  levels : ∀ level, ∀ f ∈ v.files level, level < kNumLevels

/-- The description of a table with some entries, as `BuildTable` and `DoCompactionWork` make it. -/
def tableMeta (tableSize : List (List Byte × List Byte) → Nat) (number : Nat) (entries : List (List Byte × List Byte)) :
    FileMetaData :=
  ⟨number, tableSize entries, (entries.head?.map Prod.fst).getD [], (entries.getLast?.map Prod.fst).getD []⟩

/-- The records of all files after some new ones are written. -/
def written (recs : Nat → List Stored) (outs : List (Nat × List Stored)) (number : Nat) : List Stored :=
  ((outs.find? fun o => o.1 = number).map Prod.snd).getD (recs number)

section Files

variable {user : Comparator} {recs : Nat → List Stored} {outs : List (Nat × List Stored)} {n : Nat}
  {records : List Stored}

theorem fileOf_tableMeta (tableSize : List (List Byte × List Byte) → Nat) (n : Nat) (order : InOrder user records)
    (nonempty : records ≠ []) : FileOf user (tableMeta tableSize n (records.map Stored.entry)) records := by
  refine ⟨order, ⟨records.head nonempty, List.head?_eq_some_head nonempty, ?_⟩,
    records.getLast nonempty, List.getLast?_eq_some_getLast nonempty, ?_⟩
  · simp [tableMeta, List.head?_map, List.head?_eq_some_head nonempty]
  · simp [tableMeta, List.getLast?_map, List.getLast?_eq_some_getLast nonempty]

theorem written_of_new (new : ∀ o ∈ outs, o.1 ≠ n) : written recs outs n = recs n := by
  have none : outs.find? (fun o => o.1 = n) = none := List.find?_eq_none.mpr (by simpa using new)
  simp [written, none]

theorem written_eq (distinct : outs.Pairwise fun a b => a.1 ≠ b.1) (member : (n, records) ∈ outs) :
    written recs outs n = records := by
  induction outs with
  | nil => cases member
  | cons o outs ih =>
    obtain ⟨first, rest⟩ := List.pairwise_cons.mp distinct
    rcases List.mem_cons.mp member with rfl | later
    · simp [written]
    · simpa [written, first _ later] using ih rest later

end Files

section Change

variable {user : Comparator} {recs recs' : Nat → List Stored} {next next' level : Nat} {v v' : Version}
  {f g : FileMetaData}

theorem Version.mem_records {r : Stored} :
    r ∈ v.records recs ↔ ∃ level, level < kNumLevels ∧ ∃ f ∈ v.files level, r ∈ recs f.number := by
  simp [records, recordsOf]

theorem Version.records_congr (same : ∀ level, ∀ f ∈ v.files level, recs' f.number = recs f.number) :
    v.records recs' = v.records recs := by
  have inLevel (level) : recordsOf recs' (v.files level) = recordsOf recs (v.files level) := by
    unfold recordsOf
    exact List.flatMap_congr fun f member => same level f member
  simp only [records, inLevel]

theorem Version.Numbered.mono (numbered : v.Numbered next) (le : next ≤ next') : v.Numbered next' where
  below level f member := Nat.lt_of_lt_of_le (numbered.below level f member) le
  unique := numbered.unique

theorem SortedLevel.congr {files : List FileMetaData} (sorted : SortedLevel user recs files)
    (same : ∀ f ∈ files, recs' f.number = recs f.number) : SortedLevel user recs' files where
  file f member := (same f member).symm ▸ sorted.file f member
  apart := sorted.apart
  few := sorted.few

theorem SortedLevel.sublist {files files' : List FileMetaData} (sorted : SortedLevel user recs files)
    (sub : files'.Sublist files) : SortedLevel user recs files' where
  file f member := sorted.file f (sub.mem member)
  apart := sorted.apart.sublist sub
  few := Nat.lt_of_le_of_lt sub.length_le sorted.few

theorem Version.Kept.mono (kept : v.Kept user recs next) (le : next ≤ next') : v.Kept user recs next' :=
  { kept with numbered := kept.numbered.mono le }

/-- Only the files of a version matter. -/
theorem Version.Kept.congr (kept : v.Kept user recs next)
    (same : ∀ level, ∀ f ∈ v.files level, recs' f.number = recs f.number) :
    v.Kept user recs' next := by
  refine { kept with ordered := ⟨fun f member => ?_, kept.ordered.numbers, fun level positive => ?_,
    fun {i j f g} first second => ?_⟩ }
  · rw [same 0 f member]
    exact kept.ordered.file f member
  · exact (kept.ordered.sorted level positive).congr (same level)
  · rw [same i f first, same j g second]
    exact kept.ordered.order first second

theorem Newer.mono {A A' B B' : List Stored} (newer : Newer user A B) (sub : ∀ r ∈ A', r ∈ A) (sub' : ∀ r ∈ B', r ∈ B) :
    Newer user A' B' :=
  fun r member r' member' => newer r (sub r member) r' (sub' r' member')

variable [trans : Std.TransCmp user.compare]

theorem Version.Ascending.nodup (ascending : v.Ascending user) (level : Nat) : (v.files level).Nodup :=
  (ascending level).imp fun less same => by
    subst same
    exact (bySmallestKey_transCmp trans).not_lt_of_lt less less

theorem Version.Numbered.nodup_numbers (numbered : v.Numbered next) (ascending : v.Ascending user) (level : Nat) :
    (v.files level).Pairwise fun f g => f.number ≠ g.number :=
  (ascending.nodup level).imp_of_mem fun first second different same =>
    different (numbered.unique first second same).2

/-- A level has no more files than there are numbers. -/
theorem Version.Numbered.length_le (numbered : v.Numbered next) (ascending : v.Ascending user) (level : Nat) :
    (v.files level).length ≤ next := by
  have distinct : ((v.files level).map FileMetaData.number).Nodup :=
    List.pairwise_map.mpr (numbered.nodup_numbers ascending level)
  have inside : ((v.files level).map FileMetaData.number).toFinset ⊆ Finset.range next := by
    intro n member
    obtain ⟨f, present, rfl⟩ := List.mem_map.mp (List.mem_toFinset.mp member)
    exact Finset.mem_range.mpr (numbered.below level f present)
  have count := Finset.card_le_card inside
  rwa [List.toFinset_card_of_nodup distinct, List.length_map, Finset.card_range] at count

/-- Files that take other files' place keep the order when each new one is apart from the rest of its level, and has
nothing older than what a read comes to behind it. -/
theorem Version.Ordered.change {gone added : Nat → FileMetaData → Prop} (ordered : v.Ordered user recs)
    (changed : ∀ level f, f ∈ v'.files level ↔ f ∈ v.files level ∧ ¬ gone level f ∨ added level f)
    (ascending : v'.Ascending user) (numbered : v'.Numbered next) (few : next < 2 ^ 31)
    (same : ∀ level, ∀ f ∈ v.files level, recs' f.number = recs f.number)
    (isFile : ∀ level f, added level f → FileOf user f (recs' f.number))
    (apart : ∀ level, 0 < level → ∀ f g, added level f → g ∈ v'.files level → f ≠ g → Apart user f g)
    (order : ∀ {i j f g}, f ∈ v'.files i → g ∈ v'.files j → Precedes i f j g → added i f ∨ added j g →
      Newer user (recs' f.number) (recs' g.number)) : v'.Ordered user recs' := by
  have file (level) (f) (member : f ∈ v'.files level) : FileOf user f (recs' f.number) := by
    rcases (changed level f).mp member with ⟨old, _⟩ | new
    · rw [same level f old]
      exact ordered.isFile level old
    · exact isFile level f new
  refine ⟨file 0, numbered.nodup_numbers ascending 0, fun level positive => ?_,
    fun {i j f g} first second precedes => ?_⟩
  · have length := numbered.length_le ascending level
    refine sortedLevel_of_ascending trans (ascending level) (file level) (by omega) fun f first g second different => ?_
    rcases (changed level f).mp first with ⟨old, _⟩ | new
    · rcases (changed level g).mp second with ⟨old', _⟩ | new'
      · -- both were in the level before
        obtain ⟨i, inside, rfl⟩ := List.mem_iff_getElem.mp old
        obtain ⟨j, inside', rfl⟩ := List.mem_iff_getElem.mp old'
        have before := List.pairwise_iff_getElem.mp (ordered.sorted level positive).apart
        rcases Nat.lt_trichotomy i j with less | rfl | greater
        · exact Or.inl (before i j inside inside' less)
        · exact absurd rfl different
        · exact Or.inr (before j i inside' inside greater)
      · exact (apart level positive g f new' first different.symm).symm
    · exact apart level positive f g new second different
  · rcases (changed i f).mp first with ⟨old, _⟩ | new
    · rcases (changed j g).mp second with ⟨old', _⟩ | new'
      · rw [same i f old, same j g old']
        exact ordered.order old old' precedes
      · exact order first second precedes (Or.inr new')
    · exact order first second precedes (Or.inl new)

/-- The numbers of the files an edit adds are free once it is applied. -/
structure VersionEdit.Fits (v : Version) (next : Nat) (e : VersionEdit) : Prop where
  fresh : FreshFiles e.newFiles
  below : ∀ {level f}, (level, f) ∈ e.newFiles → f.number < next
  free : ∀ {level f i g}, (level, f) ∈ e.newFiles → g ∈ v.files i → g.number = f.number →
    i ≠ level ∧ (i, g.number) ∈ e.deletedFiles

omit trans in
/-- The records of a level are of the version. -/
theorem Version.Kept.mem_records (kept : v.Kept user recs next) {r : Stored} :
    r ∈ v.records recs ↔ ∃ level, ∃ f ∈ v.files level, r ∈ recs f.number := by
  rw [Version.mem_records]
  constructor
  · rintro ⟨level, _, found⟩
    exact ⟨level, found⟩
  · rintro ⟨level, f, member, inside⟩
    exact ⟨level, kept.levels level f member, f, member, inside⟩

variable {e : VersionEdit}

omit trans in
theorem VersionEdit.Fits.mem_apply (fits : e.Fits v next) : f ∈ (v.apply user e).files level ↔
    f ∈ v.files level ∧ (level, f.number) ∉ e.deletedFiles ∨ (level, f) ∈ e.newFiles := by
  rw [Version.mem_apply fits.fresh]
  constructor
  · rintro ⟨old | new, back⟩
    · refine Or.inl ⟨old, fun deleted => ?_⟩
      obtain ⟨g, new, same⟩ := back deleted
      exact (fits.free new old same).1 rfl
    · exact Or.inr new
  · rintro (⟨old, live⟩ | new)
    · exact ⟨Or.inl old, fun deleted => absurd deleted live⟩
    · exact ⟨Or.inr new, fun _ => ⟨f, new, rfl⟩⟩

omit trans in
theorem VersionEdit.Fits.numbered (fits : e.Fits v next') (numbered : v.Numbered next) (le : next ≤ next') :
    (v.apply user e).Numbered next' where
  below level f member := by
    rcases fits.mem_apply.mp member with ⟨old, _⟩ | new
    · exact Nat.lt_of_lt_of_le (numbered.below level f old) le
    · exact fits.below new
  unique {i j f g} first second same := by
    rcases fits.mem_apply.mp first with ⟨old, live⟩ | new <;> rcases fits.mem_apply.mp second with ⟨old', live'⟩ | new'
    · exact numbered.unique old old' same
    · exact absurd (fits.free new' old same).2 live
    · exact absurd (fits.free new old' same.symm).2 live'
    · have equal : (i, f) = (j, g) := by
        have symm : Std.Symm fun a b : Nat × FileMetaData => a.2.number ≠ b.2.number := ⟨fun _ _ => Ne.symm⟩
        by_contra different
        exact List.Pairwise.forall fits.fresh new new' different same
      exact Prod.ext_iff.mp equal

/-- An edit keeps the order when each file it adds is apart from the rest of its level, and has nothing older than
what a read comes to behind it. -/
theorem Version.Kept.apply (kept : v.Kept user recs next) (fits : e.Fits v next') (le : next ≤ next')
    (few : next' < 2 ^ 31) (same : ∀ level, ∀ f ∈ v.files level, recs' f.number = recs f.number)
    (isFile : ∀ level f, (level, f) ∈ e.newFiles → level < kNumLevels ∧ FileOf user f (recs' f.number))
    (apart : ∀ level, 0 < level → ∀ f g, (level, f) ∈ e.newFiles → g ∈ (v.apply user e).files level → f ≠ g →
      Apart user f g)
    (order : ∀ {i j f g}, f ∈ (v.apply user e).files i → g ∈ (v.apply user e).files j → Precedes i f j g →
      (i, f) ∈ e.newFiles ∨ (j, g) ∈ e.newFiles → Newer user (recs' f.number) (recs' g.number)) :
    (v.apply user e).Kept user recs' next' := by
  have ascending : (v.apply user e).Ascending user :=
    apply_ascending trans kept.ascending fits.fresh fun level f new g old equal => (fits.free new old equal.symm).1 rfl
  have numbered : (v.apply user e).Numbered next' := fits.numbered kept.numbered le
  have ordered := kept.ordered.change (fun _ _ => fits.mem_apply) ascending numbered few same
    (fun level f new => (isFile level f new).2) apart order
  refine ⟨ordered, ascending, numbered, fun level f member => ?_⟩
  rcases fits.mem_apply.mp member with ⟨old, _⟩ | new
  · exact kept.levels level f old
  · exact (isFile level f new).1

end Change

def Version.ofTables (levels : List (List (Nat × List Stored))) : Version :=
  ⟨fun level => (levels.getD level []).map fun t => tableMeta List.length t.1 (t.2.map Stored.entry)⟩

section Tables

variable {user : Comparator} {levels : List (List (Nat × List Stored))} {level : Nat} {f : FileMetaData}

theorem level_sublist_flatten (levels : List (List (Nat × List Stored))) (level : Nat) :
    (levels.getD level []).Sublist levels.flatten := by
  by_cases inside : level < levels.length
  · rw [List.getD_eq_getElem _ _ inside]
    exact List.sublist_flatten_of_mem (List.getElem_mem inside)
  · rw [List.getD_eq_default _ _ (Nat.not_lt.mp inside)]
    exact List.nil_sublist _

theorem Version.mem_ofTables (member : f ∈ (ofTables levels).files level) : level < levels.length ∧
    ∃ t ∈ levels.flatten, f = tableMeta List.length t.1 (t.2.map Stored.entry) := by
  obtain ⟨t, inLevel, rfl⟩ := List.mem_map.mp member
  refine ⟨?_, t, (level_sublist_flatten levels level).subset inLevel, rfl⟩
  by_contra outside
  rw [List.getD_eq_default _ _ (Nat.not_lt.mp outside)] at inLevel
  cases inLevel

/-- The order of such a version, level by level. -/
theorem Version.ofTables_ordered (numbers : levels.flatten.Pairwise fun s t => s.1 ≠ t.1)
    (tables : ∀ t ∈ levels.flatten, InOrder user t.2 ∧ t.2 ≠ []) (few : levels.flatten.length < 2 ^ 31)
    (apart : ∀ level < levels.length, 0 < level → ((ofTables levels).files level).Pairwise fun f g =>
      (internalKeyComparator user).compare f.largest g.smallest = .lt)
    (order : ∀ i < levels.length, ∀ j < levels.length, ∀ f ∈ (ofTables levels).files i, ∀ g ∈ (ofTables levels).files j,
      Precedes i f j g → Newer user (written (fun _ => []) levels.flatten f.number)
        (written (fun _ => []) levels.flatten g.number)) :
    (ofTables levels).Ordered user (written (fun _ => []) levels.flatten) := by
  have isFile (level f) (member : f ∈ (ofTables levels).files level) :
      FileOf user f (written (fun _ => []) levels.flatten f.number) := by
    obtain ⟨-, t, inside, rfl⟩ := mem_ofTables member
    rw [show (tableMeta _ _ _).number = t.1 from rfl, written_eq numbers inside]
    exact fileOf_tableMeta _ _ (tables t inside).1 (tables t inside).2
  refine ⟨isFile 0, ?_, fun level positive => ⟨isFile level, ?_, ?_⟩, fun {i j f g} first second => ?_⟩
  · rw [ofTables, List.pairwise_map]
    exact numbers.sublist (level_sublist_flatten levels 0)
  · by_cases inside : level < levels.length
    · exact apart level inside positive
    · simp [ofTables, List.getElem?_eq_none (Nat.not_lt.mp inside)]
  · rw [ofTables, List.length_map]
    exact Nat.lt_of_le_of_lt (level_sublist_flatten levels level).length_le few
  · exact order i (mem_ofTables first).1 j (mem_ofTables second).1 f first g second

end Tables

/-- Three levels: the first two files overlap each other and the first of the next level. -/
def sampleTables : List (List (Nat × List Stored)) := [
  [(8, [.put 97#8 9#8, .put 99#8 10#8]), (9, [.put 98#8 11#8]), (10, [.put 120#8 12#8, .put 121#8 13#8])],
  [(5, [.put 98#8 6#8, .put 100#8 7#8]), (6, [.put 102#8 8#8, .put 104#8 5#8])],
  [(2, [.put 97#8 1#8, .put 99#8 2#8]), (3, [.put 101#8 3#8, .put 122#8 4#8])]]

theorem sampleTables_ordered : (Version.ofTables sampleTables).Ordered bytewiseComparator
    (written (fun _ => []) sampleTables.flatten) :=
  Version.ofTables_ordered (by decide) (by decide) (by decide) (by decide) (by decide)

end WormholeFilters.LevelDb
