import WormholeFilters.CompactionInputs
import WormholeFilters.VersionChange

/-! The version that a compaction leaves behind, `DBImpl::InstallCompactionResults`. The version may have
changed since the inputs were chosen, by memtables written meanwhile. -/
namespace WormholeFilters.LevelDb

open LittleEndian
open KeyClasses (classOf)
open Multiversion (Prunes)

section Model

def Compaction.addInputDeletions (c : Compaction) (edit : VersionEdit) : VersionEdit :=
  c.inputs.2.foldl (fun edit f => edit.removeFile (c.level + 1) f.number)
    (c.inputs.1.foldl (fun edit f => edit.removeFile c.level f.number) edit)

def Compaction.installCompactionResults (c : Compaction) (edit : VersionEdit) (outputs : List FileMetaData) :
    VersionEdit :=
  outputs.foldl (fun edit f => edit.addFile (c.level + 1) f) (c.addInputDeletions edit)

def Compaction.moveFile (c : Compaction) (edit : VersionEdit) (f : FileMetaData) : VersionEdit :=
  (edit.removeFile c.level f.number).addFile (c.level + 1) f

end Model

section Edit

variable {c : Compaction} {edit : VersionEdit} {f : FileMetaData} {i n : Nat}

theorem VersionEdit.mem_removeFile {x : Nat × Nat} (level file : Nat) :
    x ∈ (edit.removeFile level file).deletedFiles ↔ x = (level, file) ∨ x ∈ edit.deletedFiles := by
  refine OrderedSets.mem_insert_iff fun z _ same => ?_
  obtain ⟨first, second⟩ := Ordering.then_eq_eq.mp same
  exact (Prod.ext (Nat.compare_eq_eq.mp first) (Nat.compare_eq_eq.mp second)).symm

theorem foldl_removeFile (level : Nat) (files : List FileMetaData) (edit : VersionEdit) {x : Nat × Nat} :
    let edit' := files.foldl (fun edit f => edit.removeFile level f.number) edit
    (x ∈ edit'.deletedFiles ↔ (∃ f ∈ files, x = (level, f.number)) ∨ x ∈ edit.deletedFiles) ∧
      edit'.newFiles = edit.newFiles := by
  induction files generalizing edit with
  | nil => simp
  | cons f files ih =>
    obtain ⟨deleted, new⟩ := ih (edit.removeFile level f.number)
    refine ⟨?_, new⟩
    simp only [List.foldl_cons, deleted, VersionEdit.mem_removeFile, List.mem_cons, exists_eq_or_imp]
    exact or_left_comm.trans or_assoc.symm

theorem foldl_addFile (level : Nat) (files : List FileMetaData) (edit : VersionEdit) :
    let edit' := files.foldl (fun edit f => edit.addFile level f) edit
    edit'.newFiles = edit.newFiles ++ files.map (level, ·) ∧ edit'.deletedFiles = edit.deletedFiles := by
  induction files generalizing edit with
  | nil => simp
  | cons f files ih => simpa [VersionEdit.addFile] using ih (edit.addFile level f)

def Compaction.Input (c : Compaction) (i : Nat) (f : FileMetaData) : Prop :=
  i = c.level ∧ f ∈ c.inputs.1 ∨ i = c.level + 1 ∧ f ∈ c.inputs.2

structure VersionEdit.NoFiles (edit : VersionEdit) : Prop where
  deleted : edit.deletedFiles = []
  new : edit.newFiles = []

theorem Compaction.mem_installed_deleted (start : edit.NoFiles) (outputs : List FileMetaData) :
    (i, n) ∈ (c.installCompactionResults edit outputs).deletedFiles ↔ ∃ f, c.Input i f ∧ f.number = n := by
  simp only [installCompactionResults, (foldl_addFile ..).2, addInputDeletions, (foldl_removeFile ..).1, start.deleted,
    List.not_mem_nil, or_false, Prod.mk.injEq, Input]
  constructor
  · rintro (⟨f, member, rfl, rfl⟩ | ⟨f, member, rfl, rfl⟩)
    · exact ⟨f, Or.inr ⟨rfl, member⟩, rfl⟩
    · exact ⟨f, Or.inl ⟨rfl, member⟩, rfl⟩
  · rintro ⟨f, ⟨rfl, member⟩ | ⟨rfl, member⟩, rfl⟩
    · exact Or.inr ⟨f, member, rfl, rfl⟩
    · exact Or.inl ⟨f, member, rfl, rfl⟩

theorem Compaction.installed_new (start : edit.NoFiles) (outputs : List FileMetaData) :
    (c.installCompactionResults edit outputs).newFiles = outputs.map (c.level + 1, ·) := by
  rw [installCompactionResults, (foldl_addFile ..).1, addInputDeletions, (foldl_removeFile (x := (0, 0)) ..).2,
    (foldl_removeFile (x := (0, 0)) ..).2, start.new, List.nil_append]

end Edit

section Ready

variable {user : Comparator} [trans : Std.TransCmp user.compare] {recs : Nat → List Stored} {v : Version}
  {c : Compaction}
  {f g : FileMetaData} {A B records : List Stored}

/-- The inputs are what a compaction may replace in the version: what is left beside them in their level is newer, and
below its outputs there is nothing of a deletion that it drops. -/
structure Compaction.Ready (user : Comparator) [Std.TransCmp user.compare] (recs : Nat → List Stored) (v : Version)
    (c : Compaction) : Prop where
  inside : c.level + 1 < kNumLevels
  present : ∀ {i f}, c.Input i f → f ∈ v.files i
  left : ∀ g ∈ v.files c.level, g ∉ c.inputs.1 → ∀ f ∈ c.inputs.1, Newer user (recs g.number) (recs f.number)
  beside : ∀ g ∈ v.files (c.level + 1), g ∉ c.inputs.2 → Beside user c.inputs.1 c.inputs.2 g
  base : ∀ {i f}, c.Input i f → ∀ r ∈ recs f.number, c.isBaseLevel user r.key.userKey = true →
    ∀ level, c.level + 2 ≤ level →
    level < kNumLevels → ∀ g ∈ v.files level, ∀ r' ∈ recs g.number, user.compare r'.key.userKey r.key.userKey ≠ .eq

theorem Compaction.Ready.congr {recs' : Nat → List Stored} (ready : c.Ready user recs v)
    (same : ∀ level, ∀ f ∈ v.files level, recs' f.number = recs f.number) : c.Ready user recs' v where
  inside := ready.inside
  present := ready.present
  left g member other f input := by
    rw [same _ g member, same _ f (ready.present (Or.inl ⟨rfl, input⟩))]
    exact ready.left g member other f input
  beside := ready.beside
  base {i f} input r inside base level lower bound g member r' inside' := by
    rw [same i f (ready.present input)] at inside
    rw [same level g member] at inside'
    exact ready.base input r inside base level lower bound g member r' inside'

theorem users_ne_of_high_lt (file : FileOf user f A) (file' : FileOf user g B) (less : high user f < low user g)
    {r r' : Stored} (member : r ∈ A) (member' : r' ∈ B) : user.compare r.key.userKey r'.key.userKey ≠ .eq := by
  intro same
  have low := file.le_high member
  have high := file'.low_le member'
  rw [(KeyClasses.eq_iff ..).mp same] at low
  order

theorem newer_of_high_lt (file : FileOf user f A) (file' : FileOf user g B) (less : high user f < low user g) :
    Newer user B A :=
  fun _ member _ member' same =>
    absurd (Std.OrientedCmp.eq_symm same) (users_ne_of_high_lt file file' less member' member)

/-- Of two files the one with smaller keys has the newer records. -/
theorem newer_of_apart (file : FileOf user g A) (file' : FileOf user f B) (distinct : Distinct user records)
    (sub : ∀ r ∈ A, r ∈ records) (sub' : ∀ r ∈ B, r ∈ records)
    (apart : (internalKeyComparator user).compare g.largest f.smallest = .lt) : Newer user A B := by
  have keys : Std.TransCmp (internalKeyComparator user).compare := InternalKeyComparator.transCmp trans
  intro r member r' member' same
  have less := keys.lt_of_lt_of_isLE (keys.lt_of_isLE_of_lt (file.le_largest member) apart) (file'.smallest_le member')
  refine Stored.sequence_lt_of_entry_lt less same fun equal => ?_
  obtain rfl := distinct r (sub r member) r' (sub' r' member') same equal
  exact keys.not_lt_of_lt less less

/-- Inputs as they are chosen may be replaced. -/
theorem Chosen.ready (chosen : Chosen user v c.level c.inputs) (current : c.inputVersion = v)
    (ordered : v.Ordered user recs) (distinct : Distinct user (v.records recs)) (inside : c.level + 1 < kNumLevels) :
    c.Ready user recs v where
  inside := inside
  present := by
    rintro i f (⟨rfl, member⟩ | ⟨rfl, member⟩)
    · exact chosen.sealed.1.mem member
    · exact chosen.sub.mem member
  left g member other f input := by
    have present := chosen.sealed.1.mem input
    have file := ordered.isFile _ member
    have file' := ordered.isFile _ present
    rcases chosen.sealed.2 g member other f input with apart | behind
    · refine newer_of_apart file file' distinct (fun r inFile => ?_) (fun r inFile => ?_) apart
      · exact Version.mem_records.mpr ⟨c.level, by omega, g, member, inFile⟩
      · exact Version.mem_records.mpr ⟨c.level, by omega, f, present, inFile⟩
    · exact newer_of_high_lt file' file behind
  beside := chosen.beside
  base {i f} _ r _ base level behind bound g member r' inFile same := by
    have file := ordered.isFile level member
    have lvl : level ∈ levelsBehind c.level := List.mem_range'_1.mpr ⟨behind, by omega⟩
    subst current
    have clear := List.all_eq_true.mp (List.all_eq_true.mp base level lvl) g member
    have low := file.low_le inFile
    have high := file.le_high inFile
    rw [(KeyClasses.eq_iff ..).mp same] at low high
    have spans : g.spans user r.key.userKey = true :=
      Bool.and_eq_true_iff.mpr ⟨(KeyClasses.isGE_iff ..).mpr low, (KeyClasses.isLE_iff ..).mpr high⟩
    simp [spans] at clear

/-- The files that an automatic compaction picks may be replaced, also after a memtable is written meanwhile: no
file that meets none of them has a place between them. -/
theorem pickCompaction_ready (ordered : v.Ordered user recs) (distinct : Distinct user (v.records recs))
    {maxFileSize : Nat} {compactPointer : Nat → List Byte} {trigger : Trigger} (inside : trigger.level + 1 < kNumLevels)
    (current : ∀ level f, trigger = .seek level f → f ∈ v.files level) {pointer : List Byte}
    (picked : pickCompaction user maxFileSize v compactPointer trigger = some (c, pointer)) :
    c.Ready user recs v ∧ Spans.Solid (low user) (high user) (c.inputs.1 ++ c.inputs.2) := by
  obtain ⟨level, version, chosen, solid⟩ := pickCompaction_chosen ordered current picked
  exact ⟨chosen.ready version ordered distinct (level.symm ▸ inside), solid⟩

/-- Two of three files of level 0 and one of two of level 1 are picked. -/
theorem pickCompaction_ready_levels :
    let v := Version.ofTables sampleTables
    ∃ c pointer, pickCompaction bytewiseComparator 100 v (fun _ => []) (.size 0) = some (c, pointer) ∧
      c.inputs.1.map FileMetaData.number = [8, 9] ∧ c.inputs.2.map FileMetaData.number = [5] ∧
      c.Ready bytewiseComparator (written (fun _ => []) sampleTables.flatten) v := by
  intro v
  have distinct : Distinct bytewiseComparator (v.records (written (fun _ => []) sampleTables.flatten)) := by
    rw [Distinct]
    decide +kernel
  have numbers : (pickCompaction bytewiseComparator 100 v (fun _ => []) (.size 0)).map (fun p =>
      (p.1.inputs.1.map FileMetaData.number, p.1.inputs.2.map FileMetaData.number)) = some ([8, 9], [5]) := by
      decide +kernel
  obtain ⟨⟨c, pointer⟩, picked, inputs⟩ := Option.map_eq_some_iff.mp numbers
  obtain ⟨first, second⟩ := Prod.mk.inj inputs
  exact ⟨c, pointer, picked, first, second,
    (pickCompaction_ready sampleTables_ordered distinct (by decide) (by simp) picked).1⟩

end Ready

structure Compaction.Reads (user : Comparator) (recs : Nat → List Stored) (c : Compaction) (input : List Stored) :
    Prop where
  order : InOrder user input
  mem_iff : ∀ r, r ∈ input ↔ ∃ i f, c.Input i f ∧ r ∈ recs f.number

theorem Compaction.reads_of_perm {user : Comparator} {recs : Nat → List Stored} {c : Compaction} {input : List Stored}
    (order : InOrder user input) (perm : input.Perm (recordsOf recs (c.inputs.1 ++ c.inputs.2))) :
    c.Reads user recs input := by
  refine ⟨order, fun r => ?_⟩
  simp only [perm.mem_iff, recordsOf, List.mem_flatMap, List.mem_append, Compaction.Input]
  constructor
  · rintro ⟨f, member | member, inside⟩
    · exact ⟨_, f, Or.inl ⟨rfl, member⟩, inside⟩
    · exact ⟨_, f, Or.inr ⟨rfl, member⟩, inside⟩
  · rintro ⟨_, f, ⟨_, member⟩ | ⟨_, member⟩, inside⟩
    · exact ⟨f, Or.inl member, inside⟩
    · exact ⟨f, Or.inr member, inside⟩

structure Compaction.Writes (user : Comparator) (c : Compaction) (snap : Nat) (input : List Stored)
    (outs : List (Nat × List Stored)) : Prop where
  kept : (outs.map Prod.snd).flatten = c.kept user snap none input
  nonempty : ∀ o ∈ outs, o.2 ≠ []

section Install

variable {user : Comparator} {recs : Nat → List Stored} {v : Version} {c : Compaction} {snap next : Nat}
  {f g : FileMetaData} {input : List Stored} {outs : List (Nat × List Stored)} {edit : VersionEdit}
  {tableSize : List (List Byte × List Byte) → Nat}

def outputFiles (tableSize : List (List Byte × List Byte) → Nat) (outs : List (Nat × List Stored)) :
    List FileMetaData :=
  outs.map fun o => tableMeta tableSize o.1 (o.2.map Stored.entry)

theorem Compaction.Writes.mem (writes : c.Writes user snap input outs) {o : Nat × List Stored}
    (member : o ∈ outs) {r : Stored} (inside : r ∈ o.2) : r ∈ c.kept user snap none input := by
  rw [← writes.kept]
  exact List.mem_flatten.mpr ⟨o.2, List.mem_map_of_mem member, inside⟩

theorem Compaction.Writes.source (writes : c.Writes user snap input outs) (reads : c.Reads user recs input)
    {o : Nat × List Stored} (member : o ∈ outs) {r : Stored} (inside : r ∈ o.2) :
      ∃ i f, c.Input i f ∧ r ∈ recs f.number :=
  (reads.mem_iff r).mp ((c.kept_sublist none input).mem (writes.mem member inside))

/-- Each output is in order, and so are the outputs. -/
theorem Compaction.Writes.inOrder (writes : c.Writes user snap input outs) (reads : c.Reads user recs input) :
    (∀ o ∈ outs, InOrder user o.2) ∧ outs.Pairwise fun a b => ∀ r ∈ a.2, ∀ r' ∈ b.2,
      (internalKeyComparator user).compare r.entry.1 r'.entry.1 = .lt := by
  have order := List.pairwise_map.mp (c.kept_inOrder snap reads.order)
  rw [← writes.kept] at order
  obtain ⟨each, between⟩ := List.pairwise_flatten.mp order
  exact ⟨fun o member => List.pairwise_map.mpr (each o.2 (List.mem_map_of_mem member)), List.pairwise_map.mp between⟩

variable [trans : Std.TransCmp user.compare]

/-- A file left in the level of the outputs is before all inputs or behind them all. -/
theorem Compaction.Ready.apart (ready : c.Ready user recs v) (member : g ∈ v.files (c.level + 1))
    (other : g ∉ c.inputs.2) :
    (∀ i f, c.Input i f → (internalKeyComparator user).compare g.largest f.smallest = .lt) ∨
      ∀ i f, c.Input i f → high user f < low user g := by
  rcases ready.beside g member other with ⟨first, second⟩ | behind
  · refine Or.inl fun i f input => ?_
    rcases input with ⟨_, inside⟩ | ⟨_, inside⟩
    · exact key_lt_of_classOf_lt (first f inside)
    · exact second f inside
  · refine Or.inr fun i f input => behind f ?_
    rcases input with ⟨_, inside⟩ | ⟨_, inside⟩
    · exact List.mem_append_left _ inside
    · exact List.mem_append_right _ inside

/-- What is left in the levels up to that of the outputs is newer than the inputs where it has a user key of
theirs. -/
theorem Compaction.Ready.newer (ready : c.Ready user recs v) (ordered : v.Ordered user recs)
    (distinct : Distinct user (v.records recs)) {i j : Nat} (upper : i ≤ c.level + 1) (member : g ∈ v.files i)
    (other : ¬ c.Input i g) (input : c.Input j f) : Newer user (recs g.number) (recs f.number) := by
  have present := ready.present input
  rcases Nat.lt_or_ge i j with less | ge
  · exact ordered.order member present (Or.inl less)
  · rcases Nat.eq_or_lt_of_le upper with rfl | below
    · have file := ordered.isFile _ member
      have file' := ordered.isFile _ present
      rcases ready.apart member fun inside => other (Or.inr ⟨rfl, inside⟩) with before | behind
      · have bound := ready.inside
        refine newer_of_apart file file' distinct (fun r inFile => ?_) (fun r inFile => ?_) (before j f input)
        · exact Version.mem_records.mpr ⟨c.level + 1, bound, g, member, inFile⟩
        · exact Version.mem_records.mpr ⟨j, by omega, f, present, inFile⟩
      · exact newer_of_high_lt file' file (behind j f input)
    · rcases input with ⟨rfl, inside⟩ | ⟨rfl, inside⟩
      · obtain rfl : i = c.level := by omega
        exact ready.left g member (fun inside => other (Or.inl ⟨rfl, inside⟩)) f inside
      · omega

/-- The files of the new version. -/
theorem Compaction.Ready.mem_install (ready : c.Ready user recs v) (numbered : v.Numbered next) (start : edit.NoFiles)
    {outputs : List FileMetaData} (distinct : outputs.Pairwise fun f g => f.number ≠ g.number)
    (new : ∀ f ∈ outputs, f.number < next ∧ ∀ level, ∀ g ∈ v.files level, g.number ≠ f.number) :
    (c.installCompactionResults edit outputs).Fits v next ∧ ∀ {level f},
      f ∈ (v.apply user (c.installCompactionResults edit outputs)).files level ↔
        f ∈ v.files level ∧ ¬ c.Input level f ∨ level = c.level + 1 ∧ f ∈ outputs := by
  have added {level : Nat} {f : FileMetaData} : (level, f) ∈ (c.installCompactionResults edit outputs).newFiles ↔
      level = c.level + 1 ∧ f ∈ outputs := by
    rw [installed_new start, List.mem_map]
    constructor
    · rintro ⟨g, member, same⟩
      cases same
      exact ⟨rfl, member⟩
    · rintro ⟨rfl, member⟩
      exact ⟨f, member, rfl⟩
  have fits : (c.installCompactionResults edit outputs).Fits v next := by
    refine ⟨?_, fun member => (new _ (added.mp member).2).1, fun {level f i g} member old same => ?_⟩
    · rw [FreshFiles, installed_new start]
      exact List.pairwise_map.mpr distinct
    · exact absurd same ((new f (added.mp member).2).2 i g old)
  refine ⟨fits, fun {level f} => ?_⟩
  rw [fits.mem_apply, added, mem_installed_deleted start]
  refine or_congr_left (and_congr_right fun old => not_congr ⟨fun ⟨g, input, same⟩ => ?_, fun input => ⟨f, input, rfl⟩⟩)
  exact (numbered.unique (ready.present input) old same).2 ▸ input

structure Compaction.Finished (user : Comparator) [Std.TransCmp user.compare] (recs : Nat → List Stored)
    (next : Nat) (v : Version) (c : Compaction) (snap : Nat) (edit : VersionEdit) (input : List Stored)
    (outs : List (Nat × List Stored)) : Prop where
  ready : c.Ready user recs v
  reads : c.Reads user recs input
  writes : c.Writes user snap input outs
  start : edit.NoFiles
  numbers : outs.Pairwise fun a b => a.1 ≠ b.1
  new : ∀ o ∈ outs, o.1 < next ∧ ∀ level, ∀ g ∈ v.files level, g.number ≠ o.1

def Compaction.result (user : Comparator) (v : Version) (c : Compaction) (edit : VersionEdit)
    (tableSize : List (List Byte × List Byte) → Nat) (outs : List (Nat × List Stored)) : Version :=
  v.apply user (c.installCompactionResults edit (outputFiles tableSize outs))

namespace Compaction.Finished

theorem written_old (finished : c.Finished user recs next v snap edit input outs) {level : Nat}
    (member : f ∈ v.files level) :
    written recs outs f.number = recs f.number :=
  written_of_new fun o output => ((finished.new o output).2 level f member).symm

theorem fits_and_mem (finished : c.Finished user recs next v snap edit input outs) (numbered : v.Numbered next)
    (tableSize : List (List Byte × List Byte) → Nat) :
    (c.installCompactionResults edit (outputFiles tableSize outs)).Fits v next ∧ ∀ {level f},
      f ∈ (c.result user v edit tableSize outs).files level ↔
        f ∈ v.files level ∧ ¬ c.Input level f ∨ level = c.level + 1 ∧ f ∈ outputFiles tableSize outs := by
  refine finished.ready.mem_install numbered finished.start (List.pairwise_map.mpr finished.numbers) fun f member => ?_
  obtain ⟨o, output, rfl⟩ := List.mem_map.mp member
  exact finished.new o output

theorem mem_newFiles (finished : c.Finished user recs next v snap edit input outs) {level : Nat} :
    (level, f) ∈ (c.installCompactionResults edit (outputFiles tableSize outs)).newFiles ↔
      level = c.level + 1 ∧ f ∈ outputFiles tableSize outs := by
  rw [installed_new finished.start, List.mem_map]
  constructor
  · rintro ⟨g, member, same⟩
    cases same
    exact ⟨rfl, member⟩
  · rintro ⟨rfl, member⟩
    exact ⟨f, member, rfl⟩

theorem isFile (finished : c.Finished user recs next v snap edit input outs) (member : f ∈ outputFiles tableSize outs) :
    ∃ o ∈ outs, written recs outs f.number = o.2 ∧ f.number = o.1 ∧ FileOf user f o.2 := by
  obtain ⟨o, output, rfl⟩ := List.mem_map.mp member
  have order := (finished.writes.inOrder finished.reads).1 o output
  exact ⟨o, output, written_eq finished.numbers output, rfl,
    fileOf_tableMeta tableSize o.1 order (finished.writes.nonempty o output)⟩

/-- What is in an output is in an input. -/
theorem source (finished : c.Finished user recs next v snap edit input outs) (member : f ∈ outputFiles tableSize outs)
    {r : Stored} (inside : r ∈ written recs outs f.number) : ∃ i g, c.Input i g ∧ r ∈ recs g.number := by
  obtain ⟨o, output, same, _⟩ := finished.isFile member
  exact finished.writes.source finished.reads output (same ▸ inside)

theorem outputFiles_apart (finished : c.Finished user recs next v snap edit input outs) :
    (outputFiles tableSize outs).Pairwise (Apart user) := by
  obtain ⟨each, between⟩ := finished.writes.inOrder finished.reads
  refine List.pairwise_map.mpr (between.imp_of_mem fun {a b} inA inB less => Or.inl ?_)
  have file := fileOf_tableMeta tableSize a.1 (each a inA) (finished.writes.nonempty a inA)
  have file' := fileOf_tableMeta tableSize b.1 (each b inB) (finished.writes.nonempty b inB)
  obtain ⟨last, tail, isLast⟩ := file.largest
  obtain ⟨first, head, isFirst⟩ := file'.smallest
  rw [isLast, isFirst]
  exact less last (List.mem_of_getLast? tail) first (List.mem_of_mem_head? head)

/-- An output is apart from the other files of its level. -/
theorem apart (finished : c.Finished user recs next v snap edit input outs) (ordered : v.Ordered user recs)
    (output : f ∈ outputFiles tableSize outs)
    (member : g ∈ v.files (c.level + 1) ∧ ¬ c.Input (c.level + 1) g ∨ g ∈ outputFiles tableSize outs)
    (different : f ≠ g) :
    Apart user f g := by
  have keys : Std.TransCmp (internalKeyComparator user).compare := InternalKeyComparator.transCmp trans
  rcases member with ⟨old, other⟩ | output'
  · obtain ⟨o, inOuts, _, _, file⟩ := finished.isFile output
    rcases finished.ready.apart old fun inside => other (Or.inr ⟨rfl, inside⟩) with before | behind
    · obtain ⟨first, head, smallest⟩ := file.smallest
      obtain ⟨i, h, isInput, inside⟩ := finished.writes.source finished.reads inOuts (List.mem_of_mem_head? head)
      have present := (ordered.isFile i (finished.ready.present isInput)).smallest_le inside
      exact Or.inr (smallest ▸ keys.lt_of_lt_of_isLE (before i h isInput) present)
    · obtain ⟨last, tail, largest⟩ := file.largest
      obtain ⟨i, h, isInput, inside⟩ := finished.writes.source finished.reads inOuts (List.mem_of_getLast? tail)
      have present := (ordered.isFile i (finished.ready.present isInput)).le_largest inside
      exact Or.inl (largest ▸ keys.lt_of_isLE_of_lt present (key_lt_of_classOf_lt (behind i h isInput)))
  · exact List.Pairwise.forall finished.outputFiles_apart output output' different

theorem kept (finished : c.Finished user recs next v snap edit input outs) (keeps : v.Kept user recs next)
    (distinct : Distinct user (v.records recs)) (few : next < 2 ^ 31) (tableSize : List (List Byte × List Byte) → Nat) :
    (c.result user v edit tableSize outs).Kept user (written recs outs) next := by
  obtain ⟨fits, mem⟩ := finished.fits_and_mem keeps.numbered tableSize
  have same (level) (f) (member : f ∈ v.files level) := finished.written_old member
  refine keeps.apply fits (Nat.le_refl _) few same (fun level f new => ?_)
    (fun level _ f g new member different => ?_) fun {i j f g} first second precedes new => ?_
  · obtain ⟨rfl, output⟩ := finished.mem_newFiles.mp new
    obtain ⟨o, _, same, _, file⟩ := finished.isFile output
    exact ⟨finished.ready.inside, same ▸ file⟩
  · obtain ⟨rfl, output⟩ := finished.mem_newFiles.mp new
    exact finished.apart keeps.ordered output ((mem.mp member).imp_right And.right) different
  · have below : i < j := by
      rcases precedes with less | ⟨rfl, rfl, _⟩
      · exact less
      · rcases new with new | new
        · exact absurd (finished.mem_newFiles.mp new).1 (Nat.succ_ne_zero _).symm
        · exact absurd (finished.mem_newFiles.mp new).1 (Nat.succ_ne_zero _).symm
    intro r inside r' inside'
    rcases mem.mp first with ⟨old, other⟩ | ⟨rfl, output⟩
    · rcases mem.mp second with ⟨old', _⟩ | ⟨rfl, output⟩
      · rw [finished.written_old old] at inside
        rw [finished.written_old old'] at inside'
        exact keeps.ordered.order old old' precedes r inside r' inside'
      · obtain ⟨k, h, isInput, present⟩ := finished.source output inside'
        rw [finished.written_old old] at inside
        exact finished.ready.newer keeps.ordered distinct (Nat.le_of_lt below) old other isInput r inside r' present
    · rcases mem.mp second with ⟨old', _⟩ | ⟨rfl, _⟩
      · obtain ⟨k, h, isInput, present⟩ := finished.source output inside
        rw [finished.written_old old'] at inside'
        have upper : k ≤ c.level + 1 := by
          rcases isInput with ⟨rfl, _⟩ | ⟨rfl, _⟩ <;> omega
        have less := Nat.lt_of_le_of_lt upper below
        exact keeps.ordered.order (finished.ready.present isInput) old' (Or.inl less) r present r' inside'
      · omega

/-- What a compaction leaves out no reader from the smallest snapshot on would see. -/
theorem prunes (finished : c.Finished user recs next v snap edit input outs) (keeps : v.Kept user recs next)
    (distinct : Distinct user (v.records recs)) (tableSize : List (List Byte × List Byte) → Nat) (userKey : List Byte) :
    Prunes Stored.sequence (fun r => r.key.type = .deletion) snap (Of user userKey (v.records recs))
      (Of user userKey ((c.result user v edit tableSize outs).records (written recs outs))) := by
  obtain ⟨_, mem⟩ := finished.fits_and_mem keeps.numbered tableSize
  have fromInput {i : Nat} {f : FileMetaData} (isInput : c.Input i f) {r : Stored} (inside : r ∈ recs f.number) :
      r ∈ v.records recs := by
    have bound := finished.ready.inside
    refine Version.mem_records.mpr ⟨i, ?_, f, finished.ready.present isInput, inside⟩
    rcases isInput with ⟨rfl, _⟩ | ⟨rfl, _⟩ <;> omega
  have isRead {r : Stored} (member : r ∈ input) : r ∈ v.records recs := by
    obtain ⟨i, f, isInput, inside⟩ := (finished.reads.mem_iff r).mp member
    exact fromInput isInput inside
  refine ⟨fun r ⟨member, same⟩ => ⟨?_, same⟩, fun r ⟨member, same⟩ => ?_⟩
  · obtain ⟨level, bound, f, inLevel, inside⟩ := Version.mem_records.mp member
    rcases mem.mp inLevel with ⟨old, _⟩ | ⟨rfl, output⟩
    · exact Version.mem_records.mpr ⟨level, bound, f, old, finished.written_old old ▸ inside⟩
    · obtain ⟨i, g, isInput, present⟩ := finished.source output inside
      exact fromInput isInput present
  obtain ⟨level, bound, f, inLevel, inside⟩ := Version.mem_records.mp member
  by_cases isInput : c.Input level f
  · have distinctInput : Distinct user input := fun a inA b inB => distinct a (isRead inA) b (isRead inB)
    rcases c.kept_or snap finished.reads.order distinctInput
      ((finished.reads.mem_iff r).mpr ⟨level, f, isInput, inside⟩) with stays | ⟨r', shadow, sameUser, newer,
      seen⟩ | ⟨marks, base, above⟩
    · rw [← finished.writes.kept] at stays
      obtain ⟨_, inOuts, present⟩ := List.mem_flatten.mp stays
      obtain ⟨o, output, rfl⟩ := List.mem_map.mp inOuts
      refine Or.inl ⟨Version.mem_records.mpr ⟨c.level + 1, finished.ready.inside,
        tableMeta tableSize o.1 (o.2.map Stored.entry), mem.mpr (Or.inr ⟨rfl, List.mem_map_of_mem output⟩), ?_⟩, same⟩
      have stored : written recs outs o.1 = o.2 := written_eq finished.numbers output
      exact stored.symm ▸ present
    · exact Or.inr (Or.inl ⟨r', ⟨isRead shadow, Std.TransCmp.eq_trans sameUser same⟩, newer, seen⟩)
    · refine Or.inr (Or.inr ⟨marks, fun r' ⟨member', same'⟩ => ?_⟩)
      have users : user.compare r'.key.userKey r.key.userKey = .eq := same_user same' same
      obtain ⟨level', bound', g, inLevel', inside'⟩ := Version.mem_records.mp member'
      rcases mem.mp inLevel' with ⟨old, other⟩ | ⟨rfl, output⟩
      · rw [finished.written_old old] at inside'
        rcases Nat.lt_or_ge (c.level + 1) level' with lower | upper
        · exact absurd users (finished.ready.base isInput r inside base level' lower bound' g old r' inside')
        · exact finished.ready.newer keeps.ordered distinct upper old other isInput r' inside' r inside users
      · obtain ⟨o, inOuts, written, _⟩ := finished.isFile output
        exact above r' (finished.writes.mem inOuts (written ▸ inside')) users
  · exact Or.inl ⟨Version.mem_records.mpr ⟨level, bound, f, mem.mpr (Or.inl ⟨inLevel, isInput⟩),
      (finished.written_old inLevel).symm ▸ inside⟩, same⟩

end Compaction.Finished

def Compaction.moved (user : Comparator) (v : Version) (c : Compaction) (edit : VersionEdit) (f : FileMetaData) :
    Version :=
  v.apply user (c.moveFile edit f)

section Move

variable (ready : c.Ready user recs v) (keeps : v.Kept user recs next) (start : edit.NoFiles)
  (single : c.inputs = ([f], []))

include ready keeps start single

theorem Compaction.Ready.mem_moved :
    (c.moveFile edit f).Fits v next ∧ ∀ {level g}, g ∈ (c.moved user v edit f).files level ↔
    g ∈ v.files level ∧ ¬ (level = c.level ∧ g = f) ∨ level = c.level + 1 ∧ g = f := by
  have present : f ∈ v.files c.level := ready.present (Or.inl ⟨rfl, by simp [single]⟩)
  have added : (c.moveFile edit f).newFiles = [(c.level + 1, f)] := by
    simp [moveFile, VersionEdit.addFile, VersionEdit.removeFile, start.new]
  have deleted {x : Nat × Nat} : x ∈ (c.moveFile edit f).deletedFiles ↔ x = (c.level, f.number) := by
    simp only [moveFile, VersionEdit.addFile, VersionEdit.mem_removeFile, start.deleted, List.not_mem_nil, or_false]
  have fits : (c.moveFile edit f).Fits v next := by
    refine ⟨?_, fun {level g} member => ?_, fun {level g i h} member old same => ?_⟩
    · rw [FreshFiles, added]
      exact List.pairwise_singleton _ _
    · cases List.mem_singleton.mp (added ▸ member)
      exact keeps.numbered.below c.level f present
    · cases List.mem_singleton.mp (added ▸ member)
      obtain ⟨rfl, rfl⟩ := keeps.numbered.unique old present same
      exact ⟨Nat.ne_of_lt (Nat.lt_succ_self _), deleted.mpr rfl⟩
  refine ⟨fits, fun {level g} => ?_⟩
  rw [moved, fits.mem_apply, added, deleted, List.mem_singleton, Prod.mk.injEq, Prod.mk.injEq]
  refine or_congr_left (and_congr_right fun old => not_congr
    (and_congr_right fun here => ⟨fun same => ?_, fun same => ?_⟩))
  · exact (keeps.numbered.unique old present same).2
  · rw [same]

theorem Compaction.Ready.moved_kept (distinct : Distinct user (v.records recs)) (few : next < 2 ^ 31) :
    (c.moved user v edit f).Kept user recs next := by
  have present : f ∈ v.files c.level := ready.present (Or.inl ⟨rfl, by simp [single]⟩)
  have isInput {i : Nat} {g : FileMetaData} : c.Input i g ↔ i = c.level ∧ g = f := by simp [Input, single]
  obtain ⟨fits, mem⟩ := ready.mem_moved keeps start single
  have added {level : Nat} {g : FileMetaData} : (level, g) ∈ (c.moveFile edit f).newFiles ↔
      level = c.level + 1 ∧ g = f := by
    simp [moveFile, VersionEdit.addFile, VersionEdit.removeFile, start.new]
  refine keeps.apply fits (Nat.le_refl _) few (fun _ _ _ => rfl) (fun level g new => ?_)
    (fun level _ g h new member different => ?_) fun {i j g h} first second precedes new => ?_
  · obtain ⟨rfl, rfl⟩ := added.mp new
    exact ⟨ready.inside, keeps.ordered.isFile c.level present⟩
  · obtain ⟨rfl, rfl⟩ := added.mp new
    have old : h ∈ v.files (c.level + 1) := ((mem.mp member).resolve_right fun both => different both.2.symm).1
    rcases ready.apart old (by simp [single]) with before | behind
    · exact Or.inr (before c.level g (isInput.mpr ⟨rfl, rfl⟩))
    · exact Or.inl (key_lt_of_classOf_lt (behind c.level g (isInput.mpr ⟨rfl, rfl⟩)))
  · have below : i < j := by
      rcases precedes with less | ⟨rfl, rfl, _⟩
      · exact less
      · rcases new with new | new <;> exact absurd (added.mp new).1 (Nat.succ_ne_zero _).symm
    rcases mem.mp first with ⟨old, other⟩ | ⟨rfl, rfl⟩
    · rcases mem.mp second with ⟨old', _⟩ | ⟨rfl, rfl⟩
      · exact keeps.ordered.order old old' precedes
      · exact ready.newer keeps.ordered distinct (Nat.le_of_lt below) old (mt isInput.mp other) (isInput.mpr ⟨rfl, rfl⟩)
    · rcases mem.mp second with ⟨old', _⟩ | ⟨rfl, rfl⟩
      · exact keeps.ordered.order present old' (Or.inl (by omega))
      · exact absurd below (Nat.lt_irrefl _)

/-- A move changes no record. -/
theorem Compaction.Ready.moved_records (r : Stored) :
    r ∈ (c.moved user v edit f).records recs ↔ r ∈ v.records recs := by
  have present : f ∈ v.files c.level := ready.present (Or.inl ⟨rfl, by simp [single]⟩)
  have bound := ready.inside
  obtain ⟨_, mem⟩ := ready.mem_moved keeps start single
  rw [Version.mem_records, Version.mem_records]
  constructor
  · rintro ⟨level, below, g, member, inside⟩
    rcases mem.mp member with ⟨old, _⟩ | ⟨rfl, rfl⟩
    · exact ⟨level, below, g, old, inside⟩
    · exact ⟨c.level, by omega, g, present, inside⟩
  · rintro ⟨level, below, g, member, inside⟩
    by_cases same : level = c.level ∧ g = f
    · exact ⟨c.level + 1, bound, g, mem.mpr (Or.inr ⟨rfl, same.2⟩), inside⟩
    · exact ⟨level, below, g, mem.mpr (Or.inl ⟨member, same⟩), inside⟩

end Move

end Install

end WormholeFilters.LevelDb
