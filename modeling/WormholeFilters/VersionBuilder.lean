import Mathlib.Data.List.TakeWhile
import WormholeFilters.OverlappingInputs
import WormholeFilters.VersionEdit

/-! `VersionSet::Builder`, db/version_set.cc: a version with edits applied to it. -/
namespace WormholeFilters.LevelDb

open LittleEndian
open OrderedSets (Ascending)

def bySmallestKey (user : Comparator) (f g : FileMetaData) : Ordering :=
  ((internalKeyComparator user).compare f.smallest g.smallest).then (Ord.compare f.number g.number)

structure LevelState where
  deletedFiles : List Nat
  addedFiles : List FileMetaData
  deriving DecidableEq, Repr

section Model

variable (user : Comparator)

abbrev Levels : Type := Nat → LevelState

def Levels.start : Levels := fun _ => ⟨[], []⟩

def Levels.delete (levels : Levels) (level number : Nat) : Levels :=
  Function.update levels level
    { levels level with deletedFiles := OrderedSets.insert Ord.compare number (levels level).deletedFiles }

def Levels.add (levels : Levels) (level : Nat) (f : FileMetaData) : Levels :=
  Function.update levels level
    ⟨(levels level).deletedFiles.filter (· ≠ f.number), OrderedSets.insert (bySmallestKey user) f
    (levels level).addedFiles⟩

/-- Deletions first. -/
def Levels.apply (levels : Levels) (e : VersionEdit) : Levels :=
  e.newFiles.foldl (fun levels (level, f) => levels.add user level f)
    (e.deletedFiles.foldl (fun levels (level, number) => levels.delete level number) levels)

/-- The files of both lists. `base` is searched for the place of each added file, as `std::upper_bound` does. -/
def mergeFiles : List FileMetaData → List FileMetaData → List FileMetaData
  | [], base => base
  | a :: added, base =>
    base.takeWhile (fun f => bySmallestKey user a f ≠ .lt) ++
      a :: mergeFiles added (base.dropWhile fun f => bySmallestKey user a f ≠ .lt)

def LevelState.save (s : LevelState) (base : List FileMetaData) : List FileMetaData :=
  (mergeFiles user s.addedFiles base).filter fun f => f.number ∉ s.deletedFiles

def Levels.saveTo (levels : Levels) (base : Version) :
    Version := ⟨fun level => (levels level).save user (base.files level)⟩

/-- The version that `LogAndApply` makes current. -/
def Version.apply (v : Version) (e : VersionEdit) : Version := (Levels.start.apply user e).saveTo user v

end Model

section Apply

variable {user : Comparator} {levels : Levels} {level : Nat} {e : VersionEdit} {f : FileMetaData}

theorem mem_delete {n : Nat} (l number : Nat) :
    n ∈ (levels.delete l number level).deletedFiles ↔ n ∈ (levels level).deletedFiles ∨ level = l ∧ n = number := by
  by_cases same : level = l
  · subst same
    have equal : ∀ z ∈ (levels level).deletedFiles, Ord.compare number z = .eq → z = number :=
      fun z _ eq => (Nat.compare_eq_eq.mp eq).symm
    simp only [Levels.delete, Function.update_self, OrderedSets.mem_insert_iff equal, true_and]
    exact or_comm
  · simp [Levels.delete, same]

@[simp] theorem addedFiles_delete (l number : Nat) :
    (levels.delete l number level).addedFiles = (levels level).addedFiles := by
  by_cases same : level = l
  · subst same
    simp [Levels.delete]
  · simp [Levels.delete, same]

theorem foldl_delete (deleted : List (Nat × Nat)) (levels : Levels) (level : Nat) :
    let levels' := deleted.foldl (fun levels (level, number) => levels.delete level number) levels
    (levels' level).addedFiles = (levels level).addedFiles ∧
      ∀ n, n ∈ (levels' level).deletedFiles ↔ n ∈ (levels level).deletedFiles ∨ (level, n) ∈ deleted := by
  induction deleted generalizing levels with
  | nil => simp
  | cons x deleted ih =>
    obtain ⟨added, members⟩ := ih (levels.delete x.1 x.2)
    refine ⟨by simpa using added, fun n => ?_⟩
    rw [List.foldl_cons, members, mem_delete, List.mem_cons, Prod.ext_iff]
    exact or_assoc

theorem deletedFiles_add {n : Nat} (l : Nat) (g : FileMetaData) :
    n ∈ (levels.add user l g level).deletedFiles ↔ n ∈ (levels level).deletedFiles ∧ (level = l → n ≠ g.number) := by
  by_cases same : level = l
  · subst same
    simp [Levels.add]
  · simp [Levels.add, same]

theorem bySmallestKey_eq {f g : FileMetaData} (same : bySmallestKey user f g = .eq) : f.number = g.number :=
  Nat.compare_eq_eq.mp (Ordering.then_eq_eq.mp same).2

theorem addedFiles_add (user : Comparator) (l : Nat) (g : FileMetaData)
    (new : ∀ h ∈ (levels level).addedFiles, level = l → h.number ≠ g.number) :
    f ∈ (levels.add user l g level).addedFiles ↔ f ∈ (levels level).addedFiles ∨ level = l ∧ f = g := by
  by_cases same : level = l
  · subst same
    have equal : ∀ h ∈ (levels level).addedFiles, bySmallestKey user g h = .eq → h = g :=
      fun h member eq => absurd (bySmallestKey_eq eq).symm (new h member rfl)
    simp only [Levels.add, Function.update_self, OrderedSets.mem_insert_iff equal, true_and]
    exact or_comm
  · simp [Levels.add, same]

/-- The files added have numbers of their own. -/
def FreshFiles (newFiles : List (Nat × FileMetaData)) : Prop := newFiles.Pairwise fun a b => a.2.number ≠ b.2.number

theorem foldl_add (user : Comparator) (newFiles : List (Nat × FileMetaData)) (levels : Levels) (level : Nat)
    (fresh : FreshFiles newFiles) (new : ∀ h ∈ (levels level).addedFiles, ∀ x ∈ newFiles, h.number ≠ x.2.number) :
    let levels' := newFiles.foldl (fun levels (level, f) => levels.add user level f) levels
    (∀ f, f ∈ (levels' level).addedFiles ↔ f ∈ (levels level).addedFiles ∨ (level, f) ∈ newFiles) ∧
      ∀ n, n ∈ (levels' level).deletedFiles ↔ n ∈ (levels level).deletedFiles ∧ ∀ f, (level, f) ∈ newFiles →
      n ≠ f.number := by
  induction newFiles generalizing levels with
  | nil => simp
  | cons x newFiles ih =>
    obtain ⟨first, fresh'⟩ := List.pairwise_cons.mp fresh
    have adds (h : FileMetaData) := addedFiles_add (f := h) user x.1 x.2 fun h member _ =>
      new h member x (List.mem_cons_self ..)
    obtain ⟨added, deleted⟩ := ih (levels.add user x.1 x.2) fresh' fun h member y later => by
      rcases (adds h).mp member with old | ⟨_, rfl⟩
      · exact new h old y (List.mem_cons_of_mem _ later)
      · exact first y later
    refine ⟨fun f => ?_, fun n => ?_⟩
    · rw [List.foldl_cons, added, adds, List.mem_cons, Prod.ext_iff]
      exact or_assoc
    · rw [List.foldl_cons, deleted, deletedFiles_add]
      simp only [List.mem_cons, Prod.ext_iff, and_assoc, and_congr_right_iff]
      refine fun _ => ⟨fun ⟨here, later⟩ g member => ?_,
        fun all => ⟨fun here => ?_, fun g member => all g (Or.inr member)⟩⟩
      · rcases member with ⟨same, rfl⟩ | inside
        · exact here same
        · exact later g inside
      · exact all x.2 (Or.inl ⟨here, rfl⟩)

end Apply

section Save

variable {user : Comparator} {added base files : List FileMetaData} {f g : FileMetaData} {recs : Nat → List Stored}

theorem mem_mergeFiles : f ∈ mergeFiles user added base ↔ f ∈ added ∨ f ∈ base := by
  induction added generalizing base with
  | nil => simp [mergeFiles]
  | cons a added ih =>
    have whole := congrArg (f ∈ ·) (List.takeWhile_append_dropWhile (p := fun f => bySmallestKey user a f ≠ .lt)
      (l := base))
    simp only [List.mem_append, eq_iff_iff] at whole
    rw [mergeFiles, List.mem_append, List.mem_cons, ih, List.mem_cons, ← whole]
    constructor
    · rintro (early | same | inside | late)
      · exact Or.inr (Or.inl early)
      · exact Or.inl (Or.inl same)
      · exact Or.inl (Or.inr inside)
      · exact Or.inr (Or.inr late)
    · rintro ((same | inside) | early | late)
      · exact Or.inr (Or.inl same)
      · exact Or.inr (Or.inr (Or.inl inside))
      · exact Or.inl early
      · exact Or.inr (Or.inr (Or.inr late))

theorem bySmallestKey_transCmp (trans : Std.TransCmp user.compare) : Std.TransCmp (bySmallestKey user) := by
  have keys : Std.TransCmp (internalKeyComparator user).compare := InternalKeyComparator.transCmp trans
  have first : Std.TransCmp fun f g : FileMetaData => (internalKeyComparator user).compare f.smallest g.smallest :=
    { eq_swap := keys.eq_swap, isLE_trans := keys.isLE_trans }
  have both : Std.TransCmp
      (compareLex (fun f g : FileMetaData => (internalKeyComparator user).compare f.smallest g.smallest)
        (compareOn FileMetaData.number)) := inferInstance
  exact both

/-- The merge of two ascending lists without a number in common is ascending. -/
theorem mergeFiles_ascending (trans : Std.TransCmp user.compare) (first : Ascending (bySmallestKey user) added)
    (second : Ascending (bySmallestKey user) base) (new : ∀ a ∈ added, ∀ f ∈ base, a.number ≠ f.number) :
    Ascending (bySmallestKey user) (mergeFiles user added base) := by
  have order := bySmallestKey_transCmp trans
  induction added generalizing base with
  | nil => exact second
  | cons a added ih =>
    obtain ⟨above, first'⟩ := List.pairwise_cons.mp first
    obtain ⟨fresh, new'⟩ := List.forall_mem_cons.mp new
    have split := List.takeWhile_append_dropWhile (p := fun f => bySmallestKey user a f ≠ .lt) (l := base)
    have below : ∀ f ∈ base.takeWhile (fun f => bySmallestKey user a f ≠ .lt), bySmallestKey user f a = .lt := by
      intro f member
      have notLess := List.mem_takeWhile_imp member
      have different : bySmallestKey user a f ≠ .eq :=
        mt bySmallestKey_eq (fresh f ((List.takeWhile_sublist _).mem member))
      have swapped : bySmallestKey user f a = (bySmallestKey user a f).swap := Std.OrientedCmp.eq_swap
      rw [swapped]
      revert notLess different
      cases bySmallestKey user a f <;> simp
    have behind : ∀ f ∈ base.dropWhile (fun f => bySmallestKey user a f ≠ .lt), bySmallestKey user a f = .lt := by
      have start := List.head?_dropWhile_not (fun f => bySmallestKey user a f ≠ .lt) base
      rw [← split] at second
      have rest := (List.pairwise_append.mp second).2.1
      generalize base.dropWhile (fun f => bySmallestKey user a f ≠ .lt) = late at start rest
      cases late with
      | nil => simp
      | cons f late =>
        have less : bySmallestKey user a f = .lt := by simpa using start
        refine List.forall_mem_cons.mpr ⟨less, fun g member => ?_⟩
        exact order.lt_trans less ((List.pairwise_cons.mp rest).1 g member)
    have second' := second
    rw [← split] at second'
    obtain ⟨early, late, cross⟩ := List.pairwise_append.mp second'
    have tail := ih first' late fun b member f inside => new' b member f ((List.dropWhile_sublist _).mem inside)
    rw [mergeFiles]
    refine List.pairwise_append.mpr ⟨early, List.pairwise_cons.mpr ⟨fun g member => ?_, tail⟩,
      fun f member g inside => ?_⟩
    · exact (mem_mergeFiles.mp member).elim (above g) (behind g)
    · rcases List.mem_cons.mp inside with rfl | later
      · exact below f member
      · rcases mem_mergeFiles.mp later with isAdded | isBase
        · exact order.lt_trans (below f member) (above g isAdded)
        · exact cross f member g isBase

/-- All keys of one file are before all keys of the other. -/
def Apart (user : Comparator) (f g : FileMetaData) : Prop :=
  (internalKeyComparator user).compare f.largest g.smallest = .lt ∨
    (internalKeyComparator user).compare g.largest f.smallest = .lt

instance : Std.Symm (Apart user) := ⟨fun _ _ => Or.symm⟩

/-- Files in the order of their smallest keys that are apart from each other are a sorted level. -/
theorem sortedLevel_of_ascending (trans : Std.TransCmp user.compare) (ascending : Ascending (bySmallestKey user) files)
    (isFile : ∀ f ∈ files, FileOf user f (recs f.number)) (few : files.length < 2 ^ 31)
    (apart : ∀ f ∈ files, ∀ g ∈ files, f ≠ g → Apart user f g) : SortedLevel user recs files := by
  have keys : Std.TransCmp (internalKeyComparator user).compare := InternalKeyComparator.transCmp trans
  have order := bySmallestKey_transCmp trans
  refine ⟨isFile, ascending.imp_of_mem fun {f g} first second less => ?_, few⟩
  have different : f ≠ g := by
    rintro rfl
    exact order.not_lt_of_lt less less
  refine (apart f first g second different).resolve_right fun greater => ?_
  have above := keys.lt_of_isLE_of_lt (isFile g second).smallest_le_largest greater
  rw [bySmallestKey, Std.OrientedCmp.gt_of_lt above] at less
  cases less

end Save

section Result

variable {user : Comparator} {v : Version} {e : VersionEdit} {f : FileMetaData} {level : Nat} {levels : Levels}

def Version.Ascending (user : Comparator) (v : Version) :
    Prop := ∀ level, OrderedSets.Ascending (bySmallestKey user) (v.files level)

theorem foldl_add_ascending (trans : Std.TransCmp user.compare) (newFiles : List (Nat × FileMetaData))
    (ascending : ∀ level, OrderedSets.Ascending (bySmallestKey user) (levels level).addedFiles) (level : Nat) :
    OrderedSets.Ascending (bySmallestKey user)
      ((newFiles.foldl (fun levels (level, f) => levels.add user level f) levels) level).addedFiles := by
  have order := bySmallestKey_transCmp trans
  induction newFiles generalizing levels with
  | nil => exact ascending level
  | cons x newFiles ih =>
    refine ih fun l => ?_
    by_cases same : l = x.1
    · subst same
      simpa [Levels.add] using (ascending x.1).insert x.2
    · simpa [Levels.add, same] using ascending l

/-- What a builder collects from edits, against the files of the version it starts from. -/
theorem Levels.apply_spec (user : Comparator) (levels : Levels) (level : Nat) (fresh : FreshFiles e.newFiles)
    (new : ∀ h ∈ (levels level).addedFiles, ∀ x ∈ e.newFiles, h.number ≠ x.2.number) :
    (∀ f, f ∈ (levels.apply user e level).addedFiles ↔ f ∈ (levels level).addedFiles ∨ (level, f) ∈ e.newFiles) ∧
      ∀ n, n ∈ (levels.apply user e level).deletedFiles ↔
        (n ∈ (levels level).deletedFiles ∨ (level, n) ∈ e.deletedFiles) ∧ ∀ f, (level, f) ∈ e.newFiles →
          n ≠ f.number := by
  obtain ⟨same, deleted⟩ := foldl_delete e.deletedFiles levels level
  obtain ⟨added, kept⟩ := foldl_add user e.newFiles
    (e.deletedFiles.foldl (fun levels (level, number) => levels.delete level number) levels) level fresh (by rwa [same])
  exact ⟨fun f => (added f).trans (by rw [same]), fun n => (kept n).trans (and_congr_left' (deleted n))⟩

/-- A file of the new version is one of the old or a new one, and not one deleted. -/
theorem Version.mem_apply (fresh : FreshFiles e.newFiles) : f ∈ (v.apply user e).files level ↔
    (f ∈ v.files level ∨ (level, f) ∈ e.newFiles) ∧
      ((level, f.number) ∈ e.deletedFiles → ∃ g, (level, g) ∈ e.newFiles ∧ f.number = g.number) := by
  obtain ⟨added, deleted⟩ := Levels.apply_spec user Levels.start level fresh (by simp [Levels.start])
  simp only [Version.apply, Levels.saveTo, LevelState.save, List.mem_filter, mem_mergeFiles, added, Levels.start,
    List.not_mem_nil, false_or, or_comm, decide_not, Bool.not_eq_eq_eq_not, Bool.not_true,
    decide_eq_false_iff_not, deleted,
    not_and, not_forall, not_not, exists_prop]

theorem Version.apply_ascending (trans : Std.TransCmp user.compare) (ascending : v.Ascending user)
    (fresh : FreshFiles e.newFiles) (new : ∀ level f, (level, f) ∈ e.newFiles → ∀ g ∈ v.files level,
      f.number ≠ g.number) :
    (v.apply user e).Ascending user := by
  intro level
  obtain ⟨added, _⟩ := Levels.apply_spec user Levels.start level fresh (by simp [Levels.start])
  have sorted : OrderedSets.Ascending (bySmallestKey user) (Levels.start.apply user e level).addedFiles := by
    refine foldl_add_ascending trans e.newFiles (fun l => ?_) level
    rw [(foldl_delete e.deletedFiles Levels.start l).1]
    exact List.Pairwise.nil
  refine List.Pairwise.filter _ (mergeFiles_ascending trans sorted (ascending level) fun a member g inside => ?_)
  have isNew := ((added a).mp member).resolve_left List.not_mem_nil
  exact new level a isNew g inside

end Result

end WormholeFilters.LevelDb
