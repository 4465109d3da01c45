import WormholeFilters.CompactionWork
import WormholeFilters.OverlappingInputs

/-! The choice of the files of a compaction, db/version_set.cc: `PickCompaction`, `CompactRange`
and what they call. Sums of file sizes do not overflow. -/
namespace WormholeFilters.LevelDb

open LittleEndian
open KeyClasses (Class classOf)
open Spans (Covers Solid)

section Model

variable (user : Comparator)

def findLargestKey (files : List FileMetaData) : Option (List Byte) :=
  match files with
  | [] => none
  | f :: rest => some (rest.foldl (fun largest f =>
      if (internalKeyComparator user).compare f.largest largest = .gt then f.largest else largest) f.largest)

/-- The file goes on with the user key of a key before it. -/
def Continues (key : List Byte) (f : FileMetaData) : Prop :=
  (internalKeyComparator user).compare f.smallest key = .gt ∧ user.compare f.start (extractUserKey key) = .eq

instance (key : List Byte) (f : FileMetaData) : Decidable (Continues user key f) := inferInstanceAs (Decidable (_ ∧ _))

def findSmallestBoundaryFile (levelFiles : List FileMetaData) (largestKey : List Byte) : Option FileMetaData :=
  levelFiles.foldl (fun smallestBoundaryFile f =>
    if Continues user largestKey f then
      match smallestBoundaryFile with
      | none => some f
      | some g => if (internalKeyComparator user).compare f.smallest g.smallest = .lt then some f else some g
    else smallestBoundaryFile) none

def addBoundaryLoop (levelFiles : List FileMetaData) : Nat → List Byte → List FileMetaData → List FileMetaData
  | 0, _, compactionFiles => compactionFiles
  | fuel + 1, largestKey, compactionFiles =>
    match findSmallestBoundaryFile user levelFiles largestKey with
    | none => compactionFiles
    | some f => addBoundaryLoop levelFiles fuel f.largest (compactionFiles ++ [f])

def addBoundaryInputs (levelFiles compactionFiles : List FileMetaData) : List FileMetaData :=
  match findLargestKey user compactionFiles with
  | none => compactionFiles
  | some largestKey => addBoundaryLoop user levelFiles levelFiles.length largestKey compactionFiles

def totalFileSize (files : List FileMetaData) : Nat := (files.map FileMetaData.fileSize).sum

variable (maxFileSize : Nat)

def inputsWith (v : Version) (level : Nat) (inputs0 : List FileMetaData) : List FileMetaData :=
  let (smallest, largest) := getRange user inputs0
  addBoundaryInputs user (v.files (level + 1)) (v.getOverlappingInputs user (level + 1) (some smallest) (some largest))

/-- The compaction, and the largest key of its first inputs, where the next one of the level starts. -/
def setupOtherInputs (v : Version) (level : Nat) (inputs0 : List FileMetaData) : Compaction × List Byte :=
  let inputs0 := addBoundaryInputs user (v.files level) inputs0
  let inputs1 := inputsWith user v level inputs0
  let (allStart, allLimit) := getRange user (inputs0 ++ inputs1)
  let expanded0 := addBoundaryInputs user (v.files level)
    (v.getOverlappingInputs user level (some allStart) (some allLimit))
  let expanded1 := inputsWith user v level expanded0
  let (inputs0, inputs1) :=
    if inputs1 ≠ [] ∧ expanded0.length > inputs0.length ∧
        totalFileSize inputs1 + totalFileSize expanded0 < 25 * maxFileSize ∧ expanded1.length = inputs1.length
    then (expanded0, expanded1) else (inputs0, inputs1)
  let (allStart, allLimit) := getRange user (inputs0 ++ inputs1)
  let grandparents := if level + 2 < kNumLevels
    then v.getOverlappingInputs user (level + 2) (some allStart) (some allLimit) else []
  (⟨level, v, (inputs0, inputs1), grandparents, maxFileSize, 10 * maxFileSize⟩, (getRange user inputs0).2)

inductive Trigger where
  | size (level : Nat)
  | seek (level : Nat) (f : FileMetaData)
  deriving DecidableEq, Repr

def Trigger.level : Trigger → Nat
  | size level => level
  | seek level _ => level

def pickFile (v : Version) (compactPointer : Nat → List Byte) : Trigger → Option FileMetaData
  | .size level => ((v.files level).find? fun f => compactPointer level = [] ∨
      (internalKeyComparator user).compare f.largest (compactPointer level) = .gt).or (v.files level).head?
  | .seek _ f => some f

def pickCompaction (v : Version) (compactPointer : Nat → List Byte) (trigger : Trigger) :
    Option (Compaction × List Byte) :=
  (pickFile user v compactPointer trigger).map fun f =>
    let (smallest, largest) := getRange user [f]
    setupOtherInputs user maxFileSize v trigger.level
      (if trigger.level = 0 then v.getOverlappingInputs user 0 (some smallest) (some largest) else [f])

/-- The inputs of a manual compaction up to the limit of their size. -/
def limitInputs (limit : Nat) : Nat → List FileMetaData → List FileMetaData
  | _, [] => []
  | total, f :: rest => if total + f.fileSize ≥ limit then [f] else f :: limitInputs limit (total + f.fileSize) rest

def Version.compactRange (v : Version) (level : Nat) (lower upper : Option (List Byte)) :
    Option (Compaction × List Byte) :=
  let inputs := v.getOverlappingInputs user level lower upper
  if inputs = [] then none
  else some (setupOtherInputs user maxFileSize v level (if level > 0 then limitInputs maxFileSize 0 inputs else inputs))

def Compaction.isTrivialMove (c : Compaction) : Bool :=
  c.inputs.1.length = 1 ∧ c.inputs.2.length = 0 ∧ totalFileSize c.grandparents ≤ c.maxGrandParentOverlapBytes

end Model

section Boundary

variable {user : Comparator} [Std.TransCmp user.compare] {files before inputs pre post : List FileMetaData}
  {f g l : FileMetaData} {recs : Nat → List Stored} {key : List Byte}

omit [Std.TransCmp user.compare] in
theorem findSmallestBoundaryFile_spec (strict : MergingIter.Strict (internalKeyComparator user) .lt)
    (files : List FileMetaData) (key : List Byte) :
    match findSmallestBoundaryFile user files key with
    | none => ∀ f ∈ files, ¬ Continues user key f
    | some f => f ∈ files ∧ Continues user key f ∧ ∀ g ∈ files, Continues user key g →
        (internalKeyComparator user).compare g.smallest f.smallest ≠ .lt := by
  induction files using List.reverseRecOn with
  | nil => exact fun _ member => absurd member (List.not_mem_nil)
  | append_singleton files f ih =>
    rw [findSmallestBoundaryFile, List.foldl_append, List.foldl_cons, List.foldl_nil, ← findSmallestBoundaryFile]
    generalize findSmallestBoundaryFile user files key = best at ih
    by_cases continues : Continues user key f
    · rw [if_pos continues]
      cases best with
      | none =>
        refine ⟨by simp, continues, List.forall_mem_append.mpr ⟨fun g member more => absurd more (ih g member), ?_⟩⟩
        simpa using fun _ => strict.irrefl f.smallest
      | some g =>
        obtain ⟨member, more, least⟩ := ih
        dsimp only
        by_cases smaller : (internalKeyComparator user).compare f.smallest g.smallest = .lt
        · rw [if_pos smaller]
          refine ⟨by simp, continues, List.forall_mem_append.mpr ⟨fun h inside more' less => ?_, ?_⟩⟩
          · exact least h inside more' (strict.trans less smaller)
          · simpa using fun _ => strict.irrefl f.smallest
        · rw [if_neg smaller]
          exact ⟨List.mem_append_left _ member, more, List.forall_mem_append.mpr
            ⟨least, by simpa using fun _ => smaller⟩⟩
    · rw [if_neg continues]
      cases best with
      | none => exact List.forall_mem_append.mpr ⟨ih, by simpa using continues⟩
      | some g =>
        refine ⟨List.mem_append_left _ ih.1, ih.2.1, List.forall_mem_append.mpr ⟨ih.2.2, ?_⟩⟩
        simpa using fun more => absurd more continues

omit [Std.TransCmp user.compare] in
theorem findLargestKey_eq (nonempty : inputs ≠ []) : findLargestKey user inputs = some (getRange user inputs).2 := by
  obtain ⟨f, rest, rfl⟩ := List.exists_cons_of_ne_nil nonempty
  rw [getRange_cons]
  rfl

/-- The next file starts with the user key that the file ends with. -/
def Linked (user : Comparator) (f g : FileMetaData) : Prop :=
  (internalKeyComparator user).compare f.largest g.smallest = .lt ∧ user.compare f.limit g.start = .eq

theorem continues_iff : Continues user f.largest g ↔ Linked user f g := by
  have trans : Std.TransCmp (internalKeyComparator user).compare := InternalKeyComparator.transCmp inferInstance
  exact and_congr Std.OrientedCmp.gt_iff_lt ⟨Std.OrientedCmp.eq_symm, Std.OrientedCmp.eq_symm⟩

theorem Linked.high_eq_low (linked : Linked user f g) : high user f = low user g := (KeyClasses.eq_iff ..).mp linked.2

theorem linked_iff (apart : (internalKeyComparator user).compare f.largest g.smallest = .lt) :
    Linked user f g ↔ high user f = low user g := by
  rw [Linked, KeyClasses.eq_iff]
  exact ⟨And.right, fun same => ⟨apart, same⟩⟩

theorem SortedLevel.smallest_le_largest (sorted : SortedLevel user recs files) (split : files = before ++ l :: post)
    (member : f ∈ before ++ [l]) :
    ((internalKeyComparator user).compare f.smallest l.largest).isLE ∧ high user f ≤ high user l := by
  have trans : Std.TransCmp (internalKeyComparator user).compare := InternalKeyComparator.transCmp inferInstance
  have isFile (g : FileMetaData) (inside : g ∈ before ++ l :: post) := sorted.file g (split ▸ inside)
  have last := isFile l (by simp)
  rcases List.mem_append.mp member with early | same
  · have apart := (List.pairwise_append.mp (split ▸ sorted.apart)).2.2 f early l (List.mem_cons_self ..)
    have first := (isFile f (List.mem_append_left _ early)).smallest_le_largest
    refine ⟨trans.isLE_trans first (trans.isLE_trans (Ordering.isLE_of_eq_lt apart) last.smallest_le_largest), ?_⟩
    exact le_trans (high_le_low_of_apart apart) last.low_le_high
  · rw [List.mem_singleton.mp same]
    exact ⟨last.smallest_le_largest, le_refl _⟩

/-- In a sorted level only the file that follows can go on with a user key. -/
theorem findSmallestBoundaryFile_sorted (sorted : SortedLevel user recs files) (split : files = before ++ l :: post) :
    (findSmallestBoundaryFile user files l.largest = none ∧ ∀ f ∈ before ++ [l], ∀ g ∈ post, high user f < low user g) ∨
      ∃ f rest, post = f :: rest ∧ Linked user l f ∧ findSmallestBoundaryFile user files l.largest = some f := by
  have trans : Std.TransCmp (internalKeyComparator user).compare := InternalKeyComparator.transCmp inferInstance
  have spec := findSmallestBoundaryFile_spec (MergingIter.strict_lt trans) files l.largest
  obtain ⟨_, behind, _⟩ := List.pairwise_append.mp (split ▸ sorted.apart)
  obtain ⟨afterLast, apart⟩ := List.pairwise_cons.mp behind
  cases result : findSmallestBoundaryFile user files l.largest with
  | none =>
    rw [result] at spec
    refine Or.inl ⟨rfl, fun f member g later => ?_⟩
    have le := (sorted.smallest_le_largest split member).2
    have le' := high_le_low_of_apart (afterLast g later)
    have unlinked := mt continues_iff.mpr (spec g (split ▸ List.mem_append_right _ (List.mem_cons_of_mem _ later)))
    rw [linked_iff (afterLast g later)] at unlinked
    exact lt_of_le_of_lt le (lt_of_le_of_ne le' unlinked)
  | some f =>
    rw [result] at spec
    obtain ⟨member, continues, least⟩ := spec
    have linked := continues_iff.mp continues
    have late : f ∈ post := by
      rw [split, List.append_cons] at member
      rcases List.mem_append.mp member with early | late
      · have le := (sorted.smallest_le_largest split early).1
        rw [continues.1] at le
        cases le
      · exact late
    obtain ⟨h, rest, rfl⟩ := List.exists_cons_of_ne_nil (List.ne_nil_of_mem late)
    rcases List.mem_cons.mp late with rfl | later
    · exact Or.inr ⟨f, rest, rfl, linked, rfl⟩
    · -- the file that follows would be smaller
      have next := (List.pairwise_cons.mp apart).1 f later
      have file := sorted.file h (split ▸ by simp)
      have between := high_le_low_of_apart (afterLast h (List.mem_cons_self ..))
      have between' := high_le_low_of_apart next
      have inside := file.low_le_high
      have same := linked.high_eq_low
      have continues' : Continues user l.largest h :=
        continues_iff.mpr ((linked_iff (afterLast h (List.mem_cons_self ..))).mpr (by order))
      have smaller := trans.lt_of_isLE_of_lt file.smallest_le_largest next
      exact absurd smaller (least h (split ▸ by simp) continues')

/-- The loop adds the files that go on with the user keys of those before them. -/
theorem addBoundaryLoop_sorted (sorted : SortedLevel user recs files) (split : files = before ++ l :: post) {fuel : Nat}
    (enough : post.length ≤ fuel) (inputs : List FileMetaData) : ∃ extra post', post = extra ++ post' ∧
      addBoundaryLoop user files fuel l.largest inputs = inputs ++ extra ∧ (l :: extra).IsChain (Linked user) ∧
      ∀ f ∈ before ++ l :: extra, ∀ g ∈ post', high user f < low user g := by
  induction fuel generalizing before l post inputs with
  | zero =>
    obtain rfl := List.eq_nil_of_length_eq_zero (Nat.le_zero.mp enough)
    exact ⟨[], [], rfl, by simp [addBoundaryLoop], .singleton l, by simp⟩
  | succ fuel ih =>
    rw [addBoundaryLoop]
    rcases findSmallestBoundaryFile_sorted sorted split with ⟨result, sealed⟩ | ⟨f, rest, rfl, linked, result⟩
    · rw [result]
      exact ⟨[], post, rfl, by simp, .singleton l, sealed⟩
    · rw [result]
      have split' : files = (before ++ [l]) ++ f :: rest := by simp [split]
      obtain ⟨extra, post', rfl, added, chain, sealed⟩ :=
        ih split' (Nat.le_of_succ_le_succ enough) (inputs ++ [f])
      refine ⟨f :: extra, post', rfl, by simp [added], .cons_cons linked chain, ?_⟩
      simpa using sealed

/-- In a sorted level files that follow one another are completed with those that go on with their last user key. -/
theorem addBoundaryInputs_segment (sorted : SortedLevel user recs files) (split : files = pre ++ inputs ++ post)
    (nonempty : inputs ≠ []) : ∃ l extra post', l ∈ inputs ∧ post = extra ++ post' ∧
      addBoundaryInputs user files inputs = inputs ++ extra ∧ (l :: extra).IsChain (Linked user) ∧
      ∀ f ∈ inputs ++ extra, ∀ g ∈ post', high user f < low user g := by
  have trans : Std.TransCmp (internalKeyComparator user).compare := InternalKeyComparator.transCmp inferInstance
  obtain ⟨init, l, rfl⟩ : ∃ init l, inputs = init ++ [l] :=
    ⟨inputs.dropLast, inputs.getLast nonempty, (List.dropLast_append_getLast nonempty).symm⟩
  have split' : files = (pre ++ init) ++ l :: post := by simp [split]
  have largest : (getRange user (init ++ [l])).2 = l.largest := by
    obtain ⟨_, ⟨f, member, same⟩, greatest⟩ := getRange_spec user nonempty
    rcases List.mem_append.mp member with early | last
    · have apart := (List.pairwise_append.mp (split' ▸ sorted.apart)).2.2 f (List.mem_append_right _ early) l
        (List.mem_cons_self ..)
      have file := (sorted.file l (split' ▸ by simp)).smallest_le_largest
      have le := trans.isLE_trans file (same ▸ greatest l (by simp))
      exact absurd (trans.lt_of_lt_of_isLE apart le) (MergingIter.strict_lt trans |>.irrefl _)
    · rw [same, List.mem_singleton.mp last]
  have enough : post.length ≤ files.length := by simp [split']; omega
  obtain ⟨extra, post', rfl, added, chain, sealed⟩ := addBoundaryLoop_sorted sorted split' enough (init ++ [l])
  refine ⟨l, extra, post', by simp, rfl, ?_, chain, fun f member => sealed f ?_⟩
  · rw [addBoundaryInputs, findLargestKey_eq nonempty, largest]
    exact added
  · simp only [List.append_assoc, List.singleton_append] at member ⊢
    exact List.mem_append_right _ member

/-- In level 0 nothing is added to what was found. -/
theorem addBoundaryInputs_gathered {lower upper lower' upper' : Option (List Byte)}
    (isFile : ∀ f ∈ files, ((internalKeyComparator user).compare f.smallest f.largest).isLE)
    (gathered : Gathered user 0 files lower upper inputs lower' upper') :
      addBoundaryInputs user files inputs = inputs := by
  have trans : Std.TransCmp (internalKeyComparator user).compare := InternalKeyComparator.transCmp inferInstance
  by_cases nonempty : inputs = []
  · rw [nonempty]
    rfl
  · obtain ⟨_, ⟨l, member, same⟩, greatest⟩ := getRange_spec user nonempty
    rw [addBoundaryInputs, findLargestKey_eq nonempty, same]
    have spec := findSmallestBoundaryFile_spec (MergingIter.strict_lt trans) files l.largest
    have result : findSmallestBoundaryFile user files l.largest = none := by
      cases found : findSmallestBoundaryFile user files l.largest with
      | none => rfl
      | some f =>
        rw [found] at spec
        obtain ⟨present, continues, _⟩ := spec
        have linked := (continues_iff.mp continues).high_eq_low
        have inside := gathered.inside rfl l member
        have file : low user f ≤ high user f := classOf_le_of_key_le (isFile f present)
        have file' : low user l ≤ high user l := classOf_le_of_key_le (isFile l (gathered.mem_iff.mp member).1)
        have chosen : f ∈ inputs := by
          refine gathered.mem_iff.mpr ⟨present, fun b given => ?_, fun e given => ?_⟩
          · have := inside.1 b given
            order
          · have := inside.2 e given
            order
        have le := trans.isLE_trans (isFile f present) (same ▸ greatest f chosen)
        rw [continues.1] at le
        cases le
    cases files.length with
    | zero => rfl
    | succ fuel => simp [addBoundaryLoop, result]

end Boundary

section Inputs

variable {user : Comparator} [Std.TransCmp user.compare] {v : Version} {level : Nat} {recs : Nat → List Stored}
  {inputs0 : List FileMetaData}

/-- A file of the next level that is not an input is before all inputs or behind them all, and it has no user key of
the first inputs and no older record of the others. -/
def Beside (user : Comparator) [Std.TransCmp user.compare] (inputs0 inputs1 : List FileMetaData) (g : FileMetaData) :
    Prop :=
  ((∀ f ∈ inputs0, high user g < low user f) ∧
      ∀ f ∈ inputs1, (internalKeyComparator user).compare g.largest f.smallest = .lt) ∨
    ∀ f ∈ inputs0 ++ inputs1, high user f < low user g

/-- The files that go on with a user key are added behind the inputs. -/
def Extended (user : Comparator) (files inputs extended : List FileMetaData) : Prop :=
  ∃ extra, extended = inputs ++ extra ∧ (∀ f ∈ extra, f ∈ files) ∧
    (extra = [] ∨ ∃ l ∈ inputs, (l :: extra).IsChain (Linked user))

omit [Std.TransCmp user.compare] in
theorem Extended.sub {files inputs extended : List FileMetaData} (longer : Extended user files inputs extended) :
    ∀ f ∈ inputs, f ∈ extended := by
  obtain ⟨extra, rfl, _⟩ := longer
  exact fun f member => List.mem_append_left _ member

theorem Extended.solid {files inputs extended s : List FileMetaData} (longer : Extended user files inputs extended)
    (proper : ∀ f ∈ files, low user f ≤ high user f) (inside : ∀ f ∈ inputs, f ∈ files) (sub : ∀ f ∈ inputs, f ∈ s)
    (solid : Solid (low user) (high user) s) : Solid (low user) (high user) (s ++ extended) := by
  obtain ⟨extra, rfl, present, chain⟩ := longer
  have same : Solid (low user) (high user) (s ++ inputs) :=
    solid.congr fun f => ⟨fun member => List.mem_append_left _ member, fun member =>
      (List.mem_append.mp member).elim id (sub f)⟩
  rcases chain with rfl | ⟨l, chosen, chain⟩
  · simpa using same
  · have linked : (l :: extra).IsChain fun f g => high user f = low user g :=
      chain.imp fun f g => Linked.high_eq_low
    have rest := same.chain (List.mem_append_right _ chosen) (fun f member => proper f ?_) linked
    · rwa [List.append_assoc] at rest
    · exact (List.mem_cons.mp member).elim (fun equal => equal ▸ inside l chosen) (present f)

structure Completed (user : Comparator) [Std.TransCmp user.compare] (files inputs0 inputs1 : List FileMetaData) :
    Prop where
  sub : inputs1.Sublist files
  meets : ∃ found, Extended user files found inputs1 ∧ ∃ i ∈ inputs0, ∃ j ∈ inputs0,
    ∀ f ∈ found, low user i ≤ high user f ∧ low user f ≤ high user j
  beside : ∀ g ∈ files, g ∉ inputs1 → Beside user inputs0 inputs1 g

theorem inputsWith_completed (sorted : SortedLevel user recs (v.files (level + 1))) (nonempty : inputs0 ≠ []) :
    Completed user (v.files (level + 1)) inputs0 (inputsWith user v level inputs0) := by
  obtain ⟨⟨⟨i, inside, smallest⟩, least⟩, ⟨j, inside', largest⟩, greatest⟩ := getRange_spec user nonempty
  have below (f) (member : f ∈ inputs0) : low user i ≤ low user f := classOf_le_of_key_le (smallest ▸ least f member)
  have above (f) (member : f ∈ inputs0) : high user f ≤ high user j :=
    classOf_le_of_key_le (largest ▸ greatest f member)
  obtain ⟨lower', upper', gathered⟩ :=
    getOverlappingInputs_gathered user v (level + 1) (some i.smallest) (some j.largest)
  obtain ⟨rfl, rfl⟩ := gathered.same (Nat.succ_pos level)
  obtain ⟨pre, post, split, early, late⟩ := gathered.segment sorted
  have before (g) (member : g ∈ pre) (f) (first : f ∈ inputs0) : high user g < low user f := by
    obtain ⟨b, given, less⟩ := early g member
    cases given
    exact lt_of_lt_of_le less (below f first)
  have behind (g) (member : g ∈ post) (f) (first : f ∈ inputs0) : high user f < low user g := by
    obtain ⟨e, given, less⟩ := late g member
    cases given
    exact lt_of_le_of_lt (above f first) less
  have whole : inputsWith user v level inputs0 = addBoundaryInputs user (v.files (level + 1))
      (v.getOverlappingInputs user (level + 1) (some i.smallest) (some j.largest)) := by
    rw [← smallest, ← largest]
    rfl
  generalize v.getOverlappingInputs user (level + 1) (some i.smallest) (some j.largest) = found at gathered split whole
  have meets : ∃ i ∈ inputs0, ∃ j ∈ inputs0, ∀ f ∈ found, low user i ≤ high user f ∧ low user f ≤ high user j :=
    ⟨i, inside, j, inside', fun f member =>
      ⟨(gathered.mem_iff.mp member).2.1 _ rfl, (gathered.mem_iff.mp member).2.2 _ rfl⟩⟩
  rw [whole]
  by_cases empty : found = []
  · subst empty
    refine ⟨List.nil_sublist _, ⟨[], ⟨[], rfl, by simp, Or.inl rfl⟩, meets⟩, ?_⟩
    intro g member _
    rw [split, List.append_nil] at member
    rcases List.mem_append.mp member with left | right
    · exact Or.inl ⟨before g left, fun _ impossible => absurd impossible List.not_mem_nil⟩
    · refine Or.inr fun f chosen => behind g right f ?_
      exact (List.mem_append.mp chosen).resolve_right List.not_mem_nil
  · obtain ⟨l, extra, post', isFound, rfl, added, chain, sealed⟩ := addBoundaryInputs_segment sorted split empty
    have split' : v.files (level + 1) = pre ++ (found ++ extra) ++ post' := by simp [split]
    have present : (found ++ extra).Sublist (v.files (level + 1)) := by
      rw [split']
      exact (List.sublist_append_right _ _).trans (List.sublist_append_left _ _)
    rw [added]
    refine ⟨present, ⟨found, ⟨extra, rfl, fun f member => present.mem (List.mem_append_right _ member),
      Or.inr ⟨l, isFound, chain⟩⟩, meets⟩, fun g member other => ?_⟩
    rw [split'] at member
    rcases List.mem_append.mp member with left | right
    · have left' := (List.mem_append.mp left).resolve_right other
      refine Or.inl ⟨before g left', fun f chosen => ?_⟩
      have apart := (List.pairwise_append.mp (split' ▸ sorted.apart)).1
      exact (List.pairwise_append.mp apart).2.2 g left' f chosen
    · refine Or.inr (List.forall_mem_append.mpr ⟨behind g (List.mem_append_right _ right), ?_⟩)
      exact fun f chosen => sealed f chosen g right

/-- The inputs of the next level keep what has the first inputs solid. -/
theorem Completed.solid {files inputs1 s : List FileMetaData} (completed : Completed user files inputs0 inputs1)
    (proper : ∀ f ∈ files, low user f ≤ high user f) (sub : ∀ f ∈ inputs0, f ∈ s)
    (solid : Solid (low user) (high user) s) :
    Solid (low user) (high user) (s ++ inputs1) := by
  obtain ⟨found, longer, i, first, j, last, meets⟩ := completed.meets
  have isFound (f) (member : f ∈ found) : f ∈ inputs1 := by
    obtain ⟨extra, rfl, _⟩ := longer
    exact List.mem_append_left _ member
  have more := longer.solid proper (fun f member => completed.sub.mem (isFound f member))
    (fun f member => List.mem_append_right s member) (solid.append (sub i first) (sub j last) meets)
  refine more.congr fun f => ?_
  simp only [List.mem_append]
  exact ⟨fun member => member.elim (Or.imp_right (isFound f)) Or.inr, Or.imp_left Or.inl⟩

/-- A file that goes on with the user key of an input is an input. -/
theorem Completed.of_linked {files inputs1 : List FileMetaData} {f g : FileMetaData}
    (completed : Completed user files inputs0 inputs1)
    (isFile : ∀ f ∈ files, ((internalKeyComparator user).compare f.smallest f.largest).isLE)
    (chosen : f ∈ inputs1) (linked : Linked user f g) (member : g ∈ files) : g ∈ inputs1 := by
  have trans : Std.TransCmp (internalKeyComparator user).compare := InternalKeyComparator.transCmp inferInstance
  by_contra other
  rcases completed.beside g member other with before | behind
  · have less := trans.lt_of_isLE_of_lt (isFile g member) (before.2 f chosen)
    have less' := trans.lt_of_isLE_of_lt (isFile f (completed.sub.mem chosen)) linked.1
    exact trans.not_lt_of_lt less less'
  · exact absurd linked.high_eq_low (ne_of_lt (behind f (List.mem_append_right _ chosen)))

/-- With more first inputs there are more of the next level. -/
theorem Completed.mono {files inputs1 inputs0' inputs1' : List FileMetaData}
    (completed : Completed user files inputs0 inputs1) (completed' : Completed user files inputs0' inputs1')
    (isFile : ∀ f ∈ files, ((internalKeyComparator user).compare f.smallest f.largest).isLE)
    (sub : ∀ f ∈ inputs0, f ∈ inputs0') (f : FileMetaData) (member : f ∈ inputs1) : f ∈ inputs1' := by
  obtain ⟨found, ⟨extra, rfl, present, chain⟩, i, first, j, last, meets⟩ := completed.meets
  have direct (g) (isFound : g ∈ found) : g ∈ inputs1' := by
    by_contra other
    obtain ⟨above, below⟩ := meets g isFound
    rcases completed'.beside g (completed.sub.mem (List.mem_append_left _ isFound)) other with before | behind
    · exact absurd above (not_le.mpr (before.1 i (sub i first)))
    · exact absurd below (not_le.mpr (behind j (List.mem_append_left _ (sub j last))))
  have chained (l : FileMetaData) (rest : List FileMetaData) (start : l ∈ inputs1')
      (chain : (l :: rest).IsChain (Linked user)) (inside : ∀ g ∈ rest, g ∈ files) : ∀ g ∈ rest, g ∈ inputs1' := by
    induction rest generalizing l with
    | nil => exact fun _ impossible => absurd impossible List.not_mem_nil
    | cons k rest ih =>
      obtain ⟨linked, chain'⟩ := List.isChain_cons_cons.mp chain
      obtain ⟨here, inside'⟩ := List.forall_mem_cons.mp inside
      have more := completed'.of_linked isFile start linked here
      exact List.forall_mem_cons.mpr ⟨more, ih k more chain' inside'⟩
  rcases List.mem_append.mp member with isFound | added
  · exact direct f isFound
  · rcases chain with rfl | ⟨l, isFound, chain⟩
    · cases added
    · exact chained l extra (direct l isFound) chain present f added

/-- What is left of a level does not keep older records of a user key of the inputs. -/
def Sealed (user : Comparator) [Std.TransCmp user.compare] (files inputs : List FileMetaData) : Prop :=
  inputs.Sublist files ∧ ∀ g ∈ files, g ∉ inputs → ∀ f ∈ inputs,
    (internalKeyComparator user).compare g.largest f.smallest = .lt ∨ high user f < low user g

theorem addBoundaryInputs_of_segment {files inputs pre post : List FileMetaData} (sorted : SortedLevel user recs files)
    (split : files = pre ++ inputs ++ post) : Sealed user files (addBoundaryInputs user files inputs) ∧
      Extended user files inputs (addBoundaryInputs user files inputs) := by
  by_cases empty : inputs = []
  · subst empty
    exact ⟨⟨by simp [addBoundaryInputs, findLargestKey], by simp [addBoundaryInputs, findLargestKey]⟩, [], rfl,
      by simp, Or.inl rfl⟩
  · obtain ⟨l, extra, post', chosen, rfl, added, chain, sealed⟩ := addBoundaryInputs_segment sorted split empty
    have split' : files = pre ++ (inputs ++ extra) ++ post' := by simp [split]
    rw [added]
    refine ⟨⟨?_, fun g member other f inside => ?_⟩, extra, rfl, fun f member => ?_, Or.inr ⟨l, chosen, chain⟩⟩
    · rw [split']
      exact (List.sublist_append_right _ _).trans (List.sublist_append_left _ _)
    · rw [split'] at member
      rcases List.mem_append.mp member with left | right
      · have apart := (List.pairwise_append.mp (split' ▸ sorted.apart)).1
        exact Or.inl ((List.pairwise_append.mp apart).2.2 g ((List.mem_append.mp left).resolve_right other) f inside)
      · exact Or.inr (sealed f inside g right)
    · rw [split']
      exact List.mem_append_left _ (List.mem_append_right _ (List.mem_append_right _ member))

theorem addBoundaryInputs_of_gathered (ordered : v.Ordered user recs) {inputs : List FileMetaData}
    {lower upper lower' upper' : Option (List Byte)}
    (gathered : Gathered user level (v.files level) lower upper inputs lower' upper') :
    Sealed user (v.files level) (addBoundaryInputs user (v.files level) inputs) ∧
      Extended user (v.files level) inputs (addBoundaryInputs user (v.files level) inputs) := by
  rcases Nat.eq_zero_or_pos level with rfl | positive
  · rw [addBoundaryInputs_gathered (fun f member => (ordered.file f member).smallest_le_largest) gathered]
    refine ⟨⟨gathered.chosen ▸ List.filter_sublist, fun g member other f chosen => ?_⟩, [], by simp,
      by simp, Or.inl rfl⟩
    exact (gathered.apart_of_zero chosen member other).imp_left key_lt_of_classOf_lt
  · obtain ⟨pre, post, split, _⟩ := gathered.segment (ordered.sorted level positive)
    exact addBoundaryInputs_of_segment (ordered.sorted level positive) split

/-- What the inputs of a compaction are: nothing older is left where they are taken from, and no file is left in
between where the outputs go. -/
structure Chosen (user : Comparator) [Std.TransCmp user.compare] (v : Version) (level : Nat)
    (inputs : List FileMetaData × List FileMetaData) : Prop where
  nonempty : inputs.1 ≠ []
  sealed : Sealed user (v.files level) inputs.1
  sub : inputs.2.Sublist (v.files (level + 1))
  beside : ∀ g ∈ v.files (level + 1), g ∉ inputs.2 → Beside user inputs.1 inputs.2 g

/-- The inputs are the first ones with those of the next level, or the first ones that meet them all with theirs. -/
theorem setupOtherInputs_cases (user : Comparator) (maxFileSize : Nat) (v : Version) (level : Nat)
    (inputs0 : List FileMetaData) :
    let first := addBoundaryInputs user (v.files level) inputs0
    let range := getRange user (first ++ inputsWith user v level first)
    let expanded := addBoundaryInputs user (v.files level)
      (v.getOverlappingInputs user level (some range.1) (some range.2))
    let c := (setupOtherInputs user maxFileSize v level inputs0).1
    (c.level = level ∧ c.inputVersion = v) ∧ (c.inputs = (first, inputsWith user v level first) ∨
      c.inputs = (expanded, inputsWith user v level expanded) ∧ expanded ≠ []) := by
  intro first range expanded c
  refine ⟨⟨rfl, rfl⟩, ?_⟩
  simp only [c, setupOtherInputs]
  split
  · next grows =>
    refine Or.inr ⟨rfl, fun empty => ?_⟩
    have longer : expanded.length > first.length := grows.2.1
    simp [empty] at longer
  · exact Or.inl rfl

theorem chosen_inputsWith (ordered : v.Ordered user recs) {inputs : List FileMetaData} (nonempty : inputs ≠ [])
    (sealed : Sealed user (v.files level) inputs) : Chosen user v level (inputs, inputsWith user v level inputs) := by
  have completed := inputsWith_completed (ordered.sorted (level + 1) (Nat.succ_pos level)) nonempty
  exact ⟨nonempty, sealed, completed.sub, completed.beside⟩

theorem setupOtherInputs_chosen (ordered : v.Ordered user recs) (maxFileSize : Nat) (nonempty : inputs0 ≠ [])
    (sealed : Sealed user (v.files level) (addBoundaryInputs user (v.files level) inputs0))
    (longer : Extended user (v.files level) inputs0 (addBoundaryInputs user (v.files level) inputs0)) :
    Chosen user v level (setupOtherInputs user maxFileSize v level inputs0).1.inputs := by
  obtain ⟨_, inputs⟩ := setupOtherInputs_cases user maxFileSize v level inputs0
  rcases inputs with same | ⟨same, nonempty'⟩
  · rw [same]
    obtain ⟨f, member⟩ := List.exists_mem_of_ne_nil _ nonempty
    exact chosen_inputsWith ordered (List.ne_nil_of_mem (longer.sub f member)) sealed
  · rw [same]
    obtain ⟨lower', upper', gathered⟩ := getOverlappingInputs_gathered user v level _ _
    exact chosen_inputsWith ordered nonempty' (addBoundaryInputs_of_gathered ordered gathered).1

/-- The files that meet the range of solid inputs are solid with those of the next level. -/
theorem solid_expanded (ordered : v.Ordered user recs) {first inputs1 found expanded inputs1' : List FileMetaData}
    {i j : FileMetaData} {lower' upper' : Option (List Byte)} (sub : ∀ f ∈ first, f ∈ v.files level)
    (completed : Completed user (v.files (level + 1)) first inputs1)
    (solid : Solid (low user) (high user) (first ++ inputs1))
    (least : i ∈ first ++ inputs1 ∧ ∀ f ∈ first ++ inputs1, low user i ≤ low user f)
    (greatest : j ∈ first ++ inputs1 ∧ ∀ f ∈ first ++ inputs1, high user f ≤ high user j)
    (gathered : Gathered user level (v.files level) (some i.start) (some j.limit) found lower' upper')
    (longer : Extended user (v.files level) found expanded)
    (completed' : Completed user (v.files (level + 1)) expanded inputs1') :
    Solid (low user) (high user) (expanded ++ inputs1') := by
  have proper (lvl : Nat) (f) (member : f ∈ v.files lvl) : low user f ≤ high user f :=
    (ordered.isFile lvl member).low_le_high
  have present (f) (member : f ∈ first ++ inputs1) : low user f ≤ high user f :=
    (List.mem_append.mp member).elim (fun left => proper level f (sub f left)) fun right =>
      proper (level + 1) f (completed.sub.mem right)
  obtain ⟨b', e', rfl, rfl, covers⟩ := gathered.covers (first ++ inputs1) _ _ rfl rfl (solid.covers least.1 greatest.1)
  rw [← gathered.chosen] at covers
  -- the range that is covered is not narrower than that of the inputs
  obtain ⟨_, given, lower⟩ := gathered.lower_le b' rfl
  obtain ⟨_, given', upper⟩ := gathered.le_upper e' rfl
  cases given
  cases given'
  have solidFound : Solid (low user) (high user) (first ++ inputs1 ++ found) := by
    refine covers.solid (List.forall_mem_append.mpr ⟨fun f member => ?_, fun f member => ?_⟩)
    · have := present f member
      have := least.2 f member
      have := greatest.2 f member
      exact ⟨by order, by order⟩
    · exact ⟨(gathered.mem_iff.mp member).2.1 b' rfl, (gathered.mem_iff.mp member).2.2 e' rfl⟩
  have solidExpanded := longer.solid (proper level) (fun f member => (gathered.mem_iff.mp member).1)
    (fun f member => List.mem_append_right (first ++ inputs1) member) solidFound
  have all := completed'.solid (proper (level + 1)) (fun f member => List.mem_append_right _ member) solidExpanded
  -- the inputs of the narrower choice are among the new ones
  have firstFound (f) (member : f ∈ first) : f ∈ found := by
    have both := List.mem_append_left inputs1 member
    have := present f both
    have := least.2 f both
    have := greatest.2 f both
    refine gathered.contains (sub f member) (fun b given => ?_) fun e given => ?_
    · cases given
      order
    · cases given
      order
  have firstSub (f) (member : f ∈ first) : f ∈ expanded := longer.sub f (firstFound f member)
  have secondSub := completed.mono completed' (fun f member => (ordered.isFile _ member).smallest_le_largest) firstSub
  refine all.congr fun f => ?_
  simp only [List.mem_append]
  constructor
  · rintro ((((left | right) | isFound) | isExpanded) | isNext)
    · exact Or.inl (firstSub f left)
    · exact Or.inr (secondSub f right)
    · exact Or.inl (longer.sub f isFound)
    · exact Or.inl isExpanded
    · exact Or.inr isNext
  · exact Or.imp_left Or.inr

/-- Where the first inputs are solid, all are: more of them are only taken between them. -/
theorem setupOtherInputs_solid (ordered : v.Ordered user recs) (maxFileSize : Nat) (nonempty : inputs0 ≠ [])
    (sealed : Sealed user (v.files level) (addBoundaryInputs user (v.files level) inputs0))
    (longer : Extended user (v.files level) inputs0 (addBoundaryInputs user (v.files level) inputs0))
    (solid : Solid (low user) (high user) inputs0) :
    Solid (low user) (high user) ((setupOtherInputs user maxFileSize v level inputs0).1.inputs.1 ++
      (setupOtherInputs user maxFileSize v level inputs0).1.inputs.2) := by
  obtain ⟨_, inputs⟩ := setupOtherInputs_cases user maxFileSize v level inputs0
  have proper (lvl : Nat) (f) (member : f ∈ v.files lvl) : low user f ≤ high user f :=
    (ordered.isFile lvl member).low_le_high
  have next := ordered.sorted (level + 1) (Nat.succ_pos level)
  generalize addBoundaryInputs user (v.files level) inputs0 = first at sealed longer inputs
  have someFirst : first ≠ [] := by
    obtain ⟨f, member⟩ := List.exists_mem_of_ne_nil _ nonempty
    exact List.ne_nil_of_mem (longer.sub f member)
  have completed := inputsWith_completed next someFirst
  have solidFirst : Solid (low user) (high user) first := by
    have both := longer.solid (proper level) (fun f member => sealed.1.mem (longer.sub f member))
      (fun _ member => member) solid
    exact both.congr fun f => ⟨fun member => (List.mem_append.mp member).elim (longer.sub f) id,
      List.mem_append_right _⟩
  have solidBoth := completed.solid (proper (level + 1)) (fun _ member => member) solidFirst
  rcases inputs with same | ⟨same, nonempty'⟩
  · rw [same]
    exact solidBoth
  · rw [same]
    generalize inputsWith user v level first = inputs1 at completed solidBoth nonempty'
    obtain ⟨⟨⟨i, inside, smallest⟩, least⟩, ⟨j, inside', largest⟩, greatest⟩ :=
      getRange_spec user (List.append_ne_nil_of_left_ne_nil someFirst inputs1)
    rw [smallest, largest] at nonempty' ⊢
    obtain ⟨lower', upper', gathered⟩ := getOverlappingInputs_gathered user v level (some i.smallest) (some j.largest)
    refine solid_expanded ordered (fun f member => sealed.1.mem member) completed solidBoth ⟨inside, fun f member => ?_⟩
      ⟨inside', fun f member => ?_⟩
      gathered (addBoundaryInputs_of_gathered ordered gathered).2 (inputsWith_completed next nonempty')
    · exact classOf_le_of_key_le (smallest ▸ least f member)
    · exact classOf_le_of_key_le (largest ▸ greatest f member)

omit [Std.TransCmp user.compare] in
theorem pickFile_mem {compactPointer : Nat → List Byte} {trigger : Trigger} {f : FileMetaData}
    (current : ∀ level f, trigger = .seek level f → f ∈ v.files level)
    (picked : pickFile user v compactPointer trigger = some f) : f ∈ v.files trigger.level := by
  cases trigger with
  | size level =>
    rcases Option.or_eq_some_iff.mp picked with found | ⟨_, head⟩
    · exact List.mem_of_find?_eq_some found
    · exact List.mem_of_mem_head? head
  | seek level g =>
    cases picked
    exact current level f rfl

/-- The files from which `PickCompaction` goes on. -/
theorem pickedInputs (ordered : v.Ordered user recs) {f : FileMetaData} (member : f ∈ v.files level) :
    let inputs0 := if level = 0 then v.getOverlappingInputs user 0 (some f.smallest) (some f.largest) else [f]
    inputs0 ≠ [] ∧ Sealed user (v.files level) (addBoundaryInputs user (v.files level) inputs0) ∧
      Extended user (v.files level) inputs0 (addBoundaryInputs user (v.files level) inputs0) ∧
      Solid (low user) (high user) inputs0 := by
  have proper := (ordered.isFile level member).low_le_high
  have single := Spans.covers_single (low user) (high user) f
  split
  · next zero =>
    subst zero
    obtain ⟨lower', upper', gathered⟩ := getOverlappingInputs_gathered user v 0 (some f.smallest) (some f.largest)
    obtain ⟨sealed, longer⟩ := addBoundaryInputs_of_gathered ordered gathered
    have picked := gathered.contains member (fun b given => by cases given; exact proper) fun e given => by
      cases given
      exact proper
    refine ⟨List.ne_nil_of_mem picked, sealed, longer, ?_⟩
    obtain ⟨b', e', rfl, rfl, covers⟩ := gathered.covers [f] _ _ rfl rfl single
    rw [← gathered.chosen] at covers
    refine (covers.mono (List.forall_mem_append.mpr ⟨by simpa using picked, fun _ inside => inside⟩)).solid
      fun g inside => ?_
    exact ⟨(gathered.mem_iff.mp inside).2.1 b' rfl, (gathered.mem_iff.mp inside).2.2 e' rfl⟩
  · next positive =>
    obtain ⟨pre, post, split⟩ := List.append_of_mem member
    have sorted := ordered.sorted level (Nat.pos_of_ne_zero positive)
    have segment : v.files level = pre ++ [f] ++ post := by simp [split]
    obtain ⟨sealed, longer⟩ := addBoundaryInputs_of_segment sorted segment
    exact ⟨List.cons_ne_nil _ _, sealed, longer, single.solid (by simpa using proper)⟩

/-- The inputs that `PickCompaction` chooses are closed, and no new file fits between them. -/
theorem pickCompaction_chosen (ordered : v.Ordered user recs) {maxFileSize : Nat} {compactPointer : Nat → List Byte}
    {trigger : Trigger} (current : ∀ level f, trigger = .seek level f → f ∈ v.files level) {c : Compaction}
    {pointer : List Byte} (picked : pickCompaction user maxFileSize v compactPointer trigger = some (c, pointer)) :
    c.level = trigger.level ∧ c.inputVersion = v ∧ Chosen user v c.level c.inputs ∧
      Solid (low user) (high user) (c.inputs.1 ++ c.inputs.2) := by
  obtain ⟨f, found, result⟩ := Option.map_eq_some_iff.mp picked
  obtain ⟨nonempty, sealed, longer, solid⟩ := pickedInputs ordered (pickFile_mem current found)
  have chosen := setupOtherInputs_chosen ordered maxFileSize nonempty sealed longer
  have solid' := setupOtherInputs_solid ordered maxFileSize nonempty sealed longer solid
  obtain ⟨⟨sameLevel, sameVersion⟩, _⟩ := setupOtherInputs_cases user maxFileSize v trigger.level
    (if trigger.level = 0 then v.getOverlappingInputs user 0 (some f.smallest) (some f.largest) else [f])
  have same := congrArg Prod.fst result
  simp only [getRange, List.foldl_nil] at same
  rw [same] at chosen solid' sameLevel sameVersion
  exact ⟨sameLevel, sameVersion, sameLevel ▸ chosen, solid'⟩

theorem limitInputs_isPrefix (limit total : Nat) (inputs : List FileMetaData) :
    ∃ rest, inputs = limitInputs limit total inputs ++ rest := by
  induction inputs generalizing total with
  | nil => exact ⟨[], rfl⟩
  | cons f inputs ih =>
    rw [limitInputs]
    split
    · exact ⟨inputs, rfl⟩
    · obtain ⟨rest, split⟩ := ih (total + f.fileSize)
      exact ⟨rest, congrArg (f :: ·) split⟩

/-- The inputs of a manual compaction are closed. -/
theorem compactRange_chosen (ordered : v.Ordered user recs) {maxFileSize : Nat} {lower upper : Option (List Byte)}
    {c : Compaction} {pointer : List Byte}
    (picked : v.compactRange user maxFileSize level lower upper = some (c, pointer)) :
    c.level = level ∧ c.inputVersion = v ∧ Chosen user v c.level c.inputs := by
  obtain ⟨lower', upper', gathered⟩ := getOverlappingInputs_gathered user v level lower upper
  rw [Version.compactRange] at picked
  generalize v.getOverlappingInputs user level lower upper = inputs at gathered picked
  split at picked
  · cases picked
  · next nonempty =>
    obtain ⟨nonempty', sealed, longer⟩ :
        (if level > 0 then limitInputs maxFileSize 0 inputs else inputs) ≠ [] ∧
          Sealed user (v.files level) (addBoundaryInputs user (v.files level)
            (if level > 0 then limitInputs maxFileSize 0 inputs else inputs)) ∧
          Extended user (v.files level) (if level > 0 then limitInputs maxFileSize 0 inputs else inputs)
            (addBoundaryInputs user (v.files level)
            (if level > 0 then limitInputs maxFileSize 0 inputs else inputs)) := by
      split
      · next positive =>
        obtain ⟨pre, post, segment, _⟩ := gathered.segment (ordered.sorted level positive)
        obtain ⟨rest, isPrefix⟩ := limitInputs_isPrefix maxFileSize 0 inputs
        have segment' : v.files level = pre ++ limitInputs maxFileSize 0 inputs ++ (rest ++ post) := by
          rw [segment]
          nth_rewrite 1 [isPrefix]
          simp
        refine ⟨?_, addBoundaryInputs_of_segment (ordered.sorted level positive) segment'⟩
        obtain ⟨f, others, rfl⟩ := List.exists_cons_of_ne_nil nonempty
        rw [limitInputs]
        split <;> exact List.cons_ne_nil _ _
      · exact ⟨nonempty, addBoundaryInputs_of_gathered ordered gathered⟩
    have chosen := setupOtherInputs_chosen ordered maxFileSize nonempty' sealed longer
    obtain ⟨⟨sameLevel, sameVersion⟩, _⟩ := setupOtherInputs_cases user maxFileSize v level
      (if level > 0 then limitInputs maxFileSize 0 inputs else inputs)
    have same := congrArg Prod.fst (Option.some.inj picked)
    rw [same] at chosen sameLevel sameVersion
    exact ⟨sameLevel, sameVersion, sameLevel ▸ chosen⟩

end Inputs

end WormholeFilters.LevelDb
