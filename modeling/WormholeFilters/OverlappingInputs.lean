import WormholeFilters.KeyClasses
import WormholeFilters.MergingIter
import WormholeFilters.Spans
import WormholeFilters.Version

/-! The files of a level that meet a range of keys, `Version::GetOverlappingInputs`, and the range of
some files, db/version_set.cc. -/
namespace WormholeFilters.LevelDb

open LittleEndian
open KeyClasses (Class classOf)
open Spans (Covers Solid)

def FileMetaData.start (f : FileMetaData) : List Byte := extractUserKey f.smallest

def FileMetaData.limit (f : FileMetaData) : List Byte := extractUserKey f.largest

section Model

variable (user : Comparator)

/-- One pass over the files in `GetOverlappingInputs`. In level 0 a file that is wider than the range ends it with
the range for the next pass. -/
def overlappingPass (level : Nat) (userBegin userEnd : Option (List Byte)) :
    List FileMetaData → List FileMetaData → Except (Option (List Byte) × Option (List Byte)) (List FileMetaData)
  | [], inputs => .ok inputs
  | f :: rest, inputs =>
    if userBegin.any (fun b => user.compare f.limit b = .lt) then overlappingPass level userBegin userEnd rest inputs
    else if userEnd.any (fun e => user.compare f.start e = .gt) then overlappingPass level userBegin userEnd rest inputs
    else if level = 0 ∧ userBegin.any (fun b => user.compare f.start b = .lt) then .error (some f.start, userEnd)
    else if level = 0 ∧ userEnd.any (fun e => user.compare f.limit e = .gt) then .error (userBegin, some f.limit)
    else overlappingPass level userBegin userEnd rest (inputs ++ [f])

def overlappingLoop (level : Nat) (files : List FileMetaData) :
    Nat → Option (List Byte) → Option (List Byte) → List FileMetaData
  | 0, _, _ => []
  | fuel + 1, userBegin, userEnd =>
    match overlappingPass user level userBegin userEnd files [] with
    | .ok inputs => inputs
    | .error (userBegin, userEnd) => overlappingLoop level files fuel userBegin userEnd

/-- The range becomes wider once for each bound of a file at most. -/
def Version.getOverlappingInputs (v : Version) (level : Nat) (lower upper : Option (List Byte)) : List FileMetaData :=
  overlappingLoop user level (v.files level) (2 * (v.files level).length + 1) (lower.map extractUserKey)
    (upper.map extractUserKey)

def getRange (inputs : List FileMetaData) : List Byte × List Byte :=
  match inputs with
  | [] => ([], [])
  | f :: rest => rest.foldl (fun (smallest, largest) f =>
      (if (internalKeyComparator user).compare f.smallest smallest = .lt then f.smallest else smallest,
        if (internalKeyComparator user).compare f.largest largest = .gt then f.largest else largest))
      (f.smallest, f.largest)

end Model

def reaches (user : Comparator) (lower : Option (List Byte)) (f : FileMetaData) : Bool :=
  !lower.any fun b => user.compare f.limit b = .lt

def starts (user : Comparator) (upper : Option (List Byte)) (f : FileMetaData) : Bool :=
  !upper.any fun e => user.compare f.start e = .gt

inductive Widens (user : Comparator) (files : List FileMetaData) :
    Option (List Byte) → Option (List Byte) → Option (List Byte) → Option (List Byte) → Prop
  | start {f : FileMetaData} {b : List Byte} {upper : Option (List Byte)} (member : f ∈ files)
      (reach : reaches user (some b) f) (started : starts user upper f) (wider : user.compare f.start b = .lt) :
      Widens user files (some b) upper (some f.start) upper
  | limit {f : FileMetaData} {e : List Byte} {lower : Option (List Byte)} (member : f ∈ files)
      (reach : reaches user lower f) (started : starts user (some e) f) (wider : user.compare f.limit e = .gt) :
      Widens user files lower (some e) lower (some f.limit)

section Overlap

variable {user : Comparator} {level : Nat} {files inputs outputs : List FileMetaData}
  {lower upper lower' upper' : Option (List Byte)}

theorem overlappingPass_ok (result : overlappingPass user level lower upper files inputs = .ok outputs) :
    outputs = inputs ++ files.filter (fun f => reaches user lower f && starts user upper f) ∧
      (level = 0 → ∀ f ∈ files, reaches user lower f → starts user upper f →
        (∀ b, lower = some b → user.compare f.start b ≠ .lt) ∧ ∀ e, upper = some e → user.compare f.limit e ≠ .gt) := by
  induction files generalizing inputs with
  | nil =>
    cases result
    simp
  | cons f files ih =>
    simp only [overlappingPass] at result
    split at result
    · next before => simpa [reaches, before] using ih result
    · next reach =>
      split at result
      · next behind => simpa [starts, behind] using ih result
      · next started =>
        split at result
        · cases result
        · next low =>
          split at result
          · cases result
          · next high =>
            obtain ⟨same, inside⟩ := ih result
            refine ⟨by simpa [reaches, reach, starts, started] using same, fun zero => ?_⟩
            refine List.forall_mem_cons.mpr ⟨fun _ _ => ⟨?_, ?_⟩, inside zero⟩
            · rintro b rfl
              simpa [zero] using low
            · rintro e rfl
              simpa [zero] using high

theorem overlappingPass_error {all : List FileMetaData} (sub : ∀ f ∈ files, f ∈ all)
    (result : overlappingPass user level lower upper files inputs = .error (lower', upper')) :
    level = 0 ∧ Widens user all lower upper lower' upper' := by
  induction files generalizing inputs with
  | nil => cases result
  | cons f files ih =>
    obtain ⟨member, sub'⟩ := List.forall_mem_cons.mp sub
    simp only [overlappingPass] at result
    split at result
    · exact ih sub' result
    · next reach =>
      split at result
      · exact ih sub' result
      · next started =>
        have reach' : reaches user lower f := by simp [reaches, reach]
        have started' : starts user upper f := by simp [starts, started]
        split at result
        · next wider =>
          cases result
          obtain ⟨b, rfl, less⟩ := (Option.any_eq_true _ _).mp wider.2
          exact ⟨wider.1, .start member reach' started' (of_decide_eq_true less)⟩
        · split at result
          · next wider =>
            cases result
            obtain ⟨e, rfl, greater⟩ := (Option.any_eq_true _ _).mp wider.2
            exact ⟨wider.1, .limit member reach' started' (of_decide_eq_true greater)⟩
          · exact ih sub' result

/-- How many bounds of files the range can still be moved to. -/
def slack (user : Comparator) (files : List FileMetaData) (lower upper : Option (List Byte)) : Nat :=
  (files.filter fun f => lower.any fun b => user.compare f.start b = .lt).length +
    (files.filter fun f => upper.any fun e => user.compare f.limit e = .gt).length

theorem slack_le (user : Comparator) (files : List FileMetaData) (lower upper : Option (List Byte)) :
    slack user files lower upper ≤ 2 * files.length := by
  have first := List.length_filter_le (fun f => lower.any fun b => user.compare f.start b = .lt) files
  have second := List.length_filter_le (fun f => upper.any fun e => user.compare f.limit e = .gt) files
  simp only [slack]
  omega

theorem length_filter_lt {α : Type} {l : List α} {p q : α → Bool} {x : α} (sub : ∀ y, p y → q y) (member : x ∈ l)
    (holds : q x = true) (fails : p x = false) : (l.filter p).length < (l.filter q).length := by
  have nested : l.filter p = (l.filter q).filter p := by
    rw [List.filter_filter]
    refine List.filter_congr fun y _ => ?_
    cases sought : p y with
    | false => rfl
    | true => simp [sub y sought]
  rw [nested]
  exact List.length_filter_lt_length_iff_exists.mpr ⟨x, List.mem_filter.mpr ⟨member, holds⟩, by simp [fails]⟩

variable [Std.TransCmp user.compare]

theorem Widens.slack_lt (widens : Widens user files lower upper lower' upper') :
    slack user files lower' upper' < slack user files lower upper := by
  cases widens with
  | @start f b _ member _ _ wider =>
    refine Nat.add_lt_add_right (length_filter_lt (x := f) (fun g less => ?_) member ?_ ?_) _
    · exact decide_eq_true (Std.TransCmp.lt_trans (of_decide_eq_true less) wider)
    · exact decide_eq_true wider
    · have self : user.compare f.start f.start = .eq := Std.ReflCmp.compare_self
      simp [self]
  | @limit f e _ member _ _ wider =>
    refine Nat.add_lt_add_left (length_filter_lt (x := f) (fun g greater => ?_) member ?_ ?_) _
    · exact decide_eq_true (Std.TransCmp.gt_trans (of_decide_eq_true greater) wider)
    · exact decide_eq_true wider
    · have self : user.compare f.limit f.limit = .eq := Std.ReflCmp.compare_self
      simp [self]

/-- The loop ends with a range that no file makes wider, and what holds of the first range and is kept when a file
makes it wider holds of the last. -/
theorem overlappingLoop_spec {P : Option (List Byte) → Option (List Byte) → Prop}
    (keeps : ∀ {lower upper lower' upper'}, level = 0 → Widens user files lower upper lower' upper' →
      P lower upper → P lower' upper')
    {fuel : Nat} (enough : slack user files lower upper < fuel) (holds : P lower upper) :
    ∃ lower' upper', P lower' upper' ∧
      overlappingPass user level lower' upper' files [] = .ok (overlappingLoop user level files fuel lower upper) := by
  induction fuel generalizing lower upper with
  | zero => exact absurd enough (Nat.not_lt_zero _)
  | succ fuel ih =>
    rw [overlappingLoop]
    cases result : overlappingPass user level lower upper files [] with
    | ok inputs => exact ⟨lower, upper, holds, result⟩
    | error wider =>
      obtain ⟨zero, widens⟩ := overlappingPass_error (fun _ member => member) result
      have less := widens.slack_lt
      exact ih (by omega) (keeps zero widens holds)

end Overlap

section Order

variable (user : Comparator) [Std.TransCmp user.compare]

abbrev low (f : FileMetaData) : Class user.compare := classOf user.compare f.start

abbrev high (f : FileMetaData) : Class user.compare := classOf user.compare f.limit

variable {user} {f g : FileMetaData} {recs : Nat → List Stored} {records : List Stored} {files : List FileMetaData}
  {lower upper : Option (List Byte)}

theorem reaches_iff : reaches user lower f = true ↔ ∀ b, lower = some b → classOf user.compare b ≤ high user f := by
  cases lower <;> simp [reaches, KeyClasses.lt_iff]

theorem starts_iff : starts user upper f = true ↔ ∀ e, upper = some e → low user f ≤ classOf user.compare e := by
  cases upper <;> simp [starts, KeyClasses.gt_iff]

theorem classOf_le_of_key_le {a b : List Byte} (le : ((internalKeyComparator user).compare a b).isLE) :
    classOf user.compare (extractUserKey a) ≤ classOf user.compare (extractUserKey b) :=
  (KeyClasses.isLE_iff ..).mp (InternalKeyComparator.users_isLE le)

theorem key_lt_of_classOf_lt {a b : List Byte}
    (less : classOf user.compare (extractUserKey a) < classOf user.compare (extractUserKey b)) :
    (internalKeyComparator user).compare a b = .lt :=
  InternalKeyComparator.compare_of_user_lt ((KeyClasses.lt_iff ..).mpr less)

theorem FileOf.smallest_le_largest (file : FileOf user f records) :
    ((internalKeyComparator user).compare f.smallest f.largest).isLE := by
  obtain ⟨r, tail, same⟩ := file.largest
  rw [same]
  exact file.smallest_le (List.mem_of_getLast? tail)

theorem FileOf.low_le_high (file : FileOf user f records) : low user f ≤ high user f :=
  classOf_le_of_key_le file.smallest_le_largest

theorem FileOf.low_le (file : FileOf user f records) {r : Stored} (member : r ∈ records) :
    low user f ≤ classOf user.compare r.key.userKey := by
  have le := classOf_le_of_key_le (file.smallest_le member)
  rwa [Stored.extractUserKey_entry] at le

theorem FileOf.le_high (file : FileOf user f records) {r : Stored} (member : r ∈ records) :
    classOf user.compare r.key.userKey ≤ high user f := by
  have le := classOf_le_of_key_le (file.le_largest member)
  rwa [Stored.extractUserKey_entry] at le

theorem high_le_low_of_apart (apart : (internalKeyComparator user).compare f.largest g.smallest = .lt) :
    high user f ≤ low user g :=
  classOf_le_of_key_le (Ordering.isLE_of_eq_lt apart)

end Order

section Best

variable {c : Comparator} {beats : Ordering}

/-- The loops that look for the smallest or the largest key of some files. -/
theorem foldl_best (strict : MergingIter.Strict c beats) (key : FileMetaData → List Byte) (files : List FileMetaData)
    (first : List Byte) :
    let best := files.foldl (fun best f => if c.compare (key f) best = beats then key f else best) first
    (best = first ∨ ∃ f ∈ files, best = key f) ∧ c.compare first best ≠ beats ∧ ∀ f ∈ files,
    c.compare (key f) best ≠ beats := by
  induction files using List.reverseRecOn with
  | nil => exact ⟨Or.inl rfl, strict.irrefl first, by simp⟩
  | append_singleton files f ih =>
    simp only [List.foldl_append, List.foldl_cons, List.foldl_nil]
    generalize files.foldl (fun best f => if c.compare (key f) best = beats then key f else best) first = best at ih
    obtain ⟨found, notFirst, rest⟩ := ih
    split
    · next better =>
      refine ⟨Or.inr ⟨f, by simp, rfl⟩, fun beaten => notFirst (strict.trans beaten better), ?_⟩
      refine List.forall_mem_append.mpr ⟨fun g member beaten => rest g member (strict.trans beaten better), ?_⟩
      simpa using strict.irrefl (key f)
    · next kept =>
      refine ⟨found.imp_right fun ⟨g, member, same⟩ => ⟨g, List.mem_append_left _ member, same⟩, notFirst, ?_⟩
      exact List.forall_mem_append.mpr ⟨rest, by simpa using kept⟩

end Best

section Range

variable {user : Comparator} {inputs : List FileMetaData}

theorem getRange_cons (f : FileMetaData) (rest : List FileMetaData) : getRange user (f :: rest) =
    (rest.foldl (fun smallest f => if (internalKeyComparator user).compare f.smallest smallest = .lt then f.smallest
        else smallest) f.smallest,
      rest.foldl (fun largest f => if (internalKeyComparator user).compare f.largest largest = .gt then f.largest
        else largest) f.largest) := by
  simp only [getRange]
  generalize f.smallest = smallest
  generalize f.largest = largest
  induction rest generalizing smallest largest with
  | nil => rfl
  | cons g rest ih => exact ih _ _

/-- The range of some files is the smallest that has them all. -/
theorem getRange_spec (user : Comparator) [Std.TransCmp user.compare] (nonempty : inputs ≠ []) :
    ((∃ f ∈ inputs, (getRange user inputs).1 = f.smallest) ∧
      ∀ f ∈ inputs, ((internalKeyComparator user).compare (getRange user inputs).1 f.smallest).isLE) ∧
    (∃ f ∈ inputs, (getRange user inputs).2 = f.largest) ∧
      ∀ f ∈ inputs, ((internalKeyComparator user).compare f.largest (getRange user inputs).2).isLE := by
  have trans : Std.TransCmp (internalKeyComparator user).compare := InternalKeyComparator.transCmp inferInstance
  obtain ⟨f, rest, rfl⟩ := List.exists_cons_of_ne_nil nonempty
  obtain ⟨found, notFirst, least⟩ := foldl_best (MergingIter.strict_lt trans) FileMetaData.smallest rest f.smallest
  obtain ⟨found', notFirst', greatest⟩ := foldl_best (MergingIter.strict_gt trans) FileMetaData.largest rest f.largest
  rw [getRange_cons]
  refine ⟨⟨?_, List.forall_mem_cons.mpr ⟨?_, fun g member => ?_⟩⟩, ?_, List.forall_mem_cons.mpr
    ⟨?_, fun g member => ?_⟩⟩
  · exact found.elim (fun same => ⟨f, List.mem_cons_self .., same⟩) fun ⟨g, member, same⟩ =>
      ⟨g, List.mem_cons_of_mem _ member, same⟩
  · exact Std.OrientedCmp.isGE_iff_isLE.mp (Ordering.isGE_iff_ne_lt.mpr notFirst)
  · exact Std.OrientedCmp.isGE_iff_isLE.mp (Ordering.isGE_iff_ne_lt.mpr (least g member))
  · exact found'.elim (fun same => ⟨f, List.mem_cons_self .., same⟩) fun ⟨g, member, same⟩ =>
      ⟨g, List.mem_cons_of_mem _ member, same⟩
  · exact Ordering.isLE_iff_ne_gt.mpr notFirst'
  · exact Ordering.isLE_iff_ne_gt.mpr (greatest g member)

end Range

structure Reached (user : Comparator) [Std.TransCmp user.compare] (level : Nat) (files : List FileMetaData)
    (lower upper lower' upper' : Option (List Byte)) : Prop where
  same : 0 < level → lower' = lower ∧ upper' = upper
  lower_le : ∀ b', lower' = some b' → ∃ b, lower = some b ∧ classOf user.compare b' ≤ classOf user.compare b
  le_upper : ∀ e', upper' = some e' → ∃ e, upper = some e ∧ classOf user.compare e ≤ classOf user.compare e'
  covers : ∀ others b e, lower = some b → upper = some e →
    Covers (low user) (high user) others (classOf user.compare b) (classOf user.compare e) →
    ∃ b' e', lower' = some b' ∧ upper' = some e' ∧
      Covers (low user) (high user) (others ++ files.filter fun f => reaches user lower' f && starts user upper' f)
        (classOf user.compare b') (classOf user.compare e')

/-- What `GetOverlappingInputs` finds: the files that meet a range, which in level 0 is the one given made wider until
no file is wider. -/
structure Gathered (user : Comparator) [Std.TransCmp user.compare] (level : Nat) (files : List FileMetaData)
    (lower upper : Option (List Byte)) (inputs : List FileMetaData) (lower' upper' : Option (List Byte)) : Prop
    extends Reached user level files lower upper lower' upper' where
  chosen : inputs = files.filter fun f => reaches user lower' f && starts user upper' f
  inside : level = 0 → ∀ f ∈ inputs, (∀ b, lower' = some b → classOf user.compare b ≤ low user f) ∧
    ∀ e, upper' = some e → high user f ≤ classOf user.compare e

section Gather

variable {user : Comparator} [Std.TransCmp user.compare] {level : Nat} {files inputs : List FileMetaData}
  {lower upper lower' upper' : Option (List Byte)} {f g : FileMetaData} {recs : Nat → List Stored} {v : Version}

theorem Reached.start : Reached user level files lower upper lower upper where
  same := fun _ => ⟨rfl, rfl⟩
  lower_le := fun b' given => ⟨b', given, le_refl _⟩
  le_upper := fun e' given => ⟨e', given, le_refl _⟩
  covers := fun _ b e given given' covers =>
    ⟨b, e, given, given', covers.mono fun _ member => List.mem_append_left _ member⟩

/-- A wider range is met by more files, and the one that makes it wider is among them. -/
theorem Reached.widen {lower'' upper'' : Option (List Byte)}
    (reached : Reached user level files lower upper lower' upper')
    (zero : level = 0) (widens : Widens user files lower' upper' lower'' upper'') :
    Reached user level files lower upper lower'' upper'' := by
  cases widens with
  | @start f b' _ member reach started wider =>
    have less := (KeyClasses.lt_iff ..).mp wider
    have le := reaches_iff.mp reach b' rfl
    refine ⟨by omega, fun b'' given => ?_, reached.le_upper, fun others b e given given' covers => ?_⟩
    · cases given
      obtain ⟨b, given, le⟩ := reached.lower_le b' rfl
      exact ⟨b, given, by order⟩
    · obtain ⟨b'', e', same, given'', covers'⟩ := reached.covers others b e given given' covers
      cases same
      refine ⟨f.start, e', rfl, given'', Covers.widen_low (covers'.mono fun g => ?_) (List.mem_append_right _ ?_) le⟩
      · simp only [List.mem_append, List.mem_filter, Bool.and_eq_true, reaches_iff, Option.some.injEq, forall_eq']
        refine Or.imp_right fun ⟨inside, above, below⟩ => ⟨inside, by order, below⟩
      · simp only [List.mem_filter, Bool.and_eq_true, reaches_iff, Option.some.injEq, forall_eq']
        exact ⟨member, by order, started⟩
  | @limit f e' _ member reach started wider =>
    have less := (KeyClasses.gt_iff ..).mp wider
    have le := starts_iff.mp started e' rfl
    refine ⟨by omega, reached.lower_le, fun e'' given => ?_, fun others b e given given' covers => ?_⟩
    · cases given
      obtain ⟨e, given, le⟩ := reached.le_upper e' rfl
      exact ⟨e, given, by order⟩
    · obtain ⟨b', e'', given'', same, covers'⟩ := reached.covers others b e given given' covers
      cases same
      refine ⟨b', f.limit, given'', rfl, Covers.widen_high (covers'.mono fun g => ?_) (List.mem_append_right _ ?_) le⟩
      · simp only [List.mem_append, List.mem_filter, Bool.and_eq_true, starts_iff, Option.some.injEq, forall_eq']
        refine Or.imp_right fun ⟨inside, above, below⟩ => ⟨inside, above, by order⟩
      · simp only [List.mem_filter, Bool.and_eq_true, starts_iff, Option.some.injEq, forall_eq']
        exact ⟨member, reach, by order⟩

theorem getOverlappingInputs_gathered (user : Comparator) [Std.TransCmp user.compare] (v : Version) (level : Nat)
    (lower upper : Option (List Byte)) :
    ∃ lower' upper', Gathered user level (v.files level) (lower.map extractUserKey) (upper.map extractUserKey)
      (v.getOverlappingInputs user level lower upper) lower' upper' := by
  have enough := slack_le user (v.files level) (lower.map extractUserKey) (upper.map extractUserKey)
  have start : Reached user level (v.files level) (lower.map extractUserKey) (upper.map extractUserKey) _ _ := .start
  obtain ⟨lower', upper', reached, result⟩ := overlappingLoop_spec
    (fun zero widens reached => Reached.widen reached zero widens) (Nat.lt_succ_of_le enough) start
  obtain ⟨chosen, narrow⟩ := overlappingPass_ok result
  refine ⟨lower', upper', reached, chosen, fun zero f member => ?_⟩
  have chosen' : f ∈ (v.files level).filter fun f => reaches user lower' f && starts user upper' f := by
    rwa [Version.getOverlappingInputs, chosen] at member
  simp only [List.mem_filter, Bool.and_eq_true] at chosen'
  obtain ⟨present, reach, started⟩ := chosen'
  obtain ⟨low, high⟩ := narrow zero f present reach started
  refine ⟨fun b given => ?_, fun e given => ?_⟩
  · exact not_lt.mp (mt (KeyClasses.lt_iff ..).mpr (low b given))
  · exact not_lt.mp (mt (KeyClasses.gt_iff ..).mpr (high e given))

theorem Gathered.mem_iff (gathered : Gathered user level files lower upper inputs lower' upper') : f ∈ inputs ↔
    f ∈ files ∧ (∀ b, lower' = some b → classOf user.compare b ≤ high user f) ∧
      ∀ e, upper' = some e → low user f ≤ classOf user.compare e := by
  rw [gathered.chosen, List.mem_filter, Bool.and_eq_true, reaches_iff, starts_iff]

/-- All files that meet the range given are found. -/
theorem Gathered.contains (gathered : Gathered user level files lower upper inputs lower' upper') (member : f ∈ files)
    (above : ∀ b, lower = some b → classOf user.compare b ≤ high user f)
    (below : ∀ e, upper = some e → low user f ≤ classOf user.compare e) : f ∈ inputs := by
  refine gathered.mem_iff.mpr ⟨member, fun b' given => ?_, fun e' given => ?_⟩
  · obtain ⟨b, given, le⟩ := gathered.lower_le b' given
    exact le_trans le (above b given)
  · obtain ⟨e, given, le⟩ := gathered.le_upper e' given
    exact le_trans (below e given) le

/-- In level 0 no other file has a user key in common with those found. -/
theorem Gathered.apart_of_zero (gathered : Gathered user 0 files lower upper inputs lower' upper')
    (chosen : f ∈ inputs) (member : g ∈ files) (other : g ∉ inputs) :
    high user g < low user f ∨ high user f < low user g := by
  obtain ⟨above, below⟩ := gathered.inside rfl f chosen
  by_contra meets
  simp only [not_or, not_lt] at meets
  refine other (gathered.mem_iff.mpr ⟨member, fun b given => ?_, fun e given => ?_⟩)
  · exact le_trans (above b given) meets.1
  · exact le_trans meets.2 (below e given)

theorem SortedLevel.low_le_high (sorted : SortedLevel user recs files) (member : f ∈ files) :
    low user f ≤ high user f :=
  (sorted.file f member).low_le_high

/-- In a sorted level the files found follow one another. -/
theorem Gathered.segment (gathered : Gathered user level files lower upper inputs lower' upper')
    (sorted : SortedLevel user recs files) : ∃ pre post, files = pre ++ inputs ++ post ∧
      (∀ f ∈ pre, ∃ b, lower' = some b ∧ high user f < classOf user.compare b) ∧
      ∀ f ∈ post, ∃ e, upper' = some e ∧ classOf user.compare e < low user f := by
  have stays : files.Pairwise fun f g => reaches user lower' f → reaches user lower' g := by
    refine sorted.apart.imp_of_mem fun {f g} _ member apart => ?_
    have le := high_le_low_of_apart apart
    have le' := sorted.low_le_high member
    rw [reaches_iff, reaches_iff]
    exact fun above b given => le_trans (above b given) (le_trans le le')
  have held : files.Pairwise fun f g => starts user upper' g → starts user upper' f := by
    refine sorted.apart.imp_of_mem fun {f g} member _ apart => ?_
    have le := high_le_low_of_apart apart
    have le' := sorted.low_le_high member
    rw [starts_iff, starts_iff]
    exact fun below e given => le_trans (le_trans le' le) (below e given)
  obtain ⟨pre, post, split, early, late⟩ := Spans.exists_segment files stays held
  rw [← gathered.chosen] at split
  refine ⟨pre, post, split, fun f member => ?_, fun f member => ?_⟩
  · have not := mt reaches_iff.mpr (Bool.eq_false_iff.mp (early f member))
    simpa only [not_forall, not_le, exists_prop] using not
  · have not := mt starts_iff.mpr (Bool.eq_false_iff.mp (late f member))
    simpa only [not_forall, not_le, exists_prop] using not

end Gather

end WormholeFilters.LevelDb
