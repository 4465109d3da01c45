import Mathlib.Logic.Function.Basic
import WormholeFilters.Version

/-! The loop of a compaction, `DBImpl::DoCompactionWork`, with the methods of `Compaction`
that it calls. The input is the list of entries that the merging iterator goes through.
Failures of the files, a shutdown and the memtable written meanwhile are left out. -/
namespace WormholeFilters.LevelDb

open LittleEndian
open Multiversion (Unseen)

structure Compaction where
  level : Nat
  inputVersion : Version
  inputs : List FileMetaData × List FileMetaData
  grandparents : List FileMetaData
  maxOutputFileSize : Nat
  maxGrandParentOverlapBytes : Nat

section Model

variable (user : Comparator)

/-- The loop over the files of one level in `IsBaseLevelForKey`. -/
def advanceLevelPtr (files : List FileMetaData) (userKey : List Byte) : Nat → Nat → Nat
  | 0, ptr => ptr
  | fuel + 1, ptr =>
    match files[ptr]? with
    | none => ptr
    | some f =>
      if (user.compare userKey (extractUserKey f.largest)).isLE then ptr
      else advanceLevelPtr files userKey fuel (ptr + 1)

/-- The loop over the levels of `IsBaseLevelForKey`, with the pointers it leaves. -/
def isBaseLevelForKeyLoop (v : Version) (userKey : List Byte) : List Nat → (Nat → Nat) → Bool × (Nat → Nat)
  | [], levelPtrs => (true, levelPtrs)
  | lvl :: rest, levelPtrs =>
    let ptr := advanceLevelPtr user (v.files lvl) userKey (v.files lvl).length (levelPtrs lvl)
    let levelPtrs := Function.update levelPtrs lvl ptr
    match (v.files lvl)[ptr]? with
    | some f =>
      if (user.compare userKey (extractUserKey f.smallest)).isGE then (false, levelPtrs)
      else isBaseLevelForKeyLoop v userKey rest levelPtrs
    | none => isBaseLevelForKeyLoop v userKey rest levelPtrs

def levelsBehind (level : Nat) : List Nat := List.range' (level + 2) (kNumLevels - (level + 2))

def Compaction.isBaseLevelForKey (c : Compaction) (userKey : List Byte) (levelPtrs : Nat → Nat) : Bool × (Nat → Nat) :=
  isBaseLevelForKeyLoop user c.inputVersion userKey (levelsBehind c.level) levelPtrs

structure StopState where
  grandparentIndex : Nat
  seenKey : Bool
  overlappedBytes : Nat
  deriving DecidableEq, Repr

def skipGrandparents (c : Compaction) (internalKey : List Byte) : Nat → StopState → StopState
  | 0, s => s
  | fuel + 1, s =>
    match c.grandparents[s.grandparentIndex]? with
    | none => s
    | some g =>
      if (internalKeyComparator user).compare internalKey g.largest = .gt then
        skipGrandparents c internalKey fuel
          { s with
            overlappedBytes := if s.seenKey then s.overlappedBytes + g.fileSize else s.overlappedBytes
            grandparentIndex := s.grandparentIndex + 1 }
      else s

def Compaction.shouldStopBefore (c : Compaction) (internalKey : List Byte) (s : StopState) : Bool × StopState :=
  let s := { skipGrandparents user c internalKey c.grandparents.length s with seenKey := true }
  if s.overlappedBytes > c.maxGrandParentOverlapBytes then (true, { s with overlappedBytes := 0 }) else (false, s)

structure DropState where
  currentUserKey : Option (List Byte)
  lastSequenceForKey : Nat
  levelPtrs : Nat → Nat

def DropState.start : DropState := ⟨none, kMaxSequenceNumber, fun _ => 0⟩

/-- Entries with keys that do not parse are not hidden. -/
def dropEntry (c : Compaction) (smallestSnapshot : Nat) (key : List Byte) (s : DropState) : Bool × DropState :=
  match parseInternalKey key with
  | none => (false, { s with currentUserKey := none, lastSequenceForKey := kMaxSequenceNumber })
  | some ikey =>
    let s :=
      if s.currentUserKey.any (fun k => user.compare ikey.userKey k = .eq) then s
      else { s with currentUserKey := some ikey.userKey, lastSequenceForKey := kMaxSequenceNumber }
    if s.lastSequenceForKey ≤ smallestSnapshot then (true, { s with lastSequenceForKey := ikey.sequence })
    else if ikey.type = .deletion ∧ ikey.sequence ≤ smallestSnapshot then
      let (base, levelPtrs) := c.isBaseLevelForKey user ikey.userKey s.levelPtrs
      (base, { s with levelPtrs, lastSequenceForKey := ikey.sequence })
    else (false, { s with lastSequenceForKey := ikey.sequence })

structure Outputs where
  done : List (List (List Byte × List Byte))
  builder : Option (List (List Byte × List Byte))
  deriving DecidableEq, Repr

def Outputs.finish (o : Outputs) : Outputs := ⟨o.done ++ o.builder.toList, none⟩

structure CompactionState where
  drop : DropState
  stop : StopState
  outputs : Outputs

def CompactionState.start : CompactionState := ⟨.start, ⟨0, false, 0⟩, ⟨[], none⟩⟩

/-- One round of the loop. `fileSize` is the size of a file that is being built from some entries. -/
def compactionStep (c : Compaction) (smallestSnapshot : Nat) (fileSize : List (List Byte × List Byte) → Nat)
    (s : CompactionState) (e : List Byte × List Byte) : CompactionState :=
  let (stopBefore, stop) := c.shouldStopBefore user e.1 s.stop
  let outputs := if stopBefore then s.outputs.finish else s.outputs
  let (drop, dropState) := dropEntry user c smallestSnapshot e.1 s.drop
  if drop then ⟨dropState, stop, outputs⟩
  else
    let built := outputs.builder.getD [] ++ [e]
    let outputs : Outputs := ⟨outputs.done, some built⟩
    ⟨dropState, stop, if fileSize built ≥ c.maxOutputFileSize then outputs.finish else outputs⟩

def doCompactionWork (c : Compaction) (smallestSnapshot : Nat) (fileSize : List (List Byte × List Byte) → Nat)
    (input : List (List Byte × List Byte)) : List (List (List Byte × List Byte)) :=
  (input.foldl (compactionStep user c smallestSnapshot fileSize) .start).outputs.finish.done

end Model

def FileMetaData.spans (user : Comparator) (userKey : List Byte) (f : FileMetaData) : Bool :=
  (user.compare userKey (extractUserKey f.smallest)).isGE && (user.compare userKey (extractUserKey f.largest)).isLE

def Compaction.isBaseLevel (user : Comparator) (c : Compaction) (userKey : List Byte) : Bool :=
  (levelsBehind c.level).all fun lvl => (c.inputVersion.files lvl).all fun f => !f.spans user userKey

section BaseLevel

variable {user : Comparator} {recs : Nat → List Stored} {v : Version} {c : Compaction} {files : List FileMetaData}
  {userKey : List Byte} {levelPtrs : Nat → Nat}

/-- The files before the pointers end before the user key. -/
def Passed (user : Comparator) (v : Version) (userKey : List Byte) (levelPtrs : Nat → Nat) : Prop :=
  ∀ lvl i f, (v.files lvl)[i]? = some f → i < levelPtrs lvl → user.compare userKey (extractUserKey f.largest) = .gt

theorem advanceLevelPtr_spec {fuel ptr : Nat} (enough : files.length ≤ ptr + fuel)
    (passed : ∀ i f, files[i]? = some f → i < ptr → user.compare userKey (extractUserKey f.largest) = .gt) :
    (∀ i f, files[i]? = some f → i < advanceLevelPtr user files userKey fuel ptr →
      user.compare userKey (extractUserKey f.largest) = .gt) ∧
    ∀ f, files[advanceLevelPtr user files userKey fuel ptr]? = some f →
      (user.compare userKey (extractUserKey f.largest)).isLE := by
  induction fuel generalizing ptr with
  | zero =>
    refine ⟨passed, fun f found => ?_⟩
    have := (List.getElem?_eq_some_iff.mp found).1
    simp only [advanceLevelPtr] at this
    omega
  | succ fuel ih =>
    rw [advanceLevelPtr]
    cases here : files[ptr]? with
    | none => exact ⟨passed, by simp [here]⟩
    | some f =>
      by_cases reached : (user.compare userKey (extractUserKey f.largest)).isLE
      · simp only [reached, if_true]
        refine ⟨passed, fun g found => ?_⟩
        obtain rfl : f = g := Option.some.inj (here.symm.trans found)
        exact reached
      · simp only [reached]
        refine ih (by omega) fun i g found before => ?_
        rcases Nat.lt_succ_iff_lt_or_eq.mp before with early | rfl
        · exact passed i g found early
        · obtain rfl : f = g := Option.some.inj (here.symm.trans found)
          simpa using reached

variable [Std.TransCmp user.compare]

theorem Passed.mono {later : List Byte} (passed : Passed user v userKey levelPtrs)
    (le : (user.compare userKey later).isLE) : Passed user v later levelPtrs := by
  intro lvl i f found before
  have less := Std.OrientedCmp.lt_of_gt (passed lvl i f found before)
  exact Std.OrientedCmp.gt_of_lt (Std.TransCmp.lt_of_lt_of_isLE less le)

/-- The user keys of the files of a sorted level do not decrease. -/
theorem SortedLevel.smallest_le {i j : Nat} {f g : FileMetaData} (level : SortedLevel user recs files)
    (first : files[i]? = some f) (second : files[j]? = some g) (before : i < j) :
    (user.compare (extractUserKey f.smallest) (extractUserKey g.smallest)).isLE := by
  obtain ⟨inside, rfl⟩ := List.getElem?_eq_some_iff.mp first
  obtain ⟨inside', rfl⟩ := List.getElem?_eq_some_iff.mp second
  have trans : Std.TransCmp (internalKeyComparator user).compare := InternalKeyComparator.transCmp inferInstance
  have apart := List.pairwise_iff_getElem.mp level.apart i j inside inside' before
  obtain ⟨r, tail, same⟩ := (level.file _ (List.getElem_mem inside)).largest
  have low := (level.file _ (List.getElem_mem inside)).smallest_le (List.mem_of_getLast? tail)
  rw [← same] at low
  exact InternalKeyComparator.users_isLE (trans.isLE_trans low (Ordering.isLE_of_eq_lt apart))

theorem isBaseLevelForKeyLoop_spec {levels : List Nat} (sorted : ∀ lvl ∈ levels, SortedLevel user recs (v.files lvl))
    (passed : Passed user v userKey levelPtrs) :
    Passed user v userKey (isBaseLevelForKeyLoop user v userKey levels levelPtrs).2 ∧
      (isBaseLevelForKeyLoop user v userKey levels levelPtrs).1 =
        levels.all fun lvl => (v.files lvl).all fun f => !f.spans user userKey := by
  induction levels generalizing levelPtrs with
  | nil => exact ⟨passed, rfl⟩
  | cons lvl levels ih =>
    obtain ⟨level, sorted'⟩ := List.forall_mem_cons.mp sorted
    obtain ⟨before, reached⟩ := advanceLevelPtr_spec (Nat.le_add_left _ _) (passed lvl)
    simp only [isBaseLevelForKeyLoop, List.all_cons]
    generalize advanceLevelPtr user (v.files lvl) userKey (v.files lvl).length (levelPtrs lvl) = ptr at before reached
    have passed' : Passed user v userKey (Function.update levelPtrs lvl ptr) := by
      intro other i f found less
      by_cases same : other = lvl
      · subst same
        rw [Function.update_self] at less
        exact before i f found less
      · rw [Function.update_of_ne same] at less
        exact passed other i f found less
    -- where no file from the pointer on spans the key, none does
    have none (behind : ∀ i f, (v.files lvl)[i]? = some f → ptr ≤ i → f.spans user userKey = false) :
        ((v.files lvl).all fun f => !f.spans user userKey) = true := by
      refine List.all_eq_true.mpr fun f member => ?_
      obtain ⟨i, found⟩ := List.mem_iff_getElem?.mp member
      rcases Nat.lt_or_ge i ptr with early | late
      · simp [FileMetaData.spans, before i f found early]
      · simp [behind i f found late]
    cases here : (v.files lvl)[ptr]? with
    | none =>
      have all := none fun i f found late => by
        have := (List.getElem?_eq_some_iff.mp found).1
        have := List.getElem?_eq_none_iff.mp here
        omega
      simpa [all] using ih sorted' passed'
    | some f =>
      by_cases starts : (user.compare userKey (extractUserKey f.smallest)).isGE
      · have spans : f.spans user userKey = true := by simp [FileMetaData.spans, starts, reached f here]
        have some : ((v.files lvl).all fun f => !f.spans user userKey) = false :=
          List.all_eq_false.mpr ⟨f, List.mem_of_getElem? here, by simp [spans]⟩
        simpa [starts, some] using passed'
      · have less : user.compare userKey (extractUserKey f.smallest) = .lt := by simpa using starts
        have all := none fun i g found late => by
          have less' : user.compare userKey (extractUserKey g.smallest) = .lt := by
            rcases Nat.eq_or_lt_of_le late with rfl | later
            · rwa [Option.some.inj (here.symm.trans found)] at less
            · exact Std.TransCmp.lt_of_lt_of_isLE less (level.smallest_le here found later)
          simp [FileMetaData.spans, less']
        simpa [starts, all] using ih sorted' passed'

theorem isBaseLevelForKey_eq (sorted : ∀ level, 0 < level → SortedLevel user recs (c.inputVersion.files level))
    (passed : Passed user c.inputVersion userKey levelPtrs) :
    Passed user c.inputVersion userKey (c.isBaseLevelForKey user userKey levelPtrs).2 ∧
      (c.isBaseLevelForKey user userKey levelPtrs).1 = c.isBaseLevel user userKey :=
  isBaseLevelForKeyLoop_spec (fun lvl member => sorted lvl (by
    have := List.mem_range'_1.mp member
    omega)) passed

def Compaction.baseLevelAnswers (user : Comparator) (c : Compaction) : (Nat → Nat) → List (List Byte) → List Bool
  | _, [] => []
  | levelPtrs, userKey :: rest =>
    let (base, levelPtrs) := c.isBaseLevelForKey user userKey levelPtrs
    base :: c.baseLevelAnswers user levelPtrs rest

/-- Asked for ascending user keys, the pointers that only move on give the answers of a search through all files. -/
theorem base_level_answers (sorted : ∀ level, 0 < level → SortedLevel user recs (c.inputVersion.files level))
    {userKeys : List (List Byte)} (ascending : userKeys.Pairwise fun a b => (user.compare a b).isLE)
    (passed : ∀ k ∈ userKeys, Passed user c.inputVersion k levelPtrs) :
    c.baseLevelAnswers user levelPtrs userKeys = userKeys.map (c.isBaseLevel user) := by
  induction userKeys generalizing levelPtrs with
  | nil => rfl
  | cons k userKeys ih =>
    obtain ⟨first, rest⟩ := List.pairwise_cons.mp ascending
    obtain ⟨passed', answer⟩ := isBaseLevelForKey_eq sorted (passed k (List.mem_cons_self ..))
    simp only [Compaction.baseLevelAnswers, List.map_cons, answer,
      ih rest fun k' member => passed'.mono (first k' member)]

/-- A file from b to d in a level below is met by c only. -/
theorem base_level_answers_single :
    let low : Stored := ⟨⟨[98#8], 2, .value⟩, [], by decide⟩
    let high : Stored := ⟨⟨[100#8], 1, .value⟩, [], by decide⟩
    let c : Compaction := ⟨0, .single 3 ⟨7, 0, low.entry.1, high.entry.1⟩, ([], []), [], 0, 0⟩
    c.baseLevelAnswers bytewiseComparator (fun _ => 0) [[97#8], [99#8], [101#8]] = [true, false, true] := by
  intro low high c
  have := BytewiseComparator.lawful.trans
  have file : FileOf bytewiseComparator ⟨7, 0, low.entry.1, high.entry.1⟩ [low, high] :=
    ⟨by decide, ⟨low, rfl, rfl⟩, high, rfl, rfl⟩
  have ordered : c.inputVersion.Ordered bytewiseComparator fun _ => [low, high] := Version.single_ordered file
  exact (base_level_answers ordered.sorted (by decide) fun k _ level i f _ early => absurd early
    (Nat.not_lt_zero i)).trans
    (by decide)

end BaseLevel

/-- A record is dropped behind a newer one that every reader sees, and a deletion also where it hides nothing. -/
def Compaction.drops (user : Comparator) (c : Compaction) (snap : Nat) (prev : Option Stored) (r : Stored) : Bool :=
  prev.any (fun p => user.compare r.key.userKey p.key.userKey == .eq && decide (p.sequence ≤ snap)) ||
    (r.key.type == .deletion && decide (r.sequence ≤ snap) && c.isBaseLevel user r.key.userKey)

/-- The records that a compaction keeps, when `prev` came before them. -/
def Compaction.kept (user : Comparator) (c : Compaction) (snap : Nat) : Option Stored → List Stored → List Stored
  | _, [] => []
  | prev, r :: rest =>
    if c.drops user snap prev r then c.kept user snap (some r) rest else r :: c.kept user snap (some r) rest

section Loop

variable {user : Comparator} [Std.TransCmp user.compare] {recs : Nat → List Stored} {c : Compaction} {snap : Nat}
  {fileSize : List (List Byte × List Byte) → Nat} {prev : Option Stored} {r : Stored} {s : DropState}

structure DropState.After (user : Comparator) (v : Version) (prev : Option Stored) (s : DropState) : Prop where
  first : prev = none → s.currentUserKey = none
  later : ∀ p, prev = some p → ∃ k, s.currentUserKey = some k ∧ user.compare p.key.userKey k = .eq ∧
    s.lastSequenceForKey = p.sequence
  passed : ∀ userKey, (∀ p, prev = some p → (user.compare p.key.userKey userKey).isLE) →
    Passed user v userKey s.levelPtrs

theorem DropState.after_start (user : Comparator) (v : Version) : DropState.start.After user v none where
  first := fun _ => rfl
  later := fun _ impossible => by cases impossible
  passed := fun _ _ _ _ _ _ before => absurd before (Nat.not_lt_zero _)

theorem DropState.After.next {v : Version} {k : List Byte} {levelPtrs : Nat → Nat}
    (same : user.compare r.key.userKey k = .eq) (passed : Passed user v r.key.userKey levelPtrs) :
    DropState.After user v (some r) ⟨some k, r.sequence, levelPtrs⟩ where
  first := fun impossible => by cases impossible
  later := fun p equal => ⟨k, rfl, Option.some.inj equal ▸ same, congrArg Stored.sequence (Option.some.inj equal)⟩
  passed := fun userKey le => passed.mono (le r rfl)

/-- The number a record is checked against, and the user key from then on. -/
theorem DropState.After.current (small : snap < kMaxSequenceNumber) {v : Version} (after : s.After user v prev) :
    ∃ k last, (if s.currentUserKey.any (fun k => user.compare r.key.userKey k = .eq) then s
        else { s with currentUserKey := some r.key.userKey, lastSequenceForKey := kMaxSequenceNumber }) =
          ⟨some k, last, s.levelPtrs⟩ ∧ user.compare r.key.userKey k = .eq ∧
        (last ≤ snap ↔ prev.any fun p =>
          user.compare r.key.userKey p.key.userKey == .eq && decide (p.sequence ≤ snap)) := by
  have self : user.compare r.key.userKey r.key.userKey = .eq := Std.ReflCmp.compare_self
  cases prev with
  | none =>
    refine ⟨r.key.userKey, kMaxSequenceNumber, ?_, self, ?_⟩
    · simp [after.first rfl]
    · simpa using small
  | some p =>
    obtain ⟨k, isCurrent, equal, last⟩ := after.later p rfl
    have users : user.compare r.key.userKey k = user.compare r.key.userKey p.key.userKey :=
      (Std.TransCmp.congr_right equal).symm
    by_cases same : user.compare r.key.userKey p.key.userKey = .eq
    · refine ⟨k, s.lastSequenceForKey, ?_, users.trans same, ?_⟩
      · simp only [isCurrent, Option.any_some, users, same, decide_true, if_true]
        rw [← isCurrent]
      · simp [same, last]
    · refine ⟨r.key.userKey, kMaxSequenceNumber, ?_, self, ?_⟩
      · simp [isCurrent, users, same]
      · simpa [same] using small

theorem dropEntry_spec (sorted : ∀ level, 0 < level → SortedLevel user recs (c.inputVersion.files level))
    (small : snap < kMaxSequenceNumber) (after : s.After user c.inputVersion prev)
    (le : ∀ p, prev = some p → (user.compare p.key.userKey r.key.userKey).isLE) :
    (dropEntry user c snap r.entry.1 s).1 = c.drops user snap prev r ∧
      (dropEntry user c snap r.entry.1 s).2.After user c.inputVersion (some r) := by
  have passed := after.passed r.key.userKey le
  obtain ⟨passed', base⟩ := isBaseLevelForKey_eq sorted passed
  obtain ⟨k, last, state, same, hidden⟩ := after.current (r := r) small
  simp only [dropEntry, r.parse_entry, state, Compaction.drops]
  by_cases behind : last ≤ snap
  · simp only [behind, if_true, hidden.mp behind, Bool.true_or]
    exact ⟨trivial, .next same passed⟩
  · have unhidden := Bool.eq_false_iff.mpr (mt hidden.mpr behind)
    simp only [behind, if_false, unhidden, Bool.false_or]
    by_cases old : r.key.type = .deletion ∧ r.key.sequence ≤ snap
    · simp only [old.1, Stored.sequence, old.2, and_self, if_true, base]
      exact ⟨rfl, .next same passed'⟩
    · simp only [old, if_false]
      refine ⟨?_, .next same passed⟩
      cases deleted : r.key.type with
      | value => simp
      | deletion =>
        have late : ¬ r.sequence ≤ snap := fun le => old ⟨deleted, le⟩
        simp [late]

def Outputs.entries (o : Outputs) : List (List Byte × List Byte) := o.done.flatten ++ o.builder.getD []

structure Outputs.Full (o : Outputs) : Prop where
  done : ∀ out ∈ o.done, out ≠ []
  builder : o.builder ≠ some []

theorem Outputs.finish_entries (o : Outputs) : o.finish.entries = o.entries := by
  cases o with
  | mk done builder => cases builder <;> simp [finish, entries]

theorem Outputs.Full.finish {o : Outputs} (full : o.Full) : o.finish.Full where
  done := by
    intro out member
    rcases List.mem_append.mp member with old | new
    · exact full.done out old
    · rintro rfl
      exact full.builder (Option.mem_toList.mp new)
  builder := by simp [Outputs.finish]

structure CompactionState.Wrote (user : Comparator) (c : Compaction) (prev : Option Stored)
    (written : List (List Byte × List Byte)) (s : CompactionState) : Prop where
  drop : s.drop.After user c.inputVersion prev
  full : s.outputs.Full
  entries : s.outputs.entries = written

/-- One round of the loop, with or without a new output before or after it. -/
theorem compactionStep_wrote (sorted : ∀ level, 0 < level → SortedLevel user recs (c.inputVersion.files level))
    (small : snap < kMaxSequenceNumber) {written : List (List Byte × List Byte)} {s : CompactionState}
    (wrote : s.Wrote user c prev written)
    (le : ∀ p, prev = some p → (user.compare p.key.userKey r.key.userKey).isLE) :
    (compactionStep user c snap fileSize s r.entry).Wrote user c (some r)
      (written ++ if c.drops user snap prev r then [] else [r.entry]) := by
  obtain ⟨drop, after⟩ := dropEntry_spec sorted small wrote.drop le
  simp only [compactionStep, drop]
  -- the outputs, whether or not one is finished before the record
  have started : ∃ outputs : Outputs, outputs.Full ∧ outputs.entries = written ∧
      (if (c.shouldStopBefore user r.entry.1 s.stop).1 then s.outputs.finish else s.outputs) = outputs := by
    refine ⟨_, ?_, ?_, rfl⟩ <;> split
    · exact wrote.full.finish
    · exact wrote.full
    · exact s.outputs.finish_entries.trans wrote.entries
    · exact wrote.entries
  obtain ⟨outputs, full, entries, same⟩ := started
  simp only [same]
  cases c.drops user snap prev r with
  | true => exact ⟨after, full, by simpa using entries⟩
  | false =>
    have added : Outputs.Full ⟨outputs.done, some (outputs.builder.getD [] ++ [r.entry])⟩ := ⟨full.done, by simp⟩
    have longer : Outputs.entries ⟨outputs.done, some (outputs.builder.getD [] ++ [r.entry])⟩ =
        written ++ [r.entry] := by
      simp [← entries, Outputs.entries]
    refine ⟨after, ?_, ?_⟩ <;> simp only [Bool.false_eq_true, if_false] <;> split
    · exact added.finish
    · exact added
    · exact (Outputs.finish_entries _).trans longer
    · exact longer

theorem foldl_compactionStep (sorted : ∀ level, 0 < level → SortedLevel user recs (c.inputVersion.files level))
    (small : snap < kMaxSequenceNumber) {records : List Stored} {written : List (List Byte × List Byte)}
    {s : CompactionState} (wrote : s.Wrote user c prev written) (order : InOrder user (prev.toList ++ records)) :
    ∃ last, ((records.map Stored.entry).foldl (compactionStep user c snap fileSize) s).Wrote user c last
      (written ++ (c.kept user snap prev records).map Stored.entry) := by
  induction records generalizing prev written s with
  | nil => exact ⟨prev, by simpa [Compaction.kept] using wrote⟩
  | cons r records ih =>
    have le : ∀ p, prev = some p → (user.compare p.key.userKey r.key.userKey).isLE := by
      rintro p rfl
      exact order.users_isLE (i := 0) (j := 1) rfl rfl (Nat.zero_le _)
    have order' : InOrder user ((some r).toList ++ records) := by
      rw [InOrder, List.map_append] at order
      exact (List.pairwise_append.mp order).2.1
    obtain ⟨last, wrote'⟩ := ih (compactionStep_wrote sorted small wrote le) order'
    refine ⟨last, ?_⟩
    rw [List.map_cons, List.foldl_cons]
    cases dropped : c.drops user snap prev r <;> simpa [Compaction.kept, dropped] using wrote'

variable (fileSize) in
/-- A compaction writes the records that it keeps, in their order, wherever it starts new outputs. -/
theorem doCompactionWork_eq (sorted : ∀ level, 0 < level → SortedLevel user recs (c.inputVersion.files level))
    (small : snap < kMaxSequenceNumber) {records : List Stored} (order : InOrder user records) :
    (doCompactionWork user c snap fileSize (records.map Stored.entry)).flatten =
        (c.kept user snap none records).map Stored.entry ∧
      ∀ out ∈ doCompactionWork user c snap fileSize (records.map Stored.entry), out ≠ [] := by
  have start : CompactionState.start.Wrote user c none [] :=
    ⟨DropState.after_start user c.inputVersion, ⟨by simp [CompactionState.start], by simp [CompactionState.start]⟩, rfl⟩
  obtain ⟨last, wrote⟩ := foldl_compactionStep sorted small start order
  refine ⟨?_, wrote.full.finish.done⟩
  have entries := (Outputs.finish_entries _).trans wrote.entries
  simpa [doCompactionWork, Outputs.entries, Outputs.finish] using entries

end Loop

section Kept

variable {user : Comparator} {c : Compaction} {snap : Nat} {prev : Option Stored} {records : List Stored}
  {r r' p : Stored}

theorem Compaction.kept_sublist (prev : Option Stored) (records : List Stored) :
    (c.kept user snap prev records).Sublist records := by
  induction records generalizing prev with
  | nil => exact .slnil
  | cons r records ih =>
    rw [kept]
    split
    · exact (ih (some r)).cons r
    · exact (ih (some r)).cons_cons r

theorem Compaction.kept_append (prev : Option Stored) (first second : List Stored) :
    c.kept user snap prev (first ++ second) =
    c.kept user snap prev first ++ c.kept user snap (first.getLast?.or prev) second := by
  induction first generalizing prev with
  | nil => rfl
  | cons r first ih =>
    have last : ((r :: first).getLast?.or prev) = first.getLast?.or (some r) := by
      rw [List.getLast?_cons]
      cases first.getLast? <;> rfl
    rw [last, List.cons_append, kept, kept, ih]
    split <;> rfl

variable (c snap) in
theorem Compaction.kept_inOrder (order : InOrder user records) : InOrder user (c.kept user snap none records) :=
  List.Pairwise.sublist ((c.kept_sublist none records).map Stored.entry) order

variable [Std.TransCmp user.compare]

/-- Behind a record that every reader sees no other one of its user key is kept. -/
theorem Compaction.kept_below (order : InOrder user (p :: records)) (distinct : Distinct user (p :: records))
    (seen : p.sequence ≤ snap) (member : r ∈ c.kept user snap (some p) records) :
    user.compare r.key.userKey p.key.userKey ≠ .eq := by
  induction records generalizing p with
  | nil => cases member
  | cons first records ih =>
    have order' : InOrder user (first :: records) := (List.pairwise_cons.mp order).2
    have distinct' : Distinct user (first :: records) :=
      fun a inside b inside' => distinct a (List.mem_cons_of_mem _ inside) b (List.mem_cons_of_mem _ inside')
    have le : (user.compare p.key.userKey first.key.userKey).isLE :=
      order.users_isLE (i := 0) (j := 1) rfl rfl (Nat.zero_le _)
    by_cases same : user.compare first.key.userKey p.key.userKey = .eq
    · -- the next record is dropped, and it hides what follows as this one does
      have older := order.sequence_lt distinct (i := 0) (j := 1) rfl rfl Nat.zero_lt_one (Std.OrientedCmp.eq_symm same)
      have dropped : c.drops user snap (some p) first = true := by simp [drops, same, seen]
      rw [kept, if_pos dropped] at member
      have different := ih order' distinct' (Nat.le_trans (Nat.le_of_lt older) seen) member
      rwa [Std.TransCmp.congr_right same] at different
    · -- the user keys from the next record on are larger
      have less : user.compare p.key.userKey first.key.userKey = .lt := by
        have ne : user.compare p.key.userKey first.key.userKey ≠ .eq := mt Std.OrientedCmp.eq_symm same
        revert le ne
        cases user.compare p.key.userKey first.key.userKey <;> simp
      have present : r ∈ first :: records := (c.kept_sublist _ _).mem member
      obtain ⟨j, found⟩ := List.mem_iff_getElem?.mp present
      have rest := order'.users_isLE (i := 0) rfl found (Nat.zero_le _)
      have above := Std.TransCmp.lt_of_lt_of_isLE less rest
      rw [Std.OrientedCmp.gt_of_lt above]
      decide

variable (c snap) in
/-- Why a record is not kept. -/
theorem Compaction.kept_or (order : InOrder user records) (distinct : Distinct user records) (member : r ∈ records) :
    r ∈ c.kept user snap none records ∨
      (∃ r' ∈ records, user.compare r'.key.userKey r.key.userKey = .eq ∧ r.sequence < r'.sequence ∧
        r'.sequence ≤ snap) ∨
      r.key.type = .deletion ∧ c.isBaseLevel user r.key.userKey = true ∧ ∀ r' ∈ c.kept user snap none records,
        user.compare r'.key.userKey r.key.userKey = .eq → r.sequence < r'.sequence := by
  obtain ⟨before, behind, rfl⟩ := List.append_of_mem member
  have newer {r' : Stored} (early : r' ∈ before) (same : user.compare r'.key.userKey r.key.userKey = .eq) :
      r.sequence < r'.sequence := by
    obtain ⟨i, found⟩ := List.mem_iff_getElem?.mp early
    have inside := (List.getElem?_eq_some_iff.mp found).1
    refine order.sequence_lt distinct (i := i) (j := before.length) ?_ (by simp) inside same
    rw [List.getElem?_append_left inside, found]
  rw [kept_append, Option.or_none, kept]
  cases dropped : c.drops user snap before.getLast? r with
  | false => simp
  | true =>
    simp only [if_true]
    rcases Bool.or_eq_true_iff.mp dropped with hidden | marks
    · obtain ⟨p, last, isHidden⟩ := (Option.any_eq_true _ _).mp hidden
      simp only [Bool.and_eq_true, beq_iff_eq, decide_eq_true_eq] at isHidden
      have early := List.mem_of_getLast? last
      have same := Std.OrientedCmp.eq_symm isHidden.1
      exact Or.inr (Or.inl ⟨p, List.mem_append_left _ early, same, newer early same, isHidden.2⟩)
    · simp only [Bool.and_eq_true, beq_iff_eq, decide_eq_true_eq] at marks
      obtain ⟨⟨deleted, seen⟩, base⟩ := marks
      refine Or.inr (Or.inr ⟨deleted, base, fun r' kept same => ?_⟩)
      rcases List.mem_append.mp kept with early | late
      · exact newer ((c.kept_sublist _ _).mem early) same
      · have order' : InOrder user (r :: behind) := by
          rw [InOrder, List.map_append] at order
          exact (List.pairwise_append.mp order).2.1
        have distinct' : Distinct user (r :: behind) := fun a inside b inside' =>
          distinct a (List.mem_append_right _ inside) b (List.mem_append_right _ inside')
        exact absurd same (kept_below order' distinct' seen late)

end Kept

end WormholeFilters.LevelDb
