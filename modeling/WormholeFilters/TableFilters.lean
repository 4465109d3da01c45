import WormholeFilters.Snapshots
import WormholeFilters.Table

/-! The filters of a store's tables. A store wraps the policy of its options in `InternalFilterPolicy`,
db/dbformat.cc, so the filters are over user keys. -/
namespace WormholeFilters.LevelDb

open LittleEndian
open FilterBlockBuilder (Appends filterOf rangeKeys)
open TableBuilder (filterBlocks dataBlocks dataBlocks_entries)
open Table (memoryFile blockFilter)

section Policies

variable {policy : FilterPolicy} {keys : List (List Byte)} {signedChar : Bool}

theorem toInt32_of_lt {n : Nat} (small : n < 2 ^ 31) : toInt32 n = n := by
  rw [toInt32, BitVec.toInt_ofNat', Int.bmod_eq_of_le]
  all_goals omega

theorem FilterBlockBuilder.Appends.internal (appends : Appends policy) : Appends (internalFilterPolicy policy) :=
  fun _ n dst => appends _ n dst

theorem filterOf_internal (policy : FilterPolicy) (count : keys.length < 2 ^ 31) :
    filterOf (internalFilterPolicy policy) keys = filterOf policy (keys.map extractUserKey) := by
  cases keys with
  | nil => rfl
  | cons key keys =>
    simp only [filterOf, internalFilterPolicy, toInt32_of_lt count, Int.toNat_natCast, List.take_length,
      List.drop_length, List.append_nil, List.length_map]
    rfl

theorem filterOf_wormhole (nonempty : keys ≠ []) (count : keys.length < 2 ^ 31) :
    filterOf (wormholeFilterPolicy signedChar) keys = createFilter signedChar keys keys.length [] := by
  rw [filterOf, if_neg (by simpa using nonempty), toInt32_of_lt count]
  rfl

theorem wormhole_answers (count : keys.length < 2 ^ 31) (key : List Byte) :
    (keyMayMatch signedChar key (filterOf (wormholeFilterPolicy signedChar) keys)).isSome = true := by
  by_cases nonempty : keys = []
  · rw [nonempty]
    rfl
  · have sized := numBuckets_sized count
    have := sized.neZero
    obtain ⟨answer, matched, -⟩ := sized.keyMayMatch_iff signedChar key (ringSize_le_buckets signedChar _ keys)
    rw [filterOf_wormhole nonempty count, createFilter_eq, List.nil_append, Int.toNat_natCast,
      List.take_length, matched]
    rfl

theorem wormhole_matched_iff_fits (count : keys.length < 2 ^ 31) :
    (∀ key ∈ keys, keyMayMatch signedChar key (filterOf (wormholeFilterPolicy signedChar) keys) = some true) ↔
      Fits signedChar keys := by
  rw [← all_matched_iff_fits count []]
  refine forall₂_congr fun key member => ?_
  rw [filterOf_wormhole (List.ne_nil_of_mem member) count]
  rfl

end Policies

def tableBlocks (port : Port) (o : TableOptions) (records : List Stored) : List DataBlock :=
  dataBlocks port o memoryFile [] (records.map Stored.entry)

/-- For each data block, the user keys of its filter. -/
def filterUserKeys (port : Port) (o : TableOptions) (records : List Stored) : List (List (List Byte)) :=
  let blocks := tableBlocks port o records
  blocks.map fun b => (rangeKeys (filterBlocks blocks) (b.handle.offset / filterBase)).map extractUserKey

/-- The filters of a table with the records do not hide one of the user key. -/
def TableOptions.Shows (user : Comparator) (port : Port) (o : TableOptions) (records : List Stored)
    (userKey : List Byte) (s : Nat) : Prop :=
  ∀ r ∈ records, user.compare r.key.userKey userKey = .eq →
    Table.Matched o (tableBlocks port o records) (seekKey userKey s) r.entry.1

theorem extractUserKey_seekKey (userKey : List Byte) (s : Nat) : extractUserKey (seekKey userKey s) = userKey := by
  simp [seekKey, appendInternalKey, putFixed64]

section Tables

variable {user : Comparator} {port : Port} {o : TableOptions} {records : List Stored} {userKey : List Byte} {s : Nat}
  {blocks : List DataBlock} {b : DataBlock} {name : List Byte} {signedChar : Bool}

theorem length_rangeKeys_le (blocks : List DataBlock) (range : Nat) :
    (rangeKeys (filterBlocks blocks) range).length ≤ (blocks.flatMap DataBlock.entries).length := by
  rw [rangeKeys, filterBlocks, List.flatMap_map]
  induction blocks with
  | nil => exact Nat.le_refl _
  | cons b blocks ih =>
    rw [List.flatMap_cons, List.flatMap_cons, List.length_append, List.length_append]
    refine Nat.add_le_add ?_ ih
    split
    · rw [List.length_map]
    · exact Nat.zero_le _

theorem length_rangeKeys_lt (few : records.length < 2 ^ 31) (range : Nat) :
    (rangeKeys (filterBlocks (tableBlocks port o records)) range).length < 2 ^ 31 := by
  refine Nat.lt_of_le_of_lt (length_rangeKeys_le _ _) ?_
  rwa [tableBlocks, dataBlocks_entries, List.length_map]

theorem mem_rangeKeys_iff {range : Nat} {k : List Byte} : k ∈ rangeKeys (filterBlocks blocks) range ↔
    ∃ b ∈ blocks, b.handle.offset / filterBase = range ∧ k ∈ b.entries.map Prod.fst := by
  rw [rangeKeys, filterBlocks, List.flatMap_map, List.mem_flatMap]
  refine exists_congr fun b => and_congr_right fun _ => ?_
  dsimp only
  split
  next inRange => exact (and_iff_right inRange).symm
  next other => exact ⟨fun impossible => absurd impossible List.not_mem_nil, fun given => absurd given.1 other⟩

/-- A search with `InternalFilterPolicy` in the filter of a block. -/
theorem keyMayMatch_blockFilter (policy : FilterPolicy) (few : records.length < 2 ^ 31) (b : DataBlock)
    (k : List Byte) :
    (internalFilterPolicy policy).keyMayMatch k
      (blockFilter (internalFilterPolicy policy) (tableBlocks port o records) b) = policy.keyMayMatch (extractUserKey k)
        (filterOf policy ((rangeKeys (filterBlocks (tableBlocks port o records)) (b.handle.offset / filterBase)).map
          extractUserKey)) :=
  congrArg (policy.keyMayMatch _) (filterOf_internal policy (length_rangeKeys_lt few _))

theorem length_filterUserKeys (few : records.length < 2 ^ 31) {keys : List (List Byte)}
    (member : keys ∈ filterUserKeys port o records) : keys.length < 2 ^ 31 := by
  obtain ⟨b, -, rfl⟩ := List.mem_map.mp member
  rw [List.length_map]
  exact length_rangeKeys_lt few _

theorem exists_stored (present : b ∈ tableBlocks port o records) {k : List Byte} (inside : k ∈ b.entries.map Prod.fst) :
    ∃ r ∈ records, r.entry.1 = k := by
  obtain ⟨e, inBlock, rfl⟩ := List.mem_map.mp inside
  have all : e ∈ (tableBlocks port o records).flatMap DataBlock.entries := List.mem_flatMap.mpr ⟨b, present, inBlock⟩
  rw [tableBlocks, dataBlocks_entries] at all
  obtain ⟨r, member, rfl⟩ := List.mem_map.mp all
  exact ⟨r, member, rfl⟩

variable (policy : o.filterPolicy = some (name, internalFilterPolicy (wormholeFilterPolicy signedChar)))

include policy in
theorem TableOptions.answers_wormhole (few : records.length < 2 ^ 31) (k : List Byte) :
    Table.Answers o (tableBlocks port o records) k := by
  intro name' policy' given
  obtain ⟨rfl, rfl⟩ := Prod.mk.inj (Option.some.inj (policy.symm.trans given))
  refine ⟨(wormhole_appends signedChar).internal, fun b present => ?_⟩
  rw [keyMayMatch_blockFilter _ few]
  exact wormhole_answers (length_filterUserKeys few (List.mem_map_of_mem present)) _

include policy in
/-- The wormhole filters of a table hide none of its user keys exactly when in each filter every user key, at
its turn, is stored already or has room. -/
theorem TableOptions.shows_wormhole_iff [Std.LawfulEqCmp user.compare] (few : records.length < 2 ^ 31) (s : Nat) :
    (∀ userKey, o.Shows user port records userKey s) ↔
      ∀ keys ∈ filterUserKeys port o records, Fits signedChar keys := by
  constructor
  · intro shows keys member
    refine (wormhole_matched_iff_fits (length_filterUserKeys few member)).mp fun userKey sought => ?_
    obtain ⟨b, present, rfl⟩ := List.mem_map.mp member
    obtain ⟨k, inRange, rfl⟩ := List.mem_map.mp sought
    obtain ⟨b', present', range, inside⟩ := mem_rangeKeys_iff.mp inRange
    obtain ⟨r, stored, rfl⟩ := exists_stored present' inside
    have matched := (shows r.key.userKey r stored Std.ReflCmp.compare_self name _ policy).2 b' present' inside
    rwa [keyMayMatch_blockFilter _ few, range, extractUserKey_seekKey, ← r.extractUserKey_entry] at matched
  · intro fits userKey r stored same name' policy' given
    obtain ⟨rfl, rfl⟩ := Prod.mk.inj (Option.some.inj (policy.symm.trans given))
    refine ⟨(wormhole_appends signedChar).internal, fun b present inside => ?_⟩
    have member := List.mem_map_of_mem (f := fun b => (rangeKeys (filterBlocks (tableBlocks port o records))
      (b.handle.offset / filterBase)).map extractUserKey) present
    have matched := (wormhole_matched_iff_fits (length_filterUserKeys few member)).mpr (fits _ member) r.key.userKey
      (List.mem_map.mpr ⟨_, mem_rangeKeys_iff.mpr ⟨b, present, rfl, inside⟩, r.extractUserKey_entry⟩)
    rw [keyMayMatch_blockFilter _ few, extractUserKey_seekKey, ← Std.LawfulEqCmp.eq_of_compare same]
    exact matched

end Tables

end WormholeFilters.LevelDb
