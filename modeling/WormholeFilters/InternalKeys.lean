import WormholeFilters.Coding
import WormholeFilters.Comparators
import WormholeFilters.FilterBlock

/-! db/dbformat.h and db/dbformat.cc: a user key with a sequence number and a type in
the eight bytes behind it, ordered with the newest entry of a user key first. -/
namespace WormholeFilters.LevelDb

open LittleEndian

inductive ValueType where
  | deletion
  | value
  deriving DecidableEq, Repr

def ValueType.toNat : ValueType → Nat
  | .deletion => 0
  | .value => 1

def kValueTypeForSeek : ValueType := .value

def kMaxSequenceNumber : Nat := 1 <<< 56 - 1

structure ParsedInternalKey where
  userKey : List Byte
  sequence : Nat
  type : ValueType
  deriving DecidableEq, Repr

def packSequenceAndType (seq : Nat) (t : ValueType) : Nat := (seq <<< 8) % 2 ^ 64 ||| t.toNat

def appendInternalKey (result : List Byte) (key : ParsedInternalKey) : List Byte :=
  putFixed64 (result ++ key.userKey) (packSequenceAndType key.sequence key.type)

/-- Asserts at least eight bytes. -/
def extractUserKey (internalKey : List Byte) : List Byte := internalKey.take (internalKey.length - 8)

def parseInternalKey (internalKey : List Byte) : Option ParsedInternalKey :=
  let n := internalKey.length
  if n < 8 then none
  else
    let num := decodeFixed64 internalKey (n - 8)
    match num &&& 0xff with
    | 0 => some ⟨internalKey.take (n - 8), num >>> 8, .deletion⟩
    | 1 => some ⟨internalKey.take (n - 8), num >>> 8, .value⟩
    | _ => none

namespace InternalKeyComparator

variable (user : Comparator)

def compare (akey bkey : List Byte) : Ordering :=
  match user.compare (extractUserKey akey) (extractUserKey bkey) with
  | .eq =>
    let anum := decodeFixed64 akey (akey.length - 8)
    let bnum := decodeFixed64 bkey (bkey.length - 8)
    if anum > bnum then .lt else if anum < bnum then .gt else .eq
  | r => r

def findShortestSeparator (start limit : List Byte) : List Byte :=
  let userStart := extractUserKey start
  let tmp := user.findShortestSeparator userStart (extractUserKey limit)
  if tmp.length < userStart.length ∧ user.compare userStart tmp = .lt then
    putFixed64 tmp (packSequenceAndType kMaxSequenceNumber kValueTypeForSeek)
  else start

def findShortSuccessor (key : List Byte) : List Byte :=
  let userKey := extractUserKey key
  let tmp := user.findShortSuccessor userKey
  if tmp.length < userKey.length ∧ user.compare userKey tmp = .lt then
    putFixed64 tmp (packSequenceAndType kMaxSequenceNumber kValueTypeForSeek)
  else key

end InternalKeyComparator

def internalKeyComparator (user : Comparator) : Comparator where
  compare := InternalKeyComparator.compare user
  findShortestSeparator := InternalKeyComparator.findShortestSeparator user
  findShortSuccessor := InternalKeyComparator.findShortSuccessor user

/-- The first `n` keys are cut to their user keys in place. -/
def internalFilterPolicy (user : FilterPolicy) : FilterPolicy where
  createFilter keys n dst :=
    user.createFilter ((keys.take n.toNat).map extractUserKey ++ keys.drop n.toNat) n dst
  keyMayMatch key filter := user.keyMayMatch (extractUserKey key) filter

def LookupKey.internalKey (userKey : List Byte) (s : Nat) : List Byte :=
  userKey ++ encodeFixed64 (packSequenceAndType s kValueTypeForSeek)

def tag (internalKey : List Byte) : Nat := decodeFixed64 internalKey (internalKey.length - 8)

section Parts

@[simp] theorem extractUserKey_append (userKey : List Byte) (num : Nat) :
    extractUserKey (userKey ++ encodeFixed64 num) = userKey := by
  simp [extractUserKey]

theorem tag_append {num : Nat} (small : num < 2 ^ 64) (userKey : List Byte) :
    tag (userKey ++ encodeFixed64 num) = num := by
  have read := decodeFixed64_encode small userKey []
  rw [List.append_nil] at read
  simpa [tag] using read

theorem packSequenceAndType_eq {seq : Nat} (small : seq ≤ kMaxSequenceNumber) (t : ValueType) :
    packSequenceAndType seq t = 256 * seq + t.toNat := by
  have bound : seq < 2 ^ 56 := Nat.lt_of_le_of_lt small (by decide)
  have low : t.toNat < 2 ^ 8 := by cases t <;> decide
  rw [packSequenceAndType, Nat.shiftLeft_eq, Nat.mod_eq_of_lt (by omega), Nat.mul_comm,
    ← Nat.two_pow_add_eq_or_of_lt low]

theorem packSequenceAndType_lt {seq : Nat} (small : seq ≤ kMaxSequenceNumber) (t : ValueType) :
    packSequenceAndType seq t < 2 ^ 64 := by
  have bound : seq < 2 ^ 56 := Nat.lt_of_le_of_lt small (by decide)
  have low : t.toNat < 2 ^ 8 := by cases t <;> decide
  rw [packSequenceAndType_eq small]
  omega

/-- `AppendInternalKey` is read back. -/
theorem parseInternalKey_append (key : ParsedInternalKey) (small : key.sequence ≤ kMaxSequenceNumber) :
    parseInternalKey (appendInternalKey [] key) = some key := by
  obtain ⟨userKey, seq, t⟩ := key
  have num := tag_append (packSequenceAndType_lt small t) userKey
  have bound : seq < 2 ^ 56 := Nat.lt_of_le_of_lt small (by decide)
  have low : packSequenceAndType seq t &&& 0xff = t.toNat := by
    rw [packSequenceAndType_eq small, show 0xff = 2 ^ 8 - 1 from rfl, Nat.and_two_pow_sub_one_eq_mod]
    cases t <;> simp only [ValueType.toNat] <;> omega
  have high : packSequenceAndType seq t >>> 8 = seq := by
    rw [packSequenceAndType_eq small, Nat.shiftRight_eq_div_pow]
    cases t <;> simp only [ValueType.toNat] <;> omega
  rw [tag] at num
  simp only [parseInternalKey, appendInternalKey, putFixed64, List.nil_append, num, low, high]
  cases t <;> simp [ValueType.toNat]

end Parts

namespace InternalKeyComparator

variable {user : Comparator}

theorem compare_eq (a b : List Byte) :
    compare user a b =
      (user.compare (extractUserKey a) (extractUserKey b)).then (Ord.compare (tag b) (tag a)) := by
  simp only [compare, tag]
  generalize decodeFixed64 a (a.length - 8) = anum
  generalize decodeFixed64 b (b.length - 8) = bnum
  cases user.compare (extractUserKey a) (extractUserKey b) with
  | eq =>
    rcases Nat.lt_trichotomy anum bnum with below | same | above
    · simp [Nat.compare_eq_gt.mpr below, below, Nat.lt_asymm below]
    · simp [same]
    · simp [Nat.compare_eq_lt.mpr above, above]
  | lt => rfl
  | gt => rfl

theorem compare_of_user_lt {a b : List Byte} (below : user.compare (extractUserKey a) (extractUserKey b) = .lt) :
    compare user a b = .lt := by
  rw [compare_eq, below]
  rfl

theorem transCmp (trans : Std.TransCmp user.compare) : Std.TransCmp (compare user) := by
  have users : Std.TransCmp (fun a b => user.compare (extractUserKey a) (extractUserKey b)) :=
    { eq_swap := trans.eq_swap, isLE_trans := trans.isLE_trans }
  have tags : Std.TransCmp (fun a b : List Byte => Ord.compare (tag b) (tag a)) :=
    { eq_swap := Std.OrientedCmp.eq_swap
      isLE_trans := fun first second => Std.TransCmp.isLE_trans second first }
  have same : compare user = compareLex (fun a b => user.compare (extractUserKey a) (extractUserKey b))
      (fun a b => Ord.compare (tag b) (tag a)) := funext fun a => funext fun b => compare_eq a b
  rw [same]
  infer_instance

/-- The separator is the start, or has a shorter user key strictly between the two. -/
theorem findShortestSeparator_cases (law : user.Lawful) (keeps : user.KeepsEqual) {start limit : List Byte}
    (below : compare user start limit = .lt) :
    findShortestSeparator user start limit = start ∨
      user.compare (extractUserKey start) (extractUserKey (findShortestSeparator user start limit)) = .lt ∧
      user.compare (extractUserKey (findShortestSeparator user start limit)) (extractUserKey limit) = .lt ∧
      (findShortestSeparator user start limit).length < start.length := by
  simp only [findShortestSeparator]
  split
  · next shorter =>
    refine Or.inr ?_
    simp only [putFixed64, extractUserKey_append]
    have users : user.compare (extractUserKey start) (extractUserKey limit) = .lt := by
      rw [compare_eq] at below
      cases order : user.compare (extractUserKey start) (extractUserKey limit) with
      | lt => rfl
      | gt => rw [order] at below; cases below
      | eq =>
        rw [keeps order] at shorter
        exact absurd shorter.1 (Nat.lt_irrefl _)
    have cut : (extractUserKey start).length = start.length - 8 := by simp [extractUserKey]
    refine ⟨shorter.2, law.separator_lt_limit users, ?_⟩
    rw [List.length_append, length_encodeFixed64]
    omega
  · exact Or.inl rfl

theorem lawful (law : user.Lawful) (keeps : user.KeepsEqual) : (internalKeyComparator user).Lawful where
  trans := transCmp law.trans
  start_le_separator {start limit} below := by
    have := transCmp law.trans
    simp only [internalKeyComparator]
    obtain same | ⟨above, _, _⟩ := findShortestSeparator_cases law keeps below
    · rw [same]
      exact Std.ReflCmp.isLE_rfl
    · exact Ordering.isLE_of_eq_lt (compare_of_user_lt above)
  separator_lt_limit {start limit} below := by
    simp only [internalKeyComparator] at below ⊢
    obtain same | ⟨_, above, _⟩ := findShortestSeparator_cases law keeps below
    · rw [same, below]
    · exact compare_of_user_lt above
  le_successor key := by
    have := transCmp law.trans
    simp only [internalKeyComparator, findShortSuccessor]
    split
    · next shorter =>
      apply Ordering.isLE_of_eq_lt
      apply compare_of_user_lt
      rw [putFixed64, extractUserKey_append]
      exact shorter.2
    · exact Std.ReflCmp.isLE_rfl

/-- No key of the limit's user key is hidden by a separator that the start is below. -/
theorem separator_lt_of_user_eq (law : user.Lawful) (keeps : user.KeepsEqual) {start limit key : List Byte}
    (below : compare user start limit = .lt) (above : compare user start key = .lt)
    (same : user.compare (extractUserKey key) (extractUserKey limit) = .eq) :
    compare user (findShortestSeparator user start limit) key = .lt := by
  have := law.trans
  obtain unchanged | ⟨_, separated, _⟩ := findShortestSeparator_cases law keeps below
  · rw [unchanged, above]
  · exact compare_of_user_lt (Std.TransCmp.lt_of_lt_of_eq separated (Std.OrientedCmp.eq_symm same))

/-- A key with the user key of an entry is meant to find it. -/
def Near (user : Comparator) (k e : List Byte) : Prop := user.compare (extractUserKey k) (extractUserKey e) = .eq

theorem users_isLE {a b : List Byte} (le : (compare user a b).isLE) :
    (user.compare (extractUserKey a) (extractUserKey b)).isLE := by
  rw [compare_eq] at le
  cases order : user.compare (extractUserKey a) (extractUserKey b) with
  | lt | eq => rfl
  | gt => rw [order] at le; cases le

theorem separates (law : user.Lawful) (keeps : user.KeepsEqual) :
    (internalKeyComparator user).Separates (Near user) where
  between {k m e} same above below := by
    have := law.trans
    refine Std.OrientedCmp.isLE_antisymm (users_isLE above) ?_
    exact Std.TransCmp.isLE_trans (users_isLE below) (Ordering.isLE_of_eq_eq (Std.OrientedCmp.eq_symm same))
  separator below above same := separator_lt_of_user_eq law keeps below above same

theorem shortens (user : Comparator) : (internalKeyComparator user).Shortens := by
  have shorter {key tmp : List Byte} {num : Nat} (cut : tmp.length < (extractUserKey key).length) :
      (putFixed64 tmp num).length ≤ key.length := by
    rw [extractUserKey, List.length_take] at cut
    rw [putFixed64, List.length_append, length_encodeFixed64]
    omega
  constructor
  · intro start limit
    simp only [internalKeyComparator, findShortestSeparator]
    split
    · next cut => exact shorter cut.1
    · exact Nat.le_refl _
  · intro key
    simp only [internalKeyComparator, findShortSuccessor]
    split
    · next cut => exact shorter cut.1
    · exact Nat.le_refl _

/-- Over any user comparator that keeps the header's contract and does not separate
equal keys, the separator of two internal keys is between them and not longer than the
first, and stays below every lookup key of the second one's user key that the first is
below: an index built from separators cannot send a lookup to the block before. -/
theorem separator_exact (law : user.Lawful) (keeps : user.KeepsEqual) (start limit : List Byte)
    (below : (internalKeyComparator user).compare start limit = .lt) :
    let c := internalKeyComparator user
    let separator := c.findShortestSeparator start limit
    (c.compare start separator).isLE ∧ c.compare separator limit = .lt ∧ separator.length ≤ start.length ∧
      ∀ s, c.compare start (LookupKey.internalKey (extractUserKey limit) s) = .lt →
        c.compare separator (LookupKey.internalKey (extractUserKey limit) s) = .lt := by
  intro c separator
  have := law.trans
  refine ⟨(lawful law keeps).start_le_separator below, (lawful law keeps).separator_lt_limit below, ?_, ?_⟩
  · obtain same | ⟨_, _, shorter⟩ := findShortestSeparator_cases law keeps below
    · exact Nat.le_of_eq (congrArg List.length same)
    · exact Nat.le_of_lt shorter
  · intro s above
    refine separator_lt_of_user_eq law keeps below above ?_
    rw [LookupKey.internalKey, extractUserKey_append]
    exact Std.ReflCmp.compare_self

theorem separator_exact_bytewise :
    let c := internalKeyComparator bytewiseComparator
    let start := appendInternalKey [] ⟨[97#8, 98#8, 99#8], 5, .value⟩
    let limit := appendInternalKey [] ⟨[97#8, 100#8], 3, .value⟩
    (c.compare start (c.findShortestSeparator start limit)).isLE ∧
      c.compare (c.findShortestSeparator start limit) limit = .lt := by
  intro c start limit
  obtain ⟨above, below, _⟩ := separator_exact BytewiseComparator.lawful BytewiseComparator.keepsEqual start
    limit (by decide)
  exact ⟨above, below⟩

end InternalKeyComparator

end WormholeFilters.LevelDb
