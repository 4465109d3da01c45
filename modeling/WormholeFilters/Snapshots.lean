import WormholeFilters.InternalKeys
import WormholeFilters.Multiversion
import WormholeFilters.SortedEntries

/-! What a reader at a sequence number sees of the records of a store: for every user
key the newest record not younger than the number, unless that is a deletion. -/
namespace WormholeFilters.LevelDb

open LittleEndian
open Cursors (Sorted selected rank lowerBound)

structure Stored where
  key : ParsedInternalKey
  value : List Byte
  small : key.sequence ≤ kMaxSequenceNumber
  deriving DecidableEq, Repr

def Stored.put (k sequence : Byte) : Stored :=
  ⟨⟨[k], sequence.toNat, .value⟩, [1#8], Nat.le_trans (Nat.le_of_lt sequence.isLt) (by decide)⟩

def Stored.entry (r : Stored) : List Byte × List Byte := (appendInternalKey [] r.key, r.value)

def Stored.tag (r : Stored) : Nat := packSequenceAndType r.key.sequence r.key.type

def Stored.visible (sequence : Nat) (r : Stored) : Bool := r.key.sequence ≤ sequence

def seekKey (userKey : List Byte) (sequence : Nat) : List Byte :=
  appendInternalKey [] ⟨userKey, sequence, kValueTypeForSeek⟩

theorem internalKey_eq_seekKey (userKey : List Byte) (sequence : Nat) :
    LookupKey.internalKey userKey sequence = seekKey userKey sequence := rfl

def InOrder (user : Comparator) (records : List Stored) : Prop :=
  Sorted (internalKeyComparator user).compare (records.map Stored.entry)

instance (user : Comparator) (records : List Stored) : Decidable (InOrder user records) :=
  inferInstanceAs (Decidable (Sorted (internalKeyComparator user).compare (records.map Stored.entry)))

/-- Record `i` is a visible value and the first visible record of its user key. -/
def shows (user : Comparator) (sequence : Nat) (records : List Stored) (i : Nat) : Bool :=
  match records[i]? with
  | none => false
  | some r => r.visible sequence && r.key.type == .value && (records.take i).all fun f =>
      !(f.visible sequence && user.compare f.key.userKey r.key.userKey == .eq)

def view (user : Comparator) (sequence : Nat) (records : List Stored) : List (List Byte × List Byte) :=
  (selected (shows user sequence records) records).map fun r => (r.key.userKey, r.value)

section Order

variable {user : Comparator} {records : List Stored} {a b r f : Stored} {i j : Nat}

theorem Stored.parse_entry (r : Stored) : parseInternalKey r.entry.1 = some r.key :=
  parseInternalKey_append r.key r.small

theorem Stored.entry_injective (same : a.entry = b.entry) : a = b := by
  have keys := a.parse_entry.symm.trans ((congrArg (fun e => parseInternalKey e.1) same).trans b.parse_entry)
  have values : a.value = b.value := congrArg Prod.snd same
  cases a
  cases b
  cases keys
  cases values
  rfl

@[simp] theorem Stored.extractUserKey_entry (r : Stored) : extractUserKey r.entry.1 = r.key.userKey := by
  simp [Stored.entry, appendInternalKey, putFixed64]

theorem Stored.tag_entry (r : Stored) : LevelDb.tag r.entry.1 = r.tag := by
  have read := tag_append (packSequenceAndType_lt r.small r.key.type) r.key.userKey
  simpa [Stored.entry, Stored.tag, appendInternalKey, putFixed64] using read

theorem Stored.tag_eq (r : Stored) : r.tag = 256 * r.key.sequence + r.key.type.toNat :=
  packSequenceAndType_eq r.small r.key.type

theorem Stored.sequence_le_of_tag_lt (below : a.tag < b.tag) : a.key.sequence ≤ b.key.sequence := by
  have bound : b.key.type.toNat ≤ 1 := by cases b.key.type <;> decide
  have first := a.tag_eq
  have second := b.tag_eq
  omega

theorem Stored.compare_entry (user : Comparator) (a b : Stored) :
    (internalKeyComparator user).compare a.entry.1 b.entry.1 =
    (user.compare a.key.userKey b.key.userKey).then (Ord.compare b.tag a.tag) := by
  rw [← tag_entry, ← tag_entry, ← extractUserKey_entry, ← extractUserKey_entry]
  exact InternalKeyComparator.compare_eq a.entry.1 b.entry.1

theorem getElem?_entry (found : records[i]? = some r) : (records.map Stored.entry)[i]? = some r.entry := by
  rw [List.getElem?_map, found, Option.map_some]

theorem InOrder.users_isLE [Std.TransCmp user.compare] (order : InOrder user records) (first : records[i]? = some a)
    (second : records[j]? = some b) (le : i ≤ j) : (user.compare a.key.userKey b.key.userKey).isLE := by
  rcases Nat.eq_or_lt_of_le le with rfl | before
  · rw [Option.some.inj (first.symm.trans second)]
    exact Std.ReflCmp.isLE_rfl
  · have below := Sorted.lt order (getElem?_entry first) (getElem?_entry second) before
    rw [Stored.compare_entry] at below
    cases users : user.compare a.key.userKey b.key.userKey with
    | lt | eq => rfl
    | gt =>
      rw [users] at below
      cases below

/-- Of two records of one user key the first has the larger number. -/
theorem InOrder.tag_lt (order : InOrder user records) (first : records[i]? = some a)
    (second : records[j]? = some b) (before : i < j) (same : user.compare a.key.userKey b.key.userKey = .eq) :
    b.tag < a.tag := by
  have below := Sorted.lt order (getElem?_entry first) (getElem?_entry second) before
  rw [Stored.compare_entry, same] at below
  exact Nat.compare_eq_lt.mp below

theorem Stored.entry_lt_seekKey_iff (user : Comparator) {sequence : Nat} (small : sequence ≤ kMaxSequenceNumber)
    (r : Stored) (target : List Byte) : (internalKeyComparator user).compare r.entry.1 (seekKey target sequence) = .lt ↔
      user.compare r.key.userKey target = .lt ∨
        user.compare r.key.userKey target = .eq ∧ r.visible sequence ≠ true := by
  have sought := compare_entry user r ⟨⟨target, sequence, kValueTypeForSeek⟩, [], small⟩
  have bound : r.key.type.toNat ≤ 1 := by cases r.key.type <;> decide
  have number : r.tag = 256 * r.key.sequence + r.key.type.toNat := r.tag_eq
  have limit : packSequenceAndType sequence kValueTypeForSeek = 256 * sequence + 1 :=
    packSequenceAndType_eq small .value
  change (internalKeyComparator user).compare r.entry.1 (seekKey target sequence) = _ at sought
  rw [sought]
  cases users : user.compare r.key.userKey target with
  | lt => simp
  | gt => simp
  | eq =>
    simp only [Ordering.then, Stored.tag, limit, Stored.visible, reduceCtorEq, true_and, false_or, decide_eq_true_eq,
      ne_eq, Nat.not_le, Nat.compare_eq_lt]
    simp only [Stored.tag] at number
    omega

end Order

section View

variable {user : Comparator} {sequence : Nat} {records : List Stored} {r f : Stored} {i j : Nat}

theorem shows_iff (found : records[i]? = some r) : shows user sequence records i = true ↔
    r.visible sequence = true ∧ r.key.type = .value ∧ ∀ j f, records[j]? = some f → j < i →
      f.visible sequence = true → user.compare f.key.userKey r.key.userKey ≠ .eq := by
  simp only [shows, found, Bool.and_eq_true, beq_iff_eq, List.all_eq_true, Bool.not_eq_eq_eq_not, Bool.not_true,
    Bool.and_eq_false_imp, beq_eq_false_iff_ne, and_assoc, Cursors.mem_take_iff, forall_exists_index, and_imp]
  refine and_congr_right fun _ => and_congr_right fun _ => ⟨?_, ?_⟩
  · exact fun first j f other before => first f j before other
  · exact fun first f j before other => first j f other before

theorem not_shows (found : records[i]? = some r) (hidden : r.visible sequence = true → r.key.type = .value →
    ∃ j f, records[j]? = some f ∧ j < i ∧ f.visible sequence = true ∧
      user.compare f.key.userKey r.key.userKey = .eq) : shows user sequence records i ≠ true := by
  rw [ne_eq, shows_iff found]
  rintro ⟨visible, isValue, first⟩
  obtain ⟨j, f, other, before, seen, same⟩ := hidden visible isValue
  exact first j f other before seen same

theorem length_view : (view user sequence records).length = rank (shows user sequence records) records.length := by
  rw [view, List.length_map, Cursors.length_selected]

theorem getElem?_view (here : shows user sequence records i = true) (found : records[i]? = some r) :
    (view user sequence records)[rank (shows user sequence records) i]? = some (r.key.userKey, r.value) := by
  rw [view, List.getElem?_map, Cursors.getElem?_selected here found, Option.map_some]

theorem exists_of_getElem?_view {p : Nat} {e : List Byte × List Byte}
    (found : (view user sequence records)[p]? = some e) : ∃ i r, shows user sequence records i = true ∧
      records[i]? = some r ∧ e = (r.key.userKey, r.value) ∧ p = rank (shows user sequence records) i := by
  rw [view, List.getElem?_map, Option.map_eq_some_iff] at found
  obtain ⟨r, found, rfl⟩ := found
  obtain ⟨i, here, at_i, rfl⟩ := Cursors.exists_of_getElem?_selected found
  exact ⟨i, r, here, at_i, rfl, rfl⟩

theorem rank_shows_le (i : Nat) :
    rank (shows user sequence records) i ≤ rank (shows user sequence records) records.length := by
  rcases Nat.le_total i records.length with le | ge
  · exact Cursors.rank_mono le
  · refine Nat.le_of_eq (Cursors.rank_eq_of_none_chosen ge fun k after _ => ?_).symm
    rw [shows, List.getElem?_eq_none after]
    exact Bool.false_ne_true

section InOrder

variable [Std.TransCmp user.compare] (order : InOrder user records)

include order in
theorem users_lt_of_shows (first : records[i]? = some f) (second : records[j]? = some r) (before : i < j)
    (visible : f.visible sequence = true) (here : shows user sequence records j = true) :
    user.compare f.key.userKey r.key.userKey = .lt := by
  have le := order.users_isLE first second (Nat.le_of_lt before)
  have different := ((shows_iff second).mp here).2.2 i f first before visible
  cases users : user.compare f.key.userKey r.key.userKey <;> simp_all

include order in
theorem view_sorted : Sorted user.compare (view user sequence records) := by
  refine List.pairwise_iff_getElem.mpr fun p q insideP insideQ before => ?_
  obtain ⟨i, r, showsR, foundR, sameR, rfl⟩ := exists_of_getElem?_view (List.getElem?_eq_getElem insideP)
  obtain ⟨j, f, showsF, foundF, sameF, rfl⟩ := exists_of_getElem?_view (List.getElem?_eq_getElem insideQ)
  rw [sameR, sameF]
  exact users_lt_of_shows order foundR foundF (Cursors.lt_of_rank_lt before) ((shows_iff foundR).mp showsR).1 showsF

include order in
/-- A reader sees exactly the values that are the newest visible records of their user keys. -/
theorem mem_view_iff (userKey value : List Byte) :
    (userKey, value) ∈ view user sequence records ↔ ∃ r ∈ records, r.key.userKey = userKey ∧ r.value = value ∧
      r.visible sequence = true ∧ r.key.type = .value ∧ ∀ f ∈ records, f.visible sequence = true →
        user.compare f.key.userKey userKey = .eq → f.tag ≤ r.tag := by
  constructor
  · intro member
    obtain ⟨p, found⟩ := List.mem_iff_getElem?.mp member
    obtain ⟨i, r, here, foundR, same, rfl⟩ := exists_of_getElem?_view found
    cases same
    obtain ⟨visible, isValue, first⟩ := (shows_iff foundR).mp here
    refine ⟨r, List.mem_of_getElem? foundR, rfl, rfl, visible, isValue, fun f member seen same => ?_⟩
    obtain ⟨j, foundF⟩ := List.mem_iff_getElem?.mp member
    rcases Nat.lt_trichotomy j i with before | rfl | after
    · exact absurd same (first j f foundF before seen)
    · rw [Option.some.inj (foundF.symm.trans foundR)]
    · exact Nat.le_of_lt (order.tag_lt foundR foundF after (Std.OrientedCmp.eq_symm same))
  · rintro ⟨r, member, rfl, rfl, visible, isValue, newest⟩
    obtain ⟨i, foundR⟩ := List.mem_iff_getElem?.mp member
    refine List.mem_of_getElem? (getElem?_view ((shows_iff foundR).mpr ⟨visible, isValue, ?_⟩) foundR)
    intro j f foundF before seen same
    have above := order.tag_lt foundF foundR before same
    have le := newest f (List.mem_of_getElem? foundF) seen same
    omega

include order in
/-- Seeking a user key in the view is seeking it with the sequence number among the records. -/
theorem lowerBound_view (small : sequence ≤ kMaxSequenceNumber) (target : List Byte) :
    lowerBound user.compare (view user sequence records) target =
      rank (shows user sequence records) (lowerBound (internalKeyComparator user).compare
        (records.map Stored.entry) (seekKey target sequence)) := by
  have trans : Std.TransCmp (internalKeyComparator user).compare := InternalKeyComparator.transCmp inferInstance
  -- of the records shown, those before the place sought are those of smaller user keys
  have before_iff {i : Nat} {r : Stored} (found : records[i]? = some r)
      (here : shows user sequence records i = true) : i < lowerBound (internalKeyComparator user).compare
        (records.map Stored.entry) (seekKey target sequence) ↔ user.compare r.key.userKey target = .lt := by
    have visible := ((shows_iff found).mp here).1
    rw [Sorted.lt_lowerBound_iff order (getElem?_entry found), Stored.entry_lt_seekKey_iff user small]
    simp [visible]
  refine Cursors.lowerBound_eq (by rw [length_view]; exact rank_shows_le _) ?_ ?_
  · intro p e found before
    obtain ⟨i, r, here, foundR, rfl, rfl⟩ := exists_of_getElem?_view found
    exact (before_iff foundR here).mp (Cursors.lt_of_rank_lt before)
  · intro e found
    obtain ⟨i, r, here, foundR, rfl, same⟩ := exists_of_getElem?_view found
    refine mt (before_iff foundR here).mpr fun before => ?_
    have below := Cursors.rank_lt here before
    omega

end InOrder

end View

/-- The records of a user key. -/
def Of (user : Comparator) (userKey : List Byte) (records : List Stored) (r : Stored) : Prop :=
  r ∈ records ∧ user.compare r.key.userKey userKey = .eq

def Stored.sequence (r : Stored) : Nat := r.key.sequence

/-- Where a reader seeks a user key, it comes to the newest record it sees of it, if there is one, and to no record
of it otherwise. -/
theorem InOrder.seek {user : Comparator} [Std.TransCmp user.compare] {records : List Stored}
    (order : InOrder user records) {sequence : Nat} (small : sequence ≤ kMaxSequenceNumber) (userKey : List Byte) :
    let p := lowerBound (internalKeyComparator user).compare (records.map Stored.entry) (seekKey userKey sequence)
    (∃ r, records[p]? = some r ∧ Multiversion.Newest Stored.sequence (Of user userKey records) sequence r) ∨
      Multiversion.Unseen Stored.sequence (Of user userKey records) sequence ∧
        ∀ r, records[p]? = some r → user.compare r.key.userKey userKey ≠ .eq := by
  intro p
  have trans : Std.TransCmp (internalKeyComparator user).compare := InternalKeyComparator.transCmp inferInstance
  have before {i : Nat} {r : Stored} (found : records[i]? = some r) : i < p ↔
      user.compare r.key.userKey userKey = .lt ∨
        user.compare r.key.userKey userKey = .eq ∧ r.visible sequence ≠ true := by
    rw [Sorted.lt_lowerBound_iff order (getElem?_entry found), Stored.entry_lt_seekKey_iff user small]
  by_cases seen : ∃ (i : Nat) (r : Stored), records[i]? = some r ∧ user.compare r.key.userKey userKey = .eq ∧
    r.visible sequence = true
  · obtain ⟨i, r, found, same, visible⟩ := seen
    have after : p ≤ i := by
      refine Nat.not_lt.mp fun early => ?_
      rcases (before found).mp early with less | ⟨_, hidden⟩
      · simp [same] at less
      · exact hidden visible
    have inside := Nat.lt_of_le_of_lt after (List.getElem?_eq_some_iff.mp found).1
    have here := List.getElem?_eq_getElem inside
    have le := order.users_isLE here found after
    have reached := mt (before here).mpr (Nat.lt_irrefl p)
    have same' : user.compare records[p].key.userKey userKey = .eq := by
      refine Ordering.eq_eq_of_isLE_of_isGE (Std.TransCmp.isLE_trans le (Ordering.isLE_of_eq_eq same)) ?_
      exact Ordering.isGE_iff_ne_lt.mpr fun less => reached (Or.inl less)
    refine Or.inl ⟨records[p], here, ⟨List.getElem_mem inside, same'⟩, ?_, fun r' ⟨member, isOf⟩ seen => ?_⟩
    · have visible' := Classical.not_not.mp fun hidden => reached (Or.inr ⟨same', hidden⟩)
      exact of_decide_eq_true visible'
    · obtain ⟨j, found'⟩ := List.mem_iff_getElem?.mp member
      rcases Nat.lt_trichotomy j p with early | rfl | late
      · rcases (before found').mp early with less | ⟨_, hidden⟩
        · simp [isOf] at less
        · exact absurd (decide_eq_true seen) hidden
      · exact Nat.le_of_eq (congrArg Stored.sequence (Option.some.inj (found'.symm.trans here)))
      · have below := order.tag_lt here found' late
          (Std.TransCmp.eq_trans same' (Std.OrientedCmp.eq_symm isOf))
        exact Stored.sequence_le_of_tag_lt below
  · refine Or.inr ⟨fun r ⟨member, same⟩ => ?_, fun r found same => ?_⟩
    · obtain ⟨i, found⟩ := List.mem_iff_getElem?.mp member
      exact Nat.not_le.mp fun visible => seen ⟨i, r, found, same, decide_eq_true visible⟩
    · have reached := mt (before found).mpr (Nat.lt_irrefl p)
      have visible := Classical.not_not.mp fun hidden => reached (Or.inr ⟨same, hidden⟩)
      exact seen ⟨p, r, found, same, visible⟩

/-- No two records of a user key have the same number. -/
def Distinct (user : Comparator) (records : List Stored) : Prop :=
  ∀ a ∈ records, ∀ b ∈ records, user.compare a.key.userKey b.key.userKey = .eq → a.sequence = b.sequence → a = b

/-- Of two records of a user key the one that is first in order is newer. -/
theorem Stored.sequence_lt_of_entry_lt {user : Comparator} {a b : Stored}
    (less : (internalKeyComparator user).compare a.entry.1 b.entry.1 = .lt)
    (same : user.compare a.key.userKey b.key.userKey = .eq) (different : a.sequence ≠ b.sequence) :
    b.sequence < a.sequence := by
  rw [compare_entry, same] at less
  have le : b.sequence ≤ a.sequence := sequence_le_of_tag_lt (Nat.compare_eq_lt.mp less)
  omega

theorem InOrder.sequence_lt {user : Comparator} {records : List Stored} {a b : Stored} {i j : Nat}
    (order : InOrder user records) (distinct : Distinct user records) (first : records[i]? = some a)
    (second : records[j]? = some b) (before : i < j) (same : user.compare a.key.userKey b.key.userKey = .eq) :
    b.sequence < a.sequence := by
  have below := Sorted.lt order (getElem?_entry first) (getElem?_entry second) before
  refine Stored.sequence_lt_of_entry_lt below same fun equal => ?_
  have tags := order.tag_lt first second before same
  rw [distinct a (List.mem_of_getElem? first) b (List.mem_of_getElem? second) same equal] at tags
  exact Nat.lt_irrefl _ tags

end WormholeFilters.LevelDb
