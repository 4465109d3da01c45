import WormholeFilters.OrderedSets
import WormholeFilters.Version

/-! A memtable as the list of its records in the order of its comparator, db/memtable.cc. The skip list under it
and the encoding of an entry in its arena are left out. -/
namespace WormholeFilters.LevelDb

open LittleEndian
open Env (Status)
open Multiversion (Newest Unseen)

def compareStored (user : Comparator) (a b : Stored) : Ordering :=
  (internalKeyComparator user).compare a.entry.1 b.entry.1

namespace MemTable

def add (user : Comparator) (table : List Stored) (r : Stored) : List Stored :=
  OrderedSets.insert (compareStored user) r table

/-- `none` where the memtable has nothing to say about the user key. -/
def get (user : Comparator) (table : List Stored) (userKey : List Byte) (sequence : Nat) :
    Option (Status × Option (List Byte)) :=
  match table[Cursors.lowerBound (internalKeyComparator user).compare (table.map Stored.entry)
    (LookupKey.internalKey userKey sequence)]? with
  | none => none
  | some r =>
    if user.compare r.key.userKey userKey = .eq then
      match r.key.type with
      | .value => some (.ok, some r.value)
      | .deletion => some (notFound, none)
    else none

end MemTable

section Order

variable {user : Comparator} {table : List Stored} {r r' : Stored} {userKey : List Byte} {sequence : Nat}

theorem compareStored_transCmp (trans : Std.TransCmp user.compare) : Std.TransCmp (compareStored user) := by
  have keys : Std.TransCmp (internalKeyComparator user).compare := InternalKeyComparator.transCmp trans
  exact { eq_swap := keys.eq_swap, isLE_trans := keys.isLE_trans }

theorem inOrder_iff_ascending : InOrder user table ↔ OrderedSets.Ascending (compareStored user) table :=
    List.pairwise_map

/-- Records with equal internal keys have the same number. -/
theorem sequence_eq_of_compareStored (same : compareStored user r r' = .eq) :
    user.compare r.key.userKey r'.key.userKey = .eq ∧ r.sequence = r'.sequence := by
  rw [compareStored, Stored.compare_entry] at same
  cases users : user.compare r.key.userKey r'.key.userKey with
  | lt => simp [users] at same
  | gt => simp [users] at same
  | eq =>
    have tags : r'.tag = r.tag := by simpa [users, Nat.compare_eq_eq] using same
    rw [Stored.tag_eq, Stored.tag_eq] at tags
    refine ⟨rfl, ?_⟩
    have small : r.key.type.toNat < 256 := by cases r.key.type <;> decide
    have small' : r'.key.type.toNat < 256 := by cases r'.key.type <;> decide
    simp only [Stored.sequence]
    omega

/-- A record with a new number is added. -/
theorem MemTable.mem_add (new : ∀ r' ∈ table, r'.sequence ≠ r.sequence) :
    r' ∈ MemTable.add user table r ↔ r' = r ∨ r' ∈ table :=
  OrderedSets.mem_insert_iff fun z member same => absurd (sequence_eq_of_compareStored same).2.symm (new z member)

variable [trans : Std.TransCmp user.compare]

theorem MemTable.inOrder_add (order : InOrder user table) (r : Stored) : InOrder user (MemTable.add user table r) := by
  have laws := compareStored_transCmp trans
  exact inOrder_iff_ascending.mpr ((inOrder_iff_ascending.mp order).insert r)

/-- A memtable answers with the newest record that the reader sees of the user key. -/
theorem MemTable.get_spec (order : InOrder user table) (small : sequence ≤ kMaxSequenceNumber) (userKey : List Byte) :
    (∃ r, Newest Stored.sequence (Of user userKey table) sequence r ∧
        MemTable.get user table userKey sequence = some r.answer) ∨
      Unseen Stored.sequence (Of user userKey table) sequence ∧ MemTable.get user table userKey sequence = none := by
  rw [MemTable.get, internalKey_eq_seekKey]
  rcases order.seek small userKey with ⟨r, found, newest⟩ | ⟨unseen, other⟩
  · refine Or.inl ⟨r, newest, ?_⟩
    rw [found]
    simp only [newest.mem.2, if_true, Stored.answer]
    cases r.key.type <;> rfl
  · refine Or.inr ⟨unseen, ?_⟩
    split
    · rfl
    · next r found => rw [if_neg (other r found)]

end Order

end WormholeFilters.LevelDb
