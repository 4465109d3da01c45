import WormholeFilters.LittleEndian
import Mathlib.Data.List.Basic
import Mathlib.Order.Basic

/-! include/leveldb/comparator.h, util/comparator.cc and `Slice::compare`. -/
namespace WormholeFilters.LevelDb

open LittleEndian

/-- The sign of `Compare` is an `Ordering`; the two shorteners rewrite the string they are given. -/
structure Comparator where
  compare : List Byte → List Byte → Ordering
  findShortestSeparator : List Byte → List Byte → List Byte
  findShortSuccessor : List Byte → List Byte

/-- What include/leveldb/comparator.h asks of an implementation: a total order, a
separator in `[start, limit)` and a successor not below its key. -/
structure Comparator.Lawful (c : Comparator) : Prop where
  trans : Std.TransCmp c.compare
  start_le_separator {start limit : List Byte} :
    c.compare start limit = .lt → (c.compare start (c.findShortestSeparator start limit)).isLE
  separator_lt_limit {start limit : List Byte} :
    c.compare start limit = .lt → c.compare (c.findShortestSeparator start limit) limit = .lt
  le_successor (key : List Byte) : (c.compare key (c.findShortSuccessor key)).isLE

/-- A key is not separated from one it equals. The header does not ask for it, but
`InternalKeyComparator` separates two entries of one user key by this method too. -/
def Comparator.KeepsEqual (c : Comparator) : Prop :=
  ∀ {start limit : List Byte}, c.compare start limit = .eq → c.findShortestSeparator start limit = start

structure Comparator.Shortens (c : Comparator) : Prop where
  separator (start limit : List Byte) : (c.findShortestSeparator start limit).length ≤ start.length
  successor (key : List Byte) : (c.findShortSuccessor key).length ≤ key.length

/-- `near k e` where a search for `k` is meant to find the key `e` behind it: then a separator
of `e` from what is below `k` is below `k` as well. -/
structure Comparator.Separates (c : Comparator) (near : List Byte → List Byte → Prop) : Prop where
  between {k m e : List Byte} : near k e → (c.compare k m).isLE → (c.compare m e).isLE → near k m
  separator {start limit k : List Byte} : c.compare start limit = .lt → c.compare start k = .lt → near k limit →
    c.compare (c.findShortestSeparator start limit) k = .lt

def memcmp : Nat → List Byte → List Byte → Ordering
  | n + 1, a :: as, b :: bs => if a = b then memcmp n as bs else if a.toNat < b.toNat then .lt else .gt
  | _, _, _ => .eq

def Slice.compare (a b : List Byte) : Ordering :=
  let minLen := if a.length < b.length then a.length else b.length
  match memcmp minLen a b with
  | .eq => if a.length < b.length then .lt else if a.length > b.length then .gt else .eq
  | r => r

/-- Length of the common prefix, as counted by the loops over two keys here and in table/block_builder.cc. -/
def sharedPrefix : List Byte → List Byte → Nat
  | a :: as, b :: bs => if a = b then sharedPrefix as bs + 1 else 0
  | _, _ => 0

namespace BytewiseComparator

def findShortestSeparator (start limit : List Byte) : List Byte :=
  let minLength := min start.length limit.length
  let diffIndex := sharedPrefix start limit
  if diffIndex ≥ minLength then start
  else
    let diffByte := byteAt start diffIndex
    if diffByte < 0xff ∧ diffByte + 1 < byteAt limit diffIndex then
      (start.set diffIndex (BitVec.ofNat 8 (diffByte + 1))).take (diffIndex + 1)
    else start

/-- The first character that can be incremented ends the key. -/
def incrementFirst : List Byte → Option (List Byte)
  | [] => none
  | byte :: rest => if byte ≠ 0xff#8 then some [byte + 1#8] else (incrementFirst rest).map (byte :: ·)

def findShortSuccessor (key : List Byte) : List Byte := (incrementFirst key).getD key

end BytewiseComparator

def bytewiseComparator : Comparator where
  compare := Slice.compare
  findShortestSeparator := BytewiseComparator.findShortestSeparator
  findShortSuccessor := BytewiseComparator.findShortSuccessor

section Order

theorem compare_byte (a b : Byte) :
    Ord.compare a b = if a = b then .eq else if a.toNat < b.toNat then .lt else .gt := by
  by_cases same : a = b
  · subst same
    rw [if_pos rfl]
    exact Std.ReflCmp.compare_self
  · simp only [Ord.compare, compareOfLessAndEq, BitVec.lt_def, if_neg same]

theorem compare_byte_lt {a b : Byte} (below : a.toNat < b.toNat) : Ord.compare a b = .lt := by
  have different : a ≠ b := fun same => Nat.lt_irrefl _ (same ▸ below)
  rw [compare_byte, if_neg different, if_pos below]

theorem compare_append (front a b : List Byte) : Ord.compare (front ++ a) (front ++ b) = Ord.compare a b := by
  induction front with
  | nil => rfl
  | cons x front ih => simp [List.compare_cons_cons, ih]

/-- Two strings that part at a smaller byte. -/
theorem compare_part_lt {x y : Byte} (below : x.toNat < y.toNat) (front as bs : List Byte) :
    Ord.compare (front ++ x :: as) (front ++ y :: bs) = .lt := by
  rw [compare_append, List.compare_cons_cons, compare_byte_lt below]
  rfl

/-- Comparing the common length first and the lengths after it is the lexicographic order. -/
theorem Slice.compare_eq (a b : List Byte) : Slice.compare a b = Ord.compare a b := by
  induction a generalizing b with
  | nil => cases b <;> simp [Slice.compare, memcmp]
  | cons x a ih =>
    cases b with
    | nil => simp [Slice.compare, memcmp]
    | cons y b =>
      have later := ih b
      simp only [Slice.compare] at later
      rw [List.compare_cons_cons, compare_byte, ← later]
      by_cases same : x = y
      · by_cases shorter : a.length < b.length <;> simp [Slice.compare, memcmp, same, shorter]
      · by_cases shorter : a.length < b.length <;> by_cases below : x.toNat < y.toNat <;>
          simp [Slice.compare, memcmp, same, shorter, below]

theorem sharedPrefix_split (a b : List Byte) :
    ∃ front a' b', a = front ++ a' ∧ b = front ++ b' ∧ front.length = sharedPrefix a b ∧
      ∀ x ∈ a'.head?, ∀ y ∈ b'.head?, x ≠ y := by
  induction a generalizing b with
  | nil => exact ⟨[], [], b, rfl, rfl, by simp [sharedPrefix], by simp⟩
  | cons x a ih =>
    cases b with
    | nil => exact ⟨[], x :: a, [], rfl, rfl, by simp [sharedPrefix], by simp⟩
    | cons y b =>
      by_cases same : x = y
      · obtain ⟨front, a', b', rfl, rfl, length, parted⟩ := ih b
        exact ⟨x :: front, a', b', rfl, by rw [same]; rfl, by simp [sharedPrefix, same, length], parted⟩
      · exact ⟨[], x :: a, y :: b, rfl, rfl, by simp [sharedPrefix, same], by simpa using same⟩

theorem sharedPrefix_le_left (a b : List Byte) : sharedPrefix a b ≤ a.length := by
  obtain ⟨front, a', b', rfl, _, length, _⟩ := sharedPrefix_split a b
  rw [List.length_append]
  omega

theorem take_sharedPrefix (a b : List Byte) : a.take (sharedPrefix a b) = b.take (sharedPrefix a b) := by
  obtain ⟨front, a', b', ha, hb, length, _⟩ := sharedPrefix_split a b
  rw [← length]
  nth_rewrite 1 [ha]
  nth_rewrite 1 [hb]
  rw [List.take_left, List.take_left]

end Order

/-- A search for a key that is there. -/
theorem Comparator.Lawful.separates {c : Comparator} (law : c.Lawful) :
    c.Separates (fun k e => c.compare k e = .eq) where
  between {k m e} same above below := by
    have := law.trans
    refine Std.OrientedCmp.isLE_antisymm above ?_
    exact Std.TransCmp.isLE_trans below (Ordering.isLE_of_eq_eq (Std.OrientedCmp.eq_symm same))
  separator less _ same := by
    have := law.trans
    exact Std.TransCmp.lt_of_lt_of_eq (law.separator_lt_limit less) (Std.OrientedCmp.eq_symm same)

namespace BytewiseComparator

/-- The separator is the start, or its part up to the first difference with one more in the last byte. -/
theorem findShortestSeparator_cases (start limit : List Byte) :
    findShortestSeparator start limit = start ∨
      ∃ front x y as bs, start = front ++ x :: as ∧ limit = front ++ y :: bs ∧ x.toNat + 1 < y.toNat ∧
        findShortestSeparator start limit = front ++ [x + 1#8] := by
  obtain ⟨front, a', b', ha, hb, length, _⟩ := sharedPrefix_split start limit
  simp only [findShortestSeparator, ← length]
  split
  · exact Or.inl rfl
  · next parted =>
    split
    · next room =>
      rw [ha, hb, List.length_append, List.length_append] at parted
      obtain ⟨x, as, rfl⟩ : ∃ x as, a' = x :: as := List.exists_cons_of_length_pos (by omega)
      obtain ⟨y, bs, rfl⟩ : ∃ y bs, b' = y :: bs := List.exists_cons_of_length_pos (by omega)
      have low : byteAt start front.length = x.toNat := by simp [byteAt, ha]
      have high : byteAt limit front.length = y.toNat := by simp [byteAt, hb]
      rw [low, high] at room
      refine Or.inr ⟨front, x, y, as, bs, ha, hb, room.2, ?_⟩
      have next : BitVec.ofNat 8 (x.toNat + 1) = x + 1#8 := by
        apply BitVec.eq_of_toNat_eq
        simp
      rw [low, next, ha, List.set_append_right _ _ (Nat.le_refl _), Nat.sub_self, List.set_cons_zero,
        List.take_append, List.take_of_length_le (by omega), Nat.add_sub_cancel_left]
      rfl
    · exact Or.inl rfl

theorem toNat_add_one {x : Byte} (room : x.toNat + 1 < 256) : (x + 1#8).toNat = x.toNat + 1 := by
  simpa [BitVec.toNat_add] using room

theorem le_incrementFirst {key shorter : List Byte} (found : incrementFirst key = some shorter) :
    Ord.compare key shorter = .lt := by
  induction key generalizing shorter with
  | nil => cases found
  | cons x key ih =>
    by_cases last : x = 0xff#8
    · simp only [incrementFirst, last, ne_eq, not_true_eq_false, if_false, Option.map_eq_some_iff] at found
      obtain ⟨rest, foundRest, rfl⟩ := found
      rw [last, ← List.singleton_append, ← List.singleton_append (l := rest), compare_append]
      exact ih foundRest
    · simp only [incrementFirst, ne_eq, last, not_false_eq_true, if_true, Option.some.injEq] at found
      have room : x.toNat + 1 < 256 := by
        have notLast : x.toNat ≠ 255 := fun full => last (BitVec.eq_of_toNat_eq full)
        have below := x.isLt
        omega
      rw [← found]
      exact compare_part_lt (by rw [toNat_add_one room]; omega) [] key []

theorem lawful : bytewiseComparator.Lawful where
  trans := by
    have same : bytewiseComparator.compare = Ord.compare := funext fun a => funext fun b => Slice.compare_eq a b
    rw [same]
    infer_instance
  start_le_separator {start limit} _ := by
    simp only [bytewiseComparator, Slice.compare_eq]
    obtain same | ⟨front, x, y, as, bs, rfl, rfl, room, short⟩ := findShortestSeparator_cases start limit
    · rw [same]
      exact Std.ReflCmp.isLE_rfl
    · have one := toNat_add_one (x := x) (by have := y.isLt; omega)
      rw [short, compare_part_lt (by omega) front as []]
      rfl
  separator_lt_limit {start limit} below := by
    simp only [bytewiseComparator, Slice.compare_eq] at below ⊢
    obtain same | ⟨front, x, y, as, bs, rfl, rfl, room, short⟩ := findShortestSeparator_cases start limit
    · rw [same, below]
    · have one := toNat_add_one (x := x) (by have := y.isLt; omega)
      rw [short, compare_part_lt (by omega) front [] bs]
  le_successor key := by
    simp only [bytewiseComparator, Slice.compare_eq, findShortSuccessor]
    cases found : incrementFirst key with
    | none => exact Std.ReflCmp.isLE_rfl
    | some shorter => rw [Option.getD_some, le_incrementFirst found]; rfl

theorem length_incrementFirst_le {key shorter : List Byte} (found : incrementFirst key = some shorter) :
    shorter.length ≤ key.length := by
  induction key generalizing shorter with
  | nil => cases found
  | cons x key ih =>
    rw [incrementFirst] at found
    split at found
    · cases found
      exact Nat.succ_le_succ (Nat.zero_le _)
    · obtain ⟨rest, foundRest, rfl⟩ := Option.map_eq_some_iff.mp found
      exact Nat.succ_le_succ (ih foundRest)

instance : Std.TransCmp bytewiseComparator.compare := lawful.trans

instance : Std.LawfulEqCmp bytewiseComparator.compare where
  eq_of_compare {a b} same := by
    simp only [bytewiseComparator, Slice.compare_eq] at same
    exact Std.LawfulEqCmp.eq_of_compare same

theorem shortens : bytewiseComparator.Shortens where
  separator start limit := by
    obtain same | ⟨front, x, y, as, bs, rfl, rfl, room, short⟩ := findShortestSeparator_cases start limit
    · exact Nat.le_of_eq (congrArg List.length same)
    · simp only [bytewiseComparator, short, List.length_append, List.length_cons]
      exact Nat.add_le_add_left (Nat.succ_le_succ (Nat.zero_le _)) _
  successor key := by
    simp only [bytewiseComparator, findShortSuccessor]
    cases found : incrementFirst key with
    | none => exact Nat.le_refl _
    | some shorter => exact length_incrementFirst_le found

theorem keepsEqual : bytewiseComparator.KeepsEqual := by
  intro start limit same
  simp only [bytewiseComparator, Slice.compare_eq] at same ⊢
  obtain unchanged | ⟨front, x, y, as, bs, rfl, rfl, room, _⟩ := findShortestSeparator_cases start limit
  · exact unchanged
  · rw [compare_part_lt (by omega) front as bs] at same
    cases same

end BytewiseComparator

end WormholeFilters.LevelDb
