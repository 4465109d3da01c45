import Mathlib.Data.Nat.Basic
import Mathlib.Tactic.Ring

/-! Byte strings read and overwritten as little-endian numbers of any width. A byte
past the end reads as zero; `bytes?` is the access that fails there. -/
namespace LittleEndian

abbrev Byte := BitVec 8

def byteAt (s : List Byte) (i : Nat) : Nat := (s[i]?.getD 0#8).toNat

def load (s : List Byte) : Nat → Nat → Nat
  | _, 0 => 0
  | i, n + 1 => byteAt s i + 256 * load s (i + 1) n

def bytes? (s : List Byte) (i n : Nat) : Option Nat := if i + n ≤ s.length then some (load s i n) else none

def encode : Nat → Nat → List Byte
  | 0, _ => []
  | n + 1, v => BitVec.ofNat 8 v :: encode n (v / 256)

def store (s : List Byte) : Nat → List Byte → List Byte
  | _, [] => s
  | i, b :: bs => store (s.set i b) (i + 1) bs

variable {s t : List Byte} {i n : Nat}

theorem byteAt_lt (s : List Byte) (i : Nat) : byteAt s i < 256 := (s[i]?.getD 0#8).isLt

theorem load_lt (s : List Byte) (i n : Nat) : load s i n < 256 ^ n := by
  induction n generalizing i with
  | zero => simp [load]
  | succ n ih =>
    have low := byteAt_lt s i
    have high := ih (i + 1)
    rw [load, pow_succ]
    omega

theorem load_add (s : List Byte) (i a b : Nat) :
    load s i (a + b) = load s i a + 256 ^ a * load s (i + a) b := by
  induction a generalizing i with
  | zero => simp [load]
  | succ a ih =>
    rw [Nat.succ_add, load, load, ih, Nat.add_assoc i 1 a, Nat.add_comm 1 a, pow_succ]
    ring

/-- `n` bytes in the middle of a longer number. -/
theorem load_part (s : List Byte) (i a n b : Nat) :
    load s i (a + (n + b)) / 256 ^ a % 256 ^ n = load s (i + a) n := by
  have low := load_lt s i a
  have middle := load_lt s (i + a) n
  rw [load_add, Nat.add_mul_div_left _ _ (Nat.pow_pos (by decide)), Nat.div_eq_of_lt low, Nat.zero_add, load_add,
    Nat.add_mul_mod_self_left, Nat.mod_eq_of_lt middle]

/-- The bytes are determined by the number. -/
theorem eq_of_load_eq {s t : List Byte} (length : s.length = t.length) (same : load s 0 s.length = load t 0 s.length) :
    s = t := by
  have shift (b : Byte) (s : List Byte) (i n : Nat) : load (b :: s) (i + 1) n = load s i n := by
    induction n generalizing i with
    | zero => rfl
    | succ n ih =>
      rw [load, load, ih]
      rfl
  induction s generalizing t with
  | nil => exact (List.eq_nil_of_length_eq_zero length.symm).symm
  | cons a s ih =>
    obtain ⟨b, t, rfl⟩ := List.exists_cons_of_length_eq_add_one length.symm
    rw [List.length_cons, load, load, shift, shift] at same
    have first : byteAt (a :: s) 0 = a.toNat := rfl
    have second : byteAt (b :: t) 0 = b.toNat := rfl
    have small := a.isLt
    have small' := b.isLt
    rw [first, second] at same
    have head : a.toNat = b.toNat := by omega
    rw [BitVec.eq_of_toNat_eq head, ih (Nat.succ.inj length) (by omega)]

theorem load_congr (same : ∀ k, i ≤ k → k < i + n → s[k]? = t[k]?) : load s i n = load t i n := by
  induction n generalizing i with
  | zero => rfl
  | succ n ih =>
    rw [load, load, byteAt, byteAt, same i (Nat.le_refl i) (by omega),
      ih fun k above below => same k (by omega) (by omega)]

theorem load_append_right (s t : List Byte) (i n : Nat) : load (s ++ t) (s.length + i) n = load t i n := by
  induction n generalizing i with
  | zero => rfl
  | succ n ih =>
    rw [load, load, Nat.add_assoc, ih, byteAt, byteAt,
      List.getElem?_append_right (Nat.le_add_right _ _), Nat.add_sub_cancel_left]

theorem load_append_left (inside : i + n ≤ s.length) : load (s ++ t) i n = load s i n :=
  load_congr fun _ _ below => List.getElem?_append_left (by omega)

theorem load_zeros (m i n : Nat) : load (List.replicate m 0#8) i n = 0 := by
  induction n generalizing i with
  | zero => rfl
  | succ n ih =>
    have zero : byteAt (List.replicate m 0#8) i = 0 := by
      by_cases inside : i < m <;> simp [byteAt, inside]
    rw [load, ih, zero]

@[simp] theorem length_encode (n v : Nat) : (encode n v).length = n := by
  induction n generalizing v with
  | zero => rfl
  | succ n ih => simp [encode, ih]

@[simp] theorem length_store (s : List Byte) (i : Nat) (bs : List Byte) :
    (store s i bs).length = s.length := by
  induction bs generalizing s i with
  | nil => rfl
  | cons b bs ih => simp [store, ih]

theorem getElem?_store {bs : List Byte} {k : Nat} (outside : k < i ∨ i + bs.length ≤ k) :
    (store s i bs)[k]? = s[k]? := by
  induction bs generalizing s i with
  | nil => rfl
  | cons b bs ih =>
    simp only [List.length_cons] at outside
    rw [store, ih (by omega), List.getElem?_set_ne (by omega)]

theorem load_store_apart {bs : List Byte} {k m : Nat} (apart : k + m ≤ i ∨ i + bs.length ≤ k) :
    load (store s i bs) k m = load s k m :=
  load_congr fun _ above below => getElem?_store (by omega)

theorem load_store (v : Nat) (inside : i + n ≤ s.length) :
    load (store s i (encode n v)) i n = v % 256 ^ n := by
  induction n generalizing s i v with
  | zero => simp [load, Nat.mod_one]
  | succ n ih =>
    have later := ih (s := s.set i (BitVec.ofNat 8 v)) (i := i + 1) (v / 256) (by simpa using by omega)
    have first : byteAt (store (s.set i (BitVec.ofNat 8 v)) (i + 1) (encode n (v / 256))) i = v % 256 := by
      rw [byteAt, getElem?_store (Or.inl (Nat.lt_succ_self i)), List.getElem?_set_self (by omega),
        Option.getD_some, BitVec.toNat_ofNat]
    rw [encode, store, load, later, first, pow_succ, Nat.mul_comm (256 ^ n), Nat.mod_mul]

theorem store_append (s t : List Byte) (i : Nat) (bs : List Byte) :
    store (s ++ t) (s.length + i) bs = s ++ store t i bs := by
  induction bs generalizing t i with
  | nil => rfl
  | cons b bs ih =>
    rw [store, store, List.set_append_right _ _ (Nat.le_add_right _ _), Nat.add_sub_cancel_left,
      Nat.add_assoc, ih]

theorem load_encode (n v : Nat) : load (encode n v) 0 n = v % 256 ^ n := by
  induction n generalizing v with
  | zero => simp [load, Nat.mod_one]
  | succ n ih =>
    have rest := load_append_right [BitVec.ofNat 8 v] (encode n (v / 256)) 0 n
    rw [pow_succ, Nat.mul_comm (256 ^ n), Nat.mod_mul, ← ih, ← rest, encode, load, byteAt,
      List.getElem?_cons_zero, Option.getD_some, BitVec.toNat_ofNat]
    rfl

/-- One of the numbers stored one after another. -/
theorem load_flatMap_encode {ws : List Nat} {v : Nat} (found : ws[i]? = some v) (rest : List Byte) :
    load (ws.flatMap (encode n) ++ rest) (n * i) n = v % 256 ^ n := by
  induction ws generalizing i with
  | nil => simp at found
  | cons w ws ih =>
    rw [List.flatMap_cons, List.append_assoc]
    cases i with
    | zero =>
      obtain rfl : w = v := Option.some.inj found
      rw [Nat.mul_zero, load_append_left (by simp), load_encode]
    | succ i =>
      have later := load_append_right (encode n w) (ws.flatMap (encode n) ++ rest) (n * i) n
      rw [length_encode] at later
      rw [Nat.mul_succ, Nat.add_comm, later, ih found]

theorem length_flatMap_encode (ws : List Nat) : (ws.flatMap (encode n)).length = n * ws.length := by
  induction ws with
  | nil => rfl
  | cons w ws ih => rw [List.flatMap_cons, List.length_append, length_encode, ih, List.length_cons, Nat.mul_succ,
      Nat.add_comm]

end LittleEndian
