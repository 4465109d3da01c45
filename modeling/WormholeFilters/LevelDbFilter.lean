import WormholeFilters.Hash64
import WormholeFilters.InsertLoop
import WormholeFilters.RingRuns
import Mathlib.Data.Nat.Size
import Mathlib.Data.Rat.Floor
import Mathlib.Tactic.Linarith
import Mathlib.Tactic.NormNum
import Mathlib.Tactic.Positivity

/-! The filter policy of `util/wormhole.cc`. The buckets are bytes of the string the
filter is appended to; a bucket's byte offset is computed in 32 bits, so with more
than `2 ^ 29` buckets several of them share their bytes. -/
namespace WormholeFilters.LevelDb

open LittleEndian RingTable

def mod (idx numBuckets : Nat) : Nat := idx &&& wrapSub 64 numBuckets 1

def indexHash (hv numBuckets : Nat) : Nat := mod hv numBuckets % 2 ^ 32

def tagHash (hv : Nat) : Nat :=
  let tag := hv &&& (2 ^ 12 - 1)
  tag + if tag = 0 then 1 else 0

def upperpower2 (x : Word) : Word :=
  let x := x - 1
  let x := x ||| (x >>> 1)
  let x := x ||| (x >>> 2)
  let x := x ||| (x >>> 4)
  let x := x ||| (x >>> 8)
  let x := x ||| (x >>> 16)
  let x := x ||| (x >>> 32)
  x + 1

/-- The offset of a bucket from `array`, with `i_m * 8` wrapping at 32 bits. -/
def bucketOffset (i numBuckets : Nat) : Nat := mod i numBuckets % 2 ^ 32 * 8 % 2 ^ 32

/-- `array` is the address of byte `array` of the string. -/
def readTag (array numBuckets : Nat) (dst : List Byte) (i j : Nat) : Nat :=
  load dst (array + bucketOffset i numBuckets + 2 * j) 2 &&& tagMask

def writeTag (array numBuckets : Nat) (dst : List Byte) (i j t : Nat) : List Byte :=
  store dst (array + bucketOffset i numBuckets + 2 * j) (encode 2 (t &&& tagMask))

def access (array numBuckets : Nat) : Access (List Byte) :=
  ⟨readTag array numBuckets, writeTag array numBuckets, writeTag array numBuckets⟩

def initBuckIdx (numBuckets : Nat) (hashcode : Word) : Nat :=
  indexHash (hashcode.toNat % 2 ^ 32) numBuckets

def tagOf (hashcode : Word) : Nat := tagHash ((hashcode >>> 32).toNat % 2 ^ 32)

def insertItem (array numBuckets : Nat) (dst : List Byte) (hashcode : Word) : Bool × List Byte :=
  WormholeFilters.insert (access array numBuckets) numBuckets (initBuckIdx numBuckets hashcode)
    (tagOf hashcode <<< 4) dst

/-- The size `CreateFilter` computes for `n` keys, a C `int`; its quotients are exact. -/
def numBuckets (n : Int) : Nat :=
  let count := (upperpower2 (BitVec.ofNat 64 (max 1 (BitVec.ofInt 64 (n.tdiv tagPerBuk)).toNat))).toNat
  let frac : Rat := n / count / tagPerBuk
  if frac > 0.8 then count * 2 % 2 ^ 64 else count

/-- The loop of `CreateFilter` over the keys. It drops the results. -/
def insertKeys (signedChar : Bool) (array numBuckets : Nat) (keys : List (List Byte)) (dst : List Byte) :
    List Bool × List Byte :=
  callAll (fun dst key => insertItem array numBuckets dst (wormholeHash signedChar key)) keys dst

def createFilter (signedChar : Bool) (keys : List (List Byte)) (n : Int) (dst : List Byte) : List Byte :=
  let bytes := 8 * numBuckets n
  let array := dst.length
  let dst := dst ++ List.replicate bytes 0#8
  let dst := (insertKeys signedChar array (numBuckets n) (keys.take n.toNat) dst).2
  dst ++ encode 8 (numBuckets n)

/-- What the `InsertItem` calls of `createFilter` return. -/
def insertResults (signedChar : Bool) (keys : List (List Byte)) (n : Int) (dst : List Byte) : List Bool :=
  (insertKeys signedChar dst.length (numBuckets n) (keys.take n.toNat)
    (dst ++ List.replicate (8 * numBuckets n) 0#8)).1

/-- The probes left, in order; `none` is a read outside the filter. -/
def probe (filter : List Byte) (numBuckets initBuckIdx tag : Nat) : List Nat → Option Bool
  | [] => some false
  | prob :: rest => do
    let word ← bytes? filter (bucketOffset (initBuckIdx + prob) numBuckets) 8
    if hasvalue16 (BitVec.ofNat 64 word) (BitVec.ofNat 64 (tag <<< 4 ||| prob)) ≠ 0#64 then some true
    else probe filter numBuckets initBuckIdx tag rest

def keyMayMatch (signedChar : Bool) (key filter : List Byte) : Option Bool :=
  let len := filter.length
  if len < 2 then some false
  else do
    let numBuckets ← bytes? filter (wrapSub 64 len 8) 8
    let hashcode := wormholeHash signedChar key
    probe filter numBuckets (initBuckIdx numBuckets hashcode) (tagOf hashcode) (List.range maxProb)

/-- The number of buckets with bytes of their own. -/
def ringSize (numBuckets : Nat) : Nat := min numBuckets (2 ^ 29)

/-- The bucket counts `CreateFilter` uses for a positive number of keys. -/
def Sized (numBuckets : Nat) : Prop := ∃ k ≤ 30, numBuckets = 2 ^ k

/-- Bit `i` of `y` is set when `x` has a set bit among the `w` positions from `i` on. -/
private def Smeared (x y : Word) (w : Nat) : Prop :=
  ∀ i, y.getLsbD i = true ↔ ∃ j, i ≤ j ∧ j < i + w ∧ x.getLsbD j = true

private theorem Smeared.double {x y : Word} {w : Nat} (smeared : Smeared x y w) :
    Smeared x (y ||| (y >>> w)) (2 * w) := by
  intro i
  rw [BitVec.getLsbD_or, BitVec.getLsbD_ushiftRight, Bool.or_eq_true, smeared, smeared]
  constructor
  · rintro (⟨j, above, below, set⟩ | ⟨j, above, below, set⟩)
    · exact ⟨j, above, by omega, set⟩
    · exact ⟨j, by omega, by omega, set⟩
  · rintro ⟨j, above, below, set⟩
    by_cases low : j < i + w
    · exact Or.inl ⟨j, above, low, set⟩
    · exact Or.inr ⟨j, by omega, by omega, set⟩

private theorem Smeared.toNat {x y : Word} (smeared : Smeared x y 64) :
    y.toNat = 2 ^ x.toNat.size - 1 := by
  apply Nat.eq_of_testBit_eq
  intro i
  rw [Nat.testBit_two_pow_sub_one, Bool.eq_iff_iff, decide_eq_true_iff, Nat.lt_size]
  refine (smeared i).trans ⟨?_, fun le => ?_⟩
  · rintro ⟨j, above, _, set⟩
    exact (Nat.pow_le_pow_right (by decide) above).trans (Nat.ge_two_pow_of_testBit set)
  · obtain ⟨j, above, set⟩ := Nat.exists_ge_and_testBit_of_ge_two_pow le
    have inside : j < 64 := BitVec.lt_of_getLsbD (x := x) set
    exact ⟨j, above, by omega, set⟩

theorem upperpower2_eq {x : Word} (pos : 0 < x.toNat) (small : x.toNat ≤ 2 ^ 63) :
    (upperpower2 x).toNat = 2 ^ (x.toNat - 1).size := by
  have start : Smeared (x - 1) (x - 1) 1 := by
    intro i
    refine ⟨fun set => ⟨i, Nat.le_refl i, by omega, set⟩, ?_⟩
    rintro ⟨j, above, below, set⟩
    rwa [show i = j by omega]
  have ones := start.double.double.double.double.double.double.toNat
  have pred : (x - 1).toNat = x.toNat - 1 := by
    rw [BitVec.toNat_sub_of_le (by rw [BitVec.le_def]; exact pos)]; rfl
  have size : (x.toNat - 1).size ≤ 63 := Nat.size_le.mpr (by omega)
  have bound := Nat.pow_le_pow_right (show 0 < 2 by decide) size
  have one := Nat.two_pow_pos (x.toNat - 1).size
  rw [pred] at ones
  rw [upperpower2, BitVec.toNat_add, ones]
  change (2 ^ (x.toNat - 1).size - 1 + 1) % 2 ^ 64 = _
  omega

/-- The power of two that `upperpower2` gives, doubled when the load would exceed 0.8. -/
theorem numBuckets_eq {n : Nat} (bound : n < 2 ^ 31) : numBuckets n =
    let count := 2 ^ (max 1 (n / 4) - 1).size
    if 16 * count < 5 * n then 2 * count else count := by
  have quotient : BitVec.ofInt 64 ((n : Int).tdiv tagPerBuk) = BitVec.ofNat 64 (n / 4) := by
    rw [← BitVec.ofInt_natCast]
    congr 1
  have request : (BitVec.ofNat 64 (max 1 (n / 4))).toNat = max 1 (n / 4) := by
    rw [BitVec.toNat_ofNat, Nat.mod_eq_of_lt (by omega)]
  have count := upperpower2_eq (x := BitVec.ofNat 64 (max 1 (n / 4))) (by omega) (by omega)
  rw [request] at count
  have size : (max 1 (n / 4) - 1).size ≤ 29 := Nat.size_le.mpr (by omega)
  have large := Nat.pow_le_pow_right (show 0 < 2 by decide) size
  have pos := Nat.two_pow_pos (max 1 (n / 4) - 1).size
  rw [numBuckets, quotient, BitVec.toNat_ofNat, Nat.mod_eq_of_lt (show n / 4 < 2 ^ 64 by omega), count]
  generalize 2 ^ (max 1 (n / 4) - 1).size = c at large pos
  have load : ((n : Int) : Rat) / c / tagPerBuk > 0.8 ↔ 16 * c < 5 * n := by
    have divisor : (0 : Rat) < c * 4 := by positivity
    rw [gt_iff_lt, div_div, tagPerBuk, Nat.cast_ofNat, lt_div_iff₀ divisor, Int.cast_natCast,
      ← @Nat.cast_lt Rat]
    push_cast
    constructor <;> intro heavy <;> linarith
  simp only [load]
  split
  · omega
  · rfl

theorem numBuckets_sized {n : Nat} (bound : n < 2 ^ 31) : Sized (numBuckets n) := by
  have size : (max 1 (n / 4) - 1).size ≤ 29 := Nat.size_le.mpr (by omega)
  rw [numBuckets_eq bound]
  simp only
  split
  · exact ⟨(max 1 (n / 4) - 1).size + 1, by omega, by rw [pow_succ, Nat.mul_comm]⟩
  · exact ⟨(max 1 (n / 4) - 1).size, by omega, rfl⟩

section Ring

variable {N : Nat}

theorem Sized.le (sized : Sized N) : N ≤ 2 ^ 30 := by
  obtain ⟨k, bound, rfl⟩ := sized
  exact Nat.pow_le_pow_right (by decide) bound

theorem Sized.pos (sized : Sized N) : 0 < N := by
  obtain ⟨k, _, rfl⟩ := sized
  exact Nat.two_pow_pos k

theorem Sized.mod_eq (sized : Sized N) (i : Nat) : mod i N = i % N := by
  obtain ⟨k, _, rfl⟩ := sized
  rw [mod, wrapSub_of_le (Nat.two_pow_pos k), Nat.and_two_pow_sub_one_eq_mod]

theorem Sized.ringSize_pos (sized : Sized N) : 0 < ringSize N := by
  have := sized.pos
  rw [ringSize]
  omega

theorem Sized.neZero (sized : Sized N) : NeZero (ringSize N) := ⟨Nat.ne_of_gt sized.ringSize_pos⟩

/-- Buckets are told apart by their index modulo the ring, under every index. -/
theorem Sized.bucketOffset_eq (sized : Sized N) (i : Nat) : bucketOffset i N = 8 * (i % ringSize N) := by
  rw [bucketOffset, sized.mod_eq]
  obtain ⟨k, bound, rfl⟩ := sized
  rcases Nat.eq_or_lt_of_le bound with rfl | below
  · rw [ringSize, show min (2 ^ 30) (2 ^ 29) = 2 ^ 29 from rfl]
    omega
  · have large : 2 ^ k ≤ 2 ^ 29 := Nat.pow_le_pow_right (by decide) (by omega)
    have inside := Nat.mod_lt i (Nat.two_pow_pos k)
    rw [ringSize, Nat.min_eq_left large]
    omega

theorem Sized.initBuckIdx_lt (sized : Sized N) (hashcode : Word) : initBuckIdx N hashcode < N := by
  have inside := Nat.mod_lt (hashcode.toNat % 2 ^ 32) sized.pos
  rw [initBuckIdx, indexHash, sized.mod_eq]
  omega

theorem tagOf_bounds (hashcode : Word) : 0 < tagOf hashcode ∧ tagOf hashcode < 2 ^ 12 := by
  have low := Nat.and_two_pow_sub_one_eq_mod ((hashcode >>> 32).toNat % 2 ^ 32) 12
  have bound := Nat.mod_lt ((hashcode >>> 32).toNat % 2 ^ 32) (show 0 < 2 ^ 12 by decide)
  rw [tagOf, tagHash, low]
  generalize (hashcode >>> 32).toNat % 2 ^ 32 % 2 ^ 12 = r at bound ⊢
  split <;> omega

theorem and_tagMask (v : Nat) : v &&& tagMask = v % 2 ^ 16 := Nat.and_two_pow_sub_one_eq_mod v 16

theorem Sized.readTag_writeTag (sized : Sized N) {array : Nat} {dst : List Byte}
    (inside : array + 8 * ringSize N ≤ dst.length) {i j t i' j' : Nat} (slot : j < 4) (slot' : j' < 4)
    (bound : t < 2 ^ 16) : readTag array N (writeTag array N dst i j t) i' j' =
      if i' % ringSize N = i % ringSize N ∧ j' = j then t else readTag array N dst i' j' := by
  have index := Nat.mod_lt i sized.ringSize_pos
  have index' := Nat.mod_lt i' sized.ringSize_pos
  rw [readTag, readTag, writeTag, sized.bucketOffset_eq, sized.bucketOffset_eq, and_tagMask, and_tagMask,
    and_tagMask, Nat.mod_eq_of_lt bound]
  generalize i % ringSize N = b at index ⊢
  generalize i' % ringSize N = b' at index' ⊢
  by_cases same : b' = b ∧ j' = j
  · obtain ⟨rfl, rfl⟩ := same
    rw [if_pos ⟨rfl, rfl⟩, load_store t (by omega)]
    omega
  · rw [if_neg same, load_store_apart]
    rw [length_encode]
    omega

theorem Sized.lawful (sized : Sized N) (array : Nat) :
    Lawful (access array N) (ringSize N) (fun dst => array + 8 * ringSize N ≤ dst.length) where
  fits := by rw [ringSize]; omega
  read_lt := fun _ => by
    simp only [access, LevelDb.readTag, and_tagMask]
    exact Nat.mod_lt _ (by decide)
  read_mod := fun _ => by
    simp only [access, LevelDb.readTag, sized.bucketOffset_eq, Nat.mod_mod]
  move_ok := fun ok => by simpa only [access, writeTag, length_store] using ok
  write_ok := fun ok => by simpa only [access, writeTag, length_store] using ok
  read_move := fun ok _ _ slot slot' bound => sized.readTag_writeTag ok slot slot' bound
  read_write := fun ok _ _ slot slot' bound => sized.readTag_writeTag ok slot slot' bound

/-- The buckets of an array that a string begins with. -/
theorem Sized.lawful_start (sized : Sized N) :
    Lawful (access 0 N) (ringSize N) (fun array => 8 * ringSize N ≤ array.length) := by
  have lawful := sized.lawful 0
  rwa [Nat.zero_add] at lawful

/-- The pair a hash code stands for: the home bucket on the ring, and the tag. -/
def pair (N : Nat) (hashcode : Word) : ZMod (ringSize N) × Nat :=
  ((initBuckIdx N hashcode : ZMod (ringSize N)), tagOf hashcode)

def ringTable (N : Nat) (array : List Byte) : Table (ringSize N) 4 Nat :=
  table (access 0 N) (ringSize N) array

/-- A call of `InsertItem` carries out an insertion of its hash code's pair. -/
theorem Sized.inserter (sized : Sized N) : Inserter 16 (ringTable N)
    (fun array => 8 * ringSize N ≤ array.length) (pair N) (insertItem 0 N) := by
  have := sized.neZero
  have spec : ∀ {array : List Byte} (hashcode : Word), 8 * ringSize N ≤ array.length →
      8 * ringSize N ≤ (insertItem 0 N array hashcode).2.length ∧
      Insertion 16 (ringTable N array) (pair N hashcode).1 (pair N hashcode).2
        (insertItem 0 N array hashcode).1 (ringTable N (insertItem 0 N array hashcode).2) := by
    intro array hashcode inside
    obtain ⟨nonzero, bound⟩ := tagOf_bounds hashcode
    have home := sized.initBuckIdx_lt hashcode
    have size := sized.le
    have result := insert_spec sized.lawful_start inside (Nat.min_le_left N (2 ^ 29))
      (show initBuckIdx N hashcode + N < 2 ^ 32 by omega) nonzero bound
    rw [insertItem, Nat.shiftLeft_eq, Nat.mul_comm (tagOf hashcode)]
    exact result
  exact ⟨fun hashcode ok => (spec hashcode ok).1, fun hashcode ok => (spec hashcode ok).2⟩

end Ring

end WormholeFilters.LevelDb
