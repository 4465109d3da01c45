import WormholeFilters.InsertLoop
import Mathlib.Data.Rat.Floor
import Mathlib.Tactic.NormNum

/-! The persistent-memory filter of `pmwormholefilter.hpp`. A store reaches the
volatile image of `buckets_`; `pmemobj_persist` copies one bucket to the image
that survives a crash. Reads see the volatile image. -/
namespace WormholeFilters.Pm

/-- `int((max_num_keys / SLOT_PER_BUK) / 0.8)`, with the quotient taken exactly. -/
def numBuckets (maxNumKeys : Nat) : Nat := (((maxNumKeys / tagPerBuk : Nat) : Rat) / 0.8).floor.toNat

structure Memory (N : Nat) where
  volatile : Vector Word N
  persistent : Vector Word N
  deriving DecidableEq, Repr

/-- The array `TX_ZALLOC` hands out: all zero, and durable when `init` commits. -/
def init (N : Nat) : Memory N := ⟨Vector.replicate N 0#64, Vector.replicate N 0#64⟩

def bucket (image : Vector Word N) (i : Nat) : Word := image[i]?.getD 0#64

def hasher (key : Word) : Word := key

def indexHash (hv N : Nat) : Nat := hv % N

def tagHash (hv : Nat) : Nat :=
  let tag := hv &&& (2 ^ 12 - 1)
  let tag := tag + if tag = 0 then 1 else 0
  tag <<< 4

def readTag (m : Memory N) (i j : Nat) : Nat := slot (bucket m.volatile (i % N)) j

def writeTag (m : Memory N) (i j t : Nat) : Memory N :=
  { m with volatile := m.volatile.setIfInBounds (i % N) (setSlot (bucket m.volatile (i % N)) j t) }

def persist (m : Memory N) (i : Nat) : Memory N :=
  { m with persistent := m.persistent.setIfInBounds i (bucket m.volatile i) }

def pmWriteTag (m : Memory N) (i j t : Nat) : Memory N := persist (writeTag m i j t) (i % N)

/-- Displaced tags are persisted, the new tag is not. -/
def access (N : Nat) : Access (Memory N) := ⟨readTag, pmWriteTag, writeTag⟩

/-- `index_hash(hash, num_buckets_)`; the argument is cut to 32 bits. -/
def initBuckIdx (N : Nat) (key : Word) : Nat := indexHash ((hasher key).toNat % 2 ^ 32) N

def tagOf (key : Word) : Nat := tagHash ((hasher key >>> 32).toNat % 2 ^ 32)

def insert (m : Memory N) (key : Word) : Bool × Memory N :=
  WormholeFilters.insert (access N) N (initBuckIdx N key) (tagOf key) m

def lookup (m : Memory N) (key : Word) : Bool :=
  (List.range maxProb).any fun prob =>
    hasvalue16 (bucket m.volatile ((initBuckIdx N key + prob) % N)) (BitVec.ofNat 64 (tagOf key ||| prob)) != 0#64

/-- The loops of `pmwormholefilter_delete`, up to the slot they clear. -/
def findTag (m : Memory N) (key : Word) : Option (Nat × Nat) :=
  (List.range maxProb).findSome? fun prob =>
    (List.range tagPerBuk).findSome? fun currTagIdx =>
      if readTag m ((initBuckIdx N key + prob) % 2 ^ 32) currTagIdx = (tagOf key ||| prob) then
        some ((initBuckIdx N key + prob) % 2 ^ 32, currTagIdx)
      else none

def delete (m : Memory N) (key : Word) : Bool × Memory N :=
  match findTag m key with
  | some (i, j) => (true, writeTag m i j 0)
  | none => (false, m)

/-- The bucket counts `pmwormholefilter_init` can produce. -/
def Produced (N : Nat) : Prop := ∃ maxNumKeys < 2 ^ 32, N = numBuckets maxNumKeys

theorem numBuckets_eq (maxNumKeys : Nat) : numBuckets maxNumKeys = 5 * (maxNumKeys / 4) / 4 := by
  have quotient : ((maxNumKeys / 4 : Nat) : Rat) / 0.8 = ((5 * (maxNumKeys / 4) : Nat) : Rat) / (4 : Nat) := by
    push_cast
    norm_num
    ring
  have floor : (((maxNumKeys / 4 : Nat) : Rat) / 0.8).floor = ((5 * (maxNumKeys / 4) / 4 : Nat) : Int) := by
    rw [quotient]
    exact Rat.floor_natCast_div_natCast _ _
  rw [numBuckets, tagPerBuk, floor, Int.toNat_natCast]

/-- The indices of the insertion loop stay below `2 ^ 32`. -/
theorem Produced.small (produced : Produced N) : 2 * N < 2 ^ 32 := by
  obtain ⟨maxNumKeys, bound, rfl⟩ := produced
  rw [numBuckets_eq]
  omega

theorem bucket_setIfInBounds (image : Vector Word N) {i : Nat} (inside : i < N) (w : Word) (k : Nat) :
    bucket (image.setIfInBounds i w) k = if k = i then w else bucket image k := by
  by_cases same : k = i
  · subst same; simp [bucket, inside]
  · rw [if_neg same, bucket, Vector.getElem?_setIfInBounds_ne (Ne.symm same)]; rfl

theorem image_ext {image image' : Vector Word N} (same : ∀ i < N, bucket image i = bucket image' i) :
    image = image' := by
  apply Vector.ext
  intro i inside
  simpa only [bucket, Vector.getElem?_eq_getElem inside, Option.getD_some] using same i inside

@[simp] theorem bucket_init_volatile (N i : Nat) : bucket (init N).volatile i = 0#64 := by
  by_cases inside : i < N <;> simp [bucket, init, inside]

variable {N : Nat} [NeZero N]

theorem readTag_writeTag (m : Memory N) {i j t i' j' : Nat} (inside : j < 4) (bound : t < 2 ^ 16) :
    readTag (writeTag m i j t) i' j' = if i' % N = i % N ∧ j' = j then t else readTag m i' j' := by
  rw [readTag, writeTag, bucket_setIfInBounds _ (Nat.mod_lt _ (NeZero.pos N))]
  by_cases same : i' % N = i % N
  · rw [if_pos same, slot_setSlot inside bound, readTag, same]
    simp
  · rw [if_neg same, if_neg (fun both => same both.1), readTag]

theorem lawful (small : 2 * N < 2 ^ 32) : Lawful (access N) N (fun _ => True) where
  fits := by omega
  read_lt := fun _ => slot_lt _ _
  read_mod := fun _ => by simp [access, readTag]
  move_ok := fun _ => trivial
  write_ok := fun _ => trivial
  read_move := fun _ _ _ inside _ bound => readTag_writeTag _ inside bound
  read_write := fun _ _ _ inside _ bound => readTag_writeTag _ inside bound

end WormholeFilters.Pm
