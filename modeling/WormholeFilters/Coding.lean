import WormholeFilters.Varint

/-! util/coding.cc and util/coding.h. A pointer and its limit are the list of bytes
between them; a parser returns what it read and the bytes after it. -/
namespace WormholeFilters.LevelDb

open LittleEndian

def encodeFixed32 (value : Nat) : List Byte :=
  [BitVec.ofNat 8 value, BitVec.ofNat 8 (value >>> 8), BitVec.ofNat 8 (value >>> 16), BitVec.ofNat 8 (value >>> 24)]

def encodeFixed64 (value : Nat) : List Byte :=
  [BitVec.ofNat 8 value, BitVec.ofNat 8 (value >>> 8), BitVec.ofNat 8 (value >>> 16), BitVec.ofNat 8 (value >>> 24),
    BitVec.ofNat 8 (value >>> 32), BitVec.ofNat 8 (value >>> 40), BitVec.ofNat 8 (value >>> 48),
    BitVec.ofNat 8 (value >>> 56)]

/-- Four bytes from offset `i` on; the callers have checked that they are there. -/
def decodeFixed32 (s : List Byte) (i : Nat) : Nat := load s i 4

def decodeFixed64 (s : List Byte) (i : Nat) : Nat := load s i 8

def putFixed32 (dst : List Byte) (value : Nat) : List Byte := dst ++ encodeFixed32 value

def putFixed64 (dst : List Byte) (value : Nat) : List Byte := dst ++ encodeFixed64 value

def encodeVarint32 (v : Nat) : List Byte :=
  if v < 1 <<< 7 then [BitVec.ofNat 8 v]
  else if v < 1 <<< 14 then [BitVec.ofNat 8 (v ||| 128), BitVec.ofNat 8 (v >>> 7)]
  else if v < 1 <<< 21 then
    [BitVec.ofNat 8 (v ||| 128), BitVec.ofNat 8 (v >>> 7 ||| 128), BitVec.ofNat 8 (v >>> 14)]
  else if v < 1 <<< 28 then
    [BitVec.ofNat 8 (v ||| 128), BitVec.ofNat 8 (v >>> 7 ||| 128), BitVec.ofNat 8 (v >>> 14 ||| 128),
      BitVec.ofNat 8 (v >>> 21)]
  else
    [BitVec.ofNat 8 (v ||| 128), BitVec.ofNat 8 (v >>> 7 ||| 128), BitVec.ofNat 8 (v >>> 14 ||| 128),
      BitVec.ofNat 8 (v >>> 21 ||| 128), BitVec.ofNat 8 (v >>> 28)]

def encodeVarint64 (v : Nat) : List Byte :=
  if v ≥ 128 then BitVec.ofNat 8 (v ||| 128) :: encodeVarint64 (v >>> 7) else [BitVec.ofNat 8 v]
termination_by v
decreasing_by
  rw [Nat.shiftRight_eq_div_pow]
  omega

def putVarint32 (dst : List Byte) (v : Nat) : List Byte := dst ++ encodeVarint32 v

def putVarint64 (dst : List Byte) (v : Nat) : List Byte := dst ++ encodeVarint64 v

/-- The length goes through a 32-bit argument. -/
def putLengthPrefixedSlice (dst value : List Byte) : List Byte :=
  putVarint32 dst (value.length % 2 ^ 32) ++ value

/-- The loop that `GetVarint32PtrFallback` and `GetVarint64Ptr` share, in registers of
`width` bits; `lastShift` is the largest shift it goes on at. -/
def getVarintFrom (width lastShift : Nat) : Nat → Nat → List Byte → Option (Nat × List Byte)
  | _, _, [] => none
  | shift, result, byte :: p =>
    if lastShift < shift then none
    else if byte.toNat &&& 128 ≠ 0 then
      getVarintFrom width lastShift (shift + 7) (result ||| ((byte.toNat &&& 127) <<< shift) % 2 ^ width) p
    else some (result ||| (byte.toNat <<< shift) % 2 ^ width, p)

def getVarint32PtrFallback (p : List Byte) : Option (Nat × List Byte) := getVarintFrom 32 28 0 0 p

def getVarint32Ptr (p : List Byte) : Option (Nat × List Byte) :=
  match p with
  | [] => getVarint32PtrFallback p
  | byte :: rest => if byte.toNat &&& 128 = 0 then some (byte.toNat, rest) else getVarint32PtrFallback p

def getVarint64Ptr (p : List Byte) : Option (Nat × List Byte) := getVarintFrom 64 63 0 0 p

def getVarint32 (input : List Byte) : Option (Nat × List Byte) := getVarint32Ptr input

def getVarint64 (input : List Byte) : Option (Nat × List Byte) := getVarint64Ptr input

def getLengthPrefixedSlice (input : List Byte) : Option (List Byte × List Byte) :=
  match getVarint32 input with
  | some (len, rest) => if rest.length ≥ len then some (rest.take len, rest.drop len) else none
  | none => none

section Fixed

theorem encodeFixed32_eq (v : Nat) : encodeFixed32 v = encode 4 v := by
  simp only [encodeFixed32, encode, Nat.shiftRight_eq_div_pow, Nat.div_div_eq_div_mul]

theorem encodeFixed64_eq (v : Nat) : encodeFixed64 v = encode 8 v := by
  simp only [encodeFixed64, encode, Nat.shiftRight_eq_div_pow, Nat.div_div_eq_div_mul]

@[simp] theorem length_encodeFixed32 (v : Nat) : (encodeFixed32 v).length = 4 := rfl

@[simp] theorem length_encodeFixed64 (v : Nat) : (encodeFixed64 v).length = 8 := rfl

theorem decodeFixed32_encode {v : Nat} (small : v < 2 ^ 32) (front rest : List Byte) :
    decodeFixed32 (front ++ encodeFixed32 v ++ rest) front.length = v := by
  have shifted := load_append_right front (encodeFixed32 v ++ rest) 0 4
  rw [Nat.add_zero] at shifted
  rw [decodeFixed32, List.append_assoc, shifted, load_append_left (by simp), encodeFixed32_eq, load_encode]
  exact Nat.mod_eq_of_lt small

theorem decodeFixed64_encode {v : Nat} (small : v < 2 ^ 64) (front rest : List Byte) :
    decodeFixed64 (front ++ encodeFixed64 v ++ rest) front.length = v := by
  have shifted := load_append_right front (encodeFixed64 v ++ rest) 0 8
  rw [Nat.add_zero] at shifted
  rw [decodeFixed64, List.append_assoc, shifted, load_append_left (by simp), encodeFixed64_eq, load_encode]
  exact Nat.mod_eq_of_lt small

end Fixed

section Varints

/-- Setting the high bit of the low byte. -/
theorem ofNat_or_high (v : Nat) : BitVec.ofNat 8 (v ||| 128) = BitVec.ofNat 8 (v % 128 + 128) := by
  apply BitVec.eq_of_toNat_eq
  have low := Nat.or_mod_two_pow (a := v) (b := 128) (n := 8)
  have split : v % 2 ^ 8 ||| 128 = v % 2 ^ 8 % 128 + 128 := by
    have all : ∀ i : Fin 256, i.val ||| 128 = i.val % 128 + 128 := by decide +kernel
    exact all ⟨v % 2 ^ 8, Nat.mod_lt v (by decide)⟩
  simp only [BitVec.toNat_ofNat]
  rw [low, show 128 % 2 ^ 8 = 128 from rfl, split]
  omega

theorem and_high_eq_zero_iff (b : Byte) : b.toNat &&& 128 = 0 ↔ b.toNat < 128 := by
  have all : ∀ i : Fin 256, i.val &&& 128 = 0 ↔ i.val < 128 := by decide +kernel
  exact all ⟨b.toNat, b.isLt⟩

theorem encodeVarint64_eq (v : Nat) : encodeVarint64 v = Varint.encode v := by
  induction v using Varint.encode.induct with
  | case1 v small =>
    rw [encodeVarint64, if_neg (Nat.not_le.mpr small), Varint.encode_small small]
  | case2 v large ih =>
    rw [encodeVarint64, if_pos (Nat.not_lt.mp large), Varint.encode_large (Nat.not_lt.mp large), ofNat_or_high,
      Nat.shiftRight_eq_div_pow, ← ih]

/-- The unrolled writer agrees with the loop on 32-bit values. -/
theorem encodeVarint32_eq {v : Nat} (small : v < 2 ^ 32) : encodeVarint32 v = Varint.encode v := by
  have group {v : Nat} (large : ¬ v < 128) := Varint.encode_large (Nat.not_lt.mp large)
  simp only [encodeVarint32, ofNat_or_high, Nat.shiftRight_eq_div_pow, Nat.one_shiftLeft]
  split
  · rw [Varint.encode_small ‹_›]
  · split
    · rw [group ‹_›, Varint.encode_small (by omega)]
    · split
      · rw [group ‹_›, group (by omega), Varint.encode_small (by omega), Nat.div_div_eq_div_mul]
      · split
        · rw [group ‹_›, group (by omega), group (by omega), Varint.encode_small (by omega)]
          simp only [Nat.div_div_eq_div_mul, Nat.reduceMul, Nat.reducePow]
        · rw [group ‹_›, group (by omega), group (by omega), group (by omega), Varint.encode_small (by omega)]
          simp only [Nat.div_div_eq_div_mul, Nat.reduceMul, Nat.reducePow]

/-- Placing a group above a result that ends below it. -/
theorem or_group {width shift result : Nat} (below : result < 2 ^ shift) (fits : result < 2 ^ width) (group : Nat) :
    result ||| (group <<< shift) % 2 ^ width = (result + 2 ^ shift * group) % 2 ^ width := by
  have sum : result + 2 ^ shift * group = result ||| group <<< shift := by
    rw [Nat.add_comm, Nat.two_pow_add_eq_or_of_lt below, Nat.or_comm, Nat.shiftLeft_eq, Nat.mul_comm]
  rw [sum, Nat.or_mod_two_pow, Nat.mod_eq_of_lt fits]

/-- What the loop accepts, from any point of it. -/
theorem getVarintFrom_eq_some_iff {width lastShift shift result : Nat} {s rest : List Byte} {v : Nat}
    (below : result < 2 ^ shift) (fits : result < 2 ^ width) :
    getVarintFrom width lastShift shift result s = some (v, rest) ↔
      ∃ code, Varint.Code code ∧ s = code ++ rest ∧ shift + 7 * code.length ≤ lastShift + 7 ∧
        v = (result + 2 ^ shift * Varint.value code) % 2 ^ width := by
  induction s generalizing shift result with
  | nil =>
    simp only [getVarintFrom, reduceCtorEq, false_iff]
    rintro ⟨code, isCode, split, _⟩
    have := isCode.length_pos
    simp_all
  | cons b s ih =>
    by_cases late : lastShift < shift
    · rw [getVarintFrom, if_pos late]
      simp only [reduceCtorEq, false_iff]
      rintro ⟨code, isCode, _, short, _⟩
      have := isCode.length_pos
      omega
    · rw [getVarintFrom, if_neg late]
      by_cases small : b.toNat < 128
      · rw [if_neg (by simpa [and_high_eq_zero_iff] using small), or_group below fits]
        constructor
        · intro found
          cases found
          refine ⟨[b], Varint.Code.last small, rfl, by simpa using by omega, ?_⟩
          rw [Varint.value, Varint.value, Nat.mul_zero, Nat.add_zero, Nat.mod_eq_of_lt small]
        · rintro ⟨code, isCode, split, _, rfl⟩
          obtain ⟨rfl, rfl⟩ := isCode.append_inj (Varint.Code.last small) (split.symm.trans rfl : _ = [b] ++ s)
          rw [Varint.value, Varint.value, Nat.mul_zero, Nat.add_zero, Nat.mod_eq_of_lt small]
      · have mask : b.toNat &&& 127 = b.toNat % 128 := Nat.and_two_pow_sub_one_eq_mod b.toNat 7
        have grown : (result + 2 ^ shift * (b.toNat % 128)) % 2 ^ width < 2 ^ (shift + 7) := by
          have group := Nat.mod_lt b.toNat (show 128 > 0 by decide)
          have room : 2 ^ shift * (b.toNat % 128) ≤ 2 ^ shift * 127 := Nat.mul_le_mul_left _ (by omega)
          have smaller := Nat.mod_le (result + 2 ^ shift * (b.toNat % 128)) (2 ^ width)
          rw [Nat.pow_add]
          omega
        rw [if_pos (by simpa [and_high_eq_zero_iff] using small), mask, or_group below fits,
          ih grown (Nat.mod_lt _ (Nat.two_pow_pos width))]
        -- one group more on both sides
        have sum (code : List Byte) : ((result + 2 ^ shift * (b.toNat % 128)) % 2 ^ width +
            2 ^ (shift + 7) * Varint.value code) % 2 ^ width =
            (result + 2 ^ shift * Varint.value (b :: code)) % 2 ^ width := by
          rw [Nat.mod_add_mod, Varint.value, Nat.mul_add, Nat.pow_add, Nat.add_assoc, Nat.mul_assoc]
        constructor
        · rintro ⟨code, isCode, rfl, short, rfl⟩
          exact ⟨b :: code, Varint.Code.more (Nat.not_lt.mp small) isCode, rfl, by simpa using by omega, sum code⟩
        · rintro ⟨code, isCode, split, short, rfl⟩
          cases isCode with
          | last tiny =>
            obtain ⟨rfl, _⟩ := List.cons.inj split
            exact absurd tiny small
          | more large isCode =>
            obtain ⟨rfl, rfl⟩ := List.cons.inj split
            rw [List.length_cons] at short
            exact ⟨_, isCode, rfl, by omega, (sum _).symm⟩

/-- The test for one byte comes to what the loop does with it. -/
theorem getVarint32Ptr_eq (p : List Byte) : getVarint32Ptr p = getVarint32PtrFallback p := by
  cases p with
  | nil => rfl
  | cons b rest =>
    by_cases small : b.toNat < 128
    · have none := (and_high_eq_zero_iff b).mpr small
      simp only [getVarint32Ptr, getVarint32PtrFallback, getVarintFrom, none, Nat.shiftLeft_zero, Nat.zero_or,
        Nat.not_lt_zero, ne_eq, not_true_eq_false, if_true, if_false,
        Nat.mod_eq_of_lt (show b.toNat < 2 ^ 32 by omega)]
    · simp [getVarint32Ptr, and_high_eq_zero_iff, small]

theorem getVarint32_eq_some_iff {s rest : List Byte} {v : Nat} :
    getVarint32 s = some (v, rest) ↔
      ∃ code, Varint.Code code ∧ s = code ++ rest ∧ code.length ≤ 5 ∧ v = Varint.value code % 2 ^ 32 := by
  rw [getVarint32, getVarint32Ptr_eq, getVarint32PtrFallback, getVarintFrom_eq_some_iff (by decide) (by decide)]
  simp only [Nat.zero_add, Nat.pow_zero, Nat.one_mul]
  refine exists_congr fun code => and_congr_right fun _ => and_congr_right fun _ => and_congr_left fun _ => ?_
  omega

theorem getVarint64_eq_some_iff {s rest : List Byte} {v : Nat} :
    getVarint64 s = some (v, rest) ↔
      ∃ code, Varint.Code code ∧ s = code ++ rest ∧ code.length ≤ 10 ∧ v = Varint.value code % 2 ^ 64 := by
  rw [getVarint64, getVarint64Ptr, getVarintFrom_eq_some_iff (by decide) (by decide)]
  simp only [Nat.zero_add, Nat.pow_zero, Nat.one_mul]
  refine exists_congr fun code => and_congr_right fun _ => and_congr_right fun _ => and_congr_left fun _ => ?_
  omega

theorem getVarint32_encode {v : Nat} (small : v < 2 ^ 32) (rest : List Byte) :
    getVarint32 (encodeVarint32 v ++ rest) = some (v, rest) := by
  rw [getVarint32_eq_some_iff, encodeVarint32_eq small]
  refine ⟨Varint.encode v, Varint.code_encode v, rfl, Varint.length_encode_le (n := 4) (by omega), ?_⟩
  rw [Varint.value_encode, Nat.mod_eq_of_lt small]

theorem getVarint64_encode {v : Nat} (small : v < 2 ^ 64) (rest : List Byte) :
    getVarint64 (encodeVarint64 v ++ rest) = some (v, rest) := by
  rw [getVarint64_eq_some_iff, encodeVarint64_eq]
  refine ⟨Varint.encode v, Varint.code_encode v, rfl, Varint.length_encode_le (n := 9) (by omega), ?_⟩
  rw [Varint.value_encode, Nat.mod_eq_of_lt small]

theorem getLengthPrefixedSlice_put {value : List Byte} (small : value.length < 2 ^ 32) (rest : List Byte) :
    getLengthPrefixedSlice (putLengthPrefixedSlice [] value ++ rest) = some (value, rest) := by
  rw [putLengthPrefixedSlice, putVarint32, Nat.mod_eq_of_lt small, List.nil_append, List.append_assoc,
    getLengthPrefixedSlice, getVarint32_encode small]
  simp

theorem putLengthPrefixedSlice_eq (dst value : List Byte) :
    putLengthPrefixedSlice dst value = dst ++ putLengthPrefixedSlice [] value := by
  simp [putLengthPrefixedSlice, putVarint32]

/-- A 32-bit length takes at most five bytes. -/
theorem length_encodeVarint32_le {v : Nat} (small : v < 2 ^ 32) : (encodeVarint32 v).length ≤ 5 := by
  rw [encodeVarint32_eq small]
  exact Varint.length_encode_le (n := 4) (by omega)

theorem length_encodeVarint32_pos (v : Nat) : 0 < (encodeVarint32 v).length := by
  unfold encodeVarint32
  repeat' split
  all_goals simp

/-- The readers take any code of at most five, or ten, bytes, also one longer than the
number needs, and keep the low bits of its value: the last byte of a code that is too
large is cut and not refused. -/
theorem varint_readers_accept (s rest : List Byte) (v : Nat) :
    (getVarint32 s = some (v, rest) ↔
      ∃ code, Varint.Code code ∧ s = code ++ rest ∧ code.length ≤ 5 ∧ v = Varint.value code % 2 ^ 32) ∧
    (getVarint64 s = some (v, rest) ↔
      ∃ code, Varint.Code code ∧ s = code ++ rest ∧ code.length ≤ 10 ∧ v = Varint.value code % 2 ^ 64) :=
  ⟨getVarint32_eq_some_iff, getVarint64_eq_some_iff⟩

end Varints

end WormholeFilters.LevelDb
