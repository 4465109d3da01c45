import WormholeFilters.LevelDbFilter
import WormholeFilters.WordMixing

/-! `Hash64` against MurmurHash64A. Whole blocks are mixed alike however the compiler
takes plain `char`; the tail bytes are not, and since every later step can be undone the
difference reaches the hash code. -/
namespace WormholeFilters.LevelDb

open LittleEndian RingTable WordMixing

def mixBlock (k : Word) : Word := xorShift hashShift (k * hashMul) * hashMul

def mixResult (h : Word) : Word := xorShift hashShift (xorShift hashShift h * hashMul)

/-- MurmurHash64A: the blocks as little-endian numbers, one after another, and the one to
seven bytes left as one number. -/
def murmurHash64A (data : List Byte) (seed : Word) : Word :=
  let blocks := data.length / 8
  let rest := data.length % 8
  let h := seed ^^^ (BitVec.ofNat 64 data.length * hashMul)
  let h := (List.range blocks).foldl
    (fun h i => (h ^^^ mixBlock (BitVec.ofNat 64 (load data (8 * i) 8))) * hashMul) h
  let h := if rest = 0 then h else (h ^^^ BitVec.ofNat 64 (load data (8 * blocks) rest)) * hashMul
  mixResult h

/-- The bytes after the last whole block. -/
def tailBytes (data : List Byte) : List Byte := data.drop (8 * (data.length / 8))

/-- What the `switch` xors to the state. -/
def tailWord (signedChar : Bool) : List Byte → Word
  | [] => 0#64
  | c :: rest => charToWord signedChar c ^^^ (tailWord signedChar rest <<< 8)

theorem hash64_eq (signedChar : Bool) (data : List Byte) (seed : Word) : hash64 signedChar data seed =
    mixResult (hashTail signedChar (hashBlocks (seed ^^^ (BitVec.ofNat 64 data.length * hashMul)) data).1
      (hashBlocks (seed ^^^ (BitVec.ofNat 64 data.length * hashMul)) data).2) := rfl

theorem hashMul_inverse : hashMul * 0x5f7a0ea7e59b19bd#64 = 1#64 := by decide

theorem mul_hashMul_bijective : Function.Bijective fun h : Word => h * hashMul := mul_bijective hashMul_inverse

theorem xorShift_bijective : Function.Bijective (xorShift hashShift : Word → Word) :=
  (xorShift_involutive (by decide)).bijective

theorem mixBlock_bijective : Function.Bijective mixBlock :=
  mul_hashMul_bijective.comp (xorShift_bijective.comp mul_hashMul_bijective)

theorem mixResult_bijective : Function.Bijective mixResult :=
  xorShift_bijective.comp (mul_hashMul_bijective.comp xorShift_bijective)

/-- The `while` loop mixes the blocks in order and leaves the tail. -/
theorem hashBlocks_eq (h : Word) (data : List Byte) : hashBlocks h data =
    ((List.range (data.length / 8)).foldl
      (fun h i => (h ^^^ mixBlock (BitVec.ofNat 64 (load data (8 * i) 8))) * hashMul) h, tailBytes data) := by
  fun_induction hashBlocks h data with
  | case1 h b0 b1 b2 b3 b4 b5 b6 b7 rest k k' k'' k''' ih =>
    have count : (b0 :: b1 :: b2 :: b3 :: b4 :: b5 :: b6 :: b7 :: rest).length / 8 = rest.length / 8 + 1 := by
      simp only [List.length_cons]
      omega
    have first : load (b0 :: b1 :: b2 :: b3 :: b4 :: b5 :: b6 :: b7 :: rest) (8 * 0) 8 =
        load [b0, b1, b2, b3, b4, b5, b6, b7] 0 8 :=
      load_append_left (s := [b0, b1, b2, b3, b4, b5, b6, b7]) (t := rest) (by simp)
    have later : ∀ i, load (b0 :: b1 :: b2 :: b3 :: b4 :: b5 :: b6 :: b7 :: rest) (8 * (i + 1)) 8 =
        load rest (8 * i) 8 := by
      intro i
      rw [show 8 * (i + 1) = [b0, b1, b2, b3, b4, b5, b6, b7].length + 8 * i by simp; omega]
      exact load_append_right [b0, b1, b2, b3, b4, b5, b6, b7] rest (8 * i) 8
    rw [ih, count, List.range_succ_eq_map, List.foldl_cons, List.foldl_map, first]
    simp only [Nat.succ_eq_add_one, later]
    rw [tailBytes, tailBytes, count, Nat.mul_succ]
    rfl
  | case2 h data short =>
    have small : data.length < 8 := by
      rcases data with
        _ | ⟨b0, _ | ⟨b1, _ | ⟨b2, _ | ⟨b3, _ | ⟨b4, _ | ⟨b5, _ | ⟨b6, _ | ⟨b7, rest⟩⟩⟩⟩⟩⟩⟩⟩
      iterate 8 (· simp)
      · exact absurd rfl (short b0 b1 b2 b3 b4 b5 b6 b7 rest)
    rw [tailBytes, Nat.div_eq_of_lt small]
    rfl

theorem foldr_tail (signedChar : Bool) (h : Word) (tail : List Byte) (n : Nat) :
    (tail.zipIdx n).foldr (fun c h => h ^^^ (charToWord signedChar c.1 <<< (8 * c.2))) h =
      h ^^^ (tailWord signedChar tail <<< (8 * n)) := by
  induction tail generalizing n with
  | nil => simp [tailWord]
  | cons c tail ih =>
    rw [List.zipIdx_cons, List.foldr_cons, ih, tailWord, BitVec.shiftLeft_xor_distrib, ← BitVec.shiftLeft_add,
      BitVec.xor_assoc, BitVec.xor_comm (charToWord signedChar c <<< (8 * n)), Nat.mul_succ, Nat.add_comm (8 * n)]

theorem hashTail_eq (signedChar : Bool) (h : Word) (tail : List Byte) : hashTail signedChar h tail =
    if tail.isEmpty then h else (h ^^^ tailWord signedChar tail) * hashMul := by
  have folded := foldr_tail signedChar h tail 0
  rw [Nat.mul_zero, BitVec.shiftLeft_zero] at folded
  rw [hashTail, folded]

/-- Unsigned tail bytes make up their little-endian number. -/
theorem tailWord_unsigned (tail : List Byte) :
    tailWord false tail = BitVec.ofNat 64 (load tail 0 tail.length) := by
  induction tail with
  | nil => rfl
  | cons c tail ih =>
    have head : load (c :: tail) 0 (tail.length + 1) = 2 ^ 8 * load tail 0 tail.length + c.toNat := by
      have shifted := load_append_right [c] tail 0 tail.length
      rw [load, show byteAt (c :: tail) 0 = c.toNat from rfl, Nat.add_comm]
      exact congrArg (256 * · + c.toNat) shifted
    rw [tailWord, ih, List.length_cons, head]
    apply BitVec.eq_of_getLsbD_eq
    intro i inside
    rw [BitVec.getLsbD_xor, BitVec.getLsbD_shiftLeft, BitVec.getLsbD_ofNat, BitVec.getLsbD_ofNat,
      Nat.testBit_two_pow_mul_add _ c.isLt, charToWord, if_neg (by decide), BitVec.getLsbD_setWidth]
    by_cases low : i < 8
    · simp [low, inside]
      rfl
    · have above : c.getLsbD i = false := BitVec.getLsbD_of_ge c i (by omega)
      simp [low, inside, above, show i - 8 < 64 by omega]

theorem hash64_unsigned (data : List Byte) (seed : Word) : hash64 false data seed = murmurHash64A data seed := by
  have length : (tailBytes data).length = data.length % 8 := by
    rw [tailBytes, List.length_drop]
    omega
  have tail : tailWord false (tailBytes data) =
      BitVec.ofNat 64 (load data (8 * (data.length / 8)) (data.length % 8)) := by
    have split := load_append_right (data.take (8 * (data.length / 8))) (tailBytes data) 0 (data.length % 8)
    rw [tailBytes, List.take_append_drop, List.length_take, Nat.min_eq_left (by omega), Nat.add_zero] at split
    rw [tailWord_unsigned, length, split, tailBytes]
  rw [hash64_eq, hashBlocks_eq, hashTail_eq, tail, murmurHash64A]
  simp only [List.isEmpty_iff_length_eq_zero, length]

/-- What sign extension changes in the word of the tail. -/
private def flips (tail : List Byte) : Word := tailWord true tail ^^^ tailWord false tail

private theorem flips_cons (c : Byte) (tail : List Byte) :
    flips (c :: tail) = (c.signExtend 64 ^^^ c.setWidth 64) ^^^ (flips tail <<< 8) := by
  rw [flips, flips, tailWord, tailWord, BitVec.shiftLeft_xor_distrib, charToWord, charToWord, if_pos rfl,
    if_neg (by decide)]
  ac_rfl

private theorem flips_low (tail : List Byte) : (flips tail).getLsbD 0 = false := by
  cases tail with
  | nil => rfl
  | cons c tail =>
    rw [flips_cons, BitVec.getLsbD_xor, BitVec.getLsbD_xor, BitVec.getLsbD_signExtend, BitVec.getLsbD_setWidth,
      BitVec.getLsbD_shiftLeft]
    simp only [Nat.zero_lt_succ, if_true, decide_true, Bool.true_and, Bool.not_true, Bool.false_and, bne_self_eq_false]

/-- The lowest byte above `0x7F` flips the bit after it, which no byte behind it reaches. -/
private theorem plain_of_flips {tail : List Byte} {n : Nat} (short : n + tail.length ≤ 7)
    (same : flips tail <<< (8 * n) = 0#64) : ∀ c ∈ tail, c.msb = false := by
  induction tail generalizing n with
  | nil => simp
  | cons c tail ih =>
    rw [List.length_cons] at short
    have bit := congrArg (BitVec.getLsbD · (8 * n + 8)) same
    have plain : c.msb = false := by
      have inside : 8 * n + 8 < 64 := by omega
      have beyond : c.getLsbD 8 = false := BitVec.getLsbD_of_ge c 8 (Nat.le_refl 8)
      simp only [flips_cons, BitVec.getLsbD_shiftLeft, BitVec.getLsbD_xor, BitVec.getLsbD_signExtend,
        BitVec.getLsbD_setWidth, Nat.add_sub_cancel_left, Nat.sub_self, beyond, flips_low] at bit
      simpa [inside] using bit
    have extended : c.signExtend 64 ^^^ c.setWidth 64 = 0#64 := by
      rw [BitVec.signExtend_eq_setWidth_of_msb_false plain, BitVec.xor_self]
    rw [flips_cons, extended, BitVec.zero_xor, ← BitVec.shiftLeft_add, show 8 + 8 * n = 8 * (n + 1) by omega] at same
    intro d member
    rcases List.mem_cons.mp member with rfl | later
    · exact plain
    · exact ih (by omega) same d later

private theorem flips_of_plain {tail : List Byte} (plain : ∀ c ∈ tail, c.msb = false) : flips tail = 0#64 := by
  induction tail with
  | nil => rfl
  | cons c tail ih =>
    rw [flips_cons, ih fun d member => plain d (List.mem_cons_of_mem c member),
      BitVec.signExtend_eq_setWidth_of_msb_false (plain c List.mem_cons_self), BitVec.xor_self]
    rfl

theorem hash64_signed_iff (data : List Byte) (seed : Word) :
    hash64 true data seed = hash64 false data seed ↔ ∀ c ∈ tailBytes data, c.toNat < 0x80 := by
  have length : (tailBytes data).length ≤ 7 := by
    rw [tailBytes, List.length_drop]
    omega
  have plain : (∀ c ∈ tailBytes data, c.toNat < 0x80) ↔ flips (tailBytes data) = 0#64 := by
    have msb : ∀ c : Byte, c.toNat < 0x80 ↔ c.msb = false := fun c => by
      rw [BitVec.msb_eq_false_iff_two_mul_lt]
      omega
    simp only [msb]
    refine ⟨flips_of_plain, fun same => plain_of_flips (n := 0) (by omega) ?_⟩
    rw [same, BitVec.zero_shiftLeft]
  rw [plain, flips, BitVec.xor_eq_zero_iff, hash64_eq, hash64_eq, mixResult_bijective.1.eq_iff, hashBlocks_eq,
    hashTail_eq, hashTail_eq]
  cases tail : tailBytes data with
  | nil => simp [tailWord]
  | cons c rest =>
    simp only [List.isEmpty_cons, Bool.false_eq_true, if_false]
    rw [mul_hashMul_bijective.1.eq_iff, (xor_bijective _).1.eq_iff]

/-- Every hash code is the hash code of some key of eight bytes. -/
theorem wormholeHash_surjective (signedChar : Bool) : Function.Surjective (wormholeHash signedChar) := by
  intro code
  let start : Word := 0xbc9f1d34bc9f1d34#64 ^^^ (BitVec.ofNat 64 8 * hashMul)
  obtain ⟨mixed, rfl⟩ := mixResult_bijective.2 code
  obtain ⟨joined, rfl⟩ := mul_hashMul_bijective.2 mixed
  obtain ⟨block, rfl⟩ := (xor_bijective start).2 joined
  obtain ⟨k, rfl⟩ := mixBlock_bijective.2 block
  have word : BitVec.ofNat 64 (load (encode 8 k.toNat) (8 * 0) 8) = k := by
    rw [Nat.mul_zero, load_encode, show 256 ^ 8 = 2 ^ 64 by decide, Nat.mod_eq_of_lt k.isLt, BitVec.ofNat_toNat,
      BitVec.setWidth_eq]
  have tail : tailBytes (encode 8 k.toNat) = [] := by simp [tailBytes]
  refine ⟨encode 8 k.toNat, ?_⟩
  rw [wormholeHash, hash64_eq, hashBlocks_eq, tail, hashTail_eq, length_encode]
  simp only [Nat.div_self (show 0 < 8 by decide), List.range_one, List.foldl_cons, List.foldl_nil, word,
    List.isEmpty_nil, if_true]
  rfl

theorem insertKeys_congr {signedChar signedChar' : Bool} {array N : Nat} {keys : List (List Byte)}
    (same : ∀ key ∈ keys, wormholeHash signedChar key = wormholeHash signedChar' key) (dst : List Byte) :
    insertKeys signedChar array N keys dst = insertKeys signedChar' array N keys dst := by
  rw [insertKeys, insertKeys]
  induction keys generalizing dst with
  | nil => simp only [callAll]
  | cons key keys ih =>
    rw [callAll_cons, callAll_cons, same key List.mem_cons_self,
      ih fun k member => same k (List.mem_cons_of_mem key member)]

/-- `Hash64` is MurmurHash64A under both readings of `char` exactly when no tail byte is
above `0x7F`. For keys without such bytes both builds write the same filter, and answer
alike on every filter. -/
theorem hash64_is_murmur_iff (data : List Byte) (seed : Word) (keys : List (List Byte)) (n : Int) (dst : List Byte) :
    hash64 false data seed = murmurHash64A data seed ∧
    ((∀ signedChar, hash64 signedChar data seed = murmurHash64A data seed) ↔
      ∀ c ∈ tailBytes data, c.toNat < 0x80) ∧
    ((∀ key ∈ keys, ∀ c ∈ tailBytes key, c.toNat < 0x80) →
      createFilter true keys n dst = createFilter false keys n dst ∧
      ∀ key ∈ keys, ∀ filter, keyMayMatch true key filter = keyMayMatch false key filter) := by
  have plain : ∀ key : List Byte, (∀ c ∈ tailBytes key, c.toNat < 0x80) →
      wormholeHash true key = wormholeHash false key := fun key low => (hash64_signed_iff key _).mpr low
  refine ⟨hash64_unsigned data seed, ?_, fun low => ⟨?_, fun key member filter => ?_⟩⟩
  · rw [← hash64_signed_iff data seed, ← hash64_unsigned]
    constructor
    · intro all
      exact all true
    · intro same signedChar
      cases signedChar with
      | false => rfl
      | true => exact same
  · rw [createFilter, createFilter,
      insertKeys_congr fun key member => plain key (low key (List.mem_of_mem_take member))]
  · rw [keyMayMatch, keyMayMatch, plain key (low key member)]

theorem hash64_is_murmur_ascii :
    (∀ c ∈ tailBytes [97#8], c.toNat < 0x80) ∧
      wormholeHash true [97#8] = murmurHash64A [97#8] 0xbc9f1d34bc9f1d34#64 :=
  ⟨by decide, (hash64_is_murmur_iff [97#8] _ [] 0 []).2.1.mpr (by decide) true⟩

/-- The key of the one byte `0x80`: the two builds hash it differently, and a filter the
signed build wrote for it does not match it in the unsigned build. -/
theorem high_byte_differs :
    let key : List Byte := [0x80#8]
    hash64 true key 0xbc9f1d34bc9f1d34#64 ≠ hash64 false key 0xbc9f1d34bc9f1d34#64 ∧
      keyMayMatch false key (createFilter false [key] 1 []) = some true ∧
      keyMayMatch false key (createFilter true [key] 1 []) = some false := by
  decide +kernel

end WormholeFilters.LevelDb
