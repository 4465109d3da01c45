import WormholeFilters.Crc32c
import WormholeFilters.DirectIo

/-! table/format.cc and table/format.h: handles of blocks, the footer of a table, and the
blocks of a file, each with its compression type and checksum behind it. -/
namespace WormholeFilters.LevelDb

open LittleEndian
open Env (Status kBlockTrailerSize present)

structure BlockHandle where
  offset : Nat
  size : Nat
  deriving DecidableEq, Repr

namespace BlockHandle

def kMaxEncodedLength : Nat := 10 + 10

def unset : BlockHandle := ⟨2 ^ 64 - 1, 2 ^ 64 - 1⟩

/-- Asserts that both fields have been set. -/
def encodeTo (dst : List Byte) (h : BlockHandle) : List Byte := putVarint64 (putVarint64 dst h.offset) h.size

def decodeFrom (input : List Byte) : Except Status (BlockHandle × List Byte) :=
  match getVarint64 input with
  | none => .error (.corruption "bad block handle")
  | some (offset, input) =>
    match getVarint64 input with
    | none => .error (.corruption "bad block handle")
    | some (size, input) => .ok (⟨offset, size⟩, input)

end BlockHandle

def resize (s : List Byte) (n : Nat) : List Byte := s.take n ++ List.replicate (n - s.length) 0#8

def kTableMagicNumber : Nat := 0xdb4775248b80fb57

structure Footer where
  metaindexHandle : BlockHandle
  indexHandle : BlockHandle
  deriving DecidableEq, Repr

namespace Footer

def kEncodedLength : Nat := 2 * BlockHandle.kMaxEncodedLength + 8

/-- Asserts that `dst` is empty. -/
def encodeTo (dst : List Byte) (f : Footer) : List Byte :=
  let dst := f.indexHandle.encodeTo (f.metaindexHandle.encodeTo dst)
  let dst := resize dst (2 * BlockHandle.kMaxEncodedLength)
  putFixed32 (putFixed32 dst (kTableMagicNumber &&& 0xffffffff)) (kTableMagicNumber >>> 32)

def decodeFrom (input : List Byte) : Except Status (Footer × List Byte) :=
  if input.length < kEncodedLength then .error (.corruption "not an sstable (footer too short)")
  else
    let magicLo := decodeFixed32 input (kEncodedLength - 8)
    let magicHi := decodeFixed32 input (kEncodedLength - 8 + 4)
    if (magicHi <<< 32) ||| magicLo ≠ kTableMagicNumber then
      .error (.corruption "not an sstable (bad magic number)")
    else
      match BlockHandle.decodeFrom input with
      | .error s => .error s
      | .ok (metaindexHandle, rest) =>
        match BlockHandle.decodeFrom rest with
        | .error s => .error s
        | .ok (indexHandle, _) => .ok (⟨metaindexHandle, indexHandle⟩, input.drop kEncodedLength)

end Footer

inductive CompressionType where
  | none
  | snappy
  | zstd
  deriving DecidableEq, Repr

def CompressionType.byte : CompressionType → Byte
  | .none => 0#8
  | .snappy => 1#8
  | .zstd => 2#8

/-- A compression library of the port; without a value where its functions return false. -/
structure Codec where
  compress : List Byte → Option (List Byte)
  uncompressedLength : List Byte → Option Nat
  uncompress : List Byte → Nat → Option (List Byte)

def Codec.Lawful (c : Codec) : Prop := ∀ {raw compressed : List Byte}, c.compress raw = some compressed →
  c.uncompressedLength compressed = some raw.length ∧ c.uncompress compressed raw.length = some raw

structure Port where
  snappy : Codec
  zstd : Codec

def Port.Lawful (p : Port) : Prop := p.snappy.Lawful ∧ p.zstd.Lawful

section ReadBlock

variable (port : Port) (verifyChecksums : Bool)

/-- `ReadBlock` behind its length check. With a size that overflows together with the
trailer, `data[n]` is not in the contents; that read is not modelled. -/
def checkBlock (n : Nat) (data : List Byte) : Except Status (List Byte) :=
  if verifyChecksums ∧ Crc32c.value 0 (data.take (n + 1)) ≠
      Crc32c.unmask (BitVec.ofNat 32 (decodeFixed32 data (n + 1))) then
    .error (.corruption "block checksum mismatch")
  else
    match data[n]? with
    | some 0#8 => .ok (data.take n)
    | some 1#8 =>
      match port.snappy.uncompressedLength (data.take n) with
      | none => .error (.corruption "corrupted snappy compressed block length")
      | some ulength =>
        match port.snappy.uncompress (data.take n) ulength with
        | none => .error (.corruption "corrupted snappy compressed block contents")
        | some ubuf => .ok ubuf
    | some 2#8 =>
      match port.zstd.uncompressedLength (data.take n) with
      | none => .error (.corruption "corrupted zstd compressed block length")
      | some ulength =>
        match port.zstd.uncompress (data.take n) ulength with
        | none => .error (.corruption "corrupted zstd compressed block contents")
        | some ubuf => .ok ubuf
    | _ => .error (.corruption "bad block type")

def readBlock (read : Nat → Nat → Status × Option (List Byte)) (handle : BlockHandle) : Except Status (List Byte) :=
  Env.readBlock read handle.offset handle.size (checkBlock port verifyChecksums handle.size)

end ReadBlock

def trailer (contents : List Byte) (type : CompressionType) : List Byte :=
  let crc := Crc32c.extend 0 (Crc32c.value 0 contents) [type.byte]
  type.byte :: encodeFixed32 (Crc32c.mask crc).toNat

section Handles

def BlockHandle.Fits (h : BlockHandle) : Prop := h.offset < 2 ^ 64 ∧ h.size < 2 ^ 64

theorem BlockHandle.encodeTo_eq (dst : List Byte) (h : BlockHandle) : h.encodeTo dst = dst ++ h.encodeTo [] := by
  simp [encodeTo, putVarint64]

theorem BlockHandle.decodeFrom_encodeTo {h : BlockHandle} (fits : h.Fits) (rest : List Byte) :
    decodeFrom (h.encodeTo [] ++ rest) = .ok (h, rest) := by
  simp only [encodeTo, putVarint64, List.nil_append, List.append_assoc, decodeFrom, getVarint64_encode fits.1,
    getVarint64_encode fits.2]

theorem BlockHandle.length_encodeTo_le {h : BlockHandle} (fits : h.Fits) :
    (h.encodeTo []).length ≤ kMaxEncodedLength := by
  obtain ⟨offset, size⟩ := fits
  have first := Varint.length_encode_le (n := 9) (show h.offset < 2 ^ (7 * (9 + 1)) by omega)
  have second := Varint.length_encode_le (n := 9) (show h.size < 2 ^ (7 * (9 + 1)) by omega)
  simp only [encodeTo, putVarint64, encodeVarint64_eq, List.nil_append, List.length_append, kMaxEncodedLength]
  omega

theorem BlockHandle.encodeTo_injective {h h' : BlockHandle} (fits : h.Fits) (fits' : h'.Fits)
    (same : h.encodeTo [] = h'.encodeTo []) : h = h' := by
  have first := decodeFrom_encodeTo fits []
  rw [same, decodeFrom_encodeTo fits' []] at first
  cases first
  rfl

/-- The bytes of a footer: the handles, zeros up to 40 bytes, and the magic number. -/
theorem Footer.encodeTo_eq {f : Footer} (metaindex : f.metaindexHandle.Fits) (index : f.indexHandle.Fits) :
    ∃ padding, f.encodeTo [] = f.metaindexHandle.encodeTo [] ++ (f.indexHandle.encodeTo [] ++ padding) ++
        encodeFixed32 (kTableMagicNumber &&& 0xffffffff) ++ encodeFixed32 (kTableMagicNumber >>> 32) ∧
      (f.metaindexHandle.encodeTo [] ++ (f.indexHandle.encodeTo [] ++ padding)).length = 40 := by
  have first := BlockHandle.length_encodeTo_le metaindex
  have second := BlockHandle.length_encodeTo_le index
  rw [BlockHandle.kMaxEncodedLength] at first second
  refine ⟨List.replicate (40 - (f.metaindexHandle.encodeTo [] ++ f.indexHandle.encodeTo []).length) 0#8, ?_, ?_⟩
  · simp only [encodeTo, putFixed32, resize, BlockHandle.kMaxEncodedLength]
    rw [f.indexHandle.encodeTo_eq, List.take_of_length_le (by rw [List.length_append]; omega)]
    simp only [List.append_assoc]
  · simp only [List.length_append, List.length_replicate]
    omega

theorem Footer.length_encodeTo {f : Footer} (metaindex : f.metaindexHandle.Fits) (index : f.indexHandle.Fits) :
    (f.encodeTo []).length = kEncodedLength := by
  obtain ⟨padding, bytes, length⟩ := encodeTo_eq metaindex index
  rw [bytes, List.length_append, List.length_append, length, length_encodeFixed32, length_encodeFixed32]
  rfl

/-- A footer is read back, with what is behind it. -/
theorem Footer.decodeFrom_encodeTo {f : Footer} (metaindex : f.metaindexHandle.Fits) (index : f.indexHandle.Fits)
    (rest : List Byte) : decodeFrom (f.encodeTo [] ++ rest) = .ok (f, rest) := by
  have total := length_encodeTo metaindex index
  obtain ⟨padding, bytes, length⟩ := encodeTo_eq metaindex index
  have low := decodeFixed32_encode (v := kTableMagicNumber &&& 0xffffffff) (by decide)
    (f.metaindexHandle.encodeTo [] ++ (f.indexHandle.encodeTo [] ++ padding))
    (encodeFixed32 (kTableMagicNumber >>> 32) ++ rest)
  have high := decodeFixed32_encode (v := kTableMagicNumber >>> 32) (by decide)
    (f.metaindexHandle.encodeTo [] ++ (f.indexHandle.encodeTo [] ++ padding) ++
      encodeFixed32 (kTableMagicNumber &&& 0xffffffff)) rest
  rw [← List.append_assoc, ← bytes, length] at low
  rw [List.length_append, length, length_encodeFixed32, ← bytes] at high
  have handles : BlockHandle.decodeFrom (f.encodeTo [] ++ rest) = .ok (f.metaindexHandle, f.indexHandle.encodeTo [] ++
      (padding ++ (encodeFixed32 (kTableMagicNumber &&& 0xffffffff) ++
        (encodeFixed32 (kTableMagicNumber >>> 32) ++ rest)))) := by
    rw [bytes]
    simp only [List.append_assoc]
    exact BlockHandle.decodeFrom_encodeTo metaindex _
  rw [decodeFrom, if_neg (by rw [List.length_append]; omega)]
  simp only [kEncodedLength, BlockHandle.kMaxEncodedLength, Nat.reduceMul, Nat.reduceAdd, Nat.reduceSub, low, high,
    handles, BlockHandle.decodeFrom_encodeTo index]
  rw [if_neg (by decide), show 48 = kEncodedLength from rfl, List.drop_left' total]

end Handles

section Blocks

variable {port : Port} {raw contents : List Byte} {type : CompressionType}

def Codes (port : Port) (raw contents : List Byte) : CompressionType → Prop
  | .none => contents = raw
  | .snappy => port.snappy.compress raw = some contents
  | .zstd => port.zstd.compress raw = some contents

theorem trailer_eq (contents : List Byte) (type : CompressionType) : trailer contents type =
    [type.byte] ++ encodeFixed32 (Crc32c.mask (Crc32c.value 0 (contents ++ [type.byte]))).toNat := by
  rw [trailer, Crc32c.extend_value 0 0 0]
  rfl

@[simp] theorem length_trailer (contents : List Byte) (type : CompressionType) :
    (trailer contents type).length = kBlockTrailerSize := by
  rw [trailer_eq, List.length_append, length_encodeFixed32]
  rfl

/-- The checksum of a block is compared with what its trailer holds. -/
theorem checkBlock_eq (port : Port) (verifyChecksums : Bool) {block : List Byte} {n : Nat}
    (length : block.length = n + 1) (crc : BitVec 32) :
    checkBlock port verifyChecksums n (block ++ encodeFixed32 (Crc32c.mask crc).toNat) =
      if verifyChecksums ∧ Crc32c.value 0 block ≠ crc then .error (.corruption "block checksum mismatch")
      else checkBlock port false n (block ++ encodeFixed32 (Crc32c.mask crc).toNat) := by
  have stored := decodeFixed32_encode (Crc32c.mask crc).isLt block []
  rw [List.append_nil, length] at stored
  have unmasked : Crc32c.unmask
      (BitVec.ofNat 32 (decodeFixed32 (block ++ encodeFixed32 (Crc32c.mask crc).toNat) (n + 1))) =
        crc := by
    rw [stored, BitVec.ofNat_toNat, BitVec.setWidth_eq, Crc32c.unmask_mask]
  rw [checkBlock, checkBlock, unmasked, List.take_left' length]
  simp

/-- A block is read back, with its checksum verified or not. -/
theorem checkBlock_trailer (lawful : port.Lawful) (codes : Codes port raw contents type) (verifyChecksums : Bool) :
    checkBlock port verifyChecksums contents.length (contents ++ trailer contents type) = .ok raw := by
  rw [trailer_eq, ← List.append_assoc, checkBlock_eq port verifyChecksums (by simp), if_neg (by simp), checkBlock,
    if_neg (by simp)]
  have kind : (contents ++ [type.byte] ++ encodeFixed32 (Crc32c.mask (Crc32c.value 0 (contents ++ [type.byte]))).toNat)[
      contents.length]? = some type.byte := by
    rw [List.append_assoc, List.getElem?_append_right (Nat.le_refl _), Nat.sub_self]
    rfl
  rw [kind, List.append_assoc, List.take_left]
  cases type with
  | none => exact congrArg Except.ok codes
  | snappy =>
    obtain ⟨ulength, ubuf⟩ := lawful.1 codes
    simp [CompressionType.byte, ulength, ubuf]
  | zstd =>
    obtain ⟨ulength, ubuf⟩ := lawful.2 codes
    simp [CompressionType.byte, ulength, ubuf]

/-- Changed bytes before the checksum. -/
theorem checkBlock_burst (port : Port) {front back u v : List Byte} (length : u.length = v.length)
    (short : u.length ≤ 4) (different : u ≠ v) {n : Nat} (block : (front ++ u ++ back).length = n + 1) :
    checkBlock port true n (front ++ v ++ back ++
      encodeFixed32 (Crc32c.mask (Crc32c.value 0 (front ++ u ++ back))).toNat) =
        .error (.corruption "block checksum mismatch") := by
  have block' : (front ++ v ++ back).length = n + 1 := by
    rw [← block]
    simp only [List.length_append, length]
  rw [checkBlock_eq port true block', if_pos]
  exact ⟨rfl, fun same => different (Crc32c.value_burst length short same.symm)⟩

/-- A changed checksum. -/
theorem checkBlock_crc (port : Port) {block stored : List Byte} {n : Nat} (length : block.length = n + 1)
    (four : stored.length = 4) (different : stored ≠ encodeFixed32 (Crc32c.mask (Crc32c.value 0 block)).toNat) :
    checkBlock port true n (block ++ stored) = .error (.corruption "block checksum mismatch") := by
  have number : decodeFixed32 (block ++ stored) (n + 1) = load stored 0 4 := by
    rw [decodeFixed32, ← length]
    exact load_append_right block stored 0 4
  rw [checkBlock, number, List.take_left' length, if_pos]
  refine ⟨rfl, fun same => different (eq_of_load_eq (by rw [four, length_encodeFixed32]) ?_)⟩
  have small : load stored 0 4 < 2 ^ 32 := load_lt stored 0 4
  rw [same, Crc32c.mask_unmask, BitVec.toNat_ofNat, Nat.mod_eq_of_lt small, four, encodeFixed32_eq, load_encode,
    Nat.mod_eq_of_lt (load_lt stored 0 4)]

/-- With checksums verified, a block of the builder is refused when up to four bytes next
to each other are not as they were written, on one side of the start of the checksum. -/
theorem readBlock_refuses_burst (port : Port) (contents : List Byte) (type : CompressionType)
    {front back u v : List Byte} (written : contents ++ trailer contents type = front ++ u ++ back)
    (length : u.length = v.length) (short : u.length ≤ 4) (different : u ≠ v)
    (apart : front.length + u.length ≤ contents.length + 1 ∨ contents.length + 1 ≤ front.length)
    {read : Nat → Nat → Status × Option (List Byte)} {handle : BlockHandle} (size : handle.size = contents.length)
    (small : handle.size + kBlockTrailerSize < 2 ^ 64)
    (served : read handle.offset (handle.size + kBlockTrailerSize) = (.ok, some (front ++ v ++ back))) :
    readBlock port true read handle = .error (.corruption "block checksum mismatch") := by
  have total := congrArg List.length written
  simp only [List.length_append, length_trailer, length] at total
  rw [readBlock, Env.readBlock, Nat.mod_eq_of_lt small, served]
  dsimp only [Option.getD_some]
  rw [if_neg (by simp only [List.length_append, size, not_not]; omega), size]
  rw [trailer_eq, ← List.append_assoc] at written
  rcases apart with before | behind
  · obtain ⟨rest, block⟩ : front ++ u <+: contents ++ [type.byte] :=
      List.prefix_of_prefix_length_le ⟨back, written.symm⟩ ⟨_, rfl⟩ (by simpa using before)
    rw [← block, List.append_assoc, List.append_cancel_left_eq] at written
    rw [← written, ← List.append_assoc]
    exact checkBlock_burst port length short different (by rw [block]; simp)
  · rw [List.append_assoc front u back] at written
    obtain ⟨rest, rfl⟩ : contents ++ [type.byte] <+: front :=
      List.prefix_of_prefix_length_le ⟨_, written⟩ ⟨u ++ back, rfl⟩ (by simpa using behind)
    simp only [List.append_assoc] at written
    rw [List.append_cancel_left_eq, List.append_cancel_left_eq] at written
    have four := congrArg List.length written
    rw [length_encodeFixed32] at four
    simp only [List.length_append] at four
    rw [List.append_assoc, List.append_assoc]
    refine checkBlock_crc port (by simp) (by simp only [List.length_append]; omega) fun same => different ?_
    rw [written, List.append_cancel_left_eq] at same
    exact (List.append_cancel_right same).symm

theorem readBlock_refuses_burst_byte :
    let port : Port := ⟨⟨fun _ => none, fun _ => none, fun _ _ => none⟩,
      ⟨fun _ => none, fun _ => none, fun _ _ => none⟩⟩
    readBlock port true (fun _ _ => (.ok, some ([1#8] ++ [9#8] ++ ([3#8] ++ trailer [1#8, 2#8, 3#8] .none)))) ⟨0, 3⟩ =
      .error (.corruption "block checksum mismatch") := by
  intro port
  have written : [1#8, 2#8, 3#8] ++ trailer [1#8, 2#8, 3#8] .none = [1#8] ++ [2#8] ++
      ([3#8] ++ trailer [1#8, 2#8, 3#8] .none) :=
    rfl
  exact readBlock_refuses_burst port [1#8, 2#8, 3#8] .none (v := [9#8]) written rfl (by decide) (by decide)
    (Or.inl (by decide)) rfl (by decide) rfl

end Blocks

end WormholeFilters.LevelDb
