import WormholeFilters.LittleEndian
import WormholeFilters.Tags

/-! `Hash64` of `util/hash.cc` on a little-endian machine. The tail bytes are read as
plain `char`, whose signedness is the compiler's choice. -/
namespace WormholeFilters.LevelDb

open LittleEndian

def hashMul : Word := 0xc6a4a7935bd1e995#64

def hashShift : Nat := 47

/-- `static_cast<uint64_t>(c)` of a plain `char`. -/
def charToWord (signedChar : Bool) (c : Byte) : Word :=
  if signedChar then c.signExtend 64 else c.setWidth 64

/-- The `while` loop over whole blocks; what is left is shorter than eight bytes. -/
def hashBlocks (h : Word) : List Byte → Word × List Byte
  | b0 :: b1 :: b2 :: b3 :: b4 :: b5 :: b6 :: b7 :: rest =>
    let k := BitVec.ofNat 64 (load [b0, b1, b2, b3, b4, b5, b6, b7] 0 8)
    let k := k * hashMul
    let k := k ^^^ (k >>> hashShift)
    let k := k * hashMul
    hashBlocks ((h ^^^ k) * hashMul) rest
  | tail => (h, tail)

/-- The `switch`, which falls through from the last byte to the first. -/
def hashTail (signedChar : Bool) (h : Word) (tail : List Byte) : Word :=
  if tail.isEmpty then h
  else tail.zipIdx.foldr (fun c h => h ^^^ (charToWord signedChar c.1 <<< (8 * c.2))) h * hashMul

def hash64 (signedChar : Bool) (data : List Byte) (seed : Word) : Word :=
  let h := seed ^^^ (BitVec.ofNat 64 data.length * hashMul)
  let (h, tail) := hashBlocks h data
  let h := hashTail signedChar h tail
  let h := h ^^^ (h >>> hashShift)
  let h := h * hashMul
  h ^^^ (h >>> hashShift)

def wormholeHash (signedChar : Bool) (key : List Byte) : Word :=
  hash64 signedChar key 0xbc9f1d34bc9f1d34#64

end WormholeFilters.LevelDb
