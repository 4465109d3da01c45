import WormholeFilters.BlockBuilder
import WormholeFilters.Iterators

/-! table/block.cc: a block read back. The iterator decodes one entry after another from
a restart point; a search bisects the restart points first, and starts from where the
iterator already is when that is closer. -/
namespace WormholeFilters.LevelDb

open LittleEndian
open Env (Status)
open Cursors (Call)

/-- A size of zero marks contents that cannot be a block. -/
structure Block where
  data : List Byte
  size : Nat
  restartOffset : Nat
  deriving DecidableEq, Repr

structure EntryHead where
  shared : Nat
  nonShared : Nat
  valueLength : Nat
  rest : List Byte
  deriving DecidableEq, Repr

def decodeHead (p : List Byte) : Option EntryHead :=
  (getVarint32Ptr p).bind fun (shared, p) =>
    (getVarint32Ptr p).bind fun (nonShared, p) =>
      (getVarint32Ptr p).map fun (valueLength, p) => ⟨shared, nonShared, valueLength, p⟩

/-- `DecodeEntry` on the bytes up to the limit. The two lengths are added in 32 bits. -/
def decodeEntry (p : List Byte) : Option EntryHead :=
  let head : Option EntryHead := match p with
    | b0 :: b1 :: b2 :: rest =>
      if (b0.toNat ||| b1.toNat ||| b2.toNat) < 128 then some ⟨b0.toNat, b1.toNat, b2.toNat, rest⟩
      else decodeHead p
    | _ => none
  head.bind fun head =>
    if head.rest.length % 2 ^ 32 < (head.nonShared + head.valueLength) % 2 ^ 32 then none else some head

/-- `value` is the offset and the size of the value in the data. -/
structure BlockIter where
  data : List Byte
  restarts : Nat
  numRestarts : Nat
  current : Nat
  restartIndex : Nat
  key : List Byte
  value : Nat × Nat
  status : Status
  deriving DecidableEq, Repr

namespace BlockIter

def valid (it : BlockIter) : Bool := it.current < it.restarts

def valueSlice (it : BlockIter) : List Byte := (it.data.drop it.value.1).take it.value.2

def nextEntryOffset (it : BlockIter) : Nat := (it.value.1 + it.value.2) % 2 ^ 32

def getRestartPoint (it : BlockIter) (index : Nat) : Nat := decodeFixed32 it.data (it.restarts + index * 4)

def seekToRestartPoint (it : BlockIter) (index : Nat) : BlockIter :=
  { it with key := [], restartIndex := index, value := (it.getRestartPoint index, 0) }

def corruptionError (it : BlockIter) : BlockIter :=
  { it with
    current := it.restarts
    restartIndex := it.numRestarts
    status := .corruption "bad entry in block"
    key := []
    value := (0, 0) }

/-- The loop over the restart points at the end of `ParseNextKey`. -/
def advanceRestart : Nat → BlockIter → BlockIter
  | 0, it => it
  | fuel + 1, it =>
    if it.restartIndex + 1 < it.numRestarts ∧ it.getRestartPoint (it.restartIndex + 1) < it.current then
      advanceRestart fuel { it with restartIndex := it.restartIndex + 1 }
    else it

def entryBytes (it : BlockIter) (offset : Nat) : List Byte := (it.data.take it.restarts).drop offset

def parseNextKey (it : BlockIter) : Bool × BlockIter :=
  let it := { it with current := it.nextEntryOffset }
  if it.current ≥ it.restarts then (false, { it with current := it.restarts, restartIndex := it.numRestarts })
  else
    match decodeEntry (it.entryBytes it.current) with
    | none => (false, it.corruptionError)
    | some head =>
      if it.key.length < head.shared then (false, it.corruptionError)
      else
        let p := it.restarts - head.rest.length
        (true, advanceRestart it.numRestarts
          { it with
            key := it.key.take head.shared ++ (it.data.drop p).take head.nonShared
            value := (p + head.nonShared, head.valueLength) })

/-- `ParseNextKey` again and again until there is no entry or one satisfies `stop`. -/
def parseUntil (stop : BlockIter → Bool) : Nat → BlockIter → BlockIter
  | 0, it => it
  | fuel + 1, it =>
    match it.parseNextKey with
    | (false, it) => it
    | (true, it) => if stop it then it else parseUntil stop fuel it

def next (it : BlockIter) : BlockIter := it.parseNextKey.2

/-- The last restart point before `original`, from one on backwards. -/
def restartBefore (it : BlockIter) (original : Nat) : Nat → Option Nat
  | 0 => if it.getRestartPoint 0 ≥ original then none else some 0
  | index + 1 =>
    if it.getRestartPoint (index + 1) ≥ original then it.restartBefore original index else some (index + 1)

def prev (it : BlockIter) : BlockIter :=
  let original := it.current
  match it.restartBefore original it.restartIndex with
  | none => { it with current := it.restarts, restartIndex := it.numRestarts }
  | some index =>
    parseUntil (fun it => ¬ it.nextEntryOffset < original) (it.restarts + 1) (it.seekToRestartPoint index)

/-- The binary search of `Seek`. Without a value where a restart point holds no whole key. -/
def bisect (c : Comparator) (it : BlockIter) (target : List Byte) : Nat → Nat → Nat → Option Nat
  | 0, left, _ => some left
  | fuel + 1, left, right =>
    if left < right then
      let mid := (left + right + 1) % 2 ^ 32 / 2
      match decodeEntry (it.entryBytes (it.getRestartPoint mid)) with
      | none => none
      | some head =>
        if head.shared ≠ 0 then none
        else if c.compare ((it.data.drop (it.restarts - head.rest.length)).take head.nonShared) target = .lt then
          bisect c it target fuel mid right
        else bisect c it target fuel left (mid - 1)
    else some left

def seek (c : Comparator) (it : BlockIter) (target : List Byte) : BlockIter :=
  let currentKeyCompare := if it.valid then c.compare it.key target else .eq
  if it.valid ∧ currentKeyCompare = .eq then it
  else
    let left := if currentKeyCompare = .lt then it.restartIndex else 0
    let right := if currentKeyCompare = .gt then it.restartIndex else it.numRestarts - 1
    match bisect c it target it.numRestarts left right with
    | none => it.corruptionError
    | some left =>
      let skipSeek := left = it.restartIndex ∧ currentKeyCompare = .lt
      parseUntil (fun it => ¬ c.compare it.key target = .lt) (it.restarts + 1)
        (if skipSeek then it else it.seekToRestartPoint left)

def seekToFirst (it : BlockIter) : BlockIter := (it.seekToRestartPoint 0).parseNextKey.2

def seekToLast (it : BlockIter) : BlockIter :=
  parseUntil (fun it => ¬ it.nextEntryOffset < it.restarts) (it.restarts + 1)
    (it.seekToRestartPoint (it.numRestarts - 1))

def call (c : Comparator) : Call (List Byte) → BlockIter → BlockIter
  | .seekToFirst, it => it.seekToFirst
  | .seekToLast, it => it.seekToLast
  | .seek target, it => it.seek c target
  | .next, it => it.next
  | .prev, it => it.prev

def iterator (c : Comparator) : Iterator BlockIter where
  valid := valid
  key := key
  value := valueSlice
  status := status
  call := call c

end BlockIter

namespace Block

def numRestarts (b : Block) : Nat := decodeFixed32 b.data (b.size - 4)

def ofContents (contents : List Byte) : Block :=
  let b : Block := ⟨contents, contents.length, 0⟩
  if b.size < 4 then { b with size := 0 }
  else
    let maxRestartsAllowed := (b.size - 4) / 4
    if b.numRestarts > maxRestartsAllowed then { b with size := 0 }
    else { b with restartOffset := (b.size - (1 + b.numRestarts) % 2 ^ 32 * 4) % 2 ^ 32 }

def newIterator (b : Block) : Except Status BlockIter :=
  if b.size < 4 then .error (.corruption "bad block contents")
  else if b.numRestarts = 0 then .error .ok
  else .ok ⟨b.data, b.restartOffset, b.numRestarts, b.restartOffset, b.numRestarts, [], (0, 0), .ok⟩

end Block

section Heads

theorem getVarint32_small {b : Byte} (small : b.toNat < 128) (rest : List Byte) :
    getVarint32Ptr (b :: rest) = some (b.toNat, rest) := by
  rw [getVarint32Ptr, if_pos ((and_high_eq_zero_iff b).mpr small)]

/-- The path for three single bytes comes to what the general one does. -/
theorem decodeEntry_eq {p : List Byte} (long : 3 ≤ p.length) :
    decodeEntry p = (decodeHead p).bind fun head =>
      if head.rest.length % 2 ^ 32 < (head.nonShared + head.valueLength) % 2 ^ 32 then none else some head := by
  match p, long with
  | b0 :: b1 :: b2 :: rest, _ =>
    simp only [decodeEntry]
    split
    · next single =>
      have low : b0.toNat ||| b1.toNat < 128 := Nat.lt_of_le_of_lt Nat.left_le_or single
      have third : b2.toNat < 128 := Nat.lt_of_le_of_lt Nat.right_le_or single
      have second : b1.toNat < 128 := Nat.lt_of_le_of_lt Nat.right_le_or low
      have first : b0.toNat < 128 := Nat.lt_of_le_of_lt Nat.left_le_or low
      simp [decodeHead, getVarint32_small first, getVarint32_small second, getVarint32_small third]
    · rfl

/-- The head of a record, and the key delta and the value after it. -/
theorem decodeEntry_bytes {r : Record} (shared : r.shared < 2 ^ 32) (rest : List Byte)
    (small : (r.bytes ++ rest).length < 2 ^ 32) :
    decodeEntry (r.bytes ++ rest) = some ⟨r.shared, r.key.length - r.shared, r.value.length,
      r.key.drop r.shared ++ r.value ++ rest⟩ := by
  have first := length_encodeVarint32_pos (r.shared % 2 ^ 32)
  have second := length_encodeVarint32_pos ((r.key.length - r.shared) % 2 ^ 32)
  have third := length_encodeVarint32_pos (r.value.length % 2 ^ 32)
  simp only [Record.bytes, List.length_append, List.length_drop] at small
  have read {v : Nat} (bound : v < 2 ^ 32) (rest : List Byte) :
      getVarint32Ptr (encodeVarint32 v ++ rest) = some (v, rest) := getVarint32_encode bound rest
  rw [decodeEntry_eq (by simp only [Record.bytes, List.length_append]; omega)]
  simp only [Record.bytes, decodeHead, List.append_assoc]
  rw [Nat.mod_eq_of_lt shared, Nat.mod_eq_of_lt (show r.key.length - r.shared < 2 ^ 32 by omega),
    Nat.mod_eq_of_lt (show r.value.length < 2 ^ 32 by omega), read shared]
  simp only [Option.bind_some]
  rw [read (by omega)]
  simp only [Option.bind_some]
  rw [read (by omega)]
  simp only [Option.map_some, Option.bind_some, List.length_append, List.length_drop]
  rw [if_neg (by omega)]

theorem getVarint32Ptr_shorter {p rest : List Byte} {v : Nat} (found : getVarint32Ptr p = some (v, rest)) :
    rest.length < p.length := by
  obtain ⟨code, isCode, rfl, _⟩ := getVarint32_eq_some_iff.mp found
  have := isCode.length_pos
  rw [List.length_append]
  omega

theorem decodeHead_shorter {p : List Byte} {head : EntryHead} (found : decodeHead p = some head) :
    head.rest.length < p.length := by
  simp only [decodeHead, Option.bind_eq_some_iff, Option.map_eq_some_iff] at found
  obtain ⟨⟨_, p1⟩, first, ⟨_, p2⟩, second, ⟨_, p3⟩, third, rfl⟩ := found
  exact (getVarint32Ptr_shorter third).trans ((getVarint32Ptr_shorter second).trans (getVarint32Ptr_shorter first))

theorem decodeHead_small {p : List Byte} {head : EntryHead} (found : decodeHead p = some head) :
    head.nonShared < 2 ^ 32 ∧ head.valueLength < 2 ^ 32 := by
  have small {p rest : List Byte} {v : Nat} (read : getVarint32Ptr p = some (v, rest)) : v < 2 ^ 32 := by
    obtain ⟨code, _, _, _, rfl⟩ := getVarint32_eq_some_iff.mp read
    exact Nat.mod_lt _ (by decide)
  simp only [decodeHead, Option.bind_eq_some_iff, Option.map_eq_some_iff] at found
  obtain ⟨_, _, _, second, _, third, rfl⟩ := found
  exact ⟨small second, small third⟩

/-- What `DecodeEntry` accepts: entries that end before the limit, and entries whose two lengths overflow 32 bits
by no more than what is left. Those end behind the limit. -/
theorem decodeEntry_accepts_iff {p : List Byte} (small : p.length < 2 ^ 32) (head : EntryHead) :
    decodeEntry p = some head ↔ 3 ≤ p.length ∧ decodeHead p = some head ∧
      (head.nonShared + head.valueLength ≤ head.rest.length ∨
        2 ^ 32 ≤ head.nonShared + head.valueLength ∧
          head.nonShared + head.valueLength ≤ 2 ^ 32 + head.rest.length) := by
  rcases Nat.lt_or_ge p.length 3 with short | long
  · have refused : decodeEntry p = none := by
      match p, short with
      | [], _ | [_], _ | [_, _], _ => rfl
    simp [refused, Nat.not_le.mpr short]
  rw [decodeEntry_eq long, Option.bind_eq_some_iff]
  constructor
  · rintro ⟨head', decoded, checked⟩
    have shorter := decodeHead_shorter decoded
    have lengths := decodeHead_small decoded
    split at checked
    · cases checked
    · cases checked
      exact ⟨long, decoded, by omega⟩
  · rintro ⟨-, decoded, fits⟩
    have shorter := decodeHead_shorter decoded
    have lengths := decodeHead_small decoded
    exact ⟨head, decoded, if_neg (by omega)⟩

/-- Lengths of `2 ^ 32 - 1` and 1 with nothing behind them pass the check, lengths of `2 ^ 32 - 1` and `2 ^ 31 - 1`
do not. -/
theorem decodeEntry_accepts_iff_overflow :
    decodeEntry [0#8, 0xff#8, 0xff#8, 0xff#8, 0xff#8, 0x0f#8, 1#8] = some ⟨0, 2 ^ 32 - 1, 1, []⟩ ∧
      decodeEntry [0#8, 0xff#8, 0xff#8, 0xff#8, 0xff#8, 0x0f#8, 0xff#8, 0xff#8, 0xff#8, 0xff#8, 0x07#8] ≠
        some ⟨0, 2 ^ 32 - 1, 2 ^ 31 - 1, []⟩ := by
  refine ⟨(decodeEntry_accepts_iff (by decide) _).mpr ⟨by decide, by decide +kernel, Or.inr (by decide)⟩,
    fun found => ?_⟩
  obtain ⟨-, -, fits⟩ := (decodeEntry_accepts_iff (by decide) _).mp found
  revert fits
  decide

end Heads

end WormholeFilters.LevelDb
