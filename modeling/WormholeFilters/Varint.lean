import WormholeFilters.LittleEndian

/-! Numbers as groups of seven bits, the lowest first, where the high bit of a byte
says that another group follows. A number has many codes; `encode` is its shortest. -/
namespace Varint

open LittleEndian (Byte)

/-- Every byte but the last has its high bit set. -/
inductive Code : List Byte → Prop where
  | last {b : Byte} (small : b.toNat < 128) : Code [b]
  | more {b : Byte} {code : List Byte} (large : 128 ≤ b.toNat) (rest : Code code) : Code (b :: code)

def value : List Byte → Nat
  | [] => 0
  | b :: code => b.toNat % 128 + 128 * value code

def encode (v : Nat) : List Byte :=
  if v < 128 then [BitVec.ofNat 8 v] else BitVec.ofNat 8 (v % 128 + 128) :: encode (v / 128)

variable {code : List Byte}

theorem Code.length_pos (isCode : Code code) : 0 < code.length := by
  cases isCode <;> simp

theorem encode_small {v : Nat} (small : v < 128) : encode v = [BitVec.ofNat 8 v] := by
  rw [encode, if_pos small]

theorem encode_large {v : Nat} (large : 128 ≤ v) :
    encode v = BitVec.ofNat 8 (v % 128 + 128) :: encode (v / 128) := by
  rw [encode, if_neg (Nat.not_lt.mpr large)]

theorem code_encode (v : Nat) : Code (encode v) := by
  induction v using encode.induct with
  | case1 v small =>
    rw [encode_small small]
    exact Code.last (by simpa using by omega)
  | case2 v large ih =>
    rw [encode_large (Nat.not_lt.mp large)]
    exact Code.more (by simpa using by omega) ih

@[simp] theorem value_encode (v : Nat) : value (encode v) = v := by
  induction v using encode.induct with
  | case1 v small =>
    simp only [encode_small small, value, BitVec.toNat_ofNat]
    omega
  | case2 v large ih =>
    simp only [encode_large (Nat.not_lt.mp large), value, BitVec.toNat_ofNat, ih]
    omega

/-- `n` groups are enough below `2 ^ (7 * n)`. -/
theorem length_encode_le {v n : Nat} (small : v < 2 ^ (7 * (n + 1))) : (encode v).length ≤ n + 1 := by
  induction n generalizing v with
  | zero => rw [encode_small (by omega), List.length_singleton]
  | succ n ih =>
    by_cases one : v < 128
    · rw [encode_small one, List.length_singleton]
      omega
    · rw [encode_large (Nat.not_lt.mp one), List.length_cons]
      have fewer := ih (v := v / 128) (by
        rw [Nat.mul_succ, Nat.pow_add] at small
        omega)
      omega

/-- A code ends where it says: what follows it is determined. -/
theorem Code.append_inj {other rest rest' : List Byte} (isCode : Code code) (isCode' : Code other)
    (same : code ++ rest = other ++ rest') : code = other ∧ rest = rest' := by
  induction isCode generalizing other with
  | last small =>
    cases isCode' with
    | last => simpa using same
    | more large =>
      obtain ⟨rfl, _⟩ := List.cons.inj same
      omega
  | more large isRest ih =>
    cases isCode' with
    | last small =>
      obtain ⟨rfl, _⟩ := List.cons.inj same
      omega
    | more _ isRest' =>
      obtain ⟨rfl, tails⟩ := List.cons.inj same
      obtain ⟨rfl, rests⟩ := ih isRest' tails
      exact ⟨rfl, rests⟩

end Varint
