import Mathlib.Logic.Function.Basic

/-! The steps hash functions mix words with: xor with a word, multiplication by an odd
constant, and xor with the word's own high half. Each of them can be undone. -/
namespace WordMixing

variable {w r : Nat}

def xorShift (r : Nat) (x : BitVec w) : BitVec w := x ^^^ (x >>> r)

theorem xorShift_involutive (half : w ≤ 2 * r) : Function.Involutive (xorShift r : BitVec w → BitVec w) := by
  intro x
  have gone : x >>> r >>> r = 0#w := by
    rw [← BitVec.shiftRight_add, BitVec.ushiftRight_eq_zero (by omega)]
  rw [xorShift, xorShift, BitVec.ushiftRight_xor_distrib, gone, BitVec.xor_zero, BitVec.xor_assoc,
    BitVec.xor_self, BitVec.xor_zero]

theorem xor_bijective (a : BitVec w) : Function.Bijective fun x => a ^^^ x := by
  apply Function.Involutive.bijective
  intro x
  simp only [← BitVec.xor_assoc, BitVec.xor_self, BitVec.zero_xor]

theorem mul_bijective {m c : BitVec w} (inverse : m * c = 1#w) : Function.Bijective fun x => x * m := by
  have undo : ∀ x, x * m * c = x := fun x => by rw [BitVec.mul_assoc, inverse, BitVec.mul_one]
  constructor
  · intro x y same
    have := congrArg (· * c) same
    simpa only [undo] using this
  · intro y
    refine ⟨y * c, ?_⟩
    simp only [BitVec.mul_assoc, BitVec.mul_comm c, inverse, BitVec.mul_one]

end WordMixing
