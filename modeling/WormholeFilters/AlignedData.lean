import WormholeFilters.AlignedRanges
import WormholeFilters.InsertLoop

/-! The aligned window a direct read asks for, as `read_buffer.cc` computes it. Beside
each function stands a checked run of it, which has no result where a sum or difference
would wrap around or where an assertion fails. -/
namespace WormholeFilters.Env

open AlignedRanges

def getBeforeAlignedValue (val alignment : Nat) : Nat :=
  wrapSub 64 val (val &&& wrapSub 64 alignment 1)

def getAfterAlignedValue (val alignment : Nat) : Nat :=
  let mod := val &&& wrapSub 64 alignment 1
  let slop := if mod = 0 then 0 else wrapSub 64 alignment mod
  (val + slop) % 2 ^ 64

structure AlignData where
  offset : Nat
  size : Nat
  userOffset : Nat
  deriving DecidableEq, Repr

def newAlignedData (offset n alignment : Nat) : AlignData :=
  let alignedOffset := getBeforeAlignedValue offset alignment
  let userDataOffset := wrapSub 64 offset alignedOffset
  let alignedSize := getAfterAlignedValue ((n + userDataOffset) % 2 ^ 64) alignment
  ⟨alignedOffset, alignedSize, userDataOffset⟩

def isAligned (val alignment : Nat) : Bool := val &&& wrapSub 64 alignment 1 == 0

def addChecked (w a b : Nat) : Option Nat := if a + b < 2 ^ w then some (a + b) else none

def subChecked (a b : Nat) : Option Nat := if b ≤ a then some (a - b) else none

def getBeforeAlignedValueChecked (val alignment : Nat) : Option Nat := do
  let mask ← subChecked alignment 1
  subChecked val (val &&& mask)

def getAfterAlignedValueChecked (val alignment : Nat) : Option Nat := do
  let mask ← subChecked alignment 1
  let mod := val &&& mask
  let slop ← (if mod = 0 then some 0 else subChecked alignment mod)
  addChecked 64 val slop

/-- The two assertions on the window are those of a debug build. -/
def newAlignedDataChecked (offset n alignment : Nat) : Option AlignData := do
  let alignedOffset ← getBeforeAlignedValueChecked offset alignment
  let userDataOffset ← subChecked offset alignedOffset
  let userSize ← addChecked 64 n userDataOffset
  let alignedSize ← getAfterAlignedValueChecked userSize alignment
  guard (isAligned alignedOffset alignment)
  guard (isAligned alignedSize alignment)
  return ⟨alignedOffset, alignedSize, userDataOffset⟩

variable {a offset n val k : Nat}

@[simp] theorem addChecked_eq_some {w a b c : Nat} : addChecked w a b = some c ↔ a + b < 2 ^ w ∧ a + b = c := by
  simp [addChecked]

@[simp] theorem subChecked_eq_some {a b c : Nat} : subChecked a b = some c ↔ b ≤ a ∧ a - b = c := by
  simp [subChecked]

theorem getBeforeAlignedValue_of_checked {result : Nat}
    (ran : getBeforeAlignedValueChecked val a = some result) : getBeforeAlignedValue val a = result := by
  simp only [getBeforeAlignedValueChecked, bind, Option.bind_eq_some_iff, subChecked_eq_some] at ran
  obtain ⟨_, ⟨positive, rfl⟩, below, rfl⟩ := ran
  rw [getBeforeAlignedValue, wrapSub_of_le positive, wrapSub_of_le below]

theorem getAfterAlignedValue_of_checked {result : Nat}
    (ran : getAfterAlignedValueChecked val a = some result) : getAfterAlignedValue val a = result := by
  simp only [getAfterAlignedValueChecked, bind, Option.bind_eq_some_iff, subChecked_eq_some,
    addChecked_eq_some] at ran
  obtain ⟨_, ⟨positive, rfl⟩, slop, padded, room, rfl⟩ := ran
  have same : (if val &&& (a - 1) = 0 then 0 else wrapSub 64 a (val &&& (a - 1))) = slop := by
    split
    case isTrue aligned => simpa [aligned] using padded
    case isFalse unaligned =>
      simp only [if_neg unaligned, subChecked_eq_some] at padded
      rw [wrapSub_of_le padded.1, padded.2]
  rw [getAfterAlignedValue, wrapSub_of_le positive, same, Nat.mod_eq_of_lt room]

/-- A checked run returns what the machine's arithmetic computes. -/
theorem newAlignedData_of_checked {data : AlignData}
    (ran : newAlignedDataChecked offset n a = some data) : newAlignedData offset n a = data := by
  simp only [newAlignedDataChecked, bind, Option.bind_eq_some_iff, subChecked_eq_some,
    addChecked_eq_some, pure, Option.some.injEq] at ran
  obtain ⟨start, before, _, ⟨below, rfl⟩, _, ⟨room, rfl⟩, size, after, _, _, _, _, rfl⟩ := ran
  rw [newAlignedData, getBeforeAlignedValue_of_checked before, wrapSub_of_le below, Nat.mod_eq_of_lt room,
    getAfterAlignedValue_of_checked after]

theorem and_mask (power : a = 2 ^ k) (val : Nat) : val &&& (a - 1) = val % a := by
  rw [power, Nat.and_two_pow_sub_one_eq_mod]

theorem power_pos (power : a = 2 ^ k) : 0 < a := power ▸ Nat.two_pow_pos k

theorem isAligned_iff (power : a = 2 ^ k) (val : Nat) : isAligned val a = true ↔ a ∣ val := by
  rw [isAligned, wrapSub_of_le (power_pos power), and_mask power, beq_iff_eq, Nat.dvd_iff_mod_eq_zero]

theorem getBeforeAlignedValueChecked_eq (power : a = 2 ^ k) (val : Nat) :
    getBeforeAlignedValueChecked val a = some (a * (val / a)) := by
  have split := Nat.div_add_mod val a
  simp only [getBeforeAlignedValueChecked, bind, Option.bind_eq_some_iff, subChecked_eq_some]
  refine ⟨a - 1, ⟨power_pos power, rfl⟩, ?_⟩
  rw [and_mask power]
  omega

theorem getAfterAlignedValueChecked_eq (power : a = 2 ^ k) (fits : val + a ≤ 2 ^ 64) :
    getAfterAlignedValueChecked val a = some (a * (val ⌈/⌉ a)) := by
  have positive := power_pos power
  have inside := Nat.mod_lt val positive
  simp only [getAfterAlignedValueChecked, bind, Option.bind_eq_some_iff, subChecked_eq_some,
    addChecked_eq_some]
  refine ⟨a - 1, ⟨positive, rfl⟩, if val % a = 0 then 0 else a - val % a, ?_⟩
  rw [and_mask power, mul_ceilDiv_eq positive]
  split
  case isTrue aligned => exact ⟨rfl, by omega, rfl⟩
  case isFalse unaligned => exact ⟨subChecked_eq_some.mpr ⟨by omega, rfl⟩, by omega, rfl⟩

/-- Under the bound every step of the checked run has a result. -/
theorem newAlignedDataChecked_eq (power : a = 2 ^ k) (fits : offset + n + a ≤ 2 ^ 64) :
    newAlignedDataChecked offset n a =
      some ⟨a * (offset / a), a * ((n + offset % a) ⌈/⌉ a), offset % a⟩ := by
  have positive := power_pos power
  have split := Nat.div_add_mod offset a
  have below : subChecked offset (a * (offset / a)) = some (offset % a) :=
    subChecked_eq_some.mpr (by omega)
  have room : addChecked 64 n (offset % a) = some (n + offset % a) :=
    addChecked_eq_some.mpr ⟨by omega, rfl⟩
  have rounded : getAfterAlignedValueChecked (n + offset % a) a = some (a * ((n + offset % a) ⌈/⌉ a)) :=
    getAfterAlignedValueChecked_eq power (by omega)
  have aligned (c : Nat) : isAligned (a * c) a = true := (isAligned_iff power _).mpr (dvd_mul_right a c)
  simp [newAlignedDataChecked, getBeforeAlignedValueChecked_eq power, below, room, rounded, aligned]

theorem newAlignedData_eq (power : a = 2 ^ k) (fits : offset + n + a ≤ 2 ^ 64) :
    newAlignedData offset n a = ⟨a * (offset / a), a * ((n + offset % a) ⌈/⌉ a), offset % a⟩ :=
  newAlignedData_of_checked (newAlignedDataChecked_eq power fits)

/-- The window has the ends of the request's hull. -/
theorem newAlignedData_hull (power : a = 2 ^ k) (fits : offset + n + a ≤ 2 ^ 64) :
    (newAlignedData offset n a).offset = (hull a offset (offset + n)).start ∧
      (newAlignedData offset n a).offset + (newAlignedData offset n a).size = (hull a offset (offset + n)).stop := by
  rw [newAlignedData_eq power fits]
  refine ⟨rfl, ?_⟩
  -- The size is rounded up counting from the window's start. That is a multiple of `a`,
  -- so the end is the end of the request rounded up.
  calc
    a * (offset / a) + a * ((n + offset % a) ⌈/⌉ a) = a * ((a * (offset / a) + (n + offset % a)) ⌈/⌉ a) := by
      rw [mul_add_ceilDiv (power_pos power), Nat.mul_add]
    _ = a * ((offset + n) ⌈/⌉ a) := by
      have split := Nat.div_add_mod offset a
      rw [show a * (offset / a) + (n + offset % a) = offset + n by omega]

/-- The window starts at or before the offset and covers the request. -/
theorem newAlignedData_covers (power : a = 2 ^ k) (fits : offset + n + a ≤ 2 ^ 64) :
    (newAlignedData offset n a).offset + (newAlignedData offset n a).userOffset = offset ∧
      (newAlignedData offset n a).userOffset + n ≤ (newAlignedData offset n a).size := by
  have covers := le_smul_ceilDiv (b := n + offset % a) (power_pos power)
  rw [newAlignedData_eq power fits]
  exact ⟨Nat.div_add_mod offset a, by rw [Nat.add_comm]; exact covers⟩

/-- The window is the least aligned range around the request. -/
structure ExactWindow (a offset n : Nat) (data : AlignData) : Prop where
  offset_dvd : a ∣ data.offset
  size_dvd : a ∣ data.size
  offset_le : data.offset ≤ offset
  user : data.userOffset = offset - data.offset
  user_lt : data.userOffset < a
  covers : Set.Ico offset (offset + n) ⊆ Set.Ico data.offset (data.offset + data.size)
  least : 0 < n → ∀ start stop, a ∣ start → a ∣ stop → Set.Ico offset (offset + n) ⊆ Set.Ico start stop →
    start ≤ data.offset ∧ data.offset + data.size ≤ stop

theorem newAlignedData_window (power : a = 2 ^ k) (fits : offset + n + a ≤ 2 ^ 64) :
    ExactWindow a offset n (newAlignedData offset n a) := by
  have positive := power_pos power
  have data := newAlignedData_eq power fits
  have split := Nat.div_add_mod offset a
  obtain ⟨first, last⟩ := newAlignedData_hull power fits
  constructor
  case offset_dvd => simp [data]
  case size_dvd => simp [data]
  case offset_le => simp only [data]; omega
  case user => simp only [data]; omega
  case user_lt => simpa only [data] using Nat.mod_lt offset positive
  case covers =>
    rw [last, first]
    exact subset_hull positive offset (offset + n)
  case least =>
    intro nonempty start stop start_dvd stop_dvd covers
    rw [last, first]
    exact hull_least positive (Nat.lt_add_of_pos_right nonempty) ⟨start, stop, start_dvd, stop_dvd⟩ covers

/-- The window is exact, and no sum or difference on the way to it wraps around. -/
theorem newAlignedData_exact (a offset n : Nat) (power : ∃ k, a = 2 ^ k) (fits : offset + n + a ≤ 2 ^ 64) :
    ExactWindow a offset n (newAlignedData offset n a) ∧
      newAlignedDataChecked offset n a = some (newAlignedData offset n a) := by
  obtain ⟨k, power⟩ := power
  constructor
  · exact newAlignedData_window power fits
  · rw [newAlignedData_eq power fits]
    exact newAlignedDataChecked_eq power fits

/-- A hundred bytes of one page. -/
theorem newAlignedData_exact_page :
    newAlignedData 5000 100 4096 = ⟨4096, 4096, 904⟩ ∧
      ∀ start stop, 4096 ∣ start → 4096 ∣ stop → Set.Ico 5000 5100 ⊆ Set.Ico start stop →
        start ≤ 4096 ∧ 8192 ≤ stop :=
  ⟨by decide, (newAlignedData_exact 4096 5000 100 ⟨12, rfl⟩ (by decide)).1.least (by decide)⟩

end WormholeFilters.Env
