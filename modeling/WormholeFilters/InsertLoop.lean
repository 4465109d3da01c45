import WormholeFilters.RingPlacement
import WormholeFilters.Tags
import Mathlib.Data.List.Find

/-! The loops that `pmwormholefilter_insert` and `InsertItem` share once the key
is hashed. The two functions differ in how a slot is read and written; those
operations are the fields of `Access`. Bucket indices are `uint32_t`, the home
index `uint64_t`, and every index operation wraps at its width. -/
namespace WormholeFilters

/-- `readTag`, the write that moves a tag on, and the write of the new tag. -/
structure Access (σ : Type) where
  readTag : σ → Nat → Nat → Nat
  moveTag : σ → Nat → Nat → Nat → σ
  writeTag : σ → Nat → Nat → Nat → σ

/-- Unsigned subtraction of integers of width `w`. -/
def wrapSub (w a b : Nat) : Nat := if b ≤ a then a - b else 2 ^ w + a - b

def emptyTag (read : Nat → Nat → Nat) (currBuckIdx : Nat) : Option Nat :=
  (List.range tagPerBuk).find? fun currTagIdx => read currBuckIdx currTagIdx == 0

/-- The loop over `curr_buck_idx`. The first argument counts the passes left;
where it is zero the guard fails as well (`scan_none`, `scan_some`). -/
def scan (read : Nat → Nat → Nat) (bound : Nat) : Nat → Nat → Option (Nat × Nat)
  | 0, _ => none
  | passes + 1, currBuckIdx =>
    if currBuckIdx < bound then
      match emptyTag read currBuckIdx with
      | some currTagIdx => some (currBuckIdx, currTagIdx)
      | none => scan read bound passes ((currBuckIdx + 1) % 2 ^ 32)
    else none

/-- The two `for` loops that look for a tag to move: the farthest bucket first. -/
def findCadi (read : Nat → Nat → Nat) (currBuckIdx : Nat) : Option (Nat × Nat × Nat) :=
  (List.range' 1 (maxProb - 1)).reverse.findSome? fun prob =>
    (List.range tagPerBuk).findSome? fun cadiTagIdx =>
      let cadiTag := read (wrapSub 32 currBuckIdx prob) cadiTagIdx
      if (cadiTag &&& disMask) + prob < maxProb then some (prob, cadiTagIdx, cadiTag) else none

/-- The `while` loop. `none` is its `return false`; otherwise the loop ends with
the slot that receives the new tag. Every pass lowers `curr_buck_idx`, which also
serves as the fuel; it never runs out (`displace_spec`). -/
def displace (A : Access σ) (initBuckIdx : Nat) : Nat → σ → Nat → Nat → σ × Option (Nat × Nat)
  | 0, s, currBuckIdx, currTagIdx => (s, some (currBuckIdx, currTagIdx))
  | fuel + 1, s, currBuckIdx, currTagIdx =>
    if maxProb ≤ wrapSub 64 currBuckIdx initBuckIdx then
      match findCadi (A.readTag s) currBuckIdx with
      | none => (s, none)
      | some (prob, cadiTagIdx, cadiTag) =>
        displace A initBuckIdx fuel
          (A.moveTag s currBuckIdx currTagIdx ((cadiTag &&& fptMask) ||| ((cadiTag &&& disMask) + prob)))
          (wrapSub 32 currBuckIdx prob) cadiTagIdx
    else (s, some (currBuckIdx, currTagIdx))

/-- The body of the insertion; `tag` is the fingerprint above four zero bits. -/
def insert (A : Access σ) (numBuckets initBuckIdx tag : Nat) (s : σ) : Bool × σ :=
  match scan (A.readTag s) (initBuckIdx + numBuckets) numBuckets initBuckIdx with
  | none => (false, s)
  | some (currBuckIdx, currTagIdx) =>
    match displace A initBuckIdx currBuckIdx s currBuckIdx currTagIdx with
    | (s, none) => (false, s)
    | (s, some (currBuckIdx, currTagIdx)) =>
      (true, A.writeTag s currBuckIdx currTagIdx (tag ||| wrapSub 64 currBuckIdx initBuckIdx))

theorem wrapSub_of_le {w a b : Nat} (le : b ≤ a) : wrapSub w a b = a - b := if_pos le

theorem wrapSub_add_left (w a b : Nat) : wrapSub w (a + b) a = b := by
  rw [wrapSub_of_le (Nat.le_add_right a b), Nat.add_sub_cancel_left]

theorem wrapSub_add_right (w a b : Nat) : wrapSub w (a + b) b = a := by
  rw [wrapSub_of_le (Nat.le_add_left b a), Nat.add_sub_cancel]

theorem insert_of_none {A : Access σ} {numBuckets initBuckIdx : Nat} {s : σ} (tag : Nat)
    (found : scan (A.readTag s) (initBuckIdx + numBuckets) numBuckets initBuckIdx = none) :
    insert A numBuckets initBuckIdx tag s = (false, s) := by
  rw [insert, found]

theorem insert_of_some {A : Access σ} {numBuckets initBuckIdx curr j : Nat} {s : σ} (tag : Nat)
    (found : scan (A.readTag s) (initBuckIdx + numBuckets) numBuckets initBuckIdx = some (curr, j)) :
    insert A numBuckets initBuckIdx tag s =
      match displace A initBuckIdx curr s curr j with
      | (s', none) => (false, s')
      | (s', some (i, k)) => (true, A.writeTag s' i k (tag ||| wrapSub 64 i initBuckIdx)) := by
  rw [insert, found]

section Reading

variable {read : Nat → Nat → Nat}

theorem emptyTag_none {i : Nat} (none : emptyTag read i = none) : ∀ j < 4, read i j ≠ 0 := by
  intro j inside
  simpa using List.find?_eq_none.mp none j (List.mem_range.mpr inside)

theorem emptyTag_some {i j : Nat} (found : emptyTag read i = some j) :
    j < 4 ∧ read i j = 0 ∧ ∀ k < j, read i k ≠ 0 := by
  obtain ⟨zero, inside, least⟩ := List.find?_range_eq_some.mp found
  exact ⟨List.mem_range.mp inside, by simpa using zero, fun k below => by simpa using least k below⟩

theorem scan_none {bound passes curr : Nat} (small : bound < 2 ^ 32) (left : curr + passes = bound)
    (none : scan read bound passes curr = none) :
    ∀ i, curr ≤ i → i < bound → ∀ j < 4, read i j ≠ 0 := by
  induction passes generalizing curr with
  | zero => intro i above below; omega
  | succ passes ih =>
    rw [scan, if_pos (by omega)] at none
    cases empty : emptyTag read curr with
    | some j => simp [empty] at none
    | none =>
      simp only [empty, Nat.mod_eq_of_lt (show curr + 1 < 2 ^ 32 by omega)] at none
      intro i above below
      rcases Nat.eq_or_lt_of_le above with rfl | later
      · exact emptyTag_none empty
      · exact ih (by omega) none i later below

theorem scan_some {bound passes curr c j : Nat} (small : bound < 2 ^ 32)
    (left : curr + passes = bound) (found : scan read bound passes curr = some (c, j)) :
    curr ≤ c ∧ c < bound ∧ j < 4 ∧ read c j = 0 ∧ (∀ k < j, read c k ≠ 0) ∧
      ∀ i, curr ≤ i → i < c → ∀ k < 4, read i k ≠ 0 := by
  induction passes generalizing curr with
  | zero => simp [scan] at found
  | succ passes ih =>
    rw [scan, if_pos (by omega)] at found
    cases empty : emptyTag read curr with
    | some k =>
      simp only [empty, Option.some.injEq, Prod.mk.injEq] at found
      obtain ⟨rfl, rfl⟩ := found
      obtain ⟨inside, zero, least⟩ := emptyTag_some empty
      exact ⟨Nat.le_refl _, by omega, inside, zero, least, fun i above below => by omega⟩
    | none =>
      simp only [empty, Nat.mod_eq_of_lt (show curr + 1 < 2 ^ 32 by omega)] at found
      obtain ⟨above, below, inside, zero, least, before⟩ := ih (by omega) found
      refine ⟨by omega, below, inside, zero, least, fun i low high => ?_⟩
      rcases Nat.eq_or_lt_of_le low with rfl | later
      · exact emptyTag_none empty
      · exact before i later high

theorem findCadi_none {curr : Nat} (none : findCadi read curr = none) :
    ∀ prob, 0 < prob → prob < 16 → ∀ j < 4, 16 ≤ read (wrapSub 32 curr prob) j % 16 + prob := by
  intro prob pos bound j inside
  have outer := List.findSome?_eq_none_iff.mp none prob
    (List.mem_reverse.mpr (List.mem_range'_1.mpr ⟨pos, by simp [maxProb]; omega⟩))
  have inner := List.findSome?_eq_none_iff.mp outer j (List.mem_range.mpr inside)
  simpa [and_disMask, maxProb] using inner

theorem findCadi_some {curr prob j v : Nat} (found : findCadi read curr = some (prob, j, v)) :
    0 < prob ∧ prob < 16 ∧ j < 4 ∧ v = read (wrapSub 32 curr prob) j ∧ v % 16 + prob < 16 := by
  obtain ⟨g, outer, found⟩ := List.exists_of_findSome?_eq_some found
  obtain ⟨k, inner, found⟩ := List.exists_of_findSome?_eq_some found
  have range := List.mem_range'_1.mp (List.mem_reverse.mp outer)
  have inside := List.mem_range.mp inner
  simp only [and_disMask, maxProb] at found range
  split at found
  · rename_i near
    obtain ⟨rfl, rfl, rfl⟩ := by simpa using found
    exact ⟨by omega, by omega, inside, rfl, near⟩
  · contradiction

end Reading

section Simulation

variable {σ τ : Type} {A : Access σ} {B : Access τ}

theorem scan_congr {read read' : Nat → Nat → Nat} (same : ∀ i, ∀ j < 4, read i j = read' i j)
    (bound passes curr : Nat) : scan read bound passes curr = scan read' bound passes curr := by
  have slots : ∀ i, emptyTag read i = emptyTag read' i := fun i =>
    List.find?_congr fun j member => by rw [same i j (List.mem_range.mp member)]
  induction passes generalizing curr with
  | zero => rfl
  | succ passes ih => simp only [scan, slots, ih]

theorem findCadi_congr {read read' : Nat → Nat → Nat} (same : ∀ i, ∀ j < 4, read i j = read' i j)
    (curr : Nat) : findCadi read curr = findCadi read' curr := by
  simp only [findCadi, tagPerBuk, List.range, List.range.loop, List.findSome?_cons, List.findSome?_nil,
    same _ 0 (by decide), same _ 1 (by decide), same _ 2 (by decide), same _ 3 (by decide)]

structure SlotSimulates (A : Access σ) (B : Access τ) (R : σ → τ → Prop) : Prop where
  read : ∀ {s t}, R s t → ∀ i, ∀ j < 4, A.readTag s i j = B.readTag t i j
  move : ∀ {s t}, R s t → ∀ i, ∀ j < 4, ∀ v, R (A.moveTag s i j v) (B.moveTag t i j v)
  write : ∀ {s t}, R s t → ∀ i, ∀ j < 4, ∀ v, R (A.writeTag s i j v) (B.writeTag t i j v)

structure Simulates (A : Access σ) (B : Access τ) (R : σ → τ → Prop) : Prop where
  read : ∀ {s t}, R s t → ∀ i, ∀ j < 4, A.readTag s i j = B.readTag t i j
  move : ∀ {s t}, R s t → ∀ i j v, R (A.moveTag s i j v) (B.moveTag t i j v)
  write : ∀ {s t}, R s t → ∀ i j v, R (A.writeTag s i j v) (B.writeTag t i j v)

variable {R : σ → τ → Prop} {s : σ} {t : τ}

theorem Simulates.slots (simulates : Simulates A B R) : SlotSimulates A B R :=
  ⟨simulates.read, fun related i j _ v => simulates.move related i j v,
    fun related i j _ v => simulates.write related i j v⟩

theorem SlotSimulates.displace (simulates : SlotSimulates A B R) (related : R s t)
    (initBuckIdx fuel curr : Nat) {j : Nat} (slot : j < 4) :
    (displace A initBuckIdx fuel s curr j).2 = (displace B initBuckIdx fuel t curr j).2 ∧
      R (displace A initBuckIdx fuel s curr j).1 (displace B initBuckIdx fuel t curr j).1 := by
  induction fuel generalizing s t curr j with
  | zero => exact ⟨rfl, related⟩
  | succ fuel ih =>
    simp only [WormholeFilters.displace, ← findCadi_congr (simulates.read related)]
    by_cases far : maxProb ≤ wrapSub 64 curr initBuckIdx
    · simp only [if_pos far]
      cases found : findCadi (A.readTag s) curr with
      | none => exact ⟨rfl, related⟩
      | some c => exact ih (simulates.move related _ _ slot _) _ (findCadi_some found).2.2.1
    · simp only [if_neg far]
      exact ⟨trivial, related⟩

/-- The slot that receives the new tag is one of the bucket's four. -/
theorem displace_slot {initBuckIdx fuel curr j i k : Nat} (slot : j < 4)
    (placed : (displace A initBuckIdx fuel s curr j).2 = some (i, k)) : k < 4 := by
  induction fuel generalizing s curr j with
  | zero =>
    obtain ⟨rfl, rfl⟩ := Prod.mk.inj (Option.some.inj placed)
    exact slot
  | succ fuel ih =>
    rw [displace] at placed
    split at placed
    · cases found : findCadi (A.readTag s) curr with
      | none => simp [found] at placed
      | some c =>
        simp only [found] at placed
        exact ih (findCadi_some found).2.2.1 placed
    · obtain ⟨rfl, rfl⟩ := Prod.mk.inj (Option.some.inj placed)
      exact slot

theorem scan_slot {read : Nat → Nat → Nat} {bound passes curr c j : Nat}
    (found : scan read bound passes curr = some (c, j)) : j < 4 := by
  induction passes generalizing curr with
  | zero => simp [scan] at found
  | succ passes ih =>
    rw [scan] at found
    split at found
    · cases empty : emptyTag read curr with
      | none =>
        simp only [empty] at found
        exact ih found
      | some k =>
        simp only [empty, Option.some.injEq, Prod.mk.injEq] at found
        obtain ⟨rfl, rfl⟩ := found
        exact (emptyTag_some empty).1
    · contradiction

/-- Related states give the same result and related states again. -/
theorem SlotSimulates.insert (simulates : SlotSimulates A B R) (related : R s t)
    (numBuckets initBuckIdx tag : Nat) :
    (insert A numBuckets initBuckIdx tag s).1 = (insert B numBuckets initBuckIdx tag t).1 ∧
      R (insert A numBuckets initBuckIdx tag s).2 (insert B numBuckets initBuckIdx tag t).2 := by
  have scans := scan_congr (simulates.read related) (initBuckIdx + numBuckets) numBuckets initBuckIdx
  cases found : scan (A.readTag s) (initBuckIdx + numBuckets) numBuckets initBuckIdx with
  | none =>
    rw [insert_of_none _ found, insert_of_none _ (scans ▸ found)]
    exact ⟨rfl, related⟩
  | some c =>
    obtain ⟨curr, j⟩ := c
    have slot := scan_slot found
    obtain ⟨outcome, related'⟩ := simulates.displace related initBuckIdx curr curr slot
    have last : ∀ i k, (WormholeFilters.displace A initBuckIdx curr s curr j).2 = some (i, k) → k < 4 :=
      fun _ _ placed => displace_slot slot placed
    rw [insert_of_some _ found, insert_of_some _ (scans ▸ found)]
    generalize WormholeFilters.displace A initBuckIdx curr s curr j = out at outcome related' last ⊢
    generalize WormholeFilters.displace B initBuckIdx curr t curr j = out' at outcome related' ⊢
    obtain ⟨s', r⟩ := out
    obtain ⟨t', r'⟩ := out'
    obtain rfl : r = r' := outcome
    cases r with
    | none => exact ⟨rfl, related'⟩
    | some c => exact ⟨rfl, simulates.write related' _ _ (last _ _ rfl) _⟩

theorem insert_simulates (simulates : Simulates A B R) (related : R s t)
    (numBuckets initBuckIdx tag : Nat) :
    (insert A numBuckets initBuckIdx tag s).1 = (insert B numBuckets initBuckIdx tag t).1 ∧
      R (insert A numBuckets initBuckIdx tag s).2 (insert B numBuckets initBuckIdx tag t).2 :=
  simulates.slots.insert related numBuckets initBuckIdx tag

/-- What every write to a slot of a bucket keeps, an insertion keeps. -/
theorem insert_slot_invariant {P : σ → Prop} (move : ∀ {s} i, ∀ j < 4, ∀ v, P s → P (A.moveTag s i j v))
    (write : ∀ {s} i, ∀ j < 4, ∀ v, P s → P (A.writeTag s i j v)) (start : P s)
    (numBuckets initBuckIdx tag : Nat) : P (insert A numBuckets initBuckIdx tag s).2 := by
  have simulates : SlotSimulates A A (fun s t => s = t ∧ P s) :=
    ⟨fun related _ _ _ => by rw [related.1],
      fun related i j slot v => ⟨by rw [related.1], move i j slot v related.2⟩,
      fun related i j slot v => ⟨by rw [related.1], write i j slot v related.2⟩⟩
  exact (simulates.insert ⟨rfl, start⟩ numBuckets initBuckIdx tag).2.2

theorem insert_invariant {P : σ → Prop} (move : ∀ {s} i j v, P s → P (A.moveTag s i j v))
    (write : ∀ {s} i j v, P s → P (A.writeTag s i j v)) (start : P s) (numBuckets initBuckIdx tag : Nat) :
    P (insert A numBuckets initBuckIdx tag s).2 :=
  insert_slot_invariant (fun i j _ v => move i j v) (fun i j _ v => write i j v) start numBuckets initBuckIdx tag

end Simulation

def decode (v : Nat) : Option (Nat × Nat) := if v = 0 then none else some (v / 16, v % 16)

theorem decode_eq_none {v : Nat} : decode v = none ↔ v = 0 := by simp [decode]

theorem decode_eq_some {v x d : Nat} (cell : decode v = some (x, d)) :
    v = 16 * x + d ∧ x = v / 16 ∧ d = v % 16 := by
  by_cases zero : v = 0
  · simp [decode, zero] at cell
  · simp only [decode, if_neg zero, Option.some.injEq, Prod.mk.injEq] at cell
    omega

theorem decode_tag {x d : Nat} (near : d < 16) (nonzero : 16 * x + d ≠ 0) :
    decode (16 * x + d) = some (x, d) := by
  simp only [decode, if_neg nonzero, Option.some.injEq, Prod.mk.injEq]
  omega

/-- Slots are addressed on a ring of `ring` buckets: a write changes the slot it
names, under all of that slot's indices, and nothing else. -/
structure Lawful (A : Access σ) (ring : Nat) (Ok : σ → Prop) : Prop where
  fits : ring ≤ 2 ^ 32
  read_lt : ∀ {s i j}, Ok s → A.readTag s i j < 2 ^ 16
  read_mod : ∀ {s i j}, i < 2 ^ 32 → A.readTag s (i % ring) j = A.readTag s i j
  move_ok : ∀ {s i j t}, Ok s → Ok (A.moveTag s i j t)
  write_ok : ∀ {s i j t}, Ok s → Ok (A.writeTag s i j t)
  read_move : ∀ {s i j t i' j'}, Ok s → i < 2 ^ 32 → i' < 2 ^ 32 → j < 4 → j' < 4 → t < 2 ^ 16 →
    A.readTag (A.moveTag s i j t) i' j' =
      if i' % ring = i % ring ∧ j' = j then t else A.readTag s i' j'
  read_write : ∀ {s i j t i' j'}, Ok s → i < 2 ^ 32 → i' < 2 ^ 32 → j < 4 → j' < 4 → t < 2 ^ 16 →
    A.readTag (A.writeTag s i j t) i' j' =
      if i' % ring = i % ring ∧ j' = j then t else A.readTag s i' j'

open RingTable

/-- The ring table that a filter state represents. -/
def table (A : Access σ) (ring : Nat) (s : σ) : Table ring 4 Nat :=
  fun q => decode (A.readTag s q.1.val q.2)

section Spec

variable {A : Access σ} {ring : Nat} {Ok : σ → Prop} {s : σ}

theorem table_bounded_distance (q : Slot ring 4) (x d : Nat) (cell : table A ring s q = some (x, d)) :
    d < 16 := by
  have := decode_eq_some cell
  omega

theorem table_index (lawful : Lawful A ring Ok) {i : Nat} (bound : i < 2 ^ 32) (j : Fin 4) :
    table A ring s ((i : ZMod ring), j) = decode (A.readTag s i j) := by
  rw [table, ZMod.val_natCast, lawful.read_mod bound]

theorem table_offset (lawful : Lawful A ring Ok) {i t : Nat} (bound : i + t < 2 ^ 32) (j : Fin 4) :
    table A ring s ((i : ZMod ring) + t, j) = decode (A.readTag s (i + t) j) := by
  rw [← Nat.cast_add, table_index lawful bound]

variable [NeZero ring]

private theorem table_update (lawful : Lawful A ring Ok) {s' : σ} {i t : Nat} {j : Fin 4}
    (read : ∀ i' < 2 ^ 32, ∀ j' < 4, A.readTag s' i' j' =
      if i' % ring = i % ring ∧ j' = j then t else A.readTag s i' j') :
    table A ring s' = Function.update (table A ring s) ((i : ZMod ring), j) (decode t) := by
  funext q
  obtain ⟨b, k⟩ := q
  have inRing := ZMod.val_lt b
  have fits := lawful.fits
  rw [table, read _ (show b.val < 2 ^ 32 by omega) _ k.isLt, Nat.mod_eq_of_lt inRing,
    ← ZMod.val_natCast]
  by_cases same : (b, k) = ((i : ZMod ring), j)
  · rw [same, Function.update_self]
    obtain ⟨rfl, rfl⟩ := Prod.mk.inj same
    simp
  · rw [Function.update_of_ne same, if_neg]
    · rfl
    · rintro ⟨bucket, slot⟩
      exact same (Prod.ext (ZMod.val_injective ring bucket) (Fin.ext slot))

theorem table_moveTag (lawful : Lawful A ring Ok) (ok : Ok s) {i t : Nat} (index : i < 2 ^ 32)
    (j : Fin 4) (bound : t < 2 ^ 16) : table A ring (A.moveTag s i j t) =
      Function.update (table A ring s) ((i : ZMod ring), j) (decode t) :=
  table_update lawful fun _ index' _ inside => lawful.read_move ok index index' j.isLt inside bound

theorem table_writeTag (lawful : Lawful A ring Ok) (ok : Ok s) {i t : Nat} (index : i < 2 ^ 32)
    (j : Fin 4) (bound : t < 2 ^ 16) : table A ring (A.writeTag s i j t) =
      Function.update (table A ring s) ((i : ZMod ring), j) (decode t) :=
  table_update lawful fun _ index' _ inside => lawful.read_write ok index index' j.isLt inside bound

/-- A pair is stored when one of the sixteen probed buckets has its tag at the
probe's distance. -/
theorem mem_entries_table (lawful : Lawful A ring Ok) {initBuckIdx x : Nat}
    (bound : initBuckIdx + 16 ≤ 2 ^ 32) (nonzero : 0 < x) :
    ((initBuckIdx : ZMod ring), x) ∈ entries (table A ring s) ↔
      ∃ d < 16, ∃ j < 4, A.readTag s (initBuckIdx + d) j = 16 * x + d := by
  rw [mem_entries_home]
  constructor
  · rintro ⟨d, j, cell⟩
    have near : d < 16 := table_bounded_distance _ _ _ cell
    rw [table_offset lawful (by omega)] at cell
    exact ⟨d, near, j, j.isLt, (decode_eq_some cell).1⟩
  · rintro ⟨d, near, j, inside, value⟩
    refine ⟨d, ⟨j, inside⟩, ?_⟩
    rw [table_offset lawful (by omega), value]
    exact decode_tag near (by omega)

/-- One pass of the `while` loop: the tag it found `prob` buckets back goes, `prob`
farther from its home, to the current slot; nothing nearer to home changes. -/
theorem pass_spec (lawful : Lawful A ring Ok) {initBuckIdx t prob k v : Nat} (j : Fin 4) (ok : Ok s)
    (inRing : t < ring) (noWrap : initBuckIdx + t < 2 ^ 32) (far : 16 ≤ t)
    (full : ∀ i < t, Full (table A ring s) ((initBuckIdx : ZMod ring) + i))
    (found : findCadi (A.readTag s) (initBuckIdx + t) = some (prob, k, v)) :
    ∃ (i : Nat) (slot : Fin 4), t = i + prob ∧ 0 < prob ∧ k = slot ∧ v % 16 + prob < 16 ∧
      wrapSub 32 (initBuckIdx + t) prob = initBuckIdx + i ∧ v = A.readTag s (initBuckIdx + i) slot ∧
      (v &&& fptMask) ||| ((v &&& disMask) + prob) = v + prob ∧
      table A ring s ((initBuckIdx : ZMod ring) + i, slot) = some (v / 16, v % 16) ∧
      table A ring (A.moveTag s (initBuckIdx + t) j (v + prob)) =
        Function.update (table A ring s) ((initBuckIdx : ZMod ring) + t, j) (some (v / 16, v % 16 + prob)) ∧
      ∀ b < i, Full (table A ring (A.moveTag s (initBuckIdx + t) j (v + prob))) ((initBuckIdx : ZMod ring) + b) := by
  obtain ⟨pos, small, inside, value, close⟩ := findCadi_some found
  obtain ⟨i, rfl⟩ := Nat.exists_eq_add_of_le' (show prob ≤ t by omega)
  have back : wrapSub 32 (initBuckIdx + (i + prob)) prob = initBuckIdx + i := by
    rw [← Nat.add_assoc, wrapSub_add_right]
  rw [back] at value
  have bound : v < 2 ^ 16 := value ▸ lawful.read_lt ok
  have cell := table_offset (s := s) lawful (show initBuckIdx + i < 2 ^ 32 by omega) ⟨k, inside⟩
  simp only [← value] at cell
  have occupied := full i (by omega) ⟨k, inside⟩
  rw [cell, ne_eq, decode_eq_none] at occupied
  rw [decode, if_neg occupied] at cell
  have moved := table_moveTag lawful ok noWrap j (show v + prob < 2 ^ 16 by omega)
  have target : decode (v + prob) = some (v / 16, v % 16 + prob) := by
    rw [← decode_tag close (by omega)]; congr 1; omega
  rw [target, Nat.cast_add] at moved
  refine ⟨i, ⟨k, inside⟩, rfl, pos, rfl, close, back, value, moved_tag bound close, cell, moved, fun b below => ?_⟩
  rw [moved]
  exact (full b (by omega)).update _ _

/-- The `while` loop follows a chain of moves, and ends below distance 16 or at a
barrier; the fuel given to it is enough. -/
theorem displace_spec (lawful : Lawful A ring Ok) {initBuckIdx fuel t : Nat} {j : Fin 4} (ok : Ok s)
    (inRing : t < ring) (noWrap : initBuckIdx + t < 2 ^ 32) (enough : t ≤ fuel)
    (full : ∀ i < t, Full (table A ring s) ((initBuckIdx : ZMod ring) + i)) :
    ∃ (t' : Nat) (j' : Fin 4),
      let out := displace A initBuckIdx fuel s (initBuckIdx + t) j
      Ok out.1 ∧
      Chain 16 (initBuckIdx : ZMod ring) (table A ring s) t j (table A ring out.1) t' j' ∧
      ((out.2 = none ∧ 16 ≤ t' ∧ Barrier 16 (table A ring out.1) (initBuckIdx : ZMod ring) t') ∨
        (out.2 = some (initBuckIdx + t', j'.val) ∧ t' < 16)) := by
  induction fuel generalizing s t j with
  | zero =>
    refine ⟨t, j, ok, .done, Or.inr ⟨rfl, by omega⟩⟩
  | succ fuel ih =>
    have distance := wrapSub_add_left 64 initBuckIdx t
    by_cases near : t < 16
    · refine ⟨t, j, ?_⟩
      have skip : ¬ maxProb ≤ t := by simp only [maxProb]; omega
      simp only [displace, distance, if_neg skip]
      exact ⟨ok, .done, Or.inr ⟨trivial, near⟩⟩
    · have far : maxProb ≤ t := by simp only [maxProb]; omega
      cases found : findCadi (A.readTag s) (initBuckIdx + t) with
      | none =>
        refine ⟨t, j, ?_⟩
        simp only [displace, distance, if_pos far, found]
        refine ⟨ok, .done, Or.inl ⟨trivial, by omega, ?_⟩⟩
        intro g i pos sum k x d cell
        by_cases close : g < 16
        · have blocked := findCadi_none found g pos close k k.isLt
          rw [wrapSub_of_le (by omega), show initBuckIdx + t - g = initBuckIdx + i by omega]
            at blocked
          rw [table_offset lawful (by omega)] at cell
          have := decode_eq_some cell
          omega
        · omega
      | some c =>
        obtain ⟨prob, k, v⟩ := c
        obtain ⟨i, slot, rfl, pos, rfl, close, back, -, tag, cell, moved, full'⟩ :=
          pass_spec lawful j ok inRing noWrap far full found
        obtain ⟨t', j', ok', chain, outcome⟩ := ih (j := slot)
          (lawful.move_ok ok (i := initBuckIdx + (i + prob)) (j := j) (t := v + prob))
          (show i < ring by omega) (by omega) (by omega) full'
        refine ⟨t', j', ?_⟩
        simp only [displace, distance, if_pos far, found]
        rw [tag, back]
        refine ⟨ok', ?_, outcome⟩
        rw [moved] at chain
        exact .move (by omega) pos cell close chain

/-- The scan stops at the first free slot after home. It may run over the ring
several times; only the first pass matters. -/
theorem scan_firstFree (lawful : Lawful A ring Ok) {numBuckets initBuckIdx curr k : Nat}
    (noWrap : initBuckIdx + numBuckets < 2 ^ 32)
    (found : scan (A.readTag s) (initBuckIdx + numBuckets) numBuckets initBuckIdx = some (curr, k)) :
    ∃ (t : Nat) (j : Fin 4), curr = initBuckIdx + t ∧ k = j ∧ t < numBuckets ∧
      FirstFree (table A ring s) (initBuckIdx : ZMod ring) t j := by
  obtain ⟨above, below, inside, zero, least, before⟩ := scan_some noWrap rfl found
  obtain ⟨t, rfl⟩ := Nat.exists_eq_add_of_le above
  refine ⟨t, ⟨k, inside⟩, rfl, rfl, by omega, ?_, fun i earlier j => ?_, fun i lower => ?_, ?_⟩
  · by_contra wrapped
    apply before (initBuckIdx + (t - ring)) (by omega) (by have := NeZero.pos ring; omega) k inside
    rw [← lawful.read_mod (by omega), ← zero, ← lawful.read_mod (i := initBuckIdx + t) (by omega)]
    congr 1
    rw [show initBuckIdx + t = initBuckIdx + (t - ring) + ring by omega, Nat.add_mod_right]
  · rw [table_offset lawful (by omega), ne_eq, decode_eq_none]
    exact before _ (by omega) (by omega) j j.isLt
  · rw [table_offset lawful (by omega), ne_eq, decode_eq_none]
    exact least i lower
  · rw [table_offset lawful (by omega), decode_eq_none]
    exact zero

/-- The insertion loops carry out an insertion on the represented ring table. -/
theorem insert_spec (lawful : Lawful A ring Ok) (ok : Ok s) {numBuckets initBuckIdx x : Nat}
    (pass : ring ≤ numBuckets) (noWrap : initBuckIdx + numBuckets < 2 ^ 32)
    (nonzero : 0 < x) (bound : x < 2 ^ 12) :
    let out := insert A numBuckets initBuckIdx (16 * x) s
    Ok out.2 ∧ Insertion 16 (table A ring s) (initBuckIdx : ZMod ring) x out.1 (table A ring out.2) := by
  cases found : scan (A.readTag s) (initBuckIdx + numBuckets) numBuckets initBuckIdx with
  | none =>
    have occupied := scan_none noWrap rfl found
    rw [insert_of_none _ found]
    refine ⟨ok, .full fun q free => ?_⟩
    obtain ⟨b, j⟩ := q
    have offset : (initBuckIdx : ZMod ring) + ((b - initBuckIdx).val : Nat) = b := by
      rw [ZMod.natCast_zmod_val]; abel
    have inRing := ZMod.val_lt (b - (initBuckIdx : ZMod ring))
    rw [← offset, table_offset lawful (by omega), decode_eq_none] at free
    exact occupied _ (by omega) (by omega) j j.isLt free
  | some c =>
    obtain ⟨curr, k⟩ := c
    obtain ⟨e, k, rfl, rfl, within, first⟩ := scan_firstFree lawful noWrap found
    obtain ⟨t, j, ok', chain, outcome⟩ := displace_spec lawful (j := k) ok first.inRing
      (show initBuckIdx + e < 2 ^ 32 by omega) (Nat.le_add_left e initBuckIdx) first.before
    have descend := chain.le
    rw [insert_of_some _ found]
    generalize displace A initBuckIdx (initBuckIdx + e) s (initBuckIdx + e) k = out
      at ok' chain outcome ⊢
    obtain ⟨s', r⟩ := out
    rcases outcome with ⟨rfl, far, barrier⟩ | ⟨rfl, near⟩
    · exact ⟨ok', .stuck first chain far barrier⟩
    · have placed := table_writeTag lawful ok' (show initBuckIdx + t < 2 ^ 32 by omega) j
        (show 16 * x + t < 2 ^ 16 by omega)
      rw [decode_tag near (by omega), Nat.cast_add] at placed
      simp only [wrapSub_add_left, or_distance near, placed]
      exact ⟨lawful.write_ok ok', .placed first chain near⟩

end Spec

end WormholeFilters
