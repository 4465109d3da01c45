import Mathlib.Data.List.Basic
import Mathlib.Order.Basic

/-! Iterators over a list of entries. An iterator is a state with the calls that move it
and the entry it shows; it simulates a position in the list, where the length of the
list stands for no entry. -/
namespace Cursors

variable {κ ν σ : Type}

inductive Call (κ : Type) where
  | seekToFirst
  | seekToLast
  | seek (target : κ)
  | next
  | prev
  deriving DecidableEq, Repr

/-- `ok` is false once the iterator has met an error. -/
structure Iter (σ κ ν : Type) where
  valid : σ → Bool
  key : σ → κ
  value : σ → ν
  ok : σ → Bool
  call : Call κ → σ → σ

def Iter.shown (it : Iter σ κ ν) (s : σ) : Option (κ × ν) :=
  if it.valid s then some (it.key s, it.value s) else none

/-- The first entry whose key is not below the target. -/
def lowerBound (cmp : κ → κ → Ordering) (entries : List (κ × ν)) (target : κ) : Nat :=
  entries.findIdx fun e => (cmp e.1 target).isGE

def move (cmp : κ → κ → Ordering) (entries : List (κ × ν)) : Call κ → Nat → Nat
  | .seekToFirst, _ => 0
  | .seekToLast, _ => entries.length - 1
  | .seek target, _ => lowerBound cmp entries target
  | .next, i => i + 1
  | .prev, i => if i = 0 then entries.length else i - 1

/-- Only a valid iterator is asked for the next or the previous entry. -/
def Allowed (n : Nat) : Call κ → Nat → Prop
  | .next, i => i < n
  | .prev, i => i < n
  | _, _ => True

instance (n : Nat) (c : Call κ) (i : Nat) : Decidable (Allowed n c i) :=
  match c with
  | .next | .prev => inferInstanceAs (Decidable (i < n))
  | .seekToFirst | .seekToLast | .seek _ => inferInstanceAs (Decidable True)

def Call.isSeek : Call κ → Bool
  | .next | .prev => false
  | _ => true

theorem Call.isSeek.allowed {c : Call κ} (seeks : c.isSeek = true) (n i : Nat) : Allowed n c i := by
  cases c with
  | next | prev => cases seeks
  | _ => trivial

theorem Call.isSeek.move_eq {c : Call κ} (seeks : c.isSeek = true) (cmp : κ → κ → Ordering)
    (entries : List (κ × ν)) (i j : Nat) : move cmp entries c i = move cmp entries c j := by
  cases c with
  | next | prev => cases seeks
  | _ => rfl

/-- `At` relates a state to its position and is kept by every allowed call. -/
structure Simulates (it : Iter σ κ ν) (cmp : κ → κ → Ordering) (entries : List (κ × ν)) (At : σ → Nat → Prop) :
    Prop where
  le {s : σ} {i : Nat} : At s i → i ≤ entries.length
  shown {s : σ} {i : Nat} : At s i → it.shown s = entries[i]?
  ok {s : σ} {i : Nat} : At s i → it.ok s = true
  step {s : σ} {i : Nat} (c : Call κ) : At s i → Allowed entries.length c i → At (it.call c s) (move cmp entries c i)

def AllowedAll (cmp : κ → κ → Ordering) (entries : List (κ × ν)) : List (Call κ) → Nat → Prop
  | [], _ => True
  | c :: cs, i => Allowed entries.length c i ∧ AllowedAll cmp entries cs (move cmp entries c i)

instance decidableAllowedAll (cmp : κ → κ → Ordering) (entries : List (κ × ν)) :
    (calls : List (Call κ)) → (i : Nat) → Decidable (AllowedAll cmp entries calls i)
  | [], _ => inferInstanceAs (Decidable True)
  | c :: cs, i =>
    have := decidableAllowedAll cmp entries cs (move cmp entries c i)
    inferInstanceAs (Decidable (Allowed entries.length c i ∧ AllowedAll cmp entries cs (move cmp entries c i)))

/-- The entries from a state on, and the state behind them. -/
def Iter.collect (it : Iter σ κ ν) : Nat → σ → List (κ × ν) × σ
  | 0, s => ([], s)
  | fuel + 1, s =>
    if it.valid s then
      let rest := it.collect fuel (it.call .next s)
      ((it.key s, it.value s) :: rest.1, rest.2)
    else ([], s)

section LowerBound

variable {cmp : κ → κ → Ordering} {entries : List (κ × ν)} {target : κ} {i : Nat} {e : κ × ν}

theorem lowerBound_le (cmp : κ → κ → Ordering) (entries : List (κ × ν)) (target : κ) :
    lowerBound cmp entries target ≤ entries.length := List.findIdx_le_length

theorem lt_of_lt_lowerBound (found : entries[i]? = some e) (before : i < lowerBound cmp entries target) :
    cmp e.1 target = .lt := by
  obtain ⟨inside, rfl⟩ := List.getElem?_eq_some_iff.mp found
  simpa using List.not_of_lt_findIdx before

theorem not_lt_at_lowerBound (found : entries[lowerBound cmp entries target]? = some e) :
    cmp e.1 target ≠ .lt := by
  obtain ⟨inside, rfl⟩ := List.getElem?_eq_some_iff.mp found
  intro below
  have reached : (cmp (entries[lowerBound cmp entries target]).1 target).isGE = true :=
    List.findIdx_getElem (w := inside)
  simp [below] at reached

theorem lowerBound_eq (inside : i ≤ entries.length)
    (below : ∀ j e, entries[j]? = some e → j < i → cmp e.1 target = .lt)
    (above : ∀ e, entries[i]? = some e → cmp e.1 target ≠ .lt) : lowerBound cmp entries target = i := by
  rcases Nat.lt_trichotomy (lowerBound cmp entries target) i with early | same | late
  · have found := List.getElem?_eq_getElem (Nat.lt_of_lt_of_le early inside)
    exact absurd (below _ _ found early) (not_lt_at_lowerBound found)
  · exact same
  · have found := List.getElem?_eq_getElem (Nat.lt_of_lt_of_le late (lowerBound_le cmp entries target))
    exact absurd (lt_of_lt_lowerBound found late) (above _ found)

theorem move_le {c : Call κ} (allowed : Allowed entries.length c i) : move cmp entries c i ≤ entries.length := by
  cases c with
  | seekToFirst => exact Nat.zero_le _
  | seekToLast => exact Nat.sub_le _ _
  | seek target => exact lowerBound_le _ _ _
  | next => exact allowed
  | prev =>
    have inside : i < entries.length := allowed
    rw [move]
    split <;> omega

end LowerBound

section Runs

variable {it : Iter σ κ ν} {cmp : κ → κ → Ordering} {entries : List (κ × ν)} {At : σ → Nat → Prop}

theorem Simulates.valid_iff (sim : Simulates it cmp entries At) {s : σ} {i : Nat} (pos : At s i) :
    it.valid s = true ↔ i < entries.length := by
  have shown := sim.shown pos
  rw [Iter.shown] at shown
  split at shown
  · next valid =>
    obtain ⟨inside, _⟩ := List.getElem?_eq_some_iff.mp shown.symm
    exact iff_of_true valid inside
  · next invalid => exact iff_of_false invalid (Nat.not_lt.mpr (List.getElem?_eq_none_iff.mp shown.symm))

theorem Simulates.entry (sim : Simulates it cmp entries At) {s : σ} {i : Nat} (pos : At s i) {e : κ × ν}
    (found : entries[i]? = some e) : it.key s = e.1 ∧ it.value s = e.2 := by
  have shown := sim.shown pos
  rw [found, Iter.shown] at shown
  split at shown
  · cases shown
    exact ⟨rfl, rfl⟩
  · cases shown

theorem Simulates.collect (sim : Simulates it cmp entries At) {fuel : Nat} {s : σ} {i : Nat} (pos : At s i)
    (enough : entries.length ≤ i + fuel) :
    (it.collect fuel s).1 = entries.drop i ∧ At (it.collect fuel s).2 entries.length := by
  induction fuel generalizing s i with
  | zero =>
    obtain rfl : i = entries.length := Nat.le_antisymm (sim.le pos) enough
    exact ⟨(List.drop_length ..).symm, pos⟩
  | succ fuel ih =>
    rw [Iter.collect]
    split
    · next valid =>
      have inside := (sim.valid_iff pos).mp valid
      obtain ⟨rest, last⟩ := ih (sim.step .next pos inside) (by simp only [move]; omega)
      obtain ⟨key, value⟩ := sim.entry pos (List.getElem?_eq_getElem inside)
      refine ⟨?_, last⟩
      dsimp only
      rw [List.drop_eq_getElem_cons inside, key, value, rest]
      rfl
    · next invalid =>
      obtain rfl : i = entries.length :=
        Nat.le_antisymm (sim.le pos) (Nat.not_lt.mp (mt (sim.valid_iff pos).mpr invalid))
      exact ⟨(List.drop_length ..).symm, pos⟩

/-- What is shown along any allowed calls is the list at the positions they come to. -/
theorem Simulates.run (sim : Simulates it cmp entries At) (calls : List (Call κ)) {s : σ} {i : Nat} (pos : At s i)
    (allowed : AllowedAll cmp entries calls i) :
    At (calls.foldl (fun s c => it.call c s) s) (calls.foldl (fun i c => move cmp entries c i) i) := by
  induction calls generalizing s i with
  | nil => exact pos
  | cons c calls ih => exact ih (sim.step c pos allowed.1) allowed.2

end Runs

section Blocks

variable {cmp : κ → κ → Ordering} {blocks : List (List (κ × ν))} {fences : List κ} {j : Nat}
  {block : List (κ × ν)}

def blockStart (blocks : List (List (κ × ν))) (j : Nat) : Nat := (blocks.take j).flatten.length

/-- Every block has a fence that its keys do not exceed and later keys do. -/
structure Fenced (cmp : κ → κ → Ordering) (fences : List κ) (blocks : List (List (κ × ν))) : Prop where
  length : fences.length = blocks.length
  le {j : Nat} {f : κ} {block : List (κ × ν)} {e : κ × ν} : fences[j]? = some f → blocks[j]? = some block →
    e ∈ block → (cmp e.1 f).isLE
  lt {j k : Nat} {f : κ} {block : List (κ × ν)} {e : κ × ν} : fences[j]? = some f → blocks[k]? = some block →
    j < k → e ∈ block → cmp f e.1 = .lt

@[simp] theorem blockStart_zero (blocks : List (List (κ × ν))) : blockStart blocks 0 = 0 := rfl

theorem blockStart_length (blocks : List (List (κ × ν))) : blockStart blocks blocks.length = blocks.flatten.length := by
  rw [blockStart, List.take_length]

theorem blockStart_succ (found : blocks[j]? = some block) :
    blockStart blocks (j + 1) = blockStart blocks j + block.length := by
  simp [blockStart, List.take_add_one, found]

theorem blockStart_le (blocks : List (List (κ × ν))) {j k : Nat} (le : j ≤ k) :
    blockStart blocks j ≤ blockStart blocks k := by
  obtain ⟨n, rfl⟩ := Nat.exists_eq_add_of_le le
  rw [blockStart, blockStart, List.take_add, List.flatten_append, List.length_append]
  exact Nat.le_add_right _ _

theorem getElem?_flatten (found : blocks[j]? = some block) {i : Nat} (inside : i < block.length) :
    blocks.flatten[blockStart blocks j + i]? = block[i]? := by
  obtain ⟨present, rfl⟩ := List.getElem?_eq_some_iff.mp found
  have split : blocks.flatten = (blocks.take j).flatten ++ (blocks[j] ++ (blocks.drop (j + 1)).flatten) := by
    rw [← List.flatten_cons, ← List.drop_eq_getElem_cons present, ← List.flatten_append, List.take_append_drop]
  rw [split, blockStart, List.getElem?_append_right (Nat.le_add_right _ _), Nat.add_sub_cancel_left,
    List.getElem?_append_left inside]

/-- Every position is in one of the blocks. -/
theorem exists_block {p : Nat} (inside : p < blocks.flatten.length) : ∃ (j i : Nat) (block : List (κ × ν)),
    blocks[j]? = some block ∧ i < block.length ∧ p = blockStart blocks j + i := by
  induction blocks generalizing p with
  | nil => simp at inside
  | cons b blocks ih =>
    rw [List.flatten_cons, List.length_append] at inside
    rcases Nat.lt_or_ge p b.length with first | later
    · exact ⟨0, p, b, rfl, first, by simp⟩
    · obtain ⟨j, i, block, found, within, same⟩ := ih (p := p - b.length) (by omega)
      refine ⟨j + 1, i, block, found, within, ?_⟩
      have : blockStart (b :: blocks) (j + 1) = b.length + blockStart blocks j := by simp [blockStart]
      omega

/-- A search among the fences and then in one block is a search in all of them. -/
theorem Fenced.lowerBound_flatten [Std.TransCmp cmp] (fenced : Fenced cmp fences blocks) {target : κ}
    (fence : ∀ k f, fences[k]? = some f → (k < j → cmp f target = .lt) ∧ (k = j → cmp f target ≠ .lt))
    (found : blocks[j]? = some block) :
    lowerBound cmp blocks.flatten target = blockStart blocks j + lowerBound cmp block target := by
  have within := lowerBound_le cmp block target
  have start := blockStart_succ found
  have present : j < blocks.length := (List.getElem?_eq_some_iff.mp found).1
  have total : blockStart blocks (j + 1) ≤ blocks.flatten.length := by
    rw [← blockStart_length]
    exact blockStart_le blocks present
  refine lowerBound_eq (by omega) ?_ ?_
  · intro p e entry before
    obtain ⟨k, i, block', found', inside, rfl⟩ := exists_block (List.getElem?_eq_some_iff.mp entry).1
    rw [getElem?_flatten found' inside] at entry
    rcases Nat.lt_trichotomy k j with earlier | rfl | later
    · have isFence := List.getElem?_eq_getElem (show k < fences.length by rw [fenced.length]; omega)
      exact Std.TransCmp.lt_of_isLE_of_lt (fenced.le isFence found' (List.mem_of_getElem? entry))
        ((fence k _ isFence).1 earlier)
    · obtain rfl : block = block' := Option.some.inj (found.symm.trans found')
      exact lt_of_lt_lowerBound entry (by omega)
    · have := blockStart_le blocks (show j + 1 ≤ k from later)
      omega
  · intro e entry
    obtain ⟨k, i, block', found', inside, same⟩ := exists_block (List.getElem?_eq_some_iff.mp entry).1
    rw [same, getElem?_flatten found' inside] at entry
    have isFence := List.getElem?_eq_getElem (show j < fences.length by rw [fenced.length]; omega)
    rcases Nat.lt_trichotomy k j with earlier | rfl | later
    · have := blockStart_le blocks (show k + 1 ≤ j from earlier)
      have := blockStart_succ found'
      omega
    · obtain rfl : block = block' := Option.some.inj (found.symm.trans found')
      obtain rfl : lowerBound cmp block target = i := by omega
      exact not_lt_at_lowerBound entry
    · intro below
      have behind := fenced.lt isFence found' later (List.mem_of_getElem? entry)
      exact (fence j _ isFence).2 rfl (Std.TransCmp.lt_trans behind below)

/-- A target behind every fence is behind every entry. -/
theorem Fenced.lowerBound_flatten_of_all_lt [Std.TransCmp cmp] (fenced : Fenced cmp fences blocks) {target : κ}
    (fence : ∀ f ∈ fences, cmp f target = .lt) : lowerBound cmp blocks.flatten target = blocks.flatten.length := by
  refine lowerBound_eq (Nat.le_refl _) ?_ (by simp)
  intro p e entry _
  obtain ⟨k, i, block, found, inside, rfl⟩ := exists_block (List.getElem?_eq_some_iff.mp entry).1
  rw [getElem?_flatten found inside] at entry
  have present : k < blocks.length := (List.getElem?_eq_some_iff.mp found).1
  have isFence := List.getElem?_eq_getElem (show k < fences.length by rw [fenced.length]; exact present)
  exact Std.TransCmp.lt_of_isLE_of_lt (fenced.le isFence found (List.mem_of_getElem? entry))
    (fence _ (List.mem_of_getElem? isFence))

end Blocks

end Cursors
