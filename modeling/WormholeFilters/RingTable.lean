import Mathlib.Data.ZMod.Basic
import Mathlib.Algebra.BigOperators.Group.Finset.Basic
import Mathlib.Algebra.Order.BigOperators.Group.Multiset
import Mathlib.Tactic.Abel

/-! Bucketed tables on a ring of `N` buckets. A slot is free or holds a payload
together with the distance of its bucket from the payload's home. What a table
means is the multiset of (home, payload) pairs over its occupied slots. -/
namespace RingTable

abbrev Slot (N S : Nat) := ZMod N × Fin S

/-- `none` is a free slot; an occupied one keeps its payload and its distance. -/
abbrev Table (N S : Nat) (κ : Type) := Slot N S → Option (κ × Nat)

variable {N S : Nat} {κ : Type}

/-- What the contents of one slot contribute to the meaning of the table. -/
def entry (q : Slot N S) : Option (κ × Nat) → Multiset (ZMod N × κ)
  | none => 0
  | some (x, d) => {(q.1 - d, x)}

@[simp] theorem entry_none (q : Slot N S) : entry q (none : Option (κ × Nat)) = 0 := rfl

@[simp] theorem entry_some (q : Slot N S) (x : κ) (d : Nat) :
    entry q (some (x, d)) = {(q.1 - d, x)} := rfl

def Full (T : Table N S κ) (b : ZMod N) : Prop := ∀ j, T (b, j) ≠ none

theorem Full.mono {T T' : Table N S κ} {b : ZMod N} (full : Full T b)
    (kept : ∀ q, T q ≠ none → T' q ≠ none) : Full T' b :=
  fun j => kept _ (full j)

theorem Full.update {T : Table N S κ} {b : ZMod N} (full : Full T b) (q : Slot N S) (c : κ × Nat) :
    Full (Function.update T q (some c)) b := by
  intro j
  by_cases same : (b, j) = q
  · subst same; simp
  · rw [Function.update_of_ne same]
    exact full j

variable [NeZero N]

def entries (T : Table N S κ) : Multiset (ZMod N × κ) := ∑ q, entry q (T q)

/-- The meaning of the table when the contents of `hole` are disregarded. -/
def entriesExcept (T : Table N S κ) (hole : Slot N S) : Multiset (ZMod N × κ) :=
  ∑ q ∈ Finset.univ.erase hole, entry q (T q)

theorem entries_split (T : Table N S κ) (q : Slot N S) :
    entries T = entry q (T q) + entriesExcept T q :=
  (Finset.add_sum_erase Finset.univ (fun p => entry p (T p)) (Finset.mem_univ q)).symm

@[simp] theorem entriesExcept_update (T : Table N S κ) (q : Slot N S) (c : Option (κ × Nat)) :
    entriesExcept (Function.update T q c) q = entriesExcept T q := by
  apply Finset.sum_congr rfl
  intro p member
  rw [Function.update_of_ne (Finset.ne_of_mem_erase member)]

theorem entries_update (T : Table N S κ) (q : Slot N S) (c : Option (κ × Nat)) :
    entries (Function.update T q c) = entry q c + entriesExcept T q := by
  rw [entries_split _ q, Function.update_self, entriesExcept_update]

theorem entriesExcept_free {T : Table N S κ} {q : Slot N S} (free : T q = none) :
    entriesExcept T q = entries T := by
  rw [entries_split T q, free, entry_none, zero_add]

/-- Copying the contents of `c` over the hole `q` with an adjusted distance makes
`c` the new hole; nothing else changes. -/
theorem entriesExcept_copy (T : Table N S κ) {q c : Slot N S} {v : Option (κ × Nat)}
    (apart : q ≠ c) (same : entry q v = entry c (T c)) :
    entriesExcept (Function.update T q v) c = entriesExcept T q := by
  have left := entries_split (Function.update T q v) c
  rw [entries_update, Function.update_of_ne apart.symm, same] at left
  exact (add_left_cancel left).symm

theorem mem_entries {T : Table N S κ} {e : ZMod N × κ} :
    e ∈ entries T ↔ ∃ q x d, T q = some (x, d) ∧ e = (q.1 - d, x) := by
  simp only [entries, Multiset.mem_sum, Finset.mem_univ, true_and]
  constructor
  · rintro ⟨q, member⟩
    cases cell : T q with
    | none => simp [cell] at member
    | some c =>
      obtain ⟨x, d⟩ := c
      exact ⟨q, x, d, cell, by simpa [cell] using member⟩
  · rintro ⟨q, x, d, cell, rfl⟩
    exact ⟨q, by simp [cell]⟩

/-- An entry is present exactly when some bucket after its home holds it at the
right distance. -/
theorem mem_entries_home {T : Table N S κ} {h : ZMod N} {x : κ} :
    (h, x) ∈ entries T ↔ ∃ (d : Nat) (j : Fin S), T (h + d, j) = some (x, d) := by
  rw [mem_entries]
  constructor
  · rintro ⟨⟨b, j⟩, y, d, cell, same⟩
    obtain ⟨home, rfl⟩ := Prod.mk.inj same
    refine ⟨d, j, ?_⟩
    rw [home, sub_add_cancel]
    exact cell
  · rintro ⟨d, j, cell⟩
    exact ⟨_, x, d, cell, by simp⟩

theorem entries_eq_zero {T : Table N S κ} : entries T = 0 ↔ ∀ q, T q = none := by
  constructor
  · intro empty q
    cases cell : T q with
    | none => rfl
    | some c =>
      have member : (q.1 - c.2, c.1) ∈ entries T := mem_entries.mpr ⟨q, c.1, c.2, cell, rfl⟩
      simp [empty] at member
  · intro free
    simp [entries, free]

end RingTable
