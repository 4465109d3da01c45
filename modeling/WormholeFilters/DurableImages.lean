import Mathlib.Data.Set.Insert
import Mathlib.Logic.Function.Basic

/-! Two images of one array of slots: stores reach the volatile image, and whole
units of it are written back to the persistent image at any moment. What a slot's
contents stand for is a relation. An item whose copy is the same in both images
outlives every write-back and every store to another slot. -/
namespace DurableImages

variable {ι υ α κ : Type}

/-- The persistent image after the unit `b` is written back. -/
def flushUnit [DecidableEq υ] (unit : ι → υ) (b : υ) (V P : ι → α) : ι → α :=
  fun s => if unit s = b then V s else P s

/-- Slot `s` holds `p` in both images. -/
def Stable (has : ι → α → κ → Prop) (V P : ι → α) (s : ι) (p : κ) : Prop :=
  V s = P s ∧ has s (P s) p

/-- Every item of the persistent image is stable in a slot outside `holes`. -/
def Durable (has : ι → α → κ → Prop) (V P : ι → α) (holes : Set ι) : Prop :=
  ∀ s p, has s (P s) p → ∃ t, t ∉ holes ∧ Stable has V P t p

/-- What the volatile image still has in `holes` is stable elsewhere. -/
def Covered (has : ι → α → κ → Prop) (V P : ι → α) (holes : Set ι) : Prop :=
  ∀ s ∈ holes, ∀ p, has s (V s) p → ∃ t, t ∉ holes ∧ Stable has V P t p

variable {has : ι → α → κ → Prop} {V P : ι → α} {holes : Set ι}

theorem durable_refl (P : ι → α) : Durable has P P ∅ :=
  fun s _ held => ⟨s, Set.notMem_empty s, rfl, held⟩

theorem covered_empty : Covered has V P ∅ := fun s member => absurd member (Set.notMem_empty s)

theorem Durable.weaken (durable : Durable has V P holes) : Durable has V P ∅ := by
  intro s p held
  obtain ⟨t, _, stable⟩ := durable s p held
  exact ⟨t, Set.notMem_empty t, stable⟩

/-- A slot that holds nothing is nobody's only copy. -/
theorem Durable.open_hole (durable : Durable has V P ∅) {h : ι} (free : ∀ p, ¬ has h (V h) p) :
    Durable has V P {h} ∧ Covered has V P {h} := by
  refine ⟨fun s p held => ?_, fun s member p held => ?_⟩
  · obtain ⟨t, _, agree, held⟩ := durable s p held
    refine ⟨t, fun member => ?_, agree, held⟩
    obtain rfl := Set.mem_singleton_iff.mp member
    exact free p (agree ▸ held)
  · obtain rfl := Set.mem_singleton_iff.mp member
    exact absurd held (free p)

theorem Durable.store [DecidableEq ι] {h : ι} (durable : Durable has V P {h}) (a : α) :
    Durable has (Function.update V h a) P ∅ := by
  intro s p held
  obtain ⟨t, apart, agree, held⟩ := durable s p held
  exact ⟨t, Set.notMem_empty t, by rwa [Function.update_of_ne apart], held⟩

variable [DecidableEq υ] {unit : ι → υ}

theorem Stable.writeBack {t : ι} {p : κ} (stable : Stable has V P t p) (b : υ) :
    Stable has V (flushUnit unit b V P) t p := by
  obtain ⟨agree, held⟩ := stable
  by_cases inside : unit t = b
  · exact ⟨(if_pos inside).symm, by rw [flushUnit, if_pos inside, agree]; exact held⟩
  · exact ⟨by rw [flushUnit, if_neg inside]; exact agree,
      by rw [flushUnit, if_neg inside]; exact held⟩

/-- A write-back loses nothing. -/
theorem Durable.kept (durable : Durable has V P holes) (b : υ) {s : ι} {p : κ} (held : has s (P s) p) :
    ∃ t, has t (flushUnit unit b V P t) p := by
  obtain ⟨t, _, stable⟩ := durable s p held
  exact ⟨t, (stable.writeBack b).2⟩

theorem Covered.writeBack (covered : Covered has V P holes) (b : υ) :
    Covered has V (flushUnit unit b V P) holes := by
  intro s member p held
  obtain ⟨t, outside, stable⟩ := covered s member p held
  exact ⟨t, outside, stable.writeBack b⟩

theorem Durable.writeBack (durable : Durable has V P holes) (covered : Covered has V P holes) (b : υ) :
    Durable has V (flushUnit unit b V P) holes := by
  intro s p held
  by_cases inside : unit s = b
  · rw [flushUnit, if_pos inside] at held
    by_cases hole : s ∈ holes
    · obtain ⟨t, outside, stable⟩ := covered s hole p held
      exact ⟨t, outside, stable.writeBack b⟩
    · refine ⟨s, hole, (if_pos inside).symm, ?_⟩
      rw [flushUnit, if_pos inside]
      exact held
  · rw [flushUnit, if_neg inside] at held
    obtain ⟨t, outside, stable⟩ := durable s p held
    exact ⟨t, outside, stable.writeBack b⟩

/-- Once the unit of `h` is written back, a slot `c` whose item `h` also holds may be
overwritten. -/
theorem Durable.shift (durable : Durable has V P ∅) {h c : ι} (apart : h ≠ c)
    (copied : ∀ p, has c (V c) p → has h (V h) p) :
    Durable has V (flushUnit unit (unit h) V P) {c} ∧ Covered has V (flushUnit unit (unit h) V P) {c} := by
  have copy : ∀ p, has c (V c) p → Stable has V (flushUnit unit (unit h) V P) h p := by
    intro p held
    refine ⟨(if_pos rfl).symm, ?_⟩
    rw [flushUnit, if_pos rfl]
    exact copied p held
  refine ⟨fun s p held => ?_, fun s member p held => ?_⟩
  · obtain ⟨t, _, agree, held⟩ := durable.writeBack covered_empty (unit h) s p held
    by_cases same : t = c
    · subst same
      exact ⟨h, apart, copy p (agree ▸ held)⟩
    · exact ⟨t, same, agree, held⟩
  · obtain rfl := Set.mem_singleton_iff.mp member
    exact ⟨h, apart, copy p held⟩

end DurableImages
