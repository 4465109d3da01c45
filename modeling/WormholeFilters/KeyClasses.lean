import Mathlib.Order.Defs.LinearOrder
import Mathlib.Tactic.Order

/-! A three-way comparison that is transitive orders the classes of keys which it takes
for equal linearly. -/
namespace KeyClasses

variable {κ : Type} (cmp : κ → κ → Ordering) [Std.TransCmp cmp]

/-- Two keys that compare equal are in one class. -/
def setoid : Setoid κ where
  r a b := cmp a b = .eq
  iseqv := ⟨fun _ => Std.ReflCmp.compare_self, Std.OrientedCmp.eq_symm, Std.TransCmp.eq_trans⟩

def Class : Type := Quotient (setoid cmp)

def classOf (k : κ) : Class cmp := Quotient.mk (setoid cmp) k

instance : LE (Class cmp) where
  le := Quotient.lift₂ (fun a b => (cmp a b).isLE = true) fun a b a' b' same same' => by
    rw [Std.TransCmp.congr_left same, Std.TransCmp.congr_right same']

theorem isLE_total (a b : κ) : (cmp a b).isLE = true ∨ (cmp b a).isLE = true := by
  have swapped : cmp b a = (cmp a b).swap := Std.OrientedCmp.eq_swap
  rw [swapped]
  cases cmp a b <;> decide

theorem isLE_iff (a b : κ) : (cmp a b).isLE = true ↔ classOf cmp a ≤ classOf cmp b := Iff.rfl

noncomputable instance : LinearOrder (Class cmp) where
  le_refl := Quotient.ind fun _ => Std.ReflCmp.isLE_rfl
  le_trans a b c := Quotient.inductionOn₃ a b c fun _ _ _ => Std.TransCmp.isLE_trans
  le_antisymm a b := Quotient.inductionOn₂ a b fun _ _ le ge =>
    Quotient.sound (Std.OrientedCmp.isLE_antisymm le ge)
  le_total a b := Quotient.inductionOn₂ a b (isLE_total cmp)
  toDecidableLE := Classical.decRel _

theorem eq_iff (a b : κ) : cmp a b = .eq ↔ classOf cmp a = classOf cmp b :=
  ⟨fun same => Quotient.sound same, fun same => Quotient.exact same⟩

theorem lt_iff (a b : κ) : cmp a b = .lt ↔ classOf cmp a < classOf cmp b := by
  have swapped : cmp b a = (cmp a b).swap := Std.OrientedCmp.eq_swap
  rw [← not_le, ← isLE_iff, swapped]
  cases cmp a b <;> decide

theorem gt_iff (a b : κ) : cmp a b = .gt ↔ classOf cmp b < classOf cmp a :=
  Std.OrientedCmp.gt_iff_lt.trans (lt_iff cmp b a)

theorem isGE_iff (a b : κ) : (cmp a b).isGE = true ↔ classOf cmp b ≤ classOf cmp a :=
  Std.OrientedCmp.isGE_iff_isLE.trans (isLE_iff cmp b a)

end KeyClasses
