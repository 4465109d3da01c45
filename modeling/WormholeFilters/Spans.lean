import Mathlib.Order.Defs.LinearOrder
import Mathlib.Tactic.Order

/-! Items that each span an interval of a linear order. -/
namespace Spans

variable {ι α : Type} [LinearOrder α] (low high : ι → α)

def Clear (x y : α) (i : ι) : Prop := y < low i ∨ high i < x

/-- No interval between `b` and `e` is clear of the items. -/
def Covers (s : List ι) (b e : α) : Prop := ∀ x y, x ≤ y → (∀ i ∈ s, Clear low high x y i) → y < b ∨ e < x

/-- An interval clear of the items is before them all or behind them all. -/
def Solid (s : List ι) : Prop :=
  ∀ x y, x ≤ y → (∀ i ∈ s, Clear low high x y i) → (∀ i ∈ s, y < low i) ∨ ∀ i ∈ s, high i < x

variable {low high} {s t : List ι} {i j : ι} {b e : α}

theorem Covers.mono (covers : Covers low high s b e) (sub : ∀ i ∈ s, i ∈ t) : Covers low high t b e :=
  fun x y le clear => covers x y le fun i member => clear i (sub i member)

theorem covers_single (low high : ι → α) (i : ι) : Covers low high [i] (low i) (high i) :=
  fun _ _ _ clear => clear i (List.mem_singleton_self i)

/-- An item that meets the range covered makes it wider. -/
theorem Covers.widen_low (covers : Covers low high s b e) (member : j ∈ s) (meets : b ≤ high j) :
    Covers low high s (low j) e := by
  intro x y le clear
  rcases covers x y le clear with before | behind
  · rcases clear j member with early | late
    · exact Or.inl early
    · exact absurd before (by order)
  · exact Or.inr behind

theorem Covers.widen_high (covers : Covers low high s b e) (member : j ∈ s) (meets : low j ≤ e) :
    Covers low high s b (high j) := by
  intro x y le clear
  rcases covers x y le clear with before | behind
  · exact Or.inl before
  · rcases clear j member with early | late
    · exact absurd behind (by order)
    · exact Or.inr late

theorem Covers.solid (covers : Covers low high s b e) (meets : ∀ i ∈ s, b ≤ high i ∧ low i ≤ e) :
    Solid low high s := by
  intro x y le clear
  rcases covers x y le clear with before | behind
  · refine Or.inl fun i member => ?_
    have := (meets i member).1
    rcases clear i member with early | late <;> order
  · refine Or.inr fun i member => ?_
    have := (meets i member).2
    rcases clear i member with early | late <;> order

theorem Solid.covers (solid : Solid low high s) (first : i ∈ s) (last : j ∈ s) : Covers low high s (low i) (high j) :=
  fun x y le clear => (solid x y le clear).imp (fun before => before i first) fun behind => behind j last

/-- Items that meet the range of solid ones keep them solid. -/
theorem Solid.append (solid : Solid low high s) (first : i ∈ s) (last : j ∈ s)
    (meets : ∀ k ∈ t, low i ≤ high k ∧ low k ≤ high j) : Solid low high (s ++ t) := by
  intro x y le clear
  have covered := solid x y le fun k member => clear k (List.mem_append_left _ member)
  rcases covered with before | behind
  · refine Or.inl fun k member => ?_
    rcases List.mem_append.mp member with old | new
    · exact before k old
    · have := before i first
      have := (meets k new).1
      rcases clear k member with early | late <;> order
  · refine Or.inr fun k member => ?_
    rcases List.mem_append.mp member with old | new
    · exact behind k old
    · have := behind j last
      have := (meets k new).2
      rcases clear k member with early | late <;> order

/-- Items that each start where the one before ends keep what they are joined to solid. -/
theorem Solid.chain {l : ι} (solid : Solid low high s) (member : l ∈ s) (proper : ∀ i ∈ l :: t, low i ≤ high i)
    (chain : (l :: t).IsChain fun i j => high i = low j) : Solid low high (s ++ t) := by
  induction t generalizing s l with
  | nil => simpa using solid
  | cons k t ih =>
    obtain ⟨joined, chain'⟩ := List.isChain_cons_cons.mp chain
    have first := proper l (List.mem_cons_self ..)
    have second := proper k (List.mem_cons_of_mem _ (List.mem_cons_self ..))
    have more : Solid low high (s ++ [k]) := solid.append member member fun i single => by
      rw [List.mem_singleton.mp single]
      constructor <;> order
    have rest := ih more (by simp) (fun i inside => proper i (List.mem_cons_of_mem _ inside)) chain'
    simpa using rest

theorem Solid.congr (solid : Solid low high s) (same : ∀ i, i ∈ s ↔ i ∈ t) : Solid low high t := by
  intro x y le clear
  have result := solid x y le fun i member => clear i ((same i).mp member)
  exact result.imp (fun before i member => before i ((same i).mpr member)) fun behind i member =>
    behind i ((same i).mpr member)

/-- What is chosen by one condition that holds from some item on and another that holds up to some item is a
segment. -/
theorem exists_segment {begun upto : ι → Bool} (l : List ι) (stays : l.Pairwise fun i j => begun i → begun j)
    (held : l.Pairwise fun i j => upto j → upto i) :
    ∃ pre post, l = pre ++ l.filter (fun i => begun i && upto i) ++ post ∧
      (∀ i ∈ pre, begun i = false) ∧ ∀ i ∈ post, upto i = false := by
  induction l with
  | nil => exact ⟨[], [], rfl, by simp, by simp⟩
  | cons i l ih =>
    obtain ⟨later, stays'⟩ := List.pairwise_cons.mp stays
    obtain ⟨earlier, held'⟩ := List.pairwise_cons.mp held
    obtain ⟨pre, post, split, early, late⟩ := ih stays' held'
    cases started : begun i with
    | false => exact ⟨i :: pre, post, by simpa [started] using split, by simpa [started] using early, late⟩
    | true =>
      cases ended : upto i with
      | false =>
        have none : ∀ j ∈ l, upto j = false := fun j member =>
          Bool.eq_false_iff.mpr fun holds => by simp [earlier j member holds] at ended
        have empty : l.filter (fun j => begun j && upto j) = [] :=
          List.filter_eq_nil_iff.mpr fun j member => by simp [none j member]
        exact ⟨[], i :: l, by simp [ended, empty], by simp, by simpa [ended] using none⟩
      | true =>
        have empty : pre = [] := List.eq_nil_iff_forall_not_mem.mpr fun j member => by
          have present : j ∈ l := by
            rw [split]
            exact List.mem_append_left _ (List.mem_append_left _ member)
          exact Bool.false_ne_true ((early j member).symm.trans (later j present started))
        subst empty
        exact ⟨[], post, by simpa [started, ended] using split, by simp, late⟩

end Spans
