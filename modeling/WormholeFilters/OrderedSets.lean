import Mathlib.Order.Basic

/-! Sets as strictly ascending lists. An element that compares equal to one of the set is
not inserted. -/
namespace OrderedSets

variable {α : Type} (cmp : α → α → Ordering)

def Ascending (l : List α) : Prop := l.Pairwise fun a b => cmp a b = .lt

def insert (x : α) : List α → List α
  | [] => [x]
  | y :: l =>
    match cmp x y with
    | .lt => x :: y :: l
    | .eq => y :: l
    | .gt => y :: insert x l

variable {cmp} {x y : α} {l : List α}

theorem mem_of_mem_insert (member : y ∈ insert cmp x l) : y = x ∨ y ∈ l := by
  induction l with
  | nil => exact Or.inl (List.mem_singleton.mp member)
  | cons z l ih =>
    rw [insert] at member
    split at member
    · exact List.mem_cons.mp member
    · exact Or.inr member
    · rcases List.mem_cons.mp member with rfl | inside
      · exact Or.inr (List.mem_cons_self ..)
      · exact (ih inside).imp_right (List.mem_cons_of_mem z)

theorem mem_insert_of_mem (member : y ∈ l) : y ∈ insert cmp x l := by
  induction l with
  | nil => cases member
  | cons z l ih =>
    rw [insert]
    split
    · exact List.mem_cons_of_mem _ member
    · exact member
    · rcases List.mem_cons.mp member with rfl | inside
      · exact List.mem_cons_self ..
      · exact List.mem_cons_of_mem _ (ih inside)

theorem mem_insert_self (new : ∀ y ∈ l, cmp x y ≠ .eq) : x ∈ insert cmp x l := by
  induction l with
  | nil => exact List.mem_cons_self ..
  | cons z l ih =>
    obtain ⟨different, new'⟩ := List.forall_mem_cons.mp new
    rw [insert]
    split
    · exact List.mem_cons_self ..
    · next same => exact absurd same different
    · exact List.mem_cons_of_mem _ (ih new')

/-- Where equal elements are the same one, insertion adds the element to the set. -/
theorem mem_insert_iff (same : ∀ z ∈ l, cmp x z = .eq → z = x) : y ∈ insert cmp x l ↔ y = x ∨ y ∈ l := by
  refine ⟨mem_of_mem_insert, fun either => either.elim (fun equal => ?_) mem_insert_of_mem⟩
  subst equal
  by_cases present : y ∈ l
  · exact mem_insert_of_mem present
  · exact mem_insert_self fun z member equal => present (same z member equal ▸ member)

theorem Ascending.insert [Std.TransCmp cmp] (ascending : Ascending cmp l) (x : α) : Ascending cmp (insert cmp x l) := by
  induction l with
  | nil => exact List.pairwise_singleton _ _
  | cons z l ih =>
    obtain ⟨first, rest⟩ := List.pairwise_cons.mp ascending
    rw [OrderedSets.insert]
    split
    · next less =>
      refine List.pairwise_cons.mpr ⟨List.forall_mem_cons.mpr ⟨less, fun y member => ?_⟩, ascending⟩
      exact Std.TransCmp.lt_trans less (first y member)
    · exact ascending
    · next greater =>
      refine List.pairwise_cons.mpr ⟨fun y member => ?_, ih rest⟩
      rcases mem_of_mem_insert member with rfl | inside
      · exact Std.OrientedCmp.lt_of_gt greater
      · exact first y inside

/-- The elements of a set in their order give the set again. -/
theorem insert_of_all_lt [Std.TransCmp cmp] (all : ∀ y ∈ l, cmp y x = .lt) : insert cmp x l = l ++ [x] := by
  induction l with
  | nil => rfl
  | cons z l ih =>
    obtain ⟨first, rest⟩ := List.forall_mem_cons.mp all
    simp only [insert, Std.OrientedCmp.gt_of_lt first, ih rest, List.cons_append]

theorem foldl_insert [Std.TransCmp cmp] {front : List α} (ascending : Ascending cmp (front ++ l)) :
    l.foldl (fun set x => insert cmp x set) front = front ++ l := by
  induction l generalizing front with
  | nil => simp
  | cons x l ih =>
    have before := (List.pairwise_append.mp ascending).2.2
    rw [List.foldl_cons, insert_of_all_lt fun y member => before y member x (List.mem_cons_self ..)]
    have whole : Ascending cmp ((front ++ [x]) ++ l) := by simpa using ascending
    simpa using ih whole

end OrderedSets
