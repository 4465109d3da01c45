import Mathlib.Data.List.Basic

/-! Lists laid out one after another, each found again between two consecutive
bounds. -/
namespace Segments

variable {α : Type}

/-- Where each list starts when they follow each other from `base` on, and where the
last one ends. -/
def bounds (base : Nat) : List (List α) → List Nat
  | [] => [base]
  | l :: ls => base :: bounds (base + l.length) ls

def pieces (s : List α) (bs : List Nat) : List (List α) :=
  List.zipWith (fun start limit => (s.drop start).take (limit - start)) bs (bs.drop 1)

@[simp] theorem length_bounds (base : Nat) (ls : List (List α)) :
    (bounds base ls).length = ls.length + 1 := by
  induction ls generalizing base with
  | nil => rfl
  | cons l ls ih => rw [bounds, List.length_cons, ih, List.length_cons]

theorem bounds_append (base : Nat) (ls : List (List α)) (l : List α) :
    bounds base (ls ++ [l]) = bounds base ls ++ [base + ls.flatten.length + l.length] := by
  induction ls generalizing base with
  | nil => rfl
  | cons m ls ih =>
    rw [List.cons_append, bounds, ih, bounds, List.flatten_cons, List.length_append, List.cons_append,
      Nat.add_assoc base]

theorem bounds_eq_cons (base : Nat) (ls : List (List α)) :
    bounds base ls = base :: (bounds base ls).drop 1 := by
  cases ls <;> rfl

theorem getElem?_bounds (base : Nat) (ls : List (List α)) {i : Nat} (inside : i ≤ ls.length) :
    (bounds base ls)[i]? = some (base + (ls.take i).flatten.length) := by
  induction ls generalizing base i with
  | nil =>
    obtain rfl : i = 0 := Nat.le_zero.mp inside
    rfl
  | cons l ls ih =>
    cases i with
    | zero => rfl
    | succ i =>
      rw [bounds, List.getElem?_cons_succ, ih _ (Nat.le_of_succ_le_succ inside), List.take_succ_cons,
        List.flatten_cons, List.length_append, Nat.add_assoc]

theorem pieces_bounds (front : List α) (ls : List (List α)) :
    pieces (front ++ ls.flatten) (bounds front.length ls) = ls := by
  induction ls generalizing front with
  | nil => rfl
  | cons l ls ih =>
    have rest := ih (front ++ l)
    have next := bounds_eq_cons (front.length + l.length) ls
    rw [List.append_assoc, List.length_append] at rest
    rw [pieces, bounds, List.drop_succ_cons, List.drop_zero, List.flatten_cons]
    rw [pieces] at rest
    rw [next, List.zipWith_cons_cons, ← next, rest, List.drop_left, Nat.add_sub_cancel_left, List.take_left]

/-- One of the lists, cut out of them all. -/
theorem cut_flatten {ls : List (List α)} {i : Nat} {l : List α} (found : ls[i]? = some l)
    (rest : List α) :
    ((ls.flatten ++ rest).drop (ls.take i).flatten.length).take
      ((ls.take (i + 1)).flatten.length - (ls.take i).flatten.length) = l := by
  obtain ⟨inside, same⟩ := List.getElem?_eq_some_iff.mp found
  have split : ls.flatten = (ls.take i).flatten ++ (l ++ (ls.drop (i + 1)).flatten) := by
    rw [← same, ← List.flatten_cons, ← List.drop_eq_getElem_cons inside, ← List.flatten_append,
      List.take_append_drop]
  have next : (ls.take (i + 1)).flatten = (ls.take i).flatten ++ l := by
    rw [List.take_succ_eq_append_getElem inside, same, List.flatten_append]
    simp
  rw [split, next, List.append_assoc, List.append_assoc, List.drop_left, List.length_append,
    Nat.add_sub_cancel_left, List.take_left]

end Segments
