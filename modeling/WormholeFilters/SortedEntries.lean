import Mathlib.Data.List.Induction
import Mathlib.Data.Nat.Count
import WormholeFilters.Cursors

/-! Lists of entries in strictly increasing order of their keys, and several of them
merged into one. -/
namespace Cursors

variable {κ ν : Type} {cmp : κ → κ → Ordering} {entries : List (κ × ν)} {i j : Nat} {e f : κ × ν} {target : κ}

def Sorted (cmp : κ → κ → Ordering) (entries : List (κ × ν)) : Prop :=
  entries.Pairwise fun a b => cmp a.1 b.1 = .lt

instance (cmp : κ → κ → Ordering) (entries : List (κ × ν)) : Decidable (Sorted cmp entries) :=
  inferInstanceAs (Decidable (entries.Pairwise fun a b => cmp a.1 b.1 = .lt))

theorem Sorted.lt (sorted : Sorted cmp entries) (first : entries[i]? = some e) (second : entries[j]? = some f)
    (before : i < j) : cmp e.1 f.1 = .lt := by
  obtain ⟨inside, rfl⟩ := List.getElem?_eq_some_iff.mp first
  obtain ⟨inside', rfl⟩ := List.getElem?_eq_some_iff.mp second
  exact List.pairwise_iff_getElem.mp sorted i j inside inside' before

theorem mem_take_iff {α : Type} {xs : List α} {x : α} {n : Nat} : x ∈ xs.take n ↔ ∃ i, i < n ∧ xs[i]? = some x := by
  simp only [List.mem_iff_getElem?, List.getElem?_take]
  refine exists_congr fun i => ?_
  split
  · next before => exact (and_iff_right before).symm
  · next after => exact iff_of_false (by simp) fun both => after both.1

theorem mem_drop_iff {α : Type} {xs : List α} {x : α} {n : Nat} : x ∈ xs.drop n ↔ ∃ i, n ≤ i ∧ xs[i]? = some x := by
  simp only [List.mem_iff_getElem?, List.getElem?_drop]
  constructor
  · rintro ⟨i, found⟩
    exact ⟨n + i, Nat.le_add_right _ _, found⟩
  · rintro ⟨i, after, found⟩
    exact ⟨i - n, by rwa [Nat.add_sub_cancel' after]⟩

section Order

variable [Std.TransCmp cmp]

theorem Sorted.lt_iff (sorted : Sorted cmp entries) (first : entries[i]? = some e) (second : entries[j]? = some f) :
    cmp e.1 f.1 = .lt ↔ i < j := by
  constructor
  · intro below
    rcases Nat.lt_trichotomy i j with before | rfl | after
    · exact before
    · obtain rfl : e = f := Option.some.inj (first.symm.trans second)
      exact absurd below (Std.OrientedCmp.not_lt_of_lt below)
    · exact absurd (sorted.lt second first after) (Std.OrientedCmp.not_lt_of_lt below)
  · exact sorted.lt first second

theorem Sorted.isLE_last (sorted : Sorted cmp entries) (last : entries.getLast? = some f) (member : e ∈ entries) :
    (cmp e.1 f.1).isLE := by
  obtain ⟨front, rfl⟩ := List.getLast?_eq_some_iff.mp last
  rcases List.mem_append.mp member with before | same
  · have below := (List.pairwise_append.mp sorted).2.2 e before f (List.mem_singleton_self f)
    rw [below]
    rfl
  · rw [List.mem_singleton.mp same]
    exact Std.ReflCmp.isLE_rfl

theorem Sorted.lt_lowerBound_iff (sorted : Sorted cmp entries) (found : entries[i]? = some e) :
    i < lowerBound cmp entries target ↔ cmp e.1 target = .lt := by
  refine ⟨lt_of_lt_lowerBound found, fun below => ?_⟩
  by_contra after
  have inside := (List.getElem?_eq_some_iff.mp found).1
  have reached := List.getElem?_eq_getElem (show lowerBound cmp entries target < entries.length by omega)
  refine not_lt_at_lowerBound reached ?_
  rcases Nat.eq_or_lt_of_le (Nat.not_lt.mp after) with same | later
  · rw [← same, reached] at found
    rwa [Option.some.inj found]
  · exact Std.TransCmp.lt_trans (sorted.lt reached found later) below

theorem Sorted.lowerBound_self (sorted : Sorted cmp entries) (found : entries[i]? = some e) :
    lowerBound cmp entries e.1 = i := by
  refine lowerBound_eq (Nat.le_of_lt (List.getElem?_eq_some_iff.mp found).1) ?_ ?_
  · exact fun j f other before => sorted.lt other found before
  · intro f other
    obtain rfl : e = f := Option.some.inj (found.symm.trans other)
    exact fun below => Std.OrientedCmp.not_lt_of_lt below below

theorem Sorted.mem_take_lowerBound (sorted : Sorted cmp entries) :
    e ∈ entries.take (lowerBound cmp entries target) ↔ e ∈ entries ∧ cmp e.1 target = .lt := by
  rw [mem_take_iff, List.mem_iff_getElem?]
  constructor
  · rintro ⟨i, before, found⟩
    exact ⟨⟨i, found⟩, (sorted.lt_lowerBound_iff found).mp before⟩
  · rintro ⟨⟨i, found⟩, below⟩
    exact ⟨i, (sorted.lt_lowerBound_iff found).mpr below, found⟩

theorem Sorted.mem_drop_lowerBound (sorted : Sorted cmp entries) :
    e ∈ entries.drop (lowerBound cmp entries target) ↔ e ∈ entries ∧ cmp e.1 target ≠ .lt := by
  rw [mem_drop_iff, List.mem_iff_getElem?]
  constructor
  · rintro ⟨i, after, found⟩
    exact ⟨⟨i, found⟩, mt (sorted.lt_lowerBound_iff found).mpr (Nat.not_lt.mpr after)⟩
  · rintro ⟨⟨i, found⟩, above⟩
    exact ⟨i, Nat.not_lt.mp (mt (sorted.lt_lowerBound_iff found).mp above), found⟩

/-- Only one sorted list has these entries. -/
theorem Sorted.eq_of_mem_iff {entries' : List (κ × ν)} (sorted : Sorted cmp entries) (sorted' : Sorted cmp entries')
    (mem_iff : ∀ e, e ∈ entries ↔ e ∈ entries') : entries = entries' := by
  have nodup {l : List (κ × ν)} (sorted : Sorted cmp l) : l.Nodup := by
    refine List.Pairwise.imp (fun {a b} below same => ?_) sorted
    subst same
    exact Std.OrientedCmp.not_lt_of_lt below below
  refine ((List.perm_ext_iff_of_nodup (nodup sorted) (nodup sorted')).mpr mem_iff).eq_of_pairwise ?_ sorted sorted'
  exact fun a b _ _ below above => (Std.OrientedCmp.not_lt_of_lt below above).elim

/-- From an entry on. -/
theorem Sorted.mem_drop_at (sorted : Sorted cmp entries) (found : entries[i]? = some f) :
    e ∈ entries.drop i ↔ e ∈ entries ∧ cmp e.1 f.1 ≠ .lt := by
  rw [← sorted.mem_drop_lowerBound, sorted.lowerBound_self found]

theorem Sorted.mem_take_succ (sorted : Sorted cmp entries) (found : entries[i]? = some f) :
    e ∈ entries.take (i + 1) ↔ e ∈ entries ∧ cmp e.1 f.1 ≠ .gt := by
  rw [mem_take_iff, List.mem_iff_getElem?]
  simp only [ne_eq, Std.OrientedCmp.gt_iff_lt]
  constructor
  · rintro ⟨j, before, other⟩
    exact ⟨⟨j, other⟩, mt (sorted.lt_iff found other).mp (by omega)⟩
  · rintro ⟨⟨j, other⟩, notAbove⟩
    have := mt (sorted.lt_iff found other).mpr notAbove
    exact ⟨j, by omega, other⟩

/-- Going over an entry leaves exactly it behind. -/
theorem Sorted.mem_drop_succ (sorted : Sorted cmp entries) (found : entries[i]? = some f) :
    e ∈ entries.drop (i + 1) ↔ e ∈ entries.drop i ∧ e ≠ f := by
  rw [mem_drop_iff, mem_drop_iff]
  constructor
  · rintro ⟨j, after, other⟩
    refine ⟨⟨j, by omega, other⟩, ?_⟩
    rintro rfl
    have below := sorted.lt found other after
    exact Std.OrientedCmp.not_lt_of_lt below below
  · rintro ⟨⟨j, after, other⟩, different⟩
    refine ⟨j, Nat.lt_of_le_of_ne after ?_, other⟩
    rintro rfl
    exact different (Option.some.inj (other.symm.trans found))

theorem Sorted.mem_take_of_succ (sorted : Sorted cmp entries) (found : entries[i]? = some f) :
    e ∈ entries.take i ↔ e ∈ entries.take (i + 1) ∧ e ≠ f := by
  rw [mem_take_iff, mem_take_iff]
  constructor
  · rintro ⟨j, before, other⟩
    refine ⟨⟨j, by omega, other⟩, ?_⟩
    rintro rfl
    have below := sorted.lt other found before
    exact Std.OrientedCmp.not_lt_of_lt below below
  · rintro ⟨⟨j, before, other⟩, different⟩
    refine ⟨j, Nat.lt_of_le_of_ne (Nat.le_of_lt_succ before) ?_, other⟩
    rintro rfl
    exact different (Option.some.inj (other.symm.trans found))

end Order

section Merging

variable {n : Nat} {lists : Fin n → List (κ × ν)} {merged : List (κ × ν)} {positions : Fin n → Nat} {p : Nat}

/-- One sorted list with the entries of all the lists, no two of which share a key. -/
structure Merged (cmp : κ → κ → Ordering) (lists : Fin n → List (κ × ν)) (merged : List (κ × ν)) : Prop where
  sorted : Sorted cmp merged
  parts (k : Fin n) : Sorted cmp (lists k)
  mem_iff (e : κ × ν) : e ∈ merged ↔ ∃ k, e ∈ lists k
  apart {k l : Fin n} {e f : κ × ν} : k ≠ l → e ∈ lists k → f ∈ lists l → cmp e.1 f.1 ≠ .eq

/-- What is left of the lists from their positions on is what is left of the merged list. -/
def Ahead (lists : Fin n → List (κ × ν)) (merged : List (κ × ν)) (positions : Fin n → Nat) (p : Nat) : Prop :=
  ∀ e, e ∈ merged.drop p ↔ ∃ k, e ∈ (lists k).drop (positions k)

/-- The entries up to a position, which holds none at the end of the list. -/
def held (entries : List (κ × ν)) (i : Nat) : List (κ × ν) := if i < entries.length then entries.take (i + 1) else []

/-- What the lists hold up to their positions is the merged list before position `p`. -/
def Behind (lists : Fin n → List (κ × ν)) (merged : List (κ × ν)) (positions : Fin n → Nat) (p : Nat) : Prop :=
  ∀ e, e ∈ merged.take p ↔ ∃ k, e ∈ held (lists k) (positions k)

def lastBelow (cmp : κ → κ → Ordering) (entries : List (κ × ν)) (target : κ) : Nat :=
  if lowerBound cmp entries target = 0 then entries.length else lowerBound cmp entries target - 1

theorem held_length_sub_one (entries : List (κ × ν)) : held entries (entries.length - 1) = entries := by
  rw [held]
  split
  · rw [List.take_of_length_le (by omega)]
  · exact (List.length_eq_zero_iff.mp (by omega)).symm

theorem held_of_found (found : entries[i]? = some e) : held entries i = entries.take (i + 1) := by
  rw [held, if_pos (List.getElem?_eq_some_iff.mp found).1]

theorem held_prev (inside : i ≤ entries.length) :
    held entries (if i = 0 then entries.length else i - 1) = entries.take i := by
  rw [held]
  by_cases first : i = 0
  · simp [first]
  · rw [if_neg first, if_pos (by omega), Nat.sub_add_cancel (by omega)]

theorem held_lastBelow (cmp : κ → κ → Ordering) (entries : List (κ × ν)) (target : κ) :
    held entries (lastBelow cmp entries target) = entries.take (lowerBound cmp entries target) :=
  held_prev (lowerBound_le cmp entries target)

variable (m : Merged cmp lists merged)

include m in
theorem Merged.ahead_first (first : ∀ k, positions k = 0) : Ahead lists merged positions 0 := by
  intro e
  simp [first, m.mem_iff]

include m in
theorem Merged.behind_last (last : ∀ k, positions k = (lists k).length - 1) :
    Behind lists merged positions merged.length := by
  intro e
  simp only [last, held_length_sub_one, List.take_length, m.mem_iff]

/-- No list has an entry left. -/
theorem Ahead.length_le (ahead : Ahead lists merged positions p) (done : ∀ k, (lists k)[positions k]? = none) :
    merged.length ≤ p := by
  by_contra more
  obtain ⟨k, member⟩ := (ahead _).mp (mem_drop_iff.mpr ⟨p, Nat.le_refl _, List.getElem?_eq_getElem (by omega)⟩)
  rw [List.drop_eq_nil_of_le (List.getElem?_eq_none_iff.mp (done k))] at member
  cases member

theorem Behind.eq_zero (behind : Behind lists merged positions p) (inside : p ≤ merged.length)
    (done : ∀ k, (lists k)[positions k]? = none) : p = 0 := by
  by_contra more
  obtain ⟨k, member⟩ := (behind _).mp (mem_take_iff.mpr ⟨p - 1, by omega, List.getElem?_eq_getElem (by omega)⟩)
  rw [held, if_neg (Nat.not_lt.mpr (List.getElem?_eq_none_iff.mp (done k)))] at member
  cases member

variable [Std.TransCmp cmp]

include m in
theorem Merged.ne_of_apart {k l : Fin n} (different : k ≠ l) (first : e ∈ lists k) (second : f ∈ lists l) : e ≠ f := by
  rintro rfl
  exact m.apart different first second Std.ReflCmp.compare_self

include m in
theorem Merged.ahead_seek (target : κ) (sought : ∀ k, positions k = lowerBound cmp (lists k) target) :
    Ahead lists merged positions (lowerBound cmp merged target) := by
  intro e
  simp only [sought, m.sorted.mem_drop_lowerBound, (m.parts _).mem_drop_lowerBound, m.mem_iff, exists_and_right]

include m in
/-- One list at an entry, the others sought to its key. -/
theorem Merged.ahead_at {k : Fin n} (found : (lists k)[positions k]? = some f) (here : merged[p]? = some f)
    (sought : ∀ l, l ≠ k → positions l = lowerBound cmp (lists l) f.1) : Ahead lists merged positions p := by
  intro e
  rw [m.sorted.mem_drop_at here, m.mem_iff, ← exists_and_right]
  refine exists_congr fun l => ?_
  by_cases same : l = k
  · subst same
    rw [(m.parts l).mem_drop_at found]
  · rw [sought l same, (m.parts l).mem_drop_lowerBound]

include m in
/-- One list at an entry, the others at their last entry below its key. -/
theorem Merged.behind_at {k : Fin n} (found : (lists k)[positions k]? = some f) (here : merged[p]? = some f)
    (sought : ∀ l, l ≠ k → positions l = lastBelow cmp (lists l) f.1) : Behind lists merged positions (p + 1) := by
  intro e
  rw [m.sorted.mem_take_succ here, m.mem_iff, ← exists_and_right]
  refine exists_congr fun l => ?_
  by_cases same : l = k
  · subst same
    rw [held_of_found found, (m.parts l).mem_take_succ found]
  · rw [sought l same, held_lastBelow, (m.parts l).mem_take_lowerBound]
    refine and_congr_right fun member => ?_
    have different := m.apart same member (List.mem_of_getElem? found)
    cases order : cmp e.1 f.1 <;> simp_all

include m in
/-- One list moved over an entry, the others where they were. -/
theorem Merged.ahead_next {k : Fin n} (ahead : Ahead lists merged positions p)
    (found : (lists k)[positions k]? = some f) (here : merged[p]? = some f) :
    Ahead lists merged (Function.update positions k (positions k + 1)) (p + 1) := by
  intro e
  rw [m.sorted.mem_drop_succ here, ahead e, ← exists_and_right]
  refine exists_congr fun l => ?_
  by_cases same : l = k
  · subst same
    rw [Function.update_self, (m.parts l).mem_drop_succ found]
  · rw [Function.update_of_ne same]
    exact and_iff_left_of_imp fun member =>
      m.ne_of_apart same (List.mem_of_mem_drop member) (List.mem_of_getElem? found)

include m in
theorem Merged.behind_prev {k : Fin n} (behind : Behind lists merged positions (p + 1))
    (found : (lists k)[positions k]? = some f) (here : merged[p]? = some f) :
    Behind lists merged (Function.update positions k
      (if positions k = 0 then (lists k).length else positions k - 1)) p := by
  intro e
  rw [m.sorted.mem_take_of_succ here, behind e, ← exists_and_right]
  refine exists_congr fun l => ?_
  by_cases same : l = k
  · subst same
    rw [Function.update_self, held_prev (Nat.le_of_lt (List.getElem?_eq_some_iff.mp found).1), held_of_found found,
      (m.parts l).mem_take_of_succ found]
  · rw [Function.update_of_ne same]
    refine and_iff_left_of_imp fun member => m.ne_of_apart same ?_ (List.mem_of_getElem? found)
    rw [held] at member
    split at member
    · exact List.mem_of_mem_take member
    · cases member

include m in
/-- A list whose entry no other list's is below is at the next entry of all. -/
theorem Merged.ahead_least {k : Fin n} (ahead : Ahead lists merged positions p)
    (found : (lists k)[positions k]? = some f)
    (least : ∀ l e, (lists l)[positions l]? = some e → cmp e.1 f.1 ≠ .lt) : merged[p]? = some f := by
  have member : f ∈ merged.drop p := (ahead f).mpr ⟨k, mem_drop_iff.mpr ⟨_, Nat.le_refl _, found⟩⟩
  obtain ⟨q, after, atq⟩ := mem_drop_iff.mp member
  obtain ⟨e, here⟩ : ∃ e, merged[p]? = some e :=
    ⟨_, List.getElem?_eq_getElem (Nat.lt_of_le_of_lt after (List.getElem?_eq_some_iff.mp atq).1)⟩
  rcases Nat.eq_or_lt_of_le after with rfl | later
  · exact atq
  · -- the entry before it is at or behind the position of its list
    obtain ⟨l, member'⟩ := (ahead e).mp (mem_drop_iff.mpr ⟨_, Nat.le_refl _, here⟩)
    obtain ⟨i, after', ati⟩ := mem_drop_iff.mp member'
    have below := m.sorted.lt here atq later
    obtain ⟨g, first⟩ : ∃ g, (lists l)[positions l]? = some g :=
      ⟨_, List.getElem?_eq_getElem (Nat.lt_of_le_of_lt after' (List.getElem?_eq_some_iff.mp ati).1)⟩
    rcases Nat.eq_or_lt_of_le after' with rfl | more
    · exact absurd below (least l e ati)
    · exact absurd (Std.TransCmp.lt_trans ((m.parts l).lt first ati more) below) (least l g first)

include m in
theorem Merged.behind_greatest {k : Fin n} (behind : Behind lists merged positions p) (inside : p ≤ merged.length)
    (found : (lists k)[positions k]? = some f)
    (greatest : ∀ l e, (lists l)[positions l]? = some e → cmp e.1 f.1 ≠ .gt) : 0 < p ∧ merged[p - 1]? = some f := by
  have member : f ∈ merged.take p :=
    (behind f).mpr ⟨k, by rw [held_of_found found]; exact mem_take_iff.mpr ⟨_, Nat.lt_succ_self _, found⟩⟩
  obtain ⟨q, before, atq⟩ := mem_take_iff.mp member
  refine ⟨by omega, ?_⟩
  rcases Nat.eq_or_lt_of_le (Nat.le_sub_one_of_lt before) with rfl | earlier
  · exact atq
  · obtain ⟨e, here⟩ : ∃ e, merged[p - 1]? = some e := ⟨_, List.getElem?_eq_getElem (by omega)⟩
    obtain ⟨l, member'⟩ := (behind e).mp (mem_take_iff.mpr ⟨_, by omega, here⟩)
    have above := m.sorted.lt atq here earlier
    rw [held] at member'
    split at member'
    · next within =>
      obtain ⟨i, before', ati⟩ := mem_take_iff.mp member'
      have last := List.getElem?_eq_getElem within
      rcases Nat.eq_or_lt_of_le (Nat.le_of_lt_succ before') with rfl | more
      · exact absurd (Std.OrientedCmp.gt_of_lt above) (greatest l e ati)
      · exact absurd (Std.OrientedCmp.gt_of_lt (Std.TransCmp.lt_trans above ((m.parts l).lt ati last more)))
          (greatest l _ last)
    · cases member'

end Merging

section Selection

variable {α : Type} (chosen : Nat → Bool)

def selected (xs : List α) : List α := (xs.zipIdx.filter fun x => chosen x.2).map Prod.fst

def rank (i : Nat) : Nat := Nat.count (chosen · = true) i

variable {chosen} {xs : List α} {x : α} {p : Nat}

theorem selected_concat (xs : List α) (x : α) :
    selected chosen (xs ++ [x]) = selected chosen xs ++ if chosen xs.length then [x] else [] := by
  rw [selected, List.zipIdx_append, List.filter_append, List.map_append, ← selected]
  cases here : chosen xs.length <;> simp [here]

@[simp] theorem rank_zero : rank chosen 0 = 0 := Nat.count_zero _

theorem rank_succ_of_chosen (here : chosen i = true) : rank chosen (i + 1) = rank chosen i + 1 :=
  Nat.count_succ_eq_succ_count here

theorem rank_succ_of_not_chosen (here : chosen i ≠ true) : rank chosen (i + 1) = rank chosen i :=
  Nat.count_succ_eq_count here

theorem rank_mono (le : i ≤ j) : rank chosen i ≤ rank chosen j := Nat.count_monotone _ le

theorem rank_lt (here : chosen i = true) (before : i < j) : rank chosen i < rank chosen j :=
  Nat.count_strict_mono (p := (chosen · = true)) here before

theorem lt_of_rank_lt (below : rank chosen i < rank chosen j) : i < j := Nat.lt_of_count_lt_count below

theorem rank_eq_of_none_chosen (le : i ≤ j) (none : ∀ k, i ≤ k → k < j → chosen k ≠ true) :
    rank chosen i = rank chosen j := by
  induction j, le using Nat.le_induction with
  | base => rfl
  | succ j le ih =>
    rw [rank_succ_of_not_chosen (none j le (Nat.lt_succ_self j))]
    exact ih fun k after before => none k after (Nat.lt_succ_of_lt before)

theorem length_selected (chosen : Nat → Bool) (xs : List α) : (selected chosen xs).length = rank chosen xs.length := by
  induction xs using List.reverseRecOn with
  | nil => rfl
  | append_singleton xs x ih =>
    rw [selected_concat, List.length_append, List.length_append, List.length_singleton, ih]
    cases here : chosen xs.length
    · rw [rank_succ_of_not_chosen (by simp [here])]
      rfl
    · rw [rank_succ_of_chosen here]
      rfl

theorem getElem?_selected (here : chosen i = true) (found : xs[i]? = some x) :
    (selected chosen xs)[rank chosen i]? = some x := by
  induction xs using List.reverseRecOn with
  | nil => cases found
  | append_singleton xs y ih =>
    have total := length_selected chosen xs
    rw [selected_concat]
    rcases Nat.lt_trichotomy i xs.length with before | rfl | after
    · rw [List.getElem?_append_left before] at found
      have below := rank_lt here before
      rw [List.getElem?_append_left (by omega)]
      exact ih found
    · rw [List.getElem?_concat_length] at found
      rw [if_pos here, ← total, List.getElem?_concat_length]
      exact found
    · rw [List.getElem?_eq_none (by simp; omega)] at found
      cases found

theorem exists_of_getElem?_selected (found : (selected chosen xs)[p]? = some x) :
    ∃ i, chosen i = true ∧ xs[i]? = some x ∧ p = rank chosen i := by
  induction xs using List.reverseRecOn with
  | nil => cases found
  | append_singleton xs y ih =>
    have total := length_selected chosen xs
    rw [selected_concat] at found
    rcases Nat.lt_or_ge p (selected chosen xs).length with before | after
    · rw [List.getElem?_append_left before] at found
      obtain ⟨i, here, at_i, rfl⟩ := ih found
      exact ⟨i, here, by rw [List.getElem?_append_left (List.getElem?_eq_some_iff.mp at_i).1, at_i], rfl⟩
    · rw [List.getElem?_append_right after] at found
      split at found
      · next here =>
        have last : p - (selected chosen xs).length < 1 := (List.getElem?_eq_some_iff.mp found).1
        rw [Nat.lt_one_iff.mp last] at found
        exact ⟨xs.length, here, by rwa [List.getElem?_concat_length], by omega⟩
      · cases found

end Selection

end Cursors
