import WormholeFilters.Comparators
import WormholeFilters.Iterators
import WormholeFilters.SortedEntries

/-! table/merger.cc: the entries of several iterators in one order. The children stand
behind the current entry when the iterator moves forward and before it when it moves
backward; a change of direction moves all of them but the current one. -/
namespace WormholeFilters.LevelDb

open LittleEndian
open Env (Status)
open Cursors (Call Sorted Merged Ahead Behind)

inductive Direction where
  | forward
  | reverse
  deriving DecidableEq, Repr

structure MergingIter (n : Nat) (σ : Type) where
  children : Fin n → σ
  current : Option (Fin n)
  direction : Direction

namespace MergingIter

variable {n : Nat} {σ : Type}

section Model

variable (c : Comparator) (it : Iterator σ)

def init (children : Fin n → σ) : MergingIter n σ := ⟨children, none, .forward⟩

/-- The loop of `FindSmallest` and `FindLargest`: of the valid children, one that no later one beats. -/
def findBest (beats : Ordering) (children : Fin n → σ) (order : List (Fin n)) : Option (Fin n) :=
  order.foldl (fun best i =>
    if it.valid (children i) then
      match best with
      | none => some i
      | some b => if c.compare (it.key (children i)) (it.key (children b)) = beats then some i else some b
    else best) none

def findSmallest (children : Fin n → σ) : Option (Fin n) := findBest c it .lt children (List.finRange n)

def findLargest (children : Fin n → σ) : Option (Fin n) := findBest c it .gt children (List.finRange n).reverse

def moveBehind (key : List Byte) (child : σ) : σ :=
  let child := it.call (.seek key) child
  if it.valid child ∧ c.compare key (it.key child) = .eq then it.call .next child else child

def moveBefore (key : List Byte) (child : σ) : σ :=
  let child := it.call (.seek key) child
  if it.valid child then it.call .prev child else it.call .seekToLast child

def moveOthers (move : σ → σ) (children : Fin n → σ) (k : Fin n) : Fin n → σ :=
  fun i => if i = k then children i else move (children i)

def next (s : MergingIter n σ) : MergingIter n σ :=
  match s.current with
  | none => s
  | some k =>
    let children := if s.direction ≠ .forward then
      moveOthers (moveBehind c it (it.key (s.children k))) s.children k else s.children
    let children := Function.update children k (it.call .next (children k))
    ⟨children, findSmallest c it children, .forward⟩

def prev (s : MergingIter n σ) : MergingIter n σ :=
  match s.current with
  | none => s
  | some k =>
    let children := if s.direction ≠ .reverse then
      moveOthers (moveBefore it (it.key (s.children k))) s.children k else s.children
    let children := Function.update children k (it.call .prev (children k))
    ⟨children, findLargest c it children, .reverse⟩

def call : Call (List Byte) → MergingIter n σ → MergingIter n σ
  | .seekToFirst, s =>
    let children := fun i => it.call .seekToFirst (s.children i)
    ⟨children, findSmallest c it children, .forward⟩
  | .seekToLast, s =>
    let children := fun i => it.call .seekToLast (s.children i)
    ⟨children, findLargest c it children, .reverse⟩
  | .seek target, s =>
    let children := fun i => it.call (.seek target) (s.children i)
    ⟨children, findSmallest c it children, .forward⟩
  | .next, s => s.next c it
  | .prev, s => s.prev c it

def status (s : MergingIter n σ) : Status :=
  ((List.finRange n).find? fun i => it.status (s.children i) ≠ .ok).elim .ok fun i => it.status (s.children i)

def iterator : Iterator (MergingIter n σ) where
  valid s := s.current.isSome
  key s := (s.current.map fun k => it.key (s.children k)).getD []
  value s := (s.current.map fun k => it.value (s.children k)).getD []
  status := status it
  call := call c it

/-- The state of what `NewMergingIterator` returns for `n` children. -/
def NewMerging (σ : Type) : Nat → Type
  | 0 => Status
  | 1 => σ
  | n + 2 => MergingIter (n + 2) σ

def newMerging : {n : Nat} → (Fin n → σ) → NewMerging σ n
  | 0, _ => Status.ok
  | 1, children => children 0
  | _ + 2, children => init children

def newMergingIterator : (n : Nat) → Iterator (NewMerging σ n)
  | 0 => emptyIterator
  | 1 => it
  | _ + 2 => iterator c it

end Model

section Choice

variable {c : Comparator} {it : Iterator σ} {beats : Ordering} {children : Fin n → σ}

/-- What beats a key beats nothing that the key does not beat already. -/
structure Strict (c : Comparator) (beats : Ordering) : Prop where
  irrefl (a : List Byte) : c.compare a a ≠ beats
  trans {a b d : List Byte} : c.compare a b = beats → c.compare b d = beats → c.compare a d = beats

theorem strict_lt (trans : Std.TransCmp c.compare) : Strict c .lt :=
  ⟨fun _ below => trans.not_lt_of_lt below below, trans.lt_trans⟩

theorem strict_gt (trans : Std.TransCmp c.compare) : Strict c .gt :=
  ⟨fun _ above => trans.not_gt_of_gt above above, trans.gt_trans⟩

def Best (c : Comparator) (it : Iterator σ) (beats : Ordering) (children : Fin n → σ) (seen : List (Fin n))
    (best : Option (Fin n)) : Prop :=
  match best with
  | none => ∀ i ∈ seen, it.valid (children i) ≠ true
  | some b => it.valid (children b) = true ∧
      ∀ i ∈ seen, it.valid (children i) = true → c.compare (it.key (children i)) (it.key (children b)) ≠ beats

theorem findBest_best (strict : Strict c beats) (order : List (Fin n)) :
    Best c it beats children order (findBest c it beats children order) := by
  induction order using List.reverseRecOn with
  | nil => simp [findBest, Best]
  | append_singleton order i ih =>
    rw [findBest, List.foldl_append, List.foldl_cons, List.foldl_nil, ← findBest]
    generalize findBest c it beats children order = best at ih
    by_cases valid : it.valid (children i) = true
    · rw [if_pos valid]
      cases best with
      | none =>
        exact ⟨valid, List.forall_mem_append.mpr
          ⟨fun j member validJ => absurd validJ (ih j member), by simpa using fun _ => strict.irrefl _⟩⟩
      | some b =>
        dsimp only
        split
        · next better =>
          refine ⟨valid, List.forall_mem_append.mpr ⟨fun j member validJ beaten => ?_,
            by simpa using fun _ => strict.irrefl _⟩⟩
          exact ih.2 j member validJ (strict.trans beaten better)
        · next kept => exact ⟨ih.1, List.forall_mem_append.mpr ⟨ih.2, by simpa using fun _ => kept⟩⟩
    · rw [if_neg valid]
      cases best with
      | none => exact List.forall_mem_append.mpr ⟨ih, by simpa using valid⟩
      | some b => exact ⟨ih.1, List.forall_mem_append.mpr ⟨ih.2, by simpa using fun h => absurd h valid⟩⟩

theorem findSmallest_best (it : Iterator σ) (trans : Std.TransCmp c.compare) (children : Fin n → σ) :
    Best c it .lt children (List.finRange n) (findSmallest c it children) :=
  findBest_best (strict_lt trans) _

theorem findLargest_best (it : Iterator σ) (trans : Std.TransCmp c.compare) (children : Fin n → σ) :
    Best c it .gt children (List.finRange n).reverse (findLargest c it children) :=
  findBest_best (strict_gt trans) _

end Choice

section Simulation

variable {c : Comparator} {it : Iterator σ} {lists : Fin n → List (List Byte × List Byte)}
  {merged : List (List Byte × List Byte)} {pos : Fin n → σ → Nat → Prop} {children : Fin n → σ}
  {positions : Fin n → Nat} {p : Nat} {s : MergingIter n σ}

structure On (lists : Fin n → List (List Byte × List Byte)) (merged : List (List Byte × List Byte))
    (positions : Fin n → Nat) (direction : Direction) (k : Fin n) (p : Nat) (f : List Byte × List Byte) : Prop where
  found : (lists k)[positions k]? = some f
  here : merged[p]? = some f
  ahead : direction = .forward → Ahead lists merged positions p
  behind : direction = .reverse → Behind lists merged positions (p + 1)

def At (lists : Fin n → List (List Byte × List Byte)) (merged : List (List Byte × List Byte))
    (pos : Fin n → σ → Nat → Prop) (s : MergingIter n σ) (p : Nat) : Prop :=
  ∃ positions : Fin n → Nat, (∀ k, pos k (s.children k) (positions k)) ∧
    match s.current with
    | none => p = merged.length
    | some k => ∃ f, On lists merged positions s.direction k p f

variable (trans : Std.TransCmp c.compare) (m : Merged c.compare lists merged)
  (sims : ∀ k, Cursors.Simulates it.iter c.compare (lists k) (pos k))

include sims in
theorem valid_iff (stand : ∀ k, pos k (children k) (positions k)) (k : Fin n) :
    it.valid (children k) = true ↔ ∃ f, (lists k)[positions k]? = some f := by
  refine ((sims k).valid_iff (stand k)).trans ⟨fun inside => ⟨_, List.getElem?_eq_getElem inside⟩, ?_⟩
  rintro ⟨f, found⟩
  exact (List.getElem?_eq_some_iff.mp found).1

include sims in
theorem none_of_invalid (stand : ∀ k, pos k (children k) (positions k)) {k : Fin n}
    (invalid : it.valid (children k) ≠ true) : (lists k)[positions k]? = none := by
  cases found : (lists k)[positions k]? with
  | none => rfl
  | some f => exact absurd ((valid_iff sims stand k).mpr ⟨f, found⟩) invalid

include sims in
theorem key_eq (stand : ∀ k, pos k (children k) (positions k)) {k : Fin n} {f : List Byte × List Byte}
    (found : (lists k)[positions k]? = some f) : it.key (children k) = f.1 := ((sims k).entry (stand k) found).1

include trans m sims in
/-- Of children with the rest of the list ahead, the smallest shows its first entry. -/
theorem at_findSmallest (stand : ∀ k, pos k (children k) (positions k)) (ahead : Ahead lists merged positions p)
    (inside : p ≤ merged.length) : At lists merged pos ⟨children, findSmallest c it children, .forward⟩ p := by
  refine ⟨positions, stand, ?_⟩
  have best := findSmallest_best it trans children
  revert best
  cases findSmallest c it children with
  | none =>
    intro invalid
    have done := ahead.length_le fun k => none_of_invalid sims stand (invalid k (List.mem_finRange k))
    exact Nat.le_antisymm inside done
  | some b =>
    rintro ⟨valid, least⟩
    obtain ⟨f, found⟩ := (valid_iff sims stand b).mp valid
    refine ⟨f, found, m.ahead_least ahead found fun l e other => ?_, fun _ => ahead, nofun⟩
    rw [← key_eq sims stand other, ← key_eq sims stand found]
    exact least l (List.mem_finRange l) ((valid_iff sims stand l).mpr ⟨e, other⟩)

include trans m sims in
theorem at_findLargest (stand : ∀ k, pos k (children k) (positions k)) (behind : Behind lists merged positions p)
    (inside : p ≤ merged.length) : At lists merged pos ⟨children, findLargest c it children, .reverse⟩
      (if p = 0 then merged.length else p - 1) := by
  refine ⟨positions, stand, ?_⟩
  have best := findLargest_best it trans children
  revert best
  cases findLargest c it children with
  | none =>
    intro invalid
    have done := behind.eq_zero inside fun k => none_of_invalid sims stand (invalid k (by simp))
    exact if_pos done
  | some b =>
    rintro ⟨valid, greatest⟩
    obtain ⟨f, found⟩ := (valid_iff sims stand b).mp valid
    obtain ⟨some_before, here⟩ := m.behind_greatest behind inside found fun l e other => by
      rw [← key_eq sims stand other, ← key_eq sims stand found]
      exact greatest l (by simp) ((valid_iff sims stand l).mpr ⟨e, other⟩)
    rw [if_neg (Nat.pos_iff_ne_zero.mp some_before)]
    exact ⟨f, found, here, nofun, fun _ => by rwa [Nat.sub_add_cancel some_before]⟩

include m sims in
/-- No other child has the key, so a child sought to it is behind it already. -/
theorem pos_moveBehind {k l : Fin n} {child : σ} {i : Nat} {f : List Byte × List Byte} (stands : pos l child i)
    (different : l ≠ k) (member : f ∈ lists k) :
    pos l (moveBehind c it f.1 child) (Cursors.lowerBound c.compare (lists l) f.1) := by
  have sought := (sims l).step (.seek f.1) stands trivial
  rw [moveBehind]
  split
  · next both =>
    exfalso
    have inside := ((sims l).valid_iff sought).mp both.1
    have found := List.getElem?_eq_getElem inside
    have key := ((sims l).entry sought found).1
    refine m.apart different.symm member (List.mem_of_getElem? found) ?_
    rw [← key]
    exact both.2
  · exact sought

include sims in
theorem pos_moveBefore {l : Fin n} {child : σ} {i : Nat} (key : List Byte) (stands : pos l child i) :
    pos l (moveBefore it key child) (Cursors.lastBelow c.compare (lists l) key) := by
  have sought := (sims l).step (.seek key) stands trivial
  rw [moveBefore]
  split
  · next valid => exact (sims l).step .prev sought (((sims l).valid_iff sought).mp valid)
  · next invalid =>
    have last := (sims l).step .seekToLast sought trivial
    have all : Cursors.lowerBound c.compare (lists l) key = (lists l).length :=
      Nat.le_antisymm (Cursors.lowerBound_le _ _ _)
        (Nat.not_lt.mp (mt ((sims l).valid_iff sought).mpr invalid))
    have same : Cursors.lastBelow c.compare (lists l) key = (lists l).length - 1 := by
      rw [Cursors.lastBelow, all]
      split <;> omega
    rw [same]
    exact last

theorem stand_moveOthers (stand : ∀ l, pos l (children l) (positions l)) {step : σ → σ} {k : Fin n}
    {target : Fin n → Nat} (moved : ∀ l, l ≠ k → pos l (step (children l)) (target l)) (l : Fin n) :
    pos l (moveOthers step children k l) (if l = k then positions l else target l) := by
  rw [moveOthers]
  split
  · exact stand l
  · next different => exact moved l different

include m sims in
/-- The children before the move of the current one in `Next`. -/
theorem turned_forward (stand : ∀ l, pos l (children l) (positions l)) {direction : Direction} {k : Fin n}
    {f : List Byte × List Byte} (on : On lists merged positions direction k p f) [Std.TransCmp c.compare] :
    ∃ positions' : Fin n → Nat, (∀ l, pos l ((if direction ≠ .forward then
        moveOthers (moveBehind c it (it.key (children k))) children k else children) l) (positions' l)) ∧
      (lists k)[positions' k]? = some f ∧ Ahead lists merged positions' p := by
  rw [key_eq sims stand on.found]
  split
  · next backward =>
    refine ⟨fun l => if l = k then positions l else Cursors.lowerBound c.compare (lists l) f.1,
      stand_moveOthers stand fun l different =>
        pos_moveBehind m sims (stand l) different (List.mem_of_getElem? on.found), ?_, ?_⟩
    · simpa using on.found
    · exact m.ahead_at (k := k) (by simpa using on.found) on.here fun l different => if_neg different
  · next forward => exact ⟨positions, stand, on.found, on.ahead (not_not.mp forward)⟩

include m sims in
theorem turned_reverse (stand : ∀ l, pos l (children l) (positions l)) {direction : Direction} {k : Fin n}
    {f : List Byte × List Byte} (on : On lists merged positions direction k p f) [Std.TransCmp c.compare] :
    ∃ positions' : Fin n → Nat, (∀ l, pos l ((if direction ≠ .reverse then
        moveOthers (moveBefore it (it.key (children k))) children k else children) l) (positions' l)) ∧
      (lists k)[positions' k]? = some f ∧ Behind lists merged positions' (p + 1) := by
  rw [key_eq sims stand on.found]
  split
  · next forward =>
    refine ⟨fun l => if l = k then positions l else Cursors.lastBelow c.compare (lists l) f.1,
      stand_moveOthers stand fun l _ => pos_moveBefore sims f.1 (stand l), ?_, ?_⟩
    · simpa using on.found
    · exact m.behind_at (k := k) (by simpa using on.found) on.here fun l different => if_neg different
  · next backward => exact ⟨positions, stand, on.found, on.behind (not_not.mp backward)⟩

include sims in
/-- Moving the one child moves its position. -/
theorem stand_update (stand : ∀ l, pos l (children l) (positions l)) {k : Fin n} {f : List Byte × List Byte}
    (found : (lists k)[positions k]? = some f) (step : Call (List Byte)) (l : Fin n) :
    pos l (Function.update children k (it.call step (children k)) l)
      (Function.update positions k (Cursors.move c.compare (lists k) step (positions k)) l) := by
  by_cases same : l = k
  · subst same
    have inside := (List.getElem?_eq_some_iff.mp found).1
    rw [Function.update_self, Function.update_self]
    refine (sims l).step step (stand l) ?_
    cases step with
    | next | prev => exact inside
    | _ => trivial
  · rw [Function.update_of_ne same, Function.update_of_ne same]
    exact stand l

include m sims in
theorem at_next [Std.TransCmp c.compare] (here : At lists merged pos s p) (inside : p < merged.length) :
    At lists merged pos (s.next c it) (p + 1) := by
  obtain ⟨positions, stand, shows⟩ := here
  rw [next]
  cases current : s.current with
  | none =>
    rw [current] at shows
    omega
  | some k =>
    rw [current] at shows
    obtain ⟨f, on⟩ := shows
    obtain ⟨positions', stand', found, ahead⟩ := turned_forward m sims stand on
    exact at_findSmallest inferInstance m sims (stand_update sims stand' found .next) (m.ahead_next ahead found on.here)
      inside

include m sims in
theorem at_prev [Std.TransCmp c.compare] (here : At lists merged pos s p) (inside : p < merged.length) :
    At lists merged pos (s.prev c it) (if p = 0 then merged.length else p - 1) := by
  obtain ⟨positions, stand, shows⟩ := here
  rw [prev]
  cases current : s.current with
  | none =>
    rw [current] at shows
    omega
  | some k =>
    rw [current] at shows
    obtain ⟨f, on⟩ := shows
    obtain ⟨positions', stand', found, behind⟩ := turned_reverse m sims stand on
    exact at_findLargest inferInstance m sims (stand_update sims stand' found .prev)
      (m.behind_prev behind found on.here) (Nat.le_of_lt inside)

include sims in
theorem status_ok (stand : ∀ k, pos k (s.children k) (positions k)) : s.status it = .ok := by
  rw [status, List.find?_eq_none.mpr, Option.elim_none]
  intro k _
  have ok := of_decide_eq_true ((sims k).ok (stand k))
  simpa using ok

include sims in
theorem shown_eq (here : At lists merged pos s p) : (iterator c it).iter.shown s = merged[p]? := by
  obtain ⟨positions, stand, shows⟩ := here
  rw [Cursors.Iter.shown]
  cases current : s.current with
  | none =>
    rw [current] at shows
    simp [Iterator.iter, iterator, current, shows]
  | some k =>
    rw [current] at shows
    obtain ⟨f, on⟩ := shows
    have entry := (sims k).entry (stand k) on.found
    simp only [Iterator.iter] at entry
    simp [Iterator.iter, iterator, current, entry, on.here]

include trans m sims in
/-- Over children that simulate their lists, the iterator simulates the merged list. -/
theorem simulates : Cursors.Simulates (iterator c it).iter c.compare merged (At lists merged pos) where
  le {s p} here := by
    obtain ⟨positions, stand, shows⟩ := here
    split at shows
    · omega
    · obtain ⟨f, on⟩ := shows
      exact Nat.le_of_lt (List.getElem?_eq_some_iff.mp on.here).1
  shown here := shown_eq sims here
  ok {s p} here := by
    obtain ⟨positions, stand, _⟩ := here
    exact decide_eq_true (status_ok sims stand)
  step {s p} step here allowed := by
    obtain ⟨positions, stand, _⟩ := id here
    have moved (seeks : step.isSeek = true) (l : Fin n) :
        pos l (it.call step (s.children l)) (Cursors.move c.compare (lists l) step (positions l)) :=
      (sims l).step step (stand l) (Call.isSeek.allowed seeks _ _)
    cases step with
    | seekToFirst => exact at_findSmallest trans m sims (moved rfl) (m.ahead_first fun _ => rfl) (Nat.zero_le _)
    | seekToLast =>
      have last := at_findLargest trans m sims (moved rfl) (m.behind_last fun _ => rfl) (Nat.le_refl _)
      rwa [show (if merged.length = 0 then merged.length else merged.length - 1) = merged.length - 1 by
        split <;> omega] at last
    | seek target =>
      exact at_findSmallest trans m sims (moved rfl) (m.ahead_seek target fun _ => rfl) (Cursors.lowerBound_le _ _ _)
    | next => exact at_next m sims here allowed
    | prev => exact at_prev m sims here allowed

include trans m sims in
/-- A new iterator stands for a position of the merged list, wherever its children stand. -/
theorem new_simulates (stand : ∀ k, ∃ i, pos k (children k) i) : ∃ newAt : NewMerging σ n → Nat → Prop,
    Cursors.Simulates (newMergingIterator c it n).iter c.compare merged newAt ∧ ∃ p, newAt (newMerging children) p := by
  match n, lists, pos, children, m, sims, stand with
  | 0, lists, pos, children, m, sims, stand =>
    obtain rfl : merged = [] := List.eq_nil_iff_forall_not_mem.mpr fun e member => by
      obtain ⟨k, _⟩ := (m.mem_iff e).mp member
      exact k.elim0
    exact ⟨_, emptyIterator_simulates c.compare, 0, rfl, rfl⟩
  | 1, lists, pos, children, m, sims, stand =>
    obtain rfl : lists 0 = merged := (m.parts 0).eq_of_mem_iff m.sorted fun e => by
      rw [m.mem_iff, Fin.exists_fin_one]
    exact ⟨pos 0, sims 0, stand 0⟩
  | n + 2, lists, pos, children, m, sims, stand =>
    choose positions stands using stand
    exact ⟨_, simulates trans m sims, _, positions, stands, rfl⟩

end Simulation

end MergingIter

end WormholeFilters.LevelDb
