import WormholeFilters.RingTable

/-! Greedy displacement on a ring table. Positions are offsets from the home
`h` of the payload to insert, so that the `K` reachable buckets are the offsets
below `K`. The hole a chain of moves carries towards home still holds the payload
that was copied last; no intermediate table has to be meaningful. -/
namespace RingTable

variable {N S : Nat} {κ : Type} {K : Nat} {h : ZMod N} {x : κ}

/-- Offsets below `N` name different buckets. -/
theorem offset_inj [NeZero N] {s t : Nat} (hs : s < N) (ht : t < N)
    (same : h + (s : ZMod N) = h + t) : s = t := by
  have cast := (ZMod.natCast_eq_natCast_iff' s t N).mp (add_left_cancel same)
  rwa [Nat.mod_eq_of_lt hs, Nat.mod_eq_of_lt ht] at cast

structure FirstFree (T : Table N S κ) (h : ZMod N) (e : Nat) (j : Fin S) : Prop where
  inRing : e < N
  before : ∀ i < e, Full T (h + i)
  lower : ∀ i < j, T (h + e, i) ≠ none
  free : T (h + e, j) = none

theorem FirstFree.unique {T : Table N S κ} {e e' : Nat} {j j' : Fin S} (first : FirstFree T h e j)
    (second : FirstFree T h e' j') : e = e' := by
  rcases Nat.lt_trichotomy e e' with less | same | more
  · exact absurd first.free (second.before e less j)
  · exact same
  · exact absurd second.free (first.before e' more j')

/-- Nothing stored between home and offset `t` can be carried as far as `t`. -/
def Barrier (K : Nat) (T : Table N S κ) (h : ZMod N) (t : Nat) : Prop :=
  ∀ g s : Nat, 0 < g → s + g = t → ∀ (j : Fin S) (x : κ) (d : Nat),
    T (h + s, j) = some (x, d) → K ≤ d + g

/-- `Chain K h T t j T' t' j'`: moves carry the hole from `(t, j)` to `(t', j')`.
Each one copies a payload `g` buckets forward into the hole, which is then where
the payload came from. -/
inductive Chain (K : Nat) (h : ZMod N) :
    Table N S κ → Nat → Fin S → Table N S κ → Nat → Fin S → Prop
  | done {T t j} : Chain K h T t j T t j
  | move {T t j g i x d T' t' j'} (far : K ≤ t + g) (forward : 0 < g)
      (cell : T (h + (t : Nat), i) = some (x, d)) (near : d + g < K)
      (rest : Chain K h (Function.update T (h + (t + g : Nat), j) (some (x, d + g))) t i T' t' j') :
      Chain K h T (t + g) j T' t' j'

namespace Chain

variable {T T' : Table N S κ} {t t' : Nat} {j j' : Fin S}

theorem le (chain : Chain K h T t j T' t' j') : t' ≤ t := by
  induction chain with
  | done => exact Nat.le_refl _
  | move _ _ _ _ _ ih => omega

/-- Only offsets above the final hole are written. -/
theorem untouched [NeZero N] (chain : Chain K h T t j T' t' j') (inRing : t < N) :
    ∀ i ≤ t', ∀ k, T' (h + i, k) = T (h + i, k) := by
  induction chain with
  | done => intros; rfl
  | @move T t j g i x d T' t' j' far forward cell near rest ih =>
    intro s bound k
    have descend := rest.le
    rw [ih (by omega) s bound k]
    apply Function.update_of_ne
    intro same
    have := offset_inj (by omega) (by omega) (Prod.mk.inj same).1
    omega

/-- A chain that moves something occupies the slot it starts from, and no other. -/
theorem occupied_iff (chain : Chain K h T t j T' t' j') (q : Slot N S) :
    T' q ≠ none ↔ T q ≠ none ∨ (t' < t ∧ q = (h + t, j)) := by
  induction chain with
  | done => simp
  | @move T t j g i x d T' t' j' far forward cell near rest ih =>
    have descend := rest.le
    have moved : t' < t + g := by omega
    by_cases same : q = (h + (t + g : Nat), j)
    · subst same
      rw [ih]
      simp [moved]
    · rw [ih, Function.update_of_ne same]
      constructor
      · rintro (occupied | ⟨_, rfl⟩)
        · exact Or.inl occupied
        · exact Or.inl (by rw [cell]; exact Option.some_ne_none _)
      · rintro (occupied | ⟨_, rfl⟩)
        · exact Or.inl occupied
        · contradiction

theorem kept (chain : Chain K h T t j T' t' j') (q : Slot N S) (occupied : T q ≠ none) : T' q ≠ none :=
  (chain.occupied_iff q).mpr (Or.inl occupied)

/-- The table without the hole keeps its meaning through every move. -/
theorem entriesExcept_eq [NeZero N] (chain : Chain K h T t j T' t' j') (inRing : t < N) :
    entriesExcept T' (h + t', j') = entriesExcept T (h + t, j) := by
  induction chain with
  | done => rfl
  | @move T t j g i x d T' t' j' far forward cell near rest ih =>
    rw [ih (by omega)]
    apply entriesExcept_copy
    · intro same
      have := offset_inj (by omega) (by omega) (Prod.mk.inj same).1
      omega
    · rw [cell, entry_some, entry_some]
      congr 2
      push_cast
      abel

/-- A chain that crosses offset `b` carries some payload across it. -/
theorem crosses [NeZero N] (chain : Chain K h T t j T' t' j') (inRing : t < N) (b : Nat)
    (above : b ≤ t) (crossed : t' < b) : ¬ Barrier K T h b := by
  induction chain with
  | done => omega
  | @move T t j g i x d T' t' j' far forward cell near rest ih =>
    intro barrier
    by_cases beyond : b ≤ t
    · refine ih (by omega) beyond crossed ?_
      intro g' s pos sum k y c stored
      rw [Function.update_of_ne] at stored
      · exact barrier g' s pos sum k y c stored
      · intro same
        have := offset_inj (by omega) (by omega) (Prod.mk.inj same).1
        omega
    · have := barrier (b - t) t (by omega) (by omega) i x d cell
      omega

theorem eq_of_eq (chain : Chain K h T t j T' t' j') (same : t' = t) : T' = T := by
  cases chain with
  | done => rfl
  | move _ forward _ _ rest => have := rest.le; omega

/-- A chain that moved something has stored the payload of its last hole twice. -/
theorem entries_of_lt [NeZero N] (chain : Chain K h T t j T' t' j') (first : FirstFree T h t j)
    (moved : t' < t) : ∃ e ∈ entries T, entries T' = e ::ₘ entries T := by
  have hole := chain.untouched first.inRing t' (Nat.le_refl t') j'
  have occupied := first.before t' moved j'
  obtain ⟨⟨y, d⟩, cell⟩ := Option.ne_none_iff_exists'.mp occupied
  refine ⟨(h + t' - d, y), mem_entries.mpr ⟨_, y, d, cell, rfl⟩, ?_⟩
  rw [entries_split T' (h + t', j'), chain.entriesExcept_eq first.inRing,
    entriesExcept_free first.free, hole, cell]
  simp

end Chain

/-- The three ways an insertion of `x` with home `h` ends: no free slot, a barrier
between the first free slot and home, or a slot within reach. -/
inductive Insertion (K : Nat) (T : Table N S κ) (h : ZMod N) (x : κ) : Bool → Table N S κ → Prop
  | full (occupied : ∀ q, T q ≠ none) : Insertion K T h x false T
  | stuck {e j T' t j'} (first : FirstFree T h e j) (chain : Chain K h T e j T' t j')
      (far : K ≤ t) (barrier : Barrier K T' h t) : Insertion K T h x false T'
  | placed {e j T' t j'} (first : FirstFree T h e j) (chain : Chain K h T e j T' t j')
      (near : t < K) : Insertion K T h x true (Function.update T' (h + t, j') (some (x, t)))

namespace Insertion

/-- An insertion leaves the occupied slots alone or adds the first free one to them. -/
theorem occupied_cases {T T' : Table N S κ} {r : Bool} (insertion : Insertion K T h x r T') :
    (∀ q, T' q ≠ none ↔ T q ≠ none) ∨
      ∃ e j, FirstFree T h e j ∧ ∀ q, T' q ≠ none ↔ T q ≠ none ∨ q = (h + e, j) := by
  cases insertion with
  | full => exact Or.inl fun q => Iff.rfl
  | @stuck e j _ t j' first chain =>
    by_cases moved : t < e
    · exact Or.inr ⟨e, j, first, fun q => by rw [chain.occupied_iff]; simp [moved]⟩
    · exact Or.inl fun q => by rw [chain.occupied_iff]; simp [moved]
  | @placed e j U t j' first chain near =>
    refine Or.inr ⟨e, j, first, fun q => ?_⟩
    have descend := chain.le
    by_cases moved : t < e
    · have hole := first.before t moved j'
      by_cases same : q = (h + t, j')
      · subst same
        simp [hole]
      · rw [Function.update_of_ne same, chain.occupied_iff]
        simp [moved]
    · obtain rfl : t = e := by omega
      cases chain with
      | done =>
        by_cases same : q = (h + t, j)
        · subst same
          simp
        · rw [Function.update_of_ne same]
          simp [same]
      | move _ forward _ _ rest => have := rest.le; omega

variable [NeZero N] {T T' : Table N S κ}

/-- A successful insertion adds exactly its own entry. -/
theorem entries_true (insertion : Insertion K T h x true T') :
    entries T' = (h, x) ::ₘ entries T := by
  cases insertion with
  | placed first chain near =>
    rw [entries_update, chain.entriesExcept_eq first.inRing, entriesExcept_free first.free]
    simp

/-- A failed insertion leaves the entries alone, or stores one of them twice. -/
theorem entries_false (insertion : Insertion K T h x false T') :
    T' = T ∨ ∃ e ∈ entries T, entries T' = e ::ₘ entries T := by
  cases insertion with
  | full occupied => exact Or.inl rfl
  | @stuck e j _ t j' first chain far barrier =>
    by_cases moved : t = e
    · subst moved
      exact Or.inl (chain.eq_of_eq rfl)
    · exact Or.inr (chain.entries_of_lt first (Nat.lt_of_le_of_ne chain.le moved))

/-- When a failed insertion leaves the entries as they were: unless a move into the
first free slot is possible and a barrier further on then stops the chain. -/
theorem entries_eq_iff {r : Bool} (insertion : Insertion K T h x r T') :
    (r = false → entries T' = entries T) ↔
      ¬ ∃ e j t, FirstFree T h e j ∧ ¬ Barrier K T h e ∧ K ≤ t ∧ t < e ∧ Barrier K T h t := by
  constructor
  · rintro unchanged ⟨e, j, t, first, movable, far, before, barrier⟩
    cases insertion with
    | full occupied => exact occupied _ first.free
    | @stuck e' j' _ t' k first' chain far' barrier' =>
      obtain rfl := first.unique first'
      by_cases moved : t' = e
      · subst moved
        obtain rfl := chain.eq_of_eq rfl
        exact movable barrier'
      · obtain ⟨f, grown⟩ := chain.entries_of_lt first' (Nat.lt_of_le_of_ne chain.le moved)
        have := congrArg Multiset.card (grown.2.symm.trans (unchanged rfl))
        simp at this
    | placed first' chain near =>
      obtain rfl := first.unique first'
      exact chain.crosses first.inRing t (Nat.le_of_lt before) (by omega) barrier
  · rintro settled rfl
    cases insertion with
    | full occupied => rfl
    | @stuck e j _ t k first chain far barrier =>
      by_cases moved : t = e
      · subst moved
        rw [chain.eq_of_eq rfl]
      · have less := Nat.lt_of_le_of_ne chain.le moved
        refine absurd ⟨e, j, t, first, chain.crosses first.inRing e (Nat.le_refl e) less, far, less, ?_⟩ settled
        intro g s pos sum k' y d cell
        rw [← chain.untouched first.inRing s (by omega)] at cell
        exact barrier g s pos sum k' y d cell

theorem entries_mono {r : Bool} (insertion : Insertion K T h x r T') : entries T ≤ entries T' := by
  cases r with
  | true => rw [insertion.entries_true]; exact Multiset.le_cons_self _ _
  | false =>
    rcases insertion.entries_false with rfl | ⟨e, _, same⟩
    · exact le_rfl
    · rw [same]; exact Multiset.le_cons_self _ _

/-- A failed insertion neither adds nor loses a member. -/
theorem mem_false (insertion : Insertion K T h x false T') (e : ZMod N × κ) :
    e ∈ entries T' ↔ e ∈ entries T := by
  rcases insertion.entries_false with rfl | ⟨f, member, same⟩
  · rfl
  · rw [same, Multiset.mem_cons]
    constructor
    · rintro (rfl | stored)
      · exact member
      · exact stored
    · exact Or.inr

end Insertion

end RingTable
