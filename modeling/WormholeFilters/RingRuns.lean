import WormholeFilters.RingPlacement

/-! Insertions one after another. A state represents a ring table, and a call on it
carries out an insertion of its argument's item; what a list of such calls returns
and stores follows from the single insertions. -/
namespace RingTable

def callAll (f : σ → β → Bool × σ) : List β → σ → List Bool × σ
  | [], s => ([], s)
  | b :: bs, s =>
    let (r, s) := f s b
    let (rs, s) := callAll f bs s
    (r :: rs, s)

theorem callAll_cons (f : σ → β → Bool × σ) (b : β) (bs : List β) (s : σ) :
    callAll f (b :: bs) s = ((f s b).1 :: (callAll f bs (f s b).2).1, (callAll f bs (f s b).2).2) := rfl

theorem callAll_append (f : σ → β → Bool × σ) (as bs : List β) (s : σ) :
    callAll f (as ++ bs) s =
      ((callAll f as s).1 ++ (callAll f bs (callAll f as s).2).1, (callAll f bs (callAll f as s).2).2) := by
  induction as generalizing s with
  | nil => rfl
  | cons a as ih => rw [List.cons_append, callAll_cons, ih, callAll_cons]; rfl

@[simp] theorem length_callAll (f : σ → β → Bool × σ) (bs : List β) (s : σ) :
    (callAll f bs s).1.length = bs.length := by
  induction bs generalizing s with
  | nil => rfl
  | cons b bs ih => rw [callAll_cons, List.length_cons, ih, List.length_cons]

/-- Calls that return the same and keep a relation do so in sequence. -/
theorem callAll_related {f : σ → β → Bool × σ} {f' : τ → β → Bool × τ} {R : σ → τ → Prop}
    (each : ∀ {s t} b, R s t → (f s b).1 = (f' t b).1 ∧ R (f s b).2 (f' t b).2) (bs : List β)
    {s : σ} {t : τ} (related : R s t) :
    (callAll f bs s).1 = (callAll f' bs t).1 ∧ R (callAll f bs s).2 (callAll f' bs t).2 := by
  induction bs generalizing s t with
  | nil => exact ⟨rfl, related⟩
  | cons b bs ih =>
    obtain ⟨result, related⟩ := each b related
    obtain ⟨results, related⟩ := ih related
    rw [callAll_cons, callAll_cons, result, results]
    exact ⟨rfl, related⟩

/-- A map between states that commutes with every call commutes with all of them. -/
theorem callAll_map {f : σ → β → Bool × σ} {f' : τ → β → Bool × τ} {g : σ → τ}
    (each : ∀ s b, f' (g s) b = ((f s b).1, g (f s b).2)) (bs : List β) (s : σ) :
    callAll f' bs (g s) = ((callAll f bs s).1, g (callAll f bs s).2) := by
  induction bs generalizing s with
  | nil => rfl
  | cons b bs ih => rw [callAll_cons, each, ih, callAll_cons]

/-- The order of the homes does not matter. -/
theorem assignable_perm {S K N : Nat} [NeZero N] {homes homes' : List Nat} (perm : homes.Perm homes') :
    Assignable S K N homes ↔ Assignable S K N homes' := by
  rw [← placeable_iff_assignable, ← placeable_iff_assignable, Multiset.coe_eq_coe.mpr (perm.map _)]

variable {N S : Nat} {σ β κ : Type} {K : Nat}

/-- Calls of `f` insert the item of their argument into the represented table. -/
structure Inserter (K : Nat) (tableOf : σ → Table N S κ) (Ok : σ → Prop) (item : β → ZMod N × κ)
    (f : σ → β → Bool × σ) : Prop where
  ok : ∀ {s} b, Ok s → Ok (f s b).2
  insertion : ∀ {s} b, Ok s →
    Insertion K (tableOf s) (item b).1 (item b).2 (f s b).1 (tableOf (f s b).2)

namespace Inserter

variable {tableOf : σ → Table N S κ} {Ok : σ → Prop} {item : β → ZMod N × κ} {f : σ → β → Bool × σ} {s : σ}

theorem comap (inserter : Inserter K tableOf Ok item f) (g : γ → β) :
    Inserter K tableOf Ok (fun c => item (g c)) (fun s c => f s (g c)) :=
  ⟨fun c => inserter.ok (g c), fun c => inserter.insertion (g c)⟩

theorem callAll_ok (inserter : Inserter K tableOf Ok item f) (bs : List β) (ok : Ok s) :
    Ok (callAll f bs s).2 := by
  induction bs generalizing s with
  | nil => exact ok
  | cons b bs ih => exact ih (inserter.ok b ok)

/-- Whatever every insertion preserves holds after all of them. -/
theorem callAll_invariant (inserter : Inserter K tableOf Ok item f) {P : Table N S κ → Prop}
    (step : ∀ {T T' h x r}, Insertion K T h x r T' → P T → P T') (bs : List β) (ok : Ok s)
    (start : P (tableOf s)) : P (tableOf (callAll f bs s).2) := by
  induction bs generalizing s with
  | nil => exact start
  | cons b bs ih => exact ih (inserter.ok b ok) (step (inserter.insertion b ok) start)

variable [NeZero N]

theorem entries_le_callAll (inserter : Inserter K tableOf Ok item f) (bs : List β) (ok : Ok s) :
    entries (tableOf s) ≤ entries (tableOf (callAll f bs s).2) :=
  inserter.callAll_invariant (P := fun T => entries (tableOf s) ≤ entries T)
    (fun insertion le => le.trans insertion.entries_mono) bs ok le_rfl

theorem homes_le_callAll (inserter : Inserter K tableOf Ok item f) (bs : List β) (ok : Ok s) :
    homes (tableOf s) ≤ homes (tableOf (callAll f bs s).2) :=
  Multiset.map_le_map (inserter.entries_le_callAll bs ok)

/-- Exactly the items of the calls that returned true are added. -/
theorem mem_callAll (inserter : Inserter K tableOf Ok item f) (bs : List β) (ok : Ok s)
    (p : ZMod N × κ) : p ∈ entries (tableOf (callAll f bs s).2) ↔
      p ∈ entries (tableOf s) ∨ ∃ i : Nat, (callAll f bs s).1[i]? = some true ∧ bs[i]?.map item = some p := by
  induction bs generalizing s with
  | nil => simp [callAll]
  | cons b bs ih =>
    have insertion := inserter.insertion b ok
    have first : p ∈ entries (tableOf (f s b).2) ↔
        p ∈ entries (tableOf s) ∨ ((f s b).1 = true ∧ item b = p) := by
      cases result : (f s b).1 with
      | true =>
        rw [result] at insertion
        rw [insertion.entries_true, Multiset.mem_cons, or_comm]
        simp [eq_comm]
      | false =>
        rw [result] at insertion
        rw [insertion.mem_false]
        simp
    rw [callAll_cons, ih (inserter.ok b ok), first, or_assoc]
    refine or_congr_right ⟨?_, ?_⟩
    · rintro (⟨inserted, same⟩ | ⟨i, inserted, same⟩)
      · exact ⟨0, by simpa using inserted, by simpa using same⟩
      · exact ⟨i + 1, by simpa using inserted, by simpa using same⟩
    · rintro ⟨i, inserted, same⟩
      cases i with
      | zero => exact Or.inl ⟨by simpa using inserted, by simpa using same⟩
      | succ i => exact Or.inr ⟨i, by simpa using inserted, by simpa using same⟩

theorem mem_of_all_true (inserter : Inserter K tableOf Ok item f) (bs : List β) (ok : Ok s)
    (inserted : ∀ r ∈ (callAll f bs s).1, r = true) {b : β} (member : b ∈ bs) :
    item b ∈ entries (tableOf (callAll f bs s).2) := by
  obtain ⟨i, inside, rfl⟩ := List.getElem_of_mem member
  have inside' : i < (callAll f bs s).1.length := by rwa [length_callAll]
  rw [inserter.mem_callAll bs ok]
  refine Or.inr ⟨i, ?_, by rw [List.getElem?_eq_getElem inside, Option.map_some]⟩
  rw [List.getElem?_eq_getElem inside', inserted _ (List.getElem_mem inside')]

/-- Items that differ from each other cannot stand in for one another. -/
theorem all_true_of_mem (inserter : Inserter K tableOf Ok item f) (bs : List β) (ok : Ok s)
    (empty : entries (tableOf s) = 0) (distinct : (bs.map item).Nodup)
    (stored : ∀ b ∈ bs, item b ∈ entries (tableOf (callAll f bs s).2)) :
    ∀ r ∈ (callAll f bs s).1, r = true := by
  intro r member
  obtain ⟨i, inside, rfl⟩ := List.getElem_of_mem member
  have inside' : i < bs.length := by rwa [length_callAll] at inside
  have final := stored bs[i] (List.getElem_mem inside')
  rw [inserter.mem_callAll bs ok, empty] at final
  rcases final with absent | ⟨j, inserted, same⟩
  · simp at absent
  · have position : i = j := by
      refine (List.getElem?_inj (by rwa [List.length_map]) distinct).mp ?_
      rw [List.getElem?_map, List.getElem?_map, same, List.getElem?_eq_getElem inside', Option.map_some]
    subst position
    rw [List.getElem?_eq_getElem inside] at inserted
    exact Option.some.inj inserted

theorem homes_of_all_true (inserter : Inserter K tableOf Ok item f) (bs : List β) (ok : Ok s)
    (inserted : ∀ r ∈ (callAll f bs s).1, r = true) :
    homes (tableOf (callAll f bs s).2) =
      ((bs.map fun b => (item b).1 : List (ZMod N)) : Multiset (ZMod N)) + homes (tableOf s) := by
  induction bs generalizing s with
  | nil => simp [callAll]
  | cons b bs ih =>
    rw [callAll_cons] at inserted ⊢
    have insertion := inserter.insertion b ok
    rw [inserted _ List.mem_cons_self] at insertion
    rw [ih (inserter.ok b ok) fun r member => inserted r (List.mem_cons_of_mem _ member),
      insertion.homes_true, List.map_cons, ← Multiset.cons_coe, Multiset.cons_add, Multiset.add_cons]

/-- No call fails exactly when the homes of the list fit beside those stored. -/
theorem all_true_iff (inserter : Inserter K tableOf Ok item f) (bs : List β) (ok : Ok s)
    (packed : Packed (tableOf s)) (bounded : Bounded K (tableOf s)) :
    (∀ r ∈ (callAll f bs s).1, r = true) ↔
      Placeable S K (((bs.map fun b => (item b).1 : List (ZMod N)) : Multiset (ZMod N)) + homes (tableOf s)) := by
  constructor
  · intro inserted
    rw [← inserter.homes_of_all_true bs ok inserted]
    exact homes_placeable
      (inserter.callAll_invariant (fun insertion => insertion.bounded) bs ok bounded)
  · intro placeable
    induction bs generalizing s with
    | nil => simp [callAll]
    | cons b bs ih =>
      have insertion := inserter.insertion b ok
      rw [List.map_cons, ← Multiset.cons_coe, Multiset.cons_add] at placeable
      have result : (f s b).1 = true := (insertion.succeeds_iff packed bounded).mpr
        (placeable.mono (Multiset.cons_le_cons _ (Multiset.le_add_left _ _)))
      rw [callAll_cons]
      intro r member
      rcases List.mem_cons.mp member with rfl | member
      · exact result
      · refine ih (inserter.ok b ok) (insertion.packed packed) (insertion.bounded bounded) ?_ r member
        rw [result] at insertion
        rwa [insertion.homes_true, Multiset.add_cons]

/-- From the empty table no call fails exactly when the list's homes can be assigned. -/
theorem all_true_iff_assignable (inserter : Inserter K tableOf Ok item f) {home : β → Nat}
    (homed : ∀ b, (item b).1 = (home b : ZMod N)) (ok : Ok s) (empty : tableOf s = fun _ => none)
    (bs : List β) : (∀ r ∈ (callAll f bs s).1, r = true) ↔ Assignable S K N (bs.map home) := by
  have none_ : homes (tableOf s) = 0 := by rw [homes, entries_eq_zero.mpr (congrFun empty), Multiset.map_zero]
  rw [inserter.all_true_iff bs ok (empty ▸ packed_none) (empty ▸ bounded_none), none_, add_zero,
    ← placeable_iff_assignable,
    List.map_map]
  simp only [homed, Function.comp_def]

/-- A home without room stays without room, so its items are never stored. -/
theorem not_mem_callAll (inserter : Inserter K tableOf Ok item f) (bs : List β) (ok : Ok s)
    (packed : Packed (tableOf s)) (bounded : Bounded K (tableOf s)) {p : ZMod N × κ}
    (absent : p ∉ entries (tableOf s)) (crowded : ¬ Placeable S K (p.1 ::ₘ homes (tableOf s))) :
    p ∉ entries (tableOf (callAll f bs s).2) := by
  induction bs generalizing s with
  | nil => exact absent
  | cons b bs ih =>
    have insertion := inserter.insertion b ok
    refine ih (inserter.ok b ok) (insertion.packed packed) (insertion.bounded bounded) ?_ fun placeable =>
      crowded (placeable.mono (Multiset.cons_le_cons _ (Multiset.map_le_map insertion.entries_mono)))
    cases result : (f s b).1 with
    | false =>
      rw [result] at insertion
      rwa [insertion.mem_false]
    | true =>
      have room := (insertion.succeeds_iff packed bounded).mp result
      rw [result] at insertion
      rw [insertion.entries_true, Multiset.mem_cons]
      rintro (same | stored)
      · exact crowded (by rw [same]; exact room)
      · exact absent stored

/-- Room for a home now means that it never lacked room before. -/
theorem all_true_of_room (inserter : Inserter K tableOf Ok item f) {h : ZMod N} (bs : List β) (ok : Ok s)
    (packed : Packed (tableOf s)) (bounded : Bounded K (tableOf s)) (same : ∀ b ∈ bs, (item b).1 = h)
    (room : Placeable S K (h ::ₘ homes (tableOf (callAll f bs s).2))) :
    ∀ r ∈ (callAll f bs s).1, r = true := by
  induction bs generalizing s with
  | nil => simp [callAll]
  | cons b bs ih =>
    have insertion := inserter.insertion b ok
    rw [callAll_cons] at room ⊢
    intro r member
    rcases List.mem_cons.mp member with rfl | member
    · refine (insertion.succeeds_iff packed bounded).mpr (room.mono ?_)
      rw [same b List.mem_cons_self]
      exact Multiset.cons_le_cons _ (inserter.homes_le_callAll (b :: bs) ok)
    · exact ih (inserter.ok b ok) (insertion.packed packed) (insertion.bounded bounded)
        (fun c later => same c (List.mem_cons_of_mem b later)) room r member

/-- All items end up stored exactly when each, at its turn, is stored already or has room. -/
theorem all_stored_iff (inserter : Inserter K tableOf Ok item f) (bs : List β) (ok : Ok s)
    (packed : Packed (tableOf s)) (bounded : Bounded K (tableOf s)) :
    (∀ b ∈ bs, item b ∈ entries (tableOf (callAll f bs s).2)) ↔
      ∀ earlier b later, bs = earlier ++ b :: later →
        item b ∈ entries (tableOf (callAll f earlier s).2) ∨
        Placeable S K ((item b).1 ::ₘ homes (tableOf (callAll f earlier s).2)) := by
  have reached : ∀ earlier b later, bs = earlier ++ b :: later →
      (callAll f bs s).2 = (callAll f later (f (callAll f earlier s).2 b).2).2 := by
    rintro earlier b later rfl
    rw [callAll_append, callAll_cons]
  constructor
  · intro stored earlier b later split
    have member : b ∈ bs := by simp [split]
    have final := stored b member
    by_contra missing
    obtain ⟨absent, crowded⟩ := not_or.mp missing
    rw [split, callAll_append] at final
    exact inserter.not_mem_callAll (b :: later) (inserter.callAll_ok earlier ok)
      (inserter.callAll_invariant (fun insertion => insertion.packed) earlier ok packed)
      (inserter.callAll_invariant (fun insertion => insertion.bounded) earlier ok bounded)
      absent crowded final
  · intro turn b member
    obtain ⟨earlier, later, split⟩ := List.append_of_mem member
    have ok' := inserter.callAll_ok earlier ok
    have insertion := inserter.insertion b ok'
    rw [reached earlier b later split]
    refine Multiset.mem_of_le (inserter.entries_le_callAll later (inserter.ok b ok')) ?_
    rcases turn earlier b later split with stored | room
    · exact Multiset.mem_of_le insertion.entries_mono stored
    · have result := (insertion.succeeds_iff
        (inserter.callAll_invariant (fun insertion => insertion.packed) earlier ok packed)
        (inserter.callAll_invariant (fun insertion => insertion.bounded) earlier ok bounded)).mpr room
      rw [result] at insertion
      rw [insertion.entries_true]
      exact Multiset.mem_cons_self _ _

end Inserter

end RingTable
