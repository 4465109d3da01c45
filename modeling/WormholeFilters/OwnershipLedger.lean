import Mathlib.Data.List.Nodup
import Mathlib.Logic.Function.Basic

/-! A ledger of resources with owners. A resource is given to an owner, passed from one
owner to another, and released in the way it was marked with. Passing to an owner that
still holds something overwrites it: what it held is then neither held nor released. -/
namespace Ownership

structure Ledger (ι ρ κ : Type) where
  held : ι → Option (ρ × κ)
  given : List (ρ × κ)
  released : List (ρ × κ)

inductive Event (ι ρ κ : Type) where
  | give (i : ι) (r : ρ) (k : κ)
  | pass (i j : ι)
  | release (i : ι)

namespace Ledger

variable {ι ρ κ : Type} [DecidableEq ι] {L : Ledger ι ρ κ}

def apply (L : Ledger ι ρ κ) : Event ι ρ κ → Ledger ι ρ κ
  | .give i r k => ⟨Function.update L.held i (some (r, k)), L.given ++ [(r, k)], L.released⟩
  | .pass i j => { L with held := Function.update (Function.update L.held j (L.held i)) i none }
  | .release i => { L with
      held := Function.update L.held i none
      released := L.released ++ (L.held i).toList }

/-- A resource is given once, and passed to another owner. -/
def Fresh (L : Ledger ι ρ κ) : Event ι ρ κ → Prop
  | .give _ r _ => r ∉ L.given.map Prod.fst
  | .pass i j => i ≠ j
  | .release _ => True

def Vacant (L : Ledger ι ρ κ) : Event ι ρ κ → Prop
  | .give i _ _ => L.held i = none
  | .pass _ j => L.held j = none
  | .release _ => True

def run (L : Ledger ι ρ κ) (events : List (Event ι ρ κ)) : Ledger ι ρ κ := events.foldl apply L

def Along (P : Ledger ι ρ κ → Event ι ρ κ → Prop) : Ledger ι ρ κ → List (Event ι ρ κ) → Prop
  | _, [] => True
  | L, event :: events => P L event ∧ Along P (L.apply event) events

/-- No resource has two owners, is released twice, or is held after its release. -/
structure Safe (L : Ledger ι ρ κ) : Prop where
  distinct : (L.given.map Prod.fst).Nodup
  known : ∀ {i x}, L.held i = some x → x ∈ L.given
  single : ∀ {i j x}, L.held i = some x → L.held j = some x → i = j
  once : L.released.Nodup
  settled : ∀ {x}, x ∈ L.released → x ∈ L.given
  apart : ∀ {i x}, L.held i = some x → x ∉ L.released

/-- No resource is lost: each is held or was released. -/
def Complete (L : Ledger ι ρ κ) : Prop := ∀ x ∈ L.given, (∃ i, L.held i = some x) ∨ x ∈ L.released

omit [DecidableEq ι] in
theorem Safe.eq_of_fst (safe : Safe L) {x y : ρ × κ} (left : x ∈ L.given) (right : y ∈ L.given)
    (same : x.1 = y.1) : x = y :=
  List.inj_on_of_nodup_map safe.distinct left right same

private theorem held_give {i j : ι} {r : ρ} {k : κ} {x : ρ × κ}
    (held : (L.apply (.give i r k)).held j = some x) :
    (j = i ∧ x = (r, k)) ∨ (j ≠ i ∧ L.held j = some x) := by
  by_cases same : j = i
  · subst same
    exact Or.inl ⟨rfl, by simpa [apply, eq_comm] using held⟩
  · exact Or.inr ⟨same, by simpa [apply, same] using held⟩

private theorem held_pass {i j k : ι} {x : ρ × κ} (held : (L.apply (.pass i j)).held k = some x) :
    ∃ k', L.held k' = some x ∧ (k = if k' = i then j else k') ∧ (k' = j → i = j) := by
  by_cases source : k = i
  · subst source
    simp [apply] at held
  · by_cases target : k = j
    · subst target
      exact ⟨i, by simpa [apply, source] using held, by simp, id⟩
    · exact ⟨k, by simpa [apply, source, target] using held, by simp [source], fun same => absurd same target⟩

private theorem held_release {i j : ι} {x : ρ × κ} (held : (L.apply (.release i)).held j = some x) :
    j ≠ i ∧ L.held j = some x := by
  by_cases same : j = i
  · subst same
    simp [apply] at held
  · exact ⟨same, by simpa [apply, same] using held⟩

theorem Safe.give (safe : Safe L) {i : ι} {r : ρ} {k : κ} (fresh : L.Fresh (.give i r k)) :
    Safe (L.apply (.give i r k)) := by
  have new : (r, k) ∉ L.given := fun member => fresh (List.mem_map_of_mem member)
  refine ⟨?_, fun held => ?_, fun left right => ?_, safe.once, fun member => ?_, fun held => ?_⟩
  · simp only [apply, List.map_append, List.map_cons, List.map_nil]
    exact List.Nodup.append safe.distinct (List.nodup_singleton _) (by simpa [Fresh] using fresh)
  · rcases held_give held with ⟨-, rfl⟩ | ⟨-, held⟩
    · exact List.mem_append_right _ (List.mem_singleton.mpr rfl)
    · exact List.mem_append_left _ (safe.known held)
  · rcases held_give left with ⟨rfl, rfl⟩ | ⟨-, left⟩
    · rcases held_give right with ⟨rfl, -⟩ | ⟨-, right⟩
      · rfl
      · exact absurd (safe.known right) new
    · rcases held_give right with ⟨-, rfl⟩ | ⟨-, right⟩
      · exact absurd (safe.known left) new
      · exact safe.single left right
  · exact List.mem_append_left _ (safe.settled member)
  · rcases held_give held with ⟨-, rfl⟩ | ⟨-, held⟩
    · exact fun member => new (safe.settled member)
    · exact safe.apart held

theorem Safe.pass (safe : Safe L) {i j : ι} : Safe (L.apply (.pass i j)) := by
  refine ⟨safe.distinct, fun held => ?_, fun left right => ?_, safe.once, safe.settled, fun held => ?_⟩
  · obtain ⟨_, before, _⟩ := held_pass held
    exact safe.known before
  · obtain ⟨_, before, rfl, _⟩ := held_pass left
    obtain ⟨_, before', rfl, _⟩ := held_pass right
    rw [safe.single before before']
  · obtain ⟨_, before, _⟩ := held_pass held
    exact safe.apart before

theorem Safe.release (safe : Safe L) {i : ι} : Safe (L.apply (.release i)) := by
  have member_iff : ∀ x, x ∈ (L.apply (.release i)).released ↔ x ∈ L.released ∨ L.held i = some x := by
    intro x
    simp [apply]
  refine ⟨safe.distinct, fun held => safe.known (held_release held).2,
    fun left right => safe.single (held_release left).2 (held_release right).2, ?_, fun member => ?_,
    fun held member => ?_⟩
  · cases held : L.held i with
    | none => simpa [apply, held] using safe.once
    | some x =>
      simp only [apply, held, Option.toList_some]
      exact List.Nodup.append safe.once (List.nodup_singleton x) (by simpa using safe.apart held)
  · rcases (member_iff _).mp member with earlier | held
    · exact safe.settled earlier
    · exact safe.known held
  · obtain ⟨other, held⟩ := held_release held
    rcases (member_iff _).mp member with earlier | same
    · exact safe.apart held earlier
    · exact other (safe.single held same)

theorem Safe.apply (safe : Safe L) {event : Event ι ρ κ} (fresh : L.Fresh event) : Safe (L.apply event) := by
  cases event with
  | give i r k => exact safe.give fresh
  | pass i j => exact safe.pass
  | release i => exact safe.release

theorem Complete.apply (complete : Complete L) {event : Event ι ρ κ} (fresh : L.Fresh event)
    (vacant : L.Vacant event) : Complete (L.apply event) := by
  intro x member
  cases event with
  | give i r k =>
    rcases List.mem_append.mp member with earlier | new
    · rcases complete x earlier with ⟨j, held⟩ | released
      · have other : j ≠ i := by
          rintro rfl
          rw [show L.held j = none from vacant] at held
          contradiction
        exact Or.inl ⟨j, by simpa [Ledger.apply, other] using held⟩
      · exact Or.inr released
    · obtain rfl := List.mem_singleton.mp new
      exact Or.inl ⟨i, by simp [Ledger.apply]⟩
  | pass i j =>
    have apart : j ≠ i := Ne.symm fresh
    rcases complete x member with ⟨k, held⟩ | released
    · by_cases source : k = i
      · subst source
        exact Or.inl ⟨j, by simpa [Ledger.apply, apart] using held⟩
      · have other : k ≠ j := by
          rintro rfl
          rw [show L.held k = none from vacant] at held
          contradiction
        exact Or.inl ⟨k, by simpa [Ledger.apply, source, other] using held⟩
    · exact Or.inr released
  | release i =>
    rcases complete x member with ⟨j, held⟩ | released
    · by_cases same : j = i
      · subst same
        exact Or.inr (by simp [Ledger.apply, held])
      · exact Or.inl ⟨j, by simpa [Ledger.apply, same] using held⟩
    · exact Or.inr (by simp [Ledger.apply, released])

theorem Safe.run (safe : Safe L) {events : List (Event ι ρ κ)} (fresh : Along Fresh L events) :
    Safe (L.run events) := by
  induction events generalizing L with
  | nil => exact safe
  | cons event events ih => exact ih (safe.apply fresh.1) fresh.2

theorem Complete.run (complete : Complete L) {events : List (Event ι ρ κ)} (fresh : Along Fresh L events)
    (vacant : Along Vacant L events) : Complete (L.run events) := by
  induction events generalizing L with
  | nil => exact complete
  | cons event events ih => exact ih (complete.apply fresh.1 vacant.1) fresh.2 vacant.2

/-- Passing to an owner that holds something loses it. -/
theorem Safe.lost (safe : Safe L) {i j : ι} {x : ρ × κ} (fresh : L.Fresh (.pass i j)) (full : L.held j = some x) :
    ¬ Complete (L.apply (.pass i j)) := by
  intro complete
  rcases complete x (safe.known full) with ⟨k, held⟩ | released
  · obtain ⟨k', before, _, moved⟩ := held_pass held
    exact fresh (moved (safe.single before full))
  · exact safe.apart full released

end Ledger

end Ownership
