import WormholeFilters.Cursors
import WormholeFilters.DirectIo

/-! include/leveldb/iterator.h and table/iterator.cc. The wrappers of
table/iterator_wrapper.h keep a copy of `Valid()` and `key()` that every call renews, so
they are the iterators themselves here. -/
namespace WormholeFilters.LevelDb

open LittleEndian
open Env (Status)
open Cursors (Call Iter)

variable {σ : Type}

/-- The methods of an iterator whose state is a `σ`. `key` and `value` are asked only where it is valid. -/
structure Iterator (σ : Type) where
  valid : σ → Bool
  key : σ → List Byte
  value : σ → List Byte
  status : σ → Status
  call : Call (List Byte) → σ → σ

namespace Iterator

def iter (it : Iterator σ) : Iter σ (List Byte) (List Byte) where
  valid := it.valid
  key := it.key
  value := it.value
  ok s := it.status s = .ok
  call := it.call

@[simp] theorem iter_valid (it : Iterator σ) : it.iter.valid = it.valid := rfl

@[simp] theorem iter_key (it : Iterator σ) : it.iter.key = it.key := rfl

@[simp] theorem iter_value (it : Iterator σ) : it.iter.value = it.value := rfl

@[simp] theorem iter_call (it : Iterator σ) : it.iter.call = it.call := rfl

@[simp] theorem iter_ok (it : Iterator σ) (s : σ) : it.iter.ok s = true ↔ it.status s = .ok := decide_eq_true_iff

/-- Either an iterator or an `EmptyIterator` with its status. -/
def orEmpty (it : Iterator σ) : Iterator (Except Status σ) where
  valid
    | .ok s => it.valid s
    | .error _ => false
  key
    | .ok s => it.key s
    | .error _ => []
  value
    | .ok s => it.value s
    | .error _ => []
  status
    | .ok s => it.status s
    | .error status => status
  call
    | c, .ok s => .ok (it.call c s)
    | _, .error status => .error status

def Present (pos : σ → Nat → Prop) : Except Status σ → Nat → Prop
  | .ok s, i => pos s i
  | .error _, _ => False

theorem simulates_orEmpty {it : Iterator σ} {cmp : List Byte → List Byte → Ordering}
    {entries : List (List Byte × List Byte)} {pos : σ → Nat → Prop} (sim : Cursors.Simulates it.iter cmp entries pos) :
    Cursors.Simulates it.orEmpty.iter cmp entries (Present pos) where
  le {s i} present := by
    cases s with
    | ok s => exact sim.le present
    | error => exact present.elim
  shown {s i} present := by
    cases s with
    | ok s => exact sim.shown present
    | error => exact present.elim
  ok {s i} present := by
    cases s with
    | ok s => exact sim.ok present
    | error => exact present.elim
  step {s i} c present allowed := by
    cases s with
    | ok s => exact sim.step c present allowed
    | error => exact present.elim

/-- One of several iterators, with the one that it is. -/
def sigma {ι : Type} {τ : ι → Type} (its : (i : ι) → Iterator (τ i)) : Iterator (Σ i, τ i) where
  valid s := (its s.1).valid s.2
  key s := (its s.1).key s.2
  value s := (its s.1).value s.2
  status s := (its s.1).status s.2
  call c s := ⟨s.1, (its s.1).call c s.2⟩

def Is {ι : Type} {τ : ι → Type} (i : ι) (pos : τ i → Nat → Prop) (x : Σ i, τ i) (p : Nat) : Prop :=
  ∃ s, x = ⟨i, s⟩ ∧ pos s p

theorem simulates_sigma {ι : Type} {τ : ι → Type} {its : (i : ι) → Iterator (τ i)} {i : ι}
    {cmp : List Byte → List Byte → Ordering} {entries : List (List Byte × List Byte)} {pos : τ i → Nat → Prop}
    (sim : Cursors.Simulates (its i).iter cmp entries pos) :
    Cursors.Simulates (sigma its).iter cmp entries (Is i pos) where
  le {x p} is := by
    obtain ⟨s, rfl, here⟩ := is
    exact sim.le here
  shown {x p} is := by
    obtain ⟨s, rfl, here⟩ := is
    exact sim.shown here
  ok {x p} is := by
    obtain ⟨s, rfl, here⟩ := is
    exact sim.ok here
  step {x p} c is allowed := by
    obtain ⟨s, rfl, here⟩ := is
    exact ⟨_, rfl, sim.step c here allowed⟩

end Iterator

/-- `NewEmptyIterator` and `NewErrorIterator`; the state is the status. -/
def emptyIterator : Iterator Status where
  valid _ := false
  key _ := []
  value _ := []
  status s := s
  call _ s := s

theorem emptyIterator_simulates (cmp : List Byte → List Byte → Ordering) :
    Cursors.Simulates emptyIterator.iter cmp [] fun s i => s = .ok ∧ i = 0 where
  le here := Nat.le_of_eq here.2
  shown _ := rfl
  ok here := decide_eq_true here.1
  step {s i} c here allowed := by
    refine ⟨here.1, ?_⟩
    cases c with
    | next | prev => exact absurd allowed (Nat.not_lt_zero i)
    | _ => rfl

end WormholeFilters.LevelDb
