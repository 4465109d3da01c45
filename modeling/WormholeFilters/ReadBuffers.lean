import WormholeFilters.OwnershipLedger

/-! Ownership of the buffers behind `ReadBuffer`. Objects are constructed, moved, given
pointers and destroyed in any order; the heap ledger notes which pointers were given and
which were freed, and how. -/
namespace WormholeFilters.ReadBuffers

open Ownership

inductive Routine where
  | free
  | freeAlignedBuffer
  deriving DecidableEq, Repr

def routine (aligned : Bool) : Routine := if !aligned then .free else .freeAlignedBuffer

structure ReadBuffer where
  ptr : Option Nat
  aligned : Bool
  pageAligned : Bool
  deriving DecidableEq, Repr

def freePtr (b : ReadBuffer) : ReadBuffer × List (Nat × Routine) :=
  match b.ptr with
  | none => (b, [])
  | some p => ({ b with ptr := none }, [(p, routine b.aligned)])

/-- The live objects, the pointers given with their `aligned` flags, and the pointers freed. -/
structure Heap where
  objects : Nat → Option ReadBuffer
  given : List (Nat × Bool)
  freed : List (Nat × Routine)

def empty : Heap := ⟨fun _ => none, [], []⟩

inductive Op where
  | construct (o : Nat) (pageAligned : Bool)
  | constructPtr (o : Nat) (ptr : Option Nat) (aligned : Bool)
  | setPtr (o : Nat) (ptr : Option Nat) (aligned : Bool)
  | moveConstruct (o buffer : Nat)
  | moveAssign (o buffer : Nat)
  | destroy (o : Nat)
  deriving DecidableEq, Repr

/-- The common body of the move constructor and the move assignment. -/
def moveFrom (h : Heap) (o buffer : Nat) : Heap :=
  if o = buffer then h
  else match h.objects buffer with
    | none => h
    | some b => { h with
        objects := Function.update (Function.update h.objects o (some b)) buffer (some { b with ptr := none }) }

def apply (h : Heap) : Op → Heap
  | .construct o pageAligned => { h with objects := Function.update h.objects o (some ⟨none, false, pageAligned⟩) }
  | .constructPtr o ptr aligned => { h with
      objects := Function.update h.objects o (some ⟨ptr, aligned, false⟩)
      given := h.given ++ ptr.toList.map (·, aligned) }
  | .setPtr o ptr aligned =>
    match h.objects o with
    | none => h
    | some b =>
      let (b, calls) := freePtr b
      ⟨Function.update h.objects o (some { b with ptr := ptr, aligned := aligned }),
        h.given ++ ptr.toList.map (·, aligned), h.freed ++ calls⟩
  | .moveConstruct o buffer => moveFrom h o buffer
  | .moveAssign o buffer => moveFrom h o buffer
  | .destroy o =>
    match h.objects o with
    | none => h
    | some b => { h with objects := Function.update h.objects o none, freed := h.freed ++ (freePtr b).2 }

/-- Objects are constructed where none is live and used while they are; a pointer that is
not null is given once. -/
def Enabled (h : Heap) : Op → Prop
  | .construct o _ => h.objects o = none
  | .constructPtr o ptr _ => h.objects o = none ∧ ∀ p ∈ ptr, p ∉ h.given.map Prod.fst
  | .setPtr o ptr _ => h.objects o ≠ none ∧ ∀ p ∈ ptr, p ∉ h.given.map Prod.fst
  | .moveConstruct o buffer => h.objects o = none ∧ h.objects buffer ≠ none
  | .moveAssign o buffer => h.objects o ≠ none ∧ h.objects buffer ≠ none
  | .destroy o => h.objects o ≠ none

def run (h : Heap) (ops : List Op) : Heap := ops.foldl apply h

def Legal : Heap → List Op → Prop
  | _, [] => True
  | h, op :: ops => Enabled h op ∧ Legal (apply h op) ops

def Holds (h : Heap) (o p : Nat) : Prop := ∃ b, h.objects o = some b ∧ b.ptr = some p

/-- Every pointer given is held by one live object and not freed, or held by none and
freed once by the routine that matches its flag. -/
def Owned (h : Heap) : Prop := ∀ p aligned, (p, aligned) ∈ h.given →
  ((∃ o, Holds h o p ∧ ∀ o', Holds h o' p → o' = o) ∧ p ∉ h.freed.map Prod.fst) ∨
  ((∀ o, ¬ Holds h o p) ∧ (h.freed.map Prod.fst).count p = 1 ∧ (p, routine aligned) ∈ h.freed)

/-- What an object owns: its pointer, marked with the routine to free it. -/
def owns (object : Option ReadBuffer) : Option (Nat × Routine) :=
  object.bind fun b => b.ptr.map (·, routine b.aligned)

def ledger (h : Heap) : Ledger Nat Nat Routine where
  held o := owns (h.objects o)
  given := h.given.map fun g => (g.1, routine g.2)
  released := h.freed

def events : Op → List (Event Nat Nat Routine)
  | .construct _ _ => []
  | .constructPtr o ptr aligned => ptr.toList.map (.give o · (routine aligned))
  | .setPtr o ptr aligned => .release o :: ptr.toList.map (.give o · (routine aligned))
  | .moveConstruct o buffer => [.pass buffer o]
  | .moveAssign o buffer => if o = buffer then [] else [.pass buffer o]
  | .destroy o => [.release o]

@[simp] theorem owns_none : owns none = none := rfl

@[simp] theorem owns_some (b : ReadBuffer) : owns (some b) = b.ptr.map (·, routine b.aligned) := rfl

theorem owns_update (objects : Nat → Option ReadBuffer) (o : Nat) (object : Option ReadBuffer) :
    (fun o' => owns (Function.update objects o object o')) =
      Function.update (fun o' => owns (objects o')) o (owns object) := by
  funext o'
  by_cases same : o' = o
  · subst same
    simp
  · simp [same]

theorem freePtr_calls (b : ReadBuffer) : (freePtr b).2 = (owns (some b)).toList := by
  cases ptr : b.ptr <;> simp [freePtr, ptr]

theorem holds_iff {h : Heap} {o p : Nat} : Holds h o p ↔ ∃ r, (ledger h).held o = some (p, r) := by
  constructor
  · rintro ⟨b, object, ptr⟩
    exact ⟨routine b.aligned, by simp [ledger, object, ptr]⟩
  · rintro ⟨r, held⟩
    obtain ⟨b, object, marked⟩ := Option.bind_eq_some_iff.mp held
    obtain ⟨q, ptr, same⟩ := Option.map_eq_some_iff.mp marked
    obtain ⟨rfl, -⟩ := Prod.mk.inj same
    exact ⟨b, object, ptr⟩

theorem ledger_moveFrom {h : Heap} {o buffer : Nat} (apart : o ≠ buffer) (live : h.objects buffer ≠ none) :
    ledger (moveFrom h o buffer) = (ledger h).apply (.pass buffer o) := by
  obtain ⟨b, object⟩ := Option.ne_none_iff_exists'.mp live
  simp [moveFrom, apart, object, ledger, Ledger.apply, owns_update]

/-- The heap refines the ledger, operation by operation. -/
theorem ledger_apply {h : Heap} {op : Op} (enabled : Enabled h op) :
    ledger (apply h op) = (ledger h).run (events op) := by
  cases op with
  | construct o pageAligned =>
    have dead : h.objects o = none := enabled
    simp [ledger, apply, events, Ledger.run, owns_update, dead]
  | constructPtr o ptr aligned =>
    cases ptr with
    | none => simp [ledger, apply, events, Ledger.run, owns_update, enabled.1]
    | some p => simp [ledger, apply, events, Ledger.run, Ledger.apply, owns_update]
  | setPtr o ptr aligned =>
    obtain ⟨b, object⟩ := Option.ne_none_iff_exists'.mp enabled.1
    cases ptr with
    | none => simp [ledger, apply, events, Ledger.run, Ledger.apply, owns_update, object, freePtr_calls]
    | some p => simp [ledger, apply, events, Ledger.run, Ledger.apply, owns_update, object, freePtr_calls]
  | moveConstruct o buffer =>
    refine ledger_moveFrom ?_ enabled.2
    rintro rfl
    exact enabled.2 enabled.1
  | moveAssign o buffer =>
    by_cases same : o = buffer
    · simp [apply, moveFrom, events, Ledger.run, same]
    · rw [events, if_neg same]
      exact ledger_moveFrom same enabled.2
  | destroy o =>
    obtain ⟨b, object⟩ := Option.ne_none_iff_exists'.mp enabled
    simp [ledger, apply, events, Ledger.run, Ledger.apply, owns_update, object, freePtr_calls]

theorem fst_given (h : Heap) : (ledger h).given.map Prod.fst = h.given.map Prod.fst := by
  simp [ledger, Function.comp_def]

theorem events_fresh {h : Heap} {op : Op} (enabled : Enabled h op) :
    Ledger.Along Ledger.Fresh (ledger h) (events op) := by
  have new : ∀ {p}, p ∉ h.given.map Prod.fst → p ∉ (ledger h).given.map Prod.fst := fun fresh => by rwa [fst_given]
  cases op with
  | construct => trivial
  | constructPtr o ptr aligned =>
    cases ptr with
    | none => trivial
    | some p => exact ⟨new (enabled.2 p rfl), trivial⟩
  | setPtr o ptr aligned =>
    cases ptr with
    | none => exact ⟨trivial, trivial⟩
    | some p => exact ⟨trivial, new (enabled.2 p rfl), trivial⟩
  | moveConstruct o buffer =>
    refine ⟨?_, trivial⟩
    rintro rfl
    exact enabled.2 enabled.1
  | moveAssign o buffer =>
    rw [events]
    split
    · trivial
    · rename_i apart
      exact ⟨Ne.symm apart, trivial⟩
  | destroy => exact ⟨trivial, trivial⟩

/-- A move assignment between two objects finds no pointer in the one it assigns to. -/
def EmptyTarget (h : Heap) : Op → Prop
  | .moveAssign o buffer => o ≠ buffer → ∀ p, ¬ Holds h o p
  | _ => True

theorem held_none_of_not_holds {h : Heap} {o : Nat} (empty : ∀ p, ¬ Holds h o p) : (ledger h).held o = none := by
  by_contra full
  obtain ⟨⟨p, r⟩, held⟩ := Option.ne_none_iff_exists'.mp full
  exact empty p (holds_iff.mpr ⟨r, held⟩)

theorem events_vacant {h : Heap} {op : Op} (enabled : Enabled h op) (target : EmptyTarget h op) :
    Ledger.Along Ledger.Vacant (ledger h) (events op) := by
  have dead : ∀ {o}, h.objects o = none → (ledger h).held o = none := fun none => by simp [ledger, none]
  cases op with
  | construct => trivial
  | constructPtr o ptr aligned =>
    cases ptr with
    | none => trivial
    | some p => exact ⟨dead enabled.1, trivial⟩
  | setPtr o ptr aligned =>
    cases ptr with
    | none => exact ⟨trivial, trivial⟩
    | some p => exact ⟨trivial, by simp [Ledger.Vacant, Ledger.apply], trivial⟩
  | moveConstruct o buffer => exact ⟨dead enabled.1, trivial⟩
  | moveAssign o buffer =>
    rw [events]
    split
    · trivial
    · rename_i apart
      exact ⟨held_none_of_not_holds (target apart), trivial⟩
  | destroy => exact ⟨trivial, trivial⟩

theorem apply_safe {h : Heap} {op : Op} (enabled : Enabled h op) (safe : (ledger h).Safe) :
    (ledger (apply h op)).Safe := by
  rw [ledger_apply enabled]
  exact safe.run (events_fresh enabled)

/-- An operation loses a pointer exactly when it assigns over one. -/
theorem apply_complete_iff {h : Heap} {op : Op} (enabled : Enabled h op) (safe : (ledger h).Safe)
    (complete : (ledger h).Complete) : (ledger (apply h op)).Complete ↔ EmptyTarget h op := by
  rw [ledger_apply enabled]
  constructor
  · intro after
    cases op with
    | moveAssign o buffer =>
      intro apart p holds
      obtain ⟨r, held⟩ := holds_iff.mp holds
      rw [events, if_neg apart] at after
      exact safe.lost (Ne.symm apart) held after
    | _ => trivial
  · intro target
    exact complete.run (events_fresh enabled) (events_vacant enabled target)

theorem owned_iff {h : Heap} (safe : (ledger h).Safe) : Owned h ↔ (ledger h).Complete := by
  have marked : ∀ {p aligned r}, (p, aligned) ∈ h.given → (p, r) ∈ (ledger h).given → r = routine aligned := by
    intro p aligned r given given'
    have same := safe.eq_of_fst given' (List.mem_map_of_mem given) rfl
    exact (Prod.mk.inj same).2
  constructor
  · intro owned x member
    obtain ⟨⟨p, aligned⟩, given, rfl⟩ := List.mem_map.mp member
    rcases owned p aligned given with ⟨⟨o, holds, _⟩, _⟩ | ⟨_, _, freed⟩
    · obtain ⟨r, held⟩ := holds_iff.mp holds
      rw [marked given (safe.known held)] at held
      exact Or.inl ⟨o, held⟩
    · exact Or.inr freed
  · intro complete p aligned given
    have member : (p, routine aligned) ∈ (ledger h).given := List.mem_map_of_mem given
    have holder : ∀ {o}, Holds h o p → (ledger h).held o = some (p, routine aligned) := by
      intro o holds
      obtain ⟨r, held⟩ := holds_iff.mp holds
      rwa [marked given (safe.known held)] at held
    rcases complete _ member with ⟨o, held⟩ | freed
    · refine Or.inl ⟨⟨o, holds_iff.mpr ⟨_, held⟩, fun o' holds => safe.single (holder holds) held⟩, fun freed => ?_⟩
      obtain ⟨⟨q, r⟩, released, rfl⟩ := List.mem_map.mp freed
      rw [marked given (safe.settled released)] at released
      exact safe.apart held released
    · refine Or.inr ⟨fun o holds => safe.apart (holder holds) freed, ?_, freed⟩
      refine List.count_eq_one_of_mem ?_ (List.mem_map_of_mem (f := Prod.fst) freed)
      exact safe.once.map_on fun x left y right same =>
        safe.eq_of_fst (safe.settled left) (safe.settled right) same

theorem safe_empty : (ledger empty).Safe := by
  refine ⟨List.nodup_nil, fun held => ?_, fun held => ?_, List.nodup_nil, fun member => ?_, fun held => ?_⟩
  all_goals simp [ledger, empty] at *

theorem run_safe {h : Heap} {ops : List Op} (legal : Legal h ops) (safe : (ledger h).Safe) :
    (ledger (run h ops)).Safe := by
  induction ops generalizing h with
  | nil => exact safe
  | cons op ops ih => exact ih legal.2 (apply_safe legal.1 safe)

theorem Legal.left {h : Heap} {earlier later : List Op} (legal : Legal h (earlier ++ later)) : Legal h earlier := by
  induction earlier generalizing h with
  | nil => trivial
  | cons op earlier ih => exact ⟨legal.1, ih legal.2⟩

/-- No state of a run has lost a pointer exactly when no step of it assigns over one. -/
theorem run_complete_iff {h : Heap} {ops : List Op} (legal : Legal h ops) (safe : (ledger h).Safe)
    (complete : (ledger h).Complete) :
    (∀ earlier later, ops = earlier ++ later → (ledger (run h earlier)).Complete) ↔
      ∀ earlier op later, ops = earlier ++ op :: later → EmptyTarget (run h earlier) op := by
  induction ops generalizing h with
  | nil =>
    constructor
    · intro _ earlier op later split
      simp at split
    · intro _ earlier later split
      obtain ⟨rfl, -⟩ := List.append_eq_nil_iff.mp split.symm
      exact complete
  | cons op ops ih =>
    have step := apply_complete_iff legal.1 safe complete
    constructor
    · intro all earlier op' later split
      have next := all [op] ops rfl
      cases earlier with
      | nil =>
        obtain ⟨rfl, -⟩ := List.cons.inj split
        exact step.mp next
      | cons first earlier =>
        obtain ⟨rfl, rest⟩ := List.cons.inj split
        exact (ih legal.2 (apply_safe legal.1 safe) next).mp
          (fun earlier later split => all (op :: earlier) later (by rw [split]; rfl)) earlier op' later rest
    · intro targets earlier later split
      cases earlier with
      | nil => exact complete
      | cons first earlier =>
        obtain ⟨rfl, rest⟩ := List.cons.inj split
        exact (ih legal.2 (apply_safe legal.1 safe) (step.mpr (targets [] op ops rfl))).mpr
          (fun earlier op' later split => targets (op :: earlier) op' later (by rw [split]; rfl)) earlier later rest

/-- In a run from the empty heap every pointer has one owner or was freed once, in every
state, exactly when each move assignment between two objects finds its target without a
pointer; once all objects are destroyed every pointer was then freed once. -/
theorem single_ownership_iff {ops : List Op} (legal : Legal empty ops) :
    ((∀ earlier later, ops = earlier ++ later → Owned (run empty earlier)) ↔
      ∀ earlier o buffer later, ops = earlier ++ .moveAssign o buffer :: later → o ≠ buffer →
        ∀ p, ¬ Holds (run empty earlier) o p) ∧
    ((∀ earlier o buffer later, ops = earlier ++ .moveAssign o buffer :: later → o ≠ buffer →
        ∀ p, ¬ Holds (run empty earlier) o p) → (∀ o, (run empty ops).objects o = none) →
      ∀ p aligned, (p, aligned) ∈ (run empty ops).given →
        ((run empty ops).freed.map Prod.fst).count p = 1 ∧ (p, routine aligned) ∈ (run empty ops).freed) := by
  have start : (ledger empty).Complete := by
    intro x member
    simp [ledger, empty] at member
  have owned : ∀ earlier later, ops = earlier ++ later →
      (Owned (run empty earlier) ↔ (ledger (run empty earlier)).Complete) := by
    rintro earlier later rfl
    exact owned_iff (run_safe legal.left safe_empty)
  have targets : (∀ earlier op later, ops = earlier ++ op :: later → EmptyTarget (run empty earlier) op) ↔
      ∀ earlier o buffer later, ops = earlier ++ .moveAssign o buffer :: later → o ≠ buffer →
        ∀ p, ¬ Holds (run empty earlier) o p := by
    constructor
    · intro all earlier o buffer later split
      exact all earlier _ later split
    · intro assigned earlier op later split
      cases op with
      | moveAssign o buffer => exact assigned earlier o buffer later split
      | _ => trivial
  have whole : (∀ earlier later, ops = earlier ++ later → Owned (run empty earlier)) ↔
      ∀ earlier o buffer later, ops = earlier ++ .moveAssign o buffer :: later → o ≠ buffer →
        ∀ p, ¬ Holds (run empty earlier) o p := by
    rw [← targets, ← run_complete_iff legal safe_empty start]
    exact forall_congr' fun earlier => forall_congr' fun later => forall_congr' fun split =>
      owned earlier later split
  refine ⟨whole, fun condition destroyed p aligned given => ?_⟩
  rcases whole.mpr condition ops [] (List.append_nil ops).symm p aligned given
    with ⟨⟨o, ⟨b, live, _⟩, _⟩, _⟩ | ⟨_, freed⟩
  · rw [destroyed o] at live
    contradiction
  · exact freed

/-- A buffer is moved to an object that holds none, and both are destroyed. -/
theorem single_ownership_moved :
    let ops := [.construct 0 false, .constructPtr 1 (some 7) true, .moveAssign 0 1, .destroy 1, .destroy 0]
    ((run empty ops).freed.map Prod.fst).count 7 = 1 ∧ (7, .freeAlignedBuffer) ∈ (run empty ops).freed := by
  intro ops
  have legal : Legal empty ops := by simp [ops, Legal, Enabled, apply, moveFrom, empty]
  refine (single_ownership_iff legal).2 (fun earlier o buffer later split apart p holds => ?_) (fun o => ?_) 7 true
    (by decide)
  · rcases earlier with _ | ⟨first, _ | ⟨second, _ | ⟨third, rest⟩⟩⟩
    · simp [ops] at split
    · simp [ops] at split
    · obtain ⟨rfl, rfl, ⟨rfl, rfl⟩, -⟩ := by simpa [ops] using split
      simp [Holds, run, apply, empty] at holds
    · rcases rest with _ | ⟨fourth, _ | ⟨fifth, rest⟩⟩ <;> simp [ops] at split
  · rcases o with _ | _ | o <;> simp [ops, run, apply, moveFrom, freePtr, empty]

/-- Assigning over a buffer loses it: both objects are destroyed, one pointer is never freed. -/
theorem assigned_over_leaks :
    let ops := [.constructPtr 0 (some 0) false, .constructPtr 1 (some 1) false, .moveAssign 0 1, .destroy 0, .destroy 1]
    Legal empty ops ∧ ¬ Owned (run empty (ops.take 3)) ∧ (∀ o, (run empty ops).objects o = none) ∧
      (0, false) ∈ (run empty ops).given ∧ 0 ∉ (run empty ops).freed.map Prod.fst := by
  intro ops
  refine ⟨by simp [ops, Legal, Enabled, apply, moveFrom, empty], fun owned => ?_, fun o => ?_, by decide, by decide⟩
  · rcases owned 0 false (by decide) with ⟨⟨o, ⟨b, object, ptr⟩, _⟩, _⟩ | ⟨_, count, _⟩
    · rcases o with _ | _ | o
      · obtain rfl : ⟨some 1, false, false⟩ = b := by simpa [ops, run, apply, moveFrom, empty] using object
        simp at ptr
      · obtain rfl : ⟨none, false, false⟩ = b := by simpa [ops, run, apply, moveFrom, empty] using object
        simp at ptr
      · simp [ops, run, apply, moveFrom, empty] at object
    · simp [ops, run, apply, moveFrom, empty] at count
  · rcases o with _ | _ | o <;> simp [ops, run, apply, moveFrom, freePtr, empty]

end WormholeFilters.ReadBuffers
