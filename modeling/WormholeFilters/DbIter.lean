import WormholeFilters.MergingIter
import WormholeFilters.Snapshots

/-! db/db_iter.cc: the user keys and values behind an iterator over internal keys. The
sampling of reads for compactions is left out, with the random numbers it draws. -/
namespace WormholeFilters.LevelDb

open LittleEndian
open Env (Status)
open Cursors (Call rank)

/-- Forward, the entry shown is that of `iter`; backward, it is saved and `iter` stands
before the entries of its user key. -/
structure DbIter (σ : Type) where
  iter : σ
  status : Status
  savedKey : List Byte
  savedValue : List Byte
  direction : Direction
  valid : Bool

namespace DbIter

variable {σ : Type}

section Model

variable (user : Comparator) (it : Iterator σ) (sequence : Nat)

def init (iter : σ) : DbIter σ := ⟨iter, .ok, [], [], .forward, false⟩

def parseKey (s : DbIter σ) : Option ParsedInternalKey × DbIter σ :=
  match parseInternalKey (it.key s.iter) with
  | none => (none, { s with status := .corruption "corrupted internal key in DBIter" })
  | some ikey => (some ikey, s)

/-- What a pass of `FindNextUserEntry` makes of an entry: nothing if it is yielded, else
what is skipped from then on. -/
def skipEntry (skipping : Bool) (skip : List Byte) : Option ParsedInternalKey → Option (Bool × List Byte)
  | none => some (skipping, skip)
  | some ikey =>
    if ikey.sequence ≤ sequence then
      match ikey.type with
      | .deletion => some (true, ikey.userKey)
      | .value => if skipping ∧ (user.compare ikey.userKey skip).isLE then some (skipping, skip) else none
    else some (skipping, skip)

/-- Every caller passes `saved_key_` as the key to skip. Called with `iter` valid. -/
def findNextUserEntry : Nat → Bool → DbIter σ → DbIter σ
  | 0, _, s => s
  | fuel + 1, skipping, s =>
    let (ikey, s) := parseKey it s
    match skipEntry user sequence skipping s.savedKey ikey with
    | none => { s with valid := true, savedKey := [] }
    | some (skipping, skip) =>
      let s := { s with savedKey := skip, iter := it.call .next s.iter }
      if it.valid s.iter then findNextUserEntry fuel skipping s
      else { s with savedKey := [], valid := false }

def saveEntry (key value : List Byte) (type : ValueType) (savedKey savedValue : List Byte) :
    Option ParsedInternalKey → Option (ValueType × List Byte × List Byte)
  | none => some (type, savedKey, savedValue)
  | some ikey =>
    if ikey.sequence ≤ sequence then
      if type ≠ .deletion ∧ user.compare ikey.userKey savedKey = .lt then none
      else
        match ikey.type with
        | .deletion => some (.deletion, [], [])
        | .value => some (.value, extractUserKey key, value)
    else some (type, savedKey, savedValue)

def scanBack : Nat → ValueType → DbIter σ → ValueType × DbIter σ
  | 0, type, s => (type, s)
  | fuel + 1, type, s =>
    let (ikey, s) := parseKey it s
    match saveEntry user sequence (it.key s.iter) (it.value s.iter) type s.savedKey s.savedValue ikey with
    | none => (type, s)
    | some (type, key, value) =>
      let s := { s with savedKey := key, savedValue := value, iter := it.call .prev s.iter }
      if it.valid s.iter then scanBack fuel type s else (type, s)

def findPrevUserEntry (fuel : Nat) (s : DbIter σ) : DbIter σ :=
  let (type, s) := if it.valid s.iter then scanBack user it sequence fuel .deletion s else (.deletion, s)
  if type = .deletion then { s with valid := false, savedKey := [], savedValue := [], direction := .forward }
  else { s with valid := true }

def next (fuel : Nat) (s : DbIter σ) : DbIter σ :=
  let s :=
    if s.direction = .reverse then
      { s with
        direction := .forward
        iter := if it.valid s.iter then it.call .next s.iter else it.call .seekToFirst s.iter }
    else { s with savedKey := extractUserKey (it.key s.iter), iter := it.call .next s.iter }
  if it.valid s.iter then findNextUserEntry user it sequence fuel true s
  else { s with valid := false, savedKey := [] }

/-- The loop of `Prev` that scans backward until the key changes: whether it does. -/
def leaveKey : Nat → DbIter σ → Bool × DbIter σ
  | 0, s => (false, s)
  | fuel + 1, s =>
    let s := { s with iter := it.call .prev s.iter }
    if it.valid s.iter then
      if user.compare (extractUserKey (it.key s.iter)) s.savedKey = .lt then (true, s) else leaveKey fuel s
    else (false, { s with valid := false, savedKey := [], savedValue := [] })

def prev (fuel : Nat) (s : DbIter σ) : DbIter σ :=
  if s.direction = .forward then
    match leaveKey user it fuel { s with savedKey := extractUserKey (it.key s.iter) } with
    | (true, s) => findPrevUserEntry user it sequence fuel { s with direction := .reverse }
    | (false, s) => s
  else findPrevUserEntry user it sequence fuel s

def call (fuel : Nat) : Call (List Byte) → DbIter σ → DbIter σ
  | .seekToFirst, s =>
    let s := { s with direction := .forward, savedValue := [], iter := it.call .seekToFirst s.iter }
    if it.valid s.iter then findNextUserEntry user it sequence fuel false s else { s with valid := false }
  | .seekToLast, s =>
    findPrevUserEntry user it sequence fuel
      { s with direction := .reverse, savedValue := [], iter := it.call .seekToLast s.iter }
  | .seek target, s =>
    let savedKey := appendInternalKey [] ⟨target, sequence, kValueTypeForSeek⟩
    let s := { s with direction := .forward, savedValue := [], savedKey, iter := it.call (.seek savedKey) s.iter }
    if it.valid s.iter then findNextUserEntry user it sequence fuel false s else { s with valid := false }
  | .next, s => s.next user it sequence fuel
  | .prev, s => s.prev user it sequence fuel

/-- The loops run at most `fuel` times. -/
def iterator (fuel : Nat) : Iterator (DbIter σ) where
  valid s := s.valid
  key s := if s.direction = .forward then extractUserKey (it.key s.iter) else s.savedKey
  value s := if s.direction = .forward then it.value s.iter else s.savedValue
  status s := if s.status = .ok then it.status s.iter else s.status
  call := call user it sequence fuel

end Model

section Simulation

variable {user : Comparator} {it : Iterator σ} {sequence : Nat} {records : List Stored} {pos : σ → Nat → Prop}
  {s : DbIter σ} {r : Stored} {i j m b p : Nat} {skipping : Bool} {skip : List Byte}

/-- The position of `iter` when `b` records are before or at it. -/
def back (records : List Stored) (b : Nat) : Nat := if b = 0 then records.length else b - 1

def Quiet (sequence : Nat) (records : List Stored) (b i : Nat) : Prop :=
  ∀ k f, records[k]? = some f → b ≤ k → k < i → f.visible sequence ≠ true

inductive At (user : Comparator) (sequence : Nat) (records : List Stored) (pos : σ → Nat → Prop) :
    DbIter σ → Nat → Prop where
  | none {s : DbIter σ} {i : Nat} (clean : s.status = .ok) (stands : pos s.iter i) (invalid : s.valid = false) :
      At user sequence records pos s (view user sequence records).length
  | forward {s : DbIter σ} {i : Nat} {r : Stored} (clean : s.status = .ok) (stands : pos s.iter i)
      (valid : s.valid = true) (direction : s.direction = .forward) (found : records[i]? = some r)
      (here : shows user sequence records i = true) : At user sequence records pos s
      (rank (shows user sequence records) i)
  | reverse {s : DbIter σ} {i b : Nat} {r : Stored} (clean : s.status = .ok) (stands : pos s.iter (back records b))
      (valid : s.valid = true) (direction : s.direction = .reverse) (found : records[i]? = some r)
      (here : shows user sequence records i = true) (savedKey : s.savedKey = r.key.userKey)
      (savedValue : s.savedValue = r.value) (le : b ≤ i) (quiet : Quiet sequence records b i) :
      At user sequence records pos s (rank (shows user sequence records) i)

variable (sim : Cursors.Simulates it.iter (internalKeyComparator user).compare (records.map Stored.entry) pos)
  (order : InOrder user records)

section Iter

include sim

theorem valid_iff {x : σ} (stands : pos x i) : it.valid x = true ↔ i < records.length := by
  simpa using sim.valid_iff stands

theorem entry_eq {x : σ} (stands : pos x i) (found : records[i]? = some r) :
    it.key x = r.entry.1 ∧ it.value x = r.value := sim.entry stands (getElem?_entry found)

theorem parseKey_eq (stands : pos s.iter i) (found : records[i]? = some r) : parseKey it s = (some r.key, s) := by
  rw [parseKey, (entry_eq sim stands found).1, r.parse_entry]

theorem pos_next {x : σ} (stands : pos x i) (inside : i < records.length) : pos (it.call .next x) (i + 1) :=
  sim.step .next stands (by simpa [Cursors.Allowed] using inside)

theorem pos_prev {x : σ} (stands : pos x i) (inside : i < records.length) : pos (it.call .prev x) (back records i) := by
  simpa [Cursors.move, back] using sim.step .prev stands (by simpa [Cursors.Allowed] using inside)

/-- The iterator is before the first record, or at the last one of those. -/
theorem back_cases {x : σ} (stands : pos x (back records b)) (inside : b ≤ records.length) :
    b = 0 ∧ it.valid x ≠ true ∨ ∃ k, b = k + 1 ∧ pos x k ∧ it.valid x = true := by
  have valid := valid_iff sim stands
  cases b with
  | zero => exact Or.inl ⟨rfl, fun isValid => Nat.lt_irrefl _ (valid.mp isValid)⟩
  | succ k => exact Or.inr ⟨k, rfl, stands, valid.mpr inside⟩

end Iter

structure Skips (user : Comparator) (sequence : Nat) (records : List Stored) (j m : Nat) (skipping : Bool)
    (skip : List Byte) : Prop where
  le : j ≤ m
  hides {k : Nat} {r : Stored} : records[k]? = some r → j ≤ k → r.visible sequence = true →
    ((skipping = true ∧ (user.compare r.key.userKey skip).isLE = true) ↔ ∃ l f, records[l]? = some f ∧ l < m ∧
      f.visible sequence = true ∧ user.compare f.key.userKey r.key.userKey = .eq)
  values {k : Nat} {r : Stored} : records[k]? = some r → j ≤ k → k < m → r.visible sequence = true →
    r.key.type = .value

namespace Skips

theorem start (quiet : ∀ k l r f, records[k]? = some r → records[l]? = some f → l < j → j ≤ k →
      f.visible sequence = true → user.compare f.key.userKey r.key.userKey ≠ .eq) (skip : List Byte) :
    Skips user sequence records j j false skip where
  le := Nat.le_refl j
  hides {k r} found after visible := by
    constructor
    · rintro ⟨skips, -⟩
      cases skips
    · rintro ⟨l, f, other, before, seen, same⟩
      exact absurd same (quiet k l r f found other before after seen)
  values _ after before := by omega

include order in
/-- Skipping the user key of a visible record is skipping the keys seen up to it. -/
theorem after [Std.TransCmp user.compare] (found : records[i]? = some r) (visible : r.visible sequence = true) :
    Skips user sequence records (i + 1) (i + 1) true r.key.userKey where
  le := Nat.le_refl _
  hides {k f} other later seen := by
    have le := order.users_isLE found other (by omega)
    constructor
    · rintro ⟨-, ge⟩
      exact ⟨i, r, found, Nat.lt_succ_self i, visible, Std.OrientedCmp.isLE_antisymm le ge⟩
    · rintro ⟨l, g, another, before, _, same⟩
      have back : (user.compare f.key.userKey g.key.userKey).isLE := by
        rw [Std.OrientedCmp.eq_symm same]
        rfl
      exact ⟨rfl, Std.TransCmp.isLE_trans back (order.users_isLE another found (by omega))⟩
  values _ after before := by omega

include order in
/-- The same from the place before its user key where the iterator stands when it turns. -/
theorem turned [Std.TransCmp user.compare] (found : records[i]? = some r) (visible : r.visible sequence = true)
    (isValue : r.key.type = .value) (le : b ≤ i) (quiet : Quiet sequence records b i) :
    Skips user sequence records b (i + 1) true r.key.userKey where
  le := Nat.le_succ_of_le le
  hides {k f} other after seen := by
    rcases Nat.lt_trichotomy k i with early | rfl | late
    · exact absurd seen (quiet k f other after early)
    · obtain rfl : r = f := Option.some.inj (found.symm.trans other)
      exact iff_of_true ⟨rfl, Std.ReflCmp.isLE_rfl⟩ ⟨k, r, found, Nat.lt_succ_self k, visible, Std.ReflCmp.compare_self⟩
    · exact (Skips.after order found visible).hides other late seen
  values {k f} other after before seen := by
    rcases Nat.eq_or_lt_of_le (Nat.le_of_lt_succ before) with rfl | early
    · rwa [Option.some.inj (other.symm.trans found)]
    · exact absurd seen (quiet k f other after early)

/-- A record that is not yielded is one of those seen. -/
theorem pass [Std.TransCmp user.compare] (skips : Skips user sequence records j m skipping skip)
    (found : records[j]? = some r)
    (hidden : r.visible sequence = true → skipping = true ∧ (user.compare r.key.userKey skip).isLE = true) :
    Skips user sequence records (j + 1) (max m (j + 1)) skipping skip where
  le := Nat.le_max_right _ _
  hides {k f} other later seen := by
    rw [skips.hides other (by omega) seen]
    constructor
    · rintro ⟨l, g, another, before, rest⟩
      exact ⟨l, g, another, by omega, rest⟩
    · rintro ⟨l, g, another, before, visible, same⟩
      rcases Nat.lt_or_ge l m with old | new
      · exact ⟨l, g, another, old, visible, same⟩
      · -- the record passed: what hides it hides the later one of its user key
        have := skips.le
        obtain rfl : l = j := by omega
        obtain rfl : r = g := Option.some.inj (found.symm.trans another)
        obtain ⟨l', h, hider, before', seen', same'⟩ := (skips.hides found (Nat.le_refl l) visible).mp (hidden visible)
        exact ⟨l', h, hider, before', seen', Std.TransCmp.eq_trans same' same⟩
  values {k f} other later before seen := by
    have := skips.le
    exact skips.values other (by omega) (by omega) seen

end Skips

theorem rank_pass (skips : Skips user sequence records j m skipping skip) (found : records[j]? = some r)
    (hidden : r.visible sequence = true → r.key.type = .value →
      skipping = true ∧ (user.compare r.key.userKey skip).isLE = true) :
    rank (shows user sequence records) (max m (j + 1)) = rank (shows user sequence records) m := by
  have le := skips.le
  rcases Nat.lt_or_ge j m with old | new
  · rw [Nat.max_eq_left old]
  · obtain rfl : j = m := by omega
    rw [Nat.max_eq_right (Nat.le_succ j)]
    refine Cursors.rank_succ_of_not_chosen (not_shows found fun visible isValue => ?_)
    exact (skips.hides found (Nat.le_refl j) visible).mp (hidden visible isValue)

include order in
/-- One pass of the forward loop. -/
theorem skipEntry_spec [Std.TransCmp user.compare] (skips : Skips user sequence records j m skipping skip)
    (found : records[j]? = some r) :
    match skipEntry user sequence skipping skip (some r.key) with
    | none => m = j ∧ shows user sequence records j = true
    | some (skipping, skip) => Skips user sequence records (j + 1) (max m (j + 1)) skipping skip ∧
        rank (shows user sequence records) (max m (j + 1)) = rank (shows user sequence records) m := by
  have le := skips.le
  rw [skipEntry]
  by_cases visible : r.key.sequence ≤ sequence
  · rw [if_pos visible]
    have seen : r.visible sequence = true := decide_eq_true visible
    cases type : r.key.type with
    | deletion =>
      have new : m ≤ j := by
        by_contra old
        rw [skips.values found (Nat.le_refl j) (by omega) seen] at type
        cases type
      have same := rank_pass skips found fun _ isValue => by
        rw [type] at isValue
        cases isValue
      rw [show max m (j + 1) = j + 1 by omega] at same ⊢
      exact ⟨.after order found seen, same⟩
    | value =>
      dsimp only
      by_cases hidden : skipping = true ∧ (user.compare r.key.userKey skip).isLE = true
      · rw [if_pos hidden]
        exact ⟨skips.pass found fun _ => hidden, rank_pass skips found fun _ _ => hidden⟩
      · rw [if_neg hidden]
        have alone := mt (skips.hides found (Nat.le_refl j) seen).mpr hidden
        have new : m = j := by
          by_contra different
          exact alone ⟨j, r, found, by omega, seen, Std.ReflCmp.compare_self⟩
        subst new
        refine ⟨rfl, (shows_iff found).mpr ⟨seen, type, ?_⟩⟩
        exact fun l f other before visible same => alone ⟨l, f, other, before, visible, same⟩
  · rw [if_neg visible]
    have unseen : r.visible sequence ≠ true := by simpa [Stored.visible] using visible
    exact ⟨skips.pass found fun seen => absurd seen unseen, rank_pass skips found fun seen => absurd seen unseen⟩

/-- Behind the last record nothing is shown. -/
theorem At.past (clean : s.status = .ok) (stands : pos s.iter i) (invalid : s.valid = false)
    (all : records.length ≤ m) : At user sequence records pos s (rank (shows user sequence records) m) := by
  rw [Nat.le_antisymm (rank_shows_le m) (Cursors.rank_mono all), ← length_view]
  exact .none clean stands invalid

include sim order in
/-- The forward loop finds the first record shown at or behind `m`. -/
theorem at_findNextUserEntry [Std.TransCmp user.compare] (fuel : Nat)
    (skips : Skips user sequence records j m skipping s.savedKey) (stands : pos s.iter j) (inside : j < records.length)
    (clean : s.status = .ok) (direction : s.direction = .forward) (enough : records.length ≤ j + fuel) :
    At user sequence records pos (findNextUserEntry user it sequence fuel skipping s)
      (rank (shows user sequence records) m) := by
  induction fuel generalizing j m skipping s with
  | zero => omega
  | succ fuel ih =>
    have found := List.getElem?_eq_getElem inside
    have pass := skipEntry_spec order skips found
    rw [findNextUserEntry, parseKey_eq sim stands found]
    dsimp only
    revert pass
    cases skipEntry user sequence skipping s.savedKey (some records[j].key) with
    | none =>
      rintro ⟨rfl, here⟩
      exact .forward clean stands rfl direction found here
    | some skipped =>
      obtain ⟨skipping', skip'⟩ := skipped
      rintro ⟨skips', same⟩
      have stands' := pos_next sim stands inside
      dsimp only
      split
      · next valid =>
        rw [← same]
        exact ih skips' stands' ((valid_iff sim stands').mp valid) clean direction (by omega)
      · next invalid =>
        have all : records.length ≤ j + 1 := Nat.not_lt.mp (mt (valid_iff sim stands').mpr invalid)
        rw [← same]
        exact .past clean stands' rfl (by omega)

/-- What the backward loop has saved when the records from `b` to before `n` are behind it. -/
inductive Saves (user : Comparator) (sequence : Nat) (records : List Stored) (b n : Nat) :
    ValueType → List Byte → List Byte → Prop where
  | nothing {key value : List Byte} (le : b ≤ n)
      (none : ∀ k, b ≤ k → k < n → shows user sequence records k ≠ true) :
      Saves user sequence records b n .deletion key value
  | value {c : Nat} {r : Stored} (le : b ≤ c) (before : c < n) (found : records[c]? = some r)
      (visible : r.visible sequence = true) (isValue : r.key.type = .value) (quiet : Quiet sequence records b c)
      (none : ∀ k, c < k → k < n → shows user sequence records k ≠ true) :
      Saves user sequence records b n .value r.key.userKey r.value

theorem Quiet.extend {c : Nat} (quiet : Quiet sequence records (b + 1) c) (found : records[b]? = some r)
    (hidden : r.visible sequence ≠ true) : Quiet sequence records b c := by
  intro k f other after before
  rcases Nat.eq_or_lt_of_le after with rfl | later
  · rwa [Option.some.inj (other.symm.trans found)]
  · exact quiet k f other later before

/-- Why the backward loop has stopped before record `b`. -/
def Ended (user : Comparator) (records : List Stored) (b : Nat) (type : ValueType) (key : List Byte) : Prop :=
  b = 0 ∨ type = .value ∧ ∃ f, records[b - 1]? = some f ∧ user.compare f.key.userKey key = .lt

include order in
/-- One pass of the backward loop. -/
theorem saveEntry_spec [Std.TransCmp user.compare] {n : Nat} {type : ValueType} {key value : List Byte}
    (saves : Saves user sequence records (j + 1) n type key value) (found : records[j]? = some r) :
    match saveEntry user sequence r.entry.1 r.value type key value (some r.key) with
    | none => Ended user records (j + 1) type key
    | some (type, key, value) => Saves user sequence records j n type key value := by
  rw [saveEntry]
  by_cases visible : r.key.sequence ≤ sequence
  · rw [if_pos visible]
    have seen : r.visible sequence = true := decide_eq_true visible
    by_cases smaller : type ≠ .deletion ∧ user.compare r.key.userKey key = .lt
    · rw [if_pos smaller]
      refine Or.inr ⟨?_, r, found, smaller.2⟩
      cases saves with
      | nothing => exact absurd rfl smaller.1
      | value => rfl
    · rw [if_neg smaller]
      -- nothing behind this record is shown, also what was saved: it is of the same user key
      have none : ∀ k, j < k → k < n → shows user sequence records k ≠ true := by
        cases saves with
        | nothing le none => exact none
        | @value c f le before foundF visibleF isValue quiet none =>
          intro k after before here
          have notSmaller : user.compare r.key.userKey f.key.userKey ≠ .lt := fun below => smaller ⟨by simp, below⟩
          rcases Nat.lt_trichotomy k c with early | rfl | late
          · obtain ⟨g, other⟩ : ∃ g, records[k]? = some g :=
              ⟨_, List.getElem?_eq_getElem (by have := (List.getElem?_eq_some_iff.mp foundF).1; omega)⟩
            exact quiet k g other after early ((shows_iff other).mp here).1
          · exact notSmaller (users_lt_of_shows order found foundF after seen here)
          · exact none k late before here
      have le : j + 1 ≤ n := by cases saves <;> omega
      cases type' : r.key.type with
      | deletion =>
        refine .nothing (by omega) fun k after before => ?_
        rcases Nat.eq_or_lt_of_le after with rfl | later
        · refine not_shows found fun _ isValue => ?_
          rw [type'] at isValue
          cases isValue
        · exact none k later before
      | value =>
        rw [Stored.extractUserKey_entry]
        exact .value (Nat.le_refl j) le found seen type' (fun k f _ after before => by omega) none
  · rw [if_neg visible]
    have unseen : r.visible sequence ≠ true := by simpa [Stored.visible] using visible
    cases saves with
    | nothing le none =>
      refine .nothing (by omega) fun k after before => ?_
      rcases Nat.eq_or_lt_of_le after with rfl | later
      · exact not_shows found fun seen => absurd seen unseen
      · exact none k later before
    | value le before foundF visibleF isValue quiet none =>
      exact .value (by omega) before foundF visibleF isValue (quiet.extend found unseen) none

include sim order in
theorem scanBack_spec [Std.TransCmp user.compare] {n : Nat} (fuel : Nat) {type : ValueType}
    (saves : Saves user sequence records (j + 1) n type s.savedKey s.savedValue) (stands : pos s.iter j)
    (inside : j < records.length) (clean : s.status = .ok) (enough : j < fuel) :
    ∃ b type' s', scanBack user it sequence fuel type s = (type', s') ∧ s'.status = .ok ∧ s'.direction = s.direction ∧
      pos s'.iter (back records b) ∧ Saves user sequence records b n type' s'.savedKey s'.savedValue ∧
      Ended user records b type' s'.savedKey := by
  induction fuel generalizing j type s with
  | zero => omega
  | succ fuel ih =>
    have found := List.getElem?_eq_getElem inside
    have pass := saveEntry_spec order saves found
    rw [scanBack, parseKey_eq sim stands found]
    dsimp only
    rw [(entry_eq sim stands found).1, (entry_eq sim stands found).2]
    revert pass
    cases saveEntry user sequence records[j].entry.1 records[j].value type s.savedKey s.savedValue
        (some records[j].key) with
    | none =>
      intro ended
      exact ⟨j + 1, type, s, rfl, clean, rfl, stands, saves, ended⟩
    | some saved =>
      obtain ⟨type', key', value'⟩ := saved
      intro saves'
      have stands' := pos_prev sim stands inside
      dsimp only
      rcases back_cases sim stands' (Nat.le_of_lt inside) with ⟨rfl, invalid⟩ | ⟨k, rfl, before, valid⟩
      · rw [if_neg invalid]
        exact ⟨0, _, _, rfl, clean, rfl, stands', saves', Or.inl rfl⟩
      · rw [if_pos valid]
        exact ih (s := { s with savedKey := key', savedValue := value', iter := it.call .prev s.iter })
          saves' before (by omega) clean (by omega)

include order in
/-- What is saved when the loop stops is shown. -/
theorem shows_of_ended [Std.TransCmp user.compare] {c : Nat} (le : b ≤ c) (found : records[c]? = some r)
    (visible : r.visible sequence = true) (isValue : r.key.type = .value) (quiet : Quiet sequence records b c)
    (ended : Ended user records b .value r.key.userKey) : shows user sequence records c = true := by
  refine (shows_iff found).mpr ⟨visible, isValue, fun l g other before seen same => ?_⟩
  rcases Nat.lt_or_ge l b with early | late
  · rcases ended with rfl | ⟨-, f, foundF, below⟩
    · omega
    · have le := order.users_isLE other foundF (by omega)
      have less := Std.TransCmp.lt_of_isLE_of_lt le below
      rw [less] at same
      cases same
  · exact quiet l g other late before seen

include sim order in
/-- The backward loop finds the last record shown before `b`. -/
theorem at_findPrevUserEntry [Std.TransCmp user.compare] (fuel : Nat) (stands : pos s.iter (back records b))
    (inside : b ≤ records.length) (clean : s.status = .ok) (direction : s.direction = .reverse)
    (enough : records.length ≤ fuel) :
    At user sequence records pos (findPrevUserEntry user it sequence fuel s)
      (if rank (shows user sequence records) b = 0 then (view user sequence records).length
        else rank (shows user sequence records) b - 1) := by
  obtain ⟨b', type, s', run, clean', direction', stands', saves, ended⟩ : ∃ b' type s',
      (if it.valid s.iter then scanBack user it sequence fuel .deletion s else (.deletion, s)) = (type, s') ∧
      s'.status = .ok ∧ s'.direction = s.direction ∧ pos s'.iter (back records b') ∧
      Saves user sequence records b' b type s'.savedKey s'.savedValue ∧ Ended user records b' type s'.savedKey := by
    have start : Saves user sequence records b b .deletion s.savedKey s.savedValue :=
      .nothing (Nat.le_refl b) fun k after before => by omega
    rcases back_cases sim stands inside with ⟨rfl, invalid⟩ | ⟨k, rfl, before, valid⟩
    · rw [if_neg invalid]
      exact ⟨0, _, s, rfl, clean, rfl, stands, start, Or.inl rfl⟩
    · rw [if_pos valid]
      exact scanBack_spec sim order fuel start before inside clean (by omega)
  rw [findPrevUserEntry, run]
  generalize savedKey : s'.savedKey = key at saves ended
  generalize savedValue : s'.savedValue = value at saves
  cases saves with
  | nothing le none =>
    obtain rfl : b' = 0 := by
      rcases ended with first | ⟨value, -⟩
      · exact first
      · cases value
    have zero : rank (shows user sequence records) b = 0 := (Cursors.rank_eq_of_none_chosen le none).symm
    rw [if_pos zero]
    exact .none clean' stands' rfl
  | @value c r le before found visible isValue quiet none =>
    have here := shows_of_ended order le found visible isValue quiet ended
    have count : rank (shows user sequence records) b = rank (shows user sequence records) c + 1 := by
      rw [← Cursors.rank_succ_of_chosen here]
      exact (Cursors.rank_eq_of_none_chosen before none).symm
    rw [count, if_neg (Nat.succ_ne_zero _), Nat.add_sub_cancel]
    exact .reverse clean' stands' rfl (direction'.trans direction) found here savedKey savedValue le quiet

theorem Quiet.rank_eq (quiet : Quiet sequence records b i) (le : b ≤ i) :
    rank (shows user sequence records) b = rank (shows user sequence records) i := by
  refine Cursors.rank_eq_of_none_chosen le fun k after before => ?_
  cases found : records[k]? with
  | none => simp [shows, found]
  | some f => exact not_shows found fun seen => absurd seen (quiet k f found after before)

include sim order in
/-- The loop of `Prev` goes back over records of the user key shown, none of which is visible. -/
theorem leaveKey_spec [Std.TransCmp user.compare] (fuel : Nat) (found : records[i]? = some r)
    (here : shows user sequence records i = true) (stands : pos s.iter j) (le : j ≤ i)
    (saved : s.savedKey = r.key.userKey) (quiet : Quiet sequence records j i) (clean : s.status = .ok)
    (enough : j < fuel) :
    (∃ k s', leaveKey user it fuel s = (true, s') ∧ k < i ∧ pos s'.iter k ∧ Quiet sequence records (k + 1) i ∧
      s'.status = .ok) ∨
    ∃ s', leaveKey user it fuel s = (false, s') ∧ Quiet sequence records 0 i ∧ s'.valid = false ∧
      pos s'.iter records.length ∧ s'.status = .ok := by
  induction fuel generalizing j s with
  | zero => omega
  | succ fuel ih =>
    have inside := (List.getElem?_eq_some_iff.mp found).1
    have stands' := pos_prev sim stands (by omega)
    rw [leaveKey]
    dsimp only
    rcases back_cases sim stands' (by omega) with ⟨rfl, invalid⟩ | ⟨k, rfl, before, valid⟩
    · rw [if_neg invalid]
      exact Or.inr ⟨_, rfl, quiet, rfl, stands', clean⟩
    · have other := List.getElem?_eq_getElem (show k < records.length by omega)
      rw [if_pos valid, (entry_eq sim before other).1, Stored.extractUserKey_entry, saved]
      split
      · exact Or.inl ⟨k, _, rfl, le, before, quiet, clean⟩
      · next notSmaller =>
        refine ih before (Nat.le_of_succ_le le) rfl (quiet.extend other fun seen => notSmaller ?_) clean (by omega)
        exact users_lt_of_shows order other found le seen here

include sim order in
theorem at_next [Std.TransCmp user.compare] (fuel : Nat) (enough : records.length ≤ fuel)
    (shown : At user sequence records pos s p) (inside : p < (view user sequence records).length) :
    At user sequence records pos (s.next user it sequence fuel) (p + 1) := by
  cases shown with
  | none => omega
  | @forward i r clean stands valid direction found here =>
    obtain ⟨visible, isValue, -⟩ := (shows_iff found).mp here
    have stands' := pos_next sim stands (List.getElem?_eq_some_iff.mp found).1
    have goesOn : ¬s.direction = .reverse := by simp [direction]
    rw [next, if_neg goesOn, ← Cursors.rank_succ_of_chosen here]
    dsimp only
    rw [(entry_eq sim stands found).1, Stored.extractUserKey_entry]
    split
    · next more =>
      exact at_findNextUserEntry sim order fuel (.after order found visible) stands' ((valid_iff sim stands').mp more)
        clean direction (by omega)
    · next done =>
      exact .past clean stands' rfl (Nat.not_lt.mp (mt (valid_iff sim stands').mpr done))
  | @reverse i b r clean stands valid direction found here savedKey savedValue le quiet =>
    obtain ⟨visible, isValue, -⟩ := (shows_iff found).mp here
    have inside := (List.getElem?_eq_some_iff.mp found).1
    have stands' : pos (if it.valid s.iter then it.call .next s.iter else it.call .seekToFirst s.iter) b := by
      rcases back_cases sim stands (by omega) with ⟨rfl, invalid⟩ | ⟨k, rfl, before, valid⟩
      · rw [if_neg invalid]
        exact sim.step .seekToFirst stands trivial
      · rw [if_pos valid]
        exact pos_next sim before (by omega)
    rw [next, if_pos direction, ← Cursors.rank_succ_of_chosen here]
    dsimp only
    rw [if_pos ((valid_iff sim stands').mpr (by omega))]
    refine at_findNextUserEntry sim order fuel ?_ stands' (by omega) clean rfl (by omega)
    rw [savedKey]
    exact .turned order found visible isValue le quiet

include sim order in
theorem at_prev [Std.TransCmp user.compare] (fuel : Nat) (enough : records.length ≤ fuel)
    (shown : At user sequence records pos s p) (inside : p < (view user sequence records).length) :
    At user sequence records pos (s.prev user it sequence fuel)
      (if p = 0 then (view user sequence records).length else p - 1) := by
  cases shown with
  | none => omega
  | @forward i r clean stands valid direction found here =>
    have inside := (List.getElem?_eq_some_iff.mp found).1
    rw [prev, if_pos direction, (entry_eq sim stands found).1, Stored.extractUserKey_entry]
    rcases leaveKey_spec sim order fuel (s := { s with savedKey := r.key.userKey }) found here stands
      (Nat.le_refl i) rfl
      (fun k f _ after before => by omega) clean (by omega) with
      ⟨k, s', run, before, stands', quiet, clean'⟩ | ⟨s', run, quiet, invalid, stands', clean'⟩
    · rw [run, ← quiet.rank_eq before]
      exact at_findPrevUserEntry sim order fuel (b := k + 1) stands' (by omega) clean' rfl enough
    · rw [run, ← quiet.rank_eq (Nat.zero_le i), if_pos Cursors.rank_zero]
      exact .none clean' stands' invalid
  | @reverse i b r clean stands valid direction found here savedKey savedValue le quiet =>
    have inside := (List.getElem?_eq_some_iff.mp found).1
    rw [prev, if_neg (by simp [direction]), ← quiet.rank_eq le]
    exact at_findPrevUserEntry sim order fuel stands (by omega) clean direction enough

theorem shown_eq (sim : Cursors.Simulates it.iter (internalKeyComparator user).compare (records.map Stored.entry) pos)
    (fuel : Nat) (shown : At user sequence records pos s p) :
    (iterator user it sequence fuel).iter.shown s = (view user sequence records)[p]? := by
  rw [Cursors.Iter.shown]
  cases shown with
  | none clean stands invalid => simp [iterator, invalid]
  | forward clean stands valid direction found here =>
    have entry := entry_eq sim stands found
    simp [iterator, valid, direction, entry, getElem?_view here found]
  | reverse clean stands valid direction found here savedKey savedValue =>
    simp [iterator, valid, direction, savedKey, savedValue, getElem?_view here found]

include sim order in
theorem at_seek [Std.TransCmp user.compare] (small : sequence ≤ kMaxSequenceNumber) (fuel : Nat)
    (enough : records.length ≤ fuel) (stands : pos s.iter i) (clean : s.status = .ok) (target : List Byte) :
    At user sequence records pos (call user it sequence fuel (.seek target) s)
      (Cursors.lowerBound user.compare (view user sequence records) target) := by
  rw [lowerBound_view order small]
  have stands' := sim.step (.seek (seekKey target sequence)) stands trivial
  have trans : Std.TransCmp (internalKeyComparator user).compare := InternalKeyComparator.transCmp inferInstance
  have place {l : Nat} {f : Stored} (found : records[l]? = some f) :=
    (Cursors.Sorted.lt_lowerBound_iff order (getElem?_entry found)).trans
      (f.entry_lt_seekKey_iff user small target)
  simp only [Cursors.move] at stands'
  generalize Cursors.lowerBound (internalKeyComparator user).compare (records.map Stored.entry)
    (seekKey target sequence) = j at stands' place
  rw [call]
  dsimp only
  split
  · next valid =>
    have inside := (valid_iff sim stands').mp valid
    refine at_findNextUserEntry sim order fuel (.start ?_ _) stands' inside clean rfl (by omega)
    -- what is visible before the place sought has a smaller user key, what is behind it none
    intro k l r f found other before after seen same
    have smaller : user.compare f.key.userKey target = .lt := by
      rcases (place other).mp before with smaller | ⟨_, hidden⟩
      · exact smaller
      · exact absurd seen hidden
    have notSmaller := mt (place found).mpr (Nat.not_lt.mpr after)
    exact notSmaller (Or.inl (Std.TransCmp.lt_of_eq_of_lt (Std.OrientedCmp.eq_symm same) smaller))
  · next invalid =>
    exact .past clean stands' rfl (Nat.not_lt.mp (mt (valid_iff sim stands').mpr invalid))

include sim order in
/-- Over an iterator that simulates the records of a store, the iterator simulates what a
reader at the sequence number sees. -/
theorem simulates (trans : Std.TransCmp user.compare) (small : sequence ≤ kMaxSequenceNumber) {fuel : Nat}
    (enough : records.length ≤ fuel) :
    Cursors.Simulates (iterator user it sequence fuel).iter user.compare (view user sequence records)
      (At user sequence records pos) where
  le {s p} shown := by
    cases shown with
    | none => exact Nat.le_refl _
    | forward | reverse =>
      rw [length_view]
      exact rank_shows_le _
  shown shown := shown_eq sim fuel shown
  ok {s p} shown := by
    rw [Iterator.iter_ok]
    cases shown with
    | none clean stands | forward clean stands | reverse clean stands =>
      simpa [iterator, clean] using sim.ok stands
  step {s p} step shown allowed := by
    obtain ⟨i, stands, clean⟩ : ∃ i, pos s.iter i ∧ s.status = .ok := by
      cases shown with
      | none clean stands | forward clean stands | reverse clean stands => exact ⟨_, stands, clean⟩
    cases step with
    | seekToFirst =>
      have stands' := sim.step .seekToFirst stands trivial
      change At user sequence records pos (call user it sequence fuel .seekToFirst s) 0
      rw [call]
      dsimp only
      split
      · next valid =>
        have inside := (valid_iff sim stands').mp valid
        exact at_findNextUserEntry sim order fuel (m := 0)
          (.start (fun k l r f _ _ before => by omega) _) stands' inside
          clean rfl (by omega)
      · next invalid => exact .past (m := 0) clean stands' rfl (Nat.not_lt.mp (mt (valid_iff sim stands').mpr invalid))
    | seekToLast =>
      have stands' := sim.step .seekToLast stands trivial
      have last : back records records.length = (records.map Stored.entry).length - 1 := by
        rw [back, List.length_map]
        split <;> omega
      simp only [Cursors.move, ← last] at stands'
      have found : At user sequence records pos (call user it sequence fuel .seekToLast s) _ :=
        at_findPrevUserEntry sim order fuel stands' (Nat.le_refl _) clean rfl enough
      rw [← length_view, show (if (view user sequence records).length = 0 then (view user sequence records).length
        else (view user sequence records).length - 1) = (view user sequence records).length - 1 by
          split <;> omega] at found
      exact found
    | seek target => exact at_seek sim order small fuel enough stands clean target
    | next => exact at_next sim order fuel enough shown allowed
    | prev => exact at_prev sim order fuel enough shown allowed

end Simulation

end DbIter

end WormholeFilters.LevelDb
