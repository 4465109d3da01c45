import WormholeFilters.Db

/-! Whatever steps a store takes, a reader at a live sequence number gets what the writes up to it left. -/
namespace WormholeFilters.LevelDb

open LittleEndian
open Env (Status)
open Multiversion (Newest Unseen Above Answered Prunes Serves)
open Spans (Solid)

/-- The records that a read may come to, newer layers first. -/
def Db.records (db : Db) : List Stored := db.mem ++ (db.imm.getD [] ++ db.version.records db.files)

/-- The numbers at which a read may begin. -/
def Db.Live (db : Db) (s : Nat) : Prop := s = db.lastSequence ∨ s ∈ db.snapshots

def Stored.isDeletion (r : Stored) : Prop := r.key.type = .deletion

structure Running.Inv (user : Comparator) [Std.TransCmp user.compare] (db : Db) (r : Running) : Prop where
  ready : r.compaction.Ready user db.files db.version
  sorted : ∀ level, 0 < level → SortedLevel user db.files (r.compaction.inputVersion.files level)
  old : ∀ level, ∀ f ∈ r.compaction.inputVersion.files level, f.number < db.nextFileNumber
  levels : ∀ level, ∀ f ∈ r.compaction.inputVersion.files level, level < kNumLevels
  numbers : ∀ level, (r.compaction.inputVersion.files level).Pairwise fun f g => f.number ≠ g.number
  sub : r.compaction.inputs.1.Sublist (r.compaction.inputVersion.files r.compaction.level)
  sub' : r.compaction.inputs.2.Sublist (r.compaction.inputVersion.files (r.compaction.level + 1))
  solid : r.manual = false → Solid (low user) (high user) (r.compaction.inputs.1 ++ r.compaction.inputs.2)
  snap : ∀ s, db.Live s → r.smallestSnapshot ≤ s
  start : r.edit.NoFiles
  distinct : r.outputs.Nodup
  fresh : ∀ n ∈ r.outputs, n < db.nextFileNumber ∧ ∀ level, ∀ f ∈ db.version.files level, f.number ≠ n

/-- What holds of a store in which the records of `log` were written. -/
structure Db.Inv (user : Comparator) [Std.TransCmp user.compare] (db : Db) (log : List Stored) : Prop where
  numbered : ∀ (i : Nat) (r : Stored), log[i]? = some r → r.sequence = i + 1
  last : db.lastSequence = log.length
  memOrder : InOrder user db.mem
  immOrder : InOrder user (db.imm.getD [])
  above : Newer user db.mem (db.imm.getD [] ++ db.version.records db.files)
  between : Newer user (db.imm.getD []) (db.version.records db.files)
  kept : db.version.Kept user db.files db.nextFileNumber
  ascending : db.snapshots.Pairwise (· ≤ ·)
  past : ∀ s ∈ db.snapshots, s ≤ db.lastSequence
  serves : ∀ s, db.Live s → ∀ userKey, Serves Stored.sequence Stored.isDeletion (Of user userKey log)
    (Of user userKey db.records) s
  running : ∀ r, db.running = some r → r.Inv user db

section Records

variable {user : Comparator} {xs ys : List Stored} {userKey : List Byte} {r : Stored} {log : List Stored}

theorem of_append : Of user userKey (xs ++ ys) r ↔ Of user userKey xs r ∨ Of user userKey ys r := by
  simp [Of, or_and_right]

theorem of_congr (same : ∀ r, r ∈ xs ↔ r ∈ ys) : Of user userKey xs r ↔ Of user userKey ys r := and_congr_left' (same r)

variable [Std.TransCmp user.compare]

theorem of_self (member : r ∈ xs) : Of user r.key.userKey xs r := ⟨member, Std.ReflCmp.compare_self⟩

theorem Newer.above (newer : Newer user xs ys) (userKey : List Byte) :
    Above Stored.sequence (Of user userKey xs) (Of user userKey ys) :=
  fun r r' upper lower => newer r upper.1 r' lower.1 (same_user upper.2 lower.2)

end Records

section Log

variable {user : Comparator} {log : List Stored} {userKey : List Byte} {s : Nat}

/-- The numbers of the records are their places in the log. -/
theorem sequence_injective (numbered : ∀ (i : Nat) (r : Stored), log[i]? = some r → r.sequence = i + 1) {a b : Stored}
    (first : a ∈ log) (second : b ∈ log) (same : a.sequence = b.sequence) : a = b := by
  obtain ⟨i, foundA⟩ := List.mem_iff_getElem?.mp first
  obtain ⟨j, foundB⟩ := List.mem_iff_getElem?.mp second
  have placeA := numbered i a foundA
  have placeB := numbered j b foundB
  obtain rfl : i = j := by omega
  exact Option.some.inj (foundA.symm.trans foundB)

/-- The last write to a user key up to `s` is the newest record that a reader at `s` sees of it. -/
theorem Db.lookup_answered (numbered : ∀ (i : Nat) (r : Stored), log[i]? = some r → r.sequence = i + 1) (s : Nat)
    (userKey : List Byte) : Answered Stored.sequence Stored.answer (notFound, none) (Of user userKey log) s
      (Db.lookup user (log.take s) userKey) := by
  have visible {r : Stored} : r ∈ log.take s ↔ r ∈ log ∧ r.sequence ≤ s := by
    rw [Cursors.mem_take_iff, List.mem_iff_getElem?]
    constructor
    · rintro ⟨i, before, found⟩
      have place := numbered i r found
      exact ⟨⟨i, found⟩, by omega⟩
    · rintro ⟨⟨i, found⟩, seen⟩
      have place := numbered i r found
      exact ⟨i, by omega, found⟩
  have inLog {i : Nat} {r : Stored} (found : (log.take s)[i]? = some r) : log[i]? = some r := by
    rw [List.getElem?_take] at found
    split at found
    · exact found
    · cases found
  cases found : (log.take s).reverse.find? fun r => user.compare r.key.userKey userKey = .eq with
  | none =>
    refine Or.inr ⟨fun r isOf => Nat.not_le.mp fun seen => ?_, by simp [Db.lookup, found]⟩
    have all := List.find?_eq_none.mp found r (List.mem_reverse.mpr (visible.mpr ⟨isOf.1, seen⟩))
    simp [isOf.2] at all
  | some r =>
    obtain ⟨isOf, before, behind, split, others⟩ := List.find?_eq_some_iff_append.mp found
    have present := visible.mp (List.mem_reverse.mp (split ▸ List.mem_append_right _ (List.mem_cons_self ..)))
    refine Or.inl ⟨r, ⟨⟨present.1, of_decide_eq_true isOf⟩, present.2, fun r' isOf' seen => ?_⟩,
      by simp [Db.lookup, found]⟩
    -- a record of the user key is not behind the last one
    have listed : log.take s = behind.reverse ++ r :: before.reverse := by
      rw [← List.reverse_reverse (log.take s), split]
      simp
    have member : r' ∈ behind.reverse ++ r :: before.reverse := listed ▸ visible.mpr ⟨isOf'.1, seen⟩
    rcases List.mem_append.mp member with early | later
    · obtain ⟨i, inside⟩ := List.mem_iff_getElem?.mp early
      have bound := (List.getElem?_eq_some_iff.mp inside).1
      have atI : (log.take s)[i]? = some r' := by rw [listed, List.getElem?_append_left bound, inside]
      have atR : (log.take s)[behind.reverse.length]? = some r := by rw [listed]; simp
      have place := numbered i r' (inLog atI)
      have place' := numbered _ r (inLog atR)
      omega
    · rcases List.mem_cons.mp later with rfl | last
      · exact Nat.le_refl _
      · have other := others r' (List.mem_reverse.mp last)
        simp [isOf'.2] at other

end Log

section Steps

variable {user : Comparator} [trans : Std.TransCmp user.compare] {o : StoreOptions} {db : Db}
  {log batch : List Stored} {r : Running}

omit trans in
theorem Compaction.inputs_of_isTrivialMove (c : Compaction) {f : FileMetaData} (trivially : c.isTrivialMove = true)
    (only : c.inputs.1.head? = some f) : c.inputs = ([f], []) := by
  have lengths := of_decide_eq_true trivially
  obtain ⟨rest, first⟩ := List.head?_eq_some_iff.mp only
  have short := lengths.1
  rw [first, List.length_cons, Nat.add_eq_right] at short
  rw [List.eq_nil_of_length_eq_zero short] at first
  exact Prod.ext first (List.eq_nil_of_length_eq_zero lengths.2.1)

/-- A number that is taken for something else does not concern a compaction. -/
theorem Running.Inv.number {db' : Db} (before : r.Inv user db) (files : db'.files = db.files)
    (version : db'.version = db.version) (live : ∀ s, db'.Live s → db.Live s)
    (le : db.nextFileNumber ≤ db'.nextFileNumber) : r.Inv user db' where
  ready := by
    rw [files, version]
    exact before.ready
  sorted := by
    rw [files]
    exact before.sorted
  old level f member := Nat.lt_of_lt_of_le (before.old level f member) le
  levels := before.levels
  numbers := before.numbers
  sub := before.sub
  sub' := before.sub'
  solid := before.solid
  snap s isLive := before.snap s (live s isLive)
  start := before.start
  distinct := before.distinct
  fresh n member := by
    rw [version]
    exact ⟨Nat.lt_of_lt_of_le (before.fresh n member).1 le, (before.fresh n member).2⟩

namespace Db.Inv

theorem live_le (inv : db.Inv user log) {s : Nat} (live : db.Live s) : s ≤ db.lastSequence :=
  live.elim Nat.le_of_eq (inv.past s)

theorem source (inv : db.Inv user log) {x : Stored} (member : x ∈ db.records) : x ∈ log :=
  ((inv.serves db.lastSequence (Or.inl rfl) x.key.userKey).sub x (of_self member)).1

theorem sequence_le (inv : db.Inv user log) {x : Stored} (member : x ∈ log) : x.sequence ≤ db.lastSequence := by
  obtain ⟨i, found⟩ := List.mem_iff_getElem?.mp member
  have place := inv.numbered i x found
  have inside := (List.getElem?_eq_some_iff.mp found).1
  have last := inv.last
  omega

theorem distinct (inv : db.Inv user log) : Distinct user db.records :=
  fun _ first _ second _ same => sequence_injective inv.numbered (inv.source first) (inv.source second) same

omit trans in
theorem mem_version {x : Stored} (member : x ∈ db.version.records db.files) : x ∈ db.records :=
  List.mem_append_right _ (List.mem_append_right _ member)

theorem distinct_version (inv : db.Inv user log) : Distinct user (db.version.records db.files) :=
  fun a first b second => inv.distinct a (mem_version first) b (mem_version second)

theorem serves_of_mem_iff {db' : Db} (inv : db.Inv user log) (same : ∀ x, x ∈ db.records ↔ x ∈ db'.records)
    (live : ∀ s, db'.Live s → db.Live s) (s : Nat) (isLive : db'.Live s) (userKey : List Byte) :
    Serves Stored.sequence Stored.isDeletion (Of user userKey log) (Of user userKey db'.records) s :=
  (inv.serves s (live s isLive) userKey).congr fun _ => of_congr same

/-- A write is in the memtable, above everything else. -/
theorem foldl_add (order : InOrder user db.mem) (batch : List Stored)
    (distinct : batch.Pairwise fun a b => a.sequence ≠ b.sequence)
    (new : ∀ x ∈ db.mem, ∀ b ∈ batch, x.sequence ≠ b.sequence) :
    InOrder user (batch.foldl (MemTable.add user) db.mem) ∧
      ∀ x, x ∈ batch.foldl (MemTable.add user) db.mem ↔ x ∈ batch ∨ x ∈ db.mem := by
  generalize db.mem = table at order new
  induction batch generalizing table with
  | nil => exact ⟨order, by simp⟩
  | cons b batch ih =>
    obtain ⟨first, distinct'⟩ := List.pairwise_cons.mp distinct
    have added {x : Stored} : x ∈ MemTable.add user table b ↔ x = b ∨ x ∈ table :=
      MemTable.mem_add fun x member => new x member b (List.mem_cons_self ..)
    obtain ⟨order', members⟩ := ih distinct' (MemTable.add user table b) (MemTable.inOrder_add order b)
      fun x member c later => by
        rcases added.mp member with rfl | old
        · exact first c later
        · exact new x old c (List.mem_cons_of_mem _ later)
    refine ⟨order', fun x => ?_⟩
    rw [List.foldl_cons, members, added, List.mem_cons]
    exact or_left_comm.trans or_assoc.symm

theorem write (inv : db.Inv user log)
    (numbered : ∀ (i : Nat) (x : Stored), batch[i]? = some x → x.sequence = db.lastSequence + 1 + i) :
    (db.write user batch).Inv user (log ++ batch) := by
  have last := inv.last
  have inBatch {x : Stored} (member : x ∈ batch) :
      db.lastSequence < x.sequence ∧ x.sequence ≤ db.lastSequence + batch.length := by
    obtain ⟨i, found⟩ := List.mem_iff_getElem?.mp member
    have place := numbered i x found
    have inside := (List.getElem?_eq_some_iff.mp found).1
    omega
  have inRecords {x : Stored} (member : x ∈ db.records) : x.sequence ≤ db.lastSequence :=
    inv.sequence_le (inv.source member)
  have distinct : batch.Pairwise fun a b => a.sequence ≠ b.sequence := by
    refine List.pairwise_iff_getElem.mpr fun i j inside inside' before => ?_
    have first := numbered i _ (List.getElem?_eq_getElem inside)
    have second := numbered j _ (List.getElem?_eq_getElem inside')
    omega
  obtain ⟨order, members⟩ := foldl_add inv.memOrder batch distinct fun x member b new => by
    have old := inRecords (List.mem_append_left _ member)
    have young := inBatch new
    omega
  have present (x) : x ∈ (db.write user batch).records ↔ x ∈ db.records ++ batch := by
    simp only [Db.write, Db.records, List.mem_append, members]
    rw [or_assoc, or_comm]
  refine { inv with
    numbered := fun i x found => ?_, last := ?_, memOrder := order, above := fun x member y lower same => ?_,
    past := fun s member => Nat.le_trans (inv.past s member) (Nat.le_add_right _ _), serves := fun s live userKey => ?_,
    running := fun r runs => ?_ }
  · rcases Nat.lt_or_ge i log.length with early | late
    · rw [List.getElem?_append_left early] at found
      exact inv.numbered i x found
    · rw [List.getElem?_append_right late] at found
      have place := numbered _ x found
      omega
  · rw [List.length_append, ← last]
    rfl
  · rcases (members x).mp member with new | old
    · have young := (inBatch new).1
      have below := inRecords (List.mem_append_right _ lower)
      omega
    · exact inv.above x old y lower same
  · have whole (x) : Of user userKey (log ++ batch) x ↔ Of user userKey log x ∨ Of user userKey batch x := of_append
    have result (serves : Serves Stored.sequence Stored.isDeletion
        (fun x => Of user userKey log x ∨ Of user userKey batch x)
        (fun x => Of user userKey db.records x ∨ Of user userKey batch x) s) :
        Serves Stored.sequence Stored.isDeletion (Of user userKey (log ++ batch))
          (Of user userKey (db.write user batch).records) s := by
      rw [show Of user userKey (log ++ batch) = _ from funext fun x => propext (whole x)]
      exact serves.congr fun x => of_append.symm.trans (of_congr fun y => (present y).symm)
    rcases live with rfl | member
    · exact result ((inv.serves db.lastSequence (Or.inl rfl) userKey).write (fun x isOf => inv.sequence_le isOf.1)
        (Nat.le_add_right _ _) fun x isOf => inBatch isOf.1)
    · refine result ((inv.serves s (Or.inr member) userKey).later fun x isOf => ?_)
      exact Nat.lt_of_le_of_lt (inv.past s member) (inBatch isOf.1).1
  · have before := inv.running r runs
    refine { before with snap := fun s live => ?_ }
    rcases live with rfl | member
    · exact Nat.le_trans (before.snap _ (Or.inl rfl)) (Nat.le_add_right _ _)
    · exact before.snap s (Or.inr member)

theorem makeRoom (inv : db.Inv user log) (free : db.imm = none) : db.makeRoomForWrite.Inv user log := by
  have above := inv.above
  have serves := inv.serves
  simp only [Db.records, free, Option.getD_none, List.nil_append] at above serves
  exact { inv with
    memOrder := List.Pairwise.nil, immOrder := inv.memOrder, above :=
      fun _ impossible => absurd impossible List.not_mem_nil,
    between := above, serves := serves, kept := inv.kept.mono (Nat.le_succ _)
    running := fun r runs => (inv.running r runs).number rfl rfl (fun _ live => live) (Nat.le_succ _) }

theorem getSnapshot (inv : db.Inv user log) :
    Db.Inv user { db with snapshots := db.snapshots ++ [db.lastSequence] } log := by
  have live {s : Nat} (isLive : s = db.lastSequence ∨ s ∈ db.snapshots ++ [db.lastSequence]) : db.Live s := by
    rcases isLive with same | member
    · exact Or.inl same
    · rcases List.mem_append.mp member with old | new
      · exact Or.inr old
      · exact Or.inl (List.mem_singleton.mp new)
  refine { inv with
    ascending := List.pairwise_append.mpr ⟨inv.ascending, List.pairwise_singleton _ _, fun s member t new => ?_⟩,
    past := fun s member => inv.live_le (live (Or.inr member)), serves := fun s isLive => inv.serves s (live isLive),
    running := fun r runs =>
      { inv.running r runs with snap := fun s isLive => (inv.running r runs).snap s (live isLive) } }
  rw [List.mem_singleton.mp new]
  exact inv.past s member

theorem releaseSnapshot (inv : db.Inv user log) (released : Nat) :
    Db.Inv user { db with snapshots := db.snapshots.erase released } log := by
  have live {s : Nat} (isLive : s = db.lastSequence ∨ s ∈ db.snapshots.erase released) : db.Live s :=
    isLive.imp_right List.mem_of_mem_erase
  exact { inv with
    ascending := inv.ascending.sublist List.erase_sublist,
    past := fun s member => inv.live_le (live (Or.inr member)), serves := fun s isLive => inv.serves s (live isLive),
    running := fun r runs =>
      { inv.running r runs with snap := fun s isLive => (inv.running r runs).snap s (live isLive) } }

/-- The table of a memtable takes its place below the other layers. -/
theorem compactMemTable (inv : db.Inv user log) {imm : List Stored} (full : db.imm = some imm)
    (gaps : ∀ r, db.running = some r → r.manual = true →
      Solid (low user) (high user) (r.compaction.inputs.1 ++ r.compaction.inputs.2))
      (few : db.nextFileNumber + 1 < 2 ^ 31) :
    (db.compactMemTable user o imm).Inv user log := by
  have above := inv.above
  have between := inv.between
  have immOrder := inv.immOrder
  have present (x) : x ∈ db.records ↔ x ∈ db.mem ∨ x ∈ imm ∨ x ∈ db.version.records db.files := by
    simp [Db.records, full]
  simp only [full, Option.getD_some] at above between immOrder
  rw [Db.compactMemTable]
  split
  · next empty =>
    subst empty
    refine { inv with
      immOrder := List.Pairwise.nil, above := above, between := between, kept := inv.kept.mono (Nat.le_succ _),
      serves := inv.serves_of_mem_iff (fun x => ?_) fun s live => live, running := fun r runs => ?_ }
    · rw [present]
      simp [Db.records]
    · exact (inv.running r runs).number rfl rfl (fun _ live => live) (Nat.le_succ _)
  · next nonempty =>
    have takes : db.version.Takes user db.files imm := ⟨immOrder, nonempty, between⟩
    have start : ({} : VersionEdit).NoFiles := ⟨rfl, rfl⟩
    obtain ⟨level, placed⟩ := inv.kept.placed takes start o.maxFileSize o.tableSize
    have records := placed.records
    refine { inv with
      immOrder := List.Pairwise.nil, between := fun _ impossible => absurd impossible List.not_mem_nil,
      above := above.mono (fun _ member => member) fun x member => List.mem_append.mpr ((records x).mp member),
      kept := placed.kept inv.kept takes few,
      serves := inv.serves_of_mem_iff (fun x => ?_) fun s live => live, running := fun r runs => ?_ }
    · rw [present]
      simp [Db.records, records]
    · have before := inv.running r runs
      have solid : Solid (low user) (high user) (r.compaction.inputs.1 ++ r.compaction.inputs.2) := by
        cases manual : r.manual with
        | true => exact gaps r runs manual
        | false => exact before.solid manual
      refine { before with
        ready := placed.ready inv.kept takes before.ready solid
        sorted := fun i positive => (before.sorted i positive).congr fun f member => ?_
        old := fun i f member => Nat.lt_succ_of_lt (before.old i f member)
        fresh := fun n member => ⟨Nat.lt_succ_of_lt (before.fresh n member).1, fun i f inLevel => ?_⟩ }
      · refine written_of_new fun out isOut => ?_
        rw [List.mem_singleton.mp isOut]
        exact (Nat.ne_of_lt (before.old i f member)).symm
      · rcases placed.mem_iff.mp inLevel with old | ⟨_, rfl⟩
        · exact (before.fresh n member).2 i f old
        · rw [placed.number]
          exact (Nat.ne_of_lt (before.fresh n member).1).symm

theorem smallestSnapshot_le (inv : db.Inv user log) {s : Nat} (live : db.Live s) : db.smallestSnapshot ≤ s := by
  rw [Db.smallestSnapshot]
  have ascending := inv.ascending
  have past := inv.past
  cases snapshots : db.snapshots with
  | nil => exact live.elim (fun same => Nat.le_of_eq same.symm) fun member => by simp [snapshots] at member
  | cons oldest rest =>
    rw [snapshots] at ascending past
    rcases live with rfl | member
    · exact past oldest (List.mem_cons_self ..)
    · rw [snapshots] at member
      rcases List.mem_cons.mp member with rfl | later
      · exact Nat.le_refl _
      · exact (List.pairwise_cons.mp ascending).1 s later

theorem begin (inv : db.Inv user log) {c : Compaction} {pointer : List Byte} {manual : Bool}
    (inside : c.level + 1 < kNumLevels) (current : c.inputVersion = db.version)
    (chosen : Chosen user db.version c.level c.inputs)
    (solid : manual = false → Solid (low user) (high user) (c.inputs.1 ++ c.inputs.2)) :
    (db.begin c pointer manual).Inv user log := by
  refine { inv with running := fun r runs => ?_ }
  cases runs
  have ordered := inv.kept.ordered
  have below := inv.kept.numbered.below
  have levels := inv.kept.levels
  have numbers := inv.kept.numbered.nodup_numbers inv.kept.ascending
  have ready : c.Ready user db.files db.version := chosen.ready current ordered inv.distinct_version inside
  rw [← current] at ordered below levels numbers chosen
  exact {
    ready := ready
    sorted := ordered.sorted
    old := below
    levels := levels
    numbers := numbers
    sub := chosen.sealed.1
    sub' := chosen.sub
    solid := solid
    snap := fun s live => inv.smallestSnapshot_le live
    start := ⟨rfl, rfl⟩
    distinct := List.nodup_nil
    fresh := fun n impossible => absurd impossible List.not_mem_nil }

theorem moveFile (inv : db.Inv user log) (idle : db.running = none) {c : Compaction} {edit : VersionEdit}
    {f : FileMetaData} (start : edit.NoFiles) (ready : c.Ready user db.files db.version)
    (trivially : c.isTrivialMove = true) (only : c.inputs.1.head? = some f) (few : db.nextFileNumber < 2 ^ 31) :
    Db.Inv user { db with version := c.moved user db.version edit f } log := by
  have single := c.inputs_of_isTrivialMove trivially only
  have records := ready.moved_records inv.kept start single
  refine { inv with
    above := inv.above.mono (fun _ member => member) fun x member => ?_
    between := inv.between.mono (fun _ member => member) fun x member => (records x).mp member
    kept := ready.moved_kept inv.kept start single inv.distinct_version few
    serves := inv.serves_of_mem_iff (fun x => ?_) fun s live => live
    running := fun r runs => by simp [idle] at runs }
  · exact (List.mem_append.mp member).elim (List.mem_append_left _) fun old => List.mem_append_right _
      ((records x).mp old)
  · simp only [Db.records, List.mem_append, records]

theorem openOutput (inv : db.Inv user log) (runs : db.running = some r) : (db.openOutput r).Inv user log := by
  refine { inv with kept := inv.kept.mono (Nat.le_succ _), running := fun r' runs' => ?_ }
  cases runs'
  have before := inv.running r runs
  refine { before with
    old := fun level f member => Nat.lt_succ_of_lt (before.old level f member)
    distinct := List.nodup_append.mpr ⟨before.distinct, List.nodup_singleton _, fun n old m new => ?_⟩
    fresh := fun n member => ?_ }
  · rw [List.mem_singleton.mp new]
    exact Nat.ne_of_lt (before.fresh n old).1
  · rcases List.mem_append.mp member with old | new
    · exact ⟨Nat.lt_succ_of_lt (before.fresh n old).1, (before.fresh n old).2⟩
    · rw [List.mem_singleton.mp new]
      exact ⟨Nat.lt_succ_self _, fun level f present => Nat.ne_of_lt (inv.kept.numbered.below level f present)⟩

/-- A compaction that has written its outputs may install them. -/
theorem finished (inv : db.Inv user log) (runs : db.running = some r) {input : List Stored}
    {outs : List (Nat × List Stored)} (reads : r.compaction.Reads user db.files input)
    (opened : outs.map Prod.fst = r.outputs)
    (wrote : outs.map (fun out => out.2.map Stored.entry) =
      doCompactionWork user r.compaction r.smallestSnapshot o.fileSize (input.map Stored.entry))
    (small : db.lastSequence < kMaxSequenceNumber) :
    r.compaction.Finished user db.files db.nextFileNumber db.version r.smallestSnapshot r.edit input outs := by
  have before := inv.running r runs
  have snapshot := Nat.lt_of_le_of_lt (before.snap db.lastSequence (Or.inl rfl)) small
  obtain ⟨entries, nonempty⟩ := doCompactionWork_eq o.fileSize before.sorted snapshot reads.order
  rw [← wrote] at entries nonempty
  refine ⟨before.ready, reads, ⟨?_, fun out member empty => ?_⟩, before.start, ?_, fun out member => ?_⟩
  · refine List.map_injective_iff.mpr (fun _ _ => Stored.entry_injective) ?_
    rw [← entries, List.map_flatten, List.map_map]
    rfl
  · exact nonempty _ (List.mem_map_of_mem member) (by simp [empty])
  · exact List.pairwise_map.mp (opened ▸ before.distinct)
  · exact before.fresh out.1 (opened ▸ List.mem_map_of_mem member)

/-- The outputs of a compaction take the place of its inputs, and what is dropped no live reader misses. -/
theorem install (inv : db.Inv user log) (runs : db.running = some r) {input : List Stored}
    {outs : List (Nat × List Stored)} (reads : r.compaction.Reads user db.files input)
    (opened : outs.map Prod.fst = r.outputs) (wrote : outs.map (fun out => out.2.map Stored.entry) =
      doCompactionWork user r.compaction r.smallestSnapshot o.fileSize (input.map Stored.entry))
    (small : db.lastSequence < kMaxSequenceNumber) (few : db.nextFileNumber < 2 ^ 31) :
    (db.install user o r outs).Inv user log := by
  have before := inv.running r runs
  have finished := inv.finished runs reads opened wrote small
  have prunes := finished.prunes inv.kept inv.distinct_version o.tableSize
  have sub (x) (member : x ∈ (r.compaction.result user db.version r.edit o.tableSize outs).records
      (written db.files outs)) :
        x ∈ db.version.records db.files := ((prunes x.key.userKey).sub x (of_self member)).1
  refine { inv with
    above := inv.above.mono (fun _ member => member) fun x member => ?_
    between := inv.between.mono (fun _ member => member) sub
    kept := finished.kept inv.kept inv.distinct_version few o.tableSize
    serves := fun s live userKey => ?_
    running := fun r' impossible => by simp [Db.install] at impossible }
  · exact (List.mem_append.mp member).elim (List.mem_append_left _) fun new => List.mem_append_right _ (sub x new)
  · have upper : Newer user (db.mem ++ db.imm.getD []) (db.version.records db.files) :=
      fun x member y lower same => (List.mem_append.mp member).elim
        (fun inMem => inv.above x inMem y (List.mem_append_right _ lower) same)
        fun inImm => inv.between x inImm y lower same
    have layers := (inv.serves s live userKey).congr fun x => show Of user userKey db.records x ↔
        Of user userKey (db.mem ++ db.imm.getD []) x ∨ Of user userKey (db.version.records db.files) x by
      rw [Db.records, ← List.append_assoc, of_append]
    refine (layers.prune ((prunes userKey).under (upper.above userKey)) (before.snap s live)).congr fun x => ?_
    rw [← of_append, List.append_assoc]
    rfl

omit trans in
/-- The files of a version in use stay. -/
theorem files_removeObsoleteFiles {held : List Version} {v : Version} {level : Nat} {f : FileMetaData}
    (inUse : v = db.version ∨ ∃ r, db.running = some r ∧ v = r.compaction.inputVersion) (member : f ∈ v.files level)
    (inside : level < kNumLevels) : (db.removeObsoleteFiles held).files f.number = db.files f.number := by
  refine if_pos (List.mem_append_right _ (List.mem_flatMap.mpr ⟨v, ?_, ?_⟩))
  · rcases inUse with rfl | ⟨r, runs, rfl⟩
    · exact List.mem_cons_self ..
    · simp [runs]
  · exact List.mem_flatMap.mpr ⟨level, List.mem_range.mpr inside, List.mem_map_of_mem member⟩

theorem removeObsoleteFiles (inv : db.Inv user log) (held : List Version) :
    (db.removeObsoleteFiles held).Inv user log := by
  have live (level) (f) (member : f ∈ db.version.files level) :
      (db.removeObsoleteFiles held).files f.number = db.files f.number :=
    files_removeObsoleteFiles (Or.inl rfl) member (inv.kept.levels level f member)
  have same : db.version.records (db.removeObsoleteFiles held).files = db.version.records db.files :=
    Version.records_congr live
  have above := inv.above
  have between := inv.between
  have serves := inv.serves
  unfold Db.records at serves
  rw [← same] at above between serves
  refine { inv with
    above := above, between := between, kept := inv.kept.congr live, serves := serves
    running := fun r runs => { inv.running r runs with
      ready := (inv.running r runs).ready.congr live
      sorted := fun level positive => ((inv.running r runs).sorted level positive).congr fun f member => ?_ } }
  exact files_removeObsoleteFiles (Or.inr ⟨r, runs, rfl⟩) member ((inv.running r runs).levels level f member)

omit trans in
theorem nextFileNumber_compactMemTable (imm : List Stored) :
    (db.compactMemTable user o imm).nextFileNumber = db.nextFileNumber + 1 := by
  rw [Db.compactMemTable]
  split <;> rfl

theorem step {db' : Db} (inv : db.Inv user log) (step : Step user o db batch db')
    (small : db.lastSequence < kMaxSequenceNumber) (few : db'.nextFileNumber < 2 ^ 31) :
      db'.Inv user (log ++ batch) := by
  have same := List.append_nil log
  cases step with
  | write numbered => exact inv.write numbered
  | makeRoom free => exact same.symm ▸ inv.makeRoom free
  | compactMemTable full gaps =>
    rw [nextFileNumber_compactMemTable] at few
    exact same.symm ▸ inv.compactMemTable full gaps few
  | getSnapshot => exact same.symm ▸ inv.getSnapshot
  | releaseSnapshot s => exact same.symm ▸ inv.releaseSnapshot s
  | pickCompaction idle inside current picked =>
    obtain ⟨level, version, chosen, solid⟩ := pickCompaction_chosen inv.kept.ordered current picked
    exact same.symm ▸ inv.begin (level.symm ▸ inside) version chosen fun _ => solid
  | compactRange idle inside picked =>
    obtain ⟨level, version, chosen⟩ := compactRange_chosen inv.kept.ordered picked
    exact same.symm ▸ inv.begin (level.symm ▸ inside) version chosen fun impossible => by cases impossible
  | moveFile idle inside current picked trivially only =>
    obtain ⟨level, version, chosen, _⟩ := pickCompaction_chosen inv.kept.ordered current picked
    have ready := chosen.ready version inv.kept.ordered inv.distinct_version (level.symm ▸ inside)
    exact same.symm ▸ inv.moveFile idle ⟨rfl, rfl⟩ ready trivially only few
  | openOutput runs => exact same.symm ▸ inv.openOutput runs
  | install runs reads opened wrote => exact same.symm ▸ inv.install runs reads opened wrote small few
  | abandon => exact same.symm ▸ { inv with running := fun r impossible => by cases impossible }
  | removeObsoleteFiles held => exact same.symm ▸ inv.removeObsoleteFiles held

theorem new : Db.new.Inv user [] where
  numbered := by simp
  last := rfl
  memOrder := List.Pairwise.nil
  immOrder := List.Pairwise.nil
  above := fun _ impossible => absurd impossible List.not_mem_nil
  between := fun _ impossible => absurd impossible List.not_mem_nil
  kept := {
    ordered := ⟨by simp [Db.new], List.Pairwise.nil, fun _ _ => ⟨by simp [Db.new], List.Pairwise.nil, by simp [Db.new]⟩,
      fun impossible => absurd impossible List.not_mem_nil⟩
    ascending := fun _ => List.Pairwise.nil
    numbered := ⟨by simp [Db.new], fun impossible => absurd impossible List.not_mem_nil⟩
    levels := by simp [Db.new] }
  ascending := List.Pairwise.nil
  past := by simp [Db.new]
  serves s _ userKey := ⟨by simp [Of, Db.records, Db.new, Version.records, recordsOf],
    fun r newest => absurd newest.mem.1 List.not_mem_nil⟩
  running r impossible := by cases impossible

end Db.Inv

/-- Numbers only grow. -/
theorem Db.Step.mono {db' : Db} (step : Step user o db batch db') :
    db.lastSequence ≤ db'.lastSequence ∧ db.nextFileNumber ≤ db'.nextFileNumber := by
  cases step with
  | write => exact ⟨Nat.le_add_right _ _, Nat.le_refl _⟩
  | compactMemTable =>
    refine ⟨?_, Nat.le_of_succ_le (Nat.le_of_eq (Inv.nextFileNumber_compactMemTable _).symm)⟩
    rw [Db.compactMemTable]
    split <;> exact Nat.le_refl _
  | makeRoom | openOutput => exact ⟨Nat.le_refl _, Nat.le_succ _⟩
  | _ => exact ⟨Nat.le_refl _, Nat.le_refl _⟩

theorem Db.Reaches.inv (reached : Reaches user o db log) (small : db.lastSequence < kMaxSequenceNumber)
    (few : db.nextFileNumber < 2 ^ 31) : db.Inv user log := by
  induction reached with
  | new => exact .new
  | step before step ih =>
    obtain ⟨last, next⟩ := step.mono
    have small' := Nat.lt_of_le_of_lt last small
    exact (ih small' (Nat.lt_of_le_of_lt next few)).step step small' few

end Steps

section Reads

variable {user : Comparator} [Std.TransCmp user.compare] {o : StoreOptions} {db : Db} {log : List Stored} {s : Nat}
  {userKey : List Byte}
  {tableGet : List Stored → List Byte → Status × Option (List Byte × List Byte)}

/-- A read goes through the layers until one has something to say. -/
theorem Db.Inv.get_answered (inv : db.Inv user log) (small : s ≤ kMaxSequenceNumber)
    (tables : ∀ level, ∀ f ∈ db.version.files level, GetsFrom user (db.files f.number) userKey s
      (tableGet (db.files f.number) (seekKey userKey s))) :
    Answered Stored.sequence Stored.answer (notFound, none) (Of user userKey db.records) s
      (db.get user tableGet userKey s) := by
  have whole (r) : Of user userKey db.records r ↔ Of user userKey db.mem r ∨
      Of user userKey (db.imm.getD [] ++ db.version.records db.files) r := of_append
  have rest (r) : Of user userKey (db.imm.getD [] ++ db.version.records db.files) r ↔
      Of user userKey (db.imm.getD []) r ∨ Of user userKey (db.version.records db.files) r := of_append
  rw [Db.get]
  rcases MemTable.get_spec inv.memOrder small userKey with ⟨r, newest, result⟩ | ⟨unseen, result⟩
  · rw [result]
    exact Or.inl ⟨r, newest.above (inv.above.above userKey) whole, rfl⟩
  rw [result]
  refine Answered.below unseen whole ?_
  have second : db.imm.bind (fun imm => MemTable.get user imm userKey s) = MemTable.get user
      (db.imm.getD []) userKey s := by
    cases db.imm <;> rfl
  dsimp only
  rw [second]
  rcases MemTable.get_spec inv.immOrder small userKey with ⟨r, newest, result⟩ | ⟨unseen, result⟩
  · rw [result]
    exact Or.inl ⟨r, newest.above (inv.between.above userKey) rest, rfl⟩
  rw [result]
  refine Answered.below unseen rest ?_
  exact inv.kept.ordered.get _ small tables

theorem Db.Inv.lookup_answered_records (inv : db.Inv user log) (live : db.Live s) (userKey : List Byte) :
    Answered Stored.sequence Stored.answer (notFound, none) (Of user userKey db.records) s
      (Db.lookup user (log.take s) userKey) := by
  have absence (r : Stored) (marks : r.isDeletion) : r.answer = (notFound, none) := by
    rw [Stored.isDeletion] at marks
    simp [Stored.answer, marks]
  exact (inv.serves s live userKey).answered absence (Db.lookup_answered inv.numbered s userKey)

theorem Db.Inv.reads (inv : db.Inv user log) (small : db.lastSequence < kMaxSequenceNumber) (live : db.Live s)
    (tables : ∀ level, ∀ f ∈ db.version.files level, GetsFrom user (db.files f.number) userKey s
      (tableGet (db.files f.number) (seekKey userKey s))) :
    db.get user tableGet userKey s = Db.lookup user (log.take s) userKey := by
  have bound : s ≤ kMaxSequenceNumber := Nat.le_trans (inv.live_le live) (Nat.le_of_lt small)
  refine Answered.unique (fun a b first second same => ?_) (inv.get_answered bound tables)
    (inv.lookup_answered_records live userKey)
  exact sequence_injective inv.numbered (inv.source first.1) (inv.source second.1) same

/-- In every state that a store comes to, in any order of its steps, a read at the last sequence number or at a
snapshot gives what the writes up to there left, provided that the tables give back what was written to them. -/
theorem Db.Reaches.get_eq_lookup (reached : Reaches user o db log) (small : db.lastSequence < kMaxSequenceNumber)
    (few : db.nextFileNumber < 2 ^ 31) (live : db.Live s)
    (tables : ∀ level, ∀ f ∈ db.version.files level, GetsFrom user (db.files f.number) userKey s
      (tableGet (db.files f.number) (seekKey userKey s))) :
    db.get user tableGet userKey s = Db.lookup user (log.take s) userKey :=
  (reached.inv small few).reads small live tables

end Reads

section Run

/-- A value that is overwritten while a snapshot holds it, with the memtable written in between. -/
theorem Db.Reaches.get_eq_lookup_snapshot :
    let o : StoreOptions := ⟨2 ^ 21, fun _ => 0, fun entries => entries.length⟩
    let first : Stored := ⟨⟨[97#8], 1, .value⟩, [1#8], by decide⟩
    let second : Stored := ⟨⟨[97#8], 2, .deletion⟩, [], by decide⟩
    ∃ db, Reaches bytewiseComparator o db [first, second] ∧
      db.get bytewiseComparator (searchTable bytewiseComparator) [97#8] 1 = (.ok, some [1#8]) ∧
      db.get bytewiseComparator (searchTable bytewiseComparator) [97#8] 2 = (notFound, none) := by
  intro o first second
  have start : Reaches bytewiseComparator o .new [] := .new
  have written := start.step (.write (Db.numbered_of_map (show [first].map Stored.sequence = _ from rfl)))
  have kept := Reaches.step (Reaches.step (Reaches.step written .getSnapshot) (.makeRoom rfl))
    (.compactMemTable rfl fun r impossible => by cases impossible)
  have reached := Reaches.step kept (.write (Db.numbered_of_map (show [second].map Stored.sequence = _ from rfl)))
  refine ⟨_, reached, ?_, ?_⟩
  · refine (reached.get_eq_lookup (by decide) (by decide) (Or.inr (by decide)) fun _ _ _ =>
      searchTable_getsFrom ..).trans ?_
    decide
  · refine (reached.get_eq_lookup (by decide) (by decide) (Or.inl rfl) fun _ _ _ => searchTable_getsFrom ..).trans ?_
    decide

end Run

end WormholeFilters.LevelDb
