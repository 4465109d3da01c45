import WormholeFilters.DbIter
import WormholeFilters.DbRefinement

/-! Iterators over the store, `DBImpl::NewIterator`: memtables and tables merged, with what a reader sees of them. -/
namespace WormholeFilters.LevelDb

open LittleEndian
open Env (Status)
open Multiversion (Newest Unseen Answered)

inductive Layer where
  | memTable (records : List Stored)
  | file (f : FileMetaData)
  | level (files : List FileMetaData)

def Layer.records (recs : Nat → List Stored) : Layer → List Stored
  | memTable records => records
  | file f => recs f.number
  | level files => recordsOf recs files

def Version.addIterators (v : Version) : List Layer :=
  (v.files 0).map .file ++
    ((List.range' 1 (kNumLevels - 1)).filter fun level => v.files level ≠ []).map fun level => .level (v.files level)

def Db.newInternalIterator (db : Db) : List Layer :=
  .memTable db.mem :: (db.imm.toList.map .memTable ++ db.version.addIterators)

/-- The iterator of a memtable, with its entries and its place in them. -/
def memTableIterator (c : Comparator) : Iterator (List (List Byte × List Byte) × Nat) where
  valid s := decide (s.2 < s.1.length)
  key s := (s.1[s.2]?.map Prod.fst).getD []
  value s := (s.1[s.2]?.map Prod.snd).getD []
  status _ := .ok
  call call s := (s.1, Cursors.move c.compare s.1 call s.2)

section Scan

variable {user : Comparator} [trans : Std.TransCmp user.compare] {db : Db} {log : List Stored} {v : Version}
  {recs : Nat → List Stored}
  {next : Nat} {A B records : List Stored}

theorem Newer.disjoint (newer : Newer user A B) {r : Stored} (member : r ∈ A) : r ∉ B :=
  fun other => Nat.lt_irrefl _ (newer r member r other Std.ReflCmp.compare_self)

structure Layered (user : Comparator) (recs : Nat → List Stored) (layers : List Layer) : Prop where
  order : ∀ layer ∈ layers, InOrder user (layer.records recs)
  disjoint : layers.Pairwise fun A B => ∀ r ∈ A.records recs, r ∉ B.records recs

omit trans in
theorem Version.Kept.mem_layers (kept : v.Kept user recs next) {r : Stored} :
    (∃ layer ∈ v.addIterators, r ∈ layer.records recs) ↔ r ∈ v.records recs := by
  rw [kept.mem_records]
  constructor
  · rintro ⟨layer, member, inside⟩
    rcases List.mem_append.mp member with zero | deeper
    · obtain ⟨f, inLevel, rfl⟩ := List.mem_map.mp zero
      exact ⟨0, f, inLevel, inside⟩
    · obtain ⟨level, _, rfl⟩ := List.mem_map.mp deeper
      obtain ⟨f, inLevel, present⟩ := List.mem_flatMap.mp inside
      exact ⟨level, f, inLevel, present⟩
  · rintro ⟨level, f, inLevel, inside⟩
    rcases Nat.eq_zero_or_pos level with rfl | positive
    · exact ⟨.file f, List.mem_append_left _ (List.mem_map_of_mem inLevel), inside⟩
    · refine ⟨.level (v.files level), List.mem_append_right _ (List.mem_map_of_mem ?_),
        List.mem_flatMap.mpr ⟨f, inLevel, inside⟩⟩
      have bound := kept.levels level f inLevel
      simp only [List.mem_filter, List.mem_range'_1, decide_eq_true_eq]
      exact ⟨⟨positive, by simpa [kNumLevels] using bound⟩, List.ne_nil_of_mem inLevel⟩

/-- Of two files of level 0 one has only newer records. -/
theorem Version.Ordered.zero_disjoint (ordered : v.Ordered user recs) {files : List FileMetaData}
    (present : ∀ f ∈ files, f ∈ v.files 0) (numbers : files.Pairwise fun f g => f.number ≠ g.number) :
    (files.map Layer.file).Pairwise fun A B => ∀ r ∈ A.records recs, r ∉ B.records recs := by
  refine List.pairwise_map.mpr (numbers.imp_of_mem fun {f g} first second different r member other => ?_)
  rcases Nat.lt_or_gt_of_ne different with less | greater
  · exact (ordered.order (present g second) (present f first) (Or.inr ⟨rfl, rfl, less⟩)).disjoint other member
  · exact (ordered.order (present f first) (present g second) (Or.inr ⟨rfl, rfl, greater⟩)).disjoint member other

theorem Version.Kept.layered (kept : v.Kept user recs next) : Layered user recs v.addIterators where
  order layer member := by
    rcases List.mem_append.mp member with zero | deeper
    · obtain ⟨f, inLevel, rfl⟩ := List.mem_map.mp zero
      exact (kept.ordered.file f inLevel).order
    · obtain ⟨level, listed, rfl⟩ := List.mem_map.mp deeper
      have positive := (List.mem_range'_1.mp (List.mem_filter.mp listed).1).1
      exact (kept.ordered.sorted level positive).inOrder
  disjoint := by
    refine List.pairwise_append.mpr ⟨kept.ordered.zero_disjoint (fun _ member => member) kept.ordered.numbers,
      List.pairwise_map.mpr ?_, fun A first B second r member => ?_⟩
    · refine (List.Pairwise.filter _ List.pairwise_lt_range').imp fun before r member => ?_
      exact (kept.ordered.above before).disjoint member
    · obtain ⟨f, inLevel, rfl⟩ := List.mem_map.mp first
      obtain ⟨level, listed, rfl⟩ := List.mem_map.mp second
      have positive := (List.mem_range'_1.mp (List.mem_filter.mp listed).1).1
      exact (kept.ordered.above positive).disjoint (List.mem_flatMap.mpr ⟨f, inLevel, member⟩)

/-- Records with numbers of their own can be listed in order. -/
theorem exists_inOrder (distinct : Distinct user records) :
    ∃ sorted, InOrder user sorted ∧ ∀ r, r ∈ sorted ↔ r ∈ records := by
  induction records with
  | nil => exact ⟨[], List.Pairwise.nil, fun _ => Iff.rfl⟩
  | cons r records ih =>
    obtain ⟨sorted, order, mem_iff⟩ := ih fun a first b second =>
      distinct a (List.mem_cons_of_mem _ first) b (List.mem_cons_of_mem _ second)
    refine ⟨MemTable.add user sorted r, MemTable.inOrder_add order r, fun x => ?_⟩
    have inserted : x ∈ MemTable.add user sorted r ↔ x = r ∨ x ∈ sorted := by
      refine OrderedSets.mem_insert_iff fun z member same => ?_
      obtain ⟨users, numbers⟩ := sequence_eq_of_compareStored same
      exact (distinct r (List.mem_cons_self ..) z (List.mem_cons_of_mem _ ((mem_iff z).mp member)) users numbers).symm
    rw [inserted, mem_iff, List.mem_cons]

/-- Records of the log with different keys are no more than it has. -/
theorem InOrder.length_le (order : InOrder user records) (source : ∀ r ∈ records, r ∈ log) :
    records.length ≤ log.length := by
  have keys : Std.TransCmp (internalKeyComparator user).compare := InternalKeyComparator.transCmp trans
  have nodup : records.Nodup := (List.pairwise_map.mp order).imp fun less same => by
    subst same
    exact keys.not_lt_of_lt less less
  exact nodup.length_le_of_subset source

variable (user) in
/-- The records of some layers can be listed in order. -/
theorem exists_merged {layers : List Layer} (numbered : ∀ (i : Nat) (r : Stored), log[i]? = some r → r.sequence = i + 1)
    (source : ∀ layer ∈ layers, ∀ r ∈ layer.records recs, r ∈ log) :
    ∃ records, InOrder user records ∧ (∀ r, r ∈ records ↔ ∃ layer ∈ layers, r ∈ layer.records recs) ∧
      records.length ≤ log.length := by
  have fromLog (r) (member : r ∈ layers.flatMap (Layer.records recs)) : r ∈ log := by
    obtain ⟨layer, isLayer, inside⟩ := List.mem_flatMap.mp member
    exact source layer isLayer r inside
  have distinct : Distinct user (layers.flatMap (Layer.records recs)) := fun a first b second _ same =>
    sequence_injective numbered (fromLog a first) (fromLog b second) same
  obtain ⟨records, order, mem_iff⟩ := exists_inOrder distinct
  refine ⟨records, order, fun r => (mem_iff r).trans List.mem_flatMap, order.length_le fun r member => ?_⟩
  exact fromLog r ((mem_iff r).mp member)

omit trans in
/-- Layers of records with numbers of their own merge into the records in order. -/
theorem Layered.merged {layers : List Layer} (layered : Layered user recs layers)
    (numbered : ∀ (i : Nat) (r : Stored), log[i]? = some r → r.sequence = i + 1)
    (source : ∀ layer ∈ layers, ∀ r ∈ layer.records recs, r ∈ log) (order : InOrder user records)
    (mem_iff : ∀ r, r ∈ records ↔ ∃ layer ∈ layers, r ∈ layer.records recs) :
    Cursors.Merged (internalKeyComparator user).compare
      (fun k : Fin layers.length => ((layers.get k).records recs).map Stored.entry) (records.map Stored.entry) where
  sorted := order
  parts k := layered.order _ (List.get_mem ..)
  mem_iff e := by
    simp only [List.mem_map, mem_iff]
    constructor
    · rintro ⟨r, ⟨layer, member, inside⟩, rfl⟩
      obtain ⟨k, rfl⟩ := List.mem_iff_get.mp member
      exact ⟨k, r, inside, rfl⟩
    · rintro ⟨k, r, inside, rfl⟩
      exact ⟨r, ⟨_, List.get_mem .., inside⟩, rfl⟩
  apart {k l e f} different first second same := by
    obtain ⟨a, inA, rfl⟩ := List.mem_map.mp first
    obtain ⟨b, inB, rfl⟩ := List.mem_map.mp second
    obtain rfl := sequence_injective numbered (source _ (List.get_mem ..) a inA) (source _ (List.get_mem ..) b inB)
      (sequence_eq_of_compareStored same).2
    have disjoint := List.pairwise_iff_get.mp layered.disjoint
    rcases Nat.lt_or_gt_of_ne (Fin.val_ne_of_ne different) with less | greater
    · exact disjoint k l less a inA inB
    · exact disjoint l k greater a inB inA

namespace Db.Inv

theorem mem_layers (inv : db.Inv user log) {r : Stored} :
    (∃ layer ∈ db.newInternalIterator, r ∈ layer.records db.files) ↔ r ∈ db.records := by
  have below := inv.kept.mem_layers (r := r)
  simp only [Db.newInternalIterator, Db.records, List.mem_cons, List.mem_append, ← below]
  cases db.imm with
  | none => simp [Layer.records]
  | some imm => simp [Layer.records, or_and_right, exists_or]

theorem layered (inv : db.Inv user log) : Layered user db.files db.newInternalIterator where
  order layer member := by
    rcases List.mem_cons.mp member with rfl | rest
    · exact inv.memOrder
    · rcases List.mem_append.mp rest with inImm | deeper
      · obtain ⟨imm, isImm, rfl⟩ := List.mem_map.mp inImm
        have order := inv.immOrder
        rwa [Option.mem_toList.mp isImm] at order
      · exact inv.kept.layered.order layer deeper
  disjoint := by
    have lower {B : Layer} (member : B ∈ db.version.addIterators) {r : Stored} (inside : r ∈ B.records db.files) :
        r ∈ db.version.records db.files := inv.kept.mem_layers.mp ⟨B, member, inside⟩
    have between := inv.between
    have above := inv.above
    refine List.pairwise_cons.mpr ⟨fun B member r inside other => above.disjoint inside ?_, ?_⟩
    · rcases List.mem_append.mp member with inImm | deeper
      · obtain ⟨imm, isImm, rfl⟩ := List.mem_map.mp inImm
        rw [Option.mem_toList.mp isImm]
        exact List.mem_append_left _ other
      · exact List.mem_append_right _ (lower deeper other)
    · refine List.pairwise_append.mpr ⟨?_, inv.kept.layered.disjoint, fun A inImm B deeper r inside other => ?_⟩
      · cases db.imm <;> simp
      · obtain ⟨imm, isImm, rfl⟩ := List.mem_map.mp inImm
        rw [Option.mem_toList.mp isImm] at between
        exact between.disjoint inside (lower deeper other)

/-- What a reader sees of the records is what the writes left. -/
theorem view_spec (inv : db.Inv user log) {s : Nat} (live : db.Live s) (order : InOrder user records)
    (mem_iff : ∀ r, r ∈ records ↔ r ∈ db.records) (userKey value : List Byte) :
    ((userKey, value) ∈ view user s records → Db.lookup user (log.take s) userKey = (.ok, some value)) ∧
      (Db.lookup user (log.take s) userKey = (.ok, some value) →
        ∃ k, user.compare k userKey = .eq ∧ (k, value) ∈ view user s records) := by
  have spec := inv.lookup_answered_records live userKey
  have distinct : ∀ a b, Of user userKey db.records a → Of user userKey db.records b →
      a.sequence = b.sequence → a = b :=
    fun a b first second => sequence_injective inv.numbered (inv.source first.1) (inv.source second.1)
  constructor
  · intro seen
    obtain ⟨r, member, rfl, rfl, visible, isValue, newest⟩ := (mem_view_iff order userKey value).mp seen
    have answer : r.answer = (.ok, some r.value) := by simp [Stored.answer, isValue]
    refine answer ▸ Answered.unique distinct spec (Or.inl ⟨r, ⟨⟨(mem_iff r).mp member, Std.ReflCmp.compare_self⟩,
      of_decide_eq_true visible, fun f isOf before => ?_⟩, rfl⟩)
    have tags := newest f ((mem_iff f).mpr isOf.1) (decide_eq_true before) isOf.2
    rcases Nat.eq_or_lt_of_le tags with equal | less
    · rw [Stored.tag_eq, Stored.tag_eq] at equal
      have small : f.key.type.toNat < 256 := by cases f.key.type <;> decide
      have small' : r.key.type.toNat < 256 := by cases r.key.type <;> decide
      simp only [Stored.sequence]
      omega
    · exact Stored.sequence_le_of_tag_lt less
  · intro found
    rw [found] at spec
    rcases spec with ⟨r, newest, answer⟩ | ⟨_, absent⟩
    · have isValue : r.key.type = .value := by
        cases type : r.key.type with
        | value => rfl
        | deletion => simp [Stored.answer, type] at answer
      have same : r.value = value := by
        simp only [Stored.answer, isValue, Prod.mk.injEq, Option.some.injEq, true_and] at answer
        exact answer.symm
      refine ⟨r.key.userKey, newest.mem.2, (mem_view_iff order _ value).mpr ⟨r, (mem_iff r).mpr newest.mem.1, rfl, same,
        decide_eq_true newest.visible, isValue, fun f member visible users => ?_⟩⟩
      have isOf : Of user userKey db.records f := ⟨(mem_iff f).mp member, Std.TransCmp.eq_trans users newest.mem.2⟩
      have le := newest.max f isOf (of_decide_eq_true visible)
      rcases Nat.eq_or_lt_of_le le with equal | less
      · rw [distinct f r isOf newest.mem equal]
      · have first := f.tag_eq
        have second := r.tag_eq
        have small : f.key.type.toNat < 256 := by cases f.key.type <;> decide
        simp only [Stored.sequence] at less
        omega
    · cases absent

end Db.Inv

end Scan

/-- An iterator goes through the user keys in order, forwards and backwards and from where it is sought, and
shows exactly what the writes left. -/
def Db.Scans {σ : Type} (user : Comparator) (log : List Stored) (it : Iterator σ) (start : σ) : Prop :=
  ∃ entries : List (List Byte × List Byte), Cursors.Sorted user.compare entries ∧
    (∀ userKey value, ((userKey, value) ∈ entries → Db.lookup user log userKey = (.ok, some value)) ∧
      (Db.lookup user log userKey = (.ok, some value) → ∃ k, user.compare k userKey = .eq ∧ (k, value) ∈ entries)) ∧
    ∀ calls, Cursors.AllowedAll user.compare entries calls entries.length →
      let state := calls.foldl (fun x call => it.call call x) start
      it.status state = .ok ∧ it.iter.shown state =
        entries[calls.foldl (fun i call => Cursors.move user.compare entries call i) entries.length]?

section Iterate

open MergingIter (newMerging newMergingIterator)

variable {user : Comparator} [trans : Std.TransCmp user.compare] {o : StoreOptions} {db : Db} {log : List Stored}
  {s : Nat} {σ : Type} {it : Iterator σ} {children : Fin db.newInternalIterator.length → σ}
  {pos : Fin db.newInternalIterator.length → σ → Nat → Prop} {fuel : Nat}

/-- Over children that simulate the layers, the iterator scans the store. -/
theorem Db.Inv.scans (inv : db.Inv user log) (small : db.lastSequence < kMaxSequenceNumber) (live : db.Live s)
    (sims : ∀ k, Cursors.Simulates it.iter (internalKeyComparator user).compare
      (((db.newInternalIterator.get k).records db.files).map Stored.entry) (pos k))
    (stand : ∀ k, ∃ i, pos k (children k) i) (enough : log.length ≤ fuel) :
    Db.Scans user (log.take s) (DbIter.iterator user (newMergingIterator (internalKeyComparator user) it _) s fuel)
      (DbIter.init (newMerging children)) := by
  have keys : Std.TransCmp (internalKeyComparator user).compare := InternalKeyComparator.transCmp trans
  have bound : s ≤ kMaxSequenceNumber := Nat.le_trans (inv.live_le live) (Nat.le_of_lt small)
  have source (layer) (member : layer ∈ db.newInternalIterator) (r) (inside : r ∈ layer.records db.files) : r ∈ log :=
    inv.source (inv.mem_layers.mp ⟨layer, member, inside⟩)
  obtain ⟨records, order, inLayers, length⟩ := exists_merged user inv.numbered source
  have mem_iff (r) : r ∈ records ↔ r ∈ db.records := (inLayers r).trans inv.mem_layers
  have merged := inv.layered.merged inv.numbered source order inLayers
  obtain ⟨newAt, merging, i, stands⟩ := MergingIter.new_simulates keys merged sims stand
  have scanning := DbIter.simulates merging order trans bound (Nat.le_trans length enough)
  have start : DbIter.At user s records newAt (DbIter.init (newMerging children)) (view user s records).length :=
    .none rfl stands rfl
  refine ⟨view user s records, view_sorted order, inv.view_spec live order mem_iff, fun calls allowed => ?_⟩
  have reached := scanning.run calls start allowed
  exact ⟨(Iterator.iter_ok _ _).mp (scanning.ok reached), scanning.shown reached⟩

/-- In every state that a store comes to, an iterator at the last sequence number or at a snapshot scans what
the writes up to there left. -/
theorem Db.Reaches.iterator_shows_lookup (reached : Reaches user o db log)
    (small : db.lastSequence < kMaxSequenceNumber) (few : db.nextFileNumber < 2 ^ 31) (live : db.Live s)
    (sims : ∀ k, Cursors.Simulates it.iter (internalKeyComparator user).compare
      (((db.newInternalIterator.get k).records db.files).map Stored.entry) (pos k))
    (stand : ∀ k, ∃ i, pos k (children k) i) (enough : log.length ≤ fuel) :
    Db.Scans user (log.take s) (DbIter.iterator user (newMergingIterator (internalKeyComparator user) it _) s fuel)
      (DbIter.init (newMerging children)) :=
  (reached.inv small few).scans small live sims stand enough

/-- The iterator of a memtable is a cursor over its entries. -/
theorem memTableIterator_simulates (c : Comparator) (entries : List (List Byte × List Byte)) :
    Cursors.Simulates (memTableIterator c).iter c.compare entries fun x i => x = (entries, i) ∧ i ≤ entries.length where
  le here := here.2
  shown {x i} here := by
    obtain ⟨rfl, le⟩ := here
    rcases Nat.lt_or_ge i entries.length with inside | outside
    · simp [Cursors.Iter.shown, memTableIterator, Iterator.iter, inside]
    · simp [Cursors.Iter.shown, memTableIterator, Iterator.iter, Nat.not_lt.mpr outside]
  ok _ := rfl
  step {x i} call here allowed := by
    obtain ⟨rfl, le⟩ := here
    exact ⟨rfl, Cursors.move_le allowed⟩

/-- A memtable and a table: a snapshot taken before a deletion still shows the value. -/
theorem Db.Reaches.iterator_shows_lookup_snapshot :
    let o : StoreOptions := ⟨2 ^ 21, fun _ => 0, fun entries => entries.length⟩
    let first : Stored := ⟨⟨[97#8], 1, .value⟩, [1#8], by decide⟩
    let second : Stored := ⟨⟨[97#8], 2, .deletion⟩, [], by decide⟩
    ∃ db, Reaches bytewiseComparator o db [first, second] ∧
      db.newInternalIterator.map (Layer.records db.files) = [[second], [first]] ∧
      Db.Scans bytewiseComparator [first]
        (DbIter.iterator bytewiseComparator (newMergingIterator (internalKeyComparator bytewiseComparator)
          (memTableIterator (internalKeyComparator bytewiseComparator)) db.newInternalIterator.length) 1 2)
        (DbIter.init (newMerging fun k =>
          (((db.newInternalIterator.get k).records db.files).map Stored.entry, 0))) := by
  intro o first second
  have start : Reaches bytewiseComparator o .new [] := .new
  have written := start.step (.write (Db.numbered_of_map (show [first].map Stored.sequence = _ from rfl)))
  have kept := Reaches.step (Reaches.step (Reaches.step written .getSnapshot) (.makeRoom rfl))
    (.compactMemTable rfl fun r impossible => by cases impossible)
  have reached := Reaches.step kept (.write (Db.numbered_of_map (show [second].map Stored.sequence = _ from rfl)))
  refine ⟨_, reached, by decide, ?_⟩
  exact reached.iterator_shows_lookup (s := 1) (by decide) (by decide) (Or.inr (by decide))
    (fun _ => memTableIterator_simulates (internalKeyComparator bytewiseComparator) _)
    (fun _ => ⟨0, rfl, Nat.zero_le _⟩) (Nat.le_refl 2)

end Iterate

end WormholeFilters.LevelDb
