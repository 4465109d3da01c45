import WormholeFilters.Coding
import WormholeFilters.OrderedSets
import WormholeFilters.Version

/-! db/version_edit.h and db/version_edit.cc: the records of the manifest. A number that is
not set is `none`. -/
namespace WormholeFilters.LevelDb

open LittleEndian
open Env (Status)
open OrderedSets (Ascending)

def compareDeleted (a b : Nat × Nat) : Ordering := (Ord.compare a.1 b.1).then (Ord.compare a.2 b.2)

instance : Std.TransCmp compareDeleted :=
  inferInstanceAs (Std.TransCmp (compareLex (compareOn Prod.fst) (compareOn Prod.snd)))

structure VersionEdit where
  comparator : Option (List Byte) := none
  logNumber : Option Nat := none
  prevLogNumber : Option Nat := none
  nextFileNumber : Option Nat := none
  lastSequence : Option Nat := none
  compactPointers : List (Nat × List Byte) := []
  deletedFiles : List (Nat × Nat) := []
  newFiles : List (Nat × FileMetaData) := []
  deriving DecidableEq, Repr

namespace VersionEdit

def setCompactPointer (e : VersionEdit) (level : Nat) (key : List Byte) : VersionEdit :=
  { e with compactPointers := e.compactPointers ++ [(level, key)] }

def addFile (e : VersionEdit) (level : Nat) (f : FileMetaData) : VersionEdit :=
  { e with newFiles := e.newFiles ++ [(level, f)] }

def removeFile (e : VersionEdit) (level file : Nat) : VersionEdit :=
  { e with deletedFiles := OrderedSets.insert compareDeleted (level, file) e.deletedFiles }

def kComparator : Nat := 1
def kLogNumber : Nat := 2
def kNextFileNumber : Nat := 3
def kLastSequence : Nat := 4
def kCompactPointer : Nat := 5
def kDeletedFile : Nat := 6
def kNewFile : Nat := 7
def kPrevLogNumber : Nat := 9

def putNumber (tag : Nat) (number : Option Nat) (dst : List Byte) : List Byte :=
  match number with
  | some n => putVarint64 (putVarint32 dst tag) n
  | none => dst

def encodeTo (e : VersionEdit) (dst : List Byte) : List Byte :=
  let dst := match e.comparator with
    | some name => putLengthPrefixedSlice (putVarint32 dst kComparator) name
    | none => dst
  let dst := putNumber kLogNumber e.logNumber dst
  let dst := putNumber kPrevLogNumber e.prevLogNumber dst
  let dst := putNumber kNextFileNumber e.nextFileNumber dst
  let dst := putNumber kLastSequence e.lastSequence dst
  let dst := e.compactPointers.foldl (fun dst (level, key) =>
    putLengthPrefixedSlice (putVarint32 (putVarint32 dst kCompactPointer) level) key) dst
  let dst := e.deletedFiles.foldl (fun dst (level, number) =>
    putVarint64 (putVarint32 (putVarint32 dst kDeletedFile) level) number) dst
  e.newFiles.foldl (fun dst (level, f) =>
    putLengthPrefixedSlice
    (putLengthPrefixedSlice (putVarint64 (putVarint64 (putVarint32 (putVarint32 dst kNewFile) level)
      f.number) f.fileSize) f.smallest) f.largest) dst

def getInternalKey (input : List Byte) : Option (List Byte × List Byte) :=
  (getLengthPrefixedSlice input).filter fun (str, _) => str ≠ []

def getLevel (input : List Byte) : Option (Nat × List Byte) :=
  (getVarint32 input).filter fun (v, _) => v < kNumLevels

/-- The field behind a tag. The text names a field that cannot be read. -/
def decodeField (tag : Nat) (input : List Byte) (e : VersionEdit) : Except String (VersionEdit × List Byte) :=
  if tag = kComparator then
    match getLengthPrefixedSlice input with
    | some (str, input) => .ok ({ e with comparator := some str }, input)
    | none => .error "comparator name"
  else if tag = kLogNumber then
    match getVarint64 input with
    | some (number, input) => .ok ({ e with logNumber := some number }, input)
    | none => .error "log number"
  else if tag = kPrevLogNumber then
    match getVarint64 input with
    | some (number, input) => .ok ({ e with prevLogNumber := some number }, input)
    | none => .error "previous log number"
  else if tag = kNextFileNumber then
    match getVarint64 input with
    | some (number, input) => .ok ({ e with nextFileNumber := some number }, input)
    | none => .error "next file number"
  else if tag = kLastSequence then
    match getVarint64 input with
    | some (number, input) => .ok ({ e with lastSequence := some number }, input)
    | none => .error "last sequence number"
  else if tag = kCompactPointer then
    match (do
      let (level, input) ← getLevel input
      let (key, input) ← getInternalKey input
      return (e.setCompactPointer level key, input)) with
    | some result => .ok result
    | none => .error "compaction pointer"
  else if tag = kDeletedFile then
    match (do
      let (level, input) ← getLevel input
      let (number, input) ← getVarint64 input
      return (e.removeFile level number, input)) with
    | some result => .ok result
    | none => .error "deleted file"
  else if tag = kNewFile then
    match (do
      let (level, input) ← getLevel input
      let (number, input) ← getVarint64 input
      let (fileSize, input) ← getVarint64 input
      let (smallest, input) ← getInternalKey input
      let (largest, input) ← getInternalKey input
      return (e.addFile level ⟨number, fileSize, smallest, largest⟩, input)) with
    | some result => .ok result
    | none => .error "new-file entry"
  else .error "unknown tag"

/-- Every field takes a byte at least. -/
def decodeLoop : Nat → List Byte → VersionEdit → Except String VersionEdit
  | 0, input, e => if input = [] then .ok e else .error "invalid tag"
  | fuel + 1, input, e =>
    match getVarint32 input with
    | none => if input = [] then .ok e else .error "invalid tag"
    | some (tag, rest) =>
      match decodeField tag rest e with
      | .ok (e, rest) => decodeLoop fuel rest e
      | .error msg => .error msg

def decodeFrom (src : List Byte) : Except Status VersionEdit :=
  match decodeLoop src.length src {} with
  | .ok e => .ok e
  | .error msg => .error (.corruption ("VersionEdit: " ++ msg))

inductive Field where
  | comparator (name : List Byte)
  | logNumber (number : Nat)
  | prevLogNumber (number : Nat)
  | nextFileNumber (number : Nat)
  | lastSequence (number : Nat)
  | compactPointer (level : Nat) (key : List Byte)
  | deletedFile (level number : Nat)
  | newFile (level : Nat) (f : FileMetaData)

def keyCode (key : List Byte) : List Byte := putLengthPrefixedSlice [] key

namespace Field

def tag : Field → Nat
  | comparator _ => kComparator
  | logNumber _ => kLogNumber
  | prevLogNumber _ => kPrevLogNumber
  | nextFileNumber _ => kNextFileNumber
  | lastSequence _ => kLastSequence
  | compactPointer _ _ => kCompactPointer
  | deletedFile _ _ => kDeletedFile
  | newFile _ _ => kNewFile

def body : Field → List Byte
  | comparator name => keyCode name
  | logNumber number | prevLogNumber number | nextFileNumber number | lastSequence number => encodeVarint64 number
  | compactPointer level key => encodeVarint32 level ++ keyCode key
  | deletedFile level number => encodeVarint32 level ++ encodeVarint64 number
  | newFile level f => encodeVarint32 level ++ encodeVarint64 f.number ++ encodeVarint64 f.fileSize ++
      keyCode f.smallest ++ keyCode f.largest

def code (x : Field) : List Byte := encodeVarint32 x.tag ++ x.body

def apply (e : VersionEdit) : Field → VersionEdit
  | comparator name => { e with comparator := some name }
  | logNumber number => { e with logNumber := some number }
  | prevLogNumber number => { e with prevLogNumber := some number }
  | nextFileNumber number => { e with nextFileNumber := some number }
  | lastSequence number => { e with lastSequence := some number }
  | compactPointer level key => e.setCompactPointer level key
  | deletedFile level number => e.removeFile level number
  | newFile level f => e.addFile level f

def IsKey (key : List Byte) : Prop := key ≠ [] ∧ key.length < 2 ^ 32

/-- The field can be read back. -/
def Valid : Field → Prop
  | comparator name => name.length < 2 ^ 32
  | logNumber number | prevLogNumber number | nextFileNumber number | lastSequence number => number < 2 ^ 64
  | compactPointer level key => level < kNumLevels ∧ IsKey key
  | deletedFile level number => level < kNumLevels ∧ number < 2 ^ 64
  | newFile level f => level < kNumLevels ∧ f.number < 2 ^ 64 ∧ f.fileSize < 2 ^ 64 ∧ IsKey f.smallest ∧ IsKey f.largest

end Field

def fields (e : VersionEdit) : List Field :=
  e.comparator.toList.map .comparator ++ e.logNumber.toList.map .logNumber ++
  e.prevLogNumber.toList.map .prevLogNumber ++
    e.nextFileNumber.toList.map .nextFileNumber ++ e.lastSequence.toList.map .lastSequence ++
    e.compactPointers.map (fun x => .compactPointer x.1 x.2) ++ e.deletedFiles.map (fun x => .deletedFile x.1 x.2) ++
    e.newFiles.map (fun x => .newFile x.1 x.2)

structure Valid (e : VersionEdit) : Prop where
  fields : ∀ x ∈ e.fields, x.Valid
  deleted : Ascending compareDeleted e.deletedFiles

section RoundTrip

variable {e : VersionEdit} {x : Field} {rest : List Byte}

theorem foldl_put {α : Type} {put : List Byte → α → List Byte} {code : α → List Byte}
    (each : ∀ dst a, put dst a = dst ++ code a) (items : List α) (dst : List Byte) :
    items.foldl put dst = dst ++ items.flatMap code := by
  induction items generalizing dst with
  | nil => simp
  | cons a items ih => simp [ih, each]

theorem put_keyCode (dst key : List Byte) : putLengthPrefixedSlice dst key = dst ++ keyCode key :=
  putLengthPrefixedSlice_eq dst key

theorem putNumber_eq (field : Nat → Field) (tag : Nat)
    (same : ∀ number, (field number).code = encodeVarint32 tag ++ encodeVarint64 number) (number : Option Nat)
    (dst : List Byte) :
    putNumber tag number dst = dst ++ (number.toList.map field).flatMap Field.code := by
  cases number <;> simp [putNumber, same, putVarint32, putVarint64]

theorem encodeTo_eq (e : VersionEdit) (dst : List Byte) : e.encodeTo dst = dst ++ e.fields.flatMap Field.code := by
  have name (dst : List Byte) : (match e.comparator with
      | some name => putLengthPrefixedSlice (putVarint32 dst kComparator) name
      | none => dst) = dst ++ (e.comparator.toList.map Field.comparator).flatMap Field.code := by
    cases e.comparator with
    | none => simp
    | some name => simp [put_keyCode, putVarint32, Field.code, Field.tag, Field.body]
  have pointers (dst : List Byte) : e.compactPointers.foldl (fun dst (level, key) =>
      putLengthPrefixedSlice (putVarint32 (putVarint32 dst kCompactPointer) level) key) dst =
        dst ++ (e.compactPointers.map fun x => Field.compactPointer x.1 x.2).flatMap Field.code := by
    rw [List.flatMap_map]
    refine foldl_put (fun dst x => ?_) _ dst
    simp [put_keyCode, putVarint32, Field.code, Field.tag, Field.body]
  have deleted (dst : List Byte) : e.deletedFiles.foldl (fun dst (level, number) =>
      putVarint64 (putVarint32 (putVarint32 dst kDeletedFile) level) number) dst =
        dst ++ (e.deletedFiles.map fun x => Field.deletedFile x.1 x.2).flatMap Field.code := by
    rw [List.flatMap_map]
    refine foldl_put (fun dst x => ?_) _ dst
    simp [putVarint32, putVarint64, Field.code, Field.tag, Field.body]
  have added (dst : List Byte) : e.newFiles.foldl (fun dst (level, f) =>
      putLengthPrefixedSlice
      (putLengthPrefixedSlice (putVarint64 (putVarint64 (putVarint32 (putVarint32 dst kNewFile) level)
        f.number) f.fileSize) f.smallest) f.largest) dst =
        dst ++ (e.newFiles.map fun x => Field.newFile x.1 x.2).flatMap Field.code := by
    rw [List.flatMap_map]
    refine foldl_put (fun dst x => ?_) _ dst
    simp [put_keyCode, putVarint32, putVarint64, Field.code, Field.tag, Field.body]
  simp only [encodeTo, name, pointers, deleted, added, putNumber_eq .logNumber kLogNumber fun _ => rfl,
    putNumber_eq .prevLogNumber kPrevLogNumber fun _ => rfl, putNumber_eq .nextFileNumber kNextFileNumber fun _ => rfl,
    putNumber_eq .lastSequence kLastSequence fun _ => rfl, fields, List.flatMap_append, List.append_assoc]

theorem getLevel_encode {level : Nat} (small : level < kNumLevels) (rest : List Byte) :
    getLevel (encodeVarint32 level ++ rest) = some (level, rest) := by
  have fits : level < 2 ^ 32 := Nat.lt_trans small (by decide)
  simp [getLevel, getVarint32_encode fits, small]

theorem getInternalKey_keyCode {key : List Byte} (isKey : Field.IsKey key) (rest : List Byte) :
    getInternalKey (keyCode key ++ rest) = some (key, rest) := by
  simp [getInternalKey, keyCode, getLengthPrefixedSlice_put isKey.2, isKey.1]

theorem decodeField_code (valid : x.Valid) (e : VersionEdit) (rest : List Byte) :
    decodeField x.tag (x.body ++ rest) e = .ok (x.apply e, rest) := by
  cases x with
  | comparator name =>
    simp [decodeField, Field.tag, Field.body, keyCode, getLengthPrefixedSlice_put valid, Field.apply]
  | logNumber n | prevLogNumber n | nextFileNumber n | lastSequence n =>
    simp [decodeField, Field.tag, Field.body, getVarint64_encode valid, Field.apply, kComparator, kLogNumber,
      kPrevLogNumber, kNextFileNumber, kLastSequence]
  | compactPointer level key =>
    simp [decodeField, Field.tag, Field.body, getLevel_encode valid.1, getInternalKey_keyCode valid.2, Field.apply,
      kComparator, kLogNumber, kPrevLogNumber, kNextFileNumber, kLastSequence, kCompactPointer]
  | deletedFile level number =>
    simp [decodeField, Field.tag, Field.body, getLevel_encode valid.1, getVarint64_encode valid.2, Field.apply,
      kComparator, kLogNumber, kPrevLogNumber, kNextFileNumber, kLastSequence, kCompactPointer, kDeletedFile]
  | newFile level f =>
    obtain ⟨isLevel, number, fileSize, smallest, largest⟩ := valid
    simp [decodeField, Field.tag, Field.body, getLevel_encode isLevel, getVarint64_encode number,
      getVarint64_encode fileSize, getInternalKey_keyCode smallest, getInternalKey_keyCode largest, Field.apply,
      kComparator, kLogNumber, kPrevLogNumber, kNextFileNumber, kLastSequence, kCompactPointer, kDeletedFile, kNewFile]

theorem Field.tag_small (x : Field) : x.tag < 2 ^ 32 := by
  cases x <;> simp only [tag] <;> decide

theorem decodeLoop_fields {items : List Field} (valid : ∀ x ∈ items, x.Valid) {fuel : Nat}
    (enough : (items.flatMap Field.code).length ≤ fuel) (e : VersionEdit) :
    decodeLoop fuel (items.flatMap Field.code) e = .ok (items.foldl Field.apply e) := by
  induction items generalizing fuel e with
  | nil => cases fuel <;> simp [decodeLoop, getVarint32, getVarint32Ptr, getVarint32PtrFallback, getVarintFrom]
  | cons x items ih =>
    obtain ⟨first, rest⟩ := List.forall_mem_cons.mp valid
    have size := length_encodeVarint32_pos x.tag
    rw [List.flatMap_cons, List.length_append, Field.code, List.length_append] at enough
    obtain ⟨fuel, rfl⟩ : ∃ n, fuel = n + 1 := ⟨fuel - 1, by omega⟩
    rw [List.flatMap_cons, Field.code, List.append_assoc, decodeLoop, getVarint32_encode x.tag_small]
    simp only [decodeField_code first e]
    exact ih rest (by omega) (x.apply e)

theorem foldl_apply_deleted {deleted : List (Nat × Nat)} (e : VersionEdit) :
    (deleted.map fun x => Field.deletedFile x.1 x.2).foldl Field.apply e =
      { e with
        deletedFiles := deleted.foldl (fun set x => OrderedSets.insert compareDeleted x set) e.deletedFiles } := by
  induction deleted generalizing e with
  | nil => rfl
  | cons x deleted ih => exact ih _

theorem foldl_apply_pointers {pointers : List (Nat × List Byte)} (e : VersionEdit) :
    (pointers.map fun x => Field.compactPointer x.1 x.2).foldl Field.apply e =
      { e with compactPointers := e.compactPointers ++ pointers } := by
  induction pointers generalizing e with
  | nil => simp
  | cons x pointers ih => simpa [Field.apply, setCompactPointer] using ih (e.setCompactPointer x.1 x.2)

theorem foldl_apply_new {files : List (Nat × FileMetaData)} (e : VersionEdit) :
    (files.map fun x => Field.newFile x.1 x.2).foldl Field.apply e = { e with newFiles := e.newFiles ++ files } := by
  induction files generalizing e with
  | nil => simp
  | cons x files ih => simpa [Field.apply, addFile] using ih (e.addFile x.1 x.2)

theorem foldl_apply_option {α : Type} (field : α → Field) (o : Option α) (e : VersionEdit) :
    (o.toList.map field).foldl Field.apply e = (o.map fun a => (field a).apply e).getD e := by
  cases o <;> rfl

theorem foldl_apply_fields (e : VersionEdit) (deleted : Ascending compareDeleted e.deletedFiles) :
    e.fields.foldl Field.apply {} = e := by
  have set : e.deletedFiles.foldl (fun set x => OrderedSets.insert compareDeleted x set) [] = e.deletedFiles :=
    OrderedSets.foldl_insert deleted
  simp only [fields, List.foldl_append, foldl_apply_deleted, foldl_apply_pointers, foldl_apply_new, foldl_apply_option]
  cases e with
  | mk comparator logNumber prevLogNumber nextFileNumber lastSequence _ _ _ =>
    cases comparator <;> cases logNumber <;> cases prevLogNumber <;> cases nextFileNumber <;> cases lastSequence <;>
      simp_all [Field.apply]

/-- What is written is read back. -/
theorem decodeFrom_encodeTo (valid : e.Valid) : decodeFrom (e.encodeTo []) = .ok e := by
  rw [decodeFrom, encodeTo_eq, List.nil_append, decodeLoop_fields valid.fields (Nat.le_refl _),
    foldl_apply_fields e valid.deleted]

theorem getVarint64_lt {input : List Byte} {v : Nat} (read : getVarint64 input = some (v, rest)) : v < 2 ^ 64 := by
  obtain ⟨code, _, _, _, rfl⟩ := getVarint64_eq_some_iff.mp read
  exact Nat.mod_lt _ (by decide)

theorem getLengthPrefixedSlice_lt {input str : List Byte} (read : getLengthPrefixedSlice input = some (str, rest)) :
    str.length < 2 ^ 32 := by
  rw [getLengthPrefixedSlice] at read
  split at read
  · next len rest' length =>
    obtain ⟨code, _, _, _, rfl⟩ := getVarint32_eq_some_iff.mp length
    split at read
    · cases read
      have bound := Nat.mod_lt (Varint.value code) (Nat.two_pow_pos 32)
      simp only [List.length_take]
      omega
    · cases read
  · cases read

theorem getInternalKey_isKey {input key : List Byte} (read : getInternalKey input = some (key, rest)) :
    Field.IsKey key := by
  obtain ⟨read, nonempty⟩ := Option.filter_eq_some_iff.mp read
  exact ⟨of_decide_eq_true nonempty, getLengthPrefixedSlice_lt read⟩

theorem getLevel_lt {input : List Byte} {level : Nat} (read : getLevel input = some (level, rest)) :
    level < kNumLevels :=
  of_decide_eq_true (Option.filter_eq_some_iff.mp read).2

/-- A field that is read is one that can be written. -/
theorem decodeField_valid {tag : Nat} {input : List Byte} {e' : VersionEdit}
    (read : decodeField tag input e = .ok (e', rest)) : ∃ x : Field, x.Valid ∧ e' = x.apply e := by
  have number (field : Nat → Field) {msg : String} {set : Nat → VersionEdit}
      (same : ∀ n, set n = (field n).apply e) (small : ∀ n, n < 2 ^ 64 → (field n).Valid)
      (read : (match getVarint64 input with
        | some (n, input) => Except.ok (set n, input)
        | none => .error msg) = .ok (e', rest)) : ∃ x : Field, x.Valid ∧ e' = x.apply e := by
    split at read
    · next n _ parsed =>
      cases read
      exact ⟨field n, small n (getVarint64_lt parsed), same n⟩
    · cases read
  rw [decodeField] at read
  split at read
  · split at read
    · next str _ parsed =>
      cases read
      exact ⟨.comparator str, getLengthPrefixedSlice_lt parsed, rfl⟩
    · cases read
  split at read
  · exact number .logNumber (fun _ => rfl) (fun _ small => small) read
  split at read
  · exact number .prevLogNumber (fun _ => rfl) (fun _ small => small) read
  split at read
  · exact number .nextFileNumber (fun _ => rfl) (fun _ small => small) read
  split at read
  · exact number .lastSequence (fun _ => rfl) (fun _ small => small) read
  split at read
  · split at read
    · next result parsed =>
      cases read
      simp only [Option.bind_eq_bind, Option.bind_eq_some_iff, Option.pure_def, Option.some.injEq] at parsed
      obtain ⟨⟨level, _⟩, isLevel, ⟨key, _⟩, isKey, same⟩ := parsed
      cases same
      exact ⟨.compactPointer level key, ⟨getLevel_lt isLevel, getInternalKey_isKey isKey⟩, rfl⟩
    · cases read
  split at read
  · split at read
    · next result parsed =>
      cases read
      simp only [Option.bind_eq_bind, Option.bind_eq_some_iff, Option.pure_def, Option.some.injEq] at parsed
      obtain ⟨⟨level, _⟩, isLevel, ⟨n, _⟩, isNumber, same⟩ := parsed
      cases same
      exact ⟨.deletedFile level n, ⟨getLevel_lt isLevel, getVarint64_lt isNumber⟩, rfl⟩
    · cases read
  split at read
  · split at read
    · next result parsed =>
      cases read
      simp only [Option.bind_eq_bind, Option.bind_eq_some_iff, Option.pure_def, Option.some.injEq] at parsed
      obtain ⟨⟨level, _⟩, isLevel, ⟨n, _⟩, isNumber, ⟨size, _⟩, isSize, ⟨smallest, _⟩, isKey, ⟨largest, _⟩,
        isKey', same⟩ := parsed
      cases same
      exact ⟨.newFile level ⟨n, size, smallest, largest⟩, ⟨getLevel_lt isLevel, getVarint64_lt isNumber,
        getVarint64_lt isSize,
        getInternalKey_isKey isKey, getInternalKey_isKey isKey'⟩, rfl⟩
    · cases read
  cases read

theorem mem_fields_apply {y : Field} (member : y ∈ (x.apply e).fields) : y = x ∨ y ∈ e.fields := by
  cases x <;>
    simp only [Field.apply, fields, setCompactPointer, removeFile, addFile, List.map_append,
      List.mem_append, List.mem_map,
      Option.mem_toList] at member ⊢ <;>
    grind [→ OrderedSets.mem_of_mem_insert]

theorem Valid.apply (valid : e.Valid) (isField : x.Valid) : (x.apply e).Valid where
  fields := fun y member => (mem_fields_apply member).elim (fun same => same ▸ isField) (valid.fields y)
  deleted := by
    cases x with
    | deletedFile level number => exact valid.deleted.insert (level, number)
    | _ => exact valid.deleted

theorem decodeLoop_valid {fuel : Nat} {input : List Byte} {e' : VersionEdit} (valid : e.Valid)
    (read : decodeLoop fuel input e = .ok e') : e'.Valid := by
  induction fuel generalizing input e with
  | zero =>
    rw [decodeLoop] at read
    split at read <;> cases read
    exact valid
  | succ fuel ih =>
    rw [decodeLoop] at read
    split at read
    · split at read <;> cases read
      exact valid
    · next tag rest _ =>
      split at read
      · next e'' rest' parsed =>
        obtain ⟨x, isField, rfl⟩ := decodeField_valid parsed
        exact ih (valid.apply isField) read
      · cases read

/-- Whatever bytes are accepted, the edit they give can be written, and it is read back as it is. -/
theorem decodeFrom_accepts {src : List Byte} (read : decodeFrom src = .ok e) :
    e.Valid ∧ decodeFrom (e.encodeTo []) = .ok e := by
  have start : VersionEdit.Valid {} := ⟨fun _ member => absurd member List.not_mem_nil, List.Pairwise.nil⟩
  have valid : e.Valid := by
    rw [decodeFrom] at read
    split at read <;> cases read
    next parsed => exact decodeLoop_valid start parsed
  exact ⟨valid, decodeFrom_encodeTo valid⟩

theorem decodeFrom_accepts_numbers : decodeFrom [2, 5, 6, 1, 7, 6, 0, 9] =
      .ok { logNumber := some 5, deletedFiles := [(0, 9), (1, 7)] } ∧
    decodeFrom (encodeTo { logNumber := some 5, deletedFiles := [(0, 9), (1, 7)] } []) =
      .ok { logNumber := some 5, deletedFiles := [(0, 9), (1, 7)] } := by
  have read : decodeFrom [2, 5, 6, 1, 7, 6, 0, 9] = .ok { logNumber := some 5, deletedFiles := [(0, 9), (1, 7)] } := by
    rfl
  exact ⟨read, (decodeFrom_accepts read).2⟩

end RoundTrip

end VersionEdit

end WormholeFilters.LevelDb
