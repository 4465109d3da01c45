import WormholeFilters.AlignedData
import WormholeFilters.LittleEndian

/-! Reads of a random access file through the page cache and around it, as in
`env_posix.cc`. The direct read asks for an aligned window and cuts the caller's
bytes out of it; how many bytes the window really got is not looked at. -/
namespace WormholeFilters.Env

open LittleEndian (Byte)

/-- The text of `strerror` is left as the error number. -/
inductive Status where
  | ok
  | notFound (context : String) (errno : Nat)
  | ioError (context : String) (errno : Nat)
  | corruption (msg : String)
  deriving DecidableEq, Repr

def enoent : Nat := 2

def posixError (context : String) (errno : Nat) : Status :=
  if errno = enoent then .notFound context errno else .ioError context errno

/-- What the system calls of one read return. `pread` yields the number of bytes read
and the whole buffer of `count` bytes afterwards. -/
structure Os where
  openFile : Except Nat Unit
  enableDirectIo : Status
  pread : (count offset : Nat) → Except Nat (Nat × List Byte)

structure RandomAccessFile where
  filename : String
  hasPermanentFd : Bool

def read (os : Os) (f : RandomAccessFile) (offset n : Nat) : Status × Option (List Byte) :=
  match if f.hasPermanentFd then .ok () else os.openFile with
  | .error errno => (posixError f.filename errno, none)
  | .ok () =>
    match os.pread n offset with
    | .error errno => (posixError f.filename errno, some [])
    | .ok (readSize, buf) => (.ok, some (buf.take readSize))

/-- The alignment a read uses: the page size for page-aligned buffers, else a sector. -/
def alignment (pageAligned : Bool) (pageSize : Nat) : Nat := if pageAligned then pageSize else 512

/-- `PosixDirectIORandomAccessFile::Read`. The slice has length `n` whatever was read. -/
def directRead (os : Os) (f : RandomAccessFile) (alignment offset n : Nat) : Status × Option (List Byte) :=
  match if f.hasPermanentFd then .ok () else os.openFile with
  | .error errno => (posixError f.filename errno, none)
  | .ok () =>
    let enabled := if f.hasPermanentFd then .ok else os.enableDirectIo
    if enabled = .ok then
      let data := newAlignedData offset n alignment
      match os.pread data.size data.offset with
      | .error errno => (posixError f.filename errno, some [])
      | .ok (_, buf) => (.ok, some ((buf.drop data.userOffset).take n))
    else (enabled, none)

def kBlockTrailerSize : Nat := 5

def readBlock (read : Nat → Nat → Status × Option (List Byte)) (offset size : Nat)
    (finish : List Byte → Except Status (List Byte)) : Except Status (List Byte) :=
  match read offset ((size + kBlockTrailerSize) % 2 ^ 64) with
  | (.ok, contents) =>
    if (contents.getD []).length ≠ (size + kBlockTrailerSize) % 2 ^ 64 then
      .error (.corruption "truncated block read")
    else finish (contents.getD [])
  | (s, _) => .error s

/-- The bytes of a file that a read of `count` bytes at `offset` finds. -/
def present (file : List Byte) (offset count : Nat) : List Byte := (file.drop offset).take count

/-- The calls succeed, and `pread` stores the bytes present; the rest of its buffer is
unspecified. -/
structure Os.Serves (os : Os) (file : List Byte) : Prop where
  opens : os.openFile = .ok ()
  enables : os.enableDirectIo = .ok
  reads : ∀ count offset, ∃ rest,
    os.pread count offset = .ok ((present file offset count).length, present file offset count ++ rest) ∧
    (present file offset count ++ rest).length = count

variable {file : List Byte} {os : Os} {a offset n : Nat}

theorem read_eq (serves : os.Serves file) (f : RandomAccessFile) (offset n : Nat) :
    read os f offset n = (.ok, some (present file offset n)) := by
  obtain ⟨rest, result, _⟩ := serves.reads n offset
  simp only [read, serves.opens, ite_self, result, List.take_left]

/-- The direct read returns `n` bytes, of which the first are those present. -/
theorem directRead_eq (serves : os.Serves file) (f : RandomAccessFile) {k : Nat} (power : a = 2 ^ k)
    (fits : offset + n + a < 2 ^ 64) : ∃ tail,
      directRead os f a offset n = (.ok, some (present file offset n ++ tail)) ∧
      (present file offset n ++ tail).length = n := by
  obtain ⟨start, covers⟩ := newAlignedData_covers power fits.le
  obtain ⟨rest, result, size⟩ := serves.reads (newAlignedData offset n a).size (newAlignedData offset n a).offset
  simp only [directRead, serves.opens, serves.enables, ite_self, result, if_true]
  generalize newAlignedData offset n a = data at start covers size ⊢
  have window : ((present file data.offset data.size).drop data.userOffset).take n = present file offset n := by
    rw [present, present, ← start, List.drop_take, List.take_take, List.drop_drop,
      Nat.min_eq_left (by omega)]
  obtain ⟨tail, split⟩ := ((List.prefix_append (present file data.offset data.size) rest).drop
    data.userOffset).take n
  rw [window] at split
  refine ⟨tail, by rw [split], ?_⟩
  rw [split, List.length_take, List.length_drop, size]
  omega

theorem length_present (file : List Byte) (offset n : Nat) :
    (present file offset n).length = min n (file.length - offset) := by
  rw [present, List.length_take, List.length_drop]

theorem alignment_power (pageAligned : Bool) {pageSize : Nat} (power : ∃ k, pageSize = 2 ^ k) :
    ∃ k, alignment pageAligned pageSize = 2 ^ k := by
  cases pageAligned with
  | true => exact power
  | false => exact ⟨9, rfl⟩

/-- The two reads agree exactly when the request is empty or ends within the file, and
blocks are read alike in both modes exactly when they end within the file. -/
theorem direct_read_agrees_iff {buffered direct : Os} (serves : buffered.Serves file)
    (serves' : direct.Serves file) (f f' : RandomAccessFile) (pageAligned : Bool) {pageSize : Nat}
    (power : ∃ k, pageSize = 2 ^ k) (fits : offset + n + alignment pageAligned pageSize < 2 ^ 64) :
    (directRead direct f' (alignment pageAligned pageSize) offset n = read buffered f offset n ↔
      n = 0 ∨ offset + n ≤ file.length) ∧
    ∀ size, n = size + kBlockTrailerSize →
      ((∀ finish, readBlock (directRead direct f' (alignment pageAligned pageSize)) offset size finish =
          readBlock (read buffered f) offset size finish) ↔ offset + n ≤ file.length) := by
  obtain ⟨k, power⟩ := alignment_power pageAligned power
  obtain ⟨tail, result, length⟩ := directRead_eq serves' f' power fits
  have present_length := length_present file offset n
  rw [List.length_append] at length
  rw [result, read_eq serves]
  have agree : present file offset n ++ tail = present file offset n ↔ n = 0 ∨ offset + n ≤ file.length := by
    rw [List.append_right_eq_self, ← List.length_eq_zero_iff]
    omega
  refine ⟨by rw [Prod.mk.injEq, Option.some.injEq, agree]; simp, fun size block => ?_⟩
  have trailer : (size + kBlockTrailerSize) % 2 ^ 64 = n := by
    rw [← block, Nat.mod_eq_of_lt (by omega)]
  have positive : n ≠ 0 := by rw [block, kBlockTrailerSize]; omega
  have direct : ∀ finish, readBlock (directRead direct f' (alignment pageAligned pageSize)) offset size finish =
      finish (present file offset n ++ tail) := by
    intro finish
    simp only [readBlock, trailer, result, Option.getD_some, List.length_append, length, ne_eq, not_true,
      if_false]
  have cached : ∀ finish, readBlock (read buffered f) offset size finish =
      if (present file offset n).length = n then finish (present file offset n)
      else .error (.corruption "truncated block read") := by
    intro finish
    simp only [readBlock, trailer, read_eq serves, Option.getD_some, ne_eq, ite_not]
  constructor
  · intro same
    have probe := same fun _ => .ok []
    rw [direct, cached] at probe
    split at probe
    · omega
    · contradiction
  · intro inside finish
    have full : (present file offset n).length = n := by omega
    rw [direct, cached, if_pos full, agree.mpr (Or.inr inside)]

def zeroFilled (file : List Byte) : Os where
  openFile := .ok ()
  enableDirectIo := .ok
  pread := fun count offset => .ok ((present file offset count).length,
    present file offset count ++ List.replicate (count - (present file offset count).length) 0#8)

theorem zeroFilled_serves (file : List Byte) : (zeroFilled file).Serves file := by
  refine ⟨rfl, rfl, fun count offset => ⟨_, rfl, ?_⟩⟩
  have := length_present file offset count
  rw [List.length_append, List.length_replicate]
  omega

/-- Two bytes from the middle of a file of four. -/
theorem direct_read_agrees_two :
    let os := zeroFilled [1#8, 2#8, 3#8, 4#8]
    directRead os ⟨"f", true⟩ 512 1 2 = read os ⟨"f", true⟩ 1 2 :=
  (direct_read_agrees_iff (zeroFilled_serves _) (zeroFilled_serves _) ⟨"f", true⟩ ⟨"f", true⟩ false
    (show ∃ k, 4096 = 2 ^ k from ⟨12, rfl⟩) (by decide)).1.mpr (Or.inr (by decide))

/-- One byte of an empty file: the direct read returns a byte. -/
theorem direct_read_past_end :
    ¬ ∀ (file : List Byte) (buffered direct : Os), buffered.Serves file → direct.Serves file →
      ∀ (f f' : RandomAccessFile) (pageAligned : Bool) (pageSize offset n : Nat), (∃ k, pageSize = 2 ^ k) →
        offset + n + alignment pageAligned pageSize < 2 ^ 64 →
        directRead direct f' (alignment pageAligned pageSize) offset n = read buffered f offset n := by
  intro claimed
  have same := claimed [] (zeroFilled []) (zeroFilled []) (zeroFilled_serves _) (zeroFilled_serves _)
    ⟨"f", true⟩ ⟨"f", true⟩ false 4096 0 1 ⟨12, rfl⟩ (by decide)
  exact absurd same (by decide)

end WormholeFilters.Env
