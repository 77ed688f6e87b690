import YlongRuntime.Fs.SyncFile

/-! The buffer an async `File` hands to its blocking jobs and gets back from them.
A read job fills it; unread bytes serve later reads; a write appends to it. -/

namespace YlongRuntime

/-- Modelled from the spec: `crate::fs::file_buf::FileBuf`, which `async_file.rs` uses
but the sources do not contain. `buf[idx..]` are the bytes not handed out yet. -/
structure FileBuf where
  buf : List UInt8
  idx : Nat
  idx_le : idx ≤ buf.length
deriving DecidableEq

/-- Which syscalls of a blocking job fail: its seek, and its read, write, `set_len` or
sync. -/
structure Faults where
  seek : Option ErrorKind
  io : Option ErrorKind
deriving DecidableEq, Repr

def Faults.none : Faults := ⟨.none, .none⟩

namespace FileBuf

/-- `FileBuf::with_capacity(0)`. -/
def empty : FileBuf := ⟨[], 0, le_rfl⟩

/-- A buffer holding `bytes`, none of them handed out yet. -/
def ofBytes (bytes : List UInt8) : FileBuf := ⟨bytes, 0, Nat.zero_le _⟩

def remaining (b : FileBuf) : Nat := b.buf.length - b.idx

/-- `append_to`: hands the unread bytes to a `ReadBuf` with `room` bytes free; a buffer
read to its end is cleared. -/
def appendTo (b : FileBuf) (room : Nat) : List UInt8 × FileBuf :=
  let n := min room b.remaining
  ((b.buf.drop b.idx).take n,
    if h : b.idx + n = b.buf.length then empty
    else ⟨b.buf, b.idx + n, by have := b.idx_le; simp only [n, remaining] at h ⊢; omega⟩)

/-- `append`: copies at most `limit` bytes of `other` to the end. -/
def append (b : FileBuf) (other : List UInt8) (limit : Nat) : Nat × FileBuf :=
  (min other.length limit,
    ⟨b.buf ++ other.take limit, b.idx, by have := b.idx_le; simp only [List.length_append]; omega⟩)

/-- `reserve`: room for one read of `min size limit` bytes, on a buffer with nothing
unread. -/
def reserve (_ : FileBuf) (size limit : Nat) : FileBuf :=
  ofBytes (List.replicate (min size limit) 0)

/-- `drop_unread`: forgets the unread bytes and says how many there were. -/
def dropUnread (b : FileBuf) : Int × FileBuf := (b.remaining, empty)

/-- `read`: one `read` syscall into the whole buffer, which then holds the bytes read,
or nothing after an error. -/
def read (b : FileBuf) (fault : Option ErrorKind) (f : SyncFile) :
    (FileBuf × Except ErrorKind Nat) × SyncFile :=
  match fault with
  | some e => ((empty, .error e), f)
  | none =>
    let (bytes, f) := f.read b.buf.length
    ((ofBytes bytes, .ok bytes.length), f)

/-- `write`: `write_all` of the whole buffer, which is cleared also after an error. -/
def write (b : FileBuf) (fault : Option ErrorKind) (f : SyncFile) :
    (FileBuf × Except ErrorKind Unit) × SyncFile :=
  match fault with
  | some e => ((empty, .error e), f)
  | none => ((empty, .ok ()), f.writeAll b.buf)

@[simp] theorem remaining_empty : empty.remaining = 0 := rfl

@[simp] theorem dropUnread_snd (b : FileBuf) : b.dropUnread.2 = empty := rfl

@[simp] theorem reserve_remaining (b : FileBuf) (size limit : Nat) :
    (b.reserve size limit).remaining = min size limit := by
  simp [reserve, remaining, ofBytes]

/-- A read into room for all of a buffer's unread bytes empties it. -/
theorem appendTo_of_remaining_le {b : FileBuf} {room : Nat} (h : b.remaining ≤ room) :
    b.appendTo room = (b.buf.drop b.idx, empty) := by
  have hn : min room b.remaining = b.remaining := by omega
  have hl : b.idx + b.remaining = b.buf.length := by simp only [remaining]; have := b.idx_le; omega
  simp only [appendTo, hn, hl, dite_true, Prod.mk.injEq, and_true]
  simp [remaining]

end FileBuf

end YlongRuntime
