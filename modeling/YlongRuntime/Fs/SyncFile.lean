import Mathlib.Data.List.Basic

/-! The `std::fs::File` under an async `File`: a regular file with one cursor, as the
blocking jobs reach it through `read`, `write_all`, `seek` and `set_len`. -/

namespace YlongRuntime

instance decEqExcept {ε α : Type} [DecidableEq ε] [DecidableEq α] : DecidableEq (Except ε α)
  | .error a, .error b => decidable_of_iff (a = b) (by simp)
  | .ok a, .ok b => decidable_of_iff (a = b) (by simp)
  | .error _, .ok _ => isFalse Except.noConfusion
  | .ok _, .error _ => isFalse Except.noConfusion

/-- `std::io::ErrorKind`. The file code only copies kinds around; `invalidInput` is the
kind of a seek to a negative position. -/
inductive ErrorKind
  | invalidInput
  | other (code : Nat)
deriving DecidableEq, Repr

/-- `std::io::SeekFrom`. -/
inductive SeekFrom
  | start (n : Nat)
  | «end» (d : Int)
  | current (d : Int)
deriving DecidableEq, Repr

structure SyncFile where
  content : List UInt8
  pos : Nat
deriving DecidableEq, Repr

/-- `bytes` written over `content` at `pos`; a gap past the end reads as zeros. -/
def overwrite (content : List UInt8) (pos : Nat) (bytes : List UInt8) : List UInt8 :=
  content.take pos ++ List.replicate (pos - content.length) 0 ++ bytes ++
    content.drop (pos + bytes.length)

/-- `content` truncated, or extended with zeros, to `size` bytes. -/
def resize (content : List UInt8) (size : Nat) : List UInt8 :=
  content.take size ++ List.replicate (size - content.length) 0

namespace SyncFile

/-- `Read::read` into `room` bytes. -/
def read (f : SyncFile) (room : Nat) : List UInt8 × SyncFile :=
  let bytes := (f.content.drop f.pos).take room
  (bytes, { f with pos := f.pos + bytes.length })

/-- `Write::write_all`. -/
def writeAll (f : SyncFile) (bytes : List UInt8) : SyncFile :=
  ⟨overwrite f.content f.pos bytes, f.pos + bytes.length⟩

/-- The offset `Seek::seek` moves the cursor to, when it is not negative. -/
def target (f : SyncFile) : SeekFrom → Int
  | .start n => n
  | .end d => f.content.length + d
  | .current d => f.pos + d

/-- `Seek::seek`: the new position. Positions are unbounded here; `std` would also refuse a
target past `i64::MAX`. -/
def seek (f : SyncFile) (pos : SeekFrom) : Except ErrorKind (Nat × SyncFile) :=
  if f.target pos < 0 then .error .invalidInput
  else .ok ((f.target pos).toNat, { f with pos := (f.target pos).toNat })

/-- `File::set_len`: the cursor does not move. -/
def setLen (f : SyncFile) (size : Nat) : SyncFile :=
  { f with content := resize f.content size }

theorem read_length_le (f : SyncFile) (room : Nat) : (f.read room).1.length ≤ room := by
  simp only [read, List.length_take]
  omega

theorem read_pos (f : SyncFile) (room : Nat) :
    (f.read room).2 = { f with pos := f.pos + (f.read room).1.length } := rfl

/-- A read of a positive amount before the end returns at least one byte. -/
theorem read_length_pos {f : SyncFile} {room : Nat} (hr : 0 < room)
    (hp : f.pos < f.content.length) : 0 < (f.read room).1.length := by
  simp only [read, List.length_take, List.length_drop]
  omega

/-- A read returns the content from the cursor on, as many bytes as it returns. -/
theorem read_fst (f : SyncFile) (room : Nat) :
    (f.read room).1 = (f.content.drop f.pos).take (f.read room).1.length := by
  simp only [read, List.length_take, List.length_drop]
  rw [List.take_eq_take]
  simp only [List.length_drop]
  omega

end SyncFile

end YlongRuntime
