import Squashfs.Foundation.LittleEndian

/-!
# Errors and the block device

Model of `Error` (`src/error.rs:23-82`), the reader's error type, and of the block devices it reads
(`fs_core`'s `BlockRead`).

* `Error` has the source's variants, with the numbers and the texts they carry, and `Error.toErrno`
  (`error.rs:60-75`) the POSIX number the C ABI reports for each.
* `Res α` is what every function of the reader returns: a value, an `Error`, or one of the two ways
  not to return that `Foundation/Outcome.lean` adds.
* A `Device` is an immutable block device: the same read always gives the same result. A read of `n`
  bytes that succeeds gives `n` bytes, and none that is not empty succeeds past the device's size,
  which fits a 64-bit word. `Device.ofBytes` is the device over a byte string.

Out of scope: the `Display` texts of the errors (`error.rs:84-105`), and devices whose contents
change.
-/

namespace Squashfs

open Foundation

/-- What the block layer reports when a read fails. -/
inductive BlockError where
  | shortRead (offset want got : Nat)
  | io (what : String)
  deriving Repr, DecidableEq

/-- The reader's errors. -/
inductive Error where
  | block (e : BlockError)
  | notSquashfs
  | badSuperblock (why : String)
  | badMetadata (why : String)
  | badInode (why : String)
  | badDirent (why : String)
  | unsupportedCompression (id : UInt16)
  | notFound
  | notExportable
  | notADirectory
  | outOfRange
  deriving Repr, DecidableEq

/-! ## Errno -/

def EIO : Nat := 5
def ENOENT : Nat := 2
def ENOTDIR : Nat := 20
def EINVAL : Nat := 22
def ENOTSUP : Nat := 45
def ERANGE : Nat := 34

/-- The POSIX errno the C ABI reports for an error. -/
def Error.toErrno : Error → Nat
  | .block _ => EIO
  | .notSquashfs => EINVAL
  | .badSuperblock _ => EINVAL
  | .badMetadata _ => EIO
  | .badInode _ => EIO
  | .badDirent _ => EIO
  | .unsupportedCompression _ => ENOTSUP
  | .notFound => ENOENT
  | .notExportable => ENOTSUP
  | .notADirectory => ENOTDIR
  | .outOfRange => ERANGE

/-- An error is reported as one. -/
theorem Error.toErrno_ne_zero (e : Error) : e.toErrno ≠ 0 := by
  cases e <;> exact Nat.succ_ne_zero _

/-- What the reader's functions return. -/
abbrev Res (α : Type) := Outcome Error α

/-- `Err(e)`. -/
abbrev fails {α : Type} (e : Error) : Res α := .error (.err e)

/-- `o.ok_or(e)`. -/
def okOr {α : Type} (e : Error) : Option α → Res α
  | some a => .ok a
  | none => fails e

theorem okOr_eq_ok {α : Type} {e : Error} {o : Option α} {a : α} :
    okOr e o = .ok a ↔ o = some a := by
  cases o <;> simp [okOr]

theorem safe_okOr {α : Type} (e : Error) (o : Option α) : Safe (o = some ·) (okOr e o) := by
  cases o <;> trivial

/-! ## The device -/

/-- An immutable block device. -/
@[ext]
structure Device where
  /-- Fill a buffer of `n` bytes from `offset`. -/
  readAt : (offset n : Nat) → Except BlockError Bytes
  sizeBytes : Nat
  size_lt : sizeBytes < wordSize
  read_length : ∀ {offset n b}, readAt offset n = .ok b → b.length = n
  read_inside : ∀ {offset n b}, readAt offset n = .ok b → 0 < n → offset + n ≤ sizeBytes

/-- A read of the device, its failure wrapped as the reader's error. -/
def Device.read (dev : Device) (offset n : Nat) : Res Bytes :=
  match dev.readAt offset n with
  | .ok b => .ok b
  | .error e => fails (.block e)

/-- The device over a byte string: a read succeeds exactly when it lies inside the string. -/
def Device.ofBytes (bytes : Bytes) (h : bytes.length < wordSize) : Device where
  readAt offset n :=
    if offset + n ≤ bytes.length then .ok ((bytes.drop offset).take n)
    else .error (.shortRead offset n (bytes.length - offset))
  sizeBytes := bytes.length
  size_lt := h
  read_length := by
    intro offset n b hb
    split at hb
    · rename_i hle
      cases hb
      exact window_length hle
    · cases hb
  read_inside := by
    intro offset n b hb _
    split at hb
    · assumption
    · cases hb

theorem Device.read_eq_ok {dev : Device} {offset n : Nat} {b : Bytes} :
    dev.read offset n = .ok b ↔ dev.readAt offset n = .ok b := by
  unfold Device.read
  cases dev.readAt offset n <;> simp

theorem Device.length_of_read {dev : Device} {offset n : Nat} {b : Bytes}
    (h : dev.read offset n = .ok b) : b.length = n :=
  dev.read_length (dev.read_eq_ok.mp h)

theorem Device.le_of_read {dev : Device} {offset n : Nat} {b : Bytes}
    (h : dev.read offset n = .ok b) (hn : 0 < n) : offset + n ≤ dev.sizeBytes :=
  dev.read_inside (dev.read_eq_ok.mp h) hn

theorem Device.returns_read (dev : Device) (offset n : Nat) : Returns (dev.read offset n) := by
  unfold Device.read
  cases dev.readAt offset n <;> trivial

theorem Device.ofBytes_read {bytes : Bytes} {h : bytes.length < wordSize} {offset n : Nat}
    (hle : offset + n ≤ bytes.length) :
    (Device.ofBytes bytes h).read offset n = .ok ((bytes.drop offset).take n) := by
  rw [Device.read_eq_ok]
  exact if_pos hle

end Squashfs
