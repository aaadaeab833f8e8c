import Squashfs.Superblock

/-!
# Directory listings

Model of `src/dir.rs`: `DirEntry` (38-46) and `parse_listing` (50-116). A listing is a run of
headers, each followed by its entries; `parseListing` turns the bytes of one into its entries, in
order.

**`safe_parseListing`**: the parser returns on every buffer, and every name it gives is one a path
can carry (`ListedName`): not empty, at most 256 bytes, not a dot name, and free of `/` and NUL.
-/

namespace Squashfs

open Foundation

/-- Names are at most 256 bytes. -/
def SQUASHFS_NAME_LEN : Nat := 256

/-- A header describes at most this many entries. -/
def MAX_ENTRIES_PER_HEADER : Nat := 256

/-- One resolved directory entry. -/
structure DirEntry where
  name : Bytes
  inodeRef : UInt64
  typeId : UInt16
  inodeNumber : UInt32
  deriving Repr, DecidableEq

/-- The entry at `p` under a header with the given `start` and `baseInode`, and the position
after it. -/
def parseEntry (buf : Bytes) (start baseInode : UInt32) (p : Nat) : Res (DirEntry × Nat) := do
  if buf.length < (← add64 p 8) then fails (.badDirent "truncated directory entry header")
  else
    let offset ← u16At buf p
    let inodeOffset ← u16At buf (← add64 p 2)
    let typeId ← u16At buf (← add64 p 4)
    let nameSize ← u16At buf (← add64 p 6)
    let p ← add64 p 8
    let nameLen ← add64 nameSize.toNat 1
    if SQUASHFS_NAME_LEN < nameLen then fails (.badDirent "entry name too long")
    else
      let stop ← add64 p nameLen
      if buf.length < stop then fails (.badDirent "truncated directory entry name")
      else
        let name ← slice buf p stop
        if name = [0x2E] ∨ name = [0x2E, 0x2E] then
          fails (.badDirent "directory entry name is reserved")
        else if name.contains 0x2F then
          fails (.badDirent "directory entry name contains '/'")
        else if name.contains 0 then
          fails (.badDirent "directory entry name contains NUL")
        else
          let inodeRef := (start.toUInt64 <<< 16) ||| offset.toUInt64
          let inodeNumber := UInt32.ofInt (baseInode.toNat + inodeOffset.toInt16.toInt)
          return (⟨name, inodeRef, typeId, inodeNumber⟩, stop)

/-- `for _ in 0..entries`. -/
def parseEntries (buf : Bytes) (start baseInode : UInt32) :
    Nat → (out : List DirEntry) → (p : Nat) → Res (List DirEntry × Nat)
  | 0, out, p => return (out, p)
  | entries + 1, out, p => do
    let (e, p) ← parseEntry buf start baseInode p
    parseEntries buf start baseInode entries (out ++ [e]) p

/-- A header at `p` and its entries. -/
def parseRun (buf : Bytes) (out : List DirEntry) (p : Nat) : Res (List DirEntry × Nat) := do
  let body ← add64 p 12
  if buf.length < body then fails (.badDirent "truncated directory header")
  else
    let count ← u32At buf p
    let start ← u32At buf (← add64 p 4)
    let baseInode ← u32At buf (← add64 p 8)
    match checkedAdd count.toNat 1 with
    | none => fails (.badDirent "directory header count overflow")
    | some entries =>
      if MAX_ENTRIES_PER_HEADER < entries then
        fails (.badDirent "directory header count > 256")
      else parseEntries buf start baseInode entries out body

/-- `while p < buf.len()`. -/
def parseRuns (buf : Bytes) : Nat → (out : List DirEntry) → (p : Nat) → Res (List DirEntry)
  | 0, out, p => if p < buf.length then .error .diverge else return out
  | turns + 1, out, p =>
    if p < buf.length then do
      let (out, p) ← parseRun buf out p
      parseRuns buf turns out p
    else return out

/-- Parse a directory listing into entries, in order. -/
def parseListing (buf : Bytes) : Res (List DirEntry) := parseRuns buf buf.length [] 0

/-! ## The names a listing gives -/

/-- A name that a listing may give: a path can carry it, and a C string of 257 bytes hold it. -/
structure ListedName (name : Bytes) : Prop where
  nonempty : name ≠ []
  length_le : name.length ≤ SQUASHFS_NAME_LEN
  not_dot : name ≠ [0x2E]
  not_dotdot : name ≠ [0x2E, 0x2E]
  no_slash : (0x2F : UInt8) ∉ name
  no_nul : (0 : UInt8) ∉ name

/-- An entry's position moves forward inside the buffer, and its name is a listed one. -/
theorem safe_parseEntry {buf : Bytes} {start baseInode : UInt32} {p : Nat}
    (hw : buf.length ≤ isizeMax) (hp : p ≤ buf.length) :
    Safe (fun r => ListedName r.1.name ∧ p < r.2 ∧ r.2 ≤ buf.length)
      (parseEntry buf start baseInode p) := by
  unfold isizeMax at hw
  unfold parseEntry
  rw [add64_ok (by unfold wordSize; omega), ok_bind]
  refine safe_ite (fun _ => trivial) fun hroom => ?_
  have h16 : ∀ i, i + 2 ≤ p + 8 → Safe (fun _ => True) (u16At buf i : Res UInt16) := fun i hi => by
    rw [u16At_ok (by omega) (by unfold wordSize; omega)]
    trivial
  refine safe_bind (h16 p (by omega)) fun offset _ => ?_
  rw [add64_ok (by unfold wordSize; omega), ok_bind]
  refine safe_bind (h16 (p + 2) (by omega)) fun inodeOffset _ => ?_
  rw [add64_ok (by unfold wordSize; omega), ok_bind]
  refine safe_bind (h16 (p + 4) (by omega)) fun typeId _ => ?_
  rw [add64_ok (by unfold wordSize; omega), ok_bind]
  refine safe_bind (h16 (p + 6) (by omega)) fun nameSize _ => ?_
  have hsize := nameSize.toNat_lt
  rw [ok_bind, add64_ok (by unfold wordSize; omega), ok_bind]
  refine safe_ite (fun _ => trivial) fun hlen => ?_
  rw [add64_ok (by unfold wordSize; omega), ok_bind]
  refine safe_ite (fun _ => trivial) fun hfit => ?_
  rw [slice_ok (by omega) (by omega), ok_bind]
  have hname : ((buf.drop (p + 8)).take (p + 8 + (nameSize.toNat + 1) - (p + 8))).length =
      nameSize.toNat + 1 := by
    rw [Nat.add_sub_cancel_left]
    exact window_length (by omega)
  generalize (buf.drop (p + 8)).take (p + 8 + (nameSize.toNat + 1) - (p + 8)) = name at hname ⊢
  refine safe_ite (fun _ => trivial) fun hdots => safe_ite (fun _ => trivial) fun hslash => ?_
  refine safe_ite (fun _ => trivial) fun hnul => ?_
  rw [not_or] at hdots
  have hshort : name.length ≤ SQUASHFS_NAME_LEN := by omega
  refine ⟨⟨?_, hshort, hdots.1, hdots.2, ?_, ?_⟩, by dsimp only; omega, by dsimp only; omega⟩
  · rintro rfl
    cases hname
  · simpa using hslash
  · simpa using hnul

theorem safe_parseEntries {buf : Bytes} {start baseInode : UInt32} {entries : Nat}
    {out : List DirEntry} {p : Nat} (hw : buf.length ≤ isizeMax)
    (hp : p ≤ buf.length) (hout : ∀ e ∈ out, ListedName e.name) :
    Safe (fun r => (∀ e ∈ r.1, ListedName e.name) ∧ p ≤ r.2 ∧ r.2 ≤ buf.length)
      (parseEntries buf start baseInode entries out p) := by
  induction entries generalizing out p with
  | zero => exact ⟨hout, Nat.le_refl p, hp⟩
  | succ entries ih =>
    unfold parseEntries
    refine safe_bind (safe_parseEntry hw hp) fun ⟨e, q⟩ hr => ?_
    obtain ⟨he, hlt, hle⟩ : ListedName e.name ∧ p < q ∧ q ≤ buf.length := hr
    refine (ih hle fun e' he' => ?_).mono fun r hr => ⟨hr.1, by omega, hr.2.2⟩
    rcases List.mem_append.mp he' with h | h
    · exact hout e' h
    · rw [List.mem_singleton.mp h]
      exact he

theorem safe_parseRun {buf : Bytes} {out : List DirEntry} {p : Nat}
    (hw : buf.length ≤ isizeMax) (hp : p ≤ buf.length)
    (hout : ∀ e ∈ out, ListedName e.name) :
    Safe (fun r => (∀ e ∈ r.1, ListedName e.name) ∧ p < r.2 ∧ r.2 ≤ buf.length)
      (parseRun buf out p) := by
  have hw' := hw
  unfold isizeMax at hw'
  unfold parseRun
  rw [add64_ok (by unfold wordSize; omega), ok_bind]
  refine safe_ite (fun _ => trivial) fun hroom => ?_
  rw [u32At_ok (by omega) (by unfold wordSize; omega), ok_bind,
    add64_ok (by unfold wordSize; omega), ok_bind,
    u32At_ok (by omega) (by unfold wordSize; omega), ok_bind,
    add64_ok (by unfold wordSize; omega), ok_bind,
    u32At_ok (by omega) (by unfold wordSize; omega), ok_bind]
  split
  · trivial
  · refine safe_ite (fun _ => trivial) fun _ => ?_
    exact (safe_parseEntries hw (by omega) hout).mono fun r hr => ⟨hr.1, by omega, hr.2.2⟩

theorem safe_parseRuns {buf : Bytes} {turns : Nat} {out : List DirEntry} {p : Nat}
    (hw : buf.length ≤ isizeMax) (hp : p ≤ buf.length)
    (hturns : buf.length ≤ turns + p) (hout : ∀ e ∈ out, ListedName e.name) :
    Safe (fun r => ∀ e ∈ r, ListedName e.name) (parseRuns buf turns out p) := by
  induction turns generalizing out p with
  | zero =>
    unfold parseRuns
    rw [if_neg (by omega)]
    exact hout
  | succ turns ih =>
    unfold parseRuns
    refine safe_ite (fun _ => ?_) fun _ => hout
    refine safe_bind (safe_parseRun hw hp hout) fun r hr => ?_
    exact ih hr.2.2 (by omega) hr.1

/-- **A listing's parsing returns, and every name it gives is a listed one.** -/
theorem safe_parseListing {buf : Bytes} (hw : buf.length ≤ isizeMax) :
    Safe (fun out => ∀ e ∈ out, ListedName e.name) (parseListing buf) :=
  safe_parseRuns hw (Nat.zero_le _) (Nat.le_refl _) fun _ he => absurd he List.not_mem_nil

end Squashfs
