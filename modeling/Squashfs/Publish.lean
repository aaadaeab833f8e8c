import Squashfs.AttributeList
import Squashfs.File
import Squashfs.Path
import Squashfs.Foundation.Oracle

/-!
# What the CLI writes

Model of `read` and `xattr` (`src/cli/squashfs/fs.rs:813-880`, 1054-1115) over a file system that
may refuse them. `read` copies a file's bytes to the standard output or, with `-o FILE`, to
`FILE.partial`, which is renamed to `FILE` when they are all there; `xattr` does the same with an
attribute's value. The operating system may refuse any of it, a write may stop part-way, and the
process may be killed between any two calls.

**`read_publishes`**: at every moment `FILE` is what it was or the whole file, and nothing but
`FILE` and `FILE.partial` has changed. **`read_streams`**: what is on the standard output is the
start of the file, none of it made up. **`xattr_publishes`**: the value of an attribute is published
like a file.

Out of scope: two names for one local file, what a crash of the host leaves on its disk, and the
texts of the messages.
-/

namespace Squashfs

open Foundation Filesystem

namespace Cli

/-! ## The operating system -/

/-- An error of the operating system. -/
structure OsError where
  code : Int
  deriving Repr, DecidableEq

/-- Where bytes go. -/
inductive Sink where
  | stdout
  | file (name : Bytes)
  deriving Repr, DecidableEq

/-- What is asked of the operating system. -/
inductive OsCall where
  | create (name : Bytes)
  | writeAll (sink : Sink) (bytes : Bytes)
  | flush (sink : Sink)
  | removeFile (name : Bytes)
  | rename (name newName : Bytes)
  deriving Repr, DecidableEq

/-- What a verb asks: the reader, or the operating system. -/
inductive HostReq where
  | reader (q : Req)
  | os (call : OsCall)

abbrev HostReply : HostReq → Type
  | .reader q => Reply q
  | .os _ => Except OsError Unit

/-- What every sink holds; a file that does not exist holds nothing. -/
abbrev Host := Sink → Option Bytes

/-- What a call may come to. A name is renamed in one step, a write may stop part-way, and any call
may be refused. -/
inductive OsCall.Act (s : Host) : OsCall → Except OsError Unit → Host → Prop
  | created {name} : Act s (.create name) (.ok ()) (Function.update s (.file name) (some []))
  | wrote {sink held bytes} (h : s sink = some held) :
    Act s (.writeAll sink bytes) (.ok ()) (Function.update s sink (some (held ++ bytes)))
  | wroteSome {sink held bytes e} (h : s sink = some held) (n : Nat) :
    Act s (.writeAll sink bytes) (.error e) (Function.update s sink (some (held ++ bytes.take n)))
  | flushed {sink} : Act s (.flush sink) (.ok ()) s
  | removed {name held} (h : s (.file name) = some held) :
    Act s (.removeFile name) (.ok ()) (Function.update s (.file name) none)
  | renamed {name newName held} (h : s (.file name) = some held) :
    Act s (.rename name newName) (.ok ())
      (Function.update (Function.update s (.file name) none) (.file newName) (some held))
  | refused {call e} : Act s call (.error e) s

/-- The reader's answers, and the operating system's. -/
def host (f : ∀ q, Reply q) : Oracle HostReq HostReply Host := fun s q r s' =>
  match q with
  | .reader q => r = f q ∧ s' = s
  | .os call => call.Act s r s'

/-- A system that refuses only what it has to. -/
def OsCall.grant (s : Host) : OsCall → Except OsError Unit × Host
  | .create name => (.ok (), Function.update s (.file name) (some []))
  | .writeAll sink bytes =>
    match s sink with
    | some held => (.ok (), Function.update s sink (some (held ++ bytes)))
    | none => (.error ⟨9⟩, s)
  | .flush _ => (.ok (), s)
  | .removeFile name =>
    match s (.file name) with
    | some _ => (.ok (), Function.update s (.file name) none)
    | none => (.error ⟨2⟩, s)
  | .rename name newName =>
    match s (.file name) with
    | some held =>
      (.ok (), Function.update (Function.update s (.file name) none) (.file newName) (some held))
    | none => (.error ⟨2⟩, s)

theorem OsCall.act_grant (s : Host) (call : OsCall) :
    call.Act s (call.grant s).1 (call.grant s).2 := by
  cases call with
  | create name => exact .created
  | flush sink => exact .flushed
  | writeAll sink bytes =>
    unfold OsCall.grant
    dsimp only
    split
    · rename_i held h
      exact .wrote h
    · exact .refused
  | removeFile name =>
    unfold OsCall.grant
    dsimp only
    split
    · rename_i held h
      exact .removed h
    · exact .refused
  | rename name newName =>
    unfold OsCall.grant
    dsimp only
    split
    · rename_i held h
      exact .renamed h
    · exact .refused

/-- The host of that system. -/
def granted (f : ∀ q, Reply q) (s : Host) : (q : HostReq) → HostReply q × Host
  | .reader q => (f q, s)
  | .os call => call.grant s

theorem host_granted (f : ∀ q, Reply q) (s : Host) (q : HostReq) :
    host f s q (granted f s q).1 (granted f s q).2 := by
  cases q with
  | reader q => exact ⟨rfl, rfl⟩
  | os call => exact call.act_grant s

/-! ## The verbs -/

/-- What a verb that writes fails with. -/
inductive OutputError where
  | squashfsError (what : Bytes) (e : Error)
  | isADirectory (what : Bytes)
  | isASymlink (what target : Bytes)
  | notARegularFile (what : Bytes)
  | shortRead (what : Bytes) (offset size : Nat)
  | noAttribute (what name : Bytes)
  | write (e : OsError)
  | create (name : Bytes) (e : OsError)
  | renameTo (dest : Bytes) (e : OsError)
  | writeTo (dest : Bytes) (e : OsError)
  deriving Repr, DecidableEq

/-- Programs over a host. -/
abbrev HostM (α : Type) := Asking HostReq HostReply OutputError α

/-- Ask the reader. -/
def askReader (q : Req) : Query HostReq HostReply (Reply q) := Query.query (HostReq.reader q)

/-- A call of the reader whose error is about `what`. -/
def reading {α : Type} (what : Bytes) (m : Prog α) : HostM α :=
  ExceptT.mk ((m.mapErr (OutputError.squashfsError what)).run.through askReader)

/-- A call of the operating system. -/
def asked (why : OsError → OutputError) (call : OsCall) : HostM Unit := ExceptT.mk do
  match ← (Query.query (HostReq.os call) : Query HostReq HostReply (Except OsError Unit)) with
  | .ok () => return .ok ()
  | .error e => return .error (.err (why e))

/-- A program with its failure handed to the caller. -/
def attempted {α : Type} (m : HostM α) : HostM (Outcome OutputError α) :=
  ExceptT.mk (Except.ok <$> m.run)

/-- `read_file` into a window of the buffer: how much was read, and the window after it. -/
def readAt (fs : Filesystem) (path : Bytes) (inode : Inode) (offset : Nat) (window : Bytes) :
    HostM (Nat × Bytes) := ExceptT.mk do
  let r ← (StateT.run (fs.readFile inode (UInt64.ofNat offset)).run window).through askReader
  return (mapErr (OutputError.squashfsError path) r.1).map fun got => (got, r.2)

/-- How much is read at a time. -/
def CHUNK : Nat := 0x100000

/-- `while offset < size`. -/
def copyLoop (fs : Filesystem) (path : Bytes) (inode : Inode) (sink : Sink) :
    (turns offset : Nat) → Bytes → HostM Unit
  | 0, offset, _ =>
    if offset < inode.fileSize.toNat then throw .diverge else asked .write (.flush sink)
  | turns + 1, offset, buf =>
    if offset < inode.fileSize.toNat then do
      let rest ← (sub64 inode.fileSize.toNat offset : Outcome OutputError Nat)
      let want := min buf.length rest
      let window ← (slice buf 0 want : Outcome OutputError Bytes)
      let (got, window) ← readAt fs path inode offset window
      if got = 0 then throw (.err (.shortRead path offset inode.fileSize.toNat))
      else
        let buf := window ++ buf.drop want
        let bytes ← (slice buf 0 got : Outcome OutputError Bytes)
        asked .write (.writeAll sink bytes)
        let offset ← (add64 offset got : Outcome OutputError Nat)
        copyLoop fs path inode sink turns offset buf
    else asked .write (.flush sink)

/-- `copy` of `read`. -/
def copy (fs : Filesystem) (path : Bytes) (inode : Inode) (sink : Sink) : HostM Unit :=
  copyLoop fs path inode sink inode.fileSize.toNat 0
    (List.replicate (min CHUNK inode.fileSize.toNat) 0)

/-- What `read` refuses before it writes. -/
def regularFile (path : Bytes) (inode : Inode) : Outcome OutputError Unit :=
  match inode.fileType with
  | .regFile => .ok ()
  | .dir => .error (.err (.isADirectory path))
  | .symlink => .error (.err (.isASymlink path inode.symlinkTarget))
  | _ => .error (.err (.notARegularFile path))

/-- `FILE.partial`. -/
def scratchName (dest : Bytes) : Bytes :=
  dest ++ [0x2E, 0x70, 0x61, 0x72, 0x74, 0x69, 0x61, 0x6C]

/-- `match output` of `read`. -/
def copyTo (fs : Filesystem) (path : Bytes) (inode : Inode) : Option Bytes → HostM Unit
  | none => copy fs path inode .stdout
  | some dest => do
    asked (.create (scratchName dest)) (.create (scratchName dest))
    match ← attempted (copy fs path inode (.file (scratchName dest))) with
    | .ok () => asked (.renameTo dest) (.rename (scratchName dest) dest)
    | .error (.err e) =>
      let _ ← attempted (asked .write (.removeFile (scratchName dest)))
      throw (.err e)
    | .error e => throw e

/-- `read`. -/
def read (fs : Filesystem) (path : Bytes) (output : Option Bytes) : HostM Unit := do
  let inode ← reading path (fs.lookupPathBytes path)
  (regularFile path inode : Outcome OutputError Unit)
  copyTo fs path inode output

/-- `fs::write` to the name beside, and the rename. -/
def writeValue (dest value : Bytes) : HostM Unit := do
  asked (.writeTo dest) (.create (scratchName dest))
  asked (.writeTo dest) (.writeAll (.file (scratchName dest)) value)
  asked (.writeTo dest) (.rename (scratchName dest) dest)

/-- `xattr` with a name. -/
def xattr (fs : Filesystem) (path name : Bytes) (output : Option Bytes) : HostM Unit := do
  let inode ← reading path (fs.lookupPathBytes path)
  let value ← reading path (fs.getXattr inode name)
  match value, output with
  | none, _ => throw (.err (.noAttribute path name))
  | some value, none =>
    asked .write (.writeAll .stdout value)
    asked .write (.flush .stdout)
  | some value, some dest =>
    match ← attempted (writeValue dest value) with
    | .ok () => return ()
    | .error (.err e) =>
      let _ ← attempted (asked .write (.removeFile (scratchName dest)))
      throw (.err e)
    | .error e => throw e

end Cli

/-! ## The length of a file -/

section Length

variable {f : ∀ q, Reply q} {fs : Filesystem} {inode : Inode}

/-- A file has as many bytes as its size says. -/
theorem Filesystem.length_fileBytes (hgeo : inode.Geometry fs.sb)
    (hfile : inode.isRegularFile = true) :
    (fs.fileBytes f inode).length = inode.fileSize.toNat := by
  have hbs := fs.sb.blockSize_pos
  have hblock : ∀ i ∈ List.range ((inode.fileSize.toNat + fs.sb.blockSize.toNat - 1) /
      fs.sb.blockSize.toNat),
      ((fs.logicalBlock f inode i).getD (List.replicate (fs.blockLen inode i) 0)).length =
        (chunk fs.sb.blockSize.toNat (List.replicate inode.fileSize.toNat 0) i).length := by
    intro i hi
    have hi := List.mem_range.mp hi
    rw [Nat.lt_iff_add_one_le, Nat.le_div_iff_mul_le hbs, Nat.succ_mul] at hi
    rw [chunk_length, List.length_replicate]
    cases hl : fs.logicalBlock f inode i with
    | none => exact List.length_replicate
    | some b => exact (readLogicalBlock_some hgeo hfile (by omega) hl).1
  have hall := flatten_all_chunks hbs (List.replicate inode.fileSize.toNat 0)
  rw [List.length_replicate] at hall
  have hsame : (fs.fileBlocks f inode).map List.length =
      ((List.range ((inode.fileSize.toNat + fs.sb.blockSize.toNat - 1) /
        fs.sb.blockSize.toNat)).map (chunk fs.sb.blockSize.toNat
          (List.replicate inode.fileSize.toNat 0))).map List.length := by
    unfold fileBlocks
    rw [List.map_map, List.map_map]
    exact List.map_congr_left hblock
  rw [fileBytes, List.length_flatten, hsame, ← List.length_flatten, hall, List.length_replicate]

theorem Filesystem.Available.shorten {lo hi hi' : Nat} (h : fs.Available f inode lo hi)
    (hle : hi' ≤ hi) : fs.Available f inode lo hi' :=
  fun i hi => h i ⟨Nat.lt_of_lt_of_le hi.1 hle, hi.2⟩

/-- A window is there when its two halves are. -/
theorem Filesystem.Available.append {lo mid hi : Nat} (h : fs.Available f inode lo mid)
    (h' : fs.Available f inode mid hi) : fs.Available f inode lo hi := by
  intro i hi
  by_cases hmid : i * fs.sb.blockSize.toNat < mid
  · exact h i ⟨hmid, hi.2⟩
  · have hbs := fs.sb.blockSize_pos
    refine h' i ⟨hi.1, ?_⟩
    rw [Nat.succ_mul]
    omega

end Length

namespace Cli

/-! ## One call -/

section Calls

variable {f : ∀ q, Reply q} {fs : Filesystem} {inv : Host → Prop} {s : Host} {α : Type}

theorem keeps_asked {why : OsError → OutputError} {call : OsCall}
    {post : Outcome OutputError Unit → Host → Prop} (hs : inv s)
    (hok : ∀ s', call.Act s (.ok ()) s' → inv s' ∧ post (.ok ()) s')
    (herr : ∀ e s', call.Act s (.error e) s' → inv s' ∧ post (.error (.err (why e))) s') :
    (host f).Keeps inv post (asked why call).run s := by
  refine ⟨hs, fun r s' hact => ?_⟩
  cases r with
  | ok u => exact hok s' hact
  | error e => exact herr e s' hact

theorem keeps_askReader (q : Req) (hs : inv s) :
    (host f).Keeps inv (fun r s' => r = f q ∧ s' = s) (askReader q) s :=
  Oracle.keeps_query hs fun _ _ ⟨hr, hs'⟩ => ⟨hs' ▸ hs, hr, hs'⟩

/-- **The reader is asked** without a trace. -/
theorem keeps_reading (what : Bytes) (m : Prog α) (hs : inv s) :
    (host f).Keeps inv
      (fun x s' => x = mapErr (OutputError.squashfsError what) (Asking.exec f m) ∧ s' = s)
      (reading what m).run s := by
  have h := Oracle.keeps_through (p := (m.mapErr (OutputError.squashfsError what)).run)
    (fun q => keeps_askReader (f := f) q hs) hs
  rw [← Asking.exec_mapErr]
  exact h

/-- A call of the reader that fails fails with one of its errors. -/
theorem reading_error {what : Bytes} {x : Res α} (hx : Returns x) {e : Fail OutputError}
    (h : .error e = mapErr (OutputError.squashfsError what) x) :
    (∀ a, x ≠ .ok a) ∧ ∃ e', e = .err e' := by
  rcases x with (e' | - | -) | a
  · cases h
    exact ⟨fun _ ha => (by cases ha), _, rfl⟩
  · exact hx.elim
  · exact hx.elim
  · cases h

theorem keeps_readAt (path : Bytes) (inode : Inode) (offset : Nat) (window : Bytes) (hs : inv s) :
    (host f).Keeps inv
      (fun x s' => s' = s ∧ x =
        (mapErr (OutputError.squashfsError path)
          (Stateful.exec f (fs.readFile inode (UInt64.ofNat offset)) window).1).map fun got =>
            (got, (Stateful.exec f (fs.readFile inode (UInt64.ofNat offset)) window).2))
      (readAt fs path inode offset window).run s := by
  refine (Oracle.keeps_through
    (p := StateT.run (fs.readFile inode (UInt64.ofNat offset)).run window)
    (fun q => keeps_askReader (f := f) q hs) hs).bind fun r s' hs' h => ?_
  obtain ⟨rfl, rfl⟩ := h
  exact ⟨hs', rfl, rfl⟩

theorem keeps_attempted {m : HostM α} {mid : Outcome OutputError α → Host → Prop}
    {post : Outcome OutputError (Outcome OutputError α) → Host → Prop}
    (h : (host f).Keeps inv mid m.run s) (hpost : ∀ x s, mid x s → post (.ok x) s) :
    (host f).Keeps inv post (attempted m).run s := by
  show (host f).Keeps inv post (Except.ok <$> m.run) s
  rw [← bind_pure_comp]
  exact h.bind fun x s hs hmid => ⟨hs, hpost x s hmid⟩

end Calls

/-! ## Copying -/

section Copy

variable {f : ∀ q, Reply q} {fs : Filesystem} {inode : Inode} {path : Bytes}

/-- While a file is copied, its sink has the start of it behind what it held, every byte of it read
from a block that is there. -/
structure Copying (f : ∀ q, Reply q) (fs : Filesystem) (inode : Inode) (s₀ : Host) (sink : Sink)
    (held : Bytes) (s : Host) : Prop where
  others : ∀ k, k ≠ sink → s k = s₀ k
  start : ∃ n, n ≤ inode.fileSize.toNat ∧ fs.Available f inode 0 n ∧
    s sink = some (held ++ (fs.fileBytes f inode).take n)

/-- A copy ends with the whole file in its sink, or fails because a write was refused or because a
block is not there. -/
def Copied (f : ∀ q, Reply q) (fs : Filesystem) (inode : Inode) (s₀ : Host) (sink : Sink)
    (held : Bytes) (x : Outcome OutputError Unit) (s : Host) : Prop :=
  (x = .ok () ∧ fs.Available f inode 0 inode.fileSize.toNat ∧
      s = Function.update s₀ sink (some (held ++ fs.fileBytes f inode))) ∨
    ∃ e, x = .error (.err e) ∧
      ((∃ os, e = .write os) ∨ ¬ fs.Available f inode 0 inode.fileSize.toNat)

variable {s₀ : Host} {sink : Sink} {held : Bytes}

theorem copying_at {n : Nat} (hn : n ≤ inode.fileSize.toNat) (hav : fs.Available f inode 0 n) :
    Copying f fs inode s₀ sink held
      (Function.update s₀ sink (some (held ++ (fs.fileBytes f inode).take n))) :=
  ⟨fun _ hk => Function.update_of_ne hk _ _, n, hn, hav, Function.update_self ..⟩

/-- What is left to do at the end of the file. -/
theorem keeps_flush (hgeo : inode.Geometry fs.sb) (hfile : inode.isRegularFile = true)
    (hav : fs.Available f inode 0 inode.fileSize.toNat) :
    (host f).Keeps (Copying f fs inode s₀ sink held) (Copied f fs inode s₀ sink held)
      (asked .write (.flush sink)).run
      (Function.update s₀ sink
        (some (held ++ (fs.fileBytes f inode).take inode.fileSize.toNat))) := by
  have hnow : Copying f fs inode s₀ sink held (Function.update s₀ sink
      (some (held ++ (fs.fileBytes f inode).take inode.fileSize.toNat))) :=
    copying_at (Nat.le_refl _) hav
  have hall : (fs.fileBytes f inode).take inode.fileSize.toNat = fs.fileBytes f inode :=
    List.take_of_length_le (Nat.le_of_eq (length_fileBytes hgeo hfile))
  refine keeps_asked hnow (fun s' hact => ?_) fun e s' hact => ?_
  · cases hact with
    | flushed => exact ⟨hnow, .inl ⟨rfl, hav, by rw [hall]⟩⟩
  · cases hact with
    | refused => exact ⟨hnow, .inr ⟨_, rfl, .inl ⟨e, rfl⟩⟩⟩

/-- **A chunk is read** whole, or a block of it is not there. -/
theorem readFile_chunk (hf : Tame f) (hgeo : inode.Geometry fs.sb)
    (hfile : inode.isRegularFile = true) {offset want : Nat} {window : Bytes}
    (hwindow : window.length = want) (hpos : 0 < want)
    (hin : offset + want ≤ inode.fileSize.toNat) :
    (fs.Available f inode offset (offset + want) ∧
        Stateful.exec f (fs.readFile inode (UInt64.ofNat offset)) window =
          (.ok want, ((fs.fileBytes f inode).drop offset).take want)) ∨
      (¬ fs.Available f inode offset (offset + want) ∧
        ∃ e, (Stateful.exec f (fs.readFile inode (UInt64.ofNat offset)) window).1 =
          .error (.err e)) := by
  have hsize := inode.fileSize.toNat_lt
  have hoffset : (UInt64.ofNat offset).toNat = offset :=
    UInt64.toNat_ofNat_of_lt' (Nat.lt_of_le_of_lt (by omega) hsize)
  have hlt : UInt64.ofNat offset < inode.fileSize := by
    rw [UInt64.lt_iff_toNat_lt, hoffset]
    omega
  have hne : window ≠ [] := List.ne_nil_of_length_pos (by omega)
  have hcount : want = min window.length (inode.fileSize.toNat - (UInt64.ofNat offset).toNat) := by
    rw [hoffset]
    omega
  by_cases hav : fs.Available f inode offset (offset + want)
  · have hread := readFile_ok hgeo hfile hlt hne hcount (by rw [hoffset]; exact hav)
    have hrest : window.drop want = [] := List.drop_of_length_le (Nat.le_of_eq hwindow)
    rw [hoffset, hrest, List.append_nil] at hread
    exact .inl ⟨hav, hread⟩
  · exact .inr ⟨hav, readFile_err hf hgeo hfile hlt hne hcount (by rw [hoffset]; exact hav)⟩

/-- **A chunk is written** whole, or some of it is and the write fails. -/
theorem keeps_write {offset want : Nat} (hin : offset + want ≤ inode.fileSize.toNat)
    (hav : fs.Available f inode 0 (offset + want)) :
    (host f).Keeps (Copying f fs inode s₀ sink held)
      (fun x s => (x = .ok () ∧ s = Function.update s₀ sink
          (some (held ++ (fs.fileBytes f inode).take (offset + want)))) ∨
        ∃ os, x = .error (.err (.write os)))
      (asked .write (.writeAll sink (((fs.fileBytes f inode).drop offset).take want))).run
      (Function.update s₀ sink (some (held ++ (fs.fileBytes f inode).take offset))) := by
  have hnow : Copying f fs inode s₀ sink held
      (Function.update s₀ sink (some (held ++ (fs.fileBytes f inode).take offset))) :=
    copying_at (by omega) (hav.shorten (Nat.le_add_right _ _))
  have hwritten : ∀ {there n}, some there = some (held ++ (fs.fileBytes f inode).take offset) →
      Function.update (Function.update s₀ sink (some there)) sink
          (some (there ++ ((fs.fileBytes f inode).drop offset).take n)) =
        Function.update s₀ sink (some (held ++ (fs.fileBytes f inode).take (offset + n))) := by
    intro there n hthere
    cases hthere
    rw [Function.update_idem, List.append_assoc, ← List.take_add]
  refine keeps_asked hnow (fun s' hact => ?_) fun e s' hact => ?_
  · cases hact with
    | wrote h =>
      rw [Function.update_self] at h
      cases h
      rw [hwritten rfl]
      exact ⟨copying_at hin hav, .inl ⟨rfl, rfl⟩⟩
  · cases hact with
    | wroteSome h n =>
      rw [Function.update_self] at h
      cases h
      rw [List.take_take, hwritten rfl]
      exact ⟨copying_at (by omega) (hav.shorten (by omega)), .inr ⟨e, rfl⟩⟩
    | refused => exact ⟨hnow, .inr ⟨e, rfl⟩⟩

/-- **The loop copies the file**, or fails where it may. -/
theorem keeps_copyLoop (hf : Tame f) (hgeo : inode.Geometry fs.sb)
    (hfile : inode.isRegularFile = true) {turns offset : Nat} {buf : Bytes}
    (hturns : inode.fileSize.toNat - offset ≤ turns) (hoffset : offset ≤ inode.fileSize.toNat)
    (hbuf : offset < inode.fileSize.toNat → buf ≠ []) (hav : fs.Available f inode 0 offset) :
    (host f).Keeps (Copying f fs inode s₀ sink held) (Copied f fs inode s₀ sink held)
      (copyLoop fs path inode sink turns offset buf).run
      (Function.update s₀ sink (some (held ++ (fs.fileBytes f inode).take offset))) := by
  induction turns generalizing offset buf with
  | zero =>
    have hend : offset = inode.fileSize.toNat := by omega
    subst hend
    unfold copyLoop
    rw [if_neg (Nat.lt_irrefl _)]
    exact keeps_flush hgeo hfile hav
  | succ turns ih =>
    unfold copyLoop
    by_cases hlt : offset < inode.fileSize.toNat
    · have hpos := List.length_pos_of_ne_nil (hbuf hlt)
      have hlen := length_fileBytes (f := f) hgeo hfile
      have hnow : Copying f fs inode s₀ sink held (Function.update s₀ sink
          (some (held ++ (fs.fileBytes f inode).take offset))) := copying_at hoffset hav
      obtain ⟨want, hwant⟩ : ∃ want, want = min buf.length (inode.fileSize.toNat - offset) :=
        ⟨_, rfl⟩
      have hwindow : (buf.take want).length = want := by
        rw [List.length_take]
        omega
      have hpos' : 0 < want := by omega
      have hin : offset + want ≤ inode.fileSize.toNat := by omega
      have hsize : inode.fileSize.toNat < wordSize := inode.fileSize.toNat_lt
      have hslice : slice buf 0 want = (.ok (buf.take want) : Outcome OutputError Bytes) :=
        slice_eq_ok.mpr ⟨⟨Nat.zero_le _, by omega⟩, rfl⟩
      rw [if_pos hlt, Asking.run_lift_bind (sub64_ok (Nat.le_of_lt hlt))]
      dsimp only
      rw [← hwant, Asking.run_lift_bind hslice]
      refine (keeps_readAt path inode offset (buf.take want) hnow).bind_asking ?_ ?_
      · rintro ⟨got, window⟩ s hs ⟨rfl, hread⟩
        rcases readFile_chunk hf hgeo hfile hwindow hpos' hin with
          ⟨hchunk, hexec⟩ | ⟨hchunk, e, hexec⟩
        · rw [hexec] at hread
          cases hread
          have hav' := hav.append hchunk
          have hwhole : (((fs.fileBytes f inode).drop offset).take want).length = want := by
            rw [List.length_take, List.length_drop]
            omega
          have hbytes : slice (((fs.fileBytes f inode).drop offset).take want ++ buf.drop want) 0
              want = (.ok (((fs.fileBytes f inode).drop offset).take want) :
                Outcome OutputError Bytes) := by
            refine slice_eq_ok.mpr ⟨⟨Nat.zero_le _, ?_⟩, ?_⟩
            · rw [List.length_append]
              omega
            · rw [List.drop_zero, Nat.sub_zero, List.take_left' hwhole]
          dsimp only
          rw [if_neg (Nat.ne_of_gt hpos'), Asking.run_lift_bind hbytes]
          refine (keeps_write hin hav').bind_asking ?_ ?_
          · intro _ s _ hwritten
            rcases hwritten with ⟨-, rfl⟩ | ⟨os, hos⟩
            · rw [Asking.run_lift_bind (add64_ok (Nat.lt_of_le_of_lt hin hsize))]
              refine ih (by omega) hin (fun _ => ?_) hav'
              refine List.ne_nil_of_length_pos ?_
              rw [List.length_append, List.length_take, List.length_drop]
              omega
            · cases hos
          · intro e s hfailed
            rcases hfailed with ⟨he, -⟩ | ⟨os, hos⟩
            · cases he
            · cases hos
              exact .inr ⟨_, rfl, .inl ⟨os, rfl⟩⟩
        · rw [hexec] at hread
          cases hread
      · rintro e s ⟨rfl, hread⟩
        rcases readFile_chunk hf hgeo hfile hwindow hpos' hin with
          ⟨hchunk, hexec⟩ | ⟨hchunk, e', hexec⟩
        · rw [hexec] at hread
          cases hread
        · rw [hexec] at hread
          cases hread
          refine .inr ⟨_, rfl, .inr fun hall => hchunk ?_⟩
          exact (hall.mono (Nat.zero_le _)).shorten hin
    · have hend : offset = inode.fileSize.toNat := by omega
      subst hend
      rw [if_neg hlt]
      exact keeps_flush hgeo hfile hav

end Copy

/-! ## Publishing -/

section Publish

variable {f : ∀ q, Reply q} {fs : Filesystem} {inode : Inode} {path name dest : Bytes}
  {s₀ s : Host} {whole : Bytes → Prop} {allowed : Prop}

/-- The error is the operating system's. -/
def OutputError.FromOs : OutputError → Prop
  | .write _ | .create _ _ | .renameTo _ _ | .writeTo _ _ => True
  | _ => False

/-- While something is published under a name, the name has what it had or the whole of it, nothing
changes but the name and the one beside it, and nothing at all unless it may be published. -/
structure Publishing (whole : Bytes → Prop) (allowed : Prop) (s₀ : Host) (dest : Bytes)
    (s : Host) : Prop where
  others : ∀ k, k ≠ .file dest → k ≠ .file (scratchName dest) → s k = s₀ k
  dest : s (.file dest) = s₀ (.file dest) ∨ ∃ b, whole b ∧ s (.file dest) = some b
  untouched : ¬ allowed → s = s₀

/-- In the end it is published, or it failed and was the operating system's failure or there was
nothing whole to publish. -/
def Published (whole : Bytes → Prop) (s₀ : Host) (dest : Bytes) (x : Outcome OutputError Unit)
    (s : Host) : Prop :=
  (x = .ok () ∧ (∃ b, whole b ∧ s (.file dest) = some b) ∧ s (.file (scratchName dest)) = none) ∨
    ∃ e, x = .error (.err e) ∧ s (.file dest) = s₀ (.file dest) ∧ (e.FromOs ∨ ∀ b, ¬ whole b)

theorem scratchName_ne (dest : Bytes) : Sink.file (scratchName dest) ≠ .file dest := by
  intro h
  have hlen := congrArg List.length (Sink.file.inj h)
  simp [scratchName] at hlen

theorem Publishing.start : Publishing whole allowed s₀ dest s₀ :=
  ⟨fun _ _ _ => rfl, .inl rfl, fun _ => rfl⟩

/-- Only the name beside has changed. -/
theorem Publishing.beside (hallowed : allowed)
    (h : ∀ k, k ≠ .file (scratchName dest) → s k = s₀ k) : Publishing whole allowed s₀ dest s :=
  ⟨fun k _ hk => h k hk, .inl (h _ (scratchName_ne dest).symm), fun hn => absurd hallowed hn⟩

/-- The name beside is made, or nothing is done. -/
theorem keeps_create {why : OsError → OutputError} (hallowed : allowed)
    (hwhy : ∀ e, (why e).FromOs) :
    (host f).Keeps (Publishing whole allowed s₀ dest)
      (fun x s => (x = .ok () ∧ s = Function.update s₀ (.file (scratchName dest)) (some [])) ∨
        ∃ e, x = .error (.err e) ∧ e.FromOs ∧ s = s₀)
      (asked why (.create (scratchName dest))).run s₀ := by
  refine keeps_asked .start (fun s' hact => ?_) fun e s' hact => ?_
  · cases hact with
    | created =>
      exact ⟨.beside hallowed fun k hk => Function.update_of_ne hk _ _, .inl ⟨rfl, rfl⟩⟩
  · cases hact with
    | refused => exact ⟨.start, .inr ⟨_, rfl, hwhy e, rfl⟩⟩

/-- **The name is put in its place**, or nothing is done. -/
theorem keeps_rename {why : OsError → OutputError} {b : Bytes} (hallowed : allowed) (hb : whole b)
    (hwhy : ∀ e, (why e).FromOs) (h : s = Function.update s₀ (.file (scratchName dest)) (some b)) :
    (host f).Keeps (Publishing whole allowed s₀ dest) (Published whole s₀ dest)
      (asked why (.rename (scratchName dest) dest)).run s := by
  have hothers : ∀ k, k ≠ .file (scratchName dest) → s k = s₀ k := by
    intro k hk
    rw [h, Function.update_of_ne hk]
  have hnow : Publishing whole allowed s₀ dest s := .beside hallowed hothers
  refine keeps_asked hnow (fun s' hact => ?_) fun e s' hact => ?_
  · cases hact with
    | renamed hheld =>
      rw [h, Function.update_self] at hheld
      cases hheld
      refine ⟨⟨fun k hk hk' => ?_, .inr ⟨b, hb, Function.update_self ..⟩,
        fun hn => absurd hallowed hn⟩, .inl ⟨rfl, ⟨b, hb, Function.update_self ..⟩, ?_⟩⟩
      · rw [Function.update_of_ne hk, Function.update_of_ne hk', hothers k hk']
      · rw [Function.update_of_ne (scratchName_ne dest), Function.update_self]
  · cases hact with
    | refused => exact ⟨hnow, .inr ⟨_, rfl, hothers _ (scratchName_ne dest).symm, .inl (hwhy e)⟩⟩

/-- **The name beside is cleaned up**, if it can be, and the failure is passed on. -/
theorem keeps_remove {e : OutputError} (hallowed : allowed)
    (hothers : ∀ k, k ≠ .file (scratchName dest) → s k = s₀ k)
    (he : e.FromOs ∨ ∀ b, ¬ whole b) :
    (host f).Keeps (Publishing whole allowed s₀ dest) (Published whole s₀ dest)
      (do
        let _ ← attempted (asked .write (.removeFile (scratchName dest)))
        throw (.err e) : HostM Unit).run s := by
  have hremoved : (host f).Keeps (Publishing whole allowed s₀ dest)
      (fun _ s' => ∀ k, k ≠ .file (scratchName dest) → s' k = s₀ k)
      (asked .write (.removeFile (scratchName dest))).run s := by
    refine keeps_asked (.beside hallowed hothers) (fun s' hact => ?_) fun e s' hact => ?_
    · cases hact with
      | removed hheld =>
        have hothers' : ∀ k, k ≠ Sink.file (scratchName dest) →
            Function.update s (.file (scratchName dest)) none k = s₀ k := by
          intro k hk
          rw [Function.update_of_ne hk, hothers k hk]
        exact ⟨.beside hallowed hothers', hothers'⟩
    · cases hact with
      | refused => exact ⟨.beside hallowed hothers, hothers⟩
  have hattempted : (host f).Keeps (Publishing whole allowed s₀ dest)
      (fun x s' => x.isOk = true ∧ ∀ k, k ≠ .file (scratchName dest) → s' k = s₀ k)
      (attempted (asked .write (.removeFile (scratchName dest)))).run s :=
    keeps_attempted hremoved fun _ _ h => ⟨rfl, h⟩
  refine hattempted.bind_asking (fun _ s' hs' h => ?_) fun e s' h => ?_
  · exact ⟨hs', .inr ⟨e, rfl, h.2 _ (scratchName_ne dest).symm, he⟩⟩
  · exact absurd h.1 Bool.false_ne_true

end Publish

/-! ## Files -/

section Files

variable {f : ∀ q, Reply q} {fs : Filesystem} {inode : Inode} {path dest : Bytes} {s₀ : Host}

/-- The path leads to a regular file. -/
def FileAt (f : ∀ q, Reply q) (fs : Filesystem) (path : Bytes) (inode : Inode) : Prop :=
  Asking.exec f (fs.lookupPathBytes path) = .ok inode ∧ inode.isRegularFile = true

/-- The bytes of the file at a path, when every block of it is there. -/
def WholeFile (f : ∀ q, Reply q) (fs : Filesystem) (path : Bytes) (b : Bytes) : Prop :=
  ∃ inode, FileAt f fs path inode ∧ fs.Available f inode 0 inode.fileSize.toNat ∧
    b = fs.fileBytes f inode

/-- The start of the file at a path, up to where every block of it is there. -/
def StartOfFile (f : ∀ q, Reply q) (fs : Filesystem) (path : Bytes) (b : Bytes) : Prop :=
  ∃ inode n, FileAt f fs path inode ∧ n ≤ inode.fileSize.toNat ∧ fs.Available f inode 0 n ∧
    b = (fs.fileBytes f inode).take n

theorem regularFile_ok (hfile : inode.isRegularFile = true) : regularFile path inode = .ok () := by
  have htype : inode.fileType = .regFile := beq_iff_eq.mp hfile
  unfold regularFile
  rw [htype]

theorem regularFile_error (path : Bytes) (hfile : ¬ inode.isRegularFile = true) :
    ∃ e, regularFile path inode = .error (.err e) := by
  unfold regularFile
  split
  · rename_i htype
    exact absurd (beq_iff_eq.mpr htype) hfile
  all_goals exact ⟨_, rfl⟩

theorem FileAt.geometry (hf : Tame f) (h : FileAt f fs path inode) : inode.Geometry fs.sb := by
  have hsafe := safe_lookupPathBytes hf fs path
  rw [h.1] at hsafe
  exact hsafe

theorem WholeFile.iff_available (h : FileAt f fs path inode) :
    (∃ b, WholeFile f fs path b) ↔ fs.Available f inode 0 inode.fileSize.toNat := by
  constructor
  · rintro ⟨b, inode', h', hav, -⟩
    rw [Except.ok.inj (h.1.symm.trans h'.1)]
    exact hav
  · exact fun hav => ⟨_, inode, h, hav, rfl⟩

/-- **`read` begins** with a lookup that may fail and a check that may refuse. -/
theorem keeps_read_start (hf : Tame f) {inv : Host → Prop}
    {post : Outcome OutputError Unit → Host → Prop} {output : Option Bytes} (hs : inv s₀)
    (hfile : ∀ inode, FileAt f fs path inode →
      (host f).Keeps inv post (copyTo fs path inode output).run s₀)
    (hnone : (∀ inode, ¬ FileAt f fs path inode) → ∀ e, post (.error (.err e)) s₀) :
    (host f).Keeps inv post (read fs path output).run s₀ := by
  unfold read
  refine (keeps_reading path (fs.lookupPathBytes path) hs).bind_asking ?_ ?_
  · rintro inode s - ⟨hlookup, rfl⟩
    have hlookup := mapErr_eq_ok.mp hlookup.symm
    by_cases hreg : inode.isRegularFile = true
    · rw [Asking.run_lift_bind (regularFile_ok hreg)]
      exact hfile inode ⟨hlookup, hreg⟩
    · obtain ⟨e, he⟩ := regularFile_error path hreg
      rw [Asking.run_throw_bind he]
      refine ⟨hs, hnone (fun inode' h => hreg ?_) e⟩
      rw [Except.ok.inj (hlookup.symm.trans h.1)]
      exact h.2
  · rintro e s ⟨hlookup, rfl⟩
    obtain ⟨hno, e', rfl⟩ := reading_error (safe_lookupPathBytes hf fs path).returns hlookup
    exact hnone (fun inode h => hno inode h.1) e'

/-- The copy starts with a sink that holds what it held. -/
theorem keeps_copy (hf : Tame f) (h : FileAt f fs path inode) {sink : Sink} {held : Bytes}
    {s : Host} (hs : s = Function.update s₀ sink (some held)) :
    (host f).Keeps (Copying f fs inode s₀ sink held) (Copied f fs inode s₀ sink held)
      (copy fs path inode sink).run s := by
  have hgeo := h.geometry hf
  have hnone : fs.Available f inode 0 0 := fun i hi => absurd hi.1 (Nat.not_lt_zero _)
  have hbuf : 0 < inode.fileSize.toNat →
      List.replicate (min CHUNK inode.fileSize.toNat) (0 : UInt8) ≠ [] := by
    intro hpos
    refine List.ne_nil_of_length_pos ?_
    rw [List.length_replicate]
    exact Nat.lt_min.mpr ⟨by decide, hpos⟩
  have hstart : s = Function.update s₀ sink (some (held ++ (fs.fileBytes f inode).take 0)) := by
    rw [List.take_zero, List.append_nil, hs]
  rw [hstart]
  exact keeps_copyLoop hf hgeo h.2 (Nat.le_refl _) (Nat.zero_le _) hbuf hnone

/-- **A file is published** from the name beside. -/
theorem keeps_copyTo (hf : Tame f) (h : FileAt f fs path inode) :
    (host f).Keeps
      (Publishing (WholeFile f fs path) (∃ inode, FileAt f fs path inode) s₀ dest)
      (Published (WholeFile f fs path) s₀ dest) (copyTo fs path inode (some dest)).run s₀ := by
  have hallowed : ∃ inode, FileAt f fs path inode := ⟨inode, h⟩
  have hwhy : ∀ e, (OutputError.create (scratchName dest) e).FromOs := fun _ => trivial
  refine (keeps_create hallowed hwhy).bind_asking (fun _ s _ hcreated => ?_) fun e s hfailed => ?_
  · rcases hcreated with ⟨-, hs⟩ | ⟨e, he, -⟩
    · have hcopy : (host f).Keeps
          (Publishing (WholeFile f fs path) (∃ inode, FileAt f fs path inode) s₀ dest)
          (fun x s => Copied f fs inode s₀ (.file (scratchName dest)) [] x s ∧
            ∀ k, k ≠ .file (scratchName dest) → s k = s₀ k)
          (copy fs path inode (.file (scratchName dest))).run s :=
        (keeps_copy hf h hs).mono (fun s hs => .beside hallowed hs.others)
          fun x s hs hcopied => ⟨hcopied, hs.others⟩
      have hattempted : (host f).Keeps
          (Publishing (WholeFile f fs path) (∃ inode, FileAt f fs path inode) s₀ dest)
          (fun y s => ∃ x, y = .ok x ∧
            Copied f fs inode s₀ (.file (scratchName dest)) [] x s ∧
            ∀ k, k ≠ .file (scratchName dest) → s k = s₀ k)
          (attempted (copy fs path inode (.file (scratchName dest)))).run s :=
        keeps_attempted hcopy fun x s hx => ⟨x, rfl, hx⟩
      refine hattempted.bind_asking (fun x s _ hx => ?_) fun e s hx => ?_
      · obtain ⟨x', hx', hcopied, hothers⟩ := hx
        cases hx'
        rcases hcopied with ⟨rfl, hav, hs⟩ | ⟨e, rfl, he⟩
        · exact keeps_rename hallowed ⟨inode, h, hav, rfl⟩ (fun _ => trivial) hs
        · have hwhy : e.FromOs ∨ ∀ b, ¬ WholeFile f fs path b := by
            rcases he with ⟨os, rfl⟩ | hnot
            · exact .inl trivial
            · exact .inr fun b hb => hnot ((WholeFile.iff_available h).mp ⟨b, hb⟩)
          exact keeps_remove hallowed hothers hwhy
      · obtain ⟨x, hx, -⟩ := hx
        cases hx
    · cases he
  · rcases hfailed with ⟨he, -⟩ | ⟨e', he, hos, rfl⟩
    · cases he
    · cases he
      exact .inr ⟨e', rfl, rfl, .inl hos⟩

/-- What is on the standard output while a file is read to it. -/
structure Streaming (f : ∀ q, Reply q) (fs : Filesystem) (path : Bytes) (s₀ : Host) (held : Bytes)
    (s : Host) : Prop where
  others : ∀ k, k ≠ .stdout → s k = s₀ k
  start : ∃ b, s .stdout = some (held ++ b) ∧ (b = [] ∨ StartOfFile f fs path b)

/-- In the end it is all there, or it failed and was the operating system's failure or a block of
the file is not there. -/
def Streamed (f : ∀ q, Reply q) (fs : Filesystem) (path : Bytes) (held : Bytes)
    (x : Outcome OutputError Unit) (s : Host) : Prop :=
  (x = .ok () ∧ ∃ b, WholeFile f fs path b ∧ s .stdout = some (held ++ b)) ∨
    ∃ e, x = .error (.err e) ∧ (e.FromOs ∨ ∀ b, ¬ WholeFile f fs path b)

theorem keeps_copy_stdout (hf : Tame f) (h : FileAt f fs path inode) {held : Bytes}
    (hheld : s₀ .stdout = some held) :
    (host f).Keeps (Streaming f fs path s₀ held) (Streamed f fs path held)
      (copy fs path inode .stdout).run s₀ := by
  have hsame : s₀ = Function.update s₀ .stdout (some held) := by
    rw [← hheld, Function.update_eq_self]
  refine (keeps_copy hf h hsame).mono (fun s hs => ?_) fun x s hs hcopied => ?_
  · obtain ⟨n, hn, hav, hstart⟩ := hs.start
    exact ⟨hs.others, _, hstart, .inr ⟨inode, n, h, hn, hav, rfl⟩⟩
  · rcases hcopied with ⟨rfl, hav, rfl⟩ | ⟨e, rfl, ⟨os, rfl⟩ | hnot⟩
    · exact .inl ⟨rfl, _, ⟨inode, h, hav, rfl⟩, Function.update_self ..⟩
    · exact .inr ⟨_, rfl, .inl trivial⟩
    · exact .inr ⟨e, rfl, .inr fun b hb => hnot ((WholeFile.iff_available h).mp ⟨b, hb⟩)⟩

theorem no_wholeFile (h : ∀ inode, ¬ FileAt f fs path inode) (b : Bytes) :
    ¬ WholeFile f fs path b := fun ⟨inode, hfile, _⟩ => h inode hfile

end Files

/-- **A file is published whole or not at all.** Whatever the operating system does, and wherever
the run is cut off: the name has what it had or the whole file, nothing else but the name beside it
has changed, and nothing at all where there is no regular file to read. A run that ends has
published the file and cleaned up, or failed with the name as it was, because the operating system
refused something or a block of the file is not there. -/
theorem read_publishes (codecs : Codecs) (fs : Filesystem) (path dest : Bytes) (s₀ : Host)
    {p : Query HostReq HostReply (Outcome OutputError Unit)} {s : Host}
    (hrun : Relation.ReflTransGen (host (fs.answers codecs)).Step
      ((read fs path (some dest)).run, s₀) (p, s)) :
    Publishing (WholeFile (fs.answers codecs) fs path)
        (∃ inode, FileAt (fs.answers codecs) fs path inode) s₀ dest s ∧
      ∀ x, p = .ret x → Published (WholeFile (fs.answers codecs) fs path) s₀ dest x s := by
  have hf := fs.tame_answers codecs
  refine Oracle.Keeps.run (keeps_read_start hf .start (fun inode h => keeps_copyTo hf h)
    fun hnone e => ?_) hrun
  exact .inr ⟨e, rfl, rfl, .inr (no_wholeFile hnone)⟩

/-- A file of the sample image is written to `o`, where nothing is. -/
theorem read_publishes_sample :
    ∃ x s, Relation.ReflTransGen (host (sample.answers .none)).Step
        ((read sample [0x61] (some [0x6F])).run, fun _ => none) (.ret x, s) ∧
      s (.file [0x6F]) = some [0x44, 0x80, 0x01] ∧
      Published (WholeFile (sample.answers .none) sample [0x61]) (fun _ => none) [0x6F] x s := by
  have hrun := Oracle.run_follow (host_granted (sample.answers .none))
    (read sample [0x61] (some [0x6F])).run (fun _ => none)
  have hdest : (Oracle.follow (granted (sample.answers .none))
      (read sample [0x61] (some [0x6F])).run (fun _ => none)).2 (.file [0x6F]) =
        some [0x44, 0x80, 0x01] := by decide +kernel
  exact ⟨_, _, hrun, hdest,
    (read_publishes .none sample [0x61] [0x6F] (fun _ => none) hrun).2 _ rfl⟩

/-- **What is streamed is true.** Whatever the operating system does, and wherever the run is cut
off: what has come out is the start of the file, every byte of it from a block that is there, and
no file is touched. A run that ends has put out the whole file, or failed because the operating
system refused something or a block of the file is not there. -/
theorem read_streams (codecs : Codecs) (fs : Filesystem) (path held : Bytes) {s₀ : Host}
    (hheld : s₀ .stdout = some held)
    {p : Query HostReq HostReply (Outcome OutputError Unit)} {s : Host}
    (hrun : Relation.ReflTransGen (host (fs.answers codecs)).Step
      ((read fs path none).run, s₀) (p, s)) :
    Streaming (fs.answers codecs) fs path s₀ held s ∧
      ∀ x, p = .ret x → Streamed (fs.answers codecs) fs path held x s := by
  have hf := fs.tame_answers codecs
  have hstart : Streaming (fs.answers codecs) fs path s₀ held s₀ :=
    ⟨fun _ _ => rfl, [], by rw [List.append_nil, hheld], .inl rfl⟩
  refine Oracle.Keeps.run (keeps_read_start hf hstart (fun inode h => keeps_copy_stdout hf h hheld)
    fun hnone e => ?_) hrun
  exact .inr ⟨e, rfl, .inr (no_wholeFile hnone)⟩

/-- A file of the sample image is read to the standard output, behind what is there. -/
theorem read_streams_sample :
    ∃ x s, Relation.ReflTransGen (host (sample.answers .none)).Step
        ((read sample [0x61] none).run, Function.update (fun _ => none) .stdout (some [7]))
        (.ret x, s) ∧
      s .stdout = some [7, 0x44, 0x80, 0x01] ∧
      Streamed (sample.answers .none) sample [0x61] [7] x s := by
  have hrun := Oracle.run_follow (host_granted (sample.answers .none)) (read sample [0x61] none).run
    (Function.update (fun _ => none) .stdout (some [7]))
  have hout : (Oracle.follow (granted (sample.answers .none)) (read sample [0x61] none).run
      (Function.update (fun _ => none) .stdout (some [7]))).2 .stdout =
        some [7, 0x44, 0x80, 0x01] := by decide +kernel
  exact ⟨_, _, hrun, hout,
    (read_streams .none sample [0x61] [7] (Function.update_self ..) hrun).2 _ rfl⟩

/-! ## Attributes -/

section Attributes

variable {f : ∀ q, Reply q} {fs : Filesystem} {path name dest value : Bytes} {s₀ : Host}

/-- The value of an attribute of what a path leads to. -/
def AttributeAt (f : ∀ q, Reply q) (fs : Filesystem) (path name value : Bytes) : Prop :=
  ∃ inode, Asking.exec f (fs.lookupPathBytes path) = .ok inode ∧
    Asking.exec f (fs.getXattr inode name) = .ok (some value)

/-- The value is written beside, or some of it is and the write fails. -/
theorem keeps_writeBeside {whole : Bytes → Prop} {allowed : Prop} {s : Host}
    (hallowed : allowed) (hs : s = Function.update s₀ (.file (scratchName dest)) (some [])) :
    (host f).Keeps (Publishing whole allowed s₀ dest)
      (fun x s => (x = .ok () ∧ s = Function.update s₀ (.file (scratchName dest)) (some value)) ∨
        ∃ e, x = .error (.err e) ∧ e.FromOs ∧ ∀ k, k ≠ .file (scratchName dest) → s k = s₀ k)
      (asked (.writeTo dest) (.writeAll (.file (scratchName dest)) value)).run s := by
  have hothers : ∀ {b} k, k ≠ Sink.file (scratchName dest) →
      Function.update s₀ (.file (scratchName dest)) b k = s₀ k :=
    fun k hk => Function.update_of_ne hk _ _
  subst hs
  refine keeps_asked (.beside hallowed hothers) (fun s' hact => ?_) fun e s' hact => ?_
  · cases hact with
    | wrote hheld =>
      rw [Function.update_self] at hheld
      cases hheld
      rw [Function.update_idem, List.nil_append]
      exact ⟨.beside hallowed hothers, .inl ⟨rfl, rfl⟩⟩
  · cases hact with
    | wroteSome hheld n =>
      rw [Function.update_idem]
      exact ⟨.beside hallowed hothers, .inr ⟨_, rfl, trivial, hothers⟩⟩
    | refused => exact ⟨.beside hallowed hothers, .inr ⟨_, rfl, trivial, hothers⟩⟩

/-- **A value is written** and put in its place, or the operating system refuses. -/
theorem keeps_writeValue {whole : Bytes → Prop} {allowed : Prop} (hallowed : allowed)
    (hvalue : whole value) :
    (host f).Keeps (Publishing whole allowed s₀ dest)
      (fun x s => (x = .ok () ∧ Published whole s₀ dest x s) ∨
        ∃ e, x = .error (.err e) ∧ e.FromOs ∧ ∀ k, k ≠ .file (scratchName dest) → s k = s₀ k)
      (writeValue dest value).run s₀ := by
  have hwhy : ∀ e, (OutputError.writeTo dest e).FromOs := fun _ => trivial
  unfold writeValue
  refine (keeps_create hallowed hwhy).bind_asking (fun _ s _ hcreated => ?_) fun e s hfailed => ?_
  · rcases hcreated with ⟨-, hs⟩ | ⟨e, he, -⟩
    · refine (keeps_writeBeside hallowed hs).bind_asking (fun _ s _ hwritten => ?_)
        fun e s hfailed => ?_
      · rcases hwritten with ⟨-, hs⟩ | ⟨e, he, -⟩
        · refine (keeps_rename hallowed hvalue hwhy hs).mono (fun _ h => h)
            fun x s hs hx => ?_
          rcases hx with ⟨rfl, hdest⟩ | ⟨e, rfl, hdest, hos | hnone⟩
          · exact .inl ⟨rfl, .inl ⟨rfl, hdest⟩⟩
          · refine .inr ⟨e, rfl, hos, fun k hk => ?_⟩
            by_cases hkdest : k = .file dest
            · rw [hkdest, hdest]
            · exact hs.others k hkdest hk
          · exact absurd hvalue (hnone value)
        · cases he
      · rcases hfailed with ⟨he, -⟩ | h
        · cases he
        · obtain ⟨e', he, h⟩ := h
          cases he
          exact .inr ⟨e', rfl, h⟩
    · cases he
  · rcases hfailed with ⟨he, -⟩ | ⟨e', he, hos, rfl⟩
    · cases he
    · cases he
      exact .inr ⟨e', rfl, hos, fun _ _ => rfl⟩

/-- **The verb** publishes the value there is. -/
theorem keeps_xattr (hf : Tame f) :
    (host f).Keeps
      (Publishing (AttributeAt f fs path name) (∃ value, AttributeAt f fs path name value) s₀ dest)
      (Published (AttributeAt f fs path name) s₀ dest) (xattr fs path name (some dest)).run s₀ := by
  unfold xattr
  refine (keeps_reading path (fs.lookupPathBytes path) .start).bind_asking ?_ ?_
  · rintro inode s - ⟨hlookup, rfl⟩
    have hlookup := mapErr_eq_ok.mp hlookup.symm
    have hvalue : ∀ {v}, AttributeAt f fs path name v ↔
        Asking.exec f (fs.getXattr inode name) = .ok (some v) := by
      intro v
      refine ⟨fun ⟨inode', h, hget⟩ => ?_, fun hget => ⟨inode, hlookup, hget⟩⟩
      rw [Except.ok.inj (hlookup.symm.trans h)]
      exact hget
    refine (keeps_reading path (fs.getXattr inode name) .start).bind_asking ?_ ?_
    · rintro found s - ⟨hget, rfl⟩
      have hget := mapErr_eq_ok.mp hget.symm
      cases found with
      | none =>
        refine ⟨.start, .inr ⟨_, rfl, rfl, .inr fun b hb => ?_⟩⟩
        rw [hvalue, hget] at hb
        cases hb
      | some value =>
        have hthere := hvalue.mpr hget
        have hallowed : ∃ value, AttributeAt f fs path name value := ⟨value, hthere⟩
        have hattempted : (host f).Keeps
            (Publishing (AttributeAt f fs path name)
              (∃ value, AttributeAt f fs path name value) s dest)
            (fun y s' => ∃ x, y = .ok x ∧
              ((x = .ok () ∧ Published (AttributeAt f fs path name) s dest x s') ∨
                ∃ e, x = .error (.err e) ∧ e.FromOs ∧
                  ∀ k, k ≠ .file (scratchName dest) → s' k = s k))
            (attempted (writeValue dest value)).run s :=
          keeps_attempted (keeps_writeValue hallowed hthere) fun x _ hx => ⟨x, rfl, hx⟩
        refine hattempted.bind_asking (fun x s' hs' hx => ?_) fun e s' hx => ?_
        · obtain ⟨x', hx', ⟨rfl, hpublished⟩ | ⟨e, rfl, hos, hothers⟩⟩ := hx
          · cases hx'
            exact ⟨hs', hpublished⟩
          · cases hx'
            exact keeps_remove hallowed hothers (.inl hos)
        · obtain ⟨x, hx, -⟩ := hx
          cases hx
    · rintro e s' ⟨hget, rfl⟩
      obtain ⟨hno, e', rfl⟩ := reading_error (returns_getXattr hf fs inode name) hget
      refine .inr ⟨e', rfl, rfl, .inr fun b hb => ?_⟩
      exact hno _ (hvalue.mp hb)
  · rintro e s ⟨hlookup, rfl⟩
    obtain ⟨hno, e', rfl⟩ := reading_error (safe_lookupPathBytes hf fs path).returns hlookup
    exact .inr ⟨e', rfl, rfl, .inr fun b ⟨inode, h, _⟩ => hno inode h⟩

end Attributes

/-- **The value of an attribute is published** like a file: whatever the operating system does, and
wherever the run is cut off, the name has what it had or the value, nothing else but the name beside
it has changed, and nothing at all where there is no such attribute. -/
theorem xattr_publishes (codecs : Codecs) (fs : Filesystem) (path name dest : Bytes) (s₀ : Host)
    {p : Query HostReq HostReply (Outcome OutputError Unit)} {s : Host}
    (hrun : Relation.ReflTransGen (host (fs.answers codecs)).Step
      ((xattr fs path name (some dest)).run, s₀) (p, s)) :
    Publishing (AttributeAt (fs.answers codecs) fs path name)
        (∃ value, AttributeAt (fs.answers codecs) fs path name value) s₀ dest s ∧
      ∀ x, p = .ret x → Published (AttributeAt (fs.answers codecs) fs path name) s₀ dest x s :=
  Oracle.Keeps.run (keeps_xattr (fs.tame_answers codecs)) hrun

/-- The attribute of an image's root is written to `o`, over what is there. -/
theorem xattr_publishes_sample :
    ∃ x s, Relation.ReflTransGen (host (Capi.nulFilesystem.answers .none)).Step
        ((xattr Capi.nulFilesystem [] [0x75, 0x73, 0x65, 0x72, 0x2E, 0x61, 0, 0x62]
          (some [0x6F])).run, fun _ => some [1])
        (.ret x, s) ∧
      s (.file [0x6F]) = some [0x78] ∧
      Published (AttributeAt (Capi.nulFilesystem.answers .none) Capi.nulFilesystem []
        [0x75, 0x73, 0x65, 0x72, 0x2E, 0x61, 0, 0x62]) (fun _ => some [1]) [0x6F] x s := by
  have hrun := Oracle.run_follow (host_granted (Capi.nulFilesystem.answers .none))
    (xattr Capi.nulFilesystem [] [0x75, 0x73, 0x65, 0x72, 0x2E, 0x61, 0, 0x62] (some [0x6F])).run
    (fun _ => some [1])
  have hdest : (Oracle.follow (granted (Capi.nulFilesystem.answers .none))
      (xattr Capi.nulFilesystem [] [0x75, 0x73, 0x65, 0x72, 0x2E, 0x61, 0, 0x62]
        (some [0x6F])).run (fun _ => some [1])).2 (.file [0x6F]) = some [0x78] := by decide +kernel
  exact ⟨_, _, hrun, hdest, (xattr_publishes .none Capi.nulFilesystem []
    [0x75, 0x73, 0x65, 0x72, 0x2E, 0x61, 0, 0x62] [0x6F] (fun _ => some [1]) hrun).2 _ rfl⟩

end Cli

end Squashfs
