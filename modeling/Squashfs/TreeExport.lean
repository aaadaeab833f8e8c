import Squashfs.RecursiveListing
import Squashfs.Resolution
import Squashfs.Session
import Squashfs.Tree

/-!
# The source of a tree export

Model of `TreeExport` (`src/cli/squashfs/fs.rs:923-1052`). `export --recursive` hands the image to
the shared transfer as a source that answers about paths: a symlink's target, a path's metadata, a
directory's entries, and the bytes of a file at an offset. The source remembers the file it read
last, because a file is read in chunks and named by its path each time. It compares paths as the
platform does, by components, where a repeated slash and a `.` count for nothing.

**`export_source_memory`**: over any calls, each answer is the one a source without the memory gives
for a path spelled in this call or an earlier one, and the two spellings lead to the same file,
unless the call names a component `.`, which no lookup finds. **`export_of_tree`**: over a stored
tree the answers are the tree's.

Out of scope: the transfer itself (`fs_core`'s), which asks for the paths and writes the files.
-/

namespace Squashfs

open Foundation Filesystem

namespace Cli

/-! ## Paths -/

/-- A component of a path, as `std::path` sees it. -/
inductive PathComponent where
  | rootDir
  | curDir
  | parentDir
  | normal (name : Bytes)
  deriving Repr, DecidableEq

/-- The component a name between slashes is. -/
def PathComponent.ofName (name : Bytes) : PathComponent :=
  if name = [0x2E, 0x2E] then .parentDir else .normal name

/-- `Path::components`: repeated slashes are one, and a `.` counts only in front of a relative
path. -/
def pathComponents (path : Bytes) : List PathComponent :=
  let names := path.splitOn 0x2F
  let front :=
    if path.head? = some 0x2F then [.rootDir]
    else if names.head? = some [0x2E] then [.curDir]
    else []
  front ++ (names.filter fun name => !name.isEmpty && name != [0x2E]).map PathComponent.ofName

/-- `last == path` for paths. -/
def samePath (p q : Bytes) : Bool := pathComponents p == pathComponents q

/-! ## The source -/

/-- An error of the source: the reader's about a path, or a path that is no regular file. -/
inductive ExportError where
  | squashfsError (what : Bytes) (e : Error)
  | notRegular (what : Bytes)
  deriving Repr, DecidableEq

inductive TreeKind where
  | file
  | directory
  | other
  deriving Repr, DecidableEq

/-- `transfer::TreeMetadata`; times are whole seconds since the epoch. -/
structure TreeMetadata where
  kind : TreeKind
  size : UInt64
  inode : UInt64
  accessed : Option Nat
  modified : Option Nat
  deriving Repr, DecidableEq

/-- `transfer::SymbolicLink`. -/
structure SymbolicLink where
  target : Bytes
  targetIsDirectory : Bool
  deriving Repr, DecidableEq

/-- `transfer::TreeEntry`. -/
structure TreeEntry where
  name : Bytes
  metadata : TreeMetadata
  deriving Repr, DecidableEq

/-- The file that was read last: its path, the bytes of it, and its inode. -/
structure LastRead where
  path : Bytes
  bytes : Bytes
  inode : Inode
  deriving Repr, DecidableEq

/-- Programs over the reader with the source's errors. -/
abbrev ExportM (α : Type) := Asking Req Reply ExportError α

/-- `squashfs_error`, about a path. -/
def exporting {α : Type} (what : Bytes) (m : Prog α) : ExportM α :=
  m.mapErr (ExportError.squashfsError what)

namespace TreeExport

def resolve (fs : Filesystem) (path : Bytes) : ExportM (Bytes × Inode) := do
  let inode ← exporting path (fs.lookupPathBytes path)
  return (path, inode)

def metadataFor (inode : Inode) : TreeMetadata where
  kind :=
    match inode.fileType with
    | .regFile => .file
    | .dir => .directory
    | _ => .other
  size := if inode.isRegularFile then inode.fileSize else 0
  inode := inode.inodeNumber.toUInt64
  accessed := none
  modified := some inode.mtime.toNat

def symbolicLink (fs : Filesystem) (path : Bytes) : ExportM (Option SymbolicLink) := do
  let (bytes, inode) ← resolve fs path
  if ¬ inode.isSymlink then return none
  else
    let target ← exporting bytes (liftM (readSymlinkTarget inode))
    return some ⟨target, false⟩

def metadata (fs : Filesystem) (path : Bytes) : ExportM TreeMetadata := do
  let (_, inode) ← resolve fs path
  return metadataFor inode

def readDir (fs : Filesystem) (path : Bytes) : ExportM (List TreeEntry) := do
  let (bytes, inode) ← resolve fs path
  let entries ← exporting bytes (fs.readDir inode)
  entries.mapM fun entry => do
    let child ← exporting (childPath bytes entry.name) (fs.readInode entry.inodeRef)
    return ⟨entry.name, metadataFor child⟩

/-- The file of a path, from the last read's when it is the same path. -/
def resolveFile (fs : Filesystem) (last : Option LastRead) (path : Bytes) : ExportM LastRead :=
  match last.filter fun l => samePath l.path path with
  | some l => return l
  | none => do
    let (bytes, inode) ← resolve fs path
    if ¬ inode.isRegularFile then throw (.err (.notRegular bytes))
    else return ⟨path, bytes, inode⟩

/-- What a read gives, the buffer it leaves, and the file remembered. -/
abbrev ReadAt := (Outcome ExportError Nat × Bytes) × Option LastRead

def readFileAt (fs : Filesystem) (last : Option LastRead) (path : Bytes) (offset : UInt64)
    (buf : Bytes) : SessionM ReadAt := do
  match ← (resolveFile fs last path).run with
  | .error e => return ((.error e, buf), last)
  | .ok l =>
    let r ← StateT.run (fs.readFile l.inode offset).run buf
    return ((mapErr (ExportError.squashfsError l.bytes) r.1, r.2), some l)

end TreeExport

/-! ## Calls -/

inductive TreeCall where
  | symbolicLink (path : Bytes)
  | metadata (path : Bytes)
  | readDir (path : Bytes)
  | readFileAt (path : Bytes) (offset : UInt64) (buf : Bytes)
  deriving Repr, DecidableEq

inductive TreeAnswer where
  | link (r : Outcome ExportError (Option SymbolicLink))
  | metadata (r : Outcome ExportError TreeMetadata)
  | entries (r : Outcome ExportError (List TreeEntry))
  | read (r : Outcome ExportError Nat) (buf : Bytes)

namespace TreeExport

/-- Perform a call; the file remembered before and after it. -/
def perform (fs : Filesystem) (last : Option LastRead) :
    TreeCall → SessionM (TreeAnswer × Option LastRead)
  | .symbolicLink path => (fun r => (.link r, last)) <$> (symbolicLink fs path).run
  | .metadata path => (fun r => (.metadata r, last)) <$> (metadata fs path).run
  | .readDir path => (fun r => (.entries r, last)) <$> (readDir fs path).run
  | .readFileAt path offset buf =>
    (fun r => (.read r.1.1 r.1.2, r.2)) <$> readFileAt fs last path offset buf

/-- Perform calls one after the other, from a source that remembers `last`. -/
def performAll (fs : Filesystem) : Option LastRead → List TreeCall → SessionM (List TreeAnswer)
  | _, [] => return []
  | last, call :: calls => do
    let r ← perform fs last call
    let answers ← performAll fs r.2 calls
    return r.1 :: answers

end TreeExport

/-! ## The memory of the source -/

def TreeCall.path : TreeCall → Bytes
  | symbolicLink path => path
  | metadata path => path
  | readDir path => path
  | readFileAt path .. => path

/-- The same call about another path. -/
def TreeCall.about (path : Bytes) : TreeCall → TreeCall
  | symbolicLink _ => symbolicLink path
  | metadata _ => metadata path
  | readDir _ => readDir path
  | readFileAt _ offset buf => readFileAt path offset buf

/-- What an error is about: the components of the path, and the reader's error. -/
def ExportError.cause : ExportError → List Bytes × Option Error
  | squashfsError what e => (components what, some e)
  | notRegular what => (components what, none)

/-- What a read gives, however its error spells the path. -/
def TreeAnswer.SameRead : TreeAnswer → TreeAnswer → Prop
  | read r buf, read r' buf' =>
    mapErr ExportError.cause r = mapErr ExportError.cause r' ∧ buf = buf'
  | a, b => a = b

theorem TreeAnswer.SameRead.refl (a : TreeAnswer) : a.SameRead a := by
  cases a with
  | read r buf => exact ⟨rfl, rfl⟩
  | _ => rfl

section Memory

variable {f : ∀ q, Reply q} {fs : Filesystem} {p q : Bytes}

/-- The names a path goes through, as components of `std::path`. -/
def PathComponent.name : PathComponent → Option Bytes
  | rootDir => none
  | curDir => none
  | parentDir => some [0x2E, 0x2E]
  | normal name => some name

theorem name_ofName (name : Bytes) : (PathComponent.ofName name).name = some name := by
  unfold PathComponent.ofName
  split
  · rename_i h
    rw [h]
    rfl
  · rfl

/-- **The names of a path are its components but `.`**. -/
theorem names_pathComponents (p : Bytes) :
    (pathComponents p).filterMap PathComponent.name = (components p).filter (· != [0x2E]) := by
  have hnames : ∀ names : List Bytes,
      (names.map PathComponent.ofName).filterMap PathComponent.name = names := by
    intro names
    induction names with
    | nil => rfl
    | cons name names ih =>
      rw [List.map_cons, List.filterMap_cons_some (name_ofName name), ih]
  unfold pathComponents components
  dsimp only
  rw [List.filterMap_append, hnames, List.filter_filter]
  have hfront : (if p.head? = some 0x2F then [PathComponent.rootDir]
      else if (p.splitOn 0x2F).head? = some [0x2E] then [.curDir] else []).filterMap
        PathComponent.name = [] := by
    split
    · rfl
    · split <;> rfl
  rw [hfront, List.nil_append]
  refine List.filter_congr fun name _ => ?_
  exact Bool.and_comm _ _

/-- Paths that compare equal have the same components, when neither names `.`. -/
theorem components_of_samePath (h : samePath p q = true) (hp : [0x2E] ∉ components p)
    (hq : [0x2E] ∉ components q) : components p = components q := by
  have hsame : pathComponents p = pathComponents q := beq_iff_eq.mp h
  have hnames := names_pathComponents p
  have hkeep : ∀ l : List Bytes, [0x2E] ∉ l → l.filter (· != [0x2E]) = l := by
    intro l hl
    refine List.filter_eq_self.mpr fun name hname => ?_
    rw [bne_iff_ne]
    rintro rfl
    exact hl hname
  rwa [hsame, names_pathComponents, hkeep _ hq, hkeep _ hp, eq_comm] at hnames

/-- A path that leads somewhere names no `.`. -/
theorem no_dot_of_lookup (hf : Tame f) {inode : Inode}
    (h : Asking.exec f (fs.lookupPathBytes p) = .ok inode) : [0x2E] ∉ components p := by
  intro hdot
  rw [exec_lookupPathBytes] at h
  obtain ⟨root, hroot, h⟩ := bind_eq_ok.mp h
  exact (listed_of_walk hf ((fs.safe_readInode hf _).of_eq hroot) h _ hdot).not_dot rfl

namespace TreeExport

/-- What a call gives from a source that remembers nothing. -/
def afresh (f : ∀ q, Reply q) (fs : Filesystem) (call : TreeCall) : TreeAnswer :=
  ((perform fs none call).run f).1

/-- The file remembered is that of a path spelled before. -/
def Remembers (f : ∀ q, Reply q) (fs : Filesystem) (spelled : List Bytes)
    (last : Option LastRead) : Prop :=
  ∀ l, last = some l → l.path ∈ spelled ∧ Asking.exec f (resolveFile fs none l.path) = .ok l

/-- What a path resolves to is remembered under the path. -/
theorem exec_resolveFile (path : Bytes) :
    Asking.exec f (resolveFile fs none path) =
      mapErr (ExportError.squashfsError path) (Asking.exec f (fs.lookupPathBytes path)) >>=
        fun inode =>
          if ¬ inode.isRegularFile then .error (.err (.notRegular path))
          else .ok ⟨path, path, inode⟩ := by
  unfold resolveFile resolve exporting
  rw [Option.filter_none, Asking.exec_bind, Asking.exec_bind, Asking.exec_mapErr, bind_assoc]
  refine bind_congr fun inode => ?_
  exact Asking.exec_ite f _ _ _

theorem path_of_resolveFile {path : Bytes} {l : LastRead}
    (h : Asking.exec f (resolveFile fs none path) = .ok l) :
    l = ⟨path, path, l.inode⟩ ∧ l.inode.isRegularFile = true ∧
      Asking.exec f (fs.lookupPathBytes path) = .ok l.inode := by
  rw [exec_resolveFile] at h
  obtain ⟨inode, hlookup, h⟩ := bind_eq_ok.mp h
  split at h
  · cases h
  · rename_i hfile
    cases h
    exact ⟨rfl, not_not.mp hfile, mapErr_eq_ok.mp hlookup⟩

/-- A read of a file: the bytes of the file the path resolves to. -/
theorem run_readFileAt (last : Option LastRead) (path : Bytes) (offset : UInt64) (buf : Bytes) :
    (readFileAt fs last path offset buf).run f =
      match Asking.exec f (resolveFile fs last path) with
      | .error e => ((.error e, buf), last)
      | .ok l =>
        let r := Stateful.exec f (fs.readFile l.inode offset) buf
        ((mapErr (ExportError.squashfsError l.bytes) r.1, r.2), some l) := by
  unfold readFileAt
  rw [Query.run_bind]
  show Query.run f (match Asking.exec f (resolveFile fs last path) with
    | .error e => _
    | .ok l => _) = _
  cases Asking.exec f (resolveFile fs last path) with
  | error e => rfl
  | ok l =>
    dsimp only
    rw [Query.run_bind]
    rfl

theorem run_perform (last : Option LastRead) (call : TreeCall) :
    (perform fs last call).run f =
      match call with
      | .symbolicLink path => (.link (Asking.exec f (symbolicLink fs path)), last)
      | .metadata path => (.metadata (Asking.exec f (metadata fs path)), last)
      | .readDir path => (.entries (Asking.exec f (readDir fs path)), last)
      | .readFileAt path offset buf =>
        let r := (readFileAt fs last path offset buf).run f
        (.read r.1.1 r.1.2, r.2) := by
  cases call <;> exact Query.run_map f _ _

/-- What a read gives of the file its path comes to. -/
def readAnswer (f : ∀ q, Reply q) (fs : Filesystem) (last : Option LastRead) (offset : UInt64)
    (buf : Bytes) : Outcome ExportError LastRead → TreeAnswer × Option LastRead
  | .error e => (.read (.error e) buf, last)
  | .ok l =>
    let r := Stateful.exec f (fs.readFile l.inode offset) buf
    (.read (mapErr (ExportError.squashfsError l.bytes) r.1) r.2, some l)

theorem run_perform_readFileAt (last : Option LastRead) (path : Bytes) (offset : UInt64)
    (buf : Bytes) :
    (perform fs last (.readFileAt path offset buf)).run f =
      readAnswer f fs last offset buf (Asking.exec f (resolveFile fs last path)) := by
  rw [run_perform]
  dsimp only
  rw [run_readFileAt]
  cases Asking.exec f (resolveFile fs last path) <;> rfl

/-- The file a read comes to, with a file remembered, is the one it comes to without it under a
spelling of its path. -/
theorem resolveFile_spelled (hf : Tame f) {spelled : List Bytes} {last : Option LastRead}
    (hlast : Remembers f fs spelled last) (path : Bytes) :
    ∃ path' ∈ path :: spelled, samePath path' path = true ∧
      Asking.exec f (resolveFile fs last path) = Asking.exec f (resolveFile fs none path') ∧
      ([0x2E] ∉ components path → path' = path ∨ components path' = components path ∧
        ∃ l, Asking.exec f (resolveFile fs none path') = .ok l) := by
  rcases hhit : last.filter fun l => samePath l.path path with _ | l
  · refine ⟨path, List.mem_cons_self, beq_self_eq_true _, ?_, fun _ => .inl rfl⟩
    unfold resolveFile
    rw [hhit]
    rfl
  · obtain ⟨hl, hsame⟩ := Option.filter_eq_some_iff.mp hhit
    obtain ⟨hmem, hfresh⟩ := hlast l hl
    obtain ⟨-, -, hlookup⟩ := path_of_resolveFile hfresh
    refine ⟨l.path, List.mem_cons_of_mem _ hmem, hsame, ?_, fun hdot => .inr ⟨?_, l, hfresh⟩⟩
    · rw [hfresh]
      unfold resolveFile
      rw [hhit]
      rfl
    · exact components_of_samePath hsame (no_dot_of_lookup hf hlookup) hdot

/-- Two spellings of a file's path are read alike. -/
theorem sameRead_spelled {path path' : Bytes} {l : LastRead}
    (hcomponents : components path' = components path)
    (h : Asking.exec f (resolveFile fs none path') = .ok l) (offset : UInt64) (buf : Bytes) :
    (afresh f fs (.readFileAt path' offset buf)).SameRead
      (afresh f fs (.readFileAt path offset buf)) := by
  obtain ⟨hl, hfile, hlookup⟩ := path_of_resolveFile h
  have hlookup' : Asking.exec f (fs.lookupPathBytes path) = .ok l.inode := by
    rw [exec_lookupPathBytes, ← hcomponents, ← exec_lookupPathBytes, hlookup]
  have h' : Asking.exec f (resolveFile fs none path) = .ok ⟨path, path, l.inode⟩ := by
    rw [exec_resolveFile, hlookup', mapErr_ok, ok_bind, if_neg (not_not_intro hfile)]
  rw [hl] at h
  unfold afresh
  rw [run_perform_readFileAt, run_perform_readFileAt, h, h']
  refine ⟨?_, rfl⟩
  show mapErr _ (mapErr _ (Stateful.exec f (fs.readFile l.inode offset) buf).1) = mapErr _ _
  rcases (Stateful.exec f (fs.readFile l.inode offset) buf).1 with (e | - | -) | n
  · exact congrArg (fun comps => Except.error (Fail.err (comps, some e))) hcomponents
  · rfl
  · rfl
  · rfl

/-- **One call** of a source that remembers a file. -/
theorem perform_spelled (hf : Tame f) {spelled : List Bytes} {last : Option LastRead}
    (hlast : Remembers f fs spelled last) (call : TreeCall) :
    let r := (perform fs last call).run f
    Remembers f fs (call.path :: spelled) r.2 ∧
      ∃ path ∈ call.path :: spelled, samePath path call.path = true ∧
        r.1 = afresh f fs (call.about path) ∧
        ([0x2E] ∉ components call.path →
          (afresh f fs (call.about path)).SameRead (afresh f fs call)) := by
  have hkept : ∀ path, Remembers f fs (path :: spelled) last := fun path l hl =>
    ⟨List.mem_cons_of_mem _ (hlast l hl).1, (hlast l hl).2⟩
  -- Only a read looks at what is remembered.
  have hplain : ∀ call, call.about call.path = call →
      (perform fs last call).run f = (afresh f fs call, last) →
      Remembers f fs (call.path :: spelled) ((perform fs last call).run f).2 ∧
        ∃ path ∈ call.path :: spelled, samePath path call.path = true ∧
          ((perform fs last call).run f).1 = afresh f fs (call.about path) ∧
          ([0x2E] ∉ components call.path →
            (afresh f fs (call.about path)).SameRead (afresh f fs call)) := by
    intro call habout hrun
    rw [hrun]
    refine ⟨hkept _, call.path, List.mem_cons_self, beq_self_eq_true _, ?_, fun _ => ?_⟩
    · rw [habout]
    · rw [habout]
      exact TreeAnswer.SameRead.refl _
  cases call with
  | symbolicLink path =>
    refine hplain _ rfl ?_
    unfold afresh
    rw [run_perform, run_perform]
  | metadata path =>
    refine hplain _ rfl ?_
    unfold afresh
    rw [run_perform, run_perform]
  | readDir path =>
    refine hplain _ rfl ?_
    unfold afresh
    rw [run_perform, run_perform]
  | readFileAt path offset buf =>
    obtain ⟨path', hmem, hsame, hfile, hspelled⟩ := resolveFile_spelled hf hlast path
    rw [run_perform_readFileAt, hfile]
    refine ⟨?_, path', hmem, hsame, ?_, fun hdot => ?_⟩
    · rcases hresolved : Asking.exec f (resolveFile fs none path') with e | l
      · exact hkept path
      · intro l' hl'
        cases hl'
        have hpath := congrArg LastRead.path (path_of_resolveFile hresolved).1
        have hpath : l.path = path' := hpath
        rw [hpath]
        exact ⟨hmem, hresolved⟩
    · unfold afresh TreeCall.about
      rw [run_perform_readFileAt]
      cases Asking.exec f (resolveFile fs none path') <;> rfl
    · rcases hspelled hdot with rfl | ⟨hcomponents, l, hl⟩
      · exact TreeAnswer.SameRead.refl _
      · exact sameRead_spelled hcomponents hl offset buf

/-- The calls one after the other, each answered as `perform_spelled` says. -/
theorem performAll_spelled (hf : Tame f) {spelled : List Bytes} {last : Option LastRead}
    (hlast : Remembers f fs spelled last) (calls : List TreeCall) :
    let answers := (performAll fs last calls).run f
    answers.length = calls.length ∧
      ∀ i call answer, calls[i]? = some call → answers[i]? = some answer →
        ∃ path ∈ (calls.take (i + 1)).map TreeCall.path ++ spelled,
          samePath path call.path = true ∧ answer = afresh f fs (call.about path) ∧
            ([0x2E] ∉ components call.path →
              (afresh f fs (call.about path)).SameRead (afresh f fs call)) := by
  induction calls generalizing spelled last with
  | nil => exact ⟨rfl, fun i call answer h => absurd h (by simp)⟩
  | cons call calls ih =>
    obtain ⟨hlast', path, hmem, hsame, hanswer, hspelled⟩ := perform_spelled hf hlast call
    obtain ⟨hlen, hrest⟩ := ih hlast'
    intro answers
    have hcons : answers = ((perform fs last call).run f).1 ::
        (performAll fs ((perform fs last call).run f).2 calls).run f := by
      show (performAll fs last (call :: calls)).run f = _
      rw [performAll, Query.run_bind, Query.run_bind]
      rfl
    rw [hcons]
    refine ⟨congrArg Nat.succ hlen, fun i call' answer hi ha => ?_⟩
    cases i with
    | zero =>
      cases hi
      cases ha
      refine ⟨path, ?_, hsame, hanswer, hspelled⟩
      rw [List.take_succ_cons, List.take_zero]
      exact hmem
    | succ i =>
      obtain ⟨path', hmem', h⟩ := hrest i call' answer hi ha
      refine ⟨path', ?_, h⟩
      rw [List.take_succ_cons, List.map_cons, List.cons_append]
      rcases List.mem_append.mp hmem' with hmem' | hmem'
      · exact List.mem_cons_of_mem _ (List.mem_append_left _ hmem')
      · rcases List.mem_cons.mp hmem' with rfl | hmem'
        · exact List.mem_cons_self
        · exact List.mem_cons_of_mem _ (List.mem_append_right _ hmem')

end TreeExport

end Memory

/-- **The memory of an export's source**: whatever it is asked, each answer is the one a source
that remembers nothing gives, about a path spelled in this call or one before it that compares
equal to the call's; and it is the one about the call's own spelling, up to how an error spells the
path, unless that names a component `.`. -/
theorem export_source_memory (codecs : Codecs) (fs : Filesystem) (calls : List TreeCall) :
    let answers := (TreeExport.performAll fs none calls).run (fs.answers codecs)
    answers.length = calls.length ∧
      ∀ i call answer, calls[i]? = some call → answers[i]? = some answer →
        ∃ path ∈ (calls.take (i + 1)).map TreeCall.path, samePath path call.path = true ∧
          answer = TreeExport.afresh (fs.answers codecs) fs (call.about path) ∧
          ([0x2E] ∉ components call.path →
            answer.SameRead (TreeExport.afresh (fs.answers codecs) fs call)) := by
  have hnone : TreeExport.Remembers (fs.answers codecs) fs [] none := fun l hl => by cases hl
  obtain ⟨hlen, hcalls⟩ := TreeExport.performAll_spelled (fs.tame_answers codecs) hnone calls
  refine ⟨hlen, fun i call answer hi ha => ?_⟩
  obtain ⟨path, hmem, hsame, hanswer, hspelled⟩ := hcalls i call answer hi ha
  rw [List.append_nil] at hmem
  refine ⟨path, hmem, hsame, hanswer, fun hdot => ?_⟩
  rw [hanswer]
  exact hspelled hdot

/-! ## The source over a stored tree -/

end Cli

/-- What a tree export is told of a node. -/
def Node.metadata (n : Node) : Cli.TreeMetadata where
  kind :=
    match n.kind with
    | .file _ => .file
    | .dir => .directory
    | _ => .other
  size :=
    match n.kind with
    | .file contents => UInt64.ofNat contents.length
    | _ => 0
  inode := n.inodeNumber.toUInt64
  accessed := none
  modified := some n.mtime.toNat

namespace Cli

/-- The call fails. -/
def TreeCall.failed (e : ExportError) : TreeCall → TreeAnswer
  | symbolicLink _ => .link (.error (.err e))
  | metadata _ => .metadata (.error (.err e))
  | readDir _ => .entries (.error (.err e))
  | readFileAt _ _ buf => .read (.error (.err e)) buf

/-- What a tree answers about the node at a path. -/
def TreeCall.ofNode (node : Node) (below : Forest Bytes Node) : TreeCall → TreeAnswer
  | symbolicLink _ => .link <| .ok <|
    match node.kind with
    | .symlink target => some ⟨target, false⟩
    | _ => none
  | metadata _ => .metadata (.ok node.metadata)
  | readDir path => .entries <|
    if node.isDir then .ok (below.entries.map fun e => ⟨e.1, e.2.metadata⟩)
    else .error (.err (.squashfsError path .notADirectory))
  | readFileAt path offset buf =>
    match node.kind with
    | .file contents =>
      let window := (contents.drop offset.toNat).take buf.length
      .read (.ok window.length) (window ++ buf.drop window.length)
    | _ => .read (.error (.err (.notRegular path))) buf

/-- What a tree answers a call. -/
def treeAnswer (root : Node) (tree : Forest Bytes Node) (call : TreeCall) : TreeAnswer :=
  match tree.resolve Node.isDir root (components call.path) with
  | .ok (node, below) => call.ofNode node below
  | .error why => call.failed (.squashfsError call.path (missing why))

namespace TreeExport

section Stored

variable {codecs : Codecs} {fs : Filesystem} {s : StoredNode} {below : Forest Bytes StoredNode}

theorem exec_resolve {f : ∀ q, Reply q} (path : Bytes) :
    Asking.exec f (resolve fs path) =
      mapErr (ExportError.squashfsError path) (Asking.exec f (fs.lookupPathBytes path)) >>=
        fun inode => .ok (path, inode) := by
  unfold resolve exporting
  rw [Asking.exec_bind, Asking.exec_mapErr]
  rfl

/-- The metadata of a stored node's inode is the node's. -/
theorem metadataFor_stored (h : fs.Stores codecs s below) :
    metadataFor s.inode = s.node.metadata := by
  have hshows := h.shows
  have hkind : (match s.inode.fileType with
      | .regFile => TreeKind.file
      | .dir => .directory
      | _ => .other) = s.node.metadata.kind := by
    rw [h.type, Node.metadata]
    cases s.node.kind <;> rfl
  have hsize : (if s.inode.isRegularFile then s.inode.fileSize else 0) = s.node.metadata.size := by
    rw [Inode.isRegularFile, h.type, Node.metadata]
    cases hk : s.node.kind with
    | file contents =>
      refine UInt64.toNat_inj.mp ?_
      have hdir : s.node.isDir = false := by
        rw [Node.isDir, hk]
        rfl
      have hlen := hshows.size hdir
      have hlt := s.inode.fileSize.toNat_lt
      show s.inode.fileSize.toNat = (UInt64.ofNat contents.length).toNat
      have hsize : s.inode.fileSize.toNat = contents.length := by
        rw [hlen, hk]
        rfl
      rw [UInt64.toNat_ofNat', hsize]
      omega
    | _ => rfl
  unfold metadataFor
  rw [hkind, hsize, hshows.inodeNumber, hshows.mtime]
  rfl

/-- The entries of a stored directory, each with its metadata. -/
theorem exec_entries (hbelow : below.Every (fs.Stores codecs)) (bytes : Bytes)
    {ds : List DirEntry} (h : List.Forall₂ Names ds below.entries) :
    Asking.exec (fs.answers codecs) (ds.mapM fun entry => (do
      let child ← exporting (childPath bytes entry.name) (fs.readInode entry.inodeRef)
      return ⟨entry.name, metadataFor child⟩ : ExportM TreeEntry)) =
        .ok (below.entries.map fun e => ⟨e.1, e.2.node.metadata⟩) := by
  induction below generalizing ds with
  | nil =>
    cases h
    rfl
  | cons name s beneath beside _ ih =>
    cases h with
    | cons hd hds =>
      obtain ⟨hs, -, hbeside⟩ := hbelow
      obtain ⟨hname, href, -⟩ := hd
      rw [List.mapM_cons, Asking.exec_bind, Asking.exec_bind, exporting, Asking.exec_mapErr, href,
        hs.readInode_eq, mapErr_ok, ok_bind, Asking.exec_pure, ok_bind, Asking.exec_bind,
        ih hbeside hds, hname, metadataFor_stored hs]
      rfl

/-- **Over a stored node** a source that remembers nothing answers what the node does. -/
theorem afresh_stored {path : Bytes}
    (hlookup : Asking.exec (fs.answers codecs) (fs.lookupPathBytes path) = .ok s.inode)
    (h : fs.Stores codecs s below) (hbelow : below.Every (fs.Stores codecs)) (call : TreeCall)
    (hpath : call.path = path) :
    afresh (fs.answers codecs) fs call = call.ofNode s.node (below.map StoredNode.node) := by
  have hresolve := @exec_resolve fs (fs.answers codecs) path
  rw [hlookup, mapErr_ok, ok_bind] at hresolve
  unfold afresh
  cases call with
  | symbolicLink path' =>
    obtain rfl : path' = path := hpath
    have htarget := h.shows.target
    have hlink : s.inode.isSymlink = (s.node.kind.fileType == .symlink) := by
      rw [Inode.isSymlink, h.type]
    rw [run_perform]
    unfold symbolicLink
    dsimp only
    rw [Asking.exec_bind, hresolve, ok_bind, Asking.exec_ite, hlink]
    unfold TreeCall.ofNode
    cases hk : s.node.kind with
    | symlink target =>
      rw [hk] at htarget
      have hhere : ((Kind.symlink target).fileType == .symlink) = true := rfl
      rw [hhere, if_neg (not_not_intro rfl), Asking.exec_bind, exporting, Asking.exec_mapErr,
        Asking.exec_lift, htarget]
      rfl
    | _ => rfl
  | metadata path' =>
    obtain rfl : path' = path := hpath
    rw [run_perform]
    unfold metadata
    dsimp only
    rw [Asking.exec_bind, hresolve, ok_bind]
    exact congrArg (fun m => TreeAnswer.metadata (.ok m)) (metadataFor_stored h)
  | readDir path' =>
    obtain rfl : path' = path := hpath
    rw [run_perform]
    unfold readDir TreeCall.ofNode
    dsimp only
    rw [Asking.exec_bind, hresolve, ok_bind]
    dsimp only
    rw [Asking.exec_bind, exporting, Asking.exec_mapErr]
    by_cases hdir : s.node.isDir = true
    · obtain ⟨ds, hread, hnames⟩ := h.readDir_eq (s.node.isDir_iff.mp hdir)
      rw [if_pos hdir, hread, mapErr_ok, ok_bind, exec_entries hbelow path' hnames,
        Forest.entries_map, List.map_map]
      rfl
    · have hrefused := h.shows.entries
      rw [if_neg hdir] at hrefused
      rw [if_neg hdir, hrefused]
      rfl
  | readFileAt path' offset buf =>
    obtain rfl : path' = path := hpath
    have hregular : s.inode.isRegularFile = (s.node.kind.fileType == .regFile) := by
      rw [Inode.isRegularFile, h.type]
    rw [run_perform_readFileAt, exec_resolveFile, hlookup, mapErr_ok, ok_bind, hregular]
    unfold TreeCall.ofNode
    cases hk : s.node.kind with
    | file contents =>
      have hread := h.readFile_eq offset buf
      rw [hk] at hread
      have hhere : ((Kind.file contents).fileType == .regFile) = true := rfl
      rw [hhere, if_neg (not_not_intro rfl)]
      show ((TreeAnswer.read (mapErr _ (Stateful.exec _ _ _).1) (Stateful.exec _ _ _).2, _) :
        TreeAnswer × Option LastRead).1 = _
      rw [hread]
      rfl
    | _ => rfl

/-- A call about a path that leads nowhere fails with the lookup's error. -/
theorem afresh_missing {path : Bytes} {e : Error}
    (hlookup : Asking.exec (fs.answers codecs) (fs.lookupPathBytes path) = fails e)
    (call : TreeCall) (hpath : call.path = path) :
    afresh (fs.answers codecs) fs call = call.failed (.squashfsError path e) := by
  have hresolve := @exec_resolve fs (fs.answers codecs) path
  rw [hlookup] at hresolve
  unfold afresh
  cases call with
  | symbolicLink path' =>
    obtain rfl : path' = path := hpath
    rw [run_perform]
    unfold symbolicLink
    dsimp only
    rw [Asking.exec_bind, hresolve]
    rfl
  | metadata path' =>
    obtain rfl : path' = path := hpath
    rw [run_perform]
    unfold metadata
    dsimp only
    rw [Asking.exec_bind, hresolve]
    rfl
  | readDir path' =>
    obtain rfl : path' = path := hpath
    rw [run_perform]
    unfold readDir
    dsimp only
    rw [Asking.exec_bind, hresolve]
    rfl
  | readFileAt path' offset buf =>
    obtain rfl : path' = path := hpath
    rw [run_perform_readFileAt, exec_resolveFile, hlookup]
    rfl

end Stored

end TreeExport

/-- **The source of an export is the stored tree**: over an archive, each of any calls whose paths
name no component `.` is answered as the tree answers it, up to how an error spells the path. -/
theorem export_of_tree {codecs : Codecs} (a : Archive codecs) (t : StoredTree a)
    (calls : List TreeCall) (hdots : ∀ call ∈ calls, [0x2E] ∉ components call.path) :
    List.Forall₂ (fun call (answer : TreeAnswer) =>
        answer.SameRead (treeAnswer t.root.node t.tree call))
      calls ((TreeExport.performAll a.fs none calls).run (a.fs.answers codecs)) := by
  have hnone : TreeExport.Remembers (a.fs.answers codecs) a.fs [] none := fun l hl => by cases hl
  obtain ⟨hlen, hcalls⟩ := TreeExport.performAll_spelled (a.fs.tame_answers codecs) hnone calls
  refine List.forall₂_iff_get.mpr ⟨hlen.symm, fun i hi hi' => ?_⟩
  obtain ⟨path, -, -, hanswer, hspelled⟩ := hcalls i calls[i] _ (List.getElem?_eq_getElem hi)
    (List.getElem?_eq_getElem hi')
  have hsame := hspelled (hdots _ (List.getElem_mem hi))
  rw [← hanswer] at hsame
  have htree : TreeExport.afresh (a.fs.answers codecs) a.fs calls[i] =
      treeAnswer t.root.node t.tree calls[i] := by
    unfold treeAnswer
    rcases t.lookup_cases calls[i].path with ⟨s, below, hres, hlookup, hs, hbelow, -⟩ |
      ⟨why, hres, hlookup⟩
    · rw [hres]
      exact TreeExport.afresh_stored hlookup hs hbelow _ rfl
    · rw [hres]
      exact TreeExport.afresh_missing hlookup _ rfl
  rw [htree] at hsame
  exact hsame

/-- The small tree's file read in two chunks, under two spellings. -/
theorem export_of_tree_small :
    List.Forall₂ TreeAnswer.SameRead
      ((TreeExport.performAll SmallTree.archive.fs none
        [.readFileAt [0x2F, 0x61] 0 [0, 0], .readFileAt [0x2F, 0x2F, 0x61] 2 [0, 0]]).run
          (SmallTree.archive.fs.answers .none))
      [.read (.ok 2) [0x61, 0x62], .read (.ok 1) [0x63, 0]] := by
  have hfile : ∀ path, components path = [[0x61]] → ∀ offset buf,
      treeAnswer SmallTree.stored.root.node SmallTree.stored.tree (.readFileAt path offset buf) =
        let window := (([0x61, 0x62, 0x63] : Bytes).drop offset.toNat).take buf.length
        .read (.ok window.length) (window ++ buf.drop window.length) := by
    intro path hpath offset buf
    unfold treeAnswer TreeCall.path
    dsimp only
    rw [hpath]
    rfl
  have hcomponents : components [0x2F, 0x61] = [[0x61]] := by decide
  have hcomponents' : components [0x2F, 0x2F, 0x61] = [[0x61]] := by decide
  have h := export_of_tree SmallTree.archive SmallTree.stored
    [.readFileAt [0x2F, 0x61] 0 [0, 0], .readFileAt [0x2F, 0x2F, 0x61] 2 [0, 0]] (by
      intro call hcall
      rcases List.mem_cons.mp hcall with rfl | hcall
      · decide
      · rw [List.mem_singleton.mp hcall]
        decide)
  generalize (TreeExport.performAll _ _ _).run _ = answers at h ⊢
  cases h with
  | cons h h' =>
    cases h' with
    | cons h' h'' =>
      cases h''
      rw [hfile _ hcomponents] at h
      rw [hfile _ hcomponents'] at h'
      exact .cons h (.cons h' .nil)

end Cli

end Squashfs
