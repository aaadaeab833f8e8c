import Squashfs.Capi

/-!
# Paths and the names listed

About `lookup_path_bytes` (`src/fs.rs:526-535`) and the C ABI's `stat` and `dir_next`
(`src/capi.rs:564-735`). **`resolution`** collects what holds of path resolution over any image
(`Resolution`): it folds the directory lookup over a path's components, reports a missing directory
exactly where one is missing, and takes back every name a listing gives, through the C ABI as well.
-/

namespace Squashfs

open Foundation

variable {f : ∀ q, Reply q} {fs : Filesystem} {inode : Inode}

namespace Filesystem

/-! ## Walks -/

/-- One component of a path, from the inode reached so far. -/
def stepInto (f : ∀ q, Reply q) (fs : Filesystem) (node : Inode) (comp : Bytes) : Res Inode :=
  if ¬ node.isDir then fails .notADirectory else Asking.exec f (fs.lookup node comp)

/-- **A walk folds the lookup** over its components. -/
theorem exec_walk_foldlM (node : Inode) (comps : List Bytes) :
    Asking.exec f (fs.walk node comps) = comps.foldlM (stepInto f fs) node := by
  induction comps generalizing node with
  | nil => rfl
  | cons comp comps ih =>
    rw [exec_walk_cons, List.foldlM_cons, stepInto]
    split
    · rfl
    · exact bind_congr fun next => ih next

/-- Every component of a walk that arrives is a name some listing gives. -/
theorem listed_of_walk (hf : Tame f) {node reached : Inode} (hgeo : node.Geometry fs.sb)
    {comps : List Bytes} (h : Asking.exec f (fs.walk node comps) = .ok reached) :
    ∀ comp ∈ comps, ListedName comp := by
  induction comps generalizing node with
  | nil => exact fun comp hcomp => absurd hcomp List.not_mem_nil
  | cons comp comps ih =>
    rw [exec_walk_cons] at h
    split at h
    · cases h
    obtain ⟨next, hnext, h⟩ := bind_eq_ok.mp h
    have hgeo' := (safe_lookup hf hgeo comp).of_eq hnext
    rw [exec_lookup] at hnext
    obtain ⟨entries, hentries, hnext⟩ := bind_eq_ok.mp hnext
    intro c hc
    rcases List.mem_cons.mp hc with rfl | hc
    · cases hfind : entries.find? (·.name == c) with
      | none =>
        rw [hfind] at hnext
        cases hnext
      | some e =>
        obtain rfl : e.name = c := by simpa using List.find?_some hfind
        exact (safe_readDir hf hgeo).of_eq hentries e (List.mem_of_find?_eq_some hfind)
    · exact ih hgeo' h c hc

/-! ## Paths -/

/-- A byte of a path, no `/`, is a byte of one of its components. -/
theorem mem_components {b : UInt8} (hb : b ≠ 0x2F) {p : Bytes} (h : b ∈ p) :
    ∃ comp ∈ components p, b ∈ comp := by
  by_cases hslash : (0x2F : UInt8) ∈ p
  · obtain ⟨s, t, rfl⟩ := List.append_of_mem hslash
    rw [components_append]
    rcases List.mem_append.mp h with h | h
    · obtain ⟨comp, hcomp, hmem⟩ := mem_components hb h
      exact ⟨comp, List.mem_append_left _ hcomp, hmem⟩
    · rcases List.mem_cons.mp h with rfl | h
      · exact absurd rfl hb
      · obtain ⟨comp, hcomp, hmem⟩ := mem_components hb h
        exact ⟨comp, List.mem_append_right _ hcomp, hmem⟩
  · rw [components_name (List.ne_nil_of_mem h) hslash]
    exact ⟨p, List.mem_singleton_self p, h⟩
termination_by p.length
decreasing_by all_goals subst_vars; simp only [List.length_append, List.length_cons]; omega

/-- A path that resolves holds no NUL: a C string can carry it. -/
theorem no_nul_of_lookup (hf : Tame f) {p : Bytes}
    (h : Asking.exec f (fs.lookupPathBytes p) = .ok inode) : (0 : UInt8) ∉ p := by
  intro hnul
  rw [exec_lookupPathBytes] at h
  obtain ⟨root, hroot, h⟩ := bind_eq_ok.mp h
  obtain ⟨comp, hcomp, hmem⟩ := mem_components (by decide) hnul
  exact (listed_of_walk hf ((fs.safe_readInode hf _).of_eq hroot) h comp hcomp).no_nul hmem

/-- What a path resolves to was read from some reference. -/
theorem readInode_of_walk {inodeRef : UInt64} {node reached : Inode}
    (hnode : Asking.exec f (fs.readInode inodeRef) = .ok node) {comps : List Bytes}
    (h : Asking.exec f (fs.walk node comps) = .ok reached) :
    ∃ inodeRef, Asking.exec f (fs.readInode inodeRef) = .ok reached := by
  induction comps generalizing inodeRef node with
  | nil =>
    cases h
    exact ⟨inodeRef, hnode⟩
  | cons comp comps ih =>
    rw [exec_walk_cons] at h
    split at h
    · cases h
    obtain ⟨next, hnext, h⟩ := bind_eq_ok.mp h
    rw [exec_lookup] at hnext
    obtain ⟨entries, -, hnext⟩ := bind_eq_ok.mp hnext
    split at hnext
    · exact ih hnext h
    · cases hnext

theorem readInode_of_lookup {p : Bytes} (h : Asking.exec f (fs.lookupPathBytes p) = .ok inode) :
    ∃ inodeRef, Asking.exec f (fs.readInode inodeRef) = .ok inode := by
  rw [exec_lookupPathBytes] at h
  obtain ⟨root, hroot, h⟩ := bind_eq_ok.mp h
  exact readInode_of_walk hroot h

/-- **One more name**: the inode of the first entry that bears it. -/
theorem exec_lookupPathBytes_name {p name : Bytes} {entries : List DirEntry}
    (hp : Asking.exec f (fs.lookupPathBytes p) = .ok inode)
    (hentries : Asking.exec f (fs.readDir inode) = .ok entries) (hne : name ≠ [])
    (hslash : (0x2F : UInt8) ∉ name) :
    Asking.exec f (fs.lookupPathBytes (p ++ 0x2F :: name)) =
      match entries.find? (·.name == name) with
      | some e => Asking.exec f (fs.readInode e.inodeRef)
      | none => fails .notFound := by
  have hdir : inode.isDir = true := by
    by_contra hdir
    unfold readDir at hentries
    rw [Asking.exec_ite, if_pos hdir] at hentries
    cases hentries
  rw [exec_lookupPathBytes_append, hp, ok_bind, components_name hne hslash, exec_walk_cons,
    if_neg (not_not_intro hdir), exec_lookup, hentries, ok_bind]
  cases entries.find? (·.name == name) with
  | none => rfl
  | some e => exact bind_pure _

end Filesystem

open Filesystem Capi

/-- What holds of path resolution over one image. -/
structure Resolution (f : ∀ q, Reply q) (fs : Filesystem) : Prop where
  /-- Resolution folds the lookup over the components, from the root. -/
  fold : ∀ p, Asking.exec f (fs.lookupPathBytes p) =
    Asking.exec f fs.rootInode >>= fun root => (components p).foldlM (stepInto f fs) root
  /-- Only the components count. -/
  components_only : ∀ p q, components p = components q →
    Asking.exec f (fs.lookupPathBytes p) = Asking.exec f (fs.lookupPathBytes q)
  leading : ∀ p, Asking.exec f (fs.lookupPathBytes (0x2F :: p)) =
    Asking.exec f (fs.lookupPathBytes p)
  trailing : ∀ p, Asking.exec f (fs.lookupPathBytes (p ++ [0x2F])) =
    Asking.exec f (fs.lookupPathBytes p)
  repeated : ∀ p q, Asking.exec f (fs.lookupPathBytes (p ++ 0x2F :: 0x2F :: q)) =
    Asking.exec f (fs.lookupPathBytes (p ++ 0x2F :: q))
  /-- A joined path resolves to what its second half leads to from where its first half does. -/
  append : ∀ p q, Asking.exec f (fs.lookupPathBytes (p ++ 0x2F :: q)) =
    Asking.exec f (fs.lookupPathBytes p) >>= fun node =>
      (components q).foldlM (stepInto f fs) node
  /-- It reports a missing directory exactly when one is missing. -/
  notADirectory : ∀ p, Asking.exec f (fs.lookupPathBytes p) = fails .notADirectory ↔
    ∃ before comp after reached, components p = before ++ comp :: after ∧
      (Asking.exec f fs.rootInode >>= fun root => before.foldlM (stepInto f fs) root) =
        .ok reached ∧ reached.isDir = false
  /-- One more name resolves to the first entry that bears it. -/
  name : ∀ p dir entries name, Asking.exec f (fs.lookupPathBytes p) = .ok dir →
    Asking.exec f (fs.readDir dir) = .ok entries → name ≠ [] → (0x2F : UInt8) ∉ name →
    Asking.exec f (fs.lookupPathBytes (p ++ 0x2F :: name)) =
      match entries.find? (·.name == name) with
      | some e => Asking.exec f (fs.readInode e.inodeRef)
      | none => fails .notFound
  /-- Every name a listing gives is a listed one. -/
  listed : ∀ inodeRef dir entries, Asking.exec f (fs.readInode inodeRef) = .ok dir →
    Asking.exec f (fs.readDir dir) = .ok entries → ∀ e ∈ entries, ListedName e.name
  /-- The C ABI carries it whole, and a NUL behind it. -/
  dirent : ∀ inodeRef dir entries, Asking.exec f (fs.readInode inodeRef) = .ok dir →
    Asking.exec f (fs.readDir dir) = .ok entries → ∀ e ∈ entries,
      ∃ d, dirEntryToAbi e = .ok d ∧ d.name.length = SQFS_NAME_CAP ∧
        d.nameLen.toNat = e.name.length ∧ d.name.take d.nameLen.toNat = e.name ∧
        d.name[d.nameLen.toNat]? = some 0
  /-- And `stat` takes it back. -/
  handed_back : ∀ p dir entries, Asking.exec f (fs.lookupPathBytes p) = .ok dir →
    Asking.exec f (fs.readDir dir) = .ok entries → ∀ e ∈ entries, ∃ first,
      entries.find? (·.name == e.name) = some first ∧ ∀ attr rest,
        (stat (some fs) (some (p ++ 0x2F :: e.name ++ 0 :: rest)) (some attr)).run f =
          statOf fs attr (Asking.exec f (fs.readInode first.inodeRef))

/-- **Path resolution over any image**: the fold of the lookup over the components, and every
listed name can be handed back. -/
theorem resolution (codecs : Codecs) (fs : Filesystem) : Resolution (fs.answers codecs) fs := by
  have hf := fs.tame_answers codecs
  have hq : Quiet (fs.answers codecs) := avoids_uncached codecs fs.dev fs.sb fs.comp
  have hlookup : ∀ p q, components p = components q →
      Asking.exec (fs.answers codecs) (fs.lookupPathBytes p) =
        Asking.exec (fs.answers codecs) (fs.lookupPathBytes q) := by
    intro p q h
    rw [exec_lookupPathBytes, exec_lookupPathBytes, h]
  have hlisted : ∀ inodeRef dir entries,
      Asking.exec (fs.answers codecs) (fs.readInode inodeRef) = .ok dir →
      Asking.exec (fs.answers codecs) (fs.readDir dir) = .ok entries →
      ∀ e ∈ entries, ListedName e.name :=
    fun inodeRef dir entries hdir hentries =>
      (safe_readDir hf ((fs.safe_readInode hf inodeRef).of_eq hdir)).of_eq hentries
  refine ⟨?_, hlookup, ?_, ?_, ?_, ?_, ?_, ?_, hlisted, ?_, ?_⟩
  · intro p
    rw [exec_lookupPathBytes]
    exact bind_congr fun root => exec_walk_foldlM root _
  · exact fun p => hlookup _ _ (components_append [] p)
  · intro p
    refine hlookup _ _ ?_
    rw [components_append, components_nil, List.append_nil]
  · intro p q
    refine hlookup _ _ ?_
    rw [components_append, components_append]
    exact congrArg _ (components_append [] q)
  · intro p q
    rw [exec_lookupPathBytes_append]
    exact bind_congr fun node => exec_walk_foldlM node _
  · intro p
    rw [exec_lookupPathBytes]
    have hroot : Avoids .notADirectory (Asking.exec (fs.answers codecs) fs.rootInode) :=
      avoids_readInode hq fs.sb.rootInodeRef
    rcases hx : Asking.exec (fs.answers codecs) fs.rootInode with e | root
    · rw [error_bind]
      refine ⟨fun h => absurd (hx.trans h) hroot, ?_⟩
      rintro ⟨_, _, _, _, -, h, -⟩
      cases h
    · rw [ok_bind, exec_walk_notADirectory hq]
      simp only [ok_bind, exec_walk_foldlM]
  · exact fun p dir entries name hp hentries hne hslash =>
      exec_lookupPathBytes_name hp hentries hne hslash
  · intro inodeRef dir entries hdir hentries e he
    have h := hlisted inodeRef dir entries hdir hentries e he
    have hlen := h.length_le
    have hsize : (UInt16.ofNat e.name.length).toNat = e.name.length := by
      rw [UInt16.toNat_ofNat']
      unfold SQUASHFS_NAME_LEN at hlen
      omega
    refine ⟨_, dirEntryToAbi_listed h, ?_, hsize, ?_, ?_⟩
    · rw [List.length_append, List.length_cons, List.length_replicate, SQFS_NAME_CAP]
      omega
    · rw [hsize, List.take_left]
    · rw [hsize, List.getElem?_append_right (Nat.le_refl _), Nat.sub_self]
      rfl
  · intro p dir entries hp hentries e he
    obtain ⟨inodeRef, hdir⟩ := readInode_of_lookup hp
    have hlist := hlisted inodeRef dir entries hdir hentries e he
    have hsome : (entries.find? (·.name == e.name)).isSome = true :=
      List.find?_isSome.mpr ⟨e, he, beq_self_eq_true _⟩
    obtain ⟨first, hfirst⟩ := Option.isSome_iff_exists.mp hsome
    refine ⟨first, hfirst, fun attr rest => ?_⟩
    have hnul : (0 : UInt8) ∉ p ++ 0x2F :: e.name := by
      rw [List.mem_append, List.mem_cons, not_or, not_or]
      exact ⟨no_nul_of_lookup hf hp, by decide, hlist.no_nul⟩
    rw [run_stat, cstrToBytes_append hnul,
      exec_lookupPathBytes_name hp hentries hlist.nonempty hlist.no_slash, hfirst]

end Squashfs
