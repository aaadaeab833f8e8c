import Squashfs.RecursiveListing
import Squashfs.Tree

/-!
# The recursive listing of a stored tree

About `ls_recursive` (`src/cli/squashfs/fs.rs:647-726`) over an image that stores a tree.
**`listing_of_tree`**: `fs.squashfs ls --recursive` of a directory whose tree is stored, with the
entries of every directory in the order of their names and its directories under different numbers,
prints the tree in preorder, each entry under its path and at its depth and none marked as met
before. A bound cuts it off in front of the first entry past the bound, and nothing else does.
-/

namespace Squashfs

open Foundation Filesystem

namespace Cli

/-- The entries are in the order of their names. -/
def SortedNames (entries : Forest Bytes StoredNode) : Prop :=
  entries.entries.Pairwise fun a b => a.1 ≤ b.1

/-- Where a walk meets an entry of the directory at `parent`. -/
def placeOf (parent : Place) (name : Bytes) (s : StoredNode) : Place :=
  ⟨childPath parent.full name, parent.depth + 1, s.inodeRef⟩

/-- The inodes of a tree, each at its place below `top`. -/
def places (top : Place) (entries : Forest Bytes StoredNode) : Forest Place Inode :=
  (entries.relabel placeOf top).map StoredNode.inode

/-- What there is to print of a tree: every entry in front of those below it. -/
def treeEntries (top : Place) (entries : Forest Bytes StoredNode) : List RecursiveEntry :=
  (places top entries).preorder.map fun e => recursiveEntry e.1.full e.1.depth e.2 false

/-- The numbers of the directories of a tree. -/
def directoryNumbers (entries : Forest Bytes StoredNode) : List UInt32 :=
  (entries.preorder.filter fun e => e.2.node.isDir).map fun e => e.2.node.inodeNumber

section Stored

variable {codecs : Codecs} {fs : Filesystem} {s : StoredNode} {entries : Forest Bytes StoredNode}

theorem entries_places (top : Place) (entries : Forest Bytes StoredNode) :
    (places top entries).entries.map Prod.fst =
      entries.entries.map fun e => placeOf top e.1 e.2 := by
  simp only [places, Forest.entries_map, Forest.entries_relabel, List.map_map,
    Function.comp_def]

/-- The order of the names is the order of the entries a directory lists. -/
theorem sorted_of_names {ds : List DirEntry} {es : List (Bytes × StoredNode)}
    (h : List.Forall₂ Names ds es) (hsorted : es.Pairwise fun a b => a.1 ≤ b.1) :
    ds.Pairwise fun a b => decide (a.name ≤ b.name) = true := by
  induction h with
  | nil => exact .nil
  | @cons _ _ _ es hd hds ih =>
    obtain ⟨hfirst, hrest⟩ := List.pairwise_cons.mp hsorted
    refine List.pairwise_cons.mpr ⟨fun d hmem => ?_, ih hrest⟩
    obtain ⟨i, rfl⟩ := List.mem_iff_get.mp hmem
    obtain ⟨hlen, hget⟩ := List.forall₂_iff_get.mp hds
    have hi : i < es.length := hlen ▸ i.isLt
    rw [hd.1, (hget i i.isLt hi).1]
    exact decide_eq_true (hfirst _ (List.get_mem _ _))

theorem below_of_names (top : Place) {ds : List DirEntry} {es : List (Bytes × StoredNode)}
    (h : List.Forall₂ Names ds es) :
    ds.map (below top.full top.depth) = es.map fun e => placeOf top e.1 e.2 := by
  induction h with
  | nil => rfl
  | cons hd _ ih =>
    rw [List.map_cons, List.map_cons, ih, below, placeOf, hd.1, hd.2.1]

/-- The children of a stored directory are the entries of its tree. -/
theorem children_stored (h : fs.Stores codecs s entries) (hdir : s.node.isDir = true)
    (hsorted : SortedNames entries) (top : Place) :
    ∃ next, Asking.exec (fs.answers codecs) (children fs s.inode top.full) = .ok next ∧
      next.map (below top.full top.depth) = (places top entries).entries.map Prod.fst := by
  obtain ⟨ds, hread, hnames⟩ := h.readDir_eq (s.node.isDir_iff.mp hdir)
  refine ⟨ds, ?_, ?_⟩
  · rw [exec_children, hread, mapErr_ok, ok_bind,
      List.mergeSort_of_pairwise (sorted_of_names hnames hsorted)]
  · rw [entries_places, below_of_names top hnames]

/-- Nothing is below what is no directory. -/
theorem nil_of_file (h : fs.Stores codecs s entries) (hfile : ¬ s.node.isDir = true) :
    entries = .nil := by
  have hkind := h.kind
  cases hk : s.node.kind with
  | dir => exact absurd (s.node.isDir_iff.mpr hk) hfile
  | fifo => rwa [hk] at hkind
  | socket => rwa [hk] at hkind
  | _ =>
    rw [hk] at hkind
    exact hkind.2

/-- **The graph of the inodes unfolds to the stored tree.** -/
theorem unfolds_stored (hstored : entries.Every (fs.Stores codecs))
    (hsorted : entries.Every fun _ => SortedNames) (top : Place) :
    (tree (fs.answers codecs) fs).Unfolds (places top entries) := by
  induction entries generalizing top with
  | nil => trivial
  | cons name s beneath beside ih ih' =>
    obtain ⟨hs, hbeneath, hbeside⟩ := hstored
    obtain ⟨hnames, hbeneath', hbeside'⟩ := hsorted
    refine ⟨?_, ?_, ih hbeneath hbeneath' _, ih' hbeside hbeside' top⟩
    · exact about_eq_ok.mpr hs.readInode_eq
    · show if s.inode.isDir then _ else _
      rw [hs.isDir_eq]
      by_cases hdir : s.node.isDir = true
      · rw [if_pos hdir]
        exact kids_eq_ok.mpr (children_stored hs hdir hnames _)
      · rw [if_neg hdir, nil_of_file hs hdir]
        rfl

/-- The keys of the graph are the numbers of the directories. -/
theorem openKeys_stored (hstored : entries.Every (fs.Stores codecs)) (top : Place) :
    (tree (fs.answers codecs) fs).openKeys (places top entries) = directoryNumbers entries := by
  induction entries generalizing top with
  | nil => rfl
  | cons name s beneath beside ih ih' =>
    obtain ⟨hs, hbeneath, hbeside⟩ := hstored
    have hnumber : s.inode.inodeNumber = s.node.inodeNumber :=
      s.inode_header.2.2.2.2.trans hs.inodeNumber
    have hcons : directoryNumbers (.cons name s beneath beside) =
        (if s.node.isDir then [s.node.inodeNumber] else []) ++ directoryNumbers beneath ++
          directoryNumbers beside := by
      unfold directoryNumbers
      rw [Forest.preorder, List.filter_cons, List.filter_append]
      split <;> simp
    rw [hcons, ← ih hbeneath (placeOf top name s), ← ih' hbeside top, ← hs.isDir_eq, ← hnumber]
    exact Graph.openKeys_cons _ _ _ _ _

end Stored

/-- The full listing of a stored directory is its tree. -/
theorem fullListing_stored {codecs : Codecs} {fs : Filesystem} {s : StoredNode}
    {entries : Forest Bytes StoredNode} {path : Bytes}
    (hlookup : Asking.exec (fs.answers codecs) (fs.lookupPathBytes path) = .ok s.inode)
    (h : fs.Stores codecs s entries) (hdir : s.node.isDir = true)
    (hstored : entries.Every (fs.Stores codecs)) (hnames : SortedNames entries)
    (hsorted : entries.Every fun _ => SortedNames)
    (hnumbers : (s.node.inodeNumber :: directoryNumbers entries).Nodup) :
    let all := treeEntries ⟨fullPath path, 0, s.inodeRef⟩ entries
    fullListing (fs.answers codecs) fs path =
      ⟨all, all.map fun e => (e.path, e.depth), .ok ()⟩ := by
  intro all
  have hnumber : s.inode.inodeNumber = s.node.inodeNumber :=
    s.inode_header.2.2.2.2.trans h.inodeNumber
  obtain ⟨first, hfirst, hplaces⟩ :=
    children_stored h hdir hnames ⟨fullPath path, 0, s.inodeRef⟩
  have hkeys : (((tree (fs.answers codecs) fs).openKeys
      (places ⟨fullPath path, 0, s.inodeRef⟩ entries)).reverse ++
        [s.inode.inodeNumber]).Nodup := by
    rw [openKeys_stored hstored, hnumber, ← List.reverse_cons]
    exact List.nodup_reverse.mpr hnumbers
  have hplaces : first.map (below (fullPath path) 0) =
      (places ⟨fullPath path, 0, s.inodeRef⟩ entries).entries.map Prod.fst := hplaces
  rw [fullListing_dir (about_eq_ok.mpr hlookup) (h.isDir_eq.trans hdir) hfirst, hplaces,
    Graph.trace_unfolds (unfolds_stored hstored hsorted _) hkeys]
  simp only [Trace.reached, Option.bind_none, Option.toList_none, List.append_nil, List.map_map,
    Option.map_none, all, treeEntries]
  rfl

/-- **The recursive listing of a stored tree**: the tree in preorder, or what of it comes in front
of the first entry past a bound. -/
theorem listing_of_tree {codecs : Codecs} (a : Archive codecs) (t : StoredTree a) {path : Bytes}
    {s : StoredNode} {entries : Forest Bytes StoredNode}
    (hpath : t.below.resolve (fun s => s.node.isDir) t.root (components path) = .ok (s, entries))
    (hdir : s.node.isDir = true) (hnames : SortedNames entries)
    (hsorted : entries.Every fun _ => SortedNames)
    (hnumbers : (s.node.inodeNumber :: directoryNumbers entries).Nodup) (bounds : ListBounds) :
    let all := treeEntries ⟨fullPath path, 0, s.inodeRef⟩ entries
    ((∀ n e, all[n]? = some e → bounds.refuses n e.path e.depth = none) →
      Stateful.exec (a.fs.answers codecs) (lsRecursive a.fs path bounds) [] = (.ok (), all)) ∧
    ∀ n e why, all[n]? = some e → bounds.refuses n e.path e.depth = some why →
      (∀ m e', m < n → all[m]? = some e' → bounds.refuses m e'.path e'.depth = none) →
      Stateful.exec (a.fs.answers codecs) (lsRecursive a.fs path bounds) [] =
        (.error why, all.take n) := by
  intro all
  obtain ⟨hs, hstored⟩ := Forest.Every.resolve t.root_stored t.stored hpath
  have hlookup := t.lookup_eq path
  rw [hpath] at hlookup
  have hfull : fullListing (a.fs.answers codecs) a.fs path =
      ⟨all, all.map fun e => (e.path, e.depth), .ok ()⟩ :=
    fullListing_stored hlookup hs hdir hstored hnames hsorted hnumbers
  have hlisting := @recursiveListing_of_tame _ a.fs (a.fs.tame_answers codecs) path
  have hreached : ∀ n : Nat, (fullListing (a.fs.answers codecs) a.fs path).reached[n]? =
      all[n]?.map fun e => (e.path, e.depth) := by
    intro n
    rw [hfull, List.getElem?_map]
  refine ⟨fun hfits => ?_, fun n e why hn hwhy hbefore => ?_⟩
  · have hwhole := hlisting.fits bounds fun n full depth hn => by
      rw [hreached, Option.map_eq_some_iff] at hn
      obtain ⟨e, he, heq⟩ := hn
      cases heq
      exact hfits n e he
    rw [hwhole, hfull]
  · have hcut := hlisting.cuts bounds n e.path e.depth why (by rw [hreached, hn]; rfl) hwhy
      fun m full depth hm hreach => by
        rw [hreached, Option.map_eq_some_iff] at hreach
        obtain ⟨e', he', heq⟩ := hreach
        cases heq
        exact hbefore m e' hm he'
    rw [hcut, hfull]

/-- The small tree is listed whole within ten entries, and up to the second within one. -/
theorem listing_of_tree_small :
    let ls bounds := Stateful.exec (SmallTree.archive.fs.answers .none)
      (lsRecursive SmallTree.archive.fs [0x2F] bounds) []
    ((ls ⟨5, 10⟩).1 = .ok () ∧ (ls ⟨5, 10⟩).2.map (fun e => (e.path, e.depth)) =
      [([0x2F, 0x61], 1), ([0x2F, 0x64], 1), ([0x2F, 0x64, 0x2F, 0x6C], 2)]) ∧
    (ls ⟨5, 1⟩).1 = .error (.err (.boundReached "--limit" 1 [0x2F, 0x64])) := by
  have hpath : SmallTree.stored.below.resolve (fun s => s.node.isDir) SmallTree.stored.root
      (components [0x2F]) = .ok (SmallTree.root, SmallTree.below) := by
    have hnone : components [0x2F] = [] := by decide
    rw [hnone]
    rfl
  have hlisting := listing_of_tree SmallTree.archive SmallTree.stored hpath rfl
    (by unfold SortedNames; decide) ⟨.nil, trivial, by unfold SortedNames; decide,
      ⟨.nil, trivial, trivial⟩, trivial⟩ (by decide)
  generalize hentries :
    treeEntries ⟨fullPath [0x2F], 0, SmallTree.root.inodeRef⟩ SmallTree.below = all at hlisting
  have hall : all.map (fun e => (e.path, e.depth)) =
      [([0x2F, 0x61], 1), ([0x2F, 0x64], 1), ([0x2F, 0x64, 0x2F, 0x6C], 2)] := by
    rw [← hentries]
    decide +kernel
  obtain ⟨first, second, third, rfl⟩ : ∃ first second third, all = [first, second, third] := by
    have hlen := congrArg List.length hall
    rw [List.length_map] at hlen
    exact List.length_eq_three.mp hlen
  simp only [List.map_cons, List.map_nil, List.cons.injEq, Prod.mk.injEq, and_true] at hall
  obtain ⟨⟨hfirst, hdepth⟩, ⟨hsecond, hdepth'⟩, hthird, hdepth''⟩ := hall
  intro ls
  refine ⟨?_, ?_⟩
  · have hrun := (hlisting ⟨5, 10⟩).1 fun n e he => by
      match n with
      | 0 => cases he; rw [hdepth]; rfl
      | 1 => cases he; rw [hdepth']; rfl
      | 2 => cases he; rw [hdepth'']; rfl
      | n + 3 => cases he
    refine ⟨congrArg Prod.fst hrun, ?_⟩
    have hprinted := congrArg (fun r => r.2.map fun e => (e.path, e.depth)) hrun
    simp only [List.map_cons, List.map_nil, hfirst, hdepth, hsecond, hdepth', hthird,
      hdepth''] at hprinted
    exact hprinted
  · have hrun := (hlisting ⟨5, 1⟩).2 1 second _ rfl (by rw [hsecond]; rfl) fun m e hm he => by
      obtain rfl : m = 0 := by omega
      cases he
      rw [hdepth]
      rfl
    exact congrArg Prod.fst hrun

end Cli

end Squashfs
