import Squashfs.Cache
import Squashfs.Path

/-!
# Sessions

About the operations of `Filesystem` (`src/fs.rs:223-806`) called one after the other. A `Call` is
one of them, on an inode that an earlier call of the session gave. A session is a list of calls, and
its answers are the calls' results in order: values, errors, or panics.

**`returns_session`**: over any image and after any calls, every call of a session returns.
**`caches_invisible`**: sessions racing over the caches, while the caches are resized, get the
answers they get with the caches switched off. Together, **`no_session_panics`**: no session over
any image panics, caches and all.

Out of scope: running out of memory, and inodes made up by the caller.
-/

namespace Squashfs

open Foundation

/-- One operation. An inode is named by its place among those the session was given so far. -/
inductive Call where
  | rootInode
  | readInode (inodeRef : UInt64)
  | readInodeByNumber (inodeNumber : UInt32)
  | lookupPathBytes (path : Bytes)
  | readDir (inode : Nat)
  | listXattrs (inode : Nat)
  | getXattr (inode : Nat) (name : Bytes)
  | readFile (inode : Nat) (offset : UInt64) (buf : Bytes)
  deriving Repr, DecidableEq

/-- What a call gives; a read also gives its buffer back. -/
inductive Answer where
  | inode (r : Res Inode)
  | entries (r : Res (List DirEntry))
  | xattrs (r : Res (List XattrEntry))
  | value (r : Res (Option Bytes))
  | read (r : Res Nat) (buf : Bytes)
  | noSuchInode

namespace Answer

/-- The call ended in a value or in an error. -/
def Returned : Answer → Prop
  | .inode r => Returns r
  | .entries r => Returns r
  | .xattrs r => Returns r
  | .value r => Returns r
  | .read r _ => Returns r
  | .noSuchInode => True

/-- The inode a call gave, if it gave one. -/
def inodes : Answer → List Inode
  | .inode (.ok i) => [i]
  | _ => []

end Answer

/-- A session's programs answer the reader's requests and cannot fail as a whole. -/
abbrev SessionM (α : Type) := Query Req Reply α

namespace Filesystem

/-- A call on the inode at a place, if there is one. -/
def onInode (known : List Inode) (i : Nat) (call : Inode → SessionM Answer) : SessionM Answer :=
  match known[i]? with
  | some inode => call inode
  | none => return .noSuchInode

/-- Perform a call; `known` are the inodes given so far. -/
def perform (fs : Filesystem) (known : List Inode) : Call → SessionM Answer
  | .rootInode => .inode <$> fs.rootInode.run
  | .readInode inodeRef => .inode <$> (fs.readInode inodeRef).run
  | .readInodeByNumber inodeNumber => .inode <$> (fs.readInodeByNumber inodeNumber).run
  | .lookupPathBytes path => .inode <$> (fs.lookupPathBytes path).run
  | .readDir i => onInode known i fun inode => .entries <$> (fs.readDir inode).run
  | .listXattrs i => onInode known i fun inode => .xattrs <$> (fs.listXattrs inode).run
  | .getXattr i name => onInode known i fun inode => .value <$> (fs.getXattr inode name).run
  | .readFile i offset buf => onInode known i fun inode =>
    (fun r => .read r.1 r.2) <$> StateT.run (fs.readFile inode offset).run buf

/-- The answers of a session. -/
def session (fs : Filesystem) : List Inode → List Call → SessionM (List Answer)
  | _, [] => return []
  | known, call :: calls => do
    let answer ← fs.perform known call
    let answers ← fs.session (known ++ answer.inodes) calls
    return answer :: answers

/-! ## Every call returns -/

variable {f : ∀ q, Reply q} {fs : Filesystem} {known : List Inode}

/-- The inodes a session was given have their geometry in order. -/
def Known (fs : Filesystem) (known : List Inode) : Prop := ∀ inode ∈ known, inode.Geometry fs.sb

/-- A call returned, and an inode it gave has its geometry in order. -/
def AnswerOk (fs : Filesystem) (answer : Answer) : Prop :=
  answer.Returned ∧ fs.Known answer.inodes

theorem answerOk_inode {r : Res Inode} (h : Safe (Inode.Geometry fs.sb) r) :
    fs.AnswerOk (.inode r) := by
  refine ⟨h.returns, fun inode hi => ?_⟩
  cases r with
  | ok i =>
    rw [List.mem_singleton.mp hi]
    exact h
  | error e => exact absurd hi List.not_mem_nil

theorem answerOk_onInode (hknown : fs.Known known) (i : Nat) {call : Inode → SessionM Answer}
    (hcall : ∀ inode, inode.Geometry fs.sb → fs.AnswerOk ((call inode).run f)) :
    fs.AnswerOk ((onInode known i call).run f) := by
  unfold onInode
  split
  · rename_i inode hi
    exact hcall inode (hknown inode (List.mem_of_getElem? hi))
  · exact ⟨trivial, fun _ hi => absurd hi List.not_mem_nil⟩

/-- **One call returns**, whatever inodes the session was given before. -/
theorem answerOk_perform (hf : Tame f) (hknown : fs.Known known) (call : Call) :
    fs.AnswerOk ((fs.perform known call).run f) := by
  have hnil : fs.Known [] := fun _ hi => absurd hi List.not_mem_nil
  cases call with
  | rootInode =>
    rw [perform, Query.run_map]
    exact answerOk_inode (fs.safe_readInode hf _)
  | readInode inodeRef =>
    rw [perform, Query.run_map]
    exact answerOk_inode (fs.safe_readInode hf inodeRef)
  | readInodeByNumber inodeNumber =>
    rw [perform, Query.run_map]
    exact answerOk_inode (fs.safe_readInodeByNumber hf inodeNumber)
  | lookupPathBytes path =>
    rw [perform, Query.run_map]
    exact answerOk_inode (fs.safe_lookupPathBytes hf path)
  | readDir i =>
    refine answerOk_onInode hknown i fun inode hgeo => ?_
    rw [Query.run_map]
    exact ⟨(safe_readDir hf hgeo).returns, hnil⟩
  | listXattrs i =>
    refine answerOk_onInode hknown i fun inode _ => ?_
    rw [Query.run_map]
    exact ⟨fs.returns_listXattrs hf inode, hnil⟩
  | getXattr i name =>
    refine answerOk_onInode hknown i fun inode _ => ?_
    rw [Query.run_map]
    exact ⟨fs.returns_getXattr hf inode name, hnil⟩
  | readFile i offset buf =>
    refine answerOk_onInode hknown i fun inode hgeo => ?_
    rw [Query.run_map]
    exact ⟨returns_readFile hf hgeo offset buf, hnil⟩

/-- **Every call of a session returns.** -/
theorem returns_session (hf : Tame f) (hknown : fs.Known known) (calls : List Call) :
    ∀ answer ∈ (fs.session known calls).run f, answer.Returned := by
  induction calls generalizing known with
  | nil => exact fun answer ha => absurd ha List.not_mem_nil
  | cons call calls ih =>
    intro answer ha
    have hcall := answerOk_perform hf hknown call
    rw [session, Query.run_bind, Query.run_bind, Query.run_pure] at ha
    rcases List.mem_cons.mp ha with rfl | ha
    · exact hcall.1
    · refine ih (fun inode hi => ?_) answer ha
      rcases List.mem_append.mp hi with h | h
      · exact hknown inode h
      · exact hcall.2 inode h

/-! ## The caches -/

section Caching

variable {σ τ ι : Type} [DecidableEq ι] (M : BoundedMap Nat (Bytes × Nat) σ)
  (D : BoundedMap DataKey Bytes τ)

/-- Sessions over one image sharing its caches. -/
abbrev Readers (σ τ ι : Type) := World Req.Value Error (List Answer) (Caches σ τ) ι

/-- The readers about to start, their caches empty and of the capacities given. -/
def readersStart (fs : Filesystem) (metaBlocks dataBlocks : Nat) (calls : ι → List Call) :
    Readers σ τ ι :=
  ⟨Caches.new M D metaBlocks dataBlocks, fun i => .start (fs.session [] (calls i))⟩

/-- One step of a reader, or a change of capacity. -/
abbrev ReadersStep (codecs : Codecs) (fs : Filesystem) : Readers σ τ ι → Readers σ τ ι → Prop :=
  Step (cacheMemo M D) (fs.answers codecs)

/-- **The caches are invisible.** However readers' lookups, decodes and insertions interleave and
the capacities change, every block a reader got is the one it gets with the caches switched off,
and so are the answers of every reader that has finished: the same readers with the caches
switched off can give them. -/
theorem caches_invisible (codecs : Codecs) (fs : Filesystem) (metaBlocks dataBlocks : Nat)
    (calls : ι → List Call) {w : Readers σ τ ι}
    (hrun : Relation.ReflTransGen (ReadersStep M D codecs fs)
      (fs.readersStart M D metaBlocks dataBlocks calls) w) (i : ι) :
    (∀ x ∈ (w.readers i).log, x.2 = fs.answers codecs x.1) ∧
      ∀ answers, (w.readers i).phase = .running (.ret answers) →
        answers = (fs.session [] (calls i)).run (fs.answers codecs) ∧
          ∃ off : Readers σ τ ι,
            Relation.ReflTransGen (Step (cacheMemo M D).frozen (fs.answers codecs))
              (fs.readersStart M D 0 0 calls) off ∧
              (off.readers i).phase = .running (.ret answers) := by
  obtain ⟨hlog, hdone⟩ := racing_invisible (sound_new M D _ metaBlocks dataBlocks) _ hrun i
  refine ⟨hlog, fun answers ha => ⟨hdone answers ha, ?_⟩⟩
  obtain ⟨off, answers', hoff, hret⟩ := World.finish (M := (cacheMemo M D).frozen)
    (f := fs.answers codecs) (w := fs.readersStart M D 0 0 calls) (i := i) rfl
  have hsound : Sound (cacheMemo M D).frozen (fs.answers codecs) (Caches.new M D 0 0) :=
    sound_new M D _ 0 0
  have heq := (racing_invisible hsound _ hoff i).2 answers' hret
  rw [hdone answers ha, ← heq]
  exact ⟨off, hoff, hret⟩

end Caching

/-- Two readers of the sample image share small caches, and one has finished. -/
theorem caches_invisible_sample :
    ∃ (w : Readers (BoundedMap.Lru Nat (Bytes × Nat)) (BoundedMap.Lru DataKey Bytes) Bool)
      (answers : List Answer),
      (w.readers true).phase = .running (.ret answers) ∧
        answers = (sample.session [] [.lookupPathBytes [0x61], .readFile 0 0 [0, 0, 0]]).run
          (sample.answers .none) := by
  let calls : Bool → List Call := fun _ => [.lookupPathBytes [0x61], .readFile 0 0 [0, 0, 0]]
  obtain ⟨w, answers, hrun, hret⟩ := World.finish
    (M := cacheMemo (BoundedMap.lru Nat (Bytes × Nat)) (BoundedMap.lru DataKey Bytes))
    (f := sample.answers .none) (w := sample.readersStart _ _ 2 1 calls) (i := true) rfl
  exact ⟨w, answers, hret, ((caches_invisible _ _ .none sample 2 1 calls hrun true).2 _ hret).1⟩

/-- **No session panics.** Over any image, opening returns, and every call of every session over
what was opened returns, alone or racing with others over the caches. -/
theorem no_session_panics (caching : Caching) (codecs : Codecs) (image : Bytes)
    (h : image.length < wordSize) (blocks : Nat) :
    Returns (openWithCache caching codecs (Device.ofBytes image h) blocks) ∧
      ∀ fs, openWithCache caching codecs (Device.ofBytes image h) blocks = .ok fs →
        (∀ calls, ∀ answer ∈ (fs.session [] calls).run (fs.answers codecs), answer.Returned) ∧
          ∀ {σ τ ι : Type} [DecidableEq ι] (M : BoundedMap Nat (Bytes × Nat) σ)
            (D : BoundedMap DataKey Bytes τ) (metaBlocks dataBlocks : Nat) (calls : ι → List Call)
            (w : Readers σ τ ι),
            Relation.ReflTransGen (ReadersStep M D codecs fs)
              (fs.readersStart M D metaBlocks dataBlocks calls) w →
            ∀ i answers, (w.readers i).phase = .running (.ret answers) →
              ∀ answer ∈ answers, answer.Returned := by
  have hsession : ∀ fs : Filesystem, ∀ calls,
      ∀ answer ∈ (fs.session [] calls).run (fs.answers codecs), answer.Returned := fun fs calls =>
    returns_session (fs.tame_answers codecs) (fun _ hi => absurd hi List.not_mem_nil) calls
  refine ⟨returns_openWithCache caching codecs _ blocks, fun fs _ => ⟨hsession fs, ?_⟩⟩
  intro σ τ ι _ M D metaBlocks dataBlocks calls w hrun i answers hret
  have hdone := racing_invisible (sound_new M D _ metaBlocks dataBlocks) _ hrun i
  rw [hdone.2 answers hret]
  exact hsession fs (calls i)

/-- A session over the sample image. -/
theorem no_session_panics_sample :
    openImage .through .none (Device.ofBytes PlainImage.sample.bytes PlainImage.sample_lt) =
        .ok sample ∧
      ∀ answer ∈ (sample.session [] [.rootInode, .readDir 0, .lookupPathBytes [0x61],
        .readFile 1 0 [0, 0, 0, 0], .listXattrs 1]).run (sample.answers .none), answer.Returned :=
  ⟨openImage_sample,
    ((no_session_panics .through .none _ PlainImage.sample_lt DEFAULT_CACHE_BLOCKS).2 _
      openImage_sample).1 _⟩

end Filesystem

end Squashfs
