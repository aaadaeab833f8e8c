import Squashfs.CapiRead
import Squashfs.Foundation.Finish

/-!
# The calls on a handle finish

About the lock in `resolve_for_read` (`src/capi.rs:233-258`), which is held over the whole lookup,
and the lookup is made of requests that go through the caches. **`handle_calls_finish`**: no threads
of a handle can step for ever, and they cannot come to stand still either before every call of every
thread has been made, because a thread takes the lock only when it does not have it and gives it
back on every way out. In the end the lock is free, and every thread's reads have been finished
once, in the order of its calls, each with what it gives afresh.

Out of scope: which thread a lock wakes, and how long a step takes.
-/

namespace Squashfs

open Foundation Filesystem

namespace Capi

/-! ## The lock of the path read last -/

/-- What a question does to the lock. -/
def HandleReq.lockUse : HandleReq → LockUse
  | .reader _ => .neither
  | .lock => .take
  | .unlock _ => .give

/-- What an operation does to the lock. -/
def HandleOp.lockUse : HandleOp → LockUse
  | .lock => .take
  | .unlock _ => .give
  | _ => .neither

section Discipline

variable {f : ∀ q, Reply q} {α : Type} {held : Bool}

theorem disciplined_reader (p : Query Req Reply α) :
    (p.through askReader).Disciplined HandleReq.lockUse held held := by
  have hp : p.Disciplined (fun _ => .neither) held held := .of_neither fun _ => rfl
  exact hp.through (fun _ h => by cases h) (fun _ h => by cases h) fun _ _ _ _ => rfl

/-- **A path is resolved** under the lock, which is given back on every way out. -/
theorem disciplined_resolveForRead (fs : Filesystem) (path : Bytes) :
    (resolveForRead fs path).run.Disciplined HandleReq.lockUse false false := by
  have hgive : ∀ {last} {a : Res ResolvedFile},
      (do unlockLast last; return a : HandleM (Res ResolvedFile)).Disciplined
        HandleReq.lockUse true false := fun {_ _} => ⟨rfl, fun _ => rfl⟩
  have htake : lockLast.Disciplined HandleReq.lockUse false true := ⟨rfl, fun _ => rfl⟩
  unfold resolveForRead
  refine htake.bind fun last => ?_
  rcases hhit : last.filter (·.path == path) with _ | file
  · rw [hhit]
    refine (disciplined_reader _).bind fun x => ?_
    cases x with
    | ok inode => exact hgive
    | error e => exact hgive
  · rw [hhit]
    exact hgive

theorem disciplined_readFile (fs : Filesystem) (path : Option Bytes) (offset length : UInt64)
    (memory : Option Bytes) :
    (readFile (some fs) path offset length memory).Disciplined HandleReq.lockUse false false := by
  have hbody : (StateT.run (readFileBody (some fs) path offset length).run memory).Disciplined
      HandleReq.lockUse false false := by
    rcases path with _ | path
    · rfl
    rcases memory with _ | memory
    · rfl
    show (StateT.run (Stateful.ofAsking
      ((resolveForRead fs (cstrToBytes path)).mapErr Error.toErrno) >>= fun file =>
        if ¬ file.inode.isRegularFile then throw (.err EINVAL)
        else _).run (some memory)).Disciplined HandleReq.lockUse false false
    refine Query.Disciplined.bind_stateful (Query.Disciplined.ofAsking
      ((disciplined_resolveForRead fs _).map _) _) fun file s => ?_
    by_cases hfile : file.inode.isRegularFile = true
    · rw [if_neg (not_not_intro hfile)]
      exact Query.Disciplined.bind_stateful (disciplined_reader _) fun _ _ => rfl
    · rw [if_pos hfile]
      rfl
  exact hbody.bind fun _ => rfl

theorem disciplined_throughCaches (q : Req) :
    (throughCaches f q).Disciplined HandleOp.lockUse held held := by
  intro r
  cases r with
  | some v => rfl
  | none =>
    dsimp only
    cases f q with
    | error e => rfl
    | ok v => exact fun _ => rfl

/-- **A call** is made under no lock, and leaves none. -/
theorem disciplined_perform (fs : Filesystem) (call : HandleCall) :
    (call.perform f fs).Disciplined HandleOp.lockUse false false := by
  cases call with
  | readFile call =>
    refine Query.Disciplined.bind ((disciplined_readFile fs call.path call.offset call.length
      call.buf).through (fun q hq => ?_) (fun q hq => ?_) fun q hq _ => ?_) fun _ _ => rfl
    · cases q with
      | lock => exact ⟨rfl, fun _ => rfl⟩
      | reader q => cases hq
      | unlock last => cases hq
    · cases q with
      | unlock last => exact ⟨rfl, fun _ => rfl⟩
      | reader q => cases hq
      | lock => cases hq
    · cases q with
      | reader q => exact disciplined_throughCaches q
      | lock => cases hq
      | unlock last => cases hq
  | other program =>
    have hp : program.Disciplined (fun _ => .neither) false false := .of_neither fun _ => rfl
    exact hp.through (fun _ h => by cases h) (fun _ h => by cases h)
      fun q _ _ => disciplined_throughCaches q
  | setCapacity event => exact fun _ => rfl

theorem disciplined_performAll (fs : Filesystem) (calls : List HandleCall) :
    (performAll f fs calls).Disciplined HandleOp.lockUse false false := by
  induction calls with
  | nil => rfl
  | cons call calls ih => exact (disciplined_perform fs call).bind fun _ => ih

end Discipline

/-! ## The finished reads -/

/-- The read a call is, if it is one. -/
def HandleCall.read : HandleCall → Option ReadCall
  | .readFile call => some call
  | _ => none

/-- The read an operation puts down. -/
def HandleOp.finished : HandleOp → Option ReadCall
  | .finish call _ => some call
  | _ => none

section Finished

variable {f : ∀ q, Reply q}

theorem emits_onHandle (q : HandleReq) : (onHandle f q).Emits HandleOp.finished [] := by
  cases q with
  | lock => exact fun _ => rfl
  | unlock last => exact fun _ => rfl
  | reader q =>
    intro r
    cases r with
    | some v => rfl
    | none =>
      dsimp only
      cases f q with
      | error e => rfl
      | ok v => exact fun _ => rfl

theorem emits_perform (fs : Filesystem) (call : HandleCall) :
    (call.perform f fs).Emits HandleOp.finished call.read.toList := by
  cases call with
  | readFile call =>
    refine Query.Emits.bind (Query.Emits.through emits_onHandle) fun result => ?_
    exact ⟨[], rfl, fun _ => rfl⟩
  | other program => exact Query.Emits.through fun q => emits_onHandle (.reader q)
  | setCapacity event => exact fun _ => rfl

/-- **A thread puts its reads down**, one after the other. -/
theorem emits_performAll (fs : Filesystem) (calls : List HandleCall) :
    (performAll f fs calls).Emits HandleOp.finished (calls.filterMap HandleCall.read) := by
  induction calls with
  | nil => rfl
  | cons call calls ih =>
    have h := (emits_perform (f := f) fs call).bind fun _ => ih
    rw [List.filterMap_cons]
    cases hread : call.read with
    | none =>
      rw [hread] at h
      exact h
    | some read =>
      rw [hread] at h
      exact h

end Finished

section Threads

variable {σ τ ι : Type} [DecidableEq ι] {M : BoundedMap Nat (Bytes × Nat) σ}
  {D : BoundedMap DataKey Bytes τ}

/-- The reads a thread has finished, in order, with what each gave. -/
def Handle.readsOf (h : Handle σ τ ι) (i : ι) : List (ReadCall × ReadResult) :=
  (h.finished.filter (·.1 = i)).reverse.map (·.2)

/-- **The handle has one lock**: that of the path read last. -/
theorem oneLock_handle : OneLock (@handleObjects σ τ ι _ M D) HandleOp.lockUse Handle.holder where
  takes := by
    intro i h o huse hfree
    cases o with
    | lock => exact ⟨_, _, if_pos hfree, rfl⟩
    | _ => cases huse
  waits := by
    intro i h o huse hheld
    cases o with
    | lock => exact if_neg hheld
    | _ => cases huse
  gives := by
    intro i h o huse hheld
    cases o with
    | unlock last => exact ⟨_, _, if_pos hheld, rfl⟩
    | _ => cases huse
  passes := by
    intro i h o huse
    cases o with
    | lock => cases huse
    | unlock last => cases huse
    | _ => exact ⟨_, _, rfl, rfl⟩

/-- What a thread puts down stands after what it has put down before. -/
theorem oneLog_handle : OneLog (@handleObjects σ τ ι _ M D) HandleOp.finished
    fun h i => (h.readsOf i).map (·.1) where
  writes := by
    intro i h o call r h' hemit hs
    cases o with
    | finish call' result =>
      cases hemit
      cases hs
      funext j
      unfold Handle.readsOf
      by_cases hj : j = i
      · subst hj
        simp
      · simp [hj, Ne.symm hj]
    | _ => cases hemit
  keeps := by
    intro i h o r h' hemit hs
    have hkeep : h'.finished = h.finished := by
      cases o with
      | finish call result => cases hemit
      | lock =>
        unfold handleObjects at hs
        dsimp only at hs
        split at hs
        · cases hs
          rfl
        · cases hs
      | unlock last =>
        unfold handleObjects at hs
        dsimp only at hs
        split at hs
        · cases hs
          rfl
        · cases hs
      | _ =>
        cases hs
        rfl
    funext j
    unfold Handle.readsOf
    rw [hkeep]

/-- The threads start on the handle's terms. -/
theorem sound_crew {f : ∀ q, Reply q} (hf : Tame f) (fs : Filesystem) (metaBlocks dataBlocks : Nat)
    (calls : ι → List HandleCall) :
    (crew M D f fs metaBlocks dataBlocks calls).Sound (handleContract M D f fs)
      (fun _ _ => True) :=
  ⟨⟨sound_new M D f metaBlocks dataBlocks, nofun, fun _ hx => absurd hx List.not_mem_nil⟩,
    fun i => meets_performAll hf fs (calls i)⟩

/-- **The calls on a handle finish.** Whatever calls finitely many threads make, no run goes on for
ever, and one that cannot go on has made all of them: the lock is free, and every thread's reads
have been finished once, in the order of its calls, each with what it gives afresh. -/
theorem handle_calls_finish [Finite ι] (codecs : Codecs) (fs : Filesystem)
    (metaBlocks dataBlocks : Nat) (calls : ι → List HandleCall) :
    (WellFounded fun c' c : Crew HandleOp HandleOpReply Unit (Handle σ τ ι) ι =>
        Crew.Step (handleObjects M D) c c') ∧
      ∀ c, Relation.ReflTransGen (Crew.Step (handleObjects M D))
          (crew M D (fs.answers codecs) fs metaBlocks dataBlocks calls) c →
        (∃ c', Crew.Step (handleObjects M D) c c') ∨
          (c.Finished ∧ c.shared.holder = none ∧
            ∀ i, c.shared.readsOf i = ((calls i).filterMap HandleCall.read).map fun call =>
              (call, (call.afresh fs).run (fs.answers codecs))) := by
  have hf := fs.tame_answers codecs
  refine ⟨Crew.step_wellFounded _, fun c hrun => ?_⟩
  have horderly : (crew M D (fs.answers codecs) fs metaBlocks dataBlocks calls).Orderly
      HandleOp.lockUse Handle.holder := fun i => disciplined_performAll fs (calls i)
  have hlogged : (crew M D (fs.answers codecs) fs metaBlocks dataBlocks calls).Logged
      HandleOp.finished (fun h i => (h.readsOf i).map (·.1))
      fun i => (calls i).filterMap HandleCall.read :=
    fun i => ⟨_, rfl, emits_performAll fs (calls i)⟩
  have hsound := sound_crew (M := M) (D := D) hf fs metaBlocks dataBlocks calls
  by_cases hstep : ∃ c', Crew.Step (handleObjects M D) c c'
  · exact .inl hstep
  · obtain ⟨hfinished, hfree⟩ := (horderly.run oneLock_handle hrun).finished oneLock_handle hstep
    refine .inr ⟨hfinished, hfree, fun i => ?_⟩
    have hcalls := congrFun ((hlogged.run oneLog_handle hrun).finished hfinished) i
    have hresults : ∀ x ∈ c.shared.readsOf i, x = (x.1, (x.1.afresh fs).run (fs.answers codecs)) :=
      fun x hx => by
        obtain ⟨y, hy, rfl⟩ := List.mem_map.mp hx
        have hy := List.mem_of_mem_filter (List.mem_reverse.mp hy)
        rw [← (Crew.keeps hsound hrun).1.finished y hy]
    rw [← hcalls, List.map_map]
    calc c.shared.readsOf i
        = (c.shared.readsOf i).map fun x => x := (List.map_id' _).symm
      _ = _ := List.map_congr_left hresults

end Threads

/-- Two threads of the sample image, one with two reads and one with a change of the caches'
capacities between a read and itself: there are runs to the end, and each thread has its reads. -/
theorem handle_calls_finish_sample :
    ∃ c : Crew HandleOp HandleOpReply Unit
        (Handle (BoundedMap.Lru Nat (Bytes × Nat)) (BoundedMap.Lru DataKey Bytes) Bool) Bool,
      c.Finished ∧ c.shared.holder = none ∧
        (c.shared.readsOf true).map (·.2) =
          [(some ⟨2, 0⟩, some [0x80, 0x01, 0, 7]), (some ⟨3, 0⟩, some [0x44, 0x80, 0x01, 9])] ∧
        (c.shared.readsOf false).map (·.2) =
          [(some ⟨-1, 2⟩, some [5]), (some ⟨1, 0⟩, some [0x44])] := by
  let calls : Bool → List HandleCall := fun i => match i with
    | true => [.readFile ⟨some [0x61, 0], 1, 4, some [0, 0, 0, 7]⟩,
        .readFile ⟨some [0x61, 0], 0, 4, some [9, 9, 9, 9]⟩]
    | false => [.readFile ⟨some [0x62, 0], 0, 1, some [5]⟩, .setCapacity (.dataCache 0),
        .readFile ⟨some [0x61, 0], 0, 1, some [5]⟩]
  let M := BoundedMap.lru Nat (Bytes × Nat)
  let D := BoundedMap.lru DataKey Bytes
  let start := crew M D (sample.answers .none) sample 2 1 calls
  obtain ⟨c, hrun, hstuck⟩ := Crew.exists_stuck (handleObjects M D) start
  obtain ⟨hfinished, hfree, hreads⟩ :=
    ((handle_calls_finish .none sample 2 1 calls).2 c hrun).resolve_left hstuck
  refine ⟨c, hfinished, hfree, ?_, ?_⟩
  · rw [hreads true]
    decide +kernel
  · rw [hreads false]
    decide +kernel

end Capi

end Squashfs
