import Squashfs.Cache
import Squashfs.Stream

/-!
# The cursor is a stream

About `MetaCursor` and its `Window` (`src/metablock.rs:267-410`): the window is one block shared
with the cache, or, from the first boundary on, a buffer of its own. `WindowCursor` keeps the two
apart, as the source does, and on its window's bytes is the flat `MetaCursor` of `Metablock`
(**`WindowCursor.refines_readExact`**).

`Chain` are the bytes ahead of a cursor, and the error that ends them. **`session_reads_stream`**:
through any caches that hold true answers, a sequence of reads gets the stream's bytes in order; a
read that asks for more than is left gets the error that ends the stream, and takes nothing.
-/

namespace Squashfs

open Foundation

/-- The cursor's window onto decompressed metadata. -/
inductive Window where
  /-- One block, shared with the cache. -/
  | whole (block : Bytes)
  /-- The tail of one block followed by whole blocks after it. -/
  | spliced (bytes : Bytes)
  deriving Repr, DecidableEq

def Window.bytes : Window → Bytes
  | .whole block => block
  | .spliced bytes => bytes

/-- The cursor with its window. -/
structure WindowCursor where
  nextAbs : Nat
  buf : Window
  pos : Nat
  limit : Option (Nat × String)
  deriving Repr, DecidableEq

namespace WindowCursor

/-- A cursor `inBlock` bytes into the block at `startAbs`. -/
def new (startAbs : Nat) (inBlock : UInt16) : Prog WindowCursor := do
  let (block, next) ← readBlock startAbs
  if block.length < inBlock.toNat then
    throw (.err (.badMetadata "metadata reference offset past block end"))
  else return ⟨next, .whole block, inBlock.toNat, none⟩

def withLimit (cur : WindowCursor) (stop : Nat) (why : String) : WindowCursor :=
  { cur with limit := some (stop, why) }

/-- Pull one more block onto the tail of the window. -/
def refill : Stateful Req Reply Error WindowCursor Unit := do
  let cur ← get
  MetaCursor.checkLimit cur.limit cur.nextAbs
  let (block, next) ← Stateful.ofAsking (readBlock cur.nextAbs)
  if block.isEmpty then
    throw (.err (.badMetadata "empty metadata block while reading record"))
  else
    -- `mem::replace` leaves an empty window while the old one is cut
    set { cur with buf := .spliced [] }
    let spliced ← (match cur.buf with
      | .whole b => sliceFrom b cur.pos
      | .spliced b => sliceFrom b cur.pos : Res Bytes)
    set { cur with nextAbs := next, buf := .spliced (spliced ++ block), pos := 0 }

/-- `buf.bytes().len() - pos`. -/
def unread (cur : WindowCursor) : Res Nat := sub64 cur.buf.bytes.length cur.pos

/-- `while unread < n`. -/
def ensureLoop (n : Nat) : Nat → Stateful Req Reply Error WindowCursor Unit
  | 0 => do
    let cur ← get
    if (← unread cur) < n then throw .diverge else pure ()
  | turns + 1 => do
    let cur ← get
    if (← unread cur) < n then
      refill
      ensureLoop n turns
    else pure ()

def ensure (n : Nat) : Stateful Req Reply Error WindowCursor Unit := ensureLoop n n

/-- Read exactly `n` bytes. -/
def readExact (n : Nat) : Stateful Req Reply Error WindowCursor Bytes := do
  ensure n
  let cur ← get
  let stop ← (add64 cur.pos n : Res Nat)
  let out ← (slice cur.buf.bytes cur.pos stop : Res Bytes)
  set { cur with pos := stop }
  return out

/-! ## The window is its bytes -/

/-- The cursor on its window's bytes. -/
def flat (cur : WindowCursor) : MetaCursor := ⟨cur.nextAbs, cur.buf.bytes, cur.pos, cur.limit⟩

/-- The cursor stands inside its window. -/
def Inside (cur : WindowCursor) : Prop := cur.pos ≤ cur.buf.bytes.length

variable {f : ∀ q, Reply q} {cur : WindowCursor}

theorem refines_refill (h : cur.Inside) :
    RefinesAt f flat Inside cur refill MetaCursor.refill := by
  refine refinesAt_get_bind (refinesAt_bind (refinesAt_lift h _) fun _ cur₁ h₁ =>
    refinesAt_bind (refinesAt_ofAsking h₁ _) fun (block, next) cur₂ h₂ => ?_)
  dsimp only
  by_cases hempty : block.isEmpty
  · rw [if_pos hempty, if_pos hempty]
    exact refinesAt_throw h₂ _
  · rw [if_neg hempty, if_neg hempty]
    have hrest : (match cur.buf with
        | .whole b => sliceFrom b cur.pos
        | .spliced b => sliceFrom b cur.pos : Res Bytes) = .ok (cur.buf.bytes.drop cur.pos) := by
      unfold Inside at h
      cases hbuf : cur.buf with
      | whole b => exact sliceFrom_ok (by rwa [hbuf] at h)
      | spliced b => exact sliceFrom_ok (by rwa [hbuf] at h)
    have hflat : (sliceFrom cur.flat.buf cur.flat.pos : Res Bytes) =
        .ok (cur.buf.bytes.drop cur.pos) := sliceFrom_ok h
    constructor
    · rw [Stateful.exec_lift_bind hflat, Stateful.exec_set, Stateful.exec_set_bind,
        Stateful.exec_lift_bind hrest, Stateful.exec_set]
      rfl
    · rw [Stateful.exec_set_bind, Stateful.exec_lift_bind hrest, Stateful.exec_set]
      exact Nat.zero_le _

theorem refines_ensureLoop {n turns : Nat} (h : cur.Inside) :
    RefinesAt f flat Inside cur (ensureLoop n turns) (MetaCursor.ensureLoop n turns) := by
  induction turns generalizing cur with
  | zero =>
    refine refinesAt_get_bind (refinesAt_bind (refinesAt_lift h _) fun left cur₁ h₁ => ?_)
    by_cases hshort : left < n
    · rw [if_pos hshort, if_pos hshort]
      exact refinesAt_throw h₁ _
    · rw [if_neg hshort, if_neg hshort]
      exact refinesAt_pure h₁ _
  | succ turns ih =>
    refine refinesAt_get_bind (refinesAt_bind (refinesAt_lift h _) fun left cur₁ h₁ => ?_)
    by_cases hshort : left < n
    · rw [if_pos hshort, if_pos hshort]
      exact refinesAt_bind (refines_refill h₁) fun _ _ h₂ => ih h₂
    · rw [if_neg hshort, if_neg hshort]
      exact refinesAt_pure h₁ _

/-- **A read through the window is a read of its bytes**, and leaves the cursor inside. -/
theorem refines_readExact {n : Nat} (h : cur.Inside) :
    RefinesAt f flat Inside cur (readExact n) (MetaCursor.readExact n) := by
  refine refinesAt_bind (refines_ensureLoop h) fun _ cur₁ h₁ => refinesAt_get_bind ?_
  have htake : MetaCursor.take cur₁.flat n = (add64 cur₁.pos n >>= fun stop =>
      slice cur₁.buf.bytes cur₁.pos stop >>= fun out =>
        pure (out, { cur₁.flat with pos := stop })) := rfl
  rcases hadd : (add64 cur₁.pos n : Res Nat) with e | stop
  · rw [hadd, error_bind] at htake
    constructor
    · rw [Stateful.exec_lift_bind_error htake, Stateful.exec_lift_bind_error rfl]
    · rw [Stateful.exec_lift_bind_error rfl]
      exact h₁
  rw [hadd, ok_bind] at htake
  rcases hslice : (slice cur₁.buf.bytes cur₁.pos stop : Res Bytes) with e | out
  · rw [hslice, error_bind] at htake
    constructor
    · rw [Stateful.exec_lift_bind_error htake, Stateful.exec_lift_bind rfl,
        Stateful.exec_lift_bind_error hslice]
    · rw [Stateful.exec_lift_bind rfl, Stateful.exec_lift_bind_error hslice]
      exact h₁
  · rw [hslice, ok_bind] at htake
    constructor
    · rw [Stateful.exec_lift_bind htake, Stateful.exec_set_bind, Stateful.exec_lift_bind rfl,
        Stateful.exec_lift_bind hslice, Stateful.exec_set_bind]
      rfl
    · rw [Stateful.exec_lift_bind rfl, Stateful.exec_lift_bind hslice, Stateful.exec_set_bind]
      exact (slice_eq_ok.mp hslice).1.2

end WindowCursor

/-! ## The chain of blocks -/

variable {f : ∀ q, Reply q} {limit : Option (Nat × String)} {abs : Nat} {bytes : Bytes} {e : Error}

/-- The chain ends at `abs`, with error `e`: the limit is reached, or the block there cannot be
read and decoded, or is empty. -/
inductive Ends (f : ∀ q, Reply q) (limit : Option (Nat × String)) (abs : Nat) : Error → Prop
  | limited {stop : Nat} {why : String} (h : limit = some (stop, why)) (hle : stop ≤ abs) :
      Ends f limit abs (.badMetadata why)
  | unreadable {e : Error} (hlimit : Within limit abs) (h : f (.block abs) = fails e) :
      Ends f limit abs e
  | empty {next : Nat} (hlimit : Within limit abs) (h : f (.block abs) = .ok ([], next)) :
      Ends f limit abs (.badMetadata "empty metadata block while reading record")

/-- The blocks from `abs` on hold `bytes`, each found at the successor offset of the one before,
and `e` is the error that ends them. -/
def Chain (f : ∀ q, Reply q) (limit : Option (Nat × String)) (abs : Nat) (bytes : Bytes)
    (e : Error) : Prop :=
  ∃ segs fin, Segments f limit abs segs fin ∧ bytes = bytesOf segs ∧ Ends f limit fin e

/-- Successor offsets lie further on, and inside the device. -/
def Forward (f : ∀ q, Reply q) (size : Nat) : Prop :=
  ∀ abs block next, f (.block abs) = .ok (block, next) → abs < next ∧ next ≤ size

theorem forward_uncached (codecs : Codecs) (dev : Device) (sb : Superblock) (comp : Compressor) :
    Forward (uncached codecs dev sb comp) dev.sizeBytes :=
  fun abs _ _ h => ((safe_readBlockUncached codecs dev sb abs).of_eq h).2

/-- Every chain ends. -/
theorem chain_exists (hf : Tame f) {size : Nat} (hnext : Forward f size)
    (limit : Option (Nat × String)) (abs : Nat) : ∃ bytes e, Chain f limit abs bytes e := by
  by_cases hlimit : Within limit abs
  · have hblock := hf.block abs
    rcases hread : f (.block abs) with e | ⟨block, next⟩
    · obtain ⟨a, ha⟩ | ⟨e, he⟩ := hblock.returns.cases
      · rw [hread] at ha
        cases ha
      · exact ⟨[], e, [], abs, .nil abs, rfl, .unreadable hlimit he⟩
    · by_cases hempty : block = []
      · subst hempty
        exact ⟨[], _, [], abs, .nil abs, rfl, .empty hlimit hread⟩
      · obtain ⟨hlt, hle⟩ := hnext abs block next hread
        obtain ⟨bytes, e, segs, fin, hs, rfl, hend⟩ := chain_exists hf hnext limit next
        exact ⟨_, e, _, fin, .cons hlimit hread hempty hs, rfl, hend⟩
  · unfold Within at hlimit
    push Not at hlimit
    obtain ⟨stop, why, hstop, hle⟩ := hlimit
    exact ⟨[], _, [], abs, .nil abs, rfl, .limited hstop hle⟩
termination_by size - abs

theorem checkLimit_past {stop : Nat} {why : String} (h : stop ≤ abs) :
    MetaCursor.checkLimit (some (stop, why)) abs = fails (.badMetadata why) := if_pos h

namespace MetaCursor

/-- `bytes` are ahead of the cursor, and then the error `e`. -/
structure Ahead (f : ∀ q, Reply q) (cur : MetaCursor) (bytes : Bytes) (e : Error) : Prop where
  inside : cur.pos ≤ cur.buf.length
  small : cur.buf.length ≤ 2 * isizeMax
  chain : ∃ rest, Chain f cur.limit cur.nextAbs rest e ∧ bytes = cur.buf.drop cur.pos ++ rest

variable {cur : MetaCursor} {n : Nat}

/-- A refill that succeeds adds a byte at least. -/
theorem refill_grows {cur' : MetaCursor} (h : cur.pos ≤ cur.buf.length)
    (hrefill : Stateful.exec f refill cur = (.ok (), cur')) :
    cur.buf.length - cur.pos < cur'.buf.length - cur'.pos := by
  obtain ⟨block, next, -, -, hne, rfl⟩ := (refill_eq_ok h).mp hrefill
  have hpos : 0 < block.length := List.length_pos_of_ne_nil hne
  show _ < (cur.buf.drop cur.pos ++ block).length - 0
  rw [List.length_append, List.length_drop]
  omega

/-- A refill moves a block from the chain into the window, or fails as the chain ends. -/
theorem refill_ahead (hf : Tame f) (h : cur.Ahead f bytes e)
    (hshort : cur.buf.length - cur.pos < n) (hfit : min n bytes.length ≤ isizeMax) :
    Stateful.exec f refill cur = (.error (.err e), cur) ∧ bytes.length = cur.buf.length - cur.pos ∨
      ∃ cur', Stateful.exec f refill cur = (.ok (), cur') ∧ cur'.Ahead f bytes e ∧
        cur.buf.length - cur.pos < cur'.buf.length - cur'.pos := by
  obtain ⟨_, ⟨segs, fin, hs, rfl, hend⟩, rfl⟩ := h.chain
  rw [exec_refill cur h.inside]
  cases hs with
  | nil =>
    refine .inl ⟨?_, by simp⟩
    cases hend with
    | limited hstop hle => rw [hstop, checkLimit_past hle]
    | unreadable hlimit hread => rw [checkLimit_eq_ok.mpr hlimit, hread]
    | empty hlimit hread =>
      rw [checkLimit_eq_ok.mpr hlimit, hread]
      rfl
  | @cons _ next _ block segs hlimit hread hne tail =>
    have hblock : block.length ≤ isizeMax := (hf.block _).of_eq hread
    have hpos : 0 < block.length := List.length_pos_of_ne_nil hne
    have hempty : ¬ block.isEmpty = true := by rwa [List.isEmpty_iff]
    rw [checkLimit_eq_ok.mpr hlimit, hread]
    dsimp only
    rw [if_neg hempty]
    have hwindow : (cur.buf.drop cur.pos ++ block).length =
        cur.buf.length - cur.pos + block.length := by
      rw [List.length_append, List.length_drop]
    refine .inr ⟨_, rfl, ⟨Nat.zero_le _, ?_, _, ⟨segs, fin, tail, rfl, hend⟩, ?_⟩, ?_⟩
    · show (cur.buf.drop cur.pos ++ block).length ≤ _
      rw [bytesOf_cons, ← List.append_assoc, List.length_append, hwindow] at hfit
      omega
    · rw [bytesOf_cons, List.drop_zero, List.append_assoc]
    · show _ < (cur.buf.drop cur.pos ++ block).length - 0
      omega

/-- `n` turns make `n` bytes available, or run into the end of the chain. -/
theorem ensureLoop_ahead (hf : Tame f) {turns : Nat} (h : cur.Ahead f bytes e)
    (hturns : n ≤ turns + (cur.buf.length - cur.pos)) (hfit : min n bytes.length ≤ isizeMax) :
    ∃ cur', cur'.Ahead f bytes e ∧
      (n ≤ bytes.length → Stateful.exec f (ensureLoop n turns) cur = (.ok (), cur') ∧
        n ≤ cur'.buf.length - cur'.pos) ∧
      (bytes.length < n → Stateful.exec f (ensureLoop n turns) cur = (.error (.err e), cur')) := by
  have hlen : ∀ {cur : MetaCursor}, cur.Ahead f bytes e →
      cur.buf.length - cur.pos ≤ bytes.length := by
    intro cur h
    obtain ⟨rest, -, rfl⟩ := h.chain
    rw [List.length_append, List.length_drop]
    exact Nat.le_add_right _ _
  induction turns generalizing cur with
  | zero =>
    have hle := hlen h
    refine ⟨cur, h, fun _ => ⟨exec_ensureLoop_zero h.inside (by omega), by omega⟩, ?_⟩
    intro hlt
    omega
  | succ turns ih =>
    have hle := hlen h
    rw [exec_ensureLoop_succ h.inside]
    by_cases hshort : cur.buf.length - cur.pos < n
    · rw [if_pos hshort]
      rcases refill_ahead hf h hshort hfit with ⟨hrefill, hend⟩ | ⟨cur₁, hrefill, h₁, hlt⟩
      · refine ⟨cur, h, fun hn => by omega, fun _ => ?_⟩
        rw [Stateful.exec_bind, hrefill]
      · rw [Stateful.exec_bind_ok hrefill]
        exact ih h₁ (by omega)
    · rw [if_neg hshort]
      exact ⟨cur, h, fun _ => ⟨rfl, by omega⟩, fun hlt => by omega⟩

/-- **A read takes the next `n` bytes ahead**, or fails as the chain ends and takes nothing. -/
theorem readExact_ahead (hf : Tame f) (h : cur.Ahead f bytes e)
    (hfit : min n bytes.length ≤ isizeMax) :
    ∃ cur', Stateful.exec f (readExact n) cur =
        (if n ≤ bytes.length then .ok (bytes.take n) else fails e, cur') ∧
      cur'.Ahead f (if n ≤ bytes.length then bytes.drop n else bytes) e := by
  obtain ⟨mid, hmid, hok, herr⟩ := @ensureLoop_ahead f bytes e cur n hf n h (Nat.le_add_right _ _) hfit
  unfold readExact ensure
  by_cases hn : n ≤ bytes.length
  · obtain ⟨hrun, hle⟩ := hok hn
    rw [if_pos hn, if_pos hn, Stateful.exec_bind_ok hrun, Stateful.exec_get_bind]
    have hinside := hmid.inside
    have hsmall := hmid.small
    have htake : take mid n =
        .ok ((mid.buf.drop mid.pos).take n, { mid with pos := mid.pos + n }) := by
      unfold take
      rw [add64_ok (by unfold isizeMax wordSize at *; omega), ok_bind,
        slice_window_ok (by omega), ok_bind]
      rfl
    obtain ⟨rest, hchain, rfl⟩ := hmid.chain
    have hdrop : n ≤ (mid.buf.drop mid.pos).length := by rwa [List.length_drop]
    refine ⟨{ mid with pos := mid.pos + n }, ?_, ⟨?_, hsmall, rest, hchain, ?_⟩⟩
    · rw [Stateful.exec_lift_bind htake, Stateful.exec_set_bind, Stateful.exec_pure,
        List.take_append_of_le_length hdrop]
    · show mid.pos + n ≤ mid.buf.length
      omega
    · rw [List.drop_append_of_le_length hdrop, List.drop_drop]
  · rw [if_neg hn, if_neg hn]
    refine ⟨mid, ?_, hmid⟩
    rw [Stateful.exec_bind, herr (Nat.lt_of_not_le hn)]

end MetaCursor

/-! ## Sequences of reads -/

/-- What requests get off a stream of `bytes` that ends with `e`. -/
def streamReads (bytes : Bytes) (e : Error) : List Nat → List (Res Bytes)
  | [] => []
  | n :: ns =>
    if n ≤ bytes.length then .ok (bytes.take n) :: streamReads (bytes.drop n) e ns
    else fails e :: streamReads bytes e ns

namespace WindowCursor

/-- One read after another, whatever came of those before. -/
def readAll : List Nat → Stateful Req Reply Error WindowCursor (List (Res Bytes))
  | [] => pure []
  | n :: ns => do
    let out ← Stateful.attempt (readExact n)
    let outs ← readAll ns
    return out :: outs

/-- A cursor opened, limited if it is to be, and read from. -/
def session (startAbs : Nat) (inBlock : UInt16) (limit : Option (Nat × String))
    (requests : List Nat) : Prog (List (Res Bytes)) := do
  let cur ← new startAbs inBlock
  match limit with
  | none => (readAll requests).eval cur
  | some (stop, why) => (readAll requests).eval (cur.withLimit stop why)

theorem exec_readAll (hf : Tame f) {ns : List Nat} {cur : WindowCursor}
    (h : cur.flat.Ahead f bytes e) (hfit : ∀ n ∈ ns, min n bytes.length ≤ isizeMax) :
    (Stateful.exec f (readAll ns) cur).1 = .ok (streamReads bytes e ns) := by
  induction ns generalizing cur bytes with
  | nil => rfl
  | cons n ns ih =>
    obtain ⟨flat', hread, hahead⟩ := MetaCursor.readExact_ahead hf h (hfit n List.mem_cons_self)
    obtain ⟨hsame, hinside⟩ := @refines_readExact f cur n h.inside
    rcases hrun : Stateful.exec f (readExact n) cur with ⟨out, cur'⟩
    rw [hread, hrun] at hsame
    obtain ⟨rfl, rfl⟩ := Prod.mk.inj hsame
    have hattempt : Stateful.exec f (Stateful.attempt (readExact n)) cur =
        (.ok (if n ≤ bytes.length then .ok (bytes.take n) else fails e), cur') := by
      rw [Stateful.exec_attempt, hrun]
    have hrest : ∀ m ∈ ns,
        min m (if n ≤ bytes.length then bytes.drop n else bytes).length ≤ isizeMax := by
      intro m hm
      have hm := hfit m (List.mem_cons_of_mem n hm)
      split
      · rw [List.length_drop]
        omega
      · exact hm
    have hih := ih hahead hrest
    rcases hmore : Stateful.exec f (readAll ns) cur' with ⟨outs, last⟩
    rw [hmore] at hih
    cases hih
    rw [readAll, Stateful.exec_bind_ok hattempt, Stateful.exec_bind_ok hmore, streamReads]
    split <;> rfl

/-- The cursor a session reads from has the first block, from `inBlock` on, and the chain ahead. -/
theorem exec_session (hf : Tame f) {startAbs next : Nat} {inBlock : UInt16} {block rest : Bytes}
    {ns : List Nat} (hread : f (.block startAbs) = .ok (block, next))
    (hin : inBlock.toNat ≤ block.length) (hchain : Chain f limit next rest e)
    (hfit : ∀ n ∈ ns, min n (block.drop inBlock.toNat ++ rest).length ≤ isizeMax) :
    Asking.exec f (session startAbs inBlock limit ns) =
      .ok (streamReads (block.drop inBlock.toNat ++ rest) e ns) := by
  have hsmall : block.length ≤ isizeMax := (hf.block _).of_eq hread
  have hnew : Asking.exec f (new startAbs inBlock) =
      .ok ⟨next, .whole block, inBlock.toNat, none⟩ := by
    unfold new
    rw [Asking.exec_bind, exec_readBlock, hread]
    show Asking.exec f (if _ then _ else _) = _
    rw [if_neg (Nat.not_lt_of_le hin)]
    rfl
  have hahead : MetaCursor.Ahead f ⟨next, block, inBlock.toNat, limit⟩
      (block.drop inBlock.toNat ++ rest) e :=
    ⟨hin, by show block.length ≤ _; omega, rest, hchain, rfl⟩
  unfold session
  rw [Asking.exec_bind, hnew, ok_bind]
  rcases limit with _ | ⟨stop, why⟩
  · dsimp only
    rw [Stateful.exec_eval]
    exact exec_readAll hf hahead hfit
  · dsimp only
    rw [Stateful.exec_eval]
    exact exec_readAll hf hahead hfit

theorem exec_session_error {startAbs : Nat} {inBlock : UInt16} {ns : List Nat}
    (hread : f (.block startAbs) = fails e) :
    Asking.exec f (session startAbs inBlock limit ns) = fails e := by
  unfold session new
  rw [Asking.exec_bind, Asking.exec_bind, exec_readBlock, hread]
  rfl

theorem exec_session_outside {startAbs next : Nat} {inBlock : UInt16} {block : Bytes}
    {ns : List Nat} (hread : f (.block startAbs) = .ok (block, next))
    (hout : block.length < inBlock.toNat) :
    Asking.exec f (session startAbs inBlock limit ns) =
      fails (.badMetadata "metadata reference offset past block end") := by
  unfold session new
  rw [Asking.exec_bind, Asking.exec_bind, exec_readBlock, hread, ok_bind]
  dsimp only
  rw [Asking.exec_ite, if_pos hout]
  rfl

/-- **A cursor is a stream.** However many cursors race over caches that hold true answers, what
one that has finished was given is the stream of the blocks from its start on: each request its
next bytes while there are enough, and otherwise the error that ends the chain, which takes
nothing. A start whose block cannot be read, or ends before `inBlock`, is refused; every chain
ends, each successor lies further on, and each refill adds a byte at least. -/
theorem session_reads_stream {σ τ ι : Type} [DecidableEq ι] (M : BoundedMap Nat (Bytes × Nat) σ)
    (D : BoundedMap DataKey Bytes τ) (codecs : Codecs) (dev : Device) (sb : Superblock)
    (comp : Compressor) {caches : Caches σ τ}
    (hsound : Sound (cacheMemo M D) (uncached codecs dev sb comp) caches) (startAbs : ι → Nat)
    (inBlock : ι → UInt16) (limit : ι → Option (Nat × String)) (requests : ι → List Nat)
    {w : World Req.Value Error (Outcome Error (List (Res Bytes))) (Caches σ τ) ι}
    (hrun : Relation.ReflTransGen (Step (cacheMemo M D) (uncached codecs dev sb comp))
      ⟨caches, fun i => .start (session (startAbs i) (inBlock i) (limit i) (requests i)).run⟩ w)
    (i : ι) :
    (∀ answer, (w.readers i).phase = .running (.ret answer) →
      (∀ e, readBlockUncached codecs dev sb (startAbs i) = fails e → answer = fails e) ∧
      ∀ block next, readBlockUncached codecs dev sb (startAbs i) = .ok (block, next) →
        (block.length < (inBlock i).toNat →
          answer = fails (.badMetadata "metadata reference offset past block end")) ∧
        ((inBlock i).toNat ≤ block.length →
          (∃ rest e, Chain (uncached codecs dev sb comp) (limit i) next rest e) ∧
          ∀ rest e, Chain (uncached codecs dev sb comp) (limit i) next rest e →
            (∀ n ∈ requests i, min n (block.drop (inBlock i).toNat ++ rest).length ≤ isizeMax) →
            answer = .ok (streamReads (block.drop (inBlock i).toNat ++ rest) e (requests i)))) ∧
    (∀ abs block next, readBlockUncached codecs dev sb abs = .ok (block, next) → abs < next) ∧
    ∀ cur cur' : WindowCursor, cur.Inside →
      Stateful.exec (uncached codecs dev sb comp) refill cur = (.ok (), cur') →
      cur.buf.bytes.length - cur.pos < cur'.buf.bytes.length - cur'.pos := by
  have hf := tame_uncached codecs dev sb comp
  have hnext := forward_uncached codecs dev sb comp
  refine ⟨fun answer hanswer => ?_, fun abs block next h => (hnext abs block next h).1, ?_⟩
  · have hdone : answer = Asking.exec (uncached codecs dev sb comp)
        (session (startAbs i) (inBlock i) (limit i) (requests i)) :=
      (racing_invisible hsound _ hrun i).2 answer hanswer
    subst hdone
    refine ⟨fun e he => exec_session_error he, fun block next hread => ⟨?_, fun hin => ⟨?_, ?_⟩⟩⟩
    · exact exec_session_outside hread
    · exact chain_exists hf hnext (limit i) next
    · intro rest e hchain hfit
      exact exec_session hf hread hin hchain hfit
  · intro cur cur' hinside hrefill
    have hsame := (refines_refill (f := uncached codecs dev sb comp) hinside).same
    rw [hrefill] at hsame
    exact @MetaCursor.refill_grows _ cur.flat cur'.flat hinside hsame

/-- A block of two bytes, and one of one. -/
def twoBlocks : Bytes := [0x02, 0x80, 1, 2, 0x01, 0x80, 3]

def twoBlocksDevice : Device := Device.ofBytes twoBlocks (by decide)

/-- The second block can be read, and nothing after it. -/
theorem twoBlocks_chain (sb : Superblock) (comp : Compressor) :
    Chain (uncached .none twoBlocksDevice sb comp) none 4 [3] (.block (.shortRead 7 2 0)) :=
  ⟨[(4, [3])], 7, .cons nofun rfl (by decide) (.nil 7), rfl, .unreadable nofun rfl⟩

/-- One of two racing cursors reads the two blocks, and twice asks for more than there is. -/
theorem session_reads_stream_sample :
    ∃ (w : World Req.Value Error (Outcome Error (List (Res Bytes)))
        (Caches (BoundedMap.Lru Nat (Bytes × Nat)) (BoundedMap.Lru DataKey Bytes)) Bool)
      (answer : Outcome Error (List (Res Bytes))),
      (w.readers true).phase = .running (.ret answer) ∧
        answer = .ok [.ok [1], fails (.block (.shortRead 7 2 0)), .ok [2, 3],
          fails (.block (.shortRead 7 2 0))] := by
  let sb := PlainImage.sample.superblock
  let M := BoundedMap.lru Nat (Bytes × Nat)
  let D := BoundedMap.lru DataKey Bytes
  obtain ⟨w, answer, hrun, hret⟩ := World.finish
    (M := cacheMemo M D) (f := uncached .none twoBlocksDevice sb .gzip)
    (w := ⟨Caches.new M D 2 1, fun _ => .start (session 0 0 none [1, 5, 2, 1]).run⟩) (i := true) rfl
  have hstream := session_reads_stream M D .none twoBlocksDevice sb .gzip
    (sound_new M D _ 2 1) (fun _ => 0) (fun _ => 0) (fun _ => none) (fun _ => [1, 5, 2, 1]) hrun true
  obtain ⟨-, hblock⟩ := hstream.1 answer hret
  have hin := (hblock [1, 2] 4 rfl).2 (Nat.zero_le _)
  exact ⟨w, answer, hret, hin.2 [3] _ (twoBlocks_chain sb .gzip) (by decide)⟩

end WindowCursor

end Squashfs
