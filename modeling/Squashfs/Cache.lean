import Squashfs.Foundation.Memo
import Squashfs.Fs

/-!
# The caches

Model of `MetaCache` (`src/metablock.rs:66-138`) and `DataCache` (`src/fs.rs:74-135`), and of the
look-ups through them (`read_block`, `metablock.rs:146-164`, and `read_data_block`,
`fs.rs:757-770`).

Decoded metadata blocks are kept by where they are, each with the offset of the next; decoded data
and fragment blocks by the whole request: offset, size word and output bound. Each cache is a map of
a capacity that can be changed at any moment, zero switching it off, and every change drops what it
held.

`cacheMemo` presents the two as one `Memo` of the reader's requests, so that what
`Foundation/Memo.lean` shows of readers racing over a memory holds of readers racing over them.

Out of scope: the map itself, the `lru` package's, which is any `BoundedMap`; a lock that was
poisoned by a panic, since no reader panics; and the counters, which `CacheAccounts` adds.
-/

namespace Squashfs

open Foundation

/-- The key of a data block. -/
abbrev DataKey := Nat × UInt32 × Nat

/-- Both caches, each off or a map. -/
structure Caches (σ τ : Type) where
  metaCache : Option σ
  dataCache : Option τ

/-- A change of capacity. -/
inductive SetCapacity where
  | metaCache (blocks : Nat)
  | dataCache (blocks : Nat)
  deriving Repr, DecidableEq

section Caches

variable {σ τ : Type} (M : BoundedMap Nat (Bytes × Nat) σ) (D : BoundedMap DataKey Bytes τ)

namespace Caches

/-- Empty caches of the capacities given. -/
def new (metaBlocks dataBlocks : Nat) : Caches σ τ := ⟨M.sized metaBlocks, D.sized dataBlocks⟩

/-- `MetaCache::get` and `DataCache::get`. -/
def get (c : Caches σ τ) : (q : Req) → Option q.Value × Caches σ τ
  | .block abs => ((M.getOn c.metaCache abs).1, { c with metaCache := (M.getOn c.metaCache abs).2 })
  | .data abs sizeWord maxOut =>
    let key := (abs, sizeWord, maxOut)
    ((D.getOn c.dataCache key).1, { c with dataCache := (D.getOn c.dataCache key).2 })

/-- `MetaCache::insert` and `DataCache::insert`. -/
def insert (c : Caches σ τ) : (q : Req) → q.Value → Caches σ τ
  | .block abs, block => { c with metaCache := M.putOn c.metaCache abs block }
  | .data abs sizeWord maxOut, block =>
    { c with dataCache := D.putOn c.dataCache (abs, sizeWord, maxOut) block }

/-- `set_meta_cache_capacity` and `set_data_cache_capacity`. -/
def setCapacity (c : Caches σ τ) : SetCapacity → Caches σ τ
  | .metaCache blocks => { c with metaCache := M.sized blocks }
  | .dataCache blocks => { c with dataCache := D.sized blocks }

/-- What the caches hold. -/
def Holds (c : Caches σ τ) : (q : Req) → q.Value → Prop
  | .block abs, block => M.HoldsOn c.metaCache abs block
  | .data abs sizeWord maxOut, block => D.HoldsOn c.dataCache (abs, sizeWord, maxOut) block

end Caches

/-- The caches as one memory of the reader's requests. -/
def cacheMemo : Memo Req Req.Value SetCapacity (Caches σ τ) where
  get c q := c.get M D q
  put c q v := c.insert M D q v
  admin c e := c.setCapacity M D e
  Holds c q v := c.Holds M D q v
  holds_of_get := by
    intro c q v h
    cases q with
    | block abs => exact BoundedMap.holdsOn_of_get h
    | data abs sizeWord maxOut => exact BoundedMap.holdsOn_of_get h
  holds_after_get := by
    intro c q q' v h
    cases q with
    | block abs =>
      cases q' with
      | block abs' => exact BoundedMap.holdsOn_after_get h
      | data => exact h
    | data abs sizeWord maxOut =>
      cases q' with
      | block abs' => exact h
      | data => exact BoundedMap.holdsOn_after_get h
  holds_after_put := by
    intro c q v q' v' h
    cases q with
    | block abs =>
      cases q' with
      | block abs' =>
        rcases BoundedMap.holdsOn_after_put h with ⟨rfl, rfl⟩ | h
        · exact .inl rfl
        · exact .inr h
      | data => exact .inr h
    | data abs sizeWord maxOut =>
      cases q' with
      | block abs' => exact .inr h
      | data abs' sizeWord' maxOut' =>
        rcases BoundedMap.holdsOn_after_put h with ⟨hk, rfl⟩ | h
        · cases hk
          exact .inl rfl
        · exact .inr h
  holds_after_admin := by
    intro c e q v h
    cases e with
    | metaCache blocks =>
      cases q with
      | block abs => exact absurd h (M.not_holdsOn_sized blocks abs v)
      | data => exact h
    | dataCache blocks =>
      cases q with
      | block abs => exact h
      | data => exact absurd h (D.not_holdsOn_sized blocks _ v)

/-- Fresh caches hold nothing. -/
theorem sound_new (f : ∀ q, Reply q) (metaBlocks dataBlocks : Nat) :
    Sound (cacheMemo M D) f (Caches.new M D metaBlocks dataBlocks) := by
  intro q v h
  cases q with
  | block abs => exact absurd h (M.not_holdsOn_sized metaBlocks abs v)
  | data => exact absurd h (D.not_holdsOn_sized dataBlocks _ v)

end Caches

end Squashfs
