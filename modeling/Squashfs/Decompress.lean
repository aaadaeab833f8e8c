import Squashfs.Xz.Container

/-!
# Codec dispatch

Model of `src/decompress.rs`: `Compressor` (44-93), `decompress` (99-116), and a function for each
codec (118-240). One compressor, named by the superblock, packs every block of an image;
`decompress` undoes it for one block, whose caller passes the bound on the decompressed length.
`decompressM` is the same with the readings of every sink and buffer on the way.

**`safe_decompress`**: it ends in a value or an error on every input, and the value of every codec
but LZO (whose decoder takes the bound itself) fits the bound. **`below_decompress`**,
**`covers_decompress`**: no sink holds more than one byte past the bound, and what a block
decompresses to was held by one.
-/

namespace Squashfs

open Foundation Foundation.Metered

/-- The compressors `squashfs_fs.h` numbers. -/
inductive Compressor where
  | gzip
  | lzma
  | lzo
  | xz
  | lz4
  | zstd
  deriving Repr, DecidableEq

/-- `Compressor::from_id`. -/
def Compressor.fromId (id : UInt16) : Res Compressor :=
  if id = 1 then .ok .gzip
  else if id = 2 then .ok .lzma
  else if id = 3 then .ok .lzo
  else if id = 4 then .ok .xz
  else if id = 5 then .ok .lz4
  else if id = 6 then .ok .zstd
  else fails (.unsupportedCompression id)

def Compressor.isSupported (_ : Compressor) : Bool := true

/-! ## The codecs

The meter shows how many bytes of output are held: the buffer of a decoder that fills one, what is
in the sink of one that writes into it, and what has been read of one that is read from. -/

/-- What is decoded, if it is no longer than the block. -/
def withinMax (maxOut : Nat) (out : Bytes) : Res Bytes :=
  if maxOut < out.length then fails (.badMetadata "decompressed block exceeds max size")
  else .ok out

/-- The buffer is as long as `maxOut`, and filled in one call. -/
def decompressZlib (codecs : Codecs) (input : Bytes) (maxOut : Nat) : Metered Error Bytes := do
  meter maxOut
  (match codecs.inflate input maxOut with
  | none => fails (.badMetadata "zlib decompression failed")
  | some (out, status) =>
    if status ≠ .streamEnd then fails (.badMetadata "zlib stream did not finish")
    else withinMax maxOut out : Res Bytes)

/-- A decoder run into a sink that holds one byte more than `maxOut`; `why` is the error when it
fails. -/
def decodeCapped (why : String) (d : Decoding) (maxOut : Nat) : Metered Error Bytes := do
  let sink ← (d.into (.holding maxOut)).mapErr fun () => .badMetadata why
  withinMax maxOut sink.buf

def decompressXz (codecs : Codecs) (input : Bytes) (maxOut : Nat) : Metered Error Bytes := do
  if ← Xz.hasFilters input then Xz.decompressM codecs input maxOut
  else decodeCapped "xz decompression failed" (codecs.xz input) maxOut

def decompressLzmaAlone (codecs : Codecs) (input : Bytes) (maxOut : Nat) : Metered Error Bytes :=
  decodeCapped "lzma decompression failed" (codecs.lzma input) maxOut

def decompressLz4 (codecs : Codecs) (input : Bytes) (maxOut : Nat) : Metered Error Bytes := do
  meter maxOut
  (match codecs.lz4 input maxOut with
  | some out => .ok out
  | none => fails (.badMetadata "lz4 decompression failed") : Res Bytes)

/-- `read_to_end` from a decoder cut off at `n` bytes: chunk after chunk, and past those bytes the
decoder is not asked again. -/
def readToEnd (succeeds : Bool) (n : Nat) (out : Bytes) : List Bytes → Metered Unit Bytes
  | [] => (if n ≤ out.length ∨ succeeds then .ok out else .error (.err ()) : Outcome Unit Bytes)
  | c :: cs =>
    if n ≤ out.length then return out
    else do
      let out := out ++ c.take (n - out.length)
      meter out.length
      readToEnd succeeds n out cs

/-- `dec.take(n).read_to_end(..)`. -/
def Decoding.takeToEnd (d : Decoding) (n : Nat) : Metered Unit Bytes :=
  readToEnd d.succeeds n [] d.chunks

def decompressZstd (codecs : Codecs) (input : Bytes) (maxOut : Nat) : Metered Error Bytes :=
  match codecs.zstd input with
  | none => (fails (.badMetadata "zstd frame decode init failed") : Res Bytes)
  | some dec => do
    let out ← (dec.takeToEnd (saturatingAdd maxOut 1)).mapErr
      fun () => .badMetadata "zstd decompression failed"
    withinMax maxOut out

/-- The output is the decoder's own. -/
def decompressLzo (codecs : Codecs) (input : Bytes) (maxOut : Nat) : Metered Error Bytes :=
  (match codecs.lzo input maxOut with
  | some out => .ok out
  | none => fails (.badMetadata "malformed LZO1X stream") : Res Bytes)

/-- Decompress one block; `maxOut` is the upper bound on its decompressed length. -/
def decompressM (codecs : Codecs) (comp : Compressor) (input : Bytes) (maxOut : Nat) :
    Metered Error Bytes :=
  match comp with
  | .gzip => decompressZlib codecs input maxOut
  | .xz => decompressXz codecs input maxOut
  | .lzma => decompressLzmaAlone codecs input maxOut
  | .lz4 => decompressLz4 codecs input maxOut
  | .zstd => decompressZstd codecs input maxOut
  | .lzo => decompressLzo codecs input maxOut

/-- `decompress`, without the meter. -/
def decompress (codecs : Codecs) (comp : Compressor) (input : Bytes) (maxOut : Nat) : Res Bytes :=
  (decompressM codecs comp input maxOut).result

theorem result_decompressZlib (codecs : Codecs) (input : Bytes) (maxOut : Nat) :
    (decompressZlib codecs input maxOut).result =
      match codecs.inflate input maxOut with
      | none => fails (.badMetadata "zlib decompression failed")
      | some (out, status) =>
        if status ≠ .streamEnd then fails (.badMetadata "zlib stream did not finish")
        else withinMax maxOut out := rfl

theorem result_decompressLz4 (codecs : Codecs) (input : Bytes) (maxOut : Nat) :
    (decompressLz4 codecs input maxOut).result =
      match codecs.lz4 input maxOut with
      | some out => .ok out
      | none => fails (.badMetadata "lz4 decompression failed") := rfl

theorem result_decompressLzo (codecs : Codecs) (input : Bytes) (maxOut : Nat) :
    (decompressLzo codecs input maxOut).result =
      match codecs.lzo input maxOut with
      | some out => .ok out
      | none => fails (.badMetadata "malformed LZO1X stream") := rfl

theorem result_decodeCapped (why : String) (d : Decoding) (maxOut : Nat) :
    (decodeCapped why d maxOut).result =
      mapErr (fun () => .badMetadata why) (d.into (.holding maxOut)).result >>= fun sink =>
        withinMax maxOut sink.buf := by
  unfold decodeCapped
  rw [result_bind]
  rfl

theorem result_decompressXz (codecs : Codecs) (input : Bytes) (maxOut : Nat) :
    (decompressXz codecs input maxOut).result = Xz.hasFilters input >>= fun filtered =>
      if filtered then Xz.decompress codecs input maxOut
      else (decodeCapped "xz decompression failed" (codecs.xz input) maxOut).result := by
  unfold decompressXz
  rw [result_bind]
  refine bind_congr fun filtered => ?_
  cases filtered <;> rfl

theorem result_decompressZstd (codecs : Codecs) (input : Bytes) (maxOut : Nat) :
    (decompressZstd codecs input maxOut).result =
      match codecs.zstd input with
      | none => fails (.badMetadata "zstd frame decode init failed")
      | some dec =>
        mapErr (fun () => .badMetadata "zstd decompression failed")
          (dec.takeToEnd (saturatingAdd maxOut 1)).result >>= withinMax maxOut := by
  unfold decompressZstd
  cases codecs.zstd input with
  | none => rfl
  | some dec => exact result_bind _ _

/-- **Reading up to a limit** gives the first `n` bytes, or all of them when there are fewer and the
decoder does not fail. -/
theorem result_readToEnd {succeeds : Bool} {n : Nat} {out : Bytes} (h : out.length ≤ n)
    (cs : List Bytes) :
    (readToEnd succeeds n out cs).result =
      if n ≤ (out ++ cs.flatten).length ∨ succeeds then .ok ((out ++ cs.flatten).take n)
      else .error (.err ()) := by
  induction cs generalizing out with
  | nil =>
    rw [List.flatten_nil, List.append_nil, List.take_of_length_le h]
    rfl
  | cons c cs ih =>
    unfold readToEnd
    by_cases hfull : n ≤ out.length
    · have hlen : out.length = n := Nat.le_antisymm h hfull
      rw [if_pos hfull, if_pos (.inl (by rw [List.length_append]; omega)), List.take_left' hlen]
      rfl
    · rw [if_neg hfull]
      show (readToEnd succeeds n (out ++ c.take (n - out.length)) cs).result = _
      rw [ih (by rw [List.length_append, List.length_take]; omega), List.flatten_cons]
      by_cases hshort : c.length ≤ n - out.length
      · rw [List.take_of_length_le hshort, List.append_assoc]
      · have hcut : (out ++ c.take (n - out.length)).length = n := by
          rw [List.length_append, List.length_take]
          omega
        rw [if_pos (.inl (by rw [List.length_append, hcut]; omega)), List.take_left' hcut,
          if_pos (.inl (by rw [List.length_append, List.length_append]; omega)),
          List.take_append, List.take_of_length_le h, List.take_append_of_le_length (by omega)]

theorem Decoding.result_takeToEnd (d : Decoding) (n : Nat) :
    (d.takeToEnd n).result =
      if n ≤ d.chunks.flatten.length ∨ d.succeeds then .ok (d.chunks.flatten.take n)
      else .error (.err ()) := result_readToEnd (Nat.zero_le n) d.chunks

theorem returns_compressorFromId (id : UInt16) : Returns (Compressor.fromId id) := by
  unfold Compressor.fromId
  repeat' split
  all_goals trivial

theorem safe_withinMax {maxOut : Nat} (out : Bytes) :
    Safe (·.length ≤ maxOut) (withinMax maxOut out) :=
  safe_ite (fun _ => trivial) fun h => Nat.le_of_not_lt h

theorem safe_decodeCapped {why : String} {d : Decoding} {maxOut : Nat} (hmax : maxOut < isizeMax) :
    Safe (·.length ≤ maxOut) (decodeCapped why d maxOut).result := by
  have hlimit : saturatingAdd maxOut 1 ≤ isizeMax := by
    rw [saturatingAdd_eq (by unfold isizeMax wordSize at *; omega)]
    omega
  have hret : Returns (d.into (.holding maxOut)).result :=
    d.returns_into (Nat.zero_le _) hlimit
  rw [result_decodeCapped]
  exact safe_bind (((returns_mapErr.mpr hret)).safe (P := fun _ => True) fun _ _ => trivial)
    fun _ _ => safe_withinMax _

/-- **A block's decompression returns**, and every codec but LZO keeps to the bound. -/
theorem safe_decompress (codecs : Codecs) (comp : Compressor) {input : Bytes} {maxOut : Nat}
    (hin : input.length ≤ isizeMax) (hmax : maxOut < isizeMax) :
    Safe (fun out => out.length ≤ isizeMax ∧ (comp ≠ .lzo → out.length ≤ maxOut))
      (decompress codecs comp input maxOut) := by
  have hbound : ∀ {x : Res Bytes}, Safe (·.length ≤ maxOut) x →
      Safe (fun out => out.length ≤ isizeMax ∧ (comp ≠ .lzo → out.length ≤ maxOut)) x :=
    fun h => h.mono fun out hout => ⟨by omega, fun _ => hout⟩
  cases comp with
  | gzip =>
    refine hbound ?_
    show Safe _ (decompressZlib codecs input maxOut).result
    rw [result_decompressZlib]
    split
    · trivial
    · exact safe_ite (fun _ => trivial) fun _ => safe_withinMax _
  | lzma => exact hbound (safe_decodeCapped hmax)
  | lzo =>
    show Safe _ (decompressLzo codecs input maxOut).result
    rw [result_decompressLzo]
    split
    · rename_i out hout
      exact ⟨codecs.lzo_le hout, fun h => absurd rfl h⟩
    · trivial
  | xz =>
    refine hbound ?_
    show Safe _ (decompressXz codecs input maxOut).result
    rw [result_decompressXz]
    refine safe_bind ((Xz.returns_hasFilters input).safe (P := fun _ => True) fun _ _ => trivial)
      fun filtered _ => safe_ite (fun _ => ?_) fun _ => ?_
    · exact Xz.safe_decompress codecs hin hmax
    · exact safe_decodeCapped hmax
  | lz4 =>
    refine hbound ?_
    show Safe _ (decompressLz4 codecs input maxOut).result
    rw [result_decompressLz4]
    split
    · rename_i out hout
      exact codecs.lz4_le hout
    · trivial
  | zstd =>
    refine hbound ?_
    show Safe _ (decompressZstd codecs input maxOut).result
    rw [result_decompressZstd]
    split
    · trivial
    · rename_i dec hdec
      have hread : Returns (mapErr (fun () => Error.badMetadata "zstd decompression failed")
          (dec.takeToEnd (saturatingAdd maxOut 1)).result) := by
        rw [Decoding.result_takeToEnd]
        exact returns_mapErr.mpr (returns_ite (fun _ => trivial) fun _ => trivial)
      exact safe_bind (hread.safe (P := fun _ => True) fun _ _ => trivial) fun _ _ =>
        safe_withinMax _

/-! ## What is held -/

section Held

variable {codecs : Codecs} {comp : Compressor} {input out : Bytes} {maxOut : Nat} {why : String}
  {d : Decoding} {succeeds : Bool} {n : Nat}

theorem below_withinMax : Below n (fun _ => True)
    (liftM (withinMax maxOut out) : Metered Error Bytes) := below_lift fun _ _ => trivial

theorem covers_withinMax :
    Covers out.length (·.length) (liftM (withinMax maxOut out) : Metered Error Bytes) := by
  refine covers_of_le fun out' h => ?_
  change withinMax maxOut out = .ok out' at h
  unfold withinMax at h
  split at h
  · cases h
  · cases h
    exact Nat.le_refl _

/-- The sink holds one byte more than `maxOut` at most. -/
theorem below_decodeCapped :
    Below (maxOut + 1) (fun _ => True) (decodeCapped why d maxOut) := by
  have hlimit : (Capped.holding maxOut).limit ≤ maxOut + 1 := Nat.min_le_left _ _
  exact (d.below_into (Nat.zero_le _) hlimit).mapErr.bind fun _ _ => below_withinMax

theorem covers_decodeCapped : Covers 0 (·.length) (decodeCapped why d maxOut) :=
  (d.covers_into (.holding maxOut)).mapErr.bind fun _ _ => covers_withinMax

theorem below_readToEnd (h : out.length ≤ n) (cs : List Bytes) :
    Below n (fun _ => True) (readToEnd succeeds n out cs) := by
  induction cs generalizing out with
  | nil => exact below_lift fun _ _ => trivial
  | cons c cs ih =>
    have hnext : (out ++ c.take (n - out.length)).length ≤ n := by
      rw [List.length_append, List.length_take]
      omega
    exact below_ite (fun _ => below_pure trivial) fun _ =>
      (below_meter (P := fun _ => True) hnext trivial).bind fun _ _ => ih hnext

theorem covers_readToEnd (out : Bytes) (cs : List Bytes) :
    Covers out.length (·.length) (readToEnd succeeds n out cs) := by
  induction cs generalizing out with
  | nil =>
    refine covers_of_le fun out' h => ?_
    change (if _ then _ else _) = _ at h
    split at h <;> cases h
    exact Nat.le_refl _
  | cons c cs ih =>
    refine covers_ite (fun _ => covers_of_le fun out' h => ?_) fun _ => ?_
    · cases h
      exact Nat.le_refl _
    have hread : Covers out.length (fun _ => (out ++ c.take (n - out.length)).length)
        (meter (out ++ c.take (n - out.length)).length : Metered Unit Unit) :=
      fun _ _ m _ hlt => ⟨_, List.mem_singleton_self _, hlt⟩
    exact hread.bind fun _ _ => ih _

/-- **Whatever the codec**, what is held of a block is one byte past the bound at most. -/
theorem below_decompress (codecs : Codecs) (comp : Compressor) (input : Bytes)
    (hmax : maxOut < isizeMax) :
    Below (maxOut + 1) (fun _ => True) (decompressM codecs comp input maxOut) := by
  have hlift : ∀ {α : Type} (x : Res α), Below (maxOut + 1) (fun _ => True)
      (liftM x : Metered Error α) := fun x => below_lift fun _ _ => trivial
  have hbuffer : Below (maxOut + 1) (fun _ => True) (meter maxOut : Metered Error Unit) :=
    below_meter (Nat.le_succ maxOut) trivial
  cases comp with
  | gzip => exact hbuffer.bind fun _ _ => hlift _
  | xz =>
    exact (hlift _).bind fun _ _ => below_ite
      (fun _ => (Xz.below_decompress codecs input hmax).mono fun _ _ => trivial)
      fun _ => below_decodeCapped
  | lzma => exact below_decodeCapped
  | lz4 => exact hbuffer.bind fun _ _ => hlift _
  | zstd =>
    show Below _ _ (decompressZstd codecs input maxOut)
    unfold decompressZstd
    cases codecs.zstd input with
    | none => exact hlift _
    | some dec =>
      have hlimit : saturatingAdd maxOut 1 = maxOut + 1 :=
        saturatingAdd_eq (by unfold isizeMax wordSize at *; omega)
      have hread : Below (maxOut + 1) (fun _ => True)
          (dec.takeToEnd (saturatingAdd maxOut 1)) := by
        rw [hlimit]
        exact below_readToEnd (Nat.zero_le _) dec.chunks
      exact hread.mapErr.bind fun _ _ => below_withinMax
  | lzo => exact hlift _

/-- Every byte that is given was held at some reading. -/
theorem covers_decompress (codecs : Codecs) (input : Bytes) (maxOut : Nat) (hcomp : comp ≠ .lzo) :
    Covers 0 (·.length) (decompressM codecs comp input maxOut) := by
  have hbuffer : Covers 0 (fun _ => maxOut) (meter maxOut : Metered Error Unit) :=
    fun _ _ m _ hlt => ⟨_, List.mem_singleton_self _, hlt⟩
  cases comp with
  | gzip =>
    refine hbuffer.bind fun _ _ => covers_of_le fun out h => ?_
    have h : (decompressZlib codecs input maxOut).result = .ok out := h
    rw [result_decompressZlib] at h
    split at h
    · cases h
    · split at h
      · cases h
      · exact (safe_withinMax _).of_eq h
  | xz =>
    have hlift : Covers 0 (fun _ => 0) (liftM (Xz.hasFilters input) : Metered Error Bool) :=
      covers_of_le fun _ _ => Nat.le_refl _
    exact hlift.bind fun _ _ => covers_ite (fun _ => Xz.covers_decompress codecs input maxOut)
      fun _ => covers_decodeCapped
  | lzma => exact covers_decodeCapped
  | lz4 =>
    refine hbuffer.bind fun _ _ => covers_of_le fun out h => ?_
    have h : (decompressLz4 codecs input maxOut).result = .ok out := h
    rw [result_decompressLz4] at h
    split at h
    · rename_i out' hfilled
      cases h
      exact codecs.lz4_le hfilled
    · cases h
  | zstd =>
    show Covers _ _ (decompressZstd codecs input maxOut)
    unfold decompressZstd
    cases codecs.zstd input with
    | none => exact covers_of_le nofun
    | some dec =>
      exact (covers_readToEnd [] dec.chunks).mapErr.bind fun _ _ => covers_withinMax
  | lzo => exact absurd rfl hcomp

end Held

end Squashfs
