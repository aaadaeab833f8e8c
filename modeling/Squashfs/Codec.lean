import Squashfs.Error
import Squashfs.Foundation.Metered

/-!
# The external codecs

The decoders that `src/decompress.rs` and `src/xz.rs` call live in other packages. `Codecs` takes
each as a total function of its input, with what its signature promises: a slice handed to a sink is
a real slice (at most `isizeMax` bytes), a decoder that fills a buffer writes no more than the
buffer holds, and a decoder that reads a cursor leaves it inside the input.

* A decoder that writes into a sink is a `Decoding`: the chunks it writes, in order, and whether it
  then succeeds. It stops early when the sink refuses a chunk.
* `Capped` (`decompress.rs:158-185`, and its twin `xz.rs:320-338`) is the sink the reader hands it,
  which refuses to grow past its limit. Each write is metered (`Foundation/Metered.lean`) by what
  the sink then holds, so that what is proved of the sink is proved of the sinks a block decodes
  into.

Out of scope: what a decoder computes, beyond `Codecs`, and when it flushes.
-/

namespace Squashfs

open Foundation Foundation.Metered

/-- What a decoder writing into a sink does on one input. -/
structure Decoding where
  chunks : List Bytes
  succeeds : Bool
  chunk_le : ∀ c ∈ chunks, c.length ≤ isizeMax

theorem Decoding.nil_le : ∀ c ∈ ([] : List Bytes), c.length ≤ isizeMax := nofun

/-- How a call of the zlib decoder ended. -/
inductive Status where
  | ok
  | bufError
  | streamEnd
  deriving Repr, DecidableEq

/-- The external codecs. -/
structure Codecs where
  /-- `flate2`: inflate into a buffer of the given size; the bytes produced and the status. -/
  inflate : Bytes → Nat → Option (Bytes × Status)
  /-- `lzma_rs::xz_decompress`. -/
  xz : Bytes → Decoding
  /-- `lzma_rs::lzma_decompress`. -/
  lzma : Bytes → Decoding
  /-- `lzma_rs::lzma2_decompress`, and the cursor's position afterwards. -/
  lzma2 : Bytes → Decoding × Nat
  /-- `lz4_flex::block::decompress_into` a buffer of the given size. -/
  lz4 : Bytes → Nat → Option Bytes
  /-- `ruzstd::decoding::StreamingDecoder`: the frame header, then the frame's contents. -/
  zstd : Bytes → Option Decoding
  /-- `lzo1x::decompress`. -/
  lzo : Bytes → Nat → Option Bytes
  /-- `flate2::Crc`. -/
  crc32 : Bytes → UInt32
  inflate_le : ∀ {input n out status}, inflate input n = some (out, status) → out.length ≤ n
  lz4_le : ∀ {input n out}, lz4 input n = some out → out.length ≤ n
  lzma2_position_le : ∀ input, (lzma2 input).2 ≤ input.length
  lzo_le : ∀ {input n out}, lzo input n = some out → out.length ≤ isizeMax

/-- The codecs of an image that stores everything raw: none decodes anything. -/
def Codecs.none : Codecs where
  inflate _ _ := Option.none
  xz _ := ⟨[], false, nofun⟩
  lzma _ := ⟨[], false, nofun⟩
  lzma2 _ := (⟨[], false, nofun⟩, 0)
  lz4 _ _ := Option.none
  zstd _ := Option.none
  lzo _ _ := Option.none
  crc32 _ := 0
  inflate_le := nofun
  lz4_le := nofun
  lzma2_position_le _ := Nat.zero_le _
  lzo_le := nofun

/-! ## The sink -/

/-- A sink that refuses to grow past `limit`. -/
structure Capped where
  buf : Bytes
  limit : Nat
  deriving Repr, DecidableEq

/-- `Capped::holding`: room for one byte more than `maxOut`. -/
def Capped.holding (maxOut : Nat) : Capped := ⟨[], saturatingAdd maxOut 1⟩

/-- `Capped::write`: all of `data`, or a refusal that leaves the sink as it was. -/
def Capped.write (s : Capped) (data : Bytes) : Outcome Unit Nat × Capped :=
  match add64 s.buf.length data.length with
  | .error f => (.error f, s)
  | .ok n =>
    if s.limit < n then (.error (.err ()), s)
    else (.ok data.length, { s with buf := s.buf ++ data })

/-- A decoder's writes into the sink, up to the first that is refused; the meter shows what the
sink holds after each. -/
def Capped.writeAll (s : Capped) : List Bytes → Metered Unit Capped
  | [] => return s
  | c :: cs => do
    let (written, s) := s.write c
    meter s.buf.length
    let _ ← written
    s.writeAll cs

/-- Run a decoder into the sink. -/
def Decoding.into (d : Decoding) (s : Capped) : Metered Unit Capped := do
  let s ← s.writeAll d.chunks
  if d.succeeds then return s else (.error (.err ()) : Outcome Unit Capped)

theorem Capped.write_fits {s : Capped} {data : Bytes} (h : s.buf.length + data.length ≤ s.limit)
    (hw : s.limit < wordSize) :
    s.write data = (.ok data.length, { s with buf := s.buf ++ data }) := by
  unfold Capped.write
  rw [add64_ok (by omega)]
  exact if_neg (by omega)

theorem Capped.write_refused {s : Capped} {data : Bytes}
    (h : s.limit < s.buf.length + data.length) (hw : s.buf.length + data.length < wordSize) :
    s.write data = (.error (.err ()), s) := by
  unfold Capped.write
  rw [add64_ok hw]
  exact if_pos h

/-- A write that succeeds took the whole chunk, and the sink stayed inside its limit. -/
theorem Capped.write_eq_ok {s s' : Capped} {data : Bytes} {n : Nat}
    (h : s.write data = (.ok n, s')) :
    s.buf.length + data.length ≤ s.limit ∧ s' = { s with buf := s.buf ++ data } := by
  unfold Capped.write at h
  split at h
  · cases h
  · rename_i m hm
    obtain ⟨-, rfl⟩ := add64_eq_ok.mp hm
    split at h
    · cases h
    · rename_i hle
      cases h
      exact ⟨by omega, rfl⟩

theorem Capped.write_error {s s' : Capped} {data : Bytes} {f : Fail Unit}
    (h : s.write data = (.error f, s')) : s' = s := by
  unfold Capped.write at h
  split at h
  · cases h
    rfl
  · split at h <;> cases h
    rfl

theorem Capped.result_writeAll_cons (s : Capped) (c : Bytes) (cs : List Bytes) :
    (s.writeAll (c :: cs)).result =
      (s.write c).1 >>= fun _ => ((s.write c).2.writeAll cs).result := by
  rw [Capped.writeAll]
  simp only [Metered.result_bind, Metered.result_meter, Metered.result_lift, ok_bind]

theorem Decoding.result_into (d : Decoding) (s : Capped) :
    (d.into s).result = (s.writeAll d.chunks).result >>= fun s' =>
      if d.succeeds then .ok s' else .error (.err ()) := by
  unfold Decoding.into
  simp only [Metered.result_bind, Metered.result_ite, Metered.result_pure, Metered.result_lift]

theorem Capped.writeAll_eq_ok {cs : List Bytes} {s s' : Capped}
    (h : (s.writeAll cs).result = .ok s') :
    s' = { s with buf := s.buf ++ cs.flatten } ∧
      (s.buf.length ≤ s.limit → s.buf.length + cs.flatten.length ≤ s.limit) := by
  induction cs generalizing s with
  | nil =>
    cases h
    simp
  | cons c cs ih =>
    rw [Capped.result_writeAll_cons] at h
    rcases hw : s.write c with ⟨f | n, s₁⟩
    · rw [hw] at h
      cases h
    rw [hw] at h
    obtain ⟨hle, rfl⟩ := Capped.write_eq_ok hw
    obtain ⟨rfl, hfit⟩ := ih h
    refine ⟨by simp [List.flatten_cons, List.append_assoc], fun _ => ?_⟩
    have := hfit (by rw [List.length_append]; exact hle)
    simpa [List.flatten_cons, Nat.add_assoc] using this

theorem Capped.writeAll_fits {cs : List Bytes} {s : Capped}
    (h : s.buf.length + cs.flatten.length ≤ s.limit) (hw : s.limit < wordSize) :
    (s.writeAll cs).result = .ok { s with buf := s.buf ++ cs.flatten } := by
  induction cs generalizing s with
  | nil => simp [Capped.writeAll]
  | cons c cs ih =>
    rw [List.flatten_cons, List.length_append] at h
    rw [Capped.result_writeAll_cons, Capped.write_fits (by omega) hw, ok_bind]
    have hrest := @ih { s with buf := s.buf ++ c } (by simp only [List.length_append]; omega) hw
    simp only [hrest, List.flatten_cons, List.append_assoc]

/-- **A decoder that succeeds through the sink put its whole output there**, within the limit. -/
theorem Decoding.into_eq_ok {d : Decoding} {s s' : Capped} (h : (d.into s).result = .ok s') :
    d.succeeds = true ∧ s' = { s with buf := s.buf ++ d.chunks.flatten } ∧
      (s.buf.length ≤ s.limit → s.buf.length + d.chunks.flatten.length ≤ s.limit) := by
  rw [Decoding.result_into] at h
  obtain ⟨s₁, hw, h⟩ := bind_eq_ok.mp h
  split at h
  · rename_i hs
    cases h
    obtain ⟨h1, h2⟩ := Capped.writeAll_eq_ok hw
    exact ⟨hs, h1, h2⟩
  · cases h

theorem Decoding.into_fits {d : Decoding} {s : Capped} (hd : d.succeeds = true)
    (h : s.buf.length + d.chunks.flatten.length ≤ s.limit) (hw : s.limit < wordSize) :
    (d.into s).result = .ok { s with buf := s.buf ++ d.chunks.flatten } := by
  rw [Decoding.result_into, Capped.writeAll_fits h hw, ok_bind]
  exact if_pos hd

/-! ## What the sink holds -/

/-- **A sink never holds more than its limit**, whatever is written and wherever it stops. -/
theorem Capped.below_writeAll {cs : List Bytes} {s : Capped} {n : Nat} (hs : s.buf.length ≤ s.limit)
    (hn : s.limit ≤ n) : Below n (·.buf.length ≤ s.limit) (s.writeAll cs) := by
  induction cs generalizing s with
  | nil => exact below_pure hs
  | cons c cs ih =>
    unfold Capped.writeAll
    rcases hw : s.write c with ⟨f | m, s'⟩
    · obtain rfl := Capped.write_error hw
      exact (below_meter (P := fun _ => True) (by omega) trivial).bind fun _ _ =>
        (below_lift (P := fun _ => False) nofun).bind fun _ h => h.elim
    · obtain ⟨hle, rfl⟩ := Capped.write_eq_ok hw
      have hle : (s.buf ++ c).length ≤ s.limit := by rwa [List.length_append]
      exact (below_meter (P := fun _ => True) (by dsimp only; omega) trivial).bind fun _ _ =>
        (below_lift (P := fun _ => True) fun _ _ => trivial).bind fun _ _ =>
          @ih { s with buf := s.buf ++ c } hle hn

/-- What is in the sink was there at some reading. -/
theorem Capped.covers_writeAll (cs : List Bytes) (s : Capped) :
    Covers s.buf.length (·.buf.length) (s.writeAll cs) := by
  induction cs generalizing s with
  | nil => exact covers_of_le fun s' h => by cases h; exact Nat.le_refl _
  | cons c cs ih =>
    have hread : Covers s.buf.length (fun _ => (s.write c).2.buf.length)
        (meter (s.write c).2.buf.length : Metered Unit Unit) := fun _ _ m _ hlt =>
      ⟨_, List.mem_singleton_self _, hlt⟩
    unfold Capped.writeAll
    exact hread.bind fun _ _ => Covers.bind (covers_of_le fun _ _ => Nat.le_refl _) fun _ _ =>
      ih (s.write c).2

theorem Decoding.below_into (d : Decoding) {s : Capped} {n : Nat} (hs : s.buf.length ≤ s.limit)
    (hn : s.limit ≤ n) : Below n (·.buf.length ≤ s.limit) (d.into s) :=
  (Capped.below_writeAll hs hn).bind fun _ h =>
    below_ite (fun _ => below_pure h) fun _ => below_lift nofun

theorem Decoding.covers_into (d : Decoding) (s : Capped) :
    Covers s.buf.length (·.buf.length) (d.into s) :=
  (Capped.covers_writeAll d.chunks s).bind fun s' _ =>
    covers_ite (fun _ => covers_of_le fun s'' h => by cases h; exact Nat.le_refl _)
      fun _ => covers_of_le nofun

/-! ## No write panics -/

theorem Capped.returns_writeAll {cs : List Bytes} {s : Capped}
    (hc : ∀ c ∈ cs, c.length ≤ isizeMax) (hs : s.buf.length ≤ s.limit) (hl : s.limit ≤ isizeMax) :
    Returns (s.writeAll cs).result := by
  induction cs generalizing s with
  | nil => trivial
  | cons c cs ih =>
    have hcl := hc c List.mem_cons_self
    have hsum : s.buf.length + c.length < wordSize := by
      unfold isizeMax wordSize at *
      omega
    rw [Capped.result_writeAll_cons]
    by_cases hfit : s.buf.length + c.length ≤ s.limit
    · rw [Capped.write_fits hfit (by unfold isizeMax wordSize at *; omega)]
      exact ih (fun c' hc' => hc c' (List.mem_cons_of_mem c hc'))
        (by simp only [List.length_append]; exact hfit) hl
    · rw [Capped.write_refused (by omega) hsum]
      trivial

theorem Decoding.returns_into {d : Decoding} {s : Capped} (hs : s.buf.length ≤ s.limit)
    (hl : s.limit ≤ isizeMax) : Returns (d.into s).result := by
  rw [Decoding.result_into]
  exact returns_bind (Capped.returns_writeAll d.chunk_le hs hl) fun _ _ =>
    returns_ite (fun _ => trivial) fun _ => trivial

end Squashfs
