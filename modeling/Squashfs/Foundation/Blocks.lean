import Mathlib.Data.Fintype.Card
import Mathlib.Data.Fintype.Prod
import Mathlib.Data.List.Basic

/-!
# Lists cut into blocks

A list stored as consecutive blocks of one size is addressed by block: the element at `p` is the
one at `p % size` of block `p / size`. That holds as far as every block before is full.

**`flatten_window`**: with the blocks before block `i` full, a window into block `i` is the same
window of the joined list; `window_of_block` finds the block of a window. A list that is cut into
blocks (`CutInto`) has as many as it takes.
-/

namespace Squashfs.Foundation

variable {α : Type}

/-- The blocks before block `i` have `size` elements each. -/
def FullBefore (size i : Nat) (blocks : List (List α)) : Prop :=
  ∀ j block, j < i → blocks[j]? = some block → block.length = size

theorem FullBefore.tail {size i : Nat} {b : List α} {blocks : List (List α)}
    (h : FullBefore size (i + 1) (b :: blocks)) : FullBefore size i blocks :=
  fun j block hj hb => h (j + 1) block (Nat.succ_lt_succ hj) hb

/-- Block `i` starts `i * size` elements into the joined list. -/
theorem flatten_drop {size i : Nat} {blocks : List (List α)} (h : FullBefore size i blocks)
    (hi : i ≤ blocks.length) : blocks.flatten.drop (i * size) = (blocks.drop i).flatten := by
  induction i generalizing blocks with
  | zero => simp
  | succ i ih =>
    cases blocks with
    | nil => simp
    | cons b blocks =>
      have hb : b.length = size := h 0 b (Nat.succ_pos i) rfl
      rw [List.flatten_cons, Nat.succ_mul, Nat.add_comm, ← List.drop_drop, ← hb, List.drop_left,
        hb, ih h.tail (Nat.le_of_succ_le_succ hi), List.drop_succ_cons]

/-- **A window into block `i`** is the same window of the joined list. -/
theorem flatten_window {size i o k : Nat} {blocks : List (List α)} {b : List α}
    (h : FullBefore size i blocks) (hb : blocks[i]? = some b) (hk : o + k ≤ b.length) :
    (blocks.flatten.drop (i * size + o)).take k = (b.drop o).take k := by
  obtain ⟨hi, hget⟩ := List.getElem?_eq_some_iff.mp hb
  rw [← List.drop_drop, flatten_drop h (Nat.le_of_lt hi), List.drop_eq_getElem_cons hi, hget,
    List.flatten_cons, List.drop_append_of_le_length (by omega), List.take_append_of_le_length]
  rw [List.length_drop]
  omega

/-- The list is cut into blocks of `size` elements, of which only the last may have fewer. -/
structure CutInto (size : Nat) (blocks : List (List α)) : Prop where
  full : ∀ j block, j + 1 < blocks.length → blocks[j]? = some block → block.length = size
  filled : ∀ block ∈ blocks, block ≠ [] ∧ block.length ≤ size

theorem CutInto.fullBefore {size i : Nat} {blocks : List (List α)} (h : CutInto size blocks)
    (hi : i < blocks.length) : FullBefore size i blocks :=
  fun j block hj hb => h.full j block (by omega) hb

/-- The last block has the elements past the blocks before it. -/
theorem length_of_last {size : Nat} {blocks : List (List α)} {last : List α}
    (h : FullBefore size (blocks.length - 1) blocks)
    (hlast : blocks[blocks.length - 1]? = some last) :
    blocks.flatten.length - (blocks.length - 1) * size = last.length := by
  obtain ⟨hlt, rfl⟩ := List.getElem?_eq_some_iff.mp hlast
  have hdrop := congrArg List.length (flatten_drop h (Nat.sub_le _ 1))
  rw [List.length_drop, List.drop_eq_getElem_cons hlt, List.drop_eq_nil_of_le (by omega),
    List.flatten_singleton] at hdrop
  exact hdrop

/-- **The blocks are as many as it takes** to hold the list. -/
theorem CutInto.count {size : Nat} {blocks : List (List α)} (h : CutInto size blocks)
    (hsize : 0 < size) : blocks.length = (blocks.flatten.length + size - 1) / size := by
  rcases Nat.eq_zero_or_pos blocks.length with hnil | hpos
  · rw [List.length_eq_zero_iff] at hnil
    subst hnil
    rw [List.flatten_nil, List.length_nil, List.length_nil, Nat.div_eq_of_lt (by omega)]
  · have hlt : blocks.length - 1 < blocks.length := Nat.sub_one_lt_of_lt hpos
    have hlast := List.getElem?_eq_getElem hlt
    have hlen := length_of_last (h.fullBefore hlt) hlast
    obtain ⟨hne, hle⟩ := h.filled _ (List.getElem_mem hlt)
    have hne := List.length_pos_of_ne_nil hne
    have hmul : (blocks.length - 1) * size + size = blocks.length * size := by
      rw [← Nat.succ_mul, Nat.succ_eq_add_one, Nat.sub_add_cancel hpos]
    have hlo : blocks.length * size ≤ blocks.flatten.length + size - 1 := by omega
    have hhi : blocks.flatten.length + size - 1 < (blocks.length + 1) * size := by
      rw [Nat.succ_mul]
      omega
    exact (Nat.div_eq_of_lt_le hlo hhi).symm

/-- **An element's window lies in its own block**, when it does not straddle two: the blocks before
the last are full, and the last holds what the joined length leaves to it. -/
theorem window_of_block {size p k : Nat} {blocks : List (List α)}
    (hfull : ∀ j block, j + 1 < blocks.length → blocks[j]? = some block → block.length = size)
    (hroom : p % size + k ≤ size) (hin : p + k ≤ blocks.flatten.length)
    (hk : p / size < blocks.length) :
    ∃ block, blocks[p / size]? = some block ∧ p % size + k ≤ block.length ∧
      (blocks.flatten.drop p).take k = (block.drop (p % size)).take k := by
  have hp : p / size * size + p % size = p := Nat.div_add_mod' p _
  have hpre : FullBefore size (p / size) blocks := fun j block hj hb =>
    hfull j block (by omega) hb
  have hblock := List.getElem?_eq_getElem hk
  have hfit : p % size + k ≤ blocks[p / size].length := by
    by_cases hlast : p / size + 1 < blocks.length
    · rw [hfull _ _ hlast hblock]
      exact hroom
    · have heq : blocks.length - 1 = p / size :=
        Nat.le_antisymm (Nat.sub_le_of_le_add (Nat.le_of_not_lt hlast)) (Nat.le_pred_of_lt hk)
      have hlen := length_of_last (by rw [heq]; exact hpre) (by rw [heq]; exact hblock)
      rw [heq] at hlen
      rw [← hlen]
      omega
  refine ⟨_, hblock, hfit, ?_⟩
  rw [← flatten_window hpre hblock hfit, hp]

/-- Block `i` of a list cut into blocks of `size` elements. -/
def chunk (size : Nat) (l : List α) (i : Nat) : List α := (l.drop (i * size)).take size

theorem chunk_length (size : Nat) (l : List α) (i : Nat) :
    (chunk size l i).length = min size (l.length - i * size) := by
  rw [chunk, List.length_take, List.length_drop]

/-- The first blocks joined are the start of the list. -/
theorem flatten_chunks (size : Nat) (l : List α) (n : Nat) :
    ((List.range n).map (chunk size l)).flatten = l.take (n * size) := by
  induction n with
  | zero => simp
  | succ n ih =>
    rw [List.range_succ, List.map_append, List.flatten_append, ih, Nat.succ_mul, List.take_add]
    simp [chunk]

/-- **The blocks joined are the list.** -/
theorem flatten_all_chunks {size : Nat} (hsize : 0 < size) (l : List α) :
    ((List.range ((l.length + size - 1) / size)).map (chunk size l)).flatten = l := by
  rw [flatten_chunks]
  refine List.take_of_length_le ?_
  have hlt := Nat.lt_div_mul_add (a := l.length + size - 1) hsize
  omega

/-- Entry `i` of a list of entries of one length is window `i` of their joined bytes. -/
theorem flatMap_window {β : Type} {size i : Nat} {enc : β → List α} {es : List β} {e : β}
    (hsize : ∀ e ∈ es, (enc e).length = size) (he : es[i]? = some e) :
    ((es.flatMap enc).drop (i * size)).take size = enc e := by
  have hb : (es.map enc)[i]? = some (enc e) := by rw [List.getElem?_map, he, Option.map_some]
  have hlen := hsize e (List.mem_of_getElem? he)
  have hfull : FullBefore size i (es.map enc) := by
    intro j block hj hblock
    obtain ⟨e', he', rfl⟩ := List.mem_map.mp (List.mem_of_getElem? hblock)
    exact hsize e' he'
  have hwindow := @flatten_window _ size i 0 size _ _ hfull hb (by omega)
  rw [Nat.add_zero] at hwindow
  rw [List.flatMap_def, hwindow, List.drop_zero, List.take_of_length_le (Nat.le_of_eq hlen)]

theorem flatMap_length {β : Type} {size : Nat} {enc : β → List α} {es : List β}
    (hsize : ∀ e ∈ es, (enc e).length = size) : (es.flatMap enc).length = es.length * size := by
  rw [List.length_flatMap, List.map_congr_left hsize, List.map_const', List.sum_replicate_nat]

/-- The next window of a list follows the one before it. -/
theorem window_append (l : List α) (i m n : Nat) :
    (l.drop i).take m ++ (l.drop (i + m)).take n = (l.drop i).take (m + n) := by
  rw [← List.drop_drop, List.take_add]

/-- `buf` with `src` in the place of its elements from `i` on. -/
def paste (buf : List α) (i : Nat) (src : List α) : List α :=
  buf.take i ++ src ++ buf.drop (i + src.length)

@[simp] theorem paste_nil (buf : List α) (i : Nat) : paste buf i [] = buf := by
  simp [paste]

theorem paste_length {buf src : List α} {i : Nat} (h : i + src.length ≤ buf.length) :
    (paste buf i src).length = buf.length := by
  simp only [paste, List.length_append, List.length_take, List.length_drop]
  omega

/-- A paste changes nothing outside its own place. -/
theorem getElem?_paste {buf src : List α} {i p : Nat} (h : i + src.length ≤ buf.length)
    (hp : p < i ∨ i + src.length ≤ p) : (paste buf i src)[p]? = buf[p]? := by
  have htake : (buf.take i ++ src).length = i + src.length := by
    rw [List.length_append, List.length_take]
    omega
  unfold paste
  rcases hp with hlt | hge
  · rw [List.getElem?_append_left (by omega), List.getElem?_append_left
      (by rw [List.length_take]; omega), List.getElem?_take_of_lt hlt]
  · rw [List.getElem?_append_right (by omega), htake, List.getElem?_drop,
      Nat.add_sub_cancel' hge]

/-- A paste into the middle of a list. -/
theorem paste_middle {a u rest src : List α} {i : Nat} (h : i + src.length ≤ u.length) :
    paste (a ++ (u ++ rest)) (a.length + i) src = a ++ (paste u i src ++ rest) := by
  unfold paste
  rw [List.take_length_add_append, Nat.add_assoc, List.drop_length_add_append,
    List.take_append_of_le_length (by omega), List.drop_append_of_le_length h]
  simp only [List.append_assoc]

theorem paste_singleton {buf : List α} {i : Nat} (h : i < buf.length) (x : α) :
    paste buf i [x] = buf.set i x := by
  rw [List.set_eq_take_append_cons_drop, if_pos h, paste, List.append_assoc]
  rfl

/-- A paste over the whole list. -/
theorem paste_all {buf src : List α} (h : src.length = buf.length) : paste buf 0 src = src := by
  rw [paste, List.take_zero, List.nil_append, Nat.zero_add, h, List.drop_length, List.append_nil]

/-- Two pastes next to each other are one. -/
theorem paste_paste {buf src src' : List α} {i : Nat} (h : i + src.length ≤ buf.length) :
    paste (paste buf i src) (i + src.length) src' = paste buf i (src ++ src') := by
  have htake : (buf.take i ++ src).length = i + src.length := by
    rw [List.length_append, List.length_take]
    omega
  unfold paste
  rw [List.take_left' htake, ← List.drop_drop, List.drop_left' htake, List.drop_drop,
    List.length_append, ← List.append_assoc, Nat.add_assoc]

/-- **Windows that do not overlap** have no more places than the list they lie in. -/
theorem windows_fit {n m T : Nat} {start len : Fin n → Nat} (hlen : ∀ i, m ≤ len i)
    (hfit : ∀ i, start i + len i ≤ T)
    (hdisj : ∀ i j, i ≠ j → start i + len i ≤ start j ∨ start j + len j ≤ start i) :
    n * m ≤ T := by
  have hin : ∀ x : Fin n × Fin m, start x.1 + x.2 < T := fun ⟨i, k⟩ => by
    have := hlen i
    have := hfit i
    have := k.isLt
    dsimp only
    omega
  have hinj : Function.Injective fun x : Fin n × Fin m => (⟨start x.1 + x.2, hin x⟩ : Fin T) := by
    rintro ⟨i, k⟩ ⟨j, l⟩ heq
    have heq : start i + k = start j + l := Fin.mk.inj heq
    have hi := hlen i
    have hj := hlen j
    have hk := k.isLt
    have hl := l.isLt
    obtain rfl : i = j := by
      by_contra hne
      have := hdisj i j hne
      omega
    have hkl : k = l := Fin.ext (by omega)
    rw [hkl]
  have hcard := Fintype.card_le_of_injective _ hinj
  rwa [Fintype.card_prod, Fintype.card_fin, Fintype.card_fin, Fintype.card_fin] at hcard

end Squashfs.Foundation
