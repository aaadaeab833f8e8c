import Mathlib.Tactic.Ring
import Squashfs.Foundation.BitField
import Squashfs.Foundation.Blocks

/-!
# Relocating branch targets

A `BranchCode` says which words of a code carry an address, where it is, and how another takes its
place; the bits that decide which words do are not among the address's. To `move` a word is to
apply a map to the address of a branch and to leave other words alone. A map that another undoes
gives moves that undo each other (`move_move`), one code after another as long as they keep apart
(`moves_moves`).

`mapUnits` runs a map over a list in units of one length; what holds of the map's units holds of the
list (`mapUnits_mapUnits`, `mapUnits_unit`).
-/

namespace Squashfs.Foundation

/-! ## Words with an address -/

/-- A field, and the values of it that a branch may have. -/
structure Pattern where
  lo : Nat
  len : Nat
  allows : Nat → Bool

/-- Whether every field of the pattern has a value it may have. -/
def follows (pattern : List Pattern) (x : Nat) : Bool :=
  pattern.all fun p => p.allows (field x p.lo p.len)

/-- A code whose branches carry an address of `width` bits. -/
structure BranchCode where
  width : Nat
  pattern : List Pattern
  address : Nat → Nat
  withAddress : Nat → Nat → Nat
  /-- The bits of the address. -/
  addressBit : Nat → Bool
  address_lt : ∀ x, address x < 2 ^ width
  follows_with : ∀ x v, follows pattern x = true → follows pattern (withAddress x v) = true
  address_with : ∀ x v, v < 2 ^ width → address (withAddress x v) = v
  with_with : ∀ x v w, withAddress (withAddress x v) w = withAddress x w
  with_address : ∀ x, follows pattern x = true → withAddress x (address x) = x
  testBit_with : ∀ x v i, addressBit i = false → (withAddress x v).testBit i = x.testBit i

namespace BranchCode

/-- Whether a word is a branch. -/
def isBranch (c : BranchCode) (x : Nat) : Bool := follows c.pattern x

/-- The bits that decide whether a word is a branch. -/
def patternBit (c : BranchCode) (i : Nat) : Bool :=
  c.pattern.any fun p => decide (p.lo ≤ i) && decide (i < p.lo + p.len)

/-- Words with the same pattern bits are branches together. -/
theorem isBranch_congr {c : BranchCode} {x y : Nat}
    (h : ∀ i, c.patternBit i = true → x.testBit i = y.testBit i) : c.isBranch x = c.isBranch y := by
  have hfield : ∀ p ∈ c.pattern, field x p.lo p.len = field y p.lo p.len := by
    intro p hp
    refine Nat.eq_of_testBit_eq fun i => ?_
    rw [testBit_field, testBit_field]
    by_cases hi : i < p.len
    · have hbit : c.patternBit (p.lo + i) = true := List.any_eq_true.mpr
        ⟨p, hp, by rw [decide_eq_true (by omega), decide_eq_true (by omega), Bool.true_and]⟩
      rw [h _ hbit]
    · rw [decide_eq_false hi, Bool.false_and, Bool.false_and]
  rw [Bool.eq_iff_iff, isBranch, isBranch, follows, follows, List.all_eq_true, List.all_eq_true]
  exact forall₂_congr fun p hp => by rw [hfield p hp]

theorem isBranch_with (c : BranchCode) {x : Nat} (v : Nat) (h : c.isBranch x = true) :
    c.isBranch (c.withAddress x v) = true := c.follows_with x v h

/-- A word keeps its size when the address lies in it. -/
theorem withAddress_lt {c : BranchCode} {x n : Nat} (v : Nat)
    (hc : ∀ i, c.addressBit i = true → i < n) (hx : x < 2 ^ n) : c.withAddress x v < 2 ^ n := by
  refine Nat.lt_pow_two_of_testBit _ fun i hi => ?_
  have hbit : c.addressBit i = false := by
    rw [← Bool.not_eq_true]
    exact fun h => absurd (hc i h) (by omega)
  rw [c.testBit_with x v i hbit]
  exact Nat.testBit_lt_two_pow (Nat.lt_of_lt_of_le hx (Nat.pow_le_pow_right (by decide) hi))

/-- The word with its address mapped, if it is a branch. -/
def move (c : BranchCode) (r : Nat → Nat) (x : Nat) : Nat :=
  if c.isBranch x then c.withAddress x (r (c.address x)) else x

variable {c d : BranchCode} {r r' : Nat → Nat} {x : Nat}

theorem isBranch_move : c.isBranch (c.move r x) = c.isBranch x := by
  unfold move
  split
  · rename_i h
    rw [c.isBranch_with _ h, h]
  · rfl

/-- **A move is undone** by a map that undoes its map. -/
theorem move_move (hr : ∀ a < 2 ^ c.width, r a < 2 ^ c.width)
    (hundo : ∀ a < 2 ^ c.width, r' (r a) = a) : c.move r' (c.move r x) = x := by
  unfold move
  by_cases h : c.isBranch x = true
  · have ha := c.address_lt x
    rw [if_pos h, if_pos (c.isBranch_with _ h), c.address_with x _ (hr _ ha), hundo _ ha,
      c.with_with, c.with_address x h]
  · rw [if_neg h, if_neg h]

/-- A move changes address bits of branches only. -/
theorem testBit_move {i : Nat} (h : (c.move r x).testBit i ≠ x.testBit i) :
    c.isBranch x = true ∧ c.addressBit i = true := by
  unfold move at h
  split at h
  · rename_i hbranch
    refine ⟨hbranch, ?_⟩
    by_contra hbit
    rw [Bool.not_eq_true] at hbit
    exact h (c.testBit_with x _ i hbit)
  · exact absurd rfl h

/-- Two codes in one word that do not see each other. -/
structure Apart (c d : BranchCode) : Prop where
  isBranch : ∀ x v, d.isBranch (c.withAddress x v) = d.isBranch x
  address : ∀ x v, d.address (c.withAddress x v) = d.address x
  isBranch' : ∀ x v, c.isBranch (d.withAddress x v) = c.isBranch x
  address' : ∀ x v, c.address (d.withAddress x v) = c.address x
  comm : ∀ x v w, d.withAddress (c.withAddress x v) w = c.withAddress (d.withAddress x w) v

theorem Apart.isBranch_move (h : Apart c d) : d.isBranch (c.move r x) = d.isBranch x := by
  unfold move
  split
  · exact h.isBranch _ _
  · rfl

theorem Apart.isBranch_move' (h : Apart c d) : c.isBranch (d.move r x) = c.isBranch x := by
  unfold move
  split
  · exact h.isBranch' _ _
  · rfl

theorem Apart.move_comm (h : Apart c d) : d.move r' (c.move r x) = c.move r (d.move r' x) := by
  unfold move
  by_cases hc : c.isBranch x = true
  · by_cases hd : d.isBranch x = true
    · rw [if_pos hc, if_pos hd, h.isBranch, if_pos hd, h.isBranch', if_pos hc, h.address,
        h.address', h.comm]
    · rw [if_pos hc, if_neg hd, h.isBranch, if_neg hd, if_pos hc]
  · by_cases hd : d.isBranch x = true
    · rw [if_neg hc, if_pos hd, h.isBranch', if_neg hc]
    · rw [if_neg hc, if_neg hd, if_neg hc]

/-- The words of several codes, moved one code after the other. -/
def moves (cs : List BranchCode) (r : Nat → Nat) (x : Nat) : Nat :=
  cs.foldl (fun x c => c.move r x) x

theorem moves_cons (c : BranchCode) (cs : List BranchCode) (r : Nat → Nat) (x : Nat) :
    moves (c :: cs) r x = moves cs r (c.move r x) := rfl

theorem move_lt {n : Nat} (hc : ∀ i, c.addressBit i = true → i < n) (hx : x < 2 ^ n) :
    c.move r x < 2 ^ n := by
  unfold move
  split
  · exact withAddress_lt _ hc hx
  · exact hx

theorem moves_lt {cs : List BranchCode} {n : Nat}
    (hcs : ∀ c ∈ cs, ∀ i, c.addressBit i = true → i < n) (hx : x < 2 ^ n) :
    moves cs r x < 2 ^ n := by
  induction cs generalizing x with
  | nil => exact hx
  | cons c cs ih =>
    obtain ⟨hc, hcs⟩ := List.forall_mem_cons.mp hcs
    rw [moves_cons]
    exact ih hcs (move_lt hc hx)

/-- A word that is no branch stays. -/
theorem moves_of_not {cs : List BranchCode} (h : ∀ c ∈ cs, c.isBranch x = false) :
    moves cs r x = x := by
  induction cs with
  | nil => rfl
  | cons c cs ih =>
    obtain ⟨hc, hcs⟩ := List.forall_mem_cons.mp h
    rw [moves_cons, move, if_neg (by rw [hc]; decide), ih hcs]

/-- A code that keeps apart from the others can be moved first or last. -/
theorem moves_move {cs : List BranchCode} (h : ∀ d ∈ cs, Apart c d) :
    moves cs r (c.move r' x) = c.move r' (moves cs r x) := by
  induction cs generalizing x with
  | nil => rfl
  | cons d cs ih =>
    obtain ⟨hd, hcs⟩ := List.forall_mem_cons.mp h
    rw [moves_cons, hd.move_comm, ih hcs, moves_cons]

theorem isBranch_moves {cs : List BranchCode} (h : ∀ d ∈ cs, Apart c d) :
    c.isBranch (moves cs r x) = c.isBranch x := by
  induction cs generalizing x with
  | nil => rfl
  | cons d cs ih =>
    obtain ⟨hd, hcs⟩ := List.forall_mem_cons.mp h
    rw [moves_cons, ih hcs, hd.isBranch_move']

/-- **Moves are undone** one code after the other. -/
theorem moves_moves {cs : List BranchCode} (hcs : cs.Pairwise Apart)
    (hr : ∀ c ∈ cs, ∀ a < 2 ^ c.width, r a < 2 ^ c.width)
    (hundo : ∀ c ∈ cs, ∀ a < 2 ^ c.width, r' (r a) = a) :
    moves cs r' (moves cs r x) = x := by
  induction cs generalizing x with
  | nil => rfl
  | cons c cs ih =>
    obtain ⟨hapart, hcs⟩ := List.pairwise_cons.mp hcs
    obtain ⟨hrc, hrs⟩ := List.forall_mem_cons.mp hr
    obtain ⟨huc, hus⟩ := List.forall_mem_cons.mp hundo
    rw [moves_cons, moves_cons, moves_move hapart, moves_move hapart, moves_move hapart,
      move_move hrc huc, ih hcs hrs hus]

theorem isBranch_moves_mem {cs : List BranchCode} (hcs : cs.Pairwise Apart) (hc : c ∈ cs) :
    c.isBranch (moves cs r x) = c.isBranch x := by
  induction cs generalizing x with
  | nil => cases hc
  | cons d cs ih =>
    obtain ⟨hapart, hcs⟩ := List.pairwise_cons.mp hcs
    rw [moves_cons]
    rcases List.mem_cons.mp hc with rfl | hc
    · rw [isBranch_moves hapart, isBranch_move]
    · rw [ih hcs hc, (hapart c hc).isBranch_move]

/-- Only address bits of branches change. -/
theorem testBit_moves {cs : List BranchCode} (hcs : cs.Pairwise Apart) {i : Nat}
    (h : (moves cs r x).testBit i ≠ x.testBit i) :
    ∃ c ∈ cs, c.isBranch x = true ∧ c.addressBit i = true := by
  induction cs generalizing x with
  | nil => exact absurd rfl h
  | cons c cs ih =>
    obtain ⟨hapart, hcs⟩ := List.pairwise_cons.mp hcs
    rw [moves_cons] at h
    by_cases hfirst : (c.move r x).testBit i = x.testBit i
    · rw [← hfirst] at h
      obtain ⟨d, hd, hbranch, hbit⟩ := ih hcs h
      rw [(hapart d hd).isBranch_move] at hbranch
      exact ⟨d, List.mem_cons_of_mem c hd, hbranch, hbit⟩
    · obtain ⟨hbranch, hbit⟩ := testBit_move hfirst
      exact ⟨c, List.mem_cons_self, hbranch, hbit⟩

/-! ### An address in two fields -/

/-- Two ranges of bits that do not meet. -/
def Away (lo len lo' len' : Nat) : Prop := lo' + len' ≤ lo ∨ lo + len ≤ lo'

/-- Where an address in two fields is, the low bits first, and the pattern around it. -/
structure Split where
  lo : Nat
  len : Nat
  hi : Nat
  hiLen : Nat
  pattern : List Pattern
  away : Away lo len hi hiLen
  around : ∀ p ∈ pattern, Away lo len p.lo p.len ∧ Away hi hiLen p.lo p.len

namespace Split

def address (s : Split) (x : Nat) : Nat :=
  field x s.lo s.len + 2 ^ s.len * field x s.hi s.hiLen

def withAddress (s : Split) (x v : Nat) : Nat :=
  setField (setField x s.lo s.len v) s.hi s.hiLen (v / 2 ^ s.len)

/-- What is away from both fields does not see the address. -/
theorem field_with {s : Split} {lo len : Nat} (hlo : Away s.lo s.len lo len)
    (hhi : Away s.hi s.hiLen lo len) (x v : Nat) :
    field (s.withAddress x v) lo len = field x lo len := by
  rw [withAddress, field_setField_apart hhi, field_setField_apart hlo]

theorem address_lt (s : Split) (x : Nat) : s.address x < 2 ^ (s.len + s.hiLen) := by
  have hlow := field_lt x s.lo s.len
  have hhigh := field_lt x s.hi s.hiLen
  calc s.address x < 2 ^ s.len + 2 ^ s.len * field x s.hi s.hiLen := Nat.add_lt_add_right hlow _
    _ = 2 ^ s.len * (field x s.hi s.hiLen + 1) := by ring
    _ ≤ 2 ^ s.len * 2 ^ s.hiLen := Nat.mul_le_mul_left _ hhigh
    _ = 2 ^ (s.len + s.hiLen) := (Nat.pow_add 2 s.len s.hiLen).symm

theorem follows_with (s : Split) (x v : Nat) (h : follows s.pattern x = true) :
    follows s.pattern (s.withAddress x v) = true := by
  rw [follows, List.all_eq_true] at h ⊢
  intro p hp
  obtain ⟨hlo, hhi⟩ := s.around p hp
  rw [field_with hlo hhi]
  exact h p hp

theorem address_with (s : Split) (x v : Nat) (hv : v < 2 ^ (s.len + s.hiLen)) :
    s.address (s.withAddress x v) = v := by
  have hhigh : v / 2 ^ s.len < 2 ^ s.hiLen :=
    Nat.div_lt_of_lt_mul (by rw [← Nat.pow_add]; exact hv)
  rw [address, withAddress, field_setField_apart s.away.symm, field_setField, field_setField,
    Nat.mod_eq_of_lt hhigh, Nat.mod_add_div]

theorem with_with (s : Split) (x v w : Nat) :
    s.withAddress (s.withAddress x v) w = s.withAddress x w := by
  rw [withAddress, withAddress, withAddress, setField_comm s.away.symm, setField_setField,
    setField_setField]

/-- Only the bits of an address count. -/
theorem withAddress_mod (s : Split) (x v : Nat) :
    s.withAddress x (v % 2 ^ (s.len + s.hiLen)) = s.withAddress x v := by
  have hlow : v % 2 ^ (s.len + s.hiLen) % 2 ^ s.len = v % 2 ^ s.len := by
    rw [Nat.pow_add, Nat.mod_mul_right_mod]
  have hhigh : v % 2 ^ (s.len + s.hiLen) / 2 ^ s.len = v / 2 ^ s.len % 2 ^ s.hiLen := by
    rw [Nat.pow_add, Nat.mod_mul_right_div_self]
  rw [withAddress, withAddress, hhigh, setField_mod, ← setField_mod x, hlow, setField_mod]

theorem with_address (s : Split) (x : Nat) : s.withAddress x (s.address x) = x := by
  have hlow : s.address x % 2 ^ s.len = field x s.lo s.len := by
    rw [address, Nat.add_mul_mod_self_left, Nat.mod_eq_of_lt (field_lt _ _ _)]
  have hhigh : s.address x / 2 ^ s.len = field x s.hi s.hiLen := by
    rw [address, Nat.add_mul_div_left _ _ (Nat.two_pow_pos s.len), Nat.div_eq_of_lt (field_lt _ _ _),
      Nat.zero_add]
  rw [withAddress, hhigh, ← setField_mod x, hlow, setField_field, setField_field]

def addressBit (s : Split) (i : Nat) : Bool :=
  decide (s.lo ≤ i ∧ i < s.lo + s.len) || decide (s.hi ≤ i ∧ i < s.hi + s.hiLen)

theorem testBit_with (s : Split) (x v i : Nat) (h : s.addressBit i = false) :
    (s.withAddress x v).testBit i = x.testBit i := by
  obtain ⟨hlo, hhi⟩ := Bool.or_eq_false_iff.mp h
  have hlo := of_decide_eq_false hlo
  have hhi := of_decide_eq_false hhi
  rw [withAddress, testBit_setField_outside (by omega), testBit_setField_outside (by omega)]

/-- The code of branches whose address is so split. -/
def code (s : Split) : BranchCode where
  width := s.len + s.hiLen
  pattern := s.pattern
  address := s.address
  withAddress := s.withAddress
  addressBit := s.addressBit
  address_lt := s.address_lt
  follows_with := s.follows_with
  address_with := s.address_with
  with_with := s.with_with
  with_address x _ := s.with_address x
  testBit_with := s.testBit_with

/-- Nothing of `t` lies in the address of `s`. -/
structure Clear (s t : Split) : Prop where
  lo : Away s.lo s.len t.lo t.len ∧ Away s.hi s.hiLen t.lo t.len
  hi : Away s.lo s.len t.hi t.hiLen ∧ Away s.hi s.hiLen t.hi t.hiLen
  pattern : ∀ p ∈ t.pattern, Away s.lo s.len p.lo p.len ∧ Away s.hi s.hiLen p.lo p.len

theorem Clear.isBranch {s t : Split} (h : Clear s t) (x v : Nat) :
    t.code.isBranch (s.withAddress x v) = t.code.isBranch x := by
  have hsame : ∀ p ∈ t.pattern, field (s.withAddress x v) p.lo p.len = field x p.lo p.len :=
    fun p hp => field_with (h.pattern p hp).1 (h.pattern p hp).2 x v
  show follows t.pattern _ = follows t.pattern _
  rw [Bool.eq_iff_iff, follows, follows, List.all_eq_true, List.all_eq_true]
  exact forall₂_congr fun p hp => by rw [hsame p hp]

theorem Clear.address {s t : Split} (h : Clear s t) (x v : Nat) :
    t.address (s.withAddress x v) = t.address x := by
  rw [Split.address, Split.address, field_with h.lo.1 h.lo.2, field_with h.hi.1 h.hi.2]

/-- Codes that keep clear of each other are apart. -/
theorem apart {s t : Split} (h : Clear s t) (h' : Clear t s) : Apart s.code t.code where
  isBranch := h.isBranch
  address := h.address
  isBranch' := h'.isBranch
  address' := h'.address
  comm x v w := by
    show t.withAddress (s.withAddress x v) w = s.withAddress (t.withAddress x w) v
    rw [withAddress, withAddress, withAddress, withAddress, setField_comm h.lo.2,
      setField_comm h.lo.1, setField_comm h.hi.2, setField_comm h.hi.1]

end Split

end BranchCode

/-! ## Units -/

variable {α : Type}

/-- `f` on the first `n` units of `size` elements; the unit at `pos` comes first. -/
def mapUnits (size : Nat) (f : Nat → List α → List α) : (n pos : Nat) → List α → List α
  | 0, _, l => l
  | n + 1, pos, l => f pos (l.take size) ++ mapUnits size f n (pos + size) (l.drop size)

section Units

variable {size : Nat} {f g : Nat → List α → List α}

theorem mapUnits_length (hf : ∀ pos u, u.length = size → (f pos u).length = size) {n pos : Nat}
    {l : List α} (hn : n * size ≤ l.length) : (mapUnits size f n pos l).length = l.length := by
  induction n generalizing pos l with
  | zero => rfl
  | succ n ih =>
    rw [Nat.succ_mul] at hn
    have hunit : (l.take size).length = size := List.length_take_of_le (by omega)
    rw [mapUnits, List.length_append, hf _ _ hunit, ih (by rw [List.length_drop]; omega),
      List.length_drop]
    omega

/-- **Units are undone one by one.** -/
theorem mapUnits_mapUnits (hf : ∀ pos u, u.length = size → (f pos u).length = size) {n pos : Nat}
    (hundo : ∀ q u, q < n → u.length = size → g (pos + q * size) (f (pos + q * size) u) = u)
    {l : List α} (hn : n * size ≤ l.length) :
    mapUnits size g n pos (mapUnits size f n pos l) = l := by
  induction n generalizing pos l with
  | zero => rfl
  | succ n ih =>
    rw [Nat.succ_mul] at hn
    have hunit : (l.take size).length = size := List.length_take_of_le (by omega)
    have hkept := hf pos _ hunit
    have hfirst := hundo 0 _ (Nat.succ_pos n) hunit
    rw [Nat.zero_mul, Nat.add_zero] at hfirst
    have hrest := @ih (pos + size) (fun q u hq hu => by
      have hnext := hundo (q + 1) u (Nat.succ_lt_succ hq) hu
      rwa [Nat.succ_mul, ← Nat.add_assoc, Nat.add_right_comm] at hnext) (l.drop size)
      (by rw [List.length_drop]; omega)
    rw [mapUnits, mapUnits, List.take_left' hkept, List.drop_left' hkept, hfirst, hrest,
      List.take_append_drop]

/-- Unit `q` of the result. -/
theorem mapUnits_unit (hf : ∀ pos u, u.length = size → (f pos u).length = size) {n pos q : Nat}
    (hq : q < n) {l : List α} (hn : n * size ≤ l.length) :
    ((mapUnits size f n pos l).drop (q * size)).take size =
      f (pos + q * size) ((l.drop (q * size)).take size) := by
  induction n generalizing pos l q with
  | zero => exact absurd hq (Nat.not_lt_zero q)
  | succ n ih =>
    rw [Nat.succ_mul] at hn
    have hunit : (l.take size).length = size := List.length_take_of_le (by omega)
    have hkept := hf pos _ hunit
    rw [mapUnits]
    cases q with
    | zero =>
      rw [Nat.zero_mul, List.drop_zero, List.drop_zero, Nat.add_zero, List.take_left' hkept]
    | succ q =>
      rw [Nat.succ_mul, Nat.add_comm, ← List.drop_drop, List.drop_left' hkept,
        ih (Nat.lt_of_succ_lt_succ hq) (by rw [List.length_drop]; omega), List.drop_drop,
        Nat.add_assoc]

/-- What lies behind the units stays. -/
theorem mapUnits_tail (hf : ∀ pos u, u.length = size → (f pos u).length = size) {n pos : Nat}
    {l : List α} (hn : n * size ≤ l.length) :
    (mapUnits size f n pos l).drop (n * size) = l.drop (n * size) := by
  induction n generalizing pos l with
  | zero => rfl
  | succ n ih =>
    rw [Nat.succ_mul] at hn ⊢
    have hunit : (l.take size).length = size := List.length_take_of_le (by omega)
    rw [mapUnits, Nat.add_comm, ← List.drop_drop, List.drop_left' (hf pos _ hunit),
      ih (by rw [List.length_drop]; omega), List.drop_drop]

/-- Two maps that agree on the units there are. -/
theorem mapUnits_congr {n pos : Nat}
    (h : ∀ q u, q < n → u.length = size → f (pos + q * size) u = g (pos + q * size) u)
    {l : List α} (hn : n * size ≤ l.length) : mapUnits size f n pos l = mapUnits size g n pos l := by
  induction n generalizing pos l with
  | zero => rfl
  | succ n ih =>
    rw [Nat.succ_mul] at hn
    have hfirst := h 0 (l.take size) (Nat.succ_pos n) (List.length_take_of_le (by omega))
    rw [Nat.zero_mul, Nat.add_zero] at hfirst
    have hrest := @ih (pos + size) (fun q u hq hu => by
      have hnext := h (q + 1) u (Nat.succ_lt_succ hq) hu
      rwa [Nat.succ_mul, ← Nat.add_assoc, Nat.add_right_comm] at hnext) (l.drop size)
      (by rw [List.length_drop]; omega)
    rw [mapUnits, mapUnits, hfirst, hrest]

end Units

end Squashfs.Foundation
