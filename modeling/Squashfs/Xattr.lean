import Squashfs.Stream
import Squashfs.Table

/-!
# Extended attributes

Model of `src/xattr.rs`: `XattrEntry` and `XattrIdTable` (142-185), `read_id_table` (192-235),
`read_set` (245-328) and `read_ool_value` (335-351).

An image keeps one entry per distinct set of attributes: where the set's pairs are, how many, and
what they add up to. `readSet` decodes a set: each pair is a namespace and a name's rest, then a
value stored inline or, out of line, behind one more reference.

**`parses_readPair`** says exactly which bytes are a pair (`PairSpells`), and `keeps_readPairs` that
no set makes the reader panic.

Out of scope: the capacities the vectors are allocated with, which the caps before them bound.
-/

namespace Squashfs

open Foundation

/-- Set when the value is a reference rather than the value. -/
def XATTR_VALUE_OOL : UInt16 := 0x0100

def XATTR_PREFIX_MASK : UInt16 := 0x00FF

/-- `user.`, `trusted.` and `security.`. -/
def PREFIXES : List Bytes :=
  [[0x75, 0x73, 0x65, 0x72, 0x2E],
    [0x74, 0x72, 0x75, 0x73, 0x74, 0x65, 0x64, 0x2E],
    [0x73, 0x65, 0x63, 0x75, 0x72, 0x69, 0x74, 0x79, 0x2E]]

def ID_ENTRY_SIZE : Nat := 16

def ID_TABLE_HEADER_SIZE : Nat := 16

def MAX_NAME_LEN : Nat := 255

def MAX_VALUE_LEN : Nat := 65536

def MAX_XATTRS_PER_INODE : UInt32 := 16384

/-- One extended attribute. -/
structure XattrEntry where
  name : Bytes
  value : Bytes
  deriving Repr, DecidableEq

/-- One id-table entry: where a set of pairs is, how many, and what they add up to. -/
structure XattrId where
  xattrRef : UInt64
  count : UInt32
  size : UInt32
  deriving Repr, DecidableEq

/-- The xattr id table. -/
structure XattrIdTable where
  tableStart : UInt64
  ids : List XattrId
  deriving Repr, DecidableEq

namespace Xattr

/-! ## The id table -/

/-- Read the xattr id table, or nothing when the image has no attributes. -/
def readIdTable (codecs : Codecs) (dev : Device) (sb : Superblock) :
    Res (Option XattrIdTable) := do
  let headerAt := sb.xattrIdTableStart
  if headerAt = NO_TABLE then return none
  else
    let header ← dev.read headerAt.toNat ID_TABLE_HEADER_SIZE
    let tableStart ← u64At header 0
    let xattrIds ← u32At header 8
    if xattrIds = 0 then return some ⟨tableStart, []⟩
    else if headerAt ≤ tableStart then
      fails (.badMetadata "xattr pair table starts at or after its own index")
    else
      let start ← add64 headerAt.toNat ID_TABLE_HEADER_SIZE
      let bytes ← readIndirectTable codecs dev sb start (← mul64 xattrIds.toNat ID_ENTRY_SIZE)
      let ids ← tabulate (fun i => do
        let lo ← mul64 i ID_ENTRY_SIZE
        let hi ← mul64 (← add64 i 1) ID_ENTRY_SIZE
        let e ← slice bytes lo hi
        return ⟨← u64At e 0, ← u32At e 8, ← u32At e 12⟩) xattrIds.toNat
      return some ⟨tableStart, ids⟩

/-! ## A set -/

open MetaCursor

/-- A length and as many bytes, bounded by `MAX_VALUE_LEN`. -/
def readSized (why : String) : CurM Bytes := do
  let vsize ← readU32
  if MAX_VALUE_LEN < vsize.toNat then throw (.err (.badMetadata why))
  else readExact vsize.toNat

/-- The value an out-of-line reference names. -/
def readOolValue (table : XattrIdTable) (packed : UInt64) : Prog Bytes :=
  let r := MetadataRef.fromPacked packed
  parseAt (r.startAbs table.tableStart) r.inBlock
    (readSized "out-of-line xattr value longer than the format allows")

/-- The value of a pair of type `rawType`. -/
def readValue (table : XattrIdTable) (rawType : UInt16) : CurM Bytes :=
  if rawType &&& XATTR_VALUE_OOL ≠ 0 then do
    let vsize ← readU32
    if vsize.toNat ≠ 8 then
      throw (.err (.badMetadata "out-of-line xattr value is not an 8-byte reference"))
    else
      let target ← readU64
      Stateful.ofAsking (readOolValue table target)
  else readSized "xattr value longer than the format allows"

/-- The name of a pair of type `rawType`: its prefix and the bytes stored. -/
def assembleName (rawType : UInt16) (suffix : Bytes) : Res Bytes := do
  let pre ← okOr (.badMetadata "xattr names an undefined namespace")
    PREFIXES[(rawType &&& XATTR_PREFIX_MASK).toNat]?
  if MAX_NAME_LEN < (pre ++ suffix).length then
    fails (.badMetadata "xattr name longer than the format allows")
  else return pre ++ suffix

/-- One pair. -/
def readPair (table : XattrIdTable) : CurM XattrEntry := do
  let rawType ← readU16
  let nameSize ← readU16
  if MAX_NAME_LEN < nameSize.toNat then
    throw (.err (.badMetadata "xattr name longer than the format allows"))
  else
    let suffix ← readExact nameSize.toNat
    let name ← assembleName rawType suffix
    let value ← readValue table rawType
    return ⟨name, value⟩

/-- `total` and the space `e` takes. -/
def addTotal (total : Nat) (e : XattrEntry) : Res Nat := do
  add64 total (← add64 (← add64 e.name.length 1) e.value.length)

/-- `for _ in 0..count`, with the running total. -/
def readPairs (table : XattrIdTable) (size : UInt32) :
    Nat → (out : List XattrEntry) → (total : Nat) → CurM (List XattrEntry)
  | 0, out, total =>
    if total ≠ size.toNat then
      throw (.err (.badMetadata "xattr set does not add up to the size it declared"))
    else return out
  | count + 1, out, total => do
    let e ← readPair table
    let total ← addTotal total e
    if size.toNat < total then
      throw (.err (.badMetadata "xattr set is longer than the size it declared"))
    else readPairs table size count (out ++ [e]) total

/-- Read the set of attributes at `index`. -/
def readSet (table : XattrIdTable) (i : UInt32) : Prog (List XattrEntry) := do
  let id ← okOr (.badMetadata "xattr index past the end of the table") table.ids[i.toNat]?
  if MAX_XATTRS_PER_INODE < id.count then
    throw (.err (.badMetadata "xattr set declares an absurd count"))
  else
    let r := MetadataRef.fromPacked id.xattrRef
    parseAt (r.startAbs table.tableStart) r.inBlock (readPairs table id.size id.count.toNat [] 0)

/-! ## The id table is read safely -/

theorem returns_readIdTable (codecs : Codecs) (dev : Device) (sb : Superblock) :
    Returns (readIdTable codecs dev sb) := by
  have hsize := dev.size_lt
  unfold readIdTable
  refine Safe.returns (P := fun _ => True) (safe_ite (fun _ => trivial) fun _ => ?_)
  refine safe_bind ((dev.returns_read _ _).safe fun _ h =>
    And.intro (dev.length_of_read h) (dev.le_of_read h (by decide))) fun header hheader => ?_
  have hlen : header.length = 16 := hheader.1
  have hend := hheader.2
  unfold ID_TABLE_HEADER_SIZE at hend
  rw [u64At_ok (by omega) (by unfold wordSize; omega), ok_bind,
    u32At_ok (by omega) (by unfold wordSize; omega), ok_bind]
  generalize u32le ((header.drop 8).take 4) = xattrIds
  have hn := xattrIds.toNat_lt
  refine safe_ite (fun _ => trivial) fun _ => safe_ite (fun _ => trivial) fun _ => ?_
  rw [add64_ok (by unfold ID_TABLE_HEADER_SIZE; omega), ok_bind,
    mul64_ok (by unfold ID_ENTRY_SIZE wordSize; omega), ok_bind]
  refine safe_bind (safe_readIndirectTable codecs dev sb _ _) fun bytes hbytes => ?_
  unfold ID_ENTRY_SIZE at hbytes ⊢
  refine safe_bind (safe_tabulate (P := fun _ => True) fun i hi => ?_) fun _ _ => trivial
  rw [mul64_ok (by unfold wordSize; omega), ok_bind, add64_ok (by unfold wordSize; omega), ok_bind,
    mul64_ok (by unfold wordSize; omega), ok_bind, slice_ok (by omega) (by omega), ok_bind]
  have he : ((bytes.drop (i * 16)).take ((i + 1) * 16 - i * 16)).length = 16 := by
    rw [show (i + 1) * 16 - i * 16 = 16 by omega]
    exact window_length (by omega)
  rw [u64At_ok (by omega) (by unfold wordSize; omega), ok_bind,
    u32At_ok (by omega) (by unfold wordSize; omega), ok_bind,
    u32At_ok (by omega) (by unfold wordSize; omega), ok_bind]
  trivial

/-! ## The grammar of a set -/

variable {f : ∀ q, Reply q}

/-- A value with its length in front. -/
def sized (value : Bytes) : Bytes := u32Bytes (UInt32.ofNat value.length) ++ value

/-- The stream at a packed reference into the pair area begins with `w`. -/
def StreamAtRef (f : ∀ q, Reply q) (table : XattrIdTable) (packed : UInt64) (w : Bytes) : Prop :=
  StreamAt f ((MetadataRef.fromPacked packed).startAbs table.tableStart)
    (MetadataRef.fromPacked packed).inBlock.toNat w

/-- The type word, the name's length and the name's rest, as a pair stores them. -/
def nameWord (rawType : UInt16) (suffix : Bytes) : Bytes :=
  u16Bytes rawType ++ (u16Bytes (UInt16.ofNat suffix.length) ++ suffix)

/-- The pairs of the format, each with the attribute it spells: a value inline, or out of line
behind one reference. -/
inductive PairSpells (At : UInt64 → Bytes → Prop) : Bytes → XattrEntry → Prop
  | inline {rawType : UInt16} {pre suffix value : Bytes}
      (hpre : PREFIXES[(rawType &&& XATTR_PREFIX_MASK).toNat]? = some pre)
      (hname : (pre ++ suffix).length ≤ MAX_NAME_LEN)
      (hbit : rawType &&& XATTR_VALUE_OOL = 0) (hvalue : value.length ≤ MAX_VALUE_LEN) :
      PairSpells At (nameWord rawType suffix ++ sized value) ⟨pre ++ suffix, value⟩
  | outOfLine {rawType : UInt16} {pre suffix value : Bytes} {target : UInt64}
      (hpre : PREFIXES[(rawType &&& XATTR_PREFIX_MASK).toNat]? = some pre)
      (hname : (pre ++ suffix).length ≤ MAX_NAME_LEN)
      (hbit : rawType &&& XATTR_VALUE_OOL ≠ 0) (hvalue : value.length ≤ MAX_VALUE_LEN)
      (htarget : At target (sized value)) :
      PairSpells At (nameWord rawType suffix ++ (u32Bytes 8 ++ u64Bytes target))
        ⟨pre ++ suffix, value⟩

/-- A pair whose value is found one way is a pair whose value is found any way that finds it. -/
theorem PairSpells.mono {At At' : UInt64 → Bytes → Prop} (h : ∀ r w, At r w → At' r w) {w : Bytes}
    {e : XattrEntry} (hpair : PairSpells At w e) : PairSpells At' w e := by
  cases hpair with
  | inline hpre hname hbit hvalue => exact .inline hpre hname hbit hvalue
  | outOfLine hpre hname hbit hvalue htarget =>
    exact .outOfLine hpre hname hbit hvalue (h _ _ htarget)

/-- The space an attribute takes in its set's declared size. -/
def footprint (e : XattrEntry) : Nat := e.name.length + 1 + e.value.length

/-- The space attributes take together. -/
def totalFootprint (es : List XattrEntry) : Nat := (es.map footprint).sum

/-! ### Values -/

theorem parses_readSized (hf : Tame f) (why : String) :
    Parses f (source f) (readSized why) fun w value =>
      w = sized value ∧ value.length ≤ MAX_VALUE_LEN := by
  unfold readSized
  have hread : ∀ vsize : UInt32, Parses f (source f) (readExact vsize.toNat)
      fun w out => w = out ∧ out.length = vsize.toNat :=
    fun vsize => parses_readExact hf (Nat.le_of_lt vsize.toNat_lt)
  refine (parses_word_bind (parses_readU32 hf) fun vsize => parses_ite (fun _ => parses_throw _)
    fun _ => hread vsize).congr fun w value => ⟨?_, ?_⟩
  · rintro ⟨vsize, v, rfl, ⟨-, h⟩ | ⟨hle, rfl, hlen⟩⟩
    · exact h.elim
    · refine ⟨?_, by omega⟩
      rw [sized, hlen, UInt32.ofNat_toNat]
  · rintro ⟨rfl, hle⟩
    have hsize : (UInt32.ofNat value.length).toNat = value.length := by
      rw [UInt32.toNat_ofNat']
      unfold MAX_VALUE_LEN at hle
      omega
    exact ⟨_, value, rfl, .inr ⟨by omega, rfl, hsize.symm⟩⟩

/-- An out-of-line value is read exactly when the stream at its reference begins with it. -/
theorem exec_readOolValue (hf : Tame f) (table : XattrIdTable) (packed : UInt64) (value : Bytes) :
    Asking.exec f (readOolValue table packed) = .ok value ↔
      StreamAtRef f table packed (sized value) ∧ value.length ≤ MAX_VALUE_LEN := by
  unfold readOolValue
  rw [exec_parseAt hf (parses_readSized hf _)]
  constructor
  · rintro ⟨w, hw, rfl, hle⟩
    exact ⟨hw, hle⟩
  · rintro ⟨hw, hle⟩
    exact ⟨_, hw, rfl, hle⟩

/-- The words of a value under the type word `rawType`. -/
def ValueSpells (f : ∀ q, Reply q) (table : XattrIdTable) (rawType : UInt16) (w value : Bytes) :
    Prop :=
  value.length ≤ MAX_VALUE_LEN ∧
    ((rawType &&& XATTR_VALUE_OOL = 0 ∧ w = sized value) ∨
      (rawType &&& XATTR_VALUE_OOL ≠ 0 ∧ ∃ target, w = u32Bytes 8 ++ u64Bytes target ∧
        StreamAtRef f table target (sized value)))

theorem parses_readValue (hf : Tame f) (table : XattrIdTable) (rawType : UInt16) :
    Parses f (source f) (readValue table rawType) (ValueSpells f table rawType) := by
  unfold readValue
  refine (parses_ite (fun _ => parses_word_bind (parses_readU32 hf) fun vsize =>
    parses_ite (fun _ => parses_throw _) fun _ => parses_word_bind (parses_readU64 hf)
      fun target => parses_ofAsking (readOolValue table target))
    fun _ => parses_readSized hf _).congr fun w value => ⟨?_, ?_⟩
  · rintro (⟨hbit, vsize, v, rfl, ⟨-, h⟩ | ⟨h8, target, _, rfl, rfl, hval⟩⟩ | ⟨hbit, rfl, hle⟩)
    · exact h.elim
    · have hsize : vsize = 8 := UInt32.toNat_inj.mp (Decidable.not_not.mp h8)
      obtain ⟨hstream, hle⟩ := (exec_readOolValue hf table target value).mp hval
      refine ⟨hle, .inr ⟨hbit, target, ?_, hstream⟩⟩
      rw [hsize, List.append_nil]
    · exact ⟨hle, .inl ⟨Decidable.not_not.mp hbit, rfl⟩⟩
  · rintro ⟨hle, ⟨hbit, rfl⟩ | ⟨hbit, target, rfl, hstream⟩⟩
    · exact .inr ⟨not_not_intro hbit, rfl, hle⟩
    · refine .inl ⟨hbit, 8, _, rfl, .inr ⟨not_not_intro rfl, target, [], ?_, rfl, ?_⟩⟩
      · rw [List.append_nil]
      · exact (exec_readOolValue hf table target value).mpr ⟨hstream, hle⟩

/-! ### Pairs -/

theorem assembleName_eq_ok {rawType : UInt16} {suffix name : Bytes} :
    assembleName rawType suffix = .ok name ↔
      ∃ pre, PREFIXES[(rawType &&& XATTR_PREFIX_MASK).toNat]? = some pre ∧
        (pre ++ suffix).length ≤ MAX_NAME_LEN ∧ name = pre ++ suffix := by
  unfold assembleName
  rw [bind_eq_ok]
  constructor
  · rintro ⟨pre, hpre, h⟩
    split at h
    · cases h
    · cases h
      exact ⟨pre, okOr_eq_ok.mp hpre, by omega, rfl⟩
  · rintro ⟨pre, hpre, hle, rfl⟩
    refine ⟨pre, okOr_eq_ok.mpr hpre, ?_⟩
    rw [if_neg (by omega)]
    rfl

/-- **A pair is read exactly when the stream begins with one of the format's.** -/
theorem parses_readPair (hf : Tame f) (table : XattrIdTable) :
    Parses f (source f) (readPair table) (PairSpells (StreamAtRef f table)) := by
  unfold readPair
  have hread : ∀ nameSize : UInt16, Parses f (source f) (readExact nameSize.toNat)
      fun w out => w = out ∧ out.length = nameSize.toNat :=
    fun nameSize => parses_readExact hf (Nat.le_trans (Nat.le_of_lt nameSize.toNat_lt) (by decide))
  refine (parses_word_bind (parses_readU16 hf) fun rawType => parses_word_bind (parses_readU16 hf)
    fun nameSize => parses_ite (fun _ => parses_throw _) fun _ => parses_bind (hread nameSize)
      fun suffix => parses_lift_bind fun name => parses_bind (parses_readValue hf table rawType)
        fun value => parses_pure _).congr fun w e => ⟨?_, ?_⟩
  · rintro ⟨rawType, _, rfl, nameSize, _, rfl, ⟨-, h⟩ | ⟨-, _, suffix, _, rfl, ⟨rfl, hlen⟩, name,
      hname, value, _, _, rfl, hvalue, rfl, rfl⟩⟩
    · exact h.elim
    obtain ⟨pre, hpre, hle, rfl⟩ := assembleName_eq_ok.mp hname
    have hsize : nameSize = UInt16.ofNat suffix.length := by rw [hlen, UInt16.ofNat_toNat]
    subst hsize
    rw [List.append_nil]
    obtain ⟨hvlen, ⟨hbit, rfl⟩ | ⟨hbit, target, rfl, hstream⟩⟩ := hvalue
    · have h : PairSpells (StreamAtRef f table) _ _ := .inline hpre hle hbit hvlen
      simpa [nameWord, List.append_assoc] using h
    · have h : PairSpells (StreamAtRef f table) _ _ := .outOfLine hpre hle hbit hvlen hstream
      simpa [nameWord, List.append_assoc] using h
  · intro h
    have hsuffix : ∀ {pre suffix : Bytes}, (pre ++ suffix).length ≤ MAX_NAME_LEN →
        (UInt16.ofNat suffix.length).toNat = suffix.length ∧ suffix.length ≤ MAX_NAME_LEN := by
      intro pre suffix hle
      rw [List.length_append] at hle
      rw [UInt16.toNat_ofNat']
      unfold MAX_NAME_LEN at *
      omega
    cases h with
    | @inline rawType pre suffix value hpre hname hbit hvalue =>
      obtain ⟨hsize, hle⟩ := hsuffix hname
      refine ⟨rawType, u16Bytes (UInt16.ofNat suffix.length) ++ (suffix ++ sized value), ?_, _, _,
        rfl, .inr ⟨by omega, suffix, suffix, _, rfl, ⟨rfl, hsize.symm⟩, _,
          assembleName_eq_ok.mpr ⟨pre, hpre, hname, rfl⟩, value, sized value, [], ?_,
          ⟨hvalue, .inl ⟨hbit, rfl⟩⟩, rfl, rfl⟩⟩
      · simp [nameWord, List.append_assoc]
      · rw [List.append_nil]
    | @outOfLine rawType pre suffix value target hpre hname hbit hvalue htarget =>
      obtain ⟨hsize, hle⟩ := hsuffix hname
      refine ⟨rawType, u16Bytes (UInt16.ofNat suffix.length) ++
        (suffix ++ (u32Bytes 8 ++ u64Bytes target)), ?_, _, _,
        rfl, .inr ⟨by omega, suffix, suffix, _, rfl, ⟨rfl, hsize.symm⟩, _,
          assembleName_eq_ok.mpr ⟨pre, hpre, hname, rfl⟩, value, u32Bytes 8 ++ u64Bytes target,
          [], ?_, ⟨hvalue, .inr ⟨hbit, target, rfl, htarget⟩⟩, rfl, rfl⟩⟩
      · simp [nameWord, List.append_assoc]
      · rw [List.append_nil]

/-! ### Sets -/

theorem addTotal_eq_ok {total total' : Nat} {e : XattrEntry} (h : total + footprint e < wordSize) :
    addTotal total e = .ok total' ↔ total' = total + footprint e := by
  unfold addTotal footprint at *
  rw [add64_ok (by omega), ok_bind, add64_ok (by omega), ok_bind, add64_ok (by omega),
    Except.ok.injEq, eq_comm]

theorem addTotal_of_ok {total total' : Nat} {e : XattrEntry} (h : addTotal total e = .ok total') :
    total' = total + footprint e := by
  unfold addTotal at h
  obtain ⟨a, ha, h⟩ := bind_eq_ok.mp h
  obtain ⟨b, hb, h⟩ := bind_eq_ok.mp h
  obtain ⟨-, rfl⟩ := add64_eq_ok.mp ha
  obtain ⟨-, rfl⟩ := add64_eq_ok.mp hb
  exact (add64_eq_ok.mp h).2

@[simp] theorem totalFootprint_nil : totalFootprint [] = 0 := rfl

@[simp] theorem totalFootprint_cons (e : XattrEntry) (es : List XattrEntry) :
    totalFootprint (e :: es) = footprint e + totalFootprint es := rfl

/-- The pairs after `out`, with `total` already taken: `count` of them, which bring the total to
exactly the declared size. -/
theorem parses_readPairs (hf : Tame f) (table : XattrIdTable) (size : UInt32) (count : Nat)
    (out : List XattrEntry) (total : Nat) :
    Parses f (source f) (readPairs table size count out total) fun w res =>
      ∃ es, es.length = count ∧ Words (PairSpells (StreamAtRef f table)) w es ∧ res = out ++ es ∧
        total + totalFootprint es = size.toNat := by
  induction count generalizing out total with
  | zero =>
    unfold readPairs
    refine (parses_ite (fun _ => parses_throw _) fun _ => parses_pure _).congr fun w res =>
      ⟨?_, ?_⟩
    · rintro (⟨-, h⟩ | ⟨heq, rfl, rfl⟩)
      · exact h.elim
      · exact ⟨[], rfl, .nil, (List.append_nil _).symm, Decidable.not_not.mp heq⟩
    · rintro ⟨es, hlen, hw, rfl, hsum⟩
      cases hw with
      | nil => exact .inr ⟨not_not_intro hsum, rfl, List.append_nil _⟩
      | cons hd tl => cases hlen
  | succ count ih =>
    unfold readPairs
    refine (parses_bind (parses_readPair hf table) fun e => parses_lift_bind fun total' =>
      parses_ite (fun _ => parses_throw _) fun _ => ih (out ++ [e]) total').congr fun w res =>
        ⟨?_, ?_⟩
    · rintro ⟨e, w₁, w₂, rfl, hpair, total', htotal, ⟨-, h⟩ | ⟨-, es, hlen, hw, rfl, hsum⟩⟩
      · exact h.elim
      · have htotal := addTotal_of_ok htotal
        refine ⟨e :: es, by rw [List.length_cons, hlen], .cons hpair hw, ?_, ?_⟩
        · rw [List.append_assoc, List.singleton_append]
        · rw [totalFootprint_cons]
          omega
    · rintro ⟨es, hlen, hw, rfl, hsum⟩
      cases hw with
      | nil => cases hlen
      | @cons w v e es hd tl =>
        rw [totalFootprint_cons] at hsum
        have hsize := size.toNat_lt
        have hfit : total + footprint e < wordSize := by unfold wordSize; omega
        have htotal := (addTotal_eq_ok hfit).mpr rfl
        refine ⟨e, w, v, rfl, hd, _, htotal, .inr ⟨by omega, es, Nat.succ.inj hlen, tl, ?_, ?_⟩⟩
        · rw [List.append_assoc, List.singleton_append]
        · omega

/-- The attributes of set `i`, found `At` references: as many records as the set counts, one after
the other from its reference on, with the footprint it declares. -/
def Spelled (At : UInt64 → Bytes → Prop) (table : XattrIdTable) (i : UInt32)
    (out : List XattrEntry) : Prop :=
  ∃ id, table.ids[i.toNat]? = some id ∧ id.count ≤ MAX_XATTRS_PER_INODE ∧
    out.length = id.count.toNat ∧ totalFootprint out = id.size.toNat ∧
    ∃ w, At id.xattrRef w ∧ Words (PairSpells At) w out

/-- **A set is read exactly when the stream at its reference begins with its pairs.** -/
theorem exec_readSet (hf : Tame f) (table : XattrIdTable) (i : UInt32) (out : List XattrEntry) :
    Asking.exec f (readSet table i) = .ok out ↔ Spelled (StreamAtRef f table) table i out := by
  unfold readSet
  rw [Asking.exec_bind, Asking.exec_lift, bind_eq_ok]
  constructor
  · rintro ⟨id, hid, h⟩
    rw [Asking.exec_ite] at h
    split at h
    · cases h
    rename_i hcount
    obtain ⟨w, hw, es, hlen, hwords, rfl, hsum⟩ :=
      (exec_parseAt hf (parses_readPairs hf table _ _ _ _)).mp h
    rw [Nat.zero_add] at hsum
    exact ⟨id, okOr_eq_ok.mp hid, UInt32.not_lt.mp hcount, hlen, hsum, w, hw, hwords⟩
  · rintro ⟨id, hid, hcount, hlen, hsum, w, hw, hwords⟩
    refine ⟨id, okOr_eq_ok.mpr hid, ?_⟩
    rw [Asking.exec_ite, if_neg (UInt32.not_lt.mpr hcount)]
    refine (exec_parseAt hf (parses_readPairs hf table _ _ _ _)).mpr
      ⟨w, hw, out, hlen, hwords, rfl, ?_⟩
    rwa [Nat.zero_add]

/-! ## A set is read safely -/

theorem keeps_readSized (hf : Tame f) (why : String) :
    Keeps f Good (fun value => value.length ≤ MAX_VALUE_LEN) (readSized why) := by
  unfold readSized
  refine keeps_bind (keeps_readU32 hf) fun vsize _ => keeps_ite (fun _ => keeps_throw) fun hle => ?_
  exact (keeps_readExact hf (Nat.le_of_lt vsize.toNat_lt)).mono fun out hout => by omega

theorem keeps_readValue (hf : Tame f) (table : XattrIdTable) (rawType : UInt16) :
    Keeps f Good (fun value => value.length ≤ MAX_VALUE_LEN) (readValue table rawType) := by
  unfold readValue
  refine keeps_ite (fun _ => ?_) fun _ => keeps_readSized hf _
  refine keeps_bind (keeps_readU32 hf) fun _ _ => keeps_ite (fun _ => keeps_throw) fun _ => ?_
  refine keeps_bind (keeps_readU64 hf) fun target _ => ?_
  exact keeps_ofAsking (returns_parseAt hf (keeps_readSized hf _) _ _)

theorem keeps_readPair (hf : Tame f) (table : XattrIdTable) :
    Keeps f Good (fun e => footprint e ≤ MAX_NAME_LEN + 1 + MAX_VALUE_LEN) (readPair table) := by
  unfold readPair
  refine keeps_bind (keeps_readU16 hf) fun rawType _ => ?_
  refine keeps_bind (keeps_readU16 hf) fun nameSize _ => keeps_ite (fun _ => keeps_throw) fun _ => ?_
  have hread := keeps_readExact hf (Nat.le_trans (Nat.le_of_lt nameSize.toNat_lt)
    (show 2 ^ 16 ≤ maxRead by decide))
  refine keeps_bind hread fun suffix _ => ?_
  have hname : Safe (fun name => name.length ≤ MAX_NAME_LEN) (assembleName rawType suffix) := by
    unfold assembleName
    exact safe_bind (safe_okOr _ _) fun pre _ => safe_ite (fun _ => trivial) fun hle =>
      Nat.le_of_not_lt hle
  refine keeps_bind (keeps_lift hname) fun name hname => ?_
  refine keeps_bind (keeps_readValue hf table rawType) fun value hvalue => keeps_pure ?_
  unfold footprint
  dsimp only
  omega

/-- **No set makes the reader panic**: the running total stays far below a word. -/
theorem keeps_readPairs (hf : Tame f) (table : XattrIdTable) (size : UInt32) (count : Nat)
    (out : List XattrEntry) {total : Nat} (htotal : total < 2 ^ 32) :
    Keeps f Good (fun _ => True) (readPairs table size count out total) := by
  induction count generalizing out total with
  | zero =>
    unfold readPairs
    exact keeps_ite (fun _ => keeps_throw) fun _ => keeps_pure trivial
  | succ count ih =>
    have hsize := size.toNat_lt
    unfold readPairs
    refine keeps_bind (keeps_readPair hf table) fun e he => ?_
    have hsum : total + footprint e < wordSize := by
      unfold MAX_NAME_LEN MAX_VALUE_LEN at he
      unfold wordSize
      omega
    have hadd : Safe (· = total + footprint e) (addTotal total e) := by
      rw [(addTotal_eq_ok hsum).mpr rfl]
      rfl
    refine keeps_bind (keeps_lift hadd) fun total' ht => ?_
    exact keeps_ite (fun _ => keeps_throw) fun hle => ih _ (by omega)

theorem returns_readSet (hf : Tame f) (table : XattrIdTable) (i : UInt32) :
    Returns (Asking.exec f (readSet table i)) := by
  unfold readSet
  rw [Asking.exec_bind, Asking.exec_lift]
  refine Safe.returns (P := fun _ => True) (safe_bind (safe_okOr _ _) fun id _ => ?_)
  rw [Asking.exec_ite]
  refine safe_ite (fun _ => trivial) fun _ => ?_
  exact returns_parseAt hf (keeps_readPairs hf table _ _ _ (by decide)) _ _

end Xattr

end Squashfs
