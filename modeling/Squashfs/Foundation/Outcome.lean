import Mathlib.Algebra.Group.Nat.Defs
import Mathlib.Data.List.Basic

/-!
# Computations that return, panic or never end

`Outcome ε α` is what a call of a language with panics can do: return a value, return an error
of the program's own (`Fail.err`), panic, or not come to an end (a loop that used up the turns
its model gives it). A program is safe when every call `Returns`.

The checked operations are the ones a compiler guards: `+`, `-`, `*` on 64-bit words, shifts on
32-bit words, indexing, slicing, and the conversion of a slice to an array. Each gives the
mathematical result or a panic, so a proof that a program returns is a proof that no guard fires.
-/

namespace Squashfs.Foundation

/-- Why a computation gave no value. -/
inductive Fail (ε : Type) where
  | err (e : ε)
  | panic
  | diverge
  deriving Repr, DecidableEq

/-- A value, an error of the program's own, a panic, or no end. -/
abbrev Outcome (ε α : Type) := Except (Fail ε) α

section Returns

variable {ε α β : Type}

/-- The failure is an error the program reports. -/
def Fail.Reported : Fail ε → Prop
  | .err _ => True
  | .panic => False
  | .diverge => False

/-- The computation ends in a value or in an error the program reports. -/
def Returns : Outcome ε α → Prop
  | .ok _ => True
  | .error f => f.Reported

@[simp] theorem Fail.reported_err (e : ε) : (Fail.err e).Reported := trivial

@[simp] theorem returns_ok (a : α) : Returns (.ok a : Outcome ε α) := trivial

@[simp] theorem returns_pure (a : α) : Returns (pure a : Outcome ε α) := trivial

@[simp] theorem returns_error (f : Fail ε) :
    Returns (.error f : Outcome ε α) ↔ f.Reported := Iff.rfl

@[simp] theorem returns_throw (f : Fail ε) :
    Returns (throw f : Outcome ε α) ↔ f.Reported := Iff.rfl

theorem Returns.cases {x : Outcome ε α} (h : Returns x) :
    (∃ a, x = .ok a) ∨ ∃ e, x = .error (.err e) := by
  rcases x with (e | - | -) | a
  · exact .inr ⟨e, rfl⟩
  · exact h.elim
  · exact h.elim
  · exact .inl ⟨a, rfl⟩

theorem bind_eq_ok {x : Outcome ε α} {f : α → Outcome ε β} {b : β} :
    x >>= f = .ok b ↔ ∃ a, x = .ok a ∧ f a = .ok b := by
  cases x with
  | ok a =>
    constructor
    · intro h; exact ⟨a, rfl, h⟩
    · rintro ⟨a', ha, h⟩; cases ha; exact h
  | error f =>
    constructor
    · intro h; cases h
    · rintro ⟨a', ha, -⟩; cases ha

theorem pure_eq_ok (a : α) : (pure a : Outcome ε α) = .ok a := rfl

@[simp] theorem ok_bind (a : α) (f : α → Outcome ε β) : (Except.ok a >>= f) = f a := rfl

@[simp] theorem error_bind (e : Fail ε) (f : α → Outcome ε β) :
    ((Except.error e : Outcome ε α) >>= f) = .error e := rfl

/-- **The rule for a sequence**: it returns when its first part does and the rest does on every
value the first part can give. -/
theorem returns_bind {x : Outcome ε α} {f : α → Outcome ε β} (hx : Returns x)
    (hf : ∀ a, x = .ok a → Returns (f a)) : Returns (x >>= f) := by
  cases x with
  | ok a => exact hf a rfl
  | error e => exact hx

theorem returns_ite {c : Prop} [Decidable c] {x y : Outcome ε α} (hx : c → Returns x)
    (hy : ¬ c → Returns y) : Returns (if c then x else y) := by
  split
  · rename_i h; exact hx h
  · rename_i h; exact hy h

/-- The computation with its errors translated. -/
def mapErr {ε' : Type} (g : ε → ε') : Outcome ε α → Outcome ε' α
  | .ok a => .ok a
  | .error (.err e) => .error (.err (g e))
  | .error .panic => .error .panic
  | .error .diverge => .error .diverge

@[simp] theorem mapErr_ok {ε' : Type} (g : ε → ε') (a : α) :
    mapErr g (.ok a : Outcome ε α) = .ok a := rfl

theorem mapErr_bind {ε' : Type} (g : ε → ε') (x : Outcome ε α) (f : α → Outcome ε β) :
    mapErr g (x >>= f) = mapErr g x >>= fun a => mapErr g (f a) := by
  rcases x with (e | - | -) | a <;> rfl

theorem mapErr_eq_ok {ε' : Type} {g : ε → ε'} {x : Outcome ε α} {a : α} :
    mapErr g x = .ok a ↔ x = .ok a := by
  rcases x with (e | - | -) | b <;> simp [mapErr]

theorem returns_mapErr {ε' : Type} {g : ε → ε'} {x : Outcome ε α} :
    Returns (mapErr g x) ↔ Returns x := by
  rcases x with (e | - | -) | b <;> rfl

/-- `Returns` is decidable. -/
instance (x : Outcome ε α) : Decidable (Returns x) :=
  match x with
  | .ok _ => isTrue trivial
  | .error (.err _) => isTrue trivial
  | .error .panic => isFalse id
  | .error .diverge => isFalse id

end Returns

/-! ## Computations that give a value -/

section Gives

variable {ε α β : Type}

/-- The computation ends in a value with the property `P`. -/
def Gives (P : α → Prop) (x : Outcome ε α) : Prop := ∃ a, x = .ok a ∧ P a

@[simp] theorem gives_ok {P : α → Prop} {a : α} : Gives P (.ok a : Outcome ε α) ↔ P a :=
  ⟨fun ⟨_, h, hp⟩ => by cases h; exact hp, fun h => ⟨a, rfl, h⟩⟩

@[simp] theorem gives_pure {P : α → Prop} {a : α} : Gives P (pure a : Outcome ε α) ↔ P a :=
  gives_ok

theorem Gives.mono {P P' : α → Prop} {x : Outcome ε α} (h : Gives P x) (hP : ∀ a, P a → P' a) :
    Gives P' x := by
  obtain ⟨a, ha, hp⟩ := h
  exact ⟨a, ha, hP a hp⟩

theorem gives_bind {P : α → Prop} {P' : β → Prop} {x : Outcome ε α} {f : α → Outcome ε β}
    (hx : Gives P x) (hf : ∀ a, P a → Gives P' (f a)) : Gives P' (x >>= f) := by
  obtain ⟨a, rfl, ha⟩ := hx
  exact hf a ha

theorem gives_ite {P : α → Prop} {c : Prop} [Decidable c] {x y : Outcome ε α}
    (hx : c → Gives P x) (hy : ¬ c → Gives P y) : Gives P (if c then x else y) := by
  split
  · rename_i h; exact hx h
  · rename_i h; exact hy h

/-- **The rule for a scan**: what each step keeps, the whole fold keeps. -/
theorem gives_foldlM {P : β → Prop} {f : β → α → Outcome ε β} {l : List α} {b : β} (hb : P b)
    (hf : ∀ b a, a ∈ l → P b → Gives P (f b a)) : Gives P (l.foldlM f b) := by
  induction l generalizing b with
  | nil => exact gives_pure.mpr hb
  | cons a l ih =>
    rw [List.foldlM_cons]
    refine gives_bind (hf b a List.mem_cons_self hb) fun b' hb' => ih hb' ?_
    intro b'' a' ha'
    exact hf b'' a' (List.mem_cons_of_mem a ha')

end Gives

/-! ## Safe computations -/

section Safe

variable {ε α β : Type}

/-- The computation returns, and a value it gives has the property `P`. -/
def Safe (P : α → Prop) : Outcome ε α → Prop
  | .ok a => P a
  | .error f => f.Reported

@[simp] theorem safe_ok {P : α → Prop} {a : α} : Safe P (.ok a : Outcome ε α) ↔ P a := Iff.rfl

@[simp] theorem safe_pure {P : α → Prop} {a : α} : Safe P (pure a : Outcome ε α) ↔ P a := Iff.rfl

@[simp] theorem safe_error {P : α → Prop} {f : Fail ε} :
    Safe P (.error f : Outcome ε α) ↔ f.Reported := Iff.rfl

theorem Safe.returns {P : α → Prop} {x : Outcome ε α} (h : Safe P x) : Returns x := by
  cases x with
  | ok a => trivial
  | error f => exact h

theorem Safe.of_eq {P : α → Prop} {x : Outcome ε α} (h : Safe P x) {a : α} (hx : x = .ok a) :
    P a := by
  subst hx
  exact h

/-- A computation that returns is safe for whatever its values satisfy. -/
theorem Returns.safe {P : α → Prop} {x : Outcome ε α} (h : Returns x)
    (hP : ∀ a, x = .ok a → P a) : Safe P x := by
  cases x with
  | ok a => exact hP a rfl
  | error f => exact h

theorem Gives.safe {P : α → Prop} {x : Outcome ε α} (h : Gives P x) : Safe P x := by
  obtain ⟨a, rfl, ha⟩ := h
  exact ha

theorem Safe.mono {P P' : α → Prop} {x : Outcome ε α} (h : Safe P x) (hP : ∀ a, P a → P' a) :
    Safe P' x := by
  cases x with
  | ok a => exact hP a h
  | error f => exact h

/-- **The rule for a sequence** of safe computations. -/
theorem safe_bind {P : α → Prop} {P' : β → Prop} {x : Outcome ε α} {f : α → Outcome ε β}
    (hx : Safe P x) (hf : ∀ a, P a → Safe P' (f a)) : Safe P' (x >>= f) := by
  cases x with
  | ok a => exact hf a hx
  | error e => exact hx

theorem safe_ite {P : α → Prop} {c : Prop} [Decidable c] {x y : Outcome ε α}
    (hx : c → Safe P x) (hy : ¬ c → Safe P y) : Safe P (if c then x else y) := by
  split
  · rename_i h; exact hx h
  · rename_i h; exact hy h

/-- **The rule for a loop over a list**: what each turn keeps, the whole loop keeps. -/
theorem safe_foldlM {P : β → Prop} {f : β → α → Outcome ε β} {l : List α} {b : β} (hb : P b)
    (hf : ∀ b a, a ∈ l → P b → Safe P (f b a)) : Safe P (l.foldlM f b) := by
  induction l generalizing b with
  | nil => exact hb
  | cons a l ih =>
    rw [List.foldlM_cons]
    refine safe_bind (hf b a List.mem_cons_self hb) fun b' hb' => ih hb' ?_
    intro b'' a' ha'
    exact hf b'' a' (List.mem_cons_of_mem a ha')

end Safe

/-! ## Loops that push -/

section Tabulate

variable {ε α : Type}

/-- `for i in 0..n { out.push(f(i)?) }`. -/
def tabulate (f : Nat → Outcome ε α) : Nat → Outcome ε (List α)
  | 0 => .ok []
  | n + 1 => do
    let out ← tabulate f n
    let x ← f n
    return out ++ [x]

/-- **What a pushing loop gives**: `f i` at every place `i`. -/
theorem tabulate_eq_ok {f : Nat → Outcome ε α} {n : Nat} {out : List α} :
    tabulate f n = .ok out ↔ out.length = n ∧ ∀ i x, out[i]? = some x → f i = .ok x := by
  induction n generalizing out with
  | zero =>
    constructor
    · intro h
      cases h
      exact ⟨rfl, fun i x hx => by cases hx⟩
    · rintro ⟨hlen, -⟩
      rw [List.length_eq_zero_iff.mp hlen]
      rfl
  | succ n ih =>
    unfold tabulate
    rw [bind_eq_ok]
    constructor
    · rintro ⟨init, hinit, h⟩
      obtain ⟨x, hx, h⟩ := bind_eq_ok.mp h
      cases h
      obtain ⟨hlen, hget⟩ := ih.mp hinit
      refine ⟨by rw [List.length_append, hlen]; rfl, fun i y hy => ?_⟩
      rw [List.getElem?_append] at hy
      split at hy
      · exact hget i y hy
      · have hi : i - init.length = 0 := by
          have := (List.getElem?_eq_some_iff.mp hy).1
          rw [List.length_singleton] at this
          omega
        rw [hi, List.getElem?_cons_zero] at hy
        cases hy
        rwa [show i = n by omega]
    · rintro ⟨hlen, hget⟩
      have hne : out ≠ [] := fun h => by rw [h] at hlen; cases hlen
      have hsplit := List.dropLast_concat_getLast hne
      have hinit : out.dropLast.length = n := by rw [List.length_dropLast, hlen]; rfl
      refine ⟨out.dropLast, ih.mpr ⟨hinit, fun i x hx => hget i x ?_⟩, ?_⟩
      · rw [← hsplit, List.getElem?_append_left (List.getElem?_eq_some_iff.mp hx).1]
        exact hx
      · have hlast : out[n]? = some (out.getLast hne) := by
          rw [← List.getLast?_eq_some_getLast hne, List.getLast?_eq_getElem?, hlen]
          rfl
        rw [hget n _ hlast, ok_bind, pure_eq_ok, hsplit]

theorem safe_tabulate {P : α → Prop} {f : Nat → Outcome ε α} {n : Nat}
    (hf : ∀ i < n, Safe P (f i)) :
    Safe (fun out => out.length = n ∧ ∀ x ∈ out, P x) (tabulate f n) := by
  induction n with
  | zero => exact ⟨rfl, fun x hx => absurd hx List.not_mem_nil⟩
  | succ n ih =>
    unfold tabulate
    refine safe_bind (ih fun i hi => hf i (Nat.lt_succ_of_lt hi)) fun out hout => ?_
    refine safe_bind (hf n (Nat.lt_succ_self n)) fun x hx => ⟨?_, fun y hy => ?_⟩
    · rw [List.length_append, hout.1]
      rfl
    · rcases List.mem_append.mp hy with h | h
      · exact hout.2 y h
      · rw [List.mem_singleton.mp h]
        exact hx

end Tabulate

/-! ## Errors a computation does not report -/

section Avoids

variable {ε α β : Type} {e : ε}

/-- The computation does not end in the error `e`. -/
def Avoids (e : ε) (x : Outcome ε α) : Prop := x ≠ .error (.err e)

@[simp] theorem avoids_ok (a : α) : Avoids e (.ok a : Outcome ε α) := nofun

@[simp] theorem avoids_pure (a : α) : Avoids e (pure a : Outcome ε α) := nofun

@[simp] theorem avoids_err {e' : ε} : Avoids e (.error (.err e') : Outcome ε α) ↔ e' ≠ e := by
  simp [Avoids]

@[simp] theorem avoids_panic : Avoids e (.error .panic : Outcome ε α) := nofun

@[simp] theorem avoids_diverge : Avoids e (.error .diverge : Outcome ε α) := nofun

@[simp] theorem avoids_throw {f : Fail ε} :
    Avoids e (throw f : Outcome ε α) ↔ f ≠ .err e := by
  simp [Avoids, throw, throwThe, MonadExceptOf.throw]

/-- **The rule for a sequence**: it avoids an error when its parts do. -/
@[simp] theorem avoids_bind {x : Outcome ε α} {f : α → Outcome ε β} :
    Avoids e (x >>= f) ↔ Avoids e x ∧ ∀ a, x = .ok a → Avoids e (f a) := by
  cases x with
  | ok a => simp
  | error g => simp [Avoids]

@[simp] theorem avoids_map {x : Outcome ε α} {g : α → β} : Avoids e (g <$> x) ↔ Avoids e x := by
  cases x with
  | ok a => simp [Avoids, Functor.map, Except.map]
  | error g => simp [Avoids, Functor.map, Except.map]

@[simp] theorem avoids_ite {c : Prop} [Decidable c] {x y : Outcome ε α} :
    Avoids e (if c then x else y) ↔ (c → Avoids e x) ∧ (¬ c → Avoids e y) := by
  split
  · rename_i h
    simp [h]
  · rename_i h
    simp [h]

theorem avoids_foldlM {f : β → α → Outcome ε β} {l : List α} {b : β}
    (hf : ∀ b a, Avoids e (f b a)) : Avoids e (l.foldlM f b) := by
  induction l generalizing b with
  | nil => exact avoids_pure b
  | cons a l ih =>
    rw [List.foldlM_cons]
    exact avoids_bind.mpr ⟨hf b a, fun _ _ => ih⟩

end Avoids

/-! ## Guards -/

/-- `a`, or a panic when the guard `c` fails. -/
def guarded {ε α : Type} (c : Prop) [Decidable c] (a : α) : Outcome ε α :=
  if c then .ok a else .error .panic

theorem guarded_ok {ε α : Type} {c : Prop} [Decidable c] (h : c) (a : α) :
    (guarded c a : Outcome ε α) = .ok a := if_pos h

@[simp] theorem guarded_eq_ok {ε α : Type} {c : Prop} [Decidable c] {a b : α} :
    (guarded c a : Outcome ε α) = .ok b ↔ c ∧ b = a := by
  unfold guarded
  by_cases h : c
  · simp [h, eq_comm]
  · simp [h]

@[simp] theorem returns_guarded {ε α : Type} {c : Prop} [Decidable c] {a : α} :
    Returns (guarded c a : Outcome ε α) ↔ c := by
  unfold guarded
  by_cases h : c
  · simp [h]
  · simp [h, Fail.Reported]

@[simp] theorem gives_guarded {ε α : Type} {c : Prop} [Decidable c] {a : α} {P : α → Prop} :
    Gives P (guarded c a : Outcome ε α) ↔ c ∧ P a := by
  unfold guarded
  by_cases h : c
  · simp [h]
  · simp [h, Gives]

@[simp] theorem avoids_guarded {ε α : Type} {e : ε} {c : Prop} [Decidable c] {a : α} :
    Avoids e (guarded c a : Outcome ε α) := by
  unfold guarded
  exact avoids_ite.mpr ⟨fun _ => avoids_ok a, fun _ => avoids_panic⟩

/-! ## Checked arithmetic -/

section Words

variable {ε : Type}

/-- One above the largest 64-bit word. -/
def wordSize : Nat := 2 ^ 64

/-- The most bytes a slice or a vector can hold. -/
def isizeMax : Nat := 2 ^ 63 - 1

/-- `a + b` on 64-bit words. -/
def add64 (a b : Nat) : Outcome ε Nat :=
  guarded (a + b < wordSize) (a + b)

/-- `a - b` on unsigned words. -/
def sub64 (a b : Nat) : Outcome ε Nat :=
  guarded (b ≤ a) (a - b)

/-- `a * b` on 64-bit words. -/
def mul64 (a b : Nat) : Outcome ε Nat :=
  guarded (a * b < wordSize) (a * b)

/-- `a / b` on unsigned words. -/
def div64 (a b : Nat) : Outcome ε Nat :=
  guarded (b ≠ 0) (a / b)

/-- `a % b` on unsigned words. -/
def rem64 (a b : Nat) : Outcome ε Nat :=
  guarded (b ≠ 0) (a % b)

/-- `x << k` on 32-bit words. -/
def shl32 (x : UInt32) (k : Nat) : Outcome ε UInt32 :=
  guarded (k < 32) (x <<< UInt32.ofNat k)

/-- `x >> k` on 32-bit words. -/
def shr32 (x : UInt32) (k : Nat) : Outcome ε UInt32 :=
  guarded (k < 32) (x >>> UInt32.ofNat k)

/-- `x << k` on 64-bit words. -/
def shl64 (x : UInt64) (k : Nat) : Outcome ε UInt64 :=
  guarded (k < 64) (x <<< UInt64.ofNat k)

/-- `x >> k` on 64-bit words. -/
def shr64 (x : UInt64) (k : Nat) : Outcome ε UInt64 :=
  guarded (k < 64) (x >>> UInt64.ofNat k)

/-- `a.saturating_add(b)` on 64-bit words. -/
def saturatingAdd (a b : Nat) : Nat := min (a + b) (wordSize - 1)

/-- `a.saturating_mul(b)` on 64-bit words. -/
def saturatingMul (a b : Nat) : Nat := min (a * b) (wordSize - 1)

/-- `a.checked_add(b)` on 64-bit words. -/
def checkedAdd (a b : Nat) : Option Nat := if a + b < wordSize then some (a + b) else none

/-- `a.checked_mul(b)` on 64-bit words. -/
def checkedMul (a b : Nat) : Option Nat := if a * b < wordSize then some (a * b) else none

/-- `a.div_ceil(b)` on unsigned words. -/
def divCeil (a b : Nat) : Outcome ε Nat :=
  guarded (b ≠ 0) (if a % b = 0 then a / b else a / b + 1)

theorem add64_ok {a b : Nat} (h : a + b < wordSize) : (add64 a b : Outcome ε Nat) = .ok (a + b) :=
  guarded_ok h _

theorem sub64_ok {a b : Nat} (h : b ≤ a) : (sub64 a b : Outcome ε Nat) = .ok (a - b) :=
  guarded_ok h _

theorem mul64_ok {a b : Nat} (h : a * b < wordSize) : (mul64 a b : Outcome ε Nat) = .ok (a * b) :=
  guarded_ok h _

theorem div64_ok {a b : Nat} (h : b ≠ 0) : (div64 a b : Outcome ε Nat) = .ok (a / b) :=
  guarded_ok h _

theorem rem64_ok {a b : Nat} (h : b ≠ 0) : (rem64 a b : Outcome ε Nat) = .ok (a % b) :=
  guarded_ok h _

theorem add64_eq_ok {a b c : Nat} :
    (add64 a b : Outcome ε Nat) = .ok c ↔ a + b < wordSize ∧ c = a + b := guarded_eq_ok

theorem sub64_eq_ok {a b c : Nat} :
    (sub64 a b : Outcome ε Nat) = .ok c ↔ b ≤ a ∧ c = a - b := guarded_eq_ok

theorem mul64_eq_ok {a b c : Nat} :
    (mul64 a b : Outcome ε Nat) = .ok c ↔ a * b < wordSize ∧ c = a * b := guarded_eq_ok

theorem gives_add64 {a b : Nat} (h : a + b < wordSize) :
    Gives (· = a + b) (add64 a b : Outcome ε Nat) := gives_guarded.mpr ⟨h, rfl⟩

theorem gives_sub64 {a b : Nat} (h : b ≤ a) : Gives (· = a - b) (sub64 a b : Outcome ε Nat) :=
  gives_guarded.mpr ⟨h, rfl⟩

theorem gives_shl32 {x : UInt32} {k : Nat} (h : k < 32) :
    Gives (· = x <<< UInt32.ofNat k) (shl32 x k : Outcome ε UInt32) := gives_guarded.mpr ⟨h, rfl⟩

theorem gives_shl64 {x : UInt64} {k : Nat} (h : k < 64) :
    Gives (· = x <<< UInt64.ofNat k) (shl64 x k : Outcome ε UInt64) := gives_guarded.mpr ⟨h, rfl⟩

theorem gives_shr64 {x : UInt64} {k : Nat} (h : k < 64) :
    Gives (· = x >>> UInt64.ofNat k) (shr64 x k : Outcome ε UInt64) := gives_guarded.mpr ⟨h, rfl⟩

theorem divCeil_ok {a b : Nat} (h : b ≠ 0) :
    (divCeil a b : Outcome ε Nat) = .ok ((a + b - 1) / b) := by
  refine (guarded_ok h _).trans (congrArg Except.ok ?_)
  have hb : 0 < b := Nat.pos_of_ne_zero h
  have hdm := Nat.div_add_mod a b
  split
  · rename_i h0
    symm
    rw [Nat.div_eq_iff hb]
    constructor
    · rw [Nat.mul_comm]; omega
    · rw [Nat.mul_comm]; omega
  · rename_i h0
    have hlt := Nat.mod_lt a hb
    symm
    rw [Nat.div_eq_iff hb, Nat.add_mul, Nat.mul_comm]
    omega

section Avoids

variable {e : ε} {a b : Nat}

@[simp] theorem avoids_add64 : Avoids e (add64 a b) := avoids_guarded

@[simp] theorem avoids_sub64 : Avoids e (sub64 a b) := avoids_guarded

@[simp] theorem avoids_mul64 : Avoids e (mul64 a b) := avoids_guarded

@[simp] theorem avoids_div64 : Avoids e (div64 a b) := avoids_guarded

@[simp] theorem avoids_shl32 {x : UInt32} : Avoids e (shl32 x a) := avoids_guarded

@[simp] theorem avoids_shr32 {x : UInt32} : Avoids e (shr32 x a) := avoids_guarded

@[simp] theorem avoids_shl64 {x : UInt64} : Avoids e (shl64 x a) := avoids_guarded

@[simp] theorem avoids_shr64 {x : UInt64} : Avoids e (shr64 x a) := avoids_guarded

@[simp] theorem avoids_divCeil : Avoids e (divCeil a b) := avoids_guarded

end Avoids

theorem saturatingAdd_eq {a b : Nat} (h : a + b < wordSize) : saturatingAdd a b = a + b :=
  Nat.min_eq_left (by unfold wordSize at *; omega)

theorem le_saturatingAdd {a b : Nat} (h : a < wordSize) : a ≤ saturatingAdd a b := by
  unfold saturatingAdd
  exact Nat.le_min.mpr ⟨Nat.le_add_right _ _, Nat.le_sub_one_of_lt h⟩

theorem saturatingAdd_lt (a b : Nat) : saturatingAdd a b < wordSize := by
  unfold saturatingAdd wordSize
  omega

end Words

/-! ## Checked slices -/

section Slices

variable {ε α : Type}

/-- `b[i]`. -/
def index (b : List α) (i : Nat) : Outcome ε α :=
  match b[i]? with
  | some x => .ok x
  | none => .error .panic

/-- `&b[i..j]`. -/
def slice (b : List α) (i j : Nat) : Outcome ε (List α) :=
  guarded (i ≤ j ∧ j ≤ b.length) ((b.drop i).take (j - i))

/-- `&b[i..]`. -/
def sliceFrom (b : List α) (i : Nat) : Outcome ε (List α) :=
  guarded (i ≤ b.length) (b.drop i)

/-- `b.get(i..j)`. -/
def getSlice (b : List α) (i j : Nat) : Option (List α) :=
  if i ≤ j ∧ j ≤ b.length then some ((b.drop i).take (j - i)) else none

/-- `b.get(i..)`. -/
def getFrom (b : List α) (i : Nat) : Option (List α) :=
  if i ≤ b.length then some (b.drop i) else none

/-- `b[i] = x`. -/
def store (b : List α) (i : Nat) (x : α) : Outcome ε (List α) :=
  guarded (i < b.length) (b.set i x)

/-- `b[i..i + src.len()].copy_from_slice(src)`. -/
def copyInto (b : List α) (i : Nat) (src : List α) : Outcome ε (List α) :=
  guarded (i + src.length ≤ b.length) (b.take i ++ src ++ b.drop (i + src.length))

/-- `b.try_into().unwrap()` to an array of `n` elements. -/
def array (n : Nat) (b : List α) : Outcome ε (List α) :=
  guarded (b.length = n) b

theorem index_ok {b : List α} {i : Nat} (h : i < b.length) :
    (index b i : Outcome ε α) = .ok b[i] := by
  unfold index
  rw [List.getElem?_eq_getElem h]

theorem gives_index {b : List α} {i : Nat} (h : i < b.length) :
    Gives (b[i]? = some ·) (index b i : Outcome ε α) :=
  ⟨b[i], index_ok h, List.getElem?_eq_getElem h⟩

theorem gives_store {b : List α} {i : Nat} {x : α} (h : i < b.length) :
    Gives (·.length = b.length) (store b i x : Outcome ε (List α)) :=
  gives_guarded.mpr ⟨h, List.length_set⟩

theorem gives_copyInto {b src : List α} {i : Nat} (h : i + src.length ≤ b.length) :
    Gives (·.length = b.length) (copyInto b i src : Outcome ε (List α)) := by
  refine gives_guarded.mpr ⟨h, ?_⟩
  simp only [List.length_append, List.length_take, List.length_drop]
  omega

theorem slice_ok {b : List α} {i j : Nat} (hij : i ≤ j) (hj : j ≤ b.length) :
    (slice b i j : Outcome ε (List α)) = .ok ((b.drop i).take (j - i)) :=
  guarded_ok ⟨hij, hj⟩ _

theorem sliceFrom_ok {b : List α} {i : Nat} (h : i ≤ b.length) :
    (sliceFrom b i : Outcome ε (List α)) = .ok (b.drop i) := guarded_ok h _

theorem store_ok {b : List α} {i : Nat} {x : α} (h : i < b.length) :
    (store b i x : Outcome ε (List α)) = .ok (b.set i x) := guarded_ok h _

theorem copyInto_ok {b : List α} {i : Nat} {src : List α} (h : i + src.length ≤ b.length) :
    (copyInto b i src : Outcome ε (List α)) = .ok (b.take i ++ src ++ b.drop (i + src.length)) :=
  guarded_ok h _

/-- What is done of a list is not looked at. -/
theorem index_append (done l : List α) (k : Nat) :
    (index (done ++ l) (done.length + k) : Outcome ε α) = index l k := by
  rw [index, index, List.getElem?_append_right (Nat.le_add_right _ _), Nat.add_sub_cancel_left]

theorem store_append {done l : List α} {k : Nat} {x : α} (h : k < l.length) :
    (store (done ++ l) (done.length + k) x : Outcome ε (List α)) = .ok (done ++ l.set k x) := by
  rw [store_ok (by rw [List.length_append]; omega),
    List.set_append_right _ _ (Nat.le_add_right _ _), Nat.add_sub_cancel_left]

theorem copyInto_append {done u rest src : List α} (h : src.length = u.length) :
    (copyInto (done ++ (u ++ rest)) done.length src : Outcome ε (List α)) =
      .ok (done ++ (src ++ rest)) := by
  rw [copyInto_ok (by simp only [List.length_append]; omega), List.take_left, h,
    ← List.drop_drop, List.drop_left, List.drop_left, List.append_assoc]

theorem array_ok {n : Nat} {b : List α} (h : b.length = n) :
    (array n b : Outcome ε (List α)) = .ok b := guarded_ok h _

section Avoids

variable {e : ε} {b src : List α} {i j : Nat}

@[simp] theorem avoids_index : Avoids e (index b i) := by
  unfold index
  cases b[i]? with
  | none => exact avoids_panic
  | some x => exact avoids_ok x

@[simp] theorem avoids_slice : Avoids e (slice b i j) := avoids_guarded

@[simp] theorem avoids_sliceFrom : Avoids e (sliceFrom b i) := avoids_guarded

@[simp] theorem avoids_store {x : α} : Avoids e (store b i x) := avoids_guarded

@[simp] theorem avoids_array : Avoids e (array i b) := avoids_guarded

end Avoids

theorem index_eq_ok {b : List α} {i : Nat} {x : α} :
    (index b i : Outcome ε α) = .ok x ↔ b[i]? = some x := by
  unfold index
  cases b[i]? <;> simp

theorem slice_eq_ok {b s : List α} {i j : Nat} :
    (slice b i j : Outcome ε (List α)) = .ok s ↔
      (i ≤ j ∧ j ≤ b.length) ∧ s = (b.drop i).take (j - i) := guarded_eq_ok

theorem sliceFrom_eq_ok {b s : List α} {i : Nat} :
    (sliceFrom b i : Outcome ε (List α)) = .ok s ↔ i ≤ b.length ∧ s = b.drop i := guarded_eq_ok

theorem array_eq_ok {n : Nat} {b s : List α} :
    (array n b : Outcome ε (List α)) = .ok s ↔ b.length = n ∧ s = b := guarded_eq_ok

theorem getSlice_eq_some {b s : List α} {i j : Nat} :
    getSlice b i j = some s ↔ (i ≤ j ∧ j ≤ b.length) ∧ s = (b.drop i).take (j - i) := by
  unfold getSlice
  by_cases h : i ≤ j ∧ j ≤ b.length
  · simp [h, eq_comm]
  · rw [if_neg h]; simp [h]

theorem getFrom_eq_some {b s : List α} {i : Nat} :
    getFrom b i = some s ↔ i ≤ b.length ∧ s = b.drop i := by
  unfold getFrom
  by_cases h : i ≤ b.length
  · simp [h, eq_comm]
  · simp [h]

end Slices

end Squashfs.Foundation
