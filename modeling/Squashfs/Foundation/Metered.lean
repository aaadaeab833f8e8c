import Squashfs.Foundation.Outcome

/-!
# Computations with a meter

A `Metered` computation ends as an `Outcome` does, and shows on the way how much it holds: `meter n`
is a reading of `n`, and the readings stay when it fails. Its `result` alone is the computation
without the meter (`result_bind`).

**`Below.bind`** bounds every reading of a computation construct by construct, and `Covers.bind`
shows that what it gives was read: no reading was left out.
-/

namespace Squashfs.Foundation

/-- How a computation ended, and the readings of its meter, in order. -/
structure Metered (ε α : Type) where
  result : Outcome ε α
  readings : List Nat

namespace Metered

variable {ε ε' α β : Type}

/-- One computation after the other: a failed one is the last. -/
protected def bind (x : Metered ε α) (f : α → Metered ε β) : Metered ε β :=
  match x.result with
  | .ok a => ⟨(f a).result, x.readings ++ (f a).readings⟩
  | .error e => ⟨.error e, x.readings⟩

instance instMonad : Monad (Metered ε) where
  pure a := ⟨.ok a, []⟩
  bind := Metered.bind

/-- A computation without a meter shows nothing. -/
instance instMonadLift : MonadLift (Except (Fail ε)) (Metered ε) := ⟨fun x => ⟨x, []⟩⟩

/-- A reading. -/
def meter (n : Nat) : Metered ε Unit := ⟨.ok (), [n]⟩

/-- An error told in other words. -/
def mapErr (g : ε → ε') (x : Metered ε α) : Metered ε' α :=
  ⟨Foundation.mapErr g x.result, x.readings⟩

/-- What is held on top of `k` held already. -/
def above (k : Nat) (x : Metered ε α) : Metered ε α := ⟨x.result, x.readings.map (k + ·)⟩

/-! ## The result -/

@[simp] theorem result_pure (a : α) : (pure a : Metered ε α).result = .ok a := rfl

@[simp] theorem result_lift (x : Outcome ε α) : (liftM x : Metered ε α).result = x := rfl

@[simp] theorem result_meter (n : Nat) : (meter n : Metered ε Unit).result = .ok () := rfl

@[simp] theorem result_mapErr (g : ε → ε') (x : Metered ε α) :
    (x.mapErr g).result = Foundation.mapErr g x.result := rfl

@[simp] theorem result_above (k : Nat) (x : Metered ε α) : (x.above k).result = x.result := rfl

/-- **The meter changes no result.** -/
@[simp] theorem result_bind (x : Metered ε α) (f : α → Metered ε β) :
    (x >>= f).result = x.result >>= fun a => (f a).result := by
  show (Metered.bind x f).result = _
  unfold Metered.bind
  cases x.result <;> rfl

@[simp] theorem result_ite (c : Prop) [Decidable c] (x y : Metered ε α) :
    (if c then x else y).result = if c then x.result else y.result := by
  split <;> rfl

/-! ## Bounds -/

/-- No reading is above `n`, and a value is as `P` has it. -/
structure Below (n : Nat) (P : α → Prop) (x : Metered ε α) : Prop where
  readings_le : ∀ r ∈ x.readings, r ≤ n
  value : ∀ a, x.result = .ok a → P a

variable {n : Nat} {P : α → Prop} {P' : β → Prop} {x y : Metered ε α} {f : α → Metered ε β}

theorem below_pure {a : α} (h : P a) : Below n P (pure a : Metered ε α) :=
  ⟨nofun, fun b hb => by cases hb; exact h⟩

theorem below_lift {x : Outcome ε α} (h : ∀ a, x = .ok a → P a) :
    Below n P (liftM x : Metered ε α) := ⟨nofun, h⟩

theorem below_meter {k : Nat} {P : Unit → Prop} (hk : k ≤ n) (h : P ()) :
    Below n P (meter k : Metered ε Unit) :=
  ⟨fun _ hr => List.mem_singleton.mp hr ▸ hk, fun _ _ => h⟩

theorem below_ite {c : Prop} [Decidable c] (hx : c → Below n P x) (hy : ¬ c → Below n P y) :
    Below n P (if c then x else y) := by
  split
  · exact hx ‹c›
  · exact hy ‹¬ c›

theorem Below.mono {Q : α → Prop} (h : Below n P x) (hP : ∀ a, P a → Q a) : Below n Q x :=
  ⟨h.readings_le, fun a ha => hP a (h.value a ha)⟩

theorem Below.bind (hx : Below n P x) (hf : ∀ a, P a → Below n P' (f a)) :
    Below n P' (x >>= f) := by
  show Below n P' (Metered.bind x f)
  unfold Metered.bind
  cases hr : x.result with
  | error e => exact ⟨hx.readings_le, nofun⟩
  | ok a =>
    have hfa := hf a (hx.value a hr)
    refine ⟨fun r h => ?_, hfa.value⟩
    rcases List.mem_append.mp h with h | h
    · exact hx.readings_le r h
    · exact hfa.readings_le r h

theorem Below.mapErr {g : ε → ε'} (h : Below n P x) : Below n P (x.mapErr g) :=
  ⟨h.readings_le, fun a ha => h.value a (mapErr_eq_ok.mp ha)⟩

theorem Below.above {k m : Nat} (h : Below m P x) (hm : k + m ≤ n) : Below n P (x.above k) := by
  refine ⟨fun r hr => ?_, h.value⟩
  obtain ⟨r', hr', rfl⟩ := List.mem_map.mp hr
  exact Nat.le_trans (Nat.add_le_add_left (h.readings_le r' hr') k) hm

/-! ## Nothing is left out -/

/-- Beyond the first `k`, every unit of what the computation gives was held at some reading. -/
def Covers (k : Nat) (size : α → Nat) (x : Metered ε α) : Prop :=
  ∀ a, x.result = .ok a → ∀ m, k ≤ m → m < size a → ∃ r ∈ x.readings, m < r

variable {k : Nat} {size : α → Nat} {size' : β → Nat}

theorem covers_of_le (h : ∀ a, x.result = .ok a → size a ≤ k) : Covers k size x :=
  fun a ha _ hle hlt => absurd (Nat.lt_of_lt_of_le hlt (h a ha)) (Nat.not_lt_of_le hle)

theorem covers_ite {c : Prop} [Decidable c] (hx : c → Covers k size x)
    (hy : ¬ c → Covers k size y) : Covers k size (if c then x else y) := by
  split
  · exact hx ‹c›
  · exact hy ‹¬ c›

theorem Covers.bind (hx : Covers k size x)
    (hf : ∀ a, x.result = .ok a → Covers (size a) size' (f a)) : Covers k size' (x >>= f) := by
  intro b hb m hle hlt
  change (Metered.bind x f).result = _ at hb
  show ∃ r ∈ (Metered.bind x f).readings, m < r
  unfold Metered.bind at hb ⊢
  cases hr : x.result with
  | error e =>
    rw [hr] at hb
    cases hb
  | ok a =>
    rw [hr] at hb
    by_cases hm : m < size a
    · obtain ⟨r, hmem, hlt⟩ := hx a hr m hle hm
      exact ⟨r, List.mem_append_left _ hmem, hlt⟩
    · obtain ⟨r, hmem, hlt⟩ := hf a hr b hb m (Nat.le_of_not_lt hm) hlt
      exact ⟨r, List.mem_append_right _ hmem, hlt⟩

theorem Covers.mapErr {g : ε → ε'} (h : Covers k size x) : Covers k size (x.mapErr g) :=
  fun a ha => h a (mapErr_eq_ok.mp ha)

theorem Covers.above {j : Nat} (h : Covers 0 size x) :
    Covers j (fun a => j + size a) (x.above j) := by
  intro a ha m hle hlt
  have hlt : m < j + size a := hlt
  obtain ⟨r, hr, hlt⟩ := h a ha (m - j) (Nat.zero_le _) (by omega)
  exact ⟨j + r, List.mem_map_of_mem hr, by omega⟩

/-- All that is given was held at one reading. -/
theorem Covers.read (h : Covers 0 size x) {a : α} (ha : x.result = .ok a) :
    size a = 0 ∨ ∃ r ∈ x.readings, size a ≤ r := by
  by_cases hzero : size a = 0
  · exact .inl hzero
  · obtain ⟨r, hr, hlt⟩ := h a ha (size a - 1) (Nat.zero_le _) (by omega)
    exact .inr ⟨r, hr, by omega⟩

end Metered

end Squashfs.Foundation
