import Mathlib.Data.List.Infix
import Squashfs.Foundation.Query

/-!
# Readers of a stream

A `Stateful` program often reads a stream it does not hold: its state can produce the next items,
and each read moves it on. `Source` says what such a state is (`Inv`) and which words the stream
ahead of it begins with (`Feeds`).

* `Keeps` is safety: from a state of the source the program ends in a value or a reported error
  and leaves a state of the source.
* `Parses m G` is exactness: the program `m` succeeds with `a` exactly on the streams that begin
  with a word `w` the grammar `G` gives `a`, and it consumes `w` and nothing else.

Both are closed under sequencing (`keeps_bind`, **`parses_bind`**), choice, and loops
(`parses_collect`), so the grammar of a whole reader is read off its code.
-/

namespace Squashfs.Foundation

/-- The states of a reader, and the words the stream ahead of each begins with. -/
structure Source (σ τ : Type) where
  Inv : σ → Prop
  Feeds : σ → List τ → Prop
  feeds_nil : ∀ {s}, Inv s → Feeds s []
  feeds_prefix : ∀ {s} (w v), Feeds s (w ++ v) → Feeds s w

variable {Q : Type} {A : Q → Type} {ε σ τ α β : Type}

open Stateful

/-- Run `m` `n` times and collect its values. -/
def collect (m : Stateful Q A ε σ α) : Nat → Stateful Q A ε σ (List α)
  | 0 => pure []
  | n + 1 => do
    let a ← m
    let as ← collect m n
    return a :: as

/-! ## Safety -/

/-- From a state with `I`, the program returns a value with `P` or a reported error, and leaves a
state with `I`. -/
def Keeps (f : ∀ q, A q) (I : σ → Prop) (P : α → Prop) (m : Stateful Q A ε σ α) : Prop :=
  ∀ s, I s → Safe P (exec f m s).1 ∧ I (exec f m s).2

section Keeps

variable {f : ∀ q, A q} {I : σ → Prop} {P : α → Prop} {R : β → Prop}

theorem keeps_pure {a : α} (h : P a) : Keeps f I P (pure a : Stateful Q A ε σ α) :=
  fun _ hs => ⟨h, hs⟩

theorem keeps_throw {e : ε} : Keeps f I P (throw (.err e) : Stateful Q A ε σ α) :=
  fun _ hs => ⟨trivial, hs⟩

theorem keeps_lift {x : Outcome ε α} (h : Safe P x) :
    Keeps f I P (liftM x : Stateful Q A ε σ α) := by
  intro s hs
  rw [exec_lift]
  exact ⟨h, hs⟩

theorem keeps_ofAsking {m : Asking Q A ε α} (h : Safe P (Asking.exec f m)) :
    Keeps f I P (ofAsking m : Stateful Q A ε σ α) := by
  intro s hs
  rw [exec_ofAsking]
  exact ⟨h, hs⟩

theorem keeps_bind {m : Stateful Q A ε σ α} {k : α → Stateful Q A ε σ β} (hm : Keeps f I P m)
    (hk : ∀ a, P a → Keeps f I R (k a)) : Keeps f I R (m >>= k) := by
  intro s hs
  obtain ⟨h1, h2⟩ := hm s hs
  rw [exec_bind]
  rcases hrun : exec f m s with ⟨x, s'⟩
  rw [hrun] at h1 h2
  cases x with
  | ok a => exact hk a h1 s' h2
  | error e => exact ⟨h1, h2⟩

theorem keeps_ite {c : Prop} [Decidable c] {m m' : Stateful Q A ε σ α} (hm : c → Keeps f I P m)
    (hm' : ¬ c → Keeps f I P m') : Keeps f I P (if c then m else m') := by
  split
  · rename_i h; exact hm h
  · rename_i h; exact hm' h

theorem Keeps.mono {P' : α → Prop} {m : Stateful Q A ε σ α} (h : Keeps f I P m)
    (hP : ∀ a, P a → P' a) : Keeps f I P' m :=
  fun s hs => ⟨(h s hs).1.mono hP, (h s hs).2⟩

end Keeps

/-! ## Grammars -/

/-- `s'` is `s` after it consumed the word `w`. -/
structure Source.After (S : Source σ τ) (s : σ) (w : List τ) (s' : σ) : Prop where
  inv : S.Inv s'
  feeds : S.Feeds s w
  rest : ∀ v, S.Feeds s' v ↔ S.Feeds s (w ++ v)

theorem Source.After.nil {S : Source σ τ} {s : σ} (h : S.Inv s) : S.After s [] s :=
  ⟨h, S.feeds_nil h, fun _ => Iff.rfl⟩

theorem Source.After.trans {S : Source σ τ} {s s' s'' : σ} {w w' : List τ}
    (h : S.After s w s') (h' : S.After s' w' s'') : S.After s (w ++ w') s'' :=
  ⟨h'.inv, (h.rest w').mp h'.feeds, fun v => by
    rw [h'.rest, h.rest, List.append_assoc]⟩

/-- `m` succeeds exactly on the streams that begin with a word of `G`, and consumes that word. -/
structure Parses (f : ∀ q, A q) (S : Source σ τ) (m : Stateful Q A ε σ α)
    (G : List τ → α → Prop) : Prop where
  sound : ∀ {s s' a}, S.Inv s → exec f m s = (.ok a, s') → ∃ w, G w a ∧ S.After s w s'
  complete : ∀ {s w a}, S.Inv s → S.Feeds s w → G w a →
    ∃ s', exec f m s = (.ok a, s') ∧ S.After s w s'

section Parses

variable {f : ∀ q, A q} {S : Source σ τ} {G G' : List τ → α → Prop}
  {H : α → List τ → β → Prop}

/-- A program that reads nothing. -/
theorem parses_lift (x : Outcome ε α) :
    Parses f S (liftM x : Stateful Q A ε σ α) fun w a => w = [] ∧ x = .ok a where
  sound {s s' a} hs h := by
    rw [exec_lift] at h
    obtain ⟨hx, rfl⟩ := Prod.mk.inj h
    exact ⟨[], ⟨rfl, hx⟩, .nil hs⟩
  complete {s w a} hs _ hG := by
    obtain ⟨rfl, rfl⟩ := hG
    exact ⟨s, exec_lift _ _ _, .nil hs⟩

theorem parses_ofAsking (m : Asking Q A ε α) :
    Parses f S (ofAsking m : Stateful Q A ε σ α) fun w a => w = [] ∧ Asking.exec f m = .ok a where
  sound {s s' a} hs h := by
    rw [exec_ofAsking] at h
    obtain ⟨hx, rfl⟩ := Prod.mk.inj h
    exact ⟨[], ⟨rfl, hx⟩, .nil hs⟩
  complete {s w a} hs _ hG := by
    obtain ⟨rfl, hx⟩ := hG
    exact ⟨s, by rw [exec_ofAsking, hx], .nil hs⟩

theorem parses_pure (a : α) :
    Parses f S (pure a : Stateful Q A ε σ α) fun w b => w = [] ∧ b = a where
  sound {s s' b} hs h := by
    cases h
    exact ⟨[], ⟨rfl, rfl⟩, .nil hs⟩
  complete {s w b} hs _ hG := by
    obtain ⟨rfl, rfl⟩ := hG
    exact ⟨s, rfl, .nil hs⟩

theorem parses_throw (e : Fail ε) :
    Parses f S (throw e : Stateful Q A ε σ α) fun _ _ => False where
  sound _ h := by cases h
  complete _ _ hG := hG.elim

/-- **The rule for a sequence**: its words are a word of the first part, then one of the second. -/
theorem parses_bind {m : Stateful Q A ε σ α} {k : α → Stateful Q A ε σ β} (hm : Parses f S m G)
    (hk : ∀ a, Parses f S (k a) (H a)) :
    Parses f S (m >>= k) fun w b => ∃ a w₁ w₂, w = w₁ ++ w₂ ∧ G w₁ a ∧ H a w₂ b where
  sound {s s'' b} hs h := by
    obtain ⟨a, s', h1, h2⟩ := exec_bind_eq_ok.mp h
    obtain ⟨w₁, hG, hA⟩ := hm.sound hs h1
    obtain ⟨w₂, hH, hA'⟩ := (hk a).sound hA.inv h2
    exact ⟨w₁ ++ w₂, ⟨a, w₁, w₂, rfl, hG, hH⟩, hA.trans hA'⟩
  complete {s w b} hs hfeeds hG := by
    obtain ⟨a, w₁, w₂, rfl, hG, hH⟩ := hG
    obtain ⟨s', h1, hA⟩ := hm.complete hs (S.feeds_prefix _ _ hfeeds) hG
    obtain ⟨s'', h2, hA'⟩ := (hk a).complete hA.inv ((hA.rest w₂).mpr hfeeds) hH
    exact ⟨s'', by rw [exec_bind_ok h1, h2], hA.trans hA'⟩

theorem Parses.congr {m : Stateful Q A ε σ α} (h : Parses f S m G)
    (hG : ∀ w a, G w a ↔ G' w a) : Parses f S m G' where
  sound hs he := by
    obtain ⟨w, hw, hA⟩ := h.sound hs he
    exact ⟨w, (hG _ _).mp hw, hA⟩
  complete hs hf hw := h.complete hs hf ((hG _ _).mpr hw)

/-- A sequence that begins with one word of a code. -/
theorem parses_word_bind {m : Stateful Q A ε σ α} {k : α → Stateful Q A ε σ β}
    {enc : α → List τ} (hm : Parses f S m fun w a => w = enc a) (hk : ∀ a, Parses f S (k a) (H a)) :
    Parses f S (m >>= k) fun w b => ∃ a v, w = enc a ++ v ∧ H a v b :=
  (parses_bind hm hk).congr fun _ _ =>
    ⟨fun ⟨a, _, v, hw, ha, hb⟩ => ⟨a, v, ha ▸ hw, hb⟩, fun ⟨a, v, hw, hb⟩ => ⟨a, _, v, hw, rfl, hb⟩⟩

/-- A sequence that begins with a computation that reads nothing. -/
theorem parses_lift_bind {x : Outcome ε α} {k : α → Stateful Q A ε σ β}
    (hk : ∀ a, Parses f S (k a) (H a)) :
    Parses f S ((liftM x : Stateful Q A ε σ α) >>= k) fun w b => ∃ a, x = .ok a ∧ H a w b :=
  (parses_bind (parses_lift x) hk).congr fun w b =>
    ⟨fun ⟨a, _, v, hw, ⟨hnil, hx⟩, hb⟩ => ⟨a, hx, by subst hnil; subst hw; exact hb⟩,
      fun ⟨a, hx, hb⟩ => ⟨a, [], w, rfl, ⟨rfl, hx⟩, hb⟩⟩

theorem parses_ite {c : Prop} [Decidable c] {m m' : Stateful Q A ε σ α}
    (hm : c → Parses f S m G) (hm' : ¬ c → Parses f S m' G') :
    Parses f S (if c then m else m') fun w a => (c ∧ G w a) ∨ (¬ c ∧ G' w a) := by
  split
  · rename_i h
    exact (hm h).congr fun w a => ⟨fun hG => .inl ⟨h, hG⟩, fun hG => hG.elim (·.2) fun h' =>
      absurd h h'.1⟩
  · rename_i h
    exact (hm' h).congr fun w a => ⟨fun hG => .inr ⟨h, hG⟩, fun hG => hG.elim (fun h' =>
      absurd h'.1 h) (·.2)⟩

/-- The words of a list of values, one after the other. -/
inductive Words (G : List τ → α → Prop) : List τ → List α → Prop
  | nil : Words G [] []
  | cons {w v a as} (hd : G w a) (tl : Words G v as) : Words G (w ++ v) (a :: as)

theorem Words.mono (h : ∀ w a, G w a → G' w a) {w : List τ} {as : List α} (hw : Words G w as) :
    Words G' w as := by
  induction hw with
  | nil => exact .nil
  | cons hd _ ih => exact .cons (h _ _ hd) ih

/-- The words of a code spell the values' codes one after the other. -/
theorem words_code {enc : α → List τ} {w : List τ} {as : List α} :
    Words (fun v a => v = enc a) w as ↔ w = (as.map enc).flatten := by
  constructor
  · intro h
    induction h with
    | nil => rfl
    | cons hd tl ih => rw [hd, ih, List.map_cons, List.flatten_cons]
  · rintro rfl
    induction as with
    | nil => exact .nil
    | cons a as ih => exact .cons rfl ih

/-- **The rule for a counted loop**: its words are the words of its values in order. -/
theorem parses_collect {m : Stateful Q A ε σ α} (hm : Parses f S m G) (n : Nat) :
    Parses f S (collect m n) fun w as => as.length = n ∧ Words G w as := by
  induction n with
  | zero =>
    refine (parses_pure []).congr fun w as => ⟨?_, ?_⟩
    · rintro ⟨rfl, rfl⟩; exact ⟨rfl, .nil⟩
    · rintro ⟨hlen, hw⟩
      cases hw with
      | nil => exact ⟨rfl, rfl⟩
      | cons hd tl => cases hlen
  | succ n ih =>
    refine (parses_bind hm fun a => parses_bind ih fun as => parses_pure (a :: as)).congr
      fun w bs => ⟨?_, ?_⟩
    · rintro ⟨a, w₁, w₂, rfl, hG, as, w₃, w₄, rfl, ⟨rfl, hws⟩, rfl, rfl⟩
      refine ⟨rfl, ?_⟩
      rw [List.append_nil]
      exact .cons hG hws
    · rintro ⟨hlen, hw⟩
      cases hw with
      | nil => cases hlen
      | @cons w v a as hd tl =>
        exact ⟨a, w, v, rfl, hd, as, v, [], (List.append_nil v).symm,
          ⟨Nat.succ.inj hlen, tl⟩, rfl, rfl⟩

end Parses

end Squashfs.Foundation
