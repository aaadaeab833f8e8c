import Squashfs.Foundation.Outcome

/-!
# Programs that ask questions

`Query Q A α` is a computation that may stop and ask a question `q : Q`, gets an answer in
`A q`, and goes on from there. What answers the questions is not part of the program: `run`
answers each one from a function (no memory, no interference), `Memo.lean` lets many programs
share caches that answer some of them.

Two towers stand on it. `Asking Q A ε α` can also fail; `Stateful Q A ε σ α` can fail and
changes a state `σ`, which survives the failure (the `&mut self` of a method that returns early).
`run` and `exec` turn both into plain functions, and commute with sequencing.

`RefinesAt` says that a program does on one kind of state what another does on its image, with a
rule for each construct.
-/

namespace Squashfs.Foundation

/-- A program asking questions `q : Q` with answers in `A q`. -/
inductive Query (Q : Type) (A : Q → Type) (α : Type) where
  | ret (a : α)
  | ask (q : Q) (k : A q → Query Q A α)

namespace Query

variable {Q : Type} {A : Q → Type} {α β γ : Type}

/-- Sequence two programs. -/
def bind : Query Q A α → (α → Query Q A β) → Query Q A β
  | .ret a, f => f a
  | .ask q k, f => .ask q fun r => (k r).bind f

instance : Monad (Query Q A) where
  pure := .ret
  bind := bind

theorem bind_ret (p : Query Q A α) : p.bind .ret = p := by
  induction p with
  | ret a => rfl
  | ask q k ih => exact congrArg (Query.ask q) (funext ih)

theorem bind_assoc (p : Query Q A α) (f : α → Query Q A β) (g : β → Query Q A γ) :
    (p.bind f).bind g = p.bind fun a => (f a).bind g := by
  induction p with
  | ret a => rfl
  | ask q k ih => exact congrArg (Query.ask q) (funext ih)

instance : LawfulMonad (Query Q A) :=
  LawfulMonad.mk' _ bind_ret (fun _ _ => rfl) bind_assoc

/-- The program's result when every question `q` is answered by `f q`. -/
def run (f : ∀ q, A q) : Query Q A α → α
  | .ret a => a
  | .ask q k => (k (f q)).run f

@[simp] theorem run_pure (f : ∀ q, A q) (a : α) : (pure a : Query Q A α).run f = a := rfl

@[simp] theorem run_bind (f : ∀ q, A q) (p : Query Q A α) (g : α → Query Q A β) :
    (p >>= g).run f = (g (p.run f)).run f := by
  induction p with
  | ret a => rfl
  | ask q k ih => exact ih (f q)

@[simp] theorem run_map (f : ∀ q, A q) (g : α → β) (p : Query Q A α) :
    (g <$> p).run f = g (p.run f) := by
  rw [← bind_pure_comp, run_bind, run_pure]

end Query

/-! ## Programs that may fail -/

/-- A program that may fail. -/
abbrev Asking (Q : Type) (A : Q → Type) (ε α : Type) := ExceptT (Fail ε) (Query Q A) α

namespace Asking

variable {Q : Type} {A : Q → Type} {ε α β : Type}

/-- Run a program that may fail. -/
def exec (f : ∀ q, A q) (m : Asking Q A ε α) : Outcome ε α := Query.run f m.run

@[simp] theorem exec_pure (f : ∀ q, A q) (a : α) : exec f (pure a : Asking Q A ε α) = .ok a := rfl

@[simp] theorem exec_throw (f : ∀ q, A q) (e : Fail ε) :
    exec f (throw e : Asking Q A ε α) = .error e := rfl

@[simp] theorem exec_lift (f : ∀ q, A q) (x : Outcome ε α) :
    exec f (liftM x : Asking Q A ε α) = x := rfl

@[simp] theorem exec_bind (f : ∀ q, A q) (m : Asking Q A ε α) (g : α → Asking Q A ε β) :
    exec f (m >>= g) = exec f m >>= fun a => exec f (g a) := by
  unfold exec
  rw [ExceptT.run_bind, Query.run_bind]
  cases Query.run f m.run <;> rfl

@[simp] theorem exec_ite (f : ∀ q, A q) (c : Prop) [Decidable c] (m m' : Asking Q A ε α) :
    exec f (if c then m else m') = if c then exec f m else exec f m' := by
  split <;> rfl

/-- The program with its errors translated. -/
def mapErr {ε' : Type} (g : ε → ε') (m : Asking Q A ε α) : Asking Q A ε' α :=
  ExceptT.mk (Foundation.mapErr g <$> m.run)

@[simp] theorem exec_mapErr {ε' : Type} (f : ∀ q, A q) (g : ε → ε') (m : Asking Q A ε α) :
    exec f (mapErr g m) = Foundation.mapErr g (exec f m) := Query.run_map f _ _

end Asking

/-! ## Programs that may fail and change a state -/

/-- A program that changes a state and may fail; the state survives a failure. -/
abbrev Stateful (Q : Type) (A : Q → Type) (ε σ α : Type) :=
  ExceptT (Fail ε) (StateT σ (Query Q A)) α

namespace Stateful

variable {Q : Type} {A : Q → Type} {ε σ α β : Type}

/-- Run a stateful program from the state `s`. -/
def exec (f : ∀ q, A q) (m : Stateful Q A ε σ α) (s : σ) : Outcome ε α × σ :=
  Query.run f (StateT.run m.run s)

/-- The stateful program run from `s`, its final state dropped. -/
def eval (m : Stateful Q A ε σ α) (s : σ) : Asking Q A ε α :=
  ExceptT.mk (Prod.fst <$> StateT.run m.run s)

/-- A program without state, inside one with a state. -/
def ofAsking (m : Asking Q A ε α) : Stateful Q A ε σ α :=
  ExceptT.mk (StateT.lift m.run)

@[simp] theorem exec_pure (f : ∀ q, A q) (a : α) (s : σ) :
    exec f (pure a : Stateful Q A ε σ α) s = (.ok a, s) := rfl

@[simp] theorem exec_throw (f : ∀ q, A q) (e : Fail ε) (s : σ) :
    exec f (throw e : Stateful Q A ε σ α) s = (.error e, s) := rfl

@[simp] theorem exec_lift (f : ∀ q, A q) (x : Outcome ε α) (s : σ) :
    exec f (liftM x : Stateful Q A ε σ α) s = (x, s) := rfl

@[simp] theorem exec_get (f : ∀ q, A q) (s : σ) :
    exec f (get : Stateful Q A ε σ σ) s = (.ok s, s) := rfl

@[simp] theorem exec_set (f : ∀ q, A q) (s s' : σ) :
    exec f (set s' : Stateful Q A ε σ PUnit) s = (.ok ⟨⟩, s') := rfl

@[simp] theorem exec_ofAsking (f : ∀ q, A q) (m : Asking Q A ε α) (s : σ) :
    exec f (ofAsking m : Stateful Q A ε σ α) s = (Asking.exec f m, s) := by
  unfold exec ofAsking Asking.exec
  show Query.run f (StateT.lift m.run s) = _
  unfold StateT.lift
  rw [Query.run_bind, Query.run_pure]

theorem exec_bind (f : ∀ q, A q) (m : Stateful Q A ε σ α) (g : α → Stateful Q A ε σ β) (s : σ) :
    exec f (m >>= g) s =
      match exec f m s with
      | (.ok a, s') => exec f (g a) s'
      | (.error e, s') => (.error e, s') := by
  unfold exec
  rw [ExceptT.run_bind, StateT.run_bind, Query.run_bind]
  rcases Query.run f (StateT.run m.run s) with ⟨_ | _, _⟩ <;> rfl

/-- A program that gives a value leaves some state. -/
theorem exec_of_fst {f : ∀ q, A q} {m : Stateful Q A ε σ α} {s : σ} {a : α}
    (h : (exec f m s).1 = .ok a) : ∃ s', exec f m s = (.ok a, s') := ⟨_, by rw [← h]⟩

/-- A sequence succeeds exactly when its parts do, one after the other. -/
theorem exec_bind_eq_ok {f : ∀ q, A q} {m : Stateful Q A ε σ α} {g : α → Stateful Q A ε σ β}
    {s s'' : σ} {b : β} :
    exec f (m >>= g) s = (.ok b, s'') ↔
      ∃ a s', exec f m s = (.ok a, s') ∧ exec f (g a) s' = (.ok b, s'') := by
  rw [exec_bind]
  rcases exec f m s with ⟨_ | a, s'⟩
  · simp
  · simp

theorem exec_bind_ok {f : ∀ q, A q} {m : Stateful Q A ε σ α} {g : α → Stateful Q A ε σ β}
    {s s' : σ} {a : α} (h : exec f m s = (.ok a, s')) :
    exec f (m >>= g) s = exec f (g a) s' := by
  rw [exec_bind, h]

theorem exec_lift_bind {f : ∀ q, A q} {x : Outcome ε α} {g : α → Stateful Q A ε σ β} {s : σ} {a : α}
    (h : x = .ok a) : exec f ((liftM x : Stateful Q A ε σ α) >>= g) s = exec f (g a) s :=
  exec_bind_ok (by rw [exec_lift, h])

theorem exec_lift_bind_error {f : ∀ q, A q} {x : Outcome ε α} {g : α → Stateful Q A ε σ β} {s : σ}
    {e : Fail ε} (h : x = .error e) :
    exec f ((liftM x : Stateful Q A ε σ α) >>= g) s = (.error e, s) := by
  rw [exec_bind, exec_lift, h]

theorem exec_ofAsking_bind {f : ∀ q, A q} {m : Asking Q A ε α} {g : α → Stateful Q A ε σ β} {s : σ}
    {a : α} (h : Asking.exec f m = .ok a) :
    exec f ((ofAsking m : Stateful Q A ε σ α) >>= g) s = exec f (g a) s :=
  exec_bind_ok (by rw [exec_ofAsking, h])

theorem exec_get_bind {f : ∀ q, A q} {g : σ → Stateful Q A ε σ β} {s : σ} :
    exec f ((get : Stateful Q A ε σ σ) >>= g) s = exec f (g s) s := exec_bind_ok (exec_get f s)

theorem exec_set_bind {f : ∀ q, A q} {g : PUnit → Stateful Q A ε σ β} {s s' : σ} :
    exec f ((set s' : Stateful Q A ε σ PUnit) >>= g) s = exec f (g ⟨⟩) s' :=
  exec_bind_ok (exec_set f s s')

@[simp] theorem exec_eval (f : ∀ q, A q) (m : Stateful Q A ε σ α) (s : σ) :
    Asking.exec f (m.eval s) = (exec f m s).1 := by
  unfold Asking.exec eval exec
  exact Query.run_map f _ _

/-- The program with its failure handed to the caller, who goes on from the state it left. -/
def attempt (m : Stateful Q A ε σ α) : Stateful Q A ε σ (Outcome ε α) :=
  ExceptT.mk (.ok <$> m.run)

@[simp] theorem exec_attempt (f : ∀ q, A q) (m : Stateful Q A ε σ α) (s : σ) :
    exec f (attempt m) s = (.ok (exec f m s).1, (exec f m s).2) := by
  unfold exec attempt
  rw [ExceptT.run_mk, StateT.run_map, Query.run_map]

end Stateful

/-! ## One state in place of another -/

section Refines

variable {Q : Type} {A : Q → Type} {ε σ τ α β : Type}

/-- From `s`, `m` does what `m'` does from `g s`, and ends in a state with `P`. -/
structure RefinesAt (f : ∀ q, A q) (g : σ → τ) (P : σ → Prop) (s : σ) (m : Stateful Q A ε σ α)
    (m' : Stateful Q A ε τ α) : Prop where
  same : Stateful.exec f m' (g s) = ((Stateful.exec f m s).1, g (Stateful.exec f m s).2)
  keeps : P (Stateful.exec f m s).2

variable {f : ∀ q, A q} {g : σ → τ} {P : σ → Prop} {s : σ}

theorem refinesAt_bind {m : Stateful Q A ε σ α} {m' : Stateful Q A ε τ α}
    {k : α → Stateful Q A ε σ β} {k' : α → Stateful Q A ε τ β} (h : RefinesAt f g P s m m')
    (hk : ∀ a s', P s' → RefinesAt f g P s' (k a) (k' a)) :
    RefinesAt f g P s (m >>= k) (m' >>= k') := by
  obtain ⟨hsame, hkeeps⟩ := h
  rcases hm : Stateful.exec f m s with ⟨e | a, s'⟩
  · rw [hm] at hsame hkeeps
    constructor
    · rw [Stateful.exec_bind, Stateful.exec_bind, hsame, hm]
    · rw [Stateful.exec_bind, hm]
      exact hkeeps
  · rw [hm] at hsame hkeeps
    have hrest := hk a s' hkeeps
    constructor
    · rw [Stateful.exec_bind, Stateful.exec_bind, hsame, hm]
      exact hrest.same
    · rw [Stateful.exec_bind, hm]
      exact hrest.keeps

theorem refinesAt_get_bind {k : σ → Stateful Q A ε σ β} {k' : τ → Stateful Q A ε τ β}
    (h : RefinesAt f g P s (k s) (k' (g s))) : RefinesAt f g P s (get >>= k) (get >>= k') := by
  constructor
  · rw [Stateful.exec_get_bind, Stateful.exec_get_bind]
    exact h.same
  · rw [Stateful.exec_get_bind]
    exact h.keeps

theorem refinesAt_lift (hs : P s) (x : Outcome ε α) :
    RefinesAt f g P s (liftM x : Stateful Q A ε σ α) (liftM x) := ⟨rfl, hs⟩

theorem refinesAt_pure (hs : P s) (a : α) :
    RefinesAt f g P s (pure a : Stateful Q A ε σ α) (pure a) := ⟨rfl, hs⟩

theorem refinesAt_throw (hs : P s) (e : Fail ε) :
    RefinesAt f g P s (throw e : Stateful Q A ε σ α) (throw e) := ⟨rfl, hs⟩

theorem refinesAt_ofAsking (hs : P s) (m : Asking Q A ε α) :
    RefinesAt f g P s (Stateful.ofAsking m : Stateful Q A ε σ α) (Stateful.ofAsking m) := by
  constructor
  · rw [Stateful.exec_ofAsking, Stateful.exec_ofAsking]
  · rw [Stateful.exec_ofAsking]
    exact hs

end Refines

end Squashfs.Foundation
