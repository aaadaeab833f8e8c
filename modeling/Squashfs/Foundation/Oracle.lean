import Mathlib.Logic.Relation
import Squashfs.Foundation.Shared

/-!
# Programs that are answered one way or another

A program may also ask things that do not have one answer: whether a file could be created depends
on more than the program knows. An `Oracle` says what may be answered in a state, and which state
an answer leaves. A run may be cut off anywhere, so what matters is every moment of it: `Keeps`
says that an invariant holds at every moment whatever is answered, and what holds at the end.

**`Oracle.Keeps.run`**: it does. `Keeps.bind` and its kin are the rules for a program's constructs.
`Oracle.run_follow` is a run for every way to pick the answers.
-/

namespace Squashfs.Foundation

variable {Q Q' : Type} {A : Q → Type} {A' : Q' → Type} {ε σ α β : Type}

/-- What may be answered in a state, and the state an answer leaves. -/
abbrev Oracle (Q : Type) (A : Q → Type) (σ : Type) := σ → (q : Q) → A q → σ → Prop

/-- A plain value is no question. -/
theorem Asking.run_lift_bind {x : Outcome ε α} {a : α} {g : α → Asking Q A ε β} (h : x = .ok a) :
    ((liftM x : Asking Q A ε α) >>= g).run = (g a).run := by
  subst h
  rfl

theorem Asking.run_throw_bind {x : Outcome ε α} {e : Fail ε} {g : α → Asking Q A ε β}
    (h : x = .error e) : ((liftM x : Asking Q A ε α) >>= g).run = .ret (.error e) := by
  subst h
  rfl

namespace Oracle

/-- A question is answered. -/
inductive Step (W : Oracle Q A σ) : Query Q A α × σ → Query Q A α × σ → Prop
  | answer {q k s r s'} (h : W s q r s') : Step W (.ask q k, s) (k r, s')

/-- At every moment `inv` holds, and the result and the state in the end are as `post` has them. -/
def Keeps (W : Oracle Q A σ) (inv : σ → Prop) (post : α → σ → Prop) : Query Q A α → σ → Prop
  | .ret a, s => inv s ∧ post a s
  | .ask q k, s => inv s ∧ ∀ r s', W s q r s' → Keeps W inv post (k r) s'

variable {W : Oracle Q A σ} {inv inv' : σ → Prop} {post post' : α → σ → Prop} {s s' : σ}
  {p p' : Query Q A α}

theorem Keeps.now (h : W.Keeps inv post p s) : inv s := by
  cases p with
  | ret a => exact h.1
  | ask q k => exact h.1

theorem Keeps.step (h : W.Keeps inv post p s) (hs : W.Step (p, s) (p', s')) :
    W.Keeps inv post p' s' := by
  cases hs with
  | answer hw => exact h.2 _ _ hw

/-- **Every run** keeps the invariant, and ends as it is to end. -/
theorem Keeps.run (h : W.Keeps inv post p s)
    (hrun : Relation.ReflTransGen W.Step (p, s) (p', s')) :
    inv s' ∧ ∀ a, p' = .ret a → post a s' := by
  have hkeeps : W.Keeps inv post p' s' := by
    generalize hend : (p', s') = x at hrun
    induction hrun generalizing p' s' with
    | refl =>
      cases hend
      exact h
    | @tail y z _ hstep ih =>
      subst hend
      exact (ih rfl).step hstep
  refine ⟨hkeeps.now, fun a ha => ?_⟩
  subst ha
  exact hkeeps.2

theorem Keeps.mono (h : W.Keeps inv post p s) (hinv : ∀ s, inv s → inv' s)
    (hpost : ∀ a s, inv s → post a s → post' a s) : W.Keeps inv' post' p s := by
  induction p generalizing s with
  | ret a => exact ⟨hinv s h.1, hpost a s h.1 h.2⟩
  | ask q k ih => exact ⟨hinv s h.1, fun r s' hw => ih r (h.2 r s' hw)⟩

theorem Keeps.bind {g : α → Query Q A β} {post' : β → σ → Prop} (h : W.Keeps inv post p s)
    (hg : ∀ a s, inv s → post a s → W.Keeps inv post' (g a) s) : W.Keeps inv post' (p >>= g) s := by
  induction p generalizing s with
  | ret a => exact hg a s h.1 h.2
  | ask q k ih => exact ⟨h.1, fun r s' hw => ih r (h.2 r s' hw)⟩

theorem keeps_query {q : Q} {post : A q → σ → Prop} (hs : inv s)
    (h : ∀ r s', W s q r s' → inv s' ∧ post r s') : W.Keeps inv post (Query.query q) s :=
  ⟨hs, fun r s' hw => h r s' hw⟩

/-- A program that may fail goes on where its first part leaves off, or fails there. -/
theorem Keeps.bind_asking {m : Asking Q A ε α} {g : α → Asking Q A ε β}
    {mid : Outcome ε α → σ → Prop} {post : Outcome ε β → σ → Prop}
    (h : W.Keeps inv mid m.run s)
    (hok : ∀ a s, inv s → mid (.ok a) s → W.Keeps inv post (g a).run s)
    (herr : ∀ e s, mid (.error e) s → post (.error e) s) :
    W.Keeps inv post (m >>= g).run s := by
  rw [ExceptT.run_bind]
  refine h.bind fun x s hs hmid => ?_
  cases x with
  | ok a => exact hok a s hs hmid
  | error e => exact ⟨hs, herr e s hmid⟩

/-- **A program about what stands still**: when the program of every question comes to one answer
and leaves the state alone, the whole comes to what these answers give it. -/
theorem keeps_through {f : ∀ q, A' q} {t : ∀ q, Query Q A (A' q)} {p : Query Q' A' α}
    (ht : ∀ q, W.Keeps inv (fun r s' => r = f q ∧ s' = s) (t q) s) (hs : inv s) :
    W.Keeps inv (fun a s' => a = p.run f ∧ s' = s) (p.through t) s := by
  induction p with
  | ret a => exact ⟨hs, rfl, rfl⟩
  | ask q k ih =>
    refine (ht q).bind fun r s' _ h => ?_
    obtain ⟨rfl, rfl⟩ := h
    exact ih (f q)

/-! ## One way it may go -/

/-- The run in which `g` picks every answer. -/
def follow (g : σ → (q : Q) → A q × σ) : Query Q A α → σ → α × σ
  | .ret a, s => (a, s)
  | .ask q k, s => follow g (k (g s q).1) (g s q).2

/-- **It is a run**, when what is picked may be answered. -/
theorem run_follow {g : σ → (q : Q) → A q × σ} (hg : ∀ s q, W s q (g s q).1 (g s q).2)
    (p : Query Q A α) (s : σ) :
    Relation.ReflTransGen W.Step (p, s) (.ret (follow g p s).1, (follow g p s).2) := by
  induction p generalizing s with
  | ret a => exact .refl
  | ask q k ih => exact .head (.answer (hg s q)) (ih _ _)

end Oracle

end Squashfs.Foundation
