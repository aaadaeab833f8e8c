import Mathlib.Logic.Function.Basic
import Mathlib.Logic.Relation
import Squashfs.Foundation.Query

/-!
# Threads over shared objects

Any number of threads run `Query` programs whose questions are operations on objects they share:
a cache, a lock, a log. An operation is atomic, and one that has to wait (a lock that is held) has
no step. `Terms` say what a program owes before a question and may rely on after it, and `Meets`
what it comes to under them. A `Contract` is an invariant of the objects that every operation
keeps which is performed on its thread's terms.

**`Crew.keeps`**: when every thread's program meets its terms, then in every reachable crew the
invariant holds, and every thread that has finished gave a result it was to give. `solo` runs one
thread alone, and `Crew.run_solo` is the run it stands for.

`Query.through` compiles programs of one kind of questions to another, and `Meets.through` their
terms.
-/

namespace Squashfs.Foundation

namespace Query

variable {Q Q' : Type} {A : Q → Type} {A' : Q' → Type} {α β : Type}

/-- Ask one question. -/
def query (q : Q) : Query Q A (A q) := .ask q .ret

/-- The program with each question `q` replaced by the program `t q`. -/
def through (t : ∀ q, Query Q' A' (A q)) : Query Q A α → Query Q' A' α
  | .ret a => .ret a
  | .ask q k => (t q).bind fun r => (k r).through t

end Query

/-- A stateful program with each question replaced by a program. -/
def Stateful.through {Q Q' : Type} {A : Q → Type} {A' : Q' → Type} {ε σ α : Type}
    (t : ∀ q, Query Q' A' (A q)) (m : Stateful Q A ε σ α) : Stateful Q' A' ε σ α :=
  ExceptT.mk (fun s => (StateT.run m.run s).through t : StateT σ (Query Q' A') (Outcome ε α))

/-! ## Terms -/

/-- What a program owes before a question, and what it may rely on in the answer. -/
structure Terms (Q : Type) (A : Q → Type) where
  Pre : Q → Prop
  Post : (q : Q) → A q → Prop

namespace Terms

variable {Q Q' : Type} {A : Q → Type} {A' : Q' → Type} {ε σ α β : Type}

/-- Every question may be asked, and `f` answers it. -/
def exact (f : ∀ q, A q) : Terms Q A := ⟨fun _ => True, fun q r => r = f q⟩

variable (T : Terms Q A)

/-- The program asks what it may ask, and ends in a `post` result. -/
def Meets (post : α → Prop) : Query Q A α → Prop
  | .ret a => post a
  | .ask q k => T.Pre q ∧ ∀ r, T.Post q r → Meets post (k r)

/-- The program ends in `a`. -/
def Gives (p : Query Q A α) (a : α) : Prop := T.Meets (· = a) p

variable {T} {post : α → Prop} {p : Query Q A α} {a : α} {b : β}

theorem Meets.bind {post' : β → Prop} {g : α → Query Q A β} (h : T.Meets post p)
    (hg : ∀ a, post a → T.Meets post' (g a)) : T.Meets post' (p >>= g) := by
  induction p with
  | ret a => exact hg a h
  | ask q k ih => exact ⟨h.1, fun r hr => ih r (h.2 r hr)⟩

theorem Meets.mono {post' : α → Prop} (h : T.Meets post p) (himp : ∀ a, post a → post' a) :
    T.Meets post' p := by
  induction p with
  | ret a => exact himp a h
  | ask q k ih => exact ⟨h.1, fun r hr => ih r (h.2 r hr)⟩

theorem meets_query {q : Q} (h : T.Pre q) : T.Meets (T.Post q) (Query.query q) :=
  ⟨h, fun _ hr => hr⟩

/-- **A program compiled** keeps its terms, when every question's own program does. -/
theorem Meets.through {T' : Terms Q' A'} {t : ∀ q, Query Q' A' (A q)}
    (ht : ∀ q, T.Pre q → T'.Meets (T.Post q) (t q)) (h : T.Meets post p) :
    T'.Meets post (p.through t) := by
  induction p with
  | ret a => exact h
  | ask q k ih => exact (ht q h.1).bind fun r hr => ih r (h.2 r hr)

theorem gives_exact (f : ∀ q, A q) (p : Query Q A α) : (exact f).Gives p (p.run f) := by
  induction p with
  | ret a => rfl
  | ask q k ih =>
    refine ⟨trivial, fun r hr => ?_⟩
    cases hr
    exact ih (f q)

theorem Gives.bind {g : α → Query Q A β} (h : T.Gives p a) (hg : T.Gives (g a) b) :
    T.Gives (p >>= g) b := by
  refine Meets.bind h fun a' ha => ?_
  subst ha
  exact hg

theorem Gives.map (h : T.Gives p a) (g : α → β) : T.Gives (g <$> p) (g a) := by
  rw [← bind_pure_comp]
  exact h.bind rfl

/-- A stateful program ends in `r`. -/
def GivesFrom (T : Terms Q A) (m : Stateful Q A ε σ α) (s : σ) (r : Outcome ε α × σ) : Prop :=
  T.Gives (StateT.run m.run s) r

variable {m : Stateful Q A ε σ α} {g : α → Stateful Q A ε σ β} {s s' : σ} {r : Outcome ε β × σ}

theorem GivesFrom.bind_ok (h : T.GivesFrom m s (.ok a, s')) (hg : T.GivesFrom (g a) s' r) :
    T.GivesFrom (m >>= g) s r := by
  unfold GivesFrom
  rw [ExceptT.run_bind, StateT.run_bind]
  exact Gives.bind h hg

theorem GivesFrom.bind_error {e : Fail ε} (h : T.GivesFrom m s (.error e, s')) :
    T.GivesFrom (m >>= g) s (.error e, s') := by
  unfold GivesFrom
  rw [ExceptT.run_bind, StateT.run_bind]
  exact Gives.bind h rfl

theorem GivesFrom.ofAsking {m : Asking Q A ε α} {x : Outcome ε α} (h : T.Gives m.run x) (s : σ) :
    T.GivesFrom (Stateful.ofAsking m) s (x, s) := by
  unfold GivesFrom Stateful.ofAsking
  show T.Gives (StateT.lift m.run s) (x, s)
  exact Gives.bind h rfl

/-- A program whose questions are answered exactly gives what it comes to. -/
theorem GivesFrom.through {T' : Terms Q' A'} {f : ∀ q, A q} {t : ∀ q, Query Q' A' (A q)}
    (ht : ∀ q, T'.Gives (t q) (f q)) (m : Stateful Q A ε σ α) (s : σ) :
    T'.GivesFrom (m.through t) s (Stateful.exec f m s) := by
  have h : (exact f).Meets (· = Stateful.exec f m s) (StateT.run m.run s) := gives_exact f _
  refine Meets.through (fun q _ => ?_) h
  exact ht q

end Terms

/-! ## Objects and their threads -/

/-- Objects shared by threads `ι`: the reply to thread `i`'s operation and the state it leaves,
or nothing while the thread has to wait. -/
abbrev Objects (Op : Type) (A : Op → Type) (σ ι : Type) := ι → σ → (o : Op) → Option (A o × σ)

/-- An invariant of the objects, kept by the threads that operate on their terms. -/
structure Contract {Op : Type} {A : Op → Type} {σ ι : Type} (S : Objects Op A σ ι) where
  Inv : σ → Prop
  terms : ι → Terms Op A
  keeps : ∀ {i s o r s'}, Inv s → (terms i).Pre o → S i s o = some (r, s') →
    Inv s' ∧ (terms i).Post o r

/-- The objects and the threads. -/
structure Crew (Op : Type) (A : Op → Type) (α σ ι : Type) where
  shared : σ
  threads : ι → Query Op A α

section Threads

variable {Op : Type} {A : Op → Type} {α σ ι : Type} {S : Objects Op A σ ι}

/-- A thread performs its next operation. -/
inductive Crew.Step [DecidableEq ι] (S : Objects Op A σ ι) :
    Crew Op A α σ ι → Crew Op A α σ ι → Prop
  | perform {c i o k r s} (hp : c.threads i = .ask o k) (hs : S i c.shared o = some (r, s)) :
      Crew.Step S c ⟨s, Function.update c.threads i (k r)⟩

namespace Crew

variable [DecidableEq ι] {C : Contract S} {c c' : Crew Op A α σ ι} {post : ι → α → Prop}

/-- The objects are in order, and every thread's program meets its terms. -/
structure Sound (C : Contract S) (post : ι → α → Prop) (c : Crew Op A α σ ι) : Prop where
  inv : C.Inv c.shared
  meets : ∀ i, (C.terms i).Meets (post i) (c.threads i)

/-- **One operation keeps it.** -/
theorem Sound.step (h : c.Sound C post) (hs : Step S c c') : c'.Sound C post := by
  cases hs with
  | @perform i o k r s hp hr =>
    have hm := h.meets i
    rw [hp] at hm
    obtain ⟨hinv, hpost⟩ := C.keeps h.inv hm.1 hr
    refine ⟨hinv, fun j => ?_⟩
    show (C.terms j).Meets (post j) (Function.update c.threads i (k r) j)
    by_cases hj : j = i
    · subst hj
      rw [Function.update_self]
      exact hm.2 r hpost
    · rw [Function.update_of_ne hj]
      exact h.meets j

/-- **Every run keeps it.** -/
theorem Sound.run (h : c.Sound C post) (hs : Relation.ReflTransGen (Step S) c c') :
    c'.Sound C post := by
  induction hs with
  | refl => exact h
  | tail _ hstep ih => exact ih.step hstep

/-- **The contract is kept**: the objects stay in order, and a thread that has finished gave what
it was to give. -/
theorem keeps (h : c.Sound C post) (hs : Relation.ReflTransGen (Step S) c c') :
    C.Inv c'.shared ∧ ∀ i a, c'.threads i = .ret a → post i a := by
  have h' := h.run hs
  refine ⟨h'.inv, fun i a ha => ?_⟩
  have hm := h'.meets i
  rw [ha] at hm
  exact hm

end Crew

/-- Thread `i` alone, from the state `s`: its result and the state it leaves, unless it has to
wait for ever. -/
def solo (S : Objects Op A σ ι) (i : ι) : Query Op A α → σ → Option (α × σ)
  | .ret a, s => some (a, s)
  | .ask o k, s =>
    match S i s o with
    | some (r, s') => solo S i (k r) s'
    | none => none

/-- **A thread alone** is a run of the crew in which the others stand still. -/
theorem Crew.run_solo [DecidableEq ι] {i : ι} {a : α} {s : σ} {c : Crew Op A α σ ι}
    (h : solo S i (c.threads i) c.shared = some (a, s)) :
    ∃ c', Relation.ReflTransGen (Crew.Step S) c c' ∧ c'.shared = s ∧ c'.threads i = .ret a := by
  generalize hp : c.threads i = p at h
  induction p generalizing c with
  | ret b =>
    cases h
    exact ⟨c, .refl, rfl, hp⟩
  | ask o k ih =>
    unfold solo at h
    split at h
    · rename_i r s' hr
      obtain ⟨c', hrun, hs, ha⟩ := @ih r ⟨s', Function.update c.threads i (k r)⟩
        (Function.update_self ..) h
      exact ⟨c', .head (.perform hp hr) hrun, hs, ha⟩
    · cases h

end Threads

end Squashfs.Foundation
