import Mathlib.Data.DFinsupp.WellFounded
import Mathlib.SetTheory.Ordinal.Family
import Squashfs.Foundation.Shared

/-!
# Crews that finish

A program is finite, so a crew of finitely many threads cannot step for ever
(**`Crew.step_wellFounded`**): what may stop a thread short is only an operation that has to wait.
With one lock among the objects, threads that take it only when they do not have it and give it
back (`Disciplined`) never wait for each other in a circle: as long as a thread has not finished,
some thread can step (**`Crew.Orderly.progress`**). So every run that goes on for as long as it can
ends with every thread finished (**`Crew.Orderly.finished`**).

`Emits` says what a program writes to a log, and **`Crew.Logged.run`** that the log has of each
thread what it wrote so far, once and in its order.
-/

namespace Squashfs.Foundation

variable {Op : Type} {A : Op → Type} {α σ ι τ : Type}

/-! ## Programs are finite -/

/-- How deep a program is. -/
noncomputable def Query.depth : Query Op A α → Ordinal.{0}
  | .ret _ => 0
  | .ask _ k => ⨆ r, (k r).depth + 1

theorem Query.depth_lt (o : Op) (k : A o → Query Op A α) (r : A o) :
    (k r).depth < (Query.ask o k).depth :=
  Ordinal.lt_iSup_add_one (fun r => (k r).depth) r

/-- **No crew steps for ever.** -/
theorem Crew.step_wellFounded [DecidableEq ι] [Finite ι] (S : Objects Op A σ ι) :
    WellFounded fun c' c : Crew Op A α σ ι => Crew.Step S c c' := by
  refine Subrelation.wf (fun {c' c} h => ?_)
    (InvImage.wf (fun c : Crew Op A α σ ι => fun i => (c.threads i).depth)
      (wellFounded_lt : WellFounded fun a b : ι → Ordinal.{0} => a < b))
  cases h with
  | @perform i o k r s hp hs =>
    have hi : (k r).depth < (c.threads i).depth := by
      rw [hp]
      exact Query.depth_lt o k r
    refine Pi.lt_def.mpr ⟨fun j => ?_, i, ?_⟩
    · show (Function.update c.threads i (k r) j).depth ≤ (c.threads j).depth
      by_cases hj : j = i
      · subst hj
        rw [Function.update_self]
        exact le_of_lt hi
      · rw [Function.update_of_ne hj]
    · show (Function.update c.threads i (k r) i).depth < (c.threads i).depth
      rw [Function.update_self]
      exact hi

/-! ## One lock -/

/-- What an operation does to the lock. -/
inductive LockUse where
  | take
  | give
  | neither
  deriving Repr, DecidableEq

/-- The program takes the lock only when it does not have it and gives it back only when it does.
The two flags say whether it has it now, and whether it has it in the end. -/
def Query.Disciplined (use : Op → LockUse) : Bool → Bool → Query Op A α → Prop
  | held, atEnd, .ret _ => held = atEnd
  | held, atEnd, .ask o k =>
    match use o with
    | .take => held = false ∧ ∀ r, (k r).Disciplined use true atEnd
    | .give => held = true ∧ ∀ r, (k r).Disciplined use false atEnd
    | .neither => ∀ r, (k r).Disciplined use held atEnd

namespace Query.Disciplined

variable {Q : Type} {A' : Q → Type} {β : Type} {use : Op → LockUse} {use' : Q → LockUse}
  {held between atEnd : Bool}

theorem bind {p : Query Op A α} {g : α → Query Op A β} (hp : p.Disciplined use held between)
    (hg : ∀ a, (g a).Disciplined use between atEnd) :
    (p >>= g).Disciplined use held atEnd := by
  induction p generalizing held with
  | ret a =>
    have heq : held = between := hp
    rw [heq]
    exact hg a
  | ask o k ih =>
    show Query.Disciplined use held atEnd (.ask o fun r => k r >>= g)
    unfold Query.Disciplined at hp ⊢
    cases huse : use o with
    | take =>
      rw [huse] at hp
      exact ⟨hp.1, fun r => ih r (hp.2 r)⟩
    | give =>
      rw [huse] at hp
      exact ⟨hp.1, fun r => ih r (hp.2 r)⟩
    | neither =>
      rw [huse] at hp
      exact fun r => ih r (hp r)

theorem map {p : Query Op A α} (hp : p.Disciplined use held atEnd) (g : α → β) :
    (g <$> p).Disciplined use held atEnd := by
  rw [← bind_pure_comp]
  exact hp.bind fun _ => rfl

/-- A stateful program goes on where its first part leaves off, or fails there. -/
theorem bind_stateful {ε μ : Type} {m : Stateful Op A ε μ α} {g : α → Stateful Op A ε μ β} {s : μ}
    (hm : (StateT.run m.run s).Disciplined use held atEnd)
    (hg : ∀ a s, (StateT.run (g a).run s).Disciplined use atEnd atEnd) :
    (StateT.run (m >>= g).run s).Disciplined use held atEnd := by
  rw [ExceptT.run_bind, StateT.run_bind]
  refine hm.bind fun r => ?_
  rcases r with ⟨e | a, s⟩
  · rfl
  · exact hg a s

theorem ofAsking {ε μ : Type} {m : Asking Op A ε α} (hm : m.run.Disciplined use held atEnd)
    (s : μ) : (StateT.run (Stateful.ofAsking m).run s).Disciplined use held atEnd := by
  unfold Stateful.ofAsking
  show (StateT.lift m.run s).Disciplined use held atEnd
  exact hm.bind fun _ => rfl

/-- A program that does nothing to the lock. -/
theorem of_neither {p : Query Op A α} (h : ∀ o, use o = .neither) :
    p.Disciplined use held held := by
  induction p with
  | ret a => rfl
  | ask o k ih =>
    unfold Query.Disciplined
    rw [h o]
    exact ih

/-- **A program compiled** keeps the discipline, when the program of every question does to the
lock what the question does. -/
theorem through {p : Query Q A' α} {t : ∀ q, Query Op A (A' q)}
    (hp : p.Disciplined use' held atEnd)
    (htake : ∀ q, use' q = .take → (t q).Disciplined use false true)
    (hgive : ∀ q, use' q = .give → (t q).Disciplined use true false)
    (hneither : ∀ q, use' q = .neither → ∀ held, (t q).Disciplined use held held) :
    (p.through t).Disciplined use held atEnd := by
  induction p generalizing held with
  | ret a => exact hp
  | ask q k ih =>
    unfold Query.Disciplined at hp
    cases huse : use' q with
    | take =>
      rw [huse] at hp
      obtain ⟨rfl, hp⟩ := hp
      exact (htake q huse).bind fun r => ih r (hp r)
    | give =>
      rw [huse] at hp
      obtain ⟨rfl, hp⟩ := hp
      exact (hgive q huse).bind fun r => ih r (hp r)
    | neither =>
      rw [huse] at hp
      exact (hneither q huse held).bind fun r => ih r (hp r)

end Query.Disciplined

/-- Objects with one lock, held by a thread or by nobody. Only taking it may have to wait, and only
while it is held. -/
structure OneLock (S : Objects Op A σ ι) (use : Op → LockUse) (holder : σ → Option ι) : Prop where
  takes : ∀ {i s o}, use o = .take → holder s = none →
    ∃ r s', S i s o = some (r, s') ∧ holder s' = some i
  waits : ∀ {i s o}, use o = .take → holder s ≠ none → S i s o = none
  gives : ∀ {i s o}, use o = .give → holder s = some i →
    ∃ r s', S i s o = some (r, s') ∧ holder s' = none
  passes : ∀ {i s o}, use o = .neither → ∃ r s', S i s o = some (r, s') ∧ holder s' = holder s

namespace Crew

variable [DecidableEq ι] {S : Objects Op A σ ι} {use : Op → LockUse} {holder : σ → Option ι}
  {c c' : Crew Op A α σ ι}

/-- Every thread is disciplined, from whether it holds the lock now. -/
def Orderly (use : Op → LockUse) (holder : σ → Option ι) (c : Crew Op A α σ ι) : Prop :=
  ∀ i, (c.threads i).Disciplined use (decide (holder c.shared = some i)) false

/-- Every thread has finished. -/
def Finished (c : Crew Op A α σ ι) : Prop := ∀ i, ∃ a, c.threads i = .ret a

/-- **One operation keeps the order.** -/
theorem Orderly.step (hlock : OneLock S use holder) (h : c.Orderly use holder) (hs : Step S c c') :
    c'.Orderly use holder := by
  cases hs with
  | @perform i o k r s hp hr =>
    have hi := h i
    rw [hp] at hi
    unfold Query.Disciplined at hi
    intro j
    show (Function.update c.threads i (k r) j).Disciplined use (decide (holder s = some j)) false
    cases huse : use o with
    | take =>
      rw [huse] at hi
      have hfree : holder c.shared = none := by
        by_contra hheld
        rw [hlock.waits huse hheld] at hr
        cases hr
      obtain ⟨r', s', hr', hs'⟩ := hlock.takes (i := i) huse hfree
      rw [hr] at hr'
      cases hr'
      rw [hs']
      by_cases hj : j = i
      · subst hj
        rw [Function.update_self, decide_eq_true rfl]
        exact hi.2 r
      · have hother := h j
        rw [hfree] at hother
        rw [Function.update_of_ne hj, decide_eq_false (by simpa using Ne.symm hj)]
        simpa using hother
    | give =>
      rw [huse] at hi
      have hheld : holder c.shared = some i := of_decide_eq_true hi.1
      obtain ⟨r', s', hr', hs'⟩ := hlock.gives huse hheld
      rw [hr] at hr'
      cases hr'
      rw [hs']
      by_cases hj : j = i
      · subst hj
        rw [Function.update_self]
        simpa using hi.2 r
      · have hother := h j
        rw [hheld, decide_eq_false (by simpa using Ne.symm hj)] at hother
        rw [Function.update_of_ne hj]
        simpa using hother
    | neither =>
      rw [huse] at hi
      obtain ⟨r', s', hr', hs'⟩ := hlock.passes (i := i) (s := c.shared) huse
      rw [hr] at hr'
      cases hr'
      rw [hs']
      by_cases hj : j = i
      · subst hj
        rw [Function.update_self]
        exact hi r
      · rw [Function.update_of_ne hj]
        exact h j

theorem Orderly.run (hlock : OneLock S use holder) (h : c.Orderly use holder)
    (hs : Relation.ReflTransGen (Step S) c c') : c'.Orderly use holder := by
  induction hs with
  | refl => exact h
  | tail _ hstep ih => exact ih.step hlock hstep

/-- A thread that has not finished steps, unless it waits for the lock. -/
theorem Orderly.step_of_ask (hlock : OneLock S use holder) (h : c.Orderly use holder) {i : ι}
    {o : Op} {k : A o → Query Op A α} (hp : c.threads i = .ask o k)
    (hfree : holder c.shared = none ∨ holder c.shared = some i) : ∃ c', Step S c c' := by
  have hi := h i
  rw [hp] at hi
  unfold Query.Disciplined at hi
  cases huse : use o with
  | take =>
    rw [huse] at hi
    have hnone := hfree.resolve_right fun hheld => by
      rw [hheld, decide_eq_true rfl] at hi
      exact Bool.noConfusion hi.1
    obtain ⟨r, s, hr, -⟩ := hlock.takes (i := i) huse hnone
    exact ⟨_, .perform hp hr⟩
  | give =>
    rw [huse] at hi
    obtain ⟨r, s, hr, -⟩ := hlock.gives huse (of_decide_eq_true hi.1)
    exact ⟨_, .perform hp hr⟩
  | neither =>
    obtain ⟨r, s, hr, -⟩ := hlock.passes (i := i) (s := c.shared) huse
    exact ⟨_, .perform hp hr⟩

/-- **Somebody can step** as long as somebody has not finished: the thread that holds the lock, or
any when it is free. -/
theorem Orderly.progress (hlock : OneLock S use holder) (h : c.Orderly use holder)
    (hunfinished : ¬ c.Finished) : ∃ c', Step S c c' := by
  cases hholder : holder c.shared with
  | some j =>
    cases hp : c.threads j with
    | ret a =>
      have hj := h j
      rw [hp, hholder, decide_eq_true rfl] at hj
      exact Bool.noConfusion hj
    | ask o k => exact h.step_of_ask hlock hp (.inr hholder)
  | none =>
    unfold Finished at hunfinished
    rw [not_forall] at hunfinished
    obtain ⟨i, hi⟩ := hunfinished
    cases hp : c.threads i with
    | ret a => exact absurd ⟨a, hp⟩ hi
    | ask o k => exact h.step_of_ask hlock hp (.inl hholder)

/-- **A run that cannot go on has finished**, and the lock is free. -/
theorem Orderly.finished (hlock : OneLock S use holder) (h : c.Orderly use holder)
    (hstuck : ¬ ∃ c', Step S c c') : c.Finished ∧ holder c.shared = none := by
  have hfinished : c.Finished := by
    by_contra hunfinished
    exact hstuck (h.progress hlock hunfinished)
  refine ⟨hfinished, ?_⟩
  by_contra hheld
  obtain ⟨i, hi⟩ := Option.ne_none_iff_exists'.mp hheld
  obtain ⟨a, ha⟩ := hfinished i
  have hdone := h i
  rw [ha, hi, decide_eq_true rfl] at hdone
  exact Bool.noConfusion hdone

/-- **Every run can go on until it has finished.** -/
theorem exists_stuck [Finite ι] (S : Objects Op A σ ι) (c : Crew Op A α σ ι) :
    ∃ c', Relation.ReflTransGen (Step S) c c' ∧ ¬ ∃ c'', Step S c' c'' := by
  induction c using (step_wellFounded (α := α) S).induction with
  | _ c ih =>
    by_cases hstep : ∃ c', Step S c c'
    · obtain ⟨c', hstep⟩ := hstep
      obtain ⟨c'', hrun, hstuck⟩ := ih c' hstep
      exact ⟨c'', .head hstep hrun, hstuck⟩
    · exact ⟨c, .refl, hstep⟩

end Crew

/-! ## One log -/

/-- The program writes `l`, in order, whatever it is told. -/
def Query.Emits (emit : Op → Option τ) : List τ → Query Op A α → Prop
  | l, .ret _ => l = []
  | l, .ask o k =>
    match emit o with
    | some x => ∃ rest, l = x :: rest ∧ ∀ r, (k r).Emits emit rest
    | none => ∀ r, (k r).Emits emit l

namespace Query.Emits

variable {Q : Type} {A' : Q → Type} {β : Type} {emit : Op → Option τ} {l l' : List τ}

theorem bind {p : Query Op A α} {g : α → Query Op A β} (hp : p.Emits emit l)
    (hg : ∀ a, (g a).Emits emit l') : (p >>= g).Emits emit (l ++ l') := by
  induction p generalizing l with
  | ret a =>
    have hnil : l = [] := hp
    rw [hnil]
    exact hg a
  | ask o k ih =>
    show Query.Emits emit (l ++ l') (.ask o fun r => k r >>= g)
    unfold Query.Emits at hp ⊢
    cases hemit : emit o with
    | none =>
      rw [hemit] at hp
      exact fun r => ih r (hp r)
    | some x =>
      rw [hemit] at hp
      obtain ⟨rest, rfl, hrest⟩ := hp
      exact ⟨rest ++ l', rfl, fun r => ih r (hrest r)⟩

/-- A program compiled to programs that write nothing writes nothing. -/
theorem through {p : Query Q A' α} {t : ∀ q, Query Op A (A' q)}
    (ht : ∀ q, (t q).Emits emit []) : (p.through t).Emits emit [] := by
  induction p with
  | ret a => rfl
  | ask q k ih => exact (ht q).bind ih

end Query.Emits

/-- Objects with a log: what each thread wrote, in order. -/
structure OneLog [DecidableEq ι] (S : Objects Op A σ ι) (emit : Op → Option τ)
    (log : σ → ι → List τ) : Prop where
  writes : ∀ {i s o x r s'}, emit o = some x → S i s o = some (r, s') →
    log s' = Function.update (log s) i (log s i ++ [x])
  keeps : ∀ {i s o r s'}, emit o = none → S i s o = some (r, s') → log s' = log s

namespace Crew

variable [DecidableEq ι] {S : Objects Op A σ ι} {emit : Op → Option τ} {log : σ → ι → List τ}
  {whole : ι → List τ} {c c' : Crew Op A α σ ι}

/-- What each thread wrote, and what it has still to write, is what it is to write. -/
def Logged (emit : Op → Option τ) (log : σ → ι → List τ) (whole : ι → List τ)
    (c : Crew Op A α σ ι) : Prop :=
  ∀ i, ∃ rest, log c.shared i ++ rest = whole i ∧ (c.threads i).Emits emit rest

theorem Logged.step (hlog : OneLog S emit log) (h : c.Logged emit log whole) (hs : Step S c c') :
    c'.Logged emit log whole := by
  cases hs with
  | @perform i o k r s hp hr =>
    intro j
    show ∃ rest, log s j ++ rest = whole j ∧ (Function.update c.threads i (k r) j).Emits emit rest
    obtain ⟨rest, hwhole, hemits⟩ := h j
    by_cases hj : j = i
    · subst hj
      rw [Function.update_self]
      rw [hp] at hemits
      unfold Query.Emits at hemits
      cases hemit : emit o with
      | none =>
        rw [hemit] at hemits
        rw [hlog.keeps hemit hr]
        exact ⟨rest, hwhole, hemits r⟩
      | some x =>
        rw [hemit] at hemits
        obtain ⟨rest', rfl, hemits⟩ := hemits
        rw [hlog.writes hemit hr, Function.update_self]
        exact ⟨rest', by rw [List.append_assoc]; exact hwhole, hemits r⟩
    · rw [Function.update_of_ne hj]
      refine ⟨rest, ?_, hemits⟩
      cases hemit : emit o with
      | none => rw [hlog.keeps hemit hr, hwhole]
      | some x => rw [hlog.writes hemit hr, Function.update_of_ne hj, hwhole]

/-- **The log has of each thread what it wrote so far**, once and in its order. -/
theorem Logged.run (hlog : OneLog S emit log) (h : c.Logged emit log whole)
    (hs : Relation.ReflTransGen (Step S) c c') : c'.Logged emit log whole := by
  induction hs with
  | refl => exact h
  | tail _ hstep ih => exact ih.step hlog hstep

omit [DecidableEq ι] in
/-- The log of finished threads is whole. -/
theorem Logged.finished (h : c.Logged emit log whole) (hfinished : c.Finished) :
    log c.shared = whole := by
  funext i
  obtain ⟨rest, hwhole, hemits⟩ := h i
  obtain ⟨a, ha⟩ := hfinished i
  rw [ha] at hemits
  have hnil : rest = [] := hemits
  rw [← hwhole, hnil, List.append_nil]

end Crew

end Squashfs.Foundation
