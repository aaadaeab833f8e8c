import Squashfs.Foundation.Query

/-!
# What a program asks

`asked` lists the questions a program asks, in order, when `f` answers them. `Within` says that
each has the property `P`, or has `B` and the program fails; `ConfinedAt` says the same of a program
that changes a state, and that the state keeps an invariant while it does not fail. Both go through
sequencing (**`within_bind`**, **`confinedAt_bind`**), so what a reader asks is read off its code.
-/

namespace Squashfs.Foundation

variable {Q : Type} {A : Q → Type} {ε σ α β : Type} {f : ∀ q, A q} {P P' B : Q → Prop}

/-- The questions the program asks when `f` answers them, in order. -/
def Query.asked (f : ∀ q, A q) : Query Q A α → List Q
  | .ret _ => []
  | .ask q k => q :: (k (f q)).asked f

theorem Query.asked_bind (p : Query Q A α) (g : α → Query Q A β) :
    (p >>= g).asked f = p.asked f ++ (g (p.run f)).asked f := by
  induction p with
  | ret a => rfl
  | ask q k ih => exact congrArg (q :: ·) (ih (f q))

/-! ## Programs that may fail -/

namespace Asking

def asked (f : ∀ q, A q) (m : Asking Q A ε α) : List Q := Query.asked f m.run

theorem asked_bind (m : Asking Q A ε α) (k : α → Asking Q A ε β) :
    asked f (m >>= k) = asked f m ++
      match exec f m with
      | .ok a => asked f (k a)
      | .error _ => [] := by
  unfold asked exec
  rw [ExceptT.run_bind, Query.asked_bind]
  rcases Query.run f m.run with _ | _ <;> rfl

theorem mem_asked_bind {m : Asking Q A ε α} {k : α → Asking Q A ε β} {q : Q}
    (h : q ∈ asked f (m >>= k)) :
    q ∈ asked f m ∨ ∃ a, exec f m = .ok a ∧ q ∈ asked f (k a) := by
  rw [asked_bind, List.mem_append] at h
  refine h.imp id fun h => ?_
  split at h
  · rename_i a hrun
    exact ⟨a, hrun, h⟩
  · exact absurd h List.not_mem_nil

theorem asked_lift_bind {x : Outcome ε α} {k : α → Asking Q A ε β} {a : α} (h : x = .ok a) :
    asked f ((liftM x : Asking Q A ε α) >>= k) = asked f (k a) := by
  subst h
  rfl

/-- Every question has `P`, or has `B` and the program fails. -/
def Within (f : ∀ q, A q) (P B : Q → Prop) (m : Asking Q A ε α) : Prop :=
  ∀ q ∈ asked f m, P q ∨ B q ∧ ∃ e, exec f m = .error e

theorem within_pure (a : α) : Within f P B (pure a : Asking Q A ε α) :=
  fun _ h => absurd h List.not_mem_nil

theorem within_throw (e : Fail ε) : Within f P B (throw e : Asking Q A ε α) :=
  fun _ h => absurd h List.not_mem_nil

theorem within_lift (x : Outcome ε α) : Within f P B (liftM x : Asking Q A ε α) :=
  fun _ h => absurd h List.not_mem_nil

theorem within_bind {m : Asking Q A ε α} {k : α → Asking Q A ε β} (hm : Within f P B m)
    (hk : ∀ a, exec f m = .ok a → Within f P B (k a)) : Within f P B (m >>= k) := by
  intro q hq
  rw [exec_bind]
  rcases mem_asked_bind hq with hq | ⟨a, ha, hq⟩
  · refine (hm q hq).imp id ?_
    rintro ⟨hB, e, he⟩
    exact ⟨hB, e, by rw [he]; rfl⟩
  · rw [ha]
    exact hk a ha q hq

theorem within_ite {c : Prop} [Decidable c] {m m' : Asking Q A ε α} (hm : c → Within f P B m)
    (hm' : ¬ c → Within f P B m') : Within f P B (if c then m else m') := by
  split
  · rename_i h
    exact hm h
  · rename_i h
    exact hm' h

theorem Within.mono {m : Asking Q A ε α} (h : Within f P B m) (hP : ∀ q, P q → P' q) :
    Within f P' B m :=
  fun q hq => (h q hq).imp (hP q) id

/-- A program confined to no question asks none. -/
theorem Within.asked_eq_nil {m : Asking Q A ε α}
    (h : Within f (fun _ => False) (fun _ => False) m) : asked f m = [] :=
  List.eq_nil_iff_forall_not_mem.mpr fun q hq => (h q hq).elim id And.left

end Asking

/-! ## Programs that change a state -/

namespace Stateful

def asked (f : ∀ q, A q) (m : Stateful Q A ε σ α) (s : σ) : List Q :=
  Query.asked f (StateT.run m.run s)

theorem asked_bind (m : Stateful Q A ε σ α) (k : α → Stateful Q A ε σ β) (s : σ) :
    asked f (m >>= k) s = asked f m s ++
      match exec f m s with
      | (.ok a, s') => asked f (k a) s'
      | (.error _, _) => [] := by
  unfold asked exec
  rw [ExceptT.run_bind, StateT.run_bind, Query.asked_bind]
  rcases Query.run f (StateT.run m.run s) with ⟨_ | _, _⟩ <;> rfl

theorem mem_asked_bind {m : Stateful Q A ε σ α} {k : α → Stateful Q A ε σ β} {s : σ} {q : Q}
    (h : q ∈ asked f (m >>= k) s) :
    q ∈ asked f m s ∨ ∃ a s', exec f m s = (.ok a, s') ∧ q ∈ asked f (k a) s' := by
  rw [asked_bind, List.mem_append] at h
  refine h.imp id fun h => ?_
  split at h
  · rename_i a s' hrun
    exact ⟨a, s', hrun, h⟩
  · exact absurd h List.not_mem_nil

theorem asked_bind_ok {m : Stateful Q A ε σ α} {k : α → Stateful Q A ε σ β} {s s' : σ} {a : α}
    (h : exec f m s = (.ok a, s')) :
    asked f (m >>= k) s = asked f m s ++ asked f (k a) s' := by
  rw [asked_bind, h]

theorem asked_bind_error {m : Stateful Q A ε σ α} {k : α → Stateful Q A ε σ β} {s s' : σ}
    {e : Fail ε} (h : exec f m s = (.error e, s')) : asked f (m >>= k) s = asked f m s := by
  rw [asked_bind, h]
  exact List.append_nil _

theorem asked_lift_bind {x : Outcome ε α} {k : α → Stateful Q A ε σ β} {s : σ} {a : α}
    (h : x = .ok a) : asked f ((liftM x : Stateful Q A ε σ α) >>= k) s = asked f (k a) s :=
  asked_bind_ok (by rw [exec_lift, h])

theorem asked_get_bind {k : σ → Stateful Q A ε σ β} {s : σ} :
    asked f ((get : Stateful Q A ε σ σ) >>= k) s = asked f (k s) s := asked_bind_ok (exec_get f s)

theorem asked_ofAsking (m : Asking Q A ε α) (s : σ) :
    asked f (ofAsking m : Stateful Q A ε σ α) s = Asking.asked f m := by
  show Query.asked f (m.run >>= fun a => pure (a, s)) = _
  rw [Query.asked_bind]
  exact List.append_nil _

theorem asked_eval (m : Stateful Q A ε σ α) (s : σ) :
    Asking.asked f (m.eval s) = asked f m s := by
  show Query.asked f (Prod.fst <$> StateT.run m.run s) = _
  rw [← bind_pure_comp, Query.asked_bind]
  exact List.append_nil _

/-- From `s`, every question has `P`, or has `B` and the program fails; and if it does not fail it
leaves a state with `I`. -/
structure ConfinedAt (f : ∀ q, A q) (I : σ → Prop) (P B : Q → Prop) (s : σ)
    (m : Stateful Q A ε σ α) : Prop where
  asks : ∀ q ∈ asked f m s, P q ∨ B q ∧ ∃ e, (exec f m s).1 = .error e
  keeps : ∀ a s', exec f m s = (.ok a, s') → I s'

/-- From every state with `I`. -/
def Confined (f : ∀ q, A q) (I : σ → Prop) (P B : Q → Prop) (m : Stateful Q A ε σ α) : Prop :=
  ∀ s, I s → ConfinedAt f I P B s m

variable {I : σ → Prop} {s : σ}

theorem confinedAt_pure (hs : I s) (a : α) :
    ConfinedAt f I P B s (pure a : Stateful Q A ε σ α) where
  asks _ h := absurd h List.not_mem_nil
  keeps _ _ h := by
    cases h
    exact hs

theorem confinedAt_throw (e : Fail ε) : ConfinedAt f I P B s (throw e : Stateful Q A ε σ α) where
  asks _ h := absurd h List.not_mem_nil
  keeps _ _ h := by cases h

theorem confinedAt_lift (hs : I s) (x : Outcome ε α) :
    ConfinedAt f I P B s (liftM x : Stateful Q A ε σ α) where
  asks _ h := absurd h List.not_mem_nil
  keeps _ _ h := by
    cases h
    exact hs

theorem confinedAt_set {s' : σ} (hs : I s') :
    ConfinedAt f I P B s (set s' : Stateful Q A ε σ PUnit) where
  asks _ h := absurd h List.not_mem_nil
  keeps _ _ h := by
    cases h
    exact hs

theorem confinedAt_ofAsking (hs : I s) {m : Asking Q A ε α} (hm : Asking.Within f P B m) :
    ConfinedAt f I P B s (ofAsking m : Stateful Q A ε σ α) where
  asks q h := by
    rw [exec_ofAsking]
    rw [asked_ofAsking] at h
    exact hm q h
  keeps _ _ h := by
    rw [exec_ofAsking] at h
    obtain rfl := congrArg Prod.snd h
    exact hs

theorem confinedAt_bind {m : Stateful Q A ε σ α} {k : α → Stateful Q A ε σ β}
    (hm : ConfinedAt f I P B s m)
    (hk : ∀ a s', exec f m s = (.ok a, s') → I s' → ConfinedAt f I P B s' (k a)) :
    ConfinedAt f I P B s (m >>= k) where
  asks q hq := by
    rcases mem_asked_bind hq with hq | ⟨a, s', hrun, hq⟩
    · refine (hm.asks q hq).imp id ?_
      rintro ⟨hB, e, he⟩
      rcases hrun : exec f m s with ⟨x, s'⟩
      rw [hrun] at he
      cases he
      exact ⟨hB, e, by rw [exec_bind, hrun]⟩
    · rw [exec_bind_ok hrun]
      exact (hk a s' hrun (hm.keeps a s' hrun)).asks q hq
  keeps b s'' h := by
    obtain ⟨a, s', hrun, h⟩ := exec_bind_eq_ok.mp h
    exact (hk a s' hrun (hm.keeps a s' hrun)).keeps b s'' h

theorem confinedAt_get_bind {k : σ → Stateful Q A ε σ β} (hs : I s)
    (hk : ConfinedAt f I P B s (k s)) : ConfinedAt f I P B s (get >>= k) := by
  refine confinedAt_bind ⟨fun _ h => absurd h List.not_mem_nil, ?_⟩ ?_
  · intro _ _ h
    cases h
    exact hs
  · intro _ _ h _
    cases h
    exact hk

theorem confinedAt_lift_bind {x : Outcome ε α} {k : α → Stateful Q A ε σ β} (hs : I s)
    (hk : ∀ a, x = .ok a → ConfinedAt f I P B s (k a)) :
    ConfinedAt f I P B s ((liftM x : Stateful Q A ε σ α) >>= k) := by
  refine confinedAt_bind (confinedAt_lift hs x) fun a s' h _ => ?_
  rw [exec_lift] at h
  obtain ⟨hx, rfl⟩ := Prod.mk.inj h
  exact hk a hx

theorem confinedAt_ofAsking_bind {m : Asking Q A ε α} {k : α → Stateful Q A ε σ β} (hs : I s)
    (hm : Asking.Within f P B m) (hk : ∀ a, Asking.exec f m = .ok a → ConfinedAt f I P B s (k a)) :
    ConfinedAt f I P B s ((ofAsking m : Stateful Q A ε σ α) >>= k) := by
  refine confinedAt_bind (confinedAt_ofAsking hs hm) fun a s' h _ => ?_
  rw [exec_ofAsking] at h
  obtain ⟨hx, rfl⟩ := Prod.mk.inj h
  exact hk a hx

theorem confinedAt_ite {c : Prop} [Decidable c] {m m' : Stateful Q A ε σ α}
    (hm : c → ConfinedAt f I P B s m) (hm' : ¬ c → ConfinedAt f I P B s m') :
    ConfinedAt f I P B s (if c then m else m') := by
  split
  · rename_i h
    exact hm h
  · rename_i h
    exact hm' h

theorem confined_bind {m : Stateful Q A ε σ α} {k : α → Stateful Q A ε σ β}
    (hm : Confined f I P B m) (hk : ∀ a, Confined f I P B (k a)) : Confined f I P B (m >>= k) :=
  fun s hs => confinedAt_bind (hm s hs) fun a s' _ hs' => hk a s' hs'

theorem confined_pure (a : α) : Confined f I P B (pure a : Stateful Q A ε σ α) :=
  fun _ hs => confinedAt_pure hs a

theorem confined_throw (e : Fail ε) : Confined f I P B (throw e : Stateful Q A ε σ α) :=
  fun _ _ => confinedAt_throw e

theorem confined_lift (x : Outcome ε α) : Confined f I P B (liftM x : Stateful Q A ε σ α) :=
  fun _ hs => confinedAt_lift hs x

theorem confined_ite {c : Prop} [Decidable c] {m m' : Stateful Q A ε σ α}
    (hm : c → Confined f I P B m) (hm' : ¬ c → Confined f I P B m') :
    Confined f I P B (if c then m else m') := by
  split
  · rename_i h
    exact hm h
  · rename_i h
    exact hm' h

theorem ConfinedAt.mono {m : Stateful Q A ε σ α} (h : ConfinedAt f I P B s m)
    (hP : ∀ q, P q → P' q) : ConfinedAt f I P' B s m :=
  ⟨fun q hq => (h.asks q hq).imp (hP q) id, h.keeps⟩

/-- A program confined to no question asks none. -/
theorem ConfinedAt.asked_eq_nil {m : Stateful Q A ε σ α}
    (h : ConfinedAt f I (fun _ => False) (fun _ => False) s m) : asked f m s = [] :=
  List.eq_nil_iff_forall_not_mem.mpr fun q hq => (h.asks q hq).elim id And.left

/-- A program that is run to its value asks within what it is confined to. -/
theorem ConfinedAt.within_eval {m : Stateful Q A ε σ α} (h : ConfinedAt f I P B s m) :
    Asking.Within f P B (m.eval s) := by
  intro q hq
  rw [asked_eval] at hq
  rw [exec_eval]
  exact h.asks q hq

end Stateful

end Squashfs.Foundation
