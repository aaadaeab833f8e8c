import Mathlib.Logic.Function.Basic
import Mathlib.Logic.Relation
import Squashfs.Foundation.Query

/-!
# Readers sharing a memory

Any number of readers run `Query` programs whose questions are answered by a fixed function `f`
that may fail. In front of `f` stands a memory (`Memo`): a reader first looks its question up,
on a miss computes `f` itself, and on success stores the answer. The three are separate steps,
and between them the other readers step and the memory is administered (resized, dropped).

A `Memo` says what its state `Holds`. Looking up gives back only what is held, storing adds only
what was stored, and administering adds nothing. It may forget anything at any time.

**`racing_invisible`**: if what the memory holds at the start is true of `f`, then in every
reachable world every answer any reader ever got is `f`'s own, and a reader that has finished
returned what it returns when `f` answers every question directly.

`BoundedMap` is the same for a map with a capacity: `get` gives the last value put under the key,
or nothing; `sized` makes one that is switched off at capacity zero, and `lru` is the map that
drops the entry used longest ago.
-/

namespace Squashfs.Foundation

/-! ## Bounded maps -/

/-- A map of limited size: `get` gives the last value put under the key or nothing, and may
reorder the map. `Holds s k v` says that `v` is the last value put under `k` and may still be
there. -/
structure BoundedMap (κ ν σ : Type) where
  new : Nat → σ
  get : σ → κ → Option ν × σ
  put : σ → κ → ν → σ
  Holds : σ → κ → ν → Prop
  not_holds_new : ∀ c k v, ¬ Holds (new c) k v
  holds_of_get : ∀ {s k v}, (get s k).1 = some v → Holds s k v
  holds_after_get : ∀ {s k k' v}, Holds (get s k).2 k' v → Holds s k' v
  holds_after_put : ∀ {s k v k' v'}, Holds (put s k v) k' v' →
    (k' = k ∧ v' = v) ∨ (k' ≠ k ∧ Holds s k' v')

namespace BoundedMap

variable {κ ν σ : Type} (B : BoundedMap κ ν σ)

/-- A map that can be switched off, of capacity `c`: none at zero. -/
def sized (c : Nat) : Option σ := if c = 0 then none else some (B.new c)

/-- `get` on a map that may be off. -/
def getOn : Option σ → κ → Option ν × Option σ
  | none, _ => (none, none)
  | some s, k => ((B.get s k).1, some (B.get s k).2)

/-- `put` on a map that may be off. -/
def putOn (s : Option σ) (k : κ) (v : ν) : Option σ := s.map (B.put · k v)

/-- What a map that may be off holds. -/
def HoldsOn (s : Option σ) (k : κ) (v : ν) : Prop := ∃ m, s = some m ∧ B.Holds m k v

theorem not_holdsOn_sized (c : Nat) (k : κ) (v : ν) : ¬ B.HoldsOn (B.sized c) k v := by
  rintro ⟨m, hm, h⟩
  unfold sized at hm
  split at hm
  · cases hm
  · cases hm
    exact B.not_holds_new c k v h

variable {B} {s : Option σ} {k k' : κ} {v v' : ν}

theorem holdsOn_of_get (h : (B.getOn s k).1 = some v) : B.HoldsOn s k v := by
  cases s with
  | none => cases h
  | some m => exact ⟨m, rfl, B.holds_of_get h⟩

theorem holdsOn_after_get (h : B.HoldsOn (B.getOn s k).2 k' v) : B.HoldsOn s k' v := by
  obtain ⟨m, hm, h⟩ := h
  cases s with
  | none => cases hm
  | some m' =>
    cases hm
    exact ⟨m', rfl, B.holds_after_get h⟩

theorem holdsOn_after_put (h : B.HoldsOn (B.putOn s k v) k' v') :
    (k' = k ∧ v' = v) ∨ B.HoldsOn s k' v' := by
  obtain ⟨m, hm, h⟩ := h
  cases s with
  | none => cases hm
  | some m' =>
    cases hm
    exact (B.holds_after_put h).imp id fun h => ⟨m', rfl, h.2⟩

/-! ### Least recently used first out -/

/-- Entries, most recently used first, at most `capacity` of them. -/
structure Lru (κ ν : Type) where
  capacity : Nat
  entries : List (κ × ν)
  deriving Repr, DecidableEq

/-- The map that drops the entry used longest ago. -/
def lru (κ ν : Type) [DecidableEq κ] : BoundedMap κ ν (Lru κ ν) where
  new c := ⟨c, []⟩
  get s k :=
    match s.entries.find? (·.1 = k) with
    | some e => (some e.2, { s with entries := e :: s.entries.filter (·.1 ≠ k) })
    | none => (none, s)
  put s k v := { s with entries := ((k, v) :: s.entries.filter (·.1 ≠ k)).take s.capacity }
  Holds s k v := (k, v) ∈ s.entries
  not_holds_new _ _ _ h := absurd h List.not_mem_nil
  holds_of_get {s k v} h := by
    split at h
    · rename_i e he
      have hk : e.1 = k := by simpa using List.find?_some he
      cases h
      subst hk
      exact List.mem_of_find?_eq_some he
    · cases h
  holds_after_get {s k k' v} h := by
    split at h
    · rename_i e he
      rcases List.mem_cons.mp h with rfl | h
      · exact List.mem_of_find?_eq_some he
      · exact List.mem_of_mem_filter h
    · exact h
  holds_after_put {s k v k' v'} h := by
    rcases List.mem_cons.mp (List.mem_of_mem_take h) with heq | h
    · cases heq
      exact .inl ⟨rfl, rfl⟩
    · obtain ⟨hmem, hne⟩ := List.mem_filter.mp h
      exact .inr ⟨of_decide_eq_true hne, hmem⟩

end BoundedMap

/-! ## Memories -/

/-- A memory of answers `V q` to questions `q`, with events `E` that administer it. -/
structure Memo (Q : Type) (V : Q → Type) (E σ : Type) where
  get : σ → (q : Q) → Option (V q) × σ
  put : σ → (q : Q) → V q → σ
  admin : σ → E → σ
  Holds : σ → (q : Q) → V q → Prop
  holds_of_get : ∀ {s q v}, (get s q).1 = some v → Holds s q v
  holds_after_get : ∀ {s q q' v}, Holds (get s q).2 q' v → Holds s q' v
  holds_after_put : ∀ {s q v} (q' v'), Holds (put s q v) q' v' →
    (⟨q', v'⟩ : Sigma V) = ⟨q, v⟩ ∨ Holds s q' v'
  holds_after_admin : ∀ {s e q v}, Holds (admin s e) q v → Holds s q v

/-- The memory without anybody to administer it. -/
def Memo.frozen {Q E σ : Type} {V : Q → Type} (M : Memo Q V E σ) : Memo Q V Empty σ where
  get := M.get
  put := M.put
  admin _ e := e.elim
  Holds := M.Holds
  holds_of_get := M.holds_of_get
  holds_after_get := M.holds_after_get
  holds_after_put := M.holds_after_put
  holds_after_admin {_ e} := e.elim

section Racing

variable {Q : Type} {V : Q → Type} {E σ ε α ι : Type}

/-- The answers a program gets: a value, or the failure of computing it. -/
abbrev Answer (V : Q → Type) (ε : Type) (q : Q) := Outcome ε (V q)

/-- Where a reader is: about to go on, past a miss, or with an answer it has not stored yet. -/
inductive Phase (V : Q → Type) (ε α : Type) where
  | running (p : Query Q (Answer V ε) α)
  | missed (q : Q) (k : Answer V ε q → Query Q (Answer V ε) α)
  | decoded (q : Q) (v : V q) (k : Answer V ε q → Query Q (Answer V ε) α)

/-- A reader: where it is, and every answer it got so far, latest first. -/
structure Reader (V : Q → Type) (ε α : Type) where
  phase : Phase V ε α
  log : List (Sigma (Answer V ε))

/-- A reader that is about to run `p`. -/
def Reader.start (p : Query Q (Answer V ε) α) : Reader V ε α := ⟨.running p, []⟩

/-- The reader goes on with the answer `r` to `q`. -/
def Reader.resume (rd : Reader V ε α) (q : Q) (r : Answer V ε q)
    (k : Answer V ε q → Query Q (Answer V ε) α) : Reader V ε α :=
  ⟨.running (k r), ⟨q, r⟩ :: rd.log⟩

/-- The shared memory and the readers. -/
structure World (V : Q → Type) (ε α σ ι : Type) where
  memory : σ
  readers : ι → Reader V ε α

variable [DecidableEq ι]

/-- The world after reader `i` stepped to `rd` and the memory became `s`. -/
def World.update (w : World V ε α σ ι) (s : σ) (i : ι) (rd : Reader V ε α) : World V ε α σ ι :=
  ⟨s, Function.update w.readers i rd⟩

@[simp] theorem World.update_self (w : World V ε α σ ι) (s : σ) (i : ι) (rd : Reader V ε α) :
    (w.update s i rd).readers i = rd := by
  unfold World.update
  exact Function.update_self ..

/-- One step of one reader, or of the administration. -/
inductive Step (M : Memo Q V E σ) (f : ∀ q, Answer V ε q) :
    World V ε α σ ι → World V ε α σ ι → Prop
  | hit {w i q k v} (hp : (w.readers i).phase = .running (.ask q k))
      (hg : (M.get w.memory q).1 = some v) :
      Step M f w (w.update (M.get w.memory q).2 i ((w.readers i).resume q (.ok v) k))
  | miss {w i q k} (hp : (w.readers i).phase = .running (.ask q k))
      (hg : (M.get w.memory q).1 = none) :
      Step M f w (w.update (M.get w.memory q).2 i ⟨.missed q k, (w.readers i).log⟩)
  | fail {w i q k e} (hp : (w.readers i).phase = .missed q k) (hf : f q = .error e) :
      Step M f w (w.update w.memory i ((w.readers i).resume q (.error e) k))
  | decode {w i q k v} (hp : (w.readers i).phase = .missed q k) (hf : f q = .ok v) :
      Step M f w (w.update w.memory i ⟨.decoded q v k, (w.readers i).log⟩)
  | insert {w i q k v} (hp : (w.readers i).phase = .decoded q v k) :
      Step M f w (w.update (M.put w.memory q v) i ((w.readers i).resume q (.ok v) k))
  | admin {w} (e : E) : Step M f w ⟨M.admin w.memory e, w.readers⟩

/-- Everything the memory holds is `f`'s answer. -/
def Sound (M : Memo Q V E σ) (f : ∀ q, Answer V ε q) (s : σ) : Prop :=
  ∀ q v, M.Holds s q v → f q = .ok v

/-- What the phase leads to when `f` answers every question from here on. -/
def Phase.Leads (f : ∀ q, Answer V ε q) (a : α) : Phase V ε α → Prop
  | .running p => p.run f = a
  | .missed q k => (k (f q)).run f = a
  | .decoded q v k => f q = .ok v ∧ (k (f q)).run f = a

/-- The reader is on its way to `a`, and every answer it got is `f`'s. -/
structure Reader.OnTrack (f : ∀ q, Answer V ε q) (a : α) (rd : Reader V ε α) : Prop where
  leads : rd.phase.Leads f a
  log : ∀ x ∈ rd.log, x.2 = f x.1

/-- The invariant of a world whose reader `i` is to return `a i`. -/
structure World.Inv (M : Memo Q V E σ) (f : ∀ q, Answer V ε q) (a : ι → α)
    (w : World V ε α σ ι) : Prop where
  sound : Sound M f w.memory
  onTrack : ∀ i, (w.readers i).OnTrack f (a i)

omit [DecidableEq ι] in
theorem Reader.OnTrack.resume {f : ∀ q, Answer V ε q} {a : α} {rd : Reader V ε α}
    (h : rd.OnTrack f a) {q : Q} {r : Answer V ε q} {k : Answer V ε q → Query Q (Answer V ε) α}
    (hr : r = f q) (hk : (k (f q)).run f = a) : (rd.resume q r k).OnTrack f a := by
  subst hr
  refine ⟨hk, fun x hx => ?_⟩
  rcases List.mem_cons.mp hx with rfl | hx
  · rfl
  · exact h.log x hx

omit [DecidableEq ι] in
theorem Sound.get {M : Memo Q V E σ} {f : ∀ q, Answer V ε q} {s : σ} (h : Sound M f s) (q : Q) :
    Sound M f (M.get s q).2 :=
  fun q' v hv => h q' v (M.holds_after_get hv)

omit [DecidableEq ι] in
theorem Sound.put {M : Memo Q V E σ} {f : ∀ q, Answer V ε q} {s : σ} (h : Sound M f s) {q : Q}
    {v : V q} (hv : f q = .ok v) : Sound M f (M.put s q v) := by
  intro q' v' hv'
  rcases M.holds_after_put q' v' hv' with heq | hold
  · cases heq; exact hv
  · exact h q' v' hold

theorem World.Inv.update {M : Memo Q V E σ} {f : ∀ q, Answer V ε q} {a : ι → α}
    {w : World V ε α σ ι} (h : w.Inv M f a) {s : σ} {i : ι} {rd : Reader V ε α}
    (hs : Sound M f s) (hrd : rd.OnTrack f (a i)) : (w.update s i rd).Inv M f a := by
  refine ⟨hs, fun j => ?_⟩
  show (Function.update w.readers i rd j).OnTrack f (a j)
  by_cases hj : j = i
  · subst hj; rw [Function.update_self]; exact hrd
  · rw [Function.update_of_ne hj]; exact h.onTrack j

/-- **One step keeps the invariant.** -/
theorem World.Inv.step {M : Memo Q V E σ} {f : ∀ q, Answer V ε q} {a : ι → α}
    {w w' : World V ε α σ ι} (h : w.Inv M f a) (hs : Step M f w w') : w'.Inv M f a := by
  cases hs with
  | @hit i q k v hp hg =>
    have ht := h.onTrack i
    have hl := ht.leads
    rw [hp] at hl
    exact h.update (h.sound.get q)
      (ht.resume (h.sound q v (M.holds_of_get hg)).symm hl)
  | @miss i q k hp hg =>
    have ht := h.onTrack i
    have hl := ht.leads
    rw [hp] at hl
    exact h.update (h.sound.get q) ⟨hl, ht.log⟩
  | @fail i q k e hp hf =>
    have ht := h.onTrack i
    have hl := ht.leads
    rw [hp] at hl
    exact h.update h.sound (ht.resume hf.symm hl)
  | @decode i q k v hp hf =>
    have ht := h.onTrack i
    have hl := ht.leads
    rw [hp] at hl
    exact h.update h.sound ⟨⟨hf, hl⟩, ht.log⟩
  | @insert i q k v hp =>
    have ht := h.onTrack i
    have hl := ht.leads
    rw [hp] at hl
    exact h.update (h.sound.put hl.1) (ht.resume hl.1.symm hl.2)
  | admin e =>
    exact ⟨fun q v hv => h.sound q v (M.holds_after_admin hv), h.onTrack⟩

/-- **Every run keeps the invariant.** -/
theorem World.Inv.run {M : Memo Q V E σ} {f : ∀ q, Answer V ε q} {a : ι → α}
    {w w' : World V ε α σ ι} (h : w.Inv M f a) (hs : Relation.ReflTransGen (Step M f) w w') :
    w'.Inv M f a := by
  induction hs with
  | refl => exact h
  | tail _ hstep ih => exact ih.step hstep

/-- **The memory is invisible.** From a memory that holds only true answers, in every reachable
world every answer a reader got is `f`'s, and a reader that has finished returned what it returns
when `f` answers each of its questions. -/
theorem racing_invisible {M : Memo Q V E σ} {f : ∀ q, Answer V ε q} {s : σ} (hs : Sound M f s)
    (p : ι → Query Q (Answer V ε) α) {w : World V ε α σ ι}
    (hrun : Relation.ReflTransGen (Step M f) ⟨s, fun i => .start (p i)⟩ w) (i : ι) :
    (∀ x ∈ (w.readers i).log, x.2 = f x.1) ∧
      ∀ a, (w.readers i).phase = .running (.ret a) → a = (p i).run f := by
  have h0 : World.Inv M f (fun i => (p i).run f) ⟨s, fun i => .start (p i)⟩ :=
    ⟨hs, fun i => ⟨rfl, fun x hx => absurd hx List.not_mem_nil⟩⟩
  have h := (h0.run hrun).onTrack i
  refine ⟨h.log, fun a ha => ?_⟩
  have hl := h.leads
  rw [ha] at hl
  exact hl

theorem World.phase_update (w : World V ε α σ ι) (s : σ) (i : ι) (rd : Reader V ε α) :
    ((w.update s i rd).readers i).phase = rd.phase := by
  rw [World.update_self]

/-- A reader with a question can get an answer to it by itself. -/
theorem World.serve {M : Memo Q V E σ} {f : ∀ q, Answer V ε q} {w : World V ε α σ ι} {i : ι} {q : Q}
    {k : Answer V ε q → Query Q (Answer V ε) α} (hp : (w.readers i).phase = .running (.ask q k)) :
    ∃ w' r, Relation.ReflTransGen (Step M f) w w' ∧ (w'.readers i).phase = .running (k r) := by
  rcases hg : (M.get w.memory q).1 with _ | v
  · have hmiss := Step.miss (f := f) hp hg
    have hmissed := w.phase_update (M.get w.memory q).2 i ⟨.missed q k, (w.readers i).log⟩
    generalize w.update (M.get w.memory q).2 i ⟨.missed q k, (w.readers i).log⟩ = w₁ at *
    rcases hf : f q with e | v
    · exact ⟨_, .error e, .head hmiss (.single (.fail hmissed hf)), World.phase_update ..⟩
    · have hdecoded := w₁.phase_update w₁.memory i ⟨.decoded q v k, (w₁.readers i).log⟩
      exact ⟨_, .ok v, .head hmiss (.head (.decode hmissed hf) (.single (.insert hdecoded))),
        World.phase_update ..⟩
  · exact ⟨_, .ok v, .single (.hit hp hg), World.phase_update ..⟩

/-- **A reader can always finish** by itself, whatever the memory holds. -/
theorem World.finish {M : Memo Q V E σ} {f : ∀ q, Answer V ε q} {w : World V ε α σ ι} {i : ι}
    {p : Query Q (Answer V ε) α} (hp : (w.readers i).phase = .running p) :
    ∃ w' a, Relation.ReflTransGen (Step M f) w w' ∧ (w'.readers i).phase = .running (.ret a) := by
  induction p generalizing w with
  | ret a => exact ⟨w, a, .refl, hp⟩
  | ask q k ih =>
    obtain ⟨w', r, hserve, hp'⟩ := World.serve (M := M) (f := f) hp
    obtain ⟨w'', a, hrun, ha⟩ := ih r hp'
    exact ⟨w'', a, hserve.trans hrun, ha⟩

end Racing

end Squashfs.Foundation
