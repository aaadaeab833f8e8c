import Mathlib.Algebra.Order.BigOperators.Group.List
import Mathlib.Algebra.Order.Ring.Nat
import Mathlib.Data.Fintype.Card
import Squashfs.Foundation.Asked
import Squashfs.Foundation.Computed

/-!
# Memories that keep books

`Memo.lift` puts bookkeeping on a memory: its operations do what the memory's do, and whatever they
like to the books. `recorded` is the memory that keeps its whole history, latest deed first.

**`World.memory_keeps`**: what a memory keeps under the questions that readers ask, it keeps while
they race. **`World.misses_le`**: where a memory has room for every question asked, a question that
has an answer is missed no more often than readers were computing it at one time. Once it was
stored nobody misses it again, and until then whoever missed it is still at it.

`Recency.Kept` says that a bounded map keeps to its capacity and has no key twice;
`Recency.footprint_le` bounds what its values weigh.
-/

namespace Squashfs.Foundation

variable {Q : Type} {V : Q → Type} {E σ σ' : Type}

/-! ## Books -/

/-- A memory under books: `plain` forgets them. -/
def Memo.lift (M : Memo Q V E σ) (plain : σ' → σ) (get : σ' → (q : Q) → Option (V q) × σ')
    (put : σ' → (q : Q) → V q → σ') (admin : σ' → E → σ')
    (hget : ∀ s q, ((get s q).1, plain (get s q).2) = M.get (plain s) q)
    (hput : ∀ s q v, plain (put s q v) = M.put (plain s) q v)
    (hadmin : ∀ s e, plain (admin s e) = M.admin (plain s) e) : Memo Q V E σ' where
  get := get
  put := put
  admin := admin
  Holds s q v := M.Holds (plain s) q v
  holds_of_get {s q v} h := by
    have hg : (get s q).1 = (M.get (plain s) q).1 := congrArg Prod.fst (hget s q)
    exact M.holds_of_get (hg.symm.trans h)
  holds_after_get {s q q' v} h := by
    have hg : plain (get s q).2 = (M.get (plain s) q).2 := congrArg Prod.snd (hget s q)
    rw [hg] at h
    exact M.holds_after_get h
  holds_after_put {s q v} q' v' h := by
    rw [hput] at h
    exact M.holds_after_put q' v' h
  holds_after_admin {s e q v} h := by
    rw [hadmin] at h
    exact M.holds_after_admin h

/-- What was done to a memory. -/
inductive Deed (Q E : Type) where
  | looked (q : Q) (hit : Bool)
  | stored (q : Q)
  | administered (e : E)
  deriving Repr, DecidableEq

/-- The memory with its history. -/
def Memo.recorded (M : Memo Q V E σ) : Memo Q V E (σ × List (Deed Q E)) :=
  M.lift Prod.fst
    (fun s q => ((M.get s.1 q).1, (M.get s.1 q).2, .looked q (M.get s.1 q).1.isSome :: s.2))
    (fun s q v => (M.put s.1 q v, .stored q :: s.2))
    (fun s e => (M.admin s.1 e, .administered e :: s.2))
    (fun _ _ => rfl) (fun _ _ _ => rfl) fun _ _ => rfl

/-! ## Readers and what they are to ask -/

variable {ε α ι : Type}

/-- What the reader is still to ask when `f` answers, and what it is computing. -/
def Phase.asked (f : ∀ q, Answer V ε q) : Phase V ε α → List Q
  | .running p => p.asked f
  | .missed q k => q :: (k (f q)).asked f
  | .decoded q _ k => q :: (k (f q)).asked f

/-- Under questions with `K` and their answers, and under its administration, the memory keeps
`I`. -/
structure Memo.Keeps (M : Memo Q V E σ) (f : ∀ q, Answer V ε q) (K : Q → Prop)
    (I : σ → Prop) : Prop where
  get : ∀ {s q}, I s → K q → I (M.get s q).2
  put : ∀ {s q v}, I s → K q → f q = .ok v → I (M.put s q v)
  admin : ∀ {s} e, I s → I (M.admin s e)

/-- The memory has `I`, and the readers ask questions with `K`. -/
structure World.Within (f : ∀ q, Answer V ε q) (K : Q → Prop) (I : σ → Prop)
    (w : World V ε α σ ι) : Prop where
  memory : I w.memory
  asks : ∀ i, ∀ q ∈ (w.readers i).phase.asked f, K q

section Within

variable [DecidableEq ι] {M : Memo Q V E σ} {f : ∀ q, Answer V ε q} {K : Q → Prop} {I : σ → Prop}
  {a : ι → α} {w w' : World V ε α σ ι} {s : σ} {i : ι} {rd : Reader V ε α}

theorem World.Within.update (h : w.Within f K I) (hs : I s) (hrd : ∀ q ∈ rd.phase.asked f, K q) :
    (w.update s i rd).Within f K I := by
  refine ⟨hs, fun j => ?_⟩
  by_cases hj : j = i
  · subst hj
    rw [World.update_self]
    exact hrd
  · show ∀ q ∈ (Function.update w.readers i rd j).phase.asked f, K q
    rw [Function.update_of_ne hj]
    exact h.asks j

/-- **One step** of a reader stays within what it is to ask. -/
theorem World.Within.step (hM : M.Keeps f K I) (hinv : w.Inv M f a) (h : w.Within f K I)
    (hs : Step M f w w') : w'.Within f K I := by
  cases hs with
  | @hit i q k v hp hg =>
    have hasks := h.asks i
    rw [hp] at hasks
    have hv : f q = .ok v := hinv.sound q v (M.holds_of_get hg)
    refine h.update (hM.get h.memory (hasks q List.mem_cons_self)) fun q' hq' => ?_
    refine hasks q' (List.mem_cons_of_mem _ ?_)
    rw [hv]
    exact hq'
  | @miss i q k hp hg =>
    have hasks := h.asks i
    rw [hp] at hasks
    exact h.update (hM.get h.memory (hasks q List.mem_cons_self)) hasks
  | @fail i q k e hp hf =>
    have hasks := h.asks i
    rw [hp] at hasks
    refine h.update h.memory fun q' hq' => hasks q' (List.mem_cons_of_mem _ ?_)
    rw [hf]
    exact hq'
  | @decode i q k v hp hf =>
    have hasks := h.asks i
    rw [hp] at hasks
    exact h.update h.memory hasks
  | @insert i q k v hp =>
    have hasks := h.asks i
    rw [hp] at hasks
    have hv : f q = .ok v := by
      have hleads := (hinv.onTrack i).leads
      rw [hp] at hleads
      exact hleads.1
    refine h.update (hM.put h.memory (hasks q List.mem_cons_self) hv) fun q' hq' => ?_
    refine hasks q' (List.mem_cons_of_mem _ ?_)
    rw [hv]
    exact hq'
  | admin e => exact ⟨hM.admin e h.memory, h.asks⟩

omit [DecidableEq ι] in
/-- Readers about to start over a sound memory. -/
theorem World.inv_start (hsound : Sound M f s) (p : ι → Query Q (Answer V ε) α) :
    World.Inv M f (fun i => (p i).run f) ⟨s, fun i => .start (p i)⟩ :=
  ⟨hsound, fun _ => ⟨rfl, fun _ hx => absurd hx List.not_mem_nil⟩⟩

/-- **What a memory keeps under the questions asked, it keeps while readers race**, and while it
is administered. -/
theorem World.memory_keeps (hM : M.Keeps f K I) (hsound : Sound M f s) (hI : I s)
    (p : ι → Query Q (Answer V ε) α) (hp : ∀ i, ∀ q ∈ (p i).asked f, K q)
    (hrun : Relation.ReflTransGen (Step M f) ⟨s, fun i => .start (p i)⟩ w) :
    w.Inv M f (fun i => (p i).run f) ∧ w.Within f K I := by
  induction hrun with
  | refl => exact ⟨World.inv_start hsound p, hI, hp⟩
  | tail _ hstep ih => exact ⟨ih.1.step hstep, ih.2.step hM ih.1 hstep⟩

end Within

/-! ## Misses -/

/-- How often a question was missed. -/
def misses [DecidableEq Q] [DecidableEq E] (q : Q) (deeds : List (Deed Q E)) : Nat :=
  deeds.count (.looked q false)

theorem misses_cons [DecidableEq Q] [DecidableEq E] {q : Q} {d : Deed Q E}
    (deeds : List (Deed Q E)) (h : d ≠ .looked q false) :
    misses q (d :: deeds) = misses q deeds := List.count_cons_of_ne h

/-- The memory has an answer. -/
def Memo.Answers (M : Memo Q V E σ) (s : σ) (q : Q) : Prop := (M.get s q).1.isSome

/-- While only questions with `K` are asked and `I` holds, the memory keeps what it has on the
questions with `keep`. -/
structure Memo.Roomy (M : Memo Q V E σ) (K keep : Q → Prop) (I : σ → Prop) : Prop where
  get : ∀ {s q q'}, I s → K q → keep q' → M.Answers s q' → M.Answers (M.get s q).2 q'
  put : ∀ {s q q'} v, I s → K q → keep q' → q' = q ∨ M.Answers s q' →
    M.Answers (M.put s q v) q'

/-- The reader is computing the question, or has not stored the answer yet. -/
def Phase.At (q : Q) : Phase V ε α → Prop
  | .running _ => False
  | .missed q' _ => q' = q
  | .decoded q' _ _ => q' = q

section Pending

variable [DecidableEq Q] [Fintype ι]

instance instDecidableAt (q : Q) (phase : Phase V ε α) : Decidable (phase.At q) :=
  match phase with
  | .running _ => inferInstanceAs (Decidable False)
  | .missed q' _ => inferInstanceAs (Decidable (q' = q))
  | .decoded q' _ _ => inferInstanceAs (Decidable (q' = q))

/-- How many readers are computing the question. -/
def World.pending (q : Q) (w : World V ε α σ ι) : Nat :=
  (Finset.univ.filter fun i => (w.readers i).phase.At q).card

theorem World.pending_le (q : Q) (w : World V ε α σ ι) : w.pending q ≤ Fintype.card ι :=
  Finset.card_filter_le _ _

variable [DecidableEq ι] {q : Q} {w : World V ε α σ ι} {s : σ} {i : ι} {rd : Reader V ε α}

omit [DecidableEq Q] [Fintype ι] in
theorem World.at_update (j : ι) :
    ((w.update s i rd).readers j).phase.At q ↔
      if j = i then rd.phase.At q else (w.readers j).phase.At q := by
  by_cases hj : j = i
  · subst hj
    rw [World.update_self, if_pos rfl]
  · rw [if_neg hj]
    show (Function.update w.readers i rd j).phase.At q ↔ _
    rw [Function.update_of_ne hj]

/-- A step that leaves a reader where it was leaves their number. -/
theorem World.pending_update (h : rd.phase.At q ↔ (w.readers i).phase.At q) :
    (w.update s i rd).pending q = w.pending q := by
  refine congrArg Finset.card (Finset.filter_congr fun j _ => ?_)
  rw [World.at_update]
  split
  · rename_i hj
    rw [hj]
    exact h
  · exact Iff.rfl

/-- A reader more. -/
theorem World.pending_update_at (h : rd.phase.At q) (hno : ¬ (w.readers i).phase.At q) :
    (w.update s i rd).pending q = w.pending q + 1 := by
  have hout : i ∉ Finset.univ.filter fun j => (w.readers j).phase.At q := fun hmem =>
    hno (Finset.mem_filter.mp hmem).2
  unfold World.pending
  rw [← Finset.card_insert_of_notMem hout]
  congr 1
  ext j
  rw [Finset.mem_filter, World.at_update, Finset.mem_insert, Finset.mem_filter]
  by_cases hj : j = i
  · simp [hj, h]
  · simp [hj]

variable [DecidableEq E] {M : Memo Q V E σ} {f : ∀ q, Answer V ε q} {K keep : Q → Prop}
  {I : σ → Prop} {a : ι → α} {n : Nat} {w' : World V ε α (σ × List (Deed Q E)) ι}

/-- The books of a world where at most `n` readers compute `q` at one time: the memory has an
answer to `q`, or whoever missed it is still at it. -/
structure World.Tally (M : Memo Q V E σ) (q : Q) (n : Nat)
    (w : World V ε α (σ × List (Deed Q E)) ι) : Prop where
  missed : M.Answers w.memory.1 q ∨ misses q w.memory.2 = w.pending q
  misses_le : misses q w.memory.2 ≤ n

/-- A step of a reader that neither begins nor ends computing `q`. -/
theorem World.Tally.aside {w : World V ε α (σ × List (Deed Q E)) ι} (h : w.Tally M q n) {s : σ}
    {deeds : List (Deed Q E)} (hanswers : M.Answers w.memory.1 q → M.Answers s q)
    (hcount : misses q deeds = misses q w.memory.2)
    (hat : rd.phase.At q ↔ (w.readers i).phase.At q) :
    (w.update (s, deeds) i rd).Tally M q n := by
  refine ⟨?_, hcount.trans_le h.misses_le⟩
  rw [World.pending_update hat]
  exact h.missed.imp hanswers hcount.trans

/-- **One step keeps the tally**, when no more than `n` readers compute `q` after it. -/
theorem World.Tally.step {w : World V ε α (σ × List (Deed Q E)) ι} (hroomy : M.Roomy K keep I)
    (hkeep : keep q) (hq : ∃ v, f q = .ok v) (hwithin : w.Within f K (I ·.1))
    (h : w.Tally M q n) (hs : Step M.recorded.frozen f w w') (hn : w'.pending q ≤ n) :
    w'.Tally M q n := by
  cases hs with
  | @hit i q₁ k v hp hg =>
    have hasks := hwithin.asks i
    rw [hp] at hasks
    have hhit : (M.get w.memory.1 q₁).1 = some v := hg
    refine h.aside (hroomy.get hwithin.memory (hasks q₁ List.mem_cons_self) hkeep)
      (misses_cons _ ?_) (by rw [hp]; exact Iff.rfl)
    rw [hhit]
    simp
  | @miss i q₁ k hp hg =>
    have hasks := hwithin.asks i
    rw [hp] at hasks
    have hnone : (M.get w.memory.1 q₁).1 = none := hg
    by_cases hq₁ : q₁ = q
    · subst hq₁
      -- nobody has stored it yet, so all who missed it before are still at it
      have hmissed : misses q₁ w.memory.2 = w.pending q₁ := by
        refine h.missed.resolve_left fun hanswers => ?_
        unfold Memo.Answers at hanswers
        rw [hnone] at hanswers
        cases hanswers
      have hcount : misses q₁ (.looked q₁ (M.get w.memory.1 q₁).1.isSome :: w.memory.2) =
          misses q₁ w.memory.2 + 1 := by
        unfold misses
        rw [hnone, Option.isSome_none, List.count_cons_self]
      have hpending : (w.update (M.recorded.frozen.get w.memory q₁).2 i
          ⟨.missed q₁ k, (w.readers i).log⟩).pending q₁ = w.pending q₁ + 1 :=
        World.pending_update_at rfl (by rw [hp]; exact id)
      have hsame := hcount.trans ((congrArg (· + 1) hmissed).trans hpending.symm)
      exact ⟨.inr hsame, hsame.trans_le hn⟩
    · refine h.aside (hroomy.get hwithin.memory (hasks q₁ List.mem_cons_self) hkeep)
        (misses_cons _ ?_) (by rw [hp]; exact iff_of_false hq₁ id)
      simp [hq₁]
  | @fail i q₁ k e hp hf =>
    have hq₁ : q₁ ≠ q := by
      rintro rfl
      obtain ⟨v, hv⟩ := hq
      rw [hf] at hv
      cases hv
    exact h.aside id rfl (by rw [hp]; exact iff_of_false id hq₁)
  | @decode i q₁ k v hp hf => exact h.aside id rfl (by rw [hp]; exact Iff.rfl)
  | @insert i q₁ k v hp =>
    have hasks := hwithin.asks i
    rw [hp] at hasks
    have hput := hroomy.put v hwithin.memory (hasks q₁ List.mem_cons_self) hkeep
    have hcount := misses_cons (q := q) (d := .stored q₁) w.memory.2 (by simp)
    by_cases hq₁ : q = q₁
    · exact ⟨.inl (hput (.inl hq₁)), hcount.trans_le h.misses_le⟩
    · exact h.aside (fun hanswers => hput (.inr hanswers)) hcount
        (by rw [hp]; exact iff_of_false id (Ne.symm hq₁))
  | admin e => exact e.elim

/-- **A question is missed no more often than readers compute it at one time**, where the memory
has room. -/
theorem World.misses_le {s : σ} (hkeeps : M.recorded.frozen.Keeps f K (I ·.1))
    (hroomy : M.Roomy K keep I) (hkeep : keep q) (hq : ∃ v, f q = .ok v) (hI : I s)
    (hsound : Sound M f s) (p : ι → Query Q (Answer V ε) α)
    (hp : ∀ i, ∀ q' ∈ (p i).asked f, K q') {w : World V ε α (σ × List (Deed Q E)) ι}
    (hrun : Relation.ReflTransGen
      (fun w w' => Step M.recorded.frozen f w w' ∧ w'.pending q ≤ n)
      ⟨(s, []), fun i => .start (p i)⟩ w) :
    misses q w.memory.2 ≤ n := by
  have hsound : Sound M.recorded.frozen f (s, []) := hsound
  have hnobody : World.pending q
      (⟨(s, []), fun i => .start (p i)⟩ : World V ε α (σ × List (Deed Q E)) ι) = 0 :=
    Finset.card_eq_zero.mpr (Finset.filter_eq_empty_iff.mpr fun _ _ => id)
  have hrun : Relation.ReflTransGen (Step M.recorded.frozen f)
      ⟨(s, []), fun i => .start (p i)⟩ w ∧ w.Tally M q n := by
    induction hrun with
    | refl => exact ⟨.refl, .inr hnobody.symm, Nat.zero_le _⟩
    | tail _ hstep ih =>
      have hwithin := (World.memory_keeps hkeeps hsound hI p hp ih.1).2
      exact ⟨.tail ih.1 hstep.1, ih.2.step hroomy hkeep hq hwithin hstep.1 hstep.2⟩
  exact hrun.2.misses_le

end Pending

/-! ## Maps that keep to their capacity -/

namespace BoundedMap.Recency

variable {κ ν : Type} [DecidableEq κ] {B : BoundedMap κ ν σ} (R : B.Recency) {P : κ → Prop}
  {s : σ} {k k' : κ}

/-- No more keys than the capacity, none twice, and all of them with `P`. -/
structure Kept (P : κ → Prop) (s : σ) : Prop where
  length_le : (R.keys s).length ≤ R.capacity s
  nodup : (R.keys s).Nodup
  all : ∀ k ∈ R.keys s, P k

theorem kept_new (P : κ → Prop) (c : Nat) : R.Kept P (B.new c) := by
  refine ⟨?_, ?_, fun k hk => ?_⟩
  · rw [R.keys_new]
    exact Nat.zero_le _
  · rw [R.keys_new]
    exact List.nodup_nil
  · rw [R.keys_new] at hk
    exact absurd hk List.not_mem_nil

/-- A look-up moves a key to the front, if it does anything. -/
theorem keys_get (hnodup : (R.keys s).Nodup) (k : κ) :
    (R.keys (B.get s k).2).Perm (R.keys s) := by
  by_cases hk : k ∈ R.keys s
  · have hfilter : (R.keys s).filter (· ≠ k) = (R.keys s).erase k := by
      rw [hnodup.erase_eq_filter]
      exact List.filter_congr fun x _ => decide_not
    rw [R.keys_hit s k hk, hfilter]
    exact (List.perm_cons_erase hk).symm
  · rw [R.keys_miss s k hk]

variable {R}

theorem Kept.get (h : R.Kept P s) (k : κ) : R.Kept P (B.get s k).2 := by
  have hperm := R.keys_get h.nodup k
  refine ⟨?_, hperm.nodup_iff.mpr h.nodup, fun k' hk' => h.all k' (hperm.mem_iff.mp hk')⟩
  rw [hperm.length_eq, R.capacity_get]
  exact h.length_le

theorem Kept.put (h : R.Kept P s) (hk : P k) (v : ν) : R.Kept P (B.put s k v) := by
  have hkeys := R.keys_put s k v
  have hcons : (k :: (R.keys s).filter (· ≠ k)).Nodup :=
    List.nodup_cons.mpr ⟨fun hmem => of_decide_eq_true (List.mem_filter.mp hmem).2 rfl,
      h.nodup.filter _⟩
  refine ⟨?_, ?_, fun k' hk' => ?_⟩
  · rw [hkeys, R.capacity_put]
    exact List.length_take_le _ _
  · rw [hkeys]
    exact hcons.sublist (List.take_sublist _ _)
  · rw [hkeys] at hk'
    rcases List.mem_cons.mp (List.mem_of_mem_take hk') with rfl | hk'
    · exact hk
    · exact h.all k' (List.mem_of_mem_filter hk')

/-- With room for every key there may be, nothing is dropped. -/
theorem Kept.mem_keys_put {K : Finset κ} (h : R.Kept (· ∈ K) s) (hroom : K.card ≤ R.capacity s)
    (hk : k ∈ K) (v : ν) : k' ∈ R.keys (B.put s k v) ↔ k' = k ∨ k' ∈ R.keys s := by
  have hcons : (k :: (R.keys s).filter (· ≠ k)).Nodup :=
    List.nodup_cons.mpr ⟨fun hmem => of_decide_eq_true (List.mem_filter.mp hmem).2 rfl,
      h.nodup.filter _⟩
  have hsub : (k :: (R.keys s).filter (· ≠ k)).toFinset ⊆ K := fun x hx => by
    rcases List.mem_cons.mp (List.mem_toFinset.mp hx) with rfl | hx
    · exact hk
    · exact h.all x (List.mem_of_mem_filter hx)
  have hlen : (k :: (R.keys s).filter (· ≠ k)).length ≤ R.capacity s := by
    rw [← List.toFinset_card_of_nodup hcons]
    exact (Finset.card_le_card hsub).trans hroom
  rw [R.keys_put, List.take_of_length_le hlen, List.mem_cons, List.mem_filter]
  by_cases hkk : k' = k
  · simp [hkk]
  · simp [hkk]

/-- What a map's values weigh together. -/
def footprint (R : B.Recency) (size : ν → Nat) (s : σ) : Nat :=
  ((R.keys s).map fun k => (B.get s k).1.elim 0 size).sum

/-- **A map weighs no more than its capacity allows.** -/
theorem Kept.footprint_le {size : ν → Nat} {bound : Nat} (h : R.Kept P s)
    (hsize : ∀ k v, P k → B.Holds s k v → size v ≤ bound) :
    R.footprint size s ≤ R.capacity s * bound := by
  have hle : ∀ n ∈ (R.keys s).map fun k => (B.get s k).1.elim 0 size, n ≤ bound := by
    intro n hn
    obtain ⟨k, hk, rfl⟩ := List.mem_map.mp hn
    rcases hg : (B.get s k).1 with _ | v
    · exact Nat.zero_le _
    · exact hsize k v (h.all k hk) (B.holds_of_get hg)
  calc R.footprint size s
      ≤ ((R.keys s).map fun k => (B.get s k).1.elim 0 size).length • bound :=
        List.sum_le_card_nsmul _ _ hle
    _ = (R.keys s).length * bound := by
      rw [List.length_map]
      exact Nat.nsmul_eq_mul _ _
    _ ≤ R.capacity s * bound := Nat.mul_le_mul_right _ h.length_le

end BoundedMap.Recency

end Squashfs.Foundation
