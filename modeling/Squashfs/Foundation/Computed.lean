import Mathlib.Data.Finset.Card
import Squashfs.Foundation.Asked
import Squashfs.Foundation.Memo

/-!
# What a memory still computes

`serve` runs a program alone over a memory and notes which questions it asked and which of them
had to be computed. It is one of the runs of `Memo.lean` (**`serve_steps`**), and over a sound
memory it is the direct run with a log (**`serve_eq`**): what is computed depends on the questions
asked alone, so it is a function `computed` of their list.

Two results about the list. A memory that remembers the last question it answered computes each of
a sequence of requests once, when they come in order and each may be repeated before the next
(**`computed_sublist`**). A map that drops only its oldest entry, and only beyond its capacity
(`Recency`), computes no question twice when it has room for all the different ones
(**`count_computed_le`**), whatever their order.
-/

namespace Squashfs.Foundation

section Serial

variable {Q : Type} {V : Q → Type} {E σ ε α ι : Type} (M : Memo Q V E σ) (f : ∀ q, Answer V ε q)

/-! ## One program over a memory -/

/-- What a program run alone over a memory gives, the memory it leaves, the questions it asked and
those that were computed. -/
structure Served (Q σ α : Type) where
  value : α
  memory : σ
  asked : List Q
  computed : List Q

/-- The run after one more question in front. -/
def Served.after (q : Q) (computed : List Q) (r : Served Q σ α) : Served Q σ α :=
  { r with asked := q :: r.asked, computed := computed ++ r.computed }

/-- Run a program alone over a memory: look a question up, and on a miss compute the answer and
store it unless it is a failure. -/
def Query.serve : Query Q (Answer V ε) α → σ → Served Q σ α
  | .ret a, s => ⟨a, s, [], []⟩
  | .ask q k, s =>
    match (M.get s q).1 with
    | some v => ((k (.ok v)).serve (M.get s q).2).after q []
    | none =>
      match f q with
      | .ok v => ((k (.ok v)).serve (M.put (M.get s q).2 q v)).after q [q]
      | .error e => ((k (.error e)).serve (M.get s q).2).after q [q]

variable {M f}

/-- **A program run alone is one of the readers' runs.** -/
theorem serve_steps [DecidableEq ι] (p : Query Q (Answer V ε) α) {w : World V ε α σ ι} {i : ι}
    (hp : (w.readers i).phase = .running p) :
    ∃ w', Relation.ReflTransGen (Step M f) w w' ∧ w'.memory = (p.serve M f w.memory).memory ∧
      (w'.readers i).phase = .running (.ret (p.serve M f w.memory).value) := by
  induction p generalizing w with
  | ret a => exact ⟨w, .refl, rfl, hp⟩
  | ask q k ih =>
    unfold Query.serve
    rcases hg : (M.get w.memory q).1 with _ | v
    · have hmiss := Step.miss (f := f) hp hg
      have hmissed := w.phase_update (M.get w.memory q).2 i ⟨.missed q k, (w.readers i).log⟩
      have hmemory : (w.update (M.get w.memory q).2 i ⟨.missed q k, (w.readers i).log⟩).memory =
        (M.get w.memory q).2 := rfl
      generalize w.update (M.get w.memory q).2 i ⟨.missed q k, (w.readers i).log⟩ = w₁ at *
      rw [← hmemory]
      rcases hf : f q with e | v
      · obtain ⟨w', hrun, hw'⟩ := ih (.error e) (w₁.phase_update w₁.memory i
          ((w₁.readers i).resume q (.error e) k))
        exact ⟨w', .head hmiss (.head (.fail hmissed hf) hrun), hw'⟩
      · have hdecoded := w₁.phase_update w₁.memory i ⟨.decoded q v k, (w₁.readers i).log⟩
        obtain ⟨w', hrun, hw'⟩ := ih (.ok v) (World.phase_update _ (M.put w₁.memory q v) i
          (Reader.resume _ q (.ok v) k))
        exact ⟨w', .head hmiss (.head (.decode hmissed hf) (.head (.insert hdecoded) hrun)), hw'⟩
    · obtain ⟨w', hrun, hw'⟩ := ih (.ok v) (w.phase_update (M.get w.memory q).2 i
        ((w.readers i).resume q (.ok v) k))
      exact ⟨w', .head (.hit hp hg) hrun, hw'⟩

/-! ## The questions alone -/

variable (M f)

/-- The memory after a question was answered through it. -/
def Memo.after (s : σ) (q : Q) : σ :=
  match (M.get s q).1 with
  | some _ => (M.get s q).2
  | none =>
    match f q with
    | .ok v => M.put (M.get s q).2 q v
    | .error _ => (M.get s q).2

/-- The memory after a list of questions. -/
def Memo.through (s : σ) (qs : List Q) : σ := qs.foldl (M.after f) s

/-- Those of a list of questions that are computed. -/
def Memo.computed : σ → List Q → List Q
  | _, [] => []
  | s, q :: qs =>
    if (M.get s q).1.isSome then Memo.computed (M.after f s q) qs
    else q :: Memo.computed (M.after f s q) qs

variable {M f} {s : σ} {q : Q} {qs : List Q}

theorem computed_hit (h : (M.get s q).1.isSome) :
    M.computed f s (q :: qs) = M.computed f (M.after f s q) qs := by
  rw [Memo.computed, if_pos h]

theorem computed_miss (h : ¬ (M.get s q).1.isSome) :
    M.computed f s (q :: qs) = q :: M.computed f (M.after f s q) qs := by
  rw [Memo.computed, if_neg h]

theorem computed_append (qs qs' : List Q) :
    M.computed f s (qs ++ qs') = M.computed f s qs ++ M.computed f (M.through f s qs) qs' := by
  induction qs generalizing s with
  | nil => rfl
  | cons q qs ih =>
    by_cases h : (M.get s q).1.isSome
    · rw [List.cons_append, computed_hit h, computed_hit h, ih]
      rfl
    · rw [List.cons_append, computed_miss h, computed_miss h, ih]
      rfl

theorem computed_subset : M.computed f s qs ⊆ qs := by
  induction qs generalizing s with
  | nil => exact List.Subset.refl _
  | cons q qs ih =>
    by_cases h : (M.get s q).1.isSome
    · rw [computed_hit h]
      exact List.subset_cons_of_subset q ih
    · rw [computed_miss h]
      exact List.cons_subset_cons q ih

theorem Sound.after (h : Sound M f s) (q : Q) : Sound M f (M.after f s q) := by
  unfold Memo.after
  split
  · exact h.get q
  · split
    · rename_i v hv
      exact (h.get q).put hv
    · exact h.get q

theorem Sound.through (h : Sound M f s) (qs : List Q) : Sound M f (M.through f s qs) := by
  induction qs generalizing s with
  | nil => exact h
  | cons q qs ih => exact ih (h.after q)

/-- **Over a sound memory a program runs as it does directly**, and what is computed is read off
the questions it asks. -/
theorem serve_eq (h : Sound M f s) (p : Query Q (Answer V ε) α) :
    p.serve M f s =
      ⟨p.run f, M.through f s (p.asked f), p.asked f, M.computed f s (p.asked f)⟩ := by
  induction p generalizing s with
  | ret a => rfl
  | ask q k ih =>
    have hafter := ih (f q) (h.after q)
    rw [Query.run, Query.asked, Memo.computed, Memo.through, List.foldl_cons]
    unfold Query.serve
    unfold Memo.after at hafter ⊢
    rcases hg : (M.get s q).1 with _ | v
    · rw [hg] at hafter
      rcases hf : f q with e | v
      · rw [hf] at hafter
        dsimp only at hafter ⊢
        rw [hafter]
        rfl
      · rw [hf] at hafter
        dsimp only at hafter ⊢
        rw [hafter]
        rfl
    · rw [hg, h q v (M.holds_of_get hg)] at hafter
      rw [h q v (M.holds_of_get hg)]
      dsimp only at hafter ⊢
      rw [hafter]
      rfl

/-! ## Requests in order -/

/-- The memory holds a question's answer, if there is a question. -/
def Memo.Ready (M : Memo Q V E σ) (s : σ) (request : Option Q) : Prop :=
  ∀ q ∈ request, (M.get s q).1.isSome

theorem range_split {lo mid stop : Nat} (h : lo ≤ mid) (h' : mid ≤ stop) :
    List.range' lo (stop - lo) = List.range' lo (mid - lo) ++ List.range' mid (stop - mid) := by
  have happend := @List.range'_append_1 lo (mid - lo) (stop - mid)
  rw [Nat.add_sub_cancel' h] at happend
  rw [happend]
  congr 1
  omega

variable {I : σ → Prop} {request : Nat → Option Q}

/-- **Requests in order are computed once each**, if the memory remembers what it answered last. -/
theorem computed_sublist (hkeep : ∀ s q, I s → (∃ v, f q = .ok v) →
      I (M.after f s q) ∧ (M.get (M.after f s q) q).1.isSome)
    {is : List Nat} (hsort : is.Pairwise (· ≤ ·)) {lo stop : Nat}
    (hin : ∀ i ∈ is, lo ≤ i + 1 ∧ i < stop)
    (hanswer : ∀ i ∈ is, ∀ q ∈ request i, ∃ v, f q = .ok v) {s : σ} (hs : I s)
    (hready : ∀ i, i + 1 = lo → M.Ready s (request i)) :
    (M.computed f s (is.filterMap request)).Sublist
      ((List.range' lo (stop - lo)).filterMap request) := by
  induction is generalizing lo s with
  | nil => exact List.nil_sublist _
  | cons i is ih =>
    obtain ⟨hle, hsort⟩ := List.pairwise_cons.mp hsort
    obtain ⟨hlo, hi⟩ := hin i List.mem_cons_self
    have hanswer' := fun j hj => hanswer j (List.mem_cons_of_mem i hj)
    have hin' : ∀ j ∈ is, i + 1 ≤ j + 1 ∧ j < stop := fun j hj =>
      ⟨Nat.succ_le_succ (hle j hj), (hin j (List.mem_cons_of_mem i hj)).2⟩
    have hbehind : (List.range' (i + 1) (stop - (i + 1))).Sublist (List.range' lo (stop - lo)) := by
      rw [range_split hlo hi]
      exact List.sublist_append_right _ _
    rcases hq : request i with _ | q
    · -- nothing to ask for: the memory is as it was
      have hrest := ih hsort hin' hanswer' hs fun j hj => by
        obtain rfl : j = i := Nat.succ.inj hj
        rw [hq]
        exact fun q h => nomatch h
      rw [List.filterMap_cons_none hq]
      exact hrest.trans (hbehind.filterMap request)
    · obtain ⟨hI, hheld⟩ := hkeep s q hs (hanswer i List.mem_cons_self q hq)
      have hrest := ih hsort hin' hanswer' hI fun j hj => by
        obtain rfl : j = i := Nat.succ.inj hj
        rw [hq]
        rintro _ ⟨⟩
        exact hheld
      rw [List.filterMap_cons_some hq]
      by_cases hhit : (M.get s q).1.isSome
      · rw [computed_hit hhit]
        exact hrest.trans (hbehind.filterMap request)
      · have hlt : lo ≤ i := by
          rcases Nat.lt_or_ge i lo with hlt | hge
          · exact absurd (hready i (by omega) q hq) hhit
          · exact hge
        rw [computed_miss hhit, range_split hlt (Nat.le_of_lt hi), List.filterMap_append]
        have hhead : List.range' i (stop - i) = i :: List.range' (i + 1) (stop - (i + 1)) := by
          rw [← List.range'_succ]
          congr 1
          omega
        rw [hhead, List.filterMap_cons_some hq]
        exact (hrest.cons_cons q).trans (List.sublist_append_right _ _)

end Serial

/-! ## Oldest out first -/

namespace BoundedMap

variable {κ ν σ ε : Type}

/-- A bounded map that may be off, as a memory; its capacity can be changed, which empties it. -/
def memo (B : BoundedMap κ ν σ) : Memo κ (fun _ => ν) Nat (Option σ) where
  get s k := B.getOn s k
  put s k v := B.putOn s k v
  admin _ c := B.sized c
  Holds s k v := B.HoldsOn s k v
  holds_of_get := holdsOn_of_get
  holds_after_get := holdsOn_after_get
  holds_after_put _ _ h := by
    rcases holdsOn_after_put h with ⟨rfl, rfl⟩ | h
    · exact .inl rfl
    · exact .inr h
  holds_after_admin {_ c k v} h := absurd h (B.not_holdsOn_sized c k v)

/-- A bounded map that drops its entries oldest first, and only those beyond its capacity: `keys`
lists what it has an entry for, latest used first. -/
structure Recency [DecidableEq κ] (B : BoundedMap κ ν σ) where
  capacity : σ → Nat
  keys : σ → List κ
  capacity_new : ∀ c, capacity (B.new c) = c
  capacity_get : ∀ s k, capacity (B.get s k).2 = capacity s
  capacity_put : ∀ s k v, capacity (B.put s k v) = capacity s
  keys_new : ∀ c, keys (B.new c) = []
  isSome_get : ∀ s k, (B.get s k).1.isSome ↔ k ∈ keys s
  keys_hit : ∀ s k, k ∈ keys s → keys (B.get s k).2 = k :: (keys s).filter (· ≠ k)
  keys_miss : ∀ s k, k ∉ keys s → keys (B.get s k).2 = keys s
  keys_put : ∀ s k v, keys (B.put s k v) = (k :: (keys s).filter (· ≠ k)).take (capacity s)

/-- A key is looked up where the entries have it. -/
theorem find_entry [DecidableEq κ] (entries : List (κ × ν)) (k : κ) :
    (k ∈ entries.map (·.1) ∧ ∃ v, entries.find? (·.1 = k) = some (k, v)) ∨
      k ∉ entries.map (·.1) ∧ entries.find? (·.1 = k) = none := by
  rcases hfind : entries.find? (·.1 = k) with _ | ⟨k', v⟩
  · refine .inr ⟨fun hmem => ?_, hfind⟩
    obtain ⟨e, he, hek⟩ := List.mem_map.mp hmem
    exact List.find?_eq_none.mp hfind e he (decide_eq_true hek)
  · obtain rfl : k' = k := of_decide_eq_true (List.find?_some hfind :)
    exact .inl ⟨List.mem_map.mpr ⟨_, List.mem_of_find?_eq_some hfind, rfl⟩, v, hfind⟩

/-- The map that drops the entry used longest ago is one. -/
def lruRecency (κ ν : Type) [DecidableEq κ] : (lru κ ν).Recency where
  capacity s := s.capacity
  keys s := s.entries.map (·.1)
  capacity_new _ := rfl
  capacity_get s k := by
    dsimp only [lru]
    split <;> rfl
  capacity_put _ _ _ := rfl
  keys_new _ := rfl
  isSome_get s k := by
    dsimp only [lru]
    rcases find_entry s.entries k with ⟨hk, v, hfind⟩ | ⟨hk, hfind⟩
    · rw [hfind]
      exact iff_of_true rfl hk
    · rw [hfind]
      exact iff_of_false nofun hk
  keys_hit s k hk := by
    dsimp only [lru]
    rcases find_entry s.entries k with ⟨-, v, hfind⟩ | ⟨hno, -⟩
    · rw [hfind]
      dsimp only
      rw [List.map_cons, List.filter_map]
      rfl
    · exact absurd hk hno
  keys_miss s k hk := by
    dsimp only [lru]
    rcases find_entry s.entries k with ⟨hyes, -⟩ | ⟨-, hfind⟩
    · exact absurd hyes hk
    · rw [hfind]
  keys_put s k v := by
    dsimp only [lru]
    rw [List.map_take, List.map_cons, List.filter_map]
    rfl

variable [DecidableEq κ] {B : BoundedMap κ ν σ} {f : κ → Outcome ε ν}

/-- What one question does to the keys: a hit brings its key to the front, an answer that was
computed is put there, and a failure leaves them. -/
theorem Recency.after_cases (R : B.Recency) (m : σ) (k : κ) :
    ∃ m', B.memo.after f (some m) k = some m' ∧ R.capacity m' = R.capacity m ∧
      ((k ∈ R.keys m ∧ R.keys m' = k :: (R.keys m).filter (· ≠ k)) ∨
        (k ∉ R.keys m ∧ (∃ v, f k = .ok v) ∧
          R.keys m' = (k :: (R.keys m).filter (· ≠ k)).take (R.capacity m)) ∨
        k ∉ R.keys m ∧ (∃ e, f k = .error e) ∧ R.keys m' = R.keys m) := by
  have hsome := R.isSome_get m k
  unfold Memo.after
  dsimp only [memo, getOn, putOn, Option.map_some]
  rcases hg : (B.get m k).1 with _ | v
  · have hk : k ∉ R.keys m := by rw [← hsome, hg]; exact nofun
    have hkeys := R.keys_miss m k hk
    rcases hf : f k with e | v
    · exact ⟨_, rfl, R.capacity_get m k, .inr (.inr ⟨hk, ⟨e, rfl⟩, hkeys⟩)⟩
    · refine ⟨_, rfl, (R.capacity_put _ k v).trans (R.capacity_get m k),
        .inr (.inl ⟨hk, ⟨v, rfl⟩, ?_⟩)⟩
      rw [R.keys_put, hkeys, R.capacity_get]
  · have hk : k ∈ R.keys m := by rw [← hsome, hg]; rfl
    exact ⟨_, rfl, R.capacity_get m k, .inl ⟨hk, R.keys_hit m k hk⟩⟩

theorem Recency.isSome_memo (R : B.Recency) (m : σ) (k : κ) :
    (B.memo.get (some m) k).1.isSome ↔ k ∈ R.keys m :=
  R.isSome_get m k

/-- A map with room for one entry remembers what it answered last. -/
theorem Recency.remembers (R : B.Recency) (s : Option σ) (k : κ)
    (hs : ∃ m, s = some m ∧ 1 ≤ R.capacity m) (hf : ∃ v, f k = .ok v) :
    (∃ m, B.memo.after f s k = some m ∧ 1 ≤ R.capacity m) ∧
      (B.memo.get (B.memo.after f s k) k).1.isSome := by
  obtain ⟨m, rfl, hcap⟩ := hs
  obtain ⟨v, hv⟩ := hf
  obtain ⟨m', hm', hcap', hkeys⟩ := R.after_cases (f := f) m k
  rw [hm', R.isSome_memo]
  refine ⟨⟨m', rfl, by omega⟩, ?_⟩
  rcases hkeys with ⟨-, hkeys⟩ | ⟨-, -, hkeys⟩ | ⟨-, ⟨e, he⟩, -⟩
  · rw [hkeys]
    exact List.mem_cons_self
  · obtain ⟨n, hn⟩ := Nat.exists_eq_succ_of_ne_zero (Nat.ne_of_gt hcap)
    rw [hkeys, hn, List.take_succ_cons]
    exact List.mem_cons_self
  · rw [hv] at he
    cases he

/-- **With room for all the different questions, none is computed twice** unless it fails. -/
theorem Recency.count_computed_le (R : B.Recency) {m : σ} {qs : List κ} (hnodup : (R.keys m).Nodup)
    (hroom : (R.keys m ++ qs).toFinset.card ≤ R.capacity m) {k : κ} (hk : ∃ v, f k = .ok v) :
    (B.memo.computed f (some m) qs).count k ≤ if k ∈ R.keys m then 0 else 1 := by
  induction qs generalizing m with
  | nil => exact Nat.zero_le _
  | cons q qs ih =>
    obtain ⟨m', hm', hcap, hkeys⟩ := R.after_cases (f := f) m q
    have hmem : ∀ j, j ∈ q :: (R.keys m).filter (· ≠ q) ↔ j ∈ R.keys m ∨ j = q := by
      intro j
      rw [List.mem_cons, List.mem_filter, decide_eq_true_iff]
      tauto
    have hnodup' : (q :: (R.keys m).filter (· ≠ q)).Nodup :=
      List.nodup_cons.mpr ⟨fun h => of_decide_eq_true (List.mem_filter.mp h).2 rfl,
        hnodup.filter _⟩
    have hsame : (q :: (R.keys m).filter (· ≠ q) ++ qs).toFinset =
        (R.keys m ++ q :: qs).toFinset := by
      ext j
      simp only [List.mem_toFinset, List.mem_append, hmem, List.mem_cons]
      tauto
    rcases hkeys with ⟨hq, hkeys⟩ | ⟨hq, hok, hkeys⟩ | ⟨hq, ⟨e, he⟩, hkeys⟩
    · rw [computed_hit ((R.isSome_memo m q).mpr hq), hm']
      refine (ih (by rw [hkeys]; exact hnodup') (by rw [hkeys, hsame, hcap]; exact hroom)).trans
        (Nat.le_of_eq (if_congr ?_ rfl rfl))
      rw [hkeys, hmem]
      exact or_iff_left_of_imp fun h => h ▸ hq
    · -- there is room for one more key, so none is dropped
      have hfits : (q :: (R.keys m).filter (· ≠ q)).length ≤ R.capacity m := by
        rw [← List.toFinset_card_of_nodup hnodup']
        refine (Finset.card_le_card ?_).trans hroom
        rw [← hsame, List.toFinset_append]
        exact Finset.subset_union_left
      rw [List.take_of_length_le hfits] at hkeys
      have hrest := ih (m := m') (by rw [hkeys]; exact hnodup')
        (by rw [hkeys, hsame, hcap]; exact hroom)
      rw [hkeys] at hrest
      rw [computed_miss (mt (R.isSome_memo m q).mp hq), hm', List.count_cons]
      by_cases hkq : q = k
      · subst hkq
        rw [if_pos List.mem_cons_self] at hrest
        rw [if_neg hq, if_pos (beq_self_eq_true q)]
        omega
      · rw [if_neg (by simpa using hkq), Nat.add_zero]
        refine hrest.trans (Nat.le_of_eq (if_congr ?_ rfl rfl))
        rw [hmem]
        exact or_iff_left fun h => hkq h.symm
    · have hkq : q ≠ k := by
        rintro rfl
        obtain ⟨v, hv⟩ := hk
        rw [hv] at he
        cases he
      have hrest := ih (m := m') (by rw [hkeys]; exact hnodup) (by
        rw [hkeys, hcap]
        refine (Finset.card_le_card ?_).trans hroom
        intro j
        simp only [List.mem_toFinset, List.mem_append, List.mem_cons]
        tauto)
      rw [hkeys] at hrest
      rw [computed_miss (mt (R.isSome_memo m q).mp hq), hm', List.count_cons,
        if_neg (by simpa using hkq)]
      exact hrest

/-- From an emptied map with room for all the different questions. -/
theorem Recency.count_computed_sized (R : B.Recency) {c : Nat} {qs : List κ}
    (hroom : qs.toFinset.card ≤ c) {k : κ} (hk : ∃ v, f k = .ok v) :
    (B.memo.computed f (B.sized c) qs).count k ≤ 1 := by
  unfold sized
  split
  · rename_i hzero
    have hnil : qs = [] := by
      rw [← List.toFinset_eq_empty_iff, ← Finset.card_eq_zero]
      omega
    rw [hnil]
    exact Nat.zero_le _
  · have hcount := R.count_computed_le (f := f) (m := B.new c)
      (by rw [R.keys_new]; exact List.nodup_nil)
      (by rw [R.keys_new, List.nil_append, R.capacity_new]; exact hroom) hk
    rw [R.keys_new, if_neg List.not_mem_nil] at hcount
    exact hcount

/-- From an emptied map with room for one entry, requests in order are computed once each. -/
theorem Recency.computed_sized_sublist (R : B.Recency) {c : Nat} (hc : 1 ≤ c)
    {request : Nat → Option κ} {is : List Nat} (hsort : is.Pairwise (· ≤ ·)) {stop : Nat}
    (hin : ∀ i ∈ is, i < stop) (hanswer : ∀ i ∈ is, ∀ k ∈ request i, ∃ v, f k = .ok v) :
    (B.memo.computed f (B.sized c) (is.filterMap request)).Sublist
      ((List.range stop).filterMap request) := by
  have hsublist := computed_sublist (s := B.sized c) R.remembers hsort
    (fun i hi => ⟨Nat.zero_le _, hin i hi⟩) hanswer
    ⟨B.new c, if_neg (by omega), by rw [R.capacity_new]; exact hc⟩ fun i hi => nomatch hi
  rw [Nat.sub_zero, ← List.range_eq_range'] at hsublist
  exact hsublist

end BoundedMap

end Squashfs.Foundation
