import Mathlib.Data.Set.Card
import Mathlib.SetTheory.Cardinal.NatCard
import Squashfs.Foundation.Outcome

/-!
# Walks in preorder

A `Graph` is known through what can be asked of it: `read` the node behind a child, and list the
`kids` of a node that opens. Both may fail, and the graph may share nodes or go round in circles, so
a walk enters a node that opens only when its key is new.

`preorder` is the recursive traversal: a child, all that is below it, the children after it. `walk`
is the traversal with a stack of its own instead of the recursion, and a guard that can stop it in
front of a child. Both end because there are finitely many keys.

**`walk_none`**, **`walk_first`**: the walk visits what the recursive traversal visits, up to the
first child the guard refuses. **`walk_marked`**: it enters no key twice, and marks every other
occurrence of one.
-/

namespace Squashfs.Foundation

variable {γ ν κ ε : Type}

/-! ## Keys not seen yet -/

/-- How many keys are not in the list. -/
noncomputable def unseen (v : List κ) : Nat := {k | k ∉ v}.ncard

theorem unseen_cons_lt [Finite κ] {v : List κ} {k : κ} (h : k ∉ v) :
    unseen (k :: v) < unseen v := by
  refine Set.ncard_lt_ncard ⟨fun k' hk' => fun hmem => hk' (List.mem_cons_of_mem k hmem), ?_⟩
    (Set.toFinite _)
  intro hsub
  exact hsub h List.mem_cons_self

/-! ## Graphs -/

/-- What can be asked of a graph with children `γ`, nodes `ν` and keys `κ`. -/
structure Graph (γ ν κ ε : Type) where
  read : γ → Except ε ν
  opens : ν → Bool
  key : ν → κ
  kids : γ → ν → Except ε (List γ)

/-- A child that was read, and whether its node's key was entered before. -/
structure Visit (γ ν : Type) where
  child : γ
  node : ν
  revisited : Bool

/-- Why a traversal stopped early: a child could not be read, or a node not be listed. -/
inductive Halt (γ ε : Type) where
  | unread (child : γ) (e : ε)
  | unlisted (e : ε)

def Halt.error : Halt γ ε → ε
  | .unread _ e => e
  | .unlisted e => e

/-- The child a traversal stopped at. -/
def Halt.child : Halt γ ε → Option γ
  | .unread c _ => some c
  | .unlisted _ => none

/-- What a traversal visited, the keys entered by then, and why it stopped early. -/
structure Trace (γ ν κ ε : Type) where
  visits : List (Visit γ ν)
  visited : List κ
  halt : Option (Halt γ ε)

namespace Trace

/-- Nothing to visit. -/
def done (v : List κ) : Trace γ ν κ ε := ⟨[], v, none⟩

/-- One more visit in front. -/
def visit (x : Visit γ ν) (t : Trace γ ν κ ε) : Trace γ ν κ ε := { t with visits := x :: t.visits }

/-- A traversal, and another one after it unless it stopped early. -/
def andThen (t : Trace γ ν κ ε) (k : List κ → Trace γ ν κ ε) : Trace γ ν κ ε :=
  match t.halt with
  | none => { k t.visited with visits := t.visits ++ (k t.visited).visits }
  | some _ => t

@[simp] theorem done_andThen (v : List κ) (k : List κ → Trace γ ν κ ε) :
    (done v).andThen k = k v := rfl

@[simp] theorem visit_andThen (x : Visit γ ν) (t : Trace γ ν κ ε) (k : List κ → Trace γ ν κ ε) :
    (t.visit x).andThen k = (t.andThen k).visit x := by
  rcases t with ⟨visits, v, - | h⟩ <;> rfl

theorem andThen_assoc (t : Trace γ ν κ ε) (k k' : List κ → Trace γ ν κ ε) :
    (t.andThen k).andThen k' = t.andThen fun v => (k v).andThen k' := by
  rcases t with ⟨visits, v, - | h⟩
  · unfold andThen
    dsimp only
    generalize k v = t'
    rcases t' with ⟨visits', v', - | h⟩
    · simp only [List.append_assoc]
    · rfl
  · rfl

@[simp] theorem andThen_done (t : Trace γ ν κ ε) : t.andThen .done = t := by
  rcases t with ⟨visits, v, - | h⟩
  · unfold andThen done
    dsimp only
    rw [List.append_nil]
  · rfl

/-- The keys not seen after a traversal. -/
theorem andThen_unseen {t t' : Trace γ ν κ ε} {n : Nat} (h : unseen t.visited ≤ n)
    (h' : unseen t'.visited ≤ n) : unseen (t.andThen fun _ => t').visited ≤ n := by
  rcases t with ⟨visits, v, - | halt⟩
  · exact h'
  · exact h

/-- The children a traversal came to, in order. -/
def reached (t : Trace γ ν κ ε) : List γ :=
  t.visits.map Visit.child ++ (t.halt.bind Halt.child).toList

end Trace

namespace Graph

/-! ## Cutting a traversal short -/

section Cut

/-- A traversal cut short by a guard: the visits numbered from `n` on. -/
def cut (guard : Nat → γ → Option ε) : (n : Nat) → List (Visit γ ν) → Option (Halt γ ε) →
    List (Visit γ ν) × Option ε
  | n, x :: xs, halt =>
    match guard n x.child with
    | some e => ([], some e)
    | none => ((x :: (cut guard (n + 1) xs halt).1), (cut guard (n + 1) xs halt).2)
  | n, [], some (.unread c e) =>
    match guard n c with
    | some e' => ([], some e')
    | none => ([], some e)
  | _, [], some (.unlisted e) => ([], some e)
  | _, [], none => ([], none)

variable {guard : Nat → γ → Option ε} {m : Nat} {visits : List (Visit γ ν)}
  {halt : Option (Halt γ ε)}

theorem cut_visit {x : Visit γ ν} {t : Trace γ ν κ ε} (h : guard m x.child = none) :
    cut guard m (t.visit x).visits (t.visit x).halt =
      (x :: (cut guard (m + 1) t.visits t.halt).1, (cut guard (m + 1) t.visits t.halt).2) := by
  show cut guard m (x :: t.visits) t.halt = _
  rw [cut, h]

/-- The guard refuses nothing the traversal comes to. -/
theorem cut_none
    (h : ∀ i c, (visits.map Visit.child ++ (halt.bind Halt.child).toList)[i]? = some c →
      guard (m + i) c = none) :
    cut guard m visits halt = (visits, halt.map Halt.error) := by
  induction visits generalizing m with
  | nil =>
    rcases halt with - | c | e
    · rfl
    · have hc : guard m c = none := h 0 c rfl
      rw [cut, hc]
      rfl
    · rfl
  | cons x xs ih =>
    have hx : guard m x.child = none := h 0 x.child rfl
    rw [cut, hx, ih fun i c hc => ?_]
    rw [Nat.add_assoc, Nat.add_comm 1 i]
    exact h (i + 1) c hc

/-- The guard refuses the child the traversal comes to after `i` visits, and none before. -/
theorem cut_first {i : Nat} {c : γ} {e : ε}
    (hc : (visits.map Visit.child ++ (halt.bind Halt.child).toList)[i]? = some c)
    (he : guard (m + i) c = some e)
    (hbefore : ∀ j c', j < i →
      (visits.map Visit.child ++ (halt.bind Halt.child).toList)[j]? = some c' →
      guard (m + j) c' = none) :
    cut guard m visits halt = (visits.take i, some e) := by
  induction visits generalizing m i with
  | nil =>
    rcases halt with - | c' | e'
    · cases hc
    · cases i with
      | zero =>
        obtain rfl : c' = c := Option.some.inj hc
        have he' : guard m c' = some e := he
        rw [cut, he']
        rfl
      | succ i => cases hc
    · cases hc
  | cons x xs ih =>
    cases i with
    | zero =>
      obtain rfl : x.child = c := Option.some.inj hc
      have he' : guard m x.child = some e := he
      rw [cut, he']
      rfl
    | succ i =>
      have hx : guard m x.child = none := hbefore 0 x.child (Nat.zero_lt_succ i) rfl
      have hnext : ∀ j, m + 1 + j = m + (j + 1) := fun j => by omega
      rw [cut, hx, ih hc (by rwa [hnext]) fun j c' hj hc' => ?_]
      · rfl
      · rw [hnext]
        exact hbefore (j + 1) c' (Nat.succ_lt_succ hj) hc'

end Cut

/-! ## Marks -/

section Marks

/-- The keys entered by the visits, in order. -/
def opened (g : Graph γ ν κ ε) (visits : List (Visit γ ν)) : List κ :=
  (visits.filter fun x => g.opens x.node && !x.revisited).map fun x => g.key x.node

/-- No key is entered twice, nor one of `v`, and every other occurrence of it is marked. -/
structure Marked (g : Graph γ ν κ ε) (v : List κ) (visits : List (Visit γ ν)) : Prop where
  once : (v ++ g.opened visits).Nodup
  marks : ∀ pre x post, visits = pre ++ x :: post →
    (x.revisited = true ↔ g.opens x.node = true ∧ g.key x.node ∈ v ++ g.opened pre)

variable {g : Graph γ ν κ ε} {v : List κ}

theorem opened_concat (visits : List (Visit γ ν)) (x : Visit γ ν) :
    g.opened (visits ++ [x]) =
      g.opened visits ++ if g.opens x.node && !x.revisited then [g.key x.node] else [] := by
  unfold opened
  rw [List.filter_append, List.map_append]
  cases h : g.opens x.node && !x.revisited <;> simp [h]

theorem marked_nil (hv : v.Nodup) : g.Marked v [] where
  once := by simpa [opened] using hv
  marks := by simp

/-- One more visit, marked as it should be. -/
theorem Marked.concat {visits : List (Visit γ ν)} {x : Visit γ ν} (h : g.Marked v visits)
    (hx : x.revisited = true ↔ g.opens x.node = true ∧ g.key x.node ∈ v ++ g.opened visits) :
    g.Marked v (visits ++ [x]) where
  once := by
    rw [opened_concat, ← List.append_assoc]
    by_cases hnew : (g.opens x.node && !x.revisited) = true
    · obtain ⟨hopens, hnot⟩ : g.opens x.node = true ∧ x.revisited = false := by simpa using hnew
      rw [if_pos hnew]
      refine List.nodup_append.mpr ⟨h.once, List.nodup_singleton _, fun k hk k' hk' heq => ?_⟩
      rw [heq, List.mem_singleton.mp hk'] at hk
      rw [hx.mpr ⟨hopens, hk⟩] at hnot
      cases hnot
    · rw [if_neg hnew, List.append_nil]
      exact h.once
  marks pre y post heq := by
    rcases List.eq_nil_or_concat post with rfl | ⟨post, z, rfl⟩
    · obtain ⟨rfl, rfl⟩ := List.append_inj' heq rfl |>.imp_right List.cons.inj |>.imp_right And.left
      exact hx
    · rw [List.concat_eq_append, ← List.cons_append, ← List.append_assoc] at heq
      obtain ⟨rfl, -⟩ := List.append_inj' heq rfl
      exact h.marks pre y post rfl
/-- A node that is entered. -/
theorem Marked.entered {v₀ : List κ} {out : List (Visit γ ν)} {c : γ} {n : ν}
    (h : g.Marked v₀ out)
    (hv : ∀ k, k ∈ v ↔ k ∈ v₀ ++ g.opened out) (hnew : g.opens n = true ∧ g.key n ∉ v) :
    g.Marked v₀ (out ++ [⟨c, n, false⟩]) := by
  refine h.concat ⟨fun hfalse => absurd hfalse Bool.false_ne_true, fun ⟨_, hk⟩ => ?_⟩
  exact absurd ((hv _).mpr hk) hnew.2

end Marks

variable [DecidableEq κ]

/-! ## The traversals -/

/-- **The traversal in preorder**: each child, all that is below it, the children after it. -/
def preorder [Finite κ] (g : Graph γ ν κ ε) (v : List κ) :
    List γ → {t : Trace γ ν κ ε // unseen t.visited ≤ unseen v}
  | [] => ⟨.done v, Nat.le_refl _⟩
  | c :: cs =>
    match g.read c with
    | .error e => ⟨⟨[], v, some (.unread c e)⟩, Nat.le_refl _⟩
    | .ok n =>
      if h : g.opens n = true ∧ g.key n ∉ v then
        match g.kids c n with
        | .error e =>
          ⟨⟨[⟨c, n, false⟩], g.key n :: v, some (.unlisted e)⟩, (unseen_cons_lt h.2).le⟩
        | .ok l =>
          let below := preorder g (g.key n :: v) l
          let rest := preorder g below.1.visited cs
          ⟨(below.1.andThen fun _ => rest.1).visit ⟨c, n, false⟩,
            Nat.le_trans (Trace.andThen_unseen below.2 (Nat.le_trans rest.2 below.2))
              (unseen_cons_lt h.2).le⟩
      else
        let rest := preorder g v cs
        ⟨rest.1.visit ⟨c, n, g.opens n⟩, rest.2⟩
termination_by l => (unseen v, l.length)
decreasing_by
  · exact .left _ _ (unseen_cons_lt h.2)
  · exact .left _ _ (Nat.lt_of_le_of_lt below.2 (unseen_cons_lt h.2))
  · exact .right _ (Nat.lt_succ_self _)

/-- How much there is to do on a stack. -/
def pending (stack : List (List γ)) : Nat := (stack.map fun l => l.length + 1).sum

/-- The walk: `guard n c` may refuse the child `c`, as the one to be visit number `n`. What was
visited, and the error that stopped the walk if one did. -/
def walk [Finite κ] (g : Graph γ ν κ ε) (guard : Nat → γ → Option ε) (v : List κ)
    (out : List (Visit γ ν)) : List (List γ) → List (Visit γ ν) × Option ε
  | [] => (out, none)
  | [] :: stack => walk g guard v out stack
  | (c :: cs) :: stack =>
    match guard out.length c with
    | some e => (out, some e)
    | none =>
      match g.read c with
      | .error e => (out, some e)
      | .ok n =>
        if h : g.opens n = true ∧ g.key n ∉ v then
          match g.kids c n with
          | .error e => (out ++ [⟨c, n, false⟩], some e)
          | .ok l => walk g guard (g.key n :: v) (out ++ [⟨c, n, false⟩]) (l :: cs :: stack)
        else walk g guard v (out ++ [⟨c, n, g.opens n⟩]) (cs :: stack)
termination_by stack => (unseen v, pending stack)
decreasing_by
  · exact .right _ (by simp [pending])
  · exact .left _ _ (unseen_cons_lt h.2)
  · exact .right _ (by simp [pending])

/-! ## The recursive traversal -/

variable [Finite κ]

/-- The trace of the traversal. -/
def trace (g : Graph γ ν κ ε) (v : List κ) (l : List γ) : Trace γ ν κ ε := (g.preorder v l).1

variable {g : Graph γ ν κ ε} {v : List κ} {c : γ} {cs : List γ} {n : ν} {e : ε}
  {guard : Nat → γ → Option ε}

@[simp] theorem trace_nil : g.trace v [] = .done v := by rw [trace, preorder]

theorem trace_unread (h : g.read c = .error e) :
    g.trace v (c :: cs) = ⟨[], v, some (.unread c e)⟩ := by
  rw [trace, preorder, h]

theorem trace_pass (hread : g.read c = .ok n) (h : ¬ (g.opens n = true ∧ g.key n ∉ v)) :
    g.trace v (c :: cs) = (g.trace v cs).visit ⟨c, n, g.opens n⟩ := by
  rw [trace, preorder, hread]
  dsimp only
  rw [dif_neg h]
  rfl

theorem trace_unlisted (hread : g.read c = .ok n) (h : g.opens n = true ∧ g.key n ∉ v)
    (hkids : g.kids c n = .error e) :
    g.trace v (c :: cs) = ⟨[⟨c, n, false⟩], g.key n :: v, some (.unlisted e)⟩ := by
  rw [trace, preorder, hread]
  dsimp only
  rw [dif_pos h, hkids]

/-- A node that opens: what is below it comes before what is after it. -/
theorem trace_enter {l : List γ} (hread : g.read c = .ok n)
    (h : g.opens n = true ∧ g.key n ∉ v) (hkids : g.kids c n = .ok l) :
    g.trace v (c :: cs) =
      ((g.trace (g.key n :: v) l).andThen fun v' => g.trace v' cs).visit ⟨c, n, false⟩ := by
  rw [trace, preorder, hread]
  dsimp only
  rw [dif_pos h, hkids]
  rfl

/-! ## The walk with a stack -/

variable {out : List (Visit γ ν)} {stack : List (List γ)}

theorem walk_refused (h : guard out.length c = some e) :
    g.walk guard v out ((c :: cs) :: stack) = (out, some e) := by
  rw [walk, h]

theorem walk_unread (h : guard out.length c = none) (hread : g.read c = .error e) :
    g.walk guard v out ((c :: cs) :: stack) = (out, some e) := by
  rw [walk, h, hread]

theorem walk_unlisted (h : guard out.length c = none) (hread : g.read c = .ok n)
    (hnew : g.opens n = true ∧ g.key n ∉ v) (hkids : g.kids c n = .error e) :
    g.walk guard v out ((c :: cs) :: stack) = (out ++ [⟨c, n, false⟩], some e) := by
  rw [walk, h, hread]
  dsimp only
  rw [dif_pos hnew, hkids]

theorem walk_enter {l : List γ} (h : guard out.length c = none) (hread : g.read c = .ok n)
    (hnew : g.opens n = true ∧ g.key n ∉ v) (hkids : g.kids c n = .ok l) :
    g.walk guard v out ((c :: cs) :: stack) =
      g.walk guard (g.key n :: v) (out ++ [⟨c, n, false⟩]) (l :: cs :: stack) := by
  rw [walk, h, hread]
  dsimp only
  rw [dif_pos hnew, hkids]

theorem walk_pass (h : guard out.length c = none) (hread : g.read c = .ok n)
    (hnew : ¬ (g.opens n = true ∧ g.key n ∉ v)) :
    g.walk guard v out ((c :: cs) :: stack) =
      g.walk guard v (out ++ [⟨c, n, g.opens n⟩]) (cs :: stack) := by
  rw [walk, h, hread]
  dsimp only
  rw [dif_neg hnew]

/-- The traversal of a whole stack, its first list first. -/
def traceStack (g : Graph γ ν κ ε) (v : List κ) : List (List γ) → Trace γ ν κ ε
  | [] => .done v
  | l :: stack => (g.trace v l).andThen fun v' => traceStack g v' stack

theorem traceStack_singleton (v : List κ) (l : List γ) : g.traceStack v [l] = g.trace v l := by
  rw [traceStack]
  exact (g.trace v l).andThen_done

theorem traceStack_pass {stack : List (List γ)} (hread : g.read c = .ok n)
    (h : ¬ (g.opens n = true ∧ g.key n ∉ v)) :
    g.traceStack v ((c :: cs) :: stack) =
      (g.traceStack v (cs :: stack)).visit ⟨c, n, g.opens n⟩ := by
  rw [traceStack, traceStack, trace_pass hread h, Trace.visit_andThen]

theorem traceStack_enter {stack : List (List γ)} {l : List γ} (hread : g.read c = .ok n)
    (h : g.opens n = true ∧ g.key n ∉ v) (hkids : g.kids c n = .ok l) :
    g.traceStack v ((c :: cs) :: stack) =
      (g.traceStack (g.key n :: v) (l :: cs :: stack)).visit ⟨c, n, false⟩ := by
  rw [traceStack, trace_enter hread h hkids, Trace.visit_andThen, Trace.andThen_assoc]
  rfl

/-- The children a traversal comes to start with the first on the stack. -/
theorem cut_refused {stack : List (List γ)} {m : Nat} {e : ε} (h : guard m c = some e) :
    cut guard m (g.traceStack v ((c :: cs) :: stack)).visits
      (g.traceStack v ((c :: cs) :: stack)).halt = ([], some e) := by
  rcases hread : g.read c with e' | n
  · rw [traceStack, trace_unread hread]
    show cut guard m [] (some (.unread c e')) = _
    rw [cut, h]
  · by_cases hnew : g.opens n = true ∧ g.key n ∉ v
    · rcases hkids : g.kids c n with e' | l
      · rw [traceStack, trace_unlisted hread hnew hkids]
        show cut guard m [⟨c, n, false⟩] _ = _
        rw [cut, h]
      · rw [traceStack_enter hread hnew hkids]
        show cut guard m (⟨c, n, false⟩ :: _) _ = _
        rw [cut, h]
    · rw [traceStack_pass hread hnew]
      show cut guard m (⟨c, n, g.opens n⟩ :: _) _ = _
      rw [cut, h]

/-- **The walk is the traversal** up to the first child the guard refuses. -/
theorem walk_eq_cut (g : Graph γ ν κ ε) (guard : Nat → γ → Option ε) (v : List κ)
    (out : List (Visit γ ν)) (stack : List (List γ)) :
    g.walk guard v out stack =
      (out ++ (cut guard out.length (g.traceStack v stack).visits (g.traceStack v stack).halt).1,
        (cut guard out.length (g.traceStack v stack).visits (g.traceStack v stack).halt).2) := by
  fun_induction walk g guard v out stack with
  | case1 v out => simp [traceStack, Trace.done, cut]
  | case2 v out stack ih => rw [ih, traceStack, trace_nil, Trace.done_andThen]
  | case3 v out c cs stack e h => rw [cut_refused h, List.append_nil]
  | case4 v out c cs stack h e hread =>
    have hcut : cut guard out.length ([] : List (Visit γ ν)) (some (.unread c e)) =
        ([], some e) := by rw [cut, h]
    rw [traceStack, trace_unread hread]
    show _ = (out ++ (cut guard out.length [] (some (.unread c e))).1,
      (cut guard out.length [] (some (.unread c e))).2)
    rw [hcut, List.append_nil]
  | case5 v out c cs stack h n hread hnew e hkids =>
    have hcut : cut guard out.length [(⟨c, n, false⟩ : Visit γ ν)] (some (.unlisted e)) =
        ([⟨c, n, false⟩], some e) := by rw [cut, h]; rfl
    rw [traceStack, trace_unlisted hread hnew hkids]
    show _ = (out ++ (cut guard out.length [⟨c, n, false⟩] (some (.unlisted e))).1,
      (cut guard out.length [⟨c, n, false⟩] (some (.unlisted e))).2)
    rw [hcut]
  | case6 v out c cs stack h n hread hnew l hkids ih =>
    rw [ih, traceStack_enter hread hnew hkids, cut_visit h, List.length_append, List.append_assoc]
    rfl
  | case7 v out c cs stack h n hread hnew ih =>
    rw [ih, traceStack_pass hread hnew, cut_visit h, List.length_append, List.append_assoc]
    rfl

/-- A walk whose guard refuses nothing the traversal comes to visits all of it. -/
theorem walk_none {l : List γ}
    (h : ∀ i c, (g.trace v l).reached[i]? = some c → guard i c = none) :
    g.walk guard v [] [l] = ((g.trace v l).visits, (g.trace v l).halt.map Halt.error) := by
  have hcut : cut guard 0 (g.trace v l).visits (g.trace v l).halt =
      ((g.trace v l).visits, (g.trace v l).halt.map Halt.error) :=
    cut_none fun i c hc => by rw [Nat.zero_add]; exact h i c hc
  rw [walk_eq_cut, traceStack_singleton]
  show ([] ++ (cut guard 0 _ _).1, (cut guard 0 _ _).2) = _
  rw [hcut, List.nil_append]

/-- **A walk ends in front of the first child its guard refuses.** -/
theorem walk_first {l : List γ} {i : Nat} (hc : (g.trace v l).reached[i]? = some c)
    (he : guard i c = some e)
    (hbefore : ∀ j c', j < i → (g.trace v l).reached[j]? = some c' → guard j c' = none) :
    g.walk guard v [] [l] = ((g.trace v l).visits.take i, some e) := by
  have hcut : cut guard 0 (g.trace v l).visits (g.trace v l).halt =
      ((g.trace v l).visits.take i, some e) :=
    cut_first hc (by rwa [Nat.zero_add]) fun j c' hj hc' => by
      rw [Nat.zero_add]
      exact hbefore j c' hj hc'
  rw [walk_eq_cut, traceStack_singleton]
  show ([] ++ (cut guard 0 _ _).1, (cut guard 0 _ _).2) = _
  rw [hcut, List.nil_append]

/-! ## Every key once -/

/-- **A walk enters no key twice** and marks every other occurrence. -/
theorem walk_marked {v₀ : List κ} {out : List (Visit γ ν)} {stack : List (List γ)}
    (hv : ∀ k, k ∈ v ↔ k ∈ v₀ ++ g.opened out) (h : g.Marked v₀ out) :
    g.Marked v₀ (g.walk guard v out stack).1 := by
  fun_induction walk g guard v out stack with
  | case1 v out => exact h
  | case2 v out stack ih => exact ih hv h
  | case3 v out c cs stack e hguard => exact h
  | case4 v out c cs stack hguard e hread => exact h
  | case5 v out c cs stack hguard n hread hnew e hkids => exact h.entered hv hnew
  | case6 v out c cs stack hguard n hread hnew l hkids ih =>
    have hone : g.opened (out ++ [⟨c, n, false⟩]) = g.opened out ++ [g.key n] := by
      rw [opened_concat, hnew.1]
      rfl
    refine ih (fun k => ?_) (h.entered hv hnew)
    rw [hone, ← List.append_assoc, List.mem_append, ← hv, List.mem_singleton, List.mem_cons,
      or_comm]
  | case7 v out c cs stack hguard n hread hnew ih =>
    have hmarked : g.opens n = true ↔
        g.opens n = true ∧ g.key n ∈ v₀ ++ g.opened out := by
      rw [← hv]
      exact ⟨fun ho => ⟨ho, not_not.mp fun hk => hnew ⟨ho, hk⟩⟩, And.left⟩
    refine ih (fun k => ?_) (h.concat hmarked)
    rw [opened_concat, Bool.and_not_self, if_neg Bool.false_ne_true, List.append_nil]
    exact hv k

/-! ## What stops a walk, and how deep it gets -/

/-- **The rule for errors**: a walk stops with one the guard, a read or a listing gave. -/
theorem walk_error {P : ε → Prop} (hguard : ∀ m c e, guard m c = some e → P e)
    (hread : ∀ c e, g.read c = .error e → P e)
    (hkids : ∀ c n e, g.read c = .ok n → g.kids c n = .error e → P e)
    (h : (g.walk guard v out stack).2 = some e) : P e := by
  fun_induction walk g guard v out stack with
  | case1 v out => cases h
  | case2 v out stack ih => exact ih h
  | case3 v out c cs stack e' hrefused =>
    cases h
    exact hguard _ _ _ hrefused
  | case4 v out c cs stack hrefused e' hunread =>
    cases h
    exact hread _ _ hunread
  | case5 v out c cs stack hrefused n hok hnew e' hunlisted =>
    cases h
    exact hkids _ _ _ hok hunlisted
  | case6 v out c cs stack hrefused n hok hnew l hlisted ih => exact ih h
  | case7 v out c cs stack hrefused n hok hnew ih => exact ih h

/-- **A walk gets no deeper than there are keys**: every level has a key of its own. -/
theorem walk_depth (depth : γ → Nat)
    (hkids : ∀ c n l, g.kids c n = .ok l → ∀ c' ∈ l, depth c' ≤ depth c + 1) (hv : v.Nodup)
    (hstack : ∀ l ∈ stack, ∀ c ∈ l, depth c ≤ v.length)
    (hout : ∀ x ∈ out, depth x.child ≤ Nat.card κ) :
    ∀ x ∈ (g.walk guard v out stack).1, depth x.child ≤ Nat.card κ := by
  have hone : ∀ {v : List κ} {c : γ} {n : ν} {b : Bool} {out : List (Visit γ ν)}, v.Nodup →
      depth c ≤ v.length → (∀ x ∈ out, depth x.child ≤ Nat.card κ) →
      ∀ x ∈ out ++ [Visit.mk c n b], depth x.child ≤ Nat.card κ := by
    intro v c n b out hv hc hout x hx
    rcases List.mem_append.mp hx with hx | hx
    · exact hout x hx
    · rw [List.mem_singleton.mp hx]
      exact Nat.le_trans hc (List.Nodup.length_le_natCard hv)
  fun_induction walk g guard v out stack with
  | case1 v out => exact hout
  | case2 v out stack ih => exact ih hv (fun l hl => hstack l (List.mem_cons_of_mem _ hl)) hout
  | case3 v out c cs stack e hrefused => exact hout
  | case4 v out c cs stack hrefused e hunread => exact hout
  | case5 v out c cs stack hrefused n hok hnew e hunlisted =>
    exact hone hv (hstack _ List.mem_cons_self c List.mem_cons_self) hout
  | case6 v out c cs stack hrefused n hok hnew l hlisted ih =>
    have hc : depth c ≤ v.length := hstack _ List.mem_cons_self c List.mem_cons_self
    refine ih (List.nodup_cons.mpr ⟨hnew.2, hv⟩) (fun l' hl' c' hc' => ?_) (hone hv hc hout)
    rw [List.length_cons]
    rcases List.mem_cons.mp hl' with rfl | hl'
    · exact Nat.le_trans (hkids c n _ hlisted c' hc') (Nat.succ_le_succ hc)
    · rcases List.mem_cons.mp hl' with rfl | hl'
      · have := hstack _ List.mem_cons_self c' (List.mem_cons_of_mem c hc')
        omega
      · have := hstack l' (List.mem_cons_of_mem _ hl') c' hc'
        omega
  | case7 v out c cs stack hrefused n hok hnew ih =>
    have hc : depth c ≤ v.length := hstack _ List.mem_cons_self c List.mem_cons_self
    refine ih hv (fun l' hl' c' hc' => ?_) (hone hv hc hout)
    rcases List.mem_cons.mp hl' with rfl | hl'
    · exact hstack _ List.mem_cons_self c' (List.mem_cons_of_mem c hc')
    · exact hstack l' (List.mem_cons_of_mem _ hl') c' hc'

end Graph

end Squashfs.Foundation
