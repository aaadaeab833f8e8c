import Squashfs.Foundation.Preorder

/-!
# Named forests

A `Forest` is what a directory holds: its entries in order, each with a name and a node, and below
each the forest of its own. `resolve` follows names down from a node, `preorder` lists every node,
the ones above before the ones below, and `relabel` replaces each name by a label handed down from
the top, as a path is.

**`Every.resolve`**: what holds of every node and of what is below it holds where names lead.
**`Graph.trace_unfolds`**: a graph that unfolds to a forest whose open nodes have different keys is
traversed in the forest's preorder, and meets no key twice.
-/

namespace Squashfs.Foundation

/-- Entries side by side, each a name, its node, and the entries below the node. -/
inductive Forest (κ ν : Type) where
  | nil
  | cons (name : κ) (node : ν) (below beside : Forest κ ν)
  deriving Repr, DecidableEq

/-- Why names lead nowhere: there is no such entry, or nothing can be below the node reached. -/
inductive Missing where
  | noEntry
  | notOpen
  deriving Repr, DecidableEq

namespace Forest

variable {κ κ' ν ν' : Type}

/-- The entries side by side. -/
def entries : Forest κ ν → List (κ × ν)
  | nil => []
  | cons name node _ beside => (name, node) :: beside.entries

/-- Every entry: each in front of those below it, and these in front of those beside it. -/
def preorder : Forest κ ν → List (κ × ν)
  | nil => []
  | cons name node below beside => (name, node) :: (below.preorder ++ beside.preorder)

/-- The first entry of a name. -/
def find [DecidableEq κ] (name : κ) : Forest κ ν → Option (ν × Forest κ ν)
  | nil => none
  | cons name' node below beside => if name' = name then some (node, below) else beside.find name

/-- Where names lead, one after the other. -/
def resolve [DecidableEq κ] (opens : ν → Bool) (node : ν) (below : Forest κ ν) :
    List κ → Except Missing (ν × Forest κ ν)
  | [] => .ok (node, below)
  | name :: names =>
    if opens node then
      match below.find name with
      | some (node, below) => resolve opens node below names
      | none => .error .noEntry
    else .error .notOpen

/-- The same forest with other nodes. -/
def map (g : ν → ν') : Forest κ ν → Forest κ ν'
  | nil => nil
  | cons name node below beside => cons name (g node) (below.map g) (beside.map g)

/-- The same forest with other names: `label` makes an entry's from the one above it. -/
def relabel (label : κ' → κ → ν → κ') (top : κ') : Forest κ ν → Forest κ' ν
  | nil => nil
  | cons name node below beside =>
    cons (label top name node) node (below.relabel label (label top name node))
      (beside.relabel label top)

/-- `P` holds of every node and of what is below it. -/
def Every (P : ν → Forest κ ν → Prop) : Forest κ ν → Prop
  | nil => True
  | cons _ node below beside => P node below ∧ below.Every P ∧ beside.Every P

/-! ## Other nodes and names -/

theorem entries_map (g : ν → ν') (forest : Forest κ ν) :
    (forest.map g).entries = forest.entries.map fun e => (e.1, g e.2) := by
  induction forest with
  | nil => rfl
  | cons name node below beside _ ih => exact congrArg _ ih

theorem find_map [DecidableEq κ] (g : ν → ν') (name : κ) (forest : Forest κ ν) :
    (forest.map g).find name = (forest.find name).map fun r => (g r.1, r.2.map g) := by
  induction forest with
  | nil => rfl
  | cons name' node below beside _ ih =>
    simp only [map, find]
    split
    · rfl
    · exact ih

theorem resolve_map [DecidableEq κ] (g : ν → ν') {opens : ν → Bool} {opens' : ν' → Bool}
    (hopens : ∀ node, opens' (g node) = opens node) (node : ν) (below : Forest κ ν)
    (names : List κ) :
    (below.map g).resolve opens' (g node) names =
      (below.resolve opens node names).map fun r => (g r.1, r.2.map g) := by
  induction names generalizing node below with
  | nil => rfl
  | cons name names ih =>
    unfold resolve
    rw [hopens, find_map]
    split
    · cases below.find name with
      | none => rfl
      | some next => exact ih next.1 next.2
    · rfl

theorem entries_relabel (label : κ' → κ → ν → κ') (top : κ') (forest : Forest κ ν) :
    (forest.relabel label top).entries =
      forest.entries.map fun e => (label top e.1 e.2, e.2) := by
  induction forest with
  | nil => rfl
  | cons name node below beside _ ih => exact congrArg _ ih

/-! ## Properties of every node -/

section Every

variable {P Q : ν → Forest κ ν → Prop} {node node' : ν} {forest below : Forest κ ν}

theorem Every.find [DecidableEq κ] {name : κ} (h : forest.Every P)
    (hfind : forest.find name = some (node, below)) : P node below ∧ below.Every P := by
  induction forest with
  | nil => cases hfind
  | cons name' node' below' beside _ ih =>
    unfold Forest.find at hfind
    split at hfind
    · cases hfind
      exact ⟨h.1, h.2.1⟩
    · exact ih h.2.2 hfind

theorem Every.entry {e : κ × ν} (h : forest.Every P) (he : e ∈ forest.entries) :
    ∃ below, P e.2 below := by
  induction forest with
  | nil => cases he
  | cons name node below beside _ ih =>
    rcases List.mem_cons.mp he with rfl | he
    · exact ⟨below, h.1⟩
    · exact ih h.2.2 he

/-- **What holds of every node holds where names lead.** -/
theorem Every.resolve [DecidableEq κ] {opens : ν → Bool} {names : List κ}
    {below' : Forest κ ν} (hnode : P node below) (h : below.Every P)
    (hres : below.resolve opens node names = .ok (node', below')) :
    P node' below' ∧ below'.Every P := by
  induction names generalizing node below with
  | nil =>
    cases hres
    exact ⟨hnode, h⟩
  | cons name names ih =>
    unfold Forest.resolve at hres
    split at hres
    · rcases hfind : below.find name with _ | ⟨next, beneath⟩
      · rw [hfind] at hres
        cases hres
      · rw [hfind] at hres
        obtain ⟨hnext, hbeneath⟩ := h.find hfind
        exact ih hnext hbeneath hres
    · cases hres

end Every

end Forest

/-! ## Graphs that unfold to a forest -/

namespace Graph

open Forest

variable {γ ν κ ε : Type}

/-- The graph below the children of a forest is the forest: each child is read as its node, and a
node that opens lists the children below it. -/
def Unfolds (g : Graph γ ν κ ε) : Forest γ ν → Prop
  | .nil => True
  | .cons child node below beside =>
    g.read child = .ok node ∧
      (if g.opens node then g.kids child node = .ok (below.entries.map Prod.fst)
        else below = .nil) ∧
      g.Unfolds below ∧ g.Unfolds beside

/-- The keys of the nodes that open, in preorder. -/
def openKeys (g : Graph γ ν κ ε) (forest : Forest γ ν) : List κ :=
  (forest.preorder.filter fun e => g.opens e.2).map fun e => g.key e.2

theorem openKeys_cons (g : Graph γ ν κ ε) (child : γ) (node : ν) (below beside : Forest γ ν) :
    g.openKeys (.cons child node below beside) =
      (if g.opens node then [g.key node] else []) ++ g.openKeys below ++ g.openKeys beside := by
  unfold openKeys
  rw [Forest.preorder, List.filter_cons, List.filter_append]
  split <;> simp

variable [DecidableEq κ] [Finite κ]

/-- **A graph that unfolds to a forest is traversed in its preorder**, when the nodes that open
have different keys: every child is visited, none of them as met before. -/
theorem trace_unfolds {g : Graph γ ν κ ε} {forest : Forest γ ν} (h : g.Unfolds forest)
    {v : List κ} (hkeys : ((g.openKeys forest).reverse ++ v).Nodup) :
    g.trace v (forest.entries.map Prod.fst) =
      ⟨forest.preorder.map fun e => ⟨e.1, e.2, false⟩, (g.openKeys forest).reverse ++ v, none⟩ := by
  induction forest generalizing v with
  | nil => exact trace_nil
  | cons child node below beside ih ih' =>
    obtain ⟨hread, hkids, hbelow, hbeside⟩ := h
    rw [openKeys_cons] at hkeys ⊢
    by_cases hopen : g.opens node = true
    · rw [if_pos hopen] at hkids hkeys ⊢
      simp only [List.cons_append, List.reverse_cons, List.reverse_append, List.append_assoc,
        List.nil_append] at hkeys ⊢
      have hbelowKeys := hkeys.sublist (List.sublist_append_right _ _)
      have hnew : g.opens node = true ∧ g.key node ∉ v :=
        ⟨hopen, (List.nodup_cons.mp (hbelowKeys.sublist (List.sublist_append_right _ _))).1⟩
      rw [entries, List.map_cons, trace_enter hread hnew hkids, ih hbelow hbelowKeys, Trace.andThen]
      dsimp only
      rw [ih' hbeside hkeys, Forest.preorder, List.map_cons, List.map_append]
      rfl
    · rw [if_neg hopen] at hkids hkeys ⊢
      subst hkids
      have hpass : ¬ (g.opens node = true ∧ g.key node ∉ v) := fun hnew => hopen hnew.1
      rw [entries, List.map_cons, trace_pass hread hpass, ih' hbeside hkeys,
        Bool.not_eq_true _ |>.mp hopen]
      rfl

end Graph

end Squashfs.Foundation
