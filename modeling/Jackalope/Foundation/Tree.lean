/-
# Trees with labels

Trees with a label at each node and any number of children, and their nodes named
by paths: a path lists the positions of the children to go through from the root.
A path stands for a pointer to a node, so changing a tree through a pointer is
`update`.

`Follows P` is a local condition: `P` relates the label of each node to the labels
of its children.  A subtree may be replaced by any other with the same label
(`Follows.update`); this is what every mutation of a derivation tree rests on.
-/

import Mathlib.Algebra.Order.BigOperators.Group.List
import Mathlib.Algebra.Order.Group.Nat
import Mathlib.Algebra.Ring.Nat

namespace Jackalope
namespace Foundation

/-- A tree. -/
inductive Tree (α : Type)
  | node (label : α) (children : List (Tree α))

namespace Tree

variable {α β : Type}

/-- The label of the root. -/
def label : Tree α → α
  | node a _ => a

/-- The children of the root. -/
def children : Tree α → List (Tree α)
  | node _ ts => ts

/-- The label of a node.  -/
@[simp] theorem label_node (a : α) (ts : List (Tree α)) : (node a ts).label = a := rfl

/-- The subtrees of a node.  -/
@[simp] theorem children_node (a : α) (ts : List (Tree α)) : (node a ts).children = ts := rfl

/-- **Induction over trees.**  What holds of a node if it holds of its children holds
of every tree. -/
theorem induction {motive : Tree α → Prop}
    (h : ∀ a ts, (∀ t ∈ ts, motive t) → motive (node a ts)) : ∀ t, motive t
  | node a ts => h a ts fun t _ => induction h t

mutual

/-- Combine the label of each node with the results for its children. -/
def fold (f : α → List β → β) : Tree α → β
  | node a ts => f a (foldAll f ts)

/-- `fold` for each tree of a list. -/
def foldAll (f : α → List β → β) : List (Tree α) → List β
  | [] => []
  | t :: ts => fold f t :: foldAll f ts

end

/-- The function for lists that the recursion needs is the map of the one for trees;
statements speak of the map only.  -/
theorem foldAll_eq_map (f : α → List β → β) (ts : List (Tree α)) :
    foldAll f ts = ts.map (fold f) := by
  induction ts with
  | nil => rfl
  | cons t ts ih => rw [foldAll, ih, List.map_cons]

/-- **How a fold is computed**: from the label and the results for the subtrees.  -/
theorem fold_node (f : α → List β → β) (a : α) (ts : List (Tree α)) :
    fold f (node a ts) = f a (ts.map (fold f)) := by
  rw [fold, foldAll_eq_map]

/-- The number of nodes. -/
def numNodes : Tree α → ℕ := fold fun _ sizes => 1 + sizes.sum

/-- A tree has one node more than its subtrees together.  -/
theorem numNodes_node (a : α) (ts : List (Tree α)) :
    (node a ts).numNodes = 1 + (ts.map numNodes).sum := fold_node _ a ts

/-- Some node satisfies `p`. -/
def any (p : α → Bool) : Tree α → Bool := fold fun a bs => p a || bs.any id

/-- Some label of a tree passes the test if its own does or one of a subtree.  -/
theorem any_node {p : α → Bool} {a : α} {ts : List (Tree α)} :
    any p (node a ts) = (p a || ts.any (any p)) := by
  rw [any, fold_node, List.any_map]
  rfl

/-! ### Paths -/

/-- The subtree at a path. -/
def get? : Tree α → List ℕ → Option (Tree α)
  | t, [] => some t
  | node _ ts, i :: path => ts[i]?.bind fun t => t.get? path

/-- Change the subtree at a path. -/
def update (f : Tree α → Tree α) : List ℕ → Tree α → Tree α
  | [], t => f t
  | i :: path, node a ts => node a (ts.modify i (update f path))

/-- The changed entry of a list. -/
theorem getElem?_modify_some {l : List β} {i : ℕ} {b : β} (f : β → β) (h : l[i]? = some b) :
    (l.modify i f)[i]? = some (f b) := by
  rw [List.getElem?_modify_eq, h]
  rfl

/-- The empty path leads to the tree itself.  -/
@[simp] theorem get?_nil (t : Tree α) : t.get? [] = some t := by
  cases t
  rfl

/-- A path leads into the subtree with the number that it begins with, and on from there.
-/
theorem get?_cons {a : α} {ts : List (Tree α)} {i : ℕ} {path : List ℕ} {u : Tree α} :
    (node a ts).get? (i :: path) = some u ↔ ∃ t, ts[i]? = some t ∧ t.get? path = some u :=
  Option.bind_eq_some_iff

/-- A change that keeps the label below keeps the label at the root: either the path is
empty and the change is there, or the root is not touched.  -/
theorem label_update {f : Tree α → Tree α} {path : List ℕ} {t u : Tree α}
    (h : t.get? path = some u) (hf : (f u).label = u.label) :
    (update f path t).label = t.label := by
  cases path with
  | nil =>
      cases (get?_nil t).symm.trans h
      exact hf
  | cons i path =>
      cases t
      rfl

/-- Two changes at one path are one, which does first the one and then the other to the
subtree there.  -/
theorem update_update (f g : Tree α → Tree α) (path : List ℕ) (t : Tree α) :
    update f path (update g path t) = update (f ∘ g) path t := by
  induction path generalizing t with
  | nil => rfl
  | cons i path ih =>
      obtain ⟨a, ts⟩ := t
      rw [update, update, update, List.modify_modify_eq]
      congr 2
      funext t
      exact ih t

/-- The entries after one was changed: each of them was there before, or is the changed one.
-/
theorem mem_modify {l : List β} {i : ℕ} {f : β → β} {c : β} (h : c ∈ l.modify i f) :
    c ∈ l ∨ ∃ b, l[i]? = some b ∧ c = f b := by
  obtain ⟨j, hj⟩ := List.mem_iff_getElem?.1 h
  by_cases hij : i = j
  · subst hij
    rw [List.getElem?_modify_eq] at hj
    obtain ⟨b, hb, rfl⟩ := Option.map_eq_some_iff.1 hj
    exact Or.inr ⟨b, hb, rfl⟩
  · rw [List.getElem?_modify_ne _ _ hij] at hj
    exact Or.inl (List.mem_of_getElem? hj)

/-- A sum after one entry was changed: it differs by what that entry differs.  The sizes are
natural numbers, so both sides are written as sums.  -/
theorem sum_modify {l : List β} {i : ℕ} {b : β} (f : β → β) (size : β → ℕ) (h : l[i]? = some b) :
    ((l.modify i f).map size).sum + size b = (l.map size).sum + size (f b) := by
  induction l generalizing i with
  | nil => cases h
  | cons a l ih =>
      cases i with
      | zero =>
          cases h
          rw [List.modify_zero_cons, List.map_cons, List.map_cons, List.sum_cons, List.sum_cons]
          omega
      | succ i =>
          have hrest := ih (i := i) h
          rw [List.modify_succ_cons, List.map_cons, List.map_cons, List.sum_cons, List.sum_cons]
          omega

/-- **The number of nodes after a change** differs by what it differs at the path: the
subtree there is exchanged for the changed one and everything beside and above it stays.  -/
theorem numNodes_update {f : Tree α → Tree α} {path : List ℕ} {t u : Tree α}
    (h : t.get? path = some u) :
    (update f path t).numNodes + u.numNodes = t.numNodes + (f u).numNodes := by
  induction path generalizing t with
  | nil =>
      cases (get?_nil t).symm.trans h
      exact Nat.add_comm _ _
  | cons i path ih =>
      obtain ⟨a, ts⟩ := t
      obtain ⟨t', ht', hu⟩ := get?_cons.1 h
      have hsum := sum_modify (update f path) numNodes ht'
      have hchild := ih hu
      rw [update, numNodes_node, numNodes_node]
      omega

/-- **A measure does not grow** where a node is changed for one that measures no more, if it
grows with each child. -/
theorem measure_update_le {m : Tree α → ℕ}
    (hm : ∀ a ts i f, (∀ c, ts[i]? = some c → m (f c) ≤ m c) →
      m (node a (ts.modify i f)) ≤ m (node a ts))
    {f : Tree α → Tree α} {path : List ℕ} {t u : Tree α} (h : t.get? path = some u)
    (hf : m (f u) ≤ m u) : m (update f path t) ≤ m t := by
  induction path generalizing t with
  | nil =>
      cases (get?_nil t).symm.trans h
      exact hf
  | cons i path ih =>
      obtain ⟨a, ts⟩ := t
      obtain ⟨t', ht', hu⟩ := get?_cons.1 h
      refine hm a ts i _ fun c hc => ?_
      obtain rfl := Option.some.inj (ht'.symm.trans hc)
      exact ih hu

/-- A change that changes nothing: where the subtree at the path is its own image, the whole
tree is, whatever the path goes through.  -/
theorem update_eq_self {f : Tree α → Tree α} {path : List ℕ} {t u : Tree α}
    (h : t.get? path = some u) (hf : f u = u) : update f path t = t := by
  induction path generalizing t with
  | nil =>
      cases (get?_nil t).symm.trans h
      exact hf
  | cons i path ih =>
      obtain ⟨a, ts⟩ := t
      obtain ⟨t', ht', hu⟩ := get?_cons.1 h
      rw [update]
      congr 1
      refine List.ext_getElem? fun j => ?_
      by_cases hij : i = j
      · subst hij
        rw [getElem?_modify_some _ ht', ih hu, ht']
      · rw [List.getElem?_modify_ne _ _ hij]

/-- The subtree at the changed path is the changed subtree: the path itself leads where it
led.  -/
theorem get?_update {f : Tree α → Tree α} {path : List ℕ} {t u : Tree α}
    (h : t.get? path = some u) : (update f path t).get? path = some (f u) := by
  induction path generalizing t with
  | nil =>
      cases (get?_nil t).symm.trans h
      exact get?_nil _
  | cons i path ih =>
      obtain ⟨a, ts⟩ := t
      obtain ⟨t', ht', hu⟩ := get?_cons.1 h
      exact get?_cons.2 ⟨update f path t', getElem?_modify_some _ ht', ih hu⟩

/-- **A change is seen only at, above and below its path.**  A path that does not go
through the changed one still leads to a tree with the same label, and to as many
children. -/
theorem get?_update_of_not_prefix {f : Tree α → Tree α} {path other : List ℕ} {t u v : Tree α}
    (hu : t.get? path = some u) (hv : t.get? other = some v) (hother : ¬ path <+: other) :
    ∃ v', (update f path t).get? other = some v' ∧ v'.label = v.label ∧
      v'.children.length = v.children.length := by
  induction path generalizing t other with
  | nil => exact absurd List.nil_prefix hother
  | cons i path ih =>
      obtain ⟨a, ts⟩ := t
      obtain ⟨t', ht', hu'⟩ := get?_cons.1 hu
      cases other with
      | nil =>
          cases (get?_nil (node a ts)).symm.trans hv
          exact ⟨_, get?_nil _, rfl, List.length_modify _ _ _⟩
      | cons j other =>
          obtain ⟨t'', ht'', hv'⟩ := get?_cons.1 hv
          by_cases hij : i = j
          · subst hij
            cases ht'.symm.trans ht''
            obtain ⟨v', hget, hlabel, hlength⟩ := ih hu' hv' fun hp =>
              hother (List.cons_prefix_cons.2 ⟨rfl, hp⟩)
            exact ⟨v', get?_cons.2 ⟨_, getElem?_modify_some _ ht', hget⟩, hlabel, hlength⟩
          · refine ⟨v, get?_cons.2 ⟨t'', ?_, hv'⟩, rfl, rfl⟩
            rw [List.getElem?_modify_ne _ _ hij, ht'']

/-! ### Local conditions -/

/-- The label of every node and the labels of its children satisfy `P`. -/
inductive Follows (P : α → List α → Prop) : Tree α → Prop
  | node {a ts} : P a (ts.map label) → (∀ t ∈ ts, Follows P t) → Follows P (node a ts)

variable {P : α → List α → Prop}

/-- **A tree follows a rule** if its root does, with the labels below it, and all its
subtrees do.  -/
theorem follows_node {a : α} {ts : List (Tree α)} :
    Follows P (node a ts) ↔ P a (ts.map label) ∧ ∀ t ∈ ts, Follows P t := by
  constructor
  · rintro ⟨hp, hts⟩
    exact ⟨hp, hts⟩
  · rintro ⟨hp, hts⟩
    exact .node hp hts

/-- A weaker condition. -/
theorem Follows.mono {Q : α → List α → Prop} {t : Tree α} (h : Follows P t)
    (hQ : ∀ a labels, P a labels → Q a labels) : Follows Q t := by
  induction h with
  | node hp _ ih => exact .node (hQ _ _ hp) ih

/-- The condition holds of the children. -/
theorem Follows.child {t c : Tree α} (h : Follows P t) (hc : c ∈ t.children) : Follows P c := by
  cases h with
  | node hp hts => exact hts c hc

/-- The condition holds of every subtree, since it is one on each node and its children.  -/
theorem Follows.get? {t u : Tree α} {path : List ℕ} (h : Follows P t)
    (hu : t.get? path = some u) : Follows P u := by
  induction path generalizing t with
  | nil =>
      cases (get?_nil t).symm.trans hu
      exact h
  | cons i path ih =>
      obtain ⟨a, ts⟩ := t
      obtain ⟨t', ht', hu'⟩ := get?_cons.1 hu
      exact ih (h.child (List.mem_of_getElem? ht')) hu'

/-- **Replacing a subtree by one with the same label** keeps the condition.  The parent sees
of a child only its label, so what it asks of its children is still true, and inside the new
subtree the condition holds by itself.  -/
theorem Follows.update {f : Tree α → Tree α} {path : List ℕ} {t u : Tree α} (h : Follows P t)
    (hu : t.get? path = some u) (hlabel : (f u).label = u.label) (hf : Follows P (f u)) :
    Follows P (update f path t) := by
  induction path generalizing t with
  | nil =>
      cases (get?_nil t).symm.trans hu
      exact hf
  | cons i path ih =>
      obtain ⟨a, ts⟩ := t
      obtain ⟨hp, hts⟩ := follows_node.1 h
      obtain ⟨t', ht', hu'⟩ := get?_cons.1 hu
      have hlabels : (ts.modify i (Tree.update f path)).map label = ts.map label := by
        refine List.ext_getElem? fun j => ?_
        rw [List.getElem?_map, List.getElem?_map]
        by_cases hij : i = j
        · subst hij
          rw [getElem?_modify_some _ ht', ht', Option.map_some, Option.map_some,
            label_update hu' hlabel]
        · rw [List.getElem?_modify_ne _ _ hij]
      refine .node (by rw [hlabels]; exact hp) fun c hc => ?_
      rcases mem_modify hc with hc | ⟨b, hb, rfl⟩
      · exact hts c hc
      · cases ht'.symm.trans hb
        exact ih (hts t' (List.mem_of_getElem? ht')) hu'

/-! ### Depth -/

/-- With its root at `depth`, no node of the tree whose label is `counted` is deeper than
`limit`. -/
def DepthAtMost (counted : α → Prop) (limit depth : ℕ) (t : Tree α) : Prop :=
  ∀ path u, t.get? path = some u → counted u.label → depth + path.length ≤ limit

section Depth

variable {counted : α → Prop} {limit depth : ℕ}

/-- The depth of a tree is bounded at its root, if that is counted, and one level further
down in its subtrees.  -/
theorem depthAtMost_node {a : α} {ts : List (Tree α)} :
    DepthAtMost counted limit depth (node a ts) ↔
      (counted a → depth ≤ limit) ∧ ∀ t ∈ ts, DepthAtMost counted limit (depth + 1) t := by
  constructor
  · intro h
    refine ⟨fun ha => h [] _ (get?_nil _) ha, fun t ht path u hu hcounted => ?_⟩
    obtain ⟨i, hi⟩ := List.mem_iff_getElem?.1 ht
    have hle := h (i :: path) u (get?_cons.2 ⟨t, hi, hu⟩) hcounted
    rw [List.length_cons] at hle
    omega
  · rintro ⟨ha, hts⟩ path u hu hcounted
    cases path with
    | nil =>
        cases (get?_nil (node a ts)).symm.trans hu
        exact ha hcounted
    | cons i path =>
        obtain ⟨t, ht, hu'⟩ := get?_cons.1 hu
        have hle := hts t (List.mem_of_getElem? ht) path u hu' hcounted
        rw [List.length_cons]
        omega

/-- A tree within the limit stays within it nearer to the root.  -/
theorem DepthAtMost.mono {depth' : ℕ} {t : Tree α} (h : DepthAtMost counted limit depth t)
    (hle : depth' ≤ depth) : DepthAtMost counted limit depth' t := by
  intro path u hu hcounted
  have := h path u hu hcounted
  omega

/-- The subtree at a path, with its root at its depth in the tree. -/
theorem DepthAtMost.get? {t u : Tree α} {path : List ℕ} (h : DepthAtMost counted limit depth t)
    (hu : t.get? path = some u) : DepthAtMost counted limit (depth + path.length) u := by
  induction path generalizing t depth with
  | nil =>
      cases (get?_nil t).symm.trans hu
      exact h
  | cons i path ih =>
      obtain ⟨a, ts⟩ := t
      obtain ⟨t', ht', hu'⟩ := get?_cons.1 hu
      have hbelow := ih ((depthAtMost_node.1 h).2 t' (List.mem_of_getElem? ht')) hu'
      rw [List.length_cons, Nat.add_comm path.length, ← Nat.add_assoc]
      exact hbelow

/-- **The depth after a change** is at most the limit exactly when the new subtree fits
where it was put. -/
theorem DepthAtMost.update_iff {f : Tree α → Tree α} {path : List ℕ} {t u : Tree α}
    (h : DepthAtMost counted limit depth t) (hu : t.get? path = some u) :
    DepthAtMost counted limit depth (update f path t) ↔
      DepthAtMost counted limit (depth + path.length) (f u) := by
  refine ⟨fun hnew => hnew.get? (get?_update hu), fun hfits => ?_⟩
  induction path generalizing t depth with
  | nil =>
      cases (get?_nil t).symm.trans hu
      exact hfits
  | cons i path ih =>
      obtain ⟨a, ts⟩ := t
      obtain ⟨t', ht', hu'⟩ := get?_cons.1 hu
      obtain ⟨ha, hts⟩ := depthAtMost_node.1 h
      refine depthAtMost_node.2 ⟨ha, fun c hc => ?_⟩
      rcases mem_modify hc with hc | ⟨b, hb, rfl⟩
      · exact hts c hc
      · cases ht'.symm.trans hb
        rw [List.length_cons, Nat.add_comm path.length, ← Nat.add_assoc] at hfits
        exact ih (hts t' (List.mem_of_getElem? ht')) hu' hfits

end Depth

/-! ### Listing nodes -/

/-- The paths of the nodes with their depths, parents first and children in order,
where the depths count from a given one: those whose label and number of children
`keep` accepts, and that are not at or below a node that `stop` holds of. -/
def list (stop : α → ℕ → Bool) (keep : α → ℕ → Bool) : Tree α → ℕ → List (List ℕ × ℕ) :=
  fold fun a below depth =>
    if stop a depth then []
    else (if keep a below.length then [([], depth)] else []) ++
      (below.zipIdx.flatMap fun (sub, i) => (sub (depth + 1)).map fun (path, d) => (i :: path, d))

variable {stop : α → ℕ → Bool} {keep : α → ℕ → Bool} {depth d : ℕ} {path : List ℕ}

/-- What is listed of a tree: nothing if the search stops at its root; else the root, if it
is to be kept, and what is listed of the subtrees, one level down and with the number of the
subtree in front of the path.  -/
theorem mem_list_node {a : α} {ts : List (Tree α)} :
    (path, d) ∈ list stop keep (node a ts) depth ↔
      stop a depth = false ∧
        ((path = [] ∧ d = depth ∧ keep a ts.length = true) ∨
          ∃ i t path', path = i :: path' ∧ ts[i]? = some t ∧
            (path', d) ∈ list stop keep t (depth + 1)) := by
  rw [list, fold_node]
  by_cases hstop : stop a depth = true
  · rw [if_pos hstop, hstop]
    simp
  · rw [if_neg hstop, List.mem_append, List.length_map]
    rw [Bool.not_eq_true] at hstop
    constructor
    · rintro (hroot | hbelow)
      · refine ⟨hstop, Or.inl ?_⟩
        split at hroot
        · rename_i hkeep
          cases List.mem_singleton.1 hroot
          exact ⟨rfl, rfl, hkeep⟩
        · cases hroot
      · obtain ⟨⟨sub, i⟩, hsub, hmem⟩ := List.mem_flatMap.1 hbelow
        obtain ⟨⟨path', d'⟩, hmem, heq⟩ := List.mem_map.1 hmem
        cases heq
        have hget := List.mem_zipIdx_iff_getElem?.1 hsub
        rw [List.getElem?_map] at hget
        obtain ⟨t, ht, rfl⟩ := Option.map_eq_some_iff.1 hget
        exact ⟨hstop, Or.inr ⟨i, t, path', rfl, ht, hmem⟩⟩
    · rintro ⟨-, ⟨rfl, rfl, hkeep⟩ | ⟨i, t, path', rfl, ht, hmem⟩⟩
      · exact Or.inl (by rw [if_pos hkeep]; exact List.mem_singleton_self _)
      · refine Or.inr (List.mem_flatMap.2 ⟨(fold _ t, i), ?_, List.mem_map.2 ⟨(path', d), hmem, rfl⟩⟩)
        rw [List.mem_zipIdx_iff_getElem?, List.getElem?_map, ht]
        rfl

/-- **A listed node** is there, and is accepted: its path leads to a subtree, the search did
not stop at it, and the filter keeps it.  -/
theorem get?_of_mem_list {t : Tree α} (h : (path, d) ∈ list stop keep t depth) :
    ∃ u, t.get? path = some u ∧ stop u.label d = false ∧ keep u.label u.children.length = true := by
  induction path generalizing t depth with
  | nil =>
      obtain ⟨a, ts⟩ := t
      obtain ⟨hstop, ⟨-, rfl, hkeep⟩ | ⟨i, t, path', ⟨⟩, -⟩⟩ := mem_list_node.1 h
      exact ⟨_, rfl, hstop, hkeep⟩
  | cons i path ih =>
      obtain ⟨a, ts⟩ := t
      obtain ⟨-, ⟨⟨⟩, -⟩ | ⟨i, t, path', ⟨⟩, ht, hmem⟩⟩ := mem_list_node.1 h
      obtain ⟨u, hu, hrest⟩ := ih hmem
      exact ⟨u, get?_cons.2 ⟨t, ht, hu⟩, hrest⟩

/-- The depth in the list is that of the node: the depth at which the list begins and the
length of its path.  -/
theorem depth_of_mem_list {t : Tree α} (h : (path, d) ∈ list stop keep t depth) :
    d = depth + path.length := by
  induction path generalizing t depth with
  | nil =>
      obtain ⟨a, ts⟩ := t
      obtain ⟨-, ⟨-, rfl, -⟩ | ⟨i, t, path', ⟨⟩, -⟩⟩ := mem_list_node.1 h
      rfl
  | cons i path ih =>
      obtain ⟨a, ts⟩ := t
      obtain ⟨-, ⟨⟨⟩, -⟩ | ⟨i, t, path', ⟨⟩, -, hmem⟩⟩ := mem_list_node.1 h
      rw [ih hmem, List.length_cons, Nat.add_comm path.length, Nat.add_assoc]

/-- **Parents come first**: no node of the list is at or above one listed before it.  So a
node that is changed later in the list is never inside one that was removed before, and its
path still leads to it.  -/
theorem list_pairwise (t : Tree α) (depth : ℕ) :
    (list stop keep t depth).Pairwise fun x y => ¬ y.1 <+: x.1 := by
  induction t using induction generalizing depth with
  | h a ts ih =>
      rw [list, fold_node]
      split
      · exact List.Pairwise.nil
      refine List.pairwise_append.2 ⟨?_, ?_, ?_⟩
      · split
        · exact List.pairwise_singleton _ _
        · exact List.Pairwise.nil
      · refine List.pairwise_flatMap.2 ⟨?_, ?_⟩
        · rintro ⟨sub, i⟩ hsub
          have hget := List.mem_zipIdx_iff_getElem?.1 hsub
          rw [List.getElem?_map] at hget
          obtain ⟨t, ht, rfl⟩ := Option.map_eq_some_iff.1 hget
          refine List.pairwise_map.2 ((ih t (List.mem_of_getElem? ht) (depth + 1)).imp ?_)
          intro x y hxy hp
          exact hxy (List.cons_prefix_cons.1 hp).2
        · -- paths below different children start differently
          have hnodup : ((ts.map (list stop keep)).zipIdx.map Prod.snd).Nodup := by
            rw [List.zipIdx_map_snd]
            exact List.nodup_range'
          refine (List.pairwise_map.1 hnodup).imp ?_
          rintro ⟨sub, i⟩ ⟨sub', j⟩ hij x hx y hy hp
          obtain ⟨x', -, rfl⟩ := List.mem_map.1 hx
          obtain ⟨y', -, rfl⟩ := List.mem_map.1 hy
          exact hij (List.cons_prefix_cons.1 hp).1.symm
      · intro x hx y hy hp
        obtain ⟨⟨sub, i⟩, -, hy⟩ := List.mem_flatMap.1 hy
        obtain ⟨y', -, rfl⟩ := List.mem_map.1 hy
        split at hx
        · cases List.mem_singleton.1 hx
          cases List.prefix_nil.1 hp
        · cases hx

end Tree

end Foundation
end Jackalope
