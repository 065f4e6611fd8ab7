/-
# Trees that are written along trees

`Matches R t u`: the trees `t` and `u` have one shape, and their labels are related by
`R`.  Where `t` is known to who reads and to who writes, `u` needs no brackets: `write`
puts down its labels, parents first and children in order, and `read` goes along `t` and
puts new labels into a tree that is already there.

`decodes_read`: if every label is read back from what was written for it, then the tree
is, whatever labels were there before.

`visit` is for one value that all nodes share: each node in turn reads it or leaves it.
-/

import Jackalope.Foundation.Consumer
import Jackalope.Foundation.Tree

namespace Jackalope
namespace Foundation
namespace Tree

open Consumer

variable {α β γ τ ε : Type}

/-- One shape, and labels in `R`. -/
inductive Matches (R : α → β → Prop) : Tree α → Tree β → Prop
  | node {a b ts us} : R a b → List.Forall₂ (Matches R) ts us → Matches R (node a ts) (node b us)

/-- Trees match if their roots do and their subtrees do one by one.  -/
theorem matches_node {R : α → β → Prop} {a : α} {b : β} {ts : List (Tree α)} {us : List (Tree β)} :
    Matches R (node a ts) (node b us) ↔ R a b ∧ List.Forall₂ (Matches R) ts us := by
  constructor
  · rintro ⟨hlabel, hchildren⟩
    exact ⟨hlabel, hchildren⟩
  · rintro ⟨hlabel, hchildren⟩
    exact .node hlabel hchildren

/-- The tree with the labels that `f` gives matches the tree that it is made from, if each
label matches its own image.  -/
theorem matches_fold {R : α → β → Prop} {f : α → β} (h : ∀ a, R a (f a)) (t : Tree α) :
    Matches R t (fold (fun a us => node (f a) us) t) := by
  induction t using induction with
  | h a ts ih =>
      rw [fold_node]
      refine .node (h a) ?_
      rw [List.forall₂_map_right_iff, List.forall₂_same]
      exact ih

/-! ### Writing and reading -/

/-- One word after the other, each for its tree. -/
def writeAll : List (Tree β → List τ) → List (Tree β) → List τ
  | w :: ws, t :: ts => w t ++ writeAll ws ts
  | _, _ => []

/-- One tree after the other. -/
def readAll : List (Tree β → Consumer τ ε (Tree β)) → List (Tree β) →
    Consumer τ ε (List (Tree β))
  | r :: rs, t :: ts => r t >>= fun t' => readAll rs ts >>= fun ts' => pure (t' :: ts')
  | _, _ => pure []

/-- Write the labels of a tree. -/
def write (w : α → β → List τ) : Tree α → Tree β → List τ :=
  fold fun a ws t => w a t.label ++ writeAll ws t.children

/-- Read labels into a tree. -/
def read (r : α → β → Consumer τ ε β) : Tree α → Tree β → Consumer τ ε (Tree β) :=
  fold fun a rs t => r a t.label >>= fun b => readAll rs t.children >>= fun ts => pure (node b ts)

variable {R : α → β → Prop} {w : α → β → List τ} {r : α → β → Consumer τ ε β}

/-- The children, if each of them is read back: the words of the children follow one
another, and each reader leaves behind exactly what the next one begins with.  -/
theorem decodes_readAll {ts : List (Tree α)} {us us' : List (Tree β)}
    (h : ∀ t ∈ ts, ∀ u u', Matches R t u → Matches R t u' →
      Decodes (read r t u') (write w t u) u)
    (hus : List.Forall₂ (Matches R) ts us) (hus' : List.Forall₂ (Matches R) ts us') :
    Decodes (readAll (ts.map (read r)) us') (writeAll (ts.map (write w)) us) us := by
  induction ts generalizing us us' with
  | nil =>
      cases hus
      exact Decodes.pure []
  | cons t ts ih =>
      rcases hus with _ | ⟨hchild, hus⟩
      rcases hus' with _ | ⟨hchild', hus'⟩
      have hfirst := h t List.mem_cons_self _ _ hchild hchild'
      have hrest := ih (fun c hc => h c (List.mem_cons_of_mem _ hc)) hus hus'
      exact hfirst.bind (hrest.bind_pure _)

/-- **What is written of a tree is read back**, into any tree of the same shape. -/
theorem decodes_read (h : ∀ a b b', R a b → R a b' → Decodes (r a b') (w a b) b) {t : Tree α}
    {u u' : Tree β} (hu : Matches R t u) (hu' : Matches R t u') :
    Decodes (read r t u') (write w t u) u := by
  induction t using induction generalizing u u' with
  | h a ts ih =>
      obtain ⟨b, us⟩ := u
      obtain ⟨b', us'⟩ := u'
      obtain ⟨hlabel, hus⟩ := matches_node.1 hu
      obtain ⟨hlabel', hus'⟩ := matches_node.1 hu'
      have hchildren := decodes_readAll (fun t ht u u' => ih t ht) hus hus'
      rw [read, write, fold_node, fold_node]
      exact (h a b b' hlabel hlabel').bind (hchildren.bind_pure _)

/-! ### A value that the nodes share -/

/-- One computation after the other, each with what the one before returned. -/
def visitAll : List (γ → Consumer τ ε γ) → γ → Consumer τ ε γ
  | [], c => pure c
  | r :: rs, c => r c >>= visitAll rs

/-- Each node in turn reads the value again, or leaves it. -/
def visit (r : α → γ → Consumer τ ε γ) : Tree α → γ → Consumer τ ε γ :=
  fold fun a rs c => r a c >>= visitAll rs

/-- Each node in turn writes the value, or leaves it out. -/
def writeShared (w : α → γ → List τ) (c : γ) : Tree α → List τ :=
  fold fun a ws => w a c ++ ws.flatten

/-- What is there is not lost. -/
theorem ite_ite_or (p q : Bool) (c c' : γ) :
    (if q then c else if p then c else c') = if p || q then c else c' := by
  cases p <;> cases q <;> rfl

/-- If the value is there already, or some tree of the list has read it, it is there. -/
theorem decodes_visitAll {p : α → Bool} {w : α → γ → List τ} {r : α → γ → Consumer τ ε γ} {c : γ}
    {ts : List (Tree α)} (h : ∀ t ∈ ts, ∀ c',
      Decodes (visit r t c') (writeShared w c t) (if any p t then c else c')) (c' : γ) :
    Decodes (visitAll (ts.map (visit r)) c') (ts.map (writeShared w c)).flatten
      (if ts.any (any p) then c else c') := by
  induction ts generalizing c' with
  | nil => exact Decodes.pure c'
  | cons t ts ih =>
      have hfirst := h t List.mem_cons_self c'
      have hrest := ih (fun u hu => h u (List.mem_cons_of_mem _ hu)) (if any p t then c else c')
      have hall := hfirst.bind hrest
      rw [ite_ite_or] at hall
      exact hall

/-- **A shared value is read back** if some node writes it; nodes that do not write it
leave what was there. -/
theorem decodes_visit {p : α → Bool} {w : α → γ → List τ} {r : α → γ → Consumer τ ε γ} {c : γ}
    (h : ∀ a c', Decodes (r a c') (w a c) (if p a then c else c')) (t : Tree α) (c' : γ) :
    Decodes (visit r t c') (writeShared w c t) (if any p t then c else c') := by
  induction t using induction generalizing c' with
  | h a ts ih =>
      have hall := (h a c').bind (decodes_visitAll ih (if p a then c else c'))
      rw [ite_ite_or] at hall
      rw [visit, writeShared, fold_node, fold_node, any_node]
      exact hall

end Tree
end Foundation
end Jackalope
