/-
# The sample trie

`Sample::FindFirstDiff` and `SampleTrie` (`sample.cpp`, lines 170-283).  `SaveSample` adds
each new sample to one trie, and the answer, the first byte in which the sample differs
from all samples so far, is its hot offset (`fuzzer.cpp`, line 381).

A node stands for a run of bytes, its constant part, and the trie is not asked for the
samples in it but for one number: how far a string can be followed (`follow`).  Adding a
sample makes that the larger of what it was and of what the string and the sample have in
common (`follow_addFrom`), whether a node is split, a child is added, or nothing is
recorded because the sample ends inside the trie.
-/

import Jackalope.Sample
import Mathlib.Logic.Function.Basic

namespace Jackalope

/-! ### `FindFirstDiff` -/

/-- The loop of `FindFirstDiff`. -/
def firstDiff : Bytes → Bytes → ℕ
  | a :: as, b :: bs => if a ≠ b then 0 else firstDiff as bs + 1
  | _, _ => 0

/-- `Sample::FindFirstDiff`. -/
def Sample.findFirstDiff (s other : Sample) : ℕ := firstDiff s.bytes other.bytes

/-- A sample without bytes has nothing in common with another one.  -/
@[simp] theorem firstDiff_nil_left (bs : Bytes) : firstDiff [] bs = 0 := rfl

/-- Nor has another one with it.  -/
@[simp] theorem firstDiff_nil_right (as : Bytes) : firstDiff as [] = 0 := by
  cases as <;> rfl

/-- A byte in common is counted, and those behind it.  -/
theorem firstDiff_cons_self (a : UInt8) (as bs : Bytes) :
    firstDiff (a :: as) (a :: bs) = firstDiff as bs + 1 := by
  rw [firstDiff, if_neg (not_not.2 rfl)]

/-- At the first difference the count ends.  -/
theorem firstDiff_cons_of_ne {a b : UInt8} (h : a ≠ b) (as bs : Bytes) :
    firstDiff (a :: as) (b :: bs) = 0 := by
  rw [firstDiff, if_pos h]

/-- **It is the length of the longest common prefix**: the loop stops at the first byte that
differs or at the end of the shorter of the two.  -/
theorem le_firstDiff_iff {as bs : Bytes} {n : ℕ} :
    n ≤ firstDiff as bs ↔ n ≤ as.length ∧ n ≤ bs.length ∧ as.take n = bs.take n := by
  induction as generalizing bs n with
  | nil =>
      rw [firstDiff_nil_left, List.length_nil, Nat.le_zero]
      constructor
      · rintro rfl
        exact ⟨rfl, Nat.zero_le _, rfl⟩
      · exact And.left
  | cons a as ih =>
      rcases n with _ | n
      · simp
      rcases bs with _ | ⟨b, bs⟩
      · simp
      by_cases hab : a = b
      · subst hab
        rw [firstDiff_cons_self, Nat.succ_le_succ_iff, ih]
        simp
      · rw [firstDiff_cons_of_ne hab]
        simp [hab]

/-! ### The trie -/

/-- `SampleTrieNode`: its constant part, and its children by their characters. -/
inductive SampleTrieNode
  | node (constantPart : Bytes) (children : UInt8 → Option SampleTrieNode)

/-- The children of a node. -/
abbrev SampleTrieNode.Children := UInt8 → Option SampleTrieNode

namespace SampleTrieNode

/-- No children. -/
def noChildren : Children := fun _ => none

/-- A new node with this constant part. -/
def initConstantPart (constantPart : Bytes) : SampleTrieNode := .node constantPart noChildren

/-- The loop of `AddSample` at one node.  `rest` is the sample from `cur_sample_pos` on,
`passed` and `constant` are the constant part of the node before `cur_constant_pos` and
from there on.  The result is the answer and the node as it is left. -/
def addFrom : Bytes → ℕ → Bytes → Bytes → Children → ℕ × SampleTrieNode
  -- the sample ends here: nothing is recorded
  | [], curSamplePos, passed, constant, children => (curSamplePos, .node (passed ++ constant) children)
  | curChar :: rest, curSamplePos, passed, [], children =>
      match children curChar with
      | some (.node constant' children') =>
          let (ret, child) := addFrom rest (curSamplePos + 1) [] constant' children'
          (ret, .node passed (Function.update children curChar (some child)))
      | none =>
          (curSamplePos,
            .node passed (Function.update children curChar (some (initConstantPart rest))))
  | curChar :: rest, curSamplePos, passed, trieChar :: constant, children =>
      if trieChar = curChar then
        addFrom rest (curSamplePos + 1) (passed ++ [trieChar]) constant children
      else
        (curSamplePos,
          .node passed (Function.update
            (Function.update noChildren trieChar (some (.node constant children)))
            curChar (some (initConstantPart rest))))

/-- How far a string can be followed from a place in a node. -/
def follow : Bytes → Bytes → Children → ℕ
  | [], _, _ => 0
  | c :: rest, [], children =>
      match children c with
      | some (.node constant' children') => follow rest constant' children' + 1
      | none => 0
  | c :: rest, k :: constant, children =>
      if k = c then follow rest constant children + 1 else 0

/-- In a node without children, a string can be followed as far as the constant part. -/
theorem follow_noChildren (s constant : Bytes) :
    follow s constant noChildren = firstDiff constant s := by
  induction s generalizing constant with
  | nil => rw [follow, firstDiff_nil_right]
  | cons c s ih =>
      rcases constant with _ | ⟨k, constant⟩
      · rfl
      · by_cases h : k = c
        · subst h
          rw [follow, if_pos rfl, ih, firstDiff_cons_self]
        · rw [follow, if_neg h, firstDiff_cons_of_ne h]

/-- The search goes into the child with the next byte, if it is there, and has one byte more
in common.  -/
theorem follow_child_some {c : UInt8} {children : Children} {constant' : Bytes}
    {children' : Children} (h : children c = some (.node constant' children')) (s : Bytes) :
    follow (c :: s) [] children = follow s constant' children' + 1 := by
  rw [follow, h]

/-- A child that was made for one sample has its rest as the constant part, so the search
ends in it.  -/
theorem follow_child_new {c : UInt8} {children : Children} {constantPart : Bytes}
    (h : children c = some (initConstantPart constantPart)) (s : Bytes) :
    follow (c :: s) [] children = firstDiff constantPart s + 1 := by
  rw [follow_child_some h, follow_noChildren]

/-- Without a child for the next byte the search ends.  -/
theorem follow_child_none {c : UInt8} {children : Children} (h : children c = none) (s : Bytes) :
    follow (c :: s) [] children = 0 := by
  rw [follow, h]

/-- Only the child that is replaced is followed in another way. -/
theorem follow_update_of_ne {c d : UInt8} (h : d ≠ c) (children : Children)
    (child : Option SampleTrieNode) (s : Bytes) :
    follow (d :: s) [] (Function.update children c child) = follow (d :: s) [] children := by
  rw [follow, follow, Function.update_of_ne h]

/-- **The answer says how far the sample can be followed** through the trie as it was,
before the sample itself was added to it.  -/
theorem fst_addFrom (s : Bytes) (pos : ℕ) (passed constant : Bytes) (children : Children) :
    (addFrom s pos passed constant children).1 = pos + follow s constant children := by
  induction s generalizing pos passed constant children with
  | nil => rfl
  | cons c s ih =>
      rcases constant with _ | ⟨k, constant⟩
      · rcases hchild : children c with _ | ⟨constant', children'⟩
        · rw [follow_child_none hchild, addFrom, hchild]
          rfl
        · rw [follow_child_some hchild, addFrom, hchild]
          show (addFrom s (pos + 1) [] constant' children').1 = _
          rw [ih]
          omega
      · rw [addFrom, follow]
        split
        · rw [ih]
          omega
        · rfl

/-- **What adding a sample changes.**  The node still begins with what was passed, and from
there on a string can be followed as far as before, or as far as it and the sample agree. -/
theorem follow_addFrom (s : Bytes) (pos : ℕ) (passed constant : Bytes) (children : Children) :
    ∃ constant' children', (addFrom s pos passed constant children).2 =
        .node (passed ++ constant') children' ∧
      ∀ t, follow t constant' children' = max (follow t constant children) (firstDiff s t) := by
  induction s generalizing pos passed constant children with
  | nil => exact ⟨constant, children, rfl, fun t => (Nat.max_zero _).symm⟩
  | cons c s ih =>
      rcases constant with _ | ⟨k, constant⟩
      · rcases hchild : children c with _ | ⟨constant', children'⟩
        · -- a new child
          refine ⟨[], Function.update children c (some (initConstantPart s)), ?_, fun t => ?_⟩
          · rw [addFrom, hchild, List.append_nil]
          rcases t with _ | ⟨d, t⟩
          · rfl
          by_cases hd : d = c
          · subst hd
            rw [follow_child_new (Function.update_self ..), follow_child_none hchild,
              firstDiff_cons_self, Nat.zero_max]
          · rw [follow_update_of_ne hd, firstDiff_cons_of_ne (Ne.symm hd), Nat.max_zero]
        · -- the sample goes on in a child
          obtain ⟨constant₂, children₂, hadd, hfollow⟩ := ih (pos + 1) [] constant' children'
          refine ⟨[], Function.update children c (some (.node constant₂ children₂)), ?_, fun t => ?_⟩
          · rw [addFrom, hchild, List.append_nil]
            show SampleTrieNode.node passed _ = _
            rw [hadd, List.nil_append]
          rcases t with _ | ⟨d, t⟩
          · rfl
          by_cases hd : d = c
          · subst hd
            rw [follow_child_some (Function.update_self ..), hfollow, follow_child_some hchild,
              firstDiff_cons_self, Nat.add_max_add_right]
          · rw [follow_update_of_ne hd, firstDiff_cons_of_ne (Ne.symm hd), Nat.max_zero]
      · by_cases hk : k = c
        · -- the constant part goes on
          subst hk
          obtain ⟨constant₂, children₂, hadd, hfollow⟩ := ih (pos + 1) (passed ++ [k]) constant children
          refine ⟨k :: constant₂, children₂, ?_, fun t => ?_⟩
          · rw [addFrom, if_pos rfl, hadd, List.append_assoc]
            rfl
          rcases t with _ | ⟨d, t⟩
          · rfl
          by_cases hd : k = d
          · subst hd
            rw [follow, if_pos rfl, hfollow, follow, if_pos rfl, firstDiff_cons_self,
              Nat.add_max_add_right]
          · rw [follow, if_neg hd, follow, if_neg hd, firstDiff_cons_of_ne hd, Nat.max_zero]
        · -- the node is split
          refine ⟨[], Function.update (Function.update noChildren k (some (.node constant children)))
            c (some (initConstantPart s)), ?_, fun t => ?_⟩
          · rw [addFrom, if_neg hk, List.append_nil]
          rcases t with _ | ⟨d, t⟩
          · rfl
          by_cases hd : d = c
          · subst hd
            rw [follow_child_new (Function.update_self ..), follow, if_neg hk, firstDiff_cons_self,
              Nat.zero_max]
          rw [follow_update_of_ne hd, firstDiff_cons_of_ne (Ne.symm hd), Nat.max_zero]
          by_cases hdk : d = k
          · subst hdk
            rw [follow_child_some (Function.update_self ..), follow, if_pos rfl]
          · rw [follow_update_of_ne hdk, follow_child_none rfl, follow, if_neg (Ne.symm hdk)]

end SampleTrieNode

/-- `SampleTrie`. -/
structure SampleTrie where
  root : Option SampleTrieNode

namespace SampleTrie

/-- `SampleTrie()`. -/
def empty : SampleTrie := ⟨none⟩

/-- `AddSample`. -/
def addSample (trie : SampleTrie) (sample : Sample) : ℕ × SampleTrie :=
  if sample.size = 0 then (0, trie)
  else
    match trie.root with
    | none => (0, ⟨some (SampleTrieNode.initConstantPart sample.bytes)⟩)
    | some (.node constantPart children) =>
        let (ret, root) := SampleTrieNode.addFrom sample.bytes 0 [] constantPart children
        (ret, ⟨some root⟩)

/-- How far a string can be followed from the root. -/
def follow (trie : SampleTrie) (s : Bytes) : ℕ :=
  match trie.root with
  | none => 0
  | some (.node constantPart children) => SampleTrieNode.follow s constantPart children

/-- An empty sample changes nothing. -/
theorem addSample_of_size_eq_zero (trie : SampleTrie) {sample : Sample} (h : sample.size = 0) :
    trie.addSample sample = (0, trie) := by
  rw [addSample, if_pos h]

/-- The answer is how far the sample can be followed in the trie as it is; what is added to
the trie comes behind that.  -/
theorem fst_addSample (trie : SampleTrie) (sample : Sample) :
    (trie.addSample sample).1 = trie.follow sample.bytes := by
  obtain ⟨_ | ⟨constantPart, children⟩⟩ := trie
  · rw [addSample]
    split <;> rfl
  · rw [addSample]
    split
    · rename_i hsize
      rw [follow, List.length_eq_zero_iff.1 hsize]
      rfl
    · show (SampleTrieNode.addFrom _ _ _ _ _).1 = _
      rw [SampleTrieNode.fst_addFrom, Nat.zero_add]
      rfl

/-- After a sample is added, a string can be followed as far as before, or as far as it and
the sample agree. -/
theorem follow_addSample (trie : SampleTrie) (sample : Sample) (s : Bytes) :
    (trie.addSample sample).2.follow s = max (trie.follow s) (firstDiff sample.bytes s) := by
  rw [addSample]
  split
  · rename_i hsize
    rw [List.length_eq_zero_iff.1 hsize]
    exact (Nat.max_zero _).symm
  · obtain ⟨_ | ⟨constantPart, children⟩⟩ := trie
    · show SampleTrieNode.follow s sample.bytes SampleTrieNode.noChildren = _
      rw [SampleTrieNode.follow_noChildren]
      exact (Nat.zero_max _).symm
    · obtain ⟨constant', children', hadd, hfollow⟩ :=
        SampleTrieNode.follow_addFrom sample.bytes 0 [] constantPart children
      show follow ⟨some (SampleTrieNode.addFrom _ _ _ _ _).2⟩ s = _
      rw [hadd]
      exact hfollow s

/-- The trie after these samples were added, in order. -/
def addSamples (samples : List Sample) : SampleTrie :=
  samples.foldl (fun trie sample => (trie.addSample sample).2) empty

/-- The naive search: the largest answer of `FindFirstDiff` among the samples that are not
empty, 0 if there is none. -/
def naive (samples : List Sample) (s : Sample) : ℕ :=
  ((samples.filter fun t => t.size ≠ 0).map fun t => t.findFirstDiff s).foldl max 0

/-- One sample more, and the maximum is with it: the naive search only looks at each sample
in turn.  -/
theorem naive_concat (samples : List Sample) (t s : Sample) :
    naive (samples ++ [t]) s = max (naive samples s) (t.findFirstDiff s) := by
  rw [naive, List.filter_append, List.map_append, List.foldl_append, ← naive]
  by_cases h : t.size = 0
  · have hempty : t.findFirstDiff s = 0 := by
      rw [Sample.findFirstDiff, List.length_eq_zero_iff.1 h]
      rfl
    rw [hempty, Nat.max_zero, List.filter_cons_of_neg (by simpa using h)]
    rfl
  · rw [List.filter_cons_of_pos (by simpa using h)]
    rfl

/-- **What the search finds in the trie of all samples is the naive maximum** over them.  -/
theorem follow_addSamples (samples : List Sample) (s : Sample) :
    (addSamples samples).follow s.bytes = naive samples s := by
  induction samples using List.reverseRecOn with
  | nil => rfl
  | append_singleton samples t ih =>
      rw [naive_concat, addSamples, List.foldl_append, ← addSamples, ← ih]
      exact follow_addSample _ t s.bytes

/-- **The trie answers like the naive search**, whatever samples were added before: the
answer is the length of the longest prefix that the sample has in common with any of them.
An empty sample is answered by 0 and changes nothing.  -/
theorem addSample_eq_naive (samples : List Sample) (s : Sample) :
    ((addSamples samples).addSample s).1 = naive samples s ∧
      (s.size = 0 → (addSamples samples).addSample s = (0, addSamples samples)) :=
  ⟨by rw [fst_addSample, follow_addSamples], addSample_of_size_eq_zero _⟩

end SampleTrie

end Jackalope
