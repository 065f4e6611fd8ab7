/-
# Which mutator is told the result

`FuzzJob` asks the mutator for a sample (`Mutate`), runs it, and tells the mutator the
result (`NotifyResult`).  A mutator that made the sample with one of its children
remembers which, and passes the result on to that child.

A child may fail, and then `Mutate` returns `false`.  Four mutators do not look at some
of these answers: `NRoundMutator`, `RepeatMutator` when it repeats,
`DtermininsticNondeterministicMutator` at its second child, and `RangeMutator` for a
cropped sample.  They return `true`, so the result is passed on into a child that made
nothing: a `MutatorSequence` at its end has no such child at all.  An answer that was
not looked at is `dropped`; where none is, results reach the child that made the sample
(`notified_child_ran`).
-/

import Jackalope.Foundation.Run
import Jackalope.Mutators.Kinds

namespace Jackalope
namespace Mutators

open Foundation

/-! ### What mutators remember -/

/-- The fields that change while a sample is fuzzed; each class uses its own. -/
structure MutatorState where
  /-- `current_round`. -/
  currentRound : ℕ
  /-- `current_mutator_index` of the context. -/
  currentMutatorIndex : ℕ
  /-- `last_mutator_index`, or which child `last_mutator` is, once it is set. -/
  last : Option ℕ
  /-- The child that `Mutate` ran to success when it was called last for this sample.
  The source has no such field; it is what the others are compared with. -/
  ran : Option ℕ
  deriving DecidableEq

/-- A mutator's state with those of its children. -/
abbrev State := Foundation.Tree MutatorState

/-- Leaf mutators are called only for their answer. -/
def Kind.isLeaf : Kind → Bool
  | .leaf | .baseDeterministicMutator | .grammarMutator => true
  | _ => false

/-- The mutators that remember a child. -/
def Kind.selects : Kind → Bool
  | .mutatorSequence _ _ | .selectMutator | .pSelectMutator
  | .dtermininsticNondeterministicMutator _ _ => true
  | _ => false

/-- `InitRound`. -/
def initRound : Mutator → State → State :=
  Tree.fold fun kind children s =>
    let own := s.label
    let own :=
      match kind with
      | .nRoundMutator _ | .dtermininsticNondeterministicMutator _ _ =>
          { own with currentRound := 0 }
      | .mutatorSequence restartEachRound _ =>
          if restartEachRound then { own with currentMutatorIndex := 0 } else own
      | _ => own
    .node own (List.zipWith (fun child u => child u) children s.children)

/-- `AddHotOffset`. -/
def addHotOffset : Mutator → State → State :=
  Tree.fold fun kind children s =>
    let own :=
      match kind with
      | .mutatorSequence _ restartOnHotOffset =>
          if restartOnHotOffset then { s.label with currentMutatorIndex := 0 } else s.label
      | _ => s.label
    .node own (List.zipWith (fun child u => child u) children s.children)

/-- No child has run yet for the next sample. -/
def nextSample : State → State := Tree.fold fun own children => .node { own with ran := none } children

/-! ### `Mutate` -/

/-- What a call of `Mutate` returns, and whether an answer that matters was dropped. -/
structure Outcome where
  ret : Bool
  dropped : Bool

/-- The answer of a child that its parent does not look at matters if the child has to
know which of its own children made the sample. -/
def Outcome.drop (child : Mutator) (o : Outcome) : Bool :=
  child.any Kind.selects && (!o.ret || o.dropped)

/-- `Mutate`, for every draw and every answer of the leaf mutators. -/
inductive Mutates : Mutator → State → Outcome → State → Prop
  | leaf {kind ts own us} (ret : Bool) : kind.isLeaf = true →
      Mutates (.node kind ts) (.node own us) ⟨ret, false⟩ (.node own us)
  | nRoundDone {n c own u} : own.currentRound = n →
      Mutates (.node (.nRoundMutator n) [c]) (.node own [u]) ⟨false, false⟩ (.node own [u])
  | nRound {n c own u o u'} : own.currentRound ≠ n → Mutates c u o u' →
      Mutates (.node (.nRoundMutator n) [c]) (.node own [u]) ⟨true, o.drop c⟩
        (.node { own with currentRound := own.currentRound + 1 } [u'])
  | sequenceEnd {r h ts own us} : ts.length ≤ own.currentMutatorIndex →
      Mutates (.node (.mutatorSequence r h) ts) (.node own us) ⟨false, false⟩
        (.node { own with ran := none } us)
  | sequence {r h ts own us c u d u'} : ts[own.currentMutatorIndex]? = some c →
      us[own.currentMutatorIndex]? = some u → Mutates c u ⟨true, d⟩ u' →
      Mutates (.node (.mutatorSequence r h) ts) (.node own us) ⟨true, d⟩
        (.node { own with ran := some own.currentMutatorIndex }
          (us.set own.currentMutatorIndex u'))
  | sequenceNext {r h ts own us c u d u' o s'} : ts[own.currentMutatorIndex]? = some c →
      us[own.currentMutatorIndex]? = some u → Mutates c u ⟨false, d⟩ u' →
      Mutates (.node (.mutatorSequence r h) ts)
        (.node { own with currentMutatorIndex := own.currentMutatorIndex + 1 }
          (us.set own.currentMutatorIndex u')) o s' →
      Mutates (.node (.mutatorSequence r h) ts) (.node own us) o s'
  | select {kind ts own us i c u o u'} : kind = .selectMutator ∨ kind = .pSelectMutator →
      ts[i]? = some c → us[i]? = some u → Mutates c u o u' →
      Mutates (.node kind ts) (.node own us) o
        (.node { own with last := some i, ran := if o.ret then some i else none } (us.set i u'))
  | repeatFalse {c own u d u'} : Mutates c u ⟨false, d⟩ u' →
      Mutates (.node .repeatMutator [c]) (.node own [u]) ⟨false, false⟩ (.node own [u'])
  | repeatOnce {c own u d u'} : Mutates c u ⟨true, d⟩ u' →
      Mutates (.node .repeatMutator [c]) (.node own [u]) ⟨true, d⟩ (.node own [u'])
  | repeatAgain {c s d own u o u'} : Mutates (.node .repeatMutator [c]) s ⟨true, d⟩ (.node own [u]) →
      Mutates c u o u' →
      Mutates (.node .repeatMutator [c]) s ⟨true, o.drop c⟩ (.node own [u'])
  | deterministic {m n c c' own u v d u'} : own.currentRound < m → Mutates c u ⟨true, d⟩ u' →
      Mutates (.node (.dtermininsticNondeterministicMutator m n) [c, c']) (.node own [u, v])
        ⟨true, d⟩ (.node { own with
          currentRound := own.currentRound + 1, last := some 0, ran := some 0 } [u', v])
  | nondeterministic {m n c c' own u v o v'} : m ≤ own.currentRound → own.currentRound < m + n →
      Mutates c' v o v' →
      Mutates (.node (.dtermininsticNondeterministicMutator m n) [c, c']) (.node own [u, v])
        ⟨true, !o.ret || o.dropped⟩ (.node { own with
          currentRound := own.currentRound + 1, last := some 1,
          ran := if o.ret then some 1 else none } [u, v'])
  | nondeterministicInstead {m n c c' own u v d u' o v'} : own.currentRound < m →
      Mutates c u ⟨false, d⟩ u' → Mutates c' v o v' →
      Mutates (.node (.dtermininsticNondeterministicMutator m n) [c, c']) (.node own [u, v])
        ⟨true, !o.ret || o.dropped⟩ (.node { own with
          currentRound := own.currentRound + 1, last := some 1,
          ran := if o.ret then some 1 else none } [u', v'])
  | roundsDone {m n c c' own u v} : m + n ≤ own.currentRound →
      Mutates (.node (.dtermininsticNondeterministicMutator m n) [c, c']) (.node own [u, v])
        ⟨false, false⟩ (.node { own with ran := none } [u, v])
  /-- No ranges, or the sample is empty. -/
  | range {c own u o u'} : Mutates c u o u' →
      Mutates (.node .rangeMutator [c]) (.node own [u]) o (.node own [u'])
  | rangeCropped {c own u o u'} : Mutates c u o u' →
      Mutates (.node .rangeMutator [c]) (.node own [u]) ⟨true, o.drop c⟩ (.node own [u'])

/-! ### `NotifyResult` -/

/-- A result that is passed on to a remembered child: how many children there are, which
one is notified, and which one ran. -/
structure Notification where
  size : ℕ
  index : Option ℕ
  ran : Option ℕ
  deriving DecidableEq

/-- There is such a child, and it made the sample. -/
def Notification.Reaches (n : Notification) : Prop :=
  ∃ i, n.index = some i ∧ i < n.size ∧ n.ran = some i

/-- Pass a result on to the child at a position, if there is one. -/
def notifyChild (children : List (State → List Notification)) (s : State) (index : Option ℕ) :
    List Notification :=
  ⟨children.length, index, s.label.ran⟩ ::
    match index.bind (children[·]?), index.bind (s.children[·]?) with
    | some child, some u => child u
    | _, _ => []

/-- `NotifyResult`: what is passed on to remembered children on the way. -/
def notifyResult : Mutator → State → List Notification :=
  Tree.fold fun kind children s =>
    match kind with
    | .leaf | .baseDeterministicMutator | .grammarMutator => []
    | .nRoundMutator _ | .repeatMutator | .rangeMutator =>
        (List.zipWith (fun child u => child u) children s.children).flatten
    | .mutatorSequence _ _ => notifyChild children s (some s.label.currentMutatorIndex)
    | .selectMutator | .pSelectMutator | .dtermininsticNondeterministicMutator _ _ =>
        notifyChild children s s.label.last

/-- Every result reaches the child that made the sample. -/
def Fine (mutator : Mutator) (s : State) : Prop := ∀ n ∈ notifyResult mutator s, n.Reaches

/-- A leaf has nobody to pass a result on to.  -/
theorem fine_leaf {kind : Kind} {ts : List Mutator} {s : State} (h : kind.isLeaf = true) :
    Fine (.node kind ts) s := by
  intro n hn
  rw [notifyResult, Tree.fold_node] at hn
  cases kind <;> simp_all [Kind.isLeaf]

/-- A mutator that passes results on to its only child: what arrives there is right if it is
right for the child.  -/
theorem fine_only {kind : Kind} {c : Mutator} {own : MutatorState} {u : State}
    (hkind : (∃ n, kind = .nRoundMutator n) ∨ kind = .repeatMutator ∨ kind = .rangeMutator)
    (h : Fine c u) : Fine (.node kind [c]) (.node own [u]) := by
  intro n hn
  have hchild : notifyResult (.node kind [c]) (.node own [u]) = notifyResult c u := by
    rw [notifyResult, Tree.fold_node]
    rcases hkind with ⟨m, rfl⟩ | rfl | rfl <;> simp
  rw [hchild] at hn
  exact h n hn

/-- A mutator that remembers its child `i` passes the result on to it alone, and this is the
child that it has called.  -/
theorem fine_notifyChild {ts : List Mutator} {own : MutatorState} {us : List State} {i : ℕ}
    {c : Mutator} {u : State} (hc : ts[i]? = some c) (hu : us[i]? = some u) (hran : own.ran = some i)
    (h : Fine c u) :
    ∀ n ∈ notifyChild (ts.map notifyResult) (.node own us) (some i), n.Reaches := by
  intro n hn
  rcases List.mem_cons.1 hn with rfl | hn
  · refine ⟨i, rfl, ?_, hran⟩
    rw [List.length_map]
    exact (List.getElem?_eq_some_iff.1 hc).1
  · simp only [Option.bind_some, List.getElem?_map, hc, Option.map_some, Tree.children_node,
      hu] at hn
    exact h n hn

/-- A sequence passes a result on to the child that its index stands at, and this is the one
that ran last.  -/
theorem fine_sequence {r h : Bool} {ts : List Mutator} {own : MutatorState} {us : List State}
    {c : Mutator} {u : State} (hc : ts[own.currentMutatorIndex]? = some c)
    (hu : us[own.currentMutatorIndex]? = some u) (hran : own.ran = some own.currentMutatorIndex)
    (hfine : Fine c u) : Fine (.node (.mutatorSequence r h) ts) (.node own us) := by
  intro n hn
  rw [notifyResult, Tree.fold_node] at hn
  exact fine_notifyChild hc hu hran hfine n hn

/-- The mutators that note which child they called pass a result on to that one.  -/
theorem fine_last {kind : Kind} {ts : List Mutator} {own : MutatorState} {us : List State} {i : ℕ}
    {c : Mutator} {u : State} (hkind : kind = .selectMutator ∨ kind = .pSelectMutator ∨
      ∃ m n, kind = .dtermininsticNondeterministicMutator m n) (hlast : own.last = some i)
    (hc : ts[i]? = some c) (hu : us[i]? = some u) (hran : own.ran = some i) (hfine : Fine c u) :
    Fine (.node kind ts) (.node own us) := by
  intro n hn
  rw [notifyResult, Tree.fold_node] at hn
  have := fine_notifyChild hc hu hran hfine n
  rcases hkind with rfl | rfl | ⟨m, k, rfl⟩ <;> exact this (by rw [← hlast]; exact hn)

/-- What is passed on to all children is passed on to each with its own state.  -/
theorem mem_forward {ts : List Mutator} {us : List State} {n : Notification}
    (h : n ∈ (List.zipWith (fun child u => child u) (ts.map notifyResult) us).flatten) :
    ∃ t ∈ ts, ∃ u, n ∈ notifyResult t u := by
  obtain ⟨l, hl, hn⟩ := List.mem_flatten.1 h
  obtain ⟨i, hi⟩ := List.mem_iff_getElem?.1 hl
  rw [List.getElem?_zipWith, List.getElem?_map] at hi
  rcases ht : ts[i]? with _ | t
  · simp [ht] at hi
  · rcases hu : us[i]? with _ | u
    · simp [ht, hu] at hi
    · obtain rfl : notifyResult t u = l := by simpa [ht, hu] using hi
      exact ⟨t, List.mem_of_getElem? ht, u, hn⟩

/-- Where no child is remembered, nothing can be passed on wrongly: the mutator tells all of
its children or none, whatever its state is.  -/
theorem fine_of_not_selecting {mutator : Mutator} (h : mutator.any Kind.selects = false)
    (s : State) : Fine mutator s := by
  induction mutator using Tree.induction generalizing s with
  | h kind ts ih =>
      rw [Tree.any_node, Bool.or_eq_false_iff, List.any_eq_false] at h
      obtain ⟨hkind, hchildren⟩ := h
      intro n hn
      rw [notifyResult, Tree.fold_node] at hn
      cases kind with
      | leaf | baseDeterministicMutator | grammarMutator => exact absurd hn List.not_mem_nil
      | nRoundMutator | repeatMutator | rangeMutator =>
          obtain ⟨t, ht, u, hnu⟩ := mem_forward hn
          exact ih t ht (by simpa using hchildren t ht) u n hnu
      | _ => cases hkind

/-- A child whose answer was not looked at, if that does not matter: it remembers no child
of its own, so the result cannot go wrong in it.  -/
theorem Outcome.fine_of_drop {child : Mutator} {o : Outcome} {u : State}
    (h : o.ret = true → o.dropped = false → Fine child u) (hdrop : o.drop child = false) :
    Fine child u := by
  unfold Outcome.drop at hdrop
  rcases Bool.and_eq_false_iff.1 hdrop with hselects | hret
  · exact fine_of_not_selecting hselects u
  · rw [Bool.or_eq_false_iff, Bool.not_eq_false'] at hret
    exact h hret.1 hret.2

/-- **A call that succeeds and drops no answer** leaves the mutator such that the result
reaches who made the sample. -/
theorem Mutates.fine {mutator : Mutator} {s s' : State} {o : Outcome} (h : Mutates mutator s o s')
    (hret : o.ret = true) (hdrop : o.dropped = false) : Fine mutator s' := by
  have hset : ∀ {us : List State} {i : ℕ} {u u' : State}, us[i]? = some u →
      (us.set i u')[i]? = some u' := fun hu => by
    rw [List.getElem?_set_self (List.getElem?_eq_some_iff.1 hu).1]
  induction h with
  | leaf ret hleaf => exact fine_leaf hleaf
  | nRoundDone | sequenceEnd | repeatFalse | roundsDone => cases hret
  | nRound _ _ ih => exact fine_only (Or.inl ⟨_, rfl⟩) (Outcome.fine_of_drop ih hdrop)
  | sequence hc hu _ ih => exact fine_sequence hc (hset hu) rfl (ih rfl hdrop)
  | sequenceNext _ _ _ _ _ ih => exact ih hret hdrop
  | select hkind hc hu _ ih =>
      refine fine_last (hkind.imp_right Or.inl) rfl hc (hset hu) (if_pos hret) (ih hret hdrop)
  | repeatOnce _ ih => exact fine_only (Or.inr (Or.inl rfl)) (ih rfl hdrop)
  | repeatAgain _ _ _ ih =>
      exact fine_only (Or.inr (Or.inl rfl)) (Outcome.fine_of_drop ih hdrop)
  | deterministic _ _ ih =>
      exact fine_last (Or.inr (Or.inr ⟨_, _, rfl⟩)) rfl rfl rfl rfl (ih rfl hdrop)
  | nondeterministic _ _ _ ih =>
      rw [Bool.or_eq_false_iff, Bool.not_eq_false'] at hdrop
      exact fine_last (Or.inr (Or.inr ⟨_, _, rfl⟩)) rfl rfl rfl (if_pos hdrop.1)
        (ih hdrop.1 hdrop.2)
  | nondeterministicInstead _ _ _ _ ih =>
      rw [Bool.or_eq_false_iff, Bool.not_eq_false'] at hdrop
      exact fine_last (Or.inr (Or.inr ⟨_, _, rfl⟩)) rfl rfl rfl (if_pos hdrop.1)
        (ih hdrop.1 hdrop.2)
  | range _ ih => exact fine_only (Or.inr (Or.inr rfl)) (ih hret hdrop)
  | rangeCropped _ ih =>
      exact fine_only (Or.inr (Or.inr rfl)) (Outcome.fine_of_drop ih hdrop)

/-! ### A job -/

/-- What happens to the mutator in a job. -/
inductive JobEvent
  /-- A sample is made and run, and these notifications are passed on. -/
  | sample (dropped : Bool) (notifications : List Notification)
  /-- A sample that is too large is not run. -/
  | tooLarge
  | addHotOffset

/-- The loop of `FuzzJob`, which ends when `Mutate` returns `false`. -/
inductive JobStep (mutator : Mutator) : State → JobEvent → State → Prop
  | sample {s d s'} : Mutates mutator (nextSample s) ⟨true, d⟩ s' →
      JobStep mutator s (.sample d (notifyResult mutator s')) s'
  | tooLarge {s d s'} : Mutates mutator (nextSample s) ⟨true, d⟩ s' →
      JobStep mutator s .tooLarge s'
  | addHotOffset {s} : JobStep mutator s .addHotOffset (addHotOffset mutator s)

/-- **Results reach the child that made the sample**, in every job in which no answer is
dropped.  `NotifyResult` goes down the tree of mutators by what each of them has remembered
of its last call, and arrives at mutators that took part in making the sample; where a child
has answered `false` and its parent made a sample of it nevertheless, this fails.  -/
theorem notified_child_ran {mutator : Mutator} {s s' : State} {tr : List JobEvent}
    (hrun : Run (JobStep mutator) (initRound mutator s) tr s')
    (hdrop : ∀ d ns, JobEvent.sample d ns ∈ tr → d = false) :
    ∀ d ns, JobEvent.sample d ns ∈ tr → ∀ n ∈ ns, n.Reaches := by
  intro d ns hmem
  obtain ⟨tr₁, tr₂, rfl⟩ := List.append_of_mem hmem
  obtain ⟨t, t', -, hstep, -⟩ := hrun.split_cons
  cases hstep with
  | sample hmutates => exact hmutates.fine rfl (hdrop d _ hmem)

/-- One round of a sequence with one child. -/
def oneRound : Mutator := .node (.nRoundMutator 1) [.node (.mutatorSequence true false) [.node .leaf []]]

def oneRoundState : State := .node ⟨0, 0, none, none⟩ [.node ⟨0, 0, none, none⟩ [.node ⟨0, 0, none, none⟩ []]]

/-- A leaf may answer anything.  -/
theorem mutates_leaf (ret : Bool) (own : MutatorState) :
    Mutates (.node .leaf []) (.node own []) ⟨ret, false⟩ (.node own []) :=
  .leaf ret rfl

/-- The child makes a sample, and is told the result.  It is the one mutator of a tree whose
root counts one round, and the job has no other sample.  -/
theorem notified_child_ran_oneRound : ∃ (s : State) (ns : List Notification),
    JobStep oneRound (initRound oneRound oneRoundState) (.sample false ns) s ∧
      ns = [⟨1, some 0, some 0⟩] ∧ ∀ n ∈ ns, n.Reaches := by
  have hsequence : Mutates (.node (.mutatorSequence true false) [.node .leaf []])
      (.node ⟨0, 0, none, none⟩ [.node ⟨0, 0, none, none⟩ []]) ⟨true, false⟩ _ :=
    .sequence rfl rfl (mutates_leaf true _)
  have hround : Mutates oneRound (nextSample (initRound oneRound oneRoundState)) ⟨true, false⟩ _ :=
    .nRound (by decide) hsequence
  have hstep := JobStep.sample hround
  refine ⟨_, _, hstep, rfl, notified_child_ran (Run.single hstep) ?_ _ _ List.mem_cons_self⟩
  intro d ns hmem
  cases List.mem_singleton.1 hmem
  rfl

/-- **A result for no child.** The child makes no sample, so the sequence comes to its end
without one; the sample is run all the same, and its result is passed on to the child behind
the last, which there is not.  -/
theorem notified_child_behind_last : ∃ (s : State) (tr : List JobEvent) (d : Bool)
    (n : Notification) (ns : List Notification),
    Run (JobStep oneRound) (initRound oneRound oneRoundState) tr s ∧ JobEvent.sample d ns ∈ tr ∧
      n ∈ ns ∧ n.index = some n.size ∧ ¬ n.Reaches := by
  have hsequence : Mutates (.node (.mutatorSequence true false) [.node .leaf []])
      (.node ⟨0, 0, none, none⟩ [.node ⟨0, 0, none, none⟩ []]) ⟨false, false⟩ _ :=
    .sequenceNext rfl rfl (mutates_leaf false _) (.sequenceEnd (by decide))
  have hround : Mutates oneRound (nextSample (initRound oneRound oneRoundState)) ⟨true, true⟩ _ :=
    .nRound (by decide) hsequence
  refine ⟨_, _, true, ⟨1, some 1, none⟩, _, Run.single (JobStep.sample hround),
    List.mem_singleton_self _, List.mem_singleton_self _, rfl, ?_⟩
  rintro ⟨i, -, -, hran⟩
  cases hran

end Mutators
end Jackalope
