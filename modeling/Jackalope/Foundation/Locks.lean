/-
# Threads that lock and unlock

What is left of a program when everything but its locks is forgotten (`Prog`): it
locks, unlocks, calls, returns early, and where it branches or loops it may do
either.  Any number of threads run such programs over the same locks, which are not
recursive: a thread that asks for a lock waits until nobody holds it, itself included.

The discipline is an order.  `wp` computes from a program what has to hold for every
lock that it asks for to be above (in `rank`) all that it holds, and for every call
to give back what was locked in it.  `Disciplined` states are kept by every step, and
in them no thread waits for itself and no threads wait for each other in a cycle.

`Keeps n p` and `Straight n p` are the discipline of a piece of a program that may be
used wherever only locks below `n` are held; the rules for them follow the program.
-/

import Jackalope.Foundation.Run
import Mathlib.Logic.Function.Basic
import Mathlib.Logic.Relation

namespace Jackalope
namespace Foundation
namespace Locks

/-- A program over the locks `M`. -/
inductive Prog (M : Type)
  | skip
  | lock (m : M)
  | unlock (m : M)
  | seq (p q : Prog M)
  /-- Whatever decides, any of these may come. -/
  | choose (p : ℕ → Prog M)
  /-- Any number of rounds. -/
  | loop (p : Prog M)
  /-- A call; it ends at its end or at a `ret`. -/
  | call (p : Prog M)
  /-- `return`. -/
  | ret

namespace Prog

variable {M : Type}

/-- One after the other. -/
def block : List (Prog M) → Prog M
  | [] => skip
  | p :: ps => seq p (block ps)

/-- `if (...) p else q`. -/
def cond (p q : Prog M) : Prog M := choose fun i => if i = 0 then p else q

/-- `if (...) p`. -/
def when (p : Prog M) : Prog M := cond p skip

/-- One of these, if there are any. -/
def oneOf (ps : List (Prog M)) : Prog M := choose fun i => ps.getD i skip

/-- `m.Lock(); p; m.Unlock()`. -/
def locked (m : M) (p : Prog M) : Prog M := seq (lock m) (seq p (unlock m))

end Prog

open Prog

/-! ### Threads -/

/-- What a thread still has to do: a piece of a program, or the end of a call that was
made while it held these locks. -/
inductive Item (M : Type)
  | stmt (p : Prog M)
  | frame (held : List M)

/-- A thread: the locks that it holds, last locked first, and what it still has to do. -/
structure Thread (M : Type) where
  held : List M
  stack : List (Item M)

/-- What can be seen of a step. -/
inductive Label (M : Type)
  | lock (m : M)
  | unlock (m : M)
  /-- A call that was made while these locks were held returns. -/
  | returned (held : List M)
  /-- Anything else. -/
  | silent

variable {M τ : Type}

/-- `return` from the innermost call. -/
def unwind : List (Item M) → List (Item M)
  | [] => []
  | .stmt _ :: stack => unwind stack
  | .frame held :: stack => .frame held :: stack

section

variable [DecidableEq M]

/-- A step of a thread on its own. -/
inductive ThreadStep : Thread M → Label M → Thread M → Prop
  | skip {held stack} : ThreadStep ⟨held, .stmt .skip :: stack⟩ .silent ⟨held, stack⟩
  | lock {held m stack} :
      ThreadStep ⟨held, .stmt (.lock m) :: stack⟩ (.lock m) ⟨m :: held, stack⟩
  | unlock {held m stack} :
      ThreadStep ⟨held, .stmt (.unlock m) :: stack⟩ (.unlock m) ⟨held.erase m, stack⟩
  | seq {held p q stack} : ThreadStep ⟨held, .stmt (.seq p q) :: stack⟩ .silent
      ⟨held, .stmt p :: .stmt q :: stack⟩
  | choose {held p stack} (i : ℕ) :
      ThreadStep ⟨held, .stmt (.choose p) :: stack⟩ .silent ⟨held, .stmt (p i) :: stack⟩
  | loopDone {held p stack} :
      ThreadStep ⟨held, .stmt (.loop p) :: stack⟩ .silent ⟨held, stack⟩
  | loop {held p stack} : ThreadStep ⟨held, .stmt (.loop p) :: stack⟩ .silent
      ⟨held, .stmt p :: .stmt (.loop p) :: stack⟩
  | call {held p stack} : ThreadStep ⟨held, .stmt (.call p) :: stack⟩ .silent
      ⟨held, .stmt p :: .frame held :: stack⟩
  | ret {held stack} : ThreadStep ⟨held, .stmt .ret :: stack⟩ .silent ⟨held, unwind stack⟩
  | returned {held before stack} :
      ThreadStep ⟨held, .frame before :: stack⟩ (.returned before) ⟨held, stack⟩

variable [DecidableEq τ]

/-- A step of one of the threads.  A lock is taken when nobody holds it. -/
inductive Step : (τ → Thread M) → τ × Label M → (τ → Thread M) → Prop
  | mk {s : τ → Thread M} {t label th} : ThreadStep (s t) label th →
      (∀ m, label = .lock m → ∀ u, m ∉ (s u).held) →
      Step s (t, label) (Function.update s t th)

end

/-- Thread `t` asks for `m` next. -/
def Requests (s : τ → Thread M) (t : τ) (m : M) : Prop :=
  ∃ stack, (s t).stack = .stmt (.lock m) :: stack

/-- Thread `t` asks for a lock that `u` holds. -/
def WaitsFor (s : τ → Thread M) (t u : τ) : Prop := ∃ m, Requests s t m ∧ m ∈ (s u).held

/-! ### The discipline -/

section

variable (rank : M → ℕ) [DecidableEq M]

/-- What has to be held for `p` to keep the discipline and to end with locks in `Q`,
or to return with locks in `R`. -/
def wp : Prog M → (List M → Prop) → (List M → Prop) → List M → Prop
  | .skip, Q, _, held => Q held
  | .lock m, Q, _, held => (∀ k ∈ held, rank k < rank m) ∧ Q (m :: held)
  | .unlock m, Q, _, held => m ∈ held ∧ Q (held.erase m)
  | .seq p q, Q, R, held => wp p (wp q Q R) R held
  | .choose p, Q, R, held => ∀ i, wp (p i) Q R held
  | .loop p, Q, R, held => ∃ I : List M → Prop, I held ∧ (∀ h, I h → Q h) ∧ ∀ h, I h → wp p I R h
  | .call p, Q, _, held =>
      wp p (fun h => h = held ∧ Q h) (fun h => h = held ∧ Q h) held
  | .ret, _, R, held => R held

/-- What has to be held for the stack to keep the discipline, and for a `return` from it. -/
def stackOk : List (Item M) → (List M → Prop) × (List M → Prop)
  | [] => (fun _ => True, fun _ => True)
  | .stmt p :: stack => (wp rank p (stackOk stack).1 (stackOk stack).2, (stackOk stack).2)
  | .frame before :: stack =>
      (fun held => held = before ∧ (stackOk stack).1 held,
        fun held => held = before ∧ (stackOk stack).1 held)

/-- Every thread keeps the discipline, whatever it does next. -/
def Disciplined (s : τ → Thread M) : Prop := ∀ t, (stackOk rank (s t).stack).1 (s t).held

variable {rank}

/-- The rule of consequence, for the end of a program and for its returns at once: a weaker
condition at the end, and a weaker one at each return, may be asked of the same program.  -/
theorem wp_mono {p : Prog M} {Q Q' R R' : List M → Prop} {held : List M}
    (h : wp rank p Q R held) (hQ : ∀ k, Q k → Q' k) (hR : ∀ k, R k → R' k) :
    wp rank p Q' R' held := by
  induction p generalizing Q Q' R R' held with
  | skip => exact hQ _ h
  | lock m => exact ⟨h.1, hQ _ h.2⟩
  | unlock m => exact ⟨h.1, hQ _ h.2⟩
  | seq p q ihp ihq => exact ihp h (fun k hk => ihq hk hQ hR) hR
  | choose p ih => exact fun i => ih i (h i) hQ hR
  | loop p ih =>
      obtain ⟨I, hI, hend, hround⟩ := h
      exact ⟨I, hI, fun k hk => hQ k (hend k hk), fun k hk => ih (hround k hk) (fun _ h => h) hR⟩
  | call p ih => exact ih h (fun k hk => ⟨hk.1, hQ k hk.2⟩) fun k hk => ⟨hk.1, hQ k hk.2⟩
  | ret => exact hR _ h

/-- A `return` leads to the end of the call: what the stack asks for at a return is what it
asks for where the frame of the call is left.  -/
theorem stackOk_unwind (stack : List (Item M)) {held : List M} (h : (stackOk rank stack).2 held) :
    (stackOk rank (unwind stack)).1 held := by
  induction stack with
  | nil => trivial
  | cons item stack ih =>
      cases item with
      | stmt p => exact ih h
      | frame before => exact h

/-- **A step keeps the discipline**, and a call that returns gives back what was locked in
it.  The condition is on the whole stack of a thread: each frame that waits for a call goes
on with the mutexes that were held when it was made.  -/
theorem ThreadStep.disciplined {th th' : Thread M} {label : Label M} (h : ThreadStep th label th')
    (hok : (stackOk rank th.stack).1 th.held) :
    (stackOk rank th'.stack).1 th'.held ∧
      ∀ before, label = .returned before → th.held = before := by
  cases h with
  | skip | seq => exact ⟨hok, nofun⟩
  | lock | unlock => exact ⟨hok.2, nofun⟩
  | choose i => exact ⟨hok i, nofun⟩
  | loopDone =>
      obtain ⟨I, hI, hend, -⟩ := hok
      exact ⟨hend _ hI, nofun⟩
  | loop =>
      obtain ⟨I, hI, hend, hround⟩ := hok
      exact ⟨wp_mono (hround _ hI) (fun k hk => ⟨I, hk, hend, hround⟩) fun _ h => h, nofun⟩
  | call => exact ⟨hok, nofun⟩
  | ret => exact ⟨stackOk_unwind _ hok, nofun⟩
  | returned =>
      refine ⟨hok.2, ?_⟩
      rintro before ⟨⟩
      exact hok.1

/-- A lock that is asked for is above all that the thread holds. -/
theorem Disciplined.rank_lt {s : τ → Thread M} (h : Disciplined rank s) {t : τ} {m k : M}
    (hm : Requests s t m) (hk : k ∈ (s t).held) : rank k < rank m := by
  obtain ⟨stack, hstack⟩ := hm
  have := h t
  rw [hstack] at this
  exact this.1 k hk

omit [DecidableEq M] in
/-- A thread asks for one lock at a time. -/
theorem Requests.unique {s : τ → Thread M} {t : τ} {m m' : M} (h : Requests s t m)
    (h' : Requests s t m') : m = m' := by
  obtain ⟨stack, hstack⟩ := h
  obtain ⟨stack', hstack'⟩ := h'
  rw [hstack] at hstack'
  cases hstack'
  rfl

/-- **Along a chain of waiting threads the locks that they ask for rise**: each holds a lock
that the one before it asks for, and asks for one above all that it holds.  -/
theorem Disciplined.rank_lt_of_waits {s : τ → Thread M} (h : Disciplined rank s) {t u : τ} {m m' : M}
    (hwait : Relation.TransGen (WaitsFor s) t u) (hm : Requests s t m) (hm' : Requests s u m') :
    rank m < rank m' := by
  induction hwait generalizing m' with
  | single hwait =>
      obtain ⟨k, hk, hheld⟩ := hwait
      rw [hm.unique hk]
      exact h.rank_lt hm' hheld
  | tail _ hwait ih =>
      obtain ⟨k, hk, hheld⟩ := hwait
      exact Nat.lt_trans (ih hk) (h.rank_lt hm' hheld)

/-- **No threads wait for each other in a cycle.** -/
theorem Disciplined.no_cycle {s : τ → Thread M} (h : Disciplined rank s) (t : τ) :
    ¬ Relation.TransGen (WaitsFor s) t t := by
  intro hcycle
  obtain ⟨u, ⟨m, hm, -⟩, -⟩ := Relation.TransGen.head'_iff.1 hcycle
  exact Nat.lt_irrefl _ (h.rank_lt_of_waits hcycle hm hm)

variable [DecidableEq τ]

/-- Every run keeps the discipline, since each of its steps does.  -/
theorem Disciplined.run {s s' : τ → Thread M} {tr : List (τ × Label M)} (h : Disciplined rank s)
    (hrun : Run Step s tr s') : Disciplined rank s' := by
  refine hrun.invariant (fun _ s => Disciplined rank s) h ?_
  rintro tr s label s' ih ⟨hstep, -⟩ u
  rename_i t _ th
  by_cases hu : u = t
  · subst hu
    rw [Function.update_self]
    exact (hstep.disciplined (ih u)).1
  · rw [Function.update_of_ne hu]
    exact ih u

/-- What a disciplined thread gives back. -/
theorem Disciplined.returned {s s' : τ → Thread M} (h : Disciplined rank s) {t : τ}
    {before : List M} (hstep : Step s (t, .returned before) s') : (s t).held = before := by
  cases hstep with
  | mk hstep => exact (hstep.disciplined (h t)).2 before rfl

/-- **A disciplined thread goes on** as long as nobody else holds what it locks: its own
steps are steps of the system, in which the other threads stay where they are.  It does not
have to wait for itself, since what it asks for is above all that it holds. -/
theorem Disciplined.run_thread {s : τ → Thread M} (h : Disciplined rank s) {t : τ}
    {labels : List (Label M)} {th : Thread M} (hrun : Run ThreadStep (s t) labels th)
    (hfree : ∀ m, .lock m ∈ labels → ∀ u, u ≠ t → m ∉ (s u).held) :
    ∃ tr, Run Step s tr (Function.update s t th) := by
  induction hrun with
  | refl => exact ⟨[], by rw [Function.update_eq_self]; exact Run.refl⟩
  | @snoc labels th label th' _ hstep ih =>
      obtain ⟨tr, hrun⟩ := ih fun m hm => hfree m (List.mem_append_left _ hm)
      have hself : Function.update s t th t = th := Function.update_self _ _ _
      have hlast : Step (Function.update s t th) (t, label)
          (Function.update (Function.update s t th) t th') := by
        refine Step.mk (by rwa [hself]) ?_
        rintro m rfl u hheld
        by_cases hu : u = t
        · subst hu
          have hrequests : Requests (Function.update s u th) u m := by
            cases hstep with
            | lock => exact ⟨_, by rw [hself]⟩
          exact Nat.lt_irrefl _ ((h.run hrun).rank_lt hrequests hheld)
        · rw [Function.update_of_ne hu] at hheld
          exact hfree m (List.mem_append_right _ (List.mem_singleton_self _)) u hu hheld
      rw [Function.update_idem] at hlast
      exact ⟨_, hrun.snoc hlast⟩

/-! ### Pieces of programs -/

/-- Only locks below `n` are held. -/
def Below (rank : M → ℕ) (n : ℕ) (held : List M) : Prop := ∀ k ∈ held, rank k < n

omit [DecidableEq M] in
/-- Locks below a bound are below every larger one.  -/
theorem Below.mono {n n' : ℕ} {held : List M} (h : Below rank n held) (hn : n ≤ n') :
    Below rank n' held := fun k hk => Nat.lt_of_lt_of_le (h k hk) hn

/-- Where only locks below `n` are held, `p` ends with what was held, also if it
returns. -/
def Keeps (rank : M → ℕ) (n : ℕ) (p : Prog M) : Prop :=
  ∀ (Q R : List M → Prop) (held : List M), Below rank n held → Q held → R held →
    wp rank p Q R held

/-- The same of a piece that does not return. -/
def Straight (rank : M → ℕ) (n : ℕ) (p : Prog M) : Prop :=
  ∀ (Q R : List M → Prop) (held : List M), Below rank n held → Q held → wp rank p Q R held

variable {n n' : ℕ} {p q : Prog M}

omit [DecidableEq τ]

/-- A piece that does not return may be used where one that does is asked for.  -/
theorem Straight.keeps (h : Straight rank n p) : Keeps rank n p := fun Q R held hb hQ _ =>
  h Q R held hb hQ

/-- A piece that may run under the locks below a bound may run under fewer.  -/
theorem Straight.mono (h : Straight rank n p) (hn : n' ≤ n) : Straight rank n' p :=
  fun Q R held hb => h Q R held (hb.mono hn)

/-- The rule for the empty program.  -/
theorem straight_skip : Straight rank n (.skip : Prog M) := fun _ _ _ _ hQ => hQ

/-- The rule for `ret`: what holds for the return is asked for at once.  -/
theorem keeps_ret : Keeps rank n (.ret : Prog M) := fun _ _ _ _ _ hR => hR

/-- The rule of sequence, for pieces that do not return.  -/
theorem Straight.seq (hp : Straight rank n p) (hq : Straight rank n q) :
    Straight rank n (.seq p q) := fun Q R held hb hQ => hp _ R held hb (hq Q R held hb hQ)

/-- The rule of sequence, for pieces that may return: a `ret` in the first one skips the
second, and has to leave what is held as it was.  -/
theorem Keeps.seq (hp : Keeps rank n p) (hq : Keeps rank n q) : Keeps rank n (.seq p q) :=
  fun Q R held hb hQ hR => hp _ R held hb (hq Q R held hb hQ hR) hR

/-- The rule for one piece after the other, however many.  -/
theorem Straight.block {ps : List (Prog M)} (h : ∀ p ∈ ps, Straight rank n p) :
    Straight rank n (.block ps) := by
  induction ps with
  | nil => exact straight_skip
  | cons p ps ih =>
      exact (h p List.mem_cons_self).seq (ih fun q hq => h q (List.mem_cons_of_mem _ hq))

/-- The rule of choice: each of the pieces has to keep the discipline, as any of them may
run.  -/
theorem Straight.choose {p : ℕ → Prog M} (h : ∀ i, Straight rank n (p i)) :
    Straight rank n (.choose p) := fun Q R held hb hQ i => h i Q R held hb hQ

/-- The rule of choice, for pieces that may return.  -/
theorem Keeps.choose {p : ℕ → Prog M} (h : ∀ i, Keeps rank n (p i)) : Keeps rank n (.choose p) :=
  fun Q R held hb hQ hR i => h i Q R held hb hQ hR

/-- The rule for `if` with two branches.  -/
theorem Straight.cond (hp : Straight rank n p) (hq : Straight rank n q) :
    Straight rank n (.cond p q) := by
  refine Straight.choose fun i => ?_
  split
  · exact hp
  · exact hq

/-- The rule for `if` with two branches that may return.  -/
theorem Keeps.cond (hp : Keeps rank n p) (hq : Keeps rank n q) : Keeps rank n (.cond p q) := by
  refine Keeps.choose fun i => ?_
  split
  · exact hp
  · exact hq

/-- The rule for `if` without `else`. -/
theorem Straight.when (hp : Straight rank n p) : Straight rank n (.when p) := hp.cond straight_skip

/-- The rule for `if` without `else` around a piece that may return.  -/
theorem Keeps.when (hp : Keeps rank n p) : Keeps rank n (.when p) := hp.cond straight_skip.keeps

/-- The rule for a piece out of a list; out of an empty one it is the empty program.  -/
theorem Straight.oneOf {ps : List (Prog M)} (h : ∀ p ∈ ps, Straight rank n p) :
    Straight rank n (.oneOf ps) := by
  refine Straight.choose fun i => ?_
  rw [List.getD_eq_getElem?_getD]
  rcases hi : ps[i]? with _ | p
  · exact straight_skip
  · exact h p (List.mem_of_getElem? hi)

/-- Each round of a loop ends with what was held. -/
theorem Straight.loop (hp : Straight rank n p) : Straight rank n (.loop p) := fun Q R held hb hQ =>
  ⟨fun h => h = held, rfl, fun h hh => hh ▸ hQ, fun h hh => by
    subst hh
    exact hp _ R h hb rfl⟩

/-- Each round of a loop that may return ends with what was held, also the one that returns.
-/
theorem Keeps.loop (hp : Keeps rank n p) : Keeps rank n (.loop p) := fun Q R held hb hQ hR =>
  ⟨fun h => h = held, rfl, fun h hh => hh ▸ hQ, fun h hh => by
    subst hh
    exact hp _ R h hb rfl hR⟩

/-- A call does not return further than to its end. -/
theorem Keeps.call (hp : Keeps rank n p) : Straight rank n (.call p) := fun _ _ held hb hQ =>
  hp _ _ held hb ⟨rfl, hQ⟩ ⟨rfl, hQ⟩

/-- **A section** whose lock is not below `n`: inside of it only locks above its own are
asked for, and behind it as many are held as before.  -/
theorem Straight.locked {m : M} (hp : Straight rank (rank m + 1) p) (hn : n ≤ rank m) :
    Straight rank n (.locked m p) := by
  intro Q R held hb hQ
  refine ⟨hb.mono hn, hp _ R (m :: held) ?_ ⟨List.mem_cons_self, ?_⟩⟩
  · intro k hk
    rcases List.mem_cons.1 hk with rfl | hk
    · exact Nat.lt_succ_self _
    · exact Nat.lt_succ_of_lt (Nat.lt_of_lt_of_le (hb k hk) hn)
  · rwa [List.erase_cons_head]

/-! Where the lock is released on more than one way out. -/

/-- While `m` is held, `p` ends with it, or returns without it. -/
def Holding (rank : M → ℕ) (n : ℕ) (m : M) (p : Prog M) : Prop :=
  ∀ (Q R : List M → Prop) (held : List M), Below rank n held → Q (m :: held) → R held →
    wp rank p Q R (m :: held)

/-- While `m` is held, `p` ends without it, also if it returns. -/
def Releases (rank : M → ℕ) (n : ℕ) (m : M) (p : Prog M) : Prop :=
  ∀ (Q R : List M → Prop) (held : List M), Below rank n held → Q held → R held →
    wp rank p Q R (m :: held)

variable {m : M}

/-- A lock that is not below the bound may be taken, if what follows gives it back on every
way out.  -/
theorem Keeps.lock (hn : n ≤ rank m) (hp : Releases rank n m p) :
    Keeps rank n (.seq (.lock m) p) := fun Q R held hb hQ hR =>
  ⟨hb.mono hn, hp Q R held hb hQ hR⟩

/-- Giving the lock back; what follows is run without it.  -/
theorem Releases.unlock (hp : Keeps rank n p) : Releases rank n m (.seq (.unlock m) p) := by
  intro Q R held hb hQ hR
  refine ⟨List.mem_cons_self, ?_⟩
  rw [List.erase_cons_head]
  exact hp Q R held hb hQ hR

/-- What follows gives the lock back, unless the first piece has returned, and then it has
given it back itself.  -/
theorem Holding.releases_seq (hp : Holding rank n m p) (hq : Releases rank n m q) :
    Releases rank n m (.seq p q) := fun Q R held hb hQ hR =>
  hp _ R held hb (hq Q R held hb hQ hR) hR

/-- The empty program goes on holding the lock.  -/
theorem holding_skip : Holding rank n m .skip := fun _ _ _ _ hQ _ => hQ

/-- `m.Unlock(); return`. -/
theorem holding_leave : Holding rank n m (.block [.unlock m, .ret]) := by
  intro Q R held _ _ hR
  refine ⟨List.mem_cons_self, ?_⟩
  rw [List.erase_cons_head]
  exact hR

/-- The rule of sequence while the lock is held.  -/
theorem Holding.seq (hp : Holding rank n m p) (hq : Holding rank n m q) :
    Holding rank n m (.seq p q) := fun Q R held hb hQ hR =>
  hp _ R held hb (hq Q R held hb hQ hR) hR

/-- The rule for `if` with two branches while the lock is held.  -/
theorem Holding.cond (hp : Holding rank n m p) (hq : Holding rank n m q) :
    Holding rank n m (.cond p q) := by
  intro Q R held hb hQ hR i
  dsimp only
  split
  · exact hp Q R held hb hQ hR
  · exact hq Q R held hb hQ hR

/-- The rule for `if` without `else` while the lock is held.  -/
theorem Holding.when (hp : Holding rank n m p) : Holding rank n m (.when p) := hp.cond holding_skip

/-- Each round of a loop ends with the lock still held, or returns without it.  -/
theorem Holding.loop (hp : Holding rank n m p) : Holding rank n m (.loop p) :=
  fun Q R held hb hQ hR => ⟨fun h => h = m :: held, rfl, fun h hh => hh ▸ hQ, fun h hh => by
    subst hh
    exact hp _ R held hb rfl hR⟩

end

end Locks
end Foundation
end Jackalope
