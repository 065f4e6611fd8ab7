/-
# Two parties and a connection

A `Party` is a program over a reliable stream in both directions: it sends words,
reads exactly as many tokens as it asks for, loops, and ends with a result or gives
the connection up.  Between the two parties are the tokens that were sent and not yet
read; a read takes them in pieces of any positive length (`Act.chunk`), and ends the
party when it waits for tokens of a peer that is gone.

`Talks me p tr a` says that the party `p` plays its part of the script `tr`, a list of
tokens each marked with who sends it, and ends with `a`.  Scripts concatenate as
programs do, so they are found one function at a time and without the peer.  What two
parties that play the same script do together is then settled once
(`agrees_of_talks`): however the scheduler and the pieces fall, they end, with their
results and an empty connection.

The invariant is `OnTrack`.  Each party has a rest of the script before it, and what is
in flight is the difference: at most one of the two is ahead.
-/

import Jackalope.Foundation.Consumer
import Jackalope.Foundation.Run
import Mathlib.Algebra.Order.Group.Nat
import Mathlib.Data.List.Basic
import Mathlib.Data.Prod.Basic

namespace Jackalope
namespace Foundation
namespace Dialogue

/-- A program of one party. -/
inductive Party (τ : Type) : Type → Type 1
  /-- It ends with a result. -/
  | ret {α : Type} (a : α) : Party τ α
  /-- It gives the connection up. -/
  | fail {α : Type} : Party τ α
  | send {α : Type} (ts : List τ) (next : Party τ α) : Party τ α
  /-- It reads `n` tokens. -/
  | recv {α : Type} (n : ℕ) (next : List τ → Party τ α) : Party τ α
  /-- `while (1)`: the body runs from `s` until it leaves the loop with a result. -/
  | loop {α β σ : Type} (body : σ → Party τ (σ ⊕ β)) (s : σ) (next : β → Party τ α) : Party τ α

namespace Party

variable {τ α β γ σ : Type}

/-- One program after the other. -/
def bind {α β : Type} : Party τ α → (α → Party τ β) → Party τ β
  | ret a, f => f a
  | fail, _ => fail
  | send ts next, f => send ts (next.bind f)
  | recv n next, f => recv n fun ts => (next ts).bind f
  | loop body s next, f => loop body s fun b => (next b).bind f

instance : Monad (Party τ) where
  pure := ret
  bind := bind

/-- Send a word. -/
def say (ts : List τ) : Party τ Unit := send ts (ret ())

/-- Read `n` tokens. -/
def hear (n : ℕ) : Party τ (List τ) := recv n ret

/-- `while (1)` on its own. -/
def forever (body : σ → Party τ (σ ⊕ β)) (s : σ) : Party τ β := loop body s ret

/-- A loop with its first round written out. -/
def unroll (body : σ → Party τ (σ ⊕ β)) (s : σ) (next : β → Party τ α) : Party τ α :=
  (body s).bind (Sum.elim (fun s' => loop body s' next) next)

/-- How the steps of a party are grouped does not matter to what it does.  -/
theorem bind_assoc {α β γ : Type} (p : Party τ α) (f : α → Party τ β) (g : β → Party τ γ) :
    (p.bind f).bind g = p.bind fun a => (f a).bind g := by
  induction p with
  | ret a => rfl
  | fail => rfl
  | send ts next ih => exact congrArg (send ts) (ih f)
  | recv n next ih => exact congrArg (recv n) (funext fun ts => ih ts f)
  | loop body s next _ ih => exact congrArg (loop body s) (funext fun b => ih b f)

/-- The first round of a loop with something behind it. -/
theorem unroll_bind (body : σ → Party τ (σ ⊕ γ)) (s : σ) (next : γ → Party τ α)
    (f : α → Party τ β) :
    (unroll body s next).bind f = unroll body s fun c => (next c).bind f := by
  rw [unroll, unroll, bind_assoc]
  congr 1
  funext r
  cases r <;> rfl

/-- The party as a reader of what its peer will ever send, its own words left out. -/
def listen {α : Type} : Party τ α → Consumer τ Unit α
  | ret a => pure a
  | fail => Consumer.fail ()
  | send _ next => next.listen
  | recv n next => Consumer.takeN () n >>= fun ts => (next ts).listen
  | loop body s next =>
      Consumer.loop () (fun s => (body s).listen) s >>= fun b => (next b).listen

/-- A party that is done reads nothing.  -/
@[simp] theorem listen_pure (a : α) : (pure a : Party τ α).listen = pure a := rfl

/-- A party that gives up fails as a reader too.  -/
@[simp] theorem listen_fail : (fail : Party τ α).listen = Consumer.fail () := rfl

/-- What a party reads when it listens for so many tokens.  -/
theorem listen_hear (n : ℕ) : (hear n : Party τ (List τ)).listen = Consumer.takeN () n :=
  bind_pure _

/-- The reader of a party that goes on is the reader of the rest behind that of the
beginning; what the party says in between is not seen by it.  -/
theorem listen_bind {α β : Type} (p : Party τ α) (f : α → Party τ β) :
    (p >>= f).listen = p.listen >>= fun a => (f a).listen := by
  change (p.bind f).listen = _
  induction p with
  | ret a => exact (LawfulMonad.pure_bind a fun a => (f a).listen).symm
  | fail => rfl
  | send ts next ih => exact ih f
  | recv n next ih =>
      rw [bind, listen, listen, LawfulMonad.bind_assoc]
      exact congrArg _ (funext fun ts => ih ts f)
  | loop body s next _ ih =>
      rw [bind, listen, listen, LawfulMonad.bind_assoc]
      exact congrArg _ (funext fun b => ih b f)

/-- The reader of a loop is the loop of the readers of its rounds.  -/
theorem listen_forever (body : σ → Party τ (σ ⊕ β)) (s : σ) :
    (forever body s).listen = Consumer.loop () (fun s => (body s).listen) s :=
  bind_pure _

/-- The party is done and its end of the connection closed. -/
def Over : Party τ α → Prop
  | ret _ => True
  | fail => True
  | _ => False

end Party

/-! ### Steps -/

section

variable {τ α β : Type}

/-- One step of a party with these tokens before it: what it is then, what is left of
the tokens, and what it sent.  `limit` bounds the piece that one `recv` returns, and
`closed` says that no more tokens will come. -/
inductive Act (limit : ℕ) (closed : Prop) :
    Party τ α → List τ → Party τ α → List τ → List τ → Prop
  | send {ts next inc} : Act limit closed (.send ts next) inc next inc ts
  /-- Nothing is left to read. -/
  | done {next inc} : Act limit closed (.recv 0 next) inc (next []) inc []
  /-- `ret` tokens of those that are there. -/
  | chunk {n next inc} (ret : ℕ) : 0 < ret → ret ≤ min n limit → ret ≤ inc.length →
      Act limit closed (.recv n next) inc (.recv (n - ret) fun ts => next (inc.take ret ++ ts))
        (inc.drop ret) []
  /-- The peer closed its end. -/
  | broken {n next} : closed → 0 < n → Act limit closed (.recv n next) [] .fail [] []
  | loop {β σ : Type} {body : σ → Party τ (σ ⊕ β)} {s next inc} :
      Act limit closed (.loop body s next) inc (Party.unroll body s next) inc []

/-- The two parties and what is in flight between them. -/
structure Config (τ α β : Type) where
  left : Party τ α
  right : Party τ β
  toLeft : List τ
  toRight : List τ

/-- One step of the left party (`true`) or of the right one. -/
inductive Step (limit : ℕ) : Config τ α β → Bool → Config τ α β → Prop
  | left {c : Config τ α β} {p inc out} : Act limit c.right.Over c.left c.toLeft p inc out →
      Step limit c true ⟨p, c.right, inc, c.toRight ++ out⟩
  | right {c : Config τ α β} {p inc out} : Act limit c.left.Over c.right c.toRight p inc out →
      Step limit c false ⟨c.left, p, c.toLeft ++ out, inc⟩

/-- **The two parties agree.**  Every run, whatever the order of the steps and the
pieces in which the words arrive, has bounded length, and stops only when both parties
have ended with these results and nothing is left in either direction. -/
def Agrees (limit : ℕ) (p : Party τ α) (q : Party τ β) (a : α) (b : β) : Prop :=
  ∃ n, ∀ tr c, Run (Step limit) ⟨p, q, [], []⟩ tr c →
    tr.length ≤ n ∧ (c = ⟨.ret a, .ret b, [], []⟩ ∨ ∃ who c', Step limit c who c')

end

/-! ### Scripts -/

section

variable {τ α β γ σ : Type}

/-- The tokens of a word, each marked with who sends it. -/
def word (who : Bool) (ts : List τ) : List (Bool × τ) := ts.map (Prod.mk who)

/-- Nobody said anything.  -/
@[simp] theorem word_nil (who : Bool) : word who ([] : List τ) = [] := rfl

/-- What was said in two parts is the two parts of what was said.  -/
@[simp] theorem word_append (who : Bool) (ts us : List τ) :
    word who (ts ++ us) = word who ts ++ word who us := List.map_append

/-- What was said in many parts.  -/
theorem word_flatMap (who : Bool) (f : γ → List τ) (xs : List γ) :
    word who (xs.flatMap f) = xs.flatMap fun x => word who (f x) := List.map_flatMap

/-- As many events as tokens.  -/
@[simp] theorem length_word (who : Bool) (ts : List τ) : (word who ts).length = ts.length :=
  List.length_map _

/-- The first events are those of the first tokens.  -/
theorem take_word (who : Bool) (n : ℕ) (ts : List τ) :
    (word who ts).take n = word who (ts.take n) := (List.map_take).symm

/-- The last events are those of the last tokens.  -/
theorem drop_word (who : Bool) (n : ℕ) (ts : List τ) :
    (word who ts).drop n = word who (ts.drop n) := (List.map_drop).symm

/-- From the events of one side its tokens can be read back.  -/
theorem word_injective (who : Bool) : Function.Injective (word who : List τ → _) :=
  List.map_injective_iff.2 (Prod.mk_right_injective who)

/-- Words of different senders do not begin alike, so if a script begins with words of both,
one of the two is empty.  -/
theorem nil_or_nil_of_word_append_eq {who : Bool} {ts us : List τ} {tr tr' : List (Bool × τ)}
    (h : word who ts ++ tr = word (!who) us ++ tr') : ts = [] ∨ us = [] := by
  rcases ts with _ | ⟨t, ts⟩
  · exact Or.inl rfl
  rcases us with _ | ⟨u, us⟩
  · exact Or.inr rfl
  have hhead := (List.cons.inj h).1
  have hwho := congrArg Prod.fst hhead
  cases who <;> cases hwho

/-- In at most `k` steps, not counting how often it waits, the party `p` plays its part
of the script and ends with `a`. -/
inductive TalksIn (me : Bool) {α : Type} : Party τ α → ℕ → List (Bool × τ) → α → Prop
  | ret (a : α) : TalksIn me (.ret a) 0 [] a
  | send {ts next k tr a} : TalksIn me next k tr a →
      TalksIn me (.send ts next) (k + 1) (word me ts ++ tr) a
  | recv {n next ts k tr a} : ts.length = n → TalksIn me (next ts) k tr a →
      TalksIn me (.recv n next) (n + k + 1) (word (!me) ts ++ tr) a
  | loop {β σ : Type} {body : σ → Party τ (σ ⊕ β)} {s next k tr a} :
      TalksIn me (Party.unroll body s next) k tr a → TalksIn me (.loop body s next) (k + 1) tr a

/-- The party `p` plays its part of the script and ends with `a`. -/
def Talks (me : Bool) (p : Party τ α) (tr : List (Bool × τ)) (a : α) : Prop :=
  ∃ k, TalksIn me p k tr a

variable {me : Bool}

/-- **One conversation behind the other**, with the steps of both: the second one begins
where the first one has ended, with its result.  -/
theorem TalksIn.bind {p : Party τ α} {f : α → Party τ β} {k k' : ℕ} {tr tr' : List (Bool × τ)}
    {a : α} {b : β} (h : TalksIn me p k tr a) (h' : TalksIn me (f a) k' tr' b) :
    TalksIn me (p.bind f) (k + k') (tr ++ tr') b := by
  induction h with
  | ret a =>
      rw [Nat.zero_add]
      exact h'
  | @send ts next k tr a _ ih =>
      rw [Nat.add_right_comm, List.append_assoc]
      exact TalksIn.send (ih h')
  | @recv n next ts k tr a hn _ ih =>
      have hk : n + k + 1 + k' = n + (k + k') + 1 := by omega
      rw [hk, List.append_assoc]
      exact TalksIn.recv hn (ih h')
  | @loop β σ body s next k tr a _ ih =>
      rw [Nat.add_right_comm]
      have := ih h'
      rw [Party.unroll_bind] at this
      exact TalksIn.loop this

/-- A party that is done has nothing more to say or hear.  -/
theorem Talks.pure (a : α) : Talks me (pure a : Party τ α) [] a := ⟨0, TalksIn.ret a⟩

/-- **Scripts concatenate.** -/
theorem Talks.bind {p : Party τ α} {f : α → Party τ β} {tr tr' : List (Bool × τ)} {a : α} {b : β}
    (h : Talks me p tr a) (h' : Talks me (f a) tr' b) : Talks me (p >>= f) (tr ++ tr') b := by
  obtain ⟨k, hk⟩ := h
  obtain ⟨k', hk'⟩ := h'
  exact ⟨_, hk.bind hk'⟩

/-- A program followed by one that says nothing. -/
theorem Talks.bind_nil {p : Party τ α} {f : α → Party τ β} {tr : List (Bool × τ)} {a : α} {b : β}
    (h : Talks me p tr a) (h' : Talks me (f a) [] b) : Talks me (p >>= f) tr b := by
  rw [← List.append_nil tr]
  exact h.bind h'

/-- A program followed by a pure function of its result. -/
theorem Talks.bind_pure {p : Party τ α} {tr : List (Bool × τ)} {a : α} (h : Talks me p tr a)
    (f : α → β) : Talks me (p >>= fun x => Pure.pure (f x)) tr (f a) :=
  h.bind_nil (Talks.pure (f a))

/-- A party that says something says it, token by token, and is done.  -/
theorem Talks.say (ts : List τ) : Talks me (Party.say ts) (word me ts) () := by
  rw [← List.append_nil (word me ts)]
  exact ⟨_, TalksIn.send (TalksIn.ret ())⟩

/-- A party that listens for as many tokens as come gets them, and is done.  -/
theorem Talks.hear {n : ℕ} {ts : List τ} (h : ts.length = n) :
    Talks me (Party.hear n) (word (!me) ts) ts := by
  rw [← List.append_nil (word (!me) ts)]
  exact ⟨_, TalksIn.recv h (TalksIn.ret ts)⟩

/-- The last round of a loop. -/
theorem Talks.forever_last {body : σ → Party τ (σ ⊕ β)} {s : σ} {tr : List (Bool × τ)} {b : β}
    (h : Talks me (body s) tr (.inr b)) : Talks me (Party.forever body s) tr b := by
  obtain ⟨k, hk⟩ := h
  have := hk.bind (f := Sum.elim (fun s' => Party.loop body s' Party.ret) Party.ret)
    (TalksIn.ret b)
  rw [List.append_nil] at this
  exact ⟨_, TalksIn.loop this⟩

/-- A round of a loop that goes on. -/
theorem Talks.forever_next {body : σ → Party τ (σ ⊕ β)} {s s' : σ} {tr tr' : List (Bool × τ)}
    {b : β} (h : Talks me (body s) tr (.inl s')) (h' : Talks me (Party.forever body s') tr' b) :
    Talks me (Party.forever body s) (tr ++ tr') b := by
  obtain ⟨k, hk⟩ := h
  obtain ⟨k', hk'⟩ := h'
  exact ⟨_, TalksIn.loop (hk.bind
    (f := Sum.elim (fun s' => Party.loop body s' Party.ret) Party.ret) hk')⟩

/-- The same program for each item of a list. -/
theorem Talks.forM {f : γ → Party τ Unit} {w : γ → List (Bool × τ)} (xs : List γ)
    (h : ∀ x ∈ xs, Talks me (f x) (w x) ()) : Talks me (xs.forM f) (xs.flatMap w) () := by
  induction xs with
  | nil => exact Talks.pure ()
  | cons x xs ih =>
      exact (h x List.mem_cons_self).bind (ih fun y hy => h y (List.mem_cons_of_mem _ hy))

end

/-! ### Parties on track -/

section

variable {τ α β : Type} {me : Bool}

/-- What is in flight is the difference between two rests of one script, that of a
party with the tokens `inc` before it and `out` behind it, and that of its peer. -/
def InFlight (me : Bool) (inc out : List τ) (tr tr' : List (Bool × τ)) : Prop :=
  inc = [] ∧ tr' = word me out ++ tr ∨ out = [] ∧ tr = word (!me) inc ++ tr'

/-- What is on its way, seen from the other side: what one side has still to hear is what
the other one has said.  -/
theorem InFlight.symm {inc out : List τ} {tr tr' : List (Bool × τ)}
    (h : InFlight me inc out tr tr') : InFlight (!me) out inc tr' tr := by
  rcases h with ⟨hinc, htr⟩ | ⟨hout, htr⟩
  · exact Or.inr ⟨hinc, by rwa [Bool.not_not]⟩
  · exact Or.inl ⟨hout, htr⟩

/-- A party that is over has nothing of the script before it. -/
theorem TalksIn.eq_nil_of_over {p : Party τ α} {k : ℕ} {tr : List (Bool × τ)} {a : α}
    (h : TalksIn me p k tr a) (hover : p.Over) : tr = [] := by
  cases h with
  | ret => rfl
  | send | recv | loop => exact hover.elim

/-- **A step keeps a party on track**, and one step less is before it.  Whatever the party
does next, it takes words that are in flight to it or adds words the other one expects, and
what is left of the script is what both have still to do.  -/
theorem TalksIn.act {limit : ℕ} {closed : Prop} {p p' : Party τ α} {k : ℕ}
    {tr tr' : List (Bool × τ)} {a : α} {inc inc' out sent : List τ} (h : TalksIn me p k tr a)
    (hf : InFlight me inc out tr tr') (hclosed : closed → tr' = [])
    (hact : Act limit closed p inc p' inc' sent) :
    ∃ k' tr₁, k' < k ∧ TalksIn me p' k' tr₁ a ∧ InFlight me inc' (out ++ sent) tr₁ tr' := by
  cases hact with
  | send =>
      cases h with
      | @send ts _ k tr _ hnext =>
          refine ⟨k, tr, k.lt_succ_self, hnext, ?_⟩
          rcases hf with ⟨rfl, rfl⟩ | ⟨rfl, htr⟩
          · exact Or.inl ⟨rfl, by rw [word_append, List.append_assoc]⟩
          · -- the peer is ahead, so nothing was sent, or it is ahead by nothing
            rcases nil_or_nil_of_word_append_eq htr with rfl | rfl
            · exact Or.inr ⟨rfl, htr⟩
            · exact Or.inl ⟨rfl, htr.symm⟩
  | done =>
      cases h with
      | @recv _ _ ts k tr _ hlen hnext =>
          obtain rfl := List.length_eq_zero_iff.1 hlen
          exact ⟨k, tr, by omega, hnext, by rwa [List.append_nil]⟩
  | @chunk n next _ ret h0 hle hlen =>
      cases h with
      | @recv _ _ ts k tr _ hn hnext =>
          have hret : ret ≤ n := hle.trans (Nat.min_le_left _ _)
          rcases hf with ⟨rfl, -⟩ | ⟨rfl, htr⟩
          · rw [List.length_nil] at hlen
            omega
          -- the piece begins the word that the party waits for
          have htake : inc.take ret = ts.take ret := by
            have := congrArg (List.take ret) htr
            rw [List.take_append_of_le_length (by rwa [length_word, hn]),
              List.take_append_of_le_length (by rwa [length_word]), take_word, take_word] at this
            exact (word_injective _ this).symm
          have hdrop : word (!me) (ts.drop ret) ++ tr = word (!me) (inc.drop ret) ++ tr' := by
            have := congrArg (List.drop ret) htr
            rwa [List.drop_append_of_le_length (by rwa [length_word, hn]),
              List.drop_append_of_le_length (by rwa [length_word]), drop_word, drop_word] at this
          refine ⟨n - ret + k + 1, word (!me) (ts.drop ret) ++ tr, by omega,
            TalksIn.recv (by rw [List.length_drop, hn]) ?_, Or.inr ⟨rfl, hdrop⟩⟩
          rwa [htake, List.take_append_drop]
  | broken hc h0 =>
      cases h with
      | @recv n _ ts k tr _ hn hnext =>
          -- the peer did not leave while its part of the script was before it
          have htr' := hclosed hc
          have hts : ts = [] := by
            rcases hf with ⟨-, htr⟩ | ⟨-, htr⟩
            · rw [htr'] at htr
              have := (List.append_eq_nil_iff.1 htr.symm).2
              exact List.map_eq_nil_iff.1 (List.append_eq_nil_iff.1 this).1
            · rw [htr'] at htr
              exact List.map_eq_nil_iff.1 (List.append_eq_nil_iff.1 htr).1
          rw [hts, List.length_nil] at hn
          omega
  | loop =>
      cases h with
      | @loop _ _ _ _ _ k tr _ hnext =>
          exact ⟨k, tr, k.lt_succ_self, hnext, by rwa [List.append_nil]⟩

/-- **A party on track** has ended, can move, or waits for a token that the script has
its peer send. -/
theorem TalksIn.progress {limit : ℕ} (closed : Prop) (hlimit : 0 < limit) {p : Party τ α} {k : ℕ}
    {tr : List (Bool × τ)} {a : α} (h : TalksIn me p k tr a) (inc : List τ) :
    (p = .ret a ∧ tr = []) ∨ (∃ p' inc' sent, Act limit closed p inc p' inc' sent) ∨
      inc = [] ∧ ∃ t rest, tr = (!me, t) :: rest := by
  cases h with
  | ret => exact Or.inl ⟨rfl, rfl⟩
  | send => exact Or.inr (Or.inl ⟨_, _, _, Act.send⟩)
  | loop => exact Or.inr (Or.inl ⟨_, _, _, Act.loop⟩)
  | @recv n next ts k tr _ hn _ =>
      rcases ts with _ | ⟨t, ts⟩
      · obtain rfl : 0 = n := hn
        exact Or.inr (Or.inl ⟨_, _, _, Act.done⟩)
      rcases inc with _ | ⟨u, inc⟩
      · exact Or.inr (Or.inr ⟨rfl, t, _, rfl⟩)
      · have h0 : 0 < n := by
          rw [← hn]
          exact Nat.succ_pos _
        exact Or.inr (Or.inl ⟨_, _, _, Act.chunk 1 Nat.one_pos (by omega)
          (by rw [List.length_cons]; omega)⟩)

/-- Both parties are on track, with at most `n` steps before them. -/
def OnTrack (a : α) (b : β) (n : ℕ) (c : Config τ α β) : Prop :=
  ∃ k k' tr tr', k + k' ≤ n ∧ TalksIn true c.left k tr a ∧ TalksIn false c.right k' tr' b ∧
    InFlight true c.toLeft c.toRight tr tr'

variable {a : α} {b : β} {limit : ℕ}

/-- **A step of either side brings the conversation one step nearer to its end** and leaves
it on track: who speaks moves a token into the channel, and who listens finds there what it
waits for.  No side is ever stuck while the other one is done.  -/
theorem OnTrack.step {n : ℕ} {c c' : Config τ α β} {who : Bool} (h : OnTrack a b n c)
    (hst : Step limit c who c') : ∃ n', n' < n ∧ OnTrack a b n' c' := by
  obtain ⟨k, k', tr, tr', hle, hleft, hright, hf⟩ := h
  cases hst with
  | left hact =>
      obtain ⟨k₁, tr₁, hlt, hleft', hf'⟩ :=
        hleft.act hf (fun hover => hright.eq_nil_of_over hover) hact
      exact ⟨k₁ + k', by omega, k₁, k', tr₁, tr', le_rfl, hleft', hright, hf'⟩
  | right hact =>
      obtain ⟨k₁, tr₁, hlt, hright', hf'⟩ :=
        hright.act hf.symm (fun hover => hleft.eq_nil_of_over hover) hact
      exact ⟨k + k₁, by omega, k, k₁, tr, tr₁, le_rfl, hleft, hright', hf'.symm⟩

/-- Nobody waits for ever: two parties that are on track either have both returned, with
nothing in flight, or one of them can act.  The one that waits for a word is the receiver of
the next word of the script, which the other one has sent or is about to send.  -/
theorem OnTrack.progress (hlimit : 0 < limit) {n : ℕ} {c : Config τ α β} (h : OnTrack a b n c) :
    c = ⟨.ret a, .ret b, [], []⟩ ∨ ∃ who c', Step limit c who c' := by
  obtain ⟨k, k', tr, tr', -, hleft, hright, hf⟩ := h
  rcases hleft.progress c.right.Over hlimit c.toLeft with
    ⟨hl, rfl⟩ | ⟨_, _, _, hact⟩ | ⟨hinc, t, rest, rfl⟩
  · rcases hright.progress c.left.Over hlimit c.toRight with
      ⟨hr, rfl⟩ | ⟨_, _, _, hact⟩ | ⟨hout, u, rest', rfl⟩
    · left
      obtain ⟨left, right, toLeft, toRight⟩ := c
      obtain rfl : left = .ret a := hl
      obtain rfl : right = .ret b := hr
      rcases hf with ⟨hinc, htr⟩ | ⟨hout, htr⟩
      · obtain rfl : toLeft = [] := hinc
        obtain rfl : toRight = [] := by simpa [word] using htr
        rfl
      · obtain rfl : toRight = [] := hout
        obtain rfl : toLeft = [] := by simpa [word] using htr
        rfl
    · exact Or.inr ⟨_, _, Step.right hact⟩
    · -- the right party waits for a left one that has nothing to say
      exfalso
      rcases hf with ⟨-, htr⟩ | ⟨-, htr⟩
      · rw [hout] at htr
        cases htr
      · exact absurd (List.append_eq_nil_iff.1 htr.symm).2 (List.cons_ne_nil _ _)
  · exact Or.inr ⟨_, _, Step.left hact⟩
  · rcases hright.progress c.left.Over hlimit c.toRight with
      ⟨-, rfl⟩ | ⟨_, _, _, hact⟩ | ⟨hout, u, rest', rfl⟩
    · exfalso
      rcases hf with ⟨-, htr⟩ | ⟨-, htr⟩
      · exact absurd (List.append_eq_nil_iff.1 htr.symm).2 (List.cons_ne_nil _ _)
      · rw [hinc] at htr
        cases htr
    · exact Or.inr ⟨_, _, Step.right hact⟩
    · -- each waits for the other: the script has one next token, not two
      exfalso
      rw [InFlight, hinc, hout] at hf
      rcases hf with ⟨-, htr⟩ | ⟨-, htr⟩ <;> cases htr

/-- **Two parties that play one script agree**, whatever the scheduler does and however the
words are cut: every run is on track, gets shorter with each step and can go on until both
have returned what the script gives them.  -/
theorem agrees_of_talks (hlimit : 0 < limit) {p : Party τ α} {q : Party τ β}
    {tr : List (Bool × τ)} (hp : Talks true p tr a) (hq : Talks false q tr b) :
    Agrees limit p q a b := by
  obtain ⟨k, hk⟩ := hp
  obtain ⟨k', hk'⟩ := hq
  refine ⟨k + k', fun run c hrun => ?_⟩
  have htrack : ∃ n, run.length + n ≤ k + k' ∧ OnTrack a b n c := by
    refine hrun.invariant (fun run c => ∃ n, run.length + n ≤ k + k' ∧ OnTrack a b n c) ?_ ?_
    · exact ⟨k + k', by simp, k, k', tr, tr, le_rfl, hk, hk', Or.inl ⟨rfl, rfl⟩⟩
    · rintro run c who c' ⟨n, hle, h⟩ hst
      obtain ⟨n', hlt, h'⟩ := h.step hst
      refine ⟨n', ?_, h'⟩
      rw [List.length_append, List.length_singleton]
      omega
  obtain ⟨n, hle, h⟩ := htrack
  exact ⟨by omega, h.progress hlimit⟩

end

end Dialogue
end Foundation
end Jackalope
