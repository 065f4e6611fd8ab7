/-
# Computations that consume a list from the front

A `Consumer` reads tokens from the front of a list and may stop with an error:
bytes from a connection, draws from a random source.  The list is what will ever
be there, so a connection that breaks after any byte is a short list, and a
statement about every list is a statement about every way to break.

Five things are said about such computations here.

* `loop` is `while (1)`: as long as its body consumes a token in each round that
  goes on, it is its own unfolding (`loop_eq`), so bounding the rounds by the
  length of the list cuts nothing short.
* `Decodes r w a`: the reader `r` consumes exactly the word `w`, returns `a`,
  and fails on every shorter piece of `w`.  The rules compose word by word, as
  the encoder concatenates.
* `Spec m Q E`: whatever the tokens, `m` returns a value in `Q` or stops with an
  error in `E`.
* `MayReturn m a`: some tokens make `m` return `a`, whatever follows them.
* `Finishes d m`: whatever the tokens, `m` returns once enough copies of `d` follow
  them.
-/

import Mathlib.Data.List.Basic
import Mathlib.Data.Vector.Basic
import Mathlib.Algebra.Order.Group.Nat

namespace Jackalope
namespace Foundation

/-- A computation over the tokens that are still to come. -/
abbrev Consumer (τ ε α : Type) := StateT (List τ) (Except ε) α

namespace Consumer

variable {τ ε α β σ : Type}

/-- Read one token; `e` is the error when there is none. -/
def next (e : ε) : Consumer τ ε τ
  | [] => .error e
  | t :: ts => .ok (t, ts)

/-- Read `n` tokens; `e` is the error when there are fewer. -/
def takeN (e : ε) (n : ℕ) : Consumer τ ε (List τ) := fun l =>
  if n ≤ l.length then .ok (l.take n, l.drop n) else .error e

/-- Stop. -/
def fail (e : ε) : Consumer τ ε α := fun _ => .error e

/-- A result that was there from the start takes nothing from the input.  -/
@[simp] theorem pure_apply (a : α) (l : List τ) :
    (pure a : Consumer τ ε α) l = .ok (a, l) := rfl

/-- A failure is the same on every input.  -/
@[simp] theorem fail_apply (e : ε) (l : List τ) : (fail e : Consumer τ ε α) l = .error e := rfl

/-- One computation after the other: the second one gets the result of the first and the
input that it left.  -/
theorem bind_apply (m : Consumer τ ε α) (f : α → Consumer τ ε β) (l : List τ) :
    (m >>= f) l = (m l).bind fun r => f r.1 r.2 := rfl

/-- Behind a computation that gave a result, the other one runs on what is left.  -/
theorem bind_ok {m : Consumer τ ε α} {l l' : List τ} {a : α} (h : m l = .ok (a, l'))
    (f : α → Consumer τ ε β) : (m >>= f) l = f a l' := by
  rw [bind_apply, h]
  rfl

/-- A failure of the first computation is that of both.  -/
theorem bind_error {m : Consumer τ ε α} {l : List τ} {e : ε} (h : m l = .error e)
    (f : α → Consumer τ ε β) : (m >>= f) l = .error e := by
  rw [bind_apply, h]
  rfl

/-- A bind that returns went through a first half that returned. -/
theorem bind_eq_ok {m : Consumer τ ε α} {f : α → Consumer τ ε β} {l : List τ} {r : β × List τ}
    (h : (m >>= f) l = .ok r) : ∃ a l', m l = .ok (a, l') ∧ f a l' = .ok r := by
  rcases hm : m l with e | ⟨a, l'⟩
  · rw [bind_error hm] at h
    exact absurd h (by simp)
  · exact ⟨a, l', rfl, by rw [← bind_ok hm f]; exact h⟩

/-- What was read was there: the tokens that were taken are the first ones, as many as were
asked for, and the rest is left.  -/
theorem takeN_eq_ok {e : ε} {n : ℕ} {l l' w : List τ} (h : takeN e n l = .ok (w, l')) :
    l = w ++ l' ∧ w.length = n := by
  unfold takeN at h
  split at h
  · rename_i hle
    cases h
    exact ⟨(List.take_append_drop n l).symm, by rw [List.length_take, Nat.min_eq_left hle]⟩
  · cases h

/-! ### Loops -/

/-- Whenever it returns, `m` has consumed a token. -/
def Consumes (m : Consumer τ ε α) : Prop :=
  ∀ l a l', m l = .ok (a, l') → l'.length < l.length

/-- Whenever it returns, `m` has not put tokens back. -/
def Shrinks (m : Consumer τ ε α) : Prop :=
  ∀ l a l', m l = .ok (a, l') → l'.length ≤ l.length

/-- What takes something makes the input no longer.  -/
theorem Consumes.shrinks {m : Consumer τ ε α} (h : Consumes m) : Shrinks m :=
  fun l a l' hm => (h l a l' hm).le

/-- A result without reading leaves the input as it is.  -/
theorem shrinks_pure (a : α) : Shrinks (pure a : Consumer τ ε α) := by
  intro l b l' h
  rw [pure_apply] at h
  cases h
  exact le_rfl

/-- A failure leaves no input to compare.  -/
theorem shrinks_fail (e : ε) : Shrinks (fail e : Consumer τ ε α) := by
  intro l b l' h
  cases h

/-- `next` takes one token.  -/
theorem consumes_next (e : ε) : Consumes (next e : Consumer τ ε τ) := by
  intro l a l' h
  rcases l with _ | ⟨t, ts⟩
  · cases h
  · cases h
    simp

/-- `takeN` takes a number of tokens, none of them if the number is zero.  -/
theorem shrinks_takeN (e : ε) (n : ℕ) : Shrinks (takeN e n : Consumer τ ε (List τ)) := by
  intro l a l' h
  unfold takeN at h
  split at h
  · cases h
    simp
  · cases h

/-- With a number that is not zero `takeN` takes something, so a loop around it ends.  -/
theorem consumes_takeN (e : ε) {n : ℕ} (hn : 0 < n) :
    Consumes (takeN e n : Consumer τ ε (List τ)) := by
  intro l a l' h
  unfold takeN at h
  split at h
  · cases h
    rw [List.length_drop]
    omega
  · cases h

/-- Computations that make the input no longer may be put one after the other.  -/
theorem Shrinks.bind {m : Consumer τ ε α} {f : α → Consumer τ ε β} (hm : Shrinks m)
    (hf : ∀ a, Shrinks (f a)) : Shrinks (m >>= f) := by
  intro l b l' h
  obtain ⟨a, l₁, h₁, h₂⟩ := bind_eq_ok h
  exact (hf a l₁ b l' h₂).trans (hm l a l₁ h₁)

/-- It is enough that the first of two computations takes something.  -/
theorem Consumes.bind {m : Consumer τ ε α} {f : α → Consumer τ ε β} (hm : Consumes m)
    (hf : ∀ a, Shrinks (f a)) : Consumes (m >>= f) := by
  intro l b l' h
  obtain ⟨a, l₁, h₁, h₂⟩ := bind_eq_ok h
  exact (hf a l₁ b l' h₂).trans_lt (hm l a l₁ h₁)

/-- It is enough as well that the second one does.  -/
theorem Shrinks.bind_consumes {m : Consumer τ ε α} {f : α → Consumer τ ε β} (hm : Shrinks m)
    (hf : ∀ a, Consumes (f a)) : Consumes (m >>= f) := by
  intro l b l' h
  obtain ⟨a, l₁, h₁, h₂⟩ := bind_eq_ok h
  exact (hf a l₁ b l' h₂).trans_le (hm l a l₁ h₁)

/-- A failure counts as progress: there is no result for which the input would have to be
shorter.  -/
theorem consumes_fail (e : ε) : Consumes (fail e : Consumer τ ε α) := by
  intro l a l' h
  cases h

/-- At most `n` rounds of the body; `e` is the error when they do not suffice. -/
def iterate (e : ε) (body : σ → Consumer τ ε (σ ⊕ β)) : ℕ → σ → Consumer τ ε β
  | 0, _ => fail e
  | n + 1, s => body s >>= Sum.elim (iterate e body n) pure

/-- `while (1)`: run the body from `s` until it leaves the loop with a result. -/
def loop (e : ε) (body : σ → Consumer τ ε (σ ⊕ β)) (s : σ) : Consumer τ ε β := fun l =>
  iterate e body (l.length + 1) s l

/-- A round that goes on has consumed a token. -/
def Advances (body : σ → Consumer τ ε (σ ⊕ β)) : Prop :=
  ∀ s l s' l', body s l = .ok (.inl s', l') → l'.length < l.length

/-- A loop advances if each of its rounds takes something, whether it is the last one or
not.  -/
theorem Advances.of_consumes {body : σ → Consumer τ ε (σ ⊕ β)} (h : ∀ s, Consumes (body s)) :
    Advances body :=
  fun s l s' l' => h s l (.inl s') l'

/-- More rounds than tokens change nothing.  A body that advances uses up a token in each
round it goes on, so the bounded iteration ends by itself, and it is the loop.  -/
theorem iterate_eq_loop (e : ε) {body : σ → Consumer τ ε (σ ⊕ β)} (h : Advances body)
    (n : ℕ) (s : σ) (l : List τ) (hn : l.length < n) :
    iterate e body n s l = loop e body s l := by
  -- any two sufficient numbers of rounds agree, by induction on the length of the list
  have key : ∀ k n m (s : σ) (l : List τ), l.length = k → l.length < n → l.length < m →
      iterate e body n s l = iterate e body m s l := by
    intro k
    induction k using Nat.strong_induction_on with
    | _ k ih =>
        intro n m s l hk hn hm
        obtain ⟨n, rfl⟩ : ∃ n', n = n' + 1 := ⟨n - 1, by omega⟩
        obtain ⟨m, rfl⟩ : ∃ m', m = m' + 1 := ⟨m - 1, by omega⟩
        rcases hb : body s l with err | ⟨r, l'⟩
        · rw [iterate, iterate, bind_error hb, bind_error hb]
        · rw [iterate, iterate, bind_ok hb, bind_ok hb]
          rcases r with s' | b
          · have hlt := h s l s' l' hb
            exact ih l'.length (by omega) n m s' l' rfl (by omega) (by omega)
          · rfl
  exact key l.length n (l.length + 1) s l rfl hn (Nat.lt_succ_self _)

/-- **A loop is its own unfolding**, when each round that goes on consumes a token. -/
theorem loop_eq (e : ε) {body : σ → Consumer τ ε (σ ⊕ β)} (h : Advances body) (s : σ) :
    loop e body s = body s >>= Sum.elim (loop e body) pure := by
  funext l
  rw [loop, iterate]
  rcases hb : body s l with err | ⟨r, l'⟩
  · rw [bind_error hb, bind_error hb]
  · rw [bind_ok hb, bind_ok hb]
    rcases r with s' | b
    · exact iterate_eq_loop e h l.length s' l' (h s l s' l' hb)
    · rfl

/-- A loop does not put tokens back if its rounds do not: what it leaves is a tail of what
it was given.  -/
theorem shrinks_loop (e : ε) {body : σ → Consumer τ ε (σ ⊕ β)} (h : ∀ s, Shrinks (body s))
    (s : σ) : Shrinks (loop e body s) := by
  have key : ∀ n s, Shrinks (iterate e body n s) := by
    intro n
    induction n with
    | zero => exact fun s => shrinks_fail e
    | succ n ih =>
        intro s
        refine (h s).bind ?_
        rintro (s' | b)
        · exact ih s'
        · exact shrinks_pure b
  exact fun l => key (l.length + 1) s l

/-- `n` rounds of the same computation, and what they return. -/
def times (m : Consumer τ ε α) : ℕ → Consumer τ ε (List α)
  | 0 => pure []
  | n + 1 => m >>= fun a => times m n >>= fun as => pure (a :: as)

/-- A fixed number of rounds. -/
def vector (m : Consumer τ ε α) : (n : ℕ) → Consumer τ ε (List.Vector α n)
  | 0 => pure .nil
  | n + 1 => m >>= fun a => vector m n >>= fun v => pure (a ::ᵥ v)

/-- `n` rounds, each with what the one before returned. -/
def rounds (m : σ → Consumer τ ε σ) : ℕ → σ → Consumer τ ε σ
  | 0, s => pure s
  | n + 1, s => m s >>= rounds m n

/-! ### Exact words -/

/-- `r` consumes exactly the word `w` and returns `a`, whatever follows, and
fails when the tokens end inside `w`. -/
structure Decodes (r : Consumer τ ε α) (w : List τ) (a : α) : Prop where
  exact : ∀ rest, r (w ++ rest) = .ok (a, rest)
  short : ∀ p, p <+: w → p.length < w.length → ∃ e, r p = .error e

/-- The empty word decodes to a result that was there from the start.  -/
theorem Decodes.pure (a : α) : Decodes (pure a : Consumer τ ε α) [] a where
  exact _ := rfl
  short p _ h := absurd h (by simp)

/-- A word of one token is what `next` decodes.  -/
theorem Decodes.next (e : ε) (t : τ) : Decodes (next e) [t] t where
  exact _ := rfl
  short p _ h := by
    obtain rfl : p = [] := List.length_eq_zero_iff.1 (by simpa using h)
    exact ⟨e, rfl⟩

/-- A word is what `takeN` decodes, if it is asked for as many tokens as there are.  -/
theorem Decodes.takeN (e : ε) {n : ℕ} {w : List τ} (hw : w.length = n) :
    Decodes (takeN e n) w w where
  exact rest := by
    rw [Consumer.takeN, if_pos (by simp [hw]), List.take_left' hw, List.drop_left' hw]
  short p _ h := ⟨e, by rw [Consumer.takeN, if_neg (by omega)]⟩

/-- **Words concatenate.** A consumer that is run after another reads its word behind the
first one's.  This is the rule by which a format of several fields is read back field by
field.  -/
theorem Decodes.bind {r : Consumer τ ε α} {f : α → Consumer τ ε β} {w v : List τ} {a : α} {b : β}
    (h : Decodes r w a) (h' : Decodes (f a) v b) : Decodes (r >>= f) (w ++ v) b where
  exact rest := by
    rw [List.append_assoc, bind_ok (h.exact _)]
    exact h'.exact rest
  short p hp hlt := by
    rcases Nat.lt_or_ge p.length w.length with hlen | hlen
    · -- the tokens end inside the first word
      have hpw : p <+: w :=
        List.prefix_of_prefix_length_le hp (List.prefix_append w v) hlen.le
      obtain ⟨e, he⟩ := h.short p hpw hlen
      exact ⟨e, bind_error he f⟩
    · -- the first word is there, the tokens end inside the second
      obtain ⟨q, rfl⟩ := List.prefix_of_prefix_length_le (List.prefix_append w v) hp hlen
      have hq : q <+: v := (List.prefix_append_right_inj w).1 hp
      obtain ⟨e, he⟩ := h'.short q hq (by simpa using hlt)
      exact ⟨e, by rw [bind_ok (h.exact q)]; exact he⟩

/-- A reader followed by a pure function of its result. -/
theorem Decodes.bind_pure {r : Consumer τ ε α} {w : List τ} {a : α} (h : Decodes r w a)
    (f : α → β) : Decodes (r >>= fun x => Pure.pure (f x)) w (f a) := by
  simpa using h.bind (f := fun x => Pure.pure (f x)) (Decodes.pure (f a))

/-- The last round of a loop. -/
theorem Decodes.loop_last {e : ε} {body : σ → Consumer τ ε (σ ⊕ β)} (hc : Advances body)
    {s : σ} {w : List τ} {b : β} (h : Decodes (body s) w (.inr b)) :
    Decodes (loop e body s) w b := by
  rw [loop_eq e hc]
  simpa using h.bind (f := Sum.elim (loop e body) Pure.pure) (Decodes.pure b)

/-- A round of a loop that goes on. -/
theorem Decodes.loop_next {e : ε} {body : σ → Consumer τ ε (σ ⊕ β)} (hc : Advances body)
    {s s' : σ} {w v : List τ} {b : β} (h : Decodes (body s) w (.inl s'))
    (h' : Decodes (loop e body s') v b) : Decodes (loop e body s) (w ++ v) b := by
  rw [loop_eq e hc]
  exact h.bind (f := Sum.elim (loop e body) Pure.pure) h'

/-- As many rounds as there are words: the reader of one word, run that often, reads all of
them in their order.  -/
theorem Decodes.times {γ : Type} {r : Consumer τ ε α} {w : γ → List τ} {f : γ → α} (xs : List γ)
    (h : ∀ x ∈ xs, Decodes r (w x) (f x)) :
    Decodes (times r xs.length) (xs.flatMap w) (xs.map f) := by
  induction xs with
  | nil => exact Decodes.pure []
  | cons x xs ih =>
      have hrest := (ih fun y hy => h y (List.mem_cons_of_mem _ hy)).bind_pure (f x :: ·)
      exact (h x List.mem_cons_self).bind hrest

/-- **A vector**, written element by element and read with as many rounds as it has
elements, whatever is written for each of them.  -/
theorem Decodes.vector {r : Consumer τ ε α} {w : α → List τ} (h : ∀ a, Decodes r (w a) a) {n : ℕ}
    (v : List.Vector α n) : Decodes (vector r n) (v.toList.flatMap w) v := by
  induction v with
  | nil => exact Decodes.pure List.Vector.nil
  | @cons n a v ih =>
      rw [List.Vector.toList_cons, List.flatMap_cons]
      exact (h a).bind (ih.bind_pure (a ::ᵥ ·))

/-- As many rounds as there are words, where each round changes the state. -/
theorem Decodes.rounds {γ : Type} {m : σ → Consumer τ ε σ} {w : γ → List τ} {f : σ → γ → σ}
    (xs : List γ) (h : ∀ x ∈ xs, ∀ s, Decodes (m s) (w x) (f s x)) (s : σ) :
    Decodes (rounds m xs.length s) (xs.flatMap w) (xs.foldl f s) := by
  induction xs generalizing s with
  | nil => exact Decodes.pure s
  | cons x xs ih =>
      exact (h x List.mem_cons_self s).bind (ih (fun y hy => h y (List.mem_cons_of_mem _ hy)) _)

/-- What a broken connection delivers is either all of it or not enough: a beginning of the
word is the whole word, or the reader fails on it.  -/
theorem Decodes.take {r : Consumer τ ε α} {w : List τ} {a : α} (h : Decodes r w a) (n : ℕ) :
    r (w.take n) = .ok (a, []) ∨ ∃ e, r (w.take n) = .error e := by
  rcases Nat.lt_or_ge n w.length with hn | hn
  · refine Or.inr (h.short _ (List.take_prefix n w) ?_)
    rw [List.length_take]
    omega
  · left
    rw [List.take_of_length_le hn]
    simpa using h.exact []

/-! ### Specifications -/

/-- Whatever the tokens, `m` returns a value in `Q` or stops with an error in `E`. -/
def Spec (m : Consumer τ ε α) (Q : α → Prop) (E : ε → Prop) : Prop :=
  ∀ l, match m l with
    | .ok (a, _) => Q a
    | .error e => E e

/-- The rule for a result that was there from the start.  -/
theorem Spec.pure {Q : α → Prop} {E : ε → Prop} {a : α} (h : Q a) :
    Spec (pure a : Consumer τ ε α) Q E := fun _ => h

/-- The rule for a failure: it has to be one of those that are allowed.  -/
theorem Spec.fail {Q : α → Prop} {E : ε → Prop} {e : ε} (h : E e) :
    Spec (fail e : Consumer τ ε α) Q E := fun _ => h

/-- The rule for `next`: any token may come, and the input may be at its end.  -/
theorem Spec.next {Q : τ → Prop} {E : ε → Prop} {e : ε} (hQ : ∀ t, Q t) (hE : E e) :
    Spec (next e : Consumer τ ε τ) Q E := by
  rintro (_ | ⟨t, ts⟩)
  · exact hE
  · exact hQ t

/-- **The rule of sequence.** What is known of the result of the first computation may be
used for the second; failures of both are failures of the whole.  -/
theorem Spec.bind {m : Consumer τ ε α} {f : α → Consumer τ ε β} {Q : α → Prop} {R : β → Prop}
    {E : ε → Prop} (hm : Spec m Q E) (hf : ∀ a, Q a → Spec (f a) R E) : Spec (m >>= f) R E := by
  intro l
  have := hm l
  rcases h : m l with e | ⟨a, l'⟩
  · rw [h] at this
    rw [bind_error h]
    exact this
  · rw [h] at this
    rw [bind_ok h]
    exact hf a this l'

/-- The rule of consequence, for the results: whatever a result satisfies may be replaced by
something weaker.  -/
theorem Spec.mono {m : Consumer τ ε α} {Q R : α → Prop} {E : ε → Prop} (hm : Spec m Q E)
    (h : ∀ a, Q a → R a) : Spec m R E := by
  intro l
  have := hm l
  rcases hl : m l with e | ⟨a, l'⟩
  · rw [hl] at this
    exact this
  · rw [hl] at this
    exact h a this

/-- The rule of consequence, for the failures: a computation that fails in one way only
fails in one of more ways.  -/
theorem Spec.mono_error {m : Consumer τ ε α} {Q : α → Prop} {E F : ε → Prop} (hm : Spec m Q E)
    (h : ∀ e, E e → F e) : Spec m Q F := by
  intro l
  have := hm l
  rcases hl : m l with e | ⟨a, l'⟩
  · rw [hl] at this
    exact h e this
  · rw [hl] at this
    exact this

/-- Two specifications at once: results satisfy both conditions on results, and failures
both on failures.  -/
theorem Spec.and {m : Consumer τ ε α} {Q R : α → Prop} {E F : ε → Prop} (hm : Spec m Q E)
    (hm' : Spec m R F) : Spec m (fun a => Q a ∧ R a) (fun e => E e ∧ F e) := by
  intro l
  have := hm l
  have := hm' l
  rcases hl : m l with e | ⟨a, l'⟩
  · simp_all
  · simp_all

/-- What a specification says of one run that returned. -/
theorem Spec.of_ok {m : Consumer τ ε α} {Q : α → Prop} {E : ε → Prop} (hm : Spec m Q E)
    {l l' : List τ} {a : α} (h : m l = .ok (a, l')) : Q a := by
  have := hm l
  rw [h] at this
  exact this

/-- The second half of a computation may be replaced by one that agrees with it on what the
first half returns. -/
theorem Spec.bind_congr {m : Consumer τ ε α} {f g : α → Consumer τ ε β} {Q : α → Prop}
    {E : ε → Prop} (hm : Spec m Q E) (h : ∀ a, Q a → f a = g a) : m >>= f = m >>= g := by
  funext l
  rcases hl : m l with e | ⟨a, l'⟩
  · rw [bind_error hl, bind_error hl]
  · rw [bind_ok hl, bind_ok hl, h a (hm.of_ok hl)]

/-- Any computation returns something or stops with some error. -/
theorem Spec.any (m : Consumer τ ε α) : Spec m (fun _ => True) (fun _ => True) := by
  intro l
  rcases m l with e | ⟨a, l'⟩
  · trivial
  · trivial

/-- **The loop rule.** What the body keeps from round to round holds when the loop is left,
and an error that the body may raise is one the loop may raise.  No bound on the number of
rounds is needed: the loop ends because its body advances.  -/
theorem Spec.loop {e : ε} {body : σ → Consumer τ ε (σ ⊕ β)} {Q : β → Prop} {E : ε → Prop}
    (I : σ → Prop) (hE : E e) (hb : ∀ s, I s → Spec (body s) (Sum.elim I Q) E) {s : σ}
    (hs : I s) : Spec (loop e body s) Q E := by
  have key : ∀ n s, I s → Spec (iterate e body n s) Q E := by
    intro n
    induction n with
    | zero => exact fun s _ => Spec.fail hE
    | succ n ih =>
        intro s hs
        refine (hb s hs).bind ?_
        rintro (s' | b) hr
        · exact ih s' hr
        · exact Spec.pure hr
  exact fun l => key (l.length + 1) s hs l

/-! ### What a computation may return -/

/-- Some tokens make `m` return `a`, whatever follows them. -/
def MayReturn (m : Consumer τ ε α) (a : α) : Prop :=
  ∃ used, ∀ rest, m (used ++ rest) = .ok (a, rest)

/-- A result that was there from the start is returned, on the empty input.  -/
theorem MayReturn.pure (a : α) : MayReturn (pure a : Consumer τ ε α) a := ⟨[], fun _ => rfl⟩

/-- `next` may return any token, the one that comes.  -/
theorem MayReturn.next (e : ε) (t : τ) : MayReturn (next e : Consumer τ ε τ) t := ⟨[t], fun _ => rfl⟩

/-- What two computations may return, one after the other: the inputs that make them do so
are put together.  -/
theorem MayReturn.bind {m : Consumer τ ε α} {f : α → Consumer τ ε β} {a : α} {b : β}
    (h : MayReturn m a) (h' : MayReturn (f a) b) : MayReturn (m >>= f) b := by
  obtain ⟨used, hused⟩ := h
  obtain ⟨used', hused'⟩ := h'
  refine ⟨used ++ used', fun rest => ?_⟩
  rw [List.append_assoc, bind_ok (hused _)]
  exact hused' rest

/-- What `m` returns it returns whatever follows: it does not look at the tokens it leaves. -/
def IsLocal (m : Consumer τ ε α) : Prop := ∀ l a l', m l = .ok (a, l') → MayReturn m a

/-- A result without reading does not depend on what comes behind.  -/
theorem IsLocal.pure (a : α) : IsLocal (pure a : Consumer τ ε α) := by
  intro l b l' h
  rw [pure_apply] at h
  cases h
  exact MayReturn.pure a

/-- Nor does a failure.  -/
theorem IsLocal.fail (e : ε) : IsLocal (fail e : Consumer τ ε α) := by
  intro l a l' h
  cases h

/-- `next` looks at the first token only.  -/
theorem IsLocal.next (e : ε) : IsLocal (next e : Consumer τ ε τ) := fun _ a _ _ => MayReturn.next e a

/-- Local computations may be put one after the other: what the first one leaves is longer
by the same tokens.  -/
theorem IsLocal.bind {m : Consumer τ ε α} {f : α → Consumer τ ε β} (hm : IsLocal m)
    (hf : ∀ a, IsLocal (f a)) : IsLocal (m >>= f) := by
  intro l b l' h
  obtain ⟨a, l₁, h₁, h₂⟩ := bind_eq_ok h
  exact (hm l a l₁ h₁).bind (hf a l₁ b l' h₂)

/-- Whatever a local computation returns, it may return: what it does with the tokens behind
those that it takes does not depend on them.  -/
theorem IsLocal.spec {m : Consumer τ ε α} {Q : α → Prop} {E : ε → Prop} (h : IsLocal m)
    (hm : Spec m Q E) : Spec m (MayReturn m) E := by
  intro l
  have := hm l
  rcases hl : m l with e | ⟨a, l'⟩
  · rw [hl] at this
    exact this
  · exact h l a l' hl

/-! ### Computations that finish -/

/-- However the tokens begin, `m` returns once they are followed by enough copies of
`d`.  It uses `k₀` of the copies, and any only when what was there is used up. -/
def Finishes (d : τ) (m : Consumer τ ε α) : Prop :=
  ∀ l, ∃ k₀ a l', l'.length ≤ l.length ∧ (k₀ = 0 ∨ l' = []) ∧
    ∀ k, m (l ++ List.replicate (k₀ + k) d) = .ok (a, l' ++ List.replicate k d)

/-- A result that was there from the start needs no input to be reached.  -/
theorem Finishes.pure (d : τ) (a : α) : Finishes d (pure a : Consumer τ ε α) := fun l =>
  ⟨0, a, l, le_rfl, Or.inl rfl, fun k => by rw [Nat.zero_add, pure_apply]⟩

/-- `next` finishes on any token, so on the default one.  -/
theorem Finishes.next (d : τ) (e : ε) : Finishes d (next e : Consumer τ ε τ) := by
  rintro (_ | ⟨t, ts⟩)
  · exact ⟨1, d, [], le_rfl, Or.inr rfl, fun k => by rw [Nat.add_comm]; rfl⟩
  · exact ⟨0, t, ts, by simp, Or.inl rfl, fun k => by rw [Nat.zero_add]; rfl⟩

/-- Copies are used only when what was there is used up, also in two steps. -/
theorem usedUp_add {k₀ k₁ : ℕ} {l l' : List τ} (h₀ : k₀ = 0 ∨ l = []) (h₁ : k₁ = 0 ∨ l' = [])
    (hlen : l'.length ≤ l.length) : k₀ + k₁ = 0 ∨ l' = [] := by
  rcases h₀ with rfl | rfl
  · rw [Nat.zero_add]
    exact h₁
  · exact Or.inr (List.length_eq_zero_iff.1 (Nat.le_zero.1 hlen))

/-- The second half may rely on what the first returns: it has to finish only for such
results as the first one has.  -/
theorem Finishes.bind_of {d : τ} {m : Consumer τ ε α} {f : α → Consumer τ ε β} {Q : α → Prop}
    {E : ε → Prop} (hm : Finishes d m) (hQ : Spec m Q E) (hf : ∀ a, Q a → Finishes d (f a)) :
    Finishes d (m >>= f) := by
  intro l
  obtain ⟨k₀, a, l', hlen, hk₀, hrun⟩ := hm l
  obtain ⟨k₁, b, l'', hlen', hk₁, hrun'⟩ := hf a (hQ.of_ok (hrun 0)) l'
  refine ⟨k₀ + k₁, b, l'', hlen'.trans hlen, usedUp_add hk₀ hk₁ hlen', fun k => ?_⟩
  rw [Nat.add_assoc, bind_ok (hrun (k₁ + k))]
  exact hrun' k

/-- If each of two computations finishes on enough default tokens, so do both, one after the
other.  -/
theorem Finishes.bind {d : τ} {m : Consumer τ ε α} {f : α → Consumer τ ε β} (hm : Finishes d m)
    (hf : ∀ a, Finishes d (f a)) : Finishes d (m >>= f) :=
  hm.bind_of (Spec.any m) fun a _ => hf a

/-- **A loop finishes** if its rounds do, each round that goes on consumes a token,
and a round that sees nothing but copies of `d` is the last. -/
theorem Finishes.loop {d : τ} (e : ε) {body : σ → Consumer τ ε (σ ⊕ β)} (ha : Advances body)
    (hb : ∀ s, Finishes d (body s))
    (hlast : ∀ s, ∃ k₀ b, ∀ k, body s (List.replicate (k₀ + k) d) =
      .ok (.inr b, List.replicate k d)) (s : σ) : Finishes d (loop e body s) := by
  intro l
  induction hn : l.length using Nat.strong_induction_on generalizing s l with
  | _ n ih =>
      subst hn
      rcases l with _ | ⟨t, ts⟩
      · obtain ⟨k₀, b, hrun⟩ := hlast s
        refine ⟨k₀, b, [], le_rfl, Or.inr rfl, fun k => ?_⟩
        rw [loop_eq e ha, List.nil_append, bind_ok (hrun k)]
        rfl
      · obtain ⟨k₀, r, l', hlen, hk₀, hrun⟩ := hb s (t :: ts)
        rcases r with s' | b
        · have hlt : l'.length < (t :: ts).length := by
            rcases hk₀ with rfl | rfl
            · have := ha s _ _ _ (hrun 0)
              simpa using this
            · simp
          obtain ⟨k₁, b, l'', hlen', hk₁, hrun'⟩ := ih l'.length hlt s' l' rfl
          refine ⟨k₀ + k₁, b, l'', hlen'.trans hlen, usedUp_add hk₀ hk₁ hlen', fun k => ?_⟩
          rw [loop_eq e ha, Nat.add_assoc, bind_ok (hrun (k₁ + k))]
          exact hrun' k
        · refine ⟨k₀, b, l', hlen, hk₀, fun k => ?_⟩
          rw [loop_eq e ha, bind_ok (hrun k)]
          rfl

end Consumer

end Foundation
end Jackalope
