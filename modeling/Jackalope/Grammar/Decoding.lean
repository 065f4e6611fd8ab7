/-
# What `DecodeSample` accepts, and where it reads

The format of a sample, without the decoder: `TreeWord` relates the bytes of a tree to
the tree, and `TreeField u k` says that in the bytes of a tree, after the beginning `u`,
the next field has `k` bytes.

`Describes n r W F` ties a reader to the words `W` that it reads and to its fields `F`,
wherever fewer than `n` bytes are left.  It returns exactly on its words, all fields
that it gets to fit, and it asks for bytes behind the buffer exactly if it gets to a
field whose end is not below `2 ^ 64`: there the check in `ReadData` and `ReadString`
wraps.  Words and fields compose as the readers do.

So decoding is safe on a buffer if and only if none of its fields ends at or above
`2 ^ 64` (`decodeSample_safe_iff`).
-/

import Jackalope.Grammar.Codec

namespace Jackalope
namespace Grammar

open Foundation

/-! ### Readers and their fields -/

section

variable {α β : Type}

/-- `r` reads the words `W` and has the fields `F`, wherever fewer than `n` bytes are
left. -/
structure Describes (n : ℕ) (r : Reader α) (W : Bytes → α → Prop) (F : Bytes → ℕ → Prop) :
    Prop where
  sound : ∀ pre rest cache a s, (pre ++ rest).length < 2 ^ 64 → rest.length < n →
    r (⟨pre ++ rest, pre.length⟩, cache) = .ok (a, s) →
    ∃ w rest' cache', rest = w ++ rest' ∧ W w a ∧ s = (⟨pre ++ rest, (pre ++ w).length⟩, cache')
  complete : ∀ pre w rest cache a, (pre ++ (w ++ rest)).length < 2 ^ 64 → (w ++ rest).length < n →
    W w a → ∃ cache', r (⟨pre ++ (w ++ rest), pre.length⟩, cache) =
      .ok (a, (⟨pre ++ (w ++ rest), (pre ++ w).length⟩, cache'))
  fits : ∀ pre rest cache a s u k, (pre ++ rest).length < 2 ^ 64 → rest.length < n →
    r (⟨pre ++ rest, pre.length⟩, cache) = .ok (a, s) → F u k → u <+: rest →
    u.length + k ≤ rest.length
  overrun_iff : ∀ pre rest cache, (pre ++ rest).length < 2 ^ 64 → rest.length < n →
    (r (⟨pre ++ rest, pre.length⟩, cache) = .error .overrun ↔
      ∃ u k, F u k ∧ u <+: rest ∧ 2 ^ 64 ≤ (pre ++ u).length + k)

/-- A word and then another, which may depend on what the first is read as. -/
def ThenWord (W : Bytes → α → Prop) (W' : α → Bytes → β → Prop) (w : Bytes) (b : β) : Prop :=
  ∃ w₁ a w₂, w = w₁ ++ w₂ ∧ W w₁ a ∧ W' a w₂ b

/-- A field of the first part, or one of the second after a word of the first. -/
def ThenField (W : Bytes → α → Prop) (F : Bytes → ℕ → Prop) (F' : α → Bytes → ℕ → Prop)
    (u : Bytes) (k : ℕ) : Prop :=
  F u k ∨ ∃ w a u', u = w ++ u' ∧ W w a ∧ F' a u' k

variable {n m : ℕ} {r : Reader α} {W : Bytes → α → Prop} {F : Bytes → ℕ → Prop}

/-- Fewer bytes may be left. -/
theorem Describes.mono (h : Describes n r W F) (hm : m ≤ n) : Describes m r W F where
  sound pre rest cache a s hlt hrest := h.sound pre rest cache a s hlt (hrest.trans_le hm)
  complete pre w rest cache a hlt hrest := h.complete pre w rest cache a hlt (hrest.trans_le hm)
  fits pre rest cache a s u k hlt hrest := h.fits pre rest cache a s u k hlt (hrest.trans_le hm)
  overrun_iff pre rest cache hlt hrest := h.overrun_iff pre rest cache hlt (hrest.trans_le hm)

/-- Words and fields may be said in other terms. -/
theorem Describes.congr {W' : Bytes → α → Prop} {F' : Bytes → ℕ → Prop} (h : Describes n r W F)
    (hW : ∀ w a, W w a ↔ W' w a) (hF : ∀ u k, F u k ↔ F' u k) : Describes n r W' F' := by
  have hW : W = W' := funext fun w => funext fun a => propext (hW w a)
  have hF : F = F' := funext fun u => funext fun k => propext (hF u k)
  subst hW hF
  exact h

/-- A reader that reads nothing: its words are empty, its result is always the same one, and
no field of it can be wrong.  -/
theorem Describes.pure (n : ℕ) (a : α) :
    Describes n (pure a : Reader α) (fun w b => w = [] ∧ b = a) (fun _ _ => False) where
  sound pre rest cache b s _ _ h := by
    cases h
    exact ⟨[], rest, cache, rfl, ⟨rfl, rfl⟩, by rw [List.append_nil]⟩
  complete pre w rest cache b _ _ h := by
    obtain ⟨rfl, rfl⟩ := h
    exact ⟨cache, by rw [List.append_nil]; rfl⟩
  fits _ _ _ _ _ _ _ _ _ _ h := h.elim
  overrun_iff pre rest cache _ _ := by
    constructor
    · intro h
      cases h
    · rintro ⟨_, _, h, -⟩
      exact h.elim

/-- A reader that returns 0 returns nothing for any word, and no field is the reason.  -/
theorem Describes.null (n : ℕ) :
    Describes n (Reader.null : Reader α) (fun _ _ => False) (fun _ _ => False) where
  sound _ _ _ _ _ _ _ h := by cases h
  complete _ _ _ _ _ _ _ h := h.elim
  fits _ _ _ _ _ _ _ _ _ _ h := h.elim
  overrun_iff pre rest cache _ _ := by
    constructor
    · intro h
      cases h
    · rintro ⟨_, _, h, -⟩
      exact h.elim

/-- Behind a reader that gave a result, the other one goes on from the state that it left.
-/
theorem reader_bind_ok {f : α → Reader β} {s s' : BinaryRW × StringCache} {a : α}
    (h : r s = .ok (a, s')) : (r >>= f) s = f a s' := by
  show Except.bind (r s) _ = _
  rw [h]
  rfl

/-- A reader that stops is the end of both.  -/
theorem reader_bind_error {f : α → Reader β} {s : BinaryRW × StringCache} {e : ReadStop}
    (h : r s = .error e) : (r >>= f) s = .error e := by
  show Except.bind (r s) _ = _
  rw [h]
  rfl

/-- **Words and fields compose.**  If the words of the first part have `m` bytes, as many
are no longer there for the second. -/
theorem Describes.bind {f : α → Reader β} {W' : α → Bytes → β → Prop}
    {F' : α → Bytes → ℕ → Prop} (h : Describes n r W F) (hm : ∀ w a, W w a → m ≤ w.length)
    (h' : ∀ w a, W w a → Describes (n - m) (f a) (W' a) (F' a)) :
    Describes n (r >>= f) (ThenWord W W') (ThenField W F F') where
  sound pre rest cache b s hlt hrest hrun := by
    rcases hr : r (⟨pre ++ rest, pre.length⟩, cache) with e | ⟨a, s₁⟩
    · rw [reader_bind_error hr] at hrun
      cases hrun
    · rw [reader_bind_ok hr] at hrun
      obtain ⟨w₁, rest₁, cache₁, rfl, hW, rfl⟩ := h.sound pre rest cache a s₁ hlt hrest hr
      have hlen := hm w₁ a hW
      rw [List.length_append] at hrest
      rw [← List.append_assoc] at hlt hrun
      obtain ⟨w₂, rest₂, cache₂, rfl, hW', rfl⟩ :=
        (h' w₁ a hW).sound (pre ++ w₁) rest₁ cache₁ b s hlt (by omega) hrun
      refine ⟨w₁ ++ w₂, rest₂, cache₂, by rw [List.append_assoc], ⟨w₁, a, w₂, rfl, hW, hW'⟩, ?_⟩
      rw [List.append_assoc, List.append_assoc]
  complete pre w rest cache b hlt hrest hW := by
    obtain ⟨w₁, a, w₂, rfl, hW, hW'⟩ := hW
    have hlen := hm w₁ a hW
    rw [List.append_assoc] at hlt hrest ⊢
    obtain ⟨cache₁, h₁⟩ := h.complete pre w₁ (w₂ ++ rest) cache a hlt hrest hW
    rw [List.length_append] at hrest
    rw [← List.append_assoc pre] at hlt
    obtain ⟨cache₂, h₂⟩ := (h' w₁ a hW).complete (pre ++ w₁) w₂ rest cache₁ b hlt (by omega) hW'
    refine ⟨cache₂, ?_⟩
    rw [reader_bind_ok h₁, ← List.append_assoc pre, h₂, List.append_assoc pre w₁ w₂]
  fits pre rest cache b s u k hlt hrest hrun hF hu := by
    rcases hr : r (⟨pre ++ rest, pre.length⟩, cache) with e | ⟨a, s₁⟩
    · rw [reader_bind_error hr] at hrun
      cases hrun
    · rcases hF with hF | ⟨w, a', u', rfl, hW, hF⟩
      · exact h.fits pre rest cache a s₁ u k hlt hrest hr hF hu
      · obtain ⟨rest₁, rfl⟩ := hu
        rw [List.append_assoc] at hlt hrest hrun hr
        have hlen := hm w a' hW
        obtain ⟨cache₁, h₁⟩ := h.complete pre w (u' ++ rest₁) cache a' hlt hrest hW
        rw [reader_bind_ok h₁, ← List.append_assoc pre] at hrun
        rw [List.length_append] at hrest
        rw [← List.append_assoc pre] at hlt
        have hfit := (h' w a' hW).fits (pre ++ w) (u' ++ rest₁) cache₁ b s u' k hlt (by omega) hrun hF
          (List.prefix_append u' rest₁)
        simp only [List.length_append] at hfit ⊢
        omega
  overrun_iff pre rest cache hlt hrest := by
    constructor
    · intro hrun
      rcases hr : r (⟨pre ++ rest, pre.length⟩, cache) with e | ⟨a, s₁⟩
      · rw [reader_bind_error hr] at hrun
        cases hrun
        obtain ⟨u, k, hF, hu, hk⟩ := (h.overrun_iff pre rest cache hlt hrest).1 hr
        exact ⟨u, k, Or.inl hF, hu, hk⟩
      · rw [reader_bind_ok hr] at hrun
        obtain ⟨w₁, rest₁, cache₁, rfl, hW, rfl⟩ := h.sound pre rest cache a s₁ hlt hrest hr
        have hlen := hm w₁ a hW
        rw [List.length_append] at hrest
        rw [← List.append_assoc] at hlt hrun
        obtain ⟨u, k, hF, hu, hk⟩ :=
          ((h' w₁ a hW).overrun_iff (pre ++ w₁) rest₁ cache₁ hlt (by omega)).1 hrun
        refine ⟨w₁ ++ u, k, Or.inr ⟨w₁, a, u, rfl, hW, hF⟩, (List.prefix_append_right_inj w₁).2 hu, ?_⟩
        rw [← List.append_assoc]
        exact hk
    · rintro ⟨u, k, hF | ⟨w, a, u', rfl, hW, hF⟩, hu, hk⟩
      · exact reader_bind_error ((h.overrun_iff pre rest cache hlt hrest).2 ⟨u, k, hF, hu, hk⟩)
      · obtain ⟨rest₁, rfl⟩ := hu
        rw [List.append_assoc] at hlt hrest ⊢
        have hlen := hm w a hW
        obtain ⟨cache₁, h₁⟩ := h.complete pre w (u' ++ rest₁) cache a hlt hrest hW
        rw [List.length_append] at hrest
        rw [reader_bind_ok h₁, ← List.append_assoc pre]
        rw [← List.append_assoc pre] at hlt
        refine ((h' w a hW).overrun_iff (pre ++ w) (u' ++ rest₁) cache₁ hlt (by omega)).2
          ⟨u', k, hF, List.prefix_append u' rest₁, ?_⟩
        rw [List.append_assoc]
        exact hk

/-- What comes after a word decides how a run goes on: two continuations that agree behind
each word that the first part can read make the same reader.  -/
theorem Describes.bind_eq {f f' : α → Reader β} (h : Describes n r W F) (pre rest : Bytes)
    (cache : StringCache) (hlt : (pre ++ rest).length < 2 ^ 64) (hrest : rest.length < n)
    (hf : ∀ w a rest' cache', rest = w ++ rest' → W w a →
      f a (⟨pre ++ rest, (pre ++ w).length⟩, cache') = f' a (⟨pre ++ rest, (pre ++ w).length⟩, cache')) :
    (r >>= f) (⟨pre ++ rest, pre.length⟩, cache) = (r >>= f') (⟨pre ++ rest, pre.length⟩, cache) := by
  rcases hr : r (⟨pre ++ rest, pre.length⟩, cache) with e | ⟨a, s⟩
  · rw [reader_bind_error hr, reader_bind_error hr]
  · obtain ⟨w, rest', cache', hw, hW, rfl⟩ := h.sound pre rest cache a s hlt hrest hr
    rw [reader_bind_ok hr, reader_bind_ok hr]
    exact hf w a rest' cache' hw hW

/-- A second part that reads nothing: the words and the failures are those of the first
part, and the result is what the second part makes of it.  -/
theorem Describes.bind_silent {f : α → Reader β} {P : α → β → Prop} (h : Describes n r W F)
    (h' : ∀ w a, W w a → Describes n (f a) (fun w b => w = [] ∧ P a b) (fun _ _ => False)) :
    Describes n (r >>= f) (fun w b => ∃ a, W w a ∧ P a b) F := by
  refine (h.bind (m := 0) (fun _ _ _ => Nat.zero_le _) h').congr (fun w b => ?_) (fun u k => ?_)
  · constructor
    · rintro ⟨w₁, a, _, rfl, hW, rfl, hP⟩
      rw [List.append_nil]
      exact ⟨a, hW, hP⟩
    · rintro ⟨a, hW, hP⟩
      exact ⟨w, a, [], (List.append_nil w).symm, hW, rfl, hP⟩
  · constructor
    · rintro (hF | ⟨_, _, _, -, -, hfalse⟩)
      · exact hF
      · exact hfalse.elim
    · exact Or.inl

end

/-! ### Strings -/

/-- **`ReadData`**: the bytes, and one field.  The check wraps if the field ends at
`2 ^ 64` or above. -/
theorem describes_readData {size : ℕ} (hsize : size < 2 ^ 64) (n : ℕ) :
    Describes n (readData size) (fun w a => w.length = size ∧ a = w)
      (fun u k => u = [] ∧ k = size) where
  sound pre rest cache a s hlt _ h := by
    rw [readData] at h
    dsimp only at h
    split at h
    · cases h
    split at h
    · cases h
    · rename_i hfits
      cases h
      rw [List.length_append, not_lt] at hfits
      have hlength : (rest.take size).length = size := by
        rw [List.length_take]
        omega
      refine ⟨rest.take size, rest.drop size, cache, (List.take_append_drop _ _).symm,
        ⟨hlength, ?_⟩, ?_⟩
      · rw [List.drop_left' rfl]
      · rw [List.length_append, hlength]
  complete pre w rest cache a hlt _ h := by
    obtain ⟨rfl, rfl⟩ := h
    exact reads_readData a (pre ++ (a ++ rest)) pre rest cache rfl hlt
  fits pre rest cache a s u k hlt _ h hF hu := by
    obtain ⟨rfl, rfl⟩ := hF
    rw [readData] at h
    dsimp only at h
    split at h
    · cases h
    split at h
    · cases h
    · rename_i hfits
      rw [List.length_append] at hfits
      rw [List.length_nil]
      omega
  overrun_iff pre rest cache hlt _ := by
    rw [readData]
    dsimp only
    rw [List.length_append] at hlt ⊢
    constructor
    · intro h
      refine ⟨[], size, ⟨rfl, rfl⟩, List.nil_prefix, ?_⟩
      rw [List.append_nil]
      by_contra hnot
      rw [Nat.mod_eq_of_lt (by omega)] at h
      split at h
      · cases h
      · cases h
    · rintro ⟨u, k, ⟨rfl, rfl⟩, -, hk⟩
      rw [List.append_nil] at hk
      have hmod : (pre.length + k) % 2 ^ 64 = pre.length + k - 2 ^ 64 := by
        rw [Nat.mod_eq_sub_mod hk, Nat.mod_eq_of_lt (by omega)]
      rw [hmod, if_neg (by omega), if_pos (by omega)]

/-- The bytes of a size are those that are read back as it, and a size that eight bytes give
is below `2 ^ 64`. -/
theorem eq_writeSize_iff {w : Bytes} {size : ℕ} :
    (w.length = 8 ∧ size = ofLE w) ↔ w = writeSize size ∧ size < 2 ^ 64 := by
  constructor
  · rintro ⟨hlength, rfl⟩
    have hlt := ofLE_lt w
    rw [hlength] at hlt
    refine ⟨?_, hlt⟩
    have hback := toLE_ofLE w
    rw [hlength] at hback
    exact hback.symm
  · rintro ⟨rfl, hlt⟩
    exact ⟨length_toLE 8 size, (ofLE_toLE_of_lt hlt).symm⟩

/-- A size takes eight bytes, and any eight bytes are one; with fewer left the read fails.
-/
theorem describes_readSize (n : ℕ) :
    Describes n readSize (fun w size => w = writeSize size ∧ size < 2 ^ 64)
      (fun u k => u = [] ∧ k = 8) := by
  refine ((describes_readData (by norm_num : 8 < 2 ^ 64) n).bind_silent
    (f := fun data => Pure.pure (ofLE data))
    fun _ data _ => Describes.pure n (ofLE data)).congr (fun w size => ?_) (fun u k => Iff.rfl)
  rw [← eq_writeSize_iff]
  constructor
  · rintro ⟨data, ⟨hlength, rfl⟩, rfl⟩
    exact ⟨hlength, rfl⟩
  · rintro ⟨hlength, rfl⟩
    exact ⟨w, ⟨hlength, rfl⟩, rfl⟩

/-- The fields of a string with its length. -/
def StringField (u : Bytes) (k : ℕ) : Prop :=
  u = [] ∧ k = 8 ∨ k < 2 ^ 64 ∧ u = writeSize k

/-- **A string** takes its size and as many bytes.  The check of `ReadData` is made on a sum
that may wrap, which is what the field of a large size is about.  -/
theorem describes_readString (n : ℕ) :
    Describes n readString (fun w s => w = writeString s ∧ s.length < 2 ^ 64) StringField := by
  have hstring := (describes_readSize n).bind (m := 0) (f := readData) (fun _ _ _ => Nat.zero_le _)
    fun _ size hsize => describes_readData hsize.2 (n - 0)
  refine hstring.congr (fun w s => ?_) (fun u k => ?_)
  · constructor
    · rintro ⟨_, size, _, rfl, ⟨rfl, hlt⟩, hlength, rfl⟩
      rw [← hlength] at hlt ⊢
      exact ⟨rfl, hlt⟩
    · rintro ⟨rfl, hlt⟩
      exact ⟨_, s.length, s, rfl, ⟨rfl, hlt⟩, rfl, rfl⟩
  · constructor
    · rintro (h | ⟨_, size, _, rfl, ⟨rfl, hlt⟩, rfl, rfl⟩)
      · exact Or.inl h
      · exact Or.inr ⟨hlt, List.append_nil _⟩
    · rintro (h | ⟨hlt, rfl⟩)
      · exact Or.inl h
      · exact Or.inr ⟨_, k, [], (List.append_nil _).symm, ⟨rfl, hlt⟩, rfl, rfl⟩

/-- Interning reads nothing and changes nothing but the cache.  The result is the string
itself, whether it was in the cache before or was put there now.  -/
theorem describes_getStringFromCache (n : ℕ) (s : Bytes) :
    Describes n (getStringFromCache s) (fun w a => w = [] ∧ a = s) (fun _ _ => False) := by
  have hrun : ∀ pre rest cache, (pre ++ rest).length < 2 ^ 64 → ∃ cache',
      getStringFromCache s (⟨pre ++ rest, pre.length⟩, cache) =
        .ok (s, (⟨pre ++ rest, pre.length⟩, cache')) := by
    intro pre rest cache hlt
    obtain ⟨cache', h⟩ := reads_getStringFromCache s (pre ++ rest) pre rest cache rfl hlt
    exact ⟨cache', by rw [h, List.append_nil]⟩
  constructor
  · intro pre rest cache a t hlt _ h
    obtain ⟨cache', hok⟩ := hrun pre rest cache hlt
    rw [hok] at h
    cases h
    exact ⟨[], rest, cache', rfl, ⟨rfl, rfl⟩, by rw [List.append_nil]⟩
  · rintro pre w rest cache a hlt _ ⟨rfl, rfl⟩
    obtain ⟨cache', hok⟩ := hrun pre rest cache hlt
    exact ⟨cache', by rw [List.append_nil]; exact hok⟩
  · exact fun _ _ _ _ _ _ _ _ _ _ h => h.elim
  · intro pre rest cache hlt _
    obtain ⟨cache', hok⟩ := hrun pre rest cache hlt
    rw [hok]
    constructor
    · intro h
      cases h
    · rintro ⟨_, _, h, -⟩
      exact h.elim

/-! ### The format -/

variable {g : Grammar}

/-- The bytes of the type and the string or symbol of a node. -/
inductive DataWord (g : Grammar) : Bytes → NodeData → Prop
  | string {s} : s.length < 2 ^ 64 → DataWord g (0 :: writeString s) (.string s)
  | symbol {b name} : b ≠ 0 → name.length < 2 ^ 64 → g.Defined name →
      DataWord g (b :: writeString name) (.symbol name)

/-- The bytes of a tree. -/
inductive TreeWord (g : Grammar) : Bytes → TreeNode → Prop
  | node {w data words children} : DataWord g w data → children.length < 2 ^ 64 →
      List.Forall₂ (TreeWord g) words children →
      TreeWord g (w ++ (writeSize children.length ++ words.flatten)) (.node data children)

/-- After the beginning `u` of the bytes of a node comes a field of its type, string or
symbol with `k` bytes. -/
def DataField (u : Bytes) (k : ℕ) : Prop :=
  u = [] ∧ k = 1 ∨ ∃ b u', u = b :: u' ∧ StringField u' k

/-- After the beginning `u` of the bytes of a tree comes a field with `k` bytes. -/
inductive TreeField (g : Grammar) : Bytes → ℕ → Prop
  | data {u k} : DataField u k → TreeField g u k
  | nchildren {w data} : DataWord g w data → TreeField g w 8
  | child {w data nchildren words children u k} : DataWord g w data → nchildren < 2 ^ 64 →
      List.Forall₂ (TreeWord g) words children → words.length < nchildren → TreeField g u k →
      TreeField g (w ++ (writeSize nchildren ++ (words.flatten ++ u))) k

/-- After the beginning `u` of a sample comes a field with `k` bytes: of the text in front,
or of the tree. -/
inductive SampleField (g : Grammar) : Bytes → ℕ → Prop
  | text {u k} : StringField u k → SampleField g u k
  | tree {text u k} : text.length < 2 ^ 64 → TreeField g u k → SampleField g (writeString text ++ u) k

/-- A name that the grammar has gives a node; any other name gives `NULL`, and no bytes are
taken.  -/
theorem describes_symbolNode (n : ℕ) (name : Bytes) :
    Describes n (g.symbolNode name)
      (fun w data => w = [] ∧ g.Defined name ∧ data = .symbol name) (fun _ _ => False) := by
  rw [symbolNode]
  rcases hget : g.getSymbol name with _ | symbol
  · refine (Describes.null n).congr (fun w data => ?_) (fun _ _ => Iff.rfl)
    constructor
    · exact fun h => h.elim
    · rintro ⟨-, hd, -⟩
      obtain ⟨symbol, hsymbol⟩ := hd.getSymbol
      rw [hget] at hsymbol
      cases hsymbol
  · have hname := (getSymbol_mem hget).2
    refine (Describes.pure n (NodeData.symbol symbol.name)).congr (fun w data => ?_)
      (fun _ _ => Iff.rfl)
    rw [hname]
    constructor
    · rintro ⟨rfl, rfl⟩
      exact ⟨rfl, defined_of_getSymbol hget, rfl⟩
    · rintro ⟨rfl, -, rfl⟩
      exact ⟨rfl, rfl⟩

/-- A string node after its type: a length and as many bytes, which fail exactly if the
buffer ends before the string does.  -/
theorem describes_stringNode (n : ℕ) :
    Describes n (readString >>= fun str => getStringFromCache str >>= fun string =>
        Pure.pure (NodeData.string string))
      (fun w data => ∃ s, (w = writeString s ∧ s.length < 2 ^ 64) ∧ data = .string s)
      StringField := by
  refine (describes_readString n).bind_silent fun _ s _ => ?_
  refine ((describes_getStringFromCache n s).bind_silent
    fun _ string _ => Describes.pure n (NodeData.string string)).congr (fun w data => ?_)
    (fun u k => Iff.rfl)
  constructor
  · rintro ⟨_, ⟨rfl, rfl⟩, rfl⟩
    exact ⟨rfl, rfl⟩
  · rintro ⟨rfl, rfl⟩
    exact ⟨s, ⟨rfl, rfl⟩, rfl⟩

/-- A symbol node after its type. -/
theorem describes_namedNode (n : ℕ) :
    Describes n (readString >>= g.symbolNode)
      (fun w data => ∃ name, (w = writeString name ∧ name.length < 2 ^ 64) ∧ g.Defined name ∧
        data = .symbol name) StringField :=
  (describes_readString n).bind_silent fun _ name _ => describes_symbolNode n name

/-- **The type and the string or symbol of a node.** The words are those of `DataWord`, and
the fields that may be wrong are a missing type byte, a string that is cut off and a symbol
that the grammar does not have.  -/
theorem describes_readNodeData (n : ℕ) : Describes n g.readNodeData (DataWord g) DataField := by
  have hrest : ∀ type : Bytes, Describes (n - 0)
      (if type = [0] then readString >>= fun str => getStringFromCache str >>= fun string =>
          Pure.pure (NodeData.string string)
        else readString >>= g.symbolNode)
      (fun w data => if type = [0] then ∃ s, (w = writeString s ∧ s.length < 2 ^ 64) ∧ data = .string s
        else ∃ name, (w = writeString name ∧ name.length < 2 ^ 64) ∧ g.Defined name ∧
          data = .symbol name) StringField := by
    intro type
    split
    · exact describes_stringNode _
    · exact describes_namedNode _
  refine ((describes_readData (by norm_num : 1 < 2 ^ 64) n).bind (m := 0)
    (fun _ _ _ => Nat.zero_le _) fun _ type _ => hrest type).congr (fun w data => ?_) (fun u k => ?_)
  · constructor
    · rintro ⟨_, type, w₂, rfl, ⟨hlength, rfl⟩, hword⟩
      obtain ⟨b, rfl⟩ := List.length_eq_one_iff.1 hlength
      split at hword
      · rename_i htype
        cases htype
        obtain ⟨s, ⟨rfl, hlt⟩, rfl⟩ := hword
        exact .string hlt
      · rename_i htype
        obtain ⟨name, ⟨rfl, hlt⟩, hd, rfl⟩ := hword
        exact .symbol (fun h => htype (by rw [h])) hlt hd
    · rintro (⟨hlt⟩ | ⟨hne, hlt, hd⟩)
      · refine ⟨[0], [0], _, rfl, ⟨rfl, rfl⟩, ?_⟩
        dsimp only
        rw [if_pos rfl]
        exact ⟨_, ⟨rfl, hlt⟩, rfl⟩
      · refine ⟨[_], [_], _, rfl, ⟨rfl, rfl⟩, ?_⟩
        dsimp only
        rw [if_neg fun h => hne (List.singleton_inj.1 h)]
        exact ⟨_, ⟨rfl, hlt⟩, hd, rfl⟩
  · constructor
    · rintro (⟨rfl, rfl⟩ | ⟨_, type, u', rfl, ⟨hlength, rfl⟩, hF⟩)
      · exact Or.inl ⟨rfl, rfl⟩
      · obtain ⟨b, rfl⟩ := List.length_eq_one_iff.1 hlength
        exact Or.inr ⟨b, u', rfl, hF⟩
    · rintro (⟨rfl, rfl⟩ | ⟨b, u', rfl, hF⟩)
      · exact Or.inl ⟨rfl, rfl⟩
      · exact Or.inr ⟨[b], [b], u', rfl, ⟨rfl, rfl⟩, hF⟩

/-! ### Trees -/

/-- A node takes at least nine bytes before the number of its children. -/
theorem DataWord.length_pos {w : Bytes} {data : NodeData} (h : DataWord g w data) : 1 ≤ w.length := by
  cases h with
  | string => exact Nat.succ_pos _
  | symbol => exact Nat.succ_pos _

/-- The fields of a list of trees. -/
def ChildField (g : Grammar) (nchildren : ℕ) (u : Bytes) (k : ℕ) : Prop :=
  ∃ words children u', u = List.flatten words ++ u' ∧ List.Forall₂ (TreeWord g) words children ∧
    words.length < nchildren ∧ TreeField g u' k

/-- The children are so many trees, one behind the other, if `decode` is described as a
tree.  The first child that cannot be read is where the whole fails, and the children before
it were read.  -/
theorem describes_readChildren {n : ℕ} {decode : Reader TreeNode}
    (h : Describes n decode (TreeWord g) (TreeField g)) (nchildren : ℕ) :
    Describes n (readChildren decode nchildren)
      (fun w children => ∃ words, w = List.flatten words ∧ List.Forall₂ (TreeWord g) words children ∧
        children.length = nchildren) (ChildField g nchildren) := by
  induction nchildren with
  | zero =>
      refine (Describes.pure n []).congr (fun w children => ?_) (fun u k => ?_)
      · constructor
        · rintro ⟨rfl, rfl⟩
          exact ⟨[], rfl, .nil, rfl⟩
        · rintro ⟨words, rfl, hwords, hlength⟩
          obtain rfl := List.length_eq_zero_iff.1 hlength
          cases hwords
          exact ⟨rfl, rfl⟩
      · constructor
        · exact fun hfalse => hfalse.elim
        · rintro ⟨_, _, _, -, -, hlt, -⟩
          exact absurd hlt (Nat.not_lt_zero _)
  | succ nchildren ih =>
      have hrest : ∀ child, Describes (n - 0)
          (readChildren decode nchildren >>= fun children => Pure.pure (child :: children))
          (fun w cs => ∃ children, (∃ words, w = List.flatten words ∧
            List.Forall₂ (TreeWord g) words children ∧ children.length = nchildren) ∧
              cs = child :: children) (ChildField g nchildren) := fun child =>
        ih.bind_silent fun _ children _ => Describes.pure n (child :: children)
      refine (h.bind (m := 0) (fun _ _ _ => Nat.zero_le _) fun _ child _ => hrest child).congr
        (fun w children => ?_) (fun u k => ?_)
      · constructor
        · rintro ⟨word, child, _, rfl, hword, children, ⟨words, rfl, hwords, hlength⟩, rfl⟩
          exact ⟨word :: words, rfl, .cons hword hwords, by rw [List.length_cons, hlength]⟩
        · rintro ⟨_, rfl, hwords, hlength⟩
          rcases hwords with _ | ⟨hword, hwords⟩
          · cases hlength
          · exact ⟨_, _, _, rfl, hword, _, ⟨_, rfl, hwords, Nat.succ.inj hlength⟩, rfl⟩
      · constructor
        · rintro (hF | ⟨word, child, _, rfl, hword, words, children, u', rfl, hwords, hlt, hF⟩)
          · exact ⟨[], [], u, rfl, .nil, Nat.succ_pos _, hF⟩
          · refine ⟨word :: words, child :: children, u', ?_, .cons hword hwords,
              Nat.succ_lt_succ hlt, hF⟩
            rw [List.flatten_cons, List.append_assoc]
        · rintro ⟨_, _, u', rfl, hwords, hlt, hF⟩
          rcases hwords with _ | ⟨hword, hwords⟩
          · exact Or.inl hF
          · refine Or.inr ⟨_, _, _, ?_, hword, _, _, u', rfl, hwords, Nat.lt_of_succ_lt_succ hlt, hF⟩
            rw [List.flatten_cons, List.append_assoc]

/-- **`DecodeTree` reads the trees of the format**, as long as there are more levels than
bytes: it returns a tree exactly for the words of trees, and null exactly where some field
of the tree cannot be read.  -/
theorem describes_decodeTree (levels : ℕ) :
    Describes levels (g.decodeTree levels) (TreeWord g) (TreeField g) := by
  induction levels with
  | zero =>
      constructor
      · exact fun _ _ _ _ _ _ h => absurd h (Nat.not_lt_zero _)
      · exact fun _ _ _ _ _ _ h => absurd h (Nat.not_lt_zero _)
      · exact fun _ _ _ _ _ _ _ _ h => absurd h (Nat.not_lt_zero _)
      · exact fun _ _ _ _ h => absurd h (Nat.not_lt_zero _)
  | succ levels ih =>
      have hchildren : ∀ data nchildren, Describes (levels - 0)
          (readChildren (g.decodeTree levels) nchildren >>= fun children =>
            Pure.pure (Foundation.Tree.node data children))
          (fun w tree => ∃ children, (∃ words, w = List.flatten words ∧
            List.Forall₂ (TreeWord g) words children ∧ children.length = nchildren) ∧
              tree = .node data children) (ChildField g nchildren) := fun data nchildren =>
        (describes_readChildren ih nchildren).bind_silent fun _ children _ =>
          Describes.pure levels (Foundation.Tree.node data children)
      have hrest : ∀ data, Describes (levels + 1 - 1)
          (readSize >>= fun nchildren => readChildren (g.decodeTree levels) nchildren >>= fun children =>
            Pure.pure (Foundation.Tree.node data children)) _ _ := fun data =>
        (describes_readSize levels).bind (m := 0) (fun _ _ _ => Nat.zero_le _)
          fun _ nchildren _ => hchildren data nchildren
      refine ((describes_readNodeData (levels + 1)).bind (m := 1) (fun _ _ h => h.length_pos)
        fun _ data _ => hrest data).congr (fun w tree => ?_) (fun u k => ?_)
      · constructor
        · rintro ⟨w₁, data, _, rfl, hdata, _, nchildren, _, rfl, ⟨rfl, hlt⟩, children,
            ⟨words, rfl, hwords, rfl⟩, rfl⟩
          exact .node hdata hlt hwords
        · rintro ⟨hdata, hlt, hwords⟩
          exact ⟨_, _, _, rfl, hdata, _, _, _, rfl, ⟨rfl, hlt⟩, _, ⟨_, rfl, hwords, rfl⟩, rfl⟩
      · constructor
        · rintro (hF | ⟨w, data, _, rfl, hdata, ⟨rfl, rfl⟩ | ⟨_, nchildren, _, rfl, ⟨rfl, hlt⟩, words,
            children, u', rfl, hwords, hless, hF⟩⟩)
          · exact .data hF
          · rw [List.append_nil]
            exact .nchildren hdata
          · exact .child hdata hlt hwords hless hF
        · rintro (hF | hdata | ⟨hdata, hlt, hwords, hless, hF⟩)
          · exact Or.inl hF
          · exact Or.inr ⟨_, _, [], (List.append_nil _).symm, hdata, Or.inl ⟨rfl, rfl⟩⟩
          · exact Or.inr ⟨_, _, _, rfl, hdata, Or.inr ⟨_, _, _, rfl, ⟨rfl, hlt⟩, _, _, _, rfl, hwords,
              hless, hF⟩⟩

/-! ### Samples -/

/-- `DecodeSample` with any number of levels. -/
def decodeLevels (g : Grammar) (levels : ℕ) (cache : StringCache) (sample : Sample) :
    Except ReadStop (TreeNode × (BinaryRW × StringCache)) :=
  (readString >>= fun _ => g.decodeTree levels).run (⟨sample.bytes, 0⟩, cache)

/-- **A sample** is a text, which is not looked at, and a tree.  It is read where both are
complete, and bytes behind the tree are left alone.  -/
theorem describes_sample {levels n : ℕ} (h : n ≤ levels) :
    Describes n (readString >>= fun _ => g.decodeTree levels)
      (fun w tree => ∃ text word, w = writeString text ++ word ∧ text.length < 2 ^ 64 ∧
        TreeWord g word tree) (SampleField g) := by
  refine ((describes_readString n).bind (m := 0) (fun _ _ _ => Nat.zero_le _)
    fun _ _ _ => (describes_decodeTree levels).mono h).congr (fun w tree => ?_) (fun u k => ?_)
  · constructor
    · rintro ⟨_, text, word, rfl, ⟨rfl, hlt⟩, hword⟩
      exact ⟨text, word, rfl, hlt, hword⟩
    · rintro ⟨text, word, rfl, hlt, hword⟩
      exact ⟨_, text, word, rfl, ⟨rfl, hlt⟩, hword⟩
  · constructor
    · rintro (hF | ⟨_, text, u', rfl, ⟨rfl, hlt⟩, hF⟩)
      · exact .text hF
      · exact .tree hlt hF
    · rintro (hF | ⟨hlt, hF⟩)
      · exact Or.inl hF
      · exact Or.inr ⟨_, _, _, rfl, ⟨rfl, hlt⟩, hF⟩

/-- Two decoders that agree on short buffers agree on the children, since each of these
leaves a shorter buffer than there was.  -/
theorem readChildren_congr {n : ℕ} {decode decode' : Reader TreeNode}
    (hdecode : Describes n decode (TreeWord g) (TreeField g))
    (h : ∀ pre rest cache, (pre ++ rest).length < 2 ^ 64 → rest.length < n →
      decode (⟨pre ++ rest, pre.length⟩, cache) = decode' (⟨pre ++ rest, pre.length⟩, cache))
    (nchildren : ℕ) (pre rest : Bytes) (cache : StringCache)
    (hlt : (pre ++ rest).length < 2 ^ 64) (hrest : rest.length < n) :
    readChildren decode nchildren (⟨pre ++ rest, pre.length⟩, cache) =
      readChildren decode' nchildren (⟨pre ++ rest, pre.length⟩, cache) := by
  induction nchildren generalizing pre rest cache with
  | zero => rfl
  | succ nchildren ih =>
      have hfirst : readChildren decode' (nchildren + 1) (⟨pre ++ rest, pre.length⟩, cache) =
          (decode >>= fun child => readChildren decode' nchildren >>= fun children =>
            Pure.pure (child :: children)) (⟨pre ++ rest, pre.length⟩, cache) := by
        show Except.bind (decode' _) _ = Except.bind (decode _) _
        rw [h pre rest cache hlt hrest]
      rw [hfirst]
      refine hdecode.bind_eq pre rest cache hlt hrest fun w child rest' cache' hw _ => ?_
      subst hw
      rw [List.length_append] at hrest
      rw [← List.append_assoc] at hlt ⊢
      show Except.bind _ _ = Except.bind _ _
      rw [ih (pre ++ w) rest' cache' hlt (by omega)]

/-- **The number of levels does not matter** once it exceeds the number of bytes: each level
of the recursion reads at least its type byte, so the recursion of the source, which has no
limit, is the one with enough levels.  -/
theorem decodeTree_levels (levels levels' : ℕ) (pre rest : Bytes) (cache : StringCache)
    (hlt : (pre ++ rest).length < 2 ^ 64) (hrest : rest.length < levels)
    (hrest' : rest.length < levels') :
    g.decodeTree levels (⟨pre ++ rest, pre.length⟩, cache) =
      g.decodeTree levels' (⟨pre ++ rest, pre.length⟩, cache) := by
  induction levels generalizing levels' pre rest cache with
  | zero => exact absurd hrest (Nat.not_lt_zero _)
  | succ levels ih =>
      obtain ⟨levels', rfl⟩ : ∃ n, levels' = n + 1 := ⟨levels' - 1, by omega⟩
      refine (describes_readNodeData (levels + 1)).bind_eq pre rest cache hlt hrest
        fun w data rest' cache' hw hW => ?_
      subst hw
      have hpos := hW.length_pos
      rw [List.length_append] at hrest hrest'
      rw [← List.append_assoc] at hlt ⊢
      refine (describes_readSize levels).bind_eq _ rest' cache' hlt (by omega)
        fun w' nchildren rest'' cache'' hw' _ => ?_
      subst hw'
      rw [List.length_append] at hrest hrest'
      rw [← List.append_assoc] at hlt ⊢
      have hmin := (describes_decodeTree (g := g) levels).mono (Nat.min_le_left levels levels')
      show Except.bind _ _ = Except.bind _ _
      rw [readChildren_congr hmin (fun pre rest cache hlt hrest => ih levels' pre rest cache hlt
        (lt_min_iff.1 hrest).1 (lt_min_iff.1 hrest).2) nchildren _ rest'' cache'' hlt
        (lt_min_iff.2 ⟨by omega, by omega⟩)]

/-- **More levels than bytes make no difference**, since every level of a tree takes some.
-/
theorem decodeLevels_eq {levels : ℕ} (cache : StringCache) (sample : Sample)
    (h : sample.size < levels) : g.decodeLevels levels cache sample = g.decodeSample cache sample := by
  refine (describes_readString (sample.size + 1)).bind_eq [] sample.bytes cache sample.size_lt
    (Nat.lt_succ_self _) fun w _ rest cache' hw _ => ?_
  have hlt := sample.size_lt
  rw [Sample.size, hw, List.length_append] at h
  rw [hw] at hlt
  rw [Sample.size, hw]
  show g.decodeTree levels (⟨w ++ rest, w.length⟩, cache') =
    g.decodeTree ((w ++ rest).length + 1) (⟨w ++ rest, w.length⟩, cache')
  exact decodeTree_levels _ _ w rest cache' hlt (by omega) (by rw [List.length_append]; omega)

/-- Decoding stays in the buffer, and whatever field does not fit makes it return
`NULL`. -/
structure SafeDecode (g : Grammar) (cache : StringCache) (sample : Sample) : Prop where
  inBounds : g.decodeSample cache sample ≠ .error .overrun
  position : ∀ tree rw cache', g.decodeSample cache sample = .ok (tree, (rw, cache')) →
    rw.readPos ≤ rw.bytes.length
  null : ∀ u k, SampleField g u k → u <+: sample.bytes → sample.size < u.length + k →
    g.decodeSample cache sample = .error .null

/-- A field of the sample ends at position `2 ^ 64` or above. -/
def Overflows (g : Grammar) (bytes : Bytes) : Prop :=
  ∃ u k, SampleField g u k ∧ u <+: bytes ∧ 2 ^ 64 ≤ u.length + k

/-- **Decoding is safe exactly on the buffers in which no field ends at `2 ^ 64` or
above.**  It terminates on every buffer: the depth of the recursion is bounded by the
size. -/
theorem decodeSample_safe_iff (g : Grammar) (cache : StringCache) (sample : Sample) :
    (∀ levels, sample.size < levels →
      g.decodeLevels levels cache sample = g.decodeSample cache sample) ∧
    (g.SafeDecode cache sample ↔ ¬ g.Overflows sample.bytes) := by
  have hlt : ([] ++ sample.bytes).length < 2 ^ 64 := sample.size_lt
  have hsize : sample.bytes.length < sample.size + 1 := Nat.lt_succ_self _
  have hdesc := describes_sample (g := g) (le_refl (sample.size + 1))
  have hoverrun := hdesc.overrun_iff [] sample.bytes cache hlt hsize
  refine ⟨fun levels hlevels => decodeLevels_eq cache sample hlevels, ?_,
    fun hnot => ⟨?_, ?_, ?_⟩⟩
  · rintro hsafe ⟨u, k, hF, hu, hk⟩
    exact hsafe.inBounds (hoverrun.2 ⟨u, k, hF, hu, hk⟩)
  · exact fun h => hnot (hoverrun.1 h)
  · intro tree rw cache' h
    obtain ⟨w, rest, _, hrest, -, hs⟩ := hdesc.sound [] sample.bytes cache tree _ hlt hsize h
    cases hs
    show w.length ≤ sample.bytes.length
    rw [hrest, List.length_append]
    omega
  · intro u k hF hu hk
    rcases hrun : g.decodeSample cache sample with e | ⟨tree, s⟩
    · cases e with
      | null => rfl
      | overrun => exact absurd (hoverrun.1 hrun) hnot
    · have := hdesc.fits [] sample.bytes cache tree s u k hlt hsize hrun hF hu
      rw [Sample.size] at hk
      omega

/-- No text, and a string node whose length field is `2 ^ 64 - 1`. -/
def overrunSample : Sample where
  bytes := List.replicate 9 0 ++ List.replicate 8 255
  size_lt := by decide

/-- **A size that makes the sum wrap.** The size of a string is read from the sample, and
added to the position before the sum is compared with the length.  With the size `2 ^ 64 -
1` the check passes, and the string is read from behind the end of the buffer.  -/
theorem not_safeDecode_overrunSample :
    ¬ SafeDecode empty StringCache.empty overrunSample := fun h => h.inBounds rfl

end Grammar
end Jackalope
