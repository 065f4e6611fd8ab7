/-
# The attributes of the symbols on a line

`ParseGrammarLine` has one map `attributes` for the whole line.  `AddRulePart` gives
its contents to a symbol part and clears it, but a constant or a hexadecimal symbol
becomes a string, and there the map keeps what was written on the symbol: the next
symbol part gets it.

What is between `<` and `>` is a tag.  `Scan` finds the tags of a line, `words` reads a
tag without looking at the automaton, and `readTags` says what a list of tags becomes
when they share one map.  That is what the automaton does (`Follows.run`), so a symbol
part has its own attributes unless the constants before it have others
(`own_attributes_iff`).
-/

import Jackalope.Foundation.Run
import Jackalope.Grammar.Lines

namespace Jackalope
namespace Grammar

/-! ### Tags -/

/-- Whether `AddRulePart` makes a string of the symbol with this name. -/
def isStringName (name : Bytes) : Bool :=
  (constants.lookup name).isSome || decide (str "0x" <+: name)

/-- What is between blanks. -/
def words (s : Bytes) : List Bytes := (s.splitOnP isBlank).filter (· ≠ [])

/-- The name of a tag is its first word. -/
def tagName (tag : Bytes) : Bytes := (words tag).headD []

/-- An attribute: the name before the `=`, which may begin with one, and the value. -/
def attributeOf : Bytes → Bytes × Bytes
  | [] => ([], [])
  | c :: rest => (c :: rest.takeWhile (· ≠ 61), (rest.dropWhile (· ≠ 61)).tail)

/-- The attributes that are written on a tag, in order. -/
def written (tag : Bytes) : List (Bytes × Bytes) := (words tag).tail.map attributeOf

/-- The map after these assignments. -/
def Attributes.setAll (attributes : Attributes) (assignments : List (Bytes × Bytes)) : Attributes :=
  assignments.foldl (fun attributes a => attributes.set a.1 a.2) attributes

/-- The value of the `id` attribute, or 0. -/
def idOf (attributes : Attributes) : ℕ :=
  match attributes.lookup (str "id") with
  | some value => (atoi value).toNat
  | none => 0

/-- The symbol part of a tag with these attributes. -/
def symbolPart (tag : Bytes) (attributes : Attributes) : RulePart :=
  .symbol (tagName tag) (idOf attributes) attributes

/-- **The symbol parts as the tags have them**: each from its own text. -/
def ownParts (tags : List Bytes) : List RulePart :=
  (tags.filter fun tag => !isStringName (tagName tag)).map fun tag =>
    symbolPart tag (Attributes.setAll [] (written tag))

/-! ### The tags of a line -/

/-- Where on a line one is. -/
inductive Place
  /-- In front of the first `>`. -/
  | name
  /-- In front of the `=`. -/
  | equal
  | outside
  /-- Behind a `<`, and behind this part of a tag. -/
  | inside (tag : Bytes)

/-- A place, and the tags that are complete. -/
structure Scan where
  place : Place
  tags : List Bytes

/-- One byte further. -/
def Scan.next (s : Scan) (c : UInt8) : Scan :=
  match s.place with
  | .name => if c = 62 then ⟨.equal, s.tags⟩ else s
  | .equal => if c = 61 then ⟨.outside, s.tags⟩ else s
  | .outside => if c = 60 then ⟨.inside [], s.tags⟩ else s
  | .inside tag => if c = 62 then ⟨.outside, s.tags ++ [tag]⟩ else ⟨.inside (tag ++ [c]), s.tags⟩

/-- The tags on the right side of a line. -/
def tagsOf (line : Bytes) : List Bytes :=
  ((beforeZero (cleanLine line)).foldl Scan.next ⟨.name, []⟩).tags

/-! ### One map for all tags -/

/-- What a tag does to the map and to the symbol parts. -/
def readTag (state : Attributes × List RulePart) (tag : Bytes) : Attributes × List RulePart :=
  if isStringName (tagName tag) then (state.1.setAll (written tag), state.2)
  else ([], state.2 ++ [symbolPart tag (state.1.setAll (written tag))])

/-- The map and the symbol parts behind these tags. -/
def readTags (tags : List Bytes) : Attributes × List RulePart := tags.foldl readTag ([], [])

/-- The tags of a line are read one after the other.  -/
theorem readTags_snoc (tags : List Bytes) (tag : Bytes) :
    readTags (tags ++ [tag]) = readTag (readTags tags) tag := List.foldl_append

/-- What was in the map stays behind what is assigned, unless it is assigned again.
`attributes[key] = value` of a map either replaces the value of the key or adds the key, and
the order of the keys plays no part.  -/
theorem setAll_eq (attributes : Attributes) (assignments : List (Bytes × Bytes)) :
    attributes.setAll assignments = Attributes.setAll [] assignments ++
      attributes.filter fun a => a.1 ∉ assignments.map Prod.fst := by
  induction assignments using List.reverseRecOn with
  | nil => simp [Attributes.setAll]
  | append_singleton assignments a ih =>
      have hsnoc : ∀ attributes : Attributes, attributes.setAll (assignments ++ [a]) =
          (attributes.setAll assignments).set a.1 a.2 := fun _ => List.foldl_append
      rw [hsnoc, hsnoc, ih, Attributes.set, Attributes.set, List.filter_append, List.filter_filter,
        List.cons_append]
      congr 2
      refine List.filter_congr fun b _ => ?_
      rw [← Bool.decide_and, decide_eq_decide, List.map_append, List.mem_append, List.map_singleton,
        List.mem_singleton, not_or, and_comm]

/-- So the own attributes are all there is iff they are assigned again. -/
theorem setAll_eq_own_iff {attributes : Attributes} {assignments : List (Bytes × Bytes)} :
    attributes.setAll assignments = Attributes.setAll [] assignments ↔
      ∀ a ∈ attributes, a.1 ∈ assignments.map Prod.fst := by
  rw [setAll_eq, List.append_right_eq_self, List.filter_eq_nil_iff]
  simp

/-! ### What is left in the map -/

/-- The names of the attributes that are written on a tag. -/
def writtenNames (tag : Bytes) : List Bytes := (written tag).map Prod.fst

/-- **No constant has an attribute that the next symbol part has not**: a constant or
hexadecimal symbol with no symbol part between it and that one. -/
def NoLeak (tags : List Bytes) : Prop :=
  ∀ a tag b tag' c, tags = a ++ tag :: (b ++ tag' :: c) →
    (∀ x ∈ tag :: b, isStringName (tagName x) = true) → isStringName (tagName tag') = false →
      ∀ name ∈ writtenNames tag, name ∈ writtenNames tag'

/-- **One tag more leaks nothing** if those before do not and it sets itself whatever was
written in the strings and hex strings right before it, which are what is not cleared.  -/
theorem noLeak_snoc {tags : List Bytes} {tag' : Bytes} :
    NoLeak (tags ++ [tag']) ↔ NoLeak tags ∧ (isStringName (tagName tag') = false →
      ∀ a tag b, tags = a ++ tag :: b → (∀ x ∈ tag :: b, isStringName (tagName x) = true) →
        ∀ name ∈ writtenNames tag, name ∈ writtenNames tag') := by
  constructor
  · intro h
    refine ⟨?_, ?_⟩
    · intro a tag b tag'' c htags
      refine h a tag b tag'' (c ++ [tag']) ?_
      exact Foundation.trace_split_two_snoc.2 (Or.inr ⟨c, rfl, htags⟩)
    · intro htag' a tag b htags hb
      refine h a tag b tag' [] ?_ hb htag'
      exact Foundation.trace_split_two_snoc.2 (Or.inl ⟨htags, rfl, rfl⟩)
  · rintro ⟨htags, hlast⟩ a tag b tag'' c hsplit hb htag''
    rcases Foundation.trace_split_two_snoc.1 hsplit with ⟨htags', rfl, rfl⟩ | ⟨c', rfl, htags'⟩
    · exact hlast htag'' a tag b htags' hb
    · exact htags a tag b tag'' c' htags' hb htag''

/-- The names in the map after an assignment are those that were there, and the one that was
assigned to.  -/
theorem mem_names_set {attributes : Attributes} {name value key : Bytes} :
    key ∈ (attributes.set name value).map Prod.fst ↔ key = name ∨ key ∈ attributes.map Prod.fst := by
  rw [Attributes.set, List.map_cons, List.mem_cons]
  by_cases hkey : key = name
  · simp [hkey]
  · simp only [hkey, false_or, List.mem_map, List.mem_filter]
    constructor
    · rintro ⟨a, ⟨ha, -⟩, rfl⟩
      exact ⟨a, ha, rfl⟩
    · rintro ⟨a, ha, rfl⟩
      exact ⟨a, ⟨ha, by simpa using hkey⟩, rfl⟩

/-- The names that are set are those that were there and those that are assigned.  -/
theorem mem_names_setAll {attributes : Attributes} {assignments : List (Bytes × Bytes)}
    {key : Bytes} : key ∈ (attributes.setAll assignments).map Prod.fst ↔
      key ∈ assignments.map Prod.fst ∨ key ∈ attributes.map Prod.fst := by
  induction assignments generalizing attributes with
  | nil => simp [Attributes.setAll]
  | cons a assignments ih =>
      show key ∈ ((attributes.set a.1 a.2).setAll assignments).map Prod.fst ↔ _
      rw [ih, mem_names_set, List.map_cons, List.mem_cons]
      tauto

/-- **The map has the attributes of the constants since the last symbol part.**
`AddRulePart` clears the map for a symbol and leaves it for `<string …>` and its like, so
what such a tag has written waits for the next symbol.  -/
theorem mem_names_readTags {tags : List Bytes} {key : Bytes} :
    key ∈ (readTags tags).1.map Prod.fst ↔ ∃ a tag b, tags = a ++ tag :: b ∧
      (∀ x ∈ tag :: b, isStringName (tagName x) = true) ∧ key ∈ writtenNames tag := by
  induction tags using List.reverseRecOn with
  | nil => simp [readTags]
  | append_singleton tags last ih =>
      rw [readTags_snoc, readTag]
      split
      · rename_i hlast
        rw [mem_names_setAll, ih]
        constructor
        · rintro (hkey | ⟨a, tag, b, rfl, hb, hkey⟩)
          · exact ⟨tags, last, [], rfl, by simpa using hlast, hkey⟩
          · refine ⟨a, tag, b ++ [last], by simp, fun x hx => ?_, hkey⟩
            rw [← List.cons_append] at hx
            rcases List.mem_append.1 hx with hx | hx
            · exact hb x hx
            · rwa [List.mem_singleton.1 hx]
        · rintro ⟨a, tag, b, hsplit, hb, hkey⟩
          rcases Foundation.trace_split_snoc.1 hsplit with ⟨-, rfl, rfl⟩ | ⟨b', rfl, htags⟩
          · exact Or.inl hkey
          · refine Or.inr ⟨a, tag, b', htags, fun x hx => hb x ?_, hkey⟩
            rw [← List.cons_append]
            exact List.mem_append_left _ hx
      · rename_i hlast
        refine iff_of_false (by simp) ?_
        rintro ⟨a, tag, b, hsplit, hb, -⟩
        refine hlast (hb last ?_)
        rcases Foundation.trace_split_snoc.1 hsplit with ⟨-, rfl, rfl⟩ | ⟨b', rfl, -⟩ <;> simp

/-- One tag more: strings make no symbol part, a symbol makes one with the attributes that
it wrote itself.  -/
theorem ownParts_snoc (tags : List Bytes) (tag : Bytes) :
    ownParts (tags ++ [tag]) = ownParts tags ++
      if isStringName (tagName tag) then []
      else [symbolPart tag (Attributes.setAll [] (written tag))] := by
  rw [ownParts, List.filter_append, List.map_append, ← ownParts]
  cases h : isStringName (tagName tag) <;> simp [h]

/-- **The symbol parts have their own attributes iff nothing leaks**: iff no constant before
a symbol part, since the symbol part before it, has written an attribute that the symbol's
own tag does not write.  -/
theorem readTags_own_iff (tags : List Bytes) :
    (readTags tags).2 = ownParts tags ↔ NoLeak tags := by
  induction tags using List.reverseRecOn with
  | nil =>
      refine iff_of_true rfl ?_
      intro a tag b tag' c htags
      simp at htags
  | append_singleton tags tag ih =>
      rw [readTags_snoc, readTag, ownParts_snoc, noLeak_snoc, ← ih]
      split
      · rename_i htag
        simp [htag]
      · rename_i htag
        have hpart : ∀ attributes attributes' : Attributes,
            symbolPart tag attributes = symbolPart tag attributes' ↔ attributes = attributes' := by
          intro attributes attributes'
          constructor
          · intro h
            injection h
          · exact fun h => h ▸ rfl
        rw [Bool.not_eq_true] at htag
        show _ ++ [_] = _ ++ [_] ↔ _
        rw [List.append_singleton_inj, hpart, setAll_eq_own_iff]
        refine and_congr_right fun _ => ?_
        have hmem : (∀ a ∈ (readTags tags).1, a.1 ∈ (written tag).map Prod.fst) ↔
            ∀ key ∈ (readTags tags).1.map Prod.fst, key ∈ writtenNames tag := by
          rw [List.forall_mem_map]
          rfl
        rw [hmem]
        constructor
        · intro h _ a tag₀ b htags hb name hname
          exact h name (mem_names_readTags.2 ⟨a, tag₀, b, htags, hb, hname⟩)
        · intro h key hkey
          obtain ⟨a, tag₀, b, htags, hb, hname⟩ := mem_names_readTags.1 hkey
          exact h htag a tag₀ b htags hb key hname

/-! ### A tag, byte by byte -/

/-- A text without blanks is one word, or none if it is empty.  -/
theorem words_of_noBlank {w : Bytes} (hw : ∀ c ∈ w, isBlank c = false) :
    words w = if w = [] then [] else [w] := by
  rw [words, List.splitOnP_eq_singleton hw]
  split
  · rename_i h
    simp [h]
  · rename_i h
    simp [h]

/-- **At a blank the words part**, and those on either side are what they are alone.  -/
theorem words_append_blank {s w : Bytes} {b : UInt8} (hb : isBlank b = true) :
    words (s ++ b :: w) = words s ++ words w := by
  rw [words, List.splitOnP_append_cons s w hb, List.filter_append]
  rfl

/-- A blank at the end makes no word more.  -/
theorem words_trailing {s : Bytes} {b : UInt8} (hb : isBlank b = true) :
    words (s ++ [b]) = words s := by
  rw [words_append_blank hb]
  exact List.append_nil _

/-- **What the variables hold inside a tag** of which this has been read, if the map was
`base` in front of it. -/
def InTag (base : Attributes) (l : Line) (tag : Bytes) : Prop :=
  match l.state with
  | .symbol => (∀ c ∈ tag, isBlank c = false) ∧ l.text = tag ∧ l.attributes = base
  | .symbolSpace => ∃ s b ws, tag = s ++ [b] ∧ isBlank b = true ∧ words s = l.symbolname :: ws ∧
      l.attributes = base.setAll (ws.map attributeOf)
  | .attrName => ∃ s b ws c w, tag = s ++ b :: c :: w ∧ isBlank b = true ∧
      words s = l.symbolname :: ws ∧ l.attributes = base.setAll (ws.map attributeOf) ∧
      (∀ x ∈ c :: w, isBlank x = false) ∧ 61 ∉ w ∧ l.text = c :: w
  | .attrValue => ∃ s b ws c w, tag = s ++ b :: c :: (w ++ 61 :: l.text) ∧ isBlank b = true ∧
      words s = l.symbolname :: ws ∧ l.attributes = base.setAll (ws.map attributeOf) ∧
      (∀ x ∈ c :: (w ++ 61 :: l.text), isBlank x = false) ∧ 61 ∉ w ∧ l.attrname = c :: w
  | _ => False

/-- The name of an attribute goes up to the `=`. -/
theorem noEqual_iff {w : Bytes} : (∀ x ∈ w, decide (x ≠ 61) = true) ↔ 61 ∉ w := by
  simp only [decide_eq_true_eq]
  exact ⟨fun h hmem => h 61 hmem rfl, fun h x hx heq => h (heq ▸ hx)⟩

/-- A word without `=` is the name of an attribute without a value.  -/
theorem attributeOf_name {c : UInt8} {w : Bytes} (hw : 61 ∉ w) :
    attributeOf (c :: w) = (c :: w, []) := by
  have hall := noEqual_iff.2 hw
  rw [attributeOf, List.takeWhile_eq_self_iff.2 hall, List.dropWhile_eq_nil_iff.2 hall]
  rfl

/-- At the first `=` the name ends and the value begins, and further ones belong to the
value.  -/
theorem attributeOf_value {c : UInt8} {w v : Bytes} (hw : 61 ∉ w) :
    attributeOf (c :: (w ++ 61 :: v)) = (c :: w, v) := by
  have hall := noEqual_iff.2 hw
  rw [attributeOf, List.takeWhile_append_of_pos hall, List.dropWhile_append_of_pos hall]
  simp

/-- One more byte of a word. -/
theorem noBlank_snoc {w : Bytes} {c : UInt8} (hw : ∀ x ∈ w, isBlank x = false)
    (hc : ¬ isBlank c = true) : ∀ x ∈ w ++ [c], isBlank x = false := by
  rw [List.forall_mem_append, List.forall_mem_singleton]
  exact ⟨hw, Bool.eq_false_of_not_eq_true hc⟩

/-- Another word that is read. -/
theorem words_snoc {s w name : Bytes} {b : UInt8} {ws : List Bytes} (hb : isBlank b = true)
    (hw : ∀ x ∈ w, isBlank x = false) (hne : w ≠ []) (hs : words s = name :: ws) :
    words (s ++ b :: w) = name :: (ws ++ [w]) := by
  rw [words_append_blank hb, hs, words_of_noBlank hw, if_neg hne]
  rfl

/-- One word more is one attribute more, which replaces an earlier one of the same name.  -/
theorem setAll_snoc (base : Attributes) (ws : List Bytes) (w : Bytes) :
    base.setAll ((ws ++ [w]).map attributeOf) =
      (base.setAll (ws.map attributeOf)).set (attributeOf w).1 (attributeOf w).2 := by
  rw [List.map_append]
  exact List.foldl_append

/-- A byte that is not the `>`. What has been read of the tag is one byte longer; the name,
the key and the value that the automaton has collected are those of the longer tag, and no
part of the rule is added.  -/
theorem InTag.step {base : Attributes} {l l' : Line} {tag : Bytes} {c : UInt8}
    (h : InTag base l tag) (hc : c ≠ 62) (hstep : Grammar.step l c = some l') :
    InTag base l' (tag ++ [c]) ∧ l'.parts = l.parts := by
  obtain ⟨g, state, text, symbolname, attrname, attributes, generates, parts⟩ := l
  cases state with
  | symbol =>
      obtain ⟨hblank, rfl, rfl⟩ := h
      simp only [Grammar.step, hc, if_false] at hstep
      split at hstep
      · rename_i hb
        split at hstep
        · cases hstep
        · rename_i hne
          cases hstep
          refine ⟨⟨text, c, [], rfl, hb, ?_, rfl⟩, rfl⟩
          rw [words_of_noBlank hblank, if_neg hne]
      · rename_i hb
        split at hstep
        · cases hstep
        · cases hstep
          exact ⟨⟨noBlank_snoc hblank hb, rfl, rfl⟩, rfl⟩
  | symbolSpace =>
      obtain ⟨s, b, ws, rfl, hb, hwords, hattributes⟩ := h
      simp only [Grammar.step, hc, if_false] at hstep
      split at hstep
      · rename_i hb'
        cases hstep
        refine ⟨⟨s ++ [b], c, ws, rfl, hb', ?_, hattributes⟩, rfl⟩
        rw [words_trailing hb, hwords]
      · rename_i hb'
        split at hstep
        · cases hstep
        · cases hstep
          refine ⟨⟨s, b, ws, c, [], by simp, hb, hwords, hattributes, ?_, nofun, rfl⟩, rfl⟩
          simpa using hb'
  | attrName =>
      obtain ⟨s, b, ws, d, w, rfl, hb, hwords, hattributes, hblank, hw, rfl⟩ := h
      simp only [Grammar.step, hc, if_false] at hstep
      split at hstep
      · rename_i hb'
        split at hstep
        · cases hstep
        · cases hstep
          refine ⟨⟨s ++ b :: d :: w, c, ws ++ [d :: w], rfl, hb', ?_, ?_⟩, rfl⟩
          · exact words_snoc hb hblank nofun hwords
          · rw [setAll_snoc, attributeOf_name hw, ← hattributes]
      · rename_i hb'
        split at hstep
        · rename_i heq
          subst heq
          split at hstep
          · cases hstep
          · cases hstep
            refine ⟨⟨s, b, ws, d, w, by simp, hb, hwords, hattributes, ?_, hw, rfl⟩, rfl⟩
            exact noBlank_snoc hblank hb'
        · rename_i heq
          split at hstep
          · cases hstep
          · cases hstep
            refine ⟨⟨s, b, ws, d, w ++ [c], by simp, hb, hwords, hattributes, ?_, ?_, rfl⟩, rfl⟩
            · exact noBlank_snoc hblank hb'
            · rw [List.mem_append, List.mem_singleton]
              rintro (h | h)
              · exact hw h
              · exact heq h.symm
  | attrValue =>
      obtain ⟨s, b, ws, d, w, rfl, hb, hwords, hattributes, hblank, hw, rfl⟩ := h
      simp only [Grammar.step, hc, if_false] at hstep
      split at hstep
      · rename_i hb'
        cases hstep
        refine ⟨⟨s ++ b :: d :: (w ++ 61 :: text), c, ws ++ [d :: (w ++ 61 :: text)], rfl, hb',
          ?_, ?_⟩, rfl⟩
        · exact words_snoc hb hblank nofun hwords
        · rw [setAll_snoc, attributeOf_value hw, ← hattributes]
      · rename_i hb'
        split at hstep
        · cases hstep
        · cases hstep
          refine ⟨⟨s, b, ws, d, w, by simp, hb, hwords, hattributes, ?_, hw, rfl⟩, rfl⟩
          simpa using noBlank_snoc hblank hb'
  | _ => exact h.elim

/-- The `>`: the tag is complete, and `AddRulePart` is called with its name and with the map
that the tag's attributes were assigned to.  Whether the call succeeds depends on the name.
-/
theorem InTag.close {base : Attributes} {l l' : Line} {tag : Bytes} (h : InTag base l tag)
    (hstep : Grammar.step l 62 = some l') :
    ∃ l₁ : Line, l₁.addSymbol = some l' ∧ l₁.state = .symbolEnd ∧ l₁.parts = l.parts ∧
      l₁.symbolname = tagName tag ∧ l₁.attributes = base.setAll (written tag) := by
  obtain ⟨g, state, text, symbolname, attrname, attributes, generates, parts⟩ := l
  have hfacts : ∀ {ws : List Bytes}, words tag = symbolname :: ws →
      symbolname = tagName tag ∧ ws.map attributeOf = written tag := by
    intro ws hwords
    rw [tagName, written, hwords]
    exact ⟨rfl, rfl⟩
  cases state with
  | symbol =>
      obtain ⟨hblank, rfl, rfl⟩ := h
      simp only [Grammar.step, show isBlank 62 = false from rfl, Bool.false_eq_true, if_true,
        if_false] at hstep
      split at hstep
      · cases hstep
      · rename_i hne
        have hwords : words text = [text] := by rw [words_of_noBlank hblank, if_neg hne]
        refine ⟨_, hstep, rfl, rfl, ?_, ?_⟩
        · rw [tagName, hwords]
          rfl
        · rw [written, hwords]
          rfl
  | symbolSpace =>
      obtain ⟨s, b, ws, rfl, hb, hwords, hattributes⟩ := h
      simp only [Grammar.step, show isBlank 62 = false from rfl, Bool.false_eq_true, if_true,
        if_false] at hstep
      obtain ⟨hname, hwritten⟩ := hfacts ((words_trailing hb).trans hwords)
      exact ⟨_, hstep, rfl, rfl, hname, hwritten ▸ hattributes⟩
  | attrName =>
      obtain ⟨s, b, ws, d, w, rfl, hb, hwords, hattributes, hblank, hw, rfl⟩ := h
      simp only [Grammar.step, show isBlank 62 = false from rfl, Bool.false_eq_true, if_true,
        if_false, (by decide : (62 : UInt8) ≠ 61), reduceCtorEq] at hstep
      obtain ⟨hname, hwritten⟩ := hfacts (words_snoc hb hblank nofun hwords)
      refine ⟨_, hstep, rfl, rfl, hname, ?_⟩
      rw [← hwritten, setAll_snoc, attributeOf_name hw]
      exact congrArg (fun a : Attributes => a.set (d :: w) []) hattributes
  | attrValue =>
      obtain ⟨s, b, ws, d, w, rfl, hb, hwords, hattributes, hblank, hw, rfl⟩ := h
      simp only [Grammar.step, show isBlank 62 = false from rfl, Bool.false_eq_true, if_true,
        if_false] at hstep
      obtain ⟨hname, hwritten⟩ := hfacts (words_snoc hb hblank nofun hwords)
      refine ⟨_, hstep, rfl, rfl, hname, ?_⟩
      rw [← hwritten, setAll_snoc, attributeOf_value hw]
      exact congrArg (fun a : Attributes => a.set (d :: w) text) hattributes
  | _ => exact h.elim

/-! ### A line, byte by byte -/

def RulePart.isSymbol : RulePart → Bool
  | .string _ => false
  | .symbol .. => true

/-- A string is no symbol part, whether it becomes a part of its own or is appended to the
string before it.  -/
theorem filter_addString (parts : List RulePart) (value : Bytes) :
    (addString parts value).filter RulePart.isSymbol = parts.filter RulePart.isSymbol := by
  unfold addString
  split
  · rename_i last hlast
    have hparts : parts = parts.dropLast ++ [.string last] := by
      rw [← List.dropLast_append_getLast? _ hlast]
      simp
    rw [List.filter_append]
    conv_rhs => rw [hparts, List.filter_append]
    rfl
  · rw [List.filter_append]
    exact List.append_nil _

/-- **`AddRulePart` for a symbol** does to the map and to the symbol parts what its tag
does: a constant becomes a string part and leaves the map, a symbol becomes a symbol part
with the map's attributes and clears it.  -/
theorem addSymbol_readTag {l l' : Line} {tag : Bytes} {state : Attributes × List RulePart}
    (h : l.addSymbol = some l') (hname : l.symbolname = tagName tag)
    (hattributes : l.attributes = state.1.setAll (written tag))
    (hparts : l.parts.filter RulePart.isSymbol = state.2) :
    l'.state = l.state ∧
      (l'.attributes, l'.parts.filter RulePart.isSymbol) = readTag state tag := by
  rw [Line.addSymbol] at h
  rw [readTag, ← hname, isStringName, ← hattributes, ← hparts]
  cases hconstant : constants.lookup l.symbolname with
  | some value =>
      rw [hconstant] at h
      cases h
      refine ⟨rfl, ?_⟩
      show (l.attributes, (addString l.parts value).filter _) = _
      rw [filter_addString]
      rfl
  | none =>
      rw [hconstant] at h
      by_cases hhex : str "0x" <+: l.symbolname
      · rw [if_pos hhex] at h
        obtain ⟨value, -, rfl⟩ := Option.map_eq_some_iff.1 h
        refine ⟨rfl, ?_⟩
        show (l.attributes, (addString l.parts value).filter _) = _
        rw [filter_addString, decide_eq_true hhex]
        rfl
      · rw [if_neg hhex] at h
        obtain ⟨id, hid, rfl⟩ := Option.map_eq_some_iff.1 h
        refine ⟨rfl, ?_⟩
        have hidOf : id = idOf l.attributes := by
          rw [setAttributes] at hid
          rw [idOf]
          cases hvalue : l.attributes.lookup (str "id") with
          | none =>
              rw [hvalue] at hid
              exact (Option.some.inj hid).symm
          | some value =>
              rw [hvalue] at hid
              exact (Option.some.inj (Option.ite_none_right_eq_some.1 hid).2).symm
        show ([], (l.parts ++ [_]).filter _) = _
        rw [decide_eq_false hhex, List.filter_append, hidOf, symbolPart, ← hname]
        rfl

/-- **Where the automaton is**, when the line has been scanned to here. -/
def Follows (l : Line) (s : Scan) : Prop :=
  match s.place with
  | .name => (l.state = .lineStart ∨ l.state = .generatorSymbol) ∧
      (l.attributes, l.parts.filter RulePart.isSymbol) = readTags s.tags
  | .equal => l.state = .generatorSymbolEnd ∧
      (l.attributes, l.parts.filter RulePart.isSymbol) = readTags s.tags
  | .outside => (l.state = .equal ∨ l.state = .equalSpace ∨ l.state = .symbolEnd ∨ l.state = .string) ∧
      (l.attributes, l.parts.filter RulePart.isSymbol) = readTags s.tags
  | .inside tag => InTag (readTags s.tags).1 l tag ∧
      l.parts.filter RulePart.isSymbol = (readTags s.tags).2

/-- Behind the first `=` and outside of tags: a tag begins, or a string goes on.  In neither
case does the byte change the map or the symbol parts.  -/
theorem Follows.outside {l l' : Line} {tags : List Bytes} {c : UInt8}
    (h : Follows l ⟨.outside, tags⟩) (hstep : step l c = some l') :
    l'.attributes = l.attributes ∧
      l'.parts.filter RulePart.isSymbol = l.parts.filter RulePart.isSymbol ∧
      (c = 60 → l'.state = .symbol ∧ l'.text = []) ∧
      (c ≠ 60 → l'.state = .equal ∨ l'.state = .equalSpace ∨ l'.state = .symbolEnd ∨
        l'.state = .string) := by
  obtain ⟨g, state, text, symbolname, attrname, attributes, generates, parts⟩ := l
  obtain ⟨hstate, -⟩ := h
  have hstring := filter_addString parts text
  have hblank : isBlank c = true → c ≠ 60 := by
    rintro hb rfl
    cases hb
  rcases hstate with rfl | rfl | rfl | rfl <;> simp only [step] at hstep <;> split_ifs at hstep <;>
    cases hstep <;> simp_all [Line.addString]

/-- **The automaton follows the scan.** The scan only finds the tags of a line; the
automaton of `ParseGrammarLine` has, after each byte that it accepts, the symbol parts and the map
that the tags up to there give.  -/
theorem Follows.step {l l' : Line} {s : Scan} {c : UInt8} (h : Follows l s) (hc : c ≠ 0)
    (hstep : Grammar.step l c = some l') : Follows l' (s.next c) := by
  obtain ⟨place, tags⟩ := s
  cases place with
  | name =>
      obtain ⟨g, state, text, symbolname, attrname, attributes, generates, parts⟩ := l
      obtain ⟨hstate, hread⟩ := h
      rcases hstate with rfl | rfl
      · simp only [Grammar.step] at hstep
        split at hstep
        · rename_i hb
          cases hstep
          have hc' : c ≠ 62 := by
            rintro rfl
            cases hb
          simp only [Scan.next, hc', if_false]
          exact ⟨Or.inl rfl, hread⟩
        · split at hstep
          · rename_i heq
            subst heq
            cases hstep
            exact ⟨Or.inr rfl, hread⟩
          · cases hstep
      · simp only [Grammar.step, hc, if_false] at hstep
        split at hstep
        · rename_i heq
          subst heq
          split at hstep
          · cases hstep
          · cases hstep
            exact ⟨rfl, hread⟩
        · rename_i hne
          cases hstep
          simp only [Scan.next, hne, if_false]
          exact ⟨Or.inr rfl, hread⟩
  | equal =>
      obtain ⟨g, state, text, symbolname, attrname, attributes, generates, parts⟩ := l
      obtain ⟨rfl, hread⟩ := h
      simp only [Grammar.step] at hstep
      split at hstep
      · rename_i hb
        cases hstep
        have hc' : c ≠ 61 := by
          rintro rfl
          cases hb
        simp only [Scan.next, hc', if_false]
        exact ⟨rfl, hread⟩
      · split at hstep
        · rename_i heq
          subst heq
          cases hstep
          exact ⟨Or.inl rfl, hread⟩
        · cases hstep
  | outside =>
      obtain ⟨hattributes, hparts, hopen, hclosed⟩ := h.outside hstep
      have hread := h.2
      by_cases hc' : c = 60
      · simp only [Scan.next, hc', if_true]
        obtain ⟨hstate, htext⟩ := hopen hc'
        rw [← hattributes, ← hparts] at hread
        refine ⟨?_, congrArg Prod.snd hread⟩
        rw [InTag, hstate]
        exact ⟨nofun, htext, congrArg Prod.fst hread⟩
      · simp only [Scan.next, hc', if_false]
        refine ⟨hclosed hc', ?_⟩
        rw [hattributes, hparts]
        exact hread
  | inside tag =>
      obtain ⟨htag, hparts⟩ := h
      by_cases hc' : c = 62
      · subst hc'
        obtain ⟨l₁, hadd, hstate, hparts₁, hname, hattributes⟩ := htag.close hstep
        obtain ⟨hstate', hread⟩ :=
          addSymbol_readTag hadd hname hattributes ((congrArg _ hparts₁).trans hparts)
        refine ⟨Or.inr (Or.inr (Or.inl (hstate'.trans hstate))), ?_⟩
        rw [hread]
        exact (readTags_snoc tags tag).symm
      · obtain ⟨htag', hparts'⟩ := htag.step hc' hstep
        simp only [Scan.next, hc', if_false]
        exact ⟨htag', (congrArg _ hparts').trans hparts⟩

/-- The 0 behind the line is accepted outside of tags only, and it finishes a string at
most, so the symbol parts of the line are those that all of its tags give.  -/
theorem Follows.finish {l l' : Line} {s : Scan} (h : Follows l s)
    (hstep : Grammar.step l 0 = some l') :
    l'.parts.filter RulePart.isSymbol = (readTags s.tags).2 := by
  obtain ⟨place, tags⟩ := s
  cases place with
  | outside =>
      rw [(h.outside hstep).2.1]
      exact congrArg Prod.snd h.2
  | name =>
      obtain ⟨g, state, text, symbolname, attrname, attributes, generates, parts⟩ := l
      obtain ⟨rfl | rfl, -⟩ := h <;> cases hstep
  | equal =>
      obtain ⟨g, state, text, symbolname, attrname, attributes, generates, parts⟩ := l
      obtain ⟨rfl, -⟩ := h
      cases hstep
  | inside tag =>
      obtain ⟨g, state, text, symbolname, attrname, attributes, generates, parts⟩ := l
      obtain ⟨htag, -⟩ := h
      cases state with
      | symbol | symbolSpace | attrName | attrValue => cases hstep
      | _ => exact htag.elim

/-- **The scanner follows the line** character by character to its end, and what it has made
of the tags then are the symbol parts of `readTags`. -/
theorem Follows.run {text : Bytes} {l l' : Line} {s : Scan} (h : Follows l s)
    (htext : ∀ c ∈ text, c ≠ 0) (hrun : (text ++ [0]).foldlM Grammar.step l = some l') :
    l'.parts.filter RulePart.isSymbol = (readTags (text.foldl Scan.next s).tags).2 := by
  induction text generalizing l s with
  | nil =>
      obtain ⟨l₁, hstep, hrest⟩ := Option.bind_eq_some_iff.1 hrun
      cases hrest
      exact h.finish hstep
  | cons c text ih =>
      obtain ⟨l₁, hstep, hrest⟩ := Option.bind_eq_some_iff.1 hrun
      exact ih (h.step (htext c List.mem_cons_self) hstep)
        (fun x hx => htext x (List.mem_cons_of_mem c hx)) hrest

/-- **The symbol parts of a line** are what its tags become when they share one map. -/
theorem readLine_symbols {g : Grammar} {line : Bytes} {l : Line} (h : readLine g line = some l) :
    l.parts.filter RulePart.isSymbol = (readTags (tagsOf line)).2 := by
  refine Follows.run (s := ⟨.name, []⟩) (l := Line.start g) ⟨Or.inl rfl, rfl⟩ ?_ h
  intro c hc
  simpa using List.mem_takeWhile_imp hc

/-- **The symbol parts of a rule have the attributes and the ids that are written on them
iff no constant has an attribute that the next symbol part has not.** The condition is on
the tags of the line alone, as they stand between the brackets; the line is any that
`ParseGrammarLine` accepts.  -/
theorem own_attributes_iff {g g' : Grammar} {line : Bytes} {rule : Rule}
    (h : parseGrammarLine g line = some g') (hrule : Adds g g' rule) :
    rule.parts.filter RulePart.isSymbol = ownParts (tagsOf line) ↔ NoLeak (tagsOf line) := by
  obtain ⟨l, hl, rfl⟩ := hrule.read h
  show l.parts.filter RulePart.isSymbol = _ ↔ _
  rw [readLine_symbols hl]
  exact readTags_own_iff _

/-! ### Two lines -/

/-- A line with an attribute on a constant. -/
def leakingLine : Bytes := str "<root> = <lt id=1><b>"

/-- The symbol behind the constant gets its id: `ParseGrammarLine` accepts the line, and
this is the rule that it adds.  -/
theorem parse_leakingLine : ∃ g', parseGrammarLine empty leakingLine = some g' ∧
    Adds empty g' ⟨str "root",
      [.string (str "<"), .symbol (str "b") 1 [(str "id", str "1")]]⟩ := by
  have hread : ∃ l, readLine empty leakingLine = some l ∧ l.generates = str "root" ∧
      l.parts = [.string (str "<"), .symbol (str "b") 1 [(str "id", str "1")]] := by
    refine ⟨_, rfl, ?_, ?_⟩ <;> decide +kernel
  obtain ⟨l, hl, hgenerates, hparts⟩ := hread
  obtain ⟨g', h, hadds⟩ := parseGrammarLine_of_readLine (by decide +kernel) hl
  rw [hgenerates, hparts] at hadds
  exact ⟨g', h, hadds⟩

/-- **An attribute of another symbol.** The id is written in the tag of a constant, which is
no symbol part; the map is not cleared for it, and the symbol behind it gets the id as its
own.  -/
theorem attributes_leak : ¬ ∀ (g g' : Grammar) (line : Bytes) (rule : Rule),
    parseGrammarLine g line = some g' → Adds g g' rule →
      rule.parts.filter RulePart.isSymbol = ownParts (tagsOf line) := by
  intro hall
  obtain ⟨g', h, hadds⟩ := parse_leakingLine
  have hown := hall _ _ _ _ h hadds
  revert hown
  decide +kernel

/-- The line in the documentation of attributes. -/
def tagLine : Bytes := str "<html_tag> = <lt><tagname id=1><gt><content><lt>/<tagname id=1><gt>"

/-- **The line of the documentation leaks nothing**: the constants in it have no attributes,
so the two symbols with an id have their own ones, and the symbol between them has none.  -/
theorem own_attributes_iff_tagLine : ∃ g' rule, parseGrammarLine empty tagLine = some g' ∧
    Adds empty g' rule ∧ NoLeak (tagsOf tagLine) := by
  have hread : ∃ l, readLine empty tagLine = some l ∧
      l.parts.filter RulePart.isSymbol = ownParts (tagsOf tagLine) := by
    refine ⟨_, rfl, ?_⟩
    decide +kernel
  obtain ⟨l, hl, hown⟩ := hread
  obtain ⟨g', h, hadds⟩ := parseGrammarLine_of_readLine (by decide +kernel) hl
  exact ⟨g', _, h, hadds, (own_attributes_iff h hadds).1 hown⟩

end Grammar
end Jackalope
