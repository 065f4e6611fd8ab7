/-
# Encoded trees

`Grammar::BinaryRW`, `EncodeSample` and `DecodeSample` of `grammar.cpp`, and
`GrammarFuzzer::OutputFilter` of `main.cpp`.  A sample is the text of a tree, with its
length before it, and then the tree: at each node the type, the string or the name of
the symbol with its length, the number of children, and the children.

A reader has a position in the buffer.  Its check `read_pos + size > size_current` is
made in 64 bits, so it can pass for a size that is not there; this stops the model with
`overrun`.  Strings that are read are interned, so the cache is part of the state.

`Reads r w a`: wherever the word `w` is in a buffer, `r` at its beginning returns `a`
and stops at its end.  The rules compose word by word, as the encoder concatenates.
-/

import Jackalope.Foundation.LittleEndian
import Jackalope.Grammar.Trees
import Jackalope.Sample

namespace Jackalope
namespace Grammar

open Foundation

/-! ### Writing -/

/-- `BinaryRW::WriteSize`. -/
def writeSize (size : ℕ) : Bytes := toLE 8 size

/-- `BinaryRW::WriteString`. -/
def writeString (s : Bytes) : Bytes := writeSize s.length ++ s

/-- The type and the string of a node, or the name of its symbol. -/
def NodeData.encode : NodeData → Bytes
  | .string value => 0 :: writeString value
  | .symbol name => 1 :: writeString name

/-- `EncodeTree`. -/
def encodeTree : TreeNode → Bytes :=
  Foundation.Tree.fold fun data outs => data.encode ++ writeSize outs.length ++ outs.flatten

/-- What `EncodeSample` writes. -/
def encoding (tree : TreeNode) : Bytes := writeString (toString tree) ++ encodeTree tree

/-- `EncodeSample`.  The buffer doubles until everything fits; no buffer has `2 ^ 64`
bytes, and then it does not return. -/
def encodeSample (tree : TreeNode) : Option Sample :=
  if h : (encoding tree).length < 2 ^ 64 then some ⟨encoding tree, h⟩ else none

/-! ### Reading -/

/-- Why reading stops. -/
inductive ReadStop
  /-- The function returns 0 or `NULL`. -/
  | null
  /-- Bytes behind the buffer are asked for. -/
  | overrun
  deriving DecidableEq

/-- `string_cache`, from strings to pointers to them. -/
structure StringCache where
  entries : List (Bytes × Bytes)
  coherent : ∀ e ∈ entries, e.2 = e.1

/-- `string_cache[s] = new string(s)`. -/
def StringCache.insert (cache : StringCache) (s : Bytes) : StringCache where
  entries := (s, s) :: cache.entries
  coherent e he := (List.mem_cons.1 he).elim (fun h => h ▸ rfl) (cache.coherent e)

/-- A new grammar has none. -/
def StringCache.empty : StringCache := ⟨[], fun _ he => absurd he List.not_mem_nil⟩

/-- A `BinaryRW` that is read from; `size_current` is the length of `bytes`. -/
structure BinaryRW where
  bytes : Bytes
  readPos : ℕ

/-- A function that reads. -/
abbrev Reader (α : Type) := StateT (BinaryRW × StringCache) (Except ReadStop) α

/-- Return 0 or `NULL`. -/
def Reader.null {α : Type} : Reader α := fun _ => .error .null

/-- `BinaryRW::ReadData`. -/
def readData (size : ℕ) : Reader Bytes := fun (rw, cache) =>
  if rw.bytes.length < (rw.readPos + size) % 2 ^ 64 then .error .null
  else if rw.bytes.length < rw.readPos + size then .error .overrun
  else .ok ((rw.bytes.drop rw.readPos).take size, ({ rw with readPos := rw.readPos + size }, cache))

/-- `BinaryRW::ReadSize`. -/
def readSize : Reader ℕ := do
  let data ← readData 8
  pure (ofLE data)

/-- `BinaryRW::ReadString`, which checks as `ReadData` does. -/
def readString : Reader Bytes := do
  let size ← readSize
  readData size

/-- `GetStringFromCache`. -/
def getStringFromCache (s : Bytes) : Reader Bytes := fun (rw, cache) =>
  match cache.entries.lookup s with
  | some sp => .ok (sp, (rw, cache))
  | none => .ok (s, (rw, cache.insert s))

/-- A node with the symbol of this name, if `GetSymbol` finds it. -/
def symbolNode (g : Grammar) (symbolname : Bytes) : Reader NodeData :=
  match g.getSymbol symbolname with
  | some symbol => pure (.symbol symbol.name)
  | none => Reader.null

/-- The type and the string or symbol of a node.  A type that is not `STRINGTYPE` is
taken for a symbol's; the source keeps the byte, and here a type of 2 and more becomes that
of a symbol, which no tree that `EncodeTree` has written tells apart. -/
def readNodeData (g : Grammar) : Reader NodeData := do
  let type ← readData 1
  if type = [0] then
    let str ← readString
    let string ← getStringFromCache str
    pure (.string string)
  else
    let symbolname ← readString
    g.symbolNode symbolname

/-- The loop over the children. -/
def readChildren (decode : Reader TreeNode) : ℕ → Reader (List TreeNode)
  | 0 => pure []
  | nchildren + 1 => do
      let child ← decode
      let children ← readChildren decode nchildren
      pure (child :: children)

/-- `DecodeTree`, for trees of at most `levels` levels. -/
def decodeTree (g : Grammar) : ℕ → Reader TreeNode
  | 0 => Reader.null
  | levels + 1 => do
      let data ← g.readNodeData
      let nchildren ← readSize
      let children ← readChildren (g.decodeTree levels) nchildren
      pure (Foundation.Tree.node data children)

/-- `DecodeSample`, with the state of the reader that it leaves behind.  Each level of a
tree takes bytes, so the levels are more than enough. -/
def decodeSample (g : Grammar) (cache : StringCache) (sample : Sample) :
    Except ReadStop (TreeNode × (BinaryRW × StringCache)) :=
  (readString >>= fun _ => g.decodeTree (sample.size + 1)).run (⟨sample.bytes, 0⟩, cache)

/-- `GrammarFuzzer::OutputFilter`: the sample that is delivered to the target. -/
def outputFilter (original : Sample) : Except Stop Sample :=
  if original.size < 8 then .error .undefined
  else
    let stringSize := ofLE (original.bytes.take 8)
    if original.size < (stringSize + 8) % 2 ^ 64 then .error .fatal
    else if original.size < stringSize + 8 then .error .undefined
    else .ok (Sample.init ((original.bytes.drop 8).take stringSize))

/-! ### Words at a position -/

/-- Wherever the word `w` is in a buffer, `r` at its beginning returns `a` and stops at
its end. -/
def Reads {α : Type} (r : Reader α) (w : Bytes) (a : α) : Prop :=
  ∀ bytes pre rest cache, bytes = pre ++ (w ++ rest) → bytes.length < 2 ^ 64 →
    ∃ cache', r (⟨bytes, pre.length⟩, cache) = .ok (a, (⟨bytes, (pre ++ w).length⟩, cache'))

variable {α β : Type} {r : Reader α} {w v : Bytes} {a : α}

/-- A result that was there from the start is read from the empty word.  -/
theorem Reads.pure (a : α) : Reads (pure a : Reader α) [] a := fun bytes pre rest cache _ _ =>
  ⟨cache, by rw [List.append_nil]; rfl⟩

/-- **Words concatenate.** A reader that is run after another reads its own word behind the
first one's, from the position that the first one has left.  -/
theorem Reads.bind {f : α → Reader β} {b : β} (h : Reads r w a) (h' : Reads (f a) v b) :
    Reads (r >>= f) (w ++ v) b := by
  intro bytes pre rest cache hbytes hlt
  obtain ⟨cache₁, h₁⟩ := h bytes pre (v ++ rest) cache (by rw [hbytes, List.append_assoc]) hlt
  obtain ⟨cache₂, h₂⟩ := h' bytes (pre ++ w) rest cache₁
    (by rw [hbytes, List.append_assoc, List.append_assoc]) hlt
  refine ⟨cache₂, ?_⟩
  rw [← List.append_assoc, ← h₂]
  exact congrArg (fun m => Except.bind m fun p => f p.1 p.2) h₁

/-- A reader followed by a pure function of its result. -/
theorem Reads.map (h : Reads r w a) (f : α → β) : Reads (r >>= fun x => Pure.pure (f x)) w (f a) := by
  have := h.bind (f := fun x => Pure.pure (f x)) (Reads.pure (f a))
  rwa [List.append_nil] at this

/-- Only words that fit into a buffer matter. -/
theorem Reads.of_lt (h : w.length < 2 ^ 64 → Reads r w a) : Reads r w a := by
  intro bytes pre rest cache hbytes hlt
  refine h ?_ bytes pre rest cache hbytes hlt
  rw [hbytes, List.length_append, List.length_append] at hlt
  omega

/-- The bytes at the position are read, as many as are asked for, and the position moves
behind them.  -/
theorem reads_readData (w : Bytes) : Reads (readData w.length) w w := by
  intro bytes pre rest cache hbytes hlt
  have hlength : pre.length + w.length ≤ bytes.length := by
    rw [hbytes, List.length_append, List.length_append]
    omega
  have hmod : (pre.length + w.length) % 2 ^ 64 = pre.length + w.length :=
    Nat.mod_eq_of_lt (by omega)
  have htake : (bytes.drop pre.length).take w.length = w := by
    rw [hbytes, List.drop_left' rfl, List.take_left' rfl]
  refine ⟨cache, ?_⟩
  rw [List.length_append, readData]
  dsimp only
  rw [hmod, if_neg (by omega), if_neg (by omega), htake]

/-- A size that fits in 64 bits. -/
theorem reads_readSize {size : ℕ} (h : size < 2 ^ 64) : Reads readSize (writeSize size) size := by
  have hdata := (reads_readData (writeSize size)).map ofLE
  rw [writeSize, length_toLE, ofLE_toLE_of_lt h] at hdata
  exact hdata

/-- A string is written as its size and its bytes, and read back from them.  -/
theorem reads_readString (s : Bytes) : Reads readString (writeString s) s := by
  refine Reads.of_lt fun hlt => ?_
  rw [writeString, List.length_append] at hlt
  exact (reads_readSize (by omega)).bind (reads_readData s)

/-- **Interning keeps the string**, whatever is in the cache: what is found under a string
is the string, and so is what is put there.  -/
theorem reads_getStringFromCache (s : Bytes) : Reads (getStringFromCache s) [] s := by
  intro bytes pre rest cache _ _
  rw [List.append_nil, getStringFromCache]
  split
  · rename_i sp hlookup
    have hmem := List.lookup_eq_some_iff.1 hlookup
    obtain ⟨l₁, l₂, hentries, -⟩ := hmem
    have hsp : sp = s := cache.coherent (s, sp) (by rw [hentries]; simp)
    exact ⟨cache, by rw [hsp]⟩
  · exact ⟨cache.insert s, rfl⟩

/-! ### Trees -/

variable {g : Grammar}

/-- The symbol of a node, if it has one, is in the grammar. -/
def NodeData.Known (g : Grammar) : NodeData → Prop
  | .string _ => True
  | .symbol name => g.Defined name

/-- Every symbol node of the tree uses a symbol of the grammar. -/
def UsesSymbols (g : Grammar) (tree : TreeNode) : Prop :=
  Foundation.Tree.Follows (fun data _ => data.Known g) tree

/-- **The data of a node is read back**, if its symbol is one of the grammar; the string
cache hands out the same string, whichever copy of it.  -/
theorem reads_readNodeData {data : NodeData} (h : data.Known g) :
    Reads g.readNodeData data.encode data := by
  cases data with
  | string value =>
      refine (reads_readData [0]).bind (f := _) ?_
      rw [if_pos rfl]
      have hstring := (reads_readString value).bind
        (f := fun str => getStringFromCache str >>= fun string => Pure.pure (NodeData.string string))
        ((reads_getStringFromCache value).map NodeData.string)
      rw [List.append_nil] at hstring
      exact hstring
  | symbol name =>
      obtain ⟨symbol, hsymbol⟩ := Defined.getSymbol h
      refine (reads_readData [1]).bind (f := _) ?_
      rw [if_neg (by decide)]
      have hnode : Reads (g.symbolNode name) [] (.symbol name) := by
        rw [symbolNode, hsymbol, ← (getSymbol_mem hsymbol).2]
        exact Reads.pure _
      have hname := (reads_readString name).bind hnode
      rw [List.append_nil] at hname
      exact hname

/-- A node is written as its data, the number of its children, and then these, each in full
before the next.  -/
theorem encodeTree_node (data : NodeData) (children : List TreeNode) :
    encodeTree (Foundation.Tree.node data children) =
      data.encode ++ writeSize children.length ++ (children.map encodeTree).flatten := by
  rw [encodeTree, Foundation.Tree.fold_node, List.length_map]

/-- A tree takes bytes. -/
theorem encodeTree_length_pos (tree : TreeNode) : 0 < (encodeTree tree).length := by
  obtain ⟨data, children⟩ := tree
  rw [encodeTree_node, List.length_append, List.length_append, writeSize, length_toLE]
  omega

/-- A child takes fewer bytes than its parent. -/
theorem encodeTree_length_lt (data : NodeData) {children : List TreeNode} {child : TreeNode}
    (h : child ∈ children) :
    (encodeTree child).length < (encodeTree (Foundation.Tree.node data children)).length := by
  have hle : (encodeTree child).length ≤ (children.map encodeTree).flatten.length :=
    (List.sublist_flatten_of_mem (List.mem_map_of_mem h)).length_le
  rw [encodeTree_node, List.length_append, List.length_append, writeSize, length_toLE]
  omega

/-- There are no more children than bytes, so the levels that are left are enough for each
of them.  -/
theorem length_le_encodeTree (children : List TreeNode) :
    children.length ≤ (children.map encodeTree).flatten.length := by
  induction children with
  | nil => exact Nat.zero_le _
  | cons child children ih =>
      have hpos := encodeTree_length_pos child
      rw [List.map_cons, List.flatten_cons, List.length_append, List.length_cons]
      omega

/-- The children are read back one after the other, if each of them is.  -/
theorem reads_readChildren {decode : Reader TreeNode} {children : List TreeNode}
    (h : ∀ child ∈ children, Reads decode (encodeTree child) child) :
    Reads (readChildren decode children.length) (children.map encodeTree).flatten children := by
  induction children with
  | nil => exact Reads.pure []
  | cons child children ih =>
      have hrest := (ih fun c hc => h c (List.mem_cons_of_mem _ hc)).map (child :: ·)
      exact (h child List.mem_cons_self).bind hrest

/-- **A tree is read back** from what was written for it, whatever is in the string cache.
The induction is on the tree: the type byte and the text are read first, then the number of
the children, then they themselves.  -/
theorem reads_decodeTree {tree : TreeNode} (h : g.UsesSymbols tree) {levels : ℕ}
    (hlevels : (encodeTree tree).length ≤ levels) :
    Reads (g.decodeTree levels) (encodeTree tree) tree := by
  induction tree using Foundation.Tree.induction generalizing levels with
  | h data children ih =>
      cases levels with
      | zero =>
          have hpos := encodeTree_length_pos (Foundation.Tree.node data children)
          omega
      | succ levels =>
          obtain ⟨hdata, hknown⟩ := Foundation.Tree.follows_node.1 h
          refine Reads.of_lt fun hlt => ?_
          have hchildren : Reads (readChildren (g.decodeTree levels) children.length)
              (children.map encodeTree).flatten children := by
            refine reads_readChildren fun child hchild => ih child hchild (hknown child hchild) ?_
            have := encodeTree_length_lt data hchild
            omega
          have hsize : children.length < 2 ^ 64 := by
            have hle := length_le_encodeTree children
            rw [encodeTree_node, List.length_append] at hlt
            omega
          rw [encodeTree_node, List.append_assoc]
          exact (reads_readNodeData hdata).bind ((reads_readSize hsize).bind (hchildren.map _))

/-- The bytes of the sample are the text of the tree and then the tree.  -/
theorem encodeSample_bytes {tree : TreeNode} {sample : Sample}
    (h : encodeSample tree = some sample) : sample.bytes = encoding tree := by
  unfold encodeSample at h
  split at h
  · cases h
    rfl
  · cases h

/-- The text in front and the tree behind it, for a buffer that has nothing else. -/
theorem decodeSample_encoding (cache : StringCache) {tree : TreeNode} {sample : Sample}
    (h : g.UsesSymbols tree) (hbytes : sample.bytes = encoding tree) :
    ∃ cache', g.decodeSample cache sample = .ok (tree, (⟨sample.bytes, sample.size⟩, cache')) := by
  have hlevels : (encodeTree tree).length ≤ sample.size + 1 := by
    rw [Sample.size, hbytes, encoding, List.length_append]
    omega
  have hreads := (reads_readString (toString tree)).bind (f := fun _ => g.decodeTree (sample.size + 1))
    (reads_decodeTree h hlevels)
  obtain ⟨cache', hrun⟩ := hreads sample.bytes [] [] cache
    (by rw [List.append_nil, List.nil_append, hbytes, encoding]) sample.size_lt
  refine ⟨cache', ?_⟩
  rw [List.nil_append, ← encoding, ← hbytes] at hrun
  exact hrun

/-- **The text in front is what the target gets.** `OutputFilter` cuts the sample down to
the string it begins with, and `EncodeSample` has put the text of the tree there.  -/
theorem outputFilter_encoding {tree : TreeNode} {sample : Sample}
    (hbytes : sample.bytes = encoding tree) :
    ∃ out, outputFilter sample = .ok out ∧ out.bytes = toString tree := by
  have hsize : 8 + (toString tree).length ≤ sample.size := by
    rw [Sample.size, hbytes, encoding, writeString, List.length_append, List.length_append, writeSize,
      length_toLE]
    omega
  have hlt := sample.size_lt
  have hlength : (toString tree).length < 2 ^ 64 := by
    rw [Sample.size] at hsize
    omega
  have hstring : ofLE (sample.bytes.take 8) = (toString tree).length := by
    rw [hbytes, encoding, writeString, List.append_assoc, writeSize,
      List.take_left' (length_toLE 8 _), ofLE_toLE_of_lt hlength]
  have htext : (sample.bytes.drop 8).take (toString tree).length = toString tree := by
    rw [hbytes, encoding, writeString, List.append_assoc, writeSize,
      List.drop_left' (length_toLE 8 _), List.take_left' rfl]
  refine ⟨Sample.init (toString tree), ?_, Sample.init_bytes hlength⟩
  rw [outputFilter, if_neg (by omega)]
  dsimp only
  rw [hstring, htext, Nat.mod_eq_of_lt (by rw [Sample.size] at hsize; omega), if_neg (by omega),
    if_neg (by omega)]

/-- **A sample and its tree are one thing.**  Decoding an encoded tree gives the tree and
reads the buffer to its end, encoding that gives the same bytes, and what the target
gets is the text of the tree. -/
theorem decodeSample_encodeSample (g : Grammar) (cache : StringCache) (tree : TreeNode)
    (sample : Sample) (h : g.UsesSymbols tree) (hsample : encodeSample tree = some sample) :
    (∃ cache', g.decodeSample cache sample = .ok (tree, (⟨sample.bytes, sample.size⟩, cache'))) ∧
      (∀ decoded rw, g.decodeSample cache sample = .ok (decoded, rw) →
        encodeSample decoded = some sample) ∧
      ∃ out, outputFilter sample = .ok out ∧ out.bytes = toString tree := by
  have hbytes := encodeSample_bytes hsample
  obtain ⟨cache', hdecode⟩ := decodeSample_encoding cache h hbytes
  refine ⟨⟨cache', hdecode⟩, fun decoded rw hdecoded => ?_, outputFilter_encoding hbytes⟩
  rw [hdecode] at hdecoded
  cases hdecoded
  exact hsample

/-- The rule `<s> = a<s>` applied once, with an empty string at its end. -/
def sampleTree : TreeNode :=
  .node (.symbol (str "s"))
    [.node (.string (str "a")) [], .node (.symbol (str "s")) [.node (.string []) []]]

/-- **A tree of two levels is decoded from its bytes**, and the whole buffer is used up: a
symbol with a string and a symbol below it, which has an empty string.  -/
theorem decodeSample_sampleTree :
    ∃ cache', Grammar.decodeSample ⟨[Symbol.create (str "s")]⟩ StringCache.empty
        ⟨encoding sampleTree, by decide⟩ =
      .ok (sampleTree, (⟨encoding sampleTree, (encoding sampleTree).length⟩, cache')) :=
  (decodeSample_encodeSample ⟨[Symbol.create (str "s")]⟩ StringCache.empty sampleTree
    ⟨encoding sampleTree, by decide⟩ (by
      have hs : Defined ⟨[Symbol.create (str "s")]⟩ (str "s") :=
        ⟨Symbol.create (str "s"), List.mem_singleton_self _, rfl⟩
      unfold UsesSymbols sampleTree
      simp [Foundation.Tree.follows_node, NodeData.Known, hs]) (dif_pos (by decide))).1

end Grammar
end Jackalope
