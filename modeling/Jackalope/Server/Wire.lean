/-
# The bytes between client and server

`ServerCommon` (`server.cpp`, lines 24-189).  A peer is the list of bytes it will
ever deliver: a connection that ends early, a receive timeout and a `malloc` that
fails all make the reading function return 0 before anything else happens, so
all three are a list that ends there.

`Read` calls `recv` until it has what it was asked for.  `ReadLoop` is that loop,
with `recv` returning any positive number of bytes up to the request;
`readLoop_iff` says that the chunks do not show, and `read` is what remains.
-/

import Jackalope.Foundation.LittleEndian
import Jackalope.Sample

namespace Jackalope
namespace Server

open Foundation Foundation.Consumer

/-- A reading function of `ServerCommon`; the error is `return 0`. -/
abbrev Recv (α : Type) := Consumer UInt8 Unit α

/-- `ServerCommon::Read`: from `incoming`, `toRead` bytes are still wanted.  The
result is what was read and what is left, or none for `return 0`. -/
inductive ReadLoop : Bytes → ℕ → Option (Bytes × Bytes) → Prop
  /-- `while (to_read)` is left. -/
  | done (incoming) : ReadLoop incoming 0 (some ([], incoming))
  /-- `recv` has nothing and never will: it returns 0 or less. -/
  | closed {toRead} : 0 < toRead → ReadLoop [] toRead none
  /-- `recv` returns `ret` bytes of the chunk it was asked for. -/
  | chunk {incoming : Bytes} {toRead ret : ℕ} {r} : 0 < ret → ret ≤ min toRead 0x100000 →
      ret ≤ incoming.length → ReadLoop (incoming.drop ret) (toRead - ret) r →
      ReadLoop incoming toRead (r.map fun p => (incoming.take ret ++ p.1, p.2))

/-- What `Read` returns does not depend on the chunks in which `recv` delivers the bytes: it
is the first bytes, as many as were asked for, or a failure if there are fewer.  -/
theorem ReadLoop.eq {incoming : Bytes} {toRead : ℕ} {r : Option (Bytes × Bytes)}
    (h : ReadLoop incoming toRead r) :
    r = if toRead ≤ incoming.length then some (incoming.take toRead, incoming.drop toRead)
      else none := by
  induction h with
  | done incoming => simp
  | closed h => rw [if_neg (by simp; omega)]
  | @chunk incoming toRead ret r h0 hle hlen _ ih =>
      have hmin : ret ≤ toRead := hle.trans (Nat.min_le_left _ _)
      rw [ih, List.length_drop]
      by_cases h : toRead ≤ incoming.length
      · have hsum : ret + (toRead - ret) = toRead := by omega
        rw [if_pos (by omega), if_pos h, Option.map_some, List.drop_drop, hsum]
        congr 2
        rw [← hsum, List.take_add, hsum]
      · rw [if_neg (by omega), if_neg h, Option.map_none]

/-- Some sequence of `recv` results completes `Read`, so what is said of every such sequence
is said of one.  -/
theorem exists_readLoop (incoming : Bytes) (toRead : ℕ) : ∃ r, ReadLoop incoming toRead r := by
  induction toRead using Nat.strong_induction_on generalizing incoming with
  | _ toRead ih =>
      rcases Nat.eq_zero_or_pos toRead with rfl | hpos
      · exact ⟨_, ReadLoop.done incoming⟩
      rcases incoming with _ | ⟨b, bs⟩
      · exact ⟨_, ReadLoop.closed hpos⟩
      · obtain ⟨r, hr⟩ := ih (toRead - 1) (by omega) bs
        exact ⟨_, @ReadLoop.chunk _ _ 1 _ (by omega) (by omega) (by simp) hr⟩

/-- **Fragmentation does not show.**  Whatever `recv` returns, `Read` delivers
the bytes asked for, or fails when there are fewer. -/
theorem readLoop_iff {incoming : Bytes} {toRead : ℕ} {r : Option (Bytes × Bytes)} :
    ReadLoop incoming toRead r ↔
      r = if toRead ≤ incoming.length then some (incoming.take toRead, incoming.drop toRead)
        else none := by
  refine ⟨ReadLoop.eq, ?_⟩
  rintro rfl
  obtain ⟨r, hr⟩ := exists_readLoop incoming toRead
  rwa [← hr.eq]

/-- `ServerCommon::Read`. -/
def read (size : ℕ) : Recv Bytes := takeN () size

/-- `read` is the loop with its chunks forgotten. -/
theorem read_eq_ok_iff {incoming : Bytes} {size : ℕ} {r : Bytes × Bytes} :
    read size incoming = .ok r ↔ ReadLoop incoming size (some r) := by
  rw [readLoop_iff, read, takeN]
  split <;> simp [eq_comm]

/-- `Read` of a `char`. -/
def readChar : Recv UInt8 := next ()

/-- `Read` of a `uint64_t`. -/
def readU64 : Recv ℕ := readLE () 8

/-- A `uint64_t` as it is sent. -/
def u64 (n : ℕ) : Bytes := toLE 8 n

/-- A number is read back from its eight bytes.  -/
theorem decodes_readU64 {n : ℕ} (h : n < 2 ^ 64) : Decodes readU64 (u64 n) n :=
  decodes_readLE () (by simpa using h)

/-- A number takes eight bytes.  -/
theorem consumes_readU64 : Consumes readU64 := consumes_readLE () (by decide)

/-! ### Samples and strings -/

/-- `ServerCommon::SendSample`. -/
def sendSample (sample : Sample) : Bytes := u64 sample.size ++ sample.bytes

/-- `ServerCommon::RecvSample`. -/
def recvSample : Recv Sample := do
  let sampleSize ← readU64
  let newBytes ← read sampleSize
  pure (Sample.init newBytes)

/-- **A sample is received as it was sent**: its size fits the field for it, as it is the
size of a sample.  -/
theorem decodes_recvSample (sample : Sample) :
    Decodes recvSample (sendSample sample) sample := by
  have hbody : Decodes (read sample.size >>= fun b => pure (Sample.init b)) sample.bytes sample := by
    have := (Decodes.takeN () (rfl : sample.bytes.length = sample.size)).bind_pure Sample.init
    rwa [Sample.init_self] at this
  exact (decodes_readU64 sample.size_lt).bind hbody

/-- Receiving a sample puts nothing back.  -/
theorem shrinks_recvSample : Shrinks recvSample :=
  consumes_readU64.shrinks.bind fun _ => (shrinks_takeN () _).bind fun _ => shrinks_pure _

/-- `ServerCommon::RecvString`. -/
def recvString : Recv Bytes := do
  let size ← readU64
  read size

/-- The characters of the protocol. -/
def charN : UInt8 := 78
/-- `'S'`. -/
def charS : UInt8 := 83
/-- `'C'`. -/
def charC : UInt8 := 67

/-- One round of the loops that read samples (`ReportNewCoverage`, `GetUpdates`):
`'N'` ends the list, `'S'` announces a sample, anything else is an error. -/
def recvSamplesBody (samples : List Sample) : Recv (List Sample ⊕ List Sample) := do
  let command ← readChar
  if command = charN then pure (.inr samples)
  else if command ≠ charS then fail ()
  else do
    let sample ← recvSample
    pure (.inl (samples ++ [sample]))

/-- Each round reads a character.  -/
theorem consumes_recvSamplesBody (samples : List Sample) :
    Consumes (recvSamplesBody samples) := by
  refine (consumes_next ()).bind fun command => ?_
  split
  · exact shrinks_pure _
  · split
    · exact shrinks_fail ()
    · exact shrinks_recvSample.bind fun _ => shrinks_pure _

/-- So the loop over the samples ends with the stream at the latest.  -/
theorem advances_recvSamplesBody : Advances recvSamplesBody :=
  Advances.of_consumes consumes_recvSamplesBody

/-- The loop itself. -/
def recvSamples : Recv (List Sample) := loop () recvSamplesBody []

/-- Samples as they are sent: each behind an `'S'`, an `'N'` at the end. -/
def sendSamples (samples : List Sample) : Bytes :=
  samples.flatMap (fun s => charS :: sendSample s) ++ [charN]

/-- **A list of samples is read back exactly**, and no proper prefix of what was
sent is taken for a list. -/
theorem decodes_recvSamples (samples : List Sample) :
    Decodes recvSamples (sendSamples samples) samples := by
  have hend : ∀ acc : List Sample,
      Decodes (recvSamplesBody acc) [charN] (.inr acc) := fun acc =>
    (Decodes.next () charN).bind (v := []) (Decodes.pure (Sum.inr acc))
  have hnext : ∀ (acc : List Sample) (s : Sample),
      Decodes (recvSamplesBody acc) (charS :: sendSample s) (.inl (acc ++ [s])) := by
    intro acc s
    have := (decodes_recvSample s).bind_pure
      (fun x => (Sum.inl (acc ++ [x]) : List Sample ⊕ List Sample))
    exact (Decodes.next () charS).bind this
  have key : ∀ (samples acc : List Sample),
      Decodes (loop () recvSamplesBody acc) (sendSamples samples) (acc ++ samples) := by
    intro samples
    induction samples with
    | nil =>
        intro acc
        rw [List.append_nil]
        exact Decodes.loop_last advances_recvSamplesBody (hend acc)
    | cons s samples ih =>
        intro acc
        have := Decodes.loop_next (e := ()) advances_recvSamplesBody (hnext acc s) (ih (acc ++ [s]))
        simpa [sendSamples] using this
  exact key samples []

/-! ### Coverage -/

/-- `(int)n` passed where a `size_t` is expected. -/
def intToSize (n : ℕ) : ℕ :=
  if n % 2 ^ 32 < 2 ^ 31 then n % 2 ^ 32 else n % 2 ^ 32 + (2 ^ 64 - 2 ^ 32)

/-- The array of `num` offsets behind a buffer whose first bytes were read; the
rest holds whatever `malloc` returned. -/
def offsetsIn (uninit : ℕ → UInt64) (num : ℕ) (bytes : Bytes) : List UInt64 :=
  (List.range num).map fun i =>
    if 8 * i + 8 ≤ bytes.length then UInt64.ofNat (ofLE ((bytes.drop (8 * i)).take 8))
    else uninit i

/-- `module_coverage->offsets.insert(offsets[i])`, for all of them. -/
def insertOffsets (coverage : Coverage) (i : ℕ) (offsets : List UInt64) : Coverage :=
  coverage.modify i fun m => { m with offsets := m.offsets ∪ offsets.toFinset }

section

variable [TinyInst]

/-- `GetModuleCoverage`, or `push_back({ module_name, {} })` and look again. -/
def findOrAddModule (coverage : Coverage) (moduleName : Bytes) : Coverage × Option ℕ :=
  match getModuleCoverage coverage moduleName with
  | some i => (coverage, some i)
  | none =>
      let coverage := coverage ++ [⟨moduleName, ∅⟩]
      (coverage, getModuleCoverage coverage moduleName)

/-- The part of a round of `RecvCoverage` behind the `'C'`.  `uninit` is what the
buffers returned by `malloc` hold, one for each number of bytes still to come. -/
def recvModule (uninit : ℕ → ℕ → UInt64) (coverage : Coverage) : Recv Coverage := do
  let moduleName ← recvString
  let (coverage, moduleCoverage) := findOrAddModule coverage moduleName
  let numOffsets ← readU64
  if numOffsets > (2 ^ 64 - 1) / 8 then fail ()
  else do
    let rest ← get
    let bytes ← read (intToSize (numOffsets * 8))
    match moduleCoverage with
    | none => fail () -- not reached: the entry is there
    | some i => pure (insertOffsets coverage i (offsetsIn (uninit rest.length) numOffsets bytes))

/-- One round of `RecvCoverage`. -/
def recvCoverageBody (uninit : ℕ → ℕ → UInt64) (coverage : Coverage) :
    Recv (Coverage ⊕ Coverage) := do
  let command ← readChar
  if command = charN then pure (.inr coverage)
  else if command ≠ charC then fail ()
  else do
    let coverage ← recvModule uninit coverage
    pure (.inl coverage)

/-- `ServerCommon::RecvCoverage` into an empty coverage. -/
def recvCoverage (uninit : ℕ → ℕ → UInt64) : Recv Coverage :=
  loop () (recvCoverageBody uninit) []

end

end Server
end Jackalope
