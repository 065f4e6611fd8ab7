/-
# The dialogues of client and server

`ReportNewCoverage`, `ReportCrash` and `GetUpdates` against `HandleConnection`.  Each
function of `Server.Connection` has its script here: what it sends and what it waits
for, in order.  The functions that send have the scripts of those that receive, with
the roles exchanged, on every branch that the replies select.  `client_server_agree` is
then `agrees_of_talks`, three times.

Two of the steps are more than concatenation.  `RecvCoverage` inserts the offsets into
the entry that `GetModuleCoverage` finds, which is the one it just added
(`findOrAddModule_of_forall_ne`) because the names are distinct; and the length of the
offsets array goes through an `int` on both sides (`intToSize_of_lt`).
-/

import Jackalope.Server.Connection
import Jackalope.Server.Snapshot

namespace Jackalope
namespace Server
namespace Connection

open Foundation Foundation.Dialogue

/-! ### Scripts of `ServerCommon` -/

section

variable {me : Bool} {α : Type}

/-- The bytes of a buffer are sent, one after the other.  -/
theorem talks_send (buf : Bytes) : Talks me (send buf) (word me buf) () := Talks.say buf

/-- As many bytes are read as were asked for.  -/
theorem talks_read {size : ℕ} {buf : Bytes} (h : buf.length = size) :
    Talks me (read size) (word (!me) buf) buf :=
  Talks.hear h

/-- `Write` sends the buffer in chunks, and it arrives as a whole: what the script has is
one word, however it is cut.  -/
theorem talks_write (buf : Bytes) : Talks me (write buf) (word me buf) () := by
  induction hn : buf.length using Nat.strong_induction_on generalizing buf with
  | _ n ih =>
      by_cases hbuf : buf = []
      · subst hbuf
        exact Talks.forever_last (Talks.pure (Sum.inr ()))
      · have hpos : 0 < buf.length := List.length_pos_iff.2 hbuf
        have hround : Talks me (writeBody buf) (word me (buf.take maxChunk))
            (.inl (buf.drop maxChunk)) := by
          rw [writeBody, if_neg hbuf]
          exact (talks_send _).bind_pure fun _ => Sum.inl (buf.drop maxChunk)
        have hlt : (buf.drop maxChunk).length < n := by
          rw [List.length_drop, maxChunk]
          omega
        have := Talks.forever_next hround (ih _ hlt _ rfl)
        rwa [← word_append, List.take_append_drop] at this

/-- A character is read.  -/
theorem talks_readChar (c : UInt8) : Talks me readChar (word (!me) [c]) c :=
  (talks_read (rfl : [c].length = 1)).bind_pure fun buf => buf.headD 0

/-- A number is read from its eight bytes.  -/
theorem talks_readU64 {n : ℕ} (h : n < 2 ^ 64) : Talks me readU64 (word (!me) (u64 n)) n := by
  have hread : Talks me readU64 (word (!me) (u64 n)) (ofLE (u64 n)) :=
    (talks_read (length_toLE 8 n)).bind_pure ofLE
  rwa [u64, ofLE_toLE_of_lt (by simpa using h)] at hread

/-- A sample is sent as its size and its bytes.  -/
theorem talks_sendSample (sample : Sample) :
    Talks me (sendSample sample) (word me (Server.sendSample sample)) () := by
  rw [Server.sendSample, word_append]
  exact (talks_write _).bind (talks_write _)

/-- A sample is received as it was sent: its size first, then as many bytes.  -/
theorem talks_recvSample (sample : Sample) :
    Talks me recvSample (word (!me) (Server.sendSample sample)) sample := by
  have hbytes : Talks me (read sample.size >>= fun newBytes => pure (Sample.init newBytes))
      (word (!me) sample.bytes) (Sample.init sample.bytes) :=
    (talks_read rfl).bind_pure Sample.init
  rw [Sample.init_self] at hbytes
  rw [Server.sendSample, word_append]
  exact (talks_readU64 sample.size_lt).bind hbytes

/-- A string as it is sent. -/
def stringBytes (s : Bytes) : Bytes := u64 s.length ++ s

/-- A string is sent as its size and its characters.  -/
theorem talks_sendString (s : Bytes) : Talks me (sendString s) (word me (stringBytes s)) () := by
  rw [stringBytes, word_append]
  exact (talks_write _).bind (talks_write _)

/-- A string is received as it was sent, if its size fits the eight bytes for it.  -/
theorem talks_recvString {s : Bytes} (h : s.length < 2 ^ 64) :
    Talks me recvString (word (!me) (stringBytes s)) s := by
  rw [stringBytes, word_append]
  exact (talks_readU64 h).bind (talks_read rfl)

/-- A sample of an answer is sent with an `S` in front.  -/
theorem talks_serveSample (sample : Sample) :
    Talks me (serveSample sample) (word me (charS :: Server.sendSample sample)) () :=
  (talks_send [charS]).bind (talks_sendSample sample)

/-- The samples of a list and an `'N'`. -/
theorem talks_serveSamples (samples : List Sample) :
    Talks me (do samples.forM serveSample; send [charN]) (word me (sendSamples samples)) () := by
  rw [sendSamples, word_append, word_flatMap]
  exact (Talks.forM samples fun sample _ => talks_serveSample sample).bind (talks_send [charN])

/-- Samples are sent one after the other, and an `N` behind the last.  -/
theorem sendSamples_cons (sample : Sample) (samples : List Sample) :
    sendSamples (sample :: samples) = (charS :: Server.sendSample sample) ++ sendSamples samples := by
  simp [sendSamples]

/-- **Samples are received as they were sent**, as many as there are, up to the `N`: each
comes behind an `S`, with its size.  -/
theorem talks_recvSamples (samples : List Sample) :
    Talks me recvSamples (word (!me) (sendSamples samples)) samples := by
  have hlast : ∀ acc : List Sample, Talks me (recvSamplesBody acc) (word (!me) [charN])
      (.inr acc) := fun acc =>
    (talks_readChar charN).bind_nil (Talks.pure (Sum.inr acc))
  have hnext : ∀ (acc : List Sample) (sample : Sample), Talks me (recvSamplesBody acc)
      (word (!me) (charS :: Server.sendSample sample)) (.inl (acc ++ [sample])) := by
    intro acc sample
    exact (talks_readChar charS).bind ((talks_recvSample sample).bind_pure
      fun x => (Sum.inl (acc ++ [x]) : List Sample ⊕ List Sample))
  have key : ∀ samples acc : List Sample, Talks me (Party.forever recvSamplesBody acc)
      (word (!me) (sendSamples samples)) (acc ++ samples) := by
    intro samples
    induction samples with
    | nil =>
        intro acc
        rw [List.append_nil]
        exact Talks.forever_last (hlast acc)
    | cons sample samples ih =>
        intro acc
        have := Talks.forever_next (hnext acc sample) (ih (acc ++ [sample]))
        rwa [← word_append, ← sendSamples_cons, List.append_assoc] at this
  exact key samples []

/-! ### Coverage -/

/-- Below `2^31` an `int` holds the number. -/
theorem intToSize_of_lt {n : ℕ} (h : n < 2 ^ 31) : intToSize n = n := by
  have hmod : n % 2 ^ 32 = n := Nat.mod_eq_of_lt (by omega)
  rw [intToSize, hmod, if_pos h]

/-- The bytes behind the first `i` numbers of an array. -/
theorem drop_flatMap_u64 (offsets : List UInt64) (i : ℕ) :
    (offsets.flatMap fun offset => u64 offset.toNat).drop (8 * i) =
      (offsets.drop i).flatMap fun offset => u64 offset.toNat := by
  induction offsets generalizing i with
  | nil => simp
  | cons offset offsets ih =>
      rcases i with _ | i
      · rfl
      · have hlen : (u64 offset.toNat).length = 8 := length_toLE 8 _
        rw [List.flatMap_cons, List.drop_succ_cons, ← ih i, Nat.mul_succ, Nat.add_comm,
          ← List.drop_drop, List.drop_left' hlen]

/-- Eight bytes for each offset.  -/
theorem length_flatMap_u64 (offsets : List UInt64) :
    (offsets.flatMap fun offset => u64 offset.toNat).length = 8 * offsets.length := by
  induction offsets with
  | nil => rfl
  | cons offset offsets ih =>
      have hlen : (u64 offset.toNat).length = 8 := length_toLE 8 _
      rw [List.flatMap_cons, List.length_append, ih, hlen, List.length_cons]
      omega

/-- **An array of offsets is read back exactly** from the bytes of its numbers, so nothing
that was in the memory before is left in it.  -/
theorem offsetsIn_flatMap (uninit : ℕ → UInt64) (offsets : List UInt64) :
    offsetsIn uninit offsets.length (offsets.flatMap fun offset => u64 offset.toNat) =
      offsets := by
  refine List.ext_getElem (by simp [offsetsIn]) fun i h₁ h₂ => ?_
  have hlen : (u64 (offsets[i]).toNat).length = 8 := length_toLE 8 _
  have hle : 8 * i + 8 ≤ (offsets.flatMap fun offset => u64 offset.toNat).length := by
    rw [length_flatMap_u64]
    omega
  have hlt : (offsets[i]).toNat < 256 ^ 8 := by
    have := (offsets[i]).toNat_lt
    simpa using this
  simp only [offsetsIn, List.getElem_map, List.getElem_range]
  rw [if_pos hle, drop_flatMap_u64, List.drop_eq_getElem_cons h₂, List.flatMap_cons,
    List.take_left' hlen, u64, ofLE_toLE_of_lt hlt, UInt64.ofNat_toNat]

/-- The array that is sent has eight bytes for each offset of the module, which is the size
that its receiver computes from the count.  -/
theorem length_offsetsArray (m : ModuleCoverage) :
    (offsetsArray m).length = m.offsets.card * 8 := by
  rw [offsetsArray, length_flatMap_u64, sortedOffsets, Finset.length_sort, Nat.mul_comm]

/-- The offsets of a module are those of the array. -/
theorem offsetsIn_offsetsArray (uninit : ℕ → UInt64) (m : ModuleCoverage) :
    (offsetsIn uninit m.offsets.card (offsetsArray m)).toFinset = m.offsets := by
  have hlen : m.offsets.card = (sortedOffsets m).length := (Finset.length_sort _).symm
  rw [offsetsArray, hlen, offsetsIn_flatMap, sortedOffsets, Finset.sort_toFinset]

/-- A module as it is sent. -/
def moduleBytes (m : ModuleCoverage) : Bytes :=
  charC :: (stringBytes m.moduleName ++ (u64 m.offsets.card ++ offsetsArray m))

/-- A coverage as it is sent. -/
def coverageBytes (coverage : Coverage) : Bytes := coverage.flatMap moduleBytes ++ [charN]

/-- A module that the protocol can carry: `size()` of its name is a `uint64_t`, and it
has fewer than `2^28` offsets. -/
def Sendable (m : ModuleCoverage) : Prop :=
  m.moduleName.length < 2 ^ 64 ∧ m.offsets.card < 2 ^ 28

/-- A module is sent as its name, the number of its offsets, and these, in the order in
which the set gives them.  -/
theorem talks_sendModule {m : ModuleCoverage} (hm : Sendable m) :
    Talks me (sendModule m) (word me (moduleBytes m)) () := by
  have hsize : intToSize (m.offsets.card * 8) = (offsetsArray m).length := by
    rw [length_offsetsArray, intToSize_of_lt]
    have := hm.2
    omega
  have harray : (offsetsArray m).take (intToSize (m.offsets.card * 8)) = offsetsArray m := by
    rw [hsize, List.take_length]
  have hword : word me (moduleBytes m) = word me [charC] ++ (word me (stringBytes m.moduleName) ++
      (word me (u64 m.offsets.card) ++ word me (offsetsArray m))) := by
    simp [moduleBytes, word]
  rw [hword]
  refine (talks_send [charC]).bind ((talks_sendString _).bind ((talks_send _).bind ?_))
  rw [harray]
  exact talks_send _

/-- A coverage is sent module by module, with a `C` in front of each and an `N` behind the
last.  -/
theorem talks_sendCoverage {coverage : Coverage} (h : ∀ m ∈ coverage, Sendable m) :
    Talks me (sendCoverage coverage) (word me (coverageBytes coverage)) () := by
  rw [coverageBytes, word_append, word_flatMap]
  exact (Talks.forM coverage fun m hm => talks_sendModule (h m hm)).bind (talks_send [charN])

/-- Offsets that are inserted into a new module make up all of it.  -/
theorem insertOffsets_snoc (coverage : Coverage) (moduleName : Bytes) (offsets : List UInt64) :
    insertOffsets (coverage ++ [⟨moduleName, ∅⟩]) coverage.length offsets =
      coverage ++ [⟨moduleName, offsets.toFinset⟩] := by
  induction coverage with
  | nil => simp [insertOffsets]
  | cons m coverage ih => exact congrArg (m :: ·) ih

section

variable [TinyInst]

/-- **The entry found is the one added**, for a name that is not there: a new entry at the
end, without offsets.  -/
theorem findOrAddModule_of_forall_ne {coverage : Coverage} {moduleName : Bytes}
    (h : ∀ m ∈ coverage, m.moduleName ≠ moduleName) :
    findOrAddModule coverage moduleName =
      (coverage ++ [⟨moduleName, ∅⟩], some coverage.length) := by
  have hnone : getModuleCoverage coverage moduleName = none := by
    rcases hget : getModuleCoverage coverage moduleName with _ | i
    · rfl
    · obtain ⟨m, hm, hname⟩ := TinyInst.getModuleCoverage_some _ _ _ hget
      exact absurd hname (h m (List.mem_of_getElem? hm))
  have hsome : getModuleCoverage (coverage ++ [⟨moduleName, ∅⟩]) moduleName =
      some coverage.length := by
    rcases hget : getModuleCoverage (coverage ++ [⟨moduleName, ∅⟩]) moduleName with _ | i
    · exact absurd rfl (TinyInst.getModuleCoverage_none _ _ hget ⟨moduleName, ∅⟩ (by simp))
    · obtain ⟨m, hm, hname⟩ := TinyInst.getModuleCoverage_some _ _ _ hget
      have hlt : i < (coverage ++ [(⟨moduleName, ∅⟩ : ModuleCoverage)]).length :=
        (List.getElem?_eq_some_iff.1 hm).1
      rw [List.length_append, List.length_singleton] at hlt
      rcases Nat.lt_or_ge i coverage.length with hi | hi
      · rw [List.getElem?_append_left hi] at hm
        exact absurd hname (h m (List.mem_of_getElem? hm))
      · rw [show i = coverage.length by omega] at hget
        exact hget
  rw [findOrAddModule, hnone]
  exact congrArg (Prod.mk _) hsome

/-- **A module is received as it was sent**, as a new entry, if none of those before has its
name.  -/
theorem talks_recvModule (uninit : Coverage → ℕ → UInt64) {coverage : Coverage}
    {m : ModuleCoverage} (hm : Sendable m) (h : ∀ m' ∈ coverage, m'.moduleName ≠ m.moduleName) :
    Talks me (recvModule uninit coverage)
      (word (!me) (stringBytes m.moduleName ++ (u64 m.offsets.card ++ offsetsArray m)))
      (coverage ++ [m]) := by
  have hcard := hm.2
  have hsize : (offsetsArray m).length = intToSize (m.offsets.card * 8) := by
    rw [length_offsetsArray, intToSize_of_lt (by omega)]
  rw [word_append, word_append]
  refine (talks_recvString hm.1).bind ?_
  rw [findOrAddModule_of_forall_ne h]
  refine (talks_readU64 (by omega)).bind ?_
  rw [if_neg (by omega)]
  have hread := (@talks_read me _ _ hsize).bind_pure fun bytes =>
    insertOffsets (coverage ++ [⟨m.moduleName, ∅⟩]) coverage.length
      (offsetsIn (uninit (coverage ++ [⟨m.moduleName, ∅⟩])) m.offsets.card bytes)
  rwa [insertOffsets_snoc, offsetsIn_offsetsArray] at hread

/-- **A coverage is read back exactly**, when its module names are distinct: each record
finds no entry of its name and adds one, so the entries come in the order in which they were
sent.  -/
theorem talks_recvCoverage (uninit : Coverage → ℕ → UInt64) {coverage : Coverage}
    (hnames : (coverage.map ModuleCoverage.moduleName).Nodup)
    (h : ∀ m ∈ coverage, Sendable m) :
    Talks me (recvCoverage uninit) (word (!me) (coverageBytes coverage)) coverage := by
  have key : ∀ coverage acc : Coverage,
      ((acc ++ coverage).map ModuleCoverage.moduleName).Nodup → (∀ m ∈ coverage, Sendable m) →
        Talks me (Party.forever (recvCoverageBody uninit) acc)
          (word (!me) (coverageBytes coverage)) (acc ++ coverage) := by
    intro coverage
    induction coverage with
    | nil =>
        intro acc _ _
        rw [List.append_nil]
        exact Talks.forever_last
          ((talks_readChar charN).bind_nil (Talks.pure (Sum.inr acc)))
    | cons m coverage ih =>
        intro acc hnodup hsend
        have hnew : ∀ m' ∈ acc, m'.moduleName ≠ m.moduleName := by
          intro m' hm' heq
          rw [List.map_append, List.map_cons] at hnodup
          exact (List.nodup_append.1 hnodup).2.2 _ (List.mem_map_of_mem hm') _
            List.mem_cons_self heq
        have hround : Talks me (recvCoverageBody uninit acc) (word (!me) (moduleBytes m))
            (.inl (acc ++ [m])) :=
          (talks_readChar charC).bind ((talks_recvModule uninit
            (hsend m List.mem_cons_self) hnew).bind_pure Sum.inl)
        have hsnoc : acc ++ m :: coverage = acc ++ [m] ++ coverage := by simp
        rw [hsnoc] at hnodup ⊢
        have := Talks.forever_next hround
          (ih (acc ++ [m]) hnodup fun m' hm' => hsend m' (List.mem_cons_of_mem _ hm'))
        rwa [← word_append, coverageBytes, ← List.append_assoc, ← List.flatMap_cons] at this
  exact key coverage [] hnames h

end

/-! ### The three dialogues -/

/-- A client says what it wants, and waits for the `K` of the server.  -/
theorem talks_connectToServer (command : UInt8) :
    Talks me (CoverageClient.connectToServer command)
      (word me [command] ++ word (!me) [charK]) () := by
  have hreply : Talks me (readChar >>= fun reply => if reply = charK then pure () else .fail)
      (word (!me) [charK]) () :=
    (talks_readChar charK).bind_nil (Talks.pure ())
  exact (talks_send [command]).bind hreply

/-- A call of a client, once it is let in. -/
theorem talks_connected (command : UInt8) {p : Peer α} {tr : List (Bool × UInt8)} {a : α}
    (h : Talks me p tr a) :
    Talks me (CoverageClient.connectToServer command >>= fun _ => p)
      (word me [command] ++ (word (!me) [charK] ++ tr)) a := by
  rw [← List.append_assoc]
  exact (talks_connectToServer command).bind h

/-- The sample of a report, if there is one, and the `N` behind it.  -/
theorem talks_sendNewSample (newSample : Option Sample) :
    Talks me (do CoverageClient.sendNewSample newSample; send [charN])
      (word me (sendSamples newSample.toList)) () := by
  cases newSample with
  | none => exact (Talks.pure ()).bind (talks_send [charN])
  | some sample =>
      rw [Option.toList_some, sendSamples_cons, word_append]
      exact (talks_serveSample sample).bind (talks_send [charN])

/-! #### `ReportCrash` -/

/-- A crash as it is sent. -/
def crashBytes (crash : Sample) (crashDesc : Bytes) : Bytes :=
  charS :: (Server.sendSample crash ++ stringBytes crashDesc)

/-- The parts of a report of a crash.  -/
theorem word_crashBytes (who : Bool) (crash : Sample) (crashDesc : Bytes) :
    word who (crashBytes crash crashDesc) = word who [charS] ++
      (word who (Server.sendSample crash) ++ word who (stringBytes crashDesc)) := by
  simp [crashBytes, word]

/-- **The client reports a crash**: the command, the `K`, the sample and its description,
and the `N`. -/
theorem talks_client_reportCrash (crash : Sample) (crashDesc : Bytes) :
    Talks true (CoverageClient.reportCrash crash crashDesc)
      (word true [charX] ++ (word false [charK] ++ word true (crashBytes crash crashDesc ++ [charN])))
      () := by
  rw [word_append, word_crashBytes, List.append_assoc, List.append_assoc]
  exact talks_connected charX ((talks_send [charS]).bind ((talks_sendSample crash).bind
    ((talks_sendString crashDesc).bind (talks_send [charN]))))

/-- **The server receives it**, and records the crash with what `CheckFilename` says of its
description; it answers nothing, and both sides are done.  -/
theorem talks_server_reportCrash (crash : Sample) {crashDesc : Bytes}
    (h : crashDesc.length < 2 ^ 64) :
    Talks false CoverageServer.reportCrash (word true (crashBytes crash crashDesc ++ [charN]))
      [⟨crash, crashDesc, checkFilename crashDesc⟩] := by
  have hround : Talks false (CoverageServer.reportCrashBody [])
      (word true (crashBytes crash crashDesc))
      (.inl [⟨crash, crashDesc, checkFilename crashDesc⟩]) := by
    rw [word_crashBytes]
    refine (@talks_readChar false charS).bind ?_
    refine (@talks_recvSample false crash).bind ?_
    exact (@talks_recvString false _ h).bind_pure fun crashDesc =>
      (Sum.inl [⟨crash, crashDesc, checkFilename crashDesc⟩] :
        List ReceivedCrash ⊕ List ReceivedCrash)
  rw [word_append]
  exact Talks.forever_next hround (Talks.forever_last
    ((@talks_readChar false charN).bind_nil (Talks.pure (Sum.inr _))))

/-! #### `GetUpdates` -/

/-- **The client asks for updates**: the command, the `K`, its three numbers, and what it
receives then.  -/
theorem talks_client_getUpdates (clientId totalExecs : UInt64) (lastTimestamp : ℕ)
    {serverTimestamp : ℕ} (h : serverTimestamp < 2 ^ 64) (newSamples : List Sample) :
    Talks true (CoverageClient.getUpdates clientId totalExecs lastTimestamp)
      (word true [charU] ++ (word false [charK] ++
        (word true (updatesRequest clientId totalExecs lastTimestamp) ++
          word false (u64 serverTimestamp ++ sendSamples newSamples))))
      (serverTimestamp, newSamples) := by
  rw [updatesRequest, word_append, word_append, word_append, List.append_assoc, List.append_assoc]
  exact talks_connected charU ((talks_send _).bind ((talks_send _).bind ((talks_send _).bind
    ((talks_readU64 h).bind ((talks_recvSamples newSamples).bind_pure fun newSamples =>
      (serverTimestamp, newSamples))))))

/-- What `ServeUpdates` sends is what `Server.System` has it send: the server's timestamp
and the samples that are newer than the client's.  This is where the two models of the
server meet.  -/
theorem talks_server_serveUpdates {server : CoverageServer} {l : Ledger} (hl : Represents server l)
    (clientId totalExecs : UInt64) {lastTimestamp : ℕ} (h : lastTimestamp < 2 ^ 64) :
    Talks false (CoverageServer.serveUpdates server)
      (word true (updatesRequest clientId totalExecs lastTimestamp) ++
        word false (u64 server.serverTimestamp ++ sendSamples (l.journal.newer lastTimestamp)))
      () := by
  have hnil : [charN] = sendSamples [] := rfl
  rw [updatesRequest, word_append, word_append, word_append, List.append_assoc, List.append_assoc]
  refine (talks_readU64 clientId.toNat_lt).bind ((talks_readU64 totalExecs.toNat_lt).bind
    ((talks_readU64 h).bind ((talks_write _).bind ?_)))
  rw [hl.clock, hl.getIndex_eq, hl.samples]
  split
  · rw [l.journal.newer_of_clock_le (by assumption), ← hnil]
    exact talks_send [charN]
  · simp only []
    split
    · rw [Journal.newer, List.drop_eq_nil_of_le (by assumption), ← hnil]
      exact talks_send [charN]
    · exact talks_serveSamples _

section

variable [TinyInst]

/-- With a slot free, the handler lets the client in: it says `K` and goes on with the
command.  -/
theorem talks_handleConnection {found : Found} (hslot : found.numConnections < maxConnections)
    {command : UInt8} {tr : List (Bool × UInt8)} {r : Handled}
    (h : Talks false (CoverageServer.handleCommand found command) tr r) :
    Talks false (CoverageServer.handleConnection found)
      (word true [command] ++ (word false [charK] ++ tr)) r := by
  refine (@talks_readChar false command).bind ?_
  show Talks false (if found.numConnections + 1 > maxConnections then _ else _) _ _
  rw [if_neg (by omega)]
  exact (talks_send [charK]).bind h

/-! #### `ReportNewCoverage` -/

/-- What `ReportNewCoverage` makes of a coverage and samples. -/
def Found.reported (found : Found) (coverage : Coverage) (newSamples : List Sample) : Reported :=
  if (hasNewCoverage found.atCheck coverage).1 then
    .committed coverage newSamples
      (commitReport found.atCommit (hasNewCoverage found.atCheck coverage).2 newSamples)
  else .nothingNew coverage

/-- What follows the coverage: the samples, if the server asks for them. -/
def answerScript (found : Found) (coverage : Coverage) (newSamples : List Sample) :
    List (Bool × UInt8) :=
  if (hasNewCoverage found.atCheck coverage).1 then
    word false [charY] ++ word true (sendSamples newSamples)
  else word false [charN]

/-- **The client reports coverage**: the command, the `K`, the coverage, and its sample if
the server wants it.  -/
theorem talks_client_reportNewCoverage (found : Found) {newCoverage : Coverage}
    (h : ∀ m ∈ newCoverage, Sendable m) (newSample : Option Sample) :
    Talks true (CoverageClient.reportNewCoverage newCoverage newSample)
      (word true [charS] ++ (word false [charK] ++ (word true (coverageBytes newCoverage) ++
        answerScript found newCoverage newSample.toList))) () := by
  refine talks_connected charS ((talks_sendCoverage h).bind ?_)
  unfold answerScript
  by_cases hnew : (hasNewCoverage found.atCheck newCoverage).1 = true
  · rw [if_pos hnew]
    exact (talks_readChar charY).bind (talks_sendNewSample newSample)
  · rw [if_neg hnew]
    exact (talks_readChar charN).bind_nil (Talks.pure ())

/-- **The server receives it**: the coverage, its own answer, and the samples if there was
something new.  The client waits for the answer and sends no sample if it is 0. -/
theorem talks_server_reportNewCoverage (found : Found) {coverage : Coverage}
    (hnames : (coverage.map ModuleCoverage.moduleName).Nodup)
    (h : ∀ m ∈ coverage, Sendable m) (newSamples : List Sample) :
    Talks false (CoverageServer.reportNewCoverage found)
      (word true (coverageBytes coverage) ++ answerScript found coverage newSamples)
      (found.reported coverage newSamples) := by
  refine (@talks_recvCoverage false _ found.uninit _ hnames h).bind ?_
  unfold answerScript Found.reported
  rcases hnew : hasNewCoverage found.atCheck coverage with ⟨isNew, newClientCoverage⟩
  cases isNew with
  | false => exact (talks_send [charN]).bind_pure fun _ => Reported.nothingNew coverage
  | true =>
      exact (talks_send [charY]).bind ((@talks_recvSamples false newSamples).bind_pure
        fun newSamples => Reported.committed coverage newSamples
          (commitReport found.atCommit newClientCoverage newSamples))

/-! #### Agreement -/

/-- **Client and server agree.**  Whatever the runs before (reports, snapshots, kills and
restarts), with a connection slot free, each of the three calls of a client and the
handler of its connection come to an end, however the bytes arrive: both return 1, no
byte is left, and the coverage, the samples and the description that one side decoded
are those that the other encoded. -/
theorem client_server_agree [CoverageBinary] {ι κ : Type} [DecidableEq ι] [DecidableEq κ]
    {uninit : ℕ → ℕ → UInt64} {sampleFiles : ℕ → Option Sample} {inputs : ι → Bytes}
    {clientIds : κ → UInt64} {tr : List (SessionEvent ι κ)} {s : Sessions ι κ}
    (h : Run (SessionStep uninit) (Sessions.init sampleFiles inputs clientIds) tr s)
    (hfit : ∀ server, SessionEvent.saved server ∈ tr → server.Fits)
    (hclock : s.system.server.serverTimestamp < 2 ^ 64) {found : Found}
    (hserver : found.atUpdates = s.system.server)
    (hslot : found.numConnections < maxConnections) :
    (∀ newCoverage newSample, (newCoverage.map ModuleCoverage.moduleName).Nodup →
      (∀ m ∈ newCoverage, Sendable m) →
        Agrees maxChunk (CoverageClient.reportNewCoverage newCoverage newSample)
          (CoverageServer.handleConnection found) ()
          (.reported (found.reported newCoverage newSample.toList))) ∧
    (∀ crash crashDesc, crashDesc.length < 2 ^ 64 →
      Agrees maxChunk (CoverageClient.reportCrash crash crashDesc)
        (CoverageServer.handleConnection found) ()
        (.crashes [⟨crash, crashDesc, checkFilename crashDesc⟩])) ∧
    ∃ l, Represents s.system.server l ∧ ∀ clientId totalExecs lastTimestamp,
      lastTimestamp < 2 ^ 64 →
        Agrees maxChunk (CoverageClient.getUpdates clientId totalExecs lastTimestamp)
          (CoverageServer.handleConnection found)
          (s.system.server.serverTimestamp, l.journal.newer lastTimestamp) .updated := by
  have hchunk : 0 < maxChunk := by decide
  obtain ⟨⟨_, l, hrep⟩, -, -⟩ := SessionsOk.run h hfit
  refine ⟨fun newCoverage newSample hnames hsend => ?_, fun crash crashDesc hlen => ?_,
    l, hrep.represents, fun clientId totalExecs lastTimestamp hlast => ?_⟩
  · refine agrees_of_talks hchunk (talks_client_reportNewCoverage found hsend newSample) ?_
    refine talks_handleConnection hslot ?_
    exact (talks_server_reportNewCoverage found hnames hsend _).bind_pure Handled.reported
  · refine agrees_of_talks hchunk (talks_client_reportCrash crash crashDesc) ?_
    refine talks_handleConnection hslot ?_
    exact (talks_server_reportCrash crash hlen).bind_pure Handled.crashes
  · refine agrees_of_talks hchunk
      (talks_client_getUpdates clientId totalExecs lastTimestamp hclock _) ?_
    refine talks_handleConnection hslot ?_
    have := talks_server_serveUpdates hrep.represents clientId totalExecs hlast
    rw [← hserver] at this ⊢
    exact this.bind_pure fun _ => Handled.updated

end

end

/-! ### One server, three clients -/

section

attribute [local instance] listTinyInst taggedBinary

/-- The server of `oneReport`, to which a client reports, another one a crash, and from
which a third one gets its sample.  All three calls end, on both sides and with nothing left
in the connection, and what was received is what was sent.  -/
theorem client_server_agree_oneReport :
    ∃ found : Found, found.atUpdates.corpus.samples = [oneSample] ∧
      Agrees maxChunk (CoverageClient.reportNewCoverage oneCoverage (some oneSample))
        (CoverageServer.handleConnection found) ()
        (.reported (found.reported oneCoverage [oneSample])) ∧
      Agrees maxChunk (CoverageClient.reportCrash oneSample (str "crash"))
        (CoverageServer.handleConnection found) () (.crashes [⟨oneSample, str "crash", true⟩]) ∧
      Agrees maxChunk (CoverageClient.getUpdates 7 100 0)
        (CoverageServer.handleConnection found) (1, [oneSample]) .updated := by
  obtain ⟨s, hrun, -, -, hserver⟩ := run_oneReport
  let found : Found := ⟨0, CoverageServer.init fun _ => none, s.server, s.server, fun _ _ => 0⟩
  have hclock : s.server.serverTimestamp = 1 := by
    rw [hserver]
    rfl
  have hsamples : s.server.corpus.samples = [oneSample] := by
    rw [hserver]
    rfl
  obtain ⟨hreport, hcrash, l, hl, hupdates⟩ := client_server_agree (sessions_run hrun none)
    (by simp) (by rw [hclock]; decide) (rfl : found.atUpdates = s.server) (Nat.succ_pos 7)
  have hnewer : l.journal.newer 0 = [oneSample] := by
    have := l.journal.upTo_append_newer 0
    rwa [Journal.upTo_zero, List.nil_append, ← hl.samples, hsamples] at this
  have hthird := hupdates 7 100 0 (by decide)
  rw [hnewer, hclock] at hthird
  exact ⟨found, hsamples, hreport _ _ (by decide) (by simp [oneCoverage, Sendable, str]),
    hcrash _ _ (by decide), hthird⟩

end

end Connection
end Server
end Jackalope
