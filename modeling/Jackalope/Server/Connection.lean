/-
# One connection, from both ends

`ServerCommon` (`server.cpp`, lines 24-189), the handlers of `CoverageServer` (lines
224-437 and 507-545) and the calls of `CoverageClient` (`client.cpp`, lines 97-232),
each as a party of a dialogue.  `recv` and the loop of `Read` around it are one step of
the dialogue for each piece (`Act.chunk`); `return 0` gives the connection up, and so
does `ConnectToServer` where the source disconnects, sleeps and tries another one.

What other connections do in the meantime shows in what a handler finds when it takes a
lock: the fields of `Found`.  The handlers return what they decoded and what they did
with it.

The two halves of a message are written separately in the source, and here too.
-/

import Jackalope.Crashes.Reports
import Jackalope.Foundation.Dialogue
import Jackalope.Server.System
import Jackalope.StateFile

namespace Jackalope
namespace Server
namespace Connection

open Foundation Foundation.Dialogue

/-- A function with the socket. -/
abbrev Peer := Party UInt8

/-- The chunk that `Read` and `Write` do not exceed. -/
def maxChunk : ℕ := 0x100000

/-- `'K'`. -/
def charK : UInt8 := 75
/-- `'U'`. -/
def charU : UInt8 := 85
/-- `'W'`. -/
def charW : UInt8 := 87
/-- `'X'`. -/
def charX : UInt8 := 88
/-- `'Y'`. -/
def charY : UInt8 := 89

/-! ### `ServerCommon` -/

/-- `send`. -/
def send (buf : Bytes) : Peer Unit := Party.say buf

/-- `ServerCommon::Read`. -/
def read (size : ℕ) : Peer Bytes := Party.hear size

/-- One round of `ServerCommon::Write`. -/
def writeBody (toWrite : Bytes) : Peer (Bytes ⊕ Unit) :=
  if toWrite = [] then pure (.inr ())
  else do
    send (toWrite.take maxChunk)
    pure (.inl (toWrite.drop maxChunk))

/-- `ServerCommon::Write`. -/
def write (buf : Bytes) : Peer Unit := Party.forever writeBody buf

/-- `Read` of a `char`. -/
def readChar : Peer UInt8 := do
  let buf ← read 1
  pure (buf.headD 0)

/-- `Read` of a `uint64_t`. -/
def readU64 : Peer ℕ := do
  let buf ← read 8
  pure (ofLE buf)

/-- `ServerCommon::SendSample`. -/
def sendSample (sample : Sample) : Peer Unit := do
  write (u64 sample.size)
  write sample.bytes

/-- `ServerCommon::RecvSample`. -/
def recvSample : Peer Sample := do
  let sampleSize ← readU64
  let newBytes ← read sampleSize
  pure (Sample.init newBytes)

/-- `ServerCommon::SendString`. -/
def sendString (s : Bytes) : Peer Unit := do
  write (u64 s.length)
  write s

/-- `ServerCommon::RecvString`. -/
def recvString : Peer Bytes := do
  let size ← readU64
  read size

/-- The array that `SendCoverage` copies a `std::set` of offsets to. -/
def offsetsArray (m : ModuleCoverage) : Bytes :=
  (sortedOffsets m).flatMap fun offset => u64 offset.toNat

/-- One round of the loop of `SendCoverage`.  The length of the array is passed as an
`int`. -/
def sendModule (m : ModuleCoverage) : Peer Unit := do
  let numOffsets := m.offsets.card
  send [charC]
  sendString m.moduleName
  send (u64 numOffsets)
  send ((offsetsArray m).take (intToSize (numOffsets * 8)))

/-- `ServerCommon::SendCoverage`. -/
def sendCoverage (coverage : Coverage) : Peer Unit := do
  coverage.forM sendModule
  send [charN]

/-- One round of the loops that read samples (`ReportNewCoverage`, `GetUpdates`). -/
def recvSamplesBody (samples : List Sample) : Peer (List Sample ⊕ List Sample) := do
  let command ← readChar
  if command = charN then pure (.inr samples)
  else if command ≠ charS then .fail
  else do
    let sample ← recvSample
    pure (.inl (samples ++ [sample]))

/-- The loop itself. -/
def recvSamples : Peer (List Sample) := Party.forever recvSamplesBody []

section

variable [TinyInst]

/-- The part of a round of `RecvCoverage` behind the `'C'`.  `uninit` is what the
buffer that `malloc` returned holds. -/
def recvModule (uninit : Coverage → ℕ → UInt64) (coverage : Coverage) : Peer Coverage := do
  let moduleName ← recvString
  let (coverage, moduleCoverage) := findOrAddModule coverage moduleName
  let numOffsets ← readU64
  if numOffsets > (2 ^ 64 - 1) / 8 then .fail
  else do
    let bytes ← read (intToSize (numOffsets * 8))
    match moduleCoverage with
    | none => .fail -- not reached: the entry is there
    | some i => pure (insertOffsets coverage i (offsetsIn (uninit coverage) numOffsets bytes))

/-- One round of `RecvCoverage`. -/
def recvCoverageBody (uninit : Coverage → ℕ → UInt64) (coverage : Coverage) :
    Peer (Coverage ⊕ Coverage) := do
  let command ← readChar
  if command = charN then pure (.inr coverage)
  else if command ≠ charC then .fail
  else do
    let coverage ← recvModule uninit coverage
    pure (.inl coverage)

/-- `ServerCommon::RecvCoverage` into an empty coverage. -/
def recvCoverage (uninit : Coverage → ℕ → UInt64) : Peer Coverage :=
  Party.forever (recvCoverageBody uninit) []

end

/-! ### The readers of `Server.Wire`

There the peer is the list of bytes that it will ever deliver, so a function that only
receives is a reader of that list.  The readers are what the functions here are when
what they send is left out. -/

/-- What a socket gives for a character is what the reader of the stream gives.  -/
theorem listen_readChar : readChar.listen = Server.readChar := by
  rw [readChar, Party.listen_bind, read, Party.listen_hear]
  funext incoming
  cases incoming <;> rfl

/-- The same for a number.  -/
theorem listen_readU64 : readU64.listen = Server.readU64 := by
  rw [readU64, Party.listen_bind, read, Party.listen_hear]
  rfl

/-- The same for a sample.  -/
theorem listen_recvSample : recvSample.listen = Server.recvSample := by
  rw [recvSample, Party.listen_bind, listen_readU64]
  refine congrArg _ (funext fun sampleSize => ?_)
  rw [Party.listen_bind, read, Party.listen_hear]
  rfl

/-- The same for a string.  -/
theorem listen_recvString : recvString.listen = Server.recvString := by
  rw [recvString, Party.listen_bind, listen_readU64]
  exact congrArg _ (funext fun size => Party.listen_hear size)

/-- The same for samples, up to the `N` behind the last one.  -/
theorem listen_recvSamples : recvSamples.listen = Server.recvSamples := by
  rw [recvSamples, Party.listen_forever]
  refine congrArg (Consumer.loop () · []) (funext fun samples => ?_)
  rw [recvSamplesBody, Party.listen_bind, listen_readChar]
  refine congrArg _ (funext fun command => ?_)
  split
  · rfl
  · split
    · rfl
    · rw [Party.listen_bind, listen_recvSample]
      rfl

/-- The same for one module of a coverage, whatever is in the memory that `malloc` gives.
-/
theorem listen_recvModule [TinyInst] (uninit : ℕ → UInt64) (coverage : Coverage) :
    (recvModule (fun _ => uninit) coverage).listen =
      Server.recvModule (fun _ => uninit) coverage := by
  rw [recvModule, Party.listen_bind, listen_recvString]
  refine congrArg _ (funext fun moduleName => ?_)
  rcases findOrAddModule coverage moduleName with ⟨coverage, moduleCoverage⟩
  rw [Party.listen_bind, listen_readU64]
  refine congrArg _ (funext fun numOffsets => ?_)
  split
  · rfl
  · rw [Party.listen_bind, read, Party.listen_hear]
    cases moduleCoverage <;> rfl

/-- **What `RecvCoverage` makes of a socket is what it makes of the stream of its bytes**,
so what is proved of the one holds of the other.  -/
theorem listen_recvCoverage [TinyInst] (uninit : ℕ → UInt64) :
    (recvCoverage fun _ => uninit).listen = Server.recvCoverage fun _ => uninit := by
  rw [recvCoverage, Party.listen_forever]
  refine congrArg (Consumer.loop () · []) (funext fun coverage => ?_)
  rw [recvCoverageBody, Party.listen_bind, listen_readChar]
  refine congrArg _ (funext fun command => ?_)
  split
  · rfl
  · split
    · rfl
    · rw [Party.listen_bind, listen_recvModule]
      rfl

/-! ### `CoverageServer` -/

/-- `MAX_CONNECTIONS`. -/
def maxConnections : ℕ := 8

/-- What the handler of a connection finds: `num_connections` under
`connection_mutex`, before it is incremented; the server under the read lock and under
the write lock of `ReportNewCoverage` and under the read lock of `ServeUpdates`; and
what the buffers returned by `malloc` hold. -/
structure Found where
  numConnections : ℕ
  atCheck : CoverageServer
  atCommit : CoverageServer
  atUpdates : CoverageServer
  uninit : Coverage → ℕ → UInt64

/-- What `ReportNewCoverage` decoded and did. -/
inductive Reported
  /-- It answered `'N'`. -/
  | nothingNew (clientCoverage : Coverage)
  /-- It left the server like this. -/
  | committed (clientCoverage : Coverage) (newSamples : List Sample) (server : CoverageServer)

section

variable [TinyInst]

/-- `CoverageServer::ReportNewCoverage`. -/
def CoverageServer.reportNewCoverage (found : Found) : Peer Reported := do
  let clientCoverage ← recvCoverage found.uninit
  let (isNew, newClientCoverage) := hasNewCoverage found.atCheck clientCoverage
  if !isNew then do
    send [charN]
    pure (.nothingNew clientCoverage)
  else do
    send [charY]
    let newSamples ← recvSamples
    pure (.committed clientCoverage newSamples
      (commitReport found.atCommit newClientCoverage newSamples))

end

/-- A crash that `ReportCrash` decoded, and whether it went on to count it. -/
structure ReceivedCrash where
  sample : Sample
  crashDesc : Bytes
  counted : Bool

/-- One round of `ReportCrash`.  The section under `crash_mutex` (`countAndSave`) does
not use the socket. -/
def CoverageServer.reportCrashBody (crashes : List ReceivedCrash) :
    Peer (List ReceivedCrash ⊕ List ReceivedCrash) := do
  let command ← readChar
  if command = charN then pure (.inr crashes)
  else if command ≠ charS then .fail
  else do
    let sample ← recvSample
    let crashDesc ← recvString
    pure (.inl (crashes ++ [⟨sample, crashDesc, checkFilename crashDesc⟩]))

/-- `CoverageServer::ReportCrash`. -/
def CoverageServer.reportCrash : Peer (List ReceivedCrash) :=
  Party.forever CoverageServer.reportCrashBody []

/-- The round of the loop of `ServeUpdates` for one sample. -/
def serveSample (sample : Sample) : Peer Unit := do
  send [charS]
  sendSample sample

/-- `CoverageServer::ServeUpdates`. -/
def CoverageServer.serveUpdates (server : CoverageServer) : Peer Unit := do
  let _clientId ← readU64
  let _clientExecs ← readU64
  let timestamp ← readU64
  write (u64 server.serverTimestamp)
  if timestamp ≥ server.serverTimestamp then send [charN]
  else
    match getIndex server.corpus.timestamps timestamp server.corpus.samples.length with
    | none => .fail -- the `FATAL` of `GetIndex`
    | some firstIndex =>
        if firstIndex ≥ server.corpus.samples.length then send [charN]
        else do
          (server.corpus.samples.drop firstIndex).forM serveSample
          send [charN]

/-- What `HandleConnection` did when it returned 1. -/
inductive Handled
  /-- It answered `'W'`. -/
  | turnedAway
  | crashes (received : List ReceivedCrash)
  | reported (report : Reported)
  | updated

section

variable [TinyInst]

/-- What `HandleConnection` does with the command of a client it lets in. -/
def CoverageServer.handleCommand (found : Found) (command : UInt8) : Peer Handled :=
  if command = charX then do
    let received ← CoverageServer.reportCrash
    pure (.crashes received)
  else if command = charS then do
    let report ← CoverageServer.reportNewCoverage found
    pure (.reported report)
  else if command = charU then do
    CoverageServer.serveUpdates found.atUpdates
    pure .updated
  else .fail

/-- `CoverageServer::HandleConnection`. -/
def CoverageServer.handleConnection (found : Found) : Peer Handled := do
  let command ← readChar
  let curNConnections := found.numConnections + 1
  if curNConnections > maxConnections then do
    send [charW]
    pure .turnedAway
  else do
    send [charK]
    CoverageServer.handleCommand found command

end

/-! ### `CoverageClient` -/

/-- `CoverageClient::ConnectToServer`, on one connection. -/
def CoverageClient.connectToServer (command : UInt8) : Peer Unit := do
  send [command]
  let reply ← readChar
  if reply = charK then pure () else .fail

/-- `CoverageClient::ReportCrash`. -/
def CoverageClient.reportCrash (crash : Sample) (crashDesc : Bytes) : Peer Unit := do
  CoverageClient.connectToServer charX
  send [charS]
  sendSample crash
  sendString crashDesc
  send [charN]

/-- `if (new_sample)` of `ReportNewCoverage`. -/
def CoverageClient.sendNewSample : Option Sample → Peer Unit
  | some newSample => do
      send [charS]
      sendSample newSample
  | none => pure ()

/-- `CoverageClient::ReportNewCoverage`. -/
def CoverageClient.reportNewCoverage (newCoverage : Coverage) (newSample : Option Sample) :
    Peer Unit := do
  CoverageClient.connectToServer charS
  sendCoverage newCoverage
  let reply ← readChar
  if reply = charN then pure ()
  else do
    CoverageClient.sendNewSample newSample
    send [charN]

/-- `CoverageClient::GetUpdates`: what becomes `last_timestamp`, and `new_samples`.
Whether a sample is then kept in memory or in a file does not matter here. -/
def CoverageClient.getUpdates (clientId totalExecs : UInt64) (lastTimestamp : ℕ) :
    Peer (ℕ × List Sample) := do
  CoverageClient.connectToServer charU
  send (u64 clientId.toNat)
  send (u64 totalExecs.toNat)
  send (u64 lastTimestamp)
  let serverTimestamp ← readU64
  let newSamples ← recvSamples
  pure (serverTimestamp, newSamples)

end Connection
end Server
end Jackalope
