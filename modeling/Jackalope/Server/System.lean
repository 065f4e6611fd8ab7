/-
# One server, its report connections and its clients

The steps of `CoverageServer` (`server.cpp`) and `CoverageClient` (`client.cpp`)
at the granularity of the server's lock sections.  A report connection receives
its coverage, is checked under the read lock, receives its samples, and is
committed under the write lock; whatever the peer sends, and wherever it stops
sending, is the list of bytes the connection starts with.  A client calls
`GetUpdates` again and again: it sends its request, the server answers some
prefix of it under the read lock, and the client reads some prefix of the answer.

The handler of a `GetUpdates` that its client gave up changes nothing when it
runs on, so a call that failed leaves nothing behind here.
-/

import Jackalope.Foundation.Run
import Jackalope.Server.State

namespace Jackalope
namespace Server

open Foundation Foundation.Consumer

/-- The three numbers with which `GetUpdates` begins and `ServeUpdates` reads. -/
def updatesRequest (clientId totalExecs : UInt64) (lastTimestamp : ℕ) : Bytes :=
  u64 clientId.toNat ++ (u64 totalExecs.toNat ++ u64 lastTimestamp)

/-- `ServeUpdates` up to `mutex.LockRead()`: the timestamp the client sent. -/
def recvUpdatesRequest : Recv ℕ := do
  let _clientId ← readU64
  let _clientExecs ← readU64
  readU64

/-- `ServeUpdates` under the read lock.  There is no result if `GetIndex` is
fatal. -/
def updatesReply (server : CoverageServer) (timestamp : ℕ) : Option Bytes :=
  let header := u64 server.serverTimestamp
  if timestamp ≥ server.serverTimestamp then some (header ++ [charN])
  else
    match getIndex server.corpus.timestamps timestamp server.corpus.samples.length with
    | none => none
    | some firstIndex =>
        if firstIndex ≥ server.corpus.samples.length then some (header ++ [charN])
        else some (header ++ sendSamples (server.corpus.samples.drop firstIndex))

/-- `CoverageServer::ServeUpdates`: what it sends to a client that sent
`incoming`. -/
def serveUpdates (server : CoverageServer) (incoming : Bytes) : Option Bytes :=
  match recvUpdatesRequest incoming with
  | .error _ => some []
  | .ok (timestamp, _) => updatesReply server timestamp

/-- `CoverageClient::GetUpdates` behind the request: `server_timestamp` and the
samples. -/
def recvUpdates : Recv (ℕ × List Sample) := do
  let serverTimestamp ← readU64
  let newSamples ← recvSamples
  pure (serverTimestamp, newSamples)

/-- The request is read back, and nothing shorter is taken for one. -/
theorem decodes_recvUpdatesRequest (clientId totalExecs : UInt64) {lastTimestamp : ℕ}
    (h : lastTimestamp < 2 ^ 64) :
    Decodes recvUpdatesRequest (updatesRequest clientId totalExecs lastTimestamp)
      lastTimestamp :=
  (decodes_readU64 clientId.toNat_lt).bind
    ((decodes_readU64 totalExecs.toNat_lt).bind (decodes_readU64 h))

/-- The answer is read back, and nothing shorter is taken for one. -/
theorem decodes_recvUpdates {serverTimestamp : ℕ} (h : serverTimestamp < 2 ^ 64)
    (newSamples : List Sample) :
    Decodes recvUpdates (u64 serverTimestamp ++ sendSamples newSamples)
      (serverTimestamp, newSamples) :=
  (decodes_readU64 h).bind ((decodes_recvSamples newSamples).bind_pure fun s => (serverTimestamp, s))

/-- **What the server answers**: its clock, and the samples that are newer than
the client's. -/
theorem Represents.updatesReply_eq {server : CoverageServer} {l : Ledger}
    (h : Represents server l) (timestamp : ℕ) :
    updatesReply server timestamp =
      some (u64 l.journal.clock ++ sendSamples (l.journal.newer timestamp)) := by
  have hnil : [charN] = sendSamples [] := rfl
  rw [updatesReply, h.clock, h.getIndex_eq, h.samples]
  split
  · rw [l.journal.newer_of_clock_le (by assumption), hnil]
  · simp only []
    split
    · rw [Journal.newer, List.drop_eq_nil_of_le (by assumption), hnil]
    · rfl

/-! ### The system -/

/-- Where the handler of a report connection is in `ReportNewCoverage`. -/
inductive Report
  /-- Before or in `RecvCoverage`; the peer will deliver these bytes. -/
  | receiving (incoming : Bytes)
  /-- About to take the read lock. -/
  | checking (clientCoverage : Coverage) (incoming : Bytes)
  /-- `'Y'` was sent; the samples are being received. -/
  | transferring (clientCoverage newClientCoverage : Coverage) (incoming : Bytes)
  /-- About to take the write lock. -/
  | committing (clientCoverage newClientCoverage : Coverage) (newSamples : List Sample)
  /-- Returned 1 or 0. -/
  | returned (ret : Bool)

/-- Where a client is in `GetUpdates`. -/
inductive Call
  | idle
  /-- The request was sent. -/
  | requested (request : Bytes)
  /-- The server answered. -/
  | replied (reply : Bytes)

/-- The part of `CoverageClient` that `GetUpdates` uses. -/
structure Client where
  clientId : UInt64
  lastTimestamp : ℕ
  call : Call

/-- The server, the report connections and the clients. -/
structure System (ι κ : Type) where
  server : CoverageServer
  reports : ι → Report
  clients : κ → Client

/-- What can be seen of a step. -/
inductive Event (ι κ : Type)
  /-- The handler of report `i` moved on without deciding anything. -/
  | handled (i : ι)
  /-- A lock section decided report `i`: its handler returns 1. -/
  | reported (i : ι)
  /-- Client `c` called `GetUpdates`. -/
  | called (c : κ)
  /-- `ServeUpdates` for client `c` went through its locked section. -/
  | served (c : κ)
  /-- The `GetUpdates` of client `c` returned 1 and delivered these samples. -/
  | updated (c : κ) (samples : List Sample)
  /-- The `GetUpdates` of client `c` returned 0. -/
  | failed (c : κ)

/-- The client an event is about. -/
def Event.client {ι κ : Type} : Event ι κ → Option κ
  | .called c | .served c | .updated c _ | .failed c => some c
  | .handled _ | .reported _ => none

section

variable {ι κ : Type}

/-- No report was received, no client has synchronized. -/
def System.init (sampleFiles : ℕ → Option Sample) (inputs : ι → Bytes)
    (clientIds : κ → UInt64) : System ι κ where
  server := CoverageServer.init sampleFiles
  reports i := .receiving (inputs i)
  clients c := ⟨clientIds c, 0, .idle⟩

section

variable [DecidableEq ι]

def System.setReport (s : System ι κ) (i : ι) (r : Report) : System ι κ :=
  { s with reports := Function.update s.reports i r }

/-- The reports, when one of them goes on.  -/
theorem System.setReport_reports (s : System ι κ) (i j : ι) (r : Report) :
    (s.setReport i r).reports j = if j = i then r else s.reports j :=
  Function.update_apply _ _ _ _

end

section

variable [DecidableEq κ]

def System.setClient (s : System ι κ) (c : κ) (client : Client) : System ι κ :=
  { s with clients := Function.update s.clients c client }

def System.setCall (s : System ι κ) (c : κ) (call : Call) : System ι κ :=
  s.setClient c { s.clients c with call := call }

/-- The clients, when one of them changes.  -/
theorem System.setClient_clients (s : System ι κ) (c d : κ) (client : Client) :
    (s.setClient c client).clients d = if d = c then client else s.clients d :=
  Function.update_apply _ _ _ _

/-- The clients, when one of them goes on in its call, with what it remembers as it was.  -/
theorem System.setCall_clients (s : System ι κ) (c d : κ) (call : Call) :
    (s.setCall c call).clients d =
      if d = c then { s.clients c with call := call } else s.clients d :=
  s.setClient_clients _ _ _

end

variable [DecidableEq ι] [DecidableEq κ] [TinyInst]

/-- One step of one party. -/
inductive Step (uninit : ℕ → ℕ → UInt64) : System ι κ → Event ι κ → System ι κ → Prop
  | recvCoverage {s : System ι κ} {i incoming coverage rest} :
      s.reports i = .receiving incoming →
      recvCoverage uninit incoming = .ok (coverage, rest) →
      Step uninit s (.handled i) (s.setReport i (.checking coverage rest))
  | recvCoverageFailed {s : System ι κ} {i incoming e} :
      s.reports i = .receiving incoming →
      Server.recvCoverage uninit incoming = .error e →
      Step uninit s (.handled i) (s.setReport i (.returned false))
  | nothingNew {s : System ι κ} {i coverage incoming} :
      s.reports i = .checking coverage incoming →
      (hasNewCoverage s.server coverage).1 = false →
      Step uninit s (.reported i) (s.setReport i (.returned true))
  | somethingNew {s : System ι κ} {i coverage incoming} :
      s.reports i = .checking coverage incoming →
      (hasNewCoverage s.server coverage).1 = true →
      Step uninit s (.handled i)
        (s.setReport i (.transferring coverage (hasNewCoverage s.server coverage).2 incoming))
  | recvSamples {s : System ι κ} {i coverage newCoverage incoming newSamples rest} :
      s.reports i = .transferring coverage newCoverage incoming →
      Server.recvSamples incoming = .ok (newSamples, rest) →
      Step uninit s (.handled i) (s.setReport i (.committing coverage newCoverage newSamples))
  | recvSamplesFailed {s : System ι κ} {i coverage newCoverage incoming e} :
      s.reports i = .transferring coverage newCoverage incoming →
      Server.recvSamples incoming = .error e →
      Step uninit s (.handled i) (s.setReport i (.returned false))
  | commit {s : System ι κ} {i coverage newCoverage newSamples} :
      s.reports i = .committing coverage newCoverage newSamples →
      Step uninit s (.reported i)
        { s.setReport i (.returned true) with
          server := commitReport s.server newCoverage newSamples }
  | getUpdates {s : System ι κ} {c} (totalExecs : UInt64) :
      (s.clients c).call = .idle →
      Step uninit s (.called c) (s.setCall c
        (.requested (updatesRequest (s.clients c).clientId totalExecs (s.clients c).lastTimestamp)))
  /-- Of the request, `n` bytes arrive. -/
  | serve {s : System ι κ} {c request reply} (n : ℕ) :
      (s.clients c).call = .requested request →
      serveUpdates s.server (request.take n) = some reply →
      Step uninit s (.served c) (s.setCall c (.replied reply))
  /-- Of the answer, `n` bytes arrive, and they suffice. -/
  | update {s : System ι κ} {c reply serverTimestamp newSamples rest} (n : ℕ) :
      (s.clients c).call = .replied reply →
      recvUpdates (reply.take n) = .ok ((serverTimestamp, newSamples), rest) →
      Step uninit s (.updated c newSamples)
        (s.setClient c { s.clients c with lastTimestamp := serverTimestamp, call := .idle })
  | updateFailed {s : System ι κ} {c reply e} (n : ℕ) :
      (s.clients c).call = .replied reply →
      recvUpdates (reply.take n) = .error e →
      Step uninit s (.failed c) (s.setCall c .idle)
  /-- The connection breaks before the server answers. -/
  | broken {s : System ι κ} {c request} :
      (s.clients c).call = .requested request →
      Step uninit s (.failed c) (s.setCall c .idle)

/-! ### Frames -/

/-- A client is changed by its own events only. -/
theorem Step.client_eq {uninit : ℕ → ℕ → UInt64} {s s' : System ι κ} {e : Event ι κ}
    (h : Step uninit s e s') {c : κ} (hc : e.client ≠ some c) : s'.clients c = s.clients c := by
  cases h with
  | getUpdates | serve | updateFailed | broken =>
      have hne : c ≠ _ := fun heq => hc (congrArg some heq.symm)
      rw [System.setCall_clients, if_neg hne]
  | update =>
      have hne : c ≠ _ := fun heq => hc (congrArg some heq.symm)
      rw [System.setClient_clients, if_neg hne]
  | _ => rfl

end

end Server
end Jackalope
