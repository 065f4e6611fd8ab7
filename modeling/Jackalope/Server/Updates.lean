/-
# Every sample reaches every client once

A client remembers one number, the clock of the server at its last successful
`GetUpdates`.  `getUpdates_exactly_once` says that this is enough: whenever a call
succeeds, everything the client received in its successful calls is, in order,
the corpus as the server held it when it answered, whatever reports were decided
in between and wherever earlier calls broke.

The invariant (`Synced`) is that a client has received what the journal of
the server held up to the remembered time; that the past of a journal does not
change carries it over the steps of everyone else.
-/

import Jackalope.Server.Reports

namespace Jackalope
namespace Server

open Foundation Foundation.Consumer

variable {ι κ : Type} [DecidableEq κ]

/-- The samples that an event delivers to client `c`. -/
def Event.deliveredTo (c : κ) : Event ι κ → Option (List Sample)
  | .updated c' samples => if c' = c then some samples else none
  | _ => none

/-- What the successful calls of client `c` returned, in order. -/
def received (c : κ) (tr : List (Event ι κ)) : List Sample :=
  (tr.filterMap (Event.deliveredTo c)).flatten

/-- One event more, and the samples that it delivers to the client, if it does.  -/
theorem received_snoc (c : κ) (tr : List (Event ι κ)) (e : Event ι κ) :
    received c (tr ++ [e]) = received c tr ++ (e.deliveredTo c).getD [] := by
  rw [received, List.filterMap_append, List.flatten_append]
  rcases h : e.deliveredTo c with _ | samples <;> simp [received, h]

/-- Nothing is delivered by an event of someone else. -/
theorem received_snoc_of_ne {c : κ} {e : Event ι κ} (tr : List (Event ι κ))
    (h : e.client ≠ some c) : received c (tr ++ [e]) = received c tr := by
  have hnone : e.deliveredTo c = none := by
    cases e with
    | updated c' samples => exact if_neg fun heq => h (congrArg some heq)
    | _ => rfl
  rw [received_snoc, hnone]
  simp

/-! ### What a client knows -/

/-- What a call in progress carries, for a client that has seen `seen`: its
request names the remembered time, and an answer takes it from what it has seen
to all there was at the time it will remember. -/
def Call.Carries (l : Ledger) (seen : List Sample) (client : Client)
    (served : List Sample → Prop) : Call → Prop
  | .idle => True
  | .requested request =>
      ∃ totalExecs, request = updatesRequest client.clientId totalExecs client.lastTimestamp
  | .replied reply => ∃ n timestamp newSamples,
      reply = (u64 timestamp ++ sendSamples newSamples).take n ∧
      timestamp ≤ l.journal.clock ∧ seen ++ newSamples = l.journal.upTo timestamp ∧
      served (seen ++ newSamples)

/-- **The invariant of a client**: it has seen what the journal held up to the
time it remembers. -/
structure Synced (l : Ledger) (seen : List Sample) (client : Client)
    (served : List Sample → Prop) : Prop where
  le_clock : client.lastTimestamp ≤ l.journal.clock
  seen_eq : seen = l.journal.upTo client.lastTimestamp
  carries : client.call.Carries l seen client served

/-- The invariant survives whatever leaves the past alone: what was there up to the client's
time, and what was sent to it.  -/
theorem Synced.mono {l l' : Ledger} {seen : List Sample} {client : Client}
    {served served' : List Sample → Prop} (h : Synced l seen client served)
    (hclock : l.journal.clock ≤ l'.journal.clock)
    (hpast : ∀ t ≤ l.journal.clock, l'.journal.upTo t = l.journal.upTo t)
    (hserved : ∀ samples, served samples → served' samples) : Synced l' seen client served' := by
  refine ⟨h.le_clock.trans hclock, h.seen_eq.trans (hpast _ h.le_clock).symm, ?_⟩
  have hc := h.carries
  cases hcall : client.call with
  | idle => trivial
  | requested request =>
      rw [hcall] at hc
      exact hc
  | replied reply =>
      rw [hcall] at hc
      obtain ⟨n, timestamp, newSamples, hreply, hle, hseen, hsv⟩ := hc
      exact ⟨n, timestamp, newSamples, hreply, hle.trans hclock,
        hseen.trans (hpast _ hle).symm, hserved _ hsv⟩

/-- Any client that remembers the same time and is idle is as well synced. -/
theorem Synced.toIdle {l : Ledger} {seen : List Sample} {client : Client}
    {served served' : List Sample → Prop} (h : Synced l seen client served) :
    Synced l seen { client with call := .idle } served' :=
  ⟨h.le_clock, h.seen_eq, trivial⟩

/-- **What the server answers**, when the request arrives as far as `n` bytes: nothing, or
all that is newer than what the client remembers, of which the client has had nothing
before.  -/
theorem serveUpdates_carries {server : CoverageServer} {l : Ledger} (hr : Represents server l)
    (hlt : server.serverTimestamp < 2 ^ 64) {client : Client} {seen : List Sample}
    (hle : client.lastTimestamp ≤ l.journal.clock)
    (hseen : seen = l.journal.upTo client.lastTimestamp) (totalExecs : UInt64) (n : ℕ)
    {served : List Sample → Prop} (hserved : served server.corpus.samples) :
    ∃ reply, serveUpdates server
        ((updatesRequest client.clientId totalExecs client.lastTimestamp).take n) = some reply ∧
      (Call.replied reply).Carries l seen client served := by
  have hlast : client.lastTimestamp < 2 ^ 64 := by
    rw [hr.clock] at hlt
    omega
  have hall : seen ++ l.journal.newer client.lastTimestamp = l.journal.items := by
    rw [hseen, l.journal.upTo_append_newer]
  have hcarries : ∀ k, (Call.replied ((u64 l.journal.clock ++
      sendSamples (l.journal.newer client.lastTimestamp)).take k)).Carries l seen client served :=
    fun k => ⟨k, _, _, rfl, le_rfl, by rw [hall, l.journal.upTo_clock],
      by rw [hall, ← hr.samples]; exact hserved⟩
  rcases (decodes_recvUpdatesRequest client.clientId totalExecs hlast).take n with h | ⟨e, h⟩
  · refine ⟨_, ?_, hcarries (u64 l.journal.clock ++
      sendSamples (l.journal.newer client.lastTimestamp)).length⟩
    rw [serveUpdates, h, List.take_length]
    exact hr.updatesReply_eq client.lastTimestamp
  · -- the request did not arrive: nothing is sent
    exact ⟨[], by rw [serveUpdates, h], by simpa using hcarries 0⟩

/-- **What the client makes of it**, when the answer arrives as far as `n` bytes:
either all of it or a failure. -/
theorem recvUpdates_of_carries {l : Ledger} {seen : List Sample} {client : Client}
    {served : List Sample → Prop} {reply : Bytes}
    (h : (Call.replied reply).Carries l seen client served) (hlt : l.journal.clock < 2 ^ 64)
    {n serverTimestamp : ℕ} {newSamples : List Sample} {rest : Bytes}
    (hrecv : recvUpdates (reply.take n) = .ok ((serverTimestamp, newSamples), rest)) :
    serverTimestamp ≤ l.journal.clock ∧ seen ++ newSamples = l.journal.upTo serverTimestamp ∧
      served (seen ++ newSamples) := by
  obtain ⟨k, timestamp, sent, rfl, hle, hseen, hsv⟩ := h
  rw [List.take_take] at hrecv
  rcases (decodes_recvUpdates (hle.trans_lt hlt) sent).take (min n k) with h | ⟨e, h⟩
  · rw [h] at hrecv
    cases hrecv
    exact ⟨hle, hseen, hsv⟩
  · rw [h] at hrecv
    cases hrecv

/-! ### Over runs -/

section

variable [TinyInst] [DecidableEq ι] {uninit : ℕ → ℕ → UInt64} {s₀ : System ι κ}

/-- In the run `tr` from `s₀` to `s`, client `c` was last served by a server that
held these samples, and nothing happened to the client since. -/
def ServedWith (uninit : ℕ → ℕ → UInt64) (s₀ : System ι κ) (c : κ) (tr : List (Event ι κ))
    (s : System ι κ) (samples : List Sample) : Prop :=
  ∃ tr₁ tr₂ s₁ s₂, tr = tr₁ ++ .served c :: tr₂ ∧ (∀ e ∈ tr₂, e.client ≠ some c) ∧
    Run (Step uninit) s₀ tr₁ s₁ ∧ Step uninit s₁ (.served c) s₂ ∧ Run (Step uninit) s₂ tr₂ s ∧
    s₁.server.corpus.samples = samples

/-- Steps of others do not change when and with what a client was served. -/
theorem ServedWith.step {c : κ} {tr : List (Event ι κ)} {s s' : System ι κ} {e : Event ι κ}
    {samples : List Sample} (h : ServedWith uninit s₀ c tr s samples) (hst : Step uninit s e s')
    (hc : e.client ≠ some c) : ServedWith uninit s₀ c (tr ++ [e]) s' samples := by
  obtain ⟨tr₁, tr₂, s₁, s₂, rfl, hother, hrun₁, hserve, hrun₂, hsamples⟩ := h
  refine ⟨tr₁, tr₂ ++ [e], s₁, s₂, by simp, ?_, hrun₁, hserve, hrun₂.snoc hst, hsamples⟩
  intro e' he'
  rcases List.mem_append.1 he' with he' | he'
  · exact hother e' he'
  · rw [List.mem_singleton.1 he']
    exact hc

/-- The server is a ledger and every client is synced with it. -/
def Delivering (uninit : ℕ → ℕ → UInt64) (inputs : ι → Bytes) (s₀ : System ι κ)
    (tr : List (Event ι κ)) (s : System ι κ) : Prop :=
  ∃ l, Reporting uninit inputs l s ∧
    ∀ c, Synced l (received c tr) (s.clients c) (ServedWith uninit s₀ c tr s)

/-- One step keeps the clients synced, as long as the clock fits its 64 bits. -/
theorem Delivering.step {inputs : ι → Bytes} {tr : List (Event ι κ)} {s s' : System ι κ}
    {e : Event ι κ} (h : Delivering uninit inputs s₀ tr s) (hrun : Run (Step uninit) s₀ tr s)
    (hst : Step uninit s e s') (hlt : s.server.serverTimestamp < 2 ^ 64) :
    Delivering uninit inputs s₀ (tr ++ [e]) s' := by
  obtain ⟨l, hrep, hsync⟩ := h
  obtain ⟨l', hrep', hl⟩ := hrep.step hst
  refine ⟨l', hrep', fun c => ?_⟩
  by_cases hc : e.client = some c
  · -- an event of the client itself: the ledger is what it was
    have hll : l' = l := by
      rcases hl with ⟨-, rfl⟩ | ⟨i, hi, -⟩
      · rfl
      · cases e <;> simp [Event.client, Event.decided] at hc hi
    subst hll
    have hs := hsync c
    have hcarries := hs.carries
    cases hst with
    | recvCoverage | recvCoverageFailed | nothingNew | somethingNew | recvSamples
    | recvSamplesFailed | commit => simp [Event.client] at hc
    | @getUpdates c' totalExecs hcall =>
        obtain rfl : c' = c := by simpa [Event.client] using hc
        have hrec : received c' (tr ++ [Event.called c']) = received c' tr := by
          simp [received_snoc, Event.deliveredTo]
        rw [hrec]
        rw [System.setCall_clients, if_pos rfl]
        exact ⟨hs.le_clock, hs.seen_eq, totalExecs, rfl⟩
    | @serve c' request reply n hcall hserve =>
        obtain rfl : c' = c := by simpa [Event.client] using hc
        have hrec : received c' (tr ++ [Event.served c']) = received c' tr := by
          simp [received_snoc, Event.deliveredTo]
        rw [hcall] at hcarries
        obtain ⟨totalExecs, rfl⟩ := hcarries
        have hnow : ServedWith uninit s₀ c' (tr ++ [Event.served c'])
            (s.setCall c' (.replied reply)) s.server.corpus.samples :=
          ⟨tr, [], s, _, rfl, by simp, hrun, Step.serve n hcall hserve, Run.refl, rfl⟩
        obtain ⟨reply', hreply', hcar⟩ := serveUpdates_carries hrep.represents hlt hs.le_clock
          hs.seen_eq totalExecs n hnow
        rw [hserve] at hreply'
        cases hreply'
        rw [hrec]
        rw [System.setCall_clients, if_pos rfl]
        exact ⟨hs.le_clock, hs.seen_eq, hcar⟩
    | @update c' reply serverTimestamp newSamples rest n hcall hrecv =>
        obtain rfl : c' = c := by simpa [Event.client] using hc
        rw [hcall] at hcarries
        rw [hrep.represents.clock] at hlt
        obtain ⟨hle, hseen, -⟩ := recvUpdates_of_carries hcarries hlt hrecv
        rw [System.setClient_clients, if_pos rfl]
        refine ⟨hle, ?_, trivial⟩
        rw [received_snoc]
        simpa [Event.deliveredTo] using hseen
    | @updateFailed c' _ _ _ _ _ | @broken c' _ _ =>
        obtain rfl : c' = c := by simpa [Event.client] using hc
        have hrec : received c' (tr ++ [Event.failed c']) = received c' tr := by
          simp [received_snoc, Event.deliveredTo]
        rw [hrec]
        rw [System.setCall_clients, if_pos rfl]
        exact hs.toIdle
  · -- an event of someone else: the past did not change
    rw [received_snoc_of_ne tr hc, hst.client_eq hc]
    refine (hsync c).mono ?_ ?_ fun samples hsv => hsv.step hst hc
    · rcases hl with ⟨-, rfl⟩ | ⟨i, -, hat⟩
      · exact le_rfl
      · exact hat.clock_le
    · intro t ht
      rcases hl with ⟨-, rfl⟩ | ⟨i, -, hat⟩
      · rfl
      · exact hat.upTo_eq ht

/-- Every run keeps the clients synced, as long as the clock fits its 64 bits. -/
theorem delivering_of_run {sampleFiles : ℕ → Option Sample} {inputs : ι → Bytes}
    {clientIds : κ → UInt64} {tr : List (Event ι κ)} {s : System ι κ}
    (h : Run (Step uninit) (System.init sampleFiles inputs clientIds) tr s)
    (hlt : s.server.serverTimestamp < 2 ^ 64) :
    Delivering uninit inputs (System.init sampleFiles inputs clientIds) tr s := by
  induction h with
  | refl =>
      refine ⟨_, reporting_init sampleFiles inputs clientIds, fun c => ⟨Nat.zero_le _, ?_, trivial⟩⟩
      exact (Journal.upTo_zero _).symm
  | @snoc tr s e s' hrun hst ih =>
      -- the clock never goes back, so it fitted before the step
      have hbefore : s.server.serverTimestamp < 2 ^ 64 := by
        obtain ⟨l, -, hrep⟩ := reporting_of_run hrun
        obtain ⟨l', hrep', hl⟩ := hrep.step hst
        have hclock : l.journal.clock ≤ l'.journal.clock := by
          rcases hl with ⟨-, rfl⟩ | ⟨i, -, hat⟩
          · exact le_rfl
          · exact hat.clock_le
        rw [hrep'.represents.clock] at hlt
        rw [hrep.represents.clock]
        exact hclock.trans_lt hlt
      exact (ih hbefore).step hrun hst hbefore

/-- A client's remembered time changes only when a call of it succeeds; a call that fails
may be repeated as if it had not been made.  -/
theorem Step.lastTimestamp_eq {s s' : System ι κ} {e : Event ι κ} (hst : Step uninit s e s')
    {c : κ} (hc : ∀ samples, e ≠ .updated c samples) :
    (s'.clients c).lastTimestamp = (s.clients c).lastTimestamp := by
  have hset : ∀ {c' : κ} {call : Call}, ((s.setCall c' call).clients c).lastTimestamp =
      (s.clients c).lastTimestamp := by
    intro c' call
    rw [System.setCall_clients]
    split
    · rename_i h
      rw [h]
    · rfl
  cases hst with
  | getUpdates | serve | updateFailed | broken => exact hset
  | @update c' reply serverTimestamp newSamples rest n hcall hrecv =>
      have hne : c ≠ c' := fun h => hc newSamples (by rw [h])
      rw [System.setClient_clients, if_neg hne]
  | recvCoverage | recvCoverageFailed | nothingNew | somethingNew | recvSamples
  | recvSamplesFailed | commit => rfl

/-- **Every sample once, in order.**  In every interleaving of any number of
clients and report connections, whose connections may break after any byte: when
a `GetUpdates` of client `c` succeeds, what the client received in its successful
calls, this one included, is the corpus as it stood when the server answered this
call; and a call that fails leaves `last_timestamp` as it was. -/
theorem getUpdates_exactly_once {sampleFiles : ℕ → Option Sample} {inputs : ι → Bytes}
    {clientIds : κ → UInt64} {tr : List (Event ι κ)} {s s' : System ι κ} {c : κ}
    (h : Run (Step uninit) (System.init sampleFiles inputs clientIds) tr s)
    (hlt : s.server.serverTimestamp < 2 ^ 64) :
    (∀ newSamples, Step uninit s (.updated c newSamples) s' →
      ∃ tr₁ tr₂ s₁ s₂, tr = tr₁ ++ .served c :: tr₂ ∧ (∀ e ∈ tr₂, e.client ≠ some c) ∧
        Run (Step uninit) (System.init sampleFiles inputs clientIds) tr₁ s₁ ∧
        Step uninit s₁ (.served c) s₂ ∧ Run (Step uninit) s₂ tr₂ s ∧
        received c (tr ++ [.updated c newSamples]) = s₁.server.corpus.samples) ∧
    (Step uninit s (.failed c) s' →
      (s'.clients c).lastTimestamp = (s.clients c).lastTimestamp) := by
  refine ⟨fun newSamples hst => ?_, fun hst => hst.lastTimestamp_eq (by simp)⟩
  obtain ⟨l, hrep, hsync⟩ := delivering_of_run h hlt
  have hcarries := (hsync c).carries
  rw [hrep.represents.clock] at hlt
  cases hst with
  | update n hcall hrecv =>
      rw [hcall] at hcarries
      obtain ⟨-, -, tr₁, tr₂, s₁, s₂, htr, hother, hrun₁, hserve, hrun₂, hsamples⟩ :=
        recvUpdates_of_carries hcarries hlt hrecv
      refine ⟨tr₁, tr₂, s₁, s₂, htr, hother, hrun₁, hserve, hrun₂, ?_⟩
      rw [received_snoc, hsamples]
      simp [Event.deliveredTo]

/-- **The server never stops in `GetIndex`.**  Whatever part of a request arrives,
the locked section of `ServeUpdates` runs to its end. -/
theorem serve_enabled {sampleFiles : ℕ → Option Sample} {inputs : ι → Bytes}
    {clientIds : κ → UInt64} {tr : List (Event ι κ)} {s : System ι κ}
    (h : Run (Step uninit) (System.init sampleFiles inputs clientIds) tr s) {c : κ}
    {request : Bytes} (hcall : (s.clients c).call = .requested request) (n : ℕ) :
    ∃ s', Step uninit s (.served c) s' := by
  obtain ⟨l, -, hrep⟩ := reporting_of_run h
  rcases hreq : recvUpdatesRequest (request.take n) with e | ⟨timestamp, rest⟩
  · exact ⟨_, Step.serve n hcall (by rw [serveUpdates, hreq])⟩
  · have hreply : serveUpdates s.server (request.take n) =
        some (u64 l.journal.clock ++ sendSamples (l.journal.newer timestamp)) := by
      rw [serveUpdates, hreq]
      exact hrep.represents.updatesReply_eq timestamp
    exact ⟨_, Step.serve n hcall hreply⟩

end

/-! ### A run -/

section

attribute [local instance] listTinyInst

/-- After the report of `oneReport`, a client calls `GetUpdates` and receives the sample:
all there was when the server answered.  The theorem above is applied to this run, and what
it says of the client's next request is that it starts behind this sample.  -/
theorem getUpdates_exactly_once_oneReport :
    ∃ (tr tr₁ tr₂ : List (Event Unit Unit)) (s₁ : System Unit Unit),
      tr = tr₁ ++ .served () :: tr₂ ∧
      Run (Step fun _ _ => 0) (System.init (fun _ => none) (fun _ => oneReport) fun _ => 0) tr₁ s₁ ∧
      received () (tr ++ [.updated () [oneSample]]) = s₁.server.corpus.samples ∧
      received () (tr ++ [.updated () [oneSample]]) = [oneSample] := by
  obtain ⟨s, hrun, -, hclient, hserver⟩ := run_oneReport
  have hcall : (s.clients ()).call = .idle := by rw [hclient]
  have hserve : serveUpdates s.server ((updatesRequest 0 7 0).take 24) =
      some (u64 1 ++ sendSamples [oneSample]) := by
    rw [hserver]
    rfl
  have hrecv : recvUpdates ((u64 1 ++ sendSamples [oneSample]).take 19) =
      .ok ((1, [oneSample]), []) := rfl
  have hrun₁ := hrun.snoc (Step.getUpdates 7 hcall)
  have hrequest : ((s.setCall () (.requested (updatesRequest (s.clients ()).clientId 7
      (s.clients ()).lastTimestamp))).clients ()).call = .requested (updatesRequest 0 7 0) := by
    rw [System.setCall_clients, if_pos rfl, hclient]
  have hrun₂ := hrun₁.snoc (Step.serve 24 hrequest hserve)
  obtain ⟨hupdate, -⟩ := getUpdates_exactly_once (c := ()) hrun₂ (by
    show s.server.serverTimestamp < _
    rw [hserver]
    decide)
  obtain ⟨tr₁, tr₂, s₁, -, htr, -, hserved, -, -, hreceived⟩ :=
    hupdate [oneSample] (Step.update 19 (by rw [System.setCall_clients, if_pos rfl]) hrecv)
  exact ⟨_, tr₁, tr₂, s₁, htr, hserved, hreceived, rfl⟩

end

end Server
end Jackalope
