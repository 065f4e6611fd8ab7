/-
# What clients miss after a restart

A client remembers the clock of the server at its last `GetUpdates`, and is sent what
is newer.  `RestoreState` puts the clock back to the time of the snapshot, but the
clients keep what they remember.  Reports after the restart reuse the lost times, and
`ServeUpdates` takes a client that remembers one of these for one that has seen them.

`restored_server_skips_iff` says when: the samples of a report reach every client if
and only if, at the time they are committed, no client remembers a later time than
the server's, or may still read one from an answer.
-/

import Jackalope.Server.Snapshot
import Jackalope.Server.Updates

namespace Jackalope
namespace Server

open Foundation Foundation.Consumer

/-! ### Ledgers and answers -/

/-- The ledger `l'` continues `l`. -/
structure Ledger.Continues (l l' : Ledger) : Prop where
  clock_le : l.journal.clock ≤ l'.journal.clock
  upTo_eq : ∀ t ≤ l.journal.clock, l'.journal.upTo t = l.journal.upTo t
  items : l.journal.items <+: l'.journal.items

/-- Nothing was reported since.  -/
theorem Ledger.Continues.refl (l : Ledger) : l.Continues l := ⟨le_rfl, fun _ _ => rfl, List.prefix_rfl⟩

/-- What was reported since, in two parts.  -/
theorem Ledger.Continues.trans {l l' l'' : Ledger} (h : l.Continues l') (h' : l'.Continues l'') :
    l.Continues l'' where
  clock_le := h.clock_le.trans h'.clock_le
  upTo_eq t ht := (h'.upTo_eq t (ht.trans h.clock_le)).trans (h.upTo_eq t ht)
  items := h.items.trans h'.items

/-- A report leaves what was there: the clock does not go back, and what was new up to a
time is still that.  -/
theorem Ledger.continues_report (l : Ledger) (coverage : Set (Bytes × UInt64))
    (samples : List Sample) : l.Continues (l.report coverage samples) := by
  refine ⟨l.clock_le_report _ _, fun t ht => l.upTo_report _ _ ht, ?_⟩
  by_cases h : coverage ⊆ l.total
  · rw [report_of_subset h]
  · rw [report_of_not_subset h]
    exact List.prefix_append _ _

/-- What was newer still is, followed by what came since. -/
theorem Ledger.Continues.newer_eq {l l' : Ledger} (h : l.Continues l') {t : ℕ}
    (ht : t ≤ l.journal.clock) {rest : List Sample}
    (hitems : l'.journal.items = l.journal.items ++ rest) :
    l'.journal.newer t = l.journal.newer t ++ rest := by
  have hall := l'.journal.upTo_append_newer t
  rw [h.upTo_eq t ht, hitems, ← l.journal.upTo_append_newer t, List.append_assoc] at hall
  exact List.append_cancel_left hall

/-- An answer is read back, its timestamp as far as 64 bits go. -/
theorem decodes_reply (serverTimestamp : ℕ) (sent : List Sample) :
    Decodes recvUpdates (u64 serverTimestamp ++ sendSamples sent)
      (serverTimestamp % 256 ^ 8, sent) := by
  have hlt : serverTimestamp % 256 ^ 8 < 2 ^ 64 := Nat.mod_lt _ (by decide)
  have hmod : u64 (serverTimestamp % 256 ^ 8) = u64 serverTimestamp := toLE_mod 8 _
  rw [← hmod]
  exact decodes_recvUpdates hlt sent

/-- What a client reads of an answer are the samples that were sent, if it can read the
answer at all: one that is cut off fails.  -/
theorem recvUpdates_samples {serverTimestamp timestamp n : ℕ} {sent samples : List Sample}
    {rest : Bytes}
    (h : recvUpdates ((u64 serverTimestamp ++ sendSamples sent).take n) =
      .ok ((timestamp, samples), rest)) : samples = sent := by
  rcases (decodes_reply serverTimestamp sent).take n with hok | ⟨e, herror⟩
  · rw [hok] at h
    cases h
    rfl
  · rw [herror] at h
    cases h

/-- A timestamp that was read has 64 bits. -/
theorem recvUpdates_lt {incoming rest : Bytes} {timestamp : ℕ} {samples : List Sample}
    (h : recvUpdates incoming = .ok ((timestamp, samples), rest)) : timestamp < 2 ^ 64 := by
  obtain ⟨t, l, ht, h⟩ := bind_eq_ok h
  obtain ⟨newSamples, l', -, h⟩ := bind_eq_ok h
  cases h
  have := readLE_lt ht
  simpa using this

/-! ### What clients remember -/

/-- The request of a client names what it remembers, and that has 64 bits. -/
structure Client.Ok (client : Client) : Prop where
  lt : client.lastTimestamp < 2 ^ 64
  request : ∀ request, client.call = .requested request →
    ∃ totalExecs, request = updatesRequest client.clientId totalExecs client.lastTimestamp

/-- What the client remembers, or may remember once it has read an answer. -/
def Client.Remembers (client : Client) (timestamp : ℕ) : Prop :=
  timestamp = client.lastTimestamp ∨ ∃ reply n samples rest, client.call = .replied reply ∧
    recvUpdates (reply.take n) = .ok ((timestamp, samples), rest)

/-- The client does not remember, and will not, a time later than `clock`. -/
def Client.Behind (client : Client) (clock : ℕ) : Prop :=
  ∀ timestamp, client.Remembers timestamp → timestamp ≤ clock

section

variable {ι κ : Type} [DecidableEq ι] [DecidableEq κ] [TinyInst] {uninit : ℕ → ℕ → UInt64}

/-- A step keeps it so: a new request is made from what the client remembers, and an answer
that is read has 64 bits for the time.  -/
theorem Step.clientOk {s s' : System ι κ} {e : Event ι κ} (h : Step uninit s e s') {c : κ}
    (hok : (s.clients c).Ok) : (s'.clients c).Ok := by
  by_cases hc : e.client = some c
  · cases h with
    | recvCoverage | recvCoverageFailed | nothingNew | somethingNew | recvSamples
    | recvSamplesFailed | commit => cases hc
    | getUpdates totalExecs =>
        cases hc
        rw [System.setCall_clients, if_pos rfl]
        exact ⟨hok.lt, by rintro request ⟨⟩; exact ⟨totalExecs, rfl⟩⟩
    | serve | updateFailed | broken =>
        cases hc
        rw [System.setCall_clients, if_pos rfl]
        exact ⟨hok.lt, nofun⟩
    | update n hcall hrecv =>
        cases hc
        rw [System.setClient_clients, if_pos rfl]
        exact ⟨recvUpdates_lt hrecv, nofun⟩
  · rwa [h.client_eq hc]

variable [CoverageBinary]

/-- So it is after every run of sessions, restarts among them: a restart of the server
changes nothing about what a client remembers.  -/
theorem clientOk_of_run {sampleFiles : ℕ → Option Sample} {inputs : ι → Bytes}
    {clientIds : κ → UInt64} {tr : List (SessionEvent ι κ)} {s : Sessions ι κ}
    (h : Run (SessionStep uninit) (Sessions.init sampleFiles inputs clientIds) tr s) (c : κ) :
    (s.system.clients c).Ok := by
  refine h.invariant (fun _ s => (s.system.clients c).Ok) ⟨Nat.two_pow_pos 64, nofun⟩ ?_
  rintro tr s event s' hok hstep
  cases hstep with
  | step hstep => exact hstep.clientOk hok
  | save => exact hok
  | restart inputs' files =>
      refine ⟨hok.lt, fun request hcall => ?_⟩
      replace hcall : (s.system.clients c).call.afterKill = .requested request := hcall
      rcases hbefore : (s.system.clients c).call with _ | _ | _ <;> rw [hbefore] at hcall <;>
        cases hcall

/-! ### What is sent -/

/-- Client `c` has no successful `GetUpdates` that was served in this trace. -/
def NotUpdated (c : κ) (tr : List (SessionEvent ι κ)) : Prop :=
  ∀ a b, tr = a ++ .step (.served c) :: b → ∀ samples, SessionEvent.step (.updated c samples) ∉ b

/-- **The samples are sent**: in every run from `s`, the first successful `GetUpdates`
of client `c` that this server answers returns them. -/
def Sent (uninit : ℕ → ℕ → UInt64) (s : Sessions ι κ) (c : κ) (new : List Sample) : Prop :=
  ∀ tr s₁ s₂ tr' s₃ samples s₄, Run (SessionStep uninit) s tr s₁ →
    SessionEvent.restarted ∉ tr → NotUpdated c tr → SessionStep uninit s₁ (.step (.served c)) s₂ →
    Run (SessionStep uninit) s₂ tr' s₃ → (∀ e, SessionEvent.step e ∈ tr' → e.client ≠ some c) →
    SessionStep uninit s₃ (.step (.updated c samples)) s₄ → new <:+: samples

/-- Where client `c` is before its first answer: it remembers nothing later than
`clock`, and the server continues `l`. -/
structure Waiting (uninit : ℕ → ℕ → UInt64) (c : κ) (clock : ℕ) (l : Ledger)
    (tr : List (SessionEvent ι κ)) (s : Sessions ι κ) : Prop where
  ledger : ∃ inputs l', Reporting uninit inputs l' s.system ∧ l.Continues l'
  ok : (s.system.clients c).Ok
  le : (s.system.clients c).lastTimestamp ≤ clock
  reply : ∀ reply, (s.system.clients c).call = .replied reply →
    SessionEvent.step (.served c) ∈ tr ∨ ∀ n timestamp samples rest,
      recvUpdates (reply.take n) = .ok ((timestamp, samples), rest) → timestamp ≤ clock

/-- **A step keeps a client waiting** for what is newer than it remembers, as long as the
server is not restarted and the client has not been updated.  -/
theorem Waiting.step {c : κ} {clock : ℕ} {l : Ledger} {tr : List (SessionEvent ι κ)}
    {s s' : Sessions ι κ} {event : SessionEvent ι κ} (hw : Waiting uninit c clock l tr s)
    (h : SessionStep uninit s event s') (hrestart : event ≠ .restarted)
    (hnot : NotUpdated c (tr ++ [event])) : Waiting uninit c clock l (tr ++ [event]) s' := by
  obtain ⟨⟨inputs, l', hrep, hcont⟩, hok, hle, hreply⟩ := hw
  have hsnoc : ∀ reply, (s.system.clients c).call = .replied reply →
      SessionEvent.step (.served c) ∈ tr ++ [event] ∨ ∀ n timestamp samples rest,
        recvUpdates (reply.take n) = .ok ((timestamp, samples), rest) → timestamp ≤ clock :=
    fun reply hcall => (hreply reply hcall).imp_left (List.mem_append_left _)
  cases h with
  | restart => exact absurd rfl hrestart
  | save => exact ⟨⟨inputs, l', hrep, hcont⟩, hok, hle, hsnoc⟩
  | @step e system hstep =>
      obtain ⟨l'', hrep', hl⟩ := hrep.step hstep
      have hcont' : l'.Continues l'' := by
        rcases hl with ⟨-, rfl⟩ | ⟨i, -, coverage, -, -, ⟨-, rfl⟩ | ⟨newSamples, -, -, rfl⟩⟩
        · exact Ledger.Continues.refl _
        · exact Ledger.Continues.refl _
        · exact l'.continues_report _ _
      by_cases hc : e.client = some c
      · refine ⟨⟨inputs, l'', hrep', hcont.trans hcont'⟩, hstep.clientOk hok, ?_, ?_⟩
        · by_cases hupdated : ∃ samples, e = .updated c samples
          · obtain ⟨samples, rfl⟩ := hupdated
            cases hstep with
            | @update _ reply timestamp _ rest n hcall hrecv =>
                rcases hreply _ hcall with hserved | hold
                · -- this would be the first success
                  obtain ⟨a, b, rfl⟩ := List.append_of_mem hserved
                  exact absurd (List.mem_append_right _ (List.mem_singleton_self _))
                    (hnot a (b ++ [.step (.updated c samples)]) (by simp) samples)
                · show (System.clients (s.system.setClient c _) c).lastTimestamp ≤ clock
                  rw [System.setClient_clients, if_pos rfl]
                  exact hold n timestamp samples rest hrecv
          · exact (hstep.lastTimestamp_eq fun samples h => hupdated ⟨samples, h⟩).le.trans hle
        · intro reply hcall
          cases hstep with
          | recvCoverage | recvCoverageFailed | nothingNew | somethingNew | recvSamples
          | recvSamplesFailed | commit => cases hc
          | serve =>
              cases hc
              exact Or.inl (List.mem_append_right _ (List.mem_singleton_self _))
          | getUpdates | updateFailed | broken =>
              cases hc
              rw [System.setCall_clients, if_pos rfl] at hcall
              cases hcall
          | update =>
              cases hc
              rw [System.setClient_clients, if_pos rfl] at hcall
              cases hcall
      · have heq := hstep.client_eq hc
        refine ⟨⟨inputs, l'', hrep', hcont.trans hcont'⟩, hstep.clientOk hok, ?_, ?_⟩
        · rwa [heq]
        · intro reply hcall
          rw [heq] at hcall
          exact hsnoc reply hcall

/-- So does a run, as long as the server is not restarted and no update of this client has
succeeded.  -/
theorem Waiting.run {c : κ} {clock : ℕ} {l : Ledger} {tr : List (SessionEvent ι κ)}
    {s s' : Sessions ι κ} (hw : Waiting uninit c clock l [] s)
    (h : Run (SessionStep uninit) s tr s') (hrestart : SessionEvent.restarted ∉ tr)
    (hnot : NotUpdated c tr) : Waiting uninit c clock l tr s' := by
  induction h with
  | refl => exact hw
  | @snoc tr s₁ event s₂ _ hstep ih =>
      refine (ih (fun hmem => hrestart (List.mem_append_left _ hmem)) ?_).step hstep ?_ hnot
      · rintro a b rfl samples hmem
        exact hnot a (b ++ [event]) (by simp) samples (List.mem_append_left _ hmem)
      · rintro rfl
        exact hrestart (List.mem_append_right _ (List.mem_singleton_self _))

/-- An answer stays where it is until the client reads it, also if the server dies: it has
been sent, and the connection holds it.  -/
theorem replied_of_run {c : κ} {reply : Bytes} {tr : List (SessionEvent ι κ)} {s s' : Sessions ι κ}
    (h : Run (SessionStep uninit) s tr s')
    (hother : ∀ e, SessionEvent.step e ∈ tr → e.client ≠ some c)
    (hcall : (s.system.clients c).call = .replied reply) :
    (s'.system.clients c).call = .replied reply := by
  induction h with
  | refl => exact hcall
  | snoc _ hstep ih =>
      have hbefore := ih fun e he => hother e (List.mem_append_left _ he)
      cases hstep with
      | save => exact hbefore
      | step hstep =>
          show (System.clients _ c).call = _
          rw [hstep.client_eq (hother _ (List.mem_append_right _ (List.mem_singleton_self _)))]
          exact hbefore
      | restart =>
          show (System.clients _ c).call.afterKill = _
          rw [hbefore]
          rfl

omit [DecidableEq ι] [TinyInst] [CoverageBinary] in
/-- Where the client is then.  -/
theorem System.setCall_call (s : System ι κ) (c : κ) (call : Call) :
    ((s.setCall c call).clients c).call = call := by
  rw [System.setCall_clients, if_pos rfl]

/-- **What the answer brings**, to a client that waits: all that is newer than what it
remembers, as the server has it when it answers, whatever happens until the client reads.
-/
theorem Waiting.served {c : κ} {clock : ℕ} {l : Ledger} {tr tr' : List (SessionEvent ι κ)}
    {s s₁ s₂ s₃ : Sessions ι κ} {samples : List Sample} (hw : Waiting uninit c clock l tr s)
    (hserve : SessionStep uninit s (.step (.served c)) s₁) (hrun : Run (SessionStep uninit) s₁ tr' s₂)
    (hother : ∀ e, SessionEvent.step e ∈ tr' → e.client ≠ some c)
    (hupdate : SessionStep uninit s₂ (.step (.updated c samples)) s₃) :
    ∃ l' : Ledger, l.Continues l' ∧
      samples = l'.journal.newer (s.system.clients c).lastTimestamp := by
  obtain ⟨⟨inputs, l', hrep, hcont⟩, hok, -, -⟩ := hw
  refine ⟨l', hcont, ?_⟩
  cases hserve with
  | step hserve =>
    cases hserve with
    | @serve _ request reply n hcall hreply =>
      have hreplied := replied_of_run hrun hother (System.setCall_call s.system c (.replied reply))
      cases hupdate with
      | step hupdate =>
        cases hupdate with
        | @update _ reply' timestamp _ rest n' hcall' hrecv =>
          cases hreplied.symm.trans hcall'
          obtain ⟨totalExecs, rfl⟩ := hok.request _ hcall
          rcases (decodes_recvUpdatesRequest _ totalExecs hok.lt).take n with hreq | ⟨e, hreq⟩
          · rw [serveUpdates, hreq] at hreply
            replace hreply : updatesReply s.system.server _ = some reply := hreply
            rw [hrep.represents.updatesReply_eq] at hreply
            cases hreply
            exact recvUpdates_samples hrecv
          · -- the request did not arrive, and nothing was sent
            rw [serveUpdates, hreq] at hreply
            cases hreply
            rw [List.take_nil] at hrecv
            cases hrecv

/-- **If no client is ahead, the samples are sent.** The client remembers a time before that
of the samples, so the next update that it asks for, or that is on its way, brings them.  -/
theorem sent_of_behind {inputs : ι → Bytes} {l : Ledger} {s : Sessions ι κ} {c : κ} {clock : ℕ}
    {new : List Sample} {l₀ : Ledger} (hrep : Reporting uninit inputs l s.system)
    (hl : l₀.Continues l) (hitems : l.journal.items = l₀.journal.items ++ new)
    (hclock : clock = l₀.journal.clock) (hok : (s.system.clients c).Ok)
    (hbehind : (s.system.clients c).Behind clock) : Sent uninit s c new := by
  intro tr s₁ s₂ tr' s₃ samples s₄ hrun hrestart hnot hserve hrun' hother hupdate
  have hstart : Waiting uninit c clock l [] s :=
    ⟨⟨inputs, l, hrep, Ledger.Continues.refl l⟩, hok, hbehind _ (Or.inl rfl),
      fun reply hcall => Or.inr fun n timestamp samples rest hrecv =>
        hbehind _ (Or.inr ⟨reply, n, samples, rest, hcall, hrecv⟩)⟩
  have hw := hstart.run hrun hrestart hnot
  obtain ⟨l', hcont, rfl⟩ := hw.served hserve hrun' hother hupdate
  have hle : (s₁.system.clients c).lastTimestamp ≤ l₀.journal.clock := hclock ▸ hw.le
  obtain ⟨rest, hrest⟩ := hcont.items
  rw [hcont.newer_eq (hle.trans hl.clock_le) hrest.symm, hl.newer_eq hle hitems]
  exact ⟨_, rest, rfl⟩

/-- A client can come to remember whatever it may remember: the server's answer that it
waits for arrives, or it never asked, and the server is what it was.  -/
theorem exists_idle {s : Sessions ι κ} {c : κ} {timestamp : ℕ} (hok : (s.system.clients c).Ok)
    (h : (s.system.clients c).Remembers timestamp) :
    ∃ tr s', Run (SessionStep uninit) s tr s' ∧ SessionEvent.restarted ∉ tr ∧
      SessionEvent.step (.served c) ∉ tr ∧ s'.system.server = s.system.server ∧
      s'.system.clients c = ⟨(s.system.clients c).clientId, timestamp, .idle⟩ ∧
      timestamp < 2 ^ 64 := by
  rcases h with rfl | ⟨reply, n, samples, rest, hcall, hrecv⟩
  · rcases hcall : (s.system.clients c).call with _ | request | reply
    · exact ⟨[], s, Run.refl, by simp, by simp, rfl, by rw [← hcall], hok.lt⟩
    · exact ⟨_, _, Run.single (SessionStep.step (Step.broken hcall)), by simp, by simp, rfl,
        by simp [System.setCall_clients], hok.lt⟩
    · have hnone : recvUpdates (reply.take 0) = .error () := rfl
      exact ⟨_, _, Run.single (SessionStep.step (Step.updateFailed 0 hcall hnone)), by simp,
        by simp, rfl, by simp [System.setCall_clients], hok.lt⟩
  · exact ⟨_, _, Run.single (SessionStep.step (Step.update n hcall hrecv)), by simp, by simp, rfl,
      by simp [System.setClient_clients], recvUpdates_lt hrecv⟩

/-- **A client that is ahead gets nothing**: what it remembers is a time that the server has
not reached again, so all that the server has is older to it.  -/
theorem not_sent_of_remembers {inputs : ι → Bytes} {l : Ledger} {s : Sessions ι κ} {c : κ}
    {timestamp : ℕ} {new : List Sample} (hne : new ≠ [])
    (hrep : Reporting uninit inputs l s.system) (hok : (s.system.clients c).Ok)
    (hremembers : (s.system.clients c).Remembers timestamp)
    (hahead : l.journal.clock ≤ timestamp) : ¬ Sent uninit s c new := by
  intro hsent
  obtain ⟨tr, s₁, hrun, hrestart, hserved, hserver, hclient, hlt⟩ : ∃ tr s₁,
      Run (SessionStep uninit) s tr s₁ ∧ _ := exists_idle hok hremembers
  have hcalled := hrun.snoc (SessionStep.step (Step.getUpdates 0 (by rw [hclient])))
  rw [hclient] at hcalled
  -- the server takes the client for one that has seen everything
  have hreply : serveUpdates s₁.system.server
      ((updatesRequest (s.system.clients c).clientId 0 timestamp).take 24) =
        some (u64 l.journal.clock ++ sendSamples []) := by
    have hdecodes := (decodes_recvUpdatesRequest (s.system.clients c).clientId 0 hlt).exact []
    rw [List.append_nil] at hdecodes
    rw [List.take_of_length_le (by simp [updatesRequest, u64]), serveUpdates, hdecodes]
    show updatesReply s₁.system.server timestamp = _
    rw [hserver, hrep.represents.updatesReply_eq, l.journal.newer_of_clock_le hahead]
  have hrecv := (decodes_reply l.journal.clock []).exact []
  rw [List.append_nil, ← List.take_length (l := u64 l.journal.clock ++ sendSamples [])] at hrecv
  refine hne (List.infix_nil.1 (hsent _ _ _ [] _ [] _ hcalled ?_ ?_
    (SessionStep.step (Step.serve 24 (System.setCall_call _ _ _) hreply)) Run.refl (by simp)
    (SessionStep.step (Step.update _ (System.setCall_call _ _ _) hrecv))))
  · simpa using hrestart
  · intro a b hsplit
    have hmem : SessionEvent.step (.served c) ∈ tr ++ [.step (.called c)] := by simp [hsplit]
    simp [hserved] at hmem

/-- **Exactly when samples are skipped.**  A report is committed, in any run of
reports, calls, snapshots, kills and restarts: its samples are sent to every client
if and only if no client remembers a later time than the server's, or may still
read one from an answer. -/
theorem restored_server_skips_iff {sampleFiles : ℕ → Option Sample} {inputs : ι → Bytes}
    {clientIds : κ → UInt64} {tr : List (SessionEvent ι κ)} {s s' : Sessions ι κ} {i : ι}
    {new : List Sample}
    (h : Run (SessionStep uninit) (Sessions.init sampleFiles inputs clientIds) tr s)
    (hfit : ∀ server, SessionEvent.saved server ∈ tr → server.Fits)
    (hstep : SessionStep uninit s (.step (.reported i)) s') (hne : new ≠ [])
    (hadds : s'.system.server.corpus.samples = s.system.server.corpus.samples ++ new) :
    (∀ c, Sent uninit s' c new) ↔
      ∀ c, (s.system.clients c).Behind s.system.server.serverTimestamp := by
  obtain ⟨⟨inputs', l, hrep⟩, -, -⟩ := SessionsOk.run h hfit
  cases hstep with
  | @step _ system hstep =>
    obtain ⟨l', hrep', hl⟩ := hrep.step hstep
    have hclients : ∀ c, system.clients c = s.system.clients c := fun c => hstep.client_eq nofun
    replace hadds : l'.journal.items = l.journal.items ++ new := by
      rw [← hrep'.represents.samples, ← hrep.represents.samples]
      exact hadds
    have hself : l.journal.items ≠ l.journal.items ++ new := fun heq => hne (by simpa using heq)
    -- the report was accepted, so the clock ticked
    have hreport : l.Continues l' ∧ l'.journal.clock = l.journal.clock + 1 := by
      rcases hl with ⟨-, rfl⟩ | ⟨j, -, coverage, -, -, ⟨-, rfl⟩ | ⟨newSamples, -, -, rfl⟩⟩
      · exact absurd hadds hself
      · exact absurd hadds hself
      · refine ⟨l.continues_report _ _, ?_⟩
        by_cases hsub : pairs coverage ⊆ l.total
        · rw [Ledger.report_of_subset hsub] at hadds
          exact absurd hadds hself
        · rw [Ledger.report_of_not_subset hsub]
          rfl
    obtain ⟨hcont, htick⟩ := hreport
    have hok : ∀ c, (system.clients c).Ok := fun c => hclients c ▸ clientOk_of_run h c
    constructor
    · intro hsent c timestamp hremembers
      by_contra hlt
      rw [hrep.represents.clock, not_le] at hlt
      exact not_sent_of_remembers hne hrep' (hok c) (by rw [hclients]; exact hremembers)
        (by omega) (hsent c)
    · intro hbehind c
      exact sent_of_behind hrep' hcont hadds hrep.represents.clock (hok c)
        (by rw [hclients]; exact hbehind c)

end

/-! ### A restart -/

section

attribute [local instance] listTinyInst taggedBinary

/-- The peer of `oneReport` is about to be told that its report is accepted: all of it was
received, and what is new of it is decided.  -/
theorem run_committing (s : Sessions Unit Unit) (h : s.system.reports () = .receiving oneReport)
    (hnew : (hasNewCoverage s.system.server oneCoverage).1 = true) :
    ∃ (tr : List (SessionEvent Unit Unit)) (s' : Sessions Unit Unit),
      Run (SessionStep fun _ _ => 0) s tr s' ∧ (∀ server, SessionEvent.saved server ∉ tr) ∧
      s'.system.server = s.system.server ∧ s'.system.clients = s.system.clients ∧
      s'.system.reports () = .committing oneCoverage (hasNewCoverage s.system.server oneCoverage).2
        [oneSample] := by
  have hsamples : recvSamples (sendSamples [oneSample]) = .ok ([oneSample], []) := by
    simpa using (decodes_recvSamples [oneSample]).exact []
  have hset : ∀ (s : System Unit Unit) (r : Report), (s.setReport () r).reports () = r := by
    intro s r
    rw [System.setReport_reports, if_pos rfl]
  exact ⟨_, _, Run.cons (SessionStep.step (Step.recvCoverage h recvCoverage_oneReport))
    (Run.cons (SessionStep.step (Step.somethingNew (hset _ _) hnew))
    (Run.single (SessionStep.step (Step.recvSamples (hset _ _) hsamples)))), by simp, rfl, rfl,
    hset _ _⟩

/-- The server saves before the first report, the client is sent the sample, and the
server is killed and restored. -/
theorem run_restarted : ∃ (tr : List (SessionEvent Unit Unit)) (s : Sessions Unit Unit)
    (files : ℕ → Option Sample), Run (SessionStep fun _ _ => 0)
      (Sessions.init (fun _ => none) (fun _ => oneReport) fun _ => 0) tr s ∧
    (∃ server, SessionEvent.saved server ∈ tr) ∧ SessionEvent.restarted ∈ tr ∧
    (∀ server, SessionEvent.saved server ∈ tr → server.Fits) ∧
    s.system.server = CoverageServer.init files ∧ s.system.clients () = ⟨0, 1, .idle⟩ ∧
    s.system.reports () = .receiving oneReport := by
  obtain ⟨s, hrun, -, hclient, hserver⟩ := run_oneReport
  have hfits : (CoverageServer.init fun _ => none).Fits := ⟨by decide, by decide⟩
  have hserve : serveUpdates s.server ((updatesRequest 0 0 0).take 24) =
      some (u64 1 ++ sendSamples [oneSample]) := by
    rw [hserver]
    rfl
  have hrecv : recvUpdates ((u64 1 ++ sendSamples [oneSample]).take 19) =
      .ok ((1, [oneSample]), []) := rfl
  have hcalled := hrun.snoc (Step.getUpdates 0 (by rw [hclient]))
  rw [hclient] at hcalled
  have hserved := hcalled.snoc (Step.serve 24 (System.setCall_call _ _ _) hserve)
  have hupdated := hserved.snoc (Step.update 19 (System.setCall_call _ _ _) hrecv)
  let start : Sessions Unit Unit := Sessions.init (fun _ => none) (fun _ => oneReport) fun _ => 0
  have hsave : SessionStep (fun _ _ => 0) start (.saved start.system.server) _ := SessionStep.save
  have hfiles : ∀ i sample, (CoverageServer.init fun _ => none).corpus.samples[i]? = some sample →
      s.server.sampleFiles i = some sample := by
    intro i sample hi
    cases hi
  have hrestored := restoreState_snapshot (represents_init fun _ => none) rfl hfits hfiles
  refine ⟨_, _, s.server.sampleFiles, (Run.cons hsave (sessions_run hupdated _)).snoc
    (SessionStep.restart (fun _ => oneReport) s.server.sampleFiles rfl (fun _ _ => rfl) hrestored),
    ⟨start.system.server, by simp⟩, by simp, ?_, rfl, ?_, rfl⟩
  · intro server hmem
    obtain rfl : server = start.system.server := by simpa using hmem
    exact hfits
  · show Client.mk _ _ _ = _
    simp [System.setClient_clients, System.setCall_clients, hclient, Call.afterKill]

/-- **Before and after a restart.**  The report that is committed first is sent to the
client, which remembers nothing.  Then the server, which saved its state before that
report, is killed and restored, and the client still remembers the time of what it was
sent: the condition fails, and the sample of the next report is not sent. -/
theorem restored_server_skips_iff_restarted :
    (∃ (tr : List (SessionEvent Unit Unit)) (s s' : Sessions Unit Unit),
      Run (SessionStep fun _ _ => 0)
        (Sessions.init (fun _ => none) (fun _ => oneReport) fun _ => 0) tr s ∧
      SessionStep (fun _ _ => 0) s (.step (.reported ())) s' ∧
      ∀ c, Sent (fun _ _ => 0) s' c [oneSample]) ∧
    ∃ (tr : List (SessionEvent Unit Unit)) (s s' : Sessions Unit Unit),
      Run (SessionStep fun _ _ => 0)
        (Sessions.init (fun _ => none) (fun _ => oneReport) fun _ => 0) tr s ∧
      (∃ server, .saved server ∈ tr) ∧ .restarted ∈ tr ∧
      SessionStep (fun _ _ => 0) s (.step (.reported ())) s' ∧
      s'.system.server.corpus.samples = s.system.server.corpus.samples ++ [oneSample] ∧
      ¬ ∀ c, Sent (fun _ _ => 0) s' c [oneSample] := by
  constructor
  · obtain ⟨tr, s, hrun, hsaved, hserver, hclients, hreport⟩ := run_committing
      (Sessions.init (fun _ => none) (fun _ => oneReport) fun _ => 0) rfl rfl
    refine ⟨tr, s, _, hrun, SessionStep.step (Step.commit hreport), ?_⟩
    refine (restored_server_skips_iff hrun (fun server h => absurd h (hsaved server))
      (SessionStep.step (Step.commit hreport)) (by simp) ?_).2 ?_
    · show (commitReport s.system.server _ _).corpus.samples = _
      rw [hserver]
      rfl
    · intro c timestamp hremembers
      rw [hclients] at hremembers
      rcases hremembers with rfl | ⟨reply, -, -, -, hcall, -⟩
      · exact Nat.zero_le _
      · cases hcall
  · obtain ⟨tr, s, files, hrun, hsaved, hrestart, hfit, hserver, hclient, hreport⟩ := run_restarted
    obtain ⟨tr', s', hrun', hsaved', hserver', hclients, hcommitting⟩ :=
      run_committing s hreport (by rw [hserver]; rfl)
    have hadds : (commitReport s'.system.server (hasNewCoverage s.system.server oneCoverage).2
        [oneSample]).corpus.samples = s'.system.server.corpus.samples ++ [oneSample] := by
      rw [hserver', hserver]
      rfl
    obtain ⟨server, hsaved⟩ := hsaved
    refine ⟨_, s', _, hrun.trans hrun', ⟨server, List.mem_append_left _ hsaved⟩,
      List.mem_append_left _ hrestart, SessionStep.step (Step.commit hcommitting), hadds,
      fun hsent => ?_⟩
    have hbehind := (restored_server_skips_iff (hrun.trans hrun') (by simpa [hsaved'] using hfit)
      (SessionStep.step (Step.commit hcommitting)) (by simp) hadds).1 hsent
    -- the client remembers time 1, and the clock of the restored server is 0
    have hle := hbehind () 1 (Or.inl (by rw [hclients, hclient]))
    rw [hserver', hserver] at hle
    exact Nat.not_succ_le_zero 0 hle

/-- **A sample that is not sent.** The server is killed before it has saved, and its
timestamps begin again.  The sample that is reported then gets a time which a client
remembers already, so an update of this client leaves it out, now and later.  -/
theorem not_sent_after_restart : ∃ (tr : List (SessionEvent Unit Unit)) (s s' : Sessions Unit Unit),
    Run (SessionStep fun _ _ => 0)
      (Sessions.init (fun _ => none) (fun _ => oneReport) fun _ => 0) tr s ∧
    SessionEvent.restarted ∈ tr ∧ SessionStep (fun _ _ => 0) s (.step (.reported ())) s' ∧
    s'.system.server.corpus.samples = s.system.server.corpus.samples ++ [oneSample] ∧
    ¬ Sent (fun _ _ => 0) s' () [oneSample] := by
  obtain ⟨tr, s, files, hrun, -, hrestart, hfit, hserver, hclient, hreport⟩ := run_restarted
  obtain ⟨tr', s', hrun', hsaved, hserver', hclients, hcommitting⟩ :=
    run_committing s hreport (by rw [hserver]; rfl)
  have hcommit : SessionStep (fun _ _ => 0) s' (.step (.reported ())) _ :=
    SessionStep.step (Step.commit hcommitting)
  have hall := (hrun.trans hrun').snoc hcommit
  refine ⟨_, s', _, hrun.trans hrun', by simp [hrestart], hcommit, ?_, fun hsent => ?_⟩
  · show (commitReport s'.system.server _ _).corpus.samples = _
    rw [hserver', hserver]
    rfl
  · obtain ⟨⟨inputs, l, hrep⟩, -, -⟩ := SessionsOk.run hall (by simpa [hsaved] using hfit)
    refine not_sent_of_remembers (by simp) hrep (clientOk_of_run hall ()) (Or.inl rfl) ?_ hsent
    rw [← hrep.represents.clock]
    show (commitReport s'.system.server _ _).serverTimestamp ≤ (s'.system.clients ()).lastTimestamp
    rw [hserver', hserver, hclients, hclient]
    exact Nat.le_refl 1

end

end Server
end Jackalope
