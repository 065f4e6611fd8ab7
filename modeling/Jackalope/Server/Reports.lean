/-
# Reports are atomic

Two lock sections and a transfer in between decide a report; any number of
handlers are somewhere in between at the same time, and any of their connections
may end anywhere.  `report_new_coverage_linearizable` says that none of this
shows: the server is at every moment the ledger on which the decided reports were
executed one at a time, in the order of their deciding lock sections.

What makes it so is that the coverage in the hands of a handler is what was new
to an *earlier* total, and totals only grow (`Handler`).
-/

import Jackalope.Server.System

namespace Jackalope
namespace Server

open Foundation Foundation.Consumer

variable {ι κ : Type}

/-- The report that an event decides. -/
def Event.decided : Event ι κ → Option ι
  | .reported i => some i
  | _ => none

/-- The reports decided in a run, in order. -/
def decided (tr : List (Event ι κ)) : List ι := tr.filterMap Event.decided

/-- One event more, and the report that it decides, if it decides one.  -/
theorem decided_snoc (tr : List (Event ι κ)) (e : Event ι κ) :
    decided (tr ++ [e]) = decided tr ++ e.decided.toList := by
  rw [decided, List.filterMap_append]
  rcases h : e.decided with _ | i <;> simp [decided, h]

section

variable [TinyInst] (uninit : ℕ → ℕ → UInt64)

/-- **One report executed on its own**, from the bytes its peer sends: nothing if
its coverage is known (the samples are then not asked for), else the clock ticks,
the pairs are merged and the samples behind the coverage appended. -/
def AtomicReport (incoming : Bytes) (l l' : Ledger) : Prop :=
  ∃ coverage rest, recvCoverage uninit incoming = .ok (coverage, rest) ∧
    (pairs coverage ⊆ l.total ∧ l' = l ∨
      ∃ newSamples rest', recvSamples rest = .ok (newSamples, rest') ∧
        l' = l.report (pairs coverage) newSamples)

/-- Reports executed one after the other on the empty ledger. -/
inductive Serial (inputs : ι → Bytes) : List ι → Ledger → Prop
  | nil : Serial inputs [] Ledger.empty
  | snoc {order l i l'} : Serial inputs order l → AtomicReport uninit (inputs i) l l' →
      Serial inputs (order ++ [i]) l'

/-- What a handler knows of its peer and of the ledger. -/
def Handler (incoming : Bytes) (l : Ledger) : Report → Prop
  | .receiving rest => rest = incoming
  | .checking coverage rest => recvCoverage uninit incoming = .ok (coverage, rest)
  | .transferring coverage newCoverage rest =>
      recvCoverage uninit incoming = .ok (coverage, rest) ∧
        ∃ old ⊆ l.total, pairs newCoverage = pairs coverage \ old
  | .committing coverage newCoverage newSamples =>
      (∃ rest rest', recvCoverage uninit incoming = .ok (coverage, rest) ∧
        recvSamples rest = .ok (newSamples, rest')) ∧
        ∃ old ⊆ l.total, pairs newCoverage = pairs coverage \ old
  | .returned _ => True

variable {uninit}

/-- What a handler knows stays true while the total grows: what it has found to be covered
is covered still.  -/
theorem Handler.mono {incoming : Bytes} {l l' : Ledger} {r : Report}
    (h : Handler uninit incoming l r) (hl : l.total ⊆ l'.total) :
    Handler uninit incoming l' r := by
  cases r with
  | receiving | checking | returned => exact h
  | transferring | committing =>
      obtain ⟨hread, old, hold, hnew⟩ := h
      exact ⟨hread, old, hold.trans hl, hnew⟩

/-- A report that is executed on its own takes no pair away.  -/
theorem AtomicReport.total_subset {incoming : Bytes} {l l' : Ledger}
    (h : AtomicReport uninit incoming l l') : l.total ⊆ l'.total := by
  obtain ⟨coverage, -, -, ⟨-, rfl⟩ | ⟨newSamples, -, -, rfl⟩⟩ := h
  · exact subset_rfl
  · exact l.total_subset_report _ _

/-- Nor does it put the clock back.  -/
theorem AtomicReport.clock_le {incoming : Bytes} {l l' : Ledger}
    (h : AtomicReport uninit incoming l l') : l.journal.clock ≤ l'.journal.clock := by
  obtain ⟨coverage, -, -, ⟨-, rfl⟩ | ⟨newSamples, -, -, rfl⟩⟩ := h
  · exact le_rfl
  · exact l.clock_le_report _ _

/-- A report does not change what was seen up to a past time. -/
theorem AtomicReport.upTo_eq {incoming : Bytes} {l l' : Ledger}
    (h : AtomicReport uninit incoming l l') {t : ℕ} (ht : t ≤ l.journal.clock) :
    l'.journal.upTo t = l.journal.upTo t := by
  obtain ⟨coverage, -, -, ⟨-, rfl⟩ | ⟨newSamples, -, -, rfl⟩⟩ := h
  · rfl
  · exact l.upTo_report _ _ ht

/-- The server is the ledger `l`, and every handler is where it should be. -/
structure Reporting (uninit : ℕ → ℕ → UInt64) (inputs : ι → Bytes) (l : Ledger)
    (s : System ι κ) : Prop where
  represents : Represents s.server l
  handlers : ∀ i, Handler uninit (inputs i) l (s.reports i)

/-- The invariant holds at the start: the server is the empty ledger, and every handler has
still everything to receive.  -/
theorem reporting_init (sampleFiles : ℕ → Option Sample) (inputs : ι → Bytes)
    (clientIds : κ → UInt64) :
    Reporting uninit inputs Ledger.empty (System.init sampleFiles inputs clientIds) where
  represents := represents_init sampleFiles
  handlers _ := rfl

variable [DecidableEq ι]

/-- A step of one handler that leaves the server alone keeps the books, if the handler is
right about what it has received.  -/
theorem Reporting.setReport {inputs : ι → Bytes} {l : Ledger} {s : System ι κ}
    (h : Reporting uninit inputs l s) {i : ι} {r : Report} (hr : Handler uninit (inputs i) l r) :
    Reporting uninit inputs l (s.setReport i r) where
  represents := h.represents
  handlers j := by
    rw [System.setReport_reports]
    split
    · rename_i hj
      rwa [hj]
    · exact h.handlers j

variable [DecidableEq κ]

/-- **What one step does to the ledger.**  A step that decides a report executes
it atomically; any other step leaves the ledger as it is. -/
theorem Reporting.step {inputs : ι → Bytes} {l : Ledger} {s s' : System ι κ} {e : Event ι κ}
    (h : Reporting uninit inputs l s) (hst : Step uninit s e s') :
    ∃ l', Reporting uninit inputs l' s' ∧
      ((e.decided = none ∧ l' = l) ∨
        ∃ i, e.decided = some i ∧ AtomicReport uninit (inputs i) l l') := by
  cases hst with
  | @recvCoverage i incoming coverage rest hi hread =>
      have hin : incoming = inputs i := by simpa [Handler, hi] using h.handlers i
      exact ⟨l, h.setReport (by rwa [← hin]), Or.inl ⟨rfl, rfl⟩⟩
  | recvCoverageFailed hi _ => exact ⟨l, h.setReport trivial, Or.inl ⟨rfl, rfl⟩⟩
  | @nothingNew i coverage incoming hi hcheck =>
      have hread := h.handlers i
      rw [hi] at hread
      -- the answer 'N' was right: the coverage is known
      have hsub : pairs coverage ⊆ l.total := by
        by_contra hc
        rw [(h.represents.check coverage).2 hc] at hcheck
        cases hcheck
      exact ⟨l, h.setReport trivial, Or.inr ⟨i, rfl, coverage, _, hread, Or.inl ⟨hsub, rfl⟩⟩⟩
  | @somethingNew i coverage incoming hi _ =>
      have hread := h.handlers i
      rw [hi] at hread
      refine ⟨l, h.setReport ⟨hread, l.total, subset_rfl, ?_⟩, Or.inl ⟨rfl, rfl⟩⟩
      rw [hasNewCoverage, pairs_difference, h.represents.total]
  | @recvSamples i coverage newCoverage incoming newSamples rest hi hread =>
      have hh := h.handlers i
      rw [hi] at hh
      exact ⟨l, h.setReport ⟨⟨_, _, hh.1, hread⟩, hh.2⟩, Or.inl ⟨rfl, rfl⟩⟩
  | recvSamplesFailed hi _ => exact ⟨l, h.setReport trivial, Or.inl ⟨rfl, rfl⟩⟩
  | @commit i coverage newCoverage newSamples hi =>
      have hh := h.handlers i
      rw [hi] at hh
      obtain ⟨⟨rest, rest', hcov, hsam⟩, old, hold, hnew⟩ := hh
      have hrep : AtomicReport uninit (inputs i) l (l.report (pairs coverage) newSamples) :=
        ⟨coverage, rest, hcov, Or.inr ⟨newSamples, rest', hsam, rfl⟩⟩
      have hset := h.setReport (i := i) (r := .returned true) trivial
      exact ⟨_, ⟨h.represents.commit hnew hold newSamples,
        fun j => (hset.handlers j).mono hrep.total_subset⟩, Or.inr ⟨i, rfl, hrep⟩⟩
  | getUpdates | serve | update | updateFailed | broken =>
      exact ⟨l, ⟨h.represents, h.handlers⟩, Or.inl ⟨rfl, rfl⟩⟩

/-- A handler that returned does not move again, and it returns 1 exactly when a
lock section decides its report. -/
theorem Step.returned_iff {s s' : System ι κ} {e : Event ι κ} (hst : Step uninit s e s') (i : ι) :
    (e.decided = some i → s.reports i ≠ .returned true) ∧
      (s'.reports i = .returned true ↔ s.reports i = .returned true ∨ e.decided = some i) := by
  cases hst with
  | getUpdates | serve | update | updateFailed | broken =>
      simp [Event.decided, System.setCall, System.setClient]
  | @recvCoverage j _ _ _ hj | @recvCoverageFailed j _ _ hj | @nothingNew j _ _ hj _
  | @somethingNew j _ _ hj _ | @recvSamples j _ _ _ _ _ hj _ | @recvSamplesFailed j _ _ _ _ hj _
  | @commit j _ _ _ hj =>
      by_cases hij : i = j
      · subst hij
        simp [System.setReport_reports, hj, Event.decided]
      · simp [System.setReport_reports, hij, Event.decided, Ne.symm hij]

/-- At every moment of a run the server is the ledger of the reports decided so far, in the
order in which they were decided, with what each of them has sent.  -/
theorem reporting_of_run {sampleFiles : ℕ → Option Sample} {inputs : ι → Bytes}
    {clientIds : κ → UInt64} {tr : List (Event ι κ)} {s : System ι κ}
    (h : Run (Step uninit) (System.init sampleFiles inputs clientIds) tr s) :
    ∃ l, Serial uninit inputs (decided tr) l ∧ Reporting uninit inputs l s := by
  refine h.invariant
    (fun tr s => ∃ l, Serial uninit inputs (decided tr) l ∧ Reporting uninit inputs l s) ?_ ?_
  · exact ⟨_, Serial.nil, reporting_init sampleFiles inputs clientIds⟩
  · rintro tr s e s' ⟨l, hserial, hrep⟩ hst
    obtain ⟨l', hrep', hl⟩ := hrep.step hst
    refine ⟨l', ?_, hrep'⟩
    rw [decided_snoc]
    rcases hl with ⟨hnone, rfl⟩ | ⟨i, hi, hat⟩
    · simpa [hnone] using hserial
    · rw [hi]
      exact hserial.snoc hat

/-- No report is decided twice, and the decided ones are those that returned 1; those that
failed or had nothing new are not among them.  -/
theorem decided_of_run {sampleFiles : ℕ → Option Sample} {inputs : ι → Bytes}
    {clientIds : κ → UInt64} {tr : List (Event ι κ)} {s : System ι κ}
    (h : Run (Step uninit) (System.init sampleFiles inputs clientIds) tr s) :
    (decided tr).Nodup ∧ ∀ i, i ∈ decided tr ↔ s.reports i = .returned true := by
  refine h.invariant (fun tr s => (decided tr).Nodup ∧
    ∀ i, i ∈ decided tr ↔ s.reports i = .returned true) ?_ ?_
  · refine ⟨List.nodup_nil, fun i => ?_⟩
    simp [decided, System.init]
  · rintro tr s e s' ⟨hnodup, hmem⟩ hst
    rw [decided_snoc]
    refine ⟨?_, fun i => ?_⟩
    · rcases hd : e.decided with _ | i
      · simpa using hnodup
      · -- a report that was decided before is not decided again
        have hnew : i ∉ decided tr := by
          rw [hmem]
          exact (hst.returned_iff i).1 hd
        rw [Option.toList_some]
        exact hnodup.append (List.nodup_singleton i) (by simpa using hnew)
    · rw [List.mem_append, hmem, (hst.returned_iff i).2, Option.mem_toList]

/-- **Reports are atomic.**  In every interleaving of any number of report
connections and clients, whatever the peers send, the server is what executing
the reports whose handlers returned 1 one at a time gives, in the order of the
lock sections that decided them; a handler that returned 0 is not among them, so
it changed nothing.  The index of the corpus increases strictly in both
components, and its entries are stamped with past times and point at samples. -/
theorem report_new_coverage_linearizable {sampleFiles : ℕ → Option Sample} {inputs : ι → Bytes}
    {clientIds : κ → UInt64} {tr : List (Event ι κ)} {s : System ι κ}
    (h : Run (Step uninit) (System.init sampleFiles inputs clientIds) tr s) :
    (∃ l, Serial uninit inputs (decided tr) l ∧ pairs s.server.totalCoverage = l.total ∧
      s.server.serverTimestamp = l.journal.clock ∧ s.server.corpus.samples = l.journal.items ∧
      s.server.corpus.timestamps.map TimestampIndex.mark = l.journal.marks) ∧
    (decided tr).Nodup ∧ (∀ i, i ∈ decided tr ↔ s.reports i = .returned true) ∧
    (∀ i, s.reports i = .returned false → i ∉ decided tr) ∧
    s.server.corpus.timestamps.Pairwise
      (fun a b => a.timestamp < b.timestamp ∧ a.index < b.index) ∧
    ∀ e ∈ s.server.corpus.timestamps, 0 < e.timestamp ∧ e.timestamp ≤ s.server.serverTimestamp ∧
      e.index < s.server.corpus.samples.length := by
  obtain ⟨l, hserial, hrep⟩ := reporting_of_run h
  obtain ⟨hnodup, hmem⟩ := decided_of_run h
  have hr := hrep.represents
  refine ⟨⟨l, hserial, hr.total, hr.clock, hr.samples, hr.marks⟩, hnodup, hmem, ?_,
    hr.increasing, fun e he => hr.mem_timestamps he⟩
  intro i hi
  rw [hmem, hi]
  simp

end

/-! ### A run -/

section

attribute [local instance] listTinyInst

/-- The coverage and the sample of a peer. -/
def oneCoverage : Coverage := [⟨str "m", {5}⟩]

def oneSample : Sample := Sample.init (str "A")

/-- What the peer sends. -/
def oneReport : Bytes :=
  charC :: u64 1 ++ str "m" ++ u64 1 ++ u64 5 ++ charN :: sendSamples [oneSample]

/-- The coverage is received, and the rest left for the samples.  -/
theorem recvCoverage_oneReport :
    recvCoverage (fun _ _ => 0) oneReport = .ok (oneCoverage, sendSamples [oneSample]) := rfl

/-- The peer reports, is told to send its sample, and the server stores it. -/
theorem run_oneReport : ∃ s : System Unit Unit,
    Run (Step fun _ _ => 0) (System.init (fun _ => none) (fun _ => oneReport) fun _ => 0)
      [.handled (), .handled (), .handled (), .reported ()] s ∧
    s.reports () = .returned true ∧ s.clients () = ⟨0, 0, .idle⟩ ∧
    s.server = commitReport (CoverageServer.init fun _ => none) oneCoverage [oneSample] := by
  have hsamples : recvSamples (sendSamples [oneSample]) = .ok ([oneSample], []) := by
    simpa using (decodes_recvSamples [oneSample]).exact []
  exact ⟨_, Run.cons (Step.recvCoverage rfl recvCoverage_oneReport)
    (Run.cons (Step.somethingNew rfl rfl) (Run.cons (Step.recvSamples rfl hsamples)
      (Run.single (Step.commit rfl)))), rfl, rfl, rfl⟩

/-- The coverage of three peers: the first and the last cover the same offset, the second
another one as well. -/
def threeCoverages : Fin 3 → Coverage
  | 0 => [⟨str "m", {5}⟩]
  | 1 => [⟨str "m", {5, 6}⟩]
  | 2 => [⟨str "m", {5}⟩]

/-- The sample of each of the three peers. -/
def threeSamples : Fin 3 → Sample
  | 0 => Sample.init (str "A")
  | 1 => Sample.init (str "B")
  | 2 => Sample.init (str "C")

/-- What each of the three peers sends. -/
def threeReports (i : Fin 3) : Bytes :=
  let offsets := if i = 1 then u64 2 ++ u64 5 ++ u64 6 else u64 1 ++ u64 5
  charC :: u64 1 ++ str "m" ++ offsets ++ charN :: sendSamples [threeSamples i]

/-- The coverage of each peer is received, and the rest left for the samples.  -/
theorem recvCoverage_threeReports : ∀ i : Fin 3, recvCoverage (fun _ _ => 0) (threeReports i) =
    .ok (threeCoverages i, sendSamples [threeSamples i])
  | 0 => rfl
  | 1 => rfl
  | 2 => rfl

/-- The sample of each peer is received.  -/
theorem recvSamples_threeSamples (i : Fin 3) :
    recvSamples (sendSamples [threeSamples i]) = .ok ([threeSamples i], []) := by
  simpa using (decodes_recvSamples [threeSamples i]).exact []

/-- **Three interleaved reports.**  All three handlers receive their coverage, then all
three pass the check under the read lock on the empty server, then all three receive
their samples.  The first two lock sections store a sample each, and the third one
stores nothing: what was new to its peer is known by then. -/
theorem report_new_coverage_linearizable_threeReports :
    ∃ (tr : List (Event (Fin 3) Unit)) (s : System (Fin 3) Unit) (l : Ledger),
      Run (Step fun _ _ => 0) (System.init (fun _ => none) threeReports fun _ => 0) tr s ∧
      s.server.corpus.samples = [threeSamples 0, threeSamples 1] ∧
      s.server.corpus.timestamps = [⟨1, 0⟩, ⟨2, 1⟩] ∧ decided tr = [0, 1, 2] ∧
      Serial (fun _ _ => 0) threeReports [0, 1, 2] l ∧
      s.server.corpus.samples = l.journal.items ∧
      (∀ i, i ∈ decided tr ↔ s.reports i = .returned true) ∧
      ∀ e ∈ s.server.corpus.timestamps, 0 < e.timestamp ∧
        e.timestamp ≤ s.server.serverTimestamp ∧ e.index < s.server.corpus.samples.length := by
  have hread := recvCoverage_threeReports
  have hsamples := recvSamples_threeSamples
  obtain ⟨s, hrun, hcorpus, hindex⟩ : ∃ s : System (Fin 3) Unit,
      Run (Step fun _ _ => 0) (System.init (fun _ => none) threeReports fun _ => 0)
        [.handled 0, .handled 1, .handled 2, .handled 0, .handled 1, .handled 2,
          .handled 0, .handled 1, .handled 2, .reported 0, .reported 1, .reported 2] s ∧
      s.server.corpus.samples = [threeSamples 0, threeSamples 1] ∧
      s.server.corpus.timestamps = [⟨1, 0⟩, ⟨2, 1⟩] :=
    ⟨_, Run.cons (Step.recvCoverage rfl (hread 0)) (Run.cons (Step.recvCoverage rfl (hread 1))
      (Run.cons (Step.recvCoverage rfl (hread 2)) (Run.cons (Step.somethingNew rfl rfl)
      (Run.cons (Step.somethingNew rfl rfl) (Run.cons (Step.somethingNew rfl rfl)
      (Run.cons (Step.recvSamples rfl (hsamples 0)) (Run.cons (Step.recvSamples rfl (hsamples 1))
      (Run.cons (Step.recvSamples rfl (hsamples 2)) (Run.cons (Step.commit rfl)
      (Run.cons (Step.commit rfl) (Run.single (Step.commit rfl)))))))))))), rfl, rfl⟩
  obtain ⟨⟨l, hserial, -, -, hitems, -⟩, -, hdecided, -, -, hentries⟩ :=
    report_new_coverage_linearizable hrun
  exact ⟨_, s, l, hrun, hcorpus, hindex, rfl, hserial, hitems, hdecided, hentries⟩

end

end Server
end Jackalope
