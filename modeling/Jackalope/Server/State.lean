/-
# The coverage server and what it is for

`CoverageServer` (`server.h`, `server.cpp`) keeps the coverage seen by all
clients and the samples that brought it, and hands the samples out in increments.
Its purpose, stated without locks and connections, is a ledger: a set of
(module, offset) pairs and a journal of samples, where a report is accepted
exactly when it brings a pair that was not there.

`Represents` says that a server is a ledger.  The two lock sections that change
or decide anything, `hasNewCoverage` under the read lock and `commitReport` under
the write lock, are related to it by `Represents.check` and
`Represents.commit`.  The latter compares the report with the total twice, the
second time through a difference taken against an older total; that total only
grows is what makes the two tests one.
-/

import Jackalope.Server.Index
import Jackalope.Server.Wire

namespace Jackalope
namespace Server

open Foundation

/-- `CoverageServer::ServerCorpus`. -/
structure ServerCorpus where
  samples : List Sample
  timestamps : List TimestampIndex

/-- The part of `CoverageServer` behind `mutex`, and the files `sample_%05zu` in
`sample_dir`.  `server_timestamp` and `num_samples` are counters of things that
are all in memory (a pair of `total_coverage` for each tick), so they are not
bounded here. -/
structure CoverageServer where
  corpus : ServerCorpus
  totalCoverage : Coverage
  serverTimestamp : ℕ
  numSamples : ℕ
  sampleFiles : ℕ → Option Sample

/-- The constructor, over the files already in `sample_dir`. -/
def CoverageServer.init (sampleFiles : ℕ → Option Sample) : CoverageServer where
  corpus := ⟨[], []⟩
  totalCoverage := []
  serverTimestamp := 0
  numSamples := 0
  sampleFiles := sampleFiles

/-- One round of the loop that saves and stores the samples of a report. -/
def saveSample (server : CoverageServer) (sample : Sample) : CoverageServer :=
  { server with
    sampleFiles := Function.update server.sampleFiles server.corpus.samples.length (some sample)
    corpus := { server.corpus with samples := server.corpus.samples ++ [sample] } }

/-- `corpus.timestamps.push_back({ server_timestamp, corpus.samples.size() })`. -/
def pushTimestamp (server : CoverageServer) : CoverageServer :=
  { server with
    corpus := { server.corpus with
      timestamps := server.corpus.timestamps ++
        [⟨server.serverTimestamp, server.corpus.samples.length⟩] } }

/-- Everything `ReportNewCoverage` does to the corpus once the coverage is merged. -/
def storeSamples (server : CoverageServer) (newSamples : List Sample) : CoverageServer :=
  let server := if newSamples.isEmpty then server else pushTimestamp server
  let server := newSamples.foldl saveSample server
  { server with numSamples := server.corpus.samples.length }

section

variable [TinyInst]

/-- `CoverageServer::HasNewCoverage`: the result and `new_coverage`. -/
def hasNewCoverage (server : CoverageServer) (clientCoverage : Coverage) : Bool × Coverage :=
  let newCoverage := coverageDifference server.totalCoverage clientCoverage
  (!newCoverage.isEmpty, newCoverage)

/-- `CoverageServer::OnNewCoverage`: the server afterwards, if there was something
new. -/
def onNewCoverage (server : CoverageServer) (clientCoverage : Coverage) :
    Option CoverageServer :=
  let newClientCoverage := coverageDifference server.totalCoverage clientCoverage
  if newClientCoverage.isEmpty then none
  else some { server with
    serverTimestamp := server.serverTimestamp + 1
    totalCoverage := mergeCoverage server.totalCoverage newClientCoverage }

/-- The section of `ReportNewCoverage` under `mutex.LockWrite()`. -/
def commitReport (server : CoverageServer) (newClientCoverage : Coverage)
    (newSamples : List Sample) : CoverageServer :=
  match onNewCoverage server newClientCoverage with
  | none => server
  | some server => storeSamples server newSamples

end

/-! ### What storing samples does -/

/-- The entry of the index changes no sample.  -/
@[simp] theorem pushTimestamp_samples (server : CoverageServer) :
    (pushTimestamp server).corpus.samples = server.corpus.samples := rfl

/-- A sample is stored behind the others.  -/
@[simp] theorem saveSample_samples (server : CoverageServer) (sample : Sample) :
    (saveSample server sample).corpus.samples = server.corpus.samples ++ [sample] := rfl

/-- Storing a sample makes no entry of the index: the samples of a report share one.  -/
@[simp] theorem saveSample_timestamps (server : CoverageServer) (sample : Sample) :
    (saveSample server sample).corpus.timestamps = server.corpus.timestamps := rfl

/-- The samples of a report are stored in their order, behind the others.  -/
theorem foldl_saveSample_samples (newSamples : List Sample) (server : CoverageServer) :
    (newSamples.foldl saveSample server).corpus.samples =
      server.corpus.samples ++ newSamples := by
  induction newSamples generalizing server with
  | nil => simp
  | cons s newSamples ih => rw [List.foldl_cons, ih, saveSample_samples, List.append_assoc]; rfl

/-- Saving the samples leaves everything but the samples and their files. -/
theorem foldl_saveSample_frame (newSamples : List Sample) (server : CoverageServer) :
    (newSamples.foldl saveSample server).corpus.timestamps = server.corpus.timestamps ∧
      (newSamples.foldl saveSample server).totalCoverage = server.totalCoverage ∧
      (newSamples.foldl saveSample server).serverTimestamp = server.serverTimestamp := by
  induction newSamples generalizing server with
  | nil => exact ⟨rfl, rfl, rfl⟩
  | cons s newSamples ih => exact ih (saveSample server s)

/-- With the entry of the index in front, the samples are the same.  -/
theorem storeSamples_samples (server : CoverageServer) (newSamples : List Sample) :
    (storeSamples server newSamples).corpus.samples = server.corpus.samples ++ newSamples := by
  simp only [storeSamples]
  rw [foldl_saveSample_samples]
  split <;> simp

/-- **The index gets one entry for the whole report**, with the time and the number of its
first sample, and none if it has no samples.  -/
theorem storeSamples_timestamps (server : CoverageServer) (newSamples : List Sample) :
    (storeSamples server newSamples).corpus.timestamps.map TimestampIndex.mark =
      server.corpus.timestamps.map TimestampIndex.mark ++
        Journal.batchMark server.serverTimestamp server.corpus.samples.length newSamples := by
  simp only [storeSamples, Journal.batchMark]
  rw [(foldl_saveSample_frame _ _).1]
  split
  · simp
  · simp [pushTimestamp, TimestampIndex.mark]

/-- Storing samples changes neither the coverage nor the clock.  -/
theorem storeSamples_frame (server : CoverageServer) (newSamples : List Sample) :
    (storeSamples server newSamples).totalCoverage = server.totalCoverage ∧
      (storeSamples server newSamples).serverTimestamp = server.serverTimestamp := by
  simp only [storeSamples]
  obtain ⟨-, h₁, h₂⟩ := foldl_saveSample_frame newSamples
    (if newSamples.isEmpty then server else pushTimestamp server)
  rw [h₁, h₂]
  split <;> exact ⟨rfl, rfl⟩

/-! ### The ledger -/

/-- What the server is for: the pairs covered so far and the journal of samples. -/
structure Ledger where
  total : Set (Bytes × UInt64)
  journal : Journal Sample

/-- Nothing reported yet. -/
def Ledger.empty : Ledger := ⟨∅, Journal.empty⟩

open Classical in
/-- **One report, atomically.**  If it brings a pair that is not there, the clock
ticks, the pairs are merged and the samples appended; else nothing happens. -/
noncomputable def Ledger.report (l : Ledger) (coverage : Set (Bytes × UInt64))
    (samples : List Sample) : Ledger :=
  if coverage ⊆ l.total then l else ⟨l.total ∪ coverage, l.journal.append samples⟩

/-- A report that brings nothing new changes nothing, whatever samples come with it.  -/
theorem Ledger.report_of_subset {l : Ledger} {coverage : Set (Bytes × UInt64)}
    (h : coverage ⊆ l.total) (samples : List Sample) : l.report coverage samples = l :=
  if_pos h

/-- A report that brings something new is merged, and its samples are appended under one
time.  -/
theorem Ledger.report_of_not_subset {l : Ledger} {coverage : Set (Bytes × UInt64)}
    (h : ¬ coverage ⊆ l.total) (samples : List Sample) :
    l.report coverage samples = ⟨l.total ∪ coverage, l.journal.append samples⟩ :=
  if_neg h

/-- Coverage only grows. -/
theorem Ledger.total_subset_report (l : Ledger) (coverage : Set (Bytes × UInt64))
    (samples : List Sample) : l.total ⊆ (l.report coverage samples).total := by
  by_cases h : coverage ⊆ l.total
  · rw [report_of_subset h]
  · rw [report_of_not_subset h]
    exact Set.subset_union_left

/-- The clock only advances. -/
theorem Ledger.clock_le_report (l : Ledger) (coverage : Set (Bytes × UInt64))
    (samples : List Sample) : l.journal.clock ≤ (l.report coverage samples).journal.clock := by
  by_cases h : coverage ⊆ l.total
  · rw [report_of_subset h]
  · rw [report_of_not_subset h]
    exact Nat.le_succ _

/-- A report does not change the past. -/
theorem Ledger.upTo_report (l : Ledger) (coverage : Set (Bytes × UInt64))
    (samples : List Sample) {t : ℕ} (ht : t ≤ l.journal.clock) :
    (l.report coverage samples).journal.upTo t = l.journal.upTo t := by
  by_cases h : coverage ⊆ l.total
  · rw [report_of_subset h]
  · rw [report_of_not_subset h]
    exact l.journal.upTo_append samples ht

/-- The server holds what the ledger holds. -/
structure Represents (server : CoverageServer) (l : Ledger) : Prop where
  total : pairs server.totalCoverage = l.total
  clock : server.serverTimestamp = l.journal.clock
  samples : server.corpus.samples = l.journal.items
  marks : server.corpus.timestamps.map TimestampIndex.mark = l.journal.marks

/-- A new server holds what the empty ledger holds, whatever files there are in its
directory.  -/
theorem represents_init (sampleFiles : ℕ → Option Sample) :
    Represents (CoverageServer.init sampleFiles) Ledger.empty where
  total := pairs_nil
  clock := rfl
  samples := rfl
  marks := rfl

namespace Represents

variable {server : CoverageServer} {l : Ledger}

/-- The index increases in both components, since its entries are made one at a time, each
with a later time and behind the samples of those before.  -/
theorem increasing (h : Represents server l) :
    server.corpus.timestamps.Pairwise fun a b => a.timestamp < b.timestamp ∧ a.index < b.index := by
  have := l.journal.increasing
  rw [← h.marks, List.pairwise_map] at this
  exact this

/-- Every entry of the index is stamped with a past time, after `0`, and points at
a sample. -/
theorem mem_timestamps (h : Represents server l) {e : TimestampIndex}
    (he : e ∈ server.corpus.timestamps) :
    0 < e.timestamp ∧ e.timestamp ≤ server.serverTimestamp ∧
      e.index < server.corpus.samples.length := by
  have hm : e.mark ∈ l.journal.marks := by
    rw [← h.marks]
    exact List.mem_map_of_mem he
  rw [h.clock, h.samples]
  exact ⟨l.journal.stamp_pos _ hm, l.journal.stamp_le _ hm, l.journal.index_lt _ hm⟩

/-- `GetIndex` on the index of a server: the first sample newer than `t`, which is where the
list that is sent to a client begins.  -/
theorem getIndex_eq (h : Represents server l) (t : ℕ) :
    getIndex server.corpus.timestamps t server.corpus.samples.length =
      some (firstNewer l.journal.marks t l.journal.items.length) := by
  rw [Server.getIndex_eq, h.marks, h.samples]
  · exact h.increasing.imp fun hab => hab.1.le
  · intro e he
    have hm : l.journal.marks.head? = some e.mark := by
      rw [← h.marks, List.head?_map, he]
      rfl
    exact ⟨(h.mem_timestamps (List.mem_of_mem_head? he)).1, l.journal.first_index _ hm⟩
  · intro hnil
    have : l.journal.marks = [] := by rw [← h.marks, hnil]; rfl
    rw [h.samples, l.journal.marked this]
    rfl

variable [TinyInst]

/-- **The check under the read lock** answers whether the report brings anything
to the ledger. -/
theorem check (h : Represents server l) (clientCoverage : Coverage) :
    (hasNewCoverage server clientCoverage).1 = true ↔ ¬ pairs clientCoverage ⊆ l.total := by
  rw [← h.total, ← difference_eq_nil]
  simp [hasNewCoverage]

/-- **The section under the write lock** is the atomic report, although it only
sees the part of the coverage that was new at an earlier time. -/
theorem commit (h : Represents server l) {coverage newClientCoverage : Coverage}
    {old : Set (Bytes × UInt64)} (hnew : pairs newClientCoverage = pairs coverage \ old)
    (hold : old ⊆ l.total) (newSamples : List Sample) :
    Represents (commitReport server newClientCoverage newSamples)
      (l.report (pairs coverage) newSamples) := by
  have hsub : pairs newClientCoverage ⊆ l.total ↔ pairs coverage ⊆ l.total := by
    rw [hnew]
    constructor
    · intro hs p hp
      by_cases hpo : p ∈ old
      · exact hold hpo
      · exact hs ⟨hp, hpo⟩
    · exact fun hs p hp => hs hp.1
  have hnil : coverageDifference server.totalCoverage newClientCoverage = [] ↔
      pairs coverage ⊆ l.total := by
    rw [difference_eq_nil, h.total, hsub]
  by_cases hc : pairs coverage ⊆ l.total
  · rw [Ledger.report_of_subset hc]
    simpa [commitReport, onNewCoverage, hnil.2 hc] using h
  · rw [Ledger.report_of_not_subset hc]
    have hne : ¬ coverageDifference server.totalCoverage newClientCoverage = [] := mt hnil.1 hc
    simp only [commitReport, onNewCoverage, List.isEmpty_iff, if_neg hne]
    obtain ⟨htotal, hclock⟩ := storeSamples_frame
      { server with
        serverTimestamp := server.serverTimestamp + 1
        totalCoverage := mergeCoverage server.totalCoverage
          (coverageDifference server.totalCoverage newClientCoverage) } newSamples
    refine ⟨?_, ?_, ?_, ?_⟩
    · rw [htotal, pairs_merge, pairs_difference, h.total, hnew]
      ext p
      have := @hold p
      simp only [Set.mem_union, Set.mem_sdiff]
      tauto
    · rw [hclock, h.clock]
      rfl
    · rw [storeSamples_samples, h.samples]
      rfl
    · rw [storeSamples_timestamps, h.marks, h.clock, h.samples]
      rfl

end Represents

end Server
end Jackalope
