/-
# Saving and restoring the server

`CoverageServer::SaveState` writes the counters, the coverage, and of the corpus only
the number of samples and the index; the samples are in files that
`ReportNewCoverage` wrote, named by their positions.  `RestoreState` reads as many
files as were counted.  So a snapshot is as good as the files below its count.

A server may be killed at any time and restarted from its last snapshot, and then it
uses the numbers behind the snapshot again.  `snapshot_faithful` says that no file
below the count of the last snapshot is ever written again, whatever happened before.
-/

import Jackalope.Foundation.Numbered
import Jackalope.Server.Reports
import Jackalope.StateFile

namespace Jackalope
namespace Server

open Foundation Foundation.Consumer

/-! ### The state file -/

/-- `fwrite` of an entry of the index. -/
def TimestampIndex.toBytes (e : TimestampIndex) : Bytes := fwrite 8 e.timestamp ++ fwrite 8 e.index

def readTimestamp : FileReader TimestampIndex := do
  let timestamp ← fread 8
  let index ← fread 8
  pure ⟨timestamp, index⟩

section

variable [CoverageBinary]

/-- `CoverageServer::SaveState`: what is in `server_state.dat` afterwards. -/
def saveState (server : CoverageServer) : Bytes :=
  fwrite 8 server.numSamples ++ (fwrite 8 server.serverTimestamp ++
    (writeCoverageBinary server.totalCoverage ++ (fwrite 8 server.corpus.samples.length ++
      (fwrite 8 server.corpus.timestamps.length ++
        server.corpus.timestamps.flatMap TimestampIndex.toBytes))))

/-- `CoverageServer::RestoreState`, from the state file and the files in
`sample_dir`.  A file that is not there leaves its sample empty. -/
def readServer (sampleFiles : ℕ → Option Sample) : FileReader CoverageServer := do
  let numSamples ← fread 8
  let serverTimestamp ← fread 8
  let totalCoverage ← readCoverageBinary
  let numFiles ← fread 8
  let samples := (List.range numFiles).map fun i => (sampleFiles i).getD Sample.empty
  let numTimestamps ← fread 8
  let timestamps ← times readTimestamp numTimestamps
  pure {
    corpus := ⟨samples, timestamps⟩
    totalCoverage := totalCoverage
    serverTimestamp := serverTimestamp
    numSamples := numSamples
    sampleFiles := sampleFiles }

def restoreState (stateFile : Bytes) (sampleFiles : ℕ → Option Sample) : Option CoverageServer :=
  match readServer sampleFiles stateFile with
  | .ok (server, _) => some server
  | .error _ => none

end

/-- Its counters fit the 64 bits that they have. -/
structure CoverageServer.Fits (server : CoverageServer) : Prop where
  serverTimestamp : server.serverTimestamp < 2 ^ 64
  samples : server.corpus.samples.length < 2 ^ 64

/-- The index is no longer than the corpus: each of its entries is that of a report with at
least one sample.  -/
theorem Represents.length_timestamps {server : CoverageServer} {l : Ledger}
    (h : Represents server l) :
    server.corpus.timestamps.length ≤ server.corpus.samples.length := by
  have hnodup : (server.corpus.timestamps.map TimestampIndex.index).Nodup :=
    List.pairwise_map.2 (h.increasing.imp fun hlt => Nat.ne_of_lt hlt.2)
  have hsub : server.corpus.timestamps.map TimestampIndex.index ⊆
      List.range server.corpus.samples.length := by
    intro i hi
    obtain ⟨e, he, rfl⟩ := List.mem_map.1 hi
    exact List.mem_range.2 (h.mem_timestamps he).2.2
  have hlen := (hnodup.subperm hsub).length_le
  rwa [List.length_map, List.length_range] at hlen

/-- An entry of the index is two numbers of 64 bits.  -/
theorem decodes_readTimestamp {e : TimestampIndex} (ht : e.timestamp < 2 ^ 64)
    (hi : e.index < 2 ^ 64) : Decodes readTimestamp e.toBytes e := by
  have hindex : Decodes (fread 8) (fwrite 8 e.index) e.index := decodes_fread (by simpa using hi)
  exact (decodes_fread (by simpa using ht)).bind
    (hindex.bind_pure fun index => (⟨e.timestamp, index⟩ : TimestampIndex))

/-- **What is read back**, as long as the files below the count hold the samples: the whole
server, its coverage, its index, its clocks and its corpus, and the directory as it is.  -/
theorem restoreState_snapshot [CoverageBinary] {server : CoverageServer} {l : Ledger}
    (hr : Represents server l) (hcount : server.numSamples = server.corpus.samples.length)
    (hfit : server.Fits) {files : ℕ → Option Sample}
    (hfiles : ∀ i sample, server.corpus.samples[i]? = some sample → files i = some sample) :
    restoreState (saveState server) files = some { server with sampleFiles := files } := by
  obtain ⟨htime, hsize⟩ := hfit
  have hsamples : ((List.range server.corpus.samples.length).map fun i =>
      (files i).getD Sample.empty) = server.corpus.samples := by
    refine List.ext_getElem (by simp) fun i hi hi' => ?_
    rw [List.getElem_map, List.getElem_range, hfiles i _ (List.getElem?_eq_getElem hi')]
    rfl
  have hindex : Decodes (times readTimestamp server.corpus.timestamps.length)
      (server.corpus.timestamps.flatMap TimestampIndex.toBytes) server.corpus.timestamps := by
    have := Decodes.times (f := id) server.corpus.timestamps fun e he => by
      obtain ⟨-, hle, hlt⟩ := hr.mem_timestamps he
      exact decodes_readTimestamp (hle.trans_lt htime) (hlt.trans hsize)
    rwa [List.map_id] at this
  have hlen := hr.length_timestamps.trans_lt hsize
  have hread : Decodes (readServer files) (saveState server) { server with sampleFiles := files } := by
    refine (decodes_fread (by simpa [hcount] using hsize)).bind ?_
    refine (decodes_fread (by simpa using htime)).bind ?_
    refine (decodes_coverage server.totalCoverage).bind ?_
    refine (decodes_fread (by simpa using hsize)).bind ?_
    refine (decodes_fread (by simpa using hlen)).bind ?_
    rw [hsamples]
    exact hindex.bind_pure fun timestamps => { server with
      corpus := ⟨server.corpus.samples, timestamps⟩
      sampleFiles := files }
  have := hread.exact []
  rw [List.append_nil] at this
  rw [restoreState, this]

/-! ### The sample files -/

/-- Sample `i` of the corpus is in file `i`. -/
def sampleOwns (samples : List Sample) (i n : ℕ) (sample : Sample) : Prop :=
  i = n ∧ samples[i]? = some sample

/-- **The sample files are in order.** -/
structure CoverageServer.FilesOk (server : CoverageServer) : Prop where
  counted : server.numSamples = server.corpus.samples.length
  owned : Owned (sampleOwns server.corpus.samples) server.corpus.samples.length server.sampleFiles

/-- What the files hold. -/
theorem CoverageServer.FilesOk.content {server : CoverageServer} (h : server.FilesOk) {i : ℕ}
    {sample : Sample} (hi : server.corpus.samples[i]? = some sample) :
    server.sampleFiles i = some sample :=
  (h.owned.written i i sample ⟨rfl, hi⟩).2

/-- Files with the right content are in order, and nothing is asked of the files behind
them.  -/
theorem owned_of_content {samples : List Sample} {files : ℕ → Option Sample}
    (h : ∀ i sample, samples[i]? = some sample → files i = some sample) :
    Owned (sampleOwns samples) samples.length files := by
  constructor
  · rintro i n sample ⟨rfl, hi⟩
    exact ⟨(List.getElem?_eq_some_iff.1 hi).1, h i sample hi⟩
  · rintro i j n sample sample' ⟨rfl, -⟩ ⟨rfl, -⟩
    rfl

/-- **A sample that is saved gets a file of its own**, with the number behind those of the
samples before, whatever that file held.  -/
theorem owned_saveSample {server : CoverageServer} (sample : Sample)
    (h : Owned (sampleOwns server.corpus.samples) server.corpus.samples.length server.sampleFiles) :
    Owned (sampleOwns (saveSample server sample).corpus.samples)
      (saveSample server sample).corpus.samples.length (saveSample server sample).sampleFiles := by
  rw [saveSample_samples, List.length_append]
  refine h.fresh server.corpus.samples.length sample ?_
  rintro i n x ⟨rfl, hi⟩
  rw [List.getElem?_append] at hi
  split at hi
  · exact Or.inl ⟨rfl, hi⟩
  · obtain ⟨hlt, rfl⟩ := List.getElem?_eq_some_iff.1 hi
    rw [List.length_singleton] at hlt
    exact Or.inr ⟨by omega, by omega, by simp⟩

/-- So do the samples of a report, one after the other, each under the next number.  -/
theorem owned_foldl_saveSample (newSamples : List Sample) {server : CoverageServer}
    (h : Owned (sampleOwns server.corpus.samples) server.corpus.samples.length server.sampleFiles) :
    Owned (sampleOwns (newSamples.foldl saveSample server).corpus.samples)
      (newSamples.foldl saveSample server).corpus.samples.length
      (newSamples.foldl saveSample server).sampleFiles := by
  induction newSamples generalizing server with
  | nil => exact h
  | cons sample newSamples ih => exact ih (owned_saveSample sample h)

/-- So the files are in order behind a report: there are as many as samples, and each has
its own.  -/
theorem CoverageServer.FilesOk.storeSamples {server : CoverageServer} (h : server.FilesOk)
    (newSamples : List Sample) : (storeSamples server newSamples).FilesOk := by
  refine ⟨rfl, ?_⟩
  by_cases hnil : newSamples.isEmpty
  · simp only [Server.storeSamples, if_pos hnil]
    exact owned_foldl_saveSample newSamples h.owned
  · have hpush : Owned (sampleOwns (pushTimestamp server).corpus.samples)
        (pushTimestamp server).corpus.samples.length (pushTimestamp server).sampleFiles := h.owned
    simp only [Server.storeSamples, if_neg hnil]
    exact owned_foldl_saveSample newSamples hpush

/-- A report keeps the files in order, and only adds to the samples: each new sample is
written to the file of its number, which is the next one.  -/
theorem CoverageServer.FilesOk.commitReport [TinyInst] {server : CoverageServer}
    (h : server.FilesOk) (newCoverage : Coverage) (newSamples : List Sample) :
    (commitReport server newCoverage newSamples).FilesOk ∧
      server.corpus.samples <+: (commitReport server newCoverage newSamples).corpus.samples := by
  simp only [Server.commitReport, onNewCoverage]
  split
  · exact ⟨h, List.prefix_rfl⟩
  · rename_i server' hsome
    split at hsome
    · cases hsome
    · cases hsome
      have hnew : CoverageServer.FilesOk { server with
          serverTimestamp := server.serverTimestamp + 1
          totalCoverage := mergeCoverage server.totalCoverage
            (coverageDifference server.totalCoverage newCoverage) } := ⟨h.counted, h.owned⟩
      refine ⟨hnew.storeSamples newSamples, ?_⟩
      rw [storeSamples_samples]
      exact List.prefix_append _ _

/-! ### Servers that are killed and restarted -/

variable {ι κ : Type}

/-- The parties, and what is in `server_state.dat`. -/
structure Sessions (ι κ : Type) where
  system : System ι κ
  stateFile : Option Bytes

/-- What can be seen of a step. -/
inductive SessionEvent (ι κ : Type)
  | step (e : Event ι κ)
  /-- `SaveState` of this server. -/
  | saved (server : CoverageServer)
  /-- The server was killed and restarted with `RestoreState`. -/
  | restarted

/-- What is left of a call when the server is killed: an answer that was given may
still be read, but none will come. -/
def Call.afterKill : Call → Call
  | .requested _ => .replied []
  | call => call

/-- The restored server, with new connections; the clients are as they were. -/
def System.restart (s : System ι κ) (server : CoverageServer) (inputs : ι → Bytes) :
    System ι κ where
  server := server
  reports i := .receiving (inputs i)
  clients c := { s.clients c with call := (s.clients c).call.afterKill }

/-- What a kill leaves of the sample files: a report that was being stored may have
written some of its samples, behind those of the corpus. -/
def LeftBy (server : CoverageServer) (files : ℕ → Option Sample) : Prop :=
  ∀ i < server.corpus.samples.length, files i = server.sampleFiles i

def Sessions.init (sampleFiles : ℕ → Option Sample) (inputs : ι → Bytes)
    (clientIds : κ → UInt64) : Sessions ι κ :=
  ⟨System.init sampleFiles inputs clientIds, none⟩

section

variable [DecidableEq ι] [DecidableEq κ] [TinyInst] [CoverageBinary]

/-- One step of one party, a snapshot under the read lock, or a restart. -/
inductive SessionStep (uninit : ℕ → ℕ → UInt64) :
    Sessions ι κ → SessionEvent ι κ → Sessions ι κ → Prop
  | step {s : Sessions ι κ} {e system} : Step uninit s.system e system →
      SessionStep uninit s (.step e) { s with system := system }
  | save {s : Sessions ι κ} : SessionStep uninit s (.saved s.system.server)
      { s with stateFile := some (saveState s.system.server) }
  | restart {s : Sessions ι κ} {stateFile server} (inputs : ι → Bytes)
      (files : ℕ → Option Sample) : s.stateFile = some stateFile → LeftBy s.system.server files →
      restoreState stateFile files = some server →
      SessionStep uninit s .restarted { s with system := s.system.restart server inputs }

/-- The state file is a snapshot whose samples the server still has. -/
def Snapshot (server : CoverageServer) (stateFile : Bytes) : Prop :=
  ∃ saved l, stateFile = saveState saved ∧ Represents saved l ∧
    saved.numSamples = saved.corpus.samples.length ∧ saved.Fits ∧
    saved.corpus.samples <+: server.corpus.samples

/-- **The invariant of the sessions.** -/
structure SessionsOk (uninit : ℕ → ℕ → UInt64) (s : Sessions ι κ) : Prop where
  reporting : ∃ inputs l, Reporting uninit inputs l s.system
  files : s.system.server.FilesOk
  snapshot : ∀ stateFile, s.stateFile = some stateFile → Snapshot s.system.server stateFile

variable {uninit : ℕ → ℕ → UInt64}

omit [CoverageBinary] in
/-- A step keeps the sample files in order, and only adds to the samples. -/
theorem Step.files {s s' : System ι κ} {e : Event ι κ} (h : Step uninit s e s')
    (hfiles : s.server.FilesOk) :
    s'.server.FilesOk ∧ s.server.corpus.samples <+: s'.server.corpus.samples := by
  cases h with
  | commit => exact hfiles.commitReport _ _
  | _ => exact ⟨hfiles, List.prefix_rfl⟩

omit [DecidableEq ι] [DecidableEq κ] [TinyInst] in
/-- **What a restart finds**: the server of the snapshot. -/
theorem restore_eq {s : System ι κ} (hfiles : s.server.FilesOk) {saved : CoverageServer} {l : Ledger}
    (hr : Represents saved l) (hcount : saved.numSamples = saved.corpus.samples.length)
    (hfit : saved.Fits) (hpre : saved.corpus.samples <+: s.server.corpus.samples)
    {files : ℕ → Option Sample} (hleft : LeftBy s.server files) :
    restoreState (saveState saved) files = some { saved with sampleFiles := files } ∧
      CoverageServer.FilesOk { saved with sampleFiles := files } := by
  have hcontent : ∀ i sample, saved.corpus.samples[i]? = some sample → files i = some sample := by
    intro i sample hi
    obtain ⟨rest, hrest⟩ := hpre
    have hi' : s.server.corpus.samples[i]? = some sample := by
      rw [← hrest, List.getElem?_append_left (List.getElem?_eq_some_iff.1 hi).1]
      exact hi
    rw [hleft i (List.getElem?_eq_some_iff.1 hi').1]
    exact hfiles.content hi'
  exact ⟨restoreState_snapshot hr hcount hfit hcontent, hcount, owned_of_content hcontent⟩

/-- **A step keeps the invariant of the sessions.** A report may only add samples behind
those of the snapshot; a snapshot is one of the server as it is; a restart reads the files
below its count, which hold what they held at the time of the snapshot.  -/
theorem SessionsOk.step {s s' : Sessions ι κ} {event : SessionEvent ι κ} (hok : SessionsOk uninit s)
    (h : SessionStep uninit s event s') (hfit : ∀ server, event = .saved server → server.Fits) :
    SessionsOk uninit s' := by
  obtain ⟨⟨inputs, l, hrep⟩, hfiles, hsnapshot⟩ := hok
  cases h with
  | step hstep =>
      obtain ⟨l', hrep', -⟩ := hrep.step hstep
      obtain ⟨hfiles', hpre⟩ := hstep.files hfiles
      refine ⟨⟨inputs, l', hrep'⟩, hfiles', fun stateFile hfile => ?_⟩
      obtain ⟨saved, l₀, hbytes, hr, hcount, hfits, hsaved⟩ := hsnapshot stateFile hfile
      exact ⟨saved, l₀, hbytes, hr, hcount, hfits, hsaved.trans hpre⟩
  | save =>
      refine ⟨⟨inputs, l, hrep⟩, hfiles, ?_⟩
      rintro stateFile ⟨⟩
      exact ⟨_, l, rfl, hrep.represents, hfiles.counted, hfit _ rfl, List.prefix_rfl⟩
  | restart inputs' files hfile hleft hrestore =>
      obtain ⟨saved, l₀, rfl, hr, hcount, hfits, hsaved⟩ := hsnapshot _ hfile
      obtain ⟨hrestored, hok'⟩ := restore_eq hfiles hr hcount hfits hsaved hleft
      cases hrestored.symm.trans hrestore
      refine ⟨⟨inputs', l₀, ⟨⟨hr.total, hr.clock, hr.samples, hr.marks⟩, fun i => rfl⟩⟩, hok', ?_⟩
      intro stateFile hfile'
      cases hfile.symm.trans hfile'
      exact ⟨saved, l₀, rfl, hr, hcount, hfits, List.prefix_rfl⟩

/-- So does every run in which the counters of what is saved fit into their fields in the
file.  -/
theorem SessionsOk.run {sampleFiles : ℕ → Option Sample} {inputs : ι → Bytes}
    {clientIds : κ → UInt64} {tr : List (SessionEvent ι κ)} {s : Sessions ι κ}
    (h : Run (SessionStep uninit) (Sessions.init sampleFiles inputs clientIds) tr s)
    (hfit : ∀ server, SessionEvent.saved server ∈ tr → server.Fits) : SessionsOk uninit s := by
  refine h.invariant_of (fun event => ∀ server, event = .saved server → server.Fits)
    (fun _ s => SessionsOk uninit s) ?_ ⟨?_, ?_, nofun⟩ fun _ t event u hok hevent hstep =>
      hok.step hstep hevent
  · rintro event hevent server rfl
    exact hfit server hevent
  · exact ⟨inputs, _, reporting_init sampleFiles inputs clientIds⟩
  · exact ⟨rfl, owned_of_content fun i sample hi => by cases hi⟩

omit [CoverageBinary] in
/-- Reports after a snapshot keep its samples: the corpus only grows, so the files of the
snapshot are still what they were.  -/
theorem samples_prefix_of_run {s s' : System ι κ} {tr : List (Event ι κ)}
    (h : Run (Step uninit) s tr s') (hfiles : s.server.FilesOk) :
    s'.server.FilesOk ∧ s.server.corpus.samples <+: s'.server.corpus.samples := by
  induction h with
  | refl => exact ⟨hfiles, List.prefix_rfl⟩
  | snoc _ hstep ih =>
      obtain ⟨hfiles', hpre⟩ := hstep.files ih.1
      exact ⟨hfiles', ih.2.trans hpre⟩

/-- Between snapshots and restarts the parties do what they always do. -/
theorem sessions_run {s s' : System ι κ} {tr : List (Event ι κ)} (h : Run (Step uninit) s tr s')
    (stateFile : Option Bytes) :
    Run (SessionStep uninit) ⟨s, stateFile⟩ (tr.map .step) ⟨s', stateFile⟩ := by
  induction h with
  | refl => exact Run.refl
  | snoc _ hstep ih =>
      rw [List.map_append]
      exact ih.snoc (SessionStep.step hstep)

/-- **A snapshot is faithful.**  In every state that any number of reports, snapshots,
kills and restarts lead to, sample file `i` holds sample `i`; and a snapshot taken
there is restored exactly, whatever is reported before the server is killed. -/
theorem snapshot_faithful {sampleFiles : ℕ → Option Sample} {inputs : ι → Bytes}
    {clientIds : κ → UInt64} {tr : List (SessionEvent ι κ)} {s : Sessions ι κ}
    (h : Run (SessionStep uninit) (Sessions.init sampleFiles inputs clientIds) tr s)
    (hfit : ∀ server, SessionEvent.saved server ∈ tr → server.Fits) :
    (∀ i sample, s.system.server.corpus.samples[i]? = some sample →
      s.system.server.sampleFiles i = some sample) ∧
    ∀ s₁ events system files, SessionStep uninit s (.saved s.system.server) s₁ →
      s.system.server.Fits → Run (Step uninit) s₁.system events system →
      LeftBy system.server files →
        ∃ stateFile server, s₁.stateFile = some stateFile ∧
          restoreState stateFile files = some server ∧
          server.corpus.samples = s.system.server.corpus.samples ∧
          server.corpus.timestamps = s.system.server.corpus.timestamps ∧
          server.totalCoverage = s.system.server.totalCoverage ∧
          server.serverTimestamp = s.system.server.serverTimestamp ∧
          server.numSamples = s.system.server.numSamples := by
  obtain ⟨⟨inputs', l, hrep⟩, hfiles, -⟩ := SessionsOk.run h hfit
  refine ⟨fun i sample => hfiles.content, fun s₁ events system files hsave hfits hrun hleft => ?_⟩
  cases hsave
  obtain ⟨hfiles', hpre⟩ := samples_prefix_of_run hrun hfiles
  obtain ⟨hrestored, -⟩ := restore_eq hfiles' hrep.represents hfiles.counted hfits hpre hleft
  exact ⟨_, _, rfl, hrestored, rfl, rfl, rfl, rfl, rfl⟩

end

section

attribute [local instance] listTinyInst taggedBinary

/-- **A report behind the snapshot is lost, and nothing else.**  Of the three peers of
`threeReports` the first one has reported when the server saves its state; the second
one reports a sample and more coverage before the server is killed, and of a third
sample the file is already there.  The restored server has the first sample only. -/
theorem snapshot_faithful_threeReports :
    ∃ (tr : List (SessionEvent (Fin 3) Unit)) (s s₁ : Sessions (Fin 3) Unit)
      (system : System (Fin 3) Unit) (files : ℕ → Option Sample) (stateFile : Bytes)
      (server : CoverageServer),
      Run (SessionStep fun _ _ => 0) (Sessions.init (fun _ => none) threeReports fun _ => 0) tr s ∧
      s.system.server.corpus.samples = [threeSamples 0] ∧
      SessionStep (fun _ _ => 0) s (.saved s.system.server) s₁ ∧
      Run (Step fun _ _ => 0) s₁.system [.handled 1, .handled 1, .handled 1, .reported 1] system ∧
      system.server.corpus.samples = [threeSamples 0, threeSamples 1] ∧
      system.server.serverTimestamp = 2 ∧ files 1 = some (threeSamples 1) ∧
      files 2 = some (threeSamples 2) ∧ s₁.stateFile = some stateFile ∧
      restoreState stateFile files = some server ∧
      server.corpus.samples = [threeSamples 0] ∧ server.corpus.timestamps = [⟨1, 0⟩] ∧
      server.totalCoverage = threeCoverages 0 ∧ server.serverTimestamp = 1 := by
  have hread := recvCoverage_threeReports
  have hsent := recvSamples_threeSamples
  obtain ⟨s, system, hrun, hone, hindex, htotal, hclock, hfits, hrun', htwo, hclock', hfile⟩ :
      ∃ s system : System (Fin 3) Unit,
        Run (Step fun _ _ => 0) (System.init (fun _ => none) threeReports fun _ => 0)
          [.handled 0, .handled 0, .handled 0, .reported 0] s ∧
        s.server.corpus.samples = [threeSamples 0] ∧ s.server.corpus.timestamps = [⟨1, 0⟩] ∧
        s.server.totalCoverage = threeCoverages 0 ∧ s.server.serverTimestamp = 1 ∧
        s.server.Fits ∧
        Run (Step fun _ _ => 0) s [.handled 1, .handled 1, .handled 1, .reported 1] system ∧
        system.server.corpus.samples = [threeSamples 0, threeSamples 1] ∧
        system.server.serverTimestamp = 2 ∧
        system.server.sampleFiles 1 = some (threeSamples 1) :=
    ⟨_, _, Run.cons (Step.recvCoverage rfl (hread 0)) (Run.cons (Step.somethingNew rfl rfl)
      (Run.cons (Step.recvSamples rfl (hsent 0)) (Run.single (Step.commit rfl)))), rfl, rfl, rfl,
      rfl, ⟨by decide, by decide⟩,
      Run.cons (Step.recvCoverage rfl (hread 1)) (Run.cons (Step.somethingNew rfl rfl)
      (Run.cons (Step.recvSamples rfl (hsent 1)) (Run.single (Step.commit rfl)))), rfl, rfl, rfl⟩
  let files := Function.update system.server.sampleFiles 2 (some (threeSamples 2))
  have hleft : LeftBy system.server files := by
    intro i hi
    rw [htwo] at hi
    exact Function.update_of_ne (Nat.ne_of_lt hi) _ _
  obtain ⟨-, hrestore⟩ := snapshot_faithful (sessions_run hrun none) (by simp)
  obtain ⟨stateFile, server, hstate, hrestored, hsamples, htimestamps, htotal', hclock₁, -⟩ :=
    hrestore _ _ system files SessionStep.save hfits hrun' hleft
  exact ⟨_, ⟨s, none⟩, _, system, files, stateFile, server, sessions_run hrun none, hone,
    SessionStep.save, hrun', htwo, hclock', hfile, Function.update_self _ _ _, hstate, hrestored,
    hsamples.trans hone, htimestamps.trans hindex, htotal'.trans htotal, hclock₁.trans hclock⟩

end

end Server
end Jackalope
