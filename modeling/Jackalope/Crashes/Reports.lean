/-
# The crashes of a fuzzer and of a server

`Fuzzer::RunSampleAndGetCoverage` and `CoverageServer::ReportCrash`, any number of
threads or connections, one step for each mutex-protected section.  A fuzzer thread
counts a crash under `crash_mutex` and writes the file under `output_mutex`; a
connection does both under `crash_mutex`, and before that drops descriptions with
characters that `CheckFilename` does not let through.

Both are `LogStep`s (`CrashStep.log`, `ConnStep.log`), so what holds of every log
holds of them.  `RestoreState` of either class does not touch what is counted here,
so a resumed process starts with an empty table, over the files of the earlier ones.
-/

import Jackalope.Crashes.Log
import Jackalope.Server.Wire

namespace Jackalope
namespace Crashes

open Foundation Foundation.Consumer Server

/-- `MAX_IDENTICAL_CRASHES`. -/
def maxIdenticalCrashes : ℕ := 4

/-- `MAX_SERVER_IDENTICAL_CRASHES`. -/
def maxServerIdenticalCrashes : ℕ := 4

/-! ### The fuzzer -/

/-- The `crash_desc` of a crash: the name it had first, and the one it had when
`TryReproduceCrash` crashed too, if it did. -/
def crashDescription (crashReproduceRetries : ℕ) (crashName : Bytes) (reproduced : Option Bytes) :
    Bytes :=
  if crashReproduceRetries > 0 then
    match reproduced with
    | some betterName => betterName
    | none => str "flaky_" ++ crashName
  else crashName

/-- Where a thread is in `RunSampleAndGetCoverage`. -/
inductive CrashPc
  /-- Before the target crashed, or elsewhere. -/
  | running
  /-- About to lock `crash_mutex`. -/
  | counting (crashDesc : Bytes) (sample : Sample)
  /-- About to lock `output_mutex`. -/
  | saving (crash : Pending)
  /-- About to lock `server_mutex`. -/
  | reporting (crash : Pending)

/-- The crashes of a fuzzer: the table, the threads, and the files in `crash_dir`. -/
structure CrashSystem (τ : Type) where
  table : CrashTable
  threads : τ → CrashPc
  files : Bytes → Option Sample

/-- A fuzzer starts. -/
def CrashSystem.init {τ : Type} (files : Bytes → Option Sample) : CrashSystem τ :=
  ⟨CrashTable.empty, fun _ => .running, files⟩

/-- What the thread is about to write. -/
def CrashPc.pending : CrashPc → Option Pending
  | .saving crash => some crash
  | _ => none

/-- The log of a fuzzer. -/
def CrashSystem.log {τ : Type} (s : CrashSystem τ) : CrashLog τ :=
  ⟨s.table, fun t => (s.threads t).pending, s.files⟩

/-- After counting: on to the file if the crash is saved. -/
def afterCount (duplicates : Option ℕ) (crashDesc : Bytes) (sample : Sample) : CrashPc :=
  match duplicates with
  | some k => .saving ⟨crashDesc, k, sample⟩
  | none => .running

/-- A thread is about to write a file exactly if it was told the number of its crash; with
no number it goes on, since the crash is known too well.  -/
theorem afterCount_pending (duplicates : Option ℕ) (crashDesc : Bytes) (sample : Sample) :
    (afterCount duplicates crashDesc sample).pending =
      duplicates.map fun k => ⟨crashDesc, k, sample⟩ := by
  cases duplicates <;> rfl

section

variable {τ : Type} [DecidableEq τ]

def CrashSystem.setThread (s : CrashSystem τ) (t : τ) (pc : CrashPc) : CrashSystem τ :=
  { s with threads := Function.update s.threads t pc }

/-- One step of one thread, or the restart of the fuzzer; `server` is whether there is
one. -/
inductive CrashStep (crashReproduceRetries : ℕ) (server : Bool) :
    CrashSystem τ → Option CrashEvent → CrashSystem τ → Prop
  | crash {s : CrashSystem τ} {t} (crashName : Bytes) (reproduced : Option Bytes)
      (sample : Sample) : s.threads t = .running →
      CrashStep crashReproduceRetries server s none (s.setThread t
        (.counting (crashDescription crashReproduceRetries crashName reproduced) sample))
  | count {s : CrashSystem τ} {t crashDesc sample} : s.threads t = .counting crashDesc sample →
      CrashStep crashReproduceRetries server s (some (.counted crashDesc sample))
        { s.setThread t (afterCount (s.table.count maxIdenticalCrashes crashDesc).2 crashDesc sample)
          with table := (s.table.count maxIdenticalCrashes crashDesc).1 }
  | save {s : CrashSystem τ} {t crash} : s.threads t = .saving crash →
      CrashStep crashReproduceRetries server s
        (some (.saved crash.crashDesc crash.duplicates))
        { s.setThread t (if server then .reporting crash else .running)
          with files := saveFile s.files crash }
  | report {s : CrashSystem τ} {t crash} : s.threads t = .reporting crash →
      CrashStep crashReproduceRetries server s none (s.setThread t .running)
  | restart (s : CrashSystem τ) :
      CrashStep crashReproduceRetries server s (some .restarted) (CrashSystem.init s.files)

/-- What one thread has pending, when it moves; the others keep what they have.  -/
theorem CrashSystem.setThread_pending (s : CrashSystem τ) (t : τ) (pc : CrashPc) :
    (fun u => ((s.setThread t pc).threads u).pending) =
      Function.update (fun u => (s.threads u).pending) t pc.pending := by
  funext u
  by_cases hu : u = t
  · subst hu
    simp [CrashSystem.setThread]
  · simp [CrashSystem.setThread, hu]

/-- **A step of the fuzzer** is one of its log, or does not concern it.  The log is the
abstract system: a table of counts, the numbers that are held, and a directory; the steps
that reproduce a crash or talk to the server leave all three alone.  -/
theorem CrashStep.log {retries : ℕ} {server : Bool} {s s' : CrashSystem τ} {o : Option CrashEvent}
    (h : CrashStep retries server s o s') :
    (o = none ∧ s'.log = s.log) ∨ ∃ e, o = some e ∧ LogStep maxIdenticalCrashes s.log e s'.log := by
  -- a thread that does not write afterwards, and did not before
  have hsilent : ∀ t pc, (s.threads t).pending = none → pc.pending = none →
      (s.setThread t pc).log = s.log := by
    intro t pc hs hpc
    rw [CrashSystem.log, CrashSystem.setThread_pending, hpc, ← hs]
    exact congrArg (CrashLog.mk s.table · s.files) (Function.update_eq_self t _)
  cases h with
  | crash name reproduced sample hpc =>
      exact Or.inl ⟨rfl, hsilent _ _ (by rw [hpc]; rfl) rfl⟩
  | report hpc => exact Or.inl ⟨rfl, hsilent _ _ (by rw [hpc]; rfl) rfl⟩
  | @count t crashDesc sample hpc =>
      have hstep := @LogStep.count _ _ maxIdenticalCrashes s.log t crashDesc
        sample (congrArg CrashPc.pending hpc)
      refine Or.inr ⟨_, rfl, ?_⟩
      convert hstep using 1
      show (⟨_, _, _⟩ : CrashLog τ) = ⟨_, _, _⟩
      exact congrArg (CrashLog.mk _ · s.files)
        ((s.setThread_pending t _).trans (by rw [afterCount_pending]; rfl))
  | @save t crash hpc =>
      have hstep := @LogStep.save _ _ maxIdenticalCrashes s.log t crash
        (congrArg CrashPc.pending hpc)
      refine Or.inr ⟨_, rfl, ?_⟩
      convert hstep using 1
      show (⟨_, _, _⟩ : CrashLog τ) = ⟨_, _, _⟩
      exact congrArg (CrashLog.mk s.table · (saveFile s.files crash))
        ((s.setThread_pending t _).trans (by cases server <;> rfl))
  | restart => exact Or.inr ⟨_, rfl, LogStep.restart s.log⟩

/-- **A run of the fuzzer** is one of its log, with the events of the trace and without the
steps that do not concern it.  -/
theorem CrashStep.run_log {retries : ℕ} {server : Bool} {s s' : CrashSystem τ}
    {tr : List (Option CrashEvent)} (h : Run (CrashStep retries server) s tr s') :
    Run (LogStep maxIdenticalCrashes) s.log (tr.filterMap id) s'.log := by
  induction h with
  | refl => exact Run.refl
  | @snoc tr t o u _ hst ih =>
      rcases hst.log with ⟨rfl, heq⟩ | ⟨e, rfl, hlog⟩
      · rw [heq, List.filterMap_append]
        simpa using ih
      · rw [List.filterMap_append]
        exact ih.snoc hlog

end

/-! ### The server -/

/-- One round of the loop of `ReportCrash` up to `CheckFilename`: nothing for `'N'`. -/
def recvCrash : Recv (Option (Sample × Bytes)) := do
  let command ← readChar
  if command = charN then pure none
  else if command ≠ charS then fail ()
  else do
    let sample ← recvSample
    let crashDesc ← recvString
    pure (some (sample, crashDesc))

/-- Where the handler of a connection is in `ReportCrash`. -/
inductive CrashConn
  /-- The peer will deliver these bytes. -/
  | receiving (incoming : Bytes)
  /-- About to lock `crash_mutex`. -/
  | counting (crashDesc : Bytes) (sample : Sample) (incoming : Bytes)
  /-- Returned 1 or 0. -/
  | returned (ret : Bool)

/-- The crashes of a server: the table, the connections, and the files in `crash_dir`. -/
structure CrashServer (ι : Type) where
  table : CrashTable
  conns : ι → CrashConn
  files : Bytes → Option Sample

/-- A server starts, and its peers will send these bytes. -/
def CrashServer.init {ι : Type} (files : Bytes → Option Sample) (inputs : ι → Bytes) :
    CrashServer ι :=
  ⟨CrashTable.empty, fun i => .receiving (inputs i), files⟩

/-- The log of a server; what is counted is written before anything else happens. -/
def CrashServer.log {ι : Type} (s : CrashServer ι) : CrashLog ι := ⟨s.table, fun _ => none, s.files⟩

section

variable {ι : Type} [DecidableEq ι]

def CrashServer.setConn (s : CrashServer ι) (i : ι) (conn : CrashConn) : CrashServer ι :=
  { s with conns := Function.update s.conns i conn }

/-- The connections, when one of them moves.  -/
theorem CrashServer.setConn_conns (s : CrashServer ι) (i j : ι) (conn : CrashConn) :
    (s.setConn i conn).conns j = if j = i then conn else s.conns j :=
  Function.update_apply _ _ _ _

/-- The section of `ReportCrash` under `crash_mutex`: counting, and the file. -/
def countAndSave (s : CrashServer ι) (crashDesc : Bytes) (sample : Sample) : CrashServer ι :=
  { s with
    table := (s.table.count maxServerIdenticalCrashes crashDesc).1
    files := match (s.table.count maxServerIdenticalCrashes crashDesc).2 with
      | some k => saveFile s.files ⟨crashDesc, k, sample⟩
      | none => s.files }

/-- What is seen of that section. -/
def countEvents (s : CrashServer ι) (crashDesc : Bytes) (sample : Sample) : List CrashEvent :=
  .counted crashDesc sample ::
    (s.table.count maxServerIdenticalCrashes crashDesc).2.toList.map (.saved crashDesc)

/-- One step of one connection, or the restart of the server, with what is seen of it. -/
inductive ConnStep : CrashServer ι → List CrashEvent → CrashServer ι → Prop
  | recv {s : CrashServer ι} {i incoming sample crashDesc rest} :
      s.conns i = .receiving incoming →
      recvCrash incoming = .ok (some (sample, crashDesc), rest) → checkFilename crashDesc = true →
      ConnStep s [] (s.setConn i (.counting crashDesc sample rest))
  /-- "Invalid characters in crash filename". -/
  | recvInvalid {s : CrashServer ι} {i incoming sample crashDesc rest} :
      s.conns i = .receiving incoming →
      recvCrash incoming = .ok (some (sample, crashDesc), rest) → checkFilename crashDesc = false →
      ConnStep s [] (s.setConn i (.receiving rest))
  | recvEnd {s : CrashServer ι} {i incoming rest} : s.conns i = .receiving incoming →
      recvCrash incoming = .ok (none, rest) → ConnStep s [] (s.setConn i (.returned true))
  | recvFailed {s : CrashServer ι} {i incoming e} : s.conns i = .receiving incoming →
      recvCrash incoming = .error e → ConnStep s [] (s.setConn i (.returned false))
  | count {s : CrashServer ι} {i crashDesc sample incoming} :
      s.conns i = .counting crashDesc sample incoming →
      ConnStep s (countEvents s crashDesc sample)
        ((countAndSave s crashDesc sample).setConn i (.receiving incoming))
  | restart (s : CrashServer ι) (inputs : ι → Bytes) :
      ConnStep s [.restarted] (CrashServer.init s.files inputs)

/-- **A step of the server** is a run of its log: `ReportCrash` counts the crash and writes
the file in one step, which are two steps of the log, and a restart empties the table and
keeps the directory.  -/
theorem ConnStep.log {s s' : CrashServer ι} {es : List CrashEvent} (h : ConnStep s es s') :
    Run (LogStep maxServerIdenticalCrashes) s.log es s'.log := by
  cases h with
  | recv | recvInvalid | recvEnd | recvFailed => exact Run.refl
  | restart inputs => exact Run.single (LogStep.restart s.log)
  | @count i crashDesc sample incoming hconn =>
      have hcount := @LogStep.count _ _ maxServerIdenticalCrashes s.log i
        crashDesc sample rfl
      have hlog : ((countAndSave s crashDesc sample).setConn i (.receiving incoming)).log =
          ⟨(s.log.table.count maxServerIdenticalCrashes crashDesc).1, s.log.pending,
            match (s.log.table.count maxServerIdenticalCrashes crashDesc).2 with
            | some k => saveFile s.log.files ⟨crashDesc, k, sample⟩
            | none => s.log.files⟩ := rfl
      have hevents : countEvents s crashDesc sample = .counted crashDesc sample ::
          (s.log.table.count maxServerIdenticalCrashes crashDesc).2.toList.map
            (.saved crashDesc) := rfl
      -- no connection is ever about to write
      have hidle : Function.update s.log.pending i none = s.log.pending :=
        Function.update_eq_self i s.log.pending
      rw [hlog, hevents]
      generalize s.log.table.count maxServerIdenticalCrashes crashDesc = r at hcount ⊢
      obtain ⟨table, duplicates⟩ := r
      cases duplicates with
      | none =>
          rw [Option.map_none, hidle] at hcount
          exact Run.single hcount
      | some k =>
          refine Run.cons hcount (Run.single ?_)
          have hsave := @LogStep.save _ _ maxServerIdenticalCrashes
            ⟨table, Function.update s.log.pending i (some ⟨crashDesc, k, sample⟩), s.log.files⟩
            i ⟨crashDesc, k, sample⟩ (Function.update_self i _ _)
          rw [Function.update_idem, hidle] at hsave
          exact hsave

/-- **A run of the server** is one of its log: the events of its steps, one after the other,
are the trace.  -/
theorem ConnStep.run_log {s s' : CrashServer ι} {tr : List (List CrashEvent)}
    (h : Run ConnStep s tr s') :
    Run (LogStep maxServerIdenticalCrashes) s.log tr.flatten s'.log := by
  induction h with
  | refl => exact Run.refl
  | snoc _ hst ih =>
      rw [List.flatten_append, List.flatten_singleton]
      exact ih.trans hst.log

end

end Crashes
end Jackalope
