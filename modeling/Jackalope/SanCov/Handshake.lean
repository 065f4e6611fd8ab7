/-
# The handshake with the target

`SanCovInstrumentation::Run` (`sancovinstrumentation.cpp`, lines 160-341) and a target
that loops over `__pre_fuzz`, the fuzz function and `__post_fuzz` (`sancovclient.cpp`,
lines 121-149) talk over two pipes, which `StartTarget` makes anew for each process.
The target says `k` before the fuzz function and `d` with the return value after it; a
`c` of the fuzzer lets it go on, out of `__post_fuzz` as well as out of `__pre_fuzz`.

Every interleaving of the two is a run of `Step`: timeouts fire at any moment, and the
target may end or hang wherever it is.  `Phase` says where the target can be and what
can be in the pipes while `Run` is at a given point; what happened since `Run` was
called is in the trace (`marks`).  `run_in_phase` reads the claims of the protocol off:
at most one execution for each call, none while no `Run` is active, and no byte that
was written for an earlier call or by an earlier process is ever read.
-/

import Jackalope.Foundation.LittleEndian
import Jackalope.Foundation.Run
import Jackalope.Fuzzer.State

namespace Jackalope
namespace SanCov

open Foundation Fuzzer

/-! ### The two processes -/

/-- Where the target is, or was when it ended. -/
inductive Target
  /-- Before `__pre_fuzz`: starting up, or after `__post_fuzz`. -/
  | outside
  /-- In `__pre_fuzz`, before `k` is written. -/
  | preFuzz
  /-- In `__pre_fuzz`, reading. -/
  | preFuzzRead
  | fuzzing
  /-- In `__post_fuzz`, before `d` is written. -/
  | postFuzz (returnValue : UInt64)
  /-- In `__post_fuzz`, before the value is written. -/
  | postFuzzValue (returnValue : UInt64)
  /-- In `__post_fuzz`, reading. -/
  | postFuzzRead (returnValue : UInt64)
  deriving DecidableEq

/-- Where the fuzzer is in `Run`. -/
inductive Pc
  /-- Not in `Run`. -/
  | idle
  /-- `if (cur_iteration == num_iterations) Kill();`. -/
  | checkIterations
  /-- `if(!pid) StartTarget(...) else write(...)`. -/
  | start
  /-- `GetStatus(init_timeout, 'k')`. -/
  | reach
  /-- "Target function not reached, retrying with a clean process". -/
  | retry
  /-- `GetStatus(init_timeout, 'k')` again. -/
  | reachAgain
  /-- The second `write`. -/
  | release
  /-- `GetStatus(timeout, 'd')`. -/
  | wait
  /-- The second half of it, where the value is read. -/
  | waitValue
  /-- What follows, by `poll_result`. -/
  | finish (pollResult : RunResult)
  /-- After `FATAL`, or killed by `SIGPIPE`. -/
  | aborted
  deriving DecidableEq

/-- A byte in the pipe of the target, with the process that wrote it and the number of
calls of `Run` so far. -/
structure StatusByte where
  byte : UInt8
  process : ℕ
  run : ℕ
  deriving DecidableEq

/-- Both processes and the pipes between them. -/
structure Handshake where
  pc : Pc
  /-- Whether `pid` is set. -/
  pid : Bool
  curIteration : ℕ
  returnValue : UInt64
  alive : Bool
  target : Target
  /-- What was written to `ctrl_out`. -/
  control : List UInt8
  /-- What can be read from `ctrl_in`. -/
  status : List StatusByte
  /-- How many processes were started. -/
  processes : ℕ
  /-- How often `Run` was called. -/
  runs : ℕ

/-- The constructor of `SanCovInstrumentation`. -/
def Handshake.init : Handshake where
  pc := .idle
  pid := false
  curIteration := 0
  returnValue := 0
  alive := false
  target := .outside
  control := []
  status := []
  processes := 0
  runs := 0

/-- `'c'`, `'k'` and `'d'`. -/
def letterC : UInt8 := 99
def letterK : UInt8 := 107
def letterD : UInt8 := 100

namespace Handshake

/-- `StartTarget`. -/
def startTarget (s : Handshake) : Handshake :=
  { s with
    pid := true
    curIteration := 0
    alive := true
    target := .outside
    control := []
    status := []
    processes := s.processes + 1 }

/-- `CleanupChild`. -/
def cleanupChild (s : Handshake) : Handshake :=
  if s.pid then { s with pid := false, control := [], status := [] } else s

/-- `Kill`. -/
def kill (s : Handshake) : Handshake :=
  if s.pid then { s.cleanupChild with alive := false } else s

/-- `write(ctrl_out, "c", 1)`. -/
def writeC (s : Handshake) : Handshake := { s with control := s.control ++ [letterC] }

/-- The target writes to its pipe. -/
def writeStatus (s : Handshake) (bytes : List UInt8) : Handshake :=
  { s with status := s.status ++ bytes.map fun b => ⟨b, s.processes, s.runs⟩ }

end Handshake

/-- The bytes of the return value. -/
def valueBytes (v : UInt64) : List UInt8 := toLE 8 v.toNat

/-! ### Steps -/

/-- What can be seen of a step. -/
inductive Label
  /-- `Run` is called. -/
  | called
  /-- `Run` returns. -/
  | returned (result : RunResult)
  /-- `CleanTarget`. -/
  | cleaned
  /-- The second `c` is written. -/
  | released
  /-- The fuzz function begins. -/
  | began
  /-- `__post_fuzz` is called. -/
  | posted (returnValue : UInt64)
  /-- `GetStatus` has read this byte. -/
  | status (byte : StatusByte)
  /-- `GetStatus` has read these bytes as the value. -/
  | value (bytes : List StatusByte)
  | silent

/-- What `GetStatus` polls and reads first: its result, what is left in the pipe, and
the byte. -/
inductive GetStatus (s : Handshake) (expectedStatus : UInt8) :
    RunResult → List StatusByte → Label → Prop
  | timeout : GetStatus s expectedStatus .hang s.status .silent
  | error : GetStatus s expectedStatus .otherError s.status .silent
  | closed : s.alive = false → s.status = [] → GetStatus s expectedStatus .crash [] .silent
  | byte {b rest} : s.status = b :: rest →
      GetStatus s expectedStatus (if b.byte = expectedStatus then .ok else .otherError) rest
        (.status b)

/-- A step of the fuzzer. -/
inductive FuzzerStep (numIterations : ℕ) (s : Handshake) : Label → Handshake → Prop
  | call : s.pc = .idle →
      FuzzerStep numIterations s .called { s with pc := .checkIterations, runs := s.runs + 1 }
  | cleanTarget : s.pc = .idle →
      FuzzerStep numIterations s .cleaned { s.kill with pc := .idle }
  | checkIterations : s.pc = .checkIterations → FuzzerStep numIterations s .silent
      { (if s.curIteration = numIterations then s.kill else s) with pc := .start }
  | start : s.pc = .start → FuzzerStep numIterations s .silent
      { (if s.pid then s.writeC else s.startTarget) with pc := .reach }
  | reach {result rest label} : s.pc = .reach → GetStatus s letterK result rest label →
      FuzzerStep numIterations s label
        { s with status := rest, pc := if result = .ok then .release else .retry }
  | retry : s.pc = .retry →
      FuzzerStep numIterations s .silent { s.kill.startTarget with pc := .reachAgain }
  | reachAgain {result rest label} : s.pc = .reachAgain → GetStatus s letterK result rest label →
      FuzzerStep numIterations s label
        { s with status := rest, pc := if result = .ok then .release else .aborted }
  | release : s.pc = .release → FuzzerStep numIterations s .released { s.writeC with pc := .wait }
  | brokenPipe : s.pc = .start ∨ s.pc = .release → s.alive = false →
      FuzzerStep numIterations s .silent { s with pc := .aborted }
  | wait {result rest label} : s.pc = .wait → GetStatus s letterD result rest label →
      FuzzerStep numIterations s label
        { s with status := rest, pc := if result = .ok then .waitValue else .finish result }
  | valueError : s.pc = .waitValue →
      FuzzerStep numIterations s .silent { s with pc := .finish .otherError }
  | value : s.pc = .waitValue → s.status ≠ [] ∨ s.alive = false → 8 ≤ s.status.length →
      FuzzerStep numIterations s (.value (s.status.take 8)) { s with
        status := s.status.drop 8
        returnValue := UInt64.ofNat (ofLE ((s.status.take 8).map (·.byte)))
        pc := .finish .ok }
  | valueShort : s.pc = .waitValue → s.status ≠ [] ∨ s.alive = false → s.status.length < 8 →
      FuzzerStep numIterations s (.value s.status) { s with status := [], pc := .finish .otherError }
  | finishOk : s.pc = .finish .ok → FuzzerStep numIterations s (.returned .ok)
      { s with curIteration := s.curIteration + 1, pc := .idle }
  /-- `waitpid` tells how the target ended. -/
  | finishCrash : s.pc = .finish .crash → s.alive = false →
      FuzzerStep numIterations s (.returned .crash) { s.cleanupChild with pc := .idle }
  | finishCrashUnknown : s.pc = .finish .crash →
      FuzzerStep numIterations s (.returned .crash) { s.kill with pc := .idle }
  | finishHang : s.pc = .finish .hang →
      FuzzerStep numIterations s (.returned .hang) { s.kill with pc := .idle }
  | finishError : s.pc = .finish .otherError →
      FuzzerStep numIterations s (.returned .crash) { s.kill with pc := .idle }

/-- A step of the target. -/
inductive TargetStep (s : Handshake) : Label → Handshake → Prop
  | preFuzz : s.target = .outside → TargetStep s .silent { s with target := .preFuzz }
  | reached : s.target = .preFuzz →
      TargetStep s .silent { s.writeStatus [letterK] with target := .preFuzzRead }
  | began {rest} : s.target = .preFuzzRead → s.control = letterC :: rest →
      TargetStep s .began { s with control := rest, target := .fuzzing }
  | posted (v : UInt64) : s.target = .fuzzing →
      TargetStep s (.posted v) { s with target := .postFuzz v }
  | done {v} : s.target = .postFuzz v →
      TargetStep s .silent { s.writeStatus [letterD] with target := .postFuzzValue v }
  | value {v} : s.target = .postFuzzValue v →
      TargetStep s .silent { s.writeStatus (valueBytes v) with target := .postFuzzRead v }
  | resumed {v rest} : s.target = .postFuzzRead v → s.control = letterC :: rest →
      TargetStep s .silent { s with control := rest, target := .outside }
  /-- It crashes, exits, or is ended by what it has read. -/
  | ended : TargetStep s .silent { s with alive := false }

/-- A step of either. -/
inductive Step (numIterations : ℕ) (s : Handshake) : Label → Handshake → Prop
  | fuzzer {l s'} : FuzzerStep numIterations s l s' → Step numIterations s l s'
  | target {l s'} : s.alive = true → TargetStep s l s' → Step numIterations s l s'

/-! ### What happened since `Run` was called -/

inductive Mark
  | released
  | began
  | posted (returnValue : UInt64)
  deriving DecidableEq

def mark (ms : List Mark) : Label → List Mark
  | .called => []
  | .released => ms ++ [.released]
  | .began => ms ++ [.began]
  | .posted v => ms ++ [.posted v]
  | _ => ms

/-- The marks since the last call of `Run`. -/
def marks (tr : List Label) : List Mark := tr.foldl mark []

/-- One step more, and the mark that it leaves.  -/
theorem marks_append (tr : List Label) (l : Label) : marks (tr ++ [l]) = mark (marks tr) l := by
  rw [marks, List.foldl_append]
  rfl

/-! ### Where the target can be -/

/-- Before the second `c`: the target is on its way to the `read` of `__pre_fuzz`. -/
def Held (control status : List UInt8) : Target → Prop
  | .postFuzzRead _ => control = [letterC] ∧ status = []
  | .outside | .preFuzz => control = [] ∧ status = []
  | .preFuzzRead => control = [] ∧ status = [letterK]
  | _ => False

/-- After it: what happened since, and what the target has written since. -/
def Running (ms : List Mark) (control status : List UInt8) : Target → Prop
  | .preFuzzRead => ms = [.released] ∧ control = [letterC] ∧ status = []
  | .fuzzing => ms = [.released, .began] ∧ control = [] ∧ status = []
  | .postFuzz v => ms = [.released, .began, .posted v] ∧ control = [] ∧ status = []
  | .postFuzzValue v => ms = [.released, .began, .posted v] ∧ control = [] ∧ status = [letterD]
  | .postFuzzRead v =>
      ms = [.released, .began, .posted v] ∧ control = [] ∧ status = letterD :: valueBytes v
  | _ => False

/-- In `__post_fuzz`, with nothing to read. -/
def Parked (control : List UInt8) (target : Target) : Prop :=
  control = [] ∧ ∃ v, target = .postFuzzRead v

/-- The bytes that `GetStatus` can read. -/
def Handshake.bytes (s : Handshake) : List UInt8 := s.status.map (·.byte)

/-- What can be in the pipes, where the target can be and what can have happened, by
where the fuzzer is. -/
def Phase (ms : List Mark) (s : Handshake) : Pc → Prop
  | .idle => (∃ v, ms <+: [.released, .began, .posted v]) ∧ s.status = [] ∧
      (s.pid = true → Parked s.control s.target)
  | .checkIterations | .start => ms = [] ∧ s.status = [] ∧
      (s.pid = true → Parked s.control s.target)
  | .reach | .reachAgain => ms = [] ∧ Held s.control s.bytes s.target
  | .retry | .aborted => ms = [] ∧ (s.alive = true → Held s.control s.bytes s.target)
  | .release => ms = [] ∧ s.status = [] ∧ s.control = [] ∧ s.target = .preFuzzRead
  | .wait => Running ms s.control s.bytes s.target
  | .waitValue => Running ms s.control (letterD :: s.bytes) s.target
  | .finish .ok => ms = [.released, .began, .posted s.returnValue] ∧ s.status = [] ∧
      s.control = [] ∧ s.target = .postFuzzRead s.returnValue
  | .finish _ => ∃ read, Running ms s.control (read ++ s.bytes) s.target

/-- **The invariant** of the two processes. -/
structure InPhase (ms : List Mark) (s : Handshake) : Prop where
  phase : Phase ms s s.pc
  current : ∀ b ∈ s.status, b.process = s.processes ∧ b.run = s.runs
  nobody : s.pid = false → s.alive = false ∧ s.status = []

/-! ### Steps of the target -/

/-- What a step of the target leaves alone, and what it does to its pipe. -/
theorem TargetStep.frame {s s' : Handshake} {l : Label} (h : TargetStep s l s') :
    s'.pc = s.pc ∧ s'.pid = s.pid ∧ s'.returnValue = s.returnValue ∧
      s'.processes = s.processes ∧ s'.runs = s.runs ∧
      ∃ bytes : List UInt8, s'.status = s.status ++ bytes.map fun b => ⟨b, s.processes, s.runs⟩ := by
  cases h with
  | reached | done | value => exact ⟨rfl, rfl, rfl, rfl, rfl, _, rfl⟩
  | _ => exact ⟨rfl, rfl, rfl, rfl, rfl, [], (List.append_nil _).symm⟩

/-- What the target writes to the status pipe stands behind what is in it.  -/
theorem bytes_writeStatus (s : Handshake) (bytes : List UInt8) (target : Target) :
    Handshake.bytes { s.writeStatus bytes with target := target } = s.bytes ++ bytes := by
  simp [Handshake.bytes, Handshake.writeStatus, Function.comp_def]

/-- **A target that is held does not get to the fuzz function**, however many steps it
takes: what it waits for is a byte that only the fuzzer writes.  -/
theorem TargetStep.held {s s' : Handshake} {l : Label} (h : TargetStep s l s') (ms : List Mark)
    (hheld : Held s.control s.bytes s.target) :
    mark ms l = ms ∧ Held s'.control s'.bytes s'.target := by
  cases h with
  | preFuzz htarget =>
      rw [htarget] at hheld
      exact ⟨rfl, hheld⟩
  | reached htarget =>
      rw [htarget] at hheld
      refine ⟨rfl, hheld.1, ?_⟩
      rw [bytes_writeStatus, hheld.2]
      rfl
  | began htarget hcontrol =>
      rw [htarget, hcontrol] at hheld
      cases hheld.1
  | resumed htarget hcontrol =>
      rw [htarget, hcontrol] at hheld
      obtain ⟨hrest, hstatus⟩ := hheld
      cases hrest
      exact ⟨rfl, rfl, hstatus⟩
  | ended => exact ⟨rfl, hheld⟩
  | posted _ htarget | done htarget | value htarget =>
      rw [htarget] at hheld
      exact hheld.elim

/-- A released target executes the fuzz function once, and says so with the byte and the
value that the fuzzer waits for; then it is held again.  -/
theorem TargetStep.running {s s' : Handshake} {l : Label} (h : TargetStep s l s')
    {ms : List Mark} {r : List UInt8} (hrunning : Running ms s.control (r ++ s.bytes) s.target) :
    Running (mark ms l) s'.control (r ++ s'.bytes) s'.target := by
  cases h with
  | began htarget hcontrol =>
      rw [htarget, hcontrol] at hrunning
      obtain ⟨rfl, hrest, hstatus⟩ := hrunning
      cases hrest
      exact ⟨rfl, rfl, hstatus⟩
  | posted v htarget =>
      rw [htarget] at hrunning
      obtain ⟨rfl, hcontrol, hstatus⟩ := hrunning
      exact ⟨rfl, hcontrol, hstatus⟩
  | done htarget =>
      rw [htarget] at hrunning
      obtain ⟨rfl, hcontrol, hstatus⟩ := hrunning
      refine ⟨rfl, hcontrol, ?_⟩
      rw [bytes_writeStatus, ← List.append_assoc, hstatus]
      rfl
  | value htarget =>
      rw [htarget] at hrunning
      obtain ⟨rfl, hcontrol, hstatus⟩ := hrunning
      refine ⟨rfl, hcontrol, ?_⟩
      rw [bytes_writeStatus, ← List.append_assoc, hstatus]
      rfl
  | resumed htarget hcontrol =>
      rw [htarget, hcontrol] at hrunning
      cases hrunning.2.1
  | ended => exact hrunning
  | preFuzz htarget | reached htarget =>
      rw [htarget] at hrunning
      exact hrunning.elim

/-- A target that waits for a `c` only ends: nothing is in the control pipe, so reading from
it is no step.  -/
theorem TargetStep.waiting {s s' : Handshake} {l : Label} (h : TargetStep s l s') (ms : List Mark)
    (hcontrol : s.control = []) (htarget : s.target = .preFuzzRead ∨ ∃ v, s.target = .postFuzzRead v) :
    mark ms l = ms ∧ s' = { s with alive := false } := by
  cases h with
  | began _ hc | resumed _ hc =>
      rw [hcontrol] at hc
      cases hc
  | ended => exact ⟨rfl, rfl⟩
  | preFuzz ht | reached ht | posted _ ht | done ht | value ht =>
      rw [ht] at htarget
      rcases htarget with htarget | ⟨v, htarget⟩ <;> cases htarget

/-- **A step of the target** keeps the invariant: before the release it is held, after it
the function is executed once, and what it has written is what the fuzzer has still to read.
-/
theorem TargetStep.inPhase {s s' : Handshake} {l : Label} {ms : List Mark} (h : TargetStep s l s')
    (halive : s.alive = true) (hs : InPhase ms s) : InPhase (mark ms l) s' := by
  obtain ⟨hpc, hpid, hvalue, hprocesses, hruns, written, hstatus⟩ := h.frame
  have hset : s.pid = true := by
    by_contra hpid
    rw [(hs.nobody (by simpa using hpid)).1] at halive
    cases halive
  have hphase := hs.phase
  refine ⟨?_, ?_, ?_⟩
  · rw [hpc]
    cases hat : s.pc with
    | idle =>
        rw [hat] at hphase
        obtain ⟨hpre, hempty, hparked⟩ := hphase
        obtain ⟨hms, rfl⟩ := h.waiting ms (hparked hset).1 (Or.inr (hparked hset).2)
        refine ⟨?_, hempty, hparked⟩
        rw [hms]
        exact hpre
    | checkIterations | start =>
        rw [hat] at hphase
        obtain ⟨hpre, hempty, hparked⟩ := hphase
        obtain ⟨hms, rfl⟩ := h.waiting ms (hparked hset).1 (Or.inr (hparked hset).2)
        exact ⟨hms.trans hpre, hempty, hparked⟩
    | reach | reachAgain =>
        rw [hat] at hphase
        obtain ⟨hms, hheld⟩ := h.held ms hphase.2
        exact ⟨hms.trans hphase.1, hheld⟩
    | retry | aborted =>
        rw [hat] at hphase
        obtain ⟨hms, hheld⟩ := h.held ms (hphase.2 halive)
        exact ⟨hms.trans hphase.1, fun _ => hheld⟩
    | release =>
        rw [hat] at hphase
        obtain ⟨hpre, hempty, hcontrol, htarget⟩ := hphase
        obtain ⟨hms, rfl⟩ := h.waiting ms hcontrol (Or.inl htarget)
        exact ⟨hms.trans hpre, hempty, hcontrol, htarget⟩
    | wait =>
        rw [hat] at hphase
        exact h.running (r := []) hphase
    | waitValue =>
        rw [hat] at hphase
        exact h.running (r := [letterD]) hphase
    | finish result =>
        rw [hat] at hphase
        cases result with
        | ok =>
            obtain ⟨hpre, hempty, hcontrol, htarget⟩ := hphase
            obtain ⟨hms, rfl⟩ := h.waiting ms hcontrol (Or.inr ⟨_, htarget⟩)
            exact ⟨hms.trans hpre, hempty, hcontrol, htarget⟩
        | crash | hang | otherError =>
            obtain ⟨read, hrunning⟩ := hphase
            exact ⟨read, h.running hrunning⟩
  · intro b hb
    rw [hstatus] at hb
    rw [hprocesses, hruns]
    rcases List.mem_append.1 hb with hb | hb
    · exact hs.current b hb
    · obtain ⟨byte, -, rfl⟩ := List.mem_map.1 hb
      exact ⟨rfl, rfl⟩
  · intro hno
    rw [hpid, hset] at hno
    cases hno

/-! ### Steps of the fuzzer -/

/-- What `GetStatus` reads is in the pipe, and the rest stays there. -/
theorem GetStatus.rest {s : Handshake} {expected : UInt8} {result : RunResult}
    {rest : List StatusByte} {l : Label} (h : GetStatus s expected result rest l) :
    (∀ b ∈ rest, b ∈ s.status) ∧ ∀ ms, mark ms l = ms := by
  cases h with
  | timeout | error => exact ⟨fun b hb => hb, fun _ => rfl⟩
  | closed => exact ⟨fun b hb => absurd hb List.not_mem_nil, fun _ => rfl⟩
  | byte hstatus =>
      rw [hstatus]
      exact ⟨fun b hb => List.mem_cons_of_mem _ hb, fun _ => rfl⟩

/-- If the pipe can only hold what is expected, `GetStatus` has read just that, or has
left the pipe as it was. -/
theorem GetStatus.cases_of_prefix {s : Handshake} {expected : UInt8} {result : RunResult}
    {rest : List StatusByte} {l : Label} (h : GetStatus s expected result rest l)
    (hpipe : s.bytes = [] ∨ ∃ more, s.bytes = expected :: more) :
    (result = .ok ∧ s.bytes = expected :: rest.map (·.byte)) ∨ (result ≠ .ok ∧ rest = s.status) := by
  cases h with
  | timeout | error => exact Or.inr ⟨by decide, rfl⟩
  | closed _ hstatus => exact Or.inr ⟨by decide, hstatus.symm⟩
  | @byte b rest hstatus =>
      rw [Handshake.bytes, hstatus, List.map_cons] at hpipe
      rcases hpipe with hnil | ⟨more, hcons⟩
      · cases hnil
      · obtain ⟨hbyte, -⟩ := List.cons.inj hcons
        refine Or.inl ⟨if_pos hbyte, ?_⟩
        rw [Handshake.bytes, hstatus, List.map_cons, hbyte]

/-- While the target is held, there is at most one `k`. -/
theorem Held.pipe {control bytes : List UInt8} {target : Target} (h : Held control bytes target) :
    bytes = [] ∨ (bytes = [letterK] ∧ control = [] ∧ target = .preFuzzRead) := by
  cases target with
  | preFuzzRead => exact Or.inr ⟨h.2, h.1, rfl⟩
  | outside | preFuzz | postFuzzRead => exact Or.inl h.2
  | _ => exact h.elim

/-- `GetStatus` for the `k`: it is read, or nothing is.  A target that is held can have said
nothing but this.  -/
theorem GetStatus.held {s : Handshake} {result : RunResult} {rest : List StatusByte} {l : Label}
    (h : GetStatus s letterK result rest l) (hheld : Held s.control s.bytes s.target) :
    (result = .ok ∧ rest = [] ∧ s.control = [] ∧ s.target = .preFuzzRead) ∨
      (result ≠ .ok ∧ rest = s.status) := by
  have hpipe := hheld.pipe
  rcases h.cases_of_prefix (hpipe.imp id fun hk => ⟨[], hk.1⟩) with ⟨hok, hbytes⟩ | hno
  · rcases hpipe with hnil | ⟨hk, hcontrol, htarget⟩
    · rw [hnil] at hbytes
      cases hbytes
    · rw [hk] at hbytes
      exact Or.inl ⟨hok, List.map_eq_nil_iff.1 (List.cons.inj hbytes).2.symm, hcontrol, htarget⟩
  · exact Or.inr hno

/-- A target that has written something since it was released has written `d` first,
and then the value that it has posted. -/
theorem Running.pipe {ms : List Mark} {control bytes : List UInt8} {target : Target}
    (h : Running ms control bytes target) : bytes = [] ∨ bytes = [letterD] ∨
      ∃ v, bytes = letterD :: valueBytes v ∧ ms = [.released, .began, .posted v] ∧ control = [] ∧
        target = .postFuzzRead v := by
  cases target with
  | postFuzzRead v => exact Or.inr (Or.inr ⟨v, h.2.2, h.1, h.2.1, rfl⟩)
  | postFuzzValue v => exact Or.inr (Or.inl h.2.2)
  | preFuzzRead | fuzzing | postFuzz => exact Or.inl h.2.2
  | _ => exact h.elim

/-- A return value is written with eight bytes.  -/
theorem length_valueBytes (v : UInt64) : (valueBytes v).length = 8 := length_toLE 8 _

/-- The value is read as it was written. -/
theorem ofLE_valueBytes (v : UInt64) : UInt64.ofNat (ofLE (valueBytes v)) = v := by
  rw [valueBytes, ofLE_toLE_of_lt v.toNat_lt, UInt64.ofNat_toNat]

/-- While the target runs, whatever is in the status pipe begins with a `D`, the answer that
it is done, with the return value behind it.  -/
theorem Running.beginsWithD {ms : List Mark} {control bytes : List UInt8} {target : Target}
    (h : Running ms control bytes target) : bytes = [] ∨ ∃ more, bytes = letterD :: more := by
  rcases h.pipe with hnil | hd | ⟨v, hv, -⟩
  · exact Or.inl hnil
  · exact Or.inr ⟨[], hd⟩
  · exact Or.inr ⟨_, hv⟩

/-- Behind the `d`, eight bytes are the value that was posted: the target has written both,
and written nothing since.  -/
theorem Running.value {ms : List Mark} {control bytes : List UInt8} {target : Target}
    (h : Running ms control (letterD :: bytes) target) (hlength : 8 ≤ bytes.length) :
    ∃ v, bytes = valueBytes v ∧ ms = [.released, .began, .posted v] ∧ control = [] ∧
      target = .postFuzzRead v := by
  rcases h.pipe with hnil | hd | ⟨v, hv, hrest⟩
  · cases hnil
  · rw [(List.cons.inj hd).2] at hlength
    exact absurd hlength (by decide)
  · exact ⟨v, (List.cons.inj hv).2, hrest⟩

/-- At most one execution was begun. -/
theorem Running.marks {ms : List Mark} {control bytes : List UInt8} {target : Target}
    (h : Running ms control bytes target) : ∃ v, ms <+: [.released, .began, .posted v] := by
  cases target with
  | preFuzzRead => exact ⟨0, h.1 ▸ ⟨_, rfl⟩⟩
  | fuzzing => exact ⟨0, h.1 ▸ ⟨_, rfl⟩⟩
  | postFuzz v | postFuzzValue v | postFuzzRead v => exact ⟨v, h.1 ▸ List.prefix_refl _⟩
  | _ => exact h.elim

/-- `Kill` and `CleanupChild` leave no process that the fuzzer knows of. -/
theorem Handshake.cleanupChild_pid (s : Handshake) : s.cleanupChild.pid = false := by
  unfold cleanupChild
  cases h : s.pid <;> simp [h]

/-- A target that was killed is no longer there.  -/
theorem Handshake.kill_pid (s : Handshake) : s.kill.pid = false := by
  unfold kill
  cases h : s.pid with
  | true => exact s.cleanupChild_pid
  | false => exact h

/-- Nothing is left to read, and nobody to write. -/
theorem InPhase.cleanupChild {ms : List Mark} {s : Handshake} (h : InPhase ms s) :
    s.cleanupChild.status = [] ∧ s.kill.status = [] ∧ s.kill.alive = false := by
  unfold Handshake.kill Handshake.cleanupChild
  cases hpid : s.pid with
  | true => exact ⟨rfl, rfl, rfl⟩
  | false => exact ⟨(h.nobody hpid).2, (h.nobody hpid).2, (h.nobody hpid).1⟩

/-- The fuzzer is where it needs no process, and there is none: no `Run` is active, or one
begins with starting a process.  -/
theorem InPhase.of_nobody {ms : List Mark} {s : Handshake} (hpid : s.pid = false)
    (halive : s.alive = false) (hstatus : s.status = [])
    (hpc : (s.pc = .idle ∧ ∃ v, ms <+: [.released, .began, .posted v]) ∨ (s.pc = .start ∧ ms = [])) :
    InPhase ms s := by
  have hparked : s.pid = true → Parked s.control s.target := fun h => absurd (hpid.symm.trans h) nofun
  refine ⟨?_, fun b hb => ?_, fun _ => ⟨halive, hstatus⟩⟩
  · rcases hpc with ⟨hpc, hms⟩ | ⟨hpc, hms⟩ <;> rw [hpc]
    · exact ⟨hms, hstatus, hparked⟩
    · exact ⟨hms, hstatus, hparked⟩
  · rw [hstatus] at hb
    cases hb

/-- A new process. -/
theorem InPhase.startTarget {s : Handshake} {pc : Pc} (hpc : pc = .reach ∨ pc = .reachAgain) :
    InPhase [] { s.startTarget with pc := pc } := by
  refine ⟨?_, fun b hb => absurd hb List.not_mem_nil, fun h => Bool.noConfusion h⟩
  rcases hpc with rfl | rfl <;> exact ⟨rfl, rfl, rfl⟩

/-- What `GetStatus` does not change: the control pipe, the target and the marks; it only
takes bytes out of the status pipe.  -/
theorem InPhase.getStatus {ms : List Mark} {s : Handshake} {expected : UInt8} {result : RunResult}
    {rest : List StatusByte} {l : Label} {pc : Pc} (hs : InPhase ms s)
    (h : GetStatus s expected result rest l) (hphase : Phase ms { s with status := rest } pc) :
    InPhase (mark ms l) { s with status := rest, pc := pc } := by
  obtain ⟨hsub, hms⟩ := h.rest
  rw [hms]
  refine ⟨hphase, fun b hb => hs.current b (hsub b hb), fun hpid => ?_⟩
  obtain ⟨halive, hstatus⟩ := hs.nobody hpid
  refine ⟨halive, List.eq_nil_iff_forall_not_mem.2 fun b hb => ?_⟩
  have := hsub b hb
  rw [hstatus] at this
  cases this

/-- **A step of the fuzzer** keeps the invariant.  A call of `Run` begins with a target that
is held or dead, the release is the one byte that it writes, and what it returns is what the
target has said since.  -/
theorem FuzzerStep.inPhase {numIterations : ℕ} {s s' : Handshake} {l : Label} {ms : List Mark}
    (h : FuzzerStep numIterations s l s') (hs : InPhase ms s) : InPhase (mark ms l) s' := by
  have hphase := hs.phase
  have hkill := hs.cleanupChild
  have hkillIdle : (∃ v, ms <+: [.released, .began, .posted v]) →
      InPhase ms { s.kill with pc := .idle } := fun hms =>
    .of_nobody s.kill_pid hkill.2.2 hkill.2.1 (Or.inl ⟨rfl, hms⟩)
  cases h with
  | call hpc =>
      rw [hpc] at hphase
      obtain ⟨-, hstatus, hparked⟩ := hphase
      refine ⟨⟨rfl, hstatus, hparked⟩, fun b hb => ?_, hs.nobody⟩
      rw [show s.status = [] from hstatus] at hb
      cases hb
  | cleanTarget hpc =>
      rw [hpc] at hphase
      exact hkillIdle hphase.1
  | checkIterations hpc =>
      rw [hpc] at hphase
      obtain ⟨rfl, hstatus, hparked⟩ := hphase
      split
      · exact .of_nobody s.kill_pid hkill.2.2 hkill.2.1 (Or.inr ⟨rfl, rfl⟩)
      · exact ⟨⟨rfl, hstatus, hparked⟩, hs.current, hs.nobody⟩
  | start hpc =>
      rw [hpc] at hphase
      obtain ⟨rfl, hstatus, hparked⟩ := hphase
      split
      · rename_i hpid
        obtain ⟨hcontrol, v, htarget⟩ := hparked hpid
        refine ⟨⟨rfl, ?_⟩, hs.current, hs.nobody⟩
        show Held (s.control ++ [letterC]) s.bytes s.target
        rw [hcontrol, htarget, Handshake.bytes, hstatus]
        exact ⟨rfl, rfl⟩
      · exact .startTarget (Or.inl rfl)
  | @reach result rest l hpc hget | @reachAgain result rest l hpc hget =>
      rw [hpc] at hphase
      obtain ⟨rfl, hheld⟩ := hphase
      refine hs.getStatus hget ?_
      rcases hget.held hheld with ⟨rfl, rfl, hcontrol, htarget⟩ | ⟨hno, rfl⟩
      · exact ⟨rfl, rfl, hcontrol, htarget⟩
      · rw [if_neg hno]
        exact ⟨rfl, fun _ => hheld⟩
  | retry hpc =>
      rw [hpc] at hphase
      obtain ⟨rfl, -⟩ := hphase
      exact .startTarget (Or.inr rfl)
  | release hpc =>
      rw [hpc] at hphase
      obtain ⟨rfl, hstatus, hcontrol, htarget⟩ := hphase
      refine ⟨?_, hs.current, hs.nobody⟩
      show Running [.released] (s.control ++ [letterC]) s.bytes s.target
      rw [hcontrol, htarget, Handshake.bytes, hstatus]
      exact ⟨rfl, rfl, rfl⟩
  | brokenPipe hpc halive =>
      have hms : ms = [] := by
        rcases hpc with hpc | hpc <;> rw [hpc] at hphase <;> exact hphase.1
      refine ⟨⟨hms, fun h => ?_⟩, hs.current, hs.nobody⟩
      rw [show s.alive = true from h] at halive
      cases halive
  | @wait result rest l hpc hget =>
      rw [hpc] at hphase
      have hrunning : Running ms s.control s.bytes s.target := hphase
      refine hs.getStatus hget ?_
      rcases hget.cases_of_prefix hrunning.beginsWithD with ⟨rfl, hbytes⟩ | ⟨hno, rfl⟩
      · rw [hbytes] at hrunning
        exact hrunning
      · rw [if_neg hno]
        cases result with
        | ok => exact absurd rfl hno
        | crash | hang | otherError => exact ⟨[], hrunning⟩
  | valueError hpc =>
      rw [hpc] at hphase
      exact ⟨⟨[letterD], hphase⟩, hs.current, hs.nobody⟩
  | value hpc _ hlength =>
      rw [hpc] at hphase
      have hrunning : Running ms s.control (letterD :: s.bytes) s.target := hphase
      obtain ⟨v, hvalue, rfl, hcontrol, htarget⟩ := hrunning.value ((List.length_map _).symm ▸ hlength)
      have hall : s.status.length = 8 := by
        rw [← length_valueBytes v, ← hvalue]
        exact (List.length_map _).symm
      have hread : UInt64.ofNat (ofLE ((s.status.take 8).map (·.byte))) = v := by
        rw [List.take_of_length_le hall.le, ← ofLE_valueBytes v, ← hvalue]
        rfl
      have hempty : s.status.drop 8 = [] := List.drop_of_length_le hall.le
      simp only [hread, hempty]
      refine ⟨⟨rfl, rfl, hcontrol, htarget⟩, fun b hb => absurd hb List.not_mem_nil, fun hpid => ?_⟩
      exact ⟨(hs.nobody hpid).1, rfl⟩
  | valueShort hpc =>
      rw [hpc] at hphase
      refine ⟨⟨letterD :: s.bytes, ?_⟩, fun b hb => absurd hb List.not_mem_nil, fun hpid => ?_⟩
      · show Running ms s.control (letterD :: s.bytes ++ []) s.target
        rw [List.append_nil]
        exact hphase
      · exact ⟨(hs.nobody hpid).1, rfl⟩
  | finishOk hpc =>
      rw [hpc] at hphase
      obtain ⟨rfl, hstatus, hcontrol, htarget⟩ := hphase
      exact ⟨⟨⟨_, List.prefix_refl _⟩, hstatus, fun _ => ⟨hcontrol, _, htarget⟩⟩, hs.current, hs.nobody⟩
  | finishCrash hpc halive =>
      rw [hpc] at hphase
      obtain ⟨read, hrunning⟩ := hphase
      refine .of_nobody s.cleanupChild_pid ?_ hkill.1 (Or.inl ⟨rfl, hrunning.marks⟩)
      show s.cleanupChild.alive = false
      unfold Handshake.cleanupChild
      split <;> exact halive
  | finishCrashUnknown hpc | finishHang hpc | finishError hpc =>
      rw [hpc] at hphase
      obtain ⟨read, hrunning⟩ := hphase
      exact hkillIdle hrunning.marks

/-- **Every run keeps the invariant**, whichever of the two processes takes its steps when,
and however often the target dies.  -/
theorem inPhase_of_run {numIterations : ℕ} {tr : List Label} {s : Handshake}
    (h : Run (Step numIterations) .init tr s) : InPhase (marks tr) s := by
  refine h.invariant (fun tr s => InPhase (marks tr) s) ?_ ?_
  · refine ⟨⟨⟨0, List.nil_prefix⟩, rfl, fun h => Bool.noConfusion h⟩, fun b hb => ?_, fun _ => ⟨rfl, rfl⟩⟩
    exact absurd hb List.not_mem_nil
  · intro tr s l s' hs hstep
    rw [marks_append]
    cases hstep with
    | fuzzer hstep => exact hstep.inPhase hs
    | target halive hstep => exact hstep.inPhase halive hs

/-! ### What the protocol promises -/

/-- At most one execution since `Run` was called: the marks are a beginning of release,
execution and answer, whatever is interleaved.  -/
theorem InPhase.marks {ms : List Mark} {s : Handshake} (h : InPhase ms s) :
    ∃ v, ms <+: [.released, .began, .posted v] := by
  have hphase := h.phase
  have hnone : ms = [] → ∃ v, ms <+: [.released, .began, .posted v] := fun hms =>
    ⟨0, hms ▸ List.nil_prefix⟩
  cases hpc : s.pc with
  | idle =>
      rw [hpc] at hphase
      exact hphase.1
  | wait | waitValue =>
      rw [hpc] at hphase
      exact Running.marks hphase
  | finish result =>
      rw [hpc] at hphase
      cases result with
      | ok =>
          refine ⟨s.returnValue, ?_⟩
          rw [hphase.1]
      | crash | hang | otherError =>
          obtain ⟨read, hrunning⟩ := hphase
          exact hrunning.marks
  | _ =>
      rw [hpc] at hphase
      exact hnone hphase.1

/-- While no `Run` is active, the target waits for a byte of the fuzzer, and all that it has
written was read.  -/
theorem InPhase.parked {ms : List Mark} {s : Handshake} (h : InPhase ms s) (hpc : s.pc = .idle)
    (halive : s.alive = true) : Parked s.control s.target ∧ s.status = [] := by
  have hphase := h.phase
  rw [hpc] at hphase
  refine ⟨hphase.2.2 ?_, hphase.2.1⟩
  by_contra hpid
  rw [(h.nobody (by simpa using hpid)).1] at halive
  cases halive

/-- A byte that `GetStatus` reads is in the pipe. -/
theorem Step.mem_of_status {numIterations : ℕ} {s s' : Handshake} {b : StatusByte}
    (h : Step numIterations s (.status b) s') : b ∈ s.status := by
  cases h with
  | fuzzer h =>
      cases h with
      | reach _ hget | reachAgain _ hget | wait _ hget =>
          cases hget with
          | byte hstatus =>
              rw [hstatus]
              exact List.mem_cons_self
  | target _ h => cases h

/-- So are the bytes of the value. -/
theorem Step.subset_of_value {numIterations : ℕ} {s s' : Handshake} {bs : List StatusByte}
    (h : Step numIterations s (.value bs) s') : ∀ b ∈ bs, b ∈ s.status := by
  cases h with
  | fuzzer h =>
      cases h with
      | reach _ hget | reachAgain _ hget | wait _ hget => cases hget
      | value => exact fun b hb => List.mem_of_mem_take hb
      | valueShort => exact fun b hb => hb
  | target _ h => cases h

/-- **The handshake stays in phase**, however the two are interleaved.  Since `Run` was
called, at most one execution was released and begun; when it returns `OK`, exactly one
was, after the second `c`, and its value is returned.  While no `Run` is active, a
target that is alive waits in `__post_fuzz`, both pipes are empty, and no execution
begins.  Every byte that is read was written by the process at hand since `Run` was
called. -/
theorem run_in_phase {numIterations : ℕ} {tr : List Label} {s : Handshake}
    (hrun : Run (Step numIterations) .init tr s) :
    (∃ v, marks tr <+: [.released, .began, .posted v]) ∧
      (∀ s', Step numIterations s (.returned .ok) s' →
        marks tr = [.released, .began, .posted s'.returnValue]) ∧
      (s.pc = .idle → s.alive = true →
        (∃ v, s.target = .postFuzzRead v) ∧ s.control = [] ∧ s.status = []) ∧
      (s.pc = .idle → ∀ s', ¬ Step numIterations s .began s') ∧
      (∀ b s', Step numIterations s (.status b) s' → b.process = s.processes ∧ b.run = s.runs) ∧
      (∀ bs s', Step numIterations s (.value bs) s' →
        ∀ b ∈ bs, b.process = s.processes ∧ b.run = s.runs) := by
  have hs := inPhase_of_run hrun
  refine ⟨hs.marks, ?_, ?_, ?_, ?_, ?_⟩
  · rintro s' (⟨hstep⟩ | ⟨-, hstep⟩)
    · have hphase := hs.phase
      cases hstep with
      | reach _ hget | reachAgain _ hget | wait _ hget => cases hget
      | finishOk hpc =>
          rw [hpc] at hphase
          exact hphase.1
    · cases hstep
  · intro hpc halive
    obtain ⟨⟨hcontrol, htarget⟩, hstatus⟩ := hs.parked hpc halive
    exact ⟨htarget, hcontrol, hstatus⟩
  · rintro hpc s' (⟨hstep⟩ | ⟨halive, hstep⟩)
    · cases hstep with
      | reach _ hget | reachAgain _ hget | wait _ hget => cases hget
    · obtain ⟨⟨hcontrol, htarget⟩, -⟩ := hs.parked hpc halive
      have hmark := (hstep.waiting [] hcontrol (Or.inr htarget)).1
      cases hmark
  · exact fun b s' hstep => hs.current b hstep.mem_of_status
  · exact fun bs s' hstep b hb => hs.current b (hstep.subset_of_value b hb)

/-- A first call of `Run`, where the target function returns 7: the target is started,
waits, is released, executes, and answers.  The marks since the call are those three, and
the fuzzer returns the value of this execution.  -/
theorem run_in_phase_first : ∃ (tr : List Label) (s s' : Handshake),
    Run (Step 1) .init tr s ∧ Step 1 s (.returned .ok) s' ∧ s'.returnValue = 7 ∧
      marks tr = [.released, .began, .posted 7] := by
  let reached : Handshake := ⟨.reach, true, 0, 0, true, .preFuzzRead, [], [⟨letterK, 1, 1⟩], 1, 1⟩
  let posted : Handshake := ⟨.wait, true, 0, 0, true, .postFuzzRead 7, [],
    (letterD :: valueBytes 7).map fun b => ⟨b, 1, 1⟩, 1, 1⟩
  have hreached : Run (Step 1) .init [.called, .silent, .silent, .silent, .silent] reached :=
    Run.cons (.fuzzer (.call rfl)) (Run.cons (.fuzzer (.checkIterations rfl))
      (Run.cons (.fuzzer (.start rfl)) (Run.cons (.target rfl (.preFuzz rfl))
        (Run.single (.target rfl (.reached rfl))))))
  have hposted : Run (Step 1) reached
      [.status ⟨letterK, 1, 1⟩, .released, .began, .posted 7, .silent, .silent] posted :=
    Run.cons (.fuzzer (.reach rfl (.byte rfl))) (Run.cons (.fuzzer (.release rfl))
      (Run.cons (.target rfl (.began rfl rfl)) (Run.cons (.target rfl (.posted 7 rfl))
        (Run.cons (.target rfl (.done rfl)) (Run.single (.target rfl (.value rfl)))))))
  let finished : Handshake := ⟨.finish .ok, true, 0, 7, true, .postFuzzRead 7, [], [], 1, 1⟩
  have hread : Run (Step 1) posted [.status ⟨letterD, 1, 1⟩, .value _] finished :=
    Run.cons (.fuzzer (.wait rfl (.byte rfl)))
      (Run.single (.fuzzer (.value rfl (Or.inl nofun) (by decide))))
  have hrun := (hreached.trans hposted).trans hread
  have hreturned : Step 1 finished (.returned .ok) _ := .fuzzer (.finishOk rfl)
  exact ⟨_, _, _, hrun, hreturned, rfl, (run_in_phase hrun).2.1 _ hreturned⟩

end SanCov
end Jackalope
