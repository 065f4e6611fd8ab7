/-
# The sample in the shared memory

`SHMSampleDelivery::DeliverSample` (`sampledelivery.cpp`, lines 33-39) writes the size of a
sample and then its bytes into a shared memory, and the `fuzz` function of the target
(`sancovtest.cpp`, lines 100-110) reads the size and then the bytes from there.  Nothing
locks the memory: what keeps a sample from being replaced while it is read, and a target
from reading one that is half written, is the handshake of `SanCovInstrumentation::Run`
alone, since `RunSampleAndGetCoverage` and `TryReproduceCrash` deliver a sample before they
call it.

Here the two writes and the two reads are steps of their own, interleaved with those of the
handshake.  `sample_delivered` says what comes of it: whatever times out, hangs or crashes,
an execution of the `k`-th `Run` reads the `k`-th sample that was delivered, whole.
-/

import Jackalope.Foundation.Buffer
import Jackalope.SanCov.Handshake

namespace Jackalope
namespace SanCov

open Foundation Foundation.Buffer Fuzzer

/-! ### The shared memory -/

/-- `MAX_SAMPLE_SIZE` of the target. -/
def maxSampleSize : ℕ := 1000000

/-- How far the fuzzer is with the next sample. -/
inductive Outbox
  /-- `Run` was called with the last one. -/
  | empty
  /-- `*size_ptr = (uint32_t)sample->size` is done. -/
  | sized (sample : Sample)
  /-- `DeliverSample` has returned. -/
  | full (sample : Sample)

/-- How far the target is with reading it, in `fuzz`. -/
inductive Reading
  | before
  /-- `sample_size` is set. -/
  | size (n : ℕ)
  /-- The bytes are in `sample_bytes`. -/
  | after

/-- Both processes, their pipes and the shared memory. -/
structure Exchange where
  shake : Handshake
  shm : Buffer UInt8
  outbox : Outbox
  reading : Reading

/-- `CreateSampleDelivery` makes a shared memory of `Sample::max_size + 4` bytes. -/
def Exchange.init (maxSize : ℕ) : Exchange where
  shake := .init
  shm := of (List.replicate (maxSize + 4) 0)
  outbox := .empty
  reading := .before

/-- What can be seen of a step. -/
inductive ExchangeLabel
  | shake (l : Label)
  /-- The size is written. -/
  | sized
  /-- `DeliverSample` returns. -/
  | delivered (sample : Sample)
  /-- The size is read. -/
  | sizeRead
  /-- `fuzz` has read these bytes as the sample. -/
  | got (data : Bytes)

/-- A step of the fuzzer or of the target.  While the fuzzer is in `DeliverSample` it does
nothing else; `fuzz` returns when it has read the sample. -/
inductive ExchangeStep (numIterations : ℕ) (s : Exchange) : ExchangeLabel → Exchange → Prop
  | sized {shm} (sample : Sample) : s.shake.pc = .idle → s.outbox = .empty →
      memcpy s.shm 0 (of (toLE 4 sample.size)) 0 4 = some shm →
      ExchangeStep numIterations s .sized { s with shm := shm, outbox := .sized sample }
  | delivered {sample shm} : s.outbox = .sized sample →
      memcpy s.shm 4 (of sample.bytes) 0 sample.size = some shm →
      ExchangeStep numIterations s (.delivered sample) { s with shm := shm, outbox := .full sample }
  | call {sample shake} : s.outbox = .full sample → FuzzerStep numIterations s.shake .called shake →
      ExchangeStep numIterations s (.shake .called) { s with shake := shake, outbox := .empty }
  | fuzzer {l shake} : (∀ sample, s.outbox ≠ .sized sample) → l ≠ .called →
      FuzzerStep numIterations s.shake l shake →
      ExchangeStep numIterations s (.shake l) { s with shake := shake }
  | began {shake} : s.shake.alive = true → TargetStep s.shake .began shake →
      ExchangeStep numIterations s (.shake .began) { s with shake := shake, reading := .before }
  | posted {v shake} : s.shake.alive = true → s.reading = .after →
      TargetStep s.shake (.posted v) shake →
      ExchangeStep numIterations s (.shake (.posted v)) { s with shake := shake }
  | target {l shake} : s.shake.alive = true → l ≠ .began → (∀ v, l ≠ .posted v) →
      TargetStep s.shake l shake → ExchangeStep numIterations s (.shake l) { s with shake := shake }
  | sizeRead {bytes} : s.shake.alive = true → s.shake.target = .fuzzing → s.reading = .before →
      contents (s.shm.take 4) = some bytes →
      ExchangeStep numIterations s .sizeRead
        { s with reading := .size (min (ofLE bytes) maxSampleSize) }
  | got {n block data} : s.shake.alive = true → s.shake.target = .fuzzing → s.reading = .size n →
      memcpy (malloc n) 0 s.shm 4 n = some block → contents block = some data →
      ExchangeStep numIterations s (.got data) { s with reading := .after }

/-! ### What has happened -/

/-- The step of the handshake. -/
def ExchangeLabel.shake? : ExchangeLabel → Option Label
  | .shake l => some l
  | _ => none

/-- The sample that was delivered. -/
def ExchangeLabel.delivered? : ExchangeLabel → Option Sample
  | .delivered sample => some sample
  | _ => none

/-- The samples that were delivered. -/
def deliveries (tr : List ExchangeLabel) : List Sample := tr.filterMap ExchangeLabel.delivered?

/-- What has happened in the handshake since `Run` was called. -/
def shakeMarks (tr : List ExchangeLabel) : List Mark := marks (tr.filterMap ExchangeLabel.shake?)

def received (read : List Bytes) : ExchangeLabel → List Bytes
  | .shake .called => []
  | .got data => read ++ [data]
  | _ => read

/-- What `fuzz` has read since `Run` was called. -/
def readings (tr : List ExchangeLabel) : List Bytes := tr.foldl received []

/-- One step more, and what was read with it.  -/
theorem readings_append (tr : List ExchangeLabel) (l : ExchangeLabel) :
    readings (tr ++ [l]) = received (readings tr) l := by
  rw [readings, List.foldl_append]
  rfl

/-- A step of the handshake leaves its mark.  -/
theorem shakeMarks_shake (tr : List ExchangeLabel) (l : Label) :
    shakeMarks (tr ++ [.shake l]) = mark (shakeMarks tr) l := by
  rw [shakeMarks, List.filterMap_append]
  exact marks_append _ _

/-- A step of the delivery leaves none.  -/
theorem shakeMarks_other (tr : List ExchangeLabel) {l : ExchangeLabel} (h : l.shake? = none) :
    shakeMarks (tr ++ [l]) = shakeMarks tr := by
  rw [shakeMarks, List.filterMap_append, List.filterMap_cons_none h]
  exact congrArg marks (List.append_nil _)

/-- Each step is one of the handshake, or leaves it alone: the writes and the reads of the
memory are steps of their own.  -/
theorem ExchangeStep.shake {numIterations : ℕ} {s s' : Exchange} {l : ExchangeLabel}
    (h : ExchangeStep numIterations s l s') :
    (∃ l', l.shake? = some l' ∧ Step numIterations s.shake l' s'.shake) ∨
      (l.shake? = none ∧ s'.shake = s.shake) := by
  cases h with
  | sized | delivered | sizeRead | got => exact Or.inr ⟨rfl, rfl⟩
  | call _ h | fuzzer _ _ h => exact Or.inl ⟨_, rfl, .fuzzer h⟩
  | began halive h | posted halive _ h | target halive _ _ h => exact Or.inl ⟨_, rfl, .target halive h⟩

/-- The handshake goes on as it does without samples. -/
theorem inPhase_of_exchange {numIterations maxSize : ℕ} {tr : List ExchangeLabel} {s : Exchange}
    (h : Run (ExchangeStep numIterations) (.init maxSize) tr s) : InPhase (shakeMarks tr) s.shake :=
  inPhase_of_run (h.project Exchange.shake ExchangeLabel.shake? fun _ _ _ hstep => hstep.shake)

/-! ### The target in the fuzz function -/

/-- **A target that executes was released by the `Run` at hand**: it cannot have got to the
fuzz function by an earlier one, since each of them ended with the target's answer or with
its death.  -/
theorem InPhase.of_fuzzing {ms : List Mark} {s : Handshake} (h : InPhase ms s)
    (halive : s.alive = true) (htarget : s.target = .fuzzing) :
    ms = [.released, .began] ∧ s.pc ≠ .idle := by
  have hpid : s.pid = true := by
    by_contra hpid
    rw [(h.nobody (by simpa using hpid)).1] at halive
    cases halive
  have hphase := h.phase
  have hparked : ∀ {control}, ¬ Parked control s.target := by
    rintro control ⟨-, v, hv⟩
    rw [htarget] at hv
    cases hv
  have hheld : ∀ {control status}, ¬ Held control status s.target := by
    rw [htarget]
    exact id
  have hrunning : ∀ {control status}, Running ms control status s.target → ms = [.released, .began] := by
    rw [htarget]
    exact fun hr => hr.1
  cases hpc : s.pc with
  | idle | checkIterations | start =>
      rw [hpc] at hphase
      exact absurd (hphase.2.2 hpid) hparked
  | reach | reachAgain =>
      rw [hpc] at hphase
      exact absurd hphase.2 hheld
  | retry | aborted =>
      rw [hpc] at hphase
      exact absurd (hphase.2 halive) hheld
  | release =>
      rw [hpc] at hphase
      cases htarget.symm.trans hphase.2.2.2
  | wait | waitValue =>
      rw [hpc] at hphase
      exact ⟨hrunning hphase, nofun⟩
  | finish result =>
      rw [hpc] at hphase
      cases result with
      | ok => cases htarget.symm.trans hphase.2.2.2
      | crash | hang | otherError =>
          obtain ⟨read, hrun⟩ := hphase
          exact ⟨hrunning hrun, nofun⟩

/-- A target that begins to execute was released. -/
theorem TargetStep.of_began {ms : List Mark} {s s' : Handshake} (h : TargetStep s .began s')
    (hs : InPhase ms s) (halive : s.alive = true) : ms = [.released] := by
  have hs' := h.inPhase halive hs
  cases h with
  | began _ _ =>
      have hms : ms ++ [.began] = [.released] ++ [.began] := (hs'.of_fuzzing halive rfl).1
      exact List.append_cancel_right hms

/-! ### The shared memory holds the sample -/

/-- The size of the sample, and behind it the sample. -/
def Stores (maxSize : ℕ) (shm : Buffer UInt8) (sample : Sample) : Prop :=
  ∃ rest : Bytes, shm = of (toLE 4 sample.size ++ sample.bytes ++ rest) ∧
    sample.size + rest.length = maxSize

/-- The size of the sample only. -/
def StoresSize (maxSize : ℕ) (shm : Buffer UInt8) (sample : Sample) : Prop :=
  ∃ rest : Bytes, shm = of (toLE 4 sample.size ++ rest) ∧ rest.length = maxSize

/-- A block of this size, written all over. -/
def Filled (size : ℕ) (shm : Buffer UInt8) : Prop := ∃ bytes : Bytes, shm = of bytes ∧ bytes.length = size

/-- A memory that stores a sample has been filled: no byte of the size and the sample in it
is left unwritten.  -/
theorem Stores.filled {maxSize : ℕ} {shm : Buffer UInt8} {sample : Sample}
    (h : Stores maxSize shm sample) : Filled (maxSize + 4) shm := by
  obtain ⟨rest, rfl, hrest⟩ := h
  refine ⟨_, rfl, ?_⟩
  rw [List.length_append, List.length_append, length_toLE]
  unfold Sample.size at hrest
  omega

/-- The first write stores the size in the first four bytes, and the rest of the memory is
as it was.  -/
theorem Filled.storesSize {maxSize : ℕ} {shm shm' : Buffer UInt8} {sample : Sample}
    (h : Filled (maxSize + 4) shm) (hcopy : memcpy shm 0 (of (toLE 4 sample.size)) 0 4 = some shm') :
    StoresSize maxSize shm' sample := by
  obtain ⟨bytes, rfl, hlength⟩ := h
  rw [memcpy_of (by omega) (by rw [length_toLE])] at hcopy
  refine ⟨bytes.drop 4, ?_, by rw [List.length_drop]; omega⟩
  rw [← Option.some.inj hcopy, List.take_zero, List.nil_append, slice_zero,
    List.take_of_length_le (length_toLE 4 _).le]

/-- The second write stays in the memory only if the sample fits, and then the memory holds
the size and the bytes behind it.  -/
theorem StoresSize.stores {maxSize : ℕ} {shm shm' : Buffer UInt8} {sample : Sample}
    (h : StoresSize maxSize shm sample)
    (hcopy : memcpy shm 4 (of sample.bytes) 0 sample.size = some shm') : Stores maxSize shm' sample := by
  obtain ⟨rest, rfl, hlength⟩ := h
  have hall : (toLE 4 sample.size ++ rest).length = maxSize + 4 := by
    rw [List.length_append, length_toLE, hlength, Nat.add_comm]
  have hfits : 4 + sample.size ≤ maxSize + 4 := by
    by_contra hlarge
    rw [memcpy, if_neg (by rw [length_of, hall]; omega)] at hcopy
    cases hcopy
  rw [memcpy_of (by omega) (by rw [Nat.zero_add, Sample.size])] at hcopy
  refine ⟨rest.drop sample.size, ?_, by rw [List.length_drop]; omega⟩
  rw [← Option.some.inj hcopy, List.take_left' (length_toLE 4 _), slice_zero, Sample.size,
    List.take_length, ← List.drop_drop, List.drop_left' (length_toLE 4 _)]

/-- The size is read as it was written. -/
theorem Stores.read_size {maxSize : ℕ} (hmax : maxSize < 2 ^ 32) {shm : Buffer UInt8} {sample : Sample}
    (h : Stores maxSize shm sample) {bytes : Bytes} (hread : contents (shm.take 4) = some bytes) :
    ofLE bytes = sample.size := by
  obtain ⟨rest, rfl, hrest⟩ := h
  rw [← of_take, List.append_assoc, List.take_left' (length_toLE 4 _), contents_of] at hread
  rw [← Option.some.inj hread, ofLE_toLE_of_lt (by omega)]

/-- So are as many bytes as the target takes: they are the sample's first ones, since they
were copied behind the size.  -/
theorem Stores.read_bytes {maxSize n : ℕ} {shm block : Buffer UInt8} {sample : Sample}
    (h : Stores maxSize shm sample) (hn : n ≤ sample.size) {data : Bytes}
    (hcopy : memcpy (malloc n) 0 shm 4 n = some block) (hread : contents block = some data) :
    data = sample.bytes.take n := by
  obtain ⟨rest, rfl, hrest⟩ := h
  have hslice : slice (toLE 4 sample.size ++ sample.bytes ++ rest) 4 n = sample.bytes.take n := by
    rw [slice, List.append_assoc, List.drop_left' (length_toLE 4 _), List.take_append_of_le_length hn]
  have hsize : sample.bytes.length = sample.size := rfl
  rw [memcpy_malloc le_rfl (by
    rw [List.length_append, List.length_append, length_toLE]
    omega), hslice, written_full (Nat.sub_self n)] at hcopy
  rw [← Option.some.inj hcopy, contents_of] at hread
  exact (Option.some.inj hread).symm

/-! ### The invariant -/

/-- What a step of the fuzzer that is no call of `Run` leaves alone: how often `Run` was
called, that no `Run` is active, and of the marks all but one for the release.  -/
theorem FuzzerStep.frame {numIterations : ℕ} {s s' : Handshake} {l : Label}
    (h : FuzzerStep numIterations s l s') (hl : l ≠ .called) :
    s'.runs = s.runs ∧ (s.pc = .idle → s'.pc = .idle) ∧
      ∀ ms, mark ms l = ms ∨ mark ms l = ms ++ [.released] := by
  have hruns : s.kill.runs = s.runs := by
    unfold Handshake.kill Handshake.cleanupChild
    cases s.pid <;> rfl
  have hcleanup : s.cleanupChild.runs = s.runs := by
    unfold Handshake.cleanupChild
    cases s.pid <;> rfl
  have hbusy : ∀ {pc : Pc} {p : Prop}, s.pc = pc → pc ≠ .idle → s.pc = .idle → p :=
    fun hpc hne hidle => absurd (hpc.symm.trans hidle) hne
  cases h with
  | call => exact absurd rfl hl
  | cleanTarget => exact ⟨hruns, fun _ => rfl, fun _ => Or.inl rfl⟩
  | checkIterations hpc =>
      refine ⟨?_, hbusy hpc nofun, fun _ => Or.inl rfl⟩
      dsimp only
      split
      · exact hruns
      · rfl
  | start hpc =>
      refine ⟨?_, hbusy hpc nofun, fun _ => Or.inl rfl⟩
      dsimp only
      split <;> rfl
  | reach hpc hget | reachAgain hpc hget | wait hpc hget =>
      exact ⟨rfl, hbusy hpc nofun, fun ms => Or.inl (hget.rest.2 ms)⟩
  | retry hpc => exact ⟨hruns, hbusy hpc nofun, fun _ => Or.inl rfl⟩
  | release hpc => exact ⟨rfl, hbusy hpc nofun, fun _ => Or.inr rfl⟩
  | brokenPipe hpc =>
      refine ⟨rfl, fun hidle => ?_, fun _ => Or.inl rfl⟩
      rw [hidle] at hpc
      rcases hpc with hpc | hpc <;> cases hpc
  | valueError hpc | value hpc | valueShort hpc =>
      exact ⟨rfl, hbusy hpc nofun, fun _ => Or.inl rfl⟩
  | finishOk => exact ⟨rfl, fun _ => rfl, fun _ => Or.inl rfl⟩
  | finishCrash => exact ⟨hcleanup, fun _ => rfl, fun _ => Or.inl rfl⟩
  | finishCrashUnknown | finishHang | finishError => exact ⟨hruns, fun _ => rfl, fun _ => Or.inl rfl⟩

/-- What is delivered and where, by how far the fuzzer is.  `sample` is delivered for the
next `Run`; `ds` are all samples that were delivered. -/
def OutboxOk (maxSize : ℕ) (ds : List Sample) (s : Exchange) : Outbox → Prop
  | .empty => ds.length = s.shake.runs ∧ Filled (maxSize + 4) s.shm ∧
      ∀ sample, ds[s.shake.runs - 1]? = some sample → Stores maxSize s.shm sample
  | .sized sample => s.shake.pc = .idle ∧ ds.length = s.shake.runs ∧ StoresSize maxSize s.shm sample
  | .full sample => s.shake.pc = .idle ∧ ds.length = s.shake.runs + 1 ∧
      ds[s.shake.runs]? = some sample ∧ Stores maxSize s.shm sample

/-- What was read in an execution that has begun, by how far the target is; `current` is the
sample that was delivered for the `Run` at hand. -/
def ReadingOk (current : Option Sample) (ms : List Mark) (read : List Bytes) : Reading → Prop
  | .before => read = [] ∧ ∀ v, .posted v ∉ ms
  | .size n => read = [] ∧ (∀ v, .posted v ∉ ms) ∧
      ∃ sample, current = some sample ∧ n = min sample.size maxSampleSize
  | .after => ∃ sample, current = some sample ∧ read = [sample.bytes.take maxSampleSize]

/-- **The invariant** of the shared memory. -/
structure ExchangeOk (maxSize : ℕ) (tr : List ExchangeLabel) (s : Exchange) : Prop where
  outbox : OutboxOk maxSize (deliveries tr) s s.outbox
  called : s.shake.pc ≠ .idle ∨ .began ∈ shakeMarks tr → 0 < s.shake.runs
  notBegun : .began ∉ shakeMarks tr → readings tr = []
  begun : .began ∈ shakeMarks tr →
    ReadingOk (deliveries tr)[s.shake.runs - 1]? (shakeMarks tr) (readings tr) s.reading

/-- While a `Run` is active nothing is being delivered, and the memory holds the sample that
was delivered for it.  -/
theorem ExchangeOk.stores {maxSize : ℕ} {tr : List ExchangeLabel} {s : Exchange}
    (h : ExchangeOk maxSize tr s) (hpc : s.shake.pc ≠ .idle) :
    s.outbox = .empty ∧ ∃ sample, (deliveries tr)[s.shake.runs - 1]? = some sample ∧
      Stores maxSize s.shm sample := by
  have houtbox := h.outbox
  cases hout : s.outbox with
  | empty =>
      rw [hout] at houtbox
      obtain ⟨hlength, -, hstores⟩ := houtbox
      have hpos := h.called (Or.inl hpc)
      obtain ⟨sample, hsample⟩ : ∃ sample, (deliveries tr)[s.shake.runs - 1]? = some sample :=
        ⟨_, List.getElem?_eq_getElem (by omega)⟩
      exact ⟨rfl, sample, hsample, hstores sample hsample⟩
  | sized sample | full sample =>
      rw [hout] at houtbox
      exact absurd houtbox.1 hpc

section

variable {numIterations maxSize : ℕ} {tr : List ExchangeLabel} {s s' : Exchange}

/-- **What `fuzz` reads** is what was delivered: the size that it has read is the sample's,
and the bytes that it copies behind the size are the sample's first ones.  -/
theorem ExchangeOk.got_eq {n : ℕ} {block : Buffer UInt8} {data : Bytes} {sample : Sample}
    (hs : ExchangeOk maxSize tr s) (hphase : InPhase (shakeMarks tr) s.shake)
    (halive : s.shake.alive = true) (htarget : s.shake.target = .fuzzing) (hreading : s.reading = .size n)
    (hcopy : memcpy (malloc n) 0 s.shm 4 n = some block) (hread : contents block = some data)
    (hsample : (deliveries tr)[s.shake.runs - 1]? = some sample) :
    data = sample.bytes.take maxSampleSize := by
  obtain ⟨hmarks, hpc⟩ := hphase.of_fuzzing halive htarget
  obtain ⟨-, sample', hsample', hstores⟩ := hs.stores hpc
  have hbegun := hs.begun (by rw [hmarks]; simp)
  rw [hreading] at hbegun
  obtain ⟨-, -, sample'', hsample'', rfl⟩ := hbegun
  cases hsample.symm.trans hsample'
  cases hsample.symm.trans hsample''
  rw [hstores.read_bytes (Nat.min_le_left _ _) hcopy hread, Sample.size, min_comm,
    ← List.take_eq_take_min]

/-- A step of the handshake that is no call of `Run` and begins no execution.  The memory
and the deliveries are as they were, and what the target has read of them is still right.
-/
theorem ExchangeOk.quiet {l : Label} {shake : Handshake} (hs : ExchangeOk maxSize tr s)
    (hl : l ≠ .called) (hruns : shake.runs = s.shake.runs)
    (hidle : s.shake.pc = .idle → shake.pc = .idle)
    (hbegan : .began ∈ mark (shakeMarks tr) l ↔ .began ∈ shakeMarks tr)
    (hposted : s.reading = .after ∨ ∀ v, .posted v ∈ mark (shakeMarks tr) l → .posted v ∈ shakeMarks tr) :
    ExchangeOk maxSize (tr ++ [.shake l]) { s with shake := shake } := by
  have hds : deliveries (tr ++ [.shake l]) = deliveries tr := by
    rw [deliveries, List.filterMap_append]
    exact List.append_nil _
  have hread : readings (tr ++ [.shake l]) = readings tr := by
    rw [readings_append]
    cases l with
    | called => exact absurd rfl hl
    | _ => rfl
  refine ⟨?_, ?_, ?_, ?_⟩
  · have houtbox := hs.outbox
    rw [hds]
    show OutboxOk maxSize (deliveries tr) _ s.outbox
    cases hout : s.outbox with
    | empty =>
        rw [hout] at houtbox
        show _ = shake.runs ∧ Filled (maxSize + 4) s.shm ∧
          ∀ sample, (deliveries tr)[shake.runs - 1]? = some sample → Stores maxSize s.shm sample
        rw [hruns]
        exact houtbox
    | sized sample =>
        rw [hout] at houtbox
        exact ⟨hidle houtbox.1, houtbox.2.1.trans hruns.symm, houtbox.2.2⟩
    | full sample =>
        rw [hout] at houtbox
        show shake.pc = .idle ∧ _ = shake.runs + 1 ∧ (deliveries tr)[shake.runs]? = some sample ∧
          Stores maxSize s.shm sample
        rw [hruns]
        exact ⟨hidle houtbox.1, houtbox.2⟩
  · rw [shakeMarks_shake, hbegan]
    show shake.pc ≠ .idle ∨ _ → 0 < shake.runs
    rw [hruns]
    exact fun h => hs.called (h.imp_left (mt hidle))
  · rw [hread, shakeMarks_shake, hbegan]
    exact hs.notBegun
  · rw [hread, shakeMarks_shake, hbegan, hds]
    intro hbegun
    have hreading := hs.begun hbegun
    show ReadingOk (deliveries tr)[shake.runs - 1]? _ _ s.reading
    rw [hruns]
    cases hat : s.reading with
    | before =>
        rw [hat] at hreading hposted
        have hposted := hposted.resolve_left nofun
        exact ⟨hreading.1, fun v hv => hreading.2 v (hposted v hv)⟩
    | size n =>
        rw [hat] at hreading hposted
        have hposted := hposted.resolve_left nofun
        exact ⟨hreading.1, fun v hv => hreading.2.1 v (hposted v hv), hreading.2.2⟩
    | after =>
        rw [hat] at hreading
        exact hreading

/-- What a step of the target leaves alone, if no execution begins or ends with it. -/
theorem TargetStep.frame_other {s s' : Handshake} {l : Label} (h : TargetStep s l s')
    (hbegan : l ≠ .began) (hposted : ∀ v, l ≠ .posted v) (ms : List Mark) : mark ms l = ms := by
  cases h with
  | began => exact absurd rfl hbegan
  | posted v => exact absurd rfl (hposted v)
  | _ => rfl

/-- **A step keeps the invariant**: a delivery writes the size and the bytes while nobody
reads, the target reads them while nobody writes, and the handshake is what keeps the two
apart.  -/
theorem ExchangeOk.step {l : ExchangeLabel} (hmax : maxSize < 2 ^ 32) (hs : ExchangeOk maxSize tr s)
    (hphase : InPhase (shakeMarks tr) s.shake) (h : ExchangeStep numIterations s l s') :
    ExchangeOk maxSize (tr ++ [l]) s' := by
  have houtbox := hs.outbox
  cases h with
  | sized sample hpc hout hcopy =>
      rw [hout] at houtbox
      obtain ⟨hlength, hfilled, -⟩ := houtbox
      have hds : deliveries (tr ++ [.sized]) = deliveries tr := by simp [deliveries, ExchangeLabel.delivered?]
      refine ⟨?_, ?_, ?_, ?_⟩
      · exact ⟨hpc, by rw [hds]; exact hlength, hfilled.storesSize hcopy⟩
      · rw [shakeMarks_other tr rfl]
        exact hs.called
      · rw [shakeMarks_other tr rfl, readings_append]
        exact hs.notBegun
      · rw [shakeMarks_other tr rfl, readings_append, hds]
        exact hs.begun
  | @delivered sample shm hout hcopy =>
      rw [hout] at houtbox
      obtain ⟨hpc, hlength, hsize⟩ := houtbox
      have hds : deliveries (tr ++ [.delivered sample]) = deliveries tr ++ [sample] := by
        simp [deliveries, ExchangeLabel.delivered?]
      refine ⟨⟨hpc, ?_, ?_, hsize.stores hcopy⟩, ?_, ?_, ?_⟩
      · rw [hds, List.length_append, hlength, List.length_singleton]
      · rw [hds, ← hlength]
        exact List.getElem?_concat_length
      · rw [shakeMarks_other tr rfl]
        exact hs.called
      · rw [shakeMarks_other tr rfl, readings_append]
        exact hs.notBegun
      · -- the sample is the next one, and not that of the last execution
        rw [shakeMarks_other tr rfl, readings_append, hds]
        intro hbegun
        have hpos := hs.called (Or.inr hbegun)
        have hold : (deliveries tr ++ [sample])[s.shake.runs - 1]? = (deliveries tr)[s.shake.runs - 1]? :=
          List.getElem?_append_left (by omega)
        show ReadingOk (deliveries tr ++ [sample])[s.shake.runs - 1]? _ _ s.reading
        rw [hold]
        exact hs.begun hbegun
  | @call sample shake hout hcall =>
      rw [hout] at houtbox
      obtain ⟨-, hlength, hsample, hstores⟩ := houtbox
      cases hcall with
      | reach _ hget | reachAgain _ hget | wait _ hget => cases hget
      | call =>
          have hds : deliveries (tr ++ [.shake .called]) = deliveries tr := by
            simp [deliveries, ExchangeLabel.delivered?]
          refine ⟨⟨?_, hstores.filled, fun other hother => ?_⟩, fun _ => Nat.succ_pos _, ?_, ?_⟩
          · rw [hds]
            exact hlength
          · rw [hds] at hother
            cases hsample.symm.trans hother
            exact hstores
          · rw [readings_append]
            exact fun _ => rfl
          · rw [shakeMarks_shake]
            exact fun h => absurd h List.not_mem_nil
  | @fuzzer l shake hout hl hstep =>
      obtain ⟨hruns, hidle, hmarks⟩ := hstep.frame hl
      have hmem : ∀ mk, mk ≠ .released → (mk ∈ mark (shakeMarks tr) l ↔ mk ∈ shakeMarks tr) := by
        intro mk hmk
        rcases hmarks (shakeMarks tr) with hm | hm <;> rw [hm]
        rw [List.mem_append, List.mem_singleton]
        exact or_iff_left hmk
      exact hs.quiet hl hruns hidle (hmem .began nofun) (Or.inr fun v => (hmem (.posted v) nofun).1)
  | @began shake halive hstep =>
      have hreleased := hstep.of_began hphase halive
      have hread : readings tr = [] := hs.notBegun (by rw [hreleased]; simp)
      have hphase' := hstep.inPhase halive hphase
      cases hstep with
      | began htarget hcontrol =>
          have hpc := (hphase'.of_fuzzing halive rfl).2
          obtain ⟨hout, -⟩ := hs.stores hpc
          have hds : deliveries (tr ++ [.shake .began]) = deliveries tr := by
            simp [deliveries, ExchangeLabel.delivered?]
          refine ⟨?_, fun _ => hs.called (Or.inl hpc), ?_, fun _ => ?_⟩
          · rw [hout] at houtbox
            show OutboxOk maxSize _ _ s.outbox
            rw [hout, hds]
            exact houtbox
          · exact fun _ => by rw [readings_append, hread]; rfl
          · refine ⟨by rw [readings_append, hread]; rfl, fun v => ?_⟩
            rw [shakeMarks_shake, hreleased]
            simp [mark]
  | @posted v shake halive hreading hstep =>
      obtain ⟨hpc, -, -, -, hruns, -⟩ := hstep.frame
      refine hs.quiet nofun hruns (fun hidle => hpc.trans hidle) ?_ (Or.inl hreading)
      simp [mark]
  | @target l shake halive hbegan hposted hstep =>
      obtain ⟨hpc, -, -, -, hruns, -⟩ := hstep.frame
      have hmarks := hstep.frame_other hbegan hposted (shakeMarks tr)
      refine hs.quiet ?_ hruns (fun hidle => hpc.trans hidle) (by rw [hmarks])
        (Or.inr fun v => by rw [hmarks]; exact id)
      rintro rfl
      cases hstep
  | @sizeRead bytes halive htarget hreading hread =>
      obtain ⟨hmarks, hpc⟩ := hphase.of_fuzzing halive htarget
      obtain ⟨hout, sample, hsample, hstores⟩ := hs.stores hpc
      have hds : deliveries (tr ++ [.sizeRead]) = deliveries tr := by
        simp [deliveries, ExchangeLabel.delivered?]
      have hbegun := hs.begun (by rw [hmarks]; simp)
      rw [hreading] at hbegun
      refine ⟨?_, ?_, ?_, fun _ => ?_⟩
      · rw [hds]
        exact houtbox
      · rw [shakeMarks_other tr rfl]
        exact hs.called
      · rw [shakeMarks_other tr rfl, readings_append]
        exact hs.notBegun
      · rw [shakeMarks_other tr rfl, readings_append, hds]
        exact ⟨hbegun.1, hbegun.2, sample, hsample, by rw [hstores.read_size hmax hread]⟩
  | @got n block data halive htarget hreading hcopy hread =>
      obtain ⟨hmarks, hpc⟩ := hphase.of_fuzzing halive htarget
      obtain ⟨hout, sample, hsample, hstores⟩ := hs.stores hpc
      have hds : deliveries (tr ++ [.got data]) = deliveries tr := by
        simp [deliveries, ExchangeLabel.delivered?]
      have hbegun := hs.begun (by rw [hmarks]; simp)
      rw [hreading] at hbegun
      refine ⟨?_, ?_, ?_, fun _ => ?_⟩
      · rw [hds]
        exact houtbox
      · rw [shakeMarks_other tr rfl]
        exact hs.called
      · rw [shakeMarks_other tr rfl, hmarks]
        exact fun h => absurd (by simp) h
      · rw [readings_append, hbegun.1, hds]
        exact ⟨sample, hsample, congrArg (fun data => [data]) (hs.got_eq hphase halive htarget hreading
          hcopy hread hsample)⟩

/-- **Every run keeps the invariant**, from the mapping of the memory on, whichever of the
two processes takes its steps when.  -/
theorem exchangeOk_of_run (hmax : maxSize < 2 ^ 32)
    (h : Run (ExchangeStep numIterations) (.init maxSize) tr s) : ExchangeOk maxSize tr s := by
  induction h with
  | refl =>
      refine ⟨⟨rfl, ⟨_, rfl, List.length_replicate⟩, nofun⟩, fun h => ?_, fun _ => rfl, ?_⟩
      · rcases h with h | h
        · exact absurd rfl h
        · exact absurd h List.not_mem_nil
      · exact fun h => absurd h List.not_mem_nil
  | snoc hrun hstep ih => exact ih.step hmax (inPhase_of_exchange hrun) hstep

/-- A `Run` that returns `OK` follows an execution that has posted: release, beginning and
value are all of this `Run`. -/
theorem InPhase.of_returned {ms : List Mark} {s s' : Handshake} (h : InPhase ms s)
    (hstep : FuzzerStep numIterations s (.returned .ok) s') :
    ms = [.released, .began, .posted s.returnValue] := by
  have hphase := h.phase
  cases hstep with
  | reach _ hget | reachAgain _ hget | wait _ hget => cases hget
  | finishOk hpc =>
      rw [hpc] at hphase
      exact hphase.1

/-- **The target reads what was delivered for this `Run`**, in every run of the two
processes, with any number of processes started, however they are interleaved and wherever
the target hangs or ends.  There is one sample for each `Run`, and one more only between two
of them; what `fuzz` reads is the one for the `Run` at hand, up to the size that the target
takes; if `Run` returns `OK`, it was read once since `Run` was called, and nothing else was;
and the memory is not written to while a live target is in `fuzz`. -/
theorem sample_delivered (hmax : maxSize < 2 ^ 32)
    (hrun : Run (ExchangeStep numIterations) (.init maxSize) tr s) :
    ((deliveries tr).length = s.shake.runs ∨
        (s.shake.pc = .idle ∧ (deliveries tr).length = s.shake.runs + 1)) ∧
      (∀ data s', ExchangeStep numIterations s (.got data) s' →
        ∃ sample, (deliveries tr)[s.shake.runs - 1]? = some sample ∧
          data = sample.bytes.take maxSampleSize) ∧
      (∀ s', ExchangeStep numIterations s (.shake (.returned .ok)) s' →
        ∃ sample, (deliveries tr)[s.shake.runs - 1]? = some sample ∧
          readings tr = [sample.bytes.take maxSampleSize]) ∧
      (s.shake.alive = true → s.shake.target = .fuzzing →
        ∀ l s', ExchangeStep numIterations s l s' → s'.shm = s.shm) := by
  have hs := exchangeOk_of_run hmax hrun
  have hphase := inPhase_of_exchange hrun
  refine ⟨?_, ?_, ?_, ?_⟩
  · have houtbox := hs.outbox
    cases hout : s.outbox with
    | empty =>
        rw [hout] at houtbox
        exact Or.inl houtbox.1
    | sized sample =>
        rw [hout] at houtbox
        exact Or.inl houtbox.2.1
    | full sample =>
        rw [hout] at houtbox
        exact Or.inr ⟨houtbox.1, houtbox.2.1⟩
  · intro data s' hstep
    cases hstep with
    | got halive htarget hreading hcopy hread =>
        obtain ⟨-, sample, hsample, -⟩ := hs.stores (hphase.of_fuzzing halive htarget).2
        exact ⟨sample, hsample, hs.got_eq hphase halive htarget hreading hcopy hread hsample⟩
  · intro s' hstep
    have hmarks : shakeMarks tr = [.released, .began, .posted s.shake.returnValue] := by
      cases hstep with
      | fuzzer _ _ hstep => exact hphase.of_returned hstep
      | target _ _ _ hstep => cases hstep
    have hbegun := hs.begun (by rw [hmarks]; simp)
    have hposted : .posted s.shake.returnValue ∈ shakeMarks tr := by
      rw [hmarks]
      simp
    cases hat : s.reading with
    | before =>
        rw [hat] at hbegun
        exact absurd hposted (hbegun.2 _)
    | size n =>
        rw [hat] at hbegun
        exact absurd hposted (hbegun.2.1 _)
    | after =>
        rw [hat] at hbegun
        exact hbegun
  · intro halive htarget l s' hstep
    obtain ⟨-, hpc⟩ := hphase.of_fuzzing halive htarget
    obtain ⟨hout, -⟩ := hs.stores hpc
    cases hstep with
    | sized _ hidle => exact absurd hidle hpc
    | delivered hsized => cases hout.symm.trans hsized
    | _ => rfl

end

/-- A sample of two bytes, in a memory for four: it is delivered, the target is released,
and `fuzz` gets both bytes.  The run is that of both processes up to the read of the target.
-/
theorem sample_delivered_twoBytes : ∃ (tr : List ExchangeLabel) (s s' : Exchange),
    Run (ExchangeStep 1) (.init 4) tr s ∧ ExchangeStep 1 s (.got [1, 2]) s' ∧
      ∃ sample, (deliveries tr)[s.shake.runs - 1]? = some sample ∧
        [1, 2] = sample.bytes.take maxSampleSize := by
  let reached : Handshake := ⟨.reach, true, 0, 0, true, .preFuzzRead, [], [⟨letterK, 1, 1⟩], 1, 1⟩
  let memory : Buffer UInt8 := of [2, 0, 0, 0, 1, 2, 0, 0]
  have hreached : Run (ExchangeStep 1) (.init 4) [.sized, .delivered (Sample.init [1, 2]),
      .shake .called, .shake .silent, .shake .silent, .shake .silent, .shake .silent]
      ⟨reached, memory, .empty, .before⟩ :=
    Run.cons (.sized (Sample.init [1, 2]) rfl rfl rfl) (Run.cons (.delivered rfl rfl)
      (Run.cons (.call rfl (.call rfl)) (Run.cons (.fuzzer nofun nofun (.checkIterations rfl))
      (Run.cons (.fuzzer nofun nofun (.start rfl)) (Run.cons (.target rfl nofun nofun (.preFuzz rfl))
      (Run.single (.target rfl nofun nofun (.reached rfl))))))))
  let fuzzing : Handshake := ⟨.wait, true, 0, 0, true, .fuzzing, [], [], 1, 1⟩
  have hbegan : Run (ExchangeStep 1) ⟨reached, memory, .empty, .before⟩
      [.shake (.status ⟨letterK, 1, 1⟩), .shake .released, .shake .began]
      ⟨fuzzing, memory, .empty, .before⟩ :=
    Run.cons (.fuzzer nofun nofun (.reach rfl (.byte rfl)))
      (Run.cons (.fuzzer nofun nofun (.release rfl)) (Run.single (.began rfl (.began rfl rfl))))
  have hread : ExchangeStep 1 ⟨fuzzing, memory, .empty, .before⟩ .sizeRead
      ⟨fuzzing, memory, .empty, .size 2⟩ := @ExchangeStep.sizeRead 1 _ [2, 0, 0, 0] rfl rfl rfl rfl
  have hrun := (hreached.trans hbegan).snoc hread
  have hgot := @ExchangeStep.got 1 ⟨fuzzing, memory, .empty, .size 2⟩ 2 (of [1, 2]) [1, 2]
    rfl rfl rfl rfl rfl
  exact ⟨_, _, _, hrun, hgot, (sample_delivered (by decide) hrun).2.1 _ _ hgot⟩

end SanCov
end Jackalope
