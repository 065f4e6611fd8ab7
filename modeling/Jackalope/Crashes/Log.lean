/-
# Counting and naming crashes

`Fuzzer::RunSampleAndGetCoverage` and `CoverageServer::ReportCrash` count crashes in
the same way, under a `crash_mutex`: a table from descriptions to counts that says
whether a crash is saved and under which number.  The file is written later, by the
fuzzer under another mutex, by the server before it unlocks.

`LogStep` is what both have in common: some actor counts a crash, some actor writes
the file it was given a number for; and a process may be stopped and resumed, which
leaves the files and nothing else (neither `SaveState` writes the table).  `Logged` is
what holds of it in every order.
-/

import Jackalope.Foundation.Run
import Jackalope.Names
import Jackalope.Sample
import Mathlib.Data.Finset.Card
import Mathlib.Data.Finset.Dedup

namespace Jackalope
namespace Crashes

open Foundation

/-- What `crash_mutex` protects. -/
structure CrashTable where
  numCrashes : ℕ
  numUniqueCrashes : ℕ
  uniqueCrashes : Bytes → Option ℕ

/-- No crashes. -/
def CrashTable.empty : CrashTable := ⟨0, 0, fun _ => none⟩

/-- The section under `crash_mutex`: the table afterwards, and `duplicates` if the
crash should be saved.  `limit` is the constant `MAX_…IDENTICAL_CRASHES`. -/
def CrashTable.count (limit : ℕ) (t : CrashTable) (crashDesc : Bytes) : CrashTable × Option ℕ :=
  match t.uniqueCrashes crashDesc with
  | none =>
      (⟨t.numCrashes + 1, t.numUniqueCrashes + 1,
        Function.update t.uniqueCrashes crashDesc (some 1)⟩, some 1)
  | some n =>
      if n < limit then
        (⟨t.numCrashes + 1, t.numUniqueCrashes,
          Function.update t.uniqueCrashes crashDesc (some (n + 1))⟩, some (n + 1))
      else ({ t with numCrashes := t.numCrashes + 1 }, none)

/-- The table after these descriptions were counted. -/
structure CrashTable.Counts (limit : ℕ) (t : CrashTable) (descs : List Bytes) : Prop where
  numCrashes : t.numCrashes = descs.length
  numUniqueCrashes : t.numUniqueCrashes = descs.toFinset.card
  uniqueCrashes : ∀ d, t.uniqueCrashes d =
    if descs.count d = 0 then none else some (min (descs.count d) limit)

/-- An empty table has counted nothing.  -/
theorem CrashTable.counts_empty (limit : ℕ) : CrashTable.empty.Counts limit [] :=
  ⟨rfl, rfl, fun _ => rfl⟩

/-- One more occurrence. -/
theorem count_concat (descs : List Bytes) (d e : Bytes) :
    (descs ++ [d]).count e = descs.count e + if e = d then 1 else 0 := by
  rw [List.count_append, List.count_singleton]
  by_cases he : e = d
  · subst he
    simp
  · rw [if_neg he, if_neg (by simpa using fun h => he h.symm)]

/-- One more description adds one to the number of different ones exactly if it has not been
there before.  This is the step of `num_unique_crashes`. -/
theorem card_concat (descs : List Bytes) (d : Bytes) :
    (descs ++ [d]).toFinset.card =
      descs.toFinset.card + if descs.count d = 0 then 1 else 0 := by
  have hins : (descs ++ [d]).toFinset = insert d descs.toFinset := by
    ext e
    simp
  rw [hins]
  split
  · rename_i h0
    rw [Finset.card_insert_of_notMem]
    rw [List.mem_toFinset]
    exact List.count_eq_zero.1 h0
  · rename_i h0
    rw [Finset.insert_eq_of_mem]
    · rfl
    · rw [List.mem_toFinset]
      exact List.count_pos_iff.1 (Nat.pos_of_ne_zero h0)

/-- **Counting one more.**  The crash gets the number of its description so far plus
one, up to the limit. -/
theorem CrashTable.Counts.count {limit : ℕ} (hlimit : 0 < limit) {t : CrashTable}
    {descs : List Bytes} (h : t.Counts limit descs) (d : Bytes) :
    (t.count limit d).1.Counts limit (descs ++ [d]) ∧
      (t.count limit d).2 =
        if descs.count d < limit then some (descs.count d + 1) else none := by
  have hu := h.uniqueCrashes d
  have hlength : (descs ++ [d]).length = t.numCrashes + 1 := by
    rw [List.length_append, h.numCrashes]
    rfl
  -- the entry of `d` is updated, the others are what they were
  have hupdate : ∀ v, some v = some (min (descs.count d + 1) limit) → ∀ e,
      Function.update t.uniqueCrashes d (some v) e =
        if (descs ++ [d]).count e = 0 then none else some (min ((descs ++ [d]).count e) limit) := by
    rintro v hv e
    rw [count_concat, Function.update_apply]
    by_cases he : e = d
    · subst he
      rw [if_pos rfl, if_pos rfl, if_neg (Nat.succ_ne_zero _), hv]
    · rw [if_neg he, if_neg he, h.uniqueCrashes e]
      rfl
  by_cases h0 : descs.count d = 0
  · rw [if_pos h0] at hu
    have hc : t.count limit d = (⟨t.numCrashes + 1, t.numUniqueCrashes + 1,
        Function.update t.uniqueCrashes d (some 1)⟩, some 1) := by
      unfold CrashTable.count
      rw [hu]
    rw [hc, h0, if_pos hlimit]
    refine ⟨⟨hlength.symm, ?_, hupdate 1 ?_⟩, rfl⟩
    · rw [card_concat, if_pos h0, h.numUniqueCrashes]
    · rw [h0, Nat.min_eq_left (by omega)]
  · rw [if_neg h0] at hu
    have hcard : t.numUniqueCrashes = (descs ++ [d]).toFinset.card := by
      rw [card_concat, if_neg h0, h.numUniqueCrashes]
      rfl
    by_cases hlt : descs.count d < limit
    · have hc : t.count limit d = (⟨t.numCrashes + 1, t.numUniqueCrashes,
          Function.update t.uniqueCrashes d (some (descs.count d + 1))⟩,
            some (descs.count d + 1)) := by
        unfold CrashTable.count
        rw [hu, Nat.min_eq_left hlt.le]
        exact if_pos hlt
      rw [hc, if_pos hlt]
      refine ⟨⟨hlength.symm, hcard, hupdate _ ?_⟩, rfl⟩
      rw [Nat.min_eq_left (by omega)]
    · have hc : t.count limit d = ({ t with numCrashes := t.numCrashes + 1 }, none) := by
        unfold CrashTable.count
        rw [hu]
        exact if_neg (by omega)
      rw [hc, if_neg hlt]
      refine ⟨⟨hlength.symm, hcard, fun e => ?_⟩, rfl⟩
      rw [count_concat]
      by_cases he : e = d
      · subst he
        rw [if_pos rfl, if_neg (Nat.succ_ne_zero _)]
        show t.uniqueCrashes e = _
        rw [hu, Nat.min_eq_right (by omega), Nat.min_eq_right (by omega)]
      · rw [if_neg he]
        exact h.uniqueCrashes e

/-! ### The log -/

/-- A crash that got a number and is not written yet. -/
structure Pending where
  crashDesc : Bytes
  duplicates : ℕ
  sample : Sample

/-- The table, what each actor is about to write, and the files in the crash
directory. -/
structure CrashLog (α : Type) where
  table : CrashTable
  pending : α → Option Pending
  files : Bytes → Option Sample

/-- What can be seen: a crash with this description and sample is counted, or the file
with this description and number is written. -/
inductive CrashEvent
  | counted (crashDesc : Bytes) (sample : Sample)
  | saved (crashDesc : Bytes) (duplicates : ℕ)
  /-- The process was stopped, and another one resumed from what is on disk. -/
  | restarted
  deriving DecidableEq

/-- `sample.Save(outfile.c_str())` for the file of this crash. -/
def saveFile (files : Bytes → Option Sample) (crash : Pending) : Bytes → Option Sample :=
  Function.update files (crashFilename crash.crashDesc crash.duplicates) (some crash.sample)

variable {α : Type}

/-- A new process over these files. -/
def CrashLog.init (files : Bytes → Option Sample) : CrashLog α :=
  ⟨CrashTable.empty, fun _ => none, files⟩

section

variable [DecidableEq α]

/-- One step. -/
inductive LogStep (limit : ℕ) : CrashLog α → CrashEvent → CrashLog α → Prop
  | count {s : CrashLog α} {a : α} (d : Bytes) (sample : Sample) : s.pending a = none →
      LogStep limit s (.counted d sample) { s with
        table := (s.table.count limit d).1
        pending := Function.update s.pending a
          ((s.table.count limit d).2.map fun k => ⟨d, k, sample⟩) }
  | save {s : CrashLog α} {a : α} {crash : Pending} : s.pending a = some crash →
      LogStep limit s (.saved crash.crashDesc crash.duplicates) { s with
        pending := Function.update s.pending a none
        files := saveFile s.files crash }
  | restart (s : CrashLog α) : LogStep limit s .restarted (CrashLog.init s.files)

/-- The events since the process was started. -/
def session (events : List CrashEvent) : List CrashEvent :=
  events.foldl (fun es e => if e = .restarted then [] else es ++ [e]) []

/-- An event that is not a restart is one more of the session that is going on.  -/
theorem session_snoc {es : List CrashEvent} {e : CrashEvent} (h : e ≠ .restarted) :
    session (es ++ [e]) = session es ++ [e] := by
  rw [session, List.foldl_append, ← session]
  exact if_neg h

/-- A restart begins a session of which nothing has happened yet.  -/
theorem session_restarted (es : List CrashEvent) : session (es ++ [.restarted]) = [] := by
  rw [session, List.foldl_append]
  rfl

/-- The descriptions that were counted. -/
def descs (events : List CrashEvent) : List Bytes :=
  events.filterMap fun e => match e with
    | .counted d _ => some d
    | _ => none

/-- The description of a crash that is counted is one more on record.  -/
theorem descs_counted (es : List CrashEvent) (d : Bytes) (sample : Sample) :
    descs (es ++ [.counted d sample]) = descs es ++ [d] := List.filterMap_append

/-- Writing a file adds no description: that of the crash is on record since it was counted.
-/
theorem descs_saved (es : List CrashEvent) (d : Bytes) (k : ℕ) :
    descs (es ++ [.saved d k]) = descs es := by
  rw [descs, List.filterMap_append]
  exact List.append_nil _

/-- The number is one that the description has been given. -/
def Given (limit : ℕ) (events : List CrashEvent) (d : Bytes) (k : ℕ) : Prop :=
  1 ≤ k ∧ k ≤ min ((descs events).count d) limit

instance (limit : ℕ) (events : List CrashEvent) (d : Bytes) (k : ℕ) :
    Decidable (Given limit events d k) := instDecidableAnd

/-- **The invariant.**  The table counts what was counted since the start of the
process; every number that was given out is pending with one actor or was written
once, and no other number was written. -/
structure Logged (limit : ℕ) (events : List CrashEvent) (s : CrashLog α) : Prop where
  table : s.table.Counts limit (descs (session events))
  given : ∀ a crash, s.pending a = some crash →
    Given limit (session events) crash.crashDesc crash.duplicates
  notSaved : ∀ a crash, s.pending a = some crash →
    (session events).count (.saved crash.crashDesc crash.duplicates) = 0
  oneActor : ∀ a b crash crash', s.pending a = some crash → s.pending b = some crash' →
    crash.crashDesc = crash'.crashDesc → crash.duplicates = crash'.duplicates → a = b
  saved : ∀ d k, (∀ a crash, s.pending a = some crash →
      ¬ (crash.crashDesc = d ∧ crash.duplicates = k)) →
    (session events).count (.saved d k) = if Given limit (session events) d k then 1 else 0

end

/-- A process that starts has counted no crash and is about to write no file, whatever the
directory holds by then; of the events before only those of its session matter, and there
are none.  -/
theorem Logged.init [DecidableEq α] (limit : ℕ) {events : List CrashEvent}
    (h : session events = []) (files : Bytes → Option Sample) :
    Logged limit events (CrashLog.init files : CrashLog α) := by
  refine ⟨?_, nofun, nofun, nofun, fun d k _ => ?_⟩
  · rw [h]
    exact CrashTable.counts_empty limit
  · rw [h, if_neg]
    · rfl
    · rintro ⟨hk, hle⟩
      rw [descs, List.filterMap_nil, List.count_nil, Nat.zero_min] at hle
      omega

/-- A number that one more count gives out is one that was given out before, or the next one
of this description, if that is not above the limit.  -/
theorem given_counted {limit : ℕ} {es : List CrashEvent} {d e : Bytes} {sample : Sample} {k : ℕ} :
    Given limit (es ++ [.counted d sample]) e k ↔
      Given limit es e k ∨ (e = d ∧ k = (descs es).count d + 1 ∧ k ≤ limit) := by
  rw [Given, Given, descs_counted, count_concat]
  by_cases he : e = d
  · subst he
    simp only [if_true, true_and]
    omega
  · rw [if_neg he, Nat.add_zero]
    simp [he]

/-- What numbers were given is a matter of what was counted, so it does not change when a
file is written.  -/
theorem given_saved {limit : ℕ} {es : List CrashEvent} {d e : Bytes} {j k : ℕ} :
    Given limit (es ++ [.saved d j]) e k ↔ Given limit es e k := by
  rw [Given, Given, descs_saved]

/-- One more event in a count of saves. -/
theorem count_saved_counted (es : List CrashEvent) (d e : Bytes) (sample : Sample) (k : ℕ) :
    (es ++ [CrashEvent.counted d sample]).count (CrashEvent.saved e k) =
      es.count (CrashEvent.saved e k) := by
  rw [List.count_append, List.count_singleton]
  rfl

/-- How often a file was written, after one more.  -/
theorem count_saved_saved (es : List CrashEvent) (d e : Bytes) (j k : ℕ) :
    (es ++ [CrashEvent.saved d j]).count (CrashEvent.saved e k) =
      es.count (CrashEvent.saved e k) + if d = e ∧ j = k then 1 else 0 := by
  rw [List.count_append, List.count_singleton]
  simp

section

variable [DecidableEq α] {limit : ℕ} {events : List CrashEvent} {s s' : CrashLog α}

/-- A number that is given out and that nobody has yet is the next one: the table goes from
the count of the description to one more, and the thread that reported the crash holds the
number.  Below the limit the number is new; at the limit none is given out.  -/
theorem Logged.count {a : α} (h : Logged limit events s) (hlimit : 0 < limit) (d : Bytes)
    (sample : Sample) (ha : s.pending a = none) :
    Logged limit (events ++ [.counted d sample]) { s with
      table := (s.table.count limit d).1
      pending := Function.update s.pending a
        ((s.table.count limit d).2.map fun k => ⟨d, k, sample⟩) } := by
  obtain ⟨htable, hk⟩ := h.table.count hlimit d
  have hsession : session (events ++ [.counted d sample]) =
      session events ++ [.counted d sample] := session_snoc nofun
  -- what is pending afterwards was pending before, or is the new crash
  have hpending : ∀ b crash, Function.update s.pending a
      ((s.table.count limit d).2.map fun k => (⟨d, k, sample⟩ : Pending)) b = some crash →
      (s.pending b = some crash ∧ b ≠ a) ∨ (b = a ∧ (descs (session events)).count d < limit ∧
        crash = ⟨d, (descs (session events)).count d + 1, sample⟩) := by
    intro b crash hb
    rw [Function.update_apply, hk] at hb
    split at hb
    · split at hb
      · cases hb
        exact Or.inr ⟨by assumption, by assumption, rfl⟩
      · cases hb
    · exact Or.inl ⟨hb, by assumption⟩
  -- the new number was not given out before
  have hnew : ∀ b crash, s.pending b = some crash →
      ¬ (crash.crashDesc = d ∧ crash.duplicates = (descs (session events)).count d + 1) := by
    rintro b crash hb ⟨hd, hdup⟩
    have := (h.given b crash hb).2
    rw [hd, hdup] at this
    omega
  have hfresh : (session events).count
      (CrashEvent.saved d ((descs (session events)).count d + 1)) = 0 := by
    rw [h.saved d _ hnew, if_neg]
    rintro ⟨-, hle⟩
    omega
  refine ⟨?_, ?_, ?_, ?_, ?_⟩
  · rw [hsession, descs_counted]
    exact htable
  · intro b crash hb
    rw [hsession, given_counted]
    rcases hpending b crash hb with ⟨hb, -⟩ | ⟨-, hlt, rfl⟩
    · exact Or.inl (h.given b crash hb)
    · exact Or.inr ⟨rfl, rfl, hlt⟩
  · intro b crash hb
    rw [hsession, count_saved_counted]
    rcases hpending b crash hb with ⟨hb, -⟩ | ⟨-, -, rfl⟩
    · exact h.notSaved b crash hb
    · exact hfresh
  · intro b c crash crash' hb hc hd hdup
    rcases hpending b crash hb with ⟨hb, hne⟩ | ⟨rfl, -, rfl⟩ <;>
      rcases hpending c crash' hc with ⟨hc, hne'⟩ | ⟨rfl, -, rfl⟩
    · exact h.oneActor b c crash crash' hb hc hd hdup
    · exact absurd ⟨hd, hdup⟩ (hnew b crash ‹_›)
    · exact absurd ⟨hd.symm, hdup.symm⟩ (hnew c crash' ‹_›)
    · rfl
  · intro e k hnone
    rw [hsession, count_saved_counted]
    have hbefore : ∀ b crash, s.pending b = some crash →
        ¬ (crash.crashDesc = e ∧ crash.duplicates = k) := by
      intro b crash hb
      have hne : b ≠ a := fun hba => by rw [hba, ha] at hb; cases hb
      exact hnone b crash ((Function.update_of_ne hne _ _).trans hb)
    rw [h.saved e k hbefore]
    refine if_congr ?_ rfl rfl
    rw [given_counted, or_iff_left]
    rintro ⟨rfl, rfl, hle⟩
    refine hnone a ⟨e, (descs (session events)).count e + 1, sample⟩ ?_ ⟨rfl, rfl⟩
    refine (Function.update_self a _ _).trans ?_
    rw [hk, if_pos (by omega)]
    rfl

/-- **A section that writes a file**: the number it writes was given and not written yet,
since the crash was pending, so no number is written twice.  -/
theorem Logged.save {a : α} {crash : Pending} (h : Logged limit events s)
    (ha : s.pending a = some crash) :
    Logged limit (events ++ [.saved crash.crashDesc crash.duplicates]) { s with
      pending := Function.update s.pending a none
      files := saveFile s.files crash } := by
  have hsession : session (events ++ [.saved crash.crashDesc crash.duplicates]) =
      session events ++ [.saved crash.crashDesc crash.duplicates] := session_snoc nofun
  have hpending : ∀ b other, Function.update s.pending a none b = some other →
      s.pending b = some other ∧ b ≠ a := by
    intro b other hb
    rw [Function.update_apply] at hb
    split at hb
    · cases hb
    · exact ⟨hb, by assumption⟩
  refine ⟨?_, ?_, ?_, ?_, ?_⟩
  · rw [hsession, descs_saved]
    exact h.table
  · intro b other hb
    rw [hsession, given_saved]
    exact h.given b other (hpending b other hb).1
  · intro b other hb
    obtain ⟨hb, hne⟩ := hpending b other hb
    rw [hsession, count_saved_saved, h.notSaved b other hb, if_neg]
    rintro ⟨hd, hdup⟩
    exact hne (h.oneActor b a other crash hb ha hd.symm hdup.symm)
  · intro b c other other' hb hc
    exact h.oneActor b c other other' (hpending b other hb).1 (hpending c other' hc).1
  · intro e k hnone
    rw [hsession, count_saved_saved, if_congr given_saved rfl rfl]
    by_cases heq : crash.crashDesc = e ∧ crash.duplicates = k
    · obtain ⟨rfl, rfl⟩ := heq
      rw [h.notSaved a crash ha, if_pos ⟨rfl, rfl⟩, if_pos (h.given a crash ha)]
    · rw [if_neg heq, Nat.add_zero]
      refine h.saved e k fun b other hb => ?_
      by_cases hba : b = a
      · subst hba
        cases ha.symm.trans hb
        exact heq
      · exact hnone b other ((Function.update_of_ne hba _ _).trans hb)

/-- **One step keeps the invariant.** -/
theorem Logged.step {e : CrashEvent} (hlimit : 0 < limit) (h : Logged limit events s)
    (hst : LogStep limit s e s') : Logged limit (events ++ [e]) s' := by
  cases hst with
  | count d sample ha => exact h.count hlimit d sample ha
  | save ha => exact h.save ha
  | restart => exact Logged.init limit (session_restarted events) s.files

/-- **Every run keeps the invariant.** -/
theorem Logged.run {files : Bytes → Option Sample} (hlimit : 0 < limit)
    (h : Run (LogStep limit) (CrashLog.init files : CrashLog α) events s) :
    Logged limit events s :=
  h.invariant (Logged limit) (Logged.init limit rfl files) fun _ _ _ _ hI => hI.step hlimit

omit [DecidableEq α] in
/-- A number is pending, or its file was written once if it was given out. -/
theorem Logged.count_saved (h : Logged limit events s) (d : Bytes) (k : ℕ) :
    (session events).count (.saved d k) = 0 ∨
      ((session events).count (.saved d k) = 1 ∧ Given limit (session events) d k) := by
  by_cases hp : ∃ a crash, s.pending a = some crash ∧ crash.crashDesc = d ∧ crash.duplicates = k
  · obtain ⟨a, crash, hcrash, rfl, rfl⟩ := hp
    exact Or.inl (h.notSaved a crash hcrash)
  · rw [h.saved d k fun a crash hcrash heq => hp ⟨a, crash, hcrash, heq⟩]
    split
    · exact Or.inr ⟨rfl, by assumption⟩
    · exact Or.inl rfl

end

/-- A session goes on until the next restart: events without one are added to those of the
session that is under way.  -/
theorem session_append (q : List CrashEvent) {es : List CrashEvent} (h : .restarted ∉ es) :
    session (q ++ es) = session q ++ es := by
  induction es using List.reverseRecOn with
  | nil => rw [List.append_nil, List.append_nil]
  | append_singleton es e ih =>
      have he : e ≠ .restarted := fun heq => h (by simp [heq])
      rw [← List.append_assoc, session_snoc he, ih fun hm => h (List.mem_append_left _ hm),
        List.append_assoc]

/-- Without a restart the session is everything. -/
theorem session_eq {events : List CrashEvent} (h : .restarted ∉ events) :
    session events = events := session_append [] h

end Crashes
end Jackalope
