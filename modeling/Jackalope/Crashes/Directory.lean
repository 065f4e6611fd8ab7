/-
# The crash directory

`Log` says which numbers crashes get and how often a file is written.  Here is what is
in the files.  The samples that were counted under a description are numbered from 1 in
the order in which `crash_mutex` saw them; the file `crash_desc + "_" + k` holds the
`k`-th of them, and a file that no crash was given stays what it was (`Contents`).

Across sessions the numbers begin again, over the same directory.  `NumbersFree` is when
that does no harm: then every file is written once over all sessions (`saved_once`) and
keeps its contents (`files_kept`).
-/

import Jackalope.Crashes.Log

namespace Jackalope
namespace Crashes

open Foundation

variable {α : Type}

/-! ### What is on disk -/

/-- The samples that were counted under this description, the oldest first. -/
def samplesOf (d : Bytes) (events : List CrashEvent) : List Sample :=
  events.filterMap fun e => match e with
    | .counted e sample => if e = d then some sample else none
    | _ => none

/-- A crash that is counted adds its sample behind those of the same description, and to no
other list.  -/
theorem samplesOf_counted (d e : Bytes) (es : List CrashEvent) (sample : Sample) :
    samplesOf d (es ++ [.counted e sample]) =
      if e = d then samplesOf d es ++ [sample] else samplesOf d es := by
  rw [samplesOf, List.filterMap_append, ← samplesOf]
  by_cases he : e = d
  · rw [if_pos he]
    simp [he]
  · rw [if_neg he]
    simp [he]

/-- Saving does not count: the sample was in the list since the section before.  -/
theorem samplesOf_saved (d e : Bytes) (es : List CrashEvent) (k : ℕ) :
    samplesOf d (es ++ [.saved e k]) = samplesOf d es := by
  rw [samplesOf, List.filterMap_append]
  exact List.append_nil _

/-- A description has been counted with as many samples as it has been counted: the list of
its samples and the list of all descriptions are read off the same events.  -/
theorem length_samplesOf (d : Bytes) (es : List CrashEvent) :
    (samplesOf d es).length = (descs es).count d := by
  induction es using List.reverseRecOn with
  | nil => rfl
  | append_singleton es e ih =>
      cases e with
      | counted e sample =>
          rw [samplesOf_counted, descs_counted, count_concat, ← ih]
          by_cases he : e = d
          · rw [if_pos he, if_pos he.symm, List.length_append, List.length_singleton]
          · rw [if_neg he, if_neg (Ne.symm he), Nat.add_zero]
      | saved e k => rw [samplesOf_saved, descs_saved, ih]
      | restarted =>
          have hdescs : descs (es ++ [.restarted]) = descs es := by
            rw [descs, List.filterMap_append]
            exact List.append_nil _
          have hsamples : samplesOf d (es ++ [.restarted]) = samplesOf d es := by
            rw [samplesOf, List.filterMap_append]
            exact List.append_nil _
          rw [hdescs, hsamples, ih]

/-- The `k`-th sample that was counted under the description, counting from 1. -/
def Numbered (events : List CrashEvent) (d : Bytes) (k : ℕ) (sample : Sample) : Prop :=
  1 ≤ k ∧ (samplesOf d events)[k - 1]? = some sample

/-- A number stands for one sample. -/
theorem Numbered.unique {events : List CrashEvent} {d : Bytes} {k : ℕ} {sample sample' : Sample}
    (h : Numbered events d k sample) (h' : Numbered events d k sample') : sample = sample' :=
  Option.some.inj (h.2.symm.trans h'.2)

/-- What comes later does not change what a number stands for, as long as the table is not
lost: only a restart begins to count again.  -/
theorem Numbered.snoc {events : List CrashEvent} {d : Bytes} {k : ℕ} {sample : Sample}
    (h : Numbered events d k sample) {e : CrashEvent} (he : e ≠ .restarted) :
    Numbered (events ++ [e]) d k sample := by
  refine ⟨h.1, ?_⟩
  cases e with
  | counted e other =>
      rw [samplesOf_counted]
      split
      · rw [List.getElem?_append_left (List.getElem?_eq_some_iff.1 h.2).1, h.2]
      · exact h.2
  | saved e j =>
      rw [samplesOf_saved]
      exact h.2
  | restarted => exact absurd rfl he

/-- **The directory of a session.**  `before` is what it held when the process started.
A crash that waits for its file is the one its number stands for, a file that was written
holds the sample its number stands for, and no other file was touched. -/
structure Contents (before : Bytes → Option Sample) (events : List CrashEvent)
    (s : CrashLog α) : Prop where
  pending : ∀ a crash, s.pending a = some crash →
    Numbered events crash.crashDesc crash.duplicates crash.sample
  saved : ∀ d k, .saved d k ∈ events →
    ∃ sample, Numbered events d k sample ∧ s.files (crashFilename d k) = some sample
  untouched : ∀ name, (∀ d k, .saved d k ∈ events → name ≠ crashFilename d k) →
    s.files name = before name

/-- **What a step does to the directory** is what its label says: the file of a `saved`
label is written, and with any other label no file changes. -/
theorem LogStep.files [DecidableEq α] {limit : ℕ} {s s' : CrashLog α} {e : CrashEvent}
    (h : LogStep limit s e s') :
    (∃ a crash, s.pending a = some crash ∧ e = .saved crash.crashDesc crash.duplicates ∧
      s'.files = saveFile s.files crash) ∨
    ((∀ d k, e ≠ .saved d k) ∧ s'.files = s.files) := by
  cases h with
  | count d sample ha => exact Or.inr ⟨nofun, rfl⟩
  | @save a crash ha => exact Or.inl ⟨a, crash, ha, rfl, rfl⟩
  | restart => exact Or.inr ⟨nofun, rfl⟩

/-- A file that no label of the run names is what it was: the log writes to the directory
only by saving, and says so.  -/
theorem LogStep.run_files [DecidableEq α] {limit : ℕ} {s s' : CrashLog α} {tr : List CrashEvent}
    (h : Run (LogStep limit) s tr s') {name : Bytes}
    (hname : ∀ d k, .saved d k ∈ tr → name ≠ crashFilename d k) : s'.files name = s.files name := by
  induction h with
  | refl => rfl
  | @snoc tr t e u _ hst ih =>
      have ht := ih fun d k hm => hname d k (List.mem_append_left _ hm)
      rcases hst.files with ⟨a, crash, -, rfl, hfiles⟩ | ⟨-, hfiles⟩
      · have hne : name ≠ crashFilename crash.crashDesc crash.duplicates :=
          hname _ _ (List.mem_append_right _ (List.mem_singleton_self _))
        rw [hfiles, saveFile, Function.update_of_ne hne, ht]
      · rw [hfiles, ht]

section

variable [DecidableEq α] {limit : ℕ} {events : List CrashEvent} {s s' : CrashLog α}
  {before : Bytes → Option Sample}

/-- A crash that gets a number gets the next one, and its sample is the newest of its
description.  Nothing is written yet: the thread or the handler that reported it holds the
number until it saves the file.  -/
theorem Contents.count {a : α} (h : Contents before events s) (hlog : Logged limit events s)
    (hlimit : 0 < limit) (hsession : .restarted ∉ events) (d : Bytes) (sample : Sample) :
    Contents before (events ++ [.counted d sample]) { s with
      table := (s.table.count limit d).1
      pending := Function.update s.pending a
        ((s.table.count limit d).2.map fun k => ⟨d, k, sample⟩) } := by
  have hk := (hlog.table.count hlimit d).2
  rw [session_eq hsession] at hk
  have hsaved : ∀ {e k}, CrashEvent.saved e k ∈ events ++ [.counted d sample] →
      .saved e k ∈ events := fun hm => by simpa using hm
  refine ⟨fun b crash hb => ?_, fun e k hm => ?_, fun name hname => ?_⟩
  · dsimp only at hb
    rw [Function.update_apply, hk] at hb
    split at hb
    · split at hb
      · cases hb
        refine ⟨Nat.le_add_left 1 _, ?_⟩
        rw [samplesOf_counted, if_pos rfl, Nat.add_sub_cancel, ← length_samplesOf]
        exact List.getElem?_concat_length
      · cases hb
    · exact (h.pending b crash hb).snoc nofun
  · obtain ⟨found, hnumbered, hfile⟩ := h.saved e k (hsaved hm)
    exact ⟨found, hnumbered.snoc nofun, hfile⟩
  · exact h.untouched name fun e k hm => hname e k (List.mem_append_left _ hm)

/-- **A section that writes a file keeps the contents.** The pending crash was counted with
its sample, as the one with this number, so what is written to the path is what the list has
at that place; a path that was written before is either another one or gets the same number
again.  -/
theorem Contents.save {a : α} {crash : Pending} (h : Contents before events s)
    (ha : s.pending a = some crash) :
    Contents before (events ++ [.saved crash.crashDesc crash.duplicates]) { s with
      pending := Function.update s.pending a none
      files := saveFile s.files crash } := by
  have hcrash := h.pending a crash ha
  refine ⟨fun b other hb => ?_, fun e k hm => ?_, fun name hname => ?_⟩
  · dsimp only at hb
    rw [Function.update_apply] at hb
    split at hb
    · cases hb
    · exact (h.pending b other hb).snoc nofun
  · by_cases heq : e = crash.crashDesc ∧ k = crash.duplicates
    · obtain ⟨rfl, rfl⟩ := heq
      exact ⟨crash.sample, hcrash.snoc nofun, Function.update_self ..⟩
    · -- another file, which was written earlier
      have hne : crashFilename e k ≠ crashFilename crash.crashDesc crash.duplicates :=
        fun hname => heq (crashFilename_inj.1 hname)
      have hold : .saved e k ∈ events := by
        rcases List.mem_append.1 hm with hm | hm
        · exact hm
        · cases List.mem_singleton.1 hm
          exact absurd ⟨rfl, rfl⟩ heq
      obtain ⟨found, hnumbered, hfile⟩ := h.saved e k hold
      exact ⟨found, hnumbered.snoc nofun, (Function.update_of_ne hne _ _).trans hfile⟩
  · have hne := hname _ _ (List.mem_append_right _ (List.mem_singleton_self _))
    refine (Function.update_of_ne hne _ _).trans ?_
    exact h.untouched name fun e k hm => hname e k (List.mem_append_left _ hm)

/-- **Every session keeps the directory**: after each of its runs it has what was there
before, and the file of each number that was saved, with the sample that the number stands
for.  -/
theorem Contents.run (hlimit : 0 < limit)
    (h : Run (LogStep limit) (CrashLog.init before : CrashLog α) events s)
    (hsession : .restarted ∉ events) : Contents before events s := by
  induction h with
  | refl => exact ⟨nofun, nofun, fun _ _ => rfl⟩
  | @snoc tr t e u hrun hst ih =>
      have hbefore : .restarted ∉ tr := fun hm => hsession (List.mem_append_left _ hm)
      have ht := ih hbefore
      cases hst with
      | count d sample ha =>
          exact ht.count (Logged.run hlimit hrun) hlimit hbefore d sample
      | save ha => exact ht.save ha
      | restart => exact absurd (List.mem_append_right _ (List.mem_singleton_self _)) hsession

end

/-! ### Files across sessions -/

/-- The events since the last restart do not depend on what was before it: they are what
follows the last `.restarted` of the whole trace.  -/
theorem session_restart {es : List CrashEvent} (h : .restarted ∈ es) :
    ∃ q, es = q ++ .restarted :: session es := by
  induction es using List.reverseRecOn with
  | nil => cases h
  | append_singleton es e ih =>
      by_cases he : e = .restarted
      · subst he
        exact ⟨es, by rw [session_restarted]⟩
      · have hmem : .restarted ∈ es := by
          rcases List.mem_append.1 h with h | h
          · exact h
          · exact absurd (List.mem_singleton.1 h).symm he
        obtain ⟨q, hq⟩ := ih hmem
        refine ⟨q, ?_⟩
        rw [session_snoc he]
        conv_lhs => rw [hq]
        simp

/-- What is before the last restart does not show in the session. -/
theorem session_append_restarted (q es : List CrashEvent) (h : .restarted ∉ es) :
    session (q ++ .restarted :: es) = es := by
  rw [← List.singleton_append, ← List.append_assoc, session_append _ h, session_restarted,
    List.nil_append]

/-- The events of the last session are those behind the last restart, so there is no restart
among them.  -/
theorem restarted_notMem_session (es : List CrashEvent) : .restarted ∉ session es := by
  induction es using List.reverseRecOn with
  | nil => exact nofun
  | append_singleton es e ih =>
      by_cases he : e = .restarted
      · subst he
        rw [session_restarted]
        exact nofun
      · rw [session_snoc he]
        simp [ih, Ne.symm he]

/-- An earlier session wrote the crash file of this description and number. -/
def SavedEarlier (events : List CrashEvent) (d : Bytes) (k : ℕ) : Prop :=
  ∃ a b, events = a ++ b ∧ .saved d k ∈ a ∧ .restarted ∈ b

/-- A session wrote to a crash file that an earlier session had written. -/
def Overwrites (events : List CrashEvent) : Prop :=
  ∃ a d k b, events = a ++ .saved d k :: b ∧ ∃ e j, SavedEarlier a e j ∧
    crashFilename e j = crashFilename d k

/-- Whenever a crash is counted, the number it gets within the session was not used
for its description by an earlier session. -/
def NumbersFree (limit : ℕ) (events : List CrashEvent) : Prop :=
  ∀ a d sample b, events = a ++ .counted d sample :: b → (descs (session a)).count d < limit →
    ¬ SavedEarlier a d ((descs (session a)).count d + 1)

/-- The event that gives out a number: for every number up to the count of a description
there is a place in the trace where the count went from one below it to it, and the sample
reported there is the one the number stands for.  -/
theorem exists_counted {es : List CrashEvent} {d : Bytes} {k : ℕ} (h1 : 1 ≤ k)
    (hk : k ≤ (descs es).count d) :
    ∃ u sample v, es = u ++ .counted d sample :: v ∧ (descs u).count d + 1 = k := by
  induction es using List.reverseRecOn with
  | nil =>
      have h0 : (descs []).count d = 0 := rfl
      omega
  | append_singleton es e ih =>
      by_cases hle : k ≤ (descs es).count d
      · obtain ⟨u, sample, v, rfl, hu⟩ := ih hle
        exact ⟨u, sample, v ++ [e], by simp, hu⟩
      · have hne : (descs (es ++ [e])).count d ≠ (descs es).count d := by omega
        cases e with
        | counted d' sample =>
            rw [descs_counted, count_concat] at hk
            by_cases hd : d = d'
            · subst hd
              exact ⟨es, sample, [], rfl, by rw [if_pos rfl] at hk; omega⟩
            · rw [if_neg hd] at hk
              omega
        | saved d' j => rw [descs_saved] at hne; exact absurd rfl hne
        | restarted =>
            have : descs (es ++ [.restarted]) = descs es := by
              rw [descs, List.filterMap_append]
              exact List.append_nil _
            rw [this] at hne
            exact absurd rfl hne

section

variable [DecidableEq α] {limit : ℕ} {events : List CrashEvent} {s : CrashLog α}

/-- **Nothing is overwritten while the numbers are free.** If no number that a session gives
out is one whose file an earlier session has written, then no file of an earlier session is
written again in the run.  Within one session the numbers of a description are different
anyway.  -/
theorem not_overwrites {files : Bytes → Option Sample} (hlimit : 0 < limit)
    (h : Run (LogStep limit) (CrashLog.init files : CrashLog α) events s)
    (hfree : NumbersFree limit events) : ¬ Overwrites events := by
  rintro ⟨a, d, k, b, rfl, e, j, ⟨a₁, a₂, rfl, hsaved, hrestarted⟩, hname⟩
  obtain ⟨rfl, rfl⟩ := crashFilename_inj.1 hname
  -- when the file is written, its number was given out in this session
  obtain ⟨t, u, hrun, hsave, -⟩ := h.split_cons
  have hgiven : Given limit (session (a₁ ++ a₂)) e j := by
    cases hsave with
    | save hpending => exact (Logged.run hlimit hrun).given _ _ hpending
  -- the session is behind the restart
  obtain ⟨q, hq⟩ := session_restart hrestarted
  have hnot := restarted_notMem_session a₂
  obtain ⟨u', sample, v, hses, hcount⟩ := exists_counted (d := e) (k := j) hgiven.1
    (hgiven.2.trans (Nat.min_le_left _ _))
  have hsession : session (a₁ ++ a₂) = session a₂ := by
    conv_lhs => rw [hq, ← List.append_assoc]
    exact session_append_restarted _ _ hnot
  rw [hsession] at hses
  have hu' : session (a₁ ++ q ++ .restarted :: u') = u' := by
    refine session_append_restarted _ _ fun hm => hnot ?_
    rw [hses]
    exact List.mem_append_left _ hm
  refine hfree (a₁ ++ q ++ .restarted :: u') e sample (v ++ .saved e j :: b) ?_ ?_ ?_
  · rw [hq, hses]
    simp
  · rw [hu']
    have := hgiven.2
    omega
  · rw [hu', hcount]
    exact ⟨a₁, q ++ .restarted :: u', by simp, hsaved, by simp⟩

/-- **While the numbers are free, every file is written once**, over all sessions: a
second write in the same session would be a number given out twice, one in a later
session would overwrite the file. -/
theorem saved_once {files : Bytes → Option Sample} (hlimit : 0 < limit)
    (h : Run (LogStep limit) (CrashLog.init files : CrashLog α) events s)
    (hfree : NumbersFree limit events) {a b : List CrashEvent} {d : Bytes} {k : ℕ}
    (hevents : events = a ++ .saved d k :: b) : .saved d k ∉ b := by
  intro hm
  obtain ⟨b₁, b₂, rfl⟩ := List.append_of_mem hm
  by_cases hrestarted : .restarted ∈ b₁
  · refine not_overwrites hlimit h hfree ⟨a ++ .saved d k :: b₁, d, k, b₂, ?_, d, k, ?_, rfl⟩
    · simpa using hevents
    · exact ⟨a ++ [.saved d k], b₁, by simp, by simp, hrestarted⟩
  · have hsplit : events = (a ++ .saved d k :: (b₁ ++ [.saved d k])) ++ b₂ := by
      simpa using hevents
    obtain ⟨u, hrun, -⟩ := (hsplit ▸ h).split
    have hnot : .restarted ∉ CrashEvent.saved d k :: (b₁ ++ [CrashEvent.saved d k]) := by
      simpa using hrestarted
    have htwo : 2 ≤ (session (a ++ .saved d k :: (b₁ ++ [.saved d k]))).count (.saved d k) := by
      rw [session_append _ hnot]
      simp only [List.count_append, List.count_cons_self]
      omega
    rcases (Logged.run hlimit hrun).count_saved d k with h0 | ⟨h1, -⟩ <;> omega

/-- **A crash file keeps its contents while the numbers are free**, in the directory
itself: whatever the process and the ones that resume it do, the file holds what it
held. -/
theorem files_kept {files : Bytes → Option Sample} {a b : List CrashEvent} {t : CrashLog α}
    (hlimit : 0 < limit) (ha : Run (LogStep limit) (CrashLog.init files) a t)
    (hb : Run (LogStep limit) t b s) (hfree : NumbersFree limit (a ++ b)) {d : Bytes} {k : ℕ}
    (hsaved : .saved d k ∈ a) : s.files (crashFilename d k) = t.files (crashFilename d k) := by
  refine LogStep.run_files hb fun e j hm hname => ?_
  obtain ⟨rfl, rfl⟩ := crashFilename_inj.1 hname
  obtain ⟨a₁, a₂, rfl⟩ := List.append_of_mem hsaved
  have hevents : (a₁ ++ .saved d k :: a₂) ++ b = a₁ ++ .saved d k :: (a₂ ++ b) := by
    rw [List.append_assoc, List.cons_append]
  exact saved_once hlimit (ha.trans hb) hfree hevents (List.mem_append_right _ hm)

/-- Writing a file under a number that an earlier session has used overwrites it. -/
theorem overwrites_save {d : Bytes} {k : ℕ} (h : SavedEarlier events d k) :
    Overwrites (events ++ [.saved d k]) :=
  ⟨events, d, k, [], rfl, d, k, h, rfl⟩

end

end Crashes
end Jackalope
