/-
# Which crash files are written

Within a session the files of a description are numbered from 1 to the limit, each is
written once and holds the sample that got its number, no two crashes share a file, and
nothing else in the directory changes (`crashes_deduplicated`).

Across sessions the numbers begin again: the table is not part of what is saved, and
the files are.  `crash_files_kept` says when that does harm.  A session that gives a
crash a number which an earlier session used for the same description overwrites its
file, and nothing else overwrites one; without one, a file that was written keeps its
contents through all later sessions.
-/

import Jackalope.Crashes.Directory
import Jackalope.Crashes.Reports

namespace Jackalope
namespace Crashes

open Foundation Server

/-! ### One session -/

/-- What a session has counted and written, over a directory that held `before` when it
started and holds `files` now; `quiet` is whether no crash is between its number and its
file. -/
structure Deduplicated (limit : ℕ) (events : List CrashEvent) (before : Bytes → Option Sample)
    (table : CrashTable) (files : Bytes → Option Sample) (quiet : Prop) : Prop where
  unique : table.numUniqueCrashes = (descs events).toFinset.card
  /-- A description that was counted `n` times has the files `1` to `min n limit`, each
  written once. -/
  written : quiet → ∀ d k, events.count (.saved d k) =
    if 1 ≤ k ∧ k ≤ min ((descs events).count d) limit then 1 else 0
  given : ∀ d k, .saved d k ∈ events → 1 ≤ k ∧ k ≤ min ((descs events).count d) limit
  /-- No file is written twice, under whatever directory. -/
  distinct : ∀ dir a d k b e j c, events = a ++ .saved d k :: (b ++ .saved e j :: c) →
    dirJoin dir (crashFilename d k) ≠ dirJoin dir (crashFilename e j)
  /-- A file that was written holds the sample that was the `k`-th of its description. -/
  contents : ∀ d k, .saved d k ∈ events →
    ∃ sample, Numbered events d k sample ∧ files (crashFilename d k) = some sample
  /-- Every sample up to the limit is in the directory, once no crash waits. -/
  stored : quiet → ∀ d k sample, Numbered events d k sample → k ≤ limit →
    files (crashFilename d k) = some sample
  /-- A path that is not the file of a crash of this session is not touched. -/
  untouched : ∀ name, (∀ d k, .saved d k ∈ events → name ≠ crashFilename d k) →
    files name = before name

section

variable {α : Type} {limit : ℕ} {events : List CrashEvent} {s : CrashLog α}

/-- What the log and the directory say of the first session, put together: the counts, the
numbers and the files that `Deduplicated` speaks of all come from the trace, and where
nobody is between a number and its file, each number has its file.  -/
theorem Logged.deduplicated {before : Bytes → Option Sample} (h : Logged limit events s)
    (hcontents : Contents before events s) (hsession : .restarted ∉ events)
    {quiet : Prop} (hquiet : quiet → ∀ a, s.pending a = none) :
    Deduplicated limit events before s.table s.files quiet := by
  have hes := session_eq hsession
  -- once no crash waits, the numbers that were given out are the files
  have hwritten : quiet → ∀ d k, events.count (.saved d k) =
      if Given limit events d k then 1 else 0 := by
    intro hq d k
    have hcount := h.saved d k fun a crash ha => by rw [hquiet hq a] at ha; cases ha
    rwa [hes] at hcount
  refine ⟨?_, hwritten, ?_, ?_, hcontents.saved, ?_, hcontents.untouched⟩
  · rw [h.table.numUniqueCrashes, hes]
  · intro d k hmem
    have hpos := List.count_pos_iff.2 hmem
    rcases h.count_saved d k with h0 | ⟨-, hgiven⟩
    · rw [hes] at h0
      omega
    · rwa [hes] at hgiven
  · rintro dir a d k b e j c rfl hname
    obtain ⟨rfl, rfl⟩ := crashFilename_inj.1 (dirJoin_injective dir hname)
    have htwo : 2 ≤ (a ++ .saved d k :: (b ++ .saved d k :: c)).count (.saved d k) := by
      simp only [List.count_append, List.count_cons_self]
      omega
    rcases h.count_saved d k with h0 | ⟨h1, -⟩
    · rw [hes] at h0
      omega
    · rw [hes] at h1
      omega
  · intro hq d k sample hnumbered hle
    have hlt := (List.getElem?_eq_some_iff.1 hnumbered.2).1
    rw [length_samplesOf] at hlt
    have hgiven : Given limit events d k := by
      have hk := hnumbered.1
      exact ⟨hk, by omega⟩
    have hone := hwritten hq d k
    rw [if_pos hgiven] at hone
    have hmem : .saved d k ∈ events := List.count_pos_iff.1 (by omega)
    obtain ⟨found, hfound, hfile⟩ := hcontents.saved d k hmem
    rw [hfile, hfound.unique hnumbered]

end

/-- The descriptions that a server counts have passed `CheckFilename`. -/
def Checked {ι : Type} (events : List CrashEvent) (s : CrashServer ι) : Prop :=
  (∀ i d sample incoming, s.conns i = .counting d sample incoming → checkFilename d = true) ∧
    ∀ d k, .saved d k ∈ events → checkFilename d = true

/-- **Whatever a connection does, the descriptions on record have been checked.**
`CheckFilename` comes before the crash is counted, and a description that does not pass is
answered at once, so it is neither counted nor written.  -/
theorem ConnStep.checked {ι : Type} [DecidableEq ι] {s s' : CrashServer ι}
    {events es : List CrashEvent} (h : ConnStep s es s') (hs : Checked events s) :
    Checked (events ++ es) s' := by
  obtain ⟨hconns, hsaved⟩ := hs
  -- a connection that moves on with a description that was checked
  have hset : ∀ (u : CrashServer ι) i conn, u.conns = s.conns →
      (∀ d sample incoming, conn = .counting d sample incoming → checkFilename d = true) →
      ∀ j d sample incoming, (u.setConn i conn).conns j = .counting d sample incoming →
        checkFilename d = true := by
    intro u i conn hu hconn j d sample incoming hj
    rw [CrashServer.setConn_conns] at hj
    split at hj
    · exact hconn d sample incoming hj
    · exact hconns j d sample incoming (hu ▸ hj)
  cases h with
  | recv hconn hrecv hcheck =>
      rw [List.append_nil]
      exact ⟨hset s _ _ rfl (by rintro d sample incoming ⟨⟩; exact hcheck), hsaved⟩
  | recvInvalid | recvEnd | recvFailed =>
      rw [List.append_nil]
      exact ⟨hset s _ _ rfl nofun, hsaved⟩
  | @count i crashDesc sample incoming hconn =>
      refine ⟨hset _ _ _ rfl nofun, fun d k hmem => ?_⟩
      rcases List.mem_append.1 hmem with hmem | hmem
      · exact hsaved d k hmem
      · rw [countEvents, List.mem_cons, List.mem_map] at hmem
        rcases hmem with hmem | ⟨j, -, hmem⟩
        · cases hmem
        · cases hmem
          exact hconns i _ sample incoming hconn
  | restart inputs =>
      refine ⟨nofun, fun d k hmem => hsaved d k ?_⟩
      simpa using hmem

/-- **The crash files of a session.**  Different descriptions and numbers name different
files; whatever the threads of a fuzzer or the clients of a server do, each description
has its files from 1 to the limit, each written once and holding the sample that got its
number, and nothing else in the directory changes; and a server writes only names of
harmless characters. -/
theorem crashes_deduplicated :
    (∀ (dir d : Bytes) (k : ℕ) (e : Bytes) (j : ℕ),
      dirJoin dir (crashFilename d k) = dirJoin dir (crashFilename e j) → d = e ∧ k = j) ∧
    (∀ (τ : Type) [DecidableEq τ] (crashReproduceRetries : ℕ) (server : Bool)
      (files : Bytes → Option Sample) (tr : List (Option CrashEvent)) (s : CrashSystem τ),
      Run (CrashStep crashReproduceRetries server) (CrashSystem.init files) tr s →
      .restarted ∉ tr.filterMap id →
      Deduplicated maxIdenticalCrashes (tr.filterMap id) files s.table s.files
        (∀ t crash, s.threads t ≠ .saving crash)) ∧
    ∀ (ι : Type) [DecidableEq ι] (files : Bytes → Option Sample) (inputs : ι → Bytes)
      (tr : List (List CrashEvent)) (s : CrashServer ι),
      Run ConnStep (CrashServer.init files inputs) tr s → .restarted ∉ tr.flatten →
      Deduplicated maxServerIdenticalCrashes tr.flatten files s.table s.files True ∧
        (∀ d k, .saved d k ∈ tr.flatten → checkFilename (crashFilename d k) = true) ∧
        ∀ name, s.files name ≠ files name → checkFilename name = true := by
  refine ⟨fun dir d k e j h => crashFilename_inj.1 (dirJoin_injective dir h), ?_, ?_⟩
  · intro τ _ retries server files tr s hrun hsession
    have hlog := Logged.run (by decide) (CrashStep.run_log hrun)
    have hcontents := Contents.run (by decide) (CrashStep.run_log hrun) hsession
    refine hlog.deduplicated hcontents hsession fun hquiet t => ?_
    show (s.threads t).pending = none
    cases hpc : s.threads t with
    | saving crash => exact absurd hpc (hquiet t crash)
    | _ => rfl
  · intro ι _ files inputs tr s hrun hsession
    have hlog := Logged.run (by decide) (ConnStep.run_log hrun)
    have hcontents := Contents.run (by decide) (ConnStep.run_log hrun) hsession
    have hchecked : Checked tr.flatten s := by
      refine hrun.invariant (fun tr s => Checked tr.flatten s) ⟨nofun, nofun⟩ ?_
      intro tr t es u hI hstep
      rw [List.flatten_append, List.flatten_singleton]
      exact hstep.checked hI
    have hnames : ∀ d k, .saved d k ∈ tr.flatten → checkFilename (crashFilename d k) = true :=
      fun d k hmem => checkFilename_crashFilename (hchecked.2 d k hmem) k
    refine ⟨hlog.deduplicated hcontents hsession fun _ _ => rfl, hnames, fun name hchanged => ?_⟩
    by_contra hname
    refine hchanged (hcontents.untouched name ?_)
    rintro d k hmem rfl
    exact hname (hnames d k hmem)

/-- Two threads whose targets crash as `signal_11`: the one that counted last writes its
file first, and each file holds the sample with its number.  In between the counter is right
and one of the two files is not there yet.  -/
theorem crashes_deduplicated_twice :
    ∃ (tr : List (Option CrashEvent)) (s : CrashSystem Bool),
      tr.filterMap id = [.counted (str "signal_11") (Sample.init (str "A")),
        .counted (str "signal_11") (Sample.init (str "B")),
        .saved (str "signal_11") 2, .saved (str "signal_11") 1] ∧
      Deduplicated maxIdenticalCrashes (tr.filterMap id) (fun _ => none) s.table s.files
        (∀ t crash, s.threads t ≠ .saving crash) ∧
      s.files (str "signal_11_1") = some (Sample.init (str "A")) ∧
      s.files (str "signal_11_2") = some (Sample.init (str "B")) :=
  ⟨_, _, rfl, crashes_deduplicated.2.1 Bool 0 false (fun _ => none) _ _
    (Run.cons (CrashStep.crash (t := false) (str "signal_11") none (Sample.init (str "A")) rfl)
    (Run.cons (CrashStep.crash (t := true) (str "signal_11") none (Sample.init (str "B")) rfl)
    (Run.cons (CrashStep.count (t := false) rfl)
    (Run.cons (CrashStep.count (t := true) rfl)
    (Run.cons (CrashStep.save (t := true) rfl)
    (Run.single (CrashStep.save (t := false) rfl)))))))
    (by decide), by decide, by decide⟩

/-! ### Resumed sessions -/

/-- A crash that was counted while its number was taken by an earlier session. -/
theorem exists_of_not_numbersFree {limit : ℕ} {events : List CrashEvent}
    (h : ¬ NumbersFree limit events) :
    ∃ a d sample b, events = a ++ .counted d sample :: b ∧
      (descs (session a)).count d < limit ∧
      SavedEarlier a d ((descs (session a)).count d + 1) := by
  unfold NumbersFree at h
  push Not at h
  exact h

/-- An event does not change what earlier sessions have written. -/
theorem SavedEarlier.append {a b : List CrashEvent} {d : Bytes} {k : ℕ} (h : SavedEarlier a d k) :
    SavedEarlier (a ++ b) d k := by
  obtain ⟨x, y, rfl, hsaved, hrestarted⟩ := h
  exact ⟨x, y ++ b, by simp, hsaved, List.mem_append_left b hrestarted⟩

/-- A step of the log in a run of the fuzzer: the run goes to the state before it with the
events before, and the step itself is one of the fuzzer.  -/
theorem CrashStep.split {τ : Type} [DecidableEq τ] {retries : ℕ} {server : Bool}
    {s s' : CrashSystem τ} {tr : List (Option CrashEvent)} {a b : List CrashEvent} {e : CrashEvent}
    (h : Run (CrashStep retries server) s tr s') (htr : tr.filterMap id = a ++ e :: b) :
    ∃ tr₁ tr₂ u v, tr = tr₁ ++ some e :: tr₂ ∧ tr₁.filterMap id = a ∧
      Run (CrashStep retries server) s tr₁ u ∧ CrashStep retries server u (some e) v := by
  obtain ⟨tr₁, tr₂, rfl, h₁, h₂⟩ := List.filterMap_eq_append_iff.1 htr
  obtain ⟨silent, o, tr₃, rfl, hsilent, ho, -⟩ := List.filterMap_eq_cons_iff.1 h₂
  obtain rfl : o = some e := ho
  rw [← List.append_assoc] at h
  obtain ⟨u, v, hrun, hstep, -⟩ := h.split_cons
  refine ⟨tr₁ ++ silent, tr₃, u, v, by simp, ?_, hrun, hstep⟩
  rw [List.filterMap_append, h₁, List.filterMap_eq_nil_iff.2 hsilent, List.append_nil]

section

variable {τ : Type} [DecidableEq τ] {retries : ℕ} {server : Bool} {files : Bytes → Option Sample}

/-- A thread that was given a number writes the file next.  No other thread can keep it from
that, and the file holds the sample that it has reported.  -/
theorem CrashStep.count_save {u v : CrashSystem τ} {d : Bytes} {sample : Sample} {k : ℕ}
    (h : CrashStep retries server u (some (.counted d sample)) v)
    (hk : (u.table.count maxIdenticalCrashes d).2 = some k) :
    ∃ w, CrashStep retries server v (some (.saved d k)) w ∧
      w.files (crashFilename d k) = some sample := by
  cases h with
  | @count t _ _ hpc =>
      refine ⟨_, @CrashStep.save τ _ retries server _ t ⟨d, k, sample⟩ ?_, ?_⟩
      · rw [hk]
        exact Function.update_self t _ _
      · exact Function.update_self ..

/-- In the fuzzer, a number that is taken is one step away from destroying the file: the
thread that counted the sample puts it where an earlier session has put another. -/
theorem CrashStep.exists_overwrites {tr : List (Option CrashEvent)} {s : CrashSystem τ}
    (h : Run (CrashStep retries server) (CrashSystem.init files) tr s)
    (hfree : ¬ NumbersFree maxIdenticalCrashes (tr.filterMap id)) :
    ∃ (tr₁ tr₂ : List (Option CrashEvent)) (o o' : Option CrashEvent) (u : CrashSystem τ),
      tr = tr₁ ++ o :: tr₂ ∧
      Run (CrashStep retries server) (CrashSystem.init files) (tr₁ ++ [o, o']) u ∧
      Overwrites ((tr₁ ++ [o, o']).filterMap id) ∧
      ∃ d k sample, o = some (.counted d sample) ∧ SavedEarlier (tr₁.filterMap id) d k ∧
        u.files (crashFilename d k) = some sample := by
  obtain ⟨a, d, sample, b, htr, hlt, hearlier⟩ := exists_of_not_numbersFree hfree
  obtain ⟨tr₁, tr₂, u, v, rfl, rfl, hrun, hstep⟩ := CrashStep.split h htr
  have htable := (Logged.run (by decide) (CrashStep.run_log hrun)).table
  have hk := (htable.count (by decide) d).2
  rw [if_pos hlt] at hk
  obtain ⟨w, hsave, hfile⟩ := hstep.count_save hk
  refine ⟨tr₁, tr₂, _, _, w, rfl, hrun.trans (Run.cons hstep (Run.single hsave)), ?_,
    d, _, sample, rfl, hearlier, hfile⟩
  have hevents : ∀ e e' : CrashEvent, (tr₁ ++ [some e, some e']).filterMap id =
      (tr₁.filterMap id ++ [e]) ++ [e'] := by
    intro e e'
    rw [List.filterMap_append, List.append_assoc]
    rfl
  rw [hevents]
  exact overwrites_save hearlier.append

end

section

variable {ι : Type} [DecidableEq ι] {files : Bytes → Option Sample} {inputs : ι → Bytes}

/-- **A server writes the file of a number right when it gives it out.** Both happen in one
handler and under one lock, so that in the trace of a run of the server each number that is
below the limit is followed at once by the event of its file.  -/
theorem ConnStep.counted_saved {tr : List (List CrashEvent)} {s : CrashServer ι}
    (h : Run ConnStep (CrashServer.init files inputs) tr s) :
    ∀ a d sample b, tr.flatten = a ++ .counted d sample :: b →
      (descs (session a)).count d < maxServerIdenticalCrashes →
      ∃ b', b = .saved d ((descs (session a)).count d + 1) :: b' := by
  induction h with
  | refl =>
      intro a d sample b hab
      simp at hab
  | @snoc tr t es u hrun hst ih =>
      intro a d sample b hab hlt
      rw [List.flatten_append, List.flatten_singleton] at hab
      rcases trace_split hab with ⟨c, hes, rfl⟩ | ⟨c, htr, rfl⟩
      · -- the number is given out in the last step
        have htable := (Logged.run (by decide) (ConnStep.run_log hrun)).table
        cases hst with
        | recv | recvInvalid | recvEnd | recvFailed => simp at hes
        | restart inputs => rcases c with _ | ⟨x, c⟩ <;> simp at hes
        | @count i crashDesc found incoming hconn =>
            rw [countEvents] at hes
            rcases c with _ | ⟨x, c⟩
            · obtain ⟨hd, hb⟩ := List.cons.inj hes
              cases hd
              rw [List.append_nil] at hlt ⊢
              have hk := (htable.count (by decide) d).2
              rw [if_pos hlt] at hk
              change (t.table.count maxServerIdenticalCrashes d).2 = _ at hk
              exact ⟨[], by rw [← hb, hk]; rfl⟩
            · -- what follows the count in the label is a file
              obtain ⟨-, hb⟩ := List.cons.inj hes
              have hmem : .counted d sample ∈ (t.table.count maxServerIdenticalCrashes
                  crashDesc).2.toList.map (CrashEvent.saved crashDesc) := by rw [hb]; simp
              obtain ⟨k, -, hk⟩ := List.mem_map.1 hmem
              cases hk
      · obtain ⟨b', rfl⟩ := ih a d sample c htr hlt
        exact ⟨b' ++ es, rfl⟩

end

/-- **When resuming destroys a crash file.**  As long as no session gives a crash a
number under which an earlier session wrote a file of the same description, no session
overwrites a file of an earlier one, and a file holds in every later state what it held
once it was written.  A fuzzer session that does give such a number overwrites the file,
with the sample it counted, in the next step of the thread; a server session overwrites
it within the same step. -/
theorem crash_files_kept (files : Bytes → Option Sample) :
    (∀ (τ : Type) [DecidableEq τ] (crashReproduceRetries : ℕ) (server : Bool)
      (tr : List (Option CrashEvent)) (s : CrashSystem τ),
      Run (CrashStep crashReproduceRetries server) (CrashSystem.init files) tr s →
      (NumbersFree maxIdenticalCrashes (tr.filterMap id) → ¬ Overwrites (tr.filterMap id) ∧
        ∀ (tr₁ tr₂ : List (Option CrashEvent)) (u : CrashSystem τ), tr = tr₁ ++ tr₂ →
          Run (CrashStep crashReproduceRetries server) (CrashSystem.init files) tr₁ u →
          Run (CrashStep crashReproduceRetries server) u tr₂ s →
          ∀ d k, .saved d k ∈ tr₁.filterMap id →
            s.files (crashFilename d k) = u.files (crashFilename d k)) ∧
      (¬ NumbersFree maxIdenticalCrashes (tr.filterMap id) →
        ∃ (tr₁ tr₂ : List (Option CrashEvent)) (o o' : Option CrashEvent) (u : CrashSystem τ),
          tr = tr₁ ++ o :: tr₂ ∧
          Run (CrashStep crashReproduceRetries server) (CrashSystem.init files) (tr₁ ++ [o, o']) u ∧
          Overwrites ((tr₁ ++ [o, o']).filterMap id) ∧
          ∃ d k sample, o = some (.counted d sample) ∧ SavedEarlier (tr₁.filterMap id) d k ∧
            u.files (crashFilename d k) = some sample)) ∧
    ∀ (ι : Type) [DecidableEq ι] (inputs : ι → Bytes) (tr : List (List CrashEvent))
      (s : CrashServer ι),
      Run ConnStep (CrashServer.init files inputs) tr s →
      (¬ Overwrites tr.flatten ↔ NumbersFree maxServerIdenticalCrashes tr.flatten) ∧
      (NumbersFree maxServerIdenticalCrashes tr.flatten →
        ∀ (tr₁ tr₂ : List (List CrashEvent)) (u : CrashServer ι), tr = tr₁ ++ tr₂ →
          Run ConnStep (CrashServer.init files inputs) tr₁ u → Run ConnStep u tr₂ s →
          ∀ d k, .saved d k ∈ tr₁.flatten →
            s.files (crashFilename d k) = u.files (crashFilename d k)) := by
  refine ⟨?_, ?_⟩
  · intro τ _ retries server tr s hrun
    refine ⟨fun hfree => ⟨not_overwrites (by decide) (CrashStep.run_log hrun) hfree, ?_⟩,
      CrashStep.exists_overwrites hrun⟩
    rintro tr₁ tr₂ u rfl h₁ h₂ d k hsaved
    rw [List.filterMap_append] at hfree
    exact files_kept (by decide) (CrashStep.run_log h₁) (CrashStep.run_log h₂) hfree hsaved
  · intro ι _ inputs tr s hrun
    refine ⟨⟨fun hnot => ?_, not_overwrites (by decide) (ConnStep.run_log hrun)⟩, ?_⟩
    · by_contra hfree
      obtain ⟨a, d, sample, b, htr, hlt, hearlier⟩ := exists_of_not_numbersFree hfree
      obtain ⟨b', rfl⟩ := ConnStep.counted_saved hrun a d sample b htr hlt
      exact hnot ⟨a ++ [.counted d sample], d, _, b', by simpa using htr, d, _, hearlier.append, rfl⟩
    · rintro hfree tr₁ tr₂ u rfl h₁ h₂ d k hsaved
      rw [List.flatten_append] at hfree
      exact files_kept (by decide) (ConnStep.run_log h₁) (ConnStep.run_log h₂) hfree hsaved

/-- **A crash file that is lost.** A fuzzer saves a crash, is resumed, and saves another
crash with the same description.  The table of crashes is not part of the saved state, so
the second crash gets the number 1 as well, and its file takes the place of the first one's.
-/
theorem not_crash_files_kept : ¬ ∀ (tr : List (Option CrashEvent)) (s : CrashSystem Unit),
    Run (CrashStep 10 false) (CrashSystem.init fun _ => none) tr s →
      ¬ Overwrites (tr.filterMap id) := by
  intro h
  refine h _ _
    (Run.cons (CrashStep.crash (t := ()) (str "signal_11") (some (str "signal_11")) Sample.empty rfl)
    (Run.cons (CrashStep.count (t := ()) rfl)
    (Run.cons (CrashStep.save (t := ()) rfl)
    (Run.cons (CrashStep.restart _)
    (Run.cons (CrashStep.crash (t := ()) (str "signal_11") (some (str "signal_11"))
      (Sample.init (str "A")) rfl)
    (Run.cons (CrashStep.count (t := ()) rfl)
    (Run.single (CrashStep.save (t := ()) rfl))))))))
    ⟨[.counted (str "signal_11") Sample.empty, .saved (str "signal_11") 1, .restarted,
      .counted (str "signal_11") (Sample.init (str "A"))], str "signal_11", 1, [], rfl,
      str "signal_11", 1, ⟨[.counted (str "signal_11") Sample.empty, .saved (str "signal_11") 1],
        [.restarted, .counted (str "signal_11") (Sample.init (str "A"))], rfl, ?_, ?_⟩, rfl⟩
  · exact List.mem_cons_of_mem _ (List.mem_cons_self ..)
  · exact List.mem_cons_self ..

end Crashes
end Jackalope
