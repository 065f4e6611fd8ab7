/-
# `CoverageServer::GetIndex`

`server.cpp`, lines 191-222.  A binary search over the timestamps index that may
stop on equality or on either side of the answer, then one of two linear loops
that walks to it.  Positions are `int64_t` in the source and integers here; every
access goes through `at?`, which has no answer outside the vector, and `none` is
also what the `FATAL` at the end gives, so `getIndex_eq` says that no access is
out of range and that the `FATAL` is not reached.

Where the binary search stops is immaterial: any position inside the vector will
do (`searchLoop_spec`), because the two loops reach the first newer entry from
wherever they start (`downLoop_spec`, `upLoop_spec`).
-/

import Jackalope.Foundation.Journal
import Mathlib.Data.List.Sort

namespace Jackalope
namespace Server

open Foundation (firstNewer firstNewer_nil firstNewer_cons_of_lt firstNewer_cons_of_le)

/-- `CoverageServer::TimestampIndex`. -/
structure TimestampIndex where
  timestamp : ℕ
  index : ℕ
  deriving DecidableEq

/-- The mark of a journal that an entry is. -/
def TimestampIndex.mark (e : TimestampIndex) : ℕ × ℕ := (e.timestamp, e.index)

/-- `timestamps[m]`, for a signed `m`. -/
def at? (timestamps : List TimestampIndex) (m : ℤ) : Option TimestampIndex :=
  if 0 ≤ m then timestamps[m.toNat]? else none

/-- `while (l <= r) { ... }`; the last `m` is the result. -/
def searchLoop (timestamps : List TimestampIndex) (timestamp : ℕ) :
    ℕ → ℤ → ℤ → ℤ → Option ℤ
  | 0, _, _, _ => none
  | fuel + 1, l, r, m =>
      if l ≤ r then do
        let m := (l + r) / 2
        let e ← at? timestamps m
        if e.timestamp < timestamp then searchLoop timestamps timestamp fuel (m + 1) r m
        else if e.timestamp > timestamp then searchLoop timestamps timestamp fuel l (m - 1) m
        else some m
      else some m

/-- `while ((m > 0) && (timestamps[m - 1].timestamp > timestamp)) m--`. -/
def downLoop (timestamps : List TimestampIndex) (timestamp : ℕ) : ℕ → ℤ → Option ℤ
  | 0, _ => none
  | fuel + 1, m =>
      if 0 < m then do
        let e ← at? timestamps (m - 1)
        if e.timestamp > timestamp then downLoop timestamps timestamp fuel (m - 1) else some m
      else some m

/-- `while ((m < size - 1) && (timestamps[m].timestamp <= timestamp)) m++`. -/
def upLoop (timestamps : List TimestampIndex) (timestamp : ℕ) : ℕ → ℤ → Option ℤ
  | 0, _ => none
  | fuel + 1, m =>
      if m < timestamps.length - 1 then do
        let e ← at? timestamps m
        if e.timestamp ≤ timestamp then upLoop timestamps timestamp fuel (m + 1) else some m
      else some m

/-- The `if` that picks the correction loop for the entry `e` at position `m`. -/
def correct (timestamps : List TimestampIndex) (timestamp fuel : ℕ) (m : ℤ)
    (e : TimestampIndex) : Option ℤ :=
  if e.timestamp > timestamp then downLoop timestamps timestamp fuel m
  else upLoop timestamps timestamp fuel m

/-- `CoverageServer::GetIndex`; `none` is an access out of range, a loop that does
not end, or the `FATAL`. -/
def getIndex (timestamps : List TimestampIndex) (timestamp lastIndex : ℕ) : Option ℕ :=
  if timestamp = 0 then some 0
  else if timestamps.isEmpty then some 0
  else do
    let e ← at? timestamps (timestamps.length - 1)
    if timestamp ≥ e.timestamp then some lastIndex
    else do
      let fuel := timestamps.length + 1
      let m ← searchLoop timestamps timestamp fuel 0 (timestamps.length - 1) 0
      let e ← at? timestamps m
      let m ← correct timestamps timestamp fuel m e
      let e ← at? timestamps m
      if e.timestamp ≤ timestamp then none else some e.index

section Loops

variable {timestamps : List TimestampIndex} {timestamp : ℕ}

/-- An access within the index gives the entry there.  -/
theorem at?_of_lt (timestamps : List TimestampIndex) {m : ℤ} (h0 : 0 ≤ m)
    (h : m < timestamps.length) :
    ∃ e, at? timestamps m = some e ∧ timestamps[m.toNat]? = some e := by
  have hm : m.toNat < timestamps.length := by omega
  exact ⟨timestamps[m.toNat], by rw [at?, if_pos h0, List.getElem?_eq_getElem hm],
    List.getElem?_eq_getElem hm⟩

/-- The binary search stops inside the vector, and after as many rounds as its length has:
each round leaves an interval that is shorter by one at least.  -/
theorem searchLoop_spec (timestamps : List TimestampIndex) (timestamp fuel : ℕ) (l r m : ℤ)
    (hl : 0 ≤ l) (hr : r < timestamps.length)
    (hfuel : r - l + 1 < fuel) (hf : 0 < fuel)
    (hm : r < l → 0 ≤ m ∧ m < timestamps.length) :
    ∃ m', searchLoop timestamps timestamp fuel l r m = some m' ∧ 0 ≤ m' ∧
      m' < timestamps.length := by
  induction fuel generalizing l r m with
  | zero => omega
  | succ fuel ih =>
      rw [searchLoop]
      by_cases hlr : l ≤ r
      · have h0 : 0 ≤ (l + r) / 2 := by omega
        have h1 : (l + r) / 2 < timestamps.length := by omega
        obtain ⟨e, he, -⟩ := at?_of_lt timestamps h0 h1
        simp only [hlr, if_true, he, Option.bind_eq_bind, Option.bind_some]
        split
        · exact ih _ _ _ (by omega) hr (by omega) (by omega) fun _ => ⟨h0, h1⟩
        · split
          · exact ih _ _ _ hl (by omega) (by omega) (by omega) fun _ => ⟨h0, h1⟩
          · exact ⟨_, rfl, h0, h1⟩
      · rw [if_neg hlr]
        exact ⟨m, rfl, hm (by omega)⟩

/-- Position `p` separates the entries: exactly those from `p` on are newer. -/
def Separates (timestamps : List TimestampIndex) (timestamp p : ℕ) : Prop :=
  p < timestamps.length ∧
    ∀ i e, timestamps[i]? = some e → (timestamp < e.timestamp ↔ p ≤ i)

/-- Walking down from a newer entry stops at the first newer one: all entries passed are
newer, and the one before it is not.  -/
theorem downLoop_spec {p : ℕ} (hp : Separates timestamps timestamp p) (fuel : ℕ) (m : ℤ)
    (hm : p ≤ m) (hlt : m < timestamps.length) (hfuel : m < fuel) :
    downLoop timestamps timestamp fuel m = some (p : ℤ) := by
  induction fuel generalizing m with
  | zero => omega
  | succ fuel ih =>
      rw [downLoop]
      by_cases h0 : 0 < m
      · obtain ⟨e, he, he'⟩ := at?_of_lt timestamps (m := m - 1) (by omega) (by omega)
        have hsep := hp.2 _ e he'
        simp only [h0, if_true, he, Option.bind_eq_bind, Option.bind_some, gt_iff_lt]
        by_cases hgt : timestamp < e.timestamp
        · rw [if_pos hgt]
          have := hsep.1 hgt
          exact ih _ (by omega) (by omega) (by omega)
        · rw [if_neg hgt]
          have : ¬ p ≤ (m - 1).toNat := fun hle => hgt (hsep.2 hle)
          have : m = p := by omega
          rw [this]
      · rw [if_neg h0]
        have : m = p := by omega
        rw [this]

/-- Walking up from an entry that is not newer stops at the first newer one; that there is a
newer one at all was tested before the search.  -/
theorem upLoop_spec {p : ℕ} (hp : Separates timestamps timestamp p) (fuel : ℕ) (m : ℤ)
    (h0 : 0 ≤ m) (hm : m ≤ p) (hfuel : p - m < fuel) :
    upLoop timestamps timestamp fuel m = some (p : ℤ) := by
  induction fuel generalizing m with
  | zero => omega
  | succ fuel ih =>
      have hlen := hp.1
      rw [upLoop]
      by_cases hlast : m < timestamps.length - 1
      · obtain ⟨e, he, he'⟩ := at?_of_lt timestamps (m := m) h0 (by omega)
        have hsep := hp.2 _ e he'
        simp only [hlast, if_true, he, Option.bind_eq_bind, Option.bind_some]
        by_cases hle : e.timestamp ≤ timestamp
        · rw [if_pos hle]
          have : ¬ p ≤ m.toNat := fun hpm => absurd (hsep.2 hpm) (by omega)
          exact ih _ (by omega) (by omega) (by omega)
        · rw [if_neg hle]
          have := hsep.1 (by omega)
          have : m = p := by omega
          rw [this]
      · rw [if_neg hlast]
        have : m = p := by omega
        rw [this]

end Loops

/-- In a vector sorted by timestamp whose last entry is newer, some position
separates the entries, and its index is that of the first newer one. -/
theorem exists_separates {timestamps : List TimestampIndex} {timestamp : ℕ} (lastIndex : ℕ)
    (hs : timestamps.Pairwise fun a b => a.timestamp ≤ b.timestamp)
    (hnewer : ∃ e ∈ timestamps, timestamp < e.timestamp) :
    ∃ p e, Separates timestamps timestamp p ∧ timestamps[p]? = some e ∧
      firstNewer (timestamps.map TimestampIndex.mark) timestamp lastIndex = e.index := by
  induction timestamps with
  | nil => simp at hnewer
  | cons a l ih =>
      obtain ⟨hal, hl⟩ := List.pairwise_cons.1 hs
      rcases Nat.lt_or_ge timestamp a.timestamp with ha | ha
      · refine ⟨0, a, ⟨by simp, fun i e he => ⟨fun _ => Nat.zero_le _, fun _ => ?_⟩⟩, rfl, ?_⟩
        · rcases List.mem_cons.1 (List.mem_of_getElem? he) with rfl | he
          · exact ha
          · exact ha.trans_le (hal e he)
        · exact firstNewer_cons_of_lt _ _ ha
      · obtain ⟨e, he, hte⟩ := hnewer
        have hel : e ∈ l := by
          rcases List.mem_cons.1 he with rfl | he
          · omega
          · exact he
        obtain ⟨p, e', ⟨hplt, hsep⟩, hpe, hfirst⟩ := ih hl ⟨e, hel, hte⟩
        refine ⟨p + 1, e', ⟨by simpa using hplt, fun i d hd => ?_⟩, by simpa using hpe, ?_⟩
        · rcases i with _ | i
          · obtain rfl : a = d := by simpa using hd
            constructor <;> intro <;> omega
          · rw [hsep i d (by simpa using hd)]
            omega
        · rw [List.map_cons, firstNewer_cons_of_le _ _ ha, hfirst]

/-- **`GetIndex` finds the first newer entry.**  On an index sorted by timestamp
whose first entry, if any, is stamped after `0` and points at item `0`, every
access is in range, no `FATAL` is reached, and the result is the index of the
first entry newer than the timestamp, or `lastIndex`. -/
theorem getIndex_eq {timestamps : List TimestampIndex} (timestamp : ℕ) {lastIndex : ℕ}
    (hs : timestamps.Pairwise fun a b => a.timestamp ≤ b.timestamp)
    (hfirst : ∀ e, timestamps.head? = some e → 0 < e.timestamp ∧ e.index = 0)
    (hlast : timestamps = [] → lastIndex = 0) :
    getIndex timestamps timestamp lastIndex =
      some (firstNewer (timestamps.map TimestampIndex.mark) timestamp lastIndex) := by
  rcases timestamps with _ | ⟨a, l⟩
  · have := hlast rfl
    simp [getIndex, firstNewer_nil, this]
  obtain ⟨hpos, hidx⟩ := hfirst a rfl
  unfold getIndex
  by_cases ht : timestamp = 0
  · rw [if_pos ht, ht, List.map_cons, firstNewer_cons_of_lt _ _ hpos]
    exact congrArg some hidx.symm
  rw [if_neg ht, if_neg (by simp)]
  set ts := a :: l with hts
  have hlen : 0 < ts.length := by rw [hts]; simp
  obtain ⟨z, hz, hz'⟩ := at?_of_lt ts (m := ts.length - 1) (by omega) (by omega)
  have hzmem : z ∈ ts := List.mem_of_getElem? hz'
  have hzmax : ∀ e ∈ ts, e.timestamp ≤ z.timestamp := by
    intro e he
    obtain ⟨i, hi, rfl⟩ := List.mem_iff_getElem.1 he
    have hi' : ((ts.length : ℤ) - 1).toNat < ts.length := by omega
    obtain rfl : ts[((ts.length : ℤ) - 1).toNat] = z := by
      rw [List.getElem?_eq_getElem hi'] at hz'
      exact Option.some.inj hz'
    rcases Nat.lt_or_ge i ((ts.length : ℤ) - 1).toNat with h | h
    · exact List.pairwise_iff_getElem.1 hs i _ hi hi' h
    · have : i = ((ts.length : ℤ) - 1).toNat := by omega
      simp only [this, le_refl]
  simp only [hz, Option.bind_eq_bind, Option.bind_some, ge_iff_le]
  by_cases hge : z.timestamp ≤ timestamp
  · rw [if_pos hge, Foundation.firstNewer_of_forall_le]
    intro m hm
    obtain ⟨e, he, rfl⟩ := List.mem_map.1 hm
    exact (hzmax e he).trans hge
  rw [if_neg hge]
  have hgt : timestamp < z.timestamp := by omega
  obtain ⟨p, e, hsep, hpe, hfirstNewer⟩ := exists_separates lastIndex hs ⟨z, hzmem, hgt⟩
  obtain ⟨m, hm, hm0, hmlt⟩ := searchLoop_spec ts timestamp
    (ts.length + 1) 0 (ts.length - 1) 0 le_rfl (by omega) (by omega) (by omega) (by omega)
  obtain ⟨d, hd, hd'⟩ := at?_of_lt ts hm0 hmlt
  have hp := hsep.1
  have hwalk : correct ts timestamp (ts.length + 1) m d = some (p : ℤ) := by
    have hiff := hsep.2 _ d hd'
    unfold correct
    split
    · have := hiff.1 (by assumption)
      exact downLoop_spec hsep _ _ (by omega) hmlt (by omega)
    · have : ¬ p ≤ m.toNat := fun h => absurd (hiff.2 h) (by assumption)
      exact upLoop_spec hsep _ _ hm0 (by omega) (by omega)
  have hpat : at? ts (p : ℤ) = some e := by
    rw [at?, if_pos (by omega)]
    exact hpe
  have hnot : ¬ e.timestamp ≤ timestamp := by
    have := (hsep.2 p e hpe).2 le_rfl
    omega
  simp only [hm, hd, hwalk, hpat, Option.bind_some, if_neg hnot, hfirstNewer]

/-- The marks say of a vector what the first newer entry says, so the index that `GetIndex`
returns is the journal's position.  -/
theorem firstNewer_mark (timestamps : List TimestampIndex) (timestamp lastIndex : ℕ) :
    firstNewer (timestamps.map TimestampIndex.mark) timestamp lastIndex =
      ((timestamps.find? fun e => decide (timestamp < e.timestamp)).map
        TimestampIndex.index).getD lastIndex := by
  induction timestamps with
  | nil => rfl
  | cons e timestamps ih =>
      rw [List.map_cons]
      rcases Nat.lt_or_ge timestamp e.timestamp with h | h
      · rw [firstNewer_cons_of_lt _ _ h, List.find?_cons_of_pos (by simpa using h)]
        rfl
      · rw [firstNewer_cons_of_le _ _ h, ih, List.find?_cons_of_neg (by simpa using h)]

/-- **`GetIndex` on a vector that has entries**: no access is out of range, the `FATAL` is
not reached, and the index is that of the first newer entry, or `last_index` if no entry is
newer.  The binary search and the two loops that walk from where it stops agree with the
plain search from the front.  -/
theorem getIndex_find? {timestamps : List TimestampIndex} (timestamp lastIndex : ℕ)
    (hne : timestamps ≠ [])
    (hs : timestamps.Pairwise fun a b => a.timestamp ≤ b.timestamp)
    (hfirst : ∀ e, timestamps.head? = some e → 1 ≤ e.timestamp ∧ e.index = 0) :
    getIndex timestamps timestamp lastIndex =
      some (((timestamps.find? fun e => decide (timestamp < e.timestamp)).map
        TimestampIndex.index).getD lastIndex) := by
  rw [getIndex_eq timestamp hs hfirst fun h => absurd h hne, firstNewer_mark]

/-- Two entries of one timestamp: the search stops on the second, and the loop that walks up
goes past both, so the index is that of the entry behind them.  -/
theorem getIndex_find?_equalStamps :
    getIndex [⟨1, 0⟩, ⟨3, 4⟩, ⟨3, 6⟩, ⟨5, 9⟩] 3 12 = some 9 :=
  getIndex_find? 3 12 (by decide) (by decide) (by
    intro e he
    obtain rfl : _ = e := Option.some.inj he
    decide)

end Server
end Jackalope
