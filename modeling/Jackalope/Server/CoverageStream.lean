/-
# What `RecvCoverage` accepts

`ServerCommon::RecvCoverage` (`server.cpp`, lines 142-189) on any byte stream.  A record is
a `'C'`, the name of a module with its length, a count, and that many offsets; an `'N'`
ends the list (`coverageStream`).

The count is the peer's.  The array has room for it, but the number of bytes that are read
into the array goes through an `int`, so what `RecvCoverage` takes is not quite a record
(`TakenRecord`): from a count of `2^28` on the bytes behind the count are fewer, or more,
than the offsets.  `recvCoverage_iff` says what is taken and inserted, on every stream.  As
long as every count is below `2^28` that is the format, and otherwise the array holds
offsets that nobody sent.
-/

import Jackalope.Server.Dialogues

namespace Jackalope
namespace Server

open Foundation Foundation.Consumer

/-! ### The format -/

/-- The offsets that a peer reports for a module. -/
structure CoverageRecord where
  moduleName : Bytes
  offsets : List UInt64

/-- The lengths fit their fields. -/
structure CoverageRecord.Fits (r : CoverageRecord) : Prop where
  moduleName : r.moduleName.length < 2 ^ 64
  offsets : r.offsets.length < 2 ^ 64

/-- `'C'`, 64-bit length, name, 64-bit count, 64-bit offsets. -/
def CoverageRecord.toBytes (r : CoverageRecord) : Bytes :=
  charC :: (u64 r.moduleName.length ++ (r.moduleName ++ (u64 r.offsets.length ++
    r.offsets.flatMap fun offset => u64 offset.toNat)))

/-- Records, and an `'N'` at the end. -/
def coverageStream (records : List CoverageRecord) : Bytes :=
  records.flatMap CoverageRecord.toBytes ++ [charN]

/-- The (name, offset) pairs of the records. -/
def recordPairs (records : List CoverageRecord) : Set (Bytes × UInt64) :=
  {p | ∃ r ∈ records, r.moduleName = p.1 ∧ p.2 ∈ r.offsets}

/-! ### What is taken -/

/-- What one round of `RecvCoverage` takes: the name, the count, and the bytes that are
read into the array. -/
structure TakenRecord where
  moduleName : Bytes
  numOffsets : ℕ
  data : Bytes

/-- As the round takes it: the count passes the check, and the size of the array is an
`int` when it is read. -/
structure TakenRecord.Taken (r : TakenRecord) : Prop where
  moduleName : r.moduleName.length < 2 ^ 64
  numOffsets : r.numOffsets ≤ (2 ^ 64 - 1) / 8
  data : r.data.length = intToSize (r.numOffsets * 8)

def TakenRecord.toBytes (r : TakenRecord) : Bytes :=
  charC :: (u64 r.moduleName.length ++ (r.moduleName ++ (u64 r.numOffsets ++ r.data)))

/-- What is taken in all rounds. -/
def takenStream (records : List TakenRecord) : Bytes :=
  records.flatMap TakenRecord.toBytes ++ [charN]

/-- The offsets that are inserted for a record that so many bytes follow. -/
def TakenRecord.inserted (uninit : ℕ → ℕ → UInt64) (r : TakenRecord) (following : ℕ) : List UInt64 :=
  offsetsIn (uninit (r.data.length + following)) r.numOffsets r.data

/-- The (name, offset) pairs that are inserted in all rounds. -/
def takenPairs (uninit : ℕ → ℕ → UInt64) (rest : Bytes) : List TakenRecord → Set (Bytes × UInt64)
  | [] => ∅
  | r :: records =>
      {p | p.1 = r.moduleName ∧ p.2 ∈ r.inserted uninit (takenStream records ++ rest).length} ∪
        takenPairs uninit rest records

section

variable [TinyInst]

/-- The entry for a module is there, and nothing is lost in looking for it: it is the first
one of that name, or a new and empty one at the end.  -/
theorem findOrAddModule_spec (coverage : Coverage) (moduleName : Bytes) :
    ∃ coverage' i m, findOrAddModule coverage moduleName = (coverage', some i) ∧
      coverage'[i]? = some m ∧ m.moduleName = moduleName ∧ pairs coverage' = pairs coverage := by
  rw [findOrAddModule]
  rcases hfind : getModuleCoverage coverage moduleName with _ | i
  · rcases hagain : getModuleCoverage (coverage ++ [⟨moduleName, ∅⟩]) moduleName with _ | i
    · have := TinyInst.getModuleCoverage_none _ _ hagain ⟨moduleName, ∅⟩
        (List.mem_append_right _ (List.mem_singleton_self _))
      exact absurd rfl this
    · obtain ⟨m, hm, hname⟩ := TinyInst.getModuleCoverage_some _ _ _ hagain
      refine ⟨coverage ++ [⟨moduleName, ∅⟩], i, m, ?_, hm, hname, ?_⟩
      · dsimp only
        rw [hagain]
      · rw [pairs_append]
        have hempty : pairs [⟨moduleName, ∅⟩] = ∅ := by
          ext p
          simp [mem_pairs]
        rw [hempty, Set.union_empty]
  · obtain ⟨m, hm, hname⟩ := TinyInst.getModuleCoverage_some _ _ _ hfind
    exact ⟨coverage, i, m, rfl, hm, hname, rfl⟩

omit [TinyInst] in
/-- Inserting offsets into an entry adds pairs with its name, and takes none away; offsets
that are there already make no difference.  -/
theorem pairs_insertOffsets {coverage : Coverage} {i : ℕ} {m : ModuleCoverage}
    (h : coverage[i]? = some m) (offsets : List UInt64) :
    pairs (insertOffsets coverage i offsets) =
      pairs coverage ∪ {p | p.1 = m.moduleName ∧ p.2 ∈ offsets} := by
  induction coverage generalizing i with
  | nil => cases h
  | cons x coverage ih =>
      rcases i with _ | i
      · obtain rfl : x = m := by simpa using h
        rw [insertOffsets, List.modify_zero_cons, pairs_cons, pairs_cons x coverage]
        ext ⟨name, offset⟩
        simp only [mem_pairs, Set.mem_union, Set.mem_ofPred_eq, List.mem_singleton, exists_eq_left,
          Finset.mem_union, List.mem_toFinset]
        constructor
        · rintro (⟨rfl, hx | hnew⟩ | hrest)
          · exact Or.inl (Or.inl ⟨rfl, hx⟩)
          · exact Or.inr ⟨rfl, hnew⟩
          · exact Or.inl (Or.inr hrest)
        · rintro ((⟨rfl, hx⟩ | hrest) | ⟨rfl, hnew⟩)
          · exact Or.inl ⟨rfl, Or.inl hx⟩
          · exact Or.inr hrest
          · exact Or.inl ⟨rfl, Or.inr hnew⟩
      · have hrest := ih (i := i) (by simpa using h)
        rw [insertOffsets, List.modify_succ_cons, pairs_cons, pairs_cons x coverage, ← insertOffsets,
          hrest, Set.union_assoc]

/-- **One module**, from what it takes: the name, the count and the bytes that were sent for
the offsets, of which only whole offsets are there for the array.  -/
theorem recvModule_taken (uninit : ℕ → ℕ → UInt64) (coverage : Coverage) {r : TakenRecord}
    (h : r.Taken) (rest : Bytes) :
    ∃ coverage', recvModule uninit coverage (u64 r.moduleName.length ++ (r.moduleName ++
        (u64 r.numOffsets ++ r.data)) ++ rest) = .ok (coverage', rest) ∧
      pairs coverage' = pairs coverage ∪
        {p | p.1 = r.moduleName ∧ p.2 ∈ r.inserted uninit rest.length} := by
  obtain ⟨coverage₁, i, m, hfind, hm, hname, hpairs⟩ := findOrAddModule_spec coverage r.moduleName
  have hcount : r.numOffsets < 2 ^ 64 := by
    have := h.numOffsets
    omega
  have hstring : Decodes recvString (u64 r.moduleName.length ++ r.moduleName) r.moduleName :=
    (decodes_readU64 h.moduleName).bind (Decodes.takeN () rfl)
  refine ⟨insertOffsets coverage₁ i (r.inserted uninit rest.length), ?_, ?_⟩
  · have hassoc : u64 r.moduleName.length ++ (r.moduleName ++ (u64 r.numOffsets ++ r.data)) ++ rest =
        (u64 r.moduleName.length ++ r.moduleName) ++ (u64 r.numOffsets ++ (r.data ++ rest)) := by
      simp only [List.append_assoc]
    have hget : (get : Recv Bytes) (r.data ++ rest) = .ok (r.data ++ rest, r.data ++ rest) := rfl
    rw [recvModule, hassoc, bind_ok (hstring.exact _), hfind]
    refine (bind_ok ((decodes_readU64 hcount).exact _) _).trans ?_
    rw [if_neg (Nat.not_lt.2 h.numOffsets)]
    refine (bind_ok hget _).trans ((bind_ok ((Decodes.takeN () h.data).exact rest) _).trans ?_)
    rw [TakenRecord.inserted, ← List.length_append]
    rfl
  · rw [pairs_insertOffsets hm, hpairs, hname]

omit [TinyInst] in
/-- What was read as a string was there. -/
theorem recvString_eq_ok {l l' name : Bytes} (h : recvString l = .ok (name, l')) :
    l = u64 name.length ++ (name ++ l') ∧ name.length < 2 ^ 64 := by
  obtain ⟨size, l₁, hsize, hname⟩ := bind_eq_ok h
  obtain ⟨rfl, hlt⟩ := readLE_eq_ok hsize
  obtain ⟨rfl, rfl⟩ := takeN_eq_ok hname
  exact ⟨rfl, by simpa using hlt⟩

/-- A module that was received was taken: whatever the client has sent, if the call succeeds
the stream begins with a record, and what is inserted are its offsets and those that the
array held before.  -/
theorem recvModule_eq_ok {uninit : ℕ → ℕ → UInt64} {coverage coverage' : Coverage} {l rest : Bytes}
    (h : recvModule uninit coverage l = .ok (coverage', rest)) :
    ∃ r : TakenRecord, r.Taken ∧ l = u64 r.moduleName.length ++ (r.moduleName ++
        (u64 r.numOffsets ++ r.data)) ++ rest ∧
      pairs coverage' = pairs coverage ∪
        {p | p.1 = r.moduleName ∧ p.2 ∈ r.inserted uninit rest.length} := by
  obtain ⟨name, l₁, hname, hnum⟩ := bind_eq_ok h
  obtain ⟨coverage₁, i, m, hfind, -⟩ := findOrAddModule_spec coverage name
  rw [hfind] at hnum
  obtain ⟨num, l₂, hcount, hdata⟩ := bind_eq_ok hnum
  split at hdata
  · cases hdata
  rename_i hcheck
  obtain ⟨l₃, l₄, hget, hread⟩ := bind_eq_ok hdata
  cases hget
  obtain ⟨data, l₅, htake, -⟩ := bind_eq_ok hread
  obtain ⟨rfl, hlt⟩ := recvString_eq_ok hname
  obtain ⟨rfl, -⟩ := readLE_eq_ok hcount
  obtain ⟨rfl, hlength⟩ := takeN_eq_ok htake
  have htaken : TakenRecord.Taken ⟨name, num, data⟩ := ⟨hlt, Nat.not_lt.1 hcheck, hlength⟩
  obtain ⟨coverage₂, hrecv, hpairs⟩ := recvModule_taken uninit coverage htaken l₅
  have hassoc : u64 name.length ++ (name ++ (u64 num ++ (data ++ l₅))) =
      u64 name.length ++ (name ++ (u64 num ++ data)) ++ l₅ := by
    simp only [List.append_assoc]
  have hword : toLE 8 num ++ (data ++ l₅) = u64 num ++ (data ++ l₅) := rfl
  rw [hword, hassoc, hrecv] at h
  cases h
  exact ⟨⟨name, num, data⟩, htaken, hassoc, hpairs⟩

/-- A round behind a `'C'`. -/
theorem recvCoverageBody_charC (uninit : ℕ → ℕ → UInt64) (coverage : Coverage) (l : Bytes) :
    recvCoverageBody uninit coverage (charC :: l) =
      (recvModule uninit coverage >>= fun coverage => pure (Sum.inl coverage)) l := by
  have hchar : readChar (charC :: l) = .ok (charC, l) := rfl
  rw [recvCoverageBody, bind_ok hchar, if_neg (by decide), if_neg (by decide)]

/-- One round that goes on: the record is taken from the stream, and what it inserts is
added to the coverage.  -/
theorem recvCoverageBody_taken (uninit : ℕ → ℕ → UInt64) (coverage : Coverage) {r : TakenRecord}
    (h : r.Taken) (rest : Bytes) :
    ∃ coverage', recvCoverageBody uninit coverage (r.toBytes ++ rest) = .ok (.inl coverage', rest) ∧
      pairs coverage' = pairs coverage ∪
        {p | p.1 = r.moduleName ∧ p.2 ∈ r.inserted uninit rest.length} := by
  obtain ⟨coverage', hrecv, hpairs⟩ := recvModule_taken uninit coverage h rest
  refine ⟨coverage', ?_, hpairs⟩
  rw [TakenRecord.toBytes, List.cons_append, recvCoverageBody_charC, bind_ok hrecv]
  rfl

/-- The last round. -/
theorem recvCoverageBody_last (uninit : ℕ → ℕ → UInt64) (coverage : Coverage) (rest : Bytes) :
    recvCoverageBody uninit coverage (charN :: rest) = .ok (.inr coverage, rest) := rfl

/-- **A round** takes the end of the list or a record.  There is no third possibility: every
other byte in front, and every record that is cut off, ends the call with an error.  -/
theorem recvCoverageBody_eq_ok {uninit : ℕ → ℕ → UInt64} {coverage : Coverage}
    {l rest : Bytes} {result : Coverage ⊕ Coverage}
    (h : recvCoverageBody uninit coverage l = .ok (result, rest)) :
    (l = charN :: rest ∧ result = .inr coverage) ∨
      ∃ (r : TakenRecord) (coverage' : Coverage), r.Taken ∧ l = r.toBytes ++ rest ∧
        result = .inl coverage' ∧ pairs coverage' = pairs coverage ∪
          {p | p.1 = r.moduleName ∧ p.2 ∈ r.inserted uninit rest.length} := by
  obtain ⟨command, l₁, hcommand, hround⟩ := bind_eq_ok h
  rcases l with _ | ⟨b, bs⟩
  · cases hcommand
  cases hcommand
  split at hround
  · rename_i hN
    cases hround
    exact Or.inl ⟨by rw [hN], rfl⟩
  split at hround
  · cases hround
  · rename_i hC
    obtain ⟨coverage', l₂, hrecv, hpure⟩ := bind_eq_ok hround
    cases hpure
    obtain ⟨r, htaken, rfl, hpairs⟩ := recvModule_eq_ok hrecv
    refine Or.inr ⟨r, coverage', htaken, ?_, rfl, hpairs⟩
    rw [not_not.1 hC]
    rfl

/-- Each round of `RecvCoverage` reads a character, so the loop ends with the stream at the
latest.  -/
theorem consumes_recvCoverageBody (uninit : ℕ → ℕ → UInt64) (coverage : Coverage) :
    Consumes (recvCoverageBody uninit coverage) := by
  intro l result rest h
  rcases recvCoverageBody_eq_ok h with ⟨rfl, -⟩ | ⟨r, -, -, rfl, -⟩
  · exact Nat.lt_succ_self _
  · rw [TakenRecord.toBytes, List.cons_append, List.length_cons, List.length_append]
    omega

omit [TinyInst] in
/-- The records are written one behind the other.  -/
theorem takenStream_cons (r : TakenRecord) (records : List TakenRecord) :
    takenStream (r :: records) = r.toBytes ++ takenStream records := by
  rw [takenStream, List.flatMap_cons, List.append_assoc, ← takenStream]

/-- The loop, from any coverage: it returns exactly if the stream is a list of records and
the end, and has then added what they insert.  By induction on the bytes that are left.  -/
theorem loop_recvCoverageBody_iff (uninit : ℕ → ℕ → UInt64) (rest : Bytes) (n : ℕ)
    (coverage : Coverage) (incoming : Bytes) (hn : incoming.length ≤ n) :
    (∀ coverage', loop () (recvCoverageBody uninit) coverage incoming = .ok (coverage', rest) →
      ∃ records, (∀ r ∈ records, TakenRecord.Taken r) ∧ incoming = takenStream records ++ rest ∧
        pairs coverage' = pairs coverage ∪ takenPairs uninit rest records) ∧
      ∀ records, (∀ r ∈ records, TakenRecord.Taken r) → incoming = takenStream records ++ rest →
        ∃ coverage', loop () (recvCoverageBody uninit) coverage incoming = .ok (coverage', rest) ∧
          pairs coverage' = pairs coverage ∪ takenPairs uninit rest records := by
  have hadvances := Advances.of_consumes (consumes_recvCoverageBody uninit)
  induction n using Nat.strong_induction_on generalizing coverage incoming with
  | _ n ih =>
      rw [loop_eq () hadvances]
      constructor
      · intro coverage' h
        obtain ⟨result, l, hround, hnext⟩ := bind_eq_ok h
        rcases recvCoverageBody_eq_ok hround with
          ⟨rfl, rfl⟩ | ⟨r, coverage₁, htaken, rfl, rfl, hpairs⟩
        · cases hnext
          refine ⟨[], fun _ h => absurd h List.not_mem_nil, rfl, ?_⟩
          rw [takenPairs, Set.union_empty]
        · have hlt := consumes_recvCoverageBody uninit coverage _ _ _ hround
          obtain ⟨records, hall, rfl, hrest⟩ :=
            (ih l.length (by omega) coverage₁ l le_rfl).1 coverage' hnext
          refine ⟨r :: records, List.forall_mem_cons.2 ⟨htaken, hall⟩, ?_, ?_⟩
          · rw [takenStream_cons, List.append_assoc]
          · rw [hrest, hpairs, takenPairs, Set.union_assoc]
      · rintro (_ | ⟨r, records⟩) hall rfl
        · refine ⟨coverage, bind_ok (recvCoverageBody_last uninit coverage rest) _, ?_⟩
          rw [takenPairs, Set.union_empty]
        · obtain ⟨htaken, hall⟩ := List.forall_mem_cons.1 hall
          rw [takenStream_cons, List.append_assoc] at hn ⊢
          obtain ⟨coverage₁, hround, hpairs⟩ :=
            recvCoverageBody_taken uninit coverage htaken (takenStream records ++ rest)
          have hlt := consumes_recvCoverageBody uninit coverage _ _ _ hround
          obtain ⟨coverage', hloop, hrest⟩ :=
            (ih _ (hlt.trans_le hn) coverage₁ (takenStream records ++ rest) le_rfl).2 records hall rfl
          refine ⟨coverage', (bind_ok hround _).trans hloop, ?_⟩
          rw [hrest, hpairs, takenPairs, Set.union_assoc]

/-- **What `RecvCoverage` takes and inserts**, on every stream: the records that it can be
cut into, and the offsets that these insert, which may be others than were sent.  -/
theorem recvCoverage_iff (uninit : ℕ → ℕ → UInt64) (incoming rest : Bytes) :
    (∀ coverage, recvCoverage uninit incoming = .ok (coverage, rest) →
      ∃ records, (∀ r ∈ records, TakenRecord.Taken r) ∧ incoming = takenStream records ++ rest ∧
        pairs coverage = takenPairs uninit rest records) ∧
      ∀ records, (∀ r ∈ records, TakenRecord.Taken r) → incoming = takenStream records ++ rest →
        ∃ coverage, recvCoverage uninit incoming = .ok (coverage, rest) ∧
          pairs coverage = takenPairs uninit rest records := by
  have hloop := loop_recvCoverageBody_iff uninit rest incoming.length [] incoming le_rfl
  unfold recvCoverage
  simpa only [pairs_nil, Set.empty_union] using hloop

end

/-! ### Records that are whole -/

/-- Eight bytes are a number, and so eight times as many bytes are as many numbers,
whichever bytes they are.  -/
theorem exists_offsets {n : ℕ} {data : Bytes} (h : data.length = 8 * n) :
    ∃ offsets : List UInt64, offsets.length = n ∧
      (offsets.flatMap fun offset => u64 offset.toNat) = data := by
  induction n generalizing data with
  | zero => exact ⟨[], rfl, (List.length_eq_zero_iff.1 h).symm⟩
  | succ n ih =>
      obtain ⟨offsets, hlength, hdata⟩ := @ih (data.drop 8) (by rw [List.length_drop]; omega)
      have htake : (data.take 8).length = 8 := by
        rw [List.length_take]
        omega
      have hlt := ofLE_lt (data.take 8)
      rw [htake] at hlt
      have hword : u64 (UInt64.ofNat (ofLE (data.take 8))).toNat = data.take 8 := by
        rw [UInt64.toNat_ofNat_of_lt' (by simpa using hlt), u64]
        have hword := toLE_ofLE (data.take 8)
        rwa [htake] at hword
      refine ⟨UInt64.ofNat (ofLE (data.take 8)) :: offsets, by rw [List.length_cons, hlength], ?_⟩
      rw [List.flatMap_cons, hdata, hword, List.take_append_drop]

/-- What is taken with all its offsets is a record of the format, and what it inserts are
these offsets.  -/
theorem TakenRecord.Taken.exists_record {r : TakenRecord} (h : r.Taken)
    (hwhole : r.data.length = 8 * r.numOffsets) :
    ∃ record : CoverageRecord, record.Fits ∧ record.moduleName = r.moduleName ∧
      record.toBytes = r.toBytes ∧ ∀ uninit following, r.inserted uninit following = record.offsets := by
  obtain ⟨offsets, hlength, hdata⟩ := exists_offsets hwhole
  have hnum := h.numOffsets
  refine ⟨⟨r.moduleName, offsets⟩, ⟨h.moduleName, by show offsets.length < _; omega⟩, rfl, ?_,
    fun uninit following => ?_⟩
  · rw [CoverageRecord.toBytes, TakenRecord.toBytes, hlength, hdata]
  · rw [TakenRecord.inserted, ← hdata, ← hlength]
    exact Connection.offsetsIn_flatMap _ offsets

/-- If all records are whole, the stream is one of the format, and nothing else is inserted:
no slot of the array is left as it was.  -/
theorem exists_records {records : List TakenRecord} (h : ∀ r ∈ records, r.Taken)
    (hwhole : ∀ r ∈ records, r.data.length = 8 * r.numOffsets) :
    ∃ records' : List CoverageRecord, (∀ r ∈ records', r.Fits) ∧
      takenStream records = coverageStream records' ∧
      ∀ uninit rest, takenPairs uninit rest records = recordPairs records' := by
  induction records with
  | nil =>
      refine ⟨[], fun _ h => absurd h List.not_mem_nil, rfl, fun _ _ => ?_⟩
      simp [takenPairs, recordPairs]
  | cons r records ih =>
      obtain ⟨htaken, hall⟩ := List.forall_mem_cons.1 h
      obtain ⟨hr, hrest⟩ := List.forall_mem_cons.1 hwhole
      obtain ⟨records', hfits, hstream, hpairs⟩ := ih hall hrest
      obtain ⟨record, hfit, hname, hbytes, hinserted⟩ := htaken.exists_record hr
      refine ⟨record :: records', List.forall_mem_cons.2 ⟨hfit, hfits⟩, ?_, fun uninit rest => ?_⟩
      · rw [takenStream_cons, hstream, coverageStream, coverageStream, List.flatMap_cons, hbytes,
          List.append_assoc]
      · ext ⟨name, offset⟩
        rw [takenPairs, hpairs uninit rest, hinserted]
        simp only [recordPairs, Set.mem_union, Set.mem_ofPred_eq, List.mem_cons, or_and_right,
          exists_or, exists_eq_left, hname]
        rw [eq_comm]

/-! ### Which streams are accepted exactly -/

/-- In the stream, as far as `RecvCoverage` takes it, no count is `2^28` or more. -/
def CountsFit (incoming : Bytes) : Prop :=
  ∀ records rest, (∀ r ∈ records, TakenRecord.Taken r) → incoming = takenStream records ++ rest →
    ∀ r ∈ records, r.numOffsets < 2 ^ 28

section

variable [TinyInst]

/-- If `RecvCoverage` returns 1, it has consumed a list of records, and the coverage is
what they contain, whatever the memory it was given held before. -/
def AcceptsExactly (incoming : Bytes) : Prop :=
  ∀ uninit coverage rest, recvCoverage uninit incoming = .ok (coverage, rest) →
    ∃ records : List CoverageRecord, (∀ r ∈ records, r.Fits) ∧
      incoming = coverageStream records ++ rest ∧ pairs coverage = recordPairs records

/-- **If no count that is read is `2^28` or more**, the size of the array does not wrap, and
`RecvCoverage` accepts exactly the streams of coverage and takes from them what they say.
-/
theorem acceptsExactly_of_countsFit {incoming : Bytes} (h : CountsFit incoming) :
    AcceptsExactly incoming := by
  intro uninit coverage rest hrecv
  obtain ⟨records, htaken, hincoming, hpairs⟩ :=
    (recvCoverage_iff uninit incoming rest).1 coverage hrecv
  have hwhole : ∀ r ∈ records, r.data.length = 8 * r.numOffsets := by
    intro r hr
    have hcount := h records rest htaken hincoming r hr
    rw [(htaken r hr).data, Connection.intToSize_of_lt (by omega), Nat.mul_comm]
  obtain ⟨records', hfits, hstream, hpairs'⟩ := exists_records htaken hwhole
  exact ⟨records', hfits, by rw [hincoming, hstream], by rw [hpairs, hpairs']⟩

omit [TinyInst] in
/-- What is written for one element is a part of what is written for all.  -/
theorem infix_flatMap {α : Type} {a : α} {l : List α} (h : a ∈ l) (f : α → Bytes) :
    f a <:+: l.flatMap f := by
  obtain ⟨s, t, rfl⟩ := List.append_of_mem h
  exact ⟨s.flatMap f, t.flatMap f, by simp⟩

omit [TinyInst] in
/-- An offset of a record is in the stream, as eight bytes somewhere, so an offset that is
not there was not sent.  -/
theorem infix_coverageStream {records : List CoverageRecord} {p : Bytes × UInt64}
    (h : p ∈ recordPairs records) (rest : Bytes) :
    u64 p.2.toNat <:+: coverageStream records ++ rest := by
  obtain ⟨r, hr, -, hoffset⟩ := h
  have hoffsets : u64 p.2.toNat <:+: r.toBytes := by
    refine (infix_flatMap hoffset fun offset => u64 offset.toNat).trans ?_
    refine ⟨charC :: (u64 r.moduleName.length ++ (r.moduleName ++ u64 r.offsets.length)), [], ?_⟩
    simp only [CoverageRecord.toBytes, List.cons_append, List.append_assoc, List.append_nil]
  refine hoffsets.trans ((infix_flatMap hr CoverageRecord.toBytes).trans ?_)
  rw [coverageStream, List.append_assoc]
  exact (List.prefix_append _ _).isInfix

omit [TinyInst] in
/-- A number that no eight bytes of the stream are: there are more numbers than places in
the stream at which one could begin.  -/
theorem exists_fresh {incoming : Bytes} (h : incoming.length < 2 ^ 63) :
    ∃ v : UInt64, ¬ u64 v.toNat <:+: incoming := by
  -- fewer numbers begin in the stream than there are
  let there := (Finset.range (incoming.length + 1)).image fun p => ofLE ((incoming.drop p).take 8)
  have hcard : there.card < (Finset.range (2 ^ 64)).card := by
    refine Finset.card_image_le.trans_lt ?_
    rw [Finset.card_range, Finset.card_range]
    omega
  obtain ⟨n, hn, hfresh⟩ := Finset.exists_mem_notMem_of_card_lt_card hcard
  have hlt : n < 2 ^ 64 := Finset.mem_range.1 hn
  refine ⟨UInt64.ofNat n, ?_⟩
  rw [UInt64.toNat_ofNat_of_lt' hlt]
  rintro ⟨s, t, rfl⟩
  refine hfresh (Finset.mem_image.2 ⟨s.length, ?_, ?_⟩)
  · rw [Finset.mem_range, List.length_append, List.length_append]
    omega
  · rw [List.append_assoc, List.drop_left' rfl, u64, List.take_left' (length_toLE 8 n),
      ofLE_toLE_of_lt (by simpa using hlt)]

omit [TinyInst] in
/-- An offset that is inserted whatever follows is among the pairs, with the name of its
module.  -/
theorem mem_takenPairs {uninit : ℕ → ℕ → UInt64} {rest : Bytes} {records : List TakenRecord}
    {r : TakenRecord} {offset : UInt64} (hr : r ∈ records)
    (h : ∀ following, offset ∈ r.inserted uninit following) :
    (r.moduleName, offset) ∈ takenPairs uninit rest records := by
  induction records with
  | nil => exact absurd hr List.not_mem_nil
  | cons r' records ih =>
      rw [takenPairs]
      rcases List.mem_cons.1 hr with rfl | hr
      · exact Or.inl ⟨rfl, h _⟩
      · exact Or.inr (ih hr)

/-- A count that does not fit leaves offsets in the array that nobody sent: whatever memory
held there is inserted, and it may be a number that the stream does not have.  -/
theorem countsFit_of_acceptsExactly {incoming : Bytes} (hlength : incoming.length < 2 ^ 63)
    (h : AcceptsExactly incoming) : CountsFit incoming := by
  intro records rest htaken hincoming r hr
  by_contra hcount
  have hdata := (htaken r hr).data
  have hnum := (htaken r hr).numOffsets
  have hle : r.data.length ≤ incoming.length := by
    have hinfix : r.data <:+: incoming := by
      rw [hincoming, takenStream, List.append_assoc]
      refine List.IsInfix.trans ?_ ((infix_flatMap hr TakenRecord.toBytes).trans
        (List.prefix_append _ _).isInfix)
      refine ⟨charC :: (u64 r.moduleName.length ++ (r.moduleName ++ u64 r.numOffsets)), [], ?_⟩
      simp only [TakenRecord.toBytes, List.cons_append, List.append_assoc, List.append_nil]
    exact hinfix.length_le
  have hshort : r.data.length < 8 * r.numOffsets := by
    unfold intToSize at hdata
    split at hdata <;> omega
  obtain ⟨v, hfresh⟩ := exists_fresh hlength
  have hinserted : ∀ following, v ∈ r.inserted (fun _ _ => v) following := by
    intro following
    rw [TakenRecord.inserted, offsetsIn]
    refine List.mem_map.2 ⟨r.numOffsets - 1, List.mem_range.2 (by omega), ?_⟩
    rw [if_neg (by omega)]
  obtain ⟨coverage, hrecv, hpairs⟩ :=
    (recvCoverage_iff (fun _ _ => v) incoming rest).2 records htaken hincoming
  obtain ⟨records', -, hstream, hpairs'⟩ := h _ coverage rest hrecv
  have hmem : (r.moduleName, v) ∈ recordPairs records' := by
    rw [← hpairs', hpairs]
    exact mem_takenPairs hr hinserted
  rw [hstream] at hfresh
  exact hfresh (infix_coverageStream hmem rest)

/-- **When `RecvCoverage` accepts exactly the format**: on the streams in which no count is
`2^28` or more.  The bound on the length excludes only streams that are longer than any
memory, and only for the second half. -/
theorem acceptsExactly_iff_countsFit (incoming : Bytes) :
    (CountsFit incoming → AcceptsExactly incoming) ∧
      (incoming.length < 2 ^ 63 → AcceptsExactly incoming → CountsFit incoming) :=
  ⟨acceptsExactly_of_countsFit, countsFit_of_acceptsExactly⟩

end

/-- A module with an empty name and `2^29` offsets, none of which follows. -/
def truncatedRecord : TakenRecord := ⟨[], 2 ^ 29, []⟩

/-- In these 18 bytes `RecvCoverage` finds a coverage, though they are none: the bytes of `2
^ 29` offsets are a number that an `int` cannot hold, so none are read, and what the array
held before is taken for the offsets.  -/
theorem not_acceptsExactly_truncatedRecord :
    (takenStream [truncatedRecord]).length = 18 ∧
      ¬ @AcceptsExactly listTinyInst (takenStream [truncatedRecord]) := by
  refine ⟨by decide, fun h => ?_⟩
  have hfit := @countsFit_of_acceptsExactly listTinyInst _ (by decide) h [truncatedRecord] [] ?_
    (List.append_nil _).symm truncatedRecord List.mem_cons_self
  · exact absurd hfit (by decide)
  · intro r hr
    rw [List.mem_singleton.1 hr]
    exact ⟨by decide, by decide, by decide⟩

end Server
end Jackalope
