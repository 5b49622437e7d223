import OsmImport.Store.DecodeLoop
import OsmImport.Store.Proofs.Merge

/-!
# The decode loop hands on the records of the unsplit stream

The invariant between two outputs of the decoder is `Carries`: the first `carry` bytes of `partial` are what is left
over of the stream so far, and they are fewer than 24. With it no copy leaves `partial`, and the loop computes what
`mergeShard` computes on lists.
-/

namespace OsmImport

open Records

namespace OSMMMap

variable {σ : Type} (sink : σ → Record → σ)

/-- The records of a stream, handed on in order. -/
def feed (store : σ) (stream : Bytes) : σ :=
  ((cut 24 stream).map Record.unpack).foldl sink store

/-- The bytes `carried` are in `partial`. -/
structure Carries (s : DecodeState σ) (carried : Bytes) : Prop where
  count : s.carry = carried.length
  lt : s.carry < 24
  bytes : s.partialRec.toList.take s.carry = carried

theorem feed_of_lt (store : σ) {stream : Bytes} (h : stream.length < 24) :
    feed sink store stream = store := by
  rw [feed, cut_of_lt h, List.map_nil, List.foldl_nil]

theorem feed_record (store : σ) {r : Bytes} (hr : r.length = 24) (stream : Bytes) :
    feed sink store (r ++ stream) = feed sink (sink store (Record.unpack r)) stream := by
  rw [feed, cut_record_append (by omega) hr, List.map_cons, List.foldl_cons, feed]

/-- Handing on a stream in two pieces. -/
theorem feed_append (store : σ) (a b : Bytes) :
    feed sink store (a ++ b) = feed sink (feed sink store a) (remainder 24 a ++ b) := by
  rw [feed, cut_append (by omega), List.map_append, List.foldl_append]
  rfl

theorem carries_nil {s : DecodeState σ} (h : s.carry = 0) : Carries s [] where
  count := h
  lt := by omega
  bytes := by rw [h, List.take_zero]

/-! ## The parts of the loop body -/

variable {s : DecodeState σ} {carried out : Bytes}

theorem need_eq (h : s.carry < 24) : sizeMod (2 ^ 64 + 24 - s.carry) = 24 - s.carry := by
  have : 2 ^ 64 + 24 - s.carry = 2 ^ 64 + (24 - s.carry) := by omega
  rw [sizeMod, this, Nat.add_mod_left]
  exact Nat.mod_eq_of_lt (by omega)

theorem handleCarry_zero (h : s.carry = 0) :
    handleCarry sink s out = some (s, 0, out.length) := by
  rw [handleCarry, if_neg (by omega)]

/-- The output is too short to complete the record in `partial`. -/
theorem handleCarry_short (hs : Carries s carried) (h0 : 0 < s.carry)
    (hlt : (carried ++ out).length < 24) :
    ∃ s', handleCarry sink s out = some (s', 0, 0) ∧ Carries s' (carried ++ out) ∧
      s'.store = s.store := by
  have hcount := hs.count
  rw [List.length_append] at hlt
  have hfit : s.carry + out.length ≤ 24 := by omega
  obtain ⟨b, hcopy, hb⟩ := Buffer.copyIn_spec s.partialRec hfit
  have hslice : Buffer.slice out 0 out.length = some out := Buffer.slice_rest (by omega)
  refine ⟨{ s with partialRec := b, carry := s.carry + out.length }, ?_, ⟨?_, ?_, ?_⟩, rfl⟩
  · rw [handleCarry, if_pos h0, need_eq hs.lt, if_pos (by omega), hslice]
    simp only [Option.bind_eq_bind, Option.bind_some, hcopy]
    rfl
  · rw [List.length_append, ← hcount]
  · show s.carry + out.length < 24
    omega
  · show b.toList.take (s.carry + out.length) = carried ++ out
    rw [hb, hs.bytes]

/-- The output completes the record in `partial`. -/
theorem handleCarry_complete (hs : Carries s carried) (h0 : 0 < s.carry)
    (hle : 24 ≤ (carried ++ out).length) :
    ∃ s', handleCarry sink s out =
        some (s', 24 - s.carry, out.length - (24 - s.carry)) ∧ s'.carry = 0 ∧
      s'.store = sink s.store (Record.unpack (carried ++ out.take (24 - s.carry))) := by
  have hcount := hs.count
  have hlt := hs.lt
  rw [List.length_append] at hle
  have hneed : (out.take (24 - s.carry)).length = 24 - s.carry := by
    rw [List.length_take]
    omega
  have hfit : s.carry + (out.take (24 - s.carry)).length ≤ 24 := by omega
  obtain ⟨b, hcopy, hb⟩ := Buffer.copyIn_spec s.partialRec hfit
  have hslice : Buffer.slice out 0 (24 - s.carry) = some (out.take (24 - s.carry)) := by
    rw [Buffer.slice_eq (by omega), List.drop_zero]
  have hfull : b.toList = carried ++ out.take (24 - s.carry) := by
    rw [← hs.bytes, ← hb, List.take_of_length_le (by rw [List.Vector.toList_length]; omega)]
  refine ⟨⟨0, b, sink s.store (Record.unpack b.toList)⟩, ?_, rfl, by rw [hfull]⟩
  rw [handleCarry, if_pos h0, need_eq hlt, if_neg (by omega), hslice]
  simp only [Option.bind_eq_bind, Option.bind_some, hcopy]
  rfl

theorem processFull_of_lt (store : σ) {p rem : ℕ} (h : rem < 24) :
    processFull sink out store p rem = some (store, p, rem) := by
  rw [processFull, if_neg (by omega)]

/-- The loop over the full records stops in front of the remainder of the output. -/
theorem processFull_spec (store : σ) {p rem : ℕ} (h : p + rem = out.length) :
    ∃ p' rem', processFull sink out store p rem = some (feed sink store (out.drop p), p', rem') ∧
      p' + rem' = out.length ∧ out.drop p' = remainder 24 (out.drop p) := by
  induction rem using Nat.strongRecOn generalizing store p with
  | ind rem ih =>
    by_cases hge : rem ≥ 24
    · have hr : ((out.drop p).take 24).length = 24 := by simp; omega
      have hsplit : out.drop p = (out.drop p).take 24 ++ out.drop (p + 24) := by
        rw [← List.drop_drop, List.take_append_drop]
      obtain ⟨p', rem', heq, hlen, hdrop⟩ := ih (rem - 24) (by omega)
        (sink store (Record.unpack ((out.drop p).take 24))) (p := p + 24) (by omega)
      refine ⟨p', rem', ?_, hlen, ?_⟩
      · rw [processFull, if_pos hge, Buffer.slice_eq (by omega), hsplit, feed_record sink _ hr]
        simpa using heq
      · rw [hdrop, hsplit, remainder_record_append (by omega) hr]
    · have hlt : (out.drop p).length < 24 := by simp; omega
      refine ⟨p, rem, ?_, h, (remainder_of_lt hlt).symm⟩
      rw [processFull_of_lt sink store (by omega), feed_of_lt sink store hlt]

theorem savePartial_zero (p : ℕ) : savePartial s out p 0 = some s := rfl

/-- Fewer than 24 bytes are left, and `partial` is free. -/
theorem savePartial_spec (h0 : s.carry = 0) {p rem : ℕ} (h : p + rem = out.length) (hlt : rem < 24) :
    ∃ s', savePartial s out p rem = some s' ∧ Carries s' (out.drop p) ∧ s'.store = s.store := by
  have hlen : (out.drop p).length = rem := by
    rw [List.length_drop]
    omega
  by_cases hrem : rem > 0
  · have hfit : 0 + (out.drop p).length ≤ 24 := by omega
    obtain ⟨b, hcopy, hb⟩ := Buffer.copyIn_spec s.partialRec hfit
    rw [Nat.zero_add, List.take_zero, List.nil_append, hlen] at hb
    refine ⟨{ s with partialRec := b, carry := rem }, ?_, ⟨hlen.symm, hlt, hb⟩, rfl⟩
    rw [savePartial, if_pos hrem, Buffer.slice_rest h]
    simp only [Option.bind_eq_bind, Option.bind_some, hcopy]
    rfl
  · refine ⟨s, by rw [savePartial, if_neg hrem], ?_, rfl⟩
    rw [List.length_eq_zero_iff.mp (by omega : (out.drop p).length = 0)]
    exact carries_nil h0

/-- With `partial` free, the rest of the body hands on what lies behind `p` and keeps its remainder. -/
theorem processRest_spec (h0 : s.carry = 0) {p rem : ℕ} (h : p + rem = out.length) :
    ∃ s', (do
        let (store, p, rem) ← processFull sink out s.store p rem
        savePartial { s with store := store } out p rem) = some s' ∧
      Carries s' (remainder 24 (out.drop p)) ∧ s'.store = feed sink s.store (out.drop p) := by
  obtain ⟨p', rem', hfull, hlen, hdrop⟩ := processFull_spec sink s.store h
  have hlt : rem' < 24 := by
    have hr := length_remainder (w := 24) (by omega) (out.drop p)
    rw [← hdrop, List.length_drop] at hr
    omega
  have hfree : ({ s with store := feed sink s.store (out.drop p) } : DecodeState σ).carry = 0 := h0
  obtain ⟨s', hsave, hs', hstore⟩ := savePartial_spec hfree hlen hlt
  refine ⟨s', ?_, hdrop ▸ hs', hstore⟩
  rw [hfull]
  exact hsave

/-! ## One output, and all of them -/

/-- The step: the records of the carried bytes with the output are handed on, and the remainder is carried. -/
theorem processOutput_spec (hs : Carries s carried) (out : Bytes) :
    ∃ s', processOutput sink s out = some s' ∧ Carries s' (remainder 24 (carried ++ out)) ∧
      s'.store = feed sink s.store (carried ++ out) := by
  have hcount := hs.count
  by_cases h0 : 0 < s.carry
  · by_cases hlt : (carried ++ out).length < 24
    · obtain ⟨s', hcarry, hs', hstore⟩ := handleCarry_short sink hs h0 hlt
      refine ⟨s', ?_, by rwa [remainder_of_lt hlt], by rw [feed_of_lt sink _ hlt, hstore]⟩
      simp only [processOutput, hcarry, Option.bind_eq_bind, Option.bind_some,
        processFull_of_lt sink s'.store (Nat.zero_lt_succ 23)]
      exact savePartial_zero 0
    · obtain ⟨s', hcarry, hfree, hstore⟩ := handleCarry_complete sink hs h0 (Nat.not_lt.mp hlt)
      rw [List.length_append] at hlt
      have hlen : 24 - s.carry + (out.length - (24 - s.carry)) = out.length := by omega
      obtain ⟨t, hrest, ht, htstore⟩ := processRest_spec sink hfree hlen
      have hr : (carried ++ out.take (24 - s.carry)).length = 24 := by
        have := hs.lt
        rw [List.length_append, List.length_take]
        omega
      have hsplit : carried ++ out =
          (carried ++ out.take (24 - s.carry)) ++ out.drop (24 - s.carry) := by
        rw [List.append_assoc, List.take_append_drop]
      refine ⟨t, ?_, ?_, ?_⟩
      · rw [processOutput, hcarry]
        exact hrest
      · rw [hsplit, remainder_record_append (by omega) hr]
        exact ht
      · rw [hsplit, feed_record sink _ hr, ← hstore]
        exact htstore
  · have hfree : s.carry = 0 := by omega
    have hnil : carried = [] := List.length_eq_zero_iff.mp (by omega)
    obtain ⟨t, hrest, ht, htstore⟩ := processRest_spec sink hfree (Nat.zero_add out.length)
    rw [hnil, List.nil_append]
    refine ⟨t, ?_, ht, htstore⟩
    rw [processOutput, handleCarry_zero sink hfree]
    exact hrest

/-- The run: the step, for one output after the other. -/
theorem foldlM_processOutput (hs : Carries s carried) (outs : List Bytes) :
    ∃ s', outs.foldlM (processOutput sink) s = some s' ∧
      Carries s' (remainder 24 (carried ++ outs.flatten)) ∧
      s'.store = feed sink s.store (carried ++ outs.flatten) := by
  induction outs generalizing s carried with
  | nil =>
    have hlt : carried.length < 24 := hs.count ▸ hs.lt
    rw [List.flatten_nil, List.append_nil]
    exact ⟨s, rfl, by rwa [remainder_of_lt hlt], (feed_of_lt sink s.store hlt).symm⟩
  | cons out outs ih =>
    obtain ⟨t, hstep, ht, htstore⟩ := processOutput_spec sink hs out
    obtain ⟨s', hrun, hs', hstore⟩ := ih ht
    rw [List.flatten_cons, ← List.append_assoc]
    refine ⟨s', ?_, ?_, ?_⟩
    · rw [List.foldlM_cons, hstep]
      exact hrun
    · rw [remainder_append (by omega)]
      exact hs'
    · rw [feed_append, hstore, htstore]

/-- The loop over the file of a shard, whatever is in the memory of its variables. -/
theorem decodeFile_spec (s : DecodeState σ) (outs : List Bytes) :
    ∃ s', decodeFile sink s outs = some s' ∧ Carries s' (remainder 24 outs.flatten) ∧
      s'.store = feed sink s.store outs.flatten :=
  foldlM_processOutput sink (carries_nil rfl) outs

/-! ## The rounds of `merge()` -/

/-- A round on the whole decoded file: its complete records go to the merged file, the files are deleted. -/
def mergeWhole (lz4 : Lz4) (st : OSMMMap) (i : ℕ) : OSMMMap :=
  let st := closeWriter lz4 st i
  match st.shardPath i with
  | none => st
  | some file => unlinkShard (feed writeToMerged st (lz4.decode file).flatten) i

theorem mergeShard_eq_mergeWhole (lz4 : Lz4) (st : OSMMMap) (i : ℕ) :
    mergeShard lz4 st i = mergeWhole lz4 st i := by
  simp only [mergeShard, mergeWhole, shardRecords_eq]
  rfl

/-- A round, from any state of its variables. -/
theorem mergeShardLoop_spec (lz4 : Lz4) (s : DecodeState OSMMMap) (i : ℕ) :
    ∃ s', mergeShardLoop lz4 s i = some s' ∧ s'.store = mergeShard lz4 s.store i := by
  rw [mergeShard_eq_mergeWhole]
  cases hf : (closeWriter lz4 s.store i).shardPath i with
  | none =>
    refine ⟨{ s with store := closeWriter lz4 s.store i }, ?_, ?_⟩
    · simp only [mergeShardLoop, hf]
    · simp only [mergeWhole, hf]
  | some file =>
    obtain ⟨t, hdecode, -, hstore⟩ :=
      decodeFile_spec writeToMerged { s with store := closeWriter lz4 s.store i } (lz4.decode file)
    refine ⟨{ t with store := unlinkShard t.store i }, ?_, ?_⟩
    · simp only [mergeShardLoop, hf, hdecode, Option.bind_eq_bind, Option.bind_some]
      rfl
    · simp only [mergeWhole, hf, hstore]

/-- The rounds compute what they compute on lists, whatever one round leaves to the next. -/
theorem foldlM_mergeShardLoop (lz4 : Lz4) (s : DecodeState OSMMMap) (is : List ℕ) :
    ∃ s', is.foldlM (mergeShardLoop lz4) s = some s' ∧
      s'.store = is.foldl (mergeShard lz4) s.store := by
  induction is generalizing s with
  | nil => exact ⟨s, rfl, rfl⟩
  | cons i is ih =>
    obtain ⟨t, hround, ht⟩ := mergeShardLoop_spec lz4 s i
    obtain ⟨s', hrun, hstore⟩ := ih t
    refine ⟨s', ?_, ?_⟩
    · rw [List.foldlM_cons, hround]
      exact hrun
    · rw [hstore, ht, List.foldl_cons]

/-- `mergeLoop` refines `merge`. -/
theorem mergeLoop_refines (lz4 : Lz4) (s : DecodeState OSMMMap) :
    ∃ s', mergeLoop lz4 s = some s' ∧ s'.store = merge lz4 s.store :=
  foldlM_mergeShardLoop lz4 s _

/-- Record reassembly does not depend on the chunks. Every call of `memcpy` stays inside its array; after any
outputs `carry` is below 24 and `partial` holds the incomplete record; and what is handed on are the records of the
unsplit stream. So each round of `merge()` writes those of its own file, whatever `carry` and `partial` the round
before has left. -/
theorem merge_reassembles {σ : Type} (sink : σ → Record → σ) (s : DecodeState σ) (outs : List Bytes)
    (lz4 : Lz4) (m : DecodeState OSMMMap) :
    (∃ s', decodeFile sink s outs = some s' ∧ Carries s' (remainder 24 outs.flatten) ∧
      s'.store = ((cut 24 outs.flatten).map Record.unpack).foldl sink s.store) ∧
    ∃ m', mergeLoop lz4 m = some m' ∧
      m'.store = (List.range m.store.shards.length).foldl (mergeWhole lz4) m.store := by
  refine ⟨decodeFile_spec sink s outs, ?_⟩
  obtain ⟨m', hrun, hstore⟩ := mergeLoop_refines lz4 m
  refine ⟨m', hrun, ?_⟩
  have hround : mergeShard lz4 = mergeWhole lz4 := by
    funext st i
    exact mergeShard_eq_mergeWhole lz4 st i
  rw [hstore, merge, hround]

end OSMMMap

end OsmImport
