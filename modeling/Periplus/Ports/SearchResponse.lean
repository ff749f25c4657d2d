import Periplus.Ports.Connection

/-!
# The client decodes the answer that the server sends

`Cache::search` sends, for each query, the hit count and the records of the first
`cacheHits[i]` slots of its row.  A record is encoded into a buffer of its own and
copied out in blocks of `Session::max_length`.

`blocks` is the loop that cuts a record into blocks.  Its last block is computed by
an unsigned subtraction, and its condition by another one, which is evaluated only
when there are `max_length` bytes.
-/

namespace Periplus.Ports

open Periplus.Verified.Memory
open Periplus.Verified.Run
open Periplus.Verified.Segments

/-- The record of a Python record's texts. -/
def PyRecord.toRecord (p : PyRecord) : Record where
  id := encodeUtf8 p.id
  embedding := p.embedding
  document := encodeUtf8 p.document
  metadata := encodeUtf8 p.metadata

theorem decode_toRecord (p : PyRecord) : p.toRecord.decode = some p := by
  simp only [Record.decode, PyRecord.toRecord, decodeUtf8_encodeUtf8]
  rfl

theorem decodeRecords_toRecord (ps : List PyRecord) :
    decodeRecords (ps.map PyRecord.toRecord) = some ps := by
  induction ps with
  | nil => rfl
  | cons p ps ih =>
      rw [List.map_cons, decodeRecords, decode_toRecord, ih]
      rfl

/-! ## The blocks of a record -/

/-- No subtraction of the loop goes below zero: a block ends inside of the record. -/
theorem blocks_le {size l : Nat} (hsize : size < 2 ^ 64) (hl : l ≤ size) :
    ∀ b ∈ blocks size l, b.1 + b.2 ≤ size := by
  fun_induction blocks size l with
  | case1 l h ih =>
      rw [sizeSub_of_le h.1 hsize] at h
      intro b hb
      rcases List.mem_cons.mp hb with rfl | hb
      · show l + maxLength ≤ size
        omega
      · exact ih (by omega) b hb
  | case2 l h =>
      intro b hb
      rw [List.mem_singleton] at hb
      subst hb
      show l + sizeSub size l ≤ size
      rw [sizeSub_of_le hl hsize]
      omega

theorem sendBlock_eq {bytes : Bytes} {l n : Nat} (hn : n ≤ maxLength)
    (hl : l + n ≤ bytes.length) : sendBlock bytes (l, n) = .ok ((bytes.drop l).take n) := by
  rw [sendBlock, if_pos hn, window_of_le hl, bounded_some]

/-- The blocks make up the record, and each fits the buffer. -/
theorem sendBlocks_eq {bytes : Bytes} (hsize : bytes.length < 2 ^ 64) {l : Nat}
    (hl : l < bytes.length) :
    ∃ bs, sendBlocks bytes (blocks bytes.length l) = .ok bs ∧ bs.flatten = bytes.drop l ∧
      ∀ b ∈ bs, 1 ≤ b.length ∧ b.length ≤ maxLength := by
  fun_induction blocks bytes.length l with
  | case1 l h ih =>
      rw [sizeSub_of_le h.1 hsize] at h
      obtain ⟨bs, hbs, hflat, hlengths⟩ := ih (by omega)
      have hblock : sendBlock bytes (l, maxLength) = .ok ((bytes.drop l).take maxLength) :=
        sendBlock_eq (Nat.le_refl maxLength) (by omega)
      have hlen : ((bytes.drop l).take maxLength).length = maxLength := by
        rw [List.length_take, List.length_drop]
        omega
      refine ⟨(bytes.drop l).take maxLength :: bs, ?_, ?_, ?_⟩
      · rw [sendBlocks, hblock, ok_bind, hbs, ok_bind]
      · rw [List.flatten_cons, hflat, ← List.drop_drop, List.take_append_drop]
      · intro b hb
        rcases List.mem_cons.mp hb with rfl | hb
        · rw [hlen]
          exact ⟨by decide, Nat.le_refl _⟩
        · exact hlengths b hb
  | case2 l h =>
      have hsub := sizeSub_of_le (Nat.le_of_lt hl) hsize
      have hle : bytes.length - l ≤ maxLength := by
        by_cases hmax : maxLength ≤ bytes.length
        · rw [sizeSub_of_le hmax hsize] at h
          omega
        · omega
      have hlen : ((bytes.drop l).take (bytes.length - l)).length = bytes.length - l := by
        rw [List.length_take, List.length_drop]
        omega
      refine ⟨[(bytes.drop l).take (bytes.length - l)], ?_, ?_, ?_⟩
      · rw [sendBlocks, hsub, sendBlock_eq hle (by omega), ok_bind, sendBlocks, ok_bind]
      · rw [List.flatten_singleton, List.take_of_length_le (by rw [List.length_drop])]
      · intro b hb
        rw [List.mem_singleton] at hb
        rw [hb, hlen]
        omega

/-! ## The records of a query, and the queries -/

section Answers

variable {results : List Data} {ps : List PyRecord}

/-- The slots hold the records. -/
def HoldAll (results : List Data) (ps : List PyRecord) : Prop :=
  List.Forall₂ (fun x p => Data.Holds x p.toRecord) results ps

theorem HoldAll.get (h : HoldAll results ps) {i : Nat} (hi : i < ps.length) :
    ∃ x p, results[i]? = some x ∧ ps[i]? = some p ∧ x.Holds p.toRecord := by
  obtain ⟨hlen, hget⟩ := List.forall₂_iff_get.mp h
  have hi' : i < results.length := by omega
  exact ⟨results.get ⟨i, hi'⟩, ps.get ⟨i, hi⟩, List.getElem?_eq_getElem hi',
    List.getElem?_eq_getElem hi, hget i hi' hi⟩

theorem filterMap_range {α : Type} (xs : List α) (base m : Nat) :
    (List.range m).filterMap (fun j => xs[base + j]?) = (xs.drop base).take m := by
  induction m with
  | zero => rfl
  | succ m ih =>
      rw [List.range_succ, List.filterMap_append, ih, List.take_add_one, List.getElem?_drop]
      cases h : xs[base + m]? <;> simp [h]

theorem sendRecords_eq (h : HoldAll results ps) {base : Nat} {js : List Nat}
    (hjs : ∀ j ∈ js, base + j < ps.length) :
    ∃ bs, sendRecords results base js = .ok bs ∧
      bs.flatten = (js.filterMap (fun j => ps[base + j]?)).flatMap (fun p => p.toRecord.encode) ∧
      ∀ b ∈ bs, 1 ≤ b.length ∧ b.length ≤ maxLength := by
  induction js with
  | nil => exact ⟨[], rfl, rfl, by simp⟩
  | cons j js ih =>
      rw [List.forall_mem_cons] at hjs
      obtain ⟨x, p, hx, hp, hholds⟩ := h.get hjs.1
      obtain ⟨rest, hrest, hflat, hlengths⟩ := ih hjs.2
      obtain ⟨record, hrecord, hencode, hpieces⟩ :=
        sendBlocks_eq hholds.fits (Record.encode_pos p.toRecord)
      refine ⟨record ++ rest, ?_, ?_, ?_⟩
      · rw [sendRecords, hx, bounded_some, ok_bind, Data.serialize_of_holds hholds, ok_bind,
          hrecord, ok_bind, hrest, ok_bind]
      · rw [List.flatten_append, hencode, hflat, List.drop_zero, List.filterMap_cons, hp,
          List.flatMap_cons]
      · exact List.forall_mem_append.mpr ⟨hpieces, hlengths⟩

/-- The answer that the server sends for query `i`. -/
def answerAt (k : Nat) (cacheHits : List Int) (ps : List PyRecord) (i : Nat) : QueryAnswer :=
  if cacheHits.getD i 0 = -1 then none
  else some (((ps.drop (i * k)).take (cacheHits.getD i 0).toNat).map PyRecord.toRecord)

theorem answerAt_records {k : Nat} {cacheHits : List Int} {i : Nat} :
    (answerAt k cacheHits ps i).records =
      ((ps.drop (i * k)).take (cacheHits.getD i 0).toNat).map PyRecord.toRecord := by
  unfold answerAt
  split
  · next h =>
      rw [h]
      rfl
  · rfl

theorem answerAt_hits {k i : Nat} {cacheHits : List Int}
    (hlo : -1 ≤ cacheHits.getD i 0) (hroom : i * k + (cacheHits.getD i 0).toNat ≤ ps.length) :
    (answerAt k cacheHits ps i).hits = cacheHits.getD i 0 := by
  unfold answerAt
  split
  · next h =>
      rw [h]
      rfl
  · next h =>
      show ((((ps.drop (i * k)).take (cacheHits.getD i 0).toNat).map
        PyRecord.toRecord).length : Int) = _
      rw [List.length_map, List.length_take, List.length_drop, Nat.min_eq_left (by omega)]
      omega

/-- Query `i` has a hit count of the kind the core computes, and its slots are there. -/
def CountAt (k : Nat) (cacheHits : List Int) (ps : List PyRecord) (i : Nat) : Prop :=
  ∃ h, cacheHits[i]? = some h ∧ -1 ≤ h ∧ h < 2 ^ 31 ∧ i * k + h.toNat ≤ ps.length

theorem sendQueries_eq (h : HoldAll results ps) {k : Nat} {cacheHits : List Int}
    {is : List Nat} (his : ∀ i ∈ is, CountAt k cacheHits ps i) :
    ∃ bs, sendQueries k results cacheHits is = .ok bs ∧
      bs.flatten = (is.map (answerAt k cacheHits ps)).flatMap QueryAnswer.encode ∧
      ∀ b ∈ bs, 1 ≤ b.length ∧ b.length ≤ maxLength := by
  induction is with
  | nil => exact ⟨[], rfl, rfl, by simp⟩
  | cons i is ih =>
      rw [List.forall_mem_cons] at his
      obtain ⟨⟨hits, hget, hlo, _, hroom⟩, hrest⟩ := his
      have hgetD : cacheHits.getD i 0 = hits := by
        rw [List.getD_eq_getElem?_getD, hget, Option.getD_some]
      obtain ⟨rest, hsend, hflat, hlengths⟩ := ih hrest
      have hinside : ∀ j ∈ List.range hits.toNat, i * k + j < ps.length := by
        intro j hj
        have := List.mem_range.mp hj
        omega
      obtain ⟨records, hrecords, hbytes, hpieces⟩ := sendRecords_eq h hinside
      rw [filterMap_range] at hbytes
      refine ⟨intBytes hits :: records ++ rest, ?_, ?_, ?_⟩
      · rw [sendQueries, hget, bounded_some, ok_bind, hrecords, ok_bind, hsend, ok_bind]
      · have hhits : (answerAt k cacheHits ps i).hits = cacheHits.getD i 0 :=
          answerAt_hits (by rw [hgetD]; exact hlo) (by rw [hgetD]; exact hroom)
        rw [List.map_cons, List.flatMap_cons, QueryAnswer.encode, answerAt_records, hhits, hgetD,
          List.flatMap_map, List.flatten_append, List.flatten_cons, hbytes, hflat]
      · intro b hb
        rcases List.mem_append.mp hb with hb | hb
        · rcases List.mem_cons.mp hb with rfl | hb
          · rw [intBytes, toLE_length]
            decide
          · exact hpieces b hb
        · exact hlengths b hb

theorem decodeAnswers_answerAt (k : Nat) (cacheHits : List Int) (is : List Nat) :
    decodeAnswers (is.map (answerAt k cacheHits ps)) =
      some (is.map (fun i => (ps.drop (i * k)).take (cacheHits.getD i 0).toNat)) := by
  induction is with
  | nil => rfl
  | cons i is ih =>
      rw [List.map_cons, decodeAnswers, answerAt_records, decodeRecords_toRecord, ih]
      rfl

theorem answerAt_fits (h : HoldAll results ps) {k i : Nat} {cacheHits : List Int}
    (hcount : CountAt k cacheHits ps i) : (answerAt k cacheHits ps i).Fits := by
  obtain ⟨hits, hget, _, hlt, hroom⟩ := hcount
  have hgetD : cacheHits.getD i 0 = hits := by
    rw [List.getD_eq_getElem?_getD, hget, Option.getD_some]
  rw [QueryAnswer.Fits, answerAt_records, hgetD]
  constructor
  · rw [List.length_map, List.length_take]
    omega
  · intro r hr
    obtain ⟨p, hp, rfl⟩ := List.mem_map.mp hr
    obtain ⟨j, hj, hpj⟩ := List.mem_iff_getElem.mp (List.mem_of_mem_drop (List.mem_of_mem_take hp))
    obtain ⟨x, p', _, hp', hholds⟩ := h.get hj
    rw [List.getElem?_eq_getElem hj, hpj, Option.some.injEq] at hp'
    rw [hp']
    exact hholds.fits

end Answers

/-- **The client decodes the answer of a search.**  For hit counts between `-1` and
`k` and `n * k` slots that hold records with texts in UTF-8, the server sends blocks
of between 1 and 1024 bytes, no subtraction going below zero; read from one segment,
they give the first records of each row, and nothing is left. -/
theorem searchResponse_decoded {n k : Nat} {cacheHits : List Int} {results : List Data}
    {ps : List PyRecord} (hlen : cacheHits.length = n)
    (hhits : ∀ h ∈ cacheHits, -1 ≤ h ∧ h ≤ k ∧ h < 2 ^ 31) (hps : ps.length = n * k)
    (hresults : HoldAll results ps) :
    ∃ bs, sendQueries k results cacheHits (List.range n) = .ok bs ∧
      (∀ b ∈ bs, 1 ≤ b.length ∧ b.length ≤ 1024) ∧
      (∀ p ∈ ps, ∀ b ∈ blocks p.toRecord.encode.length 0,
        b.1 + b.2 ≤ p.toRecord.encode.length) ∧
      ∃ rest, deserializeQueryResults n [bs.flatten] =
          .ok ((List.range n).map (fun i =>
            (ps.drop (i * k)).take (cacheHits.getD i 0).toNat), rest) ∧
        rest.flatten = [] := by
  have hcounts : ∀ i ∈ List.range n, CountAt k cacheHits ps i := by
    intro i hi
    have hi' : i < cacheHits.length := by
      rw [hlen]
      exact List.mem_range.mp hi
    obtain ⟨hlo, hle, hlt⟩ := hhits _ (List.getElem_mem hi')
    refine ⟨cacheHits[i], List.getElem?_eq_getElem hi', hlo, hlt, ?_⟩
    have hrow := row_le (List.mem_range.mp hi) k
    omega
  obtain ⟨bs, hsend, hflat, hlengths⟩ := sendQueries_eq hresults hcounts
  refine ⟨bs, hsend, hlengths, ?_, ?_⟩
  · intro p hp
    obtain ⟨j, hj, hpj⟩ := List.mem_iff_getElem.mp hp
    obtain ⟨x, p', _, hp', hholds⟩ := hresults.get hj
    rw [List.getElem?_eq_getElem hj, hpj, Option.some.injEq] at hp'
    rw [hp']
    exact blocks_le hholds.fits (Nat.zero_le _)
  · cases n with
    | zero => exact ⟨[bs.flatten], rfl, by
        rw [hflat]
        rfl⟩
    | succ n =>
        have hfits : ∀ a ∈ (List.range (n + 1)).map (answerAt k cacheHits ps), QueryAnswer.Fits a := by
          intro a ha
          obtain ⟨i, hi, rfl⟩ := List.mem_map.mp ha
          exact answerAt_fits hresults (hcounts i hi)
        have hframed := framed_deserializeQueryResults hfits
        rw [List.length_map, List.length_range, ← hflat, decodeAnswers_answerAt] at hframed
        refine ⟨[], hframed.reads_single ?_, rfl⟩
        rw [hflat, List.range_succ_eq_map, List.map_cons, List.flatMap_cons, QueryAnswer.encode]
        simp [intBytes, toLE]

/-- Two queries: a hit with one record, and a miss. -/
theorem searchResponse_decoded_hitAndMiss :
    ∃ bs, sendQueries 1 [(PyRecord.toRecord ⟨['a'], [7], [], ['b']⟩).toData, {}] [1, -1]
        (List.range 2) = .ok bs ∧
      (∀ b ∈ bs, 1 ≤ b.length ∧ b.length ≤ 1024) ∧
      (∀ p ∈ [⟨['a'], [7], [], ['b']⟩, ⟨[], [], [], []⟩],
        ∀ b ∈ blocks (PyRecord.toRecord p).encode.length 0,
          b.1 + b.2 ≤ (PyRecord.toRecord p).encode.length) ∧
      ∃ rest, deserializeQueryResults 2 [bs.flatten] =
          .ok ([[⟨['a'], [7], [], ['b']⟩], []], rest) ∧ rest.flatten = [] := by
  have hhold : HoldAll [(PyRecord.toRecord ⟨['a'], [7], [], ['b']⟩).toData, {}]
      [⟨['a'], [7], [], ['b']⟩, ⟨[], [], [], []⟩] := by
    refine List.Forall₂.cons ?_ (List.Forall₂.cons ?_ List.Forall₂.nil)
    · exact Record.toData_holds (by decide)
    · exact ⟨rfl, rfl, rfl, rfl, rfl, rfl, rfl, rfl, by decide⟩
  exact searchResponse_decoded (n := 2) (k := 1) (show ([1, -1] : List Int).length = 2 from rfl)
    (by decide) rfl hhold

end Periplus.Ports
