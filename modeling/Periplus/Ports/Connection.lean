import Periplus.Ports.ClientFrames
import Periplus.Verified.Segments

/-!
# `connection.py`, `client.py`: the answer as the client reads it

`StreamReader.read(n)` returns what has arrived, up to `n` bytes.  A method reads
headers with single calls of `receive`, and strings and vectors in loops that
collect pieces; an acknowledgement is read with one call.

An exception ends the method, so its name and its message are all that is left.
-/

namespace Periplus.Ports

open Periplus.Verified.Memory
open Periplus.Verified.Run
open Periplus.Verified.Segments

/-- The exceptions of a method that reads an answer. -/
inductive PyError
  /-- `struct.error`: the buffer does not have the size of the format. -/
  | structError
  | unicodeDecodeError
  /-- `RuntimeError("socket connection broken")` -/
  | connectionBroken
  | periplusServerError (message operation : PyStr)
  deriving DecidableEq, Repr

/-- A coroutine that reads from the connection. -/
abbrev Reading (α : Type) := SegRead UInt8 PyError α

/-! ## Decoding -/

/-- `s.encode('utf-8')`. -/
def encodeUtf8 (s : PyStr) : Bytes := s.flatMap String.utf8EncodeChar

/-- `bs.decode('utf-8')`. -/
def decodeUtf8 (bs : Bytes) : Option PyStr := bs.toByteArray.utf8Decode?.map Array.toList

theorem decodeUtf8_encodeUtf8 (s : PyStr) : decodeUtf8 (encodeUtf8 s) = some s := by
  have h : (encodeUtf8 s).toByteArray.utf8Decode? = some s.toArray :=
    List.utf8Decode?_utf8Encode
  rw [decodeUtf8, h]
  rfl

theorem encodeUtf8_of_decodeUtf8 {bs : Bytes} {s : PyStr} (h : decodeUtf8 bs = some s) :
    encodeUtf8 s = bs := by
  obtain ⟨chars, hchars, rfl⟩ := Option.map_eq_some_iff.mp h
  have hget : bs.toByteArray.utf8Decode?.get (by rw [hchars]; rfl) = chars :=
    Option.get_of_eq_some _ hchars
  have hencode : chars.toList.utf8Encode = bs.toByteArray := by
    rw [← hget]
    exact ByteArray.utf8Encode_get_utf8Decode?
  exact List.toByteArray_inj.mp hencode

/-- `struct.unpack('Q', data)`. -/
def unpackQ (data : Bytes) : Except PyError Nat :=
  if data.length = 8 then .ok (ofLE data) else .error .structError

/-- `struct.unpack('i', data)`. -/
def unpackI (data : Bytes) : Except PyError Int :=
  if data.length = 4 then .ok (Int.bmod (ofLE data) (2 ^ 32)) else .error .structError

/-- The four-byte pieces of a buffer. -/
def floatsOf : Nat → Bytes → List F32
  | 0, _ => []
  | n + 1, data => UInt32.ofNat (ofLE (data.take 4)) :: floatsOf n (data.drop 4)

/-- `struct.unpack(f'{n}f', data)`. -/
def unpackFloats (n : Nat) (data : Bytes) : Except PyError (List F32) :=
  if data.length = 4 * n then .ok (floatsOf n data) else .error .structError

theorem floatsOf_floatBytes (xs : List F32) : floatsOf xs.length (floatBytes xs) = xs := by
  induction xs with
  | nil => rfl
  | cons x xs ih =>
      have htake : (floatBytes (x :: xs)).take 4 = toLE 4 x.toNat := by
        rw [floatBytes, List.flatMap_cons, List.take_left' (toLE_length 4 _)]
      have hdrop : (floatBytes (x :: xs)).drop 4 = floatBytes xs := by
        rw [floatBytes, List.flatMap_cons, List.drop_left' (toLE_length 4 _), ← floatBytes]
      have hlt : x.toNat < 256 ^ 4 := by
        have := x.toNat_lt
        norm_num
        omega
      rw [List.length_cons, floatsOf, htake, hdrop, ih, ofLE_toLE_of_lt hlt, UInt32.ofNat_toNat]

/-! ## Reading -/

/-- `conn.receive(n)`, and what is made of it. -/
def receiveWith {α : Type} (n : Nat) (f : Bytes → Except PyError α) : Reading α :=
  fun segs => (f (receive n segs).1).map (fun a => (a, (receive n segs).2))

/-- The loop of `_read_string` and `_read_floats`: pieces of at most 2048 bytes, until
there are `length`. -/
def receiveAll (length : Nat) (segs : List Bytes) : Except PyError (Bytes × List Bytes) :=
  if length = 0 then .ok ([], segs)
  else
    match receive (min length 2048) segs with
    | ([], _) => .error .connectionBroken
    | (b :: bs, segs) => do
        let (rest, segs) ← receiveAll (length - (b :: bs).length) segs
        .ok (b :: bs ++ rest, segs)
termination_by length
decreasing_by
  rw [List.length_cons]
  omega

/-- `b''.join(chunks).decode('utf-8')`, and `res.decode()`. -/
def decodeStrict (bs : Bytes) : Except PyError PyStr :=
  match decodeUtf8 bs with
  | some s => .ok s
  | none => .error .unicodeDecodeError

def readString (length : Nat) : Reading PyStr := do
  let bytes ← (receiveAll length : Reading Bytes)
  StateT.lift (decodeStrict bytes)

def readFloats (numFloats : Nat) : Reading (List F32) := do
  let allData ← (receiveAll (numFloats * 4) : Reading Bytes)
  StateT.lift (unpackFloats numFloats allData)

/-- `namedtuple('Record', …)`. -/
structure PyRecord where
  id : PyStr
  embedding : List F32
  document : PyStr
  metadata : PyStr
  deriving DecidableEq, Repr

def deserializeRecord : Reading PyRecord := do
  let idLength ← receiveWith 8 unpackQ
  let id ← readString idLength
  let numFloats ← receiveWith 8 unpackQ
  let embedding ← readFloats numFloats
  let documentLength ← receiveWith 8 unpackQ
  let document ← readString documentLength
  let metadataLength ← receiveWith 8 unpackQ
  let metadata ← readString metadataLength
  pure { id := id, embedding := embedding, document := document, metadata := metadata }

def deserializeRecords : Nat → Reading (List PyRecord)
  | 0 => pure []
  | n + 1 => do
      let record ← deserializeRecord
      let records ← deserializeRecords n
      pure (record :: records)

/-- `_deserialize_query_results`.  `range` of a negative number is empty. -/
def deserializeQueryResults : Nat → Reading (List (List PyRecord))
  | 0 => pure []
  | numQueries + 1 => do
      let numResults ← receiveWith 4 unpackI
      let records ← deserializeRecords numResults.toNat
      let results ← deserializeQueryResults numQueries
      pure (records :: results)

/-! ## What the readers make of a segmented stream -/

/-- Inside of a header of `n` bytes. -/
def insideHeader (n x : Nat) : Prop := 0 < x ∧ x < n

theorem framed_unpackQ {n : Nat} (h : n < 2 ^ 64) :
    Framed (receiveWith 8 unpackQ) (toLE 8 n) (some n) (insideHeader 8) := by
  refine framed_header unpackQ (toLE_length 8 n) ?_ (fun data hdata => ?_)
  · rw [unpackQ, if_pos (toLE_length 8 n), ofLE_toLE_of_lt (by norm_num; omega)]
  · exact ⟨.structError, if_neg (by omega)⟩

theorem framed_unpackI {x : Int} (hlo : -2 ^ 31 ≤ x) (hhi : x < 2 ^ 31) :
    Framed (receiveWith 4 unpackI) (intBytes x) (some x) (insideHeader 4) := by
  refine framed_header unpackI (toLE_length 4 _) ?_ (fun data hdata => ?_)
  · have hnonneg : 0 ≤ x % 2 ^ 32 := Int.emod_nonneg _ (by norm_num)
    have hlt : x % 2 ^ 32 < 2 ^ 32 := Int.emod_lt_of_pos _ (by omega)
    rw [unpackI, intBytes, if_pos (toLE_length 4 _), ofLE_toLE_of_lt (by norm_num; omega),
      Int.toNat_of_nonneg hnonneg]
    have hmod : (x % 2 ^ 32).bmod (2 ^ 32) = x.bmod (2 ^ 32) := Int.emod_bmod x (2 ^ 32)
    rw [hmod, Int.bmod_eq_of_le (by norm_num at hlo ⊢; omega) (by norm_num at hhi ⊢; omega)]
  · exact ⟨.structError, if_neg (by omega)⟩

/-- The loop collects exactly the bytes asked for, wherever the stream is cut. -/
theorem receiveAll_eq {xs : Bytes} {segs : List Bytes} {rest : Bytes} (hne : NoneEmpty segs)
    (hstream : segs.flatten = xs ++ rest) :
    receiveAll xs.length segs = .ok (xs, dropBytes xs.length segs) := by
  induction hlen : xs.length using Nat.strongRecOn generalizing xs segs with
  | ind n ih =>
      subst hlen
      rw [receiveAll]
      split
      · next hzero =>
          rw [List.length_eq_zero_iff] at hzero
          rw [hzero, List.length_nil, dropBytes_zero hne]
      · next hpos =>
          have hflat : segs.flatten ≠ [] := by
            intro h
            rw [h, eq_comm, List.append_eq_nil_iff] at hstream
            exact hpos (by rw [hstream.1, List.length_nil])
          obtain ⟨hdata, hsegs⟩ := receive_eq hne (min xs.length 2048)
          have hmpos := receive_length_pos hne (n := min xs.length 2048) (by omega) hflat
          have hmle := receive_length_le (min xs.length 2048) segs
          cases hr : receive (min xs.length 2048) segs with
          | mk data segs' =>
              rw [hr] at hdata hsegs hmpos hmle
              dsimp only at hdata hsegs hmpos hmle
              cases data with
              | nil => exact absurd hmpos (Nat.lt_irrefl 0)
              | cons b bs =>
                  -- what was received is a first part of `xs`
                  have htake : b :: bs = xs.take (b :: bs).length := by
                    rwa [hstream, List.take_append_of_le_length (by omega)] at hdata
                  have hrest : segs'.flatten = xs.drop (b :: bs).length ++ rest := by
                    rw [hsegs, flatten_dropBytes, hstream,
                      List.drop_append_of_le_length (by omega)]
                  have hnext := ih (xs.drop (b :: bs).length).length
                    (by rw [List.length_drop]; omega) (hsegs ▸ noneEmpty_dropBytes hne _) hrest rfl
                  rw [List.length_drop] at hnext
                  show (receiveAll (xs.length - (b :: bs).length) segs' >>= _) = _
                  rw [hnext, ok_bind]
                  have happend : b :: bs ++ xs.drop (b :: bs).length = xs := by
                    have h := List.take_append_drop (b :: bs).length xs
                    rwa [← htake] at h
                  show Except.ok (b :: bs ++ xs.drop (b :: bs).length, _) = _
                  rw [happend, hsegs, dropBytes_dropBytes,
                    Nat.add_sub_cancel' (by omega)]

theorem framed_readString (bs : Bytes) :
    Framed (readString bs.length) bs (decodeUtf8 bs) (fun _ => False) where
  inside := fun _ _ _ h => h.elim
  reads := by
    intro segs rest s hne hstream hs _
    rw [readString, segRead_bind_apply, receiveAll_eq hne hstream, ok_bind]
    show (decodeStrict bs >>= _) = _
    rw [decodeStrict, hs]
    rfl
  breaks := by
    rintro segs rest hne hstream (hs | ⟨x, h, _⟩)
    · refine ⟨.unicodeDecodeError, ?_⟩
      rw [readString, segRead_bind_apply, receiveAll_eq hne hstream, ok_bind]
      show (decodeStrict bs >>= _) = _
      rw [decodeStrict, hs]
      rfl
    · exact h.elim

theorem framed_readFloats (xs : List F32) :
    Framed (readFloats xs.length) (floatBytes xs) (some xs) (fun _ => False) where
  inside := fun _ _ _ h => h.elim
  reads := by
    intro segs rest ys hne hstream hys _
    rw [Option.some.injEq] at hys
    have hlen : xs.length * 4 = (floatBytes xs).length := by
      rw [floatBytes_length, Nat.mul_comm]
    rw [readFloats, hlen, segRead_bind_apply, receiveAll_eq hne hstream, ok_bind]
    show ((unpackFloats xs.length (floatBytes xs)) >>= _) = _
    rw [unpackFloats, if_pos (floatBytes_length xs), floatsOf_floatBytes, hys]
    rfl
  breaks := by
    rintro segs rest _ _ (h | ⟨x, h, _⟩)
    · exact absurd h (by simp)
    · exact h.elim

/-- The record that the client makes of the bytes of a record, when its texts are
UTF-8. -/
def Record.decode (r : Record) : Option PyRecord := do
  let id ← decodeUtf8 r.id
  let document ← decodeUtf8 r.document
  let metadata ← decodeUtf8 r.metadata
  some { id := id, embedding := r.embedding, document := document, metadata := metadata }

/-- The positions inside of the four length words of a record. -/
def Record.InsideHeader (r : Record) (x : Nat) : Prop :=
  insideHeader 8 x ∨
    after (8 + r.id.length) (insideHeader 8) x ∨
    after (16 + r.id.length + 4 * r.embedding.length) (insideHeader 8) x ∨
    after (24 + r.id.length + 4 * r.embedding.length + r.document.length) (insideHeader 8) x

theorem framed_deserializeRecord {r : Record} (hfits : r.encode.length < 2 ^ 64) :
    Framed deserializeRecord r.encode r.decode r.InsideHeader := by
  have hlen := r.encode_length
  have hid := framed_unpackQ (n := r.id.length) (by omega)
  have hembedding := framed_unpackQ (n := r.embedding.length) (by omega)
  have hdocument := framed_unpackQ (n := r.document.length) (by omega)
  have hmetadata := framed_unpackQ (n := r.metadata.length) (by omega)
  refine Framed.congr (hid.bind_some ((framed_readString r.id).bind_of_whole (fun id _ =>
      hembedding.bind_some ((framed_readFloats r.embedding).bind_some
        (hdocument.bind_some ((framed_readString r.document).bind_of_whole (fun document _ =>
          hmetadata.bind_some ((framed_readString r.metadata).map
            (fun metadata => PyRecord.mk id r.embedding document metadata)))))))))
    ?_ ?_ (fun x => ?_)
  · simp only [Record.encode, List.append_assoc]
  · simp only [Record.decode, Option.map_eq_bind]
    rfl
  · have hthird : 8 + r.id.length + (8 + 4 * r.embedding.length) =
        16 + r.id.length + 4 * r.embedding.length := by omega
    have hfourth : 8 + r.id.length + (8 + (4 * r.embedding.length + (8 + r.document.length))) =
        24 + r.id.length + 4 * r.embedding.length + r.document.length := by omega
    simp only [toLE_length, floatBytes_length, Record.InsideHeader, false_or, after_or,
      after_after, after_false, or_false, hthird, hfourth]

/-! ## The answer to a search -/

/-- The answer to one query: nothing after a miss, and otherwise its records. -/
abbrev QueryAnswer := Option (List Record)

/-- `cacheHits[i]`. -/
def QueryAnswer.hits : QueryAnswer → Int
  | none => -1
  | some records => records.length

def QueryAnswer.records : QueryAnswer → List Record
  | none => []
  | some records => records

/-- The hit count, and the records one after the other. -/
def QueryAnswer.encode (a : QueryAnswer) : Bytes :=
  intBytes a.hits ++ a.records.flatMap Record.encode

/-- The positions inside of the length words of records that follow each other. -/
def recordsInsideHeader : List Record → Nat → Prop
  | [], _ => False
  | r :: rs, x => r.InsideHeader x ∨ after r.encode.length (recordsInsideHeader rs) x

/-- The positions inside of the hit counts and the length words of an answer to
several queries. -/
def answersInsideHeader : List QueryAnswer → Nat → Prop
  | [], _ => False
  | a :: as, x =>
      (insideHeader 4 x ∨ after 4 (recordsInsideHeader a.records) x) ∨
        after a.encode.length (answersInsideHeader as) x

/-- The counts fit an `int`, and each record the address space. -/
def QueryAnswer.Fits (a : QueryAnswer) : Prop :=
  a.records.length < 2 ^ 31 ∧ ∀ r ∈ a.records, r.encode.length < 2 ^ 64

/-- The records that the client makes of the records of an answer. -/
def decodeRecords : List Record → Option (List PyRecord)
  | [] => some []
  | r :: rs => do
      let record ← r.decode
      let records ← decodeRecords rs
      some (record :: records)

def decodeAnswers : List QueryAnswer → Option (List (List PyRecord))
  | [] => some []
  | a :: as => do
      let records ← decodeRecords a.records
      let results ← decodeAnswers as
      some (records :: results)

theorem framed_deserializeRecords {rs : List Record}
    (hfits : ∀ r ∈ rs, r.encode.length < 2 ^ 64) :
    Framed (deserializeRecords rs.length) (rs.flatMap Record.encode) (decodeRecords rs)
      (recordsInsideHeader rs) := by
  induction rs with
  | nil => exact framed_pure []
  | cons r rs ih =>
      rw [List.forall_mem_cons] at hfits
      have h := (framed_deserializeRecord hfits.1).bind (fun record _ =>
        (ih hfits.2).map (fun records => record :: records))
      refine h.congr rfl ?_ (fun x => Iff.rfl)
      simp only [decodeRecords, Option.map_eq_bind]
      rfl

/-- **The client on a segmented answer.**  It decodes the answer, unless there is a
cut inside of a hit count or of a length word. -/
theorem framed_deserializeQueryResults {as : List QueryAnswer}
    (hfits : ∀ a ∈ as, QueryAnswer.Fits a) :
    Framed (deserializeQueryResults as.length) (as.flatMap QueryAnswer.encode)
      (decodeAnswers as) (answersInsideHeader as) := by
  induction as with
  | nil => exact framed_pure []
  | cons a as ih =>
      rw [List.forall_mem_cons] at hfits
      have hcount : a.hits.toNat = a.records.length := by
        cases a <;> rfl
      have hint : -2 ^ 31 ≤ a.hits ∧ a.hits < 2 ^ 31 := by
        have := hfits.1.1
        cases a with
        | none => exact ⟨by show -2 ^ 31 ≤ (-1 : Int); omega, by show (-1 : Int) < 2 ^ 31; omega⟩
        | some records =>
            show -2 ^ 31 ≤ (records.length : Int) ∧ (records.length : Int) < 2 ^ 31
            have hlen : records.length < 2 ^ 31 := this
            omega
      have hrecords := framed_deserializeRecords hfits.1.2
      rw [← hcount] at hrecords
      refine Framed.congr ((framed_unpackI hint.1 hint.2).bind_some (hrecords.bind
        (fun records _ => (ih hfits.2).map (fun results => records :: results)))) ?_ ?_
        (fun x => ?_)
      · rw [List.flatMap_cons, QueryAnswer.encode, List.append_assoc]
      · simp only [decodeAnswers, Option.map_eq_bind]
        rfl
      · simp only [answersInsideHeader, after_or, after_after, QueryAnswer.encode,
          List.length_append, or_assoc]
        rfl

end Periplus.Ports
