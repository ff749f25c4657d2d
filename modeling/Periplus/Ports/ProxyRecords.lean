import Periplus.Ports.DbClient

/-!
# A record of the proxy, from its text to its slot

The proxy answers with records, and the decoder sees them through the parser.
A number that is written without a fraction and without an exponent is stored as
an integer if one of 64 bits can hold it, and `IsFloat` does not hold of it; the
decoder then leaves its place to the next `float`.  A string is copied up to its
first NUL.

## Main results

* `fillItems_records` — every slot is what the loop's body makes of its record.
* `faithful_iff` — that is the record itself exactly when every number of the
  embedding is stored as a `double` and no string has a NUL in it.
* `DBClient.search_faithful_iff` — the same of the records of a whole answer.
-/

namespace Periplus.Ports

open Periplus.Verified.Memory
open Periplus.Verified.Run

/-- A number of a JSON text, as it is written. -/
structure Number where
  negative : Bool := false
  integer : Nat
  /-- The digits behind the point. -/
  fraction : Option (List (Fin 10)) := none
  exponent : Option Int := none
  deriving DecidableEq, Repr

namespace Number

/-- The parser stores the number as an integer. -/
def StoredAsInteger (n : Number) : Prop :=
  n.fraction = none ∧ n.exponent = none ∧
    if n.negative then n.integer ≤ 2 ^ 63 else n.integer < 2 ^ 64

instance (n : Number) : Decidable n.StoredAsInteger := by
  unfold StoredAsInteger
  infer_instance

/-- The number as the decoder sees it; `round` is the `float` next to a number, if
it is in the range of `float`s. -/
def toJson (round : Number → Option F32) (n : Number) : Json :=
  .number (if n.StoredAsInteger then none else round n)

end Number

/-- A result of the proxy: three strings, as their UTF-8 bytes, and an embedding. -/
structure ProxyRecord where
  id : Bytes
  embedding : List Number
  document : Bytes
  metadata : Bytes

namespace ProxyRecord

/-- The members of a result are those of the record.  There may be others. -/
structure Written (round : Number → Option F32) (item : Json) (r : ProxyRecord) : Prop where
  members : ∃ ms, item = .object ms ∧
    ms.lookup (ascii "id") = some (.string r.id) ∧
    ms.lookup (ascii "embedding") = some (.array (r.embedding.map (Number.toJson round))) ∧
    ms.lookup (ascii "document") = some (.string r.document) ∧
    ms.lookup (ascii "metadata") = some (.string r.metadata)

/-- A slot holds the record: each string with its length, and an embedding of the
record's length with the record's numbers, rounded. -/
structure Faithful (round : Number → Option F32) (r : ProxyRecord) (x : Data) : Prop where
  idLen : x.idLen = r.id.length
  id : Data.readChars x.id x.idLen = .ok r.id
  embeddingLen : x.embeddingLen = r.embedding.length
  embedding : x.embedding = some (r.embedding.map round)
  documentLen : x.documentLen = r.document.length
  document : Data.readChars x.document x.documentLen = .ok r.document
  metadataLen : x.metadataLen = r.metadata.length
  metadata : Data.readChars x.metadata x.metadataLen = .ok r.metadata

/-- Every number is in the range of `float`s. -/
def InRange (round : Number → Option F32) (r : ProxyRecord) : Prop :=
  ∀ n ∈ r.embedding, (round n).isSome

instance (round : Number → Option F32) (r : ProxyRecord) : Decidable (r.InRange round) := by
  unfold InRange
  infer_instance

/-- What the decoder is made for: no number is stored as an integer, and no string
has a NUL in it. -/
structure Plain (r : ProxyRecord) : Prop where
  numbers : ∀ n ∈ r.embedding, ¬ n.StoredAsInteger
  id : 0 ∉ r.id
  document : 0 ∉ r.document
  metadata : 0 ∉ r.metadata

/-- What the loop's body makes of a record. -/
def slot (round : Number → Option F32) (r : ProxyRecord) : Data where
  idLen := (cChars r.id).length
  embeddingLen := r.embedding.length
  documentLen := (cChars r.document).length
  metadataLen := (cChars r.metadata).length
  id := some (cChars r.id ++ [0])
  embedding := some (DBClient.embeddingBuffer (r.embedding.map (Number.toJson round)))
  document := some (cChars r.document ++ [0])
  metadata := some (cChars r.metadata ++ [0])

theorem decodeItem_written {round : Number → Option F32} {ms : List (Bytes × Json)}
    {r : ProxyRecord} (h : Written round (.object ms) r) :
    DBClient.decodeItem ms {} = .ok (r.slot round) := by
  obtain ⟨ms', hobject, hid, hembedding, hdocument, hmetadata⟩ := h.members
  cases hobject
  have hvals : DBClient.arrayMember ms (ascii "embedding") =
      some (r.embedding.map (Number.toJson round)) := by
    rw [DBClient.arrayMember, hembedding]
  rw [DBClient.decodeItem_of_isSome hvals]
  simp only [DBClient.decodeId, DBClient.decodeDocument, DBClient.decodeMetadata,
    DBClient.stringMember, hid, hdocument, hmetadata, slot, List.length_map]

/-- **The loop over the records** of an answer with no more of them than slots. -/
theorem fillItems_records {round : Number → Option F32} {items : List Json}
    {records : List ProxyRecord} {n : Nat}
    (h : List.Forall₂ (Written round) items records) (hle : records.length ≤ n) :
    DBClient.fillItems items 0 (List.replicate n {}) =
      .ok (records.map (slot round) ++ List.replicate (n - records.length) ({} : Data)) := by
  have hlen : items.length = records.length := h.length_eq
  have hdecoded : List.Forall₂ (fun item x => ∃ ms, item = Json.object ms ∧
      DBClient.decodeItem ms {} = .ok x) items (records.map (slot round)) := by
    rw [List.forall₂_map_right_iff]
    refine h.imp ?_
    intro item r hwritten
    obtain ⟨ms, hobject, _⟩ := hwritten.members
    subst hobject
    exact ⟨ms, rfl, decodeItem_written hwritten⟩
  refine (DBClient.fillItems_eq_ok_iff items [] n _).mpr ⟨by omega, _, hdecoded, ?_⟩
  rw [hlen, List.nil_append]

/-! ## When the slot is the record -/

theorem cChars_eq_self {s : Bytes} : cChars s = s ↔ 0 ∉ s := by
  rw [cChars, List.takeWhile_eq_self_iff]
  constructor
  · intro h hmem
    simpa using h 0 hmem
  · intro h a ha
    have hne : a ≠ 0 := fun h0 => h (h0 ▸ ha)
    simpa using hne

/-- A copy of the characters before the first NUL is the string, with its length,
exactly when there is no NUL. -/
theorem copy_iff (s : Bytes) :
    ((cChars s).length = s.length ∧
      Data.readChars (some (cChars s ++ [0])) (cChars s).length = .ok s) ↔ 0 ∉ s := by
  have hread : Data.readChars (some (cChars s ++ [0])) (cChars s).length =
      .ok (cChars s) := congrArg bounded (window_append_left (cChars s) [0])
  rw [hread, Except.ok.injEq, ← cChars_eq_self]
  constructor
  · intro h
    exact h.2
  · intro h
    exact ⟨congrArg List.length h, h⟩

theorem float?_toJson {round : Number → Option F32} {n : Number} (h : (round n).isSome) :
    (n.toJson round).float? = round n ↔ ¬ n.StoredAsInteger := by
  show (if n.StoredAsInteger then none else round n) = round n ↔ _
  by_cases hint : n.StoredAsInteger
  · rw [if_pos hint]
    constructor
    · intro hnone
      rw [← hnone] at h
      exact absurd h (by simp)
    · intro hnot
      exact absurd hint hnot
  · rw [if_neg hint]
    exact ⟨fun _ => hint, fun _ => rfl⟩

/-- The buffer holds the numbers exactly when none is stored as an integer: the
first one that is leaves a place at the end that is not written. -/
theorem buffer_iff {round : Number → Option F32} {numbers : List Number}
    (hrange : ∀ n ∈ numbers, (round n).isSome) :
    DBClient.embeddingBuffer (numbers.map (Number.toJson round)) = numbers.map round ↔
      ∀ n ∈ numbers, ¬ n.StoredAsInteger := by
  have hv : numbers.map round = (numbers.map (fun n => (round n).getD 0)).map some := by
    rw [List.map_map]
    refine List.map_congr_left ?_
    intro n hn
    obtain ⟨f, hf⟩ := Option.isSome_iff_exists.mp (hrange n hn)
    show round n = some ((round n).getD 0)
    rw [hf, Option.getD_some]
  have hall : (numbers.map (Number.toJson round)).map Json.float? = numbers.map round ↔
      ∀ n ∈ numbers, ¬ n.StoredAsInteger := by
    rw [List.map_map, List.map_inj_left]
    exact forall₂_congr (fun n hn => float?_toJson (hrange n hn))
  rw [← hall, hv, ← written_eq_some, DBClient.written_embeddingBuffer, DBClient.floats_eq_some]

/-- **A slot holds its record** exactly when the record is plain. -/
theorem faithful_iff {round : Number → Option F32} {r : ProxyRecord}
    (hrange : r.InRange round) : Faithful round r (r.slot round) ↔ r.Plain := by
  have hbuffer := buffer_iff hrange
  constructor
  · intro h
    exact ⟨hbuffer.mp (Option.some.inj h.embedding), (copy_iff r.id).mp ⟨h.idLen, h.id⟩,
      (copy_iff r.document).mp ⟨h.documentLen, h.document⟩,
      (copy_iff r.metadata).mp ⟨h.metadataLen, h.metadata⟩⟩
  · intro h
    obtain ⟨hidLen, hid⟩ := (copy_iff r.id).mpr h.id
    obtain ⟨hdocumentLen, hdocument⟩ := (copy_iff r.document).mpr h.document
    obtain ⟨hmetadataLen, hmetadata⟩ := (copy_iff r.metadata).mpr h.metadata
    exact {
      idLen := hidLen
      id := hid
      embeddingLen := rfl
      embedding := congrArg some (hbuffer.mpr h.numbers)
      documentLen := hdocumentLen
      document := hdocument
      metadataLen := hmetadataLen
      metadata := hmetadata }

end ProxyRecord

namespace DBClient

/-! ## A whole answer -/

/-- The text of an answer that lists the records. -/
structure Lists (parse : Bytes → Option Json) (round : Number → Option F32) (text : Bytes)
    (records : List ProxyRecord) : Prop where
  results : ∃ top items, parse (cChars text) = some (.object top) ∧
    top.lookup (ascii "results") = some (.array items) ∧
    List.Forall₂ (ProxyRecord.Written round) items records
  inRange : ∀ r ∈ records, r.InRange round

/-- The request comes back, and slot `i` holds the `i`-th record. -/
def FilledFaithfully (parse : Bytes → Option Json) (round : Number → Option F32)
    (text : Bytes) (ids : List Bytes) (records : List ProxyRecord) : Prop :=
  ∃ x, search parse (fun _ => ⟨200, text⟩) ids = .filled x ∧
    ∀ (i : Nat) r, records[i]? = some r → ∃ y, x.toList[i]? = some y ∧
      ProxyRecord.Faithful round r y

/-- An answer with no more records than slots is decoded, record by record. -/
theorem search_lists {parse : Bytes → Option Json} {round : Number → Option F32}
    {text : Bytes} {ids : List Bytes} {records : List ProxyRecord}
    (h : Lists parse round text records) (hle : records.length ≤ ids.length) :
    ∃ x, search parse (fun _ => ⟨200, text⟩) ids = .filled x ∧
      x.toList = records.map (ProxyRecord.slot round) ++
        List.replicate (ids.length - records.length) ({} : Data) := by
  obtain ⟨top, items, hparse, hresults, hitems⟩ := h.results
  refine search_of_ok ?_
  rw [hparse]
  have hmember : arrayMember top (ascii "results") = some items := by
    rw [arrayMember, hresults]
  simp only [fillSlots, Json.members, ok_bind, hmember]
  exact ProxyRecord.fillItems_records hitems hle

/-- **When an answer is decoded faithfully.** -/
theorem search_faithful_iff (parse : Bytes → Option Json) (round : Number → Option F32)
    (text : Bytes) (ids : List Bytes) (records : List ProxyRecord)
    (h : Lists parse round text records) (hle : records.length ≤ ids.length) :
    FilledFaithfully parse round text ids records ↔ ∀ r ∈ records, r.Plain := by
  obtain ⟨x, hx, hslots⟩ := search_lists h hle
  have hslot : ∀ (i : Nat) r, records[i]? = some r →
      x.toList[i]? = some (ProxyRecord.slot round r) := by
    intro i r hr
    rw [hslots, List.getElem?_append_left, List.getElem?_map, hr]
    · rfl
    · rw [List.length_map]
      exact (List.getElem?_eq_some_iff.mp hr).1
  constructor
  · rintro ⟨x', hx', hfaithful⟩ r hr
    rw [hx, DbAnswer.filled.injEq] at hx'
    subst hx'
    obtain ⟨i, hi⟩ := List.mem_iff_getElem?.mp hr
    obtain ⟨y, hy, hrecord⟩ := hfaithful i r hi
    rw [hslot i r hi, Option.some.injEq] at hy
    subst hy
    exact (ProxyRecord.faithful_iff (h.inRange r hr)).mp hrecord
  · intro hplain
    refine ⟨x, hx, ?_⟩
    intro i r hi
    have hr : r ∈ records := List.mem_of_getElem? hi
    exact ⟨_, hslot i r hi,
      (ProxyRecord.faithful_iff (h.inRange r hr)).mpr (hplain r hr)⟩

/-! ### One integer in an embedding -/

/-- `1`, `0.5` and `1.0`. -/
def sampleRound (n : Number) : Option F32 :=
  if n = { integer := 1 } then some 0x3F800000
  else if n = { integer := 0, fraction := some [5] } then some 0x3F000000
  else if n = { integer := 1, fraction := some [0] } then some 0x3F800000
  else none

/-- The record whose embedding is written `[1, 0.5]`. -/
def wholeRecord : ProxyRecord where
  id := ascii "a"
  embedding := [{ integer := 1 }, { integer := 0, fraction := some [5] }]
  document := []
  metadata := []

/-- The record whose embedding is written `[1.0, 0.5]`. -/
def pointedRecord : ProxyRecord where
  id := ascii "a"
  embedding := [{ integer := 1, fraction := some [0] }, { integer := 0, fraction := some [5] }]
  document := []
  metadata := []

/-- The text of an answer with one record, and its document. -/
def recordText (embedding : String) : Bytes :=
  ascii "\x7b\"results\":[\x7b\"id\":\"a\",\"embedding\":" ++ ascii embedding ++
    ascii ",\"document\":\"\",\"metadata\":\"\"\x7d]\x7d"

def recordDocument (round : Number → Option F32) (r : ProxyRecord) : Json :=
  .object [(ascii "results", .array [.object [(ascii "id", .string r.id),
    (ascii "embedding", .array (r.embedding.map (Number.toJson round))),
    (ascii "document", .string r.document), (ascii "metadata", .string r.metadata)]])]

/-- A parser on these two texts. -/
def recordParse (text : Bytes) : Option Json :=
  if text = recordText "[1,0.5]" then some (recordDocument sampleRound wholeRecord)
  else if text = recordText "[1.0,0.5]" then some (recordDocument sampleRound pointedRecord)
  else none

theorem search_faithful_pointed :
    FilledFaithfully recordParse sampleRound (recordText "[1.0,0.5]") [ascii "a"]
      [pointedRecord] := by
  have hlists : Lists recordParse sampleRound (recordText "[1.0,0.5]") [pointedRecord] := by
    refine ⟨⟨_, _, rfl, rfl, List.Forall₂.cons ⟨_, rfl, rfl, rfl, rfl, rfl⟩ List.Forall₂.nil⟩,
      ?_⟩
    decide
  refine (search_faithful_iff recordParse sampleRound _ [ascii "a"] _ hlists
    (Nat.le_refl _)).mpr ?_
  intro r hr
  rw [List.mem_singleton] at hr
  subst hr
  exact ⟨by decide, by decide, by decide, by decide⟩

/-- The integer is skipped: `0.5` is stored in its place, and the second place is
not written. -/
theorem search_faithful_fails :
    Lists recordParse sampleRound (recordText "[1,0.5]") [wholeRecord] ∧
      (∃ x, search recordParse (fun _ => ⟨200, recordText "[1,0.5]"⟩) [ascii "a"] = .filled x ∧
        x.toList.map Data.embedding = [some [some 0x3F000000, none]]) ∧
      ¬ FilledFaithfully recordParse sampleRound (recordText "[1,0.5]") [ascii "a"]
        [wholeRecord] := by
  have hlists : Lists recordParse sampleRound (recordText "[1,0.5]") [wholeRecord] := by
    refine ⟨⟨_, _, rfl, rfl, List.Forall₂.cons ⟨_, rfl, rfl, rfl, rfl, rfl⟩ List.Forall₂.nil⟩,
      ?_⟩
    decide
  obtain ⟨x, hx, hslots⟩ := search_lists hlists
    (show [wholeRecord].length ≤ [ascii "a"].length from Nat.le_refl _)
  have hembedding : x.toList.map Data.embedding = [some [some 0x3F000000, none]] := by
    rw [hslots]
    decide
  refine ⟨hlists, ⟨x, hx, hembedding⟩, ?_⟩
  rintro ⟨x', hx', hfaithful⟩
  rw [hx, DbAnswer.filled.injEq] at hx'
  subst hx'
  obtain ⟨y, hy, hrecord⟩ := hfaithful 0 wholeRecord rfl
  rw [hslots] at hy
  have hy' := Option.some.inj hy
  have hwrong := hrecord.embedding
  rw [← hy'] at hwrong
  exact absurd hwrong (by decide)

end DBClient

end Periplus.Ports
