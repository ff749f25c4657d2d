import Periplus.Verified.JsonText
import Periplus.Ports.CoreRegistry
import Periplus.Ports.ProxyRecords
import Periplus.Ports.Connection

/-!
# An id on its way through the layers

A client sends an id as Latin-1.  The core keeps the bytes before the first NUL.
A load writes them into a JSON text, which is UTF-8, and finds the id of a result
by the bytes of the result.  An answer to a search has these bytes again, and the
client reads them as UTF-8.

RapidJSON's writer is not part of the repository.  It escapes quotation marks,
backslashes and control characters, and copies the bytes from `0x80` on.

## Main results

* `readRequest_postedBody` — the ids of a posted body are the decoded bytes that
  the core keeps, and there are none when those of one id are not UTF-8.
* `Core.idKept_iff` — an id keeps its identity exactly when it is ASCII without
  NUL, every id of its cell is UTF-8 in Latin-1, and no other id continues it
  behind a NUL.
-/

namespace Periplus.Ports

open Periplus.Verified.Memory
open Periplus.Verified.Run
open Periplus.Verified.Buckets
open Periplus.Verified.Segments
open Periplus.Verified.JsonText

/-! ## The body of a request -/

namespace Json

/-- The members of an object, with commas between them, in braces. -/
def writeObject (texts : List Bytes) : Bytes :=
  0x7B :: (List.intercalate [0x2C] texts ++ [0x7D])

mutual

/-- What `Accept` writes.  A `Json` does not keep the digits of a number. -/
def text : Json → Option Bytes
  | .null => some (ascii "null")
  | .bool b => some (ascii (if b then "true" else "false"))
  | .number _ => none
  | .string s => some (writeString s)
  | .array items => (texts items).map writeArray
  | .object ms => (memberTexts ms).map writeObject

def texts : List Json → Option (List Bytes)
  | [] => some []
  | item :: items => do
      let t ← text item
      let ts ← texts items
      some (t :: ts)

def memberTexts : List (Bytes × Json) → Option (List Bytes)
  | [] => some []
  | (name, value) :: ms => do
      let t ← text value
      let ts ← memberTexts ms
      some ((writeString name ++ 0x3A :: t) :: ts)

end

theorem texts_strings (strings : List Bytes) :
    texts (strings.map Json.string) = some (strings.map writeString) := by
  induction strings with
  | nil => rw [List.map_nil, List.map_nil, texts]
  | cons s strings ih =>
      rw [List.map_cons, List.map_cons, texts, text, ih]
      rfl

end Json

/-- The body of the request for these ids, as `GetString` returns it. -/
def DBClient.postedBody (ids : List Bytes) : Option Bytes :=
  (constructJsonBody ids).text.map cChars

/-- What stands in front of the array. -/
def requestHead : String := "\x7b\"ids\":"

theorem ascii_requestHead : ∀ b ∈ ascii requestHead, b.toNat < 128 := by
  have hbytes : ascii requestHead = [0x7B, 0x22, 0x69, 0x64, 0x73, 0x22, 0x3A] := rfl
  rw [hbytes]
  simp

theorem DBClient.text_constructJsonBody (ids : List Bytes) :
    (constructJsonBody ids).text =
      some (ascii requestHead ++ (writeStrings (ids.map cChars) ++ [0x7D])) := by
  have hids : Json.text (.array (ids.map (fun id => .string (cChars id)))) =
      some (writeStrings (ids.map cChars)) := by
    have hmap : ids.map (fun id => Json.string (cChars id)) =
        (ids.map cChars).map Json.string := by
      rw [List.map_map]
      rfl
    rw [Json.text, hmap, Json.texts_strings]
    rfl
  rw [constructJsonBody, Json.text, Json.memberTexts, Json.memberTexts, hids]
  show some (Json.writeObject [_]) = _
  rw [Json.writeObject, List.intercalate_singleton]
  rfl

theorem DBClient.postedBody_eq (ids : List Bytes) :
    postedBody ids = some (ascii requestHead ++ (writeStrings (ids.map cChars) ++ [0x7D])) := by
  have hzero : 0 ∉ ascii requestHead ++ (writeStrings (ids.map cChars) ++ [0x7D]) := by
    rw [List.mem_append, List.mem_append]
    rintro (h | h | h)
    · exact absurd h (by decide)
    · exact zero_not_mem_writeStrings _ h
    · exact absurd h (by decide)
  rw [postedBody, text_constructJsonBody]
  exact congrArg some (ProxyRecord.cChars_eq_self.mpr hzero)

/-! ## The body as the proxy reads it -/

/-- The array of a text that is an object with the one member `ids`. -/
def readIds (text : PyStr) : Option (List PyStr) :=
  if text.take requestHead.length = requestHead.toList then
    match readStrings (text.drop requestHead.length) with
    | some (ids, ['\x7d']) => some ids
    | _ => none
  else none

/-- A body is a JSON text only when it is UTF-8. -/
def readRequest (body : Bytes) : Option (List PyStr) := do
  let text ← decodeUtf8 body
  readIds text

theorem readIds_stringsText (ids : List PyStr) :
    readIds (requestHead.toList ++ (stringsText ids ++ ['\x7d'])) = some ids := by
  have htake : (requestHead.toList ++ (stringsText ids ++ ['\x7d'])).take requestHead.length =
      requestHead.toList := List.take_left' rfl
  have hdrop : (requestHead.toList ++ (stringsText ids ++ ['\x7d'])).drop requestHead.length =
      stringsText ids ++ ['\x7d'] := List.drop_left' rfl
  rw [readIds, if_pos htake, hdrop, readStrings_stringsText]
  rfl

theorem decodeUtf8_isSome {bs : Bytes} : (decodeUtf8 bs).isSome ↔ IsUtf8 bs := by
  constructor
  · intro h
    obtain ⟨s, hs⟩ := Option.isSome_iff_exists.mp h
    exact ⟨s, encodeUtf8_of_decodeUtf8 hs⟩
  · intro h
    obtain ⟨s, rfl⟩ := h
    show (decodeUtf8 (encodeUtf8 s)).isSome
    rw [decodeUtf8_encodeUtf8, Option.isSome_some]

/-- The strings of which each is the bytes. -/
theorem mapM_decodeUtf8_eq_some {bss : List Bytes} {ids : List PyStr} :
    bss.mapM decodeUtf8 = some ids ↔ bss = ids.map utf8 := by
  induction bss generalizing ids with
  | nil => cases ids <;> simp
  | cons bs bss ih =>
      simp only [List.mapM_cons, Option.bind_eq_bind, Option.bind_eq_some_iff, ih,
        Option.pure_def, Option.some.injEq]
      constructor
      · rintro ⟨s, hs, ids', hids, rfl⟩
        rw [List.map_cons, hids]
        exact congrArg (· :: ids'.map utf8) (encodeUtf8_of_decodeUtf8 hs).symm
      · intro h
        cases ids with
        | nil => exact absurd h (by simp)
        | cons s ids =>
            rw [List.map_cons, List.cons.injEq] at h
            exact ⟨s, by rw [h.1]; exact decodeUtf8_encodeUtf8 s, ids, h.2, rfl⟩

/-- **The ids of a posted body** are the decoded ids, and there are none when one of
them cannot be decoded. -/
theorem readRequest_postedBody (ids : List Bytes) :
    (DBClient.postedBody ids).bind readRequest = (ids.map cChars).mapM decodeUtf8 := by
  rw [DBClient.postedBody_eq, Option.bind_some, readRequest]
  generalize ids.map cChars = bss
  cases hall : bss.mapM decodeUtf8 with
  | some strings =>
      rw [mapM_decodeUtf8_eq_some] at hall
      have hbody : ascii requestHead ++ (writeStrings bss ++ [0x7D]) =
          encodeUtf8 (requestHead.toList ++ (stringsText strings ++ ['\x7d'])) := by
        show _ = utf8 _
        rw [hall, writeStrings_utf8, utf8_append, utf8_append]
        rfl
      rw [hbody, decodeUtf8_encodeUtf8]
      exact readIds_stringsText strings
  | none =>
      -- the texts around the strings are ASCII
      have hnot : decodeUtf8 (ascii requestHead ++ (writeStrings bss ++ [0x7D])) = none := by
        rw [← Option.not_isSome_iff_eq_none, decodeUtf8_isSome, isUtf8_ascii_append ascii_requestHead]
        intro h
        have hstrings := ((isUtf8_append_cons _ _ (by decide)).mp h).1
        rw [isUtf8_writeStrings] at hstrings
        obtain ⟨strings, hb⟩ := exists_map_utf8 hstrings
        rw [mapM_decodeUtf8_eq_some.mpr hb.symm] at hall
        exact absurd hall (by simp)
      rw [hnot]
      rfl

/-! ## The ids of a run -/

/-- What the core keeps of an id that is sent to it: the bytes before the first NUL. -/
def registeredId (id : PyStr) : Bytes := cChars (latin1Bytes id)

/-- Nothing behind a NUL is kept. -/
theorem cChars_append_zero (bs rest : Bytes) : cChars (bs ++ 0 :: rest) = cChars bs := by
  induction bs with
  | nil => rfl
  | cons b bs ih =>
      rw [cChars, cChars, List.cons_append, List.takeWhile_cons, List.takeWhile_cons]
      split
      · exact congrArg (b :: ·) ih
      · rfl

theorem docOfArgs_latin1 (v : List F32) (id : PyStr) :
    Core.docOfArgs v (latin1Bytes id ++ [0]) = (registeredId id, v) := by
  have hstring : cString 0 (latin1Bytes id ++ [0]) = some (cChars (latin1Bytes id ++ [0])) :=
    if_pos (by simp)
  rw [Core.docOfArgs, hstring, Option.getD_some, cChars_append_zero]
  rfl

theorem registeredId_continued (id tail : PyStr) :
    registeredId (id ++ Char.ofNat 0 :: tail) = registeredId id := by
  rw [registeredId, latin1Bytes_append]
  exact cChars_append_zero _ _

private theorem mem_of_mapM_idMessage {ids : List PyStr} {messages : List PyStr}
    (h : ids.mapM Client.idMessage = some messages) :
    ∀ id ∈ ids, ∃ length, decodeLatin1 length ++ id ∈ messages := by
  induction ids generalizing messages with
  | nil => simp
  | cons id ids ih =>
      simp only [List.mapM_cons, Option.bind_eq_bind, Option.bind_eq_some_iff, Option.pure_def,
        Option.some.injEq, Client.idMessage] at h
      obtain ⟨_, ⟨length, _, rfl⟩, messages', hrest, rfl⟩ := h
      intro id' hid'
      rcases List.mem_cons.mp hid' with rfl | hid'
      · exact ⟨length, List.mem_cons_self⟩
      · obtain ⟨length', hmem⟩ := ih hrest id' hid'
        exact ⟨length', List.mem_cons_of_mem _ hmem⟩

/-- An ADD that is sent without raising has only Latin-1 ids. -/
theorem latin1_of_written {ids : List PyStr} {vectors : List (List F32)}
    (h : (Call.addCall ids vectors).written.isSome) : ∀ id ∈ ids, Latin1 id := by
  obtain ⟨bs, hbs⟩ := Option.isSome_iff_exists.mp h
  obtain ⟨messages, hmessages, hlatin, -⟩ := written_eq_some.mp hbs
  rw [Call.messages, Client.addMessages] at hmessages
  split at hmessages
  · simp only [Option.bind_eq_bind, Option.bind_eq_some_iff, Option.some.injEq] at hmessages
    obtain ⟨_, _, _, _, _, _, idMessages, hids, rfl⟩ := hmessages
    intro id hid
    obtain ⟨length, hmem⟩ := mem_of_mapM_idMessage hids id hid
    refine (latin1_append.mp (hlatin (decodeLatin1 length ++ id) ?_)).2
    simp only [List.mem_append]
    exact Or.inl (Or.inl (Or.inl (Or.inr hmem)))
  · exact absurd hmessages (by simp)

/-- What reaches the core: an ADD that a client has sent without raising, with the
floats that the server has read behind its ids, or another operation. -/
inductive Traffic (nCells : Nat)
  | add (ids : List PyStr) (vectors : List (List F32))
      (sent : (Call.addCall ids vectors).written.isSome) (embeddings : List F32)
  | other (op : Op nCells) (hother : ∀ numDocs ids embeddings, op ≠ .add numDocs ids embeddings)

namespace Traffic

variable {nCells : Nat} {δ : Type} [LinearOrder δ]

def op : Traffic nCells → Op nCells
  | .add ids _ _ embeddings =>
      .add ids.length (ids.map (fun id => latin1Bytes id ++ [0])) embeddings
  | .other op _ => op

/-- The ids of an ADD, as the client has them, with their vectors. -/
def sent (F : Faiss nCells δ) : Traffic nCells → List (PyStr × List F32)
  | .add ids _ _ embeddings =>
      List.zipWith (fun v id => (id, v)) ((List.range ids.length).map (F.query embeddings)) ids
  | .other _ _ => []

/-- The document that the core makes of an id and a vector. -/
def toDoc (p : PyStr × List F32) : Doc := (registeredId p.1, p.2)

theorem registeredBy_op (F : Faiss nCells δ) (t : Traffic nCells) :
    Core.registeredBy F t.op = (t.sent F).map toDoc := by
  cases t with
  | add ids vectors hsent embeddings =>
      rw [op, sent, Core.registeredBy, List.zipWith_map_right, List.map_zipWith]
      congr 1
      funext v id
      exact docOfArgs_latin1 v id
  | other op hother =>
      cases op with
      | add numDocs ids embeddings => exact absurd rfl (hother numDocs ids embeddings)
      | train => rfl
      | load xq nload db => rfl
      | evict xq nevict => rfl
      | search n xq k nprobe requireAll data => rfl

theorem latin1_of_sent {F : Faiss nCells δ} {t : Traffic nCells} {p : PyStr × List F32}
    (h : p ∈ t.sent F) : Latin1 p.1 := by
  cases t with
  | add ids vectors hsent embeddings =>
      rw [sent, List.zipWith_comm, ← List.map_uncurry_zip_eq_zipWith] at h
      obtain ⟨⟨id, v⟩, hmem, rfl⟩ := List.mem_map.mp h
      exact latin1_of_written hsent id (List.of_mem_zip hmem).1
  | other op hother => exact absurd h List.not_mem_nil

end Traffic

namespace Core

variable {nCells : Nat} {δ : Type} [LinearOrder δ]

/-- The ids that clients have sent, in order, with their vectors. -/
def sent (F : Faiss nCells δ) (traffic : List (Traffic nCells)) : List (PyStr × List F32) :=
  traffic.flatMap (Traffic.sent F)

/-- Those of them that belong to one cell. -/
def sentTo (F : Faiss nCells δ) (traffic : List (Traffic nCells)) (c : Fin nCells) :
    List (PyStr × List F32) :=
  bucket (fun p => F.nearest p.2) c (sent F traffic)

theorem registered_op (F : Faiss nCells δ) (traffic : List (Traffic nCells)) :
    registered F (traffic.map Traffic.op) = (sent F traffic).map Traffic.toDoc := by
  rw [registered, sent, List.flatMap_map, List.map_flatMap]
  simp only [Traffic.registeredBy_op]

theorem latin1_of_mem_sent {F : Faiss nCells δ} {traffic : List (Traffic nCells)}
    {p : PyStr × List F32} (h : p ∈ sent F traffic) : Latin1 p.1 := by
  obtain ⟨t, _, hp⟩ := List.mem_flatMap.mp h
  exact Traffic.latin1_of_sent hp

/-- The ids of a cell, and which ids have a number. -/
theorem idsByCell_of_traffic {F : Faiss nCells δ} {traffic : List (Traffic nCells)}
    {s : Core nCells} (h : Reaches F (traffic.map Traffic.op) s) :
    (∀ c, s.idsByCell c = (sentTo F traffic c).map (fun p => registeredId p.1)) ∧
      ∀ p ∈ sent F traffic, (s.idMap (registeredId p.1)).isSome := by
  have hreg := registryInv_of_reaches h
  rw [registered_op] at hreg
  constructor
  · intro c
    rw [hreg.cells c, bucket, List.filter_map, List.map_map]
    rfl
  · intro p hp
    rw [hreg.known, List.map_map]
    exact List.mem_map.mpr ⟨p, hp, rfl⟩

/-- **An id keeps its identity** in a state with these registered ids, for an id of the
cell `c`. -/
structure IdKept (ids : List PyStr) (s : Core nCells) (c : Fin nCells) (id : PyStr) : Prop where
  /-- The body that is posted for the cell has the id in its array. -/
  posted : ∃ body array, DBClient.postedBody (s.idsByCell c) = some body ∧
    readRequest body = some array ∧ id ∈ array
  /-- Loading a result of this id finds the number that the id was registered with. -/
  found : ∀ ms x, ms.lookup (ascii "id") = some (.string (encodeUtf8 id)) →
    DBClient.decodeItem ms {} = .ok x → ∃ key num, x.idString = .ok key ∧
      s.idMap key = some num ∧ s.idMap (registeredId id) = some num
  /-- The client reads the id out of the bytes that an answer has of this result. -/
  answered : ∀ ms x, ms.lookup (ascii "id") = some (.string (encodeUtf8 id)) →
    DBClient.decodeItem ms {} = .ok x → ∃ bytes, Data.readChars x.id x.idLen = .ok bytes ∧
      ∀ segs rest, NoneEmpty segs → segs.flatten = bytes ++ rest →
        readString x.idLen segs = .ok (id, dropBytes x.idLen segs)
  /-- No other id has its number. -/
  apart : ∀ other ∈ ids, other ≠ id → s.idMap (registeredId other) ≠ s.idMap (registeredId id)

/-- What the layers ask of an id, of the ids of its cell and of all ids. -/
structure Portable (cellIds ids : List PyStr) (id : PyStr) : Prop where
  ascii : ∀ ch ∈ id, 0 < ch.toNat ∧ ch.toNat < 128
  /-- The Latin-1 bytes before the first NUL are UTF-8. -/
  cell : ∀ other ∈ cellIds, (decodeUtf8 (registeredId other)).isSome
  apart : ∀ other ∈ ids, ∀ tail, other ≠ id ++ Char.ofNat 0 :: tail

/-! ### ASCII ids -/

theorem encodeUtf8_ascii {id : PyStr} (h : ∀ ch ∈ id, 0 < ch.toNat ∧ ch.toNat < 128) :
    encodeUtf8 id = latin1Bytes id :=
  utf8_of_ascii (fun ch hch => (h ch hch).2)

theorem zero_not_mem_latin1Bytes {id : PyStr} (hlatin : Latin1 id) :
    0 ∉ latin1Bytes id ↔ ∀ ch ∈ id, 0 < ch.toNat := by
  have hbyte : ∀ ch ∈ id, UInt8.ofNat ch.toNat = 0 ↔ ch.toNat = 0 := by
    intro ch hch
    rw [← UInt8.toNat_inj, UInt8.toNat_ofNat_of_lt' (hlatin ch hch)]
    rfl
  constructor
  · intro h ch hch
    refine Nat.pos_of_ne_zero ?_
    intro hzero
    exact h (List.mem_map.mpr ⟨ch, hch, (hbyte ch hch).mpr hzero⟩)
  · intro h hmem
    obtain ⟨ch, hch, hzero⟩ := List.mem_map.mp hmem
    have := h ch hch
    have := (hbyte ch hch).mp hzero
    omega

/-- The core keeps the UTF-8 bytes of an id only when it is ASCII. -/
theorem ascii_of_registeredId {id : PyStr} (h : registeredId id = encodeUtf8 id) :
    ∀ ch ∈ id, ch.toNat < 128 := by
  refine ascii_of_length_utf8 ?_
  have hle := length_le_utf8 id
  have hlen : (registeredId id).length ≤ (latin1Bytes id).length :=
    (List.takeWhile_sublist _).length_le
  have heq : (registeredId id).length = (utf8 id).length := congrArg List.length h
  rw [latin1Bytes_length] at hlen
  omega

/-- What the core keeps is what stands before the first NUL. -/
theorem registeredId_eq {id : PyStr} (hlatin : Latin1 id) :
    registeredId id = latin1Bytes (id.takeWhile (fun ch => 0 < ch.toNat)) := by
  induction id with
  | nil => rfl
  | cons ch id ih =>
      rw [Latin1, List.forall_mem_cons] at hlatin
      have hrest := ih hlatin.2
      have hbyte : UInt8.ofNat ch.toNat ≠ 0 ↔ 0 < ch.toNat := by
        rw [Ne, ← UInt8.toNat_inj, UInt8.toNat_ofNat_of_lt' hlatin.1]
        exact Nat.pos_iff_ne_zero.symm
      show (UInt8.ofNat ch.toNat :: latin1Bytes id).takeWhile (· ≠ 0) = _
      by_cases hpos : 0 < ch.toNat
      · rw [List.takeWhile_cons_of_pos (by simpa using hbyte.mpr hpos),
          List.takeWhile_cons_of_pos (by simpa using hpos)]
        exact congrArg (UInt8.ofNat ch.toNat :: ·) hrest
      · have hzero : UInt8.ofNat ch.toNat = 0 := by
          by_contra hne
          exact hpos (hbyte.mp hne)
        rw [List.takeWhile_cons_of_neg (by simpa using hzero),
          List.takeWhile_cons_of_neg (by simpa using hpos)]
        rfl

theorem decodeLatin1_latin1Bytes {s : PyStr} (h : Latin1 s) : decodeLatin1 (latin1Bytes s) = s := by
  rw [decodeLatin1, latin1Bytes, List.map_map]
  conv_rhs => rw [← List.map_id s]
  refine List.map_congr_left ?_
  intro c hc
  show Char.ofNat (UInt8.ofNat c.toNat).toNat = c
  rw [UInt8.toNat_ofNat_of_lt' (h c hc), Char.ofNat_toNat]

/-- An id whose bytes up to the first NUL are those of an id without NUL is that id, or
continues it behind a NUL. -/
theorem eq_or_continues {other id : PyStr} (hother : Latin1 other) (hlatin : Latin1 id)
    (hpos : ∀ ch ∈ id, 0 < ch.toNat) (h : registeredId other = registeredId id) :
    other = id ∨ ∃ tail, other = id ++ Char.ofNat 0 :: tail := by
  have hid : id.takeWhile (fun ch => 0 < ch.toNat) = id :=
    List.takeWhile_eq_self_iff.mpr (by simpa using hpos)
  have hpart : Latin1 (other.takeWhile (fun ch => 0 < ch.toNat)) := fun c hc =>
    hother c ((List.takeWhile_sublist _).subset hc)
  rw [registeredId_eq hother, registeredId_eq hlatin, hid] at h
  have hkept : other.takeWhile (fun ch => 0 < ch.toNat) = id := by
    have hdecode := congrArg decodeLatin1 h
    rwa [decodeLatin1_latin1Bytes hpart, decodeLatin1_latin1Bytes hlatin] at hdecode
  have hsplit := List.takeWhile_append_dropWhile (p := fun ch : Char => 0 < ch.toNat) (l := other)
  rw [hkept] at hsplit
  cases hdrop : other.dropWhile (fun ch => 0 < ch.toNat) with
  | nil =>
      rw [hdrop, List.append_nil] at hsplit
      exact Or.inl hsplit.symm
  | cons ch tail =>
      have hzero : ch.toNat = 0 := by
        have hhead := List.head_dropWhile_not (p := fun ch : Char => decide (0 < ch.toNat))
          (l := other) (by rw [hdrop]; exact List.cons_ne_nil ch tail)
        simp only [hdrop, List.head_cons, decide_eq_false_iff_not] at hhead
        omega
      have hch : ch = Char.ofNat 0 := by rw [← hzero, Char.ofNat_toNat]
      rw [hdrop, hch] at hsplit
      exact Or.inr ⟨tail, hsplit.symm⟩

/-! ### The item of a result -/

/-- The id that the decoder copies out of a result. -/
theorem decodeItem_id {ms : List (Bytes × Json)} {x : Data} {bs : Bytes}
    (hid : ms.lookup (ascii "id") = some (.string bs))
    (h : DBClient.decodeItem ms {} = .ok x) :
    x.idLen = (cChars bs).length ∧ x.id = some (cChars bs ++ [0]) := by
  obtain ⟨vals, hvals⟩ := Option.isSome_iff_exists.mp (DBClient.decodeItem_isSome h)
  rw [DBClient.decodeItem_of_isSome hvals, Except.ok.injEq] at h
  subst h
  unfold DBClient.decodeMetadata DBClient.decodeDocument DBClient.decodeId
  simp only [DBClient.stringMember, hid]
  constructor <;> (repeat' split) <;> rfl

/-- A result that has nothing but the id and an empty embedding. -/
def idItem (bs : Bytes) : List (Bytes × Json) :=
  [(ascii "id", .string bs), (ascii "embedding", .array [])]

theorem decodeItem_idItem (bs : Bytes) : ∃ x, DBClient.decodeItem (idItem bs) {} = .ok x :=
  ⟨_, DBClient.decodeItem_of_isSome (show DBClient.arrayMember (idItem bs) (ascii "embedding") =
    some [] from rfl)⟩

/-! ### When an id keeps its identity -/

/-- The array that the proxy reads for a cell. -/
theorem readRequest_cell {F : Faiss nCells δ} {traffic : List (Traffic nCells)}
    {s : Core nCells} (h : Reaches F (traffic.map Traffic.op) s) (c : Fin nCells) :
    (DBClient.postedBody (s.idsByCell c)).bind readRequest =
      ((sentTo F traffic c).map (fun p => registeredId p.1)).mapM decodeUtf8 := by
  rw [readRequest_postedBody, (idsByCell_of_traffic h).1 c, List.map_map]
  congr 1
  refine List.map_congr_left ?_
  intro p _
  exact ProxyRecord.cChars_eq_self.mpr (zero_not_mem_cChars _)

/-- No NUL is in what is read for a cell. -/
theorem pos_of_mem_array {bss : List Bytes} {array : List PyStr} {id : PyStr}
    (h : bss.mapM decodeUtf8 = some array) (hzero : ∀ bs ∈ bss, 0 ∉ bs) (hid : id ∈ array) :
    ∀ ch ∈ id, 0 < ch.toNat := by
  rw [mapM_decodeUtf8_eq_some] at h
  refine zero_not_mem_utf8.mp (hzero (utf8 id) ?_)
  rw [h]
  exact List.mem_map_of_mem hid

/-- The key of a result of an id without NUL. -/
theorem idString_of_decodeItem {ms : List (Bytes × Json)} {x : Data} {id : PyStr}
    (hpos : ∀ ch ∈ id, 0 < ch.toNat) (hid : ms.lookup (ascii "id") = some (.string (encodeUtf8 id)))
    (h : DBClient.decodeItem ms {} = .ok x) :
    x.idLen = (encodeUtf8 id).length ∧ x.id = some (encodeUtf8 id ++ [0]) ∧
      x.idString = .ok (encodeUtf8 id) := by
  have hnul : 0 ∉ encodeUtf8 id := zero_not_mem_utf8.mpr hpos
  obtain ⟨hlen, hbuf⟩ := decodeItem_id hid h
  rw [ProxyRecord.cChars_eq_self.mpr hnul] at hlen hbuf
  refine ⟨hlen, hbuf, ?_⟩
  rw [Data.idString, hbuf]
  exact congrArg bounded (cString_append hnul [])

theorem portable_of_idKept {F : Faiss nCells δ} {traffic : List (Traffic nCells)}
    {s : Core nCells} {c : Fin nCells} {id : PyStr}
    (h : Reaches F (traffic.map Traffic.op) s)
    (hkept : IdKept ((sent F traffic).map Prod.fst) s c id) :
    Portable ((sentTo F traffic c).map Prod.fst) ((sent F traffic).map Prod.fst) id := by
  obtain ⟨body, array, hbody, hread, hmem⟩ := hkept.posted
  have hcell := readRequest_cell h c
  rw [hbody, Option.bind_some, hread, eq_comm] at hcell
  have hpos : ∀ ch ∈ id, 0 < ch.toNat := by
    refine pos_of_mem_array hcell ?_ hmem
    intro bs hbs
    obtain ⟨p, _, rfl⟩ := List.mem_map.mp hbs
    exact zero_not_mem_cChars _
  have hsame : registeredId id = encodeUtf8 id := by
    -- the number found for the UTF-8 bytes is that of the Latin-1 bytes
    obtain ⟨x, hx⟩ := decodeItem_idItem (encodeUtf8 id)
    obtain ⟨key, num, hkey, hnum, hregistered⟩ := hkept.found _ x rfl hx
    rw [(idString_of_decodeItem hpos rfl hx).2.2, Except.ok.injEq] at hkey
    subst hkey
    exact (storeInv_of_reaches h).idInjective _ _ num hregistered hnum
  constructor
  · intro ch hch
    exact ⟨hpos ch hch, ascii_of_registeredId hsame ch hch⟩
  · intro other hother
    obtain ⟨p, hp, rfl⟩ := List.mem_map.mp hother
    rw [mapM_decodeUtf8_eq_some] at hcell
    have hbs : registeredId p.1 ∈ array.map utf8 := by
      rw [← hcell]
      exact List.mem_map_of_mem hp
    obtain ⟨text, _, htext⟩ := List.mem_map.mp hbs
    rw [← htext]
    exact decodeUtf8_isSome.mpr (isUtf8_utf8 text)
  · intro other hother tail heq
    have hne : other ≠ id := by
      intro hother'
      rw [heq] at hother'
      have hlen := congrArg List.length hother'
      rw [List.length_append, List.length_cons] at hlen
      omega
    refine hkept.apart other hother hne ?_
    rw [heq, registeredId_continued]

theorem idKept_of_portable {F : Faiss nCells δ} {traffic : List (Traffic nCells)}
    {s : Core nCells} {c : Fin nCells} {id : PyStr} {v : List F32}
    (h : Reaches F (traffic.map Traffic.op) s) (hid : (id, v) ∈ sentTo F traffic c)
    (hportable : Portable ((sentTo F traffic c).map Prod.fst) ((sent F traffic).map Prod.fst) id) :
    IdKept ((sent F traffic).map Prod.fst) s c id := by
  have hsent : (id, v) ∈ sent F traffic := (mem_bucket.mp hid).1
  have hpos : ∀ ch ∈ id, 0 < ch.toNat := fun ch hch => (hportable.ascii ch hch).1
  have hlatin : Latin1 id := latin1_of_mem_sent hsent
  have hsame : registeredId id = encodeUtf8 id := by
    rw [encodeUtf8_ascii hportable.ascii, registeredId]
    exact ProxyRecord.cChars_eq_self.mpr ((zero_not_mem_latin1Bytes hlatin).mpr hpos)
  obtain ⟨num, hnum⟩ := Option.isSome_iff_exists.mp ((idsByCell_of_traffic h).2 _ hsent)
  constructor
  · -- the array has the decoded ids of the cell
    have hdecoded : ∃ array, ((sentTo F traffic c).map
        (fun p => registeredId p.1)).mapM decodeUtf8 = some array := by
      have hall : ∀ bs ∈ (sentTo F traffic c).map (fun p => registeredId p.1), IsUtf8 bs := by
        rw [List.forall_mem_map]
        intro p hp
        exact decodeUtf8_isSome.mp (hportable.cell p.1 (List.mem_map_of_mem hp))
      obtain ⟨array, harray⟩ := exists_map_utf8 hall
      exact ⟨array, mapM_decodeUtf8_eq_some.mpr harray.symm⟩
    obtain ⟨array, harray⟩ := hdecoded
    have hcell := readRequest_cell h c
    rw [harray, Option.bind_eq_some_iff] at hcell
    obtain ⟨body, hbody, hread⟩ := hcell
    refine ⟨body, array, hbody, hread, ?_⟩
    rw [mapM_decodeUtf8_eq_some] at harray
    have hbs : registeredId id ∈ array.map utf8 := by
      rw [← harray]
      exact List.mem_map.mpr ⟨(id, v), hid, rfl⟩
    obtain ⟨text, htext, heq⟩ := List.mem_map.mp hbs
    have hdecode : decodeUtf8 (encodeUtf8 text) = decodeUtf8 (encodeUtf8 id) := by
      rw [← hsame, ← heq]
      rfl
    rw [decodeUtf8_encodeUtf8, decodeUtf8_encodeUtf8, Option.some.injEq] at hdecode
    rwa [← hdecode]
  · intro ms x hms hx
    refine ⟨encodeUtf8 id, num, (idString_of_decodeItem hpos hms hx).2.2, ?_, hnum⟩
    rw [← hsame]
    exact hnum
  · intro ms x hms hx
    obtain ⟨hlen, hbuf, _⟩ := idString_of_decodeItem hpos hms hx
    refine ⟨encodeUtf8 id, ?_, ?_⟩
    · rw [hlen, hbuf]
      exact congrArg bounded (window_append_left (encodeUtf8 id) [0])
    · intro segs rest hne hsegs
      rw [hlen]
      exact (framed_readString (encodeUtf8 id)).reads segs rest id hne hsegs
        (decodeUtf8_encodeUtf8 id) (fun _ h _ => h.elim)
  · intro other hother hne heq
    obtain ⟨p, hp, rfl⟩ := List.mem_map.mp hother
    rw [hnum] at heq
    have hkeys := (storeInv_of_reaches h).idInjective _ _ num heq hnum
    rcases eq_or_continues (latin1_of_mem_sent hp) hlatin hpos hkeys with hself | ⟨tail, htail⟩
    · exact hne hself
    · exact hportable.apart p.1 hother tail htail

/-- **When an id keeps its identity**, in every state that is reached. -/
theorem idKept_iff (F : Faiss nCells δ) (traffic : List (Traffic nCells)) (s : Core nCells)
    (c : Fin nCells) (id : PyStr) (v : List F32) (h : Reaches F (traffic.map Traffic.op) s)
    (hid : (id, v) ∈ sentTo F traffic c) :
    IdKept ((sent F traffic).map Prod.fst) s c id ↔
      Portable ((sentTo F traffic c).map Prod.fst) ((sent F traffic).map Prod.fst) id :=
  ⟨portable_of_idKept h, idKept_of_portable h hid⟩

/-- The ADD of one id with the vector `5`. -/
def oneAdd (id : PyStr) (sent : (Call.addCall [id] [[5]]).written.isSome) :
    List (Traffic 1) :=
  [.add [id] [[5]] sent [5]]

theorem idKept_plain :
    ∃ s, Reaches (Faiss.discrete 1 1) ((oneAdd ['a'] (by decide)).map Traffic.op) s ∧
      IdKept [['a']] s 0 ['a'] := by
  refine ⟨_, rfl, ?_⟩
  refine (idKept_iff (Faiss.discrete 1 1) (oneAdd ['a'] (by decide)) _ 0 ['a'] [5] rfl
    (by decide)).mpr ?_
  constructor
  · rw [List.forall_mem_singleton]
    exact ⟨by decide, by decide⟩
  · have hutf8 : (decodeUtf8 (encodeUtf8 ['a'])).isSome := by
      rw [decodeUtf8_encodeUtf8, Option.isSome_some]
    intro other hother
    rw [List.mem_singleton.mp hother]
    exact hutf8
  · intro other hother tail heq
    rw [List.mem_singleton.mp hother] at heq
    exact absurd (List.cons.inj heq).2 (by simp)

/-- The bytes `E9` of `é` are posted as they are. -/
theorem idKept_accented_fails :
    ∃ s, Reaches (Faiss.discrete 1 1) ((oneAdd ['é'] (by decide)).map Traffic.op) s ∧
      (['é'], [5]) ∈ sentTo (Faiss.discrete 1 1) (oneAdd ['é'] (by decide)) 0 ∧
      DBClient.postedBody (s.idsByCell 0) =
        some (ascii requestHead ++ [0x5B, 0x22, 0xE9, 0x22, 0x5D, 0x7D]) ∧
      (DBClient.postedBody (s.idsByCell 0)).bind readRequest = none ∧
      ¬ IdKept [['é']] s 0 ['é'] := by
  have hreach : ∃ s, Reaches (Faiss.discrete 1 1) ((oneAdd ['é'] (by decide)).map Traffic.op) s :=
    ⟨_, rfl⟩
  obtain ⟨s, hs⟩ := hreach
  have hids : s.idsByCell 0 = [[0xE9]] := (idsByCell_of_traffic hs).1 0
  have hdecode : decodeUtf8 [0xE9] = none := by
    rw [← Option.not_isSome_iff_eq_none, decodeUtf8_isSome]
    exact not_isUtf8_singleton (by decide)
  have hnone : (DBClient.postedBody (s.idsByCell 0)).bind readRequest = none := by
    have hbytes : cChars [0xE9] = [0xE9] := by decide
    rw [readRequest_postedBody, hids, List.map_singleton, hbytes, List.mapM_cons, hdecode]
    rfl
  refine ⟨s, hs, by decide, ?_, hnone, ?_⟩
  · rw [DBClient.postedBody_eq, hids]
    decide
  · intro hkept
    obtain ⟨body, array, hbody, hread, _⟩ := hkept.posted
    rw [hbody, Option.bind_some, hread] at hnone
    exact absurd hnone (by simp)

end Core

end Periplus.Ports
