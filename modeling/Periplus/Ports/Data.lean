import Periplus.Ports.Fault
import Periplus.Verified.Memory

/-!
# `data.cpp`: one record as the core stores and sends it

A `Data` is four lengths and four pointers.  The pointers are `none` when null;
a buffer may be longer than the length next to it (the database client appends
a terminator that the length does not count), and a float that was allocated
but never written is `none`.

`Record` is what such a value stands for: four plain sequences.  `Data.Holds`
connects the two, and `serialize_of_holds` says that the encoder, which writes
through a running offset into a buffer it sized beforehand, sends exactly
`Record.encode`.
-/

namespace Periplus.Ports

open Periplus.Verified.Memory
open Periplus.Verified.Run

/-- A sequence of bytes, as it is sent or stored. -/
abbrev Bytes := List UInt8

/-- The bytes of a text of ASCII characters. -/
def ascii (text : String) : Bytes := text.toList.map (fun c => UInt8.ofNat c.toNat)

/-- `a - b` for two `size_t`s. -/
def sizeSub (a b : Nat) : Nat := (a + (2 ^ 64 - b % 2 ^ 64)) % 2 ^ 64

theorem sizeSub_of_le {a b : Nat} (h : b ≤ a) (ha : a < 2 ^ 64) : sizeSub a b = a - b := by
  unfold sizeSub
  omega

/-- A `float` as its four-byte pattern.  No arithmetic is done on it here. -/
abbrev F32 := UInt32

structure Data where
  idLen : Nat := 0
  embeddingLen : Nat := 0
  documentLen : Nat := 0
  metadataLen : Nat := 0
  id : Option Bytes := none
  embedding : Option (List (Option F32)) := none
  document : Option Bytes := none
  metadata : Option Bytes := none
  deriving DecidableEq, Repr

/-- The four bytes of each float, one after the other. -/
def floatBytes (xs : List F32) : Bytes :=
  xs.flatMap (fun x => toLE 4 x.toNat)

@[simp] theorem floatBytes_length (xs : List F32) :
    (floatBytes xs).length = 4 * xs.length := by
  induction xs with
  | nil => rfl
  | cons x xs ih =>
      rw [floatBytes, List.flatMap_cons, List.length_append, toLE_length,
        List.length_cons]
      rw [floatBytes] at ih
      omega

namespace Data

/-- `std::string(x.id.get())`. -/
def idString (x : Data) : Except Fault Bytes :=
  match x.id with
  | none => .error (.exception .nullString)
  | some buf => bounded (cString 0 buf)

/-- FAISS reads `d` floats from `x.embedding.get()`. -/
def readEmbedding (d : Nat) (x : Data) : Except Fault (List F32) :=
  match x.embedding with
  | none => .error (.assertion .embeddingNotNull)
  | some buf => do
      let cells ← bounded (window buf 0 d)
      match written cells with
      | none => .error .indeterminate
      | some v => .ok v

/-- The source operand of a `memcpy` of `n` bytes out of a `char` buffer. -/
def readChars (buf : Option Bytes) (n : Nat) : Except Fault Bytes :=
  match buf with
  | none => if n = 0 then .ok [] else .error .outOfBounds
  | some b => bounded (window b 0 n)

/-- The source operand of a `memcpy` of `n` floats. -/
def readFloats (buf : Option (List (Option F32))) (n : Nat) : Except Fault Bytes :=
  match buf with
  | none => if n = 0 then .ok [] else .error .outOfBounds
  | some b => do
      let cells ← bounded (window b 0 n)
      match written cells with
      | none => .error .indeterminate
      | some v => .ok (floatBytes v)

/-- `Data::serialize`: size the buffer, then copy each length and each field to
its offset.  `size_t` arithmetic is modulo `2 ^ 64`. -/
def serialize (x : Data) : Except Fault Bytes := do
  let vectorSize :=
    (4 * 8 + x.idLen + x.documentLen + x.metadataLen + 4 * x.embeddingLen) % 2 ^ 64
  let bytes := List.replicate vectorSize (0 : UInt8)
  -- Send the id
  let bytes ← bounded (memcpy bytes 0 (toLE 8 x.idLen))
  let index := 8
  let id ← readChars x.id x.idLen
  let bytes ← bounded (memcpy bytes index id)
  let index := index + x.idLen
  -- Send the embedding
  let bytes ← bounded (memcpy bytes index (toLE 8 x.embeddingLen))
  let index := index + 8
  let embedding ← readFloats x.embedding x.embeddingLen
  let bytes ← bounded (memcpy bytes index embedding)
  let index := index + x.embeddingLen * 4
  -- Send the document
  let bytes ← bounded (memcpy bytes index (toLE 8 x.documentLen))
  let index := index + 8
  let document ← readChars x.document x.documentLen
  let bytes ← bounded (memcpy bytes index document)
  let index := index + x.documentLen
  -- Send the metadata
  let bytes ← bounded (memcpy bytes index (toLE 8 x.metadataLen))
  let index := index + 8
  let metadata ← readChars x.metadata x.metadataLen
  bounded (memcpy bytes index metadata)

end Data

/-! ## What a `Data` stands for -/

/-- The contents of a record: three byte strings and a vector. -/
structure Record where
  id : Bytes
  embedding : List F32
  document : Bytes
  metadata : Bytes
  deriving DecidableEq, Repr

/-- The fields in the order they are sent, each behind its length. -/
def Record.encode (r : Record) : Bytes :=
  toLE 8 r.id.length ++ r.id ++
    toLE 8 r.embedding.length ++ floatBytes r.embedding ++
    toLE 8 r.document.length ++ r.document ++
    toLE 8 r.metadata.length ++ r.metadata

/-- The lengths and buffers of `x` hold the fields of `r`, and the whole of it
fits the address space. -/
structure Data.Holds (x : Data) (r : Record) : Prop where
  idLen : x.idLen = r.id.length
  embeddingLen : x.embeddingLen = r.embedding.length
  documentLen : x.documentLen = r.document.length
  metadataLen : x.metadataLen = r.metadata.length
  id : Data.readChars x.id x.idLen = .ok r.id
  embedding : Data.readFloats x.embedding x.embeddingLen = .ok (floatBytes r.embedding)
  document : Data.readChars x.document x.documentLen = .ok r.document
  metadata : Data.readChars x.metadata x.metadataLen = .ok r.metadata
  fits : r.encode.length < 2 ^ 64

theorem Record.encode_length (r : Record) :
    r.encode.length =
      32 + r.id.length + 4 * r.embedding.length + r.document.length +
        r.metadata.length := by
  simp only [Record.encode, List.length_append, toLE_length, floatBytes_length]
  omega

/-- Every record takes at least its four length words. -/
theorem Record.encode_pos (r : Record) : 0 < r.encode.length := by
  rw [Record.encode_length]
  omega

/-- The `Data` the database client builds for a record: every string is copied
with its terminator, which its length does not count. -/
def Record.toData (r : Record) : Data where
  idLen := r.id.length
  embeddingLen := r.embedding.length
  documentLen := r.document.length
  metadataLen := r.metadata.length
  id := some (r.id ++ [0])
  embedding := some (r.embedding.map some)
  document := some (r.document ++ [0])
  metadata := some (r.metadata ++ [0])

theorem Record.toData_idString {r : Record} (h : 0 ∉ r.id) :
    r.toData.idString = .ok r.id := by
  show bounded (cString 0 (r.id ++ 0 :: [])) = .ok r.id
  rw [cString_append h, bounded_some]

theorem Record.toData_readEmbedding (r : Record) :
    r.toData.readEmbedding r.embedding.length = .ok r.embedding := by
  have hfull : window (r.embedding.map some) 0 r.embedding.length =
      some (r.embedding.map some) := by
    have := window_full (r.embedding.map some)
    rwa [List.length_map] at this
  simp only [Data.readEmbedding, Record.toData, hfull, bounded_some, ok_bind,
    written_map_some]

/-- Such a `Data` holds its record. -/
theorem Record.toData_holds {r : Record} (h : r.encode.length < 2 ^ 64) : r.toData.Holds r where
  idLen := rfl
  embeddingLen := rfl
  documentLen := rfl
  metadataLen := rfl
  id := congrArg bounded (window_append_left r.id [0])
  embedding := by
    have hfull : window (r.embedding.map some) 0 r.embedding.length =
        some (r.embedding.map some) := by
      have := window_full (r.embedding.map some)
      rwa [List.length_map] at this
    simp only [Data.readFloats, Record.toData, hfull, bounded_some, ok_bind, written_map_some]
  document := congrArg bounded (window_append_left r.document [0])
  metadata := congrArg bounded (window_append_left r.metadata [0])
  fits := h

/-- One step of the encoder, in the form in which it is chained: the buffer is
what has been sent so far followed by zeros. -/
private theorem copy_next (done src : Bytes) (n index : Nat)
    (hindex : index = done.length) (hfit : src.length ≤ n) :
    bounded (memcpy (done ++ List.replicate n (0 : UInt8)) index src) =
      .ok ((done ++ src) ++ List.replicate (n - src.length) 0) := by
  rw [hindex, memcpy_replicate done src 0 n hfit, bounded_some]

/-- **The encoder sends `Record.encode`.** -/
theorem Data.serialize_of_holds {x : Data} {r : Record} (h : x.Holds r) :
    x.serialize = .ok r.encode := by
  obtain ⟨hi, he, hd, hm, hid, hemb, hdoc, hmeta, hfits⟩ := h
  have hlen := Record.encode_length r
  have hsize : (4 * 8 + x.idLen + x.documentLen + x.metadataLen +
      4 * x.embeddingLen) % 2 ^ 64 = r.encode.length := by
    rw [Nat.mod_eq_of_lt (by omega)]
    omega
  simp only [Data.serialize, hsize, hid, hemb, hdoc, hmeta, ok_bind]
  rw [← List.nil_append (List.replicate r.encode.length (0 : UInt8)),
    copy_next [] (toLE 8 x.idLen) _ 0 rfl (by simp; omega), ok_bind,
    copy_next _ r.id _ 8 (by simp) (by simp; omega), ok_bind,
    copy_next _ (toLE 8 x.embeddingLen) _ _ (by simp [hi]) (by simp; omega), ok_bind,
    copy_next _ (floatBytes r.embedding) _ _ (by simp; omega) (by simp; omega), ok_bind,
    copy_next _ (toLE 8 x.documentLen) _ _ (by simp; omega) (by simp; omega), ok_bind,
    copy_next _ r.document _ _ (by simp; omega) (by simp; omega), ok_bind,
    copy_next _ (toLE 8 x.metadataLen) _ _ (by simp; omega) (by simp; omega), ok_bind,
    copy_next _ r.metadata _ _ (by simp; omega) (by simp; omega)]
  have hdone : r.encode.length - (toLE 8 x.idLen).length - r.id.length -
      (toLE 8 x.embeddingLen).length - (floatBytes r.embedding).length -
      (toLE 8 x.documentLen).length - r.document.length -
      (toLE 8 x.metadataLen).length - r.metadata.length = 0 := by
    simp only [toLE_length, floatBytes_length]
    omega
  rw [hdone, List.replicate_zero, List.append_nil, List.nil_append, Record.encode,
    hi, he, hd, hm]

end Periplus.Ports
