import Periplus.Ports.Core

/-!
# `db_client.cpp`: the answer of the proxy, decoded

The parser is RapidJSON and is not part of the repository; `Json` is a document
as the decoder sees it through the library's accessors.  `HasMember` asserts
that it is applied to an object, and `operator[]` takes the first member of a
name.

The decoder writes result `i` into slot `x[i]`.  It is given the pointer, not the
number of slots, so a result beyond the last slot is `Fault.outOfBounds`.

## Main results

* `fillItems_eq_ok_iff` — the loop over the results comes back exactly when each
  is an object with an embedding and there are not more of them than slots.
* `decoded_readEmbedding` — a slot can be read as a vector of the length it
  declares exactly when every element of the embedding was a `float`.
-/

namespace Periplus.Ports

open Periplus.Verified.Memory
open Periplus.Verified.Run

/-- A parsed document. -/
inductive Json
  | null
  | bool (b : Bool)
  /-- A number, with what `GetFloat` returns for it if `IsFloat` holds: the number
  was written with a fraction or an exponent and is in the range of a `float`. -/
  | number (float : Option F32)
  | string (s : Bytes)
  | array (items : List Json)
  | object (members : List (Bytes × Json))

namespace Json

/-- The members looked up by `HasMember` and `operator[]`. -/
def members : Json → Except Fault (List (Bytes × Json))
  | .object ms => .ok ms
  | .null => .error (.assertion .isObject)
  | .bool _ => .error (.assertion .isObject)
  | .number _ => .error (.assertion .isObject)
  | .string _ => .error (.assertion .isObject)
  | .array _ => .error (.assertion .isObject)

/-- `val.GetFloat()` when `val.IsFloat()`. -/
def float? : Json → Option F32
  | .number float => float
  | .null => none
  | .bool _ => none
  | .string _ => none
  | .array _ => none
  | .object _ => none

end Json

/-- What `strlen` and `strcpy` see of a string: the bytes before the first NUL. -/
def cChars (s : Bytes) : Bytes := s.takeWhile (· ≠ 0)

theorem zero_not_mem_cChars (s : Bytes) : 0 ∉ cChars s := by
  intro h
  simpa using List.mem_takeWhile_imp h

namespace DBClient

/-- `item.HasMember(name) && item[name].IsString()`, and the string. -/
def stringMember (ms : List (Bytes × Json)) (name : Bytes) : Option Bytes :=
  match ms.lookup name with
  | some (.string s) => some (cChars s)
  | _ => none

/-- `item.HasMember(name) && item[name].IsArray()`, and its elements. -/
def arrayMember (ms : List (Bytes × Json)) (name : Bytes) : Option (List Json) :=
  match ms.lookup name with
  | some (.array items) => some items
  | _ => none

/-- The buffer allocated for an embedding: the elements that are `float`s are
stored one after the other, and what is left over is not written. -/
def embeddingBuffer (vals : List Json) : List (Option F32) :=
  (vals.filterMap Json.float?).map some ++
    List.replicate (vals.length - (vals.filterMap Json.float?).length) none

/-- `assert(x[i].embedding.get() != nullptr)`. -/
def assertEmbedding (x : Data) : Except Fault Data :=
  if x.embedding.isSome then .ok x else .error (.assertion .embeddingNotNull)

def decodeId (ms : List (Bytes × Json)) (x : Data) : Data :=
  match stringMember ms (ascii "id") with
  | some s => { x with idLen := s.length, id := some (s ++ [0]) }
  | none => x

def decodeEmbedding (ms : List (Bytes × Json)) (x : Data) : Except Fault Data :=
  match arrayMember ms (ascii "embedding") with
  | some vals =>
      let embedding := some (embeddingBuffer vals)
      assertEmbedding { x with embeddingLen := vals.length, embedding := embedding }
  -- "document has no embedding associated with it"
  | none => assertEmbedding x

def decodeDocument (ms : List (Bytes × Json)) (x : Data) : Data :=
  match stringMember ms (ascii "document") with
  | some s => { x with documentLen := s.length, document := some (s ++ [0]) }
  | none => x

def decodeMetadata (ms : List (Bytes × Json)) (x : Data) : Data :=
  match stringMember ms (ascii "metadata") with
  | some s => { x with metadataLen := s.length, metadata := some (s ++ [0]) }
  | none => x

/-- One iteration of the loop over the results, on the slot `x[i]`. -/
def decodeItem (ms : List (Bytes × Json)) (x : Data) : Except Fault Data := do
  let x ← decodeEmbedding ms (decodeId ms x)
  assertEmbedding (decodeMetadata ms (decodeDocument ms x))

/-- The loop over the results. -/
def fillItems : List Json → Nat → List Data → Except Fault (List Data)
  | [], _, x => .ok x
  | item :: items, i, x => do
      let ms ← item.members
      let slot ← bounded x[i]?
      let slot ← decodeItem ms slot
      let x ← writeSlot x i slot
      fillItems items (i + 1) x

/-- The branch for a response with status code 200, on the parsed text; `none` is
a parse error. -/
def fillSlots (document : Option Json) (x : List Data) : Except Fault (List Data) :=
  match document with
  | none => .ok x
  | some document => do
      let ms ← document.members
      match arrayMember ms (ascii "results") with
      | some items => fillItems items 0 x
      -- "JSON wasn't an array"
      | none => .ok x

theorem fillItems_length {items : List Json} {i : Nat} {x x' : List Data}
    (h : fillItems items i x = .ok x') : x'.length = x.length := by
  induction items generalizing i x with
  | nil =>
      simp only [fillItems, Except.ok.injEq] at h
      rw [h]
  | cons item items ih =>
      rw [fillItems] at h
      obtain ⟨ms, _, h⟩ := bind_eq_ok.mp h
      obtain ⟨slot, _, h⟩ := bind_eq_ok.mp h
      obtain ⟨slot', _, h⟩ := bind_eq_ok.mp h
      obtain ⟨y, hy, h⟩ := bind_eq_ok.mp h
      rw [writeSlot, store] at hy
      split at hy
      · simp only [bounded_some, Except.ok.injEq] at hy
        rw [ih h, ← hy, List.length_set]
      · exact absurd hy (by simp)

theorem fillSlots_length {document : Option Json} {x x' : List Data}
    (h : fillSlots document x = .ok x') : x'.length = x.length := by
  cases document with
  | none =>
      simp only [fillSlots, Except.ok.injEq] at h
      rw [h]
  | some document =>
      rw [fillSlots] at h
      obtain ⟨ms, _, h⟩ := bind_eq_ok.mp h
      cases hitems : arrayMember ms (ascii "results") with
      | none =>
          simp only [hitems, Except.ok.injEq] at h
          rw [h]
      | some items =>
          simp only [hitems] at h
          exact fillItems_length h

def constructJsonBody (ids : List Bytes) : Json :=
  .object [(ascii "ids", .array (ids.map (fun id => .string (cChars id))))]

/-- What the session returns for a POST of the request. -/
structure Response where
  statusCode : Nat
  text : Bytes

/-- `DBClient::search` on `new Data[ids.size()]`.  The parser reads the text up to
its first NUL. -/
def search (parse : Bytes → Option Json) (post : Json → Response)
    (ids : List Bytes) : DbAnswer ids.length :=
  let response := post (constructJsonBody ids)
  if response.statusCode ≠ 200 then .httpException response.statusCode
  else
    match h : fillSlots (parse (cChars response.text)) (List.replicate ids.length ({} : Data)) with
    | .error f => .fault f
    | .ok x => .filled ⟨x.toArray, by
        rw [List.size_toArray, fillSlots_length h, List.length_replicate]⟩

theorem search_of_ok {parse : Bytes → Option Json} {text : Bytes} {ids : List Bytes}
    {x : List Data}
    (h : fillSlots (parse (cChars text)) (List.replicate ids.length {}) = .ok x) :
    ∃ y, search parse (fun _ => ⟨200, text⟩) ids = .filled y ∧ y.toList = x := by
  unfold search
  simp only [ne_eq, not_true_eq_false, if_false]
  split
  · next f hf =>
      rw [h] at hf
      exact absurd hf (by simp)
  · next x' hx' =>
      rw [h, Except.ok.injEq] at hx'
      exact ⟨_, rfl, hx'.symm⟩

theorem search_of_error {parse : Bytes → Option Json} {text : Bytes} {ids : List Bytes}
    {f : Fault}
    (h : fillSlots (parse (cChars text)) (List.replicate ids.length {}) = .error f) :
    search parse (fun _ => ⟨200, text⟩) ids = .fault f := by
  unfold search
  simp only [ne_eq, not_true_eq_false, if_false]
  split
  · next f' hf =>
      rw [h, Except.error.injEq] at hf
      rw [hf]
  · next x' hx' =>
      rw [h] at hx'
      exact absurd hx' (by simp)

/-! ## What the decoder makes of a result -/

/-- The elements of the embedding of a result, if it is an object with one. -/
def embeddingOf (item : Json) : Option (List Json) :=
  match item with
  | .object ms => arrayMember ms (ascii "embedding")
  | _ => none

/-- The id of a result. -/
def idOf (item : Json) : Option Bytes :=
  match item with
  | .object ms => stringMember ms (ascii "id")
  | _ => none

/-- The slot of a result that is decoded, with the fields that loading reads. -/
structure Decoded (item : Json) (x : Data) : Prop where
  vals : ∃ vals, embeddingOf item = some vals ∧ x.embeddingLen = vals.length ∧
    x.embedding = some (embeddingBuffer vals)
  id : x.id = (idOf item).map (fun s => s ++ [0])

/-- The document and the metadata do not touch what loading reads. -/
private theorem decodeTexts_fields (ms : List (Bytes × Json)) (x : Data) :
    (decodeMetadata ms (decodeDocument ms x)).embedding = x.embedding ∧
      (decodeMetadata ms (decodeDocument ms x)).embeddingLen = x.embeddingLen ∧
      (decodeMetadata ms (decodeDocument ms x)).id = x.id := by
  unfold decodeMetadata decodeDocument
  cases stringMember ms (ascii "document") <;>
    cases stringMember ms (ascii "metadata") <;> exact ⟨rfl, rfl, rfl⟩

private theorem decodeId_fields (ms : List (Bytes × Json)) :
    (decodeId ms {}).embedding = none ∧
      (decodeId ms {}).id = (stringMember ms (ascii "id")).map (fun s => s ++ [0]) := by
  unfold decodeId
  cases stringMember ms (ascii "id") <;> exact ⟨rfl, rfl⟩

/-- A fresh slot is decoded exactly when the result has an embedding. -/
theorem decodeItem_isSome {ms : List (Bytes × Json)} {x : Data}
    (h : decodeItem ms {} = .ok x) : (arrayMember ms (ascii "embedding")).isSome := by
  rw [decodeItem, decodeEmbedding] at h
  cases hvals : arrayMember ms (ascii "embedding") with
  | some vals => rfl
  | none =>
      simp [hvals, assertEmbedding, (decodeId_fields ms).1] at h

theorem decodeItem_of_isSome {ms : List (Bytes × Json)} {vals : List Json}
    (h : arrayMember ms (ascii "embedding") = some vals) :
    decodeItem ms {} = .ok (decodeMetadata ms (decodeDocument ms
      { decodeId ms {} with
        embeddingLen := vals.length, embedding := some (embeddingBuffer vals) })) := by
  rw [decodeItem, decodeEmbedding, h]
  simp only [assertEmbedding, Option.isSome_some, if_true, ok_bind,
    (decodeTexts_fields ms _).1]

theorem decodeItem_decoded {ms : List (Bytes × Json)} {x : Data}
    (h : decodeItem ms {} = .ok x) : Decoded (.object ms) x := by
  obtain ⟨vals, hvals⟩ := Option.isSome_iff_exists.mp (decodeItem_isSome h)
  rw [decodeItem_of_isSome hvals, Except.ok.injEq] at h
  subst h
  obtain ⟨hembedding, hlen, hid⟩ := decodeTexts_fields ms
    { decodeId ms {} with
      embeddingLen := vals.length, embedding := some (embeddingBuffer vals) }
  refine ⟨⟨vals, hvals, hlen, hembedding⟩, ?_⟩
  rw [hid]
  exact (decodeId_fields ms).2

/-- **The loop over the results**, from a point where the slots ahead are fresh. -/
theorem fillItems_eq_ok_iff (items : List Json) (done : List Data) (n : Nat)
    (x : List Data) :
    fillItems items done.length (done ++ List.replicate n ({} : Data)) = .ok x ↔
      items.length ≤ n ∧ ∃ slots, List.Forall₂ (fun item slot => ∃ ms,
        item = .object ms ∧ decodeItem ms {} = .ok slot) items slots ∧
        x = done ++ slots ++ List.replicate (n - items.length) ({} : Data) := by
  induction items generalizing done n with
  | nil => simp [fillItems, eq_comm]
  | cons item items ih =>
      rw [fillItems]
      constructor
      · intro h
        obtain ⟨ms, hms, h⟩ := bind_eq_ok.mp h
        obtain ⟨slot, hslot, h⟩ := bind_eq_ok.mp h
        obtain ⟨slot', hslot', h⟩ := bind_eq_ok.mp h
        obtain ⟨y, hy, htail⟩ := bind_eq_ok.mp h
        cases n with
        | zero => simp at hslot
        | succ n =>
            have hfresh : slot = {} := by
              rw [List.getElem?_append_right (Nat.le_refl _), Nat.sub_self,
                List.replicate_succ, List.getElem?_cons_zero, bounded_some,
                Except.ok.injEq] at hslot
              exact hslot.symm
            subst hfresh
            have hset : y = (done ++ [slot']) ++ List.replicate n ({} : Data) := by
              rw [writeSlot, store_of_lt (by simp), bounded_some, Except.ok.injEq] at hy
              rw [← hy, List.set_append_right _ _ (Nat.le_refl _), Nat.sub_self,
                List.replicate_succ, List.set_cons_zero, List.append_assoc]
              rfl
            have hlen : done.length + 1 = (done ++ [slot']).length := by simp
            rw [hset, hlen] at htail
            obtain ⟨hle, slots, hslots, rfl⟩ := (ih _ _).mp htail
            have hobject : item = .object ms := by
              cases item <;> simp_all [Json.members]
            refine ⟨by simpa using hle, slot' :: slots,
              List.Forall₂.cons ⟨ms, hobject, hslot'⟩ hslots, ?_⟩
            simp
      · rintro ⟨hle, slots, hslots, rfl⟩
        cases hslots with
        | @cons _ slot _ slots hfirst hrest =>
            obtain ⟨ms, rfl, hslot⟩ := hfirst
            obtain ⟨m, rfl⟩ : ∃ m, n = m + 1 := ⟨n - 1, by simp at hle; omega⟩
            have hget : (done ++ List.replicate (m + 1) ({} : Data))[done.length]? =
                some {} := by
              rw [List.getElem?_append_right (Nat.le_refl _), Nat.sub_self,
                List.replicate_succ, List.getElem?_cons_zero]
            have hset : writeSlot (done ++ List.replicate (m + 1) ({} : Data)) done.length slot =
                .ok ((done ++ [slot]) ++ List.replicate m ({} : Data)) := by
              rw [writeSlot, store_of_lt (by simp), bounded_some,
                List.set_append_right _ _ (Nat.le_refl _), Nat.sub_self,
                List.replicate_succ, List.set_cons_zero, List.append_assoc]
              rfl
            have hlen : done.length + 1 = (done ++ [slot]).length := by simp
            rw [Json.members, ok_bind, hget, bounded_some, ok_bind, hslot, ok_bind, hset,
              ok_bind, hlen]
            refine (ih _ _).mpr ⟨by simpa using hle, slots, hrest, ?_⟩
            simp

/-! ## Reading the slot as a vector -/

/-- All the elements are `float`s. -/
def floats (vals : List Json) : Option (List F32) := written (vals.map Json.float?)

theorem floats_eq_some {vals : List Json} {v : List F32} :
    floats vals = some v ↔ vals.map Json.float? = v.map some :=
  written_eq_some

/-- When all elements are `float`s the buffer is full, and else it is not. -/
theorem written_embeddingBuffer (vals : List Json) :
    written (embeddingBuffer vals) = floats vals := by
  have hle := List.length_filterMap_le Json.float? vals
  by_cases hall : (vals.filterMap Json.float?).length = vals.length
  · have hfull : vals.map Json.float? = (vals.filterMap Json.float?).map some := by
      clear hle
      induction vals with
      | nil => rfl
      | cons a vals ih =>
          cases ha : a.float? with
          | none =>
              have := List.length_filterMap_le Json.float? vals
              rw [List.filterMap_cons_none ha, List.length_cons] at hall
              omega
          | some f =>
              rw [List.filterMap_cons_some ha, List.length_cons, List.length_cons] at hall
              rw [List.map_cons, List.filterMap_cons_some ha, List.map_cons, ha,
                ih (by omega)]
    rw [floats, hfull, embeddingBuffer, hall, Nat.sub_self, List.replicate_zero,
      List.append_nil]
  · have hnone : ∀ cells : List (Option F32), none ∈ cells → written cells = none := by
      intro cells hmem
      cases hw : written cells with
      | none => rfl
      | some v =>
          rw [written_eq_some.mp hw] at hmem
          simp at hmem
    rw [hnone _ ?_, floats, hnone _ ?_]
    · -- some element is no `float`, or they would all have been kept
      by_contra hmem
      refine hall ?_
      rw [List.length_filterMap_eq_countP, List.countP_eq_length]
      intro a ha
      cases hf : a.float? with
      | some f => rfl
      | none => exact absurd (List.mem_map.mpr ⟨a, ha, hf⟩) hmem
    · refine List.mem_append_right _ (List.mem_replicate.mpr ⟨by omega, rfl⟩)

/-- The buffer is as long as the embedding. -/
theorem embeddingBuffer_length (vals : List Json) :
    (embeddingBuffer vals).length = vals.length := by
  have hle := List.length_filterMap_le Json.float? vals
  rw [embeddingBuffer, List.length_append, List.length_map, List.length_replicate]
  omega

/-- **A slot whose embedding has the right length** is read as its `float`s. -/
theorem Decoded.readEmbedding {item : Json} {x : Data} {d : Nat} (h : Decoded item x)
    (hd : x.embeddingLen = d) {v : List F32} :
    x.readEmbedding d = .ok v ↔ (embeddingOf item).bind floats = some v := by
  obtain ⟨vals, hvals, hlen, hbuf⟩ := h.vals
  have hfull : window (embeddingBuffer vals) 0 d = some (embeddingBuffer vals) := by
    have hall := window_full (embeddingBuffer vals)
    rwa [embeddingBuffer_length, ← hlen, hd] at hall
  rw [Data.readEmbedding, hbuf, hvals, Option.bind_some, ← written_embeddingBuffer]
  simp only [hfull, bounded_some, ok_bind]
  cases written (embeddingBuffer vals) <;> simp

/-- The id is read back. -/
theorem Decoded.idString {item : Json} {x : Data} (h : Decoded item x) {id : Bytes} :
    x.idString = .ok id ↔ idOf item = some id := by
  rw [Data.idString, h.id]
  have hkeep : ∀ s, idOf item = some s → 0 ∉ s := by
    intro s hs
    cases item with
    | object ms =>
        simp only [idOf, stringMember] at hs
        split at hs
        · rw [Option.some.injEq] at hs
          rw [← hs]
          exact zero_not_mem_cChars _
        · exact absurd hs (by simp)
    | _ => simp [idOf] at hs
  cases hid : idOf item with
  | none => simp
  | some s =>
      simp only [Option.map_some]
      rw [cString_append (hkeep s hid) [], bounded_some, Except.ok.injEq,
        Option.some.injEq]

end DBClient

end Periplus.Ports
