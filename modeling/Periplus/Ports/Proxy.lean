import Periplus.Ports.CoreOutcomes
import Periplus.Ports.CoreAddition
import Periplus.Ports.IdRoundTrip

/-!
# `periplus_proxy`: the controller, and the handlers of the repository

The controller parses the body of a request and passes the ids to a handler that the
application provides.  A body that cannot be parsed becomes an exception with the details of
pydantic, and so does a value that is no result.  The repository has two handlers: that of
the end-to-end test, which looks every id up and raises when it is missing, and that of the
Pinecone example, which asks an index for a hundred ids at a time and sends what the index
returns.

FastAPI, pydantic and the index are not part of the repository.  A body of the database
client is read by `readRequest`; what is sent for a reply is a parameter (`respond`), and so
is what the index returns (`fetch`).  The status code of an exception need not be the one
that is sent: the details of a body that is not UTF-8 contain its bytes, which cannot be
written as JSON.  All that is assumed is that no exception is sent with 200 (`FastApi`).

## Main results

* `search_post`, `search_refused` — what the database client makes of a request that goes
  through the controller.
* `answered_of_results` — the slots behind the results of a handler.
* `TestData.mapM_object`, `Pinecone.results_perm` — what the two handlers find.
-/

namespace Periplus.Ports.Proxy

open Periplus.Verified.JsonText
open Periplus.Verified.Memory
open Periplus.Verified.Run

/-- `models.Record`.  The floats of Python are the type `φ`. -/
structure Record (φ : Type) where
  embedding : List φ
  document : PyStr
  id : PyStr
  metadata : PyStr

variable {φ : Type}

/-! ## The controller -/

/-- What awaiting the handler comes to: a `QueryResult`, another value, or an exception. -/
inductive Handled (φ : Type)
  | queryResult (results : List (Record φ))
  | other
  | raises (exception : PyStr)

/-- What an `HTTPException` is raised with: the errors of pydantic for a payload, or a text. -/
inductive Detail
  | errors (payload : Bytes)
  | text (detail : PyStr)

/-- What `handle_load_data` comes to. -/
inductive Reply (φ : Type)
  | queryResult (results : List (Record φ))
  | httpException (statusCode : Nat) (detail : Detail)
  | raises (exception : PyStr)

/-- `ProxyController.handle_load_data`. -/
def handleLoadData (handlerFunction : List PyStr → Handled φ) (payload : Bytes) : Reply φ :=
  match readRequest payload with
  | none => .httpException 422 (.errors payload)
  | some ids =>
      match handlerFunction ids with
      | .queryResult results => .queryResult results
      | .other => .httpException 500 (.text "Invalid response from handler function".toList)
      | .raises exception => .raises exception

/-- An exception is not sent with 200, whether it is an `HTTPException` with another status
code or one that nothing catches. -/
structure FastApi (respond : Reply φ → DBClient.Response) : Prop where
  httpException : ∀ statusCode detail, statusCode ≠ 200 →
    (respond (.httpException statusCode detail)).statusCode ≠ 200
  raises : ∀ exception, (respond (.raises exception)).statusCode ≠ 200

/-- The response to the POST of a document. -/
def post (handlerFunction : List PyStr → Handled φ) (respond : Reply φ → DBClient.Response)
    (body : Json) : DBClient.Response :=
  match body.text with
  | none => ⟨0, []⟩
  | some text => respond (handleLoadData handlerFunction (cChars text))

/-- The database client with this proxy, whatever cell it asks for. -/
def database (parse : Bytes → Option Json) (handlerFunction : List PyStr → Handled φ)
    (respond : Reply φ → DBClient.Response) (nCells : Nat) : Database nCells :=
  fun _ ids => DBClient.search parse (post handlerFunction respond) ids

/-- The ids of a request as the handler is given them. -/
def requested (ids : List Bytes) : Option (List PyStr) := (ids.map cChars).mapM decodeUtf8

/-- The payload of a request for the ids. -/
def payload (ids : List Bytes) : Bytes := (DBClient.postedBody ids).getD []

/-- What the controller makes of a request for the ids. -/
theorem handleLoadData_payload (handlerFunction : List PyStr → Handled φ) (ids : List Bytes) :
    handleLoadData handlerFunction (payload ids) =
      match requested ids with
      | none => .httpException 422 (.errors (payload ids))
      | some strings =>
          match handlerFunction strings with
          | .queryResult results => .queryResult results
          | .other => .httpException 500 (.text "Invalid response from handler function".toList)
          | .raises exception => .raises exception := by
  have hread : readRequest (payload ids) = requested ids := by
    have hposted := readRequest_postedBody ids
    rw [DBClient.postedBody_eq, Option.bind_some] at hposted
    rw [payload, DBClient.postedBody_eq, Option.getD_some, hposted, requested]
  rw [handleLoadData, hread]

theorem handleLoadData_of_queryResult {handlerFunction : List PyStr → Handled φ}
    {ids : List Bytes} {strings : List PyStr} {results : List (Record φ)}
    (h : requested ids = some strings) (hresults : handlerFunction strings = .queryResult results) :
    handleLoadData handlerFunction (payload ids) = .queryResult results := by
  rw [handleLoadData_payload, h]
  simp only [hresults]

/-- Only the response to the request matters. -/
theorem search_congr {parse : Bytes → Option Json} {post post' : Json → DBClient.Response}
    {ids : List Bytes}
    (h : post (DBClient.constructJsonBody ids) = post' (DBClient.constructJsonBody ids)) :
    DBClient.search parse post ids = DBClient.search parse post' ids := by
  have hconst : ∀ post : Json → DBClient.Response, DBClient.search parse post ids =
      DBClient.search parse (fun _ => post (DBClient.constructJsonBody ids)) ids :=
    fun _ => rfl
  rw [hconst post, h, ← hconst]

/-- **A request through the controller** is answered by what is sent for its reply. -/
theorem search_post (parse : Bytes → Option Json) (handlerFunction : List PyStr → Handled φ)
    (respond : Reply φ → DBClient.Response) (ids : List Bytes) :
    DBClient.search parse (post handlerFunction respond) ids =
      DBClient.search parse (fun _ => respond (handleLoadData handlerFunction (payload ids)))
        ids := by
  apply search_congr
  rw [post, payload, DBClient.postedBody, DBClient.text_constructJsonBody]
  rfl

/-- A response with another status code fails the request. -/
theorem search_refused {parse : Bytes → Option Json} {handlerFunction : List PyStr → Handled φ}
    {respond : Reply φ → DBClient.Response} {ids : List Bytes} {reply : Reply φ}
    (h : handleLoadData handlerFunction (payload ids) = reply)
    (hcode : (respond reply).statusCode ≠ 200) :
    DBClient.search parse (post handlerFunction respond) ids =
      .httpException (respond reply).statusCode := by
  rw [search_post, h]
  exact if_pos hcode

/-! ## What a handler finds -/

/-- What loading reads of a record. -/
def Record.found (r : Record φ) : PyStr × List φ := (r.id, r.embedding)

/-- The ids that have an embedding, with it. -/
def known (vectors : PyStr → Option (List φ)) (ids : List PyStr) : List (PyStr × List φ) :=
  ids.filterMap (fun id => (vectors id).map (Prod.mk id))

theorem mem_known {vectors : PyStr → Option (List φ)} {ids : List PyStr} {id : PyStr}
    {v : List φ} : (id, v) ∈ known vectors ids ↔ id ∈ ids ∧ vectors id = some v := by
  simp only [known, List.mem_filterMap, Option.map_eq_some_iff, Prod.mk.injEq]
  constructor
  · rintro ⟨id', hmem, v', hv, rfl, rfl⟩
    exact ⟨hmem, hv⟩
  · rintro ⟨hmem, hv⟩
    exact ⟨id, hmem, v, hv, rfl, rfl⟩

theorem map_fst_known (vectors : PyStr → Option (List φ)) (ids : List PyStr) :
    (known vectors ids).map Prod.fst = ids.filter (fun id => (vectors id).isSome) := by
  induction ids with
  | nil => rfl
  | cons id ids ih =>
      unfold known at ih ⊢
      cases hv : vectors id with
      | none =>
          rw [List.filterMap_cons_none (by rw [hv]; rfl), List.filter_cons_of_neg (by simp [hv])]
          exact ih
      | some v =>
          rw [List.filterMap_cons_some (b := (id, v)) (by rw [hv]; rfl),
            List.filter_cons_of_pos (by simp [hv]), List.map_cons, ih]

theorem known_flatten (vectors : PyStr → Option (List φ)) (chunks : List (List PyStr)) :
    known vectors chunks.flatten = chunks.flatMap (known vectors) := by
  unfold known
  rw [List.filterMap_flatten, List.flatMap_def]

/-- Every id of a document has the embedding of the document, up to rounding, if any. -/
def Agrees (numeral : φ → Number) (round : Number → Option F32)
    (vectors : PyStr → Option (List φ)) (docs : List Doc) : Prop :=
  ∀ p ∈ docs, ∀ id v, encodeUtf8 id = p.1 → vectors id = some v →
    v.map (fun x => round (numeral x)) = p.2.map some

/-! ## Records, as they are sent -/

/-- The texts of a record are sent in UTF-8, and its floats as `numeral` writes them. -/
def Record.toProxyRecord (numeral : φ → Number) (r : Record φ) : ProxyRecord where
  id := encodeUtf8 r.id
  embedding := r.embedding.map numeral
  document := encodeUtf8 r.document
  metadata := encodeUtf8 r.metadata

/-- The results of the handler for the ids are sent with 200, in a text that is parsed as a
list of their records. -/
def Sends (parse : Bytes → Option Json) (round : Number → Option F32) (numeral : φ → Number)
    (respond : Reply φ → DBClient.Response) (handlerFunction : List PyStr → Handled φ)
    (ids : List Bytes) : Prop :=
  ∀ strings results, requested ids = some strings →
    handlerFunction strings = .queryResult results →
      (respond (.queryResult results)).statusCode = 200 ∧
        DBClient.Lists parse round (respond (.queryResult results)).text
          (results.map (Record.toProxyRecord numeral))

/-- **The slot of a record is the document**, if every float is written with a point or an
exponent. -/
theorem Record.represents {numeral : φ → Number} {round : Number → Option F32} {d : Nat}
    {r : Record φ} {p : Doc} (hnul : 0 ∉ p.1) (hlength : p.2.length = d)
    (hid : encodeUtf8 r.id = p.1)
    (hembedding : r.embedding.map (fun x => round (numeral x)) = p.2.map some)
    (hpointed : ∀ x, ¬ (numeral x).StoredAsInteger) :
    Core.Represents d ((r.toProxyRecord numeral).slot round) p where
  id := by
    have hchars : cChars (encodeUtf8 r.id) = p.1 := by
      rw [hid]
      exact ProxyRecord.cChars_eq_self.mpr hnul
    show bounded (cString 0 (cChars (encodeUtf8 r.id) ++ [0])) = .ok p.1
    rw [hchars, cString_append hnul, bounded_some]
  embedding := by
    have hrange : ∀ n ∈ (r.toProxyRecord numeral).embedding, (round n).isSome := by
      intro n hn
      obtain ⟨x, hx, rfl⟩ := List.mem_map.mp hn
      have hmem : round (numeral x) ∈ p.2.map some := by
        rw [← hembedding]
        exact List.mem_map_of_mem hx
      obtain ⟨v, _, hv⟩ := List.mem_map.mp hmem
      rw [← hv]
      rfl
    have hplain : ∀ n ∈ (r.toProxyRecord numeral).embedding, ¬ n.StoredAsInteger := by
      intro n hn
      obtain ⟨x, _, rfl⟩ := List.mem_map.mp hn
      exact hpointed x
    have hbuffer : DBClient.embeddingBuffer
        ((r.toProxyRecord numeral).embedding.map (Number.toJson round)) = p.2.map some := by
      rw [(ProxyRecord.buffer_iff hrange).mpr hplain]
      exact (List.map_map).trans hembedding
    have hwindow : window (p.2.map some) 0 d = some (p.2.map some) := by
      rw [← hlength, ← List.length_map (f := some)]
      exact window_full _
    show (bounded (window (DBClient.embeddingBuffer _) 0 d) >>= _) = _
    rw [hbuffer, hwindow, bounded_some, ok_bind]
    simp only [written_map_some]

section Results

variable {parse : Bytes → Option Json} {round : Number → Option F32} {numeral : φ → Number}
  {respond : Reply φ → DBClient.Response} {handlerFunction : List PyStr → Handled φ}
  {vectors : PyStr → Option (List φ)} {nCells : Nat} {δ : Type} [LinearOrder δ]
  {F : Faiss nCells δ} {docs : List Doc} {ids : List Bytes} {strings : List PyStr}
  {results : List (Record φ)}

/-- The ids that are requested are their UTF-8. -/
theorem encodeUtf8_requested (hids : ∀ id ∈ ids, 0 ∉ id) (h : requested ids = some strings) :
    strings.map encodeUtf8 = ids := by
  have hchars : ids.map cChars = ids := by
    conv_rhs => rw [← List.map_id ids]
    exact List.map_congr_left (fun id hid => ProxyRecord.cChars_eq_self.mpr (hids id hid))
  rw [requested, hchars, mapM_decodeUtf8_eq_some] at h
  exact h.symm

/-- The records of the results fill the first slots. -/
theorem search_sent (hsends : Sends parse round numeral respond handlerFunction ids)
    (hrequested : requested ids = some strings)
    (hhandled : handlerFunction strings = .queryResult results)
    (hle : (results.map (Record.toProxyRecord numeral)).length ≤ ids.length) :
    ∃ x, DBClient.search parse (post handlerFunction respond) ids = .filled x ∧
      x.toList = (results.map (Record.toProxyRecord numeral)).map (ProxyRecord.slot round) ++
        List.replicate (ids.length - (results.map (Record.toProxyRecord numeral)).length)
          ({} : Data) := by
  obtain ⟨hcode, hlists⟩ := hsends strings results hrequested hhandled
  rw [search_post, handleLoadData_of_queryResult hrequested hhandled]
  generalize respond (.queryResult results) = response at hcode hlists
  obtain ⟨statusCode, text⟩ := response
  rw [show statusCode = 200 from hcode]
  exact DBClient.search_lists hlists hle

/-- Every result is the record of a document. -/
theorem exists_docs (hvalid : ∀ p ∈ docs, Core.ValidDoc F p)
    (hagrees : Agrees numeral round vectors docs)
    (hpointed : ∀ x, ¬ (numeral x).StoredAsInteger)
    (hstrings : ∀ id ∈ strings, encodeUtf8 id ∈ docs.map Prod.fst)
    (hresults : ∀ r ∈ results, r.found ∈ known vectors strings) :
    ∃ ds : List Doc, ds.map Prod.fst = results.map (fun r => encodeUtf8 r.id) ∧
      (∀ p ∈ ds, p ∈ docs) ∧ List.Forall₂ (Core.Represents F.d)
        ((results.map (Record.toProxyRecord numeral)).map (ProxyRecord.slot round)) ds := by
  induction results with
  | nil => exact ⟨[], rfl, by simp, List.Forall₂.nil⟩
  | cons r results ih =>
      rw [List.forall_mem_cons] at hresults
      obtain ⟨ds, hkeys, hds, hrep⟩ := ih hresults.2
      obtain ⟨hmem, hv⟩ := mem_known.mp hresults.1
      obtain ⟨p, hp, hid⟩ := List.mem_map.mp (hstrings r.id hmem)
      have hslot : Core.Represents F.d ((r.toProxyRecord numeral).slot round) p :=
        Record.represents (hvalid p hp).noNul (hvalid p hp).dimension hid.symm
          (hagrees p hp r.id r.embedding hid.symm hv) hpointed
      refine ⟨p :: ds, ?_, List.forall_mem_cons.mpr ⟨hp, hds⟩, List.Forall₂.cons hslot hrep⟩
      rw [List.map_cons, List.map_cons, hid, hkeys]

/-- **The answer behind the results of a handler.**  The records of the ids that it knows
are in the first slots, and with all of them the answer is faithful. -/
theorem answered_of_results (hvalid : ∀ p ∈ docs, Core.ValidDoc F p)
    (hagrees : Agrees numeral round vectors docs)
    (hpointed : ∀ x, ¬ (numeral x).StoredAsInteger)
    (hids : ∀ id ∈ ids, id ∈ docs.map Prod.fst) (hnodup : ids.Nodup)
    (hsends : Sends parse round numeral respond handlerFunction ids)
    (hrequested : requested ids = some strings)
    (hhandled : handlerFunction strings = .queryResult results)
    (hresults : (results.map Record.found).Perm (known vectors strings)) :
    ∃ x, DBClient.search parse (post handlerFunction respond) ids = .filled x ∧
      ((∀ id ∈ strings, (vectors id).isSome) → Core.Faithful F docs ids (.filled x)) ∧
      ((∃ id ∈ strings, vectors id = none) → Core.Short F docs x.toList) := by
  have hnul : ∀ id ∈ ids, 0 ∉ id := by
    intro id hid
    obtain ⟨p, hp, rfl⟩ := List.mem_map.mp (hids id hid)
    exact (hvalid p hp).noNul
  have hencoded := encodeUtf8_requested hnul hrequested
  have hstrings : ∀ id ∈ strings, encodeUtf8 id ∈ docs.map Prod.fst := by
    intro id hid
    apply hids
    rw [← hencoded]
    exact List.mem_map_of_mem hid
  obtain ⟨ds, hkeys, hds, hrep⟩ := exists_docs hvalid hagrees hpointed hstrings
    (fun r hr => hresults.subset (List.mem_map_of_mem hr))
  -- the ids of the results are those that are known
  have hperm : (ds.map Prod.fst).Perm
      ((strings.filter (fun id => (vectors id).isSome)).map encodeUtf8) := by
    have hmap := (hresults.map Prod.fst).map encodeUtf8
    rw [map_fst_known, List.map_map, List.map_map] at hmap
    rw [hkeys]
    exact hmap
  have hlength : results.length = (strings.filter (fun id => (vectors id).isSome)).length := by
    rw [← map_fst_known, ← hresults.length_eq.trans (List.length_map _).symm, List.length_map]
  have hrecords : (results.map (Record.toProxyRecord numeral)).length = results.length :=
    List.length_map _
  have hcount : strings.length = ids.length := by rw [← hencoded, List.length_map]
  have hle := List.length_filter_le (fun id => (vectors id).isSome) strings
  obtain ⟨x, hx, hslots⟩ := search_sent hsends hrequested hhandled
    (show (results.map (Record.toProxyRecord numeral)).length ≤ ids.length by omega)
  refine ⟨x, ?_, ?_, ?_⟩
  · exact hx
  · intro hall
    have hfilter : strings.filter (fun id => (vectors id).isSome) = strings :=
      List.filter_eq_self.mpr hall
    rw [hfilter] at hperm hlength
    have hnone : ids.length - (results.map (Record.toProxyRecord numeral)).length = 0 := by omega
    rw [hnone, List.replicate_zero, List.append_nil] at hslots
    rw [hencoded] at hperm
    refine ⟨ds, hperm, hds, ?_⟩
    rw [hslots]
    exact hrep
  · intro hmissing
    have hlt : (strings.filter (fun id => (vectors id).isSome)).length < strings.length := by
      rw [List.length_filter_lt_length_iff_exists]
      obtain ⟨id, hid, hv⟩ := hmissing
      exact ⟨id, hid, by simp [hv]⟩
    refine ⟨_, ds, strings.length - results.length - 1, ?_, ?_, hds, hrep⟩
    · rw [hslots]
      congr 2
      omega
    · have hsublist : List.Sublist
          ((strings.filter (fun id => (vectors id).isSome)).map encodeUtf8) ids := by
        conv_rhs => rw [← hencoded]
        exact List.Sublist.map _ List.filter_sublist
      exact hperm.nodup_iff.mpr (hnodup.sublist hsublist)

end Results

/-! ## The handler of the end-to-end test -/

/-- `stored_objects` and `object_indices`: every index is that of an object with the id. -/
structure TestData (φ : Type) where
  storedObjects : List (Record φ)
  objectIndices : PyStr → Option Nat
  indexed : ∀ {id i}, objectIndices id = some i → ∃ r, storedObjects[i]? = some r ∧ r.id = id

namespace TestData

def empty : TestData φ where
  storedObjects := []
  objectIndices := fun _ => none
  indexed := fun h => absurd h (by simp)

theorem indexed_store (t : TestData φ) (object : Record φ) {id : PyStr} {i : Nat}
    (h : Function.update t.objectIndices object.id (some t.storedObjects.length) id = some i) :
    ∃ r, (t.storedObjects ++ [object])[i]? = some r ∧ r.id = id := by
  by_cases hid : id = object.id
  · rw [hid, Function.update_self, Option.some.injEq] at h
    rw [← h, hid]
    exact ⟨object, List.getElem?_concat_length, rfl⟩
  · rw [Function.update_of_ne hid] at h
    obtain ⟨r, hr, hrid⟩ := t.indexed h
    exact ⟨r, List.getElem?_append_left (List.getElem?_eq_some_iff.mp hr).1 ▸ hr, hrid⟩

/-- One iteration of the loop of `load_test_data`. -/
def store (t : TestData φ) (object : Record φ) : TestData φ where
  storedObjects := t.storedObjects ++ [object]
  objectIndices := Function.update t.objectIndices object.id (some t.storedObjects.length)
  indexed := t.indexed_store object

/-- `load_test_data`, for the objects that it makes. -/
def load (objects : List (Record φ)) : TestData φ := objects.foldl store empty

/-- `stored_objects[object_indices[id]]`. -/
def object (t : TestData φ) (id : PyStr) : Option (Record φ) := do
  let i ← t.objectIndices id
  t.storedObjects[i]?

/-- `fetch_ids`: an id without an index is a `KeyError`. -/
def fetchIds (t : TestData φ) (ids : List PyStr) : Handled φ :=
  match ids.mapM t.object with
  | some results => .queryResult results
  | none => .raises "KeyError".toList

/-- An id is that of the object that is stored for it. -/
theorem object_id {t : TestData φ} {id : PyStr} {r : Record φ} (h : t.object id = some r) :
    r.id = id := by
  obtain ⟨i, hi, hr⟩ := Option.bind_eq_some_iff.mp h
  obtain ⟨r', hr', hid⟩ := t.indexed hi
  rw [hr, Option.some.injEq] at hr'
  rw [hr', hid]

/-- The embeddings of the stored objects. -/
def vectors (t : TestData φ) (id : PyStr) : Option (List φ) :=
  (t.object id).map Record.embedding

/-- The handler finds what is stored for the ids, or raises when one has nothing. -/
theorem mapM_object (t : TestData φ) (ids : List PyStr) :
    ((∀ id ∈ ids, (t.vectors id).isSome) → ∃ results, ids.mapM t.object = some results ∧
      results.map Record.found = known t.vectors ids) ∧
    ((∃ id ∈ ids, t.vectors id = none) → ids.mapM t.object = none) := by
  induction ids with
  | nil => exact ⟨fun _ => ⟨[], rfl, rfl⟩, by simp⟩
  | cons id ids ih =>
      rw [List.mapM_cons]
      cases hobject : t.object id with
      | none =>
          have hnone : t.vectors id = none := by rw [vectors, hobject, Option.map_none]
          refine ⟨fun hall => ?_, fun _ => rfl⟩
          have hsome := hall id List.mem_cons_self
          rw [hnone] at hsome
          exact absurd hsome (by simp)
      | some r =>
          have hsome : t.vectors id = some r.embedding := by
            rw [vectors, hobject, Option.map_some]
          constructor
          · intro hall
            obtain ⟨results, hresults, hfound⟩ :=
              ih.1 (fun id' hid' => hall id' (List.mem_cons_of_mem id hid'))
            refine ⟨r :: results, by rw [hresults]; rfl, ?_⟩
            unfold known at hfound ⊢
            rw [List.map_cons, hfound,
              List.filterMap_cons_some (b := (id, r.embedding)) (by rw [hsome]; rfl), Record.found,
              object_id hobject]
          · rintro ⟨id', hid', hmissing⟩
            rcases List.mem_cons.mp hid' with rfl | hid'
            · rw [hsome] at hmissing
              exact absurd hmissing (by simp)
            · rw [ih.2 ⟨id', hid', hmissing⟩]
              rfl

end TestData

/-! ## The handler of the Pinecone example -/

section SplitList

variable {α : Type}

/-- `split_list`. -/
def splitList (lst : List α) (chunkSize : Nat) : List (List α) :=
  (List.range ((lst.length + chunkSize - 1) / chunkSize)).map
    (fun i => (lst.drop (i * chunkSize)).take chunkSize)

theorem splitList_nil {n : Nat} (hn : 0 < n) : splitList ([] : List α) n = [] := by
  have hnone : (0 + n - 1) / n = 0 := Nat.div_eq_of_lt (by omega)
  rw [splitList, List.length_nil, hnone]
  rfl

/-- The first chunk, and those of the rest. -/
theorem splitList_of_ne_nil {n : Nat} (hn : 0 < n) {lst : List α} (h : lst ≠ []) :
    splitList lst n = lst.take n :: splitList (lst.drop n) n := by
  have hpos : 0 < lst.length := List.length_pos_iff.mpr h
  have hcount : (lst.length + n - 1) / n = ((lst.drop n).length + n - 1) / n + 1 := by
    rw [List.length_drop]
    by_cases hle : lst.length ≤ n
    · have hfirst : lst.length + n - 1 = n + (lst.length - 1) := by omega
      have hrest : (lst.length - n + n - 1) / n = 0 := Nat.div_eq_of_lt (by omega)
      rw [hfirst, Nat.add_div_left _ hn, Nat.div_eq_of_lt (by omega), hrest]
    · have hfirst : lst.length + n - 1 = n + (lst.length - n + n - 1) := by omega
      rw [hfirst, Nat.add_div_left _ hn]
  have hothers : ∀ i, (lst.drop ((i + 1) * n)).take n = ((lst.drop n).drop (i * n)).take n := by
    intro i
    rw [List.drop_drop, Nat.add_mul, Nat.one_mul, Nat.add_comm]
  rw [splitList, hcount, List.range_succ_eq_map, List.map_cons, List.map_map, Nat.zero_mul,
    List.drop_zero]
  exact congrArg (lst.take n :: ·) (List.map_congr_left (fun i _ => hothers i))

/-- **The chunks make up the list**, and none is larger than it may be. -/
theorem splitList_spec {n : Nat} (hn : 0 < n) (lst : List α) :
    (splitList lst n).flatten = lst ∧ ∀ chunk ∈ splitList lst n, chunk.length ≤ n := by
  by_cases h : lst = []
  · rw [h, splitList_nil hn]
    exact ⟨rfl, by simp⟩
  · have hpos : 0 < lst.length := List.length_pos_iff.mpr h
    have hshorter : (lst.drop n).length < lst.length := by
      rw [List.length_drop]
      omega
    obtain ⟨hrest, hsmall⟩ := splitList_spec hn (lst.drop n)
    rw [splitList_of_ne_nil hn h, List.flatten_cons, hrest, List.forall_mem_cons]
    exact ⟨List.take_append_drop n lst, List.length_take_le n lst, hsmall⟩
termination_by lst.length

end SplitList

/-- `index.fetch` returns the vectors of the ids that are in the index, by their ids.  There
may be at most a hundred ids in a request. -/
structure Fetches (vectors : PyStr → Option (List φ))
    (fetch : List PyStr → List (PyStr × List φ)) : Prop where
  nodup : ∀ ids, ids.length ≤ 100 → ((fetch ids).map Prod.fst).Nodup
  mem : ∀ {ids id values}, ids.length ≤ 100 →
    ((id, values) ∈ fetch ids ↔ id ∈ ids ∧ vectors id = some values)

namespace Pinecone

/-- The `Record` that is made of a vector. -/
def toRecord (p : PyStr × List φ) : Record φ where
  embedding := p.2
  document := "document".toList
  id := p.1
  metadata := "\x7b\x7d".toList

/-- `fetch_ids`.  The first id is printed, so that an empty request is an `IndexError`. -/
def fetchIds (fetch : List PyStr → List (PyStr × List φ)) (ids : List PyStr) : Handled φ :=
  match ids with
  | [] => .raises "IndexError".toList
  | _ :: _ => .queryResult ((splitList ids 100).flatMap (fun ids => (fetch ids).map toRecord))

/-- One chunk of distinct ids. -/
theorem fetch_perm {vectors : PyStr → Option (List φ)}
    {fetch : List PyStr → List (PyStr × List φ)} (h : Fetches vectors fetch) {chunk : List PyStr}
    (hlength : chunk.length ≤ 100) (hnodup : chunk.Nodup) :
    (fetch chunk).Perm (known vectors chunk) := by
  have hknown : (known vectors chunk).Nodup := by
    apply List.Nodup.of_map Prod.fst
    rw [map_fst_known]
    exact hnodup.filter _
  apply (List.perm_ext_iff_of_nodup (List.Nodup.of_map _ (h.nodup chunk hlength)) hknown).mpr
  rintro ⟨id, values⟩
  rw [h.mem hlength, mem_known]

/-- **The records of a request** are those of the ids that are in the index. -/
theorem results_perm {vectors : PyStr → Option (List φ)}
    {fetch : List PyStr → List (PyStr × List φ)} (h : Fetches vectors fetch) {ids : List PyStr}
    (hnodup : ids.Nodup) :
    (((splitList ids 100).flatMap (fun ids => (fetch ids).map toRecord)).map Record.found).Perm
      (known vectors ids) := by
  obtain ⟨hflatten, hsmall⟩ := splitList_spec (show 0 < 100 by decide) ids
  have hfound : ((splitList ids 100).flatMap (fun ids => (fetch ids).map toRecord)).map
      Record.found = (splitList ids 100).flatMap fetch := by
    rw [List.map_flatMap]
    congr 1
    funext chunk
    rw [List.map_map]
    exact List.map_id _
  rw [hfound]
  conv_rhs => rw [← hflatten, known_flatten]
  apply List.Perm.flatMap_left
  intro chunk hchunk
  apply fetch_perm h (hsmall chunk hchunk)
  rw [← hflatten] at hnodup
  exact (List.nodup_flatten.mp hnodup).1 chunk hchunk

end Pinecone

end Periplus.Ports.Proxy
