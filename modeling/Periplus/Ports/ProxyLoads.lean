import Periplus.Ports.CoreRounds
import Periplus.Ports.Proxy

/-!
# Loads through the controller

A LOAD asks the proxy for the ids of each cell that it has to load.  With the handler of
the end-to-end test an id that is not known fails the request, and the LOAD with it.  With
the handler of the Pinecone example the vectors that are not in the index are left out of
the results, so that a slot stays empty and the process ends; and an empty cell fails,
since the handler prints the first id of the request.

## Main results

* `test_load`, `pinecone_load` — how a load from each of the two handlers ends.
* `rounds_tested` — the rounds of the end-to-end test are answered correctly.
-/

namespace Periplus.Ports.Proxy

open Periplus.Verified.JsonText
open Periplus.Verified.Memory
open Periplus.Verified.Run
open Periplus.Verified.Buckets

variable {φ : Type}

/-! ## What is registered -/

section Valid

variable {nCells : Nat} {δ : Type} [LinearOrder δ] {F : Faiss nCells δ}

/-- A string that ends within the first `n` characters is shorter than that. -/
theorem length_takeWhile_lt {n : Nat} {buf : Bytes} (h : 0 ∈ buf.take n) :
    (buf.takeWhile (· ≠ 0)).length < n := by
  induction n generalizing buf with
  | zero => exact absurd h (by simp)
  | succ n ih =>
      cases buf with
      | nil => exact absurd h (by simp)
      | cons b buf =>
          by_cases hb : b = 0
          · rw [hb, List.takeWhile_cons_of_neg (by simp)]
            exact Nat.succ_pos n
          · rw [List.take_succ_cons, List.mem_cons] at h
            rw [List.takeWhile_cons_of_pos (by simpa using hb), List.length_cons]
            have hrest := ih (h.resolve_left (fun h0 => hb h0.symm))
            omega

/-- The documents of a batch have short ids without NUL, and rows of the batch. -/
theorem addAll_valid {vs : List (List F32)} {ids : List Bytes} {s s' : Core nCells}
    (h : Core.addAll (vs.map (Core.nearestLabel F)) ids s = .ok s') :
    ∀ p ∈ List.zipWith Core.docOfArgs vs ids, p.1.length < 100 ∧ 0 ∉ p.1 ∧ p.2 ∈ vs := by
  induction vs generalizing ids s with
  | nil => simp
  | cons v vs ih =>
      cases ids with
      | nil => simp
      | cons buf ids =>
          rw [List.map_cons, Core.addAll] at h
          obtain ⟨t, ht, h⟩ := bind_eq_ok.mp h
          obtain ⟨hterminated, _, c, id, _, hid, _⟩ := Core.addOne_eq_ok.mp ht
          rw [List.zipWith_cons_cons, List.forall_mem_cons]
          constructor
          · have hshort : 0 ∈ buf.take 100 := by
              by_contra hnot
              rw [Core.isNullTerminated, if_neg hnot] at hterminated
              split at hterminated <;> exact absurd hterminated (by simp)
            have hstring : cString 0 buf = some (buf.takeWhile (· ≠ 0)) :=
              if_pos (List.mem_of_mem_take hshort)
            rw [Core.docOfArgs, hstring, Option.getD_some]
            exact ⟨length_takeWhile_lt hshort, zero_not_mem_cChars buf, List.mem_cons_self⟩
          · intro p hp
            obtain ⟨hlength, hnul, hmem⟩ := ih h p hp
            exact ⟨hlength, hnul, List.mem_cons_of_mem v hmem⟩

/-- **What is registered is valid**, in every state that is reached. -/
theorem validDoc_of_registered {ops : List (Op nCells)} {s : Core nCells}
    (h : Core.Reaches F ops s) : ∀ p ∈ Core.registered F ops, Core.ValidDoc F p := by
  apply history_invariant (fun as _ => ∀ p ∈ Core.registered F as, Core.ValidDoc F p) _ _ h
  · intro p hp
    exact absurd hp List.not_mem_nil
  · intro as t op t' _ hvalid hstep
    rw [Core.registered_concat, List.forall_mem_append]
    refine ⟨hvalid, ?_⟩
    cases op with
    | add numDocs ids embeddings =>
        rw [Core.step, Core.add] at hstep
        obtain ⟨labels, hlabels, hadd⟩ := bind_eq_ok.mp hstep
        obtain ⟨hlength, heq⟩ := Core.quantizerSearch_nearest.mp hlabels
        rw [heq] at hadd
        intro p hp
        obtain ⟨hshort, hnul, hrow⟩ := addAll_valid hadd p hp
        refine ⟨hshort, hnul, ?_⟩
        obtain ⟨i, hi, hrow⟩ := List.mem_map.mp hrow
        have hle := row_le (List.mem_range.mp hi) F.d
        rw [← hrow, Faiss.query, rowAt, List.length_take, List.length_drop]
        omega
    | train => exact fun p hp => absurd hp List.not_mem_nil
    | load xq nload db => exact fun p hp => absurd hp List.not_mem_nil
    | evict xq nevict => exact fun p hp => absurd hp List.not_mem_nil
    | search n xq k nprobe requireAll data => exact fun p hp => absurd hp List.not_mem_nil

end Valid

/-! ## The answers for a cell -/

section Loads

variable {nCells : Nat} {δ : Type} [LinearOrder δ] {F : Faiss nCells δ} {ops : List (Op nCells)}
  {s : Core nCells} {parse : Bytes → Option Json} {round : Number → Option F32}
  {numeral : φ → Number} {respond : Reply φ → DBClient.Response} {q : List F32} {m : Nat}

/-- The ids of a cell are ids of documents, and there are no two of the same. -/
theorem ids_of_cell (hreach : Core.Reaches F ops s) (hids : Core.DistinctIds F ops)
    (c : Fin nCells) : (s.idsByCell c).Nodup ∧
      (∀ id ∈ s.idsByCell c, id ∈ (Core.registered F ops).map Prod.fst) ∧
      ∀ id ∈ s.idsByCell c, 0 ∉ id := by
  rw [(Core.registryInv_of_reaches hreach).cells c]
  have hsublist : List.Sublist ((bucket (fun p => F.nearest p.2) c (Core.registered F ops)).map
      Prod.fst) ((Core.registered F ops).map Prod.fst) :=
    List.Sublist.map _ List.filter_sublist
  refine ⟨hids.sublist hsublist, fun id hid => hsublist.subset hid, ?_⟩
  intro id hid
  obtain ⟨p, hp, rfl⟩ := List.mem_map.mp (hsublist.subset hid)
  exact (validDoc_of_registered hreach p hp).noNul

/-- A load of the cells nearest to a vector, from any database. -/
theorem outcome_of_loadCellWithVec {db : Database nCells} (hreach : Core.Reaches F ops s)
    (hids : Core.DistinctIds F ops) (hproxy : Core.FaithfulProxy F ops) (hq : q.length = F.d)
    (hm : m ≠ 0) (hranked : m ≤ (F.ranked q).length)
    (hdb : ∀ c, Core.Answered F (Core.registered F ops) (s.idsByCell c) (db c (s.idsByCell c))) :
    Core.LoadOutcome F ops db (Core.probed F q m) s (s.loadCellWithVec F db q m) := by
  have hholds : Core.Holds F ops s := ⟨Core.storeInv_of_reaches hreach,
    Core.registryInv_of_reaches hreach, Core.snapshot_of_reaches hreach hids hproxy⟩
  have htake : q.take F.d = q := by rw [← hq, List.take_length]
  have hlabels := Core.assign_eq_map.mpr ⟨hranked, rfl⟩
  rw [Core.loadCellWithVec, quantizerSearch_one.mpr ⟨hm, Nat.le_of_eq hq.symm, rfl⟩, ok_bind,
    htake, hlabels]
  exact Core.loadCells_outcome hids (Core.probed_nodup F q m) hholds hdb

/-- What the request for the ids of a cell comes to, with a handler that raises for an id
that it does not know.  A request that fails does so with the status code that is sent. -/
structure TestReply (F : Faiss nCells δ) (docs : List Doc) (t : TestData φ)
    (respond : Reply φ → DBClient.Response) (db : Database nCells) (s : Core nCells)
    (c : Fin nCells) : Prop where
  notText : requested (s.idsByCell c) = none → db c (s.idsByCell c) =
    .httpException
      (respond (.httpException 422 (.errors (payload (s.idsByCell c))))).statusCode
  missing : ∀ strings, requested (s.idsByCell c) = some strings →
    (∃ id ∈ strings, t.vectors id = none) → db c (s.idsByCell c) =
      .httpException (respond (.raises "KeyError".toList)).statusCode
  whole : ∀ strings, requested (s.idsByCell c) = some strings →
    (∀ id ∈ strings, (t.vectors id).isSome) → Core.Whole F docs db s c

/-- What it comes to with the index of the example. -/
structure IndexReply (F : Faiss nCells δ) (docs : List Doc) (vectors : PyStr → Option (List φ))
    (fetch : List PyStr → List (PyStr × List φ)) (respond : Reply φ → DBClient.Response)
    (db : Database nCells) (s : Core nCells) (c : Fin nCells) : Prop where
  notText : requested (s.idsByCell c) = none → db c (s.idsByCell c) =
    .httpException
      (respond (.httpException 422 (.errors (payload (s.idsByCell c))))).statusCode
  /-- An empty request has no first id. -/
  noIds : s.idsByCell c = [] → db c (s.idsByCell c) =
    .httpException (respond (.raises "IndexError".toList)).statusCode
  /-- The chunks together bring the ids that are known, each once. -/
  chunks : ∀ strings, requested (s.idsByCell c) = some strings → s.idsByCell c ≠ [] →
    ∃ results, Pinecone.fetchIds fetch strings = .queryResult results ∧
      (results.map Record.found).Perm (known vectors strings)
  missing : ∀ strings, requested (s.idsByCell c) = some strings →
    (∃ id ∈ strings, vectors id = none) → Core.LeavesEmpty F docs db s c
  whole : ∀ strings, requested (s.idsByCell c) = some strings → s.idsByCell c ≠ [] →
    (∀ id ∈ strings, (vectors id).isSome) → Core.Whole F docs db s c

/-- The request for a cell whose ids are known is answered by everything registered in it. -/
theorem whole_of_texts (t : TestData φ) (hreach : Core.Reaches F ops s)
    (hids : Core.DistinctIds F ops)
    (hagrees : Agrees numeral round t.vectors (Core.registered F ops))
    (hpointed : ∀ x, ¬ (numeral x).StoredAsInteger) {c : Fin nCells}
    (hsends : Sends parse round numeral respond t.fetchIds (s.idsByCell c)) {strings : List PyStr}
    (hstrings : requested (s.idsByCell c) = some strings)
    (hall : ∀ id ∈ strings, (t.vectors id).isSome) :
    Core.Whole F (Core.registered F ops) (database parse t.fetchIds respond nCells) s c := by
  obtain ⟨hnodup, hmem, _⟩ := ids_of_cell hreach hids c
  obtain ⟨results, hresults, hfound⟩ := (t.mapM_object strings).1 hall
  have hhandled : t.fetchIds strings = .queryResult results := by
    rw [TestData.fetchIds, hresults]
  obtain ⟨x, hx, hwhole, _⟩ := answered_of_results (validDoc_of_registered hreach) hagrees
    hpointed hmem hnodup hsends hstrings hhandled (List.Perm.of_eq hfound)
  exact ⟨x, hx, hwhole hall⟩

/-- A request for ids that are not texts fails. -/
theorem search_notText (hfastApi : FastApi respond) (handlerFunction : List PyStr → Handled φ)
    {ids : List Bytes} (h : requested ids = none) :
    DBClient.search parse (post handlerFunction respond) ids =
      .httpException (respond (.httpException 422 (.errors (payload ids)))).statusCode := by
  apply search_refused
  · rw [handleLoadData_payload, h]
  · exact hfastApi.httpException 422 _ (by decide)

/-- So does one for which the handler raises. -/
theorem search_raises (hfastApi : FastApi respond) {handlerFunction : List PyStr → Handled φ}
    {ids : List Bytes} {strings : List PyStr} {exception : PyStr}
    (h : requested ids = some strings) (hraises : handlerFunction strings = .raises exception) :
    DBClient.search parse (post handlerFunction respond) ids =
      .httpException (respond (.raises exception)).statusCode := by
  apply search_refused
  · rw [handleLoadData_payload, h]
    simp only [hraises]
  · exact hfastApi.raises exception

theorem testReply (t : TestData φ) (hfastApi : FastApi respond) (hreach : Core.Reaches F ops s)
    (hids : Core.DistinctIds F ops)
    (hagrees : Agrees numeral round t.vectors (Core.registered F ops))
    (hpointed : ∀ x, ¬ (numeral x).StoredAsInteger) (c : Fin nCells)
    (hsends : Sends parse round numeral respond t.fetchIds (s.idsByCell c)) :
    TestReply F (Core.registered F ops) t respond (database parse t.fetchIds respond nCells)
      s c := by
  constructor
  · intro hnone
    exact search_notText hfastApi _ hnone
  · intro strings hstrings hmissing
    have hraises : t.fetchIds strings = .raises "KeyError".toList := by
      rw [TestData.fetchIds, (t.mapM_object strings).2 hmissing]
    exact search_raises hfastApi hstrings hraises
  · intro strings hstrings hall
    exact whole_of_texts t hreach hids hagrees hpointed hsends hstrings hall

theorem indexReply {vectors : PyStr → Option (List φ)}
    {fetch : List PyStr → List (PyStr × List φ)} (hfetch : Fetches vectors fetch)
    (hfastApi : FastApi respond)
    (hreach : Core.Reaches F ops s) (hids : Core.DistinctIds F ops)
    (hagrees : Agrees numeral round vectors (Core.registered F ops))
    (hpointed : ∀ x, ¬ (numeral x).StoredAsInteger) (c : Fin nCells)
    (hsends : Sends parse round numeral respond (Pinecone.fetchIds fetch) (s.idsByCell c)) :
    IndexReply F (Core.registered F ops) vectors fetch respond
      (database parse (Pinecone.fetchIds fetch) respond nCells) s c := by
  obtain ⟨hnodup, hmem, hnul⟩ := ids_of_cell hreach hids c
  have hchunks : ∀ strings, requested (s.idsByCell c) = some strings → s.idsByCell c ≠ [] →
      ∃ results, Pinecone.fetchIds fetch strings = .queryResult results ∧
        (results.map Record.found).Perm (known vectors strings) := by
    intro strings hstrings hne
    have hencoded := encodeUtf8_requested hnul hstrings
    have hdistinct : strings.Nodup := by
      rw [← hencoded] at hnodup
      exact hnodup.of_map _
    refine ⟨_, ?_, Pinecone.results_perm hfetch hdistinct⟩
    cases strings with
    | nil => exact absurd hencoded.symm hne
    | cons id strings => rfl
  -- a request for some ids
  have hsome : ∀ strings, requested (s.idsByCell c) = some strings → s.idsByCell c ≠ [] →
      ∃ x, database parse (Pinecone.fetchIds fetch) respond nCells c (s.idsByCell c) = .filled x ∧
        ((∀ id ∈ strings, (vectors id).isSome) → Core.Faithful F (Core.registered F ops)
          (s.idsByCell c) (.filled x)) ∧
        ((∃ id ∈ strings, vectors id = none) → Core.Short F (Core.registered F ops) x.toList) := by
    intro strings hstrings hne
    obtain ⟨results, hhandled, hperm⟩ := hchunks strings hstrings hne
    exact answered_of_results (validDoc_of_registered hreach) hagrees hpointed hmem hnodup hsends
      hstrings hhandled hperm
  constructor
  · intro hnone
    exact search_notText hfastApi _ hnone
  · intro hempty
    have hnone : requested [] = some [] := rfl
    rw [hempty]
    exact search_raises hfastApi hnone rfl
  · exact hchunks
  · intro strings hstrings hmissing
    have hne : s.idsByCell c ≠ [] := by
      intro hempty
      obtain ⟨id, hid, _⟩ := hmissing
      have hencoded := encodeUtf8_requested hnul hstrings
      rw [hempty, List.map_eq_nil_iff] at hencoded
      rw [hencoded] at hid
      exact absurd hid List.not_mem_nil
    obtain ⟨x, hx, _, hshort⟩ := hsome strings hstrings hne
    exact ⟨x, hx, hshort hmissing⟩
  · intro strings hstrings hne hall
    obtain ⟨x, hx, hwhole, _⟩ := hsome strings hstrings hne
    exact ⟨x, hx, hwhole hall⟩

/-- Either all the ids are known, or one is not. -/
theorem known_or_missing (vectors : PyStr → Option (List φ)) (strings : List PyStr) :
    (∀ id ∈ strings, (vectors id).isSome) ∨ ∃ id ∈ strings, vectors id = none := by
  by_cases h : ∃ id ∈ strings, vectors id = none
  · exact Or.inr h
  · refine Or.inl (fun id hid => ?_)
    by_contra hnot
    exact h ⟨id, hid, Option.not_isSome_iff_eq_none.mp hnot⟩

theorem TestReply.answered {docs : List Doc} {t : TestData φ} {db : Database nCells}
    {c : Fin nCells} (h : TestReply F docs t respond db s c) :
    Core.Answered F docs (s.idsByCell c) (db c (s.idsByCell c)) := by
  cases hstrings : requested (s.idsByCell c) with
  | none =>
      rw [h.notText hstrings]
      exact .failed _
  | some strings =>
      rcases known_or_missing t.vectors strings with hall | hmissing
      · obtain ⟨x, hx, hfaithful⟩ := h.whole strings hstrings hall
        rw [hx]
        exact .whole hfaithful
      · rw [h.missing strings hstrings hmissing]
        exact .failed _

/-- When the request is answered, it is by everything. -/
theorem TestReply.whole_of_filled {docs : List Doc} {t : TestData φ} {db : Database nCells}
    {c : Fin nCells} (h : TestReply F docs t respond db s c) {x : Vector Data (s.idsByCell c).length}
    (hx : db c (s.idsByCell c) = .filled x) : Core.Whole F docs db s c := by
  cases hstrings : requested (s.idsByCell c) with
  | none =>
      rw [h.notText hstrings] at hx
      exact absurd hx (by simp)
  | some strings =>
      rcases known_or_missing t.vectors strings with hall | hmissing
      · exact h.whole strings hstrings hall
      · rw [h.missing strings hstrings hmissing] at hx
        exact absurd hx (by simp)

theorem IndexReply.answered {docs : List Doc} {vectors : PyStr → Option (List φ)}
    {fetch : List PyStr → List (PyStr × List φ)} {db : Database nCells} {c : Fin nCells}
    (h : IndexReply F docs vectors fetch respond db s c) :
    Core.Answered F docs (s.idsByCell c) (db c (s.idsByCell c)) := by
  by_cases hempty : s.idsByCell c = []
  · rw [h.noIds hempty]
    exact .failed _
  · cases hstrings : requested (s.idsByCell c) with
    | none =>
        rw [h.notText hstrings]
        exact .failed _
    | some strings =>
        rcases known_or_missing vectors strings with hall | hmissing
        · obtain ⟨x, hx, hfaithful⟩ := h.whole strings hstrings hempty hall
          rw [hx]
          exact .whole hfaithful
        · obtain ⟨x, hx, hshort⟩ := h.missing strings hstrings hmissing
          rw [hx]
          exact .short hshort

/-- Ids of which each is the UTF-8 of a text are read by the proxy. -/
theorem requested_of_texts {P : PyStr → Prop} {ids : List Bytes} (hnul : ∀ id ∈ ids, 0 ∉ id)
    (h : ∀ id ∈ ids, ∃ text, encodeUtf8 text = id ∧ P text) :
    ∃ strings, requested ids = some strings ∧ ∀ text ∈ strings, P text := by
  induction ids with
  | nil => exact ⟨[], rfl, by simp⟩
  | cons id ids ih =>
      rw [List.forall_mem_cons] at hnul h
      obtain ⟨strings, hstrings, hall⟩ := ih hnul.2 h.2
      obtain ⟨text, htext, hP⟩ := h.1
      refine ⟨text :: strings, ?_, List.forall_mem_cons.mpr ⟨hP, hall⟩⟩
      unfold requested at hstrings ⊢
      rw [List.map_cons, List.mapM_cons, hstrings, ProxyRecord.cChars_eq_self.mpr hnul.1, ← htext,
        decodeUtf8_encodeUtf8]
      rfl

/-- When every id that is registered is known, those of a cell are read by the proxy. -/
theorem requested_of_known (t : TestData φ) (hreach : Core.Reaches F ops s)
    (hids : Core.DistinctIds F ops)
    (hknown : ∀ p ∈ Core.registered F ops, ∃ id, encodeUtf8 id = p.1 ∧ (t.vectors id).isSome)
    (c : Fin nCells) : ∃ strings, requested (s.idsByCell c) = some strings ∧
      ∀ id ∈ strings, (t.vectors id).isSome := by
  obtain ⟨_, hmem, hnul⟩ := ids_of_cell hreach hids c
  apply requested_of_texts hnul
  intro id hid
  obtain ⟨p, hp, rfl⟩ := List.mem_map.mp (hmem id hid)
  exact hknown p hp

/-- A handler that knows every id that is registered answers every request with everything
that is registered in the cell. -/
theorem whole_of_known (t : TestData φ) (hreach : Core.Reaches F ops s)
    (hids : Core.DistinctIds F ops)
    (hagrees : Agrees numeral round t.vectors (Core.registered F ops))
    (hpointed : ∀ x, ¬ (numeral x).StoredAsInteger)
    (hknown : ∀ p ∈ Core.registered F ops, ∃ id, encodeUtf8 id = p.1 ∧ (t.vectors id).isSome)
    (hsends : ∀ c, Sends parse round numeral respond t.fetchIds (s.idsByCell c)) (c : Fin nCells) :
    Core.Whole F (Core.registered F ops) (database parse t.fetchIds respond nCells) s c := by
  obtain ⟨strings, hstrings, hall⟩ := requested_of_known t hreach hids hknown c
  exact whole_of_texts t hreach hids hagrees hpointed (hsends c) hstrings hall

end Loads

/-! ## Loads -/

/-! ### One record -/

/-- The number `0.9`. -/
def nineNumeral (_ : Unit) : Number where
  integer := 0
  fraction := some [Fin.last 9]

theorem not_storedAsInteger_nineNumeral (n : Unit) : ¬ (nineNumeral n).StoredAsInteger := by
  rintro ⟨hfraction, _⟩
  exact absurd hfraction (by simp [nineNumeral])

/-- The `float` next to `0.9`. -/
def nineRound (n : Number) : Option F32 := if n = nineNumeral () then some 0x3F666666 else none

/-- The record of `a` with the embedding `[0.9]`.  There is no other float here. -/
def oneRecord : Record Unit := Pinecone.toRecord (['a'], [()])

/-- The operations that register it. -/
def oneDoc : List (Op 1) := [.add 1 [[97, 0]] [0x3F666666]]

def resultText (r : Record Unit) : Bytes :=
  ascii "\x7b\"embedding\":[" ++
    List.intercalate [0x2C] (r.embedding.map (fun _ => ascii "0.9")) ++
    ascii "],\"document\":" ++ writeString (encodeUtf8 r.document) ++
    ascii ",\"id\":" ++ writeString (encodeUtf8 r.id) ++
    ascii ",\"metadata\":" ++ writeString (encodeUtf8 r.metadata) ++ ascii "\x7d"

def resultsText (results : List (Record Unit)) : Bytes :=
  ascii "\x7b\"results\":[" ++ List.intercalate [0x2C] (results.map resultText) ++ ascii "]\x7d"

def internalServerError : DBClient.Response := ⟨500, ascii "Internal Server Error"⟩

/-- The errors of a payload are a list, unless it is not UTF-8. -/
def oneRespond : Reply Unit → DBClient.Response
  | .queryResult results => ⟨200, resultsText results⟩
  | .httpException statusCode (.errors payload) =>
      match decodeUtf8 payload with
      | some _ => ⟨statusCode, ascii "\x7b\"detail\":[]\x7d"⟩
      | none => internalServerError
  | .httpException statusCode (.text detail) =>
      ⟨statusCode, ascii "\x7b\"detail\":" ++ writeString (encodeUtf8 detail) ++ ascii "\x7d"⟩
  | .raises _ => internalServerError

theorem fastApi_oneRespond : FastApi oneRespond where
  httpException := by
    intro statusCode detail hcode
    cases detail with
    | errors payload =>
        rw [oneRespond]
        split
        · exact hcode
        · decide
    | text detail => exact hcode
  raises := by
    intro exception
    show 500 ≠ 200
    decide

/-- The members of the record, as they are parsed. -/
def oneItem : List (Bytes × Json) :=
  [(ascii "embedding", .array [(nineNumeral ()).toJson nineRound]),
    (ascii "document", .string (ascii "document")), (ascii "id", .string (ascii "a")),
    (ascii "metadata", .string (ascii "\x7b\x7d"))]

/-- A parser on the text of this record. -/
def oneParse (text : Bytes) : Option Json :=
  if text = resultsText [oneRecord] then
    some (.object [(ascii "results", .array [.object oneItem])])
  else none

theorem requested_oneDoc : requested [[97]] = some [['a']] :=
  mapM_decodeUtf8_eq_some.mpr rfl

theorem sends_oneRecord {handlerFunction : List PyStr → Handled Unit}
    (h : handlerFunction [['a']] = .queryResult [oneRecord]) :
    Sends oneParse nineRound nineNumeral oneRespond handlerFunction [[97]] := by
  intro strings results hstrings hhandled
  rw [requested_oneDoc, Option.some.injEq] at hstrings
  rw [← hstrings, h, Handled.queryResult.injEq] at hhandled
  rw [← hhandled]
  have hnul : 0 ∉ resultsText [oneRecord] := by decide
  have hwritten : ProxyRecord.Written nineRound (.object oneItem)
      (oneRecord.toProxyRecord nineNumeral) := ⟨oneItem, rfl, rfl, rfl, rfl, rfl⟩
  refine ⟨rfl, ⟨[(ascii "results", .array [.object oneItem])], [.object oneItem], ?_, rfl,
    List.Forall₂.cons hwritten List.Forall₂.nil⟩, ?_⟩
  · show oneParse (cChars (resultsText [oneRecord])) = _
    rw [ProxyRecord.cChars_eq_self.mpr hnul]
    exact if_pos rfl
  · decide

/-- A source of embeddings that has nothing but this one. -/
theorem agrees_oneRecord {vectors : PyStr → Option (List Unit)} (h : vectors ['a'] = some [()]) :
    Agrees nineNumeral nineRound vectors
      (Core.registered (Faiss.discrete 1 1) oneDoc) := by
  intro p hp id v hid hv
  have hdoc : Core.registered (Faiss.discrete 1 1) oneDoc = [([97], [0x3F666666])] := rfl
  rw [hdoc, List.mem_singleton] at hp
  rw [hp] at hid ⊢
  have hname : id = ['a'] := by
    have hdecode := decodeUtf8_encodeUtf8 id
    rw [hid] at hdecode
    exact Option.some.inj (hdecode.symm.trans (decodeUtf8_encodeUtf8 ['a']))
  rw [hname, h, Option.some.injEq] at hv
  rw [← hv]
  decide

theorem faithfulProxy_oneDoc : Core.FaithfulProxy (Faiss.discrete 1 1) oneDoc := by
  intro pre xq nload db post s hops _
  have hload : Op.load xq nload db ∈ oneDoc := by
    rw [hops]
    exact List.mem_append_right _ List.mem_cons_self
  exact absurd hload (by simp [oneDoc])

theorem vectors_oneRecord : (TestData.load [oneRecord]).vectors ['a'] = some [()] := rfl

section Handlers

variable {nCells : Nat} {δ : Type} [LinearOrder δ]

/-- **A load from the proxy of the test** comes back, in every state that is reached: it
returns with the cells loaded completely, or the first request for ids that are not texts,
or are not all known, fails it with the status code that is sent. -/
theorem test_load (F : Faiss nCells δ) (ops : List (Op nCells)) (s : Core nCells)
    (hreach : Core.Reaches F ops s) (hids : Core.DistinctIds F ops)
    (hproxy : Core.FaithfulProxy F ops) (t : TestData φ) (numeral : φ → Number)
    (round : Number → Option F32) (parse : Bytes → Option Json) (respond : Reply φ → DBClient.Response)
    (hfastApi : FastApi respond) (hpointed : ∀ x, ¬ (numeral x).StoredAsInteger)
    (hagrees : Agrees numeral round t.vectors (Core.registered F ops))
    (hsends : ∀ c, Sends parse round numeral respond t.fetchIds (s.idsByCell c))
    (q : List F32) (m : Nat) (hq : q.length = F.d) (hm : m ≠ 0)
    (hranked : m ≤ (F.ranked q).length) :
    ∃ exit, s.loadCellWithVec F (database parse t.fetchIds respond nCells) q m = .ok exit ∧
      Core.LoadOutcome F ops (database parse t.fetchIds respond nCells) (Core.probed F q m) s
        (.ok exit) ∧
      ∀ c, TestReply F (Core.registered F ops) t respond
        (database parse t.fetchIds respond nCells) s c := by
  have hreplies : ∀ c, TestReply F (Core.registered F ops) t respond
      (database parse t.fetchIds respond nCells) s c :=
    fun c => testReply t hfastApi hreach hids hagrees hpointed c (hsends c)
  have houtcome := outcome_of_loadCellWithVec hreach hids hproxy hq hm hranked
    (fun c => (hreplies c).answered)
  generalize s.loadCellWithVec F (database parse t.fetchIds respond nCells) q m = result
    at houtcome ⊢
  cases houtcome with
  | returns holds whole loaded partly =>
      exact ⟨_, rfl, .returns holds whole loaded partly, hreplies⟩
  | refused holds split whole empty fails partly =>
      exact ⟨_, rfl, .refused holds split whole empty fails partly, hreplies⟩
  | @dies pre post c split whole empty leaves =>
      -- this handler returns all records or none
      obtain ⟨x, hx, hshort⟩ := leaves
      obtain ⟨y, hy, hfaithful⟩ := (hreplies c).whole_of_filled hx
      rw [hx, DbAnswer.filled.injEq] at hy
      rw [← hy] at hfaithful
      exact absurd hshort hfaithful.not_short

/-- The one record is loaded. -/
theorem test_load_oneRecord :
    ∃ s exit, Core.Reaches (Faiss.discrete 1 1) oneDoc s ∧
      s.loadCellWithVec (Faiss.discrete 1 1)
        (database oneParse (TestData.load [oneRecord]).fetchIds oneRespond 1) [0x3F666666] 1 =
          .ok exit := by
  obtain ⟨s, hs, hids⟩ : ∃ s, Core.Reaches (Faiss.discrete 1 1) oneDoc s ∧
      s.idsByCell 0 = [[97]] := ⟨_, rfl, rfl⟩
  obtain ⟨exit, hload, _⟩ := test_load (Faiss.discrete 1 1) oneDoc s hs (by decide)
    faithfulProxy_oneDoc (TestData.load [oneRecord]) nineNumeral nineRound oneParse
    oneRespond fastApi_oneRespond not_storedAsInteger_nineNumeral (agrees_oneRecord vectors_oneRecord)
    (by
      intro c
      rw [Subsingleton.elim c 0, hids]
      exact sends_oneRecord rfl)
    [0x3F666666] 1 rfl (by decide) (by decide)
  exact ⟨s, exit, hs, hload⟩

/-- **A load from the proxy of the example** ends the process when it asks for a vector
that is not in the index, and fails when it comes to a cell without ids; else it fails at
ids that are not texts or returns with the cells loaded completely. -/
theorem pinecone_load (F : Faiss nCells δ) (ops : List (Op nCells)) (s : Core nCells)
    (hreach : Core.Reaches F ops s) (hids : Core.DistinctIds F ops)
    (hproxy : Core.FaithfulProxy F ops) (vectors : PyStr → Option (List φ))
    (fetch : List PyStr → List (PyStr × List φ)) (hfetch : Fetches vectors fetch)
    (numeral : φ → Number) (round : Number → Option F32) (parse : Bytes → Option Json)
    (respond : Reply φ → DBClient.Response) (hfastApi : FastApi respond)
    (hpointed : ∀ x, ¬ (numeral x).StoredAsInteger)
    (hagrees : Agrees numeral round vectors (Core.registered F ops))
    (hsends : ∀ c, Sends parse round numeral respond (Pinecone.fetchIds fetch) (s.idsByCell c))
    (q : List F32) (m : Nat) (hq : q.length = F.d) (hm : m ≠ 0)
    (hranked : m ≤ (F.ranked q).length) :
    Core.LoadOutcome F ops (database parse (Pinecone.fetchIds fetch) respond nCells)
        (Core.probed F q m) s (s.loadCellWithVec F
          (database parse (Pinecone.fetchIds fetch) respond nCells) q m) ∧
      ∀ c, IndexReply F (Core.registered F ops) vectors fetch respond
        (database parse (Pinecone.fetchIds fetch) respond nCells) s c := by
  have hreplies : ∀ c, IndexReply F (Core.registered F ops) vectors fetch respond
      (database parse (Pinecone.fetchIds fetch) respond nCells) s c :=
    fun c => indexReply hfetch hfastApi hreach hids hagrees hpointed c (hsends c)
  exact ⟨outcome_of_loadCellWithVec hreach hids hproxy hq hm hranked
    (fun c => (hreplies c).answered), hreplies⟩

/-- An index with one vector. -/
def oneVector (id : PyStr) : Option (List Unit) := if id = ['a'] then some [()] else none

def fetchOne (ids : List PyStr) : List (PyStr × List Unit) :=
  if ['a'] ∈ ids then [(['a'], [()])] else []

theorem fetches_one : Fetches oneVector fetchOne where
  nodup := by
    intro ids _
    unfold fetchOne
    split
    · exact List.nodup_singleton _
    · exact List.nodup_nil
  mem := by
    intro ids id values _
    unfold fetchOne oneVector
    by_cases hmem : ['a'] ∈ ids
    · rw [if_pos hmem, List.mem_singleton, Prod.mk.injEq]
      constructor
      · rintro ⟨rfl, rfl⟩
        exact ⟨hmem, if_pos rfl⟩
      · rintro ⟨_, hvalues⟩
        split at hvalues
        · next hid => exact ⟨hid, (Option.some.inj hvalues).symm⟩
        · exact absurd hvalues (by simp)
    · rw [if_neg hmem]
      constructor
      · intro h
        exact absurd h List.not_mem_nil
      · rintro ⟨hid, hvalues⟩
        split at hvalues
        · next heq => exact absurd (heq ▸ hid) hmem
        · exact absurd hvalues (by simp)

/-- The one vector is loaded. -/
theorem pinecone_load_oneVector :
    ∃ s, Core.Reaches (Faiss.discrete 1 1) oneDoc s ∧
      Core.Whole (Faiss.discrete 1 1) (Core.registered (Faiss.discrete 1 1) oneDoc)
        (database oneParse (Pinecone.fetchIds fetchOne) oneRespond 1) s 0 := by
  obtain ⟨s, hs, hids⟩ : ∃ s, Core.Reaches (Faiss.discrete 1 1) oneDoc s ∧
      s.idsByCell 0 = [[97]] := ⟨_, rfl, rfl⟩
  obtain ⟨_, hreplies⟩ := pinecone_load (Faiss.discrete 1 1) oneDoc s hs (by decide)
    faithfulProxy_oneDoc oneVector fetchOne fetches_one nineNumeral nineRound oneParse
    oneRespond fastApi_oneRespond not_storedAsInteger_nineNumeral (agrees_oneRecord rfl)
    (by
      intro c
      rw [Subsingleton.elim c 0, hids]
      exact sends_oneRecord rfl)
    [0x3F666666] 1 rfl (by decide) (by decide)
  refine ⟨s, hs, (hreplies 0).whole [['a']] ?_ ?_ ?_⟩
  · rw [hids]
    exact requested_oneDoc
  · rw [hids]
    simp
  · rw [List.forall_mem_singleton]
    rfl

/-- **The rounds of the end-to-end test.**  Documents with distinct ids have been registered,
nothing is in residence, and the proxy knows every id.  Then each round of LOAD, SEARCH and
EVICT comes back, and its search finds what an index over all documents would find. -/
theorem rounds_tested (F : Faiss nCells δ) (ops : List (Op nCells)) (s : Core nCells)
    (hreach : Core.Reaches F ops s) (hids : Core.DistinctIds F ops) (hcold : s.Cold)
    (t : TestData φ) (numeral : φ → Number) (round : Number → Option F32)
    (parse : Bytes → Option Json) (respond : Reply φ → DBClient.Response)
    (hpointed : ∀ x, ¬ (numeral x).StoredAsInteger)
    (hagrees : Agrees numeral round t.vectors (Core.registered F ops))
    (hknown : ∀ p ∈ Core.registered F ops, ∃ id, encodeUtf8 id = p.1 ∧ (t.vectors id).isSome)
    (hsends : ∀ c, Sends parse round numeral respond t.fetchIds (s.idsByCell c))
    (k m : Nat) (hk : k ≠ 0) (hm : m ≠ 0) (qs : List (List F32))
    (hqs : ∀ q ∈ qs, q.length = F.d ∧ m ≤ (F.ranked q).length) :
    ∃ s', Core.Rounds F (Core.registered F ops) (database parse t.fetchIds respond nCells) k m
      qs s s' ∧ s'.Cold := by
  exact Core.rounds_correct F ops s hreach hids hcold _
    (whole_of_known t hreach hids hagrees hpointed hknown hsends) k m hk hm qs hqs

/-- Three rounds with one record. -/
theorem rounds_tested_oneRecord :
    ∃ s s', Core.Reaches (Faiss.discrete 1 1) oneDoc s ∧
      Core.Rounds (Faiss.discrete 1 1) (Core.registered (Faiss.discrete 1 1) oneDoc)
        (database oneParse (TestData.load [oneRecord]).fetchIds oneRespond 1) 5 1
        [[0x3F666666], [5], [6]] s s' := by
  obtain ⟨s, hs, hids, hcold⟩ : ∃ s, Core.Reaches (Faiss.discrete 1 1) oneDoc s ∧
      s.idsByCell 0 = [[97]] ∧ s.residenceStatuses 0 = -1 := ⟨_, rfl, rfl, rfl⟩
  obtain ⟨s', hrounds, _⟩ := rounds_tested (Faiss.discrete 1 1) oneDoc s hs (by decide)
    (by
      intro c
      rw [Subsingleton.elim c 0]
      exact hcold)
    (TestData.load [oneRecord]) nineNumeral nineRound oneParse oneRespond
    not_storedAsInteger_nineNumeral (agrees_oneRecord vectors_oneRecord)
    (by
      intro p hp
      rw [List.mem_singleton.mp hp]
      exact ⟨['a'], rfl, rfl⟩)
    (by
      intro c
      rw [Subsingleton.elim c 0, hids]
      exact sends_oneRecord rfl)
    5 1 (by decide) (by decide) [[0x3F666666], [5], [6]]
    (by
      intro q hq
      fin_cases hq <;> exact ⟨rfl, by decide⟩)
  exact ⟨s, s', hs, hrounds⟩

end Handlers

end Periplus.Ports.Proxy
