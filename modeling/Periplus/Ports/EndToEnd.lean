import Periplus.Ports.ClientDialogue
import Periplus.Ports.ProxyLoads
import Periplus.Ports.SetUp

/-!
# The end-to-end test

A client initializes the cache, trains it, adds the ids and the embeddings of some objects,
and then goes through rounds of LOAD, SEARCH and EVICT; the proxy of the test has the same
objects.  An object passes through every format of the system on its way: its id goes out in
Latin-1 and is asked for in JSON, its floats come back in JSON and are packed for the client,
and its texts are sent in UTF-8.  What the client gets are the objects themselves.

## Main results

* `Record.slot_holds` — a record that can be stored, and the slot that is decoded of it.
* `TestData.object_load` — what the proxy has loaded is found by its id.
* `end_to_end` — every method of the test returns, and every search the nearest objects.
-/

namespace Periplus.Ports.Proxy

open Periplus.Verified.JsonText
open Periplus.Verified.Memory
open Periplus.Verified.Run
open Periplus.Verified.Buckets

variable {φ : Type}

/-! ## An object in the formats of the system -/

/-- The floats of Python: how one is written, what the decoder reads, and what `struct.pack`
makes of it.  Both make the `float` next to it. -/
structure Floats (φ : Type) where
  numeral : φ → Number
  round : Number → Option F32
  single : φ → F32
  pointed : ∀ x, ¬ (numeral x).StoredAsInteger
  rounds : ∀ x, round (numeral x) = some (single x)

namespace Record

variable (fl : Floats φ)

/-- The document of the core. -/
def toDoc (r : Record φ) : Doc := (encodeUtf8 r.id, r.embedding.map fl.single)

/-- The record that the client is to get. -/
def toPyRecord (r : Record φ) : PyRecord where
  id := r.id
  embedding := r.embedding.map fl.single
  document := r.document
  metadata := r.metadata

/-- The slot that the decoder fills. -/
def toSlot (r : Record φ) : Data := (r.toProxyRecord fl.numeral).slot fl.round

/-- The id is ASCII and fits its buffer, and there is no NUL. -/
structure Storable (d : Nat) (r : Record φ) : Prop where
  id : ∀ ch ∈ r.id, 0 < ch.toNat ∧ ch.toNat < 128
  short : r.id.length < 100
  embedding : r.embedding.length = d
  document : ∀ ch ∈ r.document, 0 < ch.toNat
  metadata : ∀ ch ∈ r.metadata, 0 < ch.toNat
  fits : (r.toPyRecord fl).toRecord.encode.length < 2 ^ 64

variable {fl} {d : Nat} {r : Record φ}

/-- **The slot holds the record** that the client is to get. -/
theorem slot_holds (h : r.Storable fl d) : (r.toSlot fl).Holds (r.toPyRecord fl).toRecord := by
  have hbuffer : DBClient.embeddingBuffer
      ((r.embedding.map fl.numeral).map (Number.toJson fl.round)) =
        (r.embedding.map fl.single).map some := by
    have hrange : ∀ n ∈ r.embedding.map fl.numeral, (fl.round n).isSome := by
      intro n hn
      obtain ⟨x, _, rfl⟩ := List.mem_map.mp hn
      rw [fl.rounds]
      rfl
    have hplain : ∀ n ∈ r.embedding.map fl.numeral, ¬ n.StoredAsInteger := by
      intro n hn
      obtain ⟨x, _, rfl⟩ := List.mem_map.mp hn
      exact fl.pointed x
    rw [(ProxyRecord.buffer_iff hrange).mpr hplain, List.map_map, List.map_map]
    exact List.map_congr_left (fun x _ => fl.rounds x)
  have hid : cChars (encodeUtf8 r.id) = encodeUtf8 r.id :=
    ProxyRecord.cChars_eq_self.mpr (zero_not_mem_utf8.mpr (fun ch hch => (h.id ch hch).1))
  have hdocument : cChars (encodeUtf8 r.document) = encodeUtf8 r.document :=
    ProxyRecord.cChars_eq_self.mpr (zero_not_mem_utf8.mpr h.document)
  have hmetadata : cChars (encodeUtf8 r.metadata) = encodeUtf8 r.metadata :=
    ProxyRecord.cChars_eq_self.mpr (zero_not_mem_utf8.mpr h.metadata)
  have hslot : r.toSlot fl = (r.toPyRecord fl).toRecord.toData := by
    unfold toSlot ProxyRecord.slot toProxyRecord Ports.Record.toData PyRecord.toRecord toPyRecord
    simp only [hbuffer, hid, hdocument, hmetadata, List.length_map]
  rw [hslot]
  exact Record.toData_holds h.fits

end Record

/-! ## What the proxy has loaded -/

/-- Everything that is found is found for one of the elements. -/
theorem mapM_spec {α β : Type} {f : α → Option β} {as : List α} {bs : List β}
    (h : as.mapM f = some bs) : bs.length = as.length ∧ ∀ b ∈ bs, ∃ a, f a = some b := by
  induction as generalizing bs with
  | nil =>
      rw [List.mapM_nil, Option.pure_def, Option.some.injEq] at h
      rw [← h]
      exact ⟨rfl, by simp⟩
  | cons a as ih =>
      rw [List.mapM_cons] at h
      obtain ⟨b, hb, h⟩ := Option.bind_eq_some_iff.mp h
      obtain ⟨rest, hrest, h⟩ := Option.bind_eq_some_iff.mp h
      rw [Option.pure_def, Option.some.injEq] at h
      obtain ⟨hlength, hfound⟩ := ih hrest
      rw [← h, List.length_cons, List.length_cons, hlength, List.forall_mem_cons]
      exact ⟨rfl, ⟨a, hb⟩, hfound⟩

namespace TestData

theorem load_concat (objects : List (Record φ)) (r : Record φ) :
    load (objects ++ [r]) = (load objects).store r :=
  List.foldl_concat store empty r objects

theorem storedObjects_load (objects : List (Record φ)) :
    (load objects).storedObjects = objects := by
  induction objects using List.reverseRecOn with
  | nil => rfl
  | append_singleton objects r ih =>
      rw [load_concat]
      show (load objects).storedObjects ++ [r] = objects ++ [r]
      rw [ih]

theorem mem_of_object {t : TestData φ} {id : PyStr} {r : Record φ} (h : t.object id = some r) :
    r ∈ t.storedObjects := by
  obtain ⟨i, _, hr⟩ := Option.bind_eq_some_iff.mp h
  exact List.mem_of_getElem? hr

/-- An object is found by its id, and the others are found as before. -/
theorem object_store (t : TestData φ) (r : Record φ) (id : PyStr) :
    (t.store r).object id = if id = r.id then some r else t.object id := by
  by_cases hid : id = r.id
  · have hindex : (t.store r).objectIndices id = some t.storedObjects.length := by
      show Function.update t.objectIndices r.id (some t.storedObjects.length) id = _
      rw [hid, Function.update_self]
    rw [if_pos hid, object, hindex]
    exact List.getElem?_concat_length
  · have hindex : (t.store r).objectIndices id = t.objectIndices id := by
      show Function.update t.objectIndices r.id (some t.storedObjects.length) id = _
      rw [Function.update_of_ne hid]
    rw [if_neg hid, object, object, hindex]
    cases hi : t.objectIndices id with
    | none => rfl
    | some i =>
        obtain ⟨r', hr', _⟩ := t.indexed hi
        show (t.storedObjects ++ [r])[i]? = t.storedObjects[i]?
        exact List.getElem?_append_left (List.getElem?_eq_some_iff.mp hr').1

/-- **What has been loaded is found by its id**, if no other object has it. -/
theorem object_load {objects : List (Record φ)} (hnodup : (objects.map Record.id).Nodup)
    {r : Record φ} (h : r ∈ objects) : (load objects).object r.id = some r := by
  induction objects using List.reverseRecOn with
  | nil => exact absurd h List.not_mem_nil
  | append_singleton objects last ih =>
      rw [load_concat, object_store]
      rw [List.map_append, List.nodup_append] at hnodup
      rcases List.mem_append.mp h with hold | hlast
      · have hne : r.id ≠ last.id :=
          hnodup.2.2 r.id (List.mem_map_of_mem hold) last.id List.mem_cons_self
        rw [if_neg hne]
        exact ih hnodup.1 hold
      · rw [List.mem_singleton.mp hlast, if_pos rfl]

/-- The objects agree with the documents that the client adds. -/
theorem agrees_load (fl : Floats φ) {objects : List (Record φ)}
    (hnodup : (objects.map Record.id).Nodup) :
    Agrees fl.numeral fl.round (load objects).vectors (objects.map (Record.toDoc fl)) := by
  intro p hp id v hid hv
  obtain ⟨r, hr, rfl⟩ := List.mem_map.mp hp
  have hname : id = r.id := by
    have hdecode := decodeUtf8_encodeUtf8 id
    rw [hid] at hdecode
    exact Option.some.inj (hdecode.symm.trans (decodeUtf8_encodeUtf8 r.id))
  rw [hname, vectors, object_load hnodup hr, Option.map_some, Option.some.injEq] at hv
  rw [← hv]
  show _ = (r.embedding.map fl.single).map some
  rw [List.map_map]
  exact List.map_congr_left (fun x _ => fl.rounds x)

/-- The slots of an answer are those of loaded objects, if every id that is asked for is
known. -/
theorem slots_of_filled {fl : Floats φ} {parse : Bytes → Option Json}
    {respond : Reply φ → DBClient.Response} {objects : List (Record φ)} {ids : List Bytes}
    {strings : List PyStr} {x : Vector Data ids.length}
    (hstrings : requested ids = some strings)
    (hknown : ∀ id ∈ strings, ((load objects).vectors id).isSome)
    (hsends : Sends parse fl.round fl.numeral respond (load objects).fetchIds ids)
    (h : DBClient.search parse (post (load objects).fetchIds respond) ids = .filled x) :
    ∀ y ∈ x.toList, y = {} ∨ ∃ r ∈ objects, y = r.toSlot fl := by
  obtain ⟨results, hresults, _⟩ := ((load objects).mapM_object strings).1 hknown
  have hhandled : (load objects).fetchIds strings = .queryResult results := by
    rw [fetchIds, hresults]
  obtain ⟨hcount, hfound⟩ := mapM_spec hresults
  have hlength : results.length = ids.length := by
    rw [hcount, (mapM_spec hstrings).1, List.length_map]
  obtain ⟨x', hx', hslots⟩ := search_sent hsends hstrings hhandled (by
    rw [List.length_map, hlength])
  rw [hx', DbAnswer.filled.injEq] at h
  intro y hy
  rw [← h, hslots, List.mem_append] at hy
  rcases hy with hy | hy
  · rw [List.map_map, List.mem_map] at hy
    obtain ⟨r, hr, rfl⟩ := hy
    obtain ⟨id, hid⟩ := hfound r hr
    refine Or.inr ⟨r, ?_, rfl⟩
    rw [← storedObjects_load objects]
    exact mem_of_object hid
  · exact Or.inl (List.mem_replicate.mp hy).2

end TestData

/-! ## The test -/

/-- What the client calls its methods with, and what the proxy has loaded. -/
structure Test (φ : Type) where
  d : Nat
  dbUrl : PyStr
  options : InitializeOptions
  trainingData : List (List F32)
  objects : List (Record φ)
  queries : List (List F32)
  k : Nat
  /-- The number of cells that are loaded, probed and evicted. -/
  nprobe : Nat

namespace Test

variable (fl : Floats φ) (t : Test φ)

/-- The number of cells that INITIALIZE asks for. -/
def nCells : Nat := Cache.determineNCells (t.options.nRecords.getD 250000)

/-- The documents that the client adds. -/
def docs : List Doc := t.objects.map (Record.toDoc fl)

/-- The calls before the rounds. -/
def setUp : List Call :=
  [.initializeCall t.d t.dbUrl t.options, .trainCall t.trainingData,
    .addCall (t.objects.map Record.id) (t.objects.map (fun r => r.embedding.map fl.single))]

/-- One round, and what its methods are to return. -/
def round (q : List F32) (answer : List (Record φ)) : List (Call × Except PyError Returned) :=
  [(.loadCall q (some t.nprobe), .ok (.bool true)),
    (.searchCall t.k [q] (some t.nprobe) none,
      .ok (.results [answer.map (Record.toPyRecord fl)])),
    (.evictCall q (some t.nprobe), .ok (.bool true))]

/-- The server, and the proxy at its address. -/
def environment {δ : Type} [LinearOrder δ] (faiss : FaissLibrary δ)
    (parse : Bytes → Option Json) (respond : Reply φ → DBClient.Response) : Environment δ where
  faiss := faiss
  parse := parse
  proxy := fun _ _ url body =>
    if url = latin1Bytes t.dbUrl then post (TestData.load t.objects).fetchIds respond body
    else ⟨0, []⟩
  determineNCells := Cache.determineNCells

/-- The arguments of the calls can be sent, and the objects stored. -/
structure Prepared : Prop where
  initializes : (Call.initializeCall t.d t.dbUrl t.options).Encodable
  trains : (Call.trainCall t.trainingData).Encodable
  adds : (Call.addCall (t.objects.map Record.id)
    (t.objects.map (fun r => r.embedding.map fl.single))).Encodable
  dbUrl : ∀ ch ∈ t.dbUrl, 0 < ch.toNat
  trainingData : ∀ v ∈ t.trainingData, v.length = t.d
  objects : ∀ r ∈ t.objects, r.Storable fl t.d
  distinct : (t.objects.map Record.id).Nodup
  queries : ∀ q ∈ t.queries, q.length = t.d
  d_pos : t.d ≠ 0
  k_pos : t.k ≠ 0
  k_lt : t.k < 2 ^ 31
  nprobe_pos : t.nprobe ≠ 0
  nprobe_lt : t.nprobe < 2 ^ 64

/-- FAISS makes the index and trains it, and ranks as many cells as are asked for. -/
structure Trains {δ : Type} [LinearOrder δ] (faiss : FaissLibrary δ) (index : Index t.nCells δ) :
    Prop where
  trained : ∃ index₀, faiss.construct t.nCells t.d
      (choosesFlat t.d (t.options.useFlat.getD false)) = .ok index₀ ∧
    index₀.isTrained = false ∧
    faiss.train index₀ t.trainingData.length t.trainingData.flatten = .ok index
  objects : ∀ p ∈ t.docs fl, index.faiss.nearest p.2 ≠ none
  queries : ∀ q ∈ t.queries, t.nprobe ≤ (index.faiss.ranked q).length

/-- The core that has been trained, without a document. -/
def core {δ : Type} [LinearOrder δ] (index : Index t.nCells δ) : CoreObject δ where
  nCells := t.nCells
  d := t.d
  dbUrl := latin1Bytes t.dbUrl ++ [0]
  index := index
  tables := (Core.unused index.faiss 1).train index.faiss

/-- The arguments of INITIALIZE, as they are decoded. -/
def initializeArgs : InitializeArgs where
  d := t.d
  maxMem := t.options.maxMem.getD 1024
  nTotal := t.options.nRecords.getD 250000
  useFlat := t.options.useFlat.getD false
  size := t.dbUrl.length
  dbUrl := latin1Bytes t.dbUrl ++ [0]

section Runs

variable {fl t} {δ : Type} [LinearOrder δ] {faiss : FaissLibrary δ}
  {parse : Bytes → Option Json} {respond : Reply φ → DBClient.Response} {index : Index t.nCells δ}

theorem Trains.dimension (h : t.Trains fl faiss index) : index.faiss.d = t.d := by
  obtain ⟨index₀, hconstruct, _, htrain⟩ := h.trained
  rw [faiss.train_d htrain, faiss.construct_d hconstruct]

theorem Trains.isTrained (h : t.Trains fl faiss index) : index.isTrained = true := by
  obtain ⟨index₀, _, _, htrain⟩ := h.trained
  exact faiss.train_isTrained htrain

theorem Prepared.rows (hp : t.Prepared fl) :
    t.trainingData.flatten.length = t.trainingData.length * t.d := by
  have hrows : t.trainingData.map List.length = List.replicate t.trainingData.length t.d :=
    List.eq_replicate_iff.mpr ⟨List.length_map _, by simpa using hp.trainingData⟩
  rw [List.length_flatten, hrows, List.sum_replicate_nat]

/-- INITIALIZE and TRAIN lead to the trained core. -/
theorem dialogue_trained (hp : t.Prepared fl) (ht : t.Trains fl faiss index) :
    Dialogue (t.environment faiss parse respond) Cache.new
      [(.initializeCall t.d t.dbUrl t.options, .ok (.bool true)),
        (.trainCall t.trainingData, .ok (.bool true))]
      (serving (t.core index) (t.core index).tables 2) := by
  obtain ⟨index₀, hconstruct, huntrained, htrain⟩ := ht.trained
  have hinitialize : Cache.step (t.environment faiss parse respond) Cache.new
      (.initializeArgs t.initializeArgs) = .ok
        { status := .INITIALIZED, core := some (Cache.initialized t.initializeArgs index₀),
          time := 1 } :=
    Cache.step_initialize_eq_ok.mpr ⟨index₀, hconstruct, rfl⟩
  refine .cons (.of_acknowledged trivial hp.initializes rfl hinitialize nofun nofun) ?_
  have hsize : 4 * t.trainingData.flatten.length / 4 / t.d = t.trainingData.length := by
    rw [Nat.mul_div_cancel_left _ (by decide), hp.rows,
      Nat.mul_div_cancel _ (Nat.pos_of_ne_zero hp.d_pos)]
  have hcore : (Cache.initialized t.initializeArgs index₀).train faiss
      (4 * t.trainingData.flatten.length / 4 / t.d) t.trainingData.flatten =
        .ok (t.core index) := by
    rw [Cache.train_of_untrained faiss huntrained, hsize]
    show faiss.train index₀ _ _ >>= _ = _
    rw [htrain]
    rfl
  have htrained : Cache.step (t.environment faiss parse respond)
      { status := .INITIALIZED, core := some (Cache.initialized t.initializeArgs index₀),
        time := 1 }
      (.trainArgs { size := 4 * t.trainingData.flatten.length,
                    trainingData := t.trainingData.flatten }) =
        .ok (serving (t.core index) (t.core index).tables 2) :=
    (Cache.step_train_eq_ok rfl).mpr ⟨hp.d_pos, t.core index, hcore, ht.isTrained, rfl⟩
  exact .cons (.of_acknowledged ⟨t.d, hp.trainingData⟩ hp.trains rfl htrained nofun nofun) (.nil _)

/-- What is added are the documents. -/
theorem registeredBy_docs {nCells : Nat} {F : Faiss nCells δ} {docs : List Doc}
    (hvalid : ∀ p ∈ docs, Core.ValidDoc F p) :
    Core.registeredBy F (.add docs.length (docs.map (fun p => p.1 ++ [0]))
      (docs.flatMap Prod.snd)) = docs := by
  have hrows : (List.range docs.length).map (F.query (docs.flatMap Prod.snd)) =
      docs.map Prod.snd := rows_flatMap (fun p hp => (hvalid p hp).dimension)
  rw [Core.registeredBy, hrows, List.zipWith_map, List.zipWith_self]
  conv_rhs => rw [← List.map_id docs]
  apply List.map_congr_left
  intro p hp
  have hstring : cString 0 (p.1 ++ [0]) = some p.1 := cString_append (hvalid p hp).noNul []
  rw [Core.docOfArgs, hstring]
  rfl

theorem Prepared.validDoc (hp : t.Prepared fl) (ht : t.Trains fl faiss index) :
    ∀ p ∈ t.docs fl, Core.ValidDoc index.faiss p := by
  intro p hmem
  obtain ⟨r, hr, rfl⟩ := List.mem_map.mp hmem
  have hstorable := hp.objects r hr
  refine ⟨?_, zero_not_mem_utf8.mpr (fun ch hch => (hstorable.id ch hch).1), ?_⟩
  · show (encodeUtf8 r.id).length < 100
    rw [Core.encodeUtf8_ascii hstorable.id, latin1Bytes_length]
    exact hstorable.short
  · show (r.embedding.map fl.single).length = index.faiss.d
    rw [List.length_map, hstorable.embedding, ht.dimension]

/-- The ids of the documents are those of the objects, and there are no two of the same. -/
theorem Prepared.docs_nodup (hp : t.Prepared fl) : ((t.docs fl).map Prod.fst).Nodup := by
  have hids : (t.docs fl).map Prod.fst = (t.objects.map Record.id).map encodeUtf8 := by
    rw [docs, List.map_map, List.map_map]
    rfl
  rw [hids]
  apply List.Nodup.map _ hp.distinct
  intro a b hab
  have hdecode := decodeUtf8_encodeUtf8 a
  rw [hab, decodeUtf8_encodeUtf8 b] at hdecode
  exact (Option.some.inj hdecode).symm

/-- **The set-up of the test**: the three methods return `True`, and everything is
registered. -/
theorem dialogue_setUp (hp : t.Prepared fl) (ht : t.Trains fl faiss index) :
    ∃ (s : Core t.nCells) (ops : List (Op t.nCells)),
      Dialogue (t.environment faiss parse respond) Cache.new
        ((t.setUp fl).map (fun call => (call, .ok (.bool true)))) (serving (t.core index) s 3) ∧
      Core.Reaches index.faiss ops s ∧ Core.registered index.faiss ops = t.docs fl ∧
      s.Cold ∧ ∀ c, s.idsByCell c =
        (bucket (fun p => index.faiss.nearest p.2) c (t.docs fl)).map Prod.fst := by
  have hvalid := hp.validDoc ht
  have hlength : (t.docs fl).length = t.objects.length := List.length_map _
  have hsize := hp.adds.2.2.2
  have hfit : (t.core index).tables.nextId + (t.docs fl).length < 2 ^ 63 := by
    have hids := length_mul_le_idsSize ((t.objects.map Record.id).map latin1Bytes)
    rw [List.length_map, List.length_map] at hids
    show 0 + (t.docs fl).length < 2 ^ 63
    omega
  -- the arguments of ADD are those of the documents
  have hids : (t.docs fl).map (fun p => p.1 ++ [0]) =
      (t.objects.map Record.id).map (fun id => latin1Bytes id ++ [0]) := by
    rw [docs, List.map_map, List.map_map]
    apply List.map_congr_left
    intro r hr
    show encodeUtf8 r.id ++ [0] = latin1Bytes r.id ++ [0]
    rw [Core.encodeUtf8_ascii (hp.objects r hr).id]
  have hembeddings : (t.docs fl).flatMap Prod.snd =
      (t.objects.map (fun r => r.embedding.map fl.single)).flatten := by
    rw [docs, List.flatMap_map, List.flatMap_def]
    rfl
  have hadd := (Core.addDocs_eq_ok hvalid hfit).mpr ⟨ht.objects, rfl⟩
  have hreach : Core.Reaches index.faiss ([.search 0 [] 1 1 false []] ++
      [.add (t.docs fl).length ((t.docs fl).map (fun p => p.1 ++ [0]))
        ((t.docs fl).flatMap Prod.snd)])
      (Core.added index.faiss (t.docs fl) (t.core index).tables) :=
    run_concat.mpr ⟨_, Core.reaches_trained index.faiss one_ne_zero, hadd⟩
  refine ⟨_, _, ?_, hreach, ?_, fun c => rfl, fun c => List.nil_append _⟩
  · apply (dialogue_trained hp ht).append
    refine .cons (exchange_add ⟨t.d, ?_⟩ hp.adds ?_) (.nil _)
    · rw [List.forall_mem_map]
      intro r hr
      rw [List.length_map, (hp.objects r hr).embedding]
    · rw [← hids, ← hembeddings, List.length_map, ← hlength]
      exact hadd
  · rw [Core.registered_concat, registeredBy_docs hvalid]
    rfl

/-! ## The rounds -/

/-- The slots of an answer are those of objects, and the objects are the answer. -/
theorem objects_of_slots {d : Nat} {ys : List Data} {answer : List Doc}
    (hobjects : ∀ r ∈ t.objects, r.Storable fl d)
    (hslots : ∀ y ∈ ys, y = {} ∨ ∃ r ∈ t.objects, y = r.toSlot fl)
    (hrep : List.Forall₂ (Core.Represents d) ys answer) :
    ∃ rs : List (Record φ), (∀ r ∈ rs, r ∈ t.objects) ∧ ys = rs.map (Record.toSlot fl) ∧
      answer = rs.map (Record.toDoc fl) := by
  induction hrep with
  | nil => exact ⟨[], by simp, rfl, rfl⟩
  | @cons y p ys answer hy hrest ih =>
      rw [List.forall_mem_cons] at hslots
      obtain ⟨rs, hrs, hys, hanswer⟩ := ih hslots.2
      rcases hslots.1 with hempty | ⟨r, hr, hslot⟩
      · have hid := hy.id
        rw [hempty] at hid
        exact absurd hid (by simp [Data.idString])
      · have hrecord : Core.Represents d (r.toSlot fl) (r.toDoc fl) := by
          apply Record.represents _ _ rfl _ fl.pointed
          · exact zero_not_mem_utf8.mpr (fun ch hch => ((hobjects r hr).id ch hch).1)
          · show (r.embedding.map fl.single).length = d
            rw [List.length_map, (hobjects r hr).embedding]
          · show _ = (r.embedding.map fl.single).map some
            rw [List.map_map]
            exact List.map_congr_left (fun x _ => fl.rounds x)
        refine ⟨r :: rs, List.forall_mem_cons.mpr ⟨hr, hrs⟩, ?_, ?_⟩
        · rw [hslot, hys, List.map_cons]
        · rw [List.map_cons, ← hanswer, hrecord.unique (hslot ▸ hy)]

/-- Every slot holds a record of texts. -/
theorem exists_holdAll {d : Nat} {ys : List Data} (hobjects : ∀ r ∈ t.objects, r.Storable fl d)
    (hslots : ∀ y ∈ ys, y = {} ∨ ∃ r ∈ t.objects, y = r.toSlot fl) : ∃ ps, HoldAll ys ps := by
  induction ys with
  | nil => exact ⟨[], .nil⟩
  | cons y ys ih =>
      rw [List.forall_mem_cons] at hslots
      obtain ⟨ps, hps⟩ := ih hslots.2
      rcases hslots.1 with hempty | ⟨r, hr, hslot⟩
      · have hheld : y.Holds (PyRecord.toRecord ⟨[], [], [], []⟩) := by
          rw [hempty]
          exact ⟨rfl, rfl, rfl, rfl, rfl, rfl, rfl, rfl, by decide⟩
        exact ⟨_, .cons hheld hps⟩
      · have hheld : y.Holds (r.toPyRecord fl).toRecord := by
          rw [hslot]
          exact Record.slot_holds (hobjects r hr)
        exact ⟨_, .cons hheld hps⟩

/-- A vector can be sent. -/
theorem Prepared.vector (hp : t.Prepared fl) {q : List F32} (hq : q ∈ t.queries) :
    4 * q.length < 2 ^ 64 := by
  obtain ⟨hne, hsize⟩ := hp.trains
  have hpos : 1 ≤ t.trainingData.length := List.length_pos_iff.mpr hne
  have hle : 1 * t.d ≤ t.trainingData.length * t.d := Nat.mul_le_mul_right t.d hpos
  rw [hp.rows] at hsize
  rw [hp.queries q hq]
  omega

/-- The requests go to the proxy. -/
theorem database_core (hp : t.Prepared fl) (time : Nat) :
    (t.core index).database (t.environment faiss parse respond) time =
      database parse (TestData.load t.objects).fetchIds respond t.nCells := by
  have hlatin : Latin1 t.dbUrl := hp.initializes.2.2.2.2
  have hurl : cChars (latin1Bytes t.dbUrl ++ [0]) = latin1Bytes t.dbUrl := by
    rw [cChars_append_zero]
    exact ProxyRecord.cChars_eq_self.mpr ((Core.zero_not_mem_latin1Bytes hlatin).mpr hp.dbUrl)
  funext c ids
  show DBClient.search parse (fun body =>
    if cChars (latin1Bytes t.dbUrl ++ [0]) = latin1Bytes t.dbUrl then
      post (TestData.load t.objects).fetchIds respond body
    else ⟨0, []⟩) ids = _
  simp only [if_pos hurl]
  rfl

/-- What comes back for a query are objects, and no others are nearer. -/
structure Answered (fl : Floats φ) (t : Test φ) (index : Index t.nCells δ) (q : List F32)
    (answer : List (Record φ)) : Prop where
  objects : ∀ r ∈ answer, r ∈ t.objects
  nearest : Core.Nearest index.faiss (t.docs fl) q t.k t.nprobe
    (answer.map (Record.toDoc fl))

/-- **One round of the test**, from an empty cache to an empty cache. -/
theorem dialogue_round (hp : t.Prepared fl) (ht : t.Trains fl faiss index) {q : List F32}
    (hq : q ∈ t.queries) {s : Core t.nCells} {ops : List (Op t.nCells)} (time : Nat)
    (hdocs : Core.registered index.faiss ops = t.docs fl) (hholds : Core.Holds index.faiss ops s)
    (hcold : s.Cold)
    (hwhole : ∀ c, Core.Whole index.faiss (Core.registered index.faiss ops)
      (database parse (TestData.load t.objects).fetchIds respond t.nCells) s c)
    (hslots : ∀ c x, DBClient.search parse (post (TestData.load t.objects).fetchIds respond)
      (s.idsByCell c) = .filled x → ∀ y ∈ x.toList, y = {} ∨ ∃ r ∈ t.objects, y = r.toSlot fl) :
    ∃ s' answer, t.Answered fl index q answer ∧
      Dialogue (t.environment faiss parse respond) (serving (t.core index) s time)
        (t.round fl q answer) (serving (t.core index) s' (time + 3)) ∧
      Core.Holds index.faiss ops s' ∧ s'.Cold ∧ s'.idsByCell = s.idsByCell := by
  have hids : Core.DistinctIds index.faiss ops := by
    unfold Core.DistinctIds
    rw [hdocs]
    exact hp.docs_nodup
  have hdimension := ht.dimension
  have hlength : q.length = index.faiss.d := by rw [hdimension, hp.queries q hq]
  obtain ⟨s₁, s₂, s₃, data, answer, hload, hsearch, hnearest, hrep, hbrought, hevict, hholds',
    hcold', hcells⟩ := Core.round_correct hids hholds hcold hwhole
      hslots hlength hp.k_pos hp.nprobe_pos
      (ht.queries q hq)
  have hslots' : ∀ y ∈ data, y = {} ∨ ∃ r ∈ t.objects, y = r.toSlot fl := by
    intro y hy
    exact (hbrought y hy).elim Or.inl id
  rw [hdocs] at hnearest
  -- the slots that are counted are those of objects, the others hold records of texts too
  rw [hdimension] at hrep
  obtain ⟨rs, hrs, htaken, hanswer⟩ := objects_of_slots hp.objects
    (fun y hy => hslots' y (List.mem_of_mem_take hy)) hrep
  obtain ⟨others, hothers⟩ := exists_holdAll hp.objects
    (fun y hy => hslots' y (List.mem_of_mem_drop hy) : ∀ y ∈ data.drop answer.length, _)
  have hcount : answer.length = rs.length := by rw [hanswer, List.length_map]
  have htexts : HoldAll data (rs.map (Record.toPyRecord fl) ++ others) := by
    have hfirst : HoldAll (rs.map (Record.toSlot fl)) (rs.map (Record.toPyRecord fl)) := by
      unfold HoldAll
      rw [List.forall₂_map_left_iff, List.forall₂_map_right_iff, List.forall₂_same]
      exact fun r hr => Record.slot_holds (hp.objects r (hrs r hr))
    rw [← List.take_append_drop answer.length data, htaken]
    exact List.rel_append hfirst hothers
  have hle : rs.length ≤ t.k := by
    rw [← hcount, hnearest.length]
    exact Nat.min_le_left _ _
  have hkLt := hp.k_lt
  have hcounted : (Call.loadCall q (some t.nprobe)).Encodable := ⟨hp.nprobe_lt, hp.vector hq⟩
  have hsent : (Call.searchCall t.k [q] (some t.nprobe) none).Encodable := by
    refine ⟨?_, ?_, hp.nprobe_lt, ?_⟩
    · show 1 < 2 ^ 64
      decide
    · omega
    · rw [List.flatten_singleton]
      exact hp.vector hq
  have hloaded : Exchange (t.environment faiss parse respond) (serving (t.core index) s time)
      (.loadCall q (some t.nprobe)) (.ok (.bool true))
      (serving (t.core index) s₁ (time + 1)) := by
    apply exchange_load hcounted
    rw [database_core hp]
    exact hload
  have hsearched : Exchange (t.environment faiss parse respond)
      (serving (t.core index) s₁ (time + 1)) (.searchCall t.k [q] (some t.nprobe) none)
      (.ok (.results ((List.range [q].length).map (fun i =>
        ((rs.map (Record.toPyRecord fl) ++ others).drop (i * t.k)).take
          (([(answer.length : Int)].getD i 0).toNat)))))
      (serving (t.core index) s₂ (time + 2)) := by
    apply exchange_search ⟨q.length, by simp⟩ hsent _ htexts
    · intro h hmem
      rw [List.mem_singleton.mp hmem, hcount]
      omega
    · show s₁.search index.faiss 1 (q ++ []) t.k t.nprobe true (List.replicate (1 * t.k) {}) = _
      rw [List.append_nil, Nat.one_mul]
      exact hsearch
  have hresults : (List.range [q].length).map (fun i =>
      ((rs.map (Record.toPyRecord fl) ++ others).drop (i * t.k)).take
        (([(answer.length : Int)].getD i 0).toNat)) = [rs.map (Record.toPyRecord fl)] := by
    show [((rs.map (Record.toPyRecord fl) ++ others).drop (0 * t.k)).take answer.length] = _
    rw [Nat.zero_mul, List.drop_zero, hcount, List.take_left' (List.length_map _)]
  rw [hresults] at hsearched
  have hevicted : Exchange (t.environment faiss parse respond)
      (serving (t.core index) s₂ (time + 2)) (.evictCall q (some t.nprobe)) (.ok (.bool true))
      (serving (t.core index) s₃ (time + 3)) :=
    exchange_evict hcounted hevict
  exact ⟨s₃, rs, ⟨hrs, hanswer ▸ hnearest⟩,
    .cons hloaded (.cons hsearched (.cons hevicted (.nil _))), hholds', hcold', hcells⟩

/-- The rounds one after the other. -/
theorem dialogue_rounds (hp : t.Prepared fl) (ht : t.Trains fl faiss index)
    {qs : List (List F32)} (hqs : ∀ q ∈ qs, q ∈ t.queries) {s : Core t.nCells}
    {ops : List (Op t.nCells)} {time : Nat}
    (hdocs : Core.registered index.faiss ops = t.docs fl) (hholds : Core.Holds index.faiss ops s)
    (hcold : s.Cold)
    (hwhole : ∀ c, Core.Whole index.faiss (Core.registered index.faiss ops)
      (database parse (TestData.load t.objects).fetchIds respond t.nCells) s c)
    (hslots : ∀ c x, DBClient.search parse (post (TestData.load t.objects).fetchIds respond)
      (s.idsByCell c) = .filled x → ∀ y ∈ x.toList, y = {} ∨ ∃ r ∈ t.objects, y = r.toSlot fl) :
    ∃ answers c', List.Forall₂ (t.Answered fl index) qs answers ∧
      Dialogue (t.environment faiss parse respond) (serving (t.core index) s time)
        (List.zipWith (t.round fl) qs answers).flatten c' := by
  induction qs generalizing s time with
  | nil => exact ⟨[], _, .nil, .nil _⟩
  | cons q qs ih =>
      rw [List.forall_mem_cons] at hqs
      obtain ⟨s', answer, hanswer, hround, hholds', hcold', hcells⟩ :=
        dialogue_round hp ht hqs.1 time hdocs hholds hcold hwhole hslots
      unfold Core.Whole at hwhole ih
      rw [← hcells] at hwhole hslots
      obtain ⟨answers, c', hanswers, hrounds⟩ := ih hqs.2 hholds' hcold' hwhole hslots
      refine ⟨answer :: answers, c', .cons hanswer hanswers, ?_⟩
      rw [List.zipWith_cons_cons, List.flatten_cons]
      exact hround.append hrounds

end Runs

/-! ### One object -/

/-- The float `0.9`. -/
def nineFloats : Floats Unit where
  numeral := nineNumeral
  round := nineRound
  single := fun _ => 0x3F666666
  pointed := not_storedAsInteger_nineNumeral
  rounds := fun _ => rfl

/-- Two rounds with one object, each with an empty cell behind that of the object. -/
def oneTest : Test Unit where
  d := 1
  dbUrl := ['u']
  options := { nRecords := some 1 }
  trainingData := [[1], [2], [3], [4]]
  objects := [oneRecord]
  queries := [[0x3F666666], [5]]
  k := 5
  nprobe := 2

/-- A parser that reads the texts of an empty answer and of this object. -/
def oneTestParse (text : Bytes) : Option Json :=
  if text = resultsText [] then some (.object [(ascii "results", .array [])])
  else oneParse text

def oneIndex : Index oneTest.nCells Nat where
  faiss := Faiss.discrete oneTest.nCells 1
  isTrained := true

theorem nCells_oneTest : oneTest.nCells = 4 :=
  Cache.determineNCells_square (m := 1) (by norm_num)

theorem plain_of_all {text : PyStr} (h : text.all (fun ch => decide (0 < ch.toNat)) = true) :
    ∀ ch ∈ text, 0 < ch.toNat :=
  fun ch hch => of_decide_eq_true (List.all_eq_true.mp h ch hch)

theorem prepared_oneTest : oneTest.Prepared nineFloats where
  initializes := by
    unfold Call.Encodable
    decide
  trains := by
    unfold Call.Encodable
    decide
  adds := by
    refine ⟨rfl, by simp [oneTest], ?_, by decide⟩
    intro id hid
    rw [List.mem_singleton.mp hid]
    decide
  dbUrl := plain_of_all (by decide)
  trainingData := by decide
  objects := by
    intro r hr
    rw [List.mem_singleton.mp hr]
    refine ⟨?_, by decide, rfl, plain_of_all (by decide), plain_of_all (by decide), by decide⟩
    intro ch hch
    rw [List.mem_singleton.mp hch]
    decide
  distinct := by decide
  queries := by decide
  d_pos := by decide
  k_pos := by decide
  k_lt := by decide
  nprobe_pos := by decide
  nprobe_lt := by decide

theorem trains_oneTest : oneTest.Trains nineFloats FaissLibrary.strict oneIndex where
  trained := by
    have hcount : oneTest.nCells ≠ 0 := by
      rw [nCells_oneTest]
      decide
    refine ⟨_, rfl, decide_eq_false hcount,
      FaissLibrary.strictTrain_eq_ok (x := oneTest.trainingData.flatten).mpr ⟨⟨?_, ?_⟩, rfl⟩⟩
    · exact Nat.le_of_eq nCells_oneTest
    · exact Or.inl ((FaissLibrary.emptyIndex_distance _ _ true).mpr rfl)
  objects := by
    intro p _ hnone
    have hcells : List.finRange oneTest.nCells = [] := List.head?_eq_none_iff.mp hnone
    have hlength := congrArg List.length hcells
    rw [List.length_finRange, nCells_oneTest] at hlength
    exact absurd hlength (by decide)
  queries := by
    intro q _
    show 2 ≤ (List.finRange oneTest.nCells).length
    rw [List.length_finRange, nCells_oneTest]
    omega

theorem oneTestParse_of_oneParse {text : Bytes} {json : Json} (h : oneParse text = some json) :
    oneTestParse text = some json := by
  have hother : resultsText [] ≠ resultsText [oneRecord] := by
    intro heq
    exact absurd (congrArg List.length heq) (by decide)
  have hne : text ≠ resultsText [] := by
    intro heq
    rw [heq, oneParse, if_neg hother] at h
    exact absurd h (by simp)
  rw [oneTestParse, if_neg hne, h]

/-- The answers to the requests for the cell of the object, and for an empty one. -/
theorem sends_oneTest (c : Fin oneTest.nCells) : Sends oneTestParse nineRound nineNumeral
    oneRespond (TestData.load oneTest.objects).fetchIds
    ((bucket (fun p => oneIndex.faiss.nearest p.2) c (oneTest.docs nineFloats)).map Prod.fst) := by
  have hdocs : oneTest.docs nineFloats = [([97], [0x3F666666])] := rfl
  rw [hdocs]
  unfold bucket
  by_cases hcell : oneIndex.faiss.nearest [0x3F666666] = some c
  · rw [List.filter_cons_of_pos (by simpa using hcell), List.filter_nil]
    intro strings results hstrings hhandled
    have hknown : (TestData.load oneTest.objects).fetchIds [['a']] =
        .queryResult [oneRecord] := rfl
    obtain ⟨hcode, ⟨top, items, hparse, hresults, hitems⟩, hrange⟩ :=
      sends_oneRecord hknown strings results hstrings hhandled
    exact ⟨hcode, ⟨top, items, oneTestParse_of_oneParse hparse, hresults, hitems⟩, hrange⟩
  · rw [List.filter_cons_of_neg (by simpa using hcell), List.filter_nil]
    intro strings results hstrings hhandled
    have hnone : strings = [] := Option.some.inj hstrings.symm
    rw [hnone] at hhandled
    have hempty : results = [] := (Handled.queryResult.inj hhandled).symm
    rw [hempty]
    refine ⟨rfl, ⟨[(ascii "results", .array [])], [], ?_, rfl, .nil⟩, by simp⟩
    have hnul : 0 ∉ resultsText [] := by decide
    show oneTestParse (cChars (resultsText [])) = _
    rw [ProxyRecord.cChars_eq_self.mpr hnul]
    exact if_pos rfl

end Test

variable {δ : Type} [LinearOrder δ]

/-- **The end-to-end test passes.**  INITIALIZE, TRAIN and ADD return `True`; in every round
LOAD and EVICT return `True`, and SEARCH returns the objects that an index over all of them
finds for the query with the same number of probes, with their texts and their embeddings. -/
theorem end_to_end (fl : Floats φ) (t : Test φ) (faiss : FaissLibrary δ)
    (index : Index t.nCells δ) (parse : Bytes → Option Json) (respond : Reply φ → DBClient.Response)
    (hprepared : t.Prepared fl) (htrains : t.Trains fl faiss index)
    (hsends : ∀ c, Sends parse fl.round fl.numeral respond (TestData.load t.objects).fetchIds
      ((bucket (fun p => index.faiss.nearest p.2) c (t.docs fl)).map Prod.fst)) :
    ∃ answers c', List.Forall₂ (t.Answered fl index) t.queries answers ∧
      Dialogue (t.environment faiss parse respond) Cache.new
        ((t.setUp fl).map (fun call => (call, .ok (.bool true))) ++
          (List.zipWith (t.round fl) t.queries answers).flatten) c' := by
  obtain ⟨s, ops, hsetUp, hreach, hdocs, hcold, hcells⟩ := Test.dialogue_setUp hprepared htrains
  have hids : Core.DistinctIds index.faiss ops := by
    unfold Core.DistinctIds
    rw [hdocs]
    exact hprepared.docs_nodup
  have hagrees : Agrees fl.numeral fl.round (TestData.load t.objects).vectors
      (Core.registered index.faiss ops) := by
    rw [hdocs]
    exact TestData.agrees_load fl hprepared.distinct
  have hknown : ∀ p ∈ Core.registered index.faiss ops, ∃ id, encodeUtf8 id = p.1 ∧
      ((TestData.load t.objects).vectors id).isSome := by
    intro p hp
    rw [hdocs] at hp
    obtain ⟨r, hr, rfl⟩ := List.mem_map.mp hp
    refine ⟨r.id, rfl, ?_⟩
    rw [TestData.vectors, TestData.object_load hprepared.distinct hr]
    rfl
  have hsent : ∀ c, Sends parse fl.round fl.numeral respond (TestData.load t.objects).fetchIds
      (s.idsByCell c) := by
    intro c
    rw [hcells c]
    exact hsends c
  have hslots : ∀ c x, DBClient.search parse (post (TestData.load t.objects).fetchIds respond)
      (s.idsByCell c) = .filled x →
        ∀ y ∈ x.toList, y = {} ∨ ∃ r ∈ t.objects, y = r.toSlot fl := by
    intro c x hx
    obtain ⟨strings, hstrings, hall⟩ := requested_of_known _ hreach hids hknown c
    exact TestData.slots_of_filled hstrings hall (hsent c) hx
  have hholds := Core.holds_of_cold (Core.storeInv_of_reaches hreach)
    (Core.registryInv_of_reaches hreach) hcold
  obtain ⟨answers, c', hanswers, hrounds⟩ := Test.dialogue_rounds hprepared htrains
    (fun q hq => hq) hdocs hholds hcold
    (whole_of_known _ hreach hids hagrees fl.pointed hknown hsent) hslots
  exact ⟨answers, c', hanswers, hsetUp.append hrounds⟩

/-- Two rounds with one object. -/
theorem end_to_end_oneTest :
    ∃ answers c', List.Forall₂ (Test.oneTest.Answered Test.nineFloats Test.oneIndex)
        [[0x3F666666], [5]] answers ∧
      Dialogue (Test.oneTest.environment FaissLibrary.strict Test.oneTestParse oneRespond)
        Cache.new ((Test.oneTest.setUp Test.nineFloats).map (fun call => (call, .ok (.bool true))) ++
          (List.zipWith (Test.oneTest.round Test.nineFloats) [[0x3F666666], [5]] answers).flatten)
        c' :=
  end_to_end Test.nineFloats Test.oneTest FaissLibrary.strict Test.oneIndex Test.oneTestParse
    oneRespond Test.prepared_oneTest Test.trains_oneTest Test.sends_oneTest

end Periplus.Ports.Proxy
