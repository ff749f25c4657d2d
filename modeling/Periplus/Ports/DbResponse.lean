import Periplus.Ports.CoreRegistry
import Periplus.Ports.DbClient

/-!
# A response of the proxy, from its bytes to the inverted list

`DBClient::search` decodes a response into as many slots as it has results, and
`Core::loadCell` reads as many slots as there are ids.  Neither learns what the
other found, so a response that is not exactly as long as the request, or one of
whose results is not complete, ends in a failed assertion or in an access that
is out of bounds.

`Acceptable` is the exact set of responses that are handled, and `handled_iff`
the proof of it.  What is loaded from an acceptable response is described on the
response itself (`usableDoc`), not on the slots.
-/

namespace Periplus.Ports

open Periplus.Verified.Memory
open Periplus.Verified.Run

namespace Core

variable {nCells : Nat} {δ : Type} [LinearOrder δ]

open DBClient

/-! ## What a result says -/

/-- The vector of a result, when its embedding is exactly `d` `float`s. -/
def vecOf (d : Nat) (item : Json) : Option (List F32) :=
  (embeddingOf item).bind (fun vals => if vals.length = d then floats vals else none)

/-- The number under which the id of a result is registered. -/
def numOf (s : Core nCells) (item : Json) : Option Nat :=
  (idOf item).bind s.idMap

/-- The document of a result that belongs to the cell and is registered. -/
def usableDoc (F : Faiss nCells δ) (s : Core nCells) (c : Fin nCells) (item : Json) :
    Option Doc :=
  match vecOf F.d item, idOf item with
  | some v, some id =>
      if F.nearest v = some c ∧ (s.idMap id).isSome then some (id, v) else none
  | _, _ => none

/-- The number a result is entered under, when it belongs to the cell. -/
def usableNum (F : Faiss nCells δ) (s : Core nCells) (c : Fin nCells) (item : Json) :
    Option Nat :=
  match vecOf F.d item with
  | some v => if F.nearest v = some c then s.numOf item else none
  | none => none

/-- The results of a response; none when there is no such array. -/
def resultsOf : Option Json → List Json
  | some (.object ms) => (arrayMember ms (ascii "results")).getD []
  | _ => []

/-! ## Handled responses -/

/-- The response of the proxy to every request. -/
def respond (parse : Bytes → Option Json) (text : Bytes) : Database nCells :=
  fun _ => DBClient.search parse (fun _ => ⟨200, text⟩)

/-- The load of a cell comes back: with the usable results of the response entered
in the list of the cell, every slot that was read holding a vector of dimension
`d`, or with an error and the state as it was. -/
def Handled (F : Faiss nCells δ) (s : Core nCells) (c : Fin nCells)
    (parse : Bytes → Option Json) (text : Bytes) : Prop :=
  (∃ x s', DBClient.fillSlots (parse (cChars text))
      (List.replicate (s.idsByCell c).length {}) = .ok x ∧
    (∀ y ∈ x, y.embeddingLen = F.d) ∧
    loadCell F (respond parse text) c s = .ok (.returns s') ∧
    (s'.invlists c).map s'.docOf = (s.invlists c).map s.docOf ++
      (resultsOf (parse (cChars text))).filterMap (usableDoc F s c) ∧
    (∀ c', c' ≠ c → s'.invlists c' = s.invlists c')) ∨
  ∃ code, loadCell F (respond parse text) c s = .ok (.throwsHttp code s)

/-- A result that the loop of `loadCell` gets past. -/
def CompleteItem (F : Faiss nCells δ) (s : Core nCells) (c : Fin nCells) (item : Json) :
    Prop :=
  ∃ v, vecOf F.d item = some v ∧ (F.nearest v = some c → (s.numOf item).isSome)

/-- The responses that are handled: as many results as ids were requested, each
with an embedding of `d` `float`s and, if it belongs to the cell, a registered id
that is not stored yet and not repeated.  When no id was requested, a response
without results will do. -/
def Acceptable (F : Faiss nCells δ) (s : Core nCells) (c : Fin nCells) :
    Option Json → Prop
  | none => s.idsByCell c = []
  | some (.object ms) =>
      match arrayMember ms (ascii "results") with
      | none => s.idsByCell c = []
      | some items => items.length = (s.idsByCell c).length ∧
          (∀ item ∈ items, CompleteItem F s c item) ∧
          (items.filterMap (usableNum F s c)).Nodup ∧
          ∀ num ∈ items.filterMap (usableNum F s c), s.dataMap num = none
  | some .null => False
  | some (.bool _) => False
  | some (.number _) => False
  | some (.string _) => False
  | some (.array _) => False

/-! ## The verdict on a decoded result -/

section Verdict

variable {F : Faiss nCells δ} {s : Core nCells} {c : Fin nCells}

/-- The vector read from a slot of the right length is that of the result. -/
theorem Decoded.vecOf {item : Json} {x : Data} (h : Decoded item x)
    (hd : x.embeddingLen = F.d) {v : List F32} :
    x.readEmbedding F.d = .ok v ↔ Core.vecOf F.d item = some v := by
  obtain ⟨vals, hvals, hlen, _⟩ := h.vals
  rw [h.readEmbedding hd, Core.vecOf, hvals, Option.bind_some, Option.bind_some,
    if_pos (hlen.symm.trans hd)]

theorem embeddingLen_of_vecOf {item : Json} {x : Data} (h : Decoded item x)
    {v : List F32} (hv : Core.vecOf F.d item = some v) : x.embeddingLen = F.d := by
  obtain ⟨vals, hvals, hlen, _⟩ := h.vals
  rw [Core.vecOf, hvals, Option.bind_some] at hv
  split at hv
  · next hd => exact hlen.trans hd
  · exact absurd hv (by simp)

/-- The verdict on a slot exists exactly when its result is complete. -/
theorem verdict_of_decoded {item : Json} {x : Data} (h : Decoded item x)
    (hd : x.embeddingLen = F.d) :
    (∃ o, verdict F c s.idMap x = .ok o) ↔ CompleteItem F s c item := by
  constructor
  · rintro ⟨o, ho⟩
    cases o with
    | none =>
        obtain ⟨v, hv, hfar⟩ := verdict_eq_none.mp ho
        exact ⟨v, (Decoded.vecOf h hd).mp hv, fun hnear => absurd hnear hfar⟩
    | some e =>
        obtain ⟨hv, _, ⟨id, hid, hnum⟩, _⟩ := verdict_eq_some.mp ho
        refine ⟨e.vec, (Decoded.vecOf h hd).mp hv, fun _ => ?_⟩
        rw [numOf, h.idString.mp hid, Option.bind_some, hnum]
        rfl
  · rintro ⟨v, hv, hnum⟩
    have hread := (Decoded.vecOf h hd).mpr hv
    by_cases hnear : F.nearest v = some c
    · obtain ⟨num, hnum⟩ := Option.isSome_iff_exists.mp (hnum hnear)
      rw [numOf] at hnum
      obtain ⟨id, hid, hnum⟩ := Option.bind_eq_some_iff.mp hnum
      exact ⟨some ⟨num, v, x⟩, verdict_eq_some.mpr
        ⟨hread, hnear, ⟨id, h.idString.mpr hid, hnum⟩, rfl⟩⟩
    · exact ⟨_, verdict_eq_none.mpr ⟨v, hread, hnear⟩⟩

/-- The usable slots and the usable results are the same. -/
theorem accepted_of_decoded {items : List Json} {slots : List Data}
    (h : List.Forall₂ Decoded items slots) (hd : ∀ y ∈ slots, y.embeddingLen = F.d)
    (hall : ∀ item ∈ items, CompleteItem F s c item) :
    (accepted F c s.idMap slots).map Stored.num = items.filterMap (usableNum F s c) ∧
      (accepted F c s.idMap slots).map Stored.doc = items.filterMap (usableDoc F s c) := by
  induction h with
  | nil => exact ⟨rfl, rfl⟩
  | @cons item x items slots hx _ ih =>
      obtain ⟨hnums, hdocs⟩ := ih (fun y hy => hd y (List.mem_cons_of_mem x hy))
        (fun i hi => hall i (List.mem_cons_of_mem item hi))
      have hlen := hd x List.mem_cons_self
      obtain ⟨v, hv, hnum⟩ := hall item List.mem_cons_self
      have hread := (Decoded.vecOf hx hlen).mpr hv
      by_cases hnear : F.nearest v = some c
      · obtain ⟨num, hnum⟩ := Option.isSome_iff_exists.mp (hnum hnear)
        obtain ⟨id, hid, hreg⟩ := Option.bind_eq_some_iff.mp hnum
        have hverdict : verdict F c s.idMap x = .ok (some ⟨num, v, x⟩) :=
          verdict_eq_some.mpr ⟨hread, hnear, ⟨id, hx.idString.mpr hid, hreg⟩, rfl⟩
        have hnumItem : usableNum F s c item = some num := by
          simp only [usableNum, hv, if_pos hnear, hnum]
        have hdocItem : usableDoc F s c item = some (id, v) := by
          simp [usableDoc, hv, hid, hnear, hreg]
        have hdoc : Stored.doc ⟨num, v, x⟩ = (id, v) := by
          rw [Stored.doc, hx.idString.mpr hid]
          rfl
        rw [accepted_cons_some hverdict, List.map_cons, List.map_cons, hnums, hdocs,
          List.filterMap_cons_some hnumItem, List.filterMap_cons_some hdocItem, hdoc]
        exact ⟨rfl, rfl⟩
      · have hverdict : verdict F c s.idMap x = .ok none :=
          verdict_eq_none.mpr ⟨v, hread, hnear⟩
        have hnumItem : usableNum F s c item = none := by
          simp only [usableNum, hv, if_neg hnear]
        have hdocItem : usableDoc F s c item = none := by
          rw [usableDoc, hv]
          cases idOf item <;> simp [hnear]
        rw [accepted_cons_none hverdict, hnums, hdocs,
          List.filterMap_cons_none hnumItem, List.filterMap_cons_none hdocItem]
        exact ⟨rfl, rfl⟩

/-- The results that were decoded, with their slots. -/
theorem decoded_of_items {items : List Json} {slots : List Data}
    (h : List.Forall₂ (fun item slot => ∃ ms, item = .object ms ∧
      decodeItem ms {} = .ok slot) items slots) : List.Forall₂ Decoded items slots := by
  refine h.imp ?_
  rintro item slot ⟨ms, rfl, hslot⟩
  exact decodeItem_decoded hslot

/-- A complete result is decoded. -/
theorem items_of_complete {items : List Json}
    (hall : ∀ item ∈ items, CompleteItem F s c item) :
    ∃ slots, List.Forall₂ (fun item slot => ∃ ms, item = .object ms ∧
      decodeItem ms {} = .ok slot) items slots := by
  induction items with
  | nil => exact ⟨[], List.Forall₂.nil⟩
  | cons item items ih =>
      obtain ⟨slots, hslots⟩ := ih (fun i hi => hall i (List.mem_cons_of_mem item hi))
      obtain ⟨v, hv, _⟩ := hall item List.mem_cons_self
      obtain ⟨vals, hvals, _⟩ := Option.bind_eq_some_iff.mp hv
      cases item with
      | object ms =>
          exact ⟨_, List.Forall₂.cons ⟨ms, rfl, decodeItem_of_isSome hvals⟩ hslots⟩
      | null => exact absurd hvals (by simp [embeddingOf])
      | bool b => exact absurd hvals (by simp [embeddingOf])
      | number f => exact absurd hvals (by simp [embeddingOf])
      | string t => exact absurd hvals (by simp [embeddingOf])
      | array l => exact absurd hvals (by simp [embeddingOf])

end Verdict

/-! ## Loading from a response -/

/-- A load from a response with status code 200 comes back exactly when the
response fills the slots and the slots can be entered. -/
theorem loadCell_respond {F : Faiss nCells δ} {s : Core nCells} {c : Fin nCells}
    {parse : Bytes → Option Json} {text : Bytes} {exit : Exit (Core nCells)} :
    loadCell F (respond parse text) c s = .ok exit ↔
      ∃ x s', DBClient.fillSlots (parse (cChars text))
          (List.replicate (s.idsByCell c).length {}) = .ok x ∧
        Loaded F c x s s' ∧ exit = .returns s' := by
  cases hfill : DBClient.fillSlots (parse (cChars text))
      (List.replicate (s.idsByCell c).length {}) with
  | error f =>
      have hdb : respond parse text c (s.idsByCell c) = .fault f := search_of_error hfill
      simp only [loadCell, hdb, reduceCtorEq, false_and, exists_false]
  | ok x =>
      obtain ⟨y, hdb, hy⟩ := search_of_ok hfill
      have hdb' : respond parse text c (s.idsByCell c) = .filled y := hdb
      rw [loadCell_eq_ok]
      constructor
      · rintro (⟨code, hcode, _⟩ | ⟨z, s', hz, hload, rfl⟩)
        · rw [hdb'] at hcode
          exact absurd hcode (by simp)
        · rw [hdb', DbAnswer.filled.injEq] at hz
          subst hz
          exact ⟨x, s', rfl, hy ▸ hload, rfl⟩
      · rintro ⟨x', s', hx', hload, rfl⟩
        rw [Except.ok.injEq] at hx'
        subst hx'
        exact Or.inr ⟨y, s', hdb', hy.symm ▸ hload, rfl⟩

/-- An empty slot has no verdict. -/
theorem verdict_empty (F : Faiss nCells δ) (c : Fin nCells) (idMap : Bytes → Option Nat)
    (o : Option Stored) : verdict F c idMap {} ≠ .ok o := by
  intro h
  exact absurd h (by simp [verdict, Data.readEmbedding])

/-- When the slots stay as they were allocated, only an empty request survives. -/
theorem no_ids_of_fresh {F : Faiss nCells δ} {c : Fin nCells}
    {idMap : Bytes → Option Nat} {n : Nat}
    (h : ∀ x ∈ List.replicate n ({} : Data), ∃ o, verdict F c idMap x = .ok o) : n = 0 := by
  by_contra hn
  obtain ⟨o, ho⟩ := h {} (List.mem_replicate.mpr ⟨hn, rfl⟩)
  exact verdict_empty F c idMap o ho

/-- **The results of a response** fill the slots of a request and can be entered
exactly when they are acceptable. -/
theorem items_acceptable_iff {F : Faiss nCells δ} {s : Core nCells} {c : Fin nCells}
    {n : Nat} {items : List Json} :
    (∃ x, DBClient.fillItems items 0 (List.replicate n {}) = .ok x ∧
        (∀ y ∈ x, y.embeddingLen = F.d) ∧ ∃ s', Loaded F c x s s') ↔
      items.length = n ∧ (∀ item ∈ items, CompleteItem F s c item) ∧
        (items.filterMap (usableNum F s c)).Nodup ∧
        ∀ num ∈ items.filterMap (usableNum F s c), s.dataMap num = none := by
  have hfill : ∀ x, DBClient.fillItems items 0 (List.replicate n {}) = .ok x ↔ _ :=
    fun x => fillItems_eq_ok_iff items [] n x
  constructor
  · rintro ⟨x, hx, hd, s', hverdicts, hadmits, _⟩
    obtain ⟨hle, slots, hslots, rfl⟩ := (hfill x).mp hx
    rw [List.nil_append] at hd hverdicts hadmits
    -- a slot that was not filled would have no verdict
    have hrest : n - items.length = 0 := no_ids_of_fresh
      (fun y hy => hverdicts y (List.mem_append_right slots hy))
    rw [hrest, List.replicate_zero, List.append_nil] at hd hverdicts hadmits
    have hdecoded := decoded_of_items hslots
    have hall : ∀ item ∈ items, CompleteItem F s c item := by
      intro item hitem
      obtain ⟨i, hi, rfl⟩ := List.getElem_of_mem hitem
      obtain ⟨hlen, hget⟩ := List.forall₂_iff_get.mp hdecoded
      have hi' : i < slots.length := hlen ▸ hi
      have hdec := hget i hi hi'
      simp only [List.get_eq_getElem] at hdec
      have hmem := List.getElem_mem hi'
      exact (verdict_of_decoded hdec (hd _ hmem)).mp (hverdicts _ hmem)
    obtain ⟨hnums, _⟩ := accepted_of_decoded hdecoded hd hall
    refine ⟨by omega, hall, hnums ▸ hadmits.nodup, ?_⟩
    intro num hnum
    rw [← hnums] at hnum
    obtain ⟨e, he, rfl⟩ := List.mem_map.mp hnum
    exact hadmits.absent e he
  · rintro ⟨rfl, hall, hnodup, habsent⟩
    obtain ⟨slots, hslots⟩ := items_of_complete hall
    have hdecoded := decoded_of_items hslots
    have hmem : ∀ y ∈ slots, ∃ item ∈ items, Decoded item y := by
      intro y hy
      obtain ⟨i, hi, rfl⟩ := List.getElem_of_mem hy
      obtain ⟨hlen, hget⟩ := List.forall₂_iff_get.mp hdecoded
      have hi' : i < items.length := hlen ▸ hi
      exact ⟨items[i], List.getElem_mem hi', hget i hi' hi⟩
    have hd : ∀ y ∈ slots, y.embeddingLen = F.d := by
      intro y hy
      obtain ⟨item, hitem, hdec⟩ := hmem y hy
      obtain ⟨v, hv, _⟩ := hall item hitem
      exact embeddingLen_of_vecOf hdec hv
    obtain ⟨hnums, _⟩ := accepted_of_decoded hdecoded hd hall
    refine ⟨slots, (hfill slots).mpr ⟨Nat.le_refl _, slots, hslots, by simp⟩, hd,
      _, ?_, ⟨?_, ?_⟩, rfl⟩
    · intro y hy
      obtain ⟨item, hitem, hdec⟩ := hmem y hy
      exact (verdict_of_decoded hdec (hd y hy)).mpr (hall item hitem)
    · rw [hnums]
      exact hnodup
    · intro e he
      exact habsent _ (hnums ▸ List.mem_map_of_mem he)

/-- Without results nothing is filled, and nothing may have been requested. -/
theorem fresh_acceptable_iff {F : Faiss nCells δ} {s : Core nCells} {c : Fin nCells}
    {n : Nat} :
    (∃ x, (.ok (List.replicate n {}) : Except Fault (List Data)) = .ok x ∧
        (∀ y ∈ x, y.embeddingLen = F.d) ∧ ∃ s', Loaded F c x s s') ↔ n = 0 := by
  constructor
  · rintro ⟨x, hx, _, s', hverdicts, _⟩
    rw [Except.ok.injEq] at hx
    subst hx
    exact no_ids_of_fresh hverdicts
  · rintro rfl
    exact ⟨[], rfl, by simp, _, by simp, ⟨List.nodup_nil, by simp [accepted]⟩, rfl⟩

/-- A response is acceptable when it fills the slots with vectors that can be
entered. -/
theorem acceptable_iff {F : Faiss nCells δ} {s : Core nCells} {c : Fin nCells}
    {document : Option Json} :
    (∃ x, DBClient.fillSlots document (List.replicate (s.idsByCell c).length {}) = .ok x ∧
        (∀ y ∈ x, y.embeddingLen = F.d) ∧ ∃ s', Loaded F c x s s') ↔
      Acceptable F s c document := by
  have hnil : (s.idsByCell c).length = 0 ↔ s.idsByCell c = [] := List.length_eq_zero_iff
  cases document with
  | none =>
      rw [Acceptable, ← hnil]
      exact fresh_acceptable_iff
  | some document =>
      cases document with
      | object ms =>
          rw [Acceptable]
          simp only [DBClient.fillSlots, Json.members, ok_bind]
          cases hitems : arrayMember ms (ascii "results") with
          | none =>
              rw [← hnil]
              exact fresh_acceptable_iff
          | some items => exact items_acceptable_iff
      | null => simp [DBClient.fillSlots, Json.members, Acceptable]
      | bool b => simp [DBClient.fillSlots, Json.members, Acceptable]
      | number f => simp [DBClient.fillSlots, Json.members, Acceptable]
      | string t => simp [DBClient.fillSlots, Json.members, Acceptable]
      | array l => simp [DBClient.fillSlots, Json.members, Acceptable]

/-- What an acceptable response enters is what is usable in it. -/
theorem usable_of_filled {F : Faiss nCells δ} {s : Core nCells} {c : Fin nCells}
    {document : Option Json} {x : List Data}
    (hx : DBClient.fillSlots document (List.replicate (s.idsByCell c).length {}) = .ok x)
    (hd : ∀ y ∈ x, y.embeddingLen = F.d) {s' : Core nCells} (hload : Loaded F c x s s') :
    (accepted F c s.idMap x).map Stored.doc =
      (resultsOf document).filterMap (usableDoc F s c) := by
  have hfresh : x = List.replicate (s.idsByCell c).length {} →
      (accepted F c s.idMap x).map Stored.doc = [] := by
    rintro rfl
    rw [no_ids_of_fresh hload.verdicts]
    rfl
  cases document with
  | none =>
      simp only [DBClient.fillSlots, Except.ok.injEq] at hx
      exact hfresh hx.symm
  | some document =>
      obtain ⟨ms, hms, hfill⟩ := bind_eq_ok.mp hx
      have hobject : document = .object ms := by
        cases document <;> simp_all [Json.members]
      rw [hobject, resultsOf]
      cases hitems : arrayMember ms (ascii "results") with
      | none =>
          simp only [hitems, Except.ok.injEq] at hfill
          exact hfresh hfill.symm
      | some items =>
          simp only [hitems] at hfill
          obtain ⟨hlen, hall, _⟩ := items_acceptable_iff.mp ⟨x, hfill, hd, s', hload⟩
          obtain ⟨_, slots, hslots, rfl⟩ :=
            (fillItems_eq_ok_iff items [] _ _).mp hfill
          rw [hlen, Nat.sub_self, List.replicate_zero, List.append_nil,
            List.nil_append] at hd ⊢
          exact (accepted_of_decoded (decoded_of_items hslots) hd hall).2

/-- **Which responses are handled.** -/
theorem handled_iff (F : Faiss nCells δ) (ops : List (Op nCells)) (s : Core nCells)
    (hreach : Reaches F ops s) (c : Fin nCells) (parse : Bytes → Option Json)
    (text : Bytes) :
    Handled F s c parse text ↔ Acceptable F s c (parse (cChars text)) := by
  rw [← acceptable_iff]
  constructor
  · rintro (⟨x, s', hx, hd, hload, _⟩ | ⟨code, hload⟩)
    · obtain ⟨x', s'', hx', hloaded, heq⟩ := loadCell_respond.mp hload
      rw [hx, Except.ok.injEq] at hx'
      subst hx'
      exact ⟨x, hx, hd, s'', hloaded⟩
    · obtain ⟨_, _, _, _, heq⟩ := loadCell_respond.mp hload
      exact absurd heq (by simp)
  · rintro ⟨x, hx, hd, s', hloaded⟩
    obtain ⟨hself, hother⟩ := hloaded.docs (storeInv_of_reaches hreach)
    refine Or.inl ⟨x, s', hx, hd, loadCell_respond.mpr ⟨x, s', hx, hloaded, rfl⟩, ?_,
      fun c' hc' => (hother c' hc').1⟩
    rw [hself, usable_of_filled hx hd hloaded]

/-! ### A record that was deleted -/

/-- A parser on the responses below: an empty array of results, and one result. -/
def sampleParse (text : Bytes) : Option Json :=
  if text = ascii "\x7b\"results\":[]\x7d" then
    some (.object [(ascii "results", .array [])])
  else if text = ascii "\x7b\"results\":[\x7b\"id\":\"a\",\"embedding\":[0.5]\x7d]\x7d" then
    some (.object [(ascii "results", .array [.object [(ascii "id", .string (ascii "a")),
      (ascii "embedding", .array [.number (some 0x3F000000)])]])])
  else none

/-- One id is registered, and the proxy no longer has it. -/
theorem handled_deleted_fails :
    ∃ s, Reaches (Faiss.discrete 1 1) [.add 1 [[97, 0]] [0x3F000000]] s ∧
      loadCell (Faiss.discrete 1 1)
        (respond sampleParse (ascii "\x7b\"results\":[]\x7d")) 0 s =
        .error (.assertion .embeddingNotNull) ∧
      ¬ Handled (Faiss.discrete 1 1) s 0 sampleParse
        (ascii "\x7b\"results\":[]\x7d") := by
  obtain ⟨s, hs, hload⟩ :
      ∃ s, Reaches (Faiss.discrete 1 1) [.add 1 [[97, 0]] [0x3F000000]] s ∧
        loadCell (Faiss.discrete 1 1)
          (respond sampleParse (ascii "\x7b\"results\":[]\x7d")) 0 s =
          .error (.assertion .embeddingNotNull) := ⟨_, rfl, rfl⟩
  refine ⟨s, hs, hload, ?_⟩
  rintro (⟨x, s', _, _, hok, _⟩ | ⟨code, hok⟩)
  · rw [hload] at hok
    exact absurd hok (by simp)
  · rw [hload] at hok
    exact absurd hok (by simp)

/-- The proxy has it. -/
theorem handled_iff_present :
    ∃ s, Reaches (Faiss.discrete 1 1) [.add 1 [[97, 0]] [0x3F000000]] s ∧
      Handled (Faiss.discrete 1 1) s 0 sampleParse
        (ascii "\x7b\"results\":[\x7b\"id\":\"a\",\"embedding\":[0.5]\x7d]\x7d") := by
  obtain ⟨s, hs, hids, hmap, hdata⟩ :
      ∃ s, Reaches (Faiss.discrete 1 1) [.add 1 [[97, 0]] [0x3F000000]] s ∧
        s.idsByCell 0 = [[97]] ∧ s.idMap [97] = some 0 ∧ s.dataMap 0 = none :=
    ⟨_, rfl, rfl, rfl, rfl⟩
  have hmem : ∀ item ∈ [Json.object [(ascii "id", .string (ascii "a")),
      (ascii "embedding", .array [.number (some 0x3F000000)])]],
      usableNum (Faiss.discrete 1 1) s 0 item = some 0 ∧
        CompleteItem (Faiss.discrete 1 1) s 0 item := by
    intro item hitem
    rw [List.mem_singleton] at hitem
    subst hitem
    have hid : idOf (Json.object [(ascii "id", .string (ascii "a")),
        (ascii "embedding", .array [.number (some 0x3F000000)])]) = some [97] := rfl
    have hnum := hmap
    rw [← Option.bind_some (f := s.idMap), ← hid] at hnum
    exact ⟨hnum, [0x3F000000], rfl, fun _ => by rw [numOf, hnum]; rfl⟩
  refine ⟨s, hs, (handled_iff (Faiss.discrete 1 1) _ s hs 0 _ _).mpr ?_⟩
  refine ⟨by rw [hids]; rfl, fun item hitem => (hmem item hitem).2, ?_, ?_⟩
  · rw [List.filterMap_cons_some (hmem _ List.mem_cons_self).1]
    exact List.nodup_singleton 0
  · rw [List.filterMap_cons_some (hmem _ List.mem_cons_self).1]
    intro num hnum
    rw [List.mem_singleton.mp hnum]
    exact hdata

end Core

end Periplus.Ports
