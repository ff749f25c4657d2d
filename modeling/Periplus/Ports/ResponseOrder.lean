import Periplus.Ports.DbResponse
import Periplus.Ports.CoreRetry

/-!
# The order in which the proxy lists its results

`DBClient::search` puts result `i` into slot `i`, and `Core::loadCell` looks at the slots
one after the other and never at the id that was requested in that place: the number of a
record is found by the record's own id.  So an answer with one complete record for each
requested id can be listed in any order; one that leaves some of them out fails in any order.

## Main results

* `fillSlots_complete` — the slots are what the loop's body makes of each result.
* `loadCell_complete_error` — the two assertions that can fail.
* `load_order_free` — two orders end alike, and each record is stored under its own id.
-/

namespace Periplus.Ports

open Periplus.Verified.Memory
open Periplus.Verified.Run
open Periplus.Verified.Buckets

namespace Core

variable {nCells : Nat} {δ : Type} [LinearOrder δ]

open DBClient

/-- The text is a document whose results are the given ones. -/
def Results (parse : Bytes → Option Json) (text : Bytes) (items : List Json) : Prop :=
  ∃ top, parse (cChars text) = some (.object top) ∧
    arrayMember top (ascii "results") = some items

/-- Complete records for ids that are requested for the cell, each with its id and an
embedding of `d` `float`s, and no more of them than are requested. -/
structure CompleteAnswer (F : Faiss nCells δ) (s : Core nCells) (c : Fin nCells)
    (items : List Json) : Prop where
  ids : ∀ item ∈ items, ∃ id ∈ s.idsByCell c, idOf item = some id
  vectors : ∀ item ∈ items, ∃ v, vecOf F.d item = some v
  count : items.length ≤ (s.idsByCell c).length

/-- Exactly one record for each requested id. -/
theorem completeAnswer_of_perm {F : Faiss nCells δ} {s : Core nCells} {c : Fin nCells}
    {items : List Json} (h : (items.map idOf).Perm ((s.idsByCell c).map some))
    (hvectors : ∀ item ∈ items, ∃ v, vecOf F.d item = some v) : CompleteAnswer F s c items where
  ids := by
    intro item hitem
    obtain ⟨id, hid, heq⟩ := List.mem_map.mp (h.subset (List.mem_map_of_mem hitem))
    exact ⟨id, hid, heq.symm⟩
  vectors := hvectors
  count := by
    have hlength := h.length_eq
    rw [List.length_map, List.length_map] at hlength
    exact Nat.le_of_eq hlength

/-- What the loop's body makes of a result, in a slot that is as it was allocated. -/
def slotOf : Json → Data
  | .object ms => (decodeItem ms {}).toOption.getD {}
  | .null => {}
  | .bool _ => {}
  | .number _ => {}
  | .string _ => {}
  | .array _ => {}

/-- The load ends in the same way: both times it comes back, with states that agree up to
the order inside the lists, or both times it does not come back. -/
inductive SameOutcome : Except Fault (Exit (Core nCells)) →
    Except Fault (Exit (Core nCells)) → Prop
  | returns {s t : Core nCells} : SameUpToOrder s t →
      SameOutcome (.ok (.returns s)) (.ok (.returns t))
  | faults (f g : Fault) : SameOutcome (.error f) (.error g)

/-- The records that belong to the cell are stored, each under the number of its own id,
and nothing else has been. -/
structure StoredByOwnId (F : Faiss nCells δ) (s : Core nCells) (c : Fin nCells)
    (items : List Json) (s' : Core nCells) : Prop where
  status : s'.residenceStatuses c = (s.idsByCell c).length
  own : ∀ item ∈ items, ∀ id v, idOf item = some id → vecOf F.d item = some v →
    F.nearest v = some c → ∃ num, s.idMap id = some num ∧
      s'.dataMap num = some (slotOf item) ∧ ⟨num, v⟩ ∈ s'.invlists c
  others : ∀ num x, s'.dataMap num = some x → s.dataMap num = some x ∨
    ∃ item ∈ items, slotOf item = x ∧ s.numOf item = some num

/-! ## The slots of an answer -/

section Slots

variable {F : Faiss nCells δ} {s : Core nCells} {c : Fin nCells}

theorem slotOf_of_vecOf {d : Nat} {item : Json} {v : List F32} (h : vecOf d item = some v) :
    ∃ ms, item = .object ms ∧ decodeItem ms {} = .ok (slotOf item) := by
  obtain ⟨vals, hvals, _⟩ := Option.bind_eq_some_iff.mp h
  cases item with
  | object ms =>
      have hdecoded := @decodeItem_of_isSome ms _ hvals
      have hslot : decodeItem ms {} = .ok (slotOf (.object ms)) := by
        rw [slotOf, hdecoded]
        rfl
      exact ⟨ms, rfl, hslot⟩
  | null => exact absurd hvals (by simp [embeddingOf])
  | bool b => exact absurd hvals (by simp [embeddingOf])
  | number f => exact absurd hvals (by simp [embeddingOf])
  | string t => exact absurd hvals (by simp [embeddingOf])
  | array l => exact absurd hvals (by simp [embeddingOf])

theorem decoded_slotOf {item : Json} {v : List F32} (h : vecOf F.d item = some v) :
    Decoded item (slotOf item) ∧ (slotOf item).embeddingLen = F.d := by
  obtain ⟨ms, hitem, hslot⟩ := slotOf_of_vecOf h
  have hdecoded : Decoded item (slotOf item) := by
    subst hitem
    exact decodeItem_decoded hslot
  exact ⟨hdecoded, embeddingLen_of_vecOf hdecoded h⟩

/-- An answer that is listed in another order. -/
theorem CompleteAnswer.perm {items items' : List Json} (h : CompleteAnswer F s c items)
    (hperm : items.Perm items') : CompleteAnswer F s c items' where
  ids := fun item hitem => h.ids item (hperm.symm.subset hitem)
  vectors := fun item hitem => h.vectors item (hperm.symm.subset hitem)
  count := hperm.length_eq ▸ h.count

/-- The slots behind the results stay as they were allocated. -/
def slotsOf (s : Core nCells) (c : Fin nCells) (items : List Json) : List Data :=
  items.map slotOf ++ List.replicate ((s.idsByCell c).length - items.length) ({} : Data)

/-- **The slots of an answer.** -/
theorem fillSlots_complete {parse : Bytes → Option Json} {text : Bytes} {items : List Json}
    (h : CompleteAnswer F s c items) (hresults : Results parse text items) :
    DBClient.fillSlots (parse (cChars text)) (List.replicate (s.idsByCell c).length {}) =
      .ok (slotsOf s c items) := by
  obtain ⟨top, hparse, hitems⟩ := hresults
  have hslots : List.Forall₂ (fun item slot => ∃ ms, item = Json.object ms ∧
      decodeItem ms {} = .ok slot) items (items.map slotOf) := by
    rw [List.forall₂_map_right_iff, List.forall₂_same]
    intro item hitem
    obtain ⟨v, hv⟩ := h.vectors item hitem
    exact slotOf_of_vecOf hv
  have hfill := (fillItems_eq_ok_iff items [] (s.idsByCell c).length (slotsOf s c items)).mpr
    ⟨h.count, items.map slotOf, hslots, rfl⟩
  rw [hparse]
  simp only [DBClient.fillSlots, Json.members, ok_bind, hitems]
  exact hfill

/-- A load from such an answer enters its slots. -/
theorem loadCell_complete {parse : Bytes → Option Json} {text : Bytes} {items : List Json}
    (h : CompleteAnswer F s c items) (hresults : Results parse text items)
    {exit : Exit (Core nCells)} :
    loadCell F (respond parse text) c s = .ok exit ↔
      ∃ s', Loaded F c (slotsOf s c items) s s' ∧ exit = .returns s' := by
  rw [loadCell_respond, fillSlots_complete h hresults]
  constructor
  · intro hload
    obtain ⟨x, s', hx, hload, hexit⟩ := hload
    rw [Except.ok.inj hx]
    exact ⟨s', hload, hexit⟩
  · intro hload
    obtain ⟨s', hload, hexit⟩ := hload
    exact ⟨_, s', rfl, hload, hexit⟩

/-- Every slot of a result has a verdict when the requested ids are registered. -/
theorem verdicts_complete {items : List Json} (h : CompleteAnswer F s c items)
    (hknown : ∀ id ∈ s.idsByCell c, (s.idMap id).isSome) :
    ∀ x ∈ items.map slotOf, ∃ o, verdict F c s.idMap x = .ok o := by
  intro x hx
  obtain ⟨item, hitem, rfl⟩ := List.mem_map.mp hx
  obtain ⟨v, hv⟩ := h.vectors item hitem
  obtain ⟨id, hid, heq⟩ := h.ids item hitem
  obtain ⟨hdecoded, hlen⟩ := decoded_slotOf hv
  apply (verdict_of_decoded hdecoded hlen).mpr
  refine ⟨v, hv, fun _ => ?_⟩
  rw [numOf, heq, Option.bind_some]
  exact hknown id hid

theorem storeSlots_append (xs ys : List Data) (s : Core nCells) :
    storeSlots F c (xs ++ ys) s = (storeSlots F c xs s >>= storeSlots F c ys) := by
  induction xs generalizing s with
  | nil => rfl
  | cons x xs ih =>
      rw [List.cons_append, storeSlots, storeSlots]
      cases storeSlot F c x s with
      | error f => rfl
      | ok t => exact ih t

/-- The slots of the results can be stored in every order or in none. -/
theorem storeSlots_perm {xs ys : List Data} (hperm : xs.Perm ys) {t : Core nCells}
    (h : storeSlots F c xs s = .ok t) : ∃ t', storeSlots F c ys s = .ok t' := by
  obtain ⟨hverdicts, hadmits, _⟩ := storeSlots_eq_ok_iff.mp h
  have haccepted : (accepted F c s.idMap xs).Perm (accepted F c s.idMap ys) :=
    hperm.filterMap _
  exact ⟨_, storeSlots_eq_ok_iff.mpr ⟨fun y hy => hverdicts y (hperm.symm.subset hy),
    hadmits.perm haccepted, rfl⟩⟩

/-- **How a load fails**: a record is stored already, or else a slot was left empty. -/
theorem loadCell_complete_error {parse : Bytes → Option Json} {text : Bytes}
    {items : List Json} (h : CompleteAnswer F s c items) (hresults : Results parse text items)
    (hknown : ∀ id ∈ s.idsByCell c, (s.idMap id).isSome) {f : Fault}
    (hload : loadCell F (respond parse text) c s = .error f) :
    ((∀ t, storeSlots F c (items.map slotOf) s ≠ .ok t) ∧ f = .assertion .notInDataMap) ∨
      ((∃ t, storeSlots F c (items.map slotOf) s = .ok t) ∧
        f = .assertion .embeddingNotNull) := by
  obtain ⟨y, hdb, hy⟩ := search_of_ok (fillSlots_complete h hresults)
  have hdb' : respond parse text c (s.idsByCell c) = .filled y := hdb
  rw [loadCell, hdb'] at hload
  simp only [hy, slotsOf, storeSlots_append] at hload
  cases hstore : storeSlots F c (items.map slotOf) s with
  | error g =>
      rw [hstore, error_bind, error_bind, Except.error.injEq] at hload
      have hg := storeSlots_error (verdicts_complete h hknown) hstore
      exact Or.inl ⟨fun t => by simp, hload ▸ hg⟩
  | ok t =>
      rw [hstore, ok_bind] at hload
      have hempty : f = .assertion .embeddingNotNull := by
        cases hrest : (s.idsByCell c).length - items.length with
        | zero =>
            rw [hrest, List.replicate_zero, storeSlots, ok_bind] at hload
            exact absurd hload (by simp)
        | succ n =>
            rw [hrest, List.replicate_succ, storeSlots, storeSlot] at hload
            exact (Except.error.inj hload).symm
      exact Or.inr ⟨⟨t, rfl⟩, hempty⟩

/-- When a load comes back, no slot was left empty. -/
theorem Loaded.slots_full {items : List Json} {s' : Core nCells}
    (hload : Loaded F c (slotsOf s c items) s s') : slotsOf s c items = items.map slotOf := by
  have hnone : (s.idsByCell c).length - items.length = 0 := no_ids_of_fresh
    (fun x hx => hload.verdicts x (List.mem_append_right _ hx))
  rw [slotsOf, hnone, List.replicate_zero, List.append_nil]

/-- What a load stores is found by the ids of the records. -/
theorem storedByOwnId_of_loaded {items : List Json} (h : CompleteAnswer F s c items)
    {s' : Core nCells} (hload : Loaded F c (items.map slotOf) s s') :
    StoredByOwnId F s c items s' := by
  constructor
  · rw [hload.residenceStatuses, Function.update_self]
  · intro item hitem id v hid hv hnear
    obtain ⟨hdecoded, hlen⟩ := decoded_slotOf hv
    have hread := (Decoded.vecOf hdecoded hlen).mpr hv
    have hmem : slotOf item ∈ items.map slotOf := List.mem_map_of_mem hitem
    obtain ⟨o, ho⟩ := hload.verdicts (slotOf item) hmem
    cases o with
    | none =>
        obtain ⟨v', hv', hfar⟩ := verdict_eq_none.mp ho
        rw [hread, Except.ok.injEq] at hv'
        exact absurd (hv' ▸ hnear) hfar
    | some e =>
        have haccepted : e ∈ accepted F c s.idMap (items.map slotOf) :=
          mem_accepted.mpr ⟨slotOf item, hmem, ho⟩
        obtain ⟨hv', _, ⟨id', hid', hnum⟩, hrecord⟩ := verdict_eq_some.mp ho
        rw [hdecoded.idString.mp hid', Option.some.injEq] at hid
        rw [hread, Except.ok.injEq] at hv'
        refine ⟨e.num, hid ▸ hnum, ?_, ?_⟩
        · rw [hload.dataMap_accepted haccepted, hrecord]
        · rw [hload.invlists, Function.update_self, hv']
          exact List.mem_append_right _ (List.mem_map_of_mem haccepted)
  · intro num x hx
    rcases hload.dataMap_cases hx with ⟨e, he, hnum, hrecord⟩ | hold
    · obtain ⟨hmem, _, _, id, hid, hreg⟩ := accepted_spec he
      obtain ⟨item, hitem, hslot⟩ := List.mem_map.mp hmem
      obtain ⟨v, hv⟩ := h.vectors item hitem
      rw [← hslot, (decoded_slotOf hv).1.idString] at hid
      have hfound : s.numOf item = some num := by
        rw [numOf, hid, Option.bind_some, hreg, hnum]
      exact Or.inr ⟨item, hitem, hslot.trans hrecord, hfound⟩
    · exact Or.inl hold

end Slots

/-- The ids of a cell are registered. -/
theorem registered_of_reaches {F : Faiss nCells δ} {ops : List (Op nCells)} {s : Core nCells}
    (h : Reaches F ops s) (c : Fin nCells) : ∀ id ∈ s.idsByCell c, (s.idMap id).isSome := by
  have hreg := registryInv_of_reaches h
  intro id hid
  rw [hreg.cells c] at hid
  obtain ⟨p, hp, hfst⟩ := List.mem_map.mp hid
  exact (hreg.known id).mpr (List.mem_map.mpr ⟨p, (mem_bucket.mp hp).1, hfst⟩)

/-! ## Two orders -/

/-- A load that comes back does so in the other order too. -/
theorem loadCell_complete_perm {F : Faiss nCells δ} {s s' : Core nCells} {c : Fin nCells}
    {parse : Bytes → Option Json} {text text' : Bytes} {items items' : List Json}
    (h : CompleteAnswer F s c items) (hresults : Results parse text items)
    (hresults' : Results parse text' items') (hperm : items.Perm items')
    (hload : loadCell F (respond parse text) c s = .ok (.returns s')) :
    ∃ s'', loadCell F (respond parse text') c s = .ok (.returns s'') ∧ SameUpToOrder s' s'' := by
  obtain ⟨t, hloaded, hreturn⟩ := (loadCell_complete h hresults).mp hload
  rw [Exit.returns.injEq] at hreturn
  have hslots : (slotsOf s c items).Perm (slotsOf s c items') := by
    rw [slotsOf, slotsOf, hperm.length_eq]
    exact (hperm.map slotOf).append_right _
  obtain ⟨s'', hloaded', hagree⟩ := hloaded.perm hslots
  rw [hreturn]
  exact ⟨s'', (loadCell_complete (h.perm hperm) hresults').mpr ⟨s'', hloaded', rfl⟩, hagree⟩

/-- **The order of the results does not matter.**  The two loads end alike, in every state
that is reached with the same assertion if they fail, and what comes back holds each record
under the number of its own id. -/
theorem load_order_free (F : Faiss nCells δ) (s : Core nCells) (c : Fin nCells)
    (parse : Bytes → Option Json) (text text' : Bytes) (items items' : List Json)
    (hresults : Results parse text items) (hresults' : Results parse text' items')
    (hanswer : CompleteAnswer F s c items) (hperm : items.Perm items') :
    SameOutcome (loadCell F (respond parse text) c s) (loadCell F (respond parse text') c s) ∧
      (∀ ops, Reaches F ops s →
        SameExit (loadCell F (respond parse text) c s)
          (loadCell F (respond parse text') c s)) ∧
      ∀ s', loadCell F (respond parse text) c s = .ok (.returns s') →
        StoredByOwnId F s c items s' := by
  have hanswer' := hanswer.perm hperm
  cases hload : loadCell F (respond parse text) c s with
  | ok exit =>
      obtain ⟨s', hloaded, rfl⟩ := (loadCell_complete hanswer hresults).mp hload
      obtain ⟨s'', hload', hagree⟩ :=
        loadCell_complete_perm hanswer hresults hresults' hperm hload
      rw [hload']
      refine ⟨.returns hagree, fun _ _ => .returns hagree, fun t ht => ?_⟩
      rw [Except.ok.injEq, Exit.returns.injEq] at ht
      rw [hloaded.slots_full] at hloaded
      exact ht ▸ storedByOwnId_of_loaded hanswer hloaded
  | error f =>
      cases hload' : loadCell F (respond parse text') c s with
      | ok exit =>
          -- it would come back in the first order too
          obtain ⟨t, _, rfl⟩ := (loadCell_complete hanswer' hresults').mp hload'
          obtain ⟨s', hback, _⟩ :=
            loadCell_complete_perm hanswer' hresults' hresults hperm.symm hload'
          rw [hload] at hback
          exact absurd hback (by simp)
      | error g =>
          refine ⟨.faults f g, fun ops hreach => ?_, fun s' hs' => absurd hs' (by simp)⟩
          have hknown := registered_of_reaches hreach c
          have hsame : f = g := by
            rcases loadCell_complete_error hanswer hresults hknown hload with
              ⟨hnot, hf⟩ | ⟨⟨t, ht⟩, hf⟩
            · rcases loadCell_complete_error hanswer' hresults' hknown hload' with
                ⟨_, hg⟩ | ⟨⟨t, ht⟩, _⟩
              · rw [hf, hg]
              · obtain ⟨t', ht'⟩ := storeSlots_perm (hperm.symm.map slotOf) ht
                exact absurd ht' (hnot t')
            · rcases loadCell_complete_error hanswer' hresults' hknown hload' with
                ⟨hnot, _⟩ | ⟨_, hg⟩
              · obtain ⟨t', ht'⟩ := storeSlots_perm (hperm.map slotOf) ht
                exact absurd ht' (hnot t')
              · rw [hf, hg]
          rw [hsame]
          exact .fault g

/-- The result for the id with one character, and an embedding of one float. -/
def resultFor (id : UInt8) (x : F32) : Json :=
  .object [(ascii "id", .string [id]), (ascii "embedding", .array [.number (some x)])]

/-- A parser on two texts, with two results in the one order and in the other. -/
def swapParse (text : Bytes) : Option Json :=
  if text = [1] then
    some (.object [(ascii "results", .array [resultFor 97 5, resultFor 98 6])])
  else some (.object [(ascii "results", .array [resultFor 98 6, resultFor 97 5])])

/-- The second record comes first. -/
theorem load_order_free_swapped :
    ∃ s t u : Core 1, Reaches (Faiss.discrete 1 1) [.add 2 [[97, 0], [98, 0]] [5, 6]] s ∧
      loadCell (Faiss.discrete 1 1) (respond swapParse [1]) 0 s = .ok (.returns t) ∧
      loadCell (Faiss.discrete 1 1) (respond swapParse [2]) 0 s = .ok (.returns u) ∧
      SameUpToOrder t u ∧ (u.invlists 0).map Entry.num = [1, 0] := by
  obtain ⟨s, t, u, hreach, hids, ht, hu, hlist⟩ :
      ∃ s t u : Core 1, Reaches (Faiss.discrete 1 1) [.add 2 [[97, 0], [98, 0]] [5, 6]] s ∧
        s.idsByCell 0 = [[97], [98]] ∧
        loadCell (Faiss.discrete 1 1) (respond swapParse [1]) 0 s = .ok (.returns t) ∧
        loadCell (Faiss.discrete 1 1) (respond swapParse [2]) 0 s = .ok (.returns u) ∧
        (u.invlists 0).map Entry.num = [1, 0] :=
    ⟨_, _, _, rfl, rfl, rfl, rfl, rfl⟩
  have hanswer : CompleteAnswer (Faiss.discrete 1 1) s 0 [resultFor 97 5, resultFor 98 6] := by
    apply completeAnswer_of_perm
    · rw [hids]
      exact List.Perm.refl _
    · rw [List.forall_mem_cons, List.forall_mem_singleton]
      exact ⟨⟨[5], rfl⟩, [6], rfl⟩
  have hends := (load_order_free (Faiss.discrete 1 1) s 0 swapParse [1] [2] _ _ ⟨_, rfl, rfl⟩
    ⟨_, rfl, rfl⟩ hanswer (List.Perm.swap _ _ [])).1
  rw [ht, hu] at hends
  cases hends with
  | returns hagree => exact ⟨s, t, u, hreach, ht, hu, hagree, hlist⟩

end Core

end Periplus.Ports
