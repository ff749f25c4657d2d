import Periplus.Ports.CoreRecall

/-!
# Ids that are registered more than once

ADD appends an id to the list of its cell every time, while `id_map` keeps the
first number of an id.  A request for a cell therefore asks for some ids twice,
or for ids that are in residence elsewhere, and the loop of `loadCell` meets a
number that is in `data_map` already.

`NoDuplicate` is the exact condition under which the load of a cell does not;
`noAssertion_iff` lifts it to whole runs.

## Main results

* `admits_iff` — the usable slots of a current answer can be admitted exactly
  when no id of the cell is requested twice or in residence.
* `loadCells_ne_assertion_iff` — the loop over the cells to load.
* `residentIds_nodup` — no id is in residence twice, whatever is registered.
* `noAssertion_iff` — the same for every LOAD of a run.
-/

namespace Periplus.Ports

open Periplus.Verified.Memory
open Periplus.Verified.Run
open Periplus.Verified.Buckets

namespace Core

variable {nCells : Nat} {δ : Type} [LinearOrder δ]

/-! ## What the database holds now -/

/-- The vector registered last for an id. -/
def currentVec (docs : List Doc) (id : Bytes) : Option (List F32) :=
  (docs.reverse.find? (fun p => p.1 = id)).map Prod.snd

/-- The answer holds one current record for each entry of the request, in any
order. -/
def Current (F : Faiss nCells δ) (docs : List Doc) (ids : List Bytes) :
    DbAnswer ids.length → Prop
  | .filled x => ∃ ds : List Doc, (ds.map Prod.fst).Perm ids ∧
      (∀ p ∈ ds, currentVec docs p.1 = some p.2) ∧
      List.Forall₂ (Represents F.d) x.toList ds
  | .httpException _ => False
  | .fault _ => False

/-- Every request of the run is answered by current records. -/
def CurrentProxy (F : Faiss nCells δ) (ops : List (Op nCells)) : Prop :=
  ∀ pre xq nload db post s, ops = pre ++ .load xq nload db :: post → Reaches F pre s →
    ∀ c, Current F (registered F pre) (s.idsByCell c) (db c (s.idsByCell c))

/-- The ids of a request whose current vector is nearest to the cell. -/
def inCell (F : Faiss nCells δ) (docs : List Doc) (c : Fin nCells) (ids : List Bytes) :
    List Bytes :=
  ids.filter (fun id => (currentVec docs id).bind F.nearest = some c)

/-! ## Ids in residence -/

/-- The ids of everything in the inverted lists. -/
def residentIds (s : Core nCells) : List Bytes :=
  (List.finRange nCells).flatMap (fun c => (s.invlists c).map (fun e => (s.docOf e).1))

theorem StoreInv.mem_residentIds {F : Faiss nCells δ} {s : Core nCells}
    (h : StoreInv F s) {id : Bytes} :
    id ∈ s.residentIds ↔ ∃ num, s.idMap id = some num ∧ (s.dataMap num).isSome := by
  rw [residentIds, List.mem_flatMap]
  constructor
  · rintro ⟨c, _, hid⟩
    obtain ⟨e, he, rfl⟩ := List.mem_map.mp hid
    obtain ⟨x, hx, _, hnum⟩ := h.represents he
    exact ⟨e.num, hnum, by rw [hx]; rfl⟩
  · rintro ⟨num, hnum, hsome⟩
    obtain ⟨x, hx⟩ := Option.isSome_iff_exists.mp hsome
    obtain ⟨c, hc⟩ := h.stored num x hx
    obtain ⟨e, he, rfl⟩ := List.mem_map.mp hc
    obtain ⟨_, _, _, hnum'⟩ := h.represents he
    refine ⟨c, List.mem_finRange c, List.mem_map.mpr ⟨e, he, ?_⟩⟩
    exact h.idInjective _ _ _ hnum' hnum

/-- **No id is in residence twice.**  The numbers in the lists are distinct, and
so are the ids they belong to. -/
theorem StoreInv.residentIds_nodup {F : Faiss nCells δ} {s : Core nCells}
    (h : StoreInv F s) : s.residentIds.Nodup := by
  have hnum : ∀ {c c' e e'}, e ∈ s.invlists c → e' ∈ s.invlists c' →
      (s.docOf e).1 = (s.docOf e').1 → e.num = e'.num := by
    intro c c' e e' he he' heq
    obtain ⟨_, _, _, hid⟩ := h.represents he
    obtain ⟨_, _, _, hid'⟩ := h.represents he'
    rw [heq, hid', Option.some.injEq] at hid
    exact hid.symm
  rw [residentIds, List.nodup_flatMap]
  constructor
  · intro c _
    have hnodup : (s.invlists c).Nodup := (h.listNodup c).of_map _
    refine hnodup.map_on ?_
    intro e he e' he' heq
    exact List.inj_on_of_nodup_map (h.listNodup c) he he' (hnum he he' heq)
  · refine (List.nodup_finRange nCells).imp ?_
    intro c c' hne id hid hid'
    obtain ⟨e, he, rfl⟩ := List.mem_map.mp hid
    obtain ⟨e', he', heq⟩ := List.mem_map.mp hid'
    refine hne (h.cell_unique (List.mem_map_of_mem he) ?_)
    rw [hnum he he' heq.symm]
    exact List.mem_map_of_mem he'

/-! ## Loading one cell -/

/-- Among the ids that belong to the cell none is registered twice in it, and
none is in residence. -/
structure NoDuplicate (F : Faiss nCells δ) (docs : List Doc) (s : Core nCells)
    (c : Fin nCells) : Prop where
  nodup : (inCell F docs c (s.idsByCell c)).Nodup
  absent : ∀ id ∈ inCell F docs c (s.idsByCell c), id ∉ s.residentIds

section CurrentAnswer

variable {F : Faiss nCells δ} {docs : List Doc} {s : Core nCells} {c : Fin nCells}
  {xs : List Data} {ds : List Doc}

/-- The ids of the documents of an answer that are nearest to the cell. -/
private theorem inCell_perm (hkeys : (ds.map Prod.fst).Perm (s.idsByCell c))
    (hcurrent : ∀ p ∈ ds, currentVec docs p.1 = some p.2) :
    ((ds.filter (fun p => F.nearest p.2 = some c)).map Prod.fst).Perm
      (inCell F docs c (s.idsByCell c)) := by
  have hfilter : (ds.filter (fun p => F.nearest p.2 = some c)).map Prod.fst =
      inCell F docs c (ds.map Prod.fst) := by
    rw [inCell, List.filter_map]
    congr 1
    refine List.filter_congr ?_
    intro p hp
    rw [Function.comp_apply, hcurrent p hp, Option.bind_some]
  rw [hfilter]
  exact hkeys.filter _

/-- Every id of a request is registered. -/
private theorem known_of_keys (hreg : RegistryInv F docs s)
    (hkeys : (ds.map Prod.fst).Perm (s.idsByCell c)) :
    ∀ p ∈ ds, (s.idMap p.1).isSome := by
  intro p hp
  have hid : p.1 ∈ s.idsByCell c := hkeys.subset (List.mem_map_of_mem hp)
  rw [hreg.cells c] at hid
  obtain ⟨q, hq, heq⟩ := List.mem_map.mp hid
  rw [hreg.known]
  exact heq ▸ List.mem_map_of_mem (mem_bucket.mp hq).1

/-- **The usable slots of a current answer can be admitted** exactly when no id
is requested twice or in residence. -/
theorem admits_iff (hinv : StoreInv F s) (hreg : RegistryInv F docs s)
    (hkeys : (ds.map Prod.fst).Perm (s.idsByCell c))
    (hcurrent : ∀ p ∈ ds, currentVec docs p.1 = some p.2)
    (hrep : List.Forall₂ (Represents F.d) xs ds) :
    s.Admits (accepted F c s.idMap xs) ↔ NoDuplicate F docs s c := by
  have hknown := known_of_keys hreg hkeys
  have hdocs := accepted_of_represents (c := c) hrep (fun p hp _ => hknown p hp)
  have hperm := inCell_perm (F := F) hkeys hcurrent
  rw [← hdocs, List.map_map] at hperm
  -- ids and numbers determine each other
  have hsame : ∀ e ∈ accepted F c s.idMap xs, ∀ e' ∈ accepted F c s.idMap xs,
      (e.num = e'.num ↔ e.doc.1 = e'.doc.1) := by
    intro e he e' he'
    have hid := idMap_of_accepted he
    have hid' := idMap_of_accepted he'
    constructor
    · intro heq
      exact hinv.idInjective _ _ _ hid (heq ▸ hid')
    · intro heq
      rw [heq, hid', Option.some.injEq] at hid
      exact hid.symm
  have hnodup : ((accepted F c s.idMap xs).map Stored.num).Nodup ↔
      ((accepted F c s.idMap xs).map (Prod.fst ∘ Stored.doc)).Nodup := by
    simp only [List.Nodup, List.pairwise_map]
    refine List.Pairwise.iff_of_mem ?_
    intro e e' he he'
    exact not_congr (hsame e he e' he')
  have hresident : ∀ e ∈ accepted F c s.idMap xs,
      (s.dataMap e.num = none ↔ e.doc.1 ∉ s.residentIds) := by
    intro e he
    have hid := idMap_of_accepted he
    rw [hinv.mem_residentIds, hid]
    simp
  constructor
  · rintro ⟨hnums, habsent⟩
    refine ⟨hperm.nodup_iff.mp (hnodup.mp hnums), ?_⟩
    intro id hid
    obtain ⟨e, he, rfl⟩ := List.mem_map.mp (hperm.symm.subset hid)
    exact (hresident e he).mp (habsent e he)
  · rintro ⟨hids, habsent⟩
    refine ⟨hnodup.mpr (hperm.nodup_iff.mpr hids), ?_⟩
    intro e he
    refine (hresident e he).mpr (habsent _ (hperm.subset ?_))
    exact List.mem_map_of_mem (f := Prod.fst ∘ Stored.doc) he

end CurrentAnswer

/-- **Loading one cell**: what is registered in it is entered, or the assertion
on `data_map` fails. -/
theorem loadCell_current {F : Faiss nCells δ} {docs : List Doc} {db : Database nCells}
    {s : Core nCells} {c : Fin nCells} (hinv : StoreInv F s)
    (hreg : RegistryInv F docs s)
    (hdb : Current F docs (s.idsByCell c) (db c (s.idsByCell c))) :
    (NoDuplicate F docs s c ∧ ∃ xs s', Loaded F c xs s s' ∧
        loadCell F db c s = .ok (.returns s') ∧
        ∀ e ∈ accepted F c s.idMap xs, e.doc.1 ∈ inCell F docs c (s.idsByCell c)) ∨
      (¬ NoDuplicate F docs s c ∧
        loadCell F db c s = .error (.assertion .notInDataMap)) := by
  cases hanswer : db c (s.idsByCell c) with
  | httpException code =>
      rw [hanswer] at hdb
      exact absurd hdb id
  | fault f =>
      rw [hanswer] at hdb
      exact absurd hdb id
  | filled x =>
      rw [hanswer] at hdb
      obtain ⟨ds, hkeys, hcurrent, hrep⟩ := hdb
      have hknown := known_of_keys hreg hkeys
      have hverdicts := verdicts_of_represents (c := c) hrep (fun p hp _ => hknown p hp)
      have hadmits := admits_iff hinv hreg hkeys hcurrent hrep
      by_cases hclean : NoDuplicate F docs s c
      · have hloaded : Loaded F c x.toList s _ := ⟨hverdicts, hadmits.mpr hclean, rfl⟩
        refine Or.inl ⟨hclean, x.toList, _, hloaded, ?_, ?_⟩
        · exact loadCell_eq_ok.mpr (Or.inr ⟨x, _, hanswer, hloaded, rfl⟩)
        · intro e he
          have hdocs := accepted_of_represents (c := c) hrep (fun p hp _ => hknown p hp)
          have hperm := inCell_perm (F := F) hkeys hcurrent
          rw [← hdocs, List.map_map] at hperm
          exact hperm.subset (List.mem_map_of_mem (f := Prod.fst ∘ Stored.doc) he)
      · refine Or.inr ⟨hclean, ?_⟩
        rw [loadCell, hanswer]
        cases hloop : storeSlots F c x.toList s with
        | error f =>
            have hf := storeSlots_error hverdicts hloop
            subst hf
            simp only [hloop, error_bind]
        | ok t =>
            exact absurd (hadmits.mp (storeSlots_eq_ok_iff.mp hloop).2.1) hclean

/-- An id that belongs to one cell belongs to no other. -/
theorem inCell_disjoint {F : Faiss nCells δ} {docs : List Doc} {c c' : Fin nCells}
    {ids ids' : List Bytes} {id : Bytes} (h : id ∈ inCell F docs c ids)
    (h' : id ∈ inCell F docs c' ids') : c = c' := by
  have hc := of_decide_eq_true (List.mem_filter.mp h).2
  have hc' := of_decide_eq_true (List.mem_filter.mp h').2
  rw [hc, Option.some.injEq] at hc'
  exact hc'

/-- Loading one cell does not change the condition on another. -/
theorem NoDuplicate.loaded_iff {F : Faiss nCells δ} {docs : List Doc}
    {s s' : Core nCells} {c c' : Fin nCells} {xs : List Data} (hinv : StoreInv F s)
    (hload : Loaded F c xs s s') (hne : c' ≠ c)
    (hids : ∀ e ∈ accepted F c s.idMap xs, e.doc.1 ∈ inCell F docs c (s.idsByCell c)) :
    NoDuplicate F docs s' c' ↔ NoDuplicate F docs s c' := by
  obtain ⟨_, hcells, hmap⟩ := hload.registry
  have hresident : ∀ id ∈ inCell F docs c' (s.idsByCell c'),
      (id ∈ s'.residentIds ↔ id ∈ s.residentIds) := by
    intro id hid
    rw [(hinv.loaded hload).mem_residentIds, hinv.mem_residentIds, hmap]
    constructor
    · rintro ⟨num, hnum, hsome⟩
      obtain ⟨x, hx⟩ := Option.isSome_iff_exists.mp hsome
      rcases hload.dataMap_cases hx with ⟨e, he, rfl, _⟩ | hx
      · -- an id entered now belongs to the other cell
        exfalso
        have heq := hinv.idInjective _ _ _ (idMap_of_accepted he) hnum
        exact hne (inCell_disjoint hid (heq ▸ hids e he))
      · exact ⟨num, hnum, by rw [hx]; rfl⟩
    · rintro ⟨num, hnum, hsome⟩
      obtain ⟨x, hx⟩ := Option.isSome_iff_exists.mp hsome
      exact ⟨num, hnum, by rw [hload.dataMap_mono hx]; rfl⟩
  constructor
  · rintro ⟨hnodup, habsent⟩
    rw [hcells] at hnodup habsent
    exact ⟨hnodup, fun id hid => (not_congr (hresident id hid)).mp (habsent id hid)⟩
  · rintro ⟨hnodup, habsent⟩
    refine ⟨by rw [hcells]; exact hnodup, ?_⟩
    rw [hcells]
    exact fun id hid => (not_congr (hresident id hid)).mpr (habsent id hid)

/-! ## The loop over the cells to load -/

theorem loadCells_ne_assertion_iff {F : Faiss nCells δ} {docs : List Doc}
    {db : Database nCells} {s : Core nCells} {cells : List (Fin nCells)} {m : Nat}
    (hcells : cells.Nodup) (hinv : StoreInv F s) (hreg : RegistryInv F docs s)
    (hdb : ∀ c, Current F docs (s.idsByCell c) (db c (s.idsByCell c))) :
    (∀ which, loadCells F db (cells.map (fun c => (c.val : Int)) ++ List.replicate m (-1)) s
        ≠ .error (.assertion which)) ↔
      ∀ c ∈ cells, s.residenceStatuses c = -1 → NoDuplicate F docs s c := by
  induction cells generalizing s with
  | nil =>
      refine ⟨fun _ c hc => absurd hc List.not_mem_nil, ?_⟩
      intro _ which
      rw [List.map_nil, List.nil_append, loadCells_padding]
      split <;> simp
  | cons c cells ih =>
      rw [List.nodup_cons] at hcells
      rw [List.map_cons, List.cons_append, loadCells, cellAt_val, ok_bind]
      by_cases hstatus : s.residenceStatuses c > -1
      · rw [if_pos hstatus, ih hcells.2 hinv hreg hdb]
        constructor
        · intro h c' hc' hfree
          rcases List.mem_cons.mp hc' with rfl | hc'
          · omega
          · exact h c' hc' hfree
        · exact fun h c' hc' => h c' (List.mem_cons_of_mem c hc')
      · have hfree : s.residenceStatuses c = -1 := by
          have := hinv.statuses c
          omega
        rw [if_neg hstatus]
        rcases loadCell_current hinv hreg (hdb c) with
          ⟨hclean, xs, s', hload, hcell, hids⟩ | ⟨hdirty, hcell⟩
        · obtain ⟨_, hkeep, hmap⟩ := hload.registry
          simp only [hcell, ok_bind]
          rw [ih hcells.2 (hinv.loaded hload) (hreg.congr hkeep hmap)
            (by rw [hkeep]; exact hdb)]
          have hother : ∀ c' ∈ cells, c' ≠ c := fun c' hc' heq =>
            hcells.1 (heq ▸ hc')
          have hstatuses : ∀ c' ∈ cells,
              s'.residenceStatuses c' = s.residenceStatuses c' := by
            intro c' hc'
            rw [hload.residenceStatuses, Function.update_of_ne (hother c' hc')]
          constructor
          · intro h c' hc' hfree'
            rcases List.mem_cons.mp hc' with rfl | hc'
            · exact hclean
            · exact (NoDuplicate.loaded_iff hinv hload (hother c' hc') hids).mp
                (h c' hc' ((hstatuses c' hc').trans hfree'))
          · intro h c' hc' hfree'
            exact (NoDuplicate.loaded_iff hinv hload (hother c' hc') hids).mpr
              (h c' (List.mem_cons_of_mem c hc') ((hstatuses c' hc').symm.trans hfree'))
        · constructor
          · intro h
            exact absurd (by rw [hcell]; rfl) (h .notInDataMap)
          · intro h
            exact absurd (h c List.mem_cons_self hfree) hdirty

/-! ## Whole runs -/

/-- No LOAD of the run fails an assertion, and after each of them every id is in
residence at most once. -/
def NoAssertion (F : Faiss nCells δ) (ops : List (Op nCells)) : Prop :=
  ∀ pre xq nload db post s, ops = pre ++ .load xq nload db :: post → Reaches F pre s →
    (∀ which, s.loadCellWithVec F db xq nload ≠ .error (.assertion which)) ∧
    ∀ s', Reaches F (pre ++ [.load xq nload db]) s' → s'.residentIds.Nodup

/-- Whenever a LOAD of the run asks for a cell that is not in residence, no id
that belongs to the cell is registered twice in it or in residence. -/
def CleanLoads (F : Faiss nCells δ) (ops : List (Op nCells)) : Prop :=
  ∀ pre xq nload db post s, ops = pre ++ .load xq nload db :: post → Reaches F pre s →
    nload ≠ 0 → F.d ≤ xq.length →
    ∀ c ∈ (F.ranked (xq.take F.d)).take nload, s.residenceStatuses c = -1 →
      NoDuplicate F (registered F pre) s c

/-- **When registering ids again is harmless.** -/
theorem noAssertion_iff (F : Faiss nCells δ) (ops : List (Op nCells))
    (hproxy : CurrentProxy F ops) : NoAssertion F ops ↔ CleanLoads F ops := by
  have hload : ∀ pre xq nload db post s, ops = pre ++ .load xq nload db :: post →
      Reaches F pre s → nload ≠ 0 → F.d ≤ xq.length →
      ((∀ which, s.loadCellWithVec F db xq nload ≠ .error (.assertion which)) ↔
        ∀ c ∈ (F.ranked (xq.take F.d)).take nload, s.residenceStatuses c = -1 →
          NoDuplicate F (registered F pre) s c) := by
    intro pre xq nload db post s hops hs hn hlen
    have hnodup : ((F.ranked (xq.take F.d)).take nload).Nodup :=
      (F.ranked_nodup _).sublist (List.take_sublist nload _)
    rw [loadCellWithVec, quantizerSearch_one.mpr ⟨hn, hlen, rfl⟩, ok_bind,
      Faiss.assign_eq_append]
    exact loadCells_ne_assertion_iff hnodup (storeInv_of_reaches hs)
      (registryInv_of_reaches hs) (hproxy pre xq nload db post s hops hs)
  constructor
  · intro h pre xq nload db post s hops hs hn hlen
    exact (hload pre xq nload db post s hops hs hn hlen).mp
      (h pre xq nload db post s hops hs).1
  · intro h pre xq nload db post s hops hs
    refine ⟨?_, fun s' hs' => (storeInv_of_reaches hs').residentIds_nodup⟩
    by_cases hsearch : nload ≠ 0 ∧ F.d ≤ xq.length
    · exact (hload pre xq nload db post s hops hs hsearch.1 hsearch.2).mpr
        (h pre xq nload db post s hops hs hsearch.1 hsearch.2)
    · -- the quantizer is not asked, and no cell is loaded
      intro which hfault
      rw [loadCellWithVec, Faiss.quantizerSearch_eq] at hfault
      split at hfault
      · simp at hfault
      · rw [if_neg (by omega)] at hfault
        simp at hfault

/-! ### The same ADD twice -/

/-- A database that returns the current vector of every id is current. -/
theorem current_ofRecords {F : Faiss nCells δ} {docs : List Doc} {ids : List Bytes}
    {record : Bytes → Record} (c : Fin nCells)
    (h : ∀ id ∈ ids, currentVec docs id = some (record id).embedding ∧
      (record id).id = id ∧ 0 ∉ id ∧ (record id).embedding.length = F.d) :
    Current F docs ids (Database.ofRecords record c ids) := by
  obtain ⟨x, hx, hrep⟩ := ofRecords_represents (fun id hid => (h id hid).2) c
  rw [hx]
  refine ⟨_, ?_, ?_, hrep⟩
  · rw [List.map_map]
    exact List.Perm.of_eq (List.map_id _)
  · intro p hp
    obtain ⟨id, hid, rfl⟩ := List.mem_map.mp hp
    exact (h id hid).1

/-- An ADD that is retried before the cell is loaded. -/
def retriedRun : List (Op 1) :=
  [.add 1 [[97, 0]] [5],
    .add 1 [[97, 0]] [5],
    .load [5] 1 (.ofRecords fun id => ⟨id, [5], [], []⟩)]

/-- An ADD that is repeated while its cell is in residence. -/
def repeatedRun : List (Op 1) :=
  [.add 1 [[97, 0]] [5],
    .load [5] 1 (.ofRecords fun id => ⟨id, [5], [], []⟩),
    .add 1 [[97, 0]] [5]]

/-- The database of the two runs is current as long as `a` is all there is. -/
private theorem current_of_only_a {docs : List Doc} {s : Core 1} (c : Fin 1)
    (hreg : RegistryInv (Faiss.discrete 1 1) docs s)
    (honly : ∀ p ∈ docs, p.1 = [97]) (hvec : currentVec docs [97] = some [5]) :
    Current (Faiss.discrete 1 1) docs (s.idsByCell c)
      (Database.ofRecords (fun id => ⟨id, [5], [], []⟩) c (s.idsByCell c)) := by
  refine current_ofRecords c ?_
  intro id hid
  rw [hreg.cells c] at hid
  obtain ⟨p, hp, rfl⟩ := List.mem_map.mp hid
  rw [honly p (mem_bucket.mp hp).1]
  exact ⟨hvec, rfl, by decide, rfl⟩

private theorem retriedRun_current : CurrentProxy (Faiss.discrete 1 1) retriedRun := by
  intro pre xq nload db post s hops hs c
  obtain ⟨rfl, rfl⟩ : pre = [.add 1 [[97, 0]] [5], .add 1 [[97, 0]] [5]] ∧
      db = .ofRecords fun id => ⟨id, [5], [], []⟩ := by
    rcases pre with _ | ⟨a, _ | ⟨b, _ | ⟨c, pre⟩⟩⟩ <;> simp [retriedRun] at hops
    exact ⟨by rw [← hops.1, ← hops.2.1], hops.2.2.1.2.2.symm⟩
  exact current_of_only_a c (registryInv_of_reaches hs) (by decide) (by decide)

private theorem repeatedRun_current : CurrentProxy (Faiss.discrete 1 1) repeatedRun := by
  intro pre xq nload db post s hops hs c
  obtain ⟨rfl, rfl⟩ : pre = [.add 1 [[97, 0]] [5]] ∧
      db = .ofRecords fun id => ⟨id, [5], [], []⟩ := by
    rcases pre with _ | ⟨a, _ | ⟨b, _ | ⟨c, pre⟩⟩⟩ <;> simp [repeatedRun] at hops
    exact ⟨by rw [hops.1], hops.2.1.2.2.symm⟩
  exact current_of_only_a c (registryInv_of_reaches hs) (by decide) (by decide)

/-- The server does not survive the retried ADD. -/
theorem noAssertion_retriedRun_fails :
    CurrentProxy (Faiss.discrete 1 1) retriedRun ∧
      run (step (Faiss.discrete 1 1)) (fresh (Faiss.discrete 1 1)) retriedRun =
        .error (.assertion .notInDataMap) ∧
      ¬ NoAssertion (Faiss.discrete 1 1) retriedRun := by
  refine ⟨retriedRun_current, rfl, ?_⟩
  intro h
  obtain ⟨s, hs, hfault⟩ : ∃ s, Reaches (Faiss.discrete 1 1)
      [.add 1 [[97, 0]] [5], .add 1 [[97, 0]] [5]] s ∧
      s.loadCellWithVec (Faiss.discrete 1 1) (.ofRecords fun id => ⟨id, [5], [], []⟩)
        [5] 1 = .error (.assertion .notInDataMap) := ⟨_, rfl, rfl⟩
  exact (h _ _ _ _ [] s rfl hs).1 .notInDataMap hfault

theorem noAssertion_repeatedRun : NoAssertion (Faiss.discrete 1 1) repeatedRun := by
  refine (noAssertion_iff (Faiss.discrete 1 1) repeatedRun repeatedRun_current).mpr ?_
  intro pre xq nload db post s hops hs _ _ c _ _
  obtain rfl : pre = [.add 1 [[97, 0]] [5]] := by
    rcases pre with _ | ⟨a, _ | ⟨b, _ | ⟨c, pre⟩⟩⟩ <;> simp [repeatedRun] at hops
    rw [hops.1]
  have hreg := registryInv_of_reaches hs
  have hids : s.idsByCell c = [[97]] := by
    rw [hreg.cells c, Subsingleton.elim c 0]
    decide
  have hempty : s.residentIds = [] := by
    have hinit : ∀ t, Reaches (Faiss.discrete 1 1) [.add 1 [[97, 0]] [5]] t →
        t.residentIds = [] := by
      intro t ht
      have : t = _ := (Except.ok.inj ht).symm
      rw [this]
      rfl
    exact hinit s hs
  refine ⟨?_, ?_⟩
  · rw [hids, Subsingleton.elim c 0]
    decide
  · rw [hempty]
    exact fun id _ => List.not_mem_nil

end Core

end Periplus.Ports
