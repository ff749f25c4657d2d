import Periplus.Ports.CoreBatch
import Periplus.Ports.CoreDuplicates
import Periplus.Verified.Shelves

/-!
# The core as a cache of snapshots

Seen from outside, the five tables are one: for every cell nothing, or what was
obtained for it at its last load.  `snapshots` reads this off a state, and
`AbstractCache` is a machine that has only this and the ids registered so far.  LOAD
fills the empty ones of the nearest cells, up to the first request that fails, EVICT
empties the nearest cells, ADD registers ids, and the others do nothing.

## Main results

* `abstractOf_step` — every operation does on the tables what the abstract machine does.
* `search_from_snapshots` — a search hits when the abstract machine says so, and returns
  the best records of the full cells it probes.
-/

namespace Periplus.Ports

open Periplus.Verified
open Periplus.Verified.Memory
open Periplus.Verified.Run
open Periplus.Verified.TopK
open Periplus.Verified.Buckets
open Periplus.Verified.Shelves

/-- A record as a load obtained it, and the vector that was read from it. -/
structure Kept where
  vec : List F32
  record : Data
  deriving DecidableEq, Repr

/-- For every cell nothing, or the records of its last load; and the ids registered in
it. -/
structure AbstractCache (nCells : Nat) where
  shelves : Stock (Fin nCells) Kept
  ids : Fin nCells → List Bytes

def AbstractCache.empty {nCells : Nat} : AbstractCache nCells where
  shelves := fun _ => none
  ids := fun _ => []

namespace Core

variable {nCells : Nat} {δ : Type} [LinearOrder δ]

/-! ## The abstract machine -/

/-- What a load keeps of a slot: the record, when it belongs to the cell. -/
def keptOf (F : Faiss nCells δ) (c : Fin nCells) (x : Data) : Option Kept :=
  match x.readEmbedding F.d with
  | .ok v => if F.nearest v = some c then some ⟨v, x⟩ else none
  | .error _ => none

/-- What is obtained for a cell, unless the request fails. -/
def obtained (F : Faiss nCells δ) (db : Database nCells) (ids : Fin nCells → List Bytes)
    (c : Fin nCells) : Option (List Kept) :=
  match db c (ids c) with
  | .filled x => some (x.toList.filterMap (keptOf F c))
  | .httpException _ => none
  | .fault _ => none

/-- The ids that an operation registers in a cell. -/
def newIds (F : Faiss nCells δ) (op : Op nCells) (c : Fin nCells) : List Bytes :=
  (bucket (fun p => F.nearest p.2) c (registeredBy F op)).map Prod.fst

def abstractStep (F : Faiss nCells δ) (a : AbstractCache nCells) :
    Op nCells → AbstractCache nCells
  | .train => a
  | .add numDocs ids embeddings =>
      { a with ids := fun c => a.ids c ++ newIds F (.add numDocs ids embeddings) c }
  | .load xq nload db =>
      { a with shelves := Shelves.load (obtained F db a.ids)
                 (probed F (xq.take F.d) nload) a.shelves }
  | .evict xq nevict =>
      { a with shelves := Shelves.evict (probed F (xq.take F.d) nevict) a.shelves }
  | .search _ _ _ _ _ _ => a

/-- The abstract machine after a run. -/
def abstractRun (F : Faiss nCells δ) (ops : List (Op nCells)) : AbstractCache nCells :=
  ops.foldl (abstractStep F) .empty

/-! ## What a state stands for -/

/-- The record of an entry, with its vector. -/
def keptEntry (s : Core nCells) (e : Entry) : Kept := ⟨e.vec, s.recordOf e⟩

/-- What is in residence. -/
def snapshots (s : Core nCells) : Stock (Fin nCells) Kept := fun c =>
  if s.residenceStatuses c = -1 then none else some ((s.invlists c).map s.keptEntry)

def abstractOf (s : Core nCells) : AbstractCache nCells := ⟨s.snapshots, s.idsByCell⟩

theorem snapshots_isSome {s : Core nCells} {c : Fin nCells} :
    (s.snapshots c).isSome ↔ s.residenceStatuses c ≠ -1 := by
  unfold snapshots
  by_cases h : s.residenceStatuses c = -1 <;> simp [h]

theorem snapshots_of_status {s : Core nCells} {c : Fin nCells}
    (h : s.residenceStatuses c = -1) : s.snapshots c = none :=
  if_pos h

theorem keptEntry_congr {s s' : Core nCells} {e : Entry}
    (h : s'.dataMap e.num = s.dataMap e.num) : s'.keptEntry e = s.keptEntry e := by
  rw [keptEntry, keptEntry, recordOf, recordOf, h]

/-- Snapshots depend only on the cell. -/
theorem snapshots_congr {s s' : Core nCells} {c : Fin nCells}
    (hstatus : s'.residenceStatuses c = s.residenceStatuses c)
    (hlist : s'.invlists c = s.invlists c)
    (hdata : ∀ e ∈ s.invlists c, s'.dataMap e.num = s.dataMap e.num) :
    s'.snapshots c = s.snapshots c := by
  have hkept : (s.invlists c).map s'.keptEntry = (s.invlists c).map s.keptEntry :=
    List.map_congr_left (fun e he => keptEntry_congr (hdata e he))
  rw [snapshots, snapshots, hstatus, hlist, hkept]

theorem snapshots_of_sameStore {s s' : Core nCells} (h : SameStore s s') :
    s'.snapshots = s.snapshots := by
  funext c
  exact snapshots_congr (by rw [h.residenceStatuses]) (by rw [h.invlists])
    (fun e _ => by rw [h.dataMap])

/-! ## One cell loaded, one cell evicted -/

/-- The entries that are stored are the slots that are kept. -/
theorem accepted_kept {F : Faiss nCells δ} {c : Fin nCells} {idMap : Bytes → Option Nat}
    {xs : List Data} (h : ∀ x ∈ xs, ∃ o, verdict F c idMap x = .ok o) :
    (accepted F c idMap xs).map (fun e => (⟨e.vec, e.record⟩ : Kept)) =
      xs.filterMap (keptOf F c) := by
  induction xs with
  | nil => rfl
  | cons x xs ih =>
      rw [List.forall_mem_cons] at h
      obtain ⟨⟨o, ho⟩, hrest⟩ := h
      cases o with
      | none =>
          obtain ⟨v, hv, hfar⟩ := verdict_eq_none.mp ho
          have hkept : keptOf F c x = none := by
            rw [keptOf, hv]
            exact if_neg hfar
          rw [accepted_cons_none ho, List.filterMap_cons_none hkept, ih hrest]
      | some e =>
          obtain ⟨hv, hnear, _, hrecord⟩ := verdict_eq_some.mp ho
          have hkept : keptOf F c x = some ⟨e.vec, e.record⟩ := by
            rw [keptOf, hv, hrecord]
            exact if_pos hnear
          rw [accepted_cons_some ho, List.map_cons, List.filterMap_cons_some hkept, ih hrest]

theorem snapshots_loaded {F : Faiss nCells δ} {s s' : Core nCells} {c : Fin nCells}
    {xs : List Data} (hinv : StoreInv F s) (hempty : s.residenceStatuses c = -1)
    (h : Loaded F c xs s s') :
    s'.snapshots = Function.update s.snapshots c (some (xs.filterMap (keptOf F c))) := by
  funext c'
  by_cases hc : c' = c
  · subst hc
    have hstatus : s'.residenceStatuses c' ≠ -1 := by
      rw [h.residenceStatuses, Function.update_self]
      omega
    have hlist : s'.invlists c' = (accepted F c' s.idMap xs).map Stored.entry := by
      rw [h.invlists, Function.update_self, hinv.emptyLists c' hempty, List.nil_append]
    have hkept : ((accepted F c' s.idMap xs).map Stored.entry).map s'.keptEntry =
        (accepted F c' s.idMap xs).map (fun e => (⟨e.vec, e.record⟩ : Kept)) := by
      rw [List.map_map]
      refine List.map_congr_left (fun e he => ?_)
      have hdata : s'.dataMap e.entry.num = some e.record := h.dataMap_accepted he
      show (⟨e.vec, s'.recordOf e.entry⟩ : Kept) = _
      rw [recordOf, hdata, Option.getD_some]
    rw [Function.update_self, snapshots, if_neg hstatus, hlist, hkept, accepted_kept h.verdicts]
  · rw [Function.update_of_ne hc]
    refine snapshots_congr ?_ ?_ ?_
    · rw [h.residenceStatuses, Function.update_of_ne hc]
    · rw [h.invlists, Function.update_of_ne hc]
    · intro e he
      obtain ⟨x, hx, _⟩ := hinv.listed c' e he
      rw [h.dataMap_mono hx, hx]

theorem snapshots_evicted {F : Faiss nCells δ} {s : Core nCells} (hinv : StoreInv F s)
    (c : Fin nCells) : (s.evicted c).snapshots = Function.update s.snapshots c none := by
  funext c'
  by_cases hc : c' = c
  · subst hc
    rw [Function.update_self]
    refine snapshots_of_status ?_
    rw [evicted_residenceStatuses, Function.update_self]
  · rw [Function.update_of_ne hc]
    refine snapshots_congr ?_ ?_ ?_
    · rw [evicted_residenceStatuses, Function.update_of_ne hc]
    · rw [evicted_invlists, Function.update_of_ne hc]
    · intro e he
      have hnum : e.num ∉ (s.invlists c).map Entry.num := fun hmem =>
        hc (hinv.cell_unique (List.mem_map_of_mem he) hmem)
      rw [evicted_dataMap, if_neg hnum]

/-! ## The loops -/

/-- The labels of the cells nearest to a vector, and the padding behind them. -/
theorem assign_eq_probed (F : Faiss nCells δ) (v : List F32) (m : Nat) :
    ∃ p, F.assign v m =
      (probed F v m).map (fun c => (c.val : Int)) ++ List.replicate p (-1) :=
  ⟨_, F.assign_eq_append v m⟩

theorem loadCells_snapshots {F : Faiss nCells δ} {db : Database nCells}
    {cells : List (Fin nCells)} {p : Nat} {s : Core nCells} {exit : Exit (Core nCells)}
    (h : loadCells F db (cells.map (fun c => (c.val : Int)) ++ List.replicate p (-1)) s =
      .ok exit) (hnodup : cells.Nodup) (hinv : StoreInv F s) :
    exit.state.snapshots = Shelves.load (obtained F db s.idsByCell) cells s.snapshots := by
  induction cells generalizing s with
  | nil =>
      rw [List.map_nil, List.nil_append, loadCells_padding_eq_ok] at h
      rw [load_nil, h.2]
      rfl
  | cons c cells ih =>
      rw [List.nodup_cons] at hnodup
      rw [List.map_cons, List.cons_append, loadCells, cellAt_val, ok_bind] at h
      rw [load_cons hnodup.1]
      by_cases hstatus : s.residenceStatuses c > -1
      · rw [if_pos hstatus] at h
        have hfull : s.snapshots c = some ((s.invlists c).map s.keptEntry) :=
          if_neg (by omega)
        rw [hfull, Option.some_or]
        show _ = Shelves.load _ cells (Function.update s.snapshots c (some _))
        rw [← hfull, Function.update_eq_self]
        exact ih h hnodup.2 hinv
      · rw [if_neg hstatus] at h
        have hempty : s.residenceStatuses c = -1 := by
          have := hinv.statuses c
          omega
        rw [snapshots_of_status hempty, Option.none_or]
        obtain ⟨e, he, h⟩ := bind_eq_ok.mp h
        rcases loadCell_eq_ok.mp he with ⟨code, hdb, rfl⟩ | ⟨x, s', hdb, hload, rfl⟩
        · rw [obtained, hdb]
          rw [Except.ok.injEq] at h
          rw [← h]
          rfl
        · rw [obtained, hdb]
          show _ = Shelves.load _ cells (Function.update s.snapshots c _)
          rw [← snapshots_loaded hinv hempty hload, ← hload.registry.2.1]
          exact ih h hnodup.2 (hinv.loaded hload)

theorem evictCells_snapshots {F : Faiss nCells δ} {cells : List (Fin nCells)} {p : Nat}
    {s s' : Core nCells}
    (h : evictCells (cells.map (fun c => (c.val : Int)) ++ List.replicate p (-1)) s = .ok s')
    (hinv : StoreInv F s) : s'.snapshots = Shelves.evict cells s.snapshots := by
  induction cells generalizing s with
  | nil =>
      rw [List.map_nil, List.nil_append, evictCells_padding] at h
      by_cases hp : p = 0
      · rw [if_pos hp, Except.ok.injEq] at h
        rw [← h]
        rfl
      · rw [if_neg hp] at h
        exact absurd h (by simp)
  | cons c cells ih =>
      rw [List.map_cons, List.cons_append, evictCells, cellAt_val, ok_bind] at h
      rw [evict_cons]
      by_cases hstatus : s.residenceStatuses c < 0
      · rw [if_pos hstatus] at h
        have hempty : s.residenceStatuses c = -1 := by
          have := hinv.statuses c
          omega
        rw [← snapshots_of_status hempty, Function.update_eq_self]
        exact ih h hinv
      · rw [if_neg hstatus] at h
        obtain ⟨t, ht, h⟩ := bind_eq_ok.mp h
        obtain ⟨_, rfl⟩ := evictCell_eq_ok.mp ht
        rw [← snapshots_evicted hinv]
        exact ih h (hinv.evicted c)

/-! ## Refinement -/

/-- The ids of an ADD are appended to those of their cells. -/
theorem add_idsByCell {F : Faiss nCells δ} {docs : List Doc} {numDocs : Nat}
    {ids : List Bytes} {embeddings : List F32} {s s' : Core nCells}
    (h : s.add F numDocs ids embeddings = .ok s') (hreg : RegistryInv F docs s)
    (c : Fin nCells) :
    s'.idsByCell c = s.idsByCell c ++ newIds F (.add numDocs ids embeddings) c := by
  rw [(add_registers h hreg).1.cells c, bucket_append, List.map_append, ← hreg.cells c]
  rfl

/-- **Every operation does what the abstract machine does.** -/
theorem abstractOf_step {F : Faiss nCells δ} {docs : List Doc} {s s' : Core nCells}
    {op : Op nCells} (hinv : StoreInv F s) (hreg : RegistryInv F docs s)
    (h : step F s op = .ok s') : s'.abstractOf = abstractStep F s.abstractOf op := by
  cases op with
  | train =>
      rw [step, Except.ok.injEq] at h
      subst h
      rfl
  | add numDocs ids embeddings =>
      have hids : s'.idsByCell = fun c =>
          s.idsByCell c ++ newIds F (.add numDocs ids embeddings) c :=
        funext (fun c => add_idsByCell h hreg c)
      have hsnapshots := snapshots_of_sameStore (add_registers h hreg).2
      show (⟨s'.snapshots, s'.idsByCell⟩ : AbstractCache nCells) = ⟨s.snapshots, _⟩
      rw [hsnapshots, hids]
      rfl
  | load xq nload db =>
      rw [step] at h
      obtain ⟨exit, hexit, h⟩ := bind_eq_ok.mp h
      rw [Except.ok.injEq] at h
      subst h
      have hcells := (loadCellWithVec_registry hexit).1
      rw [loadCellWithVec] at hexit
      obtain ⟨labels, hlabels, hloop⟩ := bind_eq_ok.mp hexit
      obtain ⟨p, hp⟩ := assign_eq_probed F (xq.take F.d) nload
      rw [(quantizerSearch_one.mp hlabels).2.2, hp] at hloop
      have hsnapshots := loadCells_snapshots hloop
        ((F.ranked_nodup _).sublist (List.take_sublist _ _)) hinv
      show (⟨exit.state.snapshots, exit.state.idsByCell⟩ : AbstractCache nCells) = _
      rw [hsnapshots, hcells]
      rfl
  | evict xq nevict =>
      rw [step] at h
      have hcells := (evictCellWithVec_registry h).1
      rw [evictCellWithVec] at h
      obtain ⟨labels, hlabels, hloop⟩ := bind_eq_ok.mp h
      obtain ⟨p, hp⟩ := assign_eq_probed F (xq.take F.d) nevict
      rw [(quantizerSearch_one.mp hlabels).2.2, hp] at hloop
      have hsnapshots := evictCells_snapshots hloop hinv
      show (⟨s'.snapshots, s'.idsByCell⟩ : AbstractCache nCells) = _
      rw [hsnapshots, hcells]
      rfl
  | search n xq k nprobe requireAll data =>
      rw [step] at h
      obtain ⟨⟨t, _, _⟩, ht, h⟩ := bind_eq_ok.mp h
      rw [Except.ok.injEq] at h
      rw [← h, search_state ht]
      rfl

/-- After a run the tables stand for the state of the abstract machine. -/
theorem abstractOf_of_reaches {F : Faiss nCells δ} {ops : List (Op nCells)} {s : Core nCells}
    (h : Reaches F ops s) : s.abstractOf = abstractRun F ops := by
  refine simulation (fun s a => s.abstractOf = a) rfl ?_ h
  intro as s op s' a hrun hR hstep
  rw [← hR]
  exact abstractOf_step (storeInv_of_reaches hrun) (registryInv_of_reaches hrun) hstep

/-! ## Searching -/

/-- When the abstract machine reports a hit: all probed cells are full, or the nearest
one is. -/
def Hits (F : Faiss nCells δ) (a : AbstractCache nCells) (q : List F32) (nprobe : Nat) :
    (requireAll : Bool) → Prop
  | true => nprobe ≤ (F.ranked q).length ∧ ∀ c ∈ probed F q nprobe, (a.shelves c).isSome
  | false => ∃ c, F.nearest q = some c ∧ (a.shelves c).isSome

/-- What the abstract machine may answer on a hit: the best records of the full cells
among the probed ones, no two of them under one id. -/
structure Answers (F : Faiss nCells δ) (a : AbstractCache nCells) (q : List F32)
    (k nprobe : Nat) (answer : List Kept) : Prop where
  best : IsTopK (fun r => F.distance q r.vec) k (contents (probed F q nprobe) a.shelves) answer
  distinct : ∃ ids : List Bytes, ids.Nodup ∧
    List.Forall₂ (fun r id => r.record.idString = .ok id) answer ids

theorem cacheHit_hits {F : Faiss nCells δ} {s : Core nCells} (hinv : StoreInv F s)
    {q : List F32} {nprobe : Nat} (hprobe : nprobe ≠ 0) {requireAll hit : Bool}
    (h : s.cacheHit requireAll (F.assign q nprobe) = .ok hit) :
    hit = true ↔ Hits F s.abstractOf q nprobe requireAll := by
  cases requireAll with
  | true =>
      have hall := hinv.cacheHit_iff (q := q) hprobe
      rw [h, Except.ok.injEq] at hall
      rw [hall]
      show _ ∧ _ ↔ _ ∧ ∀ c ∈ probed F q nprobe, (s.snapshots c).isSome
      simp only [snapshots_isSome]
  | false =>
      rw [F.assign_eq_append] at h
      unfold Hits Faiss.nearest
      cases hranked : F.ranked q with
      | nil =>
          obtain ⟨m, rfl⟩ := Nat.exists_eq_succ_of_ne_zero hprobe
          rw [hranked, List.take_nil, List.map_nil, List.nil_append, List.length_nil, Nat.sub_zero,
            List.replicate_succ, cacheHit, cellAt_neg_one] at h
          exact absurd h (by simp)
      | cons c cells =>
          obtain ⟨m, rfl⟩ := Nat.exists_eq_succ_of_ne_zero hprobe
          rw [hranked, List.take_succ_cons, List.map_cons, List.cons_append, cacheHit,
            cellAt_val, ok_bind] at h
          have hstatus := hinv.statuses c
          have hfull : (∃ c', (c :: cells).head? = some c' ∧
              (s.abstractOf.shelves c').isSome) ↔ s.residenceStatuses c ≠ -1 := by
            show (∃ c', some c = some c' ∧ (s.snapshots c').isSome) ↔ _
            simp only [Option.some.injEq, exists_eq_left', snapshots_isSome]
          rw [hfull]
          by_cases hresident : s.residenceStatuses c > -1
          · rw [if_pos hresident, if_neg (by decide), Except.ok.injEq] at h
            rw [← h]
            exact ⟨fun _ => by omega, fun _ => rfl⟩
          · rw [if_neg hresident, Except.ok.injEq] at h
            rw [← h]
            exact ⟨fun h => absurd h (by decide), fun h => by omega⟩

/-- The full cells hold what the lists hold. -/
theorem contents_snapshots {F : Faiss nCells δ} {s : Core nCells} (hinv : StoreInv F s)
    (cells : List (Fin nCells)) :
    contents cells s.snapshots = (cells.flatMap s.invlists).map s.keptEntry := by
  have hcell : ∀ c, (s.snapshots c).getD [] = (s.invlists c).map s.keptEntry := by
    intro c
    unfold snapshots
    by_cases hstatus : s.residenceStatuses c = -1
    · rw [if_pos hstatus, hinv.emptyLists c hstatus]
      rfl
    · rw [if_neg hstatus, Option.getD_some]
  rw [contents, List.map_flatMap]
  exact List.flatMap_congr (fun c _ => hcell c)

/-- What is found stands for an answer of the abstract machine. -/
theorem found_answers {F : Faiss nCells δ} {s : Core nCells} (hinv : StoreInv F s)
    (q : List F32) (k nprobe : Nat) :
    Answers F s.abstractOf q k nprobe ((found F s nprobe q k).map s.keptEntry) where
  best := by
    show IsTopK _ k (contents (probed F q nprobe) s.snapshots) _
    rw [contents_snapshots hinv]
    exact (found_isTopK F s nprobe q k).map s.keptEntry (fun _ _ => rfl)
  distinct := by
    have hmem : ∀ e ∈ found F s nprobe q k, ∃ x id, s.dataMap e.num = some x ∧
        s.docOf e = (id, e.vec) ∧ x.idString = .ok id ∧ s.idMap id = some e.num := by
      intro e he
      obtain ⟨c, _, hlisted, _⟩ := hinv.found_stored he
      obtain ⟨x, hx, hrep, hnum⟩ := hinv.represents hlisted
      exact ⟨x, (s.docOf e).1, hx, rfl, hrep.id, hnum⟩
    refine ⟨(found F s nprobe q k).map (fun e => (s.docOf e).1), ?_, ?_⟩
    · -- the numbers found are distinct, and so are the ids they belong to
      obtain ⟨rest, hperm, _⟩ := (found_isTopK F s nprobe q k).split
      have hnums : ((found F s nprobe q k).map Entry.num).Nodup := by
        have hall := hinv.numbers_nodup (probed_nodup F q nprobe)
        rw [probed, ← (hperm.map Entry.num).nodup_iff, List.map_append] at hall
        exact (List.nodup_append.mp hall).1
      refine (hnums.of_map _).map_on ?_
      intro e he e' he' heq
      obtain ⟨_, id, _, hdoc, _, hnum⟩ := hmem e he
      obtain ⟨_, id', _, hdoc', _, hnum'⟩ := hmem e' he'
      rw [hdoc, hdoc'] at heq
      have hids : id = id' := heq
      rw [hids, hnum', Option.some.injEq] at hnum
      exact List.inj_on_of_nodup_map hnums he he' hnum.symm
    · rw [List.forall₂_map_left_iff, List.forall₂_map_right_iff, List.forall₂_same]
      intro e he
      obtain ⟨x, id, hx, hdoc, hid, _⟩ := hmem e he
      show (s.recordOf e).idString = .ok (s.docOf e).1
      rw [recordOf, hx, Option.getD_some, hdoc]
      exact hid

/-- **A search answers from the snapshots.**  After any run, a single query that comes
back reports a hit exactly when the abstract machine does, and then the slots hold an
answer of the abstract machine and are empty behind it.  It comes back when `nprobe`
cells can be ranked. -/
theorem search_from_snapshots (F : Faiss nCells δ) (ops : List (Op nCells)) (s : Core nCells)
    (hreach : Reaches F ops s) (xq : List F32) (k nprobe : Nat) (requireAll : Bool) :
    (∀ data s' data' hits,
      s.search F 1 xq k nprobe requireAll data = .ok (s', data', hits) →
      (¬ Hits F (abstractRun F ops) (xq.take F.d) nprobe requireAll ∧ hits = [-1]) ∨
      (Hits F (abstractRun F ops) (xq.take F.d) nprobe requireAll ∧
        ∃ answer, Answers F (abstractRun F ops) (xq.take F.d) k nprobe answer ∧
          hits = [(answer.length : Int)] ∧
          data'.take k =
            answer.map Kept.record ++ List.replicate (k - answer.length) ({} : Data))) ∧
    (F.d ≤ xq.length → 1 ≤ k → 1 ≤ nprobe → nprobe ≤ (F.ranked (xq.take F.d)).length →
      ∀ data : List Data, k ≤ data.length →
        ∃ r, s.search F 1 xq k nprobe requireAll data = .ok r) := by
  have hinv := (storeInv_of_reaches hreach).congr s.centroids nprobe
  rw [← abstractOf_of_reaches hreach]
  constructor
  · intro data s' data' hits hsearch
    obtain ⟨hprobe, hlen, _, m, rfl, hquery⟩ := search_one_eq_ok.mp hsearch
    rcases (searchQuery_eq_ok hinv).mp hquery with
      ⟨hmiss, _, rfl⟩ | ⟨hhit, q, hq, _, _, rfl, rfl⟩
    · rw [rowAt_assign] at hmiss
      left
      refine ⟨fun h => ?_, rfl⟩
      exact absurd ((cacheHit_hits hinv hprobe hmiss).mpr h) (by decide)
    · rw [rowAt_assign] at hhit
      rw [window_zero hlen, Option.some.injEq] at hq
      subst hq
      right
      refine ⟨(cacheHit_hits hinv hprobe hhit).mp rfl, _, found_answers hinv _ k nprobe, ?_, ?_⟩
      · rw [List.length_map]
      · have hrow := row_length F { s with nprobe := nprobe } nprobe (xq.take F.d) k
        rw [putRow, Nat.zero_mul, List.take_zero, List.nil_append, List.take_left' hrow, row,
          List.length_map, List.map_map]
        rfl
  · intro hlen hk hprobe hranked data hroom
    obtain ⟨c, cells, hcells⟩ := take_ranked_eq_cons hprobe hranked
    obtain ⟨hit, hhit⟩ := cacheHit_total { s with nprobe := nprobe } requireAll c cells
    rw [← assign_eq_map.mpr ⟨hranked, hcells.symm⟩, ← rowAt_assign] at hhit
    cases hit with
    | false =>
        exact ⟨_, search_one_eq_ok.mpr ⟨by omega, hlen, rfl, _, rfl, searchQuery_miss _ hhit⟩⟩
    | true =>
        exact ⟨_, search_one_eq_ok.mpr ⟨by omega, hlen, rfl, _, rfl,
          searchQuery_hit hinv hhit (window_zero hlen) (by omega) (by omega)⟩⟩

/-- A cell is loaded, and loaded again after its record has changed. -/
def changedRun : List (Op 1) :=
  [.add 1 [[97, 0]] [5],
    .load [5] 1 (.ofRecords fun id => ⟨id, [5], [1], []⟩),
    .load [5] 1 (.ofRecords fun id => ⟨id, [5], [2], []⟩)]

/-- The search returns the record as it was at the first load. -/
theorem search_from_snapshots_changedRun :
    ∃ s, Reaches (Faiss.discrete 1 1) changedRun s ∧
      ∃ s' data', s.search (Faiss.discrete 1 1) 1 [5] 1 1 true [{}] = .ok (s', data', [1]) ∧
        data' = [(⟨[97], [5], [1], []⟩ : Record).toData] ∧
        Hits (Faiss.discrete 1 1) (abstractRun (Faiss.discrete 1 1) changedRun) [5] 1 true := by
  obtain ⟨s, hs, s', data', hsearch, hdata⟩ :
      ∃ s, Reaches (Faiss.discrete 1 1) changedRun s ∧ ∃ s' data',
        s.search (Faiss.discrete 1 1) 1 [5] 1 1 true [{}] = .ok (s', data', [1]) ∧
          data' = [(⟨[97], [5], [1], []⟩ : Record).toData] := ⟨_, rfl, _, _, rfl, rfl⟩
  have hanswer := (search_from_snapshots (Faiss.discrete 1 1) changedRun s hs [5] 1 1 true).1
    [{}] s' data' [1] hsearch
  refine ⟨s, hs, s', data', hsearch, hdata, ?_⟩
  rcases hanswer with ⟨_, hmiss⟩ | ⟨hhit, _⟩
  · exact absurd hmiss (by decide)
  · exact hhit

end Core

end Periplus.Ports
