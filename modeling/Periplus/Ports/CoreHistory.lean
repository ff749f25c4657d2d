import Periplus.Ports.CoreEviction

/-!
# What is in residence does not depend on how it got there

Once the registry is fixed and the database has fixed contents, the tables are a
function of the set of cells in residence, up to the order inside the lists: every
state that loads and evictions lead to from a state without resident cells holds,
for each resident cell, what the database returns for it, and nothing else
(`Fetched`).  Two such states with the same resident cells agree (`Fetched.same`).

States that agree up to order cannot be told apart afterwards: every operation leads
from the one and from the other to states that agree again (`step_congr`), and the
searches give the same answers up to ties (`search_congr`).
-/

namespace Periplus.Ports

open Periplus.Verified
open Periplus.Verified.Memory
open Periplus.Verified.Run
open Periplus.Verified.Shelves
open Periplus.Verified.TopK

namespace Core

variable {nCells : Nat} {δ : Type} [LinearOrder δ]

/-! ## The same operation on states that agree up to order -/

theorem SameUpToOrder.evicted {s t : Core nCells} (h : SameUpToOrder s t) (c : Fin nCells) :
    SameUpToOrder (s.evicted c) (t.evicted c) where
  centroids := h.centroids
  residenceStatuses := by
    rw [evicted_residenceStatuses, evicted_residenceStatuses, h.residenceStatuses]
  nprobe := h.nprobe
  invlists := by
    intro c'
    rw [evicted_invlists, evicted_invlists]
    by_cases hc : c' = c
    · rw [hc, Function.update_self, Function.update_self]
    · rw [Function.update_of_ne hc, Function.update_of_ne hc]
      exact h.invlists c'
  nextId := h.nextId
  idsByCell := h.idsByCell
  dataMap := by
    funext num
    rw [evicted_dataMap, evicted_dataMap, h.dataMap]
    exact if_congr ((h.invlists c).map Entry.num).mem_iff rfl rfl
  idMap := h.idMap

theorem SameUpToOrder.evictedAll {s t : Core nCells} (h : SameUpToOrder s t)
    (cells : List (Fin nCells)) : SameUpToOrder (s.evictedAll cells) (t.evictedAll cells) := by
  induction cells generalizing s t with
  | nil => exact h
  | cons c cells ih => exact ih (h.evicted c)

theorem evictCellWithVec_congr {F : Faiss nCells δ} {s t s' : Core nCells} {q : List F32}
    {m : Nat} (hinv : StoreInv F s) (hinv' : StoreInv F t) (h : SameUpToOrder s t)
    (hs : s.evictCellWithVec F q m = .ok s') :
    ∃ t', t.evictCellWithVec F q m = .ok t' ∧ SameUpToOrder s' t' := by
  have hlabels := hs
  rw [evictCellWithVec] at hlabels
  obtain ⟨labels, hlabels, _⟩ := bind_eq_ok.mp hlabels
  obtain ⟨hm, hq, _⟩ := quantizerSearch_one.mp hlabels
  rw [evictCellWithVec_eq hinv hm hq] at hs
  rw [evictCellWithVec_eq hinv' hm hq]
  split at hs
  · next hranked =>
      rw [Except.ok.injEq] at hs
      rw [if_pos hranked, ← hs]
      exact ⟨_, rfl, h.evictedAll _⟩
  · exact absurd hs (by simp)

theorem loadCellWithVec_congr (F : Faiss nCells δ) (db : Database nCells) (q : List F32)
    (m : Nat) {s t : Core nCells} (h : SameUpToOrder s t) :
    SameExit (s.loadCellWithVec F db q m) (t.loadCellWithVec F db q m) := by
  rw [loadCellWithVec, loadCellWithVec]
  cases F.quantizerSearch 1 q m with
  | error f => exact .fault f
  | ok labels => exact loadCells_congr F db labels h

theorem SameUpToOrder.register {s t : Core nCells} (h : SameUpToOrder s t) (c : Fin nCells)
    (id : Bytes) : SameUpToOrder (s.register c id) (t.register c id) where
  centroids := h.centroids
  residenceStatuses := h.residenceStatuses
  nprobe := h.nprobe
  invlists := h.invlists
  nextId := by
    show s.nextId + 1 = t.nextId + 1
    rw [h.nextId]
  idsByCell := by
    show Function.update s.idsByCell c _ = Function.update t.idsByCell c _
    rw [h.idsByCell]
  dataMap := h.dataMap
  idMap := by
    show (if (s.idMap id).isSome then s.idMap else _) = if (t.idMap id).isSome then t.idMap else _
    rw [h.idMap, h.nextId]

theorem addAll_congr {labels : List Int} {ids : List Bytes} {s t s' : Core nCells}
    (h : SameUpToOrder s t) (hs : addAll labels ids s = .ok s') :
    ∃ t', addAll labels ids t = .ok t' ∧ SameUpToOrder s' t' := by
  induction labels generalizing ids s t with
  | nil =>
      simp only [addAll, Except.ok.injEq] at hs
      exact ⟨t, rfl, hs ▸ h⟩
  | cons label labels ih =>
      cases ids with
      | nil => exact absurd hs (by simp [addAll])
      | cons buf ids =>
          rw [addAll] at hs
          obtain ⟨u, hu, hs⟩ := bind_eq_ok.mp hs
          obtain ⟨hterm, hnext, c, id, hlabel, hid, rfl⟩ := addOne_eq_ok.mp hu
          have hone : addOne label buf t = .ok (t.register c id) :=
            addOne_eq_ok.mpr ⟨hterm, h.nextId ▸ hnext, c, id, hlabel, hid, rfl⟩
          rw [addAll, hone, ok_bind]
          exact ih (h.register c id) hs

/-! ## Searching states that agree up to order -/

theorem cacheHit_congr {s t : Core nCells} (h : s.residenceStatuses = t.residenceStatuses)
    (requireAll : Bool) (row : List Int) :
    s.cacheHit requireAll row = t.cacheHit requireAll row := by
  have hall : ∀ labels, s.allInResidence labels = t.allInResidence labels := by
    intro labels
    induction labels with
    | nil => rfl
    | cons label labels ih => rw [allInResidence, allInResidence, h, ih]
  cases row with
  | nil => rfl
  | cons label labels => rw [cacheHit, cacheHit, hall, h]

/-- As many entries are found, whatever their order. -/
theorem found_length_congr (F : Faiss nCells δ) {s t : Core nCells} (h : SameUpToOrder s t)
    (nprobe : Nat) (q : List F32) (k : Nat) :
    (found F s nprobe q k).length = (found F t nprobe q k).length := by
  have hlists : (((F.ranked q).take nprobe).flatMap s.invlists).Perm
      (((F.ranked q).take nprobe).flatMap t.invlists) :=
    List.Perm.flatMap_left _ (fun c _ => h.invlists c)
  rw [(found_isTopK F s nprobe q k).length, (found_isTopK F t nprobe q k).length,
    hlists.length_eq]

theorem searchQueries_congr {F : Faiss nCells δ} {xq : List F32} {k nprobe : Nat}
    {requireAll : Bool} {labels : List Int} {s t : Core nCells} (hinv : StoreInv F s)
    (hinv' : StoreInv F t) (h : SameUpToOrder s t) {is : List Nat}
    {data data' slots : List Data} {hits : List Int} (hlen : data'.length = data.length)
    (hs : searchQueries F xq k nprobe requireAll labels s is data = .ok (slots, hits)) :
    ∃ slots', searchQueries F xq k nprobe requireAll labels t is data' =
      .ok (slots', hits) := by
  induction is generalizing data data' slots hits with
  | nil =>
      simp only [searchQueries, Except.ok.injEq, Prod.mk.injEq] at hs
      exact ⟨data', by rw [searchQueries, hs.2]⟩
  | cons i is ih =>
      rw [searchQueries] at hs
      obtain ⟨⟨mid, first⟩, hfirst, hs⟩ := bind_eq_ok.mp hs
      obtain ⟨⟨last, rest⟩, hrest, hs⟩ := bind_eq_ok.mp hs
      simp only [Except.ok.injEq, Prod.mk.injEq] at hs
      -- the same query on the other state, with as many slots behind it
      obtain ⟨mid', hmid, hlen'⟩ : ∃ mid',
          searchQuery F xq k nprobe requireAll labels t i data' = .ok (mid', first) ∧
            mid'.length = mid.length := by
        have hframe := (searchQuery_frame hinv hfirst).1
        have hhit := cacheHit_congr h.residenceStatuses requireAll (rowAt nprobe i labels)
        rcases (searchQuery_eq_ok hinv).mp hfirst with
          ⟨hmiss, _, rfl⟩ | ⟨hin, q, hq, hk, hroom, _, rfl⟩
        · rw [hhit] at hmiss
          exact ⟨data', searchQuery_miss data' hmiss, hlen.trans hframe.symm⟩
        · rw [hhit] at hin
          rw [← hlen] at hroom
          have hother := searchQuery_hit hinv' hin hq hk hroom
          rw [found_length_congr F h]
          exact ⟨_, hother, (searchQuery_frame hinv' hother).1.trans (hlen.trans hframe.symm)⟩
      obtain ⟨slots', hslots⟩ := ih hlen' hrest
      refine ⟨slots', ?_⟩
      rw [searchQueries, hmid]
      simp only [ok_bind, hslots, hs.2]

theorem SameUpToOrder.probe {s t : Core nCells} (h : SameUpToOrder s t) (nprobe : Nat) :
    SameUpToOrder { s with nprobe := nprobe } { t with nprobe := nprobe } :=
  ⟨h.centroids, h.residenceStatuses, rfl, h.invlists, h.nextId, h.idsByCell, h.dataMap, h.idMap⟩

/-- **The same search** on states that agree up to order: the same counts. -/
theorem search_congr {F : Faiss nCells δ} {s t s' : Core nCells} (hinv : StoreInv F s)
    (hinv' : StoreInv F t) (h : SameUpToOrder s t) {n k nprobe : Nat} {xq : List F32}
    {requireAll : Bool} {data slots : List Data} {hits : List Int}
    (hs : s.search F n xq k nprobe requireAll data = .ok (s', slots, hits)) :
    ∃ t' slots', t.search F n xq k nprobe requireAll data = .ok (t', slots', hits) ∧
      SameUpToOrder s' t' := by
  have hstate := search_state hs
  rw [search] at hs
  obtain ⟨labels, hlabels, hs⟩ := bind_eq_ok.mp hs
  obtain ⟨⟨slots₁, hits₁⟩, hloop, hs⟩ := bind_eq_ok.mp hs
  simp only [Except.ok.injEq, Prod.mk.injEq] at hs
  obtain ⟨slots', hslots⟩ := searchQueries_congr (hinv.congr s.centroids nprobe)
    (hinv'.congr t.centroids nprobe) (h.probe nprobe) rfl hloop
  refine ⟨{ t with nprobe := nprobe }, slots', ?_, ?_⟩
  · rw [search, hlabels, ok_bind, hslots, ← hs.2.2]
    rfl
  · rw [hstate]
    exact h.probe nprobe

/-- Two rows of slots that answer one query of the same contents: the records of the
best entries, in order of their distances, and empty slots behind them. -/
def TiedRows (F : Faiss nCells δ) (a : AbstractCache nCells) (q : List F32) (k nprobe : Nat)
    (hits : Int) (r r' : List Data) : Prop :=
  ∃ answer answer' : List Kept,
    Answers F a q k nprobe answer ∧ Answers F a q k nprobe answer' ∧
      answer.map (fun x => F.distance q x.vec) = answer'.map (fun x => F.distance q x.vec) ∧
      hits = answer.length ∧
      r = answer.map Kept.record ++ List.replicate (k - answer.length) ({} : Data) ∧
      r' = answer'.map Kept.record ++ List.replicate (k - answer'.length) ({} : Data)

/-- The cells hold the same records. -/
theorem contents_congr {F : Faiss nCells δ} {s t : Core nCells} (hinv : StoreInv F s)
    (hinv' : StoreInv F t) (h : SameUpToOrder s t) (cells : List (Fin nCells)) :
    (contents cells s.snapshots).Perm (contents cells t.snapshots) := by
  have hkept : s.keptEntry = t.keptEntry := by
    funext e
    exact keptEntry_congr (by rw [h.dataMap])
  rw [contents_snapshots hinv, contents_snapshots hinv', hkept]
  exact (List.Perm.flatMap_left _ (fun c _ => h.invlists c)).map _

theorem row_eq_kept (F : Faiss nCells δ) (s : Core nCells) (nprobe : Nat) (q : List F32)
    (k : Nat) : row F s nprobe q k =
      ((found F s nprobe q k).map s.keptEntry).map Kept.record ++
        List.replicate (k - ((found F s nprobe q k).map s.keptEntry).length) ({} : Data) := by
  rw [row, List.map_map, List.length_map]
  rfl

/-- **Searches of states that agree up to order** miss together, and answer with the same
distances from the same contents. -/
theorem search_tied {F : Faiss nCells δ} {s t s' t' : Core nCells} (hinv : StoreInv F s)
    (hinv' : StoreInv F t) (h : SameUpToOrder s t) {n k nprobe : Nat} {xq : List F32}
    {requireAll : Bool} {data slots slots' : List Data} {hits : List Int}
    (hs : s.search F n xq k nprobe requireAll data = .ok (s', slots, hits))
    (ht : t.search F n xq k nprobe requireAll data = .ok (t', slots', hits)) {i : Nat}
    (hi : i < n) :
    ∃ m, hits[i]? = some m ∧ (m = -1 ∨ ∃ q, window xq i F.d = some q ∧
      TiedRows F s.abstractOf q k nprobe m (rowAt k i slots) (rowAt k i slots')) := by
  obtain ⟨_, labels, hlabels⟩ := labels_of_search hs
  obtain ⟨m, hm, hanswer⟩ := search_batch_answer hinv hlabels hs hi
  obtain ⟨m', hm', hanswer'⟩ := search_batch_answer hinv' hlabels ht hi
  rw [hm, Option.some.injEq] at hm'
  subst hm'
  refine ⟨m, hm, ?_⟩
  rcases hanswer with ⟨_, hmiss⟩ | ⟨_, q, hq, _, hrow, hcount⟩
  · exact Or.inl hmiss
  rcases hanswer' with ⟨_, hmiss⟩ | ⟨_, q', hq', _, hrow', _⟩
  · exact Or.inl hmiss
  rw [hq, Option.some.injEq] at hq'
  subst hq'
  have hprobe := hinv.congr s.centroids nprobe
  have hprobe' := hinv'.congr t.centroids nprobe
  have hfirst := found_answers hprobe q k nprobe
  have hsecond := found_answers hprobe' q k nprobe
  have hbest : IsTopK (fun x : Kept => F.distance q x.vec) k
      (contents (probed F q nprobe) s.snapshots)
      ((found F { t with nprobe := nprobe } nprobe q k).map
        (Core.keptEntry { t with nprobe := nprobe })) :=
    hsecond.best.perm (contents_congr hinv' hinv h.symm _)
  refine Or.inr ⟨q, hq, _, _, hfirst, ⟨hbest, hsecond.distinct⟩, hfirst.best.keys_eq hbest, ?_,
    ?_, ?_⟩
  · rw [hcount, List.length_map]
  · rw [hrow, row_eq_kept]
  · rw [hrow', row_eq_kept]

/-! ## Any operation, and any run -/

/-- **States that agree up to order** are led to such states by every operation. -/
theorem step_congr {F : Faiss nCells δ} {s t s' : Core nCells} {op : Op nCells}
    (hinv : StoreInv F s) (hinv' : StoreInv F t) (h : SameUpToOrder s t)
    (hs : step F s op = .ok s') : ∃ t', step F t op = .ok t' ∧ SameUpToOrder s' t' := by
  cases op with
  | train =>
      rw [step, Except.ok.injEq] at hs
      refine ⟨t.train F, rfl, ?_⟩
      rw [← hs]
      exact ⟨rfl, h.residenceStatuses, h.nprobe, h.invlists, h.nextId, h.idsByCell, h.dataMap,
        h.idMap⟩
  | add numDocs ids embeddings =>
      rw [step, add] at hs
      obtain ⟨labels, hlabels, hs⟩ := bind_eq_ok.mp hs
      rw [step, add, hlabels, ok_bind]
      exact addAll_congr h hs
  | load q m db =>
      rw [step] at hs ⊢
      obtain ⟨exit, hexit, hs⟩ := bind_eq_ok.mp hs
      rw [Except.ok.injEq] at hs
      subst hs
      have hsame := loadCellWithVec_congr F db q m h
      rw [hexit] at hsame
      generalize t.loadCellWithVec F db q m = y at hsame ⊢
      cases hsame with
      | returns hagree => exact ⟨_, rfl, hagree⟩
      | throwsHttp code hagree => exact ⟨_, rfl, hagree⟩
  | evict q m =>
      rw [step] at hs ⊢
      exact evictCellWithVec_congr hinv hinv' h hs
  | search n xq k nprobe requireAll data =>
      rw [step] at hs ⊢
      obtain ⟨⟨s₁, slots, hits⟩, hsearch, hs⟩ := bind_eq_ok.mp hs
      simp only [Except.ok.injEq] at hs
      subst hs
      obtain ⟨t₁, slots', hsearch', hagree⟩ := search_congr hinv hinv' h hsearch
      refine ⟨t₁, ?_, hagree⟩
      rw [hsearch']
      rfl

theorem run_congr {F : Faiss nCells δ} {ops : List (Op nCells)} {s t s' : Core nCells}
    (hinv : StoreInv F s) (hinv' : StoreInv F t) (h : SameUpToOrder s t)
    (hs : run (step F) s ops = .ok s') :
    ∃ t', run (step F) t ops = .ok t' ∧ StoreInv F s' ∧ StoreInv F t' ∧ SameUpToOrder s' t' := by
  induction ops generalizing s t with
  | nil =>
      rw [run_nil, Except.ok.injEq] at hs
      exact ⟨t, rfl, hs ▸ hinv, hinv', hs ▸ h⟩
  | cons op ops ih =>
      cases hstep : step F s op with
      | error f => simp [run_cons_error hstep] at hs
      | ok s₁ =>
          rw [run_cons_ok hstep] at hs
          obtain ⟨t₁, hstep', hagree⟩ := step_congr hinv hinv' h hstep
          rw [run_cons_ok hstep']
          exact ih (hinv.step hstep) (hinv'.step hstep') hagree hs

/-! ## What loads and evictions can lead to -/

/-- A LOAD from a database with the contents of `good`, or an EVICT. -/
def Moves (good : Database nCells) : Op nCells → Prop
  | .load _ _ db => AnswersLike good db
  | .evict _ _ => True
  | .train => False
  | .add _ _ _ => False
  | .search _ _ _ _ _ _ => False

/-- What the database has for a cell: the entries that a load of it stores. -/
def fetched (F : Faiss nCells δ) (good : Database nCells) (ids : Fin nCells → List Bytes)
    (idMap : Bytes → Option Nat) (c : Fin nCells) : List Stored :=
  match good c (ids c) with
  | .filled x => accepted F c idMap x.toList
  | .httpException _ => []
  | .fault _ => []

/-- The resident cells of `t` hold what the database has for them, and there is nothing
else; the registry is that of `s`. -/
structure Fetched (F : Faiss nCells δ) (good : Database nCells) (s t : Core nCells) :
    Prop where
  store : StoreInv F t
  centroids : t.centroids = s.centroids
  nprobe : t.nprobe = s.nprobe
  nextId : t.nextId = s.nextId
  idsByCell : t.idsByCell = s.idsByCell
  idMap : t.idMap = s.idMap
  resident : ∀ c, t.residenceStatuses c ≠ -1 →
    t.residenceStatuses c = (s.idsByCell c).length ∧
      (t.invlists c).Perm ((fetched F good s.idsByCell s.idMap c).map Stored.entry) ∧
      ∀ e ∈ fetched F good s.idsByCell s.idMap c, t.dataMap e.num = some e.record

theorem Fetched.refl {F : Faiss nCells δ} (good : Database nCells) {s : Core nCells}
    (hinv : StoreInv F s) (hempty : ∀ c, s.residenceStatuses c = -1) :
    Fetched F good s s where
  store := hinv
  centroids := rfl
  nprobe := rfl
  nextId := rfl
  idsByCell := rfl
  idMap := rfl
  resident := fun c hc => absurd (hempty c) hc

/-- The entries of an answer are those the database has for the cell. -/
theorem accepted_perm_fetched {F : Faiss nCells δ} {good db : Database nCells}
    (hdb : AnswersLike good db) {c : Fin nCells} {ids : Fin nCells → List Bytes}
    {x : Vector Data (ids c).length} (hx : db c (ids c) = .filled x)
    (idMap : Bytes → Option Nat) :
    (accepted F c idMap x.toList).Perm (fetched F good ids idMap c) := by
  obtain ⟨x', hx', hperm⟩ := hdb c _ x hx
  rw [fetched, hx']
  exact hperm.filterMap _

/-- Loading a cell that is not in residence. -/
theorem Fetched.loaded {F : Faiss nCells δ} {good db : Database nCells} {s t t' : Core nCells}
    (h : Fetched F good s t) (hdb : AnswersLike good db) {c : Fin nCells}
    (hempty : t.residenceStatuses c = -1) {x : Vector Data (t.idsByCell c).length}
    (hx : db c (t.idsByCell c) = .filled x) (hload : Loaded F c x.toList t t') :
    Fetched F good s t' := by
  have hframe := insertAll_frame F (accepted F c t.idMap x.toList) t
  have hsame : fetched F good t.idsByCell t.idMap c = fetched F good s.idsByCell s.idMap c := by
    rw [h.idsByCell, h.idMap]
  have haccepted := accepted_perm_fetched (F := F) hdb hx t.idMap
  rw [hsame] at haccepted
  have hreg := hload.registry
  refine
    { store := h.store.loaded hload
      centroids := by rw [hload.eq]; exact hframe.1.trans h.centroids
      nprobe := by rw [hload.eq]; exact hframe.2.2.1.trans h.nprobe
      nextId := hreg.1.trans h.nextId
      idsByCell := hreg.2.1.trans h.idsByCell
      idMap := hreg.2.2.trans h.idMap
      resident := ?_ }
  intro c' hc'
  by_cases hc : c' = c
  · subst hc
    have hcount : ((t.idsByCell c').length : Int) = (s.idsByCell c').length := by
      rw [h.idsByCell]
    rw [hload.residenceStatuses, hload.invlists, Function.update_self, Function.update_self,
      h.store.emptyLists c' hempty, List.nil_append]
    exact ⟨hcount, haccepted.map Stored.entry,
      fun e he => hload.dataMap_accepted (haccepted.symm.subset he)⟩
  · rw [hload.residenceStatuses, Function.update_of_ne hc] at hc' ⊢
    obtain ⟨hstatus, hlist, hdata⟩ := h.resident c' hc'
    rw [hload.invlists, Function.update_of_ne hc]
    exact ⟨hstatus, hlist, fun e he => hload.dataMap_mono (hdata e he)⟩

/-- Evicting a cell. -/
theorem Fetched.evicted {F : Faiss nCells δ} {good : Database nCells} {s t : Core nCells}
    (h : Fetched F good s t) (c : Fin nCells) : Fetched F good s (t.evicted c) where
  store := h.store.evicted c
  centroids := h.centroids
  nprobe := h.nprobe
  nextId := h.nextId
  idsByCell := h.idsByCell
  idMap := h.idMap
  resident := by
    intro c' hc'
    have hc : c' ≠ c := by
      rintro rfl
      rw [evicted_residenceStatuses, Function.update_self] at hc'
      exact hc' rfl
    rw [evicted_residenceStatuses, Function.update_of_ne hc] at hc' ⊢
    obtain ⟨hstatus, hlist, hdata⟩ := h.resident c' hc'
    rw [evicted_invlists, Function.update_of_ne hc]
    refine ⟨hstatus, hlist, ?_⟩
    intro e he
    have hmem : e.num ∈ t.numbers c' := by
      have hnums := hlist.map Entry.num
      rw [List.map_map] at hnums
      exact hnums.symm.subset (List.mem_map_of_mem (f := Entry.num ∘ Stored.entry) he)
    have hnot : e.num ∉ (t.invlists c).map Entry.num :=
      fun hin => hc (h.store.cell_unique hmem hin)
    rw [evicted_dataMap, if_neg hnot]
    exact hdata e he

theorem Fetched.step {F : Faiss nCells δ} {good : Database nCells} {s t t' : Core nCells}
    {op : Op nCells} (h : Fetched F good s t) (hop : Moves good op)
    (ht : step F t op = .ok t') : Fetched F good s t' := by
  cases op with
  | train => exact absurd hop id
  | add numDocs ids embeddings => exact absurd hop id
  | search n xq k nprobe requireAll data => exact absurd hop id
  | load q m db =>
      rw [Core.step] at ht
      obtain ⟨exit, hexit, ht⟩ := bind_eq_ok.mp ht
      rw [Except.ok.injEq] at ht
      subst ht
      apply loadCellWithVec_rule (P := Fetched F good s) _ hexit h
      intro u u' c x hu hstatus hx hload
      have hempty := hu.store.statuses c
      exact hu.loaded hop (by omega) hx hload
  | evict q m =>
      rw [Core.step] at ht
      exact evictCellWithVec_rule (fun u c hu _ => hu.evicted c) ht h

theorem Fetched.run {F : Faiss nCells δ} {good : Database nCells} {ops : List (Op nCells)}
    {s t t' : Core nCells} (h : Fetched F good s t) (hops : ∀ op ∈ ops, Moves good op)
    (ht : run (Core.step F) t ops = .ok t') : Fetched F good s t' := by
  induction ops generalizing t with
  | nil =>
      rw [run_nil, Except.ok.injEq] at ht
      exact ht ▸ h
  | cons op ops ih =>
      rw [List.forall_mem_cons] at hops
      cases hstep : Core.step F t op with
      | error f => simp [run_cons_error hstep] at ht
      | ok u =>
          rw [run_cons_ok hstep] at ht
          exact ih (h.step hops.1 hstep) hops.2 ht

/-- **The resident cells determine the tables.** -/
theorem Fetched.same {F : Faiss nCells δ} {good : Database nCells} {s t t' : Core nCells}
    (h : Fetched F good s t) (h' : Fetched F good s t')
    (hcells : ∀ c, t.residenceStatuses c = -1 ↔ t'.residenceStatuses c = -1) :
    SameUpToOrder t t' := by
  have hdata : ∀ {u u' : Core nCells}, Fetched F good s u → Fetched F good s u' →
      (∀ c, u.residenceStatuses c = -1 ↔ u'.residenceStatuses c = -1) →
      ∀ num x, u.dataMap num = some x → u'.dataMap num = some x := by
    intro u u' hu hu' hsame num x hx
    obtain ⟨c, hnum⟩ := hu.store.stored num x hx
    have hresident : u.residenceStatuses c ≠ -1 := by
      intro hempty
      rw [numbers, hu.store.emptyLists c hempty] at hnum
      exact absurd hnum List.not_mem_nil
    obtain ⟨_, hlist, hrecords⟩ := hu.resident c hresident
    obtain ⟨e, he, rfl⟩ := List.mem_map.mp hnum
    obtain ⟨e', he', rfl⟩ := List.mem_map.mp (hlist.subset he)
    have hrecord : u.dataMap e'.num = some x := hx
    rw [hrecords e' he', Option.some.injEq] at hrecord
    have hresident' := (not_congr (hsame c)).mp hresident
    rw [← hrecord]
    exact (hu'.resident c hresident').2.2 e' he'
  exact
    { centroids := h.centroids.trans h'.centroids.symm
      residenceStatuses := by
        funext c
        by_cases hc : t.residenceStatuses c = -1
        · rw [hc, (hcells c).mp hc]
        · rw [(h.resident c hc).1, (h'.resident c ((not_congr (hcells c)).mp hc)).1]
      nprobe := h.nprobe.trans h'.nprobe.symm
      invlists := by
        intro c
        by_cases hc : t.residenceStatuses c = -1
        · rw [h.store.emptyLists c hc, h'.store.emptyLists c ((hcells c).mp hc)]
        · exact (h.resident c hc).2.1.trans
            (h'.resident c ((not_congr (hcells c)).mp hc)).2.1.symm
      nextId := h.nextId.trans h'.nextId.symm
      idsByCell := h.idsByCell.trans h'.idsByCell.symm
      dataMap := by
        funext num
        apply Option.ext
        intro x
        exact ⟨hdata h h' hcells num x, hdata h' h (fun c => (hcells c).symm) num x⟩
      idMap := h.idMap.trans h'.idMap.symm }

/-! ## Loads that succeed -/

/-- A database that answers every request, one record for each id. -/
def Serves (F : Faiss nCells δ) (ops : List (Op nCells)) (s : Core nCells)
    (db : Database nCells) : Prop :=
  ∀ c, ∃ x, db c (s.idsByCell c) = .filled x ∧
    Faithful F (registered F ops) (s.idsByCell c) (.filled x)

/-- The vector can be compared with so many centroids. -/
structure Rankable (F : Faiss nCells δ) (q : List F32) (m : Nat) : Prop where
  pos : 1 ≤ m
  length : F.d ≤ q.length
  ranked : m ≤ (F.ranked (q.take F.d)).length

/-- The order of an answer does not matter. -/
theorem Faithful.perm {F : Faiss nCells δ} {docs : List Doc} {ids : List Bytes}
    {x x' : Vector Data ids.length} (h : Faithful F docs ids (.filled x))
    (hperm : x'.toList.Perm x.toList) : Faithful F docs ids (.filled x') := by
  obtain ⟨ds, hkeys, hds, hrep⟩ := h
  obtain ⟨ds', hrep', hperm'⟩ := List.perm_comp_forall₂ hperm hrep
  exact ⟨ds', (hperm'.map Prod.fst).trans hkeys, fun p hp => hds p (hperm'.subset hp), hrep'⟩

/-- The lists hold everything that is registered in the resident cells. -/
theorem Fetched.snapshot {F : Faiss nCells δ} {good : Database nCells} {ops : List (Op nCells)}
    {s t : Core nCells} (h : Fetched F good s t) (hids : DistinctIds F ops)
    (hreg : RegistryInv F (registered F ops) s) (hgood : Serves F ops s good) :
    Snapshot F ops t := by
  intro c
  by_cases hc : t.residenceStatuses c = -1
  · rw [h.store.emptyLists c hc]
    exact List.Perm.refl _
  · obtain ⟨x, hx, hfaithful⟩ := hgood c
    obtain ⟨_, hlist, hdata⟩ := h.resident c hc
    rw [fetched, hx] at hlist hdata
    dsimp only at hlist hdata
    have hdoc : ((accepted F c s.idMap x.toList).map Stored.entry).map t.docOf =
        (accepted F c s.idMap x.toList).map Stored.doc := by
      rw [List.map_map]
      apply List.map_congr_left
      intro e he
      obtain ⟨_, _, _, id, hid, _⟩ := accepted_spec he
      have hentry : t.dataMap e.entry.num = some e.record := hdata e he
      show t.docOf e.entry = e.doc
      rw [docOf_of_dataMap hentry hid, Stored.doc, hid]
      rfl
    have hperm : ((t.invlists c).map t.docOf).Perm (registeredIn F ops c) := by
      have hall := hlist.map t.docOf
      rw [hdoc] at hall
      exact hall.trans (hfaithful.accepted_perm hreg hids)
    have hlen := hperm.length_eq
    rw [List.length_map] at hlen
    rw [hlen, List.take_length]
    exact hperm

/-- **A load from a database that serves every request succeeds.** -/
theorem Fetched.load_returns {F : Faiss nCells δ} {good db : Database nCells}
    {ops : List (Op nCells)} {s t : Core nCells} (h : Fetched F good s t)
    (hids : DistinctIds F ops) (hreg : RegistryInv F (registered F ops) s)
    (hgood : Serves F ops s good) (hdb : Serves F ops s db) {q : List F32} {m : Nat}
    (hq : Rankable F q m) : ∃ t', t.loadCellWithVec F db q m = .ok (.returns t') := by
  have hserves : Serves F ops t db := by
    intro c
    rw [h.idsByCell]
    exact hdb c
  have hm : m ≠ 0 := by
    have := hq.pos
    omega
  rw [loadCellWithVec, quantizerSearch_one.mpr ⟨hm, hq.length, rfl⟩, ok_bind,
    assign_eq_map.mpr ⟨hq.ranked, rfl⟩]
  exact loadCells_returns hids h.store (hreg.congr h.idsByCell h.idMap)
    (h.snapshot hids hreg hgood) hserves

/-- The resident cells after a load. -/
theorem load_resident_iff {F : Faiss nCells δ} {ops : List (Op nCells)} {db : Database nCells}
    {q : List F32} {m : Nat} {s s' : Core nCells} (hreach : Reaches F ops s)
    (h : s.loadCellWithVec F db q m = .ok (.returns s')) (c : Fin nCells) :
    s'.residenceStatuses c ≠ -1 ↔
      s.residenceStatuses c ≠ -1 ∨ c ∈ probed F (q.take F.d) m := by
  have hinv := storeInv_of_reaches hreach
  obtain ⟨_, hkeep, hin⟩ := resident_step hinv (registryInv_of_reaches hreach) (step_load h) c
  constructor
  · intro hc
    by_cases hold : s.residenceStatuses c = -1
    · exact Or.inr (hin hold hc)
    · exact Or.inl hold
  · intro hc
    cases hc with
    | inl hold => exact hkeep id hold
    | inr hnamed => exact (loadCellWithVec_resident h hinv).2 c hnamed

/-- Loading cells that are in residence changes nothing. -/
theorem loadCells_of_resident {F : Faiss nCells δ} {db : Database nCells}
    {cells : List (Fin nCells)} {s : Core nCells}
    (h : ∀ c ∈ cells, s.residenceStatuses c > -1) :
    loadCells F db (cells.map (fun c => (c.val : Int))) s = .ok (.returns s) := by
  induction cells with
  | nil => rfl
  | cons c cells ih =>
      rw [List.forall_mem_cons] at h
      rw [List.map_cons, loadCells, cellAt_val, ok_bind, if_pos h.1]
      exact ih h.2

/-- **A repeated LOAD changes nothing**, whatever the database answers by then. -/
theorem load_again {F : Faiss nCells δ} {db : Database nCells} {q : List F32} {m : Nat}
    {s s' : Core nCells} (hinv : StoreInv F s)
    (h : s.loadCellWithVec F db q m = .ok (.returns s')) (db' : Database nCells) :
    s'.loadCellWithVec F db' q m = .ok (.returns s') := by
  have hinv' : StoreInv F s' := hinv.step (step_load h)
  obtain ⟨hranked, hresident⟩ := loadCellWithVec_resident h hinv
  rw [loadCellWithVec] at h
  obtain ⟨labels, hlabels, _⟩ := bind_eq_ok.mp h
  obtain ⟨hm, hq, _⟩ := quantizerSearch_one.mp hlabels
  rw [loadCellWithVec, quantizerSearch_one.mpr ⟨hm, hq, rfl⟩, ok_bind,
    assign_eq_map.mpr ⟨hranked, rfl⟩]
  apply loadCells_of_resident
  intro c hc
  have := hresident c hc
  have := hinv'.statuses c
  omega

/-- The searches of `t` and `u` give the same answers up to ties. -/
def SearchedAlike (F : Faiss nCells δ) (t u : Core nCells) : Prop :=
  ∀ n xq k nprobe requireAll data t' slots hits,
    t.search F n xq k nprobe requireAll data = .ok (t', slots, hits) →
    ∃ u' slots', u.search F n xq k nprobe requireAll data = .ok (u', slots', hits) ∧
      ∀ i < n, ∃ h, hits[i]? = some h ∧ (h = -1 ∨ ∃ q, window xq i F.d = some q ∧
        TiedRows F t.abstractOf q k nprobe h (rowAt k i slots) (rowAt k i slots'))

theorem SameUpToOrder.searchedAlike {F : Faiss nCells δ} {t u : Core nCells}
    (h : SameUpToOrder t u) (hinv : StoreInv F t) (hinv' : StoreInv F u) :
    SearchedAlike F t u := by
  intro n xq k nprobe requireAll data t' slots hits hs
  obtain ⟨u', slots', hu, _⟩ := search_congr hinv hinv' h hs
  exact ⟨u', slots', hu, fun i hi => search_tied hinv hinv' h hs hu hi⟩

/-- **What is in residence does not depend on the history of loads and evictions.**  From
a state without resident cells, and with a database of fixed contents: two sequences of
loads and evictions that end with the same resident cells end with the same tables up to
the order inside the lists, and every run and every search after the one is matched after
the other, up to ties.  When the ids are distinct and the database serves every request,
any two LOADs can be done in either order; and a LOAD that is repeated changes nothing. -/
theorem contents_determined (F : Faiss nCells δ) (ops : List (Op nCells)) (s : Core nCells)
    (hreach : Reaches F ops s) (hempty : ∀ c, s.residenceStatuses c = -1)
    (good : Database nCells) :
    (∀ past past' t t', run (step F) s past = .ok t → run (step F) s past' = .ok t' →
      (∀ op ∈ past, Moves good op) → (∀ op ∈ past', Moves good op) →
      (∀ c, t.residenceStatuses c = -1 ↔ t'.residenceStatuses c = -1) →
      SameUpToOrder t t' ∧
        ∀ later u, run (step F) t later = .ok u →
          ∃ u', run (step F) t' later = .ok u' ∧ SameUpToOrder u u' ∧ SearchedAlike F u u') ∧
    (∀ past t, run (step F) s past = .ok t → (∀ op ∈ past, Moves good op) →
      DistinctIds F ops → Serves F ops s good →
      ∀ q m db q' m' db', Rankable F q m → Rankable F q' m' →
        AnswersLike good db → Serves F ops s db →
        AnswersLike good db' → Serves F ops s db' →
        ∃ t₁ t₂ u₁ u₂, t.loadCellWithVec F db q m = .ok (.returns t₁) ∧
          t₁.loadCellWithVec F db' q' m' = .ok (.returns t₂) ∧
          t.loadCellWithVec F db' q' m' = .ok (.returns u₁) ∧
          u₁.loadCellWithVec F db q m = .ok (.returns u₂) ∧ SameUpToOrder t₂ u₂) ∧
    ∀ past t, run (step F) s past = .ok t → ∀ q m db t',
      t.loadCellWithVec F db q m = .ok (.returns t') →
      ∀ db', t'.loadCellWithVec F db' q m = .ok (.returns t') := by
  have hinv := storeInv_of_reaches hreach
  have hstart := Fetched.refl good hinv hempty
  refine ⟨?_, ?_, ?_⟩
  · intro past past' t t' ht ht' hpast hpast' hcells
    have hfetched := hstart.run hpast ht
    have hfetched' := hstart.run hpast' ht'
    have hsame := hfetched.same hfetched' hcells
    refine ⟨hsame, ?_⟩
    intro later u hu
    obtain ⟨u', hu', hstore, hstore', hagree⟩ :=
      run_congr hfetched.store hfetched'.store hsame hu
    exact ⟨u', hu', hagree, hagree.searchedAlike hstore hstore'⟩
  · intro past t ht hpast hids hgood q m db q' m' db' hq hq' hlike hserves hlike' hserves'
    have hreg := registryInv_of_reaches hreach
    have hreach_t : Reaches F (ops ++ past) t := (run_append hreach past).trans ht
    have hfetched := hstart.run hpast ht
    -- a load that returns is a step, and keeps to the contents of the database
    have hload : ∀ {u u' : Core nCells} {v : List F32} {n : Nat} {db'' : Database nCells},
        Fetched F good s u → AnswersLike good db'' →
        u.loadCellWithVec F db'' v n = .ok (.returns u') → Fetched F good s u' := by
      intro u u' v n db'' hu hdb h
      exact hu.step (show Moves good (.load v n db'') from hdb) (step_load h)
    have hreaches : ∀ {u u' : Core nCells} {v : List F32} {n : Nat} {db'' : Database nCells},
        u = t → u.loadCellWithVec F db'' v n = .ok (.returns u') →
        Reaches F (ops ++ past ++ [.load v n db'']) u' := by
      intro u u' v n db'' hu h
      subst hu
      apply run_concat.mpr
      exact ⟨u, hreach_t, step_load h⟩
    obtain ⟨t₁, ht₁⟩ := hfetched.load_returns hids hreg hgood hserves hq
    obtain ⟨u₁, hu₁⟩ := hfetched.load_returns hids hreg hgood hserves' hq'
    have hfetched₁ := hload hfetched hlike ht₁
    have hfetched₂ := hload hfetched hlike' hu₁
    obtain ⟨t₂, ht₂⟩ := hfetched₁.load_returns hids hreg hgood hserves' hq'
    obtain ⟨u₂, hu₂⟩ := hfetched₂.load_returns hids hreg hgood hserves hq
    refine ⟨t₁, t₂, u₁, u₂, ht₁, ht₂, hu₁, hu₂, ?_⟩
    apply (hload hfetched₁ hlike' ht₂).same (hload hfetched₂ hlike hu₂)
    intro c
    apply not_iff_not.mp
    rw [← ne_eq, ← ne_eq, load_resident_iff (hreaches rfl ht₁) ht₂,
      load_resident_iff hreach_t ht₁, load_resident_iff (hreaches rfl hu₁) hu₂,
      load_resident_iff hreach_t hu₁]
    exact or_right_comm
  · intro past t ht q m db t' h db'
    have hreach_t : Reaches F (ops ++ past) t := (run_append hreach past).trans ht
    exact load_again (storeInv_of_reaches hreach_t) h db'

/-- A database of two cells whose contents do not change. -/
def steady : Database 2 := .ofRecords fun id => ⟨id, [5], [], []⟩

/-- Two cells are loaded at once, or the first of them is loaded, evicted and loaded again
around the second. -/
theorem contents_determined_twoWays :
    ∃ s t t', Reaches (Faiss.discrete 2 1) [.add 1 [[97, 0]] [5]] s ∧
      run (step (Faiss.discrete 2 1)) s [.load [5] 2 steady] = .ok t ∧
      run (step (Faiss.discrete 2 1)) s
        [.load [5] 2 steady, .evict [5] 1, .load [5] 1 steady] = .ok t' ∧
      SameUpToOrder t t' := by
  obtain ⟨s, t, t', hreach, hempty, ht, ht', hcells, hcells'⟩ :
      ∃ s t t', Reaches (Faiss.discrete 2 1) [.add 1 [[97, 0]] [5]] s ∧
        (∀ c, s.residenceStatuses c = -1) ∧
        run (step (Faiss.discrete 2 1)) s [.load [5] 2 steady] = .ok t ∧
        run (step (Faiss.discrete 2 1)) s
          [.load [5] 2 steady, .evict [5] 1, .load [5] 1 steady] = .ok t' ∧
        (∀ c, t.residenceStatuses c ≠ -1) ∧ ∀ c, t'.residenceStatuses c ≠ -1 :=
    ⟨_, _, _, rfl, fun _ => rfl, rfl, rfl, by decide, by decide⟩
  have hsteady : AnswersLike steady steady := fun _ _ x hx => ⟨x, hx, .refl _⟩
  have hcells : ∀ c, t.residenceStatuses c = -1 ↔ t'.residenceStatuses c = -1 :=
    fun c => ⟨fun h => absurd h (hcells c), fun h => absurd h (hcells' c)⟩
  have hsame := (contents_determined (Faiss.discrete 2 1) _ s hreach hempty steady).1 _ _ t t'
    ht ht' (by simp [Moves, hsteady]) (by simp [Moves, hsteady]) hcells
  exact ⟨s, t, t', hreach, ht, ht', hsame.1⟩

end Core

end Periplus.Ports
