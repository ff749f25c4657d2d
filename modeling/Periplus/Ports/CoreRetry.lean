import Periplus.Ports.CoreResidency

/-!
# A load that fails and is tried again

`loadCellWithVec` asks the database for one cell after the other.  When a request
fails, the exception leaves the loop with some of the cells already loaded.  What is
left behind consists of whole cells (`PartlyLoaded`), and a later attempt skips these
and loads the others, so that it ends like an attempt that had not been preceded by
any failure (`loadCells_retry`).

The lists of the cells may come out in another order, since a database can return its
records in another order each time; `SameUpToOrder` compares the tables up to that.
-/

namespace Periplus.Ports

open Periplus.Verified
open Periplus.Verified.Buckets
open Periplus.Verified.Memory
open Periplus.Verified.Run

namespace Core

variable {nCells : Nat} {δ : Type} [LinearOrder δ]

/-! ## States and outcomes up to order -/

/-- The same tables, up to the order inside the inverted lists. -/
structure SameUpToOrder (s t : Core nCells) : Prop where
  centroids : s.centroids = t.centroids
  residenceStatuses : s.residenceStatuses = t.residenceStatuses
  nprobe : s.nprobe = t.nprobe
  invlists : ∀ c, (s.invlists c).Perm (t.invlists c)
  nextId : s.nextId = t.nextId
  idsByCell : s.idsByCell = t.idsByCell
  dataMap : s.dataMap = t.dataMap
  idMap : s.idMap = t.idMap

theorem SameUpToOrder.refl (s : Core nCells) : SameUpToOrder s s :=
  ⟨rfl, rfl, rfl, fun _ => List.Perm.refl _, rfl, rfl, rfl, rfl⟩

theorem SameUpToOrder.symm {s t : Core nCells} (h : SameUpToOrder s t) :
    SameUpToOrder t s :=
  ⟨h.centroids.symm, h.residenceStatuses.symm, h.nprobe.symm, fun c => (h.invlists c).symm,
    h.nextId.symm, h.idsByCell.symm, h.dataMap.symm, h.idMap.symm⟩

theorem SameUpToOrder.trans {s t u : Core nCells} (h : SameUpToOrder s t)
    (h' : SameUpToOrder t u) : SameUpToOrder s u :=
  ⟨h.centroids.trans h'.centroids, h.residenceStatuses.trans h'.residenceStatuses,
    h.nprobe.trans h'.nprobe, fun c => (h.invlists c).trans (h'.invlists c),
    h.nextId.trans h'.nextId, h.idsByCell.trans h'.idsByCell, h.dataMap.trans h'.dataMap,
    h.idMap.trans h'.idMap⟩

/-- Two loads end in the same way: with the same fault, or both back, or both in the
same exception, in the same state up to order. -/
inductive SameExit : Except Fault (Exit (Core nCells)) →
    Except Fault (Exit (Core nCells)) → Prop
  | returns {s t : Core nCells} : SameUpToOrder s t →
      SameExit (.ok (.returns s)) (.ok (.returns t))
  | throwsHttp {s t : Core nCells} (code : Nat) : SameUpToOrder s t →
      SameExit (.ok (.throwsHttp code s)) (.ok (.throwsHttp code t))
  | fault (f : Fault) : SameExit (.error f) (.error f)

theorem SameExit.refl (x : Except Fault (Exit (Core nCells))) : SameExit x x := by
  rcases x with f | (s | ⟨code, s⟩)
  · exact .fault f
  · exact .returns (.refl s)
  · exact .throwsHttp code (.refl s)

theorem SameExit.trans {x y z : Except Fault (Exit (Core nCells))} (h : SameExit x y)
    (h' : SameExit y z) : SameExit x z := by
  cases h with
  | returns hst =>
      cases h' with
      | returns htu => exact .returns (hst.trans htu)
  | throwsHttp code hst =>
      cases h' with
      | throwsHttp _ htu => exact .throwsHttp code (hst.trans htu)
  | fault f => exact h'

/-! ## Loading from states that agree up to order -/

theorem SameUpToOrder.insertEntry {s t : Core nCells} (h : SameUpToOrder s t)
    (F : Faiss nCells δ) (num : Nat) (v : List F32) (x : Data) :
    SameUpToOrder (s.insertEntry F num v x) (t.insertEntry F num v x) := by
  refine ⟨h.centroids, h.residenceStatuses, h.nprobe, ?_, h.nextId, h.idsByCell, ?_,
    h.idMap⟩
  · intro c
    show (F.addWithIds s.invlists v num c).Perm (F.addWithIds t.invlists v num c)
    cases hnear : F.nearest v with
    | none =>
        rw [Faiss.addWithIds, Faiss.addWithIds, hnear]
        exact h.invlists c
    | some c' =>
        rw [addWithIds_of_nearest hnear, addWithIds_of_nearest hnear]
        by_cases hc : c = c'
        · rw [hc, Function.update_self, Function.update_self]
          exact (h.invlists c').append_right _
        · rw [Function.update_of_ne hc, Function.update_of_ne hc]
          exact h.invlists c
  · rw [insertEntry_dataMap, insertEntry_dataMap, h.dataMap]

/-- Storing the slots of one answer: the same fault, or states that still agree. -/
theorem storeSlots_congr (F : Faiss nCells δ) (target : Fin nCells) (xs : List Data)
    {s t : Core nCells} (h : SameUpToOrder s t) :
    (∃ f, storeSlots F target xs s = .error f ∧ storeSlots F target xs t = .error f) ∨
      ∃ s' t', storeSlots F target xs s = .ok s' ∧ storeSlots F target xs t = .ok t' ∧
        SameUpToOrder s' t' := by
  induction xs generalizing s t with
  | nil => exact Or.inr ⟨s, t, rfl, rfl, h⟩
  | cons x xs ih =>
      rw [storeSlots, storeSlots, storeSlot_eq, storeSlot_eq, ← h.idMap, ← h.dataMap]
      cases verdict F target s.idMap x with
      | error f => exact Or.inl ⟨f, rfl, rfl⟩
      | ok o =>
          cases o with
          | none => exact ih h
          | some e =>
              by_cases hnum : (s.dataMap e.num).isSome
              · simp only [if_pos hnum, error_bind]
                exact Or.inl ⟨_, rfl, rfl⟩
              · simp only [if_neg hnum, ok_bind]
                exact ih (h.insertEntry F e.num e.vec e.record)

theorem loadCell_congr (F : Faiss nCells δ) (db : Database nCells) (target : Fin nCells)
    {s t : Core nCells} (h : SameUpToOrder s t) :
    SameExit (loadCell F db target s) (loadCell F db target t) := by
  -- the requests are the same, and so are the types of their answers
  obtain ⟨_, _, _, _, _, ids, _, _⟩ := t
  obtain rfl : s.idsByCell = ids := h.idsByCell
  unfold loadCell
  dsimp only
  cases db target (s.idsByCell target) with
  | httpException code => exact .throwsHttp code h
  | fault f => exact .fault f
  | filled x =>
      rcases storeSlots_congr F target x.toList h with
        ⟨f, hs, ht⟩ | ⟨s', t', hs, ht, hagree⟩
      · simp only [hs, ht, error_bind]
        exact .fault f
      · simp only [hs, ht, ok_bind]
        refine .returns ⟨hagree.centroids, ?_, hagree.nprobe, hagree.invlists,
          hagree.nextId, hagree.idsByCell, hagree.dataMap, hagree.idMap⟩
        rw [setStatus_residenceStatuses, setStatus_residenceStatuses,
          hagree.residenceStatuses]

/-- **Whole loads** from states that agree up to order end in the same way. -/
theorem loadCells_congr (F : Faiss nCells δ) (db : Database nCells) (labels : List Int)
    {s t : Core nCells} (h : SameUpToOrder s t) :
    SameExit (loadCells F db labels s) (loadCells F db labels t) := by
  induction labels generalizing s t with
  | nil => exact .returns h
  | cons label labels ih =>
      rw [loadCells, loadCells]
      cases cellAt nCells label with
      | error f => exact .fault f
      | ok c =>
          rw [ok_bind, ok_bind, ← h.residenceStatuses]
          by_cases hstatus : s.residenceStatuses c > -1
          · rw [if_pos hstatus, if_pos hstatus]
            exact ih h
          · rw [if_neg hstatus, if_neg hstatus]
            have hcell := loadCell_congr F db c h
            generalize loadCell F db c s = x at hcell ⊢
            generalize loadCell F db c t = y at hcell ⊢
            cases hcell with
            | returns hagree => exact ih hagree
            | throwsHttp code hagree => exact .throwsHttp code hagree
            | fault f => exact .fault f

/-! ## What a failed load leaves behind -/

/-- The cell is as it was: its status, its list, and the records listed in it. -/
structure Untouched (s s' : Core nCells) (c : Fin nCells) : Prop where
  status : s'.residenceStatuses c = s.residenceStatuses c
  list : s'.invlists c = s.invlists c
  records : ∀ num ∈ s.numbers c, s'.dataMap num = s.dataMap num

/-- The cell was empty, and now holds everything the database returned for it that is
nearest to it. -/
structure CompletelyLoaded (F : Faiss nCells δ) (db : Database nCells) (s s' : Core nCells)
    (c : Fin nCells) : Prop where
  empty : s.residenceStatuses c = -1
  status : s'.residenceStatuses c = (s.idsByCell c).length
  answer : ∃ x, db c (s.idsByCell c) = .filled x ∧
    s'.invlists c = (accepted F c s.idMap x.toList).map Stored.entry ∧
    ∀ e ∈ accepted F c s.idMap x.toList, s'.dataMap e.num = some e.record

/-- Those of the cells that were empty have been loaded completely, and nothing else has
changed. -/
structure PartlyLoaded (F : Faiss nCells δ) (db : Database nCells) (cells : List (Fin nCells))
    (s s' : Core nCells) : Prop where
  registry : s'.idsByCell = s.idsByCell ∧ s'.idMap = s.idMap ∧ s'.nextId = s.nextId
  loaded : ∀ c ∈ cells, s.residenceStatuses c = -1 → CompletelyLoaded F db s s' c
  untouched : ∀ c, (c ∈ cells → s.residenceStatuses c ≠ -1) → Untouched s s' c
  stored : ∀ num x, s'.dataMap num = some x → s.dataMap num = some x ∨
    ∃ c ∈ cells, s.residenceStatuses c = -1 ∧ num ∈ s'.numbers c

theorem PartlyLoaded.refl (F : Faiss nCells δ) (db : Database nCells) (s : Core nCells) :
    PartlyLoaded F db [] s s where
  registry := ⟨rfl, rfl, rfl⟩
  loaded := fun _ hc => absurd hc List.not_mem_nil
  untouched := fun _ _ => ⟨rfl, rfl, fun _ _ => rfl⟩
  stored := fun _ _ hx => Or.inl hx

/-- A cell that is skipped stays as it is. -/
theorem PartlyLoaded.skip {F : Faiss nCells δ} {db : Database nCells}
    {cells : List (Fin nCells)} {s s' : Core nCells} {c : Fin nCells}
    (h : PartlyLoaded F db cells s s') (hc : s.residenceStatuses c ≠ -1) :
    PartlyLoaded F db (c :: cells) s s' where
  registry := h.registry
  loaded := by
    rw [List.forall_mem_cons]
    exact ⟨fun hempty => absurd hempty hc, h.loaded⟩
  untouched := fun c' hc' => h.untouched c' (fun hmem => hc' (List.mem_cons_of_mem c hmem))
  stored := by
    intro num x hx
    rcases h.stored num x hx with hx | ⟨c', hc', hnew⟩
    · exact Or.inl hx
    · exact Or.inr ⟨c', List.mem_cons_of_mem c hc', hnew⟩

/-- A cell that is loaded first stays as it is while the others are loaded. -/
theorem PartlyLoaded.cons {F : Faiss nCells δ} {db : Database nCells}
    {cells : List (Fin nCells)} {s t s' : Core nCells} {c : Fin nCells} (hinv : StoreInv F s)
    (hempty : s.residenceStatuses c = -1) {x : Vector Data (s.idsByCell c).length}
    (hx : db c (s.idsByCell c) = .filled x) (hload : Loaded F c x.toList s t)
    (hc : c ∉ cells) (h : PartlyLoaded F db cells t s') :
    PartlyLoaded F db (c :: cells) s s' := by
  obtain ⟨hnext, hcells, hmap⟩ := hload.registry
  have hself := h.untouched c (fun hmem => absurd hmem hc)
  have hlist : t.invlists c = (accepted F c s.idMap x.toList).map Stored.entry := by
    rw [hload.invlists, Function.update_self, hinv.emptyLists c hempty, List.nil_append]
  have hlisted : ∀ e ∈ accepted F c s.idMap x.toList, e.num ∈ t.numbers c := by
    intro e he
    rw [numbers, hlist, List.map_map]
    exact List.mem_map_of_mem he
  have hother : ∀ c', c' ≠ c → t.residenceStatuses c' = s.residenceStatuses c' := by
    intro c' hne
    rw [hload.residenceStatuses, Function.update_of_ne hne]
  have hne : ∀ c' ∈ cells, c' ≠ c := fun c' hmem heq => hc (heq ▸ hmem)
  refine ⟨?_, ?_, ?_, ?_⟩
  · obtain ⟨hcells', hmap', hnext'⟩ := h.registry
    exact ⟨hcells'.trans hcells, hmap'.trans hmap, hnext'.trans hnext⟩
  · rw [List.forall_mem_cons]
    constructor
    · intro _
      refine ⟨hempty, ?_, x, hx, hself.list.trans hlist, ?_⟩
      · rw [hself.status, hload.residenceStatuses, Function.update_self]
      · intro e he
        rw [hself.records _ (hlisted e he), hload.dataMap_accepted he]
    · intro c' hmem hfree
      have hdone := h.loaded c' hmem ((hother c' (hne c' hmem)).trans hfree)
      have hstatus := hdone.status
      have hanswer := hdone.answer
      rw [hcells] at hstatus hanswer
      rw [hmap] at hanswer
      exact ⟨hfree, hstatus, hanswer⟩
  · intro c' hkeep
    have hc' : c' ≠ c := by
      rintro rfl
      exact hkeep List.mem_cons_self hempty
    have hlater := h.untouched c' (fun hmem => by
      rw [hother c' hc']
      exact hkeep (List.mem_cons_of_mem c hmem))
    have hbefore : t.invlists c' = s.invlists c' := by
      rw [hload.invlists, Function.update_of_ne hc']
    refine ⟨hlater.status.trans (hother c' hc'), hlater.list.trans hbefore, ?_⟩
    intro num hnum
    obtain ⟨y, _, hy, _⟩ := hinv.of_mem_numbers hnum
    rw [hlater.records num (by rw [numbers, hbefore]; exact hnum), hload.dataMap_mono hy, hy]
  · intro num y hy
    rcases h.stored num y hy with hy | ⟨c', hmem, hfree, hnum⟩
    · rcases hload.dataMap_cases hy with ⟨e, he, rfl, _⟩ | hy
      · refine Or.inr ⟨c, List.mem_cons_self, hempty, ?_⟩
        rw [numbers, hself.list]
        exact hlisted e he
      · exact Or.inl hy
    · refine Or.inr ⟨c', List.mem_cons_of_mem c hmem, ?_, hnum⟩
      rw [← hother c' (hne c' hmem)]
      exact hfree

/-- **A load that fails** has loaded the empty cells before the one whose request failed,
each completely, and touched no other. -/
theorem loadCells_partly {F : Faiss nCells δ} {db : Database nCells}
    {cells : List (Fin nCells)} {p : Nat} {s s₁ : Core nCells} {code : Nat}
    (h : loadCells F db (cells.map (fun c => (c.val : Int)) ++ List.replicate p (-1)) s =
      .ok (.throwsHttp code s₁)) (hnodup : cells.Nodup) (hinv : StoreInv F s) :
    ∃ pre c post, cells = pre ++ c :: post ∧ s.residenceStatuses c = -1 ∧
      db c (s.idsByCell c) = .httpException code ∧ PartlyLoaded F db pre s s₁ := by
  induction cells generalizing s with
  | nil =>
      rw [List.map_nil, List.nil_append, loadCells_padding_eq_ok] at h
      exact absurd h.2 (by simp)
  | cons c cells ih =>
      rw [List.nodup_cons] at hnodup
      rw [List.map_cons, List.cons_append, loadCells, cellAt_val, ok_bind] at h
      by_cases hstatus : s.residenceStatuses c > -1
      · rw [if_pos hstatus] at h
        obtain ⟨pre, c', post, rfl, hfree, hfail, hpart⟩ := ih h hnodup.2 hinv
        exact ⟨c :: pre, c', post, rfl, hfree, hfail, hpart.skip (by omega)⟩
      · rw [if_neg hstatus] at h
        have hempty : s.residenceStatuses c = -1 := by
          have := hinv.statuses c
          omega
        obtain ⟨e, he, h⟩ := bind_eq_ok.mp h
        rcases loadCell_eq_ok.mp he with ⟨code', hfail, rfl⟩ | ⟨x, t, hx, hload, rfl⟩
        · simp only [Except.ok.injEq, Exit.throwsHttp.injEq] at h
          rw [h.1] at hfail
          rw [← h.2]
          exact ⟨[], c, cells, rfl, hempty, hfail, .refl F db s⟩
        · obtain ⟨pre, c', post, rfl, hfree, hfail, hpart⟩ :=
            ih h hnodup.2 (hinv.loaded hload)
          rw [List.mem_append, List.mem_cons, not_or, not_or] at hnodup
          rw [hload.residenceStatuses, Function.update_of_ne (Ne.symm hnodup.1.2.1)] at hfree
          rw [hload.registry.2.1] at hfail
          exact ⟨c :: pre, c', post, rfl, hfree, hfail,
            hpart.cons hinv hempty hx hload hnodup.1.1⟩

/-! ## Trying again -/

/-- Whatever `db` answers, `good` answers with the same records in some order. -/
def AnswersLike (good db : Database nCells) : Prop :=
  ∀ c ids x, db c ids = .filled x →
    ∃ x', good c ids = .filled x' ∧ x.toList.Perm x'.toList

/-- A load that ends in an exception leads from `s` to `s'`; what the database did
answer is what `good` answers. -/
def FailedLoad (F : Faiss nCells δ) (good : Database nCells) (q : List F32) (m : Nat)
    (s s' : Core nCells) : Prop :=
  ∃ db code, AnswersLike good db ∧ s.loadCellWithVec F db q m = .ok (.throwsHttp code s')

/-- The order in which the records of a cell are returned matters only for the order of
its list. -/
theorem Loaded.perm {F : Faiss nCells δ} {c : Fin nCells} {xs xs' : List Data}
    {s s' : Core nCells} (h : Loaded F c xs s s') (hperm : xs.Perm xs') :
    ∃ s'', Loaded F c xs' s s'' ∧ SameUpToOrder s' s'' := by
  have haccepted : (accepted F c s.idMap xs).Perm (accepted F c s.idMap xs') :=
    hperm.filterMap _
  have hload : Loaded F c xs' s ((insertAll F (accepted F c s.idMap xs') s).setStatus c
      (s.idsByCell c).length) := by
    exact ⟨fun x hx => h.verdicts x (hperm.symm.subset hx), h.admits.perm haccepted, rfl⟩
  refine ⟨_, hload, ?_⟩
  have hframe := insertAll_frame F (accepted F c s.idMap xs) s
  have hframe' := insertAll_frame F (accepted F c s.idMap xs') s
  have hreg := h.registry
  have hreg' := hload.registry
  refine
    { centroids := by rw [h.eq]; exact hframe.1.trans hframe'.1.symm
      residenceStatuses := by rw [h.residenceStatuses, hload.residenceStatuses]
      nprobe := by rw [h.eq]; exact hframe.2.2.1.trans hframe'.2.2.1.symm
      invlists := ?_
      nextId := hreg.1.trans hreg'.1.symm
      idsByCell := hreg.2.1.trans hreg'.2.1.symm
      dataMap := ?_
      idMap := hreg.2.2.trans hreg'.2.2.symm }
  · intro c'
    rw [h.invlists, hload.invlists]
    by_cases hc : c' = c
    · rw [hc, Function.update_self, Function.update_self]
      exact (haccepted.map Stored.entry).append_left _
    · rw [Function.update_of_ne hc, Function.update_of_ne hc]
  · funext num
    by_cases hnum : num ∈ (accepted F c s.idMap xs).map Stored.num
    · obtain ⟨e, he, rfl⟩ := List.mem_map.mp hnum
      rw [h.dataMap_accepted he, hload.dataMap_accepted (haccepted.subset he)]
    · have hnum' : num ∉ (accepted F c s.idMap xs').map Stored.num := fun hmem =>
        hnum ((haccepted.map Stored.num).symm.subset hmem)
      rw [h.dataMap_frame hnum, hload.dataMap_frame hnum']

/-- A cell in residence is still there when a load ends. -/
theorem loadCells_stays {F : Faiss nCells δ} {db : Database nCells} {labels : List Int}
    {s : Core nCells} {exit : Exit (Core nCells)} (h : loadCells F db labels s = .ok exit)
    {c : Fin nCells} (hc : s.residenceStatuses c > -1) :
    exit.state.residenceStatuses c > -1 := by
  refine loadCells_rule (P := fun t => t.residenceStatuses c > -1) ?_ h hc
  intro t t' c' x ht _ _ hload
  rw [hload.residenceStatuses]
  by_cases heq : c = c'
  · rw [heq, Function.update_self]
    omega
  · rw [Function.update_of_ne heq]
    exact ht

/-- **Trying again after one failure.** -/
theorem loadCells_retry {F : Faiss nCells δ} {good db : Database nCells}
    (hdb : AnswersLike good db) {labels : List Int} {s s₁ : Core nCells} {code : Nat}
    (h : loadCells F db labels s = .ok (.throwsHttp code s₁)) :
    SameExit (loadCells F good labels s₁) (loadCells F good labels s) := by
  induction labels generalizing s with
  | nil => exact absurd h (by simp [loadCells])
  | cons label labels ih =>
      rw [loadCells] at h
      obtain ⟨c, hc, h⟩ := bind_eq_ok.mp h
      -- the second attempt skips the cell when it was in residence before or is now
      have hskip : ∀ t : Core nCells, t.residenceStatuses c > -1 →
          loadCells F good (label :: labels) t = loadCells F good labels t := by
        intro t ht
        rw [loadCells, hc, ok_bind, if_pos ht]
      by_cases hstatus : s.residenceStatuses c > -1
      · rw [if_pos hstatus] at h
        rw [hskip s hstatus, hskip s₁ (loadCells_stays h hstatus)]
        exact ih h
      · rw [if_neg hstatus] at h
        obtain ⟨e, he, h⟩ := bind_eq_ok.mp h
        rcases loadCell_eq_ok.mp he with ⟨code', _, rfl⟩ | ⟨x, s', hx, hload, rfl⟩
        · simp only [Except.ok.injEq, Exit.throwsHttp.injEq] at h
          rw [h.2]
          exact .refl _
        · obtain ⟨x', hx', hperm⟩ := hdb c _ x hx
          obtain ⟨s'', hload', hagree⟩ := hload.perm hperm
          have hresident : s'.residenceStatuses c > -1 := by
            rw [hload.residenceStatuses, Function.update_self]
            omega
          have hcell : loadCell F good c s = .ok (.returns s'') :=
            loadCell_eq_ok.mpr (Or.inr ⟨x', s'', hx', hload', rfl⟩)
          rw [hskip s₁ (loadCells_stays h hresident), loadCells, hc, ok_bind,
            if_neg hstatus, hcell, ok_bind]
          exact (ih h).trans (loadCells_congr F good labels hagree)

/-- **Trying again after any number of failures.** -/
theorem failedLoads_retry {F : Faiss nCells δ} {good : Database nCells} {q : List F32}
    {m : Nat} {s s₁ : Core nCells}
    (h : Relation.ReflTransGen (FailedLoad F good q m) s s₁) :
    SameExit (s₁.loadCellWithVec F good q m) (s.loadCellWithVec F good q m) := by
  induction h with
  | refl => exact .refl _
  | tail _ hlast ih =>
      obtain ⟨db, code, hdb, hload⟩ := hlast
      refine SameExit.trans ?_ ih
      rw [loadCellWithVec] at hload
      obtain ⟨labels, hlabels, hload⟩ := bind_eq_ok.mp hload
      rw [loadCellWithVec, loadCellWithVec, hlabels, ok_bind, ok_bind]
      exact loadCells_retry hdb hload

/-! ## When a load succeeds -/

/-- With distinct ids, what is registered for an id is what is current for it. -/
theorem currentVec_of_mem {docs : List Doc} (hids : (docs.map Prod.fst).Nodup) {p : Doc}
    (hp : p ∈ docs) : currentVec docs p.1 = some p.2 := by
  rw [currentVec]
  cases hfind : docs.reverse.find? (fun p' => p'.1 = p.1) with
  | none =>
      have hnone := List.find?_eq_none.mp hfind p (List.mem_reverse.mpr hp)
      exact absurd (decide_eq_true rfl) hnone
  | some p' =>
      have hkey : p'.1 = p.1 := by simpa using List.find?_some hfind
      have hmem : p' ∈ docs := List.mem_reverse.mp (List.mem_of_find?_eq_some hfind)
      rw [eq_of_nodup_keys hids hmem hp hkey, Option.map_some]

/-- With distinct ids, no id of an empty cell is in residence. -/
theorem noDuplicate_of_snapshot {F : Faiss nCells δ} {ops : List (Op nCells)}
    {s : Core nCells} {c : Fin nCells} (hids : DistinctIds F ops)
    (hreg : RegistryInv F (registered F ops) s) (hsnap : Snapshot F ops s)
    (hempty : s.invlists c = []) : NoDuplicate F (registered F ops) s c where
  nodup := by
    refine List.Nodup.sublist List.filter_sublist ?_
    rw [hreg.cells c]
    exact hids.sublist (List.Sublist.map Prod.fst List.filter_sublist)
  absent := by
    intro id hid hresident
    obtain ⟨c', _, hlisted⟩ := List.mem_flatMap.mp hresident
    obtain ⟨e, he, rfl⟩ := List.mem_map.mp hlisted
    have hdoc : s.docOf e ∈ registeredIn F ops c' :=
      List.mem_of_mem_take ((hsnap c').subset (List.mem_map_of_mem he))
    obtain ⟨hmem, hnear⟩ := mem_registeredIn.mp hdoc
    have hcell := of_decide_eq_true (List.mem_filter.mp hid).2
    rw [currentVec_of_mem hids hmem, Option.bind_some, hnear, Option.some.injEq] at hcell
    rw [hcell, hempty] at he
    exact absurd he List.not_mem_nil

/-- **A load from which every request is answered** by what is registered comes back. -/
theorem loadCells_returns {F : Faiss nCells δ} {ops : List (Op nCells)}
    {good : Database nCells} (hids : DistinctIds F ops) {cells : List (Fin nCells)}
    {s : Core nCells} (hinv : StoreInv F s) (hreg : RegistryInv F (registered F ops) s)
    (hsnap : Snapshot F ops s)
    (hgood : ∀ c, ∃ x, good c (s.idsByCell c) = .filled x ∧
      Faithful F (registered F ops) (s.idsByCell c) (.filled x)) :
    ∃ t, loadCells F good (cells.map (fun c => (c.val : Int))) s = .ok (.returns t) := by
  induction cells generalizing s with
  | nil => exact ⟨s, rfl⟩
  | cons c cells ih =>
      rw [List.map_cons, loadCells, cellAt_val, ok_bind]
      by_cases hstatus : s.residenceStatuses c > -1
      · rw [if_pos hstatus]
        exact ih hinv hreg hsnap hgood
      · have hempty : s.invlists c = [] := by
          refine hinv.emptyLists c ?_
          have := hinv.statuses c
          omega
        obtain ⟨x, hx, hfaithful⟩ := hgood c
        obtain ⟨ds, hkeys, hds, hrep⟩ := hfaithful
        have hcurrent : Current F (registered F ops) (s.idsByCell c)
            (good c (s.idsByCell c)) := by
          rw [hx]
          exact ⟨ds, hkeys, fun p hp => currentVec_of_mem hids (hds p hp), hrep⟩
        have hclean := noDuplicate_of_snapshot hids hreg hsnap hempty
        rw [if_neg hstatus]
        rcases loadCell_current hinv hreg hcurrent with ⟨_, xs, t, _, hcell, _⟩ | ⟨hdirty, _⟩
        · rcases loadCell_eq_ok.mp hcell with ⟨_, _, hthrow⟩ | ⟨x', t', hx', hload, hexit⟩
          · exact absurd hthrow (by simp)
          · rw [hx, DbAnswer.filled.injEq] at hx'
            subst hx'
            rw [hcell, hexit, ok_bind]
            have hcells := hload.registry.2.1
            refine ih (hinv.loaded hload) (hreg.congr hcells hload.registry.2.2) ?_ ?_
            · exact hsnap.loaded hinv hreg hids hempty ⟨ds, hkeys, hds, hrep⟩ hload
            · rw [hcells]
              exact hgood
        · exact absurd hclean hdirty

/-- **A LOAD that fails leaves whole cells, and can be tried again.**  In every state that
is reached: a LOAD whose request for some cell fails has loaded the empty cells before it
completely and left that cell, the later ones and all others as they were.  After any
number of failures a LOAD from a database with the same contents ends as it would have
ended from the state before them, up to the order inside lists; and when the ids are
distinct and every answer so far was faithful, it succeeds. -/
theorem failed_load_retried (F : Faiss nCells δ) (ops : List (Op nCells)) (s : Core nCells)
    (hreach : Reaches F ops s) (q : List F32) (m : Nat) :
    (∀ db code s₁, s.loadCellWithVec F db q m = .ok (.throwsHttp code s₁) →
      ∃ pre c post, probed F (q.take F.d) m = pre ++ c :: post ∧
        db c (s.idsByCell c) = .httpException code ∧ PartlyLoaded F db pre s s₁ ∧
        ∀ c' ∈ c :: post, Untouched s s₁ c') ∧
    ∀ good s₁, Relation.ReflTransGen (FailedLoad F good q m) s s₁ →
      SameExit (s₁.loadCellWithVec F good q m) (s.loadCellWithVec F good q m) ∧
      (DistinctIds F ops → FaithfulProxy F ops → m ≠ 0 → F.d ≤ q.length →
        m ≤ (F.ranked (q.take F.d)).length →
        (∀ c, ∃ x, good c (s.idsByCell c) = .filled x ∧
          Faithful F (registered F ops) (s.idsByCell c) (.filled x)) →
        ∃ t t', s.loadCellWithVec F good q m = .ok (.returns t) ∧
          s₁.loadCellWithVec F good q m = .ok (.returns t') ∧ SameUpToOrder t' t) := by
  have hinv := storeInv_of_reaches hreach
  constructor
  · intro db code s₁ h
    rw [loadCellWithVec] at h
    obtain ⟨labels, hlabels, h⟩ := bind_eq_ok.mp h
    rw [(quantizerSearch_one.mp hlabels).2.2, F.assign_eq_append] at h
    obtain ⟨pre, c, post, hsplit, _, hfail, hpart⟩ :=
      loadCells_partly h (probed_nodup F (q.take F.d) m) hinv
    have hnodup := probed_nodup F (q.take F.d) m
    rw [probed, hsplit, List.nodup_append] at hnodup
    refine ⟨pre, c, post, hsplit, hfail, hpart, ?_⟩
    intro c' hc'
    exact hpart.untouched c' (fun hmem => absurd rfl (hnodup.2.2 c' hmem c' hc'))
  · intro good s₁ hfailed
    have hsame := failedLoads_retry hfailed
    refine ⟨hsame, ?_⟩
    intro hids hproxy hm hlen hranked hgood
    have hassign := assign_eq_map.mpr ⟨hranked, rfl⟩
    obtain ⟨t, ht⟩ : ∃ t, loadCells F good
        (((F.ranked (q.take F.d)).take m).map (fun c => (c.val : Int))) s = .ok (.returns t) :=
      loadCells_returns hids hinv (registryInv_of_reaches hreach)
        (snapshot_of_reaches hreach hids hproxy) hgood
    have hload : s.loadCellWithVec F good q m = .ok (.returns t) := by
      rw [loadCellWithVec, quantizerSearch_one.mpr ⟨hm, hlen, rfl⟩, ok_bind, hassign, ht]
    rw [hload] at hsame ⊢
    generalize s₁.loadCellWithVec F good q m = y at hsame ⊢
    cases hsame with
    | @returns t' _ hagree => exact ⟨t, t', rfl, rfl, hagree⟩

/-- A database that has lost one of two cells. -/
def secondFails : Database 2 := fun c ids =>
  if c = 0 then Database.ofRecords (fun id => ⟨id, [5], [], []⟩) c ids
  else .httpException 500

theorem answersLike_secondFails :
    AnswersLike (.ofRecords fun id => ⟨id, [5], [], []⟩) secondFails := by
  intro c ids x hx
  unfold secondFails at hx
  by_cases hc : c = 0
  · rw [if_pos hc] at hx
    exact ⟨x, hx, .refl _⟩
  · rw [if_neg hc] at hx
    exact absurd hx (by simp)

/-- The first cell is loaded and the second is not; the second attempt loads both. -/
theorem failed_load_retried_secondFails :
    ∃ s s₁ t, Reaches (Faiss.discrete 2 1) [.add 1 [[97, 0]] [5]] s ∧
      s.loadCellWithVec (Faiss.discrete 2 1) secondFails [5] 2 = .ok (.throwsHttp 500 s₁) ∧
      s₁.residenceStatuses 0 = 1 ∧
      s.loadCellWithVec (Faiss.discrete 2 1) (.ofRecords fun id => ⟨id, [5], [], []⟩) [5] 2 =
        .ok (.returns t) ∧
      SameExit (s₁.loadCellWithVec (Faiss.discrete 2 1)
        (.ofRecords fun id => ⟨id, [5], [], []⟩) [5] 2) (.ok (.returns t)) := by
  obtain ⟨s, s₁, t, hreach, hfail, hfirst, hload⟩ :
      ∃ s s₁ t, Reaches (Faiss.discrete 2 1) [.add 1 [[97, 0]] [5]] s ∧
        s.loadCellWithVec (Faiss.discrete 2 1) secondFails [5] 2 = .ok (.throwsHttp 500 s₁) ∧
        s₁.residenceStatuses 0 = 1 ∧
        s.loadCellWithVec (Faiss.discrete 2 1) (.ofRecords fun id => ⟨id, [5], [], []⟩) [5] 2 =
          .ok (.returns t) :=
    ⟨_, _, _, rfl, rfl, rfl, rfl⟩
  refine ⟨s, s₁, t, hreach, hfail, hfirst, hload, ?_⟩
  rw [← hload]
  exact ((failed_load_retried (Faiss.discrete 2 1) _ s hreach [5] 2).2 _ s₁
    (.single ⟨secondFails, 500, answersLike_secondFails, hfail⟩)).1

end Core

end Periplus.Ports
