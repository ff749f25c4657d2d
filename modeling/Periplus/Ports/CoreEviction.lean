import Periplus.Ports.CoreRetry

/-!
# Evicting cells, and undoing a load

Evicting a cell that is not in residence would change nothing, since its list is
empty (`evicted_of_empty`).  So the loop of `evictCellWithVec` empties all the cells
it names, whichever of them are in residence (`evictCells_eq`), and the order in which
it does so does not matter (`evicted_comm`).

A load enters under the numbers of its records, and an eviction erases the numbers it
finds in the list: for a cell that was empty these are the same numbers
(`evicted_loaded`).
-/

namespace Periplus.Ports

open Periplus.Verified.Memory
open Periplus.Verified.Run

attribute [ext] Core

namespace Core

variable {nCells : Nat} {δ : Type} [LinearOrder δ]

/-- A load that returns, as an operation. -/
theorem step_load {F : Faiss nCells δ} {db : Database nCells} {q : List F32} {m : Nat}
    {s s' : Core nCells} (h : s.loadCellWithVec F db q m = .ok (.returns s')) :
    step F s (.load q m db) = .ok s' := by
  rw [step, h]
  rfl

/-! ## One cell -/

/-- Emptying an empty cell changes nothing. -/
theorem evicted_of_empty {s : Core nCells} {c : Fin nCells}
    (hstatus : s.residenceStatuses c = -1) (hlist : s.invlists c = []) :
    s.evicted c = s := by
  have hdata : eraseAll s.dataMap ((s.invlists c).map Entry.num) = s.dataMap := by
    rw [hlist]
    rfl
  apply Core.ext
  · rfl
  · rw [evicted_residenceStatuses, ← hstatus, Function.update_eq_self]
  · rfl
  · rw [evicted_invlists, ← hlist, Function.update_eq_self]
  · rfl
  · rfl
  · exact hdata
  · rfl

/-- The order in which two cells are emptied does not matter. -/
theorem evicted_comm (s : Core nCells) (c c' : Fin nCells) :
    (s.evicted c).evicted c' = (s.evicted c').evicted c := by
  by_cases hc : c = c'
  · rw [hc]
  · have hne : c' ≠ c := fun h => hc h.symm
    apply Core.ext
    · rfl
    · simp only [evicted_residenceStatuses]
      exact Function.update_comm hc _ _ _
    · rfl
    · simp only [evicted_invlists]
      exact Function.update_comm hc _ _ _
    · rfl
    · rfl
    · funext num
      simp only [evicted_dataMap, evicted_invlists, Function.update_of_ne hc,
        Function.update_of_ne hne]
      split <;> split <;> rfl
    · rfl

/-- **Evicting what a load has entered** into an empty cell restores the tables. -/
theorem evicted_loaded {F : Faiss nCells δ} {s t : Core nCells} {c : Fin nCells}
    {xs : List Data} (hstatus : s.residenceStatuses c = -1) (hlist : s.invlists c = [])
    (h : Loaded F c xs s t) : t.evicted c = s := by
  have hframe := insertAll_frame F (accepted F c s.idMap xs) s
  have hnew : t.invlists c = (accepted F c s.idMap xs).map Stored.entry := by
    rw [h.invlists, Function.update_self, hlist, List.nil_append]
  apply Core.ext
  · show t.centroids = s.centroids
    rw [h.eq]
    exact hframe.1
  · rw [evicted_residenceStatuses, h.residenceStatuses, Function.update_idem, ← hstatus,
      Function.update_eq_self]
  · show t.nprobe = s.nprobe
    rw [h.eq]
    exact hframe.2.2.1
  · rw [evicted_invlists, h.invlists, Function.update_idem, ← hlist, Function.update_eq_self]
  · exact h.registry.1
  · exact h.registry.2.1
  · funext num
    have hnums : (t.invlists c).map Entry.num = (accepted F c s.idMap xs).map Stored.num := by
      rw [hnew, List.map_map]
      rfl
    rw [evicted_dataMap, hnums]
    by_cases hnum : num ∈ (accepted F c s.idMap xs).map Stored.num
    · obtain ⟨e, he, rfl⟩ := List.mem_map.mp hnum
      rw [if_pos hnum, h.admits.absent e he]
    · rw [if_neg hnum, h.dataMap_frame hnum]
  · exact h.registry.2.2

/-! ## Several cells -/

/-- The state in which the given cells have been emptied. -/
def evictedAll (cells : List (Fin nCells)) (s : Core nCells) : Core nCells :=
  cells.foldl (fun t c => t.evicted c) s

@[simp] theorem evictedAll_nil (s : Core nCells) : s.evictedAll [] = s := rfl

@[simp] theorem evictedAll_cons (c : Fin nCells) (cells : List (Fin nCells))
    (s : Core nCells) : s.evictedAll (c :: cells) = (s.evicted c).evictedAll cells := rfl

/-- One cell can be emptied before or after the others. -/
theorem evictedAll_evicted (cells : List (Fin nCells)) (c : Fin nCells) (s : Core nCells) :
    (s.evicted c).evictedAll cells = (s.evictedAll cells).evicted c := by
  induction cells generalizing s with
  | nil => rfl
  | cons c' cells ih =>
      rw [evictedAll_cons, evictedAll_cons, evicted_comm]
      exact ih (s.evicted c')

theorem StoreInv.evictedAll {F : Faiss nCells δ} {s : Core nCells} (h : StoreInv F s)
    (cells : List (Fin nCells)) : StoreInv F (s.evictedAll cells) := by
  induction cells generalizing s with
  | nil => exact h
  | cons c cells ih => exact ih (h.evicted c)

/-- **The loop of `evictCellWithVec`**: it empties the cells of its labels, and faults
only on a label that stands for no cell. -/
theorem evictCells_eq {F : Faiss nCells δ} {cells : List (Fin nCells)} {p : Nat}
    {s : Core nCells} (hinv : StoreInv F s) :
    evictCells (cells.map (fun c => (c.val : Int)) ++ List.replicate p (-1)) s =
      if p = 0 then .ok (s.evictedAll cells) else .error .outOfBounds := by
  induction cells generalizing s with
  | nil =>
      rw [List.map_nil, List.nil_append]
      exact evictCells_padding p s
  | cons c cells ih =>
      rw [List.map_cons, List.cons_append, evictCells, cellAt_val, ok_bind, evictedAll_cons]
      have hcases := hinv.statuses c
      by_cases hstatus : s.residenceStatuses c < 0
      · have hempty : s.residenceStatuses c = -1 := by omega
        rw [if_pos hstatus, evicted_of_empty hempty (hinv.emptyLists c hempty)]
        exact ih hinv
      · have hcell : evictCell c s = .ok (s.evicted c) :=
          evictCell_eq_ok.mpr ⟨by omega, rfl⟩
        rw [if_neg hstatus, hcell, ok_bind]
        exact ih (hinv.evicted c)

/-- EVICT of the cells nearest to a vector. -/
theorem evictCellWithVec_eq {F : Faiss nCells δ} {q : List F32} {m : Nat} {s : Core nCells}
    (hinv : StoreInv F s) (hm : m ≠ 0) (hq : F.d ≤ q.length) :
    s.evictCellWithVec F q m =
      if m ≤ (F.ranked (q.take F.d)).length then
        .ok (s.evictedAll (probed F (q.take F.d) m))
      else .error .outOfBounds := by
  have hpadding : m - (probed F (q.take F.d) m).length = 0 ↔
      m ≤ (F.ranked (q.take F.d)).length := by
    rw [probed, List.length_take]
    omega
  rw [evictCellWithVec, quantizerSearch_one.mpr ⟨hm, hq, rfl⟩, ok_bind,
    F.assign_eq_append, evictCells_eq hinv]
  exact if_congr hpadding rfl rfl

/-- What it means that some cells, and nothing else, have been emptied. -/
structure Emptied (cells : List (Fin nCells)) (s s' : Core nCells) : Prop where
  emptied : ∀ c ∈ cells, s'.residenceStatuses c = -1 ∧ s'.invlists c = []
  dataMap : ∀ num, s'.dataMap num =
    if ∃ c ∈ cells, num ∈ s.numbers c then none else s.dataMap num
  others : ∀ c, c ∉ cells → Untouched s s' c
  idsByCell : s'.idsByCell = s.idsByCell
  idMap : s'.idMap = s.idMap
  nextId : s'.nextId = s.nextId

/-- **Exactly the named cells are emptied.** -/
theorem StoreInv.emptied {F : Faiss nCells δ} {s : Core nCells} (h : StoreInv F s)
    (cells : List (Fin nCells)) : Emptied cells s (s.evictedAll cells) := by
  induction cells generalizing s with
  | nil =>
      exact
        { emptied := by simp
          dataMap := by simp
          others := fun c _ => ⟨rfl, rfl, fun _ _ => rfl⟩
          idsByCell := rfl
          idMap := rfl
          nextId := rfl }
  | cons c cells ih =>
      have hrest := ih (h.evicted c)
      have hself : (s.evicted c).numbers c = [] := by
        rw [numbers, evicted_invlists, Function.update_self]
        rfl
      have hother : ∀ c', c' ≠ c → (s.evicted c).numbers c' = s.numbers c' := by
        intro c' hc
        rw [numbers, evicted_invlists, Function.update_of_ne hc]
        rfl
      have hdata : ∀ num, (s.evicted c).dataMap num =
          if num ∈ s.numbers c then none else s.dataMap num :=
        fun num => evicted_dataMap c s num
      rw [evictedAll_cons]
      refine
        { emptied := ?_
          dataMap := ?_
          others := ?_
          idsByCell := hrest.idsByCell
          idMap := hrest.idMap
          nextId := hrest.nextId }
      · rw [List.forall_mem_cons]
        constructor
        · by_cases hmem : c ∈ cells
          · exact hrest.emptied c hmem
          · have hkeep := hrest.others c hmem
            rw [hkeep.status, hkeep.list, evicted_residenceStatuses, evicted_invlists,
              Function.update_self, Function.update_self]
            exact ⟨rfl, rfl⟩
        · exact hrest.emptied
      · intro num
        rw [hrest.dataMap num, hdata num]
        by_cases hnum : num ∈ s.numbers c
        · have hhere : ∃ c' ∈ c :: cells, num ∈ s.numbers c' := ⟨c, List.mem_cons_self, hnum⟩
          rw [if_pos hnum, ite_self, if_pos hhere]
        · -- a number that is not in the first list is where it was
          have hsame : ∀ c', num ∈ (s.evicted c).numbers c' ↔ num ∈ s.numbers c' := by
            intro c'
            by_cases hc : c' = c
            · subst hc
              simp [hself, hnum]
            · rw [hother c' hc]
          rw [if_neg hnum]
          apply if_congr _ rfl rfl
          simp only [hsame, List.exists_mem_cons_iff, hnum, false_or]
      · intro c' hc'
        rw [List.mem_cons, not_or] at hc'
        have hkeep := hrest.others c' hc'.2
        have hlist : (s.evicted c).invlists c' = s.invlists c' := by
          rw [evicted_invlists, Function.update_of_ne hc'.1]
        apply Untouched.mk
        · rw [hkeep.status, evicted_residenceStatuses, Function.update_of_ne hc'.1]
        · rw [hkeep.list, hlist]
        · intro num hnum
          have hnot : num ∉ s.numbers c := fun hmem => hc'.1 (h.cell_unique hnum hmem)
          rw [hkeep.records num (by rw [hother c' hc'.1]; exact hnum), hdata, if_neg hnot]

/-! ## Undoing a load -/

/-- **Emptying the cells that a load has filled** leads back to where it began. -/
theorem evictedAll_loadCells {F : Faiss nCells δ} {db : Database nCells}
    {cells : List (Fin nCells)} {p : Nat} {s s₁ : Core nCells} (hinv : StoreInv F s)
    (hnodup : cells.Nodup) (hempty : ∀ c ∈ cells, s.residenceStatuses c = -1)
    (h : loadCells F db (cells.map (fun c => (c.val : Int)) ++ List.replicate p (-1)) s =
      .ok (.returns s₁)) : s₁.evictedAll cells = s := by
  induction cells generalizing s with
  | nil =>
      rw [List.map_nil, List.nil_append, loadCells_padding_eq_ok, Exit.returns.injEq] at h
      rw [evictedAll_nil, h.2]
  | cons c cells ih =>
      rw [List.nodup_cons] at hnodup
      have hstatus := hempty c List.mem_cons_self
      rw [List.map_cons, List.cons_append, loadCells, cellAt_val, ok_bind,
        if_neg (by omega)] at h
      obtain ⟨e, he, h⟩ := bind_eq_ok.mp h
      rcases loadCell_eq_ok.mp he with ⟨code, _, rfl⟩ | ⟨x, t, _, hload, rfl⟩
      · exact absurd h (by simp)
      · have hrest : ∀ c' ∈ cells, t.residenceStatuses c' = -1 := by
          intro c' hc'
          have hne : c' ≠ c := fun heq => hnodup.1 (heq ▸ hc')
          rw [hload.residenceStatuses, Function.update_of_ne hne]
          exact hempty c' (List.mem_cons_of_mem c hc')
        have hback : s₁.evictedAll cells = t := ih (hinv.loaded hload) hnodup.2 hrest h
        rw [evictedAll_cons, evictedAll_evicted, hback]
        exact evicted_loaded hstatus (hinv.emptyLists c hstatus) hload

/-- **EVICT removes exactly the cells it names, and undoes LOAD.**  In every state that
is reached and for every vector: an EVICT never asks for a cell that is not in residence
to be evicted, and when it comes back, as it does when so many cells can be ranked, the
nearest cells are empty and everything else is as it was; what a LOAD has brought into
cells that were all empty is gone again after an EVICT of the same cells. -/
theorem evict_undoes_load (F : Faiss nCells δ) (ops : List (Op nCells)) (s : Core nCells)
    (hreach : Reaches F ops s) (q : List F32) (m : Nat) :
    s.evictCellWithVec F q m ≠ .error (.exception .notInResidence) ∧
    (∀ s', s.evictCellWithVec F q m = .ok s' →
      Emptied (probed F (q.take F.d) m) s s') ∧
    (1 ≤ m → F.d ≤ q.length → m ≤ (F.ranked (q.take F.d)).length →
      ∃ s', s.evictCellWithVec F q m = .ok s') ∧
    ∀ db s₁, (∀ c ∈ probed F (q.take F.d) m, s.residenceStatuses c = -1) →
      s.loadCellWithVec F db q m = .ok (.returns s₁) →
      s₁.evictCellWithVec F q m = .ok s := by
  have hinv := storeInv_of_reaches hreach
  by_cases hasks : m ≠ 0 ∧ F.d ≤ q.length
  · have hevict := evictCellWithVec_eq hinv hasks.1 hasks.2
    by_cases hranked : m ≤ (F.ranked (q.take F.d)).length
    · rw [if_pos hranked] at hevict
      rw [hevict]
      refine ⟨by simp, ?_, fun _ _ _ => ⟨_, rfl⟩, ?_⟩
      · intro s' hs'
        rw [Except.ok.injEq] at hs'
        rw [← hs']
        exact hinv.emptied _
      · intro db s₁ hempty hload
        have hinv₁ : StoreInv F s₁ := hinv.step (step_load hload)
        rw [loadCellWithVec] at hload
        obtain ⟨labels, hlabels, hload⟩ := bind_eq_ok.mp hload
        rw [(quantizerSearch_one.mp hlabels).2.2, F.assign_eq_append] at hload
        rw [evictCellWithVec_eq hinv₁ hasks.1 hasks.2, if_pos hranked, Except.ok.injEq]
        exact evictedAll_loadCells hinv (probed_nodup F _ m) hempty hload
    · rw [if_neg hranked] at hevict
      rw [hevict]
      refine ⟨by simp, by simp, fun _ _ h => absurd h hranked, ?_⟩
      intro db s₁ _ hload
      exact absurd (loadCellWithVec_resident hload hinv).1 hranked
  · have hlabels : ∀ labels, F.quantizerSearch 1 q m ≠ .ok labels :=
      fun labels h => hasks ⟨(quantizerSearch_one.mp h).1, (quantizerSearch_one.mp h).2.1⟩
    refine ⟨?_, ?_, fun hm hq => absurd ⟨by omega, hq⟩ hasks, ?_⟩
    · intro h
      rw [evictCellWithVec] at h
      rcases bind_eq_error.mp h with hask | ⟨labels, hask, _⟩
      · rw [Faiss.quantizerSearch_eq] at hask
        split at hask
        · simp at hask
        split at hask <;> simp at hask
      · exact hlabels labels hask
    · intro s' h
      rw [evictCellWithVec] at h
      obtain ⟨labels, hask, _⟩ := bind_eq_ok.mp h
      exact absurd hask (hlabels labels)
    · intro db s₁ _ h
      rw [loadCellWithVec] at h
      obtain ⟨labels, hask, _⟩ := bind_eq_ok.mp h
      exact absurd hask (hlabels labels)

/-- Two cells, of which the first holds a record, are loaded and evicted again. -/
theorem evict_undoes_load_two :
    ∃ s s₁, Reaches (Faiss.discrete 2 1) [.add 1 [[97, 0]] [5]] s ∧
      s.loadCellWithVec (Faiss.discrete 2 1) (.ofRecords fun id => ⟨id, [5], [], []⟩) [5] 2 =
        .ok (.returns s₁) ∧
      (s₁.invlists 0).length = 1 ∧ s₁.residenceStatuses 1 = 0 ∧
      s₁.evictCellWithVec (Faiss.discrete 2 1) [5] 2 = .ok s := by
  obtain ⟨s, s₁, hreach, hempty, hload, hlist, hstatus⟩ :
      ∃ s s₁, Reaches (Faiss.discrete 2 1) [.add 1 [[97, 0]] [5]] s ∧
        (∀ c, s.residenceStatuses c = -1) ∧
        s.loadCellWithVec (Faiss.discrete 2 1) (.ofRecords fun id => ⟨id, [5], [], []⟩) [5] 2 =
          .ok (.returns s₁) ∧
        (s₁.invlists 0).length = 1 ∧ s₁.residenceStatuses 1 = 0 :=
    ⟨_, _, rfl, fun _ => rfl, rfl, rfl, rfl⟩
  exact ⟨s, s₁, hreach, hload, hlist, hstatus,
    (evict_undoes_load (Faiss.discrete 2 1) _ s hreach [5] 2).2.2.2 _ s₁
      (fun c _ => hempty c) hload⟩

end Core

end Periplus.Ports
