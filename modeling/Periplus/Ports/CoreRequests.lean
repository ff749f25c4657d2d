import Periplus.Ports.CellIndices
import Periplus.Ports.CoreAnswers

/-!
# The requests of a LOAD

`loadCell` sends one request to the proxy, with the ids that are registered in the cell.
`requests` follows the loop of `loadCellWithVec` and lists what is sent, also when the loop
does not come to its end.

## Main results

* `loadCells_local` — a load depends on the database only through the requests it sends.
* `requests_spec` — these are the requests for the empty cells, up to the first that fails.
* `load_requests` — the two together, and that a cell is not asked for again while it is in
  residence.
-/

namespace Periplus.Ports

open Periplus.Verified.Memory
open Periplus.Verified.Run

namespace Core

variable {nCells : Nat} {δ : Type} [LinearOrder δ]

/-- The cells asked for, and the ids in the bodies of the requests. -/
abbrev Requests (nCells : Nat) := List (Fin nCells × List Bytes)

/-- The calls of `db->search` in the loop of `loadCellWithVec`. -/
def requests (F : Faiss nCells δ) (db : Database nCells) :
    List Int → Core nCells → Requests nCells
  | [], _ => []
  | label :: labels, s =>
      match cellAt nCells label with
      | .error _ => []
      | .ok c =>
          if s.residenceStatuses c > -1 then requests F db labels s
          else
            (c, s.idsByCell c) ::
              match loadCell F db c s with
              | .ok (.returns s') => requests F db labels s'
              | .ok (.throwsHttp _ _) => []
              | .error _ => []

/-- The calls of `db->search` in `loadCellWithVec`. -/
def loadRequests (F : Faiss nCells δ) (db : Database nCells) (xq : List F32) (nload : Nat)
    (s : Core nCells) : Requests nCells :=
  match F.quantizerSearch 1 xq nload with
  | .error _ => []
  | .ok centroidIndices => requests F db centroidIndices s

/-- The requests of an operation. -/
def requestsOf (F : Faiss nCells δ) (s : Core nCells) : Op nCells → Requests nCells
  | .load xq nload db => s.loadRequests F db xq nload
  | .train => []
  | .add _ _ _ => []
  | .evict _ _ => []
  | .search _ _ _ _ _ _ => []

/-- The operation sends a request for the cell. -/
def AsksFor (F : Faiss nCells δ) (c : Fin nCells) (s : Core nCells) (op : Op nCells) : Prop :=
  ∃ ids, (c, ids) ∈ requestsOf F s op

/-- Two databases answer the given requests alike. -/
def AgreeOn (rs : Requests nCells) (db db' : Database nCells) : Prop :=
  ∀ r ∈ rs, db r.1 r.2 = db' r.1 r.2

/-! ## Only the requests matter -/

theorem loadCell_congr_db {F : Faiss nCells δ} {db db' : Database nCells} {c : Fin nCells}
    {s : Core nCells} (h : db c (s.idsByCell c) = db' c (s.idsByCell c)) :
    loadCell F db' c s = loadCell F db c s := by
  rw [loadCell, loadCell, h]

/-- **A load depends on the database only through its requests.** -/
theorem loadCells_local {F : Faiss nCells δ} {db db' : Database nCells} {labels : List Int}
    {s : Core nCells} (h : AgreeOn (requests F db labels s) db db') :
    loadCells F db' labels s = loadCells F db labels s ∧
      requests F db' labels s = requests F db labels s := by
  induction labels generalizing s with
  | nil => exact ⟨rfl, rfl⟩
  | cons label labels ih =>
      unfold requests loadCells
      unfold requests at h
      cases hc : cellAt nCells label with
      | error f => exact ⟨rfl, rfl⟩
      | ok c =>
          rw [hc] at h
          rw [ok_bind, ok_bind]
          by_cases hstatus : s.residenceStatuses c > -1
          · simp only [if_pos hstatus] at h ⊢
            exact ih h
          · simp only [if_neg hstatus] at h ⊢
            have hcell : loadCell F db' c s = loadCell F db c s :=
              loadCell_congr_db (h _ List.mem_cons_self)
            rw [hcell]
            cases hload : loadCell F db c s with
            | error f => exact ⟨rfl, rfl⟩
            | ok exit =>
                cases exit with
                | throwsHttp code s' => exact ⟨rfl, rfl⟩
                | returns s' =>
                    rw [hload] at h
                    have hrest := ih (fun r hr => h r (List.mem_cons_of_mem _ hr))
                    refine ⟨hrest.1, ?_⟩
                    exact congrArg _ hrest.2

/-! ## Which requests are sent -/

/-- The request for a cell. -/
def requestFor (s : Core nCells) (c : Fin nCells) : Fin nCells × List Bytes :=
  (c, s.idsByCell c)

/-- Loading a cell leaves the requests for the others as they were. -/
theorem Loaded.requestFor {F : Faiss nCells δ} {s t : Core nCells} {c : Fin nCells}
    {xs : List Data} (h : Loaded F c xs s t) : t.requestFor = s.requestFor := by
  funext c'
  rw [Core.requestFor, Core.requestFor, h.registry.2.1]

theorem Loaded.asked {F : Faiss nCells δ} {s t : Core nCells} {c : Fin nCells}
    {xs : List Data} (h : Loaded F c xs s t) {cells : List (Fin nCells)} (hc : c ∉ cells) :
    t.asked cells = s.asked cells := by
  apply List.filter_congr
  intro c' hc'
  have hne : c' ≠ c := fun heq => hc (heq ▸ hc')
  rw [h.residenceStatuses, Function.update_of_ne hne]

/-- A request is sent for a cell that is empty, with the ids registered in it. -/
theorem mem_requests {F : Faiss nCells δ} {db : Database nCells} {labels : List Int}
    {s : Core nCells} (hstatuses : ∀ c, s.residenceStatuses c = -1 ∨ 0 ≤ s.residenceStatuses c)
    {r : Fin nCells × List Bytes} (h : r ∈ requests F db labels s) :
    s.residenceStatuses r.1 = -1 ∧ r.2 = s.idsByCell r.1 := by
  induction labels generalizing s with
  | nil => exact absurd h List.not_mem_nil
  | cons label labels ih =>
      unfold requests at h
      cases hc : cellAt nCells label with
      | error f =>
          rw [hc] at h
          exact absurd h List.not_mem_nil
      | ok c =>
          rw [hc] at h
          by_cases hstatus : s.residenceStatuses c > -1
          · simp only [if_pos hstatus] at h
            exact ih hstatuses h
          · simp only [if_neg hstatus, List.mem_cons] at h
            rcases h with rfl | h
            · have hempty : s.residenceStatuses c = -1 := by
                have hcell := hstatuses c
                omega
              exact ⟨hempty, rfl⟩
            · cases hload : loadCell F db c s with
              | error f =>
                  rw [hload] at h
                  exact absurd h List.not_mem_nil
              | ok exit =>
                  rw [hload] at h
                  rcases loadCell_eq_ok.mp hload with ⟨code, _, rfl⟩ | ⟨x, t, _, hloaded, rfl⟩
                  · exact absurd h List.not_mem_nil
                  · -- a cell that is empty afterwards was empty before
                    have hkept : ∀ c', t.residenceStatuses c' = -1 →
                        s.residenceStatuses c' = -1 := by
                      intro c' hempty
                      rw [hloaded.residenceStatuses] at hempty
                      by_cases hsame : c' = c
                      · rw [hsame, Function.update_self] at hempty
                        omega
                      · rwa [Function.update_of_ne hsame] at hempty
                    have hstatuses' : ∀ c', t.residenceStatuses c' = -1 ∨
                        0 ≤ t.residenceStatuses c' := by
                      intro c'
                      rw [hloaded.residenceStatuses]
                      by_cases hsame : c' = c
                      · rw [hsame, Function.update_self]
                        omega
                      · rw [Function.update_of_ne hsame]
                        exact hstatuses c'
                    obtain ⟨hempty, hids⟩ := ih hstatuses' h
                    rw [hloaded.registry.2.1] at hids
                    exact ⟨hkept r.1 hempty, hids⟩

/-- The requests for the empty cells: for all of them, or up to the first that fails. -/
def SentFor (db : Database nCells) (s : Core nCells) (cells : List (Fin nCells))
    (rs : Requests nCells) : Exit (Core nCells) → Prop
  | .returns _ => rs = (s.asked cells).map s.requestFor
  | .throwsHttp code _ => ∃ pre c post, s.asked cells = pre ++ c :: post ∧
      db c (s.idsByCell c) = .httpException code ∧ rs = (pre ++ [c]).map s.requestFor

/-- **The requests of a loop that comes to its end, or to a request that fails.** -/
theorem requests_spec {F : Faiss nCells δ} {db : Database nCells} {cells : List (Fin nCells)}
    {p : Nat} {s : Core nCells} {exit : Exit (Core nCells)}
    (h : loadCells F db (cells.map (fun c => (c.val : Int)) ++ List.replicate p (-1)) s =
      .ok exit) (hnodup : cells.Nodup) (hinv : StoreInv F s) :
    SentFor db s cells
      (requests F db (cells.map (fun c => (c.val : Int)) ++ List.replicate p (-1)) s) exit := by
  induction cells generalizing s with
  | nil =>
      rw [List.map_nil, List.nil_append, loadCells_padding_eq_ok] at h
      obtain ⟨rfl, rfl⟩ := h
      rfl
  | cons c cells ih =>
      rw [List.nodup_cons] at hnodup
      rw [List.map_cons, List.cons_append, loadCells, cellAt_val, ok_bind] at h
      rw [List.map_cons, List.cons_append, requests, cellAt_val]
      by_cases hstatus : s.residenceStatuses c > -1
      · rw [if_pos hstatus] at h
        have hskip := asked_of_resident (s := s) (c := c) (by omega) cells
        have hrest := ih h hnodup.2 hinv
        simp only [if_pos hstatus]
        unfold SentFor at hrest ⊢
        rwa [hskip]
      · rw [if_neg hstatus] at h
        have hempty : s.residenceStatuses c = -1 := by
          have hcell := hinv.statuses c
          omega
        have hasked := asked_of_empty hempty cells
        simp only [if_neg hstatus]
        obtain ⟨e, he, h⟩ := bind_eq_ok.mp h
        rcases loadCell_eq_ok.mp he with ⟨code, hdb, rfl⟩ | ⟨x, t, hx, hload, rfl⟩
        · rw [Except.ok.injEq] at h
          subst h
          rw [he]
          exact ⟨[], c, s.asked cells, hasked, hdb, rfl⟩
        · have hrest := ih h hnodup.2 (hinv.loaded hload)
          rw [he]
          cases exit with
          | returns s' =>
              have hsent : requests F db _ t = (t.asked cells).map t.requestFor := hrest
              rw [hload.asked hnodup.1, hload.requestFor] at hsent
              show _ :: requests F db _ t = (s.asked (c :: cells)).map s.requestFor
              rw [hasked, hsent]
              rfl
          | throwsHttp code s' =>
              obtain ⟨pre, c', post, hsplit, hfails, hsent⟩ := hrest
              rw [hload.asked hnodup.1] at hsplit
              rw [hload.registry.2.1] at hfails
              rw [hload.requestFor] at hsent
              refine ⟨c :: pre, c', post, ?_, hfails, ?_⟩
              · rw [hasked, hsplit, List.cons_append]
              · show _ :: requests F db _ t = _
                rw [hsent]
                rfl

/-- **The requests of LOAD.**  In every state that is reached: a LOAD that comes back has
sent one request for each of the nearest cells that was empty, with the ids registered in
it, in order and up to the first that failed, and nothing else.  It would have done the
same with every database that answers these requests alike.  A cell that was in residence
is asked for again only when an EVICT has named it since. -/
theorem load_requests (F : Faiss nCells δ) (ops : List (Op nCells)) (s : Core nCells)
    (hreach : Reaches F ops s) (q : List F32) (m : Nat) (db : Database nCells) :
    (∀ exit, s.loadCellWithVec F db q m = .ok exit →
      SentFor db s (probed F (q.take F.d) m) (s.loadRequests F db q m) exit) ∧
    (∀ db', AgreeOn (s.loadRequests F db q m) db db' →
      s.loadCellWithVec F db' q m = s.loadCellWithVec F db q m ∧
        s.loadRequests F db' q m = s.loadRequests F db q m) ∧
    ∀ pre mid s₁ c, ops = pre ++ mid → Reaches F pre s₁ → s₁.residenceStatuses c ≠ -1 →
      AsksFor F c s (.load q m db) → ∃ op ∈ mid, Evicts F c op := by
  have hinv := storeInv_of_reaches hreach
  refine ⟨?_, ?_, ?_⟩
  · intro exit h
    rw [loadCellWithVec] at h
    obtain ⟨labels, hlabels, hloop⟩ := bind_eq_ok.mp h
    have hassign := (quantizerSearch_one.mp hlabels).2.2
    rw [hassign, F.assign_eq_append] at hloop
    rw [loadRequests, hlabels, hassign]
    simp only
    rw [F.assign_eq_append]
    exact requests_spec hloop (probed_nodup F (q.take F.d) m) hinv
  · intro db' hagree
    rw [loadRequests] at hagree
    rw [loadCellWithVec, loadCellWithVec, loadRequests, loadRequests]
    cases hlabels : F.quantizerSearch 1 q m with
    | error f => exact ⟨rfl, rfl⟩
    | ok labels =>
        rw [hlabels] at hagree
        exact loadCells_local hagree
  · intro pre mid s₁ c hops hreach₁ hresident hasks
    obtain ⟨ids, hids⟩ := hasks
    have hempty : s.residenceStatuses c = -1 := by
      have hmem : (c, ids) ∈ s.loadRequests F db q m := hids
      rw [loadRequests] at hmem
      cases hlabels : F.quantizerSearch 1 q m with
      | error f =>
          rw [hlabels] at hmem
          exact absurd hmem List.not_mem_nil
      | ok labels =>
          rw [hlabels] at hmem
          exact (mem_requests hinv.statuses hmem).1
    by_contra hnone
    have hkeep : ∀ op ∈ mid, ¬ Evicts F c op := fun op hop hevicts => hnone ⟨op, hop, hevicts⟩
    have hrun : run (step F) s₁ mid = .ok s := by
      rw [hops] at hreach
      obtain ⟨t, ht, hmid⟩ := run_prefix hreach
      have hsame : t = s₁ := Except.ok.inj (ht.symm.trans hreach₁)
      rwa [hsame] at hmid
    exact resident_of_run hreach₁ hresident hrun hkeep hempty

/-- After the EVICT the cell is asked for again. -/
theorem load_requests_again :
    ∃ s₁ s : Core 1, Reaches (Faiss.discrete 1 1) (evictedRun.take 2) s₁ ∧
      Reaches (Faiss.discrete 1 1) evictedRun s ∧
      s₁.loadRequests (Faiss.discrete 1 1) (.ofRecords fun id => ⟨id, [5], [], []⟩) [5] 1 = [] ∧
      s.loadRequests (Faiss.discrete 1 1) (.ofRecords fun id => ⟨id, [5], [], []⟩) [5] 1 =
        [(0, [[97]])] ∧
      ∃ op ∈ [Op.evict [5] 1], Evicts (Faiss.discrete 1 1) 0 op := by
  obtain ⟨s₁, hreach₁, hresident, hfull⟩ :
      ∃ s₁ : Core 1, Reaches (Faiss.discrete 1 1) (evictedRun.take 2) s₁ ∧
        s₁.residenceStatuses 0 = 1 ∧
        s₁.loadRequests (Faiss.discrete 1 1) (.ofRecords fun id => ⟨id, [5], [], []⟩) [5] 1 =
          [] := ⟨_, rfl, rfl, rfl⟩
  obtain ⟨s, hreach, hsent⟩ :
      ∃ s : Core 1, Reaches (Faiss.discrete 1 1) evictedRun s ∧
        s.loadRequests (Faiss.discrete 1 1) (.ofRecords fun id => ⟨id, [5], [], []⟩) [5] 1 =
          [(0, [[97]])] := ⟨_, rfl, rfl⟩
  have hasks : AsksFor (Faiss.discrete 1 1) 0 s
      (.load [5] 1 (.ofRecords fun id => ⟨id, [5], [], []⟩)) := by
    refine ⟨[[97]], ?_⟩
    show (0, [[97]]) ∈ s.loadRequests (Faiss.discrete 1 1) _ [5] 1
    rw [hsent]
    exact List.mem_singleton.mpr rfl
  have hstayed : s₁.residenceStatuses 0 ≠ -1 := by
    rw [hresident]
    decide
  exact ⟨s₁, s, hreach₁, hreach, hfull, hsent,
    (load_requests (Faiss.discrete 1 1) evictedRun s hreach [5] 1 _).2.2 _ _ s₁ 0 rfl hreach₁
      hstayed hasks⟩

end Core

end Periplus.Ports
