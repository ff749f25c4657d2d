import Periplus.Ports.CoreSnapshots

/-!
# Cells that have been loaded and not been evicted since

A cell is in residence exactly when some LOAD of the run has loaded it and no later
EVICT has named it (`resident_iff`).  A LOAD that comes back without an exception
leaves all the cells it names in residence, whether it has loaded or skipped them, and
nothing but an EVICT takes them out again.

`load_guarantee` is what this means for the searches that follow.
-/

namespace Periplus.Ports

open Periplus.Verified
open Periplus.Verified.Memory
open Periplus.Verified.Run
open Periplus.Verified.Shelves

namespace Core

variable {nCells : Nat} {δ : Type} [LinearOrder δ]

/-- The operation is an EVICT that names the cell. -/
def Evicts (F : Faiss nCells δ) (c : Fin nCells) : Op nCells → Prop
  | .evict xq nevict => c ∈ probed F (xq.take F.d) nevict
  | .train => False
  | .add _ _ _ => False
  | .load _ _ _ => False
  | .search _ _ _ _ _ _ => False

/-- The operation is a LOAD that names the cell. -/
def Names (F : Faiss nCells δ) (c : Fin nCells) : Op nCells → Prop
  | .load xq nload _ => c ∈ probed F (xq.take F.d) nload
  | .train => False
  | .add _ _ _ => False
  | .evict _ _ => False
  | .search _ _ _ _ _ _ => False

/-- The operation is a LOAD that brings the cell into residence. -/
def Loads (F : Faiss nCells δ) (c : Fin nCells) (pre : List (Op nCells)) (op : Op nCells) :
    Prop :=
  Names F c op ∧ ∃ s s', Reaches F pre s ∧ step F s op = .ok s' ∧
    s.residenceStatuses c = -1 ∧ 0 ≤ s'.residenceStatuses c

/-! ## One operation -/

/-- What one operation does to the residency of a cell. -/
theorem resident_step {F : Faiss nCells δ} {docs : List Doc} {s s' : Core nCells}
    {op : Op nCells} (hinv : StoreInv F s) (hreg : RegistryInv F docs s)
    (h : step F s op = .ok s') (c : Fin nCells) :
    (Evicts F c op → s'.residenceStatuses c = -1) ∧
      (¬ Evicts F c op → s.residenceStatuses c ≠ -1 → s'.residenceStatuses c ≠ -1) ∧
      (s.residenceStatuses c = -1 → s'.residenceStatuses c ≠ -1 → Names F c op) := by
  have hshelves : s'.snapshots = (abstractStep F s.abstractOf op).shelves :=
    congrArg AbstractCache.shelves (abstractOf_step hinv hreg h)
  rw [← snapshots_isSome (s := s), ← snapshots_isSome (s := s'), hshelves]
  have hgone : (abstractStep F s.abstractOf op).shelves c = none →
      s'.residenceStatuses c = -1 := by
    intro hnone
    by_contra hne
    rw [← hshelves] at hnone
    have hsome := snapshots_isSome.mpr hne
    rw [hnone] at hsome
    exact absurd hsome (by decide)
  have hempty : s.residenceStatuses c = -1 → s.snapshots c = none := snapshots_of_status
  cases op with
  | train => exact ⟨fun h => absurd h id, fun _ h => h, fun h h' => by
      rw [show (abstractStep F s.abstractOf .train).shelves = s.snapshots from rfl,
        hempty h] at h'
      exact absurd h' (by decide)⟩
  | add numDocs ids embeddings => exact ⟨fun h => absurd h id, fun _ h => h, fun h h' => by
      rw [show (abstractStep F s.abstractOf (.add numDocs ids embeddings)).shelves =
        s.snapshots from rfl, hempty h] at h'
      exact absurd h' (by decide)⟩
  | search n xq k nprobe requireAll data =>
      exact ⟨fun h => absurd h id, fun _ h => h, fun h h' => by
        rw [show (abstractStep F s.abstractOf (.search n xq k nprobe requireAll data)).shelves =
          s.snapshots from rfl, hempty h] at h'
        exact absurd h' (by decide)⟩
  | load xq nload db =>
      refine ⟨fun h => absurd h id, fun _ hsome => ?_, fun hstatus hsome => ?_⟩
      · obtain ⟨xs, hxs⟩ := Option.isSome_iff_exists.mp hsome
        show (Shelves.load _ _ s.snapshots c).isSome
        rw [load_of_some hxs]
        rfl
      · by_contra hnot
        rw [show (abstractStep F s.abstractOf (.load xq nload db)).shelves c =
          s.snapshots c from load_of_not_mem hnot, hempty hstatus] at hsome
        exact absurd hsome (by decide)
  | evict xq nevict =>
      refine ⟨fun hmem => hgone (if_pos hmem), fun hnot hsome => ?_, fun hstatus hsome => ?_⟩
      · rw [show (abstractStep F s.abstractOf (.evict xq nevict)).shelves c =
          s.snapshots c from if_neg hnot]
        exact hsome
      · exfalso
        have hnone : (abstractStep F s.abstractOf (.evict xq nevict)).shelves c = none := by
          show (if c ∈ probed F (xq.take F.d) nevict then none else s.snapshots c) = none
          rw [hempty hstatus, ite_self]
        rw [hnone] at hsome
        exact absurd hsome (by decide)

/-- **A cell is in residence exactly when it has been loaded and not been evicted
since.** -/
theorem resident_iff {F : Faiss nCells δ} {ops : List (Op nCells)} {s : Core nCells}
    (h : Reaches F ops s) (c : Fin nCells) :
    s.residenceStatuses c ≠ -1 ↔ Since (Loads F c) (Evicts F c) ops := by
  refine history_invariant
    (fun as t => t.residenceStatuses c ≠ -1 ↔ Since (Loads F c) (Evicts F c) as) ?_ ?_ h
  · exact ⟨fun hne => absurd rfl hne, fun hsince => absurd hsince not_since_nil⟩
  · intro as t op t' hrun ih hstep
    obtain ⟨hout, hkeep, hin⟩ :=
      resident_step (storeInv_of_reaches hrun) (registryInv_of_reaches hrun) hstep c
    have hstatus' := (storeInv_of_reaches (run_concat.mpr ⟨t, hrun, hstep⟩)).statuses c
    rw [since_concat, ← ih]
    constructor
    · intro hresident
      by_cases hbefore : t.residenceStatuses c = -1
      · exact Or.inl ⟨hin hbefore hresident, t, t', hrun, hstep, hbefore, by omega⟩
      · exact Or.inr ⟨hbefore, fun hevicts => hresident (hout hevicts)⟩
    · rintro (⟨_, t₁, t₂, hrun₁, hstep₁, _, hloaded⟩ | ⟨hbefore, hnot⟩)
      · have heq : t₁ = t := Except.ok.inj (hrun₁.symm.trans hrun)
        rw [heq, hstep, Except.ok.injEq] at hstep₁
        rw [hstep₁]
        omega
      · exact hkeep hnot hbefore

/-! ## After a load -/

/-- A load that comes back has found a cell behind every label, and leaves all of them in
residence. -/
theorem loadCells_resident {F : Faiss nCells δ} {db : Database nCells}
    {cells : List (Fin nCells)} {p : Nat} {s s' : Core nCells}
    (h : loadCells F db (cells.map (fun c => (c.val : Int)) ++ List.replicate p (-1)) s =
      .ok (.returns s')) (hinv : StoreInv F s) :
    p = 0 ∧ ∀ c ∈ cells, s'.residenceStatuses c ≠ -1 := by
  induction cells generalizing s with
  | nil =>
      rw [List.map_nil, List.nil_append, loadCells_padding_eq_ok] at h
      exact ⟨h.1, fun c hc => absurd hc List.not_mem_nil⟩
  | cons c cells ih =>
      rw [List.map_cons, List.cons_append, loadCells, cellAt_val, ok_bind] at h
      -- a cell that is in residence stays there
      have hstays : ∀ t : Core nCells, t.residenceStatuses c ≠ -1 →
          loadCells F db (cells.map (fun c => (c.val : Int)) ++ List.replicate p (-1)) t =
            .ok (.returns s') → s'.residenceStatuses c ≠ -1 := by
        intro t ht hrest
        refine loadCells_rule (P := fun t => t.residenceStatuses c ≠ -1) ?_ hrest ht
        intro t t' c' x ht _ _ hload
        rw [hload.residenceStatuses]
        by_cases hc : c = c'
        · rw [hc, Function.update_self]
          omega
        · rw [Function.update_of_ne hc]
          exact ht
      by_cases hstatus : s.residenceStatuses c > -1
      · rw [if_pos hstatus] at h
        obtain ⟨hp, hrest⟩ := ih h hinv
        rw [List.forall_mem_cons]
        exact ⟨hp, hstays s (by omega) h, hrest⟩
      · rw [if_neg hstatus] at h
        obtain ⟨e, he, h⟩ := bind_eq_ok.mp h
        rcases loadCell_eq_ok.mp he with ⟨code, _, rfl⟩ | ⟨x, t, _, hload, rfl⟩
        · exact absurd h (by simp)
        · obtain ⟨hp, hrest⟩ := ih h (hinv.loaded hload)
          rw [List.forall_mem_cons]
          refine ⟨hp, hstays t ?_ h, hrest⟩
          rw [hload.residenceStatuses, Function.update_self]
          omega

theorem loadCellWithVec_resident {F : Faiss nCells δ} {db : Database nCells} {xq : List F32}
    {m : Nat} {s s' : Core nCells} (h : s.loadCellWithVec F db xq m = .ok (.returns s'))
    (hinv : StoreInv F s) :
    m ≤ (F.ranked (xq.take F.d)).length ∧
      ∀ c ∈ probed F (xq.take F.d) m, s'.residenceStatuses c ≠ -1 := by
  rw [loadCellWithVec] at h
  obtain ⟨labels, hlabels, hloop⟩ := bind_eq_ok.mp h
  rw [(quantizerSearch_one.mp hlabels).2.2, F.assign_eq_append] at hloop
  obtain ⟨hp, hall⟩ := loadCells_resident hloop hinv
  refine ⟨?_, hall⟩
  rw [List.length_take] at hp
  omega

/-- A cell stays in residence while no EVICT names it. -/
theorem resident_of_run {F : Faiss nCells δ} {ops : List (Op nCells)} {s : Core nCells}
    (hreach : Reaches F ops s) {c : Fin nCells} (hresident : s.residenceStatuses c ≠ -1)
    {later : List (Op nCells)} {s' : Core nCells} (hrun : run (step F) s later = .ok s')
    (hkeep : ∀ op ∈ later, ¬ Evicts F c op) : s'.residenceStatuses c ≠ -1 := by
  have hreach' : Reaches F (ops ++ later) s' := (run_append hreach later).trans hrun
  rw [resident_iff hreach]  at hresident
  rw [resident_iff hreach']
  obtain ⟨past, op, after, rfl, hon, hoff⟩ := hresident
  refine ⟨past, op, after ++ later, by rw [List.append_assoc, List.cons_append], hon, ?_⟩
  rw [List.forall_mem_append]
  exact ⟨hoff, hkeep⟩

/-! ## Searches -/

/-- A search that comes back has asked the quantizer for some labels. -/
theorem labels_of_search {F : Faiss nCells δ} {s s' : Core nCells} {n k nprobe : Nat}
    {xq : List F32} {requireAll : Bool} {data data' : List Data} {hits : List Int}
    (h : s.search F n xq k nprobe requireAll data = .ok (s', data', hits)) :
    nprobe ≠ 0 ∧ ∃ labels, F.quantizerSearch n xq nprobe = .ok labels := by
  rw [search] at h
  obtain ⟨labels, hlabels, _⟩ := bind_eq_ok.mp h
  refine ⟨?_, labels, hlabels⟩
  rintro rfl
  rw [Faiss.quantizerSearch_eq, if_pos rfl] at hlabels
  exact absurd hlabels (by simp)

/-- Some cell is probed. -/
theorem probed_eq_cons {F : Faiss nCells δ} {v : List F32} {nprobe : Nat} (hprobe : nprobe ≠ 0)
    (hlen : nprobe ≤ (F.ranked v).length) : ∃ c cells, probed F v nprobe = c :: cells :=
  take_ranked_eq_cons (Nat.pos_of_ne_zero hprobe) hlen

/-- A query whose cells are all in residence does not miss. -/
theorem search_of_resident {F : Faiss nCells δ} {s s' : Core nCells} (hinv : StoreInv F s)
    {n k nprobe : Nat} {xq : List F32} {requireAll : Bool} {data data' : List Data}
    {hits : List Int} (h : s.search F n xq k nprobe requireAll data = .ok (s', data', hits))
    {i : Nat} (hi : i < n) (hlen : nprobe ≤ (F.ranked (F.query xq i)).length)
    (hall : ∀ c ∈ probed F (F.query xq i) nprobe, s.residenceStatuses c ≠ -1) :
    ∃ m, hits[i]? = some m ∧ 0 ≤ m := by
  obtain ⟨hprobe, labels, hlabels⟩ := labels_of_search h
  obtain ⟨m, hm, hmiss | ⟨_, q, _, _, _, hcount⟩⟩ := search_batch_answer hinv hlabels h hi
  · exfalso
    obtain ⟨c, cells, hcells⟩ := probed_eq_cons hprobe hlen
    have hhit : Core.cacheHit { s with nprobe := nprobe } requireAll
        (F.assign (F.query xq i) nprobe) = .ok true := by
      rw [cacheHit_probe, assign_eq_map.mpr ⟨hlen, hcells.symm⟩]
      refine cacheHit_of_resident requireAll (fun c' hc' => ?_)
      have hne := hall c' (hcells ▸ hc')
      have := hinv.statuses c'
      omega
    rw [Faiss.quantizerSearch_row hlabels hi, hhit] at hmiss
    exact absurd hmiss.1 (by simp)
  · exact ⟨m, hm, by omega⟩

/-- A count that is not negative is that of a hit. -/
theorem resident_of_search {F : Faiss nCells δ} {s s' : Core nCells} (hinv : StoreInv F s)
    {n k nprobe : Nat} {xq : List F32} {data data' : List Data} {hits : List Int}
    (h : s.search F n xq k nprobe true data = .ok (s', data', hits)) {i : Nat} (hi : i < n)
    {m : Int} (hm : hits[i]? = some m) (hpos : 0 ≤ m) :
    ∀ c ∈ probed F (F.query xq i) nprobe, s.residenceStatuses c ≠ -1 := by
  obtain ⟨hprobe, labels, hlabels⟩ := labels_of_search h
  obtain ⟨m', hm', hmiss | ⟨hhit, _⟩⟩ := search_batch_answer hinv hlabels h hi
  · rw [hm, Option.some.injEq] at hm'
    omega
  · rw [Faiss.quantizerSearch_row hlabels hi, cacheHit_probe] at hhit
    exact ((hinv.cacheHit_iff hprobe).mp hhit).2

/-- A batch of queries that can all be ranked comes back. -/
theorem search_progress {F : Faiss nCells δ} {s : Core nCells} (hinv : StoreInv F s)
    {n k nprobe : Nat} {xq : List F32} (hd : 1 ≤ F.d) (hxq : xq.length = n * F.d) (hk : 1 ≤ k)
    (hprobe : 1 ≤ nprobe) (hranked : ∀ i < n, nprobe ≤ (F.ranked (F.query xq i)).length)
    (requireAll : Bool) {data : List Data} (hdata : n * k ≤ data.length) :
    ∃ r, s.search F n xq k nprobe requireAll data = .ok r := by
  have hnprobe : nprobe ≠ 0 := by omega
  obtain ⟨labels, hlabels, hrows⟩ := quantizerSearch_batch hxq hnprobe
  have hanswer : ∀ i ∈ List.range n, ∃ r h, Answer F xq k nprobe requireAll labels
      { s with nprobe := nprobe } i r h := by
    intro i hmem
    have hi := List.mem_range.mp hmem
    obtain ⟨c, cells, hcells⟩ := probed_eq_cons hnprobe (hranked i hi)
    obtain ⟨hit, hhit⟩ := cacheHit_total { s with nprobe := nprobe } requireAll c cells
    rw [← assign_eq_map.mpr ⟨hranked i hi, hcells.symm⟩, ← hrows i hi] at hhit
    cases hit with
    | false => exact ⟨[], -1, Or.inl ⟨hhit, rfl⟩⟩
    | true =>
        have hwindow : i + F.d ≤ xq.length := by
          have hrow := row_le hi F.d
          have hstart := Nat.le_mul_of_pos_right i (Nat.lt_of_lt_of_le Nat.zero_lt_one hd)
          omega
        exact ⟨_, _, Or.inr ⟨hhit, _, window_of_le hwindow, by omega, rfl, rfl⟩⟩
  obtain ⟨data', hits, hloop⟩ := searchQueries_progress (hinv.congr s.centroids nprobe)
    (fun i hi => (row_le (List.mem_range.mp hi) k).trans hdata) hanswer
  refine ⟨({ s with nprobe := nprobe }, data', hits), ?_⟩
  rw [search, hlabels, ok_bind, hloop]
  rfl

/-- **The guarantee of LOAD.**  In every state that is reached: after a LOAD that comes
back without an exception, and any operations of which none evicts one of its cells, a
search that comes back has no miss at any position at which the query is that vector,
with at most as many probes; and a hit with `require_all` means that the cells probed
have been loaded and not been evicted since.  A search comes back when its queries can
be ranked. -/
theorem load_guarantee (F : Faiss nCells δ) (ops : List (Op nCells)) (s : Core nCells)
    (hreach : Reaches F ops s) :
    (∀ q m db s₁ later s₂, s.loadCellWithVec F db q m = .ok (.returns s₁) →
      run (step F) s₁ later = .ok s₂ →
      (∀ op ∈ later, ∀ c ∈ probed F (q.take F.d) m, ¬ Evicts F c op) →
      ∀ n xq k nprobe requireAll data s' data' hits i,
        s₂.search F n xq k nprobe requireAll data = .ok (s', data', hits) → i < n →
        F.query xq i = q.take F.d → nprobe ≤ m → ∃ h, hits[i]? = some h ∧ 0 ≤ h) ∧
    (∀ n xq k nprobe data s' data' hits i h,
      s.search F n xq k nprobe true data = .ok (s', data', hits) → i < n →
      hits[i]? = some h → 0 ≤ h → ∀ c ∈ probed F (F.query xq i) nprobe,
        Since (Loads F c) (Evicts F c) ops) ∧
    ∀ n xq k nprobe requireAll data, 1 ≤ F.d → xq.length = n * F.d → 1 ≤ k → 1 ≤ nprobe →
      (∀ i < n, nprobe ≤ (F.ranked (F.query xq i)).length) → n * k ≤ data.length →
      ∃ r, s.search F n xq k nprobe requireAll data = .ok r := by
  have hinv := storeInv_of_reaches hreach
  refine ⟨?_, ?_, ?_⟩
  · intro q m db s₁ later s₂ hload hrun hkeep n xq k nprobe requireAll data s' data' hits i
      hsearch hi hquery hle
    obtain ⟨hranked, hresident⟩ := loadCellWithVec_resident hload hinv
    have hreach₁ : Reaches F (ops ++ [.load q m db]) s₁ := by
      refine run_concat.mpr ⟨s, hreach, ?_⟩
      rw [step, hload]
      rfl
    have hreach₂ : Reaches F (ops ++ [.load q m db] ++ later) s₂ :=
      (run_append hreach₁ later).trans hrun
    refine search_of_resident (storeInv_of_reaches hreach₂) hsearch hi ?_ ?_
    · rw [hquery]
      exact hle.trans hranked
    · intro c hc
      rw [hquery] at hc
      have hmem : c ∈ probed F (q.take F.d) m :=
        (List.take_subset_take_left (F.ranked (q.take F.d)) hle) hc
      exact resident_of_run hreach₁ (hresident c hmem) hrun (fun op hop => hkeep op hop c hmem)
  · intro n xq k nprobe data s' data' hits i h hsearch hi hget hpos c hc
    exact (resident_iff hreach c).mp (resident_of_search hinv hsearch hi hget hpos c hc)
  · intro n xq k nprobe requireAll data hd hxq hk hprobe hranked hdata
    exact search_progress hinv hd hxq hk hprobe hranked requireAll hdata

/-- Behind a LOAD for `[5]` and another ADD, both queries of a batch hit. -/
theorem load_guarantee_batch :
    ∃ s s₁ s₂ r, Reaches (Faiss.discrete 1 1) [.add 1 [[97, 0]] [5]] s ∧
      s.loadCellWithVec (Faiss.discrete 1 1) (.ofRecords fun id => ⟨id, [5], [], []⟩) [5] 1 =
        .ok (.returns s₁) ∧
      run (step (Faiss.discrete 1 1)) s₁ [.add 1 [[98, 0]] [6]] = .ok s₂ ∧
      s₂.search (Faiss.discrete 1 1) 2 [6, 5] 1 1 true [{}, {}] = .ok r ∧
      ∃ h, r.2.2[1]? = some h ∧ 0 ≤ h := by
  obtain ⟨s, s₁, s₂, r, hreach, hload, hrun, hsearch⟩ :
      ∃ s s₁ s₂ r, Reaches (Faiss.discrete 1 1) [.add 1 [[97, 0]] [5]] s ∧
        s.loadCellWithVec (Faiss.discrete 1 1) (.ofRecords fun id => ⟨id, [5], [], []⟩) [5] 1 =
          .ok (.returns s₁) ∧
        run (step (Faiss.discrete 1 1)) s₁ [.add 1 [[98, 0]] [6]] = .ok s₂ ∧
        s₂.search (Faiss.discrete 1 1) 2 [6, 5] 1 1 true [{}, {}] = .ok r :=
    ⟨_, _, _, _, rfl, rfl, rfl, rfl⟩
  refine ⟨s, s₁, s₂, r, hreach, hload, hrun, hsearch, ?_⟩
  refine (load_guarantee (Faiss.discrete 1 1) _ s hreach).1 [5] 1 _ s₁ _ s₂ hload hrun ?_
    2 [6, 5] 1 1 true [{}, {}] r.1 r.2.1 r.2.2 1 hsearch (by decide) rfl (by decide)
  intro op hop c _
  rw [List.mem_singleton] at hop
  rw [hop]
  exact id

end Core

end Periplus.Ports
