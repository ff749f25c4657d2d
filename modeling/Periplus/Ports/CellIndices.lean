import Periplus.Ports.CacheRuns
import Periplus.Ports.CoreResidency

/-!
# The indices the core uses, and the counts it passes on

`n_load`, `n_evict`, `n_probe` and `k` come from the wire and go to FAISS as they are.
FAISS throws when it is asked for no neighbours, and pads its answer with `-1` when it
has too few; `Core::search` looks for the padding among the labels of records, and no
operation looks for it among the labels of cells.

For each operation this module states what it uses as an index (a label at which its
loop arrives), and proves when all of that is in range: `LoadInRange.iff`,
`EvictInRange.iff`, `SearchInRange.iff` and `AddInRange.iff`.

## Main results

* `loadCells_returns_iff` — a LOAD comes back exactly when all requests are answered and
  all the answers can be stored next to each other.
* `indices_inRange_iff` — every command in every reachable READY state.
-/

namespace Periplus.Ports

open Periplus.Verified.Memory
open Periplus.Verified.Run

/-- A count that FAISS, which takes it as a signed number, can search for. -/
def PositiveCount (k : Nat) : Prop := 0 < k ∧ k < 2 ^ 63

/-- An index into the tables that have an entry for each cell. -/
def IsCell (nCells : Nat) (label : Int) : Prop := 0 ≤ label ∧ label < nCells

theorem isCell_val {nCells : Nat} (c : Fin nCells) : IsCell nCells (c.val : Int) := by
  unfold IsCell
  omega

theorem not_isCell_neg_one {nCells : Nat} : ¬ IsCell nCells (-1) := by
  unfold IsCell
  omega

/-- An element of two lists in a row is in the first, or behind it. -/
theorem mem_or_behind {α : Type} {xs ys pre post : List α} {a : α}
    (h : xs ++ ys = pre ++ a :: post) : a ∈ xs ∨ (a ∈ ys ∧ ∃ more, pre = xs ++ more) := by
  rcases List.append_eq_append_iff.mp h with ⟨more, hpre, hys⟩ | ⟨more, hxs, hrest⟩
  · refine Or.inr ⟨?_, more, hpre⟩
    rw [hys]
    exact List.mem_append_right more List.mem_cons_self
  · cases more with
    | nil =>
        rw [List.nil_append] at hrest
        rw [List.append_nil] at hxs
        exact Or.inr ⟨hrest ▸ List.mem_cons_self, [], by rw [List.append_nil, hxs]⟩
    | cons b more =>
        rw [List.cons_append, List.cons.injEq] at hrest
        rw [hxs, hrest.1]
        exact Or.inl (List.mem_append_right pre List.mem_cons_self)

namespace Core

variable {nCells : Nat} {δ : Type} [LinearOrder δ]

/-- A count above the number of ranked cells leads to padding behind them. -/
theorem assign_of_more {F : Faiss nCells δ} {v : List F32} {k : Nat}
    (h : (F.ranked v).length < k) :
    ∃ p, F.assign v k = (F.ranked v).map (fun c => (c.val : Int)) ++
      (-1) :: List.replicate p (-1) := by
  refine ⟨k - (F.ranked v).length - 1, ?_⟩
  rw [F.assign_eq_append, List.take_of_length_le (by omega), ← List.replicate_succ]
  congr 2
  omega

/-! ## Loading -/

/-- What the request for a cell would store. -/
def storable (F : Faiss nCells δ) (db : Database nCells) (idsByCell : Fin nCells → List Bytes)
    (idMap : Bytes → Option Nat) (c : Fin nCells) : List Stored :=
  match db c (idsByCell c) with
  | .filled x => accepted F c idMap x.toList
  | .httpException _ => []
  | .fault _ => []

/-- Those of the cells that are not in residence. -/
def asked (s : Core nCells) (cells : List (Fin nCells)) : List (Fin nCells) :=
  cells.filter (fun c => s.residenceStatuses c = -1)

theorem storable_of_filled {F : Faiss nCells δ} {db : Database nCells}
    {idsByCell : Fin nCells → List Bytes} {c : Fin nCells} {x : Vector Data (idsByCell c).length}
    (h : db c (idsByCell c) = .filled x) (idMap : Bytes → Option Nat) :
    storable F db idsByCell idMap c = accepted F c idMap x.toList := by
  rw [storable, h]

theorem asked_of_empty {s : Core nCells} {c : Fin nCells} (h : s.residenceStatuses c = -1)
    (cells : List (Fin nCells)) : s.asked (c :: cells) = c :: s.asked cells :=
  List.filter_cons_of_pos (by simpa using h)

theorem asked_of_resident {s : Core nCells} {c : Fin nCells} (h : s.residenceStatuses c ≠ -1)
    (cells : List (Fin nCells)) : s.asked (c :: cells) = s.asked cells :=
  List.filter_cons_of_neg (by simpa using h)

/-- The requests for the cells that are not in residence are all answered, by records
that can be used, and these can be stored next to each other. -/
structure Storable (F : Faiss nCells δ) (db : Database nCells) (s : Core nCells)
    (cells : List (Fin nCells)) : Prop where
  answered : ∀ c ∈ s.asked cells, ∃ x, db c (s.idsByCell c) = .filled x ∧
    ∀ y ∈ x.toList, ∃ o, verdict F c s.idMap y = .ok o
  admits : s.Admits ((s.asked cells).flatMap (storable F db s.idsByCell s.idMap))

theorem admits_append {F : Faiss nCells δ} {s : Core nCells} {es es' : List Stored} :
    s.Admits (es ++ es') ↔ s.Admits es ∧ (insertAll F es s).Admits es' := by
  induction es generalizing s with
  | nil =>
      have hempty := admits_nil s
      simp [insertAll, hempty]
  | cons e es ih =>
      rw [List.cons_append, admits_cons (F := F), admits_cons (F := F), ih, insertAll, and_assoc]

/-- Whether entries can be stored depends only on `data_map`. -/
theorem admits_congr {s t : Core nCells} {es : List Stored} (h : s.dataMap = t.dataMap) :
    s.Admits es ↔ t.Admits es := by
  constructor
  · exact fun hs => ⟨hs.nodup, fun e he => h ▸ hs.absent e he⟩
  · exact fun ht => ⟨ht.nodup, fun e he => h ▸ ht.absent e he⟩

/-- Loading one cell, and then the others. -/
theorem Storable.cons_iff {F : Faiss nCells δ} {db : Database nCells} {s t : Core nCells}
    {c : Fin nCells} {cells : List (Fin nCells)} (hc : c ∉ cells)
    (hempty : s.residenceStatuses c = -1) {x : Vector Data (s.idsByCell c).length}
    (hx : db c (s.idsByCell c) = .filled x) (hload : Loaded F c x.toList s t) :
    Storable F db s (c :: cells) ↔ Storable F db t cells := by
  obtain ⟨_, hcells, hmap⟩ := hload.registry
  have hasked : s.asked (c :: cells) = c :: t.asked cells := by
    rw [asked_of_empty hempty]
    refine congrArg _ (List.filter_congr (fun c' hc' => ?_))
    have hne : c' ≠ c := fun heq => hc (heq ▸ hc')
    rw [hload.residenceStatuses, Function.update_of_ne hne]
  have hdata : t.dataMap = (insertAll F (accepted F c s.idMap x.toList) s).dataMap := by
    rw [hload.eq]
    rfl
  have hadmits : s.Admits ((s.asked (c :: cells)).flatMap
        (storable F db s.idsByCell s.idMap)) ↔
      t.Admits ((t.asked cells).flatMap (storable F db t.idsByCell t.idMap)) := by
    rw [hasked, List.flatMap_cons, admits_append (F := F), storable_of_filled hx,
      ← admits_congr hdata, hcells, hmap]
    exact ⟨fun h => h.2, fun h => ⟨hload.admits, h⟩⟩
  constructor
  · rintro ⟨hanswered, hs⟩
    refine ⟨fun c' hc' => ?_, hadmits.mp hs⟩
    rw [hcells, hmap]
    exact hanswered c' (hasked ▸ List.mem_cons_of_mem c hc')
  · rintro ⟨hanswered, ht⟩
    refine ⟨fun c' hc' => ?_, hadmits.mpr ht⟩
    rw [hasked, List.mem_cons] at hc'
    rcases hc' with rfl | hc'
    · exact ⟨x, hx, hload.verdicts⟩
    · have h := hanswered c' hc'
      rw [hcells, hmap] at h
      exact h

/-- **When the loop of `loadCellWithVec` comes to its end.** -/
theorem loadCells_returns_iff {F : Faiss nCells δ} {db : Database nCells}
    {cells : List (Fin nCells)} (hnodup : cells.Nodup) {s : Core nCells}
    (hinv : StoreInv F s) :
    (∃ t, loadCells F db (cells.map (fun c => (c.val : Int))) s = .ok (.returns t)) ↔
      Storable F db s cells := by
  induction cells generalizing s with
  | nil =>
      refine ⟨fun _ => ⟨fun c hc => absurd hc List.not_mem_nil, List.nodup_nil, ?_⟩,
        fun _ => ⟨s, rfl⟩⟩
      exact fun e he => absurd he List.not_mem_nil
  | cons c cells ih =>
      rw [List.nodup_cons] at hnodup
      rw [List.map_cons, loadCells, cellAt_val, ok_bind]
      by_cases hstatus : s.residenceStatuses c > -1
      · have hskip := asked_of_resident (s := s) (c := c) (by omega) cells
        rw [if_pos hstatus, ih hnodup.2 hinv]
        constructor
        · exact fun h => ⟨hskip ▸ h.answered, hskip ▸ h.admits⟩
        · exact fun h => ⟨hskip ▸ h.answered, hskip ▸ h.admits⟩
      · have hempty : s.residenceStatuses c = -1 := by
          have := hinv.statuses c
          omega
        have hasked := asked_of_empty hempty cells
        rw [if_neg hstatus]
        constructor
        · rintro ⟨t, h⟩
          obtain ⟨e, he, h⟩ := bind_eq_ok.mp h
          rcases loadCell_eq_ok.mp he with ⟨code, _, rfl⟩ | ⟨x, s', hx, hload, rfl⟩
          · exact absurd h (by simp)
          · exact (Storable.cons_iff hnodup.1 hempty hx hload).mpr
              ((ih hnodup.2 (hinv.loaded hload)).mp ⟨t, h⟩)
        · intro h
          obtain ⟨x, hx, hverdicts⟩ := h.answered c (hasked ▸ List.mem_cons_self)
          have hfirst := h.admits
          rw [hasked, List.flatMap_cons, admits_append (F := F), storable_of_filled hx] at hfirst
          have hload : Loaded F c x.toList s _ := ⟨hverdicts, hfirst.1, rfl⟩
          have hcell := loadCell_eq_ok.mpr (Or.inr ⟨x, _, hx, hload, rfl⟩)
          obtain ⟨t, ht⟩ := (ih hnodup.2 (hinv.loaded hload)).mpr
            ((Storable.cons_iff hnodup.1 hempty hx hload).mp h)
          exact ⟨t, by rw [hcell, ok_bind]; exact ht⟩

/-- What the second part of a loop does after the first. -/
def resume (F : Faiss nCells δ) (db : Database nCells) (post : List Int) :
    Exit (Core nCells) → Except Fault (Exit (Core nCells))
  | .returns s => loadCells F db post s
  | .throwsHttp code s => .ok (.throwsHttp code s)

theorem loadCells_append (F : Faiss nCells δ) (db : Database nCells) (pre post : List Int)
    (s : Core nCells) :
    loadCells F db (pre ++ post) s = loadCells F db pre s >>= resume F db post := by
  induction pre generalizing s with
  | nil => rfl
  | cons label pre ih =>
      rw [List.cons_append, loadCells, loadCells]
      cases cellAt nCells label with
      | error f => rfl
      | ok c =>
          rw [ok_bind, ok_bind]
          by_cases hstatus : s.residenceStatuses c > -1
          · rw [if_pos hstatus, if_pos hstatus]
            exact ih s
          · rw [if_neg hstatus, if_neg hstatus]
            cases loadCell F db c s with
            | error f => rfl
            | ok e =>
                cases e with
                | returns s' => exact ih s'
                | throwsHttp code s' => rfl

theorem loadCells_append_of_returns {F : Faiss nCells δ} {db : Database nCells} {pre : List Int}
    {s t : Core nCells} (h : loadCells F db pre s = .ok (.returns t)) (post : List Int) :
    loadCells F db (pre ++ post) s = loadCells F db post t := by
  rw [loadCells_append, h]
  rfl

/-- A loop that comes to its end has come to the end of its first part. -/
theorem loadCells_first {F : Faiss nCells δ} {db : Database nCells} {pre post : List Int}
    {s t : Core nCells} (h : loadCells F db (pre ++ post) s = .ok (.returns t)) :
    ∃ s', loadCells F db pre s = .ok (.returns s') := by
  rw [loadCells_append] at h
  obtain ⟨exit, hexit, h⟩ := bind_eq_ok.mp h
  cases exit with
  | returns s' => exact ⟨s', hexit⟩
  | throwsHttp code s' => exact absurd h (by simp [resume])

/-- The loop of `loadCellWithVec` uses a label when it is done with those before it. -/
def LoadUses (F : Faiss nCells δ) (db : Database nCells) (s : Core nCells)
    (labels : List Int) (label : Int) : Prop :=
  ∃ pre post t, labels = pre ++ label :: post ∧ loadCells F db pre s = .ok (.returns t)

/-- The count is positive, and every index is in range, or the request for the first cell
to load has failed and nothing has changed. -/
def LoadInRange (F : Faiss nCells δ) (db : Database nCells) (xq : List F32) (nload : Nat)
    (s : Core nCells) : Prop :=
  PositiveCount nload ∧ ∃ labels, F.quantizerSearch 1 xq nload = .ok labels ∧
    ((∀ label, LoadUses F db s labels label → IsCell nCells label) ∨
      ∃ code, s.loadCellWithVec F db xq nload = .ok (.throwsHttp code s))

theorem LoadInRange.iff {F : Faiss nCells δ} {db : Database nCells} {s : Core nCells}
    (hinv : StoreInv F s) (xq : List F32) (nload : Nat) :
    LoadInRange F db xq nload s ↔ PositiveCount nload ∧ F.d ≤ xq.length ∧
      (nload ≤ (F.ranked (xq.take F.d)).length ∨
        ¬ Storable F db s (F.ranked (xq.take F.d))) := by
  have hnodup := F.ranked_nodup (xq.take F.d)
  constructor
  · rintro ⟨hcount, labels, hlabels, huses⟩
    obtain ⟨_, hd, rfl⟩ := quantizerSearch_one.mp hlabels
    refine ⟨hcount, hd, ?_⟩
    by_contra hnot
    rw [not_or, not_le, not_not] at hnot
    obtain ⟨hmore, hstorable⟩ := hnot
    -- all cells are loaded, and the loop arrives at the padding
    obtain ⟨t, ht⟩ := (loadCells_returns_iff hnodup hinv).mpr hstorable
    obtain ⟨p, hrow⟩ := assign_of_more hmore
    rcases huses with huses | ⟨code, hthrow⟩
    · exact not_isCell_neg_one (huses (-1) ⟨_, _, t, hrow, ht⟩)
    · rw [loadCellWithVec, hlabels, ok_bind, hrow, loadCells_append_of_returns ht,
        loadCells, cellAt_neg_one] at hthrow
      exact absurd hthrow (by simp)
  · rintro ⟨hcount, hd, hfits⟩
    refine ⟨hcount, _, quantizerSearch_one.mpr ⟨Nat.pos_iff_ne_zero.mp hcount.1, hd, rfl⟩,
      Or.inl ?_⟩
    rintro label ⟨pre, post, t, hsplit, ht⟩
    rw [F.assign_eq_append] at hsplit
    rcases mem_or_behind hsplit with hcell | ⟨hpad, more, rfl⟩
    · obtain ⟨c, _, rfl⟩ := List.mem_map.mp hcell
      exact isCell_val c
    · exfalso
      rw [List.mem_replicate, List.length_take] at hpad
      rcases hfits with hle | hnot
      · omega
      · obtain ⟨t', ht'⟩ := loadCells_first ht
        rw [List.take_of_length_le (by omega)] at ht'
        exact hnot ((loadCells_returns_iff hnodup hinv).mp ⟨t', ht'⟩)

/-! ## Evicting -/

/-- A loop over cells always comes to its end. -/
theorem evictCells_returns (cells : List (Fin nCells)) (s : Core nCells) :
    ∃ t, evictCells (cells.map (fun c => (c.val : Int))) s = .ok t := by
  induction cells generalizing s with
  | nil => exact ⟨s, rfl⟩
  | cons c cells ih =>
      rw [List.map_cons, evictCells, cellAt_val, ok_bind]
      by_cases hstatus : s.residenceStatuses c < 0
      · rw [if_pos hstatus]
        exact ih s
      · rw [if_neg hstatus, evictCell_eq_ok.mpr ⟨by omega, rfl⟩, ok_bind]
        exact ih _

/-- The loop of `evictCellWithVec` uses a label when it is done with those before it. -/
def EvictUses (s : Core nCells) (labels : List Int) (label : Int) : Prop :=
  ∃ pre post t, labels = pre ++ label :: post ∧ evictCells pre s = .ok t

/-- The count is positive, and every index is in range. -/
def EvictInRange (F : Faiss nCells δ) (xq : List F32) (nevict : Nat) (s : Core nCells) :
    Prop :=
  PositiveCount nevict ∧ ∃ labels, F.quantizerSearch 1 xq nevict = .ok labels ∧
    ∀ label, EvictUses s labels label → IsCell nCells label

theorem EvictInRange.iff (F : Faiss nCells δ) (xq : List F32) (nevict : Nat)
    (s : Core nCells) :
    EvictInRange F xq nevict s ↔ PositiveCount nevict ∧ F.d ≤ xq.length ∧
      nevict ≤ (F.ranked (xq.take F.d)).length := by
  constructor
  · rintro ⟨hcount, labels, hlabels, huses⟩
    obtain ⟨_, hd, rfl⟩ := quantizerSearch_one.mp hlabels
    refine ⟨hcount, hd, ?_⟩
    by_contra hmore
    obtain ⟨t, ht⟩ := evictCells_returns (F.ranked (xq.take F.d)) s
    obtain ⟨p, hrow⟩ := assign_of_more (not_le.mp hmore)
    exact not_isCell_neg_one (huses (-1) ⟨_, _, t, hrow, ht⟩)
  · rintro ⟨hcount, hd, hle⟩
    refine ⟨hcount, _, quantizerSearch_one.mpr ⟨Nat.pos_iff_ne_zero.mp hcount.1, hd, rfl⟩, ?_⟩
    rintro label ⟨pre, post, t, hsplit, _⟩
    have hmem : label ∈ F.assign (xq.take F.d) nevict := by
      rw [hsplit]
      exact List.mem_append_right pre List.mem_cons_self
    rw [assign_eq_map.mpr ⟨hle, rfl⟩] at hmem
    obtain ⟨c, _, rfl⟩ := List.mem_map.mp hmem
    exact isCell_val c

/-! ## Registering -/

/-- The id passes the length check of `Core::add`. -/
def Passes (id : Bytes) : Prop := isNullTerminated id 100 = .ok true

theorem passes_iff {id : Bytes} : Passes id ↔ 0 ∈ id.take 100 := by
  unfold Passes isNullTerminated
  by_cases hmem : 0 ∈ id.take 100
  · simp [hmem]
  · rw [if_neg hmem]
    split <;> simp [hmem]

/-- An id that passes is registered in the cell of its label. -/
theorem addOne_returns {buf : Bytes} {s : Core nCells} (hpass : Passes buf)
    (hnext : s.nextId + 1 < 2 ^ 63) (c : Fin nCells) :
    ∃ id, addOne (c.val : Int) buf s = .ok (s.register c id) := by
  have hmem : 0 ∈ buf := List.mem_of_mem_take (passes_iff.mp hpass)
  have hid : cString 0 buf = some (buf.takeWhile (· ≠ 0)) := if_pos hmem
  exact ⟨_, addOne_eq_ok.mpr ⟨hpass, hnext, c, _, rfl, hid, rfl⟩⟩

/-- The loop of `Core::add` uses a label when it is done with those before it and the id
has passed the check. -/
def AddUses (s : Core nCells) (labels : List Int) (ids : List Bytes) (label : Int) : Prop :=
  ∃ pre post idsBefore id idsBehind t, labels = pre ++ label :: post ∧
    ids = idsBefore ++ id :: idsBehind ∧ idsBefore.length = pre.length ∧
    addAll pre idsBefore s = .ok t ∧ Passes id

/-- Every index is in range; the count is one. -/
def AddInRange (F : Faiss nCells δ) (numDocs : Nat) (ids : List Bytes)
    (embeddings : List F32) (s : Core nCells) : Prop :=
  ∃ labels, F.quantizerSearch numDocs embeddings 1 = .ok labels ∧
    ∀ label, AddUses s labels ids label → IsCell nCells label

/-- The loop comes to the id at position `i`: the ones before it can be numbered, and all
up to it pass the check. -/
def Registers (s : Core nCells) (ids : List Bytes) (i : Nat) : Prop :=
  (i ≠ 0 → s.nextId + i < 2 ^ 63) ∧ ∀ j ≤ i, ∃ id, ids[j]? = some id ∧ Passes id

theorem addUses_cons {s : Core nCells} {first label : Int} {labels : List Int} {buf : Bytes}
    {ids : List Bytes} :
    AddUses s (first :: labels) (buf :: ids) label ↔
      (label = first ∧ Passes buf) ∨
        ∃ t, addOne first buf s = .ok t ∧ AddUses t labels ids label := by
  constructor
  · rintro ⟨pre, post, idsBefore, id, idsBehind, t, hlabels, hids, hlen, ht, hpass⟩
    cases pre with
    | nil =>
        cases idsBefore with
        | nil =>
            rw [List.nil_append, List.cons.injEq] at hlabels hids
            exact Or.inl ⟨hlabels.1.symm, hids.1 ▸ hpass⟩
        | cons _ _ => exact absurd hlen (by simp)
    | cons l pre =>
        cases idsBefore with
        | nil => exact absurd hlen (by simp)
        | cons b idsBefore =>
            rw [List.cons_append, List.cons.injEq] at hlabels hids
            obtain ⟨rfl, rfl⟩ := hlabels
            obtain ⟨rfl, rfl⟩ := hids
            rw [addAll] at ht
            obtain ⟨s', hs', ht⟩ := bind_eq_ok.mp ht
            refine Or.inr ⟨s', hs', pre, post, idsBefore, id, idsBehind, t, rfl, rfl, ?_, ht,
              hpass⟩
            simpa using hlen
  · rintro (⟨rfl, hpass⟩ | ⟨s', hs', pre, post, idsBefore, id, idsBehind, t, rfl, rfl, hlen,
      ht, hpass⟩)
    · exact ⟨[], labels, [], buf, ids, s, rfl, rfl, rfl, rfl, hpass⟩
    · refine ⟨first :: pre, post, buf :: idsBefore, id, idsBehind, t, rfl, rfl, ?_, ?_, hpass⟩
      · simpa using hlen
      · rw [addAll, hs', ok_bind, ht]

theorem isCell_nearestLabel {F : Faiss nCells δ} {v : List F32} :
    IsCell nCells (nearestLabel F v) ↔ F.nearest v ≠ none := by
  rw [nearestLabel]
  cases F.nearest v with
  | none => simp [not_isCell_neg_one]
  | some c => simp [isCell_val]

theorem addUses_iff {F : Faiss nCells δ} {vs : List (List F32)} {ids : List Bytes}
    {s : Core nCells} :
    (∀ label, AddUses s (vs.map (nearestLabel F)) ids label → IsCell nCells label) ↔
      ∀ i v, vs[i]? = some v → Registers s ids i → F.nearest v ≠ none := by
  induction vs generalizing ids s with
  | nil =>
      constructor
      · exact fun _ i v hv => absurd hv (by simp)
      · rintro _ label ⟨pre, post, _, _, _, _, hlabels, _⟩
        exact absurd hlabels (by simp)
  | cons v vs ih =>
      cases ids with
      | nil =>
          constructor
          · rintro _ i w _ ⟨_, hpass⟩
            obtain ⟨id, hid, _⟩ := hpass i le_rfl
            exact absurd hid (by simp)
          · rintro _ label ⟨_, _, _, _, _, _, _, hids, _⟩
            exact absurd hids (by simp)
      | cons buf ids =>
          by_cases hpass : Passes buf
          · constructor
            · intro huses i w hw hreg
              cases i with
              | zero =>
                  rw [List.getElem?_cons_zero, Option.some.injEq] at hw
                  subst hw
                  exact isCell_nearestLabel.mp (huses _ (addUses_cons.mpr (Or.inl ⟨rfl, hpass⟩)))
              | succ i =>
                  have hlabel := huses _ (addUses_cons.mpr (Or.inl ⟨rfl, hpass⟩))
                  obtain ⟨c, hc⟩ := Option.ne_none_iff_exists'.mp (isCell_nearestLabel.mp hlabel)
                  have hcount := hreg.1 (Nat.succ_ne_zero i)
                  obtain ⟨id, hid⟩ := addOne_returns (s := s) hpass (by omega) c
                  have hlater : ∀ label, AddUses (s.register c id) (vs.map (nearestLabel F)) ids
                      label → IsCell nCells label := by
                    intro label huse
                    refine huses label (addUses_cons.mpr (Or.inr ⟨_, ?_, huse⟩))
                    rw [nearestLabel_eq.mpr hc]
                    exact hid
                  refine ih.mp hlater i w hw ⟨fun _ => ?_, ?_⟩
                  · show s.nextId + 1 + i < 2 ^ 63
                    omega
                  · intro j hj
                    exact hreg.2 (j + 1) (Nat.succ_le_succ hj)
            · intro hnear label huse
              rcases addUses_cons.mp huse with ⟨rfl, _⟩ | ⟨t, ht, hlater⟩
              · refine isCell_nearestLabel.mpr (hnear 0 v rfl ⟨fun h => absurd rfl h, ?_⟩)
                intro j hj
                rw [Nat.le_zero.mp hj]
                exact ⟨buf, rfl, hpass⟩
              · obtain ⟨_, hnext, c, id, _, _, rfl⟩ := addOne_eq_ok.mp ht
                refine ih.mpr ?_ label hlater
                intro i w hw hreg
                refine hnear (i + 1) w hw ⟨fun _ => ?_, ?_⟩
                · have hcount := hreg.1
                  have hreg' : (s.register c id).nextId = s.nextId + 1 := rfl
                  rw [hreg'] at hcount
                  by_cases hi : i = 0
                  · subst hi
                    omega
                  · have := hcount hi
                    omega
                · intro j hj
                  cases j with
                  | zero => exact ⟨buf, rfl, hpass⟩
                  | succ j => exact hreg.2 j (Nat.le_of_succ_le_succ hj)
          · constructor
            · rintro _ i w _ ⟨_, hall⟩
              obtain ⟨id, hid, hid'⟩ := hall 0 (Nat.zero_le i)
              rw [List.getElem?_cons_zero, Option.some.injEq] at hid
              exact absurd (hid ▸ hid') hpass
            · intro _ label huse
              rcases addUses_cons.mp huse with ⟨_, hpass'⟩ | ⟨t, ht, _⟩
              · exact absurd hpass' hpass
              · exact absurd (addOne_eq_ok.mp ht).1 hpass

theorem AddInRange.iff (F : Faiss nCells δ) (numDocs : Nat) (ids : List Bytes)
    (embeddings : List F32) (s : Core nCells) :
    AddInRange F numDocs ids embeddings s ↔ numDocs * F.d ≤ embeddings.length ∧
      ∀ i < numDocs, Registers s ids i → F.nearest (F.query embeddings i) ≠ none := by
  have hvectors : ∀ i v, ((List.range numDocs).map (F.query embeddings))[i]? = some v ↔
      i < numDocs ∧ v = F.query embeddings i := by
    intro i v
    rw [List.getElem?_map, Option.map_eq_some_iff]
    constructor
    · rintro ⟨j, hj, rfl⟩
      obtain ⟨hi, rfl⟩ := List.getElem?_eq_some_iff.mp hj
      rw [List.length_range] at hi
      rw [List.getElem_range]
      exact ⟨hi, rfl⟩
    · rintro ⟨hi, rfl⟩
      exact ⟨i, List.getElem?_range hi, rfl⟩
  constructor
  · rintro ⟨labels, hlabels, huses⟩
    obtain ⟨hlen, rfl⟩ := quantizerSearch_nearest.mp hlabels
    refine ⟨hlen, fun i hi hreg => ?_⟩
    exact addUses_iff.mp huses i _ ((hvectors i _).mpr ⟨hi, rfl⟩) hreg
  · rintro ⟨hlen, hnear⟩
    refine ⟨_, quantizerSearch_nearest.mpr ⟨hlen, rfl⟩, addUses_iff.mpr ?_⟩
    intro i v hv hreg
    obtain ⟨hi, rfl⟩ := (hvectors i v).mp hv
    exact hnear i hi hreg

/-! ## Searching -/

/-- The residency test uses the first label of its row, and a later one when all are
required and those before it are in residence. -/
def TestUses (s : Core nCells) (requireAll : Bool) (row : List Int) (label : Int) : Prop :=
  ∃ pre post, row = pre ++ label :: post ∧
    (pre = [] ∨ (requireAll = true ∧ s.cacheHit true pre = .ok true))

/-- Every index that the test of a row uses is in range, and the count of the search that
follows a hit is positive. -/
def RowInRange (s : Core nCells) (k : Nat) (requireAll : Bool) (row : List Int) : Prop :=
  (∀ label, TestUses s requireAll row label → IsCell nCells label) ∧
    (s.cacheHit requireAll row = .ok true → PositiveCount k)

/-- The count of probes is positive, and what the loop comes to is in range. -/
def SearchInRange (F : Faiss nCells δ) (n : Nat) (xq : List F32) (k nprobe : Nat)
    (requireAll : Bool) (data : List Data) (s : Core nCells) : Prop :=
  PositiveCount nprobe ∧ ∃ labels, F.quantizerSearch n xq nprobe = .ok labels ∧
    ∀ i < n, (∃ r, searchQueries F xq k nprobe requireAll labels { s with nprobe := nprobe }
        (List.range i) data = .ok r) →
      RowInRange { s with nprobe := nprobe } k requireAll (rowAt nprobe i labels)

/-- The query can be compared to some cell; when all cells it can be compared to are in
residence and all probed ones are required, there are enough of them; and when the cells
looked at are in residence, `k` is positive. -/
structure QueryFits (F : Faiss nCells δ) (s : Core nCells) (q : List F32) (k nprobe : Nat)
    (requireAll : Bool) : Prop where
  ranked : F.ranked q ≠ []
  enough : requireAll = true → (∀ c ∈ F.ranked q, s.residenceStatuses c ≠ -1) →
    nprobe ≤ (F.ranked q).length
  count : (∀ c ∈ probed F q (if requireAll then nprobe else 1),
    s.residenceStatuses c ≠ -1) → PositiveCount k

/-- A row of cells of which one is not in residence. -/
theorem allInResidence_of_absent {s : Core nCells} {cells : List (Fin nCells)}
    (h : ∃ c ∈ cells, s.residenceStatuses c = -1) (rest : List Int) :
    s.allInResidence (cells.map (fun c => (c.val : Int)) ++ rest) = .ok false := by
  induction cells with
  | nil =>
      obtain ⟨c, hc, _⟩ := h
      exact absurd hc List.not_mem_nil
  | cons c cells ih =>
      rw [List.map_cons, List.cons_append, allInResidence, cellAt_val, ok_bind]
      by_cases hc : s.residenceStatuses c = -1
      · rw [if_pos hc]
      · rw [if_neg hc]
        obtain ⟨c', hc', habsent⟩ := h
        rcases List.mem_cons.mp hc' with rfl | hc'
        · exact absurd habsent hc
        · exact ih ⟨c', hc', habsent⟩

section Row

variable {F : Faiss nCells δ} {s : Core nCells} {q : List F32} {k nprobe : Nat}
  {requireAll : Bool}

/-- When every index used is in range, the test of a row has a result. -/
theorem cacheHit_of_fits (hprobe : nprobe ≠ 0) (hranked : F.ranked q ≠ [])
    (henough : requireAll = true → (∀ c ∈ F.ranked q, s.residenceStatuses c ≠ -1) →
      nprobe ≤ (F.ranked q).length) :
    ∃ hit, s.cacheHit requireAll (F.assign q nprobe) = .ok hit := by
  obtain ⟨c, cells, hcells⟩ := List.exists_cons_of_ne_nil hranked
  obtain ⟨m, rfl⟩ := Nat.exists_eq_succ_of_ne_zero hprobe
  by_cases hle : m + 1 ≤ (F.ranked q).length
  · rw [assign_eq_map.mpr ⟨hle, rfl⟩, hcells, List.take_succ_cons]
    exact cacheHit_total s requireAll c (cells.take m)
  · obtain ⟨p, hrow⟩ := assign_of_more (not_le.mp hle)
    rw [hrow, hcells, List.map_cons, List.cons_append, cacheHit, cellAt_val, ok_bind]
    by_cases hfirst : s.residenceStatuses c > -1
    · rw [if_pos hfirst]
      cases requireAll with
      | false => exact ⟨true, rfl⟩
      | true =>
          refine ⟨false, ?_⟩
          rw [if_pos rfl]
          refine allInResidence_of_absent ?_ _
          by_contra hall
          refine hle (henough rfl (fun c' hc' => ?_))
          rw [hcells] at hc'
          rcases List.mem_cons.mp hc' with rfl | hc'
          · omega
          · exact fun habsent => hall ⟨c', hc', habsent⟩
    · rw [if_neg hfirst]
      exact ⟨false, rfl⟩

/-- When a row that fits is a hit. -/
theorem cacheHit_iff_of_fits (hinv : StoreInv F s) (hprobe : nprobe ≠ 0)
    (hranked : F.ranked q ≠ [])
    (henough : requireAll = true → (∀ c ∈ F.ranked q, s.residenceStatuses c ≠ -1) →
      nprobe ≤ (F.ranked q).length) :
    s.cacheHit requireAll (F.assign q nprobe) = .ok true ↔
      ∀ c ∈ probed F q (if requireAll then nprobe else 1), s.residenceStatuses c ≠ -1 := by
  cases requireAll with
  | true =>
      rw [hinv.cacheHit_iff hprobe, AllResident, if_pos rfl]
      refine ⟨fun h => h.2, fun h => ⟨?_, h⟩⟩
      by_contra hmore
      refine hmore (henough rfl (fun c hc => h c ?_))
      rw [probed, List.take_of_length_le (by omega)]
      exact hc
  | false =>
      obtain ⟨c, cells, hcells⟩ := List.exists_cons_of_ne_nil hranked
      obtain ⟨m, rfl⟩ := Nat.exists_eq_succ_of_ne_zero hprobe
      have hstatus := hinv.statuses c
      rw [F.assign_eq_append, hcells, List.take_succ_cons, List.map_cons, List.cons_append,
        cacheHit, cellAt_val, ok_bind, if_neg Bool.false_ne_true, if_neg Bool.false_ne_true,
        probed, hcells, List.take_succ_cons, List.take_zero, List.forall_mem_singleton]
      by_cases hfirst : s.residenceStatuses c > -1
      · rw [if_pos hfirst]
        exact ⟨fun _ => by omega, fun _ => rfl⟩
      · rw [if_neg hfirst]
        exact ⟨fun h => absurd h (by simp), fun h => by omega⟩

/-- **One query** is in range exactly when it fits. -/
theorem RowInRange.iff (hinv : StoreInv F s) (hprobe : nprobe ≠ 0) :
    RowInRange s k requireAll (F.assign q nprobe) ↔ QueryFits F s q k nprobe requireAll := by
  constructor
  · rintro ⟨huses, hcount⟩
    have hranked : F.ranked q ≠ [] := by
      intro hnone
      obtain ⟨p, hrow⟩ := assign_of_more (F := F) (v := q) (k := nprobe) (by
        rw [hnone, List.length_nil]
        omega)
      rw [hnone, List.map_nil, List.nil_append] at hrow
      exact not_isCell_neg_one (huses (-1) ⟨[], _, hrow, Or.inl rfl⟩)
    have henough : requireAll = true → (∀ c ∈ F.ranked q, s.residenceStatuses c ≠ -1) →
        nprobe ≤ (F.ranked q).length := by
      intro hall hresident
      by_contra hmore
      obtain ⟨p, hrow⟩ := assign_of_more (not_le.mp hmore)
      obtain ⟨c, cells, hcells⟩ := List.exists_cons_of_ne_nil hranked
      refine not_isCell_neg_one (huses (-1) ⟨_, _, hrow, Or.inr ⟨hall, ?_⟩⟩)
      rw [hcells] at hresident ⊢
      refine cacheHit_of_resident true (fun c' hc' => ?_)
      have := hresident c' hc'
      have := hinv.statuses c'
      omega
    refine ⟨hranked, henough, fun hresident => hcount ?_⟩
    exact (cacheHit_iff_of_fits hinv hprobe hranked henough).mpr hresident
  · rintro ⟨hranked, henough, hcount⟩
    refine ⟨?_, fun hhit => hcount ?_⟩
    · rintro label ⟨pre, post, hsplit, hpre⟩
      rw [F.assign_eq_append] at hsplit
      rcases mem_or_behind hsplit with hcell | ⟨hpad, more, rfl⟩
      · obtain ⟨c, _, rfl⟩ := List.mem_map.mp hcell
        exact isCell_val c
      · exfalso
        rw [List.mem_replicate, List.length_take] at hpad
        rw [List.take_of_length_le (by omega)] at hpre
        rcases hpre with hnil | ⟨hall, hhit⟩
        · rw [List.append_eq_nil_iff, List.map_eq_nil_iff] at hnil
          exact hranked hnil.1
        · -- all ranked cells are in residence, so there are enough of them
          obtain ⟨c, cells, hrow, hfirst, hothers⟩ := cacheHit_all_eq_true.mp hhit
          refine absurd (henough hall (fun c' hc' => ?_)) (by omega)
          · have hmem : (c'.val : Int) ∈ (c :: cells).map (fun c => (c.val : Int)) := by
              rw [← hrow]
              exact List.mem_append_left more (List.mem_map_of_mem hc')
            obtain ⟨c'', hc'', hval⟩ := List.mem_map.mp hmem
            have heq : c'' = c' := Fin.ext (by omega)
            rcases List.mem_cons.mp (heq ▸ hc'') with rfl | hc'
            · omega
            · exact hothers c' hc'
    · exact (cacheHit_iff_of_fits hinv hprobe hranked henough).mp hhit

end Row

theorem SearchInRange.iff {F : Faiss nCells δ} {s : Core nCells} (hinv : StoreInv F s)
    (hd : 1 ≤ F.d) (n : Nat) (xq : List F32) (k nprobe : Nat) (requireAll : Bool)
    {data : List Data} (hdata : data.length = n * k) :
    SearchInRange F n xq k nprobe requireAll data s ↔
      PositiveCount nprobe ∧ n * F.d ≤ xq.length ∧
        ∀ i < n, QueryFits F s (F.query xq i) k nprobe requireAll := by
  have hinv' := hinv.congr s.centroids nprobe
  -- what a query needs does not depend on the probe count of the index
  have hrow : ∀ {labels}, F.quantizerSearch n xq nprobe = .ok labels → nprobe ≠ 0 →
      ∀ i < n, (RowInRange { s with nprobe := nprobe } k requireAll (rowAt nprobe i labels) ↔
        QueryFits F s (F.query xq i) k nprobe requireAll) := by
    intro labels hlabels hprobe i hi
    rw [Faiss.quantizerSearch_row hlabels hi, RowInRange.iff hinv' hprobe]
    exact ⟨fun h => ⟨h.ranked, h.enough, h.count⟩, fun h => ⟨h.ranked, h.enough, h.count⟩⟩
  constructor
  · rintro ⟨hcount, labels, hlabels, hrows⟩
    have hprobe := Nat.pos_iff_ne_zero.mp hcount.1
    have hlen : n * F.d ≤ xq.length := by
      by_contra hshort
      rw [Faiss.quantizerSearch_eq, if_neg hprobe, if_neg hshort] at hlabels
      exact absurd hlabels (by simp)
    refine ⟨hcount, hlen, fun i => ?_⟩
    -- the queries before a query fit, so that the loop arrives at it
    induction i using Nat.strong_induction_on with
    | _ i ih =>
        intro hi
        have hanswer : ∀ j ∈ List.range i, ∃ r h, Answer F xq k nprobe requireAll labels
            { s with nprobe := nprobe } j r h := by
          intro j hj
          have hj' := (List.mem_range.mp hj).trans hi
          have hfits := ih j (List.mem_range.mp hj) hj'
          obtain ⟨hit, hhit⟩ := cacheHit_of_fits (s := { s with nprobe := nprobe }) hprobe
            hfits.ranked hfits.enough
          cases hit with
          | false =>
              rw [← Faiss.quantizerSearch_row hlabels hj'] at hhit
              exact ⟨[], -1, Or.inl ⟨hhit, rfl⟩⟩
          | true =>
              have hk := hfits.count ((cacheHit_iff_of_fits hinv' hprobe hfits.ranked
                hfits.enough).mp hhit)
              have hwindow : j + F.d ≤ xq.length := by
                have hrow := row_le hj' F.d
                have hstart := Nat.le_mul_of_pos_right j (Nat.lt_of_lt_of_le Nat.zero_lt_one hd)
                omega
              rw [← Faiss.quantizerSearch_row hlabels hj'] at hhit
              exact ⟨_, _, Or.inr ⟨hhit, _, window_of_le hwindow,
                Nat.pos_iff_ne_zero.mp hk.1, rfl, rfl⟩⟩
        obtain ⟨data', hits, hloop⟩ := searchQueries_progress hinv'
          (fun j hj => hdata ▸ row_le ((List.mem_range.mp hj).trans hi) k) hanswer
        exact (hrow hlabels hprobe i hi).mp (hrows i hi ⟨_, hloop⟩)
  · rintro ⟨hcount, hlen, hfits⟩
    have hprobe := Nat.pos_iff_ne_zero.mp hcount.1
    obtain ⟨labels, hlabels⟩ : ∃ labels, F.quantizerSearch n xq nprobe = .ok labels := by
      rw [Faiss.quantizerSearch_eq, if_neg hprobe, if_pos hlen]
      exact ⟨_, rfl⟩
    exact ⟨hcount, labels, hlabels, fun i hi _ =>
      (hrow hlabels hprobe i hi).mpr (hfits i hi)⟩

end Core

namespace Cache

variable {δ : Type} [LinearOrder δ]

/-! ## Commands -/

/-- Every cell index that a command uses is in range, and every count that it passes to a
search is positive.  INITIALIZE and TRAIN use neither. -/
def InRange (env : Environment δ) (time : Nat) (core : CoreObject δ) : Args → Prop
  | .loadArgs a =>
      Core.LoadInRange core.index.faiss (core.database env time) a.xq a.nload core.tables
  | .evictArgs a => Core.EvictInRange core.index.faiss a.xq a.nevict core.tables
  | .searchArgs a => Core.SearchInRange core.index.faiss a.n a.xq a.k a.nprobe a.requireAll
      (List.replicate (a.n * a.k) {}) core.tables
  | .addArgs a => Core.AddInRange core.index.faiss a.numDocs a.ids a.embeddings core.tables
  | .initializeArgs _ => True
  | .trainArgs _ => True

/-- The counts fit the number of cells that the vectors can be compared to, and the payload
holds the vectors. -/
def CountsFit (env : Environment δ) (time : Nat) (core : CoreObject δ) : Args → Prop
  | .loadArgs a => PositiveCount a.nload ∧ core.d ≤ a.xq.length ∧
      (a.nload ≤ (core.index.faiss.ranked (a.xq.take core.d)).length ∨
        ¬ Core.Storable core.index.faiss (core.database env time) core.tables
          (core.index.faiss.ranked (a.xq.take core.d)))
  | .evictArgs a => PositiveCount a.nevict ∧ core.d ≤ a.xq.length ∧
      a.nevict ≤ (core.index.faiss.ranked (a.xq.take core.d)).length
  | .searchArgs a => PositiveCount a.nprobe ∧ a.n * core.d ≤ a.xq.length ∧
      ∀ i < a.n, Core.QueryFits core.index.faiss core.tables (core.index.faiss.query a.xq i)
        a.k a.nprobe a.requireAll
  | .addArgs a => a.numDocs * core.d ≤ a.embeddings.length ∧
      ∀ i < a.numDocs, Core.Registers core.tables a.ids i →
        core.index.faiss.nearest (core.index.faiss.query a.embeddings i) ≠ none
  | .initializeArgs _ => True
  | .trainArgs _ => True

/-- **When the indices of a command are in range**, in every READY state that is
reached. -/
theorem indices_inRange_iff (env : Environment δ) (cmds : List Args) (c : Cache δ)
    (hreach : Reaches env cmds c) (hready : c.status = .READY) :
    ∃ core, c.core = some core ∧
      ∀ args, InRange env c.time core args ↔ CountsFit env c.time core args := by
  obtain ⟨core, hcore, htrained⟩ := hreach.ready hready
  obtain ⟨ops, hops⟩ := htrained.tables
  have hinv := Core.storeInv_of_reaches hops
  refine ⟨core, hcore, fun args => ?_⟩
  cases args with
  | loadArgs a =>
      show Core.LoadInRange _ _ _ _ _ ↔ _
      rw [Core.LoadInRange.iff hinv, htrained.d_eq]
      rfl
  | evictArgs a =>
      have h := Core.EvictInRange.iff core.index.faiss a.xq a.nevict core.tables
      rwa [htrained.d_eq] at h
  | searchArgs a =>
      have h := Core.SearchInRange.iff hinv (htrained.d_eq ▸ htrained.d_pos) a.n a.xq a.k
        a.nprobe a.requireAll (List.length_replicate (n := a.n * a.k) (a := ({} : Data)))
      rwa [htrained.d_eq] at h
  | addArgs a =>
      have h := Core.AddInRange.iff core.index.faiss a.numDocs a.ids a.embeddings core.tables
      rwa [htrained.d_eq] at h
  | initializeArgs a => exact Iff.rfl
  | trainArgs a => exact Iff.rfl

/-- An environment in which every index has four cells. -/
def fourCells : Environment Nat := { Environment.offline with determineNCells := fun _ => 4 }

def readyRun : List Args :=
  [.initializeArgs { d := 1, nTotal := 1, useFlat := true },
    .trainArgs { size := 16, trainingData := [1, 2, 3, 4] }]

/-- All four cells can be evicted. -/
theorem indices_inRange_four :
    ∃ c core, Reaches fourCells readyRun c ∧ c.core = some core ∧
      InRange fourCells c.time core (.evictArgs { nevict := 4, size := 4, xq := [0] }) := by
  obtain ⟨c, hreach, hready, hranked⟩ : ∃ c, Reaches fourCells readyRun c ∧
      c.status = .READY ∧ ∀ core, c.core = some core → core.d = 1 ∧
        (core.index.faiss.ranked [0]).length = 4 :=
    ⟨_, rfl, rfl, fun core hcore => by
      rw [← Option.some.inj hcore]
      exact ⟨rfl, rfl⟩⟩
  obtain ⟨core, hcore, hiff⟩ := indices_inRange_iff _ _ c hreach hready
  obtain ⟨hd, hlength⟩ := hranked core hcore
  refine ⟨c, core, hreach, hcore, (hiff _).mpr ?_⟩
  show PositiveCount 4 ∧ core.d ≤ 1 ∧ 4 ≤ (core.index.faiss.ranked (List.take core.d [0])).length
  rw [hd]
  exact ⟨by unfold PositiveCount; omega, le_rfl, hlength.ge⟩

/-- A fifth one is looked up at `-1`. -/
theorem indices_inRange_fails :
    ∃ c core, Reaches fourCells readyRun c ∧ c.status = .READY ∧ c.core = some core ∧
      ¬ InRange fourCells c.time core (.evictArgs { nevict := 5, size := 4, xq := [0] }) := by
  refine ⟨_, _, rfl, rfl, rfl, ?_⟩
  intro h
  have hfits := (Core.EvictInRange.iff _ _ _ _).mp h
  exact absurd hfits.2.2 (by decide)

end Cache

end Periplus.Ports
