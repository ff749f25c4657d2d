import Periplus.Ports.CoreInvariant

/-!
# What a search returns

The residency test reads one row of labels, the index is searched once for each
hit, and the labels found are turned into slots.  Each part gets one lemma;
`searchQuery_hit` and `searchQuery_miss` put them together for one query, with
the slots it writes described as a row between what stood before and after.

In every state that is reached the labels found are numbers in `data_map`
(`labels_known`), so the assertion in `Core::search` never fails.
-/

namespace Periplus.Ports

open Periplus.Verified.Memory
open Periplus.Verified.Run
open Periplus.Verified.TopK

namespace Core

variable {nCells : Nat} {δ : Type} [LinearOrder δ]

/-! ## The residency test -/

theorem allInResidence_eq_true {s : Core nCells} {labels : List Int} :
    s.allInResidence labels = .ok true ↔
      ∃ cells : List (Fin nCells), labels = cells.map (fun c => (c.val : Int)) ∧
        ∀ c ∈ cells, s.residenceStatuses c ≠ -1 := by
  induction labels with
  | nil =>
      constructor
      · intro _
        exact ⟨[], rfl, by simp⟩
      · intro _
        rfl
  | cons label labels ih =>
      rw [allInResidence]
      constructor
      · intro h
        obtain ⟨c, hc, h⟩ := bind_eq_ok.mp h
        split at h
        · exact absurd h (by simp)
        · next hstatus =>
            obtain ⟨cells, rfl, hcells⟩ := ih.mp h
            refine ⟨c :: cells, by rw [cellAt_eq_ok.mp hc, List.map_cons], ?_⟩
            intro c' hc'
            rcases List.mem_cons.mp hc' with rfl | hc'
            · exact hstatus
            · exact hcells c' hc'
      · rintro ⟨cells, hlabels, hcells⟩
        cases cells with
        | nil => exact absurd hlabels (by simp)
        | cons c cells =>
            rw [List.map_cons, List.cons.injEq] at hlabels
            obtain ⟨rfl, rfl⟩ := hlabels
            have hstatus : s.residenceStatuses c ≠ -1 := hcells c List.mem_cons_self
            rw [cellAt_val, ok_bind, if_neg hstatus]
            exact ih.mpr ⟨cells, rfl, fun c' hc' => hcells c' (List.mem_cons_of_mem c hc')⟩

/-- The residency test does not depend on the probe count of the index. -/
theorem cacheHit_probe (s : Core nCells) (nprobe : Nat) (requireAll : Bool)
    (row : List Int) :
    Core.cacheHit { s with nprobe := nprobe } requireAll row = s.cacheHit requireAll row := by
  have hall : ∀ labels,
      Core.allInResidence { s with nprobe := nprobe } labels = s.allInResidence labels := by
    intro labels
    induction labels with
    | nil => rfl
    | cons label labels ih => rw [allInResidence, allInResidence, ih]
  cases row with
  | nil => rfl
  | cons label labels => rw [cacheHit, cacheHit, hall]

/-- With `require_all`, a hit is a row of cells all of which are in residence. -/
theorem cacheHit_all_eq_true {s : Core nCells} {row : List Int} :
    s.cacheHit true row = .ok true ↔
      ∃ c, ∃ cells : List (Fin nCells),
        row = (c :: cells).map (fun c => (c.val : Int)) ∧
          s.residenceStatuses c > -1 ∧ ∀ c' ∈ cells, s.residenceStatuses c' ≠ -1 := by
  cases row with
  | nil => simp [cacheHit]
  | cons label labels =>
      rw [cacheHit]
      constructor
      · intro h
        obtain ⟨c, hc, h⟩ := bind_eq_ok.mp h
        split at h
        · next hstatus =>
            rw [if_pos rfl] at h
            obtain ⟨cells, rfl, hcells⟩ := allInResidence_eq_true.mp h
            exact ⟨c, cells, by rw [cellAt_eq_ok.mp hc, List.map_cons], hstatus, hcells⟩
        · exact absurd h (by simp)
      · rintro ⟨c, cells, hrow, hstatus, hcells⟩
        rw [List.map_cons, List.cons.injEq] at hrow
        obtain ⟨rfl, rfl⟩ := hrow
        rw [cellAt_val, ok_bind, if_pos hstatus, if_pos rfl]
        exact allInResidence_eq_true.mpr ⟨cells, rfl, hcells⟩

private theorem map_val_injective {xs ys : List (Fin nCells)}
    (h : xs.map (fun c => (c.val : Int)) = ys.map (fun c => (c.val : Int))) : xs = ys := by
  refine List.map_injective_iff.mpr ?_ h
  intro a b hab
  have hab' : (a.val : Int) = b.val := hab
  exact Fin.ext (by omega)

/-- The labels of a vector are all cells exactly when no padding was needed. -/
theorem assign_eq_map {F : Faiss nCells δ} {v : List F32} {m : Nat}
    {cells : List (Fin nCells)} :
    F.assign v m = cells.map (fun c => (c.val : Int)) ↔
      m ≤ (F.ranked v).length ∧ cells = (F.ranked v).take m := by
  rw [Faiss.assign_eq_append]
  constructor
  · intro h
    by_cases hm : m ≤ (F.ranked v).length
    · have hpad : m - ((F.ranked v).take m).length = 0 := by
        rw [List.length_take]
        omega
      rw [hpad, List.replicate_zero, List.append_nil] at h
      exact ⟨hm, (map_val_injective h).symm⟩
    · -- a label of `-1` is no cell
      exfalso
      have hmem : (-1 : Int) ∈ ((F.ranked v).take m).map (fun c => (c.val : Int)) ++
          List.replicate (m - ((F.ranked v).take m).length) (-1) := by
        refine List.mem_append_right _ (List.mem_replicate.mpr ⟨?_, rfl⟩)
        rw [List.length_take]
        omega
      rw [h] at hmem
      obtain ⟨c, _, hc⟩ := List.mem_map.mp hmem
      omega
  · rintro ⟨hm, rfl⟩
    have hpad : m - ((F.ranked v).take m).length = 0 := by
      rw [List.length_take]
      omega
    rw [hpad, List.replicate_zero, List.append_nil]

/-- Some cell is nearest. -/
theorem take_ranked_eq_cons {F : Faiss nCells δ} {v : List F32} {m : Nat} (hm : 1 ≤ m)
    (hlen : m ≤ (F.ranked v).length) : ∃ c cells, (F.ranked v).take m = c :: cells := by
  apply List.exists_cons_of_ne_nil
  intro hnil
  have hzero := congrArg List.length hnil
  rw [List.length_take, List.length_nil] at hzero
  omega

/-- The labels of a single query are its row. -/
theorem rowAt_assign (F : Faiss nCells δ) (v : List F32) (nprobe : Nat) :
    rowAt nprobe 0 (F.assign v nprobe) = F.assign v nprobe := by
  rw [rowAt, Nat.zero_mul, List.drop_zero,
    List.take_of_length_le (Nat.le_of_eq (F.assign_length v nprobe))]

/-! ## The slots -/

/-- The record a label stands for; a missing result is an empty record. -/
def slot (s : Core nCells) (label : Int) : Data :=
  if label = -1 then {} else (s.dataMap label.toNat).getD {}

/-- The labels can all be turned into slots. -/
def Known (s : Core nCells) (labels : List Int) : Prop :=
  ∀ label ∈ labels, label = -1 ∨ (s.dataMap label.toNat).isSome

theorem fillSlots_eq_ok {s : Core nCells} {labels : List Int} {base : Nat}
    {data : List Data} {hits : Int} (hknown : s.Known labels)
    (hroom : base + labels.length ≤ data.length) :
    s.fillSlots labels base data hits =
      .ok (data.take base ++ labels.map s.slot ++ data.drop (base + labels.length),
        hits + labels.countP (· ≠ -1)) := by
  induction labels generalizing base data hits with
  | nil => simp [fillSlots]
  | cons label labels ih =>
      have hrest : s.Known labels := fun l hl => hknown l (List.mem_cons_of_mem label hl)
      rw [List.length_cons] at hroom
      have hbase : base < data.length := by omega
      -- the slot written first stands between the two halves afterwards
      have hshape : ∀ x : Data, (data.set base x).take (base + 1) = data.take base ++ [x] := by
        intro x
        rw [List.take_add_one, List.take_set_of_le (Nat.le_refl base),
          List.getElem?_set_self hbase]
        rfl
      have htail : ∀ x : Data, (data.set base x).drop (base + 1 + labels.length) =
          data.drop (base + (labels.length + 1)) := by
        intro x
        rw [List.drop_set_of_lt (by omega)]
        congr 1
        omega
      have hroom' : ∀ x : Data, base + 1 + labels.length ≤ (data.set base x).length := by
        intro x
        rw [List.length_set]
        omega
      rw [fillSlots]
      by_cases hpad : label = -1
      · rw [if_pos hpad, writeSlot, store_of_lt hbase, bounded_some, ok_bind,
          ih hrest (hroom' _), hshape, htail]
        simp [slot, hpad]
      · have hsome : (s.dataMap label.toNat).isSome :=
          (hknown label List.mem_cons_self).resolve_left hpad
        obtain ⟨x, hx⟩ := Option.isSome_iff_exists.mp hsome
        simp only [if_neg hpad, hx, writeSlot, store_of_lt hbase, bounded_some, ok_bind]
        rw [ih hrest (hroom' _), hshape, htail]
        simp [slot, hpad, hx]
        omega

/-- The slots written are there. -/
theorem fillSlots_room {s : Core nCells} {labels : List Int} {base : Nat}
    {data data' : List Data} {hits hits' : Int} (hne : labels ≠ [])
    (h : s.fillSlots labels base data hits = .ok (data', hits')) :
    base + labels.length ≤ data.length := by
  induction labels generalizing base data hits with
  | nil => exact absurd rfl hne
  | cons label labels ih =>
      -- after the first write the buffer is as long as before
      have hwrite : ∀ (x : Data) (t : List Data), writeSlot data base x = .ok t →
          base < data.length ∧ t.length = data.length := by
        intro x t ht
        rw [writeSlot, store] at ht
        split at ht
        · next hlt =>
            simp only [bounded_some, Except.ok.injEq] at ht
            exact ⟨hlt, by rw [← ht, List.length_set]⟩
        · exact absurd ht (by simp)
      have hrest : ∀ (t : List Data) (m : Int), t.length = data.length →
          base < data.length → s.fillSlots labels (base + 1) t m = .ok (data', hits') →
          base + (label :: labels).length ≤ data.length := by
        intro t m hlen hlt ht
        rw [List.length_cons]
        by_cases hnil : labels = []
        · rw [hnil, List.length_nil]
          omega
        · have := ih hnil ht
          omega
      rw [fillSlots] at h
      split at h
      · obtain ⟨t, ht, h⟩ := bind_eq_ok.mp h
        exact hrest t _ (hwrite _ t ht).2 (hwrite _ t ht).1 h
      · cases hx : s.dataMap label.toNat with
        | none => simp [hx] at h
        | some x =>
            simp only [hx] at h
            obtain ⟨t, ht, h⟩ := bind_eq_ok.mp h
            exact hrest t _ (hwrite _ t ht).2 (hwrite _ t ht).1 h

/-- Known labels never reach the assertion on `data_map`. -/
theorem fillSlots_ne_assertion {s : Core nCells} {labels : List Int} {base : Nat}
    {data : List Data} {hits : Int} (hknown : s.Known labels) :
    s.fillSlots labels base data hits ≠ .error (.assertion .labelInDataMap) := by
  induction labels generalizing base data hits with
  | nil => simp [fillSlots]
  | cons label labels ih =>
      have hrest : s.Known labels := fun l hl => hknown l (List.mem_cons_of_mem label hl)
      have hwrite : ∀ x : Data,
          writeSlot data base x ≠ .error (.assertion .labelInDataMap) := by
        intro x
        rw [writeSlot, store]
        split <;> simp
      rw [fillSlots]
      intro h
      by_cases hpad : label = -1
      · rw [if_pos hpad] at h
        rcases bind_eq_error.mp h with h | ⟨data', _, h⟩
        · exact hwrite _ h
        · exact ih hrest h
      · have hsome : (s.dataMap label.toNat).isSome :=
          (hknown label List.mem_cons_self).resolve_left hpad
        obtain ⟨x, hx⟩ := Option.isSome_iff_exists.mp hsome
        simp only [if_neg hpad, hx] at h
        rcases bind_eq_error.mp h with h | ⟨data', _, h⟩
        · exact hwrite _ h
        · exact ih hrest h

/-! ## The index -/

/-- The entries the index finds for a vector. -/
def found (F : Faiss nCells δ) (s : Core nCells) (nprobe : Nat) (q : List F32)
    (k : Nat) : List Entry :=
  F.best q k (((F.ranked q).take nprobe).flatMap s.invlists)

/-- The record stored under the number of an entry. -/
def recordOf (s : Core nCells) (e : Entry) : Data := (s.dataMap e.num).getD {}

/-- The `k` slots of a hit: the records found, then empty ones. -/
def row (F : Faiss nCells δ) (s : Core nCells) (nprobe : Nat) (q : List F32)
    (k : Nat) : List Data :=
  (found F s nprobe q k).map s.recordOf ++
    List.replicate (k - (found F s nprobe q k).length) ({} : Data)

theorem found_isTopK (F : Faiss nCells δ) (s : Core nCells) (nprobe : Nat)
    (q : List F32) (k : Nat) :
    IsTopK (fun e => F.distance q e.vec) k
      (((F.ranked q).take nprobe).flatMap s.invlists) (found F s nprobe q k) :=
  F.best_spec q k _

theorem found_length_le (F : Faiss nCells δ) (s : Core nCells) (nprobe : Nat)
    (q : List F32) (k : Nat) : (found F s nprobe q k).length ≤ k := by
  rw [(found_isTopK F s nprobe q k).length]
  exact Nat.min_le_left k _

theorem row_length (F : Faiss nCells δ) (s : Core nCells) (nprobe : Nat)
    (q : List F32) (k : Nat) : (row F s nprobe q k).length = k := by
  have := found_length_le F s nprobe q k
  rw [row, List.length_append, List.length_map, List.length_replicate]
  omega

theorem indexSearch_eq_ok {F : Faiss nCells δ} {s : Core nCells} {nprobe k : Nat}
    {q : List F32} {labels : List Int} :
    F.indexSearch nprobe s.invlists q k = .ok labels ↔
      k ≠ 0 ∧ labels = padLabels k
        ((found F s nprobe q k).map (fun e => (e.num : Int))) := by
  rw [Faiss.indexSearch]
  by_cases hk : k = 0
  · simp [hk]
  · simp [hk, found, eq_comm]

/-- What the index finds is stored. -/
theorem StoreInv.found_stored {F : Faiss nCells δ} {s : Core nCells}
    (h : StoreInv F s) {nprobe k : Nat} {q : List F32} {e : Entry}
    (he : e ∈ found F s nprobe q k) :
    ∃ c ∈ (F.ranked q).take nprobe, e ∈ s.invlists c ∧
      ∃ x, s.dataMap e.num = some x ∧ x.readEmbedding F.d = .ok e.vec := by
  obtain ⟨c, hc, hmem⟩ := List.mem_flatMap.mp ((found_isTopK F s nprobe q k).mem he)
  obtain ⟨x, hx, hv, _⟩ := h.listed c e hmem
  exact ⟨c, hc, hmem, x, hx, hv⟩

theorem StoreInv.labels_known {F : Faiss nCells δ} {s : Core nCells}
    (h : StoreInv F s) {nprobe k : Nat} {q : List F32} {labels : List Int}
    (hlabels : F.indexSearch nprobe s.invlists q k = .ok labels) : s.Known labels := by
  obtain ⟨_, rfl⟩ := indexSearch_eq_ok.mp hlabels
  intro label hlabel
  rcases List.mem_append.mp hlabel with hmem | hmem
  · obtain ⟨e, he, rfl⟩ := List.mem_map.mp hmem
    obtain ⟨_, _, _, x, hx, _⟩ := h.found_stored he
    refine Or.inr ?_
    rw [Int.toNat_natCast, hx]
    rfl
  · exact Or.inl (List.mem_replicate.mp hmem).2

/-- The labels found, turned into slots, are the row of the query. -/
theorem map_slot_labels (F : Faiss nCells δ) (s : Core nCells) (nprobe : Nat)
    (q : List F32) (k : Nat) :
    (padLabels k ((found F s nprobe q k).map (fun e => (e.num : Int)))).map s.slot =
      row F s nprobe q k := by
  have hslot : (s.slot ∘ fun e : Entry => (e.num : Int)) = s.recordOf := by
    funext e
    have hne : ¬ (e.num : Int) = -1 := by omega
    rw [Function.comp_apply, slot, if_neg hne, Int.toNat_natCast, recordOf]
  have hempty : s.slot (-1) = {} := by rw [slot, if_pos rfl]
  rw [padLabels, row, List.map_append, List.map_map, List.map_replicate, hempty,
    List.length_map, hslot]

theorem countP_labels (F : Faiss nCells δ) (s : Core nCells) (nprobe : Nat)
    (q : List F32) (k : Nat) :
    (padLabels k ((found F s nprobe q k).map (fun e => (e.num : Int)))).countP
      (· ≠ -1) = (found F s nprobe q k).length := by
  rw [padLabels, List.countP_append, List.countP_map, List.countP_replicate]
  have hall : ((found F s nprobe q k).countP
      ((fun x => decide (x ≠ (-1 : Int))) ∘ fun e => (e.num : Int))) =
      (found F s nprobe q k).length := by
    rw [List.countP_eq_length]
    intro e _
    simp
  rw [hall]
  simp

/-! ## One query -/

theorem searchQuery_miss {F : Faiss nCells δ} {xq : List F32} {k nprobe : Nat}
    {requireAll : Bool} {labels : List Int} {s : Core nCells} {i : Nat}
    (data : List Data)
    (hmiss : s.cacheHit requireAll (rowAt nprobe i labels) = .ok false) :
    searchQuery F xq k nprobe requireAll labels s i data = .ok (data, -1) := by
  rw [searchQuery, hmiss]
  rfl

/-- **A hit writes its own row of slots and nothing else.** -/
theorem searchQuery_hit {F : Faiss nCells δ} {xq q : List F32} {k nprobe : Nat}
    {requireAll : Bool} {labels : List Int} {s : Core nCells} (hinv : StoreInv F s)
    {i : Nat} {data : List Data}
    (hhit : s.cacheHit requireAll (rowAt nprobe i labels) = .ok true)
    (hq : window xq i F.d = some q) (hk : k ≠ 0) (hroom : i * k + k ≤ data.length) :
    searchQuery F xq k nprobe requireAll labels s i data =
      .ok (putRow k i (row F s nprobe q k) data,
        ((found F s nprobe q k).length : Int)) := by
  have hindex : F.indexSearch nprobe s.invlists q k = .ok (padLabels k
      ((found F s nprobe q k).map (fun e => (e.num : Int)))) :=
    indexSearch_eq_ok.mpr ⟨hk, rfl⟩
  have hlen : (padLabels k
      ((found F s nprobe q k).map (fun e => (e.num : Int)))).length = k := by
    refine padLabels_length ?_
    rw [List.length_map]
    exact found_length_le F s nprobe q k
  rw [searchQuery, hhit, ok_bind, if_pos rfl, hq, bounded_some, ok_bind, hindex, ok_bind,
    fillSlots_eq_ok (hinv.labels_known hindex) (by rw [hlen]; exact hroom),
    map_slot_labels, countP_labels, hlen, Int.zero_add, putRow]

/-- **What one query can do.**  It misses and writes nothing, or it hits and its
row is that of the vector at `&xq[i]`. -/
theorem searchQuery_eq_ok {F : Faiss nCells δ} {xq : List F32} {k nprobe : Nat}
    {requireAll : Bool} {labels : List Int} {s : Core nCells} (hinv : StoreInv F s)
    {i : Nat} {data data' : List Data} {hits : Int} :
    searchQuery F xq k nprobe requireAll labels s i data = .ok (data', hits) ↔
      (s.cacheHit requireAll (rowAt nprobe i labels) = .ok false ∧ data' = data ∧
        hits = -1) ∨
      (s.cacheHit requireAll (rowAt nprobe i labels) = .ok true ∧
        ∃ q, window xq i F.d = some q ∧ k ≠ 0 ∧ i * k + k ≤ data.length ∧
          data' = putRow k i (row F s nprobe q k) data ∧
          hits = ((found F s nprobe q k).length : Int)) := by
  constructor
  · intro h
    have h₀ := h
    rw [searchQuery] at h
    obtain ⟨hit, hhit, h⟩ := bind_eq_ok.mp h
    cases hit with
    | false =>
        simp only [Bool.false_eq_true, if_false, Except.ok.injEq, Prod.mk.injEq] at h
        exact Or.inl ⟨hhit, h.1.symm, h.2.symm⟩
    | true =>
        rw [if_pos rfl] at h
        obtain ⟨q, hq, h⟩ := bind_eq_ok.mp h
        obtain ⟨found', hfound, h⟩ := bind_eq_ok.mp h
        obtain ⟨hk, rfl⟩ := indexSearch_eq_ok.mp hfound
        have hlen : (padLabels k
            ((found F s nprobe q k).map (fun e => (e.num : Int)))).length = k := by
          refine padLabels_length ?_
          rw [List.length_map]
          exact found_length_le F s nprobe q k
        have hroom := fillSlots_room (by
          intro hnil
          rw [hnil, List.length_nil] at hlen
          omega) h
        rw [hlen] at hroom
        rw [searchQuery_hit hinv hhit (bounded_eq_ok.mp hq) hk hroom,
          Except.ok.injEq, Prod.mk.injEq] at h₀
        exact Or.inr ⟨hhit, q, bounded_eq_ok.mp hq, hk, hroom, h₀.1.symm, h₀.2.symm⟩
  · rintro (⟨hmiss, rfl, rfl⟩ | ⟨hhit, q, hq, hk, hroom, rfl, rfl⟩)
    · exact searchQuery_miss _ hmiss
    · exact searchQuery_hit hinv hhit hq hk hroom

/-- A search with one query is that query on its own. -/
theorem search_one_eq_ok {F : Faiss nCells δ} {q : List F32} {k nprobe : Nat}
    {requireAll : Bool} {s s' : Core nCells} {data data' : List Data} {hits : List Int} :
    s.search F 1 q k nprobe requireAll data = .ok (s', data', hits) ↔
      nprobe ≠ 0 ∧ F.d ≤ q.length ∧ s' = { s with nprobe := nprobe } ∧
        ∃ h, hits = [h] ∧
          searchQuery F q k nprobe requireAll (F.assign (q.take F.d) nprobe)
            { s with nprobe := nprobe } 0 data = .ok (data', h) := by
  rw [search]
  constructor
  · intro h
    obtain ⟨labels, hlabels, h⟩ := bind_eq_ok.mp h
    obtain ⟨hprobe, hlen, rfl⟩ := quantizerSearch_one.mp hlabels
    obtain ⟨⟨data₁, hits₁⟩, hloop, h⟩ := bind_eq_ok.mp h
    simp only [Except.ok.injEq, Prod.mk.injEq] at h
    obtain ⟨rfl, rfl, rfl⟩ := h
    rw [show List.range 1 = [0] from rfl, searchQueries] at hloop
    obtain ⟨⟨data₂, h₂⟩, hquery, hloop⟩ := bind_eq_ok.mp hloop
    simp only [searchQueries, ok_bind, Except.ok.injEq, Prod.mk.injEq] at hloop
    obtain ⟨rfl, rfl⟩ := hloop
    exact ⟨hprobe, hlen, rfl, h₂, rfl, hquery⟩
  · rintro ⟨hprobe, hlen, rfl, h, rfl, hquery⟩
    rw [quantizerSearch_one.mpr ⟨hprobe, hlen, rfl⟩, ok_bind,
      show List.range 1 = [0] from rfl, searchQueries, hquery]
    rfl

/-- The residency test alone never reaches the assertion on `data_map`. -/
private theorem cacheHit_ne_assertion {s : Core nCells} {requireAll : Bool}
    {labels : List Int} :
    s.cacheHit requireAll labels ≠ .error (.assertion .labelInDataMap) := by
  have hcell : ∀ label, cellAt nCells label ≠ .error (.assertion .labelInDataMap) := by
    intro label
    rw [cellAt]
    split <;> simp
  have hall : ∀ labels, s.allInResidence labels ≠ .error (.assertion .labelInDataMap) := by
    intro labels
    induction labels with
    | nil => simp [allInResidence]
    | cons label labels ih =>
        rw [allInResidence]
        intro h
        rcases bind_eq_error.mp h with h | ⟨c, _, h⟩
        · exact hcell label h
        · split at h
          · exact absurd h (by simp)
          · exact ih h
  cases labels with
  | nil => simp [cacheHit]
  | cons label labels =>
      rw [cacheHit]
      intro h
      rcases bind_eq_error.mp h with h | ⟨c, _, h⟩
      · exact hcell label h
      · split at h
        · split at h
          · exact hall labels h
          · exact absurd h (by simp)
        · exact absurd h (by simp)

theorem StoreInv.searchQuery_ne_assertion {F : Faiss nCells δ} {s : Core nCells}
    (hinv : StoreInv F s) {xq : List F32} {k nprobe : Nat} {requireAll : Bool}
    {labels : List Int} {i : Nat} {data : List Data} :
    searchQuery F xq k nprobe requireAll labels s i data ≠
      .error (.assertion .labelInDataMap) := by
  rw [searchQuery]
  intro h
  rcases bind_eq_error.mp h with h | ⟨hit, _, h⟩
  · exact cacheHit_ne_assertion h
  · split at h
    · rcases bind_eq_error.mp h with h | ⟨q, _, h⟩
      · cases hw : window xq i F.d <;> simp [hw] at h
      · rcases bind_eq_error.mp h with h | ⟨found, hfound, h⟩
        · rw [Faiss.indexSearch] at h
          split at h <;> simp at h
        · exact fillSlots_ne_assertion (hinv.labels_known hfound) h
    · exact absurd h (by simp)

/-- **The assertion in `Core::search` cannot fail.** -/
theorem StoreInv.search_ne_assertion {F : Faiss nCells δ} {s : Core nCells}
    (hinv : StoreInv F s) {n : Nat} {xq : List F32} {k nprobe : Nat}
    {requireAll : Bool} {data : List Data} :
    s.search F n xq k nprobe requireAll data ≠ .error (.assertion .labelInDataMap) := by
  have hprobe : StoreInv F { s with nprobe := nprobe } := hinv.congr s.centroids nprobe
  have hloop : ∀ (labels : List Int) (is : List Nat) (data : List Data),
      searchQueries F xq k nprobe requireAll labels { s with nprobe := nprobe } is data ≠
        .error (.assertion .labelInDataMap) := by
    intro labels is
    induction is with
    | nil => intro data; simp [searchQueries]
    | cons i is ih =>
        intro data
        rw [searchQueries]
        intro h
        rcases bind_eq_error.mp h with h | ⟨⟨data', hits⟩, _, h⟩
        · exact hprobe.searchQuery_ne_assertion h
        · rcases bind_eq_error.mp h with h | ⟨⟨data'', rest⟩, _, h⟩
          · exact ih data' h
          · exact absurd h (by simp)
  rw [search]
  intro h
  rcases bind_eq_error.mp h with h | ⟨labels, _, h⟩
  · rw [Faiss.quantizerSearch_eq] at h
    split at h
    · exact absurd h (by simp)
    · split at h <;> simp at h
  · rcases bind_eq_error.mp h with h | ⟨⟨data', hits⟩, _, h⟩
    · exact hloop labels _ data h
    · exact absurd h (by simp)

/-! ## The store invariant, field by field -/

/-- After any sequence of operations on a trained core, whatever the database
answered: the inverted lists and `data_map` hold the same numbers, each in one
place; entries lie in the list of their nearest centroid; a cell that is not in
residence has an empty list; the records stored are under the numbers of their
ids, which are distinct and below `next_id`; and no search fails its assertion. -/
theorem reaches_consistent (F : Faiss nCells δ) (ops : List (Op nCells))
    (s : Core nCells) (h : Reaches F ops s) :
    (∀ c, ∀ num ∈ s.numbers c, (s.dataMap num).isSome) ∧
    (∀ num, (s.dataMap num).isSome →
      ∃ c, (s.numbers c).count num = 1 ∧ ∀ c', c' ≠ c → num ∉ s.numbers c') ∧
    (∀ c num x, num ∈ s.numbers c → s.dataMap num = some x →
      ∃ v, x.readEmbedding F.d = .ok v ∧ F.nearest v = some c) ∧
    (∀ c, s.residenceStatuses c = -1 → s.invlists c = []) ∧
    (∀ c, s.residenceStatuses c = -1 ∨ 0 ≤ s.residenceStatuses c) ∧
    (∀ num x, s.dataMap num = some x →
      ∃ id, x.idString = .ok id ∧ s.idMap id = some num) ∧
    (∀ a b num, s.idMap a = some num → s.idMap b = some num → a = b) ∧
    (∀ id num, s.idMap id = some num → num < s.nextId) ∧
    (∀ n xq k nprobe requireAll data,
      s.search F n xq k nprobe requireAll data ≠
        .error (.assertion .labelInDataMap)) := by
  have hinv := storeInv_of_reaches h
  refine ⟨?_, ?_, ?_, hinv.emptyLists, hinv.statuses, hinv.registered,
    hinv.idInjective, hinv.idBelow, fun _ _ _ _ _ _ => hinv.search_ne_assertion⟩
  · intro c num hnum
    obtain ⟨x, _, hx, _⟩ := hinv.of_mem_numbers hnum
    rw [hx]
    rfl
  · intro num hnum
    obtain ⟨x, hx⟩ := Option.isSome_iff_exists.mp hnum
    obtain ⟨c, hc⟩ := hinv.stored num x hx
    refine ⟨c, List.count_eq_one_of_mem (hinv.listNodup c) hc, ?_⟩
    intro c' hne hc'
    exact hne (hinv.cell_unique hc' hc)
  · intro c num x hnum hx
    obtain ⟨x', v, hx', hv, hnear⟩ := hinv.of_mem_numbers hnum
    rw [hx, Option.some.injEq] at hx'
    subst hx'
    exact ⟨v, hv, hnear⟩

/-- A cell is loaded, evicted, and loaded again with other contents. -/
def reloadRun : List (Op 1) :=
  [.add 1 [[97, 0]] [5],
    .load [5] 1 (.ofRecords fun id => ⟨id, [5], [], []⟩),
    .search 1 [5] 1 1 true [{}],
    .evict [5] 1,
    .load [5] 1 (.ofRecords fun id => ⟨id, [5], [1], [2]⟩)]

theorem reaches_consistent_reloadRun :
    ∃ s, Reaches (Faiss.discrete 1 1) reloadRun s ∧ s.numbers 0 = [0] ∧
      ∀ c, ∀ num ∈ s.numbers c, (s.dataMap num).isSome := by
  obtain ⟨s, hs, hnums⟩ : ∃ s, Reaches (Faiss.discrete 1 1) reloadRun s ∧
      s.numbers 0 = [0] := ⟨_, rfl, rfl⟩
  exact ⟨s, hs, hnums, (reaches_consistent (Faiss.discrete 1 1) reloadRun s hs).1⟩

end Core

end Periplus.Ports
