import Periplus.Ports.CoreEviction
import Periplus.Ports.CoreOutcomes

/-!
# Rounds of LOAD, SEARCH and EVICT

An application that queries the cache like a plain index loads the cells it is going to
probe, searches them, and evicts them again.  Each round then begins and ends with an empty
cache, and is answered from everything that has been registered near the query.

## Main results

* `round_correct` — one round of an empty cache finds what is nearest to its query, and
  leaves an empty cache.
* `rounds_correct` — with such a database every search of every round is answered like a
  search of an index over all that has been registered.
-/

namespace Periplus.Ports

open Periplus.Verified.Memory
open Periplus.Verified.Run
open Periplus.Verified.TopK
open Periplus.Verified.Buckets

namespace Core

variable {nCells : Nat} {δ : Type} [LinearOrder δ]

/-! ## One round -/

/-- No cell is in residence. -/
def Cold (s : Core nCells) : Prop := ∀ c, s.residenceStatuses c = -1

/-- Everything registered is held, and nothing is in residence. -/
theorem holds_of_cold {F : Faiss nCells δ} {ops : List (Op nCells)} {s : Core nCells}
    (hstore : StoreInv F s) (hregistry : RegistryInv F (registered F ops) s) (h : s.Cold) :
    Holds F ops s := by
  refine ⟨hstore, hregistry, fun c => ?_⟩
  rw [hstore.emptyLists c (h c), List.length_nil, List.take_zero, List.map_nil]

/-- With full lists nothing that is registered is missing from them. -/
theorem unlisted_of_full {F : Faiss nCells δ} {ops : List (Op nCells)} {s : Core nCells}
    {q : List F32} {m : Nat} (h : ∀ c ∈ probed F q m, Full F ops s c) :
    unlisted F ops s q m = [] := by
  unfold unlisted
  rw [List.flatMap_eq_nil_iff]
  intro c hc
  rw [h c hc, List.drop_length]

/-- What a search of an index over `docs` is to find. -/
def Nearest (F : Faiss nCells δ) (docs : List Doc) (q : List F32) (k m : Nat)
    (answer : List Doc) : Prop :=
  IsTopK (fun p : Doc => F.distance q p.2) k
    (buckets (fun p => F.nearest p.2) (probed F q m) docs) answer

/-- The rounds for some queries, one after the other: every LOAD and every EVICT comes back,
and every SEARCH hits and finds the `k` documents nearest to its query. -/
inductive Rounds (F : Faiss nCells δ) (docs : List Doc) (db : Database nCells) (k m : Nat) :
    List (List F32) → Core nCells → Core nCells → Prop
  | done (s : Core nCells) : Rounds F docs db k m [] s s
  | round {q : List F32} {qs : List (List F32)} {s s₁ s₂ s₃ s' : Core nCells}
      {data : List Data} {answer : List Doc}
      (loads : s.loadCellWithVec F db q m = .ok (.returns s₁))
      (searches : s₁.search F 1 q k m true (List.replicate k {}) =
        .ok (s₂, data, [(answer.length : Int)]))
      (nearest : Nearest F docs q k m answer)
      (represents : List.Forall₂ (Represents F.d) (data.take answer.length) answer)
      (evicts : s₂.evictCellWithVec F q m = .ok s₃) (rest : Rounds F docs db k m qs s₃ s') :
      Rounds F docs db k m (q :: qs) s s'

/-- Emptying the cells of a round leaves nothing in residence. -/
theorem cold_evictedAll {s : Core nCells} {cells : List (Fin nCells)}
    (h : ∀ c ∉ cells, s.residenceStatuses c = -1) : (s.evictedAll cells).Cold := by
  induction cells generalizing s with
  | nil => exact fun c => h c List.not_mem_nil
  | cons c cells ih =>
      rw [evictedAll_cons]
      apply ih
      intro c' hc'
      rw [evicted_residenceStatuses]
      by_cases hne : c' = c
      · rw [hne, Function.update_self]
      · rw [Function.update_of_ne hne]
        exact h c' (by
          rw [List.mem_cons, not_or]
          exact ⟨hne, hc'⟩)

theorem evictedAll_registry (cells : List (Fin nCells)) (s : Core nCells) :
    (s.evictedAll cells).idsByCell = s.idsByCell ∧ (s.evictedAll cells).idMap = s.idMap := by
  induction cells generalizing s with
  | nil => exact ⟨rfl, rfl⟩
  | cons c cells ih => exact ih (s.evicted c)

section Round

variable {F : Faiss nCells δ} {ops : List (Op nCells)} {db : Database nCells}

/-- What is stored by a load of an empty cache has been in an answer. -/
theorem stored_of_answers {s t : Core nCells} (hstore : StoreInv F s) (hcold : s.Cold)
    {P : Data → Prop}
    (hP : ∀ c x, db c (s.idsByCell c) = .filled x → ∀ y ∈ x.toList, P y)
    {cells : List (Fin nCells)} (hpartly : PartlyLoaded F db cells s t) {num : Nat} {y : Data}
    (hy : t.dataMap num = some y) : P y := by
  rcases hpartly.stored num y hy with hold | ⟨c, hc, hempty, hnum⟩
  · obtain ⟨c, hc⟩ := hstore.stored num y hold
    rw [numbers, hstore.emptyLists c (hcold c), List.map_nil] at hc
    exact absurd hc List.not_mem_nil
  · obtain ⟨x, hx, hlist, hrecords⟩ := (hpartly.loaded c hc hempty).answer
    rw [numbers, hlist, List.map_map] at hnum
    obtain ⟨e, he, rfl⟩ := List.mem_map.mp hnum
    have hrecord := hrecords e he
    have hsame : y = e.record := Option.some.inj (hy.symm.trans hrecord)
    rw [hsame]
    exact hP c x hx _ (accepted_spec he).1

/-- The slots of a search hold what is stored, or nothing. -/
theorem slots_of_stored {t : Core nCells} {P : Data → Prop}
    (h : ∀ num y, t.dataMap num = some y → P y) (m k : Nat) (q : List F32) :
    ∀ y ∈ putRow k 0 (row F t m q k) (List.replicate k ({} : Data)), y = {} ∨ P y := by
  intro y hy
  rw [putRow, Nat.zero_mul, List.take_zero, List.nil_append, Nat.zero_add,
    List.drop_of_length_le (by rw [List.length_replicate]), List.append_nil, row,
    List.mem_append] at hy
  rcases hy with hy | hy
  · obtain ⟨e, _, rfl⟩ := List.mem_map.mp hy
    rw [recordOf]
    cases hdata : t.dataMap e.num with
    | none => exact Or.inl rfl
    | some x => exact Or.inr (h e.num x hdata)
  · exact Or.inl (List.mem_replicate.mp hy).2

/-- **One round** of an empty cache.  `P` is whatever holds of all the records that the
database returns. -/
theorem round_correct (hids : DistinctIds F ops) {s : Core nCells} (h : Holds F ops s)
    (hcold : s.Cold)
    (hdb : ∀ c, ∃ x, db c (s.idsByCell c) = .filled x ∧
      Faithful F (registered F ops) (s.idsByCell c) (.filled x))
    {P : Data → Prop}
    (hP : ∀ c x, db c (s.idsByCell c) = .filled x → ∀ y ∈ x.toList, P y)
    {q : List F32} (hq : q.length = F.d) {k m : Nat} (hk : k ≠ 0) (hm : m ≠ 0)
    (hranked : m ≤ (F.ranked q).length) :
    ∃ s₁ s₂ s₃ data answer, s.loadCellWithVec F db q m = .ok (.returns s₁) ∧
      s₁.search F 1 q k m true (List.replicate k {}) =
        .ok (s₂, data, [(answer.length : Int)]) ∧
      Nearest F (registered F ops) q k m answer ∧
      List.Forall₂ (Represents F.d) (data.take answer.length) answer ∧
      (∀ y ∈ data, y = {} ∨ P y) ∧ s₂.evictCellWithVec F q m = .ok s₃ ∧ Holds F ops s₃ ∧
      s₃.Cold ∧ s₃.idsByCell = s.idsByCell := by
  have htake : q.take F.d = q := by rw [← hq, List.take_length]
  have hassign := assign_eq_map.mpr ⟨hranked, rfl⟩
  -- the load
  have hanswered : ∀ c, Answered F (registered F ops) (s.idsByCell c) (db c (s.idsByCell c)) := by
    intro c
    obtain ⟨x, hx, hfaithful⟩ := hdb c
    rw [hx]
    exact .whole hfaithful
  have houtcome := loadCells_outcome hids (probed_nodup F q m) h hanswered
  obtain ⟨t, ht⟩ : ∃ t, loadCells F db ((probed F q m).map (fun c => (c.val : Int))) s =
      .ok (.returns t) := loadCells_returns hids h.store h.registry h.snapshot hdb
  rw [ht] at houtcome
  obtain ⟨hholds, hfull, hpartly⟩ : Holds F ops t ∧ (∀ c ∈ probed F q m,
      t.residenceStatuses c ≠ -1 ∧ (s.residenceStatuses c = -1 → Full F ops t c)) ∧
      PartlyLoaded F db (probed F q m) s t := by
    cases houtcome with
    | returns holds whole loaded partly => exact ⟨holds, loaded, partly⟩
  have hother : ∀ c ∉ probed F q m, t.residenceStatuses c = s.residenceStatuses c :=
    fun c hc => (hpartly.untouched c (fun h => absurd h hc)).status
  have hreturns : s.loadCellWithVec F db q m = .ok (.returns t) := by
    rw [loadCellWithVec, quantizerSearch_one.mpr ⟨hm, Nat.le_of_eq hq.symm, rfl⟩, ok_bind, htake,
      hassign]
    exact ht
  -- the search
  have hall : AllResident F t q m := ⟨hranked, fun c hc => (hfull c hc).1⟩
  have hsearch := search_of_allResident hholds.store hq hk hm hall
  have hnear : Nearest F (registered F ops) q k m ((found F t m q k).map t.docOf) := by
    have hparts := listed_append_unlisted hholds.snapshot q m
    rw [unlisted_of_full (fun c hc => (hfull c hc).2 (hcold c)), List.append_nil] at hparts
    exact (found_docs_isTopK F t m q k).perm hparts
  have hlength : ((found F t m q k).map t.docOf).length = (found F t m q k).length :=
    List.length_map _
  have hslots : (putRow k 0 (row F t m q k) (List.replicate k ({} : Data))).take
      (found F t m q k).length = (found F t m q k).map t.recordOf := by
    have hrow := take_putRow_zero (List.replicate k ({} : Data)) (row_length F t m q k)
    rw [← Nat.min_eq_left (found_length_le F t m q k), ← List.take_take, hrow, row,
      List.take_left' (List.length_map _)]
  -- the eviction
  have hstore := hholds.store.congr t.centroids m
  have hevict : ({ t with nprobe := m } : Core nCells).evictCellWithVec F q m =
      .ok (({ t with nprobe := m } : Core nCells).evictedAll (probed F q m)) := by
    rw [evictCellWithVec_eq hstore hm (Nat.le_of_eq hq.symm), htake, if_pos hranked]
  have hcold' : (({ t with nprobe := m } : Core nCells).evictedAll (probed F q m)).Cold := by
    apply cold_evictedAll
    intro c hc
    exact (hother c hc).trans (hcold c)
  obtain ⟨hcells, hmap⟩ := evictedAll_registry (probed F q m) { t with nprobe := m }
  have hregistry := hholds.registry.congr hcells hmap
  have hsame : t.idsByCell = s.idsByCell := by
    funext c
    rw [hholds.registry.cells c, h.registry.cells c]
  refine ⟨t, { t with nprobe := m }, _, putRow k 0 (row F t m q k) (List.replicate k {}),
    (found F t m q k).map t.docOf, hreturns, ?_, hnear, ?_,
    slots_of_stored (fun _ _ => stored_of_answers h.store hcold hP hpartly) m k q, hevict,
    holds_of_cold (hstore.evictedAll _) hregistry hcold', hcold', hcells.trans hsame⟩
  · rw [hsearch, hlength]
  · rw [hlength, hslots]
    exact hholds.store.row_represents m q k

/-- **Rounds of LOAD, SEARCH and EVICT.**  Documents with distinct ids have been registered
and nothing is in residence; the database answers every request with the records of what is
registered.  Then round after round comes back, whatever the queries are, and every search
finds what an index over all documents would find with the same number of probes. -/
theorem rounds_correct (F : Faiss nCells δ) (ops : List (Op nCells)) (s : Core nCells)
    (hreach : Reaches F ops s) (hids : DistinctIds F ops) (hcold : s.Cold)
    (db : Database nCells)
    (hdb : ∀ c, ∃ x, db c (s.idsByCell c) = .filled x ∧
      Faithful F (registered F ops) (s.idsByCell c) (.filled x))
    (k m : Nat) (hk : k ≠ 0) (hm : m ≠ 0) (qs : List (List F32))
    (hqs : ∀ q ∈ qs, q.length = F.d ∧ m ≤ (F.ranked q).length) :
    ∃ s', Rounds F (registered F ops) db k m qs s s' ∧ s'.Cold := by
  have hholds : Holds F ops s :=
    holds_of_cold (storeInv_of_reaches hreach) (registryInv_of_reaches hreach) hcold
  clear hreach
  induction qs generalizing s with
  | nil => exact ⟨s, .done s, hcold⟩
  | cons q qs ih =>
      rw [List.forall_mem_cons] at hqs
      obtain ⟨s₁, s₂, s₃, data, answer, hload, hsearch, hnear, hrep, _, hevict, hholds', hcold',
        hcells⟩ := round_correct hids hholds hcold hdb
          (fun _ _ _ _ _ => trivial) hqs.1.1 hk hm hqs.1.2
      rw [← hcells] at hdb
      obtain ⟨s', hrest, hend⟩ := ih s₃ hcold' hdb hqs.2 hholds'
      exact ⟨s', .round hload hsearch hnear hrep hevict hrest, hend⟩

end Round

end Core

end Periplus.Ports
