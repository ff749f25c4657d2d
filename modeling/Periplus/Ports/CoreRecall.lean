import Periplus.Ports.CoreRegistry
import Periplus.Ports.CoreSearch

/-!
# Recall on hits

The reference is an index over everything that was registered: the documents
whose nearest centroid is among the probed ones (`registeredNear`), ranked by
the index's own distance.

With distinct ids and a database that returns what was registered, the list of a
cell holds a first part of what is registered in the cell (`Snapshot`), since
LOAD fills it with everything known at that time and ADD only extends the
registry.  The rest (`unlisted`) is what a hit overlooks.

## Main results

* `snapshot_of_reaches` — the lists are first parts of the registry.
* `listed_append_unlisted` — what is listed and what is not make up the
  reference.
* `recall_iff` — a hit answers like the reference exactly when every overlooked
  document has `k` listed ones before it.
-/

namespace Periplus.Ports

open Periplus.Verified.Memory
open Periplus.Verified.Run
open Periplus.Verified.TopK
open Periplus.Verified.Buckets

namespace Core

variable {nCells : Nat} {δ : Type} [LinearOrder δ]

/-! ## The assumptions on a run -/

/-- No id is registered twice. -/
def DistinctIds (F : Faiss nCells δ) (ops : List (Op nCells)) : Prop :=
  ((registered F ops).map Prod.fst).Nodup

instance (F : Faiss nCells δ) (ops : List (Op nCells)) : Decidable (DistinctIds F ops) :=
  inferInstanceAs (Decidable (List.Nodup _))

/-- The answer holds one record for each requested id, in any order, with the
vector that was registered for the id.  A request may also fail. -/
def Faithful (F : Faiss nCells δ) (docs : List Doc) (ids : List Bytes) :
    DbAnswer ids.length → Prop
  | .filled x => ∃ ds : List Doc, (ds.map Prod.fst).Perm ids ∧ (∀ p ∈ ds, p ∈ docs) ∧
      List.Forall₂ (Represents F.d) x.toList ds
  | .httpException _ => True
  | .fault _ => False

/-- Every request of the run is answered faithfully. -/
def FaithfulProxy (F : Faiss nCells δ) (ops : List (Op nCells)) : Prop :=
  ∀ pre xq nload db post s, ops = pre ++ .load xq nload db :: post → Reaches F pre s →
    ∀ c, Faithful F (registered F pre) (s.idsByCell c) (db c (s.idsByCell c))

theorem DistinctIds.left {F : Faiss nCells δ} {ops : List (Op nCells)} {op : Op nCells}
    (h : DistinctIds F (ops ++ [op])) : DistinctIds F ops := by
  rw [DistinctIds, registered_concat, List.map_append] at h
  exact (List.nodup_append.mp h).1

theorem FaithfulProxy.left {F : Faiss nCells δ} {ops : List (Op nCells)} {op : Op nCells}
    (h : FaithfulProxy F (ops ++ [op])) : FaithfulProxy F ops := by
  intro pre xq nload db post s hops hs
  refine h pre xq nload db (post ++ [op]) s ?_ hs
  rw [hops, List.append_assoc, List.cons_append]

/-! ## The lists are first parts of the registry -/

/-- Each list holds a first part of what is registered in its cell. -/
def Snapshot (F : Faiss nCells δ) (ops : List (Op nCells)) (s : Core nCells) : Prop :=
  ∀ c, ((s.invlists c).map s.docOf).Perm
    ((registeredIn F ops c).take (s.invlists c).length)

theorem Snapshot.length_le {F : Faiss nCells δ} {ops : List (Op nCells)}
    {s : Core nCells} (h : Snapshot F ops s) (c : Fin nCells) :
    (s.invlists c).length ≤ (registeredIn F ops c).length := by
  have hlen := (h c).length_eq
  rw [List.length_map, List.length_take] at hlen
  omega

/-- Registering more documents keeps the first parts. -/
theorem Snapshot.extend {F : Faiss nCells δ} {ops ops' : List (Op nCells)}
    {s s' : Core nCells} (h : Snapshot F ops s) (hstore : SameStore s s')
    (hmore : ∀ c, ∃ more, registeredIn F ops' c = registeredIn F ops c ++ more) :
    Snapshot F ops' s' := by
  intro c
  obtain ⟨more, hmore⟩ := hmore c
  have hdoc : s'.docOf = s.docOf := by
    funext e
    exact docOf_congr (by rw [hstore.dataMap])
  rw [hstore.invlists, hdoc, hmore, List.take_append_of_le_length (h.length_le c)]
  exact h c

/-- A faithful answer is what is registered in the cell. -/
theorem Faithful.perm_registeredIn {F : Faiss nCells δ} {ops : List (Op nCells)}
    (hids : DistinctIds F ops) {c : Fin nCells} {ds : List Doc}
    (hkeys : (ds.map Prod.fst).Perm ((registeredIn F ops c).map Prod.fst))
    (hds : ∀ p ∈ ds, p ∈ registered F ops) : ds.Perm (registeredIn F ops c) := by
  refine perm_of_keys_perm hids hds (fun p hp => (mem_registeredIn.mp hp).1) ?_ hkeys
  exact hids.sublist (List.Sublist.map Prod.fst List.filter_sublist)

/-- What is stored of a faithful answer is what is registered in the cell. -/
theorem Faithful.accepted_perm {F : Faiss nCells δ} {ops : List (Op nCells)} {s : Core nCells}
    {c : Fin nCells} {x : Vector Data (s.idsByCell c).length}
    (hreg : RegistryInv F (registered F ops) s) (hids : DistinctIds F ops)
    (hfaithful : Faithful F (registered F ops) (s.idsByCell c) (.filled x)) :
    ((accepted F c s.idMap x.toList).map Stored.doc).Perm (registeredIn F ops c) := by
  obtain ⟨ds, hkeys, hds, hrep⟩ := hfaithful
  rw [hreg.cells c] at hkeys
  have hperm : ds.Perm (registeredIn F ops c) := Faithful.perm_registeredIn hids hkeys hds
  have husable : ∀ p ∈ ds, F.nearest p.2 = some c ∧ (s.idMap p.1).isSome := by
    intro p hp
    refine ⟨(mem_registeredIn.mp (hperm.subset hp)).2, (hreg.known p.1).mpr ?_⟩
    exact List.mem_map_of_mem (hds p hp)
  rw [accepted_of_represents hrep (fun p hp _ => (husable p hp).2),
    List.filter_eq_self.mpr (fun p hp => decide_eq_true (husable p hp).1)]
  exact hperm

/-- **Loading a cell fills its list with everything registered in it.** -/
theorem Snapshot.loaded {F : Faiss nCells δ} {ops : List (Op nCells)} {s s' : Core nCells}
    {c : Fin nCells} {x : Vector Data (s.idsByCell c).length} (h : Snapshot F ops s)
    (hinv : StoreInv F s) (hreg : RegistryInv F (registered F ops) s)
    (hids : DistinctIds F ops) (hempty : s.invlists c = [])
    (hfaithful : Faithful F (registered F ops) (s.idsByCell c) (.filled x))
    (hload : Loaded F c x.toList s s') : Snapshot F ops s' := by
  have hperm := hfaithful.accepted_perm hreg hids
  obtain ⟨hself, hother⟩ := hload.docs hinv
  rw [hempty, List.map_nil, List.nil_append] at hself
  intro c'
  by_cases hc : c' = c
  · subst hc
    have hlen : (s'.invlists c').length = (registeredIn F ops c').length := by
      rw [← hperm.length_eq, ← hself, List.length_map]
    rw [hself, hlen, List.take_length]
    exact hperm
  · rw [(hother c' hc).2, (hother c' hc).1]
    exact h c'

/-- Evicting a cell empties its list and touches no other. -/
theorem Snapshot.evicted {F : Faiss nCells δ} {ops : List (Op nCells)} {s : Core nCells}
    (h : Snapshot F ops s) (hinv : StoreInv F s) (c : Fin nCells) :
    Snapshot F ops (s.evicted c) := by
  intro c'
  by_cases hc : c' = c
  · subst hc
    rw [evicted_invlists, Function.update_self, List.map_nil, List.length_nil,
      List.take_zero]
  · rw [evicted_invlists, Function.update_of_ne hc]
    have hdoc : (s.invlists c').map (s.evicted c).docOf = (s.invlists c').map s.docOf := by
      refine List.map_congr_left ?_
      intro e he
      have hnum : e.num ∉ (s.invlists c).map Entry.num := fun hmem =>
        hc (hinv.cell_unique (List.mem_map_of_mem he) hmem)
      exact docOf_congr (by rw [evicted_dataMap, if_neg hnum])
    rw [hdoc]
    exact h c'

theorem Snapshot.step {F : Faiss nCells δ} {ops : List (Op nCells)} {s s' : Core nCells}
    {op : Op nCells} (h : Snapshot F ops s) (hreach : Reaches F ops s)
    (hids : DistinctIds F ops) (hproxy : FaithfulProxy F (ops ++ [op]))
    (hstep : Core.step F s op = .ok s') : Snapshot F (ops ++ [op]) s' := by
  have hinv := storeInv_of_reaches hreach
  have hreg := registryInv_of_reaches hreach
  cases op with
  | train =>
      simp only [Core.step, Except.ok.injEq] at hstep
      subst hstep
      exact h.extend ⟨rfl, rfl, rfl⟩ (fun c => ⟨_, registeredIn_concat F ops .train c⟩)
  | add numDocs ids embeddings =>
      exact h.extend (add_registers hstep hreg).2
        (fun c => ⟨_, registeredIn_concat F ops _ c⟩)
  | search n xq k nprobe requireAll data =>
      rw [Core.step] at hstep
      obtain ⟨⟨t, _, _⟩, ht, hstep⟩ := bind_eq_ok.mp hstep
      simp only [Except.ok.injEq] at hstep
      rw [← hstep, search_state ht]
      exact h.extend ⟨rfl, rfl, rfl⟩ (fun c => ⟨_, registeredIn_concat F ops _ c⟩)
  | load xq nload db =>
      rw [Core.step] at hstep
      obtain ⟨exit, hexit, hstep⟩ := bind_eq_ok.mp hstep
      rw [Except.ok.injEq] at hstep
      subst hstep
      have hanswers := hproxy ops xq nload db [] s rfl hreach
      -- the store is consistent and the registry is that of `s` all along the loop
      have hloop := loadCellWithVec_rule
        (P := fun t => StoreInv F t ∧ t.idsByCell = s.idsByCell ∧ t.idMap = s.idMap ∧
          Snapshot F ops t) ?_ hexit ⟨hinv, rfl, rfl, h⟩
      · intro c
        rw [registeredIn_concat_of_nil ops rfl]
        exact hloop.2.2.2 c
      · rintro t t' c x ⟨htinv, hcells, hmap, hsnap⟩ hstatus hdb hload
        have hempty : t.invlists c = [] := by
          refine htinv.emptyLists c ?_
          have := htinv.statuses c
          omega
        have hfaithful := hanswers c
        rw [← hcells, hdb] at hfaithful
        refine ⟨htinv.loaded hload, ?_, ?_, ?_⟩
        · rw [hload.registry.2.1, hcells]
        · rw [hload.registry.2.2, hmap]
        · exact hsnap.loaded htinv (hreg.congr hcells hmap) hids hempty hfaithful hload
  | evict xq nevict =>
      have hloop := evictCellWithVec_rule
        (P := fun t => StoreInv F t ∧ Snapshot F ops t)
        (fun t c ht _ => ⟨ht.1.evicted c, ht.2.evicted ht.1 c⟩) hstep ⟨hinv, h⟩
      intro c
      rw [registeredIn_concat_of_nil ops rfl]
      exact hloop.2 c

/-- **In every state that is reached, the lists are first parts of the
registry.** -/
theorem snapshot_of_reaches {F : Faiss nCells δ} {ops : List (Op nCells)}
    {s : Core nCells} (hreach : Reaches F ops s) (hids : DistinctIds F ops)
    (hproxy : FaithfulProxy F ops) : Snapshot F ops s := by
  refine history_invariant
    (fun as t => DistinctIds F as → FaithfulProxy F as → Snapshot F as t)
    ?_ ?_ hreach hids hproxy
  · intro _ _ c
    exact List.Perm.refl _
  · intro as t op t' ht h hstep hids hproxy
    exact (h hids.left hproxy.left).step ht hids.left hproxy hstep

/-! ## The reference index -/

/-- The cells probed for a query. -/
def probed (F : Faiss nCells δ) (q : List F32) (nprobe : Nat) : List (Fin nCells) :=
  (F.ranked q).take nprobe

theorem probed_nodup (F : Faiss nCells δ) (q : List F32) (nprobe : Nat) :
    (probed F q nprobe).Nodup :=
  (F.ranked_nodup q).sublist (List.take_sublist nprobe _)

/-- Everything registered whose nearest centroid is among the probed ones: what
a standard index searches. -/
def registeredNear (F : Faiss nCells δ) (ops : List (Op nCells)) (q : List F32)
    (nprobe : Nat) : List Doc :=
  buckets (fun p => F.nearest p.2) (probed F q nprobe) (registered F ops)

/-- The documents in the lists that are scanned. -/
def listed (F : Faiss nCells δ) (s : Core nCells) (q : List F32) (nprobe : Nat) :
    List Doc :=
  ((probed F q nprobe).flatMap s.invlists).map s.docOf

/-- The documents registered in a probed cell beyond what its list holds. -/
def unlisted (F : Faiss nCells δ) (ops : List (Op nCells)) (s : Core nCells)
    (q : List F32) (nprobe : Nat) : List Doc :=
  (probed F q nprobe).flatMap
    (fun c => (registeredIn F ops c).drop (s.invlists c).length)

theorem listed_append_unlisted {F : Faiss nCells δ} {ops : List (Op nCells)}
    {s : Core nCells} (h : Snapshot F ops s) (q : List F32) (nprobe : Nat) :
    (listed F s q nprobe ++ unlisted F ops s q nprobe).Perm
      (registeredNear F ops q nprobe) := by
  have hsplit : ∀ c, ((s.invlists c).map s.docOf ++
      (registeredIn F ops c).drop (s.invlists c).length).Perm (registeredIn F ops c) := by
    intro c
    have := (h c).append_right ((registeredIn F ops c).drop (s.invlists c).length)
    rwa [List.take_append_drop] at this
  rw [listed, List.map_flatMap, unlisted]
  refine (List.flatMap_append_perm _ _ _).trans ?_
  refine (List.Perm.flatMap_left _ (fun c _ => hsplit c)).trans ?_
  exact flatMap_bucket_perm _ (probed_nodup F q nprobe) _

/-! ## Hits -/

/-- All probed cells are in residence. -/
def AllResident (F : Faiss nCells δ) (s : Core nCells) (q : List F32) (nprobe : Nat) :
    Prop :=
  nprobe ≤ (F.ranked q).length ∧ ∀ c ∈ probed F q nprobe, s.residenceStatuses c ≠ -1

/-- With `require_all`, a hit means that all probed cells are in residence. -/
theorem StoreInv.cacheHit_iff {F : Faiss nCells δ} {s : Core nCells} (h : StoreInv F s)
    {q : List F32} {nprobe : Nat} (hprobe : nprobe ≠ 0) :
    s.cacheHit true (F.assign q nprobe) = .ok true ↔ AllResident F s q nprobe := by
  rw [cacheHit_all_eq_true]
  constructor
  · rintro ⟨c, cells, hrow, hfirst, hothers⟩
    obtain ⟨hlen, hcells⟩ := assign_eq_map.mp hrow
    refine ⟨hlen, ?_⟩
    intro c' hc'
    rw [probed, ← hcells] at hc'
    rcases List.mem_cons.mp hc' with rfl | hc'
    · omega
    · exact hothers c' hc'
  · rintro ⟨hlen, hall⟩
    cases hcells : probed F q nprobe with
    | nil =>
        exfalso
        have hnil : (probed F q nprobe).length = 0 := by rw [hcells, List.length_nil]
        rw [probed, List.length_take] at hnil
        omega
    | cons c cells =>
        rw [hcells] at hall
        refine ⟨c, cells, assign_eq_map.mpr ⟨hlen, hcells.symm⟩, ?_,
          fun c' hc' => hall c' (List.mem_cons_of_mem c hc')⟩
        have hfirst := hall c List.mem_cons_self
        have := h.statuses c
        omega

/-- What a hit puts into the slots. -/
theorem StoreInv.row_represents {F : Faiss nCells δ} {s : Core nCells}
    (h : StoreInv F s) (nprobe : Nat) (q : List F32) (k : Nat) :
    List.Forall₂ (Represents F.d) ((found F s nprobe q k).map s.recordOf)
      ((found F s nprobe q k).map s.docOf) := by
  rw [List.forall₂_map_left_iff, List.forall₂_map_right_iff, List.forall₂_same]
  intro e he
  obtain ⟨c, _, hlisted, _⟩ := h.found_stored he
  obtain ⟨x, hx, hrep, _⟩ := h.represents hlisted
  rw [recordOf, hx, Option.getD_some]
  exact hrep

/-- What is found, read back, is an answer over what is listed. -/
theorem found_docs_isTopK (F : Faiss nCells δ) (s : Core nCells) (nprobe : Nat)
    (q : List F32) (k : Nat) :
    IsTopK (fun p : Doc => F.distance q p.2) k (listed F s q nprobe)
      ((found F s nprobe q k).map s.docOf) :=
  (found_isTopK F s nprobe q k).map s.docOf (fun _ _ => rfl)

/-- The answer to a query with `require_all`, whenever it is reported as a hit:
the slots hold the `k` nearest of everything registered in the probed cells, and
the slots that are left over are empty. -/
def Recall (F : Faiss nCells δ) (ops : List (Op nCells)) (s : Core nCells)
    (q : List F32) (k nprobe : Nat) : Prop :=
  ∀ data s' data' hits, s.search F 1 q k nprobe true data = .ok (s', data', [hits]) →
    hits ≠ -1 →
    ∃ answer : List Doc,
      IsTopK (fun p => F.distance q p.2) k (registeredNear F ops q nprobe) answer ∧
      hits = answer.length ∧
      List.Forall₂ (Represents F.d) (data'.take answer.length) answer ∧
      (data'.take k).drop answer.length = List.replicate (k - answer.length) {}

/-- The first slots after a hit are its row. -/
theorem take_putRow_zero {k : Nat} {r : List Data} (data : List Data)
    (hr : r.length = k) :
    (putRow k 0 r data).take k = r := by
  rw [putRow, Nat.zero_mul, List.take_zero, List.nil_append, List.take_left' hr]

/-- A hit is answered from what is listed. -/
theorem search_hit {F : Faiss nCells δ} {s : Core nCells} (h : StoreInv F s)
    {q : List F32} (hq : q.length = F.d) {k nprobe : Nat} {data data' : List Data}
    {s' : Core nCells} {hits : Int}
    (hsearch : s.search F 1 q k nprobe true data = .ok (s', data', [hits]))
    (hhit : hits ≠ -1) :
    AllResident F s q nprobe ∧ data'.take k = row F s nprobe q k ∧
      hits = (found F s nprobe q k).length := by
  obtain ⟨hprobe, _, _, hits', heq, hquery⟩ := search_one_eq_ok.mp hsearch
  rw [List.cons.injEq] at heq
  obtain ⟨rfl, _⟩ := heq
  have hrow : rowAt nprobe 0 (F.assign (q.take F.d) nprobe) = F.assign q nprobe := by
    rw [rowAt, Nat.zero_mul, List.drop_zero, ← hq, List.take_length,
      List.take_of_length_le (Nat.le_of_eq (F.assign_length q nprobe))]
  rcases (searchQuery_eq_ok (h.congr s.centroids nprobe)).mp hquery with
    ⟨_, _, hmiss⟩ | ⟨hcache, q', hwin, _, _, rfl, hlen⟩
  · exact absurd hmiss hhit
  · rw [← hq, window_full, Option.some.injEq] at hwin
    subst hwin
    rw [hrow] at hcache
    refine ⟨((h.congr s.centroids nprobe).cacheHit_iff hprobe).mp hcache, ?_, hlen⟩
    exact take_putRow_zero _ (row_length F _ nprobe q k)

/-- A query whose probed cells are all in residence hits. -/
theorem search_of_allResident {F : Faiss nCells δ} {s : Core nCells} (h : StoreInv F s)
    {q : List F32} (hq : q.length = F.d) {k nprobe : Nat} (hk : k ≠ 0)
    (hprobe : nprobe ≠ 0) (hall : AllResident F s q nprobe) :
    s.search F 1 q k nprobe true (List.replicate k {}) =
      .ok ({ s with nprobe := nprobe }, putRow k 0 (row F s nprobe q k)
        (List.replicate k {}), [((found F s nprobe q k).length : Int)]) := by
  have hrow : rowAt nprobe 0 (F.assign (q.take F.d) nprobe) = F.assign q nprobe := by
    rw [rowAt, Nat.zero_mul, List.drop_zero, ← hq, List.take_length,
      List.take_of_length_le (Nat.le_of_eq (F.assign_length q nprobe))]
  have hstate := h.congr s.centroids nprobe
  refine search_one_eq_ok.mpr ⟨hprobe, Nat.le_of_eq hq.symm, rfl, _, rfl, ?_⟩
  refine (searchQuery_eq_ok hstate).mpr (Or.inr ⟨?_, q, ?_, hk, ?_, rfl, rfl⟩)
  · rw [hrow]
    exact (hstate.cacheHit_iff hprobe).mpr hall
  · rw [← hq, window_full]
  · rw [List.length_replicate, Nat.zero_mul, Nat.zero_add]

/-- **When a hit answers like the reference.**  In a run with distinct ids and a
faithful database, the answers reported as hits are those of an index over all
that was registered if and only if, whenever the probed cells are all in
residence, every document registered in one of them since it was loaded has `k`
listed documents before it. -/
theorem recall_iff (F : Faiss nCells δ) (ops : List (Op nCells)) (s : Core nCells)
    (hreach : Reaches F ops s) (hids : DistinctIds F ops) (hproxy : FaithfulProxy F ops)
    (q : List F32) (hq : q.length = F.d) (k nprobe : Nat) (hk : 1 ≤ k)
    (hprobe : 1 ≤ nprobe) :
    Recall F ops s q k nprobe ↔
      (AllResident F s q nprobe → ∀ p ∈ unlisted F ops s q nprobe,
        k ≤ (listed F s q nprobe).countP
          (fun l => F.distance q l.2 ≤ F.distance q p.2)) := by
  have hinv := storeInv_of_reaches hreach
  have hparts := listed_append_unlisted (snapshot_of_reaches hreach hids hproxy) q nprobe
  have htop := found_docs_isTopK F s nprobe q k
  have hlenfound : ((found F s nprobe q k).map s.docOf).length =
      (found F s nprobe q k).length := List.length_map _
  have hlenrecords : ((found F s nprobe q k).map s.recordOf).length =
      (found F s nprobe q k).length := List.length_map _
  constructor
  · intro hrecall hall
    have hsearch := search_of_allResident hinv hq (k := k) (by omega) (by omega) hall
    obtain ⟨answer, hanswer, hhits, hslots, _⟩ := hrecall _ _ _ _ hsearch (by omega)
    have hlen : answer.length = (found F s nprobe q k).length := by omega
    have hle : answer.length ≤ k := hlen ▸ found_length_le F s nprobe q k
    -- the slots determine the answer, which is therefore what was found
    have hfound : answer = (found F s nprobe q k).map s.docOf := by
      have hrow := take_putRow_zero (List.replicate k ({} : Data))
        (row_length F s nprobe q k)
      have hfirst : (putRow k 0 (row F s nprobe q k) (List.replicate k {})).take
          answer.length = (found F s nprobe q k).map s.recordOf := by
        rw [← Nat.min_eq_left hle, ← List.take_take, hrow, row, hlen,
          List.take_left' hlenrecords]
      rw [hfirst] at hslots
      exact List.right_unique_forall₂' (fun _ _ _ h h' => h.unique h') hslots
        (hinv.row_represents nprobe q k)
    rw [hfound] at hanswer
    exact (isTopK_append_iff htop).mp (hanswer.perm hparts.symm)
  · intro hcond data s' data' hits hsearch hhit
    obtain ⟨hall, hslots, hhits⟩ := search_hit hinv hq hsearch hhit
    refine ⟨(found F s nprobe q k).map s.docOf, ?_, ?_, ?_, ?_⟩
    · exact ((isTopK_append_iff htop).mpr (hcond hall)).perm hparts
    · rw [hlenfound]
      exact hhits
    · have hfirst : data'.take (found F s nprobe q k).length =
          (found F s nprobe q k).map s.recordOf := by
        rw [← Nat.min_eq_left (found_length_le F s nprobe q k), ← List.take_take, hslots,
          row, List.take_left' hlenrecords]
      rw [hlenfound, hfirst]
      exact hinv.row_represents nprobe q k
    · rw [hlenfound, hslots, row, List.drop_left' hlenrecords]

/-! ### A cell that was loaded before the second of its documents was added -/

/-- A database that returns the registered vector of every id is faithful. -/
theorem faithful_ofRecords {F : Faiss nCells δ} {docs : List Doc} {ids : List Bytes}
    {record : Bytes → Record} (c : Fin nCells)
    (h : ∀ id ∈ ids, (id, (record id).embedding) ∈ docs ∧ (record id).id = id ∧
      0 ∉ id ∧ (record id).embedding.length = F.d) :
    Faithful F docs ids (Database.ofRecords record c ids) := by
  obtain ⟨x, hx, hrep⟩ := ofRecords_represents (fun id hid => (h id hid).2) c
  rw [hx]
  refine ⟨_, ?_, ?_, hrep⟩
  · rw [List.map_map]
    exact List.Perm.of_eq (List.map_id _)
  · intro p hp
    obtain ⟨id, hid, rfl⟩ := List.mem_map.mp hp
    exact (h id hid).1

/-- `a` is added and loaded; then `b` is added to the same cell. -/
def staleRun : List (Op 1) :=
  [.add 1 [[97, 0]] [5],
    .load [5] 1 (.ofRecords fun id => ⟨id, [5], [], []⟩),
    .add 1 [[98, 0]] [6]]

private theorem staleRun_faithful : FaithfulProxy (Faiss.discrete 1 1) staleRun := by
  intro pre xq nload db post s hops hs c
  -- the only LOAD stands behind the first ADD
  obtain ⟨rfl, rfl⟩ : pre = [.add 1 [[97, 0]] [5]] ∧
      db = .ofRecords fun id => ⟨id, [5], [], []⟩ := by
    rcases pre with _ | ⟨a, _ | ⟨b, _ | ⟨c, pre⟩⟩⟩ <;> simp [staleRun] at hops
    exact ⟨by rw [hops.1], hops.2.1.2.2.symm⟩
  have hreg := registryInv_of_reaches hs
  refine faithful_ofRecords c ?_
  intro id hid
  rw [hreg.cells c] at hid
  obtain ⟨p, hp, rfl⟩ := List.mem_map.mp hid
  have hdoc : p ∈ [(([97] : Bytes), ([5] : List F32))] := (mem_bucket.mp hp).1
  rw [List.mem_singleton] at hdoc
  subst hdoc
  exact ⟨List.mem_singleton.mpr rfl, rfl, by decide, rfl⟩

/-- The query is the vector of `b`, and the answer is `a`. -/
theorem recall_staleRun_fails :
    ∃ s, Reaches (Faiss.discrete 1 1) staleRun s ∧
      DistinctIds (Faiss.discrete 1 1) staleRun ∧
      FaithfulProxy (Faiss.discrete 1 1) staleRun ∧
      ¬ Recall (Faiss.discrete 1 1) staleRun s [6] 1 1 := by
  obtain ⟨s, hs, s', data', hsearch, hslot⟩ : ∃ s, Reaches (Faiss.discrete 1 1) staleRun s ∧
      ∃ s' data', s.search (Faiss.discrete 1 1) 1 [6] 1 1 true [{}] =
        .ok (s', data', [1]) ∧ data' = [(⟨[97], [5], [], []⟩ : Record).toData] :=
    ⟨_, rfl, _, _, rfl, rfl⟩
  refine ⟨s, hs, by decide, staleRun_faithful, ?_⟩
  intro hrecall
  obtain ⟨answer, htop, hhits, hslots, _⟩ := hrecall _ _ _ _ hsearch (by decide)
  have hfirst : answer.head? = some ([98], [6]) := by
    refine htop.head?_of_unique_min (by decide) (by decide) ?_
    decide
  have hlen : answer.length = 1 := by omega
  obtain ⟨p, rfl⟩ := List.length_eq_one_iff.mp hlen
  rw [List.head?_cons, Option.some.injEq] at hfirst
  subst hfirst
  rw [hslot] at hslots
  have hid := (List.forall₂_cons.mp hslots).1.id
  exact absurd hid (by decide)

/-- For the vector of `a`, one result is right all the same: `a` is as near as
any. -/
theorem recall_iff_staleRun :
    ∃ s, Reaches (Faiss.discrete 1 1) staleRun s ∧
      Recall (Faiss.discrete 1 1) staleRun s [5] 1 1 := by
  obtain ⟨s, hs, hcount⟩ : ∃ s, Reaches (Faiss.discrete 1 1) staleRun s ∧
      ∀ p ∈ unlisted (Faiss.discrete 1 1) staleRun s [5] 1,
        1 ≤ (listed (Faiss.discrete 1 1) s [5] 1).countP (fun l =>
          (Faiss.discrete 1 1).distance [5] l.2 ≤ (Faiss.discrete 1 1).distance [5] p.2) := by
    refine ⟨_, rfl, ?_⟩
    decide
  refine ⟨s, hs, (recall_iff (Faiss.discrete 1 1) staleRun s hs (by decide)
    staleRun_faithful [5] rfl 1 1 (by decide) (by decide)).mpr ?_⟩
  intro _
  exact hcount

end Core

end Periplus.Ports
