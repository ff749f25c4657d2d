import Periplus.Ports.CoreRegistry
import Periplus.Ports.CoreSearch

/-!
# A batch of queries and the single queries it consists of

The loop of `Core::search` tests the residency of query `i` on the labels of the
`i`-th vector of the batch, but searches the index for the vector at `&xq[i]`:
the `d` floats that begin `i` floats (not `i` vectors) into the batch.

## Main results

* `searchQueries_spec` — the loop writes, query by query, its own row and
  nothing else.
* `single_iff` — when a query comes back on its own.
* `batch_agrees` — a batch is the map of its single searches when every query
  comes back on its own and each one that hits is what stands at `&xq[i]`.
* `batchIsMap_iff` — and only then, in the state in which it is searched:
  otherwise there are distances for which the answers differ.
-/

namespace Periplus.Ports

open Periplus.Verified.Memory
open Periplus.Verified.Run
open Periplus.Verified.TopK

namespace Core

variable {nCells : Nat} {δ : Type} [LinearOrder δ]

/-! ## The loop over the queries -/

/-- What query `i` of a batch comes to: `r` is its row and `hits` its count. -/
def Answer (F : Faiss nCells δ) (xq : List F32) (k nprobe : Nat) (requireAll : Bool)
    (labels : List Int) (s : Core nCells) (i : Nat) (r : List Data) (hits : Int) : Prop :=
  (s.cacheHit requireAll (rowAt nprobe i labels) = .ok false ∧ hits = -1) ∨
    (s.cacheHit requireAll (rowAt nprobe i labels) = .ok true ∧
      ∃ q, window xq i F.d = some q ∧ k ≠ 0 ∧ r = row F s nprobe q k ∧
        hits = ((found F s nprobe q k).length : Int))

section Loop

variable {F : Faiss nCells δ} {xq : List F32} {k nprobe : Nat} {requireAll : Bool}
  {labels : List Int} {s : Core nCells}

/-- One query leaves the other rows alone. -/
theorem searchQuery_frame (hinv : StoreInv F s) {i : Nat} {data data' : List Data}
    {hits : Int}
    (h : searchQuery F xq k nprobe requireAll labels s i data = .ok (data', hits)) :
    data'.length = data.length ∧ Answer F xq k nprobe requireAll labels s i
      (rowAt k i data') hits ∧ ∀ j, j ≠ i → rowAt k j data' = rowAt k j data := by
  rcases (searchQuery_eq_ok hinv).mp h with
    ⟨hmiss, rfl, rfl⟩ | ⟨hhit, q, hq, hk, hroom, rfl, rfl⟩
  · exact ⟨rfl, Or.inl ⟨hmiss, rfl⟩, fun _ _ => rfl⟩
  · have hrow := row_length F s nprobe q k
    refine ⟨putRow_length hrow hroom, Or.inr ⟨hhit, q, hq, hk, ?_, rfl⟩, ?_⟩
    · exact rowAt_putRow_self hrow hroom
    · exact fun j hj => rowAt_putRow_ne hrow hroom hj

/-- **The loop over the queries**: every query has its answer in its own row. -/
theorem searchQueries_spec (hinv : StoreInv F s) {is : List Nat} (hnodup : is.Nodup)
    {data data' : List Data} {hits : List Int}
    (h : searchQueries F xq k nprobe requireAll labels s is data = .ok (data', hits)) :
    data'.length = data.length ∧
      List.Forall₂ (fun i h => Answer F xq k nprobe requireAll labels s i
        (rowAt k i data') h) is hits ∧
      ∀ j, j ∉ is → rowAt k j data' = rowAt k j data := by
  induction is generalizing data hits with
  | nil =>
      simp only [searchQueries, Except.ok.injEq, Prod.mk.injEq] at h
      obtain ⟨rfl, rfl⟩ := h
      exact ⟨rfl, List.Forall₂.nil, fun _ _ => rfl⟩
  | cons i is ih =>
      rw [List.nodup_cons] at hnodup
      rw [searchQueries] at h
      obtain ⟨⟨mid, first⟩, hfirst, h⟩ := bind_eq_ok.mp h
      obtain ⟨⟨last, rest⟩, hrest, h⟩ := bind_eq_ok.mp h
      simp only [Except.ok.injEq, Prod.mk.injEq] at h
      obtain ⟨rfl, rfl⟩ := h
      obtain ⟨hlen, hanswer, hframe⟩ := searchQuery_frame hinv hfirst
      obtain ⟨hlen', hanswers, hframe'⟩ := ih hnodup.2 hrest
      refine ⟨hlen'.trans hlen, List.Forall₂.cons ?_ hanswers, ?_⟩
      · -- the later queries do not touch the row of this one
        rw [hframe' i hnodup.1]
        exact hanswer
      · intro j hj
        rw [List.mem_cons, not_or] at hj
        rw [hframe' j hj.2, hframe j hj.1]

/-- The loop comes back when every query has an answer and room for it. -/
theorem searchQueries_progress (hinv : StoreInv F s) {is : List Nat} {data : List Data}
    (hroom : ∀ i ∈ is, i * k + k ≤ data.length)
    (hanswer : ∀ i ∈ is, ∃ r h, Answer F xq k nprobe requireAll labels s i r h) :
    ∃ data' hits, searchQueries F xq k nprobe requireAll labels s is data =
      .ok (data', hits) := by
  induction is generalizing data with
  | nil => exact ⟨data, [], rfl⟩
  | cons i is ih =>
      obtain ⟨mid, first, hfirst⟩ : ∃ mid first,
          searchQuery F xq k nprobe requireAll labels s i data = .ok (mid, first) := by
        obtain ⟨r, h, hmiss | ⟨hhit, q, hq, hk, _, _⟩⟩ := hanswer i List.mem_cons_self
        · exact ⟨_, _, searchQuery_miss data hmiss.1⟩
        · exact ⟨_, _, searchQuery_hit hinv hhit hq hk (hroom i List.mem_cons_self)⟩
      have hlen := (searchQuery_frame hinv hfirst).1
      obtain ⟨data', rest, hrest⟩ := ih
        (fun j hj => by rw [hlen]; exact hroom j (List.mem_cons_of_mem i hj))
        (fun j hj => hanswer j (List.mem_cons_of_mem i hj))
      refine ⟨data', first :: rest, ?_⟩
      rw [searchQueries, hfirst]
      simp only [ok_bind, hrest]

end Loop

/-! ## A batch -/

/-- A single query on its own has the answer of its vector. -/
theorem search_single {F : Faiss nCells δ} {s s' : Core nCells} (hinv : StoreInv F s)
    {q : List F32} (hq : q.length = F.d) {k nprobe : Nat} {requireAll : Bool}
    {buf r : List Data} {h : Int} (hbuf : buf.length = k)
    (hsearch : s.search F 1 q k nprobe requireAll buf = .ok (s', r, [h])) :
    nprobe ≠ 0 ∧
      ((s.cacheHit requireAll (F.assign q nprobe) = .ok false ∧ h = -1) ∨
        (s.cacheHit requireAll (F.assign q nprobe) = .ok true ∧ k ≠ 0 ∧
          r = row F s nprobe q k ∧ h = ((found F s nprobe q k).length : Int))) := by
  obtain ⟨hprobe, _, _, h', heq, hquery⟩ := search_one_eq_ok.mp hsearch
  rw [List.cons.injEq] at heq
  obtain ⟨rfl, _⟩ := heq
  have hrow : rowAt nprobe 0 (F.assign (q.take F.d) nprobe) = F.assign q nprobe := by
    rw [rowAt, Nat.zero_mul, List.drop_zero, ← hq, List.take_length,
      List.take_of_length_le (Nat.le_of_eq (F.assign_length q nprobe))]
  refine ⟨hprobe, ?_⟩
  rcases (searchQuery_eq_ok (hinv.congr s.centroids nprobe)).mp hquery with
    ⟨hmiss, _, rfl⟩ | ⟨hhit, q', hwin, hk, _, rfl, rfl⟩
  · rw [hrow, cacheHit_probe] at hmiss
    exact Or.inl ⟨hmiss, rfl⟩
  · rw [hrow, cacheHit_probe] at hhit
    rw [← hq, window_full, Option.some.injEq] at hwin
    subst hwin
    refine Or.inr ⟨hhit, hk, ?_, rfl⟩
    have hlen := row_length F s nprobe q k
    have hnone : buf.drop (0 * k + k) = [] := by
      rw [Nat.zero_mul, Nat.zero_add, ← hbuf, List.drop_length]
    rw [putRow, hnone, Nat.zero_mul, List.take_zero, List.nil_append, List.append_nil]
    rfl

/-- Query `i` of a buffer comes back on its own, with these slots and this count. -/
def Single (F : Faiss nCells δ) (s : Core nCells) (xq : List F32) (k nprobe : Nat)
    (requireAll : Bool) (i : Nat) (slots : List Data) (h : Int) : Prop :=
  ∃ buf s', buf.length = k ∧
    s.search F 1 (F.query xq i) k nprobe requireAll buf = .ok (s', slots, [h])

/-- For every query that comes back on its own, the batch comes back with the
same count for it and, where it hits, with the same slots. -/
def BatchIsMap (F : Faiss nCells δ) (s : Core nCells) (n : Nat) (xq : List F32)
    (k nprobe : Nat) (requireAll : Bool) : Prop :=
  ∀ (data : List Data) (i : Nat) (slots : List Data) (h : Int), data.length = n * k → i < n →
    Single F s xq k nprobe requireAll i slots h →
    ∃ s' data' hits', s.search F n xq k nprobe requireAll data = .ok (s', data', hits') ∧
      hits'[i]? = some h ∧ (h ≠ -1 → rowAt k i data' = slots)

theorem query_length {F : Faiss nCells δ} {n i : Nat} {xq : List F32}
    (hxq : xq.length = n * F.d) (hi : i < n) : (F.query xq i).length = F.d := by
  have hle := row_le hi F.d
  rw [Faiss.query, rowAt, List.length_take, List.length_drop, hxq]
  omega

/-- The labels of a batch, when the quantizer is asked for some. -/
theorem quantizerSearch_batch {F : Faiss nCells δ} {n nprobe : Nat} {xq : List F32}
    (hxq : xq.length = n * F.d) (hprobe : nprobe ≠ 0) :
    ∃ labels, F.quantizerSearch n xq nprobe = .ok labels ∧
      ∀ i < n, rowAt nprobe i labels = F.assign (F.query xq i) nprobe := by
  have hok : ∃ labels, F.quantizerSearch n xq nprobe = .ok labels := by
    rw [Faiss.quantizerSearch_eq, if_neg hprobe, if_pos (Nat.le_of_eq hxq.symm)]
    exact ⟨_, rfl⟩
  obtain ⟨labels, hlabels⟩ := hok
  exact ⟨labels, hlabels, fun i hi => Faiss.quantizerSearch_row hlabels hi⟩

/-- What is at position `i` of the answers to a batch is the answer to query
`i`. -/
theorem search_batch_answer {F : Faiss nCells δ} {s s' : Core nCells}
    (hinv : StoreInv F s) {n k nprobe : Nat} {xq : List F32} {requireAll : Bool}
    {data data' : List Data} {hits : List Int} {labels : List Int}
    (hlabels : F.quantizerSearch n xq nprobe = .ok labels)
    (h : s.search F n xq k nprobe requireAll data = .ok (s', data', hits)) {i : Nat}
    (hi : i < n) :
    ∃ m, hits[i]? = some m ∧ Answer F xq k nprobe requireAll labels
      { s with nprobe := nprobe } i (rowAt k i data') m := by
  rw [search] at h
  simp only [hlabels, ok_bind] at h
  obtain ⟨⟨data₁, hits₁⟩, hloop, h⟩ := bind_eq_ok.mp h
  simp only [Except.ok.injEq, Prod.mk.injEq] at h
  obtain ⟨_, rfl, rfl⟩ := h
  obtain ⟨_, hanswers, _⟩ :=
    searchQueries_spec (hinv.congr s.centroids nprobe) List.nodup_range hloop
  obtain ⟨hlen, hget⟩ := List.forall₂_iff_get.mp hanswers
  rw [List.length_range] at hlen
  have hi' : i < hits₁.length := hlen ▸ hi
  have := hget i (by rwa [List.length_range]) hi'
  simp only [List.get_eq_getElem, List.getElem_range] at this
  exact ⟨hits₁[i], List.getElem?_eq_getElem hi', this⟩

/-! ## When a query comes back on its own -/

/-- The residency test of query `i`, which reads its own labels. -/
def residencyTest (F : Faiss nCells δ) (s : Core nCells) (xq : List F32) (nprobe : Nat)
    (requireAll : Bool) (i : Nat) : Except Fault Bool :=
  s.cacheHit requireAll (F.assign (F.query xq i) nprobe)

/-- The residency test of query `i` finds a cell for every label it looks at, and
neither call of FAISS is for nothing. -/
def Alone (F : Faiss nCells δ) (s : Core nCells) (xq : List F32) (k nprobe : Nat)
    (requireAll : Bool) (i : Nat) : Prop :=
  nprobe ≠ 0 ∧ ∃ hit, residencyTest F s xq nprobe requireAll i = .ok hit ∧
    (hit = true → k ≠ 0)

section Single

variable {F : Faiss nCells δ} {s : Core nCells} {n : Nat} {xq : List F32} {k nprobe : Nat}
  {requireAll : Bool} {i : Nat}

/-- **When a query comes back on its own**, and with what. -/
theorem single_iff (hinv : StoreInv F s) (hxq : xq.length = n * F.d) (hi : i < n) :
    (∃ slots h, Single F s xq k nprobe requireAll i slots h) ↔
      Alone F s xq k nprobe requireAll i := by
  have hq := query_length hxq hi
  constructor
  · rintro ⟨slots, h, buf, s', hbuf, hsearch⟩
    obtain ⟨hprobe, ⟨hmiss, _⟩ | ⟨hhit, hk, _⟩⟩ := search_single hinv hq hbuf hsearch
    · exact ⟨hprobe, false, hmiss, fun h => absurd h (by simp)⟩
    · exact ⟨hprobe, true, hhit, fun _ => hk⟩
  · rintro ⟨hprobe, hit, hhit, hk⟩
    have htake : (F.query xq i).take F.d = F.query xq i :=
      List.take_of_length_le (Nat.le_of_eq hq)
    have hstate := hinv.congr s.centroids nprobe
    have htest : Core.cacheHit { s with nprobe := nprobe } requireAll
        (rowAt nprobe 0 (F.assign ((F.query xq i).take F.d) nprobe)) = .ok hit := by
      rw [htake, rowAt_assign, cacheHit_probe]
      exact hhit
    cases hit with
    | false =>
        exact ⟨_, _, List.replicate k {}, _, List.length_replicate ..,
          search_one_eq_ok.mpr ⟨hprobe, Nat.le_of_eq hq.symm, rfl, _, rfl,
            searchQuery_miss _ htest⟩⟩
    | true =>
        have hwin : window (F.query xq i) 0 F.d = some (F.query xq i) := by
          rw [← hq, window_full]
        have hroom : 0 * k + k ≤ (List.replicate k ({} : Data)).length := by
          rw [List.length_replicate, Nat.zero_mul, Nat.zero_add]
        exact ⟨_, _, List.replicate k {}, _, List.length_replicate ..,
          search_one_eq_ok.mpr ⟨hprobe, Nat.le_of_eq hq.symm, rfl, _, rfl,
            searchQuery_hit hstate htest hwin (hk rfl) hroom⟩⟩

/-- What a batch that comes back has at position `i`. -/
theorem batch_answer (hinv : StoreInv F s) (hxq : xq.length = n * F.d) (hprobe : nprobe ≠ 0)
    {data data' : List Data} {hits : List Int} {s' : Core nCells}
    (h : s.search F n xq k nprobe requireAll data = .ok (s', data', hits)) (hi : i < n) :
    ∃ m, hits[i]? = some m ∧
      ((residencyTest F s xq nprobe requireAll i = .ok false ∧ m = -1) ∨
        (residencyTest F s xq nprobe requireAll i = .ok true ∧ k ≠ 0 ∧
          ∃ q, window xq i F.d = some q ∧ rowAt k i data' = row F s nprobe q k ∧
            m = ((found F s nprobe q k).length : Int))) := by
  obtain ⟨labels, hlabels, hrows⟩ := quantizerSearch_batch hxq hprobe
  obtain ⟨m, hm, hanswer⟩ := search_batch_answer hinv hlabels h hi
  have htest : Core.cacheHit { s with nprobe := nprobe } requireAll (rowAt nprobe i labels) =
      residencyTest F s xq nprobe requireAll i := by
    rw [hrows i hi, cacheHit_probe, residencyTest]
  rw [Answer, htest] at hanswer
  refine ⟨m, hm, ?_⟩
  rcases hanswer with hmiss | ⟨hhit, q, hq, hk, hrow, hcount⟩
  · exact Or.inl hmiss
  · exact Or.inr ⟨hhit, hk, q, hq, hrow, hcount⟩

/-- A batch comes back only if all its queries do. -/
theorem alone_of_batch (hinv : StoreInv F s) (hxq : xq.length = n * F.d) (hprobe : nprobe ≠ 0)
    {data data' : List Data} {hits : List Int} {s' : Core nCells}
    (h : s.search F n xq k nprobe requireAll data = .ok (s', data', hits)) (hi : i < n) :
    Alone F s xq k nprobe requireAll i := by
  obtain ⟨m, _, ⟨hmiss, _⟩ | ⟨hhit, hk, _⟩⟩ := batch_answer hinv hxq hprobe h hi
  · exact ⟨hprobe, false, hmiss, fun h => absurd h (by simp)⟩
  · exact ⟨hprobe, true, hhit, fun _ => hk⟩

end Single

/-! ## What is read at `&xq[i]` -/

/-- The entries of the lists that are probed for a vector. -/
def scanned (F : Faiss nCells δ) (s : Core nCells) (nprobe : Nat) (q : List F32) :
    List Entry :=
  ((F.ranked q).take nprobe).flatMap s.invlists

/-- The floats at `&xq[i]` are query `i`, or it makes no difference for which of the two
the index is searched: the same lists are scanned, and there is one entry in them at
most. -/
def ReadAlike (F : Faiss nCells δ) (s : Core nCells) (xq : List F32) (nprobe i : Nat) : Prop :=
  ∃ q, window xq i F.d = some q ∧ (q = F.query xq i ∨
    scanned F s nprobe q = scanned F s nprobe (F.query xq i) ∧ (scanned F s nprobe q).length ≤ 1)

/-- The condition for a batch: all its queries come back on their own and each one that
hits is read where it stands, or none of them comes back. -/
def ReadsQueries (F : Faiss nCells δ) (s : Core nCells) (n : Nat) (xq : List F32)
    (k nprobe : Nat) (requireAll : Bool) : Prop :=
  (∀ i < n, ¬ Alone F s xq k nprobe requireAll i) ∨
    ∀ i < n, Alone F s xq k nprobe requireAll i ∧
      (residencyTest F s xq nprobe requireAll i = .ok true → ReadAlike F s xq nprobe i)

/-- What is found in one entry at most does not depend on the query. -/
theorem found_of_readAlike {F : Faiss nCells δ} {s : Core nCells} {xq : List F32}
    {nprobe k i : Nat} (h : ReadAlike F s xq nprobe i) (hk : k ≠ 0) :
    ∃ q, window xq i F.d = some q ∧
      found F s nprobe q k = found F s nprobe (F.query xq i) k := by
  obtain ⟨q, hq, rfl | ⟨hsame, hone⟩⟩ := h
  · exact ⟨_, hq, rfl⟩
  · refine ⟨q, hq, ?_⟩
    have hfound : ∀ v, scanned F s nprobe v = scanned F s nprobe q →
        found F s nprobe v k = scanned F s nprobe q := by
      intro v hv
      rw [← hv] at hone ⊢
      exact (found_isTopK F s nprobe v k).eq_of_length_le_one hk hone
    rw [hfound q rfl, hfound _ hsame.symm]

/-- **A batch whose queries are where the loop reads them is the map of its
single searches.** -/
theorem batch_agrees {F : Faiss nCells δ} {s : Core nCells} (hinv : StoreInv F s)
    {n : Nat} {xq : List F32} (hxq : xq.length = n * F.d) {k nprobe : Nat}
    {requireAll : Bool} (hreads : ReadsQueries F s n xq k nprobe requireAll) :
    BatchIsMap F s n xq k nprobe requireAll := by
  intro data i slots h hdata hi hsingle
  have halone := (single_iff hinv hxq hi).mp ⟨slots, h, hsingle⟩
  obtain hnone | hall := hreads
  · exact absurd halone (hnone i hi)
  have hprobe := halone.1
  obtain ⟨labels, hlabels, hrows⟩ := quantizerSearch_batch hxq hprobe
  have hstate := hinv.congr s.centroids nprobe
  have htest : ∀ j < n, Core.cacheHit { s with nprobe := nprobe } requireAll
      (rowAt nprobe j labels) = residencyTest F s xq nprobe requireAll j := by
    intro j hj
    rw [hrows j hj, cacheHit_probe, residencyTest]
  have hroom : ∀ j ∈ List.range n, j * k + k ≤ data.length := by
    intro j hj
    rw [hdata]
    exact row_le (List.mem_range.mp hj) k
  have hanswer : ∀ j ∈ List.range n, ∃ r h, Answer F xq k nprobe requireAll labels
      { s with nprobe := nprobe } j r h := by
    intro j hj
    have hj' := List.mem_range.mp hj
    obtain ⟨⟨_, hit, hhit, hk⟩, hread⟩ := hall j hj'
    cases hit with
    | false => exact ⟨[], -1, Or.inl ⟨(htest j hj').trans hhit, rfl⟩⟩
    | true =>
        obtain ⟨q, hq, _⟩ := found_of_readAlike (hread hhit) (hk rfl)
        exact ⟨_, _, Or.inr ⟨(htest j hj').trans hhit, q, hq, hk rfl, rfl, rfl⟩⟩
  obtain ⟨data', hits', hloop⟩ := searchQueries_progress hstate hroom hanswer
  have hsearch : s.search F n xq k nprobe requireAll data =
      .ok ({ s with nprobe := nprobe }, data', hits') := by
    rw [search]
    simp only [hlabels, ok_bind]
    rw [hloop]
    rfl
  refine ⟨_, data', hits', hsearch, ?_⟩
  obtain ⟨buf, s', hbuf, hone⟩ := hsingle
  obtain ⟨m, hm, hbatch⟩ := batch_answer hinv hxq hprobe hsearch hi
  rcases (search_single hinv (query_length hxq hi) hbuf hone).2 with
    ⟨hmiss, rfl⟩ | ⟨hhit, hk, rfl, rfl⟩
  · rcases hbatch with ⟨_, rfl⟩ | ⟨hhit, _⟩
    · exact ⟨hm, fun hne => absurd rfl hne⟩
    · exact absurd (hhit.symm.trans hmiss) (by simp)
  · rcases hbatch with ⟨hmiss, _⟩ | ⟨_, _, q, hq, hrow, rfl⟩
    · exact absurd (hmiss.symm.trans hhit) (by simp)
    · obtain ⟨q', hq', hfound⟩ := found_of_readAlike ((hall i hi).2 hhit) hk
      rw [hq, Option.some.injEq] at hq'
      subst hq'
      rw [hm, hrow, row, row, hfound]
      exact ⟨rfl, fun _ => rfl⟩

/-- The residency test of a row of cells comes back. -/
theorem cacheHit_total (s : Core nCells) (requireAll : Bool) (c : Fin nCells)
    (cells : List (Fin nCells)) :
    ∃ hit, s.cacheHit requireAll ((c :: cells).map (fun c => (c.val : Int))) = .ok hit := by
  have hall : ∀ cells : List (Fin nCells), ∃ hit,
      s.allInResidence (cells.map (fun c => (c.val : Int))) = .ok hit := by
    intro cells
    induction cells with
    | nil => exact ⟨true, rfl⟩
    | cons c cells ih =>
        rw [List.map_cons, allInResidence, cellAt_val, ok_bind]
        split
        · exact ⟨false, rfl⟩
        · exact ih
  rw [List.map_cons, cacheHit, cellAt_val, ok_bind]
  split
  · split
    · exact hall cells
    · exact ⟨true, rfl⟩
  · exact ⟨false, rfl⟩

/-- A row of cells in residence hits, whether all are required or not. -/
theorem cacheHit_of_resident {s : Core nCells} (requireAll : Bool) {c : Fin nCells}
    {cells : List (Fin nCells)} (h : ∀ c' ∈ c :: cells, s.residenceStatuses c' > -1) :
    s.cacheHit requireAll ((c :: cells).map (fun c => (c.val : Int))) = .ok true := by
  have hfirst := h c List.mem_cons_self
  have hothers : ∀ c' ∈ cells, s.residenceStatuses c' ≠ -1 := by
    intro c' hc'
    have := h c' (List.mem_cons_of_mem c hc')
    omega
  cases requireAll with
  | true => exact cacheHit_all_eq_true.mpr ⟨c, cells, rfl, hfirst, hothers⟩
  | false =>
      rw [List.map_cons, cacheHit, cellAt_val, ok_bind, if_pos hfirst]
      rfl

/-! ## Other distances -/

/-- Another index over the same quantizer. -/
structure SameQuantizer (F F' : Faiss nCells δ) : Prop where
  d : F'.d = F.d
  ranked : F'.ranked = F.ranked
  centroids : F'.centroids = F.centroids

theorem SameQuantizer.refl (F : Faiss nCells δ) : SameQuantizer F F := ⟨rfl, rfl, rfl⟩

section SameQuantizer

variable {F F' : Faiss nCells δ} (h : SameQuantizer F F')
include h

theorem SameQuantizer.nearest (v : List F32) : F'.nearest v = F.nearest v := by
  rw [Faiss.nearest, Faiss.nearest, h.ranked]

theorem SameQuantizer.assign (v : List F32) (k : Nat) : F'.assign v k = F.assign v k := by
  rw [Faiss.assign, Faiss.assign, h.ranked]

theorem SameQuantizer.query (xq : List F32) (i : Nat) : F'.query xq i = F.query xq i := by
  rw [Faiss.query, Faiss.query, h.d]

theorem SameQuantizer.quantizerSearch (n : Nat) (xq : List F32) (k : Nat) :
    F'.quantizerSearch n xq k = F.quantizerSearch n xq k := by
  rw [Faiss.quantizerSearch_eq, Faiss.quantizerSearch_eq]
  simp only [h.d, h.query, h.assign]

theorem SameQuantizer.storeSlots (target : Fin nCells) (xs : List Data) (s : Core nCells) :
    Core.storeSlots F' target xs s = Core.storeSlots F target xs s := by
  have hslot : ∀ x (s : Core nCells), storeSlot F' target x s = storeSlot F target x s := by
    intro x s
    simp only [storeSlot, insertEntry, Faiss.addWithIds, h.d, h.nearest]
  induction xs generalizing s with
  | nil => rfl
  | cons x xs ih => simp only [Core.storeSlots, hslot, ih]

theorem SameQuantizer.loadCells (db : Database nCells) (labels : List Int) (s : Core nCells) :
    Core.loadCells F' db labels s = Core.loadCells F db labels s := by
  have hcell : ∀ c (s : Core nCells), loadCell F' db c s = loadCell F db c s := by
    intro c s
    simp only [loadCell, h.storeSlots]
  induction labels generalizing s with
  | nil => rfl
  | cons label labels ih => simp only [Core.loadCells, hcell, ih]

theorem StoreInv.of_sameQuantizer {s : Core nCells} (hinv : StoreInv F s) : StoreInv F' s where
  listNodup := hinv.listNodup
  listed := by
    intro c e he
    rw [h.d, h.nearest]
    exact hinv.listed c e he
  stored := hinv.stored
  emptyLists := hinv.emptyLists
  statuses := hinv.statuses
  registered := hinv.registered
  idInjective := hinv.idInjective
  idBelow := hinv.idBelow

/-- Queries come back whatever the distances are. -/
theorem SameQuantizer.searchQueries {s : Core nCells} (hinv : StoreInv F s) {xq : List F32}
    {k nprobe : Nat} {requireAll : Bool} {labels : List Int} {is : List Nat}
    {data₁ data data' : List Data} {hits : List Int} (hlen : data₁.length = data.length)
    (hloop : Core.searchQueries F xq k nprobe requireAll labels s is data = .ok (data', hits)) :
    ∃ data₁' hits₁, Core.searchQueries F' xq k nprobe requireAll labels s is data₁ =
      .ok (data₁', hits₁) := by
  have hinv' := hinv.of_sameQuantizer h
  induction is generalizing data₁ data data' hits with
  | nil => exact ⟨data₁, [], rfl⟩
  | cons i is ih =>
      rw [Core.searchQueries] at hloop
      obtain ⟨⟨mid, first⟩, hfirst, hloop⟩ := bind_eq_ok.mp hloop
      obtain ⟨⟨last, rest⟩, hrest, hloop⟩ := bind_eq_ok.mp hloop
      obtain ⟨mid₁, first₁, hfirst₁⟩ : ∃ mid₁ first₁,
          searchQuery F' xq k nprobe requireAll labels s i data₁ = .ok (mid₁, first₁) := by
        rcases (searchQuery_eq_ok hinv).mp hfirst with
          ⟨hmiss, _, _⟩ | ⟨hhit, q, hq, hk, hroom, _, _⟩
        · exact ⟨_, _, searchQuery_miss data₁ hmiss⟩
        · rw [← h.d] at hq
          exact ⟨_, _, searchQuery_hit hinv' hhit hq hk (hlen ▸ hroom)⟩
      have hmid : mid₁.length = mid.length := by
        rw [(searchQuery_frame hinv' hfirst₁).1, (searchQuery_frame hinv hfirst).1, hlen]
      obtain ⟨last₁, rest₁, hrest₁⟩ := ih hmid hrest
      refine ⟨last₁, first₁ :: rest₁, ?_⟩
      rw [Core.searchQueries, hfirst₁]
      simp only [ok_bind, hrest₁]

theorem SameQuantizer.step {s s' : Core nCells} (hinv : StoreInv F s) {op : Op nCells}
    (hstep : Core.step F s op = .ok s') : Core.step F' s op = .ok s' := by
  cases op with
  | train =>
      rw [← hstep]
      simp only [Core.step, Core.train, h.centroids]
  | add numDocs ids embeddings =>
      rw [← hstep]
      simp only [Core.step, Core.add, h.quantizerSearch]
  | load xq nload db =>
      rw [← hstep]
      simp only [Core.step, loadCellWithVec, h.quantizerSearch, h.loadCells]
  | evict xq nevict =>
      rw [← hstep]
      simp only [Core.step, evictCellWithVec, h.quantizerSearch]
  | search n xq k nprobe requireAll data =>
      rw [Core.step] at hstep ⊢
      obtain ⟨⟨s₁, data', hits⟩, hsearch, hs'⟩ := bind_eq_ok.mp hstep
      rw [Core.search] at hsearch
      obtain ⟨labels, hlabels, hsearch⟩ := bind_eq_ok.mp hsearch
      obtain ⟨⟨data₁, hits₁⟩, hloop, hsearch⟩ := bind_eq_ok.mp hsearch
      obtain ⟨data₂, hits₂, hloop₂⟩ :=
        h.searchQueries (hinv.congr s.centroids nprobe) rfl hloop
      rw [Core.search]
      simp only [h.quantizerSearch, hlabels, ok_bind, hloop₂]
      simp only [Except.ok.injEq, Prod.mk.injEq] at hsearch hs'
      rw [← hs', ← hsearch.1]

/-- **What is reached does not depend on the distances.** -/
theorem SameQuantizer.reaches {ops : List (Op nCells)} {s : Core nCells}
    (hs : Reaches F ops s) : Reaches F' ops s := by
  induction ops using List.reverseRecOn generalizing s with
  | nil =>
      rw [Reaches] at hs ⊢
      rw [← hs]
      simp only [Verified.Run.run, fresh, h.centroids]
  | append_singleton ops op ih =>
      obtain ⟨s₁, hs₁, hstep⟩ := run_concat.mp hs
      exact run_concat.mpr ⟨s₁, ih hs₁, h.step (storeInv_of_reaches hs₁) hstep⟩

end SameQuantizer

/-! ## When a batch is the map of its single searches -/

/-- The entries with `a` in front, if it is among them. -/
def front (a : Entry) (es : List Entry) : List Entry :=
  if a ∈ es then a :: es.erase a else es

theorem front_perm (a : Entry) (es : List Entry) : (front a es).Perm es := by
  unfold front
  split
  · next ha => exact (List.perm_cons_erase ha).symm
  · exact List.Perm.refl es

/-- All vectors are equally far from each other.  The search for `q` prefers the entry
`a`, and any other search the entry `b`. -/
def preferring (F : Faiss nCells δ) (q : List F32) (a b : Entry) : Faiss nCells δ :=
  { F with
    distance := fun _ _ => F.distance [] []
    best := fun v k es => (front (if v = q then a else b) es).take k
    best_spec := fun _ k es => isTopK_take_of_perm (fun _ _ => rfl) k (front_perm _ es) }

section Apart

variable {F : Faiss nCells δ} {s : Core nCells} {nprobe k : Nat}

/-- The preferred entry is in the first slot. -/
theorem row_preferring {q v : List F32} {a b e : Entry} (he : e = if v = q then a else b)
    (hmem : e ∈ scanned F s nprobe v) (hk : k ≠ 0) :
    (row (preferring F q a b) s nprobe v k).head? = some (s.recordOf e) := by
  obtain ⟨m, rfl⟩ := Nat.exists_eq_succ_of_ne_zero hk
  have hfound : found (preferring F q a b) s nprobe v (m + 1) =
      e :: ((scanned F s nprobe v).erase e).take m := by
    show (front (if v = q then a else b) (scanned F s nprobe v)).take (m + 1) = _
    rw [← he, front, if_pos hmem, List.take_succ_cons]
  rw [row, hfound]
  rfl

/-- The records of different entries are different. -/
theorem StoreInv.recordOf_inj (hinv : StoreInv F s) {q q' : List F32} {a b : Entry}
    (ha : a ∈ scanned F s nprobe q) (hb : b ∈ scanned F s nprobe q')
    (h : s.recordOf a = s.recordOf b) : a = b := by
  obtain ⟨c, _, ha⟩ := List.mem_flatMap.mp ha
  obtain ⟨c', _, hb⟩ := List.mem_flatMap.mp hb
  obtain ⟨x, hx, hvec, _⟩ := hinv.listed c a ha
  obtain ⟨y, hy, hvec', _⟩ := hinv.listed c' b hb
  rw [recordOf, recordOf, hx, hy, Option.getD_some, Option.getD_some] at h
  subst h
  obtain ⟨id, hid, hnum⟩ := hinv.registered a.num x hx
  obtain ⟨id', hid', hnum'⟩ := hinv.registered b.num x hy
  rw [hid, Except.ok.injEq] at hid'
  subst hid'
  rw [hnum, Option.some.injEq] at hnum'
  rw [hvec, Except.ok.injEq] at hvec'
  cases a
  cases b
  rw [Entry.mk.injEq]
  exact ⟨hnum', hvec'⟩

theorem StoreInv.scanned_nodup (hinv : StoreInv F s) (q : List F32) :
    (scanned F s nprobe q).Nodup :=
  (hinv.numbers_nodup ((F.ranked_nodup q).sublist (List.take_sublist nprobe _))).of_map

/-- Lists with as many results that have no two different entries are one and the same
entry, or empty. -/
theorem alike_of_no_two (hinv : StoreInv F s) {q q' : List F32} (hk : k ≠ 0)
    (hlen : min k (scanned F s nprobe q).length = min k (scanned F s nprobe q').length)
    (hall : ∀ a ∈ scanned F s nprobe q, ∀ b ∈ scanned F s nprobe q', a = b) :
    scanned F s nprobe q = scanned F s nprobe q' ∧ (scanned F s nprobe q).length ≤ 1 := by
  have hnodup : (scanned F s nprobe q).Nodup := hinv.scanned_nodup q
  have hnodup' : (scanned F s nprobe q').Nodup := hinv.scanned_nodup q'
  have hone : ∀ {es : List Entry} {b : Entry}, es.Nodup → es ≠ [] → (∀ a ∈ es, a = b) →
      es = [b] := by
    intro es b hes hne hb
    rw [List.eq_replicate_of_mem hb] at hes ⊢
    have hle := List.nodup_replicate.mp hes
    have hpos := List.length_pos_iff.mpr hne
    rw [show es.length = 1 by omega, List.replicate_one]
  cases hq : scanned F s nprobe q with
  | nil =>
      rw [hq, List.length_nil, Nat.min_zero] at hlen
      have hnil : (scanned F s nprobe q').length = 0 := by omega
      rw [List.length_eq_zero_iff.mp hnil]
      exact ⟨rfl, Nat.zero_le 1⟩
  | cons a es =>
      cases hq' : scanned F s nprobe q' with
      | nil =>
          rw [hq, hq', List.length_cons, List.length_nil, Nat.min_zero] at hlen
          omega
      | cons b es' =>
          rw [hq] at hnodup hall
          rw [hq'] at hnodup' hall
          have hfirst := hone hnodup (List.cons_ne_nil a es)
            (fun e he => hall e he b List.mem_cons_self)
          have hsecond := hone hnodup' (List.cons_ne_nil b es')
            (fun e he => (hall a List.mem_cons_self e he).symm)
          rw [hfirst, hsecond, hall a List.mem_cons_self b List.mem_cons_self]
          exact ⟨rfl, Nat.le_refl 1⟩

/-- **Two searches can be told apart** by some distances, unless they scan the same lists
with one entry in them at most. -/
theorem exists_apart (hinv : StoreInv F s) {q q' : List F32} (hne : q ≠ q') (hk : k ≠ 0)
    (h : ¬ (scanned F s nprobe q = scanned F s nprobe q' ∧
      (scanned F s nprobe q).length ≤ 1)) :
    ∃ F', SameQuantizer F F' ∧
      ¬ ((found F' s nprobe q k).length = (found F' s nprobe q' k).length ∧
        row F' s nprobe q k = row F' s nprobe q' k) := by
  by_cases hlen : (found F s nprobe q k).length = (found F s nprobe q' k).length
  swap
  · exact ⟨F, .refl F, fun hsame => hlen hsame.1⟩
  rw [(found_isTopK F s nprobe q k).length, (found_isTopK F s nprobe q' k).length] at hlen
  obtain ⟨a, ha, b, hb, hab⟩ : ∃ a ∈ scanned F s nprobe q, ∃ b ∈ scanned F s nprobe q',
      a ≠ b := by
    by_contra hnone
    apply h
    apply alike_of_no_two hinv hk hlen
    intro a ha b hb
    by_contra hab
    exact hnone ⟨a, ha, b, hb, hab⟩
  refine ⟨preferring F q a b, ⟨rfl, rfl, rfl⟩, fun hsame => hab ?_⟩
  have hfirst := row_preferring (b := b) (if_pos rfl).symm ha hk
  have hsecond := row_preferring (q := q) (a := a) (if_neg (Ne.symm hne)).symm hb hk
  rw [hsame.2, hsecond, Option.some.injEq] at hfirst
  exact hinv.recordOf_inj ha hb hfirst.symm

end Apart

/-- **When a batch is the map of its single searches**, in any state that is reached:
whatever the distances are, every query that comes back on its own has the same answer in
the batch, if and only if none comes back, or all of them do and each one that hits is what
the loop reads. -/
theorem batchIsMap_iff {F : Faiss nCells δ} {ops : List (Op nCells)} {s : Core nCells}
    (hs : Reaches F ops s) {n : Nat} {xq : List F32} (hxq : xq.length = n * F.d)
    (k nprobe : Nat) (requireAll : Bool) :
    (∀ F', SameQuantizer F F' → Reaches F' ops s → BatchIsMap F' s n xq k nprobe requireAll) ↔
      ReadsQueries F s n xq k nprobe requireAll := by
  have hinv := storeInv_of_reaches hs
  constructor
  · intro hmap
    by_cases hnone : ∀ i < n, ¬ Alone F s xq k nprobe requireAll i
    · exact Or.inl hnone
    refine Or.inr fun i hi => ?_
    -- some query comes back, so the batch does
    simp only [not_forall, not_not] at hnone
    obtain ⟨j, hj, halone⟩ := hnone
    have hprobe := halone.1
    obtain ⟨slots, h, hsingle⟩ := (single_iff hinv hxq hj).mpr halone
    obtain ⟨s', data', hits', hbatch, _⟩ := hmap F (.refl F) hs (List.replicate (n * k) {}) j
      slots h (List.length_replicate ..) hj hsingle
    have halone' := alone_of_batch hinv hxq hprobe hbatch hi
    refine ⟨halone', fun hhit => ?_⟩
    obtain ⟨m, _, ⟨hmiss, _⟩ | ⟨_, hk, q, hq, _⟩⟩ := batch_answer hinv hxq hprobe hbatch hi
    · exact absurd (hmiss.symm.trans hhit) (by simp)
    refine ⟨q, hq, ?_⟩
    by_contra hother
    rw [not_or] at hother
    -- distances for which the two searches differ
    obtain ⟨F', hF', hapart⟩ := exists_apart hinv hother.1 hk hother.2
    apply hapart
    have hinv' := hinv.of_sameQuantizer hF'
    have hxq' : xq.length = n * F'.d := by rw [hF'.d, hxq]
    have htest : residencyTest F' s xq nprobe requireAll i = .ok true := by
      rw [← hhit, residencyTest, residencyTest, hF'.query, hF'.assign]
    obtain ⟨slots', h', hsingle'⟩ := (single_iff hinv' hxq' hi).mpr
      ⟨hprobe, true, htest, fun _ => hk⟩
    obtain ⟨s₁, data₁, hits₁, hbatch₁, hcount, hslots⟩ := hmap F' hF' (hF'.reaches hs)
      (List.replicate (n * k) {}) i slots' h' (List.length_replicate ..) hi hsingle'
    obtain ⟨buf, s₂, hbuf, hone⟩ := hsingle'
    rcases (search_single hinv' (query_length hxq' hi) hbuf hone).2 with
      ⟨hmiss, _⟩ | ⟨_, _, rfl, rfl⟩
    · exact absurd (htest.symm.trans hmiss) (by simp)
    obtain ⟨m', hm', ⟨hmiss, _⟩ | ⟨_, _, q', hq', hrow, rfl⟩⟩ :=
      batch_answer hinv' hxq' hprobe hbatch₁ hi
    · exact absurd (htest.symm.trans hmiss) (by simp)
    rw [hF'.d, hq, Option.some.injEq] at hq'
    subst hq'
    rw [hm', Option.some.injEq] at hcount
    rw [hF'.query] at hcount hslots
    refine ⟨by omega, ?_⟩
    rw [← hrow]
    exact hslots (by omega)
  · intro hreads F' hF' hs'
    have hxq' : xq.length = n * F'.d := by rw [hF'.d, hxq]
    apply batch_agrees (storeInv_of_reaches hs') hxq'
    simpa only [ReadsQueries, Alone, residencyTest, ReadAlike, scanned, hF'.query, hF'.assign,
      hF'.d, hF'.ranked] using hreads

/-! ### Two queries of dimension two -/

/-- An index of two cells: `a` belongs to the first one, every other vector to the second
one. -/
def twoCells (d : Nat) (a : List F32) : Faiss 2 Nat :=
  Faiss.exact d (fun v => if v = a then (List.finRange 2).take 1 else (List.finRange 2).drop 1)
    (fun v => by split <;> decide) (fun _ _ => 0)

/-- One document is registered, under the vector `a`, and its cell is loaded. -/
def loadedFor (a : List F32) : List (Op 2) :=
  [.add 1 [[0]] a, .load a 1 (.ofRecords fun id => ⟨id, a, [], []⟩)]

/-- The first query hits and is read where it stands, and the second one misses. -/
theorem batchIsMap_firstHits :
    ∃ s, Reaches (twoCells 2 [1, 2]) (loadedFor [1, 2]) s ∧
      residencyTest (twoCells 2 [1, 2]) s [1, 2, 3, 4] 1 true 0 = .ok true ∧
      BatchIsMap (twoCells 2 [1, 2]) s 2 [1, 2, 3, 4] 1 1 true := by
  obtain ⟨s, hs, hhit, hmiss⟩ :
      ∃ s, Reaches (twoCells 2 [1, 2]) (loadedFor [1, 2]) s ∧
        residencyTest (twoCells 2 [1, 2]) s [1, 2, 3, 4] 1 true 0 = .ok true ∧
        residencyTest (twoCells 2 [1, 2]) s [1, 2, 3, 4] 1 true 1 = .ok false :=
    ⟨_, rfl, rfl, rfl⟩
  refine ⟨s, hs, hhit, (batchIsMap_iff hs rfl 1 1 true).mpr (Or.inr ?_) _ (.refl _) hs⟩
  intro i hi
  have hcases : i = 0 ∨ i = 1 := by omega
  rcases hcases with rfl | rfl
  · exact ⟨⟨by decide, true, hhit, fun _ => by decide⟩, fun _ => ⟨[1, 2], rfl, Or.inl rfl⟩⟩
  · refine ⟨⟨by decide, false, hmiss, fun h => absurd h (by decide)⟩, fun hhit' => ?_⟩
    exact absurd (hmiss.symm.trans hhit') (by decide)

/-- The vectors `[1, 2]` and `[3, 4]`: the loop searches for `[2, 3]` in place of the
second. -/
theorem batchIsMap_two_fails :
    ∃ s, Reaches (twoCells 2 [3, 4]) (loadedFor [3, 4]) s ∧
      ¬ BatchIsMap (twoCells 2 [3, 4]) s 2 [1, 2, 3, 4] 1 1 true := by
  obtain ⟨s, hs, ⟨s₁, slots, hone⟩, s₂, data', hboth⟩ :
      ∃ s, Reaches (twoCells 2 [3, 4]) (loadedFor [3, 4]) s ∧
        (∃ s' r, s.search (twoCells 2 [3, 4]) 1 [3, 4] 1 1 true [{}] = .ok (s', r, [1])) ∧
        ∃ s' data', s.search (twoCells 2 [3, 4]) 2 [1, 2, 3, 4] 1 1 true [{}, {}] =
          .ok (s', data', [-1, 0]) :=
    ⟨_, rfl, ⟨_, _, rfl⟩, _, _, rfl⟩
  refine ⟨s, hs, fun hmap => ?_⟩
  obtain ⟨_, _, hits', hbatch, hcount, _⟩ :=
    hmap [{}, {}] 1 slots 1 rfl (by decide) ⟨[{}], s₁, rfl, hone⟩
  rw [hboth] at hbatch
  simp only [Except.ok.injEq, Prod.mk.injEq] at hbatch
  rw [← hbatch.2.2] at hcount
  exact absurd hcount (by decide)

end Core

end Periplus.Ports
