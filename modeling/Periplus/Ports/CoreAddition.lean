import Periplus.Ports.CoreHistory
import Periplus.Verified.Numbering

/-!
# Batches of documents

`Core::add` writes three tables: the ids of the cells, the numbers of the ids, and the
counter.  `added` is the state behind a batch in closed form, so a batch that is split is
the same state by the way lists and numbers are appended.

No other operation than LOAD reads these tables.  `withRegistry` replaces them, and SEARCH
and EVICT go on as before.

## Main results

* `addDocs_eq_ok` — when a batch is added, and the state it leaves.
* `answers_withRegistry` — what SEARCH answers does not depend on the registry.
* `add_homomorphism` — a batch and its two parts.
-/

namespace Periplus.Ports

open Periplus.Verified.Buckets
open Periplus.Verified.Memory
open Periplus.Verified.Numbering
open Periplus.Verified.Run

/-- The rows of a buffer are the vectors that it was made of. -/
theorem rows_flatMap {α β : Type} {k : Nat} {items : List β} {row : β → List α}
    (h : ∀ b ∈ items, (row b).length = k) :
    (List.range items.length).map (fun i => rowAt k i (items.flatMap row)) =
      items.map row := by
  induction items with
  | nil => rfl
  | cons b items ih =>
      rw [List.forall_mem_cons] at h
      have hfirst : rowAt k 0 ((b :: items).flatMap row) = row b := by
        rw [rowAt, Nat.zero_mul, List.drop_zero, List.flatMap_cons, List.take_left' h.1]
      have hothers : ∀ i, rowAt k (i + 1) ((b :: items).flatMap row) =
          rowAt k i (items.flatMap row) := by
        intro i
        have hsplit : (i + 1) * k = (row b).length + i * k := by
          rw [h.1, Nat.add_mul, Nat.one_mul, Nat.add_comm]
        rw [rowAt, rowAt, List.flatMap_cons, hsplit, List.drop_append]
        rw [List.drop_of_length_le (Nat.le_add_right _ _), List.nil_append, Nat.add_sub_cancel_left]
      rw [List.length_cons, List.range_succ_eq_map, List.map_cons, List.map_map, hfirst,
        List.map_cons]
      congr 1
      rw [← ih h.2]
      exact List.map_congr_left (fun i _ => hothers i)

namespace Core

variable {nCells : Nat} {δ : Type} [LinearOrder δ]

/-! ## A batch -/

/-- What a document of an ADD is. -/
structure ValidDoc (F : Faiss nCells δ) (p : Doc) : Prop where
  short : p.1.length < 100
  noNul : 0 ∉ p.1
  dimension : p.2.length = F.d

/-- `Core::add`, with the ids as they are decoded and the embeddings one behind the
other. -/
def addDocs (F : Faiss nCells δ) (docs : List Doc) (s : Core nCells) :
    Except Fault (Core nCells) :=
  s.add F docs.length (docs.map (fun p => p.1 ++ [0])) (docs.flatMap Prod.snd)

/-- The state behind a batch. -/
def added (F : Faiss nCells δ) (docs : List Doc) (s : Core nCells) : Core nCells :=
  { s with
    idsByCell := fun c => s.idsByCell c ++ (bucket (fun p => F.nearest p.2) c docs).map Prod.fst
    idMap := numberAll s.idMap s.nextId (docs.map Prod.fst)
    nextId := s.nextId + docs.length }

/-- The labels of the nearest centroids are those of the documents. -/
theorem addDocs_eq {F : Faiss nCells δ} {docs : List Doc}
    (hvalid : ∀ p ∈ docs, ValidDoc F p) (s : Core nCells) :
    addDocs F docs s =
      addAll (docs.map (fun p => nearestLabel F p.2)) (docs.map (fun p => p.1 ++ [0])) s := by
  have hlength : (docs.flatMap Prod.snd).length = docs.length * F.d := by
    have hsizes : docs.map (fun p => p.2.length) = docs.map (fun _ => F.d) :=
      List.map_congr_left (fun p hp => (hvalid p hp).dimension)
    rw [List.length_flatMap, hsizes, List.map_const', List.sum_replicate, smul_eq_mul]
  have hrows : (List.range docs.length).map (F.query (docs.flatMap Prod.snd)) =
      docs.map Prod.snd := rows_flatMap (fun p hp => (hvalid p hp).dimension)
  have hlabels := quantizerSearch_nearest.mpr
    (⟨Nat.le_of_eq hlength.symm, rfl⟩ : docs.length * F.d ≤ (docs.flatMap Prod.snd).length ∧
      _ = ((List.range docs.length).map (F.query (docs.flatMap Prod.snd))).map (nearestLabel F))
  rw [addDocs, add, hlabels, ok_bind, hrows, List.map_map]
  rfl

theorem added_cons (F : Faiss nCells δ) {p : Doc} {c : Fin nCells}
    (hc : F.nearest p.2 = some c) (docs : List Doc) (s : Core nCells) :
    added F (p :: docs) s = added F docs (s.register c p.1) := by
  have hcells : ∀ c', (bucket (fun p => F.nearest p.2) c' (p :: docs)).map Prod.fst =
      (if c' = c then [p.1] else []) ++
        (bucket (fun p => F.nearest p.2) c' docs).map Prod.fst := by
    intro c'
    rw [← List.singleton_append, bucket_append, bucket_singleton, List.map_append, hc]
    by_cases heq : c' = c
    · rw [if_pos heq, heq, if_pos rfl]
      rfl
    · rw [if_neg heq, if_neg (fun h => heq (Option.some.inj h).symm)]
      rfl
  unfold added
  congr 1
  · show _ + (docs.length + 1) = s.nextId + 1 + docs.length
    omega
  · funext c'
    show _ = Function.update s.idsByCell c (s.idsByCell c ++ [p.1]) c' ++ _
    rw [hcells]
    by_cases heq : c' = c
    · rw [heq, Function.update_self, if_pos rfl, List.append_assoc]
    · rw [Function.update_of_ne heq, if_neg heq, List.nil_append]

theorem addOne_valid {F : Faiss nCells δ} {p : Doc} (hp : ValidDoc F p) {s s' : Core nCells}
    (hnext : s.nextId + 1 < 2 ^ 63) :
    addOne (nearestLabel F p.2) (p.1 ++ [0]) s = .ok s' ↔
      ∃ c, F.nearest p.2 = some c ∧ s' = s.register c p.1 := by
  have hshort := hp.short
  have htake : (p.1 ++ [0]).take 100 = p.1 ++ [0] := List.take_of_length_le (by
    rw [List.length_append, List.length_singleton]
    omega)
  have hterminated : isNullTerminated (p.1 ++ [0]) 100 = .ok true := by
    rw [isNullTerminated, htake, if_pos (by simp)]
  have hstring : cString 0 (p.1 ++ [0]) = some p.1 := cString_append hp.noNul []
  rw [addOne_eq_ok]
  constructor
  · rintro ⟨_, _, c, id, hlabel, hid, rfl⟩
    rw [hstring, Option.some.injEq] at hid
    rw [← hid]
    exact ⟨c, nearestLabel_eq.mp hlabel, rfl⟩
  · rintro ⟨c, hc, rfl⟩
    exact ⟨hterminated, hnext, c, p.1, nearestLabel_eq.mpr hc, hstring, rfl⟩

/-- **When a batch is added**, and the state it leaves. -/
theorem addDocs_eq_ok {F : Faiss nCells δ} {docs : List Doc}
    (hvalid : ∀ p ∈ docs, ValidDoc F p) {s s' : Core nCells}
    (hcount : s.nextId + docs.length < 2 ^ 63) :
    addDocs F docs s = .ok s' ↔
      (∀ p ∈ docs, F.nearest p.2 ≠ none) ∧ s' = added F docs s := by
  rw [addDocs_eq hvalid]
  induction docs generalizing s with
  | nil =>
      have hsame : added F [] s = s := by
        unfold added
        simp only [bucket_nil, List.map_nil, List.append_nil, numberAll, List.length_nil,
          Nat.add_zero]
      rw [List.map_nil, addAll, Except.ok.injEq, hsame, eq_comm]
      exact (and_iff_right (by simp)).symm
  | cons p docs ih =>
      rw [List.length_cons] at hcount
      rw [List.forall_mem_cons] at hvalid ⊢
      rw [List.map_cons, List.map_cons, addAll, bind_eq_ok]
      constructor
      · rintro ⟨t, hone, hrest⟩
        obtain ⟨c, hc, rfl⟩ := (addOne_valid hvalid.1 (by omega)).mp hone
        have hcount' : (s.register c p.1).nextId + docs.length < 2 ^ 63 := by
          show s.nextId + 1 + docs.length < 2 ^ 63
          omega
        obtain ⟨hnear, hstate⟩ := (ih hvalid.2 hcount').mp hrest
        rw [added_cons F hc]
        exact ⟨⟨by rw [hc]; simp, hnear⟩, hstate⟩
      · rintro ⟨⟨hfirst, hnear⟩, hstate⟩
        obtain ⟨c, hc⟩ := Option.ne_none_iff_exists'.mp hfirst
        have hcount' : (s.register c p.1).nextId + docs.length < 2 ^ 63 := by
          show s.nextId + 1 + docs.length < 2 ^ 63
          omega
        rw [added_cons F hc] at hstate
        exact ⟨s.register c p.1, (addOne_valid hvalid.1 (by omega)).mpr ⟨c, hc, rfl⟩,
          (ih hvalid.2 hcount').mpr ⟨hnear, hstate⟩⟩

/-- The loop over a batch that is split. -/
theorem addAll_append {labels labels' : List Int} {ids ids' : List Bytes}
    (h : labels.length = ids.length) (s : Core nCells) :
    addAll (labels ++ labels') (ids ++ ids') s =
      (addAll labels ids s >>= addAll labels' ids') := by
  induction labels generalizing ids s with
  | nil =>
      have hnone : ids = [] := List.length_eq_zero_iff.mp h.symm
      rw [hnone]
      rfl
  | cons label labels ih =>
      cases ids with
      | nil => exact absurd h (by simp)
      | cons id ids =>
          rw [List.length_cons, List.length_cons, Nat.succ_inj] at h
          rw [List.cons_append, List.cons_append, addAll, addAll]
          cases addOne label id s with
          | error f => rfl
          | ok t => exact ih h t

theorem addDocs_append {F : Faiss nCells δ} {xs ys : List Doc}
    (hvalid : ∀ p ∈ xs ++ ys, ValidDoc F p) (s : Core nCells) :
    addDocs F (xs ++ ys) s = (addDocs F xs s >>= addDocs F ys) := by
  have hxs : ∀ p ∈ xs, ValidDoc F p := fun p hp => hvalid p (List.mem_append_left ys hp)
  have hys : ∀ p ∈ ys, ValidDoc F p := fun p hp => hvalid p (List.mem_append_right xs hp)
  have hsecond : addDocs F ys = addAll (ys.map (fun p => nearestLabel F p.2))
      (ys.map (fun p => p.1 ++ [0])) := funext (fun t => addDocs_eq hys t)
  rw [addDocs_eq hvalid, addDocs_eq hxs, hsecond, List.map_append, List.map_append,
    addAll_append (by rw [List.length_map, List.length_map])]

/-! ## The counter -/

theorem addAll_nextId {labels : List Int} {ids : List Bytes} {s s' : Core nCells}
    (h : addAll labels ids s = .ok s') :
    labels.length ≤ ids.length ∧ s'.nextId = s.nextId + labels.length := by
  induction labels generalizing ids s with
  | nil =>
      rw [addAll, Except.ok.injEq] at h
      rw [← h]
      exact ⟨Nat.zero_le _, rfl⟩
  | cons label labels ih =>
      cases ids with
      | nil => exact absurd h (by simp [addAll])
      | cons id ids =>
          rw [addAll, bind_eq_ok] at h
          obtain ⟨t, ht, h⟩ := h
          obtain ⟨_, _, c, str, _, _, hstate⟩ := addOne_eq_ok.mp ht
          have hnext : t.nextId = s.nextId + 1 := by
            rw [hstate]
            rfl
          have hrest := ih h
          rw [List.length_cons, List.length_cons]
          omega

/-- The counter advances with every document. -/
theorem step_nextId {F : Faiss nCells δ} {s s' : Core nCells} {op : Op nCells}
    (h : step F s op = .ok s') :
    s'.nextId = s.nextId + (registeredBy F op).length := by
  cases op with
  | train =>
      rw [step, Except.ok.injEq] at h
      rw [← h]
      rfl
  | add numDocs ids embeddings =>
      rw [step, add, bind_eq_ok] at h
      obtain ⟨labels, hlabels, h⟩ := h
      obtain ⟨_, heq⟩ := quantizerSearch_nearest.mp hlabels
      have hadded := addAll_nextId h
      rw [heq, List.length_map, List.length_map, List.length_range] at hadded
      rw [registeredBy, List.length_zipWith, List.length_map, List.length_range,
        Nat.min_eq_left hadded.1]
      exact hadded.2
  | load xq nload db =>
      rw [step, bind_eq_ok] at h
      obtain ⟨exit, hexit, h⟩ := h
      rw [Except.ok.injEq] at h
      rw [← h]
      apply loadCellWithVec_rule (P := fun t => t.nextId = s.nextId) _ hexit rfl
      intro t t' c x ht _ _ hload
      rw [hload.registry.1]
      exact ht
  | evict xq nevict =>
      exact evictCellWithVec_rule (P := fun t => t.nextId = s.nextId) (fun _ _ ht _ => ht) h rfl
  | search n xq k nprobe requireAll data =>
      rw [step, bind_eq_ok] at h
      obtain ⟨⟨t, _, _⟩, ht, h⟩ := h
      rw [Except.ok.injEq] at h
      rw [← h, search_state ht]
      rfl

theorem nextId_of_reaches {F : Faiss nCells δ} {ops : List (Op nCells)} {s : Core nCells}
    (h : Reaches F ops s) : s.nextId = (registered F ops).length := by
  apply history_invariant (fun as (t : Core nCells) => t.nextId = (registered F as).length) rfl _ h
  intro as t op t' _ hcount hstep
  rw [step_nextId hstep, registered_concat, List.length_append, hcount]

/-! ## What does not read the registry -/

/-- `s` with the registry of `r`. -/
def withRegistry (r s : Core nCells) : Core nCells :=
  { s with nextId := r.nextId, idsByCell := r.idsByCell, idMap := r.idMap }

/-- The operations that do not read the registry. -/
def IgnoresRegistry : Op nCells → Prop
  | .train => True
  | .add _ _ _ => False
  | .load _ _ _ => False
  | .evict _ _ => True
  | .search _ _ _ _ _ _ => True

/-- The slots and `cacheHits` that an operation hands to its caller. -/
def answerOf (F : Faiss nCells δ) (s : Core nCells) :
    Op nCells → Except Fault (List (List Data × List Int))
  | .search n xq k nprobe requireAll data => do
      let (_, slots, hits) ← s.search F n xq k nprobe requireAll data
      .ok [(slots, hits)]
  | .train => .ok []
  | .add _ _ _ => .ok []
  | .load _ _ _ => .ok []
  | .evict _ _ => .ok []

/-- What the searches of a run answer, in order. -/
def answers (F : Faiss nCells δ) :
    List (Op nCells) → Core nCells → Except Fault (List (List Data × List Int))
  | [], _ => .ok []
  | op :: ops, s => do
      let here ← s.answerOf F op
      let s' ← step F s op
      let later ← answers F ops s'
      .ok (here ++ later)

theorem fillSlots_withRegistry (r s : Core nCells) (labels : List Int) (base : Nat)
    (data : List Data) (hits : Int) :
    (withRegistry r s).fillSlots labels base data hits = s.fillSlots labels base data hits := by
  induction labels generalizing base data hits with
  | nil => rfl
  | cons label labels ih =>
      have hdata : (withRegistry r s).dataMap = s.dataMap := rfl
      simp only [fillSlots, ih, hdata]

theorem searchQueries_withRegistry (F : Faiss nCells δ) (r s : Core nCells) (xq : List F32)
    (k nprobe : Nat) (requireAll : Bool) (labels : List Int) (is : List Nat)
    (data : List Data) :
    searchQueries F xq k nprobe requireAll labels (withRegistry r s) is data =
      searchQueries F xq k nprobe requireAll labels s is data := by
  have hquery : ∀ i data, searchQuery F xq k nprobe requireAll labels (withRegistry r s) i data =
      searchQuery F xq k nprobe requireAll labels s i data := by
    intro i data
    have hhit : ∀ row, (withRegistry r s).cacheHit requireAll row = s.cacheHit requireAll row :=
      cacheHit_congr (s := withRegistry r s) (t := s) rfl requireAll
    have hlists : (withRegistry r s).invlists = s.invlists := rfl
    simp only [searchQuery, hhit, hlists, fillSlots_withRegistry]
  induction is generalizing data with
  | nil => rfl
  | cons i is ih => simp only [searchQueries, hquery, ih]

/-- A search of the other registry, with the same answer. -/
theorem search_withRegistry (F : Faiss nCells δ) (r s : Core nCells) (n : Nat) (xq : List F32)
    (k nprobe : Nat) (requireAll : Bool) (data : List Data) :
    (withRegistry r s).search F n xq k nprobe requireAll data =
      (s.search F n xq k nprobe requireAll data).map
        (fun answer => (withRegistry r answer.1, answer.2)) := by
  have hprobe : { withRegistry r s with nprobe := nprobe } =
      withRegistry r { s with nprobe := nprobe } := rfl
  rw [search, search, hprobe]
  cases F.quantizerSearch n xq nprobe with
  | error f => rfl
  | ok labels =>
      simp only [ok_bind, searchQueries_withRegistry]
      cases searchQueries F xq k nprobe requireAll labels { s with nprobe := nprobe }
        (List.range n) data with
      | error f => rfl
      | ok answer => rfl

theorem evictCells_withRegistry (r s : Core nCells) (labels : List Int) :
    evictCells labels (withRegistry r s) = (evictCells labels s).map (withRegistry r) := by
  induction labels generalizing s with
  | nil => rfl
  | cons label labels ih =>
      have hstatus : (withRegistry r s).residenceStatuses = s.residenceStatuses := rfl
      rw [evictCells, evictCells]
      cases cellAt nCells label with
      | error f => rfl
      | ok c =>
          simp only [ok_bind, hstatus]
          by_cases hempty : s.residenceStatuses c < 0
          · rw [if_pos hempty, if_pos hempty, ih]
          · have hcell : evictCell c s = .ok (s.evicted c) :=
              evictCell_eq_ok.mpr ⟨by omega, rfl⟩
            have hcell' : evictCell c (withRegistry r s) = .ok (withRegistry r (s.evicted c)) :=
              evictCell_eq_ok.mpr ⟨by rw [hstatus]; omega, rfl⟩
            rw [if_neg hempty, if_neg hempty, hcell, hcell', ok_bind, ok_bind, ih]

theorem step_withRegistry (F : Faiss nCells δ) (r s : Core nCells) {op : Op nCells}
    (h : IgnoresRegistry op) :
    step F (withRegistry r s) op = (step F s op).map (withRegistry r) := by
  cases op with
  | train => rfl
  | add numDocs ids embeddings => exact h.elim
  | load xq nload db => exact h.elim
  | evict xq nevict =>
      rw [step, step, evictCellWithVec, evictCellWithVec]
      cases F.quantizerSearch 1 xq nevict with
      | error f => rfl
      | ok labels => exact evictCells_withRegistry r s labels
  | search n xq k nprobe requireAll data =>
      rw [step, step, search_withRegistry]
      cases s.search F n xq k nprobe requireAll data with
      | error f => rfl
      | ok answer => rfl

theorem answerOf_withRegistry (F : Faiss nCells δ) (r s : Core nCells) (op : Op nCells) :
    (withRegistry r s).answerOf F op = s.answerOf F op := by
  cases op with
  | search n xq k nprobe requireAll data =>
      rw [answerOf, answerOf, search_withRegistry]
      cases s.search F n xq k nprobe requireAll data with
      | error f => rfl
      | ok answer => rfl
  | train => rfl
  | add numDocs ids embeddings => rfl
  | load xq nload db => rfl
  | evict xq nevict => rfl

/-- **What searches answer** does not depend on the registry, as long as nothing is loaded. -/
theorem answers_withRegistry (F : Faiss nCells δ) (r : Core nCells) {ops : List (Op nCells)}
    (h : ∀ op ∈ ops, IgnoresRegistry op) (s : Core nCells) :
    answers F ops (withRegistry r s) = answers F ops s := by
  induction ops generalizing s with
  | nil => rfl
  | cons op ops ih =>
      rw [List.forall_mem_cons] at h
      rw [answers, answers, answerOf_withRegistry, step_withRegistry F r s h.1]
      cases s.answerOf F op with
      | error f => rfl
      | ok here =>
          cases step F s op with
          | error f => rfl
          | ok t =>
              show (do let later ← answers F ops (withRegistry r t); Except.ok (here ++ later)) = _
              rw [ih h.2]
              rfl

/-! ## A batch and its parts -/

/-- The documents have been added to `s`, and `s'` is what came of it. -/
structure AddedTo (F : Faiss nCells δ) (docs : List Doc) (s s' : Core nCells) : Prop where
  cells : ∀ c, s'.idsByCell c =
    s.idsByCell c ++ (docs.filter (fun p => F.nearest p.2 = some c)).map Prod.fst
  /-- An id that has a number keeps it. -/
  kept : ∀ id num, s.idMap id = some num → s'.idMap id = some num
  /-- Another one of the batch has the number of its first occurrence. -/
  entered : ∀ id ∈ docs.map Prod.fst, s.idMap id = none →
    s'.idMap id = some (s.nextId + (docs.map Prod.fst).idxOf id)
  unknown : ∀ id, id ∉ docs.map Prod.fst → s'.idMap id = s.idMap id
  distinct : ∀ a b num, s'.idMap a = some num → s'.idMap b = some num → a = b
  below : ∀ id num, s'.idMap id = some num → num < s'.nextId
  counted : s'.nextId = s.nextId + docs.length
  store : SameStore s s'
  /-- Until something is loaded, the searches answer as they would have without the batch. -/
  searches : ∀ ops, (∀ op ∈ ops, IgnoresRegistry op) → answers F ops s' = answers F ops s

theorem addedTo_added {F : Faiss nCells δ} {s : Core nCells} (hinv : StoreInv F s)
    (docs : List Doc) : AddedTo F docs s (added F docs s) := by
  have hmap : ∀ id, (added F docs s).idMap id = (s.idMap id).or
      (if id ∈ docs.map Prod.fst then some (s.nextId + (docs.map Prod.fst).idxOf id) else none) :=
    numberAll_eq s.idMap s.nextId (docs.map Prod.fst)
  have hnumbered : Numbered (added F docs s).idMap (s.nextId + (docs.map Prod.fst).length) :=
    Numbered.numberAll ⟨hinv.idInjective, hinv.idBelow⟩ (docs.map Prod.fst)
  rw [List.length_map] at hnumbered
  constructor
  · exact fun c => rfl
  · intro id num hid
    rw [hmap, hid, Option.some_or]
  · intro id hmem hid
    rw [hmap, hid, Option.none_or, if_pos hmem]
  · intro id hmem
    rw [hmap, if_neg hmem, Option.or_none]
  · exact hnumbered.injective
  · exact hnumbered.below
  · rfl
  · exact ⟨rfl, rfl, rfl⟩
  · intro ops hops
    have hother : added F docs s = withRegistry (added F docs s) s := rfl
    rw [hother, answers_withRegistry F (added F docs s) hops]

/-- **A batch is its parts.**  A batch that is split leads to the same state, and what a
batch does is to write the registry: the ids of each cell and the numbers of the ids. -/
theorem add_homomorphism (F : Faiss nCells δ) (ops : List (Op nCells)) (s : Core nCells)
    (hreach : Reaches F ops s) (xs ys : List Doc)
    (hvalid : ∀ p ∈ xs ++ ys, ValidDoc F p)
    (hcount : (registered F ops).length + (xs.length + ys.length) < 2 ^ 63) :
    addDocs F (xs ++ ys) s = (addDocs F xs s >>= addDocs F ys) ∧
      ((∃ s', addDocs F (xs ++ ys) s = .ok s') ↔ ∀ p ∈ xs ++ ys, F.nearest p.2 ≠ none) ∧
      ∀ s', addDocs F (xs ++ ys) s = .ok s' → AddedTo F (xs ++ ys) s s' := by
  have hroom : s.nextId + (xs ++ ys).length < 2 ^ 63 := by
    rw [nextId_of_reaches hreach, List.length_append]
    exact hcount
  refine ⟨addDocs_append hvalid s, ?_, ?_⟩
  · constructor
    · intro h
      obtain ⟨s', hs'⟩ := h
      exact ((addDocs_eq_ok hvalid hroom).mp hs').1
    · intro h
      exact ⟨_, (addDocs_eq_ok hvalid hroom).mpr ⟨h, rfl⟩⟩
  · intro s' hs'
    rw [((addDocs_eq_ok hvalid hroom).mp hs').2]
    exact addedTo_added (storeInv_of_reaches hreach) (xs ++ ys)

/-- Three documents, two of them under one id, in two batches behind an earlier one. -/
theorem add_homomorphism_repeated :
    ∃ s s' : Core 2, Reaches (Faiss.discrete 2 1) [.add 1 [[97, 0]] [5]] s ∧
      (addDocs (Faiss.discrete 2 1) [([97], [5]), ([98], [6])] s >>=
        addDocs (Faiss.discrete 2 1) [([98], [7])]) = .ok s' ∧
      s'.idsByCell 0 = [[97], [97], [98], [98]] ∧ s'.idMap [98] = some 2 := by
  obtain ⟨s, hreach, hcells, hnext, hnone⟩ :
      ∃ s : Core 2, Reaches (Faiss.discrete 2 1) [.add 1 [[97, 0]] [5]] s ∧
        s.idsByCell 0 = [[97]] ∧ s.nextId = 1 ∧ s.idMap [98] = none :=
    ⟨_, rfl, rfl, rfl, rfl⟩
  have hvalid : ∀ p ∈ ([([97], [5]), ([98], [6])] : List Doc) ++ [([98], [7])],
      ValidDoc (Faiss.discrete 2 1) p := by
    intro p hp
    have hcases : p = ([97], [5]) ∨ p = ([98], [6]) ∨ p = ([98], [7]) := by simpa using hp
    rcases hcases with rfl | rfl | rfl
    · exact ⟨by decide, by decide, rfl⟩
    · exact ⟨by decide, by decide, rfl⟩
    · exact ⟨by decide, by decide, rfl⟩
  obtain ⟨hsplit, hadds, hadded⟩ := add_homomorphism (Faiss.discrete 2 1) _ s hreach
    [([97], [5]), ([98], [6])] [([98], [7])] hvalid (by decide)
  have hnearest : ∀ v, (Faiss.discrete 2 1).nearest v = some 0 := fun _ => rfl
  obtain ⟨s', hs'⟩ := hadds.mpr (fun p _ => by rw [hnearest]; simp)
  have hresult := hadded s' hs'
  refine ⟨s, s', hreach, hsplit ▸ hs', ?_, ?_⟩
  · rw [hresult.cells, hcells]
    rfl
  · rw [hresult.entered [98] (by decide) hnone, hnext]
    rfl

end Core

end Periplus.Ports
