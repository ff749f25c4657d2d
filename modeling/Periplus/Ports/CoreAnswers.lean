import Periplus.Ports.CoreResidency

/-!
# Answers over a run

What a client can tell about a search from the operations before it.  Whether a query
hits is a matter of the LOADs and EVICTs so far, and what a hit brings can only get
better: with more cells loaded, with more probes, and with a larger `k`.

## Main results

* `hits_iff_history` — a query hits exactly when the cells it needs have been loaded and
  not been evicted since.
* `answers_improve` — a later search is at no place worse, unless a cell of the first one
  has been evicted.
* `exact_iff` — when probing some of the cells gives the answer over all of them.
-/

namespace Periplus.Ports

open Periplus.Verified
open Periplus.Verified.Memory
open Periplus.Verified.Run
open Periplus.Verified.TopK
open Periplus.Verified.Shelves

namespace Core

variable {nCells : Nat} {δ : Type} [LinearOrder δ]

/-- The cells that a query needs for a hit have been loaded and not been evicted since. -/
def HitsSince (F : Faiss nCells δ) (ops : List (Op nCells)) (q : List F32) (nprobe : Nat) :
    (requireAll : Bool) → Prop
  | true => nprobe ≤ (F.ranked q).length ∧
      ∀ c ∈ probed F q nprobe, Since (Loads F c) (Evicts F c) ops
  | false => ∃ c, F.nearest q = some c ∧ Since (Loads F c) (Evicts F c) ops

/-- The records of two lists of slots, at every place of the second at most as far away as
in the first. -/
def NoWorse (F : Faiss nCells δ) (q : List F32) (slots slots' : List Data) : Prop :=
  List.Forall₂ (fun x x' => ∃ v v', x.readEmbedding F.d = .ok v ∧
    x'.readEmbedding F.d = .ok v' ∧ F.distance q v' ≤ F.distance q v) slots slots'

/-! ## Hits -/

/-- The first of the cells that are probed is the nearest one. -/
theorem probed_head? (F : Faiss nCells δ) (q : List F32) {m : Nat} (hm : m ≠ 0) :
    (probed F q m).head? = F.nearest q := by
  rw [probed, List.head?_take, if_neg hm]
  rfl

/-- The nearest cell is among those that are probed. -/
theorem nearest_probed {F : Faiss nCells δ} {q : List F32} {m : Nat} (hm : m ≠ 0)
    (hlen : m ≤ (F.ranked q).length) : ∃ c, F.nearest q = some c ∧ c ∈ probed F q m := by
  obtain ⟨c, cells, hcells⟩ := probed_eq_cons hm hlen
  apply Exists.intro c
  rw [← probed_head? F q hm, hcells]
  exact ⟨rfl, List.mem_cons_self⟩

/-- Every query of a batch hits as the abstract machine says. -/
theorem search_hits {F : Faiss nCells δ} {s s' : Core nCells} (hinv : StoreInv F s)
    {n k nprobe : Nat} {xq : List F32} {requireAll : Bool} {data data' : List Data}
    {hits : List Int} (h : s.search F n xq k nprobe requireAll data = .ok (s', data', hits))
    {i : Nat} (hi : i < n) :
    ∃ m, hits[i]? = some m ∧ (m = -1 ∨ 0 ≤ m) ∧
      (0 ≤ m ↔ Hits F s.abstractOf (F.query xq i) nprobe requireAll) := by
  obtain ⟨hprobe, labels, hlabels⟩ := labels_of_search h
  have hstate : StoreInv F { s with nprobe := nprobe } := hinv.congr s.centroids nprobe
  obtain ⟨m, hm, ⟨hmiss, hcount⟩ | ⟨hhit, q, _, _, _, hcount⟩⟩ :=
    search_batch_answer hinv hlabels h hi
  · rw [Faiss.quantizerSearch_row hlabels hi] at hmiss
    have hnot := cacheHit_hits hstate hprobe hmiss
    apply Exists.intro m
    refine ⟨hm, Or.inl hcount, ?_⟩
    show 0 ≤ m ↔ Hits F { s with nprobe := nprobe }.abstractOf _ _ _
    rw [← hnot, hcount]
    decide
  · rw [Faiss.quantizerSearch_row hlabels hi] at hhit
    have hyes := cacheHit_hits hstate hprobe hhit
    apply Exists.intro m
    refine ⟨hm, Or.inr (by omega), ?_⟩
    show 0 ≤ m ↔ Hits F { s with nprobe := nprobe }.abstractOf _ _ _
    rw [← hyes, hcount]
    exact ⟨fun _ => rfl, fun _ => by omega⟩

/-- The full cells are those that have been loaded and not been evicted since. -/
theorem hits_iff_since {F : Faiss nCells δ} {ops : List (Op nCells)} {s : Core nCells}
    (hreach : Reaches F ops s) (q : List F32) (nprobe : Nat) (requireAll : Bool) :
    Hits F s.abstractOf q nprobe requireAll ↔ HitsSince F ops q nprobe requireAll := by
  have hcell : ∀ c, (s.abstractOf.shelves c).isSome ↔ Since (Loads F c) (Evicts F c) ops :=
    fun c => snapshots_isSome.trans (resident_iff hreach c)
  unfold Hits HitsSince
  cases requireAll with
  | true => simp only [hcell]
  | false => simp only [hcell]

/-- A cell that is evicted and not named by a LOAD afterwards is not there. -/
theorem not_since_of_evicts {F : Faiss nCells δ} {c : Fin nCells} {pre later : List (Op nCells)}
    {op : Op nCells} (hevicts : Evicts F c op) (hnames : ∀ op' ∈ later, ¬ Names F c op') :
    ¬ Since (Loads F c) (Evicts F c) (pre ++ op :: later) := by
  induction later using List.reverseRecOn with
  | nil =>
      rw [since_concat]
      rintro (⟨hloads, _⟩ | ⟨_, hkept⟩)
      · cases op with
        | evict xq nevict => exact hloads
        | train => exact hevicts
        | add numDocs ids embeddings => exact hevicts
        | load xq nload db => exact hevicts
        | search n xq k nprobe requireAll data => exact hevicts
      · exact hkept hevicts
  | append_singleton later op' ih =>
      rw [List.forall_mem_append, List.forall_mem_singleton] at hnames
      rw [← List.cons_append, ← List.append_assoc, since_concat]
      rintro (⟨hloads, _⟩ | ⟨hsince, _⟩)
      · exact hnames.2 hloads
      · exact ih hnames.1 hsince

/-- **Hits are a matter of the history.**  In every state that is reached, a search that
comes back reports for each query of the batch a hit exactly when the cells it needs have
been loaded and not been evicted since: all probed ones with `require_all`, the nearest one
without.  So an EVICT is guaranteed too: behind it every query for its vector misses, until
a LOAD has named the nearest cell again. -/
theorem hits_iff_history (F : Faiss nCells δ) (ops : List (Op nCells)) (s : Core nCells)
    (hreach : Reaches F ops s) (n : Nat) (xq : List F32) (k nprobe : Nat) (requireAll : Bool)
    (data data' : List Data) (s' : Core nCells) (hits : List Int)
    (hsearch : s.search F n xq k nprobe requireAll data = .ok (s', data', hits))
    (i : Nat) (hi : i < n) :
    ∃ m, hits[i]? = some m ∧
      (0 ≤ m ↔ HitsSince F ops (F.query xq i) nprobe requireAll) ∧
      ∀ pre q nevict later, ops = pre ++ .evict q nevict :: later → 1 ≤ nevict →
        F.query xq i = q.take F.d →
        (∀ op ∈ later, ∀ c, F.nearest (q.take F.d) = some c → ¬ Names F c op) → m = -1 := by
  obtain ⟨m, hm, hsign, hhits⟩ := search_hits (storeInv_of_reaches hreach) hsearch hi
  rw [hits_iff_since hreach] at hhits
  refine ⟨m, hm, hhits, ?_⟩
  intro pre q nevict later hops hone hquery hnames
  by_contra hnot
  have hhit : HitsSince F ops (F.query xq i) nprobe requireAll := by
    apply hhits.mp
    omega
  -- both kinds of hit need the nearest cell
  have hnearest : ∃ c, F.nearest (q.take F.d) = some c ∧
      Since (Loads F c) (Evicts F c) ops := by
    rw [hquery] at hhit
    cases requireAll with
    | false => exact hhit
    | true =>
        obtain ⟨c, hc, hmem⟩ := nearest_probed (labels_of_search hsearch).1 hhit.1
        exact ⟨c, hc, hhit.2 c hmem⟩
  obtain ⟨c, hc, hsince⟩ := hnearest
  have hevicts : Evicts F c (.evict q nevict) := by
    have hnz : nevict ≠ 0 := by omega
    have hhead : (probed F (q.take F.d) nevict).head? = some c :=
      (probed_head? F (q.take F.d) hnz).trans hc
    exact List.mem_of_mem_head? hhead
  rw [hops] at hsince
  exact not_since_of_evicts hevicts (fun op hop => hnames op hop c hc) hsince

/-- A cell is loaded, and then evicted. -/
def evictedRun : List (Op 1) :=
  [.add 1 [[97, 0]] [5], .load [5] 1 (.ofRecords fun id => ⟨id, [5], [1], []⟩)] ++
    [.evict [5] 1]

/-- Both queries for the vector that was evicted miss. -/
theorem hits_iff_history_evictedRun :
    ∃ s, Reaches (Faiss.discrete 1 1) evictedRun s ∧
      ∃ s' data', s.search (Faiss.discrete 1 1) 2 [6, 5] 1 1 false [{}, {}] =
        .ok (s', data', [-1, -1]) ∧
      ¬ HitsSince (Faiss.discrete 1 1) evictedRun [5] 1 false := by
  obtain ⟨s, hreach, s', data', hsearch⟩ :
      ∃ s, Reaches (Faiss.discrete 1 1) evictedRun s ∧ ∃ s' data',
        s.search (Faiss.discrete 1 1) 2 [6, 5] 1 1 false [{}, {}] =
          .ok (s', data', [-1, -1]) := ⟨_, rfl, _, _, rfl⟩
  refine ⟨s, hreach, s', data', hsearch, fun hsince => ?_⟩
  obtain ⟨m, hm, hhits, _⟩ := hits_iff_history (Faiss.discrete 1 1) evictedRun s hreach 2 [6, 5]
    1 1 false [{}, {}] data' s' [-1, -1] hsearch 1 (by decide)
  have hmiss : m = -1 := (Option.some.inj hm).symm
  have hpos : 0 ≤ m := hhits.mpr hsince
  omega

/-! ## What a hit brings -/

/-- A single query that hits has the records found in its slots. -/
theorem search_one_hit {F : Faiss nCells δ} {s s' : Core nCells} (hinv : StoreInv F s)
    {xq : List F32} {k nprobe : Nat} {requireAll : Bool} {data data' : List Data} {m : Int}
    (h : s.search F 1 xq k nprobe requireAll data = .ok (s', data', [m])) (hpos : 0 ≤ m) :
    Hits F s.abstractOf (xq.take F.d) nprobe requireAll ∧
      m = ((found F s nprobe (xq.take F.d) k).length : Int) ∧
      data'.take m.toNat = (found F s nprobe (xq.take F.d) k).map s.recordOf := by
  obtain ⟨hprobe, hlen, _, m', hm, hquery⟩ := search_one_eq_ok.mp h
  have hsame : m = m' := List.head_eq_of_cons_eq hm
  subst hsame
  have hstate : StoreInv F { s with nprobe := nprobe } := hinv.congr s.centroids nprobe
  rcases (searchQuery_eq_ok hstate).mp hquery with ⟨_, _, hmiss⟩ | ⟨hhit, q, hq, _, _, hrow, hm'⟩
  · omega
  · rw [rowAt_assign] at hhit
    rw [window_zero hlen, Option.some.injEq] at hq
    subst hq
    apply And.intro ((cacheHit_hits hstate hprobe hhit).mp rfl)
    apply And.intro hm'
    have hfew := found_length_le F s nprobe (xq.take F.d) k
    have hrecords : ((found F s nprobe (xq.take F.d) k).map s.recordOf).length = m.toNat := by
      rw [List.length_map, hm', Int.toNat_natCast]
      rfl
    have hslots : data'.take k = row F s nprobe (xq.take F.d) k := by
      rw [hrow]
      exact take_putRow_zero _ (row_length F _ nprobe (xq.take F.d) k)
    have hshort : m.toNat ≤ k := by
      rw [hm', Int.toNat_natCast]
      exact hfew
    calc
      data'.take m.toNat = (data'.take k).take m.toNat := by
        rw [List.take_take, Nat.min_eq_left hshort]
      _ = (found F s nprobe (xq.take F.d) k).map s.recordOf := by
        rw [hslots, row, List.take_left' hrecords]

/-- What is on a shelf stays there until its cell is evicted. -/
theorem snapshots_of_run {F : Faiss nCells δ} {ops : List (Op nCells)} {s s₂ : Core nCells}
    (hreach : Reaches F ops s) {c : Fin nCells} {xs : List Kept} (hxs : s.snapshots c = some xs)
    {later : List (Op nCells)} (hrun : run (step F) s later = .ok s₂)
    (hkeep : ∀ op ∈ later, ¬ Evicts F c op) : s₂.snapshots c = some xs := by
  induction later using List.reverseRecOn generalizing s₂ with
  | nil =>
      rw [run_nil, Except.ok.injEq] at hrun
      rw [← hrun]
      exact hxs
  | append_singleton later op ih =>
      rw [List.forall_mem_append, List.forall_mem_singleton] at hkeep
      obtain ⟨t, ht, hstep⟩ := run_concat.mp hrun
      have hbefore : t.snapshots c = some xs := ih ht hkeep.1
      have hreach' : Reaches F (ops ++ later) t := (run_append hreach later).trans ht
      have hshelves : s₂.snapshots = (abstractStep F t.abstractOf op).shelves :=
        congrArg AbstractCache.shelves
          (abstractOf_step (storeInv_of_reaches hreach') (registryInv_of_reaches hreach') hstep)
      rw [hshelves]
      cases op with
      | train => exact hbefore
      | add numDocs ids embeddings => exact hbefore
      | search n xq k nprobe requireAll data => exact hbefore
      | load xq nload db => exact load_of_some hbefore
      | evict xq nevict => exact (if_neg hkeep.2).trans hbefore

/-- The vector of an entry that is found is that of its record. -/
theorem StoreInv.recordOf_readEmbedding {F : Faiss nCells δ} {s : Core nCells}
    (hinv : StoreInv F s) {nprobe k : Nat} {q : List F32} {e : Entry}
    (he : e ∈ found F s nprobe q k) : (s.recordOf e).readEmbedding F.d = .ok e.vec := by
  obtain ⟨_, _, _, x, hx, hv⟩ := hinv.found_stored he
  rw [recordOf, hx]
  exact hv

/-- The records of two lists of entries compare as the entries do. -/
theorem noWorse_of_found {F : Faiss nCells δ} {s s₂ : Core nCells} (hinv : StoreInv F s)
    (hinv₂ : StoreInv F s₂) {q : List F32} {k nprobe k' nprobe' : Nat}
    (hlen : (found F s nprobe q k).length ≤ (found F s₂ nprobe' q k').length)
    (hkeys : ∀ (j : Nat) (hj : j < (found F s nprobe q k).length)
      (hj' : j < (found F s₂ nprobe' q k').length),
      F.distance q (found F s₂ nprobe' q k')[j].vec ≤ F.distance q (found F s nprobe q k)[j].vec) :
    NoWorse F q ((found F s nprobe q k).map s.recordOf)
      (((found F s₂ nprobe' q k').map s₂.recordOf).take (found F s nprobe q k).length) := by
  have htaken : (((found F s₂ nprobe' q k').map s₂.recordOf).take
      (found F s nprobe q k).length).length = (found F s nprobe q k).length := by
    rw [List.length_take, List.length_map]
    omega
  apply List.forall₂_iff_get.mpr
  apply And.intro (by rw [htaken, List.length_map])
  intro j hj hj'
  rw [List.length_map] at hj
  have hj₂ : j < (found F s₂ nprobe' q k').length := by omega
  rw [List.get_eq_getElem, List.get_eq_getElem, List.getElem_take, List.getElem_map,
    List.getElem_map]
  exact ⟨_, _, hinv.recordOf_readEmbedding (List.getElem_mem hj),
    hinv₂.recordOf_readEmbedding (List.getElem_mem hj₂), hkeys j hj hj₂⟩

/-- Asking for no more is a hit too, when what was needed is still there. -/
theorem hits_of_hits {F : Faiss nCells δ} {a a' : AbstractCache nCells} {q : List F32}
    {nprobe nprobe' : Nat} {requireAll requireAll' : Bool} (hprobe : nprobe ≠ 0)
    (h : Hits F a q nprobe requireAll)
    (hless : requireAll' = false ∨ (requireAll = true ∧ nprobe' ≤ nprobe))
    (hkept : ∀ c ∈ probed F q nprobe, (a.shelves c).isSome → (a'.shelves c).isSome) :
    Hits F a' q nprobe' requireAll' := by
  have hall : requireAll = true → nprobe' ≤ nprobe → Hits F a' q nprobe' true := by
    intro hflag hle
    subst hflag
    apply And.intro (hle.trans h.1)
    intro c hc
    have hmem : c ∈ probed F q nprobe := List.take_subset_take_left (F.ranked q) hle hc
    exact hkept c hmem (h.2 c hmem)
  cases requireAll' with
  | true =>
      rcases hless with hless | ⟨hflag, hle⟩
      · exact absurd hless (by decide)
      · exact hall hflag hle
  | false =>
      have hfirst : ∀ c, F.nearest q = some c → c ∈ probed F q nprobe := fun c hc =>
        List.mem_of_mem_head? ((probed_head? F q hprobe).trans hc)
      cases requireAll with
      | false =>
          obtain ⟨c, hc, hfull⟩ := h
          exact ⟨c, hc, hkept c (hfirst c hc) hfull⟩
      | true =>
          obtain ⟨c, hc, hmem⟩ := nearest_probed hprobe h.1
          exact ⟨c, hc, hkept c hmem (h.2 c hmem)⟩

/-- **Answers improve.**  Two searches for one vector, the second behind any operations that
evict no cell probed by the first.  When the first hits and the second asks for no more,
the second hits too.  When both hit, the second with at least as many probes and at least
as large a `k`, it brings at least as many records, and at every place one that is at most
as far away. -/
theorem answers_improve (F : Faiss nCells δ) (ops later : List (Op nCells))
    (s s₂ : Core nCells) (hreach : Reaches F ops s) (hrun : run (step F) s later = .ok s₂)
    (q : List F32) (k nprobe k' nprobe' : Nat) (requireAll requireAll' : Bool)
    (data slots data₂ slots₂ : List Data) (s' s₂' : Core nCells) (m m₂ : Int)
    (hsearch : s.search F 1 q k nprobe requireAll data = .ok (s', slots, [m]))
    (hsearch₂ : s₂.search F 1 q k' nprobe' requireAll' data₂ = .ok (s₂', slots₂, [m₂]))
    (hhit : 0 ≤ m) (hkeep : ∀ op ∈ later, ∀ c ∈ probed F (q.take F.d) nprobe, ¬ Evicts F c op) :
    (requireAll' = false ∨ (requireAll = true ∧ nprobe' ≤ nprobe) → 0 ≤ m₂) ∧
      (nprobe ≤ nprobe' → k ≤ k' → 0 ≤ m₂ → m ≤ m₂ ∧
        NoWorse F (q.take F.d) (slots.take m.toNat) (slots₂.take m.toNat)) := by
  have hinv := storeInv_of_reaches hreach
  have hreach₂ : Reaches F (ops ++ later) s₂ := (run_append hreach later).trans hrun
  have hinv₂ := storeInv_of_reaches hreach₂
  obtain ⟨hhits, hm, hslots⟩ := search_one_hit hinv hsearch hhit
  have hprobe := (search_one_eq_ok.mp hsearch).1
  have hfull : ∀ c ∈ probed F (q.take F.d) nprobe, ∀ xs, s.snapshots c = some xs →
      s₂.snapshots c = some xs :=
    fun c hc xs hxs => snapshots_of_run hreach hxs hrun (fun op hop => hkeep op hop c hc)
  have hsome : ∀ c ∈ probed F (q.take F.d) nprobe, (s.snapshots c).isSome →
      (s₂.snapshots c).isSome := by
    intro c hc h
    obtain ⟨xs, hxs⟩ := Option.isSome_iff_exists.mp h
    rw [hfull c hc xs hxs]
    rfl
  apply And.intro
  · intro hless
    obtain ⟨m', hm', _, hsign⟩ := search_hits hinv₂ hsearch₂ Nat.zero_lt_one
    have heq : m₂ = m' := Option.some.inj hm'
    rw [heq, hsign, show F.query q 0 = q.take F.d from rowAt_zero F.d q]
    exact hits_of_hits hprobe hhits hless hsome
  · intro hnprobe hk hhit₂
    obtain ⟨_, hm₂, hslots₂⟩ := search_one_hit hinv₂ hsearch₂ hhit₂
    have hbest := (found_answers hinv (q.take F.d) k nprobe).best
    have hbest₂ := (found_answers hinv₂ (q.take F.d) k' nprobe').best
    have hmore : (contents (probed F (q.take F.d) nprobe) s.snapshots).Sublist
        (contents (probed F (q.take F.d) nprobe') s₂.snapshots) :=
      contents_sublist (List.take_sublist_take_left hnprobe) hfull
    obtain ⟨hlen, hkeys⟩ := hbest.keys_le hbest₂ hmore.subperm hk
    rw [List.length_map, List.length_map] at hlen
    apply And.intro (by omega)
    have hworse := noWorse_of_found hinv hinv₂ hlen (fun j hj hj' => by
      have hkey := hkeys j (by rwa [List.length_map]) (by rwa [List.length_map])
      rwa [List.getElem_map, List.getElem_map] at hkey)
    have hshort : slots₂.take m.toNat = (slots₂.take m₂.toNat).take m.toNat := by
      rw [List.take_take, Nat.min_eq_left (by omega)]
    rw [hshort, hslots₂, hslots, hm, Int.toNat_natCast]
    exact hworse

/-- Two records in one cell. -/
def twoRecords : List (Op 1) :=
  [.add 1 [[97, 0]] [5], .add 1 [[98, 0]] [6],
    .load [5] 1 (.ofRecords fun id => ⟨id, if id = [97] then [5] else [6], [], []⟩)]

/-- A later search for the vector, with a larger `k`. -/
theorem answers_improve_twoRecords :
    ∃ s s₂ : Core 1, ∃ slots slots₂, Reaches (Faiss.discrete 1 1) twoRecords s ∧
      (∃ s', s.search (Faiss.discrete 1 1) 1 [6] 1 1 true [{}] = .ok (s', slots, [1])) ∧
      (∃ s', s₂.search (Faiss.discrete 1 1) 1 [6] 2 1 false [{}, {}] =
        .ok (s', slots₂, [2])) ∧
      NoWorse (Faiss.discrete 1 1) [6] (slots.take 1) (slots₂.take 1) := by
  obtain ⟨s, hreach, s₂, hrun, s', slots, s₂', slots₂, hsearch, hsearch₂⟩ :
      ∃ s, Reaches (Faiss.discrete 1 1) twoRecords s ∧
        ∃ s₂, run (step (Faiss.discrete 1 1)) s [.add 1 [[99, 0]] [7]] = .ok s₂ ∧
        ∃ s' slots s₂' slots₂,
          s.search (Faiss.discrete 1 1) 1 [6] 1 1 true [{}] = .ok (s', slots, [1]) ∧
          s₂.search (Faiss.discrete 1 1) 1 [6] 2 1 false [{}, {}] = .ok (s₂', slots₂, [2]) :=
    ⟨_, rfl, _, rfl, _, _, _, _, rfl, rfl⟩
  refine ⟨s, s₂, slots, slots₂, hreach, ⟨s', hsearch⟩, ⟨s₂', hsearch₂⟩, ?_⟩
  have hkeep : ∀ op ∈ [Op.add 1 [[99, 0]] [7]], ∀ c ∈ probed (Faiss.discrete 1 1) [6] 1,
      ¬ Evicts (Faiss.discrete 1 1) c op := by
    intro op hop c _
    rw [List.mem_singleton] at hop
    rw [hop]
    exact id
  exact ((answers_improve (Faiss.discrete 1 1) twoRecords _ s s₂ hreach hrun [6] 1 1 2 1 true
    false [{}] slots [{}, {}] slots₂ s' s₂' 1 2 hsearch hsearch₂ (by decide) hkeep).2
    (by decide) (by decide) (by decide)).2

/-! ## All that is in residence -/

/-- The slots hold the best of all records in residence. -/
def Exact (F : Faiss nCells δ) (a : AbstractCache nCells) (q : List F32) (k : Nat)
    (slots : List Data) : Prop :=
  ∃ answer : List Kept,
    IsTopK (fun r => F.distance q r.vec) k (contents (List.finRange nCells) a.shelves) answer ∧
    List.Forall₂ (fun x r => x = r.record ∧ x.readEmbedding F.d = .ok r.vec) slots answer

/-- The cells that are probed, and then the others. -/
theorem probed_append_perm (F : Faiss nCells δ) (q : List F32) (nprobe : Nat) :
    (probed F q nprobe ++
      (List.finRange nCells).filter (fun c => decide (c ∉ probed F q nprobe))).Perm
      (List.finRange nCells) := by
  have hprobed : (probed F q nprobe).Perm
      ((List.finRange nCells).filter (fun c => decide (c ∈ probed F q nprobe))) := by
    apply (List.perm_ext_iff_of_nodup (probed_nodup F q nprobe)
      ((List.nodup_finRange nCells).filter _)).mpr
    intro c
    rw [List.mem_filter, decide_eq_true_eq]
    exact ⟨fun h => ⟨List.mem_finRange c, h⟩, fun h => h.2⟩
  have hnot : (fun c => decide (c ∉ probed F q nprobe)) =
      (fun c => !decide (c ∈ probed F q nprobe)) := by
    funext c
    exact decide_not
  rw [hnot]
  exact (hprobed.append_right _).trans (List.filter_append_perm _ _)

/-- **When some of the cells suffice.**  In every state that is reached, the answer of a
single query that hits is the answer over all that is in residence exactly when every
record in a cell that was not probed has at least `k` records in the probed cells that are
at most as far away.  It is when all the cells in residence are probed. -/
theorem exact_iff (F : Faiss nCells δ) (ops : List (Op nCells)) (s : Core nCells)
    (hreach : Reaches F ops s) (q : List F32) (k nprobe : Nat) (requireAll : Bool)
    (data slots : List Data) (s' : Core nCells) (m : Int)
    (hsearch : s.search F 1 q k nprobe requireAll data = .ok (s', slots, [m]))
    (hhit : 0 ≤ m) :
    Exact F (abstractRun F ops) (q.take F.d) k (slots.take m.toNat) ↔
      ∀ c, c ∉ probed F (q.take F.d) nprobe →
        ∀ r ∈ ((abstractRun F ops).shelves c).getD [],
          k ≤ (contents (probed F (q.take F.d) nprobe) (abstractRun F ops).shelves).countP
            (fun r' => F.distance (q.take F.d) r'.vec ≤ F.distance (q.take F.d) r.vec) := by
  have hinv := storeInv_of_reaches hreach
  rw [← abstractOf_of_reaches hreach]
  obtain ⟨_, _, hslots⟩ := search_one_hit hinv hsearch hhit
  rw [hslots]
  have hbest := (found_answers hinv (q.take F.d) k nprobe).best
  let others := (List.finRange nCells).filter
    (fun c => decide (c ∉ probed F (q.take F.d) nprobe))
  have hperm : (contents (probed F (q.take F.d) nprobe) s.abstractOf.shelves ++
      contents others s.abstractOf.shelves).Perm
      (contents (List.finRange nCells) s.abstractOf.shelves) := by
    unfold contents
    rw [← List.flatMap_append]
    exact (probed_append_perm F (q.take F.d) nprobe).flatMap_right _
  have hothers : ∀ r, r ∈ contents others s.abstractOf.shelves ↔
      ∃ c, c ∉ probed F (q.take F.d) nprobe ∧ r ∈ (s.abstractOf.shelves c).getD [] := by
    intro r
    unfold contents
    rw [List.mem_flatMap]
    apply exists_congr
    intro c
    rw [List.mem_filter, decide_eq_true_eq]
    exact ⟨fun h => ⟨h.1.2, h.2⟩, fun h => ⟨⟨List.mem_finRange c, h.1⟩, h.2⟩⟩
  have hpart : Exact F s.abstractOf (q.take F.d) k
      ((found F s nprobe (q.take F.d) k).map s.recordOf) ↔
      IsTopK (fun r => F.distance (q.take F.d) r.vec) k
        (contents (List.finRange nCells) s.abstractOf.shelves)
        ((found F s nprobe (q.take F.d) k).map s.keptEntry) := by
    have hkept : List.Forall₂ (fun x r => x = r.record ∧ x.readEmbedding F.d = .ok r.vec)
        ((found F s nprobe (q.take F.d) k).map s.recordOf)
        ((found F s nprobe (q.take F.d) k).map s.keptEntry) := by
      rw [List.forall₂_map_left_iff, List.forall₂_map_right_iff, List.forall₂_same]
      exact fun e he => ⟨rfl, hinv.recordOf_readEmbedding he⟩
    constructor
    · rintro ⟨answer, hanswer, hrecords⟩
      -- the slots determine the answer
      have hsame : answer = (found F s nprobe (q.take F.d) k).map s.keptEntry := by
        refine List.right_unique_forall₂' ?_ hrecords hkept
        rintro x ⟨v, r⟩ ⟨v', r'⟩ ⟨hr, hv⟩ ⟨hr', hv'⟩
        have hvec : v = v' := Except.ok.inj (hv.symm.trans hv')
        have hrec : r = r' := hr.symm.trans hr'
        rw [hvec, hrec]
      rw [hsame] at hanswer
      exact hanswer
    · exact fun h => ⟨_, h, hkept⟩
  rw [hpart]
  constructor
  · intro hall c hc r hr
    exact (isTopK_append_iff hbest).mp (hall.perm hperm.symm) r ((hothers r).mpr ⟨c, hc, hr⟩)
  · intro hcounts
    apply IsTopK.perm _ hperm
    apply (isTopK_append_iff hbest).mpr
    intro r hr
    obtain ⟨c, hc, hmem⟩ := (hothers r).mp hr
    exact hcounts c hc r hmem

/-- All the cells are probed. -/
theorem exact_iff_twoRecords :
    ∃ s slots, Reaches (Faiss.discrete 1 1) twoRecords s ∧
      (∃ s', s.search (Faiss.discrete 1 1) 1 [6] 1 1 true [{}] = .ok (s', slots, [1])) ∧
      Exact (Faiss.discrete 1 1) (abstractRun (Faiss.discrete 1 1) twoRecords) [6] 1
        (slots.take 1) := by
  obtain ⟨s, hreach, s', slots, hsearch⟩ :
      ∃ s, Reaches (Faiss.discrete 1 1) twoRecords s ∧ ∃ s' slots,
        s.search (Faiss.discrete 1 1) 1 [6] 1 1 true [{}] = .ok (s', slots, [1]) :=
    ⟨_, rfl, _, _, rfl⟩
  refine ⟨s, slots, hreach, ⟨s', hsearch⟩, ?_⟩
  apply (exact_iff (Faiss.discrete 1 1) twoRecords s hreach [6] 1 1 true [{}] slots s' 1 hsearch
    (by decide)).mpr
  intro c hc
  have hprobed : ∀ c : Fin 1, c ∈ probed (Faiss.discrete 1 1) [6] 1 := by decide
  exact absurd (hprobed c) hc

end Core

end Periplus.Ports
