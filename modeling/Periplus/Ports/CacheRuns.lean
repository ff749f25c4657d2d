import Periplus.Ports.Cache
import Periplus.Ports.CoreSteps

/-!
# Runs of the cache

`Cache.Reaches` is a sequence of commands that are carried out one after the other,
whatever the status is.  The status would forbid some of them, so that what is shown of
every such run holds of every run of the server.

When the status is READY there is a core, its index is trained, and its tables are those
of a run of core operations from a freshly trained core (`Reaches.ready`).  A command
that overtakes the training finds no centroid and leaves the tables as they were made.

## Main results

* `dispatch_cases` — the three kinds of commands: a new core, a trained index, or an
  operation on the tables.
* `Reaches.ready` — the core behind the status READY.
-/

namespace Periplus.Ports

open Periplus.Verified.Run

variable {δ : Type} [LinearOrder δ]

namespace Core

variable {nCells : Nat}

/-! ## An index without centroids -/

/-- The tables of a core whose index has no centroids yet, apart from the probe count. -/
def unused (F : Faiss nCells δ) (nprobe : Nat) : Core nCells :=
  { fresh F with centroids := [], nprobe := nprobe }

/-- Without centroids every label is padding. -/
theorem assign_of_unranked {F : Faiss nCells δ} (hF : ∀ v, F.ranked v = []) (v : List F32)
    {k : Nat} (hk : k ≠ 0) : ∃ labels, F.assign v k = -1 :: labels := by
  obtain ⟨m, rfl⟩ := Nat.exists_eq_succ_of_ne_zero hk
  rw [Faiss.assign_eq_append, hF, List.take_nil, List.map_nil, List.nil_append,
    List.length_nil, Nat.sub_zero, List.replicate_succ]
  exact ⟨_, rfl⟩

/-- Without centroids, an operation that comes back has looked at no cell. -/
theorem step_of_unranked {F : Faiss nCells δ} (hF : ∀ v, F.ranked v = [])
    {s s' : Core nCells} {op : Op nCells} (hop : op ≠ .train) (h : step F s op = .ok s') :
    s' = s ∨ ∃ nprobe, nprobe ≠ 0 ∧ s' = { s with nprobe := nprobe } := by
  cases op with
  | train => exact absurd rfl hop
  | add numDocs ids embeddings =>
      rw [step, add, Faiss.quantizerSearch_eq, if_neg one_ne_zero] at h
      split at h
      · rw [ok_bind] at h
        cases numDocs with
        | zero =>
            rw [List.range_zero, List.flatMap_nil, addAll, Except.ok.injEq] at h
            exact Or.inl h.symm
        | succ n =>
            obtain ⟨labels, hlabels⟩ := assign_of_unranked hF (F.query embeddings 0) one_ne_zero
            rw [List.range_succ_eq_map, List.flatMap_cons, hlabels, List.cons_append] at h
            cases ids with
            | nil => exact absurd h (by simp [addAll])
            | cons id ids =>
                rw [addAll] at h
                obtain ⟨t, ht, _⟩ := bind_eq_ok.mp h
                obtain ⟨_, _, c, _, hc, _⟩ := addOne_eq_ok.mp ht
                omega
      · exact absurd h (by simp)
  | load xq nload db =>
      rw [step, loadCellWithVec] at h
      obtain ⟨exit, hexit, _⟩ := bind_eq_ok.mp h
      obtain ⟨labels, hlabels, hloop⟩ := bind_eq_ok.mp hexit
      obtain ⟨hk, _, rfl⟩ := quantizerSearch_one.mp hlabels
      obtain ⟨rest, hrest⟩ := assign_of_unranked hF (xq.take F.d) hk
      rw [hrest, loadCells, cellAt_neg_one] at hloop
      exact absurd hloop (by simp)
  | evict xq nevict =>
      rw [step, evictCellWithVec] at h
      obtain ⟨labels, hlabels, hloop⟩ := bind_eq_ok.mp h
      obtain ⟨hk, _, rfl⟩ := quantizerSearch_one.mp hlabels
      obtain ⟨rest, hrest⟩ := assign_of_unranked hF (xq.take F.d) hk
      rw [hrest, evictCells, cellAt_neg_one] at hloop
      exact absurd hloop (by simp)
  | search n xq k nprobe requireAll data =>
      rw [step] at h
      obtain ⟨⟨t, data', hits⟩, ht, h⟩ := bind_eq_ok.mp h
      simp only [Except.ok.injEq] at h
      refine Or.inr ⟨nprobe, ?_, h ▸ search_state ht⟩
      rintro rfl
      rw [search, Faiss.quantizerSearch_eq, if_pos rfl] at ht
      exact absurd ht (by simp)

/-- Training leaves the tables of a run, apart from the probe count. -/
theorem reaches_trained (F : Faiss nCells δ) {nprobe : Nat} (h : nprobe ≠ 0) :
    Reaches F [.search 0 [] 1 nprobe false []] ((unused F nprobe).train F) := by
  unfold Reaches
  have hsearch : F.quantizerSearch 0 [] nprobe = .ok [] := by
    rw [Faiss.quantizerSearch_eq, if_neg h, if_pos (by simp)]
    rfl
  refine run_cons_ok ?_ []
  rw [step, search, hsearch]
  rfl

end Core

namespace Cache

/-! ## The kinds of commands -/

/-- What carrying out a command does to the cache: INITIALIZE makes a core, TRAIN trains
its index, and the others are operations on its tables. -/
inductive Dispatched (env : Environment δ) (args : Args) (c : Cache δ) : Cache δ → Prop
  | construct (a : InitializeArgs) (core : CoreObject δ) : args = .initializeArgs a →
      CoreObject.construct env.faiss a.d a.dbUrl (env.determineNCells a.nTotal) a.useFlat =
        .ok core →
      Dispatched env args c { c with core := some core, status := .INITIALIZED }
  | train (a : TrainArgs) (core core' : CoreObject δ) : args = .trainArgs a →
      c.core = some core → core.d ≠ 0 →
      core.train env.faiss (a.size / 4 / core.d) a.trainingData = .ok core' →
      core'.index.isTrained = true →
      Dispatched env args c { c with core := some core', status := .READY }
  | operate (core : CoreObject δ) (op : Op core.nCells) (tables : Core core.nCells) :
      args.getCommand ≠ .INITIALIZE → args.getCommand ≠ .TRAIN → c.core = some core →
      op ≠ .train →
      Core.step core.index.faiss core.tables op = .ok tables →
      Dispatched env args c { c with core := some { core with tables := tables } }

theorem dispatch_cases {env : Environment δ} {args : Args} {c c' : Cache δ}
    {writes : List Write} (h : c.dispatch env args = .ok (c', writes)) :
    Dispatched env args c c' := by
  cases args with
  | initializeArgs a =>
      obtain ⟨core, hcore, h⟩ := bind_eq_ok.mp h
      simp only [Except.ok.injEq, Prod.mk.injEq] at h
      exact h.1 ▸ .construct a core rfl hcore
  | trainArgs a =>
      obtain ⟨core, hcore, h⟩ := bind_eq_ok.mp h
      rw [bounded_eq_ok] at hcore
      split at h
      · exact absurd h (by simp)
      · next hd =>
          obtain ⟨core', hcore', h⟩ := bind_eq_ok.mp h
          split at h
          · next htrained =>
              simp only [Except.ok.injEq, Prod.mk.injEq] at h
              exact h.1 ▸ .train a core core' rfl hcore hd hcore' htrained
          · exact absurd h (by simp)
  | loadArgs a =>
      obtain ⟨core, hcore, h⟩ := bind_eq_ok.mp h
      rw [bounded_eq_ok] at hcore
      obtain ⟨exit, hexit, h⟩ := bind_eq_ok.mp h
      have hop : Core.step core.index.faiss core.tables
          (.load a.xq a.nload (core.database env c.time)) = .ok exit.state := by
        rw [Core.step, hexit]
        rfl
      cases exit with
      | returns tables =>
          simp only [Except.ok.injEq, Prod.mk.injEq] at h
          exact h.1 ▸ .operate core _ _ (by simp [Args.getCommand])
            (by simp [Args.getCommand]) hcore (by simp) hop
      | throwsHttp code tables =>
          simp only [Except.ok.injEq, Prod.mk.injEq] at h
          exact h.1 ▸ .operate core _ _ (by simp [Args.getCommand])
            (by simp [Args.getCommand]) hcore (by simp) hop
  | searchArgs a =>
      obtain ⟨core, hcore, h⟩ := bind_eq_ok.mp h
      rw [bounded_eq_ok] at hcore
      obtain ⟨⟨tables, results, cacheHits⟩, hsearch, h⟩ := bind_eq_ok.mp h
      obtain ⟨blocks, -, h⟩ := bind_eq_ok.mp h
      simp only [Except.ok.injEq, Prod.mk.injEq] at h
      have hop : Core.step core.index.faiss core.tables (.search a.n a.xq a.k a.nprobe
          a.requireAll (List.replicate (a.n * a.k) {})) = .ok tables := by
        rw [Core.step, hsearch]
        rfl
      exact h.1 ▸ .operate core _ _ (by simp [Args.getCommand]) (by simp [Args.getCommand])
        hcore (by simp) hop
  | evictArgs a =>
      obtain ⟨core, hcore, h⟩ := bind_eq_ok.mp h
      rw [bounded_eq_ok] at hcore
      obtain ⟨tables, hevict, h⟩ := bind_eq_ok.mp h
      simp only [Except.ok.injEq, Prod.mk.injEq] at h
      exact h.1 ▸ .operate core (.evict a.xq a.nevict) tables (by simp [Args.getCommand])
        (by simp [Args.getCommand]) hcore (by simp) hevict
  | addArgs a =>
      obtain ⟨core, hcore, h⟩ := bind_eq_ok.mp h
      rw [bounded_eq_ok] at hcore
      obtain ⟨tables, hadd, h⟩ := bind_eq_ok.mp h
      simp only [Except.ok.injEq, Prod.mk.injEq] at h
      exact h.1 ▸ .operate core (.add a.numDocs a.ids a.embeddings) tables
        (by simp [Args.getCommand]) (by simp [Args.getCommand]) hcore (by simp) hadd

/-! ## Runs -/

/-- The cache after a command. -/
def step (env : Environment δ) (c : Cache δ) (args : Args) : Except Fault (Cache δ) := do
  let (c', _) ← c.processArgs env args
  .ok c'

/-- The commands lead from a new cache to `c`. -/
def Reaches (env : Environment δ) (cmds : List Args) (c : Cache δ) : Prop :=
  run (step env) new cmds = .ok c

theorem step_cases {env : Environment δ} {args : Args} {c c' : Cache δ}
    (h : step env c args = .ok c') :
    ∃ c'', Dispatched env args c c'' ∧ c' = { c'' with time := c.time + 1 } := by
  obtain ⟨⟨_, ws⟩, hrun, h⟩ := bind_eq_ok.mp h
  obtain ⟨⟨c'', ws'⟩, hdispatch, hrun⟩ := bind_eq_ok.mp hrun
  simp only [Except.ok.injEq, Prod.mk.injEq] at h hrun
  refine ⟨c'', dispatch_cases hdispatch, ?_⟩
  rw [← h, ← hrun.1]

/-- A core whose index has been trained, and its tables. -/
structure Trained (core : CoreObject δ) : Prop where
  isTrained : core.index.isTrained = true
  d_pos : 1 ≤ core.d
  d_eq : core.index.faiss.d = core.d
  tables : ∃ ops, Core.Reaches core.index.faiss ops core.tables

/-- A core as it is made, but for the probe count. -/
structure Untrained (core : CoreObject δ) : Prop where
  d_eq : core.index.faiss.d = core.d
  unranked : ∀ v, core.index.faiss.ranked v = []
  tables : ∃ nprobe, nprobe ≠ 0 ∧ core.tables = Core.unused core.index.faiss nprobe

/-- The core that belongs to the status. -/
def HasCore (c : Cache δ) : Prop :=
  (c.status = .READY → ∃ core, c.core = some core ∧ Trained core) ∧
    (c.status ≠ .READY → ∀ core, c.core = some core → Untrained core)

theorem Untrained.train {env : Environment δ} {core core' : CoreObject δ} {n : Nat}
    {x : List F32} (h : Untrained core) (hd : core.d ≠ 0)
    (htrain : core.train env.faiss n x = .ok core') (htrained : core'.index.isTrained = true) :
    Trained core' := by
  obtain ⟨nprobe, hprobe, htables⟩ := h.tables
  obtain ⟨index, hd', rfl⟩ : ∃ index, index.faiss.d = core.d ∧
      core' = { core with index := index, tables := core.tables.train index.faiss } := by
    rw [CoreObject.train] at htrain
    split at htrain
    · rw [ok_bind, Except.ok.injEq] at htrain
      exact ⟨core.index, h.d_eq, htrain.symm⟩
    · obtain ⟨index, hindex, hcore'⟩ := bind_eq_ok.mp htrain
      rw [Except.ok.injEq] at hcore'
      exact ⟨index, (env.faiss.train_d hindex).trans h.d_eq, hcore'.symm⟩
  have hreach : Core.Reaches index.faiss [.search 0 [] 1 nprobe false []]
      (core.tables.train index.faiss) := by
    rw [htables]
    exact Core.reaches_trained index.faiss hprobe
  exact ⟨htrained, Nat.one_le_iff_ne_zero.mpr hd, hd', _, hreach⟩

/-- Training again copies the centroids out once more. -/
theorem Trained.train {env : Environment δ} {core core' : CoreObject δ} {n : Nat}
    {x : List F32} (h : Trained core) (htrain : core.train env.faiss n x = .ok core') :
    Trained core' := by
  obtain ⟨ops, hops⟩ := h.tables
  rw [CoreObject.train, if_pos h.isTrained, ok_bind, Except.ok.injEq] at htrain
  subst htrain
  exact ⟨h.isTrained, h.d_pos, h.d_eq, ops ++ [.train], run_concat.mpr ⟨_, hops, rfl⟩⟩

theorem HasCore.step {env : Environment δ} {args : Args} {c c' : Cache δ} (h : c.HasCore)
    (hstep : step env c args = .ok c') : c'.HasCore := by
  obtain ⟨c'', hdispatched, rfl⟩ := step_cases hstep
  show c''.HasCore
  cases hdispatched with
  | construct a core _ hcore =>
      refine ⟨fun hready => absurd hready (by simp), fun _ core' hcore' => ?_⟩
      rw [Option.some.injEq] at hcore'
      subst hcore'
      obtain ⟨index, hindex, hcore⟩ := bind_eq_ok.mp hcore
      rw [Except.ok.injEq] at hcore
      subst hcore
      exact ⟨env.faiss.construct_d hindex, env.faiss.construct_ranked hindex, 1, one_ne_zero,
        rfl⟩
  | train a core core' _ hcore hd htrain htrained =>
      refine ⟨fun _ => ⟨core', rfl, ?_⟩, fun hready => absurd rfl hready⟩
      by_cases hready : c.status = .READY
      · obtain ⟨core₀, hcore₀, hold⟩ := h.1 hready
        rw [hcore, Option.some.injEq] at hcore₀
        exact (hcore₀ ▸ hold).train htrain
      · exact (h.2 hready core hcore).train hd htrain htrained
  | operate core op tables _ _ hcore hop hoperate =>
      constructor
      · intro hready
        obtain ⟨core₀, hcore₀, hold⟩ := h.1 hready
        rw [hcore, Option.some.injEq] at hcore₀
        subst hcore₀
        obtain ⟨ops, hops⟩ := hold.tables
        exact ⟨_, rfl, hold.isTrained, hold.d_pos, hold.d_eq, ops ++ [op],
          run_concat.mpr ⟨_, hops, hoperate⟩⟩
      · intro hready core' hcore'
        rw [Option.some.injEq] at hcore'
        subst hcore'
        have hold := h.2 hready core hcore
        obtain ⟨nprobe, hprobe, htables⟩ := hold.tables
        rcases Core.step_of_unranked hold.unranked hop hoperate with rfl | ⟨p, hp, rfl⟩
        · exact hold
        · refine ⟨hold.d_eq, hold.unranked, p, hp, ?_⟩
          show ({ core.tables with nprobe := p } : Core core.nCells) = _
          rw [htables]
          rfl

/-- **The core behind the status READY.** -/
theorem Reaches.ready {env : Environment δ} {cmds : List Args} {c : Cache δ}
    (h : Reaches env cmds c) (hready : c.status = .READY) :
    ∃ core, c.core = some core ∧ Trained core := by
  have hinv : c.HasCore := by
    refine invariant HasCore ?_ (fun _ _ _ hc hstep => hc.step hstep) h
    exact ⟨fun hnew => absurd hnew (by simp [new]), fun _ core hcore => by simp [new] at hcore⟩
  exact hinv.1 hready

end Cache

end Periplus.Ports
