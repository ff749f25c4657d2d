import Periplus.Ports.PayloadSizes
import Periplus.Verified.Doubles

/-!
# Setting the cache up

INITIALIZE chooses the kind of the index and the number of its cells, TRAIN divides the
declared size by the dimension, and FAISS has requirements of its own for both.  What FAISS
requires is assumed (`FaissLibrary.Documented`); the code checks nothing of it, so that a
set-up either meets all the requirements or ends without a usable cache
(`setUp_iff`).

There are two kinds of failures.  An exception of FAISS (or the division by a dimension of
zero) ends the server, and without cells the training is skipped and the cache is READY
with nothing in it (`setUp_noRecords`).
-/

namespace Periplus.Ports

open Periplus.Verified
open Periplus.Verified.Reader
open Periplus.Verified.Run

variable {δ : Type} [LinearOrder δ]

/-! ## What the code computes -/

/-- `Cache::determineNCells`: `4 * sqrt(nTotal)` in double precision, truncated. -/
def Cache.determineNCells (nTotal : Nat) : Nat :=
  4 * Doubles.sqrtUnits (Doubles.ofNat nTotal) / 2 ^ Doubles.fractionBits (Doubles.ofNat nTotal)

theorem Cache.determineNCells_square {m : Nat} (h : m * m < 2 ^ 53) :
    determineNCells (m * m) = 4 * m := by
  rw [determineNCells, Doubles.ofNat_of_lt h, Doubles.sqrtUnits_square, ← Nat.mul_assoc,
    Nat.mul_div_cancel _ (Nat.two_pow_pos _)]

/-- There is a cell as soon as there is a record. -/
theorem Cache.determineNCells_eq_zero {nTotal : Nat} :
    determineNCells nTotal = 0 ↔ nTotal = 0 := by
  constructor
  · intro hzero
    by_contra hne
    have hroot := Doubles.le_sqrtUnits (Doubles.ofNat_pos (Nat.pos_of_ne_zero hne))
    have hone : 1 ≤ determineNCells nTotal := by
      rw [determineNCells, Nat.le_div_iff_mul_le (Nat.two_pow_pos _)]
      omega
    omega
  · intro hzero
    rw [hzero]
    exact determineNCells_square (m := 0) (by norm_num)

example : Cache.determineNCells 10000 = 400 :=
  Cache.determineNCells_square (m := 100) (by norm_num)

/-- The index is an `IndexIVFFlat`. -/
def choosesFlat (d : Nat) (useFlat : Bool) : Bool :=
  useFlat || decide (d < 64) || decide (d % 8 ≠ 0)

theorem choosesFlat_eq_true {d : Nat} {useFlat : Bool} :
    choosesFlat d useFlat = true ↔ useFlat = true ∨ d < 64 ∨ d % 8 ≠ 0 := by
  rw [choosesFlat, Bool.or_eq_true, Bool.or_eq_true, decide_eq_true_eq, decide_eq_true_eq,
    or_assoc]

/-! ## What FAISS requires -/

/-- What is documented of the calls: `fits` is what FAISS can represent and allocate for an
index of this kind, and `usable` what it requires of the training vectors apart from their number. -/
structure FaissLibrary.Documented (lib : FaissLibrary δ) (fits : Bool → Nat → Nat → Prop)
    (usable : Bool → Nat → Nat → List F32 → Prop) : Prop where
  /-- A product quantizer with 16 subquantizers requires that 16 divides the dimension. -/
  constructs : ∀ nCells d flat, (∃ index, lib.construct nCells d flat = .ok index) ↔
    fits flat nCells d ∧ (flat = true ∨ 16 ∣ d)
  /-- An index is trained when its quantizer holds as many centroids as there are lists. -/
  untrained : ∀ {nCells d flat index}, lib.construct nCells d flat = .ok index →
    nCells ≠ 0 → index.isTrained = false
  noLists : ∀ {nCells d index}, lib.construct nCells d true = .ok index → nCells = 0 →
    index.isTrained = true
  /-- k-means requires as many points as clusters: `nCells` for the lists, `2 ^ 8` for the
  codes of a subquantizer. -/
  trains : ∀ {nCells d flat index}, lib.construct nCells d flat = .ok index →
    nCells ≠ 0 → ∀ n x, (∃ index', lib.train index n x = .ok index') ↔
      nCells ≤ n ∧ (flat = true ∨ 2 ^ 8 ≤ n) ∧ usable flat nCells n x
  /-- Training leaves one centroid for each list. -/
  centroids : ∀ {nCells n x} {index index' : Index nCells δ},
    lib.train index n x = .ok index' → index'.faiss.centroids.length = nCells * index'.faiss.d

namespace FaissLibrary

/-- The library of the samples throws as it is documented. -/
theorem strict_documented :
    strict.Documented (fun _ _ _ => True) (fun _ _ _ _ => True) where
  constructs := by
    intro nCells d flat
    rw [true_and]
    constructor
    · intro h
      obtain ⟨index, hindex⟩ := h
      exact (strictConstruct_eq_ok.mp hindex).1
    · intro h
      exact ⟨_, strictConstruct_eq_ok.mpr ⟨h, rfl⟩⟩
  untrained := by
    intro nCells d flat index h hcount
    rw [(strictConstruct_eq_ok.mp h).2]
    show (flat && decide (nCells = 0)) = false
    rw [decide_eq_false hcount, Bool.and_false]
  noLists := by
    intro nCells d index (h : strictConstruct nCells d true = .ok index) hcount
    rw [(strictConstruct_eq_ok.mp h).2]
    exact decide_eq_true hcount
  trains := by
    intro nCells d flat index h _ n x
    rw [and_true]
    rw [(strictConstruct_eq_ok.mp h).2, ← emptyIndex_distance nCells d flat]
    constructor
    · intro htrain
      obtain ⟨index', hindex'⟩ := htrain
      exact (strictTrain_eq_ok (x := x).mp hindex').1
    · intro hpoints
      exact ⟨_, strictTrain_eq_ok (x := x).mpr ⟨hpoints, rfl⟩⟩
  centroids := by
    intro nCells n x index index' h
    rw [(strictTrain_eq_ok (x := x).mp h).2]
    exact List.length_replicate

end FaissLibrary

namespace Cache

/-! ## A set-up -/

/-- The command is refused: it is answered, but not with its confirmation, and nothing has
changed. -/
def Declined (env : Environment δ) (args : Args) (confirmation : String) (c : Cache δ) : Prop :=
  ∃ c' writes, c.processArgs env args = .ok (c', writes) ∧
    writes ≠ [.async (ascii confirmation)] ∧ c'.status = c.status ∧ c'.core = c.core

/-- The cache is READY, and what FAISS requires has been met on the way. -/
def Usable (a : InitializeArgs) (t : TrainArgs) (c : Cache δ) : Prop :=
  c.status = .READY ∧ ∃ core, c.core = some core ∧
    1 ≤ core.nCells ∧ core.d = a.d ∧ core.d ≠ 0 ∧
    core.index.isTrained = true ∧ core.tables.centroids.length = core.nCells * core.d ∧
    (choosesFlat a.d a.useFlat = true ∨ 16 ∣ a.d) ∧
    core.nCells * core.d ≤ t.trainingData.length

/-- INITIALIZE and TRAIN lead to a usable cache, or one of them is refused. -/
def SetUp (env : Environment δ) (a : InitializeArgs) (t : TrainArgs) (c : Cache δ) : Prop :=
  Declined env (.initializeArgs a) "Initialized cache" c ∨
    ∃ c₁, step env c (.initializeArgs a) = .ok c₁ ∧
      (Declined env (.trainArgs t) "Trained cache" c₁ ∨
        ∃ c₂, step env c₁ (.trainArgs t) = .ok c₂ ∧ Usable a t c₂)

/-- The arguments meet the requirements. -/
structure Suits (fits : Bool → Nat → Nat → Prop) (usable : Bool → Nat → Nat → List F32 → Prop)
    (a : InitializeArgs) (t : TrainArgs) : Prop where
  dimension : a.d ≠ 0
  records : a.nTotal ≠ 0
  divides : a.useFlat = true ∨ a.d < 64 ∨ a.d % 8 ≠ 0 ∨ a.d % 16 = 0
  fits : fits (choosesFlat a.d a.useFlat) (determineNCells a.nTotal) a.d
  points : determineNCells a.nTotal ≤ t.size / 4 / a.d
  codes : choosesFlat a.d a.useFlat = true ∨ 256 ≤ t.size / 4 / a.d
  usable : usable (choosesFlat a.d a.useFlat) (determineNCells a.nTotal) (t.size / 4 / a.d)
    t.trainingData

/-! ## What the two commands do -/

/-- The core that INITIALIZE makes around an index. -/
def initialized (a : InitializeArgs) {nCells : Nat} (index : Index nCells δ) : CoreObject δ :=
  { nCells := nCells, d := a.d, dbUrl := a.dbUrl, index := index,
    tables := { Core.fresh index.faiss with centroids := [] } }

theorem step_initialize_eq_ok {env : Environment δ} {a : InitializeArgs} {c c' : Cache δ} :
    step env c (.initializeArgs a) = .ok c' ↔
      ∃ index, env.faiss.construct (env.determineNCells a.nTotal) a.d
          (choosesFlat a.d a.useFlat) = .ok index ∧
        c' = { status := .INITIALIZED, core := some (initialized a index),
               time := c.time + 1 } := by
  rw [step, processArgs, dispatch, initializeCore, CoreObject.construct]
  show (do
    let r ← (do
      let r ← (do
        let core ← (do
          let index ← env.faiss.construct (env.determineNCells a.nTotal) a.d
            (choosesFlat a.d a.useFlat)
          Except.ok (initialized a index))
        Except.ok (({ c with core := some core, status := .INITIALIZED } : Cache δ),
          [Write.async (ascii "Initialized cache")]))
      Except.ok (({ r.1 with time := c.time + 1 } : Cache δ), r.2))
    Except.ok r.1) = Except.ok c' ↔ _
  cases env.faiss.construct (env.determineNCells a.nTotal) a.d (choosesFlat a.d a.useFlat) with
  | error f => simp
  | ok index =>
      simp only [ok_bind, Except.ok.injEq, exists_eq_left', eq_comm]

theorem step_train_eq_ok {env : Environment δ} {t : TrainArgs} {core : CoreObject δ}
    {c c' : Cache δ} (hcore : c.core = some core) :
    step env c (.trainArgs t) = .ok c' ↔
      core.d ≠ 0 ∧ ∃ core', core.train env.faiss (t.size / 4 / core.d) t.trainingData =
          .ok core' ∧ core'.index.isTrained = true ∧
        c' = { status := .READY, core := some core', time := c.time + 1 } := by
  rw [step, processArgs, dispatch, train, bounded_eq_ok.mpr hcore, ok_bind]
  by_cases hd : core.d = 0
  · simp [hd]
  · rw [if_neg hd]
    dsimp only
    cases core.train env.faiss (t.size / 4 / core.d) t.trainingData with
    | error f => simp
    | ok core' =>
        by_cases htrained : core'.index.isTrained = true
        · simp only [ok_bind]
          rw [if_pos htrained]
          simp only [ok_bind, Except.ok.injEq, exists_eq_left', ne_eq, hd, not_false_eq_true,
            true_and]
          rw [and_iff_right htrained]
          exact eq_comm
        · simp [htrained]

theorem train_of_untrained (faiss : FaissLibrary δ) {core : CoreObject δ}
    (h : core.index.isTrained = false) (n : Nat) (x : List F32) :
    core.train faiss n x = (faiss.train core.index n x >>= fun index =>
      .ok { core with index := index, tables := core.tables.train index.faiss }) := by
  rw [CoreObject.train, if_neg (by rw [h]; simp)]

theorem train_nCells {faiss : FaissLibrary δ} {core core' : CoreObject δ} {n : Nat}
    {x : List F32} (h : core.train faiss n x = .ok core') : core'.nCells = core.nCells := by
  rw [CoreObject.train] at h
  split at h
  · rw [ok_bind, Except.ok.injEq] at h
    rw [← h]
  · obtain ⟨index, _, h⟩ := bind_eq_ok.mp h
    rw [Except.ok.injEq] at h
    rw [← h]

/-- Neither of them is ever refused. -/
theorem not_declined_initialize {env : Environment δ} {a : InitializeArgs} {c : Cache δ} :
    ¬ Declined env (.initializeArgs a) "Initialized cache" c := by
  intro h
  obtain ⟨c', writes, hrun, hother, _⟩ := h
  obtain ⟨⟨c₁, ws⟩, hdispatch, hrun⟩ := bind_eq_ok.mp hrun
  obtain ⟨core, _, hdispatch⟩ := bind_eq_ok.mp hdispatch
  simp only [Except.ok.injEq, Prod.mk.injEq] at hrun hdispatch
  exact hother (by rw [← hrun.2, ← hdispatch.2])

theorem not_declined_train {env : Environment δ} {t : TrainArgs} {c : Cache δ} :
    ¬ Declined env (.trainArgs t) "Trained cache" c := by
  intro h
  obtain ⟨c', writes, hrun, hother, _⟩ := h
  obtain ⟨⟨c₁, ws⟩, hdispatch, hrun⟩ := bind_eq_ok.mp hrun
  obtain ⟨core, _, hdispatch⟩ := bind_eq_ok.mp hdispatch
  split at hdispatch
  · exact absurd hdispatch (by simp)
  · obtain ⟨core', _, hdispatch⟩ := bind_eq_ok.mp hdispatch
    split at hdispatch
    · simp only [Except.ok.injEq, Prod.mk.injEq] at hrun hdispatch
      exact hother (by rw [← hrun.2, ← hdispatch.2])
    · exact absurd hdispatch (by simp)

/-- The declared size is that of the payload. -/
theorem trainingData_length {t : TrainArgs} (h : (Args.trainArgs t).Decoded) :
    t.trainingData.length = t.size / 4 := by
  obtain ⟨command, st, st', before, dyn, dyn', _, hdynamic⟩ := h
  cases before with
  | trainArgs b =>
      obtain ⟨a, ha, heq⟩ := read_map.mp hdynamic
      obtain ⟨xs, is, hxs, ha⟩ := read_bind.mp ha
      obtain ⟨u, is', _, ha⟩ := read_bind.mp ha
      rw [Args.trainArgs.injEq] at heq
      rw [heq, (read_pure.mp ha).1]
      exact readFloatData_length hxs
  | initializeArgs b => obtain ⟨_, _, heq⟩ := read_map.mp hdynamic; exact absurd heq (by simp)
  | loadArgs b => obtain ⟨_, _, heq⟩ := read_map.mp hdynamic; exact absurd heq (by simp)
  | searchArgs b => obtain ⟨_, _, heq⟩ := read_map.mp hdynamic; exact absurd heq (by simp)
  | evictArgs b => obtain ⟨_, _, heq⟩ := read_map.mp hdynamic; exact absurd heq (by simp)
  | addArgs b => obtain ⟨_, _, heq⟩ := read_map.mp hdynamic; exact absurd heq (by simp)

/-- The kind of index can be constructed in dimension `d`. -/
theorem divides_iff {d : Nat} {useFlat : Bool} :
    (choosesFlat d useFlat = true ∨ 16 ∣ d) ↔
      useFlat = true ∨ d < 64 ∨ d % 8 ≠ 0 ∨ d % 16 = 0 := by
  rw [choosesFlat_eq_true, Nat.dvd_iff_mod_eq_zero, or_assoc, or_assoc]

/-! ## When a set-up succeeds -/

variable {fits : Bool → Nat → Nat → Prop} {usable : Bool → Nat → Nat → List F32 → Prop}

/-- A set-up that reaches a usable cache has made an index with cells and trained it. -/
theorem SetUp.spec {env : Environment δ} {a : InitializeArgs} {t : TrainArgs} {c : Cache δ}
    (h : SetUp env a t c) :
    ∃ index core', env.faiss.construct (env.determineNCells a.nTotal) a.d
        (choosesFlat a.d a.useFlat) = .ok index ∧
      a.d ≠ 0 ∧ env.determineNCells a.nTotal ≠ 0 ∧
      (initialized a index).train env.faiss (t.size / 4 / a.d) t.trainingData = .ok core' := by
  rcases h with hdeclined | ⟨c₁, hinit, hdeclined | ⟨c₂, htrain, _, core, hcore, hcells, _⟩⟩
  · exact absurd hdeclined not_declined_initialize
  · exact absurd hdeclined not_declined_train
  obtain ⟨index, hindex, hc₁⟩ := step_initialize_eq_ok.mp hinit
  have hcore₁ : c₁.core = some (initialized a index) := by rw [hc₁]
  obtain ⟨hd, core', hcore', _, hc₂⟩ := (step_train_eq_ok hcore₁).mp htrain
  have hsame : core'.nCells = env.determineNCells a.nTotal := train_nCells hcore'
  rw [hc₂, Option.some.injEq] at hcore
  rw [← hcore, hsame] at hcells
  exact ⟨index, core', hindex, hd, by omega, hcore'⟩

/-- **When a set-up reaches a usable cache.** -/
theorem setUp_iff (env : Environment δ) (hfaiss : env.faiss.Documented fits usable)
    (hcells : env.determineNCells = determineNCells) (c : Cache δ) (a : InitializeArgs)
    (t : TrainArgs) (ht : (Args.trainArgs t).Decoded) :
    SetUp env a t c ↔ Suits fits usable a t := by
  have hlength := trainingData_length ht
  constructor
  · intro h
    obtain ⟨index, core', hindex, hd, hcount, hcore'⟩ := h.spec
    -- there are cells, so the index was not trained before
    rw [train_of_untrained env.faiss (hfaiss.untrained hindex hcount)] at hcore'
    obtain ⟨index', hindex', _⟩ := bind_eq_ok.mp hcore'
    obtain ⟨hpoints, hcodes, huse⟩ := (hfaiss.trains hindex hcount _ _).mp ⟨index', hindex'⟩
    obtain ⟨hfits, hdivides⟩ := (hfaiss.constructs _ _ _).mp ⟨index, hindex⟩
    exact
      { dimension := hd
        records := fun hzero => hcount (by rw [hcells]; exact determineNCells_eq_zero.mpr hzero)
        divides := divides_iff.mp hdivides
        fits := by rw [← hcells]; exact hfits
        points := by rw [← hcells]; exact hpoints
        codes := hcodes
        usable := by rw [← hcells]; exact huse }
  · intro h
    have hcount : env.determineNCells a.nTotal ≠ 0 := by
      rw [hcells]
      exact fun hzero => h.records (determineNCells_eq_zero.mp hzero)
    obtain ⟨index, hindex⟩ := (hfaiss.constructs (env.determineNCells a.nTotal) a.d
      (choosesFlat a.d a.useFlat)).mpr ⟨by rw [hcells]; exact h.fits, divides_iff.mpr h.divides⟩
    obtain ⟨index', hindex'⟩ := (hfaiss.trains hindex hcount (t.size / 4 / a.d)
      t.trainingData).mpr ⟨by rw [hcells]; exact h.points, h.codes, by rw [hcells]; exact h.usable⟩
    have htrained := env.faiss.train_isTrained hindex'
    have hdim : index'.faiss.d = a.d :=
      (env.faiss.train_d hindex').trans (env.faiss.construct_d hindex)
    have hcentroids := hfaiss.centroids hindex'
    rw [hdim] at hcentroids
    let c₁ : Cache δ :=
      { status := .INITIALIZED, core := some (initialized a index), time := c.time + 1 }
    let core' : CoreObject δ := { initialized a index with
      index := index', tables := (initialized a index).tables.train index'.faiss }
    have hinit : step env c (.initializeArgs a) = .ok c₁ :=
      step_initialize_eq_ok.mpr ⟨index, hindex, rfl⟩
    have hcore' : (initialized a index).train env.faiss (t.size / 4 / a.d) t.trainingData =
        .ok core' := by
      rw [train_of_untrained env.faiss (hfaiss.untrained hindex hcount)]
      show (env.faiss.train index _ _ >>= fun _ => _) = _
      rw [hindex']
      rfl
    have hcore₁ : c₁.core = some (initialized a index) := rfl
    have htrain : step env c₁ (.trainArgs t) =
        .ok { status := .READY, core := some core', time := c₁.time + 1 } :=
      (step_train_eq_ok hcore₁).mpr ⟨h.dimension, core', hcore', htrained, rfl⟩
    refine Or.inr ⟨c₁, hinit, Or.inr ⟨_, htrain, rfl, core', rfl, ?_, rfl, h.dimension, htrained,
      hcentroids, divides_iff.mpr h.divides, ?_⟩⟩
    · exact Nat.one_le_iff_ne_zero.mpr hcount
    · show env.determineNCells a.nTotal * a.d ≤ t.trainingData.length
      rw [hcells, hlength]
      exact (Nat.le_div_iff_mul_le (Nat.pos_of_ne_zero h.dimension)).mp h.points

/-- **Without records there are no cells**: nothing is left to train, and after any TRAIN the
cache is READY. -/
theorem setUp_noRecords {env : Environment δ} (hfaiss : env.faiss.Documented fits usable)
    (hcells : env.determineNCells = determineNCells) (c : Cache δ) {a : InitializeArgs}
    (hd : a.d ≠ 0) (hrecords : a.nTotal = 0) (hflat : choosesFlat a.d a.useFlat = true)
    (hfits : fits true 0 a.d) (t : TrainArgs) :
    ∃ c₁ c₂ core, step env c (.initializeArgs a) = .ok c₁ ∧
      step env c₁ (.trainArgs t) = .ok c₂ ∧ c₂.status = .READY ∧ c₂.core = some core ∧
      core.nCells = 0 := by
  have hnone : env.determineNCells a.nTotal = 0 := by
    rw [hcells, hrecords]
    exact determineNCells_eq_zero.mpr rfl
  obtain ⟨index, hindex⟩ := (hfaiss.constructs (env.determineNCells a.nTotal) a.d
    (choosesFlat a.d a.useFlat)).mpr ⟨by rw [hnone, hflat]; exact hfits, Or.inl hflat⟩
  let c₁ : Cache δ :=
    { status := .INITIALIZED, core := some (initialized a index), time := c.time + 1 }
  have hinit : step env c (.initializeArgs a) = .ok c₁ :=
    step_initialize_eq_ok.mpr ⟨index, hindex, rfl⟩
  rw [hflat] at hindex
  have htrained : (initialized a index).index.isTrained = true := hfaiss.noLists hindex hnone
  have hcore : (initialized a index).train env.faiss (t.size / 4 / a.d) t.trainingData =
      .ok { initialized a index with
        tables := (initialized a index).tables.train (initialized a index).index.faiss } := by
    rw [CoreObject.train, if_pos htrained]
    rfl
  have hcore₁ : c₁.core = some (initialized a index) := rfl
  have htrain := (step_train_eq_ok hcore₁).mpr ⟨hd, _, hcore, htrained, rfl⟩
  exact ⟨c₁, _, _, hinit, htrain, rfl, rfl, hnone⟩

/-- An environment with the number of cells that the code computes. -/
def strictly : Environment Nat :=
  { Environment.offline with determineNCells := determineNCells }

/-- Four training vectors of dimension one. -/
def fourPoints : TrainArgs := { size := 16, trainingData := [1, 2, 3, 4] }

theorem fourPoints_decoded : (Args.trainArgs fourPoints).Decoded := by
  have hstatic := decodes_trainStatic {} (by norm_num : 16 < 2 ^ 64)
  have hdynamic : Decodes (TrainArgs.deserializeDynamic { size := 16 })
      (floatBytes [1, 2, 3, 4] ++ [0x0D, 0x0A]) _ := decodes_trainDynamic _ rfl
  exact ⟨.TRAIN, _, _, _, _, _, read_map.mpr ⟨_, hstatic.reads [] [], rfl⟩,
    read_map.mpr ⟨_, hdynamic.reads [] [], rfl⟩⟩

/-- One record asks for four cells, and these for four training vectors. -/
theorem setUp_four :
    SetUp strictly { d := 1, nTotal := 1, useFlat := true } fourPoints Cache.new := by
  have hfour : determineNCells 1 = 4 := determineNCells_square (m := 1) (by norm_num)
  apply (setUp_iff strictly FaissLibrary.strict_documented rfl Cache.new
    { d := 1, nTotal := 1, useFlat := true } fourPoints fourPoints_decoded).mpr
  exact
    { dimension := by decide
      records := by decide
      divides := Or.inl rfl
      fits := trivial
      points := by
        rw [hfour]
        decide
      codes := Or.inl rfl
      usable := trivial }

/-- In dimension 72 the product quantizer is chosen, and throws; without records the cache
is READY and has no cells. -/
theorem setUp_fails :
    (step strictly Cache.new (.initializeArgs { d := 72, nTotal := 1 }) =
        .error (.exception .subquantizers) ∧
      ¬ SetUp strictly { d := 72, nTotal := 1 } fourPoints Cache.new) ∧
    ((∃ c₁ c₂ core,
        step strictly Cache.new (.initializeArgs { d := 1, nTotal := 0 }) = .ok c₁ ∧
        step strictly c₁ (.trainArgs fourPoints) = .ok c₂ ∧
        c₂.status = .READY ∧ c₂.core = some core ∧ core.nCells = 0) ∧
      ¬ SetUp strictly { d := 1, nTotal := 0 } fourPoints Cache.new) := by
  have hnone : determineNCells 0 = 0 := determineNCells_eq_zero.mpr rfl
  refine ⟨⟨rfl, ?_⟩, ?_, ?_⟩
  · intro h
    obtain ⟨index, _, hindex, _⟩ := h.spec
    have hchosen : FaissLibrary.strictConstruct _ 72 false = .ok index := hindex
    exact absurd (FaissLibrary.strictConstruct_eq_ok.mp hchosen).1 (by decide)
  · exact ⟨_, _, _, rfl, rfl, rfl, rfl, hnone⟩
  · intro h
    obtain ⟨_, _, _, _, hcells, _⟩ := h.spec
    exact hcells hnone

end Cache

end Periplus.Ports
