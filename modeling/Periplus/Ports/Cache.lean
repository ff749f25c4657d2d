import Periplus.Ports.Args
import Periplus.Ports.DbClient

/-!
# `cache.cpp`: the status, and the commands carried out on the core

A command is handled in two phases.  `processCommand` compares its name with the
status and makes the arguments that the session is to read; `processArgs` carries
the command out when they are complete.  Between the two the status is not looked
at again.

The FAISS objects, the JSON parser and the answers of the proxy are parameters
(`Environment`).  The number of cells is computed in floating point
(`4 * sqrt(nTotal)`) and is a parameter too.
-/

namespace Periplus.Ports

open Periplus.Verified.Memory
open Periplus.Verified.Run

/-! ## What the cache is given -/

/-- An index object: what it computes with, and `is_trained`. -/
structure Index (nCells : Nat) (δ : Type) [LinearOrder δ] where
  faiss : Faiss nCells δ
  isTrained : Bool

/-- The constructors and `train` of `IndexIVFFlat` (`flat`) and `IndexIVFPQ`.  Before
training there are no centroids. -/
structure FaissLibrary (δ : Type) [LinearOrder δ] where
  construct : (nCells d : Nat) → (flat : Bool) → Except Fault (Index nCells δ)
  train : {nCells : Nat} → Index nCells δ → (n : Nat) → (x : List F32) →
    Except Fault (Index nCells δ)
  construct_d : ∀ {nCells d flat index}, construct nCells d flat = .ok index →
    index.faiss.d = d
  construct_ranked : ∀ {nCells d flat index}, construct nCells d flat = .ok index →
    ∀ v, index.faiss.ranked v = []
  train_d : ∀ {nCells n x} {index index' : Index nCells δ},
    train index n x = .ok index' → index'.faiss.d = index.faiss.d
  train_isTrained : ∀ {nCells n x} {index index' : Index nCells δ},
    train index n x = .ok index' → index'.isTrained = true

/-! ## A library that refuses -/

namespace FaissLibrary

/-- An index without centroids probes no list. -/
def probesNone (nCells : Nat) (_ : List F32) : List (Fin nCells) := []

theorem probesNone_nodup (nCells : Nat) (v : List F32) : (probesNone nCells v).Nodup :=
  List.nodup_nil

/-- An index before training.  One with codes does not tell vectors apart. -/
def emptyIndex (nCells d : Nat) (flat : Bool) : Index nCells Nat where
  faiss := Faiss.exact d (probesNone nCells) (probesNone_nodup nCells)
    (fun a b => if flat = false ∨ a = b then 0 else 1)
  isTrained := flat && decide (nCells = 0)

/-- The kind of the index shows in its distances. -/
theorem emptyIndex_distance (nCells d : Nat) (flat : Bool) :
    (emptyIndex nCells d flat).faiss.distance [] [0] ≠ 0 ↔ flat = true := by
  show (if flat = false ∨ ([] : List F32) = [0] then 0 else 1) ≠ 0 ↔ flat = true
  cases flat <;> simp

/-- The same cells, ranked by their number. -/
def trainedIndex {nCells : Nat} (index : Index nCells Nat) : Index nCells Nat where
  faiss := Faiss.discrete nCells index.faiss.d
  isTrained := true

def strictConstruct (nCells d : Nat) (flat : Bool) : Except Fault (Index nCells Nat) :=
  if flat = true ∨ 16 ∣ d then .ok (emptyIndex nCells d flat)
  else .error (.exception .subquantizers)

def strictTrain {nCells : Nat} (index : Index nCells Nat) (n : Nat) (_ : List F32) :
    Except Fault (Index nCells Nat) :=
  if nCells ≤ n ∧ (index.faiss.distance [] [0] ≠ 0 ∨ 2 ^ 8 ≤ n) then .ok (trainedIndex index)
  else .error (.exception .fewPoints)

theorem strictConstruct_eq_ok {nCells d : Nat} {flat : Bool} {index : Index nCells Nat} :
    strictConstruct nCells d flat = .ok index ↔
      (flat = true ∨ 16 ∣ d) ∧ index = emptyIndex nCells d flat := by
  unfold strictConstruct
  by_cases h : flat = true ∨ 16 ∣ d
  · rw [if_pos h, Except.ok.injEq, and_iff_right h, eq_comm]
  · rw [if_neg h]
    exact ⟨fun hindex => absurd hindex (by simp), fun hindex => absurd hindex.1 h⟩

theorem strictTrain_eq_ok {nCells n : Nat} {x : List F32} {index index' : Index nCells Nat} :
    strictTrain index n x = .ok index' ↔
      (nCells ≤ n ∧ (index.faiss.distance [] [0] ≠ 0 ∨ 2 ^ 8 ≤ n)) ∧
        index' = trainedIndex index := by
  unfold strictTrain
  by_cases h : nCells ≤ n ∧ (index.faiss.distance [] [0] ≠ 0 ∨ 2 ^ 8 ≤ n)
  · rw [if_pos h, Except.ok.injEq, and_iff_right h, eq_comm]
  · rw [if_neg h]
    exact ⟨fun hindex => absurd hindex (by simp), fun hindex => absurd hindex.1 h⟩

/-- The library that throws as it is documented. -/
def strict : FaissLibrary Nat where
  construct := strictConstruct
  train := strictTrain
  construct_d := by
    intro nCells d flat index h
    rw [(strictConstruct_eq_ok.mp h).2]
    rfl
  construct_ranked := by
    intro nCells d flat index h v
    rw [(strictConstruct_eq_ok.mp h).2]
    rfl
  train_d := by
    intro nCells n x index index' h
    rw [(strictTrain_eq_ok.mp h).2]
    rfl
  train_isTrained := by
    intro nCells n x index index' h
    rw [(strictTrain_eq_ok.mp h).2]
    rfl

end FaissLibrary

/-! ## The environment -/

structure Environment (δ : Type) [LinearOrder δ] where
  faiss : FaissLibrary δ
  parse : Bytes → Option Json
  /-- The response to the request for a cell, by the number of commands carried
  out before. -/
  proxy : (time cell : Nat) → (url : Bytes) → (body : Json) → DBClient.Response
  determineNCells : (nTotal : Nat) → Nat

/-- An environment whose proxy cannot be reached. -/
def Environment.offline : Environment Nat where
  faiss := .strict
  parse := fun _ => none
  proxy := fun _ _ _ _ => ⟨0, []⟩
  determineNCells := fun nTotal => Nat.sqrt (16 * nTotal)

/-! ## The core object -/

/-- What `cache->core` points to. -/
structure CoreObject (δ : Type) [LinearOrder δ] where
  nCells : Nat
  d : Nat
  dbUrl : Bytes
  index : Index nCells δ
  tables : Core nCells

namespace CoreObject

variable {δ : Type} [LinearOrder δ]

/-- `Core::Core`. -/
def construct (faiss : FaissLibrary δ) (d : Nat) (dbUrl : Bytes) (nCells : Nat)
    (useFlat : Bool) : Except Fault (CoreObject δ) := do
  let index ← faiss.construct nCells d (useFlat || decide (d < 64) || decide (d % 8 ≠ 0))
  .ok { nCells, d, dbUrl, index, tables := { Core.fresh index.faiss with centroids := [] } }

/-- `Core::train`. -/
def train (faiss : FaissLibrary δ) (n : Nat) (x : List F32) (core : CoreObject δ) :
    Except Fault (CoreObject δ) := do
  let index ← if core.index.isTrained then .ok core.index
    else faiss.train core.index n x
  .ok { core with index := index, tables := core.tables.train index.faiss }

/-- The requests of the database client. -/
def database (env : Environment δ) (time : Nat) (core : CoreObject δ) :
    Database core.nCells :=
  fun c => DBClient.search env.parse (env.proxy time c.val (cChars core.dbUrl))

end CoreObject

/-! ## What is written to the socket -/

/-- A call of `async_write` or `sync_write`, with the bytes of `output_buf`. -/
inductive Write
  | async (bytes : Bytes)
  | sync (bytes : Bytes)
  deriving DecidableEq, Repr

def Write.bytes : Write → Bytes
  | .async bytes => bytes
  | .sync bytes => bytes

/-- `Session::max_length`. -/
def maxLength : Nat := 1024

/-- The four bytes of an `int`. -/
def intBytes (x : Int) : Bytes := toLE 4 (x % 2 ^ 32).toNat

/-- The offset and the length of each block copied out of a record of `size` bytes,
from the loop variable `l` on. -/
def blocks (size l : Nat) : List (Nat × Nat) :=
  if maxLength ≤ size ∧ l < sizeSub size maxLength then
    (l, maxLength) :: blocks size (l + maxLength)
  else [(l, sizeSub size l)]
termination_by size - l
decreasing_by
  unfold sizeSub maxLength at *
  omega

/-- `memcpy` to `output_buf`, then `sync_write`. -/
def sendBlock (bytes : Bytes) (block : Nat × Nat) : Except Fault Bytes :=
  if block.2 ≤ maxLength then bounded (window bytes block.1 block.2)
  else .error .outOfBounds

def sendBlocks (bytes : Bytes) : List (Nat × Nat) → Except Fault (List Bytes)
  | [] => .ok []
  | b :: bs => do
      let block ← sendBlock bytes b
      let rest ← sendBlocks bytes bs
      .ok (block :: rest)

/-- The loop over the records of one query. -/
def sendRecords (results : List Data) (base : Nat) : List Nat → Except Fault (List Bytes)
  | [] => .ok []
  | j :: js => do
      let x ← bounded results[base + j]?
      let bytes ← x.serialize
      let record ← sendBlocks bytes (blocks bytes.length 0)
      let rest ← sendRecords results base js
      .ok (record ++ rest)

/-- The loop over the queries. -/
def sendQueries (k : Nat) (results : List Data) (cacheHits : List Int) :
    List Nat → Except Fault (List Bytes)
  | [] => .ok []
  | i :: is => do
      let hits ← bounded cacheHits[i]?
      let records ← sendRecords results (i * k) (List.range hits.toNat)
      let rest ← sendQueries k results cacheHits is
      .ok (intBytes hits :: records ++ rest)

/-! ## The cache -/

inductive Status
  | UNINITIALIZED
  | INITIALIZED
  | TRAINING
  | READY
  deriving DecidableEq, Repr

structure Cache (δ : Type) [LinearOrder δ] where
  status : Status
  core : Option (CoreObject δ)
  /-- How many commands have been carried out. -/
  time : Nat

namespace Cache

variable {δ : Type} [LinearOrder δ]

def new : Cache δ where
  status := .UNINITIALIZED
  core := none
  time := 0

/-- `case UNINITIALIZED`, and `default` behind it. -/
def matchUninitialized (command : Bytes) : Except Fault Args :=
  if command = ascii "INITIALIZE" then .ok (.initializeArgs {})
  else .error (.exception .invalidCommand)

/-- `case INITIALIZED`, which falls through. -/
def matchInitialized (command : Bytes) : Except Fault Args :=
  if command = ascii "TRAIN" then .ok (.trainArgs {})
  else matchUninitialized command

/-- `case READY`, which falls through. -/
def matchReady (command : Bytes) : Except Fault Args :=
  if command = ascii "SEARCH" then .ok (.searchArgs {})
  else if command = ascii "ADD" then .ok (.addArgs {})
  else if command = ascii "LOAD" then .ok (.loadArgs {})
  else if command = ascii "EVICT" then .ok (.evictArgs {})
  else matchInitialized command

/-- `Cache::processCommand`: the arguments that the session is told to read. -/
def processCommand (c : Cache δ) (command : Bytes) : Except Fault Args :=
  match c.status with
  | .READY => matchReady command
  | .INITIALIZED => matchInitialized command
  | .UNINITIALIZED => matchUninitialized command
  | .TRAINING => .error (.exception .invalidCommand)

/-- `Cache::initialize`. -/
def initializeCore (env : Environment δ) (a : InitializeArgs) (c : Cache δ) :
    Except Fault (Cache δ × List Write) := do
  let nCells := env.determineNCells a.nTotal
  let core ← CoreObject.construct env.faiss a.d a.dbUrl nCells a.useFlat
  .ok ({ c with core := some core, status := .INITIALIZED },
    [.async (ascii "Initialized cache")])

/-- `Cache::train`. -/
def train (env : Environment δ) (a : TrainArgs) (c : Cache δ) :
    Except Fault (Cache δ × List Write) := do
  let core ← bounded c.core
  if core.d = 0 then .error .divisionByZero
  else
    let nTrainingVecs := a.size / 4 / core.d
    let core ← core.train env.faiss nTrainingVecs a.trainingData
    if core.index.isTrained then
      .ok ({ c with core := some core, status := .READY }, [.async (ascii "Trained cache")])
    else .error (.assertion .indexTrained)

/-- `Cache::load`: a failed request is answered with the text of the exception. -/
def load (env : Environment δ) (a : LoadArgs) (c : Cache δ) :
    Except Fault (Cache δ × List Write) := do
  let core ← bounded c.core
  match ← core.tables.loadCellWithVec core.index.faiss (core.database env c.time) a.xq
      a.nload with
  | .returns tables =>
      .ok ({ c with core := some { core with tables := tables } },
        [.async (ascii "Loaded cell")])
  | .throwsHttp code tables =>
      .ok ({ c with core := some { core with tables := tables } },
        [.async (ascii ("Request to vector db failed with status code: " ++ toString code))])

/-- `Cache::search`. -/
def search (a : SearchArgs) (c : Cache δ) : Except Fault (Cache δ × List Write) := do
  let core ← bounded c.core
  let results := List.replicate (a.n * a.k) ({} : Data)
  let (tables, results, cacheHits) ←
    core.tables.search core.index.faiss a.n a.xq a.k a.nprobe a.requireAll results
  let blocks ← sendQueries a.k results cacheHits (List.range a.n)
  .ok ({ c with core := some { core with tables := tables } }, blocks.map .sync)

/-- `Cache::evict`. -/
def evict (a : EvictArgs) (c : Cache δ) : Except Fault (Cache δ × List Write) := do
  let core ← bounded c.core
  let tables ← core.tables.evictCellWithVec core.index.faiss a.xq a.nevict
  .ok ({ c with core := some { core with tables := tables } }, [.async (ascii "Evicted cell")])

/-- `Cache::add`. -/
def add (a : AddArgs) (c : Cache δ) : Except Fault (Cache δ × List Write) := do
  let core ← bounded c.core
  let tables ← core.tables.add core.index.faiss a.numDocs a.ids a.embeddings
  .ok ({ c with core := some { core with tables := tables } }, [.async (ascii "Added vectors")])

/-- The comparisons of `Cache::process_args`. -/
def dispatch (env : Environment δ) (args : Args) (c : Cache δ) :
    Except Fault (Cache δ × List Write) :=
  match args with
  | .searchArgs a => c.search a
  | .addArgs a => c.add a
  | .initializeArgs a => c.initializeCore env a
  | .trainArgs a => c.train env a
  | .loadArgs a => c.load env a
  | .evictArgs a => c.evict a

/-- `Cache::process_args`. -/
def processArgs (env : Environment δ) (args : Args) (c : Cache δ) :
    Except Fault (Cache δ × List Write) := do
  let (c', writes) ← c.dispatch env args
  .ok ({ c' with time := c.time + 1 }, writes)

/-- `core->index->is_trained`. -/
def isTrained (c : Cache δ) : Bool :=
  match c.core with
  | some core => core.index.isTrained
  | none => false

end Cache

end Periplus.Ports
