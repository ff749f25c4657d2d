import Periplus.Ports.Faiss

/-!
# `core.cpp`: the cells, the registry and the index

A `Core` is the mutable part of the C++ object for a trained index: five tables
that the operations update by separate statements, the probe count and the
copied centroids.  The index itself (its ranking and its distance) is a
parameter, since nothing changes it after training.

Array accesses go through `cellAt`, `window` and `writeSlot`, so that a label of
`-1` or a buffer that is too short shows as `Fault.outOfBounds`.  The database
is asked through a virtual function; here its answer to the request for each
cell is an argument of the load.
-/

namespace Periplus.Ports

open Periplus.Verified.Memory
open Periplus.Verified.Run

/-- What `db->search(ids, x)` does to an array `x` of `n` slots. -/
inductive DbAnswer (n : Nat)
  | filled (x : Vector Data n)
  | httpException (code : Nat)
  | fault (f : Fault)

/-- The answers the database gives during one load, by the cell they are
requested for. -/
abbrev Database (nCells : Nat) := Fin nCells → (ids : List Bytes) → DbAnswer ids.length

/-- The database that answers every request with one record for each id. -/
def Database.ofRecords {nCells : Nat} (record : Bytes → Record) : Database nCells :=
  fun _ ids => .filled ⟨(ids.map (fun id => (record id).toData)).toArray, by simp⟩

/-- How a load comes back: normally, or with an `HttpException` that leaves the
state it had reached. -/
inductive Exit (σ : Type)
  | returns (s : σ)
  | throwsHttp (code : Nat) (s : σ)

def Exit.state {σ : Type} : Exit σ → σ
  | .returns s => s
  | .throwsHttp _ s => s

structure Core (nCells : Nat) where
  centroids : List F32
  /-- `-1` for a cell that is not in residence, else the number of ids that were
  registered in it when it was loaded. -/
  residenceStatuses : Fin nCells → Int
  /-- `index->nprobe`. -/
  nprobe : Nat
  /-- `index->invlists`. -/
  invlists : Fin nCells → List Entry
  nextId : Nat
  idsByCell : Fin nCells → List Bytes
  dataMap : Nat → Option Data
  idMap : Bytes → Option Nat

/-- The cell a label stands for. -/
def cellAt (nCells : Nat) (label : Int) : Except Fault (Fin nCells) :=
  if h : 0 ≤ label ∧ label.toNat < nCells then .ok ⟨label.toNat, h.2⟩
  else .error .outOfBounds

/-- `xs[i] = v`. -/
def writeSlot {α : Type} (xs : List α) (i : Nat) (v : α) : Except Fault (List α) :=
  bounded (store xs i v)

namespace Core

variable {nCells : Nat} {δ : Type} [LinearOrder δ]

/-- The tables of a core whose index has just been trained. -/
def fresh (F : Faiss nCells δ) : Core nCells where
  centroids := F.centroids
  residenceStatuses := fun _ => -1
  nprobe := 1
  invlists := fun _ => []
  nextId := 0
  idsByCell := fun _ => []
  dataMap := fun _ => none
  idMap := fun _ => none

/-- `Core::train` on a core whose index is trained: `index->train` is not called
again, and the centroids are copied out once more. -/
def train (F : Faiss nCells δ) (s : Core nCells) : Core nCells :=
  { s with centroids := F.centroids }

/-! ## Loading -/

/-- Enter one record under its number: `data_map.insert` and `add_with_ids`. -/
def insertEntry (F : Faiss nCells δ) (num : Nat) (v : List F32) (x : Data)
    (s : Core nCells) : Core nCells :=
  { s with
    dataMap := Function.update s.dataMap num (some x)
    invlists := F.addWithIds s.invlists v num }

/-- One iteration of the loop in `Core::loadCell`. -/
def storeSlot (F : Faiss nCells δ) (target : Fin nCells) (x : Data)
    (s : Core nCells) : Except Fault (Core nCells) := do
  let v ← x.readEmbedding F.d
  if F.nearest v = some target then
    let id ← x.idString
    match s.idMap id with
    | none => .error (.assertion .idRegistered)
    | some num =>
        if (s.dataMap num).isSome then .error (.assertion .notInDataMap)
        else .ok (s.insertEntry F num v x)
  else
    -- "Queried vector does not belong to the target cell"
    .ok s

def storeSlots (F : Faiss nCells δ) (target : Fin nCells) :
    List Data → Core nCells → Except Fault (Core nCells)
  | [], s => .ok s
  | x :: xs, s => do
      let s ← storeSlot F target x s
      storeSlots F target xs s

def setStatus (target : Fin nCells) (status : Int) (s : Core nCells) : Core nCells :=
  { s with residenceStatuses := Function.update s.residenceStatuses target status }

def loadCell (F : Faiss nCells δ) (db : Database nCells) (target : Fin nCells)
    (s : Core nCells) : Except Fault (Exit (Core nCells)) :=
  match db target (s.idsByCell target) with
  | .httpException code => .ok (.throwsHttp code s)
  | .fault f => .error f
  | .filled x => do
      let s' ← storeSlots F target x.toList s
      .ok (.returns (s'.setStatus target (s.idsByCell target).length))

/-- The loop of `Core::loadCellWithVec` over the labels the quantizer returned. -/
def loadCells (F : Faiss nCells δ) (db : Database nCells) :
    List Int → Core nCells → Except Fault (Exit (Core nCells))
  | [], s => .ok (.returns s)
  | label :: labels, s => do
      let c ← cellAt nCells label
      if s.residenceStatuses c > -1 then
        -- "Found cell already loaded: skipping"
        loadCells F db labels s
      else
        match ← loadCell F db c s with
        | .returns s' => loadCells F db labels s'
        | .throwsHttp code s' => .ok (.throwsHttp code s')

def loadCellWithVec (F : Faiss nCells δ) (db : Database nCells) (xq : List F32)
    (nload : Nat) (s : Core nCells) : Except Fault (Exit (Core nCells)) := do
  let centroidIndices ← F.quantizerSearch 1 xq nload
  loadCells F db centroidIndices s

/-! ## Evicting -/

/-- Erase the given numbers from `data_map`. -/
def eraseAll (dataMap : Nat → Option Data) (idsToRemove : List Nat) : Nat → Option Data :=
  idsToRemove.foldl (fun m num => Function.update m num none) dataMap

def evictCell (c : Fin nCells) (s : Core nCells) : Except Fault (Core nCells) :=
  if s.residenceStatuses c = -1 then .error (.exception .notInResidence)
  else
    let idsToRemove := (s.invlists c).map Entry.num
    .ok (setStatus c (-1)
      { s with
        invlists := Function.update s.invlists c []
        dataMap := eraseAll s.dataMap idsToRemove })

def evictCells : List Int → Core nCells → Except Fault (Core nCells)
  | [], s => .ok s
  | label :: labels, s => do
      let c ← cellAt nCells label
      if s.residenceStatuses c < 0 then evictCells labels s
      else
        let s' ← evictCell c s
        evictCells labels s'

def evictCellWithVec (F : Faiss nCells δ) (xq : List F32) (nevict : Nat)
    (s : Core nCells) : Except Fault (Core nCells) := do
  let centroidIndices ← F.quantizerSearch 1 xq nevict
  evictCells centroidIndices s

/-! ## Searching -/

/-- The loop over the second to the last of the probed cells. -/
def allInResidence (s : Core nCells) : List Int → Except Fault Bool
  | [] => .ok true
  | label :: labels => do
      let c ← cellAt nCells label
      if s.residenceStatuses c = -1 then .ok false else s.allInResidence labels

/-- The residency test for one query, over its row of `centroidIndices`. -/
def cacheHit (s : Core nCells) (requireAll : Bool) (row : List Int) :
    Except Fault Bool :=
  match row with
  | [] => .error .outOfBounds
  | label :: labels => do
      let c ← cellAt nCells label
      if s.residenceStatuses c > -1 then
        if requireAll then s.allInResidence labels else .ok true
      else .ok false

/-- Copy the records of the labels found into the slots from `base`, counting
them. -/
def fillSlots (s : Core nCells) :
    List Int → Nat → List Data → Int → Except Fault (List Data × Int)
  | [], _, data, hits => .ok (data, hits)
  | label :: labels, base, data, hits =>
      if label = -1 then do
        -- Fewer than k results, padded with -1
        let data ← writeSlot data base {}
        s.fillSlots labels (base + 1) data hits
      else
        match s.dataMap label.toNat with
        | none => .error (.assertion .labelInDataMap)
        | some x => do
            let data ← writeSlot data base x
            s.fillSlots labels (base + 1) data (hits + 1)

/-- One iteration of the loop in `Core::search`: the new slots and
`cacheHits[i]`.  The index is searched at `&xq[i]`. -/
def searchQuery (F : Faiss nCells δ) (xq : List F32) (k nprobe : Nat)
    (requireAll : Bool) (centroidIndices : List Int) (s : Core nCells) (i : Nat)
    (data : List Data) : Except Fault (List Data × Int) := do
  let hit ← s.cacheHit requireAll (rowAt nprobe i centroidIndices)
  if hit then
    let q ← bounded (window xq i F.d)
    let labels ← F.indexSearch nprobe s.invlists q k
    s.fillSlots labels (i * k) data 0
  else
    .ok (data, -1)

def searchQueries (F : Faiss nCells δ) (xq : List F32) (k nprobe : Nat)
    (requireAll : Bool) (centroidIndices : List Int) (s : Core nCells) :
    List Nat → List Data → Except Fault (List Data × List Int)
  | [], data => .ok (data, [])
  | i :: is, data => do
      let (data, hits) ← searchQuery F xq k nprobe requireAll centroidIndices s i data
      let (data, rest) ← searchQueries F xq k nprobe requireAll centroidIndices s is data
      .ok (data, hits :: rest)

/-- `Core::search`: the state, the slots and `cacheHits` afterwards. -/
def search (F : Faiss nCells δ) (n : Nat) (xq : List F32) (k nprobe : Nat)
    (requireAll : Bool) (data : List Data) (s : Core nCells) :
    Except Fault (Core nCells × List Data × List Int) := do
  let s := { s with nprobe := nprobe }
  let centroidIndices ← F.quantizerSearch n xq nprobe
  let (data, cacheHits) ←
    searchQueries F xq k nprobe requireAll centroidIndices s (List.range n) data
  .ok (s, data, cacheHits)

/-! ## Registering -/

/-- `isNullTerminated(str, maxLength)`. -/
def isNullTerminated (str : Bytes) (maxLength : Nat) : Except Fault Bool :=
  if 0 ∈ str.take maxLength then .ok true
  else if maxLength ≤ str.length then .ok false
  else .error .outOfBounds

/-- One iteration of the loop in `Core::add`.  `next_id` is a signed 64-bit
number, so counting past its last value is undefined. -/
def addOne (label : Int) (id : Bytes) (s : Core nCells) :
    Except Fault (Core nCells) := do
  let terminated ← isNullTerminated id 100
  if terminated then
    let id ← bounded (cString 0 id)
    let c ← cellAt nCells label
    if s.nextId + 1 < 2 ^ 63 then
      .ok { s with
        idsByCell := Function.update s.idsByCell c (s.idsByCell c ++ [id])
        -- `unordered_map::insert` keeps the number of an id that is present
        idMap := if (s.idMap id).isSome then s.idMap
          else Function.update s.idMap id (some s.nextId)
        nextId := s.nextId + 1 }
    else .error .outOfBounds
  else .error (.assertion .idNullTerminated)

def addAll : List Int → List Bytes → Core nCells → Except Fault (Core nCells)
  | [], _, s => .ok s
  | _ :: _, [], _ => .error .outOfBounds
  | label :: labels, id :: ids, s => do
      let s ← addOne label id s
      addAll labels ids s

def add (F : Faiss nCells δ) (numDocs : Nat) (ids : List Bytes)
    (embeddings : List F32) (s : Core nCells) : Except Fault (Core nCells) := do
  let updatedCentroids ← F.quantizerSearch numDocs embeddings 1
  addAll updatedCentroids ids s

end Core

/-! ## Sequences of operations -/

/-- A call of one of the operations of `Core`. -/
inductive Op (nCells : Nat)
  | train
  | add (numDocs : Nat) (ids : List Bytes) (embeddings : List F32)
  | load (xq : List F32) (nload : Nat) (db : Database nCells)
  | evict (xq : List F32) (nevict : Nat)
  | search (n : Nat) (xq : List F32) (k nprobe : Nat) (requireAll : Bool)
      (data : List Data)

namespace Core

variable {nCells : Nat} {δ : Type} [LinearOrder δ]

/-- The state an operation leaves.  A failed request (`HttpException`) is caught
by the caller and leaves a state like any other. -/
def step (F : Faiss nCells δ) (s : Core nCells) : Op nCells → Except Fault (Core nCells)
  | .train => .ok (s.train F)
  | .add numDocs ids embeddings => s.add F numDocs ids embeddings
  | .load xq nload db => do
      let exit ← s.loadCellWithVec F db xq nload
      .ok exit.state
  | .evict xq nevict => s.evictCellWithVec F xq nevict
  | .search n xq k nprobe requireAll data => do
      let (s, _, _) ← s.search F n xq k nprobe requireAll data
      .ok s

/-- The operations lead from a freshly trained core to `s`. -/
def Reaches (F : Faiss nCells δ) (ops : List (Op nCells)) (s : Core nCells) : Prop :=
  run (step F) (fresh F) ops = .ok s

end Core

end Periplus.Ports
