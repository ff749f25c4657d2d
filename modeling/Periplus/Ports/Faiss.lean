import Periplus.Ports.Data
import Periplus.Verified.TopK

/-!
# What the core uses of FAISS

The library is not part of the repository.  A trained index is a parameter of
the model: a fixed ranking of the cells for every vector (the quantizer), the
distance the index computes between a query and a stored vector, and a search
that returns the `k` best entries of the lists it scans, in any order among
equal distances.  What is assumed of the parameter are its fields: a ranking has
no cell twice, a batch is searched for vector by vector (`batched`), and a scan
returns best entries (`best_spec`).

The calling conventions the core relies on are definitions: `k` labels are
written for each query, missing ones are `-1`, a search for zero neighbours
throws, and `n` queries of dimension `d` are read from one buffer.
-/

namespace Periplus.Ports

open Periplus.Verified.Memory
open Periplus.Verified.TopK

/-- One element of an inverted list: the number given to `add_with_ids`, and
the vector as it was given. -/
structure Entry where
  num : Nat
  vec : List F32
  deriving DecidableEq, Repr

/-- `found` labels, padded with `-1` to `k` of them. -/
def padLabels (k : Nat) (found : List Int) : List Int :=
  found ++ List.replicate (k - found.length) (-1)

theorem padLabels_length {k : Nat} {found : List Int} (h : found.length ≤ k) :
    (padLabels k found).length = k := by
  rw [padLabels, List.length_append, List.length_replicate]
  omega

/-- A trained quantizer and index over `nCells` inverted lists. -/
structure Faiss (nCells : Nat) (δ : Type) [LinearOrder δ] where
  /-- The dimension of the vectors. -/
  d : Nat
  /-- The cells from the nearest to the farthest centroid.  Cells whose distance
  cannot be compared (NaN) are missing at the end. -/
  ranked : List F32 → List (Fin nCells)
  ranked_nodup : ∀ v, (ranked v).Nodup
  /-- What a search of the quantizer writes for the `n` vectors of a buffer. -/
  labels : Nat → List F32 → Nat → List Int := fun n xq k =>
    (List.range n).flatMap (fun i =>
      padLabels k (((ranked (rowAt d i xq)).take k).map (fun c => (c.val : Int))))
  /-- A search for `n` vectors is `n` searches for one. -/
  batched : ∀ n xq k, labels n xq k = (List.range n).flatMap (fun i =>
      padLabels k (((ranked (rowAt d i xq)).take k).map (fun c => (c.val : Int)))) := by
    intros
    rfl
  /-- What `reconstruct_n` copies out. -/
  centroids : List F32
  /-- The index's own distance from a query to a stored vector. -/
  distance : List F32 → List F32 → δ
  /-- `best q k entries`: the entries an exhaustive scan returns. -/
  best : List F32 → Nat → List Entry → List Entry
  best_spec : ∀ q k entries,
    IsTopK (fun e => distance q e.vec) k entries (best q k entries)

namespace Faiss

variable {nCells : Nat} {δ : Type} [LinearOrder δ]

/-- The nearest centroid of a vector. -/
def nearest (F : Faiss nCells δ) (v : List F32) : Option (Fin nCells) :=
  (F.ranked v).head?

/-- The labels of the `k` centroids nearest to one vector. -/
def assign (F : Faiss nCells δ) (v : List F32) (k : Nat) : List Int :=
  padLabels k (((F.ranked v).take k).map (fun c => (c.val : Int)))

/-- The `i`-th vector of a buffer of vectors of dimension `d`. -/
def query (F : Faiss nCells δ) (xq : List F32) (i : Nat) : List F32 :=
  rowAt F.d i xq

/-- `quantizer->search(n, xq, k, distances, labels)`. -/
def quantizerSearch (F : Faiss nCells δ) (n : Nat) (xq : List F32) (k : Nat) :
    Except Fault (List Int) :=
  if k = 0 then .error (.exception .noNeighbours)
  else if n * F.d ≤ xq.length then .ok (F.labels n xq k)
  else .error .outOfBounds

/-- The labels of a batch are those of its vectors. -/
theorem quantizerSearch_eq (F : Faiss nCells δ) (n : Nat) (xq : List F32) (k : Nat) :
    F.quantizerSearch n xq k =
      if k = 0 then .error (.exception .noNeighbours)
      else if n * F.d ≤ xq.length then
        .ok ((List.range n).flatMap (fun i => F.assign (F.query xq i) k))
      else .error .outOfBounds := by
  rw [quantizerSearch, F.batched]
  rfl

/-- `index->search(1, q, k, distances, labels)` with the given `nprobe`. -/
def indexSearch (F : Faiss nCells δ) (nprobe : Nat) (lists : Fin nCells → List Entry)
    (q : List F32) (k : Nat) : Except Fault (List Int) :=
  if k = 0 then .error (.exception .noNeighbours)
  else
    let entries := ((F.ranked q).take nprobe).flatMap lists
    .ok (padLabels k ((F.best q k entries).map (fun e => (e.num : Int))))

/-- `index->add_with_ids(1, v, &num)`: the entry goes to the end of the list of
the nearest centroid. -/
def addWithIds (F : Faiss nCells δ) (lists : Fin nCells → List Entry) (v : List F32)
    (num : Nat) : Fin nCells → List Entry :=
  match F.nearest v with
  | none => lists
  | some c => Function.update lists c (lists c ++ [⟨num, v⟩])

theorem assign_length (F : Faiss nCells δ) (v : List F32) (k : Nat) :
    (F.assign v k).length = k := by
  rw [assign]
  refine padLabels_length ?_
  rw [List.length_map, List.length_take]
  exact Nat.min_le_left k _

/-- Each query's labels stand at its own multiple of `k`. -/
theorem quantizerSearch_row {F : Faiss nCells δ} {n k : Nat} {xq : List F32}
    {labels : List Int} (h : F.quantizerSearch n xq k = .ok labels) {i : Nat}
    (hi : i < n) :
    rowAt k i labels = F.assign (F.query xq i) k := by
  rw [quantizerSearch_eq] at h
  split at h
  · exact absurd h (by simp)
  split at h
  · rw [Except.ok.injEq] at h
    subst h
    have hrows : ∀ j, ((List.range j).flatMap
        (fun i => F.assign (F.query xq i) k)).length = j * k := by
      intro j
      simp [List.length_flatMap, assign_length]
    obtain ⟨m, rfl⟩ : ∃ m, n = i + (m + 1) := ⟨n - i - 1, by omega⟩
    rw [rowAt, List.range_add, List.flatMap_append, List.drop_left' (hrows i),
      List.range_succ_eq_map, List.map_cons, List.flatMap_cons, Nat.add_zero,
      List.take_left' (assign_length F _ k)]
  · exact absurd h (by simp)

/-- The label of a cell among the `k` nearest stands among the labels. -/
theorem assign_eq_append (F : Faiss nCells δ) (v : List F32) (k : Nat) :
    F.assign v k = ((F.ranked v).take k).map (fun c => (c.val : Int)) ++
      List.replicate (k - ((F.ranked v).take k).length) (-1) := by
  rw [assign, padLabels, List.length_map]

end Faiss

/-- An index that ranks, measures and selects by the functions it is given. -/
def Faiss.exact {nCells : Nat} (d : Nat) (ranked : List F32 → List (Fin nCells))
    (hranked : ∀ v, (ranked v).Nodup) (distance : List F32 → List F32 → Nat) :
    Faiss nCells Nat where
  d := d
  ranked := ranked
  ranked_nodup := hranked
  centroids := List.replicate (nCells * d) 0
  distance := distance
  best := fun q k entries => select (fun e => distance q e.vec) k entries
  best_spec := fun q k entries => isTopK_select (fun e => distance q e.vec) k entries

/-- The index for which the cells come in the same order for every vector, and
any two different vectors are equally far from each other. -/
def Faiss.discrete (nCells d : Nat) : Faiss nCells Nat :=
  Faiss.exact d (fun _ => List.finRange nCells) (fun _ => List.nodup_finRange nCells)
    (fun a b => if a = b then 0 else 1)

end Periplus.Ports
