import Periplus.Verified.Run

/-!
# How an operation can fail to come back

Assertions are compiled in (no build type sets `NDEBUG`), and an exception
other than `HttpException` is caught nowhere between the operation that throws
it and the thread that runs the event loop, so each of the following ends the
server, as does a division by zero.  An access outside of an array, of an object
that was never written, or of one that is gone, has no defined result.  In none of
these cases is there a next state.
-/

namespace Periplus.Ports

/-- The `assert` statements of the source, and RapidJSON's own. -/
inductive Assertion
  /-- `core.cpp` `loadCell`, `db_client.cpp` `search`: the slot has an embedding. -/
  | embeddingNotNull
  /-- `core.cpp` `loadCell`: the returned id is in `id_map`. -/
  | idRegistered
  /-- `core.cpp` `loadCell`: the number is not in `data_map` yet. -/
  | notInDataMap
  /-- `core.cpp` `search`: the returned label is in `data_map`. -/
  | labelInDataMap
  /-- `core.cpp` `add`: the id is terminated within its first 100 bytes. -/
  | idNullTerminated
  /-- `cache.cpp` `train`: the index is trained. -/
  | indexTrained
  /-- RapidJSON: a member is looked up in a value that is not an object. -/
  | isObject
  deriving DecidableEq, Repr

/-- The exceptions that reach the event loop. -/
inductive Uncaught
  /-- FAISS: a search for zero neighbours. -/
  | noNeighbours
  /-- `core.cpp` `evictCell`: "Eviciting a cell not in residence". -/
  | notInResidence
  /-- `std::string` constructed from a null pointer. -/
  | nullString
  /-- `cache.cpp` `processCommand`: "Invalid command". -/
  | invalidCommand
  /-- `args.h` `read_arg`: the bare `throw;` after a short read. -/
  | shortRead
  /-- FAISS: the subquantizers do not divide the dimension. -/
  | subquantizers
  /-- FAISS: k-means with fewer points than clusters. -/
  | fewPoints
  deriving DecidableEq, Repr

/-- Why an operation leaves no state behind. -/
inductive Fault
  | assertion (which : Assertion)
  | exception (which : Uncaught)
  | outOfBounds
  | indeterminate
  /-- `cache.cpp` `train`: the number of vectors is divided by the dimension. -/
  | divisionByZero
  /-- `session.cpp` `read_args`: a handler copies the parameter of a call that has returned. -/
  | danglingReference
  deriving DecidableEq, Repr

/-- An access that is out of bounds when there is nothing there. -/
def bounded {α : Type} : Option α → Except Fault α
  | some a => .ok a
  | none => .error .outOfBounds

@[simp] theorem bounded_some {α : Type} (a : α) : bounded (some a) = .ok a := rfl

@[simp] theorem bounded_none {α : Type} :
    bounded (none : Option α) = .error .outOfBounds := rfl

theorem bounded_eq_ok {α : Type} {x : Option α} {a : α} :
    bounded x = .ok a ↔ x = some a := by
  cases x <;> simp

end Periplus.Ports
