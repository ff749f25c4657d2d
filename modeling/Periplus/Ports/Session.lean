import Periplus.Ports.Cache

/-!
# `session.cpp`: commands read from a socket

A session alternates between three reads: until a delimiter, for the static part
of the arguments, and for the dynamic part.  Each read is started by one handler
and completed by the next; what runs in between belongs to other sessions.

A read of the socket may take any part of what has arrived, and asio decides which
(`async_read_until` asks for so many bytes as the buffer has room for).  The socket is
therefore the sequence of the portions that the next reads take: `async_read_until`
appends one portion after the other to the buffer until it holds the delimiter, and
`transfer_exactly(n)` appends `n` bytes and leaves the rest of a portion in the socket.

The handler that is to complete the static part holds a reference to the parameter of
`read_args`.  It runs after `read_args` has returned, so it has no defined result.

A handler can end with a fault after the cache was asked to carry out a command,
so it returns the events up to there beside its result.
-/

namespace Periplus.Ports

open Periplus.Verified.Memory
open Periplus.Verified.Reader

/-! ## The read operations of the socket -/

/-- "\r\n" is somewhere in the buffer. -/
def hasDelimiter : Bytes → Bool
  | [] => false
  | [_] => false
  | a :: b :: bs => (a == 0x0D && b == 0x0A) || hasDelimiter (b :: bs)

/-- `async_read_until`: the buffer and what is left of the portions when it
completes. -/
def readUntil (buffer : Bytes) : List Bytes → Option (Bytes × List Bytes)
  | [] => if hasDelimiter buffer then some (buffer, []) else none
  | portion :: portions =>
      if hasDelimiter buffer then some (buffer, portion :: portions)
      else readUntil (buffer ++ portion) portions

/-- `transfer_exactly(n)`. -/
def transferExactly (n : Nat) (buffer : Bytes) : List Bytes → Option (Bytes × List Bytes)
  | [] => if n = 0 then some (buffer, []) else none
  | portion :: portions =>
      if n ≤ portion.length then some (buffer ++ portion.take n, portion.drop n :: portions)
      else transferExactly (n - portion.length) (buffer ++ portion) portions

/-- `std::getline`. -/
def getline : Parser Bytes := fun s =>
  .ok (s.rest.takeWhile (· ≠ 0x0A), { s with rest := (s.rest.dropWhile (· ≠ 0x0A)).drop 1 })

/-- `command.pop_back()` after a carriage return. -/
def popCarriageReturn (command : Bytes) : Bytes :=
  if command.getLast? = some 0x0D then command.dropLast else command

/-- The command line, as the completion handler of `read_command` takes it. -/
def getCommand : Parser Bytes := popCarriageReturn <$> getline

/-! ## The handlers -/

/-- The read operation a session has started. -/
inductive Pending
  | command
  | staticArgs (n : Nat)
  | dynamicArgs (n : Nat)
  deriving DecidableEq, Repr

structure Session where
  inputStream : IStream
  args : Option Args
  pending : Pending
  /-- The bytes that have arrived and have not been read, in the portions that reads take. -/
  socket : List Bytes
  /-- The writes started so far. -/
  written : List Write

namespace Session

/-- A session after `start()`. -/
def start : Session where
  inputStream := ⟨[], []⟩
  args := none
  pending := .command
  socket := []
  written := []

/-- `input_stream.size()`. -/
def buffered (s : Session) : Nat := s.inputStream.rest.length

end Session

/-- What a handler asks of the cache. -/
inductive Event
  /-- `processCommand` has accepted a command line. -/
  | accepted (command : Bytes)
  /-- `process_args` is called, with the status at that moment and whether the core
  is trained. -/
  | executed (args : Args) (status : Status) (trained : Bool)
  deriving DecidableEq, Repr

/-- The events of a handler, and how it came back. -/
abbrev Handled (δ : Type) [LinearOrder δ] := List Event × Except Fault (Session × Cache δ)

variable {δ : Type} [LinearOrder δ]

/-- `cache->process_args(self)`, which ends with `session->read_command()`. -/
def executeArgs (env : Environment δ) (s : Session) (args : Args) (c : Cache δ) : Handled δ :=
  ([.executed args c.status c.isTrained],
    match c.processArgs env args with
    | .error f => .error f
    | .ok (c, writes) =>
        .ok ({ s with pending := .command, written := s.written ++ writes }, c))

/-- `deserialize_dynamic`, then `process_args`. -/
def onDynamicArgs (env : Environment δ) (s : Session) (args : Args) (c : Cache δ) :
    Handled δ :=
  match args.deserializeDynamic s.inputStream with
  | .error f => ([], .error f)
  | .ok (args, is) => executeArgs env { s with args := some args, inputStream := is } args c

/-- The number of bytes a session waits for before `deserialize_dynamic`. -/
def dynamicSize (args : Args) : Nat := (args.size + 2) % 2 ^ 64

/-- `Session::read_dynamic_args`. -/
def readDynamicArgs (env : Environment δ) (s : Session) (args : Args) (c : Cache δ) :
    Handled δ :=
  if dynamicSize args ≤ s.buffered then onDynamicArgs env s args c
  else ([], .ok ({ s with pending := .dynamicArgs (dynamicSize args - s.buffered) }, c))

/-- `deserialize_static`, then `read_dynamic_args`. -/
def onStaticArgs (env : Environment δ) (s : Session) (args : Args) (c : Cache δ) :
    Handled δ :=
  match args.deserializeStatic s.inputStream with
  | .error f => ([], .error f)
  | .ok (args, is) => readDynamicArgs env { s with args := some args, inputStream := is } args c

/-- `Session::read_args`. -/
def readArgs (env : Environment δ) (s : Session) (args : Args) (c : Cache δ) : Handled δ :=
  if args.getStaticSize ≤ s.buffered then
    onStaticArgs env { s with args := some args } args c
  else
    ([], .ok ({ s with
      args := some args
      pending := .staticArgs (args.getStaticSize - s.buffered) }, c))

/-- The completion handler of `read_command`, and `processCommand`. -/
def onCommand (env : Environment δ) (s : Session) (c : Cache δ) : Handled δ :=
  match getCommand s.inputStream with
  | .error f => ([], .error f)
  | .ok (command, is) =>
      match c.processCommand command with
      | .error f => ([], .error f)
      | .ok args =>
          let (events, result) := readArgs env { s with inputStream := is } args c
          (.accepted command :: events, result)

/-- The session with the pending read completed, when enough has arrived. -/
def Session.receive (s : Session) : Option Session :=
  let taken := match s.pending with
    | .command => readUntil s.inputStream.rest s.socket
    | .staticArgs n => transferExactly n s.inputStream.rest s.socket
    | .dynamicArgs n => transferExactly n s.inputStream.rest s.socket
  taken.map (fun r => { s with inputStream := { s.inputStream with rest := r.1 }, socket := r.2 })

/-- The completion handler of `read_args`.  Behind `deserialize_static` it copies the
`args` of `read_args`, of which it has no more than a reference. -/
def onStaticReceived (s : Session) (args : Args) : Handled δ :=
  match args.deserializeStatic s.inputStream with
  | .error f => ([], .error f)
  | .ok _ => ([], .error .danglingReference)

/-- The completion handler of the pending read. -/
def onReceived (env : Environment δ) (s : Session) (c : Cache δ) : Handled δ :=
  match s.pending, s.args with
  | .command, _ => onCommand env s c
  | .staticArgs _, some args => onStaticReceived s args
  | .dynamicArgs _, some args => onDynamicArgs env s args c
  | .staticArgs _, none => ([], .error .outOfBounds)
  | .dynamicArgs _, none => ([], .error .outOfBounds)

/-- At most `fuel` handlers of one session, until a read cannot be completed. -/
def serve (env : Environment δ) : (fuel : Nat) → Session → Cache δ → Handled δ
  | 0, s, c => ([], .ok (s, c))
  | fuel + 1, s, c =>
      match s.receive with
      | none => ([], .ok (s, c))
      | some s =>
          match onReceived env s c with
          | (events, .error f) => (events, .error f)
          | (events, .ok (s, c)) =>
              let (later, result) := serve env fuel s c
              (events ++ later, result)

end Periplus.Ports
