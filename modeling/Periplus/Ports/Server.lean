import Periplus.Ports.CacheRuns
import Periplus.Ports.Session

/-!
# `server.cpp`, `driver.cpp`: any number of sessions on one cache

One thread runs the event loop, so handlers do not overlap: a step of the server is
the arrival of a segment at one session, or the completion handler of one session's
pending read.  Between the two the system may hand out what has arrived in any other
portions, since a read takes any part of it.  The order of the steps is arbitrary.

An exception or a failed assertion in a handler ends the process.  What the handlers
asked of the cache is recorded, with the session, in the order in which it happened.

## Main results

* `processCommand_spec`, `processArgs_status` — what the cache lets pass, and what a
  command does to the status.
* `onCommand_spec`, `onReceived_reads` — the events of a completion handler: a command
  line is accepted, complete arguments are executed, and nothing else happens to the
  cache.
-/

namespace Periplus.Ports

open Periplus.Verified.Reader
open Periplus.Verified.Run

/-- What has arrived is handed out in these portions. -/
def Session.portioned (s : Session) (portions : List Bytes) : Session :=
  if portions.flatten = s.socket.flatten then { s with socket := portions } else s

theorem Session.portioned_eq (s : Session) (portions : List Bytes) :
    ∃ socket, socket.flatten = s.socket.flatten ∧
      s.portioned portions = { s with socket := socket } := by
  unfold portioned
  split
  · next h => exact ⟨portions, h, rfl⟩
  · exact ⟨s.socket, rfl, rfl⟩

/-- The server, with a session for each number. -/
structure Server (δ : Type) [LinearOrder δ] where
  sessions : Nat → Session
  cache : Cache δ
  trace : List (Nat × Event)
  /-- What ended the process. -/
  down : Option Fault

/-- A step of the event loop, or of the system below it. -/
inductive Input
  | arrives (i : Nat) (segment : Bytes)
  /-- The next reads of session `i` take what has arrived in these portions. -/
  | hands (i : Nat) (portions : List Bytes)
  | completes (i : Nat)
  deriving DecidableEq, Repr

namespace Server

variable {δ : Type} [LinearOrder δ]

def start : Server δ where
  sessions := fun _ => Session.start
  cache := Cache.new
  trace := []
  down := none

/-- What is left when a handler of session `i` comes back. -/
def finish (i : Nat) (h : Handled δ) (w : Server δ) : Server δ :=
  match h with
  | (events, .error f) => { w with
      trace := w.trace ++ events.map (fun e => (i, e))
      down := some f }
  | (events, .ok (s, c)) => { w with
      sessions := Function.update w.sessions i s
      cache := c
      trace := w.trace ++ events.map (fun e => (i, e)) }

/-- The completion handler of session `i`, when its read can be completed. -/
def complete (env : Environment δ) (i : Nat) (w : Server δ) : Server δ :=
  match (w.sessions i).receive with
  | none => w
  | some s => w.finish i (onReceived env s w.cache)

def step (env : Environment δ) (w : Server δ) (input : Input) : Server δ :=
  if w.down.isSome then w
  else
    match input with
    | .arrives i segment => { w with
        sessions := Function.update w.sessions i
          { w.sessions i with socket := (w.sessions i).socket ++ [segment] } }
    | .hands i portions => { w with
        sessions := Function.update w.sessions i ((w.sessions i).portioned portions) }
    | .completes i => w.complete env i

def run (env : Environment δ) (inputs : List Input) : Server δ :=
  inputs.foldl (step env) start

end Server

/-! ## What the cache lets pass -/

/-- The commands that need a trained core. -/
def Command.needsReady : Command → Bool
  | .INITIALIZE => false
  | .TRAIN => false
  | .LOAD => true
  | .SEARCH => true
  | .EVICT => true
  | .ADD => true

namespace Cache

variable {δ : Type} [LinearOrder δ]

/-- What `processCommand` has compared. -/
def Admits (status : Status) (command : Command) : Prop :=
  (command.needsReady = true → status = .READY) ∧
    (command = .TRAIN → status = .INITIALIZED ∨ status = .READY)

theorem matchUninitialized_spec {command : Bytes} {args : Args}
    (h : matchUninitialized command = .ok args) :
    args = Command.newArgs .INITIALIZE ∧ command = Command.name .INITIALIZE := by
  rw [matchUninitialized] at h
  split at h
  · next hname => exact ⟨(Except.ok.inj h).symm, hname⟩
  · exact absurd h (by simp)

theorem matchInitialized_spec {command : Bytes} {args : Args}
    (h : matchInitialized command = .ok args) :
    ∃ cmd : Command, args = cmd.newArgs ∧ command = cmd.name ∧ cmd.needsReady = false := by
  rw [matchInitialized] at h
  split at h
  · next hname => exact ⟨.TRAIN, (Except.ok.inj h).symm, hname, rfl⟩
  · obtain ⟨hargs, hname⟩ := matchUninitialized_spec h
    exact ⟨.INITIALIZE, hargs, hname, rfl⟩

theorem matchReady_spec {command : Bytes} {args : Args} (h : matchReady command = .ok args) :
    ∃ cmd : Command, args = cmd.newArgs ∧ command = cmd.name := by
  rw [matchReady] at h
  split at h
  · next hname => exact ⟨.SEARCH, (Except.ok.inj h).symm, hname⟩
  split at h
  · next hname => exact ⟨.ADD, (Except.ok.inj h).symm, hname⟩
  split at h
  · next hname => exact ⟨.LOAD, (Except.ok.inj h).symm, hname⟩
  split at h
  · next hname => exact ⟨.EVICT, (Except.ok.inj h).symm, hname⟩
  · obtain ⟨cmd, hargs, hname, _⟩ := matchInitialized_spec h
    exact ⟨cmd, hargs, hname⟩

/-- A command that is let pass is one of the six, and the status admits it. -/
theorem processCommand_spec {c : Cache δ} {command : Bytes} {args : Args}
    (h : c.processCommand command = .ok args) :
    ∃ cmd : Command, args = cmd.newArgs ∧ command = cmd.name ∧ Admits c.status cmd := by
  rw [processCommand] at h
  split at h
  · next hstatus =>
      obtain ⟨cmd, hargs, hname⟩ := matchReady_spec h
      exact ⟨cmd, hargs, hname, fun _ => hstatus, fun _ => Or.inr hstatus⟩
  · next hstatus =>
      obtain ⟨cmd, hargs, hname, hneeds⟩ := matchInitialized_spec h
      refine ⟨cmd, hargs, hname, fun hready => ?_, fun _ => Or.inl hstatus⟩
      rw [hneeds] at hready
      exact absurd hready (by decide)
  · obtain ⟨hargs, hname⟩ := matchUninitialized_spec h
    exact ⟨.INITIALIZE, hargs, hname, fun h => absurd h (by decide), fun h => absurd h (by decide)⟩
  · exact absurd h (by simp)

/-- The status that a command leaves. -/
def statusAfter (status : Status) : Command → Status
  | .INITIALIZE => .INITIALIZED
  | .TRAIN => .READY
  | .LOAD => status
  | .SEARCH => status
  | .EVICT => status
  | .ADD => status

/-- The core is trained when the status says so. -/
def Sound (c : Cache δ) : Prop := c.status = .READY → c.isTrained = true

theorem statusAfter_of_operation {status : Status} {command : Command}
    (hinit : command ≠ .INITIALIZE) (htrain : command ≠ .TRAIN) :
    statusAfter status command = status := by
  cases command with
  | INITIALIZE => exact absurd rfl hinit
  | TRAIN => exact absurd rfl htrain
  | LOAD => rfl
  | SEARCH => rfl
  | EVICT => rfl
  | ADD => rfl

/-- An operation on the tables of the core leaves the status and the index alone. -/
theorem dispatch_status {env : Environment δ} {args : Args} {c c' : Cache δ}
    {writes : List Write} (hsound : c.Sound) (h : c.dispatch env args = .ok (c', writes)) :
    c'.status = statusAfter c.status args.getCommand ∧ c'.Sound := by
  cases dispatch_cases h with
  | construct a core hargs _ =>
      rw [hargs]
      exact ⟨rfl, fun hready => absurd hready (by simp)⟩
  | train a core core' hargs _ _ _ htrained =>
      rw [hargs]
      exact ⟨rfl, fun _ => htrained⟩
  | operate core op tables hinit htrain hcore _ _ =>
      rw [statusAfter_of_operation hinit htrain]
      apply And.intro rfl
      intro hready
      have htrained := hsound hready
      rw [isTrained, hcore] at htrained
      exact htrained

theorem processArgs_status {env : Environment δ} {args : Args} {c c' : Cache δ}
    {writes : List Write} (hsound : c.Sound)
    (h : c.processArgs env args = .ok (c', writes)) :
    c'.status = statusAfter c.status args.getCommand ∧ c'.Sound := by
  obtain ⟨⟨c₁, ws⟩, hrun, h⟩ := bind_eq_ok.mp h
  simp only [Except.ok.injEq, Prod.mk.injEq] at h
  obtain ⟨rfl, -⟩ := h
  obtain ⟨hstatus, hsound'⟩ := dispatch_status hsound hrun
  exact ⟨hstatus, hsound'⟩

end Cache

/-! ## The events of a handler -/

theorem getCommand_newArgs (command : Command) : command.newArgs.getCommand = command := by
  cases command <;> rfl

/-- A parser of a kind of arguments keeps the kind. -/
private theorem map_eq_ok_getCommand {α : Type} {p : Parser α} (f : α → Args)
    {command : Command} (hf : ∀ a, (f a).getCommand = command) {is is' : IStream} {args : Args}
    (h : (f <$> p) is = .ok (args, is')) : args.getCommand = command := by
  obtain ⟨⟨a, is₁⟩, -, h⟩ := bind_eq_ok.mp (show (p is >>= fun r => .ok (f r.1, r.2)) = _ from h)
  simp only [Except.ok.injEq, Prod.mk.injEq] at h
  rw [← h.1, hf]

theorem deserializeStatic_getCommand {args args' : Args} {is is' : IStream}
    (h : args.deserializeStatic is = .ok (args', is')) : args'.getCommand = args.getCommand := by
  cases args with
  | initializeArgs a => exact map_eq_ok_getCommand .initializeArgs (fun _ => rfl) h
  | trainArgs a => exact map_eq_ok_getCommand .trainArgs (fun _ => rfl) h
  | loadArgs a => exact map_eq_ok_getCommand .loadArgs (fun _ => rfl) h
  | searchArgs a => exact map_eq_ok_getCommand .searchArgs (fun _ => rfl) h
  | evictArgs a => exact map_eq_ok_getCommand .evictArgs (fun _ => rfl) h
  | addArgs a => exact map_eq_ok_getCommand .addArgs (fun _ => rfl) h

theorem deserializeDynamic_getCommand {args args' : Args} {is is' : IStream}
    (h : args.deserializeDynamic is = .ok (args', is')) :
    args'.getCommand = args.getCommand := by
  cases args with
  | initializeArgs a => exact map_eq_ok_getCommand .initializeArgs (fun _ => rfl) h
  | trainArgs a => exact map_eq_ok_getCommand .trainArgs (fun _ => rfl) h
  | loadArgs a => exact map_eq_ok_getCommand .loadArgs (fun _ => rfl) h
  | searchArgs a => exact map_eq_ok_getCommand .searchArgs (fun _ => rfl) h
  | evictArgs a => exact map_eq_ok_getCommand .evictArgs (fun _ => rfl) h
  | addArgs a => exact map_eq_ok_getCommand .addArgs (fun _ => rfl) h

variable {δ : Type} [LinearOrder δ]

/-- The arguments of a command are still incomplete. -/
def Session.Awaits (s : Session) (command : Command) : Prop :=
  s.pending ≠ .command ∧ ∃ args, s.args = some args ∧ args.getCommand = command

/-- Arguments are being read: they are complete and are executed, or they are not and
the cache is as it was. -/
def Reads (env : Environment δ) (command : Command) (c : Cache δ) (h : Handled δ) : Prop :=
  (h.1 = [] ∧ ∀ s' c', h.2 = .ok (s', c') → c' = c ∧ s'.Awaits command) ∨
    ∃ args : Args, args.getCommand = command ∧
      h.1 = [.executed args c.status c.isTrained] ∧
      ∀ s' c', h.2 = .ok (s', c') → s'.pending = .command ∧
        ∃ writes, c.processArgs env args = .ok (c', writes)

theorem reads_error (env : Environment δ) (command : Command) (c : Cache δ) (f : Fault) :
    Reads env command c ([], .error f) :=
  Or.inl ⟨rfl, fun _ _ h => absurd h (by simp)⟩

theorem executeArgs_reads (env : Environment δ) (s : Session) (args : Args) (c : Cache δ) :
    Reads env args.getCommand c (executeArgs env s args c) := by
  refine Or.inr ⟨args, rfl, rfl, fun s' c' h => ?_⟩
  simp only [executeArgs] at h
  split at h
  · exact absurd h (by simp)
  · next hrun =>
      simp only [Except.ok.injEq, Prod.mk.injEq] at h
      obtain ⟨rfl, rfl⟩ := h
      exact ⟨rfl, _, hrun⟩

theorem onDynamicArgs_reads (env : Environment δ) (s : Session) (args : Args) (c : Cache δ) :
    Reads env args.getCommand c (onDynamicArgs env s args c) := by
  unfold onDynamicArgs
  split
  · exact reads_error env _ c _
  · next hparse =>
      rw [← deserializeDynamic_getCommand hparse]
      exact executeArgs_reads env _ _ c

theorem readDynamicArgs_reads (env : Environment δ) {s : Session} {args : Args} (c : Cache δ)
    (hargs : s.args = some args) :
    Reads env args.getCommand c (readDynamicArgs env s args c) := by
  unfold readDynamicArgs
  split
  · exact onDynamicArgs_reads env s args c
  · refine Or.inl ⟨rfl, fun s' c' h => ?_⟩
    simp only [Except.ok.injEq, Prod.mk.injEq] at h
    obtain ⟨rfl, rfl⟩ := h
    exact ⟨rfl, by simp, args, hargs, rfl⟩

theorem onStaticArgs_reads (env : Environment δ) (s : Session) (args : Args) (c : Cache δ) :
    Reads env args.getCommand c (onStaticArgs env s args c) := by
  unfold onStaticArgs
  split
  · exact reads_error env _ c _
  · next hparse =>
      rw [← deserializeStatic_getCommand hparse]
      exact readDynamicArgs_reads env c rfl

theorem readArgs_reads (env : Environment δ) (s : Session) (args : Args) (c : Cache δ) :
    Reads env args.getCommand c (readArgs env s args c) := by
  unfold readArgs
  split
  · exact onStaticArgs_reads env _ args c
  · refine Or.inl ⟨rfl, fun s' c' h => ?_⟩
    simp only [Except.ok.injEq, Prod.mk.injEq] at h
    obtain ⟨rfl, rfl⟩ := h
    exact ⟨rfl, by simp, args, rfl, rfl⟩

/-- A command line is not accepted, or it is and its arguments are being read. -/
theorem onCommand_spec (env : Environment δ) (s : Session) (c : Cache δ) :
    (∃ f, onCommand env s c = ([], .error f)) ∨
      ∃ command h, Cache.Admits c.status command ∧ Reads env command c h ∧
        onCommand env s c = (.accepted command.name :: h.1, h.2) := by
  unfold onCommand
  split
  · exact Or.inl ⟨_, rfl⟩
  · next line is hline =>
      split
      · exact Or.inl ⟨_, rfl⟩
      · next hpass =>
          obtain ⟨command, rfl, rfl, hadmits⟩ := Cache.processCommand_spec hpass
          have hreads := readArgs_reads env { s with inputStream := is } command.newArgs c
          rw [getCommand_newArgs] at hreads
          exact Or.inr ⟨command, _, hadmits, hreads, rfl⟩

/-- The handler that has waited for the static part does not come back. -/
theorem onStaticReceived_error (s : Session) (args : Args) :
    ∃ f, (onStaticReceived s args : Handled δ) = ([], .error f) := by
  unfold onStaticReceived
  split
  · exact ⟨_, rfl⟩
  · exact ⟨_, rfl⟩

/-- The handler of a session whose arguments are incomplete goes on reading them. -/
theorem onReceived_reads (env : Environment δ) {s : Session} {command : Command} (c : Cache δ)
    (h : s.Awaits command) : Reads env command c (onReceived env s c) := by
  obtain ⟨hpending, args, hargs, rfl⟩ := h
  unfold onReceived
  cases hp : s.pending with
  | command => exact absurd hp hpending
  | staticArgs n =>
      simp only [hargs]
      obtain ⟨f, herror⟩ := onStaticReceived_error (δ := δ) s args
      rw [herror]
      exact reads_error env _ c f
  | dynamicArgs n =>
      simp only [hargs]
      exact onDynamicArgs_reads env s args c

theorem onReceived_command (env : Environment δ) {s : Session} (c : Cache δ)
    (h : s.pending = .command) : onReceived env s c = onCommand env s c := by
  unfold onReceived
  rw [h]

/-- A completed read leaves what the session is waiting for as it is. -/
theorem receive_frame {s s' : Session} (h : s.receive = some s') :
    s'.pending = s.pending ∧ s'.args = s.args := by
  obtain ⟨r, -, rfl⟩ := Option.map_eq_some_iff.mp h
  exact ⟨rfl, rfl⟩

end Periplus.Ports
