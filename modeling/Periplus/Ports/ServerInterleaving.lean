import Periplus.Ports.ClientFrames
import Periplus.Ports.Server

/-!
# The status in which commands execute

The status is compared when a command line is accepted, and the command executes
when its arguments are complete.  In between, other sessions may have carried out
whole commands: what the comparison has established still holds unless the last
set-up command among them was INITIALIZE.

`Chronicle` carries the argument: when a command executes, the status is the one
that the set-up commands before it have left, and it is the admitted one unless a
set-up command has been carried out since the command line was accepted.

## Main results

* `inv_run` — the invariant of every run.
* `executed_allowed_iff` — all commands of a run execute in a status that allows them
  exactly when none was overtaken by an INITIALIZE.
-/

namespace Periplus.Ports

open Periplus.Verified.Run

/-! ## What a trace says about the status -/

/-- The commands that set up the core. -/
def Command.isSetup : Command → Bool
  | .INITIALIZE => true
  | .TRAIN => true
  | .LOAD => false
  | .SEARCH => false
  | .EVICT => false
  | .ADD => false

def Event.statusAfter (status : Status) : Event → Status
  | .accepted _ => status
  | .executed args _ _ => Cache.statusAfter status args.getCommand

/-- The status that the commands of a trace leave. -/
def statusOf (trace : List (Nat × Event)) : Status :=
  trace.foldl (fun status e => e.2.statusAfter status) .UNINITIALIZED

/-- The last set-up command since the last command line of session `i`, given the one
before an event. -/
def Event.setupSince (own : Bool) (last : Option Command) : Event → Option Command
  | .accepted _ => if own then none else last
  | .executed args _ _ => if args.getCommand.isSetup then some args.getCommand else last

/-- The last set-up command carried out since a command line of session `i` was
accepted. -/
def setupSince (i : Nat) (trace : List (Nat × Event)) : Option Command :=
  trace.foldl (fun last e => e.2.setupSince (e.1 == i) last) none

theorem statusOf_concat (trace : List (Nat × Event)) (e : Nat × Event) :
    statusOf (trace ++ [e]) = e.2.statusAfter (statusOf trace) := by
  rw [statusOf, List.foldl_append]
  rfl

theorem setupSince_concat (i : Nat) (trace : List (Nat × Event)) (e : Nat × Event) :
    setupSince i (trace ++ [e]) = e.2.setupSince (e.1 == i) (setupSince i trace) := by
  rw [setupSince, List.foldl_append]
  rfl

/-- What a set-up command leaves is still the status. -/
theorem statusOf_of_setupSince {i : Nat} {trace : List (Nat × Event)} {command : Command}
    (h : setupSince i trace = some command) :
    statusOf trace = Cache.statusAfter .UNINITIALIZED command ∧ command.isSetup = true := by
  induction trace using List.reverseRecOn with
  | nil => exact absurd h (by simp [setupSince])
  | append_singleton trace e ih =>
      rw [setupSince_concat] at h
      rw [statusOf_concat]
      cases he : e.2 with
      | accepted line =>
          rw [he, Event.setupSince] at h
          split at h
          · exact absurd h (by simp)
          · exact ih h
      | executed args status trained =>
          rw [he, Event.setupSince] at h
          rw [Event.statusAfter]
          cases hc : args.getCommand <;> rw [hc] at h
          case INITIALIZE =>
            rw [Command.isSetup, if_pos rfl, Option.some.injEq] at h
            rw [← h]
            exact ⟨rfl, rfl⟩
          case TRAIN =>
            rw [Command.isSetup, if_pos rfl, Option.some.injEq] at h
            rw [← h]
            exact ⟨rfl, rfl⟩
          all_goals exact ih h

/-! ## The invariant -/

/-- What the comparison for a command of session `i` has established, while its
arguments are read. -/
def StillAdmitted (i : Nat) (command : Command) (trace : List (Nat × Event)) : Prop :=
  (command.needsReady = true → setupSince i trace = none → statusOf trace = .READY) ∧
    (command = .TRAIN → statusOf trace = .INITIALIZED ∨ statusOf trace = .READY)

/-- What is true of an event when it happens. -/
def Happens (past : List (Nat × Event)) : Nat × Event → Prop
  | (_, .accepted _) => True
  | (i, .executed args status trained) =>
      status = statusOf past ∧ (status = .READY → trained = true) ∧
        StillAdmitted i args.getCommand past

/-- The events of other sessions do not invalidate it, other than by a set-up. -/
theorem StillAdmitted.other {i j : Nat} {command : Command} {trace : List (Nat × Event)}
    (h : StillAdmitted i command trace) (hij : j ≠ i) (e : Event) :
    StillAdmitted i command (trace ++ [(j, e)]) := by
  rw [StillAdmitted, setupSince_concat, statusOf_concat]
  cases e with
  | accepted line =>
      rw [Event.setupSince, beq_eq_false_iff_ne.mpr hij]
      exact h
  | executed args status trained =>
      rw [Event.setupSince, Event.statusAfter]
      cases hc : args.getCommand
      case INITIALIZE =>
        exact ⟨fun _ h => absurd h (by simp [Command.isSetup]), fun _ => Or.inl rfl⟩
      case TRAIN => exact ⟨fun _ _ => rfl, fun _ => Or.inr rfl⟩
      all_goals exact h

theorem stillAdmitted_of_admits {i : Nat} {command : Command} {trace : List (Nat × Event)}
    (h : Cache.Admits (statusOf trace) command) (line : Bytes) :
    StillAdmitted i command (trace ++ [(i, .accepted line)]) := by
  rw [StillAdmitted, statusOf_concat]
  exact ⟨fun hready _ => h.1 hready, h.2⟩

variable {δ : Type} [LinearOrder δ]

/-- A session waits for a command line, or for the arguments of a command that was
admitted. -/
def SessionInv (i : Nat) (s : Session) (trace : List (Nat × Event)) : Prop :=
  s.pending = .command ∨ ∃ command, s.Awaits command ∧ StillAdmitted i command trace

structure ServerInv (w : Server δ) : Prop where
  chronicle : Chronicle Happens w.trace
  sound : w.cache.Sound
  status : w.down = none → w.cache.status = statusOf w.trace
  sessions : w.down = none → ∀ i, SessionInv i (w.sessions i) w.trace

theorem serverInv_start : ServerInv (Server.start : Server δ) where
  chronicle := .nil
  sound := fun h => absurd h (by simp [Server.start, Cache.new])
  status := fun _ => rfl
  sessions := fun _ _ => Or.inl rfl

theorem SessionInv.other {i j : Nat} {s : Session} {trace : List (Nat × Event)}
    (h : SessionInv i s trace) (hij : j ≠ i) (e : Event) :
    SessionInv i s (trace ++ [(j, e)]) := by
  rcases h with h | ⟨command, hawaits, hadmitted⟩
  · exact Or.inl h
  · exact Or.inr ⟨command, hawaits, hadmitted.other hij e⟩

/-- A handler that reads the arguments of an admitted command. -/
theorem finish_reads {env : Environment δ} {w : Server δ} {i : Nat} {command : Command}
    {h : Handled δ} (hchronicle : Chronicle Happens w.trace) (hsound : w.cache.Sound)
    (hstatus : w.cache.status = statusOf w.trace)
    (hothers : ∀ j, j ≠ i → SessionInv j (w.sessions j) w.trace)
    (hadmitted : StillAdmitted i command w.trace)
    (hreads : Reads env command w.cache h) : ServerInv (w.finish i h) := by
  obtain ⟨events, result⟩ := h
  rcases hreads with ⟨hnone, hok⟩ | ⟨args, hcommand, hevent, hok⟩
  · -- the arguments are still incomplete
    dsimp only at hnone hok
    subst hnone
    cases result with
    | error f =>
        refine ⟨?_, hsound, fun h => absurd h (by simp [Server.finish]),
          fun h => absurd h (by simp [Server.finish])⟩
        show Chronicle Happens (w.trace ++ [])
        rwa [List.append_nil]
    | ok r =>
        obtain ⟨s', c'⟩ := r
        obtain ⟨rfl, hawaits⟩ := hok s' c' rfl
        have htrace : (w.finish i ([], .ok (s', w.cache))).trace = w.trace := List.append_nil _
        refine ⟨htrace ▸ hchronicle, hsound, fun _ => htrace ▸ hstatus, fun _ j => ?_⟩
        rw [htrace]
        show SessionInv j (Function.update w.sessions i s' j) w.trace
        by_cases hj : j = i
        · rw [hj, Function.update_self]
          exact Or.inr ⟨command, hawaits, hadmitted⟩
        · rw [Function.update_of_ne hj]
          exact hothers j hj
  · -- they are complete and the command is executed
    dsimp only at hevent hok
    subst hevent
    have hhappens : Happens w.trace (i, .executed args w.cache.status w.cache.isTrained) :=
      ⟨hstatus, hsound, by rwa [hcommand]⟩
    have hnext := Chronicle.snoc hchronicle hhappens
    cases result with
    | error f =>
        exact ⟨hnext, hsound, fun h => absurd h (by simp [Server.finish]),
          fun h => absurd h (by simp [Server.finish])⟩
    | ok r =>
        obtain ⟨s', c'⟩ := r
        obtain ⟨hpending, writes, hrun⟩ := hok s' c' rfl
        obtain ⟨hafter, hsound'⟩ := Cache.processArgs_status hsound hrun
        refine ⟨hnext, hsound', fun _ => ?_, fun _ j => ?_⟩
        · show c'.status = statusOf (w.trace ++ [(i, .executed args _ _)])
          rw [statusOf_concat, hafter, hstatus]
          rfl
        · show SessionInv j (Function.update w.sessions i s' j)
            (w.trace ++ [(i, .executed args _ _)])
          by_cases hj : j = i
          · rw [hj, Function.update_self]
            exact Or.inl hpending
          · rw [Function.update_of_ne hj]
            exact (hothers j hj).other (Ne.symm hj) _

theorem finish_error (w : Server δ) (i : Nat) (f : Fault) :
    w.finish i ([], .error f) = { w with down := some f } := by
  show ({ w with trace := w.trace ++ [], down := some f } : Server δ) = _
  rw [List.append_nil]

/-- The first event of a handler can be recorded before the others. -/
theorem finish_cons (w : Server δ) (i : Nat) (e : Event) (h : Handled δ) :
    w.finish i (e :: h.1, h.2) = ({ w with trace := w.trace ++ [(i, e)] } : Server δ).finish i h := by
  obtain ⟨events, result⟩ := h
  cases result with
  | error f =>
      show ({ w with trace := w.trace ++ ((i, e) :: _), down := some f } : Server δ) = _
      rw [List.append_cons]
      rfl
  | ok r =>
      show ({ w with
        sessions := _, cache := _, trace := w.trace ++ ((i, e) :: _) } : Server δ) = _
      rw [List.append_cons]
      rfl

theorem ServerInv.complete {w : Server δ} (env : Environment δ) (hinv : ServerInv w)
    (hup : w.down = none) (i : Nat) : ServerInv (w.complete env i) := by
  have hstatus := hinv.status hup
  have hsessions := hinv.sessions hup
  unfold Server.complete
  split
  · exact hinv
  · next s hs =>
      obtain ⟨hpending, hargs⟩ := receive_frame hs
      rcases hsessions i with hcommand | ⟨command, ⟨hawaits, args, hhas, hkind⟩, hadmitted⟩
      · -- the session has read a command line
        rw [onReceived_command env w.cache (hpending.trans hcommand)]
        rcases onCommand_spec env s w.cache with ⟨f, hf⟩ | ⟨command, h, hadmits, hreads, heq⟩
        · rw [hf, finish_error]
          exact ⟨hinv.chronicle, hinv.sound, fun h => absurd h (by simp),
            fun h => absurd h (by simp)⟩
        · rw [heq, finish_cons]
          refine finish_reads (hinv.chronicle.snoc trivial) hinv.sound ?_ ?_ ?_ hreads
          · show w.cache.status = statusOf (w.trace ++ [(i, .accepted _)])
            rw [statusOf_concat]
            exact hstatus
          · exact fun j hj => (hsessions j).other (Ne.symm hj) _
          · rw [hstatus] at hadmits
            exact stillAdmitted_of_admits hadmits _
      · -- it goes on reading arguments
        have hreads := onReceived_reads env w.cache
          (show s.Awaits command from ⟨hpending ▸ hawaits, args, hargs.trans hhas, hkind⟩)
        exact finish_reads hinv.chronicle hinv.sound hstatus (fun j _ => hsessions j)
          hadmitted hreads

theorem ServerInv.step {w : Server δ} (env : Environment δ) (hinv : ServerInv w)
    (input : Input) : ServerInv (w.step env input) := by
  unfold Server.step
  split
  · exact hinv
  · next hup =>
      rw [Option.not_isSome_iff_eq_none] at hup
      cases input with
      | arrives i segment =>
          refine ⟨hinv.chronicle, hinv.sound, hinv.status, fun _ j => ?_⟩
          show SessionInv j (Function.update w.sessions i _ j) w.trace
          by_cases hj : j = i
          · rw [hj, Function.update_self]
            exact hinv.sessions hup i
          · rw [Function.update_of_ne hj]
            exact hinv.sessions hup j
      | hands i portions =>
          refine ⟨hinv.chronicle, hinv.sound, hinv.status, fun _ j => ?_⟩
          show SessionInv j (Function.update w.sessions i _ j) w.trace
          by_cases hj : j = i
          · obtain ⟨socket, _, hsame⟩ := (w.sessions i).portioned_eq portions
            rw [hj, Function.update_self, hsame]
            exact hinv.sessions hup i
          · rw [Function.update_of_ne hj]
            exact hinv.sessions hup j
      | completes i => exact hinv.complete env hup i

/-- **The invariant holds in every run.** -/
theorem inv_run (env : Environment δ) (inputs : List Input) :
    ServerInv (Server.run env inputs) := by
  induction inputs using List.reverseRecOn with
  | nil => exact serverInv_start
  | append_singleton inputs input ih =>
      rw [Server.run, List.foldl_append]
      exact ih.step env input

/-! ## Overtaking -/

/-- The status allows the command that executes, and the core is trained where it has
to be. -/
def Event.Allowed : Event → Prop
  | .accepted _ => True
  | .executed args status trained =>
      (args.getCommand.needsReady = true → status = .READY ∧ trained = true) ∧
        (args.getCommand = .TRAIN → status = .INITIALIZED ∨ status = .READY)

/-- A SEARCH, ADD, LOAD or EVICT is overtaken: the last set-up command carried out
between its command line and its execution is an INITIALIZE. -/
def Overtaken (trace : List (Nat × Event)) : Prop :=
  ∃ past i args status trained later,
    trace = past ++ (i, .executed args status trained) :: later ∧
      args.getCommand.needsReady = true ∧ setupSince i past = some .INITIALIZE

theorem happens_allowed_iff {past : List (Nat × Event)} {i : Nat} {args : Args}
    {status : Status} {trained : Bool}
    (h : Happens past (i, .executed args status trained)) :
    (Event.executed args status trained).Allowed ↔
      ¬ (args.getCommand.needsReady = true ∧ setupSince i past = some .INITIALIZE) := by
  obtain ⟨hstatus, htrained, hready, htrain⟩ := h
  constructor
  · rintro ⟨hallowed, -⟩ ⟨hneeds, hsince⟩
    have hinitialized := (statusOf_of_setupSince hsince).1
    rw [← hstatus, (hallowed hneeds).1] at hinitialized
    exact absurd hinitialized (by decide)
  · intro hnot
    refine ⟨fun hneeds => ?_, fun h => hstatus ▸ htrain h⟩
    have hisReady : status = .READY := by
      rw [hstatus]
      cases hsince : setupSince i past with
      | none => exact hready hneeds hsince
      | some command =>
          obtain ⟨hleft, hsetup⟩ := statusOf_of_setupSince hsince
          cases command
          case INITIALIZE => exact absurd ⟨hneeds, hsince⟩ hnot
          case TRAIN => exact hleft
          all_goals exact absurd hsetup (by decide)
    exact ⟨hisReady, htrained hisReady⟩

/-- **The status at execution.**  In every run of the server, all commands execute in a
status that allows them exactly when none was overtaken. -/
theorem executed_allowed_iff (env : Environment δ) (inputs : List Input) :
    (∀ e ∈ (Server.run env inputs).trace, e.2.Allowed) ↔
      ¬ Overtaken (Server.run env inputs).trace := by
  have hhappens := chronicle_iff.mp (inv_run env inputs).chronicle
  constructor
  · rintro hall ⟨past, i, args, status, trained, later, hsplit, hneeds, hsince⟩
    have hallowed := hall (i, .executed args status trained) (by rw [hsplit]; simp)
    exact (happens_allowed_iff (hhappens past _ later hsplit)).mp hallowed ⟨hneeds, hsince⟩
  · rintro hnone ⟨i, e⟩ he
    obtain ⟨past, later, hsplit⟩ := List.append_of_mem he
    cases e with
    | accepted line => exact trivial
    | executed args status trained =>
        refine (happens_allowed_iff (hhappens past _ later hsplit)).mpr ?_
        rintro ⟨hneeds, hsince⟩
        exact hnone ⟨past, i, args, status, trained, later, hsplit, hneeds, hsince⟩

/-- What arrives for a call. -/
def bytesOf (call : Call) : Bytes := call.written.getD []

/-- Session 0 initializes and trains; session 1 sends the command line and the count of a
LOAD; session 0 initializes again, and then the vector of the LOAD arrives. -/
def overtakenRun : List Input :=
  [.arrives 0 (bytesOf (.initializeCall 1 ['u'] { nRecords := some 1 })), .completes 0,
    .arrives 0 (bytesOf (.trainCall [[1], [2], [3], [4]])), .completes 0,
    .arrives 1 ((bytesOf (.loadCall [1] none)).take 23), .completes 1,
    .arrives 0 (bytesOf (.initializeCall 1 ['u'] { nRecords := some 1 })), .completes 0,
    .arrives 1 ((bytesOf (.loadCall [1] none)).drop 23), .completes 1]

/-- The LOAD of that run executes on the untrained core. -/
theorem executed_overtakenRun_fails :
    ¬ ∀ e ∈ (Server.run Environment.offline overtakenRun).trace, e.2.Allowed := by
  intro h
  have hlast : (Server.run Environment.offline overtakenRun).trace.getLast? =
      some (1, .executed (.loadArgs ⟨1, 4, [1]⟩) .INITIALIZED false) := by
    decide +kernel
  exact absurd ((h _ (List.mem_of_getLast? hlast)).1 rfl).1 (by decide)

end Periplus.Ports
