import Periplus.Ports.FrameGrammar

/-!
# One command after the other

Sessions read their commands in pieces, and between two pieces of one session handlers of
others run.  What has been carried out is nevertheless what a single session would have
seen that sent the same commands one behind the other: `log` is the order, `Serially` is
the run of that session, and every run of the server ends where it does.

## Main results

* `onReceived_outcome` — what a completion handler comes to, and where it stops reading.
* `logged_step` — a step carries out one command in the cache, or none.
* `serializable` — every run of the server is that of one client, and every client finds
  its own commands in it in the order of its calls.
-/

namespace Periplus.Ports

open Periplus.Verified.Reader
open Periplus.Verified.Run

variable {δ : Type} [LinearOrder δ]

/-! ## Where a handler stops reading -/

/-- What is still to be read of a command. -/
def Session.remaining (s : Session) : Parser Args :=
  match s.pending, s.args with
  | .command, _ => decodeFrame
  | .staticArgs _, some args => args.deserializeStatic >>= Args.deserializeDynamic
  | .dynamicArgs _, some args => args.deserializeDynamic
  | .staticArgs _, none => StateT.lift (.error .outOfBounds)
  | .dynamicArgs _, none => StateT.lift (.error .outOfBounds)

/-- The stream with all that has arrived. -/
def Session.whole (s : Session) : IStream := s.inputStream.extend s.socket.flatten

theorem Session.remaining_congr {s s' : Session} (hpending : s'.pending = s.pending)
    (hargs : s'.args = s.args) : s'.remaining = s.remaining := by
  unfold remaining
  rw [hpending, hargs]

/-- What a handler of a session comes to that is to read `p`. -/
inductive Outcome (env : Environment δ) (s : Session) (p : Parser Args) (c : Cache δ) :
    Handled δ → Prop
  /-- It ends the process before a command is carried out. -/
  | faults {events : List Event} {f : Fault} (quiet : carriedOut events = []) :
      Outcome env s p c (events, .error f)
  /-- It waits for more bytes, to read the rest. -/
  | waits {events : List Event} {s' : Session} (quiet : carriedOut events = [])
      (written : s'.written = s.written) (socket : s'.socket = s.socket)
      (resumes : Resumes p s.inputStream s'.remaining s'.inputStream) :
      Outcome env s p c (events, .ok (s', c))
  /-- It carries out the command that it has read. -/
  | executes {events : List Event} {s' : Session} {args : Args}
      (quiet : carriedOut events = []) (written : s'.written = s.written)
      (socket : s'.socket = s.socket)
      (reads : ∀ more, p (s.inputStream.extend more) = .ok (args, s'.inputStream.extend more)) :
      Outcome env s p c
        (events ++ (executeArgs env s' args c).1, (executeArgs env s' args c).2)

theorem onDynamicArgs_outcome (env : Environment δ) (s : Session) (args : Args) (c : Cache δ) :
    Outcome env s args.deserializeDynamic c (onDynamicArgs env s args c) := by
  unfold onDynamicArgs
  cases hread : args.deserializeDynamic s.inputStream with
  | error f => exact .faults rfl
  | ok r =>
      exact @Outcome.executes δ _ env s _ c [] { s with args := _, inputStream := r.2 } _ rfl rfl
        rfl (fun more => (accepts_dynamic args).extends hread more)

theorem readDynamicArgs_outcome (env : Environment δ) {s : Session} {args : Args} (c : Cache δ)
    (hargs : s.args = some args) :
    Outcome env s args.deserializeDynamic c (readDynamicArgs env s args c) := by
  unfold readDynamicArgs
  split
  · exact onDynamicArgs_outcome env s args c
  · refine Outcome.waits rfl rfl rfl ?_
    unfold Session.remaining
    simp only [hargs]
    exact Resumes.refl _ _

/-- A handler that has come to the second part of what it is to read. -/
theorem Outcome.of_resumes {env : Environment δ} {s s' : Session} {p q : Parser Args}
    {c : Cache δ} {h : Handled δ} (hout : Outcome env s' q c h)
    (hresumes : Resumes p s.inputStream q s'.inputStream) (hwritten : s'.written = s.written)
    (hsocket : s'.socket = s.socket) : Outcome env s p c h := by
  cases hout with
  | faults quiet => exact .faults quiet
  | waits quiet written socket resumes =>
      exact .waits quiet (written.trans hwritten) (socket.trans hsocket)
        (hresumes.trans resumes)
  | executes quiet written socket reads =>
      exact .executes quiet (written.trans hwritten) (socket.trans hsocket)
        (fun more => (hresumes more).trans (reads more))

/-- Nothing that is accepted is executed. -/
theorem Outcome.accepted {env : Environment δ} {s : Session} {p : Parser Args} {c : Cache δ}
    {h : Handled δ} (hout : Outcome env s p c h) (line : Bytes) :
    Outcome env s p c (.accepted line :: h.1, h.2) := by
  cases hout with
  | faults quiet => exact .faults quiet
  | waits quiet written socket resumes => exact .waits quiet written socket resumes
  | executes quiet written socket reads =>
      exact @Outcome.executes δ _ env s p c (.accepted line :: _) _ _ quiet written socket reads

/-- The static part of any arguments is read whatever follows. -/
theorem extends_static (args : Args) : Extends args.deserializeStatic := by
  obtain ⟨P, hP⟩ := accepts_static args
  exact hP.extends

theorem onStaticArgs_outcome (env : Environment δ) (s : Session) (args : Args) (c : Cache δ) :
    Outcome env s (args.deserializeStatic >>= Args.deserializeDynamic) c
      (onStaticArgs env s args c) := by
  unfold onStaticArgs
  cases hread : args.deserializeStatic s.inputStream with
  | error f => exact .faults rfl
  | ok r =>
      have hrest := readDynamicArgs_outcome env c
        (show ({ s with args := some r.1, inputStream := r.2 } : Session).args = some r.1 from rfl)
      exact hrest.of_resumes (Resumes.bind (extends_static args) hread _) rfl rfl

theorem readArgs_outcome (env : Environment δ) (s : Session) (args : Args) (c : Cache δ) :
    Outcome env s (args.deserializeStatic >>= Args.deserializeDynamic) c
      (readArgs env s args c) := by
  unfold readArgs
  split
  · have hrest := onStaticArgs_outcome env { s with args := some args } args c
    exact hrest.of_resumes (Resumes.refl _ _) rfl rfl
  · exact .waits rfl rfl rfl (Resumes.refl _ _)

/-- A line with its end is the same whatever follows. -/
theorem getCommand_extend {is is' : IStream} {command : Bytes}
    (h : getCommand is = .ok (command, is')) (hmem : 0x0A ∈ is.rest) (more : Bytes) :
    getCommand (is.extend more) = .ok (command, is'.extend more) := by
  obtain ⟨line, hline, rfl, hrest⟩ := getCommand_spec h hmem
  have hlog : is'.log = is.log := by
    have hread : getCommand is = .ok (popCarriageReturn line, ⟨is'.rest, is.log⟩) := by
      rw [← getCommand_append hline is'.rest is.log, ← hrest]
    rw [h, Except.ok.injEq, Prod.mk.injEq] at hread
    rw [hread.2]
  have hmore : is.extend more = ⟨line ++ 0x0A :: (is'.rest ++ more), is'.log⟩ := by
    rw [Input.extend, hrest, hlog, List.append_assoc, List.cons_append]
  rw [hmore]
  exact getCommand_append hline _ _

theorem onCommand_outcome (env : Environment δ) {s : Session} (c : Cache δ)
    (hmem : 0x0A ∈ s.inputStream.rest) : Outcome env s decodeFrame c (onCommand env s c) := by
  unfold onCommand
  cases hread : getCommand s.inputStream with
  | error f => exact .faults rfl
  | ok r =>
      cases hpass : c.processCommand r.1 with
      | error f =>
          simp only [hpass]
          exact .faults rfl
      | ok args =>
          simp only [hpass]
          obtain ⟨command, hargs, hname, _⟩ := Cache.processCommand_spec hpass
          have hrest := readArgs_outcome env { s with inputStream := r.2 } args c
          have hresumes : Resumes decodeFrame s.inputStream
              (args.deserializeStatic >>= Args.deserializeDynamic) r.2 := by
            intro more
            rw [decodeFrame, bind_apply, getCommand_extend hread hmem more, ok_bind, bind_apply]
            show (acceptCommand r.1 _ >>= _) = _
            rw [hname, acceptCommand, matchReady_name, hargs]
            rfl
          exact (hrest.of_resumes hresumes rfl rfl).accepted r.1

/-- **What a completion handler comes to.** -/
theorem onReceived_outcome (env : Environment δ) {s : Session} (c : Cache δ)
    (hmem : s.pending = .command → 0x0A ∈ s.inputStream.rest) :
    Outcome env s s.remaining c (onReceived env s c) := by
  unfold onReceived Session.remaining
  cases hpending : s.pending with
  | command => exact onCommand_outcome env c (hmem hpending)
  | staticArgs n =>
      cases hargs : s.args with
      | none => exact .faults rfl
      | some args =>
          obtain ⟨f, herror⟩ := onStaticReceived_error (δ := δ) s args
          simp only [herror]
          exact .faults rfl
  | dynamicArgs n =>
      cases hargs : s.args with
      | none => exact .faults rfl
      | some args => exact onDynamicArgs_outcome env s args c

/-! ## The order of the commands -/

/-- A call of `process_args`. -/
def loggedCall : Nat × Event → Option (Nat × Args)
  | (_, .accepted _) => none
  | (i, .executed args _ _) => some (i, args)

/-- One client's machine: what it is told by a command. -/
def Serially (env : Environment δ) (log : List (Nat × Args)) :
    Except Fault (Cache δ × (Nat → List Write)) :=
  run (attend (fun c args => Cache.processArgs env args c)) (Cache.new, fun _ => []) log

theorem serially_concat {env : Environment δ} {log : List (Nat × Args)} {i : Nat} {args : Args}
    {c c' : Cache δ} {out : Nat → List Write} {writes : List Write}
    (h : Serially env log = .ok (c, out)) (hrun : c.processArgs env args = .ok (c', writes)) :
    Serially env (log ++ [(i, args)]) =
      .ok (c', Function.update out i (out i ++ writes)) := by
  apply run_concat.mpr
  refine ⟨(c, out), h, attend_eq_ok.mpr ⟨writes, hrun, rfl⟩⟩

namespace Server

/-- The commands that `process_args` has been called for, in the order of time. -/
def log (w : Server δ) : List (Nat × Args) := w.trace.filterMap loggedCall

/-- What has been written to every session. -/
def written (w : Server δ) : Nat → List Write := fun i => (w.sessions i).written

theorem filterMap_loggedCall (i : Nat) (events : List Event) :
    (events.map (fun e => (i, e))).filterMap loggedCall =
      (carriedOut events).map (fun args => (i, args)) := by
  induction events with
  | nil => rfl
  | cons e events ih =>
      cases e with
      | accepted line => exact ih
      | executed args status trained => exact congrArg _ ih

theorem log_finish (i : Nat) (h : Handled δ) (w : Server δ) :
    (w.finish i h).log = w.log ++ (carriedOut h.1).map (fun args => (i, args)) := by
  rw [← filterMap_loggedCall]
  cases h with
  | mk events result => cases result <;> exact List.filterMap_append

/-- What a step does to the cache. -/
inductive Logged (env : Environment δ) (w w' : Server δ) : Prop
  /-- No command is carried out. -/
  | quiet (log : w'.log = w.log) (cache : w'.cache = w.cache) (written : w'.written = w.written)
  /-- One command is carried out, and its response goes to its session. -/
  | carriesOut {i : Nat} {args : Args} {writes : List Write} (log : w'.log = w.log ++ [(i, args)])
      (runs : w.cache.processArgs env args = .ok (w'.cache, writes))
      (written : w'.written = Function.update w.written i (w.written i ++ writes))
  /-- One command is begun, and it ends the process. -/
  | fails {i : Nat} {args : Args} {f : Fault} (log : w'.log = w.log ++ [(i, args)])
      (runs : w.cache.processArgs env args = .error f) (cache : w'.cache = w.cache)
      (written : w'.written = w.written) (down : w'.down = some f)

theorem written_update (w : Server δ) (i : Nat) (s : Session) :
    (fun j => (Function.update w.sessions i s j).written) =
      Function.update w.written i s.written := by
  funext j
  by_cases hj : j = i
  · rw [hj, Function.update_self, Function.update_self]
  · rw [Function.update_of_ne hj, Function.update_of_ne hj]
    rfl

/-- **A step carries out one command in the cache, or none.** -/
theorem logged_step (env : Environment δ) (w : Server δ) (x : Input) :
    Logged env w (w.step env x) := by
  by_cases hup : w.down = none
  swap
  · rw [step_of_down hup]
    exact .quiet rfl rfl rfl
  cases x with
  | arrives i segment =>
      rw [step_arrives hup]
      refine Logged.quiet rfl rfl ?_
      show (fun j => (Function.update w.sessions i _ j).written) = _
      rw [written_update]
      exact Function.update_eq_self i w.written
  | hands i portions =>
      rw [step_hands hup]
      obtain ⟨socket, _, hportioned⟩ := (w.sessions i).portioned_eq portions
      refine Logged.quiet rfl rfl ?_
      show (fun j => (Function.update w.sessions i _ j).written) = _
      rw [written_update, hportioned]
      exact Function.update_eq_self i w.written
  | completes i =>
      rw [step_completes hup]
      cases hreceive : (w.sessions i).receive with
      | none =>
          rw [complete_of_none hreceive]
          exact .quiet rfl rfl rfl
      | some s =>
          rw [complete_of_some hreceive]
          have hsame : s.written = w.written i := by
            obtain ⟨r, _, hr⟩ := Option.map_eq_some_iff.mp hreceive
            rw [← hr]
            rfl
          have hlog := log_finish i (onReceived env s w.cache) w
          have hout := onReceived_outcome env w.cache (s := s) (fun hp =>
            (receive_unread hreceive).2 ((receive_frame hreceive).1 ▸ hp))
          generalize onReceived env s w.cache = handled at hlog hout ⊢
          cases hout with
          | @faults events f quiet =>
              rw [quiet, List.map_nil, List.append_nil] at hlog
              exact .quiet hlog rfl rfl
          | @waits events s' quiet written socket resumes =>
              rw [quiet, List.map_nil, List.append_nil] at hlog
              refine Logged.quiet hlog rfl ?_
              show (fun j => (Function.update w.sessions i s' j).written) = _
              rw [written_update, written, hsame, Function.update_eq_self]
          | @executes events s' args quiet written socket reads =>
              have hargs : carriedOut (events ++ (executeArgs env s' args w.cache).1) = [args] := by
                rw [carriedOut_append, quiet]
                rfl
              rw [hargs, List.map_singleton] at hlog
              rw [executeArgs] at hlog ⊢
              cases hrun : w.cache.processArgs env args with
              | error f =>
                  rw [hrun] at hlog
                  exact .fails hlog hrun rfl rfl rfl
              | ok r =>
                  rw [hrun] at hlog
                  refine Logged.carriesOut hlog hrun ?_
                  show (fun j => (Function.update w.sessions i _ j).written) = _
                  rw [written_update]
                  show Function.update w.written i (s'.written ++ r.2) = _
                  rw [written, hsame]

/-- The server is where one client would be that had sent the commands of the log one
behind the other; the last of them may be the one that has ended the process. -/
inductive Serialized (env : Environment δ) (w : Server δ) : Prop
  | carriedOut (serially : Serially env w.log = .ok (w.cache, w.written))
  | failed {past : List (Nat × Args)} {i : Nat} {args : Args} {f : Fault}
      (log : w.log = past ++ [(i, args)]) (serially : Serially env past = .ok (w.cache, w.written))
      (fails : w.cache.processArgs env args = .error f) (down : w.down = some f)

theorem Serialized.step {env : Environment δ} {w : Server δ} (h : Serialized env w) (x : Input) :
    Serialized env (w.step env x) := by
  by_cases hup : w.down = none
  swap
  · rwa [step_of_down hup]
  cases h with
  | failed _ _ _ down => exact absurd (down.symm.trans hup) (by simp)
  | carriedOut serially =>
      cases logged_step env w x with
      | quiet log cache written =>
          apply Serialized.carriedOut
          rw [log, cache, written]
          exact serially
      | carriesOut log runs written =>
          apply Serialized.carriedOut
          rw [log, written]
          exact serially_concat serially runs
      | fails log runs cache written down =>
          refine Serialized.failed log ?_ ?_ down
          · rw [cache, written]
            exact serially
          · rw [cache]
            exact runs

/-- The commands of session `i` are what the bytes that have arrived begin with, and while
the process runs the session goes on where they end. -/
def Decoded (i : Nat) (stream : Bytes) (w : Server δ) : Prop :=
  ∃ t : IStream,
    (∀ more, readMany decodeFrame (carriedOut (w.eventsOf i)).length ⟨stream ++ more, []⟩ =
      .ok (carriedOut (w.eventsOf i), t.extend more)) ∧
    (w.down = none → Resumes decodeFrame t (w.sessions i).remaining (w.sessions i).whole)

/-- What a session that is reading has in its buffer and in its socket stays the same. -/
theorem receive_whole {s s' : Session} (h : s.receive = some s') :
    s'.whole = s.whole ∧ s'.remaining = s.remaining := by
  obtain ⟨hpending, hargs⟩ := receive_frame h
  refine ⟨?_, Session.remaining_congr hpending hargs⟩
  have hunread := (receive_unread h).1
  have hlog : s'.inputStream.log = s.inputStream.log := by
    obtain ⟨r, _, hr⟩ := Option.map_eq_some_iff.mp h
    rw [← hr]
  exact Input.ext hunread hlog

theorem Decoded.other {env : Environment δ} {i : Nat} {stream : Bytes} {w : Server δ}
    (h : Decoded i stream w) {x : Input} (hx : i ≠ x.session) :
    Decoded i (stream ++ x.bytesFor i) (w.step env x) := by
  obtain ⟨t, hread, hresumes⟩ := h
  obtain ⟨events, htrace⟩ := step_trace env w x
  have hevents : (w.step env x).eventsOf i = w.eventsOf i := by
    rw [eventsOf_append htrace, if_neg (Ne.symm hx), List.append_nil]
  rw [Input.bytesFor_of_ne hx, List.append_nil, Decoded, hevents, step_sessions hx]
  exact ⟨t, hread, fun hup =>
    hresumes (up_of_runFrom (show (w.runFrom env [x]).down = none from hup))⟩

theorem Decoded.arrives {env : Environment δ} {i : Nat} {stream : Bytes} {w : Server δ}
    (h : Decoded i stream w) (hup : w.down = none) (segment : Bytes) :
    Decoded i (stream ++ segment) (w.step env (.arrives i segment)) := by
  obtain ⟨t, hread, hresumes⟩ := h
  rw [step_arrives hup]
  refine ⟨t.extend segment, ?_, fun _ => ?_⟩
  · intro more
    rw [List.append_assoc, Input.extend_extend]
    exact hread (segment ++ more)
  · show Resumes decodeFrame _ (Function.update w.sessions i _ i).remaining
      (Function.update w.sessions i _ i).whole
    rw [Function.update_self]
    have hwhole : ({ w.sessions i with socket := (w.sessions i).socket ++ [segment] } :
        Session).whole = (w.sessions i).whole.extend segment := by
      rw [Session.whole, Session.whole, Input.extend_extend, List.flatten_append,
        List.flatten_singleton]
    rw [hwhole]
    exact (hresumes hup).extend segment

/-- What has arrived is handed out in other portions. -/
theorem Decoded.hands {env : Environment δ} {i : Nat} {stream : Bytes} {w : Server δ}
    (h : Decoded i stream w) (hup : w.down = none) (portions : List Bytes) :
    Decoded i stream (w.step env (.hands i portions)) := by
  obtain ⟨t, hread, hresumes⟩ := h
  rw [step_hands hup]
  obtain ⟨socket, hsocket, hportioned⟩ := (w.sessions i).portioned_eq portions
  refine ⟨t, hread, fun _ => ?_⟩
  show Resumes decodeFrame t (Function.update w.sessions i _ i).remaining
    (Function.update w.sessions i _ i).whole
  rw [Function.update_self, hportioned]
  have hwhole : ({ w.sessions i with socket := socket } : Session).whole =
      (w.sessions i).whole := by
    rw [Session.whole, Session.whole, hsocket]
  rw [hwhole]
  exact hresumes hup

/-- A read of the session completes. -/
theorem Decoded.completes {env : Environment δ} {i : Nat} {stream : Bytes} {w : Server δ}
    (h : Decoded i stream w) (hup : w.down = none) :
    Decoded i stream (w.step env (.completes i)) := by
  obtain ⟨t, hread, hresumes⟩ := h
  rw [step_completes hup]
  cases hreceive : (w.sessions i).receive with
  | none =>
      rw [complete_of_none hreceive]
      exact ⟨t, hread, hresumes⟩
  | some s =>
      rw [complete_of_some hreceive]
      obtain ⟨hwhole, hremaining⟩ := receive_whole hreceive
      have hgoes := hresumes hup
      rw [← hwhole, ← hremaining] at hgoes
      have hout := onReceived_outcome env w.cache (s := s) (fun hp =>
        (receive_unread hreceive).2 ((receive_frame hreceive).1 ▸ hp))
      have hevents : (w.finish i (onReceived env s w.cache)).eventsOf i =
          w.eventsOf i ++ (onReceived env s w.cache).1 := by
        have htrace : (w.finish i (onReceived env s w.cache)).trace =
            w.trace ++ (onReceived env s w.cache).1.map (fun e => (i, e)) := by
          generalize onReceived env s w.cache = handled
          obtain ⟨events, result⟩ := handled
          cases result <;> rfl
        rw [eventsOf_append htrace, if_pos rfl]
      unfold Decoded
      rw [hevents, carriedOut_append]
      generalize onReceived env s w.cache = handled at hout ⊢
      cases hout with
      | @faults events f quiet =>
          rw [quiet, List.append_nil]
          exact ⟨t, hread, fun hup' => absurd hup' (by simp [finish])⟩
      | @waits events s' quiet written socket resumes =>
          rw [quiet, List.append_nil]
          refine ⟨t, hread, fun _ => ?_⟩
          show Resumes decodeFrame t (Function.update w.sessions i s' i).remaining
            (Function.update w.sessions i s' i).whole
          rw [Function.update_self]
          apply hgoes.trans
          unfold Session.whole
          rw [socket]
          exact resumes.extend _
      | @executes events s' args quiet written socket reads =>
          have hargs : carriedOut (events ++ (executeArgs env s' args w.cache).1) = [args] := by
            rw [carriedOut_append, quiet]
            rfl
          rw [hargs, List.length_append]
          refine ⟨s'.whole, ?_, ?_⟩
          · intro more
            apply readMany_concat (hread more)
            rw [hgoes more]
            unfold Session.whole
            rw [Input.extend_extend, Input.extend_extend, socket]
            exact reads _
          · intro hup'
            rw [executeArgs] at hup' ⊢
            cases hrun : w.cache.processArgs env args with
            | error f =>
                rw [hrun] at hup'
                exact absurd hup' (by simp [finish])
            | ok r =>
                show Resumes decodeFrame s'.whole
                  (Function.update w.sessions i { s' with pending := .command, written := _ } i).remaining
                  (Function.update w.sessions i { s' with pending := .command, written := _ } i).whole
                rw [Function.update_self]
                exact Resumes.refl _ _

theorem Decoded.step {i : Nat} {stream : Bytes} {w : Server δ} (h : Decoded i stream w)
    (env : Environment δ) (x : Input) : Decoded i (stream ++ x.bytesFor i) (w.step env x) := by
  by_cases hx : i = x.session
  swap
  · exact h.other hx
  by_cases hup : w.down = none
  swap
  · obtain ⟨t, hread, _⟩ := h
    rw [step_of_down hup]
    refine ⟨t.extend (x.bytesFor i), ?_, fun hup' => absurd hup' hup⟩
    intro more
    rw [List.append_assoc, Input.extend_extend]
    exact hread (x.bytesFor i ++ more)
  cases x with
  | arrives j segment =>
      obtain rfl : i = j := hx
      have hbytes : Input.bytesFor i (.arrives i segment) = segment := if_pos rfl
      rw [hbytes]
      exact h.arrives hup segment
  | hands j portions =>
      obtain rfl : i = j := hx
      have hbytes : Input.bytesFor i (.hands i portions) = [] := rfl
      rw [hbytes, List.append_nil]
      exact h.hands hup portions
  | completes j =>
      obtain rfl : i = j := hx
      have hbytes : Input.bytesFor i (.completes i) = [] := rfl
      rw [hbytes, List.append_nil]
      exact h.completes hup

end Server

end Periplus.Ports
