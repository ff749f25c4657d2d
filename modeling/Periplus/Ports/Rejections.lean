import Periplus.Ports.ServerInterleaving

/-!
# A command that is not carried out

A command line that the cache does not accept, and arguments on which the decoder or
a call of FAISS throws, end in an exception.  It leaves the completion handler, the
event loop and the thread in which the loop runs; the `try` of `main` is around the
start of that thread, not in it.

Up to that moment the bytes have had no effect on anyone else: `apart_of_unexecuted`
compares the run with the one in which they were never sent.  From that moment on
nobody is served.

## Main results

* `processCommand_rejects` — what `processCommand` does with any other line.
* `Rejected.ends`, `Rejected.not_othersServed` — the loop has ended, and a session
  that connects afterwards is not served.
* `rejected_not_isolated` — no rejected command is isolated.
-/

namespace Periplus.Ports

open Periplus.Verified.Reader
open Periplus.Verified.Run

/-- The session in which a step takes place. -/
def Input.session : Input → Nat
  | .arrives i _ => i
  | .hands i _ => i
  | .completes i => i

/-- The event is the execution of a command. -/
def Event.isExecuted : Event → Bool
  | .accepted _ => false
  | .executed _ _ _ => true

variable {δ : Type} [LinearOrder δ]

/-! ## What is rejected -/

namespace Cache

theorem matchUninitialized_error {command : Bytes} {f : Fault}
    (h : matchUninitialized command = .error f) : f = .exception .invalidCommand := by
  unfold matchUninitialized at h
  split at h
  · exact absurd h (by simp)
  · exact (Except.error.inj h).symm

theorem matchInitialized_error {command : Bytes} {f : Fault}
    (h : matchInitialized command = .error f) : f = .exception .invalidCommand := by
  unfold matchInitialized at h
  split at h
  · exact absurd h (by simp)
  · exact matchUninitialized_error h

theorem matchReady_error {command : Bytes} {f : Fault}
    (h : matchReady command = .error f) : f = .exception .invalidCommand := by
  unfold matchReady at h
  split at h
  · exact absurd h (by simp)
  split at h
  · exact absurd h (by simp)
  split at h
  · exact absurd h (by simp)
  split at h
  · exact absurd h (by simp)
  · exact matchInitialized_error h

/-- A line that is no command, or one that the status does not admit. -/
theorem processCommand_rejects {c : Cache δ} {command : Bytes}
    (h : ∀ cmd : Command, command = cmd.name → ¬ Admits c.status cmd) :
    c.processCommand command = .error (.exception .invalidCommand) := by
  cases hpass : c.processCommand command with
  | ok args =>
      obtain ⟨cmd, _, hname, hadmits⟩ := processCommand_spec hpass
      exact absurd hadmits (h cmd hname)
  | error f =>
      unfold processCommand at hpass
      split at hpass
      · rw [matchReady_error hpass]
      · rw [matchInitialized_error hpass]
      · rw [matchUninitialized_error hpass]
      · rw [← Except.error.inj hpass]

end Cache

/-- The server does not carry out what session `i` has sent. -/
inductive Rejects (env : Environment δ) (w : Server δ) (i : Nat) : Prop
  /-- The line is not a command, or one that the status forbids. -/
  | line {s : Session} {command : Bytes} {is : IStream}
      (received : (w.sessions i).receive = some s) (pending : s.pending = .command)
      (read : getCommand s.inputStream = .ok (command, is))
      (forbidden : ∀ cmd : Command, command = cmd.name → ¬ Cache.Admits w.cache.status cmd)
  /-- The decoder, or the library, throws on the arguments. -/
  | arguments {s : Session} {which : Uncaught}
      (received : (w.sessions i).receive = some s)
      (throws : (onReceived env s w.cache).2 = .error (.exception which))

namespace Server

/-- The server after further steps. -/
def runFrom (env : Environment δ) (w : Server δ) (inputs : List Input) : Server δ :=
  inputs.foldl (step env) w

theorem run_append (env : Environment δ) (earlier later : List Input) :
    run env (earlier ++ later) = (run env earlier).runFrom env later := by
  rw [run, run, runFrom, List.foldl_append]

@[simp] theorem runFrom_nil (env : Environment δ) (w : Server δ) : w.runFrom env [] = w := rfl

theorem runFrom_cons (env : Environment δ) (w : Server δ) (x : Input) (inputs : List Input) :
    w.runFrom env (x :: inputs) = (w.step env x).runFrom env inputs := rfl

theorem step_arrives {w : Server δ} (hup : w.down = none) (env : Environment δ) (i : Nat)
    (segment : Bytes) :
    w.step env (.arrives i segment) = { w with
      sessions := Function.update w.sessions i
        { w.sessions i with socket := (w.sessions i).socket ++ [segment] } } := by
  unfold step
  rw [if_neg (by rw [hup]; decide)]

theorem step_hands {w : Server δ} (hup : w.down = none) (env : Environment δ) (i : Nat)
    (portions : List Bytes) :
    w.step env (.hands i portions) = { w with
      sessions := Function.update w.sessions i ((w.sessions i).portioned portions) } := by
  unfold step
  rw [if_neg (by rw [hup]; decide)]

theorem step_completes {w : Server δ} (hup : w.down = none) (env : Environment δ) (i : Nat) :
    w.step env (.completes i) = w.complete env i := by
  unfold step
  rw [if_neg (by rw [hup]; decide)]

theorem complete_of_none {w : Server δ} {i : Nat} (h : (w.sessions i).receive = none)
    (env : Environment δ) : w.complete env i = w := by
  unfold complete
  simp only [h]

theorem complete_of_some {w : Server δ} {i : Nat} {s : Session}
    (h : (w.sessions i).receive = some s) (env : Environment δ) :
    w.complete env i = w.finish i (onReceived env s w.cache) := by
  unfold complete
  simp only [h]

theorem step_of_down {env : Environment δ} {w : Server δ} (h : w.down ≠ none) (x : Input) :
    w.step env x = w := by
  unfold step
  rw [if_pos (Option.isSome_iff_ne_none.mpr h)]

/-- **An ended process stays as it is.** -/
theorem runFrom_of_down {env : Environment δ} {w : Server δ} (h : w.down ≠ none)
    (inputs : List Input) : w.runFrom env inputs = w := by
  induction inputs with
  | nil => rfl
  | cons x inputs ih => rw [runFrom_cons, step_of_down h, ih]

theorem up_of_runFrom {env : Environment δ} {w : Server δ} {inputs : List Input}
    (h : (w.runFrom env inputs).down = none) : w.down = none := by
  by_contra hdown
  rw [runFrom_of_down hdown] at h
  exact hdown h

/-- A rejected command ends the process. -/
theorem step_rejects {env : Environment δ} {w : Server δ} {i : Nat} (hup : w.down = none)
    (h : Rejects env w i) : ∃ which, (w.step env (.completes i)).down = some (.exception which) := by
  rw [step_completes hup]
  cases h with
  | @line s command is received pending read forbidden =>
      refine ⟨.invalidCommand, ?_⟩
      rw [complete_of_some received, onReceived_command env w.cache pending, onCommand]
      simp only [read, Cache.processCommand_rejects forbidden]
      rfl
  | @arguments s which received throws =>
      refine ⟨which, ?_⟩
      rw [complete_of_some received]
      cases hhandled : onReceived env s w.cache with
      | mk events result =>
          rw [hhandled] at throws
          rw [show result = .error (.exception which) from throws]
          rfl

/-! ## The run without the rejected bytes -/

/-- The steps of the other sessions. -/
def others (i : Nat) (inputs : List Input) : List Input :=
  inputs.filter (fun x => x.session != i)

/-- How many commands of session `i` have been carried out. -/
def executions (i : Nat) (w : Server δ) : Nat :=
  w.trace.countP (fun e => e.1 == i && e.2.isExecuted)

/-- The servers differ in session `i` and in what they have recorded. -/
structure Apart (i : Nat) (w w' : Server δ) : Prop where
  sessions : ∀ j, j ≠ i → w.sessions j = w'.sessions j
  cache : w.cache = w'.cache
  down : w.down = w'.down

/-- A step records what its session has done. -/
theorem step_trace (env : Environment δ) (w : Server δ) (x : Input) :
    ∃ events : List Event,
      (w.step env x).trace = w.trace ++ events.map (fun e => (x.session, e)) := by
  unfold step
  split
  · exact ⟨[], by simp⟩
  · cases x with
    | arrives i segment => exact ⟨[], by simp⟩
    | hands i portions => exact ⟨[], by simp⟩
    | completes i =>
        simp only [complete]
        split
        · exact ⟨[], by simp⟩
        · next s hs =>
            unfold finish
            split
            · exact ⟨_, rfl⟩
            · exact ⟨_, rfl⟩

theorem step_executions_le (env : Environment δ) (w : Server δ) (i : Nat) (x : Input) :
    w.executions i ≤ (w.step env x).executions i := by
  obtain ⟨events, htrace⟩ := step_trace env w x
  rw [executions, executions, htrace, List.countP_append]
  exact Nat.le_add_right _ _

theorem runFrom_executions_le (env : Environment δ) (w : Server δ) (i : Nat)
    (inputs : List Input) : w.executions i ≤ (w.runFrom env inputs).executions i := by
  induction inputs generalizing w with
  | nil => exact Nat.le_refl _
  | cons x inputs ih => exact Nat.le_trans (step_executions_le env w i x) (ih _)

/-- A step touches the session in which it takes place only. -/
theorem step_sessions {env : Environment δ} {w : Server δ} {x : Input} {j : Nat}
    (h : j ≠ x.session) : (w.step env x).sessions j = w.sessions j := by
  unfold step
  split
  · rfl
  · cases x with
    | arrives i segment => exact Function.update_of_ne h _ _
    | hands i portions => exact Function.update_of_ne h _ _
    | completes i =>
        simp only [complete]
        split
        · rfl
        · unfold finish
          split
          · rfl
          · exact Function.update_of_ne h _ _

theorem run_sessions {env : Environment δ} {inputs : List Input} {j : Nat}
    (h : ∀ x ∈ inputs, j ≠ x.session) : (run env inputs).sessions j = Session.start := by
  induction inputs using List.reverseRecOn with
  | nil => rfl
  | append_singleton inputs x ih =>
      rw [run_append, runFrom_cons, runFrom_nil, step_sessions (h x (by simp))]
      exact ih (fun y hy => h y (List.mem_append_left _ hy))

theorem Apart.finish {i k : Nat} {w w' : Server δ} (h : Apart i w w') (handled : Handled δ) :
    Apart i (w.finish k handled) (w'.finish k handled) := by
  cases handled with
  | mk events result =>
      cases result with
      | error f => exact ⟨h.sessions, h.cache, rfl⟩
      | ok r =>
          refine ⟨?_, rfl, h.down⟩
          intro j hj
          show Function.update w.sessions k _ j = Function.update w'.sessions k _ j
          by_cases hjk : j = k
          · rw [hjk, Function.update_self, Function.update_self]
          · rw [Function.update_of_ne hjk, Function.update_of_ne hjk, h.sessions j hj]

/-- The same is done to the sockets of both. -/
theorem Apart.onSession {i k : Nat} {w w' : Server δ} (h : Apart i w w') (hk : k ≠ i)
    (f : Session → Session) :
    Apart i { w with sessions := Function.update w.sessions k (f (w.sessions k)) }
      { w' with sessions := Function.update w'.sessions k (f (w'.sessions k)) } := by
  refine ⟨?_, h.cache, h.down⟩
  intro j hj
  show Function.update w.sessions k _ j = Function.update w'.sessions k _ j
  by_cases hjk : j = k
  · rw [hjk, Function.update_self, Function.update_self, h.sessions k hk]
  · rw [Function.update_of_ne hjk, Function.update_of_ne hjk, h.sessions j hj]

/-- Another session does the same in both. -/
theorem Apart.step {env : Environment δ} {i : Nat} {w w' : Server δ} (h : Apart i w w')
    {x : Input} (hx : x.session ≠ i) : Apart i (w.step env x) (w'.step env x) := by
  by_cases hup : w.down = none
  · have hup' : w'.down = none := h.down ▸ hup
    cases x with
    | arrives k segment =>
        rw [step_arrives hup, step_arrives hup']
        exact h.onSession hx (fun s => { s with socket := s.socket ++ [segment] })
    | hands k portions =>
        rw [step_hands hup, step_hands hup']
        exact h.onSession hx (fun s => s.portioned portions)
    | completes k =>
        have hk : w.sessions k = w'.sessions k := h.sessions k hx
        rw [step_completes hup, step_completes hup']
        cases hreceive : (w.sessions k).receive with
        | none =>
            rw [complete_of_none hreceive, complete_of_none (hk ▸ hreceive)]
            exact h
        | some s =>
            rw [complete_of_some hreceive, complete_of_some (hk ▸ hreceive), ← h.cache]
            exact h.finish _
  · rw [step_of_down hup, step_of_down (h.down ▸ hup)]
    exact h

/-- Arguments are executed, or the cache is as it was. -/
theorem cache_of_reads {env : Environment δ} {command : Command} {c : Cache δ}
    {handled : Handled δ} (hreads : Reads env command c handled)
    (hquiet : ∀ e ∈ handled.1, e.isExecuted = false) {s' : Session} {c' : Cache δ}
    (hok : handled.2 = .ok (s', c')) : c' = c := by
  rcases hreads with ⟨_, hsame⟩ | ⟨args, _, hevents, _⟩
  · exact (hsame s' c' hok).1
  · rw [hevents] at hquiet
    exact absurd (hquiet _ List.mem_cons_self) (by simp [Event.isExecuted])

theorem cache_of_unexecuted {env : Environment δ} {s : Session} {c : Cache δ}
    (hquiet : ∀ e ∈ (onReceived env s c).1, e.isExecuted = false) {s' : Session}
    {c' : Cache δ} (hok : (onReceived env s c).2 = .ok (s', c')) : c' = c := by
  cases hpending : s.pending with
  | command =>
      rw [onReceived_command env c hpending] at hquiet hok
      rcases onCommand_spec env s c with ⟨f, hf⟩ | ⟨command, handled, _, hreads, heq⟩
      · rw [hf] at hok
        exact absurd hok (by simp)
      · rw [heq] at hquiet hok
        exact cache_of_reads hreads
          (fun e he => hquiet e (List.mem_cons_of_mem _ he)) hok
  | staticArgs n =>
      cases hargs : s.args with
      | none => simp [onReceived, hpending, hargs] at hok
      | some args =>
          exact cache_of_reads (onReceived_reads env c ⟨by simp [hpending], args, hargs, rfl⟩)
            hquiet hok
  | dynamicArgs n =>
      cases hargs : s.args with
      | none => simp [onReceived, hpending, hargs] at hok
      | some args =>
          exact cache_of_reads (onReceived_reads env c ⟨by simp [hpending], args, hargs, rfl⟩)
            hquiet hok

/-- A step of session `i` that carries nothing out. -/
theorem apart_own {env : Environment δ} {i : Nat} {w : Server δ} {x : Input}
    (hx : x.session = i) (hup : (w.step env x).down = none)
    (hquiet : (w.step env x).executions i = w.executions i) : Apart i (w.step env x) w := by
  have hup' : w.down = none :=
    up_of_runFrom (show (w.runFrom env [x]).down = none from hup)
  cases x with
  | arrives k segment =>
      cases hx
      rw [step_arrives hup']
      exact ⟨fun j hj => Function.update_of_ne hj _ _, rfl, rfl⟩
  | hands k portions =>
      cases hx
      rw [step_hands hup']
      exact ⟨fun j hj => Function.update_of_ne hj _ _, rfl, rfl⟩
  | completes k =>
      cases hx
      rw [step_completes hup'] at hup hquiet ⊢
      cases hreceive : (w.sessions k).receive with
      | none =>
          rw [complete_of_none hreceive]
          exact ⟨fun _ _ => rfl, rfl, rfl⟩
      | some s =>
          rw [complete_of_some hreceive] at hup hquiet ⊢
          have hcache := @cache_of_unexecuted _ _ env s w.cache
          cases hhandled : onReceived env s w.cache with
          | mk events result =>
              rw [hhandled] at hup hquiet hcache
              cases result with
              | error f => exact absurd hup (by simp [finish])
              | ok r =>
                  have hcount : (w.trace ++ events.map (fun e => (k, e))).countP
                      (fun e => e.1 == k && e.2.isExecuted) = w.executions k := hquiet
                  rw [List.countP_append, executions, Nat.add_eq_left,
                    List.countP_eq_zero] at hcount
                  refine ⟨fun j hj => Function.update_of_ne hj _ _, ?_, rfl⟩
                  refine hcache ?_ rfl
                  intro e he
                  have := hcount _ (List.mem_map_of_mem he)
                  simpa using this

/-- **Bytes of which nothing is carried out** have no effect on the other sessions. -/
theorem apart_of_unexecuted {env : Environment δ} {i : Nat} {sent : List Input}
    {w w' : Server δ} (h : Apart i w w') (hup : (w.runFrom env sent).down = none)
    (hquiet : (w.runFrom env sent).executions i = w.executions i) :
    Apart i (w.runFrom env sent) (w'.runFrom env (others i sent)) := by
  induction sent generalizing w w' with
  | nil => exact h
  | cons x sent ih =>
      rw [runFrom_cons] at hup hquiet ⊢
      have hlow := step_executions_le env w i x
      have hhigh := runFrom_executions_le env (w.step env x) i sent
      have hstep : (w.step env x).executions i = w.executions i := by omega
      have hrest : ((w.step env x).runFrom env sent).executions i =
          (w.step env x).executions i := by omega
      by_cases hx : x.session = i
      · have hothers : others i (x :: sent) = others i sent := by
          simp [others, hx]
        have hown := apart_own hx (up_of_runFrom hup) hstep
        rw [hothers]
        refine ih ⟨?_, hown.cache.trans h.cache, hown.down.trans h.down⟩ hup hrest
        intro j hj
        exact (hown.sessions j hj).trans (h.sessions j hj)
      · have hothers : others i (x :: sent) = x :: others i sent := by
          simp [others, hx]
        rw [hothers, runFrom_cons]
        exact ih (h.step hx) hup hrest

/-! ## Isolation -/

section Isolation

variable (env : Environment δ) (earlier sent : List Input) (i : Nat)

/-- What session `i` sends during `sent` is complete at the end of it, nothing of it
has been carried out, and the next completion handler of the session rejects it. -/
structure Rejected : Prop where
  up : (run env (earlier ++ sent)).down = none
  unexecuted : (run env (earlier ++ sent)).executions i = (run env earlier).executions i
  rejects : Rejects env (run env (earlier ++ sent)) i

/-- The status and the core are as before. -/
def CacheKept : Prop :=
  (run env (earlier ++ sent ++ [.completes i])).cache.status =
      (run env (earlier ++ sent)).cache.status ∧
    (run env (earlier ++ sent ++ [.completes i])).cache.core =
      (run env (earlier ++ sent)).cache.core

/-- The event loop keeps running. -/
def StillRuns : Prop := (run env (earlier ++ sent ++ [.completes i])).down = none

/-- Whatever the other sessions send from then on: each is where it would be, and has
been answered what it would have been answered, if the bytes had not been sent. -/
def OthersServed : Prop :=
  ∀ later : List Input, (∀ x ∈ later, x.session ≠ i) → ∀ j, j ≠ i →
    (run env (earlier ++ sent ++ .completes i :: later)).sessions j =
      (run env (earlier ++ others i sent ++ later)).sessions j

/-- The rejected command is isolated. -/
structure Isolated : Prop where
  cacheKept : CacheKept env earlier sent i
  stillRuns : StillRuns env earlier sent i
  othersServed : OthersServed env earlier sent i

end Isolation

theorem Rejected.ends {env : Environment δ} {earlier sent : List Input} {i : Nat}
    (h : Rejected env earlier sent i) : ¬ StillRuns env earlier sent i := by
  obtain ⟨which, hdown⟩ := step_rejects h.up h.rejects
  intro hruns
  rw [StillRuns, run_append, runFrom_cons, runFrom_nil, hdown] at hruns
  exact absurd hruns (by simp)

theorem statusOf_ne_training (trace : List (Nat × Event)) : statusOf trace ≠ .TRAINING := by
  induction trace using List.reverseRecOn with
  | nil => decide
  | append_singleton trace e ih =>
      rw [statusOf_concat]
      cases e.2 with
      | accepted line => exact ih
      | executed args status trained =>
          show Cache.statusAfter (statusOf trace) args.getCommand ≠ .TRAINING
          cases args.getCommand with
          | INITIALIZE => simp [Cache.statusAfter]
          | TRAIN => simp [Cache.statusAfter]
          | LOAD => exact ih
          | SEARCH => exact ih
          | EVICT => exact ih
          | ADD => exact ih

/-- An INITIALIZE is accepted in every status but TRAINING. -/
theorem processCommand_initialize {c : Cache δ} (h : c.status ≠ .TRAINING) :
    c.processCommand (ascii "INITIALIZE") = .ok (.initializeArgs {}) := by
  unfold Cache.processCommand
  cases hstatus : c.status with
  | TRAINING => exact absurd hstatus h
  | UNINITIALIZED => rfl
  | INITIALIZED => rfl
  | READY => rfl

/-- A session that connects and sends a command line. -/
def newcomer (j : Nat) : List Input :=
  [.arrives j (ascii "INITIALIZE\r\n"), .completes j]

/-- While the loop runs, a new session is served: it is asked for its arguments. -/
theorem newcomer_served {env : Environment δ} {w : Server δ} {j : Nat} (hup : w.down = none)
    (hnew : w.sessions j = Session.start) (hstatus : w.cache.status ≠ .TRAINING) :
    ((w.runFrom env (newcomer j)).sessions j).pending = .staticArgs InitializeArgs.staticSize := by
  let s : Session := { Session.start with inputStream := ⟨ascii "INITIALIZE\r\n", []⟩ }
  let w₁ : Server δ := { w with
    sessions := Function.update w.sessions j
      { w.sessions j with socket := (w.sessions j).socket ++ [ascii "INITIALIZE\r\n"] } }
  have hup₁ : w₁.down = none := hup
  have harrived : w.step env (.arrives j (ascii "INITIALIZE\r\n")) = w₁ :=
    step_arrives hup env j _
  have hreceive : (w₁.sessions j).receive = some s := by
    show (Function.update w.sessions j _ j).receive = some s
    rw [Function.update_self, hnew]
    rfl
  have hline : getCommand s.inputStream = .ok (ascii "INITIALIZE", ⟨[], []⟩) := rfl
  have haccepted : w₁.cache.processCommand (ascii "INITIALIZE") = .ok (.initializeArgs {}) :=
    processCommand_initialize hstatus
  rw [newcomer, runFrom_cons, runFrom_cons, runFrom_nil, harrived, step_completes hup₁,
    complete_of_some hreceive, onReceived_command _ _ rfl]
  simp only [onCommand, hline, haccepted]
  show (Function.update w₁.sessions j _ j).pending = _
  rw [Function.update_self]
  rfl

/-- A session that is in none of the steps. -/
theorem exists_newcomer (inputs : List Input) (i : Nat) :
    ∃ j, j ≠ i ∧ ∀ x ∈ inputs, j ≠ x.session := by
  obtain ⟨j, hj⟩ := Infinite.exists_notMem_finset (insert i (inputs.map Input.session).toFinset)
  rw [Finset.mem_insert, not_or, List.mem_toFinset] at hj
  refine ⟨j, hj.1, ?_⟩
  intro x hx heq
  exact hj.2 (heq ▸ List.mem_map_of_mem hx)

/-- **Nobody is served any more**, while a new session would be. -/
theorem Rejected.not_othersServed {env : Environment δ} {earlier sent : List Input} {i : Nat}
    (h : Rejected env earlier sent i) : ¬ OthersServed env earlier sent i := by
  intro hserved
  obtain ⟨j, hji, hfresh⟩ := exists_newcomer (earlier ++ sent) i
  have hsame := hserved (newcomer j) (by simp [newcomer, Input.session, hji]) j hji
  -- the run without the bytes
  have hup := h.up
  have hquiet := h.unexecuted
  rw [run_append] at hup hquiet
  have hself : Apart i (run env earlier) (run env earlier) := ⟨fun _ _ => rfl, rfl, rfl⟩
  have hapart := apart_of_unexecuted hself hup hquiet
  have hup' : (run env (earlier ++ others i sent)).down = none := by
    rw [run_append, ← hapart.down]
    exact hup
  have hstatus : (run env (earlier ++ others i sent)).cache.status ≠ .TRAINING := by
    rw [(inv_run env _).status hup']
    exact statusOf_ne_training _
  have hnew : (run env (earlier ++ others i sent)).sessions j = Session.start := by
    refine run_sessions ?_
    intro x hx
    refine hfresh x ?_
    rw [List.mem_append] at hx ⊢
    exact hx.imp_right List.mem_of_mem_filter
  have hpending : (((run env (earlier ++ others i sent)).runFrom env (newcomer j)).sessions
      j).pending = .staticArgs InitializeArgs.staticSize := newcomer_served hup' hnew hstatus
  rw [← run_append, ← hsame] at hpending
  -- the run with them
  have hdown := h.ends
  have hold : (run env (earlier ++ sent ++ [.completes i])).sessions j = Session.start := by
    refine run_sessions ?_
    intro x hx
    rcases List.mem_append.mp hx with hx | hx
    · exact hfresh x hx
    · rw [List.mem_singleton.mp hx]
      exact hji
  rw [List.append_cons, run_append, runFrom_of_down hdown, hold] at hpending
  exact absurd hpending (by decide)

/-- **No rejected command is isolated**: the loop has ended, and the other sessions are
not served. -/
theorem rejected_not_isolated (env : Environment δ) (earlier sent : List Input) (i : Nat)
    (h : Rejected env earlier sent i) :
    ¬ Isolated env earlier sent i ∧ ¬ StillRuns env earlier sent i ∧
      ¬ OthersServed env earlier sent i :=
  ⟨fun hisolated => h.ends hisolated.stillRuns, h.ends, h.not_othersServed⟩

/-- Session 0 sends a LOAD before anything has been initialized. -/
theorem rejected_load :
    ¬ Isolated Environment.offline [] [.arrives 0 (ascii "LOAD\r\n")] 0 ∧
      ¬ StillRuns Environment.offline [] [.arrives 0 (ascii "LOAD\r\n")] 0 ∧
      ¬ OthersServed Environment.offline [] [.arrives 0 (ascii "LOAD\r\n")] 0 := by
  refine rejected_not_isolated Environment.offline [] _ 0 ⟨rfl, rfl, ?_⟩
  refine Rejects.line (s := { Session.start with inputStream := ⟨ascii "LOAD\r\n", []⟩ })
    rfl rfl (show getCommand _ = .ok (ascii "LOAD", ⟨[], []⟩) from rfl) ?_
  intro cmd hname
  cases cmd with
  | LOAD => exact fun h => absurd (h.1 rfl) (by decide)
  | INITIALIZE => exact absurd hname (by decide)
  | TRAIN => exact absurd hname (by decide)
  | SEARCH => exact absurd hname (by decide)
  | EVICT => exact absurd hname (by decide)
  | ADD => exact absurd hname (by decide)

/-- Session 0 sends a line that is no command; the process ends, and session 1 is not
asked for the arguments of its INITIALIZE. -/
theorem isolated_unknown_fails :
    Rejected Environment.offline [] [.arrives 0 (ascii "PING\r\n")] 0 ∧
      (run Environment.offline [.arrives 0 (ascii "PING\r\n"), .completes 0]).down =
        some (.exception .invalidCommand) ∧
      ¬ Isolated Environment.offline [] [.arrives 0 (ascii "PING\r\n")] 0 := by
  have hdown : (run Environment.offline [.arrives 0 (ascii "PING\r\n"), .completes 0]).down =
      some (.exception .invalidCommand) := by decide +kernel
  refine ⟨⟨rfl, rfl, ?_⟩, hdown, ?_⟩
  · refine Rejects.line (s := { Session.start with inputStream := ⟨ascii "PING\r\n", []⟩ })
      rfl rfl (show getCommand _ = .ok (ascii "PING", ⟨[], []⟩) from rfl) ?_
    intro cmd hname
    cases cmd <;> exact absurd hname (by decide)
  · intro hisolated
    have hruns := hisolated.stillRuns
    rw [StillRuns, List.nil_append, List.singleton_append, hdown] at hruns
    exact absurd hruns (by decide)

end Server

end Periplus.Ports
