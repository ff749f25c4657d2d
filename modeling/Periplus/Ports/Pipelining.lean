import Periplus.Ports.Rejections
import Periplus.Verified.Outgoing

/-!
# Responses on their way to the client

`process_args` starts the next read as soon as a command is carried out.  The text of
INITIALIZE, TRAIN, LOAD, EVICT and ADD is sent by `async_write` out of `output_buf`,
which is the buffer of the whole session, and nothing waits for its completion: if the
next command is read completely before, its response is copied over the one that is
being sent.  SEARCH copies to the same buffer and writes to the socket at once.

`asio` takes the bytes out of the buffer at any moment between the start of the write
and its completion handler, so transmissions and completions are steps of their own,
in any order with the arrivals and the reads.  What a handler that ends the process has
sent before is not followed.

## Main results

* `onReceived_written` — a handler writes the response of the command that it carries
  out, and nothing else.
* `Network.inv_run` — while no command is carried out with a write outstanding, every
  outbox carries the responses of its session.
* `Network.responses_intact` — then the client receives them in order, and no buffer is
  filled under a write.
-/

namespace Periplus.Ports

open Periplus.Verified.Outgoing
open Periplus.Verified.Reader
open Periplus.Verified.Run

variable {δ : Type} [LinearOrder δ]

/-! ## What a command writes -/

/-- A SEARCH for no vector: it writes nothing. -/
def Args.noQueries : Args → Bool
  | .searchArgs a => a.n == 0
  | .initializeArgs _ => false
  | .trainArgs _ => false
  | .loadArgs _ => false
  | .evictArgs _ => false
  | .addArgs _ => false

/-- `async_write` or `sync_write`, with the copy to `output_buf` before it. -/
def Write.perform : Write → Outbox UInt8 → Outbox UInt8
  | .async bytes, o => o.start bytes
  | .sync bytes, o => o.send bytes

/-- What the client is to receive for some writes. -/
def responseBytes (writes : List Write) : Bytes := writes.flatMap Write.bytes

theorem responseBytes_append (writes writes' : List Write) :
    responseBytes (writes ++ writes') = responseBytes writes ++ responseBytes writes' :=
  List.flatMap_append

theorem responseBytes_sync (blocks : List Bytes) :
    responseBytes (blocks.map .sync) = blocks.flatten := by
  rw [responseBytes, List.flatMap_map]
  exact List.flatMap_id'

/-- The response of a command: one text, or what SEARCH sends block by block. -/
inductive Reply : List Write → Prop
  | text (bytes : Bytes) : Reply [.async bytes]
  | blocks (blocks : List Bytes) : Reply (blocks.map .sync)

/-- A SEARCH for at least one vector sends the number of its results. -/
theorem sendQueries_eq_nil {k : Nat} {results : List Data} {cacheHits : List Int}
    {is : List Nat} {blocks : List Bytes}
    (h : sendQueries k results cacheHits is = .ok blocks) : blocks = [] ↔ is = [] := by
  cases is with
  | nil =>
      simp only [sendQueries, Except.ok.injEq] at h
      exact ⟨fun _ => rfl, fun _ => h.symm⟩
  | cons i is =>
      obtain ⟨hits, _, h⟩ := bind_eq_ok.mp h
      obtain ⟨records, _, h⟩ := bind_eq_ok.mp h
      obtain ⟨rest, _, h⟩ := bind_eq_ok.mp h
      rw [← Except.ok.inj h]
      simp

namespace Cache

/-- What a command writes when it comes back. -/
theorem dispatch_reply {env : Environment δ} {args : Args} {c c' : Cache δ}
    {writes : List Write} (h : c.dispatch env args = .ok (c', writes)) :
    Reply writes ∧ (writes = [] ↔ args.noQueries = true) := by
  have htext : ∀ text : Bytes, [Write.async text] = writes → args.noQueries = false →
      Reply writes ∧ (writes = [] ↔ args.noQueries = true) := by
    intro text htext hargs
    rw [← htext, hargs]
    exact ⟨.text text, by simp⟩
  cases args with
  | initializeArgs a =>
      obtain ⟨core, _, h⟩ := bind_eq_ok.mp h
      simp only [Except.ok.injEq, Prod.mk.injEq] at h
      exact htext _ h.2 rfl
  | trainArgs a =>
      obtain ⟨core, _, h⟩ := bind_eq_ok.mp h
      split at h
      · exact absurd h (by simp)
      · obtain ⟨core', _, h⟩ := bind_eq_ok.mp h
        split at h
        · simp only [Except.ok.injEq, Prod.mk.injEq] at h
          exact htext _ h.2 rfl
        · exact absurd h (by simp)
  | loadArgs a =>
      obtain ⟨core, _, h⟩ := bind_eq_ok.mp h
      obtain ⟨exit, _, h⟩ := bind_eq_ok.mp h
      cases exit with
      | returns tables =>
          simp only [Except.ok.injEq, Prod.mk.injEq] at h
          exact htext _ h.2 rfl
      | throwsHttp code tables =>
          simp only [Except.ok.injEq, Prod.mk.injEq] at h
          exact htext _ h.2 rfl
  | searchArgs a =>
      obtain ⟨core, _, h⟩ := bind_eq_ok.mp h
      obtain ⟨⟨tables, results, cacheHits⟩, _, h⟩ := bind_eq_ok.mp h
      obtain ⟨blocks, hblocks, h⟩ := bind_eq_ok.mp h
      simp only [Except.ok.injEq, Prod.mk.injEq] at h
      rw [← h.2]
      refine ⟨.blocks blocks, ?_⟩
      rw [List.map_eq_nil_iff, sendQueries_eq_nil hblocks, List.range_eq_nil]
      exact beq_iff_eq.symm
  | evictArgs a =>
      obtain ⟨core, _, h⟩ := bind_eq_ok.mp h
      obtain ⟨tables, _, h⟩ := bind_eq_ok.mp h
      simp only [Except.ok.injEq, Prod.mk.injEq] at h
      exact htext _ h.2 rfl
  | addArgs a =>
      obtain ⟨core, _, h⟩ := bind_eq_ok.mp h
      obtain ⟨tables, _, h⟩ := bind_eq_ok.mp h
      simp only [Except.ok.injEq, Prod.mk.injEq] at h
      exact htext _ h.2 rfl

theorem processArgs_reply {env : Environment δ} {args : Args} {c c' : Cache δ}
    {writes : List Write} (h : c.processArgs env args = .ok (c', writes)) :
    Reply writes ∧ (writes = [] ↔ args.noQueries = true) := by
  obtain ⟨⟨c₁, ws⟩, hdispatch, h⟩ := bind_eq_ok.mp h
  simp only [Except.ok.injEq, Prod.mk.injEq] at h
  rw [← h.2]
  exact dispatch_reply hdispatch

end Cache

/-- **A response from an outbox at rest.** -/
theorem Reply.carries {writes : List Write} (hreply : Reply writes) {o : Outbox UInt8}
    {produced : Bytes} (h : Carries o produced) (hrest : o.outstanding = []) :
    Carries (writes.foldl (fun o write => write.perform o) o)
      (produced ++ responseBytes writes) := by
  cases hreply with
  | text bytes =>
      have hbytes : responseBytes [.async bytes] = bytes := by simp [responseBytes, Write.bytes]
      rw [hbytes]
      exact h.start hrest bytes
  | blocks blocks =>
      rw [responseBytes_sync, List.foldl_map]
      exact h.sends hrest blocks

/-! ## What a handler writes -/

/-- The arguments that `process_args` is called for. -/
def carriedOut (events : List Event) : List Args :=
  events.filterMap (fun e => match e with
    | .accepted _ => none
    | .executed args _ _ => some args)

/-- A handler that comes back has written the response of the command that it has
carried out, if it has carried one out. -/
def Answers (env : Environment δ) (written : List Write) (c : Cache δ) (h : Handled δ) :
    Prop :=
  ∀ s' c', h.2 = .ok (s', c') →
    (carriedOut h.1 = [] ∧ s'.written = written) ∨
      ∃ args writes, carriedOut h.1 = [args] ∧ c.processArgs env args = .ok (c', writes) ∧
        s'.written = written ++ writes

theorem answers_error (env : Environment δ) (written : List Write) (c : Cache δ)
    (events : List Event) (f : Fault) : Answers env written c (events, .error f) :=
  fun _ _ h => absurd h (by simp)

theorem answers_waits (env : Environment δ) (s : Session) (c : Cache δ) :
    Answers env s.written c ([], .ok (s, c)) := by
  intro s' c' h
  simp only [Except.ok.injEq, Prod.mk.injEq] at h
  exact Or.inl ⟨rfl, by rw [h.1]⟩

theorem executeArgs_answers (env : Environment δ) (s : Session) (args : Args) (c : Cache δ) :
    Answers env s.written c (executeArgs env s args c) := by
  intro s' c' h
  simp only [executeArgs] at h
  split at h
  · exact absurd h (by simp)
  · next hrun =>
      simp only [Except.ok.injEq, Prod.mk.injEq] at h
      obtain ⟨rfl, rfl⟩ := h
      exact Or.inr ⟨args, _, rfl, hrun, rfl⟩

theorem onDynamicArgs_answers (env : Environment δ) (s : Session) (args : Args) (c : Cache δ) :
    Answers env s.written c (onDynamicArgs env s args c) := by
  unfold onDynamicArgs
  split
  · exact answers_error env _ c _ _
  · exact executeArgs_answers env _ _ c

theorem readDynamicArgs_answers (env : Environment δ) (s : Session) (args : Args)
    (c : Cache δ) : Answers env s.written c (readDynamicArgs env s args c) := by
  unfold readDynamicArgs
  split
  · exact onDynamicArgs_answers env s args c
  · exact answers_waits env { s with pending := _ } c

theorem onStaticArgs_answers (env : Environment δ) (s : Session) (args : Args) (c : Cache δ) :
    Answers env s.written c (onStaticArgs env s args c) := by
  unfold onStaticArgs
  split
  · exact answers_error env _ c _ _
  · exact readDynamicArgs_answers env _ _ c

theorem readArgs_answers (env : Environment δ) (s : Session) (args : Args) (c : Cache δ) :
    Answers env s.written c (readArgs env s args c) := by
  unfold readArgs
  split
  · exact onStaticArgs_answers env { s with args := some args } args c
  · exact answers_waits env { s with args := _, pending := _ } c

theorem onCommand_answers (env : Environment δ) (s : Session) (c : Cache δ) :
    Answers env s.written c (onCommand env s c) := by
  unfold onCommand
  split
  · exact answers_error env _ c _ _
  · next command is _ =>
      split
      · exact answers_error env _ c _ _
      · next args _ => exact readArgs_answers env { s with inputStream := is } args c

/-- **A handler writes the response of the command that it carries out.** -/
theorem onReceived_written (env : Environment δ) (s : Session) (c : Cache δ) :
    Answers env s.written c (onReceived env s c) := by
  unfold onReceived
  split
  · exact onCommand_answers env s c
  · next args _ _ =>
      obtain ⟨f, herror⟩ := onStaticReceived_error (δ := δ) s args
      rw [herror]
      exact answers_error env _ c _ _
  · exact onDynamicArgs_answers env s _ c
  · exact answers_error env _ c _ _
  · exact answers_error env _ c _ _

/-! ## The server and its sockets -/

/-- The server, with the outbox of each session. -/
structure Network (δ : Type) [LinearOrder δ] where
  server : Server δ
  outboxes : Nat → Outbox UInt8

/-- A step of the server, or of the operating system on a socket. -/
inductive Tick
  | input (x : Input)
  /-- Up to `n` bytes of the `j`-th outstanding write of session `i` are sent. -/
  | transmits (i j n : Nat)
  /-- The completion handler of the `j`-th outstanding write of session `i`. -/
  | finishes (i j : Nat)
  deriving DecidableEq, Repr

/-- What is carried out in the next completion handler of session `i`. -/
def Server.executing (env : Environment δ) (w : Server δ) (i : Nat) : List Args :=
  if w.down.isSome then []
  else
    match (w.sessions i).receive with
    | none => []
    | some s => carriedOut (onReceived env s w.cache).1

/-- **The writes of a step of the server.** -/
theorem Server.step_written (env : Environment δ) (w : Server δ) (x : Input) (i : Nat) :
    (((w.step env x).sessions i).written = (w.sessions i).written ∧
        (x = .completes i → (w.step env x).down = none → w.executing env i = [])) ∨
      x = .completes i ∧ ∃ args c' writes, w.executing env i = [args] ∧
        w.cache.processArgs env args = .ok (c', writes) ∧
        ((w.step env x).sessions i).written = (w.sessions i).written ++ writes := by
  by_cases hi : i = x.session
  swap
  · exact Or.inl ⟨by rw [step_sessions hi], fun hx => absurd (hx ▸ rfl) hi⟩
  by_cases hup : w.down = none
  swap
  · rw [step_of_down hup]
    exact Or.inl ⟨rfl, fun _ hup' => absurd hup' hup⟩
  cases x with
  | arrives k segment =>
      obtain rfl : i = k := hi
      refine Or.inl ⟨?_, fun hx => absurd hx (by simp)⟩
      rw [step_arrives hup]
      show (Function.update w.sessions i _ i).written = _
      rw [Function.update_self]
  | hands k portions =>
      obtain rfl : i = k := hi
      refine Or.inl ⟨?_, fun hx => absurd hx (by simp)⟩
      obtain ⟨socket, _, hsame⟩ := (w.sessions i).portioned_eq portions
      rw [step_hands hup, hsame]
      show (Function.update w.sessions i _ i).written = _
      rw [Function.update_self]
  | completes k =>
      obtain rfl : i = k := hi
      rw [step_completes hup]
      cases hreceive : (w.sessions i).receive with
      | none =>
          refine Or.inl ⟨by rw [complete_of_none hreceive], fun _ _ => ?_⟩
          unfold executing
          rw [if_neg (by rw [hup]; decide), hreceive]
      | some s =>
          have hexecuting : w.executing env i = carriedOut (onReceived env s w.cache).1 := by
            unfold executing
            rw [if_neg (by rw [hup]; decide), hreceive]
          have hwritten : s.written = (w.sessions i).written := by
            obtain ⟨r, _, hr⟩ := Option.map_eq_some_iff.mp hreceive
            rw [← hr]
          have hanswers := onReceived_written env s w.cache
          rw [complete_of_some hreceive, hexecuting]
          cases hhandled : onReceived env s w.cache with
          | mk events result =>
              rw [hhandled] at hanswers
              cases result with
              | error f => exact Or.inl ⟨rfl, fun _ hup' => absurd hup' (by simp [finish])⟩
              | ok r =>
                  have hafter : ((w.finish i (events, .ok r)).sessions i).written =
                      r.1.written := by
                    show (Function.update w.sessions i r.1 i).written = _
                    rw [Function.update_self]
                  rw [hafter, ← hwritten]
                  rcases hanswers r.1 r.2 rfl with ⟨hnone, hsame⟩ | ⟨args, writes, hargs, hrun, hmore⟩
                  · exact Or.inl ⟨hsame, fun _ _ => hnone⟩
                  · exact Or.inr ⟨rfl, args, r.2, writes, hargs, hrun, hmore⟩

namespace Network

def start : Network δ where
  server := Server.start
  outboxes := fun _ => ⟨List.replicate maxLength 0, [], []⟩

/-- An operation of the system on the socket of session `i`, while the process runs. -/
def onSocket (i : Nat) (f : Outbox UInt8 → Outbox UInt8) (net : Network δ) : Network δ :=
  if net.server.down.isSome then net
  else { net with outboxes := Function.update net.outboxes i (f (net.outboxes i)) }

/-- The writes that a step of the server has started go through the outbox. -/
def step (env : Environment δ) (net : Network δ) : Tick → Network δ
  | .input x =>
      let server := net.server.step env x
      { server := server
        outboxes := fun i =>
          ((server.sessions i).written.drop (net.server.sessions i).written.length).foldl
            (fun o write => write.perform o) (net.outboxes i) }
  | .transmits i j n => net.onSocket i (fun o => o.transmit j n)
  | .finishes i j => net.onSocket i (fun o => o.finish j)

def run (env : Environment δ) (ticks : List Tick) : Network δ := ticks.foldl (step env) start

theorem run_concat (env : Environment δ) (ticks : List Tick) (t : Tick) :
    run env (ticks ++ [t]) = (run env ticks).step env t := by
  rw [run, List.foldl_append]
  rfl

/-- The responses of session `i` so far, in the order of the commands. -/
def responses (net : Network δ) (i : Nat) : Bytes :=
  responseBytes (net.server.sessions i).written

/-! ## While nothing is carried out under a write -/

/-- `process_args` is not called for a session with a write outstanding, unless for a
SEARCH that writes nothing. -/
def Clear (env : Environment δ) (net : Network δ) : Tick → Prop
  | .input (.completes i) =>
      (net.outboxes i).outstanding = [] ∨
        (net.server.executing env i).all Args.noQueries = true
  | .input (.arrives _ _) => True
  | .input (.hands _ _) => True
  | .transmits _ _ _ => True
  | .finishes _ _ => True

instance (env : Environment δ) (net : Network δ) (t : Tick) : Decidable (net.Clear env t) := by
  unfold Clear
  split <;> infer_instance

/-- All steps of a run are clear. -/
def AllClear (env : Environment δ) (net : Network δ) : List Tick → Prop
  | [] => True
  | t :: ticks => net.Clear env t ∧ (net.step env t).AllClear env ticks

instance decidableAllClear (env : Environment δ) :
    ∀ (net : Network δ) (ticks : List Tick), Decidable (net.AllClear env ticks)
  | _, [] => isTrue trivial
  | net, t :: ticks =>
      have := decidableAllClear env (net.step env t) ticks
      inferInstanceAs (Decidable (net.Clear env t ∧ (net.step env t).AllClear env ticks))

/-- Every outbox carries the responses of its session. -/
def Inv (net : Network δ) : Prop := ∀ i, Carries (net.outboxes i) (net.responses i)

theorem inv_start : (start : Network δ).Inv := fun _ => .atRest rfl rfl

theorem Inv.onSocket {net : Network δ} (h : net.Inv) (i : Nat)
    {f : Outbox UInt8 → Outbox UInt8}
    (hf : ∀ {o : Outbox UInt8} {produced : Bytes}, Carries o produced → Carries (f o) produced) :
    (net.onSocket i f).Inv := by
  unfold Network.onSocket
  split
  · exact h
  · intro k
    show Carries (Function.update net.outboxes i _ k) (net.responses k)
    by_cases hk : k = i
    · subst hk
      rw [Function.update_self]
      exact hf (h k)
    · rw [Function.update_of_ne hk]
      exact h k

/-- **A clear step keeps the invariant.** -/
theorem Inv.step {env : Environment δ} {net : Network δ} (h : net.Inv) {t : Tick}
    (hclear : net.Clear env t) : (net.step env t).Inv := by
  cases t with
  | input x =>
      intro i
      have hsame : ((net.server.step env x).sessions i).written =
          (net.server.sessions i).written → Carries ((net.step env (.input x)).outboxes i)
            ((net.step env (.input x)).responses i) := by
        intro hwritten
        show Carries (List.foldl _ (net.outboxes i)
          (((net.server.step env x).sessions i).written.drop _))
          (responseBytes ((net.server.step env x).sessions i).written)
        rw [hwritten, List.drop_length]
        exact h i
      rcases Server.step_written env net.server x i with
        ⟨hwritten, _⟩ | ⟨rfl, args, c', writes, hargs, hrun, hwritten⟩
      · exact hsame hwritten
      · obtain ⟨hreply, hnil⟩ := Cache.processArgs_reply hrun
        rcases hclear with hrest | hquiet
        · show Carries (List.foldl _ (net.outboxes i)
            (((net.server.step env (.completes i)).sessions i).written.drop _))
            (responseBytes ((net.server.step env (.completes i)).sessions i).written)
          rw [hwritten, List.drop_left, responseBytes_append]
          exact hreply.carries (h i) hrest
        · -- nothing is written
          rw [hargs, List.all_cons, List.all_nil, Bool.and_true] at hquiet
          rw [hnil.mpr hquiet, List.append_nil] at hwritten
          exact hsame hwritten
  | transmits i j n => exact h.onSocket i (fun hcarries => hcarries.transmit j n)
  | finishes i j => exact h.onSocket i (fun hcarries => hcarries.finish j)

theorem allClear_append {env : Environment δ} {net : Network δ} {past later : List Tick} :
    net.AllClear env (past ++ later) ↔
      net.AllClear env past ∧ (past.foldl (Network.step env) net).AllClear env later := by
  induction past generalizing net with
  | nil => exact ⟨fun h => ⟨trivial, h⟩, fun h => h.2⟩
  | cons t past ih =>
      show (_ ∧ (net.step env t).AllClear env (past ++ later)) ↔ _
      rw [ih, ← and_assoc]
      rfl

theorem Inv.steps {env : Environment δ} {net : Network δ} (h : net.Inv) {ticks : List Tick}
    (hclear : net.AllClear env ticks) : (ticks.foldl (Network.step env) net).Inv := by
  induction ticks generalizing net with
  | nil => exact h
  | cons t ticks ih => exact ih (h.step hclear.1) hclear.2

/-- **The invariant of every clear run.** -/
theorem inv_run {env : Environment δ} {ticks : List Tick}
    (hclear : (start : Network δ).AllClear env ticks) : (run env ticks).Inv :=
  inv_start.steps hclear

/-! ## What the client receives -/

/-- The client has received the responses of session `i` in their order, up to some byte,
and all of them once no write is outstanding; and there is at most one. -/
structure Intact (net : Network δ) (i : Nat) : Prop where
  inOrder : (net.outboxes i).delivered <+: net.responses i
  complete : (net.outboxes i).outstanding = [] → (net.outboxes i).delivered = net.responses i
  single : (net.outboxes i).outstanding.length ≤ 1

/-- While a write of session `i` is outstanding, its buffer is not filled and no other
write is started. -/
def Undisturbed (net net' : Network δ) (i : Nat) : Prop :=
  (net.outboxes i).outstanding ≠ [] →
    (net'.outboxes i).buffer = (net.outboxes i).buffer ∧
      (net'.server.sessions i).written = (net.server.sessions i).written

theorem Inv.intact {net : Network δ} (h : net.Inv) (i : Nat) : net.Intact i where
  inOrder := (h i).isPrefix
  complete := (h i).delivered_of_rest
  single := (h i).length_le_one

theorem onSocket_undisturbed (net : Network δ) (i k : Nat) {f : Outbox UInt8 → Outbox UInt8}
    (hf : ∀ o, (f o).buffer = o.buffer) : Undisturbed net (net.onSocket i f) k := by
  intro _
  unfold Network.onSocket
  split
  · exact ⟨rfl, rfl⟩
  · refine ⟨?_, rfl⟩
    show (Function.update net.outboxes i _ k).buffer = _
    by_cases hk : k = i
    · subst hk
      rw [Function.update_self, hf]
    · rw [Function.update_of_ne hk]

/-- Without a write there is nothing to disturb. -/
theorem undisturbed_of_written {env : Environment δ} {net : Network δ} {x : Input} {i : Nat}
    (h : ((net.server.step env x).sessions i).written = (net.server.sessions i).written) :
    Undisturbed net (net.step env (.input x)) i := by
  intro _
  refine ⟨?_, h⟩
  show (List.foldl _ (net.outboxes i)
    (((net.server.step env x).sessions i).written.drop _)).buffer = _
  rw [h, List.drop_length]
  rfl

theorem undisturbed_of_clear {env : Environment δ} {net : Network δ} {t : Tick}
    (hclear : net.Clear env t) (i : Nat) : Undisturbed net (net.step env t) i := by
  cases t with
  | transmits k j n => exact onSocket_undisturbed net k i (fun o => o.transmit_buffer j n)
  | finishes k j => exact onSocket_undisturbed net k i (fun o => o.finish_buffer j)
  | input x =>
      rcases Server.step_written env net.server x i with
        ⟨hwritten, _⟩ | ⟨rfl, args, c', writes, hargs, hrun, hwritten⟩
      · exact undisturbed_of_written hwritten
      · rcases hclear with hrest | hquiet
        · exact fun hout => absurd hrest hout
        · rw [hargs, List.all_cons, List.all_nil, Bool.and_true] at hquiet
          rw [(Cache.processArgs_reply hrun).2.mpr hquiet, List.append_nil] at hwritten
          exact undisturbed_of_written hwritten

/-- **No weaker condition will do**: a step that is not clear, and after which the process
still runs, disturbs a write. -/
theorem clear_of_undisturbed {env : Environment δ} {net : Network δ} {t : Tick}
    (hup : (net.step env t).server.down = none)
    (h : ∀ i, Undisturbed net (net.step env t) i) : net.Clear env t := by
  cases t with
  | transmits k j n => exact trivial
  | finishes k j => exact trivial
  | input x =>
      cases x with
      | arrives k segment => exact trivial
      | hands k portions => exact trivial
      | completes k =>
          by_cases hrest : (net.outboxes k).outstanding = []
          · exact Or.inl hrest
          · refine Or.inr ?_
            rcases Server.step_written env net.server (.completes k) k with
              ⟨_, hnone⟩ | ⟨_, args, c', writes, hargs, hrun, hwritten⟩
            · rw [hnone rfl hup]
              rfl
            · have hsame := (h k hrest).2
              have hnil : writes = [] := by
                rw [← List.append_right_eq_self, ← hwritten]
                exact hsame
              rw [hargs, List.all_cons, List.all_nil, Bool.and_true]
              exact (Cache.processArgs_reply hrun).2.mp hnil

/-- **Pipelined responses.**  In a run in which `process_args` is never called under an
outstanding write, every client receives the responses of its commands in order, and no
write is disturbed. -/
theorem responses_intact (env : Environment δ) (ticks : List Tick)
    (hclear : (start : Network δ).AllClear env ticks) (past : List Tick)
    (hpast : past <+: ticks) (i : Nat) :
    (run env past).Intact i ∧
      ∀ t, past ++ [t] <+: ticks → Undisturbed (run env past) ((run env past).step env t) i := by
  obtain ⟨later, rfl⟩ := hpast
  obtain ⟨hbefore, hafter⟩ := allClear_append.mp hclear
  refine ⟨(inv_run hbefore).intact i, ?_⟩
  rintro t ⟨rest, hrest⟩
  rw [List.append_assoc, List.append_cancel_left_eq] at hrest
  subst hrest
  exact undisturbed_of_clear hafter.1 i

/-- Session 0 initializes, and trains when it has been answered. -/
def patientTicks : List Tick :=
  [.input (.arrives 0 (bytesOf (.initializeCall 1 ['u'] { nRecords := some 1 }))),
    .input (.completes 0), .transmits 0 0 5, .transmits 0 0 1024, .finishes 0 0,
    .input (.arrives 0 (bytesOf (.trainCall [[1], [2], [3], [4]]))), .input (.completes 0),
    .transmits 0 0 1024, .finishes 0 0]

theorem responses_intact_patient :
    (run Environment.offline patientTicks).Intact 0 ∧
      ((run Environment.offline patientTicks).outboxes 0).delivered =
        ascii "Initialized cacheTrained cache" := by
  have hclear : (start : Network Nat).AllClear Environment.offline patientTicks := by
    decide +kernel
  have hdelivered : ((run Environment.offline patientTicks).outboxes 0).delivered =
      ascii "Initialized cacheTrained cache" := by
    decide +kernel
  exact ⟨(responses_intact Environment.offline patientTicks hclear patientTicks
    (List.prefix_refl _) 0).1, hdelivered⟩

/-- Session 0 sends both commands at once, and the first response is sent after the
second command has been carried out. -/
def hastyTicks : List Tick :=
  [.input (.arrives 0 (bytesOf (.initializeCall 1 ['u'] { nRecords := some 1 }))),
    .input (.arrives 0 (bytesOf (.trainCall [[1], [2], [3], [4]]))),
    .input (.completes 0), .input (.completes 0), .transmits 0 0 1024]

/-- The client receives the second text over the first one. -/
theorem responses_hasty_fails :
    ((run Environment.offline hastyTicks).outboxes 0).delivered = ascii "Trained cacheache" ∧
      (run Environment.offline hastyTicks).responses 0 =
        ascii "Initialized cacheTrained cache" ∧
      ¬ (run Environment.offline hastyTicks).Intact 0 := by
  have hdelivered : ((run Environment.offline hastyTicks).outboxes 0).delivered =
      ascii "Trained cacheache" := by
    decide +kernel
  have hresponses : (run Environment.offline hastyTicks).responses 0 =
      ascii "Initialized cacheTrained cache" := by
    decide +kernel
  refine ⟨hdelivered, hresponses, ?_⟩
  intro hintact
  have hreceived := hintact.inOrder
  rw [hdelivered, hresponses] at hreceived
  exact absurd hreceived (by decide)

end Network

end Periplus.Ports
