import Periplus.Verified.Run
import Mathlib.Data.List.Basic

/-!
# Reading a known number of elements from a connection

A read of at most `n` elements may return fewer, as many as have arrived.  What is assumed
of a connection is that nothing is lost, repeated or reordered, and that a read returns
nothing only at the end of the stream (`Source`).  Which part is returned each time is
left open, and may depend on anything.

`collect` is the usual loop over such reads: it asks for what is missing, for `cap` elements
at most, and gives up when a read returns nothing.

## Main results

* `calls_le` — the loop ends, after at most as many reads as elements are asked for.
* `collect_of_le` — it returns exactly the next elements, and the stream is right behind them.
* `collect_of_lt` — when the stream ends before, it gives up.
-/

namespace Periplus.Verified.Delivery

open Periplus.Verified.Run

universe u v

/-- A connection in state `s` has `pending s` still to deliver. -/
structure Source (σ : Type u) (α : Type v) where
  receive : Nat → σ → List α × σ
  pending : σ → List α
  receive_append : ∀ n s, (receive n s).1 ++ pending (receive n s).2 = pending s
  receive_length_le : ∀ n s, (receive n s).1.length ≤ n
  receive_ne_nil : ∀ n s, 0 < n → pending s ≠ [] → (receive n s).1 ≠ []

namespace Source

variable {σ : Type u} {α : Type v} {ε : Type} (D : Source σ α) (cap : Nat) (broken : ε)

/-- The chunks of a loop that has `recd` elements and needs `length`. -/
def collect (length recd : Nat) (s : σ) : Except ε (List (List α) × σ) :=
  if recd < length then
    match D.receive (min (length - recd) cap) s with
    | ([], _) => .error broken
    | (a :: as, s) =>
        (collect length (recd + (as.length + 1)) s).map (fun r => ((a :: as) :: r.1, r.2))
  else .ok ([], s)
termination_by length - recd

/-- How often the loop reads. -/
def calls (length recd : Nat) (s : σ) : Nat :=
  if recd < length then
    match D.receive (min (length - recd) cap) s with
    | ([], _) => 1
    | (_ :: as, s) => calls length (recd + (as.length + 1)) s + 1
  else 0
termination_by length - recd

/-- **The loop ends.** -/
theorem calls_le (length recd : Nat) (s : σ) : D.calls cap length recd s ≤ length - recd := by
  induction hmissing : length - recd using Nat.strongRecOn generalizing recd s with
  | ind n ih =>
      rw [calls]
      by_cases hlt : recd < length
      · rw [if_pos hlt]
        split
        · omega
        · next as s' _ =>
            have hrest := ih (length - (recd + (as.length + 1))) (by omega)
              (recd + (as.length + 1)) s' rfl
            omega
      · rw [if_neg hlt]
        exact Nat.zero_le n

/-- What a read that is not at the end of the stream leaves to be read. -/
theorem receive_cons {n : Nat} {s s' : σ} {a : α} {as : List α}
    (h : D.receive n s = (a :: as, s')) :
    D.pending s = a :: as ++ D.pending s' ∧ as.length + 1 ≤ n := by
  have happend := D.receive_append n s
  have hle := D.receive_length_le n s
  rw [h] at happend hle
  exact ⟨happend.symm, hle⟩

/-- A read returns nothing only at the end of the stream. -/
theorem pending_of_receive_nil {n : Nat} {s s' : σ} (hn : 0 < n)
    (h : D.receive n s = ([], s')) : D.pending s = [] := by
  by_contra hne
  exact D.receive_ne_nil n s hn hne (congrArg Prod.fst h)

/-- **The loop is exact**: it returns the next elements and leaves the others. -/
theorem collect_of_le (hcap : 0 < cap) {length recd : Nat} {s : σ}
    (h : length - recd ≤ (D.pending s).length) :
    ∃ chunks s', D.collect cap broken length recd s = .ok (chunks, s') ∧
      chunks.flatten = (D.pending s).take (length - recd) ∧
      D.pending s' = (D.pending s).drop (length - recd) := by
  induction hmissing : length - recd using Nat.strongRecOn generalizing recd s with
  | ind n ih =>
      subst hmissing
      rw [collect]
      by_cases hlt : recd < length
      · rw [if_pos hlt]
        have hwanted : 0 < min (length - recd) cap := by omega
        cases hread : D.receive (min (length - recd) cap) s with
        | mk chunk s' =>
            cases chunk with
            | nil =>
                -- the stream has not ended, so this read would have returned something
                rw [D.pending_of_receive_nil hwanted hread, List.length_nil] at h
                omega
            | cons a as =>
                obtain ⟨hpending, hle⟩ := D.receive_cons hread
                have hlength : (D.pending s).length = as.length + 1 + (D.pending s').length := by
                  rw [hpending, List.length_append, List.length_cons]
                have hsplit : length - recd =
                    (a :: as).length + (length - (recd + (as.length + 1))) := by
                  rw [List.length_cons]
                  omega
                have henough : length - (recd + (as.length + 1)) ≤ (D.pending s').length := by
                  omega
                obtain ⟨chunks, s'', hrest, hflatten, hleft⟩ :=
                  ih (length - (recd + (as.length + 1))) (by omega) henough rfl
                refine ⟨(a :: as) :: chunks, s'', ?_, ?_, ?_⟩
                · show (D.collect cap broken length (recd + (as.length + 1)) s').map _ = _
                  rw [hrest]
                  rfl
                · rw [List.flatten_cons, hflatten, hpending, hsplit, List.take_length_add_append]
                · rw [hleft, hpending, hsplit, List.drop_length_add_append]
      · have hnone : length - recd = 0 := by omega
        rw [if_neg hlt, hnone, List.take_zero, List.drop_zero]
        exact ⟨[], s, rfl, rfl, rfl⟩

/-- **The loop gives up** when the stream ends before. -/
theorem collect_of_lt {length recd : Nat} {s : σ}
    (h : (D.pending s).length < length - recd) :
    D.collect cap broken length recd s = .error broken := by
  induction hmissing : length - recd using Nat.strongRecOn generalizing recd s with
  | ind n ih =>
      subst hmissing
      rw [collect, if_pos (by omega)]
      cases hread : D.receive (min (length - recd) cap) s with
      | mk chunk s' =>
          cases chunk with
          | nil => rfl
          | cons a as =>
              obtain ⟨hpending, _⟩ := D.receive_cons hread
              have hlength : (D.pending s).length = as.length + 1 + (D.pending s').length := by
                rw [hpending, List.length_append, List.length_cons]
              have hshort : (D.pending s').length < length - (recd + (as.length + 1)) := by
                omega
              have hrest := ih (length - (recd + (as.length + 1))) (by omega) hshort rfl
              show (D.collect cap broken length (recd + (as.length + 1)) s').map _ = _
              rw [hrest]
              rfl

end Source

end Periplus.Verified.Delivery
