import Mathlib

/-!
# One buffer, and the writes that are sent from it

A write is *asynchronous* when only its start is waited for: the elements are taken
out of the buffer later, some at a time, and a completion follows when all are gone.
It is *synchronous* when it comes back with everything delivered.  The buffer is the
same for all of them, and nothing stops an owner from filling it again while a write
is outstanding: what is taken then is what is in it then.

## Main results

* `Carries.start`, `Carries.send` — a write from an outbox at rest carries what it is
  given.
* `Carries.transmit`, `Carries.finish` — taking elements and completing keep it.
* `Carries.isPrefix`, `Carries.delivered_of_rest` — what has been delivered is a prefix of
  what has been produced, and all of it once nothing is outstanding.
-/

namespace Periplus.Verified.Outgoing

/-- A write of `length` elements, of which `sent` have been taken. -/
structure Transmission where
  length : Nat
  sent : Nat
  deriving DecidableEq, Repr

structure Outbox (α : Type*) where
  buffer : List α
  /-- The asynchronous writes without a completion, in the order of their starts. -/
  outstanding : List Transmission
  /-- What has reached the other side. -/
  delivered : List α
  deriving DecidableEq, Repr

variable {α : Type*}

namespace Outbox

/-- Copy to the beginning of the buffer. -/
def fill (xs : List α) (o : Outbox α) : Outbox α :=
  { o with buffer := xs ++ o.buffer.drop xs.length }

/-- Fill the buffer and start an asynchronous write. -/
def start (xs : List α) (o : Outbox α) : Outbox α :=
  { o.fill xs with outstanding := o.outstanding ++ [⟨xs.length, 0⟩] }

/-- Fill the buffer and write synchronously. -/
def send (xs : List α) (o : Outbox α) : Outbox α :=
  { o.fill xs with delivered := o.delivered ++ xs }

/-- At most `n` elements of the `j`-th outstanding write are taken out of the buffer. -/
def transmit (j n : Nat) (o : Outbox α) : Outbox α :=
  match o.outstanding[j]? with
  | none => o
  | some t =>
      let taken := ((o.buffer.take t.length).drop t.sent).take n
      { o with
        outstanding := o.outstanding.set j ⟨t.length, t.sent + taken.length⟩
        delivered := o.delivered ++ taken }

/-- The completion of the `j`-th outstanding write, when all of it has been taken. -/
def finish (j : Nat) (o : Outbox α) : Outbox α :=
  match o.outstanding[j]? with
  | none => o
  | some t => if t.sent = t.length then { o with outstanding := o.outstanding.eraseIdx j } else o

end Outbox

/-! ## What an undisturbed outbox carries -/

/-- What is still to be taken for a write. -/
def Transmission.rest (t : Transmission) (buffer : List α) : List α :=
  (buffer.take t.length).drop t.sent

/-- At most one write is outstanding, and what has been delivered and what it has still to
take make up what has been produced. -/
inductive Carries (o : Outbox α) (produced : List α) : Prop
  | atRest (outstanding : o.outstanding = []) (delivered : o.delivered = produced)
  | inFlight {t : Transmission} (outstanding : o.outstanding = [t])
      (delivered : o.delivered ++ t.rest o.buffer = produced)

namespace Carries

variable {o : Outbox α} {produced : List α}

theorem length_le_one (h : Carries o produced) : o.outstanding.length ≤ 1 := by
  cases h with
  | atRest hout _ => rw [hout]; exact Nat.zero_le 1
  | inFlight hout _ => rw [hout]; exact Nat.le_refl 1

/-- What has been delivered is a prefix of what has been produced. -/
theorem isPrefix (h : Carries o produced) : o.delivered <+: produced := by
  cases h with
  | atRest _ hdelivered => rw [hdelivered]
  | inFlight _ hdelivered => exact ⟨_, hdelivered⟩

theorem delivered_of_rest (h : Carries o produced) (hrest : o.outstanding = []) :
    o.delivered = produced := by
  cases h with
  | atRest _ hdelivered => exact hdelivered
  | inFlight hout _ =>
      rw [hrest] at hout
      exact absurd hout (by simp)

/-- **A write is started at rest.** -/
theorem start (h : Carries o produced) (hrest : o.outstanding = []) (xs : List α) :
    Carries (o.start xs) (produced ++ xs) := by
  refine .inFlight (t := ⟨xs.length, 0⟩) ?_ ?_
  · show o.outstanding ++ [_] = [_]
    rw [hrest, List.nil_append]
  · show o.delivered ++ ((xs ++ o.buffer.drop xs.length).take xs.length).drop 0 = _
    rw [List.take_left, List.drop_zero, h.delivered_of_rest hrest]

/-- **A synchronous write at rest.** -/
theorem send (h : Carries o produced) (hrest : o.outstanding = []) (xs : List α) :
    Carries (o.send xs) (produced ++ xs) := by
  refine .atRest hrest ?_
  show o.delivered ++ xs = produced ++ xs
  rw [h.delivered_of_rest hrest]

theorem sends (h : Carries o produced) (hrest : o.outstanding = []) (xss : List (List α)) :
    Carries (xss.foldl (fun o xs => o.send xs) o) (produced ++ xss.flatten) := by
  induction xss generalizing o produced with
  | nil =>
      rw [List.flatten_nil, List.append_nil]
      exact h
  | cons xs xss ih =>
      have hnext := ih (h.send hrest xs) hrest
      rwa [List.append_assoc] at hnext

theorem transmit (h : Carries o produced) (j n : Nat) : Carries (o.transmit j n) produced := by
  unfold Outbox.transmit
  cases h with
  | atRest hout hdelivered =>
      rw [hout]
      exact .atRest hout hdelivered
  | @inFlight t hout hdelivered =>
      cases j with
      | succ j =>
          rw [hout]
          exact .inFlight hout hdelivered
      | zero =>
          rw [hout]
          refine .inFlight rfl ?_
          show (o.delivered ++ (t.rest o.buffer).take n) ++
            (o.buffer.take t.length).drop (t.sent + ((t.rest o.buffer).take n).length) = _
          have hrest : (o.buffer.take t.length).drop
              (t.sent + ((t.rest o.buffer).take n).length) = (t.rest o.buffer).drop n := by
            rw [← List.drop_drop]
            show (t.rest o.buffer).drop ((t.rest o.buffer).take n).length = _
            rw [List.length_take]
            rcases Nat.le_total n (t.rest o.buffer).length with hn | hn
            · rw [Nat.min_eq_left hn]
            · rw [Nat.min_eq_right hn, List.drop_length, List.drop_of_length_le hn]
          rw [hrest, List.append_assoc, List.take_append_drop, hdelivered]

theorem finish (h : Carries o produced) (j : Nat) : Carries (o.finish j) produced := by
  unfold Outbox.finish
  cases h with
  | atRest hout hdelivered =>
      rw [hout]
      exact .atRest hout hdelivered
  | @inFlight t hout hdelivered =>
      cases j with
      | succ j =>
          rw [hout]
          exact .inFlight hout hdelivered
      | zero =>
          rw [hout]
          by_cases hall : t.sent = t.length
          · -- nothing is left to be taken
            have hnone : t.rest o.buffer = [] := by
              rw [Transmission.rest, hall]
              exact List.drop_of_length_le (List.length_take_le _ _)
            rw [hnone, List.append_nil] at hdelivered
            simp only [List.getElem?_cons_zero, hall, if_true]
            exact .atRest rfl hdelivered
          · simp only [List.getElem?_cons_zero, hall, if_false]
            exact .inFlight hout hdelivered

end Carries

/-- Taking elements and completing leave the buffer alone. -/
theorem Outbox.transmit_buffer (o : Outbox α) (j n : Nat) :
    (o.transmit j n).buffer = o.buffer := by
  unfold Outbox.transmit
  split
  · rfl
  · rfl

theorem Outbox.finish_buffer (o : Outbox α) (j : Nat) : (o.finish j).buffer = o.buffer := by
  unfold Outbox.finish
  split
  · rfl
  · split
    · rfl
    · rfl

end Periplus.Verified.Outgoing
