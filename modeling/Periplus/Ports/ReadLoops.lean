import Periplus.Ports.Connection
import Periplus.Verified.Delivery

/-!
# `client.py`: the read loops on any connection

`_read_string` and `_read_floats` ask for what is missing, for 2048 bytes at most, and put
the pieces together before anything is decoded.  Here they are stated over any connection
(`Source`), so that a read may return any part of what it was asked for; the segmented
stream of `Connection` is one of them (`segmented`, `readStringFrom_segmented`).

## Main results

* `read_loops_exact` — what the two loops return, and when they raise.
-/

namespace Periplus.Ports

open Periplus.Verified.Delivery
open Periplus.Verified.Memory
open Periplus.Verified.Run
open Periplus.Verified.Segments

variable {σ : Type}

/-- The loop that both functions contain, and `b''.join`. -/
def receiveFrom (conn : Source σ UInt8) (length : Nat) (s : σ) : Except PyError (Bytes × σ) :=
  (conn.collect 2048 .connectionBroken length 0 s).map (fun r => (r.1.flatten, r.2))

/-- `_read_string`. -/
def readStringFrom (conn : Source σ UInt8) (length : Nat) (s : σ) :
    Except PyError (PyStr × σ) := do
  let (bytes, s) ← receiveFrom conn length s
  let str ← decodeStrict bytes
  .ok (str, s)

/-- `_read_floats`. -/
def readFloatsFrom (conn : Source σ UInt8) (numFloats : Nat) (s : σ) :
    Except PyError (List F32 × σ) := do
  let (allData, s) ← receiveFrom conn (numFloats * 4) s
  let floats ← unpackFloats numFloats allData
  .ok (floats, s)

theorem receiveFrom_of_le (conn : Source σ UInt8) {length : Nat} {s : σ}
    (h : length ≤ (conn.pending s).length) :
    ∃ s', receiveFrom conn length s = .ok ((conn.pending s).take length, s') ∧
      conn.pending s' = (conn.pending s).drop length := by
  have hmissing : length - 0 ≤ (conn.pending s).length := h
  obtain ⟨chunks, s', hcollect, hflatten, hleft⟩ :=
    conn.collect_of_le 2048 PyError.connectionBroken (by norm_num) hmissing
  rw [Nat.sub_zero] at hflatten hleft
  refine ⟨s', ?_, hleft⟩
  rw [receiveFrom, hcollect, ← hflatten]
  rfl

theorem receiveFrom_of_lt (conn : Source σ UInt8) {length : Nat} {s : σ}
    (h : (conn.pending s).length < length) :
    receiveFrom conn length s = .error .connectionBroken := by
  have hmissing : (conn.pending s).length < length - 0 := h
  rw [receiveFrom, conn.collect_of_lt 2048 PyError.connectionBroken hmissing]
  rfl

/-! ## The segmented stream -/

/-- A stream that arrives in segments, of which a read returns the first one at most. -/
def segmented : Source { segs : List Bytes // NoneEmpty segs } UInt8 where
  receive := fun n s => ((receive n s.1).1,
    ⟨(receive n s.1).2, by
      rw [(receive_eq s.2 n).2]
      exact noneEmpty_dropBytes s.2 _⟩)
  pending := fun s => s.1.flatten
  receive_append := by
    intro n s
    show (receive n s.1).1 ++ (receive n s.1).2.flatten = s.1.flatten
    obtain ⟨hdata, hrest⟩ := receive_eq s.2 n
    have hsplit := List.take_append_drop (receive n s.1).1.length s.1.flatten
    rw [hrest, flatten_dropBytes]
    rwa [← hdata] at hsplit
  receive_length_le := fun n s => receive_length_le n s.1
  receive_ne_nil := by
    intro n s hn hpending
    exact List.length_pos_iff.mp (receive_length_pos s.2 hn hpending)

/-- On it the loop is that of `Connection`. -/
theorem collect_segmented (length recd : Nat) (s : { segs : List Bytes // NoneEmpty segs }) :
    (segmented.collect 2048 PyError.connectionBroken length recd s).map
      (fun r => (r.1.flatten, r.2.1)) = receiveAll (length - recd) s.1 := by
  induction hmissing : length - recd using Nat.strongRecOn generalizing recd s with
  | ind n ih =>
      subst hmissing
      rw [Source.collect, receiveAll]
      by_cases hlt : recd < length
      · rw [if_pos hlt, if_neg (by omega)]
        cases hread : segmented.receive (min (length - recd) 2048) s with
        | mk chunk s' =>
            have hreceive : receive (min (length - recd) 2048) s.1 = (chunk, s'.1) := by
              rw [Prod.ext_iff] at hread
              exact Prod.ext hread.1 (congrArg Subtype.val hread.2)
            rw [hreceive]
            cases chunk with
            | nil => rfl
            | cons b bs =>
                have hrest := ih (length - (recd + (bs.length + 1))) (by omega)
                  (recd + (bs.length + 1)) s' rfl
                have hmissing : length - recd - (b :: bs).length =
                    length - (recd + (bs.length + 1)) := by
                  rw [List.length_cons]
                  omega
                show ((segmented.collect 2048 PyError.connectionBroken length
                  (recd + (bs.length + 1)) s').map _).map _ =
                    (receiveAll (length - recd - (b :: bs).length) s'.1 >>= _)
                rw [hmissing, ← hrest]
                cases segmented.collect 2048 PyError.connectionBroken length
                  (recd + (bs.length + 1)) s' with
                | error e => rfl
                | ok r => rfl
      · rw [if_neg hlt, if_pos (by omega)]
        rfl

theorem readStringFrom_segmented (length : Nat) (s : { segs : List Bytes // NoneEmpty segs }) :
    (readStringFrom segmented length s).map (fun r => (r.1, r.2.1)) = readString length s.1 := by
  rw [readString, segRead_bind_apply, ← Nat.sub_zero length, ← collect_segmented, Nat.sub_zero,
    readStringFrom, receiveFrom]
  cases segmented.collect 2048 PyError.connectionBroken length 0 s with
  | error e => rfl
  | ok r =>
      show ((decodeStrict r.1.flatten >>= _).map _) = (StateT.lift (decodeStrict r.1.flatten) r.2.1)
      cases decodeStrict r.1.flatten with
      | error e => rfl
      | ok str => rfl

theorem readFloatsFrom_segmented (numFloats : Nat)
    (s : { segs : List Bytes // NoneEmpty segs }) :
    (readFloatsFrom segmented numFloats s).map (fun r => (r.1, r.2.1)) =
      readFloats numFloats s.1 := by
  rw [readFloats, segRead_bind_apply, ← Nat.sub_zero (numFloats * 4), ← collect_segmented,
    readFloatsFrom, receiveFrom]
  cases segmented.collect 2048 PyError.connectionBroken (numFloats * 4) 0 s with
  | error e => rfl
  | ok r =>
      show ((unpackFloats numFloats r.1.flatten >>= _).map _) =
        (StateT.lift (unpackFloats numFloats r.1.flatten) r.2.1)
      cases unpackFloats numFloats r.1.flatten with
      | error e => rfl
      | ok floats => rfl

/-! ## Any connection -/

/-- **The read loops are exact.**  On every connection they end after at most as many reads
as bytes are needed.  With enough bytes to come they return what exactly these decode to,
and leave the stream right behind them; with fewer they raise. -/
theorem read_loops_exact (conn : Source σ UInt8) (s : σ) (n : Nat) :
    (conn.calls 2048 n 0 s ≤ n ∧
      (n ≤ (conn.pending s).length →
        ∃ s', readStringFrom conn n s =
            (decodeStrict ((conn.pending s).take n)).map (fun str => (str, s')) ∧
          conn.pending s' = (conn.pending s).drop n) ∧
      ((conn.pending s).length < n → readStringFrom conn n s = .error .connectionBroken)) ∧
    (conn.calls 2048 (n * 4) 0 s ≤ n * 4 ∧
      (n * 4 ≤ (conn.pending s).length →
        ∃ s', readFloatsFrom conn n s = .ok (floatsOf n ((conn.pending s).take (n * 4)), s') ∧
          conn.pending s' = (conn.pending s).drop (n * 4)) ∧
      ((conn.pending s).length < n * 4 →
        readFloatsFrom conn n s = .error .connectionBroken)) := by
  refine ⟨⟨conn.calls_le 2048 n 0 s, ?_, ?_⟩, conn.calls_le 2048 (n * 4) 0 s, ?_, ?_⟩
  · intro h
    obtain ⟨s', hread, hleft⟩ := receiveFrom_of_le conn h
    refine ⟨s', ?_, hleft⟩
    rw [readStringFrom, hread, ok_bind]
    rfl
  · intro h
    rw [readStringFrom, receiveFrom_of_lt conn h, error_bind]
  · intro h
    obtain ⟨s', hread, hleft⟩ := receiveFrom_of_le conn h
    refine ⟨s', ?_, hleft⟩
    have hlength : ((conn.pending s).take (n * 4)).length = 4 * n := by
      rw [List.length_take, Nat.min_eq_left h, Nat.mul_comm]
    rw [readFloatsFrom, hread, ok_bind]
    show (unpackFloats n _ >>= _) = _
    rw [unpackFloats, if_pos hlength, ok_bind]
  · intro h
    rw [readFloatsFrom, receiveFrom_of_lt conn h, error_bind]

/-- A character of two bytes that is cut in the middle, and one byte behind it. -/
theorem read_loops_exact_cut :
    ∃ s', readStringFrom segmented 2 ⟨[[0xC3], [0xA9, 0x41]], by simp [NoneEmpty]⟩ =
        (decodeStrict [0xC3, 0xA9]).map (fun str => (str, s')) ∧
      segmented.pending s' = [0x41] :=
  (read_loops_exact segmented ⟨[[0xC3], [0xA9, 0x41]], by simp [NoneEmpty]⟩ 2).1.2.1
    (by decide)

end Periplus.Ports
