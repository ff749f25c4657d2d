import Mathlib

/-!
# Contiguous buffers

A buffer is a list of cells.  Reading or writing outside of it is `none`,
never a default value, so a proof that an access succeeds is a proof that it is
in bounds.

* `window xs off n` — the `n` cells from offset `off`.
* `store xs i v` — write one cell.
* `memcpy dst off src` — write a block of cells.
* `rowAt k i xs`, `putRow k i row xs` — a matrix stored row after row.
* `written xs` — the values of a buffer in which some cells may never have been
  written.
* `cString xs` — the elements before the first terminator.
* `toLE w n`, `ofLE bs` — a number as `w` little-endian bytes and back.

## Main results

* `window_append_left`, `window_full` — the shapes in which windows of
  concatenations occur.
* `memcpy_replicate` — writing into the fresh tail of a buffer that is filled
  from the front appends: the rule for an encoder with a running offset.
* `rowAt_putRow_self`, `rowAt_putRow_ne` — replacing a row is a pointwise update.
* `ofLE_toLE`, `toLE_ofLE` — the byte round trip, modulo the width, and back.
-/

namespace Periplus.Verified.Memory

universe u

variable {α : Type u}

/-! ## Windows -/

/-- The `n` cells from offset `off`, when they all exist. -/
def window (xs : List α) (off n : Nat) : Option (List α) :=
  if off + n ≤ xs.length then some ((xs.drop off).take n) else none

theorem window_of_le {xs : List α} {off n : Nat} (h : off + n ≤ xs.length) :
    window xs off n = some ((xs.drop off).take n) := by
  rw [window, if_pos h]

theorem window_zero {xs : List α} {n : Nat} (h : n ≤ xs.length) :
    window xs 0 n = some (xs.take n) := by
  rw [window_of_le (by omega), List.drop_zero]

/-- The whole of a buffer is the window at offset `0`. -/
@[simp] theorem window_full (xs : List α) : window xs 0 xs.length = some xs := by
  simp [window]

/-- A window into the first part of a concatenation. -/
theorem window_append_left (xs ys : List α) :
    window (xs ++ ys) 0 xs.length = some xs := by
  simp [window]

/-! ## Writes -/

/-- Overwrite cell `i`. -/
def store (xs : List α) (i : Nat) (v : α) : Option (List α) :=
  if i < xs.length then some (xs.set i v) else none

theorem store_of_lt {xs : List α} {i : Nat} (h : i < xs.length) (v : α) :
    store xs i v = some (xs.set i v) := by
  rw [store, if_pos h]

/-- Overwrite the block of cells that starts at `off`. -/
def memcpy (dst : List α) (off : Nat) (src : List α) : Option (List α) :=
  if off + src.length ≤ dst.length then
    some (dst.take off ++ src ++ dst.drop (off + src.length))
  else none

/-- An encoder that fills a fresh buffer from the front: a block written at the
running offset extends what has been written by that block. -/
theorem memcpy_replicate (done src : List α) (z : α) (n : Nat)
    (h : src.length ≤ n) :
    memcpy (done ++ List.replicate n z) done.length src =
      some (done ++ src ++ List.replicate (n - src.length) z) := by
  rw [memcpy, if_pos (by simp only [List.length_append, List.length_replicate]; omega)]
  have htake : (done ++ List.replicate n z).take done.length = done := List.take_left
  have hdrop : (done ++ List.replicate n z).drop (done.length + src.length) =
      List.replicate (n - src.length) z := by
    rw [← List.drop_drop, List.drop_left, List.drop_replicate]
  rw [htake, hdrop]

/-! ## Rows of a fixed length

A matrix stored row after row: row `i` of length `k` starts at offset `i * k`.
-/

/-- Row `i` of a buffer of rows of length `k`. -/
def rowAt (k i : Nat) (xs : List α) : List α := (xs.drop (i * k)).take k

/-- Replace row `i`. -/
def putRow (k i : Nat) (row xs : List α) : List α :=
  xs.take (i * k) ++ row ++ xs.drop (i * k + k)

theorem rowAt_zero (k : Nat) (xs : List α) : rowAt k 0 xs = xs.take k := by
  rw [rowAt, Nat.zero_mul, List.drop_zero]

/-- A row ends before the next one starts. -/
theorem row_le {i n : Nat} (h : i < n) (k : Nat) : i * k + k ≤ n * k := by
  rw [← Nat.succ_mul]
  exact Nat.mul_le_mul_right k (Nat.succ_le_of_lt h)

theorem putRow_length {k i : Nat} {row xs : List α} (hrow : row.length = k)
    (hroom : i * k + k ≤ xs.length) : (putRow k i row xs).length = xs.length := by
  simp only [putRow, List.length_append, List.length_take, List.length_drop, hrow]
  omega

theorem rowAt_putRow_self {k i : Nat} {row xs : List α} (hrow : row.length = k)
    (hroom : i * k + k ≤ xs.length) : rowAt k i (putRow k i row xs) = row := by
  have hfront : (xs.take (i * k)).length = i * k := by
    rw [List.length_take]
    omega
  rw [rowAt, putRow, List.append_assoc, List.drop_left' hfront, List.take_left' hrow]

/-- Replacing a row leaves every other row alone. -/
theorem rowAt_putRow_ne {k i j : Nat} {row xs : List α} (hrow : row.length = k)
    (hroom : i * k + k ≤ xs.length) (hij : j ≠ i) :
    rowAt k j (putRow k i row xs) = rowAt k j xs := by
  have hfront : (xs.take (i * k)).length = i * k := by
    rw [List.length_take]
    omega
  rcases Nat.lt_or_ge j i with hlt | hge
  · have hle := row_le hlt k
    have hback : k ≤ (xs.take (i * k)).length - j * k := by omega
    rw [rowAt, rowAt, putRow, List.append_assoc,
      List.drop_append_of_le_length (by omega),
      List.take_append_of_le_length (by rw [List.length_drop]; exact hback),
      List.drop_take, List.take_take]
    congr 1
    omega
  · have hlt : i < j := by omega
    have hle := row_le hlt k
    have hboth : (xs.take (i * k) ++ row).length = i * k + k := by
      rw [List.length_append, hfront, hrow]
    obtain ⟨r, hr⟩ : ∃ r, j * k = i * k + k + r := ⟨j * k - (i * k + k), by omega⟩
    rw [rowAt, rowAt, putRow, hr, ← List.drop_drop, List.drop_left' hboth,
      List.drop_drop]

/-! ## Cells that may never have been written -/

/-- The values of a buffer all of whose cells have been written. -/
def written : List (Option α) → Option (List α)
  | [] => some []
  | none :: _ => none
  | some v :: cells => (written cells).map (v :: ·)

@[simp] theorem written_map_some (xs : List α) : written (xs.map some) = some xs := by
  induction xs with
  | nil => rfl
  | cons x xs ih => simp [written, ih]

theorem written_eq_some {cells : List (Option α)} {xs : List α} :
    written cells = some xs ↔ cells = xs.map some := by
  constructor
  · intro h
    induction cells generalizing xs with
    | nil =>
        simp only [written, Option.some.injEq] at h
        subst h
        rfl
    | cons c cells ih =>
        cases c with
        | none => simp [written] at h
        | some v =>
            simp only [written, Option.map_eq_some_iff] at h
            obtain ⟨ys, hys, rfl⟩ := h
            rw [ih hys, List.map_cons]
  · rintro rfl
    exact written_map_some xs

/-! ## Terminated strings -/

section CString

variable [DecidableEq α]

/-- The elements before the first `z`; a buffer without one has no string. -/
def cString (z : α) (xs : List α) : Option (List α) :=
  if z ∈ xs then some (xs.takeWhile (· ≠ z)) else none

/-- A string without the terminator, followed by it, is read back. -/
theorem cString_append {z : α} {xs : List α} (h : z ∉ xs) (ys : List α) :
    cString z (xs ++ z :: ys) = some xs := by
  have hkeep : ∀ x ∈ xs, (decide (x ≠ z)) = true := by
    intro x hx
    simp only [decide_eq_true_eq]
    rintro rfl
    exact h hx
  rw [cString, if_pos (by simp), List.takeWhile_append_of_pos hkeep,
    List.takeWhile_cons_of_neg (by simp), List.append_nil]

end CString

/-! ## Little-endian words -/

/-- The `w` low bytes of `n`, least significant first. -/
def toLE : Nat → Nat → List UInt8
  | 0, _ => []
  | w + 1, n => UInt8.ofNat n :: toLE w (n / 256)

/-- The number whose bytes, least significant first, are given. -/
def ofLE : List UInt8 → Nat
  | [] => 0
  | b :: bs => b.toNat + 256 * ofLE bs

@[simp] theorem toLE_length (w n : Nat) : (toLE w n).length = w := by
  induction w generalizing n with
  | zero => rfl
  | succ w ih => simp [toLE, ih]

theorem ofLE_toLE (w n : Nat) : ofLE (toLE w n) = n % 256 ^ w := by
  induction w generalizing n with
  | zero => simp [toLE, ofLE, Nat.mod_one]
  | succ w ih =>
      have hbyte : (UInt8.ofNat n).toNat = n % 256 := by simp
      rw [toLE, ofLE, hbyte, ih (n / 256), pow_succ, Nat.mul_comm (256 ^ w) 256,
        Nat.mod_mul]

theorem ofLE_lt (bs : List UInt8) : ofLE bs < 256 ^ bs.length := by
  induction bs with
  | nil => exact Nat.one_pos
  | cons b bs ih =>
      have := b.toNat_lt
      rw [ofLE, List.length_cons, pow_succ]
      omega

theorem toLE_ofLE (bs : List UInt8) : toLE bs.length (ofLE bs) = bs := by
  induction bs with
  | nil => rfl
  | cons b bs ih =>
      have hlt := b.toNat_lt
      have hlow : UInt8.ofNat (b.toNat + 256 * ofLE bs) = b := by
        apply UInt8.toNat_inj.mp
        rw [UInt8.toNat_ofNat']
        omega
      have hhigh : (b.toNat + 256 * ofLE bs) / 256 = ofLE bs := by omega
      rw [List.length_cons, ofLE, toLE, hlow, hhigh, ih]

theorem ofLE_toLE_of_lt {w n : Nat} (h : n < 256 ^ w) : ofLE (toLE w n) = n := by
  rw [ofLE_toLE, Nat.mod_eq_of_lt h]

end Periplus.Verified.Memory
