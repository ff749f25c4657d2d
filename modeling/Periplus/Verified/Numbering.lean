import Mathlib.Data.List.Basic
import Mathlib.Logic.Function.Basic

/-!
# Numbering keys in the order in which they come

A table gives a number to each key that it knows.  Keys come one after the other and a
counter advances with every one of them; a key that is known keeps its number, another one
is entered under the counter.

## Main results

* `numberAll_eq` — every key keeps its number, and a new one has that of its first
  occurrence.
* `Numbered.numberAll` — distinct keys have distinct numbers below the counter.
-/

namespace Periplus.Verified.Numbering

universe u

variable {κ : Type u} [DecidableEq κ]

/-- Enter `k` under `n`, unless it is known. -/
def number (table : κ → Option Nat) (n : Nat) (k : κ) : κ → Option Nat :=
  if (table k).isSome then table else Function.update table k (some n)

/-- Enter keys under the numbers from `n`. -/
def numberAll : (κ → Option Nat) → Nat → List κ → κ → Option Nat
  | table, _, [] => table
  | table, n, k :: ks => numberAll (number table n k) (n + 1) ks

theorem number_eq (table : κ → Option Nat) (n : Nat) (k k' : κ) :
    number table n k k' = (table k').or (if k' = k then some n else none) := by
  unfold number
  by_cases hknown : (table k).isSome
  · rw [if_pos hknown]
    by_cases hk : k' = k
    · obtain ⟨m, hm⟩ := Option.isSome_iff_exists.mp hknown
      rw [hk, hm, Option.some_or]
    · rw [if_neg hk, Option.or_none]
  · rw [if_neg hknown]
    by_cases hk : k' = k
    · rw [hk, Function.update_self, if_pos rfl, Option.not_isSome_iff_eq_none.mp hknown,
        Option.none_or]
    · rw [Function.update_of_ne hk, if_neg hk, Option.or_none]

/-- **The number of a key**: the one it had, or that of its first occurrence. -/
theorem numberAll_eq [BEq κ] [LawfulBEq κ] (table : κ → Option Nat) (n : Nat) (ks : List κ)
    (k : κ) :
    numberAll table n ks k =
      (table k).or (if k ∈ ks then some (n + ks.idxOf k) else none) := by
  induction ks generalizing table n with
  | nil => rw [numberAll, if_neg List.not_mem_nil, Option.or_none]
  | cons k' ks ih =>
      rw [numberAll, ih, number_eq, Option.or_assoc]
      congr 1
      by_cases hk : k = k'
      · rw [if_pos hk, Option.some_or, hk, if_pos List.mem_cons_self, List.idxOf_cons_self,
          Nat.add_zero]
      · rw [if_neg hk, Option.none_or, List.idxOf_cons_ne _ (Ne.symm hk)]
        by_cases hmem : k ∈ ks
        · rw [if_pos hmem, if_pos (List.mem_cons_of_mem k' hmem), Nat.succ_add_eq_add_succ]
        · have hnot : k ∉ k' :: ks := by
            rw [List.mem_cons, not_or]
            exact ⟨hk, hmem⟩
          rw [if_neg hmem, if_neg hnot]

/-- Numbers that have been given are not given again. -/
structure Numbered (table : κ → Option Nat) (n : Nat) : Prop where
  injective : ∀ a b m, table a = some m → table b = some m → a = b
  below : ∀ a m, table a = some m → m < n

theorem Numbered.number {table : κ → Option Nat} {n : Nat} (h : Numbered table n) (k : κ) :
    Numbered (number table n k) (n + 1) := by
  have hcases : ∀ a m, Numbering.number table n k a = some m →
      table a = some m ∨ (a = k ∧ m = n) := by
    intro a m ha
    rw [number_eq, Option.or_eq_some_iff] at ha
    rcases ha with ha | ⟨_, ha⟩
    · exact Or.inl ha
    · by_cases hak : a = k
      · rw [if_pos hak, Option.some.injEq] at ha
        exact Or.inr ⟨hak, ha.symm⟩
      · rw [if_neg hak] at ha
        exact absurd ha (by simp)
  constructor
  · intro a b m ha hb
    rcases hcases a m ha with hold | ⟨hak, hm⟩
    · rcases hcases b m hb with hold' | ⟨_, hm⟩
      · exact h.injective a b m hold hold'
      · exact absurd (h.below a m hold) (by omega)
    · rcases hcases b m hb with hold' | ⟨hbk, _⟩
      · exact absurd (h.below b m hold') (by omega)
      · rw [hak, hbk]
  · intro a m ha
    rcases hcases a m ha with hold | ⟨_, hm⟩
    · exact Nat.lt_succ_of_lt (h.below a m hold)
    · omega

/-- **Distinct keys have distinct numbers.** -/
theorem Numbered.numberAll {table : κ → Option Nat} {n : Nat} (h : Numbered table n)
    (ks : List κ) : Numbered (numberAll table n ks) (n + ks.length) := by
  induction ks generalizing table n with
  | nil => exact h
  | cons k ks ih =>
      rw [List.length_cons, ← Nat.succ_add_eq_add_succ]
      exact ih (h.number k)

end Periplus.Verified.Numbering
