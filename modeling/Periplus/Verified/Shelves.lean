import Mathlib

/-!
# Shelves that are filled from a source

Every key has a shelf, which is empty or holds a list of items.  `load` fills the
empty ones of some keys from a source that can refuse, in the order of the keys
and up to the first refusal; `evict` empties the shelves of some keys.  A shelf
that is full is left as it is, also when the source has changed.

## Main results

* `load_cons`, `evict_cons` — loading and evicting one key after the other.
* `load_of_some`, `load_of_not_mem` — what a load leaves alone.
-/

namespace Periplus.Verified.Shelves

universe u v

variable {κ : Type u} {α : Type v}

/-- What is on the shelf of every key. -/
abbrev Stock (κ : Type u) (α : Type v) := κ → Option (List α)

/-- The keys up to the first one that is empty and refused. -/
def served (fetch : κ → Option (List α)) (ks : List κ) (s : Stock κ α) : List κ :=
  ks.takeWhile (fun k => (s k).isSome || (fetch k).isSome)

/-- What is on the shelves of some keys. -/
def contents (ks : List κ) (s : Stock κ α) : List α :=
  ks.flatMap (fun k => (s k).getD [])

theorem served_subset (fetch : κ → Option (List α)) (ks : List κ) (s : Stock κ α) :
    served fetch ks s ⊆ ks :=
  (List.takeWhile_sublist _).subset

/-- Whether a key is served depends only on its own shelf. -/
theorem served_congr {fetch fetch' : κ → Option (List α)} {ks : List κ} {s s' : Stock κ α}
    (h : ∀ k ∈ ks, ((s k).isSome || (fetch k).isSome) = ((s' k).isSome || (fetch' k).isSome)) :
    served fetch ks s = served fetch' ks s' := by
  induction ks with
  | nil => rfl
  | cons k ks ih =>
      rw [List.forall_mem_cons] at h
      unfold served at ih ⊢
      rw [List.takeWhile_cons, List.takeWhile_cons, h.1, ih h.2]

/-- With every shelf kept that was full, nothing gets lost. -/
theorem contents_sublist {ks ks' : List κ} {s s' : Stock κ α} (hks : ks.Sublist ks')
    (h : ∀ k ∈ ks, ∀ xs, s k = some xs → s' k = some xs) :
    (contents ks s).Sublist (contents ks' s') := by
  apply List.Sublist.trans (List.Sublist.flatMap_right ks _) (hks.flatMap _)
  intro k hk
  cases hshelf : s k with
  | none => exact List.nil_sublist _
  | some xs => rw [h k hk xs hshelf]

variable [DecidableEq κ]

/-- Fill the empty shelves that are served. -/
def load (fetch : κ → Option (List α)) (ks : List κ) (s : Stock κ α) : Stock κ α :=
  fun k => if k ∈ served fetch ks s then (s k).or (fetch k) else s k

/-- Empty some shelves. -/
def evict (ks : List κ) (s : Stock κ α) : Stock κ α :=
  fun k => if k ∈ ks then none else s k

/-! ## Loading -/

/-- A load touches only the keys it is asked for. -/
theorem load_of_not_mem {fetch : κ → Option (List α)} {ks : List κ} {s : Stock κ α} {k : κ}
    (h : k ∉ ks) : load fetch ks s k = s k :=
  if_neg (fun hk => h (served_subset fetch ks s hk))

/-- What is on a shelf stays there. -/
theorem load_of_some {fetch : κ → Option (List α)} {ks : List κ} {s : Stock κ α} {k : κ}
    {xs : List α} (h : s k = some xs) : load fetch ks s k = some xs := by
  unfold load
  rw [h, Option.some_or, ite_self]

@[simp] theorem load_nil (fetch : κ → Option (List α)) (s : Stock κ α) :
    load fetch [] s = s := by
  funext k
  exact load_of_not_mem List.not_mem_nil

/-- **Loading one key after the other.** -/
theorem load_cons {fetch : κ → Option (List α)} {k : κ} {ks : List κ} {s : Stock κ α}
    (hk : k ∉ ks) :
    load fetch (k :: ks) s =
      match (s k).or (fetch k) with
      | none => s
      | some xs => load fetch ks (Function.update s k (some xs)) := by
  cases hor : (s k).or (fetch k) with
  | none =>
      obtain ⟨hs, hf⟩ := Option.or_eq_none_iff.mp hor
      funext k'
      refine if_neg ?_
      rw [served, List.takeWhile_cons, hs, hf]
      exact List.not_mem_nil
  | some xs =>
      have hpass : ((s k).isSome || (fetch k).isSome) = true := by
        rw [← Option.isSome_or, hor, Option.isSome_some]
      have hrest : served fetch ks (Function.update s k (some xs)) = served fetch ks s := by
        refine served_congr (fun k' hk' => ?_)
        have hne : k' ≠ k := by
          rintro rfl
          exact hk hk'
        rw [Function.update_of_ne hne]
      have hserved : served fetch (k :: ks) s = k :: served fetch ks s := by
        rw [served, List.takeWhile_cons, if_pos hpass]
        rfl
      funext k'
      show (if k' ∈ served fetch (k :: ks) s then _ else _) =
        if k' ∈ served fetch ks (Function.update s k (some xs)) then _ else _
      rw [hserved, hrest]
      by_cases heq : k' = k
      · subst heq
        have hnot : k' ∉ served fetch ks s := fun h => hk (served_subset fetch ks s h)
        rw [if_pos List.mem_cons_self, if_neg hnot, Function.update_self, hor]
      · rw [Function.update_of_ne heq]
        by_cases hmem : k' ∈ served fetch ks s
        · rw [if_pos (List.mem_cons_of_mem k hmem), if_pos hmem]
        · rw [if_neg hmem, if_neg (fun h => hmem (List.mem_of_ne_of_mem heq h))]

/-! ## Evicting -/

theorem evict_cons (k : κ) (ks : List κ) (s : Stock κ α) :
    evict (k :: ks) s = evict ks (Function.update s k none) := by
  funext k'
  show (if k' ∈ k :: ks then none else s k') =
    if k' ∈ ks then none else Function.update s k none k'
  by_cases heq : k' = k
  · rw [heq, if_pos List.mem_cons_self, Function.update_self, ite_self]
  · rw [Function.update_of_ne heq]
    by_cases hmem : k' ∈ ks
    · rw [if_pos hmem, if_pos (List.mem_cons_of_mem k hmem)]
    · rw [if_neg hmem, if_neg (fun h => hmem (List.mem_of_ne_of_mem heq h))]

end Periplus.Verified.Shelves
