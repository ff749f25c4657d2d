import Mathlib

/-!
# Selecting the `k` best elements of a list

`IsTopK key k xs ys` says that `ys` is one correct answer to "the `k` elements
of `xs` with the smallest keys, in order".  Elements with equal keys may be
chosen and ordered in any way, so the relation is exactly "up to ties".

`select` is one function that meets it; a search library may be any other.

## Main results

* `IsTopK.perm` — the answer depends only on the multiset searched.
* `IsTopK.map` — an answer is carried along a map that respects the keys.
* `IsTopK.keys_eq` — two answers have the same keys at the same places.
* `IsTopK.key_le_iff` — a place of an answer is an order statistic of the list.
* `IsTopK.keys_le` — an answer over more elements is at no place worse.
* `isTopK_append_iff` — an answer over a part of a list is an answer over the
  whole of it exactly when enough of the part comes before each other element.
* `isTopK_select` — `select` meets the relation.
-/

namespace Periplus.Verified.TopK

universe u v w

variable {α : Type u} {β : Type v} {δ : Type w} [LinearOrder δ]

/-- `ys` lists `k` elements of `xs` with the smallest keys (all of `xs` when
there are fewer), from the smallest key to the largest. -/
structure IsTopK (key : α → δ) (k : Nat) (xs ys : List α) : Prop where
  length : ys.length = min k xs.length
  sorted : ys.Pairwise (fun a b => key a ≤ key b)
  split : ∃ rest, (ys ++ rest).Perm xs ∧ ∀ y ∈ ys, ∀ r ∈ rest, key y ≤ key r

theorem IsTopK.mem {key : α → δ} {k : Nat} {xs ys : List α}
    (h : IsTopK key k xs ys) {y : α} (hy : y ∈ ys) : y ∈ xs := by
  obtain ⟨rest, hperm, _⟩ := h.split
  exact hperm.subset (List.mem_append_left rest hy)

/-- The answer depends only on which elements are searched, not on the order
in which they are stored. -/
theorem IsTopK.perm {key : α → δ} {k : Nat} {xs xs' ys : List α}
    (h : IsTopK key k xs ys) (hx : xs.Perm xs') : IsTopK key k xs' ys := by
  obtain ⟨rest, hperm, hle⟩ := h.split
  exact
    { length := by rw [h.length, hx.length_eq]
      sorted := h.sorted
      split := ⟨rest, hperm.trans hx, hle⟩ }

/-- Transport along a map under which the keys agree. -/
theorem IsTopK.map {key : α → δ} {key' : β → δ} {k : Nat} {xs ys : List α}
    (h : IsTopK key k xs ys) (f : α → β) (hf : ∀ x ∈ xs, key' (f x) = key x) :
    IsTopK key' k (xs.map f) (ys.map f) := by
  obtain ⟨rest, hperm, hle⟩ := h.split
  have hys : ∀ y ∈ ys, key' (f y) = key y := fun y hy => hf y (h.mem hy)
  have hrest : ∀ r ∈ rest, key' (f r) = key r := fun r hr =>
    hf r (hperm.subset (List.mem_append_right ys hr))
  refine
    { length := by simp only [List.length_map]; exact h.length
      sorted := ?_
      split := ⟨rest.map f, ?_, ?_⟩ }
  · rw [List.pairwise_map]
    refine h.sorted.imp_of_mem ?_
    intro a b ha hb hab
    rw [hys a ha, hys b hb]
    exact hab
  · rw [← List.map_append]
    exact hperm.map f
  · intro y hy r hr
    obtain ⟨y', hy', rfl⟩ := List.mem_map.mp hy
    obtain ⟨r', hr', rfl⟩ := List.mem_map.mp hr
    rw [hys y' hy', hrest r' hr']
    exact hle y' hy' r' hr'

/-- Of one element at most, an answer is what is searched. -/
theorem IsTopK.eq_of_length_le_one {key : α → δ} {k : Nat} {xs ys : List α}
    (h : IsTopK key k xs ys) (hk : k ≠ 0) (hone : xs.length ≤ 1) : ys = xs := by
  obtain ⟨rest, hperm, _⟩ := h.split
  have hlen := h.length
  have hall := hperm.length_eq
  rw [List.length_append] at hall
  have hrest : rest = [] := List.length_eq_zero_iff.mp (by omega)
  rw [hrest, List.append_nil] at hperm
  cases xs with
  | nil => exact hperm.eq_nil
  | cons x xs =>
      rw [List.length_cons] at hone
      have hnil : xs = [] := List.length_eq_zero_iff.mp (by omega)
      subst hnil
      exact List.perm_singleton.mp hperm

/-- Where all keys are equal, every arrangement begins with an answer. -/
theorem isTopK_take_of_perm {key : α → δ} (hkey : ∀ a b, key a = key b) (k : Nat)
    {xs ys : List α} (h : ys.Perm xs) : IsTopK key k xs (ys.take k) where
  length := by rw [List.length_take, h.length_eq]
  sorted := List.pairwise_of_forall (fun a b => (hkey a b).le)
  split := ⟨ys.drop k, by rwa [List.take_append_drop], fun a _ b _ => (hkey a b).le⟩

/-- An element with a key strictly below every other comes first. -/
theorem IsTopK.head?_of_unique_min {key : α → δ} {k : Nat} {xs ys : List α}
    (h : IsTopK key k xs ys) (hk : 0 < k) {x : α} (hx : x ∈ xs)
    (hmin : ∀ y ∈ xs, y ≠ x → key x < key y) : ys.head? = some x := by
  obtain ⟨rest, hperm, hle⟩ := h.split
  cases ys with
  | nil =>
      have hlen := h.length
      have : 0 < xs.length := List.length_pos_of_mem hx
      simp only [List.length_nil] at hlen
      omega
  | cons y ys =>
      by_cases hy : y = x
      · rw [List.head?_cons, hy]
      · exfalso
        have hlt := hmin y (h.mem List.mem_cons_self) hy
        have hx' : x ∈ (y :: ys) ++ rest := hperm.symm.subset hx
        rcases List.mem_append.mp hx' with hin | hin
        · rcases List.mem_cons.mp hin with heq | htail
          · exact hy heq.symm
          · exact absurd ((List.pairwise_cons.mp h.sorted).1 x htail) (not_le.mpr hlt)
        · exact absurd (hle y List.mem_cons_self x hin) (not_le.mpr hlt)

/-- The keys of an answer are the first ones of all keys in order. -/
theorem IsTopK.keys {key : α → δ} {k : Nat} {xs ys : List α} (h : IsTopK key k xs ys) :
    ys.map key = ((xs.map key).insertionSort (· ≤ ·)).take ys.length := by
  obtain ⟨rest, hperm, hle⟩ := h.split
  let behind := (rest.map key).insertionSort (· ≤ ·)
  have hbehind : behind.Perm (rest.map key) := List.perm_insertionSort _ _
  have hall : (ys.map key ++ behind).Perm ((xs.map key).insertionSort (· ≤ ·)) := by
    calc
      (ys.map key ++ behind).Perm (ys.map key ++ rest.map key) := hbehind.append_left _
      List.Perm _ (xs.map key) := by
        rw [← List.map_append]
        exact hperm.map key
      List.Perm _ ((xs.map key).insertionSort (· ≤ ·)) := (List.perm_insertionSort _ _).symm
  have hsorted : (ys.map key ++ behind).Pairwise (· ≤ ·) := by
    rw [List.pairwise_append]
    refine ⟨List.pairwise_map.mpr h.sorted, List.pairwise_insertionSort _ _, ?_⟩
    intro a ha b hb
    obtain ⟨y, hy, rfl⟩ := List.mem_map.mp ha
    obtain ⟨r, hr, rfl⟩ := List.mem_map.mp (hbehind.subset hb)
    exact hle y hy r hr
  have heq : ys.map key ++ behind = (xs.map key).insertionSort (· ≤ ·) :=
    hall.eq_of_pairwise' hsorted (List.pairwise_insertionSort _ _)
  rw [← heq, List.take_left' (List.length_map key)]

/-- **Two answers agree up to ties**: they have the same keys at the same places. -/
theorem IsTopK.keys_eq {key : α → δ} {k : Nat} {xs ys zs : List α} (h : IsTopK key k xs ys)
    (h' : IsTopK key k xs zs) : ys.map key = zs.map key := by
  rw [h.keys, h'.keys, h.length, h'.length]

/-! ## Searching more -/

/-- In a list in order, the elements up to a bound are a first part of it. -/
theorem key_le_iff_of_sorted {key : α → δ} {ys : List α}
    (h : ys.Pairwise (fun a b => key a ≤ key b)) {j : Nat} (hj : j < ys.length) (t : δ) :
    key ys[j] ≤ t ↔ j < ys.countP (fun y => key y ≤ t) := by
  have hsplit : ys.countP (fun y => decide (key y ≤ t)) =
      (ys.take j).countP (fun y => decide (key y ≤ t)) +
        (ys.drop j).countP (fun y => decide (key y ≤ t)) := by
    rw [← List.countP_append, List.take_append_drop]
  have hdrop : ys.drop j = ys[j] :: ys.drop (j + 1) := List.drop_eq_getElem_cons hj
  have hlen : (ys.take j).length = j := List.length_take_of_le (Nat.le_of_lt hj)
  rw [← List.take_append_drop j ys, List.pairwise_append, hdrop, List.pairwise_cons] at h
  obtain ⟨_, ⟨hbehind, _⟩, hbefore⟩ := h
  rw [hsplit, hdrop]
  by_cases hle : key ys[j] ≤ t
  · have hall : (ys.take j).countP (fun y => decide (key y ≤ t)) = j := by
      refine (List.countP_eq_length.mpr ?_).trans hlen
      intro y hy
      exact decide_eq_true ((hbefore y hy ys[j] List.mem_cons_self).trans hle)
    have hself : 0 < (ys[j] :: ys.drop (j + 1)).countP (fun y => decide (key y ≤ t)) :=
      List.countP_pos_iff.mpr ⟨ys[j], List.mem_cons_self, decide_eq_true hle⟩
    rw [hall]
    exact ⟨fun _ => by omega, fun _ => hle⟩
  · have hnone : (ys[j] :: ys.drop (j + 1)).countP (fun y => decide (key y ≤ t)) = 0 := by
      rw [List.countP_eq_zero]
      intro y hy
      rw [decide_eq_true_eq]
      rcases List.mem_cons.mp hy with rfl | hy
      · exact hle
      · exact fun hyt => hle ((hbehind y hy).trans hyt)
    have hfew := (ys.take j).countP_le_length (p := fun y => decide (key y ≤ t))
    rw [hnone]
    exact ⟨fun h => absurd h hle, fun h => by omega⟩

/-- **A place of an answer is an order statistic**: its key is up to a bound when more
elements than those before it are. -/
theorem IsTopK.key_le_iff {key : α → δ} {k : Nat} {xs ys : List α} (h : IsTopK key k xs ys)
    {j : Nat} (hj : j < ys.length) (t : δ) :
    key ys[j] ≤ t ↔ j < xs.countP (fun x => key x ≤ t) := by
  obtain ⟨rest, hperm, hle⟩ := h.split
  rw [key_le_iff_of_sorted h.sorted hj, ← hperm.countP_eq, List.countP_append]
  constructor
  · intro hlt
    omega
  · intro hlt
    by_contra hnot
    -- the rest has a part in the count, and then all of the answer has
    have hpos : 0 < rest.countP (fun x => decide (key x ≤ t)) := by omega
    obtain ⟨r, hr, hrt⟩ := List.countP_pos_iff.mp hpos
    have hall : ys.countP (fun y => decide (key y ≤ t)) = ys.length := by
      rw [List.countP_eq_length]
      intro y hy
      exact decide_eq_true ((hle y hy r hr).trans (of_decide_eq_true hrt))
    omega

/-- **Searching more gives at no place a worse answer.** -/
theorem IsTopK.keys_le {key : α → δ} {k k' : Nat} {xs xs' ys ys' : List α}
    (h : IsTopK key k xs ys) (h' : IsTopK key k' xs' ys') (hsub : xs.Subperm xs')
    (hk : k ≤ k') :
    ys.length ≤ ys'.length ∧
      ∀ (j : Nat) (hj : j < ys.length) (hj' : j < ys'.length), key ys'[j] ≤ key ys[j] := by
  have hlen := hsub.length_le
  constructor
  · rw [h.length, h'.length]
    omega
  · intro j hj hj'
    have hcount := (h.key_le_iff hj (key ys[j])).mp le_rfl
    exact (h'.key_le_iff hj' (key ys[j])).mpr (hcount.trans_le (hsub.countP_le _))

/-! ## Searching only a part -/

/-- An answer over a longer list that uses only `xs` leaves every other element
behind. -/
private theorem IsTopK.rest_of_append {key : α → δ} {k : Nat} {xs ys zs : List α}
    (hpart : IsTopK key k xs zs) (hall : IsTopK key k (xs ++ ys) zs) :
    ∀ z ∈ zs, ∀ y ∈ ys, key z ≤ key y := by
  obtain ⟨rest, hrest, _⟩ := hpart.split
  obtain ⟨rest', hrest', hle⟩ := hall.split
  have hboth : (zs ++ rest').Perm (zs ++ (rest ++ ys)) := by
    refine hrest'.trans ?_
    rw [← List.append_assoc]
    exact hrest.symm.append_right ys
  have hcancel : rest'.Perm (rest ++ ys) := (List.perm_append_left_iff zs).mp hboth
  intro z hz y hy
  exact hle z hz y (hcancel.symm.subset (List.mem_append_right rest hy))

/-- **An answer over a part is an answer over the whole** exactly when every
element outside of the part has at least `k` elements of the part before it. -/
theorem isTopK_append_iff {key : α → δ} {k : Nat} {xs ys zs : List α}
    (h : IsTopK key k xs zs) :
    IsTopK key k (xs ++ ys) zs ↔
      ∀ y ∈ ys, k ≤ xs.countP (fun x => key x ≤ key y) := by
  obtain ⟨rest, hperm, hle⟩ := h.split
  have hcount : ∀ p : α → Bool, xs.countP p = zs.countP p + rest.countP p := by
    intro p
    rw [← hperm.countP_eq, List.countP_append]
  constructor
  · intro hall y hy
    have hbefore := h.rest_of_append hall
    have hfull : zs.length = k := by
      have hlen := h.length
      have hlen' := hall.length
      have hpos : 0 < ys.length := List.length_pos_of_mem hy
      rw [List.length_append] at hlen'
      omega
    have hzs : zs.countP (fun x => decide (key x ≤ key y)) = zs.length := by
      rw [List.countP_eq_length]
      intro z hz
      exact decide_eq_true (hbefore z hz y hy)
    rw [hcount, hzs, hfull]
    exact Nat.le_add_right k _
  · intro hcounts
    have hroom : ys ≠ [] → k ≤ xs.length := by
      intro hne
      obtain ⟨y, hy⟩ := List.exists_mem_of_ne_nil ys hne
      exact Nat.le_trans (hcounts y hy) List.countP_le_length
    refine
      { length := ?_
        sorted := h.sorted
        split := ⟨rest ++ ys, ?_, ?_⟩ }
    · rw [h.length, List.length_append]
      by_cases hne : ys = []
      · rw [hne, List.length_nil, Nat.add_zero]
      · have := hroom hne
        omega
    · rw [← List.append_assoc]
      exact hperm.append_right ys
    · intro z hz r hr
      rcases List.mem_append.mp hr with hr | hr
      · exact hle z hz r hr
      · by_contra hlt
        -- `z` is behind `r`, hence so is the rest, and fewer than `k` are left
        have hz' : key r < key z := not_le.mp hlt
        have hnone : rest.countP (fun x => decide (key x ≤ key r)) = 0 := by
          rw [List.countP_eq_zero]
          intro x hx
          have := lt_of_lt_of_le hz' (hle z hz x hx)
          simpa using this
        have hfew : zs.countP (fun x => decide (key x ≤ key r)) < zs.length := by
          refine lt_of_le_of_ne List.countP_le_length ?_
          intro heq
          have hmem := List.countP_eq_length.mp heq z hz
          exact hlt (of_decide_eq_true hmem)
        have hk := hcounts r hr
        have hlen := h.length
        rw [hcount, hnone] at hk
        omega

/-! ## A selection function -/

/-- Sort by key and keep the first `k`. -/
def select (key : α → δ) (k : Nat) (xs : List α) : List α :=
  (xs.insertionSort (fun a b => key a ≤ key b)).take k

theorem isTopK_select (key : α → δ) (k : Nat) (xs : List α) :
    IsTopK key k xs (select key k xs) := by
  let r : α → α → Prop := fun a b => key a ≤ key b
  have : Std.Total r := ⟨fun a b => le_total (key a) (key b)⟩
  have : IsTrans α r := ⟨fun _ _ _ hab hbc => le_trans hab hbc⟩
  have hsorted : (xs.insertionSort r).Pairwise r := List.pairwise_insertionSort r xs
  have hsplit : (xs.insertionSort r).take k ++ (xs.insertionSort r).drop k =
      xs.insertionSort r := List.take_append_drop k _
  refine
    { length := ?_
      sorted := hsorted.sublist (List.take_sublist k _)
      split := ⟨(xs.insertionSort r).drop k, ?_, ?_⟩ }
  · rw [select, List.length_take, List.length_insertionSort]
  · rw [select, hsplit]
    exact List.perm_insertionSort r xs
  · rw [← hsplit, List.pairwise_append] at hsorted
    exact hsorted.2.2

end Periplus.Verified.TopK
