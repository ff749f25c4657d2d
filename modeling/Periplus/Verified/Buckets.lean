import Mathlib

/-!
# A list split into buckets

Every element is sent to at most one bucket.  `bucket f c xs` is the part of
`xs` that is sent to `c`, in the order of `xs`.

## Main results

* `bucket_append` — what is appended to a list is appended to its buckets.
* `flatMap_bucket_perm` — different buckets together hold the elements that are
  sent to one of them, each once.
* `perm_of_keys_perm` — pairs taken from a list with distinct keys are determined,
  up to order, by their keys.
-/

namespace Periplus.Verified.Buckets

universe u v

variable {α : Type u} {κ : Type v} [DecidableEq κ]

/-- The elements of `xs` that are sent to `c`. -/
def bucket (f : α → Option κ) (c : κ) (xs : List α) : List α :=
  xs.filter (fun x => f x = some c)

/-- The elements of `xs` that are sent to one of `cs`. -/
def buckets (f : α → Option κ) (cs : List κ) (xs : List α) : List α :=
  xs.filter (fun x => ∃ c ∈ cs, f x = some c)

@[simp] theorem bucket_nil (f : α → Option κ) (c : κ) : bucket f c [] = [] := rfl

theorem bucket_append (f : α → Option κ) (c : κ) (xs ys : List α) :
    bucket f c (xs ++ ys) = bucket f c xs ++ bucket f c ys :=
  List.filter_append xs ys

theorem bucket_singleton (f : α → Option κ) (c : κ) (x : α) :
    bucket f c [x] = if f x = some c then [x] else [] := by
  rw [bucket, List.filter_singleton]
  by_cases h : f x = some c <;> simp [h]

theorem mem_bucket {f : α → Option κ} {c : κ} {xs : List α} {x : α} :
    x ∈ bucket f c xs ↔ x ∈ xs ∧ f x = some c := by
  simp [bucket]

/-- The elements sent to the first of several keys, and to the others. -/
private theorem buckets_cons_perm (f : α → Option κ) {c : κ} {cs : List κ}
    (hc : c ∉ cs) (xs : List α) :
    (bucket f c xs ++ buckets f cs xs).Perm (buckets f (c :: cs) xs) := by
  have hfirst : (buckets f (c :: cs) xs).filter (fun x => decide (f x = some c)) =
      bucket f c xs := by
    rw [buckets, bucket, List.filter_filter]
    refine List.filter_congr ?_
    intro x _
    by_cases h : f x = some c <;> simp [h]
  have hothers : (buckets f (c :: cs) xs).filter (fun x => !decide (f x = some c)) =
      buckets f cs xs := by
    rw [buckets, buckets, List.filter_filter]
    refine List.filter_congr ?_
    intro x _
    by_cases h : f x = some c
    · -- an element of the first bucket is in no other
      have hnone : ¬ ∃ c' ∈ cs, f x = some c' := by
        rintro ⟨c', hc', hx⟩
        rw [h, Option.some.injEq] at hx
        exact hc (hx ▸ hc')
      simp [h, hc]
    · simp [h]
  rw [← hfirst, ← hothers]
  exact List.filter_append_perm (fun x => decide (f x = some c)) _

/-- **Different buckets partition the elements that are sent to one of them.** -/
theorem flatMap_bucket_perm (f : α → Option κ) {cs : List κ} (hcs : cs.Nodup)
    (xs : List α) :
    (cs.flatMap (fun c => bucket f c xs)).Perm (buckets f cs xs) := by
  induction cs with
  | nil => simp [buckets]
  | cons c cs ih =>
      rw [List.nodup_cons] at hcs
      rw [List.flatMap_cons]
      exact ((ih hcs.2).append_left _).trans (buckets_cons_perm f hcs.1 xs)

/-! ## Pairs with distinct keys -/

/-- Two pairs with one key are equal when the keys are distinct. -/
theorem eq_of_nodup_keys {β : Type*} {ps : List (α × β)}
    (h : (ps.map Prod.fst).Nodup) {p q : α × β} (hp : p ∈ ps) (hq : q ∈ ps)
    (hkey : p.1 = q.1) : p = q :=
  List.inj_on_of_nodup_map h hp hq hkey

/-- Pairs taken from `ps` are determined by their keys, when those of `ps` are
distinct. -/
theorem perm_of_keys_perm {β : Type*} {ps : List (α × β)} (h : (ps.map Prod.fst).Nodup)
    {as bs : List (α × β)} (ha : ∀ p ∈ as, p ∈ ps) (hb : ∀ p ∈ bs, p ∈ ps)
    (hnodup : (bs.map Prod.fst).Nodup)
    (hkeys : (as.map Prod.fst).Perm (bs.map Prod.fst)) : as.Perm bs := by
  have has : as.Nodup := (hkeys.nodup_iff.mpr hnodup).of_map _
  have hbs : bs.Nodup := hnodup.of_map _
  rw [List.perm_ext_iff_of_nodup has hbs]
  intro p
  constructor
  · intro hp
    obtain ⟨q, hq, hkey⟩ := List.mem_map.mp (hkeys.subset (List.mem_map_of_mem hp))
    exact eq_of_nodup_keys h (hb q hq) (ha p hp) hkey ▸ hq
  · intro hp
    obtain ⟨q, hq, hkey⟩ := List.mem_map.mp (hkeys.symm.subset (List.mem_map_of_mem hp))
    exact eq_of_nodup_keys h (ha q hq) (hb p hp) hkey ▸ hq

end Periplus.Verified.Buckets
