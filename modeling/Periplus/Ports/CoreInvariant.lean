import Periplus.Ports.CoreSteps

/-!
# The tables of the core agree with each other

`StoreInv` relates the five tables: what the inverted lists hold is what
`data_map` holds, each entry lies in the list of the cell it is nearest to,
empty residency means an empty list, and the numbers given out are distinct.

It is preserved by the five updates of `step_rule`, hence by every operation,
hence it holds after every sequence of operations that comes back
(`storeInv_of_reaches`), whatever the database answered on the way.  Two
consequences are drawn at once: a number occurs in at most one place, and the
assertion in `Core::search` cannot fail.
-/

namespace Periplus.Ports

open Periplus.Verified.Memory
open Periplus.Verified.Run
open Periplus.Verified.TopK

namespace Core

variable {nCells : Nat} {δ : Type} [LinearOrder δ]

/-- The numbers stored in the inverted list of a cell. -/
def numbers (s : Core nCells) (c : Fin nCells) : List Nat :=
  (s.invlists c).map Entry.num

structure StoreInv (F : Faiss nCells δ) (s : Core nCells) : Prop where
  listNodup : ∀ c, (s.numbers c).Nodup
  listed : ∀ c, ∀ e ∈ s.invlists c, ∃ x, s.dataMap e.num = some x ∧
    x.readEmbedding F.d = .ok e.vec ∧ F.nearest e.vec = some c
  stored : ∀ num x, s.dataMap num = some x → ∃ c, num ∈ s.numbers c
  emptyLists : ∀ c, s.residenceStatuses c = -1 → s.invlists c = []
  statuses : ∀ c, s.residenceStatuses c = -1 ∨ 0 ≤ s.residenceStatuses c
  registered : ∀ num x, s.dataMap num = some x →
    ∃ id, x.idString = .ok id ∧ s.idMap id = some num
  idInjective : ∀ a b num, s.idMap a = some num → s.idMap b = some num → a = b
  idBelow : ∀ id num, s.idMap id = some num → num < s.nextId

theorem storeInv_fresh (F : Faiss nCells δ) : StoreInv F (fresh F) where
  listNodup := fun c => List.nodup_nil
  listed := fun c e he => absurd he List.not_mem_nil
  stored := fun num x hx => absurd hx (by simp [fresh])
  emptyLists := fun c _ => rfl
  statuses := fun c => Or.inl rfl
  registered := fun num x hx => absurd hx (by simp [fresh])
  idInjective := fun a b num ha => absurd ha (by simp [fresh])
  idBelow := fun id num hid => absurd hid (by simp [fresh])

/-- A number that is listed is stored, under a record nearest to that cell. -/
theorem StoreInv.of_mem_numbers {F : Faiss nCells δ} {s : Core nCells}
    (h : StoreInv F s) {c : Fin nCells} {num : Nat} (hnum : num ∈ s.numbers c) :
    ∃ x v, s.dataMap num = some x ∧ x.readEmbedding F.d = .ok v ∧
      F.nearest v = some c := by
  obtain ⟨e, he, rfl⟩ := List.mem_map.mp hnum
  obtain ⟨x, hx, hv, hnear⟩ := h.listed c e he
  exact ⟨x, e.vec, hx, hv, hnear⟩

/-- No number is listed in two cells. -/
theorem StoreInv.cell_unique {F : Faiss nCells δ} {s : Core nCells}
    (h : StoreInv F s) {c c' : Fin nCells} {num : Nat} (hc : num ∈ s.numbers c)
    (hc' : num ∈ s.numbers c') : c = c' := by
  obtain ⟨x, v, hx, hv, hnear⟩ := h.of_mem_numbers hc
  obtain ⟨x', v', hx', hv', hnear'⟩ := h.of_mem_numbers hc'
  rw [hx, Option.some.injEq] at hx'
  subst hx'
  rw [hv, Except.ok.injEq] at hv'
  subst hv'
  rw [hnear, Option.some.injEq] at hnear'
  exact hnear'

/-- The numbers in the lists of different cells are distinct. -/
theorem StoreInv.numbers_nodup {F : Faiss nCells δ} {s : Core nCells} (h : StoreInv F s)
    {cells : List (Fin nCells)} (hcells : cells.Nodup) :
    ((cells.flatMap s.invlists).map Entry.num).Nodup := by
  rw [List.map_flatMap, List.nodup_flatMap]
  constructor
  · exact fun c _ => h.listNodup c
  · refine hcells.imp ?_
    intro c c' hne num hnum hnum'
    exact hne (h.cell_unique hnum hnum')

/-! ## Preservation -/

theorem StoreInv.register {F : Faiss nCells δ} {s : Core nCells}
    (h : StoreInv F s) (c : Fin nCells) (id : Bytes) : StoreInv F (s.register c id) := by
  -- the number of an id that is present is kept
  have hkeep : ∀ a num, s.idMap a = some num → (s.register c id).idMap a = some num := by
    intro a num ha
    by_cases hid : (s.idMap id).isSome
    · simp only [Core.register, if_pos hid, ha]
    · have hne : a ≠ id := by
        rintro rfl
        simp [ha] at hid
      simp only [Core.register, if_neg hid, Function.update_of_ne hne, ha]
  -- a number is an old one or the next one, given to `id`
  have hcases : ∀ a num, (s.register c id).idMap a = some num →
      s.idMap a = some num ∨ (a = id ∧ num = s.nextId) := by
    intro a num ha
    by_cases hid : (s.idMap id).isSome
    · simp only [Core.register, if_pos hid] at ha
      exact Or.inl ha
    · by_cases heq : a = id
      · simp only [Core.register, if_neg hid, heq, Function.update_self,
          Option.some.injEq] at ha
        exact Or.inr ⟨heq, ha.symm⟩
      · simp only [Core.register, if_neg hid, Function.update_of_ne heq] at ha
        exact Or.inl ha
  refine
    { listNodup := h.listNodup
      listed := h.listed
      stored := h.stored
      emptyLists := h.emptyLists
      statuses := h.statuses
      registered := ?_
      idInjective := ?_
      idBelow := ?_ }
  · intro num x hx
    obtain ⟨a, ha, hnum⟩ := h.registered num x hx
    exact ⟨a, ha, hkeep a num hnum⟩
  · intro a b num ha hb
    rcases hcases a num ha with ha' | ⟨rfl, rfl⟩
    · rcases hcases b num hb with hb' | ⟨rfl, rfl⟩
      · exact h.idInjective a b num ha' hb'
      · exact absurd (h.idBelow a _ ha') (lt_irrefl _)
    · rcases hcases b _ hb with hb' | ⟨rfl, _⟩
      · exact absurd (h.idBelow b _ hb') (lt_irrefl _)
      · rfl
  · intro a num ha
    have hnext : (s.register c id).nextId = s.nextId + 1 := rfl
    rw [hnext]
    rcases hcases a num ha with ha' | ⟨_, rfl⟩
    · exact Nat.lt_succ_of_lt (h.idBelow a num ha')
    · exact Nat.lt_succ_self _

theorem StoreInv.loaded {F : Faiss nCells δ} {s s' : Core nCells}
    {target : Fin nCells} {xs : List Data} (h : StoreInv F s)
    (hload : Loaded F target xs s s') : StoreInv F s' := by
  obtain ⟨_, _, hidMap⟩ := hload.registry
  have hlist : s'.invlists target = s.invlists target ++
      (accepted F target s.idMap xs).map Stored.entry := by
    rw [hload.invlists, Function.update_self]
  have hother : ∀ c, c ≠ target → s'.invlists c = s.invlists c := by
    intro c hc
    rw [hload.invlists, Function.update_of_ne hc]
  have hnums : s'.numbers target =
      s.numbers target ++ (accepted F target s.idMap xs).map Stored.num := by
    rw [numbers, hlist, List.map_append, List.map_map]
    rfl
  have hnumsOther : ∀ c, c ≠ target → s'.numbers c = s.numbers c := by
    intro c hc
    rw [numbers, numbers, hother c hc]
  refine
    { listNodup := ?_
      listed := ?_
      stored := ?_
      emptyLists := ?_
      statuses := ?_
      registered := ?_
      idInjective := by rw [hidMap]; exact h.idInjective
      idBelow := by rw [hidMap, hload.registry.1]; exact h.idBelow }
  · intro c
    by_cases hc : c = target
    · subst hc
      rw [hnums, List.nodup_append]
      refine ⟨h.listNodup c, hload.admits.nodup, ?_⟩
      -- a number listed before is stored, and an admitted one is not
      rintro num hnum _ hmem rfl
      obtain ⟨e, he, rfl⟩ := List.mem_map.mp hmem
      obtain ⟨x, _, hx, _⟩ := h.of_mem_numbers hnum
      rw [hload.admits.absent e he] at hx
      exact absurd hx (by simp)
    · rw [hnumsOther c hc]
      exact h.listNodup c
  · intro c e he
    have hold : e ∈ s.invlists c → ∃ x, s'.dataMap e.num = some x ∧
        x.readEmbedding F.d = .ok e.vec ∧ F.nearest e.vec = some c := by
      intro he
      obtain ⟨x, hx, hv, hnear⟩ := h.listed c e he
      exact ⟨x, hload.dataMap_mono hx, hv, hnear⟩
    by_cases hc : c = target
    · subst hc
      rw [hlist, List.mem_append] at he
      rcases he with he | he
      · exact hold he
      · obtain ⟨st, hst, rfl⟩ := List.mem_map.mp he
        obtain ⟨_, hv, hnear, _⟩ := accepted_spec hst
        exact ⟨st.record, hload.dataMap_accepted hst, hv, hnear⟩
    · rw [hother c hc] at he
      exact hold he
  · intro num x hx
    rcases hload.dataMap_cases hx with ⟨e, he, rfl, _⟩ | hx
    · refine ⟨target, ?_⟩
      rw [hnums]
      exact List.mem_append_right _ (List.mem_map_of_mem he)
    · obtain ⟨c, hc⟩ := h.stored num x hx
      refine ⟨c, ?_⟩
      by_cases heq : c = target
      · subst heq
        rw [hnums]
        exact List.mem_append_left _ hc
      · rwa [hnumsOther c heq]
  · intro c hstatus
    by_cases hc : c = target
    · subst hc
      rw [hload.residenceStatuses, Function.update_self] at hstatus
      omega
    · rw [hload.residenceStatuses, Function.update_of_ne hc] at hstatus
      rw [hother c hc]
      exact h.emptyLists c hstatus
  · intro c
    rw [hload.residenceStatuses]
    by_cases hc : c = target
    · subst hc
      rw [Function.update_self]
      omega
    · rw [Function.update_of_ne hc]
      exact h.statuses c
  · intro num x hx
    rw [hidMap]
    rcases hload.dataMap_cases hx with ⟨e, he, rfl, rfl⟩ | hx
    · exact (accepted_spec he).2.2.2
    · exact h.registered num x hx

theorem StoreInv.evicted {F : Faiss nCells δ} {s : Core nCells}
    (h : StoreInv F s) (c : Fin nCells) : StoreInv F (s.evicted c) := by
  have hdata : ∀ num, (s.evicted c).dataMap num =
      if num ∈ s.numbers c then none else s.dataMap num :=
    fun num => evicted_dataMap c s num
  have hkept : ∀ num x, (s.evicted c).dataMap num = some x →
      num ∉ s.numbers c ∧ s.dataMap num = some x := by
    intro num x hx
    rw [hdata] at hx
    split at hx
    · exact absurd hx (by simp)
    · next hnum => exact ⟨hnum, hx⟩
  have hself : (s.evicted c).invlists c = [] := by
    rw [evicted_invlists, Function.update_self]
  have hother : ∀ c', c' ≠ c → (s.evicted c).invlists c' = s.invlists c' := by
    intro c' hc
    rw [evicted_invlists, Function.update_of_ne hc]
  have hstatus : ∀ c', c' ≠ c →
      (s.evicted c).residenceStatuses c' = s.residenceStatuses c' := by
    intro c' hc
    rw [evicted_residenceStatuses, Function.update_of_ne hc]
  refine
    { listNodup := ?_
      listed := ?_
      stored := ?_
      emptyLists := ?_
      statuses := ?_
      registered := ?_
      idInjective := h.idInjective
      idBelow := h.idBelow }
  · intro c'
    by_cases hc : c' = c
    · subst hc
      rw [numbers, hself]
      exact List.nodup_nil
    · rw [numbers, hother c' hc]
      exact h.listNodup c'
  · intro c' e he
    by_cases hc : c' = c
    · subst hc
      rw [hself] at he
      exact absurd he List.not_mem_nil
    · rw [hother c' hc] at he
      obtain ⟨x, hx, hv, hnear⟩ := h.listed c' e he
      -- the record is nearest to `c'`, so its number is not in the list of `c`
      have hnum : e.num ∉ s.numbers c := fun hmem =>
        hc (h.cell_unique (List.mem_map_of_mem he) hmem)
      exact ⟨x, by rw [hdata, if_neg hnum, hx], hv, hnear⟩
  · intro num x hx
    obtain ⟨hnum, hx⟩ := hkept num x hx
    obtain ⟨c', hc'⟩ := h.stored num x hx
    have hne : c' ≠ c := by
      rintro rfl
      exact hnum hc'
    refine ⟨c', ?_⟩
    rw [numbers, hother c' hne]
    exact hc'
  · intro c' hempty
    by_cases hc : c' = c
    · subst hc
      exact hself
    · rw [hother c' hc]
      exact h.emptyLists c' (hstatus c' hc ▸ hempty)
  · intro c'
    by_cases hc : c' = c
    · subst hc
      rw [evicted_residenceStatuses, Function.update_self]
      exact Or.inl rfl
    · rw [hstatus c' hc]
      exact h.statuses c'
  · intro num x hx
    exact h.registered num x (hkept num x hx).2

/-- The copied centroids and the probe count are not part of the invariant. -/
theorem StoreInv.congr {F : Faiss nCells δ} {s : Core nCells} (h : StoreInv F s)
    (centroids : List F32) (nprobe : Nat) :
    StoreInv F { s with centroids := centroids, nprobe := nprobe } :=
  ⟨h.listNodup, h.listed, h.stored, h.emptyLists, h.statuses, h.registered,
    h.idInjective, h.idBelow⟩

theorem StoreInv.step {F : Faiss nCells δ} {s s' : Core nCells} {op : Op nCells}
    (h : StoreInv F s) (hstep : step F s op = .ok s') : StoreInv F s' :=
  step_rule (fun t ht => ht.congr F.centroids t.nprobe)
    (fun _ c id ht _ => ht.register c id)
    (fun _ _ _ _ ht _ hload => ht.loaded hload)
    (fun _ c ht _ => ht.evicted c)
    (fun t nprobe ht => ht.congr t.centroids nprobe) hstep h

/-- **The store invariant holds in every state that is reached.** -/
theorem storeInv_of_reaches {F : Faiss nCells δ} {ops : List (Op nCells)}
    {s : Core nCells} (h : Reaches F ops s) : StoreInv F s :=
  invariant (StoreInv F) (storeInv_fresh F) (fun _ _ _ hI hs => hI.step hs) h

end Core

end Periplus.Ports
