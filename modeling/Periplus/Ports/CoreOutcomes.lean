import Periplus.Ports.CoreRetry
import Periplus.Ports.ResponseOrder

/-!
# How a load ends

The request for a cell can fail; it can be answered by the records of all the ids; or it can
be answered by the records of some of them, and then the slots behind these stay as they
were allocated.  The loop over the nearest cells goes through these cases in order: it
skips what is in residence, it stops at the first request that fails, and at the first slot
that is empty the process ends.

## Main results

* `loadCell_short` — a slot without an embedding fails the assertion, even when the records
  in front of it have been stored.
* `loadCells_outcome` — a load whose requests are answered in one of the three ways ends in
  one of three ways, each with all that has happened before.
-/

namespace Periplus.Ports

open Periplus.Verified.Memory
open Periplus.Verified.Run
open Periplus.Verified.Buckets

namespace Core

variable {nCells : Nat} {δ : Type} [LinearOrder δ]

/-! ## The three kinds of answers -/

/-- The records of some documents, and at least one slot behind them that was not filled. -/
def Short (F : Faiss nCells δ) (docs : List Doc) (slots : List Data) : Prop :=
  ∃ xs ds n, slots = xs ++ List.replicate (n + 1) ({} : Data) ∧ (ds.map Prod.fst).Nodup ∧
    (∀ p ∈ ds, p ∈ docs) ∧ List.Forall₂ (Represents F.d) xs ds

/-- How the request for some ids can be answered. -/
inductive Answered (F : Faiss nCells δ) (docs : List Doc) (ids : List Bytes) :
    DbAnswer ids.length → Prop
  | failed (code : Nat) : Answered F docs ids (.httpException code)
  | whole {x : Vector Data ids.length} : Faithful F docs ids (.filled x) →
      Answered F docs ids (.filled x)
  | short {x : Vector Data ids.length} : Short F docs x.toList →
      Answered F docs ids (.filled x)

/-- The request for the cell brings everything that is registered in it. -/
def Whole (F : Faiss nCells δ) (docs : List Doc) (db : Database nCells) (s : Core nCells)
    (c : Fin nCells) : Prop :=
  ∃ x, db c (s.idsByCell c) = .filled x ∧ Faithful F docs (s.idsByCell c) (.filled x)

/-- The request for the cell leaves slots empty. -/
def LeavesEmpty (F : Faiss nCells δ) (docs : List Doc) (db : Database nCells) (s : Core nCells)
    (c : Fin nCells) : Prop :=
  ∃ x, db c (s.idsByCell c) = .filled x ∧ Short F docs x.toList

/-- A faithful answer leaves no slot empty. -/
theorem Faithful.not_short {F : Faiss nCells δ} {docs docs' : List Doc} {ids : List Bytes}
    {x : Vector Data ids.length} (h : Faithful F docs ids (.filled x)) :
    ¬ Short F docs' x.toList := by
  rintro ⟨xs, _, n, hslots, _⟩
  obtain ⟨ds, _, _, hrep⟩ := h
  have hmem : ({} : Data) ∈ x.toList := by
    rw [hslots]
    exact List.mem_append_right _ (List.mem_replicate.mpr ⟨Nat.succ_ne_zero n, rfl⟩)
  obtain ⟨i, hi, hget⟩ := List.getElem_of_mem hmem
  obtain ⟨hlength, hall⟩ := List.forall₂_iff_get.mp hrep
  have hrepresents := (hall i hi (hlength ▸ hi)).id
  rw [List.get_eq_getElem, hget] at hrepresents
  exact absurd hrepresents (by simp [Data.idString])

/-- The registry of `s` is that of the run, and its lists hold first parts of it. -/
structure Holds (F : Faiss nCells δ) (ops : List (Op nCells)) (s : Core nCells) : Prop where
  store : StoreInv F s
  registry : RegistryInv F (registered F ops) s
  snapshot : Snapshot F ops s

/-- The list of a cell holds everything that is registered in it. -/
def Full (F : Faiss nCells δ) (ops : List (Op nCells)) (s : Core nCells) (c : Fin nCells) :
    Prop :=
  (s.invlists c).length = (registeredIn F ops c).length

/-! ## One cell -/

section Cell

variable {F : Faiss nCells δ} {ops : List (Op nCells)} {s t : Core nCells} {c : Fin nCells}

/-- A cell that is loaded from a faithful answer holds what is registered in it. -/
theorem Holds.loaded {x : Vector Data (s.idsByCell c).length} (h : Holds F ops s)
    (hids : DistinctIds F ops) (hempty : s.invlists c = [])
    (hfaithful : Faithful F (registered F ops) (s.idsByCell c) (.filled x))
    (hload : Loaded F c x.toList s t) : Holds F ops t ∧ Full F ops t c := by
  refine ⟨⟨h.store.loaded hload, h.registry.congr hload.registry.2.1 hload.registry.2.2,
    h.snapshot.loaded h.store h.registry hids hempty hfaithful hload⟩, ?_⟩
  have hself := (hload.docs h.store).1
  rw [hempty, List.map_nil, List.nil_append] at hself
  unfold Full
  rw [← (hfaithful.accepted_perm h.registry hids).length_eq, ← hself, List.length_map]

/-- A faithful answer for an empty cell can be entered. -/
theorem Holds.loadCell_whole {db : Database nCells} {x : Vector Data (s.idsByCell c).length}
    (h : Holds F ops s) (hids : DistinctIds F ops) (hempty : s.invlists c = [])
    (hx : db c (s.idsByCell c) = .filled x)
    (hfaithful : Faithful F (registered F ops) (s.idsByCell c) (.filled x)) :
    ∃ t, Loaded F c x.toList s t ∧ loadCell F db c s = .ok (.returns t) := by
  obtain ⟨ds, hkeys, hds, hrep⟩ := hfaithful
  have hcurrent : Current F (registered F ops) (s.idsByCell c) (db c (s.idsByCell c)) := by
    rw [hx]
    exact ⟨ds, hkeys, fun p hp => currentVec_of_mem hids (hds p hp), hrep⟩
  have hclean := noDuplicate_of_snapshot hids h.registry h.snapshot hempty
  rcases loadCell_current h.store h.registry hcurrent with ⟨_, _, t, _, hcell, _⟩ | ⟨hdirty, _⟩
  · rcases loadCell_eq_ok.mp hcell with ⟨_, _, hthrow⟩ | ⟨x', t', hx', hload, hexit⟩
    · exact absurd hthrow (by simp)
    · rw [hx, DbAnswer.filled.injEq] at hx'
      subst hx'
      rw [hexit] at hcell
      exact ⟨t', hload, hcell⟩
  · exact absurd hclean hdirty

/-- The records of documents of an empty cell can be entered, also when they are not all. -/
theorem Holds.admits (h : Holds F ops s) (hids : DistinctIds F ops) (hempty : s.invlists c = [])
    {xs : List Data} {ds : List Doc} (hkeys : (ds.map Prod.fst).Nodup)
    (hds : ∀ p ∈ ds, p ∈ registered F ops) (hrep : List.Forall₂ (Represents F.d) xs ds) :
    s.Admits (accepted F c s.idMap xs) := by
  have hknown : ∀ p ∈ ds, F.nearest p.2 = some c → (s.idMap p.1).isSome :=
    fun p hp _ => (h.registry.known p.1).mpr (List.mem_map_of_mem (hds p hp))
  have hdocs := accepted_of_represents hrep hknown
  constructor
  · have hnodup : ((accepted F c s.idMap xs).map (fun e => e.doc.1)).Nodup := by
      have hmap : (accepted F c s.idMap xs).map (fun e => e.doc.1) =
          ((accepted F c s.idMap xs).map Stored.doc).map Prod.fst := by
        rw [List.map_map]
        rfl
      rw [hmap, hdocs]
      exact hkeys.sublist (List.Sublist.map Prod.fst List.filter_sublist)
    rw [List.Nodup, List.pairwise_map] at hnodup ⊢
    refine hnodup.imp_of_mem ?_
    intro e e' he he' hne hnum
    have hid := idMap_of_accepted he
    rw [hnum] at hid
    exact hne (h.store.idInjective _ _ _ hid (idMap_of_accepted he'))
  · intro e he
    have hmem : e.doc ∈ ds.filter (fun p => F.nearest p.2 = some c) := by
      rw [← hdocs]
      exact List.mem_map_of_mem he
    obtain ⟨hdoc, hnear⟩ := List.mem_filter.mp hmem
    have hcell : e.doc ∈ registeredIn F ops c :=
      mem_registeredIn.mpr ⟨hds _ hdoc, of_decide_eq_true hnear⟩
    have hclean := noDuplicate_of_snapshot hids h.registry h.snapshot hempty
    have habsent : e.doc.1 ∉ s.residentIds := by
      apply hclean.absent
      refine List.mem_filter.mpr ⟨?_, ?_⟩
      · rw [h.registry.cells c]
        exact List.mem_map_of_mem hcell
      · rw [currentVec_of_mem hids (hds _ hdoc)]
        exact hnear
    by_contra hstored
    obtain ⟨y, hy⟩ := Option.ne_none_iff_exists'.mp hstored
    apply habsent
    rw [h.store.mem_residentIds]
    exact ⟨e.num, idMap_of_accepted he, by rw [hy]; rfl⟩

/-- **An empty slot ends the process**, behind the records that have been stored. -/
theorem loadCell_short {db : Database nCells} (h : Holds F ops s) (hids : DistinctIds F ops)
    (hempty : s.invlists c = []) {x : Vector Data (s.idsByCell c).length}
    (hx : db c (s.idsByCell c) = .filled x) (hshort : Short F (registered F ops) x.toList) :
    loadCell F db c s = .error (.assertion .embeddingNotNull) := by
  obtain ⟨xs, ds, n, hslots, hkeys, hds, hrep⟩ := hshort
  have hknown : ∀ p ∈ ds, F.nearest p.2 = some c → (s.idMap p.1).isSome :=
    fun p hp _ => (h.registry.known p.1).mpr (List.mem_map_of_mem (hds p hp))
  have hstored : storeSlots F c xs s = .ok (insertAll F (accepted F c s.idMap xs) s) :=
    storeSlots_eq_ok_iff.mpr ⟨verdicts_of_represents hrep hknown,
      h.admits hids hempty hkeys hds hrep, rfl⟩
  have hloop : storeSlots F c x.toList s = .error (.assertion .embeddingNotNull) := by
    rw [hslots, storeSlots_append, hstored, ok_bind, List.replicate_succ, storeSlots, storeSlot]
    rfl
  rw [loadCell, hx]
  simp only [hloop, error_bind]

end Cell

/-! ## The loop over the cells -/

/-- What a load of some cells comes to. -/
inductive LoadOutcome (F : Faiss nCells δ) (ops : List (Op nCells)) (db : Database nCells)
    (cells : List (Fin nCells)) (s : Core nCells) : Except Fault (Exit (Core nCells)) → Prop
  /-- Every request has brought what is registered: all the cells are in residence, and hold
  everything if they had to be loaded. -/
  | returns {t : Core nCells} (holds : Holds F ops t)
      (whole : ∀ c ∈ cells, s.residenceStatuses c = -1 → Whole F (registered F ops) db s c)
      (loaded : ∀ c ∈ cells, t.residenceStatuses c ≠ -1 ∧
        (s.residenceStatuses c = -1 → Full F ops t c))
      (partly : PartlyLoaded F db cells s t) : LoadOutcome F ops db cells s (.ok (.returns t))
  /-- The request for one cell has failed, and those before it have been loaded. -/
  | refused {pre post : List (Fin nCells)} {c : Fin nCells} {code : Nat} {t : Core nCells}
      (holds : Holds F ops t) (split : cells = pre ++ c :: post)
      (whole : ∀ c' ∈ pre, s.residenceStatuses c' = -1 → Whole F (registered F ops) db s c')
      (empty : s.residenceStatuses c = -1)
      (fails : db c (s.idsByCell c) = .httpException code) (partly : PartlyLoaded F db pre s t) :
      LoadOutcome F ops db cells s (.ok (.throwsHttp code t))
  /-- The answer for one cell has left a slot empty, and the process has ended. -/
  | dies {pre post : List (Fin nCells)} {c : Fin nCells} (split : cells = pre ++ c :: post)
      (whole : ∀ c' ∈ pre, s.residenceStatuses c' = -1 → Whole F (registered F ops) db s c')
      (empty : s.residenceStatuses c = -1) (leaves : LeavesEmpty F (registered F ops) db s c) :
      LoadOutcome F ops db cells s (.error (.assertion .embeddingNotNull))

section Loop

variable {F : Faiss nCells δ} {ops : List (Op nCells)} {db : Database nCells}
  {cells : List (Fin nCells)} {s t : Core nCells} {c : Fin nCells}
  {result : Except Fault (Exit (Core nCells))}

theorem Whole.congr {docs : List Doc} (h : Whole F docs db t c)
    (hsame : t.idsByCell = s.idsByCell) : Whole F docs db s c := by
  unfold Whole at h ⊢
  rw [hsame] at h
  exact h

theorem LeavesEmpty.congr {docs : List Doc} (h : LeavesEmpty F docs db t c)
    (hsame : t.idsByCell = s.idsByCell) : LeavesEmpty F docs db s c := by
  unfold LeavesEmpty at h ⊢
  rw [hsame] at h
  exact h

/-- A cell in residence is skipped. -/
theorem LoadOutcome.skip (h : LoadOutcome F ops db cells s result)
    (hc : s.residenceStatuses c ≠ -1) (hmem : c ∉ cells) :
    LoadOutcome F ops db (c :: cells) s result := by
  cases h with
  | returns holds whole loaded partly =>
      refine .returns holds ?_ ?_ (partly.skip hc)
      · rw [List.forall_mem_cons]
        exact ⟨fun hempty => absurd hempty hc, whole⟩
      · rw [List.forall_mem_cons]
        have hsame := (partly.untouched c (fun h => absurd h hmem)).status
        rw [hsame]
        exact ⟨⟨hc, fun hempty => absurd hempty hc⟩, loaded⟩
  | @refused pre post c' code t holds split whole empty fails partly =>
      have hsplit : c :: cells = (c :: pre) ++ c' :: post := congrArg (c :: ·) split
      refine .refused holds hsplit ?_ empty fails (partly.skip hc)
      rw [List.forall_mem_cons]
      exact ⟨fun hempty => absurd hempty hc, whole⟩
  | @dies pre post c' split whole empty leaves =>
      have hsplit : c :: cells = (c :: pre) ++ c' :: post := congrArg (c :: ·) split
      refine .dies hsplit ?_ empty leaves
      rw [List.forall_mem_cons]
      exact ⟨fun hempty => absurd hempty hc, whole⟩

/-- A cell is loaded, and then the others. -/
theorem LoadOutcome.load {x : Vector Data (s.idsByCell c).length}
    (hinv : StoreInv F s) (hempty : s.residenceStatuses c = -1)
    (hx : db c (s.idsByCell c) = .filled x)
    (hfaithful : Faithful F (registered F ops) (s.idsByCell c) (.filled x))
    (hload : Loaded F c x.toList s t) (hfull : Full F ops t c) (hmem : c ∉ cells)
    (h : LoadOutcome F ops db cells t result) : LoadOutcome F ops db (c :: cells) s result := by
  have hregistry := hload.registry.2.1
  have hstatus : ∀ c' ∈ cells, t.residenceStatuses c' = s.residenceStatuses c' := by
    intro c' hc'
    have hne : c' ≠ c := fun heq => hmem (heq ▸ hc')
    rw [hload.residenceStatuses, Function.update_of_ne hne]
  -- the requests for the other cells are the same as before
  have hwhole : ∀ pre : List (Fin nCells), (∀ c' ∈ pre, c' ∈ cells) →
      (∀ c' ∈ pre, t.residenceStatuses c' = -1 → Whole F (registered F ops) db t c') →
      ∀ c' ∈ c :: pre, s.residenceStatuses c' = -1 → Whole F (registered F ops) db s c' := by
    intro pre hpre hwhole
    rw [List.forall_mem_cons]
    refine ⟨fun _ => ⟨x, hx, hfaithful⟩, fun c' hc' hfree => ?_⟩
    apply (hwhole c' hc' _).congr hregistry
    rw [hstatus c' (hpre c' hc'), hfree]
  cases h with
  | @returns u holds whole loaded partly =>
      refine .returns holds (hwhole cells (fun _ hc' => hc') whole) ?_
        (partly.cons hinv hempty hx hload hmem)
      rw [List.forall_mem_cons]
      have hkept := partly.untouched c (fun h => absurd h hmem)
      refine ⟨⟨?_, fun _ => ?_⟩, fun c' hc' => ?_⟩
      · rw [hkept.status, hload.residenceStatuses, Function.update_self]
        omega
      · unfold Full
        rw [hkept.list]
        exact hfull
      · rw [← hstatus c' hc']
        exact loaded c' hc'
  | @refused pre post c' code u holds split whole empty fails partly =>
      have hpre : ∀ c' ∈ pre, c' ∈ cells := by
        rw [split]
        exact fun c' hc' => List.mem_append_left _ hc'
      have hc' : c' ∈ cells := by
        rw [split]
        exact List.mem_append_right _ List.mem_cons_self
      rw [hstatus c' hc'] at empty
      rw [hregistry] at fails
      have hsplit : c :: cells = (c :: pre) ++ c' :: post := congrArg (c :: ·) split
      exact .refused holds hsplit (hwhole pre hpre whole) empty fails
        (partly.cons hinv hempty hx hload (fun h => hmem (hpre c h)))
  | @dies pre post c' split whole empty leaves =>
      have hpre : ∀ c' ∈ pre, c' ∈ cells := by
        rw [split]
        exact fun c' hc' => List.mem_append_left _ hc'
      have hc' : c' ∈ cells := by
        rw [split]
        exact List.mem_append_right _ List.mem_cons_self
      rw [hstatus c' hc'] at empty
      have hsplit : c :: cells = (c :: pre) ++ c' :: post := congrArg (c :: ·) split
      exact .dies hsplit (hwhole pre hpre whole) empty (leaves.congr hregistry)

/-- **How a load ends**, when every request is answered in one of the three ways. -/
theorem loadCells_outcome (hids : DistinctIds F ops) (hnodup : cells.Nodup) (h : Holds F ops s)
    (hdb : ∀ c, Answered F (registered F ops) (s.idsByCell c) (db c (s.idsByCell c))) :
    LoadOutcome F ops db cells s (loadCells F db (cells.map (fun c => (c.val : Int))) s) := by
  induction cells generalizing s with
  | nil =>
      exact .returns h (fun c hc => absurd hc List.not_mem_nil)
        (fun c hc => absurd hc List.not_mem_nil) (.refl F db s)
  | cons c cells ih =>
      rw [List.nodup_cons] at hnodup
      rw [List.map_cons, loadCells, cellAt_val, ok_bind]
      have hstatuses := h.store.statuses c
      by_cases hstatus : s.residenceStatuses c > -1
      · rw [if_pos hstatus]
        exact (ih hnodup.2 h hdb).skip (by omega) hnodup.1
      · rw [if_neg hstatus]
        have hcold : s.residenceStatuses c = -1 := by omega
        have hempty := h.store.emptyLists c hcold
        have hanswer := hdb c
        generalize hx : db c (s.idsByCell c) = answer at hanswer
        cases hanswer with
        | failed code =>
            rw [loadCell, hx]
            exact .refused h (List.nil_append _).symm (fun c hc => absurd hc List.not_mem_nil) hcold hx
              (.refl F db s)
        | short hshort =>
            rw [loadCell_short h hids hempty hx hshort, error_bind]
            exact .dies (List.nil_append _).symm (fun c hc => absurd hc List.not_mem_nil) hcold
              ⟨_, hx, hshort⟩
        | whole hfaithful =>
            obtain ⟨t, hload, hcell⟩ := h.loadCell_whole hids hempty hx hfaithful
            obtain ⟨hholds, hfull⟩ := h.loaded hids hempty hfaithful hload
            rw [hcell, ok_bind]
            have hdb' : ∀ c, Answered F (registered F ops) (t.idsByCell c)
                (db c (t.idsByCell c)) := by
              rw [hload.registry.2.1]
              exact hdb
            exact (ih hnodup.2 hholds hdb').load h.store hcold hx hfaithful hload hfull hnodup.1

end Loop

end Core

end Periplus.Ports
