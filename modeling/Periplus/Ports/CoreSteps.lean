import Periplus.Ports.Core

/-!
# What one operation of the core can do

One lemma for each function of `core.cpp`: the conditions under which it comes
back and the state it leaves.  The invariants and the later theorems are derived
from these and unfold no operation again.

The loop of `loadCell` is the part with content.  Whether a slot is usable does
not depend on the slots before it, so the loop is characterised by the verdict
on each slot (`verdict`), the entries of the usable ones (`accepted`), and the
requirement that these do not meet each other or what is stored (`Admits`):
`storeSlots_eq_ok_iff`.

`step_rule` reduces an invariant of every operation to five atomic updates.
-/

namespace Periplus.Ports

open Periplus.Verified.Memory
open Periplus.Verified.Run

variable {nCells : Nat} {δ : Type} [LinearOrder δ]

/-! ## Labels -/

@[simp] theorem cellAt_val (c : Fin nCells) : cellAt nCells (c.val : Int) = .ok c := by
  have h : 0 ≤ (c.val : Int) ∧ (c.val : Int).toNat < nCells := ⟨by omega, by simp⟩
  rw [cellAt, dif_pos h]
  rfl

theorem cellAt_eq_ok {label : Int} {c : Fin nCells} :
    cellAt nCells label = .ok c ↔ label = c.val := by
  constructor
  · intro h
    rw [cellAt] at h
    split at h
    · next hr =>
        rw [Except.ok.injEq] at h
        subst h
        simp [Int.toNat_of_nonneg hr.1]
    · exact absurd h (by simp)
  · rintro rfl
    exact cellAt_val c

theorem cellAt_neg_one : cellAt nCells (-1) = .error .outOfBounds := by
  rw [cellAt, dif_neg (by omega)]

/-- A single query asks for at least one label and reads one vector. -/
theorem quantizerSearch_one {F : Faiss nCells δ} {xq : List F32} {k : Nat}
    {labels : List Int} :
    F.quantizerSearch 1 xq k = .ok labels ↔
      k ≠ 0 ∧ F.d ≤ xq.length ∧ labels = F.assign (xq.take F.d) k := by
  rw [Faiss.quantizerSearch_eq]
  by_cases hk : k = 0
  · simp [hk]
  · by_cases hd : F.d ≤ xq.length
    · simp [hk, hd, Faiss.query, rowAt, eq_comm]
    · simp [hk, hd]

namespace Core

/-! ## Storing the slots of one request -/

/-- A usable slot: its number, its vector and the record itself. -/
structure Stored where
  num : Nat
  vec : List F32
  record : Data
  deriving DecidableEq, Repr

def Stored.entry (e : Stored) : Entry := ⟨e.num, e.vec⟩

/-- What the loop of `loadCell` makes of one slot, before it looks at what is
stored: a fault, nothing to store, or an entry. -/
def verdict (F : Faiss nCells δ) (target : Fin nCells) (idMap : Bytes → Option Nat)
    (x : Data) : Except Fault (Option Stored) := do
  let v ← x.readEmbedding F.d
  if F.nearest v = some target then
    let id ← x.idString
    match idMap id with
    | none => .error (.assertion .idRegistered)
    | some num => .ok (some ⟨num, v, x⟩)
  else .ok none

/-- The entries of the usable slots, in order. -/
def accepted (F : Faiss nCells δ) (target : Fin nCells) (idMap : Bytes → Option Nat)
    (xs : List Data) : List Stored :=
  xs.filterMap (fun x => (verdict F target idMap x).toOption.join)

/-- The entries meet neither each other nor what is stored already. -/
structure Admits (s : Core nCells) (es : List Stored) : Prop where
  nodup : (es.map Stored.num).Nodup
  absent : ∀ e ∈ es, s.dataMap e.num = none

theorem admits_nil (s : Core nCells) : s.Admits [] where
  nodup := List.nodup_nil
  absent := fun _ he => absurd he List.not_mem_nil

/-- The order in which entries are admitted does not matter. -/
theorem Admits.perm {s : Core nCells} {es es' : List Stored} (h : s.Admits es)
    (hperm : es.Perm es') : s.Admits es' where
  nodup := (hperm.map Stored.num).nodup_iff.mp h.nodup
  absent := fun e he => h.absent e (hperm.symm.subset he)

/-- Enter the given entries one after the other. -/
def insertAll (F : Faiss nCells δ) : List Stored → Core nCells → Core nCells
  | [], s => s
  | e :: es, s => insertAll F es (s.insertEntry F e.num e.vec e.record)

theorem verdict_eq_some {F : Faiss nCells δ} {target : Fin nCells}
    {idMap : Bytes → Option Nat} {x : Data} {e : Stored} :
    verdict F target idMap x = .ok (some e) ↔
      x.readEmbedding F.d = .ok e.vec ∧ F.nearest e.vec = some target ∧
        (∃ id, x.idString = .ok id ∧ idMap id = some e.num) ∧ e.record = x := by
  obtain ⟨num, vec, record⟩ := e
  rw [verdict]
  constructor
  · intro h
    obtain ⟨v, hv, h⟩ := bind_eq_ok.mp h
    by_cases hnear : F.nearest v = some target
    · rw [if_pos hnear] at h
      obtain ⟨id, hid, h⟩ := bind_eq_ok.mp h
      cases hnum : idMap id with
      | none => simp [hnum] at h
      | some m =>
          simp only [hnum, Except.ok.injEq, Option.some.injEq, Stored.mk.injEq] at h
          obtain ⟨rfl, rfl, rfl⟩ := h
          exact ⟨hv, hnear, ⟨id, hid, hnum⟩, rfl⟩
    · rw [if_neg hnear] at h
      exact absurd h (by simp)
  · rintro ⟨hv, hnear, ⟨id, hid, hnum⟩, rfl⟩
    simp [hv, hnear, hid, hnum]

theorem verdict_eq_none {F : Faiss nCells δ} {target : Fin nCells}
    {idMap : Bytes → Option Nat} {x : Data} :
    verdict F target idMap x = .ok none ↔
      ∃ v, x.readEmbedding F.d = .ok v ∧ F.nearest v ≠ some target := by
  rw [verdict]
  constructor
  · intro h
    obtain ⟨v, hv, h⟩ := bind_eq_ok.mp h
    refine ⟨v, hv, ?_⟩
    intro hnear
    rw [if_pos hnear] at h
    obtain ⟨id, hid, h⟩ := bind_eq_ok.mp h
    cases hnum : idMap id <;> simp [hnum] at h
  · rintro ⟨v, hv, hnear⟩
    simp [hv, hnear]

theorem mem_accepted {F : Faiss nCells δ} {target : Fin nCells}
    {idMap : Bytes → Option Nat} {xs : List Data} {e : Stored} :
    e ∈ accepted F target idMap xs ↔
      ∃ x ∈ xs, verdict F target idMap x = .ok (some e) := by
  have hjoin : ∀ o : Except Fault (Option Stored),
      o.toOption.join = some e ↔ o = .ok (some e) := by
    intro o
    cases o with
    | error f => simp [Except.toOption]
    | ok o => simp [Except.toOption]
  simp only [accepted, List.mem_filterMap, hjoin]

theorem accepted_cons_some {F : Faiss nCells δ} {target : Fin nCells}
    {idMap : Bytes → Option Nat} {x : Data} {e : Stored}
    (h : verdict F target idMap x = .ok (some e)) (xs : List Data) :
    accepted F target idMap (x :: xs) = e :: accepted F target idMap xs := by
  rw [accepted, List.filterMap_cons, h]
  rfl

theorem accepted_cons_none {F : Faiss nCells δ} {target : Fin nCells}
    {idMap : Bytes → Option Nat} {x : Data}
    (h : verdict F target idMap x = .ok none) (xs : List Data) :
    accepted F target idMap (x :: xs) = accepted F target idMap xs := by
  rw [accepted, List.filterMap_cons, h]
  rfl

/-- One iteration: the verdict, and then the assertion on `data_map`. -/
theorem storeSlot_eq (F : Faiss nCells δ) (target : Fin nCells) (x : Data)
    (s : Core nCells) :
    storeSlot F target x s =
      match verdict F target s.idMap x with
      | .error f => .error f
      | .ok none => .ok s
      | .ok (some e) =>
          if (s.dataMap e.num).isSome then .error (.assertion .notInDataMap)
          else .ok (s.insertEntry F e.num e.vec e.record) := by
  rw [storeSlot, verdict]
  cases x.readEmbedding F.d with
  | error f => rfl
  | ok v =>
      simp only [ok_bind]
      by_cases hnear : F.nearest v = some target
      · simp only [if_pos hnear]
        cases x.idString with
        | error f => rfl
        | ok id =>
            simp only [ok_bind]
            cases s.idMap id <;> rfl
      · simp only [if_neg hnear]

@[simp] theorem insertEntry_idMap (F : Faiss nCells δ) (num : Nat) (v : List F32)
    (x : Data) (s : Core nCells) : (s.insertEntry F num v x).idMap = s.idMap := rfl

theorem insertEntry_dataMap (F : Faiss nCells δ) (num : Nat) (v : List F32)
    (x : Data) (s : Core nCells) :
    (s.insertEntry F num v x).dataMap = Function.update s.dataMap num (some x) := rfl

/-- Admitting a first entry and then the others. -/
theorem admits_cons {F : Faiss nCells δ} {s : Core nCells} {e : Stored}
    {es : List Stored} :
    s.Admits (e :: es) ↔
      s.dataMap e.num = none ∧ (s.insertEntry F e.num e.vec e.record).Admits es := by
  constructor
  · rintro ⟨hnodup, habsent⟩
    rw [List.map_cons, List.nodup_cons] at hnodup
    refine ⟨habsent e List.mem_cons_self, hnodup.2, ?_⟩
    intro e' he'
    have hne : e'.num ≠ e.num := by
      intro heq
      exact hnodup.1 (heq ▸ List.mem_map_of_mem he')
    rw [insertEntry_dataMap, Function.update_of_ne hne]
    exact habsent e' (List.mem_cons_of_mem e he')
  · rintro ⟨hfree, hnodup, habsent⟩
    have hne : ∀ e' ∈ es, e'.num ≠ e.num := by
      intro e' he' heq
      have h := habsent e' he'
      rw [insertEntry_dataMap, heq, Function.update_self] at h
      exact absurd h (by simp)
    refine ⟨?_, ?_⟩
    · rw [List.map_cons, List.nodup_cons]
      refine ⟨?_, hnodup⟩
      intro hmem
      obtain ⟨e', he', heq⟩ := List.mem_map.mp hmem
      exact hne e' he' heq
    · intro e' he'
      rcases List.mem_cons.mp he' with rfl | he'
      · exact hfree
      · have h := habsent e' he'
        rwa [insertEntry_dataMap, Function.update_of_ne (hne e' he')] at h

/-- **The loop of `loadCell`.**  It comes back exactly when every slot has a
verdict and the usable ones can be admitted, and then these are entered. -/
theorem storeSlots_eq_ok_iff {F : Faiss nCells δ} {target : Fin nCells}
    {xs : List Data} {s s' : Core nCells} :
    storeSlots F target xs s = .ok s' ↔
      (∀ x ∈ xs, ∃ o, verdict F target s.idMap x = .ok o) ∧
        s.Admits (accepted F target s.idMap xs) ∧
        s' = insertAll F (accepted F target s.idMap xs) s := by
  induction xs generalizing s with
  | nil =>
      simp [storeSlots, accepted, insertAll, admits_nil s, eq_comm]
  | cons x xs ih =>
      rw [storeSlots, storeSlot_eq]
      cases hverdict : verdict F target s.idMap x with
      | error f => simp [hverdict]
      | ok o =>
          cases o with
          | none =>
              simp only [ok_bind, ih, accepted_cons_none hverdict,
                List.forall_mem_cons, hverdict]
              simp
          | some e =>
              rw [accepted_cons_some hverdict, admits_cons (F := F), insertAll]
              cases hnum : s.dataMap e.num with
              | some y => simp [hnum]
              | none =>
                  simp only [hnum, Option.isSome_none, Bool.false_eq_true, if_false,
                    ok_bind, ih, insertEntry_idMap, List.forall_mem_cons, hverdict]
                  simp

/-- When every slot has a verdict, the only way to fail is the assertion on
`data_map`. -/
theorem storeSlots_error {F : Faiss nCells δ} {target : Fin nCells}
    {xs : List Data} {s : Core nCells} {f : Fault}
    (hverdict : ∀ x ∈ xs, ∃ o, verdict F target s.idMap x = .ok o)
    (h : storeSlots F target xs s = .error f) : f = .assertion .notInDataMap := by
  induction xs generalizing s with
  | nil => simp [storeSlots] at h
  | cons x xs ih =>
      obtain ⟨o, ho⟩ := hverdict x List.mem_cons_self
      have hrest : ∀ y ∈ xs, ∃ o, verdict F target s.idMap y = .ok o :=
        fun y hy => hverdict y (List.mem_cons_of_mem x hy)
      rw [storeSlots, storeSlot_eq, ho] at h
      cases o with
      | none => exact ih hrest h
      | some e =>
          simp only at h
          split at h
          · simp only [error_bind, Except.error.injEq] at h
            exact h.symm
          · rw [ok_bind] at h
            exact ih (by simpa only [insertEntry_idMap] using hrest) h

/-! ### The state after entering -/

theorem addWithIds_of_nearest {F : Faiss nCells δ} {v : List F32} {c : Fin nCells}
    (h : F.nearest v = some c) (lists : Fin nCells → List Entry) (num : Nat) :
    F.addWithIds lists v num = Function.update lists c (lists c ++ [⟨num, v⟩]) := by
  rw [Faiss.addWithIds, h]

theorem insertAll_invlists {F : Faiss nCells δ} {target : Fin nCells}
    {es : List Stored} (hnear : ∀ e ∈ es, F.nearest e.vec = some target)
    (s : Core nCells) :
    (insertAll F es s).invlists =
      Function.update s.invlists target
        (s.invlists target ++ es.map Stored.entry) := by
  induction es generalizing s with
  | nil => simp [insertAll]
  | cons e es ih =>
      have he := hnear e List.mem_cons_self
      rw [insertAll, ih (fun e' he' => hnear e' (List.mem_cons_of_mem e he'))]
      simp only [insertEntry, addWithIds_of_nearest he, Function.update_self,
        Function.update_idem, List.map_cons, List.append_assoc, List.singleton_append,
        Stored.entry]

/-- The frame of `insertAll`, and the records it enters. -/
theorem insertAll_dataMap {F : Faiss nCells δ} {es : List Stored} {s : Core nCells}
    (hadmits : s.Admits es) :
    (∀ e ∈ es, (insertAll F es s).dataMap e.num = some e.record) ∧
      ∀ num, num ∉ es.map Stored.num →
        (insertAll F es s).dataMap num = s.dataMap num := by
  induction es generalizing s with
  | nil => simp [insertAll]
  | cons e es ih =>
      have hnodup := hadmits.nodup
      rw [List.map_cons, List.nodup_cons] at hnodup
      obtain ⟨hnew, hframe⟩ := ih ((admits_cons (F := F)).mp hadmits).2
      rw [insertAll]
      constructor
      · intro e' he'
        rcases List.mem_cons.mp he' with rfl | he'
        · rw [hframe _ hnodup.1, insertEntry_dataMap, Function.update_self]
        · exact hnew e' he'
      · intro num hnum
        rw [List.map_cons, List.mem_cons, not_or] at hnum
        rw [hframe num hnum.2, insertEntry_dataMap, Function.update_of_ne hnum.1]

/-- Entering records touches nothing but `data_map` and the inverted lists. -/
theorem insertAll_frame (F : Faiss nCells δ) (es : List Stored) (s : Core nCells) :
    (insertAll F es s).centroids = s.centroids ∧
      (insertAll F es s).residenceStatuses = s.residenceStatuses ∧
      (insertAll F es s).nprobe = s.nprobe ∧
      (insertAll F es s).nextId = s.nextId ∧
      (insertAll F es s).idsByCell = s.idsByCell ∧
      (insertAll F es s).idMap = s.idMap := by
  induction es generalizing s with
  | nil => exact ⟨rfl, rfl, rfl, rfl, rfl, rfl⟩
  | cons e es ih => exact ih (s.insertEntry F e.num e.vec e.record)

@[simp] theorem setStatus_residenceStatuses (c : Fin nCells) (status : Int)
    (s : Core nCells) : (s.setStatus c status).residenceStatuses =
      Function.update s.residenceStatuses c status := rfl

/-! ## Loading cells -/

/-- Labels that stand for no cell. -/
theorem loadCells_padding (F : Faiss nCells δ) (db : Database nCells) (p : Nat)
    (s : Core nCells) :
    loadCells F db (List.replicate p (-1)) s =
      if p = 0 then .ok (.returns s) else .error .outOfBounds := by
  cases p with
  | zero => rfl
  | succ p =>
      rw [List.replicate_succ, loadCells, cellAt_neg_one]
      rfl

theorem loadCells_padding_eq_ok {F : Faiss nCells δ} {db : Database nCells} {p : Nat}
    {s : Core nCells} {exit : Exit (Core nCells)} :
    loadCells F db (List.replicate p (-1)) s = .ok exit ↔ p = 0 ∧ exit = .returns s := by
  rw [loadCells_padding]
  by_cases hp : p = 0
  · rw [if_pos hp, Except.ok.injEq]
    exact ⟨fun h => ⟨hp, h.symm⟩, fun h => h.2.symm⟩
  · rw [if_neg hp]
    exact ⟨fun h => absurd h (by simp), fun h => absurd h.1 hp⟩

/-- The request for a cell was answered by the slots `xs`, all of them could be
used, and the state went from `s` to `s'`. -/
structure Loaded (F : Faiss nCells δ) (target : Fin nCells) (xs : List Data)
    (s s' : Core nCells) : Prop where
  verdicts : ∀ x ∈ xs, ∃ o, verdict F target s.idMap x = .ok o
  admits : s.Admits (accepted F target s.idMap xs)
  eq : s' = (insertAll F (accepted F target s.idMap xs) s).setStatus target
    (s.idsByCell target).length

/-- A load of one cell comes back in two ways: the request failed and nothing
has changed, or its answer has been entered. -/
theorem loadCell_eq_ok {F : Faiss nCells δ} {db : Database nCells}
    {target : Fin nCells} {s : Core nCells} {exit : Exit (Core nCells)} :
    loadCell F db target s = .ok exit ↔
      (∃ code, db target (s.idsByCell target) = .httpException code ∧
        exit = .throwsHttp code s) ∨
      (∃ x s', db target (s.idsByCell target) = .filled x ∧
        Loaded F target x.toList s s' ∧ exit = .returns s') := by
  rw [loadCell]
  cases hdb : db target (s.idsByCell target) with
  | httpException code => simp [eq_comm]
  | fault f => simp
  | filled x =>
      simp only [reduceCtorEq, false_and, exists_false, DbAnswer.filled.injEq,
        false_or, bind_eq_ok, storeSlots_eq_ok_iff, Except.ok.injEq]
      constructor
      · rintro ⟨t, ⟨hv, ha, rfl⟩, rfl⟩
        exact ⟨x, _, rfl, ⟨hv, ha, rfl⟩, rfl⟩
      · rintro ⟨x', s', rfl, ⟨hv, ha, rfl⟩, rfl⟩
        exact ⟨_, ⟨hv, ha, rfl⟩, rfl⟩

section LoadedFields

variable {F : Faiss nCells δ} {target : Fin nCells} {xs : List Data}
  {s s' : Core nCells}

/-- Where an accepted entry comes from. -/
theorem accepted_spec {idMap : Bytes → Option Nat} {e : Stored}
    (he : e ∈ accepted F target idMap xs) :
    e.record ∈ xs ∧ e.record.readEmbedding F.d = .ok e.vec ∧
      F.nearest e.vec = some target ∧
      ∃ id, e.record.idString = .ok id ∧ idMap id = some e.num := by
  obtain ⟨x, hx, hverdict⟩ := mem_accepted.mp he
  obtain ⟨hv, hnear, hid, rfl⟩ := verdict_eq_some.mp hverdict
  exact ⟨hx, hv, hnear, hid⟩

theorem Loaded.invlists (h : Loaded F target xs s s') :
    s'.invlists = Function.update s.invlists target
      (s.invlists target ++ (accepted F target s.idMap xs).map Stored.entry) := by
  rw [h.eq]
  exact insertAll_invlists (fun e he => (accepted_spec he).2.2.1) s

theorem Loaded.dataMap_accepted (h : Loaded F target xs s s') {e : Stored}
    (he : e ∈ accepted F target s.idMap xs) : s'.dataMap e.num = some e.record := by
  rw [h.eq]
  exact (insertAll_dataMap h.admits).1 e he

theorem Loaded.dataMap_frame (h : Loaded F target xs s s') {num : Nat}
    (hnum : num ∉ (accepted F target s.idMap xs).map Stored.num) :
    s'.dataMap num = s.dataMap num := by
  rw [h.eq]
  exact (insertAll_dataMap h.admits).2 num hnum

theorem Loaded.residenceStatuses (h : Loaded F target xs s s') :
    s'.residenceStatuses = Function.update s.residenceStatuses target
      ((s.idsByCell target).length : Int) := by
  rw [h.eq, setStatus, (insertAll_frame F _ s).2.1]

/-- A load leaves the registry alone. -/
theorem Loaded.registry (h : Loaded F target xs s s') :
    s'.nextId = s.nextId ∧ s'.idsByCell = s.idsByCell ∧ s'.idMap = s.idMap := by
  rw [h.eq]
  exact (insertAll_frame F _ s).2.2.2

/-- A record stored afterwards is an accepted one or was stored before. -/
theorem Loaded.dataMap_cases (h : Loaded F target xs s s') {num : Nat} {x : Data}
    (hx : s'.dataMap num = some x) :
    (∃ e ∈ accepted F target s.idMap xs, e.num = num ∧ e.record = x) ∨
      s.dataMap num = some x := by
  by_cases hnum : num ∈ (accepted F target s.idMap xs).map Stored.num
  · obtain ⟨e, he, rfl⟩ := List.mem_map.mp hnum
    rw [h.dataMap_accepted he, Option.some.injEq] at hx
    exact Or.inl ⟨e, he, rfl, hx⟩
  · rw [h.dataMap_frame hnum] at hx
    exact Or.inr hx

/-- What was stored before is stored afterwards. -/
theorem Loaded.dataMap_mono (h : Loaded F target xs s s') {num : Nat} {x : Data}
    (hx : s.dataMap num = some x) : s'.dataMap num = some x := by
  rw [h.dataMap_frame, hx]
  intro hmem
  obtain ⟨e, he, rfl⟩ := List.mem_map.mp hmem
  rw [h.admits.absent e he] at hx
  exact absurd hx (by simp)

end LoadedFields

/-- **The rule for loads.**  What every successful load of a cell that is not in
residence preserves is preserved by the whole loop, whichever way it ends. -/
theorem loadCells_rule {F : Faiss nCells δ} {db : Database nCells}
    {P : Core nCells → Prop}
    (hload : ∀ s s' c x, P s → s.residenceStatuses c ≤ -1 →
      db c (s.idsByCell c) = .filled x → Loaded F c x.toList s s' → P s')
    {labels : List Int} {s : Core nCells} {exit : Exit (Core nCells)}
    (h : loadCells F db labels s = .ok exit) (hs : P s) : P exit.state := by
  induction labels generalizing s with
  | nil =>
      simp only [loadCells, Except.ok.injEq] at h
      subst h
      exact hs
  | cons label labels ih =>
      rw [loadCells] at h
      obtain ⟨c, _, h⟩ := bind_eq_ok.mp h
      split at h
      · exact ih h hs
      · next hstatus =>
          obtain ⟨e, he, h⟩ := bind_eq_ok.mp h
          rcases loadCell_eq_ok.mp he with ⟨code, _, rfl⟩ | ⟨x, s', hdb, hloaded, rfl⟩
          · simp only [Except.ok.injEq] at h
            subst h
            exact hs
          · exact ih h (hload s s' c x hs (by omega) hdb hloaded)

theorem loadCellWithVec_rule {F : Faiss nCells δ} {db : Database nCells}
    {P : Core nCells → Prop}
    (hload : ∀ s s' c x, P s → s.residenceStatuses c ≤ -1 →
      db c (s.idsByCell c) = .filled x → Loaded F c x.toList s s' → P s')
    {xq : List F32} {nload : Nat} {s : Core nCells} {exit : Exit (Core nCells)}
    (h : s.loadCellWithVec F db xq nload = .ok exit) (hs : P s) : P exit.state := by
  rw [loadCellWithVec] at h
  obtain ⟨labels, _, h⟩ := bind_eq_ok.mp h
  exact loadCells_rule hload h hs

/-! ## Evicting cells -/

theorem evictCells_padding (p : Nat) (s : Core nCells) :
    evictCells (List.replicate p (-1)) s = if p = 0 then .ok s else .error .outOfBounds := by
  cases p with
  | zero => rfl
  | succ p =>
      rw [List.replicate_succ, evictCells, cellAt_neg_one]
      rfl

theorem eraseAll_apply (dataMap : Nat → Option Data) (nums : List Nat) (num : Nat) :
    eraseAll dataMap nums num = if num ∈ nums then none else dataMap num := by
  induction nums generalizing dataMap with
  | nil => simp [eraseAll]
  | cons m nums ih =>
      have hcons : eraseAll dataMap (m :: nums) =
          eraseAll (Function.update dataMap m none) nums := rfl
      rw [hcons, ih]
      by_cases hmem : num ∈ nums
      · simp [hmem]
      · by_cases heq : num = m
        · simp [heq]
        · simp [hmem, heq]

/-- The state in which cell `c` has been emptied. -/
def evicted (c : Fin nCells) (s : Core nCells) : Core nCells :=
  setStatus c (-1)
    { s with
      invlists := Function.update s.invlists c []
      dataMap := eraseAll s.dataMap ((s.invlists c).map Entry.num) }

theorem evicted_invlists (c : Fin nCells) (s : Core nCells) :
    (s.evicted c).invlists = Function.update s.invlists c [] := rfl

theorem evicted_residenceStatuses (c : Fin nCells) (s : Core nCells) :
    (s.evicted c).residenceStatuses = Function.update s.residenceStatuses c (-1) := rfl

theorem evicted_dataMap (c : Fin nCells) (s : Core nCells) (num : Nat) :
    (s.evicted c).dataMap num =
      if num ∈ (s.invlists c).map Entry.num then none else s.dataMap num :=
  eraseAll_apply s.dataMap _ num

theorem evictCell_eq_ok {c : Fin nCells} {s s' : Core nCells} :
    evictCell c s = .ok s' ↔ s.residenceStatuses c ≠ -1 ∧ s' = s.evicted c := by
  rw [evictCell]
  by_cases hstatus : s.residenceStatuses c = -1
  · simp [hstatus]
  · simp [hstatus, evicted, eq_comm]

/-- **The rule for evictions.** -/
theorem evictCells_rule {P : Core nCells → Prop}
    (hevict : ∀ s c, P s → 0 ≤ s.residenceStatuses c → P (s.evicted c))
    {labels : List Int} {s s' : Core nCells}
    (h : evictCells labels s = .ok s') (hs : P s) : P s' := by
  induction labels generalizing s with
  | nil =>
      simp only [evictCells, Except.ok.injEq] at h
      exact h ▸ hs
  | cons label labels ih =>
      rw [evictCells] at h
      obtain ⟨c, _, h⟩ := bind_eq_ok.mp h
      split at h
      · exact ih h hs
      · next hstatus =>
          obtain ⟨t, ht, h⟩ := bind_eq_ok.mp h
          obtain ⟨_, rfl⟩ := evictCell_eq_ok.mp ht
          exact ih h (hevict s c hs (by omega))

theorem evictCellWithVec_rule {F : Faiss nCells δ} {P : Core nCells → Prop}
    (hevict : ∀ s c, P s → 0 ≤ s.residenceStatuses c → P (s.evicted c))
    {xq : List F32} {nevict : Nat} {s s' : Core nCells}
    (h : s.evictCellWithVec F xq nevict = .ok s') (hs : P s) : P s' := by
  rw [evictCellWithVec] at h
  obtain ⟨labels, _, h⟩ := bind_eq_ok.mp h
  exact evictCells_rule hevict h hs

/-! ## Registering ids -/

/-- The state in which `id` has been registered in cell `c`. -/
def register (c : Fin nCells) (id : Bytes) (s : Core nCells) : Core nCells :=
  { s with
    idsByCell := Function.update s.idsByCell c (s.idsByCell c ++ [id])
    idMap := if (s.idMap id).isSome then s.idMap
      else Function.update s.idMap id (some s.nextId)
    nextId := s.nextId + 1 }

theorem addOne_eq_ok {label : Int} {buf : Bytes} {s s' : Core nCells} :
    addOne label buf s = .ok s' ↔
      isNullTerminated buf 100 = .ok true ∧ s.nextId + 1 < 2 ^ 63 ∧
        ∃ c id, label = (c.val : Int) ∧ cString 0 buf = some id ∧
          s' = s.register c id := by
  rw [addOne]
  constructor
  · intro h
    obtain ⟨terminated, ht, h⟩ := bind_eq_ok.mp h
    cases terminated with
    | false => simp at h
    | true =>
        simp only [if_true] at h
        obtain ⟨id, hid, h⟩ := bind_eq_ok.mp h
        obtain ⟨c, hc, h⟩ := bind_eq_ok.mp h
        split at h
        · next hnext =>
            rw [Except.ok.injEq] at h
            exact ⟨ht, hnext, c, id, cellAt_eq_ok.mp hc, bounded_eq_ok.mp hid, h.symm⟩
        · exact absurd h (by simp)
  · rintro ⟨ht, hnext, c, id, rfl, hid, rfl⟩
    simp only [ht, ok_bind, if_true, hid, bounded_some, cellAt_val, if_pos hnext, register]

/-- **The rule for registrations.** -/
theorem addAll_rule {P : Core nCells → Prop}
    (hregister : ∀ s c id, P s → s.nextId + 1 < 2 ^ 63 → P (s.register c id))
    {labels : List Int} {ids : List Bytes} {s s' : Core nCells}
    (h : addAll labels ids s = .ok s') (hs : P s) : P s' := by
  induction labels generalizing ids s with
  | nil =>
      simp only [addAll, Except.ok.injEq] at h
      exact h ▸ hs
  | cons label labels ih =>
      cases ids with
      | nil => exact absurd h (by simp [addAll])
      | cons id ids =>
          rw [addAll] at h
          obtain ⟨t, ht, h⟩ := bind_eq_ok.mp h
          obtain ⟨_, hnext, c, str, _, _, rfl⟩ := addOne_eq_ok.mp ht
          exact ih h (hregister s c str hs hnext)

/-! ## All operations -/

theorem search_state {F : Faiss nCells δ} {n : Nat} {xq : List F32} {k nprobe : Nat}
    {requireAll : Bool} {data data' : List Data} {hits : List Int}
    {s s' : Core nCells}
    (h : s.search F n xq k nprobe requireAll data = .ok (s', data', hits)) :
    s' = { s with nprobe := nprobe } := by
  rw [search] at h
  obtain ⟨labels, _, h⟩ := bind_eq_ok.mp h
  obtain ⟨⟨data, hits⟩, _, h⟩ := bind_eq_ok.mp h
  simp only [Except.ok.injEq, Prod.mk.injEq] at h
  exact h.1.symm

/-- **The rule for operations.**  An invariant of the five updates that an
operation is made of is an invariant of every operation. -/
theorem step_rule {F : Faiss nCells δ} {P : Core nCells → Prop}
    (htrain : ∀ s, P s → P (s.train F))
    (hregister : ∀ s c id, P s → s.nextId + 1 < 2 ^ 63 → P (s.register c id))
    (hload : ∀ s s' c xs, P s → s.residenceStatuses c ≤ -1 →
      Loaded F c xs s s' → P s')
    (hevict : ∀ s c, P s → 0 ≤ s.residenceStatuses c → P (s.evicted c))
    (hprobe : ∀ s nprobe, P s → P { s with nprobe := nprobe })
    {s s' : Core nCells} {op : Op nCells} (h : step F s op = .ok s') (hs : P s) :
    P s' := by
  cases op with
  | train =>
      simp only [step, Except.ok.injEq] at h
      exact h ▸ htrain s hs
  | add numDocs ids embeddings =>
      rw [step, add] at h
      obtain ⟨labels, _, h⟩ := bind_eq_ok.mp h
      exact addAll_rule hregister h hs
  | load xq nload db =>
      rw [step] at h
      obtain ⟨exit, hexit, h⟩ := bind_eq_ok.mp h
      rw [Except.ok.injEq] at h
      exact h ▸ loadCellWithVec_rule
        (fun t t' c x ht hstatus _ hloaded => hload t t' c x.toList ht hstatus hloaded)
        hexit hs
  | evict xq nevict => exact evictCellWithVec_rule hevict h hs
  | search n xq k nprobe requireAll data =>
      rw [step] at h
      obtain ⟨⟨t, _, _⟩, ht, h⟩ := bind_eq_ok.mp h
      simp only [Except.ok.injEq] at h
      rw [← h, search_state ht]
      exact hprobe s nprobe hs

end Core

end Periplus.Ports
