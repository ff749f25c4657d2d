import Periplus.Ports.CoreInvariant
import Periplus.Verified.Buckets

/-!
# What has been registered, and what the lists hold of it

`registered F ops` is the history of a run: the ids and vectors of its ADD
commands, in order.  `RegistryInv` says that the registry of the core is that
history split by nearest centroid, and `docOf` reads an entry of an inverted
list back as the id and the vector it stands for.
-/

namespace Periplus.Ports

open Periplus.Verified.Memory
open Periplus.Verified.Run
open Periplus.Verified.Buckets

/-- A document as the core is told about it: its id and its vector. -/
abbrev Doc := Bytes × List F32

namespace Core

variable {nCells : Nat} {δ : Type} [LinearOrder δ]

/-! ## The history of registrations -/

/-- The document registered for an id buffer and a vector. -/
def docOfArgs (v : List F32) (buf : Bytes) : Doc := ((cString 0 buf).getD [], v)

/-- The documents an operation registers. -/
def registeredBy (F : Faiss nCells δ) : Op nCells → List Doc
  | .add numDocs ids embeddings =>
      List.zipWith docOfArgs ((List.range numDocs).map (F.query embeddings)) ids
  | .train => []
  | .load _ _ _ => []
  | .evict _ _ => []
  | .search _ _ _ _ _ _ => []

def registered (F : Faiss nCells δ) (ops : List (Op nCells)) : List Doc :=
  ops.flatMap (registeredBy F)

/-- The documents registered in one cell. -/
def registeredIn (F : Faiss nCells δ) (ops : List (Op nCells)) (c : Fin nCells) :
    List Doc :=
  bucket (fun p => F.nearest p.2) c (registered F ops)

theorem registered_concat (F : Faiss nCells δ) (ops : List (Op nCells)) (op : Op nCells) :
    registered F (ops ++ [op]) = registered F ops ++ registeredBy F op := by
  simp [registered]

theorem registeredIn_concat (F : Faiss nCells δ) (ops : List (Op nCells))
    (op : Op nCells) (c : Fin nCells) :
    registeredIn F (ops ++ [op]) c =
      registeredIn F ops c ++ bucket (fun p => F.nearest p.2) c (registeredBy F op) := by
  rw [registeredIn, registered_concat, bucket_append, registeredIn]

/-- An operation that registers nothing leaves the history of a cell alone. -/
theorem registeredIn_concat_of_nil {F : Faiss nCells δ} (ops : List (Op nCells))
    {op : Op nCells} (h : registeredBy F op = []) (c : Fin nCells) :
    registeredIn F (ops ++ [op]) c = registeredIn F ops c := by
  rw [registeredIn_concat, h, bucket_nil, List.append_nil]

theorem mem_registeredIn {F : Faiss nCells δ} {ops : List (Op nCells)}
    {c : Fin nCells} {p : Doc} :
    p ∈ registeredIn F ops c ↔ p ∈ registered F ops ∧ F.nearest p.2 = some c :=
  mem_bucket

/-! ## The registry -/

/-- The registry is the history, split by nearest centroid. -/
structure RegistryInv (F : Faiss nCells δ) (docs : List Doc) (s : Core nCells) : Prop where
  cells : ∀ c, s.idsByCell c =
    (bucket (fun p => F.nearest p.2) c docs).map Prod.fst
  known : ∀ id, (s.idMap id).isSome ↔ id ∈ docs.map Prod.fst

theorem registryInv_fresh (F : Faiss nCells δ) : RegistryInv F [] (fresh F) where
  cells := fun _ => rfl
  known := fun id => by simp [fresh]

/-- The registry depends only on `ids_by_cell` and `id_map`. -/
theorem RegistryInv.congr {F : Faiss nCells δ} {docs : List Doc} {s s' : Core nCells}
    (h : RegistryInv F docs s) (hcells : s'.idsByCell = s.idsByCell)
    (hmap : s'.idMap = s.idMap) : RegistryInv F docs s' where
  cells := by rw [hcells]; exact h.cells
  known := by rw [hmap]; exact h.known

theorem RegistryInv.register {F : Faiss nCells δ} {docs : List Doc} {s : Core nCells}
    (h : RegistryInv F docs s) {c : Fin nCells} {p : Doc} (hc : F.nearest p.2 = some c) :
    RegistryInv F (docs ++ [p]) (s.register c p.1) where
  cells := by
    intro c'
    rw [bucket_append, bucket_singleton, List.map_append, ← h.cells c']
    by_cases heq : c' = c
    · subst heq
      simp [Core.register, hc]
    · have hne : ¬ F.nearest p.2 = some c' := by
        rw [hc, Option.some.injEq]
        exact fun h => heq h.symm
      simp [Core.register, Function.update_of_ne heq, hne]
  known := by
    intro id
    have hknown := h.known id
    rw [List.map_append, List.mem_append]
    by_cases hold : (s.idMap p.1).isSome
    · have hmem := (h.known p.1).mp hold
      simp only [Core.register, if_pos hold, hknown, List.map_cons, List.map_nil,
        List.mem_singleton]
      constructor
      · exact Or.inl
      · rintro (hid | rfl)
        · exact hid
        · exact hmem
    · by_cases heq : id = p.1
      · simp [Core.register, hold, heq]
      · simp [Core.register, hold, hknown, heq]

/-- The label of the nearest centroid, as the quantizer writes it. -/
def nearestLabel (F : Faiss nCells δ) (v : List F32) : Int :=
  match F.nearest v with
  | some c => c.val
  | none => -1

theorem assign_one (F : Faiss nCells δ) (v : List F32) :
    F.assign v 1 = [nearestLabel F v] := by
  rw [Faiss.assign, nearestLabel, Faiss.nearest]
  cases F.ranked v with
  | nil => rfl
  | cons c cs => rfl

theorem nearestLabel_eq {F : Faiss nCells δ} {v : List F32} {c : Fin nCells} :
    nearestLabel F v = (c.val : Int) ↔ F.nearest v = some c := by
  rw [nearestLabel]
  cases hnear : F.nearest v with
  | none => simp
  | some c' =>
      simp only [Option.some.injEq]
      constructor
      · intro h
        exact Fin.ext (by omega)
      · rintro rfl
        rfl

/-- One label for each of several vectors. -/
theorem quantizerSearch_nearest {F : Faiss nCells δ} {n : Nat} {xq : List F32}
    {labels : List Int} :
    F.quantizerSearch n xq 1 = .ok labels ↔
      n * F.d ≤ xq.length ∧ labels = ((List.range n).map (F.query xq)).map (nearestLabel F) := by
  rw [Faiss.quantizerSearch_eq, if_neg one_ne_zero]
  by_cases hlen : n * F.d ≤ xq.length
  · have hrows : (List.range n).flatMap (fun i => F.assign (F.query xq i) 1) =
        ((List.range n).map (F.query xq)).map (nearestLabel F) := by
      simp only [assign_one, List.map_map]
      rw [List.map_eq_flatMap]
      rfl
    rw [if_pos hlen, Except.ok.injEq, hrows]
    exact ⟨fun h => ⟨hlen, h.symm⟩, fun h => h.2.symm⟩
  · simp [hlen]

/-- The tables that registering an id leaves alone. -/
structure SameStore (s s' : Core nCells) : Prop where
  invlists : s'.invlists = s.invlists
  dataMap : s'.dataMap = s.dataMap
  residenceStatuses : s'.residenceStatuses = s.residenceStatuses

/-- **The loop of `Core::add`** appends its documents to the history. -/
theorem addAll_registers {F : Faiss nCells δ} {vs : List (List F32)} {ids : List Bytes}
    {docs : List Doc} {s s' : Core nCells}
    (h : addAll (vs.map (nearestLabel F)) ids s = .ok s') (hinv : RegistryInv F docs s) :
    RegistryInv F (docs ++ List.zipWith docOfArgs vs ids) s' ∧ SameStore s s' := by
  induction vs generalizing ids docs s with
  | nil =>
      simp only [List.map_nil, addAll, Except.ok.injEq] at h
      subst h
      simpa using ⟨hinv, ⟨rfl, rfl, rfl⟩⟩
  | cons v vs ih =>
      cases ids with
      | nil => exact absurd h (by simp [addAll])
      | cons buf ids =>
          rw [List.map_cons, addAll] at h
          obtain ⟨t, ht, h⟩ := bind_eq_ok.mp h
          obtain ⟨_, _, c, id, hlabel, hid, rfl⟩ := addOne_eq_ok.mp ht
          have hdoc : docOfArgs v buf = (id, v) := by rw [docOfArgs, hid, Option.getD_some]
          have hnext := hinv.register (p := docOfArgs v buf) (c := c)
            (by rw [hdoc]; exact nearestLabel_eq.mp hlabel)
          rw [hdoc] at hnext
          obtain ⟨hreg, hlists, hdata, hstatus⟩ := ih h hnext
          rw [List.append_assoc, List.singleton_append, ← hdoc] at hreg
          exact ⟨hreg, ⟨hlists, hdata, hstatus⟩⟩

theorem add_registers {F : Faiss nCells δ} {numDocs : Nat} {ids : List Bytes}
    {embeddings : List F32} {docs : List Doc} {s s' : Core nCells}
    (h : s.add F numDocs ids embeddings = .ok s') (hinv : RegistryInv F docs s) :
    RegistryInv F (docs ++ registeredBy F (.add numDocs ids embeddings)) s' ∧
      SameStore s s' := by
  rw [add] at h
  obtain ⟨labels, hlabels, h⟩ := bind_eq_ok.mp h
  obtain ⟨_, heq⟩ := quantizerSearch_nearest.mp hlabels
  rw [heq] at h
  exact addAll_registers h hinv

/-- Loading a cell leaves the registry alone. -/
theorem loadCellWithVec_registry {F : Faiss nCells δ} {db : Database nCells}
    {xq : List F32} {nload : Nat} {s : Core nCells} {exit : Exit (Core nCells)}
    (h : s.loadCellWithVec F db xq nload = .ok exit) :
    exit.state.idsByCell = s.idsByCell ∧ exit.state.idMap = s.idMap := by
  refine loadCellWithVec_rule
    (P := fun t => t.idsByCell = s.idsByCell ∧ t.idMap = s.idMap) ?_ h ⟨rfl, rfl⟩
  intro t t' c x ht _ _ hload
  rw [hload.registry.2.1, hload.registry.2.2]
  exact ht

theorem evictCellWithVec_registry {F : Faiss nCells δ} {xq : List F32} {nevict : Nat}
    {s s' : Core nCells} (h : s.evictCellWithVec F xq nevict = .ok s') :
    s'.idsByCell = s.idsByCell ∧ s'.idMap = s.idMap :=
  evictCellWithVec_rule (P := fun t => t.idsByCell = s.idsByCell ∧ t.idMap = s.idMap)
    (fun _ _ ht _ => ht) h ⟨rfl, rfl⟩

theorem RegistryInv.step {F : Faiss nCells δ} {docs : List Doc} {s s' : Core nCells}
    {op : Op nCells} (hinv : RegistryInv F docs s) (h : step F s op = .ok s') :
    RegistryInv F (docs ++ registeredBy F op) s' := by
  cases op with
  | add numDocs ids embeddings => exact (add_registers h hinv).1
  | train =>
      simp only [Core.step, Except.ok.injEq] at h
      subst h
      rw [registeredBy, List.append_nil]
      exact hinv.congr rfl rfl
  | load xq nload db =>
      rw [Core.step] at h
      obtain ⟨exit, hexit, h⟩ := bind_eq_ok.mp h
      rw [Except.ok.injEq] at h
      subst h
      obtain ⟨hcells, hmap⟩ := loadCellWithVec_registry hexit
      rw [registeredBy, List.append_nil]
      exact hinv.congr hcells hmap
  | evict xq nevict =>
      obtain ⟨hcells, hmap⟩ := evictCellWithVec_registry h
      rw [registeredBy, List.append_nil]
      exact hinv.congr hcells hmap
  | search n xq k nprobe requireAll data =>
      rw [Core.step] at h
      obtain ⟨⟨t, _, _⟩, ht, h⟩ := bind_eq_ok.mp h
      simp only [Except.ok.injEq] at h
      rw [← h, search_state ht, registeredBy, List.append_nil]
      exact hinv.congr rfl rfl

theorem registryInv_of_reaches {F : Faiss nCells δ} {ops : List (Op nCells)}
    {s : Core nCells} (h : Reaches F ops s) : RegistryInv F (registered F ops) s := by
  refine history_invariant (fun as t => RegistryInv F (registered F as) t)
    (registryInv_fresh F) ?_ h
  intro as t op t' _ hinv hstep
  rw [registered_concat]
  exact hinv.step hstep

/-! ## Entries read back -/

/-- A record is one of the given document. -/
structure Represents (d : Nat) (x : Data) (p : Doc) : Prop where
  id : x.idString = .ok p.1
  embedding : x.readEmbedding d = .ok p.2

theorem Represents.unique {d : Nat} {x : Data} {p p' : Doc} (h : Represents d x p)
    (h' : Represents d x p') : p = p' := by
  have hid : p.1 = p'.1 := Except.ok.inj (h.id.symm.trans h'.id)
  have hvec : p.2 = p'.2 := Except.ok.inj (h.embedding.symm.trans h'.embedding)
  exact Prod.ext hid hvec

/-- The document an entry of an inverted list stands for. -/
def docOf (s : Core nCells) (e : Entry) : Doc :=
  ((((s.dataMap e.num).map Data.idString).getD (.ok [])).toOption.getD [], e.vec)

theorem docOf_of_dataMap {s : Core nCells} {e : Entry} {x : Data} {id : Bytes}
    (hx : s.dataMap e.num = some x) (hid : x.idString = .ok id) :
    s.docOf e = (id, e.vec) := by
  simp [docOf, hx, hid, Except.toOption]

theorem docOf_congr {s s' : Core nCells} {e : Entry}
    (h : s'.dataMap e.num = s.dataMap e.num) : s'.docOf e = s.docOf e := by
  rw [docOf, docOf, h]

/-- The record of a listed entry is one of its document, registered under the
number of the entry. -/
theorem StoreInv.represents {F : Faiss nCells δ} {s : Core nCells} (h : StoreInv F s)
    {c : Fin nCells} {e : Entry} (he : e ∈ s.invlists c) :
    ∃ x, s.dataMap e.num = some x ∧ Represents F.d x (s.docOf e) ∧
      s.idMap (s.docOf e).1 = some e.num := by
  obtain ⟨x, hx, hv, _⟩ := h.listed c e he
  obtain ⟨id, hid, hnum⟩ := h.registered e.num x hx
  have hdoc := docOf_of_dataMap hx hid
  exact ⟨x, hx, by rw [hdoc]; exact ⟨hid, hv⟩, by rw [hdoc]; exact hnum⟩

/-! ## Answers that represent documents -/

/-- The document of a usable slot. -/
def Stored.doc (e : Stored) : Doc := (e.record.idString.toOption.getD [], e.vec)

/-- A record of a document whose id is registered has a verdict. -/
theorem verdict_of_represents {F : Faiss nCells δ} {c : Fin nCells}
    {idMap : Bytes → Option Nat} {x : Data} {p : Doc} (h : Represents F.d x p)
    (hknown : F.nearest p.2 = some c → (idMap p.1).isSome) :
    (F.nearest p.2 = some c ∧ ∃ num, idMap p.1 = some num ∧
        verdict F c idMap x = .ok (some ⟨num, p.2, x⟩)) ∨
      (F.nearest p.2 ≠ some c ∧ verdict F c idMap x = .ok none) := by
  by_cases hnear : F.nearest p.2 = some c
  · obtain ⟨num, hnum⟩ := Option.isSome_iff_exists.mp (hknown hnear)
    exact Or.inl ⟨hnear, num, hnum,
      verdict_eq_some.mpr ⟨h.embedding, hnear, ⟨p.1, h.id, hnum⟩, rfl⟩⟩
  · exact Or.inr ⟨hnear, verdict_eq_none.mpr ⟨p.2, h.embedding, hnear⟩⟩

theorem verdicts_of_represents {F : Faiss nCells δ} {c : Fin nCells}
    {idMap : Bytes → Option Nat} {xs : List Data} {ds : List Doc}
    (h : List.Forall₂ (Represents F.d) xs ds)
    (hknown : ∀ p ∈ ds, F.nearest p.2 = some c → (idMap p.1).isSome) :
    ∀ x ∈ xs, ∃ o, verdict F c idMap x = .ok o := by
  induction h with
  | nil => simp
  | @cons x p xs ds hx _ ih =>
      intro y hy
      rcases List.mem_cons.mp hy with rfl | hy
      · rcases verdict_of_represents hx (hknown p List.mem_cons_self) with
          ⟨_, _, _, hv⟩ | ⟨_, hv⟩
        · exact ⟨_, hv⟩
        · exact ⟨_, hv⟩
      · exact ih (fun q hq => hknown q (List.mem_cons_of_mem p hq)) y hy

/-- The usable slots of an answer are those of documents nearest to the cell. -/
theorem accepted_of_represents {F : Faiss nCells δ} {c : Fin nCells}
    {idMap : Bytes → Option Nat} {xs : List Data} {ds : List Doc}
    (h : List.Forall₂ (Represents F.d) xs ds)
    (hknown : ∀ p ∈ ds, F.nearest p.2 = some c → (idMap p.1).isSome) :
    (accepted F c idMap xs).map Stored.doc =
      ds.filter (fun p => F.nearest p.2 = some c) := by
  induction h with
  | nil => rfl
  | @cons x p xs ds hx _ ih =>
      have hrest := ih (fun q hq => hknown q (List.mem_cons_of_mem p hq))
      rcases verdict_of_represents hx (hknown p List.mem_cons_self) with
        ⟨hnear, num, _, hv⟩ | ⟨hfar, hv⟩
      · have hdoc : Stored.doc ⟨num, p.2, x⟩ = p := by
          rw [Stored.doc, hx.id]
          rfl
        rw [accepted_cons_some hv, List.map_cons, hdoc, hrest,
          List.filter_cons_of_pos (by simpa using hnear)]
      · rw [accepted_cons_none hv, hrest, List.filter_cons_of_neg (by simpa using hfar)]

theorem Loaded.docOf_entry {F : Faiss nCells δ} {c : Fin nCells} {xs : List Data}
    {s s' : Core nCells} (h : Loaded F c xs s s') {e : Stored}
    (he : e ∈ accepted F c s.idMap xs) : s'.docOf e.entry = e.doc := by
  obtain ⟨_, _, _, id, hid, _⟩ := accepted_spec he
  have hdata : s'.dataMap e.entry.num = some e.record := h.dataMap_accepted he
  rw [docOf_of_dataMap hdata hid, Stored.doc, hid]
  rfl

/-- **What a load adds to the lists**, read back: the documents of the usable slots
in the target cell, and nothing elsewhere. -/
theorem Loaded.docs {F : Faiss nCells δ} {c : Fin nCells} {xs : List Data}
    {s s' : Core nCells} (hinv : StoreInv F s) (h : Loaded F c xs s s') :
    (s'.invlists c).map s'.docOf =
        (s.invlists c).map s.docOf ++ (accepted F c s.idMap xs).map Stored.doc ∧
      ∀ c', c' ≠ c → s'.invlists c' = s.invlists c' ∧
        (s'.invlists c').map s'.docOf = (s.invlists c').map s.docOf := by
  have hold : ∀ c', (s.invlists c').map s'.docOf = (s.invlists c').map s.docOf := by
    intro c'
    refine List.map_congr_left ?_
    intro e he
    obtain ⟨y, hy, _⟩ := hinv.listed c' e he
    exact docOf_congr (by rw [h.dataMap_mono hy, hy])
  constructor
  · rw [h.invlists, Function.update_self, List.map_append, hold c, List.map_map]
    congr 1
    exact List.map_congr_left (fun e he => h.docOf_entry he)
  · intro c' hc
    have hlist : s'.invlists c' = s.invlists c' := by
      rw [h.invlists, Function.update_of_ne hc]
    exact ⟨hlist, by rw [hlist]; exact hold c'⟩

/-- The id of a usable slot is registered under the number of its entry. -/
theorem idMap_of_accepted {F : Faiss nCells δ} {c : Fin nCells}
    {idMap : Bytes → Option Nat} {xs : List Data} {e : Stored}
    (he : e ∈ accepted F c idMap xs) : idMap e.doc.1 = some e.num := by
  obtain ⟨_, _, _, id, hid, hnum⟩ := accepted_spec he
  rw [Stored.doc, hid]
  exact hnum

/-- A database of well-formed records answers with one record for each id. -/
theorem ofRecords_represents {d : Nat} {ids : List Bytes} {record : Bytes → Record}
    (h : ∀ id ∈ ids, (record id).id = id ∧ 0 ∉ id ∧ (record id).embedding.length = d)
    (c : Fin nCells) :
    ∃ x, Database.ofRecords record c ids = .filled x ∧
      List.Forall₂ (Represents d) x.toList
        (ids.map (fun id => (id, (record id).embedding))) := by
  refine ⟨_, rfl, ?_⟩
  rw [show (Vector.toList ⟨(ids.map (fun id => (record id).toData)).toArray, by simp⟩) =
      ids.map (fun id => (record id).toData) from rfl,
    List.forall₂_map_left_iff, List.forall₂_map_right_iff, List.forall₂_same]
  intro id hid
  obtain ⟨heq, hterm, hlen⟩ := h id hid
  refine ⟨?_, ?_⟩
  · have hstring := Record.toData_idString (r := record id) (by rwa [heq])
    rwa [heq] at hstring
  · rw [← hlen]
    exact (record id).toData_readEmbedding

end Core

end Periplus.Ports
