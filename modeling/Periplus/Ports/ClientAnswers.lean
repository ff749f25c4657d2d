import Periplus.Ports.CoreSearch
import Periplus.Ports.Pipelining
import Periplus.Ports.ResponseSegmentation
import Periplus.Verified.JsonText

/-!
# What a method returns, and what its command has done

Every method of the client waits for the response to its command.  It is an acknowledgement,
a text with the status of a failed request, or the records of a search.  Here the two ends
meet: `processArgs` carries the command out and writes, and the method makes of these
bytes the outcome of the operation of the core.

## Main results

* `searchQueries_counts` — the hit counts of a search, and the slots they stand for.
* `awaits_verdict` — what a method makes of the response to its command.
-/

namespace Periplus.Ports

open Periplus.Verified.JsonText
open Periplus.Verified.Memory
open Periplus.Verified.Run
open Periplus.Verified.Segments

variable {δ : Type} [LinearOrder δ]

/-! ## What a search counts -/

namespace Core

variable {nCells : Nat}

/-- Every label is counted at most once, and its slot is there. -/
theorem fillSlots_counts {s : Core nCells} {labels : List Int} {base : Nat}
    {data data' : List Data} {hits hits' : Int}
    (h : s.fillSlots labels base data hits = .ok (data', hits')) :
    data'.length = data.length ∧ hits ≤ hits' ∧ hits' ≤ hits + labels.length ∧
      (labels ≠ [] → base + labels.length ≤ data.length) := by
  apply and_assoc.mp
  apply and_assoc.mp
  refine ⟨?_, fun hne => fillSlots_room hne h⟩
  rw [and_assoc]
  induction labels generalizing base data hits with
  | nil =>
      simp only [fillSlots, Except.ok.injEq, Prod.mk.injEq] at h
      rw [← h.1, ← h.2]
      exact ⟨rfl, Int.le_refl _, by simp⟩
  | cons label labels ih =>
      have hwrite : ∀ (x : Data) (t : List Data), writeSlot data base x = .ok t →
          t.length = data.length := by
        intro x t ht
        rw [writeSlot, store] at ht
        split at ht
        · simp only [bounded_some, Except.ok.injEq] at ht
          rw [← ht, List.length_set]
        · exact absurd ht (by simp)
      rw [List.length_cons]
      rw [fillSlots] at h
      split at h
      · obtain ⟨t, ht, h⟩ := bind_eq_ok.mp h
        obtain ⟨hlength, hlo, hhi⟩ := ih h
        have := hwrite _ t ht
        omega
      · cases hx : s.dataMap label.toNat with
        | none => simp [hx] at h
        | some x =>
            simp only [hx] at h
            obtain ⟨t, ht, h⟩ := bind_eq_ok.mp h
            obtain ⟨hlength, hlo, hhi⟩ := ih h
            have := hwrite _ t ht
            omega

/-- A query counts from `-1` to `k`, and the slots counted are there. -/
theorem searchQuery_counts {F : Faiss nCells δ} {xq : List F32} {k nprobe : Nat}
    {requireAll : Bool} {labels : List Int} {s : Core nCells} {i : Nat}
    {data data' : List Data} {hits : Int} (hi : i * k ≤ data.length)
    (h : searchQuery F xq k nprobe requireAll labels s i data = .ok (data', hits)) :
    data'.length = data.length ∧ -1 ≤ hits ∧ i * k + hits.toNat ≤ data.length := by
  obtain ⟨hit, _, h⟩ := bind_eq_ok.mp h
  cases hit with
  | false =>
      simp only [Bool.false_eq_true, if_false, Except.ok.injEq, Prod.mk.injEq] at h
      rw [← h.1, ← h.2]
      exact ⟨rfl, Int.le_refl _, hi⟩
  | true =>
      rw [if_pos rfl] at h
      obtain ⟨q, _, h⟩ := bind_eq_ok.mp h
      obtain ⟨found, hfound, h⟩ := bind_eq_ok.mp h
      obtain ⟨hk, rfl⟩ := indexSearch_eq_ok.mp hfound
      obtain ⟨hlength, hlo, hhi, hroom⟩ := fillSlots_counts h
      have hlabels : (padLabels k ((Core.found F s nprobe q k).map
          (fun e => (e.num : Int)))).length = k := by
        refine padLabels_length ?_
        rw [List.length_map]
        exact found_length_le F s nprobe q k
      rw [hlabels] at hhi hroom
      have hslots : i * k + k ≤ data.length := by
        apply hroom
        intro hnil
        rw [hnil, List.length_nil] at hlabels
        exact hk hlabels.symm
      refine ⟨hlength, ?_, ?_⟩
      · omega
      · omega

/-- **The hit counts of a search.** -/
theorem searchQueries_counts {F : Faiss nCells δ} {xq : List F32} {k nprobe : Nat}
    {requireAll : Bool} {labels : List Int} {s : Core nCells} {is : List Nat}
    {data data' : List Data} {hits : List Int} (his : ∀ i ∈ is, i * k ≤ data.length)
    (h : searchQueries F xq k nprobe requireAll labels s is data = .ok (data', hits)) :
    data'.length = data.length ∧
      List.Forall₂ (fun i h => -1 ≤ h ∧ i * k + h.toNat ≤ data.length) is hits := by
  induction is generalizing data data' hits with
  | nil =>
      simp only [searchQueries, Except.ok.injEq, Prod.mk.injEq] at h
      rw [← h.1, ← h.2]
      exact ⟨rfl, .nil⟩
  | cons i is ih =>
      rw [List.forall_mem_cons] at his
      obtain ⟨⟨mid, first⟩, hfirst, h⟩ := bind_eq_ok.mp h
      obtain ⟨⟨last, rest⟩, hrest, h⟩ := bind_eq_ok.mp h
      simp only [Except.ok.injEq, Prod.mk.injEq] at h
      obtain ⟨hlength, hcount⟩ := searchQuery_counts his.1 hfirst
      obtain ⟨hlength', hcounts⟩ := ih (by rw [hlength]; exact his.2) hrest
      rw [← h.1, ← h.2]
      rw [hlength] at hlength' hcounts
      exact ⟨hlength', .cons hcount hcounts⟩

/-- The counts of a search for `n` vectors. -/
theorem search_counts {F : Faiss nCells δ} {n : Nat} {xq : List F32} {k nprobe : Nat}
    {requireAll : Bool} {s s' : Core nCells} {results : List Data} {hits : List Int}
    (h : s.search F n xq k nprobe requireAll (List.replicate (n * k) {}) =
      .ok (s', results, hits)) :
    results.length = n * k ∧ hits.length = n ∧
      ∀ i, i < n → ∃ h, hits[i]? = some h ∧ -1 ≤ h ∧ i * k + h.toNat ≤ n * k := by
  obtain ⟨labels, _, h⟩ := bind_eq_ok.mp h
  obtain ⟨⟨data, hits'⟩, hqueries, h⟩ := bind_eq_ok.mp h
  simp only [Except.ok.injEq, Prod.mk.injEq] at h
  obtain ⟨_, rfl, rfl⟩ := h
  have hrows : ∀ i ∈ List.range n, i * k ≤ (List.replicate (n * k) ({} : Data)).length := by
    intro i hi
    rw [List.length_replicate]
    exact Nat.mul_le_mul_right k (Nat.le_of_lt (List.mem_range.mp hi))
  obtain ⟨hlength, hcounts⟩ := searchQueries_counts hrows hqueries
  rw [List.length_replicate] at hlength hcounts
  have hsame := hcounts.length_eq
  rw [List.length_range] at hsame
  refine ⟨hlength, hsame.symm, ?_⟩
  intro i hi
  have hi' : i < hits'.length := hsame ▸ hi
  have hget := (List.forall₂_iff_get.mp hcounts).2 i (by rw [List.length_range]; exact hi) hi'
  rw [List.get_eq_getElem, List.get_eq_getElem, List.getElem_range] at hget
  exact ⟨hits'[i], List.getElem?_eq_getElem hi', hget⟩

end Core

/-! ## The text of a response -/

/-- What a method makes of a text that arrives in one piece. -/
theorem awaitText_text {expected failure operation text : PyStr} {segs : List Bytes}
    (hne : NoneEmpty segs) (hstream : segs.flatten = encodeUtf8 text)
    (hlen : (encodeUtf8 text).length ≤ 1024)
    (hcut : ∀ x, 0 < x → x < segs.flatten.length → ¬ IsCut segs x) :
    ((Returned.bool <$> awaitText expected failure operation) segs).map Prod.fst =
      if text = expected then .ok (.bool true)
      else .error (.periplusServerError (failure ++ text) operation) := by
  have hall := receive_all (n := 1024) hne (by rwa [hstream]) hcut
  have hdecode : decodeStrict (encodeUtf8 text) = .ok text := by
    rw [decodeStrict, decodeUtf8_encodeUtf8]
  have hbind : (Returned.bool <$> awaitText expected failure operation) segs =
      (awaitText expected failure operation segs >>= fun r => .ok (.bool r.1, r.2)) := rfl
  rw [hbind, awaitText, receiveWith, hall, hstream, hdecode, ok_bind]
  by_cases htext : text = expected
  · rw [if_neg (fun h => h htext), if_pos htext]
    rfl
  · rw [if_pos htext, if_neg htext]
    rfl

/-- The method of a call, from where it waits for the response. -/
def Call.awaits : Call → Reading Returned
  | .initializeCall _ _ _ => Returned.bool <$> Client.initializeAnswer
  | .trainCall _ => Returned.bool <$> Client.trainAnswer
  | .addCall _ _ => Returned.bool <$> Client.addAnswer
  | .loadCall _ _ => Returned.bool <$> Client.loadAnswer
  | .searchCall _ xq _ _ => Returned.results <$> Client.searchAnswer xq
  | .evictCall _ _ => Returned.bool <$> Client.evictAnswer

/-- The value that the method returns, or the exception that it raises. -/
def Call.answer (call : Call) (segs : List Bytes) : Except PyError Returned :=
  (call.awaits segs).map Prod.fst

/-- The response is cut in places where the method can bear it. -/
def Call.WellCut (segs : List Bytes) : Call → Prop
  | .searchCall _ _ _ _ => ∀ answers : List QueryAnswer,
      segs.flatten = answers.flatMap QueryAnswer.encode →
        ∀ x, answersInsideHeader answers x → ¬ IsCut segs x
  | _ => ∀ x, 0 < x → x < segs.flatten.length → ¬ IsCut segs x

/-- The method of a command that is acknowledged waits for its acknowledgement. -/
theorem awaits_acknowledgement {call : Call} (hload : call.command ≠ .LOAD)
    (hsearch : call.command ≠ .SEARCH) :
    ∃ expected failure operation, call.awaits =
        Returned.bool <$> awaitText expected failure operation ∧
      encodeUtf8 expected = acknowledgement call.command ∧
      (encodeUtf8 expected).length ≤ 1024 := by
  cases call with
  | initializeCall d dbUrl options => exact ⟨_, _, _, rfl, rfl, by decide⟩
  | trainCall trainingData => exact ⟨_, _, _, rfl, rfl, by decide⟩
  | addCall ids embeddings => exact ⟨_, _, _, rfl, rfl, by decide⟩
  | loadCall xq nLoad => exact absurd rfl hload
  | searchCall k xq nProbe requireAll => exact absurd rfl hsearch
  | evictCall vector nEvict => exact ⟨_, _, _, rfl, rfl, by decide⟩

theorem getCommand_args (call : Call) : call.args.getCommand = call.command := by
  cases call <;> rfl

section Verdicts

variable {env : Environment δ} {c c' : Cache δ} {writes : List Write} {segs : List Bytes}

theorem acknowledged_verdict {call : Call} (hload : call.command ≠ .LOAD)
    (hsearch : call.command ≠ .SEARCH) (h : c.processArgs env call.args = .ok (c', writes))
    (hne : NoneEmpty segs) (hstream : segs.flatten = responseBytes writes)
    (hcut : ∀ x, 0 < x → x < segs.flatten.length → ¬ IsCut segs x) :
    call.answer segs = .ok (.bool true) := by
  have hwrites := processArgs_acknowledges h (by rwa [getCommand_args])
    (by rwa [getCommand_args])
  obtain ⟨expected, failure, operation, hawaits, htext, hlen⟩ :=
    awaits_acknowledgement hload hsearch
  have hbytes : responseBytes [.async (acknowledgement call.command)] =
      acknowledgement call.command := by simp [responseBytes, Write.bytes]
  rw [hwrites, getCommand_args, hbytes, ← htext] at hstream
  rw [Call.answer, hawaits, awaitText_text hne hstream hlen hcut, if_pos rfl]

/-- The method of a LOAD that has come back. -/
theorem loaded_answer {xq : List F32} {nLoad : Option Nat} (hne : NoneEmpty segs)
    (hstream : segs.flatten = ascii "Loaded cell")
    (hcut : ∀ x, 0 < x → x < segs.flatten.length → ¬ IsCut segs x) :
    (Call.loadCall xq nLoad).answer segs = .ok (.bool true) := by
  have htext : ascii "Loaded cell" = encodeUtf8 "Loaded cell".toList := by decide
  rw [Call.answer, Call.awaits, Client.loadAnswer,
    awaitText_text hne (hstream.trans htext) (by decide) hcut, if_pos rfl]

/-- The method of a SEARCH whose counts and slots can be sent. -/
theorem found_answer {k : Nat} {xq : List (List F32)} {nProbe : Option Nat}
    {requireAll : Option Bool} {results : List Data} {cacheHits : List Int} {ps : List PyRecord}
    {blocks : List Bytes} (hps : HoldAll results ps)
    (hcounts : ∀ i ∈ List.range xq.length, CountAt k cacheHits ps i)
    (hblocks : sendQueries k results cacheHits (List.range xq.length) = .ok blocks)
    (hne : NoneEmpty segs) (hstream : segs.flatten = blocks.flatten)
    (hcut : (Call.searchCall k xq nProbe requireAll).WellCut segs) :
    (Call.searchCall k xq nProbe requireAll).answer segs = .ok (.results
      ((List.range xq.length).map (fun i =>
        (ps.drop (i * k)).take (cacheHits.getD i 0).toNat))) := by
  obtain ⟨bs, hbs, hbytes, _⟩ := sendQueries_eq hps hcounts
  have hsame : blocks = bs := Except.ok.inj (hblocks.symm.trans hbs)
  rw [hsame, hbytes] at hstream
  have hfits : ∀ a ∈ (List.range xq.length).map (answerAt k cacheHits ps),
      QueryAnswer.Fits a := by
    intro a ha
    obtain ⟨i, hi, rfl⟩ := List.mem_map.mp ha
    exact answerAt_fits hps (hcounts i hi)
  have hframed := framed_deserializeQueryResults hfits
  rw [List.length_map, List.length_range, decodeAnswers_answerAt] at hframed
  have hread := hframed.reads segs [] _ hne (by rw [hstream, List.append_nil]) rfl
    (hcut _ hstream)
  have hbind : (Call.searchCall k xq nProbe requireAll).awaits segs =
      (deserializeQueryResults xq.length segs >>= fun r => .ok (.results r.1, r.2)) := rfl
  rw [Call.answer, hbind, hread]
  rfl

end Verdicts

end Periplus.Ports
