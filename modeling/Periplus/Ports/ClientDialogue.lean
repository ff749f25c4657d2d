import Periplus.Ports.CacheRuns
import Periplus.Ports.ClientAnswers
import Periplus.Ports.SessionSegmentation

/-!
# A client that waits for its answers

A method of the client writes one frame and waits for one response.  `Exchange` is the whole
way: the frame that is written, the session that reads it in portions, the command that it
becomes, the response, and what the method makes of the segments in which it arrives.  A
client that awaits every method sends its next command when the one before has been
answered, so that its calls make up a `Dialogue`.

## Main results

* `Exchange.of_runs` — a command that can be written and is accepted makes an exchange with
  whatever its method makes of the response.
* `exchange_load`, `exchange_search`, `exchange_evict`, `exchange_add` — the exchanges with a
  cache that has been trained, from the operations of the core.
-/

namespace Periplus.Ports

open Periplus.Verified.Memory
open Periplus.Verified.Run
open Periplus.Verified.Segments

variable {δ : Type} [LinearOrder δ]

/-! ## One call -/

/-- A frame is written for the call, and every session that waits for a command carries it
out, whatever portions its reads take, if the static part is in the buffer when `read_args`
runs. -/
def CarriedOut (env : Environment δ) (c : Cache δ) (call : Call) (c' : Cache δ) : Prop :=
  ∃ f : Frame, call.written = some f.bytes ∧
    ∀ (s : Session) (segs : List Bytes), s.pending = .command → segs.flatten = f.bytes →
      f.needed ≤ untilCut f.command.line.length segs →
        Ends env ([], .ok (s.holding [] segs, c)) ([call.args], .ok c')

/-- A method is called while the cache is `c`; it comes to `result` and leaves `c'`. -/
structure Exchange (env : Environment δ) (c : Cache δ) (call : Call)
    (result : Except PyError Returned) (c' : Cache δ) : Prop where
  sent : CarriedOut env c call c'
  /-- The method comes to its result with any segments of the response that it can bear. -/
  returned : ∃ writes, c.processArgs env call.args = .ok (c', writes) ∧
    ∀ segs, NoneEmpty segs → segs.flatten = responseBytes writes → call.WellCut segs →
      call.answer segs = result

/-- Calls one after the other, each with what it has come to. -/
inductive Dialogue (env : Environment δ) :
    Cache δ → List (Call × Except PyError Returned) → Cache δ → Prop
  | nil (c : Cache δ) : Dialogue env c [] c
  | cons {c c' c'' : Cache δ} {call : Call} {result : Except PyError Returned}
      {rest : List (Call × Except PyError Returned)} (exchange : Exchange env c call result c')
      (later : Dialogue env c' rest c'') : Dialogue env c ((call, result) :: rest) c''

theorem Dialogue.append {env : Environment δ} {c c' c'' : Cache δ}
    {xs ys : List (Call × Except PyError Returned)} (h : Dialogue env c xs c')
    (h' : Dialogue env c' ys c'') : Dialogue env c (xs ++ ys) c'' := by
  induction h with
  | nil c => exact h'
  | cons exchange later ih => exact .cons exchange (ih h')

theorem frame_command (call : Call) (h : call.Encodable) :
    (call.frame h).command = call.command := by
  cases call <;> rfl

section Exchanges

variable {env : Environment δ} {c c' : Cache δ} {call : Call}

theorem carriedOut_of_runs {writes : List Write} (hU : call.Uniform) (h : call.Encodable)
    (haccepts : c.processCommand call.command.name = .ok call.command.newArgs)
    (hruns : c.processArgs env call.args = .ok (c', writes)) : CarriedOut env c call c' := by
  refine ⟨call.frame h, written_frame hU.sized h, ?_⟩
  intro s segs hpending hstream hbuffered
  have hframe : c.processCommand (call.frame h).command.name = .ok call.command.newArgs := by
    rw [frame_command]
    exact haccepts
  have hargs : c.processArgs env (call.frame h).args = .ok (c', writes) := by
    rw [Call.frame_args]
    exact hruns
  have hcuts : ∀ x, 0 < x → (CutBehind [] segs x ↔ IsCut segs (0 + x)) := by
    intro x _
    rw [CutBehind, List.length_nil, Nat.sub_zero, Nat.zero_add]
    exact and_iff_right (Nat.zero_le x)
  obtain ⟨r, hends, hiff⟩ := ends_handed env segs [call.frame h] (p := 0) (c := c) (b := [])
    (I := segs) hpending (by
      rw [List.nil_append, hstream, List.map_singleton, List.flatten_singleton]) hcuts
  have hunbroken : Unbroken env segs 0 c [call.frame h] := by
    unfold Unbroken
    rw [hframe, hargs, Nat.zero_add]
    exact ⟨hbuffered, trivial⟩
  have hhanded : handed env c [call.frame h] = ([(call.frame h).args], .ok c') := by
    simp only [handed, hframe, hargs]
  rw [← Call.frame_args call h, ← hhanded, ← hiff.mpr hunbroken]
  exact hends

/-- A call that is written and carried out. -/
theorem Exchange.of_runs {writes : List Write} {result : Except PyError Returned}
    (hU : call.Uniform) (h : call.Encodable)
    (haccepts : c.processCommand call.command.name = .ok call.command.newArgs)
    (hruns : c.processArgs env call.args = .ok (c', writes))
    (hanswer : ∀ segs, NoneEmpty segs → segs.flatten = responseBytes writes →
      call.WellCut segs → call.answer segs = result) : Exchange env c call result c' where
  sent := carriedOut_of_runs hU h haccepts hruns
  returned := ⟨writes, hruns, hanswer⟩

/-- A call that is acknowledged returns `True`. -/
theorem Exchange.of_acknowledged (hU : call.Uniform) (h : call.Encodable)
    (haccepts : c.processCommand call.command.name = .ok call.command.newArgs)
    (hruns : Cache.step env c call.args = .ok c') (hload : call.command ≠ .LOAD)
    (hsearch : call.command ≠ .SEARCH) : Exchange env c call (.ok (.bool true)) c' := by
  obtain ⟨⟨c₁, writes⟩, hruns, hstate⟩ := bind_eq_ok.mp hruns
  rw [Except.ok.injEq] at hstate
  rw [hstate] at hruns
  refine .of_runs hU h haccepts hruns ?_
  intro segs hne hstream hcut
  have hwhole : ∀ x, 0 < x → x < segs.flatten.length → ¬ IsCut segs x := by
    cases call with
    | searchCall k xq nProbe requireAll => exact absurd rfl hsearch
    | _ => exact hcut
  exact acknowledged_verdict hload hsearch hruns hne hstream hwhole

end Exchanges

/-! ## A cache that has been trained -/

/-- The cache is READY, with these tables. -/
def serving (core : CoreObject δ) (s : Core core.nCells) (time : Nat) : Cache δ where
  status := .READY
  core := some { core with tables := s }
  time := time

section Serving

variable {env : Environment δ} {core : CoreObject δ} {s s' : Core core.nCells} {time : Nat}

theorem serving_accepts (command : Command) :
    (serving core s time).processCommand command.name = .ok command.newArgs :=
  matchReady_name command

theorem exchange_add {ids : List PyStr} {embeddings : List (List F32)}
    (hU : (Call.addCall ids embeddings).Uniform) (h : (Call.addCall ids embeddings).Encodable)
    (hadd : s.add core.index.faiss ids.length (ids.map (fun id => latin1Bytes id ++ [0]))
      embeddings.flatten = .ok s') :
    Exchange env (serving core s time) (.addCall ids embeddings) (.ok (.bool true))
      (serving core s' (time + 1)) := by
  apply Exchange.of_acknowledged hU h (serving_accepts _) _ nofun nofun
  show (do
    let r ← (do
      let r ← (do
        let tables ← s.add core.index.faiss ids.length
          (ids.map (fun id => latin1Bytes id ++ [0])) embeddings.flatten
        Except.ok (serving core tables time, [Write.async (ascii "Added vectors")]))
      Except.ok (({ r.1 with time := time + 1 } : Cache δ), r.2))
    Except.ok r.1) = Except.ok (serving core s' (time + 1))
  rw [hadd]
  rfl

theorem exchange_evict {vector : List F32} {nEvict : Option Nat}
    (h : (Call.evictCall vector nEvict).Encodable)
    (hevict : s.evictCellWithVec core.index.faiss vector (nEvict.getD 1) = .ok s') :
    Exchange env (serving core s time) (.evictCall vector nEvict) (.ok (.bool true))
      (serving core s' (time + 1)) := by
  have hU : (Call.evictCall vector nEvict).Uniform := trivial
  apply Exchange.of_acknowledged hU h (serving_accepts _) _ nofun nofun
  show (do
    let r ← (do
      let r ← (do
        let tables ← s.evictCellWithVec core.index.faiss vector (nEvict.getD 1)
        Except.ok (serving core tables time, [Write.async (ascii "Evicted cell")]))
      Except.ok (({ r.1 with time := time + 1 } : Cache δ), r.2))
    Except.ok r.1) = Except.ok (serving core s' (time + 1))
  rw [hevict]
  rfl

theorem exchange_load {xq : List F32} {nLoad : Option Nat}
    (h : (Call.loadCall xq nLoad).Encodable)
    (hload : s.loadCellWithVec core.index.faiss (core.database env time) xq (nLoad.getD 1) =
      .ok (.returns s')) :
    Exchange env (serving core s time) (.loadCall xq nLoad) (.ok (.bool true))
      (serving core s' (time + 1)) := by
  have hruns : (serving core s time).processArgs env (Call.loadCall xq nLoad).args =
      .ok (serving core s' (time + 1), [.async (ascii "Loaded cell")]) := by
    have hdispatch : (serving core s time).dispatch env (Call.loadCall xq nLoad).args =
        .ok (serving core s' time, [.async (ascii "Loaded cell")]) := by
      show (s.loadCellWithVec core.index.faiss (core.database env time) xq (nLoad.getD 1) >>= _) = _
      rw [hload]
      rfl
    rw [Cache.processArgs, hdispatch]
    rfl
  have hU : (Call.loadCall xq nLoad).Uniform := trivial
  apply Exchange.of_runs hU h (serving_accepts _) hruns
  intro segs hne hstream hcut
  have hbytes : responseBytes [.async (ascii "Loaded cell")] = ascii "Loaded cell" := by
    simp [responseBytes, Write.bytes]
  exact loaded_answer hne (hstream.trans hbytes) hcut

/-- A search whose slots hold records of texts. -/
theorem exchange_search {k : Nat} {xq : List (List F32)} {nProbe : Option Nat}
    {requireAll : Option Bool} {results : List Data} {cacheHits : List Int} {ps : List PyRecord}
    (hU : (Call.searchCall k xq nProbe requireAll).Uniform)
    (h : (Call.searchCall k xq nProbe requireAll).Encodable)
    (hsearch : s.search core.index.faiss xq.length xq.flatten k (nProbe.getD 1)
      (requireAll.getD true) (List.replicate (xq.length * k) {}) = .ok (s', results, cacheHits))
    (hps : HoldAll results ps) (hcounts : ∀ h ∈ cacheHits, h < 2 ^ 31) :
    Exchange env (serving core s time) (.searchCall k xq nProbe requireAll)
      (.ok (.results ((List.range xq.length).map (fun i =>
        (ps.drop (i * k)).take (cacheHits.getD i 0).toNat)))) (serving core s' (time + 1)) := by
  obtain ⟨hlength, _, hrows⟩ := Core.search_counts hsearch
  have hcountAt : ∀ i ∈ List.range xq.length, CountAt k cacheHits ps i := by
    intro i hi
    obtain ⟨count, hget, hlo, hroom⟩ := hrows i (List.mem_range.mp hi)
    have hslots : ps.length = xq.length * k := hps.length_eq.symm.trans hlength
    exact ⟨count, hget, hlo, hcounts count (List.mem_of_getElem? hget), by
      rw [hslots]
      exact hroom⟩
  obtain ⟨blocks, hblocks, _⟩ := sendQueries_eq hps hcountAt
  have hruns : (serving core s time).processArgs env
      (Call.searchCall k xq nProbe requireAll).args =
        .ok (serving core s' (time + 1), blocks.map .sync) := by
    have hdispatch : (serving core s time).dispatch env
        (Call.searchCall k xq nProbe requireAll).args =
          .ok (serving core s' time, blocks.map .sync) := by
      show (s.search core.index.faiss xq.length xq.flatten k (nProbe.getD 1)
        (requireAll.getD true) (List.replicate (xq.length * k) {}) >>= _) = _
      rw [hsearch]
      show (sendQueries k results cacheHits (List.range xq.length) >>= _) = _
      rw [hblocks]
      rfl
    rw [Cache.processArgs, hdispatch]
    rfl
  apply Exchange.of_runs hU h (serving_accepts _) hruns
  intro segs hne hstream hcut
  rw [responseBytes_sync] at hstream
  exact found_answer hps hcountAt hblocks hne hstream hcut

end Serving

end Periplus.Ports
