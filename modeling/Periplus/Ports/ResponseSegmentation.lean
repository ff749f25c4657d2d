import Periplus.Ports.SearchResponse

/-!
# How the client's answer depends on the segments of the response

Strings and vectors are read in loops, so it does not matter where they are cut.
An acknowledgement, a hit count and a length word are each read by one call of
`receive`, whose result is used even if it is short.

## Main results

* `processArgs_acknowledges` — the fixed acknowledgements are what the cache writes.
* `answered_iff` — the client's method returns what it returns for the undivided
  response exactly when the texts are UTF-8 and no cut is inside of one of those.
-/

namespace Periplus.Ports

open Periplus.Verified.Memory
open Periplus.Verified.Run
open Periplus.Verified.Segments

/-! ## The methods -/

/-- `res = await receive()`, and the comparison of its text. -/
def awaitText (expected failure operation : PyStr) : Reading Bool :=
  receiveWith 1024 (fun res => do
    let text ← decodeStrict res
    if text ≠ expected then .error (.periplusServerError (failure ++ text) operation)
    else .ok true)

namespace Client

def initializeAnswer : Reading Bool :=
  awaitText "Initialized cache".toList "[Error: Initialization Failed] ".toList
    "INITIALIZE".toList

def trainAnswer : Reading Bool :=
  awaitText "Trained cache".toList "[Error: Training Failed] ".toList "TRAIN".toList

def addAnswer : Reading Bool :=
  awaitText "Added vectors".toList "[Error: Adding Vectors Failed] ".toList "ADD".toList

def loadAnswer : Reading Bool :=
  awaitText "Loaded cell".toList "[Error: Loading Failed] ".toList "LOAD".toList

def searchAnswer (xq : List (List F32)) : Reading (List (List PyRecord)) :=
  deserializeQueryResults xq.length

def evictAnswer : Reading Bool :=
  awaitText "Evicted cell".toList "[Error: Evicting Failed] ".toList "EVICT".toList

end Client

/-! ## The responses -/

/-- The fixed acknowledgement of a command; a search has none. -/
def acknowledgement : Command → Bytes
  | .INITIALIZE => ascii "Initialized cache"
  | .TRAIN => ascii "Trained cache"
  | .ADD => ascii "Added vectors"
  | .LOAD => ascii "Loaded cell"
  | .EVICT => ascii "Evicted cell"
  | .SEARCH => []

/-- A response of the server: that a command was carried out, or the answer to a
search. -/
inductive Response
  | initialized
  | trained
  | added
  | loaded
  | evicted
  | searched (answers : List QueryAnswer)

/-- What a method returns. -/
inductive Returned
  | bool (b : Bool)
  | results (rs : List (List PyRecord))

namespace Response

def bytes : Response → Bytes
  | .initialized => acknowledgement .INITIALIZE
  | .trained => acknowledgement .TRAIN
  | .added => acknowledgement .ADD
  | .loaded => acknowledgement .LOAD
  | .evicted => acknowledgement .EVICT
  | .searched answers => answers.flatMap QueryAnswer.encode

/-- The method that reads the response, called with as many queries as there are
answers. -/
def read : Response → Reading Returned
  | .initialized => Returned.bool <$> Client.initializeAnswer
  | .trained => Returned.bool <$> Client.trainAnswer
  | .added => Returned.bool <$> Client.addAnswer
  | .loaded => Returned.bool <$> Client.loadAnswer
  | .evicted => Returned.bool <$> Client.evictAnswer
  | .searched answers => Returned.results <$>
      Client.searchAnswer (List.replicate answers.length [])

/-- The value that the method returns, or the exception that it raises. -/
def answer (r : Response) (segs : List Bytes) : Except PyError Returned :=
  (r.read segs).map Prod.fst

/-- The method returns, and with the value it returns when each receive returns all
it asked for. -/
def Answered (r : Response) (segs : List Bytes) : Prop :=
  r.answer segs = r.answer [r.bytes] ∧ ∃ v, r.answer segs = .ok v

/-- The sizes fit the types they are sent in. -/
def Fits : Response → Prop
  | .searched answers => ∀ a ∈ answers, QueryAnswer.Fits a
  | _ => True

end Response

/-- The bytes are the encoding of a text. -/
def Utf8 (bs : Bytes) : Prop := ∃ s, encodeUtf8 s = bs

def Record.Utf8 (r : Record) : Prop :=
  Ports.Utf8 r.id ∧ Ports.Utf8 r.document ∧ Ports.Utf8 r.metadata

/-- An acknowledgement is not cut; the texts of an answer are UTF-8, and it is not cut
inside of a hit count or of a length word. -/
def Response.Undivided (segs : List Bytes) : Response → Prop
  | .searched answers =>
      (∀ a ∈ answers, ∀ r ∈ QueryAnswer.records a, r.Utf8) ∧
        ∀ x, answersInsideHeader answers x → ¬ IsCut segs x
  | r => ∀ x, 0 < x → x < r.bytes.length → ¬ IsCut segs x

/-! ## Acknowledgements -/

variable {δ : Type} [LinearOrder δ]

/-- The cache acknowledges every command but SEARCH; only a LOAD can be answered with
another text. -/
theorem processArgs_acknowledges {env : Environment δ} {args : Args} {c c' : Cache δ}
    {writes : List Write} (h : c.processArgs env args = .ok (c', writes))
    (hsearch : args.getCommand ≠ .SEARCH) (hload : args.getCommand ≠ .LOAD) :
    writes = [.async (acknowledgement args.getCommand)] := by
  obtain ⟨⟨c₁, ws⟩, hrun, h⟩ := bind_eq_ok.mp h
  simp only [Except.ok.injEq, Prod.mk.injEq] at h
  obtain ⟨-, rfl⟩ := h
  cases args with
  | initializeArgs a =>
      obtain ⟨core, -, h⟩ := bind_eq_ok.mp hrun
      simp only [Except.ok.injEq, Prod.mk.injEq] at h
      exact h.2.symm
  | trainArgs a =>
      obtain ⟨core, -, h⟩ := bind_eq_ok.mp hrun
      split at h
      · exact absurd h (by simp)
      · obtain ⟨core', -, h⟩ := bind_eq_ok.mp h
        split at h
        · simp only [Except.ok.injEq, Prod.mk.injEq] at h
          exact h.2.symm
        · exact absurd h (by simp)
  | loadArgs a => exact absurd rfl hload
  | searchArgs a => exact absurd rfl hsearch
  | evictArgs a =>
      obtain ⟨core, -, h⟩ := bind_eq_ok.mp hrun
      obtain ⟨tables, -, h⟩ := bind_eq_ok.mp h
      simp only [Except.ok.injEq, Prod.mk.injEq] at h
      exact h.2.symm
  | addArgs a =>
      obtain ⟨core, -, h⟩ := bind_eq_ok.mp hrun
      obtain ⟨tables, -, h⟩ := bind_eq_ok.mp h
      simp only [Except.ok.injEq, Prod.mk.injEq] at h
      exact h.2.symm

section Acknowledgements

variable {expected failure operation : PyStr} {segs : List Bytes}

/-- A text that arrives in one piece is the expected one. -/
theorem awaitText_whole (hne : NoneEmpty segs) (hstream : segs.flatten = encodeUtf8 expected)
    (hlen : (encodeUtf8 expected).length ≤ 1024)
    (hcut : ∀ x, 0 < x → x < (encodeUtf8 expected).length → ¬ IsCut segs x) :
    awaitText expected failure operation segs = .ok (true, (receive 1024 segs).2) := by
  have hall := receive_all (n := 1024) hne (by rwa [hstream]) (by rwa [hstream])
  have hdecode : decodeStrict (encodeUtf8 expected) = .ok expected := by
    rw [decodeStrict, decodeUtf8_encodeUtf8]
  rw [awaitText, receiveWith, hall, hstream, hdecode, ok_bind, if_neg (by simp)]
  rfl

/-- A first part of it is not. -/
theorem awaitText_part (hstream : segs.flatten = encodeUtf8 expected) {x : Nat} (hx : 0 < x)
    (hlt : x < (encodeUtf8 expected).length) (hcut : IsCut segs x) :
    ∃ e, awaitText expected failure operation segs = .error e := by
  have hpart := receive_part (n := 1024) hx (by rwa [hstream]) hcut
  rw [hstream] at hpart
  cases hdecode : decodeUtf8 (receive 1024 segs).1 with
  | none =>
      have hstrict : decodeStrict (receive 1024 segs).1 = .error .unicodeDecodeError := by
        rw [decodeStrict, hdecode]
      refine ⟨.unicodeDecodeError, ?_⟩
      rw [awaitText, receiveWith, hstrict]
      rfl
  | some text =>
      have hne : text ≠ expected := by
        intro h
        rw [← encodeUtf8_of_decodeUtf8 hdecode, h] at hpart
        exact Nat.lt_irrefl _ hpart
      have hstrict : decodeStrict (receive 1024 segs).1 = .ok text := by
        rw [decodeStrict, hdecode]
      refine ⟨.periplusServerError (failure ++ text) operation, ?_⟩
      rw [awaitText, receiveWith, hstrict, ok_bind, if_pos hne]
      rfl

/-- An acknowledgement is accepted exactly when it arrives in one piece. -/
theorem awaitText_answered_iff (hne : NoneEmpty segs)
    (hstream : segs.flatten = encodeUtf8 expected)
    (hlen : (encodeUtf8 expected).length ≤ 1024) (hpos : encodeUtf8 expected ≠ []) :
    (((Returned.bool <$> awaitText expected failure operation) segs).map Prod.fst =
        ((Returned.bool <$> awaitText expected failure operation)
          [encodeUtf8 expected]).map Prod.fst ∧
      ∃ v, ((Returned.bool <$> awaitText expected failure operation) segs).map Prod.fst =
        .ok v) ↔
      ∀ x, 0 < x → x < (encodeUtf8 expected).length → ¬ IsCut segs x := by
  have hbind : ∀ segs, (Returned.bool <$> awaitText expected failure operation) segs =
      (awaitText expected failure operation segs >>= fun r => .ok (.bool r.1, r.2)) :=
    fun _ => rfl
  constructor
  · rintro ⟨-, v, hv⟩ x hx hlt hcut
    obtain ⟨e, he⟩ : ∃ e, awaitText expected failure operation segs = .error e :=
      awaitText_part hstream hx hlt hcut
    rw [hbind, he] at hv
    exact absurd hv (by simp [Except.map])
  · intro hcut
    have hsingle : NoneEmpty [encodeUtf8 expected] := by
      intro seg hseg
      rw [List.mem_singleton] at hseg
      rwa [hseg]
    have huncut : ∀ x, 0 < x → x < (encodeUtf8 expected).length →
        ¬ IsCut [encodeUtf8 expected] x := by
      intro x hx hlt h
      rcases isCut_singleton.mp h with h | h <;> omega
    have hone : awaitText expected failure operation [encodeUtf8 expected] =
        .ok (true, (receive 1024 [encodeUtf8 expected]).2) :=
      awaitText_whole hsingle (List.flatten_singleton) hlen huncut
    rw [hbind, hbind, awaitText_whole hne hstream hlen hcut, hone]
    exact ⟨rfl, _, rfl⟩

end Acknowledgements

/-! ## Answers to a search -/

theorem decodeUtf8_isSome_iff (bs : Bytes) : (decodeUtf8 bs).isSome ↔ Utf8 bs := by
  constructor
  · intro h
    obtain ⟨s, hs⟩ := Option.isSome_iff_exists.mp h
    exact ⟨s, encodeUtf8_of_decodeUtf8 hs⟩
  · rintro ⟨s, rfl⟩
    rw [decodeUtf8_encodeUtf8, Option.isSome_some]

theorem decode_isSome_iff (r : Record) : r.decode.isSome ↔ r.Utf8 := by
  have hdecode : r.decode.isSome ↔ (decodeUtf8 r.id).isSome ∧ (decodeUtf8 r.document).isSome ∧
      (decodeUtf8 r.metadata).isSome := by
    unfold Record.decode
    cases decodeUtf8 r.id <;> cases decodeUtf8 r.document <;> cases decodeUtf8 r.metadata <;> simp
  rw [hdecode, decodeUtf8_isSome_iff, decodeUtf8_isSome_iff, decodeUtf8_isSome_iff, Record.Utf8]

theorem decodeRecords_isSome_iff (rs : List Record) :
    (decodeRecords rs).isSome ↔ ∀ r ∈ rs, r.Utf8 := by
  induction rs with
  | nil => simp [decodeRecords]
  | cons r rs ih =>
      rw [List.forall_mem_cons, ← ih, ← decode_isSome_iff, decodeRecords]
      cases r.decode <;> cases decodeRecords rs <;> simp

theorem decodeAnswers_isSome_iff (answers : List QueryAnswer) :
    (decodeAnswers answers).isSome ↔
      ∀ a ∈ answers, ∀ r ∈ QueryAnswer.records a, r.Utf8 := by
  induction answers with
  | nil => simp [decodeAnswers]
  | cons a answers ih =>
      rw [List.forall_mem_cons, ← ih, ← decodeRecords_isSome_iff, decodeAnswers]
      cases decodeRecords a.records <;> cases decodeAnswers answers <;> simp

theorem searched_answered_iff {answers : List QueryAnswer}
    (hfits : ∀ a ∈ answers, QueryAnswer.Fits a) {segs : List Bytes} (hne : NoneEmpty segs)
    (hstream : segs.flatten = answers.flatMap QueryAnswer.encode) :
    (Response.searched answers).Answered segs ↔ (Response.searched answers).Undivided segs := by
  have hframed := framed_deserializeQueryResults hfits
  have hbind : ∀ segs, (Response.searched answers).read segs =
      (deserializeQueryResults answers.length segs >>= fun r => .ok (.results r.1, r.2)) := by
    intro segs
    show (Returned.results <$> deserializeQueryResults _) segs = _
    rw [List.length_replicate]
    rfl
  show _ ↔ (∀ a ∈ answers, ∀ r ∈ QueryAnswer.records a, r.Utf8) ∧
    ∀ x, answersInsideHeader answers x → ¬ IsCut segs x
  rw [← decodeAnswers_isSome_iff]
  constructor
  · rintro ⟨-, v, hv⟩
    by_contra hbad
    rw [not_and_or, Option.not_isSome_iff_eq_none] at hbad
    have hbreak : decodeAnswers answers = none ∨
        ∃ x, answersInsideHeader answers x ∧ IsCut segs x := by
      rcases hbad with h | h
      · exact Or.inl h
      · push Not at h
        exact Or.inr h
    obtain ⟨e, he⟩ := hframed.breaks segs [] hne (by rw [hstream, List.append_nil]) hbreak
    rw [Response.answer, hbind, he] at hv
    exact absurd hv (by simp [Except.map])
  · rintro ⟨hsome, hcut⟩
    obtain ⟨v, hv⟩ := Option.isSome_iff_exists.mp hsome
    have hread := hframed.reads segs [] v hne (by rw [hstream, List.append_nil]) hv hcut
    have hone : ∃ rest, deserializeQueryResults answers.length
        [answers.flatMap QueryAnswer.encode] = .ok (v, rest) := by
      cases answers with
      | nil =>
          rw [decodeAnswers, Option.some.injEq] at hv
          exact ⟨[[]], by rw [← hv]; rfl⟩
      | cons a answers =>
          rw [hv] at hframed
          refine ⟨[], hframed.reads_single ?_⟩
          rw [List.flatMap_cons, QueryAnswer.encode]
          simp [intBytes, toLE]
    obtain ⟨rest, hrest⟩ := hone
    rw [Response.Answered, Response.answer, Response.answer, hbind, hbind, hread,
      Response.bytes, hrest]
    exact ⟨rfl, _, rfl⟩

/-- **What the client's answer depends on.**  A method returns what it returns for the
undivided response exactly when an acknowledgement is not cut, and the answer to a
search has texts in UTF-8 and no cut inside of a hit count or of a length word. -/
theorem answered_iff (r : Response) (hfits : r.Fits) {segs : List Bytes} (hne : NoneEmpty segs)
    (hstream : segs.flatten = r.bytes) : r.Answered segs ↔ r.Undivided segs := by
  cases r with
  | initialized => exact awaitText_answered_iff hne hstream (by decide) (by decide)
  | trained => exact awaitText_answered_iff hne hstream (by decide) (by decide)
  | added => exact awaitText_answered_iff hne hstream (by decide) (by decide)
  | loaded => exact awaitText_answered_iff hne hstream (by decide) (by decide)
  | evicted => exact awaitText_answered_iff hne hstream (by decide) (by decide)
  | searched answers => exact searched_answered_iff hfits hne hstream

/-- A vector cut in two is put together again. -/
theorem answered_iff_cutVector :
    (Response.searched [some [⟨[], [7], [], []⟩]]).Answered
        [[1, 0, 0, 0] ++ toLE 8 0 ++ toLE 8 1 ++ [7, 0], [0, 0] ++ toLE 8 0 ++ toLE 8 0] ↔
      (Response.searched [some [⟨[], [7], [], []⟩]]).Undivided
        [[1, 0, 0, 0] ++ toLE 8 0 ++ toLE 8 1 ++ [7, 0], [0, 0] ++ toLE 8 0 ++ toLE 8 0] := by
  refine answered_iff _ ?_ ?_ (by decide)
  · intro a ha
    rw [List.mem_singleton] at ha
    rw [ha]
    exact ⟨by decide, by decide⟩
  · show ∀ seg ∈ _, seg ≠ []
    decide

/-- An acknowledgement in two segments is taken for a failure. -/
theorem answered_cutAcknowledgement_fails :
    ¬ Response.initialized.Answered [ascii "Initialized", ascii " cache"] := by
  rintro ⟨-, v, hv⟩
  have hcut : IsCut [ascii "Initialized", ascii " cache"] 11 :=
    ⟨[ascii "Initialized"], [ascii " cache"], rfl, by decide⟩
  have hpart : ∃ e, Client.initializeAnswer [ascii "Initialized", ascii " cache"] = .error e :=
    awaitText_part (by decide) (by decide) (by decide) hcut
  obtain ⟨e, he⟩ := hpart
  have hread : Response.initialized.read [ascii "Initialized", ascii " cache"] =
      (Client.initializeAnswer [ascii "Initialized", ascii " cache"] >>=
        fun r => .ok (.bool r.1, r.2)) := rfl
  rw [Response.answer, hread, he] at hv
  exact absurd hv (by simp [Except.map])

end Periplus.Ports
