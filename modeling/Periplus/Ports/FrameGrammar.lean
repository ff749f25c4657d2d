import Periplus.Ports.PayloadConsumption
import Periplus.Ports.Pipelining

/-!
# The frames that are executed

`Grammatical` is the format of a frame: the command line and "\r\n", the fields and "\n",
a payload of the declared size, "\r\n".  The session reads another language.  A line may
end with "\n" alone, a delimiter is compared and a message is printed about another byte,
and the payload is as long as the decoder computes.  What it reads it executes.

`ReadFrame` is one element of that language, with the bytes that were read for each part.
No element is the beginning of another (`ReadFrame.bytes_inj`), and a frame in the format
with whole floats is one (`exists_readFrame`).  So a stream of such frames can be cut into
elements in no other way.

A run of the server is a sequence of elements for every session: `StreamInv` carries the
bytes that a session has consumed for the command it is reading.

## Main results

* `onlyFrames_prefix` — the elements at the front of a stream of frames.
* `onReceived_consumes` — the bytes behind the event of a completion handler.
* `executing_readFrame` — an element that arrives is executed, whatever its delimiters.
* `executed_frames` — every run of the server, and every session.
-/

namespace Periplus.Ports

open Periplus.Verified.Memory
open Periplus.Verified.Reader
open Periplus.Verified.Run

/-! ## The format -/

/-- A payload of the declared size; for ADD the ids behind their lengths, "\n", and
floats. -/
def PayloadGrammar (command : Command) (fields payload : Bytes) : Prop :=
  payload.length = declaredSize fields ∧
    (command = .ADD → ∃ (ids : List Bytes) (floats : List F32),
      ids.length = declaredDocs fields ∧ (∀ id ∈ ids, id.length < 2 ^ 64) ∧
        payload = ids.flatMap idBytes ++ 0x0A :: floatBytes floats)

/-- A frame. -/
def Grammatical (bytes : Bytes) : Prop :=
  ∃ (command : Command) (fields payload : Bytes),
    fields.length + 1 = command.staticLength ∧ PayloadGrammar command fields payload ∧
      bytes = command.line ++ (fields ++ 0x0A :: (payload ++ [0x0D, 0x0A]))

/-- A frame with whole floats in it. -/
def WholeFrame (bytes : Bytes) : Prop :=
  ∃ (command : Command) (fields payload : Bytes),
    fields.length + 1 = command.staticLength ∧ PayloadGrammar command fields payload ∧
      (command ≠ .INITIALIZE → command ≠ .ADD → 4 ∣ declaredSize fields) ∧
      bytes = command.line ++ (fields ++ 0x0A :: (payload ++ [0x0D, 0x0A]))

theorem WholeFrame.grammatical {bytes : Bytes} (h : WholeFrame bytes) : Grammatical bytes := by
  obtain ⟨command, fields, payload, hfields, hpayload, _, hbytes⟩ := h
  exact ⟨command, fields, payload, hfields, hpayload, hbytes⟩

/-- The first line of these bytes, if there is one, is not the name of a command. -/
def NoCommand (bytes : Bytes) : Prop :=
  ∀ (command : Command) (rest : Bytes), bytes ≠ command.name ++ 0x0A :: rest ∧
    bytes ≠ command.name ++ 0x0D :: 0x0A :: rest

/-- Frames one behind the other, and then something that is no command, up to any byte. -/
def OnlyFrames (stream : Bytes) : Prop :=
  ∃ (frames : List Bytes) (tail : Bytes), (∀ bytes ∈ frames, WholeFrame bytes) ∧
    NoCommand tail ∧ stream <+: frames.flatten ++ tail

/-! ## What is read -/

/-- What a session reads as one command. -/
structure ReadFrame where
  command : Command
  /-- What `std::getline` returns. -/
  line : Bytes
  fields : Bytes
  /-- What is taken for the delimiter of the static part. -/
  b : UInt8
  before : Args
  payload : Bytes
  /-- What is taken for the end delimiter. -/
  b₁ : UInt8
  b₂ : UInt8
  args : Args
  /-- What is printed about the payload. -/
  inner : List Complaint
  lineEnds : 0x0A ∉ line
  accepted : popCarriageReturn line = command.name
  static : StaticRead command fields b before
  dynamic : PayloadRead before payload args inner

def ReadFrame.bytes (f : ReadFrame) : Bytes :=
  f.line ++ 0x0A :: (f.fields ++ f.b :: (f.payload ++ [f.b₁, f.b₂]))

/-- The first line feed ends the line. -/
theorem line_inj {line line' rest rest' : Bytes} (h : 0x0A ∉ line) (h' : 0x0A ∉ line')
    (heq : line ++ 0x0A :: rest = line' ++ 0x0A :: rest') : line = line' ∧ rest = rest' := by
  induction line generalizing line' with
  | nil =>
      cases line' with
      | nil => exact ⟨rfl, (List.cons.inj heq).2⟩
      | cons a line' => exact absurd (List.cons.inj heq).1 (fun ha => h' (ha ▸ List.mem_cons_self))
  | cons a line ih =>
      cases line' with
      | nil => exact absurd (List.cons.inj heq).1 (fun ha => h (ha ▸ List.mem_cons_self))
      | cons a' line' =>
          obtain ⟨rfl, hrest⟩ := List.cons.inj heq
          obtain ⟨rfl, hrest'⟩ := ih (fun ha => h (List.mem_cons_of_mem _ ha))
            (fun ha => h' (List.mem_cons_of_mem _ ha)) hrest
          exact ⟨rfl, hrest'⟩

theorem name_cr_no_lf (command : Command) : 0x0A ∉ command.name ++ [0x0D] := by
  cases command <;> decide

theorem popCarriageReturn_concat (name : Bytes) : popCarriageReturn (name ++ [0x0D]) = name := by
  rw [popCarriageReturn, if_pos List.getLast?_concat, List.dropLast_concat]

/-- Behind a line of its own, the bytes of an element. -/
theorem ReadFrame.bytes_append (f : ReadFrame) (rest : Bytes) :
    f.bytes ++ rest =
      f.line ++ 0x0A :: (f.fields ++ f.b :: ((f.payload ++ [f.b₁, f.b₂]) ++ rest)) := by
  simp [ReadFrame.bytes]

/-- **What is read is determined by the bytes**, whatever follows. -/
theorem ReadFrame.bytes_inj {f g : ReadFrame} {rest rest' : Bytes}
    (h : f.bytes ++ rest = g.bytes ++ rest') : f.bytes = g.bytes ∧ rest = rest' := by
  have hstream := h
  rw [f.bytes_append, g.bytes_append] at hstream
  obtain ⟨hline, hstream⟩ := line_inj f.lineEnds g.lineEnds hstream
  have hcommand : f.command = g.command := by
    apply Command.name_injective
    rw [← f.accepted, hline, g.accepted]
  have hlength : f.fields.length = g.fields.length := by
    have hf := f.static.length
    have hg := g.static.length
    rw [hcommand] at hf
    omega
  obtain ⟨hfields, hstream⟩ := List.append_inj hstream hlength
  obtain ⟨hb, hstream⟩ := List.cons.inj hstream
  have hbefore : f.before = g.before := by
    have hread := f.static.reads [] []
    rw [hcommand, hfields, hb, g.static.reads, Except.ok.injEq, Prod.mk.injEq] at hread
    exact hread.1.symm
  have hread := (accepts_dynamic f.before).reads
    ⟨f.payload, f.b₁, f.b₂, f.inner, f.dynamic, rfl, rfl⟩ rest []
  rw [hbefore, hstream, (accepts_dynamic g.before).reads
    ⟨g.payload, g.b₁, g.b₂, g.inner, g.dynamic, rfl, rfl⟩ rest' [], Except.ok.injEq,
    Prod.mk.injEq, Input.mk.injEq] at hread
  have hrest : rest = rest' := hread.2.1.symm
  rw [hrest] at h
  exact ⟨List.append_cancel_right h, hrest⟩

theorem exists_payloadRead {command : Command} {fields payload : Bytes} {before : Args}
    (hstatic : StaticFields command fields before)
    (hpayload : PayloadGrammar command fields payload)
    (hfloats : command ≠ .INITIALIZE → command ≠ .ADD → 4 ∣ declaredSize fields) :
    ∃ args inner, PayloadRead before payload args inner := by
  obtain ⟨hlength, hdocs⟩ := hpayload
  have hkind := hstatic.kind
  have hother : ∀ {other : Command}, before.getCommand ≠ other → command ≠ other :=
    fun hne => hkind ▸ hne
  rw [← hstatic.size] at hlength hfloats
  have hdata : ∀ f, before.withFloats = some f → command ≠ .INITIALIZE → command ≠ .ADD →
      ∃ args inner, PayloadRead before payload args inner := by
    intro f hf hinit hadd
    obtain ⟨n, hn⟩ := hfloats hinit hadd
    obtain ⟨data, hn', rfl⟩ := exists_floatBytes (hlength.trans hn)
    exact ⟨_, _, .floats before f data hf (by omega)⟩
  cases before with
  | initializeArgs a => exact ⟨_, _, .url a payload hlength⟩
  | trainArgs a => exact hdata _ rfl (hother nofun) (hother nofun)
  | loadArgs a => exact hdata _ rfl (hother nofun) (hother nofun)
  | searchArgs a => exact hdata _ rfl (hother nofun) (hother nofun)
  | evictArgs a => exact hdata _ rfl (hother nofun) (hother nofun)
  | addArgs a =>
      obtain ⟨ids, floats, hcount, hids, rfl⟩ := hdocs hkind.symm
      rw [List.length_append, List.length_cons, idsBytes_length, floatBytes_length] at hlength
      have hsize : a.size < 2 ^ 64 := hstatic.size_lt
      have hle : idsSize ids + 1 ≤ a.size := by
        rw [show a.size = (Args.addArgs a).size from rfl, ← hlength]
        omega
      have htakes := AddArgs.takes_of_le hsize hle
      rw [AddArgs.takes] at htakes
      have hfloatCount : floats.length = AddArgs.floatCount a.size ids := by
        rw [show (Args.addArgs a).size = a.size from rfl] at hlength
        omega
      exact ⟨_, _, .docs a ids 0x0A floats (hcount.trans (hstatic.docs a rfl).1.symm) hids
        hfloatCount⟩

/-- **A frame in the format is read**, if its floats are whole. -/
theorem exists_readFrame {bytes : Bytes} (h : WholeFrame bytes) :
    ∃ f : ReadFrame, f.bytes = bytes := by
  obtain ⟨command, fields, payload, hfields, hpayload, hfloats, rfl⟩ := h
  obtain ⟨before, hstatic⟩ := exists_staticRead hfields 0x0A
  obtain ⟨args, inner, hdynamic⟩ := exists_payloadRead hstatic.toStaticFields hpayload hfloats
  let f : ReadFrame :=
    { command := command, line := command.name ++ [0x0D], fields := fields, b := 0x0A
      before := before, payload := payload, b₁ := 0x0D, b₂ := 0x0A, args := args, inner := inner
      lineEnds := name_cr_no_lf command, accepted := popCarriageReturn_concat command.name
      static := hstatic, dynamic := hdynamic }
  refine ⟨f, ?_⟩
  show (command.name ++ [0x0D]) ++ 0x0A :: (fields ++ 0x0A :: (payload ++ [0x0D, 0x0A])) = _
  rw [Command.line, List.append_assoc, List.append_assoc]
  rfl

/-- No element begins where there is no command. -/
theorem NoCommand.not_prefix {tail : Bytes} (h : NoCommand tail) (f : ReadFrame) :
    ¬ f.bytes <+: tail := by
  rintro ⟨rest, rfl⟩
  obtain ⟨hlf, hcrlf⟩ := h f.command
    (f.fields ++ f.b :: ((f.payload ++ [f.b₁, f.b₂]) ++ rest))
  have haccepted := f.accepted
  rw [popCarriageReturn] at haccepted
  split at haccepted
  · next hcr =>
      apply hcrlf
      rw [f.bytes_append, ← haccepted]
      conv_lhs => rw [← List.dropLast_append_getLast? _ hcr]
      rw [List.append_assoc]
      rfl
  · apply hlf
    rw [f.bytes_append, haccepted]

/-- **The elements at the front of a stream of frames** are these frames. -/
theorem onlyFrames_prefix {frames : List ReadFrame} {stream : Bytes} (h : OnlyFrames stream)
    (hbegins : (frames.map ReadFrame.bytes).flatten <+: stream) :
    ∀ f ∈ frames, Grammatical f.bytes := by
  obtain ⟨whole, tail, hwhole, htail, hstream⟩ := h
  have hfront := hbegins.trans hstream
  clear hbegins hstream
  induction frames generalizing whole with
  | nil => exact fun f hf => absurd hf List.not_mem_nil
  | cons f frames ih =>
      rw [List.map_cons, List.flatten_cons] at hfront
      cases whole with
      | nil =>
          rw [List.flatten_nil, List.nil_append] at hfront
          exact absurd ((List.prefix_append _ _).trans hfront) (htail.not_prefix f)
      | cons bytes whole =>
          obtain ⟨rest, hrest⟩ := hfront
          obtain ⟨g, rfl⟩ := exists_readFrame (hwhole bytes List.mem_cons_self)
          rw [List.flatten_cons, List.append_assoc, List.append_assoc] at hrest
          obtain ⟨hsame, hbehind⟩ := ReadFrame.bytes_inj hrest
          intro f' hf'
          rcases List.mem_cons.mp hf' with rfl | hf'
          · rw [hsame]
            exact (hwhole g.bytes List.mem_cons_self).grammatical
          · exact ih whole (fun b hb => hwhole b (List.mem_cons_of_mem _ hb))
              ⟨rest, hbehind⟩ f' hf'

/-! ## The bytes behind the events of a handler -/

theorem mem_of_hasDelimiter {b : Bytes} (h : hasDelimiter b = true) : 0x0A ∈ b := by
  by_contra hno
  rw [hasDelimiter_of_no_lf (fun a ha heq => hno (heq ▸ ha))] at h
  exact absurd h (by decide)

/-- `async_read_until` moves bytes from the socket to the buffer. -/
theorem readUntil_spec {b b' : Bytes} {I I' : List Bytes} (h : readUntil b I = some (b', I')) :
    b' ++ I'.flatten = b ++ I.flatten ∧ 0x0A ∈ b' := by
  induction I generalizing b with
  | nil =>
      rw [readUntil] at h
      by_cases hdelimiter : hasDelimiter b = true
      · rw [if_pos hdelimiter, Option.some.injEq, Prod.mk.injEq] at h
        rw [← h.1, ← h.2]
        exact ⟨rfl, mem_of_hasDelimiter hdelimiter⟩
      · rw [if_neg hdelimiter] at h
        exact absurd h (by simp)
  | cons seg I ih =>
      rw [readUntil] at h
      by_cases hdelimiter : hasDelimiter b = true
      · rw [if_pos hdelimiter, Option.some.injEq, Prod.mk.injEq] at h
        rw [← h.1, ← h.2]
        exact ⟨rfl, mem_of_hasDelimiter hdelimiter⟩
      · rw [if_neg hdelimiter] at h
        obtain ⟨hstream, hmem⟩ := ih h
        rw [hstream, List.flatten_cons, List.append_assoc]
        exact ⟨rfl, hmem⟩

/-- What a session has not consumed. -/
def Session.unread (s : Session) : Bytes := s.inputStream.rest ++ s.socket.flatten

/-- A completed read consumes nothing. -/
theorem receive_unread {s s' : Session} (h : s.receive = some s') :
    s'.unread = s.unread ∧ (s.pending = .command → 0x0A ∈ s'.inputStream.rest) := by
  obtain ⟨⟨b, I⟩, htaken, rfl⟩ := Option.map_eq_some_iff.mp h
  show b ++ I.flatten = _ ∧ (s.pending = .command → 0x0A ∈ b)
  cases hpending : s.pending with
  | command =>
      rw [hpending] at htaken
      obtain ⟨hstream, hmem⟩ := readUntil_spec htaken
      exact ⟨hstream, fun _ => hmem⟩
  | staticArgs n =>
      rw [hpending] at htaken
      exact ⟨(transferExactly_spec htaken).1, fun h => absurd h (by simp)⟩
  | dynamicArgs n =>
      rw [hpending] at htaken
      exact ⟨(transferExactly_spec htaken).1, fun h => absurd h (by simp)⟩

/-- `std::getline` on a buffer with a line feed. -/
theorem getCommand_spec {is is' : IStream} {command : Bytes}
    (h : getCommand is = .ok (command, is')) (hmem : 0x0A ∈ is.rest) :
    ∃ line, 0x0A ∉ line ∧ popCarriageReturn line = command ∧
      is.rest = line ++ 0x0A :: is'.rest := by
  obtain ⟨line, hline, rfl⟩ := read_map.mp h
  rw [getline, Except.ok.injEq, Prod.mk.injEq] at hline
  obtain ⟨rfl, rfl⟩ := hline
  refine ⟨_, ?_, rfl, ?_⟩
  · intro hin
    exact absurd (List.mem_takeWhile_imp hin) (by simp)
  · have hsplit := List.takeWhile_append_dropWhile (p := fun a : UInt8 => decide (a ≠ 0x0A))
      (l := is.rest)
    have hne : is.rest.dropWhile (fun a => decide (a ≠ 0x0A)) ≠ [] := by
      intro hnil
      rw [List.dropWhile_eq_nil_iff] at hnil
      exact absurd (hnil _ hmem) (by simp)
    have hhead := List.head_dropWhile_not (fun a : UInt8 => decide (a ≠ 0x0A)) hne
    cases hdrop : is.rest.dropWhile (fun a => decide (a ≠ 0x0A)) with
    | nil => exact absurd hdrop hne
    | cons a rest =>
        simp only [hdrop, List.head_cons] at hhead
        have ha : a = 0x0A := by simpa using hhead
        rw [hdrop, ha] at hsplit
        show is.rest = _ ++ 0x0A :: List.drop 1 (0x0A :: rest)
        exact hsplit.symm

/-- A line in front of a line feed. -/
theorem getCommand_append {line : Bytes} (h : 0x0A ∉ line) (rest : Bytes)
    (log : List Complaint) :
    getCommand ⟨line ++ 0x0A :: rest, log⟩ = .ok (popCarriageReturn line, ⟨rest, log⟩) := by
  have hline : ∀ b ∈ line, decide (b ≠ 0x0A) = true := by
    intro b hb
    rw [decide_eq_true_eq]
    exact fun heq => h (heq ▸ hb)
  apply read_map.mpr
  refine ⟨line, ?_, rfl⟩
  rw [getline]
  simp only [List.takeWhile_append_of_pos hline, List.dropWhile_append_of_pos hline]
  simp

/-- The bytes that a session has consumed for the command it is reading. -/
inductive Midway : Session → Bytes → Prop
  | command {s : Session} : s.pending = .command → Midway s []
  | staticArgs {s : Session} {n : Nat} {command : Command} {line : Bytes} :
      s.pending = .staticArgs n → s.args = some command.newArgs → 0x0A ∉ line →
      popCarriageReturn line = command.name → Midway s (line ++ [0x0A])
  | dynamicArgs {s : Session} {n : Nat} {command : Command} {line fields : Bytes} {b : UInt8}
      {before : Args} :
      s.pending = .dynamicArgs n → s.args = some before → 0x0A ∉ line →
      popCarriageReturn line = command.name → StaticRead command fields b before →
      Midway s (line ++ 0x0A :: (fields ++ [b]))

theorem Midway.congr {s s' : Session} {consumed : Bytes} (h : Midway s consumed)
    (hpending : s'.pending = s.pending) (hargs : s'.args = s.args) : Midway s' consumed := by
  cases h with
  | command hp => exact .command (hpending.trans hp)
  | staticArgs hp ha hline haccepted =>
      exact .staticArgs (hpending.trans hp) (hargs.trans ha) hline haccepted
  | dynamicArgs hp ha hline haccepted hstatic =>
      exact .dynamicArgs (hpending.trans hp) (hargs.trans ha) hline haccepted hstatic

variable {δ : Type} [LinearOrder δ]

/-- A handler of a session that has consumed some bytes before: it goes on reading, or it
executes a frame that begins with these bytes. -/
def Consumes (before : Bytes) (s : Session) (h : Handled δ) : Prop :=
  (carriedOut h.1 = [] ∧ ∀ s' c', h.2 = .ok (s', c') →
    ∃ consumed, Midway s' consumed ∧ before ++ s.unread = consumed ++ s'.unread) ∨
  ∃ (f : ReadFrame) (rest : Bytes), carriedOut h.1 = [f.args] ∧
    before ++ s.unread = f.bytes ++ rest ∧
      ∀ s' c', h.2 = .ok (s', c') → s'.pending = .command ∧ s'.unread = rest

theorem consumes_error (before : Bytes) (s : Session) (f : Fault) :
    Consumes before s (([], .error f) : Handled δ) :=
  Or.inl ⟨rfl, fun _ _ h => absurd h (by simp)⟩

theorem onDynamicArgs_consumes (env : Environment δ) (s : Session) (c : Cache δ)
    {command : Command} {line fields : Bytes} {b : UInt8} {args : Args} (hline : 0x0A ∉ line)
    (haccepted : popCarriageReturn line = command.name)
    (hstatic : StaticRead command fields b args) :
    Consumes (line ++ 0x0A :: (fields ++ [b])) s (onDynamicArgs env s args c) := by
  unfold onDynamicArgs
  cases hread : args.deserializeDynamic s.inputStream with
  | error f => exact consumes_error _ s f
  | ok r =>
      obtain ⟨_, _, ⟨payload, b₁, b₂, inner, hpayload, rfl, rfl⟩, hrest, _⟩ :=
        (accepts_dynamic args _ _ _).mp hread
      let f : ReadFrame :=
        { command := command, line := line, fields := fields, b := b, before := args
          payload := payload, b₁ := b₁, b₂ := b₂, args := r.1, inner := inner
          lineEnds := hline, accepted := haccepted, static := hstatic, dynamic := hpayload }
      refine Or.inr ⟨f, r.2.rest ++ s.socket.flatten, rfl, ?_, ?_⟩
      · rw [Session.unread, hrest]
        simp [f, ReadFrame.bytes]
      · intro s' c' h
        simp only [executeArgs] at h
        split at h
        · exact absurd h (by simp)
        · rw [Except.ok.injEq, Prod.mk.injEq] at h
          rw [← h.1]
          exact ⟨rfl, rfl⟩

theorem readDynamicArgs_consumes (env : Environment δ) {s : Session} (c : Cache δ)
    {command : Command} {line fields : Bytes} {b : UInt8} {args : Args}
    (hargs : s.args = some args) (hline : 0x0A ∉ line)
    (haccepted : popCarriageReturn line = command.name)
    (hstatic : StaticRead command fields b args) :
    Consumes (line ++ 0x0A :: (fields ++ [b])) s (readDynamicArgs env s args c) := by
  unfold readDynamicArgs
  by_cases hle : dynamicSize args ≤ s.buffered
  · rw [if_pos hle]
    exact onDynamicArgs_consumes env s c hline haccepted hstatic
  · rw [if_neg hle]
    refine Or.inl ⟨rfl, fun s' c' h => ?_⟩
    rw [Except.ok.injEq, Prod.mk.injEq] at h
    rw [← h.1]
    exact ⟨_, .dynamicArgs rfl hargs hline haccepted hstatic, rfl⟩

theorem onStaticArgs_consumes (env : Environment δ) (s : Session) (c : Cache δ)
    {command : Command} {line : Bytes} (hline : 0x0A ∉ line)
    (haccepted : popCarriageReturn line = command.name) :
    Consumes (line ++ [0x0A]) s (onStaticArgs env s command.newArgs c) := by
  unfold onStaticArgs
  cases hread : command.newArgs.deserializeStatic s.inputStream with
  | error f => exact consumes_error _ s f
  | ok r =>
      obtain ⟨fields, b, hstatic, hrest⟩ := static_read hread
      have hconsumes := readDynamicArgs_consumes env c
        (show ({ s with args := some r.1, inputStream := r.2 } : Session).args = some r.1 from rfl)
        hline haccepted hstatic
      have hbytes : line ++ [0x0A] ++ s.unread = (line ++ 0x0A :: (fields ++ [b])) ++
          ({ s with args := some r.1, inputStream := r.2 } : Session).unread := by
        rw [Session.unread, Session.unread, hrest]
        simp
      unfold Consumes at hconsumes ⊢
      rwa [hbytes]

theorem readArgs_consumes (env : Environment δ) (s : Session) (c : Cache δ)
    {command : Command} {line : Bytes} (hline : 0x0A ∉ line)
    (haccepted : popCarriageReturn line = command.name) :
    Consumes (line ++ [0x0A]) s (readArgs env s command.newArgs c) := by
  unfold readArgs
  by_cases hle : command.newArgs.getStaticSize ≤ s.buffered
  · rw [if_pos hle]
    exact onStaticArgs_consumes env { s with args := some command.newArgs } c hline haccepted
  · rw [if_neg hle]
    refine Or.inl ⟨rfl, fun s' c' h => ?_⟩
    rw [Except.ok.injEq, Prod.mk.injEq] at h
    rw [← h.1]
    exact ⟨_, .staticArgs rfl rfl hline haccepted, rfl⟩

theorem onCommand_consumes (env : Environment δ) {s : Session} (c : Cache δ)
    (hmem : 0x0A ∈ s.inputStream.rest) : Consumes [] s (onCommand env s c) := by
  unfold onCommand
  cases hread : getCommand s.inputStream with
  | error f => exact consumes_error _ s f
  | ok r =>
      obtain ⟨line, hline, hcommand, hrest⟩ := getCommand_spec hread hmem
      cases hpass : c.processCommand r.1 with
      | error f =>
          simp only [hpass]
          exact consumes_error _ s f
      | ok args =>
          simp only [hpass]
          obtain ⟨command, rfl, hname, _⟩ := Cache.processCommand_spec hpass
          have hconsumes := readArgs_consumes env { s with inputStream := r.2 } c hline
            (hcommand.trans hname)
          have hbytes : [] ++ s.unread =
              (line ++ [0x0A]) ++ ({ s with inputStream := r.2 } : Session).unread := by
            rw [Session.unread, Session.unread, hrest]
            simp
          unfold Consumes at hconsumes ⊢
          rw [hbytes]
          exact hconsumes

/-- **The bytes behind the event of a completion handler.** -/
theorem onReceived_consumes (env : Environment δ) {s : Session} (c : Cache δ) {before : Bytes}
    (hmidway : Midway s before) (hmem : s.pending = .command → 0x0A ∈ s.inputStream.rest) :
    Consumes before s (onReceived env s c) := by
  cases hmidway with
  | command hpending =>
      rw [onReceived_command env c hpending]
      exact onCommand_consumes env c (hmem hpending)
  | staticArgs hpending hargs hline haccepted =>
      unfold onReceived
      simp only [hpending, hargs]
      obtain ⟨f, herror⟩ := onStaticReceived_error (δ := δ) s (Command.newArgs _)
      rw [herror]
      exact consumes_error _ s f
  | dynamicArgs hpending hargs hline haccepted hstatic =>
      unfold onReceived
      rw [hpending, hargs]
      exact onDynamicArgs_consumes env s c hline haccepted hstatic

/-! ## The frames of a run -/

/-- What a step brings for session `i`. -/
def Input.bytesFor (i : Nat) : Input → Bytes
  | .arrives j segment => if j = i then segment else []
  | .hands _ _ => []
  | .completes _ => []

/-- A step of another session brings nothing. -/
theorem Input.bytesFor_of_ne {i : Nat} {x : Input} (hx : i ≠ x.session) : x.bytesFor i = [] := by
  cases x with
  | arrives j segment => exact if_neg (fun heq => hx heq.symm)
  | hands j portions => rfl
  | completes j => rfl

/-- The bytes that have arrived at session `i`. -/
def sent (i : Nat) (inputs : List Input) : Bytes := inputs.flatMap (Input.bytesFor i)

namespace Server

/-- The events of session `i`. -/
def eventsOf (i : Nat) (w : Server δ) : List Event :=
  (w.trace.filter (fun e => e.1 == i)).map Prod.snd

/-- The commands of session `i` were read one behind the other from the beginning of what
has arrived, and what is left is the part of a command and the unread bytes. -/
structure StreamInv (i : Nat) (stream : Bytes) (frames : List ReadFrame) (w : Server δ) :
    Prop where
  executed : carriedOut (w.eventsOf i) = frames.map ReadFrame.args
  begins : (frames.map ReadFrame.bytes).flatten <+: stream
  midway : w.down = none → ∃ consumed, Midway (w.sessions i) consumed ∧
    stream = (frames.map ReadFrame.bytes).flatten ++ (consumed ++ (w.sessions i).unread)

theorem eventsOf_append {i j : Nat} {w w' : Server δ} {events : List Event}
    (h : w'.trace = w.trace ++ events.map (fun e => (j, e))) :
    w'.eventsOf i = w.eventsOf i ++ if j = i then events else [] := by
  unfold eventsOf
  rw [h, List.filter_append, List.map_append]
  by_cases hij : j = i
  · have hall : (events.map (fun e => (j, e))).filter (fun e => e.1 == i) =
        events.map (fun e => (j, e)) := List.filter_eq_self.mpr (by simp [hij])
    rw [if_pos hij, hall, List.map_map]
    exact congrArg _ (List.map_id'' (fun _ => rfl) events)
  · have hnone : (events.map (fun e => (j, e))).filter (fun e => e.1 == i) = [] :=
      List.filter_eq_nil_iff.mpr (by simp [hij])
    rw [if_neg hij, hnone, List.map_nil]

theorem carriedOut_append (events events' : List Event) :
    carriedOut (events ++ events') = carriedOut events ++ carriedOut events' :=
  List.filterMap_append

/-- A step in another session. -/
theorem StreamInv.other {env : Environment δ} {i : Nat} {stream : Bytes}
    {frames : List ReadFrame} {w : Server δ} (h : StreamInv i stream frames w) {x : Input}
    (hx : i ≠ x.session) : StreamInv i (stream ++ x.bytesFor i) frames (w.step env x) := by
  obtain ⟨events, htrace⟩ := step_trace env w x
  rw [Input.bytesFor_of_ne hx, List.append_nil]
  refine ⟨?_, h.begins, ?_⟩
  · rw [eventsOf_append htrace, if_neg (Ne.symm hx), List.append_nil, h.executed]
  · intro hup
    rw [step_sessions hx]
    exact h.midway (up_of_runFrom (show (w.runFrom env [x]).down = none from hup))

/-- Bytes arrive. -/
theorem StreamInv.arrives {env : Environment δ} {i : Nat} {stream : Bytes}
    {frames : List ReadFrame} {w : Server δ} (h : StreamInv i stream frames w)
    (hup : w.down = none) (segment : Bytes) :
    StreamInv i (stream ++ segment) frames (w.step env (.arrives i segment)) := by
  rw [step_arrives hup]
  refine ⟨h.executed, h.begins.trans (List.prefix_append _ _), fun _ => ?_⟩
  obtain ⟨consumed, hmidway, hstream⟩ := h.midway hup
  refine ⟨consumed, ?_, ?_⟩
  · show Midway (Function.update w.sessions i _ i) consumed
    rw [Function.update_self]
    exact hmidway.congr rfl rfl
  · show _ = _ ++ (consumed ++ (Function.update w.sessions i _ i).unread)
    rw [Function.update_self, hstream]
    simp [Session.unread]

/-- What has arrived is handed out in other portions. -/
theorem StreamInv.hands {env : Environment δ} {i : Nat} {stream : Bytes}
    {frames : List ReadFrame} {w : Server δ} (h : StreamInv i stream frames w)
    (hup : w.down = none) (portions : List Bytes) :
    StreamInv i stream frames (w.step env (.hands i portions)) := by
  rw [step_hands hup]
  obtain ⟨socket, hsocket, hportioned⟩ := (w.sessions i).portioned_eq portions
  refine ⟨h.executed, h.begins, fun _ => ?_⟩
  obtain ⟨consumed, hmidway, hstream⟩ := h.midway hup
  refine ⟨consumed, ?_, ?_⟩
  · show Midway (Function.update w.sessions i _ i) consumed
    rw [Function.update_self, hportioned]
    exact hmidway.congr rfl rfl
  · show _ = _ ++ (consumed ++ (Function.update w.sessions i _ i).unread)
    rw [Function.update_self, hportioned, hstream, Session.unread, Session.unread, hsocket]

/-- A read of the session completes. -/
theorem StreamInv.completes {env : Environment δ} {i : Nat} {stream : Bytes}
    {frames : List ReadFrame} {w : Server δ} (h : StreamInv i stream frames w)
    (hup : w.down = none) :
    ∃ more, StreamInv i stream (frames ++ more) (w.step env (.completes i)) := by
  rw [step_completes hup]
  obtain ⟨consumed, hmidway, hstream⟩ := h.midway hup
  cases hreceive : (w.sessions i).receive with
  | none =>
      rw [complete_of_none hreceive]
      exact ⟨[], by rwa [List.append_nil]⟩
  | some s =>
      rw [complete_of_some hreceive]
      obtain ⟨hunread, hmem⟩ := receive_unread hreceive
      obtain ⟨hpending, hargs⟩ := receive_frame hreceive
      have hconsumes := onReceived_consumes env w.cache (hmidway.congr hpending hargs)
        (fun hp => hmem (hpending ▸ hp))
      unfold Consumes at hconsumes
      rw [hunread] at hconsumes
      cases hhandled : onReceived env s w.cache with
      | mk events result =>
          rw [hhandled] at hconsumes
          have htrace : (w.finish i (events, result)).trace =
              w.trace ++ events.map (fun e => (i, e)) := by
            cases result <;> rfl
          have hevents := eventsOf_append (i := i) htrace
          rw [if_pos rfl] at hevents
          rcases hconsumes with ⟨hquiet, hgoes⟩ | ⟨f, rest, hargs, hbytes, hgoes⟩
          · refine ⟨[], ?_, ?_, ?_⟩
            · rw [hevents, carriedOut_append, hquiet, List.append_nil, List.append_nil, h.executed]
            · rw [List.append_nil]
              exact h.begins
            · intro hup'
              cases result with
              | error f => exact absurd hup' (by simp [finish])
              | ok r =>
                  obtain ⟨consumed', hmidway'', heq⟩ := hgoes r.1 r.2 rfl
                  refine ⟨consumed', ?_, ?_⟩
                  · show Midway (Function.update w.sessions i r.1 i) consumed'
                    rwa [Function.update_self]
                  · show _ = _ ++ (consumed' ++ (Function.update w.sessions i r.1 i).unread)
                    rw [Function.update_self, List.append_nil, ← heq, hstream]
          · refine ⟨[f], ?_, ?_, ?_⟩
            · rw [hevents, carriedOut_append, hargs, h.executed, List.map_append]
              rfl
            · rw [List.map_append, List.flatten_append, List.map_singleton, List.flatten_singleton,
                hstream, hbytes]
              exact ⟨rest, by rw [List.append_assoc]⟩
            · intro hup'
              cases result with
              | error f => exact absurd hup' (by simp [finish])
              | ok r =>
                  obtain ⟨hpending', hrest⟩ := hgoes r.1 r.2 rfl
                  refine ⟨[], ?_, ?_⟩
                  · show Midway (Function.update w.sessions i r.1 i) []
                    rw [Function.update_self]
                    exact .command hpending'
                  · show _ = _ ++ ([] ++ (Function.update w.sessions i r.1 i).unread)
                    rw [Function.update_self, hrest, List.map_append, List.flatten_append,
                      List.map_singleton, List.flatten_singleton, hstream, hbytes, List.nil_append,
                      List.append_assoc]

theorem StreamInv.step {i : Nat} {stream : Bytes} {frames : List ReadFrame} {w : Server δ}
    (h : StreamInv i stream frames w) (env : Environment δ) (x : Input) :
    ∃ more, StreamInv i (stream ++ x.bytesFor i) (frames ++ more) (w.step env x) := by
  by_cases hx : i = x.session
  swap
  · exact ⟨[], by rw [List.append_nil]; exact h.other hx⟩
  by_cases hup : w.down = none
  swap
  · rw [step_of_down hup]
    refine ⟨[], ?_⟩
    rw [List.append_nil]
    exact ⟨h.executed, h.begins.trans (List.prefix_append _ _), fun hup' => absurd hup' hup⟩
  cases x with
  | arrives j segment =>
      obtain rfl : i = j := hx
      have hbytes : Input.bytesFor i (.arrives i segment) = segment := if_pos rfl
      rw [hbytes]
      exact ⟨[], by rw [List.append_nil]; exact h.arrives hup segment⟩
  | hands j portions =>
      obtain rfl : i = j := hx
      have hbytes : Input.bytesFor i (.hands i portions) = [] := rfl
      rw [hbytes, List.append_nil]
      exact ⟨[], by rw [List.append_nil]; exact h.hands hup portions⟩
  | completes j =>
      obtain rfl : i = j := hx
      have hbytes : Input.bytesFor i (.completes i) = [] := rfl
      rw [hbytes, List.append_nil]
      exact h.completes hup

theorem streamInv_run (env : Environment δ) (inputs : List Input) (i : Nat) :
    ∃ frames, StreamInv i (sent i inputs) frames (run env inputs) := by
  induction inputs using List.reverseRecOn with
  | nil => exact ⟨[], rfl, List.prefix_refl _, fun _ => ⟨[], .command rfl, rfl⟩⟩
  | append_singleton inputs x ih =>
      obtain ⟨frames, hinv⟩ := ih
      obtain ⟨more, hinv'⟩ := hinv.step env x
      refine ⟨frames ++ more, ?_⟩
      have hsent : sent i (inputs ++ [x]) = sent i inputs ++ x.bytesFor i := by
        rw [sent, List.flatMap_append, List.flatMap_singleton]
        rfl
      rw [hsent, run_append, runFrom_cons, runFrom_nil]
      exact hinv'

/-- The commands of session `i` were read from these frames, one behind the other. -/
structure ReadFrom (env : Environment δ) (inputs : List Input) (i : Nat)
    (frames : List ReadFrame) : Prop where
  executed : carriedOut ((run env inputs).eventsOf i) = frames.map ReadFrame.args
  begins : (frames.map ReadFrame.bytes).flatten <+: sent i inputs

theorem carriedOut_eq_nil {events : List Event} (h : carriedOut events = []) :
    ∀ e ∈ events, e.isExecuted = false := by
  intro e he
  cases e with
  | accepted line => rfl
  | executed args status trained =>
      have hmem : args ∈ carriedOut events := List.mem_filterMap.mpr ⟨_, he, rfl⟩
      rw [h] at hmem
      exact absurd hmem List.not_mem_nil

/-- Without a command that is carried out the cache stays as it is. -/
theorem step_cache {env : Environment δ} {w : Server δ} {x : Input}
    (hquiet : ∀ j, x = .completes j → w.executing env j = []) :
    (w.step env x).cache = w.cache := by
  by_cases hup : w.down = none
  swap
  · rw [step_of_down hup]
  cases x with
  | arrives j segment => rw [step_arrives hup]
  | hands j portions => rw [step_hands hup]
  | completes j =>
      rw [step_completes hup]
      have hnone := hquiet j rfl
      unfold executing at hnone
      rw [if_neg (by rw [hup]; decide)] at hnone
      cases hreceive : (w.sessions j).receive with
      | none => rw [complete_of_none hreceive]
      | some s =>
          rw [hreceive] at hnone
          have hkeeps := @cache_of_unexecuted _ _ env s w.cache (carriedOut_eq_nil hnone)
          rw [complete_of_some hreceive]
          cases hhandled : onReceived env s w.cache with
          | mk events result =>
              rw [hhandled] at hkeeps
              cases result with
              | error f => rfl
              | ok r => exact hkeeps rfl

/-! ## What is read is executed -/

/-- Nothing has arrived that is not consumed, and the cache takes the command of `f`. -/
structure Ready (w : Server δ) (i : Nat) (f : ReadFrame) : Prop where
  up : w.down = none
  pending : (w.sessions i).pending = .command
  unread : (w.sessions i).unread = []
  takes : w.cache.processCommand f.command.name = .ok f.command.newArgs

/-- Portions without bytes do not complete the read of a command line. -/
theorem readUntil_arrived {I : List Bytes} (hI : I.flatten = []) {bytes : Bytes}
    (h : hasDelimiter bytes = true) : readUntil [] (I ++ [bytes]) = some (bytes, []) := by
  induction I with
  | nil =>
      show readUntil [] [bytes] = _
      rw [readUntil, if_neg (by decide), List.nil_append, readUntil, if_pos h]
  | cons portion I ih =>
      rw [List.flatten_cons, List.append_eq_nil_iff] at hI
      rw [List.cons_append, readUntil, if_neg (by decide), hI.1, List.append_nil]
      exact ih hI.2

/-- The handlers of an element that is in the buffer. -/
theorem onCommand_readFrame (env : Environment δ) (f : ReadFrame) {s : Session} {c : Cache δ}
    {more : Bytes} (hrest : s.inputStream.rest = f.bytes ++ more)
    (htakes : c.processCommand f.command.name = .ok f.command.newArgs)
    (hsize : f.before.size ≤ f.payload.length + more.length) :
    carriedOut (onCommand env s c).1 = [f.args] := by
  have hcommand : getCommand s.inputStream = .ok (f.command.name,
      ⟨f.fields ++ f.b :: ((f.payload ++ [f.b₁, f.b₂]) ++ more), s.inputStream.log⟩) := by
    rw [← f.accepted, ← getCommand_append f.lineEnds, ← f.bytes_append, ← hrest]
  unfold onCommand
  simp only [hcommand, htakes]
  show carriedOut (.accepted f.command.name :: (readArgs env _ f.command.newArgs c).1) = _
  have hstatic : f.command.newArgs.getStaticSize ≤
      (f.fields ++ f.b :: ((f.payload ++ [f.b₁, f.b₂]) ++ more)).length := by
    have hlength := f.static.length
    have hconstant := (getStaticSize_newArgs f.command).1
    rw [List.length_append, List.length_cons]
    omega
  have hdynamic : dynamicSize f.before ≤ ((f.payload ++ [f.b₁, f.b₂]) ++ more).length := by
    have hmod : dynamicSize f.before ≤ f.before.size + 2 := Nat.mod_le _ _
    rw [List.length_append, List.length_append, List.length_cons, List.length_singleton]
    omega
  rw [readArgs, if_pos (show _ ≤ Session.buffered _ from hstatic), onStaticArgs]
  simp only [f.static.reads]
  rw [readDynamicArgs, if_pos (show _ ≤ Session.buffered _ from hdynamic), onDynamicArgs]
  simp only [(accepts_dynamic f.before).reads
    ⟨f.payload, f.b₁, f.b₂, f.inner, f.dynamic, rfl, rfl⟩]
  rfl

/-- **An element that arrives is executed**, whatever its delimiters are. -/
theorem executing_readFrame (env : Environment δ) {w : Server δ} {i : Nat} {f : ReadFrame}
    (h : Ready w i f) {more : Bytes} (hline : hasDelimiter (f.bytes ++ more) = true)
    (hsize : f.before.size ≤ f.payload.length + more.length) :
    (w.step env (.arrives i (f.bytes ++ more))).executing env i = [f.args] := by
  obtain ⟨hbuffer, hsocket⟩ := List.append_eq_nil_iff.mp h.unread
  rw [step_arrives h.up, executing, if_neg (by simp [h.up])]
  simp only [Function.update_self]
  have hreceive : Session.receive { w.sessions i with
        socket := (w.sessions i).socket ++ [f.bytes ++ more] } =
      some { w.sessions i with
        inputStream := { (w.sessions i).inputStream with rest := f.bytes ++ more }
        socket := [] } := by
    unfold Session.receive
    simp only [h.pending, hbuffer, readUntil_arrived hsocket hline]
    rfl
  simp only [hreceive]
  unfold onReceived
  simp only [h.pending]
  exact onCommand_readFrame env f rfl h.takes hsize

/-- **The frames that are executed**, in every run of the server.  A session that is sent
frames with whole floats executes frames in the format only, and a step that executes
nothing leaves the cache as it was.  What else can be read is never abandoned. -/
theorem executed_frames (env : Environment δ) (inputs : List Input) (i : Nat) :
    (OnlyFrames (sent i inputs) → ∃ frames : List ReadFrame, ReadFrom env inputs i frames ∧
      ∀ f ∈ frames, Grammatical f.bytes) ∧
    (∀ x, (∀ j, x = .completes j → (run env inputs).executing env j = []) →
      (run env (inputs ++ [x])).cache = (run env inputs).cache) ∧
    ∀ (f : ReadFrame) (more : Bytes), Ready (run env inputs) i f →
      hasDelimiter (f.bytes ++ more) = true →
      f.before.size ≤ f.payload.length + more.length →
      (run env (inputs ++ [.arrives i (f.bytes ++ more)])).executing env i = [f.args] := by
  obtain ⟨frames, hinv⟩ := streamInv_run env inputs i
  refine ⟨fun honly => ?_, fun x hquiet => ?_, fun f more hready hline hsize => ?_⟩
  · exact ⟨frames, ⟨hinv.executed, hinv.begins⟩, onlyFrames_prefix honly hinv.begins⟩
  · rw [run_append, runFrom_cons, runFrom_nil]
    exact step_cache hquiet
  · rw [run_append, runFrom_cons, runFrom_nil]
    exact executing_readFrame env hready hline hsize

/-- An INITIALIZE. -/
def straightBytes : Bytes := bytesOf (.initializeCall 1 ['u'] { nRecords := some 1 })

/-- It is executed, from frames in the format. -/
theorem executed_frames_straight :
    (run Environment.offline [.arrives 0 straightBytes, .completes 0]).cache.status =
        .INITIALIZED ∧
      ∃ frames : List ReadFrame,
        ReadFrom Environment.offline [.arrives 0 straightBytes, .completes 0] 0 frames ∧
          ∀ f ∈ frames, Grammatical f.bytes := by
  refine ⟨by decide +kernel,
    (executed_frames Environment.offline [.arrives 0 straightBytes, .completes 0] 0).1 ?_⟩
  refine ⟨[straightBytes], [], ?_, ?_, by rw [List.flatten_singleton, List.append_nil]; rfl⟩
  · intro bytes hbytes
    rw [List.mem_singleton.mp hbytes]
    refine ⟨.INITIALIZE, (straightBytes.drop 12).take 33, [0x75], rfl, ⟨?_, ?_⟩, ?_, ?_⟩
    · decide +kernel
    · exact fun hadd => absurd hadd (by decide)
    · exact fun hinit => absurd rfl hinit
    · decide +kernel
  · intro command rest
    exact ⟨by simp, by simp⟩

/-- An INITIALIZE with another byte for the delimiter of its static part. -/
def crookedBytes : Bytes := straightBytes.set 45 88

/-- It is executed, and the cache is initialized. -/
theorem executed_crooked_fails :
    (run Environment.offline [.arrives 0 crookedBytes, .completes 0]).cache.status =
        .INITIALIZED ∧
      ¬ ∀ (inputs : List Input) (i : Nat), ∃ frames : List ReadFrame,
        ReadFrom Environment.offline inputs i frames ∧ ∀ f ∈ frames, Grammatical f.bytes := by
  constructor
  · decide +kernel
  · intro h
    obtain ⟨frames, hread, hall⟩ := h [.arrives 0 crookedBytes, .completes 0] 0
    have hone : (carriedOut ((run Environment.offline
        [.arrives 0 crookedBytes, .completes 0]).eventsOf 0)).length = 1 := by
      decide +kernel
    rw [hread.executed, List.length_map, List.length_eq_one_iff] at hone
    obtain ⟨f, rfl⟩ := hone
    have hsent : sent 0 [.arrives 0 crookedBytes, .completes 0] = crookedBytes := rfl
    have hbegins := hread.begins
    rw [hsent, List.map_singleton, List.flatten_singleton] at hbegins
    obtain ⟨command, fields, payload, hfields, _, heq⟩ := hall f List.mem_cons_self
    rw [heq] at hbegins
    have hline : command.line <+: crookedBytes := (List.prefix_append _ _).trans hbegins
    cases command with
    | INITIALIZE =>
        -- the byte behind the fields
        obtain ⟨rest, hrest⟩ := hbegins
        have hbyte := congrArg (fun bs => bs[45]?) hrest
        have hlen : (Command.INITIALIZE.line ++ fields).length = 45 := by
          rw [List.length_append]
          have : Command.INITIALIZE.line.length = 12 := by decide
          have : Command.INITIALIZE.staticLength = 34 := rfl
          omega
        simp only [← List.append_assoc, ← hlen] at hbyte
        rw [List.append_assoc, List.getElem?_append_right (Nat.le_refl _), Nat.sub_self] at hbyte
        have hother : crookedBytes[45]? = some 88 := by decide +kernel
        rw [hlen, hother] at hbyte
        exact absurd (Option.some.inj hbyte) (by decide)
    | TRAIN => exact absurd hline (by decide)
    | LOAD => exact absurd hline (by decide)
    | SEARCH => exact absurd hline (by decide)
    | EVICT => exact absurd hline (by decide)
    | ADD => exact absurd hline (by decide)

end Server

end Periplus.Ports
