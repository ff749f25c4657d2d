import Periplus.Ports.FrameRoundTrip
import Periplus.Ports.Server
import Periplus.Verified.Segments

/-!
# Commands read from a stream in portions

A session holds bytes that have been read too early in its buffer, and the rest of
the stream is in the socket, in the portions that the next reads take.  `CutBehind` says
where the two together are cut; `Advance` says that a number of bytes has been consumed
from them, wherever they were.

A frame needs its command line, which may bring more bytes with it, and then the
static and the dynamic part, each of a size that the session knows beforehand.  The
static part has to have come with the command line: the handler that would wait for it
does not come back, and for ADD the size that is waited for is eight bytes short of what
the decoder reads.

## Main results

* `readUntil_line`, `ensure_buffered`, `ensure_received` — the read operations on a
  buffer and a socket.
* `staticPart_buffered`, `staticPart_missing`, `dynamicPart_comesTo` — the two parts of a
  frame.
* `sameCommands_iff` — the commands handed to the cache are those of the frames exactly
  when the static part of each frame is in the buffer when `read_args` runs.
-/

namespace Periplus.Ports

open Periplus.Verified.Reader
open Periplus.Verified.Run
open Periplus.Verified.Segments

/-! ## A buffer and a socket -/

/-- Buffer and socket together are cut behind `x` bytes. -/
def CutBehind (buffer : Bytes) (socket : List Bytes) (x : Nat) : Prop :=
  buffer.length ≤ x ∧ IsCut socket (x - buffer.length)

/-- The first `n` bytes of buffer and socket have been consumed. -/
structure Advance (n : Nat) (b : Bytes) (I : List Bytes) (b' : Bytes) (I' : List Bytes) :
    Prop where
  stream : b' ++ I'.flatten = (b ++ I.flatten).drop n
  left : b'.length = b.length - n
  cuts : ∀ x, 0 < x → (CutBehind b' I' x ↔ CutBehind b I (n + x))

theorem Advance.trans {n m : Nat} {b b' b'' : Bytes} {I I' I'' : List Bytes}
    (h : Advance n b I b' I') (h' : Advance m b' I' b'' I'') : Advance (n + m) b I b'' I'' where
  stream := by rw [h'.stream, h.stream, List.drop_drop]
  left := by rw [h'.left, h.left, Nat.sub_sub]
  cuts := by
    intro x hx
    rw [h'.cuts x hx, h.cuts (m + x) (by omega), Nat.add_assoc]

/-- Bytes that are in the buffer. -/
theorem ensure_buffered {n : Nat} {b : Bytes} {I : List Bytes} (h : n ≤ b.length) :
    Advance n b I (b.drop n) I where
  stream := by rw [List.drop_append_of_le_length h]
  left := List.length_drop
  cuts := by
    intro x _
    rw [CutBehind, CutBehind, List.length_drop]
    have hsub : x - (b.length - n) = n + x - b.length := by omega
    rw [hsub]
    constructor
    · rintro ⟨_, hcut⟩
      exact ⟨by omega, hcut⟩
    · rintro ⟨_, hcut⟩
      exact ⟨by omega, hcut⟩

/-- `transfer_exactly(n)` takes `n` bytes of the stream. -/
theorem transferExactly_eq {n : Nat} {b : Bytes} {I : List Bytes} (h : n ≤ I.flatten.length) :
    ∃ I', transferExactly n b I = some (b ++ I.flatten.take n, I') ∧
      I'.flatten = I.flatten.drop n ∧ ∀ x, 0 < x → (IsCut I' x ↔ IsCut I (n + x)) := by
  induction I generalizing n b with
  | nil =>
      have hn : n = 0 := by simpa using h
      subst hn
      refine ⟨[], ?_, rfl, fun x _ => by rw [Nat.zero_add]⟩
      rw [transferExactly, if_pos rfl, List.take_zero, List.append_nil]
  | cons seg I ih =>
      rw [List.flatten_cons, List.length_append] at h
      rw [transferExactly]
      by_cases hle : n ≤ seg.length
      · refine ⟨seg.drop n :: I, ?_, ?_, fun x hx => ?_⟩
        · rw [if_pos hle, List.flatten_cons, List.take_append_of_le_length hle]
        · rw [List.flatten_cons, List.flatten_cons, List.drop_append_of_le_length hle]
        · rw [isCut_cons, isCut_cons, List.length_drop]
          have hsub : x - (seg.length - n) = n + x - seg.length := by omega
          rw [hsub]
          constructor
          · rintro (h | ⟨_, hcut⟩)
            · omega
            · exact Or.inr ⟨by omega, hcut⟩
          · rintro (h | ⟨_, hcut⟩)
            · omega
            · exact Or.inr ⟨by omega, hcut⟩
      · obtain ⟨I', htransfer, hflat, hcuts⟩ := ih (n := n - seg.length) (b := b ++ seg) (by omega)
        refine ⟨I', ?_, ?_, fun x hx => ?_⟩
        · have hall : seg.take n = seg := List.take_of_length_le (by omega)
          rw [if_neg hle, htransfer, List.flatten_cons, List.append_assoc, List.take_append, hall]
        · have hnil : seg.drop n = [] := List.drop_eq_nil_of_le (by omega)
          rw [hflat, List.flatten_cons, List.drop_append, hnil, List.nil_append]
        · rw [hcuts x hx, isCut_cons]
          have hsub : n - seg.length + x = n + x - seg.length := by omega
          rw [hsub]
          constructor
          · exact fun h => Or.inr ⟨by omega, h⟩
          · rintro (h | ⟨_, hcut⟩)
            · omega
            · exact hcut

/-- Bytes of which some are still in the socket: exactly the missing ones are read, and
the buffer holds no others. -/
theorem ensure_received {n : Nat} {b : Bytes} {I : List Bytes} (hshort : b.length ≤ n)
    (hlen : n ≤ (b ++ I.flatten).length) :
    ∃ I', transferExactly (n - b.length) b I = some ((b ++ I.flatten).take n, I') ∧
      Advance n b I [] I' := by
  rw [List.length_append] at hlen
  obtain ⟨I', htransfer, hflat, hcuts⟩ :=
    transferExactly_eq (n := n - b.length) (b := b) (I := I) (by omega)
  refine ⟨I', ?_, ?_, ?_, fun x hx => ?_⟩
  · rw [htransfer, List.take_append, List.take_of_length_le hshort]
  · have hnil : b.drop n = [] := List.drop_eq_nil_of_le hshort
    rw [List.nil_append, hflat, List.drop_append, hnil, List.nil_append]
  · rw [List.length_nil, Nat.sub_eq_zero_of_le hshort]
  · rw [CutBehind, CutBehind, List.length_nil, Nat.sub_zero, hcuts x hx]
    have hsub : n - b.length + x = n + x - b.length := by omega
    rw [hsub]
    constructor
    · exact fun h => ⟨by omega, h.2⟩
    · exact fun h => ⟨Nat.zero_le _, h.2⟩

/-- What a session does before it decodes a part for which it wants `n` bytes in the
buffer. -/
def ensure (n : Nat) (b : Bytes) (I : List Bytes) : Option (Bytes × List Bytes) :=
  if n ≤ b.length then some (b, I) else transferExactly (n - b.length) b I

/-- The part is complete when it is as long as the session thinks, or when all of it is
in the buffer anyway. -/
theorem ensure_complete {n : Nat} {b part tail : Bytes} {I : List Bytes}
    (hstream : b ++ I.flatten = part ++ tail) (hn : n ≤ part.length)
    (h : n = part.length ∨ part.length ≤ b.length) :
    ∃ b' I', ensure n b I = some (part ++ b', I') ∧ Advance part.length b I b' I' := by
  by_cases hle : part.length ≤ b.length
  · have hb : b = part ++ b.drop part.length := by
      obtain ⟨more, rfl⟩ : part <+: b :=
        List.prefix_of_prefix_length_le ⟨tail, rfl⟩ ⟨I.flatten, hstream⟩ hle
      rw [List.drop_left]
    refine ⟨b.drop part.length, I, ?_, ensure_buffered hle⟩
    rw [ensure, if_pos (Nat.le_trans hn hle), ← hb]
  · have hn : n = part.length := h.resolve_right hle
    have hlen : part.length ≤ (b ++ I.flatten).length := by
      rw [hstream, List.length_append]
      omega
    obtain ⟨I', htransfer, hadvance⟩ := ensure_received (by omega) hlen
    refine ⟨[], I', ?_, hadvance⟩
    rw [ensure, if_neg (by omega), hn, htransfer, hstream, List.take_left, List.append_nil]

/-- Otherwise the decoder is given a strict first part of it. -/
theorem ensure_short {n : Nat} {b part tail : Bytes} {I : List Bytes}
    (hstream : b ++ I.flatten = part ++ tail) (hn : n < part.length)
    (hshort : b.length < part.length) :
    ∃ pre I', ensure n b I = some (pre, I') ∧ pre <+: part ∧ pre.length < part.length := by
  unfold ensure
  by_cases hle : n ≤ b.length
  · exact ⟨b, I, if_pos hle,
      List.prefix_of_prefix_length_le ⟨I.flatten, hstream⟩ ⟨tail, rfl⟩ (by omega), hshort⟩
  · have hlen : n ≤ (b ++ I.flatten).length := by
      rw [hstream, List.length_append]
      omega
    obtain ⟨I', htransfer, _⟩ := ensure_received (by omega) hlen
    rw [if_neg hle, htransfer, hstream, List.take_append_of_le_length (by omega)]
    refine ⟨part.take n, I', rfl, List.take_prefix n part, ?_⟩
    rw [List.length_take]
    omega

/-! ## The command line -/

theorem hasDelimiter_append (b : Bytes) (rest : Bytes) :
    hasDelimiter (b ++ 0x0D :: 0x0A :: rest) = true := by
  induction b with
  | nil => rfl
  | cons a b ih =>
      cases b with
      | nil =>
          show ((a == 0x0D && (0x0D : UInt8) == 0x0A) ||
            hasDelimiter (0x0D :: 0x0A :: rest)) = true
          rw [show hasDelimiter (0x0D :: 0x0A :: rest) = true from rfl, Bool.or_true]
      | cons a' b =>
          show ((a == 0x0D && a' == 0x0A) || hasDelimiter ((a' :: b) ++ 0x0D :: 0x0A :: rest)) = true
          rw [ih, Bool.or_true]

theorem hasDelimiter_of_no_lf {b : Bytes} (h : ∀ a ∈ b, a ≠ 0x0A) : hasDelimiter b = false := by
  induction b with
  | nil => rfl
  | cons a b ih =>
      rw [List.forall_mem_cons] at h
      cases b with
      | nil => rfl
      | cons a' b =>
          have ha' : a' ≠ 0x0A := h.2 a' List.mem_cons_self
          show ((a == 0x0D && a' == 0x0A) || hasDelimiter (a' :: b)) = false
          rw [ih h.2, beq_eq_false_iff_ne.mpr ha', Bool.and_false, Bool.or_false]

theorem line_length (command : Command) :
    command.line.length = command.name.length + 2 := by
  rw [Command.line, List.length_append]
  rfl

/-- A first part of the stream has the delimiter when the line is complete. -/
theorem hasDelimiter_iff {command : Command} {b rest tail : Bytes}
    (h : b ++ rest = command.line ++ tail) :
    hasDelimiter b = true ↔ command.line.length ≤ b.length := by
  constructor
  · intro hdelimiter
    by_contra hshort
    have hpre : b <+: command.name ++ [0x0D] := by
      have hline : b <+: command.line :=
        List.prefix_of_prefix_length_le ⟨rest, h⟩ ⟨tail, rfl⟩ (by omega)
      have hinit : command.name ++ [0x0D] <+: command.line := ⟨[0x0A], by
        rw [Command.line, List.append_assoc]
        rfl⟩
      rw [line_length] at hshort
      exact List.prefix_of_prefix_length_le hline hinit (by
        rw [List.length_append, List.length_singleton]
        omega)
    have hno : ∀ a ∈ b, a ≠ 0x0A := by
      intro a ha
      rcases List.mem_append.mp (hpre.subset ha) with hname | hcr
      · exact name_ne_lf command a hname
      · rw [List.mem_singleton] at hcr
        rw [hcr]
        decide
    rw [hasDelimiter_of_no_lf hno] at hdelimiter
    exact absurd hdelimiter (by decide)
  · intro hle
    obtain ⟨more, rfl⟩ : command.line <+: b :=
      List.prefix_of_prefix_length_le ⟨tail, rfl⟩ ⟨rest, h⟩ hle
    rw [Command.line, List.append_assoc]
    exact hasDelimiter_append _ _

/-- `async_read_until` completes with the line and whole portions behind it. -/
theorem readUntil_line {command : Command} {b tail : Bytes} {I : List Bytes}
    (h : b ++ I.flatten = command.line ++ tail) :
    ∃ b' I', readUntil b I = some (command.line ++ b', I') ∧ b' ++ I'.flatten = tail ∧
      ∀ x, command.line.length ≤ x →
        (CutBehind (command.line ++ b') I' x ↔ CutBehind b I x) := by
  have hstop : ∀ (b : Bytes) (I : List Bytes), b ++ I.flatten = command.line ++ tail →
      hasDelimiter b = true → ∃ b', b = command.line ++ b' ∧ b' ++ I.flatten = tail := by
    intro b I h hdelimiter
    obtain ⟨more, rfl⟩ : command.line <+: b := List.prefix_of_prefix_length_le
      ⟨tail, rfl⟩ ⟨I.flatten, h⟩ ((hasDelimiter_iff h).mp hdelimiter)
    rw [List.append_assoc, List.append_cancel_left_eq] at h
    exact ⟨more, rfl, h⟩
  induction I generalizing b with
  | nil =>
      have hdelimiter : hasDelimiter b = true := by
        rw [hasDelimiter_iff h]
        have := congrArg List.length h
        rw [List.flatten_nil, List.append_nil, List.length_append] at this
        omega
      obtain ⟨b', rfl, hrest⟩ := hstop b [] h hdelimiter
      exact ⟨b', [], by rw [readUntil, if_pos hdelimiter], hrest, fun _ _ => Iff.rfl⟩
  | cons seg I ih =>
      rw [readUntil]
      by_cases hdelimiter : hasDelimiter b = true
      · obtain ⟨b', rfl, hrest⟩ := hstop b (seg :: I) h hdelimiter
        exact ⟨b', seg :: I, if_pos hdelimiter, hrest, fun _ _ => Iff.rfl⟩
      · have hlonger : (b ++ seg) ++ I.flatten = command.line ++ tail := by
          rw [← h, List.flatten_cons, List.append_assoc]
        obtain ⟨b', I', hread, hrest, hcuts⟩ := ih hlonger
        refine ⟨b', I', by rw [if_neg hdelimiter, hread], hrest, fun x hx => ?_⟩
        rw [hcuts x hx, CutBehind, CutBehind, isCut_cons, List.length_append]
        have hshort : ¬ command.line.length ≤ b.length := by
          rwa [← hasDelimiter_iff h]
        have hsub : x - (b.length + seg.length) = x - b.length - seg.length := by omega
        rw [hsub]
        constructor
        · rintro ⟨_, hcut⟩
          exact ⟨by omega, Or.inr ⟨by omega, hcut⟩⟩
        · rintro ⟨_, hzero | ⟨_, hcut⟩⟩
          · omega
          · exact ⟨by omega, hcut⟩

/-! ## Handlers one after the other -/

variable {δ : Type} [LinearOrder δ]

/-- The session goes on after a handler. -/
def resume (env : Environment δ) (h : Handled δ) (fuel : Nat) : Handled δ :=
  match h with
  | (events, .error f) => (events, .error f)
  | (events, .ok (s, c)) => (events ++ (serve env fuel s c).1, (serve env fuel s c).2)

theorem resume_nil (env : Environment δ) (s : Session) (c : Cache δ) (fuel : Nat) :
    resume env ([], .ok (s, c)) fuel = serve env fuel s c := rfl

theorem serve_succ {env : Environment δ} {s s' : Session} (c : Cache δ) (fuel : Nat)
    (h : s.receive = some s') : serve env (fuel + 1) s c = resume env (onReceived env s' c) fuel := by
  rw [serve, h]
  rfl

/-- After some more handlers, the session is where `h'` leaves it. -/
def ComesTo (env : Environment δ) (h h' : Handled δ) : Prop :=
  ∃ n, ∀ fuel, resume env h (n + fuel) = resume env h' fuel

theorem ComesTo.refl (env : Environment δ) (h : Handled δ) : ComesTo env h h :=
  ⟨0, fun fuel => by rw [Nat.zero_add]⟩

theorem ComesTo.trans {env : Environment δ} {h h' h'' : Handled δ} (hab : ComesTo env h h')
    (hbc : ComesTo env h' h'') : ComesTo env h h'' := by
  obtain ⟨n, hn⟩ := hab
  obtain ⟨m, hm⟩ := hbc
  exact ⟨n + m, fun fuel => by rw [Nat.add_assoc, hn, hm]⟩

/-- The handler ended the session. -/
def Handled.failed (h : Handled δ) : Bool := !h.2.isOk

/-- A session that has ended is not served any further. -/
theorem serve_of_failed {env : Environment δ} {n : Nat} {s : Session} {c : Cache δ}
    (h : (serve env n s c).failed = true) (m : Nat) :
    serve env (n + m) s c = serve env n s c := by
  induction n generalizing s c with
  | zero => exact absurd h (by simp [serve, Handled.failed, Except.isOk, Except.toBool])
  | succ n ih =>
      rw [Nat.add_right_comm]
      unfold serve at h ⊢
      split
      · rfl
      · next s' hreceive =>
          rw [hreceive] at h
          dsimp only at h ⊢
          split
          · rfl
          · next events s'' c'' hnext =>
              rw [hnext] at h
              rw [ih h]

/-- A read that can be completed. -/
theorem comesTo_received {env : Environment δ} {s s' : Session} (c : Cache δ)
    (h : s.receive = some s') : ComesTo env ([], .ok (s, c)) (onReceived env s' c) := by
  refine ⟨1, fun fuel => ?_⟩
  rw [resume_nil, Nat.add_comm, serve_succ c fuel h]

theorem resume_cons (env : Environment δ) (e : Event) (h : Handled δ) (fuel : Nat) :
    resume env (e :: h.1, h.2) fuel = (e :: (resume env h fuel).1, (resume env h fuel).2) := by
  obtain ⟨events, result⟩ := h
  cases result <;> rfl

theorem ComesTo.cons {env : Environment δ} {h h' : Handled δ} (hcomes : ComesTo env h h')
    (e : Event) : ComesTo env (e :: h.1, h.2) (e :: h'.1, h'.2) := by
  obtain ⟨n, hn⟩ := hcomes
  exact ⟨n, fun fuel => by rw [resume_cons, resume_cons, hn]⟩

/-! ## The two parts of the arguments -/

/-- The session, with this buffer and socket. -/
def Session.holding (s : Session) (b : Bytes) (I : List Bytes) : Session :=
  { s with inputStream := ⟨b, []⟩, socket := I }

/-- The read of the bytes that are missing. -/
theorem receive_of_pending {s : Session} {n : Nat} {b : Bytes} {I : List Bytes}
    (hpending : s.pending = .staticArgs n ∨ s.pending = .dynamicArgs n)
    (h : transferExactly n s.inputStream.rest s.socket = some (b, I)) :
    s.receive = some { s with inputStream := { s.inputStream with rest := b }, socket := I } := by
  obtain ⟨inputStream, args, pending, socket, written⟩ := s
  have hp : pending = .staticArgs n ∨ pending = .dynamicArgs n := hpending
  rcases hp with rfl | rfl
  all_goals
    show Option.map _ (transferExactly n inputStream.rest socket) = _
    rw [h]
    rfl

theorem readDynamicArgs_comesTo (env : Environment δ) {s : Session} {args : Args} (c : Cache δ)
    (hargs : s.args = some args) {b b' : Bytes} {I I' : List Bytes}
    (h : ensure (dynamicSize args) b I = some (b', I')) :
    ∃ s' : Session, ComesTo env (readDynamicArgs env (s.holding b I) args c)
      (onDynamicArgs env (s'.holding b' I') args c) := by
  unfold ensure at h
  show ∃ s' : Session, ComesTo env (if dynamicSize args ≤ b.length then _ else _) _
  by_cases hle : dynamicSize args ≤ b.length
  · rw [if_pos hle] at h ⊢
    obtain ⟨rfl, rfl⟩ : b = b' ∧ I = I' := by simpa using h
    exact ⟨s, ComesTo.refl env _⟩
  · rw [if_neg hle] at h ⊢
    let waiting : Session := { s with pending := .dynamicArgs (dynamicSize args - b.length) }
    have hreceive : (waiting.holding b I).receive = some (waiting.holding b' I') :=
      receive_of_pending (Or.inr rfl) h
    have honReceived : onReceived env (waiting.holding b' I') c =
        onDynamicArgs env (waiting.holding b' I') args c := by
      have hpending : (waiting.holding b' I').pending =
          .dynamicArgs (dynamicSize args - b.length) := rfl
      have hwaits : (waiting.holding b' I').args = some args := hargs
      rw [onReceived, hpending, hwaits]
    refine ⟨waiting, ?_⟩
    rw [← honReceived]
    exact comesTo_received c hreceive

/-! ## Frames -/

/-- How many bytes have to be in the buffer when `read_args` runs: the static part, and
with it a dynamic part whose size does not fit into 64 bits. -/
def Frame.needed (f : Frame) : Nat :=
  if 2 ^ 64 ≤ f.header.size + 2 then f.command.staticLength + (f.header.size + 2)
  else f.command.staticLength

/-- The constants of `args.h` are what the decoders read, with one exception. -/
theorem getStaticSize_newArgs (command : Command) :
    command.newArgs.getStaticSize ≤ command.staticLength ∧
      (command.newArgs.getStaticSize = command.staticLength ↔ command ≠ .ADD) := by
  cases command <;> decide

theorem dynamicSize_header (f : Frame) :
    dynamicSize f.header ≤ f.dynamicPart.length ∧
      (dynamicSize f.header = f.dynamicPart.length ↔ f.header.size + 2 < 2 ^ 64) := by
  rw [f.dynamicPart_length, dynamicSize]
  constructor
  · exact Nat.mod_le _ _
  · constructor
    · intro h
      rw [← h]
      exact Nat.mod_lt _ (by decide)
    · exact Nat.mod_eq_of_lt

theorem onStaticArgs_complete (env : Environment δ) (f : Frame) (s : Session) (c : Cache δ)
    (b : Bytes) (I : List Bytes) :
    onStaticArgs env (s.holding (f.staticPart ++ b) I) f.command.newArgs c =
      readDynamicArgs env (({ s with args := some f.header } : Session).holding b I) f.header c := by
  unfold onStaticArgs
  rw [show (s.holding (f.staticPart ++ b) I).inputStream = ⟨f.staticPart ++ b, []⟩ from rfl,
    f.decodesStatic.reads]
  rfl

theorem onStaticArgs_short (env : Environment δ) (f : Frame) (s : Session) (c : Cache δ)
    {pre : Bytes} (I : List Bytes) (hpre : pre <+: f.staticPart)
    (hshort : pre.length < f.staticPart.length) :
    onStaticArgs env (s.holding pre I) f.command.newArgs c =
      ([], .error (.exception .shortRead)) := by
  unfold onStaticArgs
  rw [show (s.holding pre I).inputStream = ⟨pre, []⟩ from rfl,
    f.decodesStatic.starves pre [] hpre hshort]

theorem onDynamicArgs_complete (env : Environment δ) (f : Frame) (s : Session) (c : Cache δ)
    (b : Bytes) (I : List Bytes) :
    onDynamicArgs env (s.holding (f.dynamicPart ++ b) I) f.header c =
      executeArgs env (({ s with args := some f.args } : Session).holding b I) f.args c := by
  unfold onDynamicArgs
  rw [show (s.holding (f.dynamicPart ++ b) I).inputStream = ⟨f.dynamicPart ++ b, []⟩ from rfl,
    f.decodesDynamic.reads]
  rfl

theorem onDynamicArgs_short (env : Environment δ) (f : Frame) (s : Session) (c : Cache δ)
    {pre : Bytes} (I : List Bytes) (hpre : pre <+: f.dynamicPart)
    (hshort : pre.length < f.dynamicPart.length) :
    onDynamicArgs env (s.holding pre I) f.header c = ([], .error (.exception .shortRead)) := by
  unfold onDynamicArgs
  rw [show (s.holding pre I).inputStream = ⟨pre, []⟩ from rfl,
    f.decodesDynamic.starves pre [] hpre hshort]

/-- The static part, when it is in the buffer. -/
theorem staticPart_buffered (env : Environment δ) (f : Frame) (s : Session) (c : Cache δ)
    {b tail : Bytes} {I : List Bytes} (hstream : b ++ I.flatten = f.staticPart ++ tail)
    (h : f.command.staticLength ≤ b.length) :
    ∃ (s' : Session) (b' : Bytes), s'.args = some f.header ∧
      Advance f.command.staticLength b I b' I ∧
      readArgs env (s.holding b I) f.command.newArgs c =
        readDynamicArgs env (s'.holding b' I) f.header c := by
  have hsize := Nat.le_trans (getStaticSize_newArgs f.command).1 h
  rw [← f.staticPart_length] at h ⊢
  obtain ⟨b', rfl⟩ : f.staticPart <+: b :=
    List.prefix_of_prefix_length_le ⟨tail, rfl⟩ ⟨I.flatten, hstream⟩ h
  have hadvance := ensure_buffered (I := I) h
  rw [List.drop_left] at hadvance
  refine ⟨{ s with args := some f.header }, b', rfl, hadvance, ?_⟩
  show (if f.command.newArgs.getStaticSize ≤ (f.staticPart ++ b').length then _ else _) = _
  rw [if_pos hsize]
  exact onStaticArgs_complete env f { s with args := some f.command.newArgs } c b' I

/-- A static part that is not in the buffer is not read: it is decoded too early, or the
handler that has waited for it does not come back. -/
theorem staticPart_missing (env : Environment δ) (f : Frame) (s : Session) (c : Cache δ)
    {b tail : Bytes} {I : List Bytes} (hstream : b ++ I.flatten = f.staticPart ++ tail)
    (h : b.length < f.command.staticLength) :
    ∃ e, ComesTo env (readArgs env (s.holding b I) f.command.newArgs c) ([], .error e) := by
  rw [← f.staticPart_length] at h
  show ∃ e, ComesTo env (if f.command.newArgs.getStaticSize ≤ b.length then _ else _) _
  by_cases hle : f.command.newArgs.getStaticSize ≤ b.length
  · have hpre : b <+: f.staticPart :=
      List.prefix_of_prefix_length_le ⟨I.flatten, hstream⟩ ⟨tail, rfl⟩ (Nat.le_of_lt h)
    have hshort := onStaticArgs_short env f { s with args := some f.command.newArgs } c I hpre h
    refine ⟨.exception .shortRead, ?_⟩
    rw [if_pos hle]
    exact hshort ▸ ComesTo.refl env _
  · have hlen : f.command.newArgs.getStaticSize ≤ (b ++ I.flatten).length := by
      have hsize := (getStaticSize_newArgs f.command).1
      rw [hstream, List.length_append, f.staticPart_length]
      omega
    obtain ⟨I', htransfer, _⟩ := ensure_received (Nat.le_of_not_le hle) hlen
    let waiting : Session := { s with
      args := some f.command.newArgs
      pending := .staticArgs (f.command.newArgs.getStaticSize - b.length) }
    let received : Session := waiting.holding
      ((b ++ I.flatten).take f.command.newArgs.getStaticSize) I'
    have hreceive : (waiting.holding b I).receive = some received :=
      receive_of_pending (Or.inl rfl) htransfer
    obtain ⟨e, herror⟩ := onStaticReceived_error (δ := δ) received f.command.newArgs
    have honReceived : onReceived env received c =
        onStaticReceived received f.command.newArgs := rfl
    have hcomes : ComesTo env ([], .ok (waiting.holding b I, c)) (onReceived env received c) :=
      comesTo_received c hreceive
    rw [honReceived, herror] at hcomes
    refine ⟨e, ?_⟩
    rw [if_neg hle]
    exact hcomes

/-- The dynamic part, when it is completely read. -/
theorem dynamicPart_comesTo (env : Environment δ) (f : Frame) {s : Session} (c : Cache δ)
    (hargs : s.args = some f.header) {b tail : Bytes} {I : List Bytes}
    (hstream : b ++ I.flatten = f.dynamicPart ++ tail)
    (h : f.header.size + 2 < 2 ^ 64 ∨ f.header.size + 2 ≤ b.length) :
    ∃ (s' : Session) (b' : Bytes) (I' : List Bytes), Advance (f.header.size + 2) b I b' I' ∧
      ComesTo env (readDynamicArgs env (s.holding b I) f.header c)
        (executeArgs env (s'.holding b' I') f.args c) := by
  obtain ⟨hle, hsize⟩ := dynamicSize_header f
  rw [← hsize, ← f.dynamicPart_length] at h
  rw [← f.dynamicPart_length]
  obtain ⟨b', I', hensure, hadvance⟩ := ensure_complete hstream hle h
  obtain ⟨s', hcomes⟩ := readDynamicArgs_comesTo env c hargs hensure
  rw [onDynamicArgs_complete] at hcomes
  exact ⟨{ s' with args := some f.args }, b', I', hadvance, hcomes⟩

/-- Enough has come with the command line: the arguments of the frame are executed, and
the frame is consumed. -/
theorem readArgs_frame (env : Environment δ) (f : Frame) (s : Session) (c : Cache δ)
    {b tail : Bytes} {I : List Bytes}
    (hstream : b ++ I.flatten = f.staticPart ++ (f.dynamicPart ++ tail))
    (hneeded : f.needed ≤ b.length) :
    ∃ (s' : Session) (b' : Bytes) (I' : List Bytes),
      Advance (f.command.staticLength + (f.header.size + 2)) b I b' I' ∧
      ComesTo env (readArgs env (s.holding b I) f.command.newArgs c)
        (executeArgs env (s'.holding b' I') f.args c) := by
  unfold Frame.needed at hneeded
  have hstatic : f.command.staticLength ≤ b.length := by
    split at hneeded <;> omega
  obtain ⟨s₁, b₁, hargs, hadvance₁, hread⟩ := staticPart_buffered env f s c hstream hstatic
  have hdynamic : f.header.size + 2 < 2 ^ 64 ∨ f.header.size + 2 ≤ b₁.length := by
    by_cases hwraps : 2 ^ 64 ≤ f.header.size + 2
    · rw [if_pos hwraps] at hneeded
      right
      rw [hadvance₁.left]
      omega
    · exact Or.inl (by omega)
  have hstream₁ : b₁ ++ I.flatten = f.dynamicPart ++ tail := by
    rw [hadvance₁.stream, hstream, ← f.staticPart_length, List.drop_left]
  obtain ⟨s₂, b₂, I₂, hadvance₂, hcomes⟩ :=
    dynamicPart_comesTo env f c hargs hstream₁ hdynamic
  rw [← hread] at hcomes
  exact ⟨s₂, b₂, I₂, hadvance₁.trans hadvance₂, hcomes⟩

/-- Less has come with it: the session does not come back. -/
theorem readArgs_short (env : Environment δ) (f : Frame) (s : Session) (c : Cache δ)
    {b tail : Bytes} {I : List Bytes}
    (hstream : b ++ I.flatten = f.staticPart ++ (f.dynamicPart ++ tail))
    (hneeded : b.length < f.needed) :
    ∃ e, ComesTo env (readArgs env (s.holding b I) f.command.newArgs c) ([], .error e) := by
  by_cases hstatic : f.command.staticLength ≤ b.length
  · -- the static part is read, so it is the dynamic part whose size does not fit
    have hwraps : 2 ^ 64 ≤ f.header.size + 2 := by
      by_contra hfits
      rw [Frame.needed, if_neg hfits] at hneeded
      omega
    rw [Frame.needed, if_pos hwraps] at hneeded
    obtain ⟨s₁, b₁, hargs, hadvance, hread⟩ := staticPart_buffered env f s c hstream hstatic
    have hstream₁ : b₁ ++ I.flatten = f.dynamicPart ++ tail := by
      rw [hadvance.stream, hstream, ← f.staticPart_length, List.drop_left]
    obtain ⟨hle, hsize⟩ := dynamicSize_header f
    have hlt : dynamicSize f.header < f.dynamicPart.length := by
      have hne : dynamicSize f.header ≠ f.dynamicPart.length := by
        rw [Ne, hsize]
        omega
      omega
    obtain ⟨pre, I₂, hensure, hpre, hshort⟩ := ensure_short hstream₁ hlt (by
      rw [f.dynamicPart_length, hadvance.left]
      omega)
    obtain ⟨s₂, hcomes⟩ := readDynamicArgs_comesTo env c hargs hensure
    rw [onDynamicArgs_short env f s₂ c I₂ hpre hshort, ← hread] at hcomes
    exact ⟨_, hcomes⟩
  · exact staticPart_missing env f s c hstream (Nat.lt_of_not_le hstatic)

/-! ## A pipelined sequence of frames -/

theorem processCommand_name {c : Cache δ} {command : Command} {args : Args}
    (h : c.processCommand command.name = .ok args) : args = command.newArgs := by
  obtain ⟨cmd, hargs, hname, _⟩ := Cache.processCommand_spec h
  rw [Command.name_injective hname]
  exact hargs

/-- The command line of a frame, and whole portions behind it. -/
theorem line_comesTo (env : Environment δ) {command : Command} {s : Session} (c : Cache δ)
    (hpending : s.pending = .command) {b tail : Bytes} {I : List Bytes}
    (hstream : b ++ I.flatten = command.line ++ tail) :
    ∃ b' I', b' ++ I'.flatten = tail ∧
      (∀ y, CutBehind b' I' y ↔ CutBehind b I (command.line.length + y)) ∧
      ComesTo env ([], .ok (s.holding b I, c))
        (match c.processCommand command.name with
          | .error f => ([], .error f)
          | .ok args => (.accepted command.name :: (readArgs env (s.holding b' I') args c).1,
              (readArgs env (s.holding b' I') args c).2)) := by
  obtain ⟨b', I', hread, hrest, hcuts⟩ := readUntil_line hstream
  refine ⟨b', I', hrest, fun y => ?_, ?_⟩
  · rw [← hcuts _ (Nat.le_add_right _ y), CutBehind, CutBehind, List.length_append,
      Nat.add_sub_add_left, Nat.add_le_add_iff_left]
  · have hreceive : (s.holding b I).receive = some (s.holding (command.line ++ b') I') := by
      obtain ⟨inputStream, args, pending, socket, written⟩ := s
      have hp : pending = .command := hpending
      subst hp
      show Option.map _ (readUntil b I) = _
      rw [hread]
      rfl
    have honCommand : onReceived env (s.holding (command.line ++ b') I') c =
        onCommand env (s.holding (command.line ++ b') I') c :=
      onReceived_command env c hpending
    have hcomes : ComesTo env ([], .ok (s.holding b I, c))
        (onReceived env (s.holding (command.line ++ b') I') c) := comesTo_received c hreceive
    rw [honCommand, onCommand, show (s.holding (command.line ++ b') I').inputStream =
      ⟨command.line ++ b', []⟩ from rfl, getCommand_line] at hcomes
    exact hcomes

/-- Behind the last frame there is nothing to read. -/
theorem readUntil_nothing {b : Bytes} {I : List Bytes} (h : b ++ I.flatten = []) :
    readUntil b I = none := by
  induction I generalizing b with
  | nil =>
      rw [List.flatten_nil, List.append_nil] at h
      rw [readUntil, h]
      rfl
  | cons seg I ih =>
      have hb : b = [] := (List.append_eq_nil_iff.mp h).1
      rw [hb, List.flatten_cons, ← List.append_assoc] at h
      rw [readUntil, hb, if_neg (by decide)]
      exact ih h

/-- The arguments of the commands that are carried out. -/
def executedArgs (events : List Event) : List Args :=
  events.filterMap (fun
    | .accepted _ => none
    | .executed args _ _ => some args)

/-- What an observer of the cache sees of a session. -/
def Handled.seen (h : Handled δ) : List Args × Except Fault (Cache δ) :=
  (executedArgs h.1, h.2.map Prod.snd)

/-- The commands of these frames handed to the cache one after the other, and how it comes
back. -/
def handed (env : Environment δ) : Cache δ → List Frame → List Args × Except Fault (Cache δ)
  | c, [] => ([], .ok c)
  | c, f :: fs =>
      match c.processCommand f.command.name with
      | .error e => ([], .error e)
      | .ok _ =>
          match c.processArgs env f.args with
          | .error e => ([f.args], .error e)
          | .ok (c', _) => (f.args :: (handed env c' fs).1, (handed env c' fs).2)

/-- Eventually, `r` is seen. -/
def Ends (env : Environment δ) (h : Handled δ) (r : List Args × Except Fault (Cache δ)) : Prop :=
  ∃ n, ∀ fuel, (resume env h (n + fuel)).seen = r

theorem Ends.unique {env : Environment δ} {h : Handled δ}
    {r r' : List Args × Except Fault (Cache δ)} (hr : Ends env h r) (hr' : Ends env h r') :
    r = r' := by
  obtain ⟨n, hn⟩ := hr
  obtain ⟨m, hm⟩ := hr'
  rw [← hn m, ← hm n, Nat.add_comm]

theorem ComesTo.ends {env : Environment δ} {h h' : Handled δ}
    {r : List Args × Except Fault (Cache δ)} (hcomes : ComesTo env h h') (hr : Ends env h' r) :
    Ends env h r := by
  obtain ⟨n, hn⟩ := hcomes
  obtain ⟨m, hm⟩ := hr
  exact ⟨n + m, fun fuel => by rw [Nat.add_assoc, hn, hm]⟩

theorem ends_error (env : Environment δ) (events : List Event) (e : Fault) :
    Ends env (events, .error e) (executedArgs events, .error e) :=
  ⟨0, fun _ => rfl⟩

theorem Ends.accepted {env : Environment δ} {h : Handled δ}
    {r : List Args × Except Fault (Cache δ)} (hr : Ends env h r) (command : Bytes) :
    Ends env (.accepted command :: h.1, h.2) r := by
  obtain ⟨n, hn⟩ := hr
  refine ⟨n, fun fuel => ?_⟩
  rw [resume_cons, ← hn fuel]
  rfl

/-- The event of `executeArgs`, and what is seen behind it. -/
theorem Ends.executed {env : Environment δ} {s : Session} {c' : Cache δ}
    {r : List Args × Except Fault (Cache δ)} (hr : Ends env ([], .ok (s, c')) r) (args : Args)
    (status : Status) (trained : Bool) :
    Ends env ([.executed args status trained], .ok (s, c')) (args :: r.1, r.2) := by
  obtain ⟨n, hn⟩ := hr
  refine ⟨n, fun fuel => ?_⟩
  rw [resume_cons env _ ([], .ok (s, c')), ← hn fuel]
  rfl

/-- The session hands the commands of the frames to the cache, whose bytes the reads take
in these portions. -/
def SameCommands (env : Environment δ) (c : Cache δ) (fs : List Frame) (segs : List Bytes) :
    Prop :=
  Ends env ([], .ok ({ Session.start with socket := segs }, c)) (handed env c fs)

/-- The condition on the portions: `p` bytes before the next frame, for each of the frames
that the cache is asked to carry out the bytes that it needs are in the buffer when
`read_args` runs, since so many are left behind its command line before the next border. -/
def Unbroken (env : Environment δ) (segs : List Bytes) : Nat → Cache δ → List Frame → Prop
  | _, _, [] => True
  | p, c, f :: fs =>
      match c.processCommand f.command.name with
      | .error _ => True
      | .ok _ =>
          f.needed ≤ untilCut (p + f.command.line.length) segs ∧
          match c.processArgs env f.args with
          | .error _ => True
          | .ok (c', _) => Unbroken env segs (p + f.bytes.length) c' fs

instance decidableUnbroken (env : Environment δ) (segs : List Bytes) :
    ∀ (p : Nat) (c : Cache δ) (fs : List Frame), Decidable (Unbroken env segs p c fs)
  | _, _, [] => isTrue trivial
  | p, c, f :: fs =>
      match hcommand : c.processCommand f.command.name with
      | .error _ => isTrue (by simp only [Unbroken, hcommand])
      | .ok _ =>
          match hrun : c.processArgs env f.args with
          | .error _ =>
              decidable_of_iff (f.needed ≤ untilCut (p + f.command.line.length) segs)
                (by simp only [Unbroken, hcommand, hrun, and_true])
          | .ok (c', _) =>
              have := decidableUnbroken env segs (p + f.bytes.length) c' fs
              decidable_of_iff (f.needed ≤ untilCut (p + f.command.line.length) segs ∧
                  Unbroken env segs (p + f.bytes.length) c' fs)
                (by simp only [Unbroken, hcommand, hrun])

/-- What is in the buffer is what comes before the next border. -/
theorem untilCut_eq_length {segs : List Bytes} {p : Nat} {b : Bytes} {I : List Bytes}
    (hp : 0 < p) (hcuts : ∀ y, CutBehind b I y ↔ IsCut segs (p + y)) :
    untilCut p segs = b.length := by
  have hborder : IsCut segs (p + b.length) := by
    refine (hcuts _).mp ⟨Nat.le_refl _, ?_⟩
    rw [Nat.sub_self]
    exact isCut_zero I
  have hle : p ≤ segs.flatten.length := Nat.le_trans (Nat.le_add_right _ _) (isCut_le hborder)
  apply eq_of_forall_le_iff
  intro n
  rw [le_untilCut_iff hp hle]
  constructor
  · intro hnone
    by_contra hlt
    exact hnone (p + b.length) (Nat.le_add_right _ _) (by omega) hborder
  · intro hn x hle hlt hcut
    have hx : x = p + (x - p) := by omega
    rw [hx, ← hcuts] at hcut
    have := hcut.1
    omega

/-- One sequence of frames, wherever its beginning is. -/
theorem ends_handed (env : Environment δ) (segs : List Bytes) (fs : List Frame) {p : Nat}
    {s : Session} {c : Cache δ} {b : Bytes} {I : List Bytes} (hpending : s.pending = .command)
    (hstream : b ++ I.flatten = (fs.map Frame.bytes).flatten)
    (hcuts : ∀ x, 0 < x → (CutBehind b I x ↔ IsCut segs (p + x))) :
    ∃ r, Ends env ([], .ok (s.holding b I, c)) r ∧
      (r = handed env c fs ↔ Unbroken env segs p c fs) := by
  induction fs generalizing p s c b I with
  | nil =>
      refine ⟨([], .ok c), ⟨0, fun fuel => ?_⟩, fun _ => trivial, fun _ => rfl⟩
      have hreceive : (s.holding b I).receive = none := by
        obtain ⟨inputStream, args, pending, socket, written⟩ := s
        have hp : pending = .command := hpending
        subst hp
        show Option.map _ (readUntil b I) = _
        rw [readUntil_nothing hstream]
        rfl
      rw [Nat.zero_add]
      rw [resume_nil]
      cases fuel with
      | zero => rfl
      | succ fuel =>
          rw [serve, hreceive]
          rfl
  | cons f fs ih =>
      rw [List.map_cons, List.flatten_cons, Frame.bytes, List.append_assoc,
        List.append_assoc] at hstream
      obtain ⟨b₁, I₁, hstream₁, hcuts₁, hcomes⟩ := line_comesTo env c hpending hstream
      unfold handed Unbroken
      cases hcommand : c.processCommand f.command.name with
      | error e =>
          rw [hcommand] at hcomes
          exact ⟨_, hcomes.ends (ends_error env [] e), fun _ => trivial, fun _ => rfl⟩
      | ok args =>
          have hargs := processCommand_name hcommand
          subst hargs
          rw [hcommand] at hcomes
          have hline : 0 < f.command.line.length := by
            rw [line_length]
            omega
          have hbehind : ∀ y, CutBehind b₁ I₁ y ↔
              IsCut segs (p + f.command.line.length + y) := by
            intro y
            rw [hcuts₁, hcuts _ (by omega), Nat.add_assoc]
          have hbuffered := untilCut_eq_length (by omega) hbehind
          by_cases hneeded : f.needed ≤ b₁.length
          · obtain ⟨s₂, b₂, I₂, hadvance, hcomes₂⟩ :=
              readArgs_frame env f s c hstream₁ hneeded
            have hread : f.needed ≤ untilCut (p + f.command.line.length) segs := by
              rw [hbuffered]
              exact hneeded
            cases hprocess : c.processArgs env f.args with
            | error e =>
                refine ⟨([f.args], .error e), hcomes.ends (Ends.accepted (hcomes₂.ends ?_) _),
                  fun _ => ⟨hread, trivial⟩, fun _ => rfl⟩
                rw [executeArgs, hprocess]
                exact ends_error env [.executed f.args c.status c.isTrained] e
            | ok done =>
                obtain ⟨c', writes⟩ := done
                have hstream₂ : b₂ ++ I₂.flatten = (fs.map Frame.bytes).flatten := by
                  rw [hadvance.stream, hstream₁, ← List.append_assoc, ← f.staticPart_length,
                    ← f.dynamicPart_length, ← List.length_append, List.drop_left]
                have hcuts₂ : ∀ x, 0 < x →
                    (CutBehind b₂ I₂ x ↔ IsCut segs (p + f.bytes.length + x)) := by
                  intro x hx
                  rw [hadvance.cuts x hx, hbehind, f.bytes_length]
                  simp only [Nat.add_assoc]
                let next : Session :=
                  { s₂ with pending := .command, written := s₂.written ++ writes }
                obtain ⟨r, hends, hiff⟩ := ih (s := next) (c := c') rfl hstream₂ hcuts₂
                refine ⟨(f.args :: r.1, r.2),
                  hcomes.ends (Ends.accepted (hcomes₂.ends ?_) _), ?_⟩
                · rw [executeArgs, hprocess]
                  exact hends.executed f.args c.status c.isTrained
                · show (_, _) = (f.args :: (handed env c' fs).1, (handed env c' fs).2) ↔
                    _ ∧ Unbroken env segs (p + f.bytes.length) c' fs
                  rw [← hiff]
                  constructor
                  · intro heq
                    obtain ⟨hhead, htail⟩ := Prod.mk.inj heq
                    exact ⟨hread, Prod.ext (List.cons.inj hhead).2 htail⟩
                  · rintro ⟨_, rfl⟩
                    rfl
          · obtain ⟨e, hshort⟩ := readArgs_short env f s c hstream₁ (by omega)
            refine ⟨([], .error e), hcomes.ends (Ends.accepted
              (hshort.ends (ends_error env [] e)) _), ?_⟩
            constructor
            · intro heq
              exfalso
              cases hprocess : c.processArgs env f.args with
              | error e =>
                  rw [hprocess] at heq
                  exact absurd (Prod.mk.inj heq).1 (by simp)
              | ok done =>
                  rw [hprocess] at heq
                  exact absurd (Prod.mk.inj heq).1 (by simp)
            · rintro ⟨henough, _⟩
              rw [hbuffered] at henough
              exact absurd henough hneeded

/-- **Segmentation.**  A session hands the commands of a pipelined sequence of frames to
the cache, with the arguments of the frames, exactly when for each of them the static part
is in the buffer when `read_args` runs. -/
theorem sameCommands_iff (env : Environment δ) (c : Cache δ) (fs : List Frame)
    (segs : List Bytes) (hsegs : segs.flatten = (fs.map Frame.bytes).flatten) :
    SameCommands env c fs segs ↔ Unbroken env segs 0 c fs := by
  have hcuts : ∀ x, 0 < x → (CutBehind [] segs x ↔ IsCut segs (0 + x)) := by
    intro x _
    rw [CutBehind, List.length_nil, Nat.sub_zero, Nat.zero_add]
    exact and_iff_right (Nat.zero_le x)
  obtain ⟨r, hends, hiff⟩ := ends_handed env segs fs (s := Session.start) (c := c) (b := [])
    (I := segs) rfl hsegs hcuts
  rw [← hiff]
  constructor
  · exact fun hsame => hends.unique hsame
  · rintro rfl
    exact hends

/-- INITIALIZE, TRAIN and ADD, from one client. -/
def pipelinedFrames : List Frame :=
  [(Call.initializeCall 1 ['u'] { nRecords := some 1 }).frame (by unfold Call.Encodable; decide),
    (Call.trainCall [[1], [2], [3], [4]]).frame (by unfold Call.Encodable; decide),
    (Call.addCall [['a']] [[1]]).frame (by unfold Call.Encodable; decide)]

def pipelinedBytes : Bytes := (pipelinedFrames.map Frame.bytes).flatten

/-- These frames, of which the last is cut fourteen bytes behind its command line. -/
def cutPortions : List Bytes :=
  [pipelinedBytes.take (pipelinedBytes.length - 19),
    pipelinedBytes.drop (pipelinedBytes.length - 19)]

theorem flatten_cutPortions : cutPortions.flatten = pipelinedBytes := by
  rw [cutPortions, List.flatten_cons, List.flatten_singleton, List.take_append_drop]

/-- In one portion the three commands are handed to the cache, and in two they are not. -/
theorem sameCommands_iff_pipelined :
    (SameCommands Environment.offline Cache.new pipelinedFrames [pipelinedBytes] ∧
        Unbroken Environment.offline [pipelinedBytes] 0 Cache.new pipelinedFrames) ∧
      ¬ SameCommands Environment.offline Cache.new pipelinedFrames cutPortions ∧
        ¬ Unbroken Environment.offline cutPortions 0 Cache.new pipelinedFrames := by
  have hwhole : Unbroken Environment.offline [pipelinedBytes] 0 Cache.new pipelinedFrames := by
    decide +kernel
  have hbroken : ¬ Unbroken Environment.offline cutPortions 0 Cache.new pipelinedFrames := by
    decide +kernel
  have hone := sameCommands_iff Environment.offline Cache.new pipelinedFrames [pipelinedBytes]
    List.flatten_singleton
  have htwo := sameCommands_iff Environment.offline Cache.new pipelinedFrames cutPortions
    flatten_cutPortions
  exact ⟨⟨hone.mpr hwhole, hwhole⟩, fun hsame => hbroken (htwo.mp hsame), hbroken⟩

def cutSession : Session := { Session.start with socket := cutPortions }

/-- The session that reads these portions ends before it hands the ADD to the cache. -/
theorem sameCommands_cutPortions_fails :
    ¬ ∀ (fs : List Frame) (segs : List Bytes), segs.flatten = (fs.map Frame.bytes).flatten →
      SameCommands Environment.offline Cache.new fs segs := by
  intro h
  obtain ⟨n, hn⟩ := h pipelinedFrames cutPortions flatten_cutPortions
  have hfailed : Handled.failed (serve Environment.offline 8 cutSession Cache.new) = true := by
    decide +kernel
  have hseen : (serve Environment.offline 8 cutSession Cache.new).seen.1.length = 2 := by
    decide +kernel
  have hhanded : (handed Environment.offline Cache.new pipelinedFrames).1.length = 3 := by
    decide +kernel
  have heq := hn 8
  rw [resume_nil, Nat.add_comm, ← cutSession, serve_of_failed hfailed n] at heq
  rw [← heq, hseen] at hhanded
  exact absurd hhanded (by decide)

end Periplus.Ports
