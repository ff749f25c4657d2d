import Periplus.Ports.ClientFrames

/-!
# `connection.py`: what the client writes on each connection

A method connects if `connected` is not set, sends its messages one by one, awaits the
answer and closes.  Whatever raises in between leaves the method at once: the writer
stays as it is, and `connected` stays set.

`Connection.send` that meets a reset opens a new connection and repeats its own message
there, which is the whole command of every method but `add`.  That one sends a frame in
pieces, and the frame goes on behind the piece that was repeated.

How each operation ends is up to the network and the peer: it is a parameter of every
call (`Weather`).  A connection on which not all bytes of a message went out is lost,
and nothing goes out on it any more.

## Main results

* `Connection.sendAll_begins` — the messages of one method, from a connection between
  two frames.
* `Connection.run_inFrames` — in every run whose calls of ADD are not broken off behind
  their first piece, each connection carries frames, the last one possibly cut.
-/

namespace Periplus.Ports

open Periplus.Verified.Memory

/-! ## The connection -/

/-- One TCP connection. -/
structure Link where
  /-- What has gone out on it. -/
  bytes : Bytes
  /-- Some of what was written has not gone out. -/
  lost : Bool
  deriving DecidableEq, Repr

/-- `n` bytes of a message go out. -/
def Link.write (bs : Bytes) (n : Nat) (link : Link) : Link :=
  if link.lost then link
  else { bytes := link.bytes ++ bs.take n, lost := decide (n < bs.length) }

/-- How `writer.write` and `writer.drain` end. -/
inductive Drain
  | returns
  /-- With another exception, when `n` bytes have gone out. -/
  | raises (n : Nat)
  /-- With `ConnectionResetError` or `BrokenPipeError`. -/
  | resets (n : Nat)
  deriving DecidableEq, Repr

/-- How the operations of one `send` end. -/
structure Fate where
  drain : Drain := .returns
  closes : Bool := true
  connects : Bool := true
  again : Drain := .returns
  deriving DecidableEq, Repr

/-- `Connection`, with the links that its writer has had before. -/
structure Connection where
  connected : Bool
  writer : Option Link
  former : List Link
  deriving DecidableEq, Repr

namespace Connection

def new : Connection where
  connected := false
  writer := none
  former := []

/-- All TCP connections so far. -/
def links (c : Connection) : List Link := c.former ++ c.writer.toList

/-- `self.writer.write(message)`, of which `n` bytes go out. -/
def write (bs : Bytes) (n : Nat) (c : Connection) : Connection :=
  { c with writer := c.writer.map (Link.write bs n) }

/-- `Connection.connect`, and whether it returns. -/
def connect (succeeds : Bool) (c : Connection) : Bool × Connection :=
  if succeeds then
    (true, { connected := true, writer := some ⟨[], false⟩, former := c.links })
  else (false, c)

/-- `Connection.close`; `wait_closed` can raise. -/
def close (closes : Bool) (c : Connection) : Bool × Connection :=
  if c.writer.isNone || closes then
    (true, { connected := false, writer := none, former := c.links })
  else (false, { c with connected := false })

/-- The branch of `send` for a broken connection. -/
def resend (bs : Bytes) (fate : Fate) (c : Connection) : Bool × Connection :=
  match c.close fate.closes with
  | (false, c) => (false, c)
  | (true, c) =>
      match c.connect fate.connects with
      | (false, c) => (false, c)
      | (true, c) =>
          match fate.again with
          | .returns => (true, c.write bs bs.length)
          | .raises n => (false, c.write bs n)
          | .resets n => (false, c.write bs n)

/-- `Connection.send`. -/
def send (message : PyStr) (fate : Fate) (c : Connection) : Bool × Connection :=
  -- "Client is not connected."
  if c.writer.isNone then (false, c)
  else
    match encodeLatin1 message with
    | none => (false, c)
    | some bs =>
        match fate.drain with
        | .returns => (true, c.write bs bs.length)
        | .raises n => (false, c.write bs n)
        | .resets n => (c.write bs n).resend bs fate

/-- The messages of a method, one after the other; `none` is the point at which it raises
by itself. -/
def sendAll : List (Option PyStr) → (Nat → Fate) → Connection → Bool × Connection
  | [], _, c => (true, c)
  | none :: _, _, c => (false, c)
  | some message :: script, fates, c =>
      match c.send message (fates 0) with
      | (false, c) => (false, c)
      | (true, c) => c.sendAll script (fun k => fates (k + 1))

end Connection

/-! ## The calls -/

/-- A call of a method, with the position of the first vector that contains a number which
`struct.pack` refuses, if there is one. -/
structure Attempt where
  call : Call
  refused : Option Nat := none
  deriving DecidableEq, Repr

/-- What the method passes to `send`.  ADD packs its vectors one by one, between its
messages; the others pack everything before they send. -/
def Attempt.script (a : Attempt) : List (Option PyStr) :=
  match a.call.messages with
  | none => [none]
  | some messages =>
      match a.refused with
      | none => messages.map some
      | some j =>
          match a.call with
          | .addCall ids embeddings =>
              if j < embeddings.length then
                (messages.take (ids.length + 2 + j)).map some ++ [none]
              else messages.map some
          | .initializeCall _ _ _ => [none]
          | .trainCall _ => [none]
          | .loadCall _ _ => [none]
          | .searchCall _ _ _ _ => [none]
          | .evictCall _ _ => [none]

/-- How the operations of one call end: `_connect`, every `send`, the reading of the
answer and the last `close`. -/
structure Weather where
  connects : Bool := true
  fates : Nat → Fate := fun _ => {}
  receives : Bool := true
  closes : Bool := true

namespace Connection

/-- The messages of a call, the reading of the answer and `close`; the answer is compared
afterwards. -/
def exchange (a : Attempt) (w : Weather) (c : Connection) : Connection :=
  match c.sendAll a.script w.fates with
  | (false, c) => c
  | (true, c) => if w.receives then (c.close w.closes).2 else c

/-- One call, with the `_connect` that it begins with. -/
def perform (a : Attempt) (w : Weather) (c : Connection) : Connection :=
  match if c.connected then (true, c) else c.connect w.connects with
  | (false, c) => c
  | (true, c) => c.exchange a w

/-- A sequence of calls. -/
def run (steps : List (Attempt × Weather)) : Connection :=
  steps.foldl (fun c step => c.perform step.1 step.2) new

end Connection

/-! ## Frames on a connection -/

/-- Complete frames, one after the other. -/
def Whole (bs : Bytes) : Prop := ∃ fs : List Frame, bs = (fs.map Frame.bytes).flatten

/-- Complete frames, of which the last may be cut. -/
def InFrames (bs : Bytes) : Prop := ∃ fs : List Frame, bs <+: (fs.map Frame.bytes).flatten

theorem whole_nil : Whole [] := ⟨[], rfl⟩

theorem Whole.inFrames {bs : Bytes} (h : Whole bs) : InFrames bs := by
  obtain ⟨fs, rfl⟩ := h
  exact ⟨fs, List.prefix_refl _⟩

theorem Whole.append_frame {bs : Bytes} (h : Whole bs) (f : Frame) : Whole (bs ++ f.bytes) := by
  obtain ⟨fs, rfl⟩ := h
  exact ⟨fs ++ [f], by simp⟩

theorem Whole.append_cut {bs cut : Bytes} (h : Whole bs) {f : Frame} (hcut : cut <+: f.bytes) :
    InFrames (bs ++ cut) := by
  obtain ⟨fs, hfs⟩ := h.append_frame f
  refine ⟨fs, ?_⟩
  rw [← hfs]
  exact (List.prefix_append_right_inj bs).mpr hcut

/-- A frame begins with the first letter of a command. -/
theorem InFrames.head {b : UInt8} {bs : Bytes} (h : InFrames (b :: bs)) :
    ∃ command : Command, command.name.head? = some b := by
  obtain ⟨fs, hfs⟩ := h
  cases fs with
  | nil => exact absurd hfs.length_le (by simp)
  | cons f fs =>
      refine ⟨f.command, ?_⟩
      have hhead : ((f :: fs).map Frame.bytes).flatten.head? = f.command.name.head? := by
        rw [List.map_cons, List.flatten_cons, Frame.bytes, Command.line]
        cases f.command <;> rfl
      obtain ⟨rest, hrest⟩ := hfs
      rw [← hhead, ← hrest]
      rfl

/-- Between two frames, or cut for good. -/
def Link.Sound (link : Link) : Prop :=
  if link.lost then InFrames link.bytes else Whole link.bytes

/-- Behind the part `done` of a frame, or cut for good. -/
def Link.Within (link : Link) (done : Bytes) : Prop :=
  if link.lost then InFrames link.bytes else ∃ bs, Whole bs ∧ link.bytes = bs ++ done

namespace Link

variable {link : Link} {f : Frame} {done bs : Bytes}

theorem Sound.inFrames (h : link.Sound) : InFrames link.bytes := by
  unfold Sound at h
  split at h
  · exact h
  · exact h.inFrames

theorem Sound.within (h : link.Sound) : link.Within [] := by
  unfold Sound at h
  unfold Within
  split at h
  · next hlost =>
      rw [if_pos hlost]
      exact h
  · next hlost =>
      rw [if_neg hlost]
      exact ⟨_, h, (List.append_nil _).symm⟩

theorem Within.sound (h : link.Within f.bytes) : link.Sound := by
  unfold Within at h
  unfold Sound
  split at h
  · next hlost =>
      rw [if_pos hlost]
      exact h
  · next hlost =>
      rw [if_neg hlost]
      obtain ⟨bs, hbs, hlink⟩ := h
      rw [hlink]
      exact hbs.append_frame f

theorem Within.inFrames (h : link.Within done) (hdone : done <+: f.bytes) : InFrames link.bytes := by
  unfold Within at h
  split at h
  · exact h
  · obtain ⟨bs, hbs, hlink⟩ := h
    rw [hlink]
    exact hbs.append_cut hdone

/-- **The next piece of a frame**, of which any number of bytes goes out. -/
theorem Within.write (h : link.Within done) (hnext : done ++ bs <+: f.bytes) (n : Nat) :
    (link.write bs n).Within (done ++ bs) := by
  by_cases hlost : link.lost
  · have hsame : link.write bs n = link := if_pos hlost
    rw [hsame, Within, if_pos hlost]
    rwa [Within, if_pos hlost] at h
  · have hwrite : link.write bs n =
        { bytes := link.bytes ++ bs.take n, lost := decide (n < bs.length) } := if_neg hlost
    rw [Within, if_neg hlost] at h
    obtain ⟨ws, hws, hlink⟩ := h
    rw [hwrite, Within, hlink, List.append_assoc]
    by_cases hn : n < bs.length
    · rw [if_pos (decide_eq_true hn)]
      refine @Whole.append_cut _ _ hws f ?_
      exact ((List.prefix_append_right_inj done).mpr (List.take_prefix n bs)).trans hnext
    · rw [if_neg (by simpa using hn), List.take_of_length_le (by omega)]
      exact ⟨ws, hws, rfl⟩

/-- A link on which a piece of a frame was cut is lost. -/
theorem Within.sound_of_cut (h : link.Within done) (hnext : done ++ bs <+: f.bytes) {n : Nat}
    (hn : n < bs.length) : (link.write bs n).Sound := by
  have hwithin := h.write hnext n
  have hlost : (link.write bs n).lost = true := by
    unfold Link.write
    split
    · assumption
    · exact decide_eq_true hn
  rw [Within, if_pos hlost] at hwithin
  rw [Sound, if_pos hlost]
  exact hwithin

end Link

namespace Connection

/-! ## Between calls, and in the middle of a frame -/

/-- Between calls: no connection carries anything but frames, and the one that would be
used next is not in the middle of one. -/
structure Inv (c : Connection) : Prop where
  former : ∀ link ∈ c.former, InFrames link.bytes
  writer : ∀ link, c.writer = some link → InFrames link.bytes
  sound : c.connected = true → ∃ link, c.writer = some link ∧ link.Sound

/-- The part `done` of a frame has been sent. -/
structure MidFrame (f : Frame) (done : Bytes) (c : Connection) : Prop where
  former : ∀ link ∈ c.former, InFrames link.bytes
  within : ∃ link, c.writer = some link ∧ link.Within done
  cut : done <+: f.bytes

theorem inv_new : new.Inv where
  former := fun _ h => absurd h (by simp [new])
  writer := fun _ h => absurd h (by simp [new])
  sound := fun h => absurd h (by simp [new])

theorem Inv.links {c : Connection} (h : c.Inv) : ∀ link ∈ c.links, InFrames link.bytes := by
  intro link hlink
  rcases List.mem_append.mp hlink with hlink | hlink
  · exact h.former link hlink
  · exact h.writer link (Option.mem_toList.mp hlink)

/-- Without a connection that would be used, nothing can be in the middle of a frame. -/
theorem inv_of_unconnected {c : Connection} (hlinks : ∀ link ∈ c.links, InFrames link.bytes)
    (hconnected : c.connected = false) : c.Inv where
  former := fun link h => hlinks link (List.mem_append_left _ h)
  writer := fun link h => hlinks link (List.mem_append_right _ (Option.mem_toList.mpr h))
  sound := fun h => absurd (hconnected.symm.trans h) (by decide)

section Pieces

variable {f : Frame} {done bs : Bytes} {c : Connection}

theorem MidFrame.links (h : c.MidFrame f done) : ∀ link ∈ c.links, InFrames link.bytes := by
  obtain ⟨current, hwriter, hwithin⟩ := h.within
  intro link hlink
  rcases List.mem_append.mp hlink with hlink | hlink
  · exact h.former link hlink
  · rw [hwriter, Option.toList_some, List.mem_singleton] at hlink
    rw [hlink]
    exact hwithin.inFrames h.cut

theorem MidFrame.writer_ne_none (h : c.MidFrame f done) : c.writer ≠ none := by
  obtain ⟨link, hwriter, _⟩ := h.within
  rw [hwriter]
  exact Option.some_ne_none link

/-- **The next piece**: the frame goes on, or the connection is lost. -/
theorem MidFrame.write (h : c.MidFrame f done) (hnext : done ++ bs <+: f.bytes) (n : Nat) :
    (c.write bs n).MidFrame f (done ++ bs) := by
  obtain ⟨link, hwriter, hwithin⟩ := h.within
  refine ⟨h.former, ⟨link.write bs n, ?_, hwithin.write hnext n⟩, hnext⟩
  show c.writer.map (Link.write bs n) = _
  rw [hwriter, Option.map_some]

/-- The method ends behind the last piece. -/
theorem MidFrame.inv (h : c.MidFrame f f.bytes) : c.Inv where
  former := h.former
  writer := by
    obtain ⟨current, hwriter, hwithin⟩ := h.within
    intro link hlink
    rw [hwriter, Option.some.injEq] at hlink
    exact hlink ▸ hwithin.sound.inFrames
  sound := by
    intro _
    obtain ⟨current, hwriter, hwithin⟩ := h.within
    exact ⟨current, hwriter, hwithin.sound⟩

/-- The method ends with a piece that is cut, or that is the last one. -/
theorem MidFrame.inv_of_broken (h : c.MidFrame f done) (hnext : done ++ bs <+: f.bytes) {n : Nat}
    (hend : n < bs.length ∨ done ++ bs = f.bytes) : (c.write bs n).Inv := by
  rcases hend with hn | hall
  · obtain ⟨link, hwriter, hwithin⟩ := h.within
    have hsound := hwithin.sound_of_cut hnext hn
    have hwritten : (c.write bs n).writer = some (link.write bs n) := by
      show c.writer.map (Link.write bs n) = _
      rw [hwriter, Option.map_some]
    refine ⟨h.former, ?_, fun _ => ⟨_, hwritten, hsound⟩⟩
    intro other hother
    rw [hwritten, Option.some.injEq] at hother
    exact hother ▸ hsound.inFrames
  · have hmid := h.write hnext n
    rw [hall] at hmid
    exact hmid.inv

end Pieces

end Connection

/-! ## The messages of a frame -/

/-- The messages are the pieces of a frame, as far as they can be encoded, up to the point
at which the method raises. -/
def Spells : List (Option PyStr) → List Bytes → Prop
  | [], pieces => pieces = []
  | none :: _, _ => True
  | some _ :: _, [] => False
  | some message :: script, piece :: pieces =>
      (Latin1 message → latin1Bytes message = piece) ∧ Spells script pieces

/-- Behind the first piece: every message can be encoded, and `send` returns, or the
connection is not used again, or the frame was complete. -/
def Continues : List (Option PyStr) → (Nat → Fate) → Prop
  | [], _ => True
  | none :: _, _ => False
  | some message :: script, fates => Latin1 message ∧
      match (fates 0).drain with
      | .returns => Continues script (fun k => fates (k + 1))
      | .raises n => n < message.length ∨ script = []
      | .resets _ => (fates 0).closes = false ∨ (fates 0).connects = false

/-- A frame is begun: its first piece may be repeated on a new connection. -/
def Begins : List (Option PyStr) → (Nat → Fate) → Prop
  | [], _ => True
  | none :: _, _ => True
  | some message :: script, fates =>
      match (fates 0).drain with
      | .returns => Continues script (fun k => fates (k + 1))
      | .raises n => n < message.length ∨ script = []
      | .resets _ => (fates 0).closes = true → (fates 0).connects = true →
          match (fates 0).again with
          | .returns => Continues script (fun k => fates (k + 1))
          | .raises n => n < message.length ∨ script = []
          | .resets n => n < message.length ∨ script = []

namespace Connection

variable {f : Frame}

theorem close_links (closes : Bool) (c : Connection) :
    (c.close closes).2.links = c.links ∧ (c.close closes).2.connected = false := by
  unfold close
  split
  · exact ⟨List.append_nil _, rfl⟩
  · exact ⟨rfl, rfl⟩

/-- `close` leaves nothing that could be in the middle of a frame. -/
theorem inv_close {c : Connection} (hlinks : ∀ link ∈ c.links, InFrames link.bytes)
    (closes : Bool) : (c.close closes).2.Inv := by
  obtain ⟨hsame, hconnected⟩ := close_links closes c
  rw [← hsame] at hlinks
  exact inv_of_unconnected hlinks hconnected

/-- A new connection in place of the old one. -/
def reopened (c : Connection) : Connection where
  connected := true
  writer := some ⟨[], false⟩
  former := c.links

theorem midFrame_reopened {c : Connection} (hlinks : ∀ link ∈ c.links, InFrames link.bytes) :
    c.reopened.MidFrame f [] where
  former := hlinks
  within := ⟨_, rfl, [], whole_nil, rfl⟩
  cut := List.nil_prefix

theorem inv_reopened {c : Connection} (hlinks : ∀ link ∈ c.links, InFrames link.bytes) :
    c.reopened.Inv where
  former := hlinks
  writer := by
    intro link hlink
    rw [← Option.some.inj hlink]
    exact whole_nil.inFrames
  sound := fun _ => ⟨_, rfl, whole_nil⟩

/-- The connection is not opened again. -/
theorem resend_of_abandoned {c : Connection} (hlinks : ∀ link ∈ c.links, InFrames link.bytes)
    (hwriter : c.writer ≠ none) (bs : Bytes) {fate : Fate}
    (h : fate.closes = false ∨ fate.connects = false) :
    ∃ c', c.resend bs fate = (false, c') ∧ c'.Inv := by
  have hinv := inv_close hlinks fate.closes
  unfold resend
  cases hclose : c.close fate.closes with
  | mk closed c' =>
      rw [hclose] at hinv
      cases closed with
      | false => exact ⟨c', rfl, hinv⟩
      | true =>
          have hconnects : fate.connects = false := by
            refine h.resolve_left ?_
            intro hcloses
            have hraises : c.close false = (false, { c with connected := false }) :=
              if_neg (by simpa using hwriter)
            rw [hcloses, hraises] at hclose
            exact absurd (congrArg Prod.fst hclose) (by simp)
          rw [hconnects]
          exact ⟨c', rfl, hinv⟩

/-- The message is repeated on a new connection. -/
theorem resend_of_reopened {c : Connection} {bs : Bytes} {fate : Fate}
    (hcloses : fate.closes = true) (hconnects : fate.connects = true) :
    c.resend bs fate =
      match fate.again with
      | .returns => (true, c.reopened.write bs bs.length)
      | .raises n => (false, c.reopened.write bs n)
      | .resets n => (false, c.reopened.write bs n) := by
  have hclose : c.close true = (true, { connected := false, writer := none, former := c.links }) :=
    if_pos (by simp)
  have hlinks : links { connected := false, writer := none, former := c.links } = c.links :=
    List.append_nil _
  have hconnect : connect true { connected := false, writer := none, former := c.links } =
      (true, c.reopened) := by
    unfold connect reopened
    rw [if_pos rfl, hlinks]
  rw [resend, hcloses, hclose, hconnects]
  simp only [hconnect]

section Send

variable {message : PyStr} {link : Link} {c c' : Connection} {script : List (Option PyStr)}
  {fate : Fate} {fates : Nat → Fate}

theorem send_of_returns (hwriter : c.writer = some link) (hlatin : Latin1 message)
    (hdrain : fate.drain = .returns) :
    c.send message fate = (true, c.write (latin1Bytes message) (latin1Bytes message).length) := by
  rw [send, hwriter, encodeLatin1_eq_some.mpr ⟨hlatin, rfl⟩, hdrain]
  rfl

theorem send_of_raises (hwriter : c.writer = some link) (hlatin : Latin1 message) {n : Nat}
    (hdrain : fate.drain = .raises n) :
    c.send message fate = (false, c.write (latin1Bytes message) n) := by
  rw [send, hwriter, encodeLatin1_eq_some.mpr ⟨hlatin, rfl⟩, hdrain]
  rfl

theorem send_of_resets (hwriter : c.writer = some link) (hlatin : Latin1 message) {n : Nat}
    (hdrain : fate.drain = .resets n) :
    c.send message fate =
      (c.write (latin1Bytes message) n).resend (latin1Bytes message) fate := by
  rw [send, hwriter, encodeLatin1_eq_some.mpr ⟨hlatin, rfl⟩, hdrain]
  rfl

/-- A character that is not Latin-1: nothing is written. -/
theorem send_of_not_latin1 (hlatin : ¬ Latin1 message) : c.send message fate = (false, c) := by
  have hnone : encodeLatin1 message = none := by
    cases hencode : encodeLatin1 message with
    | none => rfl
    | some bs => exact absurd (encodeLatin1_eq_some.mp hencode).1 hlatin
  rw [send, hnone]
  split
  · rfl
  · rfl

theorem sendAll_of_returned (h : c.send message (fates 0) = (true, c')) :
    c.sendAll (some message :: script) fates = c'.sendAll script (fun k => fates (k + 1)) := by
  rw [sendAll, h]

theorem sendAll_of_raised (h : c.send message (fates 0) = (false, c')) :
    c.sendAll (some message :: script) fates = (false, c') := by
  rw [sendAll, h]

end Send

/-- What a method has to leave behind: the whole frame, or nothing in the middle of one. -/
def Leaves (f : Frame) (r : Bool × Connection) : Prop :=
  (r.1 = true → r.2.MidFrame f f.bytes) ∧ (r.1 = false → r.2.Inv)

theorem Leaves.raised {c : Connection} (h : c.Inv) : Leaves f (false, c) :=
  ⟨fun h => absurd h Bool.false_ne_true, fun _ => h⟩

theorem Leaves.inv {r : Bool × Connection} (h : Leaves f r) : r.2.Inv := by
  cases hreturned : r.1 with
  | true => exact (h.1 hreturned).inv
  | false => exact h.2 hreturned

/-- **The rest of a frame.** -/
theorem sendAll_continues {script : List (Option PyStr)} {pieces : List Bytes}
    {fates : Nat → Fate} {done : Bytes} {c : Connection} (h : c.MidFrame f done)
    (hspells : Spells script pieces) (hall : done ++ pieces.flatten = f.bytes)
    (hcontinues : Continues script fates) : Leaves f (c.sendAll script fates) := by
  induction script generalizing pieces fates done c with
  | nil =>
      have hpieces : pieces = [] := hspells
      rw [hpieces, List.flatten_nil, List.append_nil] at hall
      subst hall
      exact ⟨fun _ => h, fun h => absurd h.symm Bool.false_ne_true⟩
  | cons entry script ih =>
      cases entry with
      | none => exact absurd hcontinues (by simp [Continues])
      | some message =>
          cases pieces with
          | nil => exact absurd hspells (by simp [Spells])
          | cons piece pieces =>
              obtain ⟨hlatin, hfate⟩ := hcontinues
              obtain ⟨hpiece, hspells⟩ := hspells
              obtain ⟨link, hwriter, _⟩ := h.within
              rw [← hpiece hlatin, List.flatten_cons, ← List.append_assoc] at hall
              have hnext : done ++ latin1Bytes message <+: f.bytes := ⟨_, hall⟩
              cases hdrain : (fates 0).drain with
              | returns =>
                  rw [hdrain] at hfate
                  rw [sendAll_of_returned (send_of_returns hwriter hlatin hdrain)]
                  exact ih (h.write hnext _) hspells hall hfate
              | raises n =>
                  rw [hdrain] at hfate
                  rw [sendAll_of_raised (send_of_raises hwriter hlatin hdrain)]
                  refine Leaves.raised (h.inv_of_broken hnext ?_)
                  rw [latin1Bytes_length]
                  refine hfate.imp_right ?_
                  rintro rfl
                  rw [show pieces = [] from hspells, List.flatten_nil, List.append_nil] at hall
                  exact hall
              | resets n =>
                  rw [hdrain] at hfate
                  have hmid := h.write hnext n
                  obtain ⟨c', hresend, hinv⟩ := resend_of_abandoned hmid.links
                    hmid.writer_ne_none (latin1Bytes message) hfate
                  have hsend := send_of_resets hwriter hlatin hdrain
                  rw [hresend] at hsend
                  rw [sendAll_of_raised hsend]
                  exact Leaves.raised hinv

/-- **A frame is begun** between two others, or on a new connection. -/
theorem sendAll_begins {script : List (Option PyStr)} {pieces : List Bytes}
    {fates : Nat → Fate} {c : Connection} (h : c.Inv) (hconnected : c.connected = true)
    (hspells : Spells script pieces) (hall : pieces.flatten = f.bytes)
    (hbegins : Begins script fates) : (c.sendAll script fates).2.Inv := by
  obtain ⟨link, hwriter, hsound⟩ := h.sound hconnected
  cases script with
  | nil => exact h
  | cons entry script =>
      cases entry with
      | none => exact h
      | some message =>
          cases pieces with
          | nil => exact absurd hspells (by simp [Spells])
          | cons piece pieces =>
              obtain ⟨hpiece, hspells⟩ := hspells
              by_cases hlatin : Latin1 message
              swap
              · rw [sendAll_of_raised (send_of_not_latin1 hlatin)]
                exact h
              rw [← hpiece hlatin, List.flatten_cons] at hall
              have hnext : [] ++ latin1Bytes message <+: f.bytes := ⟨_, hall⟩
              have hmid : c.MidFrame f [] :=
                ⟨h.former, ⟨link, hwriter, hsound.within⟩, List.nil_prefix⟩
              -- the first piece goes out on this connection or on a new one
              have hreturns : ∀ {c : Connection}, c.MidFrame f [] →
                  Continues script (fun k => fates (k + 1)) →
                  ((c.write (latin1Bytes message) (latin1Bytes message).length).sendAll
                    script (fun k => fates (k + 1))).2.Inv := by
                intro c hmid hcontinues
                exact (sendAll_continues (hmid.write hnext _) hspells hall hcontinues).inv
              have hraises : ∀ {c : Connection} {n : Nat}, c.MidFrame f [] →
                  n < message.length ∨ script = [] →
                  (c.write (latin1Bytes message) n).Inv := by
                intro c n hmid hend
                refine hmid.inv_of_broken hnext ?_
                rw [latin1Bytes_length]
                refine hend.imp_right ?_
                rintro rfl
                rw [show pieces = [] from hspells, List.flatten_nil, List.append_nil] at hall
                exact hall
              cases hdrain : (fates 0).drain with
              | returns =>
                  rw [Begins, hdrain] at hbegins
                  rw [sendAll_of_returned (send_of_returns hwriter hlatin hdrain)]
                  exact hreturns hmid hbegins
              | raises n =>
                  rw [Begins, hdrain] at hbegins
                  rw [sendAll_of_raised (send_of_raises hwriter hlatin hdrain)]
                  exact hraises hmid hbegins
              | resets n =>
                  rw [Begins, hdrain] at hbegins
                  have hsend := send_of_resets hwriter hlatin hdrain
                  have hlinks := (hmid.write hnext n).links
                  by_cases hopen : (fates 0).closes = true ∧ (fates 0).connects = true
                  · have hagain := hbegins hopen.1 hopen.2
                    rw [resend_of_reopened hopen.1 hopen.2] at hsend
                    have hfresh := midFrame_reopened (f := f) hlinks
                    cases hsecond : (fates 0).again with
                    | returns =>
                        rw [hsecond] at hagain hsend
                        rw [sendAll_of_returned hsend]
                        exact hreturns hfresh hagain
                    | raises m =>
                        rw [hsecond] at hagain hsend
                        rw [sendAll_of_raised hsend]
                        exact hraises hfresh hagain
                    | resets m =>
                        rw [hsecond] at hagain hsend
                        rw [sendAll_of_raised hsend]
                        exact hraises hfresh hagain
                  · have hfate : (fates 0).closes = false ∨ (fates 0).connects = false := by
                      rw [not_and_or, Bool.not_eq_true, Bool.not_eq_true] at hopen
                      exact hopen
                    obtain ⟨c', hresend, hinv⟩ := resend_of_abandoned hlinks
                      (hmid.write hnext n).writer_ne_none (latin1Bytes message) hfate
                    rw [hresend] at hsend
                    rw [sendAll_of_raised hsend]
                    exact hinv

end Connection

/-! ## The frame of a call -/

/-- Messages that agree as far as they can be encoded. -/
def SameWhenLatin1 (m m' : PyStr) : Prop := Latin1 m → m = m'

theorem spells_of_same {ms ms' : List PyStr} (h : List.Forall₂ SameWhenLatin1 ms ms') :
    Spells (ms.map some) (ms'.map latin1Bytes) := by
  induction h with
  | nil => rfl
  | cons hm _ ih => exact ⟨fun hlatin => by rw [hm hlatin], ih⟩

/-- The same, when the method raises behind some of them. -/
theorem spells_take_of_same {ms ms' : List PyStr} (h : List.Forall₂ SameWhenLatin1 ms ms')
    (n : Nat) : Spells ((ms.take n).map some ++ [none]) (ms'.map latin1Bytes) := by
  induction h generalizing n with
  | nil =>
      rw [List.take_nil]
      exact trivial
  | cons hm _ ih =>
      cases n with
      | zero => exact trivial
      | succ n => exact ⟨fun hlatin => by rw [hm hlatin], ih n⟩

/-- An id with a Latin-1 character in place of any other. -/
def clamp (id : PyStr) : PyStr := id.map (fun c => if c.toNat < 256 then c else 'a')

@[simp] theorem clamp_length (id : PyStr) : (clamp id).length = id.length := List.length_map _

theorem latin1_clamp (id : PyStr) : Latin1 (clamp id) := by
  intro c hc
  obtain ⟨c', _, rfl⟩ := List.mem_map.mp hc
  by_cases hlt : c'.toNat < 256
  · rw [if_pos hlt]
    exact hlt
  · rw [if_neg hlt]
    decide

theorem clamp_of_latin1 {id : PyStr} (h : Latin1 id) : clamp id = id := by
  conv_rhs => rw [← List.map_id id]
  exact List.map_congr_left (fun c hc => if_pos (h c hc))

/-- **The pieces of an ADD** are those of a frame, up to a character that is not Latin-1. -/
theorem addCall_spelled {ids : List PyStr} {embeddings : List (List F32)} {ms : List PyStr}
    (hmessages : Client.addMessages ids embeddings = some ms)
    (hsized : (Call.addCall ids embeddings).Sized) :
    ∃ (f : Frame) (ms' : List PyStr), List.Forall₂ SameWhenLatin1 ms ms' ∧
      (ms'.map latin1Bytes).flatten = f.bytes := by
  have hlen : ids.length = embeddings.length := by
    by_contra hne
    rw [Client.addMessages, if_neg hne] at hmessages
    exact absurd hmessages (by simp)
  have hspec := hmessages
  rw [Client.addMessages, if_pos hlen] at hspec
  simp only [Option.bind_eq_bind, Option.bind_eq_some_iff, packQ_eq_some] at hspec
  obtain ⟨first, hfirst, _, _, _, ⟨hsize, _⟩, _⟩ := hspec
  rw [← hsized first hfirst, ← idsSize_latin1, Nat.mul_comm _ 4] at hsize
  have hne : embeddings ≠ [] := by
    rintro rfl
    exact absurd hfirst (by simp)
  -- ids of the same lengths that can be encoded
  have hlen' : (ids.map clamp).length = embeddings.length := by rw [List.length_map, hlen]
  have hsized' : (Call.addCall (ids.map clamp) embeddings).Sized := hsized
  have hlengths : (ids.map clamp).map List.length = ids.map List.length := by
    rw [List.map_map]
    exact List.map_congr_left (fun id _ => clamp_length id)
  have hsum : idsSize ((ids.map clamp).map latin1Bytes) = idsSize (ids.map latin1Bytes) := by
    rw [idsSize_latin1, idsSize_latin1, hlengths, List.length_map]
  have hencodable : (Call.addCall (ids.map clamp) embeddings).Encodable := by
    refine ⟨hlen', hne, ?_, by rw [hsum]; exact hsize⟩
    intro id hid
    obtain ⟨id', _, rfl⟩ := List.mem_map.mp hid
    exact latin1_clamp id'
  have hclamped := addMessages_eq_some hlen' hne hsized' hencodable.2.2.2
  rw [addMessages_eq_some hlen hne hsized hsize, Option.some.injEq] at hmessages
  obtain ⟨ms', hms', _, hflatten⟩ := written_eq_some.mp (written_addCall hsized' hencodable)
  rw [Call.messages, hclamped, Option.some.injEq] at hms'
  refine ⟨_, ms', ?_, hflatten⟩
  rw [← hmessages, ← hms', hsum, List.length_map, List.map_map]
  have hsame : ∀ xs : List PyStr, List.Forall₂ SameWhenLatin1 xs xs :=
    fun xs => List.forall₂_same.mpr (fun _ _ _ => rfl)
  refine List.rel_append (List.rel_append (List.rel_append (List.rel_append (hsame _) ?_)
    (hsame _)) (hsame _)) (hsame _)
  rw [List.forall₂_map_right_iff, List.forall₂_map_left_iff, List.forall₂_same]
  intro id _ hlatin
  show decodeLatin1 (toLE 8 id.length) ++ id = decodeLatin1 (toLE 8 (clamp id).length) ++ clamp id
  rw [clamp_of_latin1 (latin1_append.mp hlatin).2]

/-- The call is not an ADD. -/
def Call.isWhole : Call → Bool
  | .initializeCall _ _ _ => true
  | .trainCall _ => true
  | .addCall _ _ => false
  | .loadCall _ _ => true
  | .searchCall _ _ _ _ => true
  | .evictCall _ _ => true

/-- A method that sends its command in one message has checked the size of it. -/
theorem single_message {call : Call} (hwhole : call.isWhole = true) {ms : List PyStr}
    (h : call.messages = some ms) : call.Sized ∧ ∃ m, ms = [m] ∧ Latin1 m := by
  have hcount : ∀ {text : PyStr} {count : Nat} {vector : List F32}, Latin1 text →
      Client.countMessages text count vector = some ms → ∃ m, ms = [m] ∧ Latin1 m := by
    intro text count vector htext h
    simp only [Client.countMessages, Option.bind_eq_bind, Option.bind_eq_some_iff,
      Option.some.injEq] at h
    obtain ⟨_, _, _, _, h⟩ := h
    exact ⟨_, h.symm, latin1_formatCommand htext _ _⟩
  cases call with
  | initializeCall d dbUrl options =>
      simp only [Call.messages, Client.initializeMessages, Option.bind_eq_bind,
        Option.bind_eq_some_iff, Option.some.injEq] at h
      obtain ⟨_, _, _, _, _, _, _, _, _, _, h⟩ := h
      exact ⟨trivial, _, h.symm, latin1_formatCommand (by decide) _ _⟩
  | trainCall trainingData =>
      simp only [Call.messages, Client.trainMessages, Option.bind_eq_bind,
        Option.bind_eq_some_iff] at h
      obtain ⟨first, hfirst, _, _, h⟩ := h
      rw [Option.ite_none_right_eq_some, Option.some.injEq] at h
      obtain ⟨hbytes, h⟩ := h
      refine ⟨?_, _, h.symm, latin1_formatCommand (by decide) _ _⟩
      intro v hv
      rw [hfirst, Option.some.injEq] at hv
      rw [packFloats, floatBytes_length, hv] at hbytes
      omega
  | addCall ids embeddings => exact absurd hwhole (by simp [Call.isWhole])
  | loadCall xq nLoad =>
      rw [Call.messages, Client.loadMessages_eq] at h
      exact ⟨trivial, hcount (by decide) h⟩
  | searchCall k xq nProbe requireAll =>
      simp only [Call.messages, Client.searchMessages, Option.bind_eq_bind,
        Option.bind_eq_some_iff, Option.some.injEq] at h
      obtain ⟨_, _, _, _, _, _, _, _, h⟩ := h
      exact ⟨trivial, _, h.symm, latin1_formatCommand (by decide) _ _⟩
  | evictCall vector nEvict => exact ⟨trivial, hcount (by decide) h⟩

/-- **The one message of a call** is its frame. -/
theorem whole_spelled {call : Call} (hwhole : call.isWhole = true) {ms : List PyStr}
    (h : call.messages = some ms) :
    ∃ (f : Frame) (m : PyStr), ms = [m] ∧ latin1Bytes m = f.bytes := by
  obtain ⟨hsized, m, rfl, hlatin⟩ := single_message hwhole h
  have hwritten : call.written = some (latin1Bytes m) := by
    rw [written_eq_some]
    refine ⟨[m], h, ?_, List.append_nil _⟩
    intro m' hm'
    rw [List.mem_singleton.mp hm']
    exact hlatin
  have hencodable := encodable_of_written hsized hwritten
  rw [written_frame hsized hencodable, Option.some.injEq] at hwritten
  exact ⟨_, m, rfl, hwritten.symm⟩

namespace Connection

/-! ## Runs -/

/-- The call does not break a frame.  An ADD that gets a connection has vectors that make
up the size computed from the first one, and is not broken off behind its first piece. -/
def Careful (c : Connection) (a : Attempt) (w : Weather) : Prop :=
  a.call.isWhole = true ∨ (c.connected = false ∧ w.connects = false) ∨
    a.call.messages = none ∨ (a.call.Sized ∧ Begins a.script w.fates)

/-- All calls of a sequence are careful. -/
def AllCareful (c : Connection) : List (Attempt × Weather) → Prop
  | [] => True
  | step :: steps => c.Careful step.1 step.2 ∧ (c.perform step.1 step.2).AllCareful steps

/-- A frame of one piece cannot be broken off. -/
theorem begins_single (m : PyStr) (fates : Nat → Fate) : Begins [some m] fates := by
  rw [Begins]
  cases (fates 0).drain with
  | returns => exact trivial
  | raises n => exact Or.inr rfl
  | resets n =>
      intro _ _
      cases (fates 0).again with
      | returns => exact trivial
      | raises n => exact Or.inr rfl
      | resets n => exact Or.inr rfl

/-- A method that sends one message sends it, or raises before. -/
theorem script_whole {a : Attempt} (hwhole : a.call.isWhole = true) {m : PyStr}
    (h : a.call.messages = some [m]) : a.script = [some m] ∨ a.script = [none] := by
  unfold Attempt.script
  rw [h]
  cases a.refused with
  | none => exact Or.inl rfl
  | some j =>
      cases hcall : a.call with
      | addCall ids embeddings =>
          rw [hcall] at hwhole
          exact absurd hwhole (by simp [Call.isWhole])
      | initializeCall d dbUrl options => exact Or.inr rfl
      | trainCall trainingData => exact Or.inr rfl
      | loadCall xq nLoad => exact Or.inr rfl
      | searchCall k xq nProbe requireAll => exact Or.inr rfl
      | evictCall vector nEvict => exact Or.inr rfl

/-- ADD sends the pieces of a frame, up to the point at which it raises. -/
theorem script_add {a : Attempt} {ids : List PyStr} {embeddings : List (List F32)}
    (hcall : a.call = .addCall ids embeddings) (hsized : a.call.Sized) {ms : List PyStr}
    (h : a.call.messages = some ms) :
    ∃ (f : Frame) (pieces : List Bytes), Spells a.script pieces ∧ pieces.flatten = f.bytes := by
  rw [hcall] at hsized h
  obtain ⟨f, ms', hsame, hframe⟩ := addCall_spelled h hsized
  refine ⟨f, ms'.map latin1Bytes, ?_, hframe⟩
  unfold Attempt.script
  rw [hcall, h]
  cases a.refused with
  | none => exact spells_of_same hsame
  | some j =>
      show Spells (if j < embeddings.length then _ else _) _
      split
      · exact spells_take_of_same hsame _
      · exact spells_of_same hsame

/-- What a careful call sends, on a connection between two frames. -/
theorem sendAll_careful {c : Connection} (h : c.Inv) (hconnected : c.connected = true)
    {a : Attempt} {w : Weather}
    (hcareful : a.call.isWhole = true ∨ a.call.messages = none ∨
      (a.call.Sized ∧ Begins a.script w.fates)) : (c.sendAll a.script w.fates).2.Inv := by
  cases hmessages : a.call.messages with
  | none =>
      have hscript : a.script = [none] := by rw [Attempt.script, hmessages]
      rw [hscript]
      exact h
  | some ms =>
      by_cases hwhole : a.call.isWhole = true
      · obtain ⟨f, m, rfl, hframe⟩ := whole_spelled hwhole hmessages
        rcases script_whole hwhole hmessages with hscript | hscript
        · rw [hscript]
          have hspells : Spells [some m] [latin1Bytes m] := ⟨fun _ => rfl, rfl⟩
          have hall : [latin1Bytes m].flatten = f.bytes := by
            rw [List.flatten_singleton, hframe]
          exact sendAll_begins h hconnected hspells hall (begins_single m w.fates)
        · rw [hscript]
          exact h
      · rcases hcareful with hcareful | hcareful | ⟨hsized, hbegins⟩
        · exact absurd hcareful hwhole
        · rw [hmessages] at hcareful
          exact absurd hcareful (by simp)
        · cases hcall : a.call with
          | addCall ids embeddings =>
              obtain ⟨f, pieces, hspells, hall⟩ := script_add hcall hsized hmessages
              exact sendAll_begins h hconnected hspells hall hbegins
          | initializeCall d dbUrl options => exact absurd (by rw [hcall]; rfl) hwhole
          | trainCall trainingData => exact absurd (by rw [hcall]; rfl) hwhole
          | loadCall xq nLoad => exact absurd (by rw [hcall]; rfl) hwhole
          | searchCall k xq nProbe requireAll => exact absurd (by rw [hcall]; rfl) hwhole
          | evictCall vector nEvict => exact absurd (by rw [hcall]; rfl) hwhole

theorem Inv.exchange {c : Connection} (h : c.Inv) (hconnected : c.connected = true)
    {a : Attempt} {w : Weather}
    (hcareful : a.call.isWhole = true ∨ a.call.messages = none ∨
      (a.call.Sized ∧ Begins a.script w.fates)) : (c.exchange a w).Inv := by
  have hinv := sendAll_careful h hconnected hcareful
  unfold Connection.exchange
  split
  · next c' hsend =>
      rw [hsend] at hinv
      exact hinv
  · next c' hsend =>
      rw [hsend] at hinv
      split
      · exact inv_close hinv.links w.closes
      · exact hinv

/-- **A careful call** ends between two frames, or without a connection. -/
theorem Inv.perform {c : Connection} (h : c.Inv) {a : Attempt} {w : Weather}
    (hcareful : c.Careful a w) : (c.perform a w).Inv := by
  unfold Connection.perform
  by_cases hconnected : c.connected = true
  · rw [if_pos hconnected]
    refine h.exchange hconnected ?_
    rcases hcareful with hwhole | ⟨hnot, _⟩ | hcareful
    · exact Or.inl hwhole
    · exact absurd hconnected (by rw [hnot]; decide)
    · exact Or.inr hcareful
  · rw [if_neg hconnected]
    cases hconnects : w.connects with
    | false => exact h
    | true =>
        have hconnect : c.connect true = (true, c.reopened) := if_pos rfl
        rw [hconnect]
        refine (inv_reopened h.links).exchange rfl ?_
        rcases hcareful with hwhole | ⟨_, hnot⟩ | hcareful
        · exact Or.inl hwhole
        · exact absurd hconnects (by rw [hnot]; decide)
        · exact Or.inr hcareful

theorem Inv.steps {c : Connection} (h : c.Inv) {steps : List (Attempt × Weather)}
    (hcareful : c.AllCareful steps) :
    (steps.foldl (fun c step => c.perform step.1 step.2) c).Inv := by
  induction steps generalizing c with
  | nil => exact h
  | cons step steps ih => exact ih (h.perform hcareful.1) hcareful.2

/-- **What goes out on each connection.**  In a run in which no ADD breaks its frame, and
however every operation ends, each connection carries complete frames, of which the last
may be cut. -/
theorem run_inFrames (steps : List (Attempt × Weather)) (hcareful : new.AllCareful steps) :
    ∀ link ∈ (run steps).links, InFrames link.bytes :=
  (inv_new.steps hcareful).links

/-- Without faults, a frame goes on to its end. -/
theorem continues_of_returns {ms : List PyStr} {fates : Nat → Fate}
    (hlatin : ∀ m ∈ ms, Latin1 m) (hreturns : ∀ k, (fates k).drain = .returns) :
    Continues (ms.map some) fates := by
  induction ms generalizing fates with
  | nil => exact trivial
  | cons m ms ih =>
      rw [List.forall_mem_cons] at hlatin
      rw [List.map_cons, Continues, hreturns 0]
      exact ⟨hlatin.1, ih hlatin.2 (fun k => hreturns (k + 1))⟩

/-- An ADD of one id and one vector. -/
def sampleAdd : Attempt where
  call := .addCall [['a']] [[0x3F800000]]

/-- An INITIALIZE that is cut, an ADD whose first piece meets a reset and is repeated, and
a LOAD whose answer cannot be read. -/
def carefulSteps : List (Attempt × Weather) :=
  [({ call := .initializeCall 1 ['u'] { nRecords := some 1 } },
      { fates := fun _ => { drain := .raises 3 } }),
    (sampleAdd, { fates := fun k => if k = 0 then { drain := .resets 0 } else {} }),
    ({ call := .loadCall [0x3F800000] none }, { receives := false })]

theorem run_inFrames_carefulSteps :
    (run carefulSteps).links.map (fun link => link.bytes.length) = [3, 38, 29] ∧
      ∀ link ∈ (run carefulSteps).links, InFrames link.bytes := by
  refine ⟨by decide +kernel, run_inFrames carefulSteps
    ⟨Or.inl rfl, Or.inr (Or.inr (Or.inr ⟨?_, ?_⟩)), Or.inl rfl, trivial⟩⟩
  · intro v hv
    rw [← Option.some.inj hv]
    rfl
  · obtain ⟨m, ms, hscript, hlatin⟩ : ∃ m, ∃ ms : List PyStr,
        sampleAdd.script = some m :: ms.map some ∧ ∀ m ∈ ms, Latin1 m :=
      ⟨_, _, rfl, by decide⟩
    show Begins sampleAdd.script _
    rw [hscript]
    intro _ _
    exact continues_of_returns hlatin (fun k => rfl)

/-- The second piece of an ADD meets a reset: the frame goes on on the new connection. -/
def brokenSteps : List (Attempt × Weather) :=
  [(sampleAdd, { fates := fun k => if k = 1 then { drain := .resets 0 } else {} })]

theorem run_inFrames_fails :
    ∃ link ∈ (run brokenSteps).links,
      link.bytes = [1, 0, 0, 0, 0, 0, 0, 0, 97, 10, 0, 0, 0x80, 0x3F, 13, 10] ∧
        ¬ InFrames link.bytes := by
  refine ⟨⟨[1, 0, 0, 0, 0, 0, 0, 0, 97, 10, 0, 0, 0x80, 0x3F, 13, 10], false⟩,
    by decide +kernel, rfl, ?_⟩
  intro h
  obtain ⟨command, hcommand⟩ := h.head
  cases command <;> exact absurd hcommand (by decide)

end Connection

end Periplus.Ports
