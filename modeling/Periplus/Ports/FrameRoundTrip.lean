import Periplus.Ports.ClientFrames

/-!
# The server decodes what the client encodes

`decodeFrame` reads one command from a stream that holds all of it: the command
line as `read_command` takes it, the arguments that a ready cache makes for it,
and their two parts.

The names of the commands contain neither a carriage return nor a line feed, so
the line ends where the client ended it.  Everything behind it is read by length;
a payload that looks like a delimiter is read like any other.
-/

namespace Periplus.Ports

open Periplus.Verified.Memory
open Periplus.Verified.Reader
open Periplus.Verified.Run

/-- The arguments a ready cache makes for a command line. -/
def acceptCommand (command : Bytes) : Parser Args := StateT.lift (Cache.matchReady command)

/-- One command, from a stream that holds it. -/
def decodeFrame : Parser Args := do
  let command ← getCommand
  let args ← acceptCommand command
  let args ← args.deserializeStatic
  args.deserializeDynamic

/-! ## The command line -/

theorem name_ne_lf (command : Command) : ∀ b ∈ command.name, b ≠ 0x0A := by
  have hall : command.name.all (fun b => decide (b ≠ 0x0A)) = true := by
    cases command <;> decide
  intro b hb
  exact of_decide_eq_true (List.all_eq_true.mp hall b hb)

theorem getCommand_line (command : Command) (rest : Bytes) (log : List Complaint) :
    getCommand ⟨command.line ++ rest, log⟩ = .ok (command.name, ⟨rest, log⟩) := by
  have hname : ∀ b ∈ command.name ++ [0x0D], (decide (b ≠ 0x0A)) = true := by
    intro b hb
    rw [decide_eq_true_eq]
    rcases List.mem_append.mp hb with hb | hb
    · exact name_ne_lf command b hb
    · rw [List.mem_singleton] at hb
      rw [hb]
      decide
  have hline : command.line ++ rest = (command.name ++ [0x0D]) ++ (0x0A :: rest) := by
    simp [Command.line]
  have hgetline : getline ⟨command.line ++ rest, log⟩ =
      .ok (command.name ++ [0x0D], ⟨rest, log⟩) := by
    rw [getline, hline]
    simp only [List.takeWhile_append_of_pos hname, List.dropWhile_append_of_pos hname]
    simp
  show (getline >>= fun line => pure (popCarriageReturn line)) _ = _
  rw [bind_apply, hgetline, ok_bind]
  show Except.ok (popCarriageReturn (command.name ++ [0x0D]), _) = _
  rw [popCarriageReturn, if_pos (by simp), List.dropLast_concat]

theorem matchReady_name (command : Command) :
    Cache.matchReady command.name = .ok command.newArgs := by
  cases command <;> rfl

/-! ## Frames -/

theorem decodeFrame_bytes (f : Frame) (rest : Bytes) (log : List Complaint) :
    decodeFrame ⟨f.bytes ++ rest, log⟩ = .ok (f.args, ⟨rest, log⟩) := by
  have hsplit : f.bytes ++ rest = f.command.line ++ (f.staticPart ++ (f.dynamicPart ++ rest)) := by
    simp only [Frame.bytes, List.append_assoc]
  rw [decodeFrame, bind_apply, hsplit, getCommand_line, ok_bind, bind_apply]
  show (acceptCommand f.command.name _ >>= _) = _
  rw [acceptCommand, matchReady_name]
  show (f.command.newArgs.deserializeStatic >>= Args.deserializeDynamic) _ = _
  rw [bind_apply, f.decodesStatic.reads, ok_bind]
  exact f.decodesDynamic.reads rest log

theorem decodeFrames_bytes (fs : List Frame) (rest : Bytes) (log : List Complaint) :
    readMany decodeFrame fs.length ⟨(fs.map Frame.bytes).flatten ++ rest, log⟩ =
      .ok (fs.map Frame.args, ⟨rest, log⟩) := by
  induction fs with
  | nil => rfl
  | cons f fs ih =>
      rw [List.length_cons, readMany, List.map_cons, List.flatten_cons, List.append_assoc,
        bind_apply, decodeFrame_bytes, ok_bind, bind_apply, ih, ok_bind]
      rfl

/-- The frames of calls that the client writes. -/
theorem frames_of_written {calls : List Call} (hU : ∀ call ∈ calls, call.Uniform)
    {written : List Bytes} (h : calls.mapM Call.written = some written) :
    ∃ fs : List Frame, fs.map Frame.bytes = written ∧ fs.map Frame.args = calls.map Call.args := by
  induction calls generalizing written with
  | nil =>
      simp only [List.mapM_nil, Option.pure_def, Option.some.injEq] at h
      exact ⟨[], h, rfl⟩
  | cons call calls ih =>
      simp only [List.mapM_cons, Option.bind_eq_bind, Option.bind_eq_some_iff, Option.pure_def,
        Option.some.injEq] at h
      obtain ⟨bs, hbs, written, hwritten, rfl⟩ := h
      rw [List.forall_mem_cons] at hU
      obtain ⟨fs, hbytes, hargs⟩ := ih hU.2 hwritten
      have hcall := encodable_of_written hU.1.sized hbs
      rw [written_frame hU.1.sized hcall, Option.some.injEq] at hbs
      refine ⟨call.frame hcall :: fs, ?_, ?_⟩
      · rw [List.map_cons, hbs, hbytes]
      · rw [List.map_cons, List.map_cons, Call.frame_args, hargs]

/-- **Decoding undoes encoding.**  The client writes a call exactly when its numbers
and strings can be encoded.  Any sequence of calls it writes is decoded to the
arguments with the values of the calls, with no complaint about a delimiter, and
what follows the last frame is left in the stream. -/
theorem decodeFrame_written (calls : List Call) (hU : ∀ call ∈ calls, call.Uniform) :
    (∀ call ∈ calls, call.written.isSome ↔ call.Encodable) ∧
      ∀ written, calls.mapM Call.written = some written → ∀ rest log,
        readMany decodeFrame calls.length ⟨written.flatten ++ rest, log⟩ =
          .ok (calls.map Call.args, ⟨rest, log⟩) := by
  constructor
  · intro call hcall
    constructor
    · intro hsome
      obtain ⟨bs, hbs⟩ := Option.isSome_iff_exists.mp hsome
      exact encodable_of_written (hU call hcall).sized hbs
    · intro hencodable
      rw [written_frame (hU call hcall).sized hencodable, Option.isSome_some]
  · intro written hwritten rest log
    obtain ⟨fs, hbytes, hargs⟩ := frames_of_written hU hwritten
    have hlen : calls.length = fs.length := by
      have := congrArg List.length hargs
      rwa [List.length_map, List.length_map, eq_comm] at this
    rw [hlen, ← hbytes, ← hargs]
    exact decodeFrames_bytes fs rest log

/-- Calls of which one has an id, and one a vector, made of delimiters. -/
def sampleCalls : List Call :=
  [.initializeCall 1 "u".toList {}, .addCall ["\r\n".toList] [[0x3F800000]],
    .searchCall 1 [[0x0A0D0A0D]] none none]

theorem decodeFrame_written_sampleCalls :
    ∃ written, sampleCalls.mapM Call.written = some written ∧
      readMany decodeFrame sampleCalls.length ⟨written.flatten ++ [0x0D], []⟩ =
        .ok (sampleCalls.map Call.args, ⟨[0x0D], []⟩) := by
  have hU : ∀ call ∈ sampleCalls, call.Uniform := by
    simp [sampleCalls, Call.Uniform]
  have hsome : (sampleCalls.mapM Call.written).isSome := by decide
  obtain ⟨written, hwritten⟩ := Option.isSome_iff_exists.mp hsome
  exact ⟨written, hwritten, (decodeFrame_written sampleCalls hU).2 written hwritten [0x0D] []⟩

end Periplus.Ports
