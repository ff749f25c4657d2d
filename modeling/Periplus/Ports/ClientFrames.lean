import Periplus.Ports.Session

/-!
# `client.py`: the commands as the client writes them

A Python string is its sequence of code points; the characters of a message
become bytes only in `Connection.send`, which encodes it as Latin-1.  Numbers
are packed by `struct.pack`.

A method that raises before it has written all of its messages writes no frame:
an integer that does not fit, a character that is not Latin-1, an empty list
whose first element is asked for, a failed assertion.

## Main results

* `Frame` — a command line, a static and a dynamic part, with the facts that the
  decoders consume them.
* `Call.frame` — the frame of each of the six calls.
* `written_frame`, `encodable_of_written` — the client writes the bytes of that
  frame, and writes a frame only when the call can be encoded.
-/

namespace Periplus.Ports

open Periplus.Verified.Memory
open Periplus.Verified.Reader

/-! ## Strings and numbers -/

/-- A Python string. -/
abbrev PyStr := List Char

/-- `s.encode('latin1')`. -/
def encodeLatin1 (s : PyStr) : Option Bytes :=
  if s.all (fun c => c.toNat < 256) then some (s.map (fun c => UInt8.ofNat c.toNat)) else none

/-- `bs.decode('latin1')`. -/
def decodeLatin1 (bs : Bytes) : PyStr := bs.map (fun b => Char.ofNat b.toNat)

/-- `struct.pack('<Q', n)`. -/
def packQ (n : Nat) : Option Bytes := if n < 2 ^ 64 then some (toLE 8 n) else none

/-- `struct.pack('?', b)`. -/
def packBool (b : Bool) : Bytes := [b.toUInt8]

/-- `struct.pack('<nf', *xs)`. -/
def packFloats (xs : List F32) : Bytes := floatBytes xs

/-! ## The calls -/

/-- The keys that are present in `options`. -/
structure InitializeOptions where
  maxMem : Option Nat := none
  nRecords : Option Nat := none
  useFlat : Option Bool := none
  deriving DecidableEq, Repr

/-- A call of a method of the client. -/
inductive Call
  | initializeCall (d : Nat) (dbUrl : PyStr) (options : InitializeOptions)
  | trainCall (trainingData : List (List F32))
  | addCall (ids : List PyStr) (embeddings : List (List F32))
  | loadCall (xq : List F32) (nLoad : Option Nat)
  | searchCall (k : Nat) (xq : List (List F32)) (nProbe : Option Nat)
      (requireAll : Option Bool)
  | evictCall (vector : List F32) (nEvict : Option Nat)
  deriving DecidableEq, Repr

/-- `_format_command`. -/
def formatCommand (command : PyStr) (staticArgs dynamicArgs : Bytes) : PyStr :=
  command ++ "\r\n".toList ++ decodeLatin1 staticArgs ++ "\n".toList ++
    decodeLatin1 dynamicArgs ++ "\r\n".toList

namespace Client

def initializeMessages (d : Nat) (dbUrl : PyStr) (options : InitializeOptions) :
    Option (List PyStr) := do
  let d ← packQ d
  let maxMem ← packQ (options.maxMem.getD 1024)
  let nRecords ← packQ (options.nRecords.getD 250000)
  let useFlat := packBool (options.useFlat.getD false)
  let size ← packQ dbUrl.length
  let dynamicArgs ← encodeLatin1 dbUrl
  some [formatCommand "INITIALIZE".toList (d ++ maxMem ++ nRecords ++ useFlat ++ size)
    dynamicArgs]

def trainMessages (trainingData : List (List F32)) : Option (List PyStr) := do
  let first ← trainingData.head?
  let numBytes := trainingData.length * first.length * 4
  let staticArgs ← packQ numBytes
  let dynamicArgs := packFloats trainingData.flatten
  if numBytes = dynamicArgs.length then
    some [formatCommand "TRAIN".toList staticArgs dynamicArgs]
  else none

/-- The length of an id, and the id. -/
def idMessage (id : PyStr) : Option PyStr := do
  let length ← packQ id.length
  some (decodeLatin1 length ++ id)

def addMessages (ids : List PyStr) (embeddings : List (List F32)) :
    Option (List PyStr) := do
  if ids.length = embeddings.length then
    let first ← embeddings.head?
    let numBytes := (ids.map List.length).sum + ids.length * 8 + 1 +
      embeddings.length * first.length * 4
    let numDocs ← packQ ids.length
    let size ← packQ numBytes
    let idMessages ← ids.mapM idMessage
    let staticMessage :=
      "ADD".toList ++ "\r\n".toList ++ decodeLatin1 (numDocs ++ size) ++ "\n".toList
    some ([staticMessage] ++ idMessages ++ ["\n".toList] ++
      embeddings.map (fun embedding => decodeLatin1 (packFloats embedding)) ++
      ["\r\n".toList])
  else none

/-- LOAD and EVICT: a count and one vector. -/
def countMessages (command : PyStr) (count : Nat) (vector : List F32) :
    Option (List PyStr) := do
  let count ← packQ count
  let size ← packQ (vector.length * 4)
  some [formatCommand command (count ++ size) (packFloats vector)]

def loadMessages (xq : List F32) (nLoad : Option Nat) : Option (List PyStr) := do
  let messages ← countMessages "LOAD".toList (nLoad.getD 1) xq
  if xq.length * 4 = (packFloats xq).length then some messages else none

def searchMessages (k : Nat) (xq : List (List F32)) (nProbe : Option Nat)
    (requireAll : Option Bool) : Option (List PyStr) := do
  let floatList := xq.flatten
  let numBytes := floatList.length * 4
  let n ← packQ xq.length
  let k ← packQ k
  let nProbe ← packQ (nProbe.getD 1)
  let requireAll := packBool (requireAll.getD true)
  let size ← packQ numBytes
  some [formatCommand "SEARCH".toList (n ++ k ++ nProbe ++ requireAll ++ size)
    (packFloats floatList)]

def evictMessages (vector : List F32) (nEvict : Option Nat) : Option (List PyStr) :=
  countMessages "EVICT".toList (nEvict.getD 1) vector

end Client

namespace Call

/-- The messages that a method passes to `Connection.send`. -/
def messages : Call → Option (List PyStr)
  | .initializeCall d dbUrl options => Client.initializeMessages d dbUrl options
  | .trainCall trainingData => Client.trainMessages trainingData
  | .addCall ids embeddings => Client.addMessages ids embeddings
  | .loadCall xq nLoad => Client.loadMessages xq nLoad
  | .searchCall k xq nProbe requireAll => Client.searchMessages k xq nProbe requireAll
  | .evictCall vector nEvict => Client.evictMessages vector nEvict

/-- The bytes that the client writes for a call. -/
def written (call : Call) : Option Bytes := do
  let messages ← call.messages
  let encoded ← messages.mapM encodeLatin1
  some encoded.flatten

end Call

/-! ## Latin-1 -/

/-- The string has only characters of one byte. -/
def Latin1 (s : PyStr) : Prop := ∀ c ∈ s, c.toNat < 256

instance (s : PyStr) : Decidable (Latin1 s) := List.decidableBAll _ s

/-- The bytes of such a string. -/
def latin1Bytes (s : PyStr) : Bytes := s.map (fun c => UInt8.ofNat c.toNat)

@[simp] theorem latin1Bytes_length (s : PyStr) : (latin1Bytes s).length = s.length :=
  List.length_map _

theorem encodeLatin1_eq_some {s : PyStr} {bs : Bytes} :
    encodeLatin1 s = some bs ↔ Latin1 s ∧ latin1Bytes s = bs := by
  unfold encodeLatin1 Latin1 latin1Bytes
  rw [Option.ite_none_right_eq_some, List.all_eq_true]
  simp only [decide_eq_true_eq, Option.some.injEq]

private theorem char_of_byte (b : UInt8) : (Char.ofNat b.toNat).toNat = b.toNat := by
  have hb : b.toNat.isValidChar := Or.inl (by have := b.toNat_lt; omega)
  rw [Char.ofNat, dif_pos hb]
  rfl

theorem latin1_decode (bs : Bytes) : Latin1 (decodeLatin1 bs) := by
  intro c hc
  obtain ⟨b, _, rfl⟩ := List.mem_map.mp hc
  rw [char_of_byte]
  exact b.toNat_lt

@[simp] theorem latin1Bytes_decode (bs : Bytes) : latin1Bytes (decodeLatin1 bs) = bs := by
  rw [latin1Bytes, decodeLatin1, List.map_map]
  conv_rhs => rw [← List.map_id bs]
  refine List.map_congr_left (fun b _ => ?_)
  rw [Function.comp_apply, char_of_byte, UInt8.ofNat_toNat, id]

@[simp] theorem latin1Bytes_append (s t : PyStr) :
    latin1Bytes (s ++ t) = latin1Bytes s ++ latin1Bytes t :=
  List.map_append

theorem latin1_append {s t : PyStr} : Latin1 (s ++ t) ↔ Latin1 s ∧ Latin1 t :=
  List.forall_mem_append

theorem packQ_eq_some {n : Nat} {bs : Bytes} :
    packQ n = some bs ↔ n < 2 ^ 64 ∧ toLE 8 n = bs := by
  rw [packQ, Option.ite_none_right_eq_some, Option.some.injEq]

/-! ## Frames -/

/-- What the decoder of the static part reads. -/
def Command.staticLength : Command → Nat
  | .INITIALIZE => 34
  | .TRAIN => 9
  | .LOAD => 17
  | .SEARCH => 34
  | .EVICT => 17
  | .ADD => 17

/-- The command line, with its end. -/
def Command.line (command : Command) : Bytes := command.name ++ [0x0D, 0x0A]

/-- The bytes of one command: the decoders consume the two parts and end with
`args`, having passed through `header`. -/
structure Frame where
  command : Command
  staticPart : Bytes
  dynamicPart : Bytes
  /-- The arguments after the static part. -/
  header : Args
  args : Args
  decodesStatic : Decodes command.newArgs.deserializeStatic staticPart header
  decodesDynamic : Decodes header.deserializeDynamic dynamicPart args
  staticPart_length : staticPart.length = command.staticLength
  dynamicPart_length : dynamicPart.length = header.size + 2

def Frame.bytes (f : Frame) : Bytes := f.command.line ++ (f.staticPart ++ f.dynamicPart)

theorem Frame.bytes_length (f : Frame) :
    f.bytes.length = f.command.line.length + (f.command.staticLength + (f.header.size + 2)) := by
  rw [bytes, List.length_append, List.length_append, f.staticPart_length, f.dynamicPart_length]

namespace Call

/-- The vectors of a call are all of one length. -/
def Uniform : Call → Prop
  | .initializeCall _ _ _ => True
  | .trainCall trainingData => ∃ d, ∀ v ∈ trainingData, v.length = d
  | .addCall _ embeddings => ∃ d, ∀ v ∈ embeddings, v.length = d
  | .loadCall _ _ => True
  | .searchCall _ xq _ _ => ∃ d, ∀ v ∈ xq, v.length = d
  | .evictCall _ _ => True

/-- The number of floats that TRAIN and ADD compute from the first vector is the number
of floats that they send. -/
def Sized : Call → Prop
  | .initializeCall _ _ _ => True
  | .trainCall trainingData => ∀ v, trainingData.head? = some v →
      trainingData.flatten.length = trainingData.length * v.length
  | .addCall _ embeddings => ∀ v, embeddings.head? = some v →
      embeddings.flatten.length = embeddings.length * v.length
  | .loadCall _ _ => True
  | .searchCall _ _ _ _ => True
  | .evictCall _ _ => True

/-- The numbers and sizes fit into 64 bits, the strings are Latin-1, and there is a
vector where the length of the first one is asked for. -/
def Encodable : Call → Prop
  | .initializeCall d dbUrl options =>
      d < 2 ^ 64 ∧ options.maxMem.getD 1024 < 2 ^ 64 ∧
        options.nRecords.getD 250000 < 2 ^ 64 ∧ dbUrl.length < 2 ^ 64 ∧ Latin1 dbUrl
  | .trainCall trainingData => trainingData ≠ [] ∧ 4 * trainingData.flatten.length < 2 ^ 64
  | .addCall ids embeddings =>
      ids.length = embeddings.length ∧ embeddings ≠ [] ∧ (∀ id ∈ ids, Latin1 id) ∧
        idsSize (ids.map latin1Bytes) + 1 + 4 * embeddings.flatten.length < 2 ^ 64
  | .loadCall xq nLoad => nLoad.getD 1 < 2 ^ 64 ∧ 4 * xq.length < 2 ^ 64
  | .searchCall k xq nProbe _ =>
      xq.length < 2 ^ 64 ∧ k < 2 ^ 64 ∧ nProbe.getD 1 < 2 ^ 64 ∧
        4 * xq.flatten.length < 2 ^ 64
  | .evictCall vector nEvict => nEvict.getD 1 < 2 ^ 64 ∧ 4 * vector.length < 2 ^ 64

def command : Call → Command
  | .initializeCall _ _ _ => .INITIALIZE
  | .trainCall _ => .TRAIN
  | .addCall _ _ => .ADD
  | .loadCall _ _ => .LOAD
  | .searchCall _ _ _ _ => .SEARCH
  | .evictCall _ _ => .EVICT

/-- The arguments with the values of the call.  A string ends in the terminator that
`read_dynamic_data` adds. -/
def args : Call → Args
  | .initializeCall d dbUrl options => .initializeArgs
      { d := d
        maxMem := options.maxMem.getD 1024
        nTotal := options.nRecords.getD 250000
        useFlat := options.useFlat.getD false
        size := dbUrl.length
        dbUrl := latin1Bytes dbUrl ++ [0] }
  | .trainCall trainingData => .trainArgs
      { size := 4 * trainingData.flatten.length
        trainingData := trainingData.flatten }
  | .addCall ids embeddings => .addArgs
      { numDocs := ids.length
        size := idsSize (ids.map latin1Bytes) + 1 + 4 * embeddings.flatten.length
        ids := ids.map (fun id => latin1Bytes id ++ [0])
        embeddings := embeddings.flatten }
  | .loadCall xq nLoad => .loadArgs
      { nload := nLoad.getD 1
        size := 4 * xq.length
        xq := xq }
  | .searchCall k xq nProbe requireAll => .searchArgs
      { n := xq.length
        k := k
        nprobe := nProbe.getD 1
        requireAll := requireAll.getD true
        size := 4 * xq.flatten.length
        xq := xq.flatten }
  | .evictCall vector nEvict => .evictArgs
      { nevict := nEvict.getD 1
        size := 4 * vector.length
        xq := vector }

/-- The frame of a call. -/
def frame : (call : Call) → call.Encodable → Frame
  | .initializeCall d dbUrl options, h =>
      { command := .INITIALIZE
        staticPart := toLE 8 d ++ (toLE 8 (options.maxMem.getD 1024) ++
          (toLE 8 (options.nRecords.getD 250000) ++
            ([(options.useFlat.getD false).toUInt8] ++ (toLE 8 dbUrl.length ++ [0x0A]))))
        dynamicPart := latin1Bytes dbUrl ++ [0x0D, 0x0A]
        header := _
        args := _
        decodesStatic := (decodes_initializeStatic {} _ h.1 h.2.1 h.2.2.1 h.2.2.2.1).map _
        decodesDynamic := (decodes_initializeDynamic _ (latin1Bytes_length dbUrl).symm).map _
        staticPart_length := by simp [Command.staticLength]
        dynamicPart_length := by simp [Args.size] }
  | .trainCall trainingData, h =>
      { command := .TRAIN
        staticPart := toLE 8 (4 * trainingData.flatten.length) ++ [0x0A]
        dynamicPart := floatBytes trainingData.flatten ++ [0x0D, 0x0A]
        header := _
        args := _
        decodesStatic := (decodes_trainStatic {} h.2).map _
        decodesDynamic := (decodes_trainDynamic _ rfl).map _
        staticPart_length := by simp [Command.staticLength]
        dynamicPart_length := by simp [Args.size] }
  | .addCall ids embeddings, h =>
      { command := .ADD
        staticPart := toLE 8 ids.length ++
          (toLE 8 (idsSize (ids.map latin1Bytes) + 1 + 4 * embeddings.flatten.length) ++ [0x0A])
        dynamicPart := (ids.map latin1Bytes).flatMap idBytes ++
          ([0x0A] ++ (floatBytes embeddings.flatten ++ [0x0D, 0x0A]))
        header := _
        args := _
        decodesStatic := (decodes_addStatic {} (by
          have hsize : idsSize (ids.map latin1Bytes) + 1 + _ < 2 ^ 64 := h.2.2.2
          have hids := length_mul_le_idsSize (ids.map latin1Bytes)
          rw [List.length_map] at hids
          omega) h.2.2.2).map _
        decodesDynamic := (decodes_addDynamic _ (List.length_map _).symm rfl h.2.2.2).map _
        staticPart_length := by simp [Command.staticLength]
        dynamicPart_length := by
          simp only [List.length_append, idsBytes_length, floatBytes_length, Args.size,
            List.length_cons, List.length_nil]
          omega }
  | .loadCall xq nLoad, h =>
      { command := .LOAD
        staticPart := toLE 8 (nLoad.getD 1) ++ (toLE 8 (4 * xq.length) ++ [0x0A])
        dynamicPart := floatBytes xq ++ [0x0D, 0x0A]
        header := _
        args := _
        decodesStatic := (decodes_loadStatic {} h.1 h.2).map _
        decodesDynamic := (decodes_loadDynamic _ rfl).map _
        staticPart_length := by simp [Command.staticLength]
        dynamicPart_length := by simp [Args.size] }
  | .searchCall k xq nProbe requireAll, h =>
      { command := .SEARCH
        staticPart := toLE 8 xq.length ++ (toLE 8 k ++ (toLE 8 (nProbe.getD 1) ++
          ([(requireAll.getD true).toUInt8] ++ (toLE 8 (4 * xq.flatten.length) ++ [0x0A]))))
        dynamicPart := floatBytes xq.flatten ++ [0x0D, 0x0A]
        header := _
        args := _
        decodesStatic := (decodes_searchStatic {} _ h.1 h.2.1 h.2.2.1 h.2.2.2).map _
        decodesDynamic := (decodes_searchDynamic _ rfl).map _
        staticPart_length := by simp [Command.staticLength]
        dynamicPart_length := by simp [Args.size] }
  | .evictCall vector nEvict, h =>
      { command := .EVICT
        staticPart := toLE 8 (nEvict.getD 1) ++ (toLE 8 (4 * vector.length) ++ [0x0A])
        dynamicPart := floatBytes vector ++ [0x0D, 0x0A]
        header := _
        args := _
        decodesStatic := (decodes_evictStatic {} h.1 h.2).map _
        decodesDynamic := (decodes_evictDynamic _ rfl).map _
        staticPart_length := by simp [Command.staticLength]
        dynamicPart_length := by simp [Args.size] }

theorem frame_args (call : Call) (h : call.Encodable) : (call.frame h).args = call.args := by
  cases call with
  | addCall ids embeddings =>
      have hids : ids.map (fun id => latin1Bytes id ++ [0]) =
          (ids.map latin1Bytes).map (fun id => id ++ [0]) := by
        rw [List.map_map]
        rfl
      rw [args, hids]
      rfl
  | _ => rfl

end Call

/-! ## What the client writes -/

/-- A message that is encoded as Latin-1 on its own. -/
theorem mapM_encodeLatin1_eq_some {messages : List PyStr} {encoded : List Bytes} :
    messages.mapM encodeLatin1 = some encoded ↔
      (∀ m ∈ messages, Latin1 m) ∧ messages.map latin1Bytes = encoded := by
  induction messages generalizing encoded with
  | nil => simp
  | cons m messages ih =>
      simp only [List.mapM_cons, Option.bind_eq_bind, Option.bind_eq_some_iff,
        encodeLatin1_eq_some, ih, List.forall_mem_cons, List.map_cons, Option.pure_def,
        Option.some.injEq]
      constructor
      · rintro ⟨_, ⟨hm, rfl⟩, _, ⟨hall, rfl⟩, rfl⟩
        exact ⟨⟨hm, hall⟩, rfl⟩
      · rintro ⟨⟨hm, hall⟩, rfl⟩
        exact ⟨_, ⟨hm, rfl⟩, _, ⟨hall, rfl⟩, rfl⟩

theorem written_eq_some {call : Call} {bs : Bytes} :
    call.written = some bs ↔ ∃ messages, call.messages = some messages ∧
      (∀ m ∈ messages, Latin1 m) ∧ (messages.map latin1Bytes).flatten = bs := by
  simp only [Call.written, Option.bind_eq_bind, Option.bind_eq_some_iff,
    mapM_encodeLatin1_eq_some, Option.some.injEq]
  constructor
  · rintro ⟨messages, hmessages, _, ⟨hall, rfl⟩, rfl⟩
    exact ⟨messages, hmessages, hall, rfl⟩
  · rintro ⟨messages, hmessages, hall, rfl⟩
    exact ⟨messages, hmessages, _, ⟨hall, rfl⟩, rfl⟩

/-- A formatted command can be encoded. -/
theorem latin1_formatCommand {text : PyStr} (htext : Latin1 text)
    (staticArgs dynamicArgs : Bytes) : Latin1 (formatCommand text staticArgs dynamicArgs) := by
  simp only [formatCommand, latin1_append]
  exact ⟨⟨⟨⟨⟨htext, by decide⟩, latin1_decode _⟩, by decide⟩, latin1_decode _⟩, by decide⟩

/-- A method that sends one formatted command. -/
theorem written_of_format {call : Call} {text : PyStr} {staticArgs dynamicArgs : Bytes}
    (h : call.messages = some [formatCommand text staticArgs dynamicArgs])
    (htext : Latin1 text) :
    call.written = some (latin1Bytes text ++ [0x0D, 0x0A] ++ (staticArgs ++ [0x0A] ++
      (dynamicArgs ++ [0x0D, 0x0A]))) := by
  rw [written_eq_some]
  refine ⟨_, h, ?_, ?_⟩
  · intro m hm
    rw [List.mem_singleton] at hm
    subst hm
    exact latin1_formatCommand htext staticArgs dynamicArgs
  · have hcrlf : latin1Bytes "\r\n".toList = [0x0D, 0x0A] := by decide
    have hlf : latin1Bytes "\n".toList = [0x0A] := by decide
    simp only [formatCommand, List.map_cons, List.map_nil, List.flatten_cons,
      List.flatten_nil, latin1Bytes_append, latin1Bytes_decode, hcrlf, hlf,
      List.append_nil, List.append_assoc]

theorem flatten_length_of_uniform {vs : List (List F32)} {v : List F32}
    (h : ∃ d, ∀ w ∈ vs, w.length = d) (hv : vs.head? = some v) :
    vs.flatten.length = vs.length * v.length := by
  obtain ⟨d, hd⟩ := h
  have hmap : vs.map List.length = List.replicate vs.length d := by
    rw [List.eq_replicate_iff]
    exact ⟨List.length_map _, by simpa using hd⟩
  rw [List.length_flatten, hmap, List.sum_replicate_nat, hd v (List.mem_of_mem_head? hv)]

theorem Call.Uniform.sized {call : Call} (h : call.Uniform) : call.Sized := by
  cases call with
  | trainCall trainingData => exact fun v hv => flatten_length_of_uniform h hv
  | addCall ids embeddings => exact fun v hv => flatten_length_of_uniform h hv
  | initializeCall d dbUrl options => exact trivial
  | loadCall xq nLoad => exact trivial
  | searchCall k xq nProbe requireAll => exact trivial
  | evictCall vector nEvict => exact trivial

theorem packQ_of_lt {n : Nat} (h : n < 2 ^ 64) : packQ n = some (toLE 8 n) := if_pos h

theorem countMessages_of_lt (text : PyStr) {count : Nat} {vector : List F32}
    (hcount : count < 2 ^ 64) (hsize : 4 * vector.length < 2 ^ 64) :
    Client.countMessages text count vector = some [formatCommand text
      (toLE 8 count ++ toLE 8 (4 * vector.length)) (floatBytes vector)] := by
  simp only [Client.countMessages, packQ_of_lt hcount, Nat.mul_comm vector.length 4,
    packQ_of_lt hsize, Option.bind_eq_bind, Option.bind_some]
  rw [packFloats]

/-- The assertion of `load` holds. -/
theorem Client.loadMessages_eq (xq : List F32) (nLoad : Option Nat) :
    loadMessages xq nLoad = countMessages "LOAD".toList (nLoad.getD 1) xq := by
  have hbytes : xq.length * 4 = (packFloats xq).length := by
    rw [packFloats, floatBytes_length, Nat.mul_comm]
  simp only [loadMessages, if_pos hbytes]
  exact Option.bind_fun_some _

theorem mapM_idMessage {ids : List PyStr} (h : ∀ id ∈ ids, id.length < 2 ^ 64) :
    ids.mapM Client.idMessage =
      some (ids.map (fun id => decodeLatin1 (toLE 8 id.length) ++ id)) := by
  induction ids with
  | nil => rfl
  | cons id ids ih =>
      rw [List.forall_mem_cons] at h
      simp only [List.mapM_cons, Client.idMessage, packQ_of_lt h.1, ih h.2,
        Option.bind_eq_bind, Option.bind_some, Option.pure_def, List.map_cons]

theorem idsSize_latin1 (ids : List PyStr) :
    idsSize (ids.map latin1Bytes) = (ids.map List.length).sum + ids.length * 8 := by
  induction ids with
  | nil => rfl
  | cons id ids ih =>
      unfold idsSize at ih ⊢
      rw [List.map_cons, List.map_cons, List.sum_cons, ih, List.map_cons, List.sum_cons,
        latin1Bytes_length, List.length_cons]
      omega

theorem length_le_idsSize_latin1 {ids : List PyStr} {id : PyStr} (h : id ∈ ids) :
    id.length + 8 ≤ idsSize (ids.map latin1Bytes) := by
  have hle := length_le_idsSize (List.mem_map_of_mem (f := latin1Bytes) h)
  rwa [latin1Bytes_length] at hle

theorem addMessages_eq_some {ids : List PyStr} {embeddings : List (List F32)}
    (hlen : ids.length = embeddings.length) (hne : embeddings ≠ [])
    (hS : (Call.addCall ids embeddings).Sized)
    (hsize : idsSize (ids.map latin1Bytes) + 1 + 4 * embeddings.flatten.length < 2 ^ 64) :
    Client.addMessages ids embeddings = some
      (["ADD".toList ++ "\r\n".toList ++ decodeLatin1 (toLE 8 ids.length ++
          toLE 8 (idsSize (ids.map latin1Bytes) + 1 + 4 * embeddings.flatten.length)) ++
          "\n".toList] ++
        ids.map (fun id => decodeLatin1 (toLE 8 id.length) ++ id) ++ ["\n".toList] ++
        embeddings.map (fun embedding => decodeLatin1 (packFloats embedding)) ++
        ["\r\n".toList]) := by
  obtain ⟨first, hfirst⟩ : ∃ first, embeddings.head? = some first :=
    Option.isSome_iff_exists.mp (List.isSome_head?.mpr hne)
  have hnum : (ids.map List.length).sum + ids.length * 8 + 1 +
      embeddings.length * first.length * 4 =
      idsSize (ids.map latin1Bytes) + 1 + 4 * embeddings.flatten.length := by
    rw [idsSize_latin1, hS first hfirst, Nat.mul_comm 4]
  have hids := idsSize_latin1 ids
  have hdocs : ids.length < 2 ^ 64 := by omega
  have hlengths : ∀ id ∈ ids, id.length < 2 ^ 64 := by
    intro id hid
    have := length_le_idsSize_latin1 hid
    omega
  unfold Client.addMessages
  rw [if_pos hlen]
  simp only [hfirst, hnum, packQ_of_lt hdocs, packQ_of_lt hsize, mapM_idMessage hlengths,
    Option.bind_eq_bind, Option.bind_some]

/-- ADD is sent in pieces, which make up the frame. -/
theorem written_addCall {ids : List PyStr} {embeddings : List (List F32)}
    (hS : (Call.addCall ids embeddings).Sized) (h : (Call.addCall ids embeddings).Encodable) :
    (Call.addCall ids embeddings).written = some ((Call.addCall ids embeddings).frame h).bytes := by
  rw [written_eq_some]
  refine ⟨_, addMessages_eq_some h.1 h.2.1 hS h.2.2.2, ?_, ?_⟩
  · simp only [List.forall_mem_append, List.forall_mem_map, List.forall_mem_singleton,
      latin1_append]
    have hlatin : ∀ id ∈ ids, Latin1 id := h.2.2.1
    exact ⟨⟨⟨⟨⟨⟨⟨by decide, by decide⟩, latin1_decode _⟩, by decide⟩,
      fun id hid => ⟨latin1_decode _, hlatin id hid⟩⟩, by decide⟩,
      fun _ _ => latin1_decode _⟩, by decide⟩
  · have hcrlf : latin1Bytes "\r\n".toList = [0x0D, 0x0A] := by decide
    have hlf : latin1Bytes "\n".toList = [0x0A] := by decide
    have hname : latin1Bytes "ADD".toList = Command.name .ADD := rfl
    have hids : (ids.map (fun id => toLE 8 id.length ++ latin1Bytes id)).flatten =
        (ids.map latin1Bytes).flatMap idBytes := by
      rw [List.flatMap_map, List.flatMap]
      refine congrArg List.flatten (List.map_congr_left (fun id _ => ?_))
      rw [idBytes, latin1Bytes_length]
    have hfloats : (embeddings.map (fun e => packFloats e)).flatten =
        floatBytes embeddings.flatten := by
      simp only [packFloats, floatBytes, List.flatMap, List.map_flatten, List.flatten_flatten,
        List.map_map, Function.comp_def]
    simp only [List.map_append, List.map_cons, List.map_nil, List.map_map, List.flatten_append,
      List.flatten_cons, List.flatten_nil, latin1Bytes_append, latin1Bytes_decode, hcrlf, hlf,
      hname, Function.comp_def, hids, hfloats, Frame.bytes, Call.frame, Command.line,
      List.append_assoc, List.append_nil]

/-- A call that can be encoded is written as its frame. -/
theorem written_frame {call : Call} (hS : call.Sized) (h : call.Encodable) :
    call.written = some (call.frame h).bytes := by
  cases call with
  | initializeCall d dbUrl options =>
      obtain ⟨hd, hmem, htotal, hlen, hlatin⟩ := h
      have hmessages : (Call.initializeCall d dbUrl options).messages = some
          [formatCommand "INITIALIZE".toList (toLE 8 d ++ toLE 8 (options.maxMem.getD 1024) ++
            toLE 8 (options.nRecords.getD 250000) ++ packBool (options.useFlat.getD false) ++
            toLE 8 dbUrl.length) (latin1Bytes dbUrl)] := by
        simp only [Call.messages, Client.initializeMessages, packQ_of_lt hd, packQ_of_lt hmem,
          packQ_of_lt htotal, packQ_of_lt hlen, encodeLatin1_eq_some.mpr ⟨hlatin, rfl⟩,
          Option.bind_eq_bind, Option.bind_some]
      rw [written_of_format hmessages (by decide)]
      simp only [Frame.bytes, Call.frame, Command.line, packBool, List.append_assoc]
      rfl
  | trainCall trainingData =>
      obtain ⟨hne, hsize⟩ := h
      obtain ⟨first, hfirst⟩ : ∃ first, trainingData.head? = some first :=
        Option.isSome_iff_exists.mp (List.isSome_head?.mpr hne)
      have hnum : trainingData.length * first.length * 4 = 4 * trainingData.flatten.length := by
        rw [hS first hfirst, Nat.mul_comm 4]
      have hmessages : (Call.trainCall trainingData).messages = some
          [formatCommand "TRAIN".toList (toLE 8 (4 * trainingData.flatten.length))
            (floatBytes trainingData.flatten)] := by
        simp only [Call.messages, Client.trainMessages, hfirst, hnum, packQ_of_lt hsize,
          Option.bind_eq_bind, Option.bind_some]
        rw [packFloats, if_pos (floatBytes_length _).symm]
      rw [written_of_format hmessages (by decide)]
      simp only [Frame.bytes, Call.frame, Command.line, List.append_assoc]
      rfl
  | addCall ids embeddings => exact written_addCall hS h
  | loadCall xq nLoad =>
      have hmessages : (Call.loadCall xq nLoad).messages = _ :=
        (Client.loadMessages_eq xq nLoad).trans (countMessages_of_lt "LOAD".toList h.1 h.2)
      rw [written_of_format hmessages (by decide)]
      simp only [Frame.bytes, Call.frame, Command.line, List.append_assoc]
      rfl
  | searchCall k xq nProbe requireAll =>
      obtain ⟨hn, hk, hprobe, hsize⟩ := h
      have hmessages : (Call.searchCall k xq nProbe requireAll).messages = some
          [formatCommand "SEARCH".toList (toLE 8 xq.length ++ toLE 8 k ++
            toLE 8 (nProbe.getD 1) ++ packBool (requireAll.getD true) ++
            toLE 8 (4 * xq.flatten.length)) (floatBytes xq.flatten)] := by
        simp only [Call.messages, Client.searchMessages, packQ_of_lt hn, packQ_of_lt hk,
          packQ_of_lt hprobe, Nat.mul_comm xq.flatten.length, packQ_of_lt hsize, packFloats,
          Option.bind_eq_bind, Option.bind_some]
      rw [written_of_format hmessages (by decide)]
      simp only [Frame.bytes, Call.frame, Command.line, packBool, List.append_assoc]
      rfl
  | evictCall vector nEvict =>
      have hmessages : (Call.evictCall vector nEvict).messages = _ :=
        countMessages_of_lt "EVICT".toList h.1 h.2
      rw [written_of_format hmessages (by decide)]
      simp only [Frame.bytes, Call.frame, Command.line, List.append_assoc]
      rfl

/-- A call that is written can be encoded. -/
theorem encodable_of_written {call : Call} (hS : call.Sized) {bs : Bytes}
    (h : call.written = some bs) : call.Encodable := by
  obtain ⟨messages, hmessages, hlatin, -⟩ := written_eq_some.mp h
  cases call with
  | initializeCall d dbUrl options =>
      simp only [Call.messages, Client.initializeMessages, Option.bind_eq_bind,
        Option.bind_eq_some_iff, packQ_eq_some, encodeLatin1_eq_some] at hmessages
      obtain ⟨_, ⟨hd, _⟩, _, ⟨hmem, _⟩, _, ⟨htotal, _⟩, _, ⟨hlen, _⟩, _, ⟨hurl, _⟩, _⟩ := hmessages
      exact ⟨hd, hmem, htotal, hlen, hurl⟩
  | trainCall trainingData =>
      simp only [Call.messages, Client.trainMessages, Option.bind_eq_bind,
        Option.bind_eq_some_iff, packQ_eq_some] at hmessages
      obtain ⟨first, hfirst, _, ⟨hsize, _⟩, _⟩ := hmessages
      rw [← hS first hfirst, Nat.mul_comm] at hsize
      exact ⟨by rintro rfl; exact absurd hfirst (by simp), hsize⟩
  | addCall ids embeddings =>
      simp only [Call.messages, Client.addMessages] at hmessages
      split at hmessages
      · next hlen =>
          simp only [Option.bind_eq_bind, Option.bind_eq_some_iff, packQ_eq_some] at hmessages
          obtain ⟨first, hfirst, _, ⟨_, _⟩, _, ⟨hsize, _⟩, idMessages, hids, hall⟩ := hmessages
          rw [← hS first hfirst, ← idsSize_latin1, Nat.mul_comm _ 4] at hsize
          refine ⟨hlen, by rintro rfl; exact absurd hfirst (by simp), fun id hid => ?_, hsize⟩
          rw [mapM_idMessage (fun id hid => by
            have := length_le_idsSize_latin1 hid
            omega), Option.some.injEq] at hids
          rw [Option.some.injEq] at hall
          have hmem : decodeLatin1 (toLE 8 id.length) ++ id ∈ messages := by
            rw [← hall, ← hids]
            simp only [List.mem_append, List.mem_map]
            exact Or.inl (Or.inl (Or.inl (Or.inr ⟨id, hid, rfl⟩)))
          exact (latin1_append.mp (hlatin _ hmem)).2
      · exact absurd hmessages (by simp)
  | loadCall xq nLoad =>
      simp only [Call.messages, Client.loadMessages_eq, Client.countMessages, Option.bind_eq_bind,
        Option.bind_eq_some_iff, packQ_eq_some] at hmessages
      obtain ⟨_, ⟨hcount, _⟩, _, ⟨hsize, _⟩, _⟩ := hmessages
      exact ⟨hcount, by rwa [Nat.mul_comm]⟩
  | searchCall k xq nProbe requireAll =>
      simp only [Call.messages, Client.searchMessages, Option.bind_eq_bind,
        Option.bind_eq_some_iff, packQ_eq_some] at hmessages
      obtain ⟨_, ⟨hn, _⟩, _, ⟨hk, _⟩, _, ⟨hprobe, _⟩, _, ⟨hsize, _⟩, _⟩ := hmessages
      exact ⟨hn, hk, hprobe, by rwa [Nat.mul_comm]⟩
  | evictCall vector nEvict =>
      simp only [Call.messages, Client.evictMessages, Client.countMessages, Option.bind_eq_bind,
        Option.bind_eq_some_iff, packQ_eq_some] at hmessages
      obtain ⟨_, ⟨hcount, _⟩, _, ⟨hsize, _⟩, _⟩ := hmessages
      exact ⟨hcount, by rwa [Nat.mul_comm]⟩

end Periplus.Ports
