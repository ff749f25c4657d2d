import Periplus.Ports.Data
import Periplus.Verified.Reader

/-!
# `args.h`, `args.cpp`: the arguments of a command, decoded

The decoders read from a `std::istream`: a short read prints a message and
executes `throw;` outside of a handler (`Uncaught.shortRead`), and a wrong
delimiter prints a message and is otherwise ignored (`Complaint`).

Each kind of arguments has a static part, whose length the session takes from
`get_static_size`, and a dynamic part, for which it waits for `size` bytes and
the end delimiter.  The lengths are constants beside the decoders; the lemmas
`exactly_…Static` and `exactly_…Dynamic` say what the decoders really consume.
-/

namespace Periplus.Ports

open Periplus.Verified.Memory
open Periplus.Verified.Reader

/-- A message printed about a delimiter. -/
inductive Complaint
  /-- "Expected static delimiter (\\n) but didn't find it" -/
  | staticDelimiter
  /-- "Expected end delimiter but didn't find it" -/
  | endDelimiter
  deriving DecidableEq, Repr

/-- The input stream of a session. -/
abbrev IStream := Input UInt8 Complaint

abbrev Parser (α : Type) := Read UInt8 Complaint Fault α

/-- The failure of `read_arg`. -/
abbrev shortRead : Fault := .exception .shortRead

/-- An `Exactly` fact about a decoder. -/
abbrev Decodes {α : Type} (p : Parser α) (bytes : Bytes) (a : α) : Prop :=
  Exactly p bytes a shortRead

/-! ## `read_arg` and `read_dynamic_data` -/

def readSizeT : Parser Nat := ofLE <$> take shortRead 8

def readChar : Parser UInt8 := (fun bs => bs.headD 0) <$> take shortRead 1

def readBool : Parser Bool := (fun bs => decide (bs.headD 0 ≠ 0)) <$> take shortRead 1

def readFloat : Parser F32 := (fun bs => UInt32.ofNat (ofLE bs)) <$> take shortRead 4

/-- `read_dynamic_data<char>`: the terminator is added behind the data. -/
def readCharData (size : Nat) : Parser Bytes :=
  (fun chars => chars ++ [0]) <$> readMany readChar size

/-- `read_dynamic_data<float>`. -/
def readFloatData (size : Nat) : Parser (List F32) := readMany readFloat size

def readStaticDelimiter : Parser PUnit := do
  let temp ← readChar
  if temp ≠ 0x0A then note .staticDelimiter else pure ⟨⟩

def readEndDelimiter : Parser PUnit := do
  let temp ← readChar
  if temp ≠ 0x0D then note .endDelimiter
  let temp ← readChar
  if temp ≠ 0x0A then note .endDelimiter

theorem decodes_sizeT {n : Nat} (h : n < 2 ^ 64) : Decodes readSizeT (toLE 8 n) n := by
  have htake := exactly_take (ω := Complaint) (toLE 8 n) shortRead
  rw [toLE_length] at htake
  have hmap := htake.map ofLE
  rwa [ofLE_toLE_of_lt (by norm_num; omega)] at hmap

theorem decodes_char (b : UInt8) : Decodes readChar [b] b :=
  (exactly_take [b] shortRead).map (fun bs => bs.headD 0)

theorem decodes_bool (b : Bool) : Decodes readBool [b.toUInt8] b := by
  have hmap := (exactly_take (ω := Complaint) [b.toUInt8] shortRead).map
    (fun bs => decide (bs.headD 0 ≠ 0))
  cases b <;> exact hmap

theorem decodes_float (x : F32) : Decodes readFloat (toLE 4 x.toNat) x := by
  have htake := exactly_take (ω := Complaint) (toLE 4 x.toNat) shortRead
  rw [toLE_length] at htake
  have hmap := htake.map (fun bs => UInt32.ofNat (ofLE bs))
  rwa [ofLE_toLE_of_lt (by have := x.toNat_lt; norm_num; omega), UInt32.ofNat_toNat] at hmap

theorem decodes_charData (chars : Bytes) :
    Decodes (readCharData chars.length) chars (chars ++ [0]) := by
  have hmany := exactly_readMany (p := readChar) (fun b => [b]) id chars
    (fun b _ => decodes_char b)
  rw [List.flatMap_singleton', List.map_id] at hmany
  exact hmany.map (fun chars => chars ++ [0])

theorem decodes_floatData (xs : List F32) :
    Decodes (readFloatData xs.length) (floatBytes xs) xs := by
  have hmany := exactly_readMany (p := readFloat) (fun x => toLE 4 x.toNat) id xs
    (fun x _ => decodes_float x)
  rwa [List.map_id] at hmany

theorem decodes_staticDelimiter : Decodes readStaticDelimiter [0x0A] PUnit.unit :=
  (decodes_char 0x0A).bind_nil (exactly_pure PUnit.unit shortRead)

theorem decodes_endDelimiter : Decodes readEndDelimiter [0x0D, 0x0A] PUnit.unit := by
  have hcr := decodes_char 0x0D
  exact hcr.bind ((decodes_char 0x0A).bind_nil (exactly_pure PUnit.unit shortRead))

/-! ## The arguments of the six commands

A field is `0`, empty or `false` until it has been read.
-/

structure InitializeArgs where
  d : Nat := 0
  maxMem : Nat := 0
  nTotal : Nat := 0
  useFlat : Bool := false
  size : Nat := 0
  dbUrl : Bytes := []
  deriving DecidableEq, Repr

structure TrainArgs where
  size : Nat := 0
  trainingData : List F32 := []
  deriving DecidableEq, Repr

structure LoadArgs where
  nload : Nat := 0
  size : Nat := 0
  xq : List F32 := []
  deriving DecidableEq, Repr

structure SearchArgs where
  n : Nat := 0
  k : Nat := 0
  nprobe : Nat := 0
  requireAll : Bool := false
  size : Nat := 0
  xq : List F32 := []
  deriving DecidableEq, Repr

structure EvictArgs where
  nevict : Nat := 0
  size : Nat := 0
  xq : List F32 := []
  deriving DecidableEq, Repr

structure AddArgs where
  numDocs : Nat := 0
  size : Nat := 0
  ids : List Bytes := []
  embeddings : List F32 := []
  deriving DecidableEq, Repr

namespace InitializeArgs

def staticSize : Nat := 4 * 8 + 1 + 1

def deserializeStatic (a : InitializeArgs) : Parser InitializeArgs := do
  let d ← readSizeT
  let maxMem ← readSizeT
  let nTotal ← readSizeT
  let useFlat ← readBool
  let size ← readSizeT
  readStaticDelimiter
  pure { a with d := d, maxMem := maxMem, nTotal := nTotal, useFlat := useFlat, size := size }

def deserializeDynamic (a : InitializeArgs) : Parser InitializeArgs := do
  let dbUrl ← readCharData a.size
  readEndDelimiter
  pure { a with dbUrl := dbUrl }

end InitializeArgs

namespace TrainArgs

def staticSize : Nat := 9

def deserializeStatic (a : TrainArgs) : Parser TrainArgs := do
  let size ← readSizeT
  readStaticDelimiter
  pure { a with size := size }

def deserializeDynamic (a : TrainArgs) : Parser TrainArgs := do
  let trainingData ← readFloatData (a.size / 4)
  readEndDelimiter
  pure { a with trainingData := trainingData }

end TrainArgs

namespace LoadArgs

def staticSize : Nat := 2 * 8 + 1

def deserializeStatic (a : LoadArgs) : Parser LoadArgs := do
  let nload ← readSizeT
  let size ← readSizeT
  readStaticDelimiter
  pure { a with nload := nload, size := size }

def deserializeDynamic (a : LoadArgs) : Parser LoadArgs := do
  let xq ← readFloatData (a.size / 4)
  readEndDelimiter
  pure { a with xq := xq }

end LoadArgs

namespace SearchArgs

def staticSize : Nat := 4 * 8 + 1 + 1

def deserializeStatic (a : SearchArgs) : Parser SearchArgs := do
  let n ← readSizeT
  let k ← readSizeT
  let nprobe ← readSizeT
  let requireAll ← readBool
  let size ← readSizeT
  readStaticDelimiter
  pure { a with n := n, k := k, nprobe := nprobe, requireAll := requireAll, size := size }

def deserializeDynamic (a : SearchArgs) : Parser SearchArgs := do
  let xq ← readFloatData (a.size / 4)
  readEndDelimiter
  pure { a with xq := xq }

end SearchArgs

namespace EvictArgs

def staticSize : Nat := 2 * 8 + 1

def deserializeStatic (a : EvictArgs) : Parser EvictArgs := do
  let nevict ← readSizeT
  let size ← readSizeT
  readStaticDelimiter
  pure { a with nevict := nevict, size := size }

def deserializeDynamic (a : EvictArgs) : Parser EvictArgs := do
  let xq ← readFloatData (a.size / 4)
  readEndDelimiter
  pure { a with xq := xq }

end EvictArgs

namespace AddArgs

/-- One word short of what `deserializeStatic` reads. -/
def staticSize : Nat := 8 + 1

def deserializeStatic (a : AddArgs) : Parser AddArgs := do
  let numDocs ← readSizeT
  let size ← readSizeT
  readStaticDelimiter
  pure { a with numDocs := numDocs, size := size }

/-- One id and its length prefix: the buffer, and the bytes it took. -/
def readId : Parser (Bytes × Nat) := do
  let idLen ← readSizeT
  let id ← readCharData idLen
  pure (id, idLen + 8)

def deserializeDynamic (a : AddArgs) : Parser AddArgs := do
  let ids ← readMany readId a.numDocs
  let totalSize := (ids.map Prod.snd).sum
  readStaticDelimiter
  let totalSize := (totalSize + 1) % 2 ^ 64
  let numFloats := sizeSub a.size totalSize / 4
  let embeddings ← readFloatData numFloats
  readEndDelimiter
  pure { a with ids := a.ids ++ ids.map Prod.fst, embeddings := embeddings }

end AddArgs

/-! ## `struct Args` -/

/-- A pointer to the arguments of a command. -/
inductive Args
  | initializeArgs (a : InitializeArgs)
  | trainArgs (a : TrainArgs)
  | loadArgs (a : LoadArgs)
  | searchArgs (a : SearchArgs)
  | evictArgs (a : EvictArgs)
  | addArgs (a : AddArgs)
  deriving DecidableEq, Repr

/-- `enum Command`. -/
inductive Command
  | INITIALIZE
  | TRAIN
  | LOAD
  | SEARCH
  | EVICT
  | ADD
  deriving DecidableEq, Repr

namespace Command

/-- The command line that stands for the command. -/
def name : Command → Bytes
  | .INITIALIZE => ascii "INITIALIZE"
  | .TRAIN => ascii "TRAIN"
  | .LOAD => ascii "LOAD"
  | .SEARCH => ascii "SEARCH"
  | .EVICT => ascii "EVICT"
  | .ADD => ascii "ADD"

/-- The arguments as they are made, before anything is read. -/
def newArgs : Command → Args
  | .INITIALIZE => .initializeArgs {}
  | .TRAIN => .trainArgs {}
  | .LOAD => .loadArgs {}
  | .SEARCH => .searchArgs {}
  | .EVICT => .evictArgs {}
  | .ADD => .addArgs {}

theorem name_injective : Function.Injective name := by
  intro a b h
  cases a <;> cases b <;> first | rfl | exact absurd h (by decide)

end Command

namespace Args

def getCommand : Args → Command
  | .initializeArgs _ => .INITIALIZE
  | .trainArgs _ => .TRAIN
  | .loadArgs _ => .LOAD
  | .searchArgs _ => .SEARCH
  | .evictArgs _ => .EVICT
  | .addArgs _ => .ADD

def getStaticSize : Args → Nat
  | .initializeArgs _ => InitializeArgs.staticSize
  | .trainArgs _ => TrainArgs.staticSize
  | .loadArgs _ => LoadArgs.staticSize
  | .searchArgs _ => SearchArgs.staticSize
  | .evictArgs _ => EvictArgs.staticSize
  | .addArgs _ => AddArgs.staticSize

def size : Args → Nat
  | .initializeArgs a => a.size
  | .trainArgs a => a.size
  | .loadArgs a => a.size
  | .searchArgs a => a.size
  | .evictArgs a => a.size
  | .addArgs a => a.size

def deserializeStatic : Args → Parser Args
  | .initializeArgs a => .initializeArgs <$> a.deserializeStatic
  | .trainArgs a => .trainArgs <$> a.deserializeStatic
  | .loadArgs a => .loadArgs <$> a.deserializeStatic
  | .searchArgs a => .searchArgs <$> a.deserializeStatic
  | .evictArgs a => .evictArgs <$> a.deserializeStatic
  | .addArgs a => .addArgs <$> a.deserializeStatic

def deserializeDynamic : Args → Parser Args
  | .initializeArgs a => .initializeArgs <$> a.deserializeDynamic
  | .trainArgs a => .trainArgs <$> a.deserializeDynamic
  | .loadArgs a => .loadArgs <$> a.deserializeDynamic
  | .searchArgs a => .searchArgs <$> a.deserializeDynamic
  | .evictArgs a => .evictArgs <$> a.deserializeDynamic
  | .addArgs a => .addArgs <$> a.deserializeDynamic

end Args

/-! ## What the decoders consume -/

theorem decodes_initializeStatic (a : InitializeArgs) {d maxMem nTotal size : Nat}
    (useFlat : Bool) (hd : d < 2 ^ 64) (hmem : maxMem < 2 ^ 64) (htotal : nTotal < 2 ^ 64)
    (hsize : size < 2 ^ 64) :
    Decodes a.deserializeStatic
      (toLE 8 d ++ (toLE 8 maxMem ++ (toLE 8 nTotal ++ ([useFlat.toUInt8] ++
        (toLE 8 size ++ [0x0A])))))
      { a with d := d, maxMem := maxMem, nTotal := nTotal, useFlat := useFlat, size := size } :=
  (decodes_sizeT hd).bind <| (decodes_sizeT hmem).bind <| (decodes_sizeT htotal).bind <|
    (decodes_bool useFlat).bind <| (decodes_sizeT hsize).bind <|
    decodes_staticDelimiter.bind_nil (exactly_pure _ _)

theorem decodes_initializeDynamic (a : InitializeArgs) {url : Bytes}
    (h : a.size = url.length) :
    Decodes a.deserializeDynamic (url ++ [0x0D, 0x0A]) { a with dbUrl := url ++ [0] } := by
  unfold InitializeArgs.deserializeDynamic
  rw [h]
  exact (decodes_charData url).bind (decodes_endDelimiter.bind_nil (exactly_pure _ _))

theorem decodes_trainStatic (a : TrainArgs) {size : Nat} (hsize : size < 2 ^ 64) :
    Decodes a.deserializeStatic (toLE 8 size ++ [0x0A]) { a with size := size } :=
  (decodes_sizeT hsize).bind (decodes_staticDelimiter.bind_nil (exactly_pure _ _))

theorem decodes_loadStatic (a : LoadArgs) {nload size : Nat} (hn : nload < 2 ^ 64)
    (hsize : size < 2 ^ 64) :
    Decodes a.deserializeStatic (toLE 8 nload ++ (toLE 8 size ++ [0x0A]))
      { a with nload := nload, size := size } :=
  (decodes_sizeT hn).bind <| (decodes_sizeT hsize).bind <|
    decodes_staticDelimiter.bind_nil (exactly_pure _ _)

theorem decodes_searchStatic (a : SearchArgs) {n k nprobe size : Nat} (requireAll : Bool)
    (hn : n < 2 ^ 64) (hk : k < 2 ^ 64) (hnprobe : nprobe < 2 ^ 64)
    (hsize : size < 2 ^ 64) :
    Decodes a.deserializeStatic
      (toLE 8 n ++ (toLE 8 k ++ (toLE 8 nprobe ++ ([requireAll.toUInt8] ++
        (toLE 8 size ++ [0x0A])))))
      { a with n := n, k := k, nprobe := nprobe, requireAll := requireAll, size := size } :=
  (decodes_sizeT hn).bind <| (decodes_sizeT hk).bind <| (decodes_sizeT hnprobe).bind <|
    (decodes_bool requireAll).bind <| (decodes_sizeT hsize).bind <|
    decodes_staticDelimiter.bind_nil (exactly_pure _ _)

theorem decodes_evictStatic (a : EvictArgs) {nevict size : Nat} (hn : nevict < 2 ^ 64)
    (hsize : size < 2 ^ 64) :
    Decodes a.deserializeStatic (toLE 8 nevict ++ (toLE 8 size ++ [0x0A]))
      { a with nevict := nevict, size := size } :=
  (decodes_sizeT hn).bind <| (decodes_sizeT hsize).bind <|
    decodes_staticDelimiter.bind_nil (exactly_pure _ _)

theorem decodes_addStatic (a : AddArgs) {numDocs size : Nat} (hn : numDocs < 2 ^ 64)
    (hsize : size < 2 ^ 64) :
    Decodes a.deserializeStatic (toLE 8 numDocs ++ (toLE 8 size ++ [0x0A]))
      { a with numDocs := numDocs, size := size } :=
  (decodes_sizeT hn).bind <| (decodes_sizeT hsize).bind <|
    decodes_staticDelimiter.bind_nil (exactly_pure _ _)

/-- The floats of a declared size, and the end delimiter: the dynamic part of
four of the commands. -/
theorem decodes_floatsThenEnd {α : Type} {size : Nat} {xs : List F32}
    (h : size = 4 * xs.length) (f : List F32 → α) :
    Decodes (do
        let data ← readFloatData (size / 4)
        readEndDelimiter
        pure (f data)) (floatBytes xs ++ [0x0D, 0x0A]) (f xs) := by
  have hcount : size / 4 = xs.length := by omega
  rw [hcount]
  exact (decodes_floatData xs).bind (decodes_endDelimiter.bind_nil (exactly_pure _ _))

theorem decodes_trainDynamic (a : TrainArgs) {xs : List F32} (h : a.size = 4 * xs.length) :
    Decodes a.deserializeDynamic (floatBytes xs ++ [0x0D, 0x0A])
      { a with trainingData := xs } :=
  decodes_floatsThenEnd h (fun data => ({ a with trainingData := data } : TrainArgs))

theorem decodes_loadDynamic (a : LoadArgs) {xs : List F32} (h : a.size = 4 * xs.length) :
    Decodes a.deserializeDynamic (floatBytes xs ++ [0x0D, 0x0A]) { a with xq := xs } :=
  decodes_floatsThenEnd h (fun data => ({ a with xq := data } : LoadArgs))

theorem decodes_searchDynamic (a : SearchArgs) {xs : List F32}
    (h : a.size = 4 * xs.length) :
    Decodes a.deserializeDynamic (floatBytes xs ++ [0x0D, 0x0A]) { a with xq := xs } :=
  decodes_floatsThenEnd h (fun data => ({ a with xq := data } : SearchArgs))

theorem decodes_evictDynamic (a : EvictArgs) {xs : List F32} (h : a.size = 4 * xs.length) :
    Decodes a.deserializeDynamic (floatBytes xs ++ [0x0D, 0x0A]) { a with xq := xs } :=
  decodes_floatsThenEnd h (fun data => ({ a with xq := data } : EvictArgs))

/-- An id behind its length. -/
def idBytes (id : Bytes) : Bytes := toLE 8 id.length ++ id

/-- The bytes the ids of ADD take. -/
def idsSize (ids : List Bytes) : Nat := (ids.map (fun id => id.length + 8)).sum

theorem decodes_id {id : Bytes} (h : id.length < 2 ^ 64) :
    Decodes AddArgs.readId (idBytes id) (id ++ [0], id.length + 8) :=
  (decodes_sizeT h).bind ((decodes_charData id).bind_nil (exactly_pure _ _))

theorem length_le_idsSize {ids : List Bytes} {id : Bytes} (h : id ∈ ids) :
    id.length + 8 ≤ idsSize ids :=
  List.single_le_sum (fun _ _ => Nat.zero_le _) _ (List.mem_map_of_mem h)

theorem length_mul_le_idsSize (ids : List Bytes) : 8 * ids.length ≤ idsSize ids := by
  induction ids with
  | nil => exact Nat.le_refl 0
  | cons id ids ih =>
      unfold idsSize at ih ⊢
      rw [List.map_cons, List.sum_cons, List.length_cons]
      omega

theorem idsBytes_length (ids : List Bytes) :
    (ids.flatMap idBytes).length = idsSize ids := by
  simp only [idsSize, idBytes, List.length_flatMap, List.length_append, toLE_length,
    Nat.add_comm 8]

/-- The declared size of ADD, less what the ids and the delimiter took, is the
size of the embeddings. -/
theorem decodes_addDynamic (a : AddArgs) {ids : List Bytes} {xs : List F32}
    (hdocs : a.numDocs = ids.length) (hsize : a.size = idsSize ids + 1 + 4 * xs.length)
    (hlt : a.size < 2 ^ 64) :
    Decodes a.deserializeDynamic
      (ids.flatMap idBytes ++ ([0x0A] ++ (floatBytes xs ++ [0x0D, 0x0A])))
      { a with ids := a.ids ++ ids.map (fun id => id ++ [0]), embeddings := xs } := by
  have hids : Decodes (readMany AddArgs.readId a.numDocs) (ids.flatMap idBytes)
      (ids.map (fun id => (id ++ [0], id.length + 8))) := by
    rw [hdocs]
    refine exactly_readMany idBytes _ ids (fun id hid => decodes_id ?_)
    have := length_le_idsSize hid
    omega
  have hsum : ((ids.map (fun id => (id ++ [(0 : UInt8)], id.length + 8))).map
      Prod.snd).sum = idsSize ids := by
    rw [List.map_map]
    rfl
  have hcount : sizeSub a.size ((idsSize ids + 1) % 2 ^ 64) = 4 * xs.length := by
    unfold sizeSub
    omega
  have hbuffers : (ids.map (fun id => (id ++ [(0 : UInt8)], id.length + 8))).map
      Prod.fst = ids.map (fun id => id ++ [0]) := by
    rw [List.map_map]
    rfl
  refine hids.bind (decodes_staticDelimiter.bind ?_)
  rw [hsum, hbuffers]
  exact decodes_floatsThenEnd hcount
    (fun data => { a with ids := a.ids ++ ids.map (fun id => id ++ [0]), embeddings := data })

end Periplus.Ports
