import Periplus.Ports.ClientFrames

/-!
# What the decoders accept

The lemmas `decodes_…` of `Args` are about the bytes that a client writes.  Here the
decoders meet any bytes: for each of them the language of what it comes back from, with
the complaints it prints.  A wrong delimiter is part of the language, since the decoder
goes on behind it.
-/

namespace Periplus.Ports

open Periplus.Verified.Memory
open Periplus.Verified.Reader

/-! ## Single values -/

theorem accepts_word (w : Nat) :
    Accepts (ofLE <$> take shortRead w : Parser Nat)
      (fun xs n remarks => n < 256 ^ w ∧ xs = toLE w n ∧ remarks = []) := by
  apply ((accepts_take shortRead w).map ofLE).congr
  intro xs n remarks
  constructor
  · rintro ⟨a, ⟨rfl, rfl, rfl⟩, rfl⟩
    exact ⟨ofLE_lt a, (toLE_ofLE a).symm, rfl⟩
  · rintro ⟨hn, rfl, rfl⟩
    exact ⟨toLE w n, ⟨toLE_length w n, rfl, rfl⟩, (ofLE_toLE_of_lt hn).symm⟩

theorem accepts_sizeT :
    Accepts readSizeT (fun xs n remarks => n < 2 ^ 64 ∧ xs = toLE 8 n ∧ remarks = []) := by
  have h := accepts_word 8
  rwa [show (256 : Nat) ^ 8 = 2 ^ 64 by norm_num] at h

theorem accepts_char :
    Accepts readChar (fun xs b remarks => True ∧ xs = [b] ∧ remarks = []) := by
  apply ((accepts_take shortRead 1).map (fun bs => bs.headD 0)).congr
  intro xs b remarks
  constructor
  · rintro ⟨a, ⟨hlen, rfl, rfl⟩, rfl⟩
    obtain ⟨c, rfl⟩ := List.length_eq_one_iff.mp hlen
    exact ⟨trivial, rfl, rfl⟩
  · rintro ⟨_, rfl, rfl⟩
    exact ⟨[b], ⟨rfl, rfl, rfl⟩, rfl⟩

theorem accepts_bool :
    Accepts readBool (fun xs flag remarks => ∃ b, xs = [b] ∧ flag = decide (b ≠ 0) ∧
      remarks = []) := by
  apply ((accepts_take shortRead 1).map (fun bs => decide (bs.headD 0 ≠ 0))).congr
  intro xs flag remarks
  constructor
  · rintro ⟨a, ⟨hlen, rfl, rfl⟩, rfl⟩
    obtain ⟨b, rfl⟩ := List.length_eq_one_iff.mp hlen
    exact ⟨b, rfl, rfl, rfl⟩
  · rintro ⟨b, rfl, rfl, rfl⟩
    exact ⟨[b], ⟨rfl, rfl, rfl⟩, rfl⟩

theorem accepts_float :
    Accepts readFloat (fun xs x remarks => True ∧ xs = toLE 4 x.toNat ∧ remarks = []) := by
  have hmap : (readFloat : Parser F32) = UInt32.ofNat <$> (ofLE <$> take shortRead 4) := by
    rw [readFloat, Functor.map_map]
  rw [hmap]
  apply ((accepts_word 4).map UInt32.ofNat).congr
  intro xs x remarks
  constructor
  · rintro ⟨n, ⟨hn, rfl, rfl⟩, rfl⟩
    rw [UInt32.toNat_ofNat_of_lt' (by simpa [UInt32.size] using hn)]
    exact ⟨trivial, rfl, rfl⟩
  · rintro ⟨_, rfl, rfl⟩
    exact ⟨x.toNat, ⟨by have := x.toNat_lt; norm_num; omega, rfl, rfl⟩, by simp⟩

theorem accepts_charData (size : Nat) :
    Accepts (readCharData size)
      (fun xs data remarks => xs.length = size ∧ data = xs ++ [0] ∧ remarks = []) := by
  apply ((accepts_readMany accepts_char size).map (fun chars => chars ++ [0])).congr
  intro xs data remarks
  simp only [List.flatMap_singleton']
  constructor
  · rintro ⟨chars, ⟨hlen, _, rfl, rfl⟩, rfl⟩
    exact ⟨hlen, rfl, rfl⟩
  · rintro ⟨hlen, rfl, rfl⟩
    exact ⟨xs, ⟨hlen, fun _ _ => trivial, rfl, rfl⟩, rfl⟩

theorem accepts_floatData (size : Nat) :
    Accepts (readFloatData size)
      (fun xs data remarks => data.length = size ∧ xs = floatBytes data ∧ remarks = []) := by
  apply (accepts_readMany accepts_float size).congr
  intro xs data remarks
  constructor
  · rintro ⟨hlen, _, rfl, rfl⟩
    exact ⟨hlen, rfl, rfl⟩
  · rintro ⟨hlen, rfl, rfl⟩
    exact ⟨hlen, fun _ _ => trivial, rfl, rfl⟩

/-! ## Delimiters -/

/-- What `read_static_delimiter` prints about a byte. -/
def staticComplaint (b : UInt8) : List Complaint := if b = 0x0A then [] else [.staticDelimiter]

/-- What `read_end_delimiter` prints about two bytes. -/
def endComplaints (b₁ b₂ : UInt8) : List Complaint :=
  (if b₁ = 0x0D then [] else [.endDelimiter]) ++ (if b₂ = 0x0A then [] else [.endDelimiter])

/-- A byte is compared, and a complaint is printed when it is another one. -/
private theorem accepts_compared (expected : UInt8) (complaint : Complaint) :
    Accepts (do
        let temp ← readChar
        if temp ≠ expected then note complaint else pure ⟨⟩)
      (fun xs _ remarks => ∃ b, xs = [b] ∧ remarks = if b = expected then [] else [complaint]) := by
  have hnext : ∀ temp : UInt8, Accepts
      (if temp ≠ expected then note complaint else pure ⟨⟩ : Parser PUnit)
      (fun xs _ remarks => xs = [] ∧ remarks = if temp = expected then [] else [complaint]) := by
    intro temp
    by_cases h : temp = expected
    · rw [if_neg (not_not.mpr h)]
      apply (accepts_pure PUnit.unit).congr
      intro xs u remarks
      rw [if_pos h]
      exact ⟨fun h => ⟨h.1, h.2.2⟩, fun h => ⟨h.1, rfl, h.2⟩⟩
    · rw [if_pos h]
      apply (accepts_note complaint).congr
      intro xs u remarks
      rw [if_neg h]
  apply (accepts_char.bind hnext).congr
  intro xs u remarks
  constructor
  · rintro ⟨b, _, _, _, _, rfl, rfl, ⟨_, rfl, rfl⟩, rfl, rfl⟩
    exact ⟨b, rfl, rfl⟩
  · rintro ⟨b, rfl, rfl⟩
    exact ⟨b, [b], [], [], _, rfl, rfl, ⟨trivial, rfl, rfl⟩, rfl, rfl⟩

theorem accepts_staticDelimiter :
    Accepts readStaticDelimiter
      (fun xs _ remarks => ∃ b, xs = [b] ∧ remarks = staticComplaint b) :=
  accepts_compared 0x0A .staticDelimiter

theorem accepts_endDelimiter :
    Accepts readEndDelimiter
      (fun xs _ remarks => ∃ b₁ b₂, xs = [b₁, b₂] ∧ remarks = endComplaints b₁ b₂) := by
  have hsplit : readEndDelimiter = (do
      (do
        let temp ← readChar
        if temp ≠ 0x0D then note .endDelimiter else pure ⟨⟩)
      (do
        let temp ← readChar
        if temp ≠ 0x0A then note .endDelimiter else pure ⟨⟩)) := by
    unfold readEndDelimiter
    rw [bind_assoc]
    congr 1
    funext temp
    by_cases h : temp = 0x0D
    · rw [if_neg (not_not.mpr h), if_neg (not_not.mpr h), pure_bind]
    · rw [if_pos h, if_pos h]
  rw [hsplit]
  apply ((accepts_compared 0x0D .endDelimiter).bind
    (fun _ => accepts_compared 0x0A .endDelimiter)).congr
  intro xs u remarks
  constructor
  · rintro ⟨_, _, _, _, _, rfl, rfl, ⟨b₁, rfl, rfl⟩, b₂, rfl, rfl⟩
    exact ⟨b₁, b₂, rfl, rfl⟩
  · rintro ⟨b₁, b₂, rfl, rfl⟩
    exact ⟨⟨⟩, [b₁], [b₂], _, _, rfl, rfl, ⟨b₁, rfl, rfl⟩, b₂, rfl, rfl⟩

/-! ## The static parts -/

/-- The last word of a static part, and its delimiter. -/
theorem accepts_sizeThenEnd {α : Type} (f : Nat → α) :
    Accepts (do
        let size ← readSizeT
        readStaticDelimiter
        pure (f size))
      (fun xs a remarks => ∃ size b, size < 2 ^ 64 ∧ xs = toLE 8 size ++ [b] ∧ a = f size ∧
        remarks = staticComplaint b) := by
  apply (accepts_sizeT.bind (fun size => accepts_staticDelimiter.bind
    (fun _ => accepts_pure (f size)))).congr
  intro xs a remarks
  constructor
  · rintro ⟨size, _, _, _, _, rfl, rfl, ⟨hsize, rfl, rfl⟩, _, _, _, _, _, rfl, rfl,
      ⟨b, rfl, rfl⟩, rfl, rfl, rfl⟩
    exact ⟨size, b, hsize, rfl, rfl, by simp⟩
  · rintro ⟨size, b, hsize, rfl, rfl, rfl⟩
    exact ⟨size, toLE 8 size, [b], [], _, rfl, rfl, ⟨hsize, rfl, rfl⟩, ⟨⟩, [b], [], _, [],
      (List.append_nil _).symm, (List.append_nil _).symm, ⟨b, rfl, rfl⟩, rfl, rfl, rfl⟩

/-- One word before it. -/
theorem accepts_wordThenEnd {α : Type} (f : Nat → Nat → α) :
    Accepts (do
        let n ← readSizeT
        let size ← readSizeT
        readStaticDelimiter
        pure (f n size))
      (fun xs a remarks => ∃ n size b, n < 2 ^ 64 ∧ size < 2 ^ 64 ∧
        xs = toLE 8 n ++ (toLE 8 size ++ [b]) ∧ a = f n size ∧ remarks = staticComplaint b) := by
  apply (accepts_sizeT.bind (fun n => accepts_sizeThenEnd (f n))).congr
  intro xs a remarks
  constructor
  · rintro ⟨n, _, _, _, _, rfl, rfl, ⟨hn, rfl, rfl⟩, size, b, hsize, rfl, rfl, rfl⟩
    exact ⟨n, size, b, hn, hsize, rfl, rfl, rfl⟩
  · rintro ⟨n, size, b, hn, hsize, rfl, rfl, rfl⟩
    exact ⟨n, _, _, [], _, rfl, rfl, ⟨hn, rfl, rfl⟩, size, b, hsize, rfl, rfl, rfl⟩

/-- Three words and a flag before it. -/
theorem accepts_wordsThenEnd {α : Type} (f : Nat → Nat → Nat → Bool → Nat → α) :
    Accepts (do
        let x ← readSizeT
        let y ← readSizeT
        let z ← readSizeT
        let flag ← readBool
        let size ← readSizeT
        readStaticDelimiter
        pure (f x y z flag size))
      (fun xs a remarks => ∃ x y z flag size b, (x < 2 ^ 64 ∧ y < 2 ^ 64 ∧ z < 2 ^ 64) ∧
        size < 2 ^ 64 ∧
        xs = toLE 8 x ++ (toLE 8 y ++ (toLE 8 z ++ (flag :: (toLE 8 size ++ [b])))) ∧
        a = f x y z (decide (flag ≠ 0)) size ∧ remarks = staticComplaint b) := by
  apply (accepts_sizeT.bind (fun x => accepts_sizeT.bind (fun y => accepts_sizeT.bind (fun z =>
    accepts_bool.bind (fun flag => accepts_sizeThenEnd (f x y z flag)))))).congr
  intro xs a remarks
  constructor
  · rintro ⟨x, _, _, _, _, rfl, rfl, ⟨hx, rfl, rfl⟩, y, _, _, _, _, rfl, rfl, ⟨hy, rfl, rfl⟩,
      z, _, _, _, _, rfl, rfl, ⟨hz, rfl, rfl⟩, _, _, _, _, _, rfl, rfl, ⟨flag, rfl, rfl, rfl⟩,
      size, b, hsize, rfl, rfl, rfl⟩
    exact ⟨x, y, z, flag, size, b, ⟨hx, hy, hz⟩, hsize, rfl, rfl, rfl⟩
  · rintro ⟨x, y, z, flag, size, b, ⟨hx, hy, hz⟩, hsize, rfl, rfl, rfl⟩
    exact ⟨x, _, _, [], _, rfl, rfl, ⟨hx, rfl, rfl⟩, y, _, _, [], _, rfl, rfl, ⟨hy, rfl, rfl⟩,
      z, _, _, [], _, rfl, rfl, ⟨hz, rfl, rfl⟩, _, [flag], _, [], _, rfl, rfl,
      ⟨flag, rfl, rfl, rfl⟩, size, b, hsize, rfl, rfl, rfl⟩

/-- The declared size: the last word of the fields. -/
def declaredSize (fields : Bytes) : Nat := ofLE (fields.drop (fields.length - 8))

/-- The number of documents that an ADD declares: the first word. -/
def declaredDocs (fields : Bytes) : Nat := ofLE (fields.take 8)

theorem declaredSize_append (front : Bytes) {size : Nat} (h : size < 2 ^ 64) :
    declaredSize (front ++ toLE 8 size) = size := by
  have hlen : (front ++ toLE 8 size).length - 8 = front.length := by
    rw [List.length_append, toLE_length, Nat.add_sub_cancel]
  rw [declaredSize, hlen, List.drop_left, ofLE_toLE_of_lt (by norm_num; omega)]

theorem declaredDocs_append {n : Nat} (h : n < 2 ^ 64) (back : Bytes) :
    declaredDocs (toLE 8 n ++ back) = n := by
  rw [declaredDocs, List.take_left' (toLE_length 8 n), ofLE_toLE_of_lt (by norm_num; omega)]

/-- What `deserialize_static` makes of the fields. -/
structure StaticFields (command : Command) (fields : Bytes) (args : Args) : Prop where
  length : fields.length + 1 = command.staticLength
  size : args.size = declaredSize fields
  size_lt : args.size < 2 ^ 64
  kind : args.getCommand = command
  docs : ∀ a, args = .addArgs a → a.numDocs = declaredDocs fields ∧ a.ids = []

theorem StaticFields.of_size {command : Command} {args : Args} {size : Nat} (front : Bytes)
    (hlen : front.length + 9 = command.staticLength) (hsize : size < 2 ^ 64)
    (hargs : args.size = size) (hkind : args.getCommand = command)
    (hdocs : ∀ a, args = .addArgs a →
      a.numDocs = declaredDocs (front ++ toLE 8 size) ∧ a.ids = []) :
    StaticFields command (front ++ toLE 8 size) args where
  length := by
    rw [List.length_append, toLE_length, ← hlen]
  size := by
    rw [hargs, declaredSize_append front hsize]
  size_lt := hargs ▸ hsize
  kind := hkind
  docs := hdocs

/-- **The static part of every command**: the fields, and a byte that is taken for the
delimiter. -/
theorem static_spec {command : Command} {is is' : IStream} {args : Args}
    (h : command.newArgs.deserializeStatic is = .ok (args, is')) :
    ∃ fields b, StaticFields command fields args ∧ is.rest = fields ++ b :: is'.rest ∧
      is'.log = is.log ++ staticComplaint b := by
  cases command with
  | INITIALIZE =>
      obtain ⟨a, ha, rfl⟩ := read_map.mp h
      obtain ⟨_, _, ⟨x, y, z, flag, size, b, _, hsize, rfl, rfl, rfl⟩, hrest, hlog⟩ :=
        (accepts_wordsThenEnd (fun d maxMem nTotal useFlat size => ({ ({} : InitializeArgs) with
          d := d, maxMem := maxMem, nTotal := nTotal, useFlat := useFlat, size := size } :
            InitializeArgs)) is a is').mp ha
      exact ⟨(toLE 8 x ++ (toLE 8 y ++ (toLE 8 z ++ [flag]))) ++ toLE 8 size, b,
        StaticFields.of_size _ (by simp [Command.staticLength]) hsize rfl rfl
          (fun a ha => absurd ha (by simp)), by simp [hrest], hlog⟩
  | SEARCH =>
      obtain ⟨a, ha, rfl⟩ := read_map.mp h
      obtain ⟨_, _, ⟨x, y, z, flag, size, b, _, hsize, rfl, rfl, rfl⟩, hrest, hlog⟩ :=
        (accepts_wordsThenEnd (fun n k nprobe requireAll size => ({ ({} : SearchArgs) with
          n := n, k := k, nprobe := nprobe, requireAll := requireAll, size := size } :
            SearchArgs)) is a is').mp ha
      exact ⟨(toLE 8 x ++ (toLE 8 y ++ (toLE 8 z ++ [flag]))) ++ toLE 8 size, b,
        StaticFields.of_size _ (by simp [Command.staticLength]) hsize rfl rfl
          (fun a ha => absurd ha (by simp)), by simp [hrest], hlog⟩
  | TRAIN =>
      obtain ⟨a, ha, rfl⟩ := read_map.mp h
      obtain ⟨_, _, ⟨size, b, hsize, rfl, rfl, rfl⟩, hrest, hlog⟩ :=
        (accepts_sizeThenEnd (fun size => ({ ({} : TrainArgs) with size := size } :
          TrainArgs)) is a is').mp ha
      exact ⟨[] ++ toLE 8 size, b, StaticFields.of_size _ rfl hsize rfl rfl
        (fun a ha => absurd ha (by simp)), by simp [hrest], hlog⟩
  | LOAD =>
      obtain ⟨a, ha, rfl⟩ := read_map.mp h
      obtain ⟨_, _, ⟨n, size, b, _, hsize, rfl, rfl, rfl⟩, hrest, hlog⟩ :=
        (accepts_wordThenEnd (fun nload size => ({ ({} : LoadArgs) with
          nload := nload, size := size } : LoadArgs)) is a is').mp ha
      exact ⟨toLE 8 n ++ toLE 8 size, b, StaticFields.of_size _ rfl hsize rfl rfl
        (fun a ha => absurd ha (by simp)), by simp [hrest], hlog⟩
  | EVICT =>
      obtain ⟨a, ha, rfl⟩ := read_map.mp h
      obtain ⟨_, _, ⟨n, size, b, _, hsize, rfl, rfl, rfl⟩, hrest, hlog⟩ :=
        (accepts_wordThenEnd (fun nevict size => ({ ({} : EvictArgs) with
          nevict := nevict, size := size } : EvictArgs)) is a is').mp ha
      exact ⟨toLE 8 n ++ toLE 8 size, b, StaticFields.of_size _ rfl hsize rfl rfl
        (fun a ha => absurd ha (by simp)), by simp [hrest], hlog⟩
  | ADD =>
      obtain ⟨a, ha, rfl⟩ := read_map.mp h
      obtain ⟨_, _, ⟨n, size, b, hn, hsize, rfl, rfl, rfl⟩, hrest, hlog⟩ :=
        (accepts_wordThenEnd (fun numDocs size => ({ ({} : AddArgs) with
          numDocs := numDocs, size := size } : AddArgs)) is a is').mp ha
      have hdocs : ∀ a, Args.addArgs { ({} : AddArgs) with numDocs := n, size := size } =
          .addArgs a → a.numDocs = declaredDocs (toLE 8 n ++ toLE 8 size) ∧ a.ids = [] := by
        intro a ha
        rw [← Args.addArgs.inj ha, declaredDocs_append hn]
        exact ⟨rfl, rfl⟩
      exact ⟨toLE 8 n ++ toLE 8 size, b, StaticFields.of_size _ rfl hsize rfl rfl hdocs,
        by simp [hrest], hlog⟩

theorem accepts_static (args : Args) : ∃ P, Accepts args.deserializeStatic P := by
  cases args with
  | initializeArgs a => exact ⟨_, (accepts_wordsThenEnd _).map Args.initializeArgs⟩
  | trainArgs a => exact ⟨_, (accepts_sizeThenEnd _).map Args.trainArgs⟩
  | loadArgs a => exact ⟨_, (accepts_wordThenEnd _).map Args.loadArgs⟩
  | searchArgs a => exact ⟨_, (accepts_wordsThenEnd _).map Args.searchArgs⟩
  | evictArgs a => exact ⟨_, (accepts_wordThenEnd _).map Args.evictArgs⟩
  | addArgs a => exact ⟨_, (accepts_wordThenEnd _).map Args.addArgs⟩

/-- What `deserialize_static` makes of the fields and the byte behind them, wherever they
stand in a stream. -/
structure StaticRead (command : Command) (fields : Bytes) (b : UInt8) (args : Args) : Prop
    extends StaticFields command fields args where
  reads : ∀ rest log, command.newArgs.deserializeStatic ⟨fields ++ b :: rest, log⟩ =
    .ok (args, ⟨rest, log ++ staticComplaint b⟩)

theorem static_read {command : Command} {is is' : IStream} {args : Args}
    (h : command.newArgs.deserializeStatic is = .ok (args, is')) :
    ∃ fields b, StaticRead command fields b args ∧ is.rest = fields ++ b :: is'.rest := by
  obtain ⟨fields, b, hfields, hrest, hlog⟩ := static_spec h
  obtain ⟨P, hP⟩ := accepts_static command.newArgs
  obtain ⟨xs, remarks, hread, hrest', hlog'⟩ := (hP is args is').mp h
  have hxs : xs = fields ++ [b] := by
    have hsame : xs ++ is'.rest = (fields ++ [b]) ++ is'.rest := by
      rw [← hrest', hrest, List.append_assoc, List.singleton_append]
    exact List.append_cancel_right hsame
  have hremarks : remarks = staticComplaint b := by
    have hsame : is.log ++ remarks = is.log ++ staticComplaint b := by rw [← hlog', hlog]
    exact List.append_cancel_left hsame
  refine ⟨fields, b, ⟨hfields, fun rest log => ?_⟩, hrest⟩
  have hreads := hP.reads hread rest log
  rw [hxs, hremarks, List.append_assoc, List.singleton_append] at hreads
  exact hreads

/-- Eight bytes are a word. -/
theorem exists_word (xs : Bytes) (h : 8 ≤ xs.length) :
    ∃ n ys, n < 2 ^ 64 ∧ xs = toLE 8 n ++ ys ∧ ys.length + 8 = xs.length := by
  have hlen : (xs.take 8).length = 8 := by
    rw [List.length_take]
    omega
  have hlt := ofLE_lt (xs.take 8)
  have hword := toLE_ofLE (xs.take 8)
  rw [hlen] at hlt hword
  refine ⟨ofLE (xs.take 8), xs.drop 8, ?_, ?_, ?_⟩
  · rwa [show (256 : Nat) ^ 8 = 2 ^ 64 by norm_num] at hlt
  · rw [hword, List.take_append_drop]
  · rw [List.length_drop]
    omega

/-- The fields behind three words and a flag. -/
theorem exists_words {xs : Bytes} (h : xs.length = 33) :
    ∃ x y z flag size, (x < 2 ^ 64 ∧ y < 2 ^ 64 ∧ z < 2 ^ 64) ∧ size < 2 ^ 64 ∧
      xs = toLE 8 x ++ (toLE 8 y ++ (toLE 8 z ++ (flag :: toLE 8 size))) := by
  obtain ⟨x, xs, hx, rfl, hxs⟩ := exists_word xs (by omega)
  obtain ⟨y, ys, hy, rfl, hys⟩ := exists_word xs (by omega)
  obtain ⟨z, zs, hz, rfl, hzs⟩ := exists_word ys (by omega)
  cases zs with
  | nil =>
      rw [List.length_nil] at hzs
      omega
  | cons flag rest =>
      rw [List.length_cons] at hzs
      obtain ⟨size, ss, hsize, rfl, hss⟩ := exists_word rest (by omega)
      have hnil : ss = [] := List.length_eq_zero_iff.mp (by omega)
      rw [hnil, List.append_nil]
      exact ⟨x, y, z, flag, size, ⟨hx, hy, hz⟩, hsize, rfl⟩

/-- One word and the size. -/
theorem exists_twoWords {xs : Bytes} (h : xs.length = 16) :
    ∃ n size, n < 2 ^ 64 ∧ size < 2 ^ 64 ∧ xs = toLE 8 n ++ toLE 8 size := by
  obtain ⟨n, xs, hn, rfl, hxs⟩ := exists_word xs (by omega)
  obtain ⟨size, ss, hsize, rfl, hss⟩ := exists_word xs (by omega)
  have hnil : ss = [] := List.length_eq_zero_iff.mp (by omega)
  rw [hnil, List.append_nil]
  exact ⟨n, size, hn, hsize, rfl⟩

/-- Enough fields are in the language of the decoder. -/
theorem accepts_fields {command : Command} {fields : Bytes}
    (h : fields.length + 1 = command.staticLength) (b : UInt8) :
    ∃ P args remarks, Accepts command.newArgs.deserializeStatic P ∧
      P (fields ++ [b]) args remarks := by
  cases command with
  | INITIALIZE =>
      obtain ⟨x, y, z, flag, size, hwords, hsize, rfl⟩ := exists_words (Nat.succ.inj h)
      exact ⟨_, _, _, (accepts_wordsThenEnd _).map Args.initializeArgs,
        _, ⟨x, y, z, flag, size, b, hwords, hsize, by simp, rfl, rfl⟩, rfl⟩
  | SEARCH =>
      obtain ⟨x, y, z, flag, size, hwords, hsize, rfl⟩ := exists_words (Nat.succ.inj h)
      exact ⟨_, _, _, (accepts_wordsThenEnd _).map Args.searchArgs,
        _, ⟨x, y, z, flag, size, b, hwords, hsize, by simp, rfl, rfl⟩, rfl⟩
  | TRAIN =>
      obtain ⟨size, ss, hsize, rfl, hss⟩ := exists_word fields (Nat.succ.inj h).ge
      have hnil : ss = [] := by
        have hlen := Nat.succ.inj h
        rw [List.length_append, toLE_length] at hlen
        exact List.length_eq_zero_iff.mp (by omega)
      rw [hnil, List.append_nil]
      exact ⟨_, _, _, (accepts_sizeThenEnd _).map Args.trainArgs,
        _, ⟨size, b, hsize, rfl, rfl, rfl⟩, rfl⟩
  | LOAD =>
      obtain ⟨n, size, hn, hsize, rfl⟩ := exists_twoWords (Nat.succ.inj h)
      exact ⟨_, _, _, (accepts_wordThenEnd _).map Args.loadArgs,
        _, ⟨n, size, b, hn, hsize, List.append_assoc _ _ _, rfl, rfl⟩, rfl⟩
  | EVICT =>
      obtain ⟨n, size, hn, hsize, rfl⟩ := exists_twoWords (Nat.succ.inj h)
      exact ⟨_, _, _, (accepts_wordThenEnd _).map Args.evictArgs,
        _, ⟨n, size, b, hn, hsize, List.append_assoc _ _ _, rfl, rfl⟩, rfl⟩
  | ADD =>
      obtain ⟨n, size, hn, hsize, rfl⟩ := exists_twoWords (Nat.succ.inj h)
      exact ⟨_, _, _, (accepts_wordThenEnd _).map Args.addArgs,
        _, ⟨n, size, b, hn, hsize, List.append_assoc _ _ _, rfl, rfl⟩, rfl⟩

/-- **Any fields are decoded**, if there are enough of them. -/
theorem exists_staticRead {command : Command} {fields : Bytes}
    (h : fields.length + 1 = command.staticLength) (b : UInt8) :
    ∃ args, StaticRead command fields b args := by
  obtain ⟨P, args, remarks, hP, hfields⟩ := accepts_fields h b
  have hargs := hP.reads hfields [] []
  obtain ⟨fields', b', hread, hrest⟩ := static_read hargs
  rw [List.append_nil] at hrest
  have hlen := hread.length
  obtain ⟨rfl, hb⟩ := List.append_inj hrest (by omega)
  rw [← (List.cons.inj hb).1] at hread
  exact ⟨args, hread⟩

/-! ## The dynamic parts -/

/-- A payload, and the end delimiter. -/
private theorem accepts_thenEnd {α β : Type} {p : Parser α} {P : Bytes → α → Prop}
    (hp : Accepts p (fun xs a remarks => P xs a ∧ remarks = [])) (f : α → β) :
    Accepts (do
        let data ← p
        readEndDelimiter
        pure (f data))
      (fun xs c remarks => ∃ payload a b₁ b₂, P payload a ∧ xs = payload ++ [b₁, b₂] ∧ c = f a ∧
        remarks = endComplaints b₁ b₂) := by
  apply (hp.bind (fun a => accepts_endDelimiter.bind (fun _ => accepts_pure (f a)))).congr
  intro xs c remarks
  constructor
  · rintro ⟨a, payload, _, _, _, rfl, rfl, ⟨hP, rfl⟩, _, _, _, _, _, rfl, rfl,
      ⟨b₁, b₂, rfl, rfl⟩, rfl, rfl, rfl⟩
    exact ⟨payload, a, b₁, b₂, hP, rfl, rfl, by simp⟩
  · rintro ⟨payload, a, b₁, b₂, hP, rfl, rfl, rfl⟩
    exact ⟨a, payload, [b₁, b₂], [], _, rfl, rfl, ⟨hP, rfl⟩, ⟨⟩, [b₁, b₂], [], _, [],
      (List.append_nil _).symm, (List.append_nil _).symm, ⟨b₁, b₂, rfl, rfl⟩, rfl, rfl, rfl⟩

theorem accepts_initializeDynamic (a : InitializeArgs) :
    Accepts a.deserializeDynamic (fun xs a' remarks => ∃ url b₁ b₂, url.length = a.size ∧
      xs = url ++ [b₁, b₂] ∧ a' = { a with dbUrl := url ++ [0] } ∧
        remarks = endComplaints b₁ b₂) := by
  have hdata : Accepts (readCharData a.size)
      (fun xs data remarks => (xs.length = a.size ∧ data = xs ++ [0]) ∧ remarks = []) := by
    apply (accepts_charData a.size).congr
    intro xs data remarks
    rw [and_assoc]
  apply (accepts_thenEnd hdata (fun dbUrl => ({ a with dbUrl := dbUrl } : InitializeArgs))).congr
  intro xs a' remarks
  constructor
  · rintro ⟨url, _, b₁, b₂, ⟨hlen, rfl⟩, hxs, ha', hremarks⟩
    exact ⟨url, b₁, b₂, hlen, hxs, ha', hremarks⟩
  · rintro ⟨url, b₁, b₂, hlen, hxs, ha', hremarks⟩
    exact ⟨url, _, b₁, b₂, ⟨hlen, rfl⟩, hxs, ha', hremarks⟩

/-- The floats of a declared size: the dynamic part of four of the commands. -/
theorem accepts_floatsThenEnd {α : Type} (n : Nat) (f : List F32 → α) :
    Accepts (do
        let data ← readFloatData n
        readEndDelimiter
        pure (f data))
      (fun xs a remarks => ∃ data b₁ b₂, data.length = n ∧ xs = floatBytes data ++ [b₁, b₂] ∧
        a = f data ∧ remarks = endComplaints b₁ b₂) := by
  have hdata : Accepts (readFloatData n)
      (fun xs data remarks => (data.length = n ∧ xs = floatBytes data) ∧ remarks = []) := by
    apply (accepts_floatData n).congr
    intro xs data remarks
    rw [and_assoc]
  apply (accepts_thenEnd hdata f).congr
  intro xs a remarks
  constructor
  · rintro ⟨_, data, b₁, b₂, ⟨hlen, rfl⟩, hxs, ha, hremarks⟩
    exact ⟨data, b₁, b₂, hlen, hxs, ha, hremarks⟩
  · rintro ⟨data, b₁, b₂, hlen, hxs, ha, hremarks⟩
    exact ⟨_, data, b₁, b₂, ⟨hlen, rfl⟩, hxs, ha, hremarks⟩

theorem accepts_id :
    Accepts AddArgs.readId (fun xs r remarks =>
      (r.1.dropLast.length < 2 ^ 64 ∧ r = (r.1.dropLast ++ [0], r.1.dropLast.length + 8)) ∧
        xs = idBytes r.1.dropLast ∧ remarks = []) := by
  apply (accepts_sizeT.bind (fun idLen => (accepts_charData idLen).bind
    (fun id => accepts_pure (id, idLen + 8)))).congr
  intro xs r remarks
  constructor
  · rintro ⟨_, _, _, _, _, rfl, rfl, ⟨hlen, rfl, rfl⟩, _, id, _, _, _, rfl, rfl,
      ⟨rfl, rfl, rfl⟩, rfl, rfl, rfl⟩
    rw [List.dropLast_concat, List.append_nil]
    exact ⟨⟨hlen, rfl⟩, rfl, rfl⟩
  · obtain ⟨buf, taken⟩ := r
    rintro ⟨⟨hlen, heq⟩, rfl, rfl⟩
    rw [Prod.mk.injEq] at heq
    exact ⟨buf.dropLast.length, toLE 8 buf.dropLast.length, buf.dropLast, [], [], rfl, rfl,
      ⟨hlen, rfl, rfl⟩, buf, buf.dropLast, [], [], [], (List.append_nil _).symm, rfl,
      ⟨rfl, heq.1, rfl⟩, rfl, by rw [heq.2], rfl⟩

/-- The ids of ADD, as they stand in the stream. -/
theorem accepts_ids (n : Nat) :
    Accepts (readMany AddArgs.readId n) (fun xs rs remarks => ∃ ids : List Bytes,
      ids.length = n ∧ (∀ id ∈ ids, id.length < 2 ^ 64) ∧ xs = ids.flatMap idBytes ∧
        rs = ids.map (fun id => (id ++ [0], id.length + 8)) ∧ remarks = []) := by
  apply (accepts_readMany accepts_id n).congr
  intro xs rs remarks
  constructor
  · rintro ⟨hlen, hvalid, rfl, rfl⟩
    refine ⟨rs.map (fun r => r.1.dropLast), ?_, ?_, ?_, ?_, rfl⟩
    · rw [List.length_map, hlen]
    · intro id hid
      obtain ⟨r, hr, rfl⟩ := List.mem_map.mp hid
      exact (hvalid r hr).1
    · rw [List.flatMap_map]
    · rw [List.map_map]
      exact (List.map_id'' (f := _) (fun r => rfl) rs).symm.trans
        (List.map_congr_left (fun r hr => (hvalid r hr).2))
  · rintro ⟨ids, hlen, hvalid, rfl, rfl, rfl⟩
    refine ⟨by rw [List.length_map, hlen], ?_, ?_, rfl⟩
    · intro r hr
      obtain ⟨id, hid, rfl⟩ := List.mem_map.mp hr
      rw [List.dropLast_concat]
      exact ⟨hvalid id hid, rfl⟩
    · rw [List.flatMap_map]
      simp only [List.dropLast_concat]

/-- The number of floats that `AddArgs::deserialize_dynamic` reads behind the ids. -/
def AddArgs.floatCount (size : Nat) (ids : List Bytes) : Nat :=
  sizeSub size ((idsSize ids + 1) % 2 ^ 64) / 4

theorem accepts_addDynamic (a : AddArgs) :
    Accepts a.deserializeDynamic (fun xs a' remarks => ∃ ids b data b₁ b₂,
      ids.length = a.numDocs ∧ (∀ id ∈ ids, id.length < 2 ^ 64) ∧
        data.length = AddArgs.floatCount a.size ids ∧
        xs = ids.flatMap idBytes ++ (b :: (floatBytes data ++ [b₁, b₂])) ∧
        a' = { a with ids := a.ids ++ ids.map (fun id => id ++ [0]), embeddings := data } ∧
        remarks = staticComplaint b ++ endComplaints b₁ b₂) := by
  have hrest := fun rs : List (Bytes × Nat) => accepts_staticDelimiter.bind (fun _ : PUnit =>
    accepts_floatsThenEnd (sizeSub a.size (((rs.map Prod.snd).sum + 1) % 2 ^ 64) / 4)
      (fun data => { a with ids := a.ids ++ rs.map Prod.fst, embeddings := data }))
  apply ((accepts_ids a.numDocs).bind hrest).congr
  have hsum : ∀ ids : List Bytes, ((ids.map (fun id => (id ++ [(0 : UInt8)], id.length + 8))).map
      Prod.snd).sum = idsSize ids := by
    intro ids
    rw [List.map_map]
    rfl
  have hbuffers : ∀ ids : List Bytes, (ids.map (fun id => (id ++ [(0 : UInt8)],
      id.length + 8))).map Prod.fst = ids.map (fun id => id ++ [0]) := by
    intro ids
    rw [List.map_map]
    rfl
  intro xs a' remarks
  constructor
  · rintro ⟨_, _, _, _, _, rfl, rfl, ⟨ids, hlen, hvalid, rfl, rfl, rfl⟩, _, _, _, _, _, rfl, rfl,
      ⟨b, rfl, rfl⟩, data, b₁, b₂, hdata, rfl, rfl, rfl⟩
    rw [hsum] at hdata
    rw [hbuffers]
    exact ⟨ids, b, data, b₁, b₂, hlen, hvalid, hdata, rfl, rfl, rfl⟩
  · rintro ⟨ids, b, data, b₁, b₂, hlen, hvalid, hdata, rfl, rfl, rfl⟩
    refine ⟨_, _, _, [], _, rfl, rfl, ⟨ids, hlen, hvalid, rfl, rfl, rfl⟩, ⟨⟩, [b], _, _, _, rfl, rfl,
      ⟨b, rfl, rfl⟩, data, b₁, b₂, ?_, rfl, ?_, rfl⟩
    · rw [hsum]
      exact hdata
    · rw [hbuffers]

/-- The four commands whose payload is floats, with the field that takes them. -/
def Args.withFloats : Args → Option (List F32 → Args)
  | .trainArgs a => some (fun data => .trainArgs { a with trainingData := data })
  | .loadArgs a => some (fun data => .loadArgs { a with xq := data })
  | .searchArgs a => some (fun data => .searchArgs { a with xq := data })
  | .evictArgs a => some (fun data => .evictArgs { a with xq := data })
  | .initializeArgs _ => none
  | .addArgs _ => none

theorem deserializeDynamic_floats {args : Args} {f : List F32 → Args}
    (h : args.withFloats = some f) :
    args.deserializeDynamic = (do
      let data ← readFloatData (args.size / 4)
      readEndDelimiter
      pure (f data)) := by
  cases args with
  | initializeArgs a => exact absurd h (by simp [Args.withFloats])
  | addArgs a => exact absurd h (by simp [Args.withFloats])
  | trainArgs a =>
      rw [← Option.some.inj h]
      show Args.trainArgs <$> a.deserializeDynamic = _
      simp only [TrainArgs.deserializeDynamic, map_bind, map_pure, Args.size]
  | loadArgs a =>
      rw [← Option.some.inj h]
      show Args.loadArgs <$> a.deserializeDynamic = _
      simp only [LoadArgs.deserializeDynamic, map_bind, map_pure, Args.size]
  | searchArgs a =>
      rw [← Option.some.inj h]
      show Args.searchArgs <$> a.deserializeDynamic = _
      simp only [SearchArgs.deserializeDynamic, map_bind, map_pure, Args.size]
  | evictArgs a =>
      rw [← Option.some.inj h]
      show Args.evictArgs <$> a.deserializeDynamic = _
      simp only [EvictArgs.deserializeDynamic, map_bind, map_pure, Args.size]

/-- What `deserialize_dynamic` takes for the payload, in front of the end delimiter, and
what it prints about it. -/
inductive PayloadRead : Args → Bytes → Args → List Complaint → Prop
  | url (a : InitializeArgs) (url : Bytes) : url.length = a.size →
      PayloadRead (.initializeArgs a) url (.initializeArgs { a with dbUrl := url ++ [0] }) []
  | floats (args : Args) (f : List F32 → Args) (data : List F32) :
      args.withFloats = some f → data.length = args.size / 4 →
      PayloadRead args (floatBytes data) (f data) []
  | docs (a : AddArgs) (ids : List Bytes) (b : UInt8) (data : List F32) :
      ids.length = a.numDocs → (∀ id ∈ ids, id.length < 2 ^ 64) →
      data.length = AddArgs.floatCount a.size ids →
      PayloadRead (.addArgs a) (ids.flatMap idBytes ++ b :: floatBytes data)
        (.addArgs { a with ids := a.ids ++ ids.map (fun id => id ++ [0]), embeddings := data })
        (staticComplaint b)

theorem payloadRead_url {a : InitializeArgs} {payload : Bytes} {args' : Args}
    {inner : List Complaint} : PayloadRead (.initializeArgs a) payload args' inner ↔
      payload.length = a.size ∧ args' = .initializeArgs { a with dbUrl := payload ++ [0] } ∧
        inner = [] := by
  constructor
  · intro h
    cases h with
    | url _ _ hlen => exact ⟨hlen, rfl, rfl⟩
    | floats _ f data hf _ => exact absurd hf (by simp [Args.withFloats])
  · rintro ⟨hlen, rfl, rfl⟩
    exact .url a payload hlen

theorem payloadRead_floats {args : Args} {f : List F32 → Args} (h : args.withFloats = some f)
    {payload : Bytes} {args' : Args} {inner : List Complaint} :
    PayloadRead args payload args' inner ↔ ∃ data : List F32, data.length = args.size / 4 ∧
      payload = floatBytes data ∧ args' = f data ∧ inner = [] := by
  constructor
  · intro hread
    cases hread with
    | url a _ _ => exact absurd h (by simp [Args.withFloats])
    | floats _ f' data hf hlen =>
        rw [h, Option.some.injEq] at hf
        exact ⟨data, hlen, rfl, by rw [hf], rfl⟩
    | docs a _ _ _ _ _ _ => exact absurd h (by simp [Args.withFloats])
  · rintro ⟨data, hlen, rfl, rfl, rfl⟩
    exact .floats args f data h hlen

theorem payloadRead_add {a : AddArgs} {payload : Bytes} {args' : Args}
    {inner : List Complaint} : PayloadRead (.addArgs a) payload args' inner ↔
      ∃ (ids : List Bytes) (b : UInt8) (data : List F32), ids.length = a.numDocs ∧
        (∀ id ∈ ids, id.length < 2 ^ 64) ∧ data.length = AddArgs.floatCount a.size ids ∧
        payload = ids.flatMap idBytes ++ b :: floatBytes data ∧
        args' = .addArgs { a with
          ids := a.ids ++ ids.map (fun id => id ++ [0])
          embeddings := data } ∧
        inner = staticComplaint b := by
  constructor
  · intro h
    cases h with
    | floats _ f data hf _ => exact absurd hf (by simp [Args.withFloats])
    | docs _ ids b data hdocs hids hdata => exact ⟨ids, b, data, hdocs, hids, hdata, rfl, rfl, rfl⟩
  · rintro ⟨ids, b, data, hdocs, hids, hdata, rfl, rfl, rfl⟩
    exact .docs a ids b data hdocs hids hdata

/-- **The dynamic part of every command.** -/
theorem accepts_dynamic (args : Args) :
    Accepts args.deserializeDynamic (fun xs args' remarks => ∃ payload b₁ b₂ inner,
      PayloadRead args payload args' inner ∧ xs = payload ++ [b₁, b₂] ∧
        remarks = inner ++ endComplaints b₁ b₂) := by
  have hfloats : ∀ f, args.withFloats = some f → Accepts args.deserializeDynamic
      (fun xs args' remarks => ∃ payload b₁ b₂ inner, PayloadRead args payload args' inner ∧
        xs = payload ++ [b₁, b₂] ∧ remarks = inner ++ endComplaints b₁ b₂) := by
    intro f hf
    rw [deserializeDynamic_floats hf]
    apply (accepts_floatsThenEnd (args.size / 4) f).congr
    intro xs args' remarks
    simp only [payloadRead_floats hf]
    constructor
    · rintro ⟨data, b₁, b₂, hlen, rfl, rfl, rfl⟩
      exact ⟨_, b₁, b₂, [], ⟨data, hlen, rfl, rfl, rfl⟩, rfl, rfl⟩
    · rintro ⟨_, b₁, b₂, _, ⟨data, hlen, rfl, rfl, rfl⟩, rfl, rfl⟩
      exact ⟨data, b₁, b₂, hlen, rfl, rfl, rfl⟩
  cases args with
  | initializeArgs a =>
      apply ((accepts_initializeDynamic a).map Args.initializeArgs).congr
      intro xs args' remarks
      simp only [payloadRead_url]
      constructor
      · rintro ⟨_, ⟨url, b₁, b₂, hlen, rfl, rfl, rfl⟩, rfl⟩
        exact ⟨url, b₁, b₂, [], ⟨hlen, rfl, rfl⟩, rfl, rfl⟩
      · rintro ⟨url, b₁, b₂, _, ⟨hlen, rfl, rfl⟩, rfl, rfl⟩
        exact ⟨_, ⟨url, b₁, b₂, hlen, rfl, rfl, rfl⟩, rfl⟩
  | trainArgs a => exact hfloats _ rfl
  | loadArgs a => exact hfloats _ rfl
  | searchArgs a => exact hfloats _ rfl
  | evictArgs a => exact hfloats _ rfl
  | addArgs a =>
      apply ((accepts_addDynamic a).map Args.addArgs).congr
      intro xs args' remarks
      simp only [payloadRead_add]
      constructor
      · rintro ⟨_, ⟨ids, b, data, b₁, b₂, hdocs, hids, hlen, rfl, rfl, rfl⟩, rfl⟩
        exact ⟨_, b₁, b₂, _, ⟨ids, b, data, hdocs, hids, hlen, rfl, rfl, rfl⟩, by simp, rfl⟩
      · rintro ⟨_, b₁, b₂, _, ⟨ids, b, data, hdocs, hids, hlen, rfl, rfl, rfl⟩, rfl, rfl⟩
        exact ⟨_, ⟨ids, b, data, b₁, b₂, hdocs, hids, hlen, by simp, rfl, rfl⟩, rfl⟩

end Periplus.Ports
