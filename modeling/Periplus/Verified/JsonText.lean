import Mathlib.Data.List.Basic
import Mathlib.Tactic.Linarith

/-!
# JSON strings, written byte by byte and read as UTF-8

A writer that knows nothing of UTF-8 escapes the bytes of a string that JSON
reserves, and copies the others.  A reader decodes the whole text first and works
on characters.  What the reader makes of a written text is decided here.

The reader has no pairs of surrogates: the writer escapes only what is below
`0x80`, where there are none.

## Main results

* `isUtf8_append_cons` — an ASCII byte splits UTF-8 text into UTF-8 texts.
* `readLiteral_escape` — a written string is read back.
* `isUtf8_writeStrings` — a written array of strings is UTF-8 text exactly when
  each of the strings is.
* `readStrings_stringsText` — then the strings are read back.
-/

namespace Periplus.Verified.JsonText

/-! ## UTF-8 -/

/-- The bytes of a text. -/
def utf8 (s : List Char) : List UInt8 := s.flatMap String.utf8EncodeChar

/-- The bytes are those of a text. -/
def IsUtf8 (bs : List UInt8) : Prop := ∃ s, utf8 s = bs

@[simp] theorem utf8_nil : utf8 [] = [] := rfl

@[simp] theorem utf8_cons (c : Char) (s : List Char) :
    utf8 (c :: s) = String.utf8EncodeChar c ++ utf8 s := rfl

@[simp] theorem utf8_append (s t : List Char) : utf8 (s ++ t) = utf8 s ++ utf8 t :=
  List.flatMap_append

theorem utf8EncodeChar_ascii {c : Char} (h : c.toNat < 128) :
    String.utf8EncodeChar c = [UInt8.ofNat c.toNat] := by
  have hle : c.val.toNat ≤ 127 := by
    show c.toNat ≤ 127
    omega
  unfold String.utf8EncodeChar
  exact if_pos hle

/-- A character beyond ASCII has more than one byte, and none of them is ASCII. -/
theorem utf8EncodeChar_high {c : Char} (h : 128 ≤ c.toNat) :
    1 < (String.utf8EncodeChar c).length ∧
      ∀ b ∈ String.utf8EncodeChar c, 128 ≤ b.toNat := by
  have hnot : ¬ c.val.toNat ≤ 127 := by
    show ¬ c.toNat ≤ 127
    omega
  unfold String.utf8EncodeChar
  dsimp only
  rw [if_neg hnot]
  split
  · constructor
    · exact Nat.one_lt_succ_succ _
    · simp only [List.forall_mem_cons, UInt8.toNat_ofNat']
      refine ⟨by omega, by omega, ?_⟩
      simp
  · split
    · constructor
      · exact Nat.one_lt_succ_succ _
      · simp only [List.forall_mem_cons, UInt8.toNat_ofNat']
        refine ⟨by omega, by omega, by omega, ?_⟩
        simp
    · constructor
      · exact Nat.one_lt_succ_succ _
      · simp only [List.forall_mem_cons, UInt8.toNat_ofNat']
        refine ⟨by omega, by omega, by omega, by omega, ?_⟩
        simp

theorem utf8_of_ascii {s : List Char} (h : ∀ c ∈ s, c.toNat < 128) :
    utf8 s = s.map (fun c => UInt8.ofNat c.toNat) := by
  induction s with
  | nil => rfl
  | cons c s ih =>
      rw [List.forall_mem_cons] at h
      rw [utf8_cons, utf8EncodeChar_ascii h.1, ih h.2]
      rfl

theorem length_le_utf8 (s : List Char) : s.length ≤ (utf8 s).length := by
  induction s with
  | nil => exact Nat.le_refl 0
  | cons c s ih =>
      rw [utf8_cons, List.length_append, List.length_cons, String.length_utf8EncodeChar]
      have := c.utf8Size_pos
      omega

/-- A text has a byte for each character only when it is ASCII. -/
theorem ascii_of_length_utf8 {s : List Char} (h : (utf8 s).length = s.length) :
    ∀ c ∈ s, c.toNat < 128 := by
  induction s with
  | nil => simp
  | cons c s ih =>
      have hle := length_le_utf8 s
      rw [utf8_cons, List.length_append, List.length_cons] at h
      have hpos : 0 < (String.utf8EncodeChar c).length := by
        rw [String.length_utf8EncodeChar]
        exact c.utf8Size_pos
      rw [List.forall_mem_cons]
      constructor
      · by_contra hhigh
        have := (utf8EncodeChar_high (c := c) (by omega)).1
        omega
      · exact ih (by omega)

/-- The bytes have a NUL where the text has one. -/
theorem zero_not_mem_utf8 {s : List Char} : 0 ∉ utf8 s ↔ ∀ c ∈ s, 0 < c.toNat := by
  have hchar : ∀ c : Char, 0 ∉ String.utf8EncodeChar c ↔ 0 < c.toNat := by
    intro c
    by_cases hascii : c.toNat < 128
    · rw [utf8EncodeChar_ascii hascii, List.mem_singleton, ← UInt8.toNat_inj,
        UInt8.toNat_ofNat_of_lt' (by show c.toNat < 256; omega)]
      show ¬ 0 = c.toNat ↔ _
      omega
    · constructor
      · intro _
        omega
      · intro _ hmem
        have hhigh := (utf8EncodeChar_high (c := c) (by omega)).2 0 hmem
        exact absurd hhigh (by decide)
  rw [utf8, List.mem_flatMap]
  simp only [not_exists, not_and, hchar]

theorem isUtf8_utf8 (s : List Char) : IsUtf8 (utf8 s) := ⟨s, rfl⟩

/-- Bytes of texts, one by one, are the bytes of a list of texts. -/
theorem exists_map_utf8 {bss : List (List UInt8)} (h : ∀ bs ∈ bss, IsUtf8 bs) :
    ∃ strings : List (List Char), strings.map utf8 = bss := by
  induction bss with
  | nil => exact ⟨[], rfl⟩
  | cons bs bss ih =>
      rw [List.forall_mem_cons] at h
      obtain ⟨strings, rfl⟩ := ih h.2
      obtain ⟨s, rfl⟩ := h.1
      exact ⟨s :: strings, rfl⟩

theorem IsUtf8.append {xs ys : List UInt8} (hx : IsUtf8 xs) (hy : IsUtf8 ys) :
    IsUtf8 (xs ++ ys) := by
  obtain ⟨s, rfl⟩ := hx
  obtain ⟨t, rfl⟩ := hy
  exact ⟨s ++ t, utf8_append s t⟩

/-- The character of an ASCII byte. -/
def charOf (b : UInt8) : Char := Char.ofNat b.toNat

theorem charOf_toNat (b : UInt8) : (charOf b).toNat = b.toNat := by
  have hb : b.toNat.isValidChar := Or.inl (by have := b.toNat_lt; omega)
  rw [charOf, Char.ofNat, dif_pos hb]
  rfl

/-- ASCII bytes are the bytes of their characters. -/
theorem utf8_map_charOf {bs : List UInt8} (h : ∀ b ∈ bs, b.toNat < 128) :
    utf8 (bs.map charOf) = bs := by
  rw [utf8_of_ascii, List.map_map]
  · conv_rhs => rw [← List.map_id bs]
    refine List.map_congr_left ?_
    intro b _
    show UInt8.ofNat (charOf b).toNat = b
    rw [charOf_toNat, UInt8.ofNat_toNat]
  · intro c hc
    obtain ⟨b, hb, rfl⟩ := List.mem_map.mp hc
    rw [charOf_toNat]
    exact h b hb

theorem isUtf8_of_ascii {bs : List UInt8} (h : ∀ b ∈ bs, b.toNat < 128) : IsUtf8 bs :=
  ⟨bs.map charOf, utf8_map_charOf h⟩

/-- What precedes an ASCII byte of a text, and what follows it, are texts. -/
theorem utf8_split {s : List Char} {xs ys : List UInt8} {b : UInt8} (hb : b.toNat < 128)
    (h : utf8 s = xs ++ b :: ys) : IsUtf8 xs ∧ IsUtf8 ys := by
  induction s generalizing xs with
  | nil => exact absurd h (by simp)
  | cons c s ih =>
      rw [utf8_cons, List.append_eq_append_iff] at h
      rcases h with ⟨zs, hxs, hs⟩ | ⟨zs, hc, hs⟩
      · -- the byte is behind the first character
        obtain ⟨hzs, hys⟩ := ih hs
        rw [hxs]
        exact ⟨IsUtf8.append ⟨[c], List.append_nil _⟩ hzs, hys⟩
      · -- the byte is in the first character, or right behind it
        cases zs with
        | nil =>
            obtain ⟨_, hys⟩ := ih (show utf8 s = [] ++ b :: ys from hs.symm)
            rw [List.append_nil] at hc
            rw [← hc]
            exact ⟨⟨[c], List.append_nil _⟩, hys⟩
        | cons z zs =>
            rw [List.cons_append, List.cons.injEq] at hs
            have hmem : b ∈ String.utf8EncodeChar c := by
              rw [hc, hs.1]
              simp
            have hascii : c.toNat < 128 := by
              by_contra hhigh
              have := (utf8EncodeChar_high (c := c) (by omega)).2 b hmem
              omega
            have hlen := congrArg List.length hc
            rw [utf8EncodeChar_ascii hascii, List.length_append] at hlen
            simp only [List.length_cons, List.length_nil] at hlen
            have hxs : xs = [] := List.length_eq_zero_iff.mp (by omega)
            have hzs : zs = [] := List.length_eq_zero_iff.mp (by omega)
            subst hxs
            subst hzs
            rw [List.nil_append] at hs
            exact ⟨isUtf8_utf8 [], ⟨s, hs.2.symm⟩⟩

/-- **An ASCII byte splits** UTF-8 text into UTF-8 texts. -/
theorem isUtf8_append_cons (xs ys : List UInt8) {b : UInt8} (hb : b.toNat < 128) :
    IsUtf8 (xs ++ b :: ys) ↔ IsUtf8 xs ∧ IsUtf8 ys := by
  constructor
  · intro h
    obtain ⟨s, hs⟩ := h
    exact utf8_split hb hs
  · intro h
    have hbyte : IsUtf8 [b] := isUtf8_of_ascii (by simpa using hb)
    exact h.1.append (hbyte.append h.2)

/-- ASCII bytes in front say nothing about the rest. -/
theorem isUtf8_ascii_append {es : List UInt8} (h : ∀ b ∈ es, b.toNat < 128)
    (ys : List UInt8) :
    IsUtf8 (es ++ ys) ↔ IsUtf8 ys := by
  induction es with
  | nil => exact Iff.rfl
  | cons e es ih =>
      rw [List.forall_mem_cons] at h
      have hsplit := isUtf8_append_cons [] (es ++ ys) h.1
      exact hsplit.trans ((and_iff_right (isUtf8_utf8 [])).trans (ih h.2))

/-- Several ASCII bytes split a text, like one. -/
theorem isUtf8_append_ascii {xs es ys : List UInt8} (hne : es ≠ [])
    (h : ∀ b ∈ es, b.toNat < 128) : IsUtf8 (xs ++ (es ++ ys)) ↔ IsUtf8 xs ∧ IsUtf8 ys := by
  cases es with
  | nil => exact absurd rfl hne
  | cons e es =>
      rw [List.forall_mem_cons] at h
      rw [List.cons_append, isUtf8_append_cons _ _ h.1, isUtf8_ascii_append h.2]

/-- One byte beyond ASCII is not a text. -/
theorem not_isUtf8_singleton {b : UInt8} (h : 128 ≤ b.toNat) : ¬ IsUtf8 [b] := by
  rintro ⟨s, hs⟩
  have hlen := congrArg List.length hs
  rw [List.length_singleton] at hlen
  have hne : s ≠ [] := by
    rintro rfl
    exact absurd hlen (by decide)
  have hpos := List.length_pos_iff.mpr hne
  have hle := length_le_utf8 s
  have hascii := ascii_of_length_utf8 (s := s) (by omega)
  have hmem : b ∈ utf8 s := by
    rw [hs]
    exact List.mem_singleton.mpr rfl
  rw [utf8_of_ascii hascii] at hmem
  obtain ⟨c, hc, rfl⟩ := List.mem_map.mp hmem
  have hbyte := hascii c hc
  rw [UInt8.toNat_ofNat_of_lt' (by show c.toNat < 256; omega)] at h
  omega

/-! ## Writing -/

def hexDigit (n : Nat) : UInt8 := UInt8.ofNat (if n < 10 then 0x30 + n else 0x37 + n)

/-- The letter behind the backslash, for a byte that is escaped by one. -/
def escapeLetter (b : UInt8) : Option UInt8 :=
  if b = 0x22 then some 0x22
  else if b = 0x5C then some 0x5C
  else if b = 0x08 then some 0x62
  else if b = 0x09 then some 0x74
  else if b = 0x0A then some 0x6E
  else if b = 0x0C then some 0x66
  else if b = 0x0D then some 0x72
  else none

/-- A byte of a string, as it is written: quotation marks, backslashes and control
characters are escaped. -/
def escapeByte (b : UInt8) : List UInt8 :=
  match escapeLetter b with
  | some letter => [0x5C, letter]
  | none =>
      if b.toNat < 32 then
        [0x5C, 0x75, 0x30, 0x30, hexDigit (b.toNat / 16), hexDigit (b.toNat % 16)]
      else [b]

def writeString (bs : List UInt8) : List UInt8 := 0x22 :: (bs.flatMap escapeByte ++ [0x22])

/-- The texts of the elements, with commas between them, in brackets. -/
def writeArray (texts : List (List UInt8)) : List UInt8 :=
  0x5B :: (List.intercalate [0x2C] texts ++ [0x5D])

def writeStrings (strings : List (List UInt8)) : List UInt8 :=
  writeArray (strings.map writeString)

/-! ## Reading -/

def hexValue (c : Char) : Option Nat :=
  if '0'.toNat ≤ c.toNat ∧ c.toNat ≤ '9'.toNat then some (c.toNat - '0'.toNat)
  else if 'A'.toNat ≤ c.toNat ∧ c.toNat ≤ 'F'.toNat then some (c.toNat - 'A'.toNat + 10)
  else if 'a'.toNat ≤ c.toNat ∧ c.toNat ≤ 'f'.toNat then some (c.toNat - 'a'.toNat + 10)
  else none

/-- The character of four digits, unless they are those of a surrogate. -/
def readHex (a b c d : Char) : Option Char := do
  let a ← hexValue a
  let b ← hexValue b
  let c ← hexValue c
  let d ← hexValue d
  let n := ((a * 16 + b) * 16 + c) * 16 + d
  if n.isValidChar then some (Char.ofNat n) else none

/-- The character behind a backslash. -/
def unescape (c : Char) : Option Char :=
  if c = '"' then some '"'
  else if c = '\\' then some '\\'
  else if c = '/' then some '/'
  else if c = 'b' then some (Char.ofNat 8)
  else if c = 't' then some '\t'
  else if c = 'n' then some '\n'
  else if c = 'f' then some (Char.ofNat 12)
  else if c = 'r' then some '\r'
  else none

/-- The string behind an opening quotation mark, and what follows the closing one. -/
def readLiteral : List Char → Option (List Char × List Char)
  | [] => none
  | '"' :: cs => some ([], cs)
  | '\\' :: 'u' :: a :: b :: c :: d :: cs => do
      let first ← readHex a b c d
      let (s, rest) ← readLiteral cs
      some (first :: s, rest)
  | '\\' :: c :: cs => do
      let first ← unescape c
      let (s, rest) ← readLiteral cs
      some (first :: s, rest)
  | c :: cs =>
      if c.toNat < 32 then none
      else do
        let (s, rest) ← readLiteral cs
        some (c :: s, rest)

/-- The elements of an array behind its opening bracket, when there are at most
`fuel` and each is a string, and what follows the closing bracket. -/
def readElements : Nat → List Char → Option (List (List Char) × List Char)
  | 0, _ => none
  | fuel + 1, '"' :: cs => do
      let (s, rest) ← readLiteral cs
      match rest with
      | ',' :: rest => do
          let (strings, rest) ← readElements fuel rest
          some (s :: strings, rest)
      | ']' :: rest => some ([s], rest)
      | _ => none
  | _ + 1, _ => none

/-- An array of strings, and what follows it. -/
def readStrings : List Char → Option (List (List Char) × List Char)
  | '[' :: ']' :: rest => some ([], rest)
  | '[' :: cs => readElements cs.length cs
  | _ => none

/-! ## A written string is read back -/

/-- A character of a string, as it is written. -/
def escapeChar (c : Char) : List Char :=
  if c.toNat < 128 then (escapeByte (UInt8.ofNat c.toNat)).map charOf else [c]

/-- The letter behind a backslash is read as the byte. -/
theorem escapeLetter_spec {b letter : UInt8} (h : escapeLetter b = some letter) :
    b.toNat < 128 ∧ letter.toNat < 128 ∧ charOf letter ≠ 'u' ∧
      unescape (charOf letter) = some (charOf b) := by
  unfold escapeLetter at h
  split_ifs at h with h1 h2 h3 h4 h5 h6 h7
  all_goals
    rw [Option.some.injEq] at h
    subst h
  · exact ⟨by rw [h1]; decide, by decide, by decide, by rw [h1]; rfl⟩
  · exact ⟨by rw [h2]; decide, by decide, by decide, by rw [h2]; rfl⟩
  · exact ⟨by rw [h3]; decide, by decide, by decide, by rw [h3]; rfl⟩
  · exact ⟨by rw [h4]; decide, by decide, by decide, by rw [h4]; rfl⟩
  · exact ⟨by rw [h5]; decide, by decide, by decide, by rw [h5]; rfl⟩
  · exact ⟨by rw [h6]; decide, by decide, by decide, by rw [h6]; rfl⟩
  · exact ⟨by rw [h7]; decide, by decide, by decide, by rw [h7]; rfl⟩

theorem escapeLetter_none {b : UInt8} (h : escapeLetter b = none) : b ≠ 0x22 ∧ b ≠ 0x5C := by
  constructor
  · rintro rfl
    exact absurd h (by decide)
  · rintro rfl
    exact absurd h (by decide)

/-- The digits of a control character are ASCII, and are read as that character. -/
theorem hexDigit_spec : ∀ n < 32, (hexDigit (n / 16)).toNat < 128 ∧
    (hexDigit (n % 16)).toNat < 128 ∧ 0 < (hexDigit (n / 16)).toNat ∧
    0 < (hexDigit (n % 16)).toNat ∧ readHex (charOf 0x30) (charOf 0x30)
      (charOf (hexDigit (n / 16))) (charOf (hexDigit (n % 16))) = some (Char.ofNat n) := by
  decide

/-- How a byte is written: behind a backslash, as a number, or as it is. -/
theorem escapeByte_cases (b : UInt8) :
    (∃ letter, escapeByte b = [0x5C, letter] ∧ escapeLetter b = some letter) ∨
      (b.toNat < 32 ∧ escapeByte b =
        [0x5C, 0x75, 0x30, 0x30, hexDigit (b.toNat / 16), hexDigit (b.toNat % 16)]) ∨
      (escapeByte b = [b] ∧ b ≠ 0x22 ∧ b ≠ 0x5C ∧ 32 ≤ b.toNat) := by
  unfold escapeByte
  cases hletter : escapeLetter b with
  | some letter => exact Or.inl ⟨letter, rfl, rfl⟩
  | none =>
      obtain ⟨hquote, hslash⟩ := escapeLetter_none hletter
      by_cases hcontrol : b.toNat < 32
      · exact Or.inr (Or.inl ⟨hcontrol, if_pos hcontrol⟩)
      · exact Or.inr (Or.inr ⟨if_neg hcontrol, hquote, hslash, by omega⟩)

theorem escapeByte_high {b : UInt8} (h : 128 ≤ b.toNat) : escapeByte b = [b] := by
  rcases escapeByte_cases b with ⟨letter, _, hletter⟩ | ⟨hcontrol, _⟩ | ⟨he, _⟩
  · have := (escapeLetter_spec hletter).1
    omega
  · omega
  · exact he

theorem escapeByte_ascii {b : UInt8} (h : b.toNat < 128) :
    escapeByte b ≠ [] ∧ ∀ e ∈ escapeByte b, e.toNat < 128 := by
  rcases escapeByte_cases b with ⟨letter, he, hletter⟩ | ⟨hcontrol, he⟩ | ⟨he, _⟩
  · have hascii := (escapeLetter_spec hletter).2.1
    rw [he]
    simp [hascii]
  · obtain ⟨hfirst, hsecond, _⟩ := hexDigit_spec b.toNat hcontrol
    rw [he]
    simp [hfirst, hsecond]
  · rw [he]
    simp [h]

/-- No NUL is written. -/
theorem zero_not_mem_escapeByte (b : UInt8) : 0 ∉ escapeByte b := by
  rcases escapeByte_cases b with ⟨letter, he, hletter⟩ | ⟨hcontrol, he⟩ | ⟨he, _, _, hle⟩
  · rw [he]
    rintro hmem
    have hzero : letter = 0 := by simpa [eq_comm] using hmem
    rw [hzero] at hletter
    exact absurd (escapeLetter_spec hletter).2.2.2 (by simp [unescape, charOf])
  · obtain ⟨_, _, hfirst, hsecond, _⟩ := hexDigit_spec b.toNat hcontrol
    rw [he]
    intro hmem
    have hdigit : hexDigit (b.toNat / 16) = 0 ∨ hexDigit (b.toNat % 16) = 0 := by
      simpa [eq_comm] using hmem
    rcases hdigit with hzero | hzero
    · rw [hzero] at hfirst
      exact absurd hfirst (by decide)
    · rw [hzero] at hsecond
      exact absurd hsecond (by decide)
  · rw [he, List.mem_singleton]
    rintro rfl
    exact absurd hle (by decide)

theorem zero_not_mem_writeStrings (strings : List (List UInt8)) : 0 ∉ writeStrings strings := by
  have hall : 0 ∉ List.intercalate [0x2C] (strings.map writeString) := by
    induction strings with
    | nil => exact List.not_mem_nil
    | cons bs strings ih =>
        have hstring : 0 ∉ writeString bs := by
          simp [writeString, zero_not_mem_escapeByte]
        cases strings with
        | nil => rwa [List.map_singleton, List.intercalate_singleton]
        | cons bs' strings =>
            rw [List.map_cons, List.map_cons, List.intercalate_cons_cons, ← List.map_cons,
              List.mem_append, List.mem_append]
            rintro ((h | h) | h)
            · exact hstring h
            · exact absurd h (by decide)
            · exact ih h
  rw [writeStrings, writeArray, List.mem_cons, List.mem_append]
  rintro (h | h | h)
  · exact absurd h (by decide)
  · exact hall h
  · exact absurd h (by decide)

/-- A character in front of a string. -/
def consTo (c : Char) (p : List Char × List Char) : List Char × List Char := (c :: p.1, p.2)

theorem readLiteral_plain {c : Char} (hquote : c ≠ '"') (hslash : c ≠ '\\')
    (hcontrol : 32 ≤ c.toNat) (cs : List Char) :
    readLiteral (c :: cs) = (readLiteral cs).map (consTo c) := by
  have hnot : ¬ c.toNat < 32 := by omega
  rw [readLiteral]
  · rw [if_neg hnot]
    cases readLiteral cs <;> rfl
  · exact hquote
  · intro _ _ _ _ _ h
    exact absurd h hslash
  · intro _ _ h
    exact absurd h hslash

theorem readLiteral_escaped {e c : Char} (hhex : e ≠ 'u') (h : unescape e = some c)
    (cs : List Char) : readLiteral ('\\' :: e :: cs) = (readLiteral cs).map (consTo c) := by
  rw [readLiteral, h]
  · cases readLiteral cs <;> rfl
  · intro _ _ _ _ _ hu
    exact absurd hu hhex

theorem readLiteral_hex {a b c d first : Char} (h : readHex a b c d = some first)
    (cs : List Char) :
    readLiteral ('\\' :: 'u' :: a :: b :: c :: d :: cs) =
      (readLiteral cs).map (consTo first) := by
  rw [readLiteral, h]
  cases readLiteral cs <;> rfl

theorem charOf_injective {a b : UInt8} (h : charOf a = charOf b) : a = b := by
  have htoNat := congrArg Char.toNat h
  rw [charOf_toNat, charOf_toNat] at htoNat
  exact UInt8.toNat_inj.mp htoNat

/-- One character of a written string. -/
theorem readLiteral_escapeChar (c : Char) (cs : List Char) :
    readLiteral (escapeChar c ++ cs) = (readLiteral cs).map (consTo c) := by
  by_cases hascii : c.toNat < 128
  · -- a character that is one byte
    have hb : charOf (UInt8.ofNat c.toNat) = c := by
      rw [charOf, UInt8.toNat_ofNat_of_lt' (by show c.toNat < 256; omega), Char.ofNat_toNat]
    rw [escapeChar, if_pos hascii]
    generalize UInt8.ofNat c.toNat = b at hb
    subst hb
    rcases escapeByte_cases b with ⟨letter, he, hletter⟩ | ⟨hcontrol, he⟩ |
      ⟨he, hquote, hslash, hle⟩
    · obtain ⟨_, _, hu, hread⟩ := escapeLetter_spec hletter
      rw [he]
      exact readLiteral_escaped hu hread cs
    · rw [he]
      exact readLiteral_hex (hexDigit_spec b.toNat hcontrol).2.2.2.2 cs
    · rw [he]
      refine readLiteral_plain ?_ ?_ ?_ cs
      · exact fun h => hquote (charOf_injective (b := 0x22) h)
      · exact fun h => hslash (charOf_injective (b := 0x5C) h)
      · rwa [charOf_toNat]
  · rw [escapeChar, if_neg hascii]
    refine readLiteral_plain ?_ ?_ (by omega) cs
    · rintro rfl
      exact hascii (by decide)
    · rintro rfl
      exact hascii (by decide)

/-- **A written string is read back.** -/
theorem readLiteral_escape (s rest : List Char) :
    readLiteral (s.flatMap escapeChar ++ '"' :: rest) = some (s, rest) := by
  induction s with
  | nil => exact readLiteral.eq_2 rest
  | cons c s ih =>
      rw [List.flatMap_cons, List.append_assoc, readLiteral_escapeChar, ih]
      rfl

/-- The text of a string. -/
def stringText (s : List Char) : List Char := '"' :: (s.flatMap escapeChar ++ ['"'])

/-- The text of an array of strings. -/
def stringsText (strings : List (List Char)) : List Char :=
  '[' :: (List.intercalate [','] (strings.map stringText) ++ [']'])

/-- An element with others behind it. -/
theorem readElements_comma (fuel : Nat) (s cs : List Char) :
    readElements (fuel + 1) (stringText s ++ ',' :: cs) =
      (readElements fuel cs).map (fun p => (s :: p.1, p.2)) := by
  rw [stringText, List.cons_append, List.append_assoc, readElements]
  show (readLiteral (s.flatMap escapeChar ++ '"' :: ',' :: cs)).bind _ = _
  rw [readLiteral_escape]
  show (readElements fuel cs).bind _ = _
  cases readElements fuel cs <;> rfl

/-- The last element. -/
theorem readElements_bracket (fuel : Nat) (s rest : List Char) :
    readElements (fuel + 1) (stringText s ++ ']' :: rest) = some ([s], rest) := by
  rw [stringText, List.cons_append, List.append_assoc, readElements]
  show (readLiteral (s.flatMap escapeChar ++ '"' :: ']' :: rest)).bind _ = _
  rw [readLiteral_escape]
  rfl

theorem readElements_intercalate {fuel : Nat} {s : List Char} {strings : List (List Char)}
    (h : strings.length < fuel) (rest : List Char) :
    readElements fuel (List.intercalate [','] ((s :: strings).map stringText) ++ ']' :: rest) =
      some (s :: strings, rest) := by
  induction strings generalizing s fuel with
  | nil =>
      cases fuel with
      | zero => exact absurd h (Nat.not_lt_zero _)
      | succ fuel =>
          rw [List.map_cons, List.map_nil, List.intercalate_singleton]
          exact readElements_bracket fuel s rest
  | cons t strings ih =>
      cases fuel with
      | zero => exact absurd h (Nat.not_lt_zero _)
      | succ fuel =>
          have hlt : strings.length < fuel := by
            rw [List.length_cons] at h
            omega
          have hrest := ih (s := t) hlt
          rw [List.map_cons, List.map_cons, List.intercalate_cons_cons, ← List.map_cons,
            List.append_assoc, List.append_assoc, List.singleton_append, readElements_comma, hrest]
          rfl

/-- Every element has at least a character in the text. -/
theorem length_le_intercalate (strings : List (List Char)) :
    strings.length ≤ (List.intercalate [','] (strings.map stringText)).length := by
  induction strings with
  | nil => exact Nat.zero_le _
  | cons s strings ih =>
      cases strings with
      | nil =>
          rw [List.map_cons, List.map_nil, List.intercalate_singleton, stringText]
          exact Nat.succ_le_succ (Nat.zero_le _)
      | cons t strings =>
          rw [List.map_cons, List.map_cons, List.intercalate_cons_cons, ← List.map_cons,
            List.length_append, List.length_append, List.length_cons]
          show _ ≤ _ + 1 + _
          omega

/-- **A written array of strings is read back.** -/
theorem readStrings_stringsText (strings : List (List Char)) (rest : List Char) :
    readStrings (stringsText strings ++ rest) = some (strings, rest) := by
  rw [stringsText, List.cons_append, List.append_assoc]
  cases strings with
  | nil => rfl
  | cons s strings =>
      have hlen := length_le_intercalate (s :: strings)
      rw [List.length_cons] at hlen
      have hlt : strings.length <
          (List.intercalate [','] ((s :: strings).map stringText) ++ ']' :: rest).length := by
        rw [List.length_append]
        omega
      have hread := readElements_intercalate (s := s) hlt rest
      rw [← hread]
      exact readStrings.eq_2 _ (by
        intro rest' h
        cases strings with
        | nil => exact absurd (List.cons.inj h).1 (by decide)
        | cons t strings => exact absurd (List.cons.inj h).1 (by decide))

/-! ## A written array as UTF-8 -/

/-- The bytes of an escaped text are the escaped bytes of the text. -/
theorem utf8_escape (s : List Char) : utf8 (s.flatMap escapeChar) = (utf8 s).flatMap escapeByte := by
  induction s with
  | nil => rfl
  | cons c s ih =>
      have hc : utf8 (escapeChar c) = (String.utf8EncodeChar c).flatMap escapeByte := by
        by_cases hascii : c.toNat < 128
        · have hbyte : (UInt8.ofNat c.toNat).toNat < 128 := by
            rw [UInt8.toNat_ofNat_of_lt' (by show c.toNat < 256; omega)]
            exact hascii
          rw [escapeChar, if_pos hascii, utf8EncodeChar_ascii hascii, List.flatMap_singleton,
            utf8_map_charOf (escapeByte_ascii hbyte).2]
        · have hbytes := (utf8EncodeChar_high (c := c) (by omega)).2
          have hself : (String.utf8EncodeChar c).flatMap escapeByte =
              (String.utf8EncodeChar c).flatMap (fun b => [b]) := by
            rw [List.flatMap, List.flatMap,
              List.map_congr_left (fun b hb => escapeByte_high (hbytes b hb))]
          rw [escapeChar, if_neg hascii, hself, List.flatMap_singleton']
          exact List.append_nil _
      rw [List.flatMap_cons, utf8_append, hc, ih, utf8_cons, List.flatMap_append]

theorem writeString_utf8 (s : List Char) : writeString (utf8 s) = utf8 (stringText s) := by
  rw [writeString, ← utf8_escape, stringText, utf8_cons, utf8_append]
  rfl

theorem intercalate_utf8 (texts : List (List Char)) :
    List.intercalate [0x2C] (texts.map utf8) = utf8 (List.intercalate [','] texts) := by
  induction texts with
  | nil => rfl
  | cons t texts ih =>
      cases texts with
      | nil => rw [List.map_singleton, List.intercalate_singleton, List.intercalate_singleton]
      | cons u texts =>
          rw [List.map_cons, List.map_cons, List.intercalate_cons_cons, ← List.map_cons, ih,
            List.intercalate_cons_cons, utf8_append, utf8_append]
          rfl

theorem writeStrings_utf8 (strings : List (List Char)) :
    writeStrings (strings.map utf8) = utf8 (stringsText strings) := by
  have hmap : (strings.map utf8).map writeString = (strings.map stringText).map utf8 := by
    rw [List.map_map, List.map_map]
    exact List.map_congr_left (fun s _ => writeString_utf8 s)
  rw [writeStrings, writeArray, hmap, intercalate_utf8, stringsText, utf8_cons, utf8_append]
  rfl

/-- Escaping neither makes a text of bytes nor spoils one. -/
theorem isUtf8_escape (xs bs : List UInt8) :
    IsUtf8 (xs ++ bs.flatMap escapeByte) ↔ IsUtf8 (xs ++ bs) := by
  induction bs generalizing xs with
  | nil => exact Iff.rfl
  | cons b bs ih =>
      rw [List.flatMap_cons]
      by_cases hascii : b.toNat < 128
      · obtain ⟨hne, hbytes⟩ := escapeByte_ascii hascii
        have hrest := ih []
        rw [List.nil_append, List.nil_append] at hrest
        rw [isUtf8_append_ascii hne hbytes, isUtf8_append_cons _ _ hascii, hrest]
      · have hnext := ih (xs ++ [b])
        rw [List.append_assoc, List.append_assoc] at hnext
        rw [escapeByte_high (by omega)]
        exact hnext

theorem isUtf8_writeString (bs : List UInt8) : IsUtf8 (writeString bs) ↔ IsUtf8 bs := by
  have hquote : (0x22 : UInt8).toNat < 128 := by decide
  have hopen := isUtf8_append_cons [] (bs.flatMap escapeByte ++ [0x22]) hquote
  have hclose := isUtf8_append_cons (bs.flatMap escapeByte) [] hquote
  exact (hopen.trans (and_iff_right (isUtf8_utf8 []))).trans
    (hclose.trans ((and_iff_left (isUtf8_utf8 [])).trans (isUtf8_escape [] bs)))

theorem isUtf8_intercalate (texts : List (List UInt8)) :
    IsUtf8 (List.intercalate [0x2C] texts) ↔ ∀ t ∈ texts, IsUtf8 t := by
  induction texts with
  | nil => exact ⟨fun _ => by simp, fun _ => isUtf8_utf8 []⟩
  | cons t texts ih =>
      cases texts with
      | nil =>
          rw [List.intercalate_singleton, List.forall_mem_singleton]
      | cons u texts =>
          rw [List.intercalate_cons_cons, List.append_assoc, List.forall_mem_cons, ← ih]
          exact isUtf8_append_cons _ _ (by decide)

/-- **A written array of strings** is UTF-8 text exactly when each string is. -/
theorem isUtf8_writeStrings (strings : List (List UInt8)) :
    IsUtf8 (writeStrings strings) ↔ ∀ bs ∈ strings, IsUtf8 bs := by
  have hopen := isUtf8_append_cons []
    (List.intercalate [0x2C] (strings.map writeString) ++ [0x5D])
    (show (0x5B : UInt8).toNat < 128 by decide)
  have hclose := isUtf8_append_cons (List.intercalate [0x2C] (strings.map writeString)) []
    (show (0x5D : UInt8).toNat < 128 by decide)
  have hall := isUtf8_intercalate (strings.map writeString)
  rw [List.forall_mem_map] at hall
  refine (hopen.trans (and_iff_right (isUtf8_utf8 []))).trans
    ((hclose.trans ((and_iff_left (isUtf8_utf8 [])).trans hall)).trans ?_)
  exact forall₂_congr (fun bs _ => isUtf8_writeString bs)

end Periplus.Verified.JsonText
