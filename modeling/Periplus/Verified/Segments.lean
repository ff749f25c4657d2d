import Periplus.Verified.Run

/-!
# Reading a stream that arrives in segments

A stream arrives as a sequence of segments; where one ends and the next begins is
nobody's choice.  `IsCut segs x` says that there is such a border behind the first
`x` elements.  A reader asks for up to `n` elements and gets what the first segment
holds of them, so it can come back with fewer exactly where there is a cut.

`Framed p xs a bad` says all there is to say about a reader `p` on a stream that
begins with `xs`: it returns `a` and takes `xs`, whatever the segments, unless there
is a cut at one of the `bad` positions of `xs`, and then it fails (and fails always
when `a` is `none`).

## Main results

* `le_untilCut_iff` — the elements up to the next border.
* `flatten_dropBytes`, `isCut_dropBytes` — what is left of the stream, and where it
  is cut.
* `receive_full`, `receive_short` — one read is complete when there is no cut inside.
* `Framed.bind`, `framed_pure`, `framed_header` — the rules for sequencing.
-/

namespace Periplus.Verified.Segments

open Periplus.Verified.Run

universe u v

variable {α : Type u}

/-- Every segment has arrived with something in it. -/
def NoneEmpty (segs : List (List α)) : Prop := ∀ seg ∈ segs, seg ≠ []

/-- There is a border between segments behind the first `x` elements. -/
def IsCut (segs : List (List α)) (x : Nat) : Prop :=
  ∃ pre post, segs = pre ++ post ∧ pre.flatten.length = x

/-- What is left after `n` elements. -/
def dropBytes (n : Nat) : List (List α) → List (List α)
  | [] => []
  | seg :: segs =>
      if n < seg.length then seg.drop n :: segs else dropBytes (n - seg.length) segs

/-- Read up to `n` elements: those of the first segment. -/
def receive (n : Nat) : List (List α) → List α × List (List α)
  | [] => ([], [])
  | seg :: segs => (seg.take n, if n < seg.length then seg.drop n :: segs else segs)

/-- How many elements there are between the first `x` and the next border. -/
def untilCut (x : Nat) : List (List α) → Nat
  | [] => 0
  | seg :: segs => if x ≤ seg.length then seg.length - x else untilCut (x - seg.length) segs

/-! ## Cuts -/

theorem isCut_zero (segs : List (List α)) : IsCut segs 0 := ⟨[], segs, rfl, rfl⟩

theorem isCut_nil {x : Nat} : IsCut ([] : List (List α)) x ↔ x = 0 := by
  constructor
  · rintro ⟨pre, post, h, rfl⟩
    rw [List.nil_eq_append_iff] at h
    rw [h.1]
    rfl
  · rintro rfl
    exact isCut_zero []

theorem isCut_cons {seg : List α} {segs : List (List α)} {x : Nat} :
    IsCut (seg :: segs) x ↔ x = 0 ∨ seg.length ≤ x ∧ IsCut segs (x - seg.length) := by
  constructor
  · rintro ⟨pre, post, h, rfl⟩
    cases pre with
    | nil => exact Or.inl rfl
    | cons first pre =>
        rw [List.cons_append, List.cons.injEq] at h
        obtain ⟨rfl, rfl⟩ := h
        rw [List.flatten_cons, List.length_append]
        exact Or.inr ⟨Nat.le_add_right _ _, pre, post, rfl, by omega⟩
  · rintro (rfl | ⟨hle, pre, post, rfl, hlen⟩)
    · exact isCut_zero _
    · refine ⟨seg :: pre, post, rfl, ?_⟩
      rw [List.flatten_cons, List.length_append, hlen]
      omega

/-- A stream in one segment is cut at its ends only. -/
theorem isCut_singleton {seg : List α} {x : Nat} :
    IsCut [seg] x ↔ x = 0 ∨ x = seg.length := by
  rw [isCut_cons, isCut_nil]
  omega

theorem isCut_le {segs : List (List α)} {x : Nat} (h : IsCut segs x) :
    x ≤ segs.flatten.length := by
  obtain ⟨pre, post, rfl, rfl⟩ := h
  rw [List.flatten_append, List.length_append]
  exact Nat.le_add_right _ _

/-- Up to the next border there is none. -/
theorem le_untilCut_iff {segs : List (List α)} {x n : Nat} (hx : 0 < x)
    (hle : x ≤ segs.flatten.length) :
    n ≤ untilCut x segs ↔ ∀ y, x ≤ y → y < x + n → ¬ IsCut segs y := by
  induction segs generalizing x with
  | nil =>
      rw [List.flatten_nil, List.length_nil] at hle
      omega
  | cons seg segs ih =>
      rw [List.flatten_cons, List.length_append] at hle
      rw [untilCut]
      by_cases hseg : x ≤ seg.length
      · rw [if_pos hseg]
        constructor
        · intro hn y hxy hy hcut
          rw [isCut_cons] at hcut
          omega
        · intro hnone
          by_contra hlt
          apply hnone seg.length hseg (by omega)
          rw [isCut_cons, Nat.sub_self]
          exact Or.inr ⟨Nat.le_refl _, isCut_zero segs⟩
      · have hbehind : ∀ y, x ≤ y → (IsCut (seg :: segs) y ↔ IsCut segs (y - seg.length)) := by
          intro y hxy
          rw [isCut_cons]
          constructor
          · rintro (rfl | ⟨_, hcut⟩)
            · omega
            · exact hcut
          · exact fun hcut => Or.inr ⟨by omega, hcut⟩
        rw [if_neg hseg, ih (by omega) (by omega)]
        constructor
        · intro hnone y hxy hy hcut
          exact hnone (y - seg.length) (by omega) (by omega) ((hbehind y hxy).mp hcut)
        · intro hnone y hxy hy hcut
          have hy' : y + seg.length - seg.length = y := Nat.add_sub_cancel y seg.length
          apply hnone (y + seg.length) (by omega) (by omega)
          rw [hbehind _ (by omega), hy']
          exact hcut

/-! ## What is left of the stream -/

theorem flatten_dropBytes (n : Nat) (segs : List (List α)) :
    (dropBytes n segs).flatten = segs.flatten.drop n := by
  induction segs generalizing n with
  | nil => simp [dropBytes]
  | cons seg segs ih =>
      rw [dropBytes, List.flatten_cons, List.drop_append]
      split
      · next hlt => rw [List.flatten_cons, Nat.sub_eq_zero_of_le (Nat.le_of_lt hlt), List.drop_zero]
      · next hge =>
          have hnil : seg.drop n = [] := List.drop_eq_nil_of_le (by omega)
          rw [ih, hnil, List.nil_append]

theorem noneEmpty_dropBytes {segs : List (List α)} (h : NoneEmpty segs) (n : Nat) :
    NoneEmpty (dropBytes n segs) := by
  induction segs generalizing n with
  | nil => exact h
  | cons seg segs ih =>
      have hrest : NoneEmpty segs := fun s hs => h s (List.mem_cons_of_mem seg hs)
      rw [dropBytes]
      split
      · next hlt =>
          intro s hs
          rcases List.mem_cons.mp hs with rfl | hs
          · intro hnil
            have := List.drop_eq_nil_iff.mp hnil
            omega
          · exact hrest s hs
      · exact ih hrest _

/-- The cuts of what is left are the later cuts. -/
theorem isCut_dropBytes {segs : List (List α)} {n x : Nat} (hn : n ≤ segs.flatten.length)
    (hx : 0 < x) : IsCut (dropBytes n segs) x ↔ IsCut segs (n + x) := by
  induction segs generalizing n with
  | nil =>
      have : n = 0 := by simpa using hn
      rw [dropBytes, this, Nat.zero_add]
  | cons seg segs ih =>
      rw [List.flatten_cons, List.length_append] at hn
      rw [dropBytes, isCut_cons]
      split
      · next hlt =>
          rw [isCut_cons, List.length_drop]
          have hsub : x - (seg.length - n) = n + x - seg.length := by omega
          rw [hsub]
          constructor
          · rintro (h | ⟨_, h⟩)
            · omega
            · exact Or.inr ⟨by omega, h⟩
          · rintro (h | ⟨_, h⟩)
            · omega
            · exact Or.inr ⟨by omega, h⟩
      · next hge =>
          rw [ih (by omega)]
          have hsub : n - seg.length + x = n + x - seg.length := by omega
          rw [hsub]
          constructor
          · exact fun h => Or.inr ⟨by omega, h⟩
          · rintro (h | ⟨_, h⟩)
            · omega
            · exact h

theorem dropBytes_zero {segs : List (List α)} (h : NoneEmpty segs) : dropBytes 0 segs = segs := by
  cases segs with
  | nil => rfl
  | cons seg segs =>
      have hlen : 0 < seg.length := List.length_pos_iff.mpr (h seg List.mem_cons_self)
      rw [dropBytes, if_pos hlen, List.drop_zero]

theorem dropBytes_dropBytes {segs : List (List α)} (n m : Nat) :
    dropBytes m (dropBytes n segs) = dropBytes (n + m) segs := by
  induction segs generalizing n with
  | nil => rfl
  | cons seg segs ih =>
      rw [dropBytes, dropBytes]
      by_cases hlt : n < seg.length
      · rw [if_pos hlt, dropBytes, List.length_drop, List.drop_drop]
        by_cases hlt' : n + m < seg.length
        · rw [if_pos (by omega), if_pos hlt']
        · rw [if_neg (by omega), if_neg hlt']
          congr 1
          omega
      · rw [if_neg hlt, if_neg (by omega), ih]
        congr 1
        omega

/-! ## One read -/

/-- A read takes a first part of the stream. -/
theorem receive_eq {segs : List (List α)} (h : NoneEmpty segs) (n : Nat) :
    (receive n segs).1 = segs.flatten.take (receive n segs).1.length ∧
      (receive n segs).2 = dropBytes (receive n segs).1.length segs := by
  cases segs with
  | nil => exact ⟨rfl, rfl⟩
  | cons seg segs =>
      have hrest : NoneEmpty segs := fun s hs => h s (List.mem_cons_of_mem seg hs)
      rw [receive, List.flatten_cons, dropBytes, List.length_take]
      by_cases hlt : n < seg.length
      · rw [Nat.min_eq_left (Nat.le_of_lt hlt), if_pos hlt, if_pos hlt,
          List.take_append_of_le_length (Nat.le_of_lt hlt)]
        exact ⟨rfl, rfl⟩
      · rw [Nat.min_eq_right (by omega), if_neg hlt, if_neg (Nat.lt_irrefl _), Nat.sub_self,
          dropBytes_zero hrest, List.take_left, List.take_of_length_le (by omega)]
        exact ⟨rfl, rfl⟩

theorem receive_length_le (n : Nat) (segs : List (List α)) :
    (receive n segs).1.length ≤ n := by
  cases segs with
  | nil => exact Nat.zero_le n
  | cons seg segs =>
      rw [receive, List.length_take]
      exact Nat.min_le_left n _

/-- A read returns something while there is something. -/
theorem receive_length_pos {segs : List (List α)} (h : NoneEmpty segs) {n : Nat} (hn : 0 < n)
    (hlen : segs.flatten ≠ []) : 0 < (receive n segs).1.length := by
  cases segs with
  | nil => exact absurd rfl hlen
  | cons seg segs =>
      have hseg : 0 < seg.length := List.length_pos_iff.mpr (h seg List.mem_cons_self)
      rw [receive, List.length_take]
      omega

/-- It is complete when there is no cut inside of it. -/
theorem receive_full {segs : List (List α)} {n : Nat} (hlen : n ≤ segs.flatten.length)
    (hcut : ∀ x, 0 < x → x < n → ¬ IsCut segs x) (h : NoneEmpty segs) :
    (receive n segs).1.length = n := by
  cases segs with
  | nil =>
      have : n = 0 := by simpa using hlen
      rw [this]
      rfl
  | cons seg segs =>
      have hseg : 0 < seg.length := List.length_pos_iff.mpr (h seg List.mem_cons_self)
      rw [receive, List.length_take]
      by_cases hle : n ≤ seg.length
      · exact Nat.min_eq_left hle
      · have hborder : IsCut (seg :: segs) seg.length :=
          isCut_cons.mpr (Or.inr ⟨Nat.le_refl _, by rw [Nat.sub_self]; exact isCut_zero segs⟩)
        exact absurd hborder (hcut seg.length hseg (by omega))

/-- It is short when there is. -/
theorem receive_short {segs : List (List α)} {n x : Nat} (hx : 0 < x) (hxn : x < n)
    (hcut : IsCut segs x) : (receive n segs).1.length < n := by
  cases segs with
  | nil => exact Nat.lt_of_le_of_lt (Nat.zero_le x) hxn
  | cons seg segs =>
      rw [receive, List.length_take]
      rcases isCut_cons.mp hcut with h | ⟨hle, _⟩
      · omega
      · omega

/-- A read of more than there is takes everything, unless the stream is cut inside. -/
theorem receive_all {segs : List (List α)} {n : Nat} (h : NoneEmpty segs)
    (hlen : segs.flatten.length ≤ n)
    (hcut : ∀ x, 0 < x → x < segs.flatten.length → ¬ IsCut segs x) :
    (receive n segs).1 = segs.flatten := by
  cases segs with
  | nil => rfl
  | cons seg segs =>
      have hseg : 0 < seg.length := List.length_pos_iff.mpr (h seg List.mem_cons_self)
      have hborder : IsCut (seg :: segs) seg.length :=
        isCut_cons.mpr (Or.inr ⟨Nat.le_refl _, by rw [Nat.sub_self]; exact isCut_zero segs⟩)
      rw [List.flatten_cons, List.length_append] at hlen hcut
      have hlast : segs.flatten = [] := by
        rw [← List.length_eq_zero_iff]
        by_contra hne
        exact hcut seg.length hseg (by omega) hborder
      rw [receive, List.flatten_cons, hlast, List.append_nil, List.take_of_length_le (by omega)]

theorem receive_part {segs : List (List α)} {n x : Nat} (hx : 0 < x)
    (hlt : x < segs.flatten.length) (hcut : IsCut segs x) :
    (receive n segs).1.length < segs.flatten.length := by
  cases segs with
  | nil => exact absurd hlt (Nat.not_lt_zero x)
  | cons seg segs =>
      rw [receive, List.length_take]
      rcases isCut_cons.mp hcut with h | ⟨hle, _⟩
      · omega
      · omega

/-! ## Readers -/

/-- A reader of a stream of `α`s that arrives in segments. -/
abbrev SegRead (α : Type u) (ε : Type v) (β : Type u) : Type (max u v) :=
  StateT (List (List α)) (Except ε) β

variable {ε : Type v} {β γ : Type u}

theorem segRead_bind_apply (p : SegRead α ε β) (f : β → SegRead α ε γ)
    (segs : List (List α)) : (p >>= f) segs = (p segs >>= fun r => f r.1 r.2) := rfl

/-- The positions of `bad`, `n` elements further on. -/
def after (n : Nat) (bad : Nat → Prop) (x : Nat) : Prop := n ≤ x ∧ bad (x - n)

/-- On a stream that begins with `xs`, the reader returns `a` and leaves the rest,
unless the stream is cut at a bad position. -/
structure Framed (p : SegRead α ε β) (xs : List α) (a : Option β) (bad : Nat → Prop) : Prop where
  inside : ∀ b, a = some b → ∀ x, bad x → 0 < x ∧ x < xs.length
  reads : ∀ segs rest b, NoneEmpty segs → segs.flatten = xs ++ rest → a = some b →
    (∀ x, bad x → ¬ IsCut segs x) → p segs = .ok (b, dropBytes xs.length segs)
  breaks : ∀ segs rest, NoneEmpty segs → segs.flatten = xs ++ rest →
    (a = none ∨ ∃ x, bad x ∧ IsCut segs x) → ∃ e, p segs = .error e

theorem framed_pure (a : β) :
    Framed (pure a : SegRead α ε β) [] (some a) (fun _ => False) where
  inside := fun _ _ _ h => h.elim
  reads := by
    intro segs rest b hne _ hb _
    rw [Option.some.injEq] at hb
    rw [List.length_nil, dropBytes_zero hne, ← hb]
    rfl
  breaks := by
    rintro segs rest _ _ (h | ⟨x, h, _⟩)
    · exact absurd h (by simp)
    · exact h.elim

/-- Sequencing appends the streams; the bad positions of the second reader move
behind the first stream. -/
theorem Framed.bind {p : SegRead α ε β} {f : β → SegRead α ε γ} {xs ys : List α}
    {a : Option β} {g : β → Option γ} {bad bad' : Nat → Prop} (hp : Framed p xs a bad)
    (hf : ∀ b, a = some b → Framed (f b) ys (g b) bad') :
    Framed (p >>= f) (xs ++ ys) (a.bind g) (fun x => bad x ∨ after xs.length bad' x) where
  inside := by
    intro c hc x hx
    obtain ⟨b, hb, hg⟩ := Option.bind_eq_some_iff.mp hc
    rw [List.length_append]
    rcases hx with h | ⟨hle, h⟩
    · have := hp.inside b hb x h
      omega
    · have := (hf b hb).inside c hg _ h
      omega
  reads := by
    intro segs rest c hne hstream hc hcut
    obtain ⟨b, hb, hg⟩ := Option.bind_eq_some_iff.mp hc
    rw [List.append_assoc] at hstream
    have hlen : xs.length ≤ segs.flatten.length := by
      rw [hstream, List.length_append]
      exact Nat.le_add_right _ _
    rw [segRead_bind_apply, hp.reads segs (ys ++ rest) b hne hstream hb
      (fun x hx => hcut x (Or.inl hx)), ok_bind]
    have hrest : (dropBytes xs.length segs).flatten = ys ++ rest := by
      rw [flatten_dropBytes, hstream, List.drop_left]
    have hnocut : ∀ x, bad' x → ¬ IsCut (dropBytes xs.length segs) x := by
      intro x hx hxcut
      rw [isCut_dropBytes hlen ((hf b hb).inside c hg x hx).1] at hxcut
      exact hcut _ (Or.inr ⟨Nat.le_add_right _ _, by rwa [Nat.add_sub_cancel_left]⟩) hxcut
    show f b (dropBytes xs.length segs) = _
    rw [(hf b hb).reads _ rest c (noneEmpty_dropBytes hne _) hrest hg hnocut,
      dropBytes_dropBytes, List.length_append]
  breaks := by
    intro segs rest hne hstream hbad
    rw [List.append_assoc] at hstream
    rw [segRead_bind_apply]
    by_cases hfirst : a = none ∨ ∃ x, bad x ∧ IsCut segs x
    · obtain ⟨e, he⟩ := hp.breaks segs _ hne hstream hfirst
      exact ⟨e, by rw [he, error_bind]⟩
    · -- the first part is read, so the cut, or the failure, is in the second
      rw [not_or, not_exists] at hfirst
      obtain ⟨b, hb⟩ := Option.ne_none_iff_exists'.mp hfirst.1
      have hlen : xs.length ≤ segs.flatten.length := by
        rw [hstream, List.length_append]
        exact Nat.le_add_right _ _
      have hrest : (dropBytes xs.length segs).flatten = ys ++ rest := by
        rw [flatten_dropBytes, hstream, List.drop_left]
      rw [hp.reads segs (ys ++ rest) b hne hstream hb
        (fun x hx hc => hfirst.2 x ⟨hx, hc⟩), ok_bind]
      refine (hf b hb).breaks _ rest (noneEmpty_dropBytes hne _) hrest ?_
      rw [or_iff_not_imp_left]
      intro hsome
      obtain ⟨c, hc⟩ := Option.ne_none_iff_exists'.mp hsome
      rcases hbad with hnone | ⟨x, hx | ⟨hle, hx⟩, hxcut⟩
      · rw [hb, Option.bind_some] at hnone
        exact absurd hnone hsome
      · exact absurd ⟨hx, hxcut⟩ (hfirst.2 x)
      · refine ⟨x - xs.length, hx, ?_⟩
        rw [isCut_dropBytes hlen ((hf b hb).inside c hc _ hx).1]
        rwa [Nat.add_sub_cancel' hle]

theorem after_or {n : Nat} {bad bad' : Nat → Prop} {x : Nat} :
    after n (fun x => bad x ∨ bad' x) x ↔ after n bad x ∨ after n bad' x :=
  and_or_left

theorem after_false {n x : Nat} : after n (fun _ => False) x ↔ False := by
  rw [after, and_false]

theorem after_after {n m : Nat} {bad : Nat → Prop} {x : Nat} :
    after n (after m bad) x ↔ after (n + m) bad x := by
  unfold after
  rw [Nat.sub_sub]
  constructor
  · rintro ⟨h, h', hbad⟩
    exact ⟨by omega, hbad⟩
  · rintro ⟨h, hbad⟩
    exact ⟨by omega, by omega, hbad⟩

/-- A reader that cannot be cut, followed by another one. -/
theorem Framed.bind_of_whole {p : SegRead α ε β} {f : β → SegRead α ε γ} {xs ys : List α}
    {a : Option β} {g : β → Option γ} {bad' : Nat → Prop} (hp : Framed p xs a (fun _ => False))
    (hf : ∀ b, a = some b → Framed (f b) ys (g b) bad') :
    Framed (p >>= f) (xs ++ ys) (a.bind g) (after xs.length bad') := by
  have h := hp.bind hf
  simpa only [false_or] using h

/-- A reader that returns one value, followed by another one. -/
theorem Framed.bind_some {p : SegRead α ε β} {f : β → SegRead α ε γ} {xs ys : List α}
    {a : β} {c : Option γ} {bad bad' : Nat → Prop} (hp : Framed p xs (some a) bad)
    (hf : Framed (f a) ys c bad') :
    Framed (p >>= f) (xs ++ ys) c (fun x => bad x ∨ after xs.length bad' x) := by
  refine hp.bind (g := fun _ => c) (fun b hb => ?_)
  rw [Option.some.injEq] at hb
  rwa [← hb]

theorem Framed.congr {p : SegRead α ε β} {xs ys : List α} {a b : Option β}
    {bad bad' : Nat → Prop} (h : Framed p xs a bad) (hxs : xs = ys) (ha : a = b)
    (hbad : ∀ x, bad x ↔ bad' x) : Framed p ys b bad' := by
  have : bad = bad' := funext (fun x => propext (hbad x))
  rwa [← hxs, ← ha, ← this]

/-- A last step that reads nothing. -/
theorem Framed.map {p : SegRead α ε β} {xs : List α} {a : Option β} {bad : Nat → Prop}
    (hp : Framed p xs a bad) (f : β → γ) :
    Framed (p >>= fun b => pure (f b)) xs (a.map f) bad := by
  have h := hp.bind (f := fun b => pure (f b)) (g := fun b => some (f b))
    (fun b _ => framed_pure (f b))
  simp only [after_false, or_false, List.append_nil] at h
  rwa [Option.map_eq_bind]

/-- A read of `n` elements at once, which is taken apart by `f` and must be complete. -/
theorem framed_header {n : Nat} (f : List α → Except ε β) {xs : List α} {b : β}
    (hxs : xs.length = n) (hf : f xs = .ok b)
    (hshort : ∀ data, data.length < n → ∃ e, f data = .error e) :
    Framed (fun segs => (f (receive n segs).1).map (fun b => (b, (receive n segs).2))) xs
      (some b) (fun x => 0 < x ∧ x < n) where
  inside := fun _ _ _ h => ⟨h.1, hxs ▸ h.2⟩
  reads := by
    intro segs rest c hne hstream hc hcut
    rw [Option.some.injEq] at hc
    subst hc
    have hlen : n ≤ segs.flatten.length := by
      rw [hstream, List.length_append]
      omega
    have hfull := receive_full hlen (fun x h0 hn => hcut x ⟨h0, hn⟩) hne
    obtain ⟨hdata, hrest⟩ := receive_eq hne n
    rw [hfull] at hdata hrest
    rw [hdata, hrest, hstream, ← hxs, List.take_left, hf]
    rfl
  breaks := by
    rintro segs rest hne hstream (h | ⟨x, ⟨h0, hn⟩, hcut⟩)
    · exact absurd h (by simp)
    · obtain ⟨e, he⟩ := hshort _ (receive_short h0 hn hcut)
      exact ⟨e, by rw [he]; rfl⟩

/-- A reader is complete on one segment. -/
theorem Framed.reads_single {p : SegRead α ε β} {xs : List α} {b : β} {bad : Nat → Prop}
    (h : Framed p xs (some b) bad) (hxs : xs ≠ []) : p [xs] = .ok (b, []) := by
  have hne : NoneEmpty [xs] := by
    intro s hs
    rw [List.mem_singleton] at hs
    rwa [hs]
  have hread := h.reads [xs] [] b hne (by simp) rfl (by
    intro x hx hcut
    have := h.inside b rfl x hx
    rcases isCut_singleton.mp hcut with h | h <;> omega)
  rw [hread, dropBytes, if_neg (Nat.lt_irrefl _), Nat.sub_self]
  rfl

end Periplus.Verified.Segments
