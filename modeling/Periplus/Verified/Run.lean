import Mathlib

/-!
# Runs of a step function that may fail

A component is given by a step function `σ → α → Except ε σ`: a state and an
input give the next state, or a failure `ε` after which there is no state.
`run` folds it over a list of inputs.  Everything here is independent of what
the states, the inputs and the failures are.

## Main results

* `bind_eq_ok`, `bind_eq_error` — how a sequenced computation can end.
* `run_append`, `run_concat` — a run splits at any point of its inputs.
* `invariant` — what holds initially and is preserved by every step holds
  after every run.
* `history_invariant` — the same for a relation between the inputs consumed so
  far and the state they led to; every ghost record of the past is carried
  through it.
* `simulation` — a run keeps step with an abstract machine that cannot fail.
* `attend_eq_ok` — one machine that answers several clients, one request after the other.
* `since_concat` — what was turned on and has not been turned off since.
* `chronicle_iff` — what was true of every event when it happened, given the
  events before it.
-/

namespace Periplus.Verified.Run

universe u v w

section Bind

variable {ε : Type w} {α β : Type u}

/-- A sequenced computation succeeds when both of its parts do. -/
theorem bind_eq_ok {x : Except ε α} {f : α → Except ε β} {b : β} :
    (x >>= f) = .ok b ↔ ∃ a, x = .ok a ∧ f a = .ok b := by
  cases x with
  | error e => simp [bind, Except.bind]
  | ok a => simp [bind, Except.bind]

/-- It fails in its first part, or in its second. -/
theorem bind_eq_error {x : Except ε α} {f : α → Except ε β} {e : ε} :
    (x >>= f) = .error e ↔ x = .error e ∨ ∃ a, x = .ok a ∧ f a = .error e := by
  cases x with
  | error e' => simp [bind, Except.bind]
  | ok a => simp [bind, Except.bind]

@[simp] theorem ok_bind (a : α) (f : α → Except ε β) :
    ((Except.ok a : Except ε α) >>= f) = f a := rfl

@[simp] theorem error_bind (e : ε) (f : α → Except ε β) :
    ((Except.error e : Except ε α) >>= f) = .error e := rfl

end Bind

variable {σ : Type u} {α : Type v} {ε : Type w}

/-- Feed the inputs to `step` from the left, stopping at the first failure. -/
def run (step : σ → α → Except ε σ) : σ → List α → Except ε σ
  | s, [] => .ok s
  | s, a :: as =>
      match step s a with
      | .ok s' => run step s' as
      | .error e => .error e

@[simp] theorem run_nil (step : σ → α → Except ε σ) (s : σ) :
    run step s [] = .ok s := rfl

theorem run_cons_ok {step : σ → α → Except ε σ} {s s' : σ} {a : α}
    (h : step s a = .ok s') (as : List α) :
    run step s (a :: as) = run step s' as := by
  simp only [run, h]

theorem run_cons_error {step : σ → α → Except ε σ} {s : σ} {a : α} {e : ε}
    (h : step s a = .error e) (as : List α) :
    run step s (a :: as) = .error e := by
  simp only [run, h]

/-- A run that succeeds on its first inputs continues from where they led. -/
theorem run_append {step : σ → α → Except ε σ} {s s' : σ} {as : List α}
    (h : run step s as = .ok s') (bs : List α) :
    run step s (as ++ bs) = run step s' bs := by
  induction as generalizing s with
  | nil =>
      simp only [run_nil, Except.ok.injEq] at h
      subst h
      rfl
  | cons a as ih =>
      cases hstep : step s a with
      | error e => simp [run_cons_error hstep] at h
      | ok t =>
          rw [run_cons_ok hstep] at h
          rw [List.cons_append, run_cons_ok hstep]
          exact ih h

/-- A run that succeeds as a whole succeeds on every prefix. -/
theorem run_prefix {step : σ → α → Except ε σ} {s s' : σ} {as bs : List α}
    (h : run step s (as ++ bs) = .ok s') :
    ∃ t, run step s as = .ok t ∧ run step t bs = .ok s' := by
  cases has : run step s as with
  | ok t => exact ⟨t, rfl, (run_append has bs).symm.trans h⟩
  | error e =>
      exfalso
      induction as generalizing s with
      | nil => simp at has
      | cons a as ih =>
          cases hstep : step s a with
          | error e' => simp [run_cons_error hstep] at h
          | ok t =>
              rw [run_cons_ok hstep] at has
              rw [List.cons_append, run_cons_ok hstep] at h
              exact ih h has

/-- A successful run over `as` followed by one more input. -/
theorem run_concat {step : σ → α → Except ε σ} {s s' : σ} {as : List α} {a : α} :
    run step s (as ++ [a]) = .ok s' ↔
      ∃ t, run step s as = .ok t ∧ step t a = .ok s' := by
  have single : ∀ t, run step t [a] = .ok s' ↔ step t a = .ok s' := by
    intro t
    cases hstep : step t a <;> simp [run, hstep]
  constructor
  · intro h
    obtain ⟨t, ht, hs⟩ := run_prefix h
    exact ⟨t, ht, (single t).mp hs⟩
  · rintro ⟨t, ht, hs⟩
    rw [run_append ht]
    exact (single t).mpr hs

/-- **The history rule.**  A relation between the inputs consumed so far and
the state reached holds of every run once it holds of the empty run and every
step extends it. -/
theorem history_invariant {step : σ → α → Except ε σ} {s₀ : σ}
    (P : List α → σ → Prop) (hinit : P [] s₀)
    (hstep : ∀ as s a s', run step s₀ as = .ok s → P as s →
      step s a = .ok s' → P (as ++ [a]) s')
    {as : List α} {s : σ} (h : run step s₀ as = .ok s) : P as s := by
  induction as using List.reverseRecOn generalizing s with
  | nil =>
      simp only [run_nil, Except.ok.injEq] at h
      exact h ▸ hinit
  | append_singleton as a ih =>
      obtain ⟨t, ht, hs⟩ := run_concat.mp h
      exact hstep as t a s ht (ih ht) hs

/-- **The invariant rule.** -/
theorem invariant {step : σ → α → Except ε σ} {s₀ : σ} (Inv : σ → Prop)
    (hinit : Inv s₀) (hstep : ∀ s a s', Inv s → step s a = .ok s' → Inv s')
    {as : List α} {s : σ} (h : run step s₀ as = .ok s) : Inv s :=
  history_invariant (fun _ t => Inv t) hinit
    (fun _ t a t' _ hI hs => hstep t a t' hI hs) h

/-- **The simulation rule.**  A relation to an abstract machine that every step
preserves leads from related states to related states. -/
theorem simulation {τ : Type*} {step : σ → α → Except ε σ} {astep : τ → α → τ}
    {s₀ : σ} {t₀ : τ} (R : σ → τ → Prop) (hinit : R s₀ t₀)
    (hstep : ∀ as s a s' t, run step s₀ as = .ok s → R s t → step s a = .ok s' →
      R s' (astep t a))
    {as : List α} {s : σ} (h : run step s₀ as = .ok s) : R s (as.foldl astep t₀) := by
  refine history_invariant (fun as s => R s (as.foldl astep t₀)) hinit ?_ h
  intro as s a s' hrun hR hs
  rw [List.foldl_append]
  exact hstep as s a s' _ hrun hR hs

/-! ## Several clients -/

section Clients

variable {ι ρ ω τ : Type u} {ε : Type w} [DecidableEq ι]

/-- A request goes to the machine, and the replies to the client that has made it. -/
def attend (machine : τ → ρ → Except ε (τ × List ω)) (st : τ × (ι → List ω)) (x : ι × ρ) :
    Except ε (τ × (ι → List ω)) := do
  let (t, replies) ← machine st.1 x.2
  .ok (t, Function.update st.2 x.1 (st.2 x.1 ++ replies))

theorem attend_eq_ok {machine : τ → ρ → Except ε (τ × List ω)} {st st' : τ × (ι → List ω)}
    {x : ι × ρ} : attend machine st x = .ok st' ↔
      ∃ replies, machine st.1 x.2 = .ok (st'.1, replies) ∧
        st'.2 = Function.update st.2 x.1 (st.2 x.1 ++ replies) := by
  rw [attend, bind_eq_ok]
  constructor
  · rintro ⟨⟨t, replies⟩, hmachine, h⟩
    rw [Except.ok.injEq] at h
    rw [← h]
    exact ⟨replies, hmachine, rfl⟩
  · rintro ⟨replies, hmachine, hreplies⟩
    refine ⟨(st'.1, replies), hmachine, ?_⟩
    show Except.ok (st'.1, Function.update st.2 x.1 (st.2 x.1 ++ replies)) = .ok st'
    rw [← hreplies]

end Clients

/-! ## Since -/

/-- Some input turned it on, given the inputs before, and no later one turned it off. -/
def Since (on : List α → α → Prop) (off : α → Prop) (as : List α) : Prop :=
  ∃ past a later, as = past ++ a :: later ∧ on past a ∧ ∀ b ∈ later, ¬ off b

theorem not_since_nil {on : List α → α → Prop} {off : α → Prop} : ¬ Since on off [] := by
  rintro ⟨past, a, later, h, _⟩
  exact absurd h (by simp)

theorem since_concat {on : List α → α → Prop} {off : α → Prop} {as : List α} {a : α} :
    Since on off (as ++ [a]) ↔ on as a ∨ (Since on off as ∧ ¬ off a) := by
  constructor
  · rintro ⟨past, b, later, h, hon, hoff⟩
    rcases List.eq_nil_or_concat later with rfl | ⟨later, c, rfl⟩
    · obtain ⟨rfl, hlast⟩ := List.append_inj' h rfl
      rw [List.cons.injEq] at hlast
      rw [hlast.1]
      exact Or.inl hon
    · rw [List.concat_eq_append, ← List.cons_append, ← List.append_assoc] at h
      obtain ⟨rfl, hlast⟩ := List.append_inj' h rfl
      rw [List.cons.injEq] at hlast
      rw [List.concat_eq_append, List.forall_mem_append, List.forall_mem_singleton] at hoff
      exact Or.inr ⟨⟨past, b, later, rfl, hon, hoff.1⟩, hlast.1 ▸ hoff.2⟩
  · rintro (hon | ⟨⟨past, b, later, rfl, hon, hoff⟩, ha⟩)
    · exact ⟨as, a, [], rfl, hon, by simp⟩
    · refine ⟨past, b, later ++ [a], by rw [List.append_assoc, List.cons_append], hon, ?_⟩
      rw [List.forall_mem_append, List.forall_mem_singleton]
      exact ⟨hoff, ha⟩

/-! ## Chronicles -/

/-- A list of events, each of which was `Good` when it happened, given the events
before it. -/
inductive Chronicle (Good : List α → α → Prop) : List α → Prop
  | nil : Chronicle Good []
  | snoc {past : List α} {a : α} : Chronicle Good past → Good past a →
      Chronicle Good (past ++ [a])

theorem chronicle_iff {Good : List α → α → Prop} {as : List α} :
    Chronicle Good as ↔ ∀ past a later, as = past ++ a :: later → Good past a := by
  constructor
  · intro h
    induction h with
    | nil =>
        intro past a later h
        exact absurd h (by simp)
    | @snoc past b hpast hgood ih =>
        intro past' a later h
        rcases List.eq_nil_or_concat later with rfl | ⟨later, c, rfl⟩
        · have hlast := List.append_inj' h rfl
          rw [List.cons.injEq] at hlast
          rw [← hlast.1, ← hlast.2.1]
          exact hgood
        · rw [List.concat_eq_append, ← List.cons_append, ← List.append_assoc] at h
          exact ih past' a later (List.append_inj' h rfl).1
  · intro h
    induction as using List.reverseRecOn with
    | nil => exact .nil
    | append_singleton past a ih =>
        refine .snoc (ih fun past' b later hsplit => ?_) (h past a [] rfl)
        exact h past' b (later ++ [a]) (by rw [hsplit]; simp)

end Periplus.Verified.Run
