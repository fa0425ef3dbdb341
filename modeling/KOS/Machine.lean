import Mathlib

/-! Runs of an event-driven machine whose step may fail, under a guard that says
which events a run may take in which state. Nothing here names a program. -/

namespace KOS.Machine

variable {σ ε : Type*} (step : σ → ε → Option σ) (ok : σ → ε → Prop)

/-- One permitted event that the machine can take. -/
def Step (s t : σ) : Prop := ∃ e, ok s e ∧ step s e = some t

/-- The states reached by permitted events, in any number and any order. -/
def Reach : σ → σ → Prop := Relation.ReflTransGen (Step step ok)

/-- Executes a list of events and checks the guard before each one. -/
def play [∀ s, DecidablePred (ok s)] : σ → List ε → Option σ
  | s, [] => some s
  | s, e :: rest => if ok s e then (step s e).bind (fun t => play t rest) else none

variable {step ok}

/-- The induction every safety result uses: one step keeps the invariant, so a run does. -/
theorem Reach.invariant {Inv : σ → Prop}
    (kept : ∀ s e t, Inv s → ok s e → step s e = some t → Inv t)
    {s t : σ} (start : Inv s) (run : Reach step ok s t) : Inv t := by
  induction run with
  | refl => exact start
  | tail _ last ih =>
    obtain ⟨e, permitted, moved⟩ := last
    exact kept _ e _ ih permitted moved

theorem Reach.refl (s : σ) : Reach step ok s s := Relation.ReflTransGen.refl

theorem Reach.cons {s t u : σ} {e : ε} (permitted : ok s e) (moved : step s e = some t)
    (rest : Reach step ok t u) : Reach step ok s u :=
  Relation.ReflTransGen.head ⟨e, permitted, moved⟩ rest

theorem Reach.mono {ok' : σ → ε → Prop} (weaker : ∀ s e, ok s e → ok' s e) {s t : σ}
    (run : Reach step ok s t) : Reach step ok' s t := by
  apply Relation.ReflTransGen.mono _ s t run
  rintro before after ⟨e, permitted, moved⟩
  exact ⟨e, weaker before e permitted, moved⟩

/-- Forward simulation: when a run of the second machine answers each step of the first, one
answers each run. -/
theorem Reach.simulates {σ' ε' : Type*} {step' : σ' → ε' → Option σ'} {ok' : σ' → ε' → Prop}
    {R : σ → σ' → Prop}
    (answer : ∀ s s' e t, R s s' → ok s e → step s e = some t → ∃ t', Reach step' ok' s' t' ∧ R t t')
    {s t : σ} {s' : σ'} (related : R s s') (run : Reach step ok s t) :
    ∃ t', Reach step' ok' s' t' ∧ R t t' := by
  induction run with
  | refl => exact ⟨s', Reach.refl s', related⟩
  | tail _ last ih =>
    obtain ⟨e, permitted, moved⟩ := last
    obtain ⟨mid, before, middle⟩ := ih
    obtain ⟨t', after, final⟩ := answer _ _ e _ middle permitted moved
    exact ⟨t', Relation.ReflTransGen.trans before after, final⟩

theorem reach_of_play [∀ s, DecidablePred (ok s)] {s t : σ} {events : List ε}
    (played : play step ok s events = some t) : Reach step ok s t := by
  induction events generalizing s with
  | nil =>
    simp only [play, Option.some.injEq] at played
    exact played ▸ Reach.refl s
  | cons e rest ih =>
    simp only [play] at played
    split_ifs at played with permitted
    obtain ⟨next, moved, later⟩ := Option.bind_eq_some_iff.mp played
    exact Reach.cons permitted moved (ih later)

end KOS.Machine
