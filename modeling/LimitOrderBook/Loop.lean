import Mathlib.Data.List.Basic
import Mathlib.Tactic.Common

/-! # While loops

A loop is a step function `step : σ → Option σ` on its variables: a state without a step is one
where the loop is left.  `Ends step s t` says that the loop entered in `s` is left in `t`, so
`∃ t, Ends step s t` is termination.

An executable loop counts its steps down from some fuel (`run`).  `run_ends` is the rule for it:
under an invariant that keeps a variant falling, the fuel is enough and the result is the one of
the loop. -/

namespace Loop

variable {σ : Type} {step : σ → Option σ}

/-- The loop entered in one state is left in the other. -/
inductive Ends (step : σ → Option σ) : σ → σ → Prop
  | stop {s : σ} (h : step s = none) : Ends step s s
  | next {s s' t : σ} (h : step s = some s') (ht : Ends step s' t) : Ends step s t

/-- At most so many rounds. -/
def run (step : σ → Option σ) : ℕ → σ → σ
  | 0, s => s
  | fuel + 1, s =>
      match step s with
      | none => s
      | some s' => run step fuel s'

/-- **Variant rule**: the invariant is kept and the variant falls, so the fuel is enough. -/
theorem run_ends {Inv : σ → Prop} {variant : σ → ℕ}
    (hstep : ∀ s s', Inv s → step s = some s' → Inv s' ∧ variant s' < variant s) :
    ∀ {fuel : ℕ} {s : σ}, Inv s → variant s < fuel → Ends step s (run step fuel s)
  | fuel + 1, s, hs, hf => by
      unfold run
      cases h : step s with
      | none => exact .stop h
      | some s' =>
          obtain ⟨hs', hlt⟩ := hstep s s' hs h
          exact .next h (run_ends hstep hs' (by omega))

end Loop
