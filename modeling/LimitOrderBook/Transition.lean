import Mathlib.Algebra.GroupWithZero.Nat
import Mathlib.Data.List.Basic
import Mathlib.Tactic.Common

/-! # Deterministic machines with outputs

A machine is a step function `step : σ → ι → σ × ο` from a state and an input to the next state
and an output.  `finalState` and `outputs` are a whole run; `Along P` says that `P` holds of the
state and the input at every step of a run.

`inv_finalState` is the invariant rule and `outputs_eq_of_sim` the simulation rule: two machines
whose related states give equal outputs and related next states produce equal outputs over
whole runs. -/

namespace Transition

variable {σ τ ι ο : Type} (step : σ → ι → σ × ο)

/-- The state after a run. -/
def finalState (s : σ) : List ι → σ
  | [] => s
  | i :: is => finalState (step s i).1 is

/-- The outputs of a run. -/
def outputs (s : σ) : List ι → List ο
  | [] => []
  | i :: is => (step s i).2 :: outputs (step s i).1 is

/-- `P` holds of every state and input the run goes through. -/
def Along (P : σ → ι → Prop) (s : σ) : List ι → Prop
  | [] => True
  | i :: is => P s i ∧ Along P (step s i).1 is

variable {step}

theorem finalState_append (s : σ) (is js : List ι) :
    finalState step s (is ++ js) = finalState step (finalState step s is) js := by
  induction is generalizing s with
  | nil => rfl
  | cons i is ih => exact ih _

theorem outputs_append (s : σ) (is js : List ι) :
    outputs step s (is ++ js) = outputs step s is ++ outputs step (finalState step s is) js := by
  induction is generalizing s with
  | nil => rfl
  | cons i is ih => exact congrArg _ (ih _)

theorem length_outputs (s : σ) (is : List ι) : (outputs step s is).length = is.length := by
  induction is generalizing s with
  | nil => rfl
  | cons i is ih => exact congrArg Nat.succ (ih _)

theorem along_append {P : σ → ι → Prop} (s : σ) (is js : List ι) :
    Along step P s (is ++ js) ↔ Along step P s is ∧ Along step P (finalState step s is) js := by
  induction is generalizing s with
  | nil => simp [Along, finalState]
  | cons i is ih =>
      simp only [List.cons_append, Along, finalState, ih]
      tauto

theorem along_of_forall {P : ι → Prop} (s : σ) {is : List ι} (h : ∀ i ∈ is, P i) :
    Along step (fun _ i => P i) s is := by
  induction is generalizing s with
  | nil => trivial
  | cons i is ih =>
      exact ⟨h i List.mem_cons_self, ih _ fun j hj => h j (List.mem_cons_of_mem i hj)⟩

/-- `P` holds along a run if it holds wherever the run has got to. -/
theorem along_of_split {P : σ → ι → Prop} {s : σ} {is : List ι}
    (h : ∀ pre i post, is = pre ++ i :: post → P (finalState step s pre) i) :
    Along step P s is := by
  induction is generalizing s with
  | nil => trivial
  | cons i is ih =>
      refine ⟨h [] i is rfl, ih fun pre j post he => h (i :: pre) j post ?_⟩
      rw [he]
      rfl

/-- **Invariant rule.** -/
theorem inv_finalState {Inv : σ → Prop} {P : σ → ι → Prop}
    (hstep : ∀ s i, Inv s → P s i → Inv (step s i).1) {s : σ} {is : List ι} (hs : Inv s)
    (hP : Along step P s is) : Inv (finalState step s is) := by
  induction is generalizing s with
  | nil => exact hs
  | cons i is ih => exact ih (hstep s i hs hP.1) hP.2

/-- **Invariant rule for outputs**: what one step keeps true of the outputs so far and of the state
is true of all outputs of a run. -/
theorem inv_outputs {Q : List ο → σ → Prop}
    (hstep : ∀ os s i, Q os s → Q (os ++ [(step s i).2]) (step s i).1) {s : σ} {os : List ο}
    (hs : Q os s) (is : List ι) : Q (os ++ outputs step s is) (finalState step s is) := by
  induction is generalizing s os with
  | nil =>
      rw [outputs, List.append_nil]
      exact hs
  | cons i is ih =>
      have h := ih (hstep os s i hs)
      rwa [List.append_assoc] at h

/-- **Potential rule**: where every step pays its cost out of the potential and the credit of its
input, so does a whole run. -/
theorem sum_cost_le {Inv : σ → Prop} {φ : σ → ℕ} {cost : ο → ℕ} {credit : ι → ℕ}
    (hstep : ∀ s i, Inv s → cost (step s i).2 + φ (step s i).1 ≤ φ s + credit i)
    (hinv : ∀ s i, Inv s → Inv (step s i).1) {s : σ} (hs : Inv s) (is : List ι) :
    ((outputs step s is).map cost).sum + φ (finalState step s is) ≤ φ s + (is.map credit).sum := by
  induction is generalizing s with
  | nil => simp [outputs, finalState]
  | cons i is ih =>
      have hrest := ih (hinv s i hs)
      have hpaid := hstep s i hs
      simp only [outputs, finalState, List.map_cons, List.sum_cons]
      omega

/-- **Simulation rule.** -/
theorem outputs_eq_of_sim {step' : τ → ι → τ × ο} {R : σ → τ → Prop} {P : σ → ι → Prop}
    (hsim : ∀ s t i, R s t → P s i →
      (step s i).2 = (step' t i).2 ∧ R (step s i).1 (step' t i).1)
    {s : σ} {t : τ} {is : List ι} (hR : R s t) (hP : Along step P s is) :
    outputs step s is = outputs step' t is ∧
      R (finalState step s is) (finalState step' t is) := by
  induction is generalizing s t with
  | nil => exact ⟨rfl, hR⟩
  | cons i is ih =>
      obtain ⟨ho, hR'⟩ := hsim s t i hR hP.1
      obtain ⟨hos, hRs⟩ := ih hR' hP.2
      refine ⟨?_, hRs⟩
      simp only [outputs, ho, hos]

/-- **Agreement rule**: where two machines take the same steps along a run of the one, it is a run
of the other. -/
theorem run_eq_of_along {step' : σ → ι → σ × ο} {s : σ} {is : List ι}
    (h : Along step (fun s i => step' s i = step s i) s is) :
    outputs step' s is = outputs step s is ∧ finalState step' s is = finalState step s is := by
  induction is generalizing s with
  | nil => exact ⟨rfl, rfl⟩
  | cons i is ih =>
      obtain ⟨hos, hfs⟩ := ih h.2
      simp only [outputs, finalState, h.1]
      exact ⟨congrArg _ hos, hfs⟩

/-- **Purge rule**: where the visible inputs act on purged states as they do on full ones, and the
others do not show in the purged state, a run without the others gives the visible outputs. -/
theorem run_purge (Inv : σ → Prop) (vis : ι → Bool) (m : σ → σ) {P : σ → ι → Prop}
    (hvis : ∀ s i, Inv s → P s i → vis i = true → step (m s) i = (m (step s i).1, (step s i).2))
    (hhid : ∀ s i, Inv s → P s i → vis i = false → m (step s i).1 = m s)
    (hinv : ∀ s i, Inv s → Inv (step s i).1) {s : σ} (hs : Inv s) {is : List ι}
    (hP : Along step P s is) :
    outputs step (m s) (is.filter vis) =
        ((is.zip (outputs step s is)).filter fun y => vis y.1).map Prod.snd ∧
      finalState step (m s) (is.filter vis) = m (finalState step s is) := by
  induction is generalizing s with
  | nil => exact ⟨rfl, rfl⟩
  | cons i is ih =>
      obtain ⟨hos, hfs⟩ := ih (hinv s i hs) hP.2
      cases hv : vis i with
      | true =>
          have hstep := hvis s i hs hP.1 hv
          simp only [List.filter_cons, hv, if_true, outputs, finalState, List.zip_cons_cons, hstep,
            List.map_cons]
          exact ⟨congrArg _ hos, hfs⟩
      | false =>
          have hsame := hhid s i hs hP.1 hv
          rw [hsame] at hos hfs
          simp only [List.filter_cons, hv, Bool.false_eq_true, if_false, outputs, finalState,
            List.zip_cons_cons]
          exact ⟨hos, hfs⟩

/-- **Homomorphism rule**: where one step commutes with a translation of states, inputs and
outputs, so do whole runs. -/
theorem run_map {ι' ο' : Type} {step' : τ → ι' → τ × ο'} {Inv : σ → Prop} {m : σ → τ} {f : ι → ι'}
    {g : ο → ο'} (hstep : ∀ s i, Inv s → step' (m s) (f i) = (m (step s i).1, g (step s i).2))
    (hinv : ∀ s i, Inv s → Inv (step s i).1) {s : σ} (hs : Inv s) (is : List ι) :
    outputs step' (m s) (is.map f) = (outputs step s is).map g ∧
      finalState step' (m s) (is.map f) = m (finalState step s is) := by
  induction is generalizing s with
  | nil => exact ⟨rfl, rfl⟩
  | cons i is ih =>
      obtain ⟨hos, hfs⟩ := ih (hinv s i hs)
      simp only [List.map_cons, outputs, finalState, hstep s i hs]
      exact ⟨congrArg _ hos, hfs⟩

/-- **Comparison rule**: where one step keeps two machines related, on inputs that are translations
of each other, so do whole runs. -/
theorem rel_finalState {ι' ο' : Type} {step' : τ → ι' → τ × ο'} {R : σ → τ → Prop} {f : ι → ι'}
    (hstep : ∀ s t i, R s t → R (step s i).1 (step' t (f i)).1) {s : σ} {t : τ} (hR : R s t)
    (is : List ι) : R (finalState step s is) (finalState step' t (is.map f)) := by
  induction is generalizing s t with
  | nil => exact hR
  | cons i is ih => exact ih (hstep s t i hR)

/-! ### Observations -/

section observed

variable {v : Type} (step) (view : σ → v)

/-- A machine that also shows a view of the state behind every output. -/
def observed (s : σ) (i : ι) : σ × (ο × v) :=
  ((step s i).1, ((step s i).2, view (step s i).1))

variable {step view}

theorem finalState_observed (s : σ) (is : List ι) :
    finalState (observed step view) s is = finalState step s is := by
  induction is generalizing s with
  | nil => rfl
  | cons i is ih => exact ih _

/-- **Simulation rule with views**: related states that look alike look alike along whole runs. -/
theorem observed_eq_of_sim {step' : τ → ι → τ × ο} {view' : τ → v} {R : σ → τ → Prop}
    {P : σ → ι → Prop}
    (hsim : ∀ s t i, R s t → P s i →
      (step s i).2 = (step' t i).2 ∧ R (step s i).1 (step' t i).1)
    (hview : ∀ s t, R s t → view s = view' t) {s : σ} {t : τ} {is : List ι} (hR : R s t)
    (hP : ∀ pre i post, is = pre ++ i :: post → P (finalState step s pre) i) :
    outputs (observed step view) s is = outputs (observed step' view') t is := by
  have hstep : ∀ s t i, R s t → P s i → (observed step view s i).2 = (observed step' view' t i).2 ∧
      R (observed step view s i).1 (observed step' view' t i).1 := by
    intro s t i h hi
    obtain ⟨ho, hR'⟩ := hsim s t i h hi
    exact ⟨Prod.ext ho (hview _ _ hR'), hR'⟩
  refine (outputs_eq_of_sim hstep hR (along_of_split fun pre i post he => ?_)).1
  rw [finalState_observed]
  exact hP pre i post he

end observed

/-! ### Histories -/

section ghost

variable {γ : Type} (step) (update : γ → σ → ι → ο → γ)

/-- A machine that also keeps a record of its run, which it never looks at. -/
def recorded (x : σ × γ) (i : ι) : (σ × γ) × ο :=
  (((step x.1 i).1, update x.2 x.1 i (step x.1 i).2), (step x.1 i).2)

/-- The record of a run. -/
def record (g : γ) (s : σ) (is : List ι) : γ := (finalState (recorded step update) (s, g) is).2

variable {step}

theorem recorded_fst (g : γ) (s : σ) (is : List ι) :
    (finalState (recorded step update) (s, g) is).1 = finalState step s is := by
  induction is generalizing s g with
  | nil => rfl
  | cons i is ih => exact ih _ _

variable {update}

theorem record_append (g : γ) (s : σ) (is js : List ι) :
    record step update g s (is ++ js) =
      record step update (record step update g s is) (finalState step s is) js := by
  rw [record, finalState_append, ← recorded_fst update g s is]
  rfl

/-- **Invariant rule for records**, of a machine simulated by another. -/
theorem inv_record {step' : τ → ι → τ × ο} {R : σ → τ → Prop} {Q : γ → τ → Prop}
    (hsim : ∀ s t i, R s t → R (step s i).1 (step' t i).1)
    (hstep : ∀ s t g i, R s t → Q g t → Q (update g s i (step s i).2) (step' t i).1)
    {s : σ} {t : τ} {g : γ} (is : List ι) (hR : R s t) (hQ : Q g t) :
    Q (record step update g s is) (finalState step' t is) := by
  induction is generalizing s t g with
  | nil => exact hQ
  | cons i is ih => exact ih (hsim s t i hR) (hstep s t g i hR hQ)

end ghost

end Transition
