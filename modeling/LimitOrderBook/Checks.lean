import Mathlib.Tactic.Common

/-! # Computations that check themselves

A computation in `Except` stops at the first check that fails (`ensure`).  `Passes x Q` says that
`x` ends without a failure and that its result satisfies `Q`; there is a rule for every way to
build such a computation, and for loops a rule with an invariant over what has been visited. -/

namespace Lob

/-- Go on if `p` holds. -/
def ensure {ε : Type} (p : Prop) [Decidable p] (e : ε) : Except ε Unit :=
  if p then .ok () else .error e

/-- No check of `x` fails, and its result satisfies `Q`. -/
def Passes {ε α : Type} (x : Except ε α) (Q : α → Prop) : Prop := ∃ a, x = .ok a ∧ Q a

namespace Passes

variable {ε α β : Type}

theorem ok {Q : α → Prop} {a : α} (h : Q a) : Passes (.ok a : Except ε α) Q := ⟨a, rfl, h⟩

theorem pure {Q : α → Prop} {a : α} (h : Q a) : Passes (Pure.pure a : Except ε α) Q := ⟨a, rfl, h⟩

theorem mono {P Q : α → Prop} {x : Except ε α} (hx : Passes x P) (h : ∀ a, P a → Q a) :
    Passes x Q := by
  obtain ⟨a, ha, hP⟩ := hx
  exact ⟨a, ha, h a hP⟩

theorem bind {P : α → Prop} {Q : β → Prop} {x : Except ε α} {f : α → Except ε β}
    (hx : Passes x P) (hf : ∀ a, P a → Passes (f a) Q) : Passes (x >>= f) Q := by
  obtain ⟨a, rfl, hP⟩ := hx
  exact hf a hP

/-- A check that holds is passed over. -/
theorem ensure {p : Prop} [Decidable p] {e : ε} {Q : α → Prop} {f : Unit → Except ε α} (h : p)
    (hf : Passes (f ()) Q) : Passes (Lob.ensure p e >>= f) Q := by
  rw [Lob.ensure, if_pos h]
  exact hf

theorem ensure_last {p : Prop} [Decidable p] {e : ε} (h : p) :
    Passes (Lob.ensure p e) fun _ => True := by
  rw [Lob.ensure, if_pos h]
  exact ok trivial

/-- A loop of checks. -/
theorem forM {f : α → Except ε PUnit} : ∀ l : List α, (∀ a ∈ l, Passes (f a) fun _ => True) →
    Passes (l.forM f) fun _ => True
  | [], _ => pure trivial
  | a :: l, h =>
      bind (h a List.mem_cons_self) fun _ _ => forM l fun b hb => h b (List.mem_cons_of_mem a hb)

/-- A loop keeps an invariant `I` of what it has visited and what it has computed. -/
theorem foldlM_from {f : β → α → Except ε β} {l : List α} {I : List α → β → Prop}
    (hstep : ∀ seen a rest b, l = seen ++ a :: rest → I seen b →
      Passes (f b a) fun b' => I (seen ++ [a]) b') :
    ∀ rest seen b, l = seen ++ rest → I seen b → Passes (rest.foldlM f b) fun b' => I l b'
  | [], seen, b, hl, h => by
      rw [List.append_nil] at hl
      rw [hl]
      exact pure h
  | a :: rest, seen, b, hl, h => by
      rw [List.foldlM_cons]
      refine bind (hstep seen a rest b hl h) fun b' h' => ?_
      refine foldlM_from hstep rest (seen ++ [a]) b' ?_ h'
      rw [hl, List.append_assoc]
      rfl

theorem foldlM {f : β → α → Except ε β} {l : List α} {I : List α → β → Prop} {b : β}
    (hinit : I [] b) (hstep : ∀ seen a rest b, l = seen ++ a :: rest → I seen b →
      Passes (f b a) fun b' => I (seen ++ [a]) b') :
    Passes (l.foldlM f b) fun b' => I l b' :=
  foldlM_from hstep l [] b rfl hinit

end Passes

end Lob
