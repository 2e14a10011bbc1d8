import Mathlib.Data.List.Chain
import Mathlib.Data.List.Infix
import Mathlib.Tactic.Common

/-! # Holes in a numbered sequence

`breaks r l` counts the neighbours in `l` that are not related by `r`, as a receiver does that
compares each item with the one before it.

Of a sequence that is numbered without holes, `f` being the number of an item, a receiver gets a
sublist.  Between neighbours that are not successors something is missing: the sublist is one piece
of the sequence exactly if there is no such pair (`infix_iff_isChain`), and each pair stands for one
hole (`breaks_eq_countP`). -/

namespace Numbering

variable {α : Type}

section breaks

variable (r : α → α → Prop) [DecidableRel r]

/-- How many neighbours are not related. -/
def breaks : List α → ℕ
  | [] => 0
  | [_] => 0
  | a :: b :: l => (if r a b then 0 else 1) + breaks (b :: l)

/-- Does a new item follow on the last one? -/
def follows (l : List α) (b : α) : Prop := ∀ a ∈ l.getLast?, r a b

instance (l : List α) (b : α) : Decidable (follows r l b) :=
  inferInstanceAs (Decidable (∀ a ∈ l.getLast?, r a b))

variable {r}

/-- The count of a receiver, item by item. -/
theorem breaks_concat : ∀ (l : List α) (b : α),
    breaks r (l ++ [b]) = breaks r l + if follows r l b then 0 else 1
  | [], b => by simp [breaks, follows]
  | [a], b => by simp [breaks, follows]
  | a :: c :: l, b => by
      have ih := breaks_concat (c :: l) b
      have hfollows : follows r (a :: c :: l) b ↔ follows r (c :: l) b := by
        unfold follows
        rw [List.getLast?_cons_cons]
      simp only [List.cons_append, breaks, hfollows] at ih ⊢
      rw [ih, Nat.add_assoc]

theorem breaks_eq_zero_iff : ∀ l : List α, breaks r l = 0 ↔ l.IsChain r
  | [] => by simp [breaks]
  | [_] => by simp [breaks]
  | a :: b :: l => by
      rw [breaks, List.isChain_cons_cons, ← breaks_eq_zero_iff (b :: l)]
      split_ifs with h <;> simp [h]

theorem breaks_congr {s : α → α → Prop} [DecidableRel s] : ∀ {l : List α},
    (∀ a ∈ l, ∀ b ∈ l, r a b ↔ s a b) → breaks r l = breaks s l
  | [], _ => rfl
  | [_], _ => rfl
  | a :: b :: l, h => by
      have hab := h a List.mem_cons_self b (List.mem_cons_of_mem a List.mem_cons_self)
      have ih : breaks r (b :: l) = breaks s (b :: l) :=
        breaks_congr fun x hx y hy => h x (List.mem_cons_of_mem a hx) y (List.mem_cons_of_mem a hy)
      simp only [breaks, hab, ih]

theorem breaks_map {β : Type} (g : β → α) : ∀ l : List β,
    breaks r (l.map g) = breaks (fun a b => r (g a) (g b)) l
  | [] => rfl
  | [_] => rfl
  | _ :: b :: l => congrArg _ (breaks_map g (b :: l))

end breaks

section numbered

variable {f : α → ℕ} {L l : List α}

/-- A sublist of a numbered sequence is in order. -/
theorem pairwise_of_sublist {n k : ℕ} (hL : L.map f = List.range' k n) (hl : l.Sublist L) :
    l.Pairwise fun a b => f a < f b := by
  have hsorted : (l.map f).Pairwise (· < ·) :=
    (List.pairwise_lt_range' (s := k) (n := n)).sublist (hL ▸ hl.map f)
  exact List.pairwise_map.mp hsorted

/-- A piece of a numbered sequence has no hole. -/
theorem isChain_of_isInfix {n k : ℕ} (hL : L.map f = List.range' k n) (hl : l <:+: L) :
    l.IsChain fun a b => f b = f a + 1 := by
  have hchain : (L.map f).IsChain fun a b => b = a + 1 := hL ▸ List.isChain_range' k n 1
  exact List.IsChain.infix ((List.isChain_map f).mp hchain) hl

/-- **What is heard is one piece of the sequence if and only if each item follows on the last.** -/
theorem infix_iff_isChain {n k : ℕ} (hL : L.map f = List.range' k n) (hl : l.Sublist L) :
    l <:+: L ↔ l.IsChain fun a b => f b = f a + 1 := by
  refine ⟨isChain_of_isInfix hL, fun hchain => ?_⟩
  induction hl generalizing k n with
  | slnil => exact List.infix_rfl
  | @cons l L x hl ih =>
      obtain ⟨n, rfl⟩ : ∃ m, n = m + 1 := by
        cases n with
        | zero => cases hL
        | succ m => exact ⟨m, rfl⟩
      rw [List.map_cons, List.range'_succ] at hL
      exact (ih (List.cons.inj hL).2 hchain).trans (List.suffix_cons x L).isInfix
  | @cons_cons l L x hl ih =>
      obtain ⟨n, rfl⟩ : ∃ m, n = m + 1 := by
        cases n with
        | zero => cases hL
        | succ m => exact ⟨m, rfl⟩
      rw [List.map_cons, List.range'_succ] at hL
      obtain ⟨hx, hL⟩ := List.cons.inj hL
      obtain ⟨s, t, rfl⟩ := ih hL hchain.tail
      cases l with
      | nil => exact ⟨[], s ++ [] ++ t, by simp⟩
      | cons y l =>
          -- the number of `y` is the next one, so nothing stands before it
          have hy : f y = f x + 1 := (List.isChain_cons_cons.mp hchain).1
          have hs : s = [] := by
            cases s with
            | nil => rfl
            | cons z s =>
                cases n with
                | zero => cases hL
                | succ n =>
                    rw [List.cons_append, List.cons_append, List.map_cons, List.range'_succ] at hL
                    obtain ⟨hz, hL⟩ := List.cons.inj hL
                    have hmem : f y ∈ List.range' (k + 1 + 1) n := by
                      rw [← hL]
                      apply List.mem_map_of_mem
                      simp
                    have := (List.mem_range'_1.mp hmem).1
                    omega
          subst hs
          exact ⟨[], t, by simp⟩

/-- **Each break is a hole**: an item, not the first, whose predecessor is not there. -/
theorem breaks_eq_countP : ∀ {l : List α}, l.Pairwise (fun a b => f a < f b) →
    breaks (fun a b => f b = f a + 1) l =
      l.tail.countP fun b => decide (∀ a ∈ l, f b ≠ f a + 1)
  | [], _ => rfl
  | [_], _ => rfl
  | x :: y :: l, h => by
      obtain ⟨hx, hyl⟩ := List.pairwise_cons.mp h
      obtain ⟨hy, hl⟩ := List.pairwise_cons.mp hyl
      have hxy := hx y List.mem_cons_self
      have ih := breaks_eq_countP hyl
      have hrest : ∀ b ∈ l, (∀ a ∈ x :: y :: l, f b ≠ f a + 1) ↔ ∀ a ∈ y :: l, f b ≠ f a + 1 := by
        intro b hb
        have hyb := hy b hb
        rw [List.forall_mem_cons]
        exact and_iff_right (by omega)
      have hfirst : (∀ a ∈ x :: y :: l, f y ≠ f a + 1) ↔ ¬ f y = f x + 1 := by
        constructor
        · intro hno
          exact hno x List.mem_cons_self
        · intro hno a ha
          rcases List.mem_cons.mp ha with rfl | ha
          · exact hno
          · rcases List.mem_cons.mp ha with rfl | ha
            · omega
            · have := hy a ha
              omega
      have hcount : (l.countP fun b => decide (∀ a ∈ x :: y :: l, f b ≠ f a + 1)) =
          l.countP fun b => decide (∀ a ∈ y :: l, f b ≠ f a + 1) := by
        apply List.countP_congr
        intro b hb
        rw [decide_eq_true_eq, decide_eq_true_eq]
        exact hrest b hb
      rw [List.tail_cons] at ih
      rw [breaks, ih, List.tail_cons, List.countP_cons, hcount, Nat.add_comm]
      congr 1
      by_cases hstep : f y = f x + 1
      · rw [if_pos hstep, if_neg (by rw [decide_eq_true_eq, hfirst]; exact not_not_intro hstep)]
      · rw [if_neg hstep, if_pos (by rw [decide_eq_true_eq, hfirst]; exact hstep)]

end numbered

end Numbering
