import Mathlib.Data.List.Basic
import Mathlib.Data.List.Induction
import Mathlib.Data.List.Nodup
import Mathlib.Tactic.Common

/-! # Intrusive doubly linked lists

Nodes of a type `α` carry a `prv` and a `nxt` link, given here as functions into `Option α`
(`none` is the null pointer).  `Linked prv nxt p l n` says that the nodes of `l` are linked in
order, the first one backwards to `p` and the last one forwards to `n`; a whole list is
`Linked prv nxt none l none`, its head is `l.head?` and its tail `l.getLast?`.

`Linked.unlink` and `Linked.push` describe the two pointer surgeries on whole lists, in terms
of the links after the surgery; `Linked.follow_eq` says that chasing `nxt` from the head
enumerates the list. -/

namespace Chain

variable {α : Type}

/-- The nodes of `l` are linked in order between `p` and `n`. -/
def Linked (prv nxt : α → Option α) : Option α → List α → Option α → Prop
  | _, [], _ => True
  | p, a :: l, n => prv a = p ∧ nxt a = l.head?.or n ∧ Linked prv nxt (some a) l n

variable {prv nxt prv' nxt' : α → Option α}

@[simp] theorem linked_nil (p n : Option α) : Linked prv nxt p [] n := trivial

theorem Linked.congr {l : List α} (h : ∀ a ∈ l, prv' a = prv a ∧ nxt' a = nxt a) :
    ∀ {p n : Option α}, Linked prv nxt p l n → Linked prv' nxt' p l n := by
  induction l with
  | nil => intros; trivial
  | cons a l ih =>
      intro p n hl
      obtain ⟨h1, h2, h3⟩ := hl
      obtain ⟨ha1, ha2⟩ := h a List.mem_cons_self
      exact ⟨ha1.trans h1, ha2.trans h2, ih (fun b hb => h b (List.mem_cons_of_mem a hb)) h3⟩

theorem linked_append {l₁ l₂ : List α} : ∀ {p n : Option α},
    Linked prv nxt p (l₁ ++ l₂) n ↔
      Linked prv nxt p l₁ (l₂.head?.or n) ∧ Linked prv nxt (l₁.getLast?.or p) l₂ n := by
  induction l₁ with
  | nil => intro p n; simp
  | cons a l ih =>
      intro p n
      have hhead : (l ++ l₂).head?.or n = l.head?.or (l₂.head?.or n) := by
        cases l <;> simp
      have hlast : (a :: l).getLast?.or p = l.getLast?.or (some a) := by
        cases l with
        | nil => simp
        | cons b l => simp [List.getLast?_cons]
      rw [List.cons_append, Linked, Linked, ih, hhead, hlast]
      tauto

/-- The links of a node in the middle of a list are its neighbours. -/
theorem Linked.middle {l₁ l₂ : List α} {a : α} {p n : Option α}
    (h : Linked prv nxt p (l₁ ++ a :: l₂) n) :
    prv a = l₁.getLast?.or p ∧ nxt a = l₂.head?.or n := by
  obtain ⟨_, h1, h2, _⟩ := linked_append.mp h
  exact ⟨h1, h2⟩

/-- No node is met twice on a walk from a node without a predecessor: each one met is linked back
to the one just before it. -/
theorem Linked.nodup {l : List α} : ∀ {n : Option α}, Linked prv nxt none l n → l.Nodup := by
  induction l using List.reverseRecOn with
  | nil => exact fun _ => List.nodup_nil
  | append_singleton l a ih =>
      intro n h
      have hl := (linked_append.mp h).1
      have hprv : prv a = l.getLast? := by simpa using h.middle.1
      have hnd : l.Nodup := ih hl
      rw [List.nodup_append]
      refine ⟨hnd, List.nodup_singleton a, ?_⟩
      rintro b hb _ hb' rfl
      rw [List.mem_singleton.mp hb'] at hb
      -- `a` was met before, behind the last node of `l₁`
      obtain ⟨l₁, l₂, rfl⟩ := List.append_of_mem hb
      have hprv' : prv a = l₁.getLast? := by simpa using hl.middle.1
      have hlast : (l₁ ++ a :: l₂).getLast? = (a :: l₂).getLast? := by
        rw [List.getLast?_append]
        simp [List.getLast?_cons]
      rw [hprv', hlast] at hprv
      obtain ⟨c, hc⟩ : ∃ c, (a :: l₂).getLast? = some c := ⟨_, List.getLast?_cons⟩
      rw [hc] at hprv
      exact (List.nodup_append.mp hnd).2.2 c (List.mem_of_getLast? hprv) c
        (List.mem_of_getLast? hc) rfl

/-- Only the forward link of the last node mentions what follows the list. -/
theorem Linked.redirect_next [DecidableEq α] : ∀ {l : List α} {p n n' : Option α}, l.Nodup →
    Linked prv nxt p l n →
    (∀ a ∈ l, prv' a = prv a ∧ nxt' a = if l.getLast? = some a then n' else nxt a) →
    Linked prv' nxt' p l n'
  | [], _, _, _, _, _, _ => trivial
  | a :: l, p, n, n', hnd, ⟨h1, h2, h3⟩, h => by
      obtain ⟨ha, hnd'⟩ := List.nodup_cons.mp hnd
      obtain ⟨hp, hn⟩ := h a List.mem_cons_self
      refine ⟨hp.trans h1, ?_, ?_⟩
      · cases l with
        | nil => simpa using hn
        | cons b l =>
            have hne : ¬ (a :: b :: l).getLast? = some a := by
              intro he
              rw [List.getLast?_cons_cons] at he
              exact ha (List.mem_of_getLast? he)
            rw [hn, if_neg hne, h2]
            rfl
      · refine Linked.redirect_next hnd' h3 ?_
        intro b hb
        obtain ⟨hbp, hbn⟩ := h b (List.mem_cons_of_mem a hb)
        refine ⟨hbp, ?_⟩
        cases l with
        | nil => cases hb
        | cons c l => rwa [List.getLast?_cons_cons] at hbn

/-- Only the backward link of the first node mentions what precedes the list. -/
theorem Linked.redirect_prev [DecidableEq α] : ∀ {l : List α} {p p' n : Option α}, l.Nodup →
    Linked prv nxt p l n →
    (∀ a ∈ l, nxt' a = nxt a ∧ prv' a = if l.head? = some a then p' else prv a) →
    Linked prv' nxt' p' l n
  | [], _, _, _, _, _, _ => trivial
  | a :: l, p, p', n, hnd, ⟨h1, h2, h3⟩, h => by
      obtain ⟨ha, hnd'⟩ := List.nodup_cons.mp hnd
      obtain ⟨hn, hp⟩ := h a List.mem_cons_self
      refine ⟨by simpa using hp, hn.trans h2, ?_⟩
      refine h3.congr ?_
      intro b hb
      obtain ⟨hbn, hbp⟩ := h b (List.mem_cons_of_mem a hb)
      have hne : ¬ (a :: l).head? = some b := by
        simp only [List.head?_cons, Option.some.injEq]
        rintro rfl
        exact ha hb
      rw [if_neg hne] at hbp
      exact ⟨hbp, hbn⟩

/-- **Unlinking** a node: its neighbours are linked to each other. -/
theorem Linked.unlink [DecidableEq α] {l₁ l₂ : List α} {a : α} (hnd : (l₁ ++ a :: l₂).Nodup)
    (h : Linked prv nxt none (l₁ ++ a :: l₂) none)
    (hn : ∀ b ∈ l₁ ++ l₂, nxt' b = if prv a = some b then nxt a else nxt b)
    (hp : ∀ b ∈ l₁ ++ l₂, prv' b = if nxt a = some b then prv a else prv b) :
    Linked prv' nxt' none (l₁ ++ l₂) none := by
  obtain ⟨h₁, -, -, h₂⟩ := linked_append.mp h
  obtain ⟨hpa, hna⟩ := h.middle
  simp only [Option.or_none] at hpa hna
  rw [hpa, hna] at hn hp
  obtain ⟨hnd₁, hnd₂, hdisj⟩ := List.nodup_append.mp hnd
  have hnd₂' := (List.nodup_cons.mp hnd₂).2
  -- A neighbour on one side of `a` is not on the other side.
  have hhead : ∀ b ∈ l₁, ¬ l₂.head? = some b := fun b hb he =>
    hdisj b hb b (List.mem_cons_of_mem a (List.mem_of_head? he)) rfl
  have hlast : ∀ b ∈ l₂, ¬ l₁.getLast? = some b := fun b hb he =>
    hdisj b (List.mem_of_getLast? he) b (List.mem_cons_of_mem a hb) rfl
  refine linked_append.mpr ⟨?_, ?_⟩
  · refine h₁.redirect_next hnd₁ ?_
    intro b hb
    have hb' : b ∈ l₁ ++ l₂ := List.mem_append_left _ hb
    refine ⟨?_, ?_⟩
    · rw [hp b hb', if_neg (hhead b hb)]
    · rw [hn b hb']; simp
  · refine h₂.redirect_prev hnd₂' ?_
    intro b hb
    have hb' : b ∈ l₁ ++ l₂ := List.mem_append_right _ hb
    refine ⟨?_, ?_⟩
    · rw [hn b hb', if_neg (hlast b hb)]
    · rw [hp b hb']; simp

/-- **Pushing** a node behind the tail. -/
theorem Linked.push [DecidableEq α] {l : List α} {a : α} (hnd : l.Nodup)
    (h : Linked prv nxt none l none) (hpa : prv' a = l.getLast?) (hna : nxt' a = none)
    (hb : ∀ b ∈ l, prv' b = prv b ∧ nxt' b = if l.getLast? = some b then some a else nxt b) :
    Linked prv' nxt' none (l ++ [a]) none := by
  refine linked_append.mpr ⟨?_, ?_⟩
  · exact h.redirect_next hnd (by simpa using hb)
  · exact ⟨by simpa using hpa, by simpa using hna, trivial⟩

/-- Chase the `nxt` links from a node, at most `fuel` of them. -/
def follow (nxt : α → Option α) : ℕ → Option α → List α
  | 0, _ => []
  | _ + 1, none => []
  | n + 1, some a => a :: follow nxt n (nxt a)

theorem Linked.follow_eq : ∀ {l : List α} {p : Option α} {fuel : ℕ},
    Linked prv nxt p l none → l.length ≤ fuel → follow nxt fuel l.head? = l
  | [], _, 0, _, _ => rfl
  | [], _, _ + 1, _, _ => rfl
  | a :: l, _, 0, _, hle => by simp at hle
  | a :: l, _, n + 1, ⟨_, h2, h3⟩, hle => by
      have hle' : l.length ≤ n := by simpa using hle
      rw [Option.or_none] at h2
      rw [List.head?_cons, follow, h2, h3.follow_eq hle']

end Chain
