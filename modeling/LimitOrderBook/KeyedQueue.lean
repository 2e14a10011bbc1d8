import Mathlib.Data.List.Basic
import Mathlib.Data.List.Pairwise
import Mathlib.Data.List.TakeWhile
import Mathlib.Order.Defs.Unbundled
import Mathlib.Tactic.Common

/-! # Queues ordered by a key

A list is `Ordered` by a key when no element stands before one of a strictly smaller key;
elements of one key keep the order in which they joined.  `level key k l` is the sub-queue of
key `k`, and `enqueue` places an element behind every element whose key is not larger.

The two facts everything else rests on: an ordered list splits into the level of its head and
the rest (`eq_level_append`), and an ordered list is determined by its levels
(`Ordered.ext_level`). -/

namespace KeyedQueue

variable {α κ : Type} (lt : κ → κ → Prop) (key : α → κ)

/-- No element stands before one with a strictly smaller key. -/
def Ordered (l : List α) : Prop := l.Pairwise (fun a b => ¬ lt (key b) (key a))

section levels

variable [DecidableEq κ]

/-- The elements of key `k`, in order. -/
def level (k : κ) (l : List α) : List α := l.filter (fun a => decide (key a = k))

variable {lt key}

@[simp] theorem level_nil (k : κ) : level key k ([] : List α) = [] := rfl

theorem mem_level {k : κ} {l : List α} {a : α} : a ∈ level key k l ↔ a ∈ l ∧ key a = k := by
  simp [level]

@[simp] theorem level_append (k : κ) (l₁ l₂ : List α) :
    level key k (l₁ ++ l₂) = level key k l₁ ++ level key k l₂ := by
  simp [level]

theorem level_cons (k : κ) (a : α) (l : List α) :
    level key k (a :: l) = if key a = k then a :: level key k l else level key k l := by
  by_cases h : key a = k <;> simp [level, h]

theorem level_cons_self (a : α) (l : List α) :
    level key (key a) (a :: l) = a :: level key (key a) l := by
  simp [level_cons]

/-- A list of one key is its own level. -/
theorem level_eq_self {k : κ} {l : List α} (h : ∀ a ∈ l, key a = k) : level key k l = l := by
  simpa [level, List.filter_eq_self] using h

theorem level_eq_nil {k : κ} {l : List α} : level key k l = [] ↔ ∀ a ∈ l, key a ≠ k := by
  simp [level, List.filter_eq_nil_iff]

/-- Levels commute with any other filter. -/
theorem level_filter (k : κ) (p : α → Bool) (l : List α) :
    level key k (l.filter p) = (level key k l).filter p := by
  simp only [level, List.filter_filter]
  congr 1
  funext a
  exact Bool.and_comm _ _

/-- Levels commute with a map that keeps the key. -/
theorem level_map {f : α → α} (hf : ∀ a, key (f a) = key a) (k : κ) (l : List α) :
    level key k (l.map f) = (level key k l).map f := by
  simp only [level, List.filter_map]
  congr 2
  funext a
  simp [hf]

theorem level_filterMap {f : α → Option α} (hf : ∀ a b, f a = some b → key b = key a) (k : κ)
    (l : List α) : level key k (l.filterMap f) = (level key k l).filterMap f := by
  induction l with
  | nil => rfl
  | cons a l ih =>
      rw [level_cons]
      cases hfa : f a with
      | none =>
          rw [List.filterMap_cons_none hfa, ih]
          split_ifs
          · rw [List.filterMap_cons_none hfa]
          · rfl
      | some b =>
          rw [List.filterMap_cons_some hfa, level_cons, hf a b hfa, ih]
          split_ifs
          · rw [List.filterMap_cons_some hfa]
          · rfl

theorem level_nodup {k : κ} {l : List α} (h : l.Nodup) : (level key k l).Nodup := h.filter _

end levels

section order

variable {lt key}

@[simp] theorem Ordered.nil : Ordered lt key ([] : List α) := List.Pairwise.nil

theorem Ordered.tail {a : α} {l : List α} (h : Ordered lt key (a :: l)) : Ordered lt key l :=
  (List.pairwise_cons.mp h).2

theorem Ordered.head_le {a b : α} {l : List α} (h : Ordered lt key (a :: l)) (hb : b ∈ l) :
    ¬ lt (key b) (key a) := (List.pairwise_cons.mp h).1 b hb

theorem Ordered.sublist {l l' : List α} (h : Ordered lt key l) (hs : l'.Sublist l) :
    Ordered lt key l' := List.Pairwise.sublist hs h

theorem Ordered.filter {l : List α} (p : α → Bool) (h : Ordered lt key l) :
    Ordered lt key (l.filter p) := h.sublist List.filter_sublist

variable [DecidableEq κ] [IsStrictTotalOrder κ lt]

/-- The level of the head comes first. -/
theorem Ordered.eq_level_append {k : κ} : ∀ {l : List α}, Ordered lt key l →
    (∀ a ∈ l, ¬ lt (key a) k) →
    l = level key k l ++ l.filter (fun a => !decide (key a = k))
  | [], _, _ => rfl
  | a :: l, h, hk => by
      by_cases ha : key a = k
      · have ih := Ordered.eq_level_append h.tail (fun b hb => hk b (List.mem_cons_of_mem a hb))
        simp only [level, List.filter_cons, ha, decide_true, if_true, Bool.not_true,
          Bool.false_eq_true, if_false, List.cons_append] at ih ⊢
        rw [← ih]
      · -- The head is past level `k`, hence so is everything behind it.
        have hall : ∀ b ∈ a :: l, key b ≠ k := by
          intro b hb he
          rcases List.mem_cons.mp hb with rfl | hb
          · exact ha he
          · have h1 : ¬ lt k (key a) := he ▸ h.head_le hb
            have h2 : ¬ lt (key a) k := hk a List.mem_cons_self
            exact ha (Std.Trichotomous.trichotomous (r := lt) _ _ h2 h1)
        rw [level_eq_nil.mpr hall, List.nil_append]
        symm
        rw [List.filter_eq_self]
        intro b hb
        simp [hall b hb]

theorem Ordered.level_head_append {a : α} {l : List α} (h : Ordered lt key (a :: l)) :
    a :: l = level key (key a) (a :: l) ++
      (a :: l).filter (fun b => !decide (key b = key a)) := by
  refine h.eq_level_append ?_
  intro b hb
  rcases List.mem_cons.mp hb with rfl | hb
  · exact irrefl _
  · exact h.head_le hb

/-- A list splits into the level of its first key and the rest. -/
theorem Ordered.split_head {a : α} {l : List α} (h : Ordered lt key (a :: l)) :
    ∃ q rest, a :: l = q ++ rest ∧ q ≠ [] ∧ (∀ b ∈ q, key b = key a) ∧
      ∀ b ∈ rest, key b ≠ key a := by
  refine ⟨level key (key a) (a :: l), _, h.level_head_append, ?_, ?_, ?_⟩
  · rw [level_cons_self]
    exact List.cons_ne_nil _ _
  · exact fun b hb => (mem_level.mp hb).2
  · intro b hb
    simpa using (List.mem_filter.mp hb).2

/-- **An ordered queue is determined by its levels.** -/
theorem Ordered.ext_level : ∀ {l l' : List α}, Ordered lt key l → Ordered lt key l' →
    (∀ k, level key k l = level key k l') → l = l'
  | [], [], _, _, _ => rfl
  | [], b :: l', _, _, h => by
      have := h (key b)
      rw [level_cons_self] at this
      cases this
  | a :: l, [], _, _, h => by
      have := h (key a)
      rw [level_cons_self] at this
      cases this
  | a :: l, b :: l', hl, hl', h => by
      have hk : key a = key b := by
        have ha : a ∈ b :: l' := by
          have : a ∈ level key (key a) (b :: l') := by rw [← h, level_cons_self]; simp
          exact (mem_level.mp this).1
        have hb : b ∈ a :: l := by
          have : b ∈ level key (key b) (a :: l) := by rw [h, level_cons_self]; simp
          exact (mem_level.mp this).1
        have h1 : ¬ lt (key a) (key b) := by
          rcases List.mem_cons.mp ha with rfl | ha
          · exact irrefl _
          · exact hl'.head_le ha
        have h2 : ¬ lt (key b) (key a) := by
          rcases List.mem_cons.mp hb with rfl | hb
          · exact irrefl _
          · exact hl.head_le hb
        exact Std.Trichotomous.trichotomous (r := lt) _ _ h1 h2
      have hab : a = b := by
        have := h (key a)
        rw [level_cons_self, hk, level_cons_self] at this
        exact (List.cons.inj this).1
      subst hab
      have ht : l = l' := by
        refine Ordered.ext_level hl.tail hl'.tail (fun k => ?_)
        have := h k
        rw [level_cons, level_cons] at this
        split_ifs at this with hc
        · exact (List.cons.inj this).2
        · exact this
      rw [ht]

omit [DecidableEq κ] in
/-- Concatenating the levels of a list along strictly increasing keys is ordered. -/
theorem ordered_flatMap {ks : List κ} (hks : ks.Pairwise lt) (f : κ → List α)
    (hf : ∀ k ∈ ks, ∀ a ∈ f k, key a = k) : Ordered lt key (ks.flatMap f) := by
  induction ks with
  | nil => exact Ordered.nil
  | cons k ks ih =>
      obtain ⟨hk, hks⟩ := List.pairwise_cons.mp hks
      have hfk := hf k List.mem_cons_self
      have hf' : ∀ k' ∈ ks, ∀ a ∈ f k', key a = k' :=
        fun k' hk' => hf k' (List.mem_cons_of_mem k hk')
      rw [List.flatMap_cons]
      refine List.pairwise_append.mpr ⟨?_, ih hks hf', ?_⟩
      · refine List.pairwise_of_forall_mem_list ?_
        intro a ha b hb
        rw [hfk a ha, hfk b hb]
        exact irrefl _
      · intro a ha b hb hlt
        obtain ⟨k', hk', hb⟩ := List.mem_flatMap.mp hb
        rw [hfk a ha, hf' k' hk' b hb] at hlt
        exact irrefl _ (IsTrans.trans _ _ _ (hk k' hk') hlt)

theorem level_flatMap {ks : List κ} (hks : ks.Pairwise lt) (f : κ → List α)
    (hf : ∀ k ∈ ks, ∀ a ∈ f k, key a = k) (k : κ) :
    level key k (ks.flatMap f) = if k ∈ ks then f k else [] := by
  induction ks with
  | nil => rfl
  | cons k' ks ih =>
      obtain ⟨hk, hks⟩ := List.pairwise_cons.mp hks
      have hfk := hf k' List.mem_cons_self
      rw [List.flatMap_cons, level_append, ih hks fun k'' hk'' => hf k'' (List.mem_cons_of_mem k' hk'')]
      by_cases h : k = k'
      · subst h
        have hnot : k ∉ ks := fun hm => irrefl (r := lt) _ (hk k hm)
        rw [level_eq_self hfk, if_neg hnot, if_pos List.mem_cons_self, List.append_nil]
      · have : level key k (f k') = [] :=
          level_eq_nil.mpr fun a ha he => h (he.symm.trans (hfk a ha))
        rw [this, List.nil_append]
        simp [h]

/-- An ordered list is the concatenation of its levels along any strictly increasing list of
keys that contains all of its keys. -/
theorem Ordered.flatMap_level {ks : List κ} (hks : ks.Pairwise lt) {l : List α}
    (hl : Ordered lt key l) (hmem : ∀ a ∈ l, key a ∈ ks) :
    ks.flatMap (fun k => level key k l) = l := by
  have hf : ∀ k ∈ ks, ∀ a ∈ level key k l, key a = k := fun k _ a ha => (mem_level.mp ha).2
  refine Ordered.ext_level (ordered_flatMap hks _ hf) hl (fun k => ?_)
  rw [level_flatMap hks _ hf]
  by_cases h : k ∈ ks
  · rw [if_pos h]
  · rw [if_neg h]
    symm
    exact level_eq_nil.mpr fun a ha he => h (he ▸ hmem a ha)

end order

section enqueue

variable [DecidableRel lt]

/-- Place `a` behind every element whose key is not strictly larger. -/
def enqueue (a : α) (l : List α) : List α :=
  l.takeWhile (fun b => !decide (lt (key a) (key b))) ++
    a :: l.dropWhile (fun b => !decide (lt (key a) (key b)))

variable {lt key}

theorem enqueue_of_lt {a : α} {l : List α} (h : ∀ b ∈ l, lt (key a) (key b)) :
    enqueue lt key a l = a :: l := by
  cases l with
  | nil => rfl
  | cons b l => simp [enqueue, h b List.mem_cons_self]

/-- `enqueue` commutes with a map that keeps the order of the keys. -/
theorem enqueue_map {β μ : Type} {lt' : μ → μ → Prop} [DecidableRel lt'] {key' : β → μ} {f : α → β}
    (hf : ∀ a b, lt' (key' (f a)) (key' (f b)) ↔ lt (key a) (key b)) (a : α) (l : List α) :
    enqueue lt' key' (f a) (l.map f) = (enqueue lt key a l).map f := by
  have hp : (fun b => !decide (lt' (key' (f a)) (key' b))) ∘ f =
      fun b => !decide (lt (key a) (key b)) := by
    funext b
    simp only [Function.comp_apply, hf]
  simp only [enqueue, List.takeWhile_map, List.dropWhile_map, hp, List.map_append, List.map_cons]

theorem enqueue_append {a : α} {l₁ : List α} (h : ∀ b ∈ l₁, ¬ lt (key a) (key b)) (l₂ : List α) :
    enqueue lt key a (l₁ ++ l₂) = l₁ ++ enqueue lt key a l₂ := by
  have h' : ∀ b ∈ l₁, (!decide (lt (key a) (key b))) = true := by simpa using h
  rw [enqueue, List.takeWhile_append_of_pos h', List.dropWhile_append_of_pos h', List.append_assoc]
  rfl

theorem mem_enqueue {a b : α} {l : List α} : b ∈ enqueue lt key a l ↔ b = a ∨ b ∈ l := by
  conv_rhs => rw [← List.takeWhile_append_dropWhile (p := fun b => !decide (lt (key a) (key b))) (l := l)]
  simp only [enqueue, List.mem_append, List.mem_cons]
  tauto

theorem enqueue_perm (a : α) (l : List α) : (enqueue lt key a l).Perm (a :: l) := by
  have h : l = l.takeWhile (fun b => !decide (lt (key a) (key b))) ++
      l.dropWhile (fun b => !decide (lt (key a) (key b))) :=
    (List.takeWhile_append_dropWhile).symm
  conv_rhs => rw [h]
  exact List.perm_middle

variable [IsStrictTotalOrder κ lt]

/-- Behind the first element of a larger key, every key is larger. -/
theorem Ordered.lt_of_mem_dropWhile {k : κ} : ∀ {l : List α}, Ordered lt key l →
    ∀ b ∈ l.dropWhile (fun b => !decide (lt k (key b))), lt k (key b)
  | [], _, b, hb => by cases hb
  | c :: l, h, b, hb => by
      rw [List.dropWhile_cons] at hb
      split_ifs at hb with hc
      · exact Ordered.lt_of_mem_dropWhile h.tail b hb
      · have hkc : lt k (key c) := by simpa using hc
        rcases List.mem_cons.mp hb with rfl | hb
        · exact hkc
        · rcases trichotomous_of lt (key b) (key c) with h1 | h1 | h1
          · exact absurd h1 (h.head_le hb)
          · exact h1 ▸ hkc
          · exact IsTrans.trans _ _ _ hkc h1

omit [IsStrictTotalOrder κ lt] in
theorem not_lt_of_mem_takeWhile {k : κ} {l : List α} {b : α}
    (hb : b ∈ l.takeWhile (fun b => !decide (lt k (key b)))) : ¬ lt k (key b) := by
  simpa using List.mem_takeWhile_imp hb

/-- To relate the elements of a queue that `a` joins, relate `a` to those before and behind. -/
theorem Ordered.pairwise_enqueue {R : α → α → Prop} {a : α} {l : List α} (h : Ordered lt key l)
    (hR : l.Pairwise R) (hbefore : ∀ b ∈ l, ¬ lt (key a) (key b) → R b a)
    (hafter : ∀ b ∈ l, lt (key a) (key b) → R a b) : (KeyedQueue.enqueue lt key a l).Pairwise R := by
  have hsplit := List.takeWhile_append_dropWhile (p := fun b => !decide (lt (key a) (key b)))
    (l := l)
  rw [← hsplit] at hR
  obtain ⟨h1, h2, h3⟩ := List.pairwise_append.mp hR
  refine List.pairwise_append.mpr ⟨h1, List.pairwise_cons.mpr ⟨fun b hb => ?_, h2⟩, ?_⟩
  · exact hafter b ((List.dropWhile_sublist _).subset hb) (h.lt_of_mem_dropWhile b hb)
  · intro b hb c hc
    rcases List.mem_cons.mp hc with rfl | hc
    · exact hbefore b ((List.takeWhile_sublist _).subset hb) (not_lt_of_mem_takeWhile hb)
    · exact h3 b hb c hc

theorem Ordered.enqueue {a : α} {l : List α} (h : Ordered lt key l) :
    Ordered lt key (enqueue lt key a l) :=
  h.pairwise_enqueue h (fun _ _ hb => hb) fun _ _ hlt hgt =>
    irrefl _ (IsTrans.trans _ _ _ hlt hgt)

variable [DecidableEq κ]

/-- The level joined grows at its tail; every other level is unchanged. -/
theorem Ordered.level_enqueue {a : α} {l : List α} (h : Ordered lt key l) (k : κ) :
    level key k (KeyedQueue.enqueue lt key a l) =
      if key a = k then level key k l ++ [a] else level key k l := by
  have hsplit := List.takeWhile_append_dropWhile (p := fun b => !decide (lt (key a) (key b)))
    (l := l)
  by_cases hk : key a = k
  · subst hk
    have hdrop : level key (key a) (l.dropWhile fun b => !decide (lt (key a) (key b))) = [] := by
      refine level_eq_nil.mpr fun b hb he => ?_
      have hlt := h.lt_of_mem_dropWhile b hb
      rw [he] at hlt
      exact irrefl _ hlt
    rw [if_pos rfl]
    conv_rhs => rw [← hsplit]
    rw [KeyedQueue.enqueue, level_append, level_append, level_cons_self, hdrop, List.append_nil]
  · rw [if_neg hk]
    conv_rhs => rw [← hsplit]
    rw [KeyedQueue.enqueue, level_append, level_append, level_cons, if_neg hk]

end enqueue

end KeyedQueue
