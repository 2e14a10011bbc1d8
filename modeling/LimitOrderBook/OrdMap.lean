import Mathlib.Data.List.Basic
import Mathlib.Data.List.Pairwise
import Mathlib.Order.Defs.Unbundled
import Mathlib.Tactic.Common

/-! # Ordered maps

`OrdMap lt κ ν` is a finite map held as an association list strictly sorted by `lt`: the
observable behaviour of a balanced search tree with comparator `lt`.  `find?` looks a key up,
`alter k f` rewrites (or creates) the entry of `k`, `erase` removes it, `entries` is the
in-order traversal, `firstKey?` its first key and `after?` the next key of a traversal.

The characterisation by `find?` (`find?_alter`, `find?_erase`) is what clients use; the order
shows only in `firstKey?` and `after?`. -/

/-- A finite map as an association list strictly sorted by `lt`. -/
structure OrdMap {κ : Type} (lt : κ → κ → Prop) (ν : Type) where
  entries : List (κ × ν)
  sorted : entries.Pairwise (fun a b => lt a.1 b.1)

namespace OrdMap

variable {κ ν : Type} {lt : κ → κ → Prop}

/-- The empty map. -/
def empty : OrdMap lt ν := ⟨[], List.Pairwise.nil⟩

instance : Inhabited (OrdMap lt ν) := ⟨empty⟩

theorem ext {m m' : OrdMap lt ν} (h : m.entries = m'.entries) : m = m' := by
  cases m; cases m'; simpa using h

def size (m : OrdMap lt ν) : ℕ := m.entries.length

/-- The first key of the traversal. -/
def firstKey? (m : OrdMap lt ν) : Option κ := m.entries.head?.map Prod.fst

section lookup

variable [DecidableEq κ]

/-- The value stored at `k`. -/
def find? (m : OrdMap lt ν) (k : κ) : Option ν :=
  (m.entries.find? (fun e => decide (e.1 = k))).map Prod.snd

/-- Remove the entry of `k`. -/
def erase (m : OrdMap lt ν) (k : κ) : OrdMap lt ν :=
  ⟨m.entries.filter (fun e => !decide (e.1 = k)), m.sorted.sublist List.filter_sublist⟩

@[simp] theorem find?_empty (k : κ) : (empty : OrdMap lt ν).find? k = none := rfl

variable [IsStrictTotalOrder κ lt]

/-- Strictly sorted entries have distinct keys, so membership is lookup. -/
theorem lookup_eq_some : ∀ {l : List (κ × ν)}, l.Pairwise (fun a b => lt a.1 b.1) →
    ∀ {k : κ} {v : ν}, (l.find? (fun e => decide (e.1 = k))).map Prod.snd = some v ↔ (k, v) ∈ l
  | [], _, k, v => by simp
  | (k', v') :: l, h, k, v => by
      obtain ⟨hhead, htail⟩ := List.pairwise_cons.mp h
      have ih := lookup_eq_some htail (k := k) (v := v)
      by_cases hk : k' = k
      · subst hk
        have hnot : (k', v) ∉ l := fun hm => irrefl (r := lt) k' (hhead (k', v) hm)
        simp only [List.find?_cons, decide_true, Option.map_some, Option.some.injEq,
          List.mem_cons, Prod.mk.injEq, true_and]
        constructor
        · rintro rfl; exact Or.inl rfl
        · rintro (h | h)
          · exact h.symm
          · exact absurd h hnot
      · have hk' : ¬ k = k' := fun e => hk e.symm
        simpa [List.find?_cons, hk, hk'] using ih

theorem find?_eq_some {m : OrdMap lt ν} {k : κ} {v : ν} :
    m.find? k = some v ↔ (k, v) ∈ m.entries := lookup_eq_some m.sorted

theorem find?_eq_none {m : OrdMap lt ν} {k : κ} :
    m.find? k = none ↔ ∀ v, (k, v) ∉ m.entries := by
  rw [← not_iff_not, ← Ne, Option.ne_none_iff_exists']
  simp [find?_eq_some]

theorem find?_erase (m : OrdMap lt ν) (k k' : κ) :
    (m.erase k).find? k' = if k' = k then none else m.find? k' := by
  apply Option.ext
  intro v
  rw [find?_eq_some]
  by_cases h : k' = k
  · simp [erase, h]
  · simp [erase, h, find?_eq_some]

theorem length_erase : ∀ {l : List (κ × ν)}, l.Pairwise (fun a b => lt a.1 b.1) → ∀ {k : κ} {v : ν},
    (k, v) ∈ l → (l.filter (fun e => !decide (e.1 = k))).length + 1 = l.length
  | (k', v') :: l, h, k, v, hm => by
      obtain ⟨hhead, htail⟩ := List.pairwise_cons.mp h
      by_cases hk : k' = k
      · subst hk
        have hne : ∀ e ∈ l, ¬ e.1 = k' := fun e he h' => irrefl (r := lt) k' (h' ▸ hhead e he)
        have hall : l.filter (fun e => !decide (e.1 = k')) = l :=
          List.filter_eq_self.mpr (by simpa using hne)
        rw [List.filter_cons_of_neg (by simp), hall, List.length_cons]
      · have hm' : (k, v) ∈ l := (List.mem_cons.mp hm).resolve_left fun e => hk (congrArg Prod.fst e).symm
        rw [List.filter_cons_of_pos (by simp [hk]), List.length_cons, length_erase htail hm',
          List.length_cons]

theorem size_erase {m : OrdMap lt ν} {k : κ} (h : m.find? k ≠ none) :
    (m.erase k).size + 1 = m.size := by
  obtain ⟨v, hv⟩ := Option.ne_none_iff_exists'.mp h
  exact length_erase m.sorted (find?_eq_some.mp hv)

end lookup

section alter

variable (lt) [DecidableRel lt]

/-- `alter` on the entries: rewrite the entry of `k`, or create it in its place. -/
def alterEntries (k : κ) (f : Option ν → ν) : List (κ × ν) → List (κ × ν)
  | [] => [(k, f none)]
  | (k', v) :: l =>
      if lt k k' then (k, f none) :: (k', v) :: l
      else if lt k' k then (k', v) :: alterEntries k f l
      else (k', f (some v)) :: l

variable {lt}

theorem mem_alterEntries_key {k : κ} {f : Option ν → ν} : ∀ {l : List (κ × ν)} {e : κ × ν},
    e ∈ alterEntries lt k f l → e.1 = k ∨ ∃ v, (e.1, v) ∈ l
  | [], e, h => by
      rw [alterEntries, List.mem_singleton] at h
      exact Or.inl (by rw [h])
  | (k', v) :: l, e, h => by
      unfold alterEntries at h
      split_ifs at h with h1 h2
      · rcases List.mem_cons.mp h with rfl | h
        · exact Or.inl rfl
        · exact Or.inr ⟨e.2, h⟩
      · rcases List.mem_cons.mp h with rfl | h
        · exact Or.inr ⟨v, List.mem_cons_self⟩
        · rcases mem_alterEntries_key h with h | ⟨w, h⟩
          · exact Or.inl h
          · exact Or.inr ⟨w, List.mem_cons_of_mem _ h⟩
      · rcases List.mem_cons.mp h with rfl | h
        · exact Or.inr ⟨v, List.mem_cons_self⟩
        · exact Or.inr ⟨e.2, List.mem_cons_of_mem _ h⟩

variable [IsStrictTotalOrder κ lt]

theorem alterEntries_sorted {k : κ} {f : Option ν → ν} : ∀ {l : List (κ × ν)},
    l.Pairwise (fun a b => lt a.1 b.1) →
    (alterEntries lt k f l).Pairwise (fun a b => lt a.1 b.1)
  | [], _ => by simp [alterEntries]
  | (k', v) :: l, h => by
      obtain ⟨hhead, htail⟩ := List.pairwise_cons.mp h
      unfold alterEntries
      split_ifs with h1 h2
      · refine List.pairwise_cons.mpr ⟨?_, h⟩
        intro e he
        rcases List.mem_cons.mp he with rfl | he
        · exact h1
        · exact IsTrans.trans _ _ _ h1 (hhead e he)
      · refine List.pairwise_cons.mpr ⟨?_, alterEntries_sorted htail⟩
        intro e he
        rcases mem_alterEntries_key he with h | ⟨w, h⟩
        · rw [h]; exact h2
        · exact hhead (e.1, w) h
      · exact List.pairwise_cons.mpr ⟨fun e he => hhead e he, htail⟩

/-- Rewrite the entry of `k` (`none` when it is absent), creating it if need be. -/
def alter (m : OrdMap lt ν) (k : κ) (f : Option ν → ν) : OrdMap lt ν :=
  ⟨alterEntries lt k f m.entries, alterEntries_sorted m.sorted⟩

variable [DecidableEq κ]

theorem lookup_alterEntries {k : κ} {f : Option ν → ν} (k' : κ) : ∀ {l : List (κ × ν)},
    l.Pairwise (fun a b => lt a.1 b.1) →
    ((alterEntries lt k f l).find? (fun e => decide (e.1 = k'))).map Prod.snd =
      if k' = k then some (f ((l.find? (fun e => decide (e.1 = k))).map Prod.snd))
      else (l.find? (fun e => decide (e.1 = k'))).map Prod.snd
  | [], _ => by
      by_cases h : k' = k
      · simp [alterEntries, h]
      · have h' : ¬ k = k' := fun e => h e.symm
        simp [alterEntries, h, h']
  | (k₁, v) :: l, hs => by
      obtain ⟨hhead, htail⟩ := List.pairwise_cons.mp hs
      have ih := lookup_alterEntries (k := k) (f := f) k' htail
      unfold alterEntries
      split_ifs with h1 h2 h3 h4 h5
      · -- `k` stands before every entry, so it is absent.
        subst h2
        have hne : ¬ k₁ = k' := by rintro rfl; exact irrefl _ h1
        have habs : l.find? (fun e => decide (e.1 = k')) = none := by
          rw [List.find?_eq_none]
          intro e he
          have hlt := IsTrans.trans _ _ _ h1 (hhead e he)
          simp only [decide_eq_true_eq]
          rintro rfl
          exact irrefl _ hlt
        simp [hne, habs]
      · have : ¬ k = k' := fun e => h2 e.symm
        simp [List.find?_cons, this]
      · subst h4
        have hne : ¬ k₁ = k' := by rintro rfl; exact irrefl _ h3
        simpa [List.find?_cons, hne] using ih
      · by_cases hk : k₁ = k'
        · simp [hk]
        · simpa [List.find?_cons, hk, h4] using ih
      · have : k₁ = k := Std.Trichotomous.trichotomous (r := lt) _ _ h3 h1
        subst this
        simp [h5]
      · have : k₁ = k := Std.Trichotomous.trichotomous (r := lt) _ _ h3 h1
        subst this
        have h5' : ¬ k₁ = k' := fun e => h5 e.symm
        simp [h5']

theorem find?_alter (m : OrdMap lt ν) (k k' : κ) (f : Option ν → ν) :
    (m.alter k f).find? k' = if k' = k then some (f (m.find? k)) else m.find? k' :=
  lookup_alterEntries k' m.sorted

omit [DecidableEq κ] in
theorem length_alterEntries {k : κ} {f : Option ν → ν} : ∀ {l : List (κ × ν)},
    (∀ v, (k, v) ∉ l) → (alterEntries lt k f l).length = l.length + 1
  | [], _ => rfl
  | (k', v') :: l, hk => by
      unfold alterEntries
      split_ifs with h1 h2
      · simp
      · simp [length_alterEntries fun v hv => hk v (List.mem_cons_of_mem _ hv)]
      · have : k = k' := Std.Trichotomous.trichotomous (r := lt) _ _ h1 h2
        exact absurd (this ▸ List.mem_cons_self) (hk v')

theorem size_alter {m : OrdMap lt ν} {k : κ} (h : m.find? k = none) (f : Option ν → ν) :
    (m.alter k f).size = m.size + 1 :=
  length_alterEntries (find?_eq_none.mp h)

end alter

/-! ### Edits at an entry -/

section split

variable {m : OrdMap lt ν} {es₁ es₂ : List (κ × ν)} {k : κ} {v : ν}

theorem key_lt_of_split (h : m.entries = es₁ ++ (k, v) :: es₂) :
    (∀ e ∈ es₁, lt e.1 k) ∧ ∀ e ∈ es₂, lt k e.1 := by
  have hs : (es₁ ++ (k, v) :: es₂).Pairwise (fun a b => lt a.1 b.1) := h ▸ m.sorted
  obtain ⟨-, h2, h3⟩ := List.pairwise_append.mp hs
  exact ⟨fun e he => h3 e he (k, v) List.mem_cons_self, (List.pairwise_cons.mp h2).1⟩

variable [IsStrictTotalOrder κ lt]

theorem find?_of_split [DecidableEq κ] (h : m.entries = es₁ ++ (k, v) :: es₂) :
    m.find? k = some v := by
  rw [find?_eq_some, h]
  exact List.mem_append_right _ List.mem_cons_self

theorem entries_erase_of_split [DecidableEq κ] (h : m.entries = es₁ ++ (k, v) :: es₂) :
    (m.erase k).entries = es₁ ++ es₂ := by
  obtain ⟨h1, h2⟩ := key_lt_of_split h
  have hne1 : ∀ e ∈ es₁, ¬ e.1 = k := fun e he hk => irrefl (r := lt) k (hk ▸ h1 e he)
  have hne2 : ∀ e ∈ es₂, ¬ e.1 = k := fun e he hk => irrefl (r := lt) k (hk ▸ h2 e he)
  show m.entries.filter (fun e => !decide (e.1 = k)) = es₁ ++ es₂
  rw [h, List.filter_append, List.filter_cons_of_neg (by simp),
    List.filter_eq_self.mpr (by simpa using hne1), List.filter_eq_self.mpr (by simpa using hne2)]

theorem entries_alter_of_split [DecidableRel lt] (h : m.entries = es₁ ++ (k, v) :: es₂)
    (f : Option ν → ν) : (m.alter k f).entries = es₁ ++ (k, f (some v)) :: es₂ := by
  have hlt := (key_lt_of_split h).1
  show alterEntries lt k f m.entries = es₁ ++ (k, f (some v)) :: es₂
  rw [h]
  clear h
  induction es₁ with
  | nil =>
      have hirr : ¬ lt k k := irrefl k
      simp [alterEntries, hirr]
  | cons e es₁ ih =>
      have hek : lt e.1 k := hlt e List.mem_cons_self
      have hke : ¬ lt k e.1 := fun h => irrefl (r := lt) k (IsTrans.trans _ _ _ h hek)
      have ih' := ih fun e' he' => hlt e' (List.mem_cons_of_mem e he')
      simp only [List.cons_append, alterEntries, if_neg hke, if_pos hek]
      rw [ih']

end split

section traversal

variable [DecidableEq κ] [IsStrictTotalOrder κ lt]

omit [IsStrictTotalOrder κ lt] in
theorem firstKey?_eq_none {m : OrdMap lt ν} (h : m.firstKey? = none) (k : κ) :
    m.find? k = none := by
  have : m.entries = [] := by simpa [firstKey?] using h
  simp [find?, this]

theorem firstKey?_eq_some {m : OrdMap lt ν} {k : κ} (h : m.firstKey? = some k) :
    (m.find? k).isSome ∧ ∀ k', (m.find? k').isSome → ¬ lt k' k := by
  cases he : m.entries with
  | nil => simp [firstKey?, he] at h
  | cons e l =>
      have hk : e.1 = k := by simpa [firstKey?, he] using h
      subst hk
      refine ⟨by simp [find?, he], ?_⟩
      intro k' hk' hlt
      obtain ⟨v, hv⟩ := Option.isSome_iff_exists.mp hk'
      have hmem : (k', v) ∈ e :: l := he ▸ find?_eq_some.mp hv
      have hs : (e :: l).Pairwise (fun a b => lt a.1 b.1) := he ▸ m.sorted
      rcases List.mem_cons.mp hmem with rfl | hmem
      · exact irrefl _ hlt
      · exact irrefl _ (IsTrans.trans _ _ _ hlt ((List.pairwise_cons.mp hs).1 _ hmem))

variable [DecidableRel lt]

/-- The first key of the traversal strictly after `k`. -/
def after? (m : OrdMap lt ν) (k : κ) : Option κ :=
  (m.entries.find? (fun e => decide (lt k e.1))).map Prod.fst

theorem after?_eq_none {m : OrdMap lt ν} {k : κ} (h : m.after? k = none) {k' : κ}
    (hk' : (m.find? k').isSome) : ¬ lt k k' := by
  obtain ⟨v, hv⟩ := Option.isSome_iff_exists.mp hk'
  have hall : ∀ e ∈ m.entries, ¬ lt k e.1 := by simpa [after?, List.find?_eq_none] using h
  exact hall _ (find?_eq_some.mp hv)

theorem after?_eq_some {m : OrdMap lt ν} {k q : κ} (h : m.after? k = some q) :
    (m.find? q).isSome ∧ lt k q ∧ ∀ r, (m.find? r).isSome → lt k r → ¬ lt r q := by
  obtain ⟨e, he, rfl⟩ := Option.map_eq_some_iff.mp h
  obtain ⟨hlt, l₁, l₂, hl, hno⟩ := List.find?_eq_some_iff_append.mp he
  have hlt' : lt k e.1 := by simpa using hlt
  have hmem : e ∈ m.entries := by rw [hl]; simp
  have hfind : m.find? e.1 = some e.2 := find?_eq_some.mpr hmem
  refine ⟨by rw [hfind]; rfl, hlt', ?_⟩
  intro r hr hkr hrq
  obtain ⟨v, hv⟩ := Option.isSome_iff_exists.mp hr
  have hrm : (r, v) ∈ l₁ ++ e :: l₂ := hl ▸ find?_eq_some.mp hv
  have hs : (l₁ ++ e :: l₂).Pairwise (fun a b => lt a.1 b.1) := hl ▸ m.sorted
  rcases List.mem_append.mp hrm with h1 | h1
  · have := hno _ h1
    simp at this
    exact this hkr
  · rcases List.mem_cons.mp h1 with rfl | h1
    · exact irrefl _ hrq
    · have := (List.pairwise_cons.mp (List.pairwise_append.mp hs).2.1).1 _ h1
      exact irrefl _ (IsTrans.trans _ _ _ hrq this)

/-- A scan from the first entry that is not `p`, as long as `q`, is a filter when the entries
that are `q` stand together. -/
theorem takeWhile_dropWhile {α : Type} {R : α → α → Prop} {p q : α → Bool}
    (hmono : ∀ a b, R a b → p a = false → p b = false) (hpq : ∀ a, q a = true → p a = false)
    (hconv : ∀ a b, R a b → p a = false → q b = true → q a = true) :
    ∀ {l : List α}, l.Pairwise R → (l.dropWhile p).takeWhile q = l.filter q
  | [], _ => rfl
  | a :: l, h => by
      obtain ⟨hhead, htail⟩ := List.pairwise_cons.mp h
      have ih := takeWhile_dropWhile hmono hpq hconv htail
      cases hp : p a with
      | true =>
          have hq : ¬ q a = true := fun hq => by rw [hpq a hq] at hp; cases hp
          rw [List.dropWhile_cons_of_pos hp, ih, List.filter_cons_of_neg hq]
      | false =>
          have hdrop : l.dropWhile p = l := by
            cases l with
            | nil => rfl
            | cons b l =>
                have hb := hmono a b (hhead b List.mem_cons_self) hp
                exact List.dropWhile_cons_of_neg (by simp [hb])
          rw [hdrop] at ih
          rw [List.dropWhile_cons_of_neg (by simp [hp])]
          cases hq : q a with
          | true => rw [List.takeWhile_cons_of_pos hq, List.filter_cons_of_pos hq, ih]
          | false =>
              have hnil : l.filter q = [] := by
                refine List.filter_eq_nil_iff.mpr fun b hb hqb => ?_
                rw [hconv a b (hhead b hb) hp hqb] at hq
                cases hq
              rw [List.takeWhile_cons_of_neg (by simp [hq]), List.filter_cons_of_neg (by simp [hq]),
                hnil]

end traversal

end OrdMap
