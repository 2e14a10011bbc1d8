import LimitOrderBook.RefineCalls

/-! # Book snapshots

`top_levels` in terms of the flat book: the prices of a side from the best on, each with the sum
of its open quantities as the engine keeps it, in 64 bits. -/

namespace Lob

open KeyedQueue

/-- The first `n` levels of a queue. -/
def levelsOf : ℕ → List Resting → List (Int × UInt64)
  | 0, _ => []
  | _ + 1, [] => []
  | n + 1, r :: q =>
      (r.price, UInt64.ofNat (total (level Resting.price r.price (r :: q)))) ::
        levelsOf n (q.filter fun r' => !decide (r'.price = r.price))

/-- **The levels of an ordered queue**: its prices, best first, with the totals of their orders. -/
theorem levelsOf_eq {s : Side} : ∀ (n : ℕ) {pxs : List Int} {q : List Resting},
    pxs.Pairwise (better s) → Ordered (better s) Resting.price q →
    (∀ px, px ∈ pxs ↔ ∃ r ∈ q, r.price = px) →
    levelsOf n q = (pxs.take n).map fun px => (px, UInt64.ofNat (total (level Resting.price px q)))
  | 0, _, _, _, _, _ => by simp [levelsOf]
  | n + 1, pxs, [], _, _, hmem => by
      have hnil : pxs = [] := by
        apply List.eq_nil_iff_forall_not_mem.mpr
        intro px hpx
        obtain ⟨r, hr, -⟩ := (hmem px).mp hpx
        cases hr
      simp [hnil, levelsOf]
  | n + 1, [], r :: q, _, _, hmem => by
      have hr := (hmem r.price).mpr ⟨r, List.mem_cons_self, rfl⟩
      cases hr
  | n + 1, px :: pxs, r :: q, hpxs, hq, hmem => by
      obtain ⟨hfirst, hpxs'⟩ := List.pairwise_cons.mp hpxs
      have hpx : px = r.price := by
        rcases List.mem_cons.mp ((hmem r.price).mpr ⟨r, List.mem_cons_self, rfl⟩) with h | h
        · exact h.symm
        · -- no price of the queue is better than that of its front
          obtain ⟨r', hr', rfl⟩ := (hmem px).mp List.mem_cons_self
          rcases List.mem_cons.mp hr' with rfl | hr'
          · rfl
          · exact absurd (hfirst _ h) (hq.head_le hr')
      subst hpx
      have hmem' : ∀ k, k ∈ pxs ↔
          ∃ a ∈ q.filter fun r' => !decide (r'.price = r.price), a.price = k := by
        intro k
        constructor
        · intro hk
          obtain ⟨a, ha, rfl⟩ := (hmem k).mp (List.mem_cons_of_mem _ hk)
          have hne : a.price ≠ r.price := fun he => by
            apply irrefl_of (better s) r.price
            exact he ▸ hfirst _ hk
          rcases List.mem_cons.mp ha with rfl | ha
          · exact absurd rfl hne
          · exact ⟨a, List.mem_filter.mpr ⟨ha, by simpa using hne⟩, rfl⟩
        · rintro ⟨a, ha, rfl⟩
          obtain ⟨ha, hne⟩ := List.mem_filter.mp ha
          rcases List.mem_cons.mp ((hmem a.price).mpr ⟨a, List.mem_cons_of_mem _ ha, rfl⟩) with h | h
          · simp [h] at hne
          · exact h
      have hlevel : ∀ k ∈ pxs, level Resting.price k (r :: q) =
          level Resting.price k (q.filter fun r' => !decide (r'.price = r.price)) := by
        intro k hk
        have hne : k ≠ r.price := by
          rintro rfl
          exact irrefl_of (better s) r.price (hfirst _ hk)
        rw [level_filter, level_cons, if_neg hne.symm]
        refine (List.filter_eq_self.mpr fun a ha => ?_).symm
        rw [(mem_level.mp ha).2]
        simpa using hne
      rw [levelsOf, levelsOf_eq n hpxs' ((hq.tail).filter _) hmem', List.take_succ_cons, List.map_cons]
      refine congrArg _ (List.map_congr_left fun k hk => ?_)
      rw [hlevel k (List.mem_of_mem_take hk)]

def Flat.topLevels (F : Flat) (s : Side) (n : ℕ) : List (Int × UInt64) := levelsOf n (F.side s)

namespace Book

variable {L I P A : Type} [Ladder L A] [LawfulLadder L A] [Index I A] [LawfulIndex I A]
  [Allocator P A (Order A)] [LawfulAllocator P A (Order A)] {c : Config} {b : Book L I P}
  {F : Flat} {s : Side}

theorem Repr.topLevelsFrom (h : Repr c b F) : ∀ (n : ℕ) (pre Q : List Resting),
    F.side s = pre ++ Q → (∀ a ∈ pre, ∀ a' ∈ Q, a.price ≠ a'.price) →
    b.topLevelsFrom s n (Q.head?.map Resting.price) = levelsOf n Q
  | 0, _, _, _, _ => rfl
  | _ + 1, _, [], _, _ => rfl
  | n + 1, pre, r :: Q, hside, hpre => by
      obtain ⟨q, rest, hsplit, hqne, hqp, hrp, hlq, hnext, hdisj⟩ := h.front_level hside hpre
      obtain ⟨ptr, hcore⟩ := h.core
      have hr : r ∈ F.side s := by
        rw [hside]
        exact List.mem_append_right _ List.mem_cons_self
      have htotal : (Ladder.level (b.ladder s) r.price).totalQty = UInt64.ofNat (total q) := by
        have := (hcore.level s r.price (h.orderly.band s r hr)).totalQty
        rwa [hlq] at this
      have hlevel : level Resting.price r.price (r :: Q) = q := by
        rw [hsplit, level_append, level_eq_self hqp, level_eq_nil.mpr hrp, List.append_nil]
      have hrest : Q.filter (fun r' => !decide (r'.price = r.price)) = rest := by
        have hall : (r :: Q).filter (fun r' => !decide (r'.price = r.price)) = rest := by
          rw [hsplit, List.filter_append, List.filter_eq_nil_iff.mpr (by simpa using hqp),
            List.filter_eq_self.mpr (by simpa using hrp), List.nil_append]
        rwa [List.filter_cons_of_neg (by simp)] at hall
      rw [levelsOf, hlevel, hrest, ← Repr.topLevelsFrom h n (pre ++ q) rest
        (by rw [hside, hsplit, List.append_assoc]) hdisj, ← htotal, ← hnext]
      rfl

/-- **The snapshot of an engine is the one of its book.** -/
theorem Repr.topLevels (h : Repr c b F) (s : Side) (n : ℕ) :
    b.topLevels s n = F.topLevels s n := by
  rw [Book.topLevels, h.best?_eq]
  exact h.topLevelsFrom n [] _ rfl fun a ha => by cases ha

end Book

end Lob
