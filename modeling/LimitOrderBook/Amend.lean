import LimitOrderBook.Reference
import LimitOrderBook.FillOrKill
import LimitOrderBook.SelfTrade

/-! # Amends

An amend at the price an order rests at never trades.  A smaller size is written in place; a larger
one takes the order off the book and submits it again, and since no order of the other side reaches
its price the walk ends where it starts (`Flat.modify_same`), so the order joins the back of its
own level.  At any other price a modify is a cancel and a new submission (`OrderBook.modify_run`). -/

namespace Lob

open KeyedQueue

namespace Flat

variable {c : Config} {F : Flat} {s : Side} {r : Resting} {n : Qty}

/-- The order `r`, at its price, with the quantity `n`. -/
def resize (F : Flat) (s : Side) (r : Resting) (n : Qty) : Flat :=
  if n ≤ r.qty then F.amend r.id n else (F.remove r.id).rest s { r with qty := n }

/-- **A modify at the price of the order does not trade.** -/
theorem modify_same (h : F.WF c) (hr : r ∈ F.side s) (hn : n ≠ 0) :
    F.modify c r.id r.price n =
      (F.resize s r n, { ok := true, filled := 0, rested := true, found := true }, []) := by
  have hfind : F.find? r.id = some (s, r) := (find?_iff h.nodup).mpr ⟨hr, rfl⟩
  have hgo : ¬ (n = 0 ∨ c.inBand r.price = false) := by
    rw [h.band s r hr]
    simp [hn]
  simp only [modify, hfind, if_neg hgo, resize]
  by_cases hle : n ≤ r.qty
  · rw [if_pos ⟨trivial, hle⟩, if_pos hle]
  · rw [if_neg fun hc => hle hc.2, if_neg hle]
    have hclear : ∀ r' ∈ (F.remove r.id).side s.opp, crosses s r'.price r.price = false := by
      intro r' hr'
      rw [side_remove] at hr'
      exact h.not_crosses_side hr (List.mem_of_mem_filter hr')
    simp only [execute, reduceCtorEq, false_and, if_false, walk_clear hclear, Bool.false_eq_true,
      hn, ne_eq, not_false_eq_true, and_self, if_true, withSide_side, UInt32.sub_self]

/-- Only the level of the order changes: the order keeps its place, or goes behind the others. -/
theorem level_resize (h : F.WF c) (hr : r ∈ F.side s) {q₁ q₂ : List Resting}
    (hq : level Resting.price r.price (F.side s) = q₁ ++ r :: q₂) (t : Side) (px : Int) :
    level Resting.price px ((F.resize s r n).side t) =
      if t = s ∧ px = r.price then
        if n ≤ r.qty then q₁ ++ { r with qty := n } :: q₂ else q₁ ++ q₂ ++ [{ r with qty := n }]
      else level Resting.price px (F.side t) := by
  unfold resize
  by_cases hle : n ≤ r.qty
  · simp only [if_pos hle]
    exact level_amend h.nodup hr hq n t px
  · simp only [if_neg hle]
    have hord : Ordered (better s) Resting.price ((F.remove r.id).side s) :=
      (h.remove r.id).ordered s
    have hrem := level_remove h.nodup hr hq t px
    rw [rest, side_withSide]
    by_cases hs : t = s
    · subst hs
      rw [if_pos rfl, hord.level_enqueue, hrem]
      by_cases hpx : px = r.price
      · rw [if_pos hpx.symm, if_pos ⟨rfl, hpx⟩, if_pos ⟨rfl, hpx⟩]
      · rw [if_neg fun he => hpx he.symm, if_neg fun he => hpx he.2, if_neg fun he => hpx he.2]
    · rw [if_neg hs, hrem, if_neg fun he => hs he.1, if_neg fun he => hs he.1]

end Flat

namespace OrderBook

variable {p : Params} {c : Config} {b : OrderBook} {F : Flat} {s : Side} {r : Resting} {n : Qty}

/-- From `b` to `b'` the order `r` is resized: where it stands or at the back of its level, with
every other queue as it was and the total of the level off by the difference. -/
structure Resized (p : Params) (b b' : OrderBook) (s : Side) (r : Resting) (n : Qty) : Prop where
  level : ∃ q₁ q₂, b.queueAt s r.price = q₁ ++ r :: q₂ ∧ b'.queueAt s r.price =
    if n ≤ r.qty then q₁ ++ { r with qty := n } :: q₂ else q₁ ++ q₂ ++ [{ r with qty := n }]
  others : ∀ t px, p.inBand px = true → ¬ (t = s ∧ px = r.price) →
    b'.queueAt t px = b.queueAt t px
  total : (b'.qtyAt s r.price).toNat + r.qty.toNat = (b.qtyAt s r.price).toNat + n.toNat
  count : b'.ordersAt s r.price = b.ordersAt s r.price

theorem resized_of_repr {b' : OrderBook} (h : Book.Repr p.config b F)
    (h' : Book.Repr p.config b' (F.resize s r n)) (hr : r ∈ F.side s)
    (hsmall : b.restingOrders < 2 ^ 32) : Resized p b b' s r n := by
  have hpx : p.inBand r.price = true := h.wf.band s r hr
  obtain ⟨q₁, q₂, hq⟩ := List.append_of_mem (mem_level.mpr ⟨hr, rfl⟩ :
    r ∈ level Resting.price r.price (F.side s))
  have hlevel := Flat.level_resize (n := n) h.wf hr hq
  have hself := hlevel s r.price
  rw [if_pos ⟨rfl, rfl⟩] at hself
  -- the level holds as many orders as before, and its total has moved by the difference
  have hlen : (level Resting.price r.price ((F.resize s r n).side s)).length =
      (level Resting.price r.price (F.side s)).length := by
    rw [hself, hq]
    split_ifs <;> simp
  have htotal : total (level Resting.price r.price ((F.resize s r n).side s)) + r.qty.toNat =
      total (level Resting.price r.price (F.side s)) + n.toNat := by
    rw [hself, hq]
    split_ifs <;> simp only [total_append, total_cons, total_nil] <;> omega
  have hlt : (level Resting.price r.price (F.side s)).length < 2 ^ 32 :=
    Nat.lt_of_le_of_lt (List.length_filter_le _ _) (side_length_lt h hsmall s)
  refine ⟨⟨q₁, q₂, ?_, ?_⟩, fun t px hin hne => ?_, ?_, ?_⟩
  · rw [queueAt_eq h hpx, hq]
  · rw [queueAt_eq h' hpx, hself]
  · rw [queueAt_eq h' hin, queueAt_eq h hin, hlevel, if_neg hne]
  · rw [h'.qtyAt, h.qtyAt, UInt64.toNat_ofNat_of_lt' (total_lt hlt),
      UInt64.toNat_ofNat_of_lt' (total_lt (by rw [hlen]; exact hlt))]
    exact htotal
  · rw [h'.ordersAt, h.ordersAt, hlen]

/-- **A modify at another price is a cancel and a submission.** -/
theorem modify_move (h : Book.Repr c b F) (hr : r ∈ F.side s) {px : Int}
    (hpx : c.inBand px = true) (hn : n ≠ 0) (hne : px ≠ r.price) :
    let x := b.modify r.id px n
    let y := (b.cancel r.id).1.submitLimit r.id s px n .gtc r.owner
    (b.cancel r.id).2 = true ∧ x.1 = y.1 ∧
      x.2 = ({ ok := true, filled := y.2.1.filled, rested := y.2.1.rested, found := true },
        y.2.2) := by
  obtain ⟨ptr, -, hfind, hnode, -, -⟩ := h.node_of_mem hr
  have hband : Ladder.inBand b.bids px = true := (h.inBand .bid px).trans hpx
  have hgo : ¬ (n = 0 ∨ Ladder.inBand b.bids px = false) := by
    rw [hband]
    simp [hn]
  have hmove : ¬ (px = (Allocator.deref b.pool (ptr r.id)).price ∧
      n ≤ (Allocator.deref b.pool (ptr r.id)).qty) := by
    rw [hnode.price]
    exact fun hc => hne hc.1
  simp only [Book.modify, Book.modifyWith, Book.cancel, hfind, if_neg hgo, if_neg hmove,
    hnode.side, hnode.owner]
  exact ⟨trivial, trivial, trivial⟩

/-- **Amends**: at its own price an order is resized and nothing trades, in every reachable state and
under every policy; a modify to another price of the band is a cancel and a submission. -/
theorem modify_run (p : Params) (hp : p.Valid) (ops : List Op)
    (hsmall : (run p ops).restingOrders < 2 ^ 32) (s : Side) (r : Resting)
    (hr : r ∈ (run p ops).flat.side s) (n : Qty) (hn : n ≠ 0) :
    (((run p ops).modify r.id r.price n).2 =
        ({ ok := true, filled := 0, rested := true, found := true }, []) ∧
      Resized p (run p ops) ((run p ops).modify r.id r.price n).1 s r n) ∧
    ∀ px, p.inBand px = true → px ≠ r.price →
      let x := (run p ops).modify r.id px n
      let y := ((run p ops).cancel r.id).1.submitLimit r.id s px n .gtc r.owner
      ((run p ops).cancel r.id).2 = true ∧ x.1 = y.1 ∧
        x.2 = ({ ok := true, filled := y.2.1.filled, rested := y.2.1.rested, found := true },
          y.2.2) := by
  have h := (run_repr hp ops).2
  rw [flat_eq h] at hr
  refine ⟨?_, fun px hpx hne => modify_move h hr hpx hn hne⟩
  obtain ⟨hans, hrepr⟩ := h.modifyWith r.id r.price n fun _ _ _ _ _ _ _ _ h => h.submitLimit_valid
  rw [Flat.modify_same h.wf hr hn] at hans hrepr
  exact ⟨hans, resized_of_repr h hrepr hr hsmall⟩

/-- An order grows behind another one at its price, with an own order on the other side. -/
theorem modify_run_small :
    ((run { stp := .rejectIncoming, bandHi := 9, idMapSlots := 4 }
      [.submitLimit 1 .bid 5 2 .gtc 7, .submitLimit 2 .bid 5 4 .gtc 0,
        .submitLimit 3 .ask 6 1 .gtc 7]).modify 1 5 8).2 =
      ({ ok := true, filled := 0, rested := true, found := true }, []) :=
  (modify_run { stp := .rejectIncoming, bandHi := 9, idMapSlots := 4 }
    ⟨by decide, by decide, by decide, by decide⟩
    [.submitLimit 1 .bid 5 2 .gtc 7, .submitLimit 2 .bid 5 4 .gtc 0,
      .submitLimit 3 .ask 6 1 .gtc 7] (by decide +kernel) .bid ⟨1, 5, 2, 7⟩ (by decide +kernel) 8
    (by decide)).1.1

end OrderBook

end Lob
