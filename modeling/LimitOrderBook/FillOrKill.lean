import LimitOrderBook.OrderBook
import LimitOrderBook.RefineNaive
import LimitOrderBook.Tape

/-! # Fill-or-kill

How far a taker gets is a sum: `reach` is the quantity that its walk finds before the first order
that does not cross, or before the order that stops it.  A walk leaves open what exceeds the sum
(`walk_remaining`), and the two loops of the fill-or-kill check compare with it (`fillable_iff`);
so the check predicts the walk (`fillable_iff_walk`, `OrderBook.fok_exact`). -/

namespace Lob

open KeyedQueue

/-- The quantity within reach of a taker: own orders are skipped, or end the walk. -/
def reach (stp : Stp) (s : Side) (limit : Int) (owner : Owner) : List Resting → ℕ
  | [] => 0
  | r :: q =>
      if crosses s r.price limit = false then 0
      else if r.Own stp owner then
        if stp = .rejectIncoming then 0 else reach stp s limit owner q
      else r.qty.toNat + reach stp s limit owner q

section reach

variable {stp : Stp} {s : Side} {taker : OrderId} {limit limit' : Int} {owner : Owner}

section front

variable {r : Resting} {q : List Resting}

theorem reach_far (hc : crosses s r.price limit = false) : reach stp s limit owner (r :: q) = 0 := by
  rw [reach, if_pos hc]

theorem reach_block (ho : r.Own stp owner) (hs : stp = .rejectIncoming) :
    reach stp s limit owner (r :: q) = 0 := by
  rw [reach, if_pos ho, if_pos hs, ite_self]

theorem reach_skip (hc : crosses s r.price limit = true) (ho : r.Own stp owner)
    (hs : stp ≠ .rejectIncoming) :
    reach stp s limit owner (r :: q) = reach stp s limit owner q := by
  rw [reach, if_neg (by rw [hc]; exact Bool.noConfusion), if_pos ho, if_neg hs]

theorem reach_take (hc : crosses s r.price limit = true) (ho : ¬ r.Own stp owner) :
    reach stp s limit owner (r :: q) = r.qty.toNat + reach stp s limit owner q := by
  rw [reach, if_neg (by rw [hc]; exact Bool.noConfusion), if_neg ho]

end front

/-- **A walk leaves open what exceeds its reach.** -/
theorem walk_remaining : ∀ (q : List Resting) (n : Qty),
    (walk stp s taker limit owner q n).remaining.toNat = n.toNat - reach stp s limit owner q
  | [], _ => rfl
  | r :: q, n => by
      refine walk_cases r q n
        (fun w => w.remaining.toNat = n.toNat - reach stp s limit owner (r :: q)) ?_ ?_ ?_ ?_ ?_
      · rintro (rfl | hc)
        · exact (Nat.zero_sub _).symm
        · rw [reach_far hc]
          rfl
      · intro _ _ ho hs
        rw [reach_block ho hs]
        rfl
      · intro _ hc ho hs
        rw [reach_skip hc ho (by rw [hs]; decide)]
        exact walk_remaining q n
      · intro _ hc ho hlt
        rw [reach_take hc ho]
        have hlt' : n.toNat < r.qty.toNat := hlt
        show 0 = _
        omega
      · intro _ hc ho hle
        have ih := walk_remaining q (n - r.qty)
        rw [UInt32.toNat_sub_of_le _ _ hle] at ih
        rw [reach_take hc ho, ih]
        omega

/-- A taker is filled exactly when its quantity is within reach. -/
theorem walk_remaining_eq_zero {q : List Resting} {n : Qty} :
    (walk stp s taker limit owner q n).remaining = 0 ↔ n.toNat ≤ reach stp s limit owner q := by
  rw [← UInt32.toNat_inj, walk_remaining]
  have hz : (0 : UInt32).toNat = 0 := rfl
  omega

/-- A stopped walk has something open. -/
theorem walk_stopped_remaining : ∀ (q : List Resting) (n : Qty),
    (walk stp s taker limit owner q n).stopped = true →
    (walk stp s taker limit owner q n).remaining ≠ 0
  | [], _ => by
      intro h
      cases h
  | r :: q, n => by
      refine walk_cases r q n (fun w => w.stopped = true → w.remaining ≠ 0) ?_ ?_ ?_ ?_ ?_
      · intro _ h
        cases h
      · intro hn _ _ _ _
        exact hn
      · intro _ _ _ _
        exact walk_stopped_remaining q n
      · intro _ _ _ _ h
        cases h
      · intro _ _ _ _
        exact walk_stopped_remaining q (n - r.qty)

/-- A bound that lets more prices cross reaches further. -/
theorem reach_mono (hle : ∀ px, crosses s px limit = true → crosses s px limit' = true) :
    ∀ q : List Resting, reach stp s limit owner q ≤ reach stp s limit' owner q
  | [] => Nat.le_refl 0
  | r :: q => by
      have ih := reach_mono hle q
      cases hc : crosses s r.price limit with
      | false =>
          rw [reach_far hc]
          exact Nat.zero_le _
      | true =>
          by_cases ho : r.Own stp owner
          · by_cases hs : stp = .rejectIncoming
            · rw [reach_block ho hs]
              exact Nat.zero_le _
            · rw [reach_skip hc ho hs, reach_skip (hle _ hc) ho hs]
              exact ih
          · rw [reach_take hc ho, reach_take (hle _ hc) ho]
            omega

/-! ### The two sums -/

theorem reach_none : ∀ q : List Resting,
    reach .none s limit owner q = total (NaiveSide.crossing s limit q)
  | [] => rfl
  | r :: q => by
      rw [NaiveSide.crossing, List.takeWhile_cons]
      cases hc : crosses s r.price limit with
      | false =>
          rw [reach_far hc]
          rfl
      | true =>
          rw [reach_take hc NaiveSide.not_own_none, if_pos rfl, total_cons, reach_none q]
          rfl

/-- With self-trade prevention on, the sum stops as soon as it suffices. -/
theorem othersReach_eq (hstp : stp ≠ .none) {qty : Qty} : ∀ (q : List Resting) (avail : UInt64),
    avail.toNat < qty.toNat → othersReach s limit qty stp owner avail q =
      decide (qty.toNat ≤ avail.toNat + reach stp s limit owner q)
  | [], avail, _ => by
      rw [othersReach, decide_eq_decide, UInt64.le_iff_toNat_le, UInt32.toNat_toUInt64]
      rfl
  | r :: q, avail, hlt => by
      have hown : (owner ≠ 0 ∧ r.owner = owner) ↔ r.Own stp owner :=
        ⟨fun h => ⟨hstp, h⟩, fun h => h.2⟩
      have hsum : (avail + r.qty.toUInt64).toNat = avail.toNat + r.qty.toNat := by
        have h1 := qty.toNat_lt
        have h2 := r.qty.toNat_lt
        rw [UInt64.toNat_add, UInt32.toNat_toUInt64]
        omega
      simp only [othersReach, hown, UInt64.le_iff_toNat_le, UInt32.toNat_toUInt64, hsum]
      cases hc : crosses s r.price limit with
      | false =>
          rw [reach_far hc]
          rfl
      | true =>
          rw [if_pos rfl]
          by_cases ho : r.Own stp owner
          · by_cases hs : stp = .rejectIncoming
            · rw [if_pos ho, if_pos hs, reach_block ho hs]
              exact (decide_eq_false (by omega)).symm
            · rw [if_pos ho, if_neg hs, reach_skip hc ho hs]
              exact othersReach_eq hstp q avail hlt
          · rw [if_neg ho, reach_take hc ho]
            by_cases hle : qty.toNat ≤ avail.toNat + r.qty.toNat
            · rw [if_pos hle]
              exact (decide_eq_true (by omega)).symm
            · rw [if_neg hle, othersReach_eq hstp q _ (by omega), hsum, Nat.add_assoc]

/-- The check compares the quantity with the reach. -/
theorem fillable_iff {q : List Resting} {qty : Qty} (hqty : qty ≠ 0) (hlen : q.length < 2 ^ 32) :
    fillable s limit qty stp owner q = true ↔ qty.toNat ≤ reach stp s limit owner q := by
  have hz : (0 : UInt64).toNat = 0 := rfl
  by_cases hstp : stp = .none
  · subst hstp
    have hcross : (NaiveSide.crossing s limit q).length < 2 ^ 32 :=
      Nat.lt_of_le_of_lt (List.takeWhile_sublist _).length_le hlen
    have hlt := total_lt hcross
    rw [fillable, if_pos rfl, sumReaches_eq s limit qty q 0 (by omega), decide_eq_true_iff, hz,
      Nat.zero_add, reach_none]
  · have hpos : (0 : UInt64).toNat < qty.toNat := by
      rw [hz]
      exact Nat.pos_of_ne_zero fun h0 => hqty (UInt32.toNat_inj.mp h0)
    rw [fillable, if_neg hstp, othersReach_eq hstp q 0 hpos, decide_eq_true_iff, hz, Nat.zero_add]

/-- **The check predicts the walk.** -/
theorem fillable_iff_walk {q : List Resting} {qty : Qty} (hqty : qty ≠ 0)
    (hlen : q.length < 2 ^ 32) : fillable s limit qty stp owner q = true ↔
      (walk stp s taker limit owner q qty).remaining = 0 :=
  (fillable_iff hqty hlen).trans walk_remaining_eq_zero.symm

end reach

/-! ### Fill-or-kill orders -/

theorem filled_eq_iff {n rem : Qty} : n - rem = n ↔ rem = 0 := by
  rw [UInt32.sub_eq_iff_eq_add]
  constructor
  · intro h
    exact (UInt32.add_right_inj n).mp (h.symm.trans (UInt32.add_zero n).symm)
  · rintro rfl
    exact (UInt32.add_zero n).symm

namespace Flat

variable {F : Flat} {s : Side} {qty : Qty}

/-- A fill-or-kill order is filled in full by a walk that is not stopped, or is rejected by a walk
that falls short; an immediate-or-cancel order does the walk. -/
theorem submitLimit_fok (c : Config) (id : OrderId) (px : Int) (owner : Owner) (hqty : qty ≠ 0)
    (hlen : (F.side s.opp).length < 2 ^ 32) :
    let fok := F.submitLimit c id s px qty .fok owner
    let ioc := F.submitLimit c id s px qty .ioc owner
    (fok.2.1 = ⟨qty, false, false⟩ ∧ fok = ioc) ∨
      fok = (F, ⟨0, false, true⟩, []) ∧ ioc.2.1.filled < qty := by
  have hlt : (0 : Qty) < qty := pos_iff.mpr hqty
  by_cases hbad : id = 0 ∨ qty = 0 ∨ c.inBand px = false ∨ id ∈ F.ids
  · refine Or.inr ?_
    simp only [submitLimit, if_pos hbad]
    exact ⟨trivial, hlt⟩
  · have hfill : fillable s px qty c.stp owner (F.side s.opp) = true ↔
        (Lob.walk c.stp s id px owner (F.side s.opp) qty).remaining = 0 :=
      fillable_iff_walk hqty hlen
    have hle : (Lob.walk c.stp s id px owner (F.side s.opp) qty).remaining ≤ qty :=
      walk_remaining_le _ _
    have hstop : (Lob.walk c.stp s id px owner (F.side s.opp) qty).stopped = true →
        (Lob.walk c.stp s id px owner (F.side s.opp) qty).remaining ≠ 0 :=
      walk_stopped_remaining _ _
    simp only [submitLimit, if_neg hbad, execute, reduceCtorEq, and_false, false_and, if_false,
      true_and]
    generalize Lob.walk c.stp s id px owner (F.side s.opp) qty = w at hfill hle hstop ⊢
    cases hfok : fillable s px qty c.stp owner (F.side s.opp) with
    | false =>
        refine Or.inr ⟨if_pos rfl, ?_⟩
        have hrem : w.remaining ≠ 0 := fun h0 => by
          rw [hfok] at hfill
          cases hfill.mpr h0
        split_ifs <;> exact (filled_lt_iff hle).mpr hrem
    | true =>
        left
        have hrem : w.remaining = 0 := hfill.mp hfok
        have hnot : ¬ w.stopped = true := fun h => hstop h hrem
        simp only [Bool.true_eq_false, if_false, if_neg hnot, hrem]
        exact ⟨by rw [UInt32.sub_zero], trivial⟩

end Flat

namespace OrderBook

theorem side_length_lt {c : Config} {b : OrderBook} {F : Flat} (h : Book.Repr c b F)
    (hsmall : b.restingOrders < 2 ^ 32) (s : Side) : (F.side s).length < 2 ^ 32 := by
  have h1 := h.length_lt (s := s) (List.append_nil _).symm
  have h2 : Index.size b.orders < 2 ^ 32 := hsmall
  omega

/-- **The fill-or-kill check is exact**: in every reachable state it passes exactly when matching
would fill the whole quantity, and a fill-or-kill order is rejected without an event exactly when
an immediate-or-cancel order would have been filled in part only. -/
theorem fok_exact (p : Params) (hp : p.Valid) (ops : List Op)
    (hsmall : (run p ops).restingOrders < 2 ^ 32) (id : OrderId) (s : Side) (px : Int) (qty : Qty)
    (owner : Owner) (hqty : qty ≠ 0) :
    let b := run p ops
    let m := b.matchOrders (decide (p.stp ≠ .none)) s id px qty owner
    let fok := b.submitLimit id s px qty .fok owner
    let ioc := b.submitLimit id s px qty .ioc owner
    (b.fokFillable (decide (p.stp ≠ .none)) s px qty owner = true ↔ m.filled = qty) ∧
      (m.filled = qty → m.stpStopped = false) ∧
      (fok.2.1.rejected = false → fok.2.1.filled = qty ∧ fok.2.1.rested = false) ∧
      (fok.2.1.rejected = true → fok.2.2 = []) ∧
      (fok.2.1.rejected = true ↔ ioc.2.1.filled < qty) := by
  intro b m fok ioc
  have h := (run_repr hp ops).2
  have hlen := side_length_lt h hsmall s.opp
  obtain ⟨-, hfilled, hstopped, -⟩ := h.matchOrders s id px qty owner
  have hiff : m.filled = qty ↔ (walk p.stp s id px owner
      ((Transition.finalState (Flat.call p.config) {} ops).side s.opp) qty).remaining = 0 := by
    rw [show m.filled = _ from hfilled]
    exact filled_eq_iff
  obtain ⟨hfok, -⟩ := h.submitLimit id s px qty .fok owner
  obtain ⟨hioc, -⟩ := h.submitLimit id s px qty .ioc owner
  refine ⟨?_, ?_, ?_⟩
  · have hcheck : b.fokFillable (decide (p.stp ≠ .none)) s px qty owner = _ :=
      h.fokFillable_eq hqty
    rw [hiff, hcheck]
    exact fillable_iff_walk hqty hlen
  · intro hm
    rw [show m.stpStopped = _ from hstopped, ← Bool.not_eq_true]
    exact fun hs => walk_stopped_remaining _ _ hs (hiff.mp hm)
  · rw [show fok.2 = _ from hfok, show ioc.2 = _ from hioc]
    rcases Flat.submitLimit_fok p.config id px owner hqty hlen with ⟨hres, heq⟩ | ⟨hres, hlt⟩
    · rw [← heq, hres]
      refine ⟨fun _ => ⟨rfl, rfl⟩, fun hr => Bool.noConfusion hr, ?_⟩
      exact ⟨fun hr => Bool.noConfusion hr, fun hlt => absurd hlt (NaiveSide.not_lt_self qty)⟩
    · rw [hres]
      exact ⟨fun hr => Bool.noConfusion hr, fun _ => rfl, fun _ => hlt, fun _ => rfl⟩

/-- Own orders do not count towards the quantity, or end the walk before it is reached. -/
theorem fok_exact_own :
    ((run { stp := .rejectIncoming, bandHi := 9, idMapSlots := 4 }
      [.submitLimit 1 .ask 5 2 .gtc 0, .submitLimit 2 .ask 5 4 .gtc 7,
        .submitLimit 3 .ask 6 1 .gtc 8]).submitLimit 4 .bid 6 3 .fok 7).2 =
      (⟨0, false, true⟩, []) := by
  have h := fok_exact { stp := .rejectIncoming, bandHi := 9, idMapSlots := 4 }
    ⟨by decide, by decide, by decide, by decide⟩
    [.submitLimit 1 .ask 5 2 .gtc 0, .submitLimit 2 .ask 5 4 .gtc 7,
      .submitLimit 3 .ask 6 1 .gtc 8] (by decide +kernel) 4 .bid 6 3 7 (by decide)
  refine Prod.ext ?_ ?_
  · decide +kernel
  · exact h.2.2.2.1 (by decide +kernel)

end OrderBook

end Lob
