import LimitOrderBook.FillOrKill
import LimitOrderBook.Matching

/-! # Refused operations

A submission that is rejected, a cancel that fails and an amend that is turned down leave the
engine exactly as it was, memory included.  Most of them return before the first write; an order
that self-trade prevention stops before it trades has entered the matching loop, but the order it
is stopped by is the first one it meets, and the level is written back as it was read
(`OrderBook.matchOrders_block`).

Conversely an order that is not rejected, does not trade and does not rest came to sweep what
crosses and found only orders of its own owner (`walk_idle`). -/

namespace Lob

open KeyedQueue

section walk

variable {stp : Stp} {s : Side} {taker : OrderId} {limit : Int} {owner : Owner}

/-- After a trade less is open than before. -/
theorem walk_remaining_ne (q : List Resting) {n k : Qty} (hk : k ≠ 0) (hle : k ≤ n) :
    (walk stp s taker limit owner q (n - k)).remaining ≠ n := by
  intro hrem
  have hpos : k.toNat ≠ 0 := fun h0 => hk (UInt32.toNat_inj.mp h0)
  have hkn : k.toNat ≤ n.toNat := hle
  have hlt : (walk stp s taker limit owner q (n - k)).remaining ≤ n - k := walk_remaining_le _ _
  rw [hrem, UInt32.le_iff_toNat_le, UInt32.toNat_sub_of_le _ _ hle] at hlt
  omega

/-- A walk that is stopped before it trades is stopped by the order at the front. -/
theorem walk_blocked {q : List Resting} {n : Qty} (hqty : ∀ r ∈ q, r.qty ≠ 0)
    (hstop : (walk stp s taker limit owner q n).stopped = true)
    (hrem : (walk stp s taker limit owner q n).remaining = n) :
    stp = .rejectIncoming ∧ ∃ r q', q = r :: q' ∧ crosses s r.price limit = true ∧
      r.Own stp owner := by
  have hstp := (walk_stopped q n hstop).1
  refine ⟨hstp, ?_⟩
  cases q with
  | nil => cases hstop
  | cons r q =>
      revert hstop hrem
      refine walk_cases r q n (fun w => w.stopped = true → w.remaining = n → ∃ r' q',
        r :: q = r' :: q' ∧ crosses s r'.price limit = true ∧ r'.Own stp owner) ?_ ?_ ?_ ?_ ?_
      · intro _ h
        cases h
      · intro _ hc ho _ _ _
        exact ⟨r, q, rfl, hc, ho⟩
      · intro _ _ _ hs
        rw [hstp] at hs
        cases hs
      · intro _ _ _ _ h
        cases h
      · intro _ _ _ hle _ hrem
        exact absurd hrem (walk_remaining_ne q (hqty r List.mem_cons_self) hle)

/-- **A walk that is not stopped and trades nothing** finds only own orders, and kills them. -/
theorem walk_idle : ∀ (q : List Resting) (n : Qty), n ≠ 0 → (∀ r ∈ q, r.qty ≠ 0) →
    (walk stp s taker limit owner q n).stopped = false →
    (walk stp s taker limit owner q n).remaining = n →
    (∀ r ∈ q.takeWhile fun r => crosses s r.price limit,
      r.Own stp owner ∧ stp = .cancelResting) ∧
    walk stp s taker limit owner q n =
      ⟨q.dropWhile fun r => crosses s r.price limit, n, false,
        (q.takeWhile fun r => crosses s r.price limit).map fun r => .cancel r.id r.owner⟩
  | [], n, _, _ => by
      intro _ _
      refine ⟨fun r hr => ?_, rfl⟩
      cases hr
  | r :: q, n, hn, hqty => by
      have htail : ∀ r' ∈ q, r'.qty ≠ 0 := fun r' h => hqty r' (List.mem_cons_of_mem _ h)
      refine walk_cases r q n (fun w => w.stopped = false → w.remaining = n →
        (∀ r' ∈ (r :: q).takeWhile fun r => crosses s r.price limit,
          r'.Own stp owner ∧ stp = .cancelResting) ∧
        w = ⟨(r :: q).dropWhile fun r => crosses s r.price limit, n, false,
          ((r :: q).takeWhile fun r => crosses s r.price limit).map
            fun r => .cancel r.id r.owner⟩) ?_ ?_ ?_ ?_ ?_
      · intro h _ _
        have hc : crosses s r.price limit = false := h.resolve_left hn
        have hnil : (r :: q).takeWhile (fun r => crosses s r.price limit) = [] := by simp [hc]
        have hall : (r :: q).dropWhile (fun r => crosses s r.price limit) = r :: q := by simp [hc]
        rw [hnil, hall]
        exact ⟨fun r' hr' => absurd hr' List.not_mem_nil, rfl⟩
      · intro _ _ _ _ h
        cases h
      · intro _ hc ho hs hstop hrem
        obtain ⟨hall, hw⟩ := walk_idle q n hn htail hstop hrem
        simp only [List.takeWhile_cons, List.dropWhile_cons, hc, if_true]
        refine ⟨fun r' hr' => ?_, by rw [hw]; rfl⟩
        rcases List.mem_cons.mp hr' with rfl | hr'
        · exact ⟨ho, hs⟩
        · exact hall r' hr'
      · intro _ _ _ _ _ h
        exact absurd h.symm hn
      · intro _ _ _ hle _ hrem
        exact absurd hrem (walk_remaining_ne q (hqty r List.mem_cons_self) hle)

end walk

/-! ### The engine -/

namespace FlatLadder

theorem setLevel_self {A : Type} (l : FlatLadder A) (px : Int) :
    l.setLevel px (l.level px) = l := by
  rcases Nat.lt_or_ge (l.idx px) l.levels.length with hlt | hge
  · have hget : l.levels.getD (l.idx px) {} = l.levels[l.idx px] :=
      (List.getElem_eq_getD _).symm
    rw [setLevel, level, hget, List.set_getElem_self]
  · rw [setLevel, List.set_eq_of_length_le hge]

end FlatLadder

namespace OrderBook

variable {c : Config} {b : OrderBook} {F : Flat} {id : OrderId} {s : Side} {limit : Int} {qty : Qty}
  {owner : Owner}

theorem withLadder_self (b : OrderBook) (s : Side) : b.withLadder s (b.ladder s) = b := by
  cases s <;> rfl

/-- **An order stopped by the first one it meets leaves no trace**: what the loops write back is
what they read. -/
theorem matchOrders_block (h : Book.Repr c b F) {r : Resting} {q : List Resting}
    (hside : F.side s.opp = r :: q) (hc : crosses s r.price limit = true) (ho : r.Own c.stp owner)
    (hstp : c.stp = .rejectIncoming) (hqty : qty ≠ 0) :
    b.matchOrders (decide (b.stp ≠ .none)) s id limit qty owner = ⟨b, 0, true, []⟩ := by
  obtain ⟨ptr, hcore⟩ := h.core
  have hr : r ∈ F.side s.opp := by
    rw [hside]
    exact List.mem_cons_self
  have hnode := hcore.node hr
  have hbest := h.best?_cons hside
  have hhead : (Ladder.level (b.ladder s.opp) r.price).head = some (ptr r.id) := by
    have hlevel := (hcore.level s.opp r.price (h.wf.band _ r hr)).head
    rw [hside, level_cons_self] at hlevel
    exact hlevel
  have hon : decide (b.stp ≠ .none) = true ∧ owner ≠ 0 ∧
      (Allocator.deref b.pool (ptr r.id)).owner = owner := by
    rw [h.stp, hnode.owner]
    exact ⟨decide_eq_true ho.1, ho.2⟩
  have hb : b.stp = .rejectIncoming := h.stp.trans hstp
  have hsettle : b.settle s.opp r.price
      ⟨b.pool, b.orders, Ladder.level (b.ladder s.opp) r.price, qty, true, []⟩ = b := by
    simp only [Book.settle, hhead, Option.isNone_some, Bool.false_eq_true, if_false]
    have hself : Ladder.setLevel (b.ladder s.opp) r.price (Ladder.level (b.ladder s.opp) r.price) =
        b.ladder s.opp := FlatLadder.setLevel_self _ _
    rw [hself]
    exact withLadder_self b s.opp
  have hfill : Book.fillLevel b.stp (decide (b.stp ≠ .none)) id owner
      (Index.size b.orders + 1) (some (ptr r.id))
      ⟨b.pool, b.orders, Ladder.level (b.ladder s.opp) r.price, qty, false, []⟩ =
      ⟨b.pool, b.orders, Ladder.level (b.ladder s.opp) r.price, qty, true, []⟩ := by
    rw [Book.fillLevel, if_pos hon, if_pos hb]
  simp only [Book.matchOrders, Book.matchLevels, if_neg hqty, hbest, hc, if_true, hhead, hfill,
    hsettle, UInt32.sub_self]

/-- A submission that is rejected leaves no trace. -/
theorem submitLimit_rejected (h : Book.Repr c b F) {tif : Tif}
    (hrej : (b.submitLimit id s limit qty tif owner).2.1.rejected = true) :
    b.submitLimit id s limit qty tif owner = (b, Book.rejection, []) := by
  revert hrej
  rw [Book.submitLimit]
  by_cases hbad : id = 0 ∨ qty = 0 ∨ Ladder.inBand b.bids limit = false
  · rw [if_pos hbad]
    exact fun _ => rfl
  rw [if_neg hbad]
  by_cases hlive : (Index.find b.orders id).isSome = true
  · rw [if_pos hlive]
    exact fun _ => rfl
  rw [if_neg hlive, Book.execute]
  by_cases hfok : tif = .fok ∧
      b.fokFillable (decide (b.stp ≠ .none)) s limit qty owner = false
  · rw [if_pos hfok]
    exact fun _ => rfl
  have hqty : qty ≠ 0 := fun h0 => hbad (Or.inr (Or.inl h0))
  obtain ⟨-, hfilled, hstopped, -⟩ := h.matchOrders s id limit qty owner
  rw [← h.stp] at hfilled hstopped
  simp only [if_neg hfok]
  split_ifs with hstop hrest
  · intro hrej
    have hzero : (b.matchOrders (decide (b.stp ≠ .none)) s id limit qty owner).filled = 0 :=
      of_decide_eq_true hrej
    rw [hfilled, filled_eq_zero_iff] at hzero
    rw [hstopped] at hstop
    obtain ⟨hstp, r, q, hside, hc, ho⟩ := walk_blocked (h.wf.qty_ne s.opp) hstop hzero
    rw [h.stp] at hstp ho
    rw [matchOrders_block h hside hc ho hstp hqty]
    rfl
  · intro hrej
    cases hrej
  · intro hrej
    cases hrej

end OrderBook

/-- Does a reply turn the request down? -/
def Reply.declined : Reply → Bool
  | .submit r => r.rejected
  | .market _ => false
  | .cancel ok => !ok
  | .modify r => !r.ok

namespace OrderBook

variable {c : Config} {b : OrderBook} {F : Flat}

theorem call_declined (h : Book.Repr c b F) (op : Op) (hdec : (b.call op).2.1.declined = true) :
    (b.call op).1 = b ∧ (b.call op).2.1.Refuses ∧ (b.call op).2.2 = [] := by
  cases op with
  | submitLimit id s px qty tif owner =>
      have hrej := submitLimit_rejected h hdec
      simp only [Book.call, Book.callWith, hrej]
      exact ⟨trivial, rfl, trivial⟩
  | submitMarket id s qty owner => cases hdec
  | cancel id =>
      revert hdec
      simp only [Book.call, Book.callWith, Book.cancel]
      split
      · exact fun _ => ⟨rfl, rfl, trivial⟩
      · intro hdec
        cases hdec
  | modify id px qty =>
      revert hdec
      simp only [Book.call, Book.callWith, Book.modifyWith]
      split
      · exact fun _ => ⟨rfl, ⟨rfl, rfl, rfl⟩, rfl⟩
      · split_ifs
        · exact fun _ => ⟨rfl, ⟨rfl, rfl, rfl⟩, rfl⟩
        · intro hdec
          cases hdec
        · intro hdec
          cases hdec

end OrderBook

/-! ### Orders without effect -/

/-- In an ordered queue the crossing orders come first. -/
theorem filter_crosses {s : Side} (limit : Int) : ∀ {q : List Resting},
    Ordered (better s.opp) Resting.price q →
    (q.filter fun r => crosses s r.price limit) = (q.takeWhile fun r => crosses s r.price limit) ∧
      (q.filter fun r => !crosses s r.price limit) = q.dropWhile fun r => crosses s r.price limit
  | [], _ => ⟨rfl, rfl⟩
  | r :: q, hord => by
      obtain ⟨h1, h2⟩ := filter_crosses limit hord.tail
      cases hc : crosses s r.price limit with
      | true => simp [hc, h1, h2]
      | false =>
          have hall : ∀ r' ∈ q, crosses s r'.price limit = false := fun r' hr' =>
            Flat.not_crosses_of_head hord hc r' (List.mem_cons_of_mem _ hr')
          have hnone : (q.filter fun r => crosses s r.price limit) = [] := by
            rw [List.filter_eq_nil_iff]
            intro r' hr'
            simp [hall r' hr']
          have hself : (q.filter fun r => !crosses s r.price limit) = q := by
            rw [List.filter_eq_self]
            intro r' hr'
            simp [hall r' hr']
          simp [hc, hnone, hself]

/-- A submission that is accepted without effect on its own side: an immediate-or-cancel order
that meets own orders only. -/
theorem Flat.submitLimit_idle {c : Config} {F : Flat} (hF : F.WF c) {id : OrderId} {s : Side}
    {px : Int} {qty : Qty} {tif : Tif} {owner : Owner} (hlen : (F.side s.opp).length < 2 ^ 32)
    (hrej : (F.submitLimit c id s px qty tif owner).2.1.rejected = false)
    (hfilled : (F.submitLimit c id s px qty tif owner).2.1.filled = 0)
    (hrested : (F.submitLimit c id s px qty tif owner).2.1.rested = false) :
    tif = .ioc ∧
      (∀ r ∈ F.side s.opp, crosses s r.price px = true →
        r.Own c.stp owner ∧ c.stp = .cancelResting) ∧
      (F.submitLimit c id s px qty tif owner).2.2 =
        ((F.side s.opp).filter fun r => crosses s r.price px).map
          (fun r => .cancel r.id r.owner) ∧
      (F.submitLimit c id s px qty tif owner).1 =
        F.withSide s.opp ((F.side s.opp).filter fun r => !crosses s r.price px) := by
  revert hrej hfilled hrested
  rw [submitLimit]
  by_cases hbad : id = 0 ∨ qty = 0 ∨ c.inBand px = false ∨ id ∈ F.ids
  · rw [if_pos hbad]
    intro hrej
    cases hrej
  rw [if_neg hbad]
  have hqty : qty ≠ 0 := fun h0 => hbad (Or.inr (Or.inl h0))
  rw [execute]
  by_cases hkill : tif = .fok ∧ fillable s px qty c.stp owner (F.side s.opp) = false
  · rw [if_pos hkill]
    intro hrej
    cases hrej
  simp only [if_neg hkill]
  -- Neither a stop nor a remainder that rests: the walk left everything open.
  split_ifs with hstop hrest
  · intro hrej hfilled
    exact absurd hfilled (of_decide_eq_false hrej)
  · intro _ _ hrested
    cases hrested
  · intro _ hfilled _
    have hrem : (Lob.walk c.stp s id px owner (F.side s.opp) qty).remaining = qty :=
      OrderBook.filled_eq_zero_iff.mp hfilled
    have hopen : (Lob.walk c.stp s id px owner (F.side s.opp) qty).remaining ≠ 0 := fun h0 =>
      hqty (hrem.symm.trans h0)
    rw [Bool.not_eq_true] at hstop
    obtain ⟨hall, hw⟩ := walk_idle _ _ hqty (hF.qty_ne s.opp) hstop hrem
    obtain ⟨htake, hdrop⟩ := filter_crosses px (hF.ordered s.opp)
    refine ⟨?_, ?_, ?_, ?_⟩
    · cases tif with
      | gtc => exact absurd ⟨hopen, rfl⟩ hrest
      | ioc => rfl
      | fok =>
          have hfill : fillable s px qty c.stp owner (F.side s.opp) = true := by
            by_contra hno
            exact hkill ⟨rfl, Bool.not_eq_true _ ▸ hno⟩
          exact absurd ((fillable_iff_walk hqty hlen).mp hfill) hopen
    · intro r hr hc
      refine hall r ?_
      rw [← htake]
      exact List.mem_filter.mpr ⟨hr, hc⟩
    · rw [hw, htake]
    · rw [hw, hdrop]

namespace OrderBook

/-- **What is refused changes nothing**, and a submission that is not refused but has no effect of
its own is an immediate-or-cancel order that met own orders only, under `CancelResting`. -/
theorem refused_unchanged (p : Params) (hp : p.Valid) (ops : List Op)
    (hsmall : (run p ops).restingOrders < 2 ^ 32) :
    (∀ op, ((run p ops).call op).2.1.declined = true →
      ((run p ops).call op).1 = run p ops ∧ ((run p ops).call op).2.1.Refuses ∧
        ((run p ops).call op).2.2 = []) ∧
    ∀ id s px qty tif owner,
      let q := (run p ops).flat.side s.opp
      let x := (run p ops).submitLimit id s px qty tif owner
      x.2.1.rejected = false → x.2.1.filled = 0 → x.2.1.rested = false →
      tif = .ioc ∧
        (∀ r ∈ q, crosses s r.price px = true → r.Own p.stp owner ∧ p.stp = .cancelResting) ∧
        x.2.2 = (q.filter fun r => crosses s r.price px).map (fun r => .cancel r.id r.owner) ∧
        flat x.1 = (run p ops).flat.withSide s.opp (q.filter fun r => !crosses s r.price px) := by
  have h := (run_repr hp ops).2
  refine ⟨fun op => call_declined h op, fun id s px qty tif owner => ?_⟩
  intro q x hrej hfilled hrested
  obtain ⟨hres, hrepr⟩ := h.submitLimit id s px qty tif owner
  have hq : q = (Transition.finalState (Flat.call p.config) {} ops).side s.opp :=
    congrArg (fun F => Flat.side F s.opp) (flat_eq h)
  have hx : x.2 = _ := hres
  rw [hx] at hrej hfilled hrested
  obtain ⟨htif, hown, htape, hbook⟩ :=
    Flat.submitLimit_idle h.wf (side_length_lt h hsmall s.opp) hrej hfilled hrested
  refine ⟨htif, ?_, ?_, ?_⟩
  · rw [hq]
    exact hown
  · rw [hx, hq]
    exact htape
  · rw [show flat x.1 = _ from flat_eq hrepr, hbook, hq, flat_eq h]

/-- A stopped order, and a sweep that finds own orders only. -/
theorem refused_unchanged_own :
    ((run { stp := .rejectIncoming, bandHi := 9, idMapSlots := 4 }
      [.submitLimit 1 .ask 5 2 .gtc 7]).call (.submitLimit 2 .bid 6 3 .gtc 7)).1 =
      run { stp := .rejectIncoming, bandHi := 9, idMapSlots := 4 } [.submitLimit 1 .ask 5 2 .gtc 7] ∧
    ((run { stp := .cancelResting, bandHi := 9, idMapSlots := 4 }
      [.submitLimit 1 .ask 5 2 .gtc 7]).submitLimit 2 .bid 6 3 .ioc 7).2.2 = [.cancel 1 7] := by
  have h := refused_unchanged { stp := .rejectIncoming, bandHi := 9, idMapSlots := 4 }
    ⟨by decide, by decide, by decide, by decide⟩ [.submitLimit 1 .ask 5 2 .gtc 7] (by decide +kernel)
  have h' := refused_unchanged { stp := .cancelResting, bandHi := 9, idMapSlots := 4 }
    ⟨by decide, by decide, by decide, by decide⟩ [.submitLimit 1 .ask 5 2 .gtc 7] (by decide +kernel)
  refine ⟨(h.1 (.submitLimit 2 .bid 6 3 .gtc 7) (by decide +kernel)).1, ?_⟩
  refine (h'.2 2 .bid 6 3 .ioc 7 (by decide +kernel) (by decide +kernel) (by decide +kernel)).2.2.1.trans ?_
  decide +kernel

end OrderBook

end Lob
