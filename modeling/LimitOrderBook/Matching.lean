import LimitOrderBook.OrderBook
import LimitOrderBook.Tape

/-! # Matching is a walk along one queue

In every reachable state of the final engine, an incoming order does to the memory what `walk`
does to the opposite side read as one list, best price first and first come first served within
a price (`submit_eq_walk`).  The two-level loop, the cached best price and the bitmap leave no
trace in the outcome. -/

namespace Lob

namespace OrderBook

/-- A call that leaves the engine `b`, a fill and a tape did what the walk of `t` does. -/
structure Walks (t : Taker) (stp : Stp) (b : OrderBook) (filled : Qty) (tape : List Event) :
    Prop where
  tape : tape = (t.walk stp).tape
  filled : filled.toNat + (t.walk stp).remaining.toNat = t.qty.toNat
  book : b.flat = t.after stp

/-- The flags of a limit order, from its walk. -/
structure Flags (t : Taker) (stp : Stp) (r : SubmitResult) : Prop where
  rested : r.rested = true ↔ t.Rests stp
  rejected : r.rejected = true ↔ (t.walk stp).stopped = true ∧ (t.walk stp).remaining = t.qty

theorem filled_eq_zero_iff {qty rem : Qty} : qty - rem = 0 ↔ rem = qty :=
  (UInt32.sub_eq_iff_eq_add.trans (by rw [UInt32.zero_add])).trans eq_comm

variable {c : Config} {b : OrderBook} {F : Flat} {id : OrderId} {s : Side} {px : Int} {qty : Qty}
  {tif : Tif} {owner : Owner}

theorem limit_of_repr (h : Book.Repr c b F) (hid : id ≠ 0) (hqty : qty ≠ 0)
    (hband : c.inBand px = true) (hnew : id ∉ F.ids)
    (hfok : tif = .fok → fillable s px qty c.stp owner (F.side s.opp) = true) :
    let t : Taker := ⟨F, s, id, px, qty, owner, decide (tif = .gtc)⟩
    let x := b.submitLimit id s px qty tif owner
    Walks t c.stp x.1 x.2.1.filled x.2.2 ∧ Flags t c.stp x.2.1 := by
  intro t x
  obtain ⟨hans, hrepr⟩ : Book.Agrees c x (F.execute c s id px qty tif owner) :=
    h.submitLimit_valid hid hqty hband hnew
  rcases F.execute_cases c s id px qty tif owner with ⟨hkill, -⟩ | hexec
  · rw [hfok hkill.1] at hkill
    cases hkill.2
  · rw [hexec] at hans hrepr
    refine ⟨⟨by rw [hans], ?_, flat_eq hrepr⟩, ⟨by rw [hans, decide_eq_true_iff], ?_⟩⟩
    · rw [hans]
      exact t.filled_add c.stp
    · rw [hans, decide_eq_true_iff]
      exact and_congr Iff.rfl filled_eq_zero_iff

theorem market_of_repr (h : Book.Repr c b F) (hid : id ≠ 0) (hqty : qty ≠ 0)
    (hnew : id ∉ F.ids) {limit : Int} (hlimit : F.marketLimit c s = some limit) :
    let x := b.submitMarket id s qty owner
    Walks ⟨F, s, id, limit, qty, owner, false⟩ c.stp x.1 x.2.1 x.2.2 := by
  intro x
  obtain ⟨hans, hrepr⟩ : Book.Agrees c x (F.submitMarket c id s qty owner) :=
    h.submitMarket id s qty owner
  have hbad : ¬ (id = 0 ∨ qty = 0 ∨ id ∈ F.ids) := by simp [hid, hqty, hnew]
  rw [Flat.submitMarket, if_neg hbad, hlimit] at hans hrepr
  refine ⟨by rw [hans]; rfl, ?_, ?_⟩
  · rw [hans]
    exact Taker.filled_add ⟨F, s, id, limit, qty, owner, false⟩ c.stp
  · rw [flat_eq hrepr]
    simp [Taker.after, Taker.Rests, Taker.swept, Taker.walk]

/-- **Matching is the walk**: in every reachable state, the tape, the fill and the book that a
limit or market order leaves are those of its walk along the opposite side of the book. -/
theorem submit_eq_walk (p : Params) (hp : p.Valid) (ops : List Op) :
    (∀ id s px qty tif owner, id ≠ 0 → qty ≠ 0 → p.inBand px = true →
      (run p ops).orders.find id = none →
      (tif = .fok →
        (run p ops).fokFillable (decide (p.stp ≠ .none)) s px qty owner = true) →
      let t : Taker := ⟨(run p ops).flat, s, id, px, qty, owner, decide (tif = .gtc)⟩
      let x := (run p ops).submitLimit id s px qty tif owner
      Walks t p.stp x.1 x.2.1.filled x.2.2 ∧ Flags t p.stp x.2.1) ∧
    (∀ id s qty owner limit, id ≠ 0 → qty ≠ 0 → (run p ops).orders.find id = none →
      (run p ops).marketLimit s = some limit →
      let t : Taker := ⟨(run p ops).flat, s, id, limit, qty, owner, false⟩
      let x := (run p ops).submitMarket id s qty owner
      Walks t p.stp x.1 x.2.1 x.2.2) := by
  have h := (run_repr hp ops).2
  have hnew : ∀ id, (run p ops).orders.find id = none →
      id ∉ (Transition.finalState (Flat.call p.config) {} ops).ids := by
    intro id hfind hm
    have hsome : (Index.find (run p ops).orders id).isSome = true := (h.find_isSome id).mpr hm
    rw [show Index.find (run p ops).orders id = none from hfind] at hsome
    cases hsome
  rw [flat_eq h]
  refine ⟨?_, ?_⟩
  · intro id s px qty tif owner hid hqty hband hfind hfok
    refine limit_of_repr h hid hqty hband (hnew id hfind) fun ht => ?_
    rw [← h.fokFillable_eq hqty]
    exact hfok ht
  · intro id s qty owner limit hid hqty hfind hlimit
    exact market_of_repr h hid hqty (hnew id hfind) ((h.marketLimit s).symm.trans hlimit)

/-- An own order is killed between two fills. -/
theorem submit_eq_walk_kill :
    ((run { stp := .cancelResting, bandHi := 9, idMapSlots := 4 }
      [.submitLimit 1 .ask 5 2 .gtc 0, .submitLimit 2 .ask 5 4 .gtc 7,
        .submitLimit 3 .ask 6 1 .gtc 8]).submitLimit 4 .bid 6 9 .gtc 7).2.2 =
      [.trade 4 1 5 2, .cancel 2 7, .trade 4 3 6 1] := by
  have h := (submit_eq_walk { stp := .cancelResting, bandHi := 9, idMapSlots := 4 }
    ⟨by decide, by decide, by decide, by decide⟩
    [.submitLimit 1 .ask 5 2 .gtc 0, .submitLimit 2 .ask 5 4 .gtc 7,
      .submitLimit 3 .ask 6 1 .gtc 8]).1 4 .bid 6 9 .gtc 7 (by decide) (by decide) (by decide)
    (by decide +kernel) (by decide)
  rw [h.1.tape]
  decide +kernel

end OrderBook

end Lob
