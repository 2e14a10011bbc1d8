import LimitOrderBook.OrderBook
import LimitOrderBook.RefineNaive

/-! # The final engine and the reference engine

Both hold the same flat book, the reference engine without its owners.  So without self-trade
prevention they answer alike and show the same best prices, sizes and counts after every call
(`reference_agrees`).

The reference engine has no id index, so an operation must bring in a fresh id; and it knows no
band, so prices are in the band or are rejected by both engines. -/

namespace Lob

open KeyedQueue

/-! ### Observers of an engine -/

namespace Book

variable {A L I P : Type} [Ladder L A] [Index I A] [Allocator P A (Order A)]
  [LawfulLadder L A] [LawfulIndex I A] [LawfulAllocator P A (Order A)]
  {c : Config} {b : Book L I P} {F : Flat}

theorem Repr.qtyAt (h : Repr c b F) (s : Side) (px : Int) :
    b.qtyAt s px = UInt64.ofNat (total (level Resting.price px (F.side s))) := by
  obtain ⟨ptr, hcore⟩ := h.core
  have hband : Ladder.inBand b.bids px = c.inBand px := h.inBand .bid px
  unfold Book.qtyAt
  rw [hband]
  split_ifs with hpx
  · exact (hcore.level s px hpx).totalQty
  · have hnil : level Resting.price px (F.side s) = [] :=
      level_eq_nil.mpr fun r hr he => hpx (he ▸ h.orderly.band s r hr)
    rw [hnil]
    rfl

theorem Repr.ordersAt (h : Repr c b F) (s : Side) (px : Int) :
    b.ordersAt s px = UInt32.ofNat (level Resting.price px (F.side s)).length := by
  obtain ⟨ptr, hcore⟩ := h.core
  have hband : Ladder.inBand b.bids px = c.inBand px := h.inBand .bid px
  unfold Book.ordersAt
  rw [hband]
  split_ifs with hpx
  · exact (hcore.level s px hpx).count
  · have hnil : level Resting.price px (F.side s) = [] :=
      level_eq_nil.mpr fun r hr he => hpx (he ▸ h.orderly.band s r hr)
    rw [hnil]
    rfl

theorem Repr.restingOrders (h : Repr c b F) : b.restingOrders = F.ids.length := by
  obtain ⟨ptr, hcore⟩ := h.core
  exact hcore.size

theorem Repr.best (h : Repr c b F) (s : Side) :
    b.best s = ((F.side s).head?.map Resting.price).getD kNoPrice := by
  rw [Book.best, h.best?_eq]

end Book

/-! ### Whole runs -/

namespace NaiveBook

def new (p : Params) : NaiveBook := { protection := p.protection }

/-- The reference engine after a run. -/
def run (p : Params) (ops : List Op) : NaiveBook := Transition.finalState call (new p) ops

def answers (p : Params) (ops : List Op) : List Answer := Transition.outputs call (new p) ops

theorem new_sim (p : Params) : Sim p.config (new p) {} where
  flat s := by cases s <;> rfl
  noEmpty s e he := by cases s <;> cases he
  protection := rfl

end NaiveBook

/-- An operation that the two engines may be compared on, in the state `b` of the final one. -/
structure Op.Comparable (p : Params) (b : OrderBook) (op : Op) : Prop where
  names : op.NamesOrder
  fresh : ∀ id ∈ op.newId?, b.orders.find id = none
  priced : op.PricedIn p
  small : b.restingOrders < 2 ^ 32

/-- Freshness, as a test. -/
theorem Op.fresh_of_all {b : OrderBook} {op : Op}
    (h : (op.newId?.all fun id => (b.orders.find id).isNone) = true) :
    ∀ id ∈ op.newId?, b.orders.find id = none := by
  intro id hid
  rw [Option.mem_def.mp hid] at h
  exact Option.isNone_iff_eq_none.mp h

/-- The final engine and the reference engine hold one book. -/
def SameBook (p : Params) (b : OrderBook) (n : NaiveBook) : Prop :=
  ∃ F, Book.Repr p.config b F ∧ n.Sim p.config F

/-- What `best_bid`, `best_ask`, `resting_orders` and `qty_at` show. -/
structure SameView (b : OrderBook) (n : NaiveBook) : Prop where
  best : ∀ s, n.best s = b.best s
  restingOrders : n.restingOrders = b.restingOrders
  qtyAt : ∀ s px, n.qtyAt s px = b.qtyAt s px

section agree

variable {p : Params}

theorem SameBook.view {b : OrderBook} {n : NaiveBook} (h : SameBook p b n) : SameView b n := by
  obtain ⟨F, hb, hn⟩ := h
  refine ⟨fun s => ?_, ?_, fun s px => ?_⟩
  · rw [hb.best, NaiveBook.best, hn.firstKey?]
  · rw [hb.restingOrders, hn.restingOrders]
  · rw [hb.qtyAt, hn.qtyAt]

/-- What the reference engine relies on holds of the configuration. -/
theorem Params.band (hp : p.Valid) (hstp : p.stp = .none) (hprot : 0 ≤ p.protection)
    (hfit : p.bandHi + p.protection ≤ kMaxPrice) : NaiveBook.Sim.Band p.config where
  stp := hstp
  pos px hpx := by
    have hpx' : p.inBand px = true := hpx
    have hlo := hp.lo_pos
    simp only [Params.inBand, Bool.and_eq_true, decide_eq_true_eq] at hpx'
    omega

theorem SameBook.call (hband : NaiveBook.Sim.Band p.config) {b : OrderBook} {n : NaiveBook} {op : Op}
    (h : SameBook p b n) (hop : op.Comparable p b) :
    (b.call op).2 = (n.call op).2 ∧ SameBook p (b.call op).1 (n.call op).1 := by
  obtain ⟨F, hb, hn⟩ := h
  obtain ⟨hans, hrepr⟩ := hb.call op
  have hnew : ∀ id ∈ op.newId?, id ∉ F.ids := by
    intro id hid hm
    have hsome := (hb.find_isSome id).mpr hm
    rw [show Index.find b.orders id = none from hop.fresh id hid] at hsome
    cases hsome
  have hsmall : F.ids.length < 2 ^ 32 := by
    rw [← hb.restingOrders]
    exact hop.small
  obtain ⟨hans', hsim⟩ := hn.call hb.wf hband hop.names hnew hop.priced hsmall
  exact ⟨hans.trans hans'.symm, _, hrepr, hsim⟩

/-- **The final engine refines the reference engine**: without self-trade prevention and with
the same market protection, all answers agree, and so do the views after every call. -/
theorem reference_agrees (p : Params) (hp : p.Valid) (hstp : p.stp = .none)
    (hprot : 0 ≤ p.protection) (hfit : p.bandHi + p.protection ≤ kMaxPrice) (ops : List Op)
    (hops : Transition.Along Book.call (fun b op => op.Comparable p b) (OrderBook.new p) ops) :
    NaiveBook.answers p ops = OrderBook.answers p ops ∧
      ∀ pre ∈ ops.inits, SameView (OrderBook.run p pre) (NaiveBook.run p pre) := by
  have hband := Params.band hp hstp hprot hfit
  have hnew : SameBook p (OrderBook.new p) (NaiveBook.new p) :=
    ⟨{}, OrderBook.new_repr hp, NaiveBook.new_sim p⟩
  have hstep : ∀ (b : OrderBook) (n : NaiveBook) (op : Op), SameBook p b n → op.Comparable p b →
      (b.call op).2 = (n.call op).2 ∧ SameBook p (b.call op).1 (n.call op).1 :=
    fun b n op h hop => h.call hband hop
  have hsim : ∀ is, Transition.Along Book.call (fun b op => op.Comparable p b) (OrderBook.new p) is →
      OrderBook.answers p is = NaiveBook.answers p is ∧
        SameBook p (OrderBook.run p is) (NaiveBook.run p is) := fun is his =>
    Transition.outputs_eq_of_sim hstep hnew his
  refine ⟨(hsim ops hops).1.symm, fun pre hpre => ?_⟩
  obtain ⟨post, rfl⟩ := (List.mem_inits pre ops).mp hpre
  exact (hsim pre ((Transition.along_append _ _ _).mp hops).1).2.view

/-- A protected sweep, a fill-or-kill that fails and a repriced maker. -/
theorem reference_agrees_small :
    NaiveBook.answers { protection := 1, bandHi := 9, idMapSlots := 4 }
      [.submitLimit 1 .ask 5 2 .gtc 0, .submitLimit 2 .ask 7 4 .gtc 0, .submitMarket 3 .bid 6 0,
        .submitLimit 3 .bid 7 5 .fok 0, .submitLimit 3 .bid 4 5 .gtc 0, .modify 2 4 6] =
      OrderBook.answers { protection := 1, bandHi := 9, idMapSlots := 4 }
      [.submitLimit 1 .ask 5 2 .gtc 0, .submitLimit 2 .ask 7 4 .gtc 0, .submitMarket 3 .bid 6 0,
        .submitLimit 3 .bid 7 5 .fok 0, .submitLimit 3 .bid 4 5 .gtc 0, .modify 2 4 6] := by
  refine (reference_agrees _ ⟨by decide, by decide, by decide, by decide⟩ rfl (by decide) (by decide)
    _ ?_).1
  refine ⟨?_, ?_, ?_, ?_, ?_, ?_, trivial⟩ <;>
    exact ⟨by decide, Op.fresh_of_all (by decide +kernel), by decide, by decide +kernel⟩

end agree

end Lob
