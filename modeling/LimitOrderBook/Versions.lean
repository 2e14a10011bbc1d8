import LimitOrderBook.OrderBook
import LimitOrderBook.RefineV1
import LimitOrderBook.StdParts

/-! # The optimisation chain

The engines `v1` (`engines/book_v1.hpp`), `v4`, `v5` and the final one, over their own parts.
They refine one flat book, so they answer alike: every return value and every event of the tape,
under every self-trade policy (`versions_agree`).

The engines on a search tree accept every positive price and those on a flat ladder the prices
of a band, so the operations must be priced in the band, or at `0` or below, where every engine
rejects them. -/

namespace Lob

/-- The answers of the flat book depend on the band through the price of the operation only. -/
theorem Flat.call_congr (c c' : Config) (hstp : c.stp = c'.stp)
    (hprot : c.protection = c'.protection) {op : Op}
    (hband : ∀ px ∈ op.price?, c.inBand px = c'.inBand px) (F : Flat) :
    F.call c op = F.call c' op := by
  cases op with
  | submitLimit id s px qty tif owner =>
      simp only [Flat.call, Flat.submitLimit, Flat.execute, hstp, hband px rfl]
  | submitMarket id s qty owner =>
      simp only [Flat.call, Flat.submitMarket, Flat.marketLimit, hstp, hprot]
  | cancel id => rfl
  | modify id px qty =>
      simp only [Flat.call, Flat.modify, Flat.execute, hstp, hband px rfl]

/-! ### The engines -/

abbrev BookV1 := Book (TreeLadder ℕ) (HashIndex ℕ) (Heap (Order ℕ))
abbrev BookV4 := Book (TreeLadder Addr) (HashIndex Addr) (Pool (Order Addr) 64)
abbrev BookV5 := Book (FlatLadder Addr) (HashIndex Addr) (Pool (Order Addr) 64)

namespace BookV1

def new (p : Params) : BookV1 where
  bids := TreeLadder.new .bid
  asks := TreeLadder.new .ask
  orders := OrdMap.empty
  stp := p.stp
  pool := {}

def answers (p : Params) (ops : List Op) : List Answer :=
  Transition.outputs Book.V1.call (new p) ops

end BookV1

namespace BookV4

def new (p : Params) : BookV4 where
  bids := TreeLadder.new .bid
  asks := TreeLadder.new .ask
  orders := OrdMap.empty
  stp := p.stp
  pool := Pool.new p.poolCapacity

def answers (p : Params) (ops : List Op) : List Answer :=
  Transition.outputs Book.V4.call (new p) ops

end BookV4

namespace BookV5

def new (p : Params) : BookV5 where
  bids := FlatLadder.new p.bandLo p.bandHi
  asks := FlatLadder.new p.bandLo p.bandHi
  orders := OrdMap.empty
  stp := p.stp
  pool := Pool.new p.poolCapacity

def answers (p : Params) (ops : List Op) : List Answer :=
  Transition.outputs Book.V4.call (new p) ops

end BookV5

/-! ### Each refines the flat book -/

/-- What the engines on a search tree accept. -/
def Params.treeConfig (p : Params) : Config := ⟨p.stp, fun px => decide (0 < px), 0⟩

/-- What `v5` accepts. -/
def Params.flatConfig (p : Params) : Config := ⟨p.stp, p.inBand, 0⟩

variable {p : Params}

theorem BookV1.new_repr (p : Params) : Book.Repr p.treeConfig (BookV1.new p) {} := by
  have hside : ∀ s, (BookV1.new p).ladder s = TreeLadder.new s := by
    intro s
    cases s <;> rfl
  refine Book.Repr.of_fresh ?_ ?_ ?_ trivial (fun _ => rfl) rfl (fun _ _ => rfl)
    (fun _ h => h rfl) rfl rfl
  · intro s
    rw [hside]
    exact TreeLadder.new_wf s
  · intro s px
    rw [hside]
    exact TreeLadder.new_not_occ s px
  · intro s px
    rfl

theorem BookV4.new_repr (p : Params) : Book.Repr p.treeConfig (BookV4.new p) {} := by
  have hside : ∀ s, (BookV4.new p).ladder s = TreeLadder.new s := by
    intro s
    cases s <;> rfl
  refine Book.Repr.of_fresh ?_ ?_ ?_ trivial (fun _ => rfl) rfl (Pool.new_wf _)
    (Pool.new_not_live _) rfl rfl
  · intro s
    rw [hside]
    exact TreeLadder.new_wf s
  · intro s px
    rw [hside]
    exact TreeLadder.new_not_occ s px
  · intro s px
    rfl

theorem BookV5.new_repr (hapart : p.inBand kNoPrice = false) :
    Book.Repr p.flatConfig (BookV5.new p) {} := by
  have hside : ∀ s, (BookV5.new p).ladder s = FlatLadder.new p.bandLo p.bandHi := by
    intro s
    cases s <;> rfl
  refine Book.Repr.of_fresh ?_ ?_ ?_ trivial (fun _ => rfl) rfl (Pool.new_wf _)
    (Pool.new_not_live _) rfl rfl
  · intro s
    rw [hside]
    exact FlatLadder.new_wf s hapart
  · intro s px
    rw [hside]
    exact FlatLadder.new_not_occ px
  · intro s px
    rw [hside]
    rfl

/-- In a run of operations priced in the band, the tree and the band accept the same ones. -/
theorem Params.treeConfig_call (hp : p.Valid) {op : Op} (hop : op.PricedIn p) (F : Flat) :
    F.call p.treeConfig op = F.call p.flatConfig op := by
  refine Flat.call_congr p.treeConfig p.flatConfig rfl rfl (fun px hpx => ?_) F
  have hlo := hp.lo_pos
  have hband := hop px hpx
  simp only [Params.treeConfig, Params.flatConfig, Params.inBand, Bool.and_eq_true,
    decide_eq_true_eq] at hband ⊢
  rw [Bool.eq_iff_iff, Bool.and_eq_true]
  simp only [decide_eq_true_eq]
  omega

section runs

variable {σ : Type} {step : σ → Op → σ × Answer} {b : σ} {R : σ → Flat → Prop} {c : Config}
  {ops : List Op}

/-- An engine that refines the flat book of its own configuration answers as the flat book of
the band. -/
theorem answers_eq_flat
    (hstep : ∀ b F op, R b F → op ∈ ops →
      (step b op).2 = (Flat.call c F op).2 ∧ R (step b op).1 (Flat.call c F op).1)
    (hc : ∀ op ∈ ops, ∀ F, Flat.call c F op = Flat.call p.flatConfig F op) (hb : R b {}) :
    Transition.outputs step b ops = Transition.outputs (Flat.call p.flatConfig) {} ops := by
  refine (Transition.outputs_eq_of_sim (P := fun _ op => op ∈ ops) (R := R) ?_ hb
    (Transition.along_of_forall _ fun _ h => h)).1
  intro b F op h hop
  rw [← hc op hop F]
  exact hstep b F op h hop

end runs

/-- **The optimisation chain preserves behaviour**: on operations that leave id `0` alone and are
priced in the band, or at a price no engine takes, the four engines give the same answers. -/
theorem versions_agree (p : Params) (hp : p.Valid) (hprot : p.protection = 0) (ops : List Op)
    (hid : ∀ op ∈ ops, op.NamesOrder) (hpx : ∀ op ∈ ops, op.PricedIn p) :
    BookV1.answers p ops = OrderBook.answers p ops ∧
      BookV4.answers p ops = OrderBook.answers p ops ∧
        BookV5.answers p ops = OrderBook.answers p ops := by
  have htree : ∀ op ∈ ops, ∀ F, Flat.call p.treeConfig F op = Flat.call p.flatConfig F op :=
    fun op hop F => Params.treeConfig_call hp (hpx op hop) F
  have hconfig : p.config = p.flatConfig := by rw [Params.config, hprot, Params.flatConfig]
  have hfinal : OrderBook.answers p ops =
      Transition.outputs (Flat.call p.flatConfig) {} ops := by
    rw [← hconfig]
    exact (OrderBook.run_repr hp ops).1
  have h1 : BookV1.answers p ops = Transition.outputs (Flat.call p.flatConfig) {} ops :=
    answers_eq_flat (fun b F op h hop => Book.Repr.callV1 h rfl (hid op hop)) htree
      (BookV1.new_repr p)
  have h4 : BookV4.answers p ops = Transition.outputs (Flat.call p.flatConfig) {} ops :=
    answers_eq_flat (fun b F op h hop => Book.Repr.callV4 h rfl (hid op hop)) htree
      (BookV4.new_repr p)
  have h5 : BookV5.answers p ops = Transition.outputs (Flat.call p.flatConfig) {} ops :=
    answers_eq_flat (fun b F op h hop => Book.Repr.callV4 h rfl (hid op hop))
      (fun _ _ _ => rfl) (BookV5.new_repr hp.apart)
  exact ⟨h1.trans hfinal.symm, h4.trans hfinal.symm, h5.trans hfinal.symm⟩

/-- A duplicate id, an aliased market id, a stop and a price below the band, on all engines. -/
theorem versions_agree_small :
    BookV1.answers { stp := .rejectIncoming, bandHi := 9, idMapSlots := 4 }
      [.submitLimit 1 .ask 5 2 .gtc 7, .submitLimit 1 .bid 4 1 .gtc 0, .submitMarket 1 .bid 3 0,
        .submitLimit 2 .bid 6 3 .gtc 7, .modify 1 (-3) 1] =
      [(.submit ⟨0, true, false⟩, []), (.submit ⟨0, false, true⟩, []), (.market 0, []),
        (.submit ⟨0, false, true⟩, []), (.modify ⟨false, 0, false, true⟩, [])] := by
  rw [(versions_agree _ ⟨by decide, by decide, by decide, by decide⟩ rfl
    [.submitLimit 1 .ask 5 2 .gtc 7, .submitLimit 1 .bid 4 1 .gtc 0, .submitMarket 1 .bid 3 0,
      .submitLimit 2 .bid 6 3 .gtc 7, .modify 1 (-3) 1] (by decide) (by decide)).1]
  decide +kernel

end Lob
