import LimitOrderBook.FillOrKill
import LimitOrderBook.Reference

/-! # Market protection

A market order walks the other side as an immediate-or-cancel order does, up to a bound of its own:
the end of the price type, or the best price of the other side moved by the protection.  The walk
looks at the bound only through the prices it crosses (`walk_congr`), so the bound may be clamped
into the band.

The bound of a bid is a sum of two 64-bit numbers that the code does not check.  Past `kMaxPrice`
it wraps to a negative price and the order reaches nothing; `Bounded` says when it does not, and
`OrderBook.market_ioc_iff` that a market order is the limit order exactly then. -/

namespace Lob

open KeyedQueue

section walk

variable {stp : Stp} {s : Side} {taker : OrderId} {limit limit' : Int} {owner : Owner}

/-- A walk depends on its bound through the prices that cross it. -/
theorem walk_congr : ∀ (q : List Resting) (n : Qty),
    (∀ r ∈ q, crosses s r.price limit = crosses s r.price limit') →
    walk stp s taker limit owner q n = walk stp s taker limit' owner q n
  | [], _, _ => rfl
  | r :: q, n, h => by
      have ih : ∀ n, walk stp s taker limit owner q n = walk stp s taker limit' owner q n :=
        fun n => walk_congr q n fun r' hr' => h r' (List.mem_cons_of_mem _ hr')
      rw [walk, walk, h r List.mem_cons_self]
      simp only [ih]

/-- A taker that meets an order it is not stopped by trades with it or kills it. -/
theorem walk_front {r : Resting} {q : List Resting} {n : Qty} (hn : n ≠ 0)
    (hc : crosses s r.price limit = true) (hgo : ¬ (r.Own stp owner ∧ stp = .rejectIncoming)) :
    ∃ e ∈ (walk stp s taker limit owner (r :: q) n).tape, e.maker = r.id := by
  refine walk_cases r q n (fun w => ∃ e ∈ w.tape, e.maker = r.id) ?_ ?_ ?_ ?_ ?_
  · rintro (h0 | hno)
    · exact absurd h0 hn
    · rw [hc] at hno
      cases hno
  · intro _ _ ho hs
    exact absurd ⟨ho, hs⟩ hgo
  · intro _ _ _ _
    exact ⟨_, List.mem_cons_self, rfl⟩
  · intro _ _ _ _
    exact ⟨_, List.mem_cons_self, rfl⟩
  · intro _ _ _ _
    exact ⟨_, List.mem_cons_self, rfl⟩

end walk

/-! ### The bound -/

/-- The bound of a market order, before it is brought into the band. -/
def Side.beyond (s : Side) (ref protection : Int) : Int :=
  match s with
  | .bid => ref + protection
  | .ask => ref - protection

namespace Params

/-- The members of the constructor that are 64-bit prices. -/
structure Fits (p : Params) : Prop where
  protection_ge : kMinPrice ≤ p.protection
  protection_le : p.protection ≤ kMaxPrice
  bandHi_le : p.bandHi ≤ kMaxPrice

/-- The price of the band that stands for no bound: the last one a taker of side `s` reaches. -/
def farthest (p : Params) : Side → Int
  | .bid => p.bandHi - 1
  | .ask => p.bandLo

/-- The limit price of a market order of side `s`, when `ref` is the best price it meets. -/
def marketPx (p : Params) (s : Side) (ref : Int) : Int :=
  if p.protection ≤ 0 then p.farthest s
  else max p.bandLo (min (p.bandHi - 1) (s.beyond ref p.protection))

variable {p : Params} {s : Side} {px ref : Int}

theorem inBand_iff : p.inBand px = true ↔ p.bandLo ≤ px ∧ px < p.bandHi := by simp [inBand]

/-- Clamping the bound into the band does not change what crosses it there. -/
theorem crosses_clamp (hpx : p.inBand px = true) (href : p.inBand ref = true)
    (hpos : 0 < p.protection) :
    crosses s px (p.marketPx s ref) = crosses s px (s.beyond ref p.protection) := by
  rw [inBand_iff] at hpx href
  rw [marketPx, if_neg (by omega)]
  cases s with
  | bid =>
      rw [crosses, crosses, decide_eq_decide, Side.beyond]
      omega
  | ask =>
      rw [crosses, crosses, decide_eq_decide, Side.beyond]
      omega

theorem crosses_farthest (hfit : p.Fits) (hp : p.Valid) (hpx : p.inBand px = true) :
    crosses s px (p.farthest s) = crosses s px s.marketPrice := by
  have hlo := hp.lo_pos
  have hhi := hfit.bandHi_le
  rw [inBand_iff] at hpx
  unfold kMaxPrice at hhi
  cases s with
  | bid =>
      rw [crosses, crosses, decide_eq_decide, farthest, Side.marketPrice, kMaxPrice]
      omega
  | ask =>
      rw [crosses, crosses, decide_eq_decide, farthest, Side.marketPrice, kMinPrice]
      omega

theorem inBand_marketPx (hpx : p.inBand px = true) : p.inBand (p.marketPx s ref) = true := by
  rw [inBand_iff] at hpx ⊢
  unfold marketPx
  split_ifs
  · cases s <;> simp only [farthest] <;> omega
  · omega

end Params

namespace Flat

variable {p : Params} {F : Flat} {id : OrderId} {s : Side} {qty : Qty} {owner : Owner}

/-- A market order and an immediate-or-cancel order that the same prices cross. -/
theorem market_eq (hid : id ≠ 0) (hqty : qty ≠ 0) (hnew : id ∉ F.ids) {limit px : Int}
    (hlimit : F.marketLimit p.config s = some limit)
    (hcross : ∀ r ∈ F.side s.opp, crosses s r.price limit = crosses s r.price px)
    (hpx : p.inBand px = true ∨ F.side s.opp = []) :
    let m := F.submitMarket p.config id s qty owner
    let l := F.submitLimit p.config id s px qty .ioc owner
    m.1 = l.1 ∧ m.2.1 = l.2.1.filled ∧ m.2.2 = l.2.2 := by
  have hgo : ¬ (id = 0 ∨ qty = 0 ∨ id ∈ F.ids) := by simp [hid, hqty, hnew]
  simp only [submitMarket, if_neg hgo, hlimit, walk_congr _ _ hcross]
  by_cases hin : p.inBand px = true
  · have hgo' : ¬ (id = 0 ∨ qty = 0 ∨ p.config.inBand px = false ∨ id ∈ F.ids) := by
      simp [hid, hqty, hnew, show p.config.inBand px = true from hin]
    simp only [submitLimit, if_neg hgo', execute, reduceCtorEq, false_and, and_false, if_false]
    split_ifs <;> exact ⟨rfl, rfl, rfl⟩
  · -- without a price in the band there is nothing to meet
    have hnil : F.side s.opp = [] := hpx.resolve_left hin
    rw [Bool.not_eq_true] at hin
    have hbad : id = 0 ∨ qty = 0 ∨ p.config.inBand px = false ∨ id ∈ F.ids :=
      Or.inr (Or.inr (Or.inl hin))
    have hself : F.withSide s.opp [] = F := by
      rw [← hnil]
      exact withSide_side F s.opp
    simp only [submitLimit, if_pos hbad, hnil, walk, hself, UInt32.sub_self]
    exact ⟨trivial, trivial, trivial⟩

/-- **The bound of a market order does not wrap**, or the order is stopped before it matters. -/
def Bounded (p : Params) (F : Flat) (s : Side) (owner : Owner) : Prop :=
  s = .bid → 0 < p.protection → ∀ r ∈ F.asks.head?,
    r.price + p.protection ≤ kMaxPrice ∨ r.Own p.stp owner ∧ p.stp = .rejectIncoming

theorem bounded_nil (hside : F.side s.opp = []) : Bounded p F s owner := by
  rintro rfl _ r hr
  rw [show F.asks = [] from hside] at hr
  cases hr

/-- The first order in the way decides. -/
theorem bounded_cons {r : Resting} {q : List Resting} (hside : F.side s.opp = r :: q) :
    Bounded p F s owner ↔ (s = .bid → 0 < p.protection →
      r.price + p.protection ≤ kMaxPrice ∨ r.Own p.stp owner ∧ p.stp = .rejectIncoming) := by
  refine forall_congr' fun hs => forall_congr' fun _ => ?_
  subst hs
  have hhead : F.asks.head? = some r := congrArg List.head? hside
  rw [hhead]
  constructor
  · intro h
    exact h r rfl
  · rintro h r' hr'
    cases hr'
    exact h

/-- An ask never falls off the low end of the price type. -/
theorem wrapPrice_beyond (hp : p.Valid) (hfit : p.Fits) {ref π : Int} (href : p.inBand ref = true)
    (hpos : 0 < π) (hmax : π ≤ kMaxPrice) (hle : s = .bid → ref + π ≤ kMaxPrice) :
    wrapPrice (s.beyond ref π) = s.beyond ref π := by
  have hlo := hp.lo_pos
  have hhi := hfit.bandHi_le
  rw [Params.inBand_iff] at href
  unfold kMaxPrice at hmax hhi hle
  apply wrapPrice_eq
  · cases s with
    | bid =>
        rw [Side.beyond]
        omega
    | ask =>
        rw [Side.beyond]
        omega
  · cases s with
    | bid =>
        have := hle rfl
        rw [Side.beyond]
        omega
    | ask =>
        rw [Side.beyond]
        omega

/-- Past the end of the price type the bound of a bid is negative. -/
theorem wrapPrice_neg (hfit : p.Fits) {ref : Int} (href : p.inBand ref = true)
    (hlt : kMaxPrice < ref + p.protection) : wrapPrice (ref + p.protection) < 0 := by
  have hmax := hfit.protection_le
  have hhi := hfit.bandHi_le
  rw [Params.inBand_iff] at href
  unfold kMaxPrice at hmax hhi hlt
  have hwrap : wrapPrice (ref + p.protection) = ref + p.protection - 2 ^ 64 := by
    rw [wrapPrice, ← Int.sub_bmod_right]
    exact Int.bmod_eq_of_le (by omega) (by omega)
  omega

theorem marketLimit_nil (hpos : 0 < p.protection) (hside : F.side s.opp = []) :
    F.marketLimit p.config s = none := by
  have hpos' : 0 < p.config.protection := hpos
  rw [marketLimit, if_pos hpos', hside]
  rfl

theorem marketLimit_cons (hpos : 0 < p.protection) {r : Resting} {q : List Resting}
    (hside : F.side s.opp = r :: q) :
    F.marketLimit p.config s = some (wrapPrice (s.beyond r.price p.protection)) := by
  have hpos' : 0 < p.config.protection := hpos
  rw [marketLimit, if_pos hpos', hside]
  cases s <;> rfl

/-- **Where the bound of a bid wraps, its walk ends before it starts**: nothing happens, as to a
limit order that the first order in its way stops. -/
theorem market_wrapped (hp : p.Valid) (hfit : p.Fits) {r : Resting} {q : List Resting}
    (href : p.inBand r.price = true) (hid : id ≠ 0) (hqty : qty ≠ 0) (hnew : id ∉ F.ids)
    (hpos : 0 < p.protection) (hside : F.side Side.bid.opp = r :: q)
    (hlt : kMaxPrice < r.price + p.protection) :
    (let m := F.submitMarket p.config id .bid qty owner
     let l := F.submitLimit p.config id .bid (p.marketPx .bid r.price) qty .ioc owner
     m.1 = l.1 ∧ m.2.1 = l.2.1.filled ∧ m.2.2 = l.2.2) ↔
      r.Own p.stp owner ∧ p.stp = .rejectIncoming := by
  have hin : p.config.inBand (p.marketPx .bid r.price) = true := Params.inBand_marketPx href
  have hclear : Lob.walk p.config.stp .bid id (wrapPrice (r.price + p.protection)) owner (r :: q)
      qty = ⟨r :: q, qty, false, []⟩ := by
    apply walk_stop
    refine Or.inr (decide_eq_false ?_)
    have hneg := wrapPrice_neg hfit href hlt
    have hlo := hp.lo_pos
    rw [Params.inBand_iff] at href
    omega
  have hcross : crosses .bid r.price (p.marketPx .bid r.price) = true := by
    rw [Params.crosses_clamp href href hpos]
    refine decide_eq_true ?_
    rw [Side.beyond]
    omega
  have hgo : ¬ (id = 0 ∨ qty = 0 ∨ id ∈ F.ids) := by simp [hid, hqty, hnew]
  have hgo' : ¬ (id = 0 ∨ qty = 0 ∨ p.config.inBand (p.marketPx .bid r.price) = false ∨
      id ∈ F.ids) := by simp [hid, hqty, hnew, hin]
  simp only [submitMarket, submitLimit, if_neg hgo, if_neg hgo', marketLimit_cons hpos hside,
    execute, reduceCtorEq, false_and, and_false, if_false, hside, Side.beyond, hclear]
  constructor
  · rintro ⟨-, -, htape⟩
    by_contra hown
    obtain ⟨e, he, -⟩ : ∃ e ∈ (Lob.walk p.config.stp .bid id (p.marketPx .bid r.price) owner
        (r :: q) qty).tape, e.maker = r.id := walk_front hqty hcross hown
    split_ifs at htape <;> exact List.ne_nil_of_mem he htape.symm
  · rintro ⟨hown, hstp⟩
    have hblock : Lob.walk p.config.stp .bid id (p.marketPx .bid r.price) owner (r :: q) qty =
        ⟨r :: q, qty, true, []⟩ := by
      apply walk_block _ hown hstp
      rw [hcross]
      simp [hqty]
    simp only [hblock, if_true]
    exact ⟨trivial, trivial, trivial⟩

/-- What a market order fills is what lies within its reach. -/
theorem submitMarket_filled {c : Config} (hid : id ≠ 0) (hqty : qty ≠ 0) (hnew : id ∉ F.ids)
    {limit : Int} (hlimit : F.marketLimit c s = some limit) :
    (F.submitMarket c id s qty owner).2.1.toNat =
      qty.toNat - (qty.toNat - reach c.stp s limit owner (F.side s.opp)) := by
  have hgo : ¬ (id = 0 ∨ qty = 0 ∨ id ∈ F.ids) := by simp [hid, hqty, hnew]
  simp only [submitMarket, if_neg hgo, hlimit]
  rw [UInt32.toNat_sub_of_le _ _ (walk_remaining_le _ _), walk_remaining]

/-- **More protection never fills less**, as long as the larger bound does not wrap. -/
theorem market_mono (hF : F.WF p.config) (hp : p.Valid) (hfit : p.Fits) {π π' : Int} (hpos : 0 < π)
    (hle : π ≤ π') (hmax : π' ≤ kMaxPrice)
    (hb : Bounded { p with protection := π' } F s owner) :
    (F.submitMarket { p with protection := π }.config id s qty owner).2.1 ≤
      (F.submitMarket { p with protection := π' }.config id s qty owner).2.1 := by
  have hpos' : 0 < π' := by omega
  by_cases hbad : id = 0 ∨ qty = 0 ∨ id ∈ F.ids
  · rw [submitMarket, submitMarket, if_pos hbad, if_pos hbad]
    exact UInt32.le_refl 0
  cases hside : F.side s.opp with
  | nil =>
      have hnone := marketLimit_nil (p := { p with protection := π }) hpos hside
      simp only [submitMarket, if_neg hbad, hnone]
      exact Nat.zero_le _
  | cons r q =>
      simp only [not_or] at hbad
      obtain ⟨hid, hqty, hnew⟩ := hbad
      have href : p.inBand r.price = true :=
        hF.band s.opp r (by rw [hside]; exact List.mem_cons_self)
      have hlimit := marketLimit_cons (p := { p with protection := π }) hpos hside
      have hlimit' := marketLimit_cons (p := { p with protection := π' }) hpos' hside
      rw [UInt32.le_iff_toNat_le, submitMarket_filled hid hqty hnew hlimit,
        submitMarket_filled hid hqty hnew hlimit', hside]
      suffices hreach : reach p.stp s (wrapPrice (s.beyond r.price π)) owner (r :: q) ≤
          reach p.stp s (wrapPrice (s.beyond r.price π')) owner (r :: q) by
        have hsub : ∀ n m m' : ℕ, m ≤ m' → n - (n - m) ≤ n - (n - m') := by omega
        exact hsub _ _ _ hreach
      by_cases hfree : s = .bid → r.price + π' ≤ kMaxPrice
      · have hwrap : wrapPrice (s.beyond r.price π) = s.beyond r.price π :=
          wrapPrice_beyond hp hfit href hpos (by omega) fun hs => by
            have := hfree hs
            omega
        have hwrap' : wrapPrice (s.beyond r.price π') = s.beyond r.price π' :=
          wrapPrice_beyond hp hfit href hpos' hmax hfree
        rw [hwrap, hwrap']
        refine reach_mono (fun px hpx => ?_) (r :: q)
        cases s with
        | bid =>
            rw [crosses, decide_eq_true_iff, Side.beyond] at hpx ⊢
            omega
        | ask =>
            rw [crosses, decide_eq_true_iff, Side.beyond] at hpx ⊢
            omega
      · rw [Classical.not_imp, Int.not_le] at hfree
        obtain ⟨rfl, hlt⟩ := hfree
        -- where the larger bound wraps, the first order stops the taker
        have hown : r.Own p.stp owner ∧ p.stp = .rejectIncoming :=
          ((bounded_cons hside).mp hb rfl hpos').resolve_left (Int.not_le.mpr hlt)
        rw [reach_block hown.1 hown.2]
        exact Nat.zero_le _

end Flat

namespace OrderBook

variable {p : Params} {b : OrderBook} {F : Flat} {id : OrderId} {s : Side} {qty : Qty}
  {owner : Owner}

/-- A market order does what the immediate-or-cancel order at its limit price does; without the
reference price that its protection asks for, nothing. -/
def MarketIsIoc (p : Params) (b : OrderBook) (id : OrderId) (s : Side) (qty : Qty)
    (owner : Owner) : Prop :=
  let m := b.submitMarket id s qty owner
  if 0 < p.protection ∧ b.best s.opp = kNoPrice then m = (b, 0, [])
  else
    let l := b.submitLimit id s (p.marketPx s (b.best s.opp)) qty .ioc owner
    flat m.1 = flat l.1 ∧ m.2.1 = l.2.1.filled ∧ m.2.2 = l.2.2

/-- The same comparison on the flat book. -/
theorem marketIsIoc_iff (h : Book.Repr p.config b F) (hgo : 0 < p.protection → F.side s.opp ≠ []) :
    MarketIsIoc p b id s qty owner ↔
      let ref := ((F.side s.opp).head?.map Resting.price).getD kNoPrice
      let m := F.submitMarket p.config id s qty owner
      let l := F.submitLimit p.config id s (p.marketPx s ref) qty .ioc owner
      m.1 = l.1 ∧ m.2.1 = l.2.1.filled ∧ m.2.2 = l.2.2 := by
  have hno : ¬ (0 < p.protection ∧ b.best s.opp = kNoPrice) := by
    rintro ⟨hpos, hbest⟩
    rw [h.best] at hbest
    cases hq : F.side s.opp with
    | nil => exact hgo hpos hq
    | cons r q =>
        have hin := h.wf.band s.opp r (by rw [hq]; exact List.mem_cons_self)
        rw [hq] at hbest
        exact (h.ladder_wf .bid).toShape.ne_kNoPrice ((h.inBand .bid _).trans hin) hbest
  obtain ⟨hm, hmr⟩ := h.submitMarket id s qty owner
  obtain ⟨hl, hlr⟩ := h.submitLimit id s (p.marketPx s (b.best s.opp)) qty .ioc owner
  unfold MarketIsIoc
  simp only [if_neg hno, hm, hl, flat_eq hmr, flat_eq hlr]
  rw [h.best]

theorem marketIsIoc_of_none (h : Book.Repr p.config b F) (hpos : 0 < p.protection)
    (hnil : F.side s.opp = []) : MarketIsIoc p b id s qty owner := by
  have hbest : b.best s.opp = kNoPrice := by
    rw [h.best, hnil]
    rfl
  have hlimit : b.marketLimit s = none := (h.marketLimit s).trans (Flat.marketLimit_nil hpos hnil)
  unfold MarketIsIoc
  simp only [if_pos (And.intro hpos hbest), Book.submitMarket, hlimit, ite_self]

/-- Without protection the bound is the end of the price type. -/
theorem marketIsIoc_of_unprotected (h : Book.Repr p.config b F) (hp : p.Valid) (hfit : p.Fits)
    (hid : id ≠ 0) (hqty : qty ≠ 0) (hnew : id ∉ F.ids) (hpos : ¬ 0 < p.protection) :
    MarketIsIoc p b id s qty owner := by
  have hband : ∀ r ∈ F.side s.opp, p.inBand r.price = true := h.wf.band s.opp
  have hpx : ∀ ref : Int, p.marketPx s ref = p.farthest s := fun _ => if_pos (Int.not_lt.mp hpos)
  have hlimit : F.marketLimit p.config s = some s.marketPrice := if_neg hpos
  rw [marketIsIoc_iff h fun hpos' => absurd hpos' hpos]
  simp only [hpx]
  refine Flat.market_eq hid hqty hnew hlimit (fun r hr => ?_) ?_
  · exact (Params.crosses_farthest hfit hp (hband r hr)).symm
  · cases hside : F.side s.opp with
    | nil => exact Or.inr rfl
    | cons r q =>
        have hin : p.inBand r.price = true := hband r (by rw [hside]; exact List.mem_cons_self)
        rw [← hpx r.price]
        exact Or.inl (Params.inBand_marketPx hin)

/-- **A market order is the limit order, exactly where its bound does not wrap.** -/
theorem marketIsIoc_of_repr (h : Book.Repr p.config b F) (hp : p.Valid) (hfit : p.Fits)
    (hid : id ≠ 0) (hqty : qty ≠ 0) (hnew : id ∉ F.ids) :
    MarketIsIoc p b id s qty owner ↔ Flat.Bounded p F s owner := by
  have hband : ∀ r ∈ F.side s.opp, p.inBand r.price = true := h.wf.band s.opp
  by_cases hpos : 0 < p.protection
  · cases hside : F.side s.opp with
    | nil => exact iff_of_true (marketIsIoc_of_none h hpos hside) (Flat.bounded_nil hside)
    | cons r q =>
        have href : p.inBand r.price = true := hband r (by rw [hside]; exact List.mem_cons_self)
        have hlimit := Flat.marketLimit_cons hpos hside
        have hin : p.inBand (p.marketPx s r.price) = true := Params.inBand_marketPx href
        rw [marketIsIoc_iff h fun _ => by rw [hside]; exact List.cons_ne_nil _ _,
          Flat.bounded_cons hside]
        simp only [hside, List.head?_cons, Option.map_some, Option.getD_some]
        by_cases hfree : s = .bid → r.price + p.protection ≤ kMaxPrice
        · refine iff_of_true ?_ fun hs _ => Or.inl (hfree hs)
          refine Flat.market_eq hid hqty hnew hlimit (fun r' hr' => ?_) (Or.inl hin)
          rw [Flat.wrapPrice_beyond hp hfit href hpos hfit.protection_le hfree]
          exact (Params.crosses_clamp (hband r' hr') href hpos).symm
        · rw [Classical.not_imp, Int.not_le] at hfree
          obtain ⟨rfl, hlt⟩ := hfree
          refine (Flat.market_wrapped hp hfit href hid hqty hnew hpos hside hlt).trans ?_
          constructor
          · intro hown _ _
            exact Or.inr hown
          · intro hb
            exact (hb rfl hpos).resolve_left (Int.not_le.mpr hlt)
  · exact iff_of_true (marketIsIoc_of_unprotected h hp hfit hid hqty hnew hpos)
      fun _ hpos' => absurd hpos' hpos

/-- **Market orders under protection**: in every reachable state a market order is the
immediate-or-cancel order at its limit price exactly where its bound does not wrap, and there more
protection never fills less. -/
theorem market_ioc_iff (p : Params) (hp : p.Valid) (hfit : p.Fits) (ops : List Op) (id : OrderId)
    (s : Side) (qty : Qty) (owner : Owner) (hid : id ≠ 0) (hqty : qty ≠ 0)
    (hnew : (run p ops).orders.find id = none) :
    (MarketIsIoc p (run p ops) id s qty owner ↔ Flat.Bounded p (run p ops).flat s owner) ∧
      ∀ π π', 0 < π → π ≤ π' → π' ≤ kMaxPrice →
        Flat.Bounded { p with protection := π' } (run p ops).flat s owner →
        (Book.submitMarket { run p ops with protection := π } id s qty owner).2.1 ≤
          (Book.submitMarket { run p ops with protection := π' } id s qty owner).2.1 := by
  have h := (run_repr hp ops).2
  have hnew' : id ∉ (Transition.finalState (Flat.call p.config) {} ops).ids := by
    rw [← h.find_isSome, show Index.find (run p ops).orders id = none from hnew]
    exact Bool.noConfusion
  rw [flat_eq h]
  refine ⟨marketIsIoc_of_repr h hp hfit hid hqty hnew', fun π π' hpos hle hmax hb => ?_⟩
  have hans : ∀ x : Int, (Book.submitMarket { run p ops with protection := x } id s qty owner).2 =
      (Flat.submitMarket { p with protection := x }.config _ id s qty owner).2 := fun x => by
    have hx := h.with_policy p.stp x
    have hstp : ({ run p ops with protection := x } : OrderBook) =
        { run p ops with stp := p.stp, protection := x } := by
      rw [← show (run p ops).stp = p.stp from h.stp]
    rw [hstp]
    exact (hx.submitMarket id s qty owner).1
  rw [hans, hans]
  exact Flat.market_mono h.wf hp hfit hpos hle hmax hb

set_option maxRecDepth 4000 in
/-- A bid whose bound is within the price type. -/
theorem market_ioc_iff_small :
    MarketIsIoc { bandHi := 9, idMapSlots := 4, protection := 2 }
      (run { bandHi := 9, idMapSlots := 4, protection := 2 } [.submitLimit 1 .ask 5 2 .gtc 0])
      2 .bid 3 0 := by
  refine (market_ioc_iff { bandHi := 9, idMapSlots := 4, protection := 2 }
    ⟨by decide, by decide, by decide, by decide⟩
    ⟨by decide +kernel, by decide +kernel, by decide +kernel⟩
    [.submitLimit 1 .ask 5 2 .gtc 0] 2 .bid 3 0 (by decide) (by decide) (by decide +kernel)).1.mpr ?_
  have hasks : (run { bandHi := 9, idMapSlots := 4, protection := 2 }
      [.submitLimit 1 .ask 5 2 .gtc 0]).flat.asks.head? = some ⟨1, 5, 2, 0⟩ := by decide +kernel
  intro _ _ r hr
  rw [hasks] at hr
  obtain rfl := Option.some.inj hr
  exact Or.inl (by decide +kernel)

set_option maxRecDepth 4000 in
/-- With the largest protection a market bid passes by the ask in front of it. -/
theorem market_wraps : ¬ ∀ (p : Params) (ops : List Op) (id : OrderId) (s : Side) (qty : Qty)
    (owner : Owner), p.Valid → p.Fits → id ≠ 0 → qty ≠ 0 → (run p ops).orders.find id = none →
    MarketIsIoc p (run p ops) id s qty owner := by
  intro h
  have h' := h { bandHi := 9, idMapSlots := 4, protection := kMaxPrice }
    [.submitLimit 1 .ask 5 2 .gtc 0] 2 .bid 3 0 ⟨by decide, by decide, by decide, by decide⟩
    ⟨by decide +kernel, by decide +kernel, by decide +kernel⟩ (by decide) (by decide)
    (by decide +kernel)
  simp only [MarketIsIoc] at h'
  rw [if_neg (by decide +kernel)] at h'
  exact absurd h'.2.1 (by decide +kernel)

end OrderBook

end Lob
