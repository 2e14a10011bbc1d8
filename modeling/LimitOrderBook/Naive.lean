import LimitOrderBook.FlatInv
import LimitOrderBook.OrdMap
import LimitOrderBook.Repr

/-! # The reference engine

`NaiveBook` is `engines/naive_book.hpp`: per side a `std::map` from prices to lists of orders,
searched linearly, with no id index and no owners.  `NaiveBook.flat` reads it as a flat book in
which every owner is `0`, and every operation is the one of the flat book without self-trade
prevention (`NaiveBook.Sim.call`).

The reference sums the whole crossing liquidity of a fill-or-kill order and the flat book stops
at the first level that suffices; they agree while the sum does not wrap, hence the bound on the
number of resting orders. -/

namespace Lob

open KeyedQueue

/-- `NaiveBookT::RestingOrder`. -/
structure NaiveOrder where
  id : OrderId
  qty : Qty
deriving DecidableEq, Repr

/-- One side: a map of levels, best price first. -/
abbrev NaiveSide (s : Side) := OrdMap (better s) (List NaiveOrder)

structure NaiveBook where
  bids : NaiveSide .bid := OrdMap.empty
  asks : NaiveSide .ask := OrdMap.empty
  protection : Int := 0

namespace NaiveSide

variable {s : Side}

/-! ### One side -/

/-- The level, the quantity filled and the trades, after the inner loop of `match`. -/
structure Fill where
  lvl : List NaiveOrder
  filled : Qty
  tape : List Event

/-- The inner loop of `match`. -/
def fillLevel (taker : OrderId) (px : Int) (want : Qty) : ℕ → List NaiveOrder → Qty → Fill
  | 0, lvl, filled => ⟨lvl, filled, []⟩
  | _ + 1, [], filled => ⟨[], filled, []⟩
  | n + 1, top :: lvl, filled =>
      if filled < want then
        let take := min top.qty (want - filled)
        let top := { top with qty := top.qty - take }
        let w := fillLevel taker px want n (if top.qty = 0 then lvl else top :: lvl) (filled + take)
        { w with tape := .trade taker top.id px take :: w.tape }
      else ⟨top :: lvl, filled, []⟩

/-- A side, the quantity filled and the trades, after `match`. -/
structure Matched (s : Side) where
  side : NaiveSide s
  filled : Qty
  tape : List Event

/-- `if (lvl.empty()) opposite.erase(it);`, once the level at `px` is `lvl`. -/
def setLevel (m : NaiveSide s) (px : Int) (lvl : List NaiveOrder) : NaiveSide s :=
  if lvl.isEmpty then m.erase px else m.alter px (fun _ => lvl)

/-- The outer loop of `match`. -/
def matchLevels (ok : Int → Bool) (taker : OrderId) (want : Qty) :
    ℕ → NaiveSide s → Qty → Matched s
  | 0, m, filled => ⟨m, filled, []⟩
  | n + 1, m, filled =>
      if filled < want then
        match m.entries with
        | [] => ⟨m, filled, []⟩
        | (px, lvl) :: _ =>
            if ok px then
              let w := fillLevel taker px want (lvl.length + 1) lvl filled
              let r := matchLevels ok taker want n (m.setLevel px w.lvl) w.filled
              { r with tape := w.tape ++ r.tape }
            else ⟨m, filled, []⟩
      else ⟨m, filled, []⟩

/-- `match(opposite, taker, want, crosses)`. -/
def matchOrders (m : NaiveSide s) (taker : OrderId) (want : Qty) (ok : Int → Bool) : Matched s :=
  matchLevels ok taker want (m.entries.length + 1) m 0

/-- The loops of `crossable_qty`, from the sum `n` on. -/
def crossableFrom (ok : Int → Bool) : UInt64 → List (Int × List NaiveOrder) → UInt64
  | n, [] => n
  | n, (px, lvl) :: es =>
      if ok px then crossableFrom ok (lvl.foldl (fun n o => n + o.qty.toUInt64) n) es else n

/-- `find(side, id)`: the order and its price. -/
def find (m : NaiveSide s) (id : OrderId) : Option (Int × NaiveOrder) :=
  m.entries.findSome? fun e => (e.2.find? fun o => decide (o.id = id)).map (Prod.mk e.1)

/-- `erase_from(side, id)`. -/
def eraseFrom (m : NaiveSide s) (id : OrderId) : NaiveSide s × Bool :=
  match m.find id with
  | none => (m, false)
  | some (px, _) =>
      (m.setLevel px (((m.find? px).getD []).eraseP fun o => decide (o.id = id)), true)

/-- `f.order->qty = new_qty`, in the level of the order. -/
def setQty (id : OrderId) (qty : Qty) : List NaiveOrder → List NaiveOrder
  | [] => []
  | o :: lvl => if o.id = id then { o with qty := qty } :: lvl else o :: setQty id qty lvl

end NaiveSide

namespace NaiveBook

/-! ### Public operations -/

def side (b : NaiveBook) : (s : Side) → NaiveSide s
  | .bid => b.bids
  | .ask => b.asks

def withSide (b : NaiveBook) : (s : Side) → NaiveSide s → NaiveBook
  | .bid, m => { b with bids := m }
  | .ask, m => { b with asks := m }

def rest (b : NaiveBook) (s : Side) (id : OrderId) (px : Int) (qty : Qty) : NaiveBook :=
  b.withSide s ((b.side s).alter px fun lvl => lvl.getD [] ++ [⟨id, qty⟩])

def crossableQty (b : NaiveBook) (s : Side) (px : Int) : UInt64 :=
  NaiveSide.crossableFrom (fun lvlPx => crosses s lvlPx px) 0 (b.side s.opp).entries

def submitLimit (b : NaiveBook) (id : OrderId) (s : Side) (px : Int) (qty : Qty) (tif : Tif) :
    NaiveBook × SubmitResult × List Event :=
  if qty = 0 ∨ px ≤ 0 then (b, { filled := 0, rested := false, rejected := true }, [])
  else if tif = .fok ∧ b.crossableQty s px < qty.toUInt64 then
    (b, { filled := 0, rested := false, rejected := true }, [])
  else
    let m := (b.side s.opp).matchOrders id qty (fun lvlPx => crosses s lvlPx px)
    let b := b.withSide s.opp m.side
    let rem := qty - m.filled
    if 0 < rem ∧ tif = .gtc then
      (b.rest s id px rem, { filled := m.filled, rested := true, rejected := false }, m.tape)
    else (b, { filled := m.filled, rested := false, rejected := false }, m.tape)

/-- `best_bid()` and `best_ask()`. -/
def best (b : NaiveBook) (s : Side) : Int := (b.side s).firstKey?.getD kNoPrice

def submitMarket (b : NaiveBook) (id : OrderId) (s : Side) (qty : Qty) :
    NaiveBook × Qty × List Event :=
  if qty = 0 then (b, 0, [])
  else if 0 < b.protection then
    let ref := b.best s.opp
    if ref = kNoPrice then (b, 0, [])
    else
      let lim := match s with
        | .bid => wrapPrice (ref + b.protection)
        | .ask => wrapPrice (ref - b.protection)
      let m := (b.side s.opp).matchOrders id qty (fun lvlPx => crosses s lvlPx lim)
      (b.withSide s.opp m.side, m.filled, m.tape)
  else
    let m := (b.side s.opp).matchOrders id qty (fun _ => true)
    (b.withSide s.opp m.side, m.filled, m.tape)

def cancel (b : NaiveBook) (id : OrderId) : NaiveBook × Bool :=
  let (bids, ok) := b.bids.eraseFrom id
  if ok then ({ b with bids := bids }, true)
  else
    let (asks, ok) := b.asks.eraseFrom id
    ({ b with asks := asks }, ok)

/-- `modify_found`, for the order `o` found at `px` on side `s`. -/
def modifyFound (b : NaiveBook) (s : Side) (px : Int) (o : NaiveOrder) (id : OrderId)
    (newPx : Int) (newQty : Qty) : NaiveBook × ModifyResult × List Event :=
  if newPx = px ∧ newQty ≤ o.qty then
    (b.withSide s ((b.side s).alter px fun lvl => NaiveSide.setQty id newQty (lvl.getD [])),
      { ok := true, filled := 0, rested := true, found := true }, [])
  else
    let b := b.withSide s ((b.side s).eraseFrom id).1
    let (b, r, tape) := b.submitLimit id s newPx newQty .gtc
    (b, { ok := true, filled := r.filled, rested := r.rested, found := true }, tape)

/-- `modify`, once the order was looked for on side `s`. -/
def modifyOn (b : NaiveBook) (s : Side) (id : OrderId) (newPx : Int) (newQty : Qty) :
    Option (NaiveBook × ModifyResult × List Event) :=
  ((b.side s).find id).map fun f =>
    if newQty = 0 ∨ newPx ≤ 0 then
      (b, { ok := false, filled := 0, rested := false, found := true }, [])
    else b.modifyFound s f.1 f.2 id newPx newQty

def modify (b : NaiveBook) (id : OrderId) (newPx : Int) (newQty : Qty) :
    NaiveBook × ModifyResult × List Event :=
  ((b.modifyOn .bid id newPx newQty).or (b.modifyOn .ask id newPx newQty)).getD
    (b, { ok := false, filled := 0, rested := false, found := false }, [])

/-- One call; owners are accepted and ignored. -/
def call (b : NaiveBook) : Op → NaiveBook × Answer
  | .submitLimit id s px qty tif _ =>
      let (b, r, tape) := b.submitLimit id s px qty tif
      (b, .submit r, tape)
  | .submitMarket id s qty _ =>
      let (b, filled, tape) := b.submitMarket id s qty
      (b, .market filled, tape)
  | .cancel id =>
      let (b, ok) := b.cancel id
      (b, .cancel ok, [])
  | .modify id newPx newQty =>
      let (b, r, tape) := b.modify id newPx newQty
      (b, .modify r, tape)

def qtyAt (b : NaiveBook) (s : Side) (px : Int) : UInt64 :=
  (((b.side s).find? px).getD []).foldl (fun n o => n + o.qty.toUInt64) 0

def restingOrders (b : NaiveBook) : ℕ :=
  (b.bids.entries.map (·.2.length)).sum + (b.asks.entries.map (·.2.length)).sum

end NaiveBook

end Lob
