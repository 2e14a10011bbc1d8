import LimitOrderBook.AuditSound
import LimitOrderBook.Checks
import LimitOrderBook.Workload
import Mathlib.Data.List.AList

/-! # The property test

The test of `tests/property_test.cpp`.  It draws operations from a seeded mix and keeps a model of
the book, updated only from what the engine reports; after every call it checks the answer, the tape
and everything the engine shows against that model, and runs the audit.

An assertion that fails ends the test with its text.  The policy, the band and the capacities of the
engine are the parameters `p` (`params` in the test), and the source of the random words is a
parameter `word`. -/

namespace Lob

namespace PropertyTest

def kBandLo : Int := 1
def kBandHi : Int := 257
def kPxLo : Int := 100
def kPxSpan : UInt64 := 40

/-- The arguments of `make_book`. -/
def params (stp : Stp) : Params where
  stp := stp
  poolCapacity := 2 ^ 12
  bandLo := kBandLo
  bandHi := kBandHi
  idMapSlots := 2 ^ 12

/-! ### The operations -/

structure OpGen (σ : Type) where
  rng : σ
  nextId : OrderId := 1

namespace OpGen

abbrev Gen (σ : Type) := StateM (OpGen σ)

section draws

variable {σ : Type} (word : σ → UInt64 × σ)

def pick (n : UInt64) : Gen σ UInt64 :=
  modifyGet fun g => ((word g.rng).1 % n, { g with rng := (word g.rng).2 })

def side : Gen σ Side := do
  return if (← pick word 2) ≠ 0 then .ask else .bid

/-- Owner `0` is exempt from self-trade prevention. -/
def owner : Gen σ Owner := do
  return (← pick word 4).toUInt32

/-- One price in fifty is out of the band. -/
def price : Gen σ Int := do
  if (← pick word 50) = 0 then return kBandHi + 40
  else return kPxLo + (← pick word kPxSpan).toNat

/-- One quantity in fifty is zero. -/
def qty : Gen σ Qty := do
  if (← pick word 50) = 0 then return 0
  else return 1 + (← pick word 50).toUInt32

/-- `next_id_++` -/
def takeId : Gen σ OrderId := modifyGet fun g => (g.nextId, { g with nextId := g.nextId + 1 })

def limit : Gen σ Op := do
  let t ← pick word 10
  let tif : Tif := if t < 7 then .gtc else if t < 9 then .ioc else .fok
  let id ← takeId
  let s ← side word
  let px ← price word
  let q ← qty word
  let o ← owner word
  return .submitLimit id s px q tif o

def market : Gen σ Op := do
  let id ← takeId
  let s ← side word
  let q : Qty := 1 + (← pick word 60).toUInt32
  let o ← owner word
  return .submitMarket id s q o

/-- A recent id: of an order that rests, of one that is gone, or of none yet. -/
def target : Gen σ OrderId := do
  let nextId := (← get).nextId
  let span := if nextId < 64 then nextId else 64
  return nextId - (← pick word span)

def modifyOp : Gen σ Op := do
  let id ← target word
  let px ← price word
  let q ← qty word
  return .modify id px q

def next : Gen σ Op := do
  let r ← pick word 100
  if r < 45 then limit word
  else if r < 55 then market word
  else if r < 85 then return .cancel (← target word)
  else modifyOp word

end draws

end OpGen

/-! ### The model -/

/-- What the test keeps of a resting order; `seq` numbers the arrivals. -/
structure Kept where
  side : Side
  px : Int
  qty : Qty
  owner : Owner
  seq : UInt64
deriving DecidableEq, Repr

structure Model where
  orders : AList fun _ : OrderId => Kept := ∅
  arrivals : UInt64 := 0

/-- What the operations have exercised. -/
structure Coverage where
  trades : UInt64 := 0
  liveCancels : UInt64 := 0
  liveModifies : UInt64 := 0
  stpKills : UInt64 := 0

/-- The engine under test, the model, and the coverage so far. -/
structure Test where
  book : OrderBook
  model : Model := {}
  cov : Coverage := {}

abbrev Check := Except String

namespace Model

def erase (m : Model) (id : OrderId) : Model := { m with orders := m.orders.erase id }

def put (m : Model) (id : OrderId) (o : Kept) : Model := { m with orders := m.orders.insert id o }

end Model

/-- The variables of `step` after the call, for an order that came in: `before` is the size at its
price without it, and `seq` the arrival number it keeps if it rests, or `0`. -/
structure Incoming where
  id : OrderId
  market : Bool
  side : Side
  owner : Owner
  px : Int
  qty : Qty
  filled : Qty
  rested : Bool
  gtc : Bool
  arrives : Bool
  before : UInt64 := 0
  seq : UInt64 := 0

section code

variable (p : Params)

/-- Does the model hold an own order in reach, at which the engine may stop the incoming one? -/
def stopPossible (m : Model) (k : Incoming) : Bool :=
  k.gtc && decide (p.stp = .rejectIncoming) && decide (k.owner ≠ 0) &&
    m.orders.entries.any fun e =>
      decide (e.2.side ≠ k.side) && decide (e.2.owner = k.owner) && crosses k.side e.2.px k.px

/-- One entry of `tape.cancels`. -/
def onCancel (k : Incoming) (t : Test) : Event → Check Test
  | .trade .. => return t
  | .cancel id _ =>
      match t.model.orders.lookup id with
      | none => .error "STP removed an order that was not resting"
      | some o => do
          ensure (p.stp = .cancelResting) "stp"
          ensure (k.owner ≠ 0) "owner 0 must be exempt from STP"
          ensure (o.owner = k.owner) "owner"
          return { t with
            model := t.model.erase id
            cov := { t.cov with stpKills := t.cov.stpKills + 1 } }

/-- One entry of `tape.trades`, with the quantity of the entries before it. -/
def onTrade (k : Incoming) (x : Test × UInt64) : Event → Check (Test × UInt64)
  | .cancel .. => return x
  | .trade taker maker px qty =>
      match x.1.model.orders.lookup maker with
      | none => .error "trade against an order that was not resting"
      | some o => do
          ensure (taker = k.id) "taker"
          ensure (o.side ≠ k.side) "maker on the taker's own side"
          ensure (px = o.px) "trade not at the resting order's price"
          ensure (qty ≤ o.qty) "qty"
          x.1.model.orders.entries.forM fun e =>
            ensure (e.2.side = o.side ∧ e.2.px = o.px → o.seq ≤ e.2.seq)
              "trade skipped an earlier order at its price"
          ensure (p.stp ≠ .none ∧ k.owner ≠ 0 → o.owner ≠ k.owner) "self-trade with STP armed"
          let left := o.qty - qty
          let model := if left = 0 then x.1.model.erase maker
            else x.1.model.put maker { o with qty := left }
          let cov := { x.1.cov with trades := x.1.cov.trades + 1 }
          return ({ x.1 with model, cov }, x.2 + qty.toUInt64)

/-- The cancels of a tape, then its trades, and the quantity traded. -/
def readTape (k : Incoming) (t : Test) (tape : List Event) : Check (Test × UInt64) := do
  let t ← tape.foldlM (onCancel p k) t
  tape.foldlM (onTrade p k) (t, 0)

/-- The quantity that appeared on the book at the price of the order. -/
def onBook (b : OrderBook) (k : Incoming) : UInt64 :=
  if k.market = true ∨ p.inBand k.px = false then 0 else b.qtyAt k.side k.px - k.before

/-- Quantity in is quantity filled, rested and discarded. -/
def account (k : Incoming) (stop : Bool) (n : UInt64) : Check Unit :=
  if k.gtc = false ∨ k.arrives = false then
    ensure (n = 0) "a non-GTC or rejected order left quantity on the book"
  else if stop = true then
    ensure (k.filled.toUInt64 + n = k.qty.toUInt64 ∨ n = 0)
      "GTC order neither rested its remainder nor was stopped"
  else ensure (k.filled.toUInt64 + n = k.qty.toUInt64) "GTC quantity not accounted for"

/-- The order that rests enters the model. -/
def enter (t : Test) (k : Incoming) (n : Qty) : Test :=
  let arrivals := if k.seq ≠ 0 then t.model.arrivals else t.model.arrivals + 1
  let seq := if k.seq ≠ 0 then k.seq else arrivals
  { t with model := { t.model with arrivals }.put k.id ⟨k.side, k.px, n, k.owner, seq⟩ }

def settle (t : Test) (k : Incoming) (stop : Bool) : Check Test := do
  ensure (k.arrives = false → k.filled = 0) "filled"
  let n := onBook p t.book k
  ensure (k.rested = true ↔ 0 < n) "rested flag disagrees with the book"
  account k stop n
  if k.rested = true then do
    ensure (k.filled < k.qty) "filled"
    return enter t k n.toUInt32
  else return t

/-- The part of `step` after the call. -/
def finish (t : Test) (tape : List Event) (k : Incoming) : Check Test := do
  let stop := stopPossible p t.model k
  let x ← readTape p k t tape
  ensure (x.2 = k.filled.toUInt64) "tape_qty"
  settle p x.1 k stop

def stepLimit (t : Test) (id : OrderId) (s : Side) (px : Int) (qty : Qty) (tif : Tif)
    (owner : Owner) : Check Test := do
  let before := t.book.qtyAt s px
  let (book, r, tape) := t.book.submitLimit id s px qty tif owner
  let arrives := decide (qty ≠ 0) && p.inBand px
  ensure (arrives = false → r.rejected = true) "rejected"
  ensure (r.rejected = true → r.filled = 0) "filled"
  ensure (r.rested = true → tif = .gtc) "IOC or FOK remainder rested"
  ensure (tif = .fok → r.filled = 0 ∨ r.filled = qty) "FOK partially filled"
  finish p { t with book } tape
    { id, market := false, side := s, owner, px, qty, filled := r.filled, rested := r.rested,
      gtc := decide (tif = .gtc), arrives, before }

def stepMarket (t : Test) (id : OrderId) (s : Side) (qty : Qty) (owner : Owner) : Check Test :=
  let (book, filled, tape) := t.book.submitMarket id s qty owner
  finish p { t with book } tape
    { id, market := true, side := s, owner, px := 0, qty, filled, rested := false, gtc := false,
      arrives := decide (qty ≠ 0) }

def stepCancel (t : Test) (id : OrderId) : Check Test := do
  let (book, ok) := t.book.cancel id
  match t.model.orders.lookup id with
  | none =>
      ensure (ok = false) "cancel"
      return { t with book }
  | some o =>
      ensure (ok = true) "cancel"
      ensure (t.book.qtyAt o.side o.px - book.qtyAt o.side o.px = o.qty.toUInt64)
        "cancel took the wrong quantity off the book"
      return { t with
        book
        model := t.model.erase id
        cov := { t.cov with liveCancels := t.cov.liveCancels + 1 } }

def stepModify (t : Test) (id : OrderId) (px : Int) (qty : Qty) : Check Test := do
  let (book, r, tape) := t.book.modify id px qty
  match t.model.orders.lookup id with
  | none =>
      ensure (r.found = false) "found"
      ensure (r.ok = false) "ok"
      ensure (tape = []) "tape"
      return { t with book }
  | some o =>
      let before := t.book.qtyAt o.side px - if o.px = px then o.qty.toUInt64 else 0
      let arrives := decide (qty ≠ 0) && p.inBand px
      ensure (r.found = true) "found"
      ensure (r.ok = arrives) "ok"
      if r.ok = false then do
        ensure (tape = []) "tape"
        return { t with book }
      else do
        ensure (o.px ≠ px →
            t.book.qtyAt o.side o.px - book.qtyAt o.side o.px = o.qty.toUInt64)
          "modify took the wrong quantity off the old price"
        -- in place, the order keeps its priority
        let seq := if o.px = px ∧ qty ≤ o.qty then o.seq else 0
        let cov := { t.cov with liveModifies := t.cov.liveModifies + 1 }
        finish p ⟨book, t.model.erase id, cov⟩ tape
          { id, market := false, side := o.side, owner := o.owner, px, qty, filled := r.filled,
            rested := r.rested, gtc := true, arrives := true, before, seq }

/-- One operation on the engine and on the model, with every check of the answer. -/
def step (t : Test) : Op → Check Test
  | .submitLimit id s px qty tif owner => stepLimit p t id s px qty tif owner
  | .submitMarket id s qty owner => stepMarket p t id s qty owner
  | .cancel id => stepCancel t id
  | .modify id px qty => stepModify p t id px qty

/-- The sizes of the model: `depth[2][kBandHi]`. -/
def depth (m : Model) : Side → Int → UInt64 :=
  m.orders.entries.foldl
    (fun d e s px => if e.2.side = s ∧ e.2.px = px then d s px + e.2.qty.toUInt64 else d s px)
    fun _ _ => 0

/-- The best bid and the best ask of the model. -/
def bestPrices (m : Model) : Int × Int :=
  m.orders.entries.foldl
    (fun best e => match e.2.side with
      | .bid => (max best.1 e.2.px, best.2)
      | .ask => (best.1, if best.2 = kNoPrice then e.2.px else min best.2 e.2.px))
    (kNoPrice, kNoPrice)

/-- The prices of the band, from `kBandLo` to `kBandHi`. -/
def band : List Int := (List.range (p.bandHi - p.bandLo).toNat).map fun i => p.bandLo + (i : Int)

def audit (t : Test) : Check Unit := do
  ensure (t.book.checkInvariants = none) "check_invariants"
  ensure (t.book.best .bid = (bestPrices t.model).1) "best_bid"
  ensure (t.book.best .ask = (bestPrices t.model).2) "best_ask"
  ensure (t.book.best .bid ≠ kNoPrice ∧ t.book.best .ask ≠ kNoPrice →
    t.book.best .bid < t.book.best .ask) "book is crossed or locked"
  (band p).forM fun px =>
    [Side.bid, Side.ask].forM fun s => ensure (t.book.qtyAt s px = depth t.model s px) "depth"
  ensure (t.book.restingOrders = t.model.orders.entries.length) "resting_orders"

/-- The operations `ops`, each checked and followed by an audit. -/
def runOps (ops : List Op) : Check Test :=
  ops.foldlM (fun t op => do
    let t ← step p t op
    audit p t
    return t) { book := OrderBook.new p }

/-- The first `n` operations of a generator. -/
def opsOf {σ : Type} (word : σ → UInt64 × σ) (n : ℕ) (g : OpGen σ) : List Op :=
  Transition.outputs (fun g (_ : ℕ) => ((OpGen.next word).run g).swap) g (List.range n)

def runChecked {σ : Type} (word : σ → UInt64 × σ) (n : ℕ) (g : OpGen σ) : Check Test :=
  runOps p (opsOf word n g)

end code

end PropertyTest

end Lob
