import LimitOrderBook.OrderBook
import LimitOrderBook.OrderIds
import LimitOrderBook.Protocol
import LimitOrderBook.Snapshot

/-! # The gateway

The order-entry gateway of `net/gateway.hpp`: frames of clients become calls of the engine, and
their outcome becomes execution reports to the client and datagrams on the public feed.

The publisher of the feed is the engine's listener.  It is told of fills and kills while the
engine matches and never calls back, so the events of a call are handed to it in order once the
call is over (`FeedPublisher.callbacks`).  A socket is the bytes it has taken: `sent` of a
connection, `datagrams` of the feed.

The functions are written over the interface `Engine` of an order book, and `serve_eq` gives the
four branches of `handle_frame` one shape. -/

namespace Lob

/-- What the gateway calls on its order book. -/
structure Engine (B : Type) where
  submitLimit : B → OrderId → Side → Int → Qty → Tif → Owner → B × SubmitResult × List Event
  submitMarket : B → OrderId → Side → Qty → Owner → B × Qty × List Event
  cancel : B → OrderId → B × Bool
  modify : B → OrderId → Int → Qty → B × ModifyResult × List Event
  topLevels : B → Side → ℕ → List (Int × UInt64)

def OrderBook.engine : Engine OrderBook :=
  ⟨Book.submitLimit, Book.submitMarket, Book.cancel, Book.modify, Book.topLevels⟩

def Flat.engine (c : Config) : Engine Flat :=
  ⟨Flat.submitLimit c, Flat.submitMarket c, Flat.cancel, Flat.modify c, Flat.topLevels⟩

/-! ### Connections -/

structure Connection where
  owner : Owner
  outbox : List UInt8 := []
  dead : Bool := false
  sent : List UInt8 := []
deriving DecidableEq, Repr

def kMaxOutbox : ℕ := 64 * 1024

namespace Connection

/-- A slow consumer is dropped rather than buffered without bound. -/
def queueSend (c : Connection) (bs : List UInt8) : Connection :=
  if c.outbox.length + bs.length > kMaxOutbox then { c with dead := true }
  else { c with outbox := c.outbox ++ bs }

def sendExec (c : Connection) (m : ExecReportMsg) : Connection :=
  match m.encode 64 with
  | some bs => c.queueSend bs
  | none => c

/-- A `::send` that takes `n` bytes. -/
def flush (c : Connection) (n : ℕ) : Connection :=
  { c with outbox := c.outbox.drop n, sent := c.sent ++ c.outbox.take n }

/-- The loops that act on the first connection of a kind. -/
def onFirst (p : Connection → Bool) (f : Connection → Connection) :
    List Connection → List Connection
  | [] => []
  | c :: cs => if p c then f c :: cs else c :: onFirst p f cs

/-- Connections are known by their owner. -/
def isOf (owner : Owner) (c : Connection) : Bool := decide (c.owner = owner)

end Connection

/-! ### Market data -/

structure FeedPublisher where
  orders : OrderIds := {}
  seq : UInt64 := 0
  takerSide : Side := .bid
  datagrams : List (List UInt8) := []

namespace FeedPublisher

def sendDatagram (feed : FeedPublisher) : Option (List UInt8) → FeedPublisher
  | some bs => { feed with datagrams := feed.datagrams ++ [bs] }
  | none => feed

def onTrade (feed : FeedPublisher) (maker : OrderId) (px : Int) (qty : Qty) : FeedPublisher :=
  let feed := { feed with orders := feed.orders.fill maker qty, seq := feed.seq + 1 }
  feed.sendDatagram (TradeMsg.encode 64 ⟨feed.seq, px, qty, feed.takerSide⟩)

/-- The levels of a message; there is no price where the side has no more of them. -/
def padded (levels : List (Int × UInt64)) : Vector (Int × UInt64) kBookDepth :=
  Vector.ofFn fun i => levels[i.val]?.getD (kNoPrice, 0)

/-- `publish_book`, with the levels of both sides. -/
def publishBook (feed : FeedPublisher) (bids asks : List (Int × UInt64)) : FeedPublisher :=
  let feed := { feed with seq := feed.seq + 1 }
  feed.sendDatagram (BookMsg.encode 256 ⟨feed.seq, padded bids, padded asks⟩)

/-- `on_unsolicited_cancel`: a kill is reported to its owner, under the client's id. -/
def unsolicitedCancel (client : OrderId) (owner : Owner) : List Connection → List Connection :=
  Connection.onFirst (fun c => c.isOf owner && !c.dead) fun c => c.sendExec ⟨client, 0, .canceled⟩

/-- One event of the engine. -/
def callback (x : FeedPublisher × List Connection) : Event → FeedPublisher × List Connection
  | .trade _ maker px qty => (x.1.onTrade maker px qty, x.2)
  | .cancel id owner =>
      let (orders, client) := x.1.orders.forget id
      ({ x.1 with orders := orders }, unsolicitedCancel client owner x.2)

def callbacks (x : FeedPublisher × List Connection) (tape : List Event) :
    FeedPublisher × List Connection := tape.foldl callback x

end FeedPublisher

/-! ### Frames -/

structure Gateway (B : Type) where
  book : B
  feed : FeedPublisher := {}
  conns : List Connection := []

def submitStatus (r : SubmitResult) (want : Qty) : ExecStatus :=
  if r.rejected then .rejected
  else if r.filled = want then .filled
  else if r.rested then
    if r.filled ≠ 0 then .partialRest else .accepted
  else if r.filled ≠ 0 then .partialDone else .canceled

namespace Gateway

variable {B : Type} (E : Engine B)

/-- The book after a call, and the events of the call. -/
def called (g : Gateway B) (book : B) (tape : List Event) : Gateway B :=
  let (feed, conns) := FeedPublisher.callbacks (g.feed, g.conns) tape
  ⟨book, feed, conns⟩

def withOrders (g : Gateway B) (f : OrderIds → OrderIds) : Gateway B :=
  { g with feed := { g.feed with orders := f g.feed.orders } }

def setTakerSide (g : Gateway B) (s : Side) : Gateway B :=
  { g with feed := { g.feed with takerSide := s } }

def newOrder (g : Gateway B) (owner : Owner) (m : NewOrderMsg) : Gateway B × ExecReportMsg :=
  let g := g.setTakerSide m.side
  let (id, orders) := g.feed.orders.assign owner m.id
  let g := g.withOrders fun _ => orders
  let (book, r, tape) := E.submitLimit g.book id m.side m.px m.qty m.tif owner
  let g := g.called book tape
  let g := if r.rested then
    g.withOrders fun ids => ids.rest id owner m.id (m.qty - r.filled) m.side else g
  (g, ⟨m.id, r.filled, submitStatus r m.qty⟩)

def marketStatus (id : OrderId) (filled want : Qty) : ExecStatus :=
  if id = 0 then .rejected
  else if filled = want then .filled
  else if filled ≠ 0 then .partialDone else .canceled

def market (g : Gateway B) (owner : Owner) (m : MarketMsg) : Gateway B × ExecReportMsg :=
  let g := g.setTakerSide m.side
  let (id, orders) := g.feed.orders.assign owner m.id
  let g := g.withOrders fun _ => orders
  let (book, filled, tape) :=
    if id ≠ 0 then E.submitMarket g.book id m.side m.qty owner else (g.book, 0, [])
  let g := g.called book tape
  (g, ⟨m.id, filled, marketStatus id filled m.qty⟩)

def cancel (g : Gateway B) (owner : Owner) (m : CancelMsg) : Gateway B × ExecReportMsg :=
  let id := g.feed.orders.find owner m.id
  let (book, ok) := E.cancel g.book id
  let g := { g with book := book }
  let g := if ok then g.withOrders fun ids => (ids.forget id).1 else g
  (g, ⟨m.id, 0, if ok then .canceled else .unknown⟩)

def modifyStatus (r : ModifyResult) (newQty : Qty) : ExecStatus :=
  if r.ok = false then
    if r.found then .rejected else .unknown
  else if r.rested then .replaced
  else if r.filled = newQty then .filled
  else if r.filled ≠ 0 then .partialDone else .canceled

/-- `*side` is read where the order rests again, and the model takes any side when there is
none. -/
def modify (g : Gateway B) (owner : Owner) (m : ModifyMsg) : Gateway B × ExecReportMsg :=
  let id := g.feed.orders.find owner m.id
  let side := g.feed.orders.side id
  let g := match side with
    | some s => g.setTakerSide s
    | none => g
  let (book, r, tape) := E.modify g.book id m.newPx m.newQty
  let g := g.called book tape
  let g := if r.ok = true ∧ r.rested = true then
      g.withOrders fun ids => ids.rest id owner m.id (m.newQty - r.filled) (side.getD default)
    else if r.ok then g.withOrders fun ids => (ids.forget id).1
    else g
  (g, ⟨m.id, r.filled, modifyStatus r m.newQty⟩)

/-- The switch of `handle_frame`; the report is the one it sends. -/
def serve (g : Gateway B) (owner : Owner) : Request → Gateway B × ExecReportMsg
  | .newOrder m => newOrder E g owner m
  | .market m => market E g owner m
  | .cancel m => cancel E g owner m
  | .modify m => modify E g owner m

def onConn (g : Gateway B) (owner : Owner) (f : Connection → Connection) : Gateway B :=
  { g with conns := Connection.onFirst (Connection.isOf owner) f g.conns }

def publish (g : Gateway B) : Gateway B :=
  let bids := E.topLevels g.book .bid kBookDepth
  let asks := E.topLevels g.book .ask kBookDepth
  { g with feed := g.feed.publishBook bids asks }

/-- `handle_frame`, on the connection of `owner`. -/
def handleFrame (g : Gateway B) (owner : Owner) (body : List UInt8) :
    Gateway B × Option ExecReportMsg :=
  match g.conns.find? (Connection.isOf owner) with
  | none => (g, none)
  | some c =>
      if c.dead then (g, none)
      else match decodeRequest body with
        | none => (g.onConn owner fun c => { c with dead := true }, none)
        | some req =>
            let (g, report) := serve E g owner req
            ((g.onConn owner fun c => c.sendExec report).publish E, some report)

/-! ### Disconnect -/

/-- The loop of `cancel_on_disconnect`. -/
def cancelAll (g : Gateway B) (ids : List OrderId) : Gateway B :=
  ids.foldl (fun g id =>
    { g with book := (E.cancel g.book id).1 }.withOrders fun orders => (orders.forget id).1) g

def cancelOnDisconnect (g : Gateway B) (owner : Owner) : Gateway B :=
  let ids := g.feed.orders.ownedBy owner
  let g := cancelAll E g ids
  if ids = [] then g else g.publish E

/-! ### Runs -/

/-- What the poll loop does, one action at a time. -/
inductive Input where
  | accept (owner : Owner)
  | frame (owner : Owner) (body : List UInt8)
  | flush (owner : Owner) (n : ℕ)
  | hangup (owner : Owner)
  | disconnect (owner : Owner)
  | erase (owner : Owner)
deriving DecidableEq, Repr

/-- A client's frame, handed on without its length prefix. -/
def Input.send (owner : Owner) (frame : Option (List UInt8)) : Input :=
  .frame owner ((frame.getD []).drop 2)

/-- One action; a frame that is executed gives its own report. -/
def step (g : Gateway B) : Input → Gateway B × Option ExecReportMsg
  | .accept owner => ({ g with conns := g.conns ++ [{ owner := owner }] }, none)
  | .frame owner body => handleFrame E g owner body
  | .flush owner n => (g.onConn owner fun c => c.flush n, none)
  | .hangup owner => (g.onConn owner fun c => { c with dead := true }, none)
  | .disconnect owner => (cancelOnDisconnect E g owner, none)
  | .erase owner => ({ g with conns := g.conns.eraseP (Connection.isOf owner) }, none)

end Gateway

/-! ### One frame

Every branch of the switch finds an engine id, makes at most one call under it, passes the
events on, records what the return value tells, and reports.  `serve_eq` reads the four branches
that way. -/

namespace Engine

variable {B : Type} (E : Engine B)

/-- One call of the engine. -/
def call (b : B) : Op → B × Answer
  | .submitLimit id s px qty tif owner =>
      let (b, r, tape) := E.submitLimit b id s px qty tif owner
      (b, .submit r, tape)
  | .submitMarket id s qty owner =>
      let (b, filled, tape) := E.submitMarket b id s qty owner
      (b, .market filled, tape)
  | .cancel id =>
      let (b, ok) := E.cancel b id
      (b, .cancel ok, [])
  | .modify id newPx newQty =>
      let (b, r, tape) := E.modify b id newPx newQty
      (b, .modify r, tape)

/-- The call of a frame; the gateway itself answers a market order it gives no id. -/
def ask (b : B) : Option Op → B × Answer
  | some op => E.call b op
  | none => (b, .market 0, [])

end Engine

/-- The engine id a request is about. -/
def OrderIds.idOf (ids : OrderIds) (owner : Owner) : Request → OrderId
  | .newOrder m => (ids.assign owner m.id).1
  | .market m => (ids.assign owner m.id).1
  | .cancel m => ids.find owner m.id
  | .modify m => ids.find owner m.id

/-- The ids once the engine id is found. -/
def OrderIds.assigned (ids : OrderIds) (owner : Owner) : Request → OrderIds
  | .newOrder m => (ids.assign owner m.id).2
  | .market m => (ids.assign owner m.id).2
  | .cancel _ => ids
  | .modify _ => ids

namespace Request

/-- The call that a request makes under the engine id `id`. -/
def op (owner : Owner) (id : OrderId) : Request → Option Op
  | newOrder m => some (.submitLimit id m.side m.px m.qty m.tif owner)
  | market m => if id ≠ 0 then some (.submitMarket id m.side m.qty owner) else none
  | cancel _ => some (.cancel id)
  | modify m => some (.modify id m.newPx m.newQty)

/-- The side of the trades, where the request sets it. -/
def takerSide? (side : Option Side) : Request → Option Side
  | newOrder m => some m.side
  | market m => some m.side
  | cancel _ => none
  | modify _ => side

/-- What is recorded of the return value. -/
def settle (owner : Owner) (id : OrderId) (side : Option Side) :
    Request → Reply → OrderIds → OrderIds
  | newOrder m, .submit r, ids =>
      if r.rested then ids.rest id owner m.id (m.qty - r.filled) m.side else ids
  | cancel _, .cancel ok, ids => if ok then (ids.forget id).1 else ids
  | modify m, .modify r, ids =>
      if r.ok = true ∧ r.rested = true then
        ids.rest id owner m.id (m.newQty - r.filled) (side.getD default)
      else if r.ok then (ids.forget id).1
      else ids
  | _, _, ids => ids

/-- What is reported of the return value. -/
def report (id : OrderId) : Request → Reply → ExecReportMsg
  | newOrder m, .submit r => ⟨m.id, r.filled, submitStatus r m.qty⟩
  | market m, .market filled => ⟨m.id, filled, Gateway.marketStatus id filled m.qty⟩
  | cancel m, .cancel ok => ⟨m.id, 0, if ok then .canceled else .unknown⟩
  | modify m, .modify r => ⟨m.id, r.filled, Gateway.modifyStatus r m.newQty⟩
  | req, _ => ⟨req.id, 0, .unknown⟩

end Request

namespace Gateway

variable {B : Type} {E : Engine B}

/-- The answer of the engine to a request. -/
def asked (E : Engine B) (g : Gateway B) (owner : Owner) (req : Request) : B × Answer :=
  E.ask g.book (req.op owner (g.feed.orders.idOf owner req))

/-- The gateway when it calls the engine. -/
def prepared (g : Gateway B) (owner : Owner) (req : Request) : Gateway B :=
  let ids := g.feed.orders
  let side := req.takerSide? (ids.side (ids.idOf owner req))
  { g with feed := { g.feed with
      orders := ids.assigned owner req
      takerSide := side.getD g.feed.takerSide } }

theorem serve_eq (g : Gateway B) (owner : Owner) (req : Request) :
    serve E g owner req =
      let ids := g.feed.orders
      let id := ids.idOf owner req
      let x := g.asked E owner req
      (((g.prepared owner req).called x.1 x.2.2).withOrders
        (req.settle owner id (ids.side id) x.2.1), req.report id x.2.1) := by
  cases req with
  | newOrder m =>
      rcases hx : E.submitLimit g.book (g.feed.orders.assign owner m.id).1 m.side m.px m.qty m.tif
        owner with ⟨book, r, tape⟩
      simp only [serve, newOrder, asked, Request.op, Engine.ask, Engine.call, OrderIds.idOf,
        setTakerSide, withOrders, hx, Request.settle]
      split_ifs <;> rfl
  | market m =>
      rcases hx : g.feed.orders.assign owner m.id with ⟨id, orders⟩
      simp only [serve, market, asked, Request.op, OrderIds.idOf, OrderIds.assigned, prepared,
        setTakerSide, withOrders, hx]
      by_cases hid : id = 0
      · subst hid
        rfl
      · simp only [ne_eq, hid, not_false_eq_true, if_true]
        rfl
  | cancel m =>
      rcases hx : E.cancel g.book (g.feed.orders.find owner m.id) with ⟨book, ok⟩
      simp only [serve, cancel, asked, Request.op, Engine.ask, Engine.call, OrderIds.idOf,
        withOrders, hx, Request.settle]
      cases ok <;> rfl
  | modify m =>
      rcases hx : E.modify g.book (g.feed.orders.find owner m.id) m.newPx m.newQty with
        ⟨book, r, tape⟩
      cases hside : g.feed.orders.side (g.feed.orders.find owner m.id) with
      | none =>
          simp only [serve, modify, asked, Request.op, Engine.ask, Engine.call, OrderIds.idOf,
            withOrders, hside, hx, prepared, Request.settle, Request.takerSide?]
          split_ifs <;> rfl
      | some s =>
          simp only [serve, modify, asked, Request.op, Engine.ask, Engine.call, OrderIds.idOf,
            setTakerSide, withOrders, hside, hx, prepared, Request.settle, Request.takerSide?]
          split_ifs <;> rfl

end Gateway

end Lob
