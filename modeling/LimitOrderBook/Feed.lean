import LimitOrderBook.Codec
import LimitOrderBook.Reports

/-! # The public feed

The publisher of `net/gateway.hpp` numbers what it sends.  A datagram is the frame of a
`FeedMsg`: a trade of the engine, or a snapshot of the book.

`Gateway.ops` are the calls that an action makes on its engine, and `opsOf` those of a run: the
book of the gateway is the one the engine has after them, and `OrderBook.trades` are the fills it
told of on the way.  `Gateway.Faithful` says that the feed shows these trades, one by one, and after
its last snapshot the book; every action keeps it (`Faithful.step`). -/

namespace Lob

open KeyedQueue

/-! ### What the feed should say -/

namespace OrderBook

/-- The prices at which orders rest on a side, best first. -/
def occupied (b : OrderBook) (s : Side) : List Int :=
  (b.prices s).filter fun px => decide (b.queueAt s px ≠ [])

/-- The levels of a message are the best levels of a side with their totals, and no others. -/
def ShowsSide (b : OrderBook) (s : Side) (levels : Vector (Int × UInt64) kBookDepth) : Prop :=
  levels.toList.map (fun l => (l.1, l.2.toNat)) =
    ((b.occupied s).take kBookDepth).map (fun px => (px, total (b.queueAt s px))) ++
      List.replicate (kBookDepth - (b.occupied s).length) (kNoPrice, 0)

end OrderBook

def Event.isTrade : Event → Bool
  | .trade .. => true
  | .cancel .. => false

namespace OrderBook

/-- The trades of some calls, each with the book that its call finds. -/
def tradesFrom (b : OrderBook) : List Op → List (OrderBook × Event)
  | [] => []
  | op :: ops =>
      ((b.call op).2.2.filter Event.isTrade).map (fun e => (b, e)) ++ tradesFrom (b.call op).1 ops

/-- The trades of a run of the engine. -/
def trades (p : Params) (ops : List Op) : List (OrderBook × Event) := tradesFrom (new p) ops

theorem tradesFrom_append (b : OrderBook) (ops more : List Op) : tradesFrom b (ops ++ more) =
    tradesFrom b ops ++ tradesFrom (Transition.finalState Book.call b ops) more := by
  induction ops generalizing b with
  | nil => rfl
  | cons op ops ih =>
      rw [List.cons_append, tradesFrom, ih, tradesFrom, List.append_assoc]
      rfl

theorem run_ops_append (p : Params) (ops more : List Op) :
    run p (ops ++ more) = Transition.finalState Book.call (run p ops) more :=
  Transition.finalState_append _ _ _

theorem trades_append (p : Params) (ops more : List Op) :
    trades p (ops ++ more) = trades p ops ++ tradesFrom (run p ops) more :=
  tradesFrom_append _ _ _

end OrderBook

/-- A datagram of the feed. -/
inductive FeedMsg where
  | trade (m : TradeMsg)
  | book (m : BookMsg)
deriving DecidableEq, Repr

namespace FeedMsg

def seq : FeedMsg → UInt64
  | trade m => m.seq
  | book m => m.seq

def message : FeedMsg → Message
  | trade m => .trade m
  | book m => .book m

def trade? : FeedMsg → Option TradeMsg
  | trade m => some m
  | book _ => none

def book? : FeedMsg → Option BookMsg
  | trade _ => none
  | book m => some m

end FeedMsg

/-- The message tells of a trade: it has the price of the maker, and the taker is on the other
side. -/
def Tells (x : OrderBook × Event) (m : TradeMsg) : Prop :=
  ∃ taker s r, r ∈ x.1.flat.side s ∧ x.2 = .trade taker r.id r.price m.qty ∧ m.px = r.price ∧
    m.takerSide = s.opp

/-! ### Snapshots -/

namespace OrderBook

variable {c : Config} {b : OrderBook} {F : Flat} {s : Side}

theorem mem_occupied (h : Book.Repr c b F) {px : Int} :
    px ∈ b.occupied s ↔ ∃ r ∈ F.side s, r.price = px := by
  have hband : b.bids.inBand px = c.inBand px := h.inBand .bid px
  rw [occupied, List.mem_filter, mem_prices, hband, decide_eq_true_eq]
  constructor
  · rintro ⟨hpx, hne⟩
    rw [queueAt_eq h hpx] at hne
    obtain ⟨r, hr⟩ := List.exists_mem_of_ne_nil _ hne
    exact ⟨r, mem_level.mp hr⟩
  · rintro ⟨r, hr, rfl⟩
    have hpx := h.wf.band s r hr
    rw [queueAt_eq h hpx]
    exact ⟨hpx, List.ne_nil_of_mem (mem_level.mpr ⟨hr, rfl⟩)⟩

theorem topLevels_eq (h : Book.Repr c b F) (n : ℕ) : b.topLevels s n =
    ((b.occupied s).take n).map fun px => (px, UInt64.ofNat (total (b.queueAt s px))) := by
  have hsorted : (b.occupied s).Pairwise (better s) := (prices_pairwise b s).filter _
  rw [h.topLevels, Flat.topLevels,
    levelsOf_eq n hsorted (h.wf.ordered s) fun px => mem_occupied h]
  refine List.map_congr_left fun px hpx => ?_
  obtain ⟨r, hr, rfl⟩ := (mem_occupied h).mp (List.mem_of_mem_take hpx)
  rw [queueAt_eq h (h.wf.band s r hr)]

theorem toList_padded (levels : List (Int × UInt64)) (hlen : levels.length ≤ kBookDepth) :
    (FeedPublisher.padded levels).toList =
      levels ++ List.replicate (kBookDepth - levels.length) (kNoPrice, 0) := by
  apply List.ext_getElem?
  intro i
  by_cases hi : i < kBookDepth
  · have hentry : (FeedPublisher.padded levels).toList[i]? =
        some (levels[i]?.getD (kNoPrice, 0)) := by
      simp [FeedPublisher.padded, hi]
    rw [hentry, List.getElem?_append]
    split_ifs with hlt
    · simp [hlt]
    · have hrest : i - levels.length < kBookDepth - levels.length := by omega
      simp [List.getElem?_eq_none (Nat.le_of_not_lt hlt), hrest]
  · have hlen' : (FeedPublisher.padded levels).toList.length ≤ i := by simpa using hi
    rw [List.getElem?_eq_none hlen', List.getElem?_eq_none]
    simp only [List.length_append, List.length_replicate]
    omega

/-- **A snapshot shows its side**, if fewer than `2 ^ 32` orders rest. -/
theorem showsSide_padded (h : Book.Repr c b F) (hsmall : b.restingOrders < 2 ^ 32) :
    b.ShowsSide s (FeedPublisher.padded (b.topLevels s kBookDepth)) := by
  have htotal : ∀ px ∈ b.occupied s,
      (UInt64.ofNat (total (b.queueAt s px))).toNat = total (b.queueAt s px) := by
    intro px hpx
    obtain ⟨r, hr, rfl⟩ := (mem_occupied h).mp hpx
    have hlen : (b.queueAt s r.price).length ≤ (F.side s).length := by
      rw [queueAt_eq h (h.wf.band s r hr)]
      exact List.length_filter_le _ _
    have hside := h.length_lt (s := s) (List.append_nil _).symm
    have hsize : Index.size b.orders < 2 ^ 32 := hsmall
    apply UInt64.toNat_ofNat_of_lt'
    apply total_lt
    omega
  have hlevels := topLevels_eq (s := s) h kBookDepth
  have hlen : (b.topLevels s kBookDepth).length = min kBookDepth (b.occupied s).length := by
    rw [hlevels, List.length_map, List.length_take]
  have hpad : kBookDepth - (b.topLevels s kBookDepth).length =
      kBookDepth - (b.occupied s).length := by omega
  rw [ShowsSide, toList_padded _ (by omega), hpad, hlevels, List.map_append, List.map_map,
    List.map_replicate]
  refine congrArg₂ (· ++ ·) (List.map_congr_left fun px hpx => ?_) rfl
  exact Prod.ext rfl (htotal px (List.mem_of_mem_take hpx))

end OrderBook

/-! ### Numbers -/

theorem TradeMsg.encode_eq (m : TradeMsg) : m.encode 64 = some (Message.trade m).wire :=
  ((Message.trade m).encodeFrame_eq 64).trans (if_pos (by decide : 24 ≤ 64))

theorem BookMsg.encode_eq (m : BookMsg) : m.encode 256 = some (Message.book m).wire :=
  ((Message.book m).encodeFrame_eq 256).trans (if_pos (by decide : 171 ≤ 256))

namespace FeedPublisher

/-- The publisher has sent `msgs`, numbered from `1`. -/
structure Published (feed : FeedPublisher) (msgs : List FeedMsg) : Prop where
  datagrams : feed.datagrams = msgs.map fun m => m.message.wire
  seqs : msgs.map FeedMsg.seq = (List.range' 1 msgs.length).map UInt64.ofNat
  seq : feed.seq = UInt64.ofNat msgs.length

namespace Published

variable {feed feed' : FeedPublisher} {msgs : List FeedMsg}

/-- One more message, under the next number. -/
theorem send (h : feed.Published msgs) {m : FeedMsg} (hm : m.seq = feed.seq + 1)
    (hdatagrams : feed'.datagrams = feed.datagrams ++ [m.message.wire])
    (hseq : feed'.seq = feed.seq + 1) : feed'.Published (msgs ++ [m]) where
  datagrams := by rw [hdatagrams, h.datagrams, List.map_append, List.map_singleton]
  seqs := by
    rw [List.map_append, h.seqs, List.length_append, List.length_singleton, List.range'_1_concat,
      List.map_append, List.map_singleton, List.map_singleton, hm, h.seq, Nat.add_comm 1,
      UInt64.ofNat_add]
    rfl
  seq := by
    rw [hseq, h.seq, List.length_append, List.length_singleton, UInt64.ofNat_add]
    rfl

/-- Numbers and datagrams are all that counts. -/
theorem congr (h : feed.Published msgs) (hdatagrams : feed'.datagrams = feed.datagrams)
    (hseq : feed'.seq = feed.seq) : feed'.Published msgs :=
  ⟨hdatagrams.trans h.datagrams, h.seqs, hseq.trans h.seq⟩

theorem onTrade (h : feed.Published msgs) (maker : OrderId) (px : Int) (qty : Qty) :
    (feed.onTrade maker px qty).Published
      (msgs ++ [.trade ⟨feed.seq + 1, px, qty, feed.takerSide⟩]) := by
  simp only [FeedPublisher.onTrade, TradeMsg.encode_eq, sendDatagram]
  exact h.send rfl rfl rfl

theorem publishBook (h : feed.Published msgs) (bids asks : List (Int × UInt64)) :
    (feed.publishBook bids asks).Published
      (msgs ++ [.book ⟨feed.seq + 1, padded bids, padded asks⟩]) := by
  simp only [FeedPublisher.publishBook, BookMsg.encode_eq, sendDatagram]
  exact h.send rfl rfl rfl

theorem takerSide_onTrade (feed : FeedPublisher) (maker : OrderId) (px : Int) (qty : Qty) :
    (feed.onTrade maker px qty).takerSide = feed.takerSide := by
  simp only [FeedPublisher.onTrade, TradeMsg.encode_eq, sendDatagram]

/-- The message repeats the trade, with the given side of the taker. -/
def Repeats (side : Side) (e : Event) (m : TradeMsg) : Prop :=
  ∃ taker maker, e = .trade taker maker m.px m.qty ∧ m.takerSide = side

/-- **The callbacks of a call publish its trades**, in order. -/
theorem callbacks (tape : List Event) (h : feed.Published msgs) (conns : List Connection) :
    ∃ ts, (FeedPublisher.callbacks (feed, conns) tape).1.Published (msgs ++ ts.map .trade) ∧
      List.Forall₂ (Repeats feed.takerSide) (tape.filter Event.isTrade) ts := by
  induction tape generalizing feed msgs conns with
  | nil => exact ⟨[], by simpa [FeedPublisher.callbacks] using h, .nil⟩
  | cons e tape ih =>
      cases e with
      | trade taker maker px qty =>
          obtain ⟨ts, hsent, htold⟩ := ih (h.onTrade maker px qty) conns
          rw [takerSide_onTrade] at htold
          refine ⟨⟨feed.seq + 1, px, qty, feed.takerSide⟩ :: ts, ?_, ?_⟩
          · rw [List.append_assoc] at hsent
            exact hsent
          · exact .cons ⟨taker, maker, rfl, rfl⟩ htold
      | cancel id owner =>
          have hforget : Published { feed with orders := (feed.orders.forget id).1 } msgs :=
            h.congr rfl rfl
          exact ih hforget _

end Published

end FeedPublisher

/-! ### The calls of the gateway -/

namespace Gateway

open Connection

/-- The calls that an action makes on the engine. -/
def ops (g : Gateway OrderBook) : Input → List Op
  | .frame owner body =>
      match g.request? owner body with
      | some req => (req.op owner (g.feed.orders.idOf owner req)).toList
      | none => []
  | .disconnect owner => (g.feed.orders.ownedBy owner).map .cancel
  | _ => []

/-- The calls of a run. -/
def opsOf (p : Params) (inputs : List Input) : List Op :=
  Transition.record (step OrderBook.engine) (fun ops g i _ => ops ++ g.ops i) [] (new p) inputs

theorem opsOf_append (p : Params) (inputs : List Input) (i : Input) :
    opsOf p (inputs ++ [i]) = opsOf p inputs ++ (run p inputs).ops i :=
  Transition.record_append _ _ _ _

namespace Kept

variable {c : Config} {g : Gateway Flat} {owner : Owner} {req : Request} {op : Op} {t : Taker}

/-- **The side of the taker is set before it trades.** -/
theorem takerSide_prepared (h : Kept c g)
    (hop : req.op owner (g.feed.orders.idOf owner req) = some op) (hsend : g.book.Sends c op t) :
    (g.prepared owner req).feed.takerSide = t.side := by
  cases req with
  | newOrder m =>
      obtain rfl := Option.some.inj hop
      cases hsend
      rfl
  | market m =>
      simp only [Request.op] at hop
      split_ifs at hop
      obtain rfl := Option.some.inj hop
      cases hsend
      rfl
  | cancel m =>
      obtain rfl := Option.some.inj hop
      cases hsend
  | modify m =>
      obtain rfl := Option.some.inj hop
      cases hsend with
      | modify hfind =>
          -- the record of the order knows its side
          obtain ⟨hl, -⟩ := h.shows_.live_of_resting h.wf hfind
          simp only [prepared, Request.takerSide?, OrderIds.idOf, OrderIds.side, hl, Option.map_some,
            Option.getD_some]

/-- The maker of a trade rests on the other side of the book that the frame finds, at the price of
the trade. -/
theorem trade (h : Kept c g) {taker maker : OrderId} {px : Int} {qty : Qty}
    (he : .trade taker maker px qty ∈ (g.asked (Flat.engine c) owner req).2.2) :
    ∃ s r, r ∈ g.book.side s ∧ r.id = maker ∧ r.price = px ∧
      (g.prepared owner req).feed.takerSide = s.opp := by
  obtain ⟨op, t, hop, hsend, -, hask⟩ := h.sends he
  rw [hask] at he
  obtain ⟨t₁, t₂, htape⟩ := List.append_of_mem he
  have hq := Flat.side_nodup (hsend.book_wf h.wf).nodup t.side.opp
  obtain ⟨r, q, hfront, -, hmeets⟩ := walk_event _ _ hq htape
  cases hmeets with
  | trade =>
      have hr : r ∈ replay t₁ (t.book.side t.side.opp) := by
        rw [hfront]
        exact List.mem_cons_self
      obtain ⟨r₀, hr₀, hid, hpx, -⟩ := mem_of_keys (keys_replay t₁ _) hr
      rw [hsend.side_opp h.wf] at hr₀
      exact ⟨t.side.opp, r₀, hr₀, hid, hpx,
        (h.takerSide_prepared hop hsend).trans (Side.opp_opp _).symm⟩

end Kept

variable {p : Params} {g : Gateway OrderBook} {owner : Owner} {req : Request}

/-- A trade is priced in the band; its maker rests on one side, and the taker is set to be on the
other. -/
theorem Reached.trade (h : Reached p.config g) {taker maker : OrderId} {px : Int} {qty : Qty}
    (he : .trade taker maker px qty ∈ (g.asked OrderBook.engine owner req).2.2) :
    p.inBand px = true ∧ ∃ s r, r ∈ g.book.flat.side s ∧ r.id = maker ∧ r.price = px ∧
      (g.prepared owner req).feed.takerSide = s.opp := by
  obtain ⟨g', hsim, hkept⟩ := h
  rw [(hsim.asked (OrderBook.engine_sim p.config) owner req).1] at he
  obtain ⟨s, r, hr, hid, hpx, hside⟩ := hkept.trade he
  rw [OrderBook.flat_eq hsim.book, (hsim.prepared owner req).feed]
  exact ⟨hpx ▸ hkept.wf.band s r hr, s, r, hr, hid, hpx, hside⟩

theorem Reached.serve (h : Reached p.config g) (owner : Owner) (req : Request) :
    Reached p.config (serve OrderBook.engine g owner req).1 := by
  obtain ⟨g', hsim, hkept⟩ := h
  exact ⟨_, (hsim.serve (OrderBook.engine_sim p.config) owner req).2, hkept.serve owner req⟩

theorem Reached.cancelAll (h : Reached p.config g) (ids : List OrderId) :
    Reached p.config (g.cancelAll OrderBook.engine ids) := by
  obtain ⟨g', hsim, hkept⟩ := h
  exact ⟨_, hsim.cancelAll (OrderBook.engine_sim p.config) ids, hkept.cancelAll ids⟩

theorem Reached.onConn (h : Reached p.config g) (owner : Owner) (f : Connection → Connection) :
    Reached p.config (g.onConn owner f) := by
  obtain ⟨g', hsim, hkept⟩ := h
  exact ⟨_, hsim.onConn owner f, hkept.onConn owner f⟩

/-- A frame makes the call of its request and passes on its trades. -/
theorem asked_spec (g : Gateway OrderBook) (owner : Owner) (req : Request) :
    let ops := (req.op owner (g.feed.orders.idOf owner req)).toList
    (g.asked OrderBook.engine owner req).1 = Transition.finalState Book.call g.book ops ∧
      OrderBook.tradesFrom g.book ops = ((g.asked OrderBook.engine owner req).2.2.filter
        Event.isTrade).map fun e => (g.book, e) := by
  unfold asked
  cases req.op owner (g.feed.orders.idOf owner req) with
  | none => exact ⟨rfl, rfl⟩
  | some op =>
      simp only [Option.toList_some, Engine.ask, OrderBook.engine_call, OrderBook.tradesFrom,
        List.append_nil, and_true]
      rfl

theorem cancelAll_book (g : Gateway OrderBook) (ids : List OrderId) :
    (g.cancelAll OrderBook.engine ids).book =
      Transition.finalState Book.call g.book (ids.map .cancel) := by
  induction ids generalizing g with
  | nil => rfl
  | cons id ids ih => exact ih _

/-- A cancel has no trade. -/
theorem tradesFrom_cancel (b : OrderBook) (ids : List OrderId) :
    OrderBook.tradesFrom b (ids.map .cancel) = [] := by
  induction ids generalizing b with
  | nil => rfl
  | cons id ids ih => exact ih _

/-! ### Runs -/

/-- The feed has told of every trade of the calls `ops`. -/
structure Told (p : Params) (ops : List Op) (g : Gateway OrderBook) (msgs : List FeedMsg) :
    Prop where
  book : g.book = OrderBook.run p ops
  published : g.feed.Published msgs
  trades : List.Forall₂ Tells (OrderBook.trades p ops) (msgs.filterMap FeedMsg.trade?)
  inRange : p.bandHi ≤ kMaxPrice → ∀ m ∈ msgs, m.message.InRange

/-- The feed has told of every trade, and its last snapshot is the one of the book. -/
structure Faithful (p : Params) (ops : List Op) (g : Gateway OrderBook) (msgs : List FeedMsg) :
    Prop extends Told p ops g msgs where
  silent : (msgs.filterMap FeedMsg.book?).getLast? = none → g.book = OrderBook.new p
  last : ∀ m, (msgs.filterMap FeedMsg.book?).getLast? = some m →
    m.bids = FeedPublisher.padded (g.book.topLevels .bid kBookDepth) ∧
      m.asks = FeedPublisher.padded (g.book.topLevels .ask kBookDepth)

section runs

variable {ops : List Op} {msgs : List FeedMsg}

theorem isPrice_of_inBand (hp : p.Valid) (hmax : p.bandHi ≤ kMaxPrice) {px : Int}
    (hpx : p.inBand px = true) : IsPrice px := by
  have hlo := hp.lo_pos
  simp only [Params.inBand, Bool.and_eq_true, decide_eq_true_eq] at hpx
  unfold kMaxPrice at hmax
  constructor <;> omega

/-- **One frame**: each trade of its call is told of. -/
theorem Told.serve (hp : p.Valid) (hreached : Reached p.config g) (h : Told p ops g msgs)
    (owner : Owner) (req : Request) :
    ∃ ts : List TradeMsg, Told p (ops ++ (req.op owner (g.feed.orders.idOf owner req)).toList)
      (serve OrderBook.engine g owner req).1 (msgs ++ ts.map .trade) := by
  have hprepared : (g.prepared owner req).feed.Published msgs := h.published.congr rfl rfl
  obtain ⟨ts, hsent, hrepeats⟩ :=
    hprepared.callbacks (g.asked OrderBook.engine owner req).2.2 g.conns
  obtain ⟨hbook, hops⟩ := asked_spec g owner req
  have htold : List.Forall₂ (fun e m => p.inBand m.px = true ∧ Tells (g.book, e) m)
      ((g.asked OrderBook.engine owner req).2.2.filter Event.isTrade) ts := by
    refine ((List.forall₂_and_left _ _).mpr ⟨fun e he => List.mem_of_mem_filter he, hrepeats⟩).imp ?_
    rintro e m ⟨he, taker, maker, rfl, hm⟩
    obtain ⟨hpx, s, r, hr, hid, hprice, hside⟩ := hreached.trade he
    exact ⟨hpx, taker, s, r, hr, by rw [hid, hprice], hprice.symm, hm.trans hside⟩
  have hpxs : ∀ m ∈ ts, p.inBand m.px = true := by
    have hflip : List.Forall₂ (fun m e => p.inBand m.px = true ∧ Tells (g.book, e) m) ts
        ((g.asked OrderBook.engine owner req).2.2.filter Event.isTrade) := List.Forall₂.flip htold
    exact ((List.forall₂_and_left _ _).mp hflip).1
  have hts : (ts.map FeedMsg.trade).filterMap FeedMsg.trade? = ts := by
    rw [List.filterMap_map]
    exact List.filterMap_some ..
  refine ⟨ts, ?_, ?_, ?_, fun hmax m hm => ?_⟩
  · rw [serve_eq, OrderBook.run_ops_append, ← h.book]
    exact hbook
  · rw [serve_eq]
    exact hsent.congr rfl rfl
  · rw [OrderBook.trades_append, ← h.book, hops, List.filterMap_append, hts]
    apply List.rel_append h.trades
    exact List.forall₂_map_left_iff.mpr (htold.imp fun _ _ h => h.2)
  · rcases List.mem_append.mp hm with hm | hm
    · exact h.inRange hmax m hm
    · obtain ⟨t, ht, rfl⟩ := List.mem_map.mp hm
      exact isPrice_of_inBand hp hmax (hpxs t ht)

/-- **The cancels of a disconnect**: there is nothing to tell of. -/
theorem Told.cancelAll (h : Told p ops g msgs) (ids : List OrderId) :
    Told p (ops ++ ids.map .cancel) (g.cancelAll OrderBook.engine ids) msgs := by
  refine ⟨?_, ?_, ?_, h.inRange⟩
  · rw [cancelAll_book, h.book, OrderBook.run_ops_append]
  · rw [feed_cancelAll]
    exact h.published.congr rfl rfl
  · rw [OrderBook.trades_append, tradesFrom_cancel, List.append_nil]
    exact h.trades

/-- The levels of a snapshot are priced in the band, or not at all. -/
theorem isPrice_padded (hp : p.Valid) (hmax : p.bandHi ≤ kMaxPrice) {b : OrderBook} {F : Flat}
    (h : Book.Repr p.config b F) (s : Side) :
    ∀ l ∈ (FeedPublisher.padded (b.topLevels s kBookDepth)).toList, IsPrice l.1 := by
  have hlevels := OrderBook.topLevels_eq (s := s) h kBookDepth
  have hlen : (b.topLevels s kBookDepth).length ≤ kBookDepth := by
    rw [hlevels, List.length_map]
    exact List.length_take_le _ _
  intro l hl
  rw [OrderBook.toList_padded _ hlen] at hl
  rcases List.mem_append.mp hl with hl | hl
  · rw [hlevels] at hl
    obtain ⟨px, hpx, rfl⟩ := List.mem_map.mp hl
    obtain ⟨r, hr, rfl⟩ := (OrderBook.mem_occupied h).mp (List.mem_of_mem_take hpx)
    exact isPrice_of_inBand hp hmax (h.wf.band s r hr)
  · obtain rfl := List.eq_of_mem_replicate hl
    constructor <;> decide

/-- **A snapshot follows.** -/
theorem Told.publish (hp : p.Valid) (hreached : Reached p.config g) (h : Told p ops g msgs) :
    ∃ m, Faithful p ops (g.publish OrderBook.engine) (msgs ++ [.book m]) := by
  obtain ⟨g', hsim, -⟩ := hreached
  have hsnapshot : ∀ m : BookMsg,
      ((msgs ++ [FeedMsg.book m]).filterMap FeedMsg.book?).getLast? = some m := by
    intro m
    rw [List.filterMap_append]
    exact List.getLast?_concat
  refine ⟨⟨g.feed.seq + 1, FeedPublisher.padded (g.book.topLevels .bid kBookDepth),
    FeedPublisher.padded (g.book.topLevels .ask kBookDepth)⟩,
    { book := h.book
      published := h.published.publishBook _ _
      trades := ?_
      inRange := fun hmax m hm => ?_
      silent := fun hnone => ?_
      last := fun m hm => ?_ }⟩
  · rw [List.filterMap_append]
    exact (List.append_nil _).symm ▸ h.trades
  · rcases List.mem_append.mp hm with hm | hm
    · exact h.inRange hmax m hm
    · obtain rfl := List.mem_singleton.mp hm
      intro l hl
      rcases List.mem_append.mp hl with hl | hl
      · exact isPrice_padded hp hmax hsim.book .bid l hl
      · exact isPrice_padded hp hmax hsim.book .ask l hl
  · rw [hsnapshot] at hnone
    cases hnone
  · rw [hsnapshot] at hm
    obtain rfl := Option.some.inj hm
    exact ⟨rfl, rfl⟩

/-- A frame that is not executed. -/
theorem handleFrame_of_none {body : List UInt8} (hreq : g.request? owner body = none) :
    (handleFrame OrderBook.engine g owner body).1.book = g.book ∧
      (handleFrame OrderBook.engine g owner body).1.feed = g.feed := by
  unfold request? at hreq
  unfold handleFrame
  cases hc : g.conns.find? (isOf owner) with
  | none => exact ⟨rfl, rfl⟩
  | some c =>
      simp only [hc] at hreq
      by_cases hdead : c.dead = true
      · simp only [if_pos hdead, and_self]
      · simp only [if_neg hdead] at hreq ⊢
        rw [hreq]
        exact ⟨rfl, rfl⟩

/-- **One action**: what trades is told of, and a book that changes is shown. -/
theorem Faithful.step (hp : p.Valid) (hreached : Reached p.config g) (h : Faithful p ops g msgs)
    (i : Input) :
    ∃ more, Faithful p (ops ++ g.ops i) (step OrderBook.engine g i).1 (msgs ++ more) := by
  have hquiet : ∀ {g' : Gateway OrderBook}, g'.book = g.book → g'.feed = g.feed → g.ops i = [] →
      ∃ more, Faithful p (ops ++ g.ops i) g' (msgs ++ more) := by
    intro g' hbook hfeed hops
    refine ⟨[], ?_⟩
    rw [hops, List.append_nil, List.append_nil]
    exact
      { book := hbook.trans h.book
        published := hfeed ▸ h.published
        trades := h.trades
        inRange := h.inRange
        silent := fun hnone => hbook.trans (h.silent hnone)
        last := fun m hm => by
          rw [hbook]
          exact h.last m hm }
  cases i with
  | accept owner => exact hquiet rfl rfl rfl
  | flush owner n => exact hquiet rfl rfl rfl
  | hangup owner => exact hquiet rfl rfl rfl
  | erase owner => exact hquiet rfl rfl rfl
  | frame owner body =>
      cases hreq : g.request? owner body with
      | none =>
          obtain ⟨hbook, hfeed⟩ := handleFrame_of_none hreq
          exact hquiet hbook hfeed (by simp [Gateway.ops, hreq])
      | some req =>
          obtain ⟨ts, htold⟩ := h.toTold.serve hp hreached owner req
          have hserved := (hreached.serve owner req).onConn owner
            fun c => c.sendExec (serve OrderBook.engine g owner req).2
          have hsent : Told p _ ((serve OrderBook.engine g owner req).1.onConn owner
              fun c => c.sendExec (serve OrderBook.engine g owner req).2) _ :=
            { book := htold.book
              published := htold.published
              trades := htold.trades
              inRange := htold.inRange }
          obtain ⟨m, hm⟩ := hsent.publish hp hserved
          refine ⟨ts.map .trade ++ [.book m], ?_⟩
          rw [← List.append_assoc, Gateway.step, handleFrame_of_request _ hreq, Gateway.ops, hreq]
          exact hm
  | disconnect owner =>
      by_cases hids : g.feed.orders.ownedBy owner = []
      · have hsame : g.cancelOnDisconnect OrderBook.engine owner = g := by
          simp only [cancelOnDisconnect, hids, if_true]
          rfl
        exact hquiet (congrArg Gateway.book hsame) (congrArg Gateway.feed hsame)
          (by simp [Gateway.ops, hids])
      · obtain ⟨m, hm⟩ := (h.toTold.cancelAll _).publish hp (hreached.cancelAll _)
        refine ⟨[.book m], ?_⟩
        rw [Gateway.step, cancelOnDisconnect, if_neg hids]
        exact hm

theorem faithful_run (hp : p.Valid) (inputs : List Input) :
    ∃ msgs, Faithful p (opsOf p inputs) (run p inputs) msgs := by
  induction inputs using List.reverseRecOn with
  | nil =>
      exact ⟨[],
        { book := rfl
          published := ⟨rfl, rfl, rfl⟩
          trades := .nil
          inRange := fun _ m hm => by cases hm
          silent := fun _ => rfl
          last := fun m hm => by cases hm }⟩
  | append_singleton inputs i ih =>
      obtain ⟨msgs, h⟩ := ih
      obtain ⟨more, h'⟩ := h.step hp (reached_run hp inputs) i
      rw [opsOf_append, run_append]
      exact ⟨_, h'⟩

end runs

/-- What a subscriber of the feed can rely on after the actions `inputs`. -/
structure TrueFeed (p : Params) (inputs : List Input) (msgs : List FeedMsg) : Prop where
  /-- The engine has made the calls of the run, and no others. -/
  book : (run p inputs).book = OrderBook.run p (opsOf p inputs)
  datagrams : (run p inputs).feed.datagrams = msgs.map fun m => m.message.wire
  decodes : p.bandHi ≤ kMaxPrice → ∀ m ∈ msgs, m.message.Decodes m.message.body
  numbered : msgs.length < 2 ^ 64 → msgs.map (fun m => m.seq.toNat) = List.range' 1 msgs.length
  trades : List.Forall₂ Tells (OrderBook.trades p (opsOf p inputs))
    (msgs.filterMap FeedMsg.trade?)
  silent : (msgs.filterMap FeedMsg.book?).getLast? = none → (run p inputs).book.flat = {}
  last : ∀ m, (msgs.filterMap FeedMsg.book?).getLast? = some m →
    (run p inputs).book.restingOrders < 2 ^ 32 →
      (run p inputs).book.ShowsSide .bid m.bids ∧ (run p inputs).book.ShowsSide .ask m.asks

/-- **The feed is faithful**: after every run its datagrams are numbered without a gap, its trades
are those of the engine with their makers' prices and the sides of their takers, and its last
snapshot shows the book. -/
theorem trueFeed_run (p : Params) (hp : p.Valid) (inputs : List Input) :
    ∃ msgs, TrueFeed p inputs msgs := by
  obtain ⟨msgs, h⟩ := faithful_run hp inputs
  obtain ⟨g', hsim, -⟩ := reached_run hp inputs
  refine ⟨msgs,
    { book := h.book
      datagrams := h.published.datagrams
      decodes := fun hmax m hm => m.message.decodes (h.inRange hmax m hm)
      numbered := fun hlen => ?_
      trades := h.trades
      silent := fun hnone => ?_
      last := fun m hm hsmall => ?_ }⟩
  · have hseqs := congrArg (List.map UInt64.toNat) h.published.seqs
    rw [List.map_map, List.map_map] at hseqs
    refine hseqs.trans ((List.map_congr_left fun k hk => ?_).trans (List.map_id _))
    obtain ⟨-, hk⟩ := List.mem_range'_1.mp hk
    have hlt : k < 2 ^ 64 := by omega
    exact UInt64.toNat_ofNat_of_lt' hlt
  · rw [h.silent hnone]
    exact OrderBook.flat_eq (OrderBook.new_repr hp)
  · obtain ⟨hbids, hasks⟩ := h.last m hm
    rw [hbids, hasks]
    exact ⟨OrderBook.showsSide_padded hsim.book hsmall, OrderBook.showsSide_padded hsim.book hsmall⟩

/-- A reprice trades away from the ask side, and its client leaves. -/
theorem trueFeed_run_small :
    ∃ msgs, TrueFeed { stp := .cancelResting, poolCapacity := 1, bandHi := 9, idMapSlots := 4 }
      [.accept 1, .accept 2, .send 1 (NewOrderMsg.encode 64 ⟨7, 5, 3, .bid, .gtc⟩),
        .send 2 (NewOrderMsg.encode 64 ⟨7, 6, 4, .ask, .gtc⟩),
        .send 2 (ModifyMsg.encode 64 ⟨7, 5, 4⟩), .disconnect 2] msgs :=
  trueFeed_run _ ⟨by decide, by decide, by decide, by decide⟩ _

end Gateway

end Lob
