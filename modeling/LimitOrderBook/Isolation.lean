import Mathlib.Logic.Equiv.Basic
import LimitOrderBook.Delivery
import LimitOrderBook.Feed
import LimitOrderBook.Orphans
import LimitOrderBook.Truthful

/-! # Client ids are private

Two runs that differ only in the client ids that each connection gives its orders.  A `Renaming` is
one bijection of the ids for each connection, all keeping `0`.

`Renaming.Ids` relates what the two gateways know of the orders, `Renaming.Conn` what they sent to
a client and `Renaming.Alike` the gateways as a whole; every action keeps them alike, on books that
are equal (`Alike.step`).  A disconnect cancels the orders of its client in the order of their
client ids, so the two gateways cancel them in different orders, and end up with one book all the
same (`Alike.cancelOnDisconnect`). -/

namespace Lob

open Connection

/-- A bijection of the client ids for each connection. -/
structure Renaming where
  perm : Owner → Equiv.Perm OrderId
  zero : ∀ owner, perm owner 0 = 0

namespace Renaming

variable (π : Renaming)

def live (l : Live) : Live := { l with client := π.perm l.owner l.client }

/-- A frame with its id renamed. -/
def input : Gateway.Input → Gateway.Input
  | .frame owner body => .frame owner (renameBody (π.perm owner) body)
  | i => i

/-- The ids of one gateway are those of the other, renamed. -/
structure Ids (ids ids' : OrderIds) : Prop where
  last : ids'.last = ids.last
  live : ∀ id, ids'.live.find? id = (ids.live.find? id).map π.live

/-- A connection has been sent the same reports, renamed. -/
structure Conn (c c' : Connection) : Prop where
  owner : c'.owner = c.owner
  dead : c'.dead = c.dead
  length : c'.outbox.length = c.outbox.length
  reports : ∃ ms : List ExecReportMsg, c.appended = ms.flatMap ExecReportMsg.bytes ∧
    c'.appended = (ms.map (ExecReportMsg.rename (π.perm c.owner))).flatMap ExecReportMsg.bytes

structure Feed (feed feed' : FeedPublisher) : Prop where
  orders : π.Ids feed.orders feed'.orders
  seq : feed'.seq = feed.seq
  takerSide : feed'.takerSide = feed.takerSide
  datagrams : feed'.datagrams = feed.datagrams

/-- Gateways that differ in client ids only. -/
structure Alike {B : Type} (g g' : Gateway B) : Prop where
  book : g'.book = g.book
  feed : π.Feed g.feed g'.feed
  conns : List.Forall₂ π.Conn g.conns g'.conns

variable {π}

theorem perm_eq_zero_iff {owner : Owner} {client : OrderId} :
    π.perm owner client = 0 ↔ client = 0 := by
  constructor
  · intro h
    exact (π.perm owner).injective (h.trans (π.zero owner).symm)
  · rintro rfl
    exact π.zero owner

/-! ### Ids -/

namespace Ids

variable {ids ids' : OrderIds} {owner : Owner} {client id : OrderId}

theorem side (h : π.Ids ids ids') (id : OrderId) : ids'.side id = ids.side id := by
  rw [OrderIds.side, OrderIds.side, h.live, Option.map_map]
  rfl

theorem byClient (h : π.Ids ids ids') (hinv : ids.Inverse) (hinv' : ids'.Inverse) (owner : Owner)
    (client : OrderId) :
    ids'.byClient.find? (owner, π.perm owner client) = ids.byClient.find? (owner, client) := by
  refine Option.ext fun id => ?_
  rw [hinv', hinv, h.live]
  constructor
  · rintro ⟨l', hl', ho, hc⟩
    obtain ⟨l, hl, rfl⟩ := Option.map_eq_some_iff.mp hl'
    obtain rfl : l.owner = owner := ho
    exact ⟨l, hl, rfl, (π.perm l.owner).injective hc⟩
  · rintro ⟨l, hl, rfl, rfl⟩
    exact ⟨π.live l, by rw [hl]; rfl, rfl, rfl⟩

theorem find (h : π.Ids ids ids') (hinv : ids.Inverse) (hinv' : ids'.Inverse) (owner : Owner)
    (client : OrderId) : ids'.find owner (π.perm owner client) = ids.find owner client := by
  rw [OrderIds.find, OrderIds.find, h.byClient hinv hinv']

theorem assign (h : π.Ids ids ids') (hinv : ids.Inverse) (hinv' : ids'.Inverse) (owner : Owner)
    (client : OrderId) :
    (ids'.assign owner (π.perm owner client)).1 = (ids.assign owner client).1 ∧
      π.Ids (ids.assign owner client).2 (ids'.assign owner (π.perm owner client)).2 := by
  unfold OrderIds.assign
  simp only [h.find hinv hinv', perm_eq_zero_iff, h.last]
  split_ifs
  · exact ⟨rfl, h⟩
  · exact ⟨rfl, rfl, h.live⟩

/-- The two gateways find the same engine id. -/
theorem idOf (h : π.Ids ids ids') (hinv : ids.Inverse) (hinv' : ids'.Inverse) (owner : Owner)
    (req : Request) : ids'.idOf owner (req.rename (π.perm owner)) = ids.idOf owner req := by
  cases req with
  | newOrder m => exact (h.assign hinv hinv' owner m.id).1
  | market m => exact (h.assign hinv hinv' owner m.id).1
  | cancel m => exact h.find hinv hinv' owner m.id
  | modify m => exact h.find hinv hinv' owner m.id

theorem assigned (h : π.Ids ids ids') (hinv : ids.Inverse) (hinv' : ids'.Inverse) (owner : Owner)
    (req : Request) :
    π.Ids (ids.assigned owner req) (ids'.assigned owner (req.rename (π.perm owner))) := by
  cases req with
  | newOrder m => exact (h.assign hinv hinv' owner m.id).2
  | market m => exact (h.assign hinv hinv' owner m.id).2
  | cancel m => exact h
  | modify m => exact h

theorem hear (h : π.Ids ids ids') (e : Event) : π.Ids (ids.hear e) (ids'.hear e) where
  last := by rw [OrderIds.last_hear, OrderIds.last_hear, h.last]
  live id := by
    rw [OrderIds.live_hear, OrderIds.live_hear, h.live]
    cases ids.live.find? id with
    | none => rfl
    | some l =>
        cases e with
        | trade taker maker px qty =>
            simp only [Option.map_some, Option.bind_some, OrderIds.editLive, Renaming.live]
            split_ifs <;> rfl
        | cancel k owner =>
            simp only [Option.map_some, Option.bind_some, OrderIds.editLive, Renaming.live]
            split_ifs <;> rfl

theorem forget (h : π.Ids ids ids') (id : OrderId) : π.Ids (ids.forget id).1 (ids'.forget id).1 :=
  h.hear (.cancel id 0)

/-- The client id that is given up. -/
theorem client_eq (h : π.Ids ids ids') (id : OrderId) (owner : Owner)
    (howner : ∀ l, ids.live.find? id = some l → l.owner = owner) :
    ids'.client id = π.perm owner (ids.client id) := by
  rw [OrderIds.client, OrderIds.client, h.live]
  cases hl : ids.live.find? id with
  | none => exact (π.zero owner).symm
  | some l =>
      obtain rfl := howner l hl
      rfl

theorem rest (h : π.Ids ids ids') (id : OrderId) (owner : Owner) (client : OrderId)
    (openQty : Qty) (s : Side) :
    π.Ids (ids.rest id owner client openQty s)
      (ids'.rest id owner (π.perm owner client) openQty s) where
  last := h.last
  live k := by
    rw [OrderIds.live_rest, OrderIds.live_rest, h.live]
    split_ifs <;> rfl

theorem settle (h : π.Ids ids ids') (owner : Owner) (id : OrderId) (side : Option Side)
    (req : Request) (reply : Reply) :
    π.Ids (req.settle owner id side reply ids)
      ((req.rename (π.perm owner)).settle owner id side reply ids') := by
  cases req <;> cases reply <;> simp only [Request.rename, Request.settle]
  all_goals first
    | exact h
    | skip
  · split_ifs
    · exact h.rest id owner _ _ _
    · exact h
  · split_ifs
    · exact h.forget id
    · exact h
  · split_ifs
    · exact h.rest id owner _ _ _
    · exact h.forget id
    · exact h

/-- The orders of a client are the same ones, in another order. -/
theorem mem_ownedBy (h : π.Ids ids ids') (hinv : ids.Inverse) (hinv' : ids'.Inverse)
    (owner : Owner) (id : OrderId) : id ∈ ids'.ownedBy owner ↔ id ∈ ids.ownedBy owner := by
  rw [OrderIds.mem_ownedBy, OrderIds.mem_ownedBy]
  constructor
  · rintro ⟨client, hc⟩
    refine ⟨(π.perm owner).symm client, ?_⟩
    rwa [← h.byClient hinv hinv', Equiv.apply_symm_apply]
  · rintro ⟨client, hc⟩
    exact ⟨π.perm owner client, (h.byClient hinv hinv' owner client).trans hc⟩

theorem live_forgetAll (gone : List OrderId) (k : OrderId) :
    (gone.foldl (fun orders id => (orders.forget id).1) ids).live.find? k =
      if k ∈ gone then none else ids.live.find? k := by
  induction gone generalizing ids with
  | nil => simp
  | cons id gone ih =>
      rw [List.foldl_cons, ih, OrderIds.live_forget]
      by_cases hk : k = id <;> simp [hk]

theorem last_forgetAll (gone : List OrderId) :
    (gone.foldl (fun orders id => (orders.forget id).1) ids).last = ids.last := by
  induction gone generalizing ids with
  | nil => rfl
  | cons id gone ih => exact ih.trans (OrderIds.last_hear (.cancel id 0))

/-- The order in which orders are forgotten does not matter. -/
theorem forgetAll (h : π.Ids ids ids') {gone gone' : List OrderId}
    (hgone : ∀ id, id ∈ gone' ↔ id ∈ gone) :
    π.Ids (gone.foldl (fun orders id => (orders.forget id).1) ids)
      (gone'.foldl (fun orders id => (orders.forget id).1) ids') where
  last := by rw [last_forgetAll, last_forgetAll, h.last]
  live k := by
    simp only [live_forgetAll, hgone, h.live]
    split_ifs <;> rfl

end Ids

/-! ### Requests -/

theorem op_rename (f : OrderId → OrderId) (req : Request) (owner : Owner) (id : OrderId) :
    (req.rename f).op owner id = req.op owner id := by
  cases req <;> rfl

theorem takerSide?_rename (f : OrderId → OrderId) (req : Request) (side : Option Side) :
    (req.rename f).takerSide? side = req.takerSide? side := by
  cases req <;> rfl

theorem report_rename (f : OrderId → OrderId) (req : Request) (id : OrderId) (reply : Reply) :
    (req.rename f).report id reply = (req.report id reply).rename f := by
  cases req <;> cases reply <;> rfl

/-! ### Connections -/

namespace Conn

variable {c c' : Connection}

theorem sendExec (h : π.Conn c c') (m : ExecReportMsg) :
    π.Conn (c.sendExec m) (c'.sendExec (m.rename (π.perm c.owner))) := by
  obtain ⟨ms, hms, hms'⟩ := h.reports
  rw [sendExec_eq, sendExec_eq, h.length]
  split_ifs
  · exact ⟨h.owner, rfl, h.length, ms, hms, hms'⟩
  · refine ⟨h.owner, h.dead, ?_, ms ++ [m], ?_, ?_⟩
    · simp [h.length]
    · rw [List.flatMap_append, ← hms]
      simp [appended]
    · rw [List.map_append, List.flatMap_append, ← hms']
      simp [appended]

theorem flush (h : π.Conn c c') (n : ℕ) : π.Conn (c.flush n) (c'.flush n) where
  owner := h.owner
  dead := h.dead
  length := by simp only [Connection.flush, List.length_drop, h.length]
  reports := by
    rw [Served.appended_flush, Served.appended_flush]
    exact h.reports

theorem hangup (h : π.Conn c c') : π.Conn { c with dead := true } { c' with dead := true } :=
  ⟨h.owner, rfl, h.length, h.reports⟩

theorem isOf (h : π.Conn c c') (owner : Owner) : c'.isOf owner = c.isOf owner := by
  rw [Connection.isOf, Connection.isOf, h.owner]

/-- A client that names its orders the same is sent the same bytes. -/
theorem eq_of_fixed (h : π.Conn c c') (hfix : ∀ client, π.perm c.owner client = client) :
    c' = c := by
  obtain ⟨ms, hms, hms'⟩ := h.reports
  have hid : ExecReportMsg.rename (π.perm c.owner) = id := by
    funext m
    simp only [ExecReportMsg.rename, hfix, id]
  rw [hid, List.map_id, ← hms, appended, appended] at hms'
  obtain ⟨hsent, houtbox⟩ := List.append_inj' hms' h.length
  cases c
  cases c'
  simp only [Connection.mk.injEq]
  exact ⟨h.owner, houtbox, h.dead, hsent⟩

variable {conns conns' : List Connection} {p q : Connection → Bool} {f f' : Connection → Connection}

theorem onFirst (h : List.Forall₂ π.Conn conns conns')
    (hp : ∀ c c', π.Conn c c' → q c' = p c)
    (hf : ∀ c c', π.Conn c c' → p c = true → π.Conn (f c) (f' c')) :
    List.Forall₂ π.Conn (onFirst p f conns) (Connection.onFirst q f' conns') := by
  induction h with
  | nil => exact .nil
  | @cons c c' conns conns' hc hconns ih =>
      unfold Connection.onFirst
      rw [hp c c' hc]
      split_ifs with hpc
      · exact .cons (hf c c' hc hpc) hconns
      · exact .cons hc ih

theorem find? (h : List.Forall₂ π.Conn conns conns') (owner : Owner) :
    Option.Rel π.Conn (conns.find? (Connection.isOf owner))
      (conns'.find? (Connection.isOf owner)) := by
  induction h with
  | nil => exact .none
  | @cons c c' conns conns' hc hconns ih =>
      rw [List.find?_cons, List.find?_cons, hc.isOf]
      split
      · exact .some hc
      · exact ih

theorem eraseP (h : List.Forall₂ π.Conn conns conns') (owner : Owner) :
    List.Forall₂ π.Conn (conns.eraseP (Connection.isOf owner))
      (conns'.eraseP (Connection.isOf owner)) := by
  induction h with
  | nil => exact .nil
  | @cons c c' conns conns' hc hconns ih =>
      rw [List.eraseP_cons, List.eraseP_cons, hc.isOf]
      cases Connection.isOf owner c with
      | true => exact hconns
      | false => exact .cons hc ih

end Conn

/-! ### Callbacks -/

namespace Feed

variable {feed feed' : FeedPublisher}

theorem onTrade (h : π.Feed feed feed') (maker : OrderId) (px : Int) (qty : Qty) :
    π.Feed (feed.onTrade maker px qty) (feed'.onTrade maker px qty) := by
  simp only [FeedPublisher.onTrade, TradeMsg.encode_eq, FeedPublisher.sendDatagram]
  exact
    { orders := h.orders.hear (.trade 0 maker px qty)
      seq := congrArg (· + 1) h.seq
      takerSide := h.takerSide
      datagrams := by simp only [h.datagrams, h.seq, h.takerSide] }

theorem publishBook (h : π.Feed feed feed') (bids asks : List (Int × UInt64)) :
    π.Feed (feed.publishBook bids asks) (feed'.publishBook bids asks) := by
  simp only [FeedPublisher.publishBook, BookMsg.encode_eq, FeedPublisher.sendDatagram]
  exact
    { orders := h.orders
      seq := congrArg (· + 1) h.seq
      takerSide := h.takerSide
      datagrams := by simp only [h.datagrams, h.seq] }

/-- A kill is reported to its owner under the name that the owner gave the order. -/
theorem unsolicitedCancel {conns conns' : List Connection}
    (h : List.Forall₂ π.Conn conns conns') (client : OrderId) (owner : Owner) :
    List.Forall₂ π.Conn (FeedPublisher.unsolicitedCancel client owner conns)
      (FeedPublisher.unsolicitedCancel (π.perm owner client) owner conns') := by
  refine Conn.onFirst h (fun _ _ hc => by rw [hc.isOf, hc.dead]) fun c _ hc hp => ?_
  have howner : c.owner = owner := of_decide_eq_true (Bool.and_eq_true_iff.mp hp).1
  rw [← howner]
  exact hc.sendExec ⟨client, 0, .canceled⟩

/-- **The callbacks of a call** keep feeds and connections alike, if every kill is of an order of the
owner it is reported to. -/
theorem callbacks {conns conns' : List Connection} (tape : List Event) (h : π.Feed feed feed')
    (hconns : List.Forall₂ π.Conn conns conns')
    (hkills : ∀ t₁ id o t₂, tape = t₁ ++ .cancel id o :: t₂ → ∀ l,
      (t₁.foldl OrderIds.hear feed.orders).live.find? id = some l → l.owner = o) :
    π.Feed (FeedPublisher.callbacks (feed, conns) tape).1
        (FeedPublisher.callbacks (feed', conns') tape).1 ∧
      List.Forall₂ π.Conn (FeedPublisher.callbacks (feed, conns) tape).2
        (FeedPublisher.callbacks (feed', conns') tape).2 := by
  induction tape generalizing feed feed' conns conns' with
  | nil => exact ⟨h, hconns⟩
  | cons e tape ih =>
      have hlater : ∀ t₁ id o t₂, tape = t₁ ++ .cancel id o :: t₂ → ∀ l,
          (t₁.foldl OrderIds.hear (feed.orders.hear e)).live.find? id = some l → l.owner = o :=
        fun t₁ id o t₂ htape => hkills (e :: t₁) id o t₂ (by rw [htape]; rfl)
      cases e with
      | trade taker maker px qty =>
          refine ih (h.onTrade maker px qty) hconns ?_
          have horders : (feed.onTrade maker px qty).orders =
              feed.orders.hear (.trade taker maker px qty) :=
            FeedPublisher.orders_callbacks (feed, conns) [.trade taker maker px qty]
          rw [horders]
          exact hlater
      | cancel id owner =>
          have hclient : (feed'.orders.forget id).2 = π.perm owner (feed.orders.forget id).2 := by
            rw [OrderIds.forget_snd, OrderIds.forget_snd]
            exact h.orders.client_eq id owner (hkills [] id owner tape rfl)
          have hforget : π.Feed { feed with orders := (feed.orders.forget id).1 }
              { feed' with orders := (feed'.orders.forget id).1 } :=
            ⟨h.orders.forget id, h.seq, h.takerSide, h.datagrams⟩
          have hcanceled := unsolicitedCancel hconns (feed.orders.forget id).2 owner
          rw [← hclient] at hcanceled
          exact ih hforget hcanceled hlater

end Feed

/-! ### One action -/

namespace Alike

open Gateway

variable {c : Config} {g g' : Gateway Flat} {owner : Owner}

theorem onConn (h : π.Alike g g') (owner : Owner) {f f' : Connection → Connection}
    (hf : ∀ c c', π.Conn c c' → c.owner = owner → π.Conn (f c) (f' c')) :
    π.Alike (g.onConn owner f) (g'.onConn owner f') where
  book := h.book
  feed := h.feed
  conns := Conn.onFirst h.conns (fun _ _ hc => hc.isOf owner)
    fun c c' hc hp => hf c c' hc (of_decide_eq_true hp)

theorem publish (h : π.Alike g g') :
    π.Alike (g.publish (Flat.engine c)) (g'.publish (Flat.engine c)) where
  book := h.book
  feed := by
    unfold Gateway.publish
    rw [h.book]
    exact h.feed.publishBook _ _
  conns := h.conns

theorem serve (h : π.Alike g g') (hk : Kept c g) (hk' : Kept c g') (owner : Owner) (req : Request) :
    (serve (Flat.engine c) g' owner (req.rename (π.perm owner))).2 =
        (Gateway.serve (Flat.engine c) g owner req).2.rename (π.perm owner) ∧
      π.Alike (Gateway.serve (Flat.engine c) g owner req).1
        (Gateway.serve (Flat.engine c) g' owner (req.rename (π.perm owner))).1 := by
  have hinv := hk.shows_.inverse
  have hinv' := hk'.shows_.inverse
  have hid := h.feed.orders.idOf hinv hinv' owner req
  have hasked : g'.asked (Flat.engine c) owner (req.rename (π.perm owner)) =
      g.asked (Flat.engine c) owner req := by
    rw [asked, asked, hid, op_rename, h.book]
  have hprepared : π.Feed (g.prepared owner req).feed
      (g'.prepared owner (req.rename (π.perm owner))).feed := by
    refine ⟨h.feed.orders.assigned hinv hinv' owner req, h.feed.seq, ?_, h.feed.datagrams⟩
    simp only [prepared, hid, h.feed.orders.side, takerSide?_rename, h.feed.takerSide]
  have hkills : ∀ t₁ id o t₂, (g.asked (Flat.engine c) owner req).2.2 = t₁ ++ .cancel id o :: t₂ →
      ∀ l, (t₁.foldl OrderIds.hear (g.prepared owner req).feed.orders).live.find? id = some l →
        l.owner = o := by
    intro t₁ id o t₂ htape l hl
    obtain ⟨-, s, r, hfind, ho⟩ := hk.killed_rests htape
    have hshows := (hk.shows_.assigned owner req).tape hk.wf.nodup t₁
    obtain ⟨client, hl'⟩ := hshows.live_of_find? hfind
    obtain rfl := Option.some.inj (hl'.symm.trans hl)
    exact ho
  obtain ⟨hfeed, hconns⟩ :=
    hprepared.callbacks (g.asked (Flat.engine c) owner req).2.2 h.conns hkills
  rw [serve_eq, serve_eq]
  simp only [hid, hasked, h.feed.orders.side, report_rename, true_and]
  exact
    { book := rfl
      feed := ⟨hfeed.orders.settle owner _ _ req _, hfeed.seq, hfeed.takerSide, hfeed.datagrams⟩
      conns := hconns }

theorem handleFrame (h : π.Alike g g') (hk : Kept c g) (hk' : Kept c g') (owner : Owner)
    (body : List UInt8) :
    π.Alike (handleFrame (Flat.engine c) g owner body).1
      (Gateway.handleFrame (Flat.engine c) g' owner (renameBody (π.perm owner) body)).1 := by
  unfold Gateway.handleFrame
  rw [decodeRequest_rename]
  cases hc : g.conns.find? (isOf owner) with
  | none =>
      have hfind := Conn.find? h.conns owner
      rw [hc] at hfind
      cases hc' : g'.conns.find? (isOf owner) with
      | none => exact h
      | some conn => rw [hc'] at hfind; cases hfind
  | some conn =>
      have hfind := Conn.find? h.conns owner
      rw [hc] at hfind
      cases hc' : g'.conns.find? (isOf owner) with
      | none => rw [hc'] at hfind; cases hfind
      | some conn' =>
          rw [hc'] at hfind
          cases hfind with
          | some hconn =>
              simp only [hconn.dead]
              split_ifs
              · exact h
              · cases decodeRequest body with
                | none => exact h.onConn owner fun _ _ hc _ => hc.hangup
                | some req =>
                    obtain ⟨hreport, hserved⟩ := h.serve hk hk' owner req
                    simp only [Option.map_some, hreport]
                    refine (hserved.onConn owner fun _ _ hc ho => ?_).publish
                    rw [← ho]
                    exact hc.sendExec _

theorem cancelAll (h : π.Alike g g') {gone gone' : List OrderId}
    (hgone : ∀ id, id ∈ gone' ↔ id ∈ gone) :
    π.Alike (g.cancelAll (Flat.engine c) gone) (g'.cancelAll (Flat.engine c) gone') where
  book := by
    refine Flat.ext_side fun s => ?_
    rw [side_cancelAll, side_cancelAll, h.book]
    exact List.filter_congr fun r _ => decide_eq_decide.mpr (hgone r.id).not
  feed := by
    rw [feed_cancelAll, feed_cancelAll]
    exact ⟨h.feed.orders.forgetAll hgone, h.feed.seq, h.feed.takerSide, h.feed.datagrams⟩
  conns := by
    rw [conns_cancelAll, conns_cancelAll]
    exact h.conns

theorem cancelOnDisconnect (h : π.Alike g g') (hk : Kept c g) (hk' : Kept c g') (owner : Owner) :
    π.Alike (g.cancelOnDisconnect (Flat.engine c) owner)
      (g'.cancelOnDisconnect (Flat.engine c) owner) := by
  have hgone := h.feed.orders.mem_ownedBy hk.shows_.inverse hk'.shows_.inverse owner
  have hnil : g'.feed.orders.ownedBy owner = [] ↔ g.feed.orders.ownedBy owner = [] := by
    simp only [List.eq_nil_iff_forall_not_mem, hgone]
  have hall := h.cancelAll (c := c) hgone
  unfold Gateway.cancelOnDisconnect
  simp only [hnil]
  split_ifs
  · exact hall
  · exact hall.publish

/-- **Every action keeps the gateways alike.** -/
theorem step (h : π.Alike g g') (hk : Kept c g) (hk' : Kept c g') (i : Input) :
    π.Alike (step (Flat.engine c) g i).1 (Gateway.step (Flat.engine c) g' (π.input i)).1 := by
  cases i with
  | accept owner =>
      refine ⟨h.book, h.feed, List.rel_append h.conns ?_⟩
      exact .cons ⟨rfl, rfl, rfl, [], rfl, rfl⟩ .nil
  | frame owner body => exact h.handleFrame hk hk' owner body
  | flush owner n => exact h.onConn owner fun _ _ hc _ => hc.flush n
  | hangup owner => exact h.onConn owner fun _ _ hc _ => hc.hangup
  | disconnect owner => exact h.cancelOnDisconnect hk hk' owner
  | erase owner => exact ⟨h.book, h.feed, Conn.eraseP h.conns owner⟩

theorem run (π : Renaming) (c : Config) (inputs : List Input) :
    π.Alike (runFlat c inputs) (runFlat c (inputs.map π.input)) := by
  have hnew : π.Alike ({ book := {} } : Gateway Flat) { book := {} } :=
    ⟨rfl, ⟨⟨rfl, fun _ => rfl⟩, rfl, rfl, rfl⟩, .nil⟩
  have hkept : Kept c ({ book := {} } : Gateway Flat) := kept_run c []
  have hstep : ∀ g g' i, π.Alike g g' ∧ Kept c g ∧ Kept c g' →
      π.Alike (Gateway.step (Flat.engine c) g i).1
          (Gateway.step (Flat.engine c) g' (π.input i)).1 ∧
        Kept c (Gateway.step (Flat.engine c) g i).1 ∧
        Kept c (Gateway.step (Flat.engine c) g' (π.input i)).1 :=
    fun g g' i ⟨h, hk, hk'⟩ => ⟨h.step hk hk' i, hk.step i, hk'.step _⟩
  exact (Transition.rel_finalState hstep ⟨hnew, hkept, hkept⟩ inputs).1

end Alike

end Renaming

/-! ### Two runs -/

namespace Gateway

/-- What two gateways show of themselves, but for the names of the orders. -/
structure SameButIds (π : Renaming) (g g' : Gateway OrderBook) : Prop where
  book : g'.book.flat = g.book.flat
  datagrams : g'.feed.datagrams = g.feed.datagrams
  conns : List.Forall₂ π.Conn g.conns g'.conns
  untouched : ∀ owner, (∀ client, π.perm owner client = client) →
    g'.conns.filter (isOf owner) = g.conns.filter (isOf owner)

theorem filter_eq_of_fixed {π : Renaming} {owner : Owner}
    (hfix : ∀ client, π.perm owner client = client) {conns conns' : List Connection}
    (h : List.Forall₂ π.Conn conns conns') :
    conns'.filter (isOf owner) = conns.filter (isOf owner) := by
  induction h with
  | nil => rfl
  | @cons c c' conns conns' hc hconns ih =>
      rw [List.filter_cons, List.filter_cons, hc.isOf, ih]
      split_ifs with howner
      · have ho : c.owner = owner := of_decide_eq_true howner
        rw [hc.eq_of_fixed (ho ▸ hfix)]
      · rfl

/-- An order that the sender does not have. -/
theorem Reached.unknown {c : Config} {g : Gateway OrderBook} (h : Reached c g) {owner : Owner}
    {req : Request} (hkind : (∃ m, req = .cancel m) ∨ ∃ m, req = .modify m)
    (hlive : ¬ g.feed.orders.IsLive owner req.id) :
    (Gateway.serve OrderBook.engine g owner req).2 = ⟨req.id, 0, .unknown⟩ ∧
      (Gateway.serve OrderBook.engine g owner req).1.book.flat = g.book.flat ∧
      (Gateway.serve OrderBook.engine g owner req).1.feed.orders = g.feed.orders := by
  have hall : ∀ report : ExecReportMsg, report.id = req.id → report.status = .unknown →
      report.filled.toNat = traded [] → report = ⟨req.id, 0, .unknown⟩ := by
    rintro ⟨id, filled, status⟩ rfl rfl hfilled
    rw [show filled = 0 from UInt32.toNat_inj.mp hfilled]
  rcases hkind with ⟨m, rfl⟩ | ⟨m, rfl⟩
  · have htrue : Truthful c owner (.cancel m) _ := h.report_iff.mpr fun hn => hn
    have hstatus := htrue.status.unknown_iff.mpr hlive
    obtain ⟨htape, hafter, hids⟩ := htrue.status.unknown hstatus
    exact ⟨hall _ htrue.id_eq hstatus (htape ▸ htrue.filled_eq), hafter, hids⟩
  · have htrue : Truthful c owner (.modify m) _ := h.report_iff.mpr fun hn => hn
    have hstatus := htrue.status.unknown_iff.mpr hlive
    obtain ⟨htape, hafter, hids⟩ := htrue.status.unchanged (Or.inl hstatus)
    exact ⟨hall _ htrue.id_eq hstatus (htape ▸ htrue.filled_eq), hafter, hids⟩

/-- **Client ids are private**: renaming them, connection by connection, changes neither book nor
feed at any point of a run, and in the reports to a client only its own ids.  A cancel or modify of
an order that the sender does not have is answered as unknown and has no effect, whoever else has
an order of that id. -/
theorem isolated_run (p : Params) (hp : p.Valid) (π : Renaming) (inputs : List Input) :
    (∀ pre ∈ inputs.inits, SameButIds π (run p pre) (run p (pre.map π.input))) ∧
      ∀ owner body conn req, (run p inputs).conns.find? (isOf owner) = some conn →
        conn.dead = false → decodeRequest body = some req →
        ((∃ m, req = .cancel m) ∨ ∃ m, req = .modify m) →
        ¬ (run p inputs).feed.orders.IsLive owner req.id →
        let x := handleFrame OrderBook.engine (run p inputs) owner body
        x.2 = some ⟨req.id, 0, .unknown⟩ ∧ x.1.book.flat = (run p inputs).book.flat ∧
          x.1.feed.orders = (run p inputs).feed.orders := by
  constructor
  · intro pre _
    have hrun := run_sim hp pre
    have hrun' := run_sim hp (pre.map π.input)
    have halike := Renaming.Alike.run π p.config pre
    have hconns : List.Forall₂ π.Conn (run p pre).conns (run p (pre.map π.input)).conns := by
      rw [hrun.conns, hrun'.conns]
      exact halike.conns
    refine ⟨?_, ?_, hconns, fun owner hfix => filter_eq_of_fixed hfix hconns⟩
    · rw [OrderBook.flat_eq hrun.book, OrderBook.flat_eq hrun'.book, halike.book]
    · rw [hrun.feed, hrun'.feed, halike.feed.datagrams]
  · intro owner body conn req hconn hlive hreq hkind hnot
    obtain ⟨hreport, hbook, horders⟩ := handleFrame_served (request?_eq hconn hlive hreq)
    obtain ⟨hunknown, hsame, hids⟩ := (reached_run hp inputs).unknown hkind hnot
    refine ⟨hreport.trans (congrArg some hunknown), ?_, horders.trans hids⟩
    rw [hbook]
    exact hsame

/-- A client swaps the names of two orders, which its disconnect then cancels in the other order. -/
theorem isolated_run_swap :
    let p : Params := { poolCapacity := 1, bandHi := 9, idMapSlots := 4 }
    let π : Renaming :=
      { perm := fun owner => if owner = 1 then Equiv.swap 7 8 else Equiv.refl _
        zero := fun owner => by split_ifs <;> decide }
    let inputs : List Input := [.accept 1, .accept 2,
      .send 1 (NewOrderMsg.encode 64 ⟨7, 5, 3, .ask, .gtc⟩),
      .send 1 (NewOrderMsg.encode 64 ⟨8, 5, 4, .ask, .gtc⟩),
      .send 2 (NewOrderMsg.encode 64 ⟨7, 6, 5, .bid, .ioc⟩), .disconnect 1]
    ∀ pre ∈ inputs.inits, SameButIds π (run p pre) (run p (pre.map π.input)) :=
  (isolated_run _ ⟨by decide, by decide, by decide, by decide⟩ _ _).1

end Gateway

end Lob
