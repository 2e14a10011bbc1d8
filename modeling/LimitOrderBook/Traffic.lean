import LimitOrderBook.Differential
import LimitOrderBook.InStep
import LimitOrderBook.Reports
import Mathlib.Algebra.Order.BigOperators.Group.List
import Mathlib.Algebra.Order.Group.Nat

/-! # Work and traffic

A taker may sweep through any number of makers, but each maker it sweeps away had to be brought to
the book once.  So over a whole run the trades, kills and cancels, with the orders that still rest,
are no more than the orders submitted (`work_run`): in a call all events but one take an order off
the book, and the last one stands in for the rest of the taker.

The gateway turns a request into one report and one snapshot, and every event into one more
message, so that in all it sends at most three messages per request it executes (`traffic_run`),
whatever its clients do. -/

namespace Lob

open KeyedQueue

/-! ### One call -/

section walk

variable {stp : Stp} {s : Side} {taker : OrderId} {limit : Int} {owner : Owner}

/-- A walk pays for its events with the orders that leave; the last one may be on the taker. -/
theorem walk_paid : ∀ (q : List Resting) (n : Qty),
    (walk stp s taker limit owner q n).tape.length + (walk stp s taker limit owner q n).queue.length ≤
      q.length + if (walk stp s taker limit owner q n).remaining = 0 then 1 else 0
  | [], n => by simp [walk]
  | r :: q, n => by
      refine walk_cases r q n (fun w => w.tape.length + w.queue.length ≤
        (r :: q).length + if w.remaining = 0 then 1 else 0) ?_ ?_ ?_ ?_ ?_
      · intro _
        simp
      · intro _ _ _ _
        simp
      · intro _ _ _ _
        have hq := walk_paid q n
        simp only [List.length_cons]
        omega
      · intro _ _ _ _
        simp only [List.length_cons, List.length_nil, if_true]
        omega
      · intro _ _ _ _
        have hq := walk_paid q (n - r.qty)
        simp only [List.length_cons]
        omega

end walk

/-- What an operation pays for: the order it brings to the engine. -/
def Op.credit (op : Op) : ℕ := if op.newId?.isSome then 1 else 0

/-- The events of a call, and the order that a cancel takes off the book. -/
def Answer.cost (a : Answer) : ℕ := a.2.length + if a.1 = .cancel true then 1 else 0

namespace Flat

variable {c : Config} {F : Flat} {op : Op}

theorem length_ids (F : Flat) (s : Side) :
    F.ids.length = (F.side s).length + (F.side s.opp).length := by
  rw [ids_eq, List.length_append, List.length_map, List.length_map]
  cases s
  · rfl
  · exact Nat.add_comm _ _

theorem length_ids_rest (F : Flat) (s : Side) (r : Resting) :
    (F.rest s r).ids.length = F.ids.length + 1 := ids_rest.length_eq

/-- The events of a call and the orders it leaves. -/
theorem Sends.paid {t : Taker} (h : F.Sends c op t) (hF : F.WF c) :
    (t.walk c.stp).tape.length + (t.after c.stp).ids.length ≤ F.ids.length + op.credit := by
  have hwalk : (t.walk c.stp).tape.length + (t.walk c.stp).queue.length ≤
      (t.book.side t.side.opp).length + if (t.walk c.stp).remaining = 0 then 1 else 0 :=
    walk_paid (t.book.side t.side.opp) t.qty
  have hswept : (t.swept c.stp).ids.length =
      (t.walk c.stp).queue.length + (t.book.side t.side).length := by
    rw [(t.swept c.stp).length_ids t.side.opp, Side.opp_opp, Taker.swept, side_withSide_self,
      side_withSide_opp]
  have hbook := t.book.length_ids t.side
  have hafter : (t.walk c.stp).tape.length + (t.after c.stp).ids.length ≤ t.book.ids.length + 1 := by
    unfold Taker.after
    split_ifs with hrests
    · have hne : ¬ (t.walk c.stp).remaining = 0 := hrests.2.1
      rw [if_neg hne] at hwalk
      rw [length_ids_rest]
      omega
    · split_ifs at hwalk <;> omega
  cases h with
  | limit => exact hafter
  | market => exact hafter
  | @modify id s px qty r hfind hqty hpx hmove =>
      obtain ⟨hr, hid⟩ := find?_eq_some hfind
      have hremove := length_ids_remove hF.nodup (hid ▸ mem_ids_of_mem hr : id ∈ F.ids)
      simp only at hafter ⊢
      omega

/-- **A call costs no more than it takes off the book**, and one for the order it brings. -/
theorem call_paid (hF : F.WF c) (op : Op) :
    Answer.cost (F.call c op).2 + (F.call c op).1.ids.length ≤ F.ids.length + op.credit := by
  have hout := F.call_outcome c op
  generalize F.call c op = x at hout
  cases hout with
  | @refused op reply h =>
      have hne : ¬ reply = .cancel true := by
        rintro rfl
        cases h
      simp only [Answer.cost, if_neg hne, List.length_nil]
      omega
  | cancelled hid =>
      have hremove := length_ids_remove hF.nodup hid
      simp only [Answer.cost, if_true, List.length_nil]
      omega
  | amended hfind hqty hle =>
      have hne : ¬ Reply.modify ⟨true, 0, true, true⟩ = Reply.cancel true := by decide
      simp only [Answer.cost, if_neg hne, List.length_nil, ids_amend]
      omega
  | @matched op t hsend =>
      have hne : ¬ t.reply c.stp op = .cancel true := by
        cases hsend <;> exact fun he => by cases he
      simp only [Answer.cost, if_neg hne, Nat.add_zero]
      exact hsend.paid hF

end Flat

/-- **Work is paid for**: over a run the trades, the kills and the cancels, and the orders that still
rest, are no more than the orders that were submitted. -/
theorem OrderBook.work_run (p : Params) (hp : p.Valid) (ops : List Op) :
    ((OrderBook.answers p ops).map Answer.cost).sum + (OrderBook.run p ops).restingOrders ≤
      (ops.map Op.credit).sum := by
  obtain ⟨hans, hrepr⟩ := OrderBook.run_repr hp ops
  rw [hans, hrepr.restingOrders, ← Nat.zero_add (ops.map Op.credit).sum]
  exact @Transition.sum_cost_le _ _ _ _ (Flat.WF p.config) (fun F => F.ids.length) _ _
    (fun _ op hF => Flat.call_paid hF op) (fun _ op hF => hF.call op) _ (Flat.empty_wf p.config) ops

/-- A sweep, a kill and a reprice. -/
theorem OrderBook.work_run_small :
    ((OrderBook.answers { stp := .cancelResting, bandHi := 9, idMapSlots := 4 }
      [.submitLimit 1 .ask 5 2 .gtc 7, .submitLimit 2 .ask 5 2 .gtc 8, .submitLimit 3 .bid 5 3 .gtc 7,
        .modify 3 4 9]).map Answer.cost).sum +
      (OrderBook.run { stp := .cancelResting, bandHi := 9, idMapSlots := 4 }
      [.submitLimit 1 .ask 5 2 .gtc 7, .submitLimit 2 .ask 5 2 .gtc 8, .submitLimit 3 .bid 5 3 .gtc 7,
        .modify 3 4 9]).restingOrders ≤ 3 :=
  OrderBook.work_run _ ⟨by decide, by decide, by decide, by decide⟩ _

/-! ### Messages -/

namespace Connection

/-- The bytes that were ever queued for the client. -/
def queued (c : Connection) : ℕ := c.sent.length + c.outbox.length

theorem queued_sendExec (c : Connection) (m : ExecReportMsg) :
    (c.sendExec m).queued ≤ c.queued + 16 := by
  rw [sendExec_eq]
  split_ifs
  · exact Nat.le_add_right _ _
  · simp only [queued, List.length_append, ExecReportMsg.length_bytes]
    omega

theorem queued_flush (c : Connection) (n : ℕ) : (c.flush n).queued = c.queued := by
  simp only [queued, flush, List.length_append, List.length_drop, List.length_take]
  omega

end Connection

/-- The bytes queued for all clients. -/
def queuedBytes (conns : List Connection) : ℕ := (conns.map Connection.queued).sum

theorem queuedBytes_onFirst {p : Connection → Bool} {f : Connection → Connection} {k : ℕ}
    (hf : ∀ c, (f c).queued ≤ c.queued + k) (conns : List Connection) :
    queuedBytes (Connection.onFirst p f conns) ≤ queuedBytes conns + k := by
  induction conns with
  | nil => exact Nat.zero_le _
  | cons c conns ih =>
      have hc := hf c
      unfold queuedBytes at ih ⊢
      unfold Connection.onFirst
      split_ifs
      · simp only [List.map_cons, List.sum_cons]
        omega
      · simp only [List.map_cons, List.sum_cons]
        omega

namespace FeedPublisher

theorem length_sendDatagram (feed : FeedPublisher) (bs : Option (List UInt8)) :
    (feed.sendDatagram bs).datagrams.length ≤ feed.datagrams.length + 1 := by
  cases bs with
  | none => exact Nat.le_succ _
  | some bs => simp [sendDatagram]

/-- Every event is at most one message: a datagram of its own, or a report to the owner. -/
theorem callbacks_paid (x : FeedPublisher × List Connection) (tape : List Event) :
    ∃ d, queuedBytes (callbacks x tape).2 ≤ queuedBytes x.2 + d ∧
      d + 16 * (callbacks x tape).1.datagrams.length ≤
        16 * x.1.datagrams.length + 16 * tape.length := by
  induction tape generalizing x with
  | nil => exact ⟨0, Nat.le_refl _, by simp [callbacks]⟩
  | cons e tape ih =>
      obtain ⟨d, hbytes, hsent⟩ := ih (callback x e)
      change queuedBytes (callbacks x (e :: tape)).2 ≤ _ at hbytes
      change d + 16 * (callbacks x (e :: tape)).1.datagrams.length ≤ _ at hsent
      rw [List.length_cons]
      cases e with
      | trade taker maker px qty =>
          have hone : (x.1.onTrade maker px qty).datagrams.length ≤ x.1.datagrams.length + 1 :=
            length_sendDatagram _ _
          refine ⟨d, hbytes, ?_⟩
          change _ ≤ 16 * (x.1.onTrade maker px qty).datagrams.length + _ at hsent
          omega
      | cancel id owner =>
          have hone : queuedBytes (callback x (.cancel id owner)).2 ≤ queuedBytes x.2 + 16 :=
            queuedBytes_onFirst (fun c => c.queued_sendExec _) x.2
          refine ⟨d + 16, hbytes.trans (by omega), ?_⟩
          change _ ≤ 16 * x.1.datagrams.length + _ at hsent
          omega

end FeedPublisher

namespace Gateway

section flat

variable {c : Config} {g g' g'' : Gateway Flat} {owner : Owner} {m n : ℕ}

/-- The way from `g` to `g'` is paid for with `n` messages and the orders that leave the book. -/
def Pays (g g' : Gateway Flat) (n : ℕ) : Prop :=
  ∃ d, queuedBytes g'.conns ≤ queuedBytes g.conns + d ∧
    d + 16 * (g'.feed.datagrams.length + g'.book.ids.length) ≤
      16 * (g.feed.datagrams.length + g.book.ids.length) + 16 * n

namespace Pays

theorem refl (g : Gateway Flat) : Pays g g 0 := ⟨0, Nat.le_refl _, by omega⟩

theorem trans (h : Pays g g' m) (h' : Pays g' g'' n) : Pays g g'' (m + n) := by
  obtain ⟨d, hbytes, hpaid⟩ := h
  obtain ⟨d', hbytes', hpaid'⟩ := h'
  exact ⟨d + d', by omega, by omega⟩

/-- A change of one connection. -/
theorem onConn {f : Connection → Connection} (hf : ∀ c, (f c).queued ≤ c.queued + 16 * n) :
    Pays g (g.onConn owner f) n := by
  refine ⟨16 * n, queuedBytes_onFirst hf g.conns, ?_⟩
  change 16 * n + 16 * (g.feed.datagrams.length + g.book.ids.length) ≤ _
  omega

theorem publish (g : Gateway Flat) : Pays g (g.publish (Flat.engine c)) 1 := by
  refine ⟨0, Nat.le_refl _, ?_⟩
  have hone : (g.publish (Flat.engine c)).feed.datagrams.length ≤ g.feed.datagrams.length + 1 :=
    FeedPublisher.length_sendDatagram _ _
  change 0 + 16 * ((g.publish (Flat.engine c)).feed.datagrams.length + g.book.ids.length) ≤ _
  omega

theorem called {F : Flat} {tape : List Event} (h : tape.length + F.ids.length ≤ g.book.ids.length + n) :
    Pays g (g.called F tape) n := by
  obtain ⟨d, hbytes, hpaid⟩ := FeedPublisher.callbacks_paid (g.feed, g.conns) tape
  refine ⟨d, hbytes, ?_⟩
  change d + 16 * ((FeedPublisher.callbacks (g.feed, g.conns) tape).1.datagrams.length +
    F.ids.length) ≤ _
  simp only at hpaid
  omega

/-- **A request is paid for with one message**, its report apart. -/
theorem serve (hk : Kept c g) (owner : Owner) (req : Request) :
    Pays g (Gateway.serve (Flat.engine c) g owner req).1 1 := by
  have hasked : (g.asked (Flat.engine c) owner req).2.2.length +
      (g.asked (Flat.engine c) owner req).1.ids.length ≤ g.book.ids.length + 1 := by
    unfold asked
    cases req.op owner (g.feed.orders.idOf owner req) with
    | none =>
        change 0 + g.book.ids.length ≤ _
        omega
    | some op =>
        rw [Engine.ask, Flat.engine_call]
        have hpaid := Flat.call_paid hk.wf op
        have hcredit : op.credit ≤ 1 := by
          unfold Op.credit
          split_ifs <;> omega
        unfold Answer.cost at hpaid
        omega
  rw [serve_eq]
  exact called (g := g.prepared owner req) hasked

theorem handleFrame (hk : Kept c g) (owner : Owner) (body : List UInt8) :
    Pays g (Gateway.handleFrame (Flat.engine c) g owner body).1
      (if (Gateway.handleFrame (Flat.engine c) g owner body).2.isSome then 3 else 0) := by
  unfold Gateway.handleFrame
  cases g.conns.find? (Connection.isOf owner) with
  | none => exact refl g
  | some conn =>
      by_cases hdead : conn.dead = true
      · simp only [if_pos hdead]
        exact refl g
      · simp only [if_neg hdead]
        cases decodeRequest body with
        | none => exact onConn fun _ => Nat.le_refl _
        | some req =>
            have hreport : ∀ m : ExecReportMsg, ∀ conn : Connection,
                (conn.sendExec m).queued ≤ conn.queued + 16 * 1 :=
              fun m conn => conn.queued_sendExec m
            exact ((serve hk owner req).trans (onConn (hreport _))).trans (publish _)

/-- A loop that cancels resting orders takes them all off the book. -/
theorem length_cancelAll (hk : Kept c g) {ids : List OrderId} (hnd : ids.Nodup)
    (hids : ∀ id ∈ ids, id ∈ g.book.ids) :
    (g.cancelAll (Flat.engine c) ids).book.ids.length + ids.length = g.book.ids.length := by
  induction ids generalizing g with
  | nil => rfl
  | cons id ids ih =>
      obtain ⟨hid, hnd⟩ := List.nodup_cons.mp hnd
      have hone : (g.cancelAll (Flat.engine c) [id]).book.ids.length + 1 = g.book.ids.length := by
        change (g.book.cancel id).1.ids.length + 1 = _
        rw [Flat.cancel_eq]
        exact Flat.length_ids_remove hk.wf.nodup (hids id List.mem_cons_self)
      have hrest := ih (hk.cancelAll [id]) hnd fun k hkmem => by
        refine (mem_ids_cancelAll [id] k).mpr ⟨hids k (List.mem_cons_of_mem id hkmem), ?_⟩
        rw [List.mem_singleton]
        rintro rfl
        exact hid hkmem
      change (g.cancelAll (Flat.engine c) (id :: ids)).book.ids.length + ids.length = _ at hrest
      rw [List.length_cons]
      omega

/-- The orders of a client are on the book. -/
theorem mem_of_ownedBy (hk : Kept c g) {id : OrderId}
    (hid : id ∈ g.feed.orders.ownedBy owner) : id ∈ g.book.ids := by
  obtain ⟨client, hkey⟩ := OrderIds.mem_ownedBy.mp hid
  obtain ⟨l, hl, -⟩ := (hk.shows_.inverse _ _ _).mp hkey
  by_contra hno
  rw [hk.shows_.live_eq_none_iff.mpr hno] at hl
  cases hl

theorem conns_cancelAll (g : Gateway Flat) (ids : List OrderId) :
    (g.cancelAll (Flat.engine c) ids).conns = g.conns ∧
      (g.cancelAll (Flat.engine c) ids).feed.datagrams = g.feed.datagrams := by
  induction ids generalizing g with
  | nil => exact ⟨rfl, rfl⟩
  | cons id ids ih => exact ih _

/-- The orders of a client that leaves pay for the snapshot without them. -/
theorem cancelOnDisconnect (hk : Kept c g) (owner : Owner) :
    Pays g (g.cancelOnDisconnect (Flat.engine c) owner) 0 := by
  have hlength := length_cancelAll hk (hk.shows_.inverse.ownedBy_nodup owner)
    fun _ hid => mem_of_ownedBy hk hid
  obtain ⟨hconns, hsent⟩ := conns_cancelAll (c := c) g (g.feed.orders.ownedBy owner)
  have hall : Pays g (g.cancelAll (Flat.engine c) (g.feed.orders.ownedBy owner)) 0 := by
    refine ⟨0, Nat.le_of_eq (congrArg queuedBytes hconns), ?_⟩
    rw [hsent]
    omega
  unfold Gateway.cancelOnDisconnect
  dsimp only
  split_ifs with hnil
  · exact hall
  · have hpos := List.length_pos_of_ne_nil hnil
    obtain ⟨d, hbytes, hpaid⟩ := publish (c := c)
      (g.cancelAll (Flat.engine c) (g.feed.orders.ownedBy owner))
    refine ⟨d, by rw [← hconns]; exact hbytes, ?_⟩
    rw [hsent] at hpaid
    omega

theorem step (hk : Kept c g) (i : Input) : Pays g (Gateway.step (Flat.engine c) g i).1
    (if (Gateway.step (Flat.engine c) g i).2.isSome then 3 else 0) := by
  cases i with
  | accept owner =>
      refine ⟨0, Nat.le_of_eq ?_, Nat.le_of_eq (Nat.zero_add _)⟩
      change queuedBytes (g.conns ++ [_]) = _
      simp [queuedBytes, Connection.queued]
  | frame owner body => exact handleFrame hk owner body
  | flush owner n => exact onConn fun conn => Nat.le_of_eq (conn.queued_flush n)
  | hangup owner => exact onConn fun _ => Nat.le_refl _
  | disconnect owner => exact cancelOnDisconnect hk owner
  | erase owner =>
      refine ⟨0, ?_, Nat.le_of_eq (Nat.zero_add _)⟩
      exact (List.eraseP_sublist.map _).sum_le_sum fun _ _ => Nat.zero_le _

end Pays

end flat

/-! ### Runs -/

/-- What a run has sent and done: the bytes queued for clients, those now gone included, and the
requests that were executed. -/
structure Traffic where
  bytes : ℕ := 0
  requests : ℕ := 0

def Traffic.note (t : Traffic) (g : Gateway OrderBook) (i : Input)
    (report : Option ExecReportMsg) : Traffic where
  bytes := t.bytes + (queuedBytes (step OrderBook.engine g i).1.conns - queuedBytes g.conns)
  requests := t.requests + if report.isSome then 1 else 0

def traffic (p : Params) (inputs : List Input) : Traffic :=
  Transition.record (step OrderBook.engine) Traffic.note {} (new p) inputs

/-- **Three messages to a request**: reports of 16 bytes and datagrams, with the orders still on the
book, are never more than three times the requests that were executed. -/
theorem traffic_run (p : Params) (hp : p.Valid) (inputs : List Input) :
    (traffic p inputs).bytes +
        16 * ((run p inputs).feed.datagrams.length + (run p inputs).book.restingOrders) ≤
      48 * (traffic p inputs).requests := by
  have hE := OrderBook.engine_sim p.config
  have hsim := run_sim hp inputs
  have hrun : Kept p.config (runFlat p.config inputs) ∧ (traffic p inputs).bytes +
      16 * ((runFlat p.config inputs).feed.datagrams.length +
        (runFlat p.config inputs).book.ids.length) ≤ 48 * (traffic p inputs).requests := by
    refine Transition.inv_record (R := Sim (Book.Repr p.config)) (Q := fun (t : Traffic) g =>
      Kept p.config g ∧ t.bytes + 16 * (g.feed.datagrams.length + g.book.ids.length) ≤ 48 * t.requests)
      (fun g g' i h => (h.step hE i).2) ?_ inputs (run_sim hp [])
      ⟨kept_run p.config [], Nat.le_refl _⟩
    rintro g g' t i h ⟨hk, hle⟩
    refine ⟨hk.step i, ?_⟩
    obtain ⟨d, hbytes, hpaid⟩ := Pays.step hk i
    obtain ⟨hreport, hnext⟩ := h.step hE i
    rw [← hreport] at hpaid
    simp only [Traffic.note, hnext.conns, h.conns]
    split_ifs at hpaid ⊢ <;> omega
  rw [hsim.feed, hsim.book.restingOrders]
  exact hrun.2

/-- A partial fill: a report, a trade and a snapshot for the second request. -/
theorem traffic_run_small :
    (traffic { stp := .cancelResting, bandHi := 9, idMapSlots := 4 }
      [.accept 1, .accept 2, .send 1 (NewOrderMsg.encode 64 ⟨7, 5, 3, .ask, .gtc⟩),
        .send 2 (NewOrderMsg.encode 64 ⟨7, 5, 2, .bid, .gtc⟩), .disconnect 1, .erase 1]).bytes +
      16 * ((run { stp := .cancelResting, bandHi := 9, idMapSlots := 4 }
        [.accept 1, .accept 2, .send 1 (NewOrderMsg.encode 64 ⟨7, 5, 3, .ask, .gtc⟩),
          .send 2 (NewOrderMsg.encode 64 ⟨7, 5, 2, .bid, .gtc⟩), .disconnect 1,
          .erase 1]).feed.datagrams.length +
        (run { stp := .cancelResting, bandHi := 9, idMapSlots := 4 }
        [.accept 1, .accept 2, .send 1 (NewOrderMsg.encode 64 ⟨7, 5, 3, .ask, .gtc⟩),
          .send 2 (NewOrderMsg.encode 64 ⟨7, 5, 2, .bid, .gtc⟩), .disconnect 1,
          .erase 1]).book.restingOrders) ≤
      48 * (traffic { stp := .cancelResting, bandHi := 9, idMapSlots := 4 }
      [.accept 1, .accept 2, .send 1 (NewOrderMsg.encode 64 ⟨7, 5, 3, .ask, .gtc⟩),
        .send 2 (NewOrderMsg.encode 64 ⟨7, 5, 2, .bid, .gtc⟩), .disconnect 1, .erase 1]).requests :=
  traffic_run _ ⟨by decide, by decide, by decide, by decide⟩ _

end Gateway

end Lob
