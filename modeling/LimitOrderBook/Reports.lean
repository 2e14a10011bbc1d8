import LimitOrderBook.InStep
import LimitOrderBook.SelfTrade

/-! # The reports of a frame

A frame that is executed owes its client one report for each own order that it kills, in the order
of the kills, and then its own (`Gateway.owed`).  They are sent one after another, and the first
that finds no room marks the connection dead; every report is of the same size, so the ones after
it find no room either (`Connection.sendAll_eq`).

`Gateway.Reached` is what every reachable gateway is known to be.  In such a gateway a frame kills
orders of its sender only, under the ids the sender gave them (`Reached.kill`), and it touches no
connection but the sender's, which is sent what it is owed (`Reached.conns_execute`). -/

namespace Lob

/-! ### Connections -/

namespace Connection

/-- Reports sent one after another. -/
def sendAll (c : Connection) (ms : List ExecReportMsg) : Connection := ms.foldl sendExec c

/-- How many more reports the outbox holds. -/
def room (c : Connection) : ℕ := (kMaxOutbox - c.outbox.length) / 16

theorem length_flatMap_bytes (ms : List ExecReportMsg) :
    (ms.flatMap ExecReportMsg.bytes).length = 16 * ms.length := by
  induction ms with
  | nil => rfl
  | cons m ms ih =>
      rw [List.flatMap_cons, List.length_append, ih, ExecReportMsg.length_bytes, List.length_cons]
      omega

theorem sendExec_eq (c : Connection) (m : ExecReportMsg) :
    c.sendExec m = if c.outbox.length + 16 > kMaxOutbox then { c with dead := true }
      else { c with outbox := c.outbox ++ m.bytes } := by
  simp only [sendExec, m.encode_eq, queueSend, ExecReportMsg.length_bytes]

/-- **The reports that find room are a prefix of those sent.** -/
theorem sendAll_eq (c : Connection) (ms : List ExecReportMsg) :
    c.sendAll ms =
      { c with
        outbox := c.outbox ++ (ms.take c.room).flatMap ExecReportMsg.bytes
        dead := c.dead || decide (c.room < ms.length) } := by
  induction ms generalizing c with
  | nil => simp [sendAll]
  | cons m ms ih =>
      rw [sendAll, List.foldl_cons, ← sendAll, ih, sendExec_eq]
      by_cases hfull : c.outbox.length + 16 > kMaxOutbox
      · have hroom : c.room = 0 := by
          unfold room
          omega
        have hroom' : ({ c with dead := true } : Connection).room = 0 := hroom
        rw [if_pos hfull, hroom, hroom']
        simp
      · rw [if_neg hfull]
        have hroom : c.room = ({ c with outbox := c.outbox ++ m.bytes } : Connection).room + 1 := by
          simp only [room, List.length_append, ExecReportMsg.length_bytes]
          omega
        rw [hroom]
        simp

@[simp] theorem owner_sendAll (c : Connection) (ms : List ExecReportMsg) :
    (c.sendAll ms).owner = c.owner := by rw [sendAll_eq]

theorem sendAll_append (c : Connection) (ms ms' : List ExecReportMsg) :
    c.sendAll (ms ++ ms') = (c.sendAll ms).sendAll ms' := by
  rw [sendAll, List.foldl_append]
  rfl

/-! ### The connection of an owner -/

section onFirst

variable {p : Connection → Bool} {f : Connection → Connection} {pre post conns : List Connection}
  {c : Connection} {owner : Owner}

theorem onFirst_append (hpre : ∀ x ∈ pre, p x = false) (hc : p c = true) :
    onFirst p f (pre ++ c :: post) = pre ++ f c :: post := by
  induction pre with
  | nil => simp [onFirst, hc]
  | cons x pre ih =>
      rw [List.cons_append, onFirst, if_neg (by simp [hpre x List.mem_cons_self]),
        ih fun y hy => hpre y (List.mem_cons_of_mem x hy), List.cons_append]

theorem onFirst_eq_self (h : ∀ x ∈ conns, p x = false) : onFirst p f conns = conns := by
  induction conns with
  | nil => rfl
  | cons x conns ih =>
      rw [onFirst, if_neg (by simp [h x List.mem_cons_self]),
        ih fun y hy => h y (List.mem_cons_of_mem x hy)]

/-- The first connection of an owner is `c`. -/
structure Found (owner : Owner) (conns pre : List Connection) (c : Connection)
    (post : List Connection) : Prop where
  split : conns = pre ++ c :: post
  owner_eq : c.owner = owner
  before : ∀ x ∈ pre, x.owner ≠ owner

theorem found_of_find? (h : conns.find? (isOf owner) = some c) :
    ∃ pre post, Found owner conns pre c post := by
  obtain ⟨hc, pre, post, hsplit, hpre⟩ := List.find?_eq_some_iff_append.mp h
  exact ⟨pre, post, hsplit, of_decide_eq_true hc, fun x hx => by simpa [isOf] using hpre x hx⟩

namespace Found

theorem find? (h : Found owner conns pre c post) : conns.find? (isOf owner) = some c := by
  refine List.find?_eq_some_iff_append.mpr ⟨decide_eq_true h.owner_eq, pre, post, h.split, ?_⟩
  intro x hx
  simp [isOf, h.before x hx]

theorem replace (h : Found owner conns pre c post) {c' : Connection} (hc : c'.owner = c.owner) :
    Found owner (pre ++ c' :: post) pre c' post := ⟨rfl, hc.trans h.owner_eq, h.before⟩

theorem onFirst (h : Found owner conns pre c post) (f : Connection → Connection) :
    onFirst (isOf owner) f conns = pre ++ f c :: post := by
  rw [h.split]
  exact onFirst_append (fun x hx => decide_eq_false (h.before x hx)) (decide_eq_true h.owner_eq)

theorem onFirst_live (h : Found owner conns pre c post) (hlive : c.dead = false)
    (f : Connection → Connection) :
    Connection.onFirst (fun c => c.isOf owner && !c.dead) f conns = pre ++ f c :: post := by
  rw [h.split]
  refine onFirst_append (fun x hx => ?_) ?_
  · simp [isOf, h.before x hx]
  · simp [isOf, h.owner_eq, hlive]

theorem onFirst_dead (h : Found owner conns pre c post) (hdead : c.dead = true)
    (halone : ∀ x ∈ post, x.owner ≠ owner) (f : Connection → Connection) :
    Connection.onFirst (fun c => c.isOf owner && !c.dead) f conns = conns := by
  refine onFirst_eq_self fun x hx => ?_
  rw [h.split] at hx
  rcases List.mem_append.mp hx with hx | hx
  · simp [isOf, h.before x hx]
  · rcases List.mem_cons.mp hx with rfl | hx
    · simp [hdead]
    · simp [isOf, halone x hx]

end Found

end onFirst

end Connection

/-! ### Kills -/

/-- The orders that the events of a call kill. -/
def kills (tape : List Event) : List OrderId :=
  tape.filterMap fun
    | .cancel id _ => some id
    | .trade .. => none

/-- The client id of an order, or `0`. -/
def OrderIds.client (ids : OrderIds) (id : OrderId) : OrderId :=
  ((ids.live.find? id).map Live.client).getD 0

theorem OrderIds.forget_snd (ids : OrderIds) (id : OrderId) : (ids.forget id).2 = ids.client id := by
  unfold OrderIds.forget OrderIds.client
  cases ids.live.find? id <;> rfl

/-- The report of a kill. -/
def killed (client : OrderId) : ExecReportMsg := ⟨client, 0, .canceled⟩

namespace FeedPublisher

open Connection

/-- **The callbacks of a call report its kills to the sender.** -/
theorem conns_callbacks {owner : Owner} {conns pre post : List Connection} {c : Connection}
    (hfound : Found owner conns pre c post) (hlive : c.dead = false) (feed : FeedPublisher)
    (client : OrderId → OrderId) (tape : List Event)
    (hkills : ∀ t₁ id o t₂, tape = t₁ ++ .cancel id o :: t₂ →
      o = owner ∧ (t₁.foldl OrderIds.hear feed.orders).client id = client id)
    (halone : c.room < (kills tape).length → ∀ x ∈ post, x.owner ≠ owner) :
    (callbacks (feed, conns) tape).2 =
      pre ++ c.sendAll ((kills tape).map fun id => killed (client id)) :: post := by
  induction tape using List.reverseRecOn with
  | nil => exact hfound.split
  | append_singleton tape e ih =>
      have hle : (kills tape).length ≤ (kills (tape ++ [e])).length := by
        simp [kills, List.filterMap_append]
      specialize ih
        (fun t₁ id o t₂ he => hkills t₁ id o (t₂ ++ [e]) (by simp [he]))
        (fun h => halone (Nat.lt_of_lt_of_le h hle))
      have hlast : callbacks (feed, conns) (tape ++ [e]) =
          callback (callbacks (feed, conns) tape) e := by
        simp only [callbacks, List.foldl_append, List.foldl_cons, List.foldl_nil]
      rw [hlast]
      cases e with
      | trade taker maker px qty =>
          have hsame : kills (tape ++ [.trade taker maker px qty]) = kills tape := by
            simp [kills]
          rw [hsame]
          exact ih
      | cancel id o =>
          obtain ⟨rfl, hclient⟩ := hkills tape id o [] rfl
          have hmore : kills (tape ++ [.cancel id o]) = kills tape ++ [id] := by
            simp [kills]
          have horders : (callbacks (feed, conns) tape).1.orders =
              tape.foldl OrderIds.hear feed.orders := orders_callbacks _ _
          rw [hmore, List.map_append, sendAll_append]
          simp only [callback, OrderIds.forget_snd, horders, hclient, unsolicitedCancel, ih]
          have hfound' := hfound.replace
            (owner_sendAll c ((kills tape).map fun id => killed (client id)))
          cases hdead : (c.sendAll ((kills tape).map fun id => killed (client id))).dead with
          | false => exact hfound'.onFirst_live hdead _
          | true =>
              -- the outbox is full, and stays so
              have hfull : c.room < (kills tape).length := by
                rw [sendAll_eq, hlive] at hdead
                simpa using hdead
              rw [hfound'.onFirst_dead hdead (halone (Nat.lt_of_lt_of_le hfull hle)),
                ← sendAll_append]
              rw [sendAll_eq, sendAll_eq c (_ ++ _), List.take_append_of_le_length
                (by rw [List.length_map]; exact Nat.le_of_lt hfull)]
              simp only [List.length_append, List.length_map, List.map_cons, List.map_nil,
                List.length_cons, List.length_nil, hfull, Nat.lt_succ_of_lt hfull]

end FeedPublisher

/-! ### Reachable gateways -/

namespace Gateway

open Connection

/-- What every reachable gateway is: one on a flat book, whose ids show that book. -/
def Reached (c : Config) (g : Gateway OrderBook) : Prop :=
  ∃ g' : Gateway Flat, Sim (Book.Repr c) g g' ∧ Kept c g'

theorem reached_run {p : Params} (hp : p.Valid) (inputs : List Input) :
    Reached p.config (run p inputs) := ⟨_, run_sim hp inputs, kept_run p.config inputs⟩

theorem run_append {p : Params} (inputs : List Input) (i : Input) :
    run p (inputs ++ [i]) = (step OrderBook.engine (run p inputs) i).1 :=
  Transition.finalState_append _ _ _

section execute

variable {B : Type} (E : Engine B) (g : Gateway B) (owner : Owner)

/-- The request that `handle_frame` executes, if it executes one. -/
def request? (body : List UInt8) : Option Request :=
  match g.conns.find? (isOf owner) with
  | none => none
  | some c => if c.dead then none else decodeRequest body

/-- A request executed, its report sent and the book published. -/
def execute (req : Request) : Gateway B :=
  let (g, report) := serve E g owner req
  (g.onConn owner fun c => c.sendExec report).publish E

/-- The reports that a request owes to its sender. -/
def owed (req : Request) : List ExecReportMsg :=
  (kills (g.asked E owner req).2.2).map (fun id => killed (g.feed.orders.client id)) ++
    [(serve E g owner req).2]

variable {g owner}

theorem handleFrame_of_request {body : List UInt8} {req : Request}
    (h : g.request? owner body = some req) :
    handleFrame E g owner body = (g.execute E owner req, some (serve E g owner req).2) := by
  unfold request? at h
  unfold handleFrame
  cases hc : g.conns.find? (isOf owner) with
  | none => rw [hc] at h; cases h
  | some c =>
      simp only [hc] at h
      split_ifs at h with hdead
      simp only [if_neg hdead, h]
      rfl

theorem conns_publish : (g.publish E).conns = g.conns := rfl

theorem conns_cancelAll (g : Gateway B) (ids : List OrderId) :
    (g.cancelAll E ids).conns = g.conns := by
  induction ids generalizing g with
  | nil => rfl
  | cons id ids ih => exact ih _

/-- A disconnect has the ids forgotten, and changes nothing else of the feed. -/
theorem feed_cancelAll (g : Gateway B) (ids : List OrderId) : (g.cancelAll E ids).feed =
    { g.feed with
      orders := ids.foldl (fun orders id => (orders.forget id).1) g.feed.orders } := by
  induction ids generalizing g with
  | nil => rfl
  | cons id ids ih => exact ih _

theorem conns_serve (req : Request) : (serve E g owner req).1.conns =
    (FeedPublisher.callbacks ((g.prepared owner req).feed, g.conns)
      (g.asked E owner req).2.2).2 := by
  rw [serve_eq]
  rfl

end execute

namespace Kept

variable {c : Config} {g : Gateway Flat} {owner : Owner} {req : Request} {op : Op} {t : Taker}

/-- Whoever sends a frame owns the order it brings to match. -/
theorem taker_owner (h : Kept c g) (hop : req.op owner (g.feed.orders.idOf owner req) = some op)
    (hsend : g.book.Sends c op t) : t.owner = owner := by
  cases req with
  | newOrder m =>
      obtain rfl := Option.some.inj hop
      cases hsend
      rfl
  | market m =>
      simp only [Request.op] at hop
      split_ifs at hop
      obtain rfl := Option.some.inj hop
      cases hsend
      rfl
  | cancel m =>
      obtain rfl := Option.some.inj hop
      cases hsend
  | modify m =>
      obtain rfl := Option.some.inj hop
      cases hsend with
      | modify hfind => exact (h.shows_.live_of_resting h.wf hfind).2

/-- A frame with an event has sent an order of its sender to match. -/
theorem sends (h : Kept c g) {e : Event} (he : e ∈ (g.asked (Flat.engine c) owner req).2.2) :
    ∃ op t, req.op owner (g.feed.orders.idOf owner req) = some op ∧ g.book.Sends c op t ∧
      t.owner = owner ∧ g.asked (Flat.engine c) owner req =
        (t.after c.stp, t.reply c.stp op, (t.walk c.stp).tape) := by
  unfold asked at he ⊢
  cases hop : req.op owner (g.feed.orders.idOf owner req) with
  | none => rw [hop] at he; cases he
  | some op =>
      rw [hop, Engine.ask, Flat.engine_call] at he
      obtain ⟨t, hsend, hcall⟩ := Flat.sends_of_mem_tape he
      refine ⟨op, t, rfl, hsend, h.taker_owner hop hsend, ?_⟩
      rw [Engine.ask, Flat.engine_call, hcall]

/-- An order that a frame kills rests in the book at that moment, and is of the sender. -/
theorem killed_rests (h : Kept c g) {t₁ t₂ : List Event} {id : OrderId} {o : Owner}
    (htape : (g.asked (Flat.engine c) owner req).2.2 = t₁ ++ .cancel id o :: t₂) :
    o = owner ∧ ∃ s r, (g.book.replay t₁).find? id = some (s, r) ∧ r.owner = o := by
  have hmem : .cancel id o ∈ (g.asked (Flat.engine c) owner req).2.2 := by
    rw [htape]
    exact List.mem_append_right _ List.mem_cons_self
  obtain ⟨op, t, hop, hsend, howner, hask⟩ := h.sends hmem
  rw [hask] at htape
  have hq := Flat.side_nodup (hsend.book_wf h.wf).nodup t.side.opp
  obtain ⟨r, q, hfront, -, hmeets⟩ := walk_event _ _ hq htape
  rw [hsend.side_opp h.wf, ← Flat.side_replay] at hfront
  cases hmeets with
  | kill hown hstp =>
      have hr : r ∈ (g.book.replay t₁).side t.side.opp := by
        rw [hfront]
        exact List.mem_cons_self
      have hnd := Flat.replay_nodup h.wf.nodup t₁
      exact ⟨hown.2.2.trans howner, t.side.opp, r, (Flat.find?_iff hnd).mpr ⟨hr, rfl⟩, rfl⟩

/-- **A frame kills own orders of its sender**, known to the client by the id it gave them. -/
theorem kill (h : Kept c g) {t₁ t₂ : List Event} {id : OrderId} {o : Owner}
    (htape : (g.asked (Flat.engine c) owner req).2.2 = t₁ ++ .cancel id o :: t₂) :
    o = owner ∧ (t₁.foldl OrderIds.hear (g.feed.orders.assigned owner req)).client id =
      g.feed.orders.client id := by
  obtain ⟨ho, s, r, hfind, -⟩ := h.killed_rests htape
  refine ⟨ho, ?_⟩
  have hshows := (h.shows_.assigned owner req).tape h.wf.nodup t₁
  obtain ⟨client, hl⟩ := hshows.live_of_find? hfind
  obtain ⟨l₀, hl₀, -, hclient⟩ := OrderIds.live_of_tape hl
  rw [(g.feed.orders.assigned_maps owner req).2] at hl₀
  simp only [OrderIds.client, hl, hl₀, Option.map_some, Option.getD_some]
  exact hclient

end Kept

namespace Reached

variable {c : Config} {g : Gateway OrderBook} {owner : Owner} {req : Request}

theorem step (h : Reached c g) (i : Input) : Reached c (step OrderBook.engine g i).1 := by
  obtain ⟨g', hsim, hkept⟩ := h
  exact ⟨_, (hsim.step (OrderBook.engine_sim c) i).2, hkept.step i⟩

/-- A frame kills own orders of its sender, known to the client by the id it gave them. -/
theorem kill (h : Reached c g) {t₁ t₂ : List Event} {id : OrderId} {o : Owner}
    (htape : (g.asked OrderBook.engine owner req).2.2 = t₁ ++ .cancel id o :: t₂) :
    o = owner ∧ (t₁.foldl OrderIds.hear (g.feed.orders.assigned owner req)).client id =
      g.feed.orders.client id := by
  obtain ⟨g', hsim, hkept⟩ := h
  rw [(hsim.asked (OrderBook.engine_sim c) owner req).1] at htape
  rw [hsim.feed]
  exact hkept.kill htape

/-- **A frame that is executed sends its client what it owes, and touches no other connection.** -/
theorem conns_execute (h : Reached c g) {pre post : List Connection} {conn : Connection}
    (hfound : Found owner g.conns pre conn post) (hlive : conn.dead = false) (req : Request)
    (halone : conn.room < (g.owed OrderBook.engine owner req).length →
      ∀ x ∈ post, x.owner ≠ owner) :
    (g.execute OrderBook.engine owner req).conns =
      pre ++ conn.sendAll (g.owed OrderBook.engine owner req) :: post := by
  have hlen : (kills (g.asked OrderBook.engine owner req).2.2).length ≤
      (g.owed OrderBook.engine owner req).length := by
    simp [owed]
  have hkills := FeedPublisher.conns_callbacks hfound hlive (g.prepared owner req).feed
    g.feed.orders.client (g.asked OrderBook.engine owner req).2.2
    (fun t₁ id o t₂ htape => h.kill htape) (fun hroom => halone (Nat.lt_of_lt_of_le hroom hlen))
  rw [← conns_serve] at hkills
  rw [execute, conns_publish, onConn, hkills, owed, sendAll_append]
  exact (hfound.replace (owner_sendAll _ _)).onFirst _

end Reached

end Gateway

end Lob
