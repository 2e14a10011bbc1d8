import LimitOrderBook.GatewaySim

/-! # Gateway and engine agree on the orders

The ids change in the middle of matching, by the callbacks, and after it, by what the frame
handler reads off the return value.  One frame keeps `OrderIds.Shows` (`Shows.served`), and so
does a disconnect; hence after every action of every run the two maps are inverse to each other
and hold exactly the orders of the book (`inStep_run`). -/

namespace Lob

open KeyedQueue

namespace FeedPublisher

/-- The callbacks of a call leave the ids that have heard its tape. -/
theorem orders_callbacks (x : FeedPublisher × List Connection) (tape : List Event) :
    (callbacks x tape).1.orders = tape.foldl OrderIds.hear x.1.orders := by
  induction tape generalizing x with
  | nil => rfl
  | cons e tape ih =>
      have he : (callback x e).1.orders = x.1.orders.hear e := by
        cases e with
        | trade taker maker px qty =>
            simp only [callback, onTrade, sendDatagram, OrderIds.hear]
            split <;> rfl
        | cancel id owner => rfl
      rw [callbacks, List.foldl_cons, List.foldl_cons, ← he]
      exact ih _

end FeedPublisher

theorem Request.settle_of_refuses {reply : Reply} (h : reply.Refuses) (req : Request) (owner : Owner)
    (id : OrderId) (side : Option Side) (ids : OrderIds) :
    req.settle owner id side reply ids = ids := by
  cases req <;> cases reply <;> simp_all [Reply.Refuses, Request.settle]

theorem Flat.find_of_modify {c : Config} {F : Flat} {id : OrderId} {px : Int} {qty : Qty}
    (h : (F.modify c id px qty).2.1.ok = true) : ∃ s r, F.find? id = some (s, r) := by
  cases hf : F.find? id with
  | none => simp [Flat.modify, hf] at h
  | some x => exact ⟨x.1, x.2, rfl⟩

/-- The order sent to match leaves its old place, and the tape is replayed. -/
theorem Flat.Sends.swept_eq {c : Config} {F : Flat} {op : Op} {t : Taker} (h : F.Sends c op t)
    (hF : F.WF c) : t.swept c.stp = (F.replay (t.walk c.stp).tape).remove t.id := by
  have hnot : t.id ∉ (t.swept c.stp).ids := Taker.not_mem_swept h.not_mem
  rw [Taker.swept_eq (h.book_wf hF).nodup] at hnot ⊢
  cases h with
  | limit => exact (Flat.remove_of_not_mem hnot).symm
  | market => exact (Flat.remove_of_not_mem hnot).symm
  | modify => exact Flat.replay_remove F _ _

theorem Flat.cancel_eq (F : Flat) (id : OrderId) :
    F.cancel id = (F.remove id, decide (id ∈ F.ids)) := by
  unfold Flat.cancel
  split_ifs with hid
  · simp [hid]
  · simp [hid, Flat.remove_of_not_mem hid]

namespace OrderIds

variable {c : Config} {ids : OrderIds} {F : Flat} {owner : Owner} {client id k : OrderId}
  {l : Live} {tape : List Event} {req : Request}

/-- Records keep their client, and none is added, while the engine matches. -/
theorem live_of_tape (hl : (tape.foldl hear ids).live.find? k = some l) :
    ∃ l₀, ids.live.find? k = some l₀ ∧ l.owner = l₀.owner ∧ l.client = l₀.client := by
  induction tape generalizing ids with
  | nil => exact ⟨l, hl, rfl, rfl⟩
  | cons e tape ih =>
      obtain ⟨l₁, hl₁, ho₁, hc₁⟩ := ih hl
      rw [live_hear] at hl₁
      obtain ⟨l₀, hl₀, he⟩ := Option.bind_eq_some_iff.mp hl₁
      obtain ⟨ho, hc⟩ := key_of_editLive he
      exact ⟨l₀, hl₀, ho₁.trans ho, hc₁.trans hc⟩

theorem assigned_maps (ids : OrderIds) (owner : Owner) (req : Request) :
    (ids.assigned owner req).byClient = ids.byClient ∧ (ids.assigned owner req).live = ids.live := by
  have hassign : ∀ client, (ids.assign owner client).2.byClient = ids.byClient ∧
      (ids.assign owner client).2.live = ids.live := by
    intro client
    unfold assign
    split_ifs <;> exact ⟨rfl, rfl⟩
  cases req with
  | newOrder m => exact hassign m.id
  | market m => exact hassign m.id
  | cancel m => exact ⟨rfl, rfl⟩
  | modify m => exact ⟨rfl, rfl⟩

namespace Shows

theorem assigned (h : ids.Shows F) (owner : Owner) (req : Request) :
    (ids.assigned owner req).Shows F := by
  obtain ⟨hc, hl⟩ := ids.assigned_maps owner req
  refine ⟨?_, ?_⟩
  · rw [Inverse, hc, hl]
    exact h.inverse
  · rw [hl]
    exact h.record

theorem zero_not_live (h : ids.Shows F) (hF : F.WF c) : ids.live.find? 0 = none := by
  rw [h.live_eq_none_iff, Flat.mem_ids]
  rintro ⟨s, r, hr, he⟩
  exact hF.id_ne s r hr he

/-- A client id without an engine id is free. -/
theorem free_of_find (h : ids.Shows F) (hF : F.WF c) (hfind : ids.find owner client = 0) :
    ids.byClient.find? (owner, client) = none := by
  cases hc : ids.byClient.find? (owner, client) with
  | none => rfl
  | some id =>
      obtain rfl : id = 0 := by simpa [OrderIds.find, hc] using hfind
      obtain ⟨l, hl, -⟩ := (h.inverse owner client 0).mp hc
      rw [h.zero_not_live hF] at hl
      cases hl

theorem free_of_assign (h : ids.Shows F) (hF : F.WF c) (hid : (ids.assign owner client).1 ≠ 0) :
    (ids.assign owner client).2.byClient.find? (owner, client) = none := by
  unfold assign at hid ⊢
  split_ifs at hid ⊢ with hbad
  · exact absurd rfl hid
  · rw [not_or, not_not] at hbad
    exact h.free_of_find hF hbad.2

/-- The record under the engine id of a client id is the client's. -/
theorem live_of_find (h : ids.Shows F) (hid : ids.find owner client ≠ 0) :
    ∃ l, ids.live.find? (ids.find owner client) = some l ∧ l.owner = owner ∧ l.client = client :=
  (h.inverse owner client _).mp (find_ne_zero hid)

/-- The record of a resting order that a client names. -/
theorem live_of_resting {s : Side} {r : Resting} (h : ids.Shows F) (hF : F.WF c)
    (hf : F.find? (ids.find owner client) = some (s, r)) :
    ids.live.find? (ids.find owner client) = some ⟨owner, client, r.qty, s⟩ ∧ r.owner = owner := by
  have hne : ids.find owner client ≠ 0 := by
    obtain ⟨hr, hid⟩ := Flat.find?_eq_some hf
    rw [← hid]
    exact hF.id_ne s r hr
  obtain ⟨k, hl⟩ := h.live_of_find? hf
  obtain ⟨l, hl', ho, hc⟩ := h.live_of_find hne
  obtain rfl := Option.some.inj (hl.symm.trans hl')
  simp only at ho hc
  rw [ho, hc] at hl
  exact ⟨hl, ho⟩

/-! ### One call -/

theorem forget_of_not_live (h : ids.live.find? id = none) : (ids.forget id).1 = ids := by
  rw [OrderIds.forget, h]

/-- An order has gone to match under a name of its own: it is recorded if it rests. -/
theorem after {op : Op} {t : Taker} (h : ids.Shows F) (hF : F.WF c) (hsend : F.Sends c op t)
    (client : OrderId)
    (hkey : ∀ id', ids.byClient.find? (t.owner, client) = some id' → id' = t.id)
    (hid : ∀ l, ids.live.find? t.id = some l → l.owner = t.owner ∧ l.client = client) :
    (if t.Rests c.stp then
      ((t.walk c.stp).tape.foldl OrderIds.hear ids).rest t.id t.owner client
        (t.walk c.stp).remaining t.side
      else (((t.walk c.stp).tape.foldl OrderIds.hear ids).forget t.id).1).Shows (t.after c.stp) := by
  have hnd := Flat.replay_nodup hF.nodup (t.walk c.stp).tape
  have htape := h.tape hF.nodup (t.walk c.stp).tape
  rw [Taker.after, hsend.swept_eq hF]
  split_ifs
  · refine htape.rest hnd (fun id' hk => ?_) (fun l hl => ?_) t.limit _ t.side
    · obtain ⟨l, hl, ho, hc⟩ := (htape.inverse _ _ _).mp hk
      obtain ⟨l₀, hl₀, ho₀, hc₀⟩ := live_of_tape hl
      exact hkey id' ((h.inverse _ _ _).mpr ⟨l₀, hl₀, ho₀.symm.trans ho, hc₀.symm.trans hc⟩)
    · obtain ⟨l₀, hl₀, ho₀, hc₀⟩ := live_of_tape hl
      obtain ⟨ho, hc⟩ := hid l₀ hl₀
      exact ⟨ho₀.trans ho, hc₀.trans hc⟩
  · exact htape.forget hnd _

/-- An order that was not there is not there while the engine matches. -/
theorem forget_tape (h : ids.Shows F) (hid : id ∉ F.ids) :
    ((tape.foldl OrderIds.hear ids).forget id).1 = tape.foldl OrderIds.hear ids := by
  refine forget_of_not_live ?_
  cases hl : (tape.foldl OrderIds.hear ids).live.find? id with
  | none => rfl
  | some l =>
      obtain ⟨l₀, hl₀, -⟩ := live_of_tape hl
      rw [h.live_eq_none_iff.mpr hid] at hl₀
      cases hl₀

/-- A new order has gone to match. -/
theorem arrival {op : Op} {t : Taker} (h : ids.Shows F) (hF : F.WF c) (hsend : F.Sends c op t)
    (client : OrderId) (hnew : t.id ∉ F.ids) (hfree : ids.byClient.find? (t.owner, client) = none) :
    (if t.Rests c.stp then
      ((t.walk c.stp).tape.foldl OrderIds.hear ids).rest t.id t.owner client
        (t.walk c.stp).remaining t.side
      else (t.walk c.stp).tape.foldl OrderIds.hear ids).Shows (t.after c.stp) := by
  have hafter := h.after hF hsend client
    (fun id' hk => by rw [hfree] at hk; cases hk)
    (fun l hl => by rw [h.live_eq_none_iff.mpr hnew] at hl; cases hl)
  rwa [h.forget_tape hnew] at hafter

theorem newOrder (h : ids.Shows F) (hF : F.WF c) (owner : Owner) (m : NewOrderMsg)
    (side : Option Side) :
    let id := (ids.assign owner m.id).1
    let x := F.call c (.submitLimit id m.side m.px m.qty m.tif owner)
    (Request.settle owner id side (.newOrder m) x.2.1
      (x.2.2.foldl OrderIds.hear (ids.assign owner m.id).2)).Shows x.1 := by
  intro id x
  have hassigned : (ids.assign owner m.id).2.Shows F := h.assigned owner (.newOrder m)
  have hout : F.Outcome c _ x := F.call_outcome c _
  clear_value x
  cases hout with
  | refused hrep =>
      rw [Request.settle_of_refuses hrep]
      exact hassigned
  | matched hsend =>
      have harrival := hassigned.arrival hF hsend m.id
      cases hsend with
      | limit hid hqty hpx hnew =>
          specialize harrival hnew (h.free_of_assign hF hid)
          simp only [Request.settle, Taker.reply, decide_eq_true_eq, Taker.filled, sub_sub_self]
          exact harrival

theorem market (h : ids.Shows F) (hF : F.WF c) (owner : Owner) (m : MarketMsg)
    (side : Option Side) :
    let id := (ids.assign owner m.id).1
    let x := (Flat.engine c).ask F (Request.op owner id (.market m))
    (Request.settle owner id side (.market m) x.2.1
      (x.2.2.foldl OrderIds.hear (ids.assign owner m.id).2)).Shows x.1 := by
  intro id x
  have hassigned : (ids.assign owner m.id).2.Shows F := h.assigned owner (.market m)
  by_cases hid : id = 0
  · have hx : x = (F, .market 0, []) := by
      simp only [x, Request.op, hid, ne_eq, not_true_eq_false, if_false, Engine.ask]
    rw [hx]
    exact hassigned
  · have hx : x = F.call c (.submitMarket id m.side m.qty owner) := by
      simp only [x, Request.op, ne_eq, hid, not_false_eq_true, if_true, Engine.ask,
        Flat.engine_call]
    have hout : F.Outcome c _ x := hx ▸ F.call_outcome c _
    clear_value x
    cases hout with
    | refused hrep =>
        rw [Request.settle_of_refuses hrep]
        exact hassigned
    | matched hsend =>
        have harrival := hassigned.arrival hF hsend m.id
        cases hsend with
        | market hid' hqty hnew hlimit =>
            specialize harrival hnew (h.free_of_assign hF hid)
            -- no market order rests
            rwa [if_neg fun hrest => Bool.false_ne_true hrest.2.2] at harrival

/-- A cancel. -/
theorem cancel (h : ids.Shows F) (hF : F.WF c) (owner : Owner) (m : CancelMsg)
    (side : Option Side) :
    let id := ids.find owner m.id
    let x := F.call c (.cancel id)
    (Request.settle owner id side (.cancel m) x.2.1 (x.2.2.foldl OrderIds.hear ids)).Shows x.1 := by
  intro id x
  have hout : F.Outcome c _ x := F.call_outcome c _
  clear_value x
  cases hout with
  | refused hrep =>
      rw [Request.settle_of_refuses hrep]
      exact h
  | cancelled hid => exact h.forget hF.nodup id
  | matched hsend => cases hsend

theorem modify (h : ids.Shows F) (hF : F.WF c) (owner : Owner) (m : ModifyMsg) :
    let id := ids.find owner m.id
    let x := F.call c (.modify id m.newPx m.newQty)
    (Request.settle owner id (ids.side id) (.modify m) x.2.1
      (x.2.2.foldl OrderIds.hear ids)).Shows x.1 := by
  obtain ⟨client, newPx, newQty⟩ := m
  have hlive : ∀ s r, F.find? (ids.find owner client) = some (s, r) →
      ids.live.find? (ids.find owner client) = some ⟨owner, client, r.qty, s⟩ ∧ r.owner = owner :=
    fun _ _ => h.live_of_resting hF
  dsimp only
  generalize ids.find owner client = id at hlive ⊢
  have hout := F.call_outcome c (.modify id newPx newQty)
  generalize F.call c (.modify id newPx newQty) = x at hout ⊢
  cases hout with
  | refused hrep =>
      rw [Request.settle_of_refuses hrep]
      exact h
  | @amended _ s qty r hfind hqty hle =>
      obtain ⟨hl, rfl⟩ := hlive s r hfind
      have hside : ids.side id = some s := by rw [OrderIds.side, hl]; rfl
      simpa [Request.settle, hside] using h.amend hF.nodup hl newQty
  | matched hsend =>
      have hafter := h.after hF hsend client
      cases hsend with
      | @modify _ s _ _ r hfind hqty hpx hmove =>
          obtain ⟨hl, rfl⟩ := hlive s r hfind
          have hside : ids.side id = some s := by rw [OrderIds.side, hl]; rfl
          specialize hafter
            (fun id' hk => by
              obtain ⟨l', hl', ho, hc⟩ := (h.inverse _ _ _).mp hk
              exact h.inverse.unique hl hl' ho hc)
            (fun l' hl' => by
              obtain rfl := Option.some.inj (hl.symm.trans hl')
              exact ⟨rfl, rfl⟩)
          simp only [Request.settle, Taker.reply, decide_eq_true_eq, Taker.filled, sub_sub_self,
            hside, Option.getD_some, true_and, if_true]
          exact hafter

/-- **One frame keeps the ids and the book in step.** -/
theorem served (h : ids.Shows F) (hF : F.WF c) (owner : Owner) (req : Request) :
    let id := ids.idOf owner req
    let x := (Flat.engine c).ask F (req.op owner id)
    (req.settle owner id (ids.side id) x.2.1
      (x.2.2.foldl OrderIds.hear (ids.assigned owner req))).Shows x.1 := by
  cases req with
  | newOrder m =>
      simp only [Request.op, Engine.ask, Flat.engine_call]
      exact h.newOrder hF owner m _
  | market m => exact h.market hF owner m _
  | cancel m =>
      simp only [Request.op, Engine.ask, Flat.engine_call]
      exact h.cancel hF owner m _
  | modify m =>
      simp only [Request.op, Engine.ask, Flat.engine_call]
      exact h.modify hF owner m

/-- **A fill never underflows**: it is about a recorded order, and no more than is open. -/
theorem fill_le {op : Op} (h : ids.Shows F) (hF : F.WF c) {t₁ t₂ : List Event}
    {taker maker : OrderId} {px : Int} {qty : Qty}
    (htape : (F.call c op).2.2 = t₁ ++ .trade taker maker px qty :: t₂) :
    ∃ l, (t₁.foldl OrderIds.hear ids).live.find? maker = some l ∧ qty ≤ l.openQty := by
  have hout := F.call_outcome c op
  generalize F.call c op = x at htape hout
  cases hout with
  | refused => simp at htape
  | cancelled => simp at htape
  | amended => simp at htape
  | @matched op t hsend =>
      have hq := Flat.side_nodup (hsend.book_wf hF).nodup t.side.opp
      obtain ⟨r, q, hfront, -, hmeets⟩ := walk_event _ _ hq htape
      rw [hsend.side_opp hF, ← Flat.side_replay] at hfront
      cases hmeets with
      | trade hown hk hpos =>
          have hr : r ∈ (F.replay t₁).side t.side.opp := by
            rw [hfront]
            exact List.mem_cons_self
          have hnd := Flat.replay_nodup hF.nodup t₁
          obtain ⟨client, hl⟩ :=
            (h.tape hF.nodup t₁).live_of_find? ((Flat.find?_iff hnd).mpr ⟨hr, rfl⟩)
          exact ⟨_, hl, hk⟩

end Shows

end OrderIds

namespace Gateway

/-! ### The gateway on a flat book -/

section flat

variable {c : Config} {g : Gateway Flat} {owner : Owner}

/-- Ids and book are in step. -/
structure Kept (c : Config) (g : Gateway Flat) : Prop where
  wf : g.book.WF c
  shows_ : g.feed.orders.Shows g.book

theorem orders_called {B : Type} (g : Gateway B) (book : B) (tape : List Event) :
    (g.called book tape).feed.orders = tape.foldl OrderIds.hear g.feed.orders :=
  FeedPublisher.orders_callbacks _ _

theorem orders_publish {B : Type} (E : Engine B) (g : Gateway B) :
    (g.publish E).feed.orders = g.feed.orders := by
  simp only [publish, FeedPublisher.publishBook, FeedPublisher.sendDatagram]
  split <;> rfl

/-- The orders left after a part of the loop of `cancel_on_disconnect`. -/
theorem mem_ids_cancelAll (ids : List OrderId) (k : OrderId) :
    k ∈ (g.cancelAll (Flat.engine c) ids).book.ids ↔ k ∈ g.book.ids ∧ k ∉ ids := by
  induction ids generalizing g with
  | nil => simp [cancelAll]
  | cons id ids ih =>
      rw [cancelAll, List.foldl_cons, ← cancelAll, ih]
      show k ∈ (g.book.cancel id).1.ids ∧ k ∉ ids ↔ _
      rw [Flat.cancel_eq, Flat.mem_ids_remove]
      simp
      tauto

namespace Kept

theorem publish (h : Kept c g) : Kept c (g.publish (Flat.engine c)) :=
  ⟨h.wf, by rw [orders_publish]; exact h.shows_⟩

theorem onConn (h : Kept c g) (owner : Owner) (f : Connection → Connection) :
    Kept c (g.onConn owner f) := ⟨h.wf, h.shows_⟩

theorem serve (h : Kept c g) (owner : Owner) (req : Request) :
    Kept c (serve (Flat.engine c) g owner req).1 := by
  rw [serve_eq]
  refine ⟨?_, ?_⟩
  · show (g.asked (Flat.engine c) owner req).1.WF c
    unfold asked
    cases req.op owner (g.feed.orders.idOf owner req) with
    | none => exact h.wf
    | some op =>
        rw [Engine.ask, Flat.engine_call]
        exact h.wf.call op
  · simp only [withOrders, orders_called]
    exact h.shows_.served h.wf owner req

theorem handleFrame (h : Kept c g) (owner : Owner) (body : List UInt8) :
    Kept c (handleFrame (Flat.engine c) g owner body).1 := by
  unfold Gateway.handleFrame
  cases g.conns.find? (Connection.isOf owner) with
  | none => exact h
  | some conn =>
      by_cases hdead : conn.dead = true
      · simp only [if_pos hdead]
        exact h
      · simp only [if_neg hdead]
        cases decodeRequest body with
        | none => exact h.onConn owner _
        | some req => exact ((h.serve owner req).onConn owner _).publish

theorem cancelAll (h : Kept c g) (ids : List OrderId) :
    Kept c (g.cancelAll (Flat.engine c) ids) := by
  induction ids generalizing g with
  | nil => exact h
  | cons id ids ih =>
      refine ih ⟨?_, ?_⟩
      · show (g.book.cancel id).1.WF c
        rw [Flat.cancel_eq]
        exact h.wf.remove id
      · show ((g.feed.orders.forget id).1).Shows (g.book.cancel id).1
        rw [Flat.cancel_eq]
        exact h.shows_.forget h.wf.nodup id

theorem cancelOnDisconnect (h : Kept c g) (owner : Owner) :
    Kept c (g.cancelOnDisconnect (Flat.engine c) owner) := by
  simp only [Gateway.cancelOnDisconnect]
  split_ifs
  · exact h.cancelAll _
  · exact (h.cancelAll _).publish

theorem step (h : Kept c g) (i : Input) : Kept c (step (Flat.engine c) g i).1 := by
  cases i with
  | accept owner => exact ⟨h.wf, h.shows_⟩
  | frame owner body => exact h.handleFrame owner body
  | flush owner n => exact h.onConn owner _
  | hangup owner => exact h.onConn owner _
  | disconnect owner => exact h.cancelOnDisconnect owner
  | erase owner => exact ⟨h.wf, h.shows_⟩

/-- **Every cancel of a disconnect succeeds.** -/
theorem cancels (h : Kept c g) {ids₁ ids₂ : List OrderId} {id : OrderId}
    (hids : g.feed.orders.ownedBy owner = ids₁ ++ id :: ids₂) :
    ((g.cancelAll (Flat.engine c) ids₁).book.cancel id).2 = true := by
  have hmem : id ∈ g.book.ids := by
    have hown : id ∈ g.feed.orders.ownedBy owner := by
      rw [hids]
      exact List.mem_append_right _ List.mem_cons_self
    obtain ⟨client, hk⟩ := OrderIds.mem_ownedBy.mp hown
    obtain ⟨l, hl, -⟩ := (h.shows_.inverse _ _ _).mp hk
    by_contra hno
    rw [h.shows_.live_eq_none_iff.mpr hno] at hl
    cases hl
  have hnd := h.shows_.inverse.ownedBy_nodup owner
  rw [hids] at hnd
  have hnot : id ∉ ids₁ := fun h₁ =>
    (List.nodup_append.mp hnd).2.2 id h₁ id List.mem_cons_self rfl
  rw [Flat.cancel_eq]
  exact decide_eq_true ((mem_ids_cancelAll ids₁ id).mpr ⟨hmem, hnot⟩)

end Kept

theorem kept_run (c : Config) (inputs : List Input) : Kept c (runFlat c inputs) := by
  have hnew : Kept c ({ book := {} } : Gateway Flat) := ⟨Flat.empty_wf c, OrderIds.empty_shows⟩
  have hstep : ∀ g i, Kept c g → True → Kept c (step (Flat.engine c) g i).1 :=
    fun _ i h _ => h.step i
  exact Transition.inv_finalState (P := fun _ _ => True) hstep hnew
    (Transition.along_of_forall _ fun _ _ => trivial)

end flat

/-! ### The gateway on its engine -/

/-- **Gateway and engine agree on the orders**: the maps are inverse, their keys are the orders of
the book, and the records show them.  What the frame handler and the disconnect rely on follows:
the side of an ok modify is there, a fill is covered by the open quantity, and every cancel of a
disconnect succeeds. -/
structure InStep (g : Gateway OrderBook) : Prop where
  inverse : ∀ owner client id, g.feed.orders.byClient.find? (owner, client) = some id ↔
    ∃ l, g.feed.orders.live.find? id = some l ∧ l.owner = owner ∧ l.client = client
  keys : ∀ id, g.feed.orders.live.find? id ≠ none ↔ id ∈ g.book.flat.ids
  record : ∀ id l, g.feed.orders.live.find? id = some l →
    ∃ r ∈ g.book.flat.side l.side, r.id = id ∧ r.owner = l.owner ∧ r.qty = l.openQty
  side_read : ∀ owner (m : ModifyMsg),
    (g.book.modify (g.feed.orders.find owner m.id) m.newPx m.newQty).2.1.ok = true →
      (g.feed.orders.side (g.feed.orders.find owner m.id)).isSome = true
  fill_le : ∀ owner req t₁ t₂ taker maker px qty,
    (g.asked OrderBook.engine owner req).2.2 = t₁ ++ .trade taker maker px qty :: t₂ →
      ∃ l, (t₁.foldl OrderIds.hear (g.feed.orders.assigned owner req)).live.find? maker = some l ∧
        qty ≤ l.openQty
  cancels : ∀ owner ids₁ id ids₂, g.feed.orders.ownedBy owner = ids₁ ++ id :: ids₂ →
    ((g.cancelAll OrderBook.engine ids₁).book.cancel id).2 = true

theorem inStep_of_sim {c : Config} {g : Gateway OrderBook} {g' : Gateway Flat}
    (h : Sim (Book.Repr c) g g') (hk : Kept c g') : g.InStep := by
  have hE := OrderBook.engine_sim c
  have hflat : g.book.flat = g'.book := OrderBook.flat_eq h.book
  have hshows := hk.shows_
  rw [← h.feed] at hshows
  refine
    { inverse := hshows.inverse
      keys := fun id => ?_
      record := fun id l hl => ?_
      side_read := fun owner m hok => ?_
      fill_le := fun owner req t₁ t₂ taker maker px qty htape => ?_
      cancels := fun owner ids₁ id ids₂ hids => ?_ }
  · rw [hflat, Ne, hshows.live_eq_none_iff, not_not]
  · obtain ⟨r, hf, ho, hq⟩ := hshows.find?_of_live hl
    obtain ⟨hr, hid⟩ := Flat.find?_eq_some hf
    rw [hflat]
    exact ⟨r, hr, hid, ho, hq⟩
  · -- an ok modify has found its order in the book
    obtain ⟨hans, -⟩ := hE.call h.book (.modify (g.feed.orders.find owner m.id) m.newPx m.newQty)
    have hmodify : (g.book.modify (g.feed.orders.find owner m.id) m.newPx m.newQty).2.1 =
        (g'.book.modify c (g.feed.orders.find owner m.id) m.newPx m.newQty).2.1 :=
      Reply.modify.inj (congrArg Prod.fst hans)
    rw [hmodify] at hok
    obtain ⟨s, r, hf⟩ := Flat.find_of_modify hok
    obtain ⟨client, hl⟩ := hshows.live_of_find? hf
    rw [OrderIds.side, hl]
    rfl
  · obtain ⟨hans, -⟩ := h.asked hE owner req
    rw [hans, asked] at htape
    have hassigned := hshows.assigned owner req
    rw [h.feed] at hassigned ⊢
    cases hop : req.op owner (g'.feed.orders.idOf owner req) with
    | none =>
        rw [hop] at htape
        exact absurd htape.symm (List.append_ne_nil_of_right_ne_nil _ (List.cons_ne_nil _ _))
    | some op =>
        rw [hop, Engine.ask, Flat.engine_call] at htape
        exact hassigned.fill_le hk.wf htape
  · have hall := h.cancelAll hE ids₁
    rw [h.feed] at hids
    have hcancel := hk.cancels hids
    obtain ⟨hans, -⟩ := hE.call hall.book (.cancel id)
    exact (Reply.cancel.inj (congrArg Prod.fst hans)).trans hcancel

/-- **After every action of every run gateway and engine agree on the orders.** -/
theorem inStep_run (p : Params) (hp : p.Valid) (inputs : List Input) : (run p inputs).InStep :=
  inStep_of_sim (run_sim hp inputs) (kept_run p.config inputs)

/-- A reprice kills an own order and trades with another, and a client leaves. -/
theorem inStep_run_small :
    (run { stp := .cancelResting, poolCapacity := 1, bandHi := 9, idMapSlots := 4 }
      [.accept 1, .accept 2, .send 1 (NewOrderMsg.encode 64 ⟨7, 5, 3, .ask, .gtc⟩),
        .send 2 (NewOrderMsg.encode 64 ⟨7, 6, 4, .ask, .gtc⟩),
        .send 1 (NewOrderMsg.encode 64 ⟨8, 2, 6, .bid, .gtc⟩), .send 1 (ModifyMsg.encode 64 ⟨8, 6, 6⟩),
        .disconnect 1]).InStep :=
  inStep_run _ ⟨by decide, by decide, by decide, by decide⟩ _

end Gateway

end Lob
