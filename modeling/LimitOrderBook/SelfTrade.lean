import LimitOrderBook.Bookkeeper
import LimitOrderBook.Priority

/-! # Self-trade prevention

Every id is attributed to the owner of its last accepted submission (`Owners`); a resting order
belongs to the owner its id is attributed to, through every reprice (`Attributed`).

Under `CancelResting` and `RejectIncoming` no trade of any run has one owner on both sides, kills
are confined to `CancelResting` and to own orders within reach, and under `RejectIncoming` orders
leave the book by fills, cancels and modifies only (`selfTrade_run`). -/

namespace Lob

open KeyedQueue

/-! ### Owners -/

/-- The owner of an order that the engine `b` accepts. -/
def OrderBook.accepts (b : OrderBook) : Op → Reply → Option Owner
  | .submitLimit _ _ _ _ _ owner, .submit r => if r.rejected then none else some owner
  | .submitMarket id s qty owner, .market _ =>
      if id = 0 ∨ qty = 0 ∨ (b.orders.find id).isSome ∨ (b.marketLimit s).isNone then none
      else some owner
  | _, _ => none

/-- The owner each id is attributed to. -/
abbrev Owners := OrderId → Owner

namespace Owners

def update (w : Owners) (b : OrderBook) (op : Op) (a : Answer) : Owners :=
  match b.accepts op a.1 with
  | some owner => fun k => if k = op.id then owner else w k
  | none => w

/-- The owners after a run. -/
def run (p : Params) (ops : List Op) : Owners :=
  Transition.record Book.call update (fun _ => 0) (OrderBook.new p) ops

end Owners

/-- Resting orders belong to the owners of their ids. -/
def Attributed (w : Owners) (F : Flat) : Prop := ∀ s, ∀ r ∈ F.side s, w r.id = r.owner

section attributed

variable {w : Owners} {c : Config} {b : OrderBook} {F G : Flat} {op : Op} {t : Taker}

theorem Attributed.of_keys (h : Attributed w F)
    (hkeys : ∀ s, ((G.side s).map Resting.key).Sublist ((F.side s).map Resting.key)) :
    Attributed w G := by
  intro s r hr
  obtain ⟨r₀, hr₀, hid, -, howner⟩ := mem_of_keys (hkeys s) hr
  rw [← hid, ← howner]
  exact h s r₀ hr₀

theorem Attributed.update (h : Attributed w G) {a : Answer}
    (hnew : ∀ owner, b.accepts op a.1 = some owner → op.id ∉ G.ids) :
    Attributed (w.update b op a) G := by
  intro s r hr
  unfold Owners.update
  cases hacc : b.accepts op a.1 with
  | none => exact h s r hr
  | some owner =>
      refine (if_neg fun he : r.id = op.id => ?_).trans (h s r hr)
      exact hnew owner hacc (he ▸ Flat.mem_ids_of_mem hr)

theorem accepts_of_refuses (hb : Book.Repr c b F) {reply : Reply} (h : reply.Refuses)
    {owner : Owner} (hacc : b.accepts op reply = some owner) : op.id ∉ F.ids := by
  cases op with
  | submitLimit id s px qty tif o =>
      cases reply with
      | submit r => simp [OrderBook.accepts, show r = _ from h] at hacc
      | market n => cases hacc
      | cancel ok => cases hacc
      | modify r => cases hacc
  | submitMarket id s qty o =>
      cases reply with
      | submit r => cases hacc
      | market n =>
          intro hid
          have hsome : (b.orders.find id).isSome = true := (hb.find_isSome id).mpr hid
          simp [OrderBook.accepts, hsome] at hacc
      | cancel ok => cases hacc
      | modify r => cases hacc
  | cancel id => cases reply <;> cases hacc
  | modify id px qty => cases reply <;> cases hacc

/-- The order that a call sends to match is accepted, unless it is stopped before it trades; a
repriced order is known already. -/
theorem accepts_of_sends (hb : Book.Repr c b F) (h : F.Sends c op t) :
    b.accepts op (t.reply c.stp op) = none ∧
        ((t.walk c.stp).stopped = true ∧ t.filled c.stp = 0 ∨
          ∃ r ∈ F.side t.side, r.id = t.id ∧ r.owner = t.owner) ∨
      b.accepts op (t.reply c.stp op) = some t.owner ∧ op.id ∉ F.ids := by
  cases h with
  | @limit id s px qty tif owner hid hqty hpx hnew =>
      by_cases hstop : (Taker.walk ⟨F, s, id, px, qty, owner, decide (tif = .gtc)⟩ c.stp).stopped =
          true ∧ Taker.filled ⟨F, s, id, px, qty, owner, decide (tif = .gtc)⟩ c.stp = 0
      · exact Or.inl ⟨by simp [OrderBook.accepts, Taker.reply, hstop], Or.inl hstop⟩
      · exact Or.inr ⟨by simp only [OrderBook.accepts, Taker.reply, decide_eq_true_eq, if_neg hstop],
          hnew⟩
  | @market id s limit qty owner hid hqty hnew hlimit =>
      have hfind : ¬ (b.orders.find id).isSome = true := fun hf => hnew ((hb.find_isSome id).mp hf)
      have hlim : b.marketLimit s = some limit := (hb.marketLimit s).trans hlimit
      refine Or.inr ⟨?_, hnew⟩
      simp [OrderBook.accepts, Taker.reply, hid, hqty, hfind, hlim]
  | @modify id s px qty r hfind hqty hpx hmove =>
      obtain ⟨hr, rfl⟩ := Flat.find?_eq_some hfind
      exact Or.inl ⟨rfl, Or.inr ⟨r, hr, rfl, rfl⟩⟩

/-- A limit order that is stopped before it trades leaves no event. -/
theorem tape_of_stopped (hF : F.WF c) (h : F.Sends c op t) (hstop : (t.walk c.stp).stopped = true)
    (hfilled : t.filled c.stp = 0) : (t.walk c.stp).tape = [] := by
  have hwf := h.book_wf hF
  obtain ⟨hstp, -⟩ := walk_stopped _ _ hstop
  cases htape : (t.walk c.stp).tape with
  | nil => rfl
  | cons e tape =>
      exfalso
      obtain ⟨r, q, hq, -, hmeets⟩ :=
        walk_event _ _ (Flat.side_nodup hwf.nodup t.side.opp) (htape.trans (List.nil_append _).symm)
      have hr : r ∈ t.book.side t.side.opp := by
        rw [show t.book.side t.side.opp = r :: q from hq]
        exact List.mem_cons_self
      cases hmeets with
      | kill _ hkill =>
          rw [hstp] at hkill
          cases hkill
      | @trade k _ _ hpos =>
          have hk := hpos (hwf.qty_ne _ r hr)
          have htraded : traded (t.walk c.stp).tape + (t.walk c.stp).remaining.toNat = t.qty.toNat :=
            walk_traded _ _
          have hsum := t.filled_add c.stp
          rw [htape, traded_cons, Event.traded] at htraded
          rw [hfilled] at hsum
          have hk0 : k.toNat ≠ 0 := fun h0 => hk (UInt32.toNat_inj.mp h0)
          have hz : (0 : UInt32).toNat = 0 := rfl
          omega

variable {a : Answer}

/-- The book that a taker meets belongs to the owners after the call. -/
theorem Attributed.book (h : Attributed w F) (hsend : F.Sends c op t) :
    Attributed (w.update b op a) t.book := by
  have hbook : Attributed w t.book := by
    cases hsend with
    | limit => exact h
    | market => exact h
    | modify =>
        refine h.of_keys fun s => ?_
        rw [Flat.side_remove]
        exact (List.filter_sublist).map _
  refine hbook.update fun _ _ => ?_
  rw [← hsend.id_eq]
  exact hsend.not_mem

/-- A taker that leaves an event belongs to its owner after the call. -/
theorem Attributed.taker (hb : Book.Repr c b F) (h : Attributed w F) (hsend : F.Sends c op t)
    (ha : a.1 = t.reply c.stp op)
    (hgo : ¬ ((t.walk c.stp).stopped = true ∧ t.filled c.stp = 0)) :
    w.update b op a t.id = t.owner := by
  rw [Owners.update, ha]
  rcases accepts_of_sends hb hsend with ⟨hacc, hstop | ⟨r, hr, hid, howner⟩⟩ | ⟨hacc, -⟩
  · exact absurd hstop hgo
  · rw [hacc, ← hid, ← howner]
    exact h _ r hr
  · rw [hacc]
    exact if_pos hsend.id_eq

theorem Attributed.step (hb : Book.Repr c b F) (h : Attributed w F) (op : Op) :
    Attributed (w.update b op (F.call c op).2) (F.call c op).1 := by
  have hout := F.call_outcome c op
  generalize F.call c op = x at hout ⊢
  cases hout with
  | refused hrep => exact h.update fun owner hacc => accepts_of_refuses hb hrep hacc
  | cancelled hid =>
      refine Attributed.of_keys (h : Attributed _ F) fun s => ?_
      rw [Flat.side_remove]
      exact (List.filter_sublist).map _
  | amended =>
      refine Attributed.of_keys (h : Attributed _ F) fun s => ?_
      rw [Flat.side_amend, keys_amend]
  | @matched op t hsend =>
      have hwf := hsend.book_wf hb.wf
      have hbook := h.book hsend (b := b) (a := (t.reply c.stp op, (t.walk c.stp).tape))
      have hswept : Attributed (w.update b op (t.reply c.stp op, (t.walk c.stp).tape))
          (t.swept c.stp) := by
        rw [Taker.swept_eq hwf.nodup]
        refine hbook.of_keys fun s => ?_
        rw [Flat.side_replay]
        exact keys_replay _ _
      by_cases hrest : t.Rests c.stp
      · simp only [Taker.after, if_pos hrest]
        intro s r hr
        rcases Flat.mem_rest.mp hr with ⟨-, rfl⟩ | hr
        · refine h.taker hb hsend (a := (t.reply c.stp op, (t.walk c.stp).tape)) rfl fun hstop => ?_
          rw [hrest.1] at hstop
          cases hstop.1
        · exact hswept s r hr
      · simp only [Taker.after, if_neg hrest]
        exact hswept

end attributed

/-! ### Events -/

section events

variable {c : Config} {F : Flat} {op : Op} {t : Taker} {e : Event} {t₁ t₂ : List Event}

/-- What every event of a call is about: a crossing order of the other side, which trades unless
it is an own one, and is killed if it is and the policy says so. -/
theorem Flat.Sends.event (h : F.Sends c op t) (hF : F.WF c) (he : e ∈ (t.walk c.stp).tape) :
    ∃ r ∈ F.side t.side.opp, crosses t.side r.price t.limit = true ∧
      ((∃ k, e = .trade t.id r.id r.price k) ∧ ¬ r.Own c.stp t.owner ∨
        e = .cancel r.id r.owner ∧ r.Own c.stp t.owner ∧ c.stp = .cancelResting) := by
  obtain ⟨t₁, t₂, htape⟩ := List.append_of_mem he
  have hnd := Flat.side_nodup (h.book_wf hF).nodup t.side.opp
  obtain ⟨r', q, hq, hcross, hmeets⟩ := walk_event _ _ hnd htape
  have hr' : r' ∈ Lob.replay t₁ (t.book.side t.side.opp) := by
    rw [hq]
    exact List.mem_cons_self
  obtain ⟨r, hr, hid, hpx, howner⟩ := mem_of_keys (keys_replay t₁ _) hr'
  rw [h.side_opp hF] at hr
  have hown : r.Own c.stp t.owner ↔ r'.Own c.stp t.owner := by rw [Resting.Own, Resting.Own, howner]
  refine ⟨r, hr, by rw [hpx]; exact hcross, ?_⟩
  rw [hown, hid, hpx, howner]
  cases hmeets with
  | @trade k hno _ _ => exact Or.inl ⟨⟨k, rfl⟩, hno⟩
  | kill hyes hstp => exact Or.inr ⟨rfl, hyes, hstp⟩

/-- A killed order is gone. -/
theorem not_mem_replay_cancel {id : OrderId} {owner : Owner} (q : List Resting) :
    ∀ r ∈ replay (t₁ ++ .cancel id owner :: t₂) q, r.id ≠ id := by
  intro r hr
  rw [replay_append, replay_cons] at hr
  obtain ⟨r', hr', hid, -⟩ := mem_of_keys (keys_replay t₂ _) hr
  obtain ⟨r₀, -, hedit⟩ := List.mem_filterMap.mp hr'
  rw [← hid]
  intro he
  have hid₀ : r₀.id = id := (congrArg Prod.fst (Event.key_of_edit hedit)).symm.trans he
  rw [Event.edit, if_pos hid₀] at hedit
  cases hedit

theorem maker_ne_of_cancel {id : OrderId} {owner : Owner} (h : F.Sends c op t) (hF : F.WF c)
    (htape : (t.walk c.stp).tape = t₁ ++ .cancel id owner :: t₂) : ∀ e ∈ t₂, e.maker ≠ id := by
  intro e he hid
  obtain ⟨u, v, rfl⟩ := List.append_of_mem he
  have hnd := Flat.side_nodup (h.book_wf hF).nodup t.side.opp
  have htape' : (t.walk c.stp).tape = (t₁ ++ .cancel id owner :: u) ++ e :: v := by
    rw [htape]
    simp
  obtain ⟨r, q, hq, -, hmeets⟩ := walk_event _ _ hnd htape'
  have hr : r ∈ replay (t₁ ++ .cancel id owner :: u) (t.book.side t.side.opp) := by
    rw [hq]
    exact List.mem_cons_self
  exact not_mem_replay_cancel _ r hr (hmeets.maker.symm.trans hid)

theorem not_mem_after_cancel {id : OrderId} {owner : Owner} (h : F.Sends c op t) (hF : F.WF c)
    (htape : (t.walk c.stp).tape = t₁ ++ .cancel id owner :: t₂) : id ∉ (t.after c.stp).ids := by
  have hwf := h.book_wf hF
  have hswept : id ∉ (t.swept c.stp).ids := by
    rw [Taker.swept_eq hwf.nodup, htape, Flat.mem_ids]
    rintro ⟨s, r, hr, hid⟩
    rw [Flat.side_replay] at hr
    exact not_mem_replay_cancel _ r hr hid
  have hne : t.id ≠ id := by
    obtain ⟨r, hr, hid⟩ := Taker.maker_mem (e := .cancel id owner) hwf.nodup
      (by rw [htape]; exact List.mem_append_right _ List.mem_cons_self)
    have hid' : r.id = id := hid
    intro he
    exact h.not_mem (he ▸ hid' ▸ Flat.mem_ids_of_mem hr)
  unfold Taker.after
  split_ifs with hrest
  · intro hm
    rcases Flat.mem_ids_rest.mp hm with he | hm
    · exact hne he.symm
    · exact hswept hm
  · exact hswept

/-- An order that rests has nothing left to trade with. -/
theorem Taker.Rests.not_crosses (h : t.Rests c.stp) (hF : t.book.WF c) :
    ∀ r ∈ (t.after c.stp).side t.side.opp, crosses t.side r.price t.limit = false := by
  rw [Taker.after, if_pos h, Flat.rest, Flat.side_opp_withSide]
  refine (Taker.swept_wf hF).not_crosses ?_
  rw [Taker.swept, Flat.side_withSide_self]
  exact walk_end _ _ h.1 h.2.1

end events

/-! ### Whole runs -/

/-- What self-trade prevention promises of a call `op` on the engine `b` with the outcome `x`,
ids being attributed by `w`. -/
structure Prevented (p : Params) (b : OrderBook) (w : Owners) (op : Op) (x : OrderBook × Answer) :
    Prop where
  /-- no owner trades with itself -/
  trade : p.stp ≠ .none → ∀ taker maker px k, .trade taker maker px k ∈ x.2.2 →
    w taker = w maker → w taker = 0
  /-- an order is killed by its own owner, from within reach, and is not heard of again -/
  kill : ∀ t₁ t₂ id owner, x.2.2 = t₁ ++ .cancel id owner :: t₂ →
    p.stp = .cancelResting ∧ owner ≠ 0 ∧ w op.id = owner ∧ w id = owner ∧
    (∃ s limit, b.aim op = some (s, limit) ∧
      ∃ r ∈ b.flat.side s.opp, r.id = id ∧ r.owner = owner ∧ crosses s r.price limit = true) ∧
    (∀ e ∈ t₂, e.maker ≠ id) ∧ id ∉ x.1.flat.ids
  /-- orders leave by a fill, a cancel or a modify -/
  leave : p.stp = .rejectIncoming → ∀ id ∈ b.flat.ids, id ∉ x.1.flat.ids →
    (∃ taker px k, .trade taker id px k ∈ x.2.2) ∨ op = .cancel id ∨
      ∃ px qty, op = .modify id px qty
  /-- an order that is stopped has an owner, and does not rest -/
  stop : ∀ t, b.flat.Sends p.config op t → (t.walk p.stp).stopped = true →
    p.stp = .rejectIncoming ∧ t.owner ≠ 0 ∧ x.2.1.rested = false ∧ op.id ∉ x.1.flat.ids
  /-- an order that rests leaves nothing within its reach -/
  clear : x.2.1.rested = true → ∀ s limit, b.aim op = some (s, limit) →
    ∀ r ∈ x.1.flat.side s.opp, crosses s r.price limit = false

section prevented

variable {p : Params} {b : OrderBook} {w : Owners} {F : Flat} {op : Op}

variable {c : Config}

/-- A call with an event has sent an order to match. -/
theorem Flat.sends_of_mem_tape {e : Event} (he : e ∈ (F.call c op).2.2) : ∃ t, F.Sends c op t ∧
    F.call c op = (t.after c.stp, t.reply c.stp op, (t.walk c.stp).tape) := by
  have hout := F.call_outcome c op
  generalize F.call c op = x at hout he
  cases hout with
  | refused => cases he
  | cancelled => cases he
  | amended => cases he
  | @matched op t hsend => exact ⟨t, hsend, rfl⟩

/-- Both parties to an event, by the owners after the call. -/
theorem Attributed.parties (hb : Book.Repr c b F) (h : Attributed w F) {t : Taker}
    (hsend : F.Sends c op t) {e : Event} (he : e ∈ (t.walk c.stp).tape) {r : Resting}
    (hr : r ∈ F.side t.side.opp) :
    w.update b op (t.reply c.stp op, (t.walk c.stp).tape) t.id = t.owner ∧
      w.update b op (t.reply c.stp op, (t.walk c.stp).tape) r.id = r.owner := by
  refine ⟨h.taker hb hsend rfl fun hstop => ?_, ?_⟩
  · rw [tape_of_stopped hb.wf hsend hstop.1 hstop.2] at he
    cases he
  · refine h.book hsend t.side.opp r ?_
    rw [hsend.side_opp hb.wf]
    exact hr

theorem Flat.WF.not_crosses_side (hF : F.WF c) {s : Side} {r r' : Resting} (hr : r ∈ F.side s)
    (hr' : r' ∈ F.side s.opp) : crosses s r'.price r.price = false := by
  cases s with
  | bid =>
      have := hF.uncrossed r hr r' hr'
      exact decide_eq_false (by omega)
  | ask =>
      have := hF.uncrossed r' hr' r hr
      exact decide_eq_false (by omega)

/-- An order that rests leaves nothing within its reach. -/
theorem Flat.WF.clear (hb : Book.Repr c b F) (hrest : (F.call c op).2.1.rested = true) {s : Side}
    {limit : Int} (haim : b.aim op = some (s, limit)) :
    ∀ r ∈ (F.call c op).1.side s.opp, crosses s r.price limit = false := by
  have hout := F.call_outcome c op
  generalize F.call c op = x at hout hrest ⊢
  cases hout with
  | refused hrep =>
      rw [hrep.rested] at hrest
      cases hrest
  | cancelled => cases hrest
  | @amended id s' qty o hfind _ _ =>
      obtain ⟨ho, rfl⟩ := Flat.find?_eq_some hfind
      rw [OrderBook.aim, OrderBook.flat_eq hb, hfind] at haim
      cases haim
      intro r hr
      rw [Flat.side_amend] at hr
      obtain ⟨r₀, hr₀, -, hpx, -⟩ := mem_of_keys (q := F.side s'.opp) (by rw [keys_amend]) hr
      rw [← hpx]
      exact hb.wf.not_crosses_side ho hr₀
  | matched hsend =>
      rw [hsend.aim hb] at haim
      cases haim
      exact (hsend.rested.mp hrest).not_crosses (hsend.book_wf hb.wf)

/-- No trade is between two orders of one owner. -/
theorem Attributed.trade (hb : Book.Repr c b F) (h : Attributed w F) (hstp : c.stp ≠ .none)
    {taker maker : OrderId} {px : Int} {k : Qty}
    (he : .trade taker maker px k ∈ (F.call c op).2.2)
    (hsame : w.update b op (F.call c op).2 taker = w.update b op (F.call c op).2 maker) :
    w.update b op (F.call c op).2 taker = 0 := by
  obtain ⟨t, hsend, heq⟩ := Flat.sends_of_mem_tape he
  rw [heq] at he hsame ⊢
  obtain ⟨r, hr, -, ⟨⟨k', he'⟩, hown⟩ | ⟨he', -⟩⟩ := hsend.event hb.wf he
  · cases he'
    obtain ⟨htaker, hmaker⟩ := h.parties hb hsend he hr
    by_contra hne
    rw [htaker] at hne
    exact hown ⟨hstp, hne, by rw [← hmaker, ← hsame, htaker]⟩
  · cases he'

/-- An order is killed by its owner, from within reach, and then it is gone. -/
theorem Attributed.kill (hb : Book.Repr c b F) (h : Attributed w F) {t₁ t₂ : List Event}
    {id : OrderId} {owner : Owner} (htape : (F.call c op).2.2 = t₁ ++ .cancel id owner :: t₂) :
    c.stp = .cancelResting ∧ owner ≠ 0 ∧ w.update b op (F.call c op).2 op.id = owner ∧
      w.update b op (F.call c op).2 id = owner ∧
      (∃ s limit, b.aim op = some (s, limit) ∧
        ∃ r ∈ F.side s.opp, r.id = id ∧ r.owner = owner ∧ crosses s r.price limit = true) ∧
      (∀ e ∈ t₂, e.maker ≠ id) ∧ id ∉ (F.call c op).1.ids := by
  have he : Event.cancel id owner ∈ (F.call c op).2.2 := by
    rw [htape]
    exact List.mem_append_right _ List.mem_cons_self
  obtain ⟨t, hsend, heq⟩ := Flat.sends_of_mem_tape he
  rw [heq] at he htape ⊢
  obtain ⟨r, hr, hcross, ⟨⟨k', he'⟩, -⟩ | ⟨he', hown, hstp⟩⟩ := hsend.event hb.wf he
  · cases he'
  · cases he'
    obtain ⟨htaker, hmaker⟩ := h.parties hb hsend he hr
    refine ⟨hstp, hown.2.2 ▸ hown.2.1, ?_, hmaker, ?_, maker_ne_of_cancel hsend hb.wf htape,
      not_mem_after_cancel hsend hb.wf htape⟩
    · rw [← hsend.id_eq, htaker, hown.2.2]
    · exact ⟨t.side, t.limit, hsend.aim hb, r, hr, rfl, rfl, hcross⟩

/-- Under `rejectIncoming` no order is killed. -/
theorem Flat.WF.left_by (hF : F.WF c) (hstp : c.stp = .rejectIncoming) {id : OrderId}
    (hid : id ∈ F.ids) (hleft : id ∉ (F.call c op).1.ids) :
    (∃ taker px k, .trade taker id px k ∈ (F.call c op).2.2) ∨ op = .cancel id ∨
      ∃ px qty, op = .modify id px qty := by
  rcases (hF.accounted op).reported id hid hleft with ⟨e, he, hmaker⟩ | ⟨hcancel, -⟩ | hmodify
  · obtain ⟨t, hsend, heq⟩ := Flat.sends_of_mem_tape he
    rw [heq] at he ⊢
    obtain ⟨r, -, -, ⟨⟨k, rfl⟩, -⟩ | ⟨-, -, hkill⟩⟩ := hsend.event hF he
    · exact Or.inl ⟨t.id, r.price, k, hmaker ▸ he⟩
    · rw [hstp] at hkill
      cases hkill
  · exact Or.inr (Or.inl hcancel)
  · obtain ⟨px, qty, -, hop, -⟩ := hmodify
    exact Or.inr (Or.inr ⟨px, qty, hop⟩)

/-- An order that is stopped has an owner, and does not rest. -/
theorem Flat.Sends.stop {t : Taker} (hsend : F.Sends c op t)
    (hstop : (t.walk c.stp).stopped = true) :
    c.stp = .rejectIncoming ∧ t.owner ≠ 0 ∧ (F.call c op).2.1.rested = false ∧
      op.id ∉ (F.call c op).1.ids := by
  obtain ⟨hstp, r, -, hown, -⟩ := walk_stopped _ _ hstop
  have hrest : ¬ t.Rests c.stp := fun hr => by
    rw [hr.1] at hstop
    cases hstop
  refine ⟨hstp, hown.2.1, ?_, ?_⟩
  · rcases hsend.call_eq with heq | ⟨heq, -⟩
    · rw [heq, ← Bool.not_eq_true, hsend.rested]
      exact hrest
    · rw [heq]
      rfl
  · rw [← hsend.id_eq]
    rcases hsend.call_eq with heq | ⟨heq, hbook⟩
    · rw [heq]
      show t.id ∉ (t.after c.stp).ids
      rw [Taker.after, if_neg hrest]
      exact Taker.not_mem_swept hsend.not_mem
    · rw [heq]
      exact hbook ▸ hsend.not_mem

theorem prevented_call (hb : Book.Repr p.config b F) (h : Attributed w F) (op : Op) :
    Prevented p b (w.update b op (b.call op).2) op (b.call op) := by
  obtain ⟨hans, hrepr⟩ := hb.call op
  have hflat := OrderBook.flat_eq hb
  have hflat' := OrderBook.flat_eq hrepr
  constructor
  · intro hstp taker maker px k he
    rw [hans] at he ⊢
    exact h.trade hb hstp he
  · intro t₁ t₂ id owner htape
    rw [hans] at htape
    rw [hans, hflat, hflat']
    exact h.kill hb htape
  · intro hstp id hid hleft
    rw [hflat] at hid
    rw [hflat'] at hleft
    rw [hans]
    exact hb.wf.left_by hstp hid hleft
  · intro t hsend hstop
    rw [hflat] at hsend
    rw [hans, hflat']
    exact hsend.stop hstop
  · intro hrest s limit haim
    rw [hans] at hrest
    rw [hflat']
    exact Flat.WF.clear hb hrest haim

theorem Owners.run_attributed (hp : p.Valid) (ops : List Op) :
    Attributed (Owners.run p ops) (Transition.finalState (Flat.call p.config) {} ops) := by
  refine Transition.inv_record (R := Book.Repr p.config) (fun b F op h => (h.call op).2) ?_ ops
    (OrderBook.new_repr hp) ?_
  · intro b F w op hb h
    rw [(hb.call op).1]
    exact h.step hb op
  · intro s r hr
    cases s <;> cases hr

/-- **Self-trade prevention is never violated**: in every run and at every call, with the ids
attributed to the owners of their last accepted submissions. -/
theorem selfTrade_run (p : Params) (hp : p.Valid) (ops : List Op) (op : Op) :
    Prevented p (OrderBook.run p ops) (Owners.run p (ops ++ [op])) op
      ((OrderBook.run p ops).call op) := by
  have hrepr := (OrderBook.run_repr hp ops).2
  have hattr := Owners.run_attributed hp ops
  rw [Owners.run, Transition.record_append]
  exact prevented_call hrepr hattr op

/-- A repriced order keeps its owner, who then kills the order it is about to meet. -/
theorem selfTrade_run_kill :
    Owners.run { stp := .cancelResting, bandHi := 9, idMapSlots := 4 }
        [.submitLimit 1 .ask 6 2 .gtc 7, .submitLimit 2 .bid 4 3 .gtc 7, .modify 2 6 1] 1 = 7 ∧
      1 ∉ (OrderBook.run { stp := .cancelResting, bandHi := 9, idMapSlots := 4 }
        [.submitLimit 1 .ask 6 2 .gtc 7, .submitLimit 2 .bid 4 3 .gtc 7, .modify 2 6 1]).flat.ids := by
  have h := (selfTrade_run { stp := .cancelResting, bandHi := 9, idMapSlots := 4 }
    ⟨by decide, by decide, by decide, by decide⟩
    [.submitLimit 1 .ask 6 2 .gtc 7, .submitLimit 2 .bid 4 3 .gtc 7] (.modify 2 6 1)).kill [] [] 1 7
    (by decide +kernel)
  exact ⟨h.2.2.2.1, h.2.2.2.2.2.2⟩

end prevented

end Lob
