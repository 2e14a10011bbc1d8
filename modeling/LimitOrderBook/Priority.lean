import LimitOrderBook.OrderBook
import LimitOrderBook.Tape

/-! # Price-time priority

Every resting order is stamped with the index of the call by which it last joined a queue: the
`submit_limit` that rested, or the last `modify` that rested other than an amend in place
(`Stamps`).  Along every run the queues are sorted by stamp within a price (`Stamped`), and an
order that trades is the first of its side (`priority_run`). -/

namespace Lob

open KeyedQueue

/-! ### Stamps -/

structure Stamps where
  clock : ℕ := 0
  stamp : OrderId → ℕ := fun _ => 0
  price : OrderId → Int := fun _ => 0

/-- A `modify` at the price of the order, for no more than its quantity. -/
def Flat.InPlace (F : Flat) (id : OrderId) (px : Int) (qty : Qty) : Prop :=
  ∃ o ∈ F.find? id, px = o.2.price ∧ qty ≤ o.2.qty

instance (F : Flat) (id : OrderId) (px : Int) (qty : Qty) : Decidable (F.InPlace id px qty) :=
  decidable_of_iff (∃ o ∈ (F.find? id).toList, px = o.2.price ∧ qty ≤ o.2.qty)
    (by simp [Flat.InPlace])

/-- The price at which a call on the book `F` makes its order join a queue. -/
def Flat.joins (F : Flat) : Op → Reply → Option Int
  | .submitLimit _ _ px _ _ _, .submit r => if r.rested then some px else none
  | .modify id px qty, .modify r => if r.rested ∧ ¬ F.InPlace id px qty then some px else none
  | _, _ => none

namespace Stamps

/-- The order of `id` joins a queue at `px`. -/
def join (g : Stamps) (id : OrderId) (px : Int) : Stamps :=
  { g with
    stamp := fun k => if k = id then g.clock else g.stamp k
    price := fun k => if k = id then px else g.price k }

/-- One call on the book `F`. -/
def step (g : Stamps) (F : Flat) (op : Op) (reply : Reply) : Stamps :=
  let g' := match F.joins op reply with
    | some px => g.join op.id px
    | none => g
  { g' with clock := g.clock + 1 }

/-- The stamps after a call of the engine `b`. -/
def update (g : Stamps) (b : OrderBook) (op : Op) (a : Answer) : Stamps := g.step b.flat op a.1

/-- The stamps after a run. -/
def run (p : Params) (ops : List Op) : Stamps :=
  Transition.record Book.call update {} (OrderBook.new p) ops

end Stamps

/-! ### The queues are sorted by stamp -/

structure Stamped (g : Stamps) (F : Flat) : Prop where
  past : ∀ s, ∀ r ∈ F.side s, g.stamp r.id < g.clock
  price : ∀ s, ∀ r ∈ F.side s, g.price r.id = r.price
  fifo : ∀ s, (F.side s).Pairwise fun r r' => r.price = r'.price → g.stamp r.id < g.stamp r'.id

namespace Stamped

variable {g : Stamps} {F G : Flat} {c : Config} {op : Op}

/-- Orders that leave, and orders that change in quantity only, do not matter. -/
theorem of_keys (h : Stamped g F)
    (hkeys : ∀ s, ((G.side s).map Resting.key).Sublist ((F.side s).map Resting.key)) :
    Stamped g G := by
  refine ⟨fun s r hr => ?_, fun s r hr => ?_, fun s => ?_⟩
  · obtain ⟨r₀, hr₀, hid, -⟩ := mem_of_keys (hkeys s) hr
    rw [← hid]
    exact h.past s r₀ hr₀
  · obtain ⟨r₀, hr₀, hid, hpx, -⟩ := mem_of_keys (hkeys s) hr
    rw [← hid, ← hpx]
    exact h.price s r₀ hr₀
  · exact pairwise_of_keys (R := fun k k' => k.2.1 = k'.2.1 → g.stamp k.1 < g.stamp k'.1)
      (hkeys s) (h.fifo s)

theorem tick (h : Stamped g F) : Stamped { g with clock := g.clock + 1 } F :=
  ⟨fun s r hr => Nat.lt_succ_of_lt (h.past s r hr), h.price, h.fifo⟩

/-- A new order joins behind the others of its price. -/
theorem join (h : Stamped g F) (hF : F.WF c) {s : Side} {r : Resting} (hnew : r.id ∉ F.ids) :
    Stamped { g.join r.id r.price with clock := g.clock + 1 } (F.rest s r) := by
  have hne : ∀ t, ∀ r' ∈ F.side t, r'.id ≠ r.id :=
    fun t r' hr' he => hnew (he ▸ Flat.mem_ids_of_mem hr')
  refine ⟨fun t r' hr' => ?_, fun t r' hr' => ?_, fun t => ?_⟩
  · rcases Flat.mem_rest.mp hr' with ⟨-, rfl⟩ | hr'
    · simp [Stamps.join]
    · simpa [Stamps.join, hne t r' hr'] using Nat.lt_succ_of_lt (h.past t r' hr')
  · rcases Flat.mem_rest.mp hr' with ⟨-, rfl⟩ | hr'
    · simp [Stamps.join]
    · simpa [Stamps.join, hne t r' hr'] using h.price t r' hr'
  · have hold : (F.side t).Pairwise fun r₁ r₂ => r₁.price = r₂.price →
        (g.join r.id r.price).stamp r₁.id < (g.join r.id r.price).stamp r₂.id := by
      refine (h.fifo t).imp_of_mem fun h1 h2 hlt => ?_
      simpa [Stamps.join, hne t _ h1, hne t _ h2] using hlt
    rcases Side.eq_or_eq_opp s t with rfl | rfl
    · rw [Flat.rest, Flat.side_withSide_self]
      refine (hF.ordered t).pairwise_enqueue hold (fun b hb _ _ => ?_) fun b hb hlt he => ?_
      · simpa [Stamps.join, hne t b hb] using h.past t b hb
      · rw [he] at hlt
        exact absurd hlt (irrefl _)
    · rw [Flat.rest, Flat.side_opp_withSide]
      exact hold

theorem joins_of_refuses {reply : Reply} (h : reply.Refuses) : F.joins op reply = none := by
  cases op <;> cases reply <;> simp_all [Reply.Refuses, Flat.joins]

theorem inPlace_iff {id : OrderId} {s : Side} {r : Resting} (h : F.find? id = some (s, r)) {px : Int}
    {qty : Qty} : F.InPlace id px qty ↔ px = r.price ∧ qty ≤ r.qty := by
  simp [Flat.InPlace, h]

/-- An order joins a queue exactly when what is left of it rests. -/
theorem joins_of_sends {t : Taker} (h : F.Sends c op t) :
    F.joins op (t.reply c.stp op) = if t.Rests c.stp then some t.limit else none := by
  cases h with
  | limit => simp [Flat.joins, Taker.reply]
  | market => simp [Flat.joins, Taker.Rests]
  | modify hfind _ _ hmove => simp [Flat.joins, Taker.reply, inPlace_iff hfind, hmove]

theorem swept {t : Taker} (h : Stamped g t.book) (hnd : t.book.ids.Nodup) :
    Stamped g (t.swept c.stp) := by
  rw [Taker.swept_eq hnd]
  refine h.of_keys fun s => ?_
  rw [Flat.side_replay]
  exact keys_replay _ _

/-- Every call keeps the queues sorted by stamp. -/
theorem step (h : Stamped g F) (hF : F.WF c) (op : Op) :
    Stamped (g.step F op (F.call c op).2.1) (F.call c op).1 := by
  have hremove : ∀ id, Stamped g (F.remove id) := fun id => h.of_keys fun s => by
    rw [Flat.side_remove]
    exact (List.filter_sublist).map _
  have hout := F.call_outcome c op
  generalize F.call c op = x at hout ⊢
  cases hout with
  | refused hrep =>
      rw [Stamps.step, joins_of_refuses hrep]
      exact h.tick
  | cancelled hid => exact (hremove _).tick
  | @amended id s qty r hfind hqty hle =>
      have hnone : F.joins (.modify id r.price qty)
          (.modify { ok := true, filled := 0, rested := true, found := true }) = none := by
        simp [Flat.joins, inPlace_iff hfind, hle]
      rw [Stamps.step, hnone]
      refine Stamped.tick (h.of_keys fun t => ?_)
      rw [Flat.side_amend, keys_amend]
  | @matched op t hsend =>
      have hbook : Stamped g t.book := by
        cases hsend with
        | limit => exact h
        | market => exact h
        | modify => exact hremove _
      have hwf := hsend.book_wf hF
      have hswept : Stamped g (t.swept c.stp) := hbook.swept hwf.nodup
      rw [Stamps.step, joins_of_sends hsend, Taker.after, ← hsend.id_eq]
      by_cases hrest : t.Rests c.stp
      · simp only [if_pos hrest]
        exact hswept.join (Taker.swept_wf hwf) (r := t.remainder c.stp)
          (Taker.not_mem_swept hsend.not_mem)
      · simp only [if_neg hrest]
        exact hswept.tick

end Stamped

/-! ### Trades -/

/-- The side and the price bound of the order that a call sends to match. -/
def OrderBook.aim (b : OrderBook) : Op → Option (Side × Int)
  | .submitLimit _ s px _ _ _ => some (s, px)
  | .submitMarket _ s _ _ => (b.marketLimit s).map (Prod.mk s)
  | .cancel _ => none
  | .modify id px _ => (b.flat.find? id).map fun o => (o.1, px)

theorem Flat.Sends.aim {c : Config} {b : OrderBook} {F : Flat} {op : Op} {t : Taker}
    (h : F.Sends c op t) (hb : Book.Repr c b F) : b.aim op = some (t.side, t.limit) := by
  cases h with
  | limit => rfl
  | market _ _ _ hlimit => rw [OrderBook.aim, hb.marketLimit, hlimit]; rfl
  | modify hfind _ _ _ => rw [OrderBook.aim, OrderBook.flat_eq hb, hfind]; rfl

/-- The order `maker` that trades at `px`, on the book `F` at that instant: it is the first of
its side, by price and then by stamp, and crosses the order it meets. -/
structure First (g : Stamps) (F : Flat) (s : Side) (limit : Int) (maker : OrderId) (px : Int)
    (k : Qty) : Prop where
  rests : ∃ r ∈ F.side s, r.id = maker ∧ r.price = px ∧ k ≤ r.qty
  joined : g.price maker = px
  crosses : Lob.crosses s.opp px limit = true
  best : ∀ r ∈ F.side s, ¬ better s r.price px
  earliest : ∀ r ∈ F.side s, r.price = px → g.stamp maker ≤ g.stamp r.id

theorem Stamped.first {g : Stamps} {c : Config} {F : Flat} {op : Op} (h : Stamped g F)
    (hF : F.WF c) {t₁ t₂ : List Event} {taker maker : OrderId} {px : Int} {k : Qty}
    (htape : (F.call c op).2.2 = t₁ ++ .trade taker maker px k :: t₂) :
    ∃ t, F.Sends c op t ∧ taker = t.id ∧
      First g (F.replay t₁) t.side.opp t.limit maker px k := by
  have hout := F.call_outcome c op
  generalize F.call c op = x at hout htape
  cases hout with
  | refused => simp at htape
  | cancelled => simp at htape
  | amended => simp at htape
  | @matched op t hsend =>
      have hnd := Flat.side_nodup hF.nodup t.side.opp
      have htape' : (walk c.stp t.side t.id t.limit t.owner (F.side t.side.opp) t.qty).tape =
          t₁ ++ .trade taker maker px k :: t₂ := by
        rw [← hsend.side_opp hF]
        exact htape
      obtain ⟨r, q, hq, hcross, hmeets⟩ := walk_event _ _ hnd htape'
      have hside : (F.replay t₁).side t.side.opp = r :: q := by rw [Flat.side_replay, hq]
      have hrep : Stamped g (F.replay t₁) := h.of_keys fun s => by
        rw [Flat.side_replay]
        exact keys_replay _ _
      have hord : Ordered (better t.side.opp) Resting.price (r :: q) := by
        rw [← hq]
        exact pairwise_of_keys (R := fun k k' => ¬ better t.side.opp k'.2.1 k.2.1)
          (keys_replay t₁ _) (hF.ordered t.side.opp)
      cases hmeets with
      | trade hown hk _ =>
          refine ⟨t, hsend, rfl, ?_⟩
          have hr : r ∈ (F.replay t₁).side t.side.opp := by
            rw [hside]
            exact List.mem_cons_self
          refine ⟨⟨r, hr, rfl, rfl, hk⟩, hrep.price _ r hr, by rw [Side.opp_opp]; exact hcross, ?_, ?_⟩
          · intro r' hr'
            rw [hside] at hr'
            rcases List.mem_cons.mp hr' with rfl | hr'
            · exact irrefl _
            · exact hord.head_le hr'
          · intro r' hr' hpx
            have hfifo := hrep.fifo t.side.opp
            rw [hside] at hr' hfifo
            rcases List.mem_cons.mp hr' with rfl | hr'
            · exact Nat.le_refl _
            · exact Nat.le_of_lt ((List.pairwise_cons.mp hfifo).1 r' hr' hpx.symm)

/-! ### Whole runs -/

namespace Stamps

theorem empty_stamped (g : Stamps) : Stamped g {} where
  past s r hr := by cases s <;> cases hr
  price s r hr := by cases s <;> cases hr
  fifo s := by cases s <;> exact List.Pairwise.nil

theorem run_stamped {p : Params} (hp : p.Valid) (ops : List Op) :
    Stamped (run p ops) (Transition.finalState (Flat.call p.config) {} ops) := by
  refine Transition.inv_record (R := Book.Repr p.config) (fun b F op h => (h.call op).2) ?_ ops
    (OrderBook.new_repr hp) (empty_stamped {})
  intro b F g op hb h
  rw [update, OrderBook.flat_eq hb, (hb.call op).1]
  exact h.step hb.wf op

/-- The call `op` leaves the place of the order `id` alone. -/
def Keeps (id : OrderId) (F : Flat) (op : Op) : Prop :=
  op.id = id → ∃ px qty, op = .modify id px qty ∧ F.InPlace id px qty

theorem stamp_step {id : OrderId} {F : Flat} {op : Op} (h : Keeps id F op) (g : Stamps)
    (reply : Reply) : (g.step F op reply).stamp id = g.stamp id := by
  unfold step
  cases hj : F.joins op reply with
  | none => rfl
  | some px =>
      by_cases hid : op.id = id
      · obtain ⟨px', qty, rfl, hin⟩ := h hid
        cases reply <;> simp [Flat.joins, hin] at hj
      · exact if_neg fun he => hid he.symm

theorem stamp_record {id : OrderId} : ∀ (ops : List Op) (g : Stamps) (b : OrderBook),
    Transition.Along Book.call (fun b op => Keeps id (OrderBook.flat b) op) b ops →
    (Transition.record Book.call update g b ops).stamp id = g.stamp id
  | [], _, _, _ => rfl
  | op :: ops, g, b, h =>
      (stamp_record ops _ (b.call op).1 h.2).trans (stamp_step h.1 g (b.call op).2.1)

end Stamps

/-- **Price-time priority**: every trade of every run is with the first order of the maker's
side, at the price it joined at; and an order keeps its stamp while it is amended in place or
filled in part. -/
theorem priority_run (p : Params) (hp : p.Valid) (ops : List Op) :
    (∀ op t₁ t₂ taker maker px k,
      ((OrderBook.run p ops).call op).2.2 = t₁ ++ .trade taker maker px k :: t₂ →
      taker = op.id ∧ ∃ s limit, (OrderBook.run p ops).aim op = some (s, limit) ∧
        First (Stamps.run p ops) ((OrderBook.run p ops).flat.replay t₁) s.opp limit maker px k) ∧
    (∀ id ops', Transition.Along Book.call (fun b op => Stamps.Keeps id (OrderBook.flat b) op)
      (OrderBook.run p ops) ops' →
      (Stamps.run p (ops ++ ops')).stamp id = (Stamps.run p ops).stamp id) := by
  have hrepr := (OrderBook.run_repr hp ops).2
  have hstamped := Stamps.run_stamped hp ops
  refine ⟨?_, ?_⟩
  · intro op t₁ t₂ taker maker px k htape
    rw [(hrepr.call op).1] at htape
    obtain ⟨t, hsend, rfl, hfirst⟩ := hstamped.first hrepr.wf htape
    refine ⟨hsend.id_eq, t.side, t.limit, hsend.aim hrepr, ?_⟩
    rw [OrderBook.flat_eq hrepr]
    exact hfirst
  · intro id ops' hkeeps
    rw [Stamps.run, Transition.record_append]
    exact Stamps.stamp_record ops' _ _ hkeeps

/-- An order loses its place to a later one by growing, and not by shrinking. -/
theorem priority_run_small :
    First (Stamps.run { bandHi := 9, idMapSlots := 4 }
        [.submitLimit 1 .ask 5 4 .gtc 0, .submitLimit 2 .ask 5 4 .gtc 0,
          .submitLimit 3 .ask 5 4 .gtc 0, .modify 1 5 6, .modify 2 5 1])
      { asks := [⟨3, 5, 4, 0⟩, ⟨1, 5, 6, 0⟩] } .ask kMaxPrice 3 5 2 := by
  have h := ((priority_run { bandHi := 9, idMapSlots := 4 }
    ⟨by decide, by decide, by decide, by decide⟩
    [.submitLimit 1 .ask 5 4 .gtc 0, .submitLimit 2 .ask 5 4 .gtc 0,
      .submitLimit 3 .ask 5 4 .gtc 0, .modify 1 5 6, .modify 2 5 1]).1
    (.submitMarket 9 .bid 3 0) [.trade 9 2 5 1] [] 9 3 5 2 (by decide +kernel)).2
  obtain ⟨s, limit, haim, hfirst⟩ := h
  have haim' : some (Side.bid, kMaxPrice) = some (s, limit) := by
    rw [← haim]
    decide +kernel
  cases haim'
  have hbook : (OrderBook.run { bandHi := 9, idMapSlots := 4 }
      [.submitLimit 1 .ask 5 4 .gtc 0, .submitLimit 2 .ask 5 4 .gtc 0,
        .submitLimit 3 .ask 5 4 .gtc 0, .modify 1 5 6, .modify 2 5 1]).flat.replay
      [.trade 9 2 5 1] = { asks := [⟨3, 5, 4, 0⟩, ⟨1, 5, 6, 0⟩] } := by decide +kernel
  rwa [hbook] at hfirst

end Lob
