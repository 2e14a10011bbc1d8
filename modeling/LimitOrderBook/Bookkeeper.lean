import LimitOrderBook.OrderBook
import LimitOrderBook.Tape

/-! # The outputs determine the book

A bookkeeper sees the arguments of every call, its return value and its tape, and nothing else
of the engine.  It keeps the orders of each side in the order in which they took their place
in a queue (`Ledger`), and edits them as the outputs say (`Ledger.step`).

After every call of every run it holds the queues of the engine, order by order, and the
quantities of the call add up (`ledger_run`). -/

namespace Lob

open KeyedQueue

/-- What the bookkeeper holds: per side, the resting orders by time of arrival. -/
abbrev Ledger := Flat

namespace Ledger

/-- An order takes a place behind all others of its side. -/
def push (K : Ledger) (s : Side) (r : Resting) : Ledger := K.withSide s (K.side s ++ [r])

/-- An ok modify that rests with `left` open, of an order kept as `(s, o)`. -/
def rejoin (K : Ledger) (id : OrderId) (px : Int) (qty left : Qty) :
    Option (Side × Resting) → Ledger
  | none => K
  | some (s, o) =>
      if px = o.price ∧ qty ≤ o.qty then K.amend id left
      else push (K.remove id) s ⟨id, px, left, o.owner⟩

/-- What the return value tells, once the tape has been replayed. -/
def close (K : Ledger) : Op → Reply → Ledger
  | .submitLimit id s px qty _ owner, .submit r =>
      if r.rested then K.push s ⟨id, px, qty - r.filled, owner⟩ else K
  | .cancel id, .cancel ok => if ok then K.remove id else K
  | .modify id px qty, .modify r =>
      if r.ok then
        if r.rested then K.rejoin id px qty (qty - r.filled) (K.find? id) else K.remove id
      else K
  | _, _ => K

/-- One call: its tape, then its return value. -/
def step (K : Ledger) (op : Op) (a : Answer) : Ledger := close (K.replay a.2) op a.1

/-- The ledger after the calls `ops` with the answers `as`. -/
def run (ops : List Op) (as : List Answer) : Ledger :=
  (ops.zip as).foldl (fun K x => step K x.1 x.2) {}

theorem close_of_refuses {K : Ledger} {op : Op} {reply : Reply} (h : reply.Refuses) :
    close K op reply = K := by
  cases op <;> cases reply <;> simp_all [Reply.Refuses, close]

/-! ### Edits -/

/-- The ledger `K` has the queues of the book `F`. -/
def Tracks (K : Ledger) (F : Flat) : Prop :=
  ∀ s px, level Resting.price px (K.side s) = level Resting.price px (F.side s)

namespace Tracks

variable {K F : Flat} {s : Side} {r : Resting} {id : OrderId}

theorem mem_iff (h : Tracks K F) : r ∈ K.side s ↔ r ∈ F.side s := by
  have hmem : ∀ G : Flat, r ∈ G.side s ↔ r ∈ level Resting.price r.price (G.side s) :=
    fun G => by simp [mem_level]
  rw [hmem K, hmem F, h]

theorem replay (h : Tracks K F) (tape : List Event) : Tracks (K.replay tape) (F.replay tape) := by
  have hlevel : ∀ (q : List Resting) (px : Int),
      level Resting.price px (Lob.replay tape q) = Lob.replay tape (level Resting.price px q) := by
    intro q px
    induction tape generalizing q with
    | nil => rfl
    | cons e tape ih =>
        rw [replay_cons, replay_cons, ih, level_filterMap]
        intro r r' he
        exact congrArg (fun k => k.2.1) (Event.key_of_edit he)
  intro s px
  rw [Flat.side_replay, Flat.side_replay, hlevel, hlevel, h]

theorem remove (h : Tracks K F) (id : OrderId) : Tracks (K.remove id) (F.remove id) := by
  intro s px
  rw [Flat.side_remove, Flat.side_remove, level_filter, level_filter, h]

theorem amend (h : Tracks K F) (id : OrderId) (n : Qty) : Tracks (K.amend id n) (F.amend id n) := by
  have hprice : ∀ r : Resting,
      (if r.id = id then { r with qty := n } else r).price = r.price := by
    intro r
    split_ifs <;> rfl
  intro s px
  rw [Flat.side_amend, Flat.side_amend, level_map hprice, level_map hprice, h]

theorem push (h : Tracks K F) (hord : Ordered (better s) Resting.price (F.side s)) (r : Resting) :
    Tracks (Ledger.push K s r) (F.rest s r) := by
  intro t px
  rcases Side.eq_or_eq_opp s t with rfl | rfl
  · rw [Ledger.push, Flat.side_withSide_self, Flat.rest, Flat.side_withSide_self,
      hord.level_enqueue, level_append, h, level_cons, level_nil]
    split_ifs
    · rfl
    · exact List.append_nil _
  · rw [Ledger.push, Flat.side_opp_withSide, Flat.rest, Flat.side_opp_withSide, h]

theorem find? (h : Tracks K F) (hnd : F.ids.Nodup) (hr : r ∈ F.side s) :
    K.find? r.id = some (s, r) := by
  cases hf : K.find? r.id with
  | none =>
      exact absurd (Flat.mem_ids_of_mem (h.mem_iff.mpr hr)) (Flat.find?_eq_none.mp hf)
  | some e =>
      obtain ⟨t, r'⟩ := e
      obtain ⟨hr', hid⟩ := Flat.find?_eq_some hf
      obtain ⟨rfl, rfl⟩ := Flat.eq_of_id hnd (h.mem_iff.mp hr') hr hid
      rfl

/-- The bookkeeper hears of everything a call does. -/
theorem step {c : Config} (h : Tracks K F) (hF : F.WF c) (op : Op) :
    Tracks (Ledger.step K op (F.call c op).2) (F.call c op).1 := by
  have hout := F.call_outcome c op
  generalize F.call c op = x at hout ⊢
  cases hout with
  | refused hrep =>
      rw [Ledger.step, Flat.replay_nil, close_of_refuses hrep]
      exact h
  | cancelled hid => exact h.remove _
  | @amended id s qty r hfind hqty hle =>
      obtain ⟨hr, rfl⟩ := Flat.find?_eq_some hfind
      simp only [Ledger.step, Ledger.close, Flat.replay_nil, if_true, h.find? hF.nodup hr,
        Ledger.rejoin, hle, and_self, UInt32.sub_zero]
      exact h.amend _ _
  | @matched op t hsend =>
      have hnd := (hsend.book_wf hF).nodup
      have hord := (Taker.swept_wf (hsend.book_wf hF)).ordered t.side
      have hleft : t.qty - t.filled c.stp = (t.walk c.stp).remaining := sub_sub_self _ _
      have hrep := h.replay (t.walk c.stp).tape
      simp only [Ledger.step, Taker.after]
      cases hsend with
      | limit =>
          rw [← Taker.swept_eq hnd] at hrep
          simp only [Ledger.close, Taker.reply, decide_eq_true_eq]
          split_ifs
          · rw [hleft]
            exact hrep.push hord _
          · exact hrep
      | market =>
          rw [← Taker.swept_eq hnd] at hrep
          rw [if_neg (fun hrest => Bool.false_ne_true hrest.2.2)]
          exact hrep
      | @modify id s px qty r hfind hqty hpx hmove =>
          obtain ⟨hr, rfl⟩ := Flat.find?_eq_some hfind
          have hside := Flat.Sends.replay_side (.modify hfind hqty hpx hmove) hF
          have hmem : r ∈ (F.replay (Taker.walk ⟨F.remove r.id, s, r.id, px, qty, r.owner, true⟩
              c.stp).tape).side s := by
            rw [Flat.side_replay, hside]
            exact hr
          have hfound := hrep.find? (Flat.replay_nodup hF.nodup _) hmem
          have hswept := hrep.remove r.id
          rw [← Flat.replay_remove F, ← Taker.swept_eq hnd] at hswept
          simp only [Ledger.close, Taker.reply, if_true, decide_eq_true_eq, hfound, Ledger.rejoin,
            if_neg hmove]
          split_ifs
          · rw [hleft]
            exact hswept.push hord _
          · exact hswept

end Tracks

end Ledger

/-! ### The quantities of a call -/

/-- The quantity a reply reports as filled. -/
def Reply.filled : Reply → ℕ
  | .submit r => r.filled.toNat
  | .market n => n.toNat
  | .cancel _ => 0
  | .modify r => r.filled.toNat

/-- Does a reply report that the order rests? -/
def Reply.rested : Reply → Bool
  | .submit r => r.rested
  | .market _ => false
  | .cancel _ => false
  | .modify r => r.rested

/-- The quantity an operation asks for. -/
def Op.requested : Op → ℕ
  | .submitLimit _ _ _ qty _ _ => qty.toNat
  | .submitMarket _ _ qty _ => qty.toNat
  | .cancel _ => 0
  | .modify _ _ qty => qty.toNat

/-- The quantities of a call from `F` to `x` add up, and every order that leaves is reported. -/
structure Accounted (F : Flat) (op : Op) (x : Flat × Answer) : Prop where
  traded : Lob.traded x.2.2 = x.2.1.filled
  split : ∃ rested discarded, op.requested = x.2.1.filled + rested + discarded ∧
    (x.2.1.rested = true →
      discarded = 0 ∧ ∃ s, ∃ r ∈ x.1.side s, r.id = op.id ∧ r.qty.toNat = rested) ∧
    (x.2.1.rested = false → rested = 0 ∧ (op.id ∈ x.1.ids → x.1 = F))
  reported : ∀ id ∈ F.ids, id ∉ x.1.ids →
    (∃ e ∈ x.2.2, e.maker = id) ∨ (op = .cancel id ∧ x.2.1 = .cancel true) ∨
      ∃ px qty r, op = .modify id px qty ∧ x.2.1 = .modify r ∧ r.ok = true ∧ r.rested = false

section accounted

variable {c : Config} {F : Flat} {op : Op} {t : Taker}

theorem Reply.Refuses.filled {reply : Reply} (h : reply.Refuses) : reply.filled = 0 := by
  cases reply <;> simp_all [Reply.Refuses, Reply.filled]

theorem Reply.Refuses.rested {reply : Reply} (h : reply.Refuses) : reply.rested = false := by
  cases reply <;> simp_all [Reply.Refuses, Reply.rested]

theorem Flat.Sends.requested (h : F.Sends c op t) : op.requested = t.qty.toNat := by
  cases h <;> rfl

theorem Flat.Sends.filled (h : F.Sends c op t) :
    (t.reply c.stp op).filled = (t.filled c.stp).toNat := by
  cases h <;> rfl

theorem Flat.Sends.rested (h : F.Sends c op t) :
    (t.reply c.stp op).rested = true ↔ t.Rests c.stp := by
  cases h with
  | limit => simp [Taker.reply, Reply.rested]
  | market => simp [Taker.reply, Reply.rested, Taker.Rests]
  | modify => simp [Taker.reply, Reply.rested]

/-- An order that no event is about stays. -/
theorem mem_replay_of_ne {tape : List Event} {q : List Resting} {r : Resting} (hr : r ∈ q)
    (h : ∀ e ∈ tape, e.maker ≠ r.id) : r ∈ replay tape q := by
  induction tape generalizing q with
  | nil => exact hr
  | cons e tape ih =>
      refine ih ?_ fun e' he' => h e' (List.mem_cons_of_mem e he')
      exact List.mem_filterMap.mpr
        ⟨r, hr, Event.edit_of_ne (h e List.mem_cons_self).symm⟩

theorem Taker.mem_after {t : Taker} {stp : Stp} {id : OrderId} (h : id ∈ (t.swept stp).ids) :
    id ∈ (t.after stp).ids := by
  unfold Taker.after
  split_ifs
  · exact Flat.mem_ids_rest.mpr (Or.inr h)
  · exact h

theorem Taker.id_mem_after {t : Taker} {stp : Stp} (h : t.Rests stp) : t.id ∈ (t.after stp).ids := by
  rw [Taker.after, if_pos h]
  exact Flat.mem_ids_rest.mpr (Or.inl rfl)

/-- What a call sends to match is reported to the last lot. -/
theorem Flat.Sends.accounted (h : F.Sends c op t) (hF : F.WF c) :
    Accounted F op (t.after c.stp, t.reply c.stp op, (t.walk c.stp).tape) where
  traded := by
    have htraded : Lob.traded (t.walk c.stp).tape + (t.walk c.stp).remaining.toNat = t.qty.toNat :=
      walk_traded _ _
    have hfilled := t.filled_add c.stp
    simp only [h.filled]
    omega
  split := by
    have hfilled := t.filled_add c.stp
    simp only [h.filled, h.requested, ← Bool.not_eq_true, h.rested]
    by_cases hrest : t.Rests c.stp
    · refine ⟨(t.walk c.stp).remaining.toNat, 0, by omega, fun _ => ⟨rfl, t.side, t.remainder c.stp,
        ?_, h.id_eq, rfl⟩, fun hn => absurd hrest hn⟩
      rw [Taker.after, if_pos hrest]
      exact Flat.mem_rest.mpr (Or.inl ⟨rfl, rfl⟩)
    · refine ⟨0, (t.walk c.stp).remaining.toNat, by omega, fun hr => absurd hr hrest,
        fun _ => ⟨rfl, fun hm => ?_⟩⟩
      rw [Taker.after, if_neg hrest, ← h.id_eq] at hm
      exact absurd hm (Taker.not_mem_swept h.not_mem)
  reported := by
    intro id hid hleft
    by_cases hself : id ∈ t.book.ids
    · left
      by_contra hno
      obtain ⟨s, r, hr, rfl⟩ := Flat.mem_ids.mp hself
      refine hleft (Taker.mem_after (Flat.mem_ids.mpr ⟨s, r, ?_, rfl⟩))
      rw [Taker.swept_eq (h.book_wf hF).nodup, Flat.side_replay]
      exact mem_replay_of_ne hr fun e he hm => hno ⟨e, he, hm⟩
    · -- only a repriced order is missing from the book its taker meets
      right
      right
      cases h with
      | limit => exact absurd hid hself
      | market => exact absurd hid hself
      | @modify id' s px qty r hfind hqty hpx hmove =>
          obtain rfl : id = id' := by
            rw [Flat.mem_ids_remove] at hself
            simpa [hid] using hself
          exact ⟨px, qty, _, rfl, rfl, rfl,
            decide_eq_false fun hrest => hleft (Taker.id_mem_after hrest)⟩

theorem Flat.WF.accounted (hF : F.WF c) (op : Op) : Accounted F op (F.call c op) := by
  have hout := F.call_outcome c op
  generalize F.call c op = x at hout ⊢
  cases hout with
  | @refused op reply hrep =>
      refine ⟨hrep.filled.symm, ⟨0, op.requested, ?_, ?_, ?_⟩, fun id hid hno => absurd hid hno⟩
      · rw [hrep.filled]
        omega
      · intro hr
        rw [hrep.rested] at hr
        cases hr
      · exact fun _ => ⟨rfl, fun _ => rfl⟩
  | @cancelled id hid =>
      refine ⟨rfl, ⟨0, 0, rfl, (fun h => by cases h), fun _ => ⟨rfl, fun hm => ?_⟩⟩, ?_⟩
      · exact absurd hm Flat.not_mem_ids_remove
      · intro id' hid' hno
        rw [Flat.mem_ids_remove] at hno
        have heq : id' = id := by simpa [hid'] using hno
        exact Or.inr (Or.inl ⟨by rw [heq], rfl⟩)
  | @amended id s qty r hfind hqty hle =>
      obtain ⟨hr, rfl⟩ := Flat.find?_eq_some hfind
      refine ⟨rfl, ⟨qty.toNat, 0, ?_, fun _ => ⟨rfl, s, { r with qty := qty }, ?_, rfl, rfl⟩,
        fun h => by cases h⟩, ?_⟩
      · simp [Op.requested, Reply.filled]
      · rw [Flat.side_amend]
        exact List.mem_map.mpr ⟨r, hr, if_pos rfl⟩
      · intro id hid hno
        rw [Flat.ids_amend] at hno
        exact absurd hid hno
  | matched hsend => exact hsend.accounted hF

end accounted

/-! ### Whole runs -/

namespace Ledger

/-- The bookkeeper's queues are those of the engine's memory. -/
structure Holds (K : Ledger) (b : OrderBook) : Prop where
  queues : ∀ s px, b.bids.inBand px = true → level Resting.price px (K.side s) = b.queueAt s px
  only : ∀ s, ∀ r ∈ K.side s, b.bids.inBand r.price = true

theorem Tracks.holds {c : Config} {K F : Flat} {b : OrderBook} (h : Tracks K F)
    (hb : Book.Repr c b F) : Holds K b := by
  have hband : ∀ px, b.bids.inBand px = c.inBand px := hb.inBand .bid
  refine ⟨fun s px hpx => ?_, fun s r hr => ?_⟩
  · rw [OrderBook.queueAt_eq hb ((hband px).symm.trans hpx)]
    exact h s px
  · rw [hband]
    exact hb.wf.band s r (h.mem_iff.mp hr)

/-- Along a run of the flat book. -/
theorem tracks_run (c : Config) : ∀ (ops : List Op) (K F : Flat), F.WF c → Tracks K F →
    Tracks ((ops.zip (Transition.outputs (Flat.call c) F ops)).foldl (fun K x => step K x.1 x.2) K)
      (Transition.finalState (Flat.call c) F ops)
  | [], _, _, _, h => h
  | op :: ops, K, F, hF, h =>
      tracks_run c ops (step K op (F.call c op).2) (F.call c op).1 (hF.call op) (h.step hF op)

/-- **The outputs determine the book**: after every call of every run the bookkeeper holds the
queues of the engine, and what every call reports accounts for what it did. -/
theorem ledger_run (p : Params) (hp : p.Valid) (ops : List Op) :
    Holds (run ops (OrderBook.answers p ops)) (OrderBook.run p ops) ∧
      ∀ op, Accounted (OrderBook.run p ops).flat op
        (OrderBook.flat ((OrderBook.run p ops).call op).1, ((OrderBook.run p ops).call op).2) := by
  obtain ⟨hans, hrepr⟩ := OrderBook.run_repr hp ops
  refine ⟨?_, fun op => ?_⟩
  · rw [hans]
    exact (tracks_run p.config ops {} {} (Flat.empty_wf _) fun s px => rfl).holds hrepr
  · obtain ⟨hans', hrepr'⟩ := hrepr.call op
    rw [OrderBook.flat_eq hrepr, OrderBook.flat_eq hrepr', hans']
    exact hrepr.wf.accounted op

/-- An own order is killed and the next one filled in part. -/
theorem ledger_run_small :
    Holds { asks := [⟨2, 5, 3, 8⟩] }
      (OrderBook.run { stp := .cancelResting, bandHi := 9, idMapSlots := 4 }
        [.submitLimit 1 .ask 5 2 .gtc 7, .submitLimit 2 .ask 5 4 .gtc 8,
          .submitLimit 3 .bid 5 1 .ioc 7]) := by
  have hrun : run [.submitLimit 1 .ask 5 2 .gtc 7, .submitLimit 2 .ask 5 4 .gtc 8,
        .submitLimit 3 .bid 5 1 .ioc 7]
      (OrderBook.answers { stp := .cancelResting, bandHi := 9, idMapSlots := 4 }
        [.submitLimit 1 .ask 5 2 .gtc 7, .submitLimit 2 .ask 5 4 .gtc 8,
          .submitLimit 3 .bid 5 1 .ioc 7]) =
      { asks := [⟨2, 5, 3, 8⟩] } := by decide +kernel
  rw [← hrun]
  exact (ledger_run _ ⟨by decide, by decide, by decide, by decide⟩ _).1

end Ledger

end Lob
