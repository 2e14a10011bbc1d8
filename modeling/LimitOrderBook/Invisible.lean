import LimitOrderBook.FillOrKill
import LimitOrderBook.Protection
import LimitOrderBook.SelfTrade

/-! # Orders that never trade

Without self-trade prevention an order that never trades is invisible to the others.  A walk whose
tape does not mention it is the walk on the queue without it (`walk_hide`), so every other call
commutes with taking it off the book (`Flat.call_hide`), and the calls that name it change nothing
else (`Flat.call_hidden`).  By the purge rule a run without these calls is the same run for
everyone else (`OrderBook.invisible_run`). -/

namespace Lob

open KeyedQueue

/-- A queue without the order `x`. -/
def hide (x : OrderId) (q : List Resting) : List Resting := q.filter fun r => decide (r.id ≠ x)

section walk

variable {x : OrderId} {s : Side} {taker : OrderId} {limit : Int} {owner : Owner} {r : Resting}
  {q : List Resting}

theorem hide_cons_self (hx : r.id = x) : hide x (r :: q) = hide x q := by simp [hide, hx]

theorem hide_cons_ne (hx : r.id ≠ x) : hide x (r :: q) = r :: hide x q := by simp [hide, hx]

theorem mem_of_hide (hr : r ∈ hide x q) : r ∈ q := List.mem_of_mem_filter hr

/-- **A walk that does not trade with `x` is the walk without `x`.** -/
theorem walk_hide : ∀ (q : List Resting) (n : Qty), Ordered (better s.opp) Resting.price q →
    (∀ e ∈ (walk .none s taker limit owner q n).tape, e.maker ≠ x) →
    walk .none s taker limit owner (hide x q) n =
      { walk .none s taker limit owner q n with
        queue := hide x (walk .none s taker limit owner q n).queue }
  | [], _, _, _ => rfl
  | r :: q, n, hord, h => by
      have hnone : ∀ r : Resting, ¬ r.Own .none owner := fun _ => NaiveSide.not_own_none
      by_cases hend : n = 0 ∨ crosses s r.price limit = false
      · rw [walk_stop hend]
        rcases hend with rfl | hc
        · exact walk_zero _
        · refine walk_clear fun r' hr' => ?_
          exact Flat.not_crosses_of_head hord hc r' (mem_of_hide hr')
      -- the order at the front trades, so it is not `x`
      rcases Nat.lt_or_ge n.toNat r.qty.toNat with hlt | hle
      · rw [walk_part hend (hnone r) hlt] at h ⊢
        have hx : r.id ≠ x := h _ List.mem_cons_self
        rw [hide_cons_ne hx, walk_part hend (hnone r) hlt]
        exact congrArg (fun q => Walk.mk q _ _ _)
          (hide_cons_ne (r := { r with qty := r.qty - n }) hx).symm
      · rw [walk_full hend (hnone r) hle] at h ⊢
        have hx : r.id ≠ x := h _ List.mem_cons_self
        rw [hide_cons_ne hx, walk_full hend (hnone r) hle, walk_hide q (n - r.qty) hord.tail fun e he =>
          h e (List.mem_cons_of_mem _ he)]

theorem reach_clear {stp : Stp} : ∀ {q : List Resting},
    (∀ r ∈ q, crosses s r.price limit = false) → reach stp s limit owner q = 0
  | [], _ => rfl
  | r :: _, h => reach_far (h r List.mem_cons_self)

theorem reach_hide : ∀ (q : List Resting), Ordered (better s.opp) Resting.price q →
    reach .none s limit owner (hide x q) ≤ reach .none s limit owner q
  | [], _ => Nat.le_refl 0
  | r :: q, hord => by
      have ih := reach_hide q hord.tail
      cases hc : crosses s r.price limit with
      | false =>
          have hfar : ∀ r' ∈ hide x (r :: q), crosses s r'.price limit = false := fun r' hr' =>
            Flat.not_crosses_of_head hord hc r' (mem_of_hide hr')
          rw [reach_clear hfar]
          exact Nat.zero_le _
      | true =>
          rw [reach_take hc NaiveSide.not_own_none]
          by_cases hx : r.id = x
          · rw [hide_cons_self hx]
            omega
          · rw [hide_cons_ne hx, reach_take hc NaiveSide.not_own_none]
            omega

end walk

/-- An order joins a queue with or without another. -/
theorem hide_enqueue {s : Side} {x : OrderId} {r : Resting} {q : List Resting}
    (hord : Ordered (better s) Resting.price q) (hx : r.id ≠ x) :
    hide x (enqueue (better s) Resting.price r q) =
      enqueue (better s) Resting.price r (hide x q) := by
  have hord' : Ordered (better s) Resting.price (hide x q) := hord.filter _
  refine Ordered.ext_level (hord.enqueue.filter _) hord'.enqueue fun k => ?_
  rw [hord'.level_enqueue]
  simp only [hide, level_filter]
  rw [hord.level_enqueue]
  split_ifs with hk
  · rw [List.filter_append]
    congr 1
    exact List.filter_eq_self.mpr (by simpa using hx)
  · rfl

namespace Flat

variable {c : Config} {F : Flat} {x : OrderId} {s : Side} {id : OrderId} {px : Int} {qty : Qty}
  {tif : Tif} {owner : Owner}

theorem side_hide : (F.remove x).side s = hide x (F.side s) := side_remove

theorem withSide_hide {q : List Resting} :
    (F.withSide s q).remove x = (F.remove x).withSide s (hide x q) := by cases s <;> rfl

theorem remove_comm : (F.remove id).remove x = (F.remove x).remove id := by
  refine ext_side fun t => ?_
  simp only [side_remove, List.filter_filter]
  congr 1
  funext r
  exact Bool.and_comm _ _

theorem rest_hide {r : Resting} (hord : Ordered (better s) Resting.price (F.side s))
    (hx : r.id ≠ x) : (F.rest s r).remove x = (F.remove x).rest s r := by
  rw [rest, rest, withSide_hide, side_hide, hide_enqueue hord hx]

theorem amend_hide {n : Qty} : (F.amend id n).remove x = (F.remove x).amend id n := by
  refine ext_side fun t => ?_
  have hid : ∀ r : Resting, (if r.id = id then { r with qty := n } else r).id = r.id := by
    intro r
    split_ifs <;> rfl
  simp only [side_remove, side_amend, List.filter_map]
  congr 2
  funext r
  simp only [Function.comp_apply, hid]

theorem execute_hide (hF : F.WF c) (hstp : c.stp = .none) (hqty : qty ≠ 0)
    (hlen : (F.side s.opp).length < 2 ^ 32) (hid : id ≠ x)
    (h : ∀ e ∈ (F.execute c s id px qty tif owner).2.2, e.maker ≠ x) :
    (F.remove x).execute c s id px qty tif owner =
      ((F.execute c s id px qty tif owner).1.remove x, (F.execute c s id px qty tif owner).2) := by
  have hord := hF.ordered s.opp
  have hlen' : (hide x (F.side s.opp)).length < 2 ^ 32 :=
    Nat.lt_of_le_of_lt (List.length_filter_le _ _) hlen
  by_cases hkill : tif = .fok ∧ fillable s px qty .none owner (F.side s.opp) = false
  · have hkill' : tif = .fok ∧ fillable s px qty .none owner (hide x (F.side s.opp)) = false := by
      refine ⟨hkill.1, Bool.eq_false_iff.mpr fun hx => ?_⟩
      have hfill := (fillable_iff hqty hlen).mpr
        (((fillable_iff hqty hlen').mp hx).trans (reach_hide _ hord))
      rw [hfill] at hkill
      cases hkill.2
    rw [execute, execute, side_hide, hstp, if_pos hkill, if_pos hkill']
  · have htape : (F.execute c s id px qty tif owner).2.2 =
        (Lob.walk .none s id px owner (F.side s.opp) qty).tape := by
      rw [execute, hstp, if_neg hkill]
      simp only
      split_ifs <;> rfl
    rw [htape] at h
    have hwalk := walk_hide (F.side s.opp) qty hord h
    have hkill' : ¬ (tif = .fok ∧
        fillable s px qty .none owner (hide x (F.side s.opp)) = false) := by
      rintro ⟨htif, hx⟩
      refine hkill ⟨htif, Bool.eq_false_iff.mpr fun hn => ?_⟩
      rw [fillable_iff_walk hqty hlen] at hn
      have hx' : fillable s px qty .none owner (hide x (F.side s.opp)) = true := by
        rw [fillable_iff_walk hqty hlen', hwalk]
        exact hn
      rw [hx] at hx'
      cases hx'
    rw [execute, execute, side_hide, hstp, if_neg hkill, if_neg hkill', hwalk]
    simp only
    split_ifs
    · rw [withSide_hide]
    · rw [rest_hide _ hid, withSide_hide]
      rw [side_withSide_opp]
      exact hF.ordered s
    · rw [withSide_hide]

theorem mem_ids_hide (hid : id ≠ x) : id ∈ (F.remove x).ids ↔ id ∈ F.ids := by
  rw [mem_ids_remove]
  exact and_iff_left hid

/-- A market order meets the reference order, unless its bound wraps. -/
theorem wraps_of_no_trade {p : Params} (hp : p.Valid) (hfit : p.Fits) (hpos : 0 < p.protection)
    {r : Resting} {q : List Resting} (href : p.inBand r.price = true) (hqty : qty ≠ 0)
    (h : ∀ e ∈ (Lob.walk .none s id (wrapPrice (s.beyond r.price p.protection)) owner (r :: q)
      qty).tape, e.maker ≠ r.id) :
    s = .bid ∧ kMaxPrice < r.price + p.protection := by
  by_contra hfree
  have hle : s = .bid → r.price + p.protection ≤ kMaxPrice := fun hs =>
    Int.not_lt.mp fun hlt => hfree ⟨hs, hlt⟩
  rw [wrapPrice_beyond hp hfit href hpos hfit.protection_le hle] at h
  have hc : crosses s r.price (s.beyond r.price p.protection) = true := by
    cases s with
    | bid =>
        refine decide_eq_true ?_
        rw [Side.beyond]
        omega
    | ask =>
        refine decide_eq_true ?_
        rw [Side.beyond]
        omega
  obtain ⟨e, he, hmaker⟩ : ∃ e ∈ (Lob.walk .none s id (s.beyond r.price p.protection) owner
      (r :: q) qty).tape, e.maker = r.id := walk_front hqty hc fun ho => NaiveSide.not_own_none ho.1
  exact h e he hmaker

/-- Where the bound wraps at the best ask it would wrap at every ask. -/
theorem asks_wrap {d : Int} (hF : F.WF c) {r : Resting} {q : List Resting} (hside : F.asks = r :: q)
    (hlt : kMaxPrice < r.price + d) : ∀ r' ∈ F.asks, kMaxPrice < r'.price + d := by
  intro r' hr'
  have hord := hF.ordered .ask
  rw [show F.side .ask = r :: q from hside] at hord
  rw [hside] at hr'
  rcases List.mem_cons.mp hr' with rfl | hr'
  · exact hlt
  · have hle := hord.head_le hr'
    rw [better, Int.not_lt] at hle
    omega

/-- A market bid whose bound wraps does nothing. -/
theorem submitMarket_wrapped {p : Params} (hp : p.Valid) (hfit : p.Fits) (hF : F.WF p.config)
    (hpos : 0 < p.protection)
    (hlt : ∀ r ∈ F.asks, kMaxPrice < r.price + p.protection) :
    F.submitMarket p.config id .bid qty owner = (F, 0, []) := by
  have hband : ∀ r ∈ F.asks, p.inBand r.price = true := hF.band .ask
  unfold submitMarket
  split_ifs with hbad
  · rfl
  · cases hside : F.asks with
    | nil => rw [marketLimit_nil hpos (show F.side Side.bid.opp = [] from hside)]
    | cons r q =>
        rw [hside] at hlt hband
        have hneg := wrapPrice_neg hfit (hband r List.mem_cons_self) (hlt r List.mem_cons_self)
        have hclear : Lob.walk p.config.stp .bid id (wrapPrice (r.price + p.protection)) owner
            (F.side Side.bid.opp) qty = ⟨F.side Side.bid.opp, qty, false, []⟩ := by
          refine walk_clear fun r' hr' => decide_eq_false ?_
          have hin := hband r' (by rwa [← hside])
          have hlo := hp.lo_pos
          rw [Params.inBand_iff] at hin
          omega
        rw [marketLimit_cons hpos (show F.side Side.bid.opp = r :: q from hside)]
        simp only [Side.beyond, hclear, withSide_side, UInt32.sub_self]

/-- The reference price of a market order may be the price of `x`; then the order trades with `x`,
or its bound has wrapped and it reaches nothing on either book. -/
theorem submitMarket_hide {p : Params} (hp : p.Valid) (hfit : p.Fits) (hF : F.WF p.config)
    (hstp : p.stp = .none) (hid : id ≠ x)
    (h : ∀ e ∈ (F.submitMarket p.config id s qty owner).2.2, e.maker ≠ x) :
    (F.remove x).submitMarket p.config id s qty owner =
      ((F.submitMarket p.config id s qty owner).1.remove x,
        (F.submitMarket p.config id s qty owner).2) := by
  have hstp' : p.config.stp = .none := hstp
  by_cases hbad : id = 0 ∨ qty = 0 ∨ id ∈ F.ids
  · have hbad' : id = 0 ∨ qty = 0 ∨ id ∈ (F.remove x).ids := by rwa [mem_ids_hide hid]
    rw [submitMarket, submitMarket, if_pos hbad, if_pos hbad']
  have hbad' : ¬ (id = 0 ∨ qty = 0 ∨ id ∈ (F.remove x).ids) := by rwa [mem_ids_hide hid]
  -- the same bound on both books: the same walk
  have hsame : ∀ limit, F.marketLimit p.config s = some limit →
      (F.remove x).marketLimit p.config s = some limit →
      (F.remove x).submitMarket p.config id s qty owner =
        ((F.submitMarket p.config id s qty owner).1.remove x,
          (F.submitMarket p.config id s qty owner).2) := by
    intro limit hlimit hlimit'
    simp only [submitMarket, if_neg hbad, hlimit, hstp'] at h
    have hwalk := walk_hide (F.side s.opp) qty (hF.ordered s.opp) h
    simp only [submitMarket, if_neg hbad, if_neg hbad', hlimit, hlimit', hstp', side_hide, hwalk,
      withSide_hide]
  by_cases hpos : 0 < p.protection
  · cases hside : F.side s.opp with
    | nil =>
        have hside' : (F.remove x).side s.opp = [] := by
          rw [side_hide, hside]
          rfl
        simp only [submitMarket, if_neg hbad, if_neg hbad', marketLimit_nil hpos hside,
          marketLimit_nil hpos hside']
    | cons r q =>
        by_cases hx : r.id = x
        · simp only [submitMarket, if_neg hbad, marketLimit_cons hpos hside, hstp', hside] at h
          simp only [not_or] at hbad
          have href : p.inBand r.price = true :=
            hF.band s.opp r (by rw [hside]; exact List.mem_cons_self)
          obtain ⟨rfl, hlt⟩ := wraps_of_no_trade hp hfit hpos href hbad.2.1 (by rwa [hx])
          have hwrap := asks_wrap hF hside hlt
          rw [submitMarket_wrapped hp hfit hF hpos hwrap]
          exact submitMarket_wrapped hp hfit (hF.remove x) hpos fun r' hr' =>
            hwrap r' (mem_of_hide hr')
        · refine hsame _ (marketLimit_cons hpos hside) ?_
          refine marketLimit_cons hpos (q := hide x q) ?_
          rw [side_hide, hside, hide_cons_ne hx]
  · exact hsame _ (if_neg hpos) (if_neg hpos)

theorem modify_hide (hF : F.WF c) (hstp : c.stp = .none) (hlen : ∀ s, (F.side s).length < 2 ^ 32)
    (hid : id ≠ x) (h : ∀ e ∈ (F.modify c id px qty).2.2, e.maker ≠ x) :
    (F.remove x).modify c id px qty =
      ((F.modify c id px qty).1.remove x, (F.modify c id px qty).2) := by
  have hfind : (F.remove x).find? id = F.find? id := by rw [find?_remove hF.nodup, if_neg hid]
  cases hf : F.find? id with
  | none => simp only [modify, hfind, hf]
  | some sr =>
      obtain ⟨s, r⟩ := sr
      by_cases hbad : qty = 0 ∨ c.inBand px = false
      · simp only [modify, hfind, hf, if_pos hbad]
      · by_cases hsame : px = r.price ∧ qty ≤ r.qty
        · simp only [modify, hfind, hf, if_neg hbad, if_pos hsame, amend_hide]
        · simp only [modify, hf, if_neg hbad, if_neg hsame] at h
          have hlen' : ((F.remove id).side s.opp).length < 2 ^ 32 := by
            rw [side_remove]
            exact Nat.lt_of_le_of_lt (List.length_filter_le _ _) (hlen s.opp)
          have hexec := execute_hide (hF.remove id) hstp (fun h0 => hbad (Or.inl h0)) hlen' hid h
          rw [remove_comm] at hexec
          simp only [modify, hfind, hf, if_neg hbad, if_neg hsame, hexec]

end Flat

/-- The event is a trade of `x`. -/
def Event.Involves (x : OrderId) : Event → Prop
  | .trade taker maker _ _ => taker = x ∨ maker = x
  | .cancel .. => False

instance (x : OrderId) : DecidablePred (Event.Involves x)
  | .trade taker maker _ _ => inferInstanceAs (Decidable (taker = x ∨ maker = x))
  | .cancel .. => inferInstanceAs (Decidable False)

namespace Flat

variable {p : Params} {F : Flat} {x : OrderId} {op : Op}

/-- Without prevention every event is a trade of the order sent to match. -/
theorem trade_of_mem {c : Config} (hF : F.WF c) (hstp : c.stp = .none) {t : Taker}
    (hsend : F.Sends c op t) {e : Event} (he : e ∈ (t.walk c.stp).tape) :
    ∃ maker px k, e = .trade t.id maker px k := by
  obtain ⟨r, -, -, ⟨⟨k, rfl⟩, -⟩ | ⟨-, -, hkill⟩⟩ := hsend.event hF he
  · exact ⟨r.id, r.price, k, rfl⟩
  · rw [hstp] at hkill
    cases hkill

/-- **Calls of others commute with taking `x` off the book.** -/
theorem call_hide (hp : p.Valid) (hfit : p.Fits) (hstp : p.stp = .none) (hF : F.WF p.config)
    (hlen : ∀ s, (F.side s).length < 2 ^ 32) (hid : op.id ≠ x)
    (h : ∀ e ∈ (F.call p.config op).2.2, ¬ e.Involves x) :
    (F.remove x).call p.config op =
      ((F.call p.config op).1.remove x, (F.call p.config op).2) := by
  have hmaker : ∀ e ∈ (F.call p.config op).2.2, e.maker ≠ x := by
    intro e he hx
    obtain ⟨t, hsend, heq⟩ := sends_of_mem_tape he
    have he' := he
    rw [heq] at he'
    obtain ⟨maker, px, k, rfl⟩ := trade_of_mem hF hstp hsend he'
    exact h _ he (Or.inr hx)
  cases op with
  | submitLimit id s px qty tif owner =>
      have hid : id ≠ x := hid
      have hmem := mem_ids_hide (F := F) hid
      by_cases hbad : id = 0 ∨ qty = 0 ∨ p.config.inBand px = false ∨ id ∈ F.ids
      · have hbad' : id = 0 ∨ qty = 0 ∨ p.config.inBand px = false ∨ id ∈ (F.remove x).ids := by
          rwa [hmem]
        simp only [call, submitLimit, if_pos hbad, if_pos hbad']
      · have hbad' : ¬ (id = 0 ∨ qty = 0 ∨ p.config.inBand px = false ∨
            id ∈ (F.remove x).ids) := by rwa [hmem]
        simp only [call, submitLimit, if_neg hbad] at hmaker
        have hqty : qty ≠ 0 := fun h0 => hbad (Or.inr (Or.inl h0))
        simp only [call, submitLimit, if_neg hbad, if_neg hbad',
          execute_hide hF hstp hqty (hlen s.opp) hid hmaker]
  | submitMarket id s qty owner =>
      have hid : id ≠ x := hid
      simp only [call] at hmaker ⊢
      rw [submitMarket_hide hp hfit hF hstp hid hmaker]
  | cancel id =>
      have hid : id ≠ x := hid
      have hmem := mem_ids_hide (F := F) hid
      simp only [call, cancel, hmem]
      split_ifs
      · rw [← remove_comm]
      · rfl
  | modify id px qty =>
      have hid : id ≠ x := hid
      simp only [call] at hmaker ⊢
      rw [modify_hide hF hstp hlen hid hmaker]

theorem remove_self : (F.remove x).remove x = F.remove x := remove_of_not_mem not_mem_ids_remove

theorem rest_hide_self {s : Side} {r : Resting} : (F.rest s r).remove r.id = F.remove r.id := by
  have hq : ∀ q : List Resting, hide r.id (enqueue (better s) Resting.price r q) = hide r.id q := by
    intro q
    conv_rhs => rw [← List.takeWhile_append_dropWhile
      (p := fun b => !decide (better s r.price b.price)) (l := q)]
    simp only [enqueue, hide, List.filter_append]
    rw [List.filter_cons_of_neg (by simp)]
  rw [rest, withSide_hide, hq, ← side_hide]
  exact withSide_side (F.remove r.id) s

/-- **Calls on `x` that trade nothing show on `x` only.** -/
theorem call_hidden {c : Config} (hF : F.WF c) (hstp : c.stp = .none) (hid : op.id = x)
    (h : ∀ e ∈ (F.call c op).2.2, ¬ e.Involves x) : (F.call c op).1.remove x = F.remove x := by
  have hout := F.call_outcome c op
  generalize F.call c op = y at hout h ⊢
  cases hout with
  | refused => rfl
  | cancelled =>
      obtain rfl : _ = x := hid
      exact remove_self
  | @amended k s n r hfind =>
      obtain rfl : k = x := hid
      have hnone : ∀ t, ∀ r' ∈ (F.remove k).side t, r'.id ≠ k := by
        intro t r' hr' he
        rw [side_remove] at hr'
        simpa [he] using (List.mem_filter.mp hr').2
      rw [amend_hide]
      refine ext_side fun t => ?_
      rw [side_amend]
      exact (List.map_congr_left fun r' hr' => if_neg (hnone t r' hr')).trans (List.map_id _)
  | @matched op t hsend =>
      have htid : t.id = x := hsend.id_eq.trans hid
      have htape : (t.walk c.stp).tape = [] := by
        rw [List.eq_nil_iff_forall_not_mem]
        intro e he
        obtain ⟨maker, px, k, rfl⟩ := trade_of_mem hF hstp hsend he
        exact h _ he (Or.inl htid)
      have hswept : t.swept c.stp = t.book := by
        rw [Taker.swept_eq (hsend.book_wf hF).nodup, htape, replay_nil]
      have hbook : t.book.remove x = F.remove x := by
        cases hsend with
        | limit => rfl
        | market => rfl
        | modify =>
            obtain rfl : _ = x := htid
            exact remove_self
      show (t.after c.stp).remove x = F.remove x
      unfold Taker.after
      split_ifs
      · rw [hswept, ← hbook, ← htid]
        exact rest_hide_self (r := t.remainder c.stp)
      · rw [hswept, hbook]

end Flat

/-! ### Whole runs -/

namespace Flat

/-- **Hiding an order that is not alone at the front leaves the best price.** -/
theorem best_hide {c : Config} {F : Flat} (hF : F.WF c) {x : OrderId} {s : Side} {best : Int}
    (hbest : ((F.side s).head?.map Resting.price).getD kNoPrice = best)
    (hne : (level Resting.price best (F.side s)).map Resting.id ≠ [x]) :
    (((F.remove x).side s).head?.map Resting.price).getD kNoPrice = best := by
  rw [side_hide]
  cases hside : F.side s with
  | nil =>
      rw [hside] at hbest
      exact hbest
  | cons r q =>
      have hord := hF.ordered s
      have hnd := side_nodup hF.nodup s
      rw [hside] at hbest hne hord hnd
      obtain rfl : r.price = best := hbest
      by_cases hx : r.id = x
      · -- another order stands behind `x` at its price
        subst hx
        rw [level_cons_self, List.map_cons] at hne
        have hnil : level Resting.price r.price q ≠ [] := fun h0 => hne (by rw [h0]; rfl)
        obtain ⟨r', hr'⟩ := List.exists_mem_of_ne_nil _ hnil
        obtain ⟨hmem, hprice⟩ := mem_level.mp hr'
        have hid : r'.id ≠ r.id := fun he =>
          (List.nodup_cons.mp hnd).1 (he ▸ List.mem_map_of_mem hmem)
        have hr'' : r' ∈ hide r.id q := List.mem_filter.mpr ⟨hmem, decide_eq_true hid⟩
        rw [hide_cons_self rfl]
        have hord' : Ordered (better s) Resting.price (hide r.id q) := hord.tail.filter _
        cases hq : hide r.id q with
        | nil =>
            rw [hq] at hr''
            cases hr''
        | cons f q' =>
            rw [hq] at hr'' hord'
            have h1 : ¬ better s f.price r.price :=
              hord.head_le (mem_of_hide (by rw [hq]; exact List.mem_cons_self))
            have h2 : ¬ better s r.price f.price := by
              rcases List.mem_cons.mp hr'' with rfl | hr''
              · rw [hprice]
                exact irrefl _
              · rw [← hprice]
                exact hord'.head_le hr''
            exact Std.Trichotomous.trichotomous (r := better s) _ _ h1 h2
      · rw [hide_cons_ne hx]
        rfl

end Flat

namespace OrderBook

variable {p : Params} {x : OrderId} {ops : List Op}

theorem run_hide (hp : p.Valid) (hfit : p.Fits) (hstp : p.stp = .none)
    (hsmall : ∀ pre ∈ ops.inits, (run p pre).restingOrders < 2 ^ 32)
    (hno : ∀ a ∈ answers p ops, ∀ e ∈ a.2, ¬ e.Involves x) :
    answers p (ops.filter fun op => decide (op.id ≠ x)) =
        ((ops.zip (answers p ops)).filter fun y => decide (y.1.id ≠ x)).map Prod.snd ∧
      flat (run p (ops.filter fun op => decide (op.id ≠ x))) = (flat (run p ops)).remove x := by
  obtain ⟨hans, hrepr⟩ := run_repr hp ops
  obtain ⟨hans', hrepr'⟩ := run_repr hp (ops.filter fun op => decide (op.id ≠ x))
  have halong : Transition.Along (Flat.call p.config) (fun F op =>
      (∀ s, (F.side s).length < 2 ^ 32) ∧ ∀ e ∈ (F.call p.config op).2.2, ¬ e.Involves x)
      {} ops := by
    refine Transition.along_of_split fun pre op post he => ⟨?_, ?_⟩
    · have hpre : pre ∈ ops.inits := (List.mem_inits _ _).mpr ⟨op :: post, he.symm⟩
      exact side_length_lt (run_repr hp pre).2 (hsmall pre hpre)
    · refine hno _ ?_
      rw [hans, he, Transition.outputs_append]
      exact List.mem_append_right _ List.mem_cons_self
  have hpurge := Transition.run_purge (Flat.WF p.config) (fun op => decide (op.id ≠ x))
    (fun F => F.remove x)
    (fun F op hF hP hid => Flat.call_hide hp hfit hstp hF hP.1 (of_decide_eq_true hid) hP.2)
    (fun F op hF hP hid => Flat.call_hidden hF hstp (by simpa using hid) hP.2)
    (fun F op hF => hF.call op) (Flat.empty_wf _) halong
  rw [hans, hans', flat_eq hrepr, flat_eq hrepr']
  exact hpurge

/-- **An order that never trades is invisible to everyone else**: without self-trade prevention,
the run without the calls that name `x` gives the same answers to all other calls, and the same
books but for `x`. -/
theorem invisible_run (p : Params) (hp : p.Valid) (hfit : p.Fits) (hstp : p.stp = .none)
    (ops : List Op) (hsmall : ∀ pre ∈ ops.inits, (run p pre).restingOrders < 2 ^ 32) (x : OrderId)
    (hno : ∀ a ∈ answers p ops, ∀ e ∈ a.2, ¬ e.Involves x) :
    let others := fun ops : List Op => ops.filter fun op => decide (op.id ≠ x)
    answers p (others ops) =
        ((ops.zip (answers p ops)).filter fun y => decide (y.1.id ≠ x)).map Prod.snd ∧
      ∀ pre ∈ ops.inits, (flat (run p pre)).remove x = flat (run p (others pre)) ∧
        ∀ s, (level Resting.price ((run p pre).best s) ((flat (run p pre)).side s)).map
          Resting.id ≠ [x] → (run p (others pre)).best s = (run p pre).best s := by
  intro others
  have hprefix : ∀ pre ∈ ops.inits, (∀ pre' ∈ pre.inits, (run p pre').restingOrders < 2 ^ 32) ∧
      ∀ a ∈ answers p pre, ∀ e ∈ a.2, ¬ e.Involves x := by
    intro pre hpre
    obtain ⟨post, rfl⟩ := (List.mem_inits _ _).mp hpre
    refine ⟨fun pre' hpre' => hsmall pre' ?_, fun a ha => hno a ?_⟩
    · exact (List.mem_inits _ _).mpr
        (((List.mem_inits _ _).mp hpre').trans (List.prefix_append pre post))
    · rw [answers, Transition.outputs_append]
      exact List.mem_append_left _ ha
  refine ⟨(run_hide hp hfit hstp hsmall hno).1, fun pre hpre => ?_⟩
  obtain ⟨hsmall', hno'⟩ := hprefix pre hpre
  have hbook := (run_hide hp hfit hstp hsmall' hno').2
  refine ⟨hbook.symm, fun s hne => ?_⟩
  have h := (run_repr hp pre).2
  have h' := (run_repr hp (others pre)).2
  have hflat : Transition.finalState (Flat.call p.config) {} (others pre) =
      (Transition.finalState (Flat.call p.config) {} pre).remove x := by
    rw [← flat_eq h, ← flat_eq h']
    exact hbook
  rw [flat_eq h] at hne
  rw [h'.best, hflat]
  exact Flat.best_hide h.wf (h.best s).symm hne

/-- An order that rests at the touch, moves and leaves, while another one is filled. -/
theorem invisible_run_small :
    (flat (run { bandHi := 9, idMapSlots := 4, protection := 1 }
      [.submitLimit 1 .ask 5 2 .gtc 0, .submitLimit 9 .ask 5 4 .gtc 0, .submitMarket 3 .bid 2 0,
        .modify 9 6 1])).remove 9 =
      flat (run { bandHi := 9, idMapSlots := 4, protection := 1 }
        [.submitLimit 1 .ask 5 2 .gtc 0, .submitMarket 3 .bid 2 0]) :=
  ((invisible_run { bandHi := 9, idMapSlots := 4, protection := 1 }
    ⟨by decide, by decide, by decide, by decide⟩
    ⟨by decide +kernel, by decide +kernel, by decide +kernel⟩ rfl
    [.submitLimit 1 .ask 5 2 .gtc 0, .submitLimit 9 .ask 5 4 .gtc 0, .submitMarket 3 .bid 2 0,
      .modify 9 6 1] (by decide +kernel) 9 (by decide +kernel)).2 _
    ((List.mem_inits _ _).mpr List.prefix_rfl)).1

end OrderBook

end Lob
