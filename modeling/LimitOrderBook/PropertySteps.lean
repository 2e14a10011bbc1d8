import LimitOrderBook.FillOrKill
import LimitOrderBook.PropertyTape
import LimitOrderBook.Reference

/-! # The steps of the property test

`Agrees` relates a test to the flat book: its engine holds the book, its model shows the book and
numbers the orders by arrival.  Every step of the test passes and keeps it.

What the test finds on the engine's book after a call is what is left of the order (`finish_sent`):
the quantity at a price is a 64-bit sum that may wrap, and so may the sums of the test, but the
difference of two of them is the quantity of one order.  A fill-or-kill order is whole because the
check that lets it match has summed enough, whether it has wrapped or not (`walk_of_fillable`). -/

namespace Lob

open KeyedQueue

/-! ### Sizes -/

namespace Flat

variable {F G : Flat} {s : Side} {r : Resting}

/-- The size at a price. -/
def sizeAt (F : Flat) (s : Side) (px : Int) : UInt64 :=
  UInt64.ofNat (total (level Resting.price px (F.side s)))

/-- The size with one order more. -/
theorem sizeAt_of_perm (h : (G.side s).Perm (r :: F.side s)) (px : Int) :
    G.sizeAt s px = F.sizeAt s px + if r.price = px then r.qty.toUInt64 else 0 := by
  have htotal : total (level Resting.price px (G.side s)) =
      total (level Resting.price px (r :: F.side s)) :=
    ((h.filter _).map _).sum_nat
  rw [sizeAt, sizeAt, htotal, level_cons]
  split_ifs
  · rw [total_cons, UInt64.ofNat_add, UInt64.ofNat_uInt32ToNat, UInt64.add_comm]
  · rw [UInt64.add_zero]

theorem rest_perm (F : Flat) (s : Side) (r : Resting) :
    ((F.rest s r).side s).Perm (r :: F.side s) := by
  rw [rest, side_withSide_self]
  exact enqueue_perm r (F.side s)

/-- An order and the others of its side. -/
theorem remove_perm (hnd : F.ids.Nodup) (hr : r ∈ F.side s) :
    (F.side s).Perm (r :: (F.remove r.id).side s) := by
  obtain ⟨q₁, q₂, hq⟩ := List.append_of_mem hr
  have hside := side_nodup hnd s
  rw [hq] at hside
  have hmiddle := (List.perm_middle.map Resting.id).nodup_iff.mp hside
  have hne : ∀ r' ∈ q₁ ++ q₂, decide (r'.id ≠ r.id) = true := fun r' hr' =>
    decide_eq_true fun he => (List.nodup_cons.mp hmiddle).1 (he ▸ List.mem_map_of_mem hr')
  have hrest : (F.remove r.id).side s = q₁ ++ q₂ := by
    rw [side_remove, hq, List.filter_append, List.filter_cons_of_neg (by simp), ← List.filter_append]
    exact List.filter_eq_self.mpr hne
  rw [hrest, hq]
  exact List.perm_middle

theorem amend_perm (hnd : F.ids.Nodup) (hr : r ∈ F.side s) (n : Qty) :
    ((F.amend r.id n).side s).Perm ({ r with qty := n } :: (F.remove r.id).side s) := by
  have h := (remove_perm hnd hr).map fun x => if x.id = r.id then { x with qty := n } else x
  have hsame :
      ((F.remove r.id).side s).map (fun x => if x.id = r.id then { x with qty := n } else x) =
      (F.remove r.id).side s := by
    refine (List.map_congr_left fun x hx => if_neg ?_).trans (List.map_id _)
    rw [side_remove] at hx
    exact of_decide_eq_true (List.mem_filter.mp hx).2
  rw [List.map_cons, if_pos rfl, hsame, ← side_amend] at h
  exact h

/-- The size at a price without one of the orders. -/
theorem sizeAt_remove (hnd : F.ids.Nodup) (hr : r ∈ F.side s) (px : Int) :
    (F.remove r.id).sizeAt s px = F.sizeAt s px - if r.price = px then r.qty.toUInt64 else 0 := by
  rw [sizeAt_of_perm (remove_perm hnd hr) px, UInt64.add_sub_cancel]

end Flat

namespace Taker

variable {τ : Taker} {stp : Stp} {px : Int}

/-- A walk leaves the taker's own side alone. -/
theorem sizeAt_swept : (τ.swept stp).sizeAt τ.side px = τ.book.sizeAt τ.side px := by
  rw [Flat.sizeAt, Flat.sizeAt, swept, Flat.side_withSide_opp]

theorem sizeAt_after (hpx : τ.limit ≠ px) :
    (τ.after stp).sizeAt τ.side px = τ.book.sizeAt τ.side px := by
  have hprice : (τ.remainder stp).price ≠ px := hpx
  unfold after
  split_ifs
  · rw [Flat.sizeAt_of_perm (Flat.rest_perm _ _ _), sizeAt_swept, if_neg hprice, UInt64.add_zero]
  · exact sizeAt_swept

end Taker

/-! ### Fill-or-kill orders -/

section fok

variable {s : Side} {limit : Int} {qty : Qty}

/-- A sum that reaches `qty` is within reach, whether it has wrapped or not. -/
theorem reach_of_sumReaches (owner : Owner) : ∀ (q : List Resting) (avail : UInt64),
    sumReaches s limit qty avail q = true →
    qty.toNat ≤ avail.toNat + reach .none s limit owner q
  | [], avail, h => by
      rw [sumReaches, decide_eq_true_eq, UInt64.le_iff_toNat_le, UInt32.toNat_toUInt64] at h
      exact h
  | r :: q, avail, h => by
      rw [sumReaches] at h
      cases hc : crosses s r.price limit with
      | false =>
          rw [hc, if_neg Bool.false_ne_true, decide_eq_true_eq, UInt64.le_iff_toNat_le,
            UInt32.toNat_toUInt64] at h
          omega
      | true =>
          have hsum : (avail + r.qty.toUInt64).toNat ≤ avail.toNat + r.qty.toNat := by
            rw [UInt64.toNat_add, UInt32.toNat_toUInt64]
            exact Nat.mod_le _ _
          have ih := reach_of_sumReaches owner q (avail + r.qty.toUInt64)
          rw [hc, if_pos rfl] at h
          rw [reach_take hc NaiveSide.not_own_none]
          simp only at h
          split_ifs at h with hlevel hle
          · have := ih h
            omega
          · rw [UInt64.le_iff_toNat_le, UInt32.toNat_toUInt64] at hle
            omega
          · have := ih h
            omega

/-- An order that passes the check is filled. -/
theorem walk_of_fillable {stp : Stp} (taker : OrderId) {owner : Owner} {q : List Resting}
    (hqty : qty ≠ 0) (h : fillable s limit qty stp owner q = true) :
    (walk stp s taker limit owner q qty).remaining = 0 := by
  rw [walk_remaining_eq_zero]
  have hz : (0 : UInt64).toNat = 0 := rfl
  by_cases hstp : stp = .none
  · subst hstp
    rw [fillable, if_pos rfl] at h
    have := reach_of_sumReaches owner q 0 h
    omega
  · have hpos : 0 < qty.toNat := Nat.pos_of_ne_zero fun h0 => hqty (UInt32.toNat_inj.mp h0)
    rw [fillable, if_neg hstp, othersReach_eq hstp q 0 (by omega), decide_eq_true_iff] at h
    omega

/-- A fill-or-kill order is filled in full or not at all. -/
theorem Flat.fok_whole (c : Config) (F : Flat) (id : OrderId) (px : Int) (owner : Owner) :
    (F.submitLimit c id s px qty .fok owner).2.1.filled = 0 ∨
      (F.submitLimit c id s px qty .fok owner).2.1.filled = qty := by
  unfold submitLimit execute
  split_ifs with hbad hfok
  · exact Or.inl rfl
  · exact Or.inl rfl
  · right
    rw [not_or, not_or] at hbad
    rw [not_and, Bool.not_eq_false] at hfok
    have hrem := walk_of_fillable id hbad.2.1 (hfok rfl)
    simp only [hrem, UInt32.sub_zero, ne_eq, not_true_eq_false, false_and, if_false]
    split_ifs <;> rfl

end fok

theorem Book.Repr.sizeAt {c : Config} {b : OrderBook} {F : Flat} (h : Book.Repr c b F) (s : Side)
    (px : Int) : b.qtyAt s px = F.sizeAt s px := h.qtyAt s px

theorem Stamped.remove {g : Stamps} {F : Flat} (h : Stamped g F) (id : OrderId) :
    Stamped g (F.remove id) := by
  refine h.of_keys fun s => ?_
  rw [Flat.side_remove]
  exact List.filter_sublist.map _

namespace PropertyTest

/-! ### Quantity in is quantity out -/

section settling

variable {p : Params} {t : Test} {k : Incoming} {stop : Bool}

/-- An order of which nothing rests. -/
theorem settle_done (hfilled : k.arrives = false → k.filled = 0) (hbook : onBook p t.book k = 0)
    (hrest : k.rested = false)
    (hall : k.gtc = true → k.arrives = true → stop = false → k.filled = k.qty) :
    Passes (settle p t k stop) fun t' => t' = t := by
  have haccount : Passes (account k stop 0) fun _ => True := by
    unfold account
    split_ifs with hout hstop
    · exact Passes.ensure_last rfl
    · exact Passes.ensure_last (Or.inr rfl)
    · rw [not_or, Bool.not_eq_false, Bool.not_eq_false] at hout
      refine Passes.ensure_last ?_
      rw [hall hout.1 hout.2 (Bool.not_eq_true _ ▸ hstop), UInt64.add_zero]
  unfold settle
  simp only [hbook]
  refine Passes.ensure hfilled (Passes.ensure ?_ (haccount.bind fun _ _ => ?_))
  · simp [hrest]
  · rw [if_neg (by simp [hrest])]
    exact Passes.pure rfl

/-- An order of which `left` rests. -/
theorem settle_rested {left : Qty} (hleft : left ≠ 0) (hbook : onBook p t.book k = left.toUInt64)
    (hrest : k.rested = true) (harrives : k.arrives = true) (hgtc : k.gtc = true)
    (hsum : k.filled.toNat + left.toNat = k.qty.toNat) :
    Passes (settle p t k stop) fun t' => t' = enter t k left := by
  have hpos : 0 < left.toNat := Nat.pos_of_ne_zero fun h0 => hleft (UInt32.toNat_inj.mp h0)
  have hqty := k.qty.toNat_lt
  have htotal : k.filled.toUInt64 + left.toUInt64 = k.qty.toUInt64 := by
    refine UInt64.toNat_inj.mp ?_
    rw [UInt64.toNat_add, UInt32.toNat_toUInt64, UInt32.toNat_toUInt64, UInt32.toNat_toUInt64, hsum]
    omega
  have haccount : Passes (account k stop left.toUInt64) fun _ => True := by
    unfold account
    split_ifs with hout
    · rw [harrives, hgtc] at hout
      simp at hout
    · exact Passes.ensure_last (Or.inl htotal)
    · exact Passes.ensure_last htotal
  unfold settle
  simp only [hbook]
  refine Passes.ensure ?_ (Passes.ensure ?_ (haccount.bind fun _ _ => ?_))
  · rw [harrives]
    intro h
    cases h
  · refine iff_of_true hrest ?_
    rw [UInt64.lt_iff_toNat_lt, UInt32.toNat_toUInt64]
    exact hpos
  · rw [if_pos hrest]
    refine Passes.ensure ?_ (Passes.pure ?_)
    · rw [UInt32.lt_iff_toNat_lt]
      omega
    · rw [UInt32.toUInt32_toUInt64]

end settling

/-! ### After a call -/

/-- The test `t` of which the engine holds the flat book `F`, after `n` operations. -/
structure Agrees (p : Params) (t : Test) (F : Flat) (n : ℕ) : Prop where
  repr : Book.Repr p.config t.book F
  shows : t.model.Shows F
  numbered : ∃ g, t.model.Numbers g ∧ Stamped g F
  arrivals : t.model.arrivals.toNat ≤ n

/-- What the test knows of the order `τ` that a call has sent to match. -/
structure Sent (p : Params) (k : Incoming) (τ : Taker) : Prop extends Matches k τ where
  qty : k.qty = τ.qty
  filled : k.filled = τ.filled p.stp
  rested : k.rested = decide (τ.Rests p.stp)
  gtc : k.gtc = τ.mayRest
  arrives : k.arrives = true
  seq : k.seq = 0
  market : k.market = true → τ.mayRest = false
  px : k.market = false → k.px = τ.limit
  band : k.market = false → p.inBand τ.limit = true
  before : k.market = false → k.before = τ.book.sizeAt τ.side τ.limit

section finishing

variable {p : Params} {t : Test} {k : Incoming} {τ : Taker} {g : Stamps} {n : ℕ}

/-- Nothing has happened. -/
theorem finish_idle (hfilled : k.filled = 0) (hbook : onBook p t.book k = 0)
    (hrest : k.rested = false) (hout : k.gtc = false ∨ k.arrives = false) :
    Passes (finish p t [] k) fun t' => t' = t := by
  unfold finish
  refine Passes.bind (P := fun x => x = (t, 0)) (Passes.pure rfl) ?_
  rintro _ rfl
  refine Passes.ensure ?_ (settle_done (fun _ => hfilled) hbook hrest fun hgtc harr _ => ?_)
  · rw [hfilled]
    rfl
  · rw [hgtc, harr] at hout
    simp at hout

theorem Sent.not_market (hk : Sent p k τ) (hmay : τ.mayRest = true) : k.market = false := by
  rw [← Bool.not_eq_true]
  intro h
  rw [hk.market h] at hmay
  cases hmay

/-- The test sees that the engine may have stopped the order. -/
theorem stopPossible_of_stopped (hk : Sent p k τ) (hnd : τ.book.ids.Nodup)
    (hshow : t.model.Shows τ.book) (hgtc : k.gtc = true)
    (hstop : (τ.walk p.stp).stopped = true) : stopPossible p t.model k = true := by
  have hmarket := hk.not_market (hk.gtc ▸ hgtc)
  obtain ⟨hstp, r, hr, hown, hcross⟩ := walk_stopped _ _ hstop
  obtain ⟨r₀, hr₀, hid, hpx, howner⟩ :=
    mem_of_keys (walk_keys _ _).sublist (List.mem_of_mem_head? hr)
  obtain ⟨seq, ho⟩ := hshow.lookup hnd hr₀
  have hmem := AList.mem_lookup_iff.mp ho
  unfold stopPossible
  rw [hgtc, hk.owner, hk.side, hk.px hmarket]
  simp only [hstp, Bool.true_and, Bool.and_eq_true, decide_eq_true_eq, List.any_eq_true]
  refine ⟨⟨trivial, hown.2.1⟩, _, hmem, ⟨Side.opp_ne _, ?_⟩, ?_⟩
  · rw [howner]
    exact hown.2.2
  · rw [hpx]
    exact hcross

/-- What the test finds on the book of an order that rests in part. -/
theorem onBook_rested (hk : Sent p k τ) (hrepr : Book.Repr p.config t.book (τ.after p.stp))
    (hrest : τ.Rests p.stp) :
    onBook p t.book k = (τ.walk p.stp).remaining.toUInt64 := by
  have hmarket := hk.not_market hrest.2.2
  have hpx := hk.px hmarket
  have hperm := Flat.rest_perm (τ.swept p.stp) τ.side (τ.remainder p.stp)
  have hprice : (τ.remainder p.stp).price = τ.limit := rfl
  rw [onBook, if_neg (by simp [hmarket, hpx, hk.band hmarket]), hk.side, hpx, hrepr.sizeAt,
    Taker.after, if_pos hrest, Flat.sizeAt_of_perm hperm, Taker.sizeAt_swept, hk.before hmarket, if_pos hprice,
    UInt64.add_comm, UInt64.add_sub_cancel]
  rfl

theorem onBook_same {b : OrderBook} (hsame : b.qtyAt k.side k.px = k.before) :
    onBook p b k = 0 := by
  unfold onBook
  split_ifs
  · rfl
  · rw [hsame, UInt64.sub_self]

theorem onBook_swept (hk : Sent p k τ) (hrepr : Book.Repr p.config t.book (τ.swept p.stp)) :
    onBook p t.book k = 0 := by
  unfold onBook
  split_ifs with hout
  · rfl
  · rw [not_or, Bool.not_eq_true] at hout
    rw [hk.side, hk.px hout.1, hrepr.sizeAt, Taker.sizeAt_swept, hk.before hout.1, UInt64.sub_self]

/-- What is left of a sent order enters the model under the next number. -/
theorem enter_next (hk : Sent p k τ) (hmarket : k.market = false)
    (hshow : t.model.Shows (τ.swept p.stp)) (hnum : t.model.Numbers g) (hst : Stamped g (τ.swept p.stp)) (hwf : (τ.swept p.stp).WF p.config)
    (hnew : τ.id ∉ (τ.swept p.stp).ids) (hsmall : t.model.arrivals.toNat + 1 < 2 ^ 64) :
    let t' := enter t k (τ.walk p.stp).remaining
    t'.model.Shows ((τ.swept p.stp).rest τ.side (τ.remainder p.stp)) ∧
      (∃ g', t'.model.Numbers g' ∧
        Stamped g' ((τ.swept p.stp).rest τ.side (τ.remainder p.stp))) ∧
      t'.model.arrivals.toNat = t.model.arrivals.toNat + 1 := by
  intro t'
  have hone : (t.model.arrivals + 1).toNat = t.model.arrivals.toNat + 1 := by
    rw [UInt64.toNat_add]
    exact Nat.mod_eq_of_lt hsmall
  have heq : t' = { t with
      model := { t.model with arrivals := t.model.arrivals + 1 }.put τ.id
        ⟨τ.side, τ.limit, (τ.walk p.stp).remaining, τ.owner, t.model.arrivals + 1⟩ } := by
    show enter t k _ = _
    simp only [enter, hk.seq, ne_eq, not_true_eq_false, if_false, hk.id, hk.side, hk.owner,
      hk.px hmarket]
  rw [heq]
  refine ⟨?_, ⟨_, ?_, hst.join hwf hnew⟩, hone⟩
  · have hnd : ((τ.swept p.stp).rest τ.side (τ.remainder p.stp)).ids.Nodup :=
      Flat.nodup_ids_rest.mpr ⟨hnew, hwf.nodup⟩
    exact Model.Shows.rest (m := { t.model with arrivals := t.model.arrivals + 1 }) hshow hnd _
  · exact hnum.next hone

/-- **After a call that sends an order to match, no check fails.** -/
theorem finish_sent (hk : Sent p k τ) (hwf : τ.book.WF p.config) (hnew : τ.id ∉ τ.book.ids)
    (hrepr : Book.Repr p.config t.book (τ.after p.stp)) (hshow : t.model.Shows τ.book)
    (hnum : t.model.Numbers g) (hst : Stamped g τ.book)
    (harr : t.model.arrivals.toNat ≤ n) (hsmall : n + 1 < 2 ^ 64) :
    Passes (finish p t (τ.walk p.stp).tape k) fun t' => t'.book = t.book ∧
      Agrees p t' (τ.after p.stp) (n + 1) := by
  have hfilled := τ.filled_add p.stp
  unfold finish
  refine (readTape_passes hwf hk.toMatches hst hshow hnum).bind ?_
  rintro ⟨t', sum⟩ ⟨hbook, hshow', hnum', hsum⟩
  have harrivals : t'.model.arrivals.toNat = t.model.arrivals.toNat :=
    Nat.succ.inj (hnum'.clock.symm.trans hnum.clock)
  have hst' : Stamped g (τ.swept p.stp) := by
    rw [Taker.swept_eq hwf.nodup]
    refine hst.of_keys fun s => ?_
    rw [Flat.side_replay]
    exact keys_replay _ _
  refine Passes.ensure ?_ ?_
  · have htraded : traded (τ.walk p.stp).tape + (τ.walk p.stp).remaining.toNat = τ.qty.toNat :=
      walk_traded _ _
    have heq : traded (τ.walk p.stp).tape = (τ.filled p.stp).toNat := by omega
    rw [hk.filled, ← UInt64.ofNat_uInt32ToNat, ← heq]
    exact hsum
  by_cases hrest : τ.Rests p.stp
  · have hb : onBook p t'.book k = (τ.walk p.stp).remaining.toUInt64 :=
      onBook_rested hk (hbook ▸ hrepr) hrest
    refine (settle_rested hrest.2.1 hb ?_ hk.arrives ?_ ?_).mono ?_
    · rw [hk.rested]
      exact decide_eq_true hrest
    · rw [hk.gtc]
      exact hrest.2.2
    · rw [hk.filled, hk.qty]
      exact hfilled
    · rintro _ rfl
      obtain ⟨hshow'', hnum'', hnext⟩ := enter_next (t := t') hk (hk.not_market hrest.2.2) hshow'
        hnum' hst' (Taker.swept_wf hwf) (Taker.not_mem_swept hnew) (by omega)
      have hafter : τ.after p.stp = (τ.swept p.stp).rest τ.side (τ.remainder p.stp) := if_pos hrest
      rw [← hafter] at hshow'' hnum''
      exact ⟨hbook, ⟨hbook.symm ▸ hrepr, hshow'', hnum'', by omega⟩⟩
  · have hafter : τ.after p.stp = τ.swept p.stp := if_neg hrest
    rw [hafter] at hrepr ⊢
    have hb : onBook p t'.book k = 0 := onBook_swept hk (hbook ▸ hrepr)
    refine (settle_done ?_ hb ?_ ?_).mono ?_
    · rw [hk.arrives]
      intro h
      cases h
    · rw [hk.rested]
      exact decide_eq_false hrest
    · intro hgtc _ hstop
      have hgo : ¬ (τ.walk p.stp).stopped = true := fun h => by
        rw [stopPossible_of_stopped hk hwf.nodup hshow hgtc h] at hstop
        cases hstop
      have hrem : (τ.walk p.stp).remaining = 0 := by
        by_contra hrem
        exact hrest ⟨Bool.not_eq_true _ ▸ hgo, hrem, hk.gtc ▸ hgtc⟩
      rw [hk.filled, hk.qty, Taker.filled, hrem, UInt32.sub_zero]
    · rintro _ rfl
      exact ⟨hbook, ⟨hbook.symm ▸ hrepr, hshow', ⟨g, hnum', hst'⟩, by omega⟩⟩

end finishing

/-! ### The steps -/

section steps

variable {p : Params} {t : Test} {F : Flat} {n : ℕ} {op : Op}

theorem Agrees.idle (h : Agrees p t F n) {t' : Test} (hbook : Book.Repr p.config t'.book F)
    (hmodel : t'.model = t.model) : Agrees p t' F (n + 1) :=
  ⟨hbook, hmodel ▸ h.shows, hmodel ▸ h.numbered, hmodel ▸ Nat.le_succ_of_le h.arrivals⟩

theorem Agrees.qtyAt_eq (h : Agrees p t F n) {book : OrderBook} (hrepr : Book.Repr p.config book F)
    (s : Side) (px : Int) : book.qtyAt s px = t.book.qtyAt s px :=
  (hrepr.sizeAt s px).trans (h.repr.sizeAt s px).symm

theorem Agrees.finish_refused (h : Agrees p t F n) {book : OrderBook} {cov : Coverage} {k : Incoming}
    (hrepr : Book.Repr p.config book F) (hbook : onBook p book k = 0)
    (hfilled : k.filled = 0) (hrest : k.rested = false)
    (hout : k.gtc = false ∨ k.arrives = false) :
    Passes (finish p ⟨book, t.model, cov⟩ [] k) fun t' =>
      t'.book = book ∧ Agrees p t' F (n + 1) := by
  refine (finish_idle (t := ⟨book, t.model, cov⟩) hfilled hbook hrest hout).mono ?_
  rintro _ rfl
  exact ⟨rfl, h.idle hrepr rfl⟩

theorem stepCancel_passes (h : Agrees p t F n) (id : OrderId) :
    Passes (stepCancel t id) fun t' => t'.book = (t.book.cancel id).1 ∧
      Agrees p t' (F.cancel id).1 (n + 1) := by
  obtain ⟨hans, hrepr⟩ := h.repr.cancel id
  have hnd := h.repr.wf.nodup
  unfold stepCancel
  generalize t.book.cancel id = x at hans hrepr ⊢
  obtain ⟨book, ok⟩ := x
  cases ho : t.model.orders.lookup id with
  | none =>
      have hflat : F.cancel id = (F, false) := if_neg (h.shows.lookup_eq_none.mp ho)
      rw [hflat] at hans hrepr ⊢
      cases hans
      exact Passes.ensure rfl (Passes.pure ⟨rfl, h.idle hrepr rfl⟩)
  | some o =>
      have hr := h.shows.mem ho
      have hflat : F.cancel id = (F.remove id, true) := if_pos (Flat.mem_ids_of_mem hr)
      rw [hflat] at hans hrepr ⊢
      cases hans
      have hsize := Flat.sizeAt_of_perm (Flat.remove_perm hnd hr) o.px
      rw [if_pos rfl] at hsize
      obtain ⟨g, hnum, hst⟩ := h.numbered
      refine Passes.ensure rfl (Passes.ensure ?_ (Passes.pure ⟨rfl, ?_⟩))
      · rw [h.repr.sizeAt, hrepr.sizeAt, hsize, UInt64.add_comm, UInt64.add_sub_cancel]
      · exact ⟨hrepr, h.shows.remove hnd id, ⟨g, hnum.erase id, hst.remove id⟩,
          Nat.le_succ_of_le h.arrivals⟩

/-- A limit order that the engine rejects for its quantity or its price. -/
theorem submitLimit_bad {id : OrderId} {s : Side} {px : Int} {qty : Qty} {tif : Tif} {owner : Owner}
    (hbad : ¬ (qty ≠ 0 ∧ p.inBand px = true)) : F.submitLimit p.config id s px qty tif owner =
      (F, { filled := 0, rested := false, rejected := true }, []) := by
  rw [not_and_or, not_not, Bool.not_eq_true] at hbad
  refine if_pos (Or.inr ?_)
  rcases hbad with hqty | hpx
  · exact Or.inl hqty
  · exact Or.inr (Or.inl hpx)

theorem stepLimit_passes (h : Agrees p t F n) (hsmall : n + 1 < 2 ^ 64) {id : OrderId} (s : Side)
    (px : Int) (qty : Qty) (tif : Tif) (owner : Owner) (hid : id ≠ 0) (hnew : id ∉ F.ids) :
    Passes (stepLimit p t id s px qty tif owner) fun t' =>
      t'.book = (t.book.submitLimit id s px qty tif owner).1 ∧
        Agrees p t' (F.submitLimit p.config id s px qty tif owner).1 (n + 1) := by
  obtain ⟨hans, hrepr⟩ := h.repr.submitLimit id s px qty tif owner
  have hwhole : tif = .fok → (F.submitLimit p.config id s px qty tif owner).2.1.filled = 0 ∨
      (F.submitLimit p.config id s px qty tif owner).2.1.filled = qty := by
    rintro rfl
    exact Flat.fok_whole p.config F id px owner
  unfold stepLimit
  generalize t.book.submitLimit id s px qty tif owner = x at hans hrepr ⊢
  obtain ⟨book, r, tape⟩ := x
  rw [← hans] at hwhole
  by_cases harr : qty ≠ 0 ∧ p.inBand px = true
  · have harrives : (decide (qty ≠ 0) && p.inBand px) = true := by simp [harr]
    have hsend : F.submitLimit p.config id s px qty tif owner =
        F.execute p.config s id px qty tif owner :=
      if_neg (by simp [hid, hnew, harr.1, show p.config.inBand px = true from harr.2])
    rw [hsend] at hans hrepr ⊢
    rcases F.execute_cases p.config s id px qty tif owner with ⟨⟨rfl, -⟩, heq⟩ | heq
    · rw [heq] at hans hrepr ⊢
      cases hans
      refine Passes.ensure (fun _ => rfl) (Passes.ensure (fun _ => rfl) (Passes.ensure ?_
        (Passes.ensure hwhole ?_)))
      · exact fun hrest => Bool.noConfusion hrest
      · exact h.finish_refused hrepr (onBook_same (h.qtyAt_eq hrepr s px)) rfl rfl (Or.inl rfl)
    · rw [heq] at hans hrepr ⊢
      cases hans
      obtain ⟨g, hnum, hst⟩ := h.numbered
      refine Passes.ensure ?_ (Passes.ensure ?_ (Passes.ensure ?_ (Passes.ensure hwhole ?_)))
      · rw [harrives]
        exact fun hno => Bool.noConfusion hno
      · exact fun hrej => (of_decide_eq_true hrej).2
      · exact fun hrest => of_decide_eq_true (of_decide_eq_true hrest).2.2
      · refine finish_sent (τ := ⟨F, s, id, px, qty, owner, decide (tif = .gtc)⟩) ?_ h.repr.wf hnew
          hrepr h.shows hnum hst h.arrivals hsmall
        exact
          { id := rfl, side := rfl, owner := rfl, qty := rfl, filled := rfl, rested := rfl
            gtc := rfl
            arrives := harrives
            seq := rfl
            market := fun hno => Bool.noConfusion hno
            px := fun _ => rfl
            band := fun _ => harr.2
            before := fun _ => h.repr.sizeAt s px }
  · have harrives : (decide (qty ≠ 0) && p.inBand px) = false := by
      rw [← Bool.not_eq_true, Bool.and_eq_true, decide_eq_true_eq]
      exact harr
    rw [submitLimit_bad harr] at hans hrepr ⊢
    cases hans
    refine Passes.ensure (fun _ => rfl) (Passes.ensure (fun _ => rfl) (Passes.ensure ?_
      (Passes.ensure hwhole ?_)))
    · exact fun hrest => Bool.noConfusion hrest
    · exact h.finish_refused hrepr (onBook_same (h.qtyAt_eq hrepr s px)) rfl rfl (Or.inr harrives)

theorem stepMarket_passes (h : Agrees p t F n) (hsmall : n + 1 < 2 ^ 64) {id : OrderId} (s : Side)
    (qty : Qty) (owner : Owner) (hid : id ≠ 0) (hnew : id ∉ F.ids) :
    Passes (stepMarket p t id s qty owner) fun t' =>
      t'.book = (t.book.submitMarket id s qty owner).1 ∧
        Agrees p t' (F.submitMarket p.config id s qty owner).1 (n + 1) := by
  obtain ⟨hans, hrepr⟩ := h.repr.submitMarket id s qty owner
  unfold stepMarket
  generalize t.book.submitMarket id s qty owner = x at hans hrepr ⊢
  obtain ⟨book, filled, tape⟩ := x
  have hrefused : F.submitMarket p.config id s qty owner = (F, 0, []) →
      Passes (finish p { t with book } tape
        { id, market := true, side := s, owner, px := 0, qty, filled, rested := false, gtc := false,
          arrives := decide (qty ≠ 0) }) fun t' => t'.book = book ∧
        Agrees p t' (F.submitMarket p.config id s qty owner).1 (n + 1) := by
    intro heq
    rw [heq] at hans hrepr ⊢
    cases hans
    exact h.finish_refused hrepr (if_pos (Or.inl rfl)) rfl rfl (Or.inl rfl)
  by_cases hqty : qty = 0
  · exact hrefused (if_pos (Or.inr (Or.inl hqty)))
  have hgo : ¬ (id = 0 ∨ qty = 0 ∨ id ∈ F.ids) := by simp [hid, hqty, hnew]
  cases hlimit : F.marketLimit p.config s with
  | none => exact hrefused (by rw [Flat.submitMarket, if_neg hgo, hlimit])
  | some limit =>
      have heq : F.submitMarket p.config id s qty owner =
          let τ : Taker := ⟨F, s, id, limit, qty, owner, false⟩
          (τ.after p.stp, τ.filled p.stp, (τ.walk p.stp).tape) := by
        rw [Flat.submitMarket, if_neg hgo, hlimit]
        simp [Taker.after, Taker.Rests, Taker.swept, Taker.filled, Taker.walk, Params.config]
      rw [heq] at hans hrepr ⊢
      cases hans
      obtain ⟨g, hnum, hst⟩ := h.numbered
      refine finish_sent (τ := ⟨F, s, id, limit, qty, owner, false⟩) ?_ h.repr.wf hnew hrepr h.shows
        hnum hst h.arrivals hsmall
      exact
        { id := rfl, side := rfl, owner := rfl, qty := rfl, filled := rfl, gtc := rfl
          rested := (decide_eq_false fun hrest => Bool.false_ne_true hrest.2.2).symm
          arrives := decide_eq_true hqty
          seq := rfl
          market := fun _ => rfl
          px := fun hno => Bool.noConfusion hno
          band := fun hno => Bool.noConfusion hno
          before := fun hno => Bool.noConfusion hno }

/-- An order that is amended in place keeps its number. -/
theorem Agrees.finish_amended (h : Agrees p t F n) {o : Kept} {book : OrderBook} {cov : Coverage}
    {k : Incoming} (ho : t.model.orders.lookup k.id = some o) (hqty : k.qty ≠ 0)
    (hrepr : Book.Repr p.config book (F.amend k.id k.qty)) (hmarket : k.market = false)
    (hside : k.side = o.side) (howner : k.owner = o.owner) (hpx : k.px = o.px)
    (hband : p.inBand k.px = true) (hfilled : k.filled = 0) (hrested : k.rested = true)
    (hgtc : k.gtc = true) (harrives : k.arrives = true) (hseq : k.seq = o.seq)
    (hbefore : k.before = t.book.qtyAt o.side o.px - o.qty.toUInt64) :
    Passes (finish p ⟨book, t.model.erase k.id, cov⟩ [] k) fun t' =>
      t'.book = book ∧ Agrees p t' (F.amend k.id k.qty) (n + 1) := by
  obtain ⟨g, hnum, hst⟩ := h.numbered
  have hnd := h.repr.wf.nodup
  have hr := h.shows.mem ho
  have hpos := hnum.pos k.id o ho
  have hbook : onBook p book k = k.qty.toUInt64 := by
    have hold := Flat.sizeAt_of_perm (Flat.remove_perm hnd hr) o.px
    have hnew := Flat.sizeAt_of_perm (Flat.amend_perm hnd hr k.qty) o.px
    rw [if_pos rfl] at hold hnew
    rw [onBook, if_neg (by simp [hmarket, hband]), hbefore, hside, hpx, hrepr.sizeAt, hnew,
      h.repr.sizeAt, hold, UInt64.add_sub_cancel, UInt64.add_comm, UInt64.add_sub_cancel]
  have hsum : k.filled.toNat + k.qty.toNat = k.qty.toNat := by
    rw [hfilled]
    exact Nat.zero_add _
  have hzero : (0 : UInt64) = k.filled.toUInt64 := by
    rw [hfilled]
    rfl
  have henter : enter ⟨book, t.model.erase k.id, cov⟩ k k.qty =
      ⟨book, (t.model.erase k.id).put k.id ⟨o.side, o.px, k.qty, o.owner, o.seq⟩, cov⟩ := by
    simp only [enter, hseq, hpos, hside, hpx, howner, ne_eq, not_false_eq_true, if_true]
  unfold finish
  refine Passes.bind (P := fun x => x = (⟨book, t.model.erase k.id, cov⟩, 0)) (Passes.pure rfl) ?_
  rintro _ rfl
  refine Passes.ensure hzero ((settle_rested (t := ⟨book, t.model.erase k.id, cov⟩) hqty hbook
    hrested harrives hgtc hsum).mono ?_)
  rintro _ rfl
  rw [henter]
  refine ⟨rfl, hrepr, fun id => ?_, ⟨g, ?_, ?_⟩, Nat.le_succ_of_le h.arrivals⟩
  · rw [Model.flat?_put, Flat.find?_amend hnd, ← h.shows id, Model.flat?_erase]
    by_cases hid : id = k.id
    · have hflat : t.model.flat? id = some (o.flat id) := by
        rw [hid, Model.flat?, ho]
        rfl
      rw [if_pos hid, hflat, Option.map_some, hid]
      exact congrArg some (congrArg (Prod.mk o.side) (if_pos rfl).symm)
    · rw [if_neg hid, if_neg hid]
      cases hf : t.model.flat? id with
      | none => rfl
      | some x =>
          obtain ⟨o', -, rfl⟩ := Option.map_eq_some_iff.mp hf
          exact congrArg some (congrArg (Prod.mk o'.side) (if_neg hid).symm)
  · exact (hnum.erase k.id).put (hnum.stamp k.id o ho) hpos
  · refine hst.of_keys fun s => ?_
    rw [Flat.side_amend, keys_amend]

theorem modify_bad {s : Side} {r : Resting} {px : Int} {qty : Qty} {id : OrderId}
    (hfind : F.find? id = some (s, r)) (hbad : ¬ (qty ≠ 0 ∧ p.inBand px = true)) :
    F.modify p.config id px qty =
      (F, { ok := false, filled := 0, rested := false, found := true }, []) := by
  rw [not_and_or, not_not, Bool.not_eq_true] at hbad
  rw [Flat.modify, hfind]
  exact if_pos hbad

theorem modify_amend {s : Side} {r : Resting} {px : Int} {qty : Qty} {id : OrderId}
    (hfind : F.find? id = some (s, r)) (hgo : qty ≠ 0 ∧ p.inBand px = true)
    (hsame : px = r.price ∧ qty ≤ r.qty) : F.modify p.config id px qty =
      (F.amend id qty, { ok := true, filled := 0, rested := true, found := true }, []) := by
  have hbad : ¬ (qty = 0 ∨ p.config.inBand px = false) := by
    simp [hgo.1, show p.config.inBand px = true from hgo.2]
  rw [Flat.modify, hfind]
  simp only [if_neg hbad, if_pos hsame]

/-- A modify that gives up its place sends the order to match again. -/
theorem modify_move {s : Side} {r : Resting} {px : Int} {qty : Qty} {id : OrderId}
    (hfind : F.find? id = some (s, r)) (hgo : qty ≠ 0 ∧ p.inBand px = true)
    (hmove : ¬ (px = r.price ∧ qty ≤ r.qty)) :
    let τ : Taker := ⟨F.remove id, s, id, px, qty, r.owner, true⟩
    F.modify p.config id px qty = (τ.after p.stp,
      { ok := true, filled := τ.filled p.stp, rested := decide (τ.Rests p.stp), found := true },
      (τ.walk p.stp).tape) := by
  intro τ
  have hbad : ¬ (qty = 0 ∨ p.config.inBand px = false) := by
    simp [hgo.1, show p.config.inBand px = true from hgo.2]
  rw [Flat.modify, hfind]
  simp only [if_neg hbad, if_neg hmove]
  rcases (F.remove id).execute_cases p.config s id px qty .gtc r.owner with ⟨⟨hfok, -⟩, -⟩ | heq
  · cases hfok
  · rw [heq]
    rfl

/-- An order that gives up its place matches again, as if it had just arrived. -/
theorem Agrees.finish_moved (h : Agrees p t F n) (hsmall : n + 1 < 2 ^ 64) {id : OrderId} {o : Kept}
    (ho : t.model.orders.lookup id = some o) (px : Int) (qty : Qty) (hband : p.inBand px = true)
    {book : OrderBook} {cov : Coverage} :
    let τ : Taker := ⟨F.remove id, o.side, id, px, qty, o.owner, true⟩
    Book.Repr p.config book (τ.after p.stp) →
    Passes (finish p ⟨book, t.model.erase id, cov⟩ (τ.walk p.stp).tape
      { id, market := false, side := o.side, owner := o.owner, px, qty, filled := τ.filled p.stp
        rested := decide (τ.Rests p.stp), gtc := true, arrives := true
        before := t.book.qtyAt o.side px - if o.px = px then o.qty.toUInt64 else 0 }) fun t' =>
      t'.book = book ∧ Agrees p t' (τ.after p.stp) (n + 1) := by
  intro τ hrepr
  have hwf := h.repr.wf
  have hr := h.shows.mem ho
  obtain ⟨g, hnum, hst⟩ := h.numbered
  refine finish_sent (t := ⟨book, t.model.erase id, cov⟩) (τ := τ) ?_ (hwf.remove id)
    Flat.not_mem_ids_remove hrepr (h.shows.remove hwf.nodup id) (hnum.erase id) (hst.remove id)
    h.arrivals hsmall
  exact
    { id := rfl, side := rfl, owner := rfl, qty := rfl, filled := rfl, rested := rfl, gtc := rfl
      arrives := rfl
      seq := rfl
      market := fun hno => Bool.noConfusion hno
      px := fun _ => rfl
      band := fun _ => hband
      before := fun _ => by
        rw [h.repr.sizeAt]
        exact (Flat.sizeAt_remove hwf.nodup hr px).symm }

theorem stepModify_passes (h : Agrees p t F n) (hsmall : n + 1 < 2 ^ 64) (id : OrderId) (px : Int)
    (qty : Qty) :
    Passes (stepModify p t id px qty) fun t' => t'.book = (t.book.modify id px qty).1 ∧
      Agrees p t' (F.modify p.config id px qty).1 (n + 1) := by
  obtain ⟨hans', hrepr⟩ := h.repr.call (.modify id px qty)
  obtain ⟨hreply, htape⟩ := Prod.mk.inj hans'
  have hans : (t.book.modify id px qty).2 = (F.modify p.config id px qty).2 :=
    Prod.ext (Reply.modify.inj hreply) htape
  replace hrepr : Book.Repr p.config (t.book.modify id px qty).1 (F.modify p.config id px qty).1 :=
    hrepr
  clear hreply htape hans'
  have hwf := h.repr.wf
  unfold stepModify
  generalize t.book.modify id px qty = x at hans hrepr ⊢
  obtain ⟨book, r, tape⟩ := x
  cases ho : t.model.orders.lookup id with
  | none =>
      have hflat : F.modify p.config id px qty =
          (F, { ok := false, filled := 0, rested := false, found := false }, []) := by
        rw [Flat.modify, Flat.find?_eq_none.mpr (h.shows.lookup_eq_none.mp ho)]
      rw [hflat] at hans hrepr ⊢
      cases hans
      exact Passes.ensure rfl (Passes.ensure rfl (Passes.ensure rfl
        (Passes.pure ⟨rfl, h.idle hrepr rfl⟩)))
  | some o =>
      have hr := h.shows.mem ho
      have hfind : F.find? id = some (o.side, ⟨id, o.px, o.qty, o.owner⟩) :=
        (Flat.find?_iff hwf.nodup).mpr ⟨hr, rfl⟩
      by_cases hgo : qty ≠ 0 ∧ p.inBand px = true
      · have harrives : (decide (qty ≠ 0) && p.inBand px) = true := by simp [hgo]
        by_cases hsame : px = o.px ∧ qty ≤ o.qty
        · rw [modify_amend hfind hgo hsame] at hans hrepr ⊢
          obtain ⟨rfl, hle⟩ := hsame
          cases hans
          refine Passes.ensure rfl (Passes.ensure harrives.symm ?_)
          rw [if_neg Bool.false_ne_true.symm]
          refine Passes.ensure (fun hne => absurd rfl hne) ?_
          rw [if_pos rfl, if_pos ⟨rfl, hle⟩]
          exact h.finish_amended ho hgo.1 hrepr rfl rfl rfl rfl hgo.2 rfl rfl rfl rfl rfl rfl
        · rw [modify_move hfind hgo hsame] at hans hrepr ⊢
          cases hans
          have hseq : ¬ (o.px = px ∧ qty ≤ o.qty) := fun hs => hsame ⟨hs.1.symm, hs.2⟩
          refine Passes.ensure rfl (Passes.ensure harrives.symm ?_)
          rw [if_neg Bool.false_ne_true.symm]
          refine Passes.ensure (fun hne => ?_) ?_
          · have hafter : (Taker.after ⟨F.remove id, o.side, id, px, qty, o.owner, true⟩ p.stp).sizeAt
                o.side o.px = (F.remove id).sizeAt o.side o.px := Taker.sizeAt_after (Ne.symm hne)
            have hold := Flat.sizeAt_of_perm (Flat.remove_perm hwf.nodup hr) o.px
            rw [if_pos rfl] at hold
            rw [h.repr.sizeAt, hrepr.sizeAt, hafter, hold, UInt64.add_comm, UInt64.add_sub_cancel]
          · rw [if_neg hseq]
            exact h.finish_moved hsmall ho px qty hgo.2 hrepr
      · have harrives : (decide (qty ≠ 0) && p.inBand px) = false := by
          rw [← Bool.not_eq_true, Bool.and_eq_true, decide_eq_true_eq]
          exact hgo
        rw [modify_bad hfind hgo] at hans hrepr ⊢
        cases hans
        refine Passes.ensure rfl (Passes.ensure harrives.symm ?_)
        rw [if_pos rfl]
        exact Passes.ensure rfl (Passes.pure ⟨rfl, h.idle hrepr rfl⟩)

end steps

end PropertyTest

end Lob
