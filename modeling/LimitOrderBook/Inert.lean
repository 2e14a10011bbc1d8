import LimitOrderBook.FillOrKill
import LimitOrderBook.SelfTrade

/-! # Self-trade prevention without self-trades

A taker that trades with no order of its own owner does the same walk under every policy
(`walk_inert`), and its fill-or-kill check gives the same answer although it is another loop.  So a
run without self-trades is the same run under every policy, and so is a single order of owner `0`
(`OrderBook.stp_inert`). -/

namespace Lob

open KeyedQueue

section walk

variable {x : Stp} {s : Side} {taker : OrderId} {limit : Int} {owner : Owner}

/-- **A walk whose makers are not own orders is the walk without prevention.** -/
theorem walk_inert : ∀ (q : List Resting) (n : Qty),
    (∀ e ∈ (walk .none s taker limit owner q n).tape, ∀ r ∈ q, r.id = e.maker →
      ¬ r.Own x owner) →
    walk x s taker limit owner q n = walk .none s taker limit owner q n
  | [], _, _ => rfl
  | r :: q, n, h => by
      by_cases hend : n = 0 ∨ crosses s r.price limit = false
      · rw [walk_stop hend, walk_stop hend]
      -- without prevention the order at the front trades, so it is not an own one
      have hnone : ¬ r.Own .none owner := NaiveSide.not_own_none
      rcases Nat.lt_or_ge n.toNat r.qty.toNat with hlt | hle
      · rw [walk_part hend hnone hlt] at h ⊢
        have ho : ¬ r.Own x owner := h _ List.mem_cons_self r List.mem_cons_self rfl
        exact walk_part hend ho hlt
      · rw [walk_full hend hnone hle] at h ⊢
        have ho : ¬ r.Own x owner := h _ List.mem_cons_self r List.mem_cons_self rfl
        rw [walk_full hend ho hle, walk_inert q (n - r.qty) fun e he r' hr' => ?_]
        exact h e (List.mem_cons_of_mem _ he) r' (List.mem_cons_of_mem _ hr')

/-- Prevention only takes quantity out of reach. -/
theorem reach_le_none : ∀ q : List Resting, reach x s limit owner q ≤ reach .none s limit owner q
  | [] => Nat.le_refl 0
  | r :: q => by
      have ih := reach_le_none q
      cases hc : crosses s r.price limit with
      | false =>
          rw [reach_far hc]
          exact Nat.zero_le _
      | true =>
          rw [reach_take hc NaiveSide.not_own_none]
          by_cases ho : r.Own x owner
          · by_cases hs : x = .rejectIncoming
            · rw [reach_block ho hs]
              exact Nat.zero_le _
            · rw [reach_skip hc ho hs]
              omega
          · rw [reach_take hc ho]
            omega

end walk

namespace Flat

variable {c : Config} {F : Flat} {x : Stp} {id : OrderId} {s : Side} {px : Int} {qty : Qty}
  {tif : Tif} {owner : Owner}

theorem execute_inert (hc : c.stp = .none) (hqty : qty ≠ 0)
    (hlen : (F.side s.opp).length < 2 ^ 32)
    (h : ∀ e ∈ (F.execute c s id px qty tif owner).2.2, ∀ r ∈ F.side s.opp, r.id = e.maker →
      ¬ r.Own x owner) :
    F.execute { c with stp := x } s id px qty tif owner = F.execute c s id px qty tif owner := by
  have hfill : fillable s px qty x owner (F.side s.opp) = true →
      fillable s px qty .none owner (F.side s.opp) = true := fun hx =>
    (fillable_iff hqty hlen).mpr (((fillable_iff hqty hlen).mp hx).trans (reach_le_none _))
  by_cases hkill : tif = .fok ∧ fillable s px qty .none owner (F.side s.opp) = false
  · have hkill' : tif = .fok ∧ fillable s px qty x owner (F.side s.opp) = false := by
      refine ⟨hkill.1, Bool.eq_false_iff.mpr fun hx => ?_⟩
      rw [hfill hx] at hkill
      cases hkill.2
    rw [execute, execute, hc, if_pos hkill, if_pos hkill']
  · have htape : (F.execute c s id px qty tif owner).2.2 =
        (Lob.walk .none s id px owner (F.side s.opp) qty).tape := by
      rw [execute, hc, if_neg hkill]
      simp only
      split_ifs <;> rfl
    rw [htape] at h
    have hwalk := walk_inert (F.side s.opp) qty h
    have hkill' : ¬ (tif = .fok ∧ fillable s px qty x owner (F.side s.opp) = false) := by
      rintro ⟨htif, hx⟩
      refine hkill ⟨htif, Bool.eq_false_iff.mpr fun hn => ?_⟩
      rw [fillable_iff_walk hqty hlen, ← hwalk, ← fillable_iff_walk hqty hlen, hx] at hn
      cases hn
    rw [execute, execute, hc, if_neg hkill, if_neg hkill', hwalk]

/-- **A call that trades with no own order is the same call under every policy.** -/
theorem call_inert (hc : c.stp = .none) (hlen : ∀ s, (F.side s).length < 2 ^ 32) {op : Op}
    (h : ∀ t, F.Sends c op t → ∀ e ∈ (F.call c op).2.2, ∀ r ∈ F.side t.side.opp,
      r.id = e.maker → ¬ r.Own x t.owner) :
    F.call { c with stp := x } op = F.call c op := by
  cases op with
  | submitLimit id s px qty tif owner =>
      by_cases hbad : id = 0 ∨ qty = 0 ∨ c.inBand px = false ∨ id ∈ F.ids
      · simp only [call, submitLimit, if_pos hbad]
      · have hsend := h ⟨F, s, id, px, qty, owner, decide (tif = .gtc)⟩
        simp only [call, submitLimit, if_neg hbad] at hsend ⊢
        simp only [not_or, Bool.not_eq_false] at hbad
        obtain ⟨hid, hqty, hpx, hnew⟩ := hbad
        rw [execute_inert hc hqty (hlen s.opp) (hsend (.limit hid hqty hpx hnew))]
  | submitMarket id s qty owner =>
      by_cases hbad : id = 0 ∨ qty = 0 ∨ id ∈ F.ids
      · simp only [call, submitMarket, if_pos hbad]
      · have hsame : F.marketLimit { c with stp := x } s = F.marketLimit c s := rfl
        cases hlimit : F.marketLimit c s with
        | none => simp only [call, submitMarket, if_neg hbad, hsame, hlimit]
        | some limit =>
            have hsend := h ⟨F, s, id, limit, qty, owner, false⟩
            simp only [call, submitMarket, if_neg hbad, hsame, hlimit, hc] at hsend ⊢
            simp only [not_or] at hbad
            obtain ⟨hid, hqty, hnew⟩ := hbad
            rw [walk_inert _ _ (hsend (.market hid hqty hnew hlimit))]
  | cancel id => rfl
  | modify id px qty =>
      cases hfind : F.find? id with
      | none => simp only [call, modify, hfind]
      | some sr =>
          obtain ⟨s, r⟩ := sr
          by_cases hbad : qty = 0 ∨ c.inBand px = false
          · simp only [call, modify, hfind, if_pos hbad]
          · by_cases hsame : px = r.price ∧ qty ≤ r.qty
            · simp only [call, modify, hfind, if_neg hbad, if_pos hsame]
            · have hsend := h ⟨F.remove id, s, id, px, qty, r.owner, true⟩
              simp only [call, modify, hfind, if_neg hbad, if_neg hsame] at hsend ⊢
              simp only [not_or, Bool.not_eq_false] at hbad
              have hsub : (F.remove id).side s.opp ⊆ F.side s.opp := by
                rw [side_remove]
                exact List.filter_subset_self _
              have hlen' : ((F.remove id).side s.opp).length < 2 ^ 32 := by
                rw [side_remove]
                exact Nat.lt_of_le_of_lt (List.length_filter_le _ _) (hlen s.opp)
              rw [execute_inert hc hbad.1 hlen' fun e he r' hr' =>
                hsend (.modify hfind hbad.1 hbad.2 hsame) e he r' (hsub hr')]

end Flat

/-! ### Whole runs -/

theorem Params.Valid.with_stp {p : Params} (hp : p.Valid) (x : Stp) : Params.Valid { p with stp := x } :=
  ⟨hp.lo_pos, hp.lo_le_hi, hp.capacity_pos, hp.slots_le⟩

/-- The owner that a new order names. -/
def Op.owner? : Op → Option Owner
  | .submitLimit _ _ _ _ _ owner => some owner
  | .submitMarket _ _ _ owner => some owner
  | .cancel _ => none
  | .modify .. => none

/-- The event is a trade of an owner with itself. -/
def Event.SelfTrade (w : Owners) : Event → Prop
  | .trade taker maker _ _ => w taker = w maker ∧ w taker ≠ 0
  | .cancel .. => False

instance (w : Owners) : DecidablePred (Event.SelfTrade w) := fun e => by
  cases e <;> unfold Event.SelfTrade <;> infer_instance

namespace OrderBook

/-- No owner trades with itself in the run: not in the last call of any part of it. -/
def NoSelfTrade (p : Params) (ops : List Op) : Prop :=
  ∀ pre ∈ ops.inits, ∀ op ∈ pre.getLast?, ∀ e ∈ ((run p pre.dropLast).call op).2.2,
    ¬ e.SelfTrade (Owners.run p pre)

theorem NoSelfTrade.of_prefix {p : Params} {ops pre : List Op} (h : NoSelfTrade p ops)
    (hpre : pre <+: ops) : NoSelfTrade p pre := fun pre' hpre' =>
  h pre' ((List.mem_inits _ _).mpr (((List.mem_inits _ _).mp hpre').trans hpre))

variable {p : Params} {ops : List Op}

/-- A call of a run without self-trades trades with no own order. -/
theorem NoSelfTrade.call (h : NoSelfTrade p ops) (hp : p.Valid) (hstp : p.stp = .none) {x : Stp}
    {pre : List Op} {op : Op} (hpre : pre ++ [op] <+: ops) {t : Taker}
    (hsend : (Transition.finalState (Flat.call p.config) {} pre).Sends p.config op t) {e : Event}
    (he : e ∈ ((Transition.finalState (Flat.call p.config) {} pre).call p.config op).2.2)
    {r : Resting} (hr : r ∈ (Transition.finalState (Flat.call p.config) {} pre).side t.side.opp)
    (hid : r.id = e.maker) : ¬ r.Own x t.owner := by
  have hrepr := (run_repr hp pre).2
  have hattr := Owners.run_attributed hp pre
  obtain ⟨hans, -⟩ := hrepr.call op
  have hrec : Owners.run p (pre ++ [op]) =
      (Owners.run p pre).update (run p pre) op ((run p pre).call op).2 := by
    rw [Owners.run, Transition.record_append]
    rfl
  have hself := h (pre ++ [op]) ((List.mem_inits _ _).mpr hpre) op (by simp)
  rw [List.dropLast_concat, hrec, hans] at hself
  rcases hsend.call_eq with heq | ⟨heq, -⟩
  · rw [heq] at he hself
    obtain ⟨r₀, -, -, ⟨⟨k, rfl⟩, -⟩ | ⟨-, -, hkill⟩⟩ := hsend.event hrepr.wf he
    · have hid' : r₀.id = r.id := hid.symm
      obtain ⟨htaker, hmaker⟩ := hattr.parties hrepr hsend he hr
      rintro ⟨-, hne, hown⟩
      refine hself _ he ⟨?_, ?_⟩
      · rw [htaker, hid', hmaker, hown]
      · rw [htaker]
        exact hne
    · rw [show p.config.stp = .none from hstp] at hkill
      cases hkill
  · rw [heq] at he
    cases he

/-- **A run without self-trades is the same run under every policy.** -/
theorem NoSelfTrade.run_eq (h : NoSelfTrade p ops) (hp : p.Valid) (hstp : p.stp = .none)
    (hsmall : ∀ pre ∈ ops.inits, (run p pre).restingOrders < 2 ^ 32) (x : Stp) :
    answers { p with stp := x } ops = answers p ops ∧
      flat (run { p with stp := x } ops) = flat (run p ops) := by
  obtain ⟨hans, hrepr⟩ := run_repr hp ops
  obtain ⟨hans', hrepr'⟩ := run_repr (hp.with_stp x) ops
  have hsame : Transition.Along (Flat.call p.config)
      (fun F op => F.call { p.config with stp := x } op = F.call p.config op) {} ops := by
    refine Transition.along_of_split fun pre op post he => ?_
    have hpre : pre ++ [op] <+: ops := ⟨post, by rw [he]; simp⟩
    have hmem : pre ∈ ops.inits :=
      (List.mem_inits _ _).mpr ((List.prefix_append pre [op]).trans hpre)
    refine Flat.call_inert hstp ?_ fun t hsend e hev r hr hid => h.call hp hstp hpre hsend hev hr hid
    exact side_length_lt (run_repr hp pre).2 (hsmall pre hmem)
  obtain ⟨hos, hfs⟩ := Transition.run_eq_of_along hsame
  exact ⟨(hans'.trans hos).trans hans.symm,
    (flat_eq hrepr').trans (hfs.trans (flat_eq hrepr).symm)⟩

/-- Without prevention nothing is killed. -/
theorem no_cancel (hp : p.Valid) (hstp : p.stp = .none) :
    ∀ a ∈ answers p ops, ∀ id owner, .cancel id owner ∉ a.2 := by
  have hcall : ∀ (F : Flat) (op : Op), F.WF p.config → ∀ id owner,
      .cancel id owner ∉ (F.call p.config op).2.2 := by
    intro F op hF id owner he
    obtain ⟨t, hsend, heq⟩ := Flat.sends_of_mem_tape he
    rw [heq] at he
    obtain ⟨r, -, -, ⟨⟨k, hk⟩, -⟩ | ⟨-, -, hkill⟩⟩ := hsend.event hF he
    · cases hk
    · rw [show p.config.stp = .none from hstp] at hkill
      cases hkill
  have houtputs : ∀ (ops : List Op) (F : Flat), F.WF p.config →
      ∀ a ∈ Transition.outputs (Flat.call p.config) F ops, ∀ id owner, .cancel id owner ∉ a.2 := by
    intro ops
    induction ops with
    | nil =>
        intro F _ a ha
        cases ha
    | cons op ops ih =>
        intro F hF a ha
        rcases List.mem_cons.mp ha with rfl | ha
        · exact hcall F op hF
        · exact ih _ (hF.call op) a ha
  rw [(run_repr hp ops).1]
  exact houtputs ops {} (Flat.empty_wf _)

/-- An order of owner `0` is exempt. -/
theorem call_owner_zero {c : Config} {b : OrderBook} {F : Flat} (h : Book.Repr c b F)
    (hsmall : b.restingOrders < 2 ^ 32) {op : Op} (hop : op.owner? = some 0) (x : Stp) :
    (Book.call { b with stp := x } op).2 = (Book.call { b with stp := .none } op).2 ∧
      flat (Book.call { b with stp := x } op).1 = flat (Book.call { b with stp := .none } op).1 := by
  have hpol : ∀ y : Stp, Book.Repr { c with stp := y, protection := b.protection }
      { b with stp := y } F := fun y => h.with_policy y b.protection
  have hsame : F.call { c with stp := x, protection := b.protection } op =
      F.call { c with stp := .none, protection := b.protection } op := by
    refine Flat.call_inert (c := { c with stp := .none, protection := b.protection }) rfl
      (side_length_lt h hsmall) ?_
    rintro t hsend e - r - - ⟨-, hne, -⟩
    cases hsend with
    | limit => exact hne (Option.some.inj hop)
    | market => exact hne (Option.some.inj hop)
    | modify => cases hop
  obtain ⟨hans, hrepr⟩ := (hpol x).call op
  obtain ⟨hans', hrepr'⟩ := (hpol .none).call op
  rw [hans, hans', flat_eq hrepr, flat_eq hrepr', hsame]
  exact ⟨rfl, rfl⟩

/-- **Self-trade prevention is inert when nobody trades with itself**: a run in which no trade has
one owner on both sides gives the same answers and the same books under every policy, and kills
nothing; and in every reachable state, so does an order of owner `0`. -/
theorem stp_inert (p : Params) (hp : p.Valid) (ops : List Op)
    (hsmall : ∀ pre ∈ ops.inits, (run p pre).restingOrders < 2 ^ 32) (x : Stp) :
    (p.stp = .none → NoSelfTrade p ops →
      answers { p with stp := x } ops = answers p ops ∧
      (∀ a ∈ answers p ops, ∀ id owner, .cancel id owner ∉ a.2) ∧
      ∀ pre ∈ ops.inits, flat (run { p with stp := x } pre) = flat (run p pre)) ∧
    ∀ op : Op, op.owner? = some 0 →
      (Book.call { run p ops with stp := x } op).2 =
          (Book.call { run p ops with stp := .none } op).2 ∧
        flat (Book.call { run p ops with stp := x } op).1 =
          flat (Book.call { run p ops with stp := .none } op).1 := by
  refine ⟨fun hstp hself => ⟨?_, no_cancel hp hstp, fun pre hpre => ?_⟩, fun op hop => ?_⟩
  · exact (hself.run_eq hp hstp hsmall x).1
  · have hprefix : pre <+: ops := (List.mem_inits _ _).mp hpre
    refine ((hself.of_prefix hprefix).run_eq hp hstp (fun pre' hpre' => hsmall pre' ?_) x).2
    exact (List.mem_inits _ _).mpr (((List.mem_inits _ _).mp hpre').trans hprefix)
  · exact call_owner_zero (run_repr hp ops).2
      (hsmall ops ((List.mem_inits _ _).mpr List.prefix_rfl)) hop x

/-- A fill-or-kill order that ends exactly in front of an order of its own owner. -/
theorem stp_inert_fok :
    answers { stp := .rejectIncoming, bandHi := 9, idMapSlots := 4 }
      [.submitLimit 1 .ask 5 2 .gtc 8, .submitLimit 2 .ask 5 4 .gtc 7,
        .submitLimit 3 .bid 5 2 .fok 7] =
    answers { stp := .none, bandHi := 9, idMapSlots := 4 }
      [.submitLimit 1 .ask 5 2 .gtc 8, .submitLimit 2 .ask 5 4 .gtc 7,
        .submitLimit 3 .bid 5 2 .fok 7] := by
  refine ((stp_inert { stp := .none, bandHi := 9, idMapSlots := 4 }
    ⟨by decide, by decide, by decide, by decide⟩ [.submitLimit 1 .ask 5 2 .gtc 8,
      .submitLimit 2 .ask 5 4 .gtc 7, .submitLimit 3 .bid 5 2 .fok 7] (by decide +kernel)
    .rejectIncoming).1 rfl ?_).1
  unfold NoSelfTrade
  decide +kernel

end OrderBook

end Lob
