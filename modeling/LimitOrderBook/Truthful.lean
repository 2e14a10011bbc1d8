import LimitOrderBook.Codec
import LimitOrderBook.Reports

/-! # What a report says

The status of a report is derived in three places from three kinds of results.  `Truthful` compares
it with what the frame did: `ArrivalTruth` for new and market orders, `CancelTruth` and `ModifyTruth`
for the others, over book and ids before and after the frame and the tape of its call.

Every report is true to its frame but one (`truthful_iff`): a market order for nothing, under an id
that the gateway accepts, is reported as filled. -/

namespace Lob

namespace OrderIds

/-- The client has an order live under this id. -/
def IsLive (ids : OrderIds) (owner : Owner) (client : OrderId) : Prop := ids.find owner client ≠ 0

instance (ids : OrderIds) (owner : Owner) (client : OrderId) : Decidable (ids.IsLive owner client) :=
  inferInstanceAs (Decidable (_ ≠ _))

/-- The open quantity of the order that the client names. -/
def openQty? (ids : OrderIds) (owner : Owner) (client : OrderId) : Option Qty :=
  (ids.live.find? (ids.find owner client)).map Live.openQty

end OrderIds

/-! ### True reports -/

/-- A frame that was executed: book and ids before and after it, the tape of its call and its
report. -/
structure Executed where
  before : Flat
  ids : OrderIds
  tape : List Event
  report : ExecReportMsg
  after : Flat
  ids' : OrderIds

/-- The engine or the gateway must refuse this order. -/
def Request.Refused (c : Config) (owner : Owner) (F : Flat) (ids : OrderIds) : Request → Prop
  | newOrder m => m.qty = 0 ∨ c.inBand m.px = false ∨ m.id = 0 ∨ ids.IsLive owner m.id ∨
      (m.tif = .fok ∧ fillable m.side m.px m.qty c.stp owner (F.side m.side.opp) = false)
  | market m => m.qty = 0 ∨ m.id = 0 ∨ ids.IsLive owner m.id
  | cancel _ => False
  | modify _ => False

/-- The report on an order for `want`. -/
structure ArrivalTruth (owner : Owner) (client : OrderId) (want : Qty) (refused : Prop)
    (x : Executed) : Prop where
  refused : refused → x.report.status = .rejected ∧ x.report.filled = 0 ∧ x.after = x.before
  filled_iff : x.report.status = .filled ↔ want ≠ 0 ∧ traded x.tape = want.toNat
  accepted_iff : x.report.status = .accepted ↔
    (¬ x.ids.IsLive owner client ∧ x.ids'.IsLive owner client) ∧ x.report.filled = 0
  partialRest_iff : x.report.status = .partialRest ↔
    (¬ x.ids.IsLive owner client ∧ x.ids'.IsLive owner client) ∧ 0 < x.report.filled
  open_eq : ¬ x.ids.IsLive owner client → x.ids'.IsLive owner client →
    x.ids'.openQty? owner client = some (want - x.report.filled)
  partialDone_iff : x.report.status = .partialDone ↔
    0 < x.report.filled ∧ x.report.filled < want ∧ ¬ x.ids'.IsLive owner client

structure CancelTruth (owner : Owner) (client : OrderId) (x : Executed) : Prop where
  canceled_iff : x.report.status = .canceled ↔ x.ids.IsLive owner client
  unknown_iff : x.report.status = .unknown ↔ ¬ x.ids.IsLive owner client
  unknown : x.report.status = .unknown → x.tape = [] ∧ x.after = x.before ∧ x.ids' = x.ids
  gone : ¬ x.ids'.IsLive owner client

/-- How an order that left the book has ended. -/
def endStatus (filled want : Qty) : ExecStatus :=
  if filled = want then .filled else if filled ≠ 0 then .partialDone else .canceled

/-- The report on an amend; `valid` is about its price and quantity. -/
structure ModifyTruth (owner : Owner) (m : ModifyMsg) (valid : Prop) (x : Executed) : Prop where
  unknown_iff : x.report.status = .unknown ↔ ¬ x.ids.IsLive owner m.id
  rejected_iff : x.report.status = .rejected ↔ x.ids.IsLive owner m.id ∧ ¬ valid
  unchanged : x.report.status = .unknown ∨ x.report.status = .rejected →
    x.tape = [] ∧ x.after = x.before ∧ x.ids' = x.ids
  replaced_iff : x.ids.IsLive owner m.id → valid →
    (x.report.status = .replaced ↔ x.ids'.IsLive owner m.id)
  open_eq : x.ids.IsLive owner m.id → valid → x.ids'.IsLive owner m.id →
    x.ids'.openQty? owner m.id = some (m.newQty - x.report.filled)
  ended : x.ids.IsLive owner m.id → valid → ¬ x.ids'.IsLive owner m.id →
    x.report.status = endStatus x.report.filled m.newQty

/-- The report of a frame is true. -/
structure Truthful (c : Config) (owner : Owner) (req : Request) (x : Executed) : Prop where
  id_eq : x.report.id = req.id
  filled_eq : x.report.filled.toNat = traded x.tape
  status : match req with
    | .newOrder m => ArrivalTruth owner m.id m.qty (req.Refused c owner x.before x.ids) x
    | .market m => ArrivalTruth owner m.id m.qty (req.Refused c owner x.before x.ids) x
    | .cancel m => CancelTruth owner m.id x
    | .modify m => ModifyTruth owner m (m.newQty ≠ 0 ∧ c.inBand m.newPx = true) x

/-- A market order for nothing that the gateway gives an engine id. -/
def Request.ForNothing (owner : Owner) (ids : OrderIds) : Request → Prop
  | market m => m.qty = 0 ∧ m.id ≠ 0 ∧ ¬ ids.IsLive owner m.id ∧ ids.last + 1 ≠ 0
  | _ => False

/-! ### Statuses -/

/-- What the fields of a result say of each other. -/
structure SubmitResult.Sane (r : SubmitResult) (want : Qty) : Prop where
  filled_le : r.filled ≤ want
  rejected : r.rejected = true → r.filled = 0 ∧ r.rested = false
  rested : r.rested = true → r.filled ≠ want

section status

variable {r : SubmitResult} {want : Qty}

theorem submitStatus_filled (h : r.Sane want) (hwant : want ≠ 0) :
    submitStatus r want = .filled ↔ r.filled = want := by
  unfold submitStatus
  split_ifs with h1 h2
  · have hzero := (h.rejected h1).1
    simp [hzero, hwant.symm]
  all_goals simp [h2]

/-- An order that is filled whole does not rest. -/
theorem SubmitResult.Sane.not_rested (h : r.Sane want) (hall : r.filled = want) :
    r.rested = false :=
  Bool.eq_false_iff.mpr fun hr => h.rested hr hall

theorem submitStatus_accepted (h : r.Sane want) :
    submitStatus r want = .accepted ↔ r.rested = true ∧ r.filled = 0 := by
  unfold submitStatus
  split_ifs with h1 h2 h3 h4 h5
  · simp [(h.rejected h1).2]
  · simp [h.not_rested h2]
  · simp [h4]
  · simpa [h3] using h4
  · simp [h3]
  · simp [h3]

theorem submitStatus_partialRest (h : r.Sane want) :
    submitStatus r want = .partialRest ↔ r.rested = true ∧ r.filled ≠ 0 := by
  unfold submitStatus
  split_ifs with h1 h2 h3 h4 h5
  · simp [(h.rejected h1).2]
  · simp [h.not_rested h2]
  · simp [h3, h4]
  · simp [not_not.mp h4]
  · simp [h3]
  · simp [h3]

theorem submitStatus_partialDone (h : r.Sane want) : submitStatus r want = .partialDone ↔
    r.filled ≠ 0 ∧ r.filled ≠ want ∧ r.rested = false := by
  unfold submitStatus
  split_ifs with h1 h2 h3 h4 h5
  · simp [(h.rejected h1).1]
  · simp [h2]
  · simp [h3]
  · simp [h3]
  · simp [h5, h2, h3]
  · simp [h5]

theorem marketStatus_filled {id : OrderId} {filled want : Qty} :
    Gateway.marketStatus id filled want = .filled ↔ id ≠ 0 ∧ filled = want := by
  unfold Gateway.marketStatus
  split_ifs with h1 h2 h3 <;> simp_all

theorem marketStatus_partialDone {id : OrderId} {filled want : Qty} :
    Gateway.marketStatus id filled want = .partialDone ↔ id ≠ 0 ∧ filled ≠ want ∧ filled ≠ 0 := by
  unfold Gateway.marketStatus
  split_ifs with h1 h2 h3 <;> simp_all

end status

/-! ### Live ids -/

namespace OrderIds

variable {c : Config} {ids ids' : OrderIds} {F : Flat} {owner : Owner} {client id : OrderId}
  {tape : List Event}

theorem isLive_congr (h : ids'.byClient = ids.byClient) :
    ids'.IsLive owner client ↔ ids.IsLive owner client := by
  unfold IsLive find
  rw [h]

theorem assign_ne_zero_iff : (ids.assign owner client).1 ≠ 0 ↔
    client ≠ 0 ∧ ¬ ids.IsLive owner client ∧ ids.last + 1 ≠ 0 := by
  unfold assign IsLive
  split_ifs with h
  · simp only [ne_eq, not_true_eq_false, false_iff]
    tauto
  · simp only [not_or] at h
    simp [h]

@[simp] theorem find_rest (openQty : Qty) (s : Side) :
    (ids.rest id owner client openQty s).find owner client = id := by
  rw [find, byClient_rest, if_pos rfl]
  rfl

theorem openQty?_rest (openQty : Qty) (s : Side) :
    (ids.rest id owner client openQty s).openQty? owner client = some openQty := by
  rw [openQty?, find_rest, live_rest, if_pos rfl]
  rfl

namespace Shows

/-- The live ids of the clients name the orders of the book. -/
theorem isLive_iff (h : ids.Shows F) (hF : F.WF c) :
    ids.IsLive owner client ↔ ids.find owner client ∈ F.ids := by
  constructor
  · intro hlive
    obtain ⟨l, hl, -⟩ := h.live_of_find hlive
    by_contra hno
    rw [h.live_eq_none_iff.mpr hno] at hl
    cases hl
  · intro hmem hzero
    obtain ⟨s, r, hr, hid⟩ := Flat.mem_ids.mp hmem
    exact hF.id_ne s r hr (hid.trans hzero)

theorem byClient_of_tape (h : ids.Shows F) (hnd : F.ids.Nodup)
    (hk : (tape.foldl OrderIds.hear ids).byClient.find? (owner, client) = some id) :
    ids.byClient.find? (owner, client) = some id := by
  obtain ⟨l, hl, ho, hc⟩ := ((h.tape hnd tape).inverse owner client id).mp hk
  obtain ⟨l₀, hl₀, ho₀, hc₀⟩ := live_of_tape hl
  exact (h.inverse owner client id).mpr ⟨l₀, hl₀, ho₀.symm.trans ho, hc₀.symm.trans hc⟩

/-- No id comes to life while the engine matches. -/
theorem isLive_of_tape (h : ids.Shows F) (hF : F.WF c)
    (hlive : (tape.foldl OrderIds.hear ids).IsLive owner client) : ids.IsLive owner client := by
  have hk := h.byClient_of_tape hF.nodup (find_ne_zero hlive)
  intro hzero
  rw [h.free_of_find hF hzero] at hk
  cases hk

/-- An order that is forgotten is not live. -/
theorem not_isLive_forget (h : ids.Shows F) (hnd : F.ids.Nodup) :
    ¬ ((tape.foldl OrderIds.hear ids).forget (ids.find owner client)).1.IsLive owner client := by
  intro hlive
  have hinv := (h.tape hnd tape).inverse
  obtain ⟨l, hl, ho, hc⟩ :=
    ((hinv.forget (ids.find owner client)) owner client _).mp (find_ne_zero hlive)
  rw [live_forget] at hl
  split_ifs at hl with hk
  have hkey := h.byClient_of_tape hnd ((hinv owner client _).mpr ⟨l, hl, ho, hc⟩)
  apply hk
  exact (congrArg (fun k => Option.getD k 0) hkey).symm

end Shows

end OrderIds

/-! ### One frame -/

section arrival

variable {c : Config} {ids ids' : OrderIds} {F F' : Flat} {owner : Owner} {client : OrderId}
  {want : Qty}

/-- An order that is rejected, and leaves everything as it was. -/
theorem arrivalTruth_rejected (hids : ids'.byClient = ids.byClient) (refused : Prop) :
    ArrivalTruth owner client want refused ⟨F, ids, [], ⟨client, 0, .rejected⟩, F, ids'⟩ := by
  have hlive : ids'.IsLive owner client ↔ ids.IsLive owner client := OrderIds.isLive_congr hids
  refine ⟨fun _ => ⟨rfl, rfl, rfl⟩, ?_, ?_, ?_, fun hnot h => absurd (hlive.mp h) hnot, ?_⟩
  · simp only [reduceCtorEq, traded_nil, false_iff, not_and]
    intro hne hzero
    exact hne (UInt32.toNat_inj.mp hzero.symm)
  · simp [hlive]
  · simp
  · simp

/-- What a limit order and its call do to each other. -/
theorem limit_cases (c : Config) (ids : OrderIds) (F : Flat) (owner : Owner) (m : NewOrderMsg) :
    let id := (ids.assign owner m.id).1
    let t : Taker := ⟨F, m.side, id, m.px, m.qty, owner, decide (m.tif = .gtc)⟩
    let op : Op := .submitLimit id m.side m.px m.qty m.tif owner
    F.call c op = (F, .submit { filled := 0, rested := false, rejected := true }, []) ∨
      (¬ (Request.newOrder m).Refused c owner F ids ∧ id ≠ 0 ∧ F.Sends c op t ∧
        F.call c op = (t.after c.stp, t.reply c.stp op, (t.walk c.stp).tape)) := by
  intro id t op
  by_cases hbad : id = 0 ∨ m.qty = 0 ∨ c.inBand m.px = false ∨ id ∈ F.ids
  · left
    simp only [op, Flat.call, Flat.submitLimit, if_pos hbad]
  · by_cases hfok : m.tif = .fok ∧
        fillable m.side m.px m.qty c.stp owner (F.side m.side.opp) = false
    · left
      simp only [op, Flat.call, Flat.submitLimit, if_neg hbad, Flat.execute, if_pos hfok]
    · simp only [not_or, Bool.not_eq_false] at hbad
      obtain ⟨hid, hqty, hpx, hnew⟩ := hbad
      have hsend : F.Sends c op t := .limit hid hqty hpx hnew
      rcases hsend.call_eq with heq | ⟨heq, -⟩
      · refine Or.inr ⟨?_, hid, hsend, heq⟩
        obtain ⟨hclient, hfree, -⟩ := OrderIds.assign_ne_zero_iff.mp hid
        rintro (h0 | h0 | h0 | h0 | h0)
        · exact hqty h0
        · rw [h0] at hpx
          cases hpx
        · exact hclient h0
        · exact hfree h0
        · exact hfok h0
      · exact Or.inl heq

/-- The result of an order that went to match. -/
theorem Taker.sane (t : Taker) (stp : Stp) :
    SubmitResult.Sane { filled := t.filled stp, rested := decide (t.Rests stp)
                        rejected := decide ((t.walk stp).stopped = true ∧ t.filled stp = 0) }
      t.qty := by
  have hadd := t.filled_add stp
  refine ⟨?_, fun h => ?_, fun h he => ?_⟩
  · rw [UInt32.le_iff_toNat_le]
    show (t.filled stp).toNat ≤ t.qty.toNat
    omega
  · obtain ⟨hstop, hzero⟩ := of_decide_eq_true h
    exact ⟨hzero, decide_eq_false fun hrest => by rw [hrest.1] at hstop; cases hstop⟩
  · obtain ⟨-, hleft, -⟩ := of_decide_eq_true h
    have hfilled : (t.filled stp).toNat = t.qty.toNat := congrArg UInt32.toNat he
    apply hleft
    apply UInt32.toNat_inj.mp
    show _ = 0
    omega

theorem Taker.filled_eq_traded (t : Taker) (stp : Stp) :
    (t.filled stp).toNat = traded (t.walk stp).tape := by
  have hadd := t.filled_add stp
  have htraded : traded (t.walk stp).tape + (t.walk stp).remaining.toNat = t.qty.toNat :=
    walk_traded _ _
  omega

theorem newOrder_truthful (h : ids.Shows F) (hF : F.WF c) (m : NewOrderMsg) (side : Option Side) :
    let id := (ids.assign owner m.id).1
    let x := F.call c (.submitLimit id m.side m.px m.qty m.tif owner)
    Truthful c owner (.newOrder m) ⟨F, ids, x.2.2, (Request.newOrder m).report id x.2.1, x.1,
      (Request.newOrder m).settle owner id side x.2.1
        (x.2.2.foldl OrderIds.hear (ids.assign owner m.id).2)⟩ := by
  intro id x
  have hassigned : (ids.assign owner m.id).2.Shows F := h.assigned owner (.newOrder m)
  have hmaps := (ids.assigned_maps owner (.newOrder m)).1
  rcases limit_cases c ids F owner m with hx | ⟨haccepted, hid, hsend, hx⟩
  · rw [show x = _ from hx]
    exact ⟨rfl, rfl, arrivalTruth_rejected hmaps _⟩
  · -- the order went to match
    rw [show x = _ from hx]
    have hqty : m.qty ≠ 0 := fun h0 => haccepted (Or.inl h0)
    have hfree : ¬ ids.IsLive owner m.id := (OrderIds.assign_ne_zero_iff.mp hid).2.1
    generalize ht : (⟨F, m.side, (ids.assign owner m.id).1, m.px, m.qty, owner,
      decide (m.tif = .gtc)⟩ : Taker) = t at hx hsend ⊢
    have hwant : t.qty = m.qty := by rw [← ht]
    have hsane : SubmitResult.Sane _ m.qty := hwant ▸ t.sane c.stp
    have htraded := t.filled_eq_traded c.stp
    have hrests : ∀ ids', ids' = (Request.newOrder m).settle owner id side
        (t.reply c.stp (.submitLimit id m.side m.px m.qty m.tif owner))
        ((t.walk c.stp).tape.foldl OrderIds.hear (ids.assign owner m.id).2) →
        (ids'.IsLive owner m.id ↔ t.Rests c.stp) ∧ (t.Rests c.stp →
          ids'.openQty? owner m.id = some (m.qty - t.filled c.stp)) := by
      rintro ids' rfl
      simp only [Request.settle, Taker.reply, decide_eq_true_eq]
      split_ifs with hrest
      · refine ⟨iff_of_true ?_ hrest, fun _ => OrderIds.openQty?_rest _ _⟩
        rw [OrderIds.IsLive, OrderIds.find_rest]
        exact hid
      · refine ⟨iff_of_false (fun hlive => ?_) hrest, fun hr => absurd hr hrest⟩
        exact hfree ((OrderIds.isLive_congr hmaps).mp (hassigned.isLive_of_tape hF hlive))
    obtain ⟨hlive, hopen⟩ := hrests _ rfl
    refine ⟨rfl, htraded, ⟨fun hrefused => absurd hrefused haccepted, ?_, ?_, ?_, ?_, ?_⟩⟩
    · refine (submitStatus_filled hsane hqty).trans ?_
      rw [← htraded, UInt32.toNat_inj]
      exact (and_iff_right hqty).symm
    · refine (submitStatus_accepted hsane).trans ?_
      rw [hlive, and_iff_right hfree]
      exact and_congr_left' decide_eq_true_iff
    · refine (submitStatus_partialRest hsane).trans ?_
      rw [hlive, and_iff_right hfree]
      exact and_congr decide_eq_true_iff pos_iff.symm
    · exact fun _ hl => hopen (hlive.mp hl)
    · refine (submitStatus_partialDone hsane).trans ?_
      rw [hlive]
      refine and_congr pos_iff.symm (and_congr ?_ decide_eq_false_iff_not)
      exact ⟨fun hne => UInt32.lt_of_le_of_ne hsane.filled_le hne, fun hlt => UInt32.ne_of_lt hlt⟩

/-- The report on a market order, from the quantity that was filled. -/
theorem arrivalTruth_market {id : OrderId} {filled : Qty} {tape : List Event} {refused : Prop}
    (hle : filled ≤ want) (htraded : filled.toNat = traded tape)
    (hlive : ids'.IsLive owner client → ids.IsLive owner client)
    (hfree : id ≠ 0 → ¬ ids.IsLive owner client ∧ want ≠ 0 ∧ ¬ refused)
    (hnone : id = 0 → filled = 0 ∧ F' = F) :
    ArrivalTruth owner client want refused
      ⟨F, ids, tape, ⟨client, filled, Gateway.marketStatus id filled want⟩, F', ids'⟩ := by
  have hid : filled ≠ 0 → id ≠ 0 := fun hne hzero => hne (hnone hzero).1
  refine ⟨fun hrefused => ?_, ?_, ?_, ?_, fun hnot h => absurd (hlive h) hnot, ?_⟩
  · have hzero : id = 0 := by
      by_contra hne
      exact (hfree hne).2.2 hrefused
    obtain ⟨hfilled, hF⟩ := hnone hzero
    exact ⟨by simp only [Gateway.marketStatus, if_pos hzero], hfilled, hF⟩
  · refine marketStatus_filled.trans ?_
    rw [← htraded, UInt32.toNat_inj]
    refine and_congr_left fun he => ⟨fun h => (hfree h).2.1, fun h => ?_⟩
    rw [← he] at h
    exact hid h
  · refine iff_of_false ?_ fun h => h.1.1 (hlive h.1.2)
    unfold Gateway.marketStatus
    split_ifs <;> simp
  · refine iff_of_false ?_ fun h => h.1.1 (hlive h.1.2)
    unfold Gateway.marketStatus
    split_ifs <;> simp
  · refine marketStatus_partialDone.trans ?_
    constructor
    · rintro ⟨h, hne, hpos⟩
      exact ⟨pos_iff.mpr hpos, UInt32.lt_of_le_of_ne hle hne, fun hl => (hfree h).1 (hlive hl)⟩
    · rintro ⟨hpos, hlt, -⟩
      exact ⟨hid (pos_iff.mp hpos), UInt32.ne_of_lt hlt, pos_iff.mp hpos⟩

/-- What a market order and its call do to each other. -/
theorem market_cases (c : Config) (F : Flat) (id : OrderId) (owner : Owner) (m : MarketMsg) :
    let op : Op := .submitMarket id m.side m.qty owner
    F.call c op = (F, .market 0, []) ∨ ∃ t, F.Sends c op t ∧ t.qty = m.qty ∧
      F.call c op = (t.after c.stp, t.reply c.stp op, (t.walk c.stp).tape) := by
  intro op
  by_cases hbad : id = 0 ∨ m.qty = 0 ∨ id ∈ F.ids
  · left
    simp only [op, Flat.call, Flat.submitMarket, if_pos hbad]
  · cases hlimit : F.marketLimit c m.side with
    | none =>
        left
        simp only [op, Flat.call, Flat.submitMarket, if_neg hbad, hlimit]
    | some limit =>
        simp only [not_or] at hbad
        obtain ⟨hid, hqty, hnew⟩ := hbad
        have hsend : F.Sends c op ⟨F, m.side, id, limit, m.qty, owner, false⟩ :=
          .market hid hqty hnew hlimit
        rcases hsend.call_eq with heq | ⟨heq, -⟩
        · exact Or.inr ⟨_, hsend, rfl, heq⟩
        · -- a market order has no such reply
          simp [op, Flat.call] at heq

theorem market_truthful_iff (h : ids.Shows F) (hF : F.WF c) (m : MarketMsg) (side : Option Side) :
    let id := (ids.assign owner m.id).1
    let x := (Flat.engine c).ask F (Request.op owner id (.market m))
    Truthful c owner (.market m) ⟨F, ids, x.2.2, (Request.market m).report id x.2.1, x.1,
      (Request.market m).settle owner id side x.2.1
        (x.2.2.foldl OrderIds.hear (ids.assign owner m.id).2)⟩ ↔
      ¬ (Request.market m).ForNothing owner ids := by
  intro id x
  have hassigned : (ids.assign owner m.id).2.Shows F := h.assigned owner (.market m)
  have hmaps := (ids.assigned_maps owner (.market m)).1
  have hnothing : (Request.market m).ForNothing owner ids ↔ m.qty = 0 ∧ id ≠ 0 :=
    and_congr Iff.rfl OrderIds.assign_ne_zero_iff.symm
  rw [hnothing]
  by_cases hid : id = 0
  · have hx : x = (F, .market 0, []) := by
      simp only [x, Request.op, hid, ne_eq, not_true_eq_false, if_false, Engine.ask]
    rw [hx]
    refine iff_of_true ⟨rfl, rfl, ?_⟩ fun hn => hn.2 hid
    exact arrivalTruth_market (UInt32.le_iff_toNat_le.mpr (Nat.zero_le _)) rfl
      (OrderIds.isLive_congr hmaps).mp (fun hne => absurd hid hne) fun _ => ⟨rfl, rfl⟩
  · obtain ⟨hclient, hfree, -⟩ := OrderIds.assign_ne_zero_iff.mp hid
    have hcall : x = F.call c (.submitMarket id m.side m.qty owner) := by
      simp only [x, Request.op, ne_eq, hid, not_false_eq_true, if_true, Engine.ask,
        Flat.engine_call]
    have hrefused : m.qty ≠ 0 → ¬ (Request.market m).Refused c owner F ids := by
      rintro hqty (h0 | h0 | h0)
      · exact hqty h0
      · exact hclient h0
      · exact hfree h0
    rcases market_cases c F id owner m with hx | ⟨t, hsend, hwant, hx⟩
    · rw [hcall, hx]
      constructor
      · -- a market order for nothing is filled by nothing
        rintro htrue ⟨hqty, -⟩
        have hrejected := (htrue.status.refused (Or.inl hqty)).1
        have hfilled : Gateway.marketStatus id 0 m.qty = .filled :=
          marketStatus_filled.mpr ⟨hid, hqty.symm⟩
        rw [show Gateway.marketStatus id 0 m.qty = .rejected from hrejected] at hfilled
        cases hfilled
      · intro hn
        have hqty : m.qty ≠ 0 := fun h0 => hn ⟨h0, hid⟩
        refine ⟨rfl, rfl, ?_⟩
        exact arrivalTruth_market (UInt32.le_iff_toNat_le.mpr (Nat.zero_le _)) rfl
          (OrderIds.isLive_congr hmaps).mp (fun _ => ⟨hfree, hqty, hrefused hqty⟩)
          fun h0 => absurd h0 hid
    · have hqty : m.qty ≠ 0 := by cases hsend; assumption
      rw [hcall, hx]
      refine iff_of_true ⟨rfl, t.filled_eq_traded c.stp, ?_⟩ fun hn => hqty hn.1
      have hle : t.filled c.stp ≤ m.qty := hwant ▸ (t.sane c.stp).filled_le
      exact arrivalTruth_market hle (t.filled_eq_traded c.stp)
        (fun hl => (OrderIds.isLive_congr hmaps).mp (hassigned.isLive_of_tape hF hl))
        (fun _ => ⟨hfree, hqty, hrefused hqty⟩) fun h0 => absurd h0 hid

end arrival

section amend

variable {c : Config} {ids : OrderIds} {F : Flat} {owner : Owner}

theorem cancel_truthful (h : ids.Shows F) (hF : F.WF c) (m : CancelMsg) (side : Option Side) :
    let id := ids.find owner m.id
    let x := F.call c (.cancel id)
    Truthful c owner (.cancel m) ⟨F, ids, x.2.2, (Request.cancel m).report id x.2.1, x.1,
      (Request.cancel m).settle owner id side x.2.1 (x.2.2.foldl OrderIds.hear ids)⟩ := by
  intro id x
  have hx : x = (F.remove id, .cancel (decide (id ∈ F.ids)), []) := by
    simp only [x, Flat.call, Flat.cancel_eq]
  rw [hx]
  refine ⟨rfl, rfl, ?_⟩
  have hlive : ids.IsLive owner m.id ↔ id ∈ F.ids := h.isLive_iff hF
  have hgone : ¬ (ids.forget id).1.IsLive owner m.id :=
    @OrderIds.Shows.not_isLive_forget ids F owner m.id [] h hF.nodup
  by_cases hid : id ∈ F.ids
  · simp only [Request.report, Request.settle, hid, decide_true, if_true, List.foldl_nil]
    exact ⟨by simp [hlive, hid], by simp [hlive, hid], fun hs => (by cases hs), hgone⟩
  · simp only [Request.report, Request.settle, hid, decide_false, Bool.false_eq_true, if_false,
      List.foldl_nil]
    exact ⟨by simp [hlive, hid], by simp [hlive, hid],
      fun _ => ⟨rfl, Flat.remove_of_not_mem hid, rfl⟩, hlive.not.mpr hid⟩

/-- The report on an amend that the engine does not make. -/
theorem modifyTruth_refused {m : ModifyMsg} {valid : Prop} (found : Prop) [Decidable found]
    (hlive : ids.IsLive owner m.id ↔ found) (hbad : found → ¬ valid) :
    ModifyTruth owner m valid
      ⟨F, ids, [], ⟨m.id, 0, if found then .rejected else .unknown⟩, F, ids⟩ := by
  by_cases hfound : found
  · have hl := hlive.mpr hfound
    refine ⟨?_, ?_, fun _ => ⟨rfl, rfl, rfl⟩, fun _ hv => absurd hv (hbad hfound),
      fun _ hv => absurd hv (hbad hfound), fun _ hv => absurd hv (hbad hfound)⟩
    · simp [hfound, hl]
    · simp [hfound, hl, hbad hfound]
  · have hl := hlive.not.mpr hfound
    refine ⟨?_, ?_, fun _ => ⟨rfl, rfl, rfl⟩, fun h => absurd h hl, fun h => absurd h hl,
      fun h => absurd h hl⟩
    · simp [hfound, hl]
    · simp [hfound, hl]

/-- The report on an amend that the engine makes, from what is left of the order. -/
theorem modifyTruth_done {m : ModifyMsg} {valid : Prop} (rested : Prop) [Decidable rested]
    {filled : Qty} {tape : List Event} {F' : Flat} {ids' : OrderIds} (hlive : ids.IsLive owner m.id)
    (hvalid : valid) (hlive' : ids'.IsLive owner m.id ↔ rested)
    (hopen : rested → ids'.openQty? owner m.id = some (m.newQty - filled)) :
    ModifyTruth owner m valid ⟨F, ids, tape,
      ⟨m.id, filled, if rested then .replaced else endStatus filled m.newQty⟩, F', ids'⟩ := by
  have hend : endStatus filled m.newQty ≠ .unknown ∧ endStatus filled m.newQty ≠ .rejected ∧
      endStatus filled m.newQty ≠ .replaced := by
    unfold endStatus
    split_ifs <;> simp
  obtain ⟨hunknown, hrejected, hreplaced⟩ := hend
  by_cases hrest : rested
  · refine ⟨?_, ?_, ?_, ?_, fun _ _ _ => hopen hrest, fun _ _ h => absurd (hlive'.mpr hrest) h⟩
    · simp [hrest, hlive]
    · simp [hrest, hvalid]
    · simp [hrest]
    · simp [hrest, hlive']
  · refine ⟨?_, ?_, ?_, ?_, fun _ _ h => absurd (hlive'.mp h) hrest, fun _ _ _ => ?_⟩
    · simp [hrest, hunknown, hlive]
    · simp [hrest, hrejected, hvalid]
    · simp [hrest, hunknown, hrejected]
    · simp [hrest, hreplaced, hlive']
    · simp [hrest]

/-- What a modify and its call do to each other. -/
theorem modify_cases (c : Config) (F : Flat) (id : OrderId) (m : ModifyMsg) :
    let op : Op := .modify id m.newPx m.newQty
    let valid := m.newQty ≠ 0 ∧ c.inBand m.newPx = true
    ((id ∈ F.ids → ¬ valid) ∧ F.call c op =
        (F, .modify { ok := false, filled := 0, rested := false, found := decide (id ∈ F.ids) }, [])) ∨
      id ∈ F.ids ∧ valid ∧
        (F.call c op = (F.amend id m.newQty,
            .modify { ok := true, filled := 0, rested := true, found := true }, []) ∨
          ∃ t, F.Sends c op t ∧
            F.call c op = (t.after c.stp, t.reply c.stp op, (t.walk c.stp).tape)) := by
  intro op valid
  cases hfind : F.find? id with
  | none =>
      have hid : id ∉ F.ids := Flat.find?_eq_none.mp hfind
      refine Or.inl ⟨fun h => absurd h hid, ?_⟩
      simp only [op, Flat.call, Flat.modify, hfind, hid, decide_false]
  | some sr =>
      obtain ⟨s, r⟩ := sr
      have hid : id ∈ F.ids := by
        by_contra hno
        rw [Flat.find?_eq_none.mpr hno] at hfind
        cases hfind
      by_cases hbad : m.newQty = 0 ∨ c.inBand m.newPx = false
      · refine Or.inl ⟨fun _ hv => ?_, ?_⟩
        · obtain ⟨hqty, hpx⟩ := hv
          rcases hbad with h0 | h0
          · exact hqty h0
          · rw [h0] at hpx
            cases hpx
        · simp only [op, Flat.call, Flat.modify, hfind, if_pos hbad, hid, decide_true]
      · have hvalid : valid := by simpa [valid, not_or] using hbad
        refine Or.inr ⟨hid, hvalid, ?_⟩
        by_cases hsame : m.newPx = r.price ∧ m.newQty ≤ r.qty
        · left
          simp only [op, Flat.call, Flat.modify, hfind, if_neg hbad, if_pos hsame]
        · have hsend : F.Sends c op ⟨F.remove id, s, id, m.newPx, m.newQty, r.owner, true⟩ :=
            .modify hfind hvalid.1 hvalid.2 hsame
          rcases hsend.call_eq with heq | ⟨heq, -⟩
          · exact Or.inr ⟨_, hsend, heq⟩
          · -- a modify has no such reply
            simp [op, Flat.call] at heq

theorem modify_truthful (h : ids.Shows F) (hF : F.WF c) (m : ModifyMsg) :
    let id := ids.find owner m.id
    let x := F.call c (.modify id m.newPx m.newQty)
    Truthful c owner (.modify m) ⟨F, ids, x.2.2, (Request.modify m).report id x.2.1, x.1,
      (Request.modify m).settle owner id (ids.side id) x.2.1 (x.2.2.foldl OrderIds.hear ids)⟩ := by
  intro id x
  have hlive : ids.IsLive owner m.id ↔ id ∈ F.ids := h.isLive_iff hF
  rcases modify_cases c F id m with ⟨hbad, hx⟩ | ⟨hid, hvalid, hx | ⟨t, hsend, hx⟩⟩
  · -- not found, or not valid
    rw [show x = _ from hx]
    refine ⟨rfl, rfl, ?_⟩
    have htruth := modifyTruth_refused (F := F) (id ∈ F.ids) hlive hbad
    simpa [Request.report, Request.settle, Gateway.modifyStatus] using htruth
  · -- amended in place
    rw [show x = _ from hx]
    refine ⟨rfl, rfl, ?_⟩
    refine modifyTruth_done True (hlive.mpr hid) hvalid (iff_of_true ?_ trivial) fun _ => ?_
    · simpa [Request.settle, OrderIds.IsLive] using hlive.mpr hid
    · simpa [Request.settle] using OrderIds.openQty?_rest m.newQty _
  · -- the order went to match
    rw [show x = _ from hx]
    refine ⟨rfl, t.filled_eq_traded c.stp, ?_⟩
    have hdone := fun ids' => @modifyTruth_done ids F owner m _ (t.Rests c.stp) _
      (t.filled c.stp) (t.walk c.stp).tape (t.after c.stp) ids' (hlive.mpr hid) hvalid
    simp only [Request.report, Taker.reply, Request.settle, Gateway.modifyStatus,
      decide_eq_true_eq, Bool.true_eq_false, if_false, true_and, if_true]
    apply hdone
    · split_ifs with hrest
      · exact iff_of_true (by simpa [OrderIds.IsLive] using hlive.mpr hid) hrest
      · exact iff_of_false (h.not_isLive_forget hF.nodup) hrest
    · intro hrest
      rw [if_pos hrest]
      exact OrderIds.openQty?_rest _ _

end amend

/-! ### Reachable gateways -/

namespace Gateway

open Connection

section executed

variable {B : Type} (E : Engine B) (view : B → Flat) (g : Gateway B) (owner : Owner) (req : Request)

/-- What the execution of a request is judged by. -/
def executed : Executed where
  before := view g.book
  ids := g.feed.orders
  tape := (g.asked E owner req).2.2
  report := (serve E g owner req).2
  after := view (serve E g owner req).1.book
  ids' := (serve E g owner req).1.feed.orders

theorem executed_eq : g.executed E view owner req =
    let ids := g.feed.orders
    let id := ids.idOf owner req
    let x := g.asked E owner req
    ⟨view g.book, ids, x.2.2, req.report id x.2.1, view x.1,
      req.settle owner id (ids.side id) x.2.1
        (x.2.2.foldl OrderIds.hear (ids.assigned owner req))⟩ := by
  rw [executed, serve_eq]
  simp only [withOrders, orders_called]
  rfl

end executed

section truthful

variable {c : Config} {owner : Owner} {req : Request}

theorem Kept.report_iff {g : Gateway Flat} (h : Kept c g) :
    Truthful c owner req (g.executed (Flat.engine c) (fun F => F) owner req) ↔
      ¬ req.ForNothing owner g.feed.orders := by
  rw [executed_eq]
  cases req with
  | newOrder m =>
      refine iff_of_true ?_ fun hn => hn
      simp only [asked, Request.op, Engine.ask, Flat.engine_call]
      exact newOrder_truthful h.shows_ h.wf m _
  | market m => exact market_truthful_iff h.shows_ h.wf m _
  | cancel m =>
      refine iff_of_true ?_ fun hn => hn
      simp only [asked, Request.op, Engine.ask, Flat.engine_call]
      exact cancel_truthful h.shows_ h.wf m _
  | modify m =>
      refine iff_of_true ?_ fun hn => hn
      simp only [asked, Request.op, Engine.ask, Flat.engine_call]
      exact modify_truthful h.shows_ h.wf m

theorem Reached.report_iff {g : Gateway OrderBook} (h : Reached c g) :
    Truthful c owner req (g.executed OrderBook.engine OrderBook.flat owner req) ↔
      ¬ req.ForNothing owner g.feed.orders := by
  obtain ⟨g', hsim, hkept⟩ := h
  obtain ⟨hans, -⟩ := hsim.asked (OrderBook.engine_sim c) owner req
  obtain ⟨hrep, hserved⟩ := hsim.serve (OrderBook.engine_sim c) owner req
  have hsame : g.executed OrderBook.engine OrderBook.flat owner req =
      g'.executed (Flat.engine c) (fun F => F) owner req := by
    simp only [executed, OrderBook.flat_eq hsim.book, OrderBook.flat_eq hserved.book, hsim.feed,
      hserved.feed, hans, hrep]
  rw [hsame, hsim.feed]
  exact hkept.report_iff

end truthful

/-- What the frame handler adds to the execution of a request leaves book and ids alone. -/
theorem handleFrame_served {g : Gateway OrderBook} {owner : Owner} {body : List UInt8} {req : Request}
    (hreq : g.request? owner body = some req) :
    let x := handleFrame OrderBook.engine g owner body
    let y := serve OrderBook.engine g owner req
    x.2 = some y.2 ∧ x.1.book = y.1.book ∧ x.1.feed.orders = y.1.feed.orders := by
  rw [handleFrame_of_request _ hreq]
  exact ⟨rfl, rfl, orders_publish _ _⟩

theorem request?_eq {g : Gateway OrderBook} {owner : Owner} {body : List UInt8} {conn : Connection}
    {req : Request} (hconn : g.conns.find? (isOf owner) = some conn) (hlive : conn.dead = false)
    (hreq : decodeRequest body = some req) : g.request? owner body = some req := by
  simp only [request?, hconn, hlive, hreq, Bool.false_eq_true, if_false]

/-- **A report is true, unless it is the one on a market order for nothing** that the gateway gives
an engine id: that one says that the order was filled. -/
theorem truthful_iff (p : Params) (hp : p.Valid) (inputs : List Input) (owner : Owner)
    (body : List UInt8) (conn : Connection) (req : Request)
    (hconn : (run p inputs).conns.find? (isOf owner) = some conn) (hlive : conn.dead = false)
    (hreq : decodeRequest body = some req) :
    let g := run p inputs
    let x := handleFrame OrderBook.engine g owner body
    ∃ report, x.2 = some report ∧
      (Truthful p.config owner req
        { before := g.book.flat
          ids := g.feed.orders
          tape := (g.asked OrderBook.engine owner req).2.2
          report := report
          after := x.1.book.flat
          ids' := x.1.feed.orders } ↔ ¬ req.ForNothing owner g.feed.orders) := by
  intro g x
  obtain ⟨hreport, hbook, horders⟩ := handleFrame_served (request?_eq hconn hlive hreq)
  refine ⟨_, hreport, ?_⟩
  rw [horders, hbook]
  exact (reached_run hp inputs).report_iff

/-- A fill-or-kill order that is too large for the book. -/
theorem truthful_iff_kill :
    let g := run { poolCapacity := 1, bandHi := 9, idMapSlots := 4 }
      [.accept 1, .accept 2, .send 1 (NewOrderMsg.encode 64 ⟨7, 5, 3, .ask, .gtc⟩)]
    let x := handleFrame OrderBook.engine g 2 (Message.newOrder ⟨7, 6, 4, .bid, .fok⟩).body
    ∃ report, x.2 = some report ∧
      (Truthful (Params.config { poolCapacity := 1, bandHi := 9, idMapSlots := 4 }) 2
        (.newOrder ⟨7, 6, 4, .bid, .fok⟩)
        { before := g.book.flat
          ids := g.feed.orders
          tape := (g.asked OrderBook.engine 2 (.newOrder ⟨7, 6, 4, .bid, .fok⟩)).2.2
          report := report
          after := x.1.book.flat
          ids' := x.1.feed.orders } ↔
        ¬ (Request.newOrder ⟨7, 6, 4, .bid, .fok⟩).ForNothing 2 g.feed.orders) :=
  truthful_iff _ ⟨by decide, by decide, by decide, by decide⟩ _ 2 _ { owner := 2 } _
    (by decide +kernel) rfl (by decide +kernel)

/-- A market order for nothing is reported as filled. -/
theorem filled_by_nothing :
    let g := run { poolCapacity := 1, bandHi := 9, idMapSlots := 4 } [.accept 1]
    let body := (Message.market ⟨7, 0, .ask⟩).body
    let x := handleFrame OrderBook.engine g 1 body
    decodeRequest body = some (.market ⟨7, 0, .ask⟩) ∧ x.2 = some ⟨7, 0, .filled⟩ ∧
      ¬ Truthful (Params.config { poolCapacity := 1, bandHi := 9, idMapSlots := 4 }) 1
        (.market ⟨7, 0, .ask⟩)
        { before := g.book.flat
          ids := g.feed.orders
          tape := (g.asked OrderBook.engine 1 (.market ⟨7, 0, .ask⟩)).2.2
          report := ⟨7, 0, .filled⟩
          after := x.1.book.flat
          ids' := x.1.feed.orders } := by
  refine ⟨by decide +kernel, by decide +kernel, fun htrue => ?_⟩
  have hrejected := (htrue.status.refused (Or.inl rfl)).1
  cases hrejected

end Gateway

end Lob
