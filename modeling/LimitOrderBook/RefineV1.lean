import LimitOrderBook.RefineCalls

/-! # The first indexed engine refines the flat book

The engine `v1` counts the filled quantity up instead of the open quantity down, and lets a
maker run down to zero before it unlinks it.  Its loops walk the same queues
(`V1.fillLevel_spec`, `V1.matchLevels_spec`), so its calls answer as the flat book does
(`Repr.callV1`). -/

namespace Lob

open KeyedQueue Chain

namespace Book

variable {A L I P : Type} [DecidableEq A] [Ladder L A] [Index I A] [Allocator P A (Order A)]
  [LawfulLadder L A] [LawfulIndex I A] [LawfulAllocator P A (Order A)]

namespace V1

section fill

variable {stp : Stp} {s : Side} {taker : OrderId} {limit : Int} {owner : Owner} {want : Qty}
  {F : Flat} {lv : Side → Int → Level A} {band : Int → Bool} {ptr : OrderId → A} {px : Int}
  {rest : List Resting}

theorem own_iff {r : Resting} :
    (owner ≠ 0 ∧ r.owner = owner ∧ stp ≠ .none) ↔ r.Own stp owner := by
  unfold Resting.Own
  tauto

omit [DecidableEq A] [LawfulIndex I A] [LawfulAllocator P A (Order A)] in
/-- A taker that has all it wants leaves the level as it is. -/
theorem fillLevel_done {w : Fill A I P} (h : w.qty = want) (n : ℕ) (a : Option A) :
    fillLevel stp taker want owner n a w = w := by
  have hlt : ¬ want < want := by
    rw [UInt32.lt_iff_toNat_lt]
    omega
  cases n with
  | zero => rfl
  | succ n =>
      cases a with
      | none => rfl
      | some a => rw [fillLevel, h, if_neg hlt]

/-- **The inner loop of `match` walks the queue of its level.** -/
theorem fillLevel_spec (stp : Stp) (taker : OrderId) (owner : Owner)
    (hcross : crosses s px limit = true) : ∀ (q : List Resting) (w : Fill A I P) (k : Qty) (n : ℕ),
    Filling F lv band ptr s.opp px rest w q → k ≤ want → w.qty = want - k → w.stopped = false →
    q.length < n →
    let w' := fillLevel stp taker want owner n (ptrs ptr q).head? w
    let W := walk stp s taker limit owner q k
    Filling F lv band ptr s.opp px rest w' W.queue ∧ w'.qty = want - W.remaining ∧
      w'.stopped = W.stopped ∧ w'.tape = w.tape ++ W.tape
  | [], w, k, n + 1, h, _, hk, hs, _ => by
      refine ⟨h, hk, hs, ?_⟩
      simp [fillLevel, ptrs, walk]
  | r :: q, w, k, n + 1, h, hkw, hk, hs, hlt => by
      have hlt' : q.length < n := by simpa using hlt
      by_cases hk0 : k = 0
      · subst hk0
        have hw : w.qty = want := by rw [hk, UInt32.sub_zero]
        rw [fillLevel_done hw, walk_zero]
        exact ⟨h, hk, hs, by simp⟩
      obtain ⟨hnode, hnext⟩ := h.front
      have hpx : r.price = px := h.price r List.mem_cons_self
      have hgo : ¬ (k = 0 ∨ crosses s r.price limit = false) := by
        rw [hpx, hcross]
        simpa using hk0
      have hmore : w.qty < want := by rw [hk, filled_lt_iff hkw]; exact hk0
      have hopen : want - w.qty = k := by rw [hk, sub_sub_self]
      have hhead : (ptrs ptr (r :: q)).head? = some (ptr r.id) := rfl
      simp only [hhead, fillLevel, if_pos hmore, hnode.owner, own_iff, hnode.id, hnode.qty, hnext,
        hopen]
      by_cases ho : r.Own stp owner
      · by_cases hr : stp = .rejectIncoming
        · rw [if_pos ho, if_pos hr, walk_block hgo ho hr]
          exact ⟨⟨h.core, h.price, h.rest_price, h.lvl_price⟩, hk, rfl, by simp⟩
        · rw [if_pos ho, if_neg hr, walk_kill hgo ho hr]
          obtain ⟨h1, h2, h3, h4⟩ :=
            fillLevel_spec stp taker owner hcross q
              ((w.emit (.cancel r.id r.owner)).drop (ptr r.id)) k n (h.emit _).drop hkw hk hs hlt'
          exact ⟨h1, h2, h3, by rw [h4]; simp [Fill.drop, Fill.emit]⟩
      · rw [if_neg ho]
        rcases Nat.lt_or_ge k.toNat r.qty.toNat with hkr | hrk
        · -- the maker outlives the taker
          have hle : k ≤ r.qty := Nat.le_of_lt hkr
          have htake : (if r.qty < k then r.qty else k) = k := if_neg (Nat.not_lt.mpr hle)
          have hne : ¬ r.qty - k = 0 := by
            refine UInt32.sub_ne_zero ?_
            rintro rfl
            exact Nat.lt_irrefl _ hkr
          have hdone : w.qty + k = want := by rw [hk, UInt32.sub_add_cancel]
          rw [htake, if_neg hne, walk_part hgo ho hkr, fillLevel_done hdone]
          refine ⟨((h.reduce hle).with_qty _).emit _, ?_, hs, ?_⟩
          · rw [UInt32.sub_zero]
            exact hdone
          · simp [Fill.emit, Fill.reduce, h.lvl_price, hpx]
        · -- the maker runs down to zero and leaves
          have htake : (if r.qty < k then r.qty else k) = r.qty := by
            split_ifs with hc
            · rfl
            · exact UInt32.toNat_inj.mp (Nat.le_antisymm (Nat.le_of_not_lt hc) hrk)
          have hself : r.qty ≤ r.qty := Nat.le_refl _
          rw [htake, if_pos (UInt32.sub_self _), walk_full hgo ho hrk]
          have hq := (((h.reduce hself).with_qty (w.qty + r.qty)).emit
            (.trade taker r.id px r.qty)).drop
          have hle : k - r.qty ≤ want := by
            rw [UInt32.le_iff_toNat_le, UInt32.toNat_sub_of_le _ _ hrk]
            exact (Nat.sub_le _ _).trans hkw
          have hqty : w.qty + r.qty = want - (k - r.qty) := by
            rw [hk, UInt32.sub_eq_add_neg want (k - r.qty), UInt32.neg_sub, UInt32.sub_eq_add_neg,
              UInt32.sub_eq_add_neg, UInt32.add_assoc, UInt32.add_comm (-k)]
          obtain ⟨h1, h2, h3, h4⟩ :=
            fillLevel_spec stp taker owner hcross q _ (k - r.qty) n hq hle hqty hs hlt'
          have hlvl : (w.reduce (ptr r.id) r.qty).lvl.price = px := h.lvl_price
          simp only [hlvl]
          exact ⟨h1, h2, h3, by rw [h4, hpx]; simp [Fill.drop, Fill.emit, Fill.reduce]⟩

end fill

section sweep

variable {c : Config} {s : Side} {want : Qty} {b : Book L I P}

omit [DecidableEq A] [LawfulLadder L A] [LawfulIndex I A] [LawfulAllocator P A (Order A)] in
theorem matchLevels_done (s : Side) (taker : OrderId) (limit : Int) (owner : Owner) (n : ℕ) :
    matchLevels s taker limit want owner n b want = ⟨b, want, false, []⟩ := by
  have hlt : ¬ want < want := by
    rw [UInt32.lt_iff_toNat_lt]
    omega
  cases n with
  | zero => rfl
  | succ n => rw [matchLevels, if_neg hlt]

/-- **The outer loop of `match` walks the whole side.** -/
theorem matchLevels_spec (taker : OrderId) (limit : Int) (owner : Owner) : ∀ (fuel : ℕ)
    (b : Book L I P) (F : Flat) (n : Qty), Repr c b F → n ≤ want → (F.side s.opp).length < fuel →
    Sweeps c s.opp F (matchLevels s taker limit want owner fuel b (want - n))
      (walk c.stp s taker limit owner (F.side s.opp) n)
      (want - (walk c.stp s taker limit owner (F.side s.opp) n).remaining)
  | fuel + 1, b, F, n, h, hle, hlt => by
      have hsame : F.withSide s.opp (F.side s.opp) = F := by cases s <;> rfl
      by_cases hn : n = 0
      · subst hn
        rw [UInt32.sub_zero, matchLevels_done, walk_zero, UInt32.sub_zero]
        exact ⟨by rw [hsame]; exact h, rfl, rfl, rfl⟩
      have hmore : want - n < want := (filled_lt_iff hle).mpr hn
      cases hq : F.side s.opp with
      | nil =>
          simp only [matchLevels, if_pos hmore, h.best?_nil hq]
          exact ⟨by rw [walk, ← hq, hsame]; exact h, rfl, rfl, rfl⟩
      | cons r q₀ =>
          have hbest := h.best?_cons hq
          cases hc : crosses s r.price limit with
          | false =>
              simp only [matchLevels, if_pos hmore, hbest, hc]
              rw [walk_stop (Or.inr hc), ← hq]
              exact ⟨by rw [hsame]; exact h, rfl, rfl, rfl⟩
          | true =>
              simp only [matchLevels, if_pos hmore, hbest, hc, if_true, h.stp]
              have hord := h.orderly.ordered s.opp
              rw [hq] at hord
              obtain ⟨q, rest, hsplit, hqne, hpx, hrest⟩ := hord.split_head
              have hside : F.side s.opp = q ++ rest := hq.trans hsplit
              obtain ⟨hocc, ptr, hhead, hfill⟩ := h.filling hside hqne hpx hrest (want - n)
              obtain ⟨hw, hqty, hstop, htape⟩ :=
                fillLevel_spec c.stp taker owner hc q _ n (Index.size b.orders + 1) hfill hle rfl
                  rfl (h.length_lt hside)
              rw [← hhead] at hw hqty hstop htape
              have hb := h.settle_walk hside hocc hpx hw
              have hlen : rest.length < fuel := by
                have := List.length_pos_of_ne_nil hqne
                rw [hside, List.length_append] at hlt
                omega
              rw [← hq, hside]
              refine Sweeps.level (f := fun k => want - k) hc hw.price hb hqty hstop htape ?_ ?_
              · intro hb' n' hn' hqty'
                have hrec := matchLevels_spec taker limit owner fuel _ _ n' hb'
                  (Nat.le_trans hn' hle) (by rw [Flat.side_withSide_self]; exact hlen)
                rw [Flat.side_withSide_self] at hrec
                rw [hqty']
                exact hrec
              · intro hz
                rw [hz, UInt32.sub_zero, matchLevels_done]

end sweep

end V1

/-! ### Public operations -/

section calls

variable {c : Config} {b : Book L I P} {F : Flat} {s : Side} {id : OrderId} {px : Int} {qty : Qty}
  {tif : Tif} {owner : Owner}

theorem Repr.matchOrdersV1 (h : Repr c b F) (s : Side) (taker : OrderId) (limit : Int)
    (want : Qty) (owner : Owner) :
    let m := V1.matchOrders b s taker limit want owner
    let W := walk c.stp s taker limit owner (F.side s.opp) want
    Repr c m.book (F.withSide s.opp W.queue) ∧ m.filled = want - W.remaining ∧
      m.stpStopped = W.stopped ∧ m.tape = W.tape := by
  have hspec := V1.matchLevels_spec taker limit owner (Index.size b.orders + 1) b F want h
    (Nat.le_refl _ : want ≤ want) (h.length_lt (s := s.opp) (List.append_nil _).symm)
  rw [UInt32.sub_self] at hspec
  obtain ⟨h1, h2, h3, h4⟩ := hspec
  exact ⟨h1, h2, h3, h4⟩

/-- The two `execute`s agree once their loops do. -/
theorem Repr.executeV1 (h : Repr c b F) (hid : LawfulIndex.Key I id) (hqty : qty ≠ 0)
    (hband : c.inBand px = true) (hnew : id ∉ F.ids) :
    Agrees c (V1.execute b s id px qty tif owner) (F.execute c s id px qty tif owner) := by
  obtain ⟨h1, h2, h3, h4⟩ := h.matchOrdersV1 s id px qty owner
  unfold V1.execute V1.fokFillable
  simp only [h.stp, h.fokFillable_eq hqty, h2, h3, h4, pos_iff, sub_sub_self]
  exact h.executed hid hband hnew h1

/-- What passes validation is executed. -/
theorem Repr.submitLimitV1_valid (h : Repr c b F) (hid : LawfulIndex.Key I id) (hqty : qty ≠ 0)
    (hband : c.inBand px = true) (hnew : id ∉ F.ids) :
    Agrees c (V1.submitLimit b id s px qty tif owner) (F.execute c s id px qty tif owner) := by
  have hin : Ladder.inBand b.bids px = true := (h.inBand .bid px).trans hband
  have hfind : ¬ (Index.find b.orders id).isSome = true := fun hf => hnew ((h.find_isSome id).mp hf)
  unfold V1.submitLimit
  rw [if_neg (by simp [hqty, hin]), if_neg hfind]
  exact h.executeV1 hid hqty hband hnew

theorem Repr.submitLimitV1 (h : Repr c b F) (hid : id ≠ 0) (s : Side) (px : Int) (qty : Qty)
    (tif : Tif) (owner : Owner) :
    Agrees c (V1.submitLimit b id s px qty tif owner) (F.submitLimit c id s px qty tif owner) := by
  unfold V1.submitLimit Flat.submitLimit
  have hb : Ladder.inBand b.bids px = c.inBand px := h.inBand .bid px
  simp only [hb, h.find_isSome]
  by_cases hbad : qty = 0 ∨ c.inBand px = false
  · rw [if_pos hbad, if_pos (by tauto)]
    exact ⟨rfl, h⟩
  · by_cases hnew : id ∈ F.ids
    · rw [if_neg hbad, if_pos hnew, if_pos (by tauto)]
      exact ⟨rfl, h⟩
    · rw [if_neg hbad, if_neg hnew, if_neg (by tauto)]
      simp only [not_or, Bool.not_eq_false] at hbad
      exact h.executeV1 (LawfulIndex.key_of_ne hid) hbad.1 hbad.2 hnew

theorem Repr.submitMarketV1 (h : Repr c b F) (hp : c.protection = 0) (hid : id ≠ 0) (s : Side)
    (qty : Qty) (owner : Owner) :
    Agrees c (V1.submitMarket b id s qty owner) (F.submitMarket c id s qty owner) := by
  have hlim : F.marketLimit c s = some s.marketPrice := by
    have hp' : ¬ 0 < c.protection := by rw [hp]; decide
    simp [Flat.marketLimit, hp']
  unfold V1.submitMarket Flat.submitMarket
  simp only [h.find_isSome, hlim]
  by_cases hbad : qty = 0 ∨ id ∈ F.ids
  · rw [if_pos hbad, if_pos (Or.inr hbad)]
    exact ⟨rfl, h⟩
  · rw [if_neg hbad, if_neg (by tauto)]
    obtain ⟨h1, h2, h3, h4⟩ := h.matchOrdersV1 s id s.marketPrice qty owner
    simp only [h2, h4]
    exact ⟨rfl, h1⟩

/-- **The engine `v1` refines the flat book** on operations that do not use id `0`. -/
theorem Repr.callV1 (h : Repr c b F) (hp : c.protection = 0) {op : Op} (hop : op.NamesOrder) :
    Agrees c (V1.call b op) (F.call c op) := by
  refine h.callWith op ?_ ?_ ?_
  · rintro id s px qty tif owner rfl
    exact h.submitLimitV1 hop s px qty tif owner
  · rintro id s qty owner rfl
    exact h.submitMarketV1 hp hop s qty owner
  · intro b F id s px qty tif owner h hid hqty hband hnew
    exact h.submitLimitV1_valid hid hqty hband hnew

end calls

end Book

end Lob
