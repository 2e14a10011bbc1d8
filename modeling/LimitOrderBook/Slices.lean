import LimitOrderBook.Bookkeeper

/-! # Orders in slices

An order that never rests (an IOC limit order, or a market order without protection) may be sent
in any number of slices: the book it leaves, the quantity it fills and the tape are those of the
whole order, but that a trade may be cut between two slices (`slices_run`).  It holds under every
self-trade policy: a slice that is stopped leaves the order that stops it in front of the next.

The algebra behind it is that of the walk: walking `a` and then `b` is walking `a + b`
(`walk_split`). -/

namespace Lob

open KeyedQueue

/-! ### Tapes up to cuts -/

namespace Event

/-- The event with another taker. -/
def under (id : OrderId) : Event → Event
  | trade _ maker px k => trade id maker px k
  | cancel k owner => cancel k owner

/-- Put a trade before a tape; it is made one with a first trade of the same maker. -/
def join : Event → List Event → List Event
  | trade taker maker px k, trade taker' maker' px' k' :: tape =>
      if maker = maker' then trade taker maker px (k + k') :: tape
      else trade taker maker px k :: trade taker' maker' px' k' :: tape
  | e, tape => e :: tape

/-- A trade stays apart from a tape that is not about its maker. -/
theorem join_of_ne {e : Event} {tape : List Event} (h : ∀ e' ∈ tape, e'.maker ≠ e.maker) :
    e.join tape = e :: tape := by
  cases e with
  | cancel id owner => rfl
  | trade taker maker px k =>
      cases tape with
      | nil => rfl
      | cons e' tape =>
          cases e' with
          | cancel id owner => rfl
          | trade taker' maker' px' k' =>
              have hne : ¬ maker = maker' := fun he => h _ List.mem_cons_self he.symm
              exact if_neg hne

end Event

/-- The tape with its cut trades made whole. -/
def joined (tape : List Event) : List Event := tape.foldr Event.join []

section walk

variable {stp : Stp} {s : Side} {taker : OrderId} {limit : Int} {owner : Owner}

/-- Who takes shows in the tape only. -/
theorem walk_under (id : OrderId) : ∀ (q : List Resting) (n : Qty),
    walk stp s id limit owner q n =
      { walk stp s taker limit owner q n with
        tape := (walk stp s taker limit owner q n).tape.map (Event.under id) }
  | [], n => rfl
  | r :: q, n => by
      have ih := walk_under id q
      by_cases h : n = 0 ∨ crosses s r.price limit = false
      · rw [walk_stop h, walk_stop h]
        rfl
      · by_cases ho : r.Own stp owner
        · by_cases hs : stp = .rejectIncoming
          · rw [walk_block h ho hs, walk_block h ho hs]
            rfl
          · rw [walk_kill h ho hs, walk_kill h ho hs, ih n]
            rfl
        · rcases Nat.lt_or_ge n.toNat r.qty.toNat with hlt | hle
          · rw [walk_part h ho hlt, walk_part h ho hlt]
            rfl
          · rw [walk_full h ho hle, walk_full h ho hle, ih (n - r.qty)]
            rfl

/-- The walks of `a` and then of `b` are the walk of `n`. -/
structure Successive (wa wb w : Walk) : Prop where
  queue : wb.queue = w.queue
  remaining : wa.remaining.toNat + wb.remaining.toNat = w.remaining.toNat
  tape : wa.tape.foldr Event.join wb.tape = w.tape

/-- An event about the front order, before walks that are about the others. -/
theorem Successive.cons {wa wb w : Walk} {e : Event} (h : Successive wa wb w)
    (hne : ∀ e' ∈ w.tape, e'.maker ≠ e.maker) :
    Successive { wa with tape := e :: wa.tape } wb { w with tape := e :: w.tape } where
  queue := h.queue
  remaining := h.remaining
  tape := by
    rw [List.foldr_cons, h.tape]
    exact Event.join_of_ne hne

/-- The events of a walk are not about an order that stands before it. -/
theorem walk_maker_ne {r : Resting} {q : List Resting} (hnd : ((r :: q).map Resting.id).Nodup)
    (n : Qty) : ∀ e ∈ (walk stp s taker limit owner q n).tape, e.maker ≠ r.id := by
  intro e he hr
  obtain ⟨hnot, hq⟩ := List.nodup_cons.mp hnd
  obtain ⟨r', hr', hid⟩ := walk_maker hq he
  exact hnot (hr ▸ hid ▸ List.mem_map_of_mem hr')

/-- The walk of `a` ends within the front order, and the walk of `b` goes on with what it left. -/
theorem walk_split_within {r : Resting} (q : List Resting) {a b n : Qty}
    (h : a.toNat + b.toNat = n.toNat) (hc : ¬ crosses s r.price limit = false)
    (ho : ¬ r.Own stp owner) (ha' : ¬ (a = 0 ∨ crosses s r.price limit = false))
    (hn' : ¬ (n = 0 ∨ crosses s r.price limit = false)) (hlt : a.toNat < r.qty.toNat) :
    Successive (walk stp s taker limit owner (r :: q) a)
      (walk stp s taker limit owner (walk stp s taker limit owner (r :: q) a).queue b)
      (walk stp s taker limit owner (r :: q) n) := by
  have hleft : (r.qty - a).toNat = r.qty.toNat - a.toNat :=
    UInt32.toNat_sub_of_le _ _ (Nat.le_of_lt hlt)
  rw [walk_part ha' ho hlt]
  by_cases hb : b = 0
  · obtain rfl : a = n := UInt32.toNat_inj.mp (by rw [← h, hb]; rfl)
    subst hb
    rw [walk_zero, walk_part hn' ho hlt]
    exact ⟨rfl, rfl, rfl⟩
  · have hb' : ¬ (b = 0 ∨ crosses s r.price limit = false) := not_or.mpr ⟨hb, hc⟩
    have hsum : a + b = n := UInt32.toNat_inj.mp (by
      rw [UInt32.toNat_add, h, Nat.mod_eq_of_lt n.toNat_lt])
    rcases Nat.lt_or_ge b.toNat (r.qty - a).toNat with hlt' | hle'
    · have hnlt : n < r.qty := by
        rw [UInt32.lt_iff_toNat_lt]
        omega
      rw [walk_part (r := { r with qty := r.qty - a }) hb' ho hlt', walk_part hn' ho hnlt]
      refine ⟨?_, rfl, ?_⟩
      · have hqty : r.qty - a - b = r.qty - n := by
          rw [← UInt32.toNat_inj, UInt32.toNat_sub_of_le _ _ (Nat.le_of_lt hlt'), hleft,
            UInt32.toNat_sub_of_le _ _ (Nat.le_of_lt hnlt)]
          omega
        rw [hqty]
      · simp [Event.join, hsum]
    · have hnle : r.qty ≤ n := by
        rw [UInt32.le_iff_toNat_le]
        omega
      have hrest : b - (r.qty - a) = n - r.qty := by
        rw [← UInt32.toNat_inj, UInt32.toNat_sub_of_le _ _ hle', hleft,
          UInt32.toNat_sub_of_le _ _ hnle]
        omega
      rw [walk_full (r := { r with qty := r.qty - a }) hb' ho hle', walk_full hn' ho hnle,
        hrest]
      refine ⟨rfl, Nat.zero_add _, ?_⟩
      have hwhole : a + (r.qty - a) = r.qty := by
        rw [UInt32.add_comm, UInt32.sub_add_cancel]
      simp [Event.join, hwhole]

/-- **Walking `a` and then `b` is walking `a + b`.** -/
theorem walk_split : ∀ (q : List Resting) {a b n : Qty}, a.toNat + b.toNat = n.toNat →
    (q.map Resting.id).Nodup →
    Successive (walk stp s taker limit owner q a)
      (walk stp s taker limit owner (walk stp s taker limit owner q a).queue b)
      (walk stp s taker limit owner q n)
  | [], a, b, n, h, _ => ⟨rfl, h, rfl⟩
  | r :: q, a, b, n, h, hnd => by
      have htail : (q.map Resting.id).Nodup := (List.nodup_cons.mp hnd).2
      by_cases ha : a = 0
      · obtain rfl : b = n := UInt32.toNat_inj.mp (by rw [← h, ha]; exact (Nat.zero_add _).symm)
        subst ha
        rw [walk_zero]
        exact ⟨rfl, Nat.zero_add _, rfl⟩
      have hn : n ≠ 0 := by
        rintro rfl
        exact ha (UInt32.toNat_inj.mp (Nat.eq_zero_of_add_eq_zero_right h))
      by_cases hc : crosses s r.price limit = false
      · rw [walk_stop (Or.inr hc), walk_stop (Or.inr hc), walk_stop (Or.inr hc)]
        exact ⟨rfl, h, rfl⟩
      have ha' : ¬ (a = 0 ∨ crosses s r.price limit = false) := not_or.mpr ⟨ha, hc⟩
      have hn' : ¬ (n = 0 ∨ crosses s r.price limit = false) := not_or.mpr ⟨hn, hc⟩
      by_cases ho : r.Own stp owner
      · by_cases hs : stp = .rejectIncoming
        · -- stopped at its own order, which stops what is left of it as well
          rw [walk_block ha' ho hs, walk_block hn' ho hs]
          by_cases hb : b = 0
          · subst hb
            rw [walk_zero]
            exact ⟨rfl, h, rfl⟩
          · rw [walk_block (not_or.mpr ⟨hb, hc⟩) ho hs]
            exact ⟨rfl, h, rfl⟩
        · rw [walk_kill ha' ho hs, walk_kill hn' ho hs]
          exact (walk_split q h htail).cons (walk_maker_ne hnd n)
      · rcases Nat.lt_or_ge a.toNat r.qty.toNat with hlt | hle
        · exact walk_split_within q h hc ho ha' hn' hlt
        · have hnle : r.qty ≤ n := by
            rw [UInt32.le_iff_toNat_le]
            omega
          rw [walk_full ha' ho hle, walk_full hn' ho hnle]
          have hrest : (a - r.qty).toNat + b.toNat = (n - r.qty).toNat := by
            rw [UInt32.toNat_sub_of_le _ _ hle, UInt32.toNat_sub_of_le _ _ hnle]
            omega
          exact (walk_split q hrest htail).cons (walk_maker_ne hnd _)

/-- A slice of an order of `id`, under an id `k` of its own, and what is left of the order. -/
theorem walk_slice {id : OrderId} (k : OrderId) {q : List Resting} {a b n : Qty}
    (h : a.toNat + b.toNat = n.toNat) (hnd : (q.map Resting.id).Nodup) :
    let wa := walk stp s k limit owner q a
    let wb := walk stp s id limit owner wa.queue b
    let w := walk stp s id limit owner q n
    wb.queue = w.queue ∧ wa.remaining.toNat + wb.remaining.toNat = w.remaining.toNat ∧
      (wa.tape.map (Event.under id)).foldr Event.join wb.tape = w.tape := by
  obtain ⟨hqueue, hrem, htape⟩ := @walk_split stp s id limit owner q a b n h hnd
  rw [@walk_under stp s k limit owner id q a] at hqueue hrem htape
  exact ⟨hqueue, hrem, htape⟩

end walk

/-! ### Calls -/

/-- An order of side `s` that never rests: an IOC limit order, or else a market order. -/
def immediate (s : Side) (owner : Owner) : Option Int → OrderId → Qty → Op
  | some px, id, qty => .submitLimit id s px qty .ioc owner
  | none, id, qty => .submitMarket id s qty owner

/-- The slices of an order, each under an id and for a quantity of its own. -/
def slices (s : Side) (owner : Owner) (px : Option Int) (xs : List (OrderId × Qty)) : List Op :=
  xs.map fun x => immediate s owner px x.1 x.2

theorem slices_cons (s : Side) (owner : Owner) (px : Option Int) (x : OrderId × Qty)
    (xs : List (OrderId × Qty)) :
    slices s owner px (x :: xs) = immediate s owner px x.1 x.2 :: slices s owner px xs := rfl

namespace Flat

variable {c : Config} (F : Flat) (s : Side) (owner : Owner) {px : Option Int} {id : OrderId}

/-- The call of an order that never rests is its walk. -/
theorem call_immediate (hid : id ≠ 0) (hnew : id ∉ F.ids) (hpx : ∀ x ∈ px, c.inBand x = true)
    (hprot : px = none → c.protection ≤ 0) (qty : Qty) :
    let w := walk c.stp s id (px.getD s.marketPrice) owner (F.side s.opp) qty
    (F.call c (immediate s owner px id qty)).1 = F.withSide s.opp w.queue ∧
      (F.call c (immediate s owner px id qty)).2.1.filled = (qty - w.remaining).toNat ∧
      (F.call c (immediate s owner px id qty)).2.2 = w.tape := by
  by_cases hqty : qty = 0
  · subst hqty
    cases px <;> simp [immediate, call, submitLimit, submitMarket, Reply.filled, withSide_side]
  · cases px with
    | none =>
        have hlimit : F.marketLimit c s = some s.marketPrice :=
          if_neg (Int.not_lt.mpr (hprot rfl))
        simp [immediate, call, submitMarket, hid, hqty, hnew, hlimit, Reply.filled]
    | some x =>
        have hband : c.inBand x = true := hpx x rfl
        simp only [immediate, call, submitLimit, execute, hid, hqty, hband, hnew, or_self,
          Bool.true_eq_false, if_false, Option.getD_some, reduceCtorEq, false_and, and_false]
        split_ifs <;> exact ⟨rfl, rfl, rfl⟩

/-- An order priced outside the band is refused. -/
theorem call_immediate_far {x : Int} (hpx : c.inBand x = false) (qty : Qty) :
    F.call c (immediate s owner (some x) id qty) =
      (F, .submit { filled := 0, rested := false, rejected := true }, []) := by
  simp [immediate, call, submitLimit, hpx]

/-! ### Runs -/

/-- Together the slices of an order walk like the order. -/
theorem walk_slices (id : OrderId) (hpx : ∀ x ∈ px, c.inBand x = true) (hprot : px = none → c.protection ≤ 0) :
    ∀ (xs : List (OrderId × Qty)) (F : Flat) {n : Qty}, F.WF c →
    (∀ x ∈ xs, x.1 ≠ 0 ∧ x.1 ∉ F.ids) → (xs.map fun x => x.2.toNat).sum = n.toNat →
    let w := walk c.stp s id (px.getD s.marketPrice) owner (F.side s.opp) n
    let as := Transition.outputs (call c) F (slices s owner px xs)
    Transition.finalState (call c) F (slices s owner px xs) = F.withSide s.opp w.queue ∧
      (as.map fun a => a.1.filled).sum + w.remaining.toNat = n.toNat ∧
      joined ((as.flatMap Prod.snd).map (Event.under id)) = w.tape
  | [], F, n, _, _, hsum => by
      obtain rfl : 0 = n := UInt32.toNat_inj.mp hsum
      simp [slices, Transition.outputs, Transition.finalState, joined, withSide_side]
  | (k, a) :: xs, F, n, hF, hids, hsum => by
      obtain ⟨hk, hnew⟩ : k ≠ 0 ∧ k ∉ F.ids := hids (k, a) List.mem_cons_self
      have hsum' : a.toNat + (xs.map fun x => x.2.toNat).sum = n.toNat := hsum
      obtain ⟨b, hb⟩ : ∃ b : Qty, (xs.map fun x => x.2.toNat).sum = b.toNat := by
        refine ⟨.ofNat _, (UInt32.toNat_ofNat_of_lt ?_).symm⟩
        exact Nat.lt_of_le_of_lt (Nat.le_trans (Nat.le_add_left _ _) (Nat.le_of_eq hsum')) n.toNat_lt
      obtain ⟨hbook, hfilled, htape⟩ := F.call_immediate s owner hk hnew hpx hprot a
      obtain ⟨hqueue, hrem, hwhole⟩ := @walk_slice c.stp s (px.getD s.marketPrice) owner id k
        (F.side s.opp) a b n (by rw [← hb, hsum']) (side_nodup hF.nodup _)
      obtain ⟨hstate, hsumf, htapes⟩ := walk_slices id hpx hprot xs
        (F.withSide s.opp (walk c.stp s k (px.getD s.marketPrice) owner (F.side s.opp) a).queue)
        (hF.walk _ _ _ _ _) (fun x hx => ⟨(hids x (List.mem_cons_of_mem _ hx)).1, fun hm =>
          (hids x (List.mem_cons_of_mem _ hx)).2 (mem_ids_of_walk hm)⟩) hb
      rw [side_withSide_self] at hstate hsumf htapes
      simp only [slices_cons, Transition.finalState, Transition.outputs, List.map_cons, hbook]
      refine ⟨?_, ?_, ?_⟩
      · rw [← hqueue]
        exact hstate.trans (by cases s <;> rfl)
      · have hle : (walk c.stp s k (px.getD s.marketPrice) owner (F.side s.opp) a).remaining ≤ a :=
          walk_remaining_le _ _
        have hle' := UInt32.le_iff_toNat_le.mp hle
        rw [List.sum_cons, hfilled, UInt32.toNat_sub_of_le _ _ hle]
        omega
      · rw [← hwhole, ← htapes, List.flatMap_cons, htape, List.map_append]
        exact List.foldr_append

/-- Slices priced outside the band do nothing. -/
theorem slices_far {x : Int} (hpx : c.inBand x = false) : ∀ xs : List (OrderId × Qty),
    let as := Transition.outputs (call c) F (slices s owner (some x) xs)
    Transition.finalState (call c) F (slices s owner (some x) xs) = F ∧
      (as.map fun a => a.1.filled).sum = 0 ∧ as.flatMap Prod.snd = []
  | [] => ⟨rfl, rfl, rfl⟩
  | y :: ys => by
      obtain ⟨hstate, hfilled, htape⟩ := slices_far hpx ys
      simp only [slices_cons, Transition.finalState, Transition.outputs, call_immediate_far F s owner hpx,
        List.map_cons, List.sum_cons, List.flatMap_cons]
      exact ⟨hstate, by rw [hfilled]; rfl, by rw [htape]; rfl⟩

end Flat

/-- A run from a book that represents `F` is simulated by the run of the flat book from `F`. -/
theorem Book.Repr.run {c : Config} {b : OrderBook} {F : Flat} (h : Repr c b F) (ops : List Op) :
    Transition.outputs Book.call b ops = Transition.outputs (Flat.call c) F ops ∧
      Repr c (Transition.finalState Book.call b ops) (Transition.finalState (Flat.call c) F ops) :=
  Transition.outputs_eq_of_sim (P := fun _ _ => True) (R := Repr c) (fun _ _ op h _ => h.call op) h
    (Transition.along_of_forall _ fun _ _ => trivial)

/-- The calls `parts` on the book `b` do what the one call `whole` does. -/
structure AsOne (b : OrderBook) (parts : List Op) (whole : Op) : Prop where
  book : OrderBook.flat (Transition.finalState Book.call b parts) = OrderBook.flat (b.call whole).1
  filled : ((Transition.outputs Book.call b parts).map fun a => a.1.filled).sum =
    (b.call whole).2.1.filled
  tape : joined (((Transition.outputs Book.call b parts).flatMap Prod.snd).map
    (Event.under whole.id)) = (b.call whole).2.2

/-- **An order that never rests may be sent in slices**: they leave the same book, fill the same
quantity and, their cut trades made whole, print the same tape. -/
theorem OrderBook.slices_run (p : Params) (hp : p.Valid) (ops : List Op) (s : Side) (owner : Owner)
    (px : Option Int) (hprot : px = none → p.protection ≤ 0) (id : OrderId) (qty : Qty)
    (xs : List (OrderId × Qty)) (hsum : (xs.map fun x => x.2.toNat).sum = qty.toNat)
    (hids : ∀ k ∈ id :: xs.map Prod.fst, k ≠ 0 ∧ k ∉ (run p ops).flat.ids) :
    AsOne (run p ops) (slices s owner px xs) (immediate s owner px id qty) := by
  have hrepr := (run_repr hp ops).2
  rw [flat_eq hrepr] at hids
  generalize Transition.finalState (Flat.call p.config) {} ops = F at hrepr hids
  obtain ⟨hid, hnew⟩ := hids id List.mem_cons_self
  have hxs : ∀ x ∈ xs, x.1 ≠ 0 ∧ x.1 ∉ F.ids :=
    fun x hx => hids x.1 (List.mem_cons_of_mem _ (List.mem_map_of_mem hx))
  obtain ⟨houts, hafter⟩ := hrepr.run (slices s owner px xs)
  obtain ⟨hans, hwhole⟩ := hrepr.call (immediate s owner px id qty)
  have hwid : (immediate s owner px id qty).id = id := by cases px <;> rfl
  by_cases hpx : ∀ x ∈ px, p.config.inBand x = true
  · obtain ⟨hbook, hfilled, htape⟩ := Flat.walk_slices s owner id hpx hprot xs F hrepr.wf hxs
      hsum
    obtain ⟨hbook', hfilled', htape'⟩ := F.call_immediate s owner hid hnew hpx hprot qty
    refine ⟨?_, ?_, ?_⟩
    · rw [flat_eq hafter, flat_eq hwhole, hbook, hbook']
    · have hle : (walk p.config.stp s id (px.getD s.marketPrice) owner (F.side s.opp) qty).remaining ≤
          qty := walk_remaining_le _ _
      rw [houts, hans, hfilled', UInt32.toNat_sub_of_le _ _ hle]
      omega
    · rw [houts, hans, hwid, htape, htape']
  · obtain ⟨x, rfl, hx⟩ : ∃ x, px = some x ∧ p.config.inBand x = false := by
      cases px with
      | none => exact absurd (fun x hx => by cases hx) hpx
      | some x => exact ⟨x, rfl, by simpa using hpx⟩
    obtain ⟨hbook, hfilled, htape⟩ := F.slices_far s owner hx xs
    refine ⟨?_, ?_, ?_⟩
    · rw [flat_eq hafter, flat_eq hwhole, hbook, F.call_immediate_far s owner hx]
    · rw [houts, hans, hfilled, F.call_immediate_far s owner hx]
      rfl
    · rw [houts, hans, htape, F.call_immediate_far s owner hx]
      rfl

/-- Three slices, the second of which ends within an order and the third of which kills one. -/
theorem OrderBook.slices_run_small :
    AsOne (OrderBook.run { stp := .cancelResting, bandHi := 9, idMapSlots := 4 }
        [.submitLimit 1 .ask 5 2 .gtc 7, .submitLimit 2 .ask 5 4 .gtc 8,
          .submitLimit 3 .ask 6 4 .gtc 9, .submitLimit 4 .ask 6 4 .gtc 8])
      (slices .bid 9 (some 6) [(7, 1), (8, 3), (7, 4)]) (immediate .bid 9 (some 6) 7 8) := by
  refine OrderBook.slices_run _ ⟨by decide, by decide, by decide, by decide⟩ _ _ _ _
    (fun h => by cases h) _ _ _ (by decide) ?_
  have hids : (OrderBook.run { stp := .cancelResting, bandHi := 9, idMapSlots := 4 }
      [.submitLimit 1 .ask 5 2 .gtc 7, .submitLimit 2 .ask 5 4 .gtc 8,
        .submitLimit 3 .ask 6 4 .gtc 9, .submitLimit 4 .ask 6 4 .gtc 8]).flat.ids = [1, 2, 3, 4] := by
    decide +kernel
  rw [hids]
  simp

end Lob
