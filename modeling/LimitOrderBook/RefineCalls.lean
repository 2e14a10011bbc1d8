import LimitOrderBook.Refine

/-! # Every public call refines the flat book

The remaining edits of a book (`Repr.eraseOrder`, `Repr.amend`, `Repr.rest`), the pre-check of a
fill-or-kill order (`Repr.fokFillable_eq`), and with these the public interface: `Repr.call` for
the final engine and `Repr.callV4` for the engines `v4` and `v5`. -/

namespace Lob

open KeyedQueue

namespace Book

variable {A L I P : Type} [Ladder L A] [Index I A] [Allocator P A (Order A)]
  [LawfulLadder L A] [LawfulIndex I A] [LawfulAllocator P A (Order A)]

/-! ### Orders that leave, shrink or arrive -/

section edits

variable {c : Config} {b : Book L I P} {F : Flat} {s : Side} {r : Resting} {px : Int}

omit [LawfulLadder L A] [LawfulIndex I A] [LawfulAllocator P A (Order A)] in
theorem eraseOrder_eq {a : A} (id : OrderId)
    (hlevel : (Allocator.deref b.pool a).level = ⟨s, px⟩)
    (hside : (Allocator.deref b.pool a).side = s)
    (hprice : (Ladder.level (b.ladder s) px).price = px) :
    b.eraseOrder id a = b.settle s px
      ⟨Allocator.destroy (unlink b.pool (Ladder.level (b.ladder s) px) a).1 a,
        Index.erase b.orders id, (unlink b.pool (Ladder.level (b.ladder s) px) a).2, 0, false, []⟩ := by
  have hpx : (unlink b.pool (Ladder.level (b.ladder s) px) a).2.price = px := by
    rw [unlink_level]
    exact hprice
  unfold eraseOrder removeFromBook settle
  simp only [hlevel, hside]
  cases s with
  | bid =>
      simp only [ladder] at hpx ⊢
      simp only [hpx]
      split_ifs <;> rfl
  | ask =>
      simp only [ladder] at hpx ⊢
      simp only [hpx]
      split_ifs <;> rfl

omit [LawfulLadder L A] [Index I A] [LawfulIndex I A] [LawfulAllocator P A (Order A)] in
theorem amend_eq {a : A} (n : Qty) (hlevel : (Allocator.deref b.pool a).level = ⟨s, px⟩)
    (hhead : (Ladder.level (b.ladder s) px).head.isNone = false) :
    b.amend a n = b.settle s px
      ⟨Allocator.write b.pool a { Allocator.deref b.pool a with qty := n }, b.orders,
        { Ladder.level (b.ladder s) px with
          totalQty := (Ladder.level (b.ladder s) px).totalQty -
            ((Allocator.deref b.pool a).qty - n).toUInt64 }, 0, false, []⟩ := by
  unfold amend settle
  simp only [hlevel]
  cases s with
  | bid =>
      simp only [ladder] at hhead ⊢
      simp only [hhead]
      rfl
  | ask =>
      simp only [ladder] at hhead ⊢
      simp only [hhead]
      rfl

/-- The node of a resting order, and the facts about it that the calls read. -/
theorem Repr.node_of_mem (h : Repr c b F) (hr : r ∈ F.side s) : ∃ ptr,
    Core b.pool b.orders b.levels c.inBand F ptr ∧
      Index.find b.orders r.id = some (ptr r.id) ∧
      NodeRepr (Allocator.deref b.pool (ptr r.id)) s r ∧
      LawfulLadder.occ (b.ladder s) r.price ∧
      (Ladder.level (b.ladder s) r.price).price = r.price := by
  obtain ⟨ptr, hcore⟩ := h.core
  have hocc := h.occ_of_mem hr
  exact ⟨ptr, hcore, by rw [hcore.find, if_pos (Flat.mem_ids_of_mem hr)], hcore.node hr, hocc,
    LawfulLadder.price_of_occ (h.ladder_wf s) hocc⟩

variable [DecidableEq A]

theorem Repr.eraseOrder (h : Repr c b F) (hr : r ∈ F.side s) {a : A}
    (ha : Index.find b.orders r.id = some a) : Repr c (b.eraseOrder r.id a) (F.remove r.id) := by
  obtain ⟨ptr, hcore, hfind, hnode, hocc, hprice⟩ := h.node_of_mem hr
  obtain rfl : ptr r.id = a := Option.some.inj (hfind.symm.trans ha)
  rw [eraseOrder_eq r.id hnode.level hnode.side hprice]
  refine h.settle hocc (hcore.drop hr) ?_ (h.orderly.remove r.id) ?_
  · rw [unlink_level]
    exact hprice
  · intro t q hc
    obtain ⟨q₁, q₂, hq⟩ := List.append_of_mem (mem_level.mpr ⟨hr, rfl⟩ :
      r ∈ level Resting.price r.price (F.side s))
    rw [Flat.level_remove hcore.nodup hr hq, if_neg hc]

theorem Repr.amend (h : Repr c b F) (hr : r ∈ F.side s) {a : A}
    (ha : Index.find b.orders r.id = some a) {n : Qty} (hn : n ≠ 0) (hle : n ≤ r.qty) :
    Repr c (b.amend a n) (F.amend r.id n) := by
  obtain ⟨ptr, hcore, hfind, hnode, hocc, hprice⟩ := h.node_of_mem hr
  obtain rfl : ptr r.id = a := Option.some.inj (hfind.symm.trans ha)
  have hlevel := hcore.level s r.price (hcore.in_band s r hr)
  have hhead : (Ladder.level (b.ladder s) r.price).head.isNone = false := by
    by_contra hc
    rw [Bool.not_eq_false] at hc
    have := hlevel.head_isNone.mp hc
    exact List.ne_nil_of_mem (mem_level.mpr ⟨hr, rfl⟩) this
  -- the new quantity is the old one less what is taken off
  have htake : r.qty - n ≤ r.qty := by
    rw [UInt32.le_iff_toNat_le, UInt32.toNat_sub_of_le _ _ hle]
    omega
  have hback : r.qty - (r.qty - n) = n := sub_sub_self r.qty n
  have hcore' := hcore.reduce hr htake
  rw [hback] at hcore'
  rw [amend_eq n hnode.level hhead, hnode.qty]
  refine h.settle hocc hcore' hprice (h.orderly.amend r.id hn) ?_
  intro t q hc
  obtain ⟨q₁, q₂, hq⟩ := List.append_of_mem (mem_level.mpr ⟨hr, rfl⟩ :
    r ∈ level Resting.price r.price (F.side s))
  rw [Flat.level_amend hcore.nodup hr hq, if_neg hc]

theorem Repr.rest (h : Repr c b F) (hwf : (F.rest s r).Orderly c) (hid : LawfulIndex.Key I r.id)
    (hnew : r.id ∉ F.ids) (hband : c.inBand r.price = true) :
    Repr c (b.rest s r.id r.price r.qty r.owner) (F.rest s r) := by
  obtain ⟨ptr, hcore⟩ := h.core
  have hl := h.ladder_wf s
  have hin : Ladder.inBand (b.ladder s) r.price = true := by rw [h.inBand]; exact hband
  have hlevel := hcore.level s r.price hband
  have hhead : (Ladder.level (b.ladder s) r.price).head.isSome = true ↔
      LawfulLadder.occ (b.ladder s) r.price := by
    rw [h.occ, ← not_iff_not, not_not, ← hlevel.head_isNone, Bool.not_eq_true,
      Option.isSome_eq_false_iff]
    rfl
  -- the source writes the price of the level before it queues the order
  have hcore₁ := hcore.with_price s r.price
  let o : Order A :=
    { qty := r.qty, owner := r.owner, next := none, id := r.id, price := r.price,
      prev := (Ladder.level (b.ladder s) r.price).tail, level := ⟨s, r.price⟩, side := s }
  let ptr' : OrderId → A := fun k => if k = r.id then (Allocator.create b.pool o).1 else ptr k
  have hself : ptr' r.id = (Allocator.create b.pool o).1 := if_pos rfl
  have hpush := hcore₁.push h.orderly.ordered hid hnew hband (o := o) (s := s)
    ⟨rfl, rfl, rfl, rfl, rfl, rfl⟩ (by rw [setLv_self]; rfl) rfl hself
    (fun k hk => if_neg fun e : k = r.id => hnew (e ▸ hk))
  rw [setLv_self, setLv_setLv, hself] at hpush
  refine h.with_ladder hwf hpush
    (LawfulLadder.link_wf hl hin hhead fun _ => rfl) (fun q => ?_) (LawfulLadder.link_inBand hl)
    (fun q hq => Or.inl ?_) (fun q => ?_) (fun q => if_neg fun hc => Side.opp_ne s hc.1)
  · rw [LawfulLadder.link_occ hl hin hhead, h.occ, Flat.rest, Flat.side_withSide_self,
      (h.orderly.ordered s).level_enqueue]
    by_cases hq : r.price = q
    · simp [hq]
    · have hq' : ¬ q = r.price := fun e => hq e.symm
      simp [hq, hq']
  · rw [LawfulLadder.level_link hl hin q (by rw [h.inBand]; exact hq)]
    by_cases hqp : q = r.price
    · subst hqp
      rw [if_pos rfl, setLv_self]
      rfl
    · rw [if_neg hqp, setLv, if_neg fun hc => hqp hc.2]
      rfl
  · rw [Flat.rest, Flat.side_opp_withSide]

end edits

/-! ### Fill-or-kill -/

section fok

variable {c : Config} {b : Book L I P} {F : Flat} {s : Side} {px p : Int} {qty : Qty}
  {owner : Owner}

omit [Ladder L A] [Index I A] [Allocator P A (Order A)] [LawfulLadder L A] [LawfulIndex I A]
  [LawfulAllocator P A (Order A)] in
/-- One level of the sum. -/
theorem sumReaches_level (hc : crosses s p px = true) {rest : List Resting}
    (hrest : ∀ r ∈ rest, r.price ≠ p) : ∀ (q : List Resting) (avail : UInt64), q ≠ [] →
    (∀ r ∈ q, r.price = p) → sumReaches s px qty avail (q ++ rest) =
      if qty.toUInt64 ≤ avail + UInt64.ofNat (total q) then true
      else sumReaches s px qty (avail + UInt64.ofNat (total q)) rest
  | [r], avail, _, hp => by
      have hr : r.price = p := hp r List.mem_cons_self
      have hhead : ¬ rest.head?.map Resting.price = some r.price := by
        cases rest with
        | nil => simp
        | cons r' rest =>
            simp only [List.head?_cons, Option.map_some, Option.some.injEq]
            rw [hr]
            exact hrest r' List.mem_cons_self
      simp only [List.cons_append, List.nil_append, sumReaches, hr ▸ hc, if_true, hhead, if_false,
        total_cons, total_nil, Nat.add_zero, UInt64.ofNat_uInt32ToNat]
  | r :: r' :: q, avail, _, hp => by
      have hr : r.price = p := hp r List.mem_cons_self
      have hr' : r'.price = p := hp r' (List.mem_cons_of_mem _ List.mem_cons_self)
      have hhead : (r' :: q ++ rest).head?.map Resting.price = some r.price := by
        rw [hr, ← hr']
        rfl
      rw [List.cons_append, sumReaches, hr, if_pos hc]
      simp only [hr ▸ hhead, if_true]
      rw [sumReaches_level hc hrest (r' :: q) _ (List.cons_ne_nil _ _)
        fun x hx => hp x (List.mem_cons_of_mem _ hx), total_cons r, UInt64.ofNat_add,
        UInt64.ofNat_uInt32ToNat, UInt64.add_assoc]

omit [Ladder L A] [Index I A] [LawfulLadder L A] [LawfulIndex I A]
  [LawfulAllocator P A (Order A)] in
/-- One level of the walk with self-trade prevention, from a queue `q` of it on. -/
theorem fokOrders_spec (owner : Owner) (rest : List Resting) (hc : crosses s p px = true) (hstp : b.stp = c.stp)
    {t : Side} {ptr : OrderId → A} {v : Level A} : ∀ (q pre : List Resting) (n : ℕ)
    (avail : UInt64), LevelRepr b.pool ptr t v (pre ++ q) → (∀ r ∈ q, r.price = p) →
    q.length < n → avail < qty.toUInt64 →
    match fokOrders b qty owner n (ptrs ptr q).head? avail with
    | .error fillable => othersReach s px qty c.stp owner avail (q ++ rest) = fillable
    | .ok avail' => othersReach s px qty c.stp owner avail (q ++ rest) =
        othersReach s px qty c.stp owner avail' rest ∧ avail' < qty.toUInt64
  | [], _, n + 1, avail, _, _, _, hlt => ⟨rfl, hlt⟩
  | r :: q, pre, n + 1, avail, h, hp, hn, hlt => by
      have hr : r.price = p := hp r List.mem_cons_self
      have hnode := h.node r (List.mem_append_right _ List.mem_cons_self)
      have hnext : (Allocator.deref b.pool (ptr r.id)).next = (ptrs ptr q).head? := h.links.2
      have hrec := fun avail' => fokOrders_spec owner rest hc hstp q (pre ++ [r]) n avail'
        (by simpa using h) (fun x hx => hp x (List.mem_cons_of_mem _ hx)) (by simpa using hn)
      have hhead : (ptrs ptr (r :: q)).head? = some (ptr r.id) := rfl
      simp only [hhead, fokOrders, hnode.owner, hnode.qty, hnext, hstp, List.cons_append,
        othersReach, hr ▸ hc, if_true]
      by_cases ho : owner ≠ 0 ∧ r.owner = owner
      · by_cases hs : c.stp = .rejectIncoming
        · simp only [if_pos ho, if_pos hs]
        · simp only [if_pos ho, if_neg hs]
          exact hrec avail hlt
      · by_cases hle : qty.toUInt64 ≤ avail + r.qty.toUInt64
        · simp only [if_neg ho, if_pos hle]
        · simp only [if_neg ho, if_neg hle]
          exact hrec _ (UInt64.not_le.mp hle)

/-- The next price of the ladder is the price at the front of the rest. -/
theorem Repr.worse?_eq (h : Repr c b F) {pre q rest : List Resting}
    (hside : F.side s = pre ++ (q ++ rest)) (hq : q ≠ []) (hp : ∀ r ∈ q, r.price = p)
    (hrest : ∀ r ∈ rest, r.price ≠ p) :
    Ladder.worse? s (b.ladder s) p = rest.head?.map Resting.price := by
  have hl := h.ladder_wf s
  have hord := h.orderly.ordered s
  rw [hside] at hord
  obtain ⟨-, hord', hpre⟩ := List.pairwise_append.mp hord
  obtain ⟨-, hordr, hqr⟩ := List.pairwise_append.mp hord'
  obtain ⟨r₀, hr₀⟩ := List.exists_mem_of_ne_nil _ hq
  have hocc : LawfulLadder.occ (b.ladder s) p := by
    rw [← hp r₀ hr₀]
    refine h.occ_of_mem ?_
    rw [hside]
    exact List.mem_append_right _ (List.mem_append_left _ hr₀)
  -- everything in the rest is strictly worse than `p`
  have hworse : ∀ r ∈ rest, better s p r.price := by
    intro r hr
    have h1 : ¬ better s r.price p := hp r₀ hr₀ ▸ hqr r₀ hr₀ r hr
    rcases Std.Trichotomous.rel_or_eq_or_rel_swap (r := better s) (a := p) (b := r.price) with
      h' | h' | h'
    · exact h'
    · exact absurd h'.symm (hrest r hr)
    · exact absurd h' h1
  have hmem : ∀ r ∈ rest, LawfulLadder.occ (b.ladder s) r.price := by
    intro r hr
    refine h.occ_of_mem ?_
    rw [hside]
    exact List.mem_append_right _ (List.mem_append_right _ hr)
  cases hw : Ladder.worse? s (b.ladder s) p with
  | none =>
      have hnone := LawfulLadder.worse?_none hl hocc hw
      cases rest with
      | nil => rfl
      | cons r rest =>
          exact absurd (hworse r List.mem_cons_self)
            (hnone r.price (hmem r List.mem_cons_self))
  | some x =>
      obtain ⟨hx, hbx, hmin⟩ := LawfulLadder.worse?_some hl hocc hw
      obtain ⟨r', hr', rfl⟩ := h.exists_of_occ hx
      have hr'' : r' ∈ rest := by
        rw [hside] at hr'
        rcases List.mem_append.mp hr' with hr' | hr'
        · have h1 := hpre r' hr' r₀ (List.mem_append_left _ hr₀)
          rw [hp r₀ hr₀] at h1
          exact absurd hbx h1
        · rcases List.mem_append.mp hr' with hr' | hr'
          · rw [hp r' hr'] at hbx
            exact absurd hbx (irrefl _)
          · exact hr'
      cases rest with
      | nil => cases hr''
      | cons r rest =>
          have h1 := hmin r.price (hmem r List.mem_cons_self) (hworse r List.mem_cons_self)
          have h2 : ¬ better s r'.price r.price := by
            rcases List.mem_cons.mp hr'' with rfl | hr''
            · exact irrefl _
            · exact (List.pairwise_cons.mp hordr).1 r' hr''
          exact congrArg some (Std.Trichotomous.trichotomous (r := better s) _ _ h2 h1)

/-- A scan of the levels at the front of `r :: Q`: the orders there, and where it goes next. -/
theorem Repr.front_level (h : Repr c b F) {r : Resting} {pre Q : List Resting}
    (hside : F.side s = pre ++ r :: Q)
    (hpre : ∀ a ∈ pre, ∀ a' ∈ r :: Q, a.price ≠ a'.price) :
    ∃ q rest, r :: Q = q ++ rest ∧ q ≠ [] ∧ (∀ a ∈ q, a.price = r.price) ∧
      (∀ a ∈ rest, a.price ≠ r.price) ∧ level Resting.price r.price (F.side s) = q ∧
      Ladder.worse? s (b.ladder s) r.price = rest.head?.map Resting.price ∧
      ∀ a ∈ pre ++ q, ∀ a' ∈ rest, a.price ≠ a'.price := by
  have hord : Ordered (better s) Resting.price (r :: Q) := by
    have := h.orderly.ordered s
    rw [hside] at this
    exact this.sublist (List.sublist_append_right _ _)
  obtain ⟨q, rest, hsplit, hqne, hqp, hrp⟩ := hord.split_head
  have hlq : level Resting.price r.price (F.side s) = q := by
    rw [hside, level_append, level_eq_nil.mpr fun a ha => hpre a ha r List.mem_cons_self, hsplit,
      level_append, level_eq_self hqp, level_eq_nil.mpr hrp]
    simp
  rw [hsplit] at hside hpre
  refine ⟨q, rest, hsplit, hqne, hqp, hrp, hlq, h.worse?_eq hside hqne hqp hrp, ?_⟩
  intro a ha a' ha'
  rcases List.mem_append.mp ha with ha | ha
  · exact hpre a ha a' (List.mem_append_right _ ha')
  · rw [hqp a ha]
    exact fun e => hrp a' ha' e.symm

/-- The walk over the levels, from the price at the front of `Q` on. -/
theorem Repr.fokLevels_spec (h : Repr c b F) : ∀ (n : ℕ) (pre Q : List Resting) (avail : UInt64),
    F.side s.opp = pre ++ Q → (∀ r ∈ pre, ∀ r' ∈ Q, r.price ≠ r'.price) → Q.length < n →
    avail < qty.toUInt64 →
    fokLevels b (decide (c.stp ≠ .none)) s px qty owner n (Q.head?.map Resting.price) avail =
      if c.stp = .none then sumReaches s px qty avail Q
      else othersReach s px qty c.stp owner avail Q
  | n + 1, pre, [], avail, _, _, _, _ => by
      simp [fokLevels, sumReaches, othersReach]
  | n + 1, pre, r :: Q, avail, hside, hpre, hn, hlt => by
      cases hc : crosses s r.price px with
      | false => simp [fokLevels, sumReaches, othersReach, hc]
      | true =>
          obtain ⟨q, rest, hsplit, hqne, hqp, hrp, hlq, hnext, hdisj⟩ := h.front_level hside hpre
          have hr : r ∈ F.side s.opp := by
            rw [hside]
            exact List.mem_append_right _ List.mem_cons_self
          obtain ⟨ptr, hcore⟩ := h.core
          have hlevel := hcore.level s.opp r.price (h.orderly.band s.opp r hr)
          rw [hlq] at hlevel
          rw [hsplit] at hside hn ⊢
          have hrec := fun avail' => Repr.fokLevels_spec h n (pre ++ q) rest avail'
            (by rw [hside, List.append_assoc]) hdisj
            (by
              have := List.length_pos_of_ne_nil hqne
              rw [List.length_append] at hn
              omega)
          have hfront : (q ++ rest).head?.map Resting.price = some r.price := by
            rw [← hsplit]
            rfl
          simp only [hfront, fokLevels, hc, if_true, hnext]
          by_cases hs : c.stp = .none
          · have hoff : decide (c.stp ≠ .none) = false := by simp [hs]
            have htotal : (Ladder.level (b.ladder s.opp) r.price).totalQty =
                UInt64.ofNat (total q) := hlevel.totalQty
            rw [hoff] at hrec ⊢
            simp only [if_pos hs] at hrec ⊢
            rw [sumReaches_level hc hrp q avail hqne hqp, htotal]
            by_cases hle : qty.toUInt64 ≤ avail + UInt64.ofNat (total q)
            · simp [hle]
            · simpa [hle] using hrec _ (UInt64.not_le.mp hle)
          · have hon : decide (c.stp ≠ .none) = true := by simp [hs]
            have hhead : (Ladder.level (b.ladder s.opp) r.price).head = (ptrs ptr q).head? :=
              hlevel.head
            have hlen : q.length < Index.size b.orders + 1 := by
              have := h.length_lt (q := pre ++ q) (by rw [hside, List.append_assoc])
              rw [List.length_append] at this
              omega
            have hwalk := fokOrders_spec owner rest hc h.stp q [] _ avail hlevel hqp hlen
              hlt
            rw [hon] at hrec ⊢
            simp only [if_neg hs, hhead, if_true] at hrec ⊢
            cases hfo : fokOrders b qty owner (Index.size b.orders + 1) (ptrs ptr q).head? avail with
            | error fillable =>
                simp only [hfo] at hwalk ⊢
                exact hwalk.symm
            | ok avail' =>
                simp only [hfo] at hwalk ⊢
                have hnle : ¬ qty.toUInt64 ≤ avail' := UInt64.not_le.mpr hwalk.2
                rw [if_neg hnle, hwalk.1]
                exact hrec avail' hwalk.2

theorem Repr.fokFillable_eq (h : Repr c b F) (hqty : qty ≠ 0) :
    b.fokFillable (decide (c.stp ≠ .none)) s px qty owner =
      fillable s px qty c.stp owner (F.side s.opp) := by
  obtain ⟨ptr, hcore⟩ := h.core
  have hlen : (F.side s.opp).length < Index.size b.orders + 1 :=
    h.length_lt (List.append_nil _).symm
  have hpos : (0 : UInt64) < qty.toUInt64 := by
    rw [UInt64.lt_iff_toNat_lt, UInt32.toNat_toUInt64]
    exact Nat.pos_of_ne_zero fun h0 => hqty (UInt32.toNat_inj.mp h0)
  rw [fokFillable, h.best?_eq, fillable]
  exact h.fokLevels_spec _ [] _ 0 rfl (fun r hr => by cases hr) hlen hpos

end fok

/-! ### Public operations -/

section calls

variable {c : Config} {b : Book L I P} {F : Flat} {s : Side} {id : OrderId} {px : Int} {qty : Qty}
  {tif : Tif} {owner : Owner}

theorem Repr.find_isSome (h : Repr c b F) (id : OrderId) :
    (Index.find b.orders id).isSome = true ↔ id ∈ F.ids := by
  obtain ⟨ptr, hcore⟩ := h.core
  rw [hcore.find]
  split_ifs with hid <;> simp [hid]

/-- A call on the engine and one on the flat book: equal answers, related states. -/
def Agrees {α : Type} (c : Config) (x : Book L I P × α) (y : Flat × α) : Prop :=
  x.2 = y.2 ∧ Repr c x.1 y.1

variable [DecidableEq A]

theorem Repr.matchOrders (h : Repr c b F) (s : Side) (taker : OrderId) (limit : Int) (want : Qty)
    (owner : Owner) :
    let m := b.matchOrders (decide (c.stp ≠ .none)) s taker limit want owner
    let W := walk c.stp s taker limit owner (F.side s.opp) want
    Repr c m.book (F.withSide s.opp W.queue) ∧ m.filled = want - W.remaining ∧
      m.stpStopped = W.stopped ∧ m.tape = W.tape := by
  obtain ⟨h1, h2, h3, h4⟩ := matchLevels_spec taker limit owner
    (Index.size b.orders + 1) b F want h (h.length_lt (List.append_nil _).symm)
  exact ⟨h1, congrArg (want - ·) h2, h3, h4⟩

/-- What follows the walk: both books kill the order, stop it, let it rest or are done with it. -/
theorem Repr.executed (h : Repr c b F) (hid : LawfulIndex.Key I id) (hband : c.inBand px = true)
    (hnew : id ∉ F.ids) {walked : Book L I P} (hwalked : Repr c walked
      (F.withSide s.opp (walk c.stp s id px owner (F.side s.opp) qty).queue)) :
    let W := walk c.stp s id px owner (F.side s.opp) qty
    Agrees c
      (if tif = .fok ∧ fillable s px qty c.stp owner (F.side s.opp) = false then
        (b, rejection, [])
      else if W.stopped = true then
        (walked, ⟨qty - W.remaining, false, decide (qty - W.remaining = 0)⟩, W.tape)
      else if W.remaining ≠ 0 ∧ tif = .gtc then
        (walked.rest s id px W.remaining owner, ⟨qty - W.remaining, true, false⟩, W.tape)
      else (walked, ⟨qty - W.remaining, false, false⟩, W.tape))
      (F.execute c s id px qty tif owner) := by
  have hwf : (F.execute c s id px qty tif owner).1.Orderly c :=
    h.orderly.execute hband hnew
  unfold Agrees
  unfold Flat.execute at *
  by_cases hfok : tif = .fok ∧ fillable s px qty c.stp owner (F.side s.opp) = false
  · simp only [if_pos hfok]
    exact ⟨rfl, h⟩
  · simp only [if_neg hfok] at hwf ⊢
    by_cases hstop : (walk c.stp s id px owner (F.side s.opp) qty).stopped = true
    · simp only [hstop, if_true]
      exact ⟨trivial, hwalked⟩
    · by_cases hrest : (walk c.stp s id px owner (F.side s.opp) qty).remaining ≠ 0 ∧ tif = .gtc
      · simp only [if_neg hstop, if_pos hrest] at hwf ⊢
        refine ⟨trivial, ?_⟩
        exact hwalked.rest (r := ⟨id, px, _, owner⟩) hwf hid
          (fun hm => hnew (Flat.mem_ids_of_walk hm)) hband
      · simp only [if_neg hstop, if_neg hrest]
        exact ⟨trivial, hwalked⟩

theorem Repr.execute (h : Repr c b F) (hid : LawfulIndex.Key I id) (hqty : qty ≠ 0)
    (hband : c.inBand px = true) (hnew : id ∉ F.ids) :
    Agrees c (b.execute s id px qty tif owner) (F.execute c s id px qty tif owner) := by
  obtain ⟨h1, h2, h3, h4⟩ := h.matchOrders s id px qty owner
  have hle : (walk c.stp s id px owner (F.side s.opp) qty).remaining ≤ qty := walk_remaining_le _ _
  unfold Book.execute
  simp only [h.stp, h.fokFillable_eq hqty, h2, h3, h4, filled_lt_iff hle, sub_sub_self]
  exact h.executed hid hband hnew h1

omit [DecidableEq A] [LawfulLadder L A] [LawfulIndex I A] [LawfulAllocator P A (Order A)] in
/-- An order that finds nothing on the other side rests. -/
theorem execute_of_best?_eq_none (hnone : Ladder.best? s.opp (b.ladder s.opp) = none)
    (hqty : qty ≠ 0) : b.execute s id px qty .gtc owner =
      (b.rest s id px qty owner, { filled := 0, rested := true, rejected := false }, []) := by
  have hmatch : ∀ stpOn, b.matchOrders stpOn s id px qty owner = ⟨b, 0, false, []⟩ := by
    intro stpOn
    simp only [matchOrders, matchLevels, if_neg hqty, hnone, UInt32.sub_self]
  have hlt : 0 < qty := pos_iff.mpr hqty
  unfold execute
  rw [if_neg fun hc => by cases hc.1]
  simp only [hmatch, hlt, UInt32.sub_zero, and_self, if_true, Bool.false_eq_true, if_false]

theorem Repr.submitLimit (h : Repr c b F) (id : OrderId) (s : Side) (px : Int) (qty : Qty)
    (tif : Tif) (owner : Owner) :
    Agrees c (b.submitLimit id s px qty tif owner) (F.submitLimit c id s px qty tif owner) := by
  unfold Book.submitLimit Flat.submitLimit
  have hband : Ladder.inBand b.bids px = c.inBand px := h.inBand .bid px
  simp only [hband, h.find_isSome]
  by_cases hbad : id = 0 ∨ qty = 0 ∨ c.inBand px = false
  · rw [if_pos hbad, if_pos (by tauto)]
    exact ⟨rfl, h⟩
  · by_cases hid : id ∈ F.ids
    · rw [if_neg hbad, if_pos hid, if_pos (by tauto)]
      exact ⟨rfl, h⟩
    · rw [if_neg hbad, if_neg hid, if_neg (by tauto)]
      simp only [not_or, Bool.not_eq_false] at hbad
      exact h.execute (LawfulIndex.key_of_ne hbad.1) hbad.2.1 hbad.2.2 hid

omit [DecidableEq A] in
theorem Repr.marketLimit (h : Repr c b F) (s : Side) : b.marketLimit s = F.marketLimit c s := by
  unfold Book.marketLimit Flat.marketLimit
  rw [h.protection, h.best?_eq, Option.map_map]
  cases s <;> rfl

theorem Repr.submitMarket (h : Repr c b F) (id : OrderId) (s : Side) (qty : Qty) (owner : Owner) :
    Agrees c (b.submitMarket id s qty owner) (F.submitMarket c id s qty owner) := by
  unfold Book.submitMarket Flat.submitMarket
  simp only [h.find_isSome, h.marketLimit]
  by_cases hbad : id = 0 ∨ qty = 0 ∨ id ∈ F.ids
  · rw [if_pos hbad, if_pos hbad]
    exact ⟨rfl, h⟩
  · rw [if_neg hbad, if_neg hbad]
    cases F.marketLimit c s with
    | none => exact ⟨rfl, h⟩
    | some limit =>
        obtain ⟨h1, h2, h3, h4⟩ := h.matchOrders s id limit qty owner
        simp only [h.stp, h2, h4]
        exact ⟨rfl, h1⟩

theorem Repr.cancel (h : Repr c b F) (id : OrderId) : Agrees c (b.cancel id) (F.cancel id) := by
  have hfind := h.find_isSome id
  unfold Book.cancel Flat.cancel
  cases ha : Index.find b.orders id with
  | none =>
      rw [ha] at hfind
      have hid : id ∉ F.ids := fun hm => by simpa using hfind.mpr hm
      rw [if_neg hid]
      exact ⟨rfl, h⟩
  | some a =>
      rw [ha] at hfind
      have hid : id ∈ F.ids := hfind.mp rfl
      obtain ⟨s, r, hr, rfl⟩ := Flat.mem_ids.mp hid
      rw [if_pos hid]
      exact ⟨rfl, h.eraseOrder hr ha⟩

/-- `modify`, for an engine whose `submit_limit` executes what passes validation. -/
theorem Repr.modifyWith (h : Repr c b F) (id : OrderId) (px : Int) (qty : Qty)
    {submit : Book L I P → OrderId → Side → Int → Qty → Tif →
      Owner → Book L I P × SubmitResult × List Event}
    (hsubmit : ∀ (b : Book L I P) (F : Flat) (id : OrderId) (s : Side) (px : Int) (qty : Qty)
      (tif : Tif) (owner : Owner), Repr c b F → LawfulIndex.Key I id → qty ≠ 0 →
      c.inBand px = true → id ∉ F.ids → Agrees c (submit b id s px qty tif owner) (F.execute c s id px qty tif owner)) :
    Agrees c (b.modifyWith submit id px qty) (F.modify c id px qty) := by
  have hfind := h.find_isSome id
  have hband : Ladder.inBand b.bids px = c.inBand px := h.inBand .bid px
  unfold Book.modifyWith Flat.modify
  cases ha : Index.find b.orders id with
  | none =>
      rw [ha] at hfind
      have hid : F.find? id = none := Flat.find?_eq_none.mpr fun hm => by simpa using hfind.mpr hm
      rw [hid]
      exact ⟨rfl, h⟩
  | some a =>
      rw [ha] at hfind
      cases hf : F.find? id with
      | none => exact absurd (hfind.mp rfl) (Flat.find?_eq_none.mp hf)
      | some sr =>
          obtain ⟨s, r⟩ := sr
          obtain ⟨hr, rfl⟩ := Flat.find?_eq_some hf
          obtain ⟨ptr, hcore, hptr, hnode, -⟩ := h.node_of_mem hr
          obtain rfl : ptr r.id = a := Option.some.inj (hptr.symm.trans ha)
          simp only [hband, hnode.price, hnode.qty, hnode.side, hnode.owner]
          by_cases hbad : qty = 0 ∨ c.inBand px = false
          · rw [if_pos hbad, if_pos hbad]
            exact ⟨rfl, h⟩
          · rw [if_neg hbad, if_neg hbad]
            simp only [not_or, Bool.not_eq_false] at hbad
            by_cases hsame : px = r.price ∧ qty ≤ r.qty
            · rw [if_pos hsame, if_pos hsame]
              exact ⟨rfl, h.amend hr ha hbad.1 hsame.2⟩
            · rw [if_neg hsame, if_neg hsame]
              obtain ⟨hres, hrepr⟩ := hsubmit _ _ _ s px qty .gtc r.owner (h.eraseOrder hr ha)
                (hcore.key _ (Flat.mem_ids_of_mem hr)) hbad.1 hbad.2 Flat.not_mem_ids_remove
              exact ⟨by simp only [hres], hrepr⟩

theorem Repr.submitLimit_valid (h : Repr c b F) (hid : id ≠ 0) (hqty : qty ≠ 0)
    (hband : c.inBand px = true) (hnew : id ∉ F.ids) :
    Agrees c (b.submitLimit id s px qty tif owner) (F.execute c s id px qty tif owner) := by
  have h' := h.submitLimit id s px qty tif owner
  rwa [Flat.submitLimit, if_neg (by simp [hid, hqty, hband, hnew])] at h'

/-- The public interface, for an engine with submit functions of its own. -/
theorem Repr.callWith (h : Repr c b F) (op : Op)
    {limit : Book L I P → OrderId → Side → Int → Qty → Tif → Owner →
      Book L I P × SubmitResult × List Event}
    {market : Book L I P → OrderId → Side → Qty → Owner → Book L I P × Qty × List Event}
    (hlimit : ∀ id s px qty tif owner, op = .submitLimit id s px qty tif owner →
      Agrees c (limit b id s px qty tif owner) (F.submitLimit c id s px qty tif owner))
    (hmarket : ∀ id s qty owner, op = .submitMarket id s qty owner →
      Agrees c (market b id s qty owner) (F.submitMarket c id s qty owner))
    (hvalid : ∀ (b : Book L I P) (F : Flat) (id : OrderId) (s : Side) (px : Int) (qty : Qty)
      (tif : Tif) (owner : Owner), Repr c b F → LawfulIndex.Key I id → qty ≠ 0 →
      c.inBand px = true → id ∉ F.ids → Agrees c (limit b id s px qty tif owner) (F.execute c s id px qty tif owner)) :
    Agrees c (b.callWith limit market op) (F.call c op) := by
  cases op with
  | submitLimit id s px qty tif owner =>
      obtain ⟨h1, h2⟩ := hlimit id s px qty tif owner rfl
      exact ⟨by simp only [Book.callWith, Flat.call, h1], h2⟩
  | submitMarket id s qty owner =>
      obtain ⟨h1, h2⟩ := hmarket id s qty owner rfl
      exact ⟨by simp only [Book.callWith, Flat.call, h1], h2⟩
  | cancel id =>
      obtain ⟨h1, h2⟩ := h.cancel id
      exact ⟨by simp only [Book.callWith, Flat.call, h1], h2⟩
  | modify id px qty =>
      obtain ⟨h1, h2⟩ := h.modifyWith id px qty hvalid
      exact ⟨by simp only [Book.callWith, Flat.call, h1], h2⟩

/-- **The final engine refines the flat book**, call by call. -/
theorem Repr.call [Reserves I] (h : Repr c b F) (op : Op) : Agrees c (b.call op) (F.call c op) :=
  h.callWith op (fun id s px qty tif owner _ => h.submitLimit id s px qty tif owner)
    (fun id s qty owner _ => h.submitMarket id s qty owner)
    fun _ _ _ _ _ _ _ _ h hid => h.submitLimit_valid (Reserves.key_ne hid)

end calls

/-! ### Fresh engines -/

/-- An engine whose parts are empty holds the empty book. -/
theorem Repr.of_fresh {c : Config} {b : Book L I P} [Inhabited A]
    (hladder : ∀ s, LawfulLadder.WF s (b.ladder s))
    (hocc : ∀ s px, ¬ LawfulLadder.occ (b.ladder s) px)
    (hband : ∀ s px, Ladder.inBand (b.ladder s) px = c.inBand px)
    (hindex : LawfulIndex.WF b.orders) (hfind : ∀ k, Index.find b.orders k = none)
    (hsize : Index.size b.orders = 0) (hpool : LawfulAllocator.WF b.pool)
    (hlive : ∀ a, ¬ LawfulAllocator.Live b.pool a) (hstp : b.stp = c.stp)
    (hprot : b.protection = c.protection) : Repr c b {} := by
  have hnil : ∀ s, ({} : Flat).side s = [] := by
    intro s
    cases s <;> rfl
  have hcore : Core b.pool b.orders b.levels c.inBand {} (fun _ => default) :=
    { pool_wf := hpool
      index_wf := hindex
      nodup := List.nodup_nil
      key := fun k hk => by cases hk
      in_band := fun s r hr => by rw [hnil] at hr; cases hr
      find := hfind
      size := hsize
      ptr_inj := fun k hk => by cases hk
      live := fun a => ⟨fun h => absurd h (hlive a), by rintro ⟨k, hk, -⟩; cases hk⟩
      level := fun s px hpx => by
        rw [hnil]
        exact LevelRepr.blank_iff
          (LawfulLadder.blank (hladder s) ((hband s px).trans hpx) (hocc s px)) }
  exact
    { orderly := (Flat.empty_wf _).toOrderly
      core := ⟨_, hcore⟩
      ladder_wf := hladder
      occ := fun s px => by
        rw [hnil]
        exact iff_of_false (hocc s px) (by simp)
      inBand := hband
      stp := hstp
      protection := hprot }

/-! ### The engines without a reserved id -/

section v4

variable {c : Config} {b : Book L I P} {F : Flat} [DecidableEq A]

/-- What passes validation is executed, whichever id the index can store. -/
theorem Repr.submitLimitV4_valid (h : Repr c b F) {id : OrderId} (hid : LawfulIndex.Key I id)
    {s : Side} {px : Int} {qty : Qty} {tif : Tif} {owner : Owner} (hqty : qty ≠ 0)
    (hband : c.inBand px = true) (hnew : id ∉ F.ids) :
    Agrees c (V4.submitLimit b id s px qty tif owner) (F.execute c s id px qty tif owner) := by
  have hin : Ladder.inBand b.bids px = true := (h.inBand .bid px).trans hband
  have hfind : ¬ (Index.find b.orders id).isSome = true := fun hf => hnew ((h.find_isSome id).mp hf)
  unfold V4.submitLimit
  rw [if_neg (by simp [hqty, hin]), if_neg hfind]
  exact h.execute hid hqty hband hnew

theorem Repr.submitLimitV4 (h : Repr c b F) {id : OrderId} (hid : id ≠ 0) (s : Side) (px : Int)
    (qty : Qty) (tif : Tif) (owner : Owner) :
    Agrees c (V4.submitLimit b id s px qty tif owner) (F.submitLimit c id s px qty tif owner) := by
  have heq : V4.submitLimit b id s px qty tif owner = b.submitLimit id s px qty tif owner := by
    simp [V4.submitLimit, Book.submitLimit, hid]
  rw [heq]
  exact h.submitLimit id s px qty tif owner

theorem Repr.submitMarketV4 (h : Repr c b F) (hp : c.protection = 0) {id : OrderId} (hid : id ≠ 0)
    (s : Side) (qty : Qty) (owner : Owner) :
    Agrees c (V4.submitMarket b id s qty owner) (F.submitMarket c id s qty owner) := by
  have heq : V4.submitMarket b id s qty owner = b.submitMarket id s qty owner := by
    have hp' : ¬ 0 < b.protection := by rw [h.protection, hp]; decide
    cases s <;> simp [V4.submitMarket, Book.submitMarket, Book.marketLimit, hid, hp']
  rw [heq]
  exact h.submitMarket id s qty owner

/-- **The engines `v4` and `v5` refine the flat book** on operations that do not use id `0`. -/
theorem Repr.callV4 (h : Repr c b F) (hp : c.protection = 0) {op : Op} (hop : op.NamesOrder) :
    Agrees c (V4.call b op) (F.call c op) := by
  refine h.callWith op ?_ ?_ ?_
  · rintro id s px qty tif owner rfl
    exact h.submitLimitV4 hop s px qty tif owner
  · rintro id s qty owner rfl
    exact h.submitMarketV4 hp hop s qty owner
  · intro b F id s px qty tif owner h hid hqty hband hnew
    exact h.submitLimitV4_valid hid hqty hband hnew

/-- **Where the index stores every id**, the engine holds a flat book after any operation. -/
theorem Repr.stepV4 (hkey : ∀ k, LawfulIndex.Key I k) (h : Repr c b F) (op : Op) :
    ∃ F', Repr c (V4.call b op).1 F' := by
  cases op with
  | submitLimit id s px qty tif owner =>
      change ∃ F', Repr c (V4.submitLimit b id s px qty tif owner).1 F'
      by_cases hbad : qty = 0 ∨ Ladder.inBand b.bids px = false
      · rw [V4.submitLimit, if_pos hbad]
        exact ⟨F, h⟩
      · by_cases hid : id ∈ F.ids
        · rw [V4.submitLimit, if_neg hbad, if_pos ((h.find_isSome id).mpr hid)]
          exact ⟨F, h⟩
        · simp only [not_or, Bool.not_eq_false] at hbad
          have hband : c.inBand px = true := (h.inBand .bid px).symm.trans hbad.2
          exact ⟨_, (h.submitLimitV4_valid (hkey id) hbad.1 hband hid).2⟩
  | submitMarket id s qty owner =>
      change ∃ F', Repr c (V4.submitMarket b id s qty owner).1 F'
      unfold V4.submitMarket
      split_ifs
      · exact ⟨F, h⟩
      · rw [h.stp]
        exact ⟨_, (h.matchOrders s id s.marketPrice qty owner).1⟩
  | cancel id => exact ⟨_, (h.cancel id).2⟩
  | modify id px qty =>
      have hmodify : Agrees c (b.modifyWith V4.submitLimit id px qty) (F.modify c id px qty) :=
        h.modifyWith id px qty fun _ _ _ _ _ _ _ _ h hid => h.submitLimitV4_valid hid
      exact ⟨_, hmodify.2⟩

end v4

end Book

end Lob
