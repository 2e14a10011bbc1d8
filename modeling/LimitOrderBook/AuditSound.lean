import LimitOrderBook.Audit

/-! # The audit as an oracle

What passes the audit holds a flat book, as long as its empty levels and the bits behind the last
level are in order (`BlankInOrder`): the nodes on the queues carry the orders, and the slots of the
pool that no queue reaches are leaked (`Audited.repr`).  Every book that holds a flat book passes
the audit (`audited_of_repr`), and the engine keeps holding one; so the audit, passed once on a state
in order, is passed after every run, and the state is intact (`intact_of_passes`). -/

namespace Lob

open KeyedQueue Chain

namespace OrderBook

variable {b : OrderBook} {s : Side} {px : Int}

/-- The node at `a` is reached from the head of a level of the band. -/
def Reached (b : OrderBook) (a : Addr) : Prop :=
  ∃ s px n, b.bids.inBand px = true ∧ a ∈ follow (nxt b.pool) n (b.levels s px).head

/-- What a state of the engine has from its construction, whatever was done to its levels, links,
totals, bitmaps and cached prices. -/
structure Standing (b : OrderBook) : Prop where
  lo_pos : 1 ≤ b.bids.lo
  frame : ∀ s, (b.ladder s).Frame b.bids.lo b.bids.hi
  index_wf : b.orders.WF

/-- The states to be audited: the nodes on the queues are objects of the pool. -/
structure Framed (b : OrderBook) : Prop extends Standing b where
  pool_wf : b.pool.WF
  reached_live : ∀ a, b.Reached a → b.pool.Live a
  small : b.restingOrders < 2 ^ 32 - 1

/-- What the audit does not look at is in order. -/
structure BlankInOrder (b : OrderBook) : Prop where
  tail : ∀ s px, b.bids.inBand px = true → (b.levels s px).head = none →
    (b.levels s px).tail = none
  price : ∀ s px, b.bids.inBand px = true → (b.levels s px).head = none →
    (b.levels s px).price = px
  bits_range : ∀ s i, Bitmap.bit (b.ladder s).words i = true → i < (b.ladder s).levels.length

namespace Standing

variable (h : b.Standing)

include h

theorem inBand_eq (s : Side) (px : Int) : (b.ladder s).inBand px = b.bids.inBand px := by
  rw [FlatLadder.inBand, FlatLadder.inBand, (h.frame s).lo_eq, (h.frame s).hi_eq]

theorem apart : b.bids.inBand kNoPrice = false := by
  have hlo := h.lo_pos
  rw [FlatLadder.inBand, kNoPrice, decide_eq_false (by omega), Bool.false_and]

theorem checkInvariants_eq_none_iff : b.checkInvariants = none ↔ b.Audited :=
  OrderBook.checkInvariants_eq_none_iff h.index_wf h.inBand_eq h.apart

end Standing

theorem Framed.onBook_live (h : b.Framed) {a : Addr} (ha : b.OnBook a) : b.pool.Live a := by
  obtain ⟨s, px, hpx, ha⟩ := ha
  exact h.reached_live a ⟨s, px, b.restingOrders, hpx, ha⟩

/-! ### The book that passed -/

theorem mem_nodes {a : Addr} :
    a ∈ b.nodes s ↔ ∃ px, b.bids.inBand px = true ∧ a ∈ b.chainAt s px := by
  simp only [nodes, List.mem_flatMap, mem_prices]

theorem onBook_iff_mem_nodes {a : Addr} : b.OnBook a ↔ a ∈ b.nodes .bid ++ b.nodes .ask := by
  rw [List.mem_append, mem_nodes, mem_nodes]
  constructor
  · rintro ⟨s, px, ha⟩
    cases s with
    | bid => exact Or.inl ⟨px, ha⟩
    | ask => exact Or.inr ⟨px, ha⟩
  · rintro (⟨px, ha⟩ | ⟨px, ha⟩)
    · exact ⟨.bid, px, ha⟩
    · exact ⟨.ask, px, ha⟩

theorem total_queueAt : total (b.queueAt s px) = b.qtySum (b.chainAt s px) := by
  rw [total, queueAt, List.map_map]
  rfl

theorem side_flat_eq_map (b : OrderBook) (s : Side) :
    b.flat.side s = (b.nodes s).map fun a => resting (Allocator.deref b.pool a) := by
  rw [side_flat, nodes, List.map_flatMap]
  rfl

theorem ids_flat (b : OrderBook) :
    b.flat.ids = (b.nodes .bid ++ b.nodes .ask).map fun a => (Allocator.deref b.pool a).id := by
  have hids : ∀ s, (b.flat.side s).map Resting.id =
      (b.nodes s).map fun a => (Allocator.deref b.pool a).id := by
    intro s
    rw [side_flat_eq_map, List.map_map]
    rfl
  rw [List.map_append, ← hids .bid, ← hids .ask]
  exact Flat.ids_eq _

theorem mem_ids_flat {k : OrderId} :
    k ∈ b.flat.ids ↔ ∃ a, b.OnBook a ∧ (Allocator.deref b.pool a).id = k := by
  simp only [ids_flat, List.mem_map, onBook_iff_mem_nodes]

namespace Audited

variable (h : b.Audited)

include h

theorem node {a : Addr} (ha : b.OnBook a) :
    ∃ s px, b.bids.inBand px = true ∧ b.NodeChecked s px a := by
  obtain ⟨s, px, hpx, ha⟩ := ha
  exact ⟨s, px, hpx, (h.levels s px hpx).node a ha⟩

/-- Nodes know their level, so no node is on two queues. -/
theorem nodes_nodup : (b.nodes .bid ++ b.nodes .ask).Nodup := by
  have hside : ∀ s, (b.nodes s).Nodup := by
    intro s
    refine List.nodup_flatMap.mpr ⟨fun px hpx => ?_, ?_⟩
    · exact (h.levels s px (mem_prices.mp hpx)).linked.nodup
    · refine (prices_pairwise b s).imp_of_mem ?_
      intro px px' hpx hpx' hlt a ha ha'
      have hl := ((h.levels s px (mem_prices.mp hpx)).node a ha).price
      have hl' := ((h.levels s px' (mem_prices.mp hpx')).node a ha').price
      rw [hl.symm.trans hl'] at hlt
      exact irrefl px' hlt
  refine List.nodup_append.mpr ⟨hside .bid, hside .ask, ?_⟩
  rintro a ha _ ha' rfl
  obtain ⟨px, hpx, ha⟩ := mem_nodes.mp ha
  obtain ⟨px', hpx', ha'⟩ := mem_nodes.mp ha'
  have hn := ((h.levels .bid px hpx).node a ha).side
  have hn' := ((h.levels .ask px' hpx').node a ha').side
  cases hn.symm.trans hn'

theorem find_node {a : Addr} (ha : b.OnBook a) :
    Index.find b.orders (Allocator.deref b.pool a).id = some a := by
  obtain ⟨s, px, -, hn⟩ := h.node ha
  exact hn.find

/-- An order of the flat book, back on its queue. -/
theorem of_mem_side {r : Resting} (hr : r ∈ b.flat.side s) : b.bids.inBand r.price = true ∧
    ∃ a ∈ b.chainAt s r.price, b.NodeChecked s r.price a ∧
      r = resting (Allocator.deref b.pool a) := by
  rw [side_flat_eq_map] at hr
  obtain ⟨a, ha, rfl⟩ := List.mem_map.mp hr
  obtain ⟨px, hpx, ha⟩ := mem_nodes.mp ha
  have hn := (h.levels s px hpx).node a ha
  obtain rfl : (resting (Allocator.deref b.pool a)).price = px := hn.price
  exact ⟨hpx, a, ha, hn, rfl⟩

theorem ids_nodup : b.flat.ids.Nodup := by
  rw [ids_flat]
  exact OrderBook.ids_nodup h.nodes_nodup fun a ha => h.find_node (onBook_iff_mem_nodes.mpr ha)

/-- The id map holds the orders on the book and no others. -/
theorem mem_ids_of_find (hwf : b.orders.WF) {k : OrderId} (hk : Index.find b.orders k ≠ none) :
    k ∈ b.flat.ids := by
  have hkey : ∀ {k : OrderId}, Index.find b.orders k ≠ none →
      LawfulIndex.Key (IdMap Addr) k ∧ Index.find b.orders k ≠ none := by
    rintro k hk
    refine ⟨?_, hk⟩
    rintro rfl
    exact hk hwf.find_zero
  refine LawfulIndex.mem_of_size_le hwf h.ids_nodup ?_ ?_ (hkey hk).1 hk
  · intro k hk
    obtain ⟨a, ha, rfl⟩ := mem_ids_flat.mp hk
    apply hkey
    rw [h.find_node ha]
    simp
  · rw [ids_flat, List.length_map]
    exact Nat.le_of_eq h.size

end Audited

/-- The node that the id map has for an id. -/
def nodeOf (b : OrderBook) (k : OrderId) : Addr := (Index.find b.orders k).getD default

/-- The objects of the pool that are on no queue. -/
def Leaked (b : OrderBook) (a : Addr) : Prop := b.pool.Live a ∧ ¬ b.OnBook a

/-- The pool of `b`, where what is on no queue is lost for good. -/
@[reducible] def leakyPool (b : OrderBook) : LawfulAllocator (Pool (Order Addr) 64) Addr (Order Addr) :=
  LawfulAllocator.leaking b.Leaked

namespace Audited

variable (h : b.Audited)

include h

theorem nodeOf_id {a : Addr} (ha : b.OnBook a) :
    b.nodeOf (Allocator.deref b.pool a).id = a := by
  rw [nodeOf, h.find_node ha]
  rfl

/-- The queue at a price, read as the level of the flat book. -/
theorem level_flat (hpx : b.bids.inBand px = true) :
    level Resting.price px (b.flat.side s) = b.queueAt s px := by
  rw [side_flat, level_flatMap (prices_pairwise b s), if_pos (mem_prices.mpr hpx)]
  intro q hq r hr
  obtain ⟨a, ha, rfl⟩ := List.mem_map.mp hr
  exact ((h.levels s q (mem_prices.mp hq)).node a ha).price

theorem ptrs_queueAt (hpx : b.bids.inBand px = true) :
    ptrs b.nodeOf (b.queueAt s px) = b.chainAt s px := by
  rw [ptrs, queueAt, List.map_map]
  refine (List.map_congr_left fun a ha => ?_).trans (List.map_id _)
  exact h.nodeOf_id ⟨s, px, hpx, ha⟩

theorem levelRepr (hblank : b.BlankInOrder) (hpx : b.bids.inBand px = true) :
    LevelRepr b.pool b.nodeOf s (b.levels s px) (b.queueAt s px) := by
  have hl := h.levels s px hpx
  refine ⟨?_, ?_, ?_, ?_, ?_, ?_⟩
  · intro r hr
    obtain ⟨a, ha, rfl⟩ := List.mem_map.mp hr
    have hn := hl.node a ha
    have hptr : b.nodeOf (resting (Allocator.deref b.pool a)).id = a :=
      h.nodeOf_id ⟨s, px, hpx, ha⟩
    rw [hptr]
    exact ⟨rfl, rfl, rfl, rfl, hn.level.trans (congrArg (LevelRef.mk s) hn.price.symm), hn.side⟩
  · rw [h.ptrs_queueAt hpx]
    exact hl.linked
  · rw [h.ptrs_queueAt hpx]
    exact hl.head
  · rw [h.ptrs_queueAt hpx]
    by_cases hnil : b.chainAt s px = []
    · rw [hblank.tail s px hpx (hl.head_eq_none_iff.mpr hnil), hnil]
      rfl
    · exact hl.tail hnil
  · rw [total_queueAt]
    exact hl.totalQty
  · rw [queueAt, List.length_map]
    exact hl.count

end Audited

namespace Audited

variable (h : b.Audited) (hb : b.Framed)

include h hb

theorem core (hblank : b.BlankInOrder) :
    letI : LawfulAllocator (Pool (Order Addr) 64) Addr (Order Addr) := b.leakyPool
    Core b.pool b.orders b.levels b.bids.inBand b.flat b.nodeOf := by
  let _ : LawfulAllocator (Pool (Order Addr) 64) Addr (Order Addr) := b.leakyPool
  refine
    { pool_wf := ⟨hb.pool_wf, fun a ha => ha.1⟩
      index_wf := hb.index_wf
      nodup := h.ids_nodup
      key := ?_
      in_band := ?_
      find := ?_
      size := ?_
      ptr_inj := ?_
      live := ?_
      level := ?_ }
  · intro k hk
    obtain ⟨a, ha, rfl⟩ := mem_ids_flat.mp hk
    intro h0
    have hfind := h.find_node ha
    rw [h0] at hfind
    cases hb.index_wf.find_zero.symm.trans hfind
  · intro s r hr
    obtain ⟨hpx, a, -, -, rfl⟩ := h.of_mem_side hr
    exact hpx
  · intro k
    split_ifs with hk
    · obtain ⟨a, ha, rfl⟩ := mem_ids_flat.mp hk
      rw [h.nodeOf_id ha, h.find_node ha]
    · by_contra hfound
      exact hk (h.mem_ids_of_find hb.index_wf hfound)
  · rw [ids_flat, List.length_map]
    exact h.size
  · intro k hk k' hk' he
    obtain ⟨a, ha, rfl⟩ := mem_ids_flat.mp hk
    obtain ⟨a', ha', rfl⟩ := mem_ids_flat.mp hk'
    rw [h.nodeOf_id ha, h.nodeOf_id ha'] at he
    rw [he]
  · intro a
    have hlive : b.pool.Live a ∧ ¬ b.Leaked a ↔ b.OnBook a := by
      constructor
      · rintro ⟨hl, hn⟩
        by_contra ho
        exact hn ⟨hl, ho⟩
      · intro ho
        exact ⟨hb.onBook_live ho, fun hn => hn.2 ho⟩
    refine hlive.trans ⟨fun ha => ?_, ?_⟩
    · exact ⟨_, mem_ids_flat.mpr ⟨a, ha, rfl⟩, h.nodeOf_id ha⟩
    · rintro ⟨k, hk, rfl⟩
      obtain ⟨a, ha, rfl⟩ := mem_ids_flat.mp hk
      rw [h.nodeOf_id ha]
      exact ha
  · intro s px hpx
    rw [h.level_flat hpx]
    exact h.levelRepr hblank hpx

theorem occ_iff (s : Side) (px : Int) :
    (b.ladder s).Occ px ↔ b.bids.inBand px = true ∧ b.chainAt s px ≠ [] := by
  rw [FlatLadder.Occ, hb.inBand_eq]
  refine and_congr_right fun hpx => ?_
  have hl := h.levels s px hpx
  rw [hl.bit, Ne, hl.head_eq_none_iff]

theorem ladder_wf (hblank : b.BlankInOrder) (s : Side) : (b.ladder s).WF s := by
  have hocc := h.occ_iff hb s
  refine
    { apart := (hb.inBand_eq s _).trans hb.apart
      levels_len := ?_
      words_len := (hb.frame s).words_len
      bits := hblank.bits_range s
      price := ?_
      blank := ?_
      best_none := ?_
      best_some := ?_ }
  · rw [(hb.frame s).levels_len, (hb.frame s).lo_eq, (hb.frame s).hi_eq]
  · intro px hpx
    rw [hb.inBand_eq] at hpx
    have hl := h.levels s px hpx
    by_cases hnil : b.chainAt s px = []
    · exact hblank.price s px hpx (hl.head_eq_none_iff.mpr hnil)
    · exact hl.price hnil
  · intro px hpx hnot
    rw [hb.inBand_eq] at hpx
    have hl := h.levels s px hpx
    have hnil : b.chainAt s px = [] := by
      by_contra hne
      exact hnot ((hocc px).mpr ⟨hpx, hne⟩)
    have hhead := hl.head_eq_none_iff.mpr hnil
    refine ⟨hhead, hblank.tail s px hpx hhead, ?_, ?_⟩
    · refine hl.totalQty.trans ?_
      rw [hnil]
      rfl
    · refine hl.count.trans ?_
      rw [hnil]
      rfl
  · intro h0 px ho
    obtain ⟨hpx, hne⟩ := (hocc px).mp ho
    exact hne ((h.best s).none h0 px (FlatLadder.mem_ticks.mpr hpx))
  · intro h0
    obtain ⟨hmem, hne, hbest⟩ := (h.best s).some h0
    refine ⟨(hocc _).mpr ⟨FlatLadder.mem_ticks.mp hmem, hne⟩, fun q hq => ?_⟩
    obtain ⟨hq, hqne⟩ := (hocc q).mp hq
    exact hbest q (FlatLadder.mem_ticks.mpr hq) hqne

omit hb in
theorem orderly : b.flat.Orderly ⟨b.stp, b.bids.inBand, b.protection⟩ := by
  have hbest : ∀ s, ∀ r ∈ b.flat.side s, (b.ladder s).best ≠ kNoPrice ∧
      ¬ better s r.price (b.ladder s).best := by
    intro s r hr
    obtain ⟨hpx, a, ha, -⟩ := h.of_mem_side hr
    have hmem := FlatLadder.mem_ticks.mpr hpx
    have hne : b.chainAt s r.price ≠ [] := List.ne_nil_of_mem ha
    have h0 : (b.ladder s).best ≠ kNoPrice := fun h0 => hne ((h.best s).none h0 _ hmem)
    exact ⟨h0, ((h.best s).some h0).2.2 _ hmem hne⟩
  refine
    { ordered := ?_
      nodup := h.ids_nodup
      qty_ne := ?_
      band := fun s r hr => (h.of_mem_side hr).1
      uncrossed := ?_ }
  · intro s
    rw [side_flat]
    refine ordered_flatMap (prices_pairwise b s) _ ?_
    intro px hpx r hr
    obtain ⟨a, ha, rfl⟩ := List.mem_map.mp hr
    exact ((h.levels s px (mem_prices.mp hpx)).node a ha).price
  · intro s r hr
    obtain ⟨-, a, -, hn, he⟩ := h.of_mem_side hr
    rw [he]
    exact hn.qty
  · intro r hr r' hr'
    obtain ⟨hb0, hle⟩ := hbest .bid r hr
    obtain ⟨ha0, hle'⟩ := hbest .ask r' hr'
    have hlt : b.bids.best < b.asks.best := h.uncrossed hb0 ha0
    have hb : ¬ b.bids.best < r.price := hle
    have ha : ¬ r'.price < b.asks.best := hle'
    omega

/-- **What passes the audit, with its empty levels in order, holds a flat book.** -/
theorem repr (hblank : b.BlankInOrder) :
    letI : LawfulAllocator (Pool (Order Addr) 64) Addr (Order Addr) := b.leakyPool
    Book.Repr ⟨b.stp, b.bids.inBand, b.protection⟩ b b.flat := by
  let _ : LawfulAllocator (Pool (Order Addr) 64) Addr (Order Addr) := b.leakyPool
  refine
    { orderly := h.orderly
      core := ⟨b.nodeOf, h.core hb hblank⟩
      ladder_wf := h.ladder_wf hb hblank
      occ := ?_
      inBand := hb.inBand_eq
      stp := rfl
      protection := rfl }
  intro s px
  refine (h.occ_iff hb s px).trans ?_
  constructor
  · rintro ⟨hpx, hne⟩ hnil
    rw [h.level_flat hpx, queueAt, List.map_eq_nil_iff] at hnil
    exact hne hnil
  · intro hne
    obtain ⟨r, hr⟩ := List.exists_mem_of_ne_nil _ hne
    obtain ⟨hm, rfl⟩ := mem_level.mp hr
    obtain ⟨hpx, a, ha, -⟩ := h.of_mem_side hm
    exact ⟨hpx, List.ne_nil_of_mem ha⟩

end Audited

/-! ### A book that holds a flat book -/

section holds

variable [LawfulAllocator (Pool (Order Addr) 64) Addr (Order Addr)] {c : Config} {F : Flat}

theorem levelChecked_of_repr (h : Book.Repr c b F) (hpx : c.inBand px = true) :
    b.LevelChecked s px (b.chainAt s px) := by
  obtain ⟨ptr, hcore⟩ := h.core
  have hlevel := hcore.level s px hpx
  have hband : b.bids.inBand px = true := (h.inBand .bid px).trans hpx
  have hchain := chainAt_eq h hcore (s := s) hpx
  have hprice : (b.levels s px).price = px :=
    (show (b.ladder s).WF s from h.ladder_wf s).price px ((h.inBand s px).trans hpx)
  refine
    { linked := by rw [hchain]; exact hlevel.linked
      node := ?_
      bit := h.bitSet_iff hpx
      head := by rw [hchain]; exact hlevel.head
      tail := fun _ => by rw [hchain]; exact hlevel.tail
      price := fun _ => hprice
      totalQty := ?_
      count := by rw [hchain, ptrs, List.length_map]; exact hlevel.count }
  · intro a ha
    have hbook : b.OnBook a := ⟨s, px, hband, ha⟩
    rw [hchain] at ha
    obtain ⟨r, hr, rfl⟩ := List.mem_map.mp ha
    obtain ⟨hm, rfl⟩ := mem_level.mp hr
    have hn := hlevel.node r hr
    refine ⟨hn.level, hn.side, hn.price, ?_, (find_iff h).mpr ⟨hbook, rfl⟩⟩
    rw [hn.qty]
    exact h.orderly.qty_ne s r hm
  · have hqueue := queueAt_eq h (s := s) hpx
    rw [← total_queueAt, hqueue]
    exact hlevel.totalQty

/-- **A book that holds a flat book passes the audit.** -/
theorem audited_of_repr (h : Book.Repr c b F) : b.Audited := by
  have hband : ∀ px, b.bids.inBand px = c.inBand px := h.inBand .bid
  have hlevel : ∀ s px, b.bids.inBand px = true → b.LevelChecked s px (b.chainAt s px) :=
    fun s px hpx => levelChecked_of_repr h ((hband px).symm.trans hpx)
  have hhead : ∀ s px, b.bids.inBand px = true →
      ((b.levels s px).head = none ↔ b.chainAt s px = []) :=
    fun s px hpx => (hlevel s px hpx).head_eq_none_iff
  refine ⟨hlevel, fun s => ⟨fun h0 px hpx => ?_, fun h0 => ?_⟩, ?_, h.best_lt_best⟩
  · rw [FlatLadder.mem_ticks] at hpx
    exact (hhead s px hpx).mp ((h.best_eq_kNoPrice_iff s).mp h0 px ((hband px).symm.trans hpx))
  · obtain ⟨hin, hne, hbest⟩ := h.best_spec h0
    have hin' := (hband _).trans hin
    refine ⟨FlatLadder.mem_ticks.mpr hin', fun hnil => hne ((hhead s _ hin').mpr hnil), ?_⟩
    intro px hpx hqueue
    rw [FlatLadder.mem_ticks] at hpx
    exact hbest px ((hband px).symm.trans hpx) fun hn => hqueue ((hhead s px hpx).mp hn)
  · obtain ⟨ptr, hcore⟩ := h.core
    have hids : b.flat.ids.length = (b.nodes .bid ++ b.nodes .ask).length := by
      rw [ids_flat, List.length_map]
    rw [← hids, flat_eq h]
    exact hcore.size

theorem checkInvariants_of_repr (h : Book.Repr c b F) : b.checkInvariants = none := by
  obtain ⟨ptr, hcore⟩ := h.core
  have hwf : ∀ s, (b.ladder s).WF s := h.ladder_wf
  refine (checkInvariants_eq_none_iff hcore.index_wf ?_ (hwf .bid).apart).mpr (audited_of_repr h)
  intro s px
  exact (h.inBand s px).trans (h.inBand .bid px).symm

end holds

/-- The engine after a run from the state `b`. -/
def runFrom (b : OrderBook) (ops : List Op) : OrderBook := Transition.finalState Book.call b ops

/-- An intact book has its empty levels in order. -/
theorem Intact.blankInOrder (h : b.Intact) : b.BlankInOrder := by
  refine ⟨fun s px hpx hhead => ?_, fun s px hpx _ => h.price s px hpx, h.bits_range⟩
  have hl := h.levels s px hpx
  have hnil : b.chainAt s px = [] := List.head?_eq_none_iff.mp (hl.head.symm.trans hhead)
  rw [hl.tail, hnil]
  rfl

/-- **The audit is sound and inductive** where what it does not look at is in order. -/
theorem intact_of_passes (hb : b.Framed) (hpass : b.checkInvariants = none)
    (hblank : b.BlankInOrder) :
    b.Intact ∧ ∀ ops, (b.runFrom ops).checkInvariants = none := by
  have haudited := hb.checkInvariants_eq_none_iff.mp hpass
  let _ : LawfulAllocator (Pool (Order Addr) 64) Addr (Order Addr) := b.leakyPool
  have hrepr := haudited.repr hb hblank
  have hsmall := hb.small
  refine ⟨intact_of_repr hrepr (by omega) fun a ha => ha.1, fun ops => ?_⟩
  obtain ⟨G, h⟩ := hrepr.exists_finalState (fun _ _ op h => ⟨_, (h.call op).2⟩) ops
  exact checkInvariants_of_repr h

end OrderBook

end Lob
