import LimitOrderBook.FlatLadder
import LimitOrderBook.IdMap
import LimitOrderBook.Pool
import LimitOrderBook.RefineCalls
import LimitOrderBook.Transition
import Mathlib.Data.List.Infix

/-! # The final engine

`OrderBook` is `OrderBookT` of `include/lob/order_book.hpp`: flat ladders, the open-addressing id
map and the slab pool.  `OrderBook.flat` reads the flat book off its memory, following the `next`
pointers of every level of the band.

Over whole runs from a fresh engine, the flat book is the one of `Flat.call` and the answers are
its answers (`run_repr`); the redundant structures agree with each other after
every call (`OrderBook.RepInv`, `repInv_run`). -/

namespace Lob

open KeyedQueue Chain

/-- What one call keeps, a run keeps. -/
theorem Book.Repr.exists_finalState {A L I P : Type} [Ladder L A] [Index I A]
    [Allocator P A (Order A)] [LawfulLadder L A] [LawfulIndex I A] [LawfulAllocator P A (Order A)]
    {c : Config} {step : Book L I P → Op → Book L I P × Answer}
    (hstep : ∀ b F op, Book.Repr c b F → ∃ G, Book.Repr c (step b op).1 G) {b : Book L I P}
    {F : Flat} (h : Book.Repr c b F) (ops : List Op) :
    ∃ G, Book.Repr c (Transition.finalState step b ops) G := by
  have hinv : ∀ b op, (∃ F, Book.Repr c b F) → True → ∃ G, Book.Repr c (step b op).1 G := by
    rintro b op ⟨F, hF⟩ -
    exact hstep b F op hF
  exact Transition.inv_finalState (P := fun _ _ => True) hinv ⟨F, h⟩
    (Transition.along_of_forall _ fun _ _ => trivial)

/-! ### What a flat ladder shows -/

namespace Book.Repr

variable {A I P : Type} [Index I A] [Allocator P A (Order A)] [LawfulIndex I A]
  [LawfulAllocator P A (Order A)] {c : Config} {b : Book (FlatLadder A) I P} {F : Flat}
  (h : Book.Repr c b F)

include h

theorem head_ne_none_iff {s : Side} {px : Int} (hpx : c.inBand px = true) :
    (b.levels s px).head ≠ none ↔ level Resting.price px (F.side s) ≠ [] := by
  obtain ⟨ptr, hcore⟩ := h.core
  rw [(hcore.level s px hpx).head, ptrs]
  cases level Resting.price px (F.side s) <;> simp

/-- The occupancy bit of a level tells whether it has orders. -/
theorem bitSet_iff {s : Side} {px : Int} (hpx : c.inBand px = true) :
    (b.ladder s).bitSet px = true ↔ (b.levels s px).head ≠ none := by
  have hin : (b.ladder s).inBand px = true := (h.inBand s px).trans hpx
  rw [h.head_ne_none_iff hpx, ← h.occ s px]
  exact ⟨fun hb => ⟨hin, hb⟩, fun ho => ho.2⟩

theorem best_eq_kNoPrice_iff (s : Side) : (b.ladder s).best = kNoPrice ↔
    ∀ px, c.inBand px = true → (b.levels s px).head = none := by
  have hwf : (b.ladder s).WF s := h.ladder_wf s
  constructor
  · intro hb px hpx
    by_contra hne
    exact hwf.best_none hb px ((h.occ s px).mpr ((h.head_ne_none_iff hpx).mp hne))
  · intro hall
    by_contra hne
    have hin : c.inBand (b.ladder s).best = true :=
      (h.inBand s _).symm.trans (hwf.best_some hne).1.1
    exact (h.head_ne_none_iff hin).mpr ((h.occ s _).mp (hwf.best_some hne).1) (hall _ hin)

theorem best_spec {s : Side} (hne : (b.ladder s).best ≠ kNoPrice) :
    c.inBand (b.ladder s).best = true ∧ (b.levels s (b.ladder s).best).head ≠ none ∧
      ∀ px, c.inBand px = true → (b.levels s px).head ≠ none →
        ¬ better s px (b.ladder s).best := by
  have hwf : (b.ladder s).WF s := h.ladder_wf s
  obtain ⟨hocc, hmax⟩ := hwf.best_some hne
  have hin : c.inBand (b.ladder s).best = true := (h.inBand s _).symm.trans hocc.1
  refine ⟨hin, (h.head_ne_none_iff hin).mpr ((h.occ s _).mp hocc), fun px hpx hhead => ?_⟩
  exact hmax px ((h.occ s px).mpr ((h.head_ne_none_iff hpx).mp hhead))

/-- No level with a bid is at or above a level with an ask. -/
theorem heads_uncrossed {px px' : Int} (hpx : c.inBand px = true) (hpx' : c.inBand px' = true)
    (hbid : (b.levels .bid px).head ≠ none) (hask : (b.levels .ask px').head ≠ none) :
    px < px' := by
  obtain ⟨r, hr⟩ := List.exists_mem_of_ne_nil _ ((h.head_ne_none_iff hpx).mp hbid)
  obtain ⟨r', hr'⟩ := List.exists_mem_of_ne_nil _ ((h.head_ne_none_iff hpx').mp hask)
  obtain ⟨hm, rfl⟩ := mem_level.mp hr
  obtain ⟨hm', rfl⟩ := mem_level.mp hr'
  exact h.orderly.uncrossed r hm r' hm'

theorem best_lt_best (hb : b.bids.best ≠ kNoPrice) (ha : b.asks.best ≠ kNoPrice) :
    b.bids.best < b.asks.best := by
  obtain ⟨hpx, hbid, -⟩ := h.best_spec (s := .bid) hb
  obtain ⟨hpx', hask, -⟩ := h.best_spec (s := .ask) ha
  exact h.heads_uncrossed hpx hpx' hbid hask

end Book.Repr

/-- An order takes one 64-byte slot. -/
instance slot_pos : Fact (0 < 64) := ⟨by decide⟩

abbrev OrderBook := Book (FlatLadder Addr) (IdMap Addr) (Pool (Order Addr) 64)

/-- The arguments of the constructor, with its defaults. -/
structure Params where
  stp : Stp := .none
  poolCapacity : ℕ := 2 ^ 17
  bandLo : Int := 1
  bandHi : Int := 2 ^ 15
  idMapSlots : ℕ := 2 ^ 18
  protection : Int := 0

namespace Params

/-- What the constructor relies on: `kNoPrice` is below the band, the band has a size, a pool
that doubles its last slab starts with a slot, and doubling reaches the slots of the id map. -/
structure Valid (p : Params) : Prop where
  lo_pos : 1 ≤ p.bandLo
  lo_le_hi : p.bandLo ≤ p.bandHi
  capacity_pos : 1 ≤ p.poolCapacity
  slots_le : p.idMapSlots ≤ 2 ^ 63

def inBand (p : Params) (px : Int) : Bool := decide (p.bandLo ≤ px) && decide (px < p.bandHi)

def config (p : Params) : Config := ⟨p.stp, p.inBand, p.protection⟩

end Params

/-- The sentinel is below the band. -/
theorem Params.Valid.apart {p : Params} (hp : p.Valid) : p.inBand kNoPrice = false := by
  have hlo := hp.lo_pos
  unfold Params.inBand kNoPrice
  rw [decide_eq_false (by omega), Bool.false_and]

/-- An operation priced in the band of `p`, or at a price that no engine accepts. -/
def Op.PricedIn (p : Params) (op : Op) : Prop := ∀ px ∈ op.price?, p.inBand px = true ∨ px ≤ 0

instance (p : Params) : DecidablePred (Op.PricedIn p) := fun op =>
  decidable_of_iff (∀ px ∈ op.price?.toList, p.inBand px = true ∨ px ≤ 0)
    (by simp [Op.PricedIn])

namespace OrderBook

def new (p : Params) : OrderBook where
  bids := FlatLadder.new p.bandLo p.bandHi
  asks := FlatLadder.new p.bandLo p.bandHi
  orders := IdMap.new p.idMapSlots
  stp := p.stp
  pool := Pool.new p.poolCapacity
  protection := p.protection

/-- The engine after a run. -/
def run (p : Params) (ops : List Op) : OrderBook := Transition.finalState Book.call (new p) ops

/-- The answers of a run. -/
def answers (p : Params) (ops : List Op) : List Answer := Transition.outputs Book.call (new p) ops

/-! ### Reading the book -/

/-- The prices of the band, best first. -/
def prices (b : OrderBook) (s : Side) : List Int :=
  let up := (List.range (b.bids.hi - b.bids.lo).toNat).map (fun i : ℕ => b.bids.lo + i)
  match s with
  | .bid => up.reverse
  | .ask => up

def resting (o : Order Addr) : Resting := ⟨o.id, o.price, o.qty, o.owner⟩

/-- The nodes of a level, from its head along `next`. -/
def chainAt (b : OrderBook) (s : Side) (px : Int) : List Addr :=
  follow (nxt b.pool) b.restingOrders (b.levels s px).head

def queueAt (b : OrderBook) (s : Side) (px : Int) : List Resting :=
  (b.chainAt s px).map fun a => resting (Allocator.deref b.pool a)

def flat (b : OrderBook) : Flat where
  bids := (b.prices .bid).flatMap (b.queueAt .bid)
  asks := (b.prices .ask).flatMap (b.queueAt .ask)

variable {p : Params} {b : OrderBook} {F : Flat}

theorem side_flat (b : OrderBook) (s : Side) :
    b.flat.side s = (b.prices s).flatMap (b.queueAt s) := by cases s <;> rfl

theorem prices_pairwise (b : OrderBook) (s : Side) : (b.prices s).Pairwise (better s) := by
  have hup : b.bids.ticks.Pairwise (· < ·) := FlatLadder.ticks_pairwise
  cases s with
  | bid => exact List.pairwise_reverse.mpr hup
  | ask => exact hup

theorem mem_prices {s : Side} {px : Int} : px ∈ b.prices s ↔ b.bids.inBand px = true := by
  have hup : px ∈ b.bids.ticks ↔ b.bids.inBand px = true := FlatLadder.mem_ticks
  cases s with
  | bid => exact List.mem_reverse.trans hup
  | ask => exact hup

section reading

-- a lawful reading of the pool: whichever slots it takes for live
variable [LawfulAllocator (Pool (Order Addr) 64) Addr (Order Addr)]

theorem chainAt_eq {c : Config} (h : Book.Repr c b F) {ptr : OrderId → Addr}
    (hcore : Core b.pool b.orders b.levels c.inBand F ptr) {s : Side} {px : Int}
    (hpx : c.inBand px = true) :
    b.chainAt s px = ptrs ptr (level Resting.price px (F.side s)) := by
  have hlevel := hcore.level s px hpx
  have hlen : (ptrs ptr (level Resting.price px (F.side s))).length ≤ b.restingOrders := by
    have h1 : (level Resting.price px (F.side s)).length ≤ (F.side s).length :=
      List.length_filter_le _ _
    have h2 := h.length_lt (s := s) (List.append_nil _).symm
    rw [ptrs, List.length_map]
    exact h1.trans (Nat.le_of_lt_succ h2)
  rw [chainAt, hlevel.head, hlevel.linked.follow_eq hlen]

/-- What is read off the memory is the book the engine holds. -/
theorem queueAt_eq {c : Config} (h : Book.Repr c b F) {s : Side} {px : Int}
    (hpx : c.inBand px = true) : b.queueAt s px = level Resting.price px (F.side s) := by
  obtain ⟨ptr, hcore⟩ := h.core
  rw [queueAt, chainAt_eq h hcore hpx, ptrs, List.map_map]
  refine (List.map_congr_left fun r hr => ?_).trans (List.map_id _)
  have hn := (hcore.level s px hpx).node r hr
  simp only [Function.comp_apply, resting, hn.id, hn.price, hn.qty, hn.owner, id]

theorem flat_eq {c : Config} (h : Book.Repr c b F) : b.flat = F := by
  have hband : ∀ px, b.bids.inBand px = c.inBand px := h.inBand .bid
  refine Flat.ext_side fun s => ?_
  have hq : (b.prices s).flatMap (b.queueAt s) =
      (b.prices s).flatMap fun px => level Resting.price px (F.side s) := by
    refine List.flatMap_congr fun px hpx => queueAt_eq h ?_
    rw [← hband]
    exact mem_prices.mp hpx
  rw [side_flat, hq]
  refine Ordered.flatMap_level (prices_pairwise b s) (h.wf.ordered s) fun r hr => ?_
  rw [mem_prices, hband]
  exact h.wf.band s r hr

end reading

/-! ### Whole runs -/

theorem new_repr_of_apart (hapart : p.inBand kNoPrice = false) (hslots : p.idMapSlots ≤ 2 ^ 63) :
    Book.Repr p.config (new p) {} := by
  have hside : ∀ s, (new p).ladder s = FlatLadder.new p.bandLo p.bandHi := by
    intro s
    cases s <;> rfl
  refine Book.Repr.of_fresh ?_ ?_ ?_ (IdMap.new_wf hslots) (IdMap.new_find hslots) rfl
    (Pool.new_wf _) (Pool.new_not_live _) rfl rfl
  · intro s
    rw [hside]
    exact FlatLadder.new_wf s hapart
  · intro s px
    rw [hside]
    exact FlatLadder.new_not_occ px
  · intro s px
    rw [hside]
    rfl

theorem new_repr (hp : p.Valid) : Book.Repr p.config (new p) {} :=
  new_repr_of_apart hp.apart hp.slots_le

/-- The run of an engine is simulated by the run of the flat book. -/
theorem run_repr (hp : p.Valid) (ops : List Op) :
    answers p ops = Transition.outputs (Flat.call p.config) {} ops ∧
      Book.Repr p.config (run p ops) (Transition.finalState (Flat.call p.config) {} ops) :=
  Transition.outputs_eq_of_sim (P := fun _ _ => True) (R := Book.Repr p.config)
    (fun _ _ op h _ => h.call op) (new_repr hp) (Transition.along_of_forall _ fun _ _ => trivial)

/-! ### The redundant structures agree -/

/-- The level at `px` of side `s`, against the nodes `l` that its `next` pointers visit. -/
structure LevelInv (b : OrderBook) (s : Side) (px : Int) (l : List Addr) : Prop where
  nodup : l.Nodup
  linked : Linked (prv b.pool) (nxt b.pool) none l none
  head : (b.levels s px).head = l.head?
  tail : (b.levels s px).tail = l.getLast?
  price : ∀ a ∈ l, (Allocator.deref b.pool a).price = px
  side : ∀ a ∈ l, (Allocator.deref b.pool a).side = s
  level : ∀ a ∈ l, (Allocator.deref b.pool a).level = ⟨s, px⟩
  qty : ∀ a ∈ l, (Allocator.deref b.pool a).qty ≠ 0
  totalQty : (b.levels s px).totalQty.toNat =
    (l.map fun a => (Allocator.deref b.pool a).qty.toNat).sum
  count : (b.levels s px).count.toNat = l.length

/-- The node at `a` is on the queue of a level of side `s`. -/
def OnBook (b : OrderBook) (a : Addr) : Prop :=
  ∃ s px, b.bids.inBand px = true ∧ a ∈ b.chainAt s px

/-- **The representation invariant**: queues, totals, bitmap, cached best, id map and pool all
show the same book, and it is not crossed. -/
structure RepInv (b : OrderBook) : Prop where
  levels : ∀ s px, b.bids.inBand px = true → b.LevelInv s px (b.chainAt s px)
  bits : ∀ s px, b.bids.inBand px = true →
    ((b.ladder s).bitSet px = true ↔ (b.levels s px).head ≠ none)
  bits_range : ∀ s i, Bitmap.bit (b.ladder s).words i = true → i < (b.ladder s).levels.length
  best_none : ∀ s, (b.ladder s).best = kNoPrice ↔
    ∀ px, b.bids.inBand px = true → (b.levels s px).head = none
  best_some : ∀ s, (b.ladder s).best ≠ kNoPrice →
    b.bids.inBand (b.ladder s).best = true ∧ (b.levels s (b.ladder s).best).head ≠ none ∧
      ∀ px, b.bids.inBand px = true → (b.levels s px).head ≠ none →
        ¬ better s px (b.ladder s).best
  index_wf : b.orders.WF
  index : ∀ k a, b.orders.find k = some a ↔ b.OnBook a ∧ (Allocator.deref b.pool a).id = k
  id_ne : ∀ a, b.OnBook a → (Allocator.deref b.pool a).id ≠ 0
  one_level : ∀ a s px s' px', b.bids.inBand px = true → b.bids.inBand px' = true →
    a ∈ b.chainAt s px → a ∈ b.chainAt s' px' → s = s' ∧ px = px'
  size : b.restingOrders = b.flat.all.length
  pool_wf : b.pool.WF
  pool : ∀ a, b.pool.Live a ↔ b.OnBook a
  uncrossed : b.bids.best ≠ kNoPrice → b.asks.best ≠ kNoPrice → b.bids.best < b.asks.best

/-- The representation invariant of a pool that may hold more than the book. -/
structure Intact (b : OrderBook) : Prop where
  levels : ∀ s px, b.bids.inBand px = true → b.LevelInv s px (b.chainAt s px)
  price : ∀ s px, b.bids.inBand px = true → (b.levels s px).price = px
  bits : ∀ s px, b.bids.inBand px = true →
    ((b.ladder s).bitSet px = true ↔ (b.levels s px).head ≠ none)
  bits_range : ∀ s i, Bitmap.bit (b.ladder s).words i = true → i < (b.ladder s).levels.length
  best_none : ∀ s, (b.ladder s).best = kNoPrice ↔
    ∀ px, b.bids.inBand px = true → (b.levels s px).head = none
  best_some : ∀ s, (b.ladder s).best ≠ kNoPrice →
    b.bids.inBand (b.ladder s).best = true ∧ (b.levels s (b.ladder s).best).head ≠ none ∧
      ∀ px, b.bids.inBand px = true → (b.levels s px).head ≠ none →
        ¬ better s px (b.ladder s).best
  index_wf : b.orders.WF
  index : ∀ k a, b.orders.find k = some a ↔ b.OnBook a ∧ (Allocator.deref b.pool a).id = k
  id_ne : ∀ a, b.OnBook a → (Allocator.deref b.pool a).id ≠ 0
  one_level : ∀ a s px s' px', b.bids.inBand px = true → b.bids.inBand px' = true →
    a ∈ b.chainAt s px → a ∈ b.chainAt s' px' → s = s' ∧ px = px'
  size : b.restingOrders = b.flat.all.length
  live : ∀ a, b.OnBook a → b.pool.Live a
  uncrossed : b.bids.best ≠ kNoPrice → b.asks.best ≠ kNoPrice → b.bids.best < b.asks.best

section reading

variable [LawfulAllocator (Pool (Order Addr) 64) Addr (Order Addr)]

/-- An order on the book, as a node. -/
theorem onBook_iff {c : Config} (h : Book.Repr c b F) {ptr : OrderId → Addr}
    (hcore : Core b.pool b.orders b.levels c.inBand F ptr) {a : Addr} :
    b.OnBook a ↔ ∃ s, ∃ r ∈ F.side s, a = ptr r.id := by
  have hband : ∀ px, b.bids.inBand px = c.inBand px := h.inBand .bid
  constructor
  · rintro ⟨s, px, hpx, ha⟩
    rw [chainAt_eq h hcore (by rw [← hband]; exact hpx)] at ha
    obtain ⟨r, hr, rfl⟩ := List.mem_map.mp ha
    exact ⟨s, r, (mem_level.mp hr).1, rfl⟩
  · rintro ⟨s, r, hr, rfl⟩
    have hpx := h.wf.band s r hr
    refine ⟨s, r.price, by rw [hband]; exact hpx, ?_⟩
    rw [chainAt_eq h hcore hpx]
    exact List.mem_map_of_mem (mem_level.mpr ⟨hr, rfl⟩)

theorem levelInv_of_repr {c : Config} (h : Book.Repr c b F) (hsmall : b.restingOrders < 2 ^ 32)
    {s : Side} {px : Int} (hpx : c.inBand px = true) : b.LevelInv s px (b.chainAt s px) := by
  obtain ⟨ptr, hcore⟩ := h.core
  have hlevel := hcore.level s px hpx
  have hnode : ∀ a ∈ ptrs ptr (level Resting.price px (F.side s)),
      ∃ r ∈ F.side s, r.price = px ∧ NodeRepr (Allocator.deref b.pool a) s r := by
    intro a ha
    obtain ⟨r, hr, rfl⟩ := List.mem_map.mp ha
    exact ⟨r, (mem_level.mp hr).1, (mem_level.mp hr).2, hlevel.node r hr⟩
  have hlen : (level Resting.price px (F.side s)).length < 2 ^ 32 := by
    have h1 : (level Resting.price px (F.side s)).length ≤ (F.side s).length :=
      List.length_filter_le _ _
    have h2 := h.length_lt (s := s) (List.append_nil _).symm
    have h3 : Index.size b.orders < 2 ^ 32 := hsmall
    omega
  rw [chainAt_eq h hcore hpx]
  refine
    { nodup := hcore.ptrs_nodup s px
      linked := hlevel.linked
      head := hlevel.head
      tail := hlevel.tail
      price := ?_
      side := ?_
      level := ?_
      qty := ?_
      totalQty := ?_
      count := ?_ }
  · intro a ha
    obtain ⟨r, -, rfl, hn⟩ := hnode a ha
    exact hn.price
  · intro a ha
    obtain ⟨r, -, -, hn⟩ := hnode a ha
    exact hn.side
  · intro a ha
    obtain ⟨r, -, rfl, hn⟩ := hnode a ha
    exact hn.level
  · intro a ha
    obtain ⟨r, hr, -, hn⟩ := hnode a ha
    rw [hn.qty]
    exact h.wf.qty_ne s r hr
  · have hsum : ((ptrs ptr (level Resting.price px (F.side s))).map
        fun a => (Allocator.deref b.pool a).qty.toNat) =
        (level Resting.price px (F.side s)).map fun r => r.qty.toNat := by
      rw [ptrs, List.map_map]
      refine List.map_congr_left fun r hr => ?_
      exact congrArg UInt32.toNat (hlevel.node r hr).qty
    rw [hsum, hlevel.totalQty]
    exact UInt64.toNat_ofNat_of_lt' (total_lt hlen)
  · rw [hlevel.count, ptrs, List.length_map]
    exact UInt32.toNat_ofNat_of_lt' hlen

section agreement

variable {c : Config} (h : Book.Repr c b F)

include h

/-- The id map leads to the node that holds the order, and to no other. -/
theorem find_iff {k : OrderId} {a : Addr} :
    b.orders.find k = some a ↔ b.OnBook a ∧ (Allocator.deref b.pool a).id = k := by
  obtain ⟨ptr, hcore⟩ := h.core
  have hid : ∀ s, ∀ r ∈ F.side s, (Allocator.deref b.pool (ptr r.id)).id = r.id :=
    fun s r hr => (hcore.node hr).id
  have hfind : b.orders.find k = if k ∈ F.ids then some (ptr k) else none := hcore.find k
  rw [hfind, onBook_iff h hcore]
  constructor
  · intro he
    split_ifs at he with hk
    obtain ⟨s, r, hr, rfl⟩ := Flat.mem_ids.mp hk
    obtain rfl := Option.some.inj he
    exact ⟨⟨s, r, hr, rfl⟩, hid s r hr⟩
  · rintro ⟨⟨s, r, hr, rfl⟩, rfl⟩
    rw [hid s r hr, if_pos (Flat.mem_ids_of_mem hr)]

theorem live_iff {a : Addr} : LawfulAllocator.Live b.pool a ↔ b.OnBook a := by
  obtain ⟨ptr, hcore⟩ := h.core
  refine (hcore.live a).trans ?_
  rw [onBook_iff h hcore]
  constructor
  · rintro ⟨k, hk, rfl⟩
    obtain ⟨s, r, hr, rfl⟩ := Flat.mem_ids.mp hk
    exact ⟨s, r, hr, rfl⟩
  · rintro ⟨s, r, hr, rfl⟩
    exact ⟨r.id, Flat.mem_ids_of_mem hr, rfl⟩

/-- A node is on one queue only. -/
theorem chainAt_disjoint {s s' : Side} {px px' : Int} {a : Addr} (hpx : c.inBand px = true)
    (hpx' : c.inBand px' = true) (ha : a ∈ b.chainAt s px) (ha' : a ∈ b.chainAt s' px') :
    s = s' ∧ px = px' := by
  obtain ⟨ptr, hcore⟩ := h.core
  rw [chainAt_eq h hcore hpx] at ha
  rw [chainAt_eq h hcore hpx'] at ha'
  obtain ⟨r, hr, rfl⟩ := List.mem_map.mp ha
  obtain ⟨r', hr', he⟩ := List.mem_map.mp ha'
  obtain ⟨hm, hp⟩ := mem_level.mp hr
  obtain ⟨hm', hp'⟩ := mem_level.mp hr'
  have hid := hcore.ptr_inj _ (Flat.mem_ids_of_mem hm) _ (Flat.mem_ids_of_mem hm') he.symm
  obtain ⟨rfl, rfl⟩ := Flat.eq_of_id hcore.nodup hm hm' hid
  exact ⟨rfl, hp.symm.trans hp'⟩

theorem intact_of_repr (hsmall : b.restingOrders < 2 ^ 32)
    (hlive : ∀ a, LawfulAllocator.Live b.pool a → b.pool.Live a) : b.Intact := by
  have hband : ∀ px, b.bids.inBand px = c.inBand px := h.inBand .bid
  obtain ⟨ptr, hcore⟩ := h.core
  exact
    { levels := fun s px hpx => levelInv_of_repr h hsmall (hband px ▸ hpx)
      price := fun s px hpx =>
        (show (b.ladder s).WF s from h.ladder_wf s).price px ((h.inBand s px).trans (hband px ▸ hpx))
      bits := fun s px hpx => h.bitSet_iff (hband px ▸ hpx)
      bits_range := fun s => (show (b.ladder s).WF s from h.ladder_wf s).bits
      best_none := fun s => by
        simp only [hband]
        exact h.best_eq_kNoPrice_iff s
      best_some := fun s hne => by
        simp only [hband]
        exact h.best_spec hne
      index_wf := hcore.index_wf
      index := fun k a => find_iff h
      id_ne := fun a ha => by
        obtain ⟨s, r, hr, rfl⟩ := (onBook_iff h hcore).mp ha
        rw [(hcore.node hr).id]
        exact h.wf.id_ne s r hr
      one_level := fun a s px s' px' hpx hpx' =>
        chainAt_disjoint h (hband px ▸ hpx) (hband px' ▸ hpx')
      size := by
        rw [flat_eq h]
        exact hcore.size.trans (List.length_map _)
      live := fun a ha => hlive a ((live_iff h).mpr ha)
      uncrossed := h.best_lt_best }

end agreement

end reading

theorem repInv_of_repr {c : Config} (h : Book.Repr c b F) (hsmall : b.restingOrders < 2 ^ 32) :
    b.RepInv := by
  have hb := intact_of_repr h hsmall fun _ ha => ha
  obtain ⟨ptr, hcore⟩ := h.core
  exact
    { hb with
      pool_wf := hcore.pool_wf
      pool := fun a => live_iff h }

/-- **After every call of every run the representation invariant holds.** -/
theorem repInv_run (p : Params) (hp : p.Valid) (ops : List Op)
    (hsmall : ∀ pre ∈ ops.inits, (run p pre).restingOrders < 2 ^ 32) :
    ∀ pre ∈ ops.inits, (run p pre).RepInv :=
  fun pre hpre => repInv_of_repr (run_repr hp pre).2 (hsmall pre hpre)

/-- A maker is filled in part, amended and cancelled, on a band of one bitmap word. -/
theorem repInv_run_small :
    (run { poolCapacity := 1, bandHi := 9, idMapSlots := 4, stp := .cancelResting }
      [.submitLimit 1 .ask 5 7 .gtc 3, .submitLimit 2 .ask 5 2 .gtc 0,
        .submitMarket 4 .bid 3 0, .modify 1 5 2, .cancel 2]).RepInv :=
  repInv_run _ ⟨by decide, by decide, by decide, by decide⟩
    [.submitLimit 1 .ask 5 7 .gtc 3, .submitLimit 2 .ask 5 2 .gtc 0,
      .submitMarket 4 .bid 3 0, .modify 1 5 2, .cancel 2] (by decide +kernel) _
    ((List.mem_inits _ _).mpr List.prefix_rfl)

end OrderBook

end Lob
