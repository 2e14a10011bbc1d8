import LimitOrderBook.OrderBook
import LimitOrderBook.PoolSafety

/-! # A book sized for the session

The pool and the id map of a book grow in one place only, when `rest` queues a new order: matching,
cancelling and amending give storage back (`Stable`, `Ending.call`).  By then the orders that
the call filled, killed or repriced are out of the book, so the new order finds a slot in the first
slab and a map that is at most half full as long as no more than `N` orders rest after the call.

`Snug` is what a session of at most `N` resting orders keeps, and `noGrowth_run` says that neither
structure ever grows.  The first slab must have room for `N` orders; its byte size is a 64-bit
product, and a capacity of `2 ^ 58` orders takes no bytes at all (`growth_of_wrapped`). -/

namespace Lob

namespace Book

/-! ### What gives storage back -/

section frame

variable {A L I P : Type} [Ladder L A] [Index I A] [Allocator P A (Order A)]
  {φ : P → Prop} {ψ : I → Prop}

/-- Facts about storage that hold on when orders are changed or leave. -/
structure Stable (φ : P → Prop) (ψ : I → Prop) : Prop where
  write : ∀ p a v, φ p → φ (Allocator.write p a v)
  destroy : ∀ p a, φ p → φ (Allocator.destroy p a)
  erase : ∀ i k, ψ i → ψ (Index.erase i k)

/-- The storage of a book has them. -/
def Holds (φ : P → Prop) (ψ : I → Prop) (b : Book L I P) : Prop := φ b.pool ∧ ψ b.orders

namespace Stable

theorem unlink (h : Stable φ ψ) {p : P} (hp : φ p) (lvl : Level A) (a : A) :
    φ (unlink p lvl a).1 := by
  simp only [Book.unlink]
  cases hprev : (Allocator.deref p a).prev with
  | none =>
      cases hnext : (Allocator.deref p a).next with
      | none => exact hp
      | some c => exact h.write _ _ _ hp
  | some b =>
      cases hnext : (Allocator.deref p a).next with
      | none => exact h.write _ _ _ hp
      | some c => exact h.write _ _ _ (h.write _ _ _ hp)

theorem drop (h : Stable φ ψ) {w : Fill A I P} (hw : φ w.pool ∧ ψ w.orders) (a : A) :
    φ (w.drop a).pool ∧ ψ (w.drop a).orders :=
  ⟨h.destroy _ _ (h.unlink hw.1 _ _), h.erase _ _ hw.2⟩

theorem reduce (h : Stable φ ψ) {w : Fill A I P} (hw : φ w.pool ∧ ψ w.orders) (a : A) (n : Qty) :
    φ (w.reduce a n).pool ∧ ψ (w.reduce a n).orders :=
  ⟨h.write _ _ _ hw.1, hw.2⟩

theorem fillLevel (h : Stable φ ψ) (stp : Stp) (stpOn : Bool) (taker : OrderId) (owner : Owner) :
    ∀ (n : ℕ) (o : Option A) (w : Fill A I P), φ w.pool ∧ ψ w.orders →
      φ (fillLevel stp stpOn taker owner n o w).pool ∧
        ψ (fillLevel stp stpOn taker owner n o w).orders
  | 0, _, _, hw => hw
  | _ + 1, none, _, hw => hw
  | n + 1, some a, w, hw => by
      unfold Book.fillLevel
      simp only
      split_ifs
      · exact hw
      · exact h.fillLevel stp stpOn taker owner n _ _ (h.drop hw a)
      · exact h.reduce hw a w.qty
      · exact h.drop hw a
      · exact h.fillLevel stp stpOn taker owner n _ _ (h.drop hw a)

omit [Index I A] [Allocator P A (Order A)] in
theorem withLadder {b : Book L I P} (hb : b.Holds φ ψ) (s : Side) (l : L) :
    (b.withLadder s l).Holds φ ψ := by
  cases s <;> exact hb

omit [Index I A] [Allocator P A (Order A)] in
theorem settle {w : Fill A I P} (hw : φ w.pool ∧ ψ w.orders) (b : Book L I P) (s : Side)
    (best : Int) : (b.settle s best w).Holds φ ψ :=
  withLadder (b := { b with pool := w.pool, orders := w.orders }) hw _ _

theorem matchLevels (h : Stable φ ψ) (stpOn : Bool) (s : Side) (taker : OrderId) (limit : Int)
    (owner : Owner) : ∀ (n : ℕ) (b : Book L I P) (remaining : Qty), b.Holds φ ψ →
      (matchLevels stpOn s taker limit owner n b remaining).book.Holds φ ψ
  | 0, _, _, hb => hb
  | n + 1, b, remaining, hb => by
      unfold Book.matchLevels
      split_ifs
      · exact hb
      · cases hbest : Ladder.best? s.opp (b.ladder s.opp) with
        | none => exact hb
        | some best =>
            simp only
            have hw := h.fillLevel b.stp stpOn taker owner (Index.size b.orders + 1)
              (Ladder.level (b.ladder s.opp) best).head
              ⟨b.pool, b.orders, Ladder.level (b.ladder s.opp) best, remaining, false, []⟩ hb
            split_ifs
            · exact settle hw b s.opp best
            · exact h.matchLevels stpOn s taker limit owner n _ _ (settle hw b s.opp best)
            · exact hb

theorem eraseOrder (h : Stable φ ψ) {b : Book L I P} (hb : b.Holds φ ψ) (id : OrderId) (a : A) :
    (b.eraseOrder id a).Holds φ ψ := by
  have hrem : ∀ {b : Book L I P}, b.Holds φ ψ → (b.removeFromBook a).Holds φ ψ := by
    intro b hb
    unfold removeFromBook
    simp only
    split_ifs
    · exact withLadder (withLadder (b := { b with pool := _ }) ⟨h.unlink hb.1 _ _, hb.2⟩ _ _) _ _
    · exact withLadder (b := { b with pool := _ }) ⟨h.unlink hb.1 _ _, hb.2⟩ _ _
  obtain ⟨h1, h2⟩ := hrem (b := { b with orders := Index.erase b.orders id })
    ⟨hb.1, h.erase _ _ hb.2⟩
  exact ⟨h.destroy _ _ h1, h2⟩

theorem amend (h : Stable φ ψ) {b : Book L I P} (hb : b.Holds φ ψ) (a : A) (n : Qty) :
    (b.amend a n).Holds φ ψ :=
  withLadder (b := { b with pool := _ }) ⟨h.write _ _ _ hb.1, hb.2⟩ _ _

end Stable

end frame

/-! ### Where a call ends -/

section calls

variable {A L I P : Type} [DecidableEq A] [Ladder L A] [Index I A] [Allocator P A (Order A)]
  [LawfulLadder L A] [LawfulIndex I A] [LawfulAllocator P A (Order A)]
  {φ : P → Prop} {ψ : I → Prop} {c : Config}

/-- `b'` is the book `b` after all that gives storage back; at most a `rest` is to come. -/
def Ending (φ : P → Prop) (ψ : I → Prop) (c : Config) (b' : Book L I P) : Prop :=
  ∃ b F, Repr c b F ∧ b.Holds φ ψ ∧ (b' = b ∨ ∃ s id px qty owner,
    id ≠ 0 ∧ id ∉ F.ids ∧ b' = b.rest s id px qty owner)

variable {b : Book L I P} {F : Flat} {s : Side} {id : OrderId} {px : Int} {qty : Qty} {tif : Tif}
  {owner : Owner}

omit [DecidableEq A] in
theorem Ending.of_holds (h : Repr c b F) (hb : b.Holds φ ψ) : Ending φ ψ c b :=
  ⟨b, F, h, hb, Or.inl rfl⟩

theorem Ending.execute (hst : Stable φ ψ) (h : Repr c b F) (hb : b.Holds φ ψ) (hid : id ≠ 0)
    (hnew : id ∉ F.ids) : Ending φ ψ c (b.execute s id px qty tif owner).1 := by
  have hm := (h.matchOrders s id px qty owner).1
  have hmb := hst.matchLevels (decide (c.stp ≠ .none)) s id px owner (Index.size b.orders + 1) b qty hb
  unfold Book.execute
  simp only [h.stp]
  split_ifs
  · exact .of_holds h hb
  · exact .of_holds hm hmb
  · exact ⟨_, _, hm, hmb, Or.inr ⟨s, id, px, _, owner, hid, fun hmem =>
      hnew (Flat.mem_ids_of_walk hmem), rfl⟩⟩
  · exact .of_holds hm hmb

theorem Ending.submitLimit (hst : Stable φ ψ) (h : Repr c b F) (hb : b.Holds φ ψ) :
    Ending φ ψ c (b.submitLimit id s px qty tif owner).1 := by
  unfold Book.submitLimit
  split_ifs with hbad hfound
  · exact .of_holds h hb
  · exact .of_holds h hb
  · rw [h.find_isSome] at hfound
    exact .execute hst h hb (fun h0 => hbad (Or.inl h0)) hfound

/-- **Every call ends with its book, or with one `rest`.** -/
theorem Ending.call [Reserves I] (hst : Stable φ ψ) (h : Repr c b F) (hb : b.Holds φ ψ) (op : Op) :
    Ending φ ψ c (b.call op).1 := by
  cases op with
  | submitLimit id s px qty tif owner => exact .submitLimit hst h hb
  | submitMarket id s qty owner =>
      show Ending φ ψ c (b.submitMarket id s qty owner).1
      unfold Book.submitMarket
      split_ifs
      · exact .of_holds h hb
      · cases hl : b.marketLimit s with
        | none => exact .of_holds h hb
        | some limit =>
            simp only [h.stp]
            exact .of_holds (h.matchOrders s id limit qty owner).1
              (hst.matchLevels _ s id limit owner _ b qty hb)
  | cancel id =>
      have hcancel := (h.cancel id).2
      show Ending φ ψ c (b.cancel id).1
      unfold Book.cancel at hcancel ⊢
      cases ha : Index.find b.orders id with
      | none => exact .of_holds h hb
      | some a =>
          rw [ha] at hcancel
          exact .of_holds hcancel (hst.eraseOrder hb id a)
  | modify id newPx newQty =>
      have hmod : Repr c (b.modifyWith Book.submitLimit id newPx newQty).1
          (F.modify c id newPx newQty).1 :=
        (h.modifyWith id newPx newQty fun _ _ _ _ _ _ _ _ h hid =>
          h.submitLimit_valid (Reserves.key_ne hid)).2
      show Ending φ ψ c (b.modifyWith Book.submitLimit id newPx newQty).1
      unfold Book.modifyWith at hmod ⊢
      cases ha : Index.find b.orders id with
      | none => exact .of_holds h hb
      | some a =>
          rw [ha] at hmod
          simp only at hmod ⊢
          split_ifs at hmod ⊢ with hbad hsame
          · exact .of_holds h hb
          · exact .of_holds hmod (hst.amend hb a newQty)
          · have hid : id ∈ F.ids := (h.find_isSome id).mp (by rw [ha]; rfl)
            obtain ⟨s, r, hr, rfl⟩ := Flat.mem_ids.mp hid
            exact .submitLimit hst (h.eraseOrder hr ha) (hst.eraseOrder hb r.id a)

end calls

end Book

/-! ### The id map -/

namespace IdMap

variable {V : Type} [Inhabited V]

/-- `erase` neither grows nor shrinks the table. -/
theorem erase_storage (m : IdMap V) (k : OrderId) :
    (m.erase k).1.slots.length = m.slots.length ∧ (m.erase k).1.grows = m.grows := by
  refine ⟨length_erase m k, ?_⟩
  unfold erase
  simp only
  split_ifs <;> rfl

/-- Nor does `insert`, while the table is at most half full afterwards. -/
theorem insert_storage {m : IdMap V} (hroom : (m.count + 1) * 2 ≤ m.slots.length) (k : OrderId)
    (v : V) : (m.insert k v).1.slots.length = m.slots.length ∧ (m.insert k v).1.grows = m.grows := by
  unfold insert
  rw [insertAux_of_room _ hroom, place]
  split_ifs
  · exact ⟨List.length_set .., rfl⟩
  · exact ⟨rfl, rfl⟩

end IdMap

/-! ### The pool -/

namespace Pool

variable {T : Type} {sz : ℕ} [Inhabited T]

/-- The pool as an allocator that also keeps `Tight`, for as long as it has only one slab. -/
@[reducible] def oneSlab (cap : ℕ) [hsz : Fact (0 < sz)] : LawfulAllocator (Pool T sz) Addr T where
  WF p := p.WF ∧ (p.slabs.length = 1 → p.Tight cap 0)
  Live := Live
  create_fresh h v := (h.1.rawSlot hsz.out).1
  create_wf {p} h v := by
    refine ⟨create_wf h.1 hsz.out v, fun hlen => ?_⟩
    have hpos := h.1.slab
    have hslabs := create_slabs p v
    by_cases hfull : p.Full
    · have hmore : (p.create v).2.slabs.length = p.slabs.length + 1 := by
        rw [hslabs, if_pos hfull]
        exact List.length_append
      have hone : (p.create v).2.slabs.length = 1 := hlen
      omega
    · rw [if_neg hfull] at hslabs
      exact ((h.2 (hslabs ▸ hlen)).create h.1 hsz.out hfull v).1
  create_live h v a := create_live h.1 hsz.out v a
  deref_create_self {p} h v := by
    have hwf : LawfulAllocator.WF p := h.1
    exact LawfulAllocator.deref_create_self hwf v
  deref_create {p} h v a ha := by
    have hwf : LawfulAllocator.WF p := h.1
    exact LawfulAllocator.deref_create hwf v a ha
  destroy_wf h ha := ⟨destroy_wf h.1 ha, fun hlen => (h.2 hlen).destroy ha⟩
  destroy_live _ _ b := destroy_live b
  deref_destroy {p a} h ha b hne := by
    have hwf : LawfulAllocator.WF p := h.1
    exact LawfulAllocator.deref_destroy hwf ha b hne
  write_wf h ha v := ⟨write_wf h.1 ha v, fun hlen => (h.2 hlen).write ha v⟩
  write_live _ ha v b := write_live ha v b
  deref_write_self v := LawfulAllocator.deref_write_self v
  deref_write v hne := LawfulAllocator.deref_write v hne

end Pool

/-! ### A session -/

namespace OrderBook

/-- `pool_grow_count()`. -/
def poolGrowCount (b : OrderBook) : ℕ := b.pool.growCount

/-- `id_map_grow_count()`. -/
def idMapGrowCount (b : OrderBook) : ℕ := b.orders.growCount

/-- One slab, and a table for `N` orders that has never grown. -/
def poolSized (p : Pool (Order Addr) 64) : Prop := p.slabs.length = 1

def mapSized (N : ℕ) (m : IdMap Addr) : Prop := 2 * N ≤ m.slots.length ∧ m.grows = 0

theorem stable_sized (N : ℕ) : Book.Stable poolSized (mapSized N) where
  write _ _ _ hp := hp
  destroy _ _ hp := hp
  erase m k hm := by
    obtain ⟨hlen, hgrows⟩ := m.erase_storage k
    show mapSized N (m.erase k).1
    unfold mapSized at hm ⊢
    rw [hlen, hgrows]
    exact hm

theorem create_sized {p : Pool (Order Addr) 64} (hp : poolSized p) (hroom : ¬ p.Full)
    (o : Order Addr) : poolSized (Allocator.create p o).2 := by
  show (p.create o).2.slabs.length = 1
  rw [Pool.create_slabs, if_neg hroom]
  exact hp

theorem insert_sized {N : ℕ} {m : IdMap Addr} (hm : mapSized N m) (hroom : m.count + 1 ≤ N)
    (k : OrderId) (a : Addr) : mapSized N (Index.insert m k a) := by
  have hle := hm.1
  obtain ⟨hlen, hgrows⟩ := IdMap.insert_storage (m := m) (by omega) k a
  show mapSized N (m.insert k a).1
  unfold mapSized at hm ⊢
  rw [hlen, hgrows]
  exact hm

section snug

variable (cap : ℕ)

/-- What a book sized for `N` orders keeps. -/
structure Snug (N : ℕ) (c : Config) (b : OrderBook) : Prop where
  repr : letI : LawfulAllocator (Pool (Order Addr) 64) Addr (Order Addr) := Pool.oneSlab cap
    ∃ F, Book.Repr c b F
  sized : b.Holds poolSized (mapSized N)

variable {cap : ℕ} {N : ℕ} {c : Config} {b b' : OrderBook}

/-- **The order that is queued last finds a slot and a place.** -/
theorem sized_of_ending (hcap : N ≤ Pool.firstSlots 64 cap)
    (h : letI : LawfulAllocator (Pool (Order Addr) 64) Addr (Order Addr) := Pool.oneSlab cap
      Book.Ending poolSized (mapSized N) c b')
    (hN : b'.restingOrders ≤ N) : b'.Holds poolSized (mapSized N) := by
  let _ : LawfulAllocator (Pool (Order Addr) 64) Addr (Order Addr) := Pool.oneSlab cap
  obtain ⟨b, F, hrepr, ⟨hpool, hmap⟩, rfl | ⟨s, id, px, qty, owner, hid, hnew, rfl⟩⟩ := h
  · exact ⟨hpool, hmap⟩
  · obtain ⟨ptr, hcore⟩ := hrepr.core
    have hnone : Index.find b.orders id = none := by rw [hcore.find, if_neg hnew]
    have hsize : Index.size b.orders + 1 ≤ N := by
      rw [← LawfulIndex.size_insert hcore.index_wf hid hnone]
      refine le_trans (le_of_eq ?_) hN
      cases s <;> rfl
    have hlen : F.ids.length + 1 ≤ N := hcore.size ▸ hsize
    have htight : b.pool.Tight cap 0 := hcore.pool_wf.2 hpool
    -- every slot of a full pool holds a resting order
    have hroom : ¬ b.pool.Full := by
      intro hfull
      have hlive : ∀ a, b.pool.Live a → a ∈ F.ids.map ptr := by
        intro a ha
        obtain ⟨k, hk, rfl⟩ := (hcore.live a).mp ha
        exact List.mem_map_of_mem hk
      have hle := htight.le_length_of_full (by decide) hfull hlive
      rw [List.length_map] at hle
      omega
    refine Book.Stable.withLadder (b := { b with pool := _, orders := _ }) ⟨?_, ?_⟩ s _
    · have hcreate := create_sized hpool hroom
        { qty := qty, owner := owner, next := none, id := id, price := px,
          prev := (Ladder.level (b.ladder s) px).tail, level := ⟨s, px⟩, side := s }
      show poolSized (Book.linkTail _ _ _)
      unfold Book.linkTail
      cases (Ladder.level (b.ladder s) px).tail with
      | none => exact hcreate
      | some t => exact hcreate
    · exact insert_sized hmap hsize id _

theorem Snug.call (h : Snug cap N c b) (hcap : N ≤ Pool.firstSlots 64 cap) {op : Op}
    (hN : (b.call op).1.restingOrders ≤ N) : Snug cap N c (b.call op).1 := by
  let _ : LawfulAllocator (Pool (Order Addr) 64) Addr (Order Addr) := Pool.oneSlab cap
  obtain ⟨F, hrepr⟩ := h.repr
  exact ⟨⟨_, (hrepr.call op).2⟩,
    sized_of_ending hcap (Book.Ending.call (stable_sized N) hrepr h.sized op) hN⟩

theorem new_snug {p : Params} (hp : p.Valid) (hcap : p.poolCapacity < 2 ^ 64)
    (hslots : 2 * N ≤ p.idMapSlots) : Snug p.poolCapacity N p.config (new p) := by
  have hdvd : 64 ∣ p.poolCapacity * 64 % 2 ^ 64 := by omega
  obtain ⟨hwf, ⟨ptr, -, hindex, hnodup, hid, hband, hfind, hsize, hinj, hlive, hlevel⟩, hladder,
    hocc, hin, hstp, hprot⟩ := new_repr hp
  let _ : LawfulAllocator (Pool (Order Addr) 64) Addr (Order Addr) := Pool.oneSlab p.poolCapacity
  refine ⟨⟨{}, hwf, ⟨ptr, ?_⟩, hladder, hocc, hin, hstp, hprot⟩, rfl, ?_, rfl⟩
  · exact ⟨⟨Pool.new_wf _, fun _ => Pool.new_tight hcap hdvd⟩, hindex, hnodup, hid, hband, hfind,
      hsize, hinj, hlive, hlevel⟩
  · obtain ⟨k, -, -, hle, hlen⟩ := IdMap.new_length (V := Addr) hp.slots_le
    show 2 * N ≤ (IdMap.new p.idMapSlots : IdMap Addr).slots.length
    omega

end snug

/-- **A book sized for the session never grows**: with at most `N` orders resting after each call,
a first slab of at least `N` orders and a table of at least `2 * N` slots. -/
theorem noGrowth_run (p : Params) (hp : p.Valid) {N : ℕ} (hcap : p.poolCapacity < 2 ^ 64)
    (hbytes : N * 64 ≤ p.poolCapacity * 64 % 2 ^ 64) (hslots : 2 * N ≤ p.idMapSlots)
    (ops : List Op) (hN : ∀ pre ∈ ops.inits, (run p pre).restingOrders ≤ N) :
    ∀ pre ∈ ops.inits, (run p pre).poolGrowCount = 0 ∧ (run p pre).idMapGrowCount = 0 := by
  intro pre hpre
  have hfirst : N ≤ Pool.firstSlots 64 p.poolCapacity := (Nat.le_div_iff_mul_le (by decide)).mpr hbytes
  have halong : Transition.Along Book.call
      (fun (b : OrderBook) op => (b.call op).1.restingOrders ≤ N) (new p) pre := by
    refine Transition.along_of_split fun pre' op post he => ?_
    have hprefix : pre' ++ [op] <+: ops := by
      refine List.IsPrefix.trans ⟨post, ?_⟩ ((List.mem_inits _ _).mp hpre)
      rw [he, List.append_assoc]
      rfl
    have hle := hN _ ((List.mem_inits _ _).mpr hprefix)
    rwa [run, Transition.finalState_append] at hle
  have hsnug : Snug p.poolCapacity N p.config (run p pre) :=
    Transition.inv_finalState (fun b op h hle => h.call hfirst hle) (new_snug hp hcap hslots) halong
  refine ⟨?_, hsnug.sized.2.2⟩
  have hone : (run p pre).pool.slabs.length = 1 := hsnug.sized.1
  rw [poolGrowCount, Pool.growCount, hone]

/-- One slot and one resting order at a time, over a reprice, a fill, a cancel and a new order. -/
theorem noGrowth_run_small :
    let p : Params := { poolCapacity := 1, bandHi := 9, idMapSlots := 2 }
    let ops : List Op := [.submitLimit 1 .ask 5 7 .gtc 3, .modify 1 6 9, .submitMarket 2 .bid 4 0,
      .cancel 1, .submitLimit 3 .bid 2 1 .gtc 0]
    (run p ops).poolGrowCount = 0 ∧ (run p ops).idMapGrowCount = 0 :=
  noGrowth_run _ ⟨by decide, by decide, by decide, by decide⟩ (N := 1) (by decide) (by decide)
    (by decide) _ (by decide +kernel) _ ((List.mem_inits _ _).mpr List.prefix_rfl)

/-- A pool of `2 ^ 58` orders has a first slab of no bytes, and the first order that rests adds
another. -/
theorem growth_of_wrapped : ¬ ∀ (p : Params) (N : ℕ), p.Valid → p.poolCapacity < 2 ^ 64 → 1 ≤ N →
    N ≤ p.poolCapacity → 2 * N ≤ p.idMapSlots → ∀ ops : List Op,
      (∀ pre ∈ ops.inits, (run p pre).restingOrders ≤ N) →
        ∀ pre ∈ ops.inits, (run p pre).poolGrowCount = 0 ∧ (run p pre).idMapGrowCount = 0 := by
  intro h
  have hzero := h { poolCapacity := 2 ^ 58, bandHi := 9, idMapSlots := 2 } 1
    ⟨by decide, by decide, by decide, by decide⟩ (by decide) (by decide) (by decide) (by decide)
    [.submitLimit 1 .ask 5 7 .gtc 3] (by decide +kernel) [.submitLimit 1 .ask 5 7 .gtc 3]
    (by decide +kernel)
  exact absurd hzero.1 (by decide +kernel)

end OrderBook

end Lob
