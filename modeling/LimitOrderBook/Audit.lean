import LimitOrderBook.OrderBook

/-! # The structural audit

`checkInvariants` is `check_invariants` of `include/lob/order_book.hpp`, with `none` for the null
pointer: it compares, level by level, the links of the queue with the bitmap, the totals, the id
map and the cached best prices.  It is run here on arbitrary memory, and passes exactly on the
states that are `Audited` (`checkInvariants_eq_none_iff`).

The test suite takes it as its oracle.  It sees every damage to a level with orders, cycles and
shared nodes included.  Of a level without orders it looks at the head and the totals only, not
at the tail and the price, and it never looks at the bits behind the last level: `BlankInOrder`
says that these are in order, and then, and only then, what passes the audit holds the
representation invariant, and passes it ever after (`audit_iff`). -/

namespace Lob

open KeyedQueue Chain

namespace OrderBook

/-- The variables of `check_side` on the queue of one level. -/
structure ChainCheck where
  sum : UInt64
  cnt : UInt32
  seen : ℕ
  prev : Option Addr

/-- The loop over the orders of the level at `px`, from the order `o` on. -/
def checkChain (b : OrderBook) (which : Side) (px : Int) :
    ℕ → Option Addr → ChainCheck → Except String ChainCheck
  | _, none, w => .ok w
  | 0, some _, _ => .error "out of fuel"
  | n + 1, some a, w =>
      let o := Allocator.deref b.pool a
      if o.prev ≠ w.prev then .error "broken prev link"
      else if o.level ≠ ⟨which, px⟩ then .error "order->level mismatch"
      else if o.side ≠ which then .error "order on wrong side"
      else if o.price ≠ px then .error "order price != level price"
      else if o.qty = 0 then .error "zero-qty order resting"
      else if Index.find b.orders o.id ≠ some a then .error "order missing from id map"
      else b.checkChain which px n o.next
        ⟨w.sum + o.qty.toUInt64, w.cnt + 1, w.seen + 1, some a⟩

/-- The variables of `check_side` between levels. -/
structure SideCheck where
  foundBest : Int
  seen : ℕ

/-- For bids the last occupied price is the best one, for asks the first. -/
def foundBest (which : Side) (px best : Int) : Int :=
  match which with
  | .bid => px
  | .ask => if best = kNoPrice then px else best

/-- One iteration of the loop over the band. -/
def checkLevel (b : OrderBook) (which : Side) (w : SideCheck) (px : Int) :
    Except String SideCheck :=
  let lvl := b.levels which px
  if (b.ladder which).bitSet px ≠ lvl.head.isSome then .error "bitmap out of sync with level"
  else if lvl.head = none then
    if lvl.totalQty ≠ 0 ∨ lvl.count ≠ 0 then .error "empty level with nonzero totals" else .ok w
  else if lvl.price ≠ px then .error "level price != slot price"
  else match b.checkChain which px (b.restingOrders + 1) lvl.head ⟨0, 0, w.seen, none⟩ with
    | .error e => .error e
    | .ok k =>
        if lvl.tail ≠ k.prev then .error "tail != last node"
        else if k.sum ≠ lvl.totalQty then .error "level total_qty wrong"
        else if k.cnt ≠ lvl.count then .error "level count wrong"
        else .ok ⟨foundBest which px w.foundBest, k.seen⟩

/-- `check_side`, with the new count of the orders seen. -/
def checkSide (b : OrderBook) (which : Side) (seen : ℕ) : Except String ℕ :=
  match (b.ladder which).ticks.foldlM (b.checkLevel which) ⟨kNoPrice, seen⟩ with
  | .error e => .error e
  | .ok w =>
      if (b.ladder which).best ≠ w.foundBest then .error "cached best is stale" else .ok w.seen

/-- `check_invariants`: the first violation, or `none`. -/
def checkInvariants (b : OrderBook) : Option String :=
  match b.checkSide .bid 0 with
  | .error e => some e
  | .ok seen =>
      match b.checkSide .ask seen with
      | .error e => some e
      | .ok seen =>
          if seen ≠ b.restingOrders then some "id-map size != orders on book"
          else if b.bids.best ≠ kNoPrice ∧ b.asks.best ≠ kNoPrice ∧ b.asks.best ≤ b.bids.best then
            some "book is crossed"
          else none

/-! ### What each loop checks -/

variable {b : OrderBook} {s : Side} {px : Int} {l : List Addr}

/-- What is asked of the node at `a`, on the queue at `px`. -/
structure NodeChecked (b : OrderBook) (s : Side) (px : Int) (a : Addr) : Prop where
  level : (Allocator.deref b.pool a).level = ⟨s, px⟩
  side : (Allocator.deref b.pool a).side = s
  price : (Allocator.deref b.pool a).price = px
  qty : (Allocator.deref b.pool a).qty ≠ 0
  find : Index.find b.orders (Allocator.deref b.pool a).id = some a

/-- The quantity of the nodes `l`. -/
def qtySum (b : OrderBook) (l : List Addr) : ℕ :=
  (l.map fun a => (Allocator.deref b.pool a).qty.toNat).sum

/-- The variables of the loop after the nodes `l`. -/
def ChainCheck.over (b : OrderBook) (w : ChainCheck) (l : List Addr) : ChainCheck :=
  ⟨w.sum + UInt64.ofNat (b.qtySum l), w.cnt + UInt32.ofNat l.length, w.seen + l.length,
    l.getLast?.or w.prev⟩

theorem ChainCheck.over_cons (w : ChainCheck) (a : Addr) (l : List Addr) :
    w.over b (a :: l) = ChainCheck.over b
      ⟨w.sum + (Allocator.deref b.pool a).qty.toUInt64, w.cnt + 1, w.seen + 1, some a⟩ l := by
  have hsum : UInt64.ofNat (b.qtySum (a :: l)) =
      (Allocator.deref b.pool a).qty.toUInt64 + UInt64.ofNat (b.qtySum l) := by
    rw [qtySum, List.map_cons, List.sum_cons, UInt64.ofNat_add, UInt64.ofNat_uInt32ToNat]
    rfl
  have hcnt : UInt32.ofNat (a :: l).length = 1 + UInt32.ofNat l.length := by
    rw [List.length_cons, Nat.add_comm, UInt32.ofNat_add]
    rfl
  have hlast : (a :: l).getLast?.or w.prev = l.getLast?.or (some a) := by
    cases l with
    | nil => rfl
    | cons c l => simp [List.getLast?_cons]
  unfold ChainCheck.over
  rw [hsum, hcnt, hlast, List.length_cons, UInt64.add_assoc, UInt32.add_assoc, Nat.add_assoc,
    Nat.add_comm 1]

/-- One iteration of the loop over a queue. -/
theorem checkChain_succ_iff {n : ℕ} {a : Addr} {w w' : ChainCheck} :
    b.checkChain s px (n + 1) (some a) w = .ok w' ↔
      prv b.pool a = w.prev ∧ b.NodeChecked s px a ∧
        b.checkChain s px n (nxt b.pool a)
          ⟨w.sum + (Allocator.deref b.pool a).qty.toUInt64, w.cnt + 1, w.seen + 1, some a⟩ =
            .ok w' := by
  unfold prv nxt
  rw [checkChain]
  constructor
  · intro h
    split_ifs at h with h1 h2 h3 h4 h5 h6
    exact ⟨not_not.mp h1, ⟨not_not.mp h2, not_not.mp h3, not_not.mp h4, h5, not_not.mp h6⟩, h⟩
  · rintro ⟨hprev, hnode, h⟩
    simp only [hprev, hnode.level, hnode.side, hnode.price, hnode.find, ne_eq, not_true,
      if_false, if_neg hnode.qty]
    exact h

/-- The loop over a queue passes on linked nodes that are each in order. -/
theorem checkChain_eq_ok_iff : ∀ {n : ℕ} {head : Option Addr} {w w' : ChainCheck},
    b.checkChain s px n head w = .ok w' ↔ ∃ l : List Addr, l.length ≤ n ∧ head = l.head? ∧
      Linked (prv b.pool) (nxt b.pool) w.prev l none ∧ (∀ a ∈ l, b.NodeChecked s px a) ∧
        w' = w.over b l
  | n, none, w, w' => by
      have hnil : w.over b [] = w := by simp [ChainCheck.over, qtySum]
      have hok : b.checkChain s px n none w = .ok w := by cases n <;> rfl
      rw [hok]
      constructor
      · intro h
        obtain rfl := Except.ok.inj h
        exact ⟨[], Nat.zero_le _, rfl, trivial, by simp, hnil.symm⟩
      · rintro ⟨l, -, hhead, -, -, rfl⟩
        rw [List.head?_eq_none_iff.mp hhead.symm, hnil]
  | 0, some a, w, w' => by
      constructor
      · intro h
        cases h
      · rintro ⟨l, hlen, hhead, -⟩
        rw [List.length_eq_zero_iff.mp (Nat.le_zero.mp hlen)] at hhead
        cases hhead
  | n + 1, some a, w, w' => by
      rw [checkChain_succ_iff, checkChain_eq_ok_iff]
      constructor
      · rintro ⟨hprev, hnode, l, hlen, hhead, hlink, hnodes, rfl⟩
        refine ⟨a :: l, Nat.succ_le_succ hlen, rfl, ⟨hprev, ?_, hlink⟩, ?_, ?_⟩
        · rw [hhead, Option.or_none]
        · exact List.forall_mem_cons.mpr ⟨hnode, hnodes⟩
        · rw [ChainCheck.over_cons]
      · rintro ⟨l, hlen, hhead, hlink, hnodes, rfl⟩
        cases l with
        | nil => cases hhead
        | cons c l =>
            obtain rfl := Option.some.inj hhead
            obtain ⟨hprev, hnext, hlink⟩ := hlink
            obtain ⟨hnode, hnodes⟩ := List.forall_mem_cons.mp hnodes
            rw [Option.or_none] at hnext
            exact ⟨hprev, hnode, l, Nat.le_of_succ_le_succ hlen, hnext, hlink, hnodes,
              ChainCheck.over_cons w a l⟩

/-- Nodes in order are in the id map, each under its own id. -/
theorem ids_nodup (hnd : l.Nodup)
    (hfind : ∀ a ∈ l, Index.find b.orders (Allocator.deref b.pool a).id = some a) :
    (l.map fun a => (Allocator.deref b.pool a).id).Nodup := by
  refine List.Nodup.map_on ?_ hnd
  intro a ha a' ha' he
  apply Option.some.inj
  rw [← hfind a ha, ← hfind a' ha', he]

/-- The id map of `b` has room for the nodes that are found in it. -/
theorem length_le_restingOrders (hwf : b.orders.WF) (hnd : l.Nodup)
    (hfind : ∀ a ∈ l, Index.find b.orders (Allocator.deref b.pool a).id = some a) :
    l.length ≤ b.restingOrders := by
  have hids : ∀ k ∈ l.map fun a => (Allocator.deref b.pool a).id,
      LawfulIndex.Key (IdMap Addr) k ∧ Index.find b.orders k ≠ none := by
    intro k hk
    obtain ⟨a, ha, rfl⟩ := List.mem_map.mp hk
    have hfound := hfind a ha
    refine ⟨fun h0 => ?_, by rw [hfound]; simp⟩
    rw [h0] at hfound
    cases hwf.find_zero.symm.trans hfound
  have hle : (l.map fun a => (Allocator.deref b.pool a).id).length ≤ b.restingOrders :=
    LawfulIndex.length_le_size hwf (ids_nodup hnd hfind) hids
  rwa [List.length_map] at hle

/-- No walk runs out of fuel: a walk of as many nodes as the id map counts has met them all. -/
theorem checkChain_ne_fuel (hwf : b.orders.WF) : ∀ {n : ℕ} {head : Option Addr}
    {w : ChainCheck} {l : List Addr}, Linked (prv b.pool) (nxt b.pool) none l head →
    (∀ a ∈ l, b.NodeChecked s px a) → l.getLast? = w.prev → b.restingOrders < l.length + n →
    b.checkChain s px n head w ≠ .error "out of fuel"
  | n, none, _, _, _, _, _, _ => by cases n <;> exact fun h => by cases h
  | 0, some a, w, l, hlink, hnodes, _, hlt => by
      have hle := length_le_restingOrders hwf hlink.nodup fun a ha => (hnodes a ha).find
      omega
  | n + 1, some a, w, l, hlink, hnodes, hlast, hlt => by
      intro hfuel
      rw [checkChain] at hfuel
      split_ifs at hfuel with h1 h2 h3 h4 h5 h6
      all_goals try exact absurd (Except.error.inj hfuel) (by decide)
      have hnode : b.NodeChecked s px a :=
        ⟨not_not.mp h2, not_not.mp h3, not_not.mp h4, h5, not_not.mp h6⟩
      refine checkChain_ne_fuel hwf (l := l ++ [a]) ?_ ?_ ?_ ?_ hfuel
      · refine linked_append.mpr ⟨hlink, ?_, rfl, trivial⟩
        rw [Option.or_none, hlast]
        exact not_not.mp h1
      · intro a' ha'
        rcases List.mem_append.mp ha' with ha' | ha'
        · exact hnodes a' ha'
        · exact List.mem_singleton.mp ha' ▸ hnode
      · exact List.getLast?_concat
      · rw [List.length_append, List.length_singleton]
        omega

/-- What is asked of the level at `px`, against the nodes `l` on its queue. -/
structure LevelChecked (b : OrderBook) (s : Side) (px : Int) (l : List Addr) : Prop where
  linked : Linked (prv b.pool) (nxt b.pool) none l none
  node : ∀ a ∈ l, b.NodeChecked s px a
  bit : (b.ladder s).bitSet px = true ↔ (b.levels s px).head ≠ none
  head : (b.levels s px).head = l.head?
  tail : l ≠ [] → (b.levels s px).tail = l.getLast?
  price : l ≠ [] → (b.levels s px).price = px
  totalQty : (b.levels s px).totalQty = UInt64.ofNat (b.qtySum l)
  count : (b.levels s px).count = UInt32.ofNat l.length

namespace LevelChecked

theorem head_eq_none_iff (h : b.LevelChecked s px l) : (b.levels s px).head = none ↔ l = [] := by
  rw [h.head, List.head?_eq_none_iff]

theorem length_le (h : b.LevelChecked s px l) (hwf : b.orders.WF) :
    l.length ≤ b.restingOrders :=
  length_le_restingOrders hwf h.linked.nodup fun a ha => (h.node a ha).find

/-- The queue is the one that the `next` pointers visit. -/
theorem chainAt_eq (h : b.LevelChecked s px l) (hwf : b.orders.WF) : b.chainAt s px = l := by
  rw [chainAt, h.head]
  exact h.linked.follow_eq (h.length_le hwf)

end LevelChecked

/-- The variables after the level at `px`, of the queue `l`, has passed. -/
def SideCheck.over (s : Side) (w : SideCheck) (px : Int) (l : List Addr) : SideCheck :=
  ⟨if l = [] then w.foundBest else OrderBook.foundBest s px w.foundBest, w.seen + l.length⟩

theorem bitSet_ne_isSome_iff : (b.ladder s).bitSet px ≠ (b.levels s px).head.isSome ↔
    ¬ ((b.ladder s).bitSet px = true ↔ (b.levels s px).head ≠ none) := by
  cases (b.ladder s).bitSet px <;> cases (b.levels s px).head <;> simp

/-- What passes an iteration of the loop over the band. -/
theorem LevelChecked.of_ok {w w' : SideCheck} (h : b.checkLevel s w px = .ok w') :
    ∃ l, b.LevelChecked s px l ∧ w' = w.over s px l := by
  unfold checkLevel at h
  dsimp only at h
  split_ifs at h with h1 h2 h3 h4
  · -- an empty level
    rw [not_or, not_not, not_not] at h3
    refine ⟨[], ?_, ?_⟩
    · exact
        { linked := trivial
          node := by simp
          bit := not_not.mp fun hne => h1 (bitSet_ne_isSome_iff.mpr hne)
          head := h2
          tail := fun hne => absurd rfl hne
          price := fun hne => absurd rfl hne
          totalQty := h3.1
          count := h3.2 }
    · exact (Except.ok.inj h).symm
  · -- a level with orders
    cases hk : b.checkChain s px (b.restingOrders + 1) (b.levels s px).head
        ⟨0, 0, w.seen, none⟩ with
    | error e =>
        rw [hk] at h
        cases h
    | ok k =>
        rw [hk] at h
        dsimp only at h
        split_ifs at h with h5 h6 h7
        obtain ⟨l, -, hhead, hlink, hnodes, rfl⟩ := checkChain_eq_ok_iff.mp hk
        simp only [ChainCheck.over, UInt64.zero_add, UInt32.zero_add, Option.or_none, not_not]
          at h5 h6 h7
        refine ⟨l, ?_, ?_⟩
        · exact
            { linked := hlink
              node := hnodes
              bit := not_not.mp fun hne => h1 (bitSet_ne_isSome_iff.mpr hne)
              head := hhead
              tail := fun _ => h5
              price := fun _ => not_not.mp h4
              totalQty := h6.symm
              count := h7.symm }
        · have hl : l ≠ [] := fun hnil => h2 (by rw [hhead, hnil]; rfl)
          rw [SideCheck.over, if_neg hl]
          exact (Except.ok.inj h).symm

theorem LevelChecked.checkLevel (h : b.LevelChecked s px l) (hwf : b.orders.WF) (w : SideCheck) :
    b.checkLevel s w px = .ok (w.over s px l) := by
  unfold OrderBook.checkLevel SideCheck.over
  rw [if_neg fun hne => bitSet_ne_isSome_iff.mp hne h.bit]
  by_cases hnil : l = []
  · have hqty : (b.levels s px).totalQty = 0 := by
      rw [h.totalQty, hnil]
      rfl
    have hcount : (b.levels s px).count = 0 := by
      rw [h.count, hnil]
      rfl
    rw [if_pos (h.head_eq_none_iff.mpr hnil),
      if_neg (not_or.mpr ⟨not_not.mpr hqty, not_not.mpr hcount⟩), if_pos hnil, hnil]
    rfl
  · have hk : b.checkChain s px (b.restingOrders + 1) (b.levels s px).head ⟨0, 0, w.seen, none⟩ =
        .ok (ChainCheck.over b ⟨0, 0, w.seen, none⟩ l) :=
      checkChain_eq_ok_iff.mpr
        ⟨l, Nat.le_succ_of_le (h.length_le hwf), h.head, h.linked, h.node, rfl⟩
    rw [if_neg fun hhead => hnil (h.head_eq_none_iff.mp hhead), if_neg (not_not.mpr (h.price hnil)),
      hk, if_neg hnil]
    simp only [ChainCheck.over, UInt64.zero_add, UInt32.zero_add, Option.or_none, h.tail hnil,
      h.totalQty, h.count, ne_eq, not_true, if_false]

/-- **One iteration of the loop over the band.** -/
theorem checkLevel_eq_ok_iff (hwf : b.orders.WF) {w w' : SideCheck} :
    b.checkLevel s w px = .ok w' ↔
      b.LevelChecked s px (b.chainAt s px) ∧ w' = w.over s px (b.chainAt s px) := by
  constructor
  · intro h
    obtain ⟨l, hlevel, rfl⟩ := LevelChecked.of_ok h
    rw [hlevel.chainAt_eq hwf]
    exact ⟨hlevel, rfl⟩
  · rintro ⟨hlevel, rfl⟩
    exact hlevel.checkLevel hwf w

/-- The variables after the levels at `ps`. -/
def SideCheck.overAll (b : OrderBook) (s : Side) (w : SideCheck) (ps : List Int) : SideCheck :=
  ps.foldl (fun w px => w.over s px (b.chainAt s px)) w

/-- The loop over the prices `ps`. -/
theorem foldlM_checkLevel_eq_ok_iff (hwf : b.orders.WF) : ∀ {ps : List Int} {w w' : SideCheck},
    ps.foldlM (b.checkLevel s) w = .ok w' ↔ (∀ px ∈ ps, b.LevelChecked s px (b.chainAt s px)) ∧
      w' = w.overAll b s ps
  | [], w, w' => by
      rw [List.foldlM_nil, SideCheck.overAll, List.foldl_nil]
      constructor
      · intro h
        exact ⟨by simp, (Except.ok.inj h).symm⟩
      · rintro ⟨-, rfl⟩
        rfl
  | px :: ps, w, w' => by
      rw [List.foldlM_cons, List.forall_mem_cons]
      cases hpx : b.checkLevel s w px with
      | error e =>
          constructor
          · intro h
            cases h
          · rintro ⟨⟨hlevel, -⟩, -⟩
            rw [hlevel.checkLevel hwf] at hpx
            cases hpx
      | ok w₁ =>
          obtain ⟨hlevel, rfl⟩ := (checkLevel_eq_ok_iff hwf).mp hpx
          refine (foldlM_checkLevel_eq_ok_iff hwf).trans ?_
          rw [and_assoc]
          exact (and_iff_right hlevel).symm

/-- `best` is the best of the prices `ps` with orders on side `s`, or `kNoPrice` without any. -/
structure BestAmong (b : OrderBook) (s : Side) (ps : List Int) (best : Int) : Prop where
  none : best = kNoPrice → ∀ px ∈ ps, b.chainAt s px = []
  some : best ≠ kNoPrice → best ∈ ps ∧ b.chainAt s best ≠ [] ∧
    ∀ px ∈ ps, b.chainAt s px ≠ [] → ¬ better s px best

theorem BestAmong.unique {ps : List Int} {x y : Int} (hx : b.BestAmong s ps x)
    (hy : b.BestAmong s ps y) : x = y := by
  by_cases hx0 : x = kNoPrice
  · by_contra hne
    have hy0 : y ≠ kNoPrice := fun hy0 => hne (hx0.trans hy0.symm)
    obtain ⟨hmem, hqueue, -⟩ := hy.some hy0
    exact hqueue (hx.none hx0 y hmem)
  · obtain ⟨hxm, hxq, hxb⟩ := hx.some hx0
    have hy0 : y ≠ kNoPrice := fun hy0 => hxq (hy.none hy0 x hxm)
    obtain ⟨hym, hyq, hyb⟩ := hy.some hy0
    rcases Std.Trichotomous.rel_or_eq_or_rel_swap (r := better s) (a := x) (b := y) with h | h | h
    · exact absurd h (hyb x hxm hxq)
    · exact h
    · exact absurd h (hxb y hym hyq)

/-- The best price among more prices, the new one above all others. -/
theorem BestAmong.concat {ps : List Int} {w : SideCheck} (h : b.BestAmong s ps w.foundBest)
    (hlt : ∀ q ∈ ps, q < px) (hpx : px ≠ kNoPrice) :
    b.BestAmong s (ps ++ [px]) (w.over s px (b.chainAt s px)).foundBest := by
  by_cases hnil : b.chainAt s px = []
  · rw [SideCheck.over, if_pos hnil]
    refine ⟨fun h0 q hq => ?_, fun h0 => ?_⟩
    · rcases List.mem_append.mp hq with hq | hq
      · exact h.none h0 q hq
      · exact List.mem_singleton.mp hq ▸ hnil
    · obtain ⟨hmem, hqueue, hbest⟩ := h.some h0
      refine ⟨List.mem_append_left _ hmem, hqueue, fun q hq hqq => ?_⟩
      rcases List.mem_append.mp hq with hq | hq
      · exact hbest q hq hqq
      · exact absurd (List.mem_singleton.mp hq ▸ hnil) hqq
  · have hlast : px ∈ ps ++ [px] := List.mem_append_right _ (List.mem_singleton_self px)
    -- `px` becomes the best price
    have hself : (∀ q ∈ ps, b.chainAt s q ≠ [] → ¬ better s q px) →
        b.BestAmong s (ps ++ [px]) px := by
      intro hbest
      refine ⟨fun h0 => absurd h0 hpx, fun _ => ⟨hlast, hnil, fun q hq hqq => ?_⟩⟩
      rcases List.mem_append.mp hq with hq | hq
      · exact hbest q hq hqq
      · rw [List.mem_singleton.mp hq]
        exact irrefl px
    rw [SideCheck.over, if_neg hnil]
    cases s with
    | bid =>
        refine hself fun q hq _ hb => ?_
        have := hlt q hq
        simp only [better] at hb
        omega
    | ask =>
        simp only [foundBest]
        split_ifs with h0
        · exact hself fun q hq hqq => absurd (h.none h0 q hq) hqq
        · obtain ⟨hmem, hqueue, hbest⟩ := h.some h0
          refine ⟨fun h1 => absurd h1 h0, fun _ => ⟨List.mem_append_left _ hmem, hqueue, ?_⟩⟩
          intro q hq hqq hb
          rcases List.mem_append.mp hq with hq | hq
          · exact hbest q hq hqq hb
          · have := hlt _ hmem
            rw [List.mem_singleton.mp hq] at hb
            simp only [better] at hb
            omega

/-- What the loop over the band has found at its end. -/
theorem overAll_spec (seen : ℕ) {ps : List Int} (hps : ps.Pairwise (· < ·))
    (hne : ∀ px ∈ ps, px ≠ kNoPrice) :
    b.BestAmong s ps (SideCheck.overAll b s ⟨kNoPrice, seen⟩ ps).foundBest ∧
      (SideCheck.overAll b s ⟨kNoPrice, seen⟩ ps).seen =
        seen + (ps.flatMap (b.chainAt s)).length := by
  induction ps using List.reverseRecOn with
  | nil => exact ⟨⟨fun _ => by simp, fun h => absurd rfl h⟩, rfl⟩
  | append_singleton ps px ih =>
      obtain ⟨hps, -, hlt⟩ := List.pairwise_append.mp hps
      obtain ⟨hbest, hseen⟩ := ih hps fun q hq => hne q (List.mem_append_left _ hq)
      have hlast : px ∈ [px] := List.mem_singleton_self px
      rw [SideCheck.overAll, List.foldl_concat]
      refine ⟨hbest.concat (fun q hq => hlt q hq px hlast) (hne px ?_), ?_⟩
      · exact List.mem_append_right _ hlast
      · change (SideCheck.overAll b s ⟨kNoPrice, seen⟩ ps).seen + (b.chainAt s px).length = _
        rw [hseen, List.flatMap_append, List.flatMap_singleton, List.length_append,
          Nat.add_assoc]

theorem checkSide_eq_ok_iff (hwf : b.orders.WF) (hapart : (b.ladder s).inBand kNoPrice = false)
    {seen seen' : ℕ} : b.checkSide s seen = .ok seen' ↔
      (∀ px ∈ (b.ladder s).ticks, b.LevelChecked s px (b.chainAt s px)) ∧
        b.BestAmong s (b.ladder s).ticks (b.ladder s).best ∧
          seen' = seen + ((b.ladder s).ticks.flatMap (b.chainAt s)).length := by
  have hne : ∀ px ∈ (b.ladder s).ticks, px ≠ kNoPrice := by
    rintro _ hpx rfl
    rw [FlatLadder.mem_ticks, hapart] at hpx
    cases hpx
  obtain ⟨hbest, hseen⟩ := overAll_spec (b := b) seen FlatLadder.ticks_pairwise hne
  unfold checkSide
  constructor
  · intro h
    cases hrun : (b.ladder s).ticks.foldlM (b.checkLevel s) ⟨kNoPrice, seen⟩ with
    | error e =>
        rw [hrun] at h
        cases h
    | ok w =>
        obtain ⟨hlevels, rfl⟩ := (foldlM_checkLevel_eq_ok_iff hwf).mp hrun
        rw [hrun] at h
        dsimp only at h
        split_ifs at h with hstale
        refine ⟨hlevels, ?_, ?_⟩
        · rw [not_not.mp hstale]
          exact hbest
        · rw [← hseen]
          exact (Except.ok.inj h).symm
  · rintro ⟨hlevels, hbest', rfl⟩
    rw [(foldlM_checkLevel_eq_ok_iff hwf).mpr ⟨hlevels, rfl⟩]
    dsimp only
    rw [if_neg (not_not.mpr (hbest'.unique hbest)), hseen]

/-- The nodes on the queues of side `s`, best price first. -/
def nodes (b : OrderBook) (s : Side) : List Addr := (b.prices s).flatMap (b.chainAt s)

/-- **What passes the audit.** -/
structure Audited (b : OrderBook) : Prop where
  levels : ∀ s px, b.bids.inBand px = true → b.LevelChecked s px (b.chainAt s px)
  best : ∀ s, b.BestAmong s b.bids.ticks (b.ladder s).best
  size : b.restingOrders = (b.nodes .bid ++ b.nodes .ask).length
  uncrossed : b.bids.best ≠ kNoPrice → b.asks.best ≠ kNoPrice → b.bids.best < b.asks.best

theorem length_nodes (s : Side) :
    (b.nodes s).length = (b.bids.ticks.flatMap (b.chainAt s)).length := by
  cases s with
  | bid => exact ((List.reverse_perm _).flatMap_right _).length_eq
  | ask => rfl

theorem checkInvariants_eq_none_iff (hwf : b.orders.WF)
    (hband : ∀ s px, (b.ladder s).inBand px = b.bids.inBand px)
    (hapart : b.bids.inBand kNoPrice = false) : b.checkInvariants = none ↔ b.Audited := by
  have hticks : ∀ s, (b.ladder s).ticks = b.bids.ticks := fun s => FlatLadder.ticks_congr (hband s)
  have hside : ∀ s seen seen', b.checkSide s seen = .ok seen' ↔
      (∀ px, b.bids.inBand px = true → b.LevelChecked s px (b.chainAt s px)) ∧
        b.BestAmong s b.bids.ticks (b.ladder s).best ∧ seen' = seen + (b.nodes s).length := by
    intro s seen seen'
    rw [checkSide_eq_ok_iff hwf ((hband s _).trans hapart), hticks, length_nodes]
    simp only [FlatLadder.mem_ticks]
  unfold checkInvariants
  constructor
  · intro h
    cases hbid : b.checkSide .bid 0 with
    | error e => rw [hbid] at h; cases h
    | ok n =>
        rw [hbid] at h
        dsimp only at h
        cases hask : b.checkSide .ask n with
        | error e => rw [hask] at h; cases h
        | ok n' =>
            rw [hask] at h
            dsimp only at h
            split_ifs at h with hsize hcross
            obtain ⟨hbids, hbidBest, rfl⟩ := (hside .bid _ _).mp hbid
            obtain ⟨hasks, haskBest, rfl⟩ := (hside .ask _ _).mp hask
            refine ⟨?_, ?_, ?_, ?_⟩
            · intro s
              cases s with
              | bid => exact hbids
              | ask => exact hasks
            · intro s
              cases s with
              | bid => exact hbidBest
              | ask => exact haskBest
            · rw [List.length_append, ← not_not.mp hsize, Nat.zero_add]
            · intro hb ha
              by_contra hle
              exact hcross ⟨hb, ha, Int.not_lt.mp hle⟩
  · intro h
    have hok : ∀ s n, b.checkSide s n = .ok (n + (b.nodes s).length) :=
      fun s n => (hside s n _).mpr ⟨h.levels s, h.best s, rfl⟩
    simp only [hok]
    have hsize := h.size
    rw [List.length_append] at hsize
    rw [if_neg (by omega), if_neg ?_]
    rintro ⟨hb, ha, hle⟩
    have := h.uncrossed hb ha
    omega

end OrderBook

end Lob
