import LimitOrderBook.Differential
import LimitOrderBook.Sentinel

/-! # The audits of the other engines

Every engine has a `check_invariants` of its own.  Those of `v1` to `v5` walk the queues with one
loop (`Book.checkQueue`); the engines on a search tree then compare neighbouring keys of the map
(`Book.Tree`), and `v5` its bitmap and cached best prices (`Book.V5`).  The reference looks for
empty levels only (`NaiveBook.checkInvariants`).

In a run from a fresh engine none of them ever reports anything (`audits_pass`), whatever the ids,
prices, quantities and owners of the operations are: id `0` and reused ids are allowed.  The engines
with an index hold a flat book after every operation (`Repr.stepV1`, `Repr.stepV4`).  The reference
lets orders of one id rest side by side; it holds no flat book then, but it stays `Healthy`. -/

namespace Lob

open KeyedQueue Chain

/-- `!bids_.empty() && !asks_.empty()` and the best bid is at or above the best ask. -/
def crossed : Option Int → Option Int → Bool
  | some bid, some ask => decide (ask ≤ bid)
  | _, _ => false

theorem TreeLadder.WF.sorted {A : Type} {s : Side} {l : TreeLadder A} (h : l.WF s) :
    l.map.entries.Pairwise (fun e e' => better s e.1 e'.1) := by
  have hs := h.side
  subst hs
  exact l.map.sorted

namespace Book

/-! ### Queues -/

/-- The variables of `check_side` on the queue of one level. -/
structure QueueCheck (A : Type) where
  sum : UInt64
  cnt : UInt32
  seen : ℕ
  prev : Option A

section queue

variable {A L I P : Type} [DecidableEq A] [Ladder L A] [Index I A] [Allocator P A (Order A)]

/-- The loop over the orders of the level at `px`, from the order `o` on. -/
def checkQueue (b : Book L I P) (which : Side) (px : Int) :
    ℕ → Option A → QueueCheck A → Except String (QueueCheck A)
  | _, none, w => .ok w
  | 0, some _, _ => .error "out of fuel"
  | n + 1, some a, w =>
      let o := Allocator.deref b.pool a
      if o.prev ≠ w.prev then .error "broken prev link"
      else if o.level ≠ ⟨which, px⟩ then .error "order->level mismatch"
      else if o.side ≠ which then .error "order on wrong side"
      else if o.price ≠ px then .error "order price != level price"
      else if o.qty = 0 then .error "zero-qty order resting"
      else if Index.find b.orders o.id ≠ some a then .error "order missing from id map"
      else b.checkQueue which px n o.next
        ⟨w.sum + o.qty.toUInt64, w.cnt + 1, w.seen + 1, some a⟩

/-- The walk over the queue of the level `lvl`, with what is compared after it. -/
def checkOrders (b : Book L I P) (which : Side) (px : Int) (lvl : Level A) (seen : ℕ) :
    Except String ℕ :=
  match b.checkQueue which px (b.restingOrders + 1) lvl.head ⟨0, 0, seen, none⟩ with
  | .error e => .error e
  | .ok k =>
      if lvl.tail ≠ k.prev then .error "tail != last node"
      else if k.sum ≠ lvl.totalQty then .error "level total_qty wrong"
      else if k.cnt ≠ lvl.count then .error "level count wrong"
      else .ok k.seen

/-- `check_invariants`, over the check of a side and the comparison of the best prices. -/
def checkWith (b : Book L I P) (checkSide : Side → ℕ → Except String ℕ) (isCrossed : Bool) :
    Option String :=
  match checkSide .bid 0 with
  | .error e => some e
  | .ok seen =>
      match checkSide .ask seen with
      | .error e => some e
      | .ok seen =>
          if seen ≠ b.restingOrders then some "id-map size != orders on book"
          else if isCrossed then some "book is crossed"
          else none

end queue

/-! ### The engines on a search tree -/

namespace Tree

/-- The variables of `check_side` between levels. -/
structure SideCheck where
  prevPx : Int
  first : Bool
  seen : ℕ

/-- Whether `px` may come after `prevPx`. -/
def ordered (which : Side) (px prevPx : Int) : Bool :=
  match which with
  | .bid => decide (px < prevPx)
  | .ask => decide (prevPx < px)

section tree

variable {A I P : Type} [DecidableEq A] [Index I A] [Allocator P A (Order A)]

/-- One iteration of the loop over the map. -/
def checkLevel (b : Book (TreeLadder A) I P) (which : Side) (w : SideCheck) (e : Int × Level A) :
    Except String SideCheck :=
  if w.first = false ∧ ordered which e.1 w.prevPx = false then .error "ladder out of order"
  else if e.2.price ≠ e.1 then .error "level price != map key"
  else if e.2.head = none then .error "empty level left in ladder"
  else match b.checkOrders which e.1 e.2 w.seen with
    | .error e => .error e
    | .ok seen => .ok ⟨e.1, false, seen⟩

/-- `check_side` of `v1` to `v4`, with the new count of the orders seen. -/
def checkSide (b : Book (TreeLadder A) I P) (which : Side) (seen : ℕ) : Except String ℕ :=
  match (b.ladder which).map.entries.foldlM (checkLevel b which) ⟨kNoPrice, true, seen⟩ with
  | .error e => .error e
  | .ok w => .ok w.seen

/-- `check_invariants` of `v1` to `v4`: the first violation, or `none`. -/
def checkInvariants (b : Book (TreeLadder A) I P) : Option String :=
  b.checkWith (checkSide b) (crossed b.bids.map.firstKey? b.asks.map.firstKey?)

end tree

end Tree

/-! ### The engine `v5` -/

namespace V5

section flat

variable {A I P : Type} [DecidableEq A] [Index I A] [Allocator P A (Order A)]

/-- One iteration of the loop over the band. -/
def checkLevel (b : Book (FlatLadder A) I P) (which : Side) (w : OrderBook.SideCheck) (px : Int) :
    Except String OrderBook.SideCheck :=
  let lvl := (b.ladder which).level px
  if (b.ladder which).bitSet px ≠ lvl.head.isSome then .error "bitmap out of sync with level"
  else if lvl.head = none then
    if lvl.totalQty ≠ 0 ∨ lvl.count ≠ 0 then .error "empty level with nonzero totals" else .ok w
  else if lvl.price ≠ px then .error "level price != slot price"
  else match b.checkOrders which px lvl w.seen with
    | .error e => .error e
    | .ok seen => .ok ⟨OrderBook.foundBest which px w.foundBest, seen⟩

/-- `check_side`, with the new count of the orders seen. -/
def checkSide (b : Book (FlatLadder A) I P) (which : Side) (seen : ℕ) : Except String ℕ :=
  match (b.ladder which).ticks.foldlM (checkLevel b which) ⟨kNoPrice, seen⟩ with
  | .error e => .error e
  | .ok w =>
      if (b.ladder which).best ≠ w.foundBest then .error "cached best is stale" else .ok w.seen

/-- `check_invariants` of `v5`. -/
def checkInvariants (b : Book (FlatLadder A) I P) : Option String :=
  b.checkWith (checkSide b)
    (decide (b.bids.best ≠ kNoPrice ∧ b.asks.best ≠ kNoPrice ∧ b.asks.best ≤ b.bids.best))

end flat

end V5

/-! ### A book that holds a flat book -/

section holds

variable {A L I P : Type} [Ladder L A] [Index I A] [Allocator P A (Order A)] [LawfulLadder L A]
  [LawfulIndex I A] [LawfulAllocator P A (Order A)] {c : Config} {b : Book L I P} {F : Flat}
  {s : Side} {px : Int}

/-- A book whose sides pass, with its orders counted, passes. -/
theorem Repr.checkWith (h : Repr c b F) {checkSide : Side → ℕ → Except String ℕ}
    {isCrossed : Bool} (hside : ∀ s seen, checkSide s seen = .ok (seen + (F.side s).length))
    (hcross : isCrossed = false) : b.checkWith checkSide isCrossed = none := by
  have hsize : 0 + (F.side .bid).length + (F.side .ask).length = b.restingOrders := by
    rw [h.restingOrders, Flat.ids_eq, List.length_append, List.length_map,
      List.length_map, Nat.zero_add]
    rfl
  unfold Book.checkWith
  simp only [hside, hsize, hcross, ne_eq, not_true, if_false, Bool.false_eq_true]

variable [DecidableEq A]

omit [Ladder L A] [LawfulLadder L A] [LawfulIndex I A] [LawfulAllocator P A (Order A)] in
/-- The walk over orders in place counts them and adds them up. -/
theorem checkQueue_eq {ptr : OrderId → A} (hfind : ∀ r ∈ F.side s,
      Index.find b.orders r.id = some (ptr r.id)) (hqty : ∀ r ∈ F.side s, r.qty ≠ 0) :
    ∀ {q : List Resting} {n : ℕ} {w : QueueCheck A},
    (∀ r ∈ q, NodeRepr (Allocator.deref b.pool (ptr r.id)) s r ∧ r ∈ F.side s ∧ r.price = px) →
    Linked (prv b.pool) (nxt b.pool) w.prev (ptrs ptr q) none → q.length ≤ n →
    b.checkQueue s px n (ptrs ptr q).head? w =
      .ok ⟨w.sum + UInt64.ofNat (total q), w.cnt + UInt32.ofNat q.length, w.seen + q.length,
        (ptrs ptr q).getLast?.or w.prev⟩
  | [], n, w, _, _, _ => by cases n <;> simp [checkQueue, ptrs]
  | r :: q, n + 1, w, hnode, hlink, hlen => by
      obtain ⟨hr, hmem, hprice⟩ := hnode r List.mem_cons_self
      obtain ⟨hprev, hnext, hlink⟩ := hlink
      have hnext : (Allocator.deref b.pool (ptr r.id)).next = (ptrs ptr q).head? := by
        rw [← Option.or_none (o := (ptrs ptr q).head?)]
        exact hnext
      have hprev : (Allocator.deref b.pool (ptr r.id)).prev = w.prev := hprev
      have hrec := checkQueue_eq hfind hqty (n := n)
        (w := ⟨w.sum + r.qty.toUInt64, w.cnt + 1, w.seen + 1, some (ptr r.id)⟩)
        (fun r' hr' => hnode r' (List.mem_cons_of_mem r hr')) hlink (Nat.le_of_succ_le_succ hlen)
      have hhead : (ptrs ptr (r :: q)).head? = some (ptr r.id) := rfl
      rw [hhead, checkQueue]
      simp only [hprev, hr.level, hr.side, hr.price, hr.qty, hr.id, hprice, hfind r hmem,
        hqty r hmem, hnext, ne_eq, not_true, if_false]
      rw [hrec]
      refine congrArg Except.ok ?_
      rw [QueueCheck.mk.injEq]
      refine ⟨?_, ?_, ?_, ?_⟩
      · rw [total_cons, UInt64.ofNat_add, UInt64.ofNat_uInt32ToNat, UInt64.add_assoc]
      · rw [List.length_cons, Nat.add_comm q.length, UInt32.ofNat_add, UInt32.add_assoc]
        rfl
      · rw [List.length_cons, Nat.add_assoc, Nat.add_comm 1]
      · cases q with
        | nil => rfl
        | cons r' q => simp [ptrs, List.getLast?_cons]

/-- **The walk over a level finds nothing wrong**, and has seen its orders. -/
theorem Repr.checkOrders (h : Repr c b F) (hpx : c.inBand px = true) (seen : ℕ) :
    b.checkOrders s px (Ladder.level (b.ladder s) px) seen =
      .ok (seen + (level Resting.price px (F.side s)).length) := by
  obtain ⟨ptr, hcore⟩ := h.core
  have hlevel := hcore.level s px hpx
  have hfind : ∀ r ∈ F.side s, Index.find b.orders r.id = some (ptr r.id) := by
    intro r hr
    rw [hcore.find, if_pos (Flat.mem_ids_of_mem hr)]
  have hlen : (level Resting.price px (F.side s)).length ≤ b.restingOrders + 1 := by
    have hside := h.length_lt (s := s) (List.append_nil _).symm
    exact (List.length_filter_le _ _).trans (Nat.le_of_lt hside)
  have hwalk := checkQueue_eq (n := b.restingOrders + 1) (w := ⟨0, 0, seen, none⟩) hfind
    (h.orderly.qty_ne s) (fun r hr => ⟨hlevel.node r hr, mem_level.mp hr⟩) hlevel.linked hlen
  have hhead : (Ladder.level (b.ladder s) px).head = _ := hlevel.head
  have htail : (Ladder.level (b.ladder s) px).tail = _ := hlevel.tail
  have htotal : (Ladder.level (b.ladder s) px).totalQty = _ := hlevel.totalQty
  have hcount : (Ladder.level (b.ladder s) px).count = _ := hlevel.count
  unfold Book.checkOrders
  rw [hhead, hwalk]
  simp [htail, htotal, hcount]

end holds

/-! ### The search trees -/

section tree

variable {A I P : Type} [Index I A] [Allocator P A (Order A)] [LawfulIndex I A]
  [LawfulAllocator P A (Order A)] {c : Config} {b : Book (TreeLadder A) I P} {F : Flat} {s : Side}

/-- The entries of a side are its levels, each with the orders of its price. -/
theorem Repr.tree_entry (h : Repr c b F) {e : Int × Level A}
    (he : e ∈ (b.ladder s).map.entries) : Ladder.level (b.ladder s) e.1 = e.2 ∧
      e.2.price = e.1 ∧ c.inBand e.1 = true ∧ level Resting.price e.1 (F.side s) ≠ [] := by
  have hfind : (b.ladder s).map.find? e.1 = some e.2 := OrdMap.find?_eq_some.mpr he
  have hocc : LawfulLadder.occ (b.ladder s) e.1 := Option.isSome_iff_exists.mpr ⟨e.2, hfind⟩
  have hwf : (b.ladder s).WF s := h.ladder_wf s
  have hlevel : Ladder.level (b.ladder s) e.1 = e.2 := by
    change ((b.ladder s).map.find? e.1).getD {} = e.2
    rw [hfind]
    rfl
  refine ⟨hlevel, (hwf.price e.1 e.2 hfind).1, ?_, (h.occ s e.1).mp hocc⟩
  rw [← h.inBand s]
  exact LawfulLadder.inBand_of_occ (h.ladder_wf s) hocc

theorem Repr.tree_keys (h : Repr c b F) (s : Side) :
    ((b.ladder s).map.entries.map Prod.fst).flatMap (fun px => level Resting.price px (F.side s)) =
      F.side s := by
  have hwf : (b.ladder s).WF s := h.ladder_wf s
  refine (h.orderly.ordered s).flatMap_level (List.pairwise_map.mpr hwf.sorted) fun r hr => ?_
  obtain ⟨v, hv⟩ := Option.isSome_iff_exists.mp (h.occ_of_mem hr)
  exact List.mem_map.mpr ⟨(r.price, v), OrdMap.find?_eq_some.mp hv, rfl⟩

variable [DecidableEq A]

/-- One level of a search tree passes. -/
theorem Repr.tree_checkLevel (h : Repr c b F) {w : Tree.SideCheck} {e : Int × Level A}
    (he : e ∈ (b.ladder s).map.entries)
    (hprev : w.first = false → Tree.ordered s e.1 w.prevPx = true) :
    Tree.checkLevel b s w e =
      .ok ⟨e.1, false, w.seen + (level Resting.price e.1 (F.side s)).length⟩ := by
  obtain ⟨hlevel, hprice, hband, hne⟩ := h.tree_entry he
  have hhead : e.2.head ≠ none := by
    obtain ⟨ptr, hcore⟩ := h.core
    have hhead := (hcore.level s e.1 hband).head
    intro hnone
    rw [show (b.levels s e.1) = e.2 from hlevel, hnone] at hhead
    exact hne (List.map_eq_nil_iff.mp (List.head?_eq_none_iff.mp hhead.symm))
  have hbad : ¬ (w.first = false ∧ Tree.ordered s e.1 w.prevPx = false) := by
    rintro ⟨hf, ho⟩
    rw [hprev hf] at ho
    cases ho
  have horders := h.checkOrders (s := s) hband w.seen
  rw [hlevel] at horders
  unfold Tree.checkLevel
  rw [if_neg hbad, if_neg (not_not.mpr hprice), if_neg hhead, horders]

/-- The loop over the map, from the entries `es` on. -/
theorem Repr.tree_checkLevels (h : Repr c b F) : ∀ {es : List (Int × Level A)}
    {w : Tree.SideCheck}, (∀ e ∈ es, e ∈ (b.ladder s).map.entries) →
    es.Pairwise (fun e e' => better s e.1 e'.1) →
    (w.first = false → ∀ e ∈ es, better s w.prevPx e.1) →
    ∃ w', es.foldlM (Tree.checkLevel b s) w = .ok w' ∧ w'.seen =
      w.seen + ((es.map Prod.fst).flatMap fun px => level Resting.price px (F.side s)).length
  | [], w, _, _, _ => ⟨w, rfl, rfl⟩
  | e :: es, w, hmem, hsorted, hprev => by
      obtain ⟨hhead, hsorted⟩ := List.pairwise_cons.mp hsorted
      have hlevel := h.tree_checkLevel (w := w) (hmem e List.mem_cons_self) fun hf => by
        have hbetter := hprev hf e List.mem_cons_self
        cases s <;> exact decide_eq_true hbetter
      obtain ⟨w', hw', hseen⟩ := h.tree_checkLevels
        (w := ⟨e.1, false, w.seen + (level Resting.price e.1 (F.side s)).length⟩)
        (fun e' he' => hmem e' (List.mem_cons_of_mem e he')) hsorted fun _ => hhead
      refine ⟨w', ?_, ?_⟩
      · rw [List.foldlM_cons, hlevel]
        exact hw'
      · rw [hseen, List.map_cons, List.flatMap_cons, List.length_append, Nat.add_assoc]

/-- **A book on search trees passes its audit.** -/
theorem Repr.tree_checkInvariants (h : Repr c b F) : Tree.checkInvariants b = none := by
  refine h.checkWith (fun s seen => ?_) ?_
  · have hwf : (b.ladder s).WF s := h.ladder_wf s
    obtain ⟨w, hw, hseen⟩ := h.tree_checkLevels (s := s) (w := ⟨kNoPrice, true, seen⟩)
      (fun _ he => he) hwf.sorted fun hf => by cases hf
    rw [h.tree_keys] at hseen
    rw [Tree.checkSide, hw, ← hseen]
  · have hbid : b.bids.map.firstKey? = _ := h.best?_eq .bid
    have hask : b.asks.map.firstKey? = _ := h.best?_eq .ask
    rw [hbid, hask]
    cases hb : F.side .bid with
    | nil => rfl
    | cons r q =>
        cases ha : F.side .ask with
        | nil => rfl
        | cons r' q' =>
            have hr : r ∈ F.side .bid := by rw [hb]; exact List.mem_cons_self
            have hr' : r' ∈ F.side .ask := by rw [ha]; exact List.mem_cons_self
            exact decide_eq_false (Int.not_le.mpr (h.orderly.uncrossed r hr r' hr'))

end tree

/-! ### The flat ladder -/

namespace V5

/-- What an upward scan of the prices `ps` has found, of those that are occupied. -/
def scan (s : Side) (occ : Int → Bool) (ps : List Int) (best : Int) : Int :=
  ps.foldl (fun best px => if occ px then OrderBook.foundBest s px best else best) best

variable {s : Side} {occ : Int → Bool} {ps : List Int} {best : Int}

theorem scan_skip (h : ∀ px ∈ ps, occ px = false) : scan s occ ps best = best := by
  induction ps with
  | nil => rfl
  | cons px ps ih =>
      obtain ⟨hpx, hps⟩ := List.forall_mem_cons.mp h
      rw [scan, List.foldl_cons, hpx, if_neg Bool.false_ne_true]
      exact ih hps

/-- An ask that was found is kept. -/
theorem scan_ask (hbest : best ≠ kNoPrice) : scan .ask occ ps best = best := by
  induction ps with
  | nil => rfl
  | cons px ps ih =>
      have hkeep : OrderBook.foundBest .ask px best = best := if_neg hbest
      rw [scan, List.foldl_cons, hkeep, ite_self]
      exact ih

/-- **The scan finds the best of the occupied prices.** -/
theorem scan_eq (hps : ps.Pairwise (· < ·))
    (hnone : best = kNoPrice → ∀ px ∈ ps, occ px = false)
    (hsome : best ≠ kNoPrice → best ∈ ps ∧ occ best = true ∧
      ∀ px ∈ ps, occ px = true → ¬ better s px best) :
    scan s occ ps kNoPrice = best := by
  by_cases h0 : best = kNoPrice
  · rw [scan_skip (hnone h0), h0]
  · obtain ⟨hmem, hocc, hbest⟩ := hsome h0
    obtain ⟨l, r, rfl⟩ := List.append_of_mem hmem
    obtain ⟨-, hr, hl⟩ := List.pairwise_append.mp hps
    have hcut : scan s occ (l ++ best :: r) kNoPrice =
        scan s occ r (OrderBook.foundBest s best (scan s occ l kNoPrice)) := by
      rw [scan, List.foldl_append, List.foldl_cons, if_pos hocc]
      rfl
    rw [hcut]
    cases s with
    | bid =>
        refine scan_skip fun px hpx => Bool.eq_false_iff.mpr fun ho => ?_
        exact hbest px (List.mem_append_right _ (List.mem_cons_of_mem _ hpx)) ho
          ((List.pairwise_cons.mp hr).1 px hpx)
    | ask =>
        have hskip : scan .ask occ l kNoPrice = kNoPrice := by
          refine scan_skip fun px hpx => Bool.eq_false_iff.mpr fun ho => ?_
          exact hbest px (List.mem_append_left _ hpx) ho (hl px hpx best List.mem_cons_self)
        rw [hskip, OrderBook.foundBest, if_pos rfl]
        exact scan_ask h0

end V5

section flat

variable {A I P : Type} [DecidableEq A] [Index I A] [Allocator P A (Order A)] [LawfulIndex I A]
  [LawfulAllocator P A (Order A)] {c : Config} {b : Book (FlatLadder A) I P} {F : Flat} {s : Side}
  {px : Int}

/-- Whether orders rest at a price. -/
def occupied (F : Flat) (s : Side) (px : Int) : Bool := !(level Resting.price px (F.side s)).isEmpty

omit [DecidableEq A] [Index I A] [Allocator P A (Order A)] [LawfulIndex I A]
  [LawfulAllocator P A (Order A)] in
theorem occupied_iff : occupied F s px = true ↔ level Resting.price px (F.side s) ≠ [] := by
  simp [occupied]

omit [DecidableEq A] in
/-- The queues of the band have all orders between them. -/
theorem Repr.length_ticks (h : Repr c b F) (s : Side) :
    ((b.ladder s).ticks.flatMap fun px => level Resting.price px (F.side s)).length =
      (F.side s).length := by
  have hord := h.orderly.ordered s
  have hmem : ∀ r ∈ F.side s, r.price ∈ (b.ladder s).ticks := fun r hr =>
    FlatLadder.mem_ticks.mpr ((h.inBand s _).trans (h.orderly.band s r hr))
  have hup : (b.ladder s).ticks.Pairwise (· < ·) := FlatLadder.ticks_pairwise
  cases s with
  | bid =>
      have hdown : (b.ladder .bid).ticks.reverse.Pairwise (better .bid) :=
        List.pairwise_reverse.mpr hup
      have hrev := hord.flatMap_level hdown fun r hr => List.mem_reverse.mpr (hmem r hr)
      exact ((List.reverse_perm _).flatMap_right _).length_eq.symm.trans (congrArg List.length hrev)
  | ask =>
      have hasks : (b.ladder .ask).ticks.Pairwise (better .ask) := hup
      exact congrArg List.length (hord.flatMap_level hasks hmem)

/-- One level of the band passes. -/
theorem Repr.flat_checkLevel (h : Repr c b F) (hpx : c.inBand px = true)
    (w : OrderBook.SideCheck) : V5.checkLevel b s w px =
      .ok ⟨if occupied F s px then OrderBook.foundBest s px w.foundBest else w.foundBest,
        w.seen + (level Resting.price px (F.side s)).length⟩ := by
  have hwf : (b.ladder s).WF s := h.ladder_wf s
  have hin : (b.ladder s).inBand px = true := (h.inBand s px).trans hpx
  have hbit : (b.ladder s).bitSet px = ((b.ladder s).level px).head.isSome := by
    have hset := h.bitSet_iff (s := s) hpx
    rw [Bool.eq_iff_iff, hset, Option.isSome_iff_ne_none]
    rfl
  have hhead := h.head_ne_none_iff (s := s) hpx
  unfold V5.checkLevel
  rw [if_neg (not_not.mpr hbit)]
  by_cases hq : level Resting.price px (F.side s) = []
  · have hnone : ((b.ladder s).level px).head = none := not_not.mp fun hne => hhead.mp hne hq
    have hempty : ¬ (b.ladder s).Occ px := fun ho => (h.occ s px).mp ho hq
    obtain ⟨-, -, hqty, hcount⟩ := hwf.blank px hin hempty
    have hocc : occupied F s px = false := Bool.eq_false_iff.mpr fun ho => occupied_iff.mp ho hq
    rw [if_pos hnone, if_neg (by simp [hqty, hcount]), hq, hocc, if_neg Bool.false_ne_true]
    rfl
  · have hsome : ((b.ladder s).level px).head ≠ none := hhead.mpr hq
    have horders := h.checkOrders (s := s) hpx w.seen
    have hlevel : Ladder.level (b.ladder s) px = (b.ladder s).level px := rfl
    rw [hlevel] at horders
    rw [if_neg hsome, if_neg (not_not.mpr (hwf.price px hin)), horders,
      if_pos (occupied_iff.mpr hq)]

/-- The loop over the band, over the prices `ps`. -/
theorem Repr.flat_checkLevels (h : Repr c b F) : ∀ {ps : List Int} {w : OrderBook.SideCheck},
    (∀ px ∈ ps, c.inBand px = true) → ps.foldlM (V5.checkLevel b s) w =
      .ok ⟨V5.scan s (occupied F s) ps w.foundBest,
        w.seen + (ps.flatMap fun px => level Resting.price px (F.side s)).length⟩
  | [], w, _ => rfl
  | px :: ps, w, hps => by
      obtain ⟨hpx, hps⟩ := List.forall_mem_cons.mp hps
      rw [List.foldlM_cons, h.flat_checkLevel hpx]
      refine (h.flat_checkLevels hps).trans ?_
      rw [List.flatMap_cons, List.length_append, ← Nat.add_assoc]
      rfl

/-- **A book on flat ladders passes its audit.** -/
theorem Repr.flat_checkInvariants (h : Repr c b F) : V5.checkInvariants b = none := by
  have hband : ∀ s, ∀ px ∈ (b.ladder s).ticks, c.inBand px = true := by
    intro s px hpx
    rw [← h.inBand s]
    exact FlatLadder.mem_ticks.mp hpx
  refine h.checkWith (fun s seen => ?_) (decide_eq_false ?_)
  · have hwf : (b.ladder s).WF s := h.ladder_wf s
    have hmem : ∀ {px}, c.inBand px = true → px ∈ (b.ladder s).ticks := fun hpx =>
      FlatLadder.mem_ticks.mpr ((h.inBand s _).trans hpx)
    have hbest : V5.scan s (occupied F s) (b.ladder s).ticks kNoPrice = (b.ladder s).best := by
      refine V5.scan_eq FlatLadder.ticks_pairwise (fun h0 px hpx => ?_) fun h0 => ?_
      · refine Bool.eq_false_iff.mpr fun ho => ?_
        exact hwf.best_none h0 px ((h.occ s px).mpr (occupied_iff.mp ho))
      · obtain ⟨hocc, hmax⟩ := hwf.best_some h0
        refine ⟨FlatLadder.mem_ticks.mpr hocc.1, ?_, fun px _ ho => ?_⟩
        · exact occupied_iff.mpr ((h.occ s _).mp hocc)
        · exact hmax px ((h.occ s px).mpr (occupied_iff.mp ho))
    rw [V5.checkSide, h.flat_checkLevels (hband s)]
    simp only [hbest, h.length_ticks, ne_eq, not_true, if_false]
  · rintro ⟨hbid, hask, hle⟩
    exact absurd (h.best_lt_best hbid hask) (Int.not_lt.mpr hle)

end flat

/-- **Where the index stores every id**, `v1` holds a flat book after any operation. -/
theorem Repr.stepV1 {A L I P : Type} [DecidableEq A] [Ladder L A] [Index I A]
    [Allocator P A (Order A)] [LawfulLadder L A] [LawfulIndex I A] [LawfulAllocator P A (Order A)]
    {c : Config} {b : Book L I P} {F : Flat} (hkey : ∀ k, LawfulIndex.Key I k) (h : Repr c b F)
    (op : Op) : ∃ F', Repr c (V1.call b op).1 F' := by
  cases op with
  | submitLimit id s px qty tif owner =>
      change ∃ F', Repr c (V1.submitLimit b id s px qty tif owner).1 F'
      by_cases hbad : qty = 0 ∨ Ladder.inBand b.bids px = false
      · rw [V1.submitLimit, if_pos hbad]
        exact ⟨F, h⟩
      · by_cases hid : id ∈ F.ids
        · rw [V1.submitLimit, if_neg hbad, if_pos ((h.find_isSome id).mpr hid)]
          exact ⟨F, h⟩
        · simp only [not_or, Bool.not_eq_false] at hbad
          have hband : c.inBand px = true := (h.inBand .bid px).symm.trans hbad.2
          exact ⟨_, (h.submitLimitV1_valid (hkey id) hbad.1 hband hid).2⟩
  | submitMarket id s qty owner =>
      change ∃ F', Repr c (V1.submitMarket b id s qty owner).1 F'
      unfold V1.submitMarket
      split_ifs
      · exact ⟨F, h⟩
      · exact ⟨_, (h.matchOrdersV1 s id s.marketPrice qty owner).1⟩
  | cancel id => exact ⟨_, (h.cancel id).2⟩
  | modify id px qty =>
      have hmodify : Agrees c (b.modifyWith V1.submitLimit id px qty) (F.modify c id px qty) :=
        h.modifyWith id px qty fun _ _ _ _ _ _ _ _ h hid => h.submitLimitV1_valid hid
      exact ⟨_, hmodify.2⟩

end Book

/-! ### The reference -/

namespace NaiveSide

variable {s t : Side} {m m' m'' : NaiveSide t} {px limit : Int} {id : OrderId}

/-- The side `m'` has no empty level, and no level at a price that `m` has none at. -/
structure Within (m' m : NaiveSide t) : Prop where
  noEmpty : m'.NoEmpty
  keys : ∀ e ∈ m'.entries, ∃ e' ∈ m.entries, e'.1 = e.1

theorem Within.refl (h : m.NoEmpty) : m.Within m := ⟨h, fun e he => ⟨e, he, rfl⟩⟩

theorem Within.trans (h : m''.Within m') (h' : m'.Within m) : m''.Within m := by
  refine ⟨h.noEmpty, fun e he => ?_⟩
  obtain ⟨e', he', heq⟩ := h.keys e he
  obtain ⟨e'', he'', heq'⟩ := h'.keys e' he'
  exact ⟨e'', he'', heq'.trans heq⟩

/-- A level is rewritten, and leaves the map if it is empty. -/
theorem Within.setLevel {es₁ es₂ : List (Int × List NaiveOrder)} {v : List NaiveOrder}
    (hm : m.NoEmpty) (h : m.entries = es₁ ++ (px, v) :: es₂) (lvl : List NaiveOrder) :
    (m.setLevel px lvl).Within m := by
  refine ⟨hm.setLevel h, fun e he => ?_⟩
  rw [h]
  unfold NaiveSide.setLevel at he
  split_ifs at he
  · rw [OrdMap.entries_erase_of_split h] at he
    refine ⟨e, ?_, rfl⟩
    rcases List.mem_append.mp he with he | he
    · exact List.mem_append_left _ he
    · exact List.mem_append_right _ (List.mem_cons_of_mem _ he)
  · rw [OrdMap.entries_alter_of_split h] at he
    rcases List.mem_append.mp he with he | he
    · exact ⟨e, List.mem_append_left _ he, rfl⟩
    · rcases List.mem_cons.mp he with rfl | he
      · exact ⟨(px, v), List.mem_append_right _ List.mem_cons_self, rfl⟩
      · exact ⟨e, List.mem_append_right _ (List.mem_cons_of_mem _ he), rfl⟩

theorem Within.matchLevels {ok : Int → Bool} {taker : OrderId} {want : Qty} : ∀ (n : ℕ)
    {m : NaiveSide t} {filled : Qty}, m.NoEmpty →
    (NaiveSide.matchLevels ok taker want n m filled).side.Within m
  | 0, _, _, hm => .refl hm
  | n + 1, m, filled, hm => by
      unfold NaiveSide.matchLevels
      split_ifs
      · split
        · exact .refl hm
        · next px lvl es he =>
            split_ifs
            · have hset := @Within.setLevel t m px [] es lvl hm he
                (fillLevel taker px want (lvl.length + 1) lvl filled).lvl
              exact (Within.matchLevels n hset.noEmpty).trans hset
            · exact .refl hm
      · exact .refl hm

theorem Within.eraseFrom (hm : m.NoEmpty) : (m.eraseFrom id).1.Within m := by
  unfold NaiveSide.eraseFrom
  split
  · exact .refl hm
  · next px o h =>
      obtain ⟨es₁, v₁, v₂, es₂, hes, -⟩ := find_eq_some h
      exact .setLevel hm hes _

theorem Within.setQty (hm : m.NoEmpty) {o : NaiveOrder} (h : m.find id = some (px, o)) (qty : Qty) :
    Within (m.alter px fun lvl => NaiveSide.setQty id qty (lvl.getD [])) m := by
  refine ⟨hm.setQty h qty, fun e he => ?_⟩
  obtain ⟨es₁, v₁, v₂, es₂, hes, -⟩ := find_eq_some h
  rcases OrdMap.mem_alterEntries_key he with hpx | ⟨v, hv⟩
  · exact ⟨(px, v₁ ++ o :: v₂), hes ▸ List.mem_append_right _ List.mem_cons_self, hpx.symm⟩
  · exact ⟨(e.1, v), hv, rfl⟩

/-- No level crosses once the order at the front does not. -/
theorem not_crosses_of_front {m : NaiveSide s.opp} (hm : m.NoEmpty)
    (hfront : ∀ r ∈ (flatten m.entries).head?, crosses s r.price limit = false) :
    ∀ e ∈ m.entries, crosses s e.1 limit = false := by
  intro e he
  by_contra hcross
  rw [Bool.not_eq_false] at hcross
  cases hes : m.entries with
  | nil =>
      rw [hes] at he
      cases he
  | cons e₀ es =>
      have hmem : e₀ ∈ m.entries := by
        rw [hes]
        exact List.mem_cons_self
      have hsorted := m.sorted
      rw [hes] at he hsorted hfront
      obtain ⟨o, v, hv⟩ := List.exists_cons_of_ne_nil (hm e₀ hmem)
      have hstop : crosses s e₀.1 limit = false :=
        hfront (toResting e₀.1 o) (by simp [hv])
      have hle : ¬ better s.opp e.1 e₀.1 := by
        rcases List.mem_cons.mp he with rfl | he
        · exact irrefl _
        · exact fun hb => irrefl (r := better s.opp) _
            (IsTrans.trans _ _ _ hb ((List.pairwise_cons.mp hsorted).1 e he))
      rw [crosses_of_not_better hcross hle] at hstop
      cases hstop

/-- What the taker leaves unfilled meets no crossing price any more. -/
theorem not_crosses_of_rest {m : NaiveSide s.opp} {qty : Qty} (hm : m.NoEmpty)
    (hrest : 0 < qty - (m.matchOrders id qty fun px => crosses s px limit).filled) :
    ∀ e ∈ (m.matchOrders id qty fun px => crosses s px limit).side.entries,
      crosses s e.1 limit = false := by
  obtain ⟨hflat, hfilled, -, hne⟩ := @matchLevels_spec _ qty s id limit
    (fun px => crosses s px limit) (m.entries.length + 1) m qty (UInt32.le_refl qty)
    (Nat.lt_succ_self _) hm fun _ _ => rfl
  rw [UInt32.sub_self] at hflat hfilled hne
  unfold NaiveSide.matchOrders at hrest ⊢
  rw [hfilled, sub_sub_self, pos_iff] at hrest
  have hend := walk_end _ qty (walk_none_stopped _ qty) hrest
  rw [← hflat] at hend
  exact not_crosses_of_front hne hend

end NaiveSide

namespace NaiveBook

open NaiveSide

variable {b : NaiveBook} {s : Side} {id : OrderId} {px : Int} {qty : Qty}

/-- `check_invariants`: the first violation, or `none`. -/
def checkInvariants (b : NaiveBook) : Option String :=
  if crossed b.bids.firstKey? b.asks.firstKey? then some "book is crossed"
  else if b.bids.entries.any fun e => e.2.isEmpty then some "empty level left in ladder"
  else if b.asks.entries.any fun e => e.2.isEmpty then some "empty level left in ladder"
  else none

/-- Every level has orders, and every bid is below every ask. -/
structure Healthy (b : NaiveBook) : Prop where
  noEmpty : ∀ s, (b.side s).NoEmpty
  uncrossed : ∀ e ∈ b.bids.entries, ∀ e' ∈ b.asks.entries, e.1 < e'.1

namespace Healthy

variable (h : b.Healthy)

include h

/-- **A healthy book passes its audit.** -/
theorem checkInvariants : b.checkInvariants = none := by
  have hany : ∀ s, (b.side s).entries.any (fun e => e.2.isEmpty) = false := by
    intro s
    refine List.any_eq_false.mpr fun e he hempty => ?_
    exact h.noEmpty s e he (List.isEmpty_iff.mp hempty)
  have hcross : crossed b.bids.firstKey? b.asks.firstKey? = false := by
    unfold OrdMap.firstKey?
    cases hb : b.bids.entries with
    | nil => rfl
    | cons e es =>
        cases ha : b.asks.entries with
        | nil => rfl
        | cons e' es' =>
            have hlt := h.uncrossed e (by rw [hb]; exact List.mem_cons_self) e'
              (by rw [ha]; exact List.mem_cons_self)
            exact decide_eq_false (Int.not_le.mpr hlt)
  have hbids : b.bids.entries.any (fun e => e.2.isEmpty) = false := hany .bid
  have hasks : b.asks.entries.any (fun e => e.2.isEmpty) = false := hany .ask
  unfold NaiveBook.checkInvariants
  simp only [hcross, hbids, hasks, Bool.false_eq_true, if_false]

theorem withSide {m : NaiveSide s} (hm : m.Within (b.side s)) : (b.withSide s m).Healthy := by
  have hn := h.noEmpty
  refine ⟨fun t => ?_, fun e he e' he' => ?_⟩
  · cases s <;> cases t
    exacts [hm.noEmpty, hn .ask, hn .bid, hm.noEmpty]
  · cases s with
    | bid =>
        obtain ⟨e₀, he₀, heq⟩ := hm.keys e he
        exact heq ▸ h.uncrossed e₀ he₀ e' he'
    | ask =>
        obtain ⟨e₀, he₀, heq⟩ := hm.keys e' he'
        exact heq ▸ h.uncrossed e he e₀ he₀

/-- An order that crosses nothing comes to rest. -/
theorem rest (hclear : ∀ e ∈ (b.side s.opp).entries, crosses s e.1 px = false) :
    (b.rest s id px qty).Healthy := by
  have hn := h.noEmpty
  refine ⟨fun t => ?_, fun e he e' he' => ?_⟩
  · cases s <;> cases t
    exacts [(hn .bid).push _ _, hn .ask, hn .bid, (hn .ask).push _ _]
  · cases s with
    | bid =>
        rcases OrdMap.mem_alterEntries_key he with hpx | ⟨v, hv⟩
        · have hc := hclear e' he'
          simp only [crosses, decide_eq_false_iff_not] at hc
          omega
        · exact h.uncrossed (e.1, v) hv e' he'
    | ask =>
        rcases OrdMap.mem_alterEntries_key he' with hpx | ⟨v, hv⟩
        · have hc := hclear e he
          simp only [crosses, decide_eq_false_iff_not] at hc
          omega
        · exact h.uncrossed e he (e'.1, v) hv

theorem matchOrders (s : Side) (id : OrderId) (qty : Qty) (ok : Int → Bool) :
    (b.withSide s ((b.side s).matchOrders id qty ok).side).Healthy :=
  h.withSide (.matchLevels _ (h.noEmpty s))

theorem submitLimit (id : OrderId) (s : Side) (px : Int) (qty : Qty) (tif : Tif) :
    (b.submitLimit id s px qty tif).1.Healthy := by
  have hmatched := h.matchOrders s.opp id qty fun lvlPx => crosses s lvlPx px
  unfold NaiveBook.submitLimit
  split_ifs
  · exact h
  · exact h
  · dsimp only
    split_ifs with hrest
    · refine hmatched.rest ?_
      have hside : ∀ m, (b.withSide s.opp m).side s.opp = m := by cases s <;> exact fun _ => rfl
      rw [hside]
      exact not_crosses_of_rest (h.noEmpty s.opp) hrest.1
    · exact hmatched

theorem submitMarket (id : OrderId) (s : Side) (qty : Qty) :
    (b.submitMarket id s qty).1.Healthy := by
  unfold NaiveBook.submitMarket
  split_ifs
  · exact h
  · dsimp only
    split_ifs
    · exact h
    · exact h.matchOrders s.opp id qty _
  · exact h.matchOrders s.opp id qty _

theorem eraseFrom (s : Side) (id : OrderId) :
    (b.withSide s ((b.side s).eraseFrom id).1).Healthy :=
  h.withSide (.eraseFrom (h.noEmpty s))

theorem cancel (id : OrderId) : (b.cancel id).1.Healthy := by
  unfold NaiveBook.cancel
  dsimp only
  split_ifs
  · exact h.eraseFrom .bid id
  · exact h.eraseFrom .ask id

theorem modifyOn {x : NaiveBook × ModifyResult × List Event}
    (hx : b.modifyOn s id px qty = some x) : x.1.Healthy := by
  obtain ⟨⟨oldPx, o⟩, hfind, rfl⟩ := Option.map_eq_some_iff.mp hx
  dsimp only
  split_ifs
  · exact h
  · unfold NaiveBook.modifyFound
    split_ifs
    · exact h.withSide (.setQty (h.noEmpty s) hfind qty)
    · exact (h.eraseFrom s id).submitLimit id s px qty .gtc

/-- **Whatever is called, the reference stays healthy.** -/
theorem call (op : Op) : (b.call op).1.Healthy := by
  cases op with
  | submitLimit id s px qty tif owner => exact h.submitLimit id s px qty tif
  | submitMarket id s qty owner => exact h.submitMarket id s qty
  | cancel id => exact h.cancel id
  | modify id px qty =>
      change (b.modify id px qty).1.Healthy
      unfold NaiveBook.modify
      cases hbid : b.modifyOn .bid id px qty with
      | some x => exact h.modifyOn hbid
      | none =>
          cases hask : b.modifyOn .ask id px qty with
          | some x => exact h.modifyOn hask
          | none => exact h

end Healthy

theorem new_healthy (p : Params) : (new p).Healthy := by
  refine ⟨fun s e he => ?_, fun e he => ?_⟩
  · cases s <;> cases he
  · cases he

theorem run_healthy (p : Params) (ops : List Op) : (run p ops).Healthy :=
  Transition.inv_finalState (P := fun _ _ => True) (fun _ op h _ => h.call op) (new_healthy p)
    (Transition.along_of_forall _ fun _ _ => trivial)

end NaiveBook

/-! ### Runs -/

def BookV1.run (p : Params) (ops : List Op) : BookV1 :=
  Transition.finalState Book.V1.call (new p) ops

def BookV2.run (p : Params) (ops : List Op) : BookV2 :=
  Transition.finalState Book.V1.call (new p) ops

def BookV3.run (p : Params) (ops : List Op) : BookV3 :=
  Transition.finalState Book.V1.call (new p) ops

def BookV4.run (p : Params) (ops : List Op) : BookV4 :=
  Transition.finalState Book.V4.call (new p) ops

/-- Every audit passes after the run `ops`. -/
structure AuditsPass (p : Params) (ops : List Op) : Prop where
  naive : (NaiveBook.run p ops).checkInvariants = none
  v1 : Book.Tree.checkInvariants (BookV1.run p ops) = none
  v2 : Book.Tree.checkInvariants (BookV2.run p ops) = none
  v3 : Book.Tree.checkInvariants (BookV3.run p ops) = none
  v4 : Book.Tree.checkInvariants (BookV4.run p ops) = none
  v5 : Book.V5.checkInvariants (BookV5.run p ops) = none
  final : (OrderBook.run p ops).checkInvariants = none

/-- **No audit ever reports anything**, on any engine, after any operations. -/
theorem audits_pass (p : Params) (hp : p.Valid) (ops : List Op) : AuditsPass p ops := by
  refine ⟨(NaiveBook.run_healthy p ops).checkInvariants, ?_, ?_, ?_, ?_, ?_,
    OrderBook.checkInvariants_of_repr (OrderBook.run_repr hp ops).2⟩
  · obtain ⟨F, h⟩ := (BookV1.new_repr p).exists_finalState
      (fun _ _ op h => h.stepV1 (fun _ => trivial) op) ops
    exact h.tree_checkInvariants
  · obtain ⟨F, h⟩ := (BookV2.new_repr p).exists_finalState
      (fun _ _ op h => h.stepV1 (fun _ => trivial) op) ops
    exact h.tree_checkInvariants
  · obtain ⟨F, h⟩ := (BookV4.new_repr p).exists_finalState
      (fun _ _ op h => h.stepV1 (fun _ => trivial) op) ops
    exact h.tree_checkInvariants
  · obtain ⟨F, h⟩ := (BookV4.new_repr p).exists_finalState
      (fun _ _ op h => h.stepV4 (fun _ => trivial) op) ops
    exact h.tree_checkInvariants
  · obtain ⟨F, h⟩ := (BookV5.new_repr hp.apart).exists_finalState
      (fun _ _ op h => h.stepV4 (fun _ => trivial) op) ops
    exact h.flat_checkInvariants

/-- A reused id, id `0` and a partial fill, on all engines. -/
theorem audits_pass_small : AuditsPass { bandHi := 9, idMapSlots := 4 }
    [.submitLimit 1 .ask 5 2 .gtc 7, .submitLimit 1 .ask 6 1 .gtc 0, .submitLimit 0 .bid 5 1 .gtc 7,
      .modify 1 4 3, .cancel 1] :=
  audits_pass { bandHi := 9, idMapSlots := 4 } ⟨by decide, by decide, by decide, by decide⟩ _

end Lob
