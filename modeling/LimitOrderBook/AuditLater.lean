import LimitOrderBook.AuditSound

/-! # What the audit overlooks surfaces later

The audit does not look at the tail and the price of an empty level, nor at the bits of the ask side
behind its last level.  None of the three stays hidden: once every order is cancelled
(`exists_cleared`), an order that rests at the level, or rests and leaves again, makes the audit fail
(`blankInOrder_of_passes`).  So the audit passes after every run exactly from the states where they
are in order (`audit_iff`). -/

namespace Lob

open KeyedQueue Chain Bitmap

namespace FlatLadder

variable {A : Type} {l l' l'' : FlatLadder A} {lo hi px : Int}

/-- What no call touches: the band, the empty levels and the bits behind the last level. -/
structure Keeps (l l' : FlatLadder A) : Prop where
  frame : ∀ {lo hi}, l.Frame lo hi → l'.Frame lo hi
  levels : ∀ px, l.inBand px = true → (l.level px).head = none → l'.level px = l.level px
  bits : ∀ i, l.levels.length ≤ i → bit l'.words i = bit l.words i

namespace Keeps

theorem refl (l : FlatLadder A) : l.Keeps l := ⟨fun h => h, fun _ _ _ => rfl, fun _ _ => rfl⟩

theorem trans (h : l.Keeps l') (h' : l'.Keeps l'') (hl : l.Frame lo hi) : l.Keeps l'' := by
  have hl' := h.frame hl
  have hband : ∀ px, l'.inBand px = l.inBand px := by
    intro px
    rw [inBand, inBand, hl.lo_eq, hl.hi_eq, hl'.lo_eq, hl'.hi_eq]
  refine ⟨fun hf => h'.frame (h.frame hf), fun px hpx hhead => ?_, fun i hi => ?_⟩
  · have hlevel := h.levels px hpx hhead
    rw [h'.levels px ((hband px).trans hpx) (by rw [hlevel, hhead]), hlevel]
  · rw [h'.bits i (by rw [hl'.levels_len, ← hl.levels_len]; exact hi), h.bits i hi]

/-- Rewriting a level that has orders. -/
theorem setLevel (hl : l.Frame lo hi) (hpx : l.inBand px = true)
    (hhead : (l.level px).head ≠ none) (v : Level A) : l.Keeps (l.setLevel px v) where
  frame hf := hf.setLevel v
  levels q hq hq0 := by
    rw [level_setLevel (hl.idx_lt hpx) hpx hq, if_neg]
    rintro rfl
    exact hhead hq0
  bits _ _ := rfl

theorem onEmpty (hl : l.Frame lo hi) (s : Side) (hpx : l.inBand px = true) :
    l.Keeps (l.onEmpty s px) where
  frame hf := hf.onEmpty s
  levels _ _ _ := rfl
  bits i hi := by
    have hlt := hl.idx_lt hpx
    change bit (clearBit l.words (l.idx px)) i = bit l.words i
    rw [bit_clearBit (hl.word_lt hpx), decide_eq_false (by omega)]
    rfl

end Keeps

/-- A bitmap with a set bit belongs to a band with a price. -/
theorem Frame.inBand_of_bit (h : l.Frame lo hi) {i : ℕ} (hbit : bit l.words i = true) :
    l.inBand lo = true := by
  have hword : i / 64 < l.words.length := by
    by_contra hout
    rw [bit_eq, List.getD_eq_default _ _ (Nat.not_lt.mp hout)] at hbit
    simp at hbit
  have hwords := h.words_len
  have hlen := h.levels_len
  have hl := h.lo_eq
  have hh := h.hi_eq
  rw [inBand_iff]
  omega

/-- The scan for a worse ask lands on the bit above. -/
theorem scanWorse_ask {j : ℕ} (hs : scanAbove (clearBit l.words (l.idx px)) (l.idx px) = some j) :
    { l with words := clearBit l.words (l.idx px) }.scanWorse .ask px = l.lo + (j : Int) := by
  have hidx : { l with words := clearBit l.words (l.idx px) }.idx px = l.idx px := rfl
  simp only [scanWorse, hidx, hs]

/-- An ask side that takes itself for empty has found no bit above the price that left. -/
theorem bit_of_onEmpty (hlo : 1 ≤ l.lo) (hword : l.idx px / 64 < l.words.length)
    (hbest : l.best = px) (h0 : (l.onEmpty .ask px).best = kNoPrice) {i : ℕ} (hi : l.idx px < i) :
    bit l.words i = false := by
  have hscan : scanAbove (clearBit l.words (l.idx px)) (l.idx px) = none := by
    have hbest' : (l.onEmpty .ask px).best =
        { l with words := clearBit l.words (l.idx px) }.scanWorse .ask px := if_pos hbest
    cases hs : scanAbove (clearBit l.words (l.idx px)) (l.idx px) with
    | none => rfl
    | some j =>
        have hj : l.lo + (j : Int) = 0 := by
          rw [← scanWorse_ask hs, ← hbest', h0, kNoPrice]
        omega
  have hnone := scanAbove_none (by rwa [length_clearBit]) hscan i hi
  rw [bit_clearBit hword, decide_eq_false (by omega)] at hnone
  exact hnone

end FlatLadder

namespace OrderBook

variable {b b' : OrderBook} {s : Side} {px : Int} {a : Addr}

/-- The state `b'` was reached from `b` by calls. -/
structure Keeps (b b' : OrderBook) : Prop where
  ladder : ∀ s, (b.ladder s).Keeps (b'.ladder s)
  index_wf : b.orders.WF → b'.orders.WF

theorem Keeps.standing (h : b.Keeps b') (hb : b.Standing) : b'.Standing := by
  have hframe := fun s => (h.ladder s).frame (hb.frame s)
  have hlo : b'.bids.lo = b.bids.lo := (hframe .bid).lo_eq
  have hhi : b'.bids.hi = b.bids.hi := (hframe .bid).hi_eq
  refine ⟨?_, fun s => ?_, h.index_wf hb.index_wf⟩
  · rw [hlo]
    exact hb.lo_pos
  · rw [hlo, hhi]
    exact hframe s

theorem Keeps.inBand (h : b.Keeps b') (hb : b.Standing) (px : Int) :
    b'.bids.inBand px = b.bids.inBand px := by
  have hframe := (h.ladder .bid).frame (hb.frame .bid)
  have hlo : b'.bids.lo = b.bids.lo := hframe.lo_eq
  have hhi : b'.bids.hi = b.bids.hi := hframe.hi_eq
  rw [FlatLadder.inBand, FlatLadder.inBand, hlo, hhi]

/-- A cancel, as an edit of one level. -/
theorem cancel_eq (h : b.Audited) (hpx : b.bids.inBand px = true) (ha : a ∈ b.chainAt s px) :
    (Book.call b (.cancel (Allocator.deref b.pool a).id)).1 = b.settle s px
      ⟨Allocator.destroy (Book.unlink b.pool (b.levels s px) a).1 a,
        Index.erase b.orders (Allocator.deref b.pool a).id,
        (Book.unlink b.pool (b.levels s px) a).2, 0, false, []⟩ := by
  have hl := h.levels s px hpx
  have hn := hl.node a ha
  have hcall : (Book.call b (.cancel (Allocator.deref b.pool a).id)).1 =
      b.eraseOrder (Allocator.deref b.pool a).id a := by
    simp only [Book.call, Book.callWith, Book.cancel, hn.find]
  rw [hcall]
  exact Book.eraseOrder_eq _ hn.level hn.side (hl.price (List.ne_nil_of_mem ha))

theorem settle_keeps (hb : b.Standing) (hpx : b.bids.inBand px = true)
    (hhead : (b.levels s px).head ≠ none) {w : Book.Fill Addr (IdMap Addr) (Pool (Order Addr) 64)}
    (hprice : w.lvl.price = px) (hwf : b.orders.WF → w.orders.WF) : b.Keeps (b.settle s px w) := by
  have hin : (b.ladder s).inBand px = true := (hb.inBand_eq s px).trans hpx
  have hset := FlatLadder.Keeps.setLevel (hb.frame s) hin hhead w.lvl
  refine ⟨fun t => ?_, ?_⟩
  · rw [Book.settle, Book.ladder_withLadder]
    split_ifs with ht hnone
    · subst ht
      rw [hprice]
      exact hset.trans (FlatLadder.Keeps.onEmpty (hset.frame (hb.frame t)) t hin) (hb.frame t)
    · exact ht ▸ hset
    · cases s <;> cases t <;> exact FlatLadder.Keeps.refl _
  · cases s <;> exact hwf

/-- **A cancel touches no empty level**, and takes one order off the book. -/
theorem cancel_keeps (hb : b.Standing) (h : b.Audited) (hpx : b.bids.inBand px = true)
    (ha : a ∈ b.chainAt s px) :
    b.Keeps (Book.call b (.cancel (Allocator.deref b.pool a).id)).1 ∧
      Book.restingOrders (Book.call b (.cancel (Allocator.deref b.pool a).id)).1 + 1 =
        b.restingOrders := by
  have hl := h.levels s px hpx
  have hne := List.ne_nil_of_mem ha
  have hfind := (hl.node a ha).find
  have hfound : Index.find b.orders (Allocator.deref b.pool a).id ≠ none := by
    rw [hfind]
    simp
  have hkey : LawfulIndex.Key (IdMap Addr) (Allocator.deref b.pool a).id := by
    intro h0
    rw [h0] at hfound
    exact hfound hb.index_wf.find_zero
  rw [cancel_eq h hpx ha]
  refine ⟨settle_keeps hb hpx (fun hhead => hne (hl.head_eq_none_iff.mp hhead)) ?_ ?_, ?_⟩
  · rw [unlink_level]
    exact hl.price hne
  · exact fun hwf => LawfulIndex.erase_wf hwf hkey hfound
  · have hsize := LawfulIndex.size_erase hb.index_wf hkey hfound
    cases s <;> exact hsize

theorem Keeps.trans {b'' : OrderBook} (h : b.Keeps b') (h' : b'.Keeps b'') (hb : b.Standing) :
    b.Keeps b'' :=
  ⟨fun s => (h.ladder s).trans (h'.ladder s) (hb.frame s), fun hwf => h'.index_wf (h.index_wf hwf)⟩

/-- The book can be cleared by cancels, and what is empty from the start stays as it was. -/
theorem exists_cleared : ∀ {n : ℕ} {b : OrderBook}, b.Standing →
    (∀ ops, (b.runFrom ops).checkInvariants = none) → b.restingOrders = n →
    ∃ ops, b.Keeps (b.runFrom ops) ∧ (b.runFrom ops).restingOrders = 0
  | 0, b, _, _, h0 => ⟨[], ⟨fun s => FlatLadder.Keeps.refl _, fun h => h⟩, h0⟩
  | n + 1, b, hb, hpass, hn => by
      have h := hb.checkInvariants_eq_none_iff.mp (hpass [])
      have hsize := h.size
      obtain ⟨a, ha⟩ : ∃ a, a ∈ b.nodes .bid ++ b.nodes .ask := by
        apply List.exists_mem_of_length_pos
        omega
      obtain ⟨s, px, hpx, ha⟩ := onBook_iff_mem_nodes.mpr ha
      obtain ⟨hkeeps, hless⟩ := cancel_keeps hb h hpx ha
      obtain ⟨ops, hops, h0⟩ := exists_cleared (hkeeps.standing hb)
        (fun ops => hpass (.cancel (Allocator.deref b.pool a).id :: ops)) (by omega : _ = n)
      exact ⟨_ :: ops, hkeeps.trans hops hb, h0⟩

/-! ### An order on a cleared book -/

/-- The book after an order of quantity one has come to rest. -/
def withOrder (b : OrderBook) (s : Side) (px : Int) : OrderBook := b.rest s 1 px 1 0

section cleared

variable (h : b.Audited) (h0 : b.restingOrders = 0)

include h h0

theorem chainAt_of_cleared (s : Side) (hpx : b.bids.inBand px = true) : b.chainAt s px = [] := by
  have hsize := h.size
  have hnil : b.nodes .bid ++ b.nodes .ask = [] := List.eq_nil_of_length_eq_zero (by omega)
  rw [List.eq_nil_iff_forall_not_mem]
  intro a ha
  have hmem := onBook_iff_mem_nodes.mp ⟨s, px, hpx, ha⟩
  rw [hnil] at hmem
  cases hmem

theorem head_of_cleared (s : Side) (hpx : b.bids.inBand px = true) :
    (b.levels s px).head = none :=
  (h.levels s px hpx).head_eq_none_iff.mpr (chainAt_of_cleared h h0 s hpx)

theorem best_of_cleared (s : Side) : (b.ladder s).best = kNoPrice := by
  by_contra hne
  obtain ⟨hmem, hqueue, -⟩ := (h.best s).some hne
  exact hqueue (chainAt_of_cleared h h0 s (FlatLadder.mem_ticks.mp hmem))

theorem find_of_cleared (hwf : b.orders.WF) (k : OrderId) : Index.find b.orders k = none := by
  by_contra hfound
  obtain ⟨a, ⟨s, px, hpx, ha⟩, -⟩ := mem_ids_flat.mp (h.mem_ids_of_find hwf hfound)
  rw [chainAt_of_cleared h h0 s hpx] at ha
  cases ha

/-- An order of quantity one rests. -/
theorem submit_of_cleared (hwf : b.orders.WF) (s : Side) (hpx : b.bids.inBand px = true) :
    (Book.call b (.submitLimit 1 s px 1 .gtc 0)).1 = b.withOrder s px := by
  have hbad : ¬ ((1 : OrderId) = 0 ∨ (1 : Qty) = 0 ∨ Ladder.inBand b.bids px = false) := by
    rintro (hc | hc | hc)
    · cases hc
    · cases hc
    · cases hc.symm.trans hpx
  have hexec : b.execute s 1 px 1 .gtc 0 = _ :=
    Book.execute_of_best?_eq_none
      (FlatLadder.price?_eq_none.mpr (best_of_cleared h h0 s.opp)) (by decide)
  simp only [Book.call, Book.callWith, Book.submitLimit, if_neg hbad,
    find_of_cleared h h0 hwf, Option.isSome_none, Bool.false_eq_true, if_false, hexec]
  rfl

/-- The order in place: its level, and the ladder told of it. -/
theorem rest_of_cleared (hb : b.Standing) (s : Side) (hpx : b.bids.inBand px = true) :
    (b.withOrder s px).Standing ∧ (b.withOrder s px).restingOrders = 1 ∧
      ∃ a, ∀ t, (b.withOrder s px).ladder t =
      if t = s then
        ((b.ladder s).setLevel px (Book.pushLevel a 1 (b.levels s px))).onNonempty s px
      else b.ladder t := by
  obtain ⟨a, horders, hladder⟩ : ∃ a, (b.withOrder s px).orders = Index.insert b.orders 1 a ∧
      ∀ t, (b.withOrder s px).ladder t =
        if t = s then Ladder.link s (b.ladder s) px (Book.pushLevel a 1) else b.ladder t := by
    cases s with
    | bid => exact ⟨_, rfl, fun t => by cases t <;> rfl⟩
    | ask => exact ⟨_, rfl, fun t => by cases t <;> rfl⟩
  have hhead : ((b.ladder s).level px).head.isNone = true := by
    rw [Option.isNone_iff_eq_none]
    exact head_of_cleared h h0 s hpx
  simp only [FlatLadder.link_eq, if_pos hhead] at hladder
  have hframe : ∀ t, ((b.withOrder s px).ladder t).Frame b.bids.lo b.bids.hi := by
    intro t
    rw [hladder]
    split_ifs with ht
    · exact ((hb.frame s).setLevel _).onNonempty s
    · exact hb.frame t
  have hlo : (b.withOrder s px).bids.lo = b.bids.lo := (hframe .bid).lo_eq
  have hhi : (b.withOrder s px).bids.hi = b.bids.hi := (hframe .bid).hi_eq
  have hkey : LawfulIndex.Key (IdMap Addr) 1 := LawfulIndex.key_of_ne (by decide)
  have hnone := find_of_cleared h h0 hb.index_wf 1
  refine ⟨⟨?_, ?_, ?_⟩, ?_, a, hladder⟩
  · rw [hlo]
    exact hb.lo_pos
  · rw [hlo, hhi]
    exact hframe
  · rw [horders]
    exact LawfulIndex.insert_wf hb.index_wf hkey hnone a
  · rw [Book.restingOrders, horders, LawfulIndex.size_insert hb.index_wf hkey hnone]
    exact congrArg (· + 1) h0

/-- **The tail and the price of an empty level surface** once an order rests there. -/
theorem blank_of_cleared (hb : b.Standing) (hpass : ∀ ops, (b.runFrom ops).checkInvariants = none)
    (s : Side) (hpx : b.bids.inBand px = true) :
    (b.levels s px).tail = none ∧ (b.levels s px).price = px := by
  have hpassed := hpass [.submitLimit 1 s px 1 .gtc 0]
  simp only [runFrom, Transition.finalState, submit_of_cleared h h0 hb.index_wf s hpx] at hpassed
  obtain ⟨hb', -, a, hladder⟩ := rest_of_cleared h h0 hb s hpx
  have haudited := hb'.checkInvariants_eq_none_iff.mp hpassed
  have hin : (b.ladder s).inBand px = true := (hb.inBand_eq s px).trans hpx
  have hladder := hladder s
  rw [if_pos rfl] at hladder
  have hin' : (b.withOrder s px).bids.inBand px = true := by
    rw [← hb'.inBand_eq s, hladder]
    exact hin
  have hlevel : (b.withOrder s px).levels s px = Book.pushLevel a 1 (b.levels s px) := by
    have hset : ((b.ladder s).setLevel px (Book.pushLevel a 1 (b.levels s px))).level px =
        Book.pushLevel a 1 (b.levels s px) := by
      rw [FlatLadder.level_setLevel ((hb.frame s).idx_lt hin) hin hin, if_pos rfl]
    refine Eq.trans ?_ hset
    change ((b.withOrder s px).ladder s).level px = _
    rw [hladder]
    rfl
  have hl := haudited.levels s px hin'
  have hold := h.levels s px hpx
  have hnil := chainAt_of_cleared h h0 s hpx
  -- one order is counted, so there is one on the queue
  have hne : (b.withOrder s px).chainAt s px ≠ [] := by
    intro hnil'
    have hcount := hl.count
    rw [hlevel, hnil'] at hcount
    simp only [Book.pushLevel, hold.count, hnil] at hcount
    cases hcount
  have hprice := hl.price hne
  rw [hlevel] at hprice
  refine ⟨?_, hprice⟩
  by_contra htail
  refine hne (hl.head_eq_none_iff.mp ?_)
  rw [hlevel, Book.pushLevel, if_pos (Option.isSome_iff_ne_none.mpr htail)]
  exact head_of_cleared h h0 s hpx

omit h h0 in
/-- The last ask leaves, and the side takes itself for empty: no bit is set above its price. -/
theorem bits_of_last (hb : b.Standing) (hpass : ∀ ops, (b.runFrom ops).checkInvariants = none)
    (hone : b.restingOrders = 1) (hbest : b.asks.best = px) (hne : px ≠ kNoPrice) {i : ℕ}
    (hi : b.asks.idx px < i) : bit b.asks.words i = false := by
  have h := hb.checkInvariants_eq_none_iff.mp (hpass [])
  obtain ⟨hpx, hqueue⟩ : b.bids.inBand px = true ∧ b.chainAt .ask px ≠ [] := by
    have hbest' : (b.ladder .ask).best = px := hbest
    obtain ⟨hmem, hqueue, -⟩ := (h.best .ask).some fun hb0 => hne (hbest'.symm.trans hb0)
    rw [hbest'] at hmem hqueue
    exact ⟨FlatLadder.mem_ticks.mp hmem, hqueue⟩
  obtain ⟨a, ha⟩ := List.exists_mem_of_ne_nil _ hqueue
  obtain ⟨hkeeps, hless⟩ := cancel_keeps hb h hpx ha
  have h' := (hkeeps.standing hb).checkInvariants_eq_none_iff.mp (hpass [.cancel _])
  have hbest₁ := best_of_cleared h' (by omega) .ask
  rw [cancel_eq h hpx ha, Book.settle, Book.ladder_withLadder, if_pos rfl] at hbest₁
  have hlvl : (Book.unlink b.pool (b.levels .ask px) a).2.price = px := by
    rw [unlink_level]
    exact (h.levels .ask px hpx).price hqueue
  rw [hlvl] at hbest₁
  have hframe : b.asks.Frame b.bids.lo b.bids.hi := hb.frame .ask
  have hin : b.asks.inBand px = true := (hb.inBand_eq .ask px).trans hpx
  have hlo : 1 ≤ b.asks.lo := by
    rw [hframe.lo_eq]
    exact hb.lo_pos
  split_ifs at hbest₁ with hnone
  · exact FlatLadder.bit_of_onEmpty (l := b.asks.setLevel px _) hlo (hframe.word_lt hin) hbest
      hbest₁ hi
  · exact absurd (hbest.symm.trans hbest₁) hne

/-- **A bit behind the last ask level surfaces** once an ask rests and leaves again: the scan for the
next best price runs on past the band. -/
theorem bits_of_cleared (hb : b.Standing) (hpass : ∀ ops, (b.runFrom ops).checkInvariants = none)
    {i : ℕ} (hi : bit b.asks.words i = true) : i < b.asks.levels.length := by
  by_contra hge
  have hframe : b.asks.Frame b.bids.lo b.bids.hi := hb.frame .ask
  have hin : b.asks.inBand b.bids.lo = true := hframe.inBand_of_bit hi
  have hpx : b.bids.inBand b.bids.lo = true := (hb.inBand_eq .ask _).symm.trans hin
  have hne : b.bids.lo ≠ kNoPrice := by
    have hpos := hb.lo_pos
    unfold kNoPrice
    omega
  obtain ⟨hb₁, hone, a, hladder⟩ := rest_of_cleared h h0 hb .ask hpx
  have hasks : (b.withOrder .ask b.bids.lo).asks = _ := hladder .ask
  rw [if_pos rfl] at hasks
  have hbest : (b.withOrder .ask b.bids.lo).asks.best = b.bids.lo := by
    have hold : b.asks.best = kNoPrice := best_of_cleared h h0 .ask
    rw [hasks]
    exact if_pos (Or.inl hold)
  have hpass₁ : ∀ ops, ((b.withOrder .ask b.bids.lo).runFrom ops).checkInvariants = none := by
    intro ops
    have hrun := hpass (.submitLimit 1 .ask b.bids.lo 1 .gtc 0 :: ops)
    simp only [runFrom, Transition.finalState,
      submit_of_cleared h h0 hb.index_wf .ask hpx] at hrun
    exact hrun
  have hlt : (b.withOrder .ask b.bids.lo).asks.idx b.bids.lo < i := by
    have hidx := hframe.idx_lt hin
    rw [hasks]
    change b.asks.idx b.bids.lo < i
    omega
  have hclear := bits_of_last hb₁ hpass₁ hone hbest hne hlt
  have hset : bit (b.withOrder .ask b.bids.lo).asks.words i = true := by
    rw [hasks]
    change bit (setBit b.asks.words (b.asks.idx b.bids.lo)) i = true
    rw [bit_setBit (hframe.word_lt hin), hi, Bool.or_true]
  cases hset.symm.trans hclear

end cleared

/-- **What the audit overlooks surfaces**, but for the bits behind the last bid level, which nothing
reads. -/
theorem blankInOrder_of_passes (hb : b.Standing)
    (hpass : ∀ ops, (b.runFrom ops).checkInvariants = none)
    (hbits : ∀ i, bit b.bids.words i = true → i < b.bids.levels.length) : b.BlankInOrder := by
  obtain ⟨ops, hkeeps, h0⟩ := exists_cleared hb hpass rfl
  have hb' := hkeeps.standing hb
  have hpass' : ∀ ops', ((b.runFrom ops).runFrom ops').checkInvariants = none := by
    intro ops'
    rw [runFrom, runFrom, ← Transition.finalState_append]
    exact hpass (ops ++ ops')
  have h := hb'.checkInvariants_eq_none_iff.mp (hpass' [])
  have hblank : ∀ s px, b.bids.inBand px = true → (b.levels s px).head = none →
      (b.levels s px).tail = none ∧ (b.levels s px).price = px := by
    intro s px hpx hhead
    have hlevel : (b.runFrom ops).levels s px = b.levels s px :=
      (hkeeps.ladder s).levels px ((hb.inBand_eq s px).trans hpx) hhead
    rw [← hlevel]
    exact blank_of_cleared h h0 hb' hpass' s ((hkeeps.inBand hb px).trans hpx)
  refine ⟨fun s px hpx hhead => (hblank s px hpx hhead).1,
    fun s px hpx hhead => (hblank s px hpx hhead).2, fun s i hi => ?_⟩
  cases s with
  | bid => exact hbits i hi
  | ask =>
      by_contra hge
      have hkept : bit (b.runFrom ops).asks.words i = bit b.asks.words i :=
        (hkeeps.ladder .ask).bits i (Nat.not_lt.mp hge)
      have hlt := bits_of_cleared h h0 hb' hpass' (hkept.trans hi)
      have hlen : b.asks.levels.length = _ := (hb.frame .ask).levels_len
      have hlen' : (b.runFrom ops).asks.levels.length = _ :=
        ((hkeeps.ladder .ask).frame (hb.frame .ask)).levels_len
      rw [hlen', ← hlen] at hlt
      exact hge hlt

/-- **The audit is a sound and inductive oracle** on a state that it passes, exactly if what it does
not look at is in order; and exactly then, the unread bits apart, it passes after every run. -/
theorem audit_iff (b : OrderBook) (hb : b.Framed) (hpass : b.checkInvariants = none) :
    ((b.Intact ∧ ∀ ops, (b.runFrom ops).checkInvariants = none) ↔ b.BlankInOrder) ∧
      (((∀ ops, (b.runFrom ops).checkInvariants = none) ∧
        ∀ i, bit b.bids.words i = true → i < b.bids.levels.length) ↔ b.BlankInOrder) := by
  refine ⟨⟨fun h => h.1.blankInOrder, intact_of_passes hb hpass⟩, fun h => ?_, fun h => ?_⟩
  · exact blankInOrder_of_passes hb.toStanding h.1 h.2
  · exact ⟨(intact_of_passes hb hpass h).2, h.bits_range .bid⟩

/-- A fresh engine on the band `[1, 3)`, but for a bid level and the words of the ask side. -/
def damaged (lvl : Level Addr) (word : BitVec 64) : OrderBook :=
  let b := new { poolCapacity := 1, bandHi := 3, idMapSlots := 2 }
  { b with
    bids := { b.bids with levels := [lvl, { price := 2 }] }
    asks := { b.asks with words := [word] } }

theorem damaged_head {lvl : Level Addr} (hhead : lvl.head = none) (word : BitVec 64)
    (hpx : (damaged lvl word).bids.inBand px = true) :
    ((damaged lvl word).levels s px).head = none := by
  obtain ⟨hlo, hhi⟩ : 1 ≤ px ∧ px < 3 := FlatLadder.inBand_iff.mp hpx
  obtain rfl | rfl : px = 1 ∨ px = 2 := by omega
  · cases s with
    | bid => exact hhead
    | ask => rfl
  · cases s <;> rfl

theorem damaged_framed {lvl : Level Addr} (hhead : lvl.head = none) (word : BitVec 64) :
    (damaged lvl word).Framed := by
  refine ⟨⟨Int.le_refl 1, fun s => ?_, IdMap.new_wf (by decide)⟩, Pool.new_wf _, ?_, ?_⟩
  · cases s <;> exact ⟨rfl, rfl, rfl, by simp [damaged, new, FlatLadder.new, Book.ladder]⟩
  · rintro a ⟨s, px, n, hpx, ha⟩
    rw [damaged_head hhead word hpx] at ha
    cases n <;> cases ha
  · show 0 < 2 ^ 32 - 1
    decide

/-- Without damage, the audit passes for good. -/
theorem audit_iff_small :
    (damaged { price := 1 } 0).Intact ∧
      ∀ ops, ((damaged { price := 1 } 0).runFrom ops).checkInvariants = none := by
  have hvalid : Params.Valid { poolCapacity := 1, bandHi := 3, idMapSlots := 2 } :=
    ⟨by decide, by decide, by decide, by decide⟩
  have hintact := intact_of_repr (new_repr hvalid) (by decide) fun _ ha => ha
  exact (audit_iff (damaged { price := 1 } 0) (damaged_framed rfl 0) (by decide +kernel)).1.mpr
    hintact.blankInOrder

/-- A stale tail, a foreign price and a stray bit pass the audit, and one or two calls later it
fails. -/
theorem audit_overlooks :
    (damaged { tail := some ⟨0, 0⟩, price := 1 } 0).Framed ∧ (damaged { price := 2 } 0).Framed ∧
      (damaged { price := 1 } 4).Framed ∧
    (damaged { tail := some ⟨0, 0⟩, price := 1 } 0).checkInvariants = none ∧
      ((damaged { tail := some ⟨0, 0⟩, price := 1 } 0).runFrom
        [.submitLimit 1 .bid 1 5 .gtc 0]).checkInvariants = some "bitmap out of sync with level" ∧
    (damaged { price := 2 } 0).checkInvariants = none ∧
      ((damaged { price := 2 } 0).runFrom
        [.submitLimit 1 .bid 1 5 .gtc 0]).checkInvariants = some "level price != slot price" ∧
    (damaged { price := 1 } 4).checkInvariants = none ∧
      ((damaged { price := 1 } 4).runFrom
        [.submitLimit 1 .ask 1 5 .gtc 0, .cancel 1]).checkInvariants =
          some "cached best is stale" := by
  refine ⟨damaged_framed rfl 0, damaged_framed rfl 0, damaged_framed rfl 4, ?_⟩
  decide +kernel

end OrderBook

end Lob
