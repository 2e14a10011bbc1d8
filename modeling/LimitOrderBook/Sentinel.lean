import LimitOrderBook.Naive
import LimitOrderBook.Versions

/-! # The sentinel

`kNoPrice` is `0`, and valid prices are positive.  The naive engine and those on a search tree
refuse every price `≤ 0` (`naive_refuses`, `tree_refuses`); those on a flat ladder compare a price with the
bounds of the band they were constructed with, whatever its sign.

A side of a flat ladder tells by `kNoPrice` that it is empty.  That is so after every run as
long as `kNoPrice` is not a price of the band (`tellsEmpty_iff`), and prices `≤ 0` are refused exactly
on the bands that start at `1` or above (`sentinel_iff`). -/

namespace Lob

/-- The engine in state `b` refuses every price `≤ 0`, and is left as it was. -/
structure RefusesNonPositive {B : Type} (call : B → Op → B × Answer) (b : B) : Prop where
  limit : ∀ id s px qty tif owner, px ≤ 0 →
    call b (.submitLimit id s px qty tif owner) = (b, .submit Book.rejection, [])
  modify : ∀ id px qty, px ≤ 0 →
    ∃ found, call b (.modify id px qty) = (b, .modify ⟨false, 0, false, found⟩, [])

/-! ### Who refuses -/

section refuses

variable {A L I P : Type} [Ladder L A] [Index I A] [Allocator P A (Order A)] {b : Book L I P}

/-- An engine refuses what is off its band. -/
theorem refuses_of_band
    {submit : Book L I P → OrderId → Side → Int → Qty → Tif → Owner →
      Book L I P × SubmitResult × List Event}
    {market : Book L I P → OrderId → Side → Qty → Owner → Book L I P × Qty × List Event}
    (hband : ∀ px ≤ 0, Ladder.inBand b.bids px = false)
    (hsubmit : ∀ id s px qty tif owner, Ladder.inBand b.bids px = false →
      submit b id s px qty tif owner = (b, Book.rejection, [])) :
    RefusesNonPositive (Book.callWith submit market) b where
  limit id s px qty tif owner hpx := by
    have h := hsubmit id s px qty tif owner (hband px hpx)
    simp only [Book.callWith, h]
  modify id px qty hpx := by
    have hout := hband px hpx
    simp only [Book.callWith, Book.modifyWith]
    cases Index.find b.orders id with
    | none => exact ⟨false, rfl⟩
    | some a =>
        refine ⟨true, ?_⟩
        simp only [hout, or_true, if_true]

theorem refuses_of_call (hband : ∀ px ≤ 0, Ladder.inBand b.bids px = false) :
    RefusesNonPositive Book.call b := by
  apply refuses_of_band hband
  intro id s px qty tif owner hout
  exact if_pos (Or.inr (Or.inr hout))

theorem refuses_of_callV4 (hband : ∀ px ≤ 0, Ladder.inBand b.bids px = false) :
    RefusesNonPositive Book.V4.call b := by
  apply refuses_of_band hband
  intro id s px qty tif owner hout
  exact if_pos (Or.inr hout)

end refuses

/-- The engines on a search tree refuse in every state. -/
theorem tree_refuses : (∀ b : BookV1, RefusesNonPositive Book.V1.call b) ∧
    ∀ b : BookV4, RefusesNonPositive Book.V4.call b := by
  have hband : ∀ {A : Type} (l : TreeLadder A), ∀ px ≤ 0, Ladder.inBand l px = false := by
    intro A l px hpx
    apply decide_eq_false
    omega
  refine ⟨fun b => refuses_of_band (hband b.bids) ?_, fun b => refuses_of_callV4 (hband b.bids)⟩
  intro id s px qty tif owner hout
  exact if_pos (Or.inr hout)

theorem naive_refuses (b : NaiveBook) : RefusesNonPositive NaiveBook.call b where
  limit id s px qty tif owner hpx := by
    simp only [NaiveBook.call, NaiveBook.submitLimit, hpx, or_true, if_true]
    rfl
  modify id px qty hpx := by
    simp only [NaiveBook.call, NaiveBook.modify, NaiveBook.modifyOn, hpx, or_true, if_true]
    cases (b.side .bid).find id with
    | some f => exact ⟨true, rfl⟩
    | none =>
        cases (b.side .ask).find id with
        | some f => exact ⟨true, rfl⟩
        | none => exact ⟨false, rfl⟩

/-! ### What the best prices tell -/

section tellsEmpty

variable {A I P : Type} [Index I A] [Allocator P A (Order A)]

/-- The side holds no order. -/
def Book.SideEmpty (b : Book (FlatLadder A) I P) (s : Side) : Prop :=
  ∀ px, Ladder.inBand b.bids px = true → (b.levels s px).head = none

/-- The cached best prices show which sides are empty, and the book is not crossed. -/
structure TellsEmpty (b : Book (FlatLadder A) I P) : Prop where
  best : ∀ s, b.best s = kNoPrice ↔ b.SideEmpty s
  uncrossed : ∀ px px', Ladder.inBand b.bids px = true → Ladder.inBand b.bids px' = true →
    (b.levels .bid px).head ≠ none → (b.levels .ask px').head ≠ none → px < px'

variable {b : Book (FlatLadder A) I P}

omit [Index I A] [Allocator P A (Order A)] in
/-- `best_bid()` is the cached price, empty side or not. -/
theorem best_eq (s : Side) : b.best s = (b.ladder s).best := by
  change (FlatLadder.price? (b.ladder s).best).getD kNoPrice = (b.ladder s).best
  unfold FlatLadder.price?
  split_ifs with h
  · exact h.symm
  · rfl

theorem tellsEmpty_of_repr [LawfulIndex I A] [LawfulAllocator P A (Order A)] {c : Config} {F : Flat}
    (h : Book.Repr c b F) : TellsEmpty b where
  best s := by
    have hband : ∀ px, Ladder.inBand b.bids px = c.inBand px := h.inBand .bid
    rw [best_eq, h.best_eq_kNoPrice_iff s, Book.SideEmpty]
    simp only [hband]
  uncrossed px px' hpx hpx' := by
    have hband : ∀ px, Ladder.inBand b.bids px = c.inBand px := h.inBand .bid
    rw [hband] at hpx hpx'
    exact h.heads_uncrossed hpx hpx'

/-- Announcing a level at the sentinel leaves the cached price as it was on an empty side. -/
theorem link_kNoPrice {l : FlatLadder A} (hin : l.inBand kNoPrice = true) (hbest : l.best = kNoPrice)
    (hlt : l.idx kNoPrice < l.levels.length) (f : Level A → Level A) :
    (Ladder.link Side.bid l kNoPrice f).best = kNoPrice ∧
      (Ladder.link Side.bid l kNoPrice f).level kNoPrice = f (l.level kNoPrice) := by
  have hset : (l.setLevel kNoPrice (f (l.level kNoPrice))).level kNoPrice =
      f (l.level kNoPrice) := by
    rw [FlatLadder.level_setLevel hlt hin hin, if_pos rfl]
  rw [FlatLadder.link_eq]
  split_ifs
  · refine ⟨?_, hset⟩
    unfold FlatLadder.onNonempty
    simp only [FlatLadder.setLevel, hbest, true_or, if_true]
  · exact ⟨hbest, hset⟩

/-- A bid that rests at the sentinel, alone on its side, is not told of. -/
theorem not_tellsEmpty_rest (hin : b.bids.inBand kNoPrice = true) (hbest : b.bids.best = kNoPrice)
    (hlt : b.bids.idx kNoPrice < b.bids.levels.length)
    (htail : (b.bids.level kNoPrice).tail = none) (id : OrderId) (qty : Qty) (owner : Owner) :
    ¬ TellsEmpty (b.rest .bid id kNoPrice qty owner) := by
  intro ht
  have hbest' : ((b.rest .bid id kNoPrice qty owner).ladder .bid).best = kNoPrice :=
    (link_kNoPrice hin hbest hlt _).1
  obtain ⟨a, hlevel⟩ : ∃ a, (b.rest .bid id kNoPrice qty owner).levels .bid kNoPrice =
      Book.pushLevel a qty (b.bids.level kNoPrice) := ⟨_, (link_kNoPrice hin hbest hlt _).2⟩
  have hin' : Ladder.inBand (b.rest .bid id kNoPrice qty owner).bids kNoPrice = true := by
    change (Ladder.link Side.bid b.bids kNoPrice _).inBand kNoPrice = true
    rw [FlatLadder.link_eq]
    split_ifs <;> exact hin
  have hhead := (ht.best .bid).mp ((best_eq .bid).trans hbest') kNoPrice hin'
  rw [hlevel] at hhead
  simp [Book.pushLevel, htail] at hhead

end tellsEmpty

/-! ### Over whole runs -/

/-- The engine `v5` after a run. -/
def BookV5.run (p : Params) (ops : List Op) : BookV5 :=
  Transition.finalState Book.V4.call (BookV5.new p) ops

section runs

variable {p : Params}

/-- What the two engines on a flat ladder share, started on the band of `p`. -/
structure BandEngine {A I P : Type} [Index I A] [Allocator P A (Order A)] [LawfulIndex I A]
    [LawfulAllocator P A (Order A)] (p : Params)
    (call : Book (FlatLadder A) I P → Op → Book (FlatLadder A) I P × Answer)
    (b : Book (FlatLadder A) I P) : Prop where
  bids : b.bids = FlatLadder.new p.bandLo p.bandHi
  accepts : ∀ px, p.inBand px = true → call b (.submitLimit 1 .bid px 1 .gtc 0) =
    (b.rest .bid 1 px 1 0, .submit { filled := 0, rested := true, rejected := false }, [])
  refuses : ∀ b, (∀ px ≤ 0, Ladder.inBand b.bids px = false) → RefusesNonPositive call b
  repr : p.inBand kNoPrice = false → ∀ ops, ∃ c F, c.inBand = p.inBand ∧
    Book.Repr c (Transition.finalState call b ops) F

namespace BandEngine

variable {A I P : Type} [Index I A] [Allocator P A (Order A)] [LawfulIndex I A]
  [LawfulAllocator P A (Order A)]
  {call : Book (FlatLadder A) I P → Op → Book (FlatLadder A) I P × Answer}
  {b : Book (FlatLadder A) I P} (h : BandEngine p call b)

include h

/-- A bid at the sentinel rests unseen if the band has that price. -/
theorem tellsEmpty_iff : (∀ ops, TellsEmpty (Transition.finalState call b ops)) ↔
    p.inBand kNoPrice = false := by
  constructor
  · intro hall
    by_contra hin
    rw [Bool.not_eq_false] at hin
    have ht := hall [.submitLimit 1 .bid kNoPrice 1 .gtc 0]
    simp only [Transition.finalState, h.accepts kNoPrice hin] at ht
    have hin' : b.bids.inBand kNoPrice = true := by
      rw [h.bids]
      exact hin
    have hframe : b.bids.Frame p.bandLo p.bandHi := h.bids ▸ FlatLadder.new_frame _ _
    refine not_tellsEmpty_rest hin' (by rw [h.bids]; rfl) (hframe.idx_lt hin') ?_ 1 1 0 ht
    rw [h.bids, FlatLadder.new_level (h.bids ▸ hin')]
  · intro hapart ops
    obtain ⟨c, F, -, hr⟩ := h.repr hapart ops
    exact tellsEmpty_of_repr hr

theorem lo_pos_iff (hband : p.bandLo < p.bandHi) :
    (∀ ops, RefusesNonPositive call (Transition.finalState call b ops) ∧
      TellsEmpty (Transition.finalState call b ops)) ↔ 1 ≤ p.bandLo := by
  constructor
  · intro hall
    by_contra hlo
    -- the lowest price of the band is accepted
    have hin : p.inBand p.bandLo = true := by
      rw [Params.inBand, Bool.and_eq_true, decide_eq_true_eq, decide_eq_true_eq]
      exact ⟨Int.le_refl _, hband⟩
    have hrefused := (hall []).1.limit 1 .bid p.bandLo 1 .gtc 0 (by omega)
    rw [Transition.finalState, h.accepts _ hin] at hrefused
    cases congrArg (fun x => x.2.1) hrefused
  · intro hlo ops
    have hout : ∀ px ≤ 0, p.inBand px = false := by
      intro px hpx
      have hlt : ¬ p.bandLo ≤ px := by omega
      rw [Params.inBand, decide_eq_false hlt, Bool.false_and]
    obtain ⟨c, F, hc, hr⟩ := h.repr (hout kNoPrice (Int.le_refl _)) ops
    refine ⟨h.refuses _ fun px hpx => ?_, tellsEmpty_of_repr hr⟩
    refine (hr.inBand .bid px).trans ?_
    rw [hc]
    exact hout px hpx

end BandEngine

theorem OrderBook.bandEngine (hslots : p.idMapSlots ≤ 2 ^ 63) :
    BandEngine p Book.call (OrderBook.new p) where
  bids := rfl
  accepts px hpx := by
    have hfind : Index.find (OrderBook.new p).orders 1 = none := IdMap.new_find hslots 1
    have hbad : ¬ ((1 : OrderId) = 0 ∨ (1 : Qty) = 0 ∨
        Ladder.inBand (OrderBook.new p).bids px = false) := by
      rintro (h | h | h)
      · cases h
      · cases h
      · cases h.symm.trans hpx
    have hexec : (OrderBook.new p).execute .bid 1 px 1 .gtc 0 = _ :=
      Book.execute_of_best?_eq_none (FlatLadder.price?_eq_none.mpr rfl) (by decide)
    simp only [Book.call, Book.callWith, Book.submitLimit, if_neg hbad, hfind, Option.isSome_none,
      Bool.false_eq_true, if_false, hexec]
  refuses b := refuses_of_call
  repr hapart ops := by
    obtain ⟨F, h⟩ := (OrderBook.new_repr_of_apart hapart hslots).exists_finalState
      (fun _ _ op h => ⟨_, (h.call op).2⟩) ops
    exact ⟨_, F, rfl, h⟩

theorem BookV5.bandEngine (p : Params) : BandEngine p Book.V4.call (BookV5.new p) where
  bids := rfl
  accepts px hpx := by
    have hfind : Index.find (BookV5.new p).orders 1 = none := rfl
    have hbad : ¬ ((1 : Qty) = 0 ∨ Ladder.inBand (BookV5.new p).bids px = false) := by
      rintro (h | h)
      · cases h
      · cases h.symm.trans hpx
    have hexec : (BookV5.new p).execute .bid 1 px 1 .gtc 0 = _ :=
      Book.execute_of_best?_eq_none (FlatLadder.price?_eq_none.mpr rfl) (by decide)
    simp only [Book.V4.call, Book.callWith, Book.V4.submitLimit, if_neg hbad, hfind,
      Option.isSome_none, Bool.false_eq_true, if_false, hexec]
  refuses b := refuses_of_callV4
  repr hapart ops := by
    obtain ⟨F, h⟩ := (BookV5.new_repr hapart).exists_finalState
      (fun _ _ op h => h.stepV4 (fun _ => trivial) op) ops
    exact ⟨_, F, rfl, h⟩

/-- **The sentinel is apart from the prices that rest** exactly on the bands without it. -/
theorem tellsEmpty_run_iff (hslots : p.idMapSlots ≤ 2 ^ 63) :
    ((∀ ops, TellsEmpty (OrderBook.run p ops)) ↔ p.inBand kNoPrice = false) ∧
      ((∀ ops, TellsEmpty (BookV5.run p ops)) ↔ p.inBand kNoPrice = false) :=
  ⟨(OrderBook.bandEngine hslots).tellsEmpty_iff, (BookV5.bandEngine p).tellsEmpty_iff⟩

end runs

/-- **Prices `≤ 0` are refused, and `kNoPrice` means an empty side,** after every run, exactly on
the bands that start above the sentinel. -/
theorem sentinel_iff (p : Params) (hband : p.bandLo < p.bandHi) (hslots : p.idMapSlots ≤ 2 ^ 63) :
    ((∀ ops, RefusesNonPositive Book.call (OrderBook.run p ops) ∧
        TellsEmpty (OrderBook.run p ops)) ↔ 1 ≤ p.bandLo) ∧
      ((∀ ops, RefusesNonPositive Book.V4.call (BookV5.run p ops) ∧
        TellsEmpty (BookV5.run p ops)) ↔ 1 ≤ p.bandLo) :=
  ⟨(OrderBook.bandEngine hslots).lo_pos_iff hband, (BookV5.bandEngine p).lo_pos_iff hband⟩

/-- On a band that starts at `1`, a price `≤ 0` is refused, and a side that holds a bid is no empty
one. -/
theorem sentinel_iff_small :
    RefusesNonPositive Book.call
        (OrderBook.run { poolCapacity := 1, bandHi := 9, idMapSlots := 4 }
          [.submitLimit 1 .bid 3 5 .gtc 0]) ∧
      TellsEmpty (OrderBook.run { poolCapacity := 1, bandHi := 9, idMapSlots := 4 }
        [.submitLimit 1 .bid 3 5 .gtc 0]) :=
  (sentinel_iff { poolCapacity := 1, bandHi := 9, idMapSlots := 4 } (by decide)
    (by decide)).1.mpr (by decide) _

/-- On the band `[0, 2)` a bid and an ask rest at `0` together, and both sides look empty. -/
theorem sentinel_collides :
    OrderBook.answers { poolCapacity := 1, bandLo := 0, bandHi := 2, idMapSlots := 4 }
        [.submitLimit 1 .bid 0 5 .gtc 0, .submitLimit 2 .ask 0 5 .gtc 0] =
      [(.submit ⟨0, true, false⟩, []), (.submit ⟨0, true, false⟩, [])] ∧
    (∀ s,
      (OrderBook.run { poolCapacity := 1, bandLo := 0, bandHi := 2, idMapSlots := 4 }
        [.submitLimit 1 .bid 0 5 .gtc 0, .submitLimit 2 .ask 0 5 .gtc 0]).best s = kNoPrice) ∧
    (∀ s,
      ((OrderBook.run { poolCapacity := 1, bandLo := 0, bandHi := 2, idMapSlots := 4 }
        [.submitLimit 1 .bid 0 5 .gtc 0, .submitLimit 2 .ask 0 5 .gtc 0]).levels s 0).head ≠ none) ∧
    ¬ TellsEmpty (OrderBook.run { poolCapacity := 1, bandLo := 0, bandHi := 2, idMapSlots := 4 }
      [.submitLimit 1 .bid 0 5 .gtc 0, .submitLimit 2 .ask 0 5 .gtc 0]) := by
  refine ⟨by decide +kernel, ?_, ?_, fun h => ?_⟩
  · intro s
    cases s <;> decide +kernel
  · intro s
    cases s <;> decide +kernel
  · have hlt := h.uncrossed 0 0 (by decide +kernel) (by decide +kernel) (by decide +kernel)
      (by decide +kernel)
    exact absurd hlt (by decide)

end Lob
